/-
  `table.sort` (`ltablib.c`), and the two places where `build.lua` calls it.

  `auxsort` is a quicksort in place. Its inner loops have no bound but the pivot, which stops them
  for a valid order function; for others there is the error `invalid`. It calls itself for the
  smaller part only and goes on with the larger one, so that calls are nested no deeper than the
  logarithm of the length: this is what the depth is about.

  `sort_sorts`: with a valid order function the elements end in order, and there is no error.
  `sort_moves`: with any function at all, also one that raises errors, the elements are only
  moved, at most to the place behind the last one. `collectOutputs_sort` and `sortKeys_sort`: the
  models of `collect_outputs` and `list_targets` do what the code does.
-/
import Buildsh.Autoclean
import Buildsh.Driver
import Buildsh.Generic.Ends
import Buildsh.Generic.Rearranged

namespace Buildsh.Sort
open Buildsh.Generic

/-- How `table.sort` fails. -/
inductive Failure (ε : Type) where
  /-- a loop has more rounds than are given -/
  | rounds
  /-- the calls are nested deeper than the given depth -/
  | depth
  /-- "invalid order function for sorting" -/
  | invalid
  | raised (e : ε)

/-- The table is the state, `none` stands for `nil`. -/
abbrev SortM (ε α : Type) := EStateM (Failure ε) (Nat → Option α)

section Code

variable {ε α : Type} (lt : Option α → Option α → Except ε Bool)

def rawgeti (i : Nat) : SortM ε α (Option α) := fun a => .ok (a i) a

def rawseti (i : Nat) (v : Option α) : SortM ε α Unit := fun a => .ok () (Function.update a i v)

/-- `set2`, with the two values on top of the stack, the upper one first -/
def set2 (i j : Nat) (x y : Option α) : SortM ε α Unit := do
  rawseti i x
  rawseti j y

/-- `sort_comp`, which calls the order function -/
def sortComp (x y : Option α) : SortM ε α Bool :=
  match lt x y with
  | .ok b => pure b
  | .error e => throw (.raised e)

/-- `a[l]` and `a[u]` in order -/
def orderEnds (l u : Nat) : SortM ε α Unit := do
  let x ← rawgeti l
  let y ← rawgeti u
  if ← sortComp lt y x then set2 l u y x

/-- `a[i]` between `a[l]` and `a[u]` -/
def orderMiddle (l u i : Nat) : SortM ε α Unit := do
  let x ← rawgeti i
  let y ← rawgeti l
  if ← sortComp lt x y then set2 i l y x
  else
    let y ← rawgeti u
    if ← sortComp lt y x then set2 i u y x

/-- "repeat ++i until a[i] >= P", with `u - i` rounds until `i` is `u` -/
def scanUp (p : Option α) : Nat → Nat → SortM ε α Nat
  | 0, i => do
      let x ← rawgeti (i + 1)
      if ← sortComp lt x p then throw .invalid else return i + 1
  | d + 1, i => do
      let x ← rawgeti (i + 1)
      if ← sortComp lt x p then scanUp p d (i + 1) else return i + 1

/-- "repeat --j until a[j] <= P", with `j - l` rounds until `j` is `l` -/
def scanDown (p : Option α) : Nat → Nat → SortM ε α Nat
  | 0, j => do
      let x ← rawgeti (j - 1)
      if ← sortComp lt p x then throw .invalid else return j - 1
  | d + 1, j => do
      let x ← rawgeti (j - 1)
      if ← sortComp lt p x then scanDown p d (j - 1) else return j - 1

/-- The inner `for` loop; the result is `i`. -/
def partition_ (p : Option α) (l u : Nat) : Nat → Nat → Nat → SortM ε α Nat
  | 0, _, _ => throw .rounds
  | rounds + 1, i, j => do
      let i ← scanUp lt p (u - i) i
      let j ← scanDown lt p (j - l) j
      if j < i then return i
      else
        let x ← rawgeti i
        let y ← rawgeti j
        set2 i j y x
        partition_ p l u rounds i j

/-- What `auxsort` does with four elements or more, up to the place of the pivot. -/
def split (l u i : Nat) : SortM ε α Nat := do
  let p ← rawgeti i
  let y ← rawgeti (u - 1)
  set2 i (u - 1) y p
  let i ← partition_ lt p l u u l (u - 1)
  let x ← rawgeti (u - 1)
  let y ← rawgeti i
  set2 (u - 1) i y x
  return i

/-- The `while` loop of `auxsort`, which calls itself as `rec`. -/
def sortLoop (rec : Nat → Nat → SortM ε α Unit) : Nat → Nat → Nat → SortM ε α Unit
  | 0, l, u => if l < u then throw .rounds else pure ()
  | rounds + 1, l, u =>
      if l < u then do
        orderEnds lt l u
        if u - l = 1 then pure ()
        else
          orderMiddle lt l u ((l + u) / 2)
          if u - l = 2 then pure ()
          else
            let i ← split lt l u ((l + u) / 2)
            -- the smaller part is sorted by a call
            if i - l < u - i then
              rec l (i - 1)
              sortLoop rec rounds (i + 1) u
            else
              rec (i + 1) u
              sortLoop rec rounds l (i - 1)
      else pure ()

def auxsort (rounds : Nat) : Nat → Nat → Nat → SortM ε α Unit
  | 0, _, _ => throw .depth
  | depth + 1, l, u => sortLoop lt (auxsort rounds depth) rounds l u

/-- `table.sort`, for a table of the length `n` -/
def sort (rounds depth n : Nat) : SortM ε α Unit := auxsort lt rounds depth 1 n

end Code

/-! ## Steps -/

section Steps

variable {ε α : Type} {lt : Option α → Option α → Except ε Bool} {a : Nat → Option α}
  {x y : Option α} {bad : Failure ε → (Nat → Option α) → Prop}

theorem ends_rawgeti {i : Nat} {ok : Option α → (Nat → Option α) → Prop} (h : ok (a i) a) :
    Ends (rawgeti i) a ok bad := h

theorem ends_set2 {i j : Nat} {ok : Unit → (Nat → Option α) → Prop} (h : ok () (exchange a i j)) :
    Ends (set2 i j (a j) (a i)) a ok bad := by
  have heq : Function.update (Function.update a i (a j)) j (a i) = exchange a i j := by
    funext k
    unfold exchange Function.update
    by_cases hk : k = j
    · subst hk
      by_cases hki : k = i
      · subst hki; simp
      · simp [hki]
    · by_cases hki : k = i
      · subst hki; simp [hk]
      · simp [hk, hki]
  change ok () (Function.update (Function.update a i (a j)) j (a i))
  rw [heq]
  exact h

theorem ends_sortComp {ok : Bool → (Nat → Option α) → Prop} (hok : ∀ b, lt x y = .ok b → ok b a)
    (hbad : ∀ e, lt x y = .error e → bad (.raised e) a) : Ends (sortComp lt x y) a ok bad := by
  unfold sortComp
  cases h : lt x y with
  | ok b => exact hok b h
  | error e => exact hbad e h

end Steps

/-- The table with the elements of a list. -/
def ofList {α : Type} (l : List α) : Nat → Option α
  | 0 => none
  | i + 1 => l[i]?

/-! ## A valid order function -/

section Valid

variable {ε α : Type} {lt : Option α → Option α → Except ε Bool} {a a' : Nat → Option α}
  {P : α → Prop} {p x y z : Option α} {l u i j : Nat}

/-- `x` may stand in front of `y`. -/
def Le (lt : Option α → Option α → Except ε Bool) (x y : Option α) : Prop := lt y x = .ok false

/-- An element with `P`. -/
def Holds (P : α → Prop) (x : Option α) : Prop := ∃ y, P y ∧ x = some y

/-- A valid order function for the elements with `P`: a total order, and no errors. -/
structure Valid (lt : Option α → Option α → Except ε Bool) (P : α → Prop) : Prop where
  total : ∀ x y, P x → P y → Le lt (some x) (some y) ∨
    (lt (some y) (some x) = .ok true ∧ Le lt (some y) (some x))
  trans : ∀ x y z, P x → P y → P z → Le lt (some x) (some y) → Le lt (some y) (some z) →
    Le lt (some x) (some z)

def SortedOn (lt : Option α → Option α → Except ε Bool) (l u : Nat) (a : Nat → Option α) : Prop :=
  ∀ i j, l ≤ i → i < j → j ≤ u → Le lt (a i) (a j)

/-- There are no holes, and all elements have `P`. -/
def Full (P : α → Prop) (l u : Nat) (a : Nat → Option α) : Prop :=
  ∀ i, l ≤ i → i ≤ u → Holds P (a i)

theorem Full.of_rearranged (h : Full P l u a) {l' u' : Nat} (hl : l ≤ l') (hu : u' ≤ u)
    (hr : Rearranged l' u' a a') : Full P l u a' :=
  hr.forall (p := Holds P) (Or.inl ⟨hl, hu⟩) h

theorem Full.sub (h : Full P l u a) {l' u' : Nat} (hl : l ≤ l') (hu : u' ≤ u) : Full P l' u' a :=
  fun i hi hi' => h i (by omega) (by omega)

theorem Valid.refl (h : Valid lt P) (hx : Holds P x) : Le lt x x := by
  obtain ⟨x, hx, rfl⟩ := hx
  rcases h.total x x hx hx with hle | ⟨-, hle⟩
  · exact hle
  · exact hle

theorem Valid.trans' (h : Valid lt P) (hx : Holds P x) (hy : Holds P y) (hz : Holds P z)
    (hxy : Le lt x y) (hyz : Le lt y z) : Le lt x z := by
  obtain ⟨x, hx, rfl⟩ := hx
  obtain ⟨y, hy, rfl⟩ := hy
  obtain ⟨z, hz, rfl⟩ := hz
  exact h.trans x y z hx hy hz hxy hyz

/-- A comparison, and what it says. -/
theorem Valid.ends_sortComp (h : Valid lt P) (hx : Holds P x) (hy : Holds P y)
    {ok : Bool → (Nat → Option α) → Prop} {bad : Failure ε → (Nat → Option α) → Prop}
    (htrue : lt x y = .ok true → Le lt x y → ok true a) (hfalse : Le lt y x → ok false a) :
    Ends (sortComp lt x y) a ok bad := by
  obtain ⟨x, hx, rfl⟩ := hx
  obtain ⟨y, hy, rfl⟩ := hy
  refine Sort.ends_sortComp (fun b hb => ?_) fun e he => ?_
  · cases b with
    | false => exact hfalse hb
    | true =>
        rcases h.total y x hy hx with hle | ⟨-, hle⟩
        · rw [Le, hb] at hle
          cases hle
        · exact htrue hb hle
  · rcases h.total y x hy hx with hle | ⟨htrue', -⟩
    · rw [Le, he] at hle
      cases hle
    · rw [he] at htrue'
      cases htrue'

theorem orderEnds_spec (h : Valid lt P) (hlu : l < u) (ha : Full P l u a) :
    Ends (orderEnds lt l u) a (fun _ a' => Rearranged l u a a' ∧ Le lt (a' l) (a' u))
      fun _ _ => False := by
  have hl := ha l (le_refl l) (by omega)
  have hu := ha u (by omega) (le_refl u)
  refine Ends.bind (ends_rawgeti (Ends.bind (ends_rawgeti (Ends.bind ?_))))
  refine h.ends_sortComp hu hl (fun _ hle => ?_) fun hle => ?_
  · refine ends_set2 ⟨rearranged_exchange a (by omega) (by omega), ?_⟩
    rw [exchange_left, exchange_right]
    exact hle
  · exact ⟨Rearranged.refl l u a, hle⟩

theorem orderMiddle_spec (h : Valid lt P) (hl : l < i) (hu : i < u) (ha : Full P l u a)
    (hle : Le lt (a l) (a u)) :
    Ends (orderMiddle lt l u i) a
      (fun _ a' => Rearranged l u a a' ∧ Le lt (a' l) (a' i) ∧ Le lt (a' i) (a' u))
      fun _ _ => False := by
  have hal := ha l (le_refl l) (by omega)
  have hau := ha u (by omega) (le_refl u)
  have hai := ha i (by omega) (by omega)
  refine Ends.bind (ends_rawgeti (Ends.bind (ends_rawgeti (Ends.bind ?_))))
  refine h.ends_sortComp hai hal (fun _ hil => ?_) fun hli => ?_
  · refine ends_set2 ⟨rearranged_exchange a (by omega) (by omega), ?_⟩
    rw [exchange_left, exchange_right, exchange_of_ne a (by omega) (by omega)]
    exact ⟨hil, hle⟩
  · refine Ends.bind (ends_rawgeti (Ends.bind ?_))
    refine h.ends_sortComp hau hai (fun _ hui => ?_) fun hiu => ?_
    · refine ends_set2 ⟨rearranged_exchange a (by omega) (by omega), ?_⟩
      rw [exchange_left, exchange_right, exchange_of_ne a (by omega) (by omega)]
      exact ⟨hle, hui⟩
    · exact ⟨Rearranged.refl l u a, hli, hiu⟩

/-- The scan ends at `m` at the latest, where an element is not smaller than the pivot. -/
theorem scanUp_spec (h : Valid lt P) (hp : Holds P p) {d m : Nat} (him : i < m) (hmd : m ≤ i + d + 1)
    (ha : ∀ k, i < k → k ≤ m → Holds P (a k)) (hm : Le lt p (a m)) :
    Ends (scanUp lt p d i) a (fun i' a' => a' = a ∧ i < i' ∧ i' ≤ m ∧
      (∀ k, i < k → k < i' → Le lt (a k) p) ∧ Le lt p (a i')) fun _ _ => False := by
  induction d generalizing i with
  | zero =>
      refine Ends.bind (ends_rawgeti (Ends.bind ?_))
      refine h.ends_sortComp (ha (i + 1) (by omega) (by omega)) hp (fun hlt _ => ?_) fun hle => ?_
      · obtain rfl : m = i + 1 := by omega
        rw [Le, hlt] at hm
        cases hm
      · exact ⟨rfl, by omega, by omega, fun k hk hk' => by omega, hle⟩
  | succ d ih =>
      refine Ends.bind (ends_rawgeti (Ends.bind ?_))
      refine h.ends_sortComp (ha (i + 1) (by omega) (by omega)) hp (fun hlt hle => ?_) fun hle => ?_
      · have hne : m ≠ i + 1 := by
          rintro rfl
          rw [Le, hlt] at hm
          cases hm
        refine (ih (by omega) (by omega) fun k hk => ha k (by omega)).imp ?_
        rintro i' a' ⟨rfl, hi', hm', hscanned, hstop⟩
        refine ⟨rfl, by omega, hm', fun k hk hk' => ?_, hstop⟩
        rcases Nat.eq_or_lt_of_le (Nat.succ_le_of_lt hk) with rfl | hk
        · exact hle
        · exact hscanned k hk hk'
      · exact ⟨rfl, by omega, by omega, fun k hk hk' => by omega, hle⟩

theorem scanDown_spec (h : Valid lt P) (hp : Holds P p) {d m : Nat} (hmj : m < j)
    (hmd : j ≤ m + d + 1) (ha : ∀ k, m ≤ k → k < j → Holds P (a k)) (hm : Le lt (a m) p) :
    Ends (scanDown lt p d j) a (fun j' a' => a' = a ∧ m ≤ j' ∧ j' < j ∧
      (∀ k, j' < k → k < j → Le lt p (a k)) ∧ Le lt (a j') p) fun _ _ => False := by
  induction d generalizing j with
  | zero =>
      refine Ends.bind (ends_rawgeti (Ends.bind ?_))
      refine h.ends_sortComp hp (ha (j - 1) (by omega) (by omega)) (fun hlt _ => ?_) fun hle => ?_
      · obtain rfl : m = j - 1 := by omega
        rw [Le, hlt] at hm
        cases hm
      · exact ⟨rfl, by omega, by omega, fun k hk hk' => by omega, hle⟩
  | succ d ih =>
      refine Ends.bind (ends_rawgeti (Ends.bind ?_))
      refine h.ends_sortComp hp (ha (j - 1) (by omega) (by omega)) (fun hlt hle => ?_) fun hle => ?_
      · have hne : m ≠ j - 1 := by
          rintro rfl
          rw [Le, hlt] at hm
          cases hm
        refine (ih (by omega) (by omega) fun k hk hk' => ha k hk (by omega)).imp ?_
        rintro j' a' ⟨rfl, hj', hm', hscanned, hstop⟩
        refine ⟨rfl, hj', by omega, fun k hk hk' => ?_, hstop⟩
        rcases Nat.lt_or_ge k (j - 1) with hkj | hkj
        · exact hscanned k hk hkj
        · obtain rfl : k = j - 1 := by omega
          exact hle
      · exact ⟨rfl, by omega, by omega, fun k hk hk' => by omega, hle⟩

/-- The pivot is in its place, what lies up to `i` is not larger, and what lies from `j` on is not
    smaller. -/
structure Around (lt : Option α → Option α → Except ε Bool) (P : α → Prop) (p : Option α)
    (l u i j : Nat) (a : Nat → Option α) : Prop where
  full : Full P l u a
  pivot : a (u - 1) = p
  left : ∀ k, l ≤ k → k ≤ i → Le lt (a k) p
  right : ∀ k, j ≤ k → k ≤ u → Le lt p (a k)

/-- What one round of the inner loop exchanges. -/
theorem Around.exchange (h : Around lt P p l u i j a) {i' j' : Nat} (hii : i < i') (hij : i' ≤ j')
    (hjj : j' < j) (hj : j < u) (hli : l ≤ i) (hscanned : ∀ k, i < k → k < i' → Le lt (a k) p)
    (hstop : Le lt p (a i')) (hscanned' : ∀ k, j' < k → k < j → Le lt p (a k))
    (hstop' : Le lt (a j') p) : Around lt P p l u i' j' (exchange a i' j') where
  full := h.full.of_rearranged (le_refl l) (le_refl u)
    (rearranged_exchange a (by omega) (by omega))
  pivot := by rw [exchange_of_ne a (by omega) (by omega), h.pivot]
  left k hk hk' := by
    rcases Nat.eq_or_lt_of_le hk' with rfl | hk'
    · rw [exchange_left]
      exact hstop'
    · rw [exchange_of_ne a (by omega) (by omega)]
      rcases Nat.lt_or_ge i k with hik | hik
      · exact hscanned k hik hk'
      · exact h.left k hk hik
  right k hk hk' := by
    rcases Nat.eq_or_lt_of_le hk with rfl | hk
    · rw [exchange_right]
      exact hstop
    · rw [exchange_of_ne a (by omega) (by omega)]
      rcases Nat.lt_or_ge k j with hkj | hkj
      · exact hscanned' k hk hkj
      · exact h.right k hkj hk'

/-- The inner loop ends with `i` behind what is not larger than the pivot, and not behind the
    pivot itself. -/
theorem partition_spec (h : Valid lt P) {rounds : Nat} (hrounds : j < i + rounds) (hij : i ≤ j)
    (hli : l ≤ i) (hiu : i + 1 < u) (hlj : l < j) (hju : j < u) (ha : Around lt P p l u i j a) :
    Ends (partition_ lt p l u rounds i j) a (fun i' a' => Rearranged l u a a' ∧ l < i' ∧ i' < u ∧
      Around lt P p l u (i' - 1) i' a') fun _ _ => False := by
  induction rounds generalizing i j a with
  | zero => omega
  | succ rounds ih =>
      have hp : Holds P p := by
        rw [← ha.pivot]
        exact ha.full (u - 1) (by omega) (by omega)
      refine Ends.bind ((scanUp_spec h hp (m := u - 1) (by omega) (by omega)
        (fun k hk hk' => ha.full k (by omega) (by omega)) ?_).imp ?_)
      · rw [ha.pivot]
        exact h.refl hp
      rintro i' a' ⟨rfl, hii, hiu', hscanned, hstop⟩
      refine Ends.bind ((scanDown_spec h hp (m := l) hlj (by omega)
        (fun k hk hk' => ha.full k hk (by omega)) (ha.left l (le_refl l) hli)).imp ?_)
      rintro j' a'' ⟨rfl, hlj', hjj, hscanned', hstop'⟩
      refine ends_ite (fun hji => ?_) fun hji => ?_
      · refine ⟨Rearranged.refl l u _, by omega, by omega, ha.full, ha.pivot, fun k hk hk' => ?_,
          fun k hk hk' => ?_⟩
        · rcases Nat.lt_or_ge i k with hik | hik
          · exact hscanned k hik (by omega)
          · exact ha.left k hk hik
        · rcases Nat.eq_or_lt_of_le hk with rfl | hk
          · exact hstop
          · rcases Nat.lt_or_ge k j with hkj | hkj
            · exact hscanned' k (by omega) hkj
            · exact ha.right k hkj hk'
      · refine Ends.bind (ends_rawgeti (Ends.bind (ends_rawgeti (Ends.bind (ends_set2 ?_)))))
        have hnext := ha.exchange hii (Nat.le_of_not_lt hji) hjj hju hli hscanned hstop hscanned'
          hstop'
        refine (ih (by omega) (by omega) (by omega) (by omega) (by omega) (by omega) hnext).imp ?_
        rintro i'' a'' ⟨hr, hrest⟩
        exact ⟨(rearranged_exchange _ (by omega) (by omega)).trans hr, hrest⟩

/-- The pivot comes to its place, and the rest is divided by it. -/
theorem split_spec (h : Valid lt P) (hli : l < i) (hiu : i + 1 < u) (ha : Full P l u a)
    (hle : Le lt (a l) (a i)) (hle' : Le lt (a i) (a u)) :
    Ends (split lt l u i) a (fun i' a' => Rearranged l u a a' ∧ l < i' ∧ i' < u ∧
      (∀ k, l ≤ k → k < i' → Le lt (a' k) (a' i')) ∧ ∀ k, i' < k → k ≤ u → Le lt (a' i') (a' k))
      fun _ _ => False := by
  refine Ends.bind (ends_rawgeti (Ends.bind (ends_rawgeti (Ends.bind (ends_set2 ?_)))))
  have hfull := ha.of_rearranged (le_refl l) (le_refl u)
    (rearranged_exchange a (i := i) (j := u - 1) (by omega) (by omega))
  have haround : Around lt P (a i) l u l (u - 1) (exchange a i (u - 1)) := by
    refine ⟨hfull, exchange_right a i (u - 1), fun k hk hk' => ?_, fun k hk hk' => ?_⟩
    · obtain rfl : k = l := by omega
      rw [exchange_of_ne a (by omega) (by omega)]
      exact hle
    · rcases Nat.eq_or_lt_of_le hk with rfl | hk
      · rw [exchange_right]
        exact h.refl (ha i (by omega) (by omega))
      · obtain rfl : k = u := by omega
        rw [exchange_of_ne a (by omega) (by omega)]
        exact hle'
  refine Ends.bind ((partition_spec h (by omega) (by omega) (le_refl l) (by omega) (by omega)
    (by omega) haround).imp ?_)
  rintro i' b ⟨hr, hli', hiu', hb⟩
  refine Ends.bind (ends_rawgeti (Ends.bind (ends_rawgeti (Ends.bind (ends_set2 ?_)))))
  refine ⟨(rearranged_exchange a (by omega) (by omega)).trans
    (hr.trans (rearranged_exchange b (by omega) (by omega))), hli', hiu', fun k hk hk' => ?_,
    fun k hk hk' => ?_⟩
  · rw [exchange_right, hb.pivot, exchange_of_ne b (by omega) (by omega)]
    exact hb.left k hk (by omega)
  · rw [exchange_right, hb.pivot]
    rcases Nat.lt_trichotomy k (u - 1) with hku | rfl | hku
    · rw [exchange_of_ne b (by omega) (by omega)]
      exact hb.right k (by omega) hk'
    · rw [exchange_left]
      exact hb.right i' (le_refl i') (by omega)
    · rw [exchange_of_ne b (by omega) (by omega)]
      exact hb.right k (by omega) hk'

/-- The two parts and the element between them. -/
theorem SortedOn.join (h : Valid lt P) (ha : Full P l u a) (hli : l ≤ i) (hiu : i ≤ u)
    (hleft : ∀ k, l ≤ k → k < i → Le lt (a k) (a i))
    (hright : ∀ k, i < k → k ≤ u → Le lt (a i) (a k)) (hl : SortedOn lt l (i - 1) a)
    (hr : SortedOn lt (i + 1) u a) : SortedOn lt l u a := by
  intro j k hj hjk hk
  rcases Nat.lt_trichotomy k i with hki | rfl | hki
  · exact hl j k hj hjk (by omega)
  · exact hleft j hj hjk
  · rcases Nat.lt_trichotomy j i with hji | rfl | hji
    · exact h.trans' (ha j hj (by omega)) (ha i hli hiu) (ha k (by omega) hk)
        (hleft j hj hji) (hright k hki hk)
    · exact hright k hki hk
    · exact hr j k hji hjk hk

/-- What a call of `auxsort` is for. -/
def Sorts (lt : Option α → Option α → Except ε Bool) (m : SortM ε α Unit) (l u : Nat)
    (a : Nat → Option α) : Prop :=
  Ends m a (fun _ a' => Rearranged l u a a' ∧ SortedOn lt l u a') fun _ _ => False

theorem SortedOn.of_outside (h : SortedOn lt l u a) {l' u' : Nat} (hr : Rearranged l' u' a a')
    (hout : u < l' ∨ u' < l) : SortedOn lt l u a' := by
  intro i j hi hij hj
  rw [hr.outside (by omega), hr.outside (by omega)]
  exact h i j hi hij hj

/-- First one part of the range, then the rest of it. -/
theorem Sorts.then {m m' : SortM ε α Unit} {l₁ u₁ l₂ u₂ : Nat} (h : Valid lt P) (ha : Full P l u a)
    (hli : l < i) (hiu : i ≤ u) (hleft : ∀ k, l ≤ k → k < i → Le lt (a k) (a i))
    (hright : ∀ k, i < k → k ≤ u → Le lt (a i) (a k))
    (hparts : (l₁ = l ∧ u₁ = i - 1 ∧ l₂ = i + 1 ∧ u₂ = u) ∨
      (l₁ = i + 1 ∧ u₁ = u ∧ l₂ = l ∧ u₂ = i - 1))
    (hm : Sorts lt m l₁ u₁ a) (hm' : ∀ b, Full P l₂ u₂ b → Sorts lt m' l₂ u₂ b) :
    Sorts lt (m >>= fun _ => m') l u a := by
  refine Ends.then hm ?_
  rintro - b ⟨hr, hsorted⟩
  have hb : Full P l u b := ha.of_rearranged (by omega) (by omega) hr
  refine (hm' b (hb.sub (by omega) (by omega))).imp ?_
  rintro - c ⟨hr', hsorted'⟩
  have hc : Full P l u c := hb.of_rearranged (by omega) (by omega) hr'
  have hi : c i = a i := by rw [hr'.outside (by omega), hr.outside (by omega)]
  have hboth : ∀ {p : Option α → Prop} {l₀ u₀ : Nat},
      ((l₀ = l ∧ u₀ = i - 1) ∨ (l₀ = i + 1 ∧ u₀ = u)) → (∀ k, l₀ ≤ k → k ≤ u₀ → p (a k)) →
        ∀ k, l₀ ≤ k → k ≤ u₀ → p (c k) := fun hr₀ hp =>
    hr'.forall (by omega) (hr.forall (by omega) hp)
  refine ⟨(hr.mono (by omega) (by omega)).trans (hr'.mono (by omega) (by omega)), ?_⟩
  have hsorted₁ : SortedOn lt l₁ u₁ c := hsorted.of_outside hr' (by omega)
  refine SortedOn.join h hc (by omega) hiu (fun k hk hki => ?_) (fun k hik hk => ?_) ?_ ?_
  · rw [hi]
    exact hboth (p := fun x => Le lt x (a i)) (Or.inl ⟨rfl, rfl⟩)
      (fun k hk hki => hleft k hk (by omega)) k hk (by omega)
  · rw [hi]
    exact hboth (p := fun x => Le lt (a i) x) (Or.inr ⟨rfl, rfl⟩)
      (fun k hik hk => hright k (by omega) hk) k (by omega) hk
  · rcases hparts with ⟨rfl, rfl, rfl, rfl⟩ | ⟨rfl, rfl, rfl, rfl⟩
    · exact hsorted₁
    · exact hsorted'
  · rcases hparts with ⟨rfl, rfl, rfl, rfl⟩ | ⟨rfl, rfl, rfl, rfl⟩
    · exact hsorted'
    · exact hsorted₁

/-- The loop, with calls that sort anything that is not longer than half of the range. -/
theorem sortLoop_spec (h : Valid lt P) {rec : Nat → Nat → SortM ε α Unit} {n rounds : Nat}
    (hrec : 2 < n → ∀ l u a, 2 * (u + 1 - l) ≤ n → Full P l u a → Sorts lt (rec l u) l u a)
    (hrounds : u ≤ l + rounds) (hn : u - l ≤ n) (ha : Full P l u a) :
    Sorts lt (sortLoop lt rec rounds l u) l u a := by
  induction rounds generalizing l u a with
  | zero =>
      unfold sortLoop
      rw [if_neg (by omega)]
      exact ⟨Rearranged.refl l u a, fun i j hi hij hj => by omega⟩
  | succ rounds ih =>
      unfold sortLoop
      refine ends_ite (fun hlu => ?_) fun hlu => ?_
      · refine Ends.then (orderEnds_spec h hlu ha) ?_
        rintro - b ⟨hr, hle⟩
        have hb := ha.of_rearranged (le_refl l) (le_refl u) hr
        refine ends_ite (fun hone => ?_) fun hone => ?_
        · refine ⟨hr, fun i j hi hij hj => ?_⟩
          obtain ⟨rfl, rfl⟩ : i = l ∧ j = u := by omega
          exact hle
        refine Ends.then (orderMiddle_spec h (i := (l + u) / 2) (by omega) (by omega) hb hle) ?_
        rintro - c ⟨hr', hle₁, hle₂⟩
        have hc := hb.of_rearranged (le_refl l) (le_refl u) hr'
        have hac := hr.trans hr'
        refine ends_ite (fun htwo => ?_) fun htwo => ?_
        · have hmid : (l + u) / 2 = l + 1 := by omega
          rw [hmid] at hle₁ hle₂
          refine ⟨hac, SortedOn.join h hc (i := l + 1) (by omega) (by omega)
            (fun k hk hki => ?_) (fun k hik hk => ?_) (fun i j hi hij hj => by omega)
            fun i j hi hij hj => by omega⟩
          · obtain rfl : k = l := by omega
            exact hle₁
          · obtain rfl : k = u := by omega
            exact hle₂
        refine Ends.then (split_spec h (by omega) (by omega) hc hle₁ hle₂) ?_
        rintro i d ⟨hr'', hli, hiu, hleft, hright⟩
        have hd := hc.of_rearranged (le_refl l) (le_refl u) hr''
        have hsorts : ∀ {m : SortM ε α Unit}, Sorts lt m l u d →
            Ends m d (fun _ a' => Rearranged l u a a' ∧ SortedOn lt l u a') fun _ _ => False := by
          intro m hm
          refine Ends.imp hm ?_
          rintro - e ⟨hre, hse⟩
          exact ⟨(hac.trans hr'').trans hre, hse⟩
        refine ends_ite (fun hsmall => hsorts ?_) fun hsmall => hsorts ?_
        · exact Sorts.then h hd hli hiu.le hleft hright (Or.inl ⟨rfl, rfl, rfl, rfl⟩)
            (hrec (by omega) l (i - 1) d (by omega) (hd.sub (le_refl l) (by omega)))
            fun e he => ih (by omega) (by omega) he
        · exact Sorts.then h hd hli hiu.le hleft hright (Or.inr ⟨rfl, rfl, rfl, rfl⟩)
            (hrec (by omega) (i + 1) u d (by omega) (hd.sub (by omega) (le_refl u)))
            fun e he => ih (by omega) (by omega) he
      · exact ⟨Rearranged.refl l u a, fun i j hi hij hj => by omega⟩

/-- Calls are nested no deeper than the length has binary digits. -/
theorem auxsort_spec (h : Valid lt P) {rounds depth : Nat} (hdepth : 0 < depth)
    (hn : u + 1 - l < 2 ^ (depth + 1)) (hrounds : u ≤ l + rounds) (ha : Full P l u a) :
    Sorts lt (auxsort lt rounds depth l u) l u a := by
  induction depth generalizing l u a with
  | zero => omega
  | succ depth ih =>
      unfold auxsort
      refine sortLoop_spec h (fun hlong l' u' a' hn' ha' => ?_) hrounds (le_refl _) ha
      have hpow : 2 ^ (depth + 1 + 1) = 2 * 2 ^ (depth + 1) := Nat.pow_succ'
      refine ih (Nat.pos_of_ne_zero ?_) (by omega) (by omega) ha'
      rintro rfl
      omega

/-- **`table.sort` sorts.** With a valid order function it ends without an error, the elements are
    in order, and calls of `auxsort` are nested at most `depth` deep for less than
    `2 ^ (depth + 1)` elements. -/
theorem sort_sorts (h : Valid lt P) {rounds depth n : Nat} (ha : Full P 1 n a)
    (hrounds : n ≤ rounds) (hdepth : 0 < depth) (hn : n < 2 ^ (depth + 1)) :
    ∃ a', sort lt rounds depth n a = .ok () a' ∧ Rearranged 1 n a a' ∧ SortedOn lt 1 n a' := by
  have hsorts : Sorts lt (auxsort lt rounds depth 1 n) 1 n a :=
    auxsort_spec h hdepth hn (by omega) ha
  obtain ⟨⟨⟩, a', hok, hsorted⟩ := hsorts.not_error
  exact ⟨a', hok, hsorted⟩

end Valid

/-! ## Any order function -/

section Any

variable {ε α : Type} {lt : Option α → Option α → Except ε Bool} {a a' : Nat → Option α}
  {p : Option α} {l u i j : Nat} {D D' : Prop}

/-- Nothing gets lost, whatever the order function says, and if `D` the depth is enough. -/
def Moves (D : Prop) (m : SortM ε α Unit) (l u : Nat) (a : Nat → Option α) : Prop :=
  Ends m a (fun _ a' => Rearranged l (u + 1) a a')
    fun e a' => Rearranged l (u + 1) a a' ∧ (D → e ≠ .depth)

theorem moves_sortComp {x y : Option α} {ok : Bool → (Nat → Option α) → Prop} {l' u' : Nat}
    (hr : Rearranged l' u' a a') (h : ∀ b, ok b a') :
    Ends (sortComp lt x y) a' ok fun e b => Rearranged l' u' a b ∧ (D → e ≠ .depth) :=
  ends_sortComp (fun b _ => h b) fun _ _ => ⟨hr, fun _ => by simp⟩

theorem orderEnds_moves (hlu : l < u) (a : Nat → Option α) : Moves D (orderEnds lt l u) l u a := by
  refine Ends.bind (ends_rawgeti (Ends.bind (ends_rawgeti (Ends.bind ?_))))
  refine moves_sortComp (Rearranged.refl l (u + 1) a) fun b => ?_
  cases b with
  | false => exact Rearranged.refl l (u + 1) a
  | true => exact ends_set2 (rearranged_exchange a (by omega) (by omega))

theorem orderMiddle_moves (hl : l ≤ i) (hu : i ≤ u) (hr : Rearranged l (u + 1) a a') :
    Ends (orderMiddle lt l u i) a' (fun _ b => Rearranged l (u + 1) a b)
      fun e b => Rearranged l (u + 1) a b ∧ (D → e ≠ .depth) := by
  refine Ends.bind (ends_rawgeti (Ends.bind (ends_rawgeti (Ends.bind ?_))))
  refine moves_sortComp hr fun b => ?_
  cases b with
  | true => exact ends_set2 (hr.trans (rearranged_exchange a' (by omega) (by omega)))
  | false =>
      refine Ends.bind (ends_rawgeti (Ends.bind ?_))
      refine moves_sortComp hr fun b => ?_
      cases b with
      | true => exact ends_set2 (hr.trans (rearranged_exchange a' (by omega) (by omega)))
      | false => exact hr

/-- The scan ends behind `u` at the latest. -/
theorem scanUp_moves {d l' u' : Nat} (hr : Rearranged l' u' a a') :
    Ends (scanUp lt p d i) a' (fun i' b => b = a' ∧ i < i' ∧ i' ≤ i + d + 1)
      fun e b => Rearranged l' u' a b ∧ (D → e ≠ .depth) := by
  induction d generalizing i with
  | zero =>
      refine Ends.bind (ends_rawgeti (Ends.bind (moves_sortComp hr fun b => ?_)))
      cases b with
      | true => exact ⟨hr, fun _ => by simp⟩
      | false => exact ⟨rfl, by omega, by omega⟩
  | succ d ih =>
      refine Ends.bind (ends_rawgeti (Ends.bind (moves_sortComp hr fun b => ?_)))
      cases b with
      | true =>
          refine ih.imp ?_
          rintro i' b ⟨rfl, hi, hi'⟩
          exact ⟨rfl, by omega, by omega⟩
      | false => exact ⟨rfl, by omega, by omega⟩

theorem scanDown_moves {d l' u' : Nat} (hd : d < j) (hr : Rearranged l' u' a a') :
    Ends (scanDown lt p d j) a' (fun j' b => b = a' ∧ j' < j)
      fun e b => Rearranged l' u' a b ∧ (D → e ≠ .depth) := by
  induction d generalizing j with
  | zero =>
      refine Ends.bind (ends_rawgeti (Ends.bind (moves_sortComp hr fun b => ?_)))
      cases b with
      | true => exact ⟨hr, fun _ => by simp⟩
      | false => exact ⟨rfl, by omega⟩
  | succ d ih =>
      refine Ends.bind (ends_rawgeti (Ends.bind (moves_sortComp hr fun b => ?_)))
      cases b with
      | true =>
          refine (ih (by omega)).imp ?_
          rintro j' b ⟨rfl, hj⟩
          exact ⟨rfl, by omega⟩
      | false => exact ⟨rfl, by omega⟩

theorem partition_moves {rounds : Nat} (hl : 0 < l) (hli : l ≤ i) (hlj : l ≤ j) (hju : j < u)
    (hiu : i < u) (hr : Rearranged l (u + 1) a a') :
    Ends (partition_ lt p l u rounds i j) a'
      (fun i' b => Rearranged l (u + 1) a b ∧ l < i' ∧ i' ≤ u + 1)
      fun e b => Rearranged l (u + 1) a b ∧ (D → e ≠ .depth) := by
  induction rounds generalizing i j a' with
  | zero => exact ⟨hr, fun _ => by simp⟩
  | succ rounds ih =>
      refine Ends.bind ((scanUp_moves hr).imp ?_)
      rintro i' b ⟨rfl, hi, hi'⟩
      refine Ends.bind ((scanDown_moves (by omega) hr).imp ?_)
      rintro j' b ⟨rfl, hj⟩
      refine ends_ite (fun hji => ⟨hr, by omega, by omega⟩) fun hji => ?_
      refine Ends.bind (ends_rawgeti (Ends.bind (ends_rawgeti (Ends.bind (ends_set2 ?_)))))
      exact ih (by omega) (by omega) (by omega) (by omega)
        (hr.trans (rearranged_exchange _ (by omega) (by omega)))

theorem split_moves (hl : 0 < l) (hli : l ≤ i) (hiu : i ≤ u) (hlu : l + 1 < u)
    (hr : Rearranged l (u + 1) a a') :
    Ends (split lt l u i) a' (fun i' b => Rearranged l (u + 1) a b ∧ l < i' ∧ i' ≤ u + 1)
      fun e b => Rearranged l (u + 1) a b ∧ (D → e ≠ .depth) := by
  refine Ends.bind (ends_rawgeti (Ends.bind (ends_rawgeti (Ends.bind (ends_set2 ?_)))))
  have hr' := hr.trans (rearranged_exchange a' (i := i) (j := u - 1) (by omega) (by omega))
  refine Ends.bind ((partition_moves hl (le_refl l) (by omega) (by omega) (by omega) hr').imp ?_)
  rintro i' b ⟨hb, hli', hiu'⟩
  refine Ends.bind (ends_rawgeti (Ends.bind (ends_rawgeti (Ends.bind (ends_set2 ?_)))))
  exact ⟨hb.trans (rearranged_exchange b (by omega) (by omega)), hli', hiu'⟩

/-- A part of the range is sorted by a call or by the rest of the loop. -/
theorem Moves.after {m : SortM ε α Unit} {l' u' : Nat} (hl : l ≤ l') (hu : u' ≤ u)
    (hr : Rearranged l (u + 1) a a') (h : Moves D m l' u' a') :
    Ends m a' (fun _ b => Rearranged l (u + 1) a b)
      fun e b => Rearranged l (u + 1) a b ∧ (D → e ≠ .depth) :=
  Ends.mono h (fun _ _ hb => hr.trans (hb.mono hl (by omega)))
    fun _ _ hb => ⟨hr.trans (hb.1.mono hl (by omega)), hb.2⟩

theorem sortLoop_moves {rec : Nat → Nat → SortM ε α Unit} {n rounds : Nat} (hl : 0 < l)
    (hrec : 2 < n → ∀ l u a, 0 < l → 2 * (u + 1 - l) ≤ n → Moves D (rec l u) l u a)
    (hn : u - l ≤ n) (a : Nat → Option α) : Moves D (sortLoop lt rec rounds l u) l u a := by
  induction rounds generalizing l u a with
  | zero =>
      refine ends_ite (fun _ => ?_) fun _ => Rearranged.refl l (u + 1) a
      exact ⟨Rearranged.refl l (u + 1) a, fun _ => by simp⟩
  | succ rounds ih =>
      refine ends_ite (fun hlu => ?_) fun hlu => Rearranged.refl l (u + 1) a
      refine Ends.then (orderEnds_moves hlu a) fun _ b hb => ?_
      refine ends_ite (fun _ => hb) fun hone => ?_
      refine Ends.then (orderMiddle_moves (by omega) (by omega) hb) fun _ c hc => ?_
      refine ends_ite (fun _ => hc) fun htwo => ?_
      refine Ends.then (split_moves hl (by omega) (by omega) (by omega) hc) ?_
      rintro i d ⟨hd, hli, hiu⟩
      refine ends_ite (fun hsmall => ?_) fun hsmall => ?_
      · refine Ends.then (Moves.after (le_refl l) (by omega) hd
          (hrec (by omega) l (i - 1) d hl (by omega))) fun _ e he => ?_
        exact Moves.after (by omega) (le_refl u) he (ih (by omega) (by omega) e)
      · refine Ends.then (Moves.after (by omega) (le_refl u) hd
          (hrec (by omega) (i + 1) u d (by omega) (by omega))) fun _ e he => ?_
        exact Moves.after (le_refl l) (by omega) he (ih hl (by omega) e)

theorem auxsort_moves {rounds depth : Nat} (hl : 0 < l) (a : Nat → Option α) :
    Moves (0 < depth ∧ u + 1 - l < 2 ^ (depth + 1)) (auxsort lt rounds depth l u) l u a := by
  induction depth generalizing l u a with
  | zero => exact ⟨Rearranged.refl l (u + 1) a, fun h => absurd h.1 (lt_irrefl 0)⟩
  | succ depth ih =>
      refine sortLoop_moves hl (fun hlong l' u' a' hl' hn' => ?_) (le_refl _) a
      refine Ends.mono (ih hl' a') (fun _ _ hb => hb) fun e b hb => ⟨hb.1, fun hD => hb.2 ?_⟩
      have hpow : 2 ^ (depth + 1 + 1) = 2 * 2 ^ (depth + 1) := Nat.pow_succ'
      refine ⟨Nat.pos_of_ne_zero ?_, by omega⟩
      rintro rfl
      omega

/-- **`table.sort` moves the elements and does nothing else.** With any order function, also one
    that raises errors or contradicts itself, each element is in the table once, in one of the
    first `n + 1` places; and for less than `2 ^ (depth + 1)` elements no call of `auxsort` is
    nested deeper than `depth`. -/
theorem sort_moves (lt : Option α → Option α → Except ε Bool) (rounds depth n : Nat)
    (a : Nat → Option α) :
    Ends (sort lt rounds depth n) a (fun _ a' => Rearranged 1 (n + 1) a a')
      fun e a' => Rearranged 1 (n + 1) a a' ∧
        (0 < depth ∧ n < 2 ^ (depth + 1) → e ≠ .depth) :=
  auxsort_moves one_pos a

/-- A function that says yes to everything but `nil` gets an element behind the end of the table. -/
example : (match (sort (fun x y => .ok (x.isSome && y.isSome)) 9 9 4 : SortM Empty Nat Unit)
      (ofList [1, 2, 3, 4]) with
    | .error .invalid a => [a 1, a 2, a 3, a 4, a 5]
    | _ => []) =
    [some 3, none, some 1, some 2, some 4] := by decide

end Any

/-! ## Lists -/

section Lists

variable {ε α : Type} {lt : Option α → Option α → Except ε Bool} {P : α → Prop} {l : List α}

/-- The first `n` elements of a table. -/
def toList (n : Nat) (a : Nat → Option α) : List (Option α) := (List.range' 1 n).map a

theorem toList_ofList (l : List α) : toList l.length (ofList l) = l.map some := by
  refine List.ext_getElem? fun i => ?_
  unfold toList
  rw [List.getElem?_map, List.getElem?_map]
  rcases Nat.lt_or_ge i l.length with hi | hi
  · rw [List.getElem?_range' hi, List.getElem?_eq_getElem hi]
    rw [Option.map_some, Option.map_some, Nat.one_mul, Nat.add_comm]
    exact congrArg some (List.getElem?_eq_getElem hi)
  · rw [List.getElem?_eq_none (by simpa using hi), List.getElem?_eq_none hi]
    rfl

theorem full_ofList (h : ∀ x ∈ l, P x) : Full P 1 l.length (ofList l) := by
  intro i hi hi'
  obtain ⟨j, rfl⟩ : ∃ j, i = j + 1 := ⟨i - 1, by omega⟩
  exact ⟨l[j], h _ (List.getElem_mem _), List.getElem?_eq_getElem (by omega)⟩

theorem exists_of_perm_map_some {m : List (Option α)} (h : m.Perm (l.map some)) :
    ∃ l' : List α, m = l'.map some ∧ l'.Perm l := by
  have hsome : ∀ m : List (Option α), (∀ x ∈ m, ∃ y, x = some y) → ∃ l' : List α, m = l'.map some := by
    intro m hm
    induction m with
    | nil => exact ⟨[], rfl⟩
    | cons x m ih =>
        obtain ⟨y, rfl⟩ := hm x List.mem_cons_self
        obtain ⟨l', rfl⟩ := ih fun x hx => hm x (List.mem_cons_of_mem _ hx)
        exact ⟨y :: l', rfl⟩
  obtain ⟨l', rfl⟩ := hsome m fun x hx => by
    obtain ⟨y, -, rfl⟩ := List.mem_map.mp (h.subset hx)
    exact ⟨y, rfl⟩
  exact ⟨l', rfl, (List.map_perm_map_iff (Option.some_injective α)).mp h⟩

/-- `table.sort` on the elements of a list. -/
theorem sort_ofList (h : Valid lt P) (hl : ∀ x ∈ l, P x) {rounds depth : Nat}
    (hrounds : l.length ≤ rounds) (hdepth : 0 < depth) (hn : l.length < 2 ^ (depth + 1)) :
    ∃ (a : Nat → Option α) (l' : List α), sort lt rounds depth l.length (ofList l) = .ok () a ∧
      toList l.length a = l'.map some ∧ l'.Perm l ∧
      l'.Pairwise fun x y => Le lt (some x) (some y) := by
  obtain ⟨a, hok, hr, hsorted⟩ := sort_sorts h (full_ofList hl) hrounds hdepth hn
  have hperm := hr.perm
  rw [show (List.range' 1 l.length).map (ofList l) = _ from toList_ofList l] at hperm
  obtain ⟨l', hl', hperm'⟩ := exists_of_perm_map_some hperm
  refine ⟨a, l', hok, hl', hperm', ?_⟩
  have hpairs : (toList l.length a).Pairwise (Le lt) := by
    refine List.pairwise_map.mpr (List.Pairwise.imp_of_mem ?_ List.pairwise_lt_range')
    intro i j hi hj hij
    rw [List.mem_range'_1] at hi hj
    exact hsorted i j hi.1 hij (by omega)
  rw [toList, hl', List.pairwise_map] at hpairs
  exact hpairs

/-- If there is only one order, the result is known. -/
theorem sort_unique (h : Valid lt P) (hl : ∀ x ∈ l, P x)
    (hanti : ∀ x y, P x → P y → Le lt (some x) (some y) → Le lt (some y) (some x) → x = y)
    {l' : List α} (hperm : l'.Perm l) (hsorted : l'.Pairwise fun x y => Le lt (some x) (some y))
    {rounds depth : Nat} (hrounds : l.length ≤ rounds) (hdepth : 0 < depth)
    (hn : l.length < 2 ^ (depth + 1)) :
    ∃ a, sort lt rounds depth l.length (ofList l) = .ok () a ∧
      toList l.length a = l'.map some := by
  obtain ⟨a, l'', hok, hl'', hperm', hsorted'⟩ := sort_ofList h hl hrounds hdepth hn
  have heq : l'' = l' := by
    refine List.Perm.eq_of_pairwise (fun x y hx hy => ?_) hsorted' hsorted
      (hperm'.trans hperm.symm)
    exact hanti x y (hl x (hperm'.subset hx)) (hl y (hperm.subset hy))
  exact ⟨a, hok, by rw [hl'', heq]⟩

end Lists

/-! ## Two order functions -/

section Two

variable {ε α : Type} {lt lt' : Option α → Option α → Except ε Bool} {E : Failure ε → Prop}

/-- `lt` says what `lt'` says, or it raises an error of `E`. -/
def Agrees (E : Failure ε → Prop) (lt lt' : Option α → Option α → Except ε Bool) : Prop :=
  ∀ x y, lt x y = lt' x y ∨ ∃ e, lt x y = .error e ∧ E (.raised e)

theorem sortComp_upTo (h : Agrees E lt lt') (x y : Option α) :
    UpTo E (sortComp lt x y) (sortComp lt' x y) := by
  unfold sortComp
  rcases h x y with heq | ⟨e, herr, he⟩
  · rw [heq]
    exact UpTo.refl _
  · rw [herr]
    exact upTo_throw he _

theorem scanUp_upTo (h : Agrees E lt lt') (p : Option α) (d i : Nat) :
    UpTo E (scanUp lt p d i) (scanUp lt' p d i) := by
  induction d generalizing i with
  | zero =>
      exact (UpTo.refl _).bind fun x => (sortComp_upTo h x p).bind fun _ => UpTo.refl _
  | succ d ih =>
      exact (UpTo.refl _).bind fun x => (sortComp_upTo h x p).bind fun _ =>
        upTo_ite (ih (i + 1)) (UpTo.refl _)

theorem scanDown_upTo (h : Agrees E lt lt') (p : Option α) (d j : Nat) :
    UpTo E (scanDown lt p d j) (scanDown lt' p d j) := by
  induction d generalizing j with
  | zero =>
      exact (UpTo.refl _).bind fun x => (sortComp_upTo h p x).bind fun _ => UpTo.refl _
  | succ d ih =>
      exact (UpTo.refl _).bind fun x => (sortComp_upTo h p x).bind fun _ =>
        upTo_ite (ih (j - 1)) (UpTo.refl _)

theorem partition_upTo (h : Agrees E lt lt') (p : Option α) (l u rounds i j : Nat) :
    UpTo E (partition_ lt p l u rounds i j) (partition_ lt' p l u rounds i j) := by
  induction rounds generalizing i j with
  | zero => exact UpTo.refl _
  | succ rounds ih =>
      refine (scanUp_upTo h p (u - i) i).bind fun i' => ?_
      refine (scanDown_upTo h p (j - l) j).bind fun j' => upTo_ite (UpTo.refl _) ?_
      exact (UpTo.refl _).bind fun x => (UpTo.refl _).bind fun y =>
        (UpTo.refl _).bind fun _ => ih i' j'

theorem orderEnds_upTo (h : Agrees E lt lt') (l u : Nat) :
    UpTo E (orderEnds lt l u) (orderEnds lt' l u) :=
  (UpTo.refl _).bind fun x => (UpTo.refl _).bind fun y =>
    (sortComp_upTo h y x).bind fun _ => UpTo.refl _

theorem orderMiddle_upTo (h : Agrees E lt lt') (l u i : Nat) :
    UpTo E (orderMiddle lt l u i) (orderMiddle lt' l u i) := by
  refine (UpTo.refl _).bind fun x => (UpTo.refl _).bind fun y =>
    (sortComp_upTo h x y).bind fun _ => upTo_ite (UpTo.refl _) ?_
  exact (UpTo.refl _).bind fun y => (sortComp_upTo h y x).bind fun _ => UpTo.refl _

theorem split_upTo (h : Agrees E lt lt') (l u i : Nat) :
    UpTo E (split lt l u i) (split lt' l u i) :=
  (UpTo.refl _).bind fun p => (UpTo.refl _).bind fun _ => (UpTo.refl _).bind fun _ =>
    (partition_upTo h p l u u l (u - 1)).bind fun _ => UpTo.refl _

theorem sortLoop_upTo (h : Agrees E lt lt') {rec rec' : Nat → Nat → SortM ε α Unit}
    (hrec : ∀ l u, UpTo E (rec l u) (rec' l u)) (rounds l u : Nat) :
    UpTo E (sortLoop lt rec rounds l u) (sortLoop lt' rec' rounds l u) := by
  induction rounds generalizing l u with
  | zero => exact UpTo.refl _
  | succ rounds ih =>
      refine upTo_ite ?_ (UpTo.refl _)
      refine (orderEnds_upTo h l u).bind fun _ => upTo_ite (UpTo.refl _) ?_
      refine (orderMiddle_upTo h l u _).bind fun _ => upTo_ite (UpTo.refl _) ?_
      refine (split_upTo h l u _).bind fun i => upTo_ite ?_ ?_
      · exact (hrec l (i - 1)).bind fun _ => ih (i + 1) u
      · exact (hrec (i + 1) u).bind fun _ => ih l (i - 1)

theorem sort_upTo (h : Agrees E lt lt') (rounds depth n : Nat) :
    UpTo E (sort lt rounds depth n) (sort lt' rounds depth n) := by
  unfold sort
  generalize 1 = l
  induction depth generalizing l n with
  | zero => exact UpTo.refl _
  | succ depth ih => exact sortLoop_upTo h (fun l u => ih u l) rounds l n

end Two

/-! ## Comparing strings -/

section Strings

/-- `strcoll` in the C locale: the bytes up to the first zero byte, or up to the one behind the
    string -/
def strcoll : LuaString → LuaString → Ordering
  | [], [] => .eq
  | [], y :: _ => if y = '\x00' then .eq else .lt
  | x :: _, [] => if x = '\x00' then .eq else .gt
  | x :: l, y :: r =>
      if x < y then .lt
      else if y < x then .gt
      else if x = '\x00' then .eq
      else strcoll l r

def strlen (s : LuaString) : Nat := (s.takeWhile (· ≠ '\x00')).length

/-- `l_strcmp`, for at most `rounds` zero bytes -/
def lStrcmp : Nat → LuaString → LuaString → Ordering
  | 0, _, _ => .eq
  | rounds + 1, l, r =>
      match strcoll l r with
      | .eq =>
          let len := strlen l
          if len = r.length then if len = l.length then .eq else .gt
          else if len = l.length then .lt
          else lStrcmp rounds (l.drop (len + 1)) (r.drop (len + 1))
      | o => o

/-- `luaV_lessthan` on strings -/
def lessthan (l r : LuaString) : Bool := lStrcmp (l.length + 1) l r = .lt

/-- What an `Ordering` of two strings says. -/
def Says (o : Ordering) (l r : LuaString) : Prop :=
  match o with
  | .lt => l < r
  | .eq => l = r
  | .gt => r < l

/-- What `strcoll` has not told apart is equal up to a zero byte or the end. -/
theorem strcoll_spec (l r : LuaString) :
    (strcoll l r ≠ .eq ∧ Says (strcoll l r) l r) ∨
    (strcoll l r = .eq ∧ ∃ c : LuaString, '\x00' ∉ c ∧ (l = c ∨ ∃ l', l = c ++ '\x00' :: l') ∧
      (r = c ∨ ∃ r', r = c ++ '\x00' :: r')) := by
  induction l generalizing r with
  | nil =>
      cases r with
      | nil => exact Or.inr ⟨rfl, [], List.not_mem_nil, Or.inl rfl, Or.inl rfl⟩
      | cons y r =>
          unfold strcoll
          split_ifs with hy
          · exact Or.inr ⟨rfl, [], List.not_mem_nil, Or.inl rfl, Or.inr ⟨r, by rw [hy]; rfl⟩⟩
          · exact Or.inl ⟨by simp, List.nil_lt_cons y r⟩
  | cons x l ih =>
      cases r with
      | nil =>
          unfold strcoll
          split_ifs with hx
          · exact Or.inr ⟨rfl, [], List.not_mem_nil, Or.inr ⟨l, by rw [hx]; rfl⟩, Or.inl rfl⟩
          · exact Or.inl ⟨by simp, List.nil_lt_cons x l⟩
      | cons y r =>
          unfold strcoll
          split_ifs with hlt hgt hx
          · exact Or.inl ⟨by simp, List.cons_lt_cons_iff.mpr (Or.inl hlt)⟩
          · exact Or.inl ⟨by simp, List.cons_lt_cons_iff.mpr (Or.inl hgt)⟩
          · obtain rfl : x = y := le_antisymm (not_lt.mp hgt) (not_lt.mp hlt)
            exact Or.inr ⟨rfl, [], List.not_mem_nil, Or.inr ⟨l, by rw [hx]; rfl⟩,
              Or.inr ⟨r, by rw [hx]; rfl⟩⟩
          · obtain rfl : x = y := le_antisymm (not_lt.mp hgt) (not_lt.mp hlt)
            rcases ih r with ⟨hne, hsays⟩ | ⟨heq, c, hc, hl, hr⟩
            · refine Or.inl ⟨hne, ?_⟩
              cases ho : strcoll l r with
              | eq => exact absurd ho hne
              | lt =>
                  rw [ho] at hsays
                  exact List.cons_lt_cons_iff.mpr (Or.inr ⟨rfl, hsays⟩)
              | gt =>
                  rw [ho] at hsays
                  exact List.cons_lt_cons_iff.mpr (Or.inr ⟨rfl, hsays⟩)
            · refine Or.inr ⟨heq, x :: c, ?_, ?_, ?_⟩
              · rw [List.mem_cons, not_or]
                exact ⟨fun h => hx h.symm, hc⟩
              · exact hl.imp (congrArg _) fun ⟨l', h⟩ => ⟨l', congrArg _ h⟩
              · exact hr.imp (congrArg _) fun ⟨r', h⟩ => ⟨r', congrArg _ h⟩

theorem strlen_of_not_mem {c : LuaString} (hc : '\x00' ∉ c) : strlen c = c.length := by
  unfold strlen
  rw [List.takeWhile_eq_self_iff.mpr]
  intro x hx
  rw [decide_eq_true_eq]
  rintro rfl
  exact hc hx

theorem strlen_append {c : LuaString} (hc : '\x00' ∉ c) (l : LuaString) :
    strlen (c ++ '\x00' :: l) = c.length := by
  unfold strlen
  rw [List.takeWhile_append_of_pos, List.takeWhile_cons_of_neg (by simp), List.append_nil]
  intro x hx
  rw [decide_eq_true_eq]
  rintro rfl
  exact hc hx

theorem append_lt_append {c l r : LuaString} (h : l < r) : c ++ l < c ++ r := by
  induction c with
  | nil => exact h
  | cons x c ih => exact List.cons_lt_cons_iff.mpr (Or.inr ⟨rfl, ih⟩)

theorem lt_append (c : LuaString) (x : Char) (l : LuaString) : c < c ++ x :: l := by
  have h := append_lt_append (c := c) (List.nil_lt_cons x l)
  rwa [List.append_nil] at h

theorem lStrcmp_spec {rounds : Nat} {l r : LuaString} (h : l.length < rounds) :
    Says (lStrcmp rounds l r) l r := by
  induction rounds generalizing l r with
  | zero => omega
  | succ rounds ih =>
      unfold lStrcmp
      rcases strcoll_spec l r with ⟨hne, hsays⟩ | ⟨heq, c, hc, hl, hr⟩
      · cases ho : strcoll l r with
        | eq => exact absurd ho hne
        | lt =>
            rw [ho] at hsays
            exact hsays
        | gt =>
            rw [ho] at hsays
            exact hsays
      · rw [heq]
        dsimp only
        rcases hl with rfl | ⟨l', rfl⟩ <;> rcases hr with rfl | ⟨r', rfl⟩
        · rw [strlen_of_not_mem hc, if_pos rfl, if_pos rfl]
          exact rfl
        · rw [strlen_of_not_mem hc, if_neg (by simp), if_pos rfl]
          exact lt_append l _ r'
        · rw [strlen_append hc, if_pos rfl, if_neg (by simp)]
          exact lt_append r _ l'
        · have hdrop : ∀ s : LuaString, (c ++ '\x00' :: s).drop (c.length + 1) = s := fun s => by
            rw [List.drop_append, List.drop_of_length_le (Nat.le_succ _), Nat.add_sub_cancel_left]
            rfl
          rw [strlen_append hc, if_neg (by simp), if_neg (by simp), hdrop, hdrop]
          have hshort : l'.length < rounds := by
            rw [List.length_append, List.length_cons] at h
            omega
          have hsays := ih (r := r') hshort
          cases ho : lStrcmp rounds l' r' with
          | lt =>
              rw [ho] at hsays
              exact append_lt_append (List.cons_lt_cons_iff.mpr (Or.inr ⟨rfl, hsays⟩))
          | eq =>
              rw [ho] at hsays
              exact congrArg _ (congrArg _ hsays)
          | gt =>
              rw [ho] at hsays
              exact append_lt_append (List.cons_lt_cons_iff.mpr (Or.inr ⟨rfl, hsays⟩))

/-- Lua strings are compared byte by byte, zero bytes included. -/
theorem lessthan_iff (l r : LuaString) : lessthan l r = true ↔ l < r := by
  have hsays := lStrcmp_spec (l := l) (r := r) (Nat.lt_succ_self _)
  unfold lessthan
  rw [decide_eq_true_eq]
  cases ho : lStrcmp (l.length + 1) l r with
  | lt =>
      rw [ho] at hsays
      exact iff_of_true rfl hsays
  | eq =>
      rw [ho] at hsays
      exact iff_of_false (by simp) fun hlt => absurd (show l = r from hsays) hlt.ne
  | gt =>
      rw [ho] at hsays
      exact iff_of_false (by simp) (lt_asymm hsays)

end Strings

/-! ## `collect_outputs` -/

section Outputs

open Build

/-- `compare` of `collect_outputs`: `a > b` -/
def compareOutputs : Option LuaString → Option LuaString → Except LuaError Bool
  | some a, some b => .ok (lessthan b a)
  | some _, none => .error (.message "attempt to compare nil with string".toList)
  | none, some _ => .error (.message "attempt to compare string with nil".toList)
  | none, none => .error (.message "attempt to compare two nil values".toList)

theorem le_compareOutputs (a b : LuaString) :
    Le compareOutputs (some a) (some b) ↔ b ≤ a := by
  unfold Le compareOutputs
  rw [Except.ok.injEq, Bool.eq_false_iff, Ne, lessthan_iff, not_lt]

theorem valid_compareOutputs : Valid compareOutputs fun _ => True where
  total a b _ _ := by
    rw [le_compareOutputs, le_compareOutputs]
    rcases le_or_gt b a with hle | hlt
    · exact Or.inl hle
    · refine Or.inr ⟨?_, hlt.le⟩
      exact congrArg Except.ok ((lessthan_iff a b).mpr hlt)
  trans a b c _ _ _ := by
    rw [le_compareOutputs, le_compareOutputs, le_compareOutputs]
    exact fun hba hcb => hcb.trans hba

/-- The table `t` of `collect_outputs` in front of `table.sort`. -/
def gathered (deps : DepsTable) : List LuaString :=
  deps.entries.flatMap fun x =>
    match x.2 with
    | .table _ (some output) => output.keys.filterMap asString
    | _ => []

/-- **`collect_outputs` sorts.** What `table.sort` leaves in the table is what the model returns. -/
theorem collectOutputs_sort (deps : DepsTable) {rounds depth : Nat}
    (hrounds : (gathered deps).length ≤ rounds) (hdepth : 0 < depth)
    (hn : (gathered deps).length < 2 ^ (depth + 1)) :
    ∃ a, sort compareOutputs rounds depth (gathered deps).length (ofList (gathered deps)) =
        .ok () a ∧
      toList (gathered deps).length a = (collectOutputs deps).map some := by
  refine sort_unique valid_compareOutputs (fun _ _ => trivial) (fun a b _ _ hab hba => ?_)
    (List.mergeSort_perm (gathered deps) _) ?_ hrounds hdepth hn
  · rw [le_compareOutputs] at hab hba
    exact le_antisymm hba hab
  · refine (Autoclean.collectOutputs_sorted deps).imp fun hba => ?_
    rw [le_compareOutputs]
    exact hba

/-- Five outputs of two commands. -/
def someDeps : DepsTable :=
  let io (l : List LuaString) : Io := l.foldl (fun io o => io.insert (.str o) (.bool true)) ∅
  ((∅ : DepsTable).insert (.str ['x']) (.table none (some (io [['b'], ['e'], ['c']])))).insert
    (.str ['y']) (.table none (some (io [['a'], ['d']])))

theorem collectOutputs_sort_five :
    ∃ a, sort compareOutputs 5 2 5 (ofList (gathered someDeps)) = .ok () a ∧
      toList 5 a = (collectOutputs someDeps).map some :=
  collectOutputs_sort someDeps (by decide) (by decide) (by decide)

/-- One of its runs. -/
theorem sort_sorts_five :
    ∃ a, sort compareOutputs 5 2 5 (ofList (gathered someDeps)) = .ok () a ∧
      Rearranged 1 5 (ofList (gathered someDeps)) a ∧ SortedOn compareOutputs 1 5 a :=
  sort_sorts valid_compareOutputs
    (show Full _ 1 (gathered someDeps).length _ from full_ofList fun _ _ => trivial)
    (by decide) (by decide) (by decide)

end Outputs

/-! ## `list_targets` -/

section Targets

open Driver

/-- `luaV_lessthan` on keys: there is no order between two types, nor on other values, which have
    no `__lt` here. -/
def lessthanKeys : Option Key → Option Key → Except DriverError Bool
  | some (.str a), some (.str b) => .ok (lessthan a b)
  | some (.num a), some (.num b) => .ok (decide (a < b))
  | _, _ => .error .compare

/-- Strings, numbers, other values. -/
def kind : Key → Nat
  | .str _ => 0
  | .num _ => 1
  | .other _ => 2

/-- All keys in order, one type after the other as `rank` says. -/
def ranked (rank : Nat → Nat) : Option Key → Option Key → Except DriverError Bool
  | some (.str a), some (.str b) => .ok (lessthan a b)
  | some (.num a), some (.num b) => .ok (decide (a < b))
  | some x, some y => .ok (decide (rank (kind x) < rank (kind y)))
  | _, _ => .error .compare

theorem agrees_ranked (rank : Nat → Nat) :
    Agrees (fun e => e = .raised .compare) lessthanKeys (ranked rank) := by
  intro x y
  match x, y with
  | some (.str a), some (.str b) => exact Or.inl rfl
  | some (.num a), some (.num b) => exact Or.inl rfl
  | some (.str _), some (.num _) => exact Or.inr ⟨.compare, rfl, rfl⟩
  | some (.num _), some (.str _) => exact Or.inr ⟨.compare, rfl, rfl⟩
  | some (.other _), some (.other _) => exact Or.inr ⟨.compare, rfl, rfl⟩
  | some (.other _), some (.str _) => exact Or.inr ⟨.compare, rfl, rfl⟩
  | some (.other _), some (.num _) => exact Or.inr ⟨.compare, rfl, rfl⟩
  | some (.str _), some (.other _) => exact Or.inr ⟨.compare, rfl, rfl⟩
  | some (.num _), some (.other _) => exact Or.inr ⟨.compare, rfl, rfl⟩
  | none, _ => exact Or.inr ⟨.compare, rfl, rfl⟩
  | some (.str _), none => exact Or.inr ⟨.compare, rfl, rfl⟩
  | some (.num _), none => exact Or.inr ⟨.compare, rfl, rfl⟩
  | some (.other _), none => exact Or.inr ⟨.compare, rfl, rfl⟩

/-- Within a type as the type has it, between types by rank. -/
def KeyLe (rank : Nat → Nat) : Key → Key → Prop
  | .str a, .str b => a ≤ b
  | .num a, .num b => a ≤ b
  | x, y => rank (kind x) ≤ rank (kind y)

theorem le_ranked (rank : Nat → Nat) (x y : Key) :
    Le (ranked rank) (some x) (some y) ↔ KeyLe rank x y := by
  cases x <;> cases y <;>
    simp [Le, ranked, KeyLe, Bool.eq_false_iff, lessthan_iff, -Bool.not_eq_true]

theorem KeyLe.kind_le {rank : Nat → Nat} {x y : Key} (h : KeyLe rank x y) :
    rank (kind x) ≤ rank (kind y) := by
  cases x <;> cases y <;> first | exact h | exact le_refl _

/-- Of two types one comes first. -/
def Strict (rank : Nat → Nat) : Prop := ∀ x y : Key, rank (kind x) = rank (kind y) → kind x = kind y

theorem KeyLe.trans {rank : Nat → Nat} (h : Strict rank) {x y z : Key} (hxy : KeyLe rank x y)
    (hyz : KeyLe rank y z) : KeyLe rank x z := by
  by_cases hkind : kind x = kind z
  · have hy : kind x = kind y := by
      refine h x y (le_antisymm hxy.kind_le ?_)
      rw [hkind]
      exact hyz.kind_le
    cases x <;> cases y <;> cases z <;> first
      | exact le_trans hxy hyz
      | (simp [kind] at hy; done)
      | simp [kind] at hkind
  · have hle := hxy.kind_le.trans hyz.kind_le
    cases x <;> cases z <;> first
      | exact hle
      | exact absurd rfl hkind

theorem valid_ranked {rank : Nat → Nat} (h : Strict rank) :
    Valid (ranked rank) fun _ => True where
  total x y _ _ := by
    rw [le_ranked, le_ranked]
    cases x <;> cases y <;>
      simp only [KeyLe, ranked, Except.ok.injEq, decide_eq_true_eq, lessthan_iff] <;>
      exact (le_or_gt _ _).imp_right fun hlt => ⟨hlt, hlt.le⟩
  trans x y z _ _ _ := by
    rw [le_ranked, le_ranked, le_ranked]
    exact KeyLe.trans h

theorem strict_kind : Strict id := fun _ _ h => h

theorem strict_reverse : Strict fun k => 2 - k := by
  intro x y h
  cases x <;> cases y <;> first | rfl | exact absurd h (by simp [kind])

theorem lessthanKeys_eq {x y : Key} {k : Nat} (hk : k < 2) (hx : kind x = k) (hy : kind y = k) :
    lessthanKeys (some x) (some y) = ranked id (some x) (some y) := by
  subst hx
  cases x <;> cases y <;> first | rfl | (simp [kind] at hy; done) | simp [kind] at hk

theorem le_lessthanKeys {x y : Key} {k : Nat} (hk : k < 2) (hx : kind x = k) (hy : kind y = k) :
    Le lessthanKeys (some x) (some y) ↔ KeyLe id x y := by
  rw [← le_ranked, Le, Le, lessthanKeys_eq hk hy hx]

theorem valid_lessthanKeys {k : Nat} (hk : k < 2) : Valid lessthanKeys fun x => kind x = k where
  total x y hx hy := by
    rw [Le, Le, lessthanKeys_eq hk hy hx, lessthanKeys_eq hk hx hy]
    exact (valid_ranked strict_kind).total x y trivial trivial
  trans x y z hx hy hz := by
    rw [Le, Le, Le, lessthanKeys_eq hk hy hx, lessthanKeys_eq hk hz hy, lessthanKeys_eq hk hz hx]
    exact (valid_ranked strict_kind).trans x y z trivial trivial trivial

/-- `table.sort` on keys of one type. -/
theorem sort_oneKind {β : Type} [LinearOrder β] {f : β → Key} {k : Nat} (hk : k < 2)
    (hf : ∀ x, kind x = k ↔ ∃ b, f b = x) (hle : ∀ b c, KeyLe id (f b) (f c) ↔ b ≤ c) {s : List β}
    {l : List Key} (hl : s.map f = l) {rounds depth : Nat} (hrounds : l.length ≤ rounds)
    (hdepth : 0 < depth) (hn : l.length < 2 ^ (depth + 1)) :
    ∃ a, sort lessthanKeys rounds depth l.length (ofList l) = .ok () a ∧
      toList l.length a = ((s.mergeSort fun b c => decide (b ≤ c)).map f).map some := by
  subst hl
  have hkind : ∀ b, kind (f b) = k := fun b => (hf (f b)).mpr ⟨b, rfl⟩
  refine sort_unique (valid_lessthanKeys hk) (fun x hx => ?_) (fun x y hx hy hxy hyx => ?_)
    ((List.mergeSort_perm s _).map f) (List.pairwise_map.mpr ?_) hrounds hdepth hn
  · obtain ⟨b, -, rfl⟩ := List.mem_map.mp hx
    exact hkind b
  · rw [le_lessthanKeys hk hx hy] at hxy
    rw [le_lessthanKeys hk hy hx] at hyx
    obtain ⟨b, rfl⟩ := (hf x).mp hx
    obtain ⟨c, rfl⟩ := (hf y).mp hy
    exact congrArg f (le_antisymm ((hle b c).mp hxy) ((hle c b).mp hyx))
  · have hsorted := @List.pairwise_mergeSort β (fun b c => decide (b ≤ c))
      (fun b c d hbc hcd => by
        rw [decide_eq_true_eq] at hbc hcd ⊢
        exact hbc.trans hcd)
      (fun b c => by
        rw [Bool.or_eq_true, decide_eq_true_eq, decide_eq_true_eq]
        exact le_total b c) s
    refine hsorted.imp fun {b c} hbc => ?_
    rw [le_lessthanKeys hk (hkind b) (hkind c), hle]
    exact decide_eq_true_eq.mp hbc

/-- A list that is in order both ways has keys of one type only. -/
theorem kind_eq_of_sorted {l : List Key} (h : l.Pairwise (KeyLe id))
    (h' : l.Pairwise (KeyLe fun k => 2 - k)) : l.Pairwise fun x y => kind x = kind y := by
  refine (h.and h').imp fun {x y} hxy => ?_
  have hle := hxy.1.kind_le
  have hge := hxy.2.kind_le
  have hx : kind x ≤ 2 := by cases x <;> simp [kind]
  have hy : kind y ≤ 2 := by cases y <;> simp [kind]
  simp only [id] at hle
  omega

theorem sort_of_le_one {ε α : Type} {lt : Option α → Option α → Except ε Bool}
    {a : Nat → Option α} {n rounds depth : Nat} (hn : n ≤ 1) (hdepth : 0 < depth) :
    sort lt rounds depth n a = .ok () a := by
  obtain ⟨depth, rfl⟩ : ∃ d, depth = d + 1 := ⟨depth - 1, by omega⟩
  change sortLoop lt (auxsort lt rounds depth) rounds 1 n a = _
  cases rounds with
  | zero =>
      unfold sortLoop
      rw [if_neg (by omega)]
      rfl
  | succ rounds =>
      unfold sortLoop
      rw [if_neg (by omega)]
      rfl

/-- With values that have no order, the first comparison raises an error. -/
theorem sort_raises {ε α : Type} {lt : Option α → Option α → Except ε Bool} {a : Nat → Option α}
    {e : ε} {n rounds depth : Nat} (hn : 1 < n) (hrounds : 0 < rounds) (hdepth : 0 < depth)
    (he : lt (a n) (a 1) = .error e) : sort lt rounds depth n a = .error (.raised e) a := by
  obtain ⟨rounds, rfl⟩ : ∃ r, rounds = r + 1 := ⟨rounds - 1, by omega⟩
  obtain ⟨depth, rfl⟩ : ∃ d, depth = d + 1 := ⟨depth - 1, by omega⟩
  have hends : Ends (sort lt (rounds + 1) (depth + 1) n) a (fun _ _ => False)
      fun e' a' => e' = .raised e ∧ a' = a := by
    refine ends_ite (fun _ => ?_) fun hlt => absurd hn hlt
    refine Ends.bind (Ends.bind (ends_rawgeti (Ends.bind (ends_rawgeti (Ends.bind ?_)))))
    refine ends_sortComp (fun b hb => ?_) fun e' he' => ?_
    · rw [he] at hb
      cases hb
    · rw [he, Except.error.injEq] at he'
      exact ⟨by rw [he'], rfl⟩
  obtain ⟨e', a', herr, rfl, rfl⟩ := hends.not_ok
  exact herr

theorem map_filterMap_string {l : List Key} (h : ∀ x ∈ l, kind x = 0) :
    (l.filterMap Key.string).map Key.str = l := by
  induction l with
  | nil => rfl
  | cons x l ih =>
      have hx := h x List.mem_cons_self
      have hl := ih fun y hy => h y (List.mem_cons_of_mem x hy)
      cases x with
      | str s => exact congrArg _ hl
      | num n => cases hx
      | other n => cases hx

theorem map_filterMap_number {l : List Key} (h : ∀ x ∈ l, kind x = 1) :
    (l.filterMap Key.number).map Key.num = l := by
  induction l with
  | nil => rfl
  | cons x l ih =>
      have hx := h x List.mem_cons_self
      have hl := ih fun y hy => h y (List.mem_cons_of_mem x hy)
      cases x with
      | num n => exact congrArg _ hl
      | str s => cases hx
      | other n => cases hx

theorem all_string_iff (l : List Key) :
    l.all (fun x => x.string.isSome) = true ↔ ∀ x ∈ l, kind x = 0 := by
  rw [List.all_eq_true]
  refine forall₂_congr fun x _ => ?_
  cases x <;> simp [Key.string, kind]

theorem all_number_iff (l : List Key) :
    l.all (fun x => x.number.isSome) = true ↔ ∀ x ∈ l, kind x = 1 := by
  rw [List.all_eq_true]
  refine forall₂_congr fun x _ => ?_
  cases x <;> simp [Key.number, kind]

/-- Keys that cannot be compared at all. -/
theorem sort_others {l : List Key} (hl : ∀ x ∈ l, kind x = 2) {rounds depth : Nat}
    (hlong : 1 < l.length) (hrounds : 0 < rounds) (hdepth : 0 < depth) :
    sort lessthanKeys rounds depth l.length (ofList l) = .error (.raised .compare) (ofList l) := by
  obtain ⟨x, hx, hlast⟩ := full_ofList hl l.length (by omega) (le_refl _)
  obtain ⟨y, hy, hfirst⟩ := full_ofList hl 1 (le_refl 1) (by omega)
  refine sort_raises hlong hrounds hdepth ?_
  rw [hlast, hfirst]
  cases x <;> cases y <;> first | rfl | simp [kind] at hx

/-- A result means that all keys have one type. -/
theorem kind_eq_of_sort {l : List Key} {rounds depth : Nat} {a : Nat → Option Key}
    (hrounds : l.length ≤ rounds) (hdepth : 0 < depth) (hn : l.length < 2 ^ (depth + 1))
    (h : sort lessthanKeys rounds depth l.length (ofList l) = .ok () a) :
    ∀ x ∈ l, ∀ y ∈ l, kind x = kind y := by
  have hsorted : ∀ {rank}, Strict rank → ∃ l' : List Key, toList l.length a = l'.map some ∧
      l'.Perm l ∧ l'.Pairwise (KeyLe rank) := by
    intro rank hrank
    obtain ⟨b, l', hok, hlist, hperm, hsorted⟩ := sort_ofList (valid_ranked hrank)
      (fun _ _ => trivial) hrounds hdepth hn
    have heq : sort lessthanKeys rounds depth l.length (ofList l) =
        sort (ranked rank) rounds depth l.length (ofList l) := by
      rcases sort_upTo (agrees_ranked rank) rounds depth l.length (ofList l) with
        heq | ⟨e, s', herr, -⟩
      · exact heq
      · rw [h] at herr
        cases herr
    rw [h, hok] at heq
    cases heq
    exact ⟨l', hlist, hperm, hsorted.imp fun hle => (le_ranked rank _ _).mp hle⟩
  obtain ⟨l', hlist, hperm, hl'⟩ := hsorted strict_kind
  obtain ⟨m, hlist', -, hm⟩ := hsorted strict_reverse
  obtain rfl : l' = m := (List.map_injective_iff.mpr (Option.some_injective Key))
    (hlist.symm.trans hlist')
  have hkinds := kind_eq_of_sorted hl' hm
  intro x hx y hy
  have hsame : ∀ x ∈ l', ∀ y ∈ l', kind x = kind y := fun x hx y hy =>
    List.Pairwise.forall_of_forall_of_flip (R := fun x y => kind x = kind y) (fun _ _ => rfl)
      hkinds (hkinds.imp Eq.symm) hx hy
  exact hsame x (hperm.symm.subset hx) y (hperm.symm.subset hy)

/-- Two keys or more that are neither all strings nor all numbers. -/
def Mixed (l : List Key) : Prop :=
  1 < l.length ∧ (∃ x ∈ l, kind x ≠ 0) ∧ ∃ x ∈ l, kind x ≠ 1

theorem sortKeys_of_not_mixed {l : List Key} (h : ¬ Mixed l) :
    ∃ keys, sortKeys l = pure keys := by
  unfold sortKeys
  by_cases hstr : ∀ x ∈ l, kind x = 0
  · exact ⟨_, if_pos ((all_string_iff l).mpr hstr)⟩
  rw [if_neg (fun h => hstr ((all_string_iff l).mp h))]
  by_cases hnum : ∀ x ∈ l, kind x = 1
  · exact ⟨_, if_pos ((all_number_iff l).mpr hnum)⟩
  rw [if_neg (fun h => hnum ((all_number_iff l).mp h))]
  refine ⟨_, if_pos (not_lt.mp fun hlong => h ⟨hlong, ?_, ?_⟩)⟩
  · push Not at hstr
    exact hstr
  · push Not at hnum
    exact hnum

theorem sortKeys_of_mixed {l : List Key} (h : Mixed l) :
    sortKeys l = Output.raise .compare := by
  obtain ⟨hlong, ⟨x, hx, hstr⟩, y, hy, hnum⟩ := h
  unfold sortKeys
  rw [if_neg (fun h => hstr ((all_string_iff l).mp h x hx)),
    if_neg (fun h => hnum ((all_number_iff l).mp h y hy)), if_neg (not_le.mpr hlong)]

/-- If `table.sort` ends, the model has its result, and else the error that it raises. -/
theorem sortKeys_agrees (l : List Key) {rounds depth : Nat} (hrounds : l.length ≤ rounds)
    (hdepth : 0 < depth) (hn : l.length < 2 ^ (depth + 1)) :
    (∃ (a : Nat → Option Key) (keys : List Key),
      sort lessthanKeys rounds depth l.length (ofList l) = .ok () a ∧
      toList l.length a = keys.map some ∧ sortKeys l = pure (keys.map Key.text)) ∨
    ∃ a, sort lessthanKeys rounds depth l.length (ofList l) = .error (.raised .compare) a ∧
      sortKeys l = Output.raise .compare := by
  unfold sortKeys
  by_cases hstr : ∀ x ∈ l, kind x = 0
  · rw [if_pos ((all_string_iff l).mpr hstr)]
    obtain ⟨a, hok, hlist⟩ := sort_oneKind (f := Key.str) (k := 0) (by omega)
      (fun x => by cases x <;> simp [kind]) (fun _ _ => Iff.rfl) (map_filterMap_string hstr)
      hrounds hdepth hn
    exact Or.inl ⟨a, _, hok, hlist, by rw [List.map_map]; rfl⟩
  rw [if_neg (fun h => hstr ((all_string_iff l).mp h))]
  by_cases hnum : ∀ x ∈ l, kind x = 1
  · rw [if_pos ((all_number_iff l).mpr hnum)]
    obtain ⟨a, hok, hlist⟩ := sort_oneKind (f := Key.num) (k := 1) (by omega)
      (fun x => by cases x <;> simp [kind]) (fun _ _ => Iff.rfl) (map_filterMap_number hnum)
      hrounds hdepth hn
    exact Or.inl ⟨a, _, hok, hlist, by rw [List.map_map]; rfl⟩
  rw [if_neg (fun h => hnum ((all_number_iff l).mp h))]
  by_cases hone : l.length ≤ 1
  · rw [if_pos hone]
    exact Or.inl ⟨ofList l, l, sort_of_le_one hone hdepth, toList_ofList l, rfl⟩
  · rw [if_neg hone]
    refine Or.inr ?_
    cases hsort : sort lessthanKeys rounds depth l.length (ofList l) with
    | error e a =>
        obtain ⟨b, l', hok, -⟩ := sort_ofList (valid_ranked strict_kind) (fun _ _ => trivial)
          hrounds hdepth hn (l := l)
        rcases sort_upTo (agrees_ranked id) rounds depth l.length (ofList l) with
          heq | ⟨e', s', herr, rfl⟩
        · rw [hsort, hok] at heq
          cases heq
        · rw [hsort] at herr
          cases herr
          exact ⟨a, rfl, rfl⟩
    | ok u a =>
        have hkinds := kind_eq_of_sort hrounds hdepth hn hsort
        obtain ⟨x, hx⟩ := List.exists_mem_of_length_pos (show 0 < l.length by omega)
        cases x with
        | str s => exact absurd (fun y hy => hkinds y hy _ hx) hstr
        | num n => exact absurd (fun y hy => hkinds y hy _ hx) hnum
        | other n =>
            rw [sort_others (fun y hy => hkinds y hy _ hx) (by omega) (by omega) hdepth] at hsort
            cases hsort

/-- **`list_targets` sorts.** If `table.sort` ends, the model has its result, and else the error
    that it raises, which is that two keys cannot be compared; and this is so for mixed keys. -/
theorem sortKeys_sort (l : List Key) {rounds depth : Nat} (hrounds : l.length ≤ rounds)
    (hdepth : 0 < depth) (hn : l.length < 2 ^ (depth + 1)) :
    ((∃ (a : Nat → Option Key) (keys : List Key),
      sort lessthanKeys rounds depth l.length (ofList l) = .ok () a ∧
      toList l.length a = keys.map some ∧ sortKeys l = pure (keys.map Key.text)) ∨
    ∃ a, sort lessthanKeys rounds depth l.length (ofList l) = .error (.raised .compare) a ∧
      sortKeys l = Output.raise .compare) ∧
    ((∃ a, sort lessthanKeys rounds depth l.length (ofList l) = .error (.raised .compare) a) ↔
      Mixed l) := by
  have hagrees := sortKeys_agrees l hrounds hdepth hn
  refine ⟨hagrees, ?_, fun hmixed => ?_⟩
  · rintro ⟨a, herr⟩
    by_contra hmixed
    obtain ⟨keys, hkeys⟩ := sortKeys_of_not_mixed hmixed
    rcases hagrees with ⟨a', keys', hok, -⟩ | ⟨a', -, hraise⟩
    · rw [herr] at hok
      cases hok
    · rw [hkeys] at hraise
      cases hraise
  · rcases hagrees with ⟨a, keys, -, -, hpure⟩ | ⟨a, herr, -⟩
    · rw [sortKeys_of_mixed hmixed] at hpure
      cases hpure
    · exact ⟨a, herr⟩

/-- Two strings and three numbers. -/
def someKeys : List Key := [.str ['b'], .num 1, .num 3, .str ['a'], .num 2]

theorem sortKeys_sort_mixed :
    ((∃ (a : Nat → Option Key) (keys : List Key),
      sort lessthanKeys 5 2 5 (ofList someKeys) = .ok () a ∧
      toList 5 a = keys.map some ∧ sortKeys someKeys = pure (keys.map Key.text)) ∨
    ∃ a, sort lessthanKeys 5 2 5 (ofList someKeys) = .error (.raised .compare) a ∧
      sortKeys someKeys = Output.raise .compare) ∧
    ((∃ a, sort lessthanKeys 5 2 5 (ofList someKeys) = .error (.raised .compare) a) ↔
      Mixed someKeys) :=
  sortKeys_sort someKeys (by decide) (by decide) (by decide)

end Targets

end Buildsh.Sort
