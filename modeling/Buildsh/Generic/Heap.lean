/-
  Programs on a heap of objects.

  A heap is the list of its objects, and a reference is a position in it: `alloc` appends, and
  nothing is ever freed. A program may raise, and keeps what it has done to the heap by then.
  `wp m Q E h` says that `m`, started in `h`, ends in `Q` or raises in `E`; the rules `wp_bind`,
  `wp_get`, `wp_modify` and `wp_forM` run a program symbolically.

  `Heap.Keeps edge h₀ h` is the invariant of a program that changes none of the objects of `h₀`
  and stores none of their references: `h₀` is a prefix of `h`, and the links of newer objects
  lead to newer objects only. What can be reached from an older object is then older, except
  through an object that has been changed since (`lt_or_reach`).
-/
import Mathlib.Data.List.Infix
import Mathlib.Logic.Relation

namespace Buildsh.Generic

abbrev Heap (O : Type) := List O

/-! ## Reading and writing -/

namespace Heap

variable {O : Type}

section Access

variable [Inhabited O] {h h' : Heap O} {r r' : Nat} {o : O}

/-- The object behind a reference; before it is allocated, the default. -/
def get (h : Heap O) (r : Nat) : O := (h[r]?).getD default

theorem get_older (hp : h <+: h') (hr : r < h.length) : get h' r = get h r := by
  obtain ⟨l, rfl⟩ := hp
  unfold get
  rw [List.getElem?_append_left hr]

theorem get_of_le (hr : h.length ≤ r) : get h r = default := by
  unfold get
  rw [List.getElem?_eq_none hr]
  rfl

theorem get_alloc_self (h : Heap O) (o : O) : get (h ++ [o]) h.length = o := by
  unfold get
  rw [List.getElem?_append_right (le_refl _), Nat.sub_self]
  rfl

theorem get_alloc_of_ne (o : O) (hr : r ≠ h.length) : get (h ++ [o]) r = get h r := by
  rcases Nat.lt_or_gt_of_ne hr with hlt | hgt
  · exact get_older (List.prefix_append h [o]) hlt
  · have hlen : (h ++ [o]).length ≤ r := by
      rw [List.length_append, List.length_singleton]
      exact hgt
    rw [get_of_le hlen, get_of_le (Nat.le_of_lt hgt)]

theorem get_set_self (hr : r < h.length) (o : O) : get (h.set r o) r = o := by
  unfold get
  rw [List.getElem?_set_self hr]
  rfl

theorem get_set_of_ne (o : O) (hne : r' ≠ r) : get (h.set r o) r' = get h r' := by
  unfold get
  rw [List.getElem?_set_ne (Ne.symm hne)]

end Access

/-- A write behind the end of `h₀` leaves `h₀` as it is. -/
theorem prefix_set {h₀ h : Heap O} {r : Nat} (hp : h₀ <+: h) (hr : h₀.length ≤ r) (o : O) :
    h₀ <+: h.set r o := by
  obtain ⟨l, rfl⟩ := hp
  rw [List.set_append_right _ _ hr]
  exact List.prefix_append _ _

/-! ## Links between objects -/

section Links

variable [Inhabited O] (edge : O → Nat → Prop)

/-- The links of all objects lead to objects of the heap. -/
def Closed (h : Heap O) : Prop := ∀ r r', edge (get h r) r' → r' < h.length

/-- From the first object the second can be reached. -/
def Reach (h : Heap O) : Nat → Nat → Prop :=
  Relation.ReflTransGen fun r r' => edge (get h r) r'

/-- From `m` on, the links of an object lead to objects from `m` on. -/
def Above (m : Nat) (h : Heap O) : Prop :=
  ∀ r r', m ≤ r → edge (get h r) r' → m ≤ r' ∧ r' < h.length

/-- `h₀` is unchanged, and the links of newer objects lead to newer objects. -/
structure Keeps (h₀ h : Heap O) : Prop where
  isPrefix : h₀ <+: h
  above : Above edge h₀.length h

variable {edge} {h₀ h h' : Heap O} {m r r' : Nat}

theorem Above.alloc (ha : Above edge m h) {o : O} (ho : ∀ r', edge o r' → m ≤ r' ∧ r' < h.length) :
    Above edge m (h ++ [o]) := by
  intro r r' hr he
  rw [List.length_append, List.length_singleton]
  by_cases hrl : r = h.length
  · rw [hrl, get_alloc_self] at he
    have h' := ho r' he
    omega
  · rw [get_alloc_of_ne o hrl] at he
    have h' := ha r r' hr he
    omega

theorem Above.set (ha : Above edge m h) {o : O} (ho : ∀ r', edge o r' → m ≤ r' ∧ r' < h.length) :
    Above edge m (h.set r o) := by
  intro x r' hx he
  rw [List.length_set]
  by_cases hxr : x = r
  · subst hxr
    by_cases hlt : x < h.length
    · rw [get_set_self hlt] at he
      exact ho r' he
    · rw [List.set_eq_of_length_le (Nat.le_of_not_lt hlt)] at he
      exact ha x r' hx he
  · rw [get_set_of_ne o hxr] at he
    exact ha x r' hx he

theorem Above.set_below (ha : Above edge m h) (hr : r < m) (o : O) : Above edge m (h.set r o) := by
  intro x r' hx he
  rw [get_set_of_ne o (by omega)] at he
  rw [List.length_set]
  exact ha x r' hx he

/-- Two regions, one behind the other. -/
theorem Above.trans (ha : Above edge m h) (hm : m ≤ h.length) (hk : Keeps edge h h') :
    Above edge m h' := by
  intro r r' hr he
  have hlen := hk.isPrefix.length_le
  by_cases hrh : r < h.length
  · rw [get_older hk.isPrefix hrh] at he
    have h' := ha r r' hr he
    omega
  · have h' := hk.above r r' (by omega) he
    omega

theorem above_length (h : Heap O) (hd : ∀ r, ¬ edge default r) : Above edge h.length h := by
  intro r r' hr he
  rw [get_of_le hr] at he
  exact absurd he (hd r')

theorem Keeps.length_le (hk : Keeps edge h₀ h) : h₀.length ≤ h.length := hk.isPrefix.length_le

theorem keeps_refl (h : Heap O) (hd : ∀ r, ¬ edge default r) : Keeps edge h h :=
  ⟨List.prefix_refl h, above_length h hd⟩

theorem Keeps.trans (hk : Keeps edge h₀ h) (hk' : Keeps edge h h') : Keeps edge h₀ h' :=
  ⟨hk.isPrefix.trans hk'.isPrefix, hk.above.trans hk.length_le hk'⟩

theorem Keeps.alloc (hk : Keeps edge h₀ h) {o : O}
    (ho : ∀ r', edge o r' → h₀.length ≤ r' ∧ r' < h.length) : Keeps edge h₀ (h ++ [o]) :=
  ⟨hk.isPrefix.trans (List.prefix_append h [o]), hk.above.alloc ho⟩

theorem Keeps.set (hk : Keeps edge h₀ h) (hr : h₀.length ≤ r) {o : O}
    (ho : ∀ r', edge o r' → h₀.length ≤ r' ∧ r' < h.length) : Keeps edge h₀ (h.set r o) :=
  ⟨prefix_set hk.isPrefix hr o, hk.above.set ho⟩

/-- What an older object leads to is older, unless the way goes through `root`, the one older
    object that has changed. -/
theorem lt_or_reach {root : Nat} (hc : Closed edge h₀)
    (hold : ∀ x, x < h₀.length → x ≠ root → get h x = get h₀ x) (hr : r < h₀.length)
    (hreach : Reach edge h r r') : r' < h₀.length ∨ Reach edge h r root := by
  induction hreach with
  | refl => exact Or.inl hr
  | @tail x y hrx he ih =>
      rcases ih with hx | hroot
      · by_cases hxr : x = root
        · exact Or.inr (hxr ▸ hrx)
        · rw [hold x hx hxr] at he
          exact Or.inl (hc x y he)
      · exact Or.inr hroot

end Links

end Heap

/-! ## Programs -/

section Programs

variable {σ ε α β : Type}

/-- The state `m` ends in, started in `s`, is in `Q` with its result, or in `E` with its error. -/
def wp (m : EStateM ε σ α) (Q : α → σ → Prop) (E : ε → σ → Prop) (s : σ) : Prop :=
  match m s with
  | .ok a s' => Q a s'
  | .error e s' => E e s'

variable {m : EStateM ε σ α} {Q Q' : α → σ → Prop} {E E' : ε → σ → Prop} {s : σ}

theorem wp_mono (h : wp m Q E s) (hQ : ∀ a s', Q a s' → Q' a s') (hE : ∀ e s', E e s' → E' e s') :
    wp m Q' E' s := by
  unfold wp at h ⊢
  cases hm : m s with
  | ok a s' => rw [hm] at h; exact hQ a s' h
  | error e s' => rw [hm] at h; exact hE e s' h

theorem wp_and (h : wp m Q E s) (h' : wp m Q' E' s) :
    wp m (fun a s' => Q a s' ∧ Q' a s') (fun e s' => E e s' ∧ E' e s') s := by
  unfold wp at h h' ⊢
  cases hm : m s with
  | ok a s' => rw [hm] at h h'; exact ⟨h, h'⟩
  | error e s' => rw [hm] at h h'; exact ⟨h, h'⟩

theorem of_wp_ok (h : wp m Q E s) {a : α} {s' : σ} (hm : m s = .ok a s') : Q a s' := by
  unfold wp at h
  rwa [hm] at h

theorem of_wp_error (h : wp m Q E s) {e : ε} {s' : σ} (hm : m s = .error e s') : E e s' := by
  unfold wp at h
  rwa [hm] at h

theorem exists_of_wp (h : wp m Q E s) (hE : ∀ e s', ¬ E e s') :
    ∃ a s', m s = .ok a s' ∧ Q a s' := by
  cases hm : m s with
  | ok a s' => exact ⟨a, s', rfl, of_wp_ok h hm⟩
  | error e s' => exact absurd (of_wp_error h hm) (hE e s')

@[simp] theorem wp_pure (a : α) : wp (pure a) Q E s ↔ Q a s := Iff.rfl

@[simp] theorem wp_throw (e : ε) : wp (throw e : EStateM ε σ α) Q E s ↔ E e s := Iff.rfl

@[simp] theorem wp_bind {R : β → σ → Prop} (f : α → EStateM ε σ β) :
    wp (m >>= f) R E s ↔ wp m (fun a s' => wp (f a) R E s') E s := by
  change (match EStateM.bind m f s with | .ok a s' => R a s' | .error e s' => E e s') ↔
    match m s with | .ok a s' => wp (f a) R E s' | .error e s' => E e s'
  unfold EStateM.bind
  cases m s with
  | ok a s' => rfl
  | error e s' => rfl

@[simp] theorem wp_get {R : σ → σ → Prop} : wp (get : EStateM ε σ σ) R E s ↔ R s s := Iff.rfl

@[simp] theorem wp_modify {R : PUnit → σ → Prop} (f : σ → σ) :
    wp (modify f : EStateM ε σ PUnit) R E s ↔ R ⟨⟩ (f s) := Iff.rfl

/-- A loop over a list, with an invariant that sees the part that is done. -/
theorem wp_forM {ι : Type} {f : ι → EStateM ε σ PUnit} (I : List ι → σ → Prop) (l : List ι)
    (hstep : ∀ u x v s, l = u ++ x :: v → I u s →
      wp (f x) (fun _ s' => I (u ++ [x]) s') E s) (h : I [] s) :
    wp (l.forM f) (fun _ s' => I l s') E s := by
  suffices hs : ∀ v u s, l = u ++ v → I u s → wp (v.forM f) (fun _ s' => I l s') E s from
    hs l [] s rfl h
  intro v
  induction v with
  | nil =>
      intro u s hl hu
      rw [List.append_nil] at hl
      exact hl ▸ hu
  | cons x v ih =>
      intro u s hl hu
      change wp (f x >>= fun _ => v.forM f) _ _ _
      rw [wp_bind]
      refine wp_mono (hstep u x v s hl hu) (fun _ s' hs' => ?_) (fun _ _ he => he)
      exact ih (u ++ [x]) s' (by rw [hl, List.append_assoc]; rfl) hs'

end Programs

end Buildsh.Generic
