/-
  `luaH_next`, and loops with `pairs`.

  `build.lua` and `base.lua` assign to the fields of a table while they walk it with `pairs`. A call
  of `luaH_next` looks for the node of the last key and goes on behind it, so this is right as long
  as the nodes stay where they are: a field that exists may be changed or cleared, and the garbage
  collector may mark its key.

  `loop_visits`: a loop whose body does no more than this never fails, visits no field twice and
  misses none that is still there at the end. `updateDepsIo_nodes`: `update_deps_io` on the nodes
  of a table does what its model does on the list of the fields.
-/
import Buildsh.Build
import Buildsh.LuaTable

namespace Buildsh.LuaTable
open Buildsh.Generic

section Next

variable {K V : Type} [DecidableEq K] (mp : MainPosition K)

/-- The key and the value of a node, if it has a value. -/
def HashPart.element (t : HashPart K V) (i : Nat) : Option (K × V) :=
  match (t.node i).key.object, (t.node i).val with
  | some k, some v => some (k, v)
  | _, _ => none

/-- `findindex`: the index behind the one of the key. -/
def findindex (t : HashPart K V) : Option K → Except Failure Nat
  | none => .ok 0
  | some k =>
      match walk t.gnext (fun i => (t.node i).key.object = some k) t.sizenode
        (mp.pos t.lsizenode k) with
      | some i => .ok (i + 1)
      | none => .error (.raised (.message "invalid key to 'next'".toList))

def luaHNext (t : HashPart K V) (key : Option K) : Except Failure (Option (K × V)) := do
  let i ← findindex mp t key
  return (List.range' i (t.sizenode - i)).findSome? t.element

/-- What the body of a loop may do to the table that is walked. -/
inductive Touched (collectable : K → Bool) (depth : Nat) (t : HashPart K V) :
    HashPart K V → Prop where
  | refl : Touched collectable depth t t
  /-- `t[ k ] = v`, for a field that exists -/
  | assign {t₁ t₂ : HashPart K V} {k : K} {v : Option V} (h : Touched collectable depth t t₁)
      (hk : index mp t₁ k ≠ none) (hv : assign mp depth t₁ k v = .ok t₂) :
      Touched collectable depth t t₂
  | collect {t₁ : HashPart K V} (h : Touched collectable depth t t₁) :
      Touched collectable depth t (collect collectable t₁)

/-- A loop over `t₀`: the keys it has visited, the last one, and the table. What the body does in
    the round of a key is left open. -/
inductive Loop (collectable : K → Bool) (depth : Nat)
    (body : K → HashPart K V → HashPart K V → Prop) (t₀ : HashPart K V) :
    List K → Option K → HashPart K V → Prop where
  | start : Loop collectable depth body t₀ [] none t₀
  | round {l : List K} {key : Option K} {t t' : HashPart K V} {k : K} {v : V}
      (h : Loop collectable depth body t₀ l key t)
      (hnext : luaHNext mp t key = .ok (some (k, v)))
      (htouched : Touched mp collectable depth t t') (hbody : body k t t') :
      Loop collectable depth body t₀ (l ++ [k]) (some k) t'

end Next

section Walk

variable {K V : Type} [DecidableEq K] {mp : MainPosition K} {collectable : K → Bool}
  {depth : Nat} {body : K → HashPart K V → HashPart K V → Prop} {t t' t₀ : HashPart K V}
  {k : K} {v : V} {i j : Nat}

omit [DecidableEq K] in
theorem element_eq_some (h : Valid mp t) :
    t.element i = some (k, v) ↔ (t.node i).key = .key k ∧ (t.node i).val = some v := by
  unfold HashPart.element
  cases hk : (t.node i).key with
  | nil => simp [Key.object]
  | dead k' => simp [Key.object, h.dead i k' hk]
  | key k' => cases (t.node i).val <;> simp [Key.object]

theorem index_eq_some_iff_element (h : Valid mp t) :
    index mp t k = some v ↔ ∃ i, t.element i = some (k, v) := by
  rw [index_eq_some h]
  exact exists_congr fun i => (element_eq_some h).symm

/-- `t'` is a later state of a table `t` that is walked. -/
structure Kept (mp : MainPosition K) (t t' : HashPart K V) : Prop where
  valid : Valid mp t'
  lsizenode : t'.lsizenode = t.lsizenode
  next : ∀ i, (t'.node i).next = (t.node i).next
  object : ∀ i, (t'.node i).key.object = (t.node i).key.object
  element : ∀ i k v, t'.element i = some (k, v) → ∃ v, t.element i = some (k, v)

omit [DecidableEq K] in
theorem Kept.refl (h : Valid mp t) : Kept mp t t :=
  ⟨h, rfl, fun _ => rfl, fun _ => rfl, fun _ _ v h => ⟨v, h⟩⟩

omit [DecidableEq K] in
theorem Kept.trans {t'' : HashPart K V} (h : Kept mp t t') (h' : Kept mp t' t'') :
    Kept mp t t'' where
  valid := h'.valid
  lsizenode := h'.lsizenode.trans h.lsizenode
  next i := (h'.next i).trans (h.next i)
  object i := (h'.object i).trans (h.object i)
  element i k v hv := by
    obtain ⟨v', hv'⟩ := h'.element i k v hv
    exact h.element i k v' hv'

/-- For a field that exists, `luaH_set` returns its node. -/
theorem assign_existing (h : Valid mp t) (hi : (t.node i).key = .key k) (hdepth : 0 < depth)
    (v : Option V) : assign mp depth t k v = .ok (t.setVal i v) := by
  obtain ⟨d, rfl⟩ : ∃ d, depth = d + 1 := ⟨depth - 1, by omega⟩
  unfold assign luaHSet
  rw [(luaHGet_iff h).mpr hi]
  rfl

theorem kept_assign (h : Valid mp t) (hk : index mp t k ≠ none) {v : Option V}
    (ha : assign mp depth t k v = .ok t') : Kept mp t t' := by
  obtain ⟨w, hw⟩ := Option.ne_none_iff_exists'.mp hk
  obtain ⟨i, hi, hval⟩ := (index_eq_some h).mp hw
  have hset : t' = t.setVal i v := by
    rcases Nat.eq_zero_or_pos depth with rfl | hdepth
    · cases ha
    · rw [assign_existing h hi hdepth] at ha
      exact (Except.ok.inj ha).symm
  rw [hset]
  have hvalid := h.setVal hi v
  refine ⟨hvalid, rfl, fun j => (setVal_node t i j v).2.1, fun j => ?_, fun j k' v' hj => ?_⟩
  · rw [(setVal_node t i j v).1]
  · rw [element_eq_some hvalid, (setVal_node t i j v).1, (setVal_node t i j v).2.2] at hj
    simp only [element_eq_some h]
    split_ifs at hj with hji
    · exact ⟨w, hj.1, hji ▸ hval⟩
    · exact ⟨v', hj⟩

omit [DecidableEq K] in
theorem kept_collect (h : Valid mp t) : Kept mp t (collect collectable t) := by
  refine ⟨h.collect, rfl, fun i => (collect_node t i).2.1, fun i => (collect_node t i).2.2.1,
    fun i k v hi => ⟨v, ?_⟩⟩
  rw [element_eq_some h.collect, (collect_node t i).1] at hi
  rw [element_eq_some h]
  exact ⟨key_of_collect hi.1, hi.2⟩

theorem Touched.kept (h : Valid mp t) (ht : Touched mp collectable depth t t') :
    Kept mp t t' := by
  induction ht with
  | refl => exact Kept.refl h
  | assign _ hk hv ih => exact ih.trans (kept_assign ih.valid hk hv)
  | collect _ ih => exact ih.trans (kept_collect ih.valid)

/-- The node of a field that has been visited is found again. -/
theorem findindex_kept (h : Valid mp t) (hkept : Kept mp t t') (hi : t.element i = some (k, v)) :
    findindex mp t' (some k) = .ok (i + 1) := by
  have hkey := ((element_eq_some h).mp hi).1
  obtain ⟨a, b, hl, hnot⟩ := h.chained i k hkey
  have hgnext : t'.gnext = t.gnext := funext hkept.next
  have hpos : mp.pos t'.lsizenode k = mp.pos t.lsizenode k := by rw [hkept.lsizenode]
  rw [← hgnext, ← hpos] at hl
  have hwalk : walk t'.gnext (fun i => (t'.node i).key.object = some k) t'.sizenode
      (mp.pos t'.lsizenode k) = some i := by
    refine walk_eq_some hl (hkept.valid.lt_of_reach hl (hkept.valid.pos_lt k)) (fun x hx => ?_)
      (decide_eq_true ?_)
    · refine decide_eq_false ?_
      rw [hkept.object]
      exact hnot x hx
    · rw [hkept.object, hkey]
      rfl
  unfold findindex
  dsimp only
  rw [hwalk]

/-! ## Loops -/

/-- The keys of the fields, in the order of their nodes. -/
def HashPart.fields (t : HashPart K V) : List K :=
  ((List.range t.sizenode).filterMap t.element).map Prod.fst

/-- The fields from node `i` on. -/
def HashPart.from_ (t : HashPart K V) (i : Nat) : List (K × V) :=
  (List.range' i (t.sizenode - i)).filterMap t.element

omit [DecidableEq K] in
theorem from_eq (t : HashPart K V) (hi : i < t.sizenode) :
    t.from_ i = (t.element i).toList ++ t.from_ (i + 1) := by
  unfold HashPart.from_
  obtain ⟨n, hn⟩ : ∃ n, t.sizenode - i = n + 1 := ⟨t.sizenode - i - 1, by omega⟩
  have hn' : t.sizenode - (i + 1) = n := by omega
  rw [hn, hn', List.range'_succ, List.filterMap_cons]
  cases t.element i <;> rfl

omit [DecidableEq K] in
theorem from_of_le (t : HashPart K V) (hi : t.sizenode ≤ i) : t.from_ i = [] := by
  unfold HashPart.from_
  rw [Nat.sub_eq_zero_of_le hi]
  rfl

omit [DecidableEq K] in
/-- The next field is in some node `j`, and the fields behind it come after this node. -/
theorem from_cases (t : HashPart K V) (i : Nat) :
    (t.from_ i = [] ∧ ∀ x, i ≤ x → x < t.sizenode → t.element x = none) ∨
    ∃ j e, i ≤ j ∧ j < t.sizenode ∧ t.element j = some e ∧
      (∀ x, i ≤ x → x < j → t.element x = none) ∧ t.from_ i = e :: t.from_ (j + 1) := by
  by_cases hi : i < t.sizenode
  · rw [from_eq t hi]
    cases he : t.element i with
    | some e => exact Or.inr ⟨i, e, le_refl _, hi, he, fun x hx hx' => by omega, rfl⟩
    | none =>
        rcases from_cases t (i + 1) with ⟨hnil, hnone⟩ | ⟨j, e, hj, hj', hval, hnone, hcons⟩
        · refine Or.inl ⟨hnil, fun x hx hx' => ?_⟩
          rcases Nat.eq_or_lt_of_le hx with rfl | hlt
          · exact he
          · exact hnone x hlt hx'
        · refine Or.inr ⟨j, e, by omega, hj', hval, fun x hx hx' => ?_, hcons⟩
          rcases Nat.eq_or_lt_of_le hx with rfl | hlt
          · exact he
          · exact hnone x hlt hx'
  · exact Or.inl ⟨from_of_le t (Nat.le_of_not_lt hi), fun x hx hx' => by omega⟩
  termination_by t.sizenode - i

/-- A loop that has come to node `p`. -/
structure At (mp : MainPosition K) (t₀ : HashPart K V) (l : List K) (key : Option K)
    (t : HashPart K V) (p : Nat) : Prop where
  kept : Kept mp t₀ t
  found : findindex mp t key = .ok p
  le : p ≤ t₀.sizenode
  visited : l.Sublist (((List.range p).filterMap t₀.element).map Prod.fst)
  seen : ∀ i, i < p → ∀ k v, t.element i = some (k, v) → k ∈ l

theorem luaHNext_eq {key : Option K} {p : Nat} (h : findindex mp t key = .ok p) :
    luaHNext mp t key = .ok (t.from_ p).head? := by
  unfold luaHNext HashPart.from_
  rw [h, List.head?_filterMap]
  rfl

omit [DecidableEq K] in
theorem range_filterMap_sublist (t : HashPart K V) {p j : Nat} (hj : p ≤ j) {e : K × V}
    (he : t.element j = some e) :
    (((List.range p).filterMap t.element).map Prod.fst ++ [e.1]).Sublist
      (((List.range (j + 1)).filterMap t.element).map Prod.fst) := by
  rw [List.range_succ, List.filterMap_append, List.map_append]
  refine List.Sublist.append (List.Sublist.map _ (List.Sublist.filterMap _ ?_)) ?_
  · exact List.range_sublist.mpr hj
  · simp [he]

theorem at_of_loop (h : Valid mp t₀) {l : List K} {key : Option K}
    (hl : Loop mp collectable depth body t₀ l key t) : ∃ p, At mp t₀ l key t p := by
  induction hl with
  | start => exact ⟨0, Kept.refl h, rfl, Nat.zero_le _, List.nil_sublist _, fun i hi => by omega⟩
  | @round l key t t' k v hl hnext htouched hbody ih =>
      obtain ⟨p, hat⟩ := ih
      have hsize : t.sizenode = t₀.sizenode := by
        unfold HashPart.sizenode
        rw [hat.kept.lsizenode]
      rw [luaHNext_eq hat.found, Except.ok.injEq] at hnext
      obtain ⟨j, hpj, hj, hval, hnone⟩ : ∃ j, p ≤ j ∧ j < t.sizenode ∧
          t.element j = some (k, v) ∧ ∀ x, p ≤ x → x < j → t.element x = none := by
        rcases from_cases t p with ⟨hnil, -⟩ | ⟨j, e, hpj, hj, hval, hnone, hcons⟩
        · rw [hnil] at hnext
          cases hnext
        · rw [hcons] at hnext
          cases hnext
          exact ⟨j, hpj, hj, hval, hnone⟩
      have hkept := htouched.kept hat.kept.valid
      obtain ⟨v₀, hv₀⟩ := hat.kept.element j k v hval
      refine ⟨j + 1, hat.kept.trans hkept, findindex_kept hat.kept.valid hkept hval, ?_, ?_, ?_⟩
      · have := hat.le
        omega
      · exact (List.Sublist.append hat.visited (List.Sublist.refl [k])).trans
          (range_filterMap_sublist t₀ hpj hv₀)
      · intro i hi k' v' hi'
        obtain ⟨w, hw⟩ := hkept.element i k' v' hi'
        rw [List.mem_append, List.mem_singleton]
        rcases Nat.lt_or_ge i p with hip | hip
        · exact Or.inl (hat.seen i hip k' w hw)
        · rcases Nat.lt_succ_iff_lt_or_eq.mp hi with hij | rfl
          · rw [hnone i hip hij] at hw
            cases hw
          · rw [hval] at hw
            cases hw
            exact Or.inr rfl

omit [DecidableEq K] in
theorem nodup_fields (h : Valid mp t) : t.fields.Nodup := by
  unfold HashPart.fields
  rw [List.map_filterMap]
  refine List.Nodup.filterMap (fun i j k hi hj => ?_) List.nodup_range
  obtain ⟨⟨k₁, v₁⟩, h₁, rfl⟩ := Option.map_eq_some_iff.mp hi
  obtain ⟨⟨k₂, v₂⟩, h₂, heq⟩ := Option.map_eq_some_iff.mp hj
  cases heq
  exact h.unique i j _ ((element_eq_some h).mp h₁).1 ((element_eq_some h).mp h₂).1

theorem mem_fields (h : Valid mp t) : k ∈ t.fields ↔ index mp t k ≠ none := by
  unfold HashPart.fields
  rw [Option.ne_none_iff_exists', List.mem_map]
  constructor
  · rintro ⟨⟨k', v⟩, hmem, rfl⟩
    obtain ⟨i, -, hi⟩ := List.mem_filterMap.mp hmem
    exact ⟨v, (index_eq_some_iff_element h).mpr ⟨i, hi⟩⟩
  · rintro ⟨v, hv⟩
    obtain ⟨i, hi⟩ := (index_eq_some_iff_element h).mp hv
    have hkey := ((element_eq_some h).mp hi).1
    refine ⟨(k, v), List.mem_filterMap.mpr ⟨i, ?_, hi⟩, rfl⟩
    exact List.mem_range.mpr (h.used i (by rw [hkey]; simp)).1

theorem valid_of_run {nhash : Nat} (hnew : luaHNew nhash = .ok t) (hdepth : 2 ≤ depth)
    {ops : List (Op K V)} (hrun : run mp collectable depth ops t = .ok t₀) : Valid mp t₀ := by
  rcases run_spec collectable (valid_luaHNew mp hnew).1 hdepth ops with
    ⟨t₁, hok, hvalid, -⟩ | ⟨herr, -⟩
  · rw [hok] at hrun
    cases hrun
    exact hvalid
  · rw [herr] at hrun
    cases hrun

/-- At the end of a loop, what is there has been visited. -/
theorem At.mem_of_end {l : List K} {key : Option K} {p : Nat} (hat : At mp t₀ l key t p)
    (hend : luaHNext mp t key = .ok none) (hk : index mp t k ≠ none) : k ∈ l := by
  obtain ⟨v, hv⟩ := Option.ne_none_iff_exists'.mp hk
  obtain ⟨i, hi⟩ := (index_eq_some_iff_element hat.kept.valid).mp hv
  rcases Nat.lt_or_ge i p with hip | hip
  · exact hat.seen i hip k v hi
  · rw [luaHNext_eq hat.found] at hend
    rcases from_cases t p with ⟨-, hnone⟩ | ⟨j, e, -, -, -, -, hcons⟩
    · have hkey := ((element_eq_some hat.kept.valid).mp hi).1
      rw [hnone i hip (hat.kept.valid.used i (by rw [hkey]; simp)).1] at hi
      cases hi
    · rw [hcons] at hend
      cases hend

/-- **A loop with `pairs`.** In a table that was filled by any assignments, a loop whose body
    changes and clears existing fields never fails to find its next field, visits no field twice,
    and has visited every field that is there when it ends. -/
theorem loop_visits {nhash : Nat} (hnew : luaHNew nhash = .ok t) (hdepth : 2 ≤ depth)
    {ops : List (Op K V)} (hrun : run mp collectable depth ops t = .ok t₀) {l : List K}
    {key : Option K} (hl : Loop mp collectable depth body t₀ l key t') :
    (∃ next, luaHNext mp t' key = .ok next) ∧
    l.Nodup ∧ (∀ k ∈ l, index mp t₀ k ≠ none) ∧
    (luaHNext mp t' key = .ok none → ∀ k, index mp t' k ≠ none → k ∈ l) := by
  have hvalid := valid_of_run hnew hdepth hrun
  obtain ⟨p, hat⟩ := at_of_loop hvalid hl
  have hsub : l.Sublist t₀.fields := by
    refine hat.visited.trans (List.Sublist.map _ (List.Sublist.filterMap _ ?_))
    exact List.range_sublist.mpr hat.le
  exact ⟨⟨_, luaHNext_eq hat.found⟩, hsub.nodup (nodup_fields hvalid),
    fun k hk => (mem_fields hvalid).mp (hsub.subset hk), fun hend k => hat.mem_of_end hend⟩

/-- Two fields. -/
def twoOps : List (Op LuaString Nat) := [.assign ['a'] (some 1), .assign ['b', 'b'] (some 2)]

def two : HashPart LuaString Nat :=
  ((run (hashstr List.length) (fun _ => true) 2 twoOps ⟨0, fun _ => .free, true, 0⟩).toOption).getD
    ⟨0, fun _ => .free, true, 0⟩

theorem run_two : run (hashstr List.length) (fun _ => true) 2 twoOps
    ⟨0, fun _ => .free, true, 0⟩ = .ok two := by
  obtain ⟨t, ht⟩ := Trace.ok_of_isSome (x := run (hashstr List.length) (fun _ => true) 2 twoOps
    ⟨0, fun _ => .free, true, 0⟩) (by decide)
  rw [two, ht]
  rfl

/-- A loop that has visited the first field. -/
theorem loop_visits_two :
    (∃ next, luaHNext (hashstr List.length) two (some ['b', 'b']) = .ok next) ∧
    [['b', 'b']].Nodup ∧ (∀ k ∈ [['b', 'b']], index (hashstr List.length) two k ≠ none) ∧
    (luaHNext (hashstr List.length) two (some ['b', 'b']) = .ok none →
      ∀ k, index (hashstr List.length) two k ≠ none → k ∈ [['b', 'b']]) := by
  have hnext : luaHNext (hashstr List.length) two none = .ok (some (['b', 'b'], 2)) := by decide
  have hloop : Loop (hashstr List.length) (fun _ => true) 2 (fun _ _ _ => True) two
      ([] ++ [['b', 'b']]) (some ['b', 'b']) two := .round .start hnext .refl trivial
  exact loop_visits (show luaHNew 0 = .ok _ from rfl) (le_refl 2) run_two hloop

theorem Kept.index_eq_none (h : Valid mp t) (hkept : Kept mp t t') (hk : index mp t k = none) :
    index mp t' k = none := by
  refine Option.eq_none_iff_forall_ne_some.mpr fun v hv => ?_
  obtain ⟨i, hi⟩ := (index_eq_some_iff_element hkept.valid).mp hv
  obtain ⟨w, hw⟩ := hkept.element i k v hi
  rw [(index_eq_some_iff_element h).mpr ⟨i, hw⟩] at hk
  cases hk

/-- **Clearing a table.** A loop whose body clears the field of its round, as in `make.autoclean`,
    leaves the table empty. -/
theorem loop_clears {nhash : Nat} (hnew : luaHNew nhash = .ok t) (hdepth : 2 ≤ depth)
    {ops : List (Op K V)} (hrun : run mp collectable depth ops t = .ok t₀)
    (hbody : ∀ k t t', body k t t' → index mp t' k = none) {l : List K} {key : Option K}
    (hl : Loop mp collectable depth body t₀ l key t') (hend : luaHNext mp t' key = .ok none)
    (k : K) : index mp t' k = none := by
  have hvalid := valid_of_run hnew hdepth hrun
  have hcleared : ∀ k ∈ l, index mp t' k = none := by
    clear hend
    induction hl with
    | start => exact fun k hk => absurd hk List.not_mem_nil
    | round hl hnext htouched hround ih =>
        obtain ⟨p, hat⟩ := at_of_loop hvalid hl
        intro k hk
        rcases List.mem_append.mp hk with hk | hk
        · exact (htouched.kept hat.kept.valid).index_eq_none hat.kept.valid (ih k hk)
        · rw [List.mem_singleton.mp hk]
          exact hbody _ _ _ hround
  obtain ⟨p, hat⟩ := at_of_loop hvalid hl
  by_contra hk
  exact hk (hcleared k (hat.mem_of_end hend hk))

/-- The table after a loop that has cleared both fields. -/
def cleared : HashPart LuaString Nat := (two.setVal 0 none).setVal 1 none

theorem loop_clears_two :
    Loop (hashstr List.length) (fun _ => true) 2
      (fun k _ t' => index (hashstr List.length) t' k = none) two [['b', 'b'], ['a']]
      (some ['a']) cleared ∧
    luaHNext (hashstr List.length) cleared (some ['a']) = .ok none ∧
    ∀ k, index (hashstr List.length) cleared k = none := by
  have hclear : assign (hashstr List.length) 2 two ['b', 'b'] none = .ok (two.setVal 0 none) := rfl
  have hclear' : assign (hashstr List.length) 2 (two.setVal 0 none) ['a'] none = .ok cleared := rfl
  have hloop : Loop (hashstr List.length) (fun _ => true) 2
      (fun k _ t' => index (hashstr List.length) t' k = none) two
      ([] ++ [['b', 'b']] ++ [['a']]) (some ['a']) cleared := by
    refine .round (.round .start (v := 2) ?_ (.assign .refl (by decide) hclear) (by decide))
      (v := 1) ?_ (.assign .refl (by decide) hclear') (by decide)
    · decide
    · decide
  have hend : luaHNext (hashstr List.length) cleared (some ['a']) = .ok none := by decide
  exact ⟨hloop, hend, loop_clears (show luaHNew 0 = .ok _ from rfl) (le_refl 2) run_two
    (fun _ _ _ h => h) hloop hend⟩

end Walk

/-! ## `update_deps_io` -/

/-- `hashmod` stays in the table. -/
theorem hashmod_lt (n lsizenode : Nat) : n % ((2 ^ lsizenode - 1) ||| 1) < 2 ^ lsizenode := by
  have hpos : 0 < (2 ^ lsizenode - 1) ||| 1 := Nat.lt_of_lt_of_le one_pos Nat.right_le_or
  have hlt := Nat.mod_lt n hpos
  rcases Nat.eq_zero_or_pos lsizenode with rfl | hl
  · exact hlt
  · have hone : 1 < 2 ^ lsizenode := Nat.one_lt_two_pow hl.ne'
    have hor : (2 ^ lsizenode - 1) ||| 1 < 2 ^ lsizenode := Nat.or_lt_two_pow (by omega) hone
    exact lt_trans hlt hor

/-- `mainposition`, for keys that are no numbers: the pointer of an object is its number. -/
def mainposition (hash : LuaString → Nat) : MainPosition Value where
  pos lsizenode
    | .str s => hash s % 2 ^ lsizenode
    | .bool b => b.toNat % 2 ^ lsizenode
    | .other n => n % 2 ^ 32 % ((2 ^ lsizenode - 1) ||| 1)
  lt lsizenode k := by
    cases k with
    | str s => exact Nat.mod_lt _ (Nat.two_pow_pos lsizenode)
    | bool b => exact Nat.mod_lt _ (Nat.two_pow_pos lsizenode)
    | other n => exact hashmod_lt _ lsizenode

section UpdateDepsIo

variable (mp : MainPosition Value) (depth : Nat) (hashFile : Value → Except LuaError LuaString)

/-- `update_deps_io` on the nodes of `deps_io`, from a key on, for at most `fuel` rounds. -/
def updateNodes (onlynew stop : Bool) : Nat → Option Value → HashPart Value Value → Bool →
    Except Failure (HashPart Value Value × Bool)
  | 0, _, _, _ => .error .depth
  | fuel + 1, key, t, differ => do
      match ← luaHNext mp t key with
      | none => .ok (t, differ)
      | some (fn, ohash) =>
          if !onlynew || !ohash.isString then
            match hashFile fn with
            | .error e => .error (.raised e)
            | .ok nhash => do
                let t ← assign mp depth t fn (some (.str nhash))
                if ohash ≠ .str nhash then
                  if stop then .ok (t, true) else updateNodes onlynew stop fuel (some fn) t true
                else updateNodes onlynew stop fuel (some fn) t differ
          else updateNodes onlynew stop fuel (some fn) t differ

variable {mp depth hashFile} {t t₀ : HashPart Value Value}

/-- The fields as the list that the model of `pairs` walks. -/
def toTable (t : HashPart Value Value) (h : Valid mp t) : Table Value where
  entries := (t.from_ 0).map fun e => ⟨e.1, e.2⟩
  nodupKeys := by
    have hkeys : ((t.from_ 0).map fun e => (⟨e.1, e.2⟩ : Sigma fun _ : Value => Value)).keys =
        t.fields := by
      unfold List.keys HashPart.fields HashPart.from_
      rw [List.map_map, Nat.sub_zero, List.range_eq_range']
      rfl
    unfold List.NodupKeys
    rw [hkeys]
    exact nodup_fields h

theorem from_setVal {K V : Type} (t : HashPart K V) {j : Nat} (v : Option V) :
    (t.setVal j v).from_ (j + 1) = t.from_ (j + 1) := by
  unfold HashPart.from_
  refine List.filterMap_congr fun i hi => ?_
  have hij : i ≠ j := by
    have := (List.mem_range'_1.mp hi).1
    omega
  unfold HashPart.element
  rw [(setVal_node t j i v).1, (setVal_node t j i v).2.2, if_neg hij]

/-- The loop of the model and the one on the nodes end in the same way. -/
def Agree (mp : MainPosition Value) (model : Except LuaError (Build.Io × Bool))
    (nodes : Except Failure (HashPart Value Value × Bool)) : Prop :=
  match model with
  | .error e => nodes = .error (.raised e)
  | .ok (io, differ) =>
      ∃ t, nodes = .ok (t, differ) ∧ Valid mp t ∧ ∀ k, index mp t k = io.lookup k

/-- The two loops, with the same fields to come. -/
theorem updateNodes_spec (onlynew stop : Bool) {fuel : Nat} {key : Option Value} {p : Nat}
    (hdepth : 0 < depth) (h : Valid mp t) (hindex : findindex mp t key = .ok p)
    (hfuel : (t.from_ p).length < fuel) {io : Build.Io}
    (hio : ∀ k, index mp t k = io.lookup k) (differ : Bool) :
    Agree mp
      (Build.updateLoop hashFile onlynew stop ((t.from_ p).map fun e => ⟨e.1, e.2⟩) io differ)
      (updateNodes mp depth hashFile onlynew stop fuel key t differ) := by
  induction fuel generalizing key t p io differ with
  | zero => omega
  | succ fuel ih =>
      rw [updateNodes, luaHNext_eq hindex]
      rcases from_cases t p with ⟨hnil, -⟩ | ⟨j, ⟨fn, ohash⟩, hpj, hj, hval, hnone, hcons⟩
      · rw [hnil]
        exact ⟨t, rfl, h, hio⟩
      · rw [hcons] at hfuel ⊢
        have hrest : (t.from_ (j + 1)).length < fuel := Nat.lt_of_succ_lt_succ hfuel
        have hnode := ((element_eq_some h).mp hval).1
        have hskipped := ih h (findindex_kept h (Kept.refl h) hval) hrest hio differ
        have hset : ∀ nhash, assign mp depth t fn (some (.str nhash)) =
            .ok (t.setVal j (some (.str nhash))) := fun nhash => assign_existing h hnode hdepth _
        have hfield : index mp t fn ≠ none := by
          rw [(index_eq_some_iff_element h).mpr ⟨j, hval⟩]
          simp
        have hio' : ∀ (nhash : LuaString) k, index mp (t.setVal j (some (.str nhash))) k =
            (io.insert fn (.str nhash)).lookup k := by
          intro nhash k
          rw [index_setVal h hnode, hio]
          by_cases hk : k = fn
          · subst hk; simp
          · simp [hk, AList.lookup_insert_ne hk]
        have hassigned : ∀ (nhash : LuaString) differ, Agree mp
            (Build.updateLoop hashFile onlynew stop
              ((t.from_ (j + 1)).map fun e => ⟨e.1, e.2⟩) (io.insert fn (.str nhash)) differ)
            (updateNodes mp depth hashFile onlynew stop fuel (some fn)
              (t.setVal j (some (.str nhash))) differ) := by
          intro nhash differ
          have hsame := from_setVal t (j := j) (some (Value.str nhash))
          rw [← hsame]
          exact ih (h.setVal hnode _) (findindex_kept h (kept_assign h hfield (hset nhash)) hval)
            (by rw [hsame]; exact hrest) (hio' nhash) differ
        rw [List.map_cons, Build.updateLoop]
        change Agree mp _ (if _ then _ else _)
        by_cases hcond : (!onlynew || !ohash.isString) = true
        · rw [if_pos hcond, if_pos hcond]
          cases hhash : hashFile fn with
          | error e => rfl
          | ok nhash =>
              dsimp only
              rw [hset nhash]
              change Agree mp _ (if _ then _ else _)
              by_cases hdiffer : ohash ≠ .str nhash
              · rw [if_pos hdiffer, if_pos hdiffer]
                cases stop with
                | true => exact ⟨_, rfl, h.setVal hnode _, hio' nhash⟩
                | false => exact hassigned nhash true
              · rw [if_neg hdiffer, if_neg hdiffer]
                exact hassigned nhash differ
        · rw [if_neg hcond, if_neg hcond]
          exact hskipped

theorem lookup_toTable (h : Valid mp t) (k : Value) : index mp t k = (toTable t h).lookup k := by
  refine Option.ext fun v => ?_
  rw [index_eq_some_iff_element h, ← Option.mem_def, AList.mem_lookup_iff]
  change _ ↔ (⟨k, v⟩ : Sigma fun _ : Value => Value) ∈ (t.from_ 0).map _
  rw [List.mem_map]
  constructor
  · rintro ⟨i, hi⟩
    have hkey := ((element_eq_some h).mp hi).1
    have hlt := (h.used i (by rw [hkey]; simp)).1
    refine ⟨(k, v), List.mem_filterMap.mpr ⟨i, ?_, hi⟩, rfl⟩
    exact List.mem_range'_1.mpr ⟨Nat.zero_le _, by omega⟩
  · rintro ⟨⟨k', v'⟩, hmem, heq⟩
    cases heq
    obtain ⟨i, -, hi⟩ := List.mem_filterMap.mp hmem
    exact ⟨i, hi⟩

/-- **`update_deps_io` on the nodes.** Walking a table while its fields are assigned is walking the
    list of the fields it had at the start: the nodes end with the hashes that the model ends
    with, the result is the same, and so is the error. -/
theorem updateDepsIo_nodes {collectable : Value → Bool} {nhash : Nat}
    (hnew : luaHNew nhash = .ok t₀) (hdepth : 2 ≤ depth) {ops : List (Op Value Value)}
    (hrun : run mp collectable depth ops t₀ = .ok t) (onlynew stop : Bool) {fuel : Nat}
    (hfuel : t.fields.length < fuel) :
    Agree mp
      (Build.updateDepsIo hashFile (toTable t (valid_of_run hnew hdepth hrun)) onlynew stop)
      (updateNodes mp depth hashFile onlynew stop fuel none t false) := by
  have h := valid_of_run hnew hdepth hrun
  have hfuel' : (t.from_ 0).length < fuel := by
    have hlen : (t.from_ 0).length = t.fields.length := by
      unfold HashPart.fields HashPart.from_
      rw [List.length_map, Nat.sub_zero, List.range_eq_range']
    rw [hlen]
    exact hfuel
  exact updateNodes_spec onlynew stop (by omega) h rfl hfuel' (lookup_toTable h) false

/-- A table with a hash and a field that is new. -/
def depsOps : List (Op Value Value) :=
  [.assign (.str ['a']) (some (.str ['1'])), .assign (.str ['b', 'b']) (some (.bool true))]

def depsNodes : HashPart Value Value :=
  ((run (mainposition List.length) (fun _ => true) 2 depsOps
    ⟨0, fun _ => .free, true, 0⟩).toOption).getD ⟨0, fun _ => .free, true, 0⟩

theorem run_depsNodes : run (mainposition List.length) (fun _ => true) 2 depsOps
    ⟨0, fun _ => .free, true, 0⟩ = .ok depsNodes := by
  obtain ⟨t, ht⟩ := Trace.ok_of_isSome (x := run (mainposition List.length) (fun _ => true) 2
    depsOps ⟨0, fun _ => .free, true, 0⟩) (by decide)
  rw [depsNodes, ht]
  rfl

/-- The new field gets its hash. -/
theorem updateDepsIo_nodes_two :
    ∃ h : Valid (mainposition List.length) depsNodes, Agree (mainposition List.length)
      (Build.updateDepsIo (fun _ => .ok ['2']) (toTable depsNodes h) true false)
      (updateNodes (mainposition List.length) 2 (fun _ => .ok ['2']) true false 3 none
        depsNodes false) :=
  ⟨_, updateDepsIo_nodes (show luaHNew 0 = .ok _ from rfl) (le_refl 2) run_depsNodes true false
    (by decide)⟩

end UpdateDepsIo

end Buildsh.LuaTable
