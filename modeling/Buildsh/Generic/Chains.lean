/-
  Cells that are linked in chains.

  `next` leads from a cell to the one behind it, if there is one. In a forest of chains (`Linked`) no
  cell stands behind two others and every chain ends, so the cells behind a cell are a list without
  duplicates (`Leads`). Two changes keep this: a fresh cell is linked in behind another one
  (`insertAfter`), or takes the place of another one, which is then alone (`relocate`). Both keep
  what can be reached, except for the cell that is replaced.
-/
import Mathlib.Data.List.Nodup
import Mathlib.Data.List.Perm.Subperm
import Mathlib.Logic.Function.Basic

namespace Buildsh.Generic

section Chains

variable {ι : Type}

/-- `l` are the cells from `i` on. -/
inductive Leads (next : ι → Option ι) : Option ι → List ι → Prop where
  | nil : Leads next none []
  | cons {i : ι} {l : List ι} (h : Leads next (next i) l) : Leads next (some i) (i :: l)

/-- `j` is the cell `i`, or stands behind it, and no cell in between satisfies `p`. -/
def First (next : ι → Option ι) (p : ι → Prop) (i j : ι) : Prop :=
  ∃ a b, Leads next (some i) (a ++ j :: b) ∧ ∀ x ∈ a, ¬ p x

structure Linked (next : ι → Option ι) : Prop where
  inj : ∀ i i' j, next i = some j → next i' = some j → i = i'
  ends : ∀ i, ∃ l, Leads next (some i) l

/-- No cell is in front of `n` or behind it. -/
def Alone (next : ι → Option ι) (n : ι) : Prop := next n = none ∧ ∀ i, next i ≠ some n

variable {next next' : ι → Option ι}

theorem First.mono {p p' : ι → Prop} {i j : ι} (h : First next p i j) (hp : ∀ x, p' x → p x) :
    First next p' i j := by
  obtain ⟨a, b, hl, hnot⟩ := h
  exact ⟨a, b, hl, fun x hx hpx => hnot x hx (hp x hpx)⟩

theorem Leads.unique {i : Option ι} {l l' : List ι} (h : Leads next i l) (h' : Leads next i l') :
    l = l' := by
  induction h generalizing l' with
  | nil => cases h'; rfl
  | cons _ ih =>
      cases h' with
      | cons h' => rw [ih h']

/-- What a cell of the chain leads to is the rest of the chain. -/
theorem Leads.of_append {i : Option ι} {a b : List ι} {j : ι} (h : Leads next i (a ++ j :: b)) :
    Leads next (some j) (j :: b) := by
  induction a generalizing i with
  | nil =>
      cases h with
      | cons h => exact .cons h
  | cons x a ih =>
      cases h with
      | cons h => exact ih h

theorem Leads.nodup {i : Option ι} {l : List ι} (h : Leads next i l) : l.Nodup := by
  induction h with
  | nil => exact List.nodup_nil
  | @cons i l h ih =>
      refine List.nodup_cons.mpr ⟨fun hmem => ?_, ih⟩
      obtain ⟨a, b, rfl⟩ := List.append_of_mem hmem
      -- the same cell would lead to a list and to its own tail
      have heq := (Leads.cons h).unique h.of_append
      have hlen := congrArg List.length heq
      simp only [List.length_cons, List.length_append] at hlen
      omega

theorem Leads.congr {i : Option ι} {l : List ι} (h : Leads next i l)
    (hnext : ∀ j ∈ l, next' j = next j) : Leads next' i l := by
  induction h with
  | nil => exact .nil
  | @cons i l h ih =>
      refine .cons ?_
      rw [hnext i List.mem_cons_self]
      exact ih fun j hj => hnext j (List.mem_cons_of_mem _ hj)

theorem Leads.length_le {i : Option ι} {l : List ι} {range : List ι} (h : Leads next i l)
    (hl : ∀ j ∈ l, j ∈ range) : l.length ≤ range.length :=
  (List.subperm_of_subset h.nodup hl).length_le

/-- Every cell of the chain but the first is behind another one. -/
theorem Leads.mem_cases {i : ι} {l : List ι} (h : Leads next (some i) l) {j : ι} (hj : j ∈ l) :
    j = i ∨ ∃ o ∈ l, next o = some j := by
  obtain ⟨a, b, rfl⟩ := List.append_of_mem hj
  rcases List.eq_nil_or_concat a with rfl | ⟨a, o, rfl⟩
  · cases h
    exact Or.inl rfl
  · refine Or.inr ⟨o, by simp, ?_⟩
    rw [List.concat_eq_append, List.append_assoc] at h
    cases h.of_append with
    | cons h =>
        generalize next o = x at h
        cases h
        rfl

theorem Leads.not_mem {i : Option ι} {l : List ι} {n : ι} (h : Leads next i l)
    (hn : ∀ j, next j ≠ some n) (hi : i ≠ some n) : n ∉ l := by
  induction h with
  | nil => exact List.not_mem_nil
  | @cons i l h ih =>
      rw [List.mem_cons, not_or]
      exact ⟨fun heq => hi (congrArg some heq.symm), ih (hn i)⟩

namespace Linked

theorem refl (h : Linked next) (p : ι → Prop) (i : ι) : First next p i i := by
  obtain ⟨l, hl⟩ := h.ends i
  cases hl with
  | cons hl => exact ⟨[], _, .cons hl, by simp⟩

/-- The cell behind `i`. -/
theorem first_of_next (h : Linked next) {p : ι → Prop} {i j : ι} (hij : next i = some j)
    (hp : ¬ p i) : First next p i j := by
  obtain ⟨l, hl⟩ := h.ends j
  cases hl with
  | @cons _ l hl =>
      refine ⟨[i], l, .cons ?_, by simpa using hp⟩
      rw [hij]
      exact .cons hl

theorem not_self (h : Linked next) (i : ι) : next i ≠ some i := by
  intro hi
  obtain ⟨l, hl⟩ := h.ends i
  cases hl with
  | cons hl =>
      rw [hi] at hl
      have hlen := congrArg List.length (hl.unique (.cons (hi ▸ hl)))
      simp at hlen

end Linked

/-! ## The two changes -/

section Changes

variable [DecidableEq ι]

/-- `n` is linked in behind `m`. -/
def insertAfter (next : ι → Option ι) (m n : ι) : ι → Option ι :=
  Function.update (Function.update next n (next m)) m (some n)

/-- `n` takes the place of `m`, which stood behind `o`. -/
def relocate (next : ι → Option ι) (o m n : ι) : ι → Option ι :=
  Function.update (Function.update (Function.update next o (some n)) n (next m)) m none

variable {m n o : ι}

theorem Leads.insertAfter {i : Option ι} {l : List ι} (h : Leads next i l) (hn : Alone next n)
    (hi : i ≠ some n) :
    Leads (insertAfter next m n) i (l.flatMap fun x => if x = m then [m, n] else [x]) := by
  induction h with
  | nil => exact .nil
  | @cons i l h ih =>
      have hrest := ih (hn.2 i)
      have hin : i ≠ n := fun heq => hi (congrArg some heq)
      by_cases him : i = m
      · subst him
        simp only [List.flatMap_cons, if_true]
        refine .cons ?_
        rw [Generic.insertAfter, Function.update_self]
        refine .cons ?_
        rw [Function.update_of_ne (Ne.symm hin), Function.update_self]
        exact hrest
      · rw [List.flatMap_cons, if_neg him]
        refine .cons ?_
        have hsame : Generic.insertAfter next m n i = next i := by
          rw [Generic.insertAfter, Function.update_of_ne him, Function.update_of_ne hin]
        rw [hsame]
        exact hrest

theorem insertAfter_self : insertAfter next m n m = some n := Function.update_self ..

theorem insertAfter_fresh (hmn : m ≠ n) : insertAfter next m n n = next m := by
  rw [insertAfter, Function.update_of_ne hmn.symm, Function.update_self]

theorem insertAfter_of_ne {i : ι} (hm : i ≠ m) (hn : i ≠ n) : insertAfter next m n i = next i := by
  rw [insertAfter, Function.update_of_ne hm, Function.update_of_ne hn]

theorem First.insertAfter {p p' : ι → Prop} {i j : ι} (h : First next p i j) (hn : Alone next n)
    (hi : i ≠ n) (hp : ∀ x, p' x → p x) (hpn : ¬ p' n) :
    First (insertAfter next m n) p' i j := by
  obtain ⟨a, b, hl, hnot⟩ := h
  have hl' := hl.insertAfter (m := m) hn fun heq => hi (Option.some.inj heq)
  rw [List.flatMap_append, List.flatMap_cons] at hl'
  have hsplit : ∃ c, ((if j = m then [m, n] else [j]) ++
      b.flatMap fun x => if x = m then [m, n] else [x]) = j :: c := by
    split_ifs with hjm
    · rw [hjm]
      exact ⟨_, rfl⟩
    · exact ⟨_, rfl⟩
  obtain ⟨c, hc⟩ := hsplit
  rw [hc] at hl'
  refine ⟨_, c, hl', fun x hx hpx => ?_⟩
  obtain ⟨y, hy, hxy⟩ := List.mem_flatMap.mp hx
  split_ifs at hxy with hym
  · rcases List.mem_cons.mp hxy with rfl | hxn
    · exact hnot y hy (hym ▸ hp x hpx)
    · exact hpn (List.mem_singleton.mp hxn ▸ hpx)
  · rw [List.mem_singleton] at hxy
    exact hnot y hy (hxy ▸ hp x hpx)

/-- In `next'`, only `c` is in front of `n`, `n` took over from `m`, and the rest is as before. -/
theorem Linked.inj_of_back {c : ι} (h : Linked next) (hn : Alone next n)
    (hback : ∀ i j, next' i = some j →
      (j = n ∧ i = c) ∨ (i ≠ m ∧ next (if i = n then m else i) = some j)) (i i' j : ι)
    (hi : next' i = some j) (hi' : next' i' = some j) : i = i' := by
  rcases hback i j hi with ⟨hj, hc⟩ | ⟨him, hi⟩
  · rcases hback i' j hi' with ⟨-, hc'⟩ | ⟨-, hi'⟩
    · rw [hc, hc']
    · exact absurd (hj ▸ hi') (hn.2 _)
  · rcases hback i' j hi' with ⟨hj, -⟩ | ⟨him', hi'⟩
    · exact absurd (hj ▸ hi) (hn.2 _)
    · have heq := h.inj _ _ _ hi hi'
      split_ifs at heq with h₁ h₂ h₂
      · rw [h₁, h₂]
      · exact absurd heq.symm him'
      · exact absurd heq him
      · exact heq

theorem Alone.insertAfter {i : ι} (h : Alone next i) (him : i ≠ m) (hin : i ≠ n) :
    Alone (insertAfter next m n) i := by
  refine ⟨by rw [insertAfter_of_ne him hin]; exact h.1, fun j hj => ?_⟩
  simp only [Generic.insertAfter, Function.update_apply] at hj
  split_ifs at hj
  · exact hin (Option.some.inj hj).symm
  · exact h.2 m hj
  · exact h.2 j hj

theorem Linked.insertAfter (h : Linked next) (hn : Alone next n) (hmn : m ≠ n) :
    Linked (insertAfter next m n) := by
  -- nothing but `m` is in front of `n`, and `n` is in front of what `m` was in front of
  have hback : ∀ i j, Generic.insertAfter next m n i = some j →
      (j = n ∧ i = m) ∨ (i ≠ m ∧ next (if i = n then m else i) = some j) := by
    intro i j hi
    by_cases him : i = m
    · subst him
      rw [insertAfter_self] at hi
      exact Or.inl ⟨(Option.some.inj hi).symm, rfl⟩
    · by_cases hin : i = n
      · subst hin
        rw [insertAfter_fresh hmn] at hi
        exact Or.inr ⟨him, by rw [if_pos rfl]; exact hi⟩
      · rw [insertAfter_of_ne him hin] at hi
        exact Or.inr ⟨him, by rw [if_neg hin]; exact hi⟩
  refine ⟨h.inj_of_back hn hback, fun i => ?_⟩
  by_cases hin : i = n
  · subst hin
    obtain ⟨l, hl⟩ := h.ends m
    cases hl with
    | cons hl =>
        have hrest := hl.insertAfter (m := m) hn (hn.2 m)
        rw [← (insertAfter_fresh hmn : Generic.insertAfter next m i i = next m)] at hrest
        exact ⟨_, .cons hrest⟩
  · obtain ⟨l, hl⟩ := h.ends i
    exact ⟨_, hl.insertAfter hn fun heq => hin (Option.some.inj heq)⟩

theorem relocate_of_front (hom : o ≠ m) (hon : o ≠ n) : relocate next o m n o = some n := by
  rw [relocate, Function.update_of_ne hom, Function.update_of_ne hon, Function.update_self]

theorem relocate_fresh (hmn : m ≠ n) : relocate next o m n n = next m := by
  rw [relocate, Function.update_of_ne hmn.symm, Function.update_self]

theorem relocate_self : relocate next o m n m = none := Function.update_self ..

theorem relocate_of_ne {i : ι} (ho : i ≠ o) (hm : i ≠ m) (hn : i ≠ n) :
    relocate next o m n i = next i := by
  rw [relocate, Function.update_of_ne hm, Function.update_of_ne hn, Function.update_of_ne ho]

theorem Alone.relocate {i : ι} (h : Alone next i) (hom : next o = some m) (him : i ≠ m)
    (hin : i ≠ n) : Alone (relocate next o m n) i := by
  have hio : i ≠ o := fun heq => by rw [← heq, h.1] at hom; cases hom
  refine ⟨by rw [relocate_of_ne hio him hin]; exact h.1, fun j hj => ?_⟩
  simp only [Generic.relocate, Function.update_apply] at hj
  split_ifs at hj
  · exact h.2 m hj
  · exact hin (Option.some.inj hj).symm
  · exact h.2 j hj

/-- Behind `o` comes `n` instead of `m`. -/
theorem Leads.relocate {i : Option ι} {l : List ι} (h : Leads next i l) (hl : Linked next)
    (hom : next o = some m) (hn : Alone next n) (hmn : m ≠ n) (hi : i ≠ some n)
    (him : i ≠ some m) :
    Leads (relocate next o m n) i (l.map fun x => if x = m then n else x) := by
  have hne : o ≠ m := fun heq => hl.not_self m (heq ▸ hom)
  have hon : o ≠ n := fun heq => by rw [heq, hn.1] at hom; cases hom
  induction h with
  | nil => exact .nil
  | @cons i l h ih =>
      have hin : i ≠ n := fun heq => hi (congrArg some heq)
      have him' : i ≠ m := fun heq => him (congrArg some heq)
      rw [List.map_cons, if_neg him']
      refine .cons ?_
      by_cases hio : i = o
      · subst hio
        rw [hom] at h
        have hnodup := (Leads.cons (hom ▸ h)).nodup
        cases h with
        | @cons _ l h =>
            rw [List.nodup_cons, List.mem_cons, not_or, List.nodup_cons] at hnodup
            have hnl : n ∉ l := h.not_mem hn.2 (hn.2 m)
            have hsame : (l.map fun x => if x = m then n else x) = l := by
              refine (List.map_congr_left fun x hx => ?_).trans (List.map_id l)
              have hxm : x ≠ m := fun heq => hnodup.2.1 (heq ▸ hx)
              exact if_neg hxm
            rw [List.map_cons, if_pos rfl, hsame, relocate_of_front hne hon]
            refine .cons ?_
            rw [relocate_fresh hmn]
            exact h.congr fun j hj => relocate_of_ne (fun heq => hnodup.1.2 (heq ▸ hj))
              (fun heq => hnodup.2.1 (heq ▸ hj)) fun heq => hnl (heq ▸ hj)
      · have hnext : next i ≠ some m := fun heq => hio (hl.inj _ _ _ heq hom)
        rw [relocate_of_ne hio him' hin]
        exact ih (hn.2 i) hnext

theorem Linked.relocate (h : Linked next) (hom : next o = some m) (hn : Alone next n)
    (hmn : m ≠ n) : Linked (relocate next o m n) := by
  have hne : o ≠ m := fun heq => h.not_self m (heq ▸ hom)
  have hon : o ≠ n := fun heq => by rw [heq, hn.1] at hom; cases hom
  have hback : ∀ i j, Generic.relocate next o m n i = some j →
      (j = n ∧ i = o) ∨ (i ≠ m ∧ next (if i = n then m else i) = some j) := by
    intro i j hi
    by_cases him : i = m
    · rw [him, relocate_self] at hi
      cases hi
    · by_cases hin : i = n
      · subst hin
        rw [relocate_fresh hmn] at hi
        exact Or.inr ⟨him, by rw [if_pos rfl]; exact hi⟩
      · by_cases hio : i = o
        · subst hio
          rw [relocate_of_front hne hon] at hi
          exact Or.inl ⟨(Option.some.inj hi).symm, rfl⟩
        · rw [relocate_of_ne hio him hin] at hi
          exact Or.inr ⟨him, by rw [if_neg hin]; exact hi⟩
  refine ⟨h.inj_of_back hn hback, fun i => ?_⟩
  by_cases him : i = m
  · subst him
    exact ⟨[i], .cons (by rw [relocate_self]; exact .nil)⟩
  · by_cases hin : i = n
    · subst hin
      obtain ⟨l, hl⟩ := h.ends m
      cases hl with
      | cons hl =>
          have hrest := hl.relocate h hom hn hmn (hn.2 m) (h.not_self m)
          exact ⟨_, .cons (by rw [relocate_fresh hmn]; exact hrest)⟩
    · obtain ⟨l, hl⟩ := h.ends i
      exact ⟨_, hl.relocate h hom hn hmn (fun heq => hin (Option.some.inj heq))
        fun heq => him (Option.some.inj heq)⟩

theorem First.relocate {p p' : ι → Prop} {i j : ι} (hf : First next p i j) (h : Linked next)
    (hom : next o = some m) (hn : Alone next n) (hmn : m ≠ n) (hin : i ≠ n) (him : i ≠ m)
    (hp : ∀ x, x ≠ m → x ≠ n → p' x → p x) (hpn : p' n → p m) :
    First (relocate next o m n) p' i (if j = m then n else j) := by
  obtain ⟨a, b, hl, hnot⟩ := hf
  have hl' := hl.relocate h hom hn hmn (fun heq => hin (Option.some.inj heq))
    fun heq => him (Option.some.inj heq)
  have hnl : n ∉ a ++ j :: b := hl.not_mem hn.2 fun heq => hin (Option.some.inj heq)
  rw [List.map_append, List.map_cons] at hl'
  refine ⟨_, _, hl', fun x hx hpx => ?_⟩
  obtain ⟨y, hy, rfl⟩ := List.mem_map.mp hx
  split_ifs at hpx with hym
  · exact hnot y hy (hym ▸ hpn hpx)
  · refine hnot y hy (hp y hym (fun heq => hnl ?_) hpx)
    rw [← heq]
    exact List.mem_append_left _ hy

end Changes

/-! ## Walks -/

/-- The first cell from `i` on that satisfies `p`, among the first `fuel` ones. -/
def walk (next : ι → Option ι) (p : ι → Bool) : Nat → ι → Option ι
  | 0, _ => none
  | fuel + 1, i => if p i then some i else (next i).bind (walk next p fuel)

theorem walk_eq {p : ι → Bool} {fuel : Nat} {i : ι} {l : List ι} (h : Leads next (some i) l)
    (hfuel : l.length ≤ fuel) : walk next p fuel i = l.find? p := by
  induction fuel generalizing i l with
  | zero =>
      cases h
      simp at hfuel
  | succ fuel ih =>
      cases h with
      | @cons _ l h =>
          rw [walk, List.find?_cons]
          cases hp : p i with
          | true => rfl
          | false =>
              simp only [Bool.false_eq_true, if_false]
              generalize next i = x at h
              cases h with
              | nil => rfl
              | cons h => exact ih (.cons h) (Nat.le_of_succ_le_succ hfuel)

/-- The walk stops at the first cell that satisfies the predicate. -/
theorem walk_eq_some {p : ι → Bool} {fuel : Nat} {i : ι} {a b : List ι} {j : ι}
    (h : Leads next (some i) (a ++ j :: b)) (hfuel : (a ++ j :: b).length ≤ fuel)
    (ha : ∀ x ∈ a, p x = false) (hj : p j = true) : walk next p fuel i = some j := by
  rw [walk_eq h hfuel, List.find?_append, List.find?_cons_of_pos hj,
    List.find?_eq_none.mpr fun x hx => by simp [ha x hx], Option.none_or]

end Chains

end Buildsh.Generic
