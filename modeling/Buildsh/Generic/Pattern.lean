/-
  Patterns with captures, matched with backtracking.

  A pattern is a list of items: classes of characters with a repetition, the two ends of a
  capture, and the end of the subject. `matchItems` matches a pattern at the start of a subject; a
  repeated class takes as many characters as it can and gives them back one by one until the
  rest of the pattern matches, or (`least`) as few as it can. `finds` looks for a match anywhere,
  and `gsub` replaces the matches in a subject from left to right.

  `matchItems_star`, `matchItems_capture_plus` and their like follow a match forward: what a
  repetition takes first is what it keeps if the rest then matches (`matchItems_star_last`,
  `matchItems_least_first` where it has to give something back, or to take more).
  `matchItems_passes` says which characters a part of a pattern can consume, so that a subject
  with another character is not matched to its end (`accepts_of_match`). `match_behind` is about
  one more character behind the subject, and `isSome_matchItems` says when there is a match at
  all, whatever the repetitions try first.
-/
import Mathlib.Data.List.Infix

namespace Buildsh.Generic.Pattern

inductive Times where
  | one
  | opt
  | star
  | plus
  /-- as few as possible -/
  | least
  deriving DecidableEq

inductive Item (α : Type) where
  | chars (cls : α → Bool) (times : Times)
  | begin_
  | end_
  /-- the end of the subject -/
  | stop

variable {α : Type}

/-- The captures: those that have ended, first ones first, and for those that have begun the
    subject from their beginning, last ones first. -/
structure Captures (α : Type) where
  ended : List (List α)
  begun : List (List α)

def Captures.none : Captures α := ⟨[], []⟩

/-- The capture that ends in front of `rest`. -/
def Captures.end_ (c : Captures α) (rest : List α) : Option (Captures α) :=
  match c.begun with
  | [] => Option.none
  | s :: begun => some ⟨c.ended ++ [s.take (s.length - rest.length)], begun⟩

/-- As many characters of the class as possible, and `k` on what follows them. -/
def maxExpand {β : Type} (cls : α → Bool) (k : List α → Option β) : List α → Option β
  | [] => k []
  | x :: s =>
      if cls x then
        match maxExpand cls k s with
        | some r => some r
        | none => k (x :: s)
      else k (x :: s)

/-- As few characters of the class as possible, and `k` on what follows them. -/
def minExpand {β : Type} (cls : α → Bool) (k : List α → Option β) : List α → Option β
  | [] => k []
  | x :: s =>
      match k (x :: s) with
      | some r => some r
      | none => if cls x then minExpand cls k s else none

def matchItems : List (Item α) → Captures α → List α → Option (Captures α × List α)
  | [], c, s => some (c, s)
  | .begin_ :: p, c, s => matchItems p ⟨c.ended, s :: c.begun⟩ s
  | .end_ :: p, c, s =>
      match c.end_ s with
      | none => none
      | some c => matchItems p c s
  | .stop :: p, c, s =>
      match s with
      | [] => matchItems p c []
      | _ :: _ => none
  | .chars cls .one :: p, c, s =>
      match s with
      | [] => none
      | x :: s => if cls x then matchItems p c s else none
  | .chars cls .opt :: p, c, s =>
      match s with
      | [] => matchItems p c []
      | x :: s =>
          if cls x then
            match matchItems p c s with
            | some r => some r
            | none => matchItems p c (x :: s)
          else matchItems p c (x :: s)
  | .chars cls .star :: p, c, s => maxExpand cls (matchItems p c) s
  | .chars cls .plus :: p, c, s =>
      match s with
      | [] => none
      | x :: s => if cls x then maxExpand cls (matchItems p c) s else none
  | .chars cls .least :: p, c, s => minExpand cls (matchItems p c) s

/-- The captures of a match at the start of the subject. -/
def match_ (p : List (Item α)) (s : List α) : Option (List (List α)) :=
  (matchItems p .none s).map fun r => r.1.ended

/-- Whether the pattern matches somewhere in the subject. -/
def finds (p : List (Item α)) (s : List α) : Bool := s.tails.any fun u => (match_ p u).isSome

/-- The loop of `gsub`; `n` bounds the steps. -/
def gsubLoop (p : List (Item α)) (repl : List (List α) → List α) : Nat → List α → List α
  | 0, s => s
  | n + 1, s =>
      match matchItems p .none s with
      | some (c, rest) =>
          if rest.length < s.length then repl c.ended ++ gsubLoop p repl n rest
          else
            match s with
            | [] => repl c.ended
            | x :: s => repl c.ended ++ x :: gsubLoop p repl n s
      | none =>
          match s with
          | [] => []
          | x :: s => x :: gsubLoop p repl n s

/-- Every match replaced by what `repl` makes of its captures. -/
def gsub (p : List (Item α)) (repl : List (List α) → List α) (s : List α) : List α :=
  gsubLoop p repl (s.length + 1) s

/-! ## Matching forward -/

section Forward

variable {β : Type} {cls : α → Bool} {p : List (Item α)} {c : Captures α}
  {r : Captures α × List α}

-- The equations of `matchItems` take long to derive, and every proof below wants them: this derives
-- them once, before the proofs are run in parallel.
attribute [local simp] matchItems

/-- The next character, if any, is not of the class. -/
def Stops (cls : α → Bool) (s : List α) : Prop := ∀ x ∈ s.head?, cls x = false

theorem stops_nil : Stops cls ([] : List α) := fun x hx => by cases hx

theorem stops_cons {x : α} {s : List α} (h : cls x = false) : Stops cls (x :: s) := by
  intro y hy
  rw [List.head?_cons, Option.mem_some_iff] at hy
  rw [← hy]
  exact h

/-- What is taken first is kept, if the rest matches. -/
theorem maxExpand_append {k : List α → Option β} {u v : List α} {r : β}
    (hu : ∀ x ∈ u, cls x = true) (hv : Stops cls v) (hk : k v = some r) :
    maxExpand cls k (u ++ v) = some r := by
  induction u with
  | nil =>
      cases v with
      | nil => exact hk
      | cons x v =>
          have hx : cls x = false := hv x rfl
          rw [List.nil_append, maxExpand, hx]
          exact hk
  | cons x u ih =>
      rw [List.cons_append, maxExpand, hu x List.mem_cons_self,
        ih fun y hy => hu y (List.mem_cons_of_mem _ hy)]
      rfl

theorem matchItems_one {x : α} {s : List α} (hx : cls x = true) :
    matchItems (.chars cls .one :: p) c (x :: s) = matchItems p c s := by
  simp only [matchItems, hx, if_true]

theorem matchItems_star {u v : List α} (hu : ∀ x ∈ u, cls x = true) (hv : Stops cls v)
    (h : matchItems p c v = some r) :
    matchItems (.chars cls .star :: p) c (u ++ v) = some r := by
  rw [matchItems]
  exact maxExpand_append hu hv h

theorem matchItems_plus {u v : List α} (hne : u ≠ []) (hu : ∀ x ∈ u, cls x = true)
    (hv : Stops cls v) (h : matchItems p c v = some r) :
    matchItems (.chars cls .plus :: p) c (u ++ v) = some r := by
  cases u with
  | nil => exact absurd rfl hne
  | cons x u =>
      rw [List.cons_append, matchItems]
      simp only [hu x List.mem_cons_self, if_true]
      exact maxExpand_append (fun y hy => hu y (List.mem_cons_of_mem _ hy)) hv h

theorem matchItems_end {ended begun : List (List α)} {u v : List α}
    (h : matchItems p ⟨ended ++ [u], begun⟩ v = some r) :
    matchItems (.end_ :: p) ⟨ended, (u ++ v) :: begun⟩ v = some r := by
  have htake : (u ++ v).take ((u ++ v).length - v.length) = u := by
    rw [List.length_append, Nat.add_sub_cancel, List.take_left]
  simp only [matchItems, Captures.end_, htake]
  exact h

/-- A captured repetition. -/
theorem matchItems_capture_plus {ended begun : List (List α)} {u v : List α} (hne : u ≠ [])
    (hu : ∀ x ∈ u, cls x = true) (hv : Stops cls v)
    (h : matchItems p ⟨ended ++ [u], begun⟩ v = some r) :
    matchItems (.begin_ :: .chars cls .plus :: .end_ :: p) ⟨ended, begun⟩ (u ++ v) = some r := by
  rw [matchItems]
  exact matchItems_plus hne hu hv (matchItems_end h)

theorem matchItems_capture_star {ended begun : List (List α)} {u v : List α}
    (hu : ∀ x ∈ u, cls x = true) (hv : Stops cls v)
    (h : matchItems p ⟨ended ++ [u], begun⟩ v = some r) :
    matchItems (.begin_ :: .chars cls .star :: .end_ :: p) ⟨ended, begun⟩ (u ++ v) = some r := by
  rw [matchItems]
  exact matchItems_star hu hv (matchItems_end h)

end Forward

/-! ## What a match consumes -/

section Consumes

variable {β : Type}

/-- Some class of the pattern has `x`. -/
def Accepts (p : List (Item α)) (x : α) : Prop :=
  ∃ cls times, Item.chars cls times ∈ p ∧ cls x = true

theorem Accepts.cons {p : List (Item α)} {x : α} (h : Accepts p x) (i : Item α) :
    Accepts (i :: p) x := by
  obtain ⟨cls, times, hmem, hx⟩ := h
  exact ⟨cls, times, List.mem_cons_of_mem _ hmem, hx⟩

theorem accepts_head {cls : α → Bool} {times : Times} {p : List (Item α)} {x : α}
    (h : cls x = true) : Accepts (.chars cls times :: p) x := ⟨cls, times, List.mem_cons_self, h⟩

theorem accepts_append {p q : List (Item α)} {x : α} (h : Accepts (p ++ q) x) :
    Accepts p x ∨ Accepts q x := by
  obtain ⟨cls, times, hmem, hx⟩ := h
  rcases List.mem_append.mp hmem with hmem | hmem
  · exact Or.inl ⟨cls, times, hmem, hx⟩
  · exact Or.inr ⟨cls, times, hmem, hx⟩

theorem accepts_cons {cls : α → Bool} {times : Times} {p : List (Item α)} {x : α}
    (h : Accepts (.chars cls times :: p) x) : cls x = true ∨ Accepts p x := by
  obtain ⟨cls', times', hmem, hx⟩ := h
  rcases List.mem_cons.mp hmem with heq | hmem
  · injection heq with hcls
    exact Or.inl (hcls ▸ hx)
  · exact Or.inr ⟨cls', times', hmem, hx⟩

theorem maxExpand_some {cls : α → Bool} {k : List α → Option β} {s : List α} {r : β}
    (h : maxExpand cls k s = some r) :
    ∃ u v, s = u ++ v ∧ (∀ x ∈ u, cls x = true) ∧ k v = some r := by
  induction s with
  | nil => exact ⟨[], [], rfl, by simp, h⟩
  | cons x s ih =>
      rw [maxExpand] at h
      split at h
      · cases hs : maxExpand cls k s with
        | some r' =>
            rw [hs, Option.some.injEq] at h
            subst h
            obtain ⟨u, v, rfl, hu, hk⟩ := ih hs
            refine ⟨x :: u, v, rfl, fun y hy => ?_, hk⟩
            rcases List.mem_cons.mp hy with rfl | hy
            · assumption
            · exact hu y hy
        | none =>
            rw [hs] at h
            exact ⟨[], x :: s, rfl, by simp, h⟩
      · exact ⟨[], x :: s, rfl, by simp, h⟩

theorem minExpand_some {cls : α → Bool} {k : List α → Option β} {s : List α} {r : β}
    (h : minExpand cls k s = some r) :
    ∃ u v, s = u ++ v ∧ (∀ x ∈ u, cls x = true) ∧ k v = some r := by
  induction s with
  | nil => exact ⟨[], [], rfl, by simp, h⟩
  | cons x s ih =>
      rw [minExpand] at h
      split at h
      · rename_i hk
        rw [Option.some.injEq] at h
        exact ⟨[], x :: s, rfl, by simp, h ▸ hk⟩
      · split at h
        · obtain ⟨u, v, rfl, hu, hk⟩ := ih h
          exact ⟨x :: u, v, rfl, List.forall_mem_cons.mpr ⟨by assumption, hu⟩, hk⟩
        · cases h

/-- `p` consumes characters that it accepts, and what follows it matches the rest. -/
def Passes (p q : List (Item α)) (s : List α) (r : Captures α × List α) : Prop :=
  ∃ u c v, s = u ++ v ∧ (∀ x ∈ u, Accepts p x) ∧ matchItems q c v = some r

theorem Passes.cons {p q : List (Item α)} {s : List α} {r : Captures α × List α}
    (h : Passes p q s r) (i : Item α) : Passes (i :: p) q s r := by
  obtain ⟨u, c, v, rfl, hu, hv⟩ := h
  exact ⟨u, c, v, rfl, fun x hx => (hu x hx).cons i, hv⟩

theorem Passes.append {p q : List (Item α)} {s u : List α} {r : Captures α × List α}
    (h : Passes p q s r) (hu : ∀ x ∈ u, Accepts p x) : Passes p q (u ++ s) r := by
  obtain ⟨w, c, v, rfl, hw, hv⟩ := h
  refine ⟨u ++ w, c, v, by rw [List.append_assoc], fun x hx => ?_, hv⟩
  rcases List.mem_append.mp hx with hx | hx
  · exact hu x hx
  · exact hw x hx

/-- What an item of a class consumes. -/
theorem matchItems_chars_some {cls : α → Bool} {times : Times} {p : List (Item α)}
    {c : Captures α} {s : List α} {r : Captures α × List α}
    (h : matchItems (.chars cls times :: p) c s = some r) :
    ∃ u v, s = u ++ v ∧ (∀ x ∈ u, cls x = true) ∧ matchItems p c v = some r := by
  have hnone : ∀ {v : List α}, matchItems p c v = some r →
      ∃ u w, v = u ++ w ∧ (∀ x ∈ u, cls x = true) ∧ matchItems p c w = some r :=
    fun {v} h => ⟨[], v, rfl, by simp, h⟩
  have htake : ∀ {x : α} {v : List α}, cls x = true →
      (∃ u w, v = u ++ w ∧ (∀ x ∈ u, cls x = true) ∧ matchItems p c w = some r) →
      ∃ u w, x :: v = u ++ w ∧ (∀ x ∈ u, cls x = true) ∧ matchItems p c w = some r := by
    rintro x _ hx ⟨u, w, rfl, hu, hw⟩
    exact ⟨x :: u, w, rfl, List.forall_mem_cons.mpr ⟨hx, hu⟩, hw⟩
  cases times with
  | one =>
      cases s with
      | nil => cases h
      | cons x s =>
          simp only [matchItems] at h
          split at h
          · exact htake (by assumption) (hnone h)
          · cases h
  | opt =>
      cases s with
      | nil => exact hnone h
      | cons x s =>
          simp only [matchItems] at h
          split at h
          · split at h
            · rename_i hm
              rw [h] at hm
              exact htake (by assumption) (hnone hm)
            · exact hnone h
          · exact hnone h
  | star => exact maxExpand_some h
  | plus =>
      cases s with
      | nil => cases h
      | cons x s =>
          simp only [matchItems] at h
          split at h
          · exact htake (by assumption) (maxExpand_some h)
          · cases h
  | least => exact minExpand_some h

theorem matchItems_passes {p q : List (Item α)} {c : Captures α} {s : List α}
    {r : Captures α × List α} (h : matchItems (p ++ q) c s = some r) : Passes p q s r := by
  induction p generalizing c s with
  | nil => exact ⟨[], c, s, rfl, by simp, h⟩
  | cons i p ih =>
      rw [List.cons_append] at h
      cases i with
      | begin_ => exact (ih h).cons _
      | end_ =>
          simp only [matchItems] at h
          split at h
          · cases h
          · exact (ih h).cons _
      | stop =>
          cases s with
          | nil => exact (ih h).cons _
          | cons x s => cases h
      | chars cls times =>
          obtain ⟨u, v, rfl, hu, hv⟩ := matchItems_chars_some h
          exact ((ih hv).cons _).append fun x hx => accepts_head (hu x hx)

/-- The number of captures that a pattern ends. -/
def ends (p : List (Item α)) : Nat := p.countP fun | .end_ => true | _ => false

theorem length_ended {p : List (Item α)} {c : Captures α} {s : List α}
    {r : Captures α × List α} (h : matchItems p c s = some r) :
    r.1.ended.length = c.ended.length + ends p := by
  induction p generalizing c s with
  | nil =>
      rw [← Option.some.inj h]
      rfl
  | cons i p ih =>
      cases i with
      | begin_ => exact @ih ⟨c.ended, s :: c.begun⟩ s h
      | end_ =>
          obtain ⟨ended, begun⟩ := c
          cases begun with
          | nil => cases h
          | cons g begun =>
              have hrest := @ih ⟨ended ++ [g.take (g.length - s.length)], begun⟩ s h
              rw [List.length_append] at hrest
              rw [hrest, ends, ends, List.countP_cons_of_pos rfl]
              simp only [List.length_singleton]
              omega
      | stop =>
          cases s with
          | nil => exact @ih c [] h
          | cons x s => cases h
      | chars cls times =>
          obtain ⟨u, v, -, -, hv⟩ := matchItems_chars_some h
          exact ih hv

/-- A pattern that has to reach the end consumes the whole subject. -/
theorem accepts_of_match {p : List (Item α)} {s : List α} {l : List (List α)}
    (h : match_ (p ++ [.stop]) s = some l) : ∀ x ∈ s, Accepts p x := by
  obtain ⟨r, hr, -⟩ := Option.map_eq_some_iff.mp h
  obtain ⟨u, c, v, rfl, hu, hv⟩ := matchItems_passes hr
  cases v with
  | nil => rwa [List.append_nil]
  | cons y v => cases hv

end Consumes

/-! ## Giving back -/

section GiveBack

variable {β : Type} {cls : α → Bool} {k : List α → Option β} {p : List (Item α)}
  {c : Captures α} {u v : List α}

theorem maxExpand_eq_none (h : ∀ w, w <:+ v → k w = none) : maxExpand cls k v = none := by
  induction v with
  | nil => exact h [] List.suffix_rfl
  | cons x v ih =>
      rw [maxExpand, ih fun w hw => h w (hw.trans (List.suffix_cons x v)),
        h (x :: v) List.suffix_rfl]
      exact ite_self none

/-- What goes before is taken as well. -/
theorem maxExpand_append_of_some {r : β} (hu : ∀ x ∈ u, cls x = true)
    (h : maxExpand cls k v = some r) : maxExpand cls k (u ++ v) = some r := by
  induction u with
  | nil => exact h
  | cons x u ih =>
      rw [List.cons_append, maxExpand, hu x List.mem_cons_self,
        ih fun y hy => hu y (List.mem_cons_of_mem _ hy)]
      rfl

/-- A repetition takes all characters up to the last place where the rest of the pattern
    matches. -/
theorem matchItems_star_last {r : Captures α × List α}
    (hu : ∀ x ∈ u, cls x = true) (hlast : ∀ w, w <:+ v → w ≠ v → matchItems p c w = none)
    (h : matchItems p c v = some r) :
    matchItems (.chars cls .star :: p) c (u ++ v) = some r := by
  refine maxExpand_append_of_some hu ?_
  cases v with
  | nil => exact h
  | cons x v =>
      have hnone : maxExpand cls (matchItems p c) v = none := by
        refine maxExpand_eq_none fun w hw => ?_
        refine hlast w (hw.trans (List.suffix_cons x v)) fun he => ?_
        have hle := hw.length_le
        rw [he, List.length_cons] at hle
        omega
      rw [maxExpand, hnone, h]
      exact ite_self _

theorem matchItems_plus_last (hne : u ≠ []) {r : Captures α × List α}
    (hu : ∀ x ∈ u, cls x = true) (hlast : ∀ w, w <:+ v → w ≠ v → matchItems p c w = none)
    (h : matchItems p c v = some r) :
    matchItems (.chars cls .plus :: p) c (u ++ v) = some r := by
  obtain ⟨x, u, rfl⟩ := List.exists_cons_of_ne_nil hne
  rw [List.forall_mem_cons] at hu
  rw [List.cons_append, matchItems, if_pos hu.1]
  exact matchItems_star_last hu.2 hlast h

/-- `(.*)` takes everything up to the last place where the rest of the pattern matches. -/
theorem matchItems_anything {ended begun : List (List α)} {r : Captures α × List α}
    (hlast : ∀ w, w <:+ v → w ≠ v → ∀ c, matchItems p c w = none)
    (h : matchItems p ⟨ended ++ [u], begun⟩ v = some r) :
    matchItems (.begin_ :: .chars (fun _ => true) .star :: .end_ :: p) ⟨ended, begun⟩ (u ++ v) =
      some r := by
  rw [matchItems]
  refine matchItems_star_last (by simp) (fun w hw hne => ?_) (matchItems_end h)
  simp only [matchItems, Captures.end_]
  exact hlast w hw hne _

end GiveBack

/-! ## What a pattern needs -/

section Needs

variable {cls : α → Bool} {times : Times} {p q : List (Item α)} {c : Captures α} {s : List α}

theorem matchItems_chars_head {r : Captures α × List α} (ht : times = .one ∨ times = .plus)
    (h : matchItems (.chars cls times :: p) c s = some r) : ∃ x v, s = x :: v ∧ cls x = true := by
  cases s with
  | nil => rcases ht with rfl | rfl <;> cases h
  | cons x v =>
      refine ⟨x, v, rfl, ?_⟩
      by_contra hx
      rcases ht with rfl | rfl <;> simp [matchItems, hx] at h

/-- A character that the pattern cannot do without. -/
theorem matchItems_none_of_missing (ht : times = .one ∨ times = .plus)
    (h : ∀ x ∈ s, cls x = false) : matchItems (p ++ .chars cls times :: q) c s = none := by
  by_contra hne
  obtain ⟨r, hr⟩ := Option.ne_none_iff_exists'.mp hne
  obtain ⟨u, c', v, rfl, -, hv⟩ := matchItems_passes hr
  obtain ⟨x, w, rfl, hx⟩ := matchItems_chars_head ht hv
  rw [h x (by simp)] at hx
  cases hx

/-- The pattern gets stuck at `x`. -/
theorem matchItems_none_of_blocked {x : α} {a b : List α} (ht : times = .one ∨ times = .plus)
    (hx : ¬ Accepts p x) (ha : ∀ y ∈ a, cls y = false) (hcls : cls x = false) :
    matchItems (p ++ .chars cls times :: q) c (a ++ x :: b) = none := by
  by_contra hne
  obtain ⟨r, hr⟩ := Option.ne_none_iff_exists'.mp hne
  obtain ⟨u, c', v, hs, hu, hv⟩ := matchItems_passes hr
  obtain ⟨y, w, rfl, hy⟩ := matchItems_chars_head ht hv
  rcases List.append_eq_append_iff.mp hs with ⟨a', rfl, hb⟩ | ⟨b', rfl, hb⟩
  · cases a' with
    | nil =>
        rw [List.nil_append, List.cons.injEq] at hb
        rw [← hb.1, hcls] at hy
        cases hy
    | cons z a' =>
        rw [List.cons_append, List.cons.injEq] at hb
        exact hx (hu x (hb.1 ▸ by simp))
  · cases b' with
    | nil =>
        rw [List.nil_append, List.cons.injEq] at hb
        rw [hb.1, hcls] at hy
        cases hy
    | cons z b' =>
        rw [List.cons_append, List.cons.injEq] at hb
        rw [hb.1, ha z (by simp)] at hy
        cases hy

/-- What stands in front of the end of the subject. -/
theorem getLast_of_stop {r : Captures α × List α}
    (h : matchItems (p ++ [.begin_, .chars cls .plus, .end_, .stop]) c s = some r) :
    ∃ x ∈ s.getLast?, cls x = true := by
  obtain ⟨u, c', v, rfl, -, hv⟩ := matchItems_passes h
  rw [matchItems] at hv
  have hne : v ≠ [] := by
    rintro rfl
    cases hv
  have hall : ∀ x ∈ v, cls x = true := by
    obtain ⟨w, c'', v', rfl, hw, hv'⟩ :=
      matchItems_passes (p := [.chars cls .plus, .end_]) (q := [.stop]) hv
    cases v' with
    | nil =>
        intro x hx
        rw [List.append_nil] at hx
        obtain ⟨cls', times', hmem, hx'⟩ := hw x hx
        simp only [List.mem_cons, List.not_mem_nil, or_false, reduceCtorEq,
          Item.chars.injEq] at hmem
        rw [← hmem.1]
        exact hx'
    | cons y v' => cases hv'
  refine ⟨v.getLast hne, ?_, hall _ (List.getLast_mem hne)⟩
  rw [List.getLast?_append, List.getLast?_eq_some_getLast hne]
  rfl

end Needs

/-! ## One more character behind the subject -/

section Behind

variable {β : Type}

/-- The pattern cannot do without a character other than `b`. -/
def needs (b : α) : List (Item α) → Bool
  | [] => false
  | .chars cls .one :: p | .chars cls .plus :: p => !cls b || needs b p
  | _ :: p => needs b p

/-- `b` is taken by repetitions only, and something else has to follow then. -/
def firm (b : α) : List (Item α) → Bool
  | [] => true
  | .stop :: _ => false
  | .chars cls _ :: p => (!cls b || needs b p) && firm b p
  | _ :: p => firm b p

variable {b : α} {p : List (Item α)} {c : Captures α}

theorem needs_cons {i : Item α} (h : needs b (i :: p) = true) :
    needs b p = true ∨ ∃ cls times, i = .chars cls times ∧ (times = .one ∨ times = .plus) ∧
      cls b = false := by
  cases i with
  | chars cls times =>
      cases times with
      | one =>
          simp only [needs, Bool.or_eq_true, Bool.not_eq_true'] at h
          exact h.symm.imp_right fun hb => ⟨cls, .one, rfl, Or.inl rfl, hb⟩
      | opt => exact Or.inl h
      | star => exact Or.inl h
      | least => exact Or.inl h
      | plus =>
          simp only [needs, Bool.or_eq_true, Bool.not_eq_true'] at h
          exact h.symm.imp_right fun hb => ⟨cls, .plus, rfl, Or.inr rfl, hb⟩
  | begin_ => exact Or.inl h
  | end_ => exact Or.inl h
  | stop => exact Or.inl h

theorem matchItems_none_of_needs (h : needs b p = true) {s : List α} (hs : ∀ x ∈ s, x = b) :
    matchItems p c s = none := by
  induction p generalizing c s with
  | nil => cases h
  | cons i p ih =>
      by_contra hne
      obtain ⟨r, hr⟩ := Option.ne_none_iff_exists'.mp hne
      rcases needs_cons h with h | ⟨cls, times, rfl, ht, hb⟩
      · have htail : ∃ u c' v, s = u ++ v ∧ matchItems p c' v = some r := by
          obtain ⟨u, c', v, hs, -, hv⟩ := matchItems_passes (p := [i]) hr
          exact ⟨u, c', v, hs, hv⟩
        obtain ⟨u, c', v, rfl, hv⟩ := htail
        rw [ih h fun x hx => hs x (List.mem_append_right u hx)] at hv
        cases hv
      · obtain ⟨x, v, rfl, hx⟩ := matchItems_chars_head ht hr
        rw [hs x List.mem_cons_self, hb] at hx
        cases hx

def Captures.behind (c : Captures α) (b : α) : Captures α :=
  ⟨c.ended, c.begun.map (· ++ [b])⟩

/-- A match, with one more character behind the subject. -/
def behind (b : α) (r : Captures α × List α) : Captures α × List α :=
  (r.1.behind b, r.2 ++ [b])

theorem end_behind (c : Captures α) (s : List α) :
    (c.behind b).end_ (s ++ [b]) = (c.end_ s).map fun c => c.behind b := by
  obtain ⟨ended, begun⟩ := c
  cases begun with
  | nil => rfl
  | cons g begun =>
      have hle : g.length + 1 - (s.length + 1) ≤ g.length := by omega
      simp only [Captures.behind, Captures.end_, List.map_cons, Option.map_some,
        List.length_append, List.length_singleton]
      rw [List.take_append_of_le_length hle, Nat.add_sub_add_right]

/-- What an item of a class does, with what the rest of the pattern does. -/
def expand (cls : α → Bool) (k : List α → Option β) : Times → List α → Option β
  | .one, [] | .plus, [] => none
  | .one, x :: s => if cls x then k s else none
  | .opt, [] => k []
  | .opt, x :: s => if cls x then (k s).or (k (x :: s)) else k (x :: s)
  | .star, s => maxExpand cls k s
  | .plus, x :: s => if cls x then maxExpand cls k s else none
  | .least, s => minExpand cls k s

theorem matchItems_chars (cls : α → Bool) (times : Times) (p : List (Item α)) (c : Captures α)
    (s : List α) :
    matchItems (.chars cls times :: p) c s = expand cls (matchItems p c) times s := by
  cases times with
  | one => cases s <;> rfl
  | star => rfl
  | least => rfl
  | plus => cases s <;> rfl
  | opt =>
      cases s with
      | nil => rfl
      | cons x s =>
          rw [matchItems, expand]
          cases matchItems p c s <;> rfl

section Expand

variable {cls : α → Bool} {k k' : List α → Option β} {f : β → β}

/-- `k'` does with one more `b` what `k` does without it, and `b` is not taken by the class, or
    nothing is gained by taking it. -/
structure Behind (b : α) (cls : α → Bool) (k k' : List α → Option β) (f : β → β) : Prop where
  append : ∀ s, k' (s ++ [b]) = (k s).map f
  last : cls b = false ∨ (k' [] = none ∧ k [] = none)

theorem maxExpand_behind (h : Behind b cls k k' f) (s : List α) :
    maxExpand cls k' (s ++ [b]) = (maxExpand cls k s).map f := by
  induction s with
  | nil =>
      have hnil := h.append []
      rw [List.nil_append] at hnil ⊢
      change (if cls b then match k' [] with | some r => some r | none => k' [b] else k' [b]) =
        (k []).map f
      rw [hnil]
      rcases h.last with hb | ⟨hk', hk⟩
      · rw [hb]
        rfl
      · rw [hk', hk]
        exact ite_self _
  | cons x s ih =>
      rw [List.cons_append, maxExpand, ih, maxExpand]
      by_cases hx : cls x = true
      · rw [if_pos hx, if_pos hx]
        cases maxExpand cls k s with
        | some r => rfl
        | none => exact h.append (x :: s)
      · rw [if_neg hx, if_neg hx]
        exact h.append (x :: s)

theorem minExpand_behind (h : Behind b cls k k' f) (s : List α) :
    minExpand cls k' (s ++ [b]) = (minExpand cls k s).map f := by
  induction s with
  | nil =>
      have hnil := h.append []
      rw [List.nil_append] at hnil ⊢
      change (match k' [b] with | some r => some r | none => if cls b then k' [] else none) =
        (k []).map f
      rw [hnil]
      cases hk : k [] with
      | some r => rfl
      | none =>
          rcases h.last with hb | ⟨hk', -⟩
          · rw [hb]
            rfl
          · rw [hk']
            exact ite_self _
  | cons x s ih =>
      have hcons := h.append (x :: s)
      rw [List.cons_append] at hcons ⊢
      rw [minExpand, hcons, ih, minExpand]
      cases k (x :: s) with
      | some r => rfl
      | none =>
          by_cases hx : cls x = true
          · simp only [hx, if_true, Option.map_none]
          · simp only [if_neg hx, Option.map_none]

theorem expand_behind (h : Behind b cls k k' f) (times : Times) (s : List α) :
    expand cls k' times (s ++ [b]) = (expand cls k times s).map f := by
  have hnil : k' [b] = (k []).map f := h.append []
  have hb : cls b = true → k' [] = none := fun hb =>
    (h.last.resolve_left (by rw [hb]; decide)).1
  cases times with
  | star => exact maxExpand_behind h s
  | least => exact minExpand_behind h s
  | one =>
      cases s with
      | nil =>
          rw [List.nil_append, expand, expand]
          split
          · exact hb ‹_›
          · rfl
      | cons x s =>
          rw [List.cons_append, expand, expand, h.append]
          split <;> rfl
  | plus =>
      cases s with
      | nil =>
          rw [List.nil_append, expand, expand]
          split
          · exact hb ‹_›
          · rfl
      | cons x s =>
          rw [List.cons_append, expand, expand, maxExpand_behind h]
          split <;> rfl
  | opt =>
      cases s with
      | nil =>
          rw [List.nil_append, expand, expand, hnil]
          split
          · rw [hb ‹_›]
            rfl
          · rfl
      | cons x s =>
          have hcons := h.append (x :: s)
          rw [List.cons_append] at hcons ⊢
          rw [expand, expand, h.append, hcons]
          split
          · cases k s <;> rfl
          · rfl

end Expand

/-- A firm pattern matches the same with one more `b` behind the subject. -/
theorem matchItems_behind (h : firm b p = true) (s : List α) :
    matchItems p (c.behind b) (s ++ [b]) = (matchItems p c s).map (behind b) := by
  induction p generalizing c s with
  | nil => rfl
  | cons i p ih =>
      cases i with
      | stop => cases h
      | begin_ => exact @ih ⟨c.ended, s :: c.begun⟩ h s
      | end_ =>
          rw [matchItems, matchItems, end_behind]
          cases c.end_ s with
          | none => rfl
          | some c' => exact ih h s
      | chars cls times =>
          simp only [firm, Bool.and_eq_true, Bool.or_eq_true, Bool.not_eq_true'] at h
          rw [matchItems_chars, matchItems_chars]
          refine expand_behind ⟨fun s => ih h.2 s, h.1.imp_right fun hneeds => ?_⟩ times s
          exact ⟨matchItems_none_of_needs hneeds (by simp), matchItems_none_of_needs hneeds (by simp)⟩

theorem match_behind (h : firm b p = true) (s : List α) : match_ p (s ++ [b]) = match_ p s := by
  have hm := @matchItems_behind α b p .none h s
  change matchItems p .none (s ++ [b]) = _ at hm
  rw [match_, match_, hm, Option.map_map]
  rfl

end Behind

/-! ## Whether there is a match -/

section Begins

variable {β : Type} {cls : α → Bool} {k : List α → Option β} {p q : List (Item α)}
  {c : Captures α} {s u v : List α}

/-- What an item may take, as to its length. -/
def Times.Fits : Times → List α → Prop
  | .one, u => u.length = 1
  | .opt, u => u.length ≤ 1
  | .plus, u => u ≠ []
  | .star, _ | .least, _ => True

/-- The subject can be divided between the items of the pattern, up to a rest. -/
def Begins : List (Item α) → List α → Prop
  | [], _ => True
  | .begin_ :: p, s | .end_ :: p, s => Begins p s
  | .stop :: p, s => s = [] ∧ Begins p s
  | .chars cls times :: p, s =>
      ∃ u v, s = u ++ v ∧ times.Fits u ∧ (∀ x ∈ u, cls x = true) ∧ Begins p v

/-- No capture ends that has not begun; `n` have begun before. -/
def closed : Nat → List (Item α) → Bool
  | _, [] => true
  | n, .begin_ :: p => closed (n + 1) p
  | 0, .end_ :: _ => false
  | n + 1, .end_ :: p => closed n p
  | n, .stop :: p | n, .chars _ _ :: p => closed n p

theorem isSome_maxExpand : (maxExpand cls k s).isSome ↔
    ∃ u v, s = u ++ v ∧ (∀ x ∈ u, cls x = true) ∧ (k v).isSome := by
  constructor
  · intro h
    obtain ⟨r, hr⟩ := Option.isSome_iff_exists.mp h
    obtain ⟨u, v, hs, hu, hv⟩ := maxExpand_some hr
    exact ⟨u, v, hs, hu, by rw [hv]; rfl⟩
  · rintro ⟨u, v, rfl, hu, hv⟩
    have hhere : (maxExpand cls k v).isSome := by
      cases v with
      | nil => exact hv
      | cons x v =>
          rw [maxExpand]
          split
          · cases maxExpand cls k v with
            | some r => rfl
            | none => exact hv
          · exact hv
    obtain ⟨r, hr⟩ := Option.isSome_iff_exists.mp hhere
    rw [maxExpand_append_of_some hu hr]
    rfl

theorem isSome_minExpand : (minExpand cls k s).isSome ↔
    ∃ u v, s = u ++ v ∧ (∀ x ∈ u, cls x = true) ∧ (k v).isSome := by
  constructor
  · intro h
    obtain ⟨r, hr⟩ := Option.isSome_iff_exists.mp h
    obtain ⟨u, v, hs, hu, hv⟩ := minExpand_some hr
    exact ⟨u, v, hs, hu, by rw [hv]; rfl⟩
  · rintro ⟨u, v, rfl, hu, hv⟩
    induction u with
    | nil =>
        cases v with
        | nil => exact hv
        | cons x v =>
            obtain ⟨r, hr⟩ := Option.isSome_iff_exists.mp hv
            rw [List.nil_append, minExpand, hr]
            rfl
    | cons x u ih =>
        rw [List.forall_mem_cons] at hu
        rw [List.cons_append, minExpand]
        cases k (x :: (u ++ v)) with
        | some r => rfl
        | none =>
            simp only [hu.1, if_true]
            exact ih hu.2

theorem isSome_expand_one : (expand cls k .one s).isSome ↔
    ∃ u v, s = u ++ v ∧ Times.one.Fits u ∧ (∀ x ∈ u, cls x = true) ∧ (k v).isSome := by
  constructor
  · intro h
    cases s with
    | nil => cases h
    | cons x s =>
        rw [expand] at h
        split at h
        · exact ⟨[x], s, rfl, rfl, List.forall_mem_singleton.mpr (by assumption), h⟩
        · cases h
  · rintro ⟨u, v, rfl, hfit, hu, hv⟩
    obtain ⟨x, rfl⟩ := List.length_eq_one_iff.mp hfit
    rw [List.singleton_append, expand, if_pos (hu x List.mem_cons_self)]
    exact hv

theorem isSome_expand_plus : (expand cls k .plus s).isSome ↔
    ∃ u v, s = u ++ v ∧ Times.plus.Fits u ∧ (∀ x ∈ u, cls x = true) ∧ (k v).isSome := by
  constructor
  · intro h
    cases s with
    | nil => cases h
    | cons x s =>
        rw [expand] at h
        split at h
        · obtain ⟨u, v, rfl, hu, hv⟩ := isSome_maxExpand.mp h
          exact ⟨x :: u, v, rfl, List.cons_ne_nil _ _,
            List.forall_mem_cons.mpr ⟨by assumption, hu⟩, hv⟩
        · cases h
  · rintro ⟨u, v, rfl, hfit, hu, hv⟩
    obtain ⟨x, u, rfl⟩ := List.exists_cons_of_ne_nil hfit
    rw [List.forall_mem_cons] at hu
    rw [List.cons_append, expand, if_pos hu.1]
    exact isSome_maxExpand.mpr ⟨u, v, rfl, hu.2, hv⟩

theorem isSome_expand_opt : (expand cls k .opt s).isSome ↔
    ∃ u v, s = u ++ v ∧ Times.opt.Fits u ∧ (∀ x ∈ u, cls x = true) ∧ (k v).isSome := by
  constructor
  · intro h
    cases s with
    | nil => exact ⟨[], [], rfl, Nat.zero_le _, by simp, h⟩
    | cons x s =>
        rw [expand] at h
        split at h
        · rw [Option.isSome_or, Bool.or_eq_true] at h
          rcases h with h | h
          · exact ⟨[x], s, rfl, Nat.le_refl _, List.forall_mem_singleton.mpr (by assumption), h⟩
          · exact ⟨[], x :: s, rfl, Nat.zero_le _, by simp, h⟩
        · exact ⟨[], x :: s, rfl, Nat.zero_le _, by simp, h⟩
  · rintro ⟨u, v, rfl, hfit, hu, hv⟩
    rcases Nat.le_one_iff_eq_zero_or_eq_one.mp hfit with h | h
    · rw [List.length_eq_zero_iff.mp h, List.nil_append]
      cases v with
      | nil => exact hv
      | cons x v =>
          rw [expand]
          split
          · rw [Option.isSome_or, hv, Bool.or_true]
          · exact hv
    · obtain ⟨x, rfl⟩ := List.length_eq_one_iff.mp h
      rw [List.singleton_append, expand, if_pos (hu x List.mem_cons_self), Option.isSome_or, hv]
      rfl

theorem isSome_expand (times : Times) : (expand cls k times s).isSome ↔
    ∃ u v, s = u ++ v ∧ times.Fits u ∧ (∀ x ∈ u, cls x = true) ∧ (k v).isSome := by
  cases times with
  | star =>
      rw [expand, isSome_maxExpand]
      simp only [Times.Fits, true_and]
  | least =>
      rw [expand, isSome_minExpand]
      simp only [Times.Fits, true_and]
  | one => exact isSome_expand_one
  | plus => exact isSome_expand_plus
  | opt => exact isSome_expand_opt

/-- **Whether there is a match.** The order in which the repetitions try does not matter. -/
theorem isSome_matchItems (h : closed c.begun.length p = true) :
    (matchItems p c s).isSome ↔ Begins p s := by
  induction p generalizing c s with
  | nil => exact iff_of_true rfl trivial
  | cons i p ih =>
      cases i with
      | begin_ =>
          rw [matchItems, Begins]
          exact ih h
      | end_ =>
          obtain ⟨ended, begun⟩ := c
          cases begun with
          | nil => cases h
          | cons g begun =>
              rw [matchItems, Begins]
              exact @ih ⟨ended ++ [g.take (g.length - s.length)], begun⟩ s h
      | stop =>
          rw [Begins]
          cases s with
          | nil =>
              rw [matchItems, ih (by simpa only [closed] using h)]
              exact (and_iff_right rfl).symm
          | cons x s => exact iff_of_false Bool.false_ne_true fun hs => List.cons_ne_nil _ _ hs.1
      | chars cls times =>
          rw [matchItems_chars, isSome_expand, Begins]
          have hrest : ∀ v, (matchItems p c v).isSome ↔ Begins p v := fun v =>
            ih (by simpa only [closed] using h)
          simp only [hrest]

theorem matchItems_eq_none (h : closed c.begun.length p = true) :
    matchItems p c s = none ↔ ¬ Begins p s := by
  rw [← isSome_matchItems h, Option.not_isSome_iff_eq_none]

theorem finds_iff (h : closed 0 p = true) :
    finds p s = true ↔ ∃ w, w <:+ s ∧ Begins p w := by
  have hmatch : ∀ w, (match_ p w).isSome ↔ Begins p w := fun w => by
    rw [match_, Option.isSome_map]
    exact isSome_matchItems (c := .none) h
  simp only [finds, List.any_eq_true, List.mem_tails, hmatch]

theorem Begins.left (h : Begins (p ++ q) s) : Begins p s := by
  induction p generalizing s with
  | nil => trivial
  | cons i p ih =>
      cases i with
      | begin_ => exact ih h
      | end_ => exact ih h
      | stop => exact ⟨h.1, ih h.2⟩
      | chars cls times =>
          obtain ⟨u, v, hs, hfit, hu, hv⟩ := h
          exact ⟨u, v, hs, hfit, hu, ih hv⟩

theorem Begins.right (h : Begins (p ++ q) s) : ∃ w, w <:+ s ∧ Begins q w := by
  induction p generalizing s with
  | nil => exact ⟨s, List.suffix_rfl, h⟩
  | cons i p ih =>
      cases i with
      | begin_ => exact ih h
      | end_ => exact ih h
      | stop => exact ih h.2
      | chars cls times =>
          obtain ⟨u, v, rfl, -, -, hv⟩ := h
          obtain ⟨w, hw, hq⟩ := ih hv
          exact ⟨w, hw.trans (List.suffix_append u v), hq⟩

/-- No item accepts `b`, and none wants the end of the subject. -/
def skips (b : α) (p : List (Item α)) : Bool :=
  p.all fun
    | .stop => false
    | .chars cls _ => !cls b
    | .begin_ | .end_ => true

theorem not_accepts_of_skips {b : α} (h : skips b p = true) :
    ¬ Accepts p b ∧ Item.stop ∉ p := by
  rw [skips, List.all_eq_true] at h
  constructor
  · rintro ⟨cls, times, hmem, hcls⟩
    have hb := h _ hmem
    simp [hcls] at hb
  · intro hmem
    exact Bool.false_ne_true (h _ hmem)

/-- A pattern, with one behind it that matches anything. -/
theorem Begins.append (h : Begins p s) (hstop : Item.stop ∉ p) (hq : ∀ v, Begins q v)
    (v : List α) : Begins (p ++ q) (s ++ v) := by
  induction p generalizing s with
  | nil => exact hq _
  | cons i p ih =>
      have hstop' : Item.stop ∉ p := fun hmem => hstop (List.mem_cons_of_mem _ hmem)
      cases i with
      | begin_ => exact ih h hstop'
      | end_ => exact ih h hstop'
      | stop => exact absurd List.mem_cons_self hstop
      | chars cls times =>
          obtain ⟨u, w, rfl, hfit, hu, hw⟩ := h
          exact ⟨u, w ++ v, List.append_assoc u w v, hfit, hu, ih hw hstop'⟩

/-- A last character that the pattern does not accept is not needed. -/
theorem Begins.of_concat {b : α} (h : Begins p (s ++ [b])) (hb : ¬ Accepts p b) :
    Begins p s := by
  induction p generalizing s with
  | nil => trivial
  | cons i p ih =>
      have hb' : ¬ Accepts p b := fun hacc => hb (hacc.cons i)
      cases i with
      | begin_ => exact ih h hb'
      | end_ => exact ih h hb'
      | stop => exact absurd h.1 (by simp)
      | chars cls times =>
          obtain ⟨u, v, hs, hfit, hu, hv⟩ := h
          rcases List.eq_nil_or_concat v with rfl | ⟨v', x, rfl⟩
          · rw [List.append_nil] at hs
            exact absurd (accepts_head (hu b (hs ▸ by simp))) hb
          · rw [List.concat_eq_append, ← List.append_assoc] at hs
            obtain ⟨rfl, hx⟩ := List.append_inj' hs rfl
            rw [List.concat_eq_append, ← hx] at hv
            exact ⟨u, v', rfl, hfit, hu, ih hv hb'⟩

end Begins

/-! ## The first place -/

section First

variable {cls : α → Bool} {p : List (Item α)} {c : Captures α} {u v : List α}
  {r : Captures α × List α}

/-- With `least`, up to the first place. -/
theorem matchItems_least_first (hu : ∀ x ∈ u, cls x = true)
    (hfirst : ∀ w, w <:+ u → w ≠ [] → matchItems p c (w ++ v) = none)
    (h : matchItems p c v = some r) :
    matchItems (.chars cls .least :: p) c (u ++ v) = some r := by
  rw [matchItems]
  induction u with
  | nil =>
      cases v with
      | nil => exact h
      | cons x v =>
          rw [List.nil_append, minExpand, h]
  | cons x u ih =>
      rw [List.forall_mem_cons] at hu
      have hnone := hfirst (x :: u) List.suffix_rfl (List.cons_ne_nil _ _)
      rw [List.cons_append] at hnone ⊢
      rw [minExpand, hnone]
      simp only [hu.1, if_true]
      exact ih hu.2 fun w hw => hfirst w (hw.trans (List.suffix_cons x u))

end First

/-! ## Replacing -/

section Replace

variable {ι : Type} {p : List (Item α)} {repl : List (List α) → List α} {f g : ι → List α}

/-- `p` matches `f i` in front of anything, and `g i` is what it is replaced by. -/
def Replaces (p : List (Item α)) (repl : List (List α) → List α) (f g : ι → List α) (i : ι) :
    Prop :=
  f i ≠ [] ∧ ∀ v, ∃ c, matchItems p .none (f i ++ v) = some (c, v) ∧ repl c.ended = g i

theorem gsubLoop_flatMap (hnil : matchItems p .none [] = none) {l : List ι}
    (h : ∀ i ∈ l, Replaces p repl f g i) (n : Nat) (hn : (l.flatMap f).length < n) :
    gsubLoop p repl n (l.flatMap f) = l.flatMap g := by
  induction l generalizing n with
  | nil =>
      cases n with
      | zero => rfl
      | succ n =>
          rw [List.flatMap_nil]
          simp only [gsubLoop, hnil]
          rfl
  | cons i l ih =>
      obtain ⟨hne, hmatch⟩ := h i List.mem_cons_self
      obtain ⟨c, hc, hrepl⟩ := hmatch (l.flatMap f)
      have hpos : 0 < (f i).length := List.length_pos_iff.mpr hne
      rw [List.flatMap_cons, List.length_append] at hn
      cases n with
      | zero => omega
      | succ n =>
          have hlt : (l.flatMap f).length < (f i ++ l.flatMap f).length := by
            rw [List.length_append]
            omega
          rw [List.flatMap_cons, List.flatMap_cons]
          simp only [gsubLoop, hc, hlt, if_true, hrepl]
          rw [ih (fun j hj => h j (List.mem_cons_of_mem _ hj)) n (by omega)]

/-- A subject made of pieces that are replaced one by one. -/
theorem gsub_flatMap (hnil : matchItems p .none [] = none) {l : List ι}
    (h : ∀ i ∈ l, Replaces p repl f g i) : gsub p repl (l.flatMap f) = l.flatMap g :=
  gsubLoop_flatMap hnil h _ (Nat.lt_succ_self _)

end Replace

end Buildsh.Generic.Pattern
