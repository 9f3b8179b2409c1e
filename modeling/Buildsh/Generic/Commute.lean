/-
  Folds over two orders of the same actions.

  `f : σ → α → σ` applies an action to a state, `Dep a b` says that `a` and `b` must keep
  their order. `foldl_eq_of_depOrder`: if independent actions commute under `f`, two
  duplicate-free lists of the same actions that agree on the order of every dependent pair
  fold to the same state. This is the trace-equivalence argument of partial-order reduction:
  the head of the first list is moved to the front of the second one, past actions none of
  which depends on it.
-/
import Mathlib.Data.List.Perm.Basic
import Mathlib.Data.List.Nodup
import Mathlib.Data.List.Infix

namespace Buildsh.Generic

universe u v

variable {α : Type u} {σ : Type v}

/-- Moving an action to the front, past actions that do not depend on it. -/
theorem foldl_bubble (f : σ → α → σ) (a : α) :
    ∀ (l : List α), (∀ y ∈ l, ∀ s, f (f s a) y = f (f s y) a) → ∀ (r : List α) (s : σ),
      (l ++ a :: r).foldl f s = (a :: l ++ r).foldl f s
  | [], _, _, _ => rfl
  | y :: l, h, r, s => by
      have hl : ∀ z ∈ l, ∀ s, f (f s a) z = f (f s z) a :=
        fun z hz => h z (List.mem_cons_of_mem _ hz)
      have hy : f (f s a) y = f (f s y) a := h y List.mem_cons_self s
      have ih := foldl_bubble f a l hl r (f s y)
      simp only [List.cons_append, List.foldl_cons] at ih ⊢
      rw [ih, hy]

/-- In a duplicate-free list `l ++ a :: r`, what `a` precedes does not stand in `l`. -/
theorem not_mem_left_of_pair_sublist {a y : α} {l r : List α} (hnd : (l ++ a :: r).Nodup)
    (h : [a, y].Sublist (l ++ a :: r)) : y ∉ l := by
  have hal : a ∉ l := fun hm =>
    (List.nodup_append.mp hnd).2.2 a hm a List.mem_cons_self rfl
  intro hy
  have hyr : y ∉ a :: r := fun hm => (List.nodup_append.mp hnd).2.2 y hy y hm rfl
  rw [List.sublist_append_iff] at h
  obtain ⟨l₁, l₂, he, h₁, h₂⟩ := h
  rcases l₁ with _ | ⟨b, l₁⟩
  · have hm : y ∈ l₂ := by rw [List.nil_append] at he; rw [← he]; simp
    exact hyr (h₂.subset hm)
  · have hb : b = a := by
      rw [List.cons_append, List.cons.injEq] at he
      exact he.1.symm
    exact hal (h₁.subset (by rw [hb]; exact List.mem_cons_self))

/-- Dropping `a` keeps the order of every pair it is not part of. -/
theorem pair_sublist_of_ne {a b c : α} {l r : List α} (hb : b ≠ a) (hc : c ≠ a)
    (h : [b, c].Sublist (l ++ a :: r)) : [b, c].Sublist (l ++ r) := by
  classical
  have hf := h.filter (fun x => decide (x ≠ a))
  have hbc : [b, c].filter (fun x => decide (x ≠ a)) = [b, c] := by
    simp [hb, hc]
  have hlr : ((l ++ a :: r).filter (fun x => decide (x ≠ a))).Sublist (l ++ r) := by
    rw [List.filter_append, List.filter_cons_of_neg (by simp)]
    exact List.filter_sublist.append List.filter_sublist
  rw [hbc] at hf
  exact hf.trans hlr

/-- Two orders of the same actions that agree on every dependent pair have the same effect. -/
theorem foldl_eq_of_depOrder (f : σ → α → σ) (Dep : α → α → Prop)
    (hcomm : ∀ a b, ¬ Dep a b → ∀ s, f (f s a) b = f (f s b) a) :
    ∀ (l₁ l₂ : List α), l₁.Perm l₂ → l₁.Nodup →
      (∀ a b, Dep a b → [a, b].Sublist l₁ → [a, b].Sublist l₂) →
      ∀ s, l₁.foldl f s = l₂.foldl f s
  | [], l₂, hp, _, _, _ => by rw [hp.nil_eq]
  | a :: l₁, l₂, hp, hnd, hord, s => by
      have ha : a ∈ l₂ := hp.mem_iff.mp List.mem_cons_self
      obtain ⟨l, r, rfl⟩ := List.append_of_mem ha
      have hnd₂ : (l ++ a :: r).Nodup := hp.nodup_iff.mp hnd
      have htail : l₁.Perm (l ++ r) :=
        List.Perm.cons_inv (hp.trans List.perm_middle)
      have hind : ∀ y ∈ l, ¬ Dep a y := by
        intro y hy hd
        have hy₁ : y ∈ l₁ := htail.mem_iff.mpr (List.mem_append_left _ hy)
        have hpair : [a, y].Sublist (a :: l₁) :=
          List.Sublist.cons_cons a (List.singleton_sublist.mpr hy₁)
        exact not_mem_left_of_pair_sublist hnd₂ (hord a y hd hpair) hy
      -- after the move both lists start with `a`, and the tails still agree on dependent pairs
      have hord' : ∀ b c, Dep b c → [b, c].Sublist l₁ → [b, c].Sublist (l ++ r) := by
        intro b c hd hs
        have hb : b ≠ a := fun he =>
          (List.nodup_cons.mp hnd).1 (hs.subset (by rw [he]; exact List.mem_cons_self))
        have hc : c ≠ a := fun he =>
          (List.nodup_cons.mp hnd).1 (hs.subset (by rw [he]; simp))
        exact pair_sublist_of_ne hb hc (hord b c hd (hs.cons a))
      rw [foldl_bubble f a l (fun y hy s => hcomm a y (hind y hy) s) r s]
      simp only [List.cons_append, List.foldl_cons]
      exact foldl_eq_of_depOrder f Dep hcomm l₁ (l ++ r) htail
        (List.nodup_cons.mp hnd).2 hord' (f s a)

end Buildsh.Generic
