/-
  Arrays that are rearranged within a range.

  `Rearranged l u a b`: the array `b` has the elements of `a`, those outside of `l..u` where they
  were. A swap does this (`rearranged_exchange`), and one rearrangement after the other (`trans`).
  What holds of all elements of a range still holds when this range, or a part of it, is rearranged
  (`forall`). `Rearranged.perm` is about the list of the elements.
-/
import Mathlib.Data.List.Perm.Basic
import Mathlib.Data.List.Nodup
import Mathlib.Logic.Equiv.Basic

namespace Buildsh.Generic

variable {α : Type} {l u l' u' : Nat} {a b c : Nat → α}

def Rearranged (l u : Nat) (a b : Nat → α) : Prop :=
  ∃ σ : Equiv.Perm Nat, (∀ i, ¬ (l ≤ i ∧ i ≤ u) → σ i = i) ∧ b = a ∘ σ

/-- `a[i]` and `a[j]` exchanged. -/
def exchange (a : Nat → α) (i j : Nat) : Nat → α := fun k =>
  if k = i then a j else if k = j then a i else a k

theorem exchange_eq (a : Nat → α) (i j : Nat) : exchange a i j = a ∘ Equiv.swap i j := by
  funext k
  unfold exchange
  rw [Function.comp_apply, Equiv.swap_apply_def]
  split_ifs <;> rfl

theorem exchange_left (a : Nat → α) (i j : Nat) : exchange a i j i = a j := if_pos rfl

theorem exchange_right (a : Nat → α) (i j : Nat) : exchange a i j j = a i := by
  unfold exchange
  by_cases h : j = i
  · rw [if_pos h, h]
  · rw [if_neg h, if_pos rfl]

theorem exchange_of_ne (a : Nat → α) {i j k : Nat} (hi : k ≠ i) (hj : k ≠ j) :
    exchange a i j k = a k := by
  unfold exchange
  rw [if_neg hi, if_neg hj]

theorem Rearranged.refl (l u : Nat) (a : Nat → α) : Rearranged l u a a := 
  ⟨Equiv.refl Nat, fun _ _ => rfl, rfl⟩

theorem Rearranged.trans (h : Rearranged l u a b) (h' : Rearranged l u b c) :
    Rearranged l u a c := by
  obtain ⟨σ, hσ, rfl⟩ := h
  obtain ⟨τ, hτ, rfl⟩ := h'
  refine ⟨τ.trans σ, fun i hi => ?_, rfl⟩
  rw [Equiv.trans_apply, hτ i hi, hσ i hi]

theorem Rearranged.mono (h : Rearranged l u a b) (hl : l' ≤ l) (hu : u ≤ u') :
    Rearranged l' u' a b := by
  obtain ⟨σ, hσ, rfl⟩ := h
  exact ⟨σ, fun i hi => hσ i fun hi' => hi ⟨by omega, by omega⟩, rfl⟩

theorem rearranged_exchange (a : Nat → α) {i j : Nat} (hi : l ≤ i ∧ i ≤ u) (hj : l ≤ j ∧ j ≤ u) :
    Rearranged l u a (exchange a i j) := by
  refine ⟨Equiv.swap i j, fun k hk => ?_, exchange_eq a i j⟩
  refine Equiv.swap_apply_of_ne_of_ne ?_ ?_
  · rintro rfl
    exact hk hi
  · rintro rfl
    exact hk hj

/-- Outside of the range nothing changes. -/
theorem Rearranged.outside (h : Rearranged l u a b) {i : Nat} (hi : ¬ (l ≤ i ∧ i ≤ u)) :
    b i = a i := by
  obtain ⟨σ, hσ, rfl⟩ := h
  rw [Function.comp_apply, hσ i hi]

/-- Where an element of the range comes from. -/
theorem Rearranged.source (h : Rearranged l u a b) {i : Nat} (hi : l ≤ i ∧ i ≤ u) :
    ∃ j, (l ≤ j ∧ j ≤ u) ∧ b i = a j := by
  obtain ⟨σ, hσ, rfl⟩ := h
  refine ⟨σ i, ?_, rfl⟩
  by_contra hj
  have heq : σ i = i := σ.injective (hσ (σ i) hj)
  rw [heq] at hj
  exact hj hi

/-- What holds of all elements of a range that contains the rearranged one, or none of it. -/
theorem Rearranged.forall (h : Rearranged l u a b) {p : α → Prop} {l₁ u₁ : Nat}
    (hr : (l₁ ≤ l ∧ u ≤ u₁) ∨ u₁ < l ∨ u < l₁) (hp : ∀ i, l₁ ≤ i → i ≤ u₁ → p (a i)) :
    ∀ i, l₁ ≤ i → i ≤ u₁ → p (b i) := by
  intro i hl hu
  by_cases hi : l ≤ i ∧ i ≤ u
  · obtain ⟨j, hj, heq⟩ := h.source hi
    rw [heq]
    exact hp j (by omega) (by omega)
  · rw [h.outside hi]
    exact hp i hl hu

/-- The elements of the range, as a list. -/
theorem Rearranged.perm {n : Nat} (h : Rearranged 1 n a b) :
    ((List.range' 1 n).map b).Perm ((List.range' 1 n).map a) := by
  obtain ⟨σ, hσ, rfl⟩ := h
  rw [← List.map_map]
  refine List.Perm.map a ?_
  refine (List.perm_ext_iff_of_nodup ?_ List.nodup_range').mpr fun i => ?_
  · exact List.Nodup.map σ.injective List.nodup_range'
  · rw [List.mem_map, List.mem_range'_1]
    constructor
    · rintro ⟨j, hj, rfl⟩
      rw [List.mem_range'_1] at hj
      by_contra hi
      have heq : σ (σ j) = σ j := hσ (σ j) fun h => hi ⟨h.1, by omega⟩
      rw [σ.injective heq] at hi
      exact hi hj
    · intro hi
      refine ⟨σ.symm i, ?_, σ.apply_symm_apply i⟩
      rw [List.mem_range'_1]
      by_contra hj
      have heq : σ (σ.symm i) = σ.symm i := hσ _ fun h => hj ⟨h.1, by omega⟩
      rw [σ.apply_symm_apply] at heq
      rw [← heq] at hj
      exact hj hi

end Buildsh.Generic
