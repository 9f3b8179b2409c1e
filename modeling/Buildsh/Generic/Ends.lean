/-
  Programs with a state and errors.

  `Ends m s ok bad` says how the program `m` ends when it is started in the state `s`: with a value
  and a state as in `ok`, or with an error and a state as in `bad`. There is one rule for each way
  to put programs together. `UpTo E m m'` says that `m` does what `m'` does up to an error of
  `E`, with the same rules.
-/
import Mathlib.Logic.Basic

namespace Buildsh.Generic

section Ends

variable {ε σ α β : Type} {m m' : EStateM ε σ α} {f f' : α → EStateM ε σ β} {s : σ}
  {ok ok' : α → σ → Prop} {bad bad' : ε → σ → Prop}

def Ends (m : EStateM ε σ α) (s : σ) (ok : α → σ → Prop) (bad : ε → σ → Prop) : Prop :=
  match m s with
  | .ok a s' => ok a s'
  | .error e s' => bad e s'

theorem Ends.mono (h : Ends m s ok bad) (hok : ∀ a s', ok a s' → ok' a s')
    (hbad : ∀ e s', bad e s' → bad' e s') : Ends m s ok' bad' := by
  unfold Ends at h ⊢
  cases hm : m s with
  | ok a s' =>
      rw [hm] at h
      exact hok a s' h
  | error e s' =>
      rw [hm] at h
      exact hbad e s' h

theorem Ends.imp (h : Ends m s ok bad) (hok : ∀ a s', ok a s' → ok' a s') : Ends m s ok' bad :=
  h.mono hok fun _ _ h => h

/-- The value and the state are those that the program ends with. -/
theorem Ends.eq (h : Ends m s ok bad) : Ends m s (fun a s' => ok a s' ∧ m s = .ok a s') bad := by
  unfold Ends at h ⊢
  cases hm : m s with
  | ok a s' =>
      rw [hm] at h
      exact ⟨h, rfl⟩
  | error e s' =>
      rw [hm] at h
      exact h

theorem ends_pure {a : α} (h : ok a s) : Ends (pure a) s ok bad := h

theorem ends_throw {e : ε} (h : bad e s) : Ends (throw e : EStateM ε σ α) s ok bad := h

theorem ends_get {ok : σ → σ → Prop} (h : ok s s) : Ends get s ok bad := h

theorem ends_set {s' : σ} {ok : PUnit → σ → Prop} (h : ok ⟨⟩ s') : Ends (set s') s ok bad := h

theorem ends_modify {g : σ → σ} {ok : Unit → σ → Prop} (h : ok () (g s)) :
    Ends (modify g) s ok bad := h

theorem Ends.bind {ok' : β → σ → Prop}
    (h : Ends m s (fun a s' => Ends (f a) s' ok' bad) bad) : Ends (m >>= f) s ok' bad := by
  unfold Ends at h ⊢
  change match EStateM.bind m f s with | .ok b s' => ok' b s' | .error e s' => bad e s'
  unfold EStateM.bind
  cases hm : m s with
  | ok a s' =>
      rw [hm] at h
      exact h
  | error e s' =>
      rw [hm] at h
      exact h

/-- A program and what comes after it. -/
theorem Ends.then {ok' : β → σ → Prop} (h : Ends m s ok bad)
    (hf : ∀ a s', ok a s' → Ends (f a) s' ok' bad) : Ends (m >>= f) s ok' bad :=
  (h.imp hf).bind

theorem ends_ite {p : Prop} [Decidable p] (h : p → Ends m s ok bad)
    (h' : ¬ p → Ends m' s ok bad) : Ends (if p then m else m') s ok bad := by
  split
  · exact h ‹_›
  · exact h' ‹_›

theorem Ends.not_error (h : Ends m s ok fun _ _ => False) : ∃ a s', m s = .ok a s' ∧ ok a s' := by
  unfold Ends at h
  cases hm : m s with
  | ok a s' =>
      rw [hm] at h
      exact ⟨a, s', rfl, h⟩
  | error e s' =>
      rw [hm] at h
      exact h.elim

theorem Ends.not_ok (h : Ends m s (fun _ _ => False) bad) : ∃ e s', m s = .error e s' ∧ bad e s' := by
  unfold Ends at h
  cases hm : m s with
  | ok a s' =>
      rw [hm] at h
      exact h.elim
  | error e s' =>
      rw [hm] at h
      exact ⟨e, s', rfl, h⟩

theorem bind_ok {a : α} {s' : σ} (h : m s = .ok a s') : (m >>= f) s = f a s' := by
  change EStateM.bind m f s = _
  rw [EStateM.bind, h]

/-! ## The same up to an error -/

/-- `m` does what `m'` does, or it comes to an error of `E`. -/
def UpTo (E : ε → Prop) (m m' : EStateM ε σ α) : Prop :=
  ∀ s, m s = m' s ∨ ∃ e s', m s = .error e s' ∧ E e

variable {E : ε → Prop}

theorem UpTo.refl (m : EStateM ε σ α) : UpTo E m m := fun _ => Or.inl rfl

theorem upTo_throw {e : ε} (h : E e) (m : EStateM ε σ α) : UpTo E (throw e) m :=
  fun s => Or.inr ⟨e, s, rfl, h⟩

theorem UpTo.bind (h : UpTo E m m') (hf : ∀ a, UpTo E (f a) (f' a)) :
    UpTo E (m >>= f) (m' >>= f') := by
  intro s
  change EStateM.bind m f s = EStateM.bind m' f' s ∨ ∃ e s', EStateM.bind m f s = .error e s' ∧ E e
  unfold EStateM.bind
  rcases h s with heq | ⟨e, s₁, herr, he⟩
  · rw [heq]
    cases m' s with
    | ok a s₁ => exact hf a s₁
    | error e s₁ => exact Or.inl rfl
  · rw [herr]
    exact Or.inr ⟨e, s₁, rfl, he⟩

theorem upTo_ite {p : Prop} [Decidable p] {k k' : EStateM ε σ α} (h : UpTo E m m')
    (h' : UpTo E k k') : UpTo E (if p then m else k) (if p then m' else k') := by
  split
  · exact h
  · exact h'

end Ends

end Buildsh.Generic
