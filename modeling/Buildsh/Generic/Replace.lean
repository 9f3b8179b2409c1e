/-
  Logs whose events are replaced by others of the same effect.

  `Replaces m R`: where `R e e'`, both events announce the same agent, and whenever the body of
  `e` goes through, that of `e'` does the same. `run_replaced`: a run that goes through leads to
  the same world with the events of its log replaced, those parked on the way included.
-/
import Buildsh.Generic.DelayQueue

namespace Buildsh.Generic

variable {P E W ε : Type}

structure Replaces (m : Machine P E W ε) (R : E → E → Prop) : Prop where
  announces : ∀ {e e'}, R e e' → m.announces e' = m.announces e
  body : ∀ {w w' p e e'}, R e e' → m.body w p e = .ok w' → m.body w p e' = .ok w'

/-- The same world, and the events that are parked replaced. -/
structure SameWorld (R : E → E → Prop) (s t : State P E W) : Prop where
  world : t.world = s.world
  delayed : ∀ p, Option.Rel (List.Forall₂ R) (s.delayed p) (t.delayed p)

variable {R : E → E → Prop}

theorem sameWorld_start (w : W) : SameWorld R (State.start w : State P E W) (State.start w) :=
  ⟨rfl, fun _ => .none⟩

theorem SameWorld.setWorld {s t : State P E W} (h : SameWorld R s t) (w : W) :
    SameWorld R { s with world := w } { t with world := w } := ⟨rfl, h.delayed⟩

/-- What a handler does, another one does with the event replaced. -/
def Follows (R : E → E → Prop) (f g : State P E W → P → E → Except (Fault ε) (State P E W)) :
    Prop :=
  ∀ (s t s' : State P E W) (p : P) (e e' : E), SameWorld R s t → R e e' → f s p e = .ok s' →
    ∃ t', g t p e' = .ok t' ∧ SameWorld R s' t'

theorem foldlM_follows {f g : State P E W → P → E → Except (Fault ε) (State P E W)}
    (hf : Follows R f g) (p : P) {l l' : List E} (hl : List.Forall₂ R l l')
    {s t s' : State P E W} (hs : SameWorld R s t)
    (h : l.foldlM (fun s e => f s p e) s = .ok s') :
    ∃ t', l'.foldlM (fun s e => g s p e) t = .ok t' ∧ SameWorld R s' t' := by
  induction hl generalizing s t with
  | nil => cases h; exact ⟨t, rfl, hs⟩
  | cons he _ ih =>
      rw [List.foldlM_cons] at h
      cases h₁ : f s p _ with
      | error err => rw [h₁] at h; cases h
      | ok s₁ =>
          obtain ⟨t₁, ht₁, hs₁⟩ := hf _ _ _ _ _ _ hs he h₁
          rw [h₁] at h
          obtain ⟨t', ht', hs'⟩ := ih hs₁ h
          refine ⟨t', ?_, hs'⟩
          rw [List.foldlM_cons, ht₁]
          exact ht'

variable [DecidableEq P] {m : Machine P E W ε}

theorem SameWorld.update {s t : State P E W} (h : SameWorld R s t) (p : P)
    {o o' : Option (List E)} (ho : Option.Rel (List.Forall₂ R) o o') :
    SameWorld R { s with delayed := Function.update s.delayed p o }
      { t with delayed := Function.update t.delayed p o' } := by
  refine ⟨h.world, fun q => ?_⟩
  dsimp only
  by_cases hq : q = p
  · subst hq
    rw [Function.update_self, Function.update_self]
    exact ho
  · rw [Function.update_of_ne hq, Function.update_of_ne hq]
    exact h.delayed q

theorem replay_follows {f g : State P E W → P → E → Except (Fault ε) (State P E W)}
    (hf : Follows R f g) (c : P) {s t s' : State P E W} (hs : SameWorld R s t)
    (h : replay m f s c = .ok s') : ∃ t', replay m g t c = .ok t' ∧ SameWorld R s' t' := by
  have hd := hs.delayed c
  unfold replay at h ⊢
  rw [hs.world]
  cases hsd : s.delayed c with
  | none =>
      rw [hsd] at hd h
      cases h
      cases htd : t.delayed c with
      | none => exact ⟨t, rfl, hs⟩
      | some l' => rw [htd] at hd; cases hd
  | some l =>
      rw [hsd] at hd h
      cases htd : t.delayed c with
      | none => rw [htd] at hd; cases hd
      | some l' =>
          rw [htd] at hd
          have hl : List.Forall₂ R l l' := by cases hd; assumption
          dsimp only at h ⊢
          by_cases hk : m.known s.world c = true
          · rw [if_pos hk] at h ⊢
            cases hfold : l.foldlM (fun s e => f s c e) s with
            | error err => rw [hfold] at h; cases h
            | ok s₁ =>
                obtain ⟨t₁, ht₁, hs₁⟩ := foldlM_follows hf c hl hs hfold
                rw [hfold] at h
                cases h
                exact ⟨_, by rw [ht₁], hs₁.update c .none⟩
          · rw [if_neg hk] at h ⊢
            cases h
            exact ⟨t, rfl, hs⟩

theorem handleWith_follows (hm : Replaces m R)
    {f g : State P E W → P → E → Except (Fault ε) (State P E W)} (hf : Follows R f g) :
    Follows R (handleWith m f) (handleWith m g) := by
  intro s t s' p e e' hs he h
  unfold handleWith at h ⊢
  rw [hs.world, hm.announces he]
  cases hb : m.body s.world p e with
  | error err => rw [hb] at h; cases h
  | ok w =>
      rw [hb] at h
      rw [hm.body he hb]
      dsimp only at h ⊢
      cases ha : m.announces e with
      | none =>
          rw [ha] at h
          cases h
          exact ⟨_, rfl, hs.setWorld w⟩
      | some c =>
          rw [ha] at h
          exact replay_follows hf c (hs.setWorld w) h

theorem handle_follows (hm : Replaces m R) : ∀ depth, Follows R (handle m depth) (handle m depth)
  | 0 => handleWith_follows hm fun _ _ _ _ _ _ _ _ h => by cases h
  | depth + 1 => handleWith_follows hm (handle_follows hm depth)

theorem checked_follows (hm : Replaces m R) (depth : Nat) :
    Follows R (checked m depth) (checked m depth) := by
  intro s t s' p e e' hs he h
  unfold checked at h ⊢
  rw [hs.world]
  by_cases hk : m.known s.world p = true
  · rw [if_pos hk] at h ⊢
    exact handle_follows hm depth _ _ _ _ _ _ hs he h
  · rw [if_neg hk] at h ⊢
    have hd := hs.delayed p
    cases hsd : s.delayed p with
    | none =>
        rw [hsd] at h hd
        cases h
        cases htd : t.delayed p with
        | none => exact ⟨_, rfl, rfl, (hs.update p (.some (.cons he .nil))).delayed⟩
        | some l => rw [htd] at hd; cases hd
    | some l =>
        rw [hsd] at h hd
        cases h
        cases htd : t.delayed p with
        | none => rw [htd] at hd; cases hd
        | some l' =>
            rw [htd] at hd
            have hl : List.Forall₂ R l l' := by cases hd; assumption
            exact ⟨_, rfl, rfl, (hs.update p (.some (List.rel_append hl (.cons he .nil)))).delayed⟩

/-- **Replaced events.** -/
theorem run_replaced (hm : Replaces m R) {depth : Nat} {log log' : List (P × E)}
    (hlog : List.Forall₂ (fun x y => x.1 = y.1 ∧ R x.2 y.2) log log') {s t s' : State P E W}
    (hs : SameWorld R s t) (h : run m depth s log = .ok s') :
    ∃ t', run m depth t log' = .ok t' ∧ SameWorld R s' t' := by
  induction hlog generalizing s t with
  | nil => cases h; exact ⟨t, rfl, hs⟩
  | @cons x y _ _ hxy _ ih =>
      unfold run at h
      rw [List.foldlM_cons] at h
      cases h₁ : checked m depth s x.1 x.2 with
      | error err => rw [h₁] at h; cases h
      | ok s₁ =>
          obtain ⟨t₁, ht₁, hs₁⟩ := checked_follows hm depth _ _ _ _ _ _ hs hxy.2 h₁
          rw [h₁] at h
          obtain ⟨t', ht', hs'⟩ := ih hs₁ h
          refine ⟨t', ?_, hs'⟩
          unfold run
          rw [List.foldlM_cons, ← hxy.1, ht₁]
          exact ht'

end Buildsh.Generic
