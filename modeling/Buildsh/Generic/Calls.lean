/-
  The calls of handlers in a run with a delay queue.

  `Calls` collects every call of a handler that a run makes, replays included, with the state it
  starts in and the number of replays that may still be nested in it. `run_ok_iff`: a run goes
  through exactly when every one of its calls does (`Call.Goes`), that is, when no body raises and
  no call has a replay to start where the nesting is used up.
-/
import Buildsh.Generic.DelayQueue

namespace Buildsh.Generic

variable {P E W ε : Type}

/-- A call of a handler. -/
structure Call (P E W : Type) where
  /-- how many replays may be nested in it -/
  depth : Nat
  state : State P E W
  agent : P
  event : E

section Calls

variable [DecidableEq P] (m : Machine P E W ε)

/-- The calls in the run of a log. -/
inductive Calls : Nat → State P E W → List (P × E) → Call P E W → Prop
  | head {d : Nat} {s : State P E W} {p : P} {e : E} {log : List (P × E)}
      (hp : m.known s.world p = true) : Calls d s ((p, e) :: log) ⟨d, s, p, e⟩
  /-- while `e` is handled, in the replay of the events of `c` -/
  | replayed {d : Nat} {s : State P E W} {p c : P} {e : E} {w : W} {pt : List E}
      {log : List (P × E)} {call : Call P E W} (hp : m.known s.world p = true)
      (hb : m.body s.world p e = .ok w) (ha : m.announces e = some c)
      (hq : s.delayed c = some pt) (hc : m.known w c = true)
      (h : Calls d { s with world := w } (pt.map fun e => (c, e)) call) :
      Calls (d + 1) s ((p, e) :: log) call
  | tail {d : Nat} {s s₁ : State P E W} {p : P} {e : E} {log : List (P × E)} {call : Call P E W}
      (h₁ : checked m d s p e = .ok s₁) (h : Calls d s₁ log call) :
      Calls d s ((p, e) :: log) call

/-- The body does not raise, and there is nothing to replay or the replay can be nested. -/
def Call.Goes (call : Call P E W) : Prop :=
  ∃ w, m.body call.state.world call.agent call.event = .ok w ∧
    ∀ c e pt, m.announces call.event = some c → call.state.delayed c = some (e :: pt) →
      m.known w c = true → 0 < call.depth

/-- No body makes an agent unknown. -/
def Machine.KeepsKnown : Prop := ∀ c, BodyKeeps m fun w => m.known w c = true

variable {m} {d : Nat} {s : State P E W} {p c : P} {e : E} {log : List (P × E)}

theorem run_cons (d : Nat) (s : State P E W) (p : P) (e : E) (log : List (P × E)) :
    run m d s ((p, e) :: log) =
      (checked m d s p e).bind fun s₁ => run m d s₁ log := by
  unfold run
  rw [List.foldlM_cons]
  rfl

/-- A replay is a run of the events of one agent. -/
theorem foldlM_eq_run (hm : m.KeepsKnown) (hc : m.known s.world c = true) (pt : List E) :
    pt.foldlM (fun s e => handle m d s c e) s = run m d s (pt.map fun e => (c, e)) := by
  induction pt generalizing s with
  | nil => rfl
  | cons e pt ih =>
      rw [List.foldlM_cons, List.map_cons, run_cons, checked_of_known hc]
      cases h : handle m d s c e with
      | error err => rfl
      | ok s₁ => exact ih (handle_keepsWorld (hm c) d _ _ _ _ hc h)

theorem replay_ok_iff {rec : State P E W → P → E → Except (Fault ε) (State P E W)} :
    (∃ s', replay m rec s c = .ok s') ↔
      ∀ pt, s.delayed c = some pt → m.known s.world c = true →
        ∃ s', pt.foldlM (fun s e => rec s c e) s = .ok s' := by
  unfold replay
  cases hq : s.delayed c with
  | none => simp
  | some pt =>
      by_cases hc : m.known s.world c = true
      · simp only [hc, if_true, Option.some.injEq, forall_eq', forall_true_left]
        cases pt.foldlM (fun s e => rec s c e) s <;> simp
      · simp [hc]

theorem handleWith_ok_iff {rec : State P E W → P → E → Except (Fault ε) (State P E W)} :
    (∃ s', handleWith m rec s p e = .ok s') ↔
      ∃ w, m.body s.world p e = .ok w ∧
        ∀ c, m.announces e = some c → ∃ s', replay m rec { s with world := w } c = .ok s' := by
  unfold handleWith
  cases m.body s.world p e with
  | error err => simp
  | ok w => cases m.announces e <;> simp

/-- A call with the nesting used up. -/
theorem handle_zero_ok_iff :
    (∃ s', handle m 0 s p e = .ok s') ↔ (⟨0, s, p, e⟩ : Call P E W).Goes m := by
  rw [handle, handleWith_ok_iff]
  refine exists_congr fun w => and_congr_right fun hb => ?_
  simp only [replay_ok_iff]
  constructor
  · intro h c e' pt ha hq hc
    obtain ⟨s', hs⟩ := h c ha (e' :: pt) hq hc
    cases hs
  · intro h c ha pt hq hc
    cases pt with
    | nil => exact ⟨_, rfl⟩
    | cons e' pt => exact absurd (h c e' pt ha hq hc) (Nat.lt_irrefl 0)

/-- A call that can nest a replay goes through if the replay does. -/
theorem handle_succ_ok_iff (hm : m.KeepsKnown) :
    (∃ s', handle m (d + 1) s p e = .ok s') ↔
      ∃ w, m.body s.world p e = .ok w ∧
        ∀ c pt, m.announces e = some c → s.delayed c = some pt → m.known w c = true →
          ∃ s', run m d { s with world := w } (pt.map fun e => (c, e)) = .ok s' := by
  rw [handle, handleWith_ok_iff]
  refine exists_congr fun w => and_congr_right fun hb => ?_
  simp only [replay_ok_iff]
  constructor
  · intro h c pt ha hq hc
    rw [← foldlM_eq_run hm hc]
    exact h c ha pt hq hc
  · intro h c ha pt hq hc
    rw [foldlM_eq_run hm hc]
    exact h c pt ha hq hc

/-- The run of a log goes through if its first event and the rest do. -/
theorem run_cons_ok_iff :
    (∃ s', run m d s ((p, e) :: log) = .ok s') ↔
      ∃ s₁, checked m d s p e = .ok s₁ ∧ ∃ s', run m d s₁ log = .ok s' := by
  rw [run_cons]
  cases checked m d s p e <;> simp [Except.bind]

theorem checked_ok_of_unknown (hp : m.known s.world p ≠ true) :
    ∃ s₁, checked m d s p e = .ok s₁ := by
  unfold checked
  rw [if_neg hp]
  cases s.delayed p <;> simp

theorem not_calls_nil {call : Call P E W} : ¬ Calls m d s [] call := fun h => by cases h

theorem calls_cons_iff {call : Call P E W} :
    Calls m d s ((p, e) :: log) call ↔
      Calls m d s [(p, e)] call ∨ ∃ s₁, checked m d s p e = .ok s₁ ∧ Calls m d s₁ log call := by
  constructor
  · intro h
    cases h with
    | head hp => exact Or.inl (.head hp)
    | replayed hp hb ha hq hc h => exact Or.inl (.replayed hp hb ha hq hc h)
    | tail h₁ h => exact Or.inr ⟨_, h₁, h⟩
  · rintro (h | ⟨s₁, h₁, h⟩)
    · cases h with
      | head hp => exact .head hp
      | replayed hp hb ha hq hc h => exact .replayed hp hb ha hq hc h
      | tail h₁ h => exact absurd h not_calls_nil
    · exact .tail h₁ h

/-- The events of a log go through if each does. -/
theorem run_ok_iff_of_checked
    (hstep : ∀ s p e, (∃ s₁, checked m d s p e = .ok s₁) ↔
      ∀ call, Calls m d s [(p, e)] call → call.Goes m) :
    (∃ s', run m d s log = .ok s') ↔ ∀ call, Calls m d s log call → call.Goes m := by
  induction log generalizing s with
  | nil => exact ⟨fun _ call h => absurd h not_calls_nil, fun _ => ⟨s, rfl⟩⟩
  | cons x log ih =>
      obtain ⟨p, e⟩ := x
      rw [run_cons_ok_iff]
      constructor
      · rintro ⟨s₁, h₁, hrest⟩ call hcall
        rcases calls_cons_iff.mp hcall with h | ⟨s₁', h₁', h⟩
        · exact (hstep s p e).mp ⟨s₁, h₁⟩ call h
        · rw [h₁] at h₁'
          cases h₁'
          exact ih.mp hrest call h
      · intro h
        obtain ⟨s₁, h₁⟩ := (hstep s p e).mpr fun call hcall =>
          h call (calls_cons_iff.mpr (Or.inl hcall))
        exact ⟨s₁, h₁, ih.mpr fun call hcall => h call (.tail h₁ hcall)⟩

/-- **Calls.** A run goes through exactly when all its calls do. -/
theorem run_ok_iff (hm : m.KeepsKnown) :
    (∃ s', run m d s log = .ok s') ↔ ∀ call, Calls m d s log call → call.Goes m := by
  induction d generalizing s log with
  | zero =>
      refine run_ok_iff_of_checked fun s p e => ?_
      by_cases hp : m.known s.world p = true
      · rw [checked_of_known hp, handle_zero_ok_iff]
        constructor
        · intro h call hcall
          cases hcall with
          | head hp => exact h
          | tail h₁ h => exact absurd h not_calls_nil
        · exact fun h => h _ (.head hp)
      · refine ⟨fun _ call hcall => ?_, fun _ => checked_ok_of_unknown hp⟩
        cases hcall with
        | head hp' => exact absurd hp' hp
        | tail h₁ h => exact absurd h not_calls_nil
  | succ d ih =>
      refine run_ok_iff_of_checked fun s p e => ?_
      by_cases hp : m.known s.world p = true
      · rw [checked_of_known hp, handle_succ_ok_iff hm]
        constructor
        · rintro ⟨w, hb, hreplay⟩ call hcall
          cases hcall with
          | head hp => exact ⟨w, hb, fun _ _ _ _ _ _ => Nat.succ_pos d⟩
          | replayed hp hb' ha hq hc h =>
              rw [hb] at hb'
              cases hb'
              exact ih.mp (hreplay _ _ ha hq hc) call h
          | tail h₁ h => exact absurd h not_calls_nil
        · intro h
          obtain ⟨w, hb, -⟩ := h _ (.head hp)
          exact ⟨w, hb, fun c pt ha hq hc =>
            ih.mpr fun call hcall => h call (.replayed hp hb ha hq hc hcall)⟩
      · refine ⟨fun _ call hcall => ?_, fun _ => checked_ok_of_unknown hp⟩
        cases hcall with
        | head hp' => exact absurd hp' hp
        | replayed hp' hb ha hq hc h => exact absurd hp' hp
        | tail h₁ h => exact absurd h not_calls_nil

end Calls

end Buildsh.Generic
