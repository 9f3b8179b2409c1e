/-
  Computations with events and errors.

  An `Output` is a list of events and a value or an error; the events in front of an error are
  kept. `Output.only` forgets the events that do not matter: it is a homomorphism (`only_bind`),
  so that a program can be compared with a simpler one that has fewer events.
-/
import Mathlib.Data.List.Basic

namespace Buildsh.Generic

/-- The events of a computation, and how it ends. -/
@[ext] structure Output (E ε α : Type) where
  events : List E
  result : Except ε α

namespace Output

variable {E ε α β γ : Type}

instance : Monad (Output E ε) where
  pure a := ⟨[], .ok a⟩
  bind x f :=
    match x.result with
    | .error e => ⟨x.events, .error e⟩
    | .ok a => ⟨x.events ++ (f a).events, (f a).result⟩

/-- One event. -/
def emit (e : E) : Output E ε Unit := ⟨[e], .ok ()⟩

def raise (e : ε) : Output E ε α := ⟨[], .error e⟩

/-- These events in front of the others. -/
def after (l : List E) (x : Output E ε α) : Output E ε α := ⟨l ++ x.events, x.result⟩

theorem bind_eq (x : Output E ε α) (f : α → Output E ε β) :
    x >>= f = match x.result with
      | .error e => ⟨x.events, .error e⟩
      | .ok a => (f a).after x.events := rfl

@[simp] theorem pure_then (a : α) (f : α → Output E ε β) : (pure a >>= f) = f a := rfl

@[simp] theorem raise_then (e : ε) (f : α → Output E ε β) : (raise e >>= f) = raise e := rfl

@[simp] theorem emit_then (e : E) (f : Unit → Output E ε β) : (emit e >>= f) = (f ()).after [e] :=
  rfl

@[simp] theorem after_then (l : List E) (x : Output E ε α) (f : α → Output E ε β) :
    (x.after l >>= f) = (x >>= f).after l := by
  obtain ⟨events, result⟩ := x
  cases result with
  | error e => rfl
  | ok a => simp [bind_eq, after]

@[simp] theorem after_nil (x : Output E ε α) : x.after [] = x := rfl

@[simp] theorem events_after (l : List E) (x : Output E ε α) :
    (x.after l).events = l ++ x.events := rfl

@[simp] theorem result_after (l : List E) (x : Output E ε α) : (x.after l).result = x.result := rfl

theorem bind_then (x : Output E ε α) (f : α → Output E ε β) (g : β → Output E ε γ) :
    (x >>= f) >>= g = x >>= fun a => f a >>= g := by
  obtain ⟨events, result⟩ := x
  cases result with
  | error e => rfl
  | ok a => exact after_then events (f a) g

/-! ## Forgetting events -/

/-- Only the events with `p`. -/
def only (p : E → Bool) (x : Output E ε α) : Output E ε α := ⟨x.events.filter p, x.result⟩

section Only

variable (p : E → Bool)

@[simp] theorem only_pure (a : α) : (pure a : Output E ε α).only p = pure a := rfl

@[simp] theorem only_raise (e : ε) : (raise e : Output E ε α).only p = raise e := rfl

@[simp] theorem only_after (l : List E) (x : Output E ε α) :
    (x.after l).only p = (x.only p).after (l.filter p) := by
  simp [only, after]

theorem only_emit_of_pos {e : E} (h : p e = true) :
    (emit e : Output E ε Unit).only p = emit e := by
  simp [only, emit, h]

theorem only_emit_of_neg {e : E} (h : p e = false) :
    (emit e : Output E ε Unit).only p = pure () := by
  simp only [only, emit, List.filter_cons, h]
  rfl

@[simp] theorem only_bind (x : Output E ε α) (f : α → Output E ε β) :
    (x >>= f).only p = x.only p >>= fun a => (f a).only p := by
  obtain ⟨events, result⟩ := x
  cases result with
  | error e => rfl
  | ok a => exact only_after p events (f a)

@[simp] theorem result_only (x : Output E ε α) : (x.only p).result = x.result := rfl

/-- Events of one kind are all kept, if that kind is. -/
theorem filterMap_only {F : Type} (f : E → Option F) (h : ∀ e, (f e).isSome → p e = true)
    (x : Output E ε α) : (x.only p).events.filterMap f = x.events.filterMap f := by
  obtain ⟨events, result⟩ := x
  unfold only
  dsimp only
  induction events with
  | nil => rfl
  | cons e l ih =>
      cases hf : f e with
      | none =>
          rw [List.filterMap_cons_none hf]
          by_cases hp : p e = true
          · rw [List.filter_cons_of_pos hp, List.filterMap_cons_none hf, ih]
          · rw [List.filter_cons_of_neg hp, ih]
      | some b =>
          have hp : p e = true := h e (by rw [hf]; rfl)
          rw [List.filter_cons_of_pos hp, List.filterMap_cons_some hf, List.filterMap_cons_some hf,
            ih]

end Only

end Output

end Buildsh.Generic
