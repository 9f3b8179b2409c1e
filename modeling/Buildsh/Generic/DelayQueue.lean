/-
  Agents that log events before they are announced.

  A `Machine` runs one handler body for every event of an agent. Bodies run for known agents
  only; some events announce a new agent, which is known from then on. A log may carry events
  of an agent before the event that announces it, so `checked` parks the events of an unknown
  agent in `State.delayed`, and `replay` runs what was parked for an agent as soon as the body
  of its announcement has run. A replayed event may announce again, and the replay nests.

  `handle_spec` says what running one event of a known agent does, nested replays included:
  it is a run of bodies `X` (`Ran`) in which every agent's events keep their order, every agent
  is known before its first event, and the agents that became known have their queue replayed
  in full and emptied; or some body raised (`Stuck`). `run_spec` carries this along a log, and
  `run_tree` says that the log of a tree of agents leaves nothing parked. `run_avoids`: an agent
  that no event announces stays unknown.

  `depth` bounds the nesting of replays, as a call stack does; the bound needed is the number
  of announcements that are still outstanding.
-/
import Buildsh.Generic.EventLog
import Mathlib.Data.List.Induction
import Mathlib.Logic.Function.Basic

namespace Buildsh.Generic

/-- `raised e`: a handler body failed with `e`. `overflow`: replays nested too deeply. -/
inductive Fault (ε : Type) where
  | raised (e : ε)
  | overflow
  deriving DecidableEq, Repr

structure Machine (P E W ε : Type) where
  /-- The agents whose events are handled at once. -/
  known : W → P → Bool
  /-- The agent an event announces, if any. -/
  announces : E → Option P
  /-- What handling one event does, apart from replaying an announced agent. -/
  body : W → P → E → Except ε W

structure State (P E W : Type) where
  world : W
  /-- `delayed p`: the parked events of `p`, oldest first; `none` where nothing was parked. -/
  delayed : P → Option (List E)

variable {P E W ε : Type}

/-- A body makes the announced agent known and nothing else. -/
structure Machine.Lawful (m : Machine P E W ε) : Prop where
  known_body : ∀ {w w' : W} {p : P} {e : E}, m.known w p = true → m.body w p e = .ok w' →
    ∀ q, (m.known w' q = true ↔ m.known w q = true ∨ m.announces e = some q)

/-- Nothing parked. -/
def State.start (w : W) : State P E W := ⟨w, fun _ => none⟩

section Definitions

variable [DecidableEq P] (m : Machine P E W ε)

/-- Run the parked events of `c`, if it is known by now, and drop the queue. -/
def replay (rec : State P E W → P → E → Except (Fault ε) (State P E W))
    (s : State P E W) (c : P) : Except (Fault ε) (State P E W) :=
  match s.delayed c with
  | none => .ok s
  | some pt =>
      if m.known s.world c = true then
        match pt.foldlM (fun s e => rec s c e) s with
        | .error err => .error err
        | .ok s' => .ok { s' with delayed := Function.update s'.delayed c none }
      else .ok s

/-- The handler of event `e` of `p`: its body, then the replay of the agent it announces. -/
def handleWith (rec : State P E W → P → E → Except (Fault ε) (State P E W))
    (s : State P E W) (p : P) (e : E) : Except (Fault ε) (State P E W) :=
  match m.body s.world p e with
  | .error err => .error (.raised err)
  | .ok w =>
      match m.announces e with
      | none => .ok { s with world := w }
      | some c => replay m rec { s with world := w } c

/-- `handleWith`, with replays nested at most `depth` times. -/
def handle : Nat → State P E W → P → E → Except (Fault ε) (State P E W)
  | 0 => handleWith m (fun _ _ _ => .error .overflow)
  | depth + 1 => handleWith m (handle depth)

/-- Park the event of an unknown agent, handle the event of a known one. -/
def checked (depth : Nat) (s : State P E W) (p : P) (e : E) : Except (Fault ε) (State P E W) :=
  if m.known s.world p = true then handle m depth s p e
  else
    match s.delayed p with
    | none => .ok { s with delayed := Function.update s.delayed p (some [e]) }
    | some pt => .ok { s with delayed := Function.update s.delayed p (some (pt ++ [e])) }

/-- A whole log, in log order. -/
def run (depth : Nat) (s : State P E W) (log : List (P × E)) : Except (Fault ε) (State P E W) :=
  log.foldlM (fun s x => checked m depth s x.1 x.2) s

variable {m}

theorem checked_of_known {s : State P E W} {p : P} (h : m.known s.world p = true) (depth : Nat)
    (e : E) : checked m depth s p e = handle m depth s p e := if_pos h

theorem handle_of_not_announces {s : State P E W} {p : P} {e : E} {w : W}
    (hb : m.body s.world p e = .ok w) (ha : m.announces e = none) (depth : Nat) :
    handle m depth s p e = .ok { s with world := w } := by
  cases depth <;> simp only [handle, handleWith, hb, ha]

end Definitions

/-! ## Runs of bodies -/

section Bodies

variable (m : Machine P E W ε)

/-- The bodies of `l`, one after the other. -/
def bodies : List (P × E) → W → Except ε W
  | [], w => .ok w
  | x :: l, w =>
      match m.body w x.1 x.2 with
      | .error err => .error err
      | .ok w' => bodies l w'

@[simp] theorem bodies_nil (w : W) : bodies m [] w = .ok w := rfl

theorem bodies_cons_ok {x : P × E} {w w' : W} (h : m.body w x.1 x.2 = .ok w')
    (l : List (P × E)) : bodies m (x :: l) w = bodies m l w' := by
  simp only [bodies, h]

theorem bodies_singleton (x : P × E) (w : W) : bodies m [x] w = m.body w x.1 x.2 := by
  simp only [bodies]
  cases m.body w x.1 x.2 <;> rfl

theorem bodies_append_ok {l : List (P × E)} {w w₁ : W} (h : bodies m l w = .ok w₁)
    (r : List (P × E)) : bodies m (l ++ r) w = bodies m r w₁ := by
  induction l generalizing w with
  | nil => cases h; rfl
  | cons x l ih =>
      cases hb : m.body w x.1 x.2 with
      | error err => rw [bodies, hb] at h; cases h
      | ok w' =>
          rw [bodies_cons_ok m hb] at h
          rw [List.cons_append, bodies_cons_ok m hb, ih h]

/-- A run of bodies passes through a state at each of its splits. -/
theorem bodies_split {a b : List (P × E)} {w w₂ : W} (h : bodies m (a ++ b) w = .ok w₂) :
    ∃ w₁, bodies m a w = .ok w₁ ∧ bodies m b w₁ = .ok w₂ := by
  induction a generalizing w with
  | nil => exact ⟨w, rfl, h⟩
  | cons x a ih =>
      cases hb : m.body w x.1 x.2 with
      | error err => rw [List.cons_append, bodies, hb] at h; cases h
      | ok w' =>
          rw [List.cons_append, bodies_cons_ok m hb] at h
          obtain ⟨w₁, h₁, h₂⟩ := ih h
          exact ⟨w₁, by rw [bodies_cons_ok m hb]; exact h₁, h₂⟩

/-- After a run of bodies of known agents, the known agents are those known before and those
    announced by the run. -/
theorem known_bodies {m : Machine P E W ε} (hm : m.Lawful) {l : List (P × E)} {w w' : W}
    (hord : Ordered m.announces (fun p => m.known w p = true) l) (h : bodies m l w = .ok w') :
    ∀ q, m.known w' q = true ↔ m.known w q = true ∨ q ∈ announced m.announces l := by
  induction l using List.reverseRecOn generalizing w' with
  | nil => cases h; intro q; simp
  | append_singleton l x ih =>
      obtain ⟨w₁, h₁, h₂⟩ := bodies_split m h
      have ih₁ := ih (ordered_left m.announces hord) h₁
      rw [bodies_singleton] at h₂
      have hx : m.known w₁ x.1 = true := (ih₁ x.1).mpr (hord l x [] rfl)
      intro q
      rw [hm.known_body hx h₂ q, ih₁ q, announced_append, List.mem_append, or_assoc,
        mem_announced m.announces (l := [x])]
      simp

end Bodies

/-! ## What a handler does, replays included -/

section Spec

variable (m : Machine P E W ε)

/-- The agents known in `s`. -/
def Known (s : State P E W) (p : P) : Prop := m.known s.world p = true

/-- Every announcement in `l` is of a different, still unknown agent. -/
structure Fresh (s : State P E W) (l : List (P × E)) : Prop where
  nodup : (announced m.announces l).Nodup
  unknown : ∀ c ∈ announced m.announces l, ¬ Known m s c

theorem Fresh.sublist {m : Machine P E W ε} {s : State P E W} {l r : List (P × E)} (hf : Fresh m s r)
    (h : l.Sublist r) : Fresh m s l where
  nodup := hf.nodup.sublist (h.filterMap _)
  unknown c hc := hf.unknown c ((h.filterMap _).subset hc)

theorem Fresh.perm {m : Machine P E W ε} {s : State P E W} {l r : List (P × E)} (hf : Fresh m s r)
    (h : l.Perm r) : Fresh m s l where
  nodup := (announced_perm m.announces h).nodup_iff.mpr hf.nodup
  unknown c hc := hf.unknown c ((announced_perm m.announces h).mem_iff.mp hc)

variable [DecidableEq P]

/-- The queue of `q` when `Q` is what is parked. -/
def queueOf (q : P) (Q : List (P × E)) : Option (List E) :=
  if eventsOf q Q = [] then none else some (eventsOf q Q)

/-- `Q` is what is parked in `s`, in log order; only events of unknown agents are. -/
structure Parked (s : State P E W) (Q : List (P × E)) : Prop where
  unknown : ∀ x ∈ Q, ¬ Known m s x.1
  queue : ∀ q, ¬ Known m s q → s.delayed q = queueOf q Q

/-- What is left of `Q` once the agents known in `s` are replayed. -/
def stillParked (s : State P E W) (Q : List (P × E)) : List (P × E) :=
  Q.filter (fun x => !m.known s.world x.1)

/-- With `Q` parked, handling the events `work` of known agents led from `s` to `s'` by running
    the bodies of `X`. -/
structure Ran (s : State P E W) (Q work : List (P × E)) (s' : State P E W)
    (X : List (P × E)) : Prop where
  run : bodies m X s.world = .ok s'.world
  ordered : Ordered m.announces (Known m s) X
  direct : ∀ q, Known m s q → proj q X = proj q work
  replayed : ∀ q, ¬ Known m s q → Known m s' q → proj q X = proj q Q
  untouched : ∀ q, ¬ Known m s' q → proj q X = []
  keep_known : ∀ q, Known m s q → s'.delayed q = s.delayed q
  emptied : ∀ q, ¬ Known m s q → Known m s' q → s'.delayed q = none
  keep_parked : ∀ q, ¬ Known m s' q → s'.delayed q = s.delayed q

/-- With `Q` parked, handling `work` ended with a body that raised, after the bodies of `X`. -/
structure Stuck (s : State P E W) (Q work : List (P × E)) (err : ε) (X : List (P × E))
    (x : P × E) (w : W) : Prop where
  run : bodies m X s.world = .ok w
  raised : m.body w x.1 x.2 = .error err
  ordered : Ordered m.announces (Known m s) (X ++ [x])
  direct : ∀ q, Known m s q → proj q (X ++ [x]) <+: proj q work
  replayed : ∀ q, ¬ Known m s q → proj q (X ++ [x]) <+: proj q Q

variable {m}

theorem proj_stillParked_known {s : State P E W} {Q : List (P × E)} {q : P}
    (h : Known m s q) : proj q (stillParked m s Q) = [] := by
  refine proj_eq_nil fun x hx => ?_
  rintro rfl
  have := (List.mem_filter.mp hx).2
  rw [Known] at h
  simp [h] at this

theorem proj_stillParked_unknown {s : State P E W} {Q : List (P × E)} {q : P}
    (h : ¬ Known m s q) : proj q (stillParked m s Q) = proj q Q := by
  unfold proj stillParked
  rw [List.filter_filter]
  refine List.filter_congr fun x _ => ?_
  by_cases hx : x.1 = q
  · subst hx; simpa [Known] using h
  · simp [hx]

theorem proj_parked_known {s : State P E W} {Q : List (P × E)} (hQ : Parked m s Q) {q : P}
    (h : Known m s q) : proj q Q = [] :=
  proj_eq_nil fun x hx he => hQ.unknown x hx (by rw [he]; exact h)

theorem queueOf_congr {q : P} {Q Q' : List (P × E)} (h : proj q Q = proj q Q') :
    queueOf q Q = queueOf q Q' := by
  unfold queueOf eventsOf
  rw [h]

namespace Ran

variable {s s' s₂ : State P E W} {Q work work₂ X X₂ : List (P × E)}

theorem known_iff (hm : m.Lawful) (h : Ran m s Q work s' X) (q : P) :
    Known m s' q ↔ Known m s q ∨ q ∈ announced m.announces X :=
  known_bodies hm h.ordered h.run q

theorem known_mono (hm : m.Lawful) (h : Ran m s Q work s' X) {q : P} (hq : Known m s q) :
    Known m s' q := (h.known_iff hm q).mpr (Or.inl hq)

/-- What is parked afterwards. -/
theorem parked (hm : m.Lawful) (h : Ran m s Q work s' X) (hQ : Parked m s Q) :
    Parked m s' (stillParked m s' Q) where
  unknown x hx := by
    have := (List.mem_filter.mp hx).2
    simpa [Known] using this
  queue q hq := by
    have hq₀ : ¬ Known m s q := fun hk => hq (h.known_mono hm hk)
    rw [h.keep_parked q hq, hQ.queue q hq₀]
    exact queueOf_congr (proj_stillParked_unknown hq).symm

/-- The bodies run and the events still parked are the work and the events parked before. -/
theorem proj_eq (hm : m.Lawful) (h : Ran m s Q work s' X) (hQ : Parked m s Q)
    (hw : ∀ x ∈ work, Known m s x.1) (q : P) :
    proj q (X ++ stillParked m s' Q) = proj q (work ++ Q) := by
  rw [proj_append, proj_append]
  by_cases hq : Known m s q
  · rw [h.direct q hq, proj_parked_known hQ hq,
      proj_stillParked_known (h.known_mono hm hq)]
  · have hwq : proj q work = [] := proj_eq_nil fun x hx he => hq (he ▸ hw x hx)
    by_cases hq' : Known m s' q
    · rw [h.replayed q hq hq', proj_stillParked_known hq', hwq, List.append_nil,
        List.nil_append]
    · rw [h.untouched q hq', proj_stillParked_unknown hq', hwq]

/-- The announcements that are outstanding afterwards are of new, unknown agents again. -/
theorem fresh (hm : m.Lawful) (h : Ran m s Q work s' X) (hQ : Parked m s Q)
    (hw : ∀ x ∈ work, Known m s x.1) {R : List (P × E)} (hf : Fresh m s (work ++ Q ++ R)) :
    Fresh m s' (stillParked m s' Q ++ R) := by
  have hp : (X ++ stillParked m s' Q ++ R).Perm (work ++ Q ++ R) :=
    (perm_of_proj_eq (h.proj_eq hm hQ hw)).append_right R
  have hnd := (announced_perm m.announces hp).nodup_iff.mpr hf.nodup
  rw [List.append_assoc, announced_append] at hnd
  refine ⟨(List.nodup_append.mp hnd).2.1, fun c hc hk => ?_⟩
  have hc' : c ∈ announced m.announces (X ++ stillParked m s' Q ++ R) := by
    rw [List.append_assoc, announced_append]
    exact List.mem_append_right _ hc
  rcases (h.known_iff hm c).mp hk with hk | hk
  · exact hf.unknown c ((announced_perm m.announces hp).mem_iff.mp hc') hk
  · exact (List.nodup_append.mp hnd).2.2 c hk c hc rfl

theorem refl (s : State P E W) (Q : List (P × E)) : Ran m s Q [] s [] where
  run := rfl
  ordered := ordered_nil _ _
  direct _ _ := rfl
  replayed _ h h' := absurd h' h
  untouched _ _ := rfl
  keep_known _ _ := rfl
  emptied _ h h' := absurd h' h
  keep_parked _ _ := rfl

theorem trans (hm : m.Lawful) (h : Ran m s Q work s' X)
    (h₂ : Ran m s' (stillParked m s' Q) work₂ s₂ X₂) (hw₂ : ∀ x ∈ work₂, Known m s x.1) :
    Ran m s Q (work ++ work₂) s₂ (X ++ X₂) where
  run := by rw [bodies_append_ok m h.run]; exact h₂.run
  ordered := ordered_append _ h.ordered h₂.ordered fun q hq => (h.known_iff hm q).mp hq
  direct q hq := by
    rw [proj_append, proj_append, h.direct q hq, h₂.direct q (h.known_mono hm hq)]
  replayed q hq hq₂ := by
    have hwq : proj q work₂ = [] := proj_eq_nil fun x hx he => hq (he ▸ hw₂ x hx)
    rw [proj_append]
    by_cases hq' : Known m s' q
    · rw [h.replayed q hq hq', h₂.direct q hq', hwq, List.append_nil]
    · rw [h.untouched q hq', h₂.replayed q hq' hq₂, proj_stillParked_unknown hq',
        List.nil_append]
  untouched q hq₂ := by
    have hq' : ¬ Known m s' q := fun hk => hq₂ (h₂.known_mono hm hk)
    rw [proj_append, h.untouched q hq', h₂.untouched q hq₂, List.nil_append]
  keep_known q hq := by rw [h₂.keep_known q (h.known_mono hm hq), h.keep_known q hq]
  emptied q hq hq₂ := by
    by_cases hq' : Known m s' q
    · rw [h₂.keep_known q hq', h.emptied q hq hq']
    · exact h₂.emptied q hq' hq₂
  keep_parked q hq₂ := by
    rw [h₂.keep_parked q hq₂, h.keep_parked q fun hk => hq₂ (h₂.known_mono hm hk)]

/-- After `h`, work that gets stuck makes the whole work get stuck. -/
theorem stuck (hm : m.Lawful) (h : Ran m s Q work s' X) {err : ε} {x : P × E} {w : W}
    (h₂ : Stuck m s' (stillParked m s' Q) work₂ err X₂ x w)
    (hw₂ : ∀ x ∈ work₂, Known m s x.1) :
    Stuck m s Q (work ++ work₂) err (X ++ X₂) x w where
  run := by rw [bodies_append_ok m h.run]; exact h₂.run
  raised := h₂.raised
  ordered := by
    rw [List.append_assoc]
    exact ordered_append _ h.ordered h₂.ordered fun q hq => (h.known_iff hm q).mp hq
  direct q hq := by
    rw [List.append_assoc, proj_append q X, proj_append q work, h.direct q hq]
    exact (List.prefix_append_right_inj _).mpr (h₂.direct q (h.known_mono hm hq))
  replayed q hq := by
    have hwq : proj q work₂ = [] := proj_eq_nil fun x hx he => hq (he ▸ hw₂ x hx)
    rw [List.append_assoc, proj_append q X]
    by_cases hq' : Known m s' q
    · have hn := h₂.direct q hq'
      rw [hwq, List.prefix_nil] at hn
      rw [h.replayed q hq hq', hn]
      simp
    · have hp := h₂.replayed q hq'
      rw [proj_stillParked_unknown hq'] at hp
      rw [h.untouched q hq', List.nil_append]
      exact hp

end Ran

/-- Handling `work` either went through or got stuck in a body; it did not overflow. -/
def Outcome (m : Machine P E W ε) (s : State P E W) (Q work : List (P × E))
    (r : Except (Fault ε) (State P E W)) : Prop :=
  (∃ s' X, r = .ok s' ∧ Ran m s Q work s' X) ∨
    (∃ err X x w, r = .error (.raised err) ∧ Stuck m s Q work err X x w)

section Announcement

variable {s : State P E W} {Q : List (P × E)} {p c : P} {e : E} {w₁ : W}

omit [DecidableEq P] in
/-- The announced agent is all that is new. -/
theorem known_announce (hm : m.Lawful) (hp : Known m s p) (hb : m.body s.world p e = .ok w₁)
    (ha : m.announces e = some c) (q : P) : m.known w₁ q = true ↔ Known m s q ∨ q = c := by
  rw [hm.known_body hp hb q, ha, Option.some.injEq, eq_comm (a := c)]
  rfl

omit [DecidableEq P] in
theorem ordered_announce (hm : m.Lawful) (hp : Known m s p) (hb : m.body s.world p e = .ok w₁)
    (ha : m.announces e = some c) {X : List (P × E)}
    (h : Ordered m.announces (Known m { s with world := w₁ }) X) :
    Ordered m.announces (Known m s) ((p, e) :: X) := by
  refine ordered_append m.announces (l := [(p, e)]) (ordered_singleton _ hp) h ?_
  intro q hq
  rcases (known_announce hm hp hb ha q).mp hq with hq | hq
  · exact Or.inl hq
  · exact Or.inr ((mem_announced m.announces).mpr ⟨_, List.mem_cons_self, by rw [ha, hq]⟩)

/-- The events parked for the announced agent, and the rest. -/
theorem parked_split (hm : m.Lawful) (hQ : Parked m s Q) (hp : Known m s p)
    (hb : m.body s.world p e = .ok w₁) (ha : m.announces e = some c) :
    stillParked m { s with world := w₁ } Q = Q.filter (fun x => !decide (x.1 = c)) := by
  refine List.filter_congr fun x hx => ?_
  have hk := hm.known_body hp hb x.1
  have hu : ¬ m.known s.world x.1 = true := hQ.unknown x hx
  by_cases hxc : x.1 = c
  · have : m.known w₁ x.1 = true := hk.mpr (Or.inr (by rw [ha, hxc]))
    rw [hxc] at this ⊢
    simp [this]
  · have : ¬ m.known w₁ x.1 = true := fun h => by
      rcases hk.mp h with h | h
      · exact hu h
      · rw [ha, Option.some.injEq] at h; exact hxc h.symm
    simp [this, hxc]

theorem parked_announce (hm : m.Lawful) (hQ : Parked m s Q) (hp : Known m s p)
    (hb : m.body s.world p e = .ok w₁) :
    Parked m { s with world := w₁ } (stillParked m { s with world := w₁ } Q) where
  unknown x hx := by
    have := (List.mem_filter.mp hx).2
    simpa [Known] using this
  queue q hq := by
    have hq₀ : ¬ Known m s q := fun hk => hq ((hm.known_body hp hb q).mpr (Or.inl hk))
    rw [queueOf_congr (proj_stillParked_unknown hq)]
    exact hQ.queue q hq₀

theorem fresh_announce (hm : m.Lawful) (hQ : Parked m s Q) (hp : Known m s p)
    (hb : m.body s.world p e = .ok w₁) (ha : m.announces e = some c)
    (hf : Fresh m s ((p, e) :: Q)) :
    Fresh m { s with world := w₁ } (proj c Q ++ stillParked m { s with world := w₁ } Q) := by
  have hperm : (proj c Q ++ stillParked m { s with world := w₁ } Q).Perm Q := by
    rw [parked_split hm hQ hp hb ha]
    exact List.filter_append_perm _ Q
  have hnd := hf.nodup
  rw [announced_cons_some m.announces ha] at hnd
  refine Fresh.perm ⟨(List.nodup_cons.mp hnd).2, fun q hq hk => ?_⟩ hperm
  rcases (hm.known_body hp hb q).mp hk with hk | hk
  · exact hf.unknown q (by
      rw [announced_cons_some m.announces ha]; exact List.mem_cons_of_mem _ hq) hk
  · rw [ha, Option.some.injEq] at hk
    exact (List.nodup_cons.mp hnd).1 (hk ▸ hq)

/-- The body of an announcement, then the replay of what was parked for the new agent. -/
theorem ran_announce (hm : m.Lawful) (hp : Known m s p)
    (hc : ¬ Known m s c) (hb : m.body s.world p e = .ok w₁) (ha : m.announces e = some c)
    {s₂ : State P E W} {X₂ : List (P × E)}
    (h : Ran m { s with world := w₁ } (stillParked m { s with world := w₁ } Q) (proj c Q) s₂ X₂) :
    Ran m s Q [(p, e)] { s₂ with delayed := Function.update s₂.delayed c none }
      ((p, e) :: X₂) := by
  have hk := known_announce hm hp hb ha
  have hpc : p ≠ c := fun he => hc (he ▸ hp)
  have hmono : ∀ q, Known m s q → Known m s₂ q := fun q hq =>
    h.known_mono hm (show m.known w₁ q = true from (hk q).mpr (Or.inl hq))
  have hc₂ : Known m s₂ c :=
    h.known_mono hm (show m.known w₁ c = true from (hk c).mpr (Or.inr rfl))
  have hproj : ∀ q, proj q ((p, e) :: X₂) = proj q [(p, e)] ++ proj q X₂ :=
    fun q => proj_cons q _ _
  refine ⟨?_, ?_, ?_, ?_, ?_, ?_, ?_, ?_⟩
  · exact (bodies_cons_ok m hb X₂).trans h.run
  · exact ordered_announce hm hp hb ha h.ordered
  · intro q hq
    have hqc : c ≠ q := fun he => hc (he ▸ hq)
    rw [hproj q, h.direct q ((hk q).mpr (Or.inl hq)), proj_proj_ne hqc, List.append_nil]
  · intro q hq hq₂
    have hpq : proj q [(p, e)] = [] := proj_singleton_ne fun he => hq (he ▸ hp)
    rw [hproj q, hpq, List.nil_append]
    by_cases hqc : q = c
    · rw [hqc, h.direct c ((hk c).mpr (Or.inr rfl)), proj_proj_self]
    · have hq₁ : ¬ Known m { s with world := w₁ } q := fun hq₁ =>
        ((hk q).mp hq₁).elim hq hqc
      rw [h.replayed q hq₁ hq₂, proj_stillParked_unknown hq₁]
  · intro q hq₂
    have hpq : proj q [(p, e)] = [] :=
      proj_singleton_ne fun he => hq₂ (hmono q (he ▸ hp))
    rw [hproj q, hpq, h.untouched q hq₂]
    rfl
  · intro q hq
    have hqc : q ≠ c := fun he => hc (he ▸ hq)
    refine (Function.update_of_ne hqc _ _).trans ?_
    exact h.keep_known q ((hk q).mpr (Or.inl hq))
  · intro q hq hq₂
    by_cases hqc : q = c
    · rw [hqc]
      exact Function.update_self ..
    · refine (Function.update_of_ne hqc _ _).trans ?_
      exact h.emptied q (fun hq₁ => ((hk q).mp hq₁).elim hq hqc) hq₂
  · intro q hq₂
    have hqc : q ≠ c := fun he => hq₂ (he ▸ hc₂)
    refine (Function.update_of_ne hqc _ _).trans ?_
    exact h.keep_parked q hq₂

theorem stuck_announce (hm : m.Lawful) (hp : Known m s p)
    (hc : ¬ Known m s c) (hb : m.body s.world p e = .ok w₁) (ha : m.announces e = some c)
    {err : ε} {X₂ : List (P × E)} {x : P × E} {w : W}
    (h : Stuck m { s with world := w₁ } (stillParked m { s with world := w₁ } Q) (proj c Q)
      err X₂ x w) :
    Stuck m s Q [(p, e)] err ((p, e) :: X₂) x w := by
  have hk := known_announce hm hp hb ha
  have hproj : ∀ q, proj q ((p, e) :: X₂ ++ [x]) = proj q [(p, e)] ++ proj q (X₂ ++ [x]) :=
    fun q => proj_cons q _ _
  refine ⟨?_, h.raised, ?_, ?_, ?_⟩
  · exact (bodies_cons_ok m hb X₂).trans h.run
  · exact ordered_announce hm hp hb ha h.ordered
  · intro q hq
    have hqc : c ≠ q := fun he => hc (he ▸ hq)
    have hn := h.direct q ((hk q).mpr (Or.inl hq))
    rw [proj_proj_ne hqc, List.prefix_nil] at hn
    rw [hproj q, hn]
    simp
  · intro q hq
    have hpq : proj q [(p, e)] = [] := proj_singleton_ne fun he => hq (he ▸ hp)
    rw [hproj q, hpq, List.nil_append]
    by_cases hqc : q = c
    · have hd := h.direct c ((hk c).mpr (Or.inr rfl))
      rw [proj_proj_self] at hd
      rw [hqc]
      exact hd
    · have hq₁ : ¬ Known m { s with world := w₁ } q := fun hq₁ =>
        ((hk q).mp hq₁).elim hq hqc
      have hr := h.replayed q hq₁
      rw [proj_stillParked_unknown hq₁] at hr
      exact hr

end Announcement

theorem outcome_of_raise {s : State P E W} {Q : List (P × E)} {p : P} {e : E} {err : ε}
    (hp : Known m s p) (hb : m.body s.world p e = .error err) :
    Stuck m s Q [(p, e)] err [] (p, e) s.world where
  run := rfl
  raised := hb
  ordered := ordered_singleton _ hp
  direct _ _ := List.prefix_refl _
  replayed q hq := by
    have hpq : p ≠ q := fun he => hq (he ▸ hp)
    rw [List.nil_append, proj_singleton_ne hpq]
    exact List.nil_prefix

theorem ran_plain (hm : m.Lawful) {s : State P E W} {Q : List (P × E)} {p : P} {e : E} {w₁ : W}
    (hp : Known m s p) (hb : m.body s.world p e = .ok w₁) (ha : m.announces e = none) :
    Ran m s Q [(p, e)] { s with world := w₁ } [(p, e)] := by
  have hk : ∀ q, m.known w₁ q = true ↔ Known m s q := by
    intro q
    rw [hm.known_body hp hb q, ha]
    simp [Known]
  refine ⟨?_, ordered_singleton _ hp, fun _ _ => rfl, ?_, ?_, fun _ _ => rfl, ?_, fun _ _ => rfl⟩
  · exact (bodies_singleton m (p, e) s.world).trans hb
  · exact fun q hq hq₁ => absurd ((hk q).mp hq₁) hq
  · exact fun q hq₁ => proj_singleton_ne fun he => hq₁ ((hk q).mpr (he ▸ hp))
  · exact fun q hq hq₁ => absurd ((hk q).mp hq₁) hq

section Nesting

variable {rec : State P E W → P → E → Except (Fault ε) (State P E W)} {d : Nat}

/-- `rec` handles one event whenever at most `d` announcements are outstanding. -/
def HandlesUpTo (m : Machine P E W ε)
    (rec : State P E W → P → E → Except (Fault ε) (State P E W)) (d : Nat) : Prop :=
  ∀ s Q p e, Parked m s Q → Known m s p → Fresh m s ((p, e) :: Q) →
    (announced m.announces ((p, e) :: Q)).length ≤ d → Outcome m s Q [(p, e)] (rec s p e)

/-- The loop of a replay. -/
theorem loop_spec (hm : m.Lawful) (hrec : HandlesUpTo m rec d) (c : P) :
    ∀ (pt : List (P × E)) (s : State P E W) (Q : List (P × E)), (∀ x ∈ pt, x.1 = c) →
      Parked m s Q → Known m s c → Fresh m s (pt ++ Q) →
      (announced m.announces (pt ++ Q)).length ≤ d →
      Outcome m s Q pt ((pt.map Prod.snd).foldlM (fun s e => rec s c e) s)
  | [], s, Q, _, _, _, _, _ => Or.inl ⟨s, [], rfl, Ran.refl s Q⟩
  | (p, e) :: pt, s, Q, hpt, hQ, hc, hf, hd => by
      obtain rfl : p = c := hpt _ List.mem_cons_self
      have hsub : ((p, e) :: Q).Sublist ((p, e) :: pt ++ Q) :=
        (List.sublist_append_right pt Q).cons_cons _
      have hpt' : ∀ x ∈ pt, x.1 = p := fun x hx => hpt x (List.mem_cons_of_mem _ hx)
      have hd₁ := Nat.le_trans (hsub.filterMap (fun x => m.announces x.2)).length_le hd
      rw [List.map_cons, List.foldlM_cons]
      rcases hrec s Q p e hQ hc (hf.sublist hsub) hd₁ with
        ⟨s₁, X₁, hr, hran⟩ | ⟨err, X, x, w, hr, hst⟩
      · rw [hr]
        have hf₁ : Fresh m s₁ (pt ++ stillParked m s₁ Q) := by
          refine (hran.fresh hm hQ (R := pt) ?_ ?_).perm List.perm_append_comm
          · intro x hx; rw [List.mem_singleton.mp hx]; exact hc
          · exact hf.perm (List.Perm.cons _ List.perm_append_comm)
        have hsub₁ : (pt ++ stillParked m s₁ Q).Sublist ((p, e) :: pt ++ Q) :=
          List.Sublist.cons _ ((List.Sublist.refl pt).append List.filter_sublist)
        have hd₂ := Nat.le_trans (hsub₁.filterMap (fun x => m.announces x.2)).length_le hd
        have hwk : ∀ x ∈ pt, Known m s x.1 := fun x hx => by rw [hpt' x hx]; exact hc
        rcases loop_spec hm hrec p pt s₁ (stillParked m s₁ Q) hpt' (hran.parked hm hQ)
            (hran.known_mono hm hc) hf₁ hd₂ with
          ⟨s₂, X₂, hr₂, hran₂⟩ | ⟨err, X, x, w, hr₂, hst₂⟩
        · exact Or.inl ⟨s₂, X₁ ++ X₂, hr₂, hran.trans hm hran₂ hwk⟩
        · exact Or.inr ⟨err, X₁ ++ X, x, w, hr₂, hran.stuck hm hst₂ hwk⟩
      · rw [hr]
        refine Or.inr ⟨err, X, x, w, rfl, hst.run, hst.raised, hst.ordered, ?_, hst.replayed⟩
        intro q hq
        exact (hst.direct q hq).trans (by rw [proj_cons q (p, e) pt]; exact List.prefix_append _ _)

theorem handleWith_announce (hm : m.Lawful) (hrec : HandlesUpTo m rec d) {s : State P E W}
    {Q : List (P × E)} {p c : P} {e : E} {w₁ : W} (hQ : Parked m s Q) (hp : Known m s p)
    (hf : Fresh m s ((p, e) :: Q))
    (hd : (announced m.announces ((p, e) :: Q)).length ≤ d + 1)
    (hb : m.body s.world p e = .ok w₁) (ha : m.announces e = some c) :
    Outcome m s Q [(p, e)] (replay m rec { s with world := w₁ } c) := by
  have hc : ¬ Known m s c :=
    hf.unknown c (by rw [announced_cons_some m.announces ha]; exact List.mem_cons_self)
  have hk₁ : Known m { s with world := w₁ } c := (hm.known_body hp hb c).mpr (Or.inr ha)
  have hqueue : s.delayed c = queueOf c Q := hQ.queue c hc
  unfold replay
  by_cases hnil : eventsOf c Q = []
  · have hnone : s.delayed c = none := by rw [hqueue, queueOf, if_pos hnil]
    have hproj : proj c Q = [] := List.map_eq_nil_iff.mp hnil
    have hrefl : Ran m { s with world := w₁ } (stillParked m { s with world := w₁ } Q)
        (proj c Q) { s with world := w₁ } [] := by
      rw [hproj]
      exact Ran.refl _ _
    have hran := ran_announce hm hp hc hb ha hrefl
    have hdel : Function.update s.delayed c none = s.delayed := by
      rw [← hnone, Function.update_eq_self]
    simp only [hnone]
    simp only [hdel] at hran
    exact Or.inl ⟨_, _, rfl, hran⟩
  · have hsome : s.delayed c = some (eventsOf c Q) := by rw [hqueue, queueOf, if_neg hnil]
    have hf₁ := fresh_announce hm hQ hp hb ha hf
    have hlen : (announced m.announces
        (proj c Q ++ stillParked m { s with world := w₁ } Q)).length ≤ d := by
      have hperm : (proj c Q ++ stillParked m { s with world := w₁ } Q).Perm Q := by
        rw [parked_split hm hQ hp hb ha]
        exact List.filter_append_perm _ Q
      rw [(announced_perm m.announces hperm).length_eq]
      rw [announced_cons_some m.announces ha, List.length_cons] at hd
      omega
    have hk₁' : m.known w₁ c = true := hk₁
    simp only [hsome, hk₁', if_true]
    rcases loop_spec hm hrec c (proj c Q) { s with world := w₁ } _
        (fun x hx => (mem_proj.mp hx).2) (parked_announce hm hQ hp hb) hk₁ hf₁ hlen with
      ⟨s₂, X₂, hr₂, hran₂⟩ | ⟨err, X, x, w, hr₂, hst₂⟩
    · rw [show eventsOf c Q = (proj c Q).map Prod.snd from rfl, hr₂]
      exact Or.inl ⟨_, _, rfl, ran_announce hm hp hc hb ha hran₂⟩
    · rw [show eventsOf c Q = (proj c Q).map Prod.snd from rfl, hr₂]
      exact Or.inr ⟨err, _, x, w, rfl, stuck_announce hm hp hc hb ha hst₂⟩

end Nesting

/-- **One event of a known agent.** With enough `depth` for the outstanding announcements the
    handler either goes through, replays included, or some body raises. -/
theorem handle_spec (hm : m.Lawful) : ∀ depth, HandlesUpTo m (handle m depth) depth
  | 0, s, Q, p, e, _, hp, _, hd => by
      have ha : m.announces e = none := by
        cases ha : m.announces e with
        | none => rfl
        | some c => rw [announced_cons_some m.announces ha] at hd; simp at hd
      unfold handle handleWith
      cases hb : m.body s.world p e with
      | error err => exact Or.inr ⟨err, [], (p, e), s.world, rfl, outcome_of_raise hp hb⟩
      | ok w₁ =>
          simp only [ha]
          exact Or.inl ⟨_, _, rfl, ran_plain hm hp hb ha⟩
  | depth + 1, s, Q, p, e, hQ, hp, hf, hd => by
      unfold handle handleWith
      cases hb : m.body s.world p e with
      | error err => exact Or.inr ⟨err, [], (p, e), s.world, rfl, outcome_of_raise hp hb⟩
      | ok w₁ =>
          cases ha : m.announces e with
          | none => exact Or.inl ⟨_, _, rfl, ran_plain hm hp hb ha⟩
          | some c => exact handleWith_announce hm (handle_spec hm depth) hQ hp hf hd hb ha

/-! ## Whole logs -/

/-- With `Q` parked, the log `log` led from `s` to `s'` by running the bodies of `X`, and `Q'`
    is parked at the end. -/
structure Processed (m : Machine P E W ε) (s : State P E W) (Q log : List (P × E))
    (s' : State P E W) (X Q' : List (P × E)) : Prop where
  run : bodies m X s.world = .ok s'.world
  ordered : Ordered m.announces (Known m s) X
  parked : Parked m s' Q'
  order : ∀ q, proj q (X ++ Q') = proj q (Q ++ log)
  keep_known : ∀ q, Known m s q → s'.delayed q = s.delayed q
  emptied : ∀ q, ¬ Known m s q → Known m s' q → s'.delayed q = none

/-- With `Q` parked, a body raised on the way through `log`. -/
structure Failed (m : Machine P E W ε) (s : State P E W) (Q log : List (P × E)) (err : ε)
    (X : List (P × E)) (x : P × E) (w : W) : Prop where
  run : bodies m X s.world = .ok w
  raised : m.body w x.1 x.2 = .error err
  ordered : Ordered m.announces (Known m s) (X ++ [x])
  order : ∀ q, proj q (X ++ [x]) <+: proj q (Q ++ log)

theorem queueOf_snoc_self (x : P × E) (Q : List (P × E)) :
    queueOf x.1 (Q ++ [x]) = some (eventsOf x.1 Q ++ [x.2]) := by
  have h : eventsOf x.1 (Q ++ [x]) = eventsOf x.1 Q ++ [x.2] := by
    unfold eventsOf
    rw [proj_append, proj_singleton_self, List.map_append]
    rfl
  unfold queueOf
  rw [h, if_neg (by simp)]

/-- Parking an event. -/
theorem parked_park {s : State P E W} {Q : List (P × E)} (hQ : Parked m s Q) {x : P × E}
    (hx : ¬ Known m s x.1) :
    Parked m { s with delayed := Function.update s.delayed x.1 (some (eventsOf x.1 Q ++ [x.2])) }
      (Q ++ [x]) where
  unknown y hy := by
    rcases List.mem_append.mp hy with hy | hy
    · exact hQ.unknown y hy
    · rw [List.mem_singleton.mp hy]; exact hx
  queue q hq := by
    by_cases hqx : q = x.1
    · subst hqx
      rw [queueOf_snoc_self]
      exact Function.update_self ..
    · have hproj : proj q (Q ++ [x]) = proj q Q := by
        rw [proj_append, proj_singleton_ne (Ne.symm hqx), List.append_nil]
      rw [queueOf_congr hproj]
      exact (Function.update_of_ne hqx _ _).trans (hQ.queue q hq)

theorem checked_unknown (depth : Nat) {s : State P E W} {Q : List (P × E)} (hQ : Parked m s Q)
    {x : P × E} (hx : ¬ Known m s x.1) :
    checked m depth s x.1 x.2 =
      .ok { s with delayed := Function.update s.delayed x.1 (some (eventsOf x.1 Q ++ [x.2])) } := by
  have hx' : ¬ m.known s.world x.1 = true := hx
  unfold checked
  rw [if_neg hx', hQ.queue x.1 hx, queueOf]
  by_cases hnil : eventsOf x.1 Q = []
  · rw [if_pos hnil, hnil]; rfl
  · rw [if_neg hnil]

section Composition

variable {s s₁ s₂ : State P E W} {Q Q₂ X₁ X₂ log : List (P × E)} {x : P × E}

theorem proj_after (hm : m.Lawful) (hQ : Parked m s Q) (hx : Known m s x.1)
    (hran : Ran m s Q [x] s₁ X₁) (q : P) :
    proj q X₁ ++ proj q (stillParked m s₁ Q ++ log) = proj q (Q ++ x :: log) := by
  have hwk : ∀ y ∈ [x], Known m s y.1 := fun y hy => by
    rw [List.mem_singleton.mp hy]; exact hx
  have he := hran.proj_eq hm hQ hwk q
  rw [proj_append, proj_append] at he
  rw [proj_append, ← List.append_assoc, he, proj_append q Q, proj_cons q x log]
  by_cases hq : x.1 = q
  · rw [← hq, proj_parked_known hQ hx, List.append_nil, List.nil_append]
  · rw [proj_singleton_ne hq, List.nil_append, List.nil_append]

/-- An event of a known agent, then the rest of the log. -/
theorem processed_after (hm : m.Lawful) (hQ : Parked m s Q) (hx : Known m s x.1)
    (hran : Ran m s Q [x] s₁ X₁)
    (h : Processed m s₁ (stillParked m s₁ Q) log s₂ X₂ Q₂) :
    Processed m s Q (x :: log) s₂ (X₁ ++ X₂) Q₂ where
  run := by rw [bodies_append_ok m hran.run]; exact h.run
  ordered := ordered_append _ hran.ordered h.ordered fun q hq => (hran.known_iff hm q).mp hq
  parked := h.parked
  order q := by
    rw [List.append_assoc, proj_append q X₁, h.order q]
    exact proj_after hm hQ hx hran q
  keep_known q hq := by rw [h.keep_known q (hran.known_mono hm hq), hran.keep_known q hq]
  emptied q hq hq₂ := by
    by_cases hq₁ : Known m s₁ q
    · rw [h.keep_known q hq₁, hran.emptied q hq hq₁]
    · exact h.emptied q hq₁ hq₂

theorem failed_after (hm : m.Lawful) (hQ : Parked m s Q) (hx : Known m s x.1)
    (hran : Ran m s Q [x] s₁ X₁) {err : ε} {X : List (P × E)} {y : P × E} {w : W}
    (h : Failed m s₁ (stillParked m s₁ Q) log err X y w) :
    Failed m s Q (x :: log) err (X₁ ++ X) y w where
  run := by rw [bodies_append_ok m hran.run]; exact h.run
  raised := h.raised
  ordered := by
    rw [List.append_assoc]
    exact ordered_append _ hran.ordered h.ordered fun q hq => (hran.known_iff hm q).mp hq
  order q := by
    rw [List.append_assoc, proj_append q X₁, ← proj_after hm hQ hx hran q]
    exact (List.prefix_append_right_inj _).mpr (h.order q)

theorem failed_of_stuck (hQ : Parked m s Q) {err : ε} {X : List (P × E)} {y : P × E} {w : W}
    (h : Stuck m s Q [x] err X y w) : Failed m s Q (x :: log) err X y w where
  run := h.run
  raised := h.raised
  ordered := h.ordered
  order q := by
    rw [proj_append q Q, proj_cons q x log]
    by_cases hq : Known m s q
    · rw [proj_parked_known hQ hq, List.nil_append]
      exact (h.direct q hq).trans (List.prefix_append _ _)
    · exact (h.replayed q hq).trans (List.prefix_append _ _)

end Composition

/-- **A log.** With enough `depth` a log goes through, or some body raises. -/
theorem run_spec (hm : m.Lawful) (depth : Nat) :
    ∀ (log : List (P × E)) (s : State P E W) (Q : List (P × E)), Parked m s Q →
      Fresh m s (Q ++ log) → (announced m.announces (Q ++ log)).length ≤ depth →
      (∃ s' X Q', run m depth s log = .ok s' ∧ Processed m s Q log s' X Q') ∨
        (∃ err X x w, run m depth s log = .error (.raised err) ∧ Failed m s Q log err X x w)
  | [], s, Q, hQ, _, _ =>
      Or.inl ⟨s, [], Q, rfl, rfl, ordered_nil _ _, hQ, fun q => by rw [List.append_nil]; rfl,
        fun _ _ => rfl, fun _ h h' => absurd h' h⟩
  | x :: log, s, Q, hQ, hf, hd => by
      have hrun : ∀ r, checked m depth s x.1 x.2 = r →
          run m depth s (x :: log) = r.bind (fun s₁ => run m depth s₁ log) := by
        intro r h
        unfold run
        rw [List.foldlM_cons, h]
        rfl
      by_cases hx : Known m s x.1
      · -- a known agent: the handler runs now
        have hperm : (x :: (Q ++ log)).Perm (Q ++ x :: log) := List.perm_middle.symm
        have hsub : (x :: Q).Sublist (x :: (Q ++ log)) :=
          (List.sublist_append_left Q log).cons_cons x
        have hd₁ : (announced m.announces (x :: Q)).length ≤ depth := by
          rw [← (announced_perm m.announces hperm).length_eq] at hd
          exact Nat.le_trans (hsub.filterMap (fun x => m.announces x.2)).length_le hd
        have hchk := checked_of_known (m := m) hx depth x.2
        have hwk : ∀ y ∈ [x], Known m s y.1 := fun y hy => by
          rw [List.mem_singleton.mp hy]; exact hx
        rcases handle_spec hm depth s Q x.1 x.2 hQ hx ((hf.perm hperm).sublist hsub) hd₁ with
          ⟨s₁, X₁, hr₁, hran⟩ | ⟨err, X, y, w, hr, hst⟩
        · have hsub₂ : (stillParked m s₁ Q ++ log).Sublist (Q ++ x :: log) :=
            List.filter_sublist.append (List.sublist_cons_self x log)
          have hd₂ := Nat.le_trans (hsub₂.filterMap (fun x => m.announces x.2)).length_le hd
          have hf₁ := hran.fresh hm hQ hwk (hf.perm hperm)
          rw [hrun _ (hchk.trans hr₁)]
          rcases run_spec hm depth log s₁ (stillParked m s₁ Q) (hran.parked hm hQ) hf₁ hd₂ with
            ⟨s₂, X₂, Q₂, hr₂, hpr⟩ | ⟨err, X, y, w, hr₂, hfl⟩
          · exact Or.inl ⟨s₂, X₁ ++ X₂, Q₂, hr₂, processed_after hm hQ hx hran hpr⟩
          · exact Or.inr ⟨err, X₁ ++ X, y, w, hr₂, failed_after hm hQ hx hran hfl⟩
        · rw [hrun _ (hchk.trans hr)]
          exact Or.inr ⟨err, X, y, w, rfl, failed_of_stuck hQ hst⟩
      · -- an unknown agent: its event joins the queue
        have hassoc : Q ++ [x] ++ log = Q ++ x :: log := by simp
        rw [hrun _ (checked_unknown depth hQ hx)]
        rcases run_spec hm depth log _ (Q ++ [x]) (parked_park hQ hx)
            ⟨by rw [hassoc]; exact hf.nodup, by rw [hassoc]; exact hf.unknown⟩
            (by rw [hassoc]; exact hd) with
          ⟨s₂, X₂, Q₂, hr₂, hpr⟩ | ⟨err, X, y, w, hr₂, hfl⟩
        · refine Or.inl ⟨s₂, X₂, Q₂, hr₂, hpr.run, hpr.ordered, hpr.parked, ?_, ?_, hpr.emptied⟩
          · rw [← hassoc]; exact hpr.order
          · intro q hq
            have hqx : q ≠ x.1 := fun he => hx (he ▸ hq)
            exact (hpr.keep_known q hq).trans (Function.update_of_ne hqx _ _)
        · refine Or.inr ⟨err, X, y, w, hr₂, hfl.run, hfl.raised, hfl.ordered, ?_⟩
          rw [← hassoc]; exact hfl.order

theorem parked_start (w : W) : Parked m (State.start w : State P E W) [] where
  unknown x hx := by simp at hx
  queue q _ := rfl

/-- The agents of a tree are all known once its log has been processed: the announcement of
    each of them has run, or else is parked with its own agent unknown. -/
theorem known_of_inTree (hm : m.Lawful) {root : P} {w : W} {log X Q' : List (P × E)}
    {s' : State P E W} (hroot : ∀ q, m.known w q = true ↔ q = root)
    (h : Processed m (State.start w) [] log s' X Q') {p : P}
    (hp : InTree m.announces root log p) : Known m s' p := by
  have hk := known_bodies hm h.ordered h.run
  induction hp with
  | root => exact (hk root).mpr (Or.inl ((hroot root).mpr rfl))
  | @child p c e _ he hc ih =>
      have hmem : (p, e) ∈ proj p (X ++ Q') := by
        rw [h.order p, List.nil_append]
        exact mem_proj.mpr ⟨he, rfl⟩
      rcases List.mem_append.mp (mem_proj.mp hmem).1 with hX | hQ
      · exact (hk c).mpr (Or.inr ((mem_announced m.announces).mpr ⟨_, hX, hc⟩))
      · exact absurd ih (h.parked.unknown _ hQ)

/-- **The log of a tree.** Every body has run once, in the order of each agent and after the
    agent was announced, and nothing is parked; or some body raised. -/
theorem run_tree (hm : m.Lawful) {root : P} {w : W} {log : List (P × E)} {depth : Nat}
    (hroot : ∀ q, m.known w q = true ↔ q = root) (ht : Tree m.announces root log)
    (hd : log.length ≤ depth) :
    (∃ s' X, run m depth (State.start w) log = .ok s' ∧ bodies m X w = .ok s'.world ∧
        Ordered m.announces (· = root) X ∧ (∀ q, proj q X = proj q log) ∧
        s'.delayed = fun _ => none) ∨
      (∃ err X x w', run m depth (State.start w) log = .error (.raised err) ∧
        bodies m X w = .ok w' ∧ m.body w' x.1 x.2 = .error err ∧
        Ordered m.announces (· = root) (X ++ [x]) ∧ ∀ q, proj q (X ++ [x]) <+: proj q log) := by
  have hK : Known m (State.start w : State P E W) = (· = root) :=
    funext fun q => propext (hroot q)
  have hf : Fresh m (State.start w : State P E W) ([] ++ log) := by
    refine ⟨ht.nodup, fun c hc hk => ht.root_not ?_⟩
    rw [hK] at hk
    exact hk ▸ hc
  have hlen : (announced m.announces ([] ++ log)).length ≤ depth :=
    Nat.le_trans (announced_length_le _ _) hd
  rcases run_spec hm depth log (State.start w) [] (parked_start w) hf hlen with
    ⟨s', X, Q', hr, hpr⟩ | ⟨err, X, x, w', hr, hfl⟩
  · have hknown : ∀ x ∈ log, Known m s' x.1 := fun x hx =>
      known_of_inTree hm hroot hpr (ht.mem x hx)
    have hQ' : Q' = [] := by
      rw [List.eq_nil_iff_forall_not_mem]
      intro x hx
      have hmem : x ∈ proj x.1 (X ++ Q') := mem_proj.mpr ⟨List.mem_append_right _ hx, rfl⟩
      rw [hpr.order x.1, List.nil_append] at hmem
      exact hpr.parked.unknown x hx (hknown x (mem_proj.mp hmem).1)
    subst hQ'
    refine Or.inl ⟨s', X, hr, hpr.run, hK ▸ hpr.ordered, fun q => ?_, funext fun q => ?_⟩
    · have := hpr.order q
      rw [List.append_nil, List.nil_append] at this
      exact this
    · by_cases hq' : Known m s' q
      · by_cases hq : Known m (State.start w : State P E W) q
        · exact hpr.keep_known q hq
        · exact hpr.emptied q hq hq'
      · exact hpr.parked.queue q hq'
  · exact Or.inr ⟨err, X, x, w', hr, hfl.run, hfl.raised, hK ▸ hfl.ordered, hfl.order⟩

end Spec

/-! ## Agents that are never announced -/

section Avoid

variable {m : Machine P E W ε} {c : P}

/-- `c` is unknown, and nothing that is parked announces it. -/
structure Avoids (m : Machine P E W ε) (c : P) (s : State P E W) : Prop where
  unknown : ¬ Known m s c
  parked : ∀ q pt, s.delayed q = some pt → ∀ e ∈ pt, m.announces e ≠ some c

/-- A handler that keeps `Avoids` and the known agents. -/
def KeepsAvoids (m : Machine P E W ε) (c : P)
    (f : State P E W → P → E → Except (Fault ε) (State P E W)) : Prop :=
  ∀ {s s' : State P E W} {p : P} {e : E}, Avoids m c s → Known m s p → m.announces e ≠ some c →
    f s p e = .ok s' → Avoids m c s' ∧ ∀ q, Known m s q → Known m s' q

theorem foldlM_avoids {f : State P E W → P → E → Except (Fault ε) (State P E W)}
    (hf : KeepsAvoids m c f) (p : P) :
    ∀ (pt : List E) (s s' : State P E W), Avoids m c s → Known m s p →
      (∀ e ∈ pt, m.announces e ≠ some c) → pt.foldlM (fun s e => f s p e) s = .ok s' →
      Avoids m c s' ∧ ∀ q, Known m s q → Known m s' q
  | [], s, s', hs, _, _, h => by cases h; exact ⟨hs, fun _ hq => hq⟩
  | e :: pt, s, s', hs, hp, he, h => by
      rw [List.foldlM_cons] at h
      cases h₁ : f s p e with
      | error err => rw [h₁] at h; cases h
      | ok s₁ =>
          rw [h₁] at h
          obtain ⟨hs₁, hk₁⟩ := hf hs hp (he e List.mem_cons_self) h₁
          obtain ⟨hs₂, hk₂⟩ := foldlM_avoids hf p pt s₁ s' hs₁ (hk₁ p hp)
            (fun e' he' => he e' (List.mem_cons_of_mem _ he')) h
          exact ⟨hs₂, fun q hq => hk₂ q (hk₁ q hq)⟩

variable [DecidableEq P]

theorem Avoids.update {s : State P E W} (hs : Avoids m c s) (p : P) (o : Option (List E))
    (ho : ∀ pt, o = some pt → ∀ e ∈ pt, m.announces e ≠ some c) :
    Avoids m c { s with delayed := Function.update s.delayed p o } := by
  refine ⟨hs.unknown, fun q pt hq => ?_⟩
  change Function.update s.delayed p o q = some pt at hq
  by_cases hqp : q = p
  · subst hqp
    rw [Function.update_self] at hq
    exact ho pt hq
  · rw [Function.update_of_ne hqp] at hq
    exact hs.parked q pt hq

theorem handleWith_avoids (hm : m.Lawful)
    {f : State P E W → P → E → Except (Fault ε) (State P E W)} (hf : KeepsAvoids m c f) :
    KeepsAvoids m c (handleWith m f) := by
  intro s s' p e hs hp he h
  unfold handleWith at h
  cases hb : m.body s.world p e with
  | error err => rw [hb] at h; cases h
  | ok w =>
      have hkn := hm.known_body hp hb
      have hs₁ : Avoids m c { s with world := w } := by
        refine ⟨fun hc => ?_, hs.parked⟩
        rcases (hkn c).mp hc with hc | hc
        · exact hs.unknown hc
        · exact he hc
      have hk₁ : ∀ q, Known m s q → Known m { s with world := w } q :=
        fun q hq => (hkn q).mpr (Or.inl hq)
      rw [hb] at h
      cases ha : m.announces e with
      | none =>
          rw [ha] at h
          cases h
          exact ⟨hs₁, hk₁⟩
      | some c' =>
          rw [ha] at h
          simp only [replay] at h
          cases hd : s.delayed c' with
          | none =>
              rw [hd] at h
              cases h
              exact ⟨hs₁, hk₁⟩
          | some pt =>
              have hc' : m.known w c' = true := (hkn c').mpr (Or.inr ha)
              simp only [hd, hc', if_true] at h
              cases hl : pt.foldlM (fun s e => f s c' e) { s with world := w } with
              | error err => rw [hl] at h; cases h
              | ok s₂ =>
                  rw [hl] at h
                  cases h
                  obtain ⟨hs₂, hk₂⟩ := foldlM_avoids hf c' pt _ _ hs₁ hc' (hs.parked c' pt hd) hl
                  exact ⟨hs₂.update c' none (fun _ h => by cases h),
                    fun q hq => hk₂ q (hk₁ q hq)⟩

theorem handle_avoids (hm : m.Lawful) : ∀ depth, KeepsAvoids m c (handle m depth)
  | 0 => handleWith_avoids hm fun _ _ _ h => by cases h
  | depth + 1 => handleWith_avoids hm (handle_avoids hm depth)

theorem checked_avoids (hm : m.Lawful) {depth : Nat} {s s' : State P E W} {p : P} {e : E}
    (hs : Avoids m c s) (he : m.announces e ≠ some c) (h : checked m depth s p e = .ok s') :
    Avoids m c s' := by
  unfold checked at h
  split at h
  · exact (handle_avoids hm depth hs ‹_› he h).1
  · cases hd : s.delayed p with
    | none =>
        rw [hd] at h
        cases h
        refine hs.update p (some [e]) fun pt hpt => ?_
        cases hpt
        simpa using he
    | some pt =>
        rw [hd] at h
        cases h
        refine hs.update p (some (pt ++ [e])) fun pt' hpt e' he' => ?_
        cases hpt
        rcases List.mem_append.mp he' with h | h
        · exact hs.parked p pt hd e' h
        · rw [List.mem_singleton.mp h]; exact he

/-- An agent that is announced nowhere stays unknown. -/
theorem run_avoids (hm : m.Lawful) {depth : Nat} {log : List (P × E)} {s s' : State P E W}
    (hs : Avoids m c s) (hc : c ∉ announced m.announces log) (h : run m depth s log = .ok s') :
    Avoids m c s' := by
  induction log generalizing s with
  | nil => cases h; exact hs
  | cons x log ih =>
      unfold run at h
      rw [List.foldlM_cons] at h
      have hx : m.announces x.2 ≠ some c := fun ha => hc (by
        rw [announced_cons_some _ ha]; exact List.mem_cons_self)
      cases h₁ : checked m depth s x.1 x.2 with
      | error err => rw [h₁] at h; cases h
      | ok s₁ =>
          rw [h₁] at h
          exact ih (checked_avoids hm hs hx h₁)
            (fun hm' => hc (by
              obtain ⟨y, hy, hyc⟩ := (mem_announced _).mp hm'
              exact (mem_announced _).mpr ⟨y, List.mem_cons_of_mem _ hy, hyc⟩)) h

end Avoid

/-! ## What every body keeps -/

section Keeps

variable {m : Machine P E W ε} {I : W → Prop}

/-- A handler that keeps a property of the world. -/
def KeepsWorld (I : W → Prop) (f : State P E W → P → E → Except (Fault ε) (State P E W)) : Prop :=
  ∀ (s s' : State P E W) (p : P) (e : E), I s.world → f s p e = .ok s' → I s'.world

theorem foldlM_keepsWorld {f : State P E W → P → E → Except (Fault ε) (State P E W)}
    (hf : KeepsWorld I f) (p : P) {pt : List E} {s s' : State P E W} (hs : I s.world)
    (h : pt.foldlM (fun s e => f s p e) s = .ok s') : I s'.world := by
  induction pt generalizing s with
  | nil => cases h; exact hs
  | cons e pt ih =>
      rw [List.foldlM_cons] at h
      cases h₁ : f s p e with
      | error err => rw [h₁] at h; cases h
      | ok s₁ =>
          rw [h₁] at h
          exact ih (hf _ _ _ _ hs h₁) h

variable [DecidableEq P]

/-- A body that keeps a property of the world, whatever the process is. -/
def BodyKeeps (m : Machine P E W ε) (I : W → Prop) : Prop :=
  ∀ (w w' : W) (p : P) (e : E), I w → m.body w p e = .ok w' → I w'

theorem handleWith_keepsWorld (hm : BodyKeeps m I)
    {f : State P E W → P → E → Except (Fault ε) (State P E W)} (hf : KeepsWorld I f) :
    KeepsWorld I (handleWith m f) := by
  intro s s' p e hs h
  unfold handleWith at h
  cases hb : m.body s.world p e with
  | error err => rw [hb] at h; cases h
  | ok w =>
      have hw : I w := hm _ _ _ _ hs hb
      rw [hb] at h
      cases ha : m.announces e with
      | none => rw [ha] at h; cases h; exact hw
      | some c =>
          rw [ha] at h
          simp only [replay] at h
          cases hd : s.delayed c with
          | none => rw [hd] at h; cases h; exact hw
          | some pt =>
              rw [hd] at h
              dsimp only at h
              split at h
              · cases hl : pt.foldlM (fun s e => f s c e) { s with world := w } with
                | error err => rw [hl] at h; cases h
                | ok s₂ =>
                    have h₂ : I s₂.world := foldlM_keepsWorld (s := { s with world := w }) hf c hw hl
                    rw [hl] at h
                    cases h
                    exact h₂
              · cases h; exact hw

theorem handle_keepsWorld (hm : BodyKeeps m I) : ∀ depth, KeepsWorld I (handle m depth)
  | 0 => handleWith_keepsWorld hm fun _ _ _ _ _ h => by cases h
  | depth + 1 => handleWith_keepsWorld hm (handle_keepsWorld hm depth)

/-- What every body keeps holds whatever is parked or replayed. -/
theorem checked_keepsWorld (hm : BodyKeeps m I) (depth : Nat) :
    KeepsWorld I (checked m depth) := by
  intro s s' p e hs h
  unfold checked at h
  split at h
  · exact handle_keepsWorld hm depth _ _ _ _ hs h
  · cases hd : s.delayed p with
    | none => rw [hd] at h; cases h; exact hs
    | some pt => rw [hd] at h; cases h; exact hs

theorem run_keepsWorld (hm : BodyKeeps m I) {depth : Nat} {log : List (P × E)}
    {s s' : State P E W} (hs : I s.world) (h : run m depth s log = .ok s') : I s'.world := by
  induction log generalizing s with
  | nil => cases h; exact hs
  | cons x log ih =>
      unfold run at h
      rw [List.foldlM_cons] at h
      cases h₁ : checked m depth s x.1 x.2 with
      | error err => rw [h₁] at h; cases h
      | ok s₁ =>
          rw [h₁] at h
          exact ih (checked_keepsWorld hm depth _ _ _ _ hs h₁) h

end Keeps

/-! ## Recording the bodies that ran -/

section Record

/-- `m`, keeping the list of the bodies that ran, oldest first. -/
def Machine.recorded (m : Machine P E W ε) : Machine P E (W × List (P × E)) ε where
  known w p := m.known w.1 p
  announces := m.announces
  body w p e :=
    match m.body w.1 p e with
    | .error err => .error err
    | .ok w' => .ok (w', w.2 ++ [(p, e)])

variable {m : Machine P E W ε}

theorem body_recorded_ok {w w' : W × List (P × E)} {p : P} {e : E} :
    m.recorded.body w p e = .ok w' ↔ m.body w.1 p e = .ok w'.1 ∧ w'.2 = w.2 ++ [(p, e)] := by
  simp only [Machine.recorded]
  cases m.body w.1 p e with
  | error err => simp
  | ok w₁ => simp [Prod.ext_iff, eq_comm (a := w'.2)]

/-- What is recorded did run, in any run. -/
theorem bodies_of_recorded [DecidableEq P] {depth : Nat} {w : W} {log : List (P × E)}
    {s : State P E (W × List (P × E))}
    (h : run m.recorded depth (State.start (w, [])) log = .ok s) :
    bodies m s.world.2 w = .ok s.world.1 := by
  refine run_keepsWorld (I := fun r => bodies m r.2 w = .ok r.1) ?_ (s := State.start (w, [])) rfl h
  intro r r' p e hr hb
  obtain ⟨hb₁, hb₂⟩ := body_recorded_ok.mp hb
  rw [hb₂, bodies_append_ok m hr, bodies_singleton, hb₁]

/-- Bodies that run, each for an agent that is known, with the record of them. -/
inductive KnownRun (m : Machine P E W ε) : W → List (P × E) → W → Prop
  | nil (w : W) : KnownRun m w [] w
  | cons {w w₁ w' : W} {x : P × E} {l : List (P × E)} (known : m.known w x.1 = true)
      (body : m.body w x.1 x.2 = .ok w₁) (rest : KnownRun m w₁ l w') : KnownRun m w (x :: l) w'

/-- A log in which every agent is known before its events is run as it stands. -/
theorem run_of_knownRun [DecidableEq P] {w w' : W} {log : List (P × E)} (h : KnownRun m w log w')
    (depth : Nat) (X : List (P × E)) :
    run m.recorded depth (State.start (w, X)) log = .ok (State.start (w', X ++ log)) := by
  induction h generalizing X with
  | nil w => rw [List.append_nil]; rfl
  | @cons w w₁ w' x l known body rest ih =>
      have hb : m.recorded.body (w, X) x.1 x.2 = .ok (w₁, X ++ [x]) :=
        body_recorded_ok.mpr ⟨body, rfl⟩
      have hc : checked m.recorded depth (State.start (w, X)) x.1 x.2 =
          .ok (State.start (w₁, X ++ [x])) := by
        rw [checked_of_known (m := m.recorded) (s := State.start (w, X)) (p := x.1) known]
        cases depth <;> simp only [handle, handleWith, State.start, hb, replay] <;>
          cases m.recorded.announces x.2 <;> rfl
      unfold run
      rw [List.foldlM_cons, hc]
      have hih := ih (X ++ [x])
      rw [List.append_assoc] at hih
      exact hih

theorem recorded_lawful (hm : m.Lawful) : m.recorded.Lawful where
  known_body hp hb q := hm.known_body hp (body_recorded_ok.mp hb).1 q

theorem bodies_recorded {X : List (P × E)} {w w' : W × List (P × E)}
    (h : bodies m.recorded X w = .ok w') :
    bodies m X w.1 = .ok w'.1 ∧ w'.2 = w.2 ++ X := by
  induction X generalizing w with
  | nil => cases h; exact ⟨rfl, (List.append_nil _).symm⟩
  | cons x X ih =>
      cases hb : m.recorded.body w x.1 x.2 with
      | error err => rw [bodies, hb] at h; cases h
      | ok w₁ =>
          rw [bodies_cons_ok _ hb] at h
          obtain ⟨h₁, h₂⟩ := ih h
          obtain ⟨hb₁, hb₂⟩ := body_recorded_ok.mp hb
          exact ⟨by rw [bodies_cons_ok m hb₁]; exact h₁, by rw [h₂, hb₂]; simp⟩

/-- Forget the record. -/
def State.forget (s : State P E (W × List (P × E))) : State P E W := ⟨s.world.1, s.delayed⟩

/-- Forget the record of a result. -/
def forgetResult (r : Except (Fault ε) (State P E (W × List (P × E)))) :
    Except (Fault ε) (State P E W) := r.map State.forget

theorem foldlM_forget {α : Type}
    (f : State P E (W × List (P × E)) → α → Except (Fault ε) (State P E (W × List (P × E))))
    (g : State P E W → α → Except (Fault ε) (State P E W))
    (hfg : ∀ s a, forgetResult (f s a) = g s.forget a) :
    ∀ (l : List α) (s : State P E (W × List (P × E))),
      forgetResult (l.foldlM f s) = l.foldlM g s.forget
  | [], _ => rfl
  | a :: l, s => by
      rw [List.foldlM_cons, List.foldlM_cons, ← hfg s a]
      cases f s a with
      | error err => rfl
      | ok s₁ => exact foldlM_forget f g hfg l s₁

variable [DecidableEq P]

theorem replay_forget
    (rec : State P E (W × List (P × E)) → P → E →
      Except (Fault ε) (State P E (W × List (P × E))))
    (rec' : State P E W → P → E → Except (Fault ε) (State P E W))
    (hrec : ∀ s p e, forgetResult (rec s p e) = rec' s.forget p e)
    (s : State P E (W × List (P × E))) (c : P) :
    forgetResult (replay m.recorded rec s c) = replay m rec' s.forget c := by
  unfold replay
  have hdel : s.forget.delayed = s.delayed := rfl
  have hkn : m.recorded.known s.world c = m.known s.forget.world c := rfl
  rw [hdel, hkn]
  cases s.delayed c with
  | none => rfl
  | some pt =>
      by_cases hk : m.known s.forget.world c = true
      · have hl := foldlM_forget (fun s e => rec s c e) (fun s e => rec' s c e)
          (fun s e => hrec s c e) pt s
        simp only [hk, if_true]
        rw [← hl]
        cases pt.foldlM (fun s e => rec s c e) s <;> rfl
      · simp only [hk]
        rfl

theorem handleWith_forget
    (rec : State P E (W × List (P × E)) → P → E →
      Except (Fault ε) (State P E (W × List (P × E))))
    (rec' : State P E W → P → E → Except (Fault ε) (State P E W))
    (hrec : ∀ s p e, forgetResult (rec s p e) = rec' s.forget p e)
    (s : State P E (W × List (P × E))) (p : P) (e : E) :
    forgetResult (handleWith m.recorded rec s p e) = handleWith m rec' s.forget p e := by
  unfold handleWith
  simp only [Machine.recorded, State.forget]
  cases m.body s.world.1 p e with
  | error err => rfl
  | ok w =>
      cases m.announces e with
      | none => rfl
      | some c => exact replay_forget rec rec' hrec _ c

theorem handle_forget : ∀ (depth : Nat) (s : State P E (W × List (P × E))) (p : P) (e : E),
    forgetResult (handle m.recorded depth s p e) = handle m depth s.forget p e
  | 0, s, p, e => handleWith_forget _ _ (fun _ _ _ => rfl) s p e
  | depth + 1, s, p, e => handleWith_forget _ _ (handle_forget depth) s p e

/-- Recording changes nothing else. -/
theorem run_forget (depth : Nat) (log : List (P × E)) (s : State P E (W × List (P × E))) :
    forgetResult (run m.recorded depth s log) = run m depth s.forget log := by
  refine foldlM_forget _ _ (fun s x => ?_) log s
  unfold checked
  have hkn : m.recorded.known s.world x.1 = m.known s.forget.world x.1 := rfl
  have hdel : s.forget.delayed = s.delayed := rfl
  rw [hkn, hdel]
  split
  · exact handle_forget depth s x.1 x.2
  · cases s.delayed x.1 <;> rfl

/-- **The log of a tree, with the bodies that ran.** `X` lists them in the order in which they
    ran. -/
theorem run_tree_recorded (hm : m.Lawful) {root : P} {w : W} {log : List (P × E)} {depth : Nat}
    (hroot : ∀ q, m.known w q = true ↔ q = root) (ht : Tree m.announces root log)
    (hd : log.length ≤ depth)
    (hok : ∀ err, run m depth (State.start w) log ≠ .error (.raised err)) :
    ∃ s X, run m depth (State.start w) log = .ok s ∧
      run m.recorded depth (State.start (w, [])) log = .ok ⟨(s.world, X), s.delayed⟩ ∧
      bodies m X w = .ok s.world ∧ Ordered m.announces (· = root) X ∧
      (∀ q, proj q X = proj q log) ∧ s.delayed = fun _ => none := by
  have hforget := run_forget (m := m) depth log (State.start (w, []))
  rcases run_tree (m := m.recorded) (recorded_lawful hm) (w := (w, [])) hroot ht hd with
    ⟨s, X, hr, hX, hord, hproj, hdel⟩ | ⟨err, _, _, _, hr, _⟩
  · obtain ⟨hX₁, hX₂⟩ := bodies_recorded hX
    rw [List.nil_append] at hX₂
    rw [hr] at hforget
    refine ⟨s.forget, X, hforget.symm, ?_, hX₁, hord, hproj, hdel⟩
    rw [hr, ← hX₂]
    rfl
  · rw [hr] at hforget
    exact absurd hforget.symm (hok err)

end Record

end Buildsh.Generic
