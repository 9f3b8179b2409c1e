/-
  Agents that report their events to one file under a lock.

  An agent is running, or has made an event that it has not reported yet, or holds the lock and
  writes its report, piece by piece. An event may announce an agent, which runs from then on, so
  the reports of the two are written in any order. `made` has the events in the order in which
  they were made and `log` in the order in which the lock was taken for them; nothing reads these
  two.

  `Whole` is the invariant without faults: the file has the reports of the log, but of the last one
  only a part while somebody holds the lock. `Pieces` is what remains of it with faults.

  The lock keeps out everybody but its holder. A file lock that belongs to a process does so only
  where a process is one agent, that is, where it has one thread.
-/
import Buildsh.Generic.EventLog
import Mathlib.Logic.Function.Basic

namespace Buildsh.Generic

/-- What an agent does about an event while it holds the lock. -/
structure Appender (P E C R B : Type) where
  start : P → E → C
  /-- A write with its outcome: what it appends, and what is left to do. -/
  write : C → R → List B × C
  ended : C → Bool
  /-- What the writes to come append if none of them is a fault. -/
  left : C → List B
  fault : R → Bool
  left_ended : ∀ c, ended c = true → left c = []
  write_eq : ∀ c r, fault r = false → (write c r).1 ++ left (write c r).2 = left c
  write_sublist : ∀ c r, ((write c r).1 ++ left (write c r).2).Sublist (left c)
  finish : ∀ c, ∃ rs : List R, (∀ r ∈ rs, fault r = false) ∧
    ended (rs.foldl (fun c r => (write c r).2) c) = true

/-- The report of an event. -/
def Appender.report {P E C R B : Type} (a : Appender P E C R B) (x : P × E) : List B :=
  a.left (a.start x.1 x.2)

inductive Phase (E : Type) where
  | running
  | reporting (e : E)
  | holding
  | gone
  deriving DecidableEq

structure Locked (P E C B : Type) where
  phase : P → Option (Phase E)
  holder : Option (P × C)
  file : List B
  made : List (P × E)
  log : List (P × E)

inductive Act (P E R : Type) where
  | make (p : P) (e : E)
  /-- the lock or the file is not available -/
  | skip (p : P)
  | lock (p : P)
  | write (p : P) (r : R)
  | unlock (p : P)
  | exit (p : P)
  /-- the end of an agent that has something to report -/
  | kill (p : P)

variable {P E C R B : Type} [DecidableEq P]

namespace Locked

/-- Only `root` runs. -/
def start (root : P) : Locked P E C B where
  phase := Function.update (fun _ => none) root (some .running)
  holder := none
  file := []
  made := []
  log := []

def setPhase (s : Locked P E C B) (p : P) (ph : Phase E) : Locked P E C B :=
  { s with phase := Function.update s.phase p (some ph) }

/-- The agent that is announced, if any, runs. -/
def spawn (s : Locked P E C B) : Option P → Option (Locked P E C B)
  | none => some s
  | some q => if (s.phase q).isNone then some (s.setPhase q .running) else none

variable (ann : E → Option P) (a : Appender P E C R B)

def step (s : Locked P E C B) : Act P E R → Option (Locked P E C B)
  | .make p e =>
      match s.phase p with
      | some .running =>
          ({ s with made := s.made ++ [(p, e)] }.setPhase p (.reporting e)).spawn (ann e)
      | _ => none
  | .skip p =>
      match s.phase p with
      | some (.reporting _) => some (s.setPhase p .running)
      | _ => none
  | .lock p =>
      match s.phase p, s.holder with
      | some (.reporting e), none =>
          some ({ s with holder := some (p, a.start p e), log := s.log ++ [(p, e)] }.setPhase p
            .holding)
      | _, _ => none
  | .write p r =>
      match s.holder with
      | some (q, c) =>
          if q = p then
            some { s with file := s.file ++ (a.write c r).1, holder := some (p, (a.write c r).2) }
          else none
      | none => none
  | .unlock p =>
      match s.holder with
      | some (q, c) =>
          if q = p ∧ a.ended c = true then some ({ s with holder := none }.setPhase p .running)
          else none
      | none => none
  | .exit p =>
      match s.phase p with
      | some .running => some (s.setPhase p .gone)
      | _ => none
  | .kill p =>
      match s.phase p with
      | some (.reporting _) => some (s.setPhase p .gone)
      | some .holding => some ({ s with holder := none }.setPhase p .gone)
      | _ => none

def run (s : Locked P E C B) (acts : List (Act P E R)) : Option (Locked P E C B) :=
  acts.foldlM (step ann a) s

/-- What a step does. -/
inductive Does (s : Locked P E C B) : Act P E R → Locked P E C B → Prop where
  | make {p : P} {e : E} (hp : s.phase p = some .running) (he : ann e = none) :
      Does s (.make p e) ({ s with made := s.made ++ [(p, e)] }.setPhase p (.reporting e))
  | spawn {p q : P} {e : E} (hp : s.phase p = some .running) (he : ann e = some q)
      (hpq : q ≠ p) (hq : s.phase q = none) :
      Does s (.make p e) (({ s with made := s.made ++ [(p, e)] }.setPhase p (.reporting e)).setPhase
        q .running)
  | skip {p : P} {e : E} (hp : s.phase p = some (.reporting e)) :
      Does s (.skip p) (s.setPhase p .running)
  | lock {p : P} {e : E} (hp : s.phase p = some (.reporting e)) (hfree : s.holder = none) :
      Does s (.lock p) ({ s with holder := some (p, a.start p e), log := s.log ++ [(p, e)] }.setPhase
        p .holding)
  | write {p : P} {c : C} (r : R) (hh : s.holder = some (p, c)) :
      Does s (.write p r)
        { s with file := s.file ++ (a.write c r).1, holder := some (p, (a.write c r).2) }
  | unlock {p : P} {c : C} (hh : s.holder = some (p, c)) (hc : a.ended c = true) :
      Does s (.unlock p) ({ s with holder := none }.setPhase p .running)
  | exit {p : P} (hp : s.phase p = some .running) : Does s (.exit p) (s.setPhase p .gone)
  | kill {p : P} {e : E} (hp : s.phase p = some (.reporting e)) :
      Does s (.kill p) (s.setPhase p .gone)
  | killHolder {p : P} (hp : s.phase p = some .holding) :
      Does s (.kill p) ({ s with holder := none }.setPhase p .gone)

variable {ann a}

theorem does_of_step {s s' : Locked P E C B} {act : Act P E R} (h : step ann a s act = some s') :
    Does ann a s act s' := by
  cases act with
  | make p e =>
      simp only [step] at h
      split at h
      · rename_i hp
        cases he : ann e with
        | none =>
            rw [he, spawn, Option.some.injEq] at h
            exact h ▸ .make hp he
        | some q =>
            rw [he, spawn, Option.ite_none_right_eq_some, Option.some.injEq] at h
            obtain ⟨hq, rfl⟩ := h
            have hpq : q ≠ p := by
              rintro rfl
              simp [setPhase] at hq
            refine .spawn hp he hpq ?_
            simpa [setPhase, hpq] using hq
      · cases h
  | skip p =>
      simp only [step] at h
      split at h
      · rename_i hp
        exact Option.some.inj h ▸ .skip hp
      · cases h
  | lock p =>
      simp only [step] at h
      split at h
      · rename_i hp hfree
        exact Option.some.inj h ▸ .lock hp hfree
      · cases h
  | write p r =>
      simp only [step] at h
      split at h
      · rename_i q c hh
        rw [Option.ite_none_right_eq_some, Option.some.injEq] at h
        obtain ⟨rfl, rfl⟩ := h
        exact .write r hh
      · cases h
  | unlock p =>
      simp only [step] at h
      split at h
      · rename_i q c hh
        rw [Option.ite_none_right_eq_some, Option.some.injEq] at h
        obtain ⟨⟨rfl, hc⟩, rfl⟩ := h
        exact .unlock hh hc
      · cases h
  | exit p =>
      simp only [step] at h
      split at h
      · rename_i hp
        exact Option.some.inj h ▸ .exit hp
      · cases h
  | kill p =>
      simp only [step] at h
      split at h
      · rename_i hp
        exact Option.some.inj h ▸ .kill hp
      · rename_i hp
        exact Option.some.inj h ▸ .killHolder hp
      · cases h

/-- An invariant of every step is one of every run. -/
theorem run_induction (I : Locked P E C B → Prop) (K : Act P E R → Prop)
    (hstep : ∀ s act s', K act → Does ann a s act s' → I s → I s')
    {s s' : Locked P E C B} {acts : List (Act P E R)} (h : run ann a s acts = some s')
    (hok : ∀ act ∈ acts, K act) (hs : I s) : I s' := by
  induction acts generalizing s with
  | nil => exact Option.some.inj h ▸ hs
  | cons act acts ih =>
      rw [run, List.foldlM_cons] at h
      obtain ⟨s₁, h₁, h₂⟩ := Option.bind_eq_some_iff.mp h
      rw [List.forall_mem_cons] at hok
      exact ih h₂ hok.2 (hstep s act s₁ hok.1 (does_of_step h₁) hs)

/-! ## The file -/

/-- The file has the reports of the log one behind the other; that of the holder, which is the
    last one, up to what is left to write. -/
def Whole (a : Appender P E C R B) (s : Locked P E C B) : Prop :=
  match s.holder with
  | none => s.file = s.log.flatMap a.report
  | some (p, c) => ∃ l e part, s.log = l ++ [(p, e)] ∧ s.file = l.flatMap a.report ++ part ∧
      part ++ a.left c = a.report (p, e)

omit [DecidableEq P] in
theorem Whole.of_free {s : Locked P E C B} (hs : Whole a s) (hfree : s.holder = none) :
    s.file = s.log.flatMap a.report := by
  unfold Whole at hs
  rwa [hfree] at hs

omit [DecidableEq P] in
theorem Whole.of_held {s : Locked P E C B} {p : P} {c : C} (hs : Whole a s)
    (hh : s.holder = some (p, c)) : ∃ l e part, s.log = l ++ [(p, e)] ∧
      s.file = l.flatMap a.report ++ part ∧ part ++ a.left c = a.report (p, e) := by
  unfold Whole at hs
  rwa [hh] at hs

/-- A step after which the report that is being written will not be whole. -/
def Tears (a : Appender P E C R B) : Act P E R → Prop
  | .write _ r => a.fault r = true
  | .kill _ => True
  | _ => False

@[simp] theorem whole_setPhase {s : Locked P E C B} {p : P} {ph : Phase E} :
    Whole a (s.setPhase p ph) ↔ Whole a s := Iff.rfl

theorem whole_step {s s' : Locked P E C B} {act : Act P E R} (hact : ¬ Tears a act)
    (h : Does ann a s act s') (hs : Whole a s) : Whole a s' := by
  cases h with
  | make hp he => exact hs
  | spawn hp he hpq hq => exact hs
  | skip hp => exact hs
  | @lock p e hp hfree =>
      exact ⟨s.log, e, [], rfl, by rw [List.append_nil]; exact hs.of_free hfree, rfl⟩
  | @write p c r hh =>
      obtain ⟨l, e, part, hlog, hfile, hpart⟩ := hs.of_held hh
      have heq : (a.write c r).1 ++ a.left (a.write c r).2 = a.left c :=
        a.write_eq c r (Bool.eq_false_iff.mpr hact)
      refine ⟨l, e, part ++ (a.write c r).1, hlog, ?_, ?_⟩
      · change s.file ++ (a.write c r).1 = _
        rw [hfile, List.append_assoc]
      · rw [List.append_assoc, heq, hpart]
  | @unlock p c hh hc =>
      obtain ⟨l, e, part, hlog, hfile, hpart⟩ := hs.of_held hh
      rw [a.left_ended c hc, List.append_nil] at hpart
      change s.file = s.log.flatMap a.report
      rw [hfile, hlog, hpart]
      simp
  | exit hp => exact hs
  | kill hp => exact absurd trivial hact
  | killHolder hp => exact absurd trivial hact

/-- Without faults the file consists of whole reports, and of a part of the one being written. -/
theorem whole_run {root : P} {s : Locked P E C B} {acts : List (Act P E R)}
    (h : run ann a (start root) acts = some s) (hacts : ∀ act ∈ acts, ¬ Tears a act) :
    Whole a s :=
  run_induction (Whole a) (fun act => ¬ Tears a act) (fun _ _ _ => whole_step) h hacts rfl

/-- A piece of the file for every report: what has been written of it, without what was lost. -/
def Pieces (a : Appender P E C R B) (s : Locked P E C B) : Prop :=
  ∃ pieces : List (List B), s.file = pieces.flatten ∧
    match s.holder with
    | none => List.Forall₂ List.Sublist pieces (s.log.map a.report)
    | some (_, c) => ∃ (ps : List (List B)) (piece : List B) (l : List (P × E)) (x : P × E),
        pieces = ps ++ [piece] ∧ s.log = l ++ [x] ∧
          List.Forall₂ List.Sublist ps (l.map a.report) ∧
          (piece ++ a.left c).Sublist (a.report x)

omit [DecidableEq P] in
theorem Pieces.of_free {s : Locked P E C B} (hfree : s.holder = none) (hs : Pieces a s) :
    ∃ pieces : List (List B), s.file = pieces.flatten ∧
      List.Forall₂ List.Sublist pieces (s.log.map a.report) := by
  obtain ⟨pieces, hfile, h⟩ := hs
  rw [hfree] at h
  exact ⟨pieces, hfile, h⟩

omit [DecidableEq P] in
/-- The piece that is being written counts as one, whatever becomes of it. -/
theorem Pieces.forall₂ {s : Locked P E C B} (hs : Pieces a s) :
    ∃ pieces : List (List B), s.file = pieces.flatten ∧
      List.Forall₂ List.Sublist pieces (s.log.map a.report) := by
  cases hh : s.holder with
  | none => exact hs.of_free hh
  | some pc =>
      obtain ⟨p, c⟩ := pc
      obtain ⟨pieces, hfile, h⟩ := hs
      rw [hh] at h
      obtain ⟨ps, piece, l, x, rfl, hlog, hps, hpiece⟩ := h
      refine ⟨ps ++ [piece], hfile, ?_⟩
      rw [hlog, List.map_append]
      exact List.rel_append hps
        (.cons ((List.sublist_append_left piece (a.left c)).trans hpiece) .nil)

omit [DecidableEq P] in
/-- Without a holder the invariant is about the file and the log only. -/
theorem Pieces.free {s s' : Locked P E C B} (hs : Pieces a s) (hfile : s'.file = s.file)
    (hlog : s'.log = s.log) (hfree : s'.holder = none) : Pieces a s' := by
  obtain ⟨pieces, h, hforall⟩ := hs.forall₂
  refine ⟨pieces, hfile.trans h, ?_⟩
  rw [hfree]
  rw [hlog]
  exact hforall

theorem pieces_step {s s' : Locked P E C B} {act : Act P E R} (h : Does ann a s act s')
    (hs : Pieces a s) : Pieces a s' := by
  cases h with
  | make hp he => exact hs
  | spawn hp he hpq hq => exact hs
  | skip hp => exact hs
  | @lock p e hp hfree =>
      obtain ⟨pieces, hfile, h⟩ := hs.of_free hfree
      refine ⟨pieces ++ [[]], by simp [setPhase, hfile], ?_⟩
      exact ⟨pieces, [], s.log, (p, e), rfl, rfl, h, List.Sublist.refl _⟩
  | @write p c r hh =>
      obtain ⟨pieces, hfile, h⟩ := hs
      rw [hh] at h
      obtain ⟨ps, piece, l, x, rfl, hlog, hps, hpiece⟩ := h
      refine ⟨ps ++ [piece ++ (a.write c r).1], by simp [hfile], ?_⟩
      refine ⟨ps, piece ++ (a.write c r).1, l, x, rfl, hlog, hps, ?_⟩
      rw [List.append_assoc]
      exact ((a.write_sublist c r).append_left piece).trans hpiece
  | unlock hh hc => exact hs.free rfl rfl rfl
  | exit hp => exact hs
  | kill hp => exact hs
  | killHolder hp => exact hs.free rfl rfl rfl

/-- Reports never mix: whatever fails, the file is a piece of every report, one behind the other
    in the order of the log. -/
theorem pieces_run {root : P} {s : Locked P E C B} {acts : List (Act P E R)}
    (h : run ann a (start root) acts = some s) :
    ∃ pieces : List (List B), s.file = pieces.flatten ∧
      List.Forall₂ List.Sublist pieces (s.log.map a.report) := by
  have hs : Pieces a s := run_induction (Pieces a) (fun _ => True)
    (fun _ _ _ _ => pieces_step) h (fun _ _ => trivial) ⟨[], rfl, .nil⟩
  exact hs.forall₂

/-! ## The log -/

/-- The event that `p` has made but not reported. -/
def unreported (s : Locked P E C B) (p : P) : List (P × E) :=
  match s.phase p with
  | some (.reporting e) => [(p, e)]
  | _ => []

/-- A step after which an event is never reported. -/
def Drops : Act P E R → Prop
  | .skip _ => True
  | .kill _ => True
  | _ => False

/-- What an agent has reported, and what it is going to, is related to what it has made. -/
def InOrder (Rel : List (P × E) → List (P × E) → Prop) (s : Locked P E C B) : Prop :=
  ∀ p, Rel (proj p s.log ++ s.unreported p) (proj p s.made)

/-- The agent with the lock is the one in phase `holding`. -/
def Held (s : Locked P E C B) : Prop :=
  ∀ p c, s.holder = some (p, c) → s.phase p = some .holding

theorem unreported_setPhase_ne {s : Locked P E C B} {p q : P} {ph : Phase E} (hqp : q ≠ p) :
    (s.setPhase p ph).unreported q = s.unreported q := by
  simp [unreported, setPhase, hqp]

theorem unreported_setPhase_self {s : Locked P E C B} {p : P} {ph : Phase E} :
    (s.setPhase p ph).unreported p = match ph with
      | .reporting e => [(p, e)]
      | _ => [] := by
  cases ph <;> simp [unreported, setPhase]

omit [DecidableEq P] in
theorem unreported_eq_nil {s : Locked P E C B} {p : P} (hp : ∀ e, s.phase p ≠ some (.reporting e)) :
    s.unreported p = [] := by
  unfold unreported
  split
  · rename_i e he
    exact absurd he (hp e)
  · rfl

section InOrder

variable {Rel : List (P × E) → List (P × E) → Prop}

/-- An agent that has nothing to report before or after a step. -/
theorem InOrder.setPhase {s : Locked P E C B} (hs : InOrder Rel s) {p : P} {ph : Phase E}
    (hp : ∀ e, s.phase p ≠ some (.reporting e)) (hph : ∀ e, ph ≠ .reporting e) :
    InOrder Rel (s.setPhase p ph) := by
  intro q
  by_cases hq : q = p
  · subst hq
    have hnil : (s.setPhase q ph).unreported q = [] :=
      unreported_eq_nil fun e => by simp [Locked.setPhase, hph e]
    rw [hnil, ← unreported_eq_nil hp]
    exact hs q
  · rw [unreported_setPhase_ne hq]
    exact hs q

/-- A new event is not reported yet. -/
theorem InOrder.make (hadd : ∀ l m x, Rel l m → Rel (l ++ [x]) (m ++ [x]))
    {s : Locked P E C B} (hs : InOrder Rel s) {p : P} (e : E) (hp : s.phase p = some .running) :
    InOrder Rel ({ s with made := s.made ++ [(p, e)] }.setPhase p (.reporting e)) := by
  intro q
  by_cases hq : q = p
  · subst hq
    have hnil : s.unreported q = [] := unreported_eq_nil fun e' => by simp [hp]
    have hmade : Rel (proj q s.log) (proj q s.made) := by simpa [hnil] using hs q
    rw [unreported_setPhase_self]
    simp only [Locked.setPhase, proj_append]
    rw [proj_singleton_self (q, e)]
    exact hadd _ _ _ hmade
  · rw [unreported_setPhase_ne hq]
    simp only [Locked.setPhase, proj_append]
    rw [proj_singleton_ne (Ne.symm hq), List.append_nil]
    exact hs q

/-- The event that has not been reported is given up. -/
theorem InOrder.drop (hdrop : ∀ l m x, Rel (l ++ [x]) m → Rel l m) {s : Locked P E C B}
    (hs : InOrder Rel s) {p : P} {e : E} {ph : Phase E} (hp : s.phase p = some (.reporting e))
    (hph : ∀ e, ph ≠ .reporting e) : InOrder Rel (s.setPhase p ph) := by
  intro q
  by_cases hq : q = p
  · subst hq
    have hnil : (s.setPhase q ph).unreported q = [] :=
      unreported_eq_nil fun e => by simp [Locked.setPhase, hph e]
    have hun : s.unreported q = [(q, e)] := by simp [unreported, hp]
    have hrel : Rel (proj q s.log ++ [(q, e)]) (proj q s.made) := hun ▸ hs q
    rw [hnil, List.append_nil]
    exact hdrop _ _ _ hrel
  · rw [unreported_setPhase_ne hq]
    exact hs q

theorem inOrder_step (hadd : ∀ l m x, Rel l m → Rel (l ++ [x]) (m ++ [x]))
    {s s' : Locked P E C B} {act : Act P E R}
    (hdrop : Drops act → ∀ l m x, Rel (l ++ [x]) m → Rel l m)
    (h : Does ann a s act s') (hheld : Held s) (hs : InOrder Rel s) : InOrder Rel s' := by
  cases h with
  | make hp he => exact hs.make hadd _ hp
  | @spawn p q e hp he hpq hq =>
      refine (hs.make hadd e hp).setPhase ?_ (by simp)
      simp [Locked.setPhase, hpq, hq]
  | skip hp => exact hs.drop (hdrop trivial) hp (by simp)
  | @lock p e hp hfree =>
      intro q
      by_cases hq : q = p
      · subst hq
        have hun : s.unreported q = [(q, e)] := by simp [unreported, hp]
        rw [unreported_setPhase_self]
        simp only [Locked.setPhase, proj_append, List.append_nil]
        rw [proj_singleton_self (q, e), ← hun]
        exact hs q
      · rw [unreported_setPhase_ne hq]
        simp only [Locked.setPhase, proj_append]
        rw [proj_singleton_ne (Ne.symm hq), List.append_nil]
        exact hs q
  | write hh => exact hs
  | @unlock p c hh hc =>
      refine InOrder.setPhase (s := { s with holder := none }) hs ?_ (by simp)
      simp [hheld p c hh]
  | @exit p hp => exact hs.setPhase (by simp [hp]) (by simp)
  | kill hp => exact hs.drop (hdrop trivial) hp (by simp)
  | @killHolder p hp =>
      exact InOrder.setPhase (s := { s with holder := none }) hs (by simp [hp]) (by simp)

end InOrder

/-- The phase of another agent does not matter. -/
theorem Held.setPhase {s : Locked P E C B} (hs : Held s) {p : P} (hp : s.phase p ≠ some .holding)
    (ph : Phase E) : Held (s.setPhase p ph) := by
  intro q c hh
  have hq : s.phase q = some .holding := hs q c hh
  have hqp : q ≠ p := by
    rintro rfl
    exact hp hq
  simpa [Locked.setPhase, hqp] using hq

theorem held_step {s s' : Locked P E C B} {act : Act P E R} (h : Does ann a s act s')
    (hs : Held s) : Held s' := by
  cases h with
  | @make p e hp he =>
      exact Held.setPhase (s := { s with made := s.made ++ [(p, e)] }) hs (by simp [hp]) _
  | @spawn p q e hp he hpq hq =>
      refine (Held.setPhase (s := { s with made := s.made ++ [(p, e)] }) hs ?_ _).setPhase ?_ _
      · simp [hp]
      · simp [Locked.setPhase, hpq, hq]
  | @skip p e hp => exact hs.setPhase (by simp [hp]) _
  | @lock p e hp hfree =>
      intro q c hh
      obtain ⟨rfl, rfl⟩ : p = q ∧ a.start p e = c := by simpa [Locked.setPhase] using hh
      simp [Locked.setPhase]
  | @write p c r hh =>
      intro q c' hh'
      obtain ⟨rfl, -⟩ : p = q ∧ _ := by simpa using hh'
      exact hs p c hh
  | unlock hh hc =>
      intro q c hh'
      cases hh'
  | @exit p hp => exact hs.setPhase (by simp [hp]) _
  | @kill p e hp => exact hs.setPhase (by simp [hp]) _
  | killHolder hp =>
      intro q c hh'
      cases hh'

theorem held_start (root : P) : Held (start root : Locked P E C B) := by
  intro p c h
  cases h

theorem inOrder_start {Rel : List (P × E) → List (P × E) → Prop} (hnil : Rel [] []) (root : P) :
    InOrder Rel (start root : Locked P E C B) := by
  intro p
  have hun : (start root : Locked P E C B).unreported p = [] := by
    refine unreported_eq_nil fun e => ?_
    by_cases hp : p = root <;> simp [start, hp]
  rw [hun]
  exact hnil

/-- Every agent reports its events in its order, and none of them more than once. -/
theorem sublist_run {root : P} {s : Locked P E C B} {acts : List (Act P E R)}
    (h : run ann a (start root) acts = some s) : InOrder List.Sublist s := by
  have hs : Held s ∧ InOrder List.Sublist s :=
    run_induction (fun s => Held s ∧ InOrder List.Sublist s) (fun _ => True)
      (fun _ _ _ _ hd hs => ⟨held_step hd hs.1,
        inOrder_step (fun _ _ x hl => hl.append_right [x])
          (fun _ l _ x hl => (List.sublist_append_left l [x]).trans hl) hd hs.1 hs.2⟩)
      h (fun _ _ => trivial) ⟨held_start root, inOrder_start (List.Sublist.refl []) root⟩
  exact hs.2

/-! ## Agents -/

section Agents

variable (ann)

/-- The agents that run or have run are the root and those that were announced, each once. -/
structure Grown (root : P) (s : Locked P E C B) : Prop where
  known : ∀ p, (s.phase p).isSome = true ↔ p = root ∨ p ∈ announced ann s.made
  nodup : (announced ann s.made).Nodup
  root_not : root ∉ announced ann s.made
  ordered : Ordered ann (· = root) s.made

variable {ann} {root : P}

theorem isSome_setPhase {s : Locked P E C B} {p q : P} {ph : Phase E} :
    ((s.setPhase p ph).phase q).isSome = true ↔ q = p ∨ (s.phase q).isSome = true := by
  by_cases hq : q = p <;> simp [setPhase, hq]

omit [DecidableEq P] in
/-- Nothing else matters. -/
theorem Grown.congr {s s' : Locked P E C B} (hs : Grown ann root s) (hphase : s'.phase = s.phase)
    (hmade : s'.made = s.made) : Grown ann root s' :=
  ⟨by rw [hphase, hmade]; exact hs.known, by rw [hmade]; exact hs.nodup,
    by rw [hmade]; exact hs.root_not, by rw [hmade]; exact hs.ordered⟩

/-- A new phase of an agent that is there. -/
theorem Grown.setPhase {s : Locked P E C B} (hs : Grown ann root s) {p : P}
    (hp : (s.phase p).isSome = true) (ph : Phase E) : Grown ann root (s.setPhase p ph) where
  known q := by
    rw [isSome_setPhase]
    exact (or_iff_right_of_imp fun hq => hq ▸ hp).trans (hs.known q)
  nodup := hs.nodup
  root_not := hs.root_not
  ordered := hs.ordered

omit [DecidableEq P] in
theorem Grown.ordered_snoc {s : Locked P E C B} (hs : Grown ann root s) {p : P} (e : E)
    (hp : (s.phase p).isSome = true) : Ordered ann (· = root) (s.made ++ [(p, e)]) := by
  have hlast : Ordered ann (· = p) [(p, e)] := ordered_singleton ann rfl
  exact ordered_append ann hs.ordered hlast fun _ hq => hq ▸ (hs.known p).mp hp

omit [DecidableEq P] in
theorem Grown.make {s : Locked P E C B} (hs : Grown ann root s) {p : P} {e : E}
    (hp : s.phase p = some .running) (he : ann e = none) :
    Grown ann root { s with made := s.made ++ [(p, e)] } := by
  have hann : announced ann (s.made ++ [(p, e)]) = announced ann s.made := by
    simp [announced, he]
  exact ⟨fun q => by rw [hann]; exact hs.known q, by rw [hann]; exact hs.nodup,
    by rw [hann]; exact hs.root_not, hs.ordered_snoc e (by simp [hp])⟩

theorem Grown.spawn {s : Locked P E C B} (hs : Grown ann root s) {p q : P} {e : E}
    (hp : s.phase p = some .running) (he : ann e = some q) (hq : s.phase q = none) :
    Grown ann root ({ s with made := s.made ++ [(p, e)] }.setPhase q .running) := by
  have hann : announced ann (s.made ++ [(p, e)]) = announced ann s.made ++ [q] := by
    simp [announced, he]
  have hnew : ¬ (q = root ∨ q ∈ announced ann s.made) := by
    rw [← hs.known q, hq]
    simp
  rw [not_or] at hnew
  refine ⟨fun r => ?_, ?_, ?_, hs.ordered_snoc e (by simp [hp])⟩
  · rw [isSome_setPhase]
    simp only [Locked.setPhase, hann, List.mem_append, List.mem_singleton]
    rw [hs.known r]
    tauto
  · simp only [Locked.setPhase, hann]
    exact List.nodup_append.mpr ⟨hs.nodup, List.nodup_singleton q, fun r hr r' hr' hrr =>
      hnew.2 (List.mem_singleton.mp hr' ▸ hrr ▸ hr)⟩
  · simp only [Locked.setPhase, hann, List.mem_append, List.mem_singleton, not_or]
    exact ⟨hs.root_not, Ne.symm hnew.1⟩

theorem grown_step {s s' : Locked P E C B} {act : Act P E R} (h : Does ann a s act s')
    (hheld : Held s) (hs : Grown ann root s) : Grown ann root s' := by
  cases h with
  | make hp he => exact (hs.make hp he).setPhase (by simp [hp]) _
  | @spawn p q e hp he hpq hq =>
      have hcomm : ({ s with made := s.made ++ [(p, e)] }.setPhase p (.reporting e)).setPhase q
          .running = ({ s with made := s.made ++ [(p, e)] }.setPhase q .running).setPhase p
            (.reporting e) := by
        simp only [Locked.setPhase, Locked.mk.injEq, and_true]
        exact Function.update_comm (Ne.symm hpq) _ _ _
      rw [hcomm]
      exact (hs.spawn hp he hq).setPhase (by simp [isSome_setPhase, hp]) _
  | skip hp => exact hs.setPhase (by simp [hp]) _
  | @lock p e hp hfree =>
      have hs' : Grown ann root
          { s with holder := some (p, a.start p e), log := s.log ++ [(p, e)] } := hs.congr rfl rfl
      exact hs'.setPhase (by simp [hp]) _
  | write r hh => exact hs.congr rfl rfl
  | @unlock p c hh hc =>
      have hs' : Grown ann root { s with holder := none } := hs.congr rfl rfl
      exact hs'.setPhase (by simp [hheld p c hh]) _
  | exit hp => exact hs.setPhase (by simp [hp]) _
  | kill hp => exact hs.setPhase (by simp [hp]) _
  | killHolder hp =>
      have hs' : Grown ann root { s with holder := none } := hs.congr rfl rfl
      exact hs'.setPhase (by simp [hp]) _

theorem grown_start : Grown ann root (start root : Locked P E C B) where
  known p := by by_cases hp : p = root <;> simp [start, hp]
  nodup := List.nodup_nil
  root_not := List.not_mem_nil
  ordered := ordered_nil ann _

end Agents

/-! ## What the order of the log tells -/

section Causal

variable (ann)

/-- When `p` makes an event it has reported all earlier ones. So in the log these stand in front
    of everything that comes from agents which are announced then or later. -/
def Causal (root : P) (s : Locked P E C B) : Prop :=
  ∀ m₁ p e m₂, s.made = m₁ ++ (p, e) :: m₂ →
    proj p m₁ <+: proj p s.log ∧
      ∀ l₁ x l₂, s.log = l₁ ++ x :: l₂ → ¬ (x.1 = root ∨ x.1 ∈ announced ann m₁) →
        proj p m₁ <+: proj p l₁

variable {ann} {root : P}

theorem Causal.make {s : Locked P E C B} (hs : Causal ann root s) {p : P} (e : E)
    (hp : proj p s.made = proj p s.log)
    (hlog : ∀ x ∈ s.log, x.1 = root ∨ x.1 ∈ announced ann s.made) :
    Causal ann root { s with made := s.made ++ [(p, e)] } := by
  intro m₁ q e' m₂ hmade
  rcases snoc_eq_append_cons.mp hmade with ⟨-, rfl, heq⟩ | ⟨m, rfl, hm⟩
  · obtain rfl : p = q := congrArg Prod.fst heq
    refine ⟨hp ▸ List.prefix_rfl, fun l₁ x l₂ hl hx => ?_⟩
    exact absurd (hlog x (by rw [show s.log = _ from hl]; simp)) hx
  · exact hs m₁ q e' m hm

theorem Causal.lock {s : Locked P E C B} (hs : Causal ann root s) (y : P × E)
    (h : Option (P × C)) : Causal ann root { s with holder := h, log := s.log ++ [y] } := by
  intro m₁ p e m₂ hmade
  obtain ⟨hpre, hold⟩ := hs m₁ p e m₂ hmade
  refine ⟨?_, fun l₁ x l₂ hl hx => ?_⟩
  · simp only [proj_append]
    exact hpre.trans (List.prefix_append _ _)
  · rcases snoc_eq_append_cons.mp hl with ⟨-, rfl, -⟩ | ⟨l, rfl, hl'⟩
    · exact hpre
    · exact hold l₁ x l hl' hx

theorem Causal.congr {s s' : Locked P E C B} (hs : Causal ann root s) (hmade : s'.made = s.made)
    (hlog : s'.log = s.log) : Causal ann root s' := by
  unfold Causal
  rw [hmade, hlog]
  exact hs

/-- An agent that is running has reported everything. -/
theorem InOrder.of_running {s : Locked P E C B} (hs : InOrder Eq s) {p : P}
    (hp : s.phase p = some .running) : proj p s.made = proj p s.log := by
  have hnil : s.unreported p = [] := unreported_eq_nil fun e => by simp [hp]
  have heq : proj p s.log ++ s.unreported p = proj p s.made := hs p
  rw [← heq, hnil, List.append_nil]

theorem InOrder.mem_made {s : Locked P E C B} (hs : InOrder Eq s) {x : P × E} (hx : x ∈ s.log) :
    x ∈ s.made := by
  have heq : proj x.1 s.log ++ s.unreported x.1 = proj x.1 s.made := hs x.1
  have hmem : x ∈ proj x.1 s.made := heq ▸ List.mem_append_left _ (mem_proj.mpr ⟨hx, rfl⟩)
  exact (mem_proj.mp hmem).1

omit [DecidableEq P] in
/-- Who makes an event is known. -/
theorem Grown.mem_known {s : Locked P E C B} (hs : Grown ann root s) {x : P × E}
    (hx : x ∈ s.made) : x.1 = root ∨ x.1 ∈ announced ann s.made := by
  obtain ⟨m₁, m₂, hm⟩ := List.append_of_mem hx
  refine (hs.ordered m₁ x m₂ hm).imp_right fun h => ?_
  rw [hm, announced_append]
  exact List.mem_append_left _ h

theorem causal_step {s s' : Locked P E C B} {act : Act P E R} (h : Does ann a s act s')
    (hord : InOrder Eq s) (hgrown : Grown ann root s) (hs : Causal ann root s) :
    Causal ann root s' := by
  have hlog : ∀ x ∈ s.log, x.1 = root ∨ x.1 ∈ announced ann s.made := fun x hx =>
    hgrown.mem_known (hord.mem_made hx)
  cases h with
  | @make p e hp he => exact (hs.make e (hord.of_running hp) hlog).congr rfl rfl
  | @spawn p q e hp he hpq hq => exact (hs.make e (hord.of_running hp) hlog).congr rfl rfl
  | skip hp => exact hs.congr rfl rfl
  | @lock p e hp hfree => exact (hs.lock (p, e) (some (p, a.start p e))).congr rfl rfl
  | write r hh => exact hs.congr rfl rfl
  | unlock hh hc => exact hs.congr rfl rfl
  | exit hp => exact hs.congr rfl rfl
  | kill hp => exact hs.congr rfl rfl
  | killHolder hp => exact hs.congr rfl rfl

theorem causal_start : Causal ann root (start root : Locked P E C B) := by
  intro m₁ p e m₂ h
  simp [start] at h

variable (ann root)

/-- What holds in a run in which every event is reported. -/
structure Sound (s : Locked P E C B) : Prop where
  held : Held s
  inOrder : InOrder Eq s
  grown : Grown ann root s
  causal : Causal ann root s

variable {ann root}

theorem sound_run {s : Locked P E C B} {acts : List (Act P E R)}
    (h : run ann a (start root) acts = some s) (hacts : ∀ act ∈ acts, ¬ Drops act) :
    Sound ann root s := by
  refine run_induction (Sound ann root) (fun act => ¬ Drops act) (fun s act s' hact hd hs => ?_) h
    hacts
    ⟨held_start root, inOrder_start rfl root, grown_start, causal_start⟩
  exact ⟨held_step hd hs.held,
    inOrder_step (fun _ _ x hl => congrArg (· ++ [x]) hl) (fun hdrop => absurd hdrop hact) hd
      hs.held hs.inOrder,
    grown_step hd hs.held hs.grown, causal_step hd hs.inOrder hs.grown hs.causal⟩

omit [DecidableEq P] in
/-- Nobody but the root makes the first event. -/
theorem Grown.head {s : Locked P E C B} (hs : Grown ann root s) {x : P × E} {m : List (P × E)}
    (hmade : s.made = x :: m) : x.1 = root := by
  rcases hs.ordered [] x m hmade with h | h
  · exact h
  · cases h

end Causal

/-! ## Runs without faults -/

section Reachable

variable (ann a)

/-- A run without faults leads here. -/
def Reachable (root : P) (s : Locked P E C B) : Prop :=
  ∃ acts : List (Act P E R), run ann a (start root) acts = some s ∧
    ∀ act ∈ acts, ¬ Tears a act ∧ ¬ Drops act

variable {ann a} {root : P}

theorem Reachable.sound {s : Locked P E C B} (h : Reachable ann a root s) : Sound ann root s := by
  obtain ⟨acts, hrun, hacts⟩ := h
  exact sound_run hrun fun act hact => (hacts act hact).2

theorem Reachable.whole {s : Locked P E C B} (h : Reachable ann a root s) : Whole a s := by
  obtain ⟨acts, hrun, hacts⟩ := h
  exact whole_run hrun fun act hact => (hacts act hact).1

theorem Reachable.step {s s' : Locked P E C B} (h : Reachable ann a root s) {act : Act P E R}
    (hact : ¬ Tears a act ∧ ¬ Drops act) (hstep : step ann a s act = some s') :
    Reachable ann a root s' := by
  obtain ⟨acts, hrun, hacts⟩ := h
  refine ⟨acts ++ [act], ?_, ?_⟩
  · rw [run, List.foldlM_append, show List.foldlM (Locked.step ann a) (start root) acts = some s
      from hrun]
    simp [hstep]
  · intro x hx
    rcases List.mem_append.mp hx with hx | hx
    · exact hacts x hx
    · exact List.mem_singleton.mp hx ▸ hact

/-- The holder of the lock writes. -/
theorem Reachable.writes {s : Locked P E C B} (h : Reachable ann a root s) {p : P} {c : C}
    (hh : s.holder = some (p, c)) {rs : List R} (hrs : ∀ r ∈ rs, a.fault r = false) :
    ∃ s', Reachable ann a root s' ∧ s'.made = s.made ∧ s'.log = s.log ∧ s'.phase = s.phase ∧
      s'.holder = some (p, rs.foldl (fun c r => (a.write c r).2) c) := by
  induction rs generalizing s c with
  | nil => exact ⟨s, h, rfl, rfl, rfl, hh⟩
  | cons r rs ih =>
      rw [List.forall_mem_cons] at hrs
      have hstep : Locked.step ann a s (.write p r) =
          some { s with file := s.file ++ (a.write c r).1, holder := some (p, (a.write c r).2) } := by
        simp [Locked.step, hh]
      exact ih (h.step ⟨by simp [Tears, hrs.1], by simp [Drops]⟩ hstep) rfl hrs.2

/-- An event is reported. -/
theorem Reachable.report {s : Locked P E C B} (h : Reachable ann a root s) {x : P × E}
    (hx : s.phase x.1 = some (.reporting x.2)) (hfree : s.holder = none) :
    ∃ s', Reachable ann a root s' ∧ s'.made = s.made ∧ s'.log = s.log ++ [x] ∧
      s'.holder = none ∧ s'.phase = Function.update s.phase x.1 (some .running) := by
  have hlock : Locked.step ann a s (.lock x.1) =
      some ({ s with holder := some (x.1, a.start x.1 x.2), log := s.log ++ [x] }.setPhase x.1
        .holding) := by
    simp [Locked.step, hx, hfree]
  obtain ⟨rs, hrs, hended⟩ := a.finish (a.start x.1 x.2)
  obtain ⟨s₁, h₁, hmade, hlog, hphase, hh⟩ :=
    (h.step ⟨by simp [Tears], by simp [Drops]⟩ hlock).writes rfl hrs
  have hunlock : Locked.step ann a s₁ (.unlock x.1) =
      some ({ s₁ with holder := none }.setPhase x.1 .running) := by
    simp only [Locked.step, hh, hended, and_self, if_true]
  refine ⟨_, h₁.step ⟨by simp [Tears], by simp [Drops]⟩ hunlock, hmade, hlog, rfl, ?_⟩
  simp [setPhase, hphase]

end Reachable

/-! ## Schedules -/

section Schedules

variable (ann)

/-- Events that can be made in this order: nobody acts before it is announced, and nobody is
    announced twice. -/
structure Feasible (root : P) (m : List (P × E)) : Prop where
  ordered : Ordered ann (· = root) m
  nodup : (announced ann m).Nodup
  root_not : root ∉ announced ann m

variable {ann} {root : P}

omit [DecidableEq P] in
theorem Feasible.left {l r : List (P × E)} (h : Feasible ann root (l ++ r)) :
    Feasible ann root l := by
  have hann : announced ann (l ++ r) = announced ann l ++ announced ann r := announced_append ann l r
  refine ⟨ordered_left ann h.ordered, ?_, fun hm => h.root_not ?_⟩
  · exact (List.nodup_append.mp (hann ▸ h.nodup)).1
  · rw [hann]
    exact List.mem_append_left _ hm

/-- The next event of a feasible list, by an agent that is running. -/
theorem Reachable.make {s : Locked P E C B} (h : Reachable ann a root s) {x : P × E}
    (hx : s.phase x.1 = some .running) (hm : Feasible ann root (s.made ++ [x])) :
    ∃ s', Reachable ann a root s' ∧ s'.made = s.made ++ [x] ∧ s'.log = s.log ∧
      s'.holder = s.holder ∧ s'.phase x.1 = some (.reporting x.2) ∧
      ∀ q, q ≠ x.1 → s'.phase q = if ann x.2 = some q then some .running else s.phase q := by
  have hclean : ¬ Tears a (.make x.1 x.2 : Act P E R) ∧ ¬ Drops (.make x.1 x.2 : Act P E R) :=
    ⟨by simp [Tears], by simp [Drops]⟩
  cases he : ann x.2 with
  | none =>
      have hstep : Locked.step ann a s (.make x.1 x.2) =
          some ({ s with made := s.made ++ [x] }.setPhase x.1 (.reporting x.2)) := by
        simp [Locked.step, hx, he, spawn]
      refine ⟨_, h.step hclean hstep, rfl, rfl, rfl, ?_, ?_⟩
      · simp [setPhase]
      · intro q hq
        simp [setPhase, hq]
  | some r =>
      have hann : announced ann (s.made ++ [x]) = announced ann s.made ++ [r] := by
        simp [announced, he]
      have hnew : ¬ (r = root ∨ r ∈ announced ann s.made) := by
        rintro (rfl | hr)
        · exact hm.root_not (by rw [hann]; simp)
        · have hnd := hm.nodup
          rw [hann, List.nodup_append] at hnd
          exact hnd.2.2 r hr r (List.mem_singleton.mpr rfl) rfl
      have hr : s.phase r = none := by
        have hnot := (h.sound.grown.known r).not.mpr hnew
        simpa using hnot
      have hrx : r ≠ x.1 := by
        rintro rfl
        rw [hr] at hx
        cases hx
      have hstep : Locked.step ann a s (.make x.1 x.2) =
          some (({ s with made := s.made ++ [x] }.setPhase x.1 (.reporting x.2)).setPhase r
            .running) := by
        simp [Locked.step, hx, he, spawn, setPhase, hrx, hr]
      refine ⟨_, h.step hclean hstep, rfl, rfl, rfl, ?_, ?_⟩
      · simp [setPhase, Ne.symm hrx]
      · intro q hq
        by_cases hqr : q = r
        · simp [setPhase, hqr]
        · simp [setPhase, hqr, hq, Ne.symm hqr]

/-- Nobody has ended or has anything to report. -/
structure Quiet (s : Locked P E C B) : Prop where
  free : s.holder = none
  phase : ∀ p, s.phase p = none ∨ s.phase p = some .running

omit [DecidableEq P] in
/-- The agent of the next event is running. -/
theorem Quiet.running {s : Locked P E C B} (hs : Quiet s) (hgrown : Grown ann root s)
    {x : P × E} {l : List (P × E)} (hm : Feasible ann root (s.made ++ x :: l)) :
    s.phase x.1 = some .running := by
  have hknown : (s.phase x.1).isSome = true :=
    (hgrown.known x.1).mpr (hm.ordered s.made x l rfl)
  rcases hs.phase x.1 with hp | hp
  · rw [hp] at hknown; cases hknown
  · exact hp

omit [DecidableEq P] in
/-- The first event of an agent that is announced first can be made at once. -/
theorem Feasible.advance {x y : P × E} {l r : List (P × E)}
    (hm : Feasible ann root (x :: (l ++ y :: r))) (hxy : ann x.2 = some y.1) :
    Feasible ann root (x :: y :: (l ++ r)) := by
  have hperm : (x :: (l ++ y :: r)).Perm (x :: y :: (l ++ r)) := List.perm_middle.cons x
  have hann := announced_perm ann hperm
  refine ⟨?_, hann.nodup_iff.mp hm.nodup, fun h => hm.root_not (hann.mem_iff.mpr h)⟩
  intro u z v h
  rcases u with _ | ⟨x', u⟩
  · rw [List.nil_append, List.cons.injEq] at h
    exact hm.ordered [] z (l ++ y :: r) (by rw [h.1]; rfl)
  rw [List.cons_append, List.cons.injEq] at h
  obtain ⟨rfl, h⟩ := h
  rcases u with _ | ⟨y', u⟩
  · rw [List.nil_append, List.cons.injEq] at h
    exact Or.inr ((mem_announced ann).mpr ⟨x, List.mem_cons_self, h.1 ▸ hxy⟩)
  rw [List.cons_append, List.cons.injEq] at h
  obtain ⟨rfl, h⟩ := h
  rcases List.append_eq_append_iff.mp h with ⟨t, rfl, ht⟩ | ⟨t, rfl, ht⟩
  · -- `z` stands behind the old place of `y`
    refine (hm.ordered (x :: (l ++ y :: t)) z v (by simp [ht])).imp_right fun hz => ?_
    exact (announced_perm ann (List.perm_middle.cons x)).mem_iff.mp hz
  · rcases t with _ | ⟨z', t⟩
    · refine (hm.ordered (x :: (u ++ [y])) z v (by simp_all)).imp_right fun hz => ?_
      exact (announced_perm ann ((@List.perm_append_comm _ u [y]).cons x)).mem_iff.mp hz
    · obtain ⟨rfl, rfl⟩ := List.cons.inj ht
      refine (hm.ordered (x :: u) z (t ++ y :: r) (by simp)).imp_right fun hz => ?_
      refine (announced_subperm ann ?_).subset hz
      exact ((List.sublist_cons_self y u).cons_cons x).subperm

end Schedules

end Locked

end Buildsh.Generic
