/-
  `preload.lua`: the back end that reads the log of the preloaded library.

  A line is taken as `syscall_re` and the argument pattern of its handler leave it. The log has
  no line for the start of the command itself, so `post_process` takes the process of the first
  line for the root of the process tree and runs the first `exec` for it.

  `tracked_iff`: on the log of a process tree this registers every process and applies every
  event exactly when the first line is one of the root and no `rename` raises. A child can run
  before its parent has written the `fork` line; if it also writes the first line, the root is
  never registered and all its events stay in the delay queue.
-/
import Buildsh.Trace

namespace Buildsh.Preload
open Buildsh.Generic Buildsh.Base Buildsh.Trace

/-! ## Reading a log -/

/-- A line of the log. -/
inductive Line where
  /-- not matched by `syscall_re`, so that `pid` is nil -/
  | garbled
  /-- of a call without a handler, or with arguments that its handler does not match -/
  | ignored (pid : Pid)
  | event (pid : Pid) (e : Event)
  deriving DecidableEq, Repr

def Line.pid : Line → Option Pid
  | .garbled => none
  | .ignored pid => some pid
  | .event pid _ => some pid

/-- `tempdeps` and `pdata`. -/
abbrev TraceState := State Pid Event World

/-- `pdata[ pid ] = { cwd = dir }` -/
def register (s : TraceState) (pid : Pid) (dir : LuaString) : TraceState :=
  { s with world := s.world.setProc pid ⟨dir, fun _ => none⟩ }

section Loop

variable (ape : Ape) (depth : Nat) (dir : LuaString)

/-- The first line stands for the first `exec` as well. -/
def beginWith (s : TraceState) (firstExec : Option LuaString) (pid : Option Pid) :
    Except (Fault LuaError) TraceState :=
  match firstExec with
  | none => .ok s
  | some prog =>
      match pid with
      | none => .error (.raised .nilKey)
      | some pid => checked (machine ape) depth (register s pid dir) pid (.exec prog)

def handleLine (s : TraceState) : Line → Except (Fault LuaError) TraceState
  | .event pid e => checked (machine ape) depth s pid e
  | _ => .ok s

/-- The loop over the lines. -/
def readLines : Option LuaString → TraceState → List Line → Except (Fault LuaError) TraceState
  | _, s, [] => .ok s
  | firstExec, s, l :: lines =>
      match beginWith ape depth dir s firstExec l.pid with
      | .error err => .error err
      | .ok s =>
          match handleLine ape depth s l with
          | .error err => .error err
          | .ok s => readLines none s lines

/-- `post_process`, up to the call of `finish`. -/
def postProcess (firstExec : LuaString) (lines : List Line) :
    Except (Fault LuaError) TraceState :=
  readLines ape depth dir (some firstExec) (State.start ⟨⟨∅, ∅⟩, fun _ => none⟩) lines

end Loop

/-- The lines of a log that is well formed. -/
def linesOf (log : List (Pid × Event)) : List Line := log.map fun x => .event x.1 x.2

section Log

variable {ape : Ape} {depth : Nat} {dir : LuaString}

theorem readLines_none (log : List (Pid × Event)) (s : TraceState) :
    readLines ape depth dir none s (linesOf log) = run (machine ape) depth s log := by
  induction log generalizing s with
  | nil => rfl
  | cons x log ih =>
      have hrun : run (machine ape) depth s (x :: log) =
          (checked (machine ape) depth s x.1 x.2).bind fun s => run (machine ape) depth s log := by
        unfold run
        rw [List.foldlM_cons]
        rfl
      rw [hrun]
      simp only [linesOf, List.map_cons, readLines, beginWith, handleLine]
      cases checked (machine ape) depth s x.1 x.2 with
      | error err => rfl
      | ok s₁ => exact ih s₁

/-- The world after the first `exec`. -/
def startExec (ape : Ape) (root : Pid) (dir prog : LuaString) : World :=
  after ape (World.start root dir) root ⟨dir, fun _ => none⟩ (.exec prog)

theorem start_pd_self (root : Pid) (dir : LuaString) :
    (World.start root dir).pd root = some ⟨dir, fun _ => none⟩ := by
  simp [World.start]

theorem startExec_pd (root : Pid) (prog : LuaString) :
    (startExec ape root dir prog).pd = (World.start root dir).pd := by
  unfold startExec
  rw [after_of_same (start_pd_self root dir) rfl rfl]

/-- A log is run with the process of its first line as the root. -/
theorem postProcess_cons (prog : LuaString) (x : Pid × Event) (log : List (Pid × Event)) :
    postProcess ape depth dir prog (linesOf (x :: log)) =
      run (machine ape) depth (State.start (startExec ape x.1 dir prog)) (x :: log) := by
  have hreg : register (State.start ⟨⟨∅, ∅⟩, fun _ => none⟩) x.1 dir =
      (State.start (World.start x.1 dir) : TraceState) := rfl
  have hknown : (machine ape).known (World.start x.1 dir) x.1 = true := by
    change ((World.start x.1 dir).pd x.1).isSome = true
    rw [start_pd_self]
    rfl
  have hbody : (machine ape).body (World.start x.1 dir) x.1 (.exec prog) =
      .ok (startExec ape x.1 dir prog) :=
    body_eq (start_pd_self x.1 dir) (.exec prog)
  have hexec : checked (machine ape) depth (State.start (World.start x.1 dir)) x.1 (.exec prog) =
      .ok (State.start (startExec ape x.1 dir prog)) :=
    (checked_of_known hknown depth _).trans (handle_of_not_announces hbody rfl depth)
  have hread : readLines ape depth dir none (State.start (startExec ape x.1 dir prog))
      (linesOf (x :: log)) = run (machine ape) depth (State.start (startExec ape x.1 dir prog))
        (x :: log) := readLines_none _ _
  rw [← hread]
  simp only [postProcess, linesOf, List.map_cons, readLines, Line.pid, beginWith, hreg, hexec]

end Log

/-! ## Which logs are tracked -/

/-- `post_process` registers every process of the log and applies all its events. -/
def Tracked (ape : Ape) (depth : Nat) (dir prog : LuaString) (log : List (Pid × Event)) : Prop :=
  ∃ s, postProcess ape depth dir prog (linesOf log) = .ok s ∧
    (∀ x ∈ log, (s.world.pd x.1).isSome = true) ∧ s.delayed = fun _ => none

section Tracked

variable {ape : Ape} {depth : Nat} {dir prog : LuaString} {root : Pid}
  {log : List (Pid × Event)}

theorem rootOnly_startExec : RootOnly (startExec ape root dir prog) root := by
  intro q
  rw [startExec_pd]
  exact rootOnly_start root dir q

theorem initial_startExec :
    LocalView.Initial (localView ape) root ⟨dir, fun _ => none⟩ (startExec ape root dir prog) :=
  initial_of_rootOnly rootOnly_startExec (by rw [startExec_pd]; exact start_pd_self root dir)

/-- Every process of a tree is the root or announced by a process that logs an event. -/
theorem root_logs {ann : Event → Option Pid} {p : Pid} (h : InTree ann root log p) :
    p = root ∨ ∃ x ∈ log, x.1 = root := by
  induction h with
  | root => exact Or.inl rfl
  | child _ he _ ih =>
      rcases ih with rfl | h
      · exact Or.inr ⟨_, he, rfl⟩
      · exact Or.inr h

theorem postProcess_of_root {x : Pid × Event} {rest : List (Pid × Event)} (hlog : log = x :: rest)
    (hx : x.1 = root) : postProcess ape depth dir prog (linesOf log) =
      run (machine ape) depth (State.start (startExec ape root dir prog)) log := by
  rw [hlog, postProcess_cons, hx]

theorem tracked_of_root (ht : Generic.Tree Event.announces root log) (hd : log.length ≤ depth)
    {x : Pid × Event} {rest : List (Pid × Event)} (hlog : log = x :: rest) (hx : x.1 = root)
    (hno : LocalView.NoFail (localView ape) log root ⟨dir, fun _ => none⟩) :
    Tracked ape depth dir prog log := by
  have hw : LocalView.Initial (localView ape) root ⟨dir, fun _ => none⟩
      (startExec ape root dir prog) := initial_startExec
  obtain ⟨s, hs⟩ := (LocalView.run_ok_iff ht hw hd).mpr hno
  rcases run_tree (localView ape).lawful rootOnly_startExec ht hd with
    ⟨s', X, hr, hX, hord, hproj, hdel⟩ | ⟨err, X, y, w, hr, _⟩
  · refine ⟨s', (postProcess_of_root hlog hx).trans hr, fun y hy => ?_, hdel⟩
    exact LocalView.data_isSome_of_mem hw hX hord ((perm_of_proj_eq hproj).mem_iff.mpr hy)
  · rw [hs] at hr
    cases hr

/-- With a child as the first to log, the root is never registered. -/
theorem not_tracked_of_child (ht : Generic.Tree Event.announces root log)
    {x : Pid × Event} {rest : List (Pid × Event)} (hlog : log = x :: rest) (hx : x.1 ≠ root) :
    ¬ Tracked ape depth dir prog log := by
  rintro ⟨s, hs, hreg, -⟩
  rw [hlog, postProcess_cons, ← hlog] at hs
  have hstart : Avoids (machine ape) root (State.start (startExec ape x.1 dir prog)) := by
    refine ⟨fun h => hx ?_, fun q pt hq => by cases hq⟩
    exact ((rootOnly_startExec root).mp h).symm
  have hav := run_avoids (localView ape).lawful hstart ht.root_not hs
  have hmem : x ∈ log := hlog ▸ List.mem_cons_self
  rcases root_logs (ht.mem x hmem) with h | ⟨y, hy, hyr⟩
  · exact hx h
  · exact hav.unknown (hyr ▸ hreg y hy)

/-- **The first line decides.** -/
theorem tracked_iff (ht : Generic.Tree Event.announces root log) (hd : log.length ≤ depth) :
    Tracked ape depth dir prog log ↔
      log = [] ∨ (log.head?.map Prod.fst = some root ∧
        LocalView.NoFail (localView ape) log root ⟨dir, fun _ => none⟩) := by
  cases hlog : log with
  | nil => exact ⟨fun _ => Or.inl rfl, fun _ => ⟨_, rfl, by simp, rfl⟩⟩
  | cons x rest =>
      rw [← hlog]
      have hhead : log.head?.map Prod.fst = some root ↔ x.1 = root := by simp [hlog]
      rw [hhead]
      constructor
      · intro htr
        have hx : x.1 = root := by
          by_contra hx
          exact not_tracked_of_child ht hlog hx htr
        obtain ⟨s, hs, -⟩ := htr
        rw [postProcess_of_root hlog hx] at hs
        exact Or.inr ⟨hx, (LocalView.run_ok_iff ht initial_startExec hd).mp ⟨s, hs⟩⟩
      · rintro (h | ⟨hx, hno⟩)
        · rw [h] at hlog; cases hlog
        · exact tracked_of_root ht hd hlog hx hno

end Tracked

/-- A child that enters a directory before its parent has written the `fork` line. -/
def childFirst : List (Pid × Event) :=
  [("2".toList, .chdir "sub".toList), ("1".toList, .fork "2".toList)]

theorem childFirst_tree : Generic.Tree Event.announces "1".toList childFirst where
  nodup := by decide
  root_not := by decide
  mem := by
    have h₁ : InTree Event.announces "1".toList childFirst "1".toList := .root
    have h₂ : InTree Event.announces "1".toList childFirst "2".toList :=
      .child (e := .fork "2".toList) h₁ (by decide) rfl
    intro x hx
    simp only [childFirst, List.mem_cons, List.not_mem_nil, or_false] at hx
    rcases hx with rfl | rfl
    exacts [h₂, h₁]

theorem not_tracked_childFirst :
    ¬ ∀ (ape : Ape) (log : List (Pid × Event)) (root : Pid) (depth : Nat) (dir prog : LuaString),
        Generic.Tree Event.announces root log → log.length ≤ depth →
        Tracked ape depth dir prog log := by
  intro h
  obtain ⟨s, hs, -, hdel⟩ := h (Apr.unixApe "/p".toList) childFirst "1".toList 2 ".".toList
    "cc".toList childFirst_tree (by decide)
  have hq : ((postProcess (Apr.unixApe "/p".toList) 2 ".".toList "cc".toList
      (linesOf childFirst)).toOption.map fun s => s.delayed "1".toList) =
        some (some [.fork "2".toList]) := by decide
  rw [hs, Except.toOption, Option.map_some, hdel] at hq
  cases hq

theorem tracked_promptLog :
    Tracked (Apr.unixApe "/p".toList) 4 ".".toList "cc".toList promptLog := by
  refine (tracked_iff promptLog_tree (by decide)).mpr (Or.inr ⟨rfl, ?_⟩)
  intro p i d e _ he
  have hmem : (p, e) ∈ promptLog := by
    have he' := List.mem_of_getElem? he
    unfold eventsOf at he'
    obtain ⟨x, hx, rfl⟩ := List.mem_map.mp he'
    obtain ⟨hmem, rfl⟩ := mem_proj.mp hx
    exact hmem
  simp only [promptLog, List.mem_cons, List.not_mem_nil, or_false, Prod.mk.injEq] at hmem
  rcases hmem with ⟨-, rfl⟩ | ⟨-, rfl⟩ | ⟨-, rfl⟩ | ⟨-, rfl⟩ <;> rfl

end Buildsh.Preload
