/-
  Which traces are read to their end.

  `total_iff`: `post_process` of either back end reads a log to its end exactly when every call of
  a handler that it makes is harmless (`Harmless`): no `rename` of a name without a key to a name
  with one, which stores `nil` as a key (`renameat` has the check that `rename` lacks), and no
  `fork` of a process with parked events where the replays are nested as deeply as the stack
  allows. `preload.lua` wants a first line that `syscall_re` matches as well.
-/
import Buildsh.Generic.Calls
import Buildsh.PreloadLog
import Buildsh.Strace

namespace Buildsh.Total
open Buildsh.Generic Buildsh.Base Buildsh.Trace
open Buildsh.Preload (Line TraceState register)
open Buildsh.PreloadLog (lineOf)

/-! ## Calls of the handlers -/

/-- A call that neither raises nor has a replay to start that cannot be nested any more. -/
structure Harmless (ape : Ape) (call : Call Pid Event World) : Prop where
  rename : ∀ src dst d, call.event = .rename src dst → call.state.world.pd call.agent = some d →
    getPath ape d.cwd src = none → getPath ape d.cwd dst = none
  fork : ∀ cpid e pt, call.event = .fork cpid → call.state.delayed cpid = some (e :: pt) →
    0 < call.depth

section Calls

variable {ape : Ape} {depth : Nat}

theorem keepsKnown_machine : (machine ape).KeepsKnown := by
  intro c w w' p e hc hb
  change (w'.pd c).isSome = true
  change (w.pd c).isSome = true at hc
  cases hp : w.pd p with
  | none =>
      rw [body_none hp hb]
      exact hc
  | some d =>
      have hknown : (machine ape).known w p = true := by
        change (w.pd p).isSome = true
        rw [hp]
        rfl
      exact ((localView ape).lawful.known_body hknown hb c).mpr (Or.inl hc)

theorem known_of_calls {s : TraceState} {log : List (Pid × Event)} {call : Call Pid Event World}
    (h : Calls (machine ape) depth s log call) :
    ∃ d, call.state.world.pd call.agent = some d := by
  induction h with
  | head hp => exact Option.isSome_iff_exists.mp hp
  | replayed _ _ _ _ _ _ ih => exact ih
  | tail _ _ ih => exact ih

theorem raisesOn_none_iff {d : PData} {e : Event} :
    raisesOn ape d e = none ↔ ∀ src dst, e = .rename src dst →
      getPath ape d.cwd src = none → getPath ape d.cwd dst = none := by
  cases e with
  | rename src dst =>
      simp only [raisesOn, Event.rename.injEq, ite_eq_right_iff, reduceCtorEq, imp_false, not_and,
        not_not, and_imp]
      exact ⟨fun h _ _ hs hd => by rw [← hs, ← hd]; exact h, fun h => h src dst rfl rfl⟩
  | _ => simp [raisesOn]

theorem known_after_fork (w : World) (p cpid : Pid) (d : PData) :
    (machine ape).known (after ape w p d (.fork cpid)) cpid = true := by
  change ((after ape w p d (.fork cpid)).pd cpid).isSome = true
  simp [after, Event.announces]

theorem goes_iff {call : Call Pid Event World} {d : PData}
    (hd : call.state.world.pd call.agent = some d) :
    call.Goes (machine ape) ↔ Harmless ape call := by
  have hbody : (machine ape).body call.state.world call.agent call.event = _ :=
    body_eq hd call.event
  constructor
  · rintro ⟨w, hb, hgo⟩
    rw [hbody] at hb
    cases hr : raisesOn ape d call.event with
    | some err => rw [hr] at hb; cases hb
    | none =>
        rw [hr] at hb
        cases hb
        refine ⟨fun src dst d' he hd' => ?_, fun cpid e pt he hq => ?_⟩
        · rw [hd] at hd'
          cases hd'
          exact raisesOn_none_iff.mp hr src dst he
        · refine hgo cpid e pt ?_ hq ?_
          · change call.event.announces = some cpid
            rw [he]
            rfl
          · rw [he]
            exact known_after_fork _ _ _ _
  · rintro ⟨hrename, hfork⟩
    have hr : raisesOn ape d call.event = none :=
      raisesOn_none_iff.mpr fun src dst he => hrename src dst d he hd
    rw [hr] at hbody
    refine ⟨_, hbody, fun c e pt ha hq _ => ?_⟩
    cases he : call.event with
    | fork cpid =>
        change call.event.announces = some c at ha
        rw [he] at ha
        cases ha
        exact hfork c e pt he hq
    | _ =>
        change call.event.announces = some c at ha
        rw [he] at ha
        cases ha

theorem run_ok_iff_harmless {s : TraceState} {log : List (Pid × Event)} :
    (∃ s', run (machine ape) depth s log = .ok s') ↔
      ∀ call, Calls (machine ape) depth s log call → Harmless ape call := by
  rw [run_ok_iff keepsKnown_machine]
  refine forall₂_congr fun call hcall => ?_
  obtain ⟨d, hd⟩ := known_of_calls hcall
  exact goes_iff hd

end Calls

/-! ## The back ends -/

/-- The event of a line. -/
def lineEvent : Line → Option (Pid × Event)
  | .event pid e => some (pid, e)
  | _ => none

/-- The log is read to its end, and what `finish` is given has strings for keys. -/
def Finishes (r : Except (Fault LuaError) TraceState) : Prop :=
  ∃ s, r = .ok s ∧
    ∀ v, v ∈ s.world.td.input.ofStrings ∨ v ∈ s.world.td.output.ofStrings → v.isString = true

theorem finishes_iff {r : Except (Fault LuaError) TraceState} :
    Finishes r ↔ ∃ s, r = .ok s := by
  refine exists_congr fun s => and_iff_left fun v hv => ?_
  rcases hv with hv | hv
  all_goals
    obtain ⟨k, -, rfl⟩ := Table.exists_of_mem_ofStrings hv
    rfl

section BackEnds

variable (ape : Ape) (depth : Nat) (dir prog : LuaString)

theorem readLines_preload (s : TraceState) (lines : List Line) :
    Preload.readLines ape depth dir none s lines =
      run (machine ape) depth s (lines.filterMap lineEvent) := by
  induction lines generalizing s with
  | nil => rfl
  | cons l lines ih =>
      simp only [Preload.readLines, Preload.beginWith]
      cases l with
      | garbled => exact ih s
      | ignored pid => exact ih s
      | event pid e =>
          simp only [Preload.handleLine, List.filterMap_cons, lineEvent, run_cons]
          cases checked (machine ape) depth s pid e with
          | error err => rfl
          | ok s₁ => exact ih s₁

theorem register_start (pid : Pid) :
    register (State.start ⟨⟨∅, ∅⟩, fun _ => none⟩) pid dir = State.start (World.start pid dir) :=
  rfl

/-- The first line stands for the first `exec`. -/
theorem postProcess_preload {l : Line} {pid : Pid} (hpid : l.pid = some pid) (lines : List Line) :
    Preload.postProcess ape depth dir prog (l :: lines) =
      run (machine ape) depth (State.start (World.start pid dir))
        ((pid, .exec prog) :: (l :: lines).filterMap lineEvent) := by
  rw [run_cons, Preload.postProcess, Preload.readLines]
  simp only [hpid, Preload.beginWith, register_start]
  cases h : checked (machine ape) depth (State.start (World.start pid dir)) pid (.exec prog) with
  | error err => rfl
  | ok s => exact readLines_preload ape depth dir s (l :: lines)

/-- The process that is registered for a log of `strace`. -/
def firstPid (text : List LuaString) : Option Pid :=
  (Strace.callsOf (fun _ _ => []) text).head?.map fun c => c.pid

/-- The log that `strace.lua` makes of a text. -/
def straceLog (text : List LuaString) : List (Pid × Event) :=
  Strace.eventsOf (Strace.callsOf (fun _ _ => []) text)

/-- The first call registers its process. -/
theorem readLines_true (t : Strace.Unfinished) (s : TraceState) (text : List LuaString) :
    Strace.readLines ape depth dir t true s text =
      match (Strace.callsOf t text).head? with
      | none => .ok s
      | some c => run (machine ape) depth (register s c.pid dir)
          (Strace.eventsOf (Strace.callsOf t text)) := by
  induction text generalizing t with
  | nil => rfl
  | cons line text ih =>
      cases h : Strace.takeLine t line with
      | mk t' c =>
          cases c with
          | none =>
              rw [Strace.readLines, h, Strace.callsOf, h]
              exact ih t'
          | some c =>
              have hfalse : Strace.readLines ape depth dir t true s (line :: text) =
                  Strace.readLines ape depth dir t false (register s c.pid dir) (line :: text) := by
                simp [Strace.readLines, h]
              rw [hfalse, Strace.readLines_false, Strace.callsOf, h]
              rfl

theorem postProcess_strace (text : List LuaString) :
    Strace.postProcess ape depth dir text =
      match firstPid text with
      | none => .ok (State.start ⟨⟨∅, ∅⟩, fun _ => none⟩)
      | some pid => run (machine ape) depth (State.start (World.start pid dir))
          (straceLog text) := by
  rw [Strace.postProcess, readLines_true, firstPid, straceLog]
  cases (Strace.callsOf (fun _ _ => []) text).head? <;> rfl

end BackEnds

/-- **Totality.** When a log is read to its end. -/
theorem total_iff (ape : Ape) (depth : Nat) (dir prog : LuaString) (text : List LuaString) :
    (Finishes (Preload.postProcess ape depth dir prog (text.map lineOf)) ↔
      ∀ line ∈ text.head?, ∃ pid, (lineOf line).pid = some pid ∧
        ∀ call, Calls (machine ape) depth (State.start (World.start pid dir))
          ((pid, .exec prog) :: (text.map lineOf).filterMap lineEvent) call →
          Harmless ape call) ∧
    (Finishes (Strace.postProcess ape depth dir text) ↔
      ∀ pid ∈ firstPid text, ∀ call,
        Calls (machine ape) depth (State.start (World.start pid dir)) (straceLog text) call →
          Harmless ape call) := by
  constructor
  · rw [finishes_iff]
    cases text with
    | nil => simp [Preload.postProcess, Preload.readLines]
    | cons line text =>
        simp only [List.head?_cons, Option.mem_some_iff, forall_eq', List.map_cons]
        cases hpid : (lineOf line).pid with
        | none => simp [Preload.postProcess, Preload.readLines, hpid, Preload.beginWith]
        | some pid =>
            rw [postProcess_preload ape depth dir prog hpid, run_ok_iff_harmless]
            simp
  · rw [finishes_iff, postProcess_strace]
    cases firstPid text with
    | none => simp
    | some pid => simp [run_ok_iff_harmless]

/-- A file moved from outside the project into it. -/
theorem not_finishes_rename :
    ¬ Finishes (Preload.postProcess (Apr.unixApe "/p".toList) 4 ".".toList "mv".toList
        (["1 rename \\x2f\\x78 \\x79".toList].map lineOf)) ∧
      ¬ Finishes (Strace.postProcess (Apr.unixApe "/p".toList) 4 ".".toList
        ["1 rename(\"\\x2f\\x78\", \"\\x79\") = 0".toList]) := by
  have hpreload : (Preload.postProcess (Apr.unixApe "/p".toList) 4 ".".toList "mv".toList
      (["1 rename \\x2f\\x78 \\x79".toList].map lineOf)).toOption.isSome = false := by
    decide +kernel
  have hstrace : (Strace.postProcess (Apr.unixApe "/p".toList) 4 ".".toList
      ["1 rename(\"\\x2f\\x78\", \"\\x79\") = 0".toList]).toOption.isSome = false := by
    decide +kernel
  constructor
  · rintro ⟨s, hs, -⟩
    rw [hs] at hpreload
    cases hpreload
  · rintro ⟨s, hs, -⟩
    rw [hs] at hstrace
    cases hstrace

end Buildsh.Total
