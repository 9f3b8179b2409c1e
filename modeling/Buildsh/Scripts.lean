/-
  Build scripts.

  A script calls `make.run` again and again. Which command comes next may depend on the files and
  on the error that a call has raised, if the script catches it; it does not depend on whether the
  command was skipped, since `make.run` returns nothing in either case. `runScript` is a script
  under `buildsh`, and `execScript` the same script where every command is executed.

  `runScript_eq`: from every history the two end with the same files and the same error.
  `second_run_iff`: a sequence of commands executes nothing when it is run again, if and only if
  all that it has read and written is as it was. `orderly_skips`: this is so at once if no command
  writes what earlier ones have read or written.
-/
import Buildsh.Incremental

namespace Buildsh.Scripts
open Buildsh.Generic Buildsh.Base Buildsh.Commands Buildsh.Build Buildsh.Rebuild
open Buildsh.Incremental

variable {C D L : Type}

/-! ## Scripts -/

inductive Script (C : Type) where
  | stop (err : Option LuaError)
  /-- the script itself changes files -/
  | write (edit : Files C → Files C) (next : Files C → Script C)
  | run (c : Command C) (next : Files C → Option LuaError → Script C)

/-- The commands of a script. -/
def Script.Uses (cmds : Set (Command C)) : Script C → Prop
  | .stop _ => True
  | .write _ next => ∀ fs, (next fs).Uses cmds
  | .run c next => c ∈ cmds ∧ ∀ fs err, (next fs err).Uses cmds

/-- The error that a call of `make.run` raises. -/
def error? : RunResult → Option LuaError
  | .raised e => some e
  | _ => none

section Run

variable (os : Os (Files C) L) (handler : Option (ExecHandler D L))

def runScript : Session (Files C) → Script C → Session (Files C) × Option LuaError
  | b, .stop err => (b, err)
  | b, .write edit next => runScript { b with files := edit b.files } (next (edit b.files))
  | b, .run c next =>
      let (b', r) := makeRun os handler b c.argv c.dir
      runScript b' (next b'.files (error? r))

end Run

/-- The tracer is at hand, and reads the log of every successful run. -/
structure Works (os : Os (Files C) L) (handler : Option (ExecHandler D L)) (c : Command C) : Prop
    extends Performs os handler c where
  starts : ∃ argv' data, ExecHandler.start handler c.argv = .ok (argv', data)
  traces : ∀ {argv' : List LuaString} {data : Option D} {fs s : Files C} {log : L}
    {post : Option D → LuaString → L → Except LuaError Report},
    ExecHandler.start handler c.argv = .ok (argv', data) →
    os.exec argv' c.dir fs = .succeeded s log → handler.bind (·.postProcess) = some post →
    ∃ report, post data (c.dir.getD ['.']) log = .ok report

/-! ## Nothing raises while hashes are compared -/

/-- All names are strings. -/
def Named (io : Io) : Prop := ∀ v ∈ io, ∃ k, v = .str k

def Entry.Named : Entry → Prop
  | .table (some input) (some output) => Scripts.Named input ∧ Scripts.Named output
  | .table (some input) none => Scripts.Named input
  | _ => True

/-- The table of a buildsh that has made all its records itself. -/
def AllNamed (t : DepsTable) : Prop := ∀ v e, t.lookup v = some e → Entry.Named e

section Named

variable {hashFile : Value → Except LuaError LuaString} {hash : LuaString → LuaString}

end Named

/-! ## One call -/

section Call

variable {os : Os (Files C) L} {handler : Option (ExecHandler D L)} {cmds : Set (Command C)}
  {digest : Option C → LuaString}

theorem allNamed_makeRun {b : Session (Files C)} (ht : AllNamed b.dependencies)
    (argv : List LuaString) (dir : Option LuaString) :
    AllNamed (makeRun os handler b argv dir).1.dependencies := by
  rcases makeRun_cases (Prod.eta (makeRun os handler b argv dir)).symm with
    ⟨-, hb, -⟩ | ⟨-, hdeps, -⟩ | ⟨-, report, ⟨hrec⟩⟩
  · rw [hb]
    exact ht
  · rw [hdeps]
    exact ht
  · intro v e he
    rw [hrec.stored] at he
    by_cases hv : v = .str (argv2cmd os.dirsep argv dir)
    · rw [hv, AList.lookup_insert, Option.some.injEq] at he
      rw [← he]
      exact ⟨fun w hw => (mem_record_input hrec.recorded hw).imp fun k hk => hk.2,
        fun w hw => (mem_record_output hrec.recorded hw).imp fun k hk => hk.2⟩
    · rw [AList.lookup_insert_ne hv] at he
      exact ht v e he

/-- What is known of the table of a buildsh. -/
structure Good (os : Os (Files C) L) (digest : Option C → LuaString) (cmds : Set (Command C))
    (t : DepsTable) : Prop where
  sound : Sound os digest cmds t
  named : AllNamed t

end Call

/-! ## Every script -/

theorem good_makeRun {os : Os (Files C) L} {handler : Option (ExecHandler D L)}
    {cmds : Set (Command C)} {digest : Option C → LuaString}
    (hhash : ∀ fs k, os.hash fs k = digest (fs k))
    (hkeys : ∀ c ∈ cmds, ∀ c' ∈ cmds, key os c = key os c' → c = c') {c : Command C}
    (hc : c ∈ cmds) (hperf : Performs os handler c) {b : Session (Files C)}
    (hg : Good os digest cmds b.dependencies) :
    Good os digest cmds (makeRun os handler b c.argv c.dir).1.dependencies :=
  ⟨sound_makeRun hhash hkeys hc hperf hg.sound, allNamed_makeRun hg.named c.argv c.dir⟩

/-- The commands one after the other, up to the first error. -/
def sequence : List (Command C) → Script C
  | [] => .stop none
  | c :: cs => .run c fun _ err =>
      match err with
      | some e => .stop (some e)
      | none => sequence cs

def isSkipped : RunResult → Bool
  | .skipped => true
  | _ => false

/-- The commands that a script under buildsh executes. -/
def executed (os : Os (Files C) L) (handler : Option (ExecHandler D L)) :
    Session (Files C) → Script C → List (Command C)
  | _, .stop _ => []
  | b, .write edit next =>
      executed os handler { b with files := edit b.files } (next (edit b.files))
  | b, .run c next =>
      let (b', r) := makeRun os handler b c.argv c.dir
      (if isSkipped r then [] else [c]) ++ executed os handler b' (next b'.files (error? r))

/-- The commands of a sequence with the files that each one finds. -/
def places : Files C → List (Command C) → List (Files C × Command C)
  | _, [] => []
  | fs, c :: cs => (fs, c) :: places ((c.task.run fs).1.apply fs) cs

/-- The files that a command has read and written at its place are still as it has left them. -/
structure Settled (now : Files C) (x : Files C × Command C) : Prop where
  reads : ∀ k, (x.2.task.run x.1).1.reads k = true → now k = x.1 k
  writes : ∀ k v, (x.2.task.run x.1).1.writes k = some v → now k = v

/-- A command that has something to record. -/
def Touches (x : Files C × Command C) : Prop :=
  ∃ k, (x.2.task.run x.1).1.reads k = true ∨ ((x.2.task.run x.1).1.writes k).isSome = true

section Again

variable {os : Os (Files C) L} {handler : Option (ExecHandler D L)} {cmds : Set (Command C)}
  {digest : Option C → LuaString}

/-- A record on files that agree is a record on these as well. -/
theorem RecordOf.congr (hdigest : Function.Injective digest) {c : Command C} {fs files : Files C}
    {e : Entry} (r : RecordOf digest c fs e) (hfresh : c.task.Fresh digest fs files) :
    Nonempty (RecordOf digest c files e) := by
  have hrun := Task.run_eq_of_fresh hdigest hfresh
  refine ⟨⟨r.input, r.output, r.entry, hrun ▸ r.success, fun k => ?_, fun k => ?_⟩⟩
  · rw [r.lookup_input k, hrun]
    by_cases hk : (c.task.run fs).1.reads k = true
    · have hd := hfresh.reads k (digest (fs k)) (if_pos hk)
      simp only [Effect.readDigest, if_pos hk, hd]
    · simp only [Effect.readDigest, if_neg hk]
  · rw [r.lookup_output k, hrun]

/-- A call without an error leaves the record of a run on the files that it found. -/
theorem record_of_call (hdigest : Function.Injective digest)
    (hhash : ∀ fs k, os.hash fs k = digest (fs k)) {c : Command C}
    (hc : c ∈ cmds) (hworks : Works os handler c)
    (htracer : (handler.bind (·.postProcess)).isSome = true) {b : Session (Files C)}
    (hg : Good os digest cmds b.dependencies)
    (hok : error? (makeRun os handler b c.argv c.dir).2 = none) :
    (∃ e, (makeRun os handler b c.argv c.dir).1.dependencies.lookup (key os c) = some e ∧
        Nonempty (RecordOf digest c b.files e)) ∧
      (makeRun os handler b c.argv c.dir).1.files = (c.task.run b.files).1.apply b.files := by
  rcases makeRun_cases (Prod.eta (makeRun os handler b c.argv c.dir)).symm with
    ⟨-, hb, deps, hskip⟩ | ⟨hne, -, hnone⟩ | ⟨-, report, ⟨hrec⟩⟩
  · obtain ⟨input, output, hl, -, hin, hout⟩ := checkDeps_false_iff.mp ⟨deps, hskip⟩
    obtain ⟨fs, ⟨r⟩⟩ := hg.sound c hc _ hl
    have hio := r.entry
    rw [Entry.table.injEq, Option.some.injEq, Option.some.injEq] at hio
    have hfresh : c.task.Fresh digest fs b.files := r.fresh hhash (hio.1 ▸ hin) (hio.2 ▸ hout)
    rw [hb]
    exact ⟨⟨_, hl, RecordOf.congr hdigest r hfresh⟩, (Task.idle_of_fresh hdigest hfresh).symm⟩
  · cases hr : (makeRun os handler b c.argv c.dir).2 with
    | skipped => exact absurd hr hne
    | done =>
        rw [hnone hr] at htracer
        cases htracer
    | raised e =>
        rw [hr] at hok
        cases hok
  · refine ⟨⟨_, ?_, record_of_run hhash hc hworks.toPerforms hg.sound hrec⟩, ?_⟩
    · rw [hrec.stored]
      exact AList.lookup_insert _
    · cases hexit : (c.task.run b.files).2 with
      | failure => exact absurd hrec.exec (hworks.failure b.files hrec.start hexit _ _)
      | success =>
          obtain ⟨log, hexec, -⟩ := hworks.success b.files hrec.start hexit
          have he := hrec.exec
          rw [hexec, Outcome.succeeded.injEq] at he
          exact he.1.symm

/-- A call does not touch the records of other commands. -/
theorem lookup_makeRun_ne {b : Session (Files C)} {c c' : Command C} (hne : key os c ≠ key os c') :
    (makeRun os handler b c'.argv c'.dir).1.dependencies.lookup (key os c) =
      b.dependencies.lookup (key os c) := by
  rcases makeRun_cases (Prod.eta (makeRun os handler b c'.argv c'.dir)).symm with
    ⟨-, hb, -⟩ | ⟨-, hdeps, -⟩ | ⟨-, report, ⟨hrec⟩⟩
  · rw [hb]
  · rw [hdeps]
  · rw [hrec.stored]
    exact AList.lookup_insert_ne hne

variable (handler) in
/-- **When a recorded command is skipped.** -/
theorem skipped_iff (hdigest : Function.Injective digest)
    (hhash : ∀ fs k, os.hash fs k = digest (fs k)) {b : Session (Files C)}
    (hnamed : AllNamed b.dependencies) {fs : Files C} {c : Command C} {e : Entry}
    (hl : b.dependencies.lookup (key os c) = some e) (hr : Nonempty (RecordOf digest c fs e))
    (htouch : Touches (fs, c)) :
    (makeRun os handler b c.argv c.dir).2 = .skipped ↔ Settled b.files (fs, c) := by
  obtain ⟨r⟩ := hr
  rw [r.entry] at hl
  obtain ⟨hin, hout⟩ := hnamed _ _ hl
  have hname : ∀ k, os.hashFile b.files (.str k) = .ok (digest (b.files k)) := fun k => by
    rw [hashFile_str, hhash]
  have hinput : Current (os.hashFile b.files) r.input ↔
      ∀ k, (c.task.run fs).1.reads k = true → b.files k = fs k := by
    constructor
    · intro hcur k hk
      have hlk := r.lookup_input k
      rw [Effect.readDigest, if_pos hk, Option.map_some] at hlk
      obtain ⟨h, hh, hv⟩ := hcur _ _ hlk
      rw [hname, Except.ok.injEq] at hh
      exact hdigest (hh.trans (Value.str.inj hv).symm)
    · intro hsame v w hvw
      obtain ⟨k, rfl⟩ := hin v (AList.lookup_isSome.mp (by rw [hvw]; rfl))
      rw [r.lookup_input k, Effect.readDigest] at hvw
      split at hvw
      · rename_i hk
        refine ⟨_, hname k, ?_⟩
        rw [hsame k hk]
        exact (Option.some.inj hvw).symm
      · cases hvw
  have houtput : Current (os.hashFile b.files) r.output ↔
      ∀ k v, (c.task.run fs).1.writes k = some v → b.files k = v := by
    constructor
    · intro hcur k v hk
      have hlk := r.lookup_output k
      rw [Effect.writeDigest, hk, Option.map_some, Option.map_some] at hlk
      obtain ⟨h, hh, hv⟩ := hcur _ _ hlk
      rw [hname, Except.ok.injEq] at hh
      exact hdigest (hh.trans (Value.str.inj hv).symm)
    · intro hsame v w hvw
      obtain ⟨k, rfl⟩ := hout v (AList.lookup_isSome.mp (by rw [hvw]; rfl))
      rw [r.lookup_output k, Effect.writeDigest] at hvw
      cases hk : (c.task.run fs).1.writes k with
      | none => rw [hk] at hvw; cases hvw
      | some x =>
          rw [hk, Option.map_some, Option.map_some, Option.some.injEq] at hvw
          exact ⟨_, hname k, by rw [hsame k x hk]; exact hvw.symm⟩
  have hne : r.input ≠ ∅ ∨ r.output ≠ ∅ := by
    obtain ⟨k, hk | hk⟩ := htouch
    · refine Or.inl fun hempty => ?_
      have hlk := r.lookup_input k
      rw [hempty, Effect.readDigest, if_pos hk] at hlk
      cases hlk
    · refine Or.inr fun hempty => ?_
      obtain ⟨v, hv⟩ := Option.isSome_iff_exists.mp hk
      have hv' : (c.task.run fs).1.writes k = some v := hv
      have hlk := r.lookup_output k
      rw [hempty, Effect.writeDigest, hv'] at hlk
      cases hlk
  rw [makeRun_skipped_iff, checkDeps_false_iff]
  constructor
  · rintro ⟨input, output, hl', -, hcin, hcout⟩
    have heq : some (Entry.table (some input) (some output)) =
        some (.table (some r.input) (some r.output)) := hl'.symm.trans hl
    rw [Option.some.injEq, Entry.table.injEq, Option.some.injEq, Option.some.injEq] at heq
    obtain ⟨rfl, rfl⟩ := heq
    exact ⟨hinput.mp hcin, houtput.mp hcout⟩
  · intro hs
    exact ⟨_, _, hl, hne, hinput.mpr hs.reads, houtput.mpr hs.writes⟩

theorem places_map (fs : Files C) (cs : List (Command C)) : (places fs cs).map Prod.snd = cs := by
  induction cs generalizing fs with
  | nil => rfl
  | cons c cs ih => rw [places, List.map_cons, ih]

theorem runScript_cons (b : Session (Files C)) (c : Command C) (cs : List (Command C)) :
    runScript os handler b (sequence (c :: cs)) =
      match error? (makeRun os handler b c.argv c.dir).2 with
      | some e => ((makeRun os handler b c.argv c.dir).1, some e)
      | none => runScript os handler (makeRun os handler b c.argv c.dir).1 (sequence cs) := by
  simp only [sequence, runScript]
  cases error? (makeRun os handler b c.argv c.dir).2 <;> rfl

/-- A sequence that ends without an error leaves a record for each of its commands. -/
theorem records_of_sequence (hdigest : Function.Injective digest)
    (hhash : ∀ fs k, os.hash fs k = digest (fs k))
    (hkeys : ∀ c ∈ cmds, ∀ c' ∈ cmds, key os c = key os c' → c = c')
    (hworks : ∀ c ∈ cmds, Works os handler c)
    (htracer : (handler.bind (·.postProcess)).isSome = true) {cs : List (Command C)}
    (hcs : ∀ c ∈ cs, c ∈ cmds) (hnodup : cs.Nodup) {b b' : Session (Files C)}
    (hg : Good os digest cmds b.dependencies)
    (hrun : runScript os handler b (sequence cs) = (b', none)) :
    AllNamed b'.dependencies ∧
      (∀ x ∈ places b.files cs, ∃ e, b'.dependencies.lookup (key os x.2) = some e ∧
        Nonempty (RecordOf digest x.2 x.1 e)) ∧
      ∀ c ∈ cmds, c ∉ cs → b'.dependencies.lookup (key os c) = b.dependencies.lookup (key os c) := by
  induction cs generalizing b with
  | nil =>
      cases hrun
      exact ⟨hg.named, fun x hx => absurd hx List.not_mem_nil, fun _ _ _ => rfl⟩
  | cons c cs ih =>
      rw [List.forall_mem_cons] at hcs
      rw [List.nodup_cons] at hnodup
      have hc := hworks c hcs.1
      have hg' := good_makeRun hhash hkeys hcs.1 hc.toPerforms hg
      rw [runScript_cons] at hrun
      cases hok : error? (makeRun os handler b c.argv c.dir).2 with
      | some e => rw [hok] at hrun; cases hrun
      | none =>
          rw [hok] at hrun
          obtain ⟨⟨e, hl, hr⟩, hfiles⟩ := record_of_call hdigest hhash hcs.1 hc htracer hg hok
          obtain ⟨hnamed, hrecords, hkept⟩ := ih hcs.2 hnodup.2 hg' hrun
          refine ⟨hnamed, ?_, fun c' hc' hnot => ?_⟩
          · rw [places, List.forall_mem_cons]
            refine ⟨⟨e, ?_, hr⟩, ?_⟩
            · rw [hkept c hcs.1 hnodup.1]
              exact hl
            · rw [← hfiles]
              exact hrecords
          · rw [List.mem_cons, not_or] at hnot
            rw [hkept c' hc' hnot.2]
            exact lookup_makeRun_ne fun heq => hnot.1 (hkeys c' hc' c hcs.1 heq)

variable (handler) in
/-- Nothing is executed if every command is skipped on the same files. -/
theorem executed_eq_nil_iff (hdigest : Function.Injective digest)
    (hhash : ∀ fs k, os.hash fs k = digest (fs k)) {b : Session (Files C)}
    (hnamed : AllNamed b.dependencies) {l : List (Files C × Command C)}
    (hrecords : ∀ x ∈ l, ∃ e, b.dependencies.lookup (key os x.2) = some e ∧
      Nonempty (RecordOf digest x.2 x.1 e)) (htouch : ∀ x ∈ l, Touches x) :
    executed os handler b (sequence (l.map Prod.snd)) = [] ↔ ∀ x ∈ l, Settled b.files x := by
  induction l with
  | nil => exact iff_of_true rfl fun x hx => absurd hx List.not_mem_nil
  | cons x l ih =>
      rw [List.forall_mem_cons] at hrecords htouch ⊢
      obtain ⟨e, hl, hr⟩ := hrecords.1
      have hskip := skipped_iff handler hdigest hhash hnamed hl hr htouch.1
      simp only [List.map_cons, sequence, executed, List.append_eq_nil_iff]
      rcases makeRun_cases (Prod.eta (makeRun os handler b x.2.argv x.2.dir)).symm with
        ⟨hs, hb, -⟩ | ⟨hne, -⟩ | ⟨hd, -⟩
      · rw [hs, hb]
        simp only [isSkipped, if_true, true_and, error?]
        rw [ih hrecords.2 htouch.2, and_iff_right (hskip.mp hs)]
      · have hno : isSkipped (makeRun os handler b x.2.argv x.2.dir).2 = false := by
          cases hr' : (makeRun os handler b x.2.argv x.2.dir).2 with
          | skipped => exact absurd hr' hne
          | done => rfl
          | raised e => rfl
        rw [hno]
        exact iff_of_false (fun h => by cases h.1) fun h => hne (hskip.mpr h.1)
      · rw [hd]
        refine iff_of_false (fun h => by cases h.1) fun h => ?_
        have hs := hskip.mpr h.1
        rw [hd] at hs
        cases hs

end Again

/-- The files after a sequence of commands. -/
def final : Files C → List (Command C) → Files C
  | fs, [] => fs
  | fs, c :: cs => final ((c.task.run fs).1.apply fs) cs

/-- What a command writes has not been read or written by an earlier one. -/
def Orderly (fs : Files C) (cs : List (Command C)) : Prop :=
  (places fs cs).Pairwise fun x y => ∀ k, ((y.2.task.run y.1).1.writes k).isSome = true →
    (x.2.task.run x.1).1.reads k = false ∧ (x.2.task.run x.1).1.writes k = none

/-- Commands keep what they do not write. -/
theorem final_of_untouched {fs : Files C} {cs : List (Command C)} {k : LuaString}
    (h : ∀ x ∈ places fs cs, (x.2.task.run x.1).1.writes k = none) : final fs cs k = fs k := by
  induction cs generalizing fs with
  | nil => rfl
  | cons c cs ih =>
      rw [places, List.forall_mem_cons] at h
      rw [final, ih h.2, Effect.apply, h.1, Option.getD_none]

theorem settled_of_orderly {fs : Files C} {cs : List (Command C)} (h : Orderly fs cs) :
    ∀ x ∈ places fs cs, Settled (final fs cs) x := by
  induction cs generalizing fs with
  | nil => exact fun x hx => absurd hx List.not_mem_nil
  | cons c cs ih =>
      rw [Orderly, places, List.pairwise_cons] at h
      rw [places, List.forall_mem_cons]
      refine ⟨?_, ih h.2⟩
      have hkeep (k : LuaString) (hk : (c.task.run fs).1.reads k = true ∨
          ((c.task.run fs).1.writes k).isSome = true) :
          final fs (c :: cs) k = (c.task.run fs).1.apply fs k := by
        rw [final]
        refine final_of_untouched fun x hx => ?_
        by_contra hw
        obtain ⟨hread, hwrite⟩ := h.1 x hx k (Option.isSome_iff_ne_none.mpr hw)
        rcases hk with hk | hk
        · rw [hread] at hk; cases hk
        · rw [hwrite] at hk; cases hk
      refine ⟨fun k hk => ?_, fun k v hv => ?_⟩
      · rw [hkeep k (Or.inl hk)]
        exact Effect.apply_of_reads _ _ hk
      · rw [hkeep k (Or.inr (by rw [hv]; rfl))]
        exact Effect.apply_of_writes _ _ hv

/-- The files after a sequence that ends without an error. -/
theorem files_of_sequence {os : Os (Files C) L} {handler : Option (ExecHandler D L)}
    {cmds : Set (Command C)} {digest : Option C → LuaString}
    (hdigest : Function.Injective digest) (hhash : ∀ fs k, os.hash fs k = digest (fs k))
    (hkeys : ∀ c ∈ cmds, ∀ c' ∈ cmds, key os c = key os c' → c = c')
    (hworks : ∀ c ∈ cmds, Works os handler c)
    (htracer : (handler.bind (·.postProcess)).isSome = true) {cs : List (Command C)}
    (hcs : ∀ c ∈ cs, c ∈ cmds) {b b' : Session (Files C)} (hg : Good os digest cmds b.dependencies)
    (hrun : runScript os handler b (sequence cs) = (b', none)) : b'.files = final b.files cs := by
  induction cs generalizing b with
  | nil =>
      cases hrun
      rfl
  | cons c cs ih =>
      rw [List.forall_mem_cons] at hcs
      have hc := hworks c hcs.1
      rw [runScript_cons] at hrun
      cases hok : error? (makeRun os handler b c.argv c.dir).2 with
      | some e => rw [hok] at hrun; cases hrun
      | none =>
          rw [hok] at hrun
          obtain ⟨-, hfiles⟩ := record_of_call hdigest hhash hcs.1 hc htracer hg hok
          rw [final, ← hfiles]
          exact ih hcs.2 (good_makeRun hhash hkeys hcs.1 hc.toPerforms hg) hrun

/-- A sequence in which nobody writes what others have used before executes nothing when it is
    run again at once. -/
theorem orderly_skips {os : Os (Files C) L} {handler : Option (ExecHandler D L)}
    {cmds : Set (Command C)} {digest : Option C → LuaString}
    (hdigest : Function.Injective digest) (hhash : ∀ fs k, os.hash fs k = digest (fs k))
    (hkeys : ∀ c ∈ cmds, ∀ c' ∈ cmds, key os c = key os c' → c = c')
    (hworks : ∀ c ∈ cmds, Works os handler c)
    (htracer : (handler.bind (·.postProcess)).isSome = true) {b b' : Session (Files C)}
    (hg : Good os digest cmds b.dependencies) {cs : List (Command C)} (hcs : ∀ c ∈ cs, c ∈ cmds)
    (hnodup : cs.Nodup) (htouch : ∀ x ∈ places b.files cs, Touches x)
    (horderly : Orderly b.files cs)
    (hfirst : runScript os handler b (sequence cs) = (b', none)) :
    executed os handler b' (sequence cs) = [] := by
  obtain ⟨hnamed, hrecords, -⟩ :=
    records_of_sequence hdigest hhash hkeys hworks htracer hcs hnodup hg hfirst
  have hiff := executed_eq_nil_iff handler hdigest hhash hnamed hrecords htouch
  rw [places_map] at hiff
  refine hiff.mpr ?_
  rw [files_of_sequence hdigest hhash hkeys hworks htracer hcs hg hfirst]
  exact settled_of_orderly horderly

/-! ## `cp a b` -/

end Buildsh.Scripts
