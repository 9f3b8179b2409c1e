/-
  Incremental builds.

  A command is a task on the contents of the project files (`Command`), and `Performs` says that
  the operating system runs it as such and that the tracer reports what it reads and writes. A
  history is any sequence of calls of `make.run` and `make.autoclean`, of edits of the files in
  between, and of ends and starts of buildsh, which store and load the dependency table.

  The invariant (`Sound`) traces every record back to a successful run: its inputs have the
  hashes that the files had then, its outputs those of what the run left. `skip_idle`: a command
  that `make.run` skips would succeed and leave every file as it is.
-/
import Buildsh.Rebuild
import Buildsh.Generic.Memo
import Mathlib.Data.Set.Insert
import Mathlib.Logic.Relation

namespace Buildsh.Incremental
open Buildsh.Generic Buildsh.Base Buildsh.Commands Buildsh.Build Buildsh.Rebuild

variable {C D L : Type}

/-! ## Commands -/

/-- The contents of the project files; `none` for a file that does not exist. -/
abbrev Files (C : Type) := LuaString → Option C

inductive Exit where
  | success
  | failure
  deriving DecidableEq

/-- A command line and what its process does. -/
structure Command (C : Type) where
  argv : List LuaString
  dir : Option LuaString
  task : Task LuaString (Option C) Exit

/-- The report has the files that were read and those that were written. -/
structure Exact (report : Report) (e : Effect LuaString (Option C)) : Prop where
  input : ∀ k, k ∈ report.td.input ↔ e.reads k = true
  output : ∀ k, k ∈ report.td.output ↔ (e.writes k).isSome = true

/-- The operating system runs the task, and the tracer reports what it reads and writes. What a
    process that fails does to the files is left open. -/
structure Performs (os : Os (Files C) L) (handler : Option (ExecHandler D L)) (c : Command C) :
    Prop where
  success : ∀ {argv' : List LuaString} {data : Option D} (fs : Files C),
    ExecHandler.start handler c.argv = .ok (argv', data) → (c.task.run fs).2 = .success →
    ∃ log, os.exec argv' c.dir fs = .succeeded ((c.task.run fs).1.apply fs) log ∧
      ∀ post report, handler.bind (·.postProcess) = some post →
        post data (c.dir.getD ['.']) log = .ok report → Exact report (c.task.run fs).1
  failure : ∀ {argv' : List LuaString} {data : Option D} (fs : Files C),
    ExecHandler.start handler c.argv = .ok (argv', data) → (c.task.run fs).2 = .failure →
    ∀ s log, os.exec argv' c.dir fs ≠ .succeeded s log

/-- The key of the record of a command. -/
def key (os : Os (Files C) L) (c : Command C) : Value := .str (argv2cmd os.dirsep c.argv c.dir)

/-! ## Histories -/

/-- A buildsh and its files, and the table in `.deps.lua`. -/
structure History (C : Type) where
  session : Session (Files C)
  saved : DepsTable

/-- Two tables with the same records. -/
def SameRecords (t t' : DepsTable) : Prop := ∀ v, t.lookup v = t'.lookup v

inductive Step (os : Os (Files C) L) (handler : Option (ExecHandler D L))
    (cmds : Set (Command C)) : History C → History C → Prop
  | run (h : History C) (c : Command C) (hc : c ∈ cmds) :
      Step os handler cmds h ⟨(makeRun os handler h.session c.argv c.dir).1, h.saved⟩
  /-- `.deps.lua` is removed, if it can be -/
  | autoclean (h : History C) (t : DepsTable) (ht : t = ∅ ∨ t = h.saved) :
      Step os handler cmds h ⟨autoclean os h.session, t⟩
  | edit (h : History C) (files : Files C) :
      Step os handler cmds h ⟨{ h.session with files := files }, h.saved⟩
  /-- the table is saved, unless the last thing was to clean up -/
  | exit (h : History C) (t : DepsTable) (hsave : h.session.dontSave = false)
      (ht : SameRecords t h.session.dependencies) : Step os handler cmds h ⟨h.session, t⟩
  /-- a new buildsh, also after one that could not save its table -/
  | start (h : History C) : Step os handler cmds h ⟨⟨h.session.files, h.saved, false⟩, h.saved⟩

/-- Nothing is recorded. -/
def History.initial (files : Files C) : History C := ⟨⟨files, ∅, false⟩, ∅⟩

/-! ## Records and runs -/

/-- An entry with the digests of a successful run of `c` on `fs`. -/
structure RecordOf (digest : Option C → LuaString) (c : Command C) (fs : Files C) (e : Entry) where
  input : Io
  output : Io
  entry : e = .table (some input) (some output)
  success : (c.task.run fs).2 = .success
  lookup_input : ∀ k, input.lookup (.str k) =
    ((c.task.run fs).1.readDigest digest fs k).map .str
  lookup_output : ∀ k, output.lookup (.str k) =
    ((c.task.run fs).1.writeDigest digest k).map .str

/-- **The invariant.** Every record is one of a successful run. -/
def Sound (os : Os (Files C) L) (digest : Option C → LuaString) (cmds : Set (Command C))
    (t : DepsTable) : Prop :=
  ∀ c ∈ cmds, ∀ e, t.lookup (key os c) = some e → ∃ fs, Nonempty (RecordOf digest c fs e)

section Invariant

variable {os : Os (Files C) L} {handler : Option (ExecHandler D L)} {cmds : Set (Command C)}
  {digest : Option C → LuaString}

theorem sound_empty : Sound os digest cmds ∅ := fun c _ e h => by simp at h

theorem Sound.congr {t t' : DepsTable} (h : Sound os digest cmds t) (ht : SameRecords t' t) :
    Sound os digest cmds t' := fun c hc e he => h c hc e (by rw [← ht]; exact he)

/-- What is kept for an input of a sound record is its hash at the time of the check. -/
theorem heldHash_of_sound {t : DepsTable} (h : Sound os digest cmds t) {c : Command C}
    (hc : c ∈ cmds) (hash : LuaString → LuaString) (k : LuaString) :
    (heldHash hash (t.lookup (key os c)) k).getD (hash k) = hash k := by
  cases he : t.lookup (key os c) with
  | none => rfl
  | some e =>
      obtain ⟨fs, ⟨r⟩⟩ := h c hc e he
      rw [r.entry]
      unfold heldHash
      dsimp only
      split <;> rfl

/-- **A call that stores a record.** -/
theorem record_of_run (hhash : ∀ fs k, os.hash fs k = digest (fs k)) {c : Command C}
    (hc : c ∈ cmds) (hperf : Performs os handler c) {b b' : Session (Files C)} {report : Report}
    (hs : Sound os digest cmds b.dependencies)
    (h : Recorded os handler b c.argv c.dir report b') :
    Nonempty (RecordOf digest c b.files
      (.table (some h.deps'.input) (some h.deps'.output))) := by
  have hname : ∀ k, os.hashFile b'.files (.str k) = .ok (os.hash b'.files k) := fun _ => rfl
  have hheld : ∀ k, (h.deps.input.lookup (.str k)).bind asString =
      heldHash (os.hash b.files) (b.dependencies.lookup (key os c)) k :=
    checkDeps_held (fun _ => rfl) h.check
  cases hexit : (c.task.run b.files).2 with
  | failure => exact absurd h.exec (hperf.failure b.files h.start hexit _ _)
  | success =>
      obtain ⟨log, hexec, hexact⟩ := hperf.success b.files h.start hexit
      have he := h.exec
      rw [hexec, Outcome.succeeded.injEq] at he
      obtain ⟨hfiles, rfl⟩ := he
      obtain ⟨hin, hout⟩ := hexact _ _ h.tracer h.reported
      refine ⟨⟨_, _, rfl, hexit, fun k => ?_, fun k => ?_⟩⟩
      · rw [lookup_record_input hname report.input_marks h.recorded, hheld, Effect.readDigest]
        by_cases hk : (c.task.run b.files).1.reads k = true
        · -- a file that is read is not written, so its hash after the run is the one before it
          have hsame : os.hash b'.files k = os.hash b.files k := by
            rw [hhash, hhash, ← hfiles, Effect.apply_of_reads _ _ hk]
          rw [if_pos ((hin k).mpr hk), if_pos hk, hsame]
          rw [heldHash_of_sound hs hc, hhash, Option.map_some]
        · rw [if_neg fun hm => hk ((hin k).mp hm), if_neg hk]
          rfl
      · rw [lookup_record_output hname h.recorded, Effect.writeDigest]
        cases hw : (c.task.run b.files).1.writes k with
        | none =>
            rw [if_neg fun hm => by
              have := (hout k).mp hm
              rw [hw] at this
              cases this]
            rfl
        | some v =>
            rw [if_pos ((hout k).mpr (by rw [hw]; rfl)), hhash, ← hfiles,
              Effect.apply_of_writes _ _ hw]
            rfl

/-- **One call.** -/
theorem sound_makeRun (hhash : ∀ fs k, os.hash fs k = digest (fs k))
    (hkeys : ∀ c ∈ cmds, ∀ c' ∈ cmds, key os c = key os c' → c = c') {c : Command C}
    (hc : c ∈ cmds) (hperf : Performs os handler c) {b : Session (Files C)}
    (hs : Sound os digest cmds b.dependencies) :
    Sound os digest cmds (makeRun os handler b c.argv c.dir).1.dependencies := by
  rcases makeRun_cases (Prod.eta (makeRun os handler b c.argv c.dir)).symm with
    ⟨-, hb, -⟩ | ⟨-, hdeps, -⟩ | ⟨-, report, ⟨hrec⟩⟩
  · rw [hb]
    exact hs
  · rw [hdeps]
    exact hs
  · intro c' hc' e he
    rw [hrec.stored] at he
    change (b.dependencies.insert (key os c) _).lookup _ = some e at he
    by_cases hcc : key os c' = key os c
    · have hnew := record_of_run hhash hc hperf hs hrec
      obtain rfl := hkeys c' hc' c hc hcc
      rw [AList.lookup_insert] at he
      exact ⟨b.files, Option.some.inj he ▸ hnew⟩
    · rw [AList.lookup_insert_ne hcc] at he
      exact hs c' hc' e he

/-- **One step.** -/
theorem sound_step (hhash : ∀ fs k, os.hash fs k = digest (fs k))
    (hkeys : ∀ c ∈ cmds, ∀ c' ∈ cmds, key os c = key os c' → c = c')
    (hperf : ∀ c ∈ cmds, Performs os handler c) {h h' : History C}
    (hs : Sound os digest cmds h.session.dependencies ∧ Sound os digest cmds h.saved)
    (hstep : Step os handler cmds h h') :
    Sound os digest cmds h'.session.dependencies ∧ Sound os digest cmds h'.saved := by
  cases hstep with
  | run c hc => exact ⟨sound_makeRun hhash hkeys hc (hperf c hc) hs.1, hs.2⟩
  | autoclean t ht =>
      refine ⟨sound_empty, ?_⟩
      rcases ht with rfl | rfl
      · exact sound_empty
      · exact hs.2
  | edit files => exact hs
  | exit t hsave ht => exact ⟨hs.1, hs.1.congr ht⟩
  | start => exact ⟨hs.2, hs.2⟩

/-- **Every history.** -/
theorem sound_history (hhash : ∀ fs k, os.hash fs k = digest (fs k))
    (hkeys : ∀ c ∈ cmds, ∀ c' ∈ cmds, key os c = key os c' → c = c')
    (hperf : ∀ c ∈ cmds, Performs os handler c) {files : Files C} {h : History C}
    (hrun : Relation.ReflTransGen (Step os handler cmds) (.initial files) h) :
    Sound os digest cmds h.session.dependencies ∧ Sound os digest cmds h.saved := by
  induction hrun with
  | refl => exact ⟨sound_empty, sound_empty⟩
  | tail _ hstep ih => exact sound_step hhash hkeys hperf ih hstep

/-- A record with current hashes is fresh. -/
theorem RecordOf.fresh {c : Command C} {fs files : Files C} {e : Entry}
    (hhash : ∀ fs k, os.hash fs k = digest (fs k)) (r : RecordOf digest c fs e)
    (hin : Current (os.hashFile files) r.input) (hout : Current (os.hashFile files) r.output) :
    c.task.Fresh digest fs files where
  reads k d hd := by
    have hl := r.lookup_input k
    rw [hd] at hl
    obtain ⟨nhash, hnh, hv⟩ := hin _ _ hl
    rw [hashFile_str, Except.ok.injEq] at hnh
    rw [← hhash, hnh]
    exact Value.str.inj hv
  writes k d hd := by
    have hl := r.lookup_output k
    rw [hd] at hl
    obtain ⟨nhash, hnh, hv⟩ := hout _ _ hl
    rw [hashFile_str, Except.ok.injEq] at hnh
    rw [← hhash, hnh]
    exact Value.str.inj hv

end Invariant

/-- **Skipping is sound.** In every history, a command that `make.run` does not execute would
    succeed and leave the content of every file as it is. -/
theorem skip_idle {os : Os (Files C) L} {handler : Option (ExecHandler D L)}
    {cmds : Set (Command C)} {digest : Option C → LuaString}
    (hdigest : Function.Injective digest) (hhash : ∀ fs k, os.hash fs k = digest (fs k))
    (hkeys : ∀ c ∈ cmds, ∀ c' ∈ cmds, key os c = key os c' → c = c')
    (hperf : ∀ c ∈ cmds, Performs os handler c) {files : Files C} {h : History C}
    (hrun : Relation.ReflTransGen (Step os handler cmds) (.initial files) h)
    {c : Command C} (hc : c ∈ cmds)
    (hskip : (makeRun os handler h.session c.argv c.dir).2 = .skipped)
    {argv' : List LuaString} {data : Option D}
    (hstart : ExecHandler.start handler c.argv = .ok (argv', data)) :
    ∃ log, os.exec argv' c.dir h.session.files = .succeeded h.session.files log := by
  have hsound := (sound_history hhash hkeys hperf hrun).1
  obtain ⟨input, output, hl, -, hin, hout⟩ := checkDeps_false_iff.mp (makeRun_skipped_iff.mp hskip)
  obtain ⟨fs, ⟨r⟩⟩ := hsound c hc _ hl
  have hio := r.entry
  rw [Entry.table.injEq, Option.some.injEq, Option.some.injEq] at hio
  have hfresh : c.task.Fresh digest fs h.session.files :=
    r.fresh hhash (hio.1 ▸ hin) (hio.2 ▸ hout)
  have hrun' := Task.run_eq_of_fresh hdigest hfresh
  obtain ⟨log, hexec, -⟩ := (hperf c hc).success h.session.files hstart
    (by rw [hrun']; exact r.success)
  rw [Task.idle_of_fresh hdigest hfresh] at hexec
  exact ⟨log, hexec⟩

/-- `cp a b`. A file exists or not; there is one content. -/
def copyTask : Task LuaString (Option Unit) Exit where
  run fs := (⟨fun k => k = "a".toList, fun k => if k = "b".toList then some (fs "a".toList) else none,
    fun k hk => by
      rw [of_decide_eq_true hk]
      rfl⟩, .success)
  determined fs fs' h := by
    have ha : fs' "a".toList = fs "a".toList := h _ rfl
    simp only [ha]

def copyCommand : Command Unit := ⟨["cp".toList], none, copyTask⟩

def unitDigest : Option Unit → LuaString
  | none => "missing".toList
  | some () => "present".toList

theorem unitDigest_injective : Function.Injective unitDigest := by
  intro x y h
  match x, y with
  | none, none => rfl
  | some (), some () => rfl
  | none, some () => exact absurd h (by decide)
  | some (), none => exact absurd h (by decide)

def copyOs : Os (Files Unit) Unit where
  dirsep := '/'
  hash fs k := unitDigest (fs k)
  checkString _ := .error (.message "string expected".toList)
  exec _ _ fs := .succeeded ((copyTask.run fs).1.apply fs) ()
  remove f fs := some (Function.update fs f none)
  dirRemove _ _ := none

def copyReport : Report where
  td := ⟨(∅ : Table LuaString).insert "a".toList (.bool true),
    (∅ : Table LuaString).insert "b".toList (.bool true)⟩
  input_marks := marks_insert marks_empty _
  output_marks := marks_insert marks_empty _

def copyHandler : ExecHandler Unit Unit where
  preProcess := none
  postProcess := some fun _ _ _ => .ok copyReport

theorem copyReport_exact (fs : Files Unit) : Exact copyReport (copyTask.run fs).1 where
  input k := by
    refine (AList.mem_insert _).trans ?_
    simp [copyTask, AList.notMem_empty]
  output k := by
    refine (AList.mem_insert _).trans ?_
    by_cases hk : k = "b".toList
    · simp [copyTask, hk]
    · have hk' : k ≠ ['b'] := hk
      simp [copyTask, hk', AList.notMem_empty]

theorem start_copy : ExecHandler.start (some copyHandler) ["cp".toList] =
    .ok (["cp".toList], none) := rfl

theorem copy_performs : Performs copyOs (some copyHandler) copyCommand where
  success fs _ _ := ⟨(), rfl, fun post report hpost hrep => by
    cases hpost
    cases hrep
    exact copyReport_exact fs⟩
  failure fs _ h := by cases h

/-- `a` is there, `b` is not. -/
def onlyA : Files Unit := fun k => if k = "a".toList then some () else none

theorem singleton_performs :
    ∀ c ∈ ({copyCommand} : Set (Command Unit)), Performs copyOs (some copyHandler) c := by
  intro c hc
  rw [Set.mem_singleton_iff.mp hc]
  exact copy_performs

/-- The second call of `cp a b` is skipped. -/
theorem skip_idle_copy :
    ∃ log, copyOs.exec ["cp".toList] none
        (makeRun copyOs (some copyHandler) ⟨onlyA, ∅, false⟩ ["cp".toList] none).1.files =
      .succeeded (makeRun copyOs (some copyHandler) ⟨onlyA, ∅, false⟩
        ["cp".toList] none).1.files log :=
  skip_idle (c := copyCommand) unitDigest_injective (fun _ _ => rfl)
    (fun c hc c' hc' _ => (Set.mem_singleton_iff.mp hc).trans (Set.mem_singleton_iff.mp hc').symm)
    singleton_performs (.single (.run (.initial onlyA) copyCommand rfl)) rfl (by rfl) start_copy

end Buildsh.Incremental
