/-
  Running a command again.

  `Recorded` is a call of `make.run` that executes its command and stores a record, and
  `makeRun_cases` says that every other call leaves the dependency table as it is.

  `null_build_iff`: when nothing changes after such a call, the next call skips the command
  exactly when no reported input has another hash after the run than the one kept for it from
  before (`heldHash`). On a first run nothing is kept.
-/
import Buildsh.Build

namespace Buildsh.Rebuild
open Buildsh.Base Buildsh.Commands Buildsh.Build

variable {σ D L : Type}

/-! ## One call -/

/-- A call that executes the command and records `report`. -/
structure Recorded (os : Os σ L) (handler : Option (ExecHandler D L)) (b : Session σ)
    (argv : List LuaString) (dir : Option LuaString) (report : Report) (b' : Session σ) where
  deps : Deps
  deps' : Deps
  argv' : List LuaString
  data : Option D
  log : L
  post : Option D → LuaString → L → Except LuaError Report
  check : checkDeps (os.hashFile b.files) b.dependencies (argv2cmd os.dirsep argv dir) =
    .ok (deps, true)
  start : ExecHandler.start handler argv = .ok (argv', data)
  exec : os.exec argv' dir b.files = .succeeded b'.files log
  tracer : handler.bind (·.postProcess) = some post
  reported : post data (dir.getD ['.']) log = .ok report
  recorded : record (os.hashFile b'.files) deps report.td = .ok deps'
  stored : b'.dependencies = b.dependencies.insert (.str (argv2cmd os.dirsep argv dir))
    (.table (some deps'.input) (some deps'.output))

section Cases

variable {os : Os σ L} {handler : Option (ExecHandler D L)} {b b' : Session σ}
  {argv : List LuaString} {dir : Option LuaString} {r : RunResult}

/-- A call that does not skip its command stores a record or leaves the table as it is. -/
theorem makeRun_executes {deps : Deps}
    (hcheck : checkDeps (os.hashFile b.files) b.dependencies (argv2cmd os.dirsep argv dir) =
      .ok (deps, true)) (h : makeRun os handler b argv dir = (b', r)) :
    (r ≠ .skipped ∧ b'.dependencies = b.dependencies ∧
        (r = .done → handler.bind (·.postProcess) = none)) ∨
      (r = .done ∧ ∃ report, Nonempty (Recorded os handler b argv dir report b')) := by
  -- every way to raise an error
  have hraise : ∀ {s : σ} {e : LuaError},
      ((⟨s, b.dependencies, false⟩ : Session σ), RunResult.raised e) = (b', r) →
      r ≠ .skipped ∧ b'.dependencies = b.dependencies ∧
        (r = .done → handler.bind (·.postProcess) = none) := by
    intro s e he
    cases he
    exact ⟨by simp, rfl, by simp⟩
  unfold makeRun at h
  dsimp only at h
  rw [hcheck] at h
  dsimp only at h
  cases hstart : ExecHandler.start handler argv with
  | error e => rw [hstart] at h; exact Or.inl (hraise h)
  | ok x =>
      obtain ⟨argv', data⟩ := x
      rw [hstart] at h
      dsimp only at h
      cases hexec : os.exec argv' dir b.files with
      | succeeded s log =>
          rw [hexec] at h
          dsimp only [Outcome.result, Outcome.files] at h
          cases hpost : handler.bind (·.postProcess) with
          | none =>
              rw [hpost] at h
              cases h
              exact Or.inl ⟨by simp, rfl, fun _ => rfl⟩
          | some post =>
              rw [hpost] at h
              dsimp only at h
              cases hrep : post data (dir.getD ['.']) log with
              | error e => rw [hrep] at h; exact Or.inl (hpost ▸ hraise h)
              | ok report =>
                  rw [hrep] at h
                  dsimp only at h
                  cases hrec : record (os.hashFile s) deps report.td with
                  | error e => rw [hrec] at h; exact Or.inl (hpost ▸ hraise h)
                  | ok deps' =>
                      rw [hrec] at h
                      cases h
                      exact Or.inr ⟨rfl, report, ⟨⟨deps, deps', argv', data, log, post, hcheck,
                        hstart, hexec, hpost, hrep, hrec, rfl⟩⟩⟩
      | _ => rw [hexec] at h; exact Or.inl (hraise h)

/-- **What a call does.** -/
theorem makeRun_cases (h : makeRun os handler b argv dir = (b', r)) :
    (r = .skipped ∧ b' = b ∧ ∃ deps, checkDeps (os.hashFile b.files) b.dependencies
        (argv2cmd os.dirsep argv dir) = .ok (deps, false)) ∨
      (r ≠ .skipped ∧ b'.dependencies = b.dependencies ∧
        (r = .done → handler.bind (·.postProcess) = none)) ∨
      (r = .done ∧ ∃ report, Nonempty (Recorded os handler b argv dir report b')) := by
  cases hcheck : checkDeps (os.hashFile b.files) b.dependencies
      (argv2cmd os.dirsep argv dir) with
  | error e =>
      unfold makeRun at h
      dsimp only at h
      rw [hcheck] at h
      cases h
      exact Or.inr (Or.inl ⟨by simp, rfl, by simp⟩)
  | ok x =>
      obtain ⟨deps, runIt⟩ := x
      cases runIt with
      | false =>
          unfold makeRun at h
          dsimp only at h
          rw [hcheck] at h
          cases h
          exact Or.inl ⟨rfl, rfl, deps, rfl⟩
      | true => exact Or.inr (makeRun_executes hcheck h)

theorem makeRun_skipped_iff : (makeRun os handler b argv dir).2 = .skipped ↔
    ∃ deps, checkDeps (os.hashFile b.files) b.dependencies (argv2cmd os.dirsep argv dir) =
      .ok (deps, false) := by
  constructor
  · intro h
    rcases makeRun_cases (Prod.eta (makeRun os handler b argv dir)).symm with ⟨-, -, hs⟩ | ⟨hne, -⟩ | ⟨hd, -⟩
    · exact hs
    · exact absurd h hne
    · rw [hd] at h
      cases h
  · rintro ⟨deps, h⟩
    unfold makeRun
    dsimp only
    rw [h]

/-- The next call after one that stored a record. -/
theorem Recorded.skips_iff {report : Report} (h : Recorded os handler b argv dir report b')
    (hne : report.td.input ≠ ∅ ∨ report.td.output ≠ ∅) :
    (makeRun os handler b' argv dir).2 = .skipped ↔
      ∀ k ∈ report.td.input, ∀ nhash,
        heldHash (os.hash b.files)
          (b.dependencies.lookup (.str (argv2cmd os.dirsep argv dir))) k = some nhash →
        nhash = os.hash b'.files k := by
  have hname : ∀ k, os.hashFile b'.files (.str k) = .ok (os.hash b'.files k) := fun _ => rfl
  have hheld : ∀ k, (h.deps.input.lookup (.str k)).bind asString = heldHash (os.hash b.files)
      (b.dependencies.lookup (.str (argv2cmd os.dirsep argv dir))) k :=
    checkDeps_held (fun _ => rfl) h.check
  have hcur := current_record_iff hname report.input_marks h.recorded
  have hlook : b'.dependencies.lookup (.str (argv2cmd os.dirsep argv dir)) =
      some (.table (some h.deps'.input) (some h.deps'.output)) := by
    rw [h.stored, AList.lookup_insert]
  have hnonempty : h.deps'.input ≠ ∅ ∨ h.deps'.output ≠ ∅ := by
    have hex : ∀ t : Table LuaString, t ≠ ∅ → ∃ k, k ∈ t := fun t ht => by
      by_contra hno
      have hkeys : t.keys = [] := List.eq_nil_iff_forall_not_mem.mpr fun k hk =>
        hno ⟨k, AList.mem_keys.mpr hk⟩
      exact ht (AList.ext (List.map_eq_nil_iff.mp hkeys))
    rcases hne with hne | hne
    · obtain ⟨k, hk⟩ := hex _ hne
      refine Or.inl fun he => ?_
      have hl := lookup_record_input hname report.input_marks h.recorded k
      rw [if_pos hk, he] at hl
      cases hl
    · obtain ⟨k, hk⟩ := hex _ hne
      refine Or.inr fun he => ?_
      have hl := lookup_record_output hname h.recorded k
      rw [if_pos hk, he] at hl
      cases hl
  rw [makeRun_skipped_iff, checkDeps_false_iff]
  simp only [← hheld]
  rw [← hcur]
  constructor
  · rintro ⟨input, output, hl, -, hin, hout⟩
    rw [hlook] at hl
    cases hl
    exact ⟨hin, hout⟩
  · rintro ⟨hin, hout⟩
    exact ⟨_, _, hlook, hnonempty, hin, hout⟩

/-- A call that executes the command successfully and is given a report. -/
theorem recorded_of_done {argv' : List LuaString} {data : Option D} {s : σ} {log : L}
    {post : Option D → LuaString → L → Except LuaError Report} {report : Report}
    (hstart : ExecHandler.start handler argv = .ok (argv', data))
    (hexec : os.exec argv' dir b.files = .succeeded s log)
    (hpost : handler.bind (·.postProcess) = some post)
    (hrep : post data (dir.getD ['.']) log = .ok report)
    (h : makeRun os handler b argv dir = (b', .done)) :
    Nonempty (Recorded os handler b argv dir report b') := by
  rcases makeRun_cases h with ⟨hr, -⟩ | ⟨-, -, hnone⟩ | ⟨-, report', ⟨hrec⟩⟩
  · cases hr
  · rw [hnone rfl] at hpost
    cases hpost
  · have hs := hrec.start
    rw [hstart, Except.ok.injEq, Prod.mk.injEq] at hs
    have he := hrec.exec
    rw [← hs.1, hexec, Outcome.succeeded.injEq] at he
    have hp := hrec.tracer
    rw [hpost, Option.some.injEq] at hp
    have hr := hrec.reported
    rw [← hp, ← hs.2, ← he.2, hrep, Except.ok.injEq] at hr
    exact ⟨hr ▸ hrec⟩

end Cases

/-- **The null build.** After a call that executes its command, the next one skips it exactly
    when every hash that was kept for a reported input is the one the file has now. -/
theorem null_build_iff (os : Os σ L) (handler : Option (ExecHandler D L)) {b b' : Session σ}
    {argv argv' : List LuaString} {dir : Option LuaString} {data : Option D} {s : σ} {log : L}
    {post : Option D → LuaString → L → Except LuaError Report} {report : Report}
    (hstart : ExecHandler.start handler argv = .ok (argv', data))
    (hexec : os.exec argv' dir b.files = .succeeded s log)
    (hpost : handler.bind (·.postProcess) = some post)
    (hrep : post data (dir.getD ['.']) log = .ok report)
    (hrun : makeRun os handler b argv dir = (b', .done))
    (hne : report.td.input ≠ ∅ ∨ report.td.output ≠ ∅) :
    (makeRun os handler b' argv dir).2 = .skipped ↔
      ∀ k ∈ report.td.input, ∀ nhash,
        heldHash (os.hash b.files)
          (b.dependencies.lookup (.str (argv2cmd os.dirsep argv dir))) k = some nhash →
        nhash = os.hash b'.files k := by
  obtain ⟨hrec⟩ := recorded_of_done hstart hexec hpost hrep hrun
  exact hrec.skips_iff hne

/-- One file, which every command replaces by `new`. -/
def replaceOs : Os LuaString Unit where
  dirsep := '/'
  hash s _ := s
  checkString _ := .error (.message "string expected".toList)
  exec _ _ _ := .succeeded "new".toList ()
  remove _ _ := none
  dirRemove _ _ := none

/-- The file is read and written. -/
def updateReport : Report where
  td := ⟨(∅ : Table LuaString).insert "lib.a".toList (.bool true),
    (∅ : Table LuaString).insert "lib.a".toList (.bool true)⟩
  input_marks := marks_insert marks_empty _
  output_marks := marks_insert marks_empty _

def updateHandler : ExecHandler Unit Unit where
  preProcess := none
  postProcess := some fun _ _ _ => .ok updateReport

/-- A record from an earlier run, when the file was `old`. -/
def oldRecord : DepsTable :=
  (∅ : DepsTable).insert (.str "ar".toList)
    (.table (some ((∅ : Io).insert (.str "lib.a".toList) (.str "old".toList))) (some ∅))

theorem mem_updateReport : "lib.a".toList ∈ updateReport.td.input :=
  (AList.mem_insert _).mpr (Or.inl rfl)

theorem updateReport_ne : updateReport.td.input ≠ ∅ ∨ updateReport.td.output ≠ ∅ :=
  Or.inl fun h => AList.notMem_empty _ (h ▸ mem_updateReport)

theorem start_update : ExecHandler.start (some updateHandler) ["ar".toList] =
    .ok (["ar".toList], none) := rfl

theorem tracer_update : (some updateHandler).bind (·.postProcess) =
    some fun _ _ _ => .ok updateReport := rfl

theorem null_build_first :
    (makeRun replaceOs (some updateHandler)
        (makeRun replaceOs (some updateHandler) ⟨"cur".toList, ∅, false⟩ ["ar".toList] none).1
        ["ar".toList] none).2 = .skipped ↔
      ∀ k ∈ updateReport.td.input, ∀ nhash,
        heldHash (replaceOs.hash "cur".toList)
          ((∅ : DepsTable).lookup (.str (argv2cmd '/' ["ar".toList] none))) k = some nhash →
        nhash = replaceOs.hash (makeRun replaceOs (some updateHandler)
          ⟨"cur".toList, ∅, false⟩ ["ar".toList] none).1.files k :=
  null_build_iff replaceOs (some updateHandler) (b := ⟨"cur".toList, ∅, false⟩)
    start_update rfl tracer_update rfl (by rfl) updateReport_ne

/-- A re-run of a command that updates a file it reads, because the file has changed. -/
theorem null_build_repeats :
    ¬ ∀ (os : Os LuaString Unit) (handler : Option (ExecHandler Unit Unit))
        (b b' : Session LuaString) (argv argv' : List LuaString) (dir : Option LuaString)
        (data : Option Unit) (s : LuaString) (log : Unit)
        (post : Option Unit → LuaString → Unit → Except LuaError Report) (report : Report),
        ExecHandler.start handler argv = .ok (argv', data) →
        os.exec argv' dir b.files = .succeeded s log →
        handler.bind (·.postProcess) = some post →
        post data (dir.getD ['.']) log = .ok report →
        makeRun os handler b argv dir = (b', .done) →
        report.td.input ≠ ∅ ∨ report.td.output ≠ ∅ →
        (makeRun os handler b' argv dir).2 = .skipped := by
  intro h
  have hrun : makeRun replaceOs (some updateHandler) ⟨"cur".toList, oldRecord, false⟩
      ["ar".toList] none = ((makeRun replaceOs (some updateHandler)
        ⟨"cur".toList, oldRecord, false⟩ ["ar".toList] none).1, .done) := by rfl
  have hskip := h replaceOs (some updateHandler) _ _ ["ar".toList] ["ar".toList] none none
    "new".toList () (fun _ _ _ => .ok updateReport) updateReport start_update rfl tracer_update
    rfl hrun
    updateReport_ne
  obtain ⟨hrec⟩ := recorded_of_done start_update rfl tracer_update rfl hrun
  have hcur := (hrec.skips_iff updateReport_ne).mp hskip "lib.a".toList
    mem_updateReport "cur".toList (by rfl)
  exact absurd hcur (by decide)

end Buildsh.Rebuild
