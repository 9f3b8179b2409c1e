/-
  The process environment and the temporary files in a call of `make.run`.

  `pre_process` of a tracer creates the trace file, and `preload.lua` sets four variables there,
  which every process inherits that `buildsh` starts later. Only `post_process` undoes this, and
  `make.run` gets to it after an exit status of 0 alone. `makeRunIn` is `makeRun` with the shell
  that these functions work on (`makeRunIn_forget`). `restored_iff` says after which calls the
  shell is as it was: an early exit leaves the trace file and the variables behind, and
  `post_process` deletes variables that were set before.

  What a back end makes of its log is a parameter here (`read`), as are the operating system and
  the processes.
-/
import Buildsh.Build

namespace Buildsh.Environment
open Buildsh.Base Buildsh.Build Buildsh.Commands

/-! ## The shell -/

/-- A name among the temporary files. -/
inductive Status where
  | absent
  | present
  /-- present, but `os.remove` fails -/
  | locked
  deriving DecidableEq

abbrev Temps := LuaString → Status

/-- The environment of `buildsh`, and the temporary files. -/
structure Shell where
  env : LuaString → Option LuaString
  temps : Temps

namespace Shell

def setEnv (sh : Shell) (name value : LuaString) : Shell :=
  { sh with env := fun n => if n = name then some value else sh.env n }

def unsetEnv (sh : Shell) (name : LuaString) : Shell :=
  { sh with env := fun n => if n = name then none else sh.env n }

def create (sh : Shell) (file : LuaString) : Shell :=
  { sh with temps := fun f => if f = file then .present else sh.temps f }

/-- What `os.remove` and `ape.dir_remove` do. -/
def delete (sh : Shell) (file : LuaString) : Shell :=
  { sh with temps := fun f => if f = file ∧ sh.temps f = .present then .absent else sh.temps f }

@[simp] theorem setEnv_temps (sh : Shell) (name value : LuaString) :
    (sh.setEnv name value).temps = sh.temps := rfl

@[simp] theorem unsetEnv_temps (sh : Shell) (name : LuaString) :
    (sh.unsetEnv name).temps = sh.temps := rfl

@[simp] theorem create_env (sh : Shell) (file : LuaString) : (sh.create file).env = sh.env := rfl

@[simp] theorem delete_env (sh : Shell) (file : LuaString) : (sh.delete file).env = sh.env := rfl

@[simp] theorem create_self (sh : Shell) (file : LuaString) :
    (sh.create file).temps file = .present := if_pos rfl

theorem create_locked_iff (sh : Shell) (file f : LuaString) :
    (sh.create file).temps f = .locked ↔ f ≠ file ∧ sh.temps f = .locked := by
  unfold create
  by_cases h : f = file
  · simp [h]
  · simp [h]

@[simp] theorem delete_locked_iff (sh : Shell) (file f : LuaString) :
    (sh.delete file).temps f = .locked ↔ sh.temps f = .locked := by
  unfold delete
  dsimp only
  by_cases h : f = file ∧ sh.temps f = .present
  · rw [if_pos h, h.2]
    exact iff_of_false (by decide) (by decide)
  · rw [if_neg h]

theorem delete_self_ne_present (sh : Shell) (file : LuaString) :
    (sh.delete file).temps file ≠ .present := by
  unfold delete
  dsimp only
  by_cases h : sh.temps file = .present
  · rw [if_pos ⟨rfl, h⟩]
    decide
  · rw [if_neg fun hc => h hc.2]
    exact h

/-- Removing another file does not bring a file back. -/
theorem delete_ne_present {sh : Shell} {f : LuaString} (h : sh.temps f ≠ .present)
    (file : LuaString) : (sh.delete file).temps f ≠ .present := by
  unfold delete
  dsimp only
  rw [if_neg fun hc => h hc.2]
  exact h

end Shell

/-- The operating system as far as it concerns the shell. `exec` stands for `Os.exec` here: what a
    process does depends on the shell it starts in, and it may change the temporary files. -/
structure System (σ L : Type) where
  /-- the name that `os.tmpname` returns; it is new -/
  tmpname : Temps → Except LuaError LuaString
  tmpname_new : ∀ t file, tmpname t = .ok file → t file = .absent
  /-- the message with which `ape.env_set` fails, if it fails -/
  setFails : LuaString → LuaString → Option LuaString
  exec : List LuaString → Option LuaString → Shell → σ → Outcome σ L × Temps
  /-- what `kdump` prints for a trace file that may be missing -/
  kdump : Option L → L
  /-- a name of `os.tmpname` in the directory that `ape.temp_dir_get` returns -/
  inTempDir : LuaString → LuaString
  /-- `ape.path_glob` for the logs in a directory -/
  glob : Temps → LuaString → List LuaString

/-- Code that can raise an error, and works on the shell until then. -/
abbrev Effect := EStateM LuaError Shell

/-- The shell at the end, also after an error. -/
def shellOf {α : Type} : EStateM.Result LuaError Shell α → Shell
  | .ok _ sh => sh
  | .error _ sh => sh

def toExcept {α : Type} : EStateM.Result LuaError Shell α → Except LuaError α
  | .ok a _ => .ok a
  | .error e _ => .error e

theorem bind_ok {α β : Type} {x : Effect α} {f : α → Effect β} {sh sh' : Shell} {a : α}
    (h : x sh = .ok a sh') : (x >>= f) sh = f a sh' := by
  change EStateM.bind x f sh = _
  unfold EStateM.bind
  rw [h]

theorem bind_error {α β : Type} {x : Effect α} {f : α → Effect β} {sh sh' : Shell}
    {e : LuaError} (h : x sh = .error e sh') : (x >>= f) sh = .error e sh' := by
  change EStateM.bind x f sh = _
  unfold EStateM.bind
  rw [h]

theorem bind_eq_ok {α β : Type} {x : Effect α} {f : α → Effect β} {sh sh' : Shell} {r : β}
    (h : (x >>= f) sh = .ok r sh') : ∃ a sh₁, x sh = .ok a sh₁ ∧ f a sh₁ = .ok r sh' := by
  cases hx : x sh with
  | error e sh₁ =>
      rw [bind_error hx] at h
      cases h
  | ok a sh₁ =>
      rw [bind_ok hx] at h
      exact ⟨a, sh₁, rfl, h⟩

/-- A part of the shell is the same at every end. -/
def Keeps {α γ : Type} (g : Shell → γ) (x : Effect α) : Prop := ∀ sh, g (shellOf (x sh)) = g sh

theorem Keeps.of_bind_ok {α β γ : Type} {g : Shell → γ} {x : Effect α} {f : α → Effect β}
    {sh sh' : Shell} {a : α} (hx : x sh = .ok a sh') (hf : ∀ a, Keeps g (f a)) :
    g (shellOf ((x >>= f) sh)) = g sh' := by
  rw [bind_ok hx]
  exact hf a sh'

theorem Keeps.bind {α β γ : Type} {g : Shell → γ} {x : Effect α} {f : α → Effect β}
    (hx : Keeps g x) (hf : ∀ a, Keeps g (f a)) : Keeps g (x >>= f) := by
  intro sh
  have hsh := hx sh
  cases h : x sh with
  | error e sh₁ =>
      rw [h] at hsh
      rw [bind_error h]
      exact hsh
  | ok a sh₁ =>
      rw [h] at hsh
      exact (Keeps.of_bind_ok h hf).trans hsh

theorem Keeps.pure {α γ : Type} {g : Shell → γ} (a : α) : Keeps g (pure a) := fun _ => rfl

/-! ## The tracers -/

section Tracers

variable {σ L : Type} (sys : System σ L)

/-- `os.tmpname`. The file is created where Lua uses `mkstemp`. -/
def tmpname (mkstemp : Bool) : Effect LuaString := fun sh =>
  match sys.tmpname sh.temps with
  | .error e => .error e sh
  | .ok file => .ok file (if mkstemp then sh.create file else sh)

/-- `assert( os.getenv( name ) )` -/
def getenv (name : LuaString) : Effect LuaString := fun sh =>
  match sh.env name with
  | none => .error (.message "assertion failed!".toList) sh
  | some value => .ok value sh

/-- `assert( ape.env_set( name, value ) )` -/
def envSet (name value : LuaString) : Effect Unit := fun sh =>
  match sys.setFails name value with
  | some msg => .error (.message msg) sh
  | none => .ok () (sh.setEnv name value)

/-- `ape.env_delete`. The result is not looked at, and these names cannot make it fail. -/
def envDelete (name : LuaString) : Effect Unit := fun sh => .ok () (sh.unsetEnv name)

/-- `os.remove`. The result is not looked at. -/
def remove (file : LuaString) : Effect Unit := fun sh => .ok () (sh.delete file)

/-- `io.lines`, for a file with the contents `log`. -/
def lines (file : LuaString) (log : L) : Effect L := fun sh =>
  if sh.temps file = .absent then
    .error (.message ("bad argument #1 to 'lines' (".toList ++ file ++
      ": No such file or directory)".toList)) sh
  else .ok log sh

def ofExcept {α : Type} (r : Except LuaError α) : Effect α := fun sh =>
  match r with
  | .error e => .error e sh
  | .ok a => .ok a sh

/-- `exec_handler`, with `D` for the data that `pre_process` keeps for `post_process`. -/
structure Tracer (D L : Type) where
  preProcess : List LuaString → Effect (List LuaString × D)
  postProcess : D → LuaString → L → Effect Report

variable (read : Option LuaString → LuaString → L → Except LuaError Report)

structure PreloadData where
  file : LuaString
  exec : LuaString

/-- The back end of `preload.lua`. -/
def preload : Tracer PreloadData L where
  preProcess argv := do
    let ofile ← tmpname sys true
    let p ← getenv "BUILDSH_PRELOAD".toList
    envSet sys "LD_PRELOAD".toList p
    envSet sys "DYLD_INSERT_LIBRARIES".toList p
    envSet sys "DYLD_FORCE_FLAT_NAMESPACE".toList ['y']
    envSet sys "BUILDSH_TEMPFILE".toList ofile
    return (argv, ⟨ofile, argv.head?.getD []⟩)
  postProcess data dir log := do
    let log ← lines data.file log
    let report ← ofExcept (read (some data.exec) dir log)
    remove data.file
    envDelete "LD_PRELOAD".toList
    envDelete "DYLD_INSERT_LIBRARIES".toList
    envDelete "DYLD_FORCE_FLAT_NAMESPACE".toList
    envDelete "BUILDSH_TEMPFILE".toList
    return report

def syscalls : LuaString :=
  "trace=".toList ++ List.intercalate [','] (["open", "openat", "creat", "execve", "chdir",
    "fchdir", "mkdir", "mkdirat", "rename", "renameat", "clone", "vfork", "fork"].map String.toList)

def straceArgv (ofile : LuaString) (argv : List LuaString) : List LuaString :=
  ["strace".toList, "-f".toList, "-xx".toList, "-o".toList, ofile, "-e".toList,
    "signal=none".toList, "-e".toList, syscalls, "--".toList] ++ argv

/-- The back end of `strace.lua`. -/
def strace : Tracer LuaString L where
  preProcess argv := do
    let ofile ← tmpname sys true
    return (straceArgv ofile argv, ofile)
  postProcess data dir log := do
    let log ← lines data log
    let report ← ofExcept (read none dir log)
    remove data
    return report

def ktraceArgv (ofile : LuaString) (argv : List LuaString) : List LuaString :=
  ["ktrace".toList, "-f".toList, ofile, "-i".toList, "-tcn".toList] ++ argv

/-- What `kdump` prints about the trace file. -/
def kdumpOf (data : LuaString) (log : L) : Effect L := fun sh =>
  .ok (sys.kdump (if sh.temps data = .absent then none else some log)) sh

/-- The back end of `ktrace.lua`. -/
def ktrace : Tracer LuaString L where
  preProcess argv := do
    let ofile ← tmpname sys true
    return (ktraceArgv ofile argv, ofile)
  postProcess data dir log := do
    let kdump ← tmpname sys true
    let text ← kdumpOf sys data log
    remove data
    let text ← lines kdump text
    let report ← ofExcept (read none dir text)
    remove kdump
    return report

def trackerArgv (odir : LuaString) (argv : List LuaString) : List LuaString :=
  ["tracker.exe".toList, "/e".toList, "/if".toList, odir, "/c".toList] ++ argv

/-- `os.remove` for the logs in a directory, and `ape.dir_remove`. -/
def removeLogs (odir : LuaString) : Effect Unit := fun sh =>
  .ok () (((sys.glob sh.temps odir).foldl Shell.delete sh).delete odir)

/-- The back end of `tracker.lua`. There is no `mkstemp` on Windows, and the directory is created by
    the program that is executed. -/
def tracker : Tracer LuaString L where
  preProcess argv := do
    let name ← tmpname sys false
    let odir := sys.inTempDir name
    return (trackerArgv odir argv, odir)
  postProcess data dir log := do
    let report ← ofExcept (read none dir log)
    removeLogs sys data
    return report

/-- What `buildsh` can select. -/
inductive Kind where
  | untraced | preload | strace | ktrace | tracker
  deriving DecidableEq

def Kind.Data : Kind → Type
  | .untraced => Unit
  | .preload => PreloadData
  | .strace | .ktrace | .tracker => LuaString

/-- `exec_handler` -/
def Kind.tracer : (k : Kind) → Option (Tracer k.Data L)
  | .untraced => none
  | .preload => some (Environment.preload sys read)
  | .strace => some (Environment.strace sys read)
  | .ktrace => some (Environment.ktrace sys read)
  | .tracker => some (Environment.tracker sys read)

/-- What the back end of `preload.lua` makes of its log. -/
def preloadRead (ape : Ape) (depth : Nat) (data : Option LuaString) (dir : LuaString)
    (log : List Preload.Line) : Except LuaError Report :=
  match (preloadHandler ape depth).postProcess with
  | none => .error .indexNil
  | some postProcess => postProcess data dir log

end Tracers

/-! ## Running commands -/

section Run

variable {σ D L : Type} (os : Os σ L) (sys : System σ L)

/-- `pre_process`, if there is a tracer. -/
def start (tracer : Option (Tracer D L)) (argv : List LuaString) :
    Effect (List LuaString × Option D) :=
  match tracer with
  | none => pure (argv, none)
  | some tracer => do
      let (argv, data) ← tracer.preProcess argv
      return (argv, some data)

/-- The shell after a process. -/
def Shell.after (sh : Shell) : Outcome σ L × Temps → Shell
  | (.notCreated _, _) => sh
  | (_, temps) => { sh with temps := temps }

@[simp] theorem Shell.after_env (sh : Shell) (ended : Outcome σ L × Temps) :
    (sh.after ended).env = sh.env := by
  obtain ⟨outcome, temps⟩ := ended
  cases outcome with
  | notCreated msg => rfl
  | exited files code => rfl
  | signalled files code => rfl
  | waitFailed files msg => rfl
  | succeeded files log => rfl

/-- `post_process`, if there is a tracer. -/
def stop (tracer : Option (Tracer D L)) (data : Option D) (dir : LuaString) (log : L) :
    Effect (Option Report) :=
  match tracer, data with
  | some tracer, some data => some <$> tracer.postProcess data dir log
  | _, _ => pure none

/-- `make.run`, for the arguments with the program in front. -/
def makeRunIn (tracer : Option (Tracer D L)) (b : Session σ) (sh : Shell)
    (argv : List LuaString) (dir : Option LuaString) : Session σ × RunResult × Shell :=
  let sargv := argv2cmd os.dirsep argv dir
  match checkDeps (os.hashFile b.files) b.dependencies sargv with
  | .error e => (b, .raised e, sh)
  | .ok (_, false) => (b, .skipped, sh)
  | .ok (deps, true) =>
      let b := { b with dontSave := false }
      match start tracer argv sh with
      | .error e sh => (b, .raised e, sh)
      | .ok (argv, data) sh =>
          let ended := sys.exec argv dir sh b.files
          let b := { b with files := ended.1.files b.files }
          let sh := sh.after ended
          match ended.1.result (argv.head?.getD []) with
          | .error e => (b, .raised e, sh)
          | .ok log =>
              match stop tracer data (dir.getD ['.']) log sh with
              | .error e sh => (b, .raised e, sh)
              | .ok none sh => (b, .done, sh)
              | .ok (some report) sh =>
                  match record (os.hashFile b.files) deps report.td with
                  | .error e => (b, .raised e, sh)
                  | .ok deps =>
                      ({ b with
                        dependencies := b.dependencies.insert (.str sargv)
                          (.table (some deps.input) (some deps.output)) }, .done, sh)

/-- The shell that the process of a call starts in. -/
def shellBefore (tracer : Option (Tracer D L)) (sh : Shell) (argv : List LuaString) : Shell :=
  shellOf (start tracer argv sh)

/-- The shell that `post_process` starts in. -/
def shellAfter (tracer : Option (Tracer D L)) (files : σ) (sh : Shell) (argv : List LuaString)
    (dir : Option LuaString) : Shell :=
  match start tracer argv sh with
  | .error _ sh => sh
  | .ok (argv, _) sh => sh.after (sys.exec argv dir sh files)

/-- The operating system for processes that start in one shell. -/
def System.at (sh : Shell) : Os σ L :=
  { os with exec := fun argv dir files => (sys.exec argv dir sh files).1 }

/-- A tracer as `makeRun` has it: `pre_process` in shell `sh`, and `post_process` in `sh'`. -/
def Tracer.handlerAt (tracer : Tracer D L) (sh sh' : Shell) : ExecHandler D L where
  preProcess := some fun argv => toExcept (tracer.preProcess argv sh)
  postProcess := some fun data dir log =>
    match data with
    | none => .error .indexNil
    | some data => toExcept (tracer.postProcess data dir log sh')

@[simp] theorem at_dirsep (sh : Shell) : (sys.at os sh).dirsep = os.dirsep := rfl

@[simp] theorem at_hashFile (sh : Shell) (files : σ) :
    (sys.at os sh).hashFile files = os.hashFile files := rfl

@[simp] theorem at_exec (sh : Shell) (argv : List LuaString) (dir : Option LuaString)
    (files : σ) : (sys.at os sh).exec argv dir files = (sys.exec argv dir sh files).1 := rfl

section

variable {tracer : Tracer D L} {sh sh' : Shell} {argv : List LuaString}

theorem start_ok {argv' : List LuaString} {data : D}
    (h : tracer.preProcess argv sh = .ok (argv', data) sh') :
    start (some tracer) argv sh = .ok (argv', some data) sh' := bind_ok h

theorem start_error {e : LuaError} (h : tracer.preProcess argv sh = .error e sh') :
    start (some tracer) argv sh = .error e sh' := bind_error h

theorem stop_ok {data : D} {dir : LuaString} {log : L} {report : Report}
    (h : tracer.postProcess data dir log sh = .ok report sh') :
    stop (some tracer) (some data) dir log sh = .ok (some report) sh' := by
  change EStateM.map some (tracer.postProcess data dir log) sh = _
  unfold EStateM.map
  rw [h]

theorem stop_error {data : D} {dir : LuaString} {log : L} {e : LuaError}
    (h : tracer.postProcess data dir log sh = .error e sh') :
    stop (some tracer) (some data) dir log sh = .error e sh' := by
  change EStateM.map some (tracer.postProcess data dir log) sh = _
  unfold EStateM.map
  rw [h]

end

/-- **What a call does besides is what `makeRun` says.** -/
theorem makeRunIn_forget (tracer : Option (Tracer D L)) (b : Session σ) (sh : Shell)
    (argv : List LuaString) (dir : Option LuaString) :
    ((makeRunIn os sys tracer b sh argv dir).1, (makeRunIn os sys tracer b sh argv dir).2.1) =
      makeRun (sys.at os (shellBefore tracer sh argv))
        (tracer.map fun t => t.handlerAt sh (shellAfter sys tracer b.files sh argv dir))
        b argv dir := by
  unfold makeRunIn makeRun
  simp only [at_dirsep, at_hashFile]
  cases checkDeps (os.hashFile b.files) b.dependencies (argv2cmd os.dirsep argv dir) with
  | error e => rfl
  | ok r =>
      obtain ⟨deps, runIt⟩ := r
      cases runIt with
      | false => rfl
      | true =>
          cases tracer with
          | none =>
              change _ = match (sys.exec argv dir sh b.files).1.result (argv.head?.getD []) with
                | .error e => _
                | .ok log => _
              dsimp only [start, pure, EStateM.pure]
              cases (sys.exec argv dir sh b.files).1.result (argv.head?.getD []) with
              | error e => rfl
              | ok log => rfl
          | some t =>
              simp only [ExecHandler.start, Option.map_some, Option.bind_some, Tracer.handlerAt]
              cases hpre : t.preProcess argv sh with
              | error e sh₁ =>
                  rw [start_error hpre]
                  rfl
              | ok r sh₁ =>
                  obtain ⟨argv', data⟩ := r
                  simp only [shellBefore, shellAfter, at_exec, start_ok hpre, shellOf, toExcept]
                  generalize sys.exec argv' dir sh₁ b.files = ended
                  cases ended.1.result (argv'.head?.getD []) with
                  | error e => rfl
                  | ok log =>
                      dsimp only
                      cases hpost : t.postProcess data (dir.getD ['.']) log
                          (sh₁.after ended) with
                      | error e sh₂ =>
                          rw [stop_error hpost]
                      | ok report sh₂ =>
                          rw [stop_ok hpost]
                          dsimp only
                          cases record (os.hashFile (ended.1.files b.files)) deps report.td with
                          | error e => rfl
                          | ok deps => rfl

end Run

/-! ## What a call leaves behind -/

/-- What `preload.lua` sets. -/
def settings (p ofile : LuaString) : List (LuaString × LuaString) :=
  [("LD_PRELOAD".toList, p), ("DYLD_INSERT_LIBRARIES".toList, p),
    ("DYLD_FORCE_FLAT_NAMESPACE".toList, ['y']), ("BUILDSH_TEMPFILE".toList, ofile)]

def setNames : List LuaString :=
  ["LD_PRELOAD".toList, "DYLD_INSERT_LIBRARIES".toList, "DYLD_FORCE_FLAT_NAMESPACE".toList,
    "BUILDSH_TEMPFILE".toList]

section Restored

variable {σ D L : Type} (os : Os σ L) (sys : System σ L)

/-- `check_deps` does not find the command up to date. -/
def Executed (b : Session σ) (argv : List LuaString) (dir : Option LuaString) : Prop :=
  ∃ deps, checkDeps (os.hashFile b.files) b.dependencies (argv2cmd os.dirsep argv dir) =
    .ok (deps, true)

/-- `pre_process` creates the file `f`. -/
def Creates (tracer : Option (Tracer D L)) (sh : Shell) (argv : List LuaString)
    (f : LuaString) : Prop :=
  sh.temps f = .absent ∧ (shellBefore tracer sh argv).temps f ≠ .absent

/-- The shell after a call of `make.run`. -/
def endShell (tracer : Option (Tracer D L)) (b : Session σ) (sh : Shell) (argv : List LuaString)
    (dir : Option LuaString) : Shell :=
  (makeRunIn os sys tracer b sh argv dir).2.2

/-- The four variables are as before the call, and the trace file is gone. -/
structure Restored (tracer : Option (Tracer D L)) (b : Session σ) (sh : Shell)
    (argv : List LuaString) (dir : Option LuaString) : Prop where
  env : ∀ name ∈ setNames, (endShell os sys tracer b sh argv dir).env name = sh.env name
  temps : Executed os b argv dir → ∀ f, Creates tracer sh argv f →
    (endShell os sys tracer b sh argv dir).temps f = .absent

section Calls

variable {os sys} {tracer : Option (Tracer D L)} {b : Session σ} {sh sh' : Shell}
  {argv argv' : List LuaString} {dir : Option LuaString}

theorem endShell_not_executed (h : ¬ Executed os b argv dir) :
    endShell os sys tracer b sh argv dir = sh := by
  unfold endShell makeRunIn
  dsimp only
  cases hcheck : checkDeps (os.hashFile b.files) b.dependencies (argv2cmd os.dirsep argv dir) with
  | error e => rfl
  | ok r =>
      obtain ⟨deps, runIt⟩ := r
      cases runIt with
      | false => rfl
      | true => exact absurd ⟨deps, hcheck⟩ h

theorem endShell_start_error (h : Executed os b argv dir) {e : LuaError}
    (hstart : start tracer argv sh = .error e sh') :
    endShell os sys tracer b sh argv dir = sh' := by
  obtain ⟨deps, hcheck⟩ := h
  unfold endShell makeRunIn
  simp only [hcheck, hstart]

/-- The shell after a call whose process has left `log`. -/
theorem endShell_succeeded (h : Executed os b argv dir) {data : Option D}
    (hstart : start tracer argv sh = .ok (argv', data) sh') {files : σ} {log : L}
    (hended : (sys.exec argv' dir sh' b.files).1 = .succeeded files log) :
    endShell os sys tracer b sh argv dir =
      shellOf (stop tracer data (dir.getD ['.']) log
        (sh'.after (sys.exec argv' dir sh' b.files))) := by
  obtain ⟨deps, hcheck⟩ := h
  unfold endShell makeRunIn
  simp only [hcheck, hstart]
  revert hended
  generalize sys.exec argv' dir sh' b.files = ended
  intro hended
  simp only [hended, Outcome.result]
  cases hstop : stop tracer data (dir.getD ['.']) log (sh'.after ended) with
  | error e sh₂ => rfl
  | ok report sh₂ =>
      cases report with
      | none => rfl
      | some report =>
          dsimp only
          cases record (os.hashFile (Outcome.files b.files (.succeeded files log))) deps
              report.td with
          | error e => rfl
          | ok deps => rfl

/-- The shell after a call whose process has failed. -/
theorem endShell_failed (h : Executed os b argv dir) {data : Option D}
    (hstart : start tracer argv sh = .ok (argv', data) sh')
    (hended : ∀ files log, (sys.exec argv' dir sh' b.files).1 ≠ .succeeded files log) :
    endShell os sys tracer b sh argv dir = sh'.after (sys.exec argv' dir sh' b.files) := by
  obtain ⟨deps, hcheck⟩ := h
  unfold endShell makeRunIn
  simp only [hcheck, hstart]
  revert hended
  generalize sys.exec argv' dir sh' b.files = ended
  intro hended
  cases hlog : ended.1 with
  | succeeded files log => exact absurd hlog (hended files log)
  | notCreated msg => rfl
  | exited files code => rfl
  | signalled files code => rfl
  | waitFailed files msg => rfl

end Calls

end Restored

section Kinds

variable {σ L : Type} (os : Os σ L) (sys : System σ L)
  (read : Option LuaString → LuaString → L → Except LuaError Report)

/-- Whether `pre_process` creates a trace file. -/
def Kind.creates : Kind → Bool
  | .preload | .strace | .ktrace => true
  | .untraced | .tracker => false

def library (sh : Shell) : LuaString := (sh.env "BUILDSH_PRELOAD".toList).getD []

/-- With `file` from `os.tmpname`, nothing else in `pre_process` fails. -/
def Kind.Ready (k : Kind) (sh : Shell) (file : LuaString) : Prop :=
  k = .preload → (sh.env "BUILDSH_PRELOAD".toList).isSome ∧
    ∀ x ∈ settings (library sh) file, sys.setFails x.1 x.2 = none

/-- What is executed. -/
def Kind.argv (k : Kind) (file : LuaString) (argv : List LuaString) : List LuaString :=
  match k with
  | .untraced | .preload => argv
  | .strace => straceArgv file argv
  | .ktrace => ktraceArgv file argv
  | .tracker => trackerArgv (sys.inTempDir file) argv

def Kind.data (k : Kind) (file : LuaString) (argv : List LuaString) : k.Data :=
  match k with
  | .untraced => ()
  | .preload => ⟨file, argv.head?.getD []⟩
  | .strace | .ktrace => file
  | .tracker => sys.inTempDir file

/-- The shell after `pre_process`. -/
def Kind.setUp (k : Kind) (sh : Shell) (file : LuaString) : Shell :=
  match k with
  | .untraced | .tracker => sh
  | .preload =>
      (settings (library sh) file).foldl (fun sh x => sh.setEnv x.1 x.2) (sh.create file)
  | .strace | .ktrace => sh.create file

/-- In `post_process`, nothing fails before `os.remove` is called for the trace file. -/
def Kind.Undoes (k : Kind) (file : LuaString) (argv : List LuaString) (dir : LuaString) (log : L)
    (temps : Temps) : Prop :=
  match k with
  | .untraced | .tracker => False
  | .preload => temps file ≠ .absent ∧
      ∃ report, read (some (argv.head?.getD [])) dir log = .ok report
  | .strace => temps file ≠ .absent ∧ ∃ report, read none dir log = .ok report
  | .ktrace => ∃ kdump, sys.tmpname temps = .ok kdump

section Setup

variable {os sys read} {k : Kind} {sh sh' : Shell} {argv : List LuaString} {file : LuaString}

theorem tmpname_ok (h : sys.tmpname sh.temps = .ok file) :
    tmpname sys true sh = .ok file (sh.create file) := by
  unfold tmpname
  rw [h]
  rfl

theorem tmpname_error {mkstemp : Bool} {e : LuaError} (h : sys.tmpname sh.temps = .error e) :
    tmpname sys mkstemp sh = .error e sh := by
  unfold tmpname
  rw [h]

theorem getenv_ok {name value : LuaString} (h : sh.env name = some value) :
    getenv name sh = .ok value sh := by
  unfold getenv
  rw [h]

theorem envSet_ok {name value : LuaString} (h : sys.setFails name value = none) :
    envSet sys name value sh = .ok () (sh.setEnv name value) := by
  unfold envSet
  rw [h]

theorem envSet_eq_ok {name value : LuaString} {u : Unit}
    (h : envSet sys name value sh = .ok u sh') : sys.setFails name value = none := by
  unfold envSet at h
  split at h
  · cases h
  · assumption

theorem getenv_eq_ok {name value : LuaString} (h : getenv name sh = .ok value sh') :
    sh.env name = some value ∧ sh' = sh := by
  unfold getenv at h
  split at h
  · cases h
  · cases h
    exact ⟨‹_›, rfl⟩

theorem keeps_envSet {γ : Type} {g : Shell → γ} {name value : LuaString}
    (h : ∀ sh : Shell, g (sh.setEnv name value) = g sh) : Keeps g (envSet sys name value) := by
  intro sh
  unfold envSet
  split
  · rfl
  · exact h sh

theorem keeps_getenv {γ : Type} {g : Shell → γ} (name : LuaString) : Keeps g (getenv name) := by
  intro sh
  unfold getenv
  split
  · rfl
  · rfl

/-- What `preload.lua` sets leaves everything else as it is. -/
theorem keeps_settings {α γ : Type} {g : Shell → γ}
    (h : ∀ name ∈ setNames, ∀ (sh : Shell) value, g (sh.setEnv name value) = g sh)
    (file : LuaString) (r : α) : Keeps g (do
      let p ← getenv "BUILDSH_PRELOAD".toList
      envSet sys "LD_PRELOAD".toList p
      envSet sys "DYLD_INSERT_LIBRARIES".toList p
      envSet sys "DYLD_FORCE_FLAT_NAMESPACE".toList ['y']
      envSet sys "BUILDSH_TEMPFILE".toList file
      return r) := by
  have hset : ∀ name ∈ setNames, ∀ value, Keeps g (envSet sys name value) :=
    fun name hn value => keeps_envSet fun sh => h name hn sh value
  exact (keeps_getenv _).bind fun p => (hset _ (by simp [setNames]) p).bind fun _ =>
    (hset _ (by simp [setNames]) p).bind fun _ => (hset _ (by simp [setNames]) _).bind fun _ =>
    (hset _ (by simp [setNames]) _).bind fun _ => Keeps.pure r

variable (read argv) in
/-- Without a trace file there is nothing to undo. -/
theorem start_tmpname_error (hk : k.creates = true) {e : LuaError}
    (h : sys.tmpname sh.temps = .error e) :
    start (k.tracer sys read) argv sh = .error e sh := by
  cases k with
  | untraced => cases hk
  | tracker => cases hk
  | preload => exact start_error (bind_error (tmpname_error h))
  | strace => exact start_error (bind_error (tmpname_error h))
  | ktrace => exact start_error (bind_error (tmpname_error h))

variable (read argv) in
theorem preload_ready (h : sys.tmpname sh.temps = .ok file)
    (hr : Kind.Ready sys .preload sh file) :
    (preload sys read).preProcess argv sh =
      .ok (argv, ⟨file, argv.head?.getD []⟩) (Kind.setUp .preload sh file) := by
  obtain ⟨hp, hset⟩ := hr rfl
  obtain ⟨p, hp⟩ := Option.isSome_iff_exists.mp hp
  have hlib : library sh = p := by
    unfold library
    rw [hp]
    rfl
  simp only [hlib, settings, List.forall_mem_cons] at hset
  obtain ⟨h₁, h₂, h₃, h₄, -⟩ := hset
  unfold Kind.setUp
  dsimp only
  rw [hlib]
  calc (preload sys read).preProcess argv sh
      = _ := bind_ok (tmpname_ok h)
    _ = _ := bind_ok (getenv_ok hp)
    _ = _ := bind_ok (envSet_ok h₁)
    _ = _ := bind_ok (envSet_ok h₂)
    _ = _ := bind_ok (envSet_ok h₃)
    _ = _ := bind_ok (envSet_ok h₄)

variable (read argv) in
theorem start_ready (hk : k.creates = true) (h : sys.tmpname sh.temps = .ok file)
    (hr : k.Ready sys sh file) :
    start (k.tracer sys read) argv sh =
      .ok (k.argv sys file argv, some (k.data sys file argv)) (k.setUp sh file) := by
  cases k with
  | untraced => cases hk
  | tracker => cases hk
  | preload => exact start_ok (preload_ready read argv h hr)
  | strace => exact start_ok (bind_ok (tmpname_ok h))
  | ktrace => exact start_ok (bind_ok (tmpname_ok h))

theorem preload_eq_ok (h : sys.tmpname sh.temps = .ok file)
    {r : List LuaString × PreloadData}
    (hpre : (preload sys read).preProcess argv sh = .ok r sh') :
    Kind.Ready sys .preload sh file := by
  intro _
  obtain ⟨ofile, sh₁, h₀, hpre⟩ := bind_eq_ok hpre
  rw [tmpname_ok h] at h₀
  cases h₀
  obtain ⟨p, sh₂, hp, hpre⟩ := bind_eq_ok hpre
  obtain ⟨hp, -⟩ := getenv_eq_ok hp
  obtain ⟨_, _, h₁, hpre⟩ := bind_eq_ok hpre
  obtain ⟨_, _, h₂, hpre⟩ := bind_eq_ok hpre
  obtain ⟨_, _, h₃, hpre⟩ := bind_eq_ok hpre
  obtain ⟨_, _, h₄, -⟩ := bind_eq_ok hpre
  have hlib : library sh = p := by
    unfold library
    rw [← Shell.create_env sh file, hp]
    rfl
  rw [hlib, ← Shell.create_env sh file, hp]
  refine ⟨rfl, ?_⟩
  simp only [settings, List.forall_mem_cons]
  exact ⟨envSet_eq_ok h₁, envSet_eq_ok h₂, envSet_eq_ok h₃, envSet_eq_ok h₄, by simp⟩

variable (read argv) in
/-- Where `pre_process` fails later, the trace file is there. -/
theorem start_not_ready (hk : k.creates = true) (h : sys.tmpname sh.temps = .ok file)
    (hr : ¬ k.Ready sys sh file) :
    ∃ e sh', start (k.tracer sys read) argv sh = .error e sh' ∧
      sh'.temps = (sh.create file).temps := by
  have hkind : k = .preload := by
    by_contra hne
    exact hr fun hp => absurd hp hne
  subst hkind
  cases hpre : (preload sys read).preProcess argv sh with
  | ok r sh' => exact absurd (preload_eq_ok h hpre) hr
  | error e sh' =>
      have htemps : (shellOf ((preload sys read).preProcess argv sh)).temps =
          (sh.create file).temps :=
        Keeps.of_bind_ok (tmpname_ok h) fun ofile => keeps_settings (fun _ _ _ _ => rfl) ofile _
      rw [hpre] at htemps
      exact ⟨e, sh', start_error hpre, htemps⟩

theorem setUp_temps (hk : k.creates = true) :
    (k.setUp sh file).temps = (sh.create file).temps := by
  cases k with
  | untraced => cases hk
  | tracker => cases hk
  | preload => rfl
  | strace => rfl
  | ktrace => rfl

end Setup

section Undo

variable {sys read} {k : Kind} {sh sh' : Shell} {argv : List LuaString} {file dir : LuaString}
  {log : L}

theorem lines_ok (h : sh.temps file ≠ .absent) : lines file log sh = .ok log sh := if_neg h

theorem lines_error (h : sh.temps file = .absent) : ∃ e, lines file log sh = .error e sh :=
  ⟨_, if_pos h⟩

theorem ofExcept_error {α : Type} {r : Except LuaError α} (h : ¬ ∃ a, r = .ok a) :
    ∃ e, ofExcept r sh = .error e sh := by
  cases r with
  | ok a => exact absurd ⟨a, rfl⟩ h
  | error e => exact ⟨e, rfl⟩

theorem shellOf_stop {D : Type} (tracer : Tracer D L) (data : D) :
    shellOf (stop (some tracer) (some data) dir log sh) =
      shellOf (tracer.postProcess data dir log sh) := by
  cases h : tracer.postProcess data dir log sh with
  | ok report sh' => rw [stop_ok h]; rfl
  | error e sh' => rw [stop_error h]; rfl

/-- A log that cannot be opened or read. -/
theorem lines_read_error {α : Type} {g : L → Except LuaError Report} {f : Report → Effect α}
    (h : ¬ (sh.temps file ≠ .absent ∧ ∃ report, g log = .ok report)) :
    shellOf ((lines file log >>= fun log => ofExcept (g log) >>= f) sh) = sh := by
  by_cases hfile : sh.temps file = .absent
  · obtain ⟨e, he⟩ : ∃ e, lines file log sh = .error e sh := lines_error hfile
    rw [bind_error he]
    rfl
  · obtain ⟨e, he⟩ : ∃ e, ofExcept (g log) sh = .error e sh :=
      ofExcept_error fun hr => h ⟨hfile, hr⟩
    rw [bind_ok (lines_ok hfile), bind_error he]
    rfl

/-- Where `post_process` fails before, it changes nothing. -/
theorem stop_not_undone (hk : k.creates = true)
    (h : ¬ k.Undoes sys read file argv dir log sh.temps) :
    shellOf (stop (k.tracer sys read) (some (k.data sys file argv)) dir log sh) = sh := by
  cases k with
  | untraced => cases hk
  | tracker => cases hk
  | preload => exact (shellOf_stop _ _).trans (lines_read_error (g := read _ dir) h)
  | strace => exact (shellOf_stop _ _).trans (lines_read_error (g := read _ dir) h)
  | ktrace =>
      refine (shellOf_stop _ _).trans ?_
      cases htmp : sys.tmpname sh.temps with
      | ok kdump => exact absurd ⟨kdump, htmp⟩ h
      | error e =>
          change shellOf ((tmpname sys true >>= _) sh) = sh
          rw [bind_error (tmpname_error htmp)]
          rfl

theorem preload_undone (h : Kind.Undoes sys read .preload file argv dir log sh.temps) :
    shellOf ((preload sys read).postProcess ⟨file, argv.head?.getD []⟩ dir log sh) =
      setNames.foldl Shell.unsetEnv (sh.delete file) := by
  obtain ⟨hfile, report, hreport⟩ := h
  have hread : ofExcept (read (some (argv.head?.getD [])) dir log) sh = .ok report sh := by
    rw [hreport]
    rfl
  calc shellOf ((preload sys read).postProcess ⟨file, argv.head?.getD []⟩ dir log sh)
      = shellOf _ := congrArg shellOf (bind_ok (lines_ok hfile))
    _ = shellOf _ := congrArg shellOf (bind_ok hread)
    _ = setNames.foldl Shell.unsetEnv (sh.delete file) := rfl

theorem strace_undone (h : Kind.Undoes sys read .strace file argv dir log sh.temps) :
    shellOf ((strace sys read).postProcess file dir log sh) = sh.delete file := by
  obtain ⟨hfile, report, hreport⟩ := h
  have hread : ofExcept (read none dir log) sh = .ok report sh := by
    rw [hreport]
    rfl
  calc shellOf ((strace sys read).postProcess file dir log sh)
      = shellOf _ := congrArg shellOf (bind_ok (lines_ok hfile))
    _ = shellOf _ := congrArg shellOf (bind_ok hread)
    _ = sh.delete file := rfl

variable (read file dir log) in
/-- The trace file is removed even if the output of `kdump` cannot be read. -/
theorem ktrace_undone {kdump : LuaString} (h : sys.tmpname sh.temps = .ok kdump) :
    shellOf ((ktrace sys read).postProcess file dir log sh) = (sh.create kdump).delete file ∨
      shellOf ((ktrace sys read).postProcess file dir log sh) =
        ((sh.create kdump).delete file).delete kdump := by
  have hrun : ∃ text : L, (ktrace sys read).postProcess file dir log sh =
      (do
        let text ← lines kdump text
        let report ← ofExcept (read none dir text)
        remove kdump
        return report : Effect Report) ((sh.create kdump).delete file) :=
    ⟨_, bind_ok (tmpname_ok h)⟩
  obtain ⟨text, hrun⟩ := hrun
  rw [hrun]
  by_cases hread : ((sh.create kdump).delete file).temps kdump ≠ .absent ∧
      ∃ report, read none dir text = .ok report
  · right
    obtain ⟨hfile, report, hreport⟩ := hread
    rw [bind_ok (lines_ok hfile), hreport]
    rfl
  · left
    exact lines_read_error (g := read none dir) hread

/-- **After `os.remove` the trace file is gone, unless it is locked.** -/
theorem stop_undone_temps (h : k.Undoes sys read file argv dir log sh.temps) :
    (shellOf (stop (k.tracer sys read) (some (k.data sys file argv)) dir log sh)).temps file =
      .absent ↔ sh.temps file ≠ .locked := by
  have hgone : ∀ {sh' : Shell}, sh'.temps file ≠ .present →
      (sh'.temps file = .locked ↔ sh.temps file = .locked) →
      (sh'.temps file = .absent ↔ sh.temps file ≠ .locked) := by
    intro sh' hpresent hlocked
    rw [Ne, ← hlocked]
    cases hst : sh'.temps file with
    | absent => simp
    | present => exact absurd hst hpresent
    | locked => simp
  cases k with
  | untraced => cases h
  | tracker => cases h
  | preload =>
      have hrun := (shellOf_stop _ _).trans (preload_undone h)
      rw [show shellOf (stop (Kind.tracer sys read .preload)
        (some (Kind.data sys .preload file argv)) dir log sh) = _ from hrun]
      exact hgone (Shell.delete_self_ne_present sh file) (Shell.delete_locked_iff sh file file)
  | strace =>
      have hrun := (shellOf_stop _ _).trans (strace_undone h)
      rw [show shellOf (stop (Kind.tracer sys read .strace)
        (some (Kind.data sys .strace file argv)) dir log sh) = _ from hrun]
      exact hgone (Shell.delete_self_ne_present sh file) (Shell.delete_locked_iff sh file file)
  | ktrace =>
      obtain ⟨kdump, h⟩ := h
      -- a trace file that is locked is not absent, so `kdump` has another name
      have hlocked : ((sh.create kdump).delete file).temps file = .locked ↔
          sh.temps file = .locked := by
        rw [Shell.delete_locked_iff, Shell.create_locked_iff, and_iff_right_iff_imp]
        rintro hl rfl
        rw [sys.tmpname_new _ _ h] at hl
        cases hl
      have hpresent := Shell.delete_self_ne_present (sh.create kdump) file
      change (shellOf (stop (some (ktrace sys read)) (some file) dir log sh)).temps file = _ ↔ _
      rw [shellOf_stop]
      rcases ktrace_undone read file dir log h with hrun | hrun
      · rw [hrun]
        exact hgone hpresent hlocked
      · rw [hrun]
        refine hgone (Shell.delete_ne_present hpresent kdump) ?_
        rw [Shell.delete_locked_iff, hlocked]

end Undo

section Frame

variable {sys read} {k : Kind} {name : LuaString}

theorem setEnv_env_ne {n : LuaString} (h : n ≠ name) (sh : Shell) (value : LuaString) :
    (sh.setEnv n value).env name = sh.env name := if_neg (Ne.symm h)

theorem unsetEnv_env_ne {n : LuaString} (h : n ≠ name) (sh : Shell) :
    (sh.unsetEnv n).env name = sh.env name := if_neg (Ne.symm h)

theorem keeps_tmpname_env (mkstemp : Bool) :
    Keeps (fun sh => sh.env name) (tmpname sys mkstemp) := by
  intro sh
  unfold tmpname
  split
  · rfl
  · cases mkstemp with
    | false => rfl
    | true => rfl

theorem keeps_lines_env (file : LuaString) (log : L) :
    Keeps (fun sh => sh.env name) (lines file log) := by
  intro sh
  unfold lines
  split
  · rfl
  · rfl

theorem keeps_ofExcept_env {α : Type} (r : Except LuaError α) :
    Keeps (fun sh => sh.env name) (ofExcept r) := by
  intro sh
  cases r with
  | ok a => rfl
  | error e => rfl

theorem keeps_remove_env (file : LuaString) : Keeps (fun sh => sh.env name) (remove file) :=
  fun _ => rfl

theorem keeps_envDelete {n : LuaString} (h : n ≠ name) :
    Keeps (fun sh => sh.env name) (envDelete n) := unsetEnv_env_ne h

theorem keeps_removeLogs_env (odir : LuaString) :
    Keeps (fun sh => sh.env name) (removeLogs sys odir) := by
  intro sh
  have hfold : ∀ (l : List LuaString) (sh : Shell), (l.foldl Shell.delete sh).env = sh.env := by
    intro l
    induction l with
    | nil => exact fun _ => rfl
    | cons f l ih => exact fun sh => ih (sh.delete f)
  change ((sys.glob sh.temps odir).foldl Shell.delete sh).env name = _
  rw [hfold]

theorem Keeps.start {D γ : Type} {g : Shell → γ} {t : Tracer D L} {argv : List LuaString}
    (h : Keeps g (t.preProcess argv)) : Keeps g (start (some t) argv) :=
  h.bind fun _ => Keeps.pure _

variable (sys read) in
theorem keeps_start_env (h : k = .preload → name ∉ setNames) (argv : List LuaString) :
    Keeps (fun sh => sh.env name) (start (k.tracer sys read) argv) := by
  cases k with
  | untraced => exact Keeps.pure _
  | preload =>
      have hset : ∀ n ∈ setNames, ∀ (sh : Shell) value,
          (sh.setEnv n value).env name = sh.env name :=
        fun n hn sh value => setEnv_env_ne (ne_of_mem_of_not_mem hn (h rfl)) sh value
      refine Keeps.start (t := preload sys read) ?_
      exact (keeps_tmpname_env true).bind fun ofile => keeps_settings hset ofile _
  | strace =>
      refine Keeps.start (t := strace sys read) ?_
      exact (keeps_tmpname_env true).bind fun _ => Keeps.pure _
  | ktrace =>
      refine Keeps.start (t := ktrace sys read) ?_
      exact (keeps_tmpname_env true).bind fun _ => Keeps.pure _
  | tracker =>
      refine Keeps.start (t := tracker sys read) ?_
      exact (keeps_tmpname_env false).bind fun _ => Keeps.pure _

theorem Keeps.stop {D γ : Type} {g : Shell → γ} {t : Tracer D L} {data : D} {dir : LuaString}
    {log : L} (h : Keeps g (t.postProcess data dir log)) :
    Keeps g (stop (some t) (some data) dir log) := by
  intro sh
  rw [shellOf_stop]
  exact h sh

theorem keeps_stop_env (h : k = .preload → name ∉ setNames) (data : Option k.Data)
    (dir : LuaString) (log : L) :
    Keeps (fun sh => sh.env name) (stop (k.tracer sys read) data dir log) := by
  cases data with
  | none =>
      unfold stop
      split
      · contradiction
      · exact Keeps.pure _
  | some data =>
      cases k with
      | untraced => exact Keeps.pure _
      | preload =>
          have hdel : ∀ n ∈ setNames, Keeps (fun sh => sh.env name) (envDelete n) :=
            fun n hn => keeps_envDelete (ne_of_mem_of_not_mem hn (h rfl))
          refine Keeps.stop (t := preload sys read) ?_
          exact (keeps_lines_env _ _).bind fun log => (keeps_ofExcept_env _).bind fun report =>
            (keeps_remove_env _).bind fun _ => (hdel _ (by simp [setNames])).bind fun _ =>
            (hdel _ (by simp [setNames])).bind fun _ => (hdel _ (by simp [setNames])).bind
            fun _ => (hdel _ (by simp [setNames])).bind fun _ => Keeps.pure _
      | strace =>
          refine Keeps.stop (t := strace sys read) ?_
          exact (keeps_lines_env _ _).bind fun log => (keeps_ofExcept_env _).bind fun report =>
            (keeps_remove_env _).bind fun _ => Keeps.pure _
      | ktrace =>
          refine Keeps.stop (t := ktrace sys read) ?_
          exact (keeps_tmpname_env true).bind fun kdump => Keeps.bind (fun _ => rfl) fun text =>
            (keeps_remove_env _).bind fun _ => (keeps_lines_env _ _).bind fun log =>
            (keeps_ofExcept_env _).bind fun report => (keeps_remove_env _).bind fun _ =>
            Keeps.pure _
      | tracker =>
          refine Keeps.stop (t := tracker sys read) ?_
          exact (keeps_ofExcept_env _).bind fun report => (keeps_removeLogs_env _).bind fun _ =>
            Keeps.pure _

/-- **No call changes another variable**, and only `preload.lua` changes these. -/
theorem endShell_env (h : k = .preload → name ∉ setNames) (b : Session σ) (sh : Shell)
    (argv : List LuaString) (dir : Option LuaString) :
    (endShell os sys (k.tracer sys read) b sh argv dir).env name = sh.env name := by
  by_cases hex : Executed os b argv dir
  · have hstart := keeps_start_env sys read h argv sh
    cases hs : start (k.tracer sys read) argv sh with
    | error e sh₁ =>
        rw [endShell_start_error hex hs]
        rw [hs] at hstart
        exact hstart
    | ok r sh₁ =>
        obtain ⟨argv', data⟩ := r
        rw [hs] at hstart
        by_cases hended : ∃ files log,
            (sys.exec argv' dir sh₁ b.files).1 = .succeeded files log
        · obtain ⟨files, log, hended⟩ := hended
          rw [endShell_succeeded hex hs hended]
          refine (keeps_stop_env h data _ log _).trans ?_
          dsimp only
          rw [Shell.after_env]
          exact hstart
        · rw [endShell_failed hex hs fun files log he => hended ⟨files, log, he⟩, Shell.after_env]
          exact hstart
  · rw [endShell_not_executed hex]

end Frame

/-! ## When a call restores the shell -/

section Condition

variable (k : Kind) (b : Session σ) (sh : Shell) (argv : List LuaString) (dir : Option LuaString)
  (file : LuaString)

/-- How the process ends that is executed with `file` as its trace file. -/
def Kind.ended : Outcome σ L × Temps :=
  sys.exec (k.argv sys file argv) dir (k.setUp sh file) b.files

/-- The shell after this process. -/
def Kind.left : Shell := (k.setUp sh file).after (k.ended sys b sh argv dir file)

/-- The process succeeds, and `post_process` gets to its `os.remove`. -/
def Kind.Undone : Prop :=
  ∃ files log, (k.ended sys b sh argv dir file).1 = .succeeded files log ∧
    k.Undoes sys read file argv (dir.getD ['.']) log (k.left sys b sh argv dir file).temps

/-- What it takes that nothing is left behind once the trace file has been created. -/
structure Kind.LeavesNothing : Prop where
  ready : k.Ready sys sh file
  /-- the process removes the trace file, or `post_process` can and does -/
  temps : (k.left sys b sh argv dir file).temps file = .absent ∨
    k.Undone sys read b sh argv dir file ∧ (k.left sys b sh argv dir file).temps file = .present
  /-- the variables are deleted and were not set, or stay as they were set before -/
  env : k = .preload →
    k.Undone sys read b sh argv dir file ∧ (∀ name ∈ setNames, sh.env name = none) ∨
    ¬ k.Undone sys read b sh argv dir file ∧
      ∀ x ∈ settings (library sh) file, sh.env x.1 = some x.2

end Condition

section

variable {sys read} {k : Kind} {b : Session σ} {sh : Shell} {argv : List LuaString}
  {dir : Option LuaString} {file : LuaString}

theorem foldl_unsetEnv (names : List LuaString) (sh : Shell) (name : LuaString) :
    (names.foldl Shell.unsetEnv sh).env name = if name ∈ names then none else sh.env name := by
  induction names generalizing sh with
  | nil => rfl
  | cons n names ih =>
      rw [List.foldl_cons, ih]
      by_cases hmem : name ∈ names
      · rw [if_pos hmem, if_pos (List.mem_cons_of_mem n hmem)]
      · rw [if_neg hmem]
        by_cases hn : name = n
        · subst hn
          rw [if_pos List.mem_cons_self]
          exact if_pos rfl
        · rw [if_neg (by simp [hn, hmem])]
          exact if_neg hn

theorem foldl_setEnv {l : List (LuaString × LuaString)} (hl : (l.map Prod.fst).Nodup)
    {x : LuaString × LuaString} (hx : x ∈ l) (sh : Shell) :
    (l.foldl (fun sh x => sh.setEnv x.1 x.2) sh).env x.1 = some x.2 := by
  have hkeep : ∀ (l : List (LuaString × LuaString)) (sh : Shell) (name : LuaString),
      name ∉ l.map Prod.fst →
      (l.foldl (fun sh x => sh.setEnv x.1 x.2) sh).env name = sh.env name := by
    intro l
    induction l with
    | nil => exact fun _ _ _ => rfl
    | cons y l ih =>
        intro sh name hname
        rw [List.map_cons, List.mem_cons, not_or] at hname
        rw [List.foldl_cons, ih _ _ hname.2, setEnv_env_ne (Ne.symm hname.1)]
  induction l generalizing sh with
  | nil => cases hx
  | cons y l ih =>
      rw [List.map_cons, List.nodup_cons] at hl
      rw [List.foldl_cons]
      rcases List.mem_cons.mp hx with rfl | hx
      · rw [hkeep l _ _ hl.1]
        exact if_pos rfl
      · exact ih hl.2 hx _

theorem setNames_eq (p ofile : LuaString) : (settings p ofile).map Prod.fst = setNames := rfl

theorem nodup_setNames : setNames.Nodup := by decide +kernel

theorem left_preload_env {x : LuaString × LuaString} (hx : x ∈ settings (library sh) file) :
    (Kind.left sys .preload b sh argv dir file).env x.1 = some x.2 := by
  have hnodup : ((settings (library sh) file).map Prod.fst).Nodup := by
    rw [setNames_eq]
    exact nodup_setNames
  unfold Kind.left
  rw [Shell.after_env]
  exact foldl_setEnv hnodup hx (sh.create file)

variable (read argv) in
/-- `pre_process` creates `file` and nothing else. -/
theorem creates_iff (hk : k.creates = true) (h : sys.tmpname sh.temps = .ok file)
    (hr : k.Ready sys sh file) (f : LuaString) :
    Creates (k.tracer sys read) sh argv f ↔ f = file := by
  unfold Creates shellBefore
  rw [start_ready read argv hk h hr]
  change sh.temps f = .absent ∧ (k.setUp sh file).temps f ≠ .absent ↔ f = file
  rw [setUp_temps hk]
  constructor
  · rintro ⟨habsent, hne⟩
    by_contra hf
    exact hne ((if_neg hf).trans habsent)
  · rintro rfl
    rw [Shell.create_self]
    exact ⟨sys.tmpname_new _ _ h, by decide⟩

/-- Once the process has run, `post_process` does everything or nothing. -/
theorem endShell_undone (hex : Executed os b argv dir) (hk : k.creates = true)
    (h : sys.tmpname sh.temps = .ok file) (hr : k.Ready sys sh file)
    (hu : k.Undone sys read b sh argv dir file) :
    ((endShell os sys (k.tracer sys read) b sh argv dir).temps file = .absent ↔
      (k.left sys b sh argv dir file).temps file ≠ .locked) ∧
    (k = .preload → ∀ name ∈ setNames,
      (endShell os sys (k.tracer sys read) b sh argv dir).env name = none) := by
  obtain ⟨files, log, hended, hu⟩ := hu
  rw [endShell_succeeded hex (start_ready read argv hk h hr) hended]
  refine ⟨stop_undone_temps hu, ?_⟩
  rintro rfl name hname
  have hrun := (shellOf_stop (preload sys read) _).trans (preload_undone hu)
  refine (congrArg (fun sh => sh.env name) hrun).trans ?_
  rw [foldl_unsetEnv, if_pos hname]

theorem endShell_not_undone (hex : Executed os b argv dir) (hk : k.creates = true)
    (h : sys.tmpname sh.temps = .ok file) (hr : k.Ready sys sh file)
    (hu : ¬ k.Undone sys read b sh argv dir file) :
    endShell os sys (k.tracer sys read) b sh argv dir = k.left sys b sh argv dir file := by
  have hstart := start_ready read argv hk h hr
  by_cases hended : ∃ files log, (k.ended sys b sh argv dir file).1 = .succeeded files log
  · obtain ⟨files, log, hended⟩ := hended
    rw [endShell_succeeded hex hstart hended]
    exact stop_not_undone hk fun hundoes => hu ⟨files, log, hended, hundoes⟩
  · exact endShell_failed hex hstart fun files log he => hended ⟨files, log, he⟩

variable (sys read) in
/-- Without `mkstemp` no file is created. -/
theorem keeps_start_temps (hk : k.creates = false) (argv : List LuaString) :
    Keeps (fun sh => sh.temps) (start (k.tracer sys read) argv) := by
  have htmpname : Keeps (fun sh => sh.temps) (tmpname sys false) := by
    intro sh
    unfold tmpname
    split
    · rfl
    · rfl
  cases k with
  | untraced => exact Keeps.pure _
  | tracker =>
      refine Keeps.start (t := tracker sys read) ?_
      exact htmpname.bind fun _ => Keeps.pure _
  | preload => cases hk
  | strace => cases hk
  | ktrace => cases hk

/-- Without a trace file nothing is changed. -/
theorem restored_of_not_created (b : Session σ) (dir : Option LuaString)
    (h : Executed os b argv dir → k.creates = true → ∃ e, sys.tmpname sh.temps = .error e) :
    Restored os sys (k.tracer sys read) b sh argv dir := by
  by_cases hex : Executed os b argv dir
  · by_cases hk : k.creates = true
    · obtain ⟨e, he⟩ := h hex hk
      have hstart := start_tmpname_error read argv hk he
      refine ⟨fun name _ => by rw [endShell_start_error hex hstart], fun _ f hf => ?_⟩
      unfold Creates shellBefore at hf
      rw [hstart] at hf
      exact absurd hf.1 hf.2
    · refine ⟨fun name _ => endShell_env os (fun hp => ?_) b sh argv dir, fun _ f hf => ?_⟩
      · rw [hp] at hk
        exact absurd rfl hk
      · -- neither of the two creates a file
        have hkeeps := keeps_start_temps sys read
          (Bool.eq_false_iff.mpr hk) argv sh
        exact absurd ((congrFun hkeeps f).trans hf.1) hf.2
  · refine ⟨fun name _ => by rw [endShell_not_executed hex], fun h' => absurd h' hex⟩

section Created

variable (hex : Executed os b argv dir) (hk : k.creates = true)
  (h : sys.tmpname sh.temps = .ok file)
include hex hk h

/-- `post_process` deletes what was set before, too. -/
theorem restored_undone_iff (hr : k.Ready sys sh file)
    (hu : k.Undone sys read b sh argv dir file) :
    Restored os sys (k.tracer sys read) b sh argv dir ↔
      k.LeavesNothing sys read b sh argv dir file := by
  have hcreates := creates_iff read argv hk h hr
  obtain ⟨htemps, henv⟩ := endShell_undone os hex hk h hr hu
  constructor
  · rintro ⟨hsame, hgone⟩
    have hlocked := htemps.mp (hgone hex file ((hcreates file).mpr rfl))
    refine ⟨hr, ?_, fun hp => Or.inl ⟨hu, fun name hname => ?_⟩⟩
    · cases hst : (k.left sys b sh argv dir file).temps file with
      | absent => exact Or.inl rfl
      | present => exact Or.inr ⟨hu, rfl⟩
      | locked => exact absurd hst hlocked
    · rw [← hsame name hname]
      exact henv hp name hname
  · rintro ⟨-, hgone, hvars⟩
    refine ⟨fun name hname => ?_, fun _ f hf => ?_⟩
    · by_cases hp : k = .preload
      · obtain ⟨-, hunset⟩ := (hvars hp).resolve_right fun hn => hn.1 hu
        rw [henv hp name hname, hunset name hname]
      · exact endShell_env os (fun he => absurd he hp) b sh argv dir
    · rw [(hcreates f).mp hf, htemps]
      rcases hgone with hst | ⟨-, hst⟩
      · rw [hst]
        decide
      · rw [hst]
        decide

/-- After an early exit the shell is as `pre_process` and the process have left it. -/
theorem restored_not_undone_iff (hr : k.Ready sys sh file)
    (hu : ¬ k.Undone sys read b sh argv dir file) :
    Restored os sys (k.tracer sys read) b sh argv dir ↔
      k.LeavesNothing sys read b sh argv dir file := by
  have hcreates := creates_iff read argv hk h hr
  have hend := endShell_not_undone os hex hk h hr hu
  constructor
  · rintro ⟨hsame, hgone⟩
    have hst := hgone hex file ((hcreates file).mpr rfl)
    rw [hend] at hst
    refine ⟨hr, Or.inl hst, ?_⟩
    rintro rfl
    refine Or.inr ⟨hu, fun x hx => ?_⟩
    rw [← hsame x.1 (setNames_eq _ _ ▸ List.mem_map_of_mem hx), hend]
    exact left_preload_env hx
  · rintro ⟨-, hgone, hvars⟩
    refine ⟨fun name hname => ?_, fun _ f hf => ?_⟩
    · by_cases hp : k = .preload
      · subst hp
        obtain ⟨-, hset⟩ := (hvars rfl).resolve_left fun hn => hu hn.1
        rw [← setNames_eq (library sh) file] at hname
        obtain ⟨x, hx, rfl⟩ := List.mem_map.mp hname
        rw [hend, left_preload_env hx, hset x hx]
      · exact endShell_env os (fun he => absurd he hp) b sh argv dir
    · rw [(hcreates f).mp hf, hend]
      exact hgone.resolve_right fun hn => hu hn.1

/-- One call whose trace file has been created. -/
theorem restored_created_iff :
    Restored os sys (k.tracer sys read) b sh argv dir ↔
      k.LeavesNothing sys read b sh argv dir file := by
  by_cases hr : k.Ready sys sh file
  · by_cases hu : k.Undone sys read b sh argv dir file
    · exact restored_undone_iff os hex hk h hr hu
    · exact restored_not_undone_iff os hex hk h hr hu
  · obtain ⟨e, sh', hstart, htemps⟩ := start_not_ready read argv hk h hr
    refine iff_of_false (fun hres => ?_) fun hleaves => hr hleaves.ready
    have hcreates : Creates (k.tracer sys read) sh argv file := by
      unfold Creates shellBefore
      rw [hstart]
      refine ⟨sys.tmpname_new _ _ h, ?_⟩
      change sh'.temps file ≠ _
      rw [htemps, Shell.create_self]
      decide
    have hgone := hres.temps hex file hcreates
    rw [endShell_start_error hex hstart, htemps, Shell.create_self] at hgone
    cases hgone

end Created

theorem restored_of_leavesNothing (b : Session σ) (dir : Option LuaString)
    (hleaves : ∀ file, Executed os b argv dir → k.creates = true →
      sys.tmpname sh.temps = .ok file → k.LeavesNothing sys read b sh argv dir file) :
    Restored os sys (k.tracer sys read) b sh argv dir := by
  cases htmp : sys.tmpname sh.temps with
  | error e => exact restored_of_not_created os b dir fun _ _ => ⟨e, htmp⟩
  | ok file =>
      by_cases hc : Executed os b argv dir ∧ k.creates = true
      · exact (restored_created_iff os hc.1 hc.2 htmp).mpr (hleaves file hc.1 hc.2 htmp)
      · exact restored_of_not_created os b dir fun hex hk => absurd ⟨hex, hk⟩ hc

end

/-- Calls of `make.run`, one after the other; a script can go on after an error. -/
def runAll (k : Kind) : Session σ → Shell → List (List LuaString × Option LuaString) →
    Session σ × Shell
  | b, sh, [] => (b, sh)
  | b, sh, (argv, dir) :: calls =>
      let (b', _, sh') := makeRunIn os sys (k.tracer sys read) b sh argv dir
      runAll k b' sh' calls

/-- Every call of a run is one that leaves nothing behind. -/
def AllLeaveNothing (k : Kind) : Session σ → Shell → List (List LuaString × Option LuaString) →
    Prop
  | _, _, [] => True
  | b, sh, (argv, dir) :: calls =>
      (∀ file, Executed os b argv dir → k.creates = true → sys.tmpname sh.temps = .ok file →
        k.LeavesNothing sys read b sh argv dir file) ∧
      AllLeaveNothing k (makeRunIn os sys (k.tracer sys read) b sh argv dir).1
        (endShell os sys (k.tracer sys read) b sh argv dir) calls

/-- Over a whole run. -/
theorem runAll_env (k : Kind) {calls : List (List LuaString × Option LuaString)} {b : Session σ}
    {sh : Shell} (h : AllLeaveNothing os sys read k b sh calls) (name : LuaString) :
    (runAll os sys read k b sh calls).2.env name = sh.env name := by
  induction calls generalizing b sh with
  | nil => rfl
  | cons call calls ih =>
      obtain ⟨argv, dir⟩ := call
      refine (ih h.2).trans ?_
      by_cases hname : name ∈ setNames
      · exact (restored_of_leavesNothing os b dir h.1).env name hname
      · exact endShell_env os (fun _ => hname) b sh argv dir

/-- **After which calls of `make.run` the variables and the trace file are as before.** -/
theorem restored_iff (k : Kind) (b : Session σ) (sh : Shell) (argv : List LuaString)
    (dir : Option LuaString) :
    Restored os sys (k.tracer sys read) b sh argv dir ↔
      ∀ file, Executed os b argv dir → k.creates = true → sys.tmpname sh.temps = .ok file →
        k.LeavesNothing sys read b sh argv dir file := by
  constructor
  · exact fun hres file hex hk h => (restored_created_iff os hex hk h).mp hres
  · exact restored_of_leavesNothing os b dir

end Kinds

/-- Two tracers that execute the same command and report the same lead to the same call. -/
theorem makeRun_congr {σ L D₁ D₂ : Type} {os : Os σ L} {h₁ : ExecHandler D₁ L}
    {h₂ : ExecHandler D₂ L} {argv argv' : List LuaString} {d₁ : D₁} {d₂ : D₂}
    {post₁ : Option D₁ → LuaString → L → Except LuaError Report}
    {post₂ : Option D₂ → LuaString → L → Except LuaError Report} {dir : Option LuaString}
    (hstart₁ : ExecHandler.start (some h₁) argv = .ok (argv', some d₁))
    (hstart₂ : ExecHandler.start (some h₂) argv = .ok (argv', some d₂))
    (hpost₁ : h₁.postProcess = some post₁) (hpost₂ : h₂.postProcess = some post₂)
    (hpost : ∀ log, post₁ (some d₁) (dir.getD ['.']) log = post₂ (some d₂) (dir.getD ['.']) log)
    (b : Session σ) :
    makeRun os (some h₁) b argv dir = makeRun os (some h₂) b argv dir := by
  unfold makeRun
  simp only [hstart₁, hstart₂, Option.bind_some, hpost₁, hpost₂, hpost]

/-- With the trace file there, `post_process` returns what its log amounts to. -/
theorem preload_post {L : Type} (sys : System σ L)
    (read : Option LuaString → LuaString → L → Except LuaError Report) {sh : Shell}
    {data : PreloadData} (h : sh.temps data.file ≠ .absent) (dir : LuaString) (log : L) :
    toExcept ((preload sys read).postProcess data dir log sh) = read (some data.exec) dir log := by
  refine (congrArg toExcept (bind_ok (lines_ok h))).trans ?_
  cases read (some data.exec) dir log with
  | error e => exact congrArg toExcept (bind_error rfl)
  | ok report => exact congrArg toExcept (bind_ok rfl)

/-- **The library in a shell.** Where `pre_process` gets through and the process leaves the trace file
    there, a call does what `makeRun` does with `preloadHandler`. -/
theorem makeRunIn_preload {σ : Type} (os : Os σ (List Preload.Line))
    (sys : System σ (List Preload.Line)) (ape : Ape) (depth : Nat) {b : Session σ} {sh : Shell}
    {argv : List LuaString} {dir : Option LuaString} {file : LuaString}
    (h : sys.tmpname sh.temps = .ok file) (hr : Kind.Ready sys .preload sh file)
    (hfile : (Kind.left sys .preload b sh argv dir file).temps file ≠ .absent) :
    ((makeRunIn os sys (Kind.tracer sys (preloadRead ape depth) .preload) b sh argv dir).1,
      (makeRunIn os sys (Kind.tracer sys (preloadRead ape depth) .preload) b sh argv dir).2.1) =
      makeRun (sys.at os (Kind.setUp .preload sh file)) (some (preloadHandler ape depth))
        b argv dir := by
  have hpre := preload_ready (preloadRead ape depth) argv h hr
  have hafter : shellAfter sys (some (preload sys (preloadRead ape depth))) b.files sh argv dir =
      Kind.left sys .preload b sh argv dir file := by
    unfold shellAfter Kind.left Kind.ended
    rw [start_ok hpre]
    dsimp only [Kind.argv]
  have hbefore : shellBefore (some (preload sys (preloadRead ape depth))) sh argv =
      Kind.setUp .preload sh file := by
    unfold shellBefore
    rw [start_ok hpre, shellOf]
  refine (makeRunIn_forget os sys _ b sh argv dir).trans ?_
  change makeRun (sys.at os (shellBefore (some (preload sys (preloadRead ape depth))) sh argv))
    (some ((preload sys (preloadRead ape depth)).handlerAt sh (shellAfter sys
      (some (preload sys (preloadRead ape depth))) b.files sh argv dir))) b argv dir = _
  rw [hafter, hbefore]
  have hstart : ExecHandler.start (some ((preload sys (preloadRead ape depth)).handlerAt sh
      (Kind.left sys .preload b sh argv dir file))) argv =
      .ok (argv, some ⟨file, argv.head?.getD []⟩) := by
    simp only [ExecHandler.start, Option.bind_some, Tracer.handlerAt, hpre, toExcept]
  have hstart' : ExecHandler.start (some (preloadHandler ape depth)) argv =
      .ok (argv, some (argv.head?.getD [])) := rfl
  exact makeRun_congr hstart hstart' rfl rfl
    (preload_post sys (preloadRead ape depth) hfile (dir.getD ['.'])) b

/-! ## A program that fails -/

def traceFile : LuaString := "/tmp/lua_1".toList

def falseOs : Os Unit (List Preload.Line) where
  dirsep := '/'
  hash _ _ := "absent".toList
  checkString _ := .error (.message "bad argument #1 to 'hash_file' (string expected)".toList)
  exec _ _ _ := .exited () ['1']
  remove _ _ := none
  dirRemove _ _ := none

/-- Every process ends with exit status 1, and leaves the temporary files alone. -/
def falseSystem : System Unit (List Preload.Line) where
  tmpname t :=
    if t traceFile = .absent then .ok traceFile
    else .error (.message "unable to generate a unique filename".toList)
  tmpname_new t file h := by
    by_cases ht : t traceFile = .absent
    · rw [if_pos ht] at h
      cases h
      exact ht
    · rw [if_neg ht] at h
      cases h
  setFails _ _ := none
  exec _ _ sh _ := (.exited () ['1'], sh.temps)
  kdump log := log.getD []
  inTempDir name := name
  glob _ _ := []

def falseShell : Shell where
  env name :=
    if name = "BUILDSH_PRELOAD".toList then some "/usr/lib/buildsh-preload.so".toList else none
  temps _ := .absent

/-- **After `false`, the variables are not as before.** -/
theorem not_restored_false :
    ¬ Restored falseOs falseSystem (Kind.preload.tracer falseSystem
      (preloadRead (Apr.unixApe ['/']) 1)) ⟨(), ∅, false⟩ falseShell ["false".toList] none := by
  intro h
  have hset := h.env "LD_PRELOAD".toList (by decide +kernel)
  revert hset
  decide +kernel

end Buildsh.Environment
