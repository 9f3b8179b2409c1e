/-
  `build.lua`: the dependency table, and what `make.run` and `make.autoclean` do with it.

  The operating system is a parameter (`Os`): it hashes files, runs processes and removes files.
  A tracer (`ExecHandler`) turns the log of a process into a report; the reports of the modelled
  back ends mark every key with `true` (`Report`). `dependencies` holds whatever a file
  `.deps.lua` can hold, so a record may lack its tables, and a hash may be any value.

  `checkDeps_false_iff` says when `check_deps` finds a record up to date, and `checkDeps_held`,
  `lookup_record_input`, `lookup_record_output` which hashes a run leaves in its record: an input
  keeps the hash that `check_deps` has left for it (`heldHash`), and everything else is hashed
  after the run.
-/
import Mathlib
import Buildsh.Preload
import Buildsh.Commands

namespace Buildsh.Build
open Buildsh.Generic Buildsh.Base Buildsh.Trace Buildsh.Commands

/-! ## Reports -/

/-- Every entry is `true`. -/
def Marks (t : Table LuaString) : Prop := ∀ k v, t.lookup k = some v → v = .bool true

/-- What a tracer hands to `finish`. -/
structure Report where
  td : TempDeps
  input_marks : Marks td.input
  output_marks : Marks td.output

theorem marks_empty : Marks ∅ := fun k v h => by simp at h

theorem marks_insert {t : Table LuaString} (h : Marks t) (k : LuaString) :
    Marks (t.insert k (.bool true)) := by
  intro k' v hv
  by_cases hk : k' = k
  · subst hk
    rw [AList.lookup_insert] at hv
    exact (Option.some.inj hv).symm
  · rw [AList.lookup_insert_ne hk] at hv
    exact h k' v hv

theorem marks_erase {t : Table LuaString} (h : Marks t) (k : LuaString) : Marks (t.erase k) := by
  intro k' v hv
  by_cases hk : k' = k
  · subst hk
    rw [AList.lookup_erase] at hv
    cases hv
  · rw [AList.lookup_erase_ne hk] at hv
    exact h k' v hv

/-- Both tables of a trace. -/
def MarksOnly (td : TempDeps) : Prop := Marks td.input ∧ Marks td.output

theorem marksOnly_setInput {td : TempDeps} (h : MarksOnly td) (k : LuaString) :
    MarksOnly (td.setInput k) := by
  unfold TempDeps.setInput
  split
  · exact h
  · exact ⟨marks_insert h.1 k, h.2⟩

theorem marksOnly_touch {td : TempDeps} (h : MarksOnly td) (t : Touch) :
    MarksOnly (touch td t) := by
  cases t with
  | nothing => exact h
  | read p => exact marksOnly_setInput h p
  | write p => exact ⟨h.1, marks_insert h.2 p⟩
  | move src dst =>
      cases src with
      | none =>
          cases dst with
          | none => exact h
          | some t => exact ⟨h.1, marks_insert h.2 t⟩
      | some f =>
          have hsrc : MarksOnly (td.setInput f) := marksOnly_setInput h f
          cases dst with
          | none => exact hsrc
          | some t => exact ⟨hsrc.1, marks_insert (marks_erase hsrc.2 f) t⟩

/-- The handlers store nothing but `true`. -/
theorem marksOnly_body (ape : Ape) : BodyKeeps (machine ape) fun w => MarksOnly w.td := by
  intro w w' p e hw hb
  change body ape w p e = .ok w' at hb
  cases hpd : w.pd p with
  | none => rw [body_none hpd hb]; exact hw
  | some d =>
      rw [eq_after_of_body_ok hpd hb, after_td]
      exact marksOnly_touch hw _

/-! ## The operating system and the tracer -/

/-- What became of a process. -/
inductive Outcome (σ L : Type) where
  /-- the process could not be set up or created -/
  | notCreated (msg : LuaString)
  /-- an exit status other than 0 -/
  | exited (files : σ) (code : LuaString)
  | signalled (files : σ) (signal : LuaString)
  | waitFailed (files : σ) (msg : LuaString)
  /-- exit status 0, with the log that the tracer left -/
  | succeeded (files : σ) (log : L)

/-- The files after the process. -/
def Outcome.files {σ L : Type} (before : σ) : Outcome σ L → σ
  | .notCreated _ => before
  | .exited s _ | .signalled s _ | .waitFailed s _ | .succeeded s _ => s

/-- What `make.run` makes of the end of program `p`: an error, or the log. -/
def Outcome.result {σ L : Type} (p : LuaString) : Outcome σ L → Except LuaError L
  | .notCreated msg => .error (.message ("exec'".toList ++ p ++ "' = ".toList ++ msg))
  | .exited _ code =>
      .error (.message ("program `".toList ++ p ++ "' exited with status code ".toList ++ code))
  | .signalled _ code =>
      .error (.message ("program `".toList ++ p ++ "' died from signal ".toList ++ code))
  | .waitFailed _ etype => .error (.message ("exec'".toList ++ p ++ "' = ".toList ++ etype))
  | .succeeded _ log => .ok log

/-- The operating system, with `σ` for the files and `L` for the log of a process. -/
structure Os (σ L : Type) where
  /-- the first character of `package.config` -/
  dirsep : Char
  /-- the digest that `hash_file` returns, or its message where a file cannot be hashed -/
  hash : σ → LuaString → LuaString
  /-- what a C function makes of an argument that is no string but has to be one -/
  checkString : Value → Except LuaError LuaString
  /-- a process with these arguments in this directory, from creation to `wait` -/
  exec : List LuaString → Option LuaString → σ → Outcome σ L
  /-- `os.remove` and `ape.dir_remove`, if they succeed -/
  remove : LuaString → σ → Option σ
  dirRemove : LuaString → σ → Option σ

/-- `exec_handler`, with `D` for the data that `pre_process` keeps for `post_process`. The call of
    `finish` at the end of `post_process` is left to `makeRun`. -/
structure ExecHandler (D L : Type) where
  preProcess : Option (List LuaString → Except LuaError (List LuaString × D))
  postProcess : Option (Option D → LuaString → L → Except LuaError Report)

/-- The world a log of the preloaded library leads to holds marks only. -/
theorem marksOnly_postProcess {ape : Ape} {depth : Nat} {dir firstExec : LuaString}
    {lines : List Preload.Line} {s : Preload.TraceState}
    (h : Preload.postProcess ape depth dir firstExec lines = .ok s) : MarksOnly s.world.td := by
  have hkeeps := checked_keepsWorld (marksOnly_body ape) depth
  have hlines : ∀ (lines : List Preload.Line) (first : Option LuaString)
      (s s' : Preload.TraceState), MarksOnly s.world.td →
      Preload.readLines ape depth dir first s lines = .ok s' → MarksOnly s'.world.td := by
    intro lines
    induction lines with
    | nil => intro first s s' hs h; cases h; exact hs
    | cons l lines ih =>
        intro first s s' hs h
        rw [Preload.readLines] at h
        cases h₁ : Preload.beginWith ape depth dir s first l.pid with
        | error err => rw [h₁] at h; cases h
        | ok s₁ =>
            have hs₁ : MarksOnly s₁.world.td := by
              unfold Preload.beginWith at h₁
              split at h₁
              · cases h₁; exact hs
              · split at h₁
                · cases h₁
                · exact hkeeps (Preload.register s _ dir) _ _ _ hs h₁
            rw [h₁] at h
            dsimp only at h
            cases h₂ : Preload.handleLine ape depth s₁ l with
            | error err => rw [h₂] at h; cases h
            | ok s₂ =>
                rw [h₂] at h
                refine ih none s₂ s' ?_ h
                cases l with
                | event pid e => exact hkeeps _ _ _ _ hs₁ h₂
                | garbled => cases h₂; exact hs₁
                | ignored pid => cases h₂; exact hs₁
  exact hlines lines _ _ _ ⟨marks_empty, marks_empty⟩ h

/-- The back end of `preload.lua`: the data is the program of the first `exec`. -/
def preloadHandler (ape : Ape) (depth : Nat) : ExecHandler LuaString (List Preload.Line) where
  preProcess := some fun argv => .ok (argv, argv.head?.getD [])
  postProcess := some fun data dir lines =>
    match data with
    | none => .error .indexNil
    | some firstExec =>
        match h : Preload.postProcess ape depth dir firstExec lines with
        | .error (.raised e) => .error e
        | .error .overflow => .error (.message "stack overflow".toList)
        | .ok s => .ok ⟨s.world.td, (marksOnly_postProcess h).1, (marksOnly_postProcess h).2⟩

/-! ## The dependency table -/

/-- File names and their hashes. -/
abbrev Io := Table Value

/-- What is stored under a command. A field that is no table counts like one that is missing. -/
inductive Entry where
  | table (input output : Option Io)
  | other (v : Value)

abbrev DepsTable := AList (fun _ : Value => Entry)

structure Deps where
  input : Io
  output : Io

section Hashes

variable (hashFile : Value → Except LuaError LuaString)

/-- The loop of `update_deps_io`, with the pairs still to come, `deps_io` and `differ`. -/
def updateLoop (onlynew stop : Bool) :
    List (Sigma fun _ : Value => Value) → Io → Bool → Except LuaError (Io × Bool)
  | [], io, differ => .ok (io, differ)
  | ⟨fn, ohash⟩ :: l, io, differ =>
      if !onlynew || !ohash.isString then
        match hashFile fn with
        | .error e => .error e
        | .ok nhash =>
            let io := io.insert fn (.str nhash)
            if ohash ≠ .str nhash then
              if stop then .ok (io, true) else updateLoop onlynew stop l io true
            else updateLoop onlynew stop l io differ
      else updateLoop onlynew stop l io differ

def updateDepsIo (io : Io) (onlynew stop : Bool) : Except LuaError (Io × Bool) :=
  updateLoop hashFile onlynew stop io.entries io false

/-- The copy of the record that is returned is the only one that `update_deps_io` changes. -/
def checkDeps (depstable : DepsTable) (cmd : LuaString) : Except LuaError (Deps × Bool) :=
  let (input, output, runIt) := match depstable.lookup (.str cmd) with
    | some (.table input output) => (input, output, false)
    | _ => (some ∅, some ∅, true)
  let (input, runIt) := match input with
    | some input => (input, runIt)
    | none => (∅, true)
  let (output, runIt) := match output with
    | some output => (output, runIt)
    | none => (∅, true)
  let runIt := runIt || (input.entries.isEmpty && output.entries.isEmpty)
  if runIt then .ok (⟨input, output⟩, true)
  else
    match updateDepsIo hashFile input false false with
    | .error e => .error e
    | .ok (input, true) => .ok (⟨input, output⟩, true)
    | .ok (input, false) =>
        match updateDepsIo hashFile output false true with
        | .error e => .error e
        | .ok (output, runIt) => .ok (⟨input, output⟩, runIt)

def finish (deps : Deps) (td : TempDeps) : Deps :=
  ⟨finishInput deps.input td.input.ofStrings, td.output.ofStrings⟩

/-- What `make.run` does with a report before it stores the record. -/
def record (deps : Deps) (td : TempDeps) : Except LuaError Deps :=
  let deps := finish deps td
  match updateDepsIo hashFile deps.input true false with
  | .error e => .error e
  | .ok (input, _) =>
      match updateDepsIo hashFile deps.output false false with
      | .error e => .error e
      | .ok (output, _) => .ok ⟨input, output⟩

end Hashes

/-! ## Running commands -/

/-- The files, and the state of `build.lua`. -/
structure Session (σ : Type) where
  files : σ
  dependencies : DepsTable
  dontSave : Bool

/-- How a call of `make.run` ends. -/
inductive RunResult where
  /-- without executing the command -/
  | skipped
  | done
  | raised (e : LuaError)

section Run

variable {σ D L : Type} (os : Os σ L)

def Os.hashFile (s : σ) : Value → Except LuaError LuaString
  | .str name => .ok (os.hash s name)
  | v =>
      match os.checkString v with
      | .error e => .error e
      | .ok name => .ok (os.hash s name)

@[simp] theorem hashFile_str (s : σ) (name : LuaString) :
    os.hashFile s (.str name) = .ok (os.hash s name) := rfl

/-- `pre_process`, which may change the arguments. -/
def ExecHandler.start (handler : Option (ExecHandler D L)) (argv : List LuaString) :
    Except LuaError (List LuaString × Option D) :=
  match handler.bind (·.preProcess) with
  | none => .ok (argv, none)
  | some pre =>
      match pre argv with
      | .error e => .error e
      | .ok (argv, data) => .ok (argv, some data)

/-- `make.run`, for the arguments with the program in front. -/
def makeRun (handler : Option (ExecHandler D L)) (b : Session σ) (argv : List LuaString)
    (dir : Option LuaString) : Session σ × RunResult :=
  let sargv := argv2cmd os.dirsep argv dir
  match checkDeps (os.hashFile b.files) b.dependencies sargv with
  | .error e => (b, .raised e)
  | .ok (_, false) => (b, .skipped)
  | .ok (deps, true) =>
      let b := { b with dontSave := false }
      match ExecHandler.start handler argv with
      | .error e => (b, .raised e)
      | .ok (argv, data) =>
          let outcome := os.exec argv dir b.files
          let b := { b with files := outcome.files b.files }
          match outcome.result (argv.head?.getD []) with
          | .error e => (b, .raised e)
          | .ok log =>
              match handler.bind (·.postProcess) with
              | none => (b, .done)
              | some post =>
                  match post data (dir.getD ['.']) log with
                  | .error e => (b, .raised e)
                  | .ok report =>
                      match record (os.hashFile b.files) deps report.td with
                      | .error e => (b, .raised e)
                      | .ok deps =>
                          ({ b with
                            dependencies := b.dependencies.insert (.str sargv)
                              (.table (some deps.input) (some deps.output)) }, .done)

/-- `type( o ) == "string"` -/
def asString : Value → Option LuaString
  | .str s => some s
  | _ => none

/-- The outputs of all commands, last names first. -/
def collectOutputs (deps : DepsTable) : List LuaString :=
  (deps.entries.flatMap fun x =>
    match x.2 with
    | .table _ (some output) => output.keys.filterMap asString
    | _ => []).mergeSort fun a b => decide (b ≤ a)

/-- What cannot be removed stays. -/
def Os.delete (s : σ) (f : LuaString) : σ :=
  match os.remove f s with
  | some s => s
  | none => (os.dirRemove f s).getD s

def autoclean (b : Session σ) : Session σ where
  files := (collectOutputs b.dependencies ++ [".deps.lua".toList]).foldl os.delete b.files
  dependencies := ∅
  dontSave := true

end Run

/-! ## Rehashing -/

section Rehash

variable {hashFile : Value → Except LuaError LuaString}

/-- Every file has the hash that the table has for it. -/
def Current (hashFile : Value → Except LuaError LuaString) (io : Io) : Prop :=
  ∀ fn v, io.lookup fn = some v → ∃ h, hashFile fn = .ok h ∧ v = .str h

theorem updateLoop_false_iff {stop : Bool} {l : List (Sigma fun _ : Value => Value)} {io : Io}
    {differ : Bool} :
    (∃ io', updateLoop hashFile false stop l io differ = .ok (io', false)) ↔
      differ = false ∧ ∀ x ∈ l, ∃ h, hashFile x.1 = .ok h ∧ x.2 = .str h := by
  induction l generalizing io differ with
  | nil => simp [updateLoop]
  | cons x l ih =>
      obtain ⟨fn, ohash⟩ := x
      rw [List.forall_mem_cons, updateLoop]
      simp only [Bool.not_false, Bool.true_or, if_true]
      cases hh : hashFile fn with
      | error e => simp
      | ok nhash =>
          dsimp only
          by_cases heq : ohash = .str nhash
          · rw [if_neg (not_not.mpr heq), ih]
            simp [heq]
          · rw [if_pos heq]
            cases stop with
            | true => simp [heq]
            | false =>
                rw [if_neg (by decide), ih]
                simp [heq]

/-- `update_deps_io` finds no difference exactly when every hash is current. -/
theorem updateDepsIo_false_iff {stop : Bool} {io : Io} :
    (∃ io', updateDepsIo hashFile io false stop = .ok (io', false)) ↔ Current hashFile io := by
  unfold updateDepsIo
  rw [updateLoop_false_iff]
  constructor
  · rintro ⟨-, h⟩ fn v hv
    exact h ⟨fn, v⟩ (AList.mem_lookup_iff.mp hv)
  · exact fun h => ⟨rfl, fun x hx => h x.1 x.2 (AList.mem_lookup_iff.mpr hx)⟩

/-- Is this value hashed again? -/
def rehashed (onlynew : Bool) (v : Value) : Bool := !onlynew || !v.isString

theorem updateLoop_lookup {onlynew : Bool} {l : List (Sigma fun _ : Value => Value)}
    {io io' : Io} {differ differ' : Bool} (hnodup : l.NodupKeys)
    (h : updateLoop hashFile onlynew false l io differ = .ok (io', differ')) :
    (∀ fn, fn ∉ l.keys → io'.lookup fn = io.lookup fn) ∧
      ∀ x ∈ l, if rehashed onlynew x.2 then
          ∃ nhash, hashFile x.1 = .ok nhash ∧ io'.lookup x.1 = some (.str nhash)
        else io'.lookup x.1 = io.lookup x.1 := by
  induction l generalizing io differ with
  | nil =>
      cases h
      exact ⟨fun _ _ => rfl, fun x hx => absurd hx List.not_mem_nil⟩
  | cons x l ih =>
      obtain ⟨fn, ohash⟩ := x
      rw [List.nodupKeys_cons] at hnodup
      obtain ⟨hfn, hnodup⟩ := hnodup
      rw [updateLoop] at h
      rw [List.forall_mem_cons]
      by_cases hre : rehashed onlynew ohash = true
      · rw [if_pos hre]
        rw [rehashed] at hre
        rw [if_pos hre] at h
        cases hh : hashFile fn with
        | error e => rw [hh] at h; cases h
        | ok nhash =>
            rw [hh] at h
            dsimp only at h
            -- with a difference or without one, the loop goes on with the new table
            have hrec : ∃ differ, updateLoop hashFile onlynew false l
                (io.insert fn (.str nhash)) differ = .ok (io', differ') := by
              split at h
              · exact ⟨_, h⟩
              · exact ⟨_, h⟩
            obtain ⟨_, hrec⟩ := hrec
            obtain ⟨hout, hin⟩ := ih hnodup hrec
            refine ⟨fun fn' hfn' => ?_, ⟨nhash, rfl, ?_⟩, fun y hy => ?_⟩
            · rw [List.keys_cons, List.mem_cons, not_or] at hfn'
              rw [hout fn' hfn'.2, AList.lookup_insert_ne hfn'.1]
            · rw [hout fn hfn, AList.lookup_insert]
            · have hy' := hin y hy
              have hkey : y.1 ∈ l.keys := List.mem_keys_of_mem hy
              have hne : y.1 ≠ fn := fun he => hfn (he ▸ hkey)
              rw [AList.lookup_insert_ne hne] at hy'
              exact hy'
      · rw [if_neg hre]
        rw [rehashed] at hre
        rw [if_neg hre] at h
        obtain ⟨hout, hin⟩ := ih hnodup h
        refine ⟨fun fn' hfn' => ?_, hout fn hfn, hin⟩
        rw [List.keys_cons, List.mem_cons, not_or] at hfn'
        exact hout fn' hfn'.2

/-- **What `update_deps_io` leaves.** -/
theorem updateDepsIo_lookup {onlynew : Bool} {io io' : Io} {differ : Bool}
    (h : updateDepsIo hashFile io onlynew false = .ok (io', differ)) (fn : Value) :
    (io.lookup fn = none → io'.lookup fn = none) ∧
      ∀ v, io.lookup fn = some v → if rehashed onlynew v then
          ∃ nhash, hashFile fn = .ok nhash ∧ io'.lookup fn = some (.str nhash)
        else io'.lookup fn = some v := by
  obtain ⟨hout, hin⟩ := updateLoop_lookup io.nodupKeys h
  constructor
  · intro hnone
    rw [hout fn (fun hk => AList.lookup_eq_none.mp hnone (AList.mem_keys.mpr hk)), hnone]
  · intro v hv
    have hx := hin ⟨fn, v⟩ (AList.mem_lookup_iff.mp hv)
    rw [hv] at hx
    exact hx

end Rehash

/-! ## Checking a record -/

section Check

variable {hashFile : Value → Except LuaError LuaString} {depstable : DepsTable} {cmd : LuaString}

theorem isEmpty_entries (io : Io) : io.entries.isEmpty = true ↔ io = ∅ := by
  rw [List.isEmpty_iff]
  exact ⟨fun h => AList.ext h, fun h => h ▸ rfl⟩

/-- Nothing recorded. -/
theorem checkDeps_none (h : ∀ input output, depstable.lookup (.str cmd) ≠
    some (.table input output)) : checkDeps hashFile depstable cmd = .ok (⟨∅, ∅⟩, true) := by
  unfold checkDeps
  cases hl : depstable.lookup (.str cmd) with
  | none => rfl
  | some e =>
      cases e with
      | other v => rfl
      | table input output => exact absurd hl (h input output)

/-- A record without inputs. -/
theorem checkDeps_no_input {output : Option Io}
    (h : depstable.lookup (.str cmd) = some (.table none output)) :
    checkDeps hashFile depstable cmd = .ok (⟨∅, output.getD ∅⟩, true) := by
  unfold checkDeps
  rw [h]
  cases output <;> rfl

/-- A record without outputs. -/
theorem checkDeps_no_output {input : Io}
    (h : depstable.lookup (.str cmd) = some (.table (some input) none)) :
    checkDeps hashFile depstable cmd = .ok (⟨input, ∅⟩, true) := by
  unfold checkDeps
  rw [h]
  rfl

/-- A record with both tables empty. -/
theorem checkDeps_empty (h : depstable.lookup (.str cmd) = some (.table (some ∅) (some ∅))) :
    checkDeps hashFile depstable cmd = .ok (⟨∅, ∅⟩, true) := by
  unfold checkDeps
  rw [h]
  rfl

/-- Any other record. -/
theorem checkDeps_table {input output : Io}
    (h : depstable.lookup (.str cmd) = some (.table (some input) (some output)))
    (hne : input ≠ ∅ ∨ output ≠ ∅) :
    checkDeps hashFile depstable cmd =
      match updateDepsIo hashFile input false false with
      | .error e => .error e
      | .ok (input, true) => .ok (⟨input, output⟩, true)
      | .ok (input, false) =>
          match updateDepsIo hashFile output false true with
          | .error e => .error e
          | .ok (output, runIt) => .ok (⟨input, output⟩, runIt) := by
  have hempty : (input.entries.isEmpty && output.entries.isEmpty) = false := by
    rw [Bool.and_eq_false_iff]
    rcases hne with hne | hne
    · exact Or.inl (Bool.eq_false_iff.mpr fun he => hne ((isEmpty_entries input).mp he))
    · exact Or.inr (Bool.eq_false_iff.mpr fun he => hne ((isEmpty_entries output).mp he))
  unfold checkDeps
  rw [h]
  dsimp only
  rw [hempty]
  rfl

/-- The rehashes of such a record: the outputs follow if the inputs are current. -/
theorem checkDeps_table_ok {input output : Io} {deps : Deps} {runIt : Bool}
    (hl : depstable.lookup (.str cmd) = some (.table (some input) (some output)))
    (hne : input ≠ ∅ ∨ output ≠ ∅) (h : checkDeps hashFile depstable cmd = .ok (deps, runIt)) :
    ∃ differ, updateDepsIo hashFile input false false = .ok (deps.input, differ) ∧
      (runIt = false → differ = false ∧
        ∃ output', updateDepsIo hashFile output false true = .ok (output', false)) := by
  rw [checkDeps_table hl hne] at h
  cases hin : updateDepsIo hashFile input false false with
  | error e => rw [hin] at h; cases h
  | ok r =>
      obtain ⟨input', differ⟩ := r
      rw [hin] at h
      cases differ with
      | true =>
          cases h
          exact ⟨true, rfl, fun hf => by cases hf⟩
      | false =>
          dsimp only at h
          cases hout : updateDepsIo hashFile output false true with
          | error e => rw [hout] at h; cases h
          | ok r =>
              rw [hout] at h
              cases h
              exact ⟨false, rfl, fun hf => ⟨rfl, r.1, by rw [← hf]⟩⟩

/-- What can be stored under a command. -/
theorem record_cases (depstable : DepsTable) (cmd : LuaString) :
    (∀ input output, depstable.lookup (.str cmd) ≠ some (.table input output)) ∨
      (∃ output, depstable.lookup (.str cmd) = some (.table none output)) ∨
      (∃ input, depstable.lookup (.str cmd) = some (.table (some input) none)) ∨
      depstable.lookup (.str cmd) = some (.table (some ∅) (some ∅)) ∨
      ∃ input output, depstable.lookup (.str cmd) = some (.table (some input) (some output)) ∧
        (input ≠ ∅ ∨ output ≠ ∅) := by
  cases hl : depstable.lookup (.str cmd) with
  | none => exact Or.inl fun _ _ h => by cases h
  | some e =>
      cases e with
      | other v => exact Or.inl fun _ _ h => by cases h
      | table input output =>
          right
          cases input with
          | none => exact Or.inl ⟨output, rfl⟩
          | some input =>
              right
              cases output with
              | none => exact Or.inl ⟨input, rfl⟩
              | some output =>
                  right
                  by_cases he : input = ∅ ∧ output = ∅
                  · exact Or.inl (by rw [he.1, he.2])
                  · exact Or.inr ⟨input, output, rfl, not_and_or.mp he⟩

/-- **When a command is not executed.** -/
theorem checkDeps_false_iff :
    (∃ deps, checkDeps hashFile depstable cmd = .ok (deps, false)) ↔
      ∃ input output, depstable.lookup (.str cmd) = some (.table (some input) (some output)) ∧
        (input ≠ ∅ ∨ output ≠ ∅) ∧ Current hashFile input ∧ Current hashFile output := by
  have hrun : ∀ {deps : Deps}, checkDeps hashFile depstable cmd = .ok (deps, true) →
      ¬ ∃ deps, checkDeps hashFile depstable cmd = .ok (deps, false) := by
    rintro deps h ⟨deps', h'⟩
    rw [h] at h'
    cases h'
  constructor
  · intro hskip
    rcases record_cases depstable cmd with
      hl | ⟨_, hl⟩ | ⟨_, hl⟩ | hl | ⟨input, output, hl, hne⟩
    · exact absurd hskip (hrun (checkDeps_none hl))
    · exact absurd hskip (hrun (checkDeps_no_input hl))
    · exact absurd hskip (hrun (checkDeps_no_output hl))
    · exact absurd hskip (hrun (checkDeps_empty hl))
    · obtain ⟨deps, hskip⟩ := hskip
      obtain ⟨differ, hin, hout⟩ := checkDeps_table_ok hl hne hskip
      obtain ⟨hdiffer, hcur⟩ := hout rfl
      exact ⟨input, output, hl, hne, updateDepsIo_false_iff.mp ⟨_, hdiffer ▸ hin⟩,
        updateDepsIo_false_iff.mp hcur⟩
  · rintro ⟨input, output, hl, hne, hin, hout⟩
    obtain ⟨input', hin⟩ : ∃ io', updateDepsIo hashFile input false false = .ok (io', false) :=
      updateDepsIo_false_iff.mpr hin
    obtain ⟨output', hout⟩ : ∃ io', updateDepsIo hashFile output false true = .ok (io', false) :=
      updateDepsIo_false_iff.mpr hout
    refine ⟨⟨input', output'⟩, ?_⟩
    rw [checkDeps_table hl hne, hin]
    dsimp only
    rw [hout]

/-- The hash of input `k` that a run keeps: the current one if the record is complete, else the
    one recorded. -/
def heldHash (hash : LuaString → LuaString) (e : Option Entry) (k : LuaString) :
    Option LuaString :=
  match e with
  | some (.table (some input) (some _)) => if .str k ∈ input then some (hash k) else none
  | some (.table (some input) none) => (input.lookup (.str k)).bind asString
  | _ => none

/-- **What `check_deps` leaves for an input.** -/
theorem checkDeps_held {hash : LuaString → LuaString}
    (hname : ∀ k, hashFile (.str k) = .ok (hash k)) {deps : Deps} {runIt : Bool}
    (h : checkDeps hashFile depstable cmd = .ok (deps, runIt)) (k : LuaString) :
    (deps.input.lookup (.str k)).bind asString =
      heldHash hash (depstable.lookup (.str cmd)) k := by
  rcases record_cases depstable cmd with
    hl | ⟨_, hl⟩ | ⟨input, hl⟩ | hl | ⟨input, output, hl, hne⟩
  · rw [checkDeps_none hl] at h
    cases h
    unfold heldHash
    split
    · exact absurd ‹_› (hl _ _)
    · exact absurd ‹_› (hl _ _)
    · rfl
  · rw [checkDeps_no_input hl] at h
    cases h
    rw [hl]
    rfl
  · rw [checkDeps_no_output hl] at h
    cases h
    rw [hl]
    rfl
  · rw [checkDeps_empty hl] at h
    cases h
    rw [hl]
    rfl
  · obtain ⟨_, hin, -⟩ := checkDeps_table_ok hl hne h
    obtain ⟨hnone, hsome⟩ := updateDepsIo_lookup hin (.str k)
    rw [hl]
    cases hk : input.lookup (.str k) with
    | none =>
        rw [hnone hk]
        exact (if_neg (AList.lookup_eq_none.mp hk)).symm
    | some v =>
        obtain ⟨nhash, hnh, hlook⟩ := hsome v hk
        have hmem : .str k ∈ input := AList.lookup_isSome.mp (by rw [hk]; rfl)
        rw [hname, Except.ok.injEq] at hnh
        rw [hlook, ← hnh]
        exact (if_pos hmem).symm

end Check

/-! ## Recording a report -/

section Record

variable {hashFile : Value → Except LuaError LuaString} {hash : LuaString → LuaString}
  {deps deps' : Deps} {td : TempDeps}

/-- An input keeps the hash it had in the record, if it had one. -/
theorem lookup_finish_input (deps : Deps) (hmarks : Marks td.input) (k : LuaString) :
    ((finish deps td).input.lookup (.str k)).bind asString =
      if k ∈ td.input then (deps.input.lookup (.str k)).bind asString else none := by
  unfold finish finishInput
  rw [Table.lookup_mapVals, Table.lookup_ofStrings]
  cases hk : td.input.lookup k with
  | none =>
      rw [if_neg (AList.lookup_eq_none.mp hk)]
      rfl
  | some v =>
      have hv := hmarks k v hk
      rw [if_pos (AList.lookup_isSome.mp (by rw [hk]; rfl)), hv]
      cases hd : deps.input.lookup (.str k) with
      | none => rfl
      | some h =>
          by_cases ht : truthy (some h) = true
          · simp [ht]
          · have hf : h = .bool false := by
              cases h with
              | bool b =>
                  cases b with
                  | true => exact absurd rfl ht
                  | false => rfl
              | str s => exact absurd rfl ht
              | other n => exact absurd rfl ht
            simp [hf, truthy, asString]

theorem mem_finish_input (deps : Deps) (td : TempDeps) (v : Value) :
    v ∈ (finish deps td).input ↔ v ∈ td.input.ofStrings := Table.mem_mapVals _ _ _

theorem mem_ofStrings (t : Table LuaString) (k : LuaString) : .str k ∈ t.ofStrings ↔ k ∈ t := by
  rw [← AList.lookup_isSome, ← AList.lookup_isSome, Table.lookup_ofStrings]

theorem rehashed_true (v : Value) : rehashed true v = (asString v).isNone := by
  cases v <;> rfl

/-- A successful rehash, name by name. -/
theorem updateDepsIo_names (hname : ∀ k, hashFile (.str k) = .ok (hash k)) {onlynew : Bool}
    {io io' : Io} {differ : Bool}
    (h : updateDepsIo hashFile io onlynew false = .ok (io', differ)) (k : LuaString) :
    io'.lookup (.str k) = (io.lookup (.str k)).map fun v =>
      if rehashed onlynew v then .str (hash k) else v := by
  obtain ⟨hnone, hsome⟩ := updateDepsIo_lookup h (.str k)
  cases hk : io.lookup (.str k) with
  | none => exact hnone hk
  | some v =>
      have hv := hsome v hk
      by_cases hre : rehashed onlynew v = true
      · rw [if_pos hre] at hv
        obtain ⟨nhash, hnh, hlook⟩ := hv
        rw [hname, Except.ok.injEq] at hnh
        rw [hlook, ← hnh, Option.map_some, if_pos hre]
      · rw [if_neg hre] at hv
        rw [hv, Option.map_some, if_neg hre]

theorem mem_of_updateDepsIo {onlynew : Bool} {io io' : Io} {differ : Bool}
    (h : updateDepsIo hashFile io onlynew false = .ok (io', differ)) {v : Value} (hv : v ∈ io') :
    v ∈ io := by
  by_contra hn
  have := (updateDepsIo_lookup h v).1 (AList.lookup_eq_none.mpr hn)
  exact AList.lookup_eq_none.mp this hv

/-- The two rehashes of a run. -/
theorem record_ok (h : record hashFile deps td = .ok deps') :
    (∃ differ, updateDepsIo hashFile (finish deps td).input true false =
        .ok (deps'.input, differ)) ∧
      ∃ differ, updateDepsIo hashFile (finish deps td).output false false =
        .ok (deps'.output, differ) := by
  unfold record at h
  cases hin : updateDepsIo hashFile (finish deps td).input true false with
  | error e => simp only [hin] at h; cases h
  | ok r =>
      simp only [hin] at h
      cases hout : updateDepsIo hashFile (finish deps td).output false false with
      | error e => rw [hout] at h; cases h
      | ok r' =>
          rw [hout] at h
          cases h
          exact ⟨⟨r.2, rfl⟩, r'.2, rfl⟩

/-- **The recorded inputs.** -/
theorem lookup_record_input (hname : ∀ k, hashFile (.str k) = .ok (hash k))
    (hmarks : Marks td.input) (h : record hashFile deps td = .ok deps') (k : LuaString) :
    deps'.input.lookup (.str k) =
      if k ∈ td.input then
        some (.str (((deps.input.lookup (.str k)).bind asString).getD (hash k)))
      else none := by
  obtain ⟨⟨_, hin⟩, -⟩ := record_ok h
  have hfin := lookup_finish_input deps hmarks k
  have hmem := mem_finish_input deps td (.str k)
  rw [mem_ofStrings] at hmem
  rw [updateDepsIo_names hname hin]
  cases hk : (finish deps td).input.lookup (.str k) with
  | none =>
      rw [if_neg fun hm => AList.lookup_eq_none.mp hk (hmem.mpr hm)]
      rfl
  | some v =>
      have hm : k ∈ td.input := hmem.mp (AList.lookup_isSome.mp (by rw [hk]; rfl))
      rw [hk, if_pos hm, Option.bind_some] at hfin
      rw [if_pos hm, ← hfin, Option.map_some, rehashed_true]
      cases v <;> rfl

/-- **The recorded outputs.** -/
theorem lookup_record_output (hname : ∀ k, hashFile (.str k) = .ok (hash k))
    (h : record hashFile deps td = .ok deps') (k : LuaString) :
    deps'.output.lookup (.str k) = if k ∈ td.output then some (.str (hash k)) else none := by
  obtain ⟨-, _, hout⟩ := record_ok h
  rw [updateDepsIo_names hname hout]
  change (td.output.ofStrings.lookup (.str k)).map _ = _
  rw [Table.lookup_ofStrings]
  cases hk : td.output.lookup k with
  | none =>
      rw [if_neg (AList.lookup_eq_none.mp hk)]
      rfl
  | some v =>
      rw [if_pos (AList.lookup_isSome.mp (by rw [hk]; rfl))]
      rfl

theorem mem_record_input (h : record hashFile deps td = .ok deps') {v : Value}
    (hv : v ∈ deps'.input) : ∃ k ∈ td.input, v = .str k := by
  obtain ⟨⟨_, hin⟩, -⟩ := record_ok h
  exact Table.exists_of_mem_ofStrings
    ((mem_finish_input deps td v).mp (mem_of_updateDepsIo hin hv))

theorem mem_record_output (h : record hashFile deps td = .ok deps') {v : Value}
    (hv : v ∈ deps'.output) : ∃ k ∈ td.output, v = .str k := by
  obtain ⟨-, _, hout⟩ := record_ok h
  exact Table.exists_of_mem_ofStrings (mem_of_updateDepsIo hout hv)

/-- When the record of a run is current. -/
theorem current_record_iff (hname : ∀ k, hashFile (.str k) = .ok (hash k))
    (hmarks : Marks td.input) (h : record hashFile deps td = .ok deps') :
    Current hashFile deps'.input ∧ Current hashFile deps'.output ↔
      ∀ k ∈ td.input, ∀ nhash, (deps.input.lookup (.str k)).bind asString = some nhash →
        nhash = hash k := by
  have hout : Current hashFile deps'.output := by
    intro v w hvw
    obtain ⟨k, hk, rfl⟩ := mem_record_output h (AList.lookup_isSome.mp (by rw [hvw]; rfl))
    rw [lookup_record_output hname h, if_pos hk] at hvw
    exact ⟨hash k, hname k, (Option.some.inj hvw).symm⟩
  constructor
  · rintro ⟨hin, -⟩ k hk nhash hheld
    have hlook := lookup_record_input hname hmarks h k
    rw [if_pos hk, hheld] at hlook
    obtain ⟨h', hh', heq⟩ := hin _ _ hlook
    rw [hname, Except.ok.injEq] at hh'
    rw [hh']
    exact Value.str.inj heq
  · refine fun hheld => ⟨fun v w hvw => ?_, hout⟩
    obtain ⟨k, hk, rfl⟩ := mem_record_input h (AList.lookup_isSome.mp (by rw [hvw]; rfl))
    rw [lookup_record_input hname hmarks h, if_pos hk] at hvw
    refine ⟨hash k, hname k, ?_⟩
    rw [← Option.some.inj hvw]
    cases hd : (deps.input.lookup (.str k)).bind asString with
    | none => rfl
    | some nhash => rw [hheld k hk nhash hd]; rfl

end Record

end Buildsh.Build
