/-
  `build.lua`: the main program.

  The candidates for the make file are given with everything that can happen to them: how loading
  ends, which globals are assigned, what `find_exec` says about every program, how the script
  ends and how its target functions end. A table of targets may change with every target that is
  executed. `mainLoop` is the driver, with what it writes to the standard error.
-/
import Mathlib
import Buildsh.Generic.Output
import Buildsh.Lua

namespace Buildsh.Driver
open Buildsh.Generic Buildsh.Generic.Output

/-! ## What can happen -/

/-- A value as text. Strings and numbers can be written, other values cannot. -/
abbrev Text := Option LuaString

def lit (s : String) : Text := some s.toList

/-- The errors that the driver itself can raise. -/
inductive DriverError where
  /-- bad argument to `write` -/
  | badArgument
  /-- attempt to concatenate -/
  | concat
  /-- attempt to compare -/
  | compare
  deriving DecidableEq, Repr

/-- An error that a function of a script raises. -/
inductive Raised where
  /-- of `make.assert_file` and `make.assert_exec`, with the alternatives -/
  | file (alternatives : List Text)
  | exec (alternatives : List Text)
  /-- of `make.assert`; without a reason, if that is nil or false -/
  | assert (reason : Option Text)
  /-- another table -/
  | unknown
  /-- no table, but what `tostring` makes of it -/
  | other (text : Text)

/-- A key of a table of targets; the numbers are integers. -/
inductive Key where
  | str (s : LuaString)
  | num (n : Int)
  | other (n : Nat)
  deriving DecidableEq

inductive TargetValue where
  | function (outcome : Except Raised Unit)
  | other

abbrev Targets := AList (fun _ : Key => TargetValue)

inductive FindExec where
  | found
  | missing
  | failed (msg : LuaString)

structure Script where
  /-- the globals that it assigns, with their lines -/
  sg : List (LuaString × Nat)
  /-- the programs that it names, with what `find_exec` says about them -/
  gg : List (LuaString × FindExec)
  /-- how it ends: with a table of targets, as it is before the `i`th of them is executed, or
      with something else -/
  outcome : Except Raised (Option (Nat → Targets))

structure Candidate where
  fname : LuaString
  /-- `loadfile` -/
  load : Except LuaString Script

inductive Event where
  | write (s : LuaString)
  | load (c : Candidate)
  /-- the function of target `t`, the `i`th one -/
  | call (c : Candidate) (i : Nat) (t : LuaString)
  | autoclean

abbrev Out := Output Event DriverError

/-! ## Writing -/

/-- `err:write` -/
def write : List Text → Out Unit
  | [] => pure ()
  | none :: _ => raise .badArgument
  | some s :: l => do
      emit (.write s)
      write l

def writeErr (fname : Option LuaString) (line : Option Nat) (l : List Text) : Out Unit := do
  write [lit "-- "]
  match fname with
  | none => pure ()
  | some f => do
      write [some f]
      match line with
      | none => pure ()
      | some n => write [lit ":", some (Nat.toDigits 10 n)]
      write [lit ": "]
  write l
  write [lit "\n"]

/-- An item of a list, in quotes. -/
def quote : Text → Out LuaString
  | none => raise .concat
  | some s => pure ('\x60' :: s ++ ['\x27'])

/-- The loop of `write_list`. -/
def writeItems (del : LuaString) (s : LuaString) : List Text → Out Unit
  | [] => write [lit "--    ", some s, lit "\n"]
  | x :: l => do
      let s2 ← quote x
      if s.length + s2.length + "--    ".length + del.length + 1 ≤ 70 then
        writeItems del (s ++ del ++ " ".toList ++ s2) l
      else do
        write [lit "--    ", some s, some del, lit "\n"]
        writeItems del s2 l

def writeList (list : List Text) (del : LuaString) : Out Unit :=
  match list with
  | [] => pure ()
  | x :: l => do
      let s ← quote x
      writeItems del s l

def Key.text : Key → Text
  | .str s => some s
  | .num n => some (toString n).toList
  | .other _ => none

def Key.string : Key → Option LuaString
  | .str s => some s
  | _ => none

def Key.number : Key → Option Int
  | .num n => some n
  | _ => none

/-- `table.sort`, which compares strings with strings and numbers with numbers -/
def sortKeys (l : List Key) : Out (List Text) :=
  if l.all (·.string.isSome) then
    pure ((l.filterMap Key.string).mergeSort (fun a b => decide (a ≤ b)) |>.map some)
  else if l.all (·.number.isSome) then
    pure ((l.filterMap Key.number).mergeSort (fun a b => decide (a ≤ b)) |>.map
      fun n => (Key.num n).text)
  else if l.length ≤ 1 then pure (l.map Key.text)
  else raise .compare

def listTargets (res : Targets) : Out Unit := do
  let tgts ← sortKeys res.keys
  write [lit "== listing available targets:\n"]
  writeList tgts ",".toList

/-! ## Calling functions -/

/-- What is written about an error. The result is `cont`. -/
def reportError (fname : LuaString) (isTarget : Bool) : Raised → Out Bool
  | .file l => do
      if isTarget then
        writeErr (some fname) none [lit "assert_file called in target function. missing:"]
      else if 1 < l.length then
        writeErr (some fname) none [lit "required file missing (one of):"]
      else writeErr (some fname) none [lit "required file missing:"]
      writeList l ", or".toList
      pure !isTarget
  | .exec l => do
      if isTarget then
        writeErr (some fname) none [lit "assert_exec called in target function. missing:"]
      else if 1 < l.length then
        writeErr (some fname) none [lit "required program missing (one of):"]
      else writeErr (some fname) none [lit "required program missing:"]
      writeList l ", or".toList
      pure !isTarget
  | .assert reason => do
      if isTarget then
        writeErr (some fname) none [lit "assert called in target function. reason:"]
      else writeErr (some fname) none [lit "build assertion failed:"]
      write [lit "--    ", reason.getD (lit "unknown reason"), lit "\n"]
      pure true
  | .unknown => do
      writeErr (some fname) none [lit "unknown/unexpected error value"]
      pure false
  | .other text => do
      writeErr none none [text]
      pure false

/-- `call_buildsh_function`, for a function that ends like this -/
def callBuildshFunction {α : Type} (fname : LuaString) (outcome : Except Raised α)
    (isTarget : Bool) : Out (Bool × Bool × Option α) :=
  match outcome with
  | .ok res => pure (true, true, some res)
  | .error e => do
      let cont ← reportError fname isTarget e
      pure (false, cont, none)

/-- The loop of `make_env_with_executables`. The name in the message is a global variable that is
    never assigned. -/
def findExecs (fname : LuaString) :
    List (LuaString × FindExec) → List Text → Out (Option (List Text))
  | [], missing => pure (some missing)
  | (name, .missing) :: gg, missing => findExecs fname gg (missing ++ [some name])
  | (_, .found) :: gg, missing => findExecs fname gg missing
  | (_, .failed msg) :: _, _ => do
      writeErr (some fname) none [lit "find_exec'", none, lit "' = ", some msg]
      pure none

/-- `make_env_with_executables`, without the environment -/
def makeEnvWithExecutables (fname : LuaString) (gg : List (LuaString × FindExec)) :
    Out (Bool × Bool) := do
  match ← findExecs fname gg [] with
  | none => pure (false, false)
  | some missing =>
      if missing.isEmpty then pure (true, true)
      else do
        writeErr (some fname) none [lit "executable(s) not found in PATH:"]
        writeList missing ",".toList
        pure (false, true)

/-! ## The driver -/

/-- The loop over the targets, from the `i`th one. The result is what is left of `retval`, or
    false at once. -/
def runTargets (c : Candidate) (res : Nat → Targets) : Nat → List LuaString → Out Bool
  | _, [] => do
      write [lit "== done.\n"]
      pure true
  | i, target :: targets =>
      match (res i).lookup (.str target) with
      | some (.function outcome) => do
          write [lit "== executing target `", some target, lit "' ...\n"]
          emit (.call c i target)
          let (ok, _, _) ← callBuildshFunction c.fname outcome true
          if !ok then pure false else runTargets c res (i + 1) targets
      | _ =>
          if target = "list".toList then do
            listTargets (res i)
            runTargets c res (i + 1) targets
          else if target = "clean".toList then do
            emit .autoclean
            runTargets c res (i + 1) targets
          else do
            write [lit "== executing target `", some target, lit "' ...\n"]
            writeErr (some c.fname) none [lit "no target `", some target, lit "' defined"]
            pure false

/-- The main program behind `handle_args`, where `handler` is the name of the exec handler. -/
def mainLoop (handler : Option LuaString) (targets : List LuaString) :
    List Candidate → Bool → Out Bool
  | [], retval => pure retval
  | c :: files, _ => do
      write [lit "== checking `", some c.fname, lit "' ...\n"]
      emit (.load c)
      match c.load with
      | .error msg => do
          writeErr none none [some msg]
          mainLoop handler targets files false
      | .ok script =>
          match script.sg with
          | (name, line) :: _ => do
              writeErr (some c.fname) (some line)
                [lit "no globals assignment allowed (`", some name, lit "')"]
              mainLoop handler targets files false
          | [] => do
              let (ok, cont) ← makeEnvWithExecutables c.fname script.gg
              if !ok then
                if !cont then pure false else mainLoop handler targets files false
              else do
                let (ok, cont, res) ← callBuildshFunction c.fname script.outcome false
                if !ok then
                  if !cont then pure false else mainLoop handler targets files false
                else
                  match res.join with
                  | none => do
                      writeErr (some c.fname) none [lit "no targets defined"]
                      pure false
                  | some res =>
                      if (res 0).entries.isEmpty then do
                        writeErr (some c.fname) none [lit "no targets defined"]
                        pure false
                      else do
                        write [lit "== `", some c.fname, lit "' it is ...\n"]
                        match handler with
                        | none => pure ()
                        | some name =>
                            write [lit "== using ", some name, lit " to detect dependencies.\n"]
                        runTargets c res 0 targets

/-- `handle_args`, where `glob` is what `match_glob` finds. -/
def handleArgs (glob : List LuaString) (args : List LuaString) : List LuaString × List LuaString :=
  let isMakeFile (s : LuaString) : Bool :=
    s.tails.any fun t =>
      "make.".toList.isPrefixOf t && ".lua".toList.isSuffixOf t && 9 ≤ t.length &&
        ((t.drop 5).take (t.length - 9)).all fun ch => ch ≠ '/' && ch ≠ '\\'
  let (files, targets) :=
    match args with
    | a :: args => if isMakeFile a then ([a], args) else (glob, a :: args)
    | [] => (glob, [])
  (files, if targets.isEmpty then ["build".toList] else targets)

/-- There is always a target. -/
theorem handleArgs_targets (glob args : List LuaString) : (handleArgs glob args).2 ≠ [] := by
  have hne : ∀ l : List LuaString, (if l.isEmpty then ["build".toList] else l) ≠ [] := by
    intro l
    cases l <;> simp
  exact hne _

end Buildsh.Driver
