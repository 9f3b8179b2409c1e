/-
  `strace.lua`: the back end that reads the output of `strace`.

  A line is a whole call, the beginning of a call that was interrupted by another process
  (`unfinished`), or the end of such a call (`resumed`), which is put together with the beginning
  that was pushed last. The first line that gives a call registers its process; `logOf` is the log
  that the handlers then read.
-/
import Buildsh.Preload
import Buildsh.Generic.Calls
import Buildsh.Patterns

namespace Buildsh.Strace
open Buildsh.Generic Buildsh.Generic.Pattern Buildsh.Base Buildsh.Patterns
open Buildsh.Preload (TraceState register)

/-! ## Patterns -/

/-- `"([\x%x]*)"` -/
def quotedName : List (Item Char) :=
  literal "\"".toList ++ captured isEscape .star ++ literal "\"".toList

/-- `,%s*` -/
def comma : List (Item Char) := literal ",".toList ++ [spaces]

/-- `([%w_]+)` -/
def atItem : List (Item Char) := captured isWord .plus

/-- `([%u_|]+)` -/
def flagsItem : List (Item Char) := captured (fun c => c.isUpper ∨ c = '_' ∨ c = '|') .plus

/-- `^"([\x%x]*)",%s*([%u_|]+)` -/
def openRe : List (Item Char) := quotedName ++ comma ++ flagsItem

/-- `^([%w_]+),%s*"([\x%x]*)",%s*([%u_|]+)` -/
def openatRe : List (Item Char) := atItem ++ comma ++ quotedName ++ comma ++ flagsItem

/-- `^(%d+)$` -/
def numberRe : List (Item Char) := captured Char.isDigit .plus ++ [.stop]

/-- `^([%w_]+),%s*"([\x%x]*)"` -/
def mkdiratRe : List (Item Char) := atItem ++ comma ++ quotedName

/-- `^"([\x%x]*)",%s*"([\x%x]*)"` -/
def renameRe : List (Item Char) := quotedName ++ comma ++ quotedName

/-- `^([%w_]+),%s*"([\x%x]*)",%s*([%w_]+),%s*"([\x%x]*)"` -/
def renameatRe : List (Item Char) :=
  atItem ++ comma ++ quotedName ++ comma ++ atItem ++ comma ++ quotedName

/-- `(.*)` -/
def anything : List (Item Char) := captured (fun _ => true) .star

/-- `^(%d+)%s*([%w_]+)%((.*)%)%s*=%s*(%d+)$` -/
def syscallRe : List (Item Char) :=
  captured Char.isDigit .plus ++ [spaces] ++ atItem ++ literal "(".toList ++ anything ++
    literal ")".toList ++ [spaces] ++ literal "=".toList ++ [spaces] ++
    captured Char.isDigit .plus ++ [.stop]

/-- `^(%d+)%s*([%w_]+)%(%s*(.*)<unfinished%s*%.%.%.>$` -/
def unfinishedRe : List (Item Char) :=
  captured Char.isDigit .plus ++ [spaces] ++ atItem ++ literal "(".toList ++ [spaces] ++
    anything ++ literal "<unfinished".toList ++ [spaces] ++ literal "...>".toList ++ [.stop]

/-- `^(%d+)%s*<%.%.%.%s*([%w_]+)%s*resumed>%s*(.*)%)%s*=%s*(%-?%d+)` -/
def resumedRe : List (Item Char) :=
  captured Char.isDigit .plus ++ [spaces] ++ literal "<...".toList ++ [spaces] ++ atItem ++
    [spaces] ++ literal "resumed>".toList ++ [spaces] ++ anything ++ literal ")".toList ++
    [spaces] ++ literal "=".toList ++ [spaces] ++
    [.begin_, .chars (fun c => c = '-') .opt, .chars Char.isDigit .plus, .end_]

/-! ## Handlers -/

/-- `s:find( t, 1, true )` -/
def find (s t : LuaString) : Bool := s.tails.any fun u => t.isPrefixOf u

def dirOf (flags : LuaString) : Dir :=
  if find flags "O_WRONLY".toList ∨ find flags "O_RDWR".toList then .output else .input

def handleOpen (args fd : LuaString) : Option Event :=
  match match_ openRe args with
  | some [name, flags] => some (.open_ (hex2name name) (dirOf flags) fd)
  | _ => none

def handleOpenat (args fd : LuaString) : Option Event :=
  match match_ openatRe args with
  | some [atfd, name, flags] => some (.openat atfd (hex2name name) (dirOf flags) fd)
  | _ => none

def handleCreat (args fd : LuaString) : Option Event :=
  match match_ quotedName args with
  | some [name] => some (.creat (hex2name name) fd)
  | _ => none

def handleExec (args _ret : LuaString) : Option Event :=
  match match_ quotedName args with
  | some [prog] => some (.exec (hex2name prog))
  | _ => none

def handleFchdir (args _ret : LuaString) : Option Event :=
  match match_ numberRe args with
  | some [fd] => some (.fchdir fd)
  | _ => none

def handleChdir (args _ret : LuaString) : Option Event :=
  match match_ quotedName args with
  | some [name] => some (.chdir (hex2name name))
  | _ => none

def handleMkdir (args _ret : LuaString) : Option Event :=
  match match_ quotedName args with
  | some [name] => some (.mkdir (hex2name name))
  | _ => none

def handleMkdirat (args _ret : LuaString) : Option Event :=
  match match_ mkdiratRe args with
  | some [atfd, name] => some (.mkdirat atfd (hex2name name))
  | _ => none

def handleFork (_args cpid : LuaString) : Option Event := some (.fork cpid)

def handleRename (args _ret : LuaString) : Option Event :=
  match match_ renameRe args with
  | some [src, dst] => some (.rename (hex2name src) (hex2name dst))
  | _ => none

def handleRenameat (args _ret : LuaString) : Option Event :=
  match match_ renameatRe args with
  | some [atfd, src, atfd2, dst] => some (.renameat atfd (hex2name src) atfd2 (hex2name dst))
  | _ => none

/-- `syscall_handlers` -/
def syscallHandlers : List (LuaString × (LuaString → LuaString → Option Event)) :=
  [("open".toList, handleOpen), ("openat".toList, handleOpenat), ("creat".toList, handleCreat),
    ("execve".toList, handleExec), ("chdir".toList, handleChdir),
    ("fchdir".toList, handleFchdir), ("mkdir".toList, handleMkdir),
    ("mkdirat".toList, handleMkdirat), ("rename".toList, handleRename),
    ("renameat".toList, handleRenameat), ("clone".toList, handleFork),
    ("vfork".toList, handleFork), ("fork".toList, handleFork)]

/-! ## Calls in pieces -/

/-- The arguments of the calls that have begun, by process and name of the call. An empty list
    stands for a missing entry as well: `pop_unfinished` does the same with both. -/
abbrev Unfinished := Pid → LuaString → List LuaString

def pushUnfinished (t : Unfinished) (pid : Pid) (syscall args : LuaString) : Unfinished :=
  Function.update t pid (Function.update (t pid) syscall (t pid syscall ++ [args]))

/-- The arguments put together; none if the call has no beginning or has failed. -/
def popUnfinished (t : Unfinished) (pid : Pid) (syscall args ret : LuaString) :
    Unfinished × Option LuaString :=
  let st := t pid syscall
  let t := Function.update t pid (Function.update (t pid) syscall st.dropLast)
  match st.getLast? with
  | none => (t, none)
  | some a => (t, if ret.take 1 ≠ "-".toList then some (a ++ args) else none)

/-- A call, as it is passed to its handler. -/
structure CallLine where
  pid : Pid
  syscall : LuaString
  args : LuaString
  ret : LuaString

/-- What a line adds to the unfinished calls, and the call it gives. -/
def takeLine (t : Unfinished) (line : LuaString) : Unfinished × Option CallLine :=
  match match_ syscallRe line with
  | some [pid, syscall, args, ret] => (t, some ⟨pid, syscall, args, ret⟩)
  | _ =>
      match match_ unfinishedRe line with
      | some [pid, syscall, args] => (pushUnfinished t pid syscall args, none)
      | _ =>
          match match_ resumedRe line with
          | some [pid, syscall, args, ret] =>
              let (t, args) := popUnfinished t pid syscall args ret
              (t, args.map fun args => ⟨pid, syscall, args, ret⟩)
          | _ => (t, none)

/-- What its handler makes of a call: one call of a base function, or none. -/
def CallLine.event (c : CallLine) : Option Event :=
  (syscallHandlers.lookup c.syscall).bind fun sh => sh c.args c.ret

/-! ## The loop -/

section Loop

variable (ape : Ape) (depth : Nat) (dir : LuaString)

/-- The loop over the lines; `first` until a line has given a call. -/
def readLines : Unfinished → Bool → TraceState → List LuaString →
    Except (Fault LuaError) TraceState
  | _, _, s, [] => .ok s
  | t, first, s, line :: lines =>
      match takeLine t line with
      | (t, none) => readLines t first s lines
      | (t, some c) =>
          let s := if first then register s c.pid dir else s
          match c.event with
          | none => readLines t false s lines
          | some e =>
              match checked (machine ape) depth s c.pid e with
              | .error err => .error err
              | .ok s => readLines t false s lines

/-- `post_process`, up to the call of `finish`. -/
def postProcess (lines : List LuaString) : Except (Fault LuaError) TraceState :=
  readLines ape depth dir (fun _ _ => []) true (State.start ⟨⟨∅, ∅⟩, fun _ => none⟩) lines

end Loop

/-- The calls that the lines give. -/
def callsOf : Unfinished → List LuaString → List CallLine
  | _, [] => []
  | t, line :: lines => (takeLine t line).2.toList ++ callsOf (takeLine t line).1 lines

/-- The events of calls. -/
def eventsOf (l : List CallLine) : List (Pid × Event) :=
  l.filterMap fun c => c.event.map fun e => (c.pid, e)

section Log

variable {ape : Ape} {depth : Nat} {dir : LuaString}

theorem readLines_false (t : Unfinished) (s : TraceState) (lines : List LuaString) :
    readLines ape depth dir t false s lines =
      run (machine ape) depth s (eventsOf (callsOf t lines)) := by
  induction lines generalizing t s with
  | nil => rfl
  | cons line lines ih =>
      rw [readLines, callsOf]
      cases h : takeLine t line with
      | mk t' c =>
          cases c with
          | none => exact ih t' s
          | some c =>
              cases he : c.event with
              | none => simpa [eventsOf, he] using ih t' s
              | some e =>
                  have hlog : eventsOf (c :: callsOf t' lines) =
                      (c.pid, e) :: eventsOf (callsOf t' lines) := by
                    simp [eventsOf, he]
                  simp only [Bool.false_eq_true, if_false, Option.toList_some, he,
                    List.singleton_append, hlog, run_cons]
                  cases checked (machine ape) depth s c.pid e with
                  | error err => rfl
                  | ok s₁ => exact ih t' s₁

end Log

end Buildsh.Strace
