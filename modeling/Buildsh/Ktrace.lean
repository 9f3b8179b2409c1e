/-
  `ktrace.lua`: the back end that reads the output of `kdump`.

  A system call is written as a record of type CALL, records of type NAMI for the file names that
  the kernel looks up, and a record of type RET. `post_process` keeps the calls of a process that
  are pending on a stack; a file name goes to the innermost one, and a result to the innermost
  call of its name.

  A line is tried against the patterns of CALL, RET and NAMI in this order, and each looks for the
  name of its type anywhere behind the process id. So the text of a file name decides as well
  (`Misread`), and `nami_iff` says which file names are read as what they are.

  Descriptors are numbers in this back end (`tonumber`); their decimal digits stand for them.
-/
import Buildsh.Strace

namespace Buildsh.Ktrace
open Buildsh.Generic Buildsh.Generic.Pattern Buildsh.Base Buildsh.Patterns Buildsh.Commands
open Buildsh.Preload (TraceState register)

/-! ## Patterns -/

/-- `.` -/
def anyChar : Char → Bool := fun _ => true

/-- `^%s*(%d+).+`, with which the patterns of all records begin. -/
def recordRe (re : List (Item Char)) : List (Item Char) :=
  spaces :: (captured Char.isDigit .plus ++ .chars anyChar .plus :: re)

/-- `CALL%s*([%w_]+)` -/
def callMark : List (Item Char) := literal "CALL".toList ++ [spaces] ++ captured isWord .plus

/-- `RET%s*([%w_]+)%s*(%-?%d+)` -/
def retMark : List (Item Char) :=
  literal "RET".toList ++ [spaces] ++ captured isWord .plus ++ [spaces] ++
    [.begin_, .chars (fun c => c = '-') .opt, .chars Char.isDigit .plus, .end_]

/-- `NAMI%s*"` -/
def namiMark : List (Item Char) := literal "NAMI".toList ++ [spaces] ++ literal "\"".toList

/-- `^%s*(%d+).+CALL%s*([%w_]+)(.-)$` -/
def syscallRe : List (Item Char) := recordRe (callMark ++ (captured anyChar .least ++ [.stop]))

/-- `^%s*(%d+).+NAMI%s*"(.-)"%s*$` -/
def namiRe : List (Item Char) :=
  recordRe (namiMark ++ (captured anyChar .least ++ (literal "\"".toList ++ [spaces, .stop])))

/-- `^%s*(%d+).+RET%s*([%w_]+)%s*(%-?%d+).-$` -/
def retRe : List (Item Char) := recordRe (retMark ++ [.chars anyChar .least, .stop])

/-- `^%(0x(%x+),` -/
def atfdRe : List (Item Char) :=
  literal "(0x".toList ++ captured isHex .plus ++ literal ",".toList

/-- `^%(0x%x+,0x%x+,0x(%x+),` -/
def oflagsRe : List (Item Char) :=
  literal "(0x".toList ++ [.chars isHex .plus] ++ literal ",0x".toList ++ [.chars isHex .plus] ++
    literal ",0x".toList ++ captured isHex .plus ++ literal ",".toList

/-- `^%(0x(%x+)%)` -/
def fchdirRe : List (Item Char) :=
  literal "(0x".toList ++ captured isHex .plus ++ literal ")".toList

/-- `^%(0x(%x+),0x%x+,0x(%x+),` -/
def renameatRe : List (Item Char) :=
  literal "(0x".toList ++ captured isHex .plus ++ literal ",0x".toList ++ [.chars isHex .plus] ++
    literal ",0x".toList ++ captured isHex .plus ++ literal ",".toList

/-! ## Handlers -/

/-- What `ape.hacks` says about the modes of `open`. -/
structure Hacks where
  O_WRONLY : Option Nat
  O_RDWR : Option Nat
  O_ACCMODE : Option Nat

/-- `tonumber( s, 16 )` -/
def hexNumber (s : LuaString) : Nat := s.foldl (fun n c => 16 * n + hexValue c) 0

/-- `tonumber( s )` -/
def number (s : LuaString) : Nat := s.foldl (fun n c => 10 * n + (c.toNat - '0'.toNat)) 0

def fdOf (n : Nat) : Fd := Nat.toDigits 10 n

def handleOpen (args fd : LuaString) (names : List LuaString) : Option Event :=
  names[0]?.map fun name => .open_ name (Strace.dirOf args) (fdOf (number fd))

/-- How `openat` opens its file. -/
def openatDir (hacks : Hacks) (args : LuaString) : Dir :=
  match match_ oflagsRe args with
  | some [oflags] =>
      match hacks.O_ACCMODE with
      | none => .input
      | some mask =>
          let mode := hexNumber oflags % (mask + 1)
          if hacks.O_WRONLY = some mode ∨ hacks.O_RDWR = some mode then .output else .input
  | _ => Strace.dirOf args

def handleOpenat (hacks : Hacks) (args fd : LuaString) (names : List LuaString) : Option Event :=
  match match_ atfdRe args, names[0]? with
  | some [atfd], some name =>
      some (.openat (fdOf (hexNumber atfd)) name (openatDir hacks args) (fdOf (number fd)))
  | _, _ => none

def handleExec (_args _ret : LuaString) (names : List LuaString) : Option Event :=
  names[0]?.map .exec

def handleFchdir (args _ret : LuaString) (_names : List LuaString) : Option Event :=
  match match_ fchdirRe args with
  | some [fd] => some (.fchdir (fdOf (hexNumber fd)))
  | _ => none

def handleChdir (_args _ret : LuaString) (names : List LuaString) : Option Event :=
  names[0]?.map .chdir

def handleMkdir (_args _ret : LuaString) (names : List LuaString) : Option Event :=
  names[0]?.map .mkdir

def handleMkdirat (args _ret : LuaString) (names : List LuaString) : Option Event :=
  match match_ atfdRe args, names[0]? with
  | some [atfd], some name => some (.mkdirat (fdOf (hexNumber atfd)) name)
  | _, _ => none

def handleFork (_args cpid : LuaString) (_names : List LuaString) : Option Event :=
  some (.fork cpid)

def handleRename (_args _ret : LuaString) (names : List LuaString) : Option Event :=
  match names[0]?, names[1]? with
  | some src, some dst => some (.rename src dst)
  | _, _ => none

def handleRenameat (args _ret : LuaString) (names : List LuaString) : Option Event :=
  match match_ renameatRe args, names[0]?, names[1]? with
  | some [atfd, atfd2], some src, some dst =>
      some (.renameat (fdOf (hexNumber atfd)) src (fdOf (hexNumber atfd2)) dst)
  | _, _, _ => none

/-- `syscall_handlers` -/
def syscallHandlers (hacks : Hacks) :
    List (LuaString × (LuaString → LuaString → List LuaString → Option Event)) :=
  [("open".toList, handleOpen), ("openat".toList, handleOpenat hacks),
    ("execve".toList, handleExec), ("chdir".toList, handleChdir),
    ("fchdir".toList, handleFchdir), ("mkdir".toList, handleMkdir),
    ("mkdirat".toList, handleMkdirat), ("rename".toList, handleRename),
    ("renameat".toList, handleRenameat), ("vfork".toList, handleFork),
    ("fork".toList, handleFork), ("pdfork".toList, handleFork), ("rfork".toList, handleFork)]

/-! ## Pending calls -/

/-- A call without a result, with the file names that have been looked up. -/
structure Pending where
  syscall : LuaString
  args : LuaString
  names : List LuaString
  deriving DecidableEq, Repr

/-- The pending calls of the processes, innermost ones last. An empty list stands for a missing
    entry as well, with which the functions below do the same. -/
abbrev Stack := Pid → List Pending

def pushSyscall (t : Stack) (pid : Pid) (syscall args : LuaString) : Stack :=
  Function.update t pid (t pid ++ [⟨syscall, args, []⟩])

def Pending.addName (c : Pending) (s : LuaString) : Pending := { c with names := c.names ++ [s] }

def setSyscallArg (t : Stack) (pid : Pid) (s : LuaString) : Stack :=
  match (t pid).getLast? with
  | none => t
  | some st => Function.update t pid ((t pid).dropLast ++ [st.addName s])

/-- The innermost call of a name, and the other calls. -/
def findSyscall (syscall : LuaString) : List Pending → Option (Pending × List Pending)
  | [] => none
  | st :: pt =>
      match findSyscall syscall pt with
      | some (value, pt) => some (value, st :: pt)
      | none => if st.syscall = syscall then some (st, pt) else none

def popSyscall (t : Stack) (pid : Pid) (syscall ret : LuaString) : Stack × Option Pending :=
  match findSyscall syscall (t pid) with
  | none => (t, none)
  | some (value, pt) =>
      (Function.update t pid pt, if ret.take 1 ≠ "-".toList then some value else none)

/-! ## Lines -/

/-- How a line is read. -/
inductive Record where
  | call (pid : Pid) (syscall args : LuaString)
  | ret (pid : Pid) (syscall ret : LuaString)
  | nami (pid : Pid) (name : LuaString)
  | other
  deriving DecidableEq, Repr

def recordOf (line : LuaString) : Record :=
  match match_ syscallRe line with
  | some [pid, syscall, args] => .call pid syscall args
  | _ =>
      match match_ retRe line with
      | some [pid, syscall, ret] => .ret pid syscall ret
      | _ =>
          match match_ namiRe line with
          | some [pid, name] => .nami pid name
          | _ => .other

/-- A RET record, as it is passed on: `data` is the call that it ends. -/
structure RetLine where
  pid : Pid
  syscall : LuaString
  ret : LuaString
  data : Option Pending
  deriving DecidableEq, Repr

/-- What a record does to the pending calls, and the result it gives. -/
def Record.take (t : Stack) : Record → Stack × Option RetLine
  | .call pid syscall args => (pushSyscall t pid syscall args, none)
  | .ret pid syscall r =>
      ((popSyscall t pid syscall r).1, some ⟨pid, syscall, r, (popSyscall t pid syscall r).2⟩)
  | .nami pid name => (setSyscallArg t pid name, none)
  | .other => (t, none)

def takeLine (t : Stack) (line : LuaString) : Stack × Option RetLine := (recordOf line).take t

/-- What its handler makes of a call: one call of a base function, or none. -/
def RetLine.event (hacks : Hacks) (r : RetLine) : Option Event :=
  match (syscallHandlers hacks).lookup r.syscall, r.data with
  | some sh, some sdata => sh sdata.args r.ret sdata.names
  | _, _ => none

/-! ## The loop -/

section Loop

variable (hacks : Hacks) (ape : Ape) (depth : Nat) (dir : LuaString)

/-- The loop over the lines; `first` until there was a RET record. -/
def readLines : Stack → Bool → TraceState → List LuaString → Except (Fault LuaError) TraceState
  | _, _, s, [] => .ok s
  | t, first, s, line :: lines =>
      match takeLine t line with
      | (t, none) => readLines t first s lines
      | (t, some r) =>
          let s := if first then register s r.pid dir else s
          match r.event hacks with
          | none => readLines t false s lines
          | some e =>
              match checked (machine ape) depth s r.pid e with
              | .error err => .error err
              | .ok s => readLines t false s lines

/-- `post_process`, on the lines of `kdump`, up to the call of `finish`. -/
def postProcess (lines : List LuaString) : Except (Fault LuaError) TraceState :=
  readLines hacks ape depth dir (fun _ => []) true (State.start ⟨⟨∅, ∅⟩, fun _ => none⟩) lines

end Loop

/-- The results that the lines give. -/
def resultsOf : Stack → List LuaString → List RetLine
  | _, [] => []
  | t, line :: lines => (takeLine t line).2.toList ++ resultsOf (takeLine t line).1 lines

/-- The events of results. -/
def eventsOf (hacks : Hacks) (l : List RetLine) : List (Pid × Event) :=
  l.filterMap fun r => (r.event hacks).map fun e => (r.pid, e)

section Log

variable {hacks : Hacks} {ape : Ape} {depth : Nat} {dir : LuaString}

theorem readLines_false (t : Stack) (s : TraceState) (lines : List LuaString) :
    readLines hacks ape depth dir t false s lines =
      run (machine ape) depth s (eventsOf hacks (resultsOf t lines)) := by
  induction lines generalizing t s with
  | nil => rfl
  | cons line lines ih =>
      rw [readLines, resultsOf]
      cases h : takeLine t line with
      | mk t' r =>
          cases r with
          | none => exact ih t' s
          | some r =>
              cases he : r.event hacks with
              | none => simpa [eventsOf, he] using ih t' s
              | some e =>
                  have hlog : eventsOf hacks (r :: resultsOf t' lines) =
                      (r.pid, e) :: eventsOf hacks (resultsOf t' lines) := by
                    simp [eventsOf, he]
                  simp only [Bool.false_eq_true, if_false, Option.toList_some, he,
                    List.singleton_append, hlog, run_cons]
                  cases checked (machine ape) depth s r.pid e with
                  | error err => rfl
                  | ok s₁ => exact ih t' s₁

/-- The first result registers its process. -/
theorem readLines_true (t : Stack) (s : TraceState) (lines : List LuaString) :
    readLines hacks ape depth dir t true s lines =
      match (resultsOf t lines).head? with
      | none => .ok s
      | some r => run (machine ape) depth (register s r.pid dir)
          (eventsOf hacks (resultsOf t lines)) := by
  induction lines generalizing t s with
  | nil => rfl
  | cons line lines ih =>
      rw [readLines, resultsOf]
      cases h : takeLine t line with
      | mk t' r =>
          cases r with
          | none => exact ih t' s
          | some r =>
              have hfalse := @readLines_false hacks ape depth dir t (register s r.pid dir)
                (line :: lines)
              rw [readLines, resultsOf, h] at hfalse
              exact hfalse

/-- What `post_process` does: the handlers of the results, in the order of the RET records. -/
theorem postProcess_eq (lines : List LuaString) :
    postProcess hacks ape depth dir lines =
      match (resultsOf (fun _ => []) lines).head? with
      | none => .ok (State.start ⟨⟨∅, ∅⟩, fun _ => none⟩)
      | some r => run (machine ape) depth (State.start (World.start r.pid dir))
          (eventsOf hacks (resultsOf (fun _ => []) lines)) := by
  rw [postProcess, readLines_true]
  cases (resultsOf (fun _ => []) lines).head? <;> rfl

end Log

/-! ## Reading a NAMI record -/

/-- `pid cmd NAMI  "path"`, with blanks in front as `kdump` pads its columns. -/
def namiLine (lead pid cmd path : LuaString) : LuaString :=
  lead ++ (pid ++ ' ' :: (cmd ++ " NAMI  \"".toList ++ (path ++ ['"'])))

structure IsRecord (lead pid cmd : LuaString) : Prop where
  lead_blank : ∀ c ∈ lead, isSpace c = true
  pid_ne : pid ≠ []
  pid_digits : ∀ c ∈ pid, c.isDigit = true
  cmd_lower : ∀ c ∈ cmd, c.isUpper = false

theorem isRecord_of_check {lead pid cmd : LuaString}
    (h : (lead.all isSpace && pid ≠ [] && pid.all Char.isDigit &&
      cmd.all fun c => !c.isUpper) = true) : IsRecord lead pid cmd := by
  simp only [Bool.and_eq_true, decide_eq_true_eq, List.all_eq_true, Bool.not_eq_true'] at h
  exact ⟨h.1.1.1, h.1.1.2, h.1.2, h.2⟩

/-- A file name with a part that looks like a record: `CALL%s*[%w_]`, `RET%s*[%w_]+%s*%-?%d` or
    `NAMI%s*"`. -/
def Misread (path : LuaString) : Prop :=
  finds callMark path = true ∨ finds retMark path = true ∨ finds namiMark path = true

instance (path : LuaString) : Decidable (Misread path) :=
  inferInstanceAs (Decidable (_ ∨ _))

section Read

variable {lead pid cmd path : LuaString}

theorem head_of_literal {x : Char} {s w : LuaString} {p : List (Item Char)}
    (h : Begins (literal (x :: s) ++ p) w) : w.head? = some x := by
  obtain ⟨v, rfl, -⟩ := begins_literal.mp h
  rfl

/-- A capital letter is neither a blank nor a digit. -/
theorem not_mem_front (h : IsRecord lead pid cmd) {x : Char} (hx : x.isUpper = true) :
    x ∉ lead ++ (pid ++ [' ']) ∧ x ∉ cmd := by
  have hspace : ∀ y, isSpace y = true → y.isUpper = false := by
    intro y hy
    have hmem : y ∈ [' ', '\t', '\n', '\x0b', '\x0c', '\r'] := of_decide_eq_true hy
    have hall : [' ', '\t', '\n', '\x0b', '\x0c', '\r'].all (fun c => !c.isUpper) = true := by
      decide
    simpa using List.all_eq_true.mp hall y hmem
  have hdigit : ∀ y : Char, y.isDigit = true → y.isUpper = false := by
    intro y hy
    have hle : y.val ≤ 57 := by
      simp only [Char.isDigit, Bool.and_eq_true, decide_eq_true_eq] at hy
      exact hy.2
    have hlt : ¬ 65 ≤ y.val := fun h65 => absurd (UInt32.le_trans h65 hle) (by decide)
    exact decide_eq_false fun hup => hlt hup.1
  refine ⟨fun hmem => ?_, fun hmem => ?_⟩
  · have hlow : x.isUpper = false := by
      rcases List.mem_append.mp hmem with hmem | hmem
      · exact hspace x (h.lead_blank x hmem)
      · rcases List.mem_append.mp hmem with hmem | hmem
        · exact hdigit x (h.pid_digits x hmem)
        · rw [List.mem_singleton.mp hmem]
          rfl
    rw [hx] at hlow
    cases hlow
  · rw [h.cmd_lower x hmem] at hx
    cases hx

/-- Behind the process id a record is read at any place. -/
theorem begins_recordRe (h : IsRecord lead pid cmd) {x : Char} {s t : LuaString}
    {p : List (Item Char)} (hx : x.isUpper = true) :
    Begins (recordRe (literal (x :: s) ++ p)) (lead ++ (pid ++ ' ' :: t)) ↔
      ∃ w, w <:+ t ∧ Begins (literal (x :: s) ++ p) w := by
  constructor
  · intro hb
    obtain ⟨w, hw, hbw⟩ := Begins.right (p := spaces :: (captured Char.isDigit .plus ++
      [.chars anyChar .plus])) (q := literal (x :: s) ++ p) (by simpa [recordRe] using hb)
    have hw' : w <:+ lead ++ (pid ++ [' ']) ++ t := by simpa using hw
    exact ⟨w, suffix_of_head (not_mem_front h hx).1 hw' (head_of_literal hbw), hbw⟩
  · rintro ⟨w, ⟨u, rfl⟩, hb⟩
    refine ⟨lead, pid ++ ' ' :: (u ++ w), rfl, trivial, h.lead_blank, ?_⟩
    refine ⟨pid, ' ' :: (u ++ w), rfl, h.pid_ne, h.pid_digits, ?_⟩
    exact ⟨' ' :: u, w, rfl, List.cons_ne_nil _ _, fun _ _ => rfl, hb⟩

/-- The mark of another type is found in the file name only. -/
theorem begins_namiLine (h : IsRecord lead pid cmd) {x : Char} {s : LuaString}
    {p q : List (Item Char)} (hx : x.isUpper = true) (hnami : x ∉ " NAMI  \"".toList)
    (hskips : skips '"' (literal (x :: s) ++ p) = true)
    (hclosed : closed 0 (literal (x :: s) ++ p) = true) (hq : ∀ v, Begins q v) :
    Begins (recordRe (literal (x :: s) ++ p ++ q)) (namiLine lead pid cmd path) ↔
      finds (literal (x :: s) ++ p) path = true := by
  rw [namiLine, List.append_assoc (literal (x :: s)), begins_recordRe h hx, finds_iff hclosed,
    ← List.append_assoc (literal (x :: s))]
  constructor
  · rintro ⟨w, hw, hb⟩
    have hb' : Begins (literal (x :: s) ++ p) w := hb.left
    have hhead := head_of_literal hb'
    have hfront : x ∉ cmd ++ " NAMI  \"".toList := fun hmem =>
      (List.mem_append.mp hmem).elim (not_mem_front h hx).2 hnami
    have hw' : w <:+ path ++ ['"'] := suffix_of_head hfront hw hhead
    rcases List.suffix_concat_iff.mp hw' with rfl | ⟨w', rfl, hpath⟩
    · cases hhead
    · exact ⟨w', hpath, hb'.of_concat (not_accepts_of_skips hskips).1⟩
  · rintro ⟨w, ⟨u, rfl⟩, hb⟩
    exact ⟨w ++ ['"'], ⟨cmd ++ " NAMI  \"".toList ++ u, by simp⟩,
      hb.append (not_accepts_of_skips hskips).2 hq ['"']⟩

theorem begins_least_stop (v : LuaString) : Begins (captured anyChar .least ++ [.stop]) v :=
  ⟨v, [], (List.append_nil v).symm, trivial, fun _ _ => rfl, rfl, trivial⟩

theorem begins_syscallRe (h : IsRecord lead pid cmd) :
    Begins syscallRe (namiLine lead pid cmd path) ↔ finds callMark path = true :=
  begins_namiLine (x := 'C') (s := "ALL".toList) h (by decide) (by decide) (by decide) (by decide)
    begins_least_stop

theorem begins_retRe (h : IsRecord lead pid cmd) :
    Begins retRe (namiLine lead pid cmd path) ↔ finds retMark path = true :=
  begins_namiLine (x := 'R') (s := "ET".toList) h (by decide) (by decide) (by decide) (by decide)
    begins_least_stop

/-- Behind the last quote there is nothing but blanks. -/
theorem not_begins_quote {w : LuaString} (hne : w ≠ []) :
    ¬ Begins (literal "\"".toList ++ [spaces, .stop]) (w ++ ['"']) := by
  intro hb
  obtain ⟨v, hv, u, v', rfl, -, hu, rfl, -⟩ := begins_literal.mp hb
  obtain ⟨c, w, rfl⟩ := List.exists_cons_of_ne_nil hne
  have hmem : '"' ∈ u := by
    have hw : w ++ ['"'] = u := by simpa using (List.cons.inj hv).2
    rw [← hw]
    simp
  exact absurd (hu _ hmem) (by decide)

/-- A mark behind a mark stands in the file name. -/
theorem finds_of_begins_mark {blank name w : LuaString} (hblank : ∀ c ∈ blank, isSpace c = true)
    (hw : w <:+ "NAMI".toList ++ (blank ++ '"' :: (name ++ ['"'])))
    (hne : w ≠ "NAMI".toList ++ (blank ++ '"' :: (name ++ ['"'])))
    (hb : Begins (namiMark ++ (captured anyChar .least ++ (literal "\"".toList ++
      [spaces, .stop]))) w) : finds namiMark name = true := by
  have hb' : Begins (literal "NAMI".toList ++ (spaces :: (literal "\"".toList ++
      (captured anyChar .least ++ (literal "\"".toList ++ [spaces, .stop]))))) w := by
    simpa [namiMark] using hb
  have hhead := head_of_literal (x := 'N') (s := "AMI".toList) hb'
  have hfront : 'N' ∉ "AMI".toList ++ (blank ++ ['"']) := by
    intro hmem
    rcases List.mem_append.mp hmem with hmem | hmem
    · exact absurd hmem (by decide)
    · rcases List.mem_append.mp hmem with hmem | hmem
      · exact absurd (hblank _ hmem) (by decide)
      · exact absurd hmem (by decide)
  have hw' : w <:+ name ++ ['"'] := by
    change w <:+ 'N' :: ("AMI".toList ++ (blank ++ '"' :: (name ++ ['"']))) at hw
    rcases List.suffix_cons_iff.mp hw with heq | hw
    · exact absurd heq hne
    · exact suffix_of_head hfront (by simpa using hw) hhead
  obtain ⟨v, hv, a, v₁, rfl, -, ha, hv₁⟩ := begins_literal.mp hb'
  obtain ⟨v₂, rfl, u, v₃, rfl, -, -, hv₃⟩ := begins_literal.mp hv₁
  have hrest : u ++ v₃ ≠ [] := by
    obtain ⟨v₄, rfl, -⟩ := begins_literal.mp hv₃
    simp
  rcases List.suffix_concat_iff.mp hw' with rfl | ⟨w', rfl, hpath⟩
  · cases hhead
  · rw [finds_iff (by decide)]
    refine ⟨w', hpath, ?_⟩
    rw [← List.dropLast_concat_getLast hrest] at hv
    have hv' : w' ++ ['"'] = "NAMI".toList ++ (a ++ '"' :: (u ++ v₃).dropLast) ++
        [(u ++ v₃).getLast hrest] := by simpa using hv
    rw [(List.append_inj' hv' rfl).1]
    have hmark : Begins (literal "NAMI".toList ++ (spaces :: (literal "\"".toList ++ [])))
        ("NAMI".toList ++ (a ++ '"' :: (u ++ v₃).dropLast)) :=
      begins_literal.mpr ⟨_, rfl, a, _, rfl, trivial, ha, begins_literal.mpr ⟨_, rfl, trivial⟩⟩
    simpa [namiMark] using hmark

/-- The last mark counts. -/
theorem match_namiRe {x blank name : LuaString} (hlead : ∀ c ∈ lead, isSpace c = true)
    (hne : pid ≠ []) (hpid : ∀ c ∈ pid, c.isDigit = true) (hblank : ∀ c ∈ blank, isSpace c = true)
    (hname : finds namiMark name = false) :
    match_ namiRe (lead ++ (pid ++ ' ' :: (x ++ ("NAMI".toList ++ (blank ++
      '"' :: (name ++ ['"'])))))) = some [pid, name] := by
  -- what stands behind the last mark
  have hname' : matchItems (captured anyChar .least ++ (literal "\"".toList ++ [spaces, .stop]))
      ⟨[pid], []⟩ (name ++ ['"']) = some (⟨[pid, name], []⟩, []) := by
    change matchItems (.begin_ :: .chars anyChar .least :: .end_ :: _) _ _ = _
    rw [matchItems]
    refine matchItems_least_first (fun _ _ => rfl) (fun w _ hne => ?_) (matchItems_end rfl)
    simp only [matchItems, Captures.end_]
    rw [matchItems_eq_none rfl]
    exact not_begins_quote hne
  have hmark : matchItems (namiMark ++ (captured anyChar .least ++
      (literal "\"".toList ++ [spaces, .stop]))) ⟨[pid], []⟩
      ("NAMI".toList ++ (blank ++ '"' :: (name ++ ['"']))) = some (⟨[pid, name], []⟩, []) := by
    rw [namiMark, List.append_assoc, List.append_assoc, match_literal]
    exact matchItems_star hblank (stops_cons (by decide)) ((match_literal ['"'] _).trans hname')
  have hmatch : matchItems namiRe .none (lead ++ (pid ++ ' ' :: (x ++ ("NAMI".toList ++ (blank ++
      '"' :: (name ++ ['"'])))))) = some (⟨[pid, name], []⟩, []) := by
    refine matchItems_star hlead (stops_digits hne hpid) ?_
    refine match_captured_plus hne hpid (stops_cons (by decide)) ?_
    refine matchItems_plus_last (u := ' ' :: x) (List.cons_ne_nil _ _) (fun _ _ => rfl)
      (fun w hw hne => ?_) hmark
    rw [matchItems_eq_none rfl]
    intro hb
    have hfinds := finds_of_begins_mark hblank hw hne hb
    rw [hname] at hfinds
    cases hfinds
  rw [match_, hmatch]
  rfl

theorem exists_captures {re : List (Item Char)} (hclosed : closed 0 re = true) {line : LuaString}
    (h : Begins re line) : ∃ l, match_ re line = some l ∧ l.length = ends re := by
  obtain ⟨r, hr⟩ := Option.isSome_iff_exists.mp ((isSome_matchItems (c := .none) hclosed).mpr h)
  refine ⟨r.1.ended, by rw [match_, hr]; rfl, ?_⟩
  have hlen := length_ended hr
  simpa [Captures.none] using hlen

theorem match_none {re : List (Item Char)} (hclosed : closed 0 re = true) {line : LuaString}
    (h : ¬ Begins re line) : match_ re line = none := by
  rw [match_, (matchItems_eq_none (c := .none) hclosed).mpr h]
  rfl

/-- A mark of a call in the file name. -/
theorem recordOf_call (h : IsRecord lead pid cmd) (hfinds : finds callMark path = true) :
    ∃ p s a, recordOf (namiLine lead pid cmd path) = .call p s a := by
  obtain ⟨l, hl, hlen⟩ := exists_captures (by decide) ((begins_syscallRe h).mpr hfinds)
  obtain ⟨p, s, a, rfl⟩ := List.length_eq_three.mp hlen
  exact ⟨p, s, a, by rw [recordOf, hl]⟩

/-- A mark of a result. -/
theorem recordOf_ret (h : IsRecord lead pid cmd) (hcall : finds callMark path = false)
    (hfinds : finds retMark path = true) :
    ∃ p s r, recordOf (namiLine lead pid cmd path) = .ret p s r := by
  have hnone : match_ syscallRe (namiLine lead pid cmd path) = none :=
    match_none (by decide) fun hb => by
      rw [(begins_syscallRe h).mp hb] at hcall
      cases hcall
  obtain ⟨l, hl, hlen⟩ := exists_captures (by decide) ((begins_retRe h).mpr hfinds)
  obtain ⟨p, s, r, rfl⟩ := List.length_eq_three.mp hlen
  exact ⟨p, s, r, by rw [recordOf, hnone, hl]⟩

/-- The last mark in a file name, if there is one. -/
theorem exists_last_mark (h : finds namiMark path = true) :
    ∃ x blank name, path = x ++ ("NAMI".toList ++ (blank ++ '"' :: name)) ∧
      (∀ c ∈ blank, isSpace c = true) ∧ finds namiMark name = false := by
  induction path with
  | nil => exact absurd h (by decide)
  | cons y path ih =>
      by_cases hrest : finds namiMark path = true
      · obtain ⟨x, blank, name, hpath, hblank, hname⟩ := ih hrest
        exact ⟨y :: x, blank, name, by rw [hpath]; rfl, hblank, hname⟩
      · obtain ⟨w, hw, hb⟩ := (finds_iff (by decide)).mp h
        have hb' : Begins (literal "NAMI".toList ++ (spaces :: (literal "\"".toList ++ []))) w := by
          simpa [namiMark] using hb
        obtain ⟨v, rfl, blank, v', rfl, -, hblank, hv'⟩ := begins_literal.mp hb'
        obtain ⟨name, rfl, -⟩ := begins_literal.mp hv'
        rcases List.suffix_cons_iff.mp hw with heq | hw
        · refine ⟨[], blank, name, heq.symm, hblank, ?_⟩
          rw [← Bool.not_eq_true]
          intro hname
          obtain ⟨w', hw', hbw'⟩ := (finds_iff (by decide)).mp hname
          have hpath : name <:+ path := by
            have htail : path = "AMI".toList ++ (blank ++ '"' :: name) := (List.cons.inj heq).2.symm
            exact ⟨"AMI".toList ++ (blank ++ ['"']), by rw [htail]; simp⟩
          exact hrest ((finds_iff (by decide)).mpr ⟨w', hw'.trans hpath, hbw'⟩)
        · exact absurd ((finds_iff (by decide)).mpr ⟨_, hw, hb⟩) hrest

theorem recordOf_nami (h : IsRecord lead pid cmd) (hcall : finds callMark path = false)
    (hret : finds retMark path = false) {x blank name : LuaString}
    (hpath : namiLine lead pid cmd path = lead ++ (pid ++ ' ' :: (x ++ ("NAMI".toList ++ (blank ++
      '"' :: (name ++ ['"'])))))) (hblank : ∀ c ∈ blank, isSpace c = true)
    (hname : finds namiMark name = false) :
    recordOf (namiLine lead pid cmd path) = .nami pid name := by
  have hnone : match_ syscallRe (namiLine lead pid cmd path) = none :=
    match_none (by decide) fun hb => by
      rw [(begins_syscallRe h).mp hb] at hcall
      cases hcall
  have hnone' : match_ retRe (namiLine lead pid cmd path) = none :=
    match_none (by decide) fun hb => by
      rw [(begins_retRe h).mp hb] at hret
      cases hret
  have hnami := match_namiRe (x := x) h.lead_blank h.pid_ne h.pid_digits hblank hname
  rw [← hpath] at hnami
  rw [recordOf, hnone, hnone', hnami]

/-- **One record.** -/
theorem recordOf_namiLine (h : IsRecord lead pid cmd) (path : LuaString) :
    recordOf (namiLine lead pid cmd path) = .nami pid path ↔ ¬ Misread path := by
  constructor
  · intro hrec hmis
    by_cases hcall : finds callMark path = true
    · obtain ⟨p, s, a, heq⟩ := recordOf_call h hcall
      rw [hrec] at heq
      cases heq
    rw [Bool.not_eq_true] at hcall
    by_cases hret : finds retMark path = true
    · obtain ⟨p, s, r, heq⟩ := recordOf_ret h hcall hret
      rw [hrec] at heq
      cases heq
    rw [Bool.not_eq_true] at hret
    rcases hmis with hmis | hmis | hmis
    · rw [hcall] at hmis
      cases hmis
    · rw [hret] at hmis
      cases hmis
    · obtain ⟨x, blank, name, hpath, hblank, hname⟩ := exists_last_mark hmis
      have hline : namiLine lead pid cmd path = lead ++ (pid ++ ' ' :: ((cmd ++
          " NAMI  \"".toList ++ x) ++ ("NAMI".toList ++ (blank ++ '"' :: (name ++ ['"']))))) := by
        rw [namiLine, hpath]
        simp only [List.append_assoc, List.cons_append]
      have heq := recordOf_nami h hcall hret hline hblank hname
      rw [hrec] at heq
      have hlen := congrArg List.length ((Record.nami.inj heq).2.symm.trans hpath)
      simp at hlen
      omega
  · intro hmis
    rw [Misread, not_or, not_or, Bool.not_eq_true, Bool.not_eq_true, Bool.not_eq_true] at hmis
    have hline : namiLine lead pid cmd path = lead ++ (pid ++ ' ' :: ((cmd ++ [' ']) ++
        ("NAMI".toList ++ ("  ".toList ++ '"' :: (path ++ ['"']))))) := by
      rw [namiLine]
      simp only [List.append_assoc]
      rfl
    exact recordOf_nami h hmis.1 hmis.2.1 hline (List.all_eq_true.mp (by decide)) hmis.2.2

end Read

/-! ## The call that gets a file name -/

section Stack

variable {t : Stack} {pid : Pid} {pt : List Pending} {st : Pending}

theorem setSyscallArg_of_eq (h : t pid = pt ++ [st]) (name : LuaString) :
    setSyscallArg t pid name = Function.update t pid (pt ++ [st.addName name]) := by
  rw [setSyscallArg, h, List.getLast?_concat, List.dropLast_concat]

theorem setSyscallArg_of_ne {q : Pid} (h : pid ≠ q) (name : LuaString) :
    setSyscallArg t q name pid = t pid := by
  unfold setSyscallArg
  cases (t q).getLast? with
  | none => rfl
  | some st => exact Function.update_of_ne h _ _

theorem popSyscall_of_ne {q : Pid} (h : pid ≠ q) (syscall ret : LuaString) :
    (popSyscall t q syscall ret).1 pid = t pid := by
  unfold popSyscall
  cases findSyscall syscall (t q) with
  | none => rfl
  | some v => exact Function.update_of_ne h _ _

theorem findSyscall_concat (pt : List Pending) (st : Pending) :
    findSyscall st.syscall (pt ++ [st]) = some (st, pt) := by
  induction pt with
  | nil => rw [List.nil_append, findSyscall, findSyscall]; exact if_pos rfl
  | cons st' pt ih => rw [List.cons_append, findSyscall, ih]

/-- The innermost pending call, at the result of its name. -/
theorem popSyscall_concat (h : t pid = pt ++ [st]) {ret : LuaString}
    (hret : ret.take 1 ≠ "-".toList) :
    popSyscall t pid st.syscall ret = (Function.update t pid pt, some st) := by
  rw [popSyscall, h, findSyscall_concat]
  simp only [if_pos hret]

/-- A line that neither begins nor ends a call of `pid`. -/
def Between (pid : Pid) (line : LuaString) : Prop :=
  match recordOf line with
  | .call q _ _ | .ret q _ _ => q ≠ pid
  | .nami _ _ | .other => True

/-- The file name that a line looks up for `pid`, if any. -/
def lookedUp (pid : Pid) (line : LuaString) : Option LuaString :=
  match recordOf line with
  | .nami q name => if q = pid then some name else none
  | _ => none

/-- The pending calls behind some lines. -/
def stackAfter (t : Stack) (lines : List LuaString) : Stack :=
  lines.foldl (fun t line => (takeLine t line).1) t

theorem takeLine_between {line : LuaString} (hline : Between pid line) (h : t pid = pt ++ [st]) :
    (takeLine t line).1 pid =
      pt ++ [{ st with names := st.names ++ (lookedUp pid line).toList }] := by
  unfold Between at hline
  unfold takeLine lookedUp
  cases hrec : recordOf line with
  | other => simpa [Record.take] using h
  | call q s a =>
      rw [hrec] at hline
      simpa [Record.take, pushSyscall, Function.update_of_ne (Ne.symm hline)] using h
  | ret q s r =>
      rw [hrec] at hline
      simpa [Record.take, popSyscall_of_ne (Ne.symm hline)] using h
  | nami q name =>
      by_cases hq : q = pid
      · subst hq
        simp [Record.take, setSyscallArg_of_eq h, Pending.addName]
      · simpa [Record.take, setSyscallArg_of_ne (Ne.symm hq), hq] using h

theorem stackAfter_between {lines : List LuaString} (hlines : ∀ line ∈ lines, Between pid line)
    (h : t pid = pt ++ [st]) :
    stackAfter t lines pid =
      pt ++ [{ st with names := st.names ++ lines.filterMap (lookedUp pid) }] := by
  induction lines generalizing t st with
  | nil => simpa [stackAfter] using h
  | cons line lines ih =>
      rw [List.forall_mem_cons] at hlines
      have hrest := ih hlines.2 (takeLine_between hlines.1 h)
      change stackAfter (takeLine t line).1 lines pid = _
      rw [hrest]
      cases hname : lookedUp pid line <;> simp [hname]

/-- What a call is passed to its handler with: the file names between its two records. -/
theorem takeLine_ret {call ret sys args r : LuaString} {lines : List LuaString}
    (hcall : recordOf call = .call pid sys args) (hret : recordOf ret = .ret pid sys r)
    (hr : r.take 1 ≠ "-".toList) (hlines : ∀ line ∈ lines, Between pid line) :
    (takeLine (stackAfter t (call :: lines)) ret).2 =
      some ⟨pid, sys, r, some ⟨sys, args, lines.filterMap (lookedUp pid)⟩⟩ := by
  have hpush : (takeLine t call).1 pid = t pid ++ [⟨sys, args, []⟩] := by
    rw [takeLine, hcall]
    exact Function.update_self _ _ _
  have hstack := stackAfter_between hlines hpush
  change stackAfter t (call :: lines) pid = _ at hstack
  rw [takeLine, hret, Record.take]
  have hpop := popSyscall_concat hstack hr
  simp only [List.nil_append] at hpop
  rw [hpop]

end Stack

/-! ## File names that are read as what they are -/

/-- **NAMI records.** A record is read as one, with its file name, exactly if no part of the file
    name looks like a record. It then goes to the innermost pending call, and the handler of the
    call gets the file name with the others. -/
theorem nami_iff {lead pid cmd : LuaString} (h : IsRecord lead pid cmd) (path : LuaString) :
    ((∀ t, takeLine t (namiLine lead pid cmd path) = (setSyscallArg t pid path, none)) ∧
      ∀ (t : Stack) (call ret sys args r : LuaString) (front back : List LuaString),
        recordOf call = .call pid sys args → recordOf ret = .ret pid sys r →
        r.take 1 ≠ "-".toList → (∀ line ∈ front ++ back, Between pid line) →
        (takeLine (stackAfter t (call :: (front ++ namiLine lead pid cmd path :: back))) ret).2 =
          some ⟨pid, sys, r, some ⟨sys, args,
            front.filterMap (lookedUp pid) ++ path :: back.filterMap (lookedUp pid)⟩⟩) ↔
      ¬ Misread path := by
  rw [← recordOf_namiLine h path]
  constructor
  · rintro ⟨htake, -⟩
    cases hrec : recordOf (namiLine lead pid cmd path) with
    | other =>
        have hpending := congrFun (congrArg Prod.fst (htake fun _ => [⟨[], [], []⟩])) pid
        simp [takeLine, hrec, Record.take, setSyscallArg, Pending.addName] at hpending
    | call q s a =>
        have hpending := congrFun (congrArg Prod.fst (htake fun _ => [])) q
        simp [takeLine, hrec, Record.take, setSyscallArg, pushSyscall] at hpending
    | ret q s r =>
        have hresult := congrArg Prod.snd (htake fun _ => [])
        simp [takeLine, hrec, Record.take] at hresult
    | nami q name =>
        have hpending := congrFun (congrArg Prod.fst (htake fun _ => [⟨[], [], []⟩])) pid
        by_cases hq : q = pid
        · subst hq
          simp [takeLine, hrec, Record.take, setSyscallArg, Pending.addName] at hpending
          rw [hpending]
        · simp [takeLine, hrec, Record.take, setSyscallArg, Pending.addName,
            Function.update_of_ne (Ne.symm hq)] at hpending
  · intro hrec
    refine ⟨fun t => by rw [takeLine, hrec]; rfl, ?_⟩
    intro t call ret sys args r front back hcall hret hr hlines
    have hnami : Between pid (namiLine lead pid cmd path) := by
      rw [Between, hrec]
      trivial
    have hname : lookedUp pid (namiLine lead pid cmd path) = some path := by
      rw [lookedUp, hrec]
      exact if_pos rfl
    have hall : ∀ line ∈ front ++ namiLine lead pid cmd path :: back, Between pid line := by
      intro line hline
      rcases List.mem_append.mp hline with hline | hline
      · exact hlines line (List.mem_append_left _ hline)
      · rcases List.mem_cons.mp hline with rfl | hline
        · exact hnami
        · exact hlines line (List.mem_append_right _ hline)
    rw [takeLine_ret hcall hret hr hall, List.filterMap_append, List.filterMap_cons, hname]

/-- `open( "a.c" )`, with the record of its file name. -/
theorem nami_iff_open :
    (takeLine (stackAfter (fun _ => [])
        ["12 cc CALL  open(0x8fa,O_RDONLY,0)".toList,
          namiLine [] "12".toList "cc".toList "a.c".toList]) "12 cc RET   open 3".toList).2 =
      some ⟨"12".toList, "open".toList, "3".toList,
        some ⟨"open".toList, "(0x8fa,O_RDONLY,0)".toList, ["a.c".toList]⟩⟩ :=
  ((nami_iff (isRecord_of_check (by decide)) "a.c".toList).mpr (by decide +kernel)).2
    (fun _ => []) "12 cc CALL  open(0x8fa,O_RDONLY,0)".toList "12 cc RET   open 3".toList
    "open".toList "(0x8fa,O_RDONLY,0)".toList "3".toList [] [] (by decide +kernel)
    (by decide +kernel) (by decide) (by simp)

/-- The record of the file name `CALLBACK.c` begins a call `BACK`, and `open` gets no name. -/
theorem misread_callback :
    IsRecord [] "12".toList "cc".toList ∧
      recordOf (namiLine [] "12".toList "cc".toList "CALLBACK.c".toList) =
        .call "12".toList "BACK".toList ".c\"".toList ∧
      (takeLine (stackAfter (fun _ => [])
        ["12 cc CALL  open(0x8fa,O_RDONLY,0)".toList,
          namiLine [] "12".toList "cc".toList "CALLBACK.c".toList])
        "12 cc RET   open 3".toList).2 =
      some ⟨"12".toList, "open".toList, "3".toList,
        some ⟨"open".toList, "(0x8fa,O_RDONLY,0)".toList, []⟩⟩ := by
  refine ⟨isRecord_of_check (by decide), ?_, ?_⟩
  · decide +kernel
  · decide +kernel

end Buildsh.Ktrace
