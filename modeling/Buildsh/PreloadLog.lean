/-
  The log of the preloaded library: what `preload.c` writes and `preload.lua` reads.

  `written` is the sequence of writes that `preload.c` makes for a successful call; `lineOf` takes a
  line apart with `syscall_re` and the pattern of its handler, and gives the line as the loop of
  `post_process` sees it.

  `lineOf_written_iff`: a call is read back as the event it was logged for, except that a number
  below zero is no descriptor for the patterns, although the kernel takes any number together with
  an absolute path. Such a call is dropped.
-/
import Buildsh.Preload
import Buildsh.Patterns

namespace Buildsh.PreloadLog
open Buildsh.Generic.Pattern Buildsh.Base Buildsh.Commands Buildsh.Patterns
open Buildsh.Preload (Line)

/-! ## Reading lines -/

/-- `io.lines`: a last line that is not ended counts if it is not empty. -/
def linesFrom : LuaString → LuaString → List LuaString
  | acc, [] => if acc = [] then [] else [acc]
  | acc, c :: s => if c = '\n' then acc :: linesFrom [] s else linesFrom (acc ++ [c]) s

def ioLines (s : LuaString) : List LuaString := linesFrom [] s

/-- `^(%d+)%s*([%w_]+)%s+(.*)$` -/
def syscallRe : List (Item Char) :=
  captured Char.isDigit .plus ++ spaces :: captured isWord .plus ++
    blanks :: captured (fun _ => true) .star ++ [.stop]

/-- `([\x%x]*)` -/
def nameField : Field := ⟨isEscape, .star⟩

/-- `(%d+)` -/
def numberField : Field := ⟨Char.isDigit, .plus⟩

/-- `(%w+)` -/
def dirField : Field := ⟨Char.isAlphanum, .plus⟩

/-- `([%w_]+)` -/
def atField : Field := ⟨isWord, .plus⟩

/-- `^%s*([\x%x]*)%s+(%w+)%s+(%d+)%s*$` -/
def openRe : List (Item Char) := argsRe [nameField, dirField, numberField]

/-- `^%s*([%w_]+)%s+([\x%x]*)%s+(%w+)%s+(%d+)%s*$` -/
def openatRe : List (Item Char) := argsRe [atField, nameField, dirField, numberField]

/-- `^%s*([\x%x]*)%s+(%d+)%s*$` -/
def creatRe : List (Item Char) := argsRe [nameField, numberField]

/-- `^%s*([\x%x]*)%s*$` -/
def nameRe : List (Item Char) := argsRe [nameField]

/-- `^%s*([\x%x]*)%s*` -/
def chdirRe : List (Item Char) := spaces :: fieldsRe [nameField] ++ [spaces]

/-- `^%s*(%d+)%s*$` -/
def numberRe : List (Item Char) := argsRe [numberField]

/-- `^%s*([%w_]+)%s+([\x%x]*)%s*$` -/
def mkdiratRe : List (Item Char) := argsRe [atField, nameField]

/-- `^%s*([\x%x]*)%s+([\x%x]*)%s*$` -/
def renameRe : List (Item Char) := argsRe [nameField, nameField]

/-- `^%s*([%w_]+)%s+([\x%x]*)%s+([%w_]+)%s+([\x%x]*)%s*$` -/
def renameatRe : List (Item Char) := argsRe [atField, nameField, atField, nameField]

/-- The handlers compare with `"out"`. -/
def dirOf (s : LuaString) : Dir := if s = "out".toList then .output else .input

def handleOpen (args : LuaString) : Option Event :=
  match match_ openRe args with
  | some [name, dir, fd] => some (.open_ (hex2name name) (dirOf dir) fd)
  | _ => none

def handleOpenat (args : LuaString) : Option Event :=
  match match_ openatRe args with
  | some [atfd, name, dir, fd] => some (.openat atfd (hex2name name) (dirOf dir) fd)
  | _ => none

def handleCreat (args : LuaString) : Option Event :=
  match match_ creatRe args with
  | some [name, fd] => some (.creat (hex2name name) fd)
  | _ => none

def handleExec (args : LuaString) : Option Event :=
  match match_ nameRe args with
  | some [prog] => some (.exec (hex2name prog))
  | _ => none

def handleFchdir (args : LuaString) : Option Event :=
  match match_ numberRe args with
  | some [fd] => some (.fchdir fd)
  | _ => none

def handleChdir (args : LuaString) : Option Event :=
  match match_ chdirRe args with
  | some [name] => some (.chdir (hex2name name))
  | _ => none

def handleMkdir (args : LuaString) : Option Event :=
  match match_ nameRe args with
  | some [name] => some (.mkdir (hex2name name))
  | _ => none

def handleMkdirat (args : LuaString) : Option Event :=
  match match_ mkdiratRe args with
  | some [atfd, name] => some (.mkdirat atfd (hex2name name))
  | _ => none

def handleFork (args : LuaString) : Option Event :=
  match match_ numberRe args with
  | some [cpid] => some (.fork cpid)
  | _ => none

def handleRename (args : LuaString) : Option Event :=
  match match_ renameRe args with
  | some [src, dst] => some (.rename (hex2name src) (hex2name dst))
  | _ => none

def handleRenameat (args : LuaString) : Option Event :=
  match match_ renameatRe args with
  | some [atfd, src, atfd2, dst] => some (.renameat atfd (hex2name src) atfd2 (hex2name dst))
  | _ => none

/-- `syscall_handlers` -/
def syscallHandlers : List (LuaString × (LuaString → Option Event)) :=
  [("open".toList, handleOpen), ("openat".toList, handleOpenat), ("creat".toList, handleCreat),
    ("exec".toList, handleExec), ("chdir".toList, handleChdir), ("fchdir".toList, handleFchdir),
    ("mkdir".toList, handleMkdir), ("mkdirat".toList, handleMkdirat),
    ("rename".toList, handleRename), ("renameat".toList, handleRenameat),
    ("fork".toList, handleFork)]

/-- What a handler makes of its arguments: one call of a base function, or none. -/
def eventOf (syscall args : LuaString) : Option Event :=
  (syscallHandlers.lookup syscall).bind fun sh => sh args

/-- A line, as the loop of `post_process` takes it apart. -/
def lineOf (line : LuaString) : Line :=
  match match_ syscallRe line with
  | some [pid, syscall, args] =>
      match eventOf syscall args with
      | some e => .event pid e
      | none => .ignored pid
  | _ => .garbled

/-! ## Writing lines -/

/-- The numbers of `fcntl.h`. -/
structure Fcntl where
  AT_FDCWD : Int
  O_WRONLY : Nat
  O_RDWR : Nat

/-- `%d` -/
def decimal (n : Nat) : LuaString := Nat.toDigits 10 n

def decimalInt : Int → LuaString
  | .ofNat n => decimal n
  | .negSucc n => '-' :: decimal (n + 1)

/-- The calls that are logged, with their arguments and results. -/
inductive Call where
  | fopen (file mode : LuaString) (fd : Nat)
  | opendir (name : LuaString) (fd : Nat)
  | open_ (file : LuaString) (oflags fd : Nat)
  | openat (dirfd : Int) (file : LuaString) (oflags fd : Nat)
  | creat (file : LuaString) (fd : Nat)
  | mkdir (dir : LuaString)
  | mkdirat (dirfd : Int) (dir : LuaString)
  | chdir (dir : LuaString)
  /-- a directory that can be entered has a descriptor -/
  | fchdir (dirfd : Nat)
  | rename (old newn : LuaString)
  | renameat (ofd : Int) (old : LuaString) (nfd : Int) (newn : LuaString)
  | fork (cpid : Nat)
  | exec (prog : LuaString)

section Write

variable (fc : Fcntl)

/-- The mode of `fopen` reads only. -/
def modeIn (mode : LuaString) : Bool := mode.head? = some 'r' ∧ '+' ∉ mode

def flagsOut (oflags : Nat) : Bool := oflags &&& fc.O_WRONLY ≠ 0 ∨ oflags &&& fc.O_RDWR ≠ 0

/-- `" in "` or `" out "`, without the blanks -/
def inOut (out : Bool) : LuaString := if out then "out".toList else "in".toList

def writeDirfd (dirfd : Int) : LuaString :=
  if dirfd = fc.AT_FDCWD then "AT_FDCWD".toList else decimalInt dirfd

/-- The name of the call in the log. -/
def Call.word : Call → LuaString
  | .fopen .. | .opendir .. | .open_ .. => "open".toList
  | .openat .. => "openat".toList
  | .creat .. => "creat".toList
  | .mkdir .. => "mkdir".toList
  | .mkdirat .. => "mkdirat".toList
  | .chdir .. => "chdir".toList
  | .fchdir .. => "fchdir".toList
  | .rename .. => "rename".toList
  | .renameat .. => "renameat".toList
  | .fork .. => "fork".toList
  | .exec .. => "exec".toList

/-- The words that follow it. -/
def Call.args : Call → List LuaString
  | .fopen file mode fd => [writeName file, inOut (!modeIn mode), decimal fd]
  | .opendir name fd => [writeName name, inOut false, decimal fd]
  | .open_ file oflags fd => [writeName file, inOut (flagsOut fc oflags), decimal fd]
  | .openat dirfd file oflags fd =>
      [writeDirfd fc dirfd, writeName file, inOut (flagsOut fc oflags), decimal fd]
  | .creat file fd => [writeName file, decimal fd]
  | .mkdir dir | .chdir dir => [writeName dir]
  | .mkdirat dirfd dir => [writeDirfd fc dirfd, writeName dir]
  | .fchdir dirfd => [decimal dirfd]
  | .rename old newn => [writeName old, writeName newn]
  | .renameat ofd old nfd newn =>
      [writeDirfd fc ofd, writeName old, writeDirfd fc nfd, writeName newn]
  | .fork cpid => [decimal cpid]
  | .exec prog => [writeName prog]

/-- The words of the line. -/
def Call.words (pid : Nat) (call : Call) : List LuaString :=
  decimal pid :: call.word :: call.args fc

def written (pid : Nat) (call : Call) : LuaString := unwords (call.words fc pid) ++ "\n".toList

/-! ## What is logged -/

def dirIf (out : Bool) : Dir := if out then .output else .input

/-- The event that a call is logged for. -/
def Call.event : Call → Event
  | .fopen file mode fd => .open_ file (dirIf (!modeIn mode)) (decimal fd)
  | .opendir name fd => .open_ name .input (decimal fd)
  | .open_ file oflags fd => .open_ file (dirIf (flagsOut fc oflags)) (decimal fd)
  | .openat dirfd file oflags fd =>
      .openat (writeDirfd fc dirfd) file (dirIf (flagsOut fc oflags)) (decimal fd)
  | .creat file fd => .creat file (decimal fd)
  | .mkdir dir => .mkdir dir
  | .mkdirat dirfd dir => .mkdirat (writeDirfd fc dirfd) dir
  | .chdir dir => .chdir dir
  | .fchdir dirfd => .fchdir (decimal dirfd)
  | .rename old newn => .rename old newn
  | .renameat ofd old nfd newn =>
      .renameat (writeDirfd fc ofd) old (writeDirfd fc nfd) newn
  | .fork cpid => .fork (decimal cpid)
  | .exec prog => .exec prog

end Write

/-- The paths of a call. -/
def Call.paths : Call → List LuaString
  | .fopen file _ _ | .open_ file _ _ | .openat _ file _ _ | .creat file _ => [file]
  | .opendir name _ | .mkdir name | .mkdirat _ name | .chdir name | .exec name => [name]
  | .rename old newn | .renameat _ old _ newn => [old, newn]
  | .fchdir _ | .fork _ => []

/-- The directory descriptors of a call. -/
def Call.dirfds : Call → List Int
  | .openat dirfd _ _ _ | .mkdirat dirfd _ => [dirfd]
  | .renameat ofd _ nfd _ => [ofd, nfd]
  | _ => []

/-- A path as the kernel takes it: bytes, not empty, without NUL. -/
structure IsPath (s : LuaString) : Prop where
  ne_nil : s ≠ []
  byte : ∀ c ∈ s, 0 < c.toNat ∧ c.toNat < 256

/-! ## What is written is read back -/

theorem linesFrom_append {s : LuaString} (hs : '\n' ∉ s) (acc : LuaString) :
    linesFrom acc (s ++ "\n".toList) = [acc ++ s] := by
  induction s generalizing acc with
  | nil => simp [linesFrom]
  | cons c s ih =>
      have hc : c ≠ '\n' := fun h => hs (h ▸ List.mem_cons_self)
      rw [List.cons_append, linesFrom, if_neg hc,
        ih (fun h => hs (List.mem_cons_of_mem _ h)), List.append_assoc]
      rfl

theorem mem_unwords {ws : List LuaString} {c : Char} (h : c ∈ unwords ws) :
    c = ' ' ∨ ∃ w ∈ ws, c ∈ w := by
  induction ws using unwords.induct with
  | case1 => cases h
  | case2 w => exact Or.inr ⟨w, List.mem_cons_self, h⟩
  | case3 w v ws ih =>
      rw [unwords, List.mem_append, List.mem_cons] at h
      rcases h with h | h | h
      · exact Or.inr ⟨w, List.mem_cons_self, h⟩
      · exact Or.inl h
      · obtain h | ⟨w', hw', hc⟩ := ih h
        · exact Or.inl h
        · exact Or.inr ⟨w', List.mem_cons_of_mem _ hw', hc⟩

theorem ioLines_unwords {ws : List LuaString} (h : ∀ w ∈ ws, Solid w) :
    ioLines (unwords ws ++ "\n".toList) = [unwords ws] := by
  refine linesFrom_append (fun hmem => ?_) []
  obtain heq | ⟨w, hw, hc⟩ := mem_unwords hmem
  · cases heq
  · have hspace : isSpace '\n' = false := (h w hw).not_space _ hc
    cases hspace

/-! ### The fields -/

def fields : List Field := [nameField, numberField, dirField, atField]

theorem fields_spec : ∀ f ∈ fields, (f.times = .star ∨ f.times = .plus) ∧
    [' ', '\t', '\n', '\x0b', '\x0c', '\r'].all (fun c => !f.cls c) = true := by
  decide

theorem fits_of_cls {f : Field} (hf : f ∈ fields) {w : LuaString} (hne : w ≠ [])
    (hcls : ∀ x ∈ w, f.cls x = true) : Fits f w := by
  obtain ⟨htimes, hall⟩ := fields_spec f hf
  have hspace : ∀ c ∈ [' ', '\t', '\n', '\x0b', '\x0c', '\r'], f.cls c = false := by
    intro c hc
    simpa using List.all_eq_true.mp hall c hc
  refine ⟨htimes, hspace ' ' (by simp), ⟨hne, fun x hx => ?_⟩, hcls⟩
  by_contra h
  have hmem : x ∈ [' ', '\t', '\n', '\x0b', '\x0c', '\r'] := by
    simpa only [isSpace, decide_eq_true_eq, Bool.not_eq_false] using h
  have hfalse : f.cls x = false := hspace x hmem
  rw [hcls x hx] at hfalse
  cases hfalse

theorem isDigit_decimal (n : Nat) : ∀ x ∈ decimal n, x.isDigit = true :=
  fun _ hx => Nat.isDigit_of_mem_toDigits (by decide) (by decide) hx

theorem fits_decimal (n : Nat) : Fits numberField (decimal n) :=
  fits_of_cls (by simp [fields]) Nat.toDigits_ne_nil (isDigit_decimal n)

theorem fits_writeName {s : LuaString} (hs : IsPath s) : Fits nameField (writeName s) := by
  refine fits_of_cls (by simp [fields]) (fun h => hs.ne_nil ?_)
    (isEscape_writeName fun c hc => (hs.byte c hc).2)
  cases s with
  | nil => rfl
  | cons c s => cases h

theorem fits_inOut (out : Bool) : Fits dirField (inOut out) := by
  cases out
  · exact fits_of_cls (by simp [fields]) (by decide) (List.all_eq_true.mp (by decide))
  · exact fits_of_cls (by simp [fields]) (by decide) (List.all_eq_true.mp (by decide))

theorem fits_writeDirfd {fc : Fcntl} {d : Int} (hd : d = fc.AT_FDCWD ∨ 0 ≤ d) :
    Fits atField (writeDirfd fc d) := by
  unfold writeDirfd
  split
  · exact fits_of_cls (by simp [fields]) (by decide) (List.all_eq_true.mp (by decide))
  · cases d with
    | ofNat n =>
        refine fits_of_cls (by simp [fields]) Nat.toDigits_ne_nil fun x hx => ?_
        have hdigit : x.isDigit = true := isDigit_decimal n x hx
        simp [atField, isWord, Char.isAlphanum, hdigit]
    | negSucc n =>
        rcases hd with hd | hd
        · contradiction
        · omega

theorem solid_writeDirfd (fc : Fcntl) (d : Int) : Solid (writeDirfd fc d) := by
  by_cases hd : d = fc.AT_FDCWD ∨ 0 ≤ d
  · exact (fits_writeDirfd hd).solid
  · rw [not_or] at hd
    rw [writeDirfd, if_neg hd.1]
    cases d with
    | ofNat n => exact (fits_decimal n).solid
    | negSucc n =>
        exact ⟨List.cons_ne_nil _ _,
          List.forall_mem_cons.mpr ⟨by decide, (fits_decimal (n + 1)).solid.not_space⟩⟩

/-- Such a number is written with a minus sign. -/
theorem minus_mem_writeDirfd {fc : Fcntl} {d : Int} (hd : ¬ (d = fc.AT_FDCWD ∨ 0 ≤ d)) :
    '-' ∈ writeDirfd fc d := by
  rw [not_or] at hd
  rw [writeDirfd, if_neg hd.1]
  cases d with
  | ofNat n => exact absurd (Int.natCast_nonneg n) hd.2
  | negSucc n => exact List.mem_cons_self

theorem no_minus {fs : List Field} (hfs : ∀ f ∈ fs, f ∈ fields) {s : LuaString} (h : '-' ∈ s) :
    match_ (argsRe fs) s = none := by
  cases hs : match_ (argsRe fs) s with
  | none => rfl
  | some l =>
      have hminus : ∀ f ∈ fields, f.cls '-' = false := by decide
      obtain hspace | ⟨f, hf, hcls⟩ := match_argsRe_only hs '-' h
      · cases hspace
      · rw [hminus f (hfs f hf)] at hcls
        cases hcls

/-! ### The handlers -/

theorem dirOf_inOut (out : Bool) : dirOf (inOut out) = dirIf out := by
  cases out <;> decide

theorem hex2name_path {s : LuaString} (hs : IsPath s) : hex2name (writeName s) = s :=
  hex2name_writeName fun c hc => (hs.byte c hc).2

section Handlers

variable {fc : Fcntl} {call : Call}

/-- The fields that the handler of a call has in its pattern. -/
def Call.fields : Call → List Field
  | .fopen .. | .opendir .. | .open_ .. => [nameField, dirField, numberField]
  | .openat .. => [atField, nameField, dirField, numberField]
  | .creat .. => [nameField, numberField]
  | .mkdir .. | .chdir .. | .exec .. => [nameField]
  | .mkdirat .. => [atField, nameField]
  | .fchdir .. | .fork .. => [numberField]
  | .rename .. => [nameField, nameField]
  | .renameat .. => [atField, nameField, atField, nameField]

theorem fits_args (hpaths : ∀ s ∈ call.paths, IsPath s)
    (hdirfds : ∀ d ∈ call.dirfds, d = fc.AT_FDCWD ∨ 0 ≤ d) :
    List.Forall₂ Fits call.fields (call.args fc) := by
  cases call <;>
    simp only [Call.paths, Call.dirfds, List.forall_mem_cons, List.not_mem_nil, false_imp_iff,
      implies_true, and_true] at hpaths hdirfds <;>
    simp [Call.fields, Call.args, fits_decimal, fits_inOut, fits_writeName, fits_writeDirfd,
      hpaths, hdirfds]

theorem solid_args (hpaths : ∀ s ∈ call.paths, IsPath s) : ∀ w ∈ call.args fc, Solid w := by
  have hdecimal : ∀ n, Solid (decimal n) := fun n => (fits_decimal n).solid
  have hinOut : ∀ out, Solid (inOut out) := fun out => (fits_inOut out).solid
  have hname : ∀ s, IsPath s → Solid (writeName s) := fun s hs => (fits_writeName hs).solid
  cases call <;>
    simp only [Call.paths, List.forall_mem_cons, List.not_mem_nil, false_imp_iff, implies_true,
      and_true] at hpaths <;>
    simp [Call.args, hdecimal, hinOut, hname, solid_writeDirfd, hpaths]

/-- The handler of a call. -/
def Call.handler : Call → LuaString → Option Event
  | .fopen .. | .opendir .. | .open_ .. => handleOpen
  | .openat .. => handleOpenat
  | .creat .. => handleCreat
  | .mkdir .. => handleMkdir
  | .mkdirat .. => handleMkdirat
  | .chdir .. => handleChdir
  | .fchdir .. => handleFchdir
  | .rename .. => handleRename
  | .renameat .. => handleRenameat
  | .fork .. => handleFork
  | .exec .. => handleExec

theorem lookup_word (call : Call) : syscallHandlers.lookup call.word = some call.handler := by
  cases call <;> rfl

theorem eventOf_word (args : LuaString) : eventOf call.word args = call.handler args := by
  rw [eventOf, lookup_word]
  rfl

theorem handleChdir_args {dir : LuaString} (hdir : IsPath dir) :
    handleChdir (unwords [writeName dir]) = some (.chdir dir) := by
  have hfits : List.Forall₂ Fits [nameField] [writeName dir] := .cons (fits_writeName hdir) .nil
  have hmatch : matchItems chdirRe .none (unwords [writeName dir]) =
      some (⟨[writeName dir], []⟩, []) :=
    match_spaces (unwords_stops (solid_of_fits hfits)) (match_fields hfits rfl)
  simp only [handleChdir, match_, hmatch, Option.map_some, hex2name_path hdir]

/-- A handler on words that its pattern fits. -/
theorem handler_args (hpaths : ∀ s ∈ call.paths, IsPath s)
    (hfits : List.Forall₂ Fits call.fields (call.args fc)) :
    call.handler (unwords (call.args fc)) = some (call.event fc) := by
  have hmatch := match_argsRe hfits
  have hname : ∀ s ∈ call.paths, hex2name (writeName s) = s := fun s hs =>
    hex2name_path (hpaths s hs)
  cases call
  case chdir dir => exact handleChdir_args (hpaths dir List.mem_cons_self)
  all_goals
    simp only [Call.fields] at hmatch
    simp only [Call.handler, handleOpen, handleOpenat, handleCreat, handleMkdir, handleMkdirat,
      handleFchdir, handleRename, handleRenameat, handleFork, handleExec, openRe, openatRe,
      creatRe, nameRe, mkdiratRe, numberRe, renameRe, renameatRe, hmatch]
    simp only [Call.paths, List.forall_mem_cons, List.not_mem_nil, false_imp_iff, implies_true,
      and_true] at hname
    simp [Call.args, Call.event, dirOf_inOut, dirIf, hname]

/-- A number below zero is matched by no handler. -/
theorem handler_minus {d : Int} (hmem : d ∈ call.dirfds)
    (hd : ¬ (d = fc.AT_FDCWD ∨ 0 ≤ d)) : call.handler (unwords (call.args fc)) = none := by
  have hminus : '-' ∈ unwords (call.args fc) := by
    have hwrite : '-' ∈ writeDirfd fc d := minus_mem_writeDirfd hd
    cases call <;>
      simp only [Call.dirfds, List.mem_cons, List.not_mem_nil, or_false] at hmem
    case openat dirfd file oflags fd => simp [Call.args, unwords, ← hmem, hwrite]
    case mkdirat dirfd dir => simp [Call.args, unwords, ← hmem, hwrite]
    case renameat ofd old nfd newn =>
      rcases hmem with rfl | rfl <;> simp [Call.args, unwords, hwrite]
  have hnone : match_ (argsRe call.fields) (unwords (call.args fc)) = none := by
    refine no_minus ?_ hminus
    cases call <;> simp [Call.fields, fields]
  cases call <;> simp only [Call.dirfds, List.not_mem_nil] at hmem
  all_goals
    simp only [Call.fields] at hnone
    simp only [Call.handler, handleOpenat, handleMkdirat, handleRenameat, openatRe, mkdiratRe,
      renameatRe, hnone]

end Handlers

/-! ### The line -/

theorem isWord_word (call : Call) : call.word ≠ [] ∧ ∀ x ∈ call.word, isWord x = true := by
  have hall : ∀ sh ∈ syscallHandlers, sh.1 ≠ [] ∧ ∀ x ∈ sh.1, isWord x = true := by
    have hwords : ∀ w ∈ syscallHandlers.map Prod.fst, w ≠ [] ∧ w.all isWord = true := by
      decide +kernel
    intro sh hsh
    obtain ⟨hne, hword⟩ := hwords _ (List.mem_map_of_mem hsh)
    exact ⟨hne, List.all_eq_true.mp hword⟩
  obtain ⟨l₁, l₂, heq, -⟩ := List.lookup_eq_some_iff.mp (lookup_word call)
  exact hall (call.word, call.handler) (by simp [heq])

theorem solid_word (call : Call) : Solid call.word :=
  (fits_of_cls (f := atField) (by simp [fields]) (isWord_word call).1 (isWord_word call).2).solid

theorem words_eq (fc : Fcntl) (pid : Nat) (call : Call) :
    unwords (call.words fc pid) =
      decimal pid ++ ' ' :: (call.word ++ ' ' :: unwords (call.args fc)) := by
  cases call <;> rfl

theorem match_syscallRe {fc : Fcntl} {call : Call} {pid : Nat}
    (hsolid : ∀ w ∈ call.args fc, Solid w) :
    match_ syscallRe (unwords (call.words fc pid)) =
      some [decimal pid, call.word, unwords (call.args fc)] := by
  obtain ⟨hne, hword⟩ := isWord_word call
  have hargs (args : LuaString) :
      matchItems (captured (fun _ => true) .star ++ [.stop]) ⟨[decimal pid, call.word], []⟩
        (args ++ []) = some (⟨[decimal pid, call.word] ++ [args], []⟩, []) :=
    match_captured_star (fun _ _ => rfl) stops_nil rfl
  have hmatch : matchItems syscallRe .none (unwords (call.words fc pid)) =
      some (⟨[decimal pid, call.word, unwords (call.args fc)], []⟩, []) := by
    rw [words_eq]
    refine match_captured_plus Nat.toDigits_ne_nil (isDigit_decimal pid) (stops_cons rfl) ?_
    refine matchItems_star (u := [' ']) (List.forall_mem_singleton.mpr rfl) ((solid_word call).stops _) ?_
    refine match_captured_plus hne hword (stops_cons rfl) ?_
    refine match_blanks (unwords_stops hsolid) ?_
    simpa using hargs (unwords (call.args fc))
  rw [match_, hmatch]
  rfl

section Line

variable {fc : Fcntl} {call : Call} {pid : Nat}

theorem lineOf_words (hpaths : ∀ s ∈ call.paths, IsPath s) :
    lineOf (unwords (call.words fc pid)) =
      match call.handler (unwords (call.args fc)) with
      | some e => .event (decimal pid) e
      | none => .ignored (decimal pid) := by
  rw [lineOf, match_syscallRe (solid_args hpaths)]
  simp only [eventOf_word]

theorem read_written (hpaths : ∀ s ∈ call.paths, IsPath s) :
    (ioLines (written fc pid call)).map lineOf = [lineOf (unwords (call.words fc pid))] := by
  have hsolid : ∀ w ∈ call.words fc pid, Solid w :=
    List.forall_mem_cons.mpr ⟨(fits_decimal pid).solid,
      List.forall_mem_cons.mpr ⟨solid_word call, solid_args hpaths⟩⟩
  rw [written, ioLines_unwords hsolid]
  rfl

end Line

/-- **What is logged is read.** A call is read back as the event it was logged for, exactly when
    its directory descriptors are `AT_FDCWD` or not below zero. -/
theorem lineOf_written_iff (fc : Fcntl) (pid : Nat) (call : Call)
    (hpaths : ∀ s ∈ call.paths, IsPath s) :
    (ioLines (written fc pid call)).map lineOf = [.event (decimal pid) (call.event fc)] ↔
      ∀ d ∈ call.dirfds, d = fc.AT_FDCWD ∨ 0 ≤ d := by
  rw [read_written hpaths, lineOf_words hpaths]
  constructor
  · intro h d hmem
    by_contra hd
    rw [handler_minus hmem hd] at h
    simp at h
  · intro hdirfds
    rw [handler_args hpaths (fits_args hpaths hdirfds)]

/-- `openat(dirfd, "/a", O_WRONLY)` on Linux. -/
theorem lineOf_written_iff_openat :
    (ioLines (written ⟨-100, 1, 2⟩ 10 (.openat 7 "/a".toList 1 3))).map lineOf =
        [.event (decimal 10) (.openat "7".toList "/a".toList .output "3".toList)] ↔
      ∀ d ∈ (Call.openat 7 "/a".toList 1 3).dirfds, d = -100 ∨ 0 ≤ d :=
  lineOf_written_iff ⟨-100, 1, 2⟩ 10 (.openat 7 "/a".toList 1 3) (by
    intro s hs
    obtain rfl := List.mem_singleton.mp hs
    exact ⟨by decide, by simp⟩)

/-- The same call with a descriptor that is none: the kernel does not look at it, and the event is
    lost. -/
theorem not_read_openat :
    (ioLines (written ⟨-100, 1, 2⟩ 10 (.openat (-5) "/a".toList 1 3))).map lineOf =
        [.ignored "10".toList] ∧
      (ioLines (written ⟨-100, 1, 2⟩ 10 (.openat (-5) "/a".toList 1 3))).map lineOf ≠
        [.event (decimal 10)
          ((Call.openat (-5) "/a".toList 1 3).event ⟨-100, 1, 2⟩)] := by
  decide +kernel

end Buildsh.PreloadLog
