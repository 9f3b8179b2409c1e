/-
  `base.lua`: the state that the tracers keep while they read a trace.

  Every traced process has a current directory and a table of the names its descriptors were
  opened under (`PData`). Each system call has a handler, which turns the names it is given into
  keys (`getPath`, `getPathat`) and marks these keys as inputs or outputs of the traced command
  (`TempDeps`). Process ids and descriptors are the decimal strings that the trace formats
  deliver, so neither the field `delayed` of the process table nor the field `cwd` of a process
  can be one of them; both are kept apart here.

  An event of a process that is not registered yet is parked until the fork event that announces
  the process. `machine` hands the handlers (`body`) to the delay queue of `Machine`, which is
  what `checked`, `replay` and the end of `fork` do.
-/
import Buildsh.Generic.Interleave
import Buildsh.Lua

namespace Buildsh.Base
open Buildsh.Generic

/-! ## Names -/

/-- What the trackers use of the `ape` library, on names of the form `FILEPATH_NATIVE`. -/
structure Ape where
  /-- `ape.filepath_get()` at the time `base` is loaded -/
  filepathGet : Option LuaString
  filepathRoot : LuaString → Option LuaString
  filepathMerge : LuaString → LuaString → Option LuaString
  basename : LuaString → LuaString
  /-- the first character of `package.config` -/
  dirsep : Char

/-- The key of name `p` for a process in directory `ccwd`. -/
def getPath (ape : Ape) (ccwd p : LuaString)
    (transform : Option LuaString → Option LuaString := id) : Option LuaString :=
  match ape.filepathRoot p with
  | none => ape.filepathMerge ccwd p
  | some _ =>
      match transform ape.filepathGet with
      | none => none
      | some mycwd =>
          if mycwd.length ≤ p.length ∧ p.take mycwd.length = mycwd then
            let rel := (p.drop mycwd.length).dropWhile (· = '/')
            let rel := rel.dropWhile (· = ape.dirsep)
            ape.filepathMerge ['.'] rel
          else none

/-! ## The state of a trace -/

abbrev Pid := LuaString
abbrev Fd := LuaString

/-- A process: its directory, and the name or key each descriptor was opened under. -/
structure PData where
  cwd : LuaString
  fds : Fd → Option LuaString

structure TempDeps where
  input : Table LuaString
  output : Table LuaString

/-- `td` and `pd`, without the field `delayed`. -/
structure World where
  td : TempDeps
  pd : Pid → Option PData

/-- Empty tables, and `pd[ root ] = { cwd = dir }`, as every tracer starts. -/
def World.start (root : Pid) (dir : LuaString) : World where
  td := ⟨∅, ∅⟩
  pd := Function.update (fun _ => none) root (some ⟨dir, fun _ => none⟩)

inductive Dir where
  | input
  | output
  deriving DecidableEq, Repr

inductive Event where
  | open_ (name : LuaString) (dir : Dir) (fd : Fd)
  | openat (atfd : Fd) (name : LuaString) (dir : Dir) (fd : Fd)
  | creat (name : LuaString) (fd : Fd)
  | exec (prog : LuaString)
  | chdir (name : LuaString)
  | fchdir (fd : Fd)
  | mkdir (name : LuaString)
  | mkdirat (atfd : Fd) (name : LuaString)
  | fork (cpid : Pid)
  | rename (src dst : LuaString)
  | renameat (atfd : Fd) (src : LuaString) (atfd2 : Fd) (dst : LuaString)
  deriving DecidableEq, Repr

def AT_FDCWD : Fd := "AT_FDCWD".toList

/-- The key of `name` relative to descriptor `atfd`. -/
def getPathat (ape : Ape) (d : PData) (atfd : Fd) (name : LuaString) : Option LuaString :=
  if atfd = AT_FDCWD then getPath ape d.cwd name
  else getPath ape ((d.fds atfd).getD d.cwd) name

/-! ## The handlers -/

/-- `td.output[ path ] = true` -/
def TempDeps.setOutput (td : TempDeps) (path : LuaString) : TempDeps :=
  { td with output := td.output.insert path (.bool true) }

/-- `td.output[ path ] = nil` -/
def TempDeps.clearOutput (td : TempDeps) (path : LuaString) : TempDeps :=
  { td with output := td.output.erase path }

/-- `if not td.output[ path ] then td.input[ path ] = true end` -/
def TempDeps.setInput (td : TempDeps) (path : LuaString) : TempDeps :=
  if truthy (td.output.lookup path) then td
  else { td with input := td.input.insert path (.bool true) }

/-- What `open` and `openat` do with the key of the name. -/
def TempDeps.opened (td : TempDeps) (path : Option LuaString) (dir : Dir) : TempDeps :=
  match path, dir with
  | none, _ => td
  | some p, .output => td.setOutput p
  | some p, .input => td.setInput p

def PData.setFd (d : PData) (fd : Fd) (v : LuaString) : PData :=
  { d with fds := Function.update d.fds fd (some v) }

def World.setProc (w : World) (pid : Pid) (d : PData) : World :=
  { w with pd := Function.update w.pd pid (some d) }

/-- `pd[ pid ]`, on which every handler starts. -/
def withProc (w : World) (pid : Pid) (k : PData → Except LuaError World) :
    Except LuaError World :=
  match w.pd pid with
  | none => .error .indexNil
  | some d => k d

section Handlers

variable (ape : Ape)

def open_ (w : World) (pid : Pid) (name : LuaString) (dir : Dir) (fd : Fd) :
    Except LuaError World :=
  withProc w pid fun d =>
    let path := getPath ape d.cwd name
    .ok ({ w with td := w.td.opened path dir }.setProc pid (d.setFd fd (path.getD name)))

def openat (w : World) (pid : Pid) (atfd : Fd) (name : LuaString) (dir : Dir) (fd : Fd) :
    Except LuaError World :=
  withProc w pid fun d =>
    let path := getPathat ape d atfd name
    .ok ({ w with td := w.td.opened path dir }.setProc pid (d.setFd fd (path.getD name)))

def creat (w : World) (pid : Pid) (name : LuaString) (fd : Fd) : Except LuaError World :=
  withProc w pid fun d =>
    let path := getPath ape d.cwd name
    let td := match path with
      | none => w.td
      | some p => w.td.setOutput p
    .ok ({ w with td := td }.setProc pid (d.setFd fd (path.getD name)))

def exec (w : World) (pid : Pid) (prog : LuaString) : Except LuaError World :=
  if prog ≠ ape.basename prog then
    withProc w pid fun d =>
      match getPath ape d.cwd prog with
      | none => .ok w
      | some progpath => .ok { w with td := w.td.setInput progpath }
  else .ok w

def chdir (w : World) (pid : Pid) (name : LuaString) : Except LuaError World :=
  withProc w pid fun d =>
    let path := getPath ape d.cwd name
    .ok (w.setProc pid { d with cwd := path.getD name })

/-- The nested call goes through `checked`, which handles it at once: `pid` is registered. -/
def fchdir (w : World) (pid : Pid) (fd : Fd) : Except LuaError World :=
  withProc w pid fun d =>
    match d.fds fd with
    | none => .ok w
    | some name => chdir ape w pid name

def mkdir (w : World) (pid : Pid) (name : LuaString) : Except LuaError World :=
  withProc w pid fun d =>
    match getPath ape d.cwd name with
    | none => .ok w
    | some path => .ok { w with td := w.td.setOutput path }

def mkdirat (w : World) (pid : Pid) (atfd : Fd) (name : LuaString) : Except LuaError World :=
  withProc w pid fun d =>
    match getPathat ape d atfd name with
    | none => .ok w
    | some path => .ok { w with td := w.td.setOutput path }

/-- The copy of the process data; the replay that follows it is `Generic.replay`. -/
def fork (w : World) (ppid cpid : Pid) : Except LuaError World :=
  withProc w ppid fun ppdata => .ok (w.setProc cpid ppdata)

/-- `td.output[ fpath ] = nil` raises when `fpath` is `nil`. -/
def rename (w : World) (pid : Pid) (src dst : LuaString) : Except LuaError World :=
  withProc w pid fun d =>
    let fpath := getPath ape d.cwd src
    let tpath := getPath ape d.cwd dst
    let td := match fpath with
      | none => w.td
      | some f => w.td.setInput f
    match tpath with
    | none => .ok { w with td := td }
    | some t =>
        match fpath with
        | none => .error .nilKey
        | some f => .ok { w with td := (td.clearOutput f).setOutput t }

def renameat (w : World) (pid : Pid) (atfd : Fd) (src : LuaString) (atfd2 : Fd)
    (dst : LuaString) : Except LuaError World :=
  withProc w pid fun d =>
    let fpath := getPathat ape d atfd src
    let tpath := getPathat ape d atfd2 dst
    let td := match fpath with
      | none => w.td
      | some f => w.td.setInput f
    match tpath with
    | none => .ok { w with td := td }
    | some t =>
        let td := match fpath with
          | none => td
          | some f => td.clearOutput f
        .ok { w with td := td.setOutput t }

/-- The handler of an event, without the replay after a fork. -/
def body (w : World) (pid : Pid) : Event → Except LuaError World
  | .open_ name dir fd => open_ ape w pid name dir fd
  | .openat atfd name dir fd => openat ape w pid atfd name dir fd
  | .creat name fd => creat ape w pid name fd
  | .exec prog => exec ape w pid prog
  | .chdir name => chdir ape w pid name
  | .fchdir fd => fchdir ape w pid fd
  | .mkdir name => mkdir ape w pid name
  | .mkdirat atfd name => mkdirat ape w pid atfd name
  | .fork cpid => fork w pid cpid
  | .rename src dst => rename ape w pid src dst
  | .renameat atfd src atfd2 dst => renameat ape w pid atfd src atfd2 dst

/-- The process a fork event announces. -/
def Event.announces : Event → Option Pid
  | .fork cpid => some cpid
  | _ => none

/-- The trackers as a machine with a delay queue. -/
def machine : Machine Pid Event World LuaError where
  known w p := (w.pd p).isSome
  announces := Event.announces
  body := body ape

end Handlers

/-- `finish`: the hashes that the old record has for the new inputs are kept. -/
def finishInput {K : Type} [DecidableEq K] (old new : Table K) : Table K :=
  new.mapVals fun k v =>
    match old.lookup k with
    | some h => if truthy (some h) then h else v
    | none => v

end Buildsh.Base
