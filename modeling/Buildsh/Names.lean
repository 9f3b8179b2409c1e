/-
  Names, keys and the files they stand for, on Unix.

  `relative_key_iff`: the key of a relative name stands for the file the process accessed,
  unless the climbs of the name drop a `.` or an empty segment of the current directory
  (`wasted`). A key is a name relative to the directory buildsh was started in, and the current
  directory of a process starts as `.`, so the first climb out of it is lost.
-/
import Buildsh.Trace
import Mathlib.Data.List.DropRight

namespace Buildsh.Names
open Buildsh.Generic Buildsh.Base Buildsh.Trace Buildsh.Apr

/-! ## Keys of relative names -/

/-- How many levels a name climbs before it goes down. -/
def climbs (name : LuaString) : Nat := (Place.plain (segments name)).ups

/-- The segments of directory `cwd`, innermost first. -/
def dirStack (cwd : LuaString) : List Seg := (stem cwd).reverse

theorem place_eq_dirStack (cwd : LuaString) : place cwd = stackPlace (dirStack cwd) :=
  place_eq_stackPlace cwd

theorem getPath_relative (start cwd : LuaString) {name : LuaString} (h : isAbs name = false) :
    getPath (unixApe start) cwd name = some (filepathMerge cwd name) := by
  unfold getPath unixApe
  simp [h]

theorem mergeSegs_relative (cwd : LuaString) {name : LuaString} (h : isAbs name = false) :
    mergeSegs cwd name =
      (Place.plain (segments name)).names ++ backpath^[climbs name] (dirStack cwd) := by
  rw [mergeSegs_eq_graft, mergeRoot, h]
  rfl

/-- A merged name is absolute if one of its parts is. -/
theorem isAbs_filepathMerge (root add : LuaString) :
    isAbs (filepathMerge root add) = (isAbs add || isAbs root) := by
  have h₁ : (place (filepathMerge root add)).abs = isAbs (filepathMerge root add) :=
    Place.walk_abs _ _
  rw [← h₁, place_filepathMerge, mergeSegs_eq_graft,
    stackPlace_append (Place.plain (segments add)).names_ok, Place.down_abs, stackPlace_climb,
    Place.up_iterate_abs]
  unfold mergeRoot
  cases ha : isAbs add with
  | true => simp [stackPlace, Place.base]
  | false =>
      have h₂ : (place root).abs = isAbs root := Place.walk_abs _ _
      rw [Bool.false_or, ← h₂, place_eq_stackPlace]
      rfl

/-- Only the segments of the current directory matter. -/
theorem getPath_congr (start : LuaString) {cwd cwd' : LuaString} (h : stem cwd = stem cwd')
    (name : LuaString) : getPath (unixApe start) cwd name = getPath (unixApe start) cwd' name := by
  have hm : filepathMerge cwd name = filepathMerge cwd' name := by
    unfold filepathMerge mergeRoot
    rw [h]
  unfold getPath unixApe
  simp [hm]

/-- What is left of `name` behind the start directory. -/
def relName (start name : LuaString) : LuaString :=
  (name.drop start.length).dropWhile (· = '/')

theorem isAbs_relName (start name : LuaString) : isAbs (relName start name) = false := by
  have h := List.head?_dropWhile_not (fun c => decide (c = '/')) (name.drop start.length)
  unfold isAbs relName
  cases hh : ((name.drop start.length).dropWhile (fun c => decide (c = '/'))).head? with
  | none => simp
  | some c =>
      rw [hh] at h
      simpa using h

theorem take_eq_iff_prefix (start name : LuaString) :
    (start.length ≤ name.length ∧ name.take start.length = start) ↔ start <+: name := by
  rw [List.prefix_iff_eq_take]
  constructor
  · exact fun hp => hp.2.symm
  · intro hp
    refine ⟨?_, hp.symm⟩
    have := congrArg List.length hp
    rw [List.length_take] at this
    omega

theorem getPath_absolute (start cwd : LuaString) {name : LuaString} (h : isAbs name = true) :
    getPath (unixApe start) cwd name =
      if start <+: name then some (filepathMerge ['.'] (relName start name)) else none := by
  unfold getPath unixApe
  simp only [h, if_true, id_eq, take_eq_iff_prefix, relName, List.dropWhile_idempotent]

/-- Where the key of a relative name leads. -/
theorem place_key (cwd : LuaString) {name : LuaString} (h : isAbs name = false) :
    place (filepathMerge cwd name) =
      (Place.up^[climbs name - wasted (dirStack cwd) (climbs name)] (place cwd)).down
        (Place.plain (segments name)).names := by
  rw [place_filepathMerge, mergeSegs_relative cwd h,
    stackPlace_append (Place.plain (segments name)).names_ok, stackPlace_climb, place_eq_dirStack]

/-- The climbs of `name` drop no `.` and no empty segment of `cwd`, or they reach the root
    anyway. -/
def ClimbsRight (cwd name : LuaString) : Prop :=
  wasted (dirStack cwd) (climbs name) = 0 ∨
    (isAbs cwd = true ∧
      (place cwd).names.length + wasted (dirStack cwd) (climbs name) ≤ climbs name)

theorem place_key_iff (cwd : LuaString) {name : LuaString} (h : isAbs name = false) :
    place (filepathMerge cwd name) = (place cwd).walk (segments name) ↔ ClimbsRight cwd name := by
  have hle := wasted_le (dirStack cwd) (climbs name)
  have hup := Place.up_iterate_eq_iff (Nat.sub_le (climbs name)
    (wasted (dirStack cwd) (climbs name))) (place cwd)
  have habs : (place cwd).abs = isAbs cwd := Place.walk_abs _ _
  rw [place_key cwd h, Place.walk_eq_graft]
  constructor
  · intro heq
    rcases hup.mp (Place.down_injective (Place.plain (segments name)).names_ok heq) with h | ⟨ha, h⟩
    · exact Or.inl (by omega)
    · exact Or.inr ⟨by rw [← habs]; exact ha, by omega⟩
  · rintro (h | ⟨ha, h⟩)
    · rw [h, Nat.sub_zero]
      rfl
    · rw [hup.mpr (Or.inr ⟨by rw [habs]; exact ha, by omega⟩)]
      rfl

/-- The directory a process is in after a chain of `chdir`s from `dir`. -/
def cwdAfter (ape : Ape) (dir : LuaString) (names : List LuaString) : LuaString :=
  (names.foldl (fun d name => nextData ape d (.chdir name)) ⟨dir, fun _ => none⟩).cwd

/-- **Keys of relative names.** From the directory that any `chdir`s have led to, the key of a
    relative name stands for the file that the name leads to from this directory, exactly when
    the climbs of the name are right. -/
theorem relative_key_iff (start dir : LuaString) (names : List LuaString) {name : LuaString}
    (h : isAbs name = false) :
    (∃ key, getPath (unixApe start) (cwdAfter (unixApe start) dir names) name = some key ∧
      place key = (place (cwdAfter (unixApe start) dir names)).walk (segments name)) ↔
      ClimbsRight (cwdAfter (unixApe start) dir names) name := by
  rw [getPath_relative start _ h, ← place_key_iff _ h]
  simp

theorem relative_key_iff_sub :
    (∃ key, getPath (unixApe "/p".toList) (cwdAfter (unixApe "/p".toList) ".".toList
        ["sub".toList]) "../x".toList = some key ∧
      place key = (place (cwdAfter (unixApe "/p".toList) ".".toList ["sub".toList])).walk
        (segments "../x".toList)) ↔
      ClimbsRight (cwdAfter (unixApe "/p".toList) ".".toList ["sub".toList]) "../x".toList :=
  relative_key_iff "/p".toList ".".toList ["sub".toList] (by decide)

/-- Above the directory buildsh was started in: `../x` gets the key `x`. -/
theorem relative_key_above :
    ¬ ∀ (start dir : LuaString) (names : List LuaString) (name : LuaString),
        (∀ n ∈ names, isAbs n = false) → isAbs name = false →
        ∃ key, getPath (unixApe start) (cwdAfter (unixApe start) dir names) name = some key ∧
          place key = (place (cwdAfter (unixApe start) dir names)).walk (segments name) := by
  intro h
  obtain ⟨key, hkey, hplace⟩ := h "/p".toList ".".toList [] "../x".toList (by simp) (by decide)
  have hx : getPath (unixApe "/p".toList) (cwdAfter (unixApe "/p".toList) ".".toList [])
      "../x".toList = some "x".toList := by decide
  rw [hx, Option.some.injEq] at hkey
  rw [← hkey] at hplace
  exact absurd hplace (by decide)

end Buildsh.Names
