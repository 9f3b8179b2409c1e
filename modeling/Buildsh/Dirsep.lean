/-
  `ape_extra.c`: `find_dirsep`, and what `ape.dirname` and `ape.basename` make of it.

  Both scans of `find_dirsep` go backwards. A length is a `Nat` that is matched before it is
  decremented, as every decrement in the code stands behind a test of `len > 0`, and every
  character is read with its bound (`path[ i ]?`): the result is `none` if one lies outside.
  `findDirsep_eq` says where the scans stop: behind the part in front of the last run of
  separators, and behind this run.
-/
import Mathlib.Data.List.DropRight
import Buildsh.Apr
import Buildsh.Clone

namespace Buildsh.Dirsep
open Buildsh.Generic Buildsh.Base Buildsh.Apr Buildsh.Clone

/-! ## `find_dirsep` -/

/-- What is no separator. -/
def inName (sep : Char → Bool) (c : Char) : Bool := !sep c

section Scan

variable (dirsep : Char)

/-- `path[ i ] == '/' || (have_sep && !strncmp( path+i, LUA_DIRSEP, DIRSEPLEN ))` -/
def isSep (c : Char) : Bool := c = '/' ∨ dirsep ≠ '/' ∧ c = dirsep

/-- The loop that removes all trailing separators; `len` afterwards. -/
def skipSeps (path : List Char) : Nat → Option Nat
  | 0 => some 0
  | len + 1 =>
      match path[len]? with
      | none => none
      | some c => if isSep dirsep c then skipSeps path len else some (len + 1)

/-- Where the returned pointer and `*basename` point to. -/
def findDirsep (path : List Char) : Nat → Option (Nat × Nat)
  | 0 => some (0, 0)
  | len + 1 =>
      match path[len]? with
      | none => none
      | some c =>
          if isSep dirsep c then (skipSeps dirsep path len).map fun d => (d, len + 1)
          else findDirsep path len

variable {dirsep} {path : List Char} {len : Nat}

theorem take_succ_eq (h : len < path.length) :
    path.take (len + 1) = path.take len ++ [path[len]] := by
  rw [List.take_add_one, List.getElem?_eq_getElem h]
  rfl

theorem skipSeps_eq (h : len ≤ path.length) :
    skipSeps dirsep path len = some ((path.take len).rdropWhile (isSep dirsep)).length := by
  induction len with
  | zero => rfl
  | succ len ih =>
      rw [skipSeps, List.getElem?_eq_getElem h, take_succ_eq h]
      dsimp only
      by_cases hc : isSep dirsep path[len] = true
      · rw [if_pos hc, List.rdropWhile_concat_pos _ _ _ hc]
        exact ih (by omega)
      · rw [if_neg hc, List.rdropWhile_concat_neg _ _ _ hc, List.length_append,
          List.length_take_of_le (by omega)]
        rfl

/-- **The two scans.** No character outside `path` is read. -/
theorem findDirsep_eq (h : len ≤ path.length) :
    findDirsep dirsep path len =
      some ((((path.take len).rdropWhile (inName (isSep dirsep))).rdropWhile (isSep dirsep)).length,
        ((path.take len).rdropWhile (inName (isSep dirsep))).length) := by
  induction len with
  | zero => rfl
  | succ len ih =>
      rw [findDirsep, List.getElem?_eq_getElem h, take_succ_eq h]
      dsimp only
      by_cases hc : isSep dirsep path[len] = true
      · have hne : ¬ inName (isSep dirsep) path[len] = true := by simp [inName, hc]
        rw [if_pos hc, skipSeps_eq (by omega), List.rdropWhile_concat_neg _ _ _ hne,
          List.rdropWhile_concat_pos _ _ _ hc, List.length_append,
          List.length_take_of_le (by omega)]
        rfl
      · have hpos : inName (isSep dirsep) path[len] = true := by simp [inName, hc]
        rw [if_neg hc, List.rdropWhile_concat_pos _ _ _ hpos]
        exact ih (by omega)

end Scan

/-! ## The decomposition -/

/-- `p` is `d`, a run of separators that cannot be made longer, and `b`. -/
structure Decomposes (sep : Char → Bool) (p d s b : List Char) : Prop where
  join : p = d ++ (s ++ b)
  run : ∀ c ∈ s, sep c = true
  base : ∀ c ∈ b, sep c = false
  dir : ∀ c ∈ d.getLast?, sep c = false
  alone : s = [] → (∀ c ∈ p, sep c = false) ∧ d = [] ∧ b = p

theorem decomposes_rdropWhile (sep : Char → Bool) (p : List Char) :
    Decomposes sep p ((p.rdropWhile (inName sep)).rdropWhile sep)
      ((p.rdropWhile (inName sep)).rtakeWhile sep) (p.rtakeWhile (inName sep)) := by
  have hjoin : p = (p.rdropWhile (inName sep)).rdropWhile sep ++
      ((p.rdropWhile (inName sep)).rtakeWhile sep ++ p.rtakeWhile (inName sep)) := by
    rw [← List.append_assoc, List.rdropWhile_append_rtakeWhile,
      List.rdropWhile_append_rtakeWhile]
  have hbase : ∀ c ∈ p.rtakeWhile (inName sep), sep c = false := fun c hc => by
    simpa [inName] using List.mem_rtakeWhile_imp hc
  refine ⟨hjoin, fun c hc => List.mem_rtakeWhile_imp hc, hbase, fun c hc => ?_, fun hs => ?_⟩
  · obtain ⟨hne, hlast⟩ := List.mem_getLast?_eq_getLast hc
    have hnot := List.rdropWhile_last_not sep (p.rdropWhile (inName sep)) hne
    rwa [← hlast, Bool.not_eq_true] at hnot
  · -- a name that does not end in a separator after the first scan is empty
    have hnil : p.rdropWhile (inName sep) = [] := by
      by_contra hne
      have hsep := List.rdropWhile_last_not (inName sep) p hne
      have hnot := (List.rtakeWhile_eq_nil_iff ..).mp hs hne
      simp only [inName, Bool.not_eq_true', Bool.not_eq_false] at hsep
      exact hnot hsep
    have hp : p.rtakeWhile (inName sep) = p := by
      have h : p.rdropWhile (inName sep) ++ p.rtakeWhile (inName sep) = p :=
        List.rdropWhile_append_rtakeWhile
      rwa [hnil, List.nil_append] at h
    refine ⟨fun c hc => hbase c (hp.symm ▸ hc), ?_, hp⟩
    rw [hnil, List.rdropWhile_nil]

/-- What the two pointers of `find_dirsep` cut a path into. -/
theorem decomposes_findDirsep (dirsep : Char) (path : List Char) :
    ∃ d s b, findDirsep dirsep path path.length = some (d.length, d.length + s.length) ∧
      Decomposes (isSep dirsep) path d s b := by
  refine ⟨_, _, _, ?_, decomposes_rdropWhile (isSep dirsep) path⟩
  rw [findDirsep_eq (le_refl _), List.take_length, ← List.length_append,
    List.rdropWhile_append_rtakeWhile]

/-! ## `ape.dirname` and `ape.basename` -/

/-- What C reads of a Lua string. -/
def cString (s : LuaString) : LuaString := s.takeWhile (· ≠ NUL)

/-- The first suffix that the name ends in is cut off. -/
def cutSuffix (bn : LuaString) : List LuaString → LuaString
  | [] => bn
  | suffix :: l =>
      if suffix.length ≤ bn.length ∧ bn.drop (bn.length - suffix.length) = suffix then
        bn.take (bn.length - suffix.length)
      else cutSuffix bn l

section Lua

variable (ape : Ape)

def basename (path : LuaString) (suffixes : List LuaString) : LuaString :=
  cutSuffix (ape.basename (cString path)) suffixes

/-- On Unix `apr_filepath_root` cuts off all slashes that a path starts with. `none` if a
    character outside the path is read, or if there is no result. -/
def dirname (path : LuaString) : Option LuaString :=
  let path := cString path
  match ape.filepathRoot path with
  | none => (findDirsep ape.dirsep path path.length).map fun found => path.take found.1
  | some root =>
      let path := path.dropWhile (· = '/')
      (findDirsep ape.dirsep path path.length).bind fun found =>
        ape.filepathMerge root (path.take found.1)

end Lua

/-- What is relied on of APR on Unix: `apr_filepath_name_get` returns what is behind the last
    slash, and `apr_filepath_root` finds no root in a relative name. -/
structure UnixNames (ape : Ape) : Prop where
  dirsep : ape.dirsep = '/'
  name_get : ∀ d b, '/' ∉ b → ape.basename (d ++ '/' :: b) = b
  name_get_plain : ∀ b, '/' ∉ b → ape.basename b = b
  root : ∀ p, isAbs p = false → ape.filepathRoot p = none

theorem unixNames_unixApe (start : LuaString) : UnixNames (unixApe start) where
  dirsep := rfl
  name_get d b hb := by
    have hlast : (segments (d ++ '/' :: b)).getLast? = some b := by
      rw [segments, List.splitOn_append_cons_self, ← segments, ← segments,
        segments_of_not_mem hb, List.getLast?_concat]
    rwa [List.getLast?_eq_some_getLast (segments_ne_nil _), Option.some.injEq] at hlast
  name_get_plain b hb := by
    have hlast : (segments b).getLast? = some b := by
      rw [segments_of_not_mem hb]
      rfl
    rwa [List.getLast?_eq_some_getLast (segments_ne_nil _), Option.some.injEq] at hlast
  root p hp := by
    change (if isAbs p = true then some ['/'] else none) = none
    rw [hp]
    rfl

/-- `apr_filepath_name_get` cuts where `find_dirsep` does. -/
theorem basename_of_decomposes {ape : Ape} (hape : UnixNames ape) {p d s b : List Char}
    (h : Decomposes (isSep '/') p d s b) : ape.basename p = b := by
  have hb : '/' ∉ b := fun hm => absurd (h.base _ hm) (by decide)
  rcases List.eq_nil_or_concat s with rfl | ⟨t, c, rfl⟩
  · obtain ⟨-, -, rfl⟩ := h.alone rfl
    exact hape.name_get_plain b hb
  · have hc : c = '/' := by simpa [isSep] using h.run c (by simp)
    have hp : p = (d ++ t) ++ '/' :: b := by
      rw [h.join, hc]
      simp
    rw [hp]
    exact hape.name_get (d ++ t) b hb

/-- **Splitting a path.** `find_dirsep` decomposes every path, and on Unix `ape.basename` and
    `ape.dirname` split it at the same place. -/
theorem split_path (dirsep : Char) (s : LuaString) :
    ∃ d seps b, findDirsep dirsep (cString s) (cString s).length =
        some (d.length, d.length + seps.length) ∧
      Decomposes (isSep dirsep) (cString s) d seps b ∧
      ∀ ape : Ape, ape.dirsep = dirsep → UnixNames ape →
        basename ape s [] = b ∧ (isAbs (cString s) = false → dirname ape s = some d) := by
  obtain ⟨d, seps, b, hfind, hd⟩ := decomposes_findDirsep dirsep (cString s)
  refine ⟨d, seps, b, hfind, hd, ?_⟩
  rintro ape rfl hape
  refine ⟨?_, fun habs => ?_⟩
  · rw [hape.dirsep] at hd
    exact basename_of_decomposes hape hd
  · have htake : (cString s).take d.length = d := by
      conv_lhs => rw [hd.join]
      exact List.take_left
    unfold dirname
    dsimp only
    rw [hape.root _ habs, hfind, Option.map_some, htake]

theorem split_path_main :
    ∃ d seps b : LuaString, "src//main.c".toList = d ++ (seps ++ b) ∧
      basename (unixApe "/p".toList) "src//main.c".toList [] = b ∧
      dirname (unixApe "/p".toList) "src//main.c".toList = some d := by
  obtain ⟨d, seps, b, -, hd, hape⟩ := split_path '/' "src//main.c".toList
  obtain ⟨hbase, hdir⟩ := hape (unixApe "/p".toList) rfl (unixNames_unixApe _)
  exact ⟨d, seps, b, hd.join, hbase, hdir (by decide)⟩

end Buildsh.Dirsep
