/-
  `get_path` on absolute names.

  An absolute name gets a key when the start directory is a prefix of it, character by character.
  `recognises_iff`: these are the names that lead into the start directory, but for one kind of
  name. `/px/f` begins with `/p` and does not lie in `/p`.

  The library is a parameter. `Posix` is what `get_path` relies on.
-/
import Buildsh.Outputs

namespace Buildsh.Membership
open Buildsh.Generic Buildsh.Base Buildsh.Apr Buildsh.Names Buildsh.Outputs

/-! ## Absolute names in normal form -/

/-- No `.`, no `..`, no doubled '/' and none at the end. -/
def IsNormal (s : LuaString) : Prop :=
  isAbs s = true ∧ (s = ['/'] ∨ ∀ x ∈ (segments s).tail, isName x = true)

instance (s : LuaString) : Decidable (IsNormal s) := inferInstanceAs (Decidable (_ ∧ _))

/-- The name of a path from the root. -/
def absolute (p : List FileName) : LuaString := '/' :: spelled p

theorem isAbs_absolute (p : List FileName) : isAbs (absolute p) = true := by
  unfold isAbs absolute
  simp

theorem segments_append_slash (a b : LuaString) :
    segments (a ++ '/' :: b) = segments a ++ segments b := by
  induction a with
  | nil =>
      rw [List.nil_append, segments_cons, if_pos rfl]
      rfl
  | cons c a ih =>
      rw [List.cons_append, segments_cons, segments_cons, ih]
      by_cases hc : c = '/'
      · rw [if_pos hc, if_pos hc, List.cons_append]
      · rw [if_neg hc, if_neg hc]
        obtain ⟨x, xs, hxs⟩ := List.exists_cons_of_ne_nil (segments_ne_nil a)
        rw [hxs]
        rfl

theorem segments_injective {a b : LuaString} (h : segments a = segments b) : a = b := by
  calc a = ['/'].intercalate (segments a) := (List.intercalate_splitOn '/').symm
    _ = ['/'].intercalate (segments b) := by rw [h]
    _ = b := List.intercalate_splitOn '/'

theorem segments_absolute {p : List FileName} (h : p ≠ []) :
    segments (absolute p) = [] :: p.map (·.1) := by
  unfold absolute
  rw [segments_cons, if_pos rfl, segments_spelled h]

theorem exists_absolute {s : LuaString} (h : IsNormal s) : ∃ p, s = absolute p := by
  obtain ⟨habs, hs⟩ := h
  cases s with
  | nil => cases habs
  | cons c t =>
      have hc : c = '/' := by simpa [isAbs] using habs
      subst hc
      rcases hs with hs | hs
      · exact ⟨[], hs⟩
      · rw [segments_cons, if_pos rfl, List.tail_cons] at hs
        refine ⟨(segments t).attach.map fun x => ⟨x.1, hs x.1 x.2, not_mem_of_mem_segments x.2⟩, ?_⟩
        have ht : ['/'].intercalate (segments t) = t := List.intercalate_splitOn '/'
        unfold absolute spelled
        rw [List.map_map]
        change '/' :: t = '/' :: ['/'].intercalate ((segments t).attach.map Subtype.val)
        rw [List.attach_map_subtype_val, ht]

/-- The names on the way from the root. -/
def components (s : LuaString) : List Seg := (place s).names.reverse

theorem place_absolute (p : List FileName) :
    place (absolute p) = (Place.base true).walk (p.map (·.1)) := by
  unfold place
  rw [isAbs_absolute, ← walk_spelled]
  unfold absolute
  rw [segments_cons, if_pos rfl]
  rfl

theorem components_absolute (p : List FileName) : components (absolute p) = p.map (·.1) := by
  unfold components
  rw [place_absolute, (Place.walk_names _ fun s hs => isName_of_mem hs).1]
  simp [Place.base]

/-- `p` is the directory `cwd` or lies in it. -/
def Inside (cwd p : LuaString) : Prop := components cwd <+: components p

theorem inside_absolute {d p : List FileName} :
    Inside (absolute d) (absolute p) ↔ ∃ r, p = d ++ r := by
  unfold Inside
  rw [components_absolute, components_absolute]
  constructor
  · intro h
    obtain ⟨t, ht⟩ := h
    obtain ⟨d', r, hp, hd, -⟩ := List.map_eq_append_iff.mp ht.symm
    exact ⟨r, by rw [hp, List.map_injective_iff.mpr Subtype.val_injective hd]⟩
  · rintro ⟨r, rfl⟩
    rw [List.map_append]
    exact List.prefix_append _ _

/-- `p` begins with `cwd` and goes on in the middle of a name. -/
def Extends (cwd p : LuaString) : Prop :=
  cwd ≠ ['/'] ∧ ∃ c r, c ≠ '/' ∧ p = cwd ++ c :: r

theorem absolute_append {d r : List FileName} (hd : d ≠ []) (hr : r ≠ []) :
    absolute (d ++ r) = absolute d ++ '/' :: spelled r := by
  refine segments_injective ?_
  rw [segments_append_slash, segments_absolute (by simp [hd]), segments_absolute hd,
    segments_spelled hr, List.map_append, List.cons_append]

/-- What is left of a name behind the start directory it lies in. -/
theorem relName_absolute (d r : List FileName) :
    absolute d <+: absolute (d ++ r) ∧ relName (absolute d) (absolute (d ++ r)) = spelled r := by
  have hrel : (spelled r).dropWhile (· = '/') = spelled r := by
    have h := isAbs_spelled r
    unfold isAbs at h
    cases hs : spelled r with
    | nil => rfl
    | cons c t =>
        rw [hs] at h
        rw [List.dropWhile_cons_of_neg (by simpa using h)]
  unfold relName
  by_cases hd : d = []
  · subst hd
    exact ⟨List.prefix_append ['/'] (spelled r), hrel⟩
  · by_cases hr : r = []
    · subst hr
      rw [List.append_nil, List.drop_length]
      exact ⟨List.prefix_rfl, rfl⟩
    · rw [absolute_append hd hr, List.drop_left, List.dropWhile_cons_of_pos (by simp)]
      exact ⟨List.prefix_append _ _, hrel⟩

/-- A name that begins with the start directory lies in it, or goes on in the middle of a name. -/
theorem prefix_iff {d p : List FileName} :
    absolute d <+: absolute p ↔
      Inside (absolute d) (absolute p) ∨ Extends (absolute d) (absolute p) := by
  rw [inside_absolute]
  constructor
  · rintro ⟨t, ht⟩
    cases t with
    | nil =>
        rw [List.append_nil] at ht
        exact Or.inl (inside_absolute.mp (ht ▸ List.prefix_rfl))
    | cons c t =>
        by_cases hd : d = []
        · exact Or.inl ⟨p, by rw [hd]; rfl⟩
        · have hroot : absolute d ≠ ['/'] := fun h => by
            have := congrArg components h
            rw [components_absolute] at this
            exact hd (List.map_eq_nil_iff.mp this)
          by_cases hc : c = '/'
          · refine Or.inl (inside_absolute.mp ?_)
            subst hc
            have hp : p ≠ [] := by
              rintro rfl
              have hlen := congrArg List.length ht
              simp [absolute, spelled] at hlen
            have hseg := congrArg segments ht
            rw [segments_append_slash, segments_absolute hd, segments_absolute hp,
              List.cons_append, List.cons.injEq] at hseg
            unfold Inside
            rw [components_absolute, components_absolute, ← hseg.2]
            exact List.prefix_append _ _
          · exact Or.inr ⟨hroot, c, t, hc, ht.symm⟩
  · rintro (⟨r, rfl⟩ | ⟨-, c, r, -, h⟩)
    · exact (relName_absolute d r).1
    · rw [h]
      exact List.prefix_append _ _

theorem not_inside_of_extends {d p : List FileName} (h : Extends (absolute d) (absolute p)) :
    ¬ Inside (absolute d) (absolute p) := by
  rw [inside_absolute]
  rintro ⟨r, rfl⟩
  obtain ⟨hroot, c, t, hc, ht⟩ := h
  have hd : d ≠ [] := by
    rintro rfl
    exact hroot rfl
  by_cases hr : r = []
  · subst hr
    rw [List.append_nil] at ht
    exact absurd (List.self_eq_append_right.mp ht) (List.cons_ne_nil c t)
  · rw [absolute_append hd hr] at ht
    exact hc (List.cons.inj (List.append_cancel_left ht)).1.symm

/-! ## The keys -/

/-- What `get_path` relies on: absolute names are those that start with '/', the start directory
    is `cwd`, a relative name can be merged into `.`, and the result stands for the name. -/
structure Posix (ape : Ape) (cwd : LuaString) : Prop where
  root : ∀ p, (ape.filepathRoot p).isSome = isAbs p
  get : ape.filepathGet = some cwd
  merges : ∀ rel, isAbs rel = false → (ape.filepathMerge ['.'] rel).isSome
  denotes : ∀ (rel : List FileName) (key : LuaString),
    ape.filepathMerge ['.'] (spelled rel) = some key → place key = place (spelled rel)
  sep : ape.dirsep = '/'

theorem posix_unixApe (cwd : LuaString) : Posix (unixApe cwd) cwd where
  root p := by
    unfold unixApe
    dsimp only
    cases isAbs p <;> rfl
  get := rfl
  merges _ _ := rfl
  denotes rel key h := by
    cases h
    rw [show filepathMerge ['.'] (spelled rel) = pathKey rel from rfl, place_pathKey]
    unfold placeOf place
    rw [isAbs_spelled, walk_spelled]
  sep := rfl

variable {ape : Ape} {cwd : LuaString}

theorem getPath_posix (h : Posix ape cwd) (ccwd : LuaString) {p : LuaString}
    (hp : isAbs p = true) :
    getPath ape ccwd p =
      if cwd <+: p then ape.filepathMerge ['.'] (relName cwd p) else none := by
  have hroot := h.root p
  rw [hp] at hroot
  obtain ⟨r, hr⟩ := Option.isSome_iff_exists.mp hroot
  unfold getPath
  rw [hr, h.get, h.sep]
  simp only [id_eq, take_eq_iff_prefix, relName, List.dropWhile_idempotent]

/-- `get_path` recognises the absolute name `p`: it has a key exactly when it lies in the start
    directory, the key stands for `p` from there, and no other directory matters. -/
structure Recognises (ape : Ape) (cwd p : LuaString) : Prop where
  isSome_iff : ∀ ccwd, (getPath ape ccwd p).isSome ↔ Inside cwd p
  denotes : ∀ ccwd key, Inside cwd p → getPath ape ccwd p = some key →
    isAbs key = false ∧ (place cwd).walk (segments key) = place p
  same : ∀ ccwd ccwd', getPath ape ccwd p = getPath ape ccwd' p

/-- The key of a name that lies in the start directory. -/
theorem denotes_of_key {d r : List FileName} (h : Posix ape (absolute d)) {ccwd key : LuaString}
    (hkey : getPath ape ccwd (absolute (d ++ r)) = some key) :
    isAbs key = false ∧
      (place (absolute d)).walk (segments key) = place (absolute (d ++ r)) := by
  obtain ⟨hpre, hrel⟩ := relName_absolute d r
  rw [getPath_posix h ccwd (isAbs_absolute _), if_pos hpre, hrel] at hkey
  have hplace : place key = placeOf r := by
    rw [h.denotes r key hkey]
    unfold placeOf place
    rw [isAbs_spelled, walk_spelled]
  have habs : isAbs key = false := by
    have hk : (place key).abs = isAbs key := Place.walk_abs _ _
    rw [← hk, hplace]
    exact Place.walk_abs _ _
  refine ⟨habs, ?_⟩
  have hplain : Place.plain (segments key) = Place.plain (r.map (·.1)) := by
    unfold place at hplace
    rw [habs] at hplace
    exact hplace
  rw [Place.walk_eq_graft, hplain, ← Place.walk_eq_graft, place_absolute, place_absolute,
    List.map_append, Place.walk_append]

/-- **Absolute names.** -/
theorem recognises_iff (h : Posix ape cwd) (hcwd : IsNormal cwd) {p : LuaString}
    (hp : IsNormal p) : Recognises ape cwd p ↔ ¬ Extends cwd p := by
  obtain ⟨d, rfl⟩ := exists_absolute hcwd
  obtain ⟨q, rfl⟩ := exists_absolute hp
  have hget := fun ccwd => getPath_posix h ccwd (isAbs_absolute q)
  have hsome : ∀ ccwd, (getPath ape ccwd (absolute q)).isSome ↔ absolute d <+: absolute q := by
    intro ccwd
    rw [hget]
    by_cases hpre : absolute d <+: absolute q
    · rw [if_pos hpre]
      exact iff_of_true (h.merges _ (isAbs_relName _ _)) hpre
    · rw [if_neg hpre]
      exact iff_of_false (by simp) hpre
  constructor
  · intro hr hext
    refine not_inside_of_extends hext ((hr.isSome_iff []).mp ((hsome []).mpr ?_))
    exact prefix_iff.mpr (Or.inr hext)
  · intro hext
    refine ⟨fun ccwd => ?_, fun ccwd key hin hkey => ?_, fun ccwd ccwd' => ?_⟩
    · rw [hsome, prefix_iff]
      exact ⟨fun ho => ho.resolve_right hext, Or.inl⟩
    · obtain ⟨r, rfl⟩ := inside_absolute.mp hin
      exact denotes_of_key h hkey
    · rw [hget, hget]

/-- `/p/f` in the project `/p`. -/
theorem recognises_iff_inside :
    Recognises (unixApe "/p".toList) "/p".toList "/p/f".toList ↔
      ¬ Extends "/p".toList "/p/f".toList :=
  recognises_iff (posix_unixApe _) (by decide) (by decide)

/-- `/px/f` gets the key of `/p/x/f`. -/
theorem not_recognises_sibling :
    getPath (unixApe "/p".toList) ".".toList "/px/f".toList = some "./x/f".toList ∧
      ¬ Recognises (unixApe "/p".toList) "/p".toList "/px/f".toList := by
  have hkey : getPath (unixApe "/p".toList) ".".toList "/px/f".toList = some "./x/f".toList := by
    decide
  refine ⟨hkey, fun h => ?_⟩
  have hin : Inside "/p".toList "/px/f".toList :=
    (h.isSome_iff ".".toList).mp (by rw [hkey]; rfl)
  have hnot : ¬ Inside "/p".toList "/px/f".toList := by
    unfold Inside
    decide
  exact hnot hin

end Buildsh.Membership
