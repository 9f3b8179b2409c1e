/-
  Path names, lexically.

  A path name is a list of characters; `segments` cuts it at every '/'. `Place` is where a name
  leads when no symbolic link is followed: from the root or from the place the name is relative
  to, some levels up and then down a list of names. `Place.walk` follows segments, and
  `Place.plain l` is what a relative list of segments amounts to: `(plain l).ups` climbs, then
  the names.

  `foldl_eq_graft`: whatever follows segments one by one, skips the empty ones and `.`, and
  undoes a name at the next `..`, does the climbs first and then the names of `plain l`.
-/
import Mathlib.Data.List.Induction
import Mathlib.Logic.Function.Iterate

namespace Buildsh.Generic

abbrev Seg := List Char

/-! ## Segments -/

def dotdot : Seg := ['.', '.']

/-- The segments that lead nowhere: the empty one and `.`. -/
def isNoop (s : Seg) : Bool := s = [] ∨ s = ['.']

/-- The segments that are neither skipped nor `..`. -/
def isName (s : Seg) : Bool := !isNoop s ∧ s ≠ dotdot

theorem not_isNoop_of_isName {s : Seg} (h : isName s = true) : isNoop s = false := by
  unfold isName at h
  simp only [decide_eq_true_eq, Bool.not_eq_true'] at h
  exact h.1

theorem ne_dotdot_of_isName {s : Seg} (h : isName s = true) : s ≠ dotdot := by
  unfold isName at h
  simp only [decide_eq_true_eq] at h
  exact h.2

theorem ne_nil_of_isName {s : Seg} (h : isName s = true) : s ≠ [] := by
  rintro rfl
  exact absurd h (by decide)

/-- The three kinds of segments. -/
theorem seg_cases (s : Seg) : isNoop s = true ∨ s = dotdot ∨ isName s = true := by
  unfold isName
  by_cases hn : isNoop s = true
  · exact Or.inl hn
  · by_cases hd : s = dotdot
    · exact Or.inr (Or.inl hd)
    · exact Or.inr (Or.inr (by simp [hn, hd]))

/-- The segments of a name. -/
def segments (s : List Char) : List Seg := s.splitOn '/'

/-- Segments, each with a '/' after it. -/
def slashed (l : List Seg) : List Char := l.flatMap (· ++ ['/'])

/-- The segments of a directory name, one '/' at its end not counted. -/
def stem (s : List Char) : List Seg :=
  if (segments s).getLast? = some [] then (segments s).dropLast else segments s

@[simp] theorem slashed_nil : slashed [] = [] := rfl

theorem slashed_cons (x : Seg) (l : List Seg) : slashed (x :: l) = x ++ '/' :: slashed l := by
  simp [slashed]

theorem segments_ne_nil (s : List Char) : segments s ≠ [] := List.splitOn_ne_nil _ _

theorem segments_of_not_mem {s : List Char} (h : '/' ∉ s) : segments s = [s] :=
  List.splitOn_eq_singleton h

theorem segments_slashed_append {l : List Seg} (hl : ∀ x ∈ l, '/' ∉ x) (s : List Char) :
    segments (slashed l ++ s) = l ++ segments s := by
  induction l with
  | nil => rfl
  | cons x l ih =>
      have hx : '/' ∉ x := hl x List.mem_cons_self
      rw [slashed_cons, List.append_assoc, List.cons_append]
      unfold segments at ih ⊢
      rw [List.splitOn_append_cons_self_of_not_mem hx,
        ih fun y hy => hl y (List.mem_cons_of_mem _ hy), List.cons_append]

/-- No segment has a '/' in it. -/
theorem not_mem_of_mem_segments {s : List Char} {x : Seg} (h : x ∈ segments s) : '/' ∉ x := by
  induction s generalizing x with
  | nil =>
      rw [segments, List.splitOn_nil, List.mem_singleton] at h
      simp [h]
  | cons c s ih =>
      unfold segments at h ih
      rw [List.splitOn_cons_eq_if_modifyHead] at h
      by_cases hc : c = '/'
      · simp only [hc, beq_self_eq_true, if_true, List.mem_cons] at h
        rcases h with rfl | h
        · simp
        · exact ih h
      · have hc' : (c == '/') = false := by simpa using hc
        rw [hc'] at h
        cases hs : List.splitOn '/' s with
        | nil => exact absurd hs (List.splitOn_ne_nil _ _)
        | cons y ys =>
            rw [hs] at h ih
            simp only [Bool.false_eq_true, if_false, List.modifyHead_cons, List.mem_cons] at h
            rcases h with rfl | h
            · have := ih List.mem_cons_self
              simp [this, Ne.symm hc]
            · exact ih (List.mem_cons_of_mem _ h)

theorem mem_stem {s : List Char} {x : Seg} (h : x ∈ stem s) : x ∈ segments s := by
  unfold stem at h
  split at h
  · exact (List.dropLast_sublist _).subset h
  · exact h

theorem stem_slashed {l : List Seg} (hl : ∀ x ∈ l, '/' ∉ x) : stem (slashed l) = l := by
  have h := segments_slashed_append hl []
  rw [List.append_nil, show segments [] = [[]] from rfl] at h
  unfold stem
  rw [h]
  simp

theorem stem_slashed_append {l : List Seg} (hl : ∀ x ∈ l, '/' ∉ x) {s : Seg} (hs : '/' ∉ s)
    (hne : s ≠ []) : stem (slashed l ++ s) = l ++ [s] := by
  unfold stem
  rw [segments_slashed_append hl, segments_of_not_mem hs, List.getLast?_append]
  simp [hne]

/-! ## Places -/

/-- Does a name start at the root? -/
def isAbs (s : List Char) : Bool := s.head? = some '/'

/-- Where a name leads: `ups` levels up from the start, unless it is absolute, and then down
    `names`, innermost first. -/
structure Place where
  abs : Bool
  ups : Nat
  names : List Seg
  names_ok : ∀ s ∈ names, isName s = true
  ups_abs : abs = true → ups = 0

namespace Place

@[ext] theorem ext {x y : Place} (ha : x.abs = y.abs) (hu : x.ups = y.ups)
    (hn : x.names = y.names) : x = y := by
  cases x; cases y; cases ha; cases hu; cases hn; rfl

instance : DecidableEq Place := fun x y =>
  decidable_of_iff (x.abs = y.abs ∧ x.ups = y.ups ∧ x.names = y.names)
    ⟨fun h => ext h.1 h.2.1 h.2.2, fun h => h ▸ ⟨rfl, rfl, rfl⟩⟩

/-- The root, or the place names are relative to. -/
def base (abs : Bool) : Place := ⟨abs, 0, [], by simp, fun _ => rfl⟩

/-- One level up; the root is above itself. -/
def up (pl : Place) : Place :=
  match h : pl.names with
  | [] =>
      if ha : pl.abs = true then pl
      else ⟨pl.abs, pl.ups + 1, [], by simp, fun h => absurd h ha⟩
  | _ :: r =>
      ⟨pl.abs, pl.ups, r, fun s hs => pl.names_ok s (by rw [h]; exact List.mem_cons_of_mem _ hs),
        pl.ups_abs⟩

/-- Follow one segment. -/
def step (pl : Place) (s : Seg) : Place :=
  if isNoop s = true then pl
  else if h : isName s = true then
    ⟨pl.abs, pl.ups, s :: pl.names, by
      intro x hx
      rcases List.mem_cons.mp hx with rfl | hx
      · exact h
      · exact pl.names_ok x hx, pl.ups_abs⟩
  else pl.up

/-- Follow segments. -/
def walk (pl : Place) (l : List Seg) : Place := l.foldl step pl

/-- What segments amount to, seen from where they start. -/
def plain (l : List Seg) : Place := walk (base false) l

end Place

/-- Where a name leads. -/
def place (s : List Char) : Place := (Place.base (isAbs s)).walk (segments s)

namespace Place

theorem step_noop (pl : Place) {s : Seg} (h : isNoop s = true) : pl.step s = pl := if_pos h

theorem walk_dot (pl : Place) : pl.walk [['.']] = pl :=
  step_noop pl (s := ['.']) (by decide)

theorem step_dotdot (pl : Place) : pl.step dotdot = pl.up := by
  unfold step
  rw [if_neg (by decide), dif_neg (by decide)]

theorem step_names (pl : Place) {s : Seg} (h : isName s = true) :
    (pl.step s).names = s :: pl.names := by
  unfold step
  rw [if_neg (by simp [not_isNoop_of_isName h]), dif_pos h]

theorem step_name_ups (pl : Place) {s : Seg} (h : isName s = true) :
    (pl.step s).ups = pl.ups := by
  unfold step
  rw [if_neg (by simp [not_isNoop_of_isName h]), dif_pos h]

@[simp] theorem up_abs (pl : Place) : pl.up.abs = pl.abs := by
  unfold up
  split
  · split <;> rfl
  · rfl

@[simp] theorem step_abs (pl : Place) (s : Seg) : (pl.step s).abs = pl.abs := by
  unfold step
  split
  · rfl
  · split
    · rfl
    · exact up_abs pl

@[simp] theorem walk_abs (pl : Place) (l : List Seg) : (pl.walk l).abs = pl.abs := by
  unfold walk
  induction l generalizing pl with
  | nil => rfl
  | cons s l ih => rw [List.foldl_cons, ih, step_abs]

theorem up_names_cons {pl : Place} {s : Seg} {r : List Seg} (h : pl.names = s :: r) :
    pl.up.names = r ∧ pl.up.ups = pl.ups := by
  unfold up
  split
  · rename_i h'; rw [h] at h'; cases h'
  · rename_i h'; rw [h] at h'; cases h'; exact ⟨rfl, rfl⟩

theorem up_names_nil {pl : Place} (h : pl.names = []) :
    pl.up.names = [] ∧ pl.up.ups = if pl.abs = true then 0 else pl.ups + 1 := by
  unfold up
  split
  · split
    · rename_i ha
      exact ⟨h, pl.ups_abs ha⟩
    · exact ⟨rfl, rfl⟩
  · rename_i h'; rw [h] at h'; cases h'

/-- A name and a climb cancel. -/
theorem up_step (pl : Place) {s : Seg} (h : isName s = true) : (pl.step s).up = pl := by
  have hn := up_names_cons (step_names pl h)
  refine ext ?_ ?_ hn.1
  · rw [up_abs, step_abs]
  · rw [hn.2, step_name_ups pl h]

theorem walk_append (pl : Place) (l r : List Seg) :
    pl.walk (l ++ r) = (pl.walk l).walk r := List.foldl_append

theorem plain_snoc (l : List Seg) (s : Seg) : plain (l ++ [s]) = (plain l).step s :=
  walk_append _ l [s]

@[simp] theorem plain_abs (l : List Seg) : (plain l).abs = false := walk_abs _ l

/-- Whatever skips the segments that lead nowhere and lets `..` undo a name does, on a list of
    segments, its climbs and then its names. -/
theorem foldl_eq_graft {σ : Type} (f : σ → Seg → σ)
    (hnoop : ∀ x s, isNoop s = true → f x s = x)
    (hundo : ∀ x s, isName s = true → f (f x s) dotdot = x) (l : List Seg) (x : σ) :
    l.foldl f x =
      (plain l).names.foldr (fun s y => f y s) ((fun y => f y dotdot)^[(plain l).ups] x) := by
  induction l using List.reverseRecOn with
  | nil => rfl
  | append_singleton l s ih =>
      rw [List.foldl_append, List.foldl_cons, List.foldl_nil, ih, plain_snoc]
      rcases seg_cases s with hs | rfl | hs
      · rw [hnoop _ s hs, step_noop _ hs]
      · rw [step_dotdot]
        cases hn : (plain l).names with
        | nil =>
            obtain ⟨h₁, h₂⟩ := up_names_nil hn
            rw [plain_abs, if_neg (by decide)] at h₂
            rw [h₁, h₂, List.foldr_nil, List.foldr_nil, Function.iterate_succ_apply']
        | cons r names =>
            obtain ⟨h₁, h₂⟩ := up_names_cons hn
            have hr : isName r = true := (plain l).names_ok r (by rw [hn]; exact List.mem_cons_self)
            rw [h₁, h₂, List.foldr_cons, hundo _ r hr]
      · rw [step_names _ hs, step_name_ups _ hs, List.foldr_cons]

/-- Down a list of names, innermost first. -/
def down (pl : Place) (names : List Seg) : Place := names.foldr (fun s y => y.step s) pl

@[simp] theorem down_abs (pl : Place) (names : List Seg) : (pl.down names).abs = pl.abs := by
  induction names with
  | nil => rfl
  | cons s names ih => exact (step_abs _ s).trans ih

theorem down_names (pl : Place) {names : List Seg} (h : ∀ s ∈ names, isName s = true) :
    (pl.down names).names = names ++ pl.names := by
  induction names with
  | nil => rfl
  | cons s names ih =>
      have ih' := ih fun r hr => h r (List.mem_cons_of_mem _ hr)
      change ((pl.down names).step s).names = _
      rw [step_names _ (h s List.mem_cons_self), ih', List.cons_append]

@[simp] theorem up_iterate_abs (n : Nat) (pl : Place) : (up^[n] pl).abs = pl.abs := by
  induction n with
  | zero => rfl
  | succ n ih => rw [Function.iterate_succ_apply', up_abs, ih]

theorem walk_eq_graft (pl : Place) (l : List Seg) :
    pl.walk l = (up^[(plain l).ups] pl).down (plain l).names := by
  have h := foldl_eq_graft step (fun x _ hs => step_noop x hs)
    (fun x _ hs => (step_dotdot _).trans (up_step x hs)) l pl
  have hup : (fun y => step y dotdot) = up := funext step_dotdot
  rw [hup] at h
  exact h

theorem step_injective {s : Seg} (h : isName s = true) {x y : Place} (hxy : x.step s = y.step s) :
    x = y := by
  rw [← up_step x h, ← up_step y h, hxy]

theorem down_injective {names : List Seg} (h : ∀ s ∈ names, isName s = true) {x y : Place}
    (hxy : x.down names = y.down names) : x = y := by
  induction names with
  | nil => exact hxy
  | cons s names ih =>
      exact ih (fun r hr => h r (List.mem_cons_of_mem _ hr))
        (step_injective (h s List.mem_cons_self) hxy)

end Place

/-! ## Directories as stacks of segments -/

/-- Where the directory of a list of segments, innermost first, leads. -/
def stackPlace (q : List Seg) : Place := (Place.base (q.getLast? = some [])).walk q.reverse

theorem stackPlace_cons {s : Seg} {q : List Seg} (h : s ≠ [] ∨ q ≠ []) :
    stackPlace (s :: q) = (stackPlace q).step s := by
  have hlast : decide ((s :: q).getLast? = some []) = decide (q.getLast? = some []) := by
    cases q with
    | nil =>
        have hs : s ≠ [] := h.resolve_right (fun hq => hq rfl)
        simp [hs]
    | cons x q => rw [List.getLast?_cons_cons]
  unfold stackPlace
  rw [hlast, List.reverse_cons, Place.walk_append]
  rfl

theorem segments_cons (c : Char) (s : List Char) :
    segments (c :: s) = if c = '/' then [] :: segments s
      else (segments s).modifyHead (List.cons c) := by
  unfold segments
  rw [List.splitOn_cons_eq_if_modifyHead]
  simp

/-- The first segment tells whether a name is absolute. -/
theorem isAbs_eq_stem (s : List Char) : isAbs s = decide ((stem s).head? = some []) := by
  cases s with
  | nil => decide
  | cons c s =>
      have hne := segments_ne_nil s
      obtain ⟨x, xs, hxs⟩ := List.exists_cons_of_ne_nil hne
      unfold stem
      rw [segments_cons, hxs]
      by_cases hc : c = '/'
      · rw [if_pos hc]
        subst hc
        rw [List.dropLast_cons_of_ne_nil (List.cons_ne_nil _ _)]
        split <;> simp [isAbs]
      · rw [if_neg hc, List.modifyHead_cons]
        have habs : isAbs (c :: s) = false := by simp [isAbs, hc]
        rw [habs]
        cases xs with
        | nil => simp
        | cons y ys =>
            rw [List.dropLast_cons_of_ne_nil (List.cons_ne_nil _ _)]
            split <;> simp

theorem walk_segments_eq_stem (pl : Place) (s : List Char) :
    pl.walk (segments s) = pl.walk (stem s) := by
  unfold stem
  split
  · rename_i h
    have hlast : (segments s).getLast (segments_ne_nil s) = [] := by
      rw [List.getLast?_eq_some_getLast (segments_ne_nil s), Option.some.injEq] at h
      exact h
    conv => lhs; rw [← List.dropLast_concat_getLast (segments_ne_nil s), hlast]
    rw [Place.walk_append]
    rfl
  · rfl

theorem plain_segments_eq_stem (s : List Char) :
    Place.plain (segments s) = Place.plain (stem s) := walk_segments_eq_stem _ s

/-- Names lead down. -/
theorem Place.walk_names (pl : Place) {l : List Seg} (h : ∀ s ∈ l, isName s = true) :
    (pl.walk l).names = l.reverse ++ pl.names ∧ (pl.walk l).ups = pl.ups := by
  induction l generalizing pl with
  | nil => exact ⟨rfl, rfl⟩
  | cons s l ih =>
      have hs := h s List.mem_cons_self
      obtain ⟨h₁, h₂⟩ := ih (pl.step s) fun r hr => h r (List.mem_cons_of_mem _ hr)
      refine ⟨h₁.trans ?_, h₂.trans (step_name_ups pl hs)⟩
      rw [step_names pl hs, List.reverse_cons, List.append_assoc]
      rfl

theorem place_eq_stackPlace (s : List Char) : place s = stackPlace (stem s).reverse := by
  unfold place stackPlace
  rw [walk_segments_eq_stem, isAbs_eq_stem, List.reverse_reverse, List.getLast?_reverse]

theorem stackPlace_append {names q : List Seg} (h : ∀ s ∈ names, isName s = true) :
    stackPlace (names ++ q) = (stackPlace q).down names := by
  induction names with
  | nil => rfl
  | cons s names ih =>
      have hs := h s List.mem_cons_self
      rw [List.cons_append, stackPlace_cons (Or.inl (ne_nil_of_isName hs)),
        ih fun r hr => h r (List.mem_cons_of_mem _ hr)]
      rfl

/-! ## Climbing -/

theorem Place.up_iterate (n : Nat) (pl : Place) :
    (Place.up^[n] pl).names = pl.names.drop n ∧
      (Place.up^[n] pl).ups =
        if pl.abs = true then 0 else pl.ups + (n - pl.names.length) := by
  induction n generalizing pl with
  | zero =>
      refine ⟨rfl, ?_⟩
      split
      · exact pl.ups_abs ‹_›
      · simp
  | succ n ih =>
      rw [Function.iterate_succ_apply]
      obtain ⟨h₁, h₂⟩ := ih pl.up
      rw [h₁, h₂, Place.up_abs]
      cases hn : pl.names with
      | nil =>
          obtain ⟨h₃, h₄⟩ := Place.up_names_nil hn
          rw [h₃, h₄]
          refine ⟨by simp, ?_⟩
          split
          · rfl
          · simp only [List.length_nil]; omega
      | cons s r =>
          obtain ⟨h₃, h₄⟩ := Place.up_names_cons hn
          rw [h₃, h₄]
          refine ⟨by simp, ?_⟩
          split
          · rfl
          · simp only [List.length_cons]; omega

/-- Fewer levels up lead to the same place only from a root that is reached anyway. -/
theorem Place.up_iterate_eq_iff {m n : Nat} (h : m ≤ n) (pl : Place) :
    Place.up^[m] pl = Place.up^[n] pl ↔ m = n ∨ (pl.abs = true ∧ pl.names.length ≤ m) := by
  obtain ⟨hm, hm'⟩ := Place.up_iterate m pl
  obtain ⟨hn, hn'⟩ := Place.up_iterate n pl
  constructor
  · intro heq
    rw [heq, hn] at hm
    rw [heq, hn'] at hm'
    have hlen := congrArg List.length hm
    rw [List.length_drop, List.length_drop] at hlen
    by_cases ha : pl.abs = true
    · by_cases hmn : m = n
      · exact Or.inl hmn
      · exact Or.inr ⟨ha, by omega⟩
    · rw [if_neg ha, if_neg ha] at hm'
      left
      omega
  · rintro (rfl | ⟨ha, hlen⟩)
    · rfl
    · refine Place.ext (by rw [Place.up_iterate_abs, Place.up_iterate_abs]) ?_ ?_
      · rw [hm', hn', if_pos ha, if_pos ha]
      · rw [hm, hn, List.drop_of_length_le hlen, List.drop_of_length_le (Nat.le_trans hlen h)]

end Buildsh.Generic
