/-
  The Unix file name functions of APR that the trackers call, and where their results lead.

  `filepathMerge root add` copies `root`, ends it with a '/', and appends the segments of `add`:
  empty segments and `.` are skipped, `..` drops the last segment of the result, unless the
  result is empty or ends in `..`, in which case it is appended. The result is kept as the list
  of its segments, innermost first, each standing for itself and a '/'; only the last segment of
  `add` comes without one (`mergeLast`). Nothing in `root` is normalised: a `.` or an empty
  segment in it is dropped by `..` like any other one.

  `stem_filepathMerge`: as a directory name the result is the segments merged.
  `stackPlace_climb`: what the climbs of `add` do to the place of `root`.
-/
import Buildsh.Base
import Buildsh.Generic.LexPath

namespace Buildsh.Apr
open Buildsh.Generic Buildsh.Base

/-! ## The functions -/

/-- A `..` segment. A result of `[[]]` is the root directory. -/
def backpath : List Seg → List Seg
  | [] => [dotdot]
  | s :: r => if s = [] ∧ r = [] then [[]] else if s = dotdot then dotdot :: s :: r else r

/-- A segment with a '/' after it. -/
def mergeSeg (path : List Seg) (s : Seg) : List Seg :=
  if isNoop s then path else if s = dotdot then backpath path else s :: path

/-- The last segment, which no '/' follows. -/
def mergeLast (path : List Seg) (s : Seg) : LuaString :=
  if isNoop s then slashed path.reverse
  else if s = dotdot then
    if path = [] ∨ path.head? = some dotdot then slashed path.reverse ++ dotdot
    else slashed (backpath path).reverse
  else slashed path.reverse ++ s

/-- What the segments of `add` are appended to. -/
def mergeRoot (root add : LuaString) : List Seg :=
  if isAbs add then [[]] else (stem root).reverse

def filepathMerge (root add : LuaString) : LuaString :=
  mergeLast ((segments add).dropLast.foldl mergeSeg (mergeRoot root add))
    ((segments add).getLast (segments_ne_nil add))

/-- The library on Unix, with `start` as the directory buildsh was started in. -/
def unixApe (start : LuaString) : Ape where
  filepathGet := some start
  filepathRoot p := if isAbs p then some ['/'] else none
  filepathMerge root add := some (filepathMerge root add)
  basename p := (segments p).getLast (segments_ne_nil p)
  dirsep := '/'

example : filepathMerge "a/b".toList "../../../c".toList = "../c".toList := by decide

example : filepathMerge "/a".toList "../../b/.".toList = "/b/".toList := by decide

theorem backpath_cons (s : Seg) (r : List Seg) : backpath (s :: r) =
    if s = [] ∧ r = [] then [[]] else if s = dotdot then dotdot :: s :: r else r := rfl

theorem backpath_dotdot (r : List Seg) : backpath (dotdot :: r) = dotdot :: dotdot :: r := by
  rw [backpath_cons, if_neg (by simp [dotdot]), if_pos rfl]

theorem backpath_drop {s : Seg} {r : List Seg} (h : ¬ (s = [] ∧ r = [])) (hd : s ≠ dotdot) :
    backpath (s :: r) = r := by
  rw [backpath_cons, if_neg h, if_neg hd]

theorem mergeSeg_noop (path : List Seg) {s : Seg} (h : isNoop s = true) :
    mergeSeg path s = path := if_pos h

theorem mergeSeg_dotdot (path : List Seg) : mergeSeg path dotdot = backpath path := by
  unfold mergeSeg
  rw [if_neg (by decide), if_pos rfl]

theorem mergeSeg_name (path : List Seg) {s : Seg} (h : isName s = true) :
    mergeSeg path s = s :: path := by
  unfold mergeSeg
  rw [if_neg (by simp [not_isNoop_of_isName h]), if_neg (ne_dotdot_of_isName h)]

/-! ## The result as a directory name -/

/-- The merged segments, innermost first. -/
def mergeSegs (root add : LuaString) : List Seg :=
  (segments add).foldl mergeSeg (mergeRoot root add)

theorem mergeSegs_eq (root add : LuaString) :
    mergeSegs root add = mergeSeg ((segments add).dropLast.foldl mergeSeg (mergeRoot root add))
      ((segments add).getLast (segments_ne_nil add)) := by
  unfold mergeSegs
  conv => lhs; rw [← List.dropLast_concat_getLast (segments_ne_nil add)]
  rw [List.foldl_append]
  rfl

/-- The result stands for the merged segments, with or without a '/' at its end. -/
theorem mergeLast_cases (path : List Seg) (s : Seg) :
    mergeLast path s = slashed (mergeSeg path s).reverse ∨
      (isNoop s = false ∧ mergeSeg path s = s :: path ∧
        mergeLast path s = slashed path.reverse ++ s) := by
  rcases seg_cases s with hs | rfl | hs
  · rw [mergeSeg_noop path hs, mergeLast, if_pos hs]
    exact Or.inl rfl
  · rw [mergeSeg_dotdot, mergeLast, if_neg (by decide), if_pos rfl]
    by_cases hp : path = [] ∨ path.head? = some dotdot
    · rw [if_pos hp]
      refine Or.inr ⟨by decide, ?_, rfl⟩
      cases path with
      | nil => rfl
      | cons x r =>
          rw [List.head?_cons, Option.some.injEq] at hp
          rw [hp.resolve_left (List.cons_ne_nil x r), backpath_dotdot]
    · rw [if_neg hp]
      exact Or.inl rfl
  · have hn := not_isNoop_of_isName hs
    rw [mergeSeg_name path hs, mergeLast, if_neg (by simp [hn]),
      if_neg (ne_dotdot_of_isName hs)]
    exact Or.inr ⟨hn, rfl, rfl⟩

theorem mem_mergeSeg {path : List Seg} {s x : Seg} (h : x ∈ mergeSeg path s) :
    x ∈ path ∨ x = s ∨ x = dotdot := by
  unfold mergeSeg at h
  split at h
  · exact Or.inl h
  · split at h
    · unfold backpath at h
      split at h
      · simp at h; exact Or.inr (Or.inr h)
      · rename_i y r
        split at h
        · rename_i hy
          simp at h
          exact Or.inl (by simp [h, hy.1])
        · split at h
          · rcases List.mem_cons.mp h with h | h
            · exact Or.inr (Or.inr h)
            · exact Or.inl h
          · exact Or.inl (List.mem_cons_of_mem _ h)
    · rcases List.mem_cons.mp h with h | h
      · exact Or.inr (Or.inl h)
      · exact Or.inl h

/-- Merging slash-free segments gives slash-free segments. -/
theorem slashFree_foldl_mergeSeg {l path : List Seg} (hp : ∀ x ∈ path, '/' ∉ x)
    (hl : ∀ x ∈ l, '/' ∉ x) : ∀ x ∈ l.foldl mergeSeg path, '/' ∉ x := by
  induction l generalizing path with
  | nil => exact hp
  | cons s l ih =>
      refine ih (fun x hx => ?_) fun x hx => hl x (List.mem_cons_of_mem _ hx)
      rcases mem_mergeSeg hx with hx | rfl | rfl
      · exact hp x hx
      · exact hl x List.mem_cons_self
      · decide

theorem slashFree_mergeRoot (root add : LuaString) : ∀ x ∈ mergeRoot root add, '/' ∉ x := by
  intro x hx
  unfold mergeRoot at hx
  split at hx
  · simp at hx
    simp [hx]
  · exact not_mem_of_mem_segments (mem_stem (List.mem_reverse.mp hx))

theorem stem_filepathMerge (root add : LuaString) :
    stem (filepathMerge root add) = (mergeSegs root add).reverse := by
  have hroot := slashFree_mergeRoot root add
  have hadd : ∀ x ∈ segments add, '/' ∉ x := fun x hx => not_mem_of_mem_segments hx
  have hfree : ∀ x ∈ (mergeSegs root add).reverse, '/' ∉ x := fun x hx =>
    slashFree_foldl_mergeSeg hroot hadd x (List.mem_reverse.mp hx)
  have hpath := slashFree_foldl_mergeSeg (l := (segments add).dropLast) hroot
    fun x hx => hadd x ((List.dropLast_sublist _).subset hx)
  unfold filepathMerge
  rw [mergeSegs_eq] at hfree ⊢
  rcases mergeLast_cases ((segments add).dropLast.foldl mergeSeg (mergeRoot root add))
      ((segments add).getLast (segments_ne_nil add)) with h | ⟨hn, hm, h⟩
  · rw [h, stem_slashed hfree]
  · have hne : (segments add).getLast (segments_ne_nil add) ≠ [] := by
      intro he
      rw [he] at hn
      exact absurd hn (by decide)
    rw [h, hm, List.reverse_cons, stem_slashed_append
      (fun x hx => hpath x (List.mem_reverse.mp hx)) (hadd _ (List.getLast_mem _)) hne]

/-! ## Where the result leads -/

theorem place_filepathMerge (root add : LuaString) :
    place (filepathMerge root add) = stackPlace (mergeSegs root add) := by
  rw [place_eq_stackPlace, stem_filepathMerge, List.reverse_reverse]

/-- The names of `add` on top of what its climbs leave of `root`. -/
theorem mergeSegs_eq_graft (root add : LuaString) :
    mergeSegs root add = (Place.plain (segments add)).names ++
      (backpath^[(Place.plain (segments add)).ups] (mergeRoot root add)) := by
  unfold mergeSegs
  rw [Place.foldl_eq_graft mergeSeg (fun x s hs => mergeSeg_noop x hs)
    (fun x s hs => by
      rw [mergeSeg_name x hs, mergeSeg_dotdot,
        backpath_drop (fun h => ne_nil_of_isName hs h.1) (ne_dotdot_of_isName hs)])
    (segments add) (mergeRoot root add)]
  have hb : (fun y => mergeSeg y dotdot) = backpath := funext mergeSeg_dotdot
  rw [hb]
  have hok := (Place.plain (segments add)).names_ok
  revert hok
  induction (Place.plain (segments add)).names with
  | nil => intro _; rfl
  | cons s names ih =>
      intro hok
      have ih' := ih fun r hr => hok r (List.mem_cons_of_mem _ hr)
      rw [List.foldr_cons, ih', mergeSeg_name _ (hok s List.mem_cons_self), List.cons_append]

/-! ## Climbing -/

/-- The segments that climbs can drop: those above the last `..` and above the root. -/
def droppable (q : List Seg) : List Seg :=
  (if q.getLast? = some [] then q.dropLast else q).takeWhile (· ≠ dotdot)

/-- How many of the segments that `n` climbs drop lead nowhere. -/
def wasted (q : List Seg) (n : Nat) : Nat := ((droppable q).take n).countP isNoop

theorem droppable_cons {s : Seg} {r : List Seg} (h : ¬ (s = [] ∧ r = [])) (hd : s ≠ dotdot) :
    droppable (s :: r) = s :: droppable r := by
  unfold droppable
  cases r with
  | nil =>
      have hs : s ≠ [] := fun he => h ⟨he, rfl⟩
      simp [hs, hd]
  | cons x r =>
      rw [List.getLast?_cons_cons]
      split
      · rw [List.dropLast_cons_of_ne_nil (List.cons_ne_nil _ _),
          List.takeWhile_cons_of_pos (by simpa using hd)]
      · rw [List.takeWhile_cons_of_pos (by simpa using hd)]

theorem droppable_dotdot (r : List Seg) : droppable (dotdot :: r) = [] := by
  unfold droppable
  cases r with
  | nil => decide
  | cons x r =>
      rw [List.dropLast_cons_of_ne_nil (List.cons_ne_nil _ _)]
      split <;> exact List.takeWhile_cons_of_neg (by simp)

theorem wasted_le (q : List Seg) (n : Nat) : wasted q n ≤ n :=
  Nat.le_trans List.countP_le_length (by rw [List.length_take]; omega)

theorem wasted_cons {s : Seg} {r : List Seg} (h : ¬ (s = [] ∧ r = [])) (hd : s ≠ dotdot)
    (n : Nat) : wasted (s :: r) (n + 1) = wasted r n + if isNoop s = true then 1 else 0 := by
  unfold wasted
  rw [droppable_cons h hd, List.take_succ_cons, List.countP_cons]

theorem wasted_of_droppable_nil {q : List Seg} (h : droppable q = []) (n : Nat) :
    wasted q n = 0 := by
  unfold wasted
  rw [h, List.take_nil, List.countP_nil]

/-- Climbing from a directory goes up, but for the climbs that dropped a segment that leads
    nowhere. -/
theorem stackPlace_climb (n : Nat) (q : List Seg) :
    stackPlace (backpath^[n] q) = Place.up^[n - wasted q n] (stackPlace q) := by
  induction n generalizing q with
  | zero => rfl
  | succ n ih =>
      rw [Function.iterate_succ_apply]
      -- a climb that drops nothing
      have hkeep : droppable q = [] → droppable (backpath q) = [] →
          stackPlace (backpath q) = (stackPlace q).up →
          stackPlace (backpath^[n] (backpath q)) =
            Place.up^[n + 1 - wasted q (n + 1)] (stackPlace q) := by
        intro h₁ h₂ h₃
        rw [ih, wasted_of_droppable_nil h₁, wasted_of_droppable_nil h₂, h₃, Nat.sub_zero,
          Nat.sub_zero, Function.iterate_succ_apply]
      cases q with
      | nil => exact hkeep rfl (by decide) (by decide)
      | cons s r =>
          by_cases hroot : s = [] ∧ r = []
          · obtain ⟨rfl, rfl⟩ := hroot
            exact hkeep (by decide) (by decide) (by decide)
          · by_cases hd : s = dotdot
            · subst hd
              have hb := backpath_dotdot r
              refine hkeep (droppable_dotdot r) (by rw [hb]; exact droppable_dotdot _) ?_
              rw [hb, stackPlace_cons (Or.inl (by decide)), Place.step_dotdot]
            · have hle := wasted_le r n
              have hsr : s ≠ [] ∨ r ≠ [] := by
                by_cases hs : s = []
                · exact Or.inr fun hr => hroot ⟨hs, hr⟩
                · exact Or.inl hs
              rw [backpath_drop hroot hd, ih, wasted_cons hroot hd, stackPlace_cons hsr]
              rcases seg_cases s with hs | rfl | hs
              · rw [if_pos hs, Place.step_noop _ hs,
                  show n + 1 - (wasted r n + 1) = n - wasted r n by omega]
              · exact absurd rfl hd
              · rw [if_neg (by simp [not_isNoop_of_isName hs]),
                  show n + 1 - (wasted r n + 0) = (n - wasted r n) + 1 by omega,
                  Function.iterate_succ_apply, Place.up_step _ hs]

end Buildsh.Apr
