/-
  One key for every project file.

  `RealProc` is a process as the kernel sees it: its directory and its open descriptors as
  places below the root. `InStep` relates a name that the tracker keeps for a directory to its
  place: below the start directory the name is spelled `pre`, then the names that lead there;
  elsewhere it is an absolute name of the place. `pre` is `.`, or nothing where the `dir` option
  of `make.run` names a directory without a `.` in front.

  `Sure` marks the directories that were reached by names the tracker can follow (`NameOK`), and
  `next_ok`, `after_ok`: in every run these are in step. `access_key`: the key of an access
  relative to one of them, below the start directory, is the one name `keyOf` of its place, and
  `one_key` follows.
-/
import Buildsh.Descriptors

namespace Buildsh.Keys
open Buildsh.Generic Buildsh.Base Buildsh.Trace Buildsh.Apr Buildsh.Names Buildsh.Descriptors

/-! ## What the process accesses -/

/-- A process with the places of its directory and its descriptors. -/
structure RealProc where
  cwd : Place
  fds : Fd → Option Place

/-- The place of `name` for a process in `dir`. -/
def realName (dir : Place) (name : LuaString) : Place :=
  if isAbs name then place name else dir.walk (segments name)

/-- The directory that names are relative to. -/
def RealProc.dirAt (r : RealProc) (atfd : Fd) : Place :=
  if atfd = AT_FDCWD then r.cwd else (r.fds atfd).getD r.cwd

def RealProc.setFd (r : RealProc) (fd : Fd) (pl : Place) : RealProc :=
  { r with fds := Function.update r.fds fd (some pl) }

def nextReal (r : RealProc) : Event → RealProc
  | .open_ name _ fd => r.setFd fd (realName r.cwd name)
  | .openat atfd name _ fd => r.setFd fd (realName (r.dirAt atfd) name)
  | .creat name fd => r.setFd fd (realName r.cwd name)
  | .chdir name => { r with cwd := realName r.cwd name }
  | .fchdir fd => { r with cwd := (r.fds fd).getD r.cwd }
  | .exec _ | .mkdir _ | .mkdirat .. | .fork _ | .rename .. | .renameat .. => r

/-- The names that an event accesses, each with the descriptor it is relative to. -/
def accesses (ape : Ape) : Event → List (Fd × LuaString)
  | .open_ name _ _ => [(AT_FDCWD, name)]
  | .openat atfd name _ _ => [(atfd, name)]
  | .creat name _ => [(AT_FDCWD, name)]
  | .exec prog => if prog ≠ ape.basename prog then [(AT_FDCWD, prog)] else []
  | .mkdir name => [(AT_FDCWD, name)]
  | .mkdirat atfd name => [(atfd, name)]
  | .rename src dst => [(AT_FDCWD, src), (AT_FDCWD, dst)]
  | .renameat atfd src atfd2 dst => [(atfd, src), (atfd2, dst)]
  | .chdir _ | .fchdir _ | .fork _ => []

/-- What the tracker takes a name relative to. -/
def dirAt (d : PData) (atfd : Fd) : LuaString :=
  if atfd = AT_FDCWD then d.cwd else (d.fds atfd).getD d.cwd

theorem getPathat_eq (ape : Ape) (d : PData) (atfd : Fd) (name : LuaString) :
    getPathat ape d atfd name = getPath ape (dirAt d atfd) name := by
  unfold getPathat dirAt
  split <;> rfl

/-! ## Tracker and kernel in step -/

/-- `pl` is reached from the start directory by going down `R`, innermost first. -/
def Below (start : LuaString) (pl : Place) (R : List Seg) : Prop :=
  pl.abs = true ∧ pl.names = R ++ (place start).names

instance (start : LuaString) (pl : Place) (R : List Seg) : Decidable (Below start pl R) :=
  inferInstanceAs (Decidable (_ ∧ _))

/-- The tracker's name `t` for a directory fits its place. -/
def InStep (pre : List Seg) (start t : LuaString) (pl : Place) : Prop :=
  (∃ R, (∀ s ∈ R, isName s = true) ∧ stem t = pre ++ R.reverse ∧ Below start pl R) ∨
    (isAbs t = true ∧ place t = pl ∧ ∀ R, ¬ Below start pl R)

/-- The part of an absolute name behind the start directory stands behind a '/'. -/
def AtSlash (start name : LuaString) : Prop :=
  ∃ rest, name = start ++ rest ∧ (rest = [] ∨ isAbs rest = true ∨ start.getLast? = some '/')

/-- A name that the tracker can follow from directory `t`, which is `pl`: a relative name does
    not climb above the start directory, or goes from one place outside of it to another, with
    the climbs right; an absolute name is the start directory with a name that does not climb
    behind it, or of a place outside of it and does not begin like it. -/
def NameOK (pre : List Seg) (start t : LuaString) (pl : Place) (name : LuaString) : Prop :=
  if isAbs name then
    (pre = [['.']] ∧ AtSlash start name ∧ climbs (relName start name) = 0) ∨
      (¬ start <+: name ∧ ∀ R, ¬ Below start (place name) R)
  else
    (∃ R, Below start pl R ∧ climbs name ≤ R.length) ∨
      ((∀ R, ¬ Below start pl R) ∧ ClimbsRight t name ∧
        ∀ R, ¬ Below start (pl.walk (segments name)) R)

/-- The last segment of a name, behind the start directory if the name is absolute. -/
def lastSeg (start name : LuaString) : Seg :=
  let add := if isAbs name then relName start name else name
  (segments add).getLast (segments_ne_nil add)

/-- Whether the directory of a process and those of its descriptors were reached by names that
    the tracker can follow. -/
structure Sure where
  cwd : Prop
  fds : Fd → Prop

def Sure.dirAt (f : Sure) (atfd : Fd) : Prop := if atfd = AT_FDCWD then f.cwd else f.fds atfd

def Sure.setFd (f : Sure) (fd : Fd) (P : Prop) : Sure :=
  { f with fds := Function.update f.fds fd P }

/-- A process: what the tracker knows of it, where it really is, and how far the one can be
    trusted to be the other. -/
structure View where
  data : PData
  real : RealProc
  sure : Sure

/-- A name that the tracker can follow: it is absolute or relative to a directory that was
    reached by such names, and it is `NameOK`. -/
def View.Follows (pre : List Seg) (start : LuaString) (v : View) (atfd : Fd)
    (name : LuaString) : Prop :=
  (isAbs name = true ∨ v.sure.dirAt atfd) ∧
    NameOK pre start (dirAt v.data atfd) (v.real.dirAt atfd) name

def nextSure (pre : List Seg) (start : LuaString) (v : View) : Event → Sure
  | .open_ name _ fd => v.sure.setFd fd (v.Follows pre start AT_FDCWD name)
  | .openat atfd name _ fd => v.sure.setFd fd (v.Follows pre start atfd name)
  | .creat name fd => v.sure.setFd fd (v.Follows pre start AT_FDCWD name)
  | .chdir name => { v.sure with cwd := v.Follows pre start AT_FDCWD name }
  | .fchdir fd =>
      { v.sure with
        cwd := v.sure.fds fd ∧ ∀ t, v.data.fds fd = some t → Reenters start v.data.cwd t }
  | .exec _ | .mkdir _ | .mkdirat .. | .fork _ | .rename .. | .renameat .. => v.sure

def View.next (pre : List Seg) (start : LuaString) (v : View) (e : Event) : View :=
  ⟨nextData (unixApe start) v.data e, nextReal v.real e, nextSure pre start v e⟩

/-- A `dir` option that the tracker can follow: below the start directory it is `pre` and names;
    elsewhere it is absolute. -/
def DirOK (pre : List Seg) (start dir : LuaString) : Prop :=
  (∃ names, (∀ s ∈ names, isName s = true) ∧ stem dir = pre ++ names) ∨
    (isAbs dir = true ∧ ∀ R, ¬ Below start (place dir) R)

/-- Where a process really is after the events `es` of its ancestors and its own. -/
def realAfter (start dir : LuaString) (es : List Event) : RealProc :=
  es.foldl nextReal ⟨realName (place start) dir, fun _ => none⟩

/-- The command, started in `dir`. -/
def View.start (pre : List Seg) (start dir : LuaString) : View :=
  ⟨⟨dir, fun _ => none⟩, realAfter start dir [], ⟨DirOK pre start dir, fun _ => False⟩⟩

/-- A process after the events `es` of its ancestors and its own. -/
def View.after (pre : List Seg) (start dir : LuaString) (es : List Event) : View :=
  es.foldl (View.next pre start) (View.start pre start dir)

/-- An access whose key is right. The tracker can follow the name, and if it is of a file below
    the start directory, the name does not end in a `.`, a `..` or a '/'. -/
def View.AccessOK (pre : List Seg) (start : LuaString) (v : View) (a : Fd × LuaString) : Prop :=
  v.Follows pre start a.1 a.2 ∧
    ∀ R, Below start (realName (v.real.dirAt a.1) a.2) R →
      R = [] ∨ isName (lastSeg start a.2) = true

/-- The name of the file that is reached from the start directory by going down `R`. -/
def keyOf (pre : List Seg) : List Seg → LuaString
  | [] => slashed pre
  | s :: R => slashed (pre ++ R.reverse) ++ s

/-! ## Following a name -/

section Follow

variable {pre : List Seg} {start t name : LuaString} {pl : Place} {R : List Seg}

theorem InStep.congr {t' : LuaString} (h : InStep pre start t pl) (hs : stem t = stem t') :
    InStep pre start t' pl := by
  rcases h with ⟨R, hR, ht, hb⟩ | ⟨ha, hp, hb⟩
  · exact Or.inl ⟨R, hR, hs ▸ ht, hb⟩
  · refine Or.inr ⟨?_, ?_, hb⟩
    · rw [isAbs_eq_stem, ← hs, ← isAbs_eq_stem, ha]
    · rw [place_eq_stackPlace, ← hs, ← place_eq_stackPlace, hp]

/-- Names are dropped one by one. -/
theorem backpath_names (hR : ∀ s ∈ R, isName s = true) (q : List Seg) {m : Nat}
    (hm : m ≤ R.length) : backpath^[m] (R ++ q) = R.drop m ++ q := by
  induction m generalizing R with
  | zero => rfl
  | succ m ih =>
      cases R with
      | nil => simp at hm
      | cons s R =>
          have hs := hR s List.mem_cons_self
          rw [Function.iterate_succ_apply, List.cons_append,
            backpath_drop (fun h => ne_nil_of_isName hs h.1) (ne_dotdot_of_isName hs),
            ih (fun r hr => hR r (List.mem_cons_of_mem _ hr)) (by simpa using hm),
            List.drop_succ_cons]

/-- A relative name that does not climb above the start directory. -/
theorem walk_below (hb : Below start pl R) (hm : climbs name ≤ R.length) :
    Below start (pl.walk (segments name))
      ((Place.plain (segments name)).names ++ R.drop (climbs name)) := by
  refine ⟨(Place.walk_abs _ _).trans hb.1, ?_⟩
  rw [Place.walk_eq_graft, Place.down_names _ (Place.plain (segments name)).names_ok,
    (Place.up_iterate _ _).1, hb.2, List.append_assoc]
  congr 1
  exact List.drop_append_of_le_length hm

theorem below_unique {R' : List Seg} (h : Below start pl R) (h' : Below start pl R') : R = R' :=
  List.append_cancel_right (h.2.symm.trans h'.2)

theorem segments_dropSlash (pl : Place) (s : LuaString) :
    pl.walk (segments (s.dropWhile (· = '/'))) = pl.walk (segments s) := by
  induction s with
  | nil => rfl
  | cons c s ih =>
      by_cases hc : c = '/'
      · subst hc
        rw [List.dropWhile_cons_of_pos (by simp), ih, segments_cons, if_pos rfl]
        rfl
      · rw [List.dropWhile_cons_of_neg (by simpa using hc)]

/-- An absolute name below the start directory. -/
theorem place_atSlash (hstart : isAbs start = true) (h : AtSlash start name) :
    place name = (place start).walk (segments (relName start name)) := by
  obtain ⟨rest, rfl, hrest⟩ := h
  have habs : isAbs (start ++ rest) = true := by
    cases start with
    | nil => cases hstart
    | cons c s => exact hstart
  have hrel : relName start (start ++ rest) = rest.dropWhile (· = '/') := by
    unfold relName
    rw [List.drop_left]
  rw [hrel, segments_dropSlash]
  unfold place
  rw [habs, hstart, ← Place.walk_append]
  rcases hrest with rfl | hrest | hrest
  · rw [List.append_nil, Place.walk_append]
    rfl
  · cases rest with
    | nil => cases hrest
    | cons c s =>
        have hc : c = '/' := by simpa [isAbs] using hrest
        subst hc
        rw [segments_cons, if_pos rfl]
        unfold segments
        rw [List.splitOn_append_cons_self, Place.walk_append, Place.walk_append]
        rfl
  · obtain ⟨a, rfl⟩ : ∃ a, start = a ++ ['/'] := by
      rw [List.getLast?_eq_some_iff] at hrest
      exact hrest
    unfold segments
    rw [List.append_assoc, List.singleton_append, List.splitOn_append_cons_self,
      List.splitOn_append_cons_self, Place.walk_append, Place.walk_append, Place.walk_append]
    rfl

theorem mergeLast_name (path : List Seg) {s : Seg} (h : isName s = true) :
    mergeLast path s = slashed path.reverse ++ s := by
  unfold mergeLast
  rw [if_neg (by simp [not_isNoop_of_isName h]), if_neg (ne_dotdot_of_isName h)]

/-- The text of a merged name. -/
theorem filepathMerge_eq_keyOf {root add : LuaString} (hpre : pre = [] ∨ pre = [['.']])
    (hm : mergeSegs root add = R ++ pre.reverse)
    (hlast : R = [] ∨ isName ((segments add).getLast (segments_ne_nil add)) = true) :
    filepathMerge root add = keyOf pre R := by
  unfold filepathMerge
  rw [mergeSegs_eq] at hm
  generalize (segments add).dropLast.foldl mergeSeg (mergeRoot root add) = path at hm ⊢
  generalize (segments add).getLast (segments_ne_nil add) = s at hm hlast ⊢
  have hnoop : ∀ x ∈ pre, isNoop x = true := by
    rcases hpre with rfl | rfl
    · simp
    · decide
  by_cases hs : isName s = true
  · rw [mergeSeg_name path hs] at hm
    rw [mergeLast_name path hs]
    cases R with
    | nil =>
        rw [List.nil_append] at hm
        have hmem : s ∈ pre := List.mem_reverse.mp (hm ▸ List.mem_cons_self)
        have := hnoop s hmem
        rw [not_isNoop_of_isName hs] at this
        cases this
    | cons x R =>
        rw [List.cons_append, List.cons.injEq] at hm
        rw [hm.1, hm.2, List.reverse_append, List.reverse_reverse]
        rfl
  · have hR : R = [] := hlast.resolve_right hs
    subst hR
    rcases mergeLast_cases path s with h | ⟨hn, hms, -⟩
    · rw [h, hm, List.nil_append, List.reverse_reverse]
      rfl
    · rw [hm, List.nil_append] at hms
      have hmem : s ∈ pre := List.mem_reverse.mp (hms ▸ List.mem_cons_self)
      rw [hnoop s hmem] at hn
      cases hn

/-- The stack of a directory in step. -/
theorem dirStack_of_stem (ht : stem t = pre ++ R.reverse) : dirStack t = R ++ pre.reverse := by
  unfold dirStack
  rw [ht, List.reverse_append, List.reverse_reverse]

/-- The segments of the key of a relative name that stays below the start directory. -/
theorem mergeSegs_below (hR : ∀ s ∈ R, isName s = true) (ht : stem t = pre ++ R.reverse)
    (ha : isAbs name = false) (hm : climbs name ≤ R.length) :
    mergeSegs t name =
      ((Place.plain (segments name)).names ++ R.drop (climbs name)) ++ pre.reverse := by
  rw [mergeSegs_relative t ha, dirStack_of_stem ht, backpath_names hR _ hm, List.append_assoc]

theorem below_start (hstart : isAbs start = true) : Below start (place start) [] :=
  ⟨(Place.walk_abs _ _).trans hstart, rfl⟩

theorem stem_dot : stem ['.'] = [['.']] ++ ([] : List Seg).reverse := by decide

/-- The key of a name is a merged name, whose segments lead to the place of the name below the
    start directory. -/
structure Merged (pre : List Seg) (start t : LuaString) (pl : Place) (name root add : LuaString)
    (R : List Seg) : Prop where
  key : getPath (unixApe start) t name = some (filepathMerge root add)
  segs : mergeSegs root add = R ++ pre.reverse
  below : Below start (realName pl name) R
  names : ∀ s ∈ R, isName s = true
  last : lastSeg start name = (segments add).getLast (segments_ne_nil add)

theorem merged_absolute (hstart : isAbs start = true) (ha : isAbs name = true)
    (hp : pre = [['.']]) (hat : AtSlash start name) (hcl : climbs (relName start name) = 0) :
    Merged pre start t pl name ['.'] (relName start name)
      (Place.plain (segments (relName start name))).names := by
  have hpre : start <+: name := by
    obtain ⟨rest, rfl, -⟩ := hat
    exact List.prefix_append _ _
  have hrel := isAbs_relName start name
  have hle : climbs (relName start name) ≤ ([] : List Seg).length := by rw [hcl]; simp
  have hb := walk_below (below_start hstart) hle
  have hm := mergeSegs_below (R := []) (by simp) stem_dot hrel hle
  rw [List.drop_nil, List.append_nil] at hb hm
  refine ⟨?_, ?_, ?_, (Place.plain (segments (relName start name))).names_ok, ?_⟩
  · rw [getPath_absolute start t ha, if_pos hpre]
  · rw [hp]
    exact hm
  · rw [realName, if_pos ha, place_atSlash hstart hat]
    exact hb
  · unfold lastSeg
    simp only [ha, if_true]

theorem merged_relative (ha : isAbs name = false) (hR : ∀ s ∈ R, isName s = true)
    (hst : stem t = pre ++ R.reverse) (hb : Below start pl R) (hcl : climbs name ≤ R.length) :
    Merged pre start t pl name t name
      ((Place.plain (segments name)).names ++ R.drop (climbs name)) := by
  refine ⟨getPath_relative start t ha, mergeSegs_below hR hst ha hcl, ?_, ?_, ?_⟩
  · rw [realName, if_neg (by rw [ha]; exact Bool.false_ne_true)]
    exact walk_below hb hcl
  · intro s hs
    rcases List.mem_append.mp hs with hs | hs
    · exact (Place.plain (segments name)).names_ok s hs
    · exact hR s (List.mem_of_mem_drop hs)
  · unfold lastSeg
    simp only [ha, Bool.false_eq_true, if_false]

/-- What following a name comes to. -/
theorem follow (hstart : isAbs start = true) (ht : isAbs name = false → InStep pre start t pl)
    (hok : NameOK pre start t pl name) :
    (∃ root add R, Merged pre start t pl name root add R) ∨
      (isAbs ((getPath (unixApe start) t name).getD name) = true ∧
        place ((getPath (unixApe start) t name).getD name) = realName pl name ∧
        ∀ R, ¬ Below start (realName pl name) R) := by
  unfold NameOK at hok
  cases ha : isAbs name with
  | true =>
      rw [ha, if_pos rfl] at hok
      rcases hok with ⟨hp, hat, hcl⟩ | ⟨hnp, hnb⟩
      · exact Or.inl ⟨_, _, _, merged_absolute hstart ha hp hat hcl⟩
      · right
        rw [realName, if_pos ha, getPath_absolute start t ha, if_neg hnp, Option.getD_none]
        exact ⟨ha, rfl, hnb⟩
  | false =>
      rw [ha, if_neg (by decide)] at hok
      rcases hok with ⟨R, hb, hcl⟩ | ⟨hnb, hcr, hnb'⟩
      · rcases ht ha with ⟨R', hR', hst, hb'⟩ | ⟨-, -, hnb⟩
        · obtain rfl := below_unique hb hb'
          exact Or.inl ⟨_, _, _, merged_relative ha hR' hst hb hcl⟩
        · exact absurd hb (hnb R)
      · right
        rw [realName, if_neg (by rw [ha]; exact Bool.false_ne_true), getPath_relative start t ha,
          Option.getD_some]
        rcases ht ha with ⟨R', -, -, hb'⟩ | ⟨habs, hpl, -⟩
        · exact absurd hb' (hnb R')
        · refine ⟨?_, ?_, hnb'⟩
          · rw [isAbs_filepathMerge, habs, Bool.or_true]
          · rw [(place_key_iff t ha).mpr hcr, hpl]

/-- A name that is followed keeps tracker and kernel in step. -/
theorem follow_inStep (hstart : isAbs start = true)
    (ht : isAbs name = false → InStep pre start t pl) (hok : NameOK pre start t pl name) :
    InStep pre start ((getPath (unixApe start) t name).getD name) (realName pl name) := by
  rcases follow hstart ht hok with ⟨root, add, R, hm⟩ | h
  · refine Or.inl ⟨R, hm.names, ?_, hm.below⟩
    rw [hm.key, Option.getD_some, stem_filepathMerge, hm.segs, List.reverse_append,
      List.reverse_reverse]
  · exact Or.inr h

/-- The key of a name below the start directory. -/
theorem follow_key (hstart : isAbs start = true) (hpre : pre = [] ∨ pre = [['.']])
    (ht : isAbs name = false → InStep pre start t pl) (hok : NameOK pre start t pl name)
    (hb : Below start (realName pl name) R)
    (hlast : R = [] ∨ isName (lastSeg start name) = true) :
    getPath (unixApe start) t name = some (keyOf pre R) := by
  rcases follow hstart ht hok with ⟨root, add, R', hm⟩ | ⟨-, -, hnb⟩
  · obtain rfl := below_unique hb hm.below
    rw [hm.last] at hlast
    rw [hm.key, filepathMerge_eq_keyOf hpre hm.segs hlast]
  · exact absurd hb (hnb R)

end Follow

/-! ## Runs -/

/-- What is sure is in step. -/
structure View.OK (pre : List Seg) (start : LuaString) (v : View) : Prop where
  cwd : v.sure.cwd → InStep pre start v.data.cwd v.real.cwd
  fds : ∀ fd, v.sure.fds fd → ∃ t pl, v.data.fds fd = some t ∧ v.real.fds fd = some pl ∧
    InStep pre start t pl

section Runs

variable {pre : List Seg} {start : LuaString} {v : View}

theorem View.OK.dirAt (h : v.OK pre start) {atfd : Fd} (hs : v.sure.dirAt atfd) :
    InStep pre start (Keys.dirAt v.data atfd) (v.real.dirAt atfd) := by
  unfold Keys.dirAt RealProc.dirAt
  unfold Sure.dirAt at hs
  by_cases hat : atfd = AT_FDCWD
  · rw [if_pos hat] at hs
    rw [if_pos hat, if_pos hat]
    exact h.cwd hs
  · rw [if_neg hat] at hs
    obtain ⟨t, pl, hd, hr, ht⟩ := h.fds atfd hs
    rw [if_neg hat, if_neg hat, hd, hr]
    exact ht

theorem View.OK.base (h : v.OK pre start) {atfd : Fd} {name : LuaString}
    (hf : v.Follows pre start atfd name) (ha : isAbs name = false) :
    InStep pre start (Keys.dirAt v.data atfd) (v.real.dirAt atfd) := by
  refine h.dirAt (hf.1.resolve_left ?_)
  rw [ha]
  decide

/-- A name that is followed keeps tracker and kernel in step. -/
theorem name_inStep (hstart : isAbs start = true) (h : v.OK pre start) {atfd : Fd}
    {name : LuaString} (hf : v.Follows pre start atfd name) :
    InStep pre start ((getPathat (unixApe start) v.data atfd name).getD name)
      (realName (v.real.dirAt atfd) name) := by
  rw [getPathat_eq]
  exact follow_inStep hstart (h.base hf) hf.2

/-- The key of an access below the start directory. -/
theorem access_key (hstart : isAbs start = true) (hpre : pre = [] ∨ pre = [['.']])
    (h : v.OK pre start) {a : Fd × LuaString} (hok : v.AccessOK pre start a) {R : List Seg}
    (hb : Below start (realName (v.real.dirAt a.1) a.2) R) :
    getPathat (unixApe start) v.data a.1 a.2 = some (keyOf pre R) := by
  rw [getPathat_eq]
  exact follow_key hstart hpre (h.base hok.1) hok.1.2 hb (hok.2 R hb)

/-- Descriptor `fd` opened under a name. -/
theorem setFd_ok (h : v.OK pre start) (fd : Fd) {t : LuaString} {pl : Place} {P : Prop}
    (ht : P → InStep pre start t pl) :
    View.OK pre start ⟨v.data.setFd fd t, v.real.setFd fd pl, v.sure.setFd fd P⟩ where
  cwd := h.cwd
  fds fd' hs := by
    unfold PData.setFd RealProc.setFd
    change Function.update v.sure.fds fd P fd' at hs
    by_cases hfd : fd' = fd
    · subst hfd
      rw [Function.update_self] at hs
      exact ⟨t, pl, by simp, by simp, ht hs⟩
    · rw [Function.update_of_ne hfd] at hs
      simp only [Function.update_of_ne hfd]
      exact h.fds fd' hs

/-- **One event.** -/
theorem next_ok (hstart : isAbs start = true) (h : v.OK pre start) (e : Event) :
    (v.next pre start e).OK pre start := by
  cases e with
  | open_ name dir fd => exact setFd_ok h fd fun hf => name_inStep hstart h hf
  | openat atfd name dir fd => exact setFd_ok h fd fun hf => name_inStep hstart h hf
  | creat name fd => exact setFd_ok h fd fun hf => name_inStep hstart h hf
  | chdir name => exact ⟨fun hf => name_inStep hstart h hf, h.fds⟩
  | fchdir fd =>
      refine ⟨fun ⟨hs, hre⟩ => ?_, fun fd' hs => ?_⟩
      · obtain ⟨t, pl, hd, hr, hin⟩ := h.fds fd hs
        have hst := (stem_fchdir_iff hd).mpr (hre t hd)
        have hreal : (v.next pre start (.fchdir fd)).real.cwd = pl := by
          simp only [View.next, nextReal, hr, Option.getD_some]
        rw [hreal]
        exact hin.congr hst.symm
      · have hfds : (v.next pre start (.fchdir fd)).data.fds = v.data.fds := by
          simp only [View.next, nextData]
          cases v.data.fds fd <;> rfl
        rw [hfds]
        exact h.fds fd' hs
  | exec prog => exact h
  | mkdir name => exact h
  | mkdirat atfd name => exact h
  | fork c => exact h
  | rename src dst => exact h
  | renameat atfd src atfd2 dst => exact h

theorem start_ok (hstart : isAbs start = true) (hpre : pre = [] ∨ pre = [['.']])
    (dir : LuaString) : (View.start pre start dir).OK pre start := by
  refine ⟨fun hdir => ?_, fun _ hf => absurd hf id⟩
  change InStep pre start dir (realName (place start) dir)
  rcases hdir with ⟨names, hnames, hst⟩ | ⟨ha, hnb⟩
  · left
    have habs : isAbs dir = false := by
      rw [isAbs_eq_stem, hst]
      rcases hpre with rfl | rfl
      · cases names with
        | nil => decide
        | cons s names =>
            have := ne_nil_of_isName (hnames s List.mem_cons_self)
            simpa using this
      · simp
    have hwalk : (place start).walk (segments dir) = (place start).walk names := by
      rw [walk_segments_eq_stem, hst, Place.walk_append]
      rcases hpre with rfl | rfl
      · rfl
      · rw [Place.walk_dot]
    have hb := Place.walk_names (place start) hnames
    refine ⟨names.reverse, fun s hs => hnames s (List.mem_reverse.mp hs),
      by rw [hst, List.reverse_reverse], ?_⟩
    unfold realName
    rw [habs, if_neg (by decide), hwalk]
    exact ⟨(Place.walk_abs _ _).trans (below_start hstart).1, hb.1⟩
  · right
    unfold realName
    rw [if_pos ha]
    exact ⟨ha, rfl, hnb⟩

/-- **A run.** -/
theorem after_ok (hstart : isAbs start = true) (hpre : pre = [] ∨ pre = [['.']])
    (dir : LuaString) (es : List Event) : (View.after pre start dir es).OK pre start := by
  unfold View.after
  have h : (View.start pre start dir).OK pre start := start_ok hstart hpre dir
  generalize View.start pre start dir = v at h ⊢
  induction es generalizing v with
  | nil => exact h
  | cons e es ih => exact ih (v.next pre start e) (next_ok hstart h e)

theorem after_data (pre : List Seg) (start dir : LuaString) (es : List Event) :
    (View.after pre start dir es).data =
      es.foldl (nextData (unixApe start)) ⟨dir, fun _ => none⟩ := by
  unfold View.after
  have h : (View.start pre start dir).data = ⟨dir, fun _ => none⟩ := rfl
  rw [← h]
  generalize View.start pre start dir = v
  induction es generalizing v with
  | nil => rfl
  | cons e es ih => exact ih (v.next pre start e)

theorem after_real (pre : List Seg) (start dir : LuaString) (es : List Event) :
    (View.after pre start dir es).real = realAfter start dir es := by
  have h : (View.start pre start dir).real = ⟨realName (place start) dir, fun _ => none⟩ := rfl
  unfold View.after realAfter
  rw [← h]
  generalize View.start pre start dir = v
  induction es generalizing v with
  | nil => rfl
  | cons e es ih => exact ih (v.next pre start e)

/-- **One file, one key.** Two accesses `a` and `a'` in the process tree of one command, after
    the events `es` and `es'` of their processes and the ancestors of these: if both can be
    followed, and are of the same file below the start directory, they get one key. -/
theorem one_key (hstart : isAbs start = true) (hpre : pre = [] ∨ pre = [['.']])
    (dir : LuaString) {log : List (Pid × Event)} {root p p' : Pid} {i i' : Nat}
    {es es' : List Event} {a a' : Fd × LuaString} {R : List Seg}
    (hes : LocalView.Descends (machine (unixApe start)) log root 0 es p i)
    (hes' : LocalView.Descends (machine (unixApe start)) log root 0 es' p' i')
    (hok : (View.after pre start dir es).AccessOK pre start a)
    (hok' : (View.after pre start dir es').AccessOK pre start a')
    (hb : Below start (realName ((realAfter start dir es).dirAt a.1) a.2) R)
    (hb' : Below start (realName ((realAfter start dir es').dirAt a'.1) a'.2) R) :
    ∃ d d' key,
      (localView (unixApe start)).At log root ⟨dir, fun _ => none⟩ p i d ∧
      (localView (unixApe start)).At log root ⟨dir, fun _ => none⟩ p' i' d' ∧
      getPathat (unixApe start) d a.1 a.2 = some key ∧
      getPathat (unixApe start) d' a'.1 a'.2 = some key := by
  have hAt : (localView (unixApe start)).At log root ⟨dir, fun _ => none⟩ root 0
      ⟨dir, fun _ => none⟩ := .root
  rw [← after_real pre] at hb hb'
  refine ⟨_, _, keyOf pre R, hAt.descend hes, hAt.descend hes', ?_, ?_⟩
  · have hd := after_data pre start dir es
    exact hd ▸ access_key hstart hpre (after_ok hstart hpre dir es) hok hb
  · have hd := after_data pre start dir es'
    exact hd ▸ access_key hstart hpre (after_ok hstart hpre dir es') hok' hb'

end Runs

/-- One process writes `x` and reads it again by its absolute name. -/
def spellLog (absName : LuaString) : List (Pid × Event) :=
  [("1".toList, .open_ "x".toList .output "3".toList),
    ("1".toList, .open_ absName .input "4".toList)]

theorem one_key_start :
    ∃ d d' key,
      (localView (unixApe "/p".toList)).At (spellLog "/p/x".toList) "1".toList
        ⟨".".toList, fun _ => none⟩ "1".toList 0 d ∧
      (localView (unixApe "/p".toList)).At (spellLog "/p/x".toList) "1".toList
        ⟨".".toList, fun _ => none⟩ "1".toList 1 d' ∧
      getPathat (unixApe "/p".toList) d AT_FDCWD "x".toList = some key ∧
      getPathat (unixApe "/p".toList) d' AT_FDCWD "/p/x".toList = some key := by
  have hbelow : Below "/p".toList (View.start [['.']] "/p".toList ".".toList).real.cwd [] := by
    decide
  have hx : (View.start [['.']] "/p".toList ".".toList).AccessOK [['.']] "/p".toList
      (AT_FDCWD, "x".toList) :=
    ⟨⟨Or.inr (Or.inl ⟨[], by simp, by decide⟩), Or.inl ⟨[], hbelow, by decide⟩⟩,
      fun _ _ => Or.inr (by decide)⟩
  have hpx : ∀ v : View, v.AccessOK [['.']] "/p".toList (AT_FDCWD, "/p/x".toList) := fun v =>
    ⟨⟨Or.inl (by decide), Or.inl ⟨rfl, ⟨"/x".toList, rfl, Or.inr (Or.inl rfl)⟩, by decide⟩⟩,
      fun _ _ => Or.inr (by decide)⟩
  exact one_key (R := ["x".toList]) (by decide) (Or.inr rfl) ".".toList .refl
    (.step .refl (show (eventsOf "1".toList (spellLog "/p/x".toList))[0]? = _ by rfl))
    hx (hpx _) (by decide) (by decide)

/-- With `dir = "sub"`, the names `x` and `/p/sub/x` of one file get different keys. -/
theorem two_keys_sub :
    ¬ ∀ (start dir : LuaString) (log : List (Pid × Event)) (root p p' : Pid) (i i' : Nat)
        (es es' : List Event) (e e' : Event) (a a' : Fd × LuaString) (R : List Seg)
        (d d' : PData), isAbs start = true →
        LocalView.Descends (machine (unixApe start)) log root 0 es p i →
        (eventsOf p log)[i]? = some e → a ∈ accesses (unixApe start) e →
        LocalView.Descends (machine (unixApe start)) log root 0 es' p' i' →
        (eventsOf p' log)[i']? = some e' → a' ∈ accesses (unixApe start) e' →
        Below start (realName ((realAfter start dir es).dirAt a.1) a.2) R →
        Below start (realName ((realAfter start dir es').dirAt a'.1) a'.2) R →
        (localView (unixApe start)).At log root ⟨dir, fun _ => none⟩ p i d →
        (localView (unixApe start)).At log root ⟨dir, fun _ => none⟩ p' i' d' →
        ∃ key, getPathat (unixApe start) d a.1 a.2 = some key ∧
          getPathat (unixApe start) d' a'.1 a'.2 = some key := by
  intro h
  have hes : LocalView.Descends (machine (unixApe "/p".toList)) (spellLog "/p/sub/x".toList)
      "1".toList 0 [.open_ "x".toList .output "3".toList] "1".toList 1 := .step .refl (by decide)
  have hAt : (localView (unixApe "/p".toList)).At (spellLog "/p/sub/x".toList) "1".toList
      ⟨"sub".toList, fun _ => none⟩ "1".toList 0 ⟨"sub".toList, fun _ => none⟩ := .root
  obtain ⟨key, h₁, h₂⟩ := h "/p".toList "sub".toList (spellLog "/p/sub/x".toList) _ _ _ _ _ _ _
    (.open_ "x".toList .output "3".toList) (.open_ "/p/sub/x".toList .input "4".toList)
    (AT_FDCWD, "x".toList) (AT_FDCWD, "/p/sub/x".toList) ["x".toList, "sub".toList] _ _
    (by decide) .refl (by decide) List.mem_cons_self hes (by decide) List.mem_cons_self
    (by decide) (by decide) hAt (hAt.descend hes)
  rw [← h₂] at h₁
  exact absurd h₁ (by decide)

end Buildsh.Keys
