/-
  Directories by descriptor.

  `fchdir` looks up the name that its descriptor was opened under and hands it to `chdir`. This
  name is a key already, relative to the directory buildsh was started in, but `chdir` takes it
  relative to the current directory of the process. `fchdir_restores_iff`: the process ends up
  in the directory of the descriptor exactly when it gets there by following the recorded name
  from where it is (`Reenters`); for a key `./p` that means from the start directory
  (`reenters_dot_iff`).
-/
import Buildsh.Names

namespace Buildsh.Descriptors
open Buildsh.Generic Buildsh.Base Buildsh.Trace Buildsh.Apr Buildsh.Names

/-! ## The table of descriptors -/

/-- The descriptor that an event opens. -/
def opensFd : Event → Option Fd
  | .open_ _ _ fd => some fd
  | .openat _ _ _ fd => some fd
  | .creat _ fd => some fd
  | _ => none

section Fds

variable {ape : Ape}

/-- Other descriptors keep their names. -/
theorem nextData_fds (d : PData) {e : Event} {fd : Fd} (h : opensFd e ≠ some fd) :
    (nextData ape d e).fds fd = d.fds fd := by
  have hset : ∀ (fd' : Fd) (v : LuaString), fd' ≠ fd → (d.setFd fd' v).fds fd = d.fds fd :=
    fun fd' v hne => Function.update_of_ne (Ne.symm hne) _ _
  cases e with
  | open_ name dir fd' => exact hset fd' _ fun he => h (congrArg some he)
  | openat atfd name dir fd' => exact hset fd' _ fun he => h (congrArg some he)
  | creat name fd' => exact hset fd' _ fun he => h (congrArg some he)
  | fchdir fd' =>
      simp only [nextData]
      cases d.fds fd' <;> rfl
  | _ => rfl

theorem foldl_nextData_fds {es : List Event} {fd : Fd} (h : ∀ e ∈ es, opensFd e ≠ some fd)
    (d : PData) : (es.foldl (nextData ape) d).fds fd = d.fds fd := by
  induction es generalizing d with
  | nil => rfl
  | cons e es ih =>
      rw [List.foldl_cons, ih fun e' he' => h e' (List.mem_cons_of_mem _ he'),
        nextData_fds d (h e List.mem_cons_self)]

theorem exists_recorded (d : PData) {e : Event} {fd : Fd} (h : opensFd e = some fd) :
    ∃ t, (nextData ape d e).fds fd = some t := by
  cases e with
  | open_ name dir fd' => cases h; exact ⟨_, Function.update_self ..⟩
  | openat atfd name dir fd' => cases h; exact ⟨_, Function.update_self ..⟩
  | creat name fd' => cases h; exact ⟨_, Function.update_self ..⟩
  | _ => cases h

end Fds

/-! ## Going back -/

/-- After `fchdir( fd )` the process is in directory `t`, up to a '/' at the end of the name,
    and names get the keys that they get relative to `fd`. -/
def Restores (ape : Ape) (d : PData) (fd : Fd) (t : LuaString) : Prop :=
  stem (nextData ape d (.fchdir fd)).cwd = stem t ∧
    ∀ name, getPath ape (nextData ape d (.fchdir fd)).cwd name =
      getPathat ape (nextData ape d (.fchdir fd)) fd name

/-- `t` is absolute and does not start with the name of the start directory; or it is relative,
    and consists of what its climbs leave of `cwd`, and the names it goes down. -/
def Reenters (start cwd t : LuaString) : Prop :=
  (isAbs t = true ∧ ¬ start <+: t) ∨
    (isAbs t = false ∧ stem t = (backpath^[climbs t] (dirStack cwd)).reverse ++
      (Place.plain (segments t)).names.reverse)

section Back

variable {start : LuaString} {d : PData} {fd : Fd} {t : LuaString}

theorem fchdir_cwd (ape : Ape) (ht : d.fds fd = some t) :
    (nextData ape d (.fchdir fd)).cwd = (getPath ape d.cwd t).getD t := by
  simp only [nextData, ht]
  rfl

theorem fchdir_fds (ape : Ape) (ht : d.fds fd = some t) :
    (nextData ape d (.fchdir fd)).fds = d.fds := by
  simp only [nextData, ht]
  rfl

theorem stem_fchdir_iff (ht : d.fds fd = some t) :
    stem (nextData (unixApe start) d (.fchdir fd)).cwd = stem t ↔ Reenters start d.cwd t := by
  rw [fchdir_cwd _ ht]
  unfold Reenters
  cases ha : isAbs t with
  | true =>
      rw [getPath_absolute start d.cwd ha]
      by_cases hp : start <+: t
      · rw [if_pos hp, Option.getD_some]
        simp only [hp, not_true_eq_false, and_false, false_or, Bool.true_eq_false, false_and,
          iff_false]
        intro hs
        have habs := isAbs_filepathMerge ['.'] (relName start t)
        rw [isAbs_relName, isAbs_eq_stem, hs, ← isAbs_eq_stem, ha] at habs
        exact absurd habs (by decide)
      · rw [if_neg hp, Option.getD_none]
        simp [hp]
  | false =>
      rw [getPath_relative start d.cwd ha, Option.getD_some, stem_filepathMerge,
        mergeSegs_relative d.cwd ha, List.reverse_append]
      simp [eq_comm]

theorem restores_iff (hfd : fd ≠ AT_FDCWD) (ht : d.fds fd = some t) :
    Restores (unixApe start) d fd t ↔ Reenters start d.cwd t := by
  rw [← stem_fchdir_iff ht]
  constructor
  · exact fun h => h.1
  · intro h
    refine ⟨h, fun name => ?_⟩
    unfold getPathat
    rw [if_neg hfd, fchdir_fds _ ht, ht, Option.getD_some]
    exact getPath_congr start h name

/-- A key `./p` leads back from the start directory only. -/
theorem reenters_dot_iff {cwd : LuaString} {names : List Seg}
    (hnames : ∀ s ∈ names, isName s = true) (hstem : stem t = ['.'] :: names) :
    Reenters start cwd t ↔ stem cwd = [['.']] := by
  have habs : isAbs t = false := by
    rw [isAbs_eq_stem, hstem]
    simp
  have hplain : Place.plain (segments t) = (Place.base false).walk names := by
    rw [plain_segments_eq_stem, hstem]
    exact congrArg (fun pl => Place.walk pl names) (Place.walk_dot (Place.base false))
  obtain ⟨h₁, h₂⟩ := Place.walk_names (Place.base false) hnames
  have hup : climbs t = 0 := by
    unfold climbs
    rw [hplain, h₂]
    rfl
  have hdown : (Place.plain (segments t)).names = names.reverse := by
    rw [hplain, h₁]
    exact List.append_nil _
  unfold Reenters
  rw [habs, hup, hdown, hstem, List.reverse_reverse, Function.iterate_zero, id_eq, dirStack,
    List.reverse_reverse]
  constructor
  · rintro (⟨h, -⟩ | ⟨-, h⟩)
    · cases h
    · exact (List.append_cancel_right h).symm
  · intro h
    exact Or.inr ⟨rfl, by rw [h]; rfl⟩

end Back

/-- **`fchdir`.** A process of a traced tree opens `fd`; it or a descendant calls `fchdir( fd )`
    after the events `es`, none of which opens `fd` again. Then it is back in the directory that
    was recorded, exactly when following the recorded name leads there. -/
theorem fchdir_restores_iff (start : LuaString) {log : List (Pid × Event)} {root p q : Pid}
    {d₀ d : PData} {i j : Nat} {e : Event} {es : List Event} {fd : Fd} (hfd : fd ≠ AT_FDCWD)
    (hAt : (localView (unixApe start)).At log root d₀ p i d)
    (he : (eventsOf p log)[i]? = some e) (hopen : opensFd e = some fd)
    (hes : LocalView.Descends (machine (unixApe start)) log p (i + 1) es q j)
    (hkeep : ∀ e' ∈ es, opensFd e' ≠ some fd) :
    ∃ t d', (nextData (unixApe start) d e).fds fd = some t ∧
      (localView (unixApe start)).At log root d₀ q j d' ∧
      (Restores (unixApe start) d' fd t ↔ Reenters start d'.cwd t) := by
  obtain ⟨t, ht⟩ : ∃ t, (nextData (unixApe start) d e).fds fd = some t :=
    exists_recorded d hopen
  have hAt₁ : (localView (unixApe start)).At log root d₀ p (i + 1)
      (nextData (unixApe start) d e) := .step hAt he
  refine ⟨t, _, ht, hAt₁.descend hes, restores_iff hfd ?_⟩
  exact (foldl_nextData_fds hkeep _).trans ht

/-- A directory is opened, left and returned to. -/
def backLog (dest : LuaString) : List (Pid × Event) :=
  [("1".toList, .open_ ".".toList .input "3".toList), ("1".toList, .chdir dest),
    ("1".toList, .fchdir "3".toList)]

/-- From `./sub`, a descriptor of the start directory leads to `./sub` again. -/
theorem fchdir_from_sub :
    ¬ ∀ (start : LuaString) (log : List (Pid × Event)) (root p q : Pid) (d₀ d d' : PData)
        (i j : Nat) (e : Event) (es : List Event) (fd : Fd) (t : LuaString), fd ≠ AT_FDCWD →
        (localView (unixApe start)).At log root d₀ p i d → (eventsOf p log)[i]? = some e →
        opensFd e = some fd →
        LocalView.Descends (machine (unixApe start)) log p (i + 1) es q j →
        (∀ e' ∈ es, opensFd e' ≠ some fd) → (nextData (unixApe start) d e).fds fd = some t →
        (localView (unixApe start)).At log root d₀ q j d' → Restores (unixApe start) d' fd t := by
  intro h
  let d₀ : PData := ⟨".".toList, fun _ => none⟩
  have hAt : (localView (unixApe "/p".toList)).At (backLog "sub".toList) "1".toList d₀
      "1".toList 0 d₀ := .root
  have hes : LocalView.Descends (machine (unixApe "/p".toList)) (backLog "sub".toList)
      "1".toList 1 [.chdir "sub".toList] "1".toList 2 := .step .refl (by decide)
  have he : (eventsOf "1".toList (backLog "sub".toList))[0]? =
      some (.open_ ".".toList .input "3".toList) := by decide
  have hback := h "/p".toList _ _ _ _ _ _ _ _ _ _ _ "3".toList "./".toList (by decide) hAt he rfl
    hes (by decide) (by decide) ((LocalView.At.step hAt he).descend hes)
  exact absurd hback.1 (by decide)

theorem fchdir_restores_start :
    ∃ t d', (nextData (unixApe "/p".toList) ⟨".".toList, fun _ => none⟩
        (.open_ ".".toList .input "3".toList)).fds "3".toList = some t ∧
      (localView (unixApe "/p".toList)).At (backLog ".".toList) "1".toList
        ⟨".".toList, fun _ => none⟩ "1".toList 2 d' ∧
      (Restores (unixApe "/p".toList) d' "3".toList t ↔ Reenters "/p".toList d'.cwd t) :=
  fchdir_restores_iff "/p".toList (by decide) .root
    (show (eventsOf "1".toList (backLog ".".toList))[0]? = _ by rfl) rfl
    (.step .refl (show (eventsOf "1".toList (backLog ".".toList))[1]? =
      some (.chdir ".".toList) by decide)) (by decide)

end Buildsh.Descriptors
