/-
  The plain calls and their `*at` variants.

  `open`, `mkdir` and `rename` are written a second time for names relative to a descriptor. With
  `AT_FDCWD` for every descriptor both versions resolve a name in the same directory, so they
  touch the same keys; but `rename` clears the output of its source without a guard, and raises
  where only the target has a key (`variants_iff`). A whole trace that goes through therefore
  leads to the same state with variants in it (`run_variants`).
-/
import Buildsh.Generic.Replace
import Buildsh.Trace

namespace Buildsh.Variants
open Buildsh.Generic Buildsh.Base Buildsh.Trace

/-- A plain call and the call with `AT_FDCWD` for every descriptor. -/
inductive Variant : Event → Event → Prop where
  | open_ (name : LuaString) (dir : Dir) (fd : Fd) :
      Variant (.open_ name dir fd) (.openat AT_FDCWD name dir fd)
  | mkdir (name : LuaString) : Variant (.mkdir name) (.mkdirat AT_FDCWD name)
  | rename (src dst : LuaString) :
      Variant (.rename src dst) (.renameat AT_FDCWD src AT_FDCWD dst)

section Calls

variable {ape : Ape} {e e' : Event}

theorem getPathat_cwd (ape : Ape) (d : PData) (name : LuaString) :
    getPathat ape d AT_FDCWD name = getPath ape d.cwd name := if_pos rfl

theorem Variant.touchOf_eq (h : Variant e e') (d : PData) : touchOf ape d e' = touchOf ape d e := by
  cases h with
  | open_ name dir fd => rw [touchOf, touchOf, getPathat_cwd]
  | mkdir name => rw [touchOf, touchOf, getPathat_cwd]
  | rename src dst => rw [touchOf, touchOf, getPathat_cwd, getPathat_cwd]

theorem Variant.nextData_eq (h : Variant e e') (d : PData) :
    nextData ape d e' = nextData ape d e := by
  cases h with
  | open_ name dir fd => rw [nextData, nextData, getPathat_cwd]
  | mkdir name => rfl
  | rename src dst => rfl

/-- Neither version announces a process. -/
theorem Variant.after_eq (h : Variant e e') (w : World) (p : Pid) (d : PData) :
    after ape w p d e' = after ape w p d e := by
  unfold after
  rw [h.touchOf_eq, h.nextData_eq]
  cases h <;> rfl

theorem Variant.raisesOn_at (h : Variant e e') (d : PData) : raisesOn ape d e' = none := by
  cases h <;> rfl

/-- The source of a move has no key and the target has one. -/
def MovesIn (ape : Ape) (d : PData) : Event → Prop
  | .rename src dst => getPath ape d.cwd src = none ∧ getPath ape d.cwd dst ≠ none
  | _ => False

theorem raisesOn_eq_none_iff (d : PData) (e : Event) :
    raisesOn ape d e = none ↔ ¬ MovesIn ape d e := by
  cases e with
  | rename src dst =>
      rw [raisesOn, MovesIn]
      split
      · rename_i h
        exact iff_of_false (by simp) (not_not.mpr h)
      · rename_i h
        exact iff_of_true rfl h
  | _ => exact iff_of_true rfl id

theorem body_variant {w : World} {pid : Pid} {d : PData} (hpd : w.pd pid = some d)
    (h : Variant e e') : body ape w pid e = body ape w pid e' ↔ ¬ MovesIn ape d e := by
  rw [body_eq hpd, body_eq hpd, h.raisesOn_at, h.after_eq, ← raisesOn_eq_none_iff]
  cases raisesOn ape d e with
  | none => exact iff_of_true rfl rfl
  | some err => exact iff_of_false (by simp) (by simp)

/-- **The plain calls and their variants.** In every state in which the process is registered,
    and for all names. -/
theorem variants_iff (ape : Ape) {w : World} {pid : Pid} {d : PData} (hpd : w.pd pid = some d) :
    (∀ name dir fd, open_ ape w pid name dir fd = openat ape w pid AT_FDCWD name dir fd) ∧
      (∀ name, mkdir ape w pid name = mkdirat ape w pid AT_FDCWD name) ∧
      ∀ src dst, rename ape w pid src dst = renameat ape w pid AT_FDCWD src AT_FDCWD dst ↔
        ¬ (getPath ape d.cwd src = none ∧ getPath ape d.cwd dst ≠ none) :=
  ⟨fun name dir fd => (body_variant hpd (.open_ name dir fd)).mpr id,
    fun name => (body_variant hpd (.mkdir name)).mpr id,
    fun src dst => body_variant hpd (.rename src dst)⟩

theorem variants_iff_start :
    (∀ name dir fd, open_ (Apr.unixApe "/p".toList) (World.start "1".toList ".".toList)
        "1".toList name dir fd = openat (Apr.unixApe "/p".toList)
        (World.start "1".toList ".".toList) "1".toList AT_FDCWD name dir fd) ∧
      (∀ name, mkdir (Apr.unixApe "/p".toList) (World.start "1".toList ".".toList) "1".toList
        name = mkdirat (Apr.unixApe "/p".toList) (World.start "1".toList ".".toList) "1".toList
        AT_FDCWD name) ∧
      ∀ src dst, rename (Apr.unixApe "/p".toList) (World.start "1".toList ".".toList) "1".toList
          src dst = renameat (Apr.unixApe "/p".toList) (World.start "1".toList ".".toList)
          "1".toList AT_FDCWD src AT_FDCWD dst ↔
        ¬ (getPath (Apr.unixApe "/p".toList) ".".toList src = none ∧
          getPath (Apr.unixApe "/p".toList) ".".toList dst ≠ none) :=
  variants_iff (Apr.unixApe "/p".toList) (d := ⟨".".toList, fun _ => none⟩) rfl

/-- `rename( "/x", "y" )` raises, and `renameat` does not. -/
theorem rename_ne_renameat :
    rename (Apr.unixApe "/p".toList) (World.start "1".toList ".".toList) "1".toList
        "/x".toList "y".toList = .error .nilKey ∧
      rename (Apr.unixApe "/p".toList) (World.start "1".toList ".".toList) "1".toList
        "/x".toList "y".toList ≠
        renameat (Apr.unixApe "/p".toList) (World.start "1".toList ".".toList) "1".toList
          AT_FDCWD "/x".toList AT_FDCWD "y".toList := by
  have hpd : (World.start "1".toList ".".toList).pd "1".toList =
      some ⟨".".toList, fun _ => none⟩ := rfl
  have hraise : raisesOn (Apr.unixApe "/p".toList) ⟨".".toList, fun _ => none⟩
      (.rename "/x".toList "y".toList) = some .nilKey := by decide
  have hrename : rename (Apr.unixApe "/p".toList) (World.start "1".toList ".".toList) "1".toList
      "/x".toList "y".toList = .error .nilKey := by
    have h := @body_eq (Apr.unixApe "/p".toList) _ _ _ hpd (.rename "/x".toList "y".toList)
    rw [hraise] at h
    exact h
  have hrenameat : renameat (Apr.unixApe "/p".toList) (World.start "1".toList ".".toList)
      "1".toList AT_FDCWD "/x".toList AT_FDCWD "y".toList = .ok _ :=
    @body_eq (Apr.unixApe "/p".toList) _ _ _ hpd
      (.renameat AT_FDCWD "/x".toList AT_FDCWD "y".toList)
  refine ⟨hrename, ?_⟩
  rw [hrename, hrenameat]
  simp

/-- The events of a trace, some of them replaced by their variants. -/
def Replaced (e e' : Event) : Prop := e' = e ∨ Variant e e'

theorem replaces_machine (ape : Ape) : Replaces (machine ape) Replaced where
  announces := by
    rintro e e' (rfl | h)
    · rfl
    · cases h <;> rfl
  body := by
    rintro w w' p e e' (rfl | h) hb
    · exact hb
    · change body ape w p e = .ok w' at hb
      change body ape w p e' = .ok w'
      cases hpd : w.pd p with
      | none =>
          -- no plain call goes through for a process that is not registered
          exfalso
          cases h <;> simp [body, open_, mkdir, rename, withProc, hpd] at hb
      | some d =>
          have hr := @body_eq ape _ _ _ hpd e
          rw [hb] at hr
          have hmoves : ¬ MovesIn ape d e := by
            rw [← raisesOn_eq_none_iff]
            cases hraise : raisesOn ape d e with
            | none => rfl
            | some err => rw [hraise] at hr; cases hr
          rw [← (body_variant hpd h).mpr hmoves, hb]

/-- A trace that goes through leads to the same state with variants in place of plain calls. -/
theorem run_variants (ape : Ape) {depth : Nat} {log log' : List (Pid × Event)}
    (hlog : List.Forall₂ (fun x y => x.1 = y.1 ∧ Replaced x.2 y.2) log log') {w : World}
    {s : State Pid Event World} (h : run (machine ape) depth (State.start w) log = .ok s) :
    ∃ s', run (machine ape) depth (State.start w) log' = .ok s' ∧ s'.world = s.world := by
  obtain ⟨s', hs', hsame⟩ := run_replaced (replaces_machine ape) hlog (sameWorld_start w) h
  exact ⟨s', hs', hsame.world⟩

end Calls

end Buildsh.Variants
