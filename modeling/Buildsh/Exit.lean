/-
  `build.lua`: the handler that saves the dependency table at the exit.

  `Disk` is where `.deps.lua` is kept, by an operating system whose file operations succeed. The
  handler is switched off by `make.autoclean`, and on again by a call of `make.run` that executes
  its command. `saved_at_exit`: after any sequence of such calls, what is read after the exit is
  the table at the exit.

  `stored_run`: the tables on the way are those of `Records`, if the first one is, and
  `reached_restart` says with which of them the next buildsh starts.
-/
import Mathlib.Data.Set.List
import Mathlib.Logic.Relation
import Buildsh.DepsFile
import Buildsh.Rebuild

namespace Buildsh.Exit
open Buildsh.Commands Buildsh.Build Buildsh.DepsFile Buildsh.Rebuild

variable {σ D L : Type}

/-! ## The file -/

def depsLua : LuaString := ".deps.lua".toList

/-- The text of `.deps.lua`, where files can be written, and what cannot be removed is missing. -/
structure Disk (os : Os σ L) where
  read : σ → Option LuaString
  write : LuaString → σ → σ
  read_write : ∀ text s, read (write text s) = some text
  read_delete : ∀ s, read (os.delete s depsLua) = none

section Runs

variable {os : Os σ L} (disk : Disk os) (handler : Option (ExecHandler D L))

/-- The `__gc` of `load_deps`, at the exit. -/
def Disk.exit (b : Session σ) : σ :=
  if b.dontSave then b.files else disk.write (saveDeps b.dependencies) b.files

/-- What a build script can do; what it does else leaves `.deps.lua` alone. -/
inductive Step : Session σ → Session σ → Prop
  | run (b : Session σ) (argv : List LuaString) (dir : Option LuaString) :
      Step b (makeRun os handler b argv dir).1
  | autoclean (b : Session σ) : Step b (autoclean os b)
  | edit (b : Session σ) (files : σ) (h : disk.read files = disk.read b.files) :
      Step b { b with files := files }

/-- The states of a buildsh that has started with what it has read. -/
def Reached (b : Session σ) : Prop :=
  ∃ files deps, loadDeps (disk.read files) = some deps ∧
    Relation.ReflTransGen (Step disk handler) ⟨files, deps, false⟩ b

/-- **The invariant.** Without the handler there is nothing to save, and nothing is saved. -/
def Suppressed (b : Session σ) : Prop :=
  b.dontSave = true → b.dependencies = ∅ ∧ disk.read b.files = none

variable {disk handler} {b b' : Session σ}

/-- A call that executes its command switches the handler on. -/
theorem makeRun_executed {argv : List LuaString} {dir : Option LuaString} {deps : Deps}
    (h : checkDeps (os.hashFile b.files) b.dependencies (argv2cmd os.dirsep argv dir) =
      .ok (deps, true)) : (makeRun os handler b argv dir).1.dontSave = false := by
  unfold makeRun
  dsimp only
  rw [h]
  dsimp only
  cases ExecHandler.start handler argv with
  | error e => rfl
  | ok x =>
      dsimp only
      cases (os.exec x.1 dir b.files).result (x.1.head?.getD []) with
      | error e => rfl
      | ok log =>
          dsimp only
          cases handler.bind (·.postProcess) with
          | none => rfl
          | some post =>
              dsimp only
              cases post x.2 (dir.getD ['.']) log with
              | error e => rfl
              | ok report =>
                  dsimp only
                  split <;> rfl

/-- A call that leaves the handler switched off does nothing. -/
theorem makeRun_dontSave {argv : List LuaString} {dir : Option LuaString}
    (h : (makeRun os handler b argv dir).1.dontSave = true) :
    (makeRun os handler b argv dir).1 = b := by
  cases hcheck : checkDeps (os.hashFile b.files) b.dependencies
      (argv2cmd os.dirsep argv dir) with
  | error e =>
      unfold makeRun
      dsimp only
      rw [hcheck]
  | ok x =>
      obtain ⟨deps, runIt⟩ := x
      cases runIt with
      | true =>
          rw [makeRun_executed hcheck] at h
          cases h
      | false =>
          unfold makeRun
          dsimp only
          rw [hcheck]

theorem suppressed_step (hb : Suppressed disk b) (hs : Step disk handler b b') :
    Suppressed disk b' := by
  cases hs with
  | run argv dir =>
      intro h
      have hsame : (makeRun os handler b argv dir).1 = b := makeRun_dontSave h
      rw [hsame] at h ⊢
      exact hb h
  | autoclean =>
      intro _
      refine ⟨rfl, ?_⟩
      unfold autoclean
      dsimp only
      rw [List.foldl_append]
      exact disk.read_delete _
  | edit files hfiles =>
      intro h
      rw [hfiles]
      exact hb h

theorem suppressed_reached (h : Reached disk handler b) : Suppressed disk b := by
  obtain ⟨files, deps, -, hrun⟩ := h
  induction hrun with
  | refl => exact fun h => by cases h
  | tail _ hs ih => exact suppressed_step ih hs

/-- What is read after the exit, if the table can be read back. -/
theorem loadDeps_exit (h : Suppressed disk b)
    (hround : loadDeps (some (saveDeps b.dependencies)) = some b.dependencies) :
    loadDeps (disk.read (disk.exit b)) = some b.dependencies := by
  unfold Disk.exit
  by_cases hsave : b.dontSave = true
  · obtain ⟨hdeps, hnone⟩ := h hsave
    rw [if_pos hsave, hnone, hdeps]
    rfl
  · rw [if_neg hsave, disk.read_write]
    exact hround

/-- **The exit.** What is read after the exit is the table at the exit. -/
theorem saved_at_exit (h : Reached disk handler b)
    (hround : loadDeps (some (saveDeps b.dependencies)) = some b.dependencies) :
    loadDeps (disk.read (disk.exit b)) = some b.dependencies ∧
      (b.dontSave = true → b.dependencies = ∅ ∧ disk.read b.files = none) := by
  have hsup : Suppressed disk b := suppressed_reached h
  exact ⟨loadDeps_exit hsup hround, hsup⟩

end Runs

/-- Nothing but the text of `.deps.lua`, and commands that succeed. -/
def textOs : Os (Option LuaString) Unit where
  dirsep := '/'
  hash _ _ := "0".toList
  checkString _ := .error (.message "string expected".toList)
  exec _ _ s := .succeeded s ()
  remove name s := if name = depsLua ∧ s.isSome then some none else none
  dirRemove _ _ := none

def textDisk : Disk textOs where
  read s := s
  write text _ := some text
  read_write _ _ := rfl
  read_delete s := by cases s <;> rfl

/-- A record with one file, read and written. -/
def oneRecord : Records :=
  (∅ : Records).insert "ar".toList
    ⟨(∅ : Hashes).insert "lib.a".toList "0".toList, (∅ : Hashes).insert "lib.a".toList "0".toList⟩

/-- Cleaned up, and built again. -/
def rebuilt : Session (Option LuaString) :=
  (makeRun textOs (some updateHandler) (autoclean textOs ⟨none, ∅, false⟩) ["ar".toList] none).1

theorem rebuilt_reached : Reached textDisk (some updateHandler) rebuilt :=
  ⟨none, ∅, rfl, (Relation.ReflTransGen.single (.autoclean _)).tail (.run _ ["ar".toList] none)⟩

theorem rebuilt_dependencies : rebuilt.dependencies = oneRecord.deps := rfl

theorem saved_at_exit_rebuilt :
    loadDeps (textDisk.read (textDisk.exit rebuilt)) = some rebuilt.dependencies ∧
      (rebuilt.dontSave = true →
        rebuilt.dependencies = ∅ ∧ textDisk.read rebuilt.files = none) :=
  saved_at_exit rebuilt_reached (by
    rw [rebuilt_dependencies]
    exact loadDeps_limits oneRecord ⟨by decide +kernel, by decide +kernel, by decide +kernel⟩)

/-! ## The tables of `make.run` -/

/-- One of the tables of `Records`. -/
def Stored (deps : DepsTable) : Prop := ∃ R : Records, R.deps = deps

section Stored

/-- A table whose entries come from strings. -/
theorem exists_entries {β γ : Type} (f : β → γ) (t : AList (fun _ : Value => γ))
    (h : ∀ k v, t.lookup k = some v → ∃ s x, k = .str s ∧ v = f x) :
    ∃ t' : AList (fun _ : LuaString => β),
      t'.entries.map (fun x => (⟨.str x.1, f x.2⟩ : Sigma fun _ : Value => γ)) = t.entries := by
  have hrange : t.entries ∈ Set.range
      (List.map fun x : Sigma fun _ : LuaString => β => (⟨.str x.1, f x.2⟩ : Sigma fun _ => γ)) := by
    rw [Set.range_list_map]
    intro x hx
    obtain ⟨s, y, hs, hy⟩ := h x.1 x.2 (AList.mem_lookup_iff.mpr hx)
    exact ⟨⟨s, y⟩, Sigma.ext hs.symm (heq_of_eq hy.symm)⟩
  obtain ⟨l, hl⟩ := hrange
  have hkeys : l.keys.map .str = t.keys := by
    change l.keys.map .str = t.entries.keys
    rw [← hl]
    unfold List.keys
    rw [List.map_map, List.map_map]
    rfl
  refine ⟨⟨l, ?_⟩, hl⟩
  refine List.Nodup.of_map Value.str ?_
  rw [hkeys]
  exact t.nodupKeys

theorem exists_hashes {io : Io}
    (h : ∀ k v, io.lookup k = some v → ∃ fn hash, k = .str fn ∧ v = .str hash) :
    ∃ t : Hashes, t.io = io := by
  obtain ⟨t, ht⟩ := exists_entries Value.str io h
  exact ⟨t, AList.ext ht⟩

theorem stored_iff (deps : DepsTable) : Stored deps ↔
    ∀ k e, deps.lookup k = some e → ∃ cmd r, k = .str cmd ∧ e = Record.entry r := by
  constructor
  · rintro ⟨R, rfl⟩ k e hk
    obtain ⟨x, -, hx⟩ := List.mem_map.mp (AList.mem_lookup_iff.mp hk)
    cases hx
    exact ⟨x.1, x.2, rfl, rfl⟩
  · intro h
    obtain ⟨R, hR⟩ := exists_entries Record.entry deps h
    exact ⟨R, AList.ext hR⟩

/-- What is hashed again is a string afterwards. -/
theorem updateDepsIo_strings {hashFile : Value → Except LuaError LuaString} {onlynew : Bool}
    {io io' : Io} {differ : Bool}
    (h : updateDepsIo hashFile io onlynew false = .ok (io', differ)) {k v : Value}
    (hv : io'.lookup k = some v) : ∃ hash, v = .str hash := by
  obtain ⟨hnone, hsome⟩ := updateDepsIo_lookup h k
  cases hk : io.lookup k with
  | none =>
      rw [hnone hk] at hv
      cases hv
  | some w =>
      have hw := hsome w hk
      by_cases hre : rehashed onlynew w = true
      · rw [if_pos hre] at hw
        obtain ⟨hash, -, hlook⟩ := hw
        rw [hlook] at hv
        exact ⟨hash, (Option.some.inj hv).symm⟩
      · rw [if_neg hre, hv] at hw
        cases hw
        cases v with
        | str s => exact ⟨s, rfl⟩
        | _ => simp [rehashed, Value.isString] at hre

/-- What a run stores is a record. -/
theorem record_entry {hashFile : Value → Except LuaError LuaString} {deps deps' : Deps}
    {td : Base.TempDeps} (h : record hashFile deps td = .ok deps') :
    ∃ r : Record, r.entry = .table (some deps'.input) (some deps'.output) := by
  obtain ⟨⟨_, hin⟩, _, hout⟩ := record_ok h
  have hinput : ∃ t : Hashes, t.io = deps'.input := by
    refine exists_hashes fun k v hv => ?_
    obtain ⟨fn, -, rfl⟩ := mem_record_input h (AList.lookup_isSome.mp (by rw [hv]; rfl))
    obtain ⟨hash, rfl⟩ := updateDepsIo_strings hin hv
    exact ⟨fn, hash, rfl, rfl⟩
  have houtput : ∃ t : Hashes, t.io = deps'.output := by
    refine exists_hashes fun k v hv => ?_
    obtain ⟨fn, -, rfl⟩ := mem_record_output h (AList.lookup_isSome.mp (by rw [hv]; rfl))
    obtain ⟨hash, rfl⟩ := updateDepsIo_strings hout hv
    exact ⟨fn, hash, rfl, rfl⟩
  obtain ⟨input, hi⟩ := hinput
  obtain ⟨output, ho⟩ := houtput
  refine ⟨⟨input, output⟩, ?_⟩
  rw [Record.entry, hi, ho]

variable {os : Os σ L} {disk : Disk os} {handler : Option (ExecHandler D L)} {b b' : Session σ}

theorem stored_insert {deps : DepsTable} (h : Stored deps) (cmd : LuaString) (r : Record) :
    Stored (deps.insert (.str cmd) r.entry) := by
  rw [stored_iff] at h ⊢
  intro k e hk
  by_cases hkey : k = .str cmd
  · subst hkey
    rw [AList.lookup_insert] at hk
    exact ⟨cmd, r, rfl, (Option.some.inj hk).symm⟩
  · rw [AList.lookup_insert_ne hkey] at hk
    exact h k e hk

theorem stored_makeRun (h : Stored b.dependencies) (argv : List LuaString)
    (dir : Option LuaString) : Stored (makeRun os handler b argv dir).1.dependencies := by
  rcases makeRun_cases (Prod.eta (makeRun os handler b argv dir)).symm with
    ⟨-, hb, -⟩ | ⟨-, hdeps, -⟩ | ⟨-, report, ⟨hrec⟩⟩
  · rw [hb]
    exact h
  · rw [hdeps]
    exact h
  · obtain ⟨r, hr⟩ := record_entry hrec.recorded
    rw [hrec.stored, ← hr]
    exact stored_insert h _ r

theorem stored_empty : Stored ∅ := ⟨∅, rfl⟩

theorem stored_step (h : Stored b.dependencies) (hs : Step disk handler b b') :
    Stored b'.dependencies := by
  cases hs with
  | run argv dir => exact stored_makeRun h argv dir
  | autoclean => exact stored_empty
  | edit files hfiles => exact h

/-- The runs of a buildsh that starts with such a table. -/
theorem stored_run (h : Stored b.dependencies)
    (hrun : Relation.ReflTransGen (Step disk handler) b b') : Stored b'.dependencies := by
  induction hrun with
  | refl => exact h
  | tail _ hs ih => exact stored_step ih hs

/-- **The next buildsh.** It starts with the table that was there at the exit, if that one is
    not too large. -/
theorem reached_restart (h : Reached disk handler b) {R : Records} (hR : R.deps = b.dependencies)
    (hlim : Limits R) : Reached disk handler ⟨disk.exit b, b.dependencies, false⟩ := by
  have hround : loadDeps (some (saveDeps b.dependencies)) = some b.dependencies := by
    rw [← hR]
    exact loadDeps_limits R hlim
  exact ⟨_, _, loadDeps_exit (suppressed_reached h) hround, .refl⟩

end Stored

end Buildsh.Exit
