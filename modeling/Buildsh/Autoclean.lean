/-
  `make.autoclean` and the file system.

  The files are a tree. A name leads to a path of it (`lead`) by way of directories and links
  (`way`): which ones depends on the start directory, on `.` and `..`, and on where the links
  lead, and nothing below looks into that. A removal leads no name elsewhere, but a name of which
  a part of the way has gone leads nowhere. `os.remove` and `ape.dir_remove` remove what their name
  leads to if it is a file, a link or a directory with nothing in it (`onTree`).

  All outputs are deleted in one descending order of their names. Names of one path differ with
  the directory a command was run in, so a directory can come before what it contains: `d` is
  greater than `./d/x`. And a directory can come before a name that leads through it: `a` is greater
  than `./a/../z`. Nothing else keeps an output (`cleaned_iff`).
-/
import Buildsh.Apr
import Buildsh.Build
import Buildsh.Generic.FileTree
import Buildsh.Generic.Sweep

namespace Buildsh.Autoclean
open Buildsh.Generic Buildsh.Base Buildsh.Build FileTree Sweep

/-! ## Removing files -/

section Removal

variable {S : Type}

theorem ne_nil_of_file {t : FileTree S} {p : List S} (h : t.kind p = some .file) : p ≠ [] := by
  rintro rfl
  rw [t.root] at h
  cases h

/-- `q` lies below `p`. -/
def Below (q p : List S) : Prop := p <+: q ∧ q ≠ p

theorem bare_iff {t : FileTree S} {p : List S} :
    t.Bare p ↔ ∀ q ∈ {q | t.Has q}, ¬ Below q p := by
  constructor
  · intro h q hq hb
    obtain ⟨⟨s, rfl⟩, hne⟩ := hb
    exact h s (fun hs => hne (by rw [hs, List.append_nil])) hq
  · intro h s hs hhas
    exact h (p ++ s) hhas ⟨List.prefix_append p s, fun he => hs (List.append_right_eq_self.mp he)⟩

variable [DecidableEq S]

open Classical in
/-- `unlink` -/
noncomputable def rmFile (t : FileTree S) (p : List S) : Option (FileTree S) :=
  if h : t.kind p = some .file then some (t.remove p (ne_nil_of_file h)) else none

open Classical in
/-- `rmdir`. The root stays. -/
noncomputable def rmDir (t : FileTree S) (p : List S) : Option (FileTree S) :=
  if h : p ≠ [] ∧ t.kind p = some .dir ∧ t.Bare p then some (t.remove p h.1) else none

/-- What is gone after a removal of a path with nothing below it. -/
theorem kind_remove_of_bare {t : FileTree S} {p : List S} (hp : p ≠ []) (h : t.Bare p)
    {q : List S} (hq : q ≠ p) : (t.remove p hp).kind q = t.kind q := by
  unfold FileTree.remove
  dsimp only
  by_cases hpq : p <+: q
  · rw [if_pos hpq]
    by_contra hne
    exact bare_iff.mp h q (fun he => hne he.symm) ⟨hpq, hq⟩
  · rw [if_neg hpq]

end Removal

/-- The paths that exist. -/
def present (t : FileTree Seg) : Set (List Seg) := {p | t.Has p}

variable {L : Type} (os : Os (FileTree Seg) L) (lead : LuaString → List Seg)
  (way : LuaString → Set (List Seg))

open Classical in
/-- The system with the file tree in it. `os.remove` is `unlink` for files and `rmdir` for
    directories; neither finds a name of which a part of the way is missing. -/
noncomputable def onTree : Os (FileTree Seg) L :=
  { os with
    remove := fun f t =>
      if way f ⊆ present t then (rmFile t (lead f)).or (rmDir t (lead f)) else none
    dirRemove := fun f t => if way f ⊆ present t then rmDir t (lead f) else none }

theorem delete_eq {t : FileTree Seg} {f : LuaString} (h : way f ⊆ present t) :
    (onTree os lead way).delete t f = ((rmFile t (lead f)).or (rmDir t (lead f))).getD t := by
  unfold Os.delete onTree
  dsimp only
  rw [if_pos h, if_pos h]
  cases rmFile t (lead f) with
  | some t' => rfl
  | none => cases rmDir t (lead f) <;> rfl

theorem delete_of_missing {t : FileTree Seg} {f : LuaString} (h : ¬ way f ⊆ present t) :
    (onTree os lead way).delete t f = t := by
  unfold Os.delete onTree
  dsimp only
  rw [if_neg h, if_neg h]
  rfl

/-- Either the path goes, with nothing below it, or the tree stays as it is. -/
theorem delete_cases (t : FileTree Seg) (f : LuaString) :
    (∃ hp : lead f ≠ [], way f ⊆ present t ∧ t.Bare (lead f) ∧
        (onTree os lead way).delete t f = t.remove (lead f) hp) ∨
      ((onTree os lead way).delete t f = t ∧
        ¬ (t.Has (lead f) ∧ lead f ≠ [] ∧ t.Bare (lead f) ∧ way f ⊆ present t)) := by
  by_cases hway : way f ⊆ present t
  · rw [delete_eq os lead way hway]
    unfold rmFile rmDir
    by_cases hfile : t.kind (lead f) = some .file
    · rw [dif_pos hfile]
      exact Or.inl ⟨ne_nil_of_file hfile, hway, bare_of_file (by rw [hfile]; decide), rfl⟩
    · rw [dif_neg hfile]
      by_cases hdir : lead f ≠ [] ∧ t.kind (lead f) = some .dir ∧ t.Bare (lead f)
      · rw [dif_pos hdir]
        exact Or.inl ⟨hdir.1, hway, hdir.2.2, rfl⟩
      · rw [dif_neg hdir]
        refine Or.inr ⟨rfl, fun ⟨hhas, hne, hbare, _⟩ => hdir ⟨hne, ?_, hbare⟩⟩
        cases hk : t.kind (lead f) with
        | none => exact absurd hk hhas
        | some k =>
            cases k with
            | file => exact absurd hk hfile
            | dir => rfl
  · rw [delete_of_missing os lead way hway]
    exact Or.inr ⟨rfl, fun h => hway h.2.2.2⟩

theorem present_delete (t : FileTree Seg) (f : LuaString) :
    present ((onTree os lead way).delete t f) =
      removeOne Below (· ≠ []) (present t) (lead f) (way f) := by
  ext q
  rw [mem_removeOne]
  rcases delete_cases os lead way t f with ⟨hp, hway, hbare, hd⟩ | ⟨hd, hnot⟩
  · rw [hd]
    change (t.remove (lead f) hp).Has q ↔ _
    rw [has_remove hp]
    constructor
    · rintro ⟨hpq, hq⟩
      exact ⟨hq, fun h => hpq (h.1 ▸ List.prefix_rfl)⟩
    · rintro ⟨hq, h⟩
      refine ⟨fun hpq => ?_, hq⟩
      by_cases he : q = lead f
      · exact h ⟨he, hp, bare_iff.mp hbare, hway⟩
      · exact bare_iff.mp hbare q hq ⟨hpq, he⟩
  · rw [hd]
    constructor
    · intro hq
      refine ⟨hq, fun h => hnot ?_⟩
      obtain ⟨rfl, hne, hb, hway⟩ := h
      exact ⟨hq, hne, bare_iff.mpr hb, hway⟩
    · exact fun h => h.1

theorem kind_delete {t : FileTree Seg} {f : LuaString} {p : List Seg}
    (h : way f ⊆ present t → lead f ≠ p) :
    ((onTree os lead way).delete t f).kind p = t.kind p := by
  rcases delete_cases os lead way t f with ⟨hp, hway, hbare, hd⟩ | ⟨hd, -⟩
  · rw [hd, kind_remove_of_bare hp hbare (h hway).symm]
  · rw [hd]

theorem foldl_delete (t : FileTree Seg) (names : List LuaString) :
    present (names.foldl (onTree os lead way).delete t) =
        Sweep.sweep Below (· ≠ []) lead way (present t) names ∧
      ∀ p, (∀ f ∈ names, way f ⊆ present t → lead f ≠ p) →
        (names.foldl (onTree os lead way).delete t).kind p = t.kind p := by
  induction names generalizing t with
  | nil => exact ⟨rfl, fun _ _ => rfl⟩
  | cons f names ih =>
      obtain ⟨hp, hk⟩ := ih ((onTree os lead way).delete t f)
      have hsub : present ((onTree os lead way).delete t f) ⊆ present t := by
        rw [present_delete]
        exact removeOne_subset _ _ _
      rw [List.foldl_cons]
      constructor
      · rw [hp, present_delete, sweep_cons]
      · intro p h
        rw [List.forall_mem_cons] at h
        rw [hk p fun g hg hway => h.2 g hg (hway.trans hsub), kind_delete os lead way h.1]

/-! ## The names -/

/-- A command has `o` as one of its outputs. -/
def IsRecorded (deps : DepsTable) (o : LuaString) : Prop :=
  ∃ cmd input output, deps.lookup cmd = some (.table input (some output)) ∧ Value.str o ∈ output

theorem mem_filterMap_asString {l : List Value} {o : LuaString} :
    o ∈ l.filterMap asString ↔ Value.str o ∈ l := by
  rw [List.mem_filterMap]
  constructor
  · rintro ⟨v, hv, ho⟩
    cases v with
    | str s => cases ho; exact hv
    | bool b => cases ho
    | other n => cases ho
  · exact fun h => ⟨_, h, rfl⟩

theorem mem_collectOutputs {deps : DepsTable} {o : LuaString} :
    o ∈ collectOutputs deps ↔ IsRecorded deps o := by
  unfold collectOutputs
  rw [List.mem_mergeSort, List.mem_flatMap]
  constructor
  · rintro ⟨⟨cmd, e⟩, hx, ho⟩
    have hl : deps.lookup cmd = some e := AList.mem_lookup_iff.mpr hx
    cases e with
    | other v => cases ho
    | table input output =>
        cases output with
        | none => cases ho
        | some output => exact ⟨cmd, input, output, hl, mem_filterMap_asString.mp ho⟩
  · rintro ⟨cmd, input, output, hl, ho⟩
    exact ⟨⟨cmd, _⟩, AList.mem_lookup_iff.mp hl, mem_filterMap_asString.mpr ho⟩

theorem collectOutputs_sorted (deps : DepsTable) :
    (collectOutputs deps).Pairwise (fun a b => b ≤ a) := by
  unfold collectOutputs
  have h := @List.pairwise_mergeSort LuaString (fun a b => decide (b ≤ a))
    (fun a b c hab hbc => by
      rw [decide_eq_true_eq] at hab hbc ⊢
      exact hbc.trans hab)
    (fun a b => by
      rw [Bool.or_eq_true, decide_eq_true_eq, decide_eq_true_eq]
      exact le_total b a)
  exact (h _).imp fun hab => decide_eq_true_eq.mp hab

/-- What is deleted, with the place of `.deps.lua` in the order: `⊥`, since it comes last. -/
abbrev Name := WithBot LuaString

def nameStr (n : Name) : LuaString := n.unbotD ".deps.lua".toList

def IsName (deps : DepsTable) (n : Name) : Prop := ∀ o : LuaString, n = o → IsRecorded deps o

/-- The paths that are to be deleted: those that a name leads to. -/
def doomed (b : Session (FileTree Seg)) : Set (List Seg) :=
  {p | ∃ n, IsName b.dependencies n ∧ way (nameStr n) ⊆ present b.files ∧ lead (nameStr n) = p}

/-- What `make.autoclean` is for. -/
structure Cleaned (before after : Session (FileTree Seg)) : Prop where
  gone : ∀ p ∈ doomed lead way before, ¬ after.files.Has p
  kept : ∀ p ∉ doomed lead way before, after.files.kind p = before.files.kind p
  empty : after.dependencies = ∅

/-- Under its name `n` the path `p` can go, if every path goes at its turn: what lies below has
    gone by then, and nothing on the way of the name has. -/
structure CanGo (b : Session (FileTree Seg)) (turn : List Seg → Name) (p : List Seg) (n : Name) :
    Prop where
  isName : IsName b.dependencies n
  leads : lead (nameStr n) = p
  exist : way (nameStr n) ⊆ present b.files
  below : ∀ q, b.files.Has q → Below q p → n < turn q
  there : ∀ v ∈ way (nameStr n), v ∈ doomed lead way b → turn v ≤ n

/-- Every path to be deleted has its turn, the greatest name under which it can go, and what lies
    below is to be deleted as well. -/
def ContentsFirst (b : Session (FileTree Seg)) : Prop :=
  ∃ turn : List Seg → Name, ∀ p ∈ doomed lead way b, b.files.Has p →
    p ≠ [] ∧ (∀ q, b.files.Has q → Below q p → q ∈ doomed lead way b) ∧
      IsGreatest {n | CanGo lead way b turn p n} (turn p)

/-- The names in the order of their deletion. -/
def names (deps : DepsTable) : List Name := (collectOutputs deps).map (↑) ++ [⊥]

theorem mem_names {deps : DepsTable} {n : Name} : n ∈ names deps ↔ IsName deps n := by
  unfold names IsName
  rw [List.mem_append, List.mem_map, List.mem_singleton]
  constructor
  · rintro (⟨o, ho, rfl⟩ | rfl) o' ho'
    · rw [← WithBot.coe_injective ho']
      exact mem_collectOutputs.mp ho
    · cases ho'
  · intro h
    cases n using WithBot.recBotCoe with
    | bot => exact Or.inr rfl
    | coe o => exact Or.inl ⟨o, mem_collectOutputs.mpr (h o rfl), rfl⟩

theorem names_sorted (deps : DepsTable) : (names deps).Pairwise (fun a b => b ≤ a) := by
  unfold names
  rw [List.pairwise_append, List.pairwise_map]
  refine ⟨(collectOutputs_sorted deps).imp fun h => WithBot.coe_le_coe.mpr h,
    List.pairwise_singleton _ _, fun a _ b hb => ?_⟩
  rw [List.mem_singleton.mp hb]
  exact bot_le

theorem map_nameStr_names (deps : DepsTable) :
    (names deps).map nameStr = collectOutputs deps ++ [".deps.lua".toList] := by
  unfold names
  rw [List.map_append, List.map_map]
  congr 1
  exact List.map_id _

/-! ## The clean-up -/

variable {lead way} {b : Session (FileTree Seg)}

theorem has_autoclean (b : Session (FileTree Seg)) :
    present (autoclean (onTree os lead way) b).files =
      Sweep.sweep Below (· ≠ []) (fun n => lead (nameStr n)) (fun n => way (nameStr n))
        (present b.files) (names b.dependencies) := by
  change present ((collectOutputs b.dependencies ++ [".deps.lua".toList]).foldl
    (onTree os lead way).delete b.files) = _
  rw [(foldl_delete os lead way b.files _).1, ← map_nameStr_names, sweep_map]

theorem kind_autoclean {p : List Seg} (h : p ∉ doomed lead way b) :
    (autoclean (onTree os lead way) b).files.kind p = b.files.kind p := by
  refine (foldl_delete os lead way b.files _).2 p fun f hf hway he => h ?_
  rw [← map_nameStr_names] at hf
  obtain ⟨n, hn, rfl⟩ := List.mem_map.mp hf
  exact ⟨n, mem_names.mp hn, hway, he⟩

/-- A name under which a path can go, in terms of the sweep. -/
theorem canGo_iff {turn : List Seg → Name} {p : List Seg} {n : Name} :
    CanGo lead way b turn p n ↔ n ∈ names b.dependencies ∧
      InTurn Below (fun n => lead (nameStr n)) (fun n => way (nameStr n)) (present b.files)
        (doomed lead way b) turn p n := by
  rw [mem_names]
  exact ⟨fun h => ⟨h.isName, h.leads, h.exist, h.below, h.there⟩,
    fun ⟨hn, h⟩ => ⟨hn, h.lead_eq, h.sub, h.below, h.there⟩⟩

theorem contentsFirst_iff : ContentsFirst lead way b ↔
    ∃ turn, Turns Below (· ≠ []) (fun n => lead (nameStr n)) (fun n => way (nameStr n))
      (present b.files) (doomed lead way b) (names b.dependencies) turn := by
  refine exists_congr fun turn => ⟨fun h => ?_, fun h p hp hhas => ?_⟩
  · refine ⟨fun p hp => (h p hp.2 hp.1).1, fun p hp => (h p hp.2 hp.1).2.1, fun p hp => ?_⟩
    have hgreatest := (h p hp.2 hp.1).2.2
    simp only [canGo_iff] at hgreatest
    exact hgreatest
  · have hmem : p ∈ present b.files ∩ doomed lead way b := ⟨hhas, hp⟩
    simp only [canGo_iff]
    exact ⟨h.loose p hmem, h.closed p hmem, h.first p hmem⟩

theorem gone_iff :
    (∀ p ∈ doomed lead way b, ¬ (autoclean (onTree os lead way) b).files.Has p) ↔
      ContentsFirst lead way b := by
  rw [contentsFirst_iff, ← sweep_clears_iff (names_sorted b.dependencies), ← has_autoclean os]
  · rfl
  · exact fun n hn hway => ⟨n, mem_names.mp hn, hway, rfl⟩

/-- **What `make.autoclean` removes.** -/
theorem cleaned_iff (b : Session (FileTree Seg)) :
    Cleaned lead way b (autoclean (onTree os lead way) b) ↔ ContentsFirst lead way b :=
  ⟨fun h => (gone_iff os).mp h.gone,
    fun h => ⟨(gone_iff os).mpr h, fun _ => kind_autoclean os, rfl⟩⟩

/-! ## Two spellings of one directory -/

/-- Where segments of a name lead from the start directory, without links. -/
def placeAt (start name : LuaString) (l : List Seg) : List Seg :=
  ((if isAbs name then Place.base true else place start).walk l).names.reverse

def pathOf (start name : LuaString) : List Seg := placeAt start name (segments name)

/-- The directories on the way. -/
def wayOf (start name : LuaString) : Set (List Seg) :=
  {p | p ∈ (segments name).inits.dropLast.map (placeAt start name)}

/-- A tree with nothing in it. -/
def bareRoot : FileTree Seg where
  kind p := if p = [] then some .dir else none
  root := rfl
  closed l s h := by simp at h

def pathP : List Seg := ["p".toList]

def pathD : List Seg := ["p".toList, "d".toList]

def pathX : List Seg := ["p".toList, "d".toList, "x".toList]

/-- The directory `d` of the project `/p`, with the file `x` in it. -/
def treeDX : FileTree Seg :=
  ((bareRoot.put pathP .dir ⟨by decide, by decide⟩ (Or.inl rfl)).put pathD .dir
    ⟨by decide, by decide⟩ (Or.inl rfl)).put pathX .file ⟨by decide, by decide⟩
    (Or.inr (by decide))

theorem has_treeDX (e : List Seg) :
    treeDX.Has e ↔ e = [] ∨ e = pathP ∨ e = pathD ∨ e = pathX := by
  unfold Has treeDX put bareRoot
  dsimp only
  split_ifs <;> simp_all

/-- `mkdir ../d`, run in the directory `sub`, and `touch d/x`. -/
def spelledTwice : DepsTable :=
  ((∅ : DepsTable).insert (.str "touch d/x".toList)
    (.table (some ∅) (some ((∅ : Io).insert (.str "./d/x".toList) (.str ['h']))))).insert
    (.str "cd sub && mkdir ../d".toList)
    (.table (some ∅) (some ((∅ : Io).insert (.str "d".toList) (.str ['h']))))

theorem isRecorded_spelledTwice {o : LuaString} :
    IsRecorded spelledTwice o ↔ o = "d".toList ∨ o = "./d/x".toList := by
  rw [← mem_collectOutputs]
  unfold collectOutputs
  rw [List.mem_mergeSort]
  change o ∈ ["d".toList, "./d/x".toList] ↔ _
  rw [List.mem_cons, List.mem_singleton]

def sessionDX : Session (FileTree Seg) := ⟨treeDX, spelledTwice, false⟩

theorem name_cases {n : Name} (h : IsName spelledTwice n) :
    n = ⊥ ∨ n = ("d".toList : LuaString) ∨ n = ("./d/x".toList : LuaString) := by
  cases n using WithBot.recBotCoe with
  | bot => exact Or.inl rfl
  | coe o =>
      rcases isRecorded_spelledTwice.mp (h o rfl) with ho | ho
      · exact Or.inr (Or.inl (congrArg _ ho))
      · exact Or.inr (Or.inr (congrArg _ ho))

/-- The directories on the way of every name are `/`, `p` and `d`. -/
theorem way_spelledTwice {n : Name} (h : IsName spelledTwice n) :
    wayOf "/p".toList (nameStr n) ⊆ present treeDX := by
  have hlist : ∀ l : List (List Seg), (∀ p ∈ l, p = [] ∨ p = pathP ∨ p = pathD ∨ p = pathX) →
      {p | p ∈ l} ⊆ present treeDX := fun l hl p hp => (has_treeDX p).mpr (hl p hp)
  rcases name_cases h with rfl | rfl | rfl
  · exact hlist _ (by decide)
  · exact hlist _ (by decide)
  · exact hlist _ (by decide)

theorem mem_doomed_recorded {o : LuaString} (h : IsRecorded spelledTwice o) :
    pathOf "/p".toList o ∈ doomed (pathOf "/p".toList) (wayOf "/p".toList) sessionDX := by
  have hname : IsName spelledTwice o := fun _ he => WithBot.coe_injective he ▸ h
  exact ⟨o, hname, way_spelledTwice hname, rfl⟩

theorem doomed_D : pathD ∈ doomed (pathOf "/p".toList) (wayOf "/p".toList) sessionDX :=
  mem_doomed_recorded (isRecorded_spelledTwice.mpr (Or.inl rfl))

theorem doomed_X : pathX ∈ doomed (pathOf "/p".toList) (wayOf "/p".toList) sessionDX :=
  mem_doomed_recorded (isRecorded_spelledTwice.mpr (Or.inr rfl))

/-- The only name of the directory comes before the only name of its file. -/
theorem not_contentsFirst_spelledTwice :
    ¬ ContentsFirst (pathOf "/p".toList) (wayOf "/p".toList) sessionDX := by
  rintro ⟨turn, h⟩
  obtain ⟨-, -, hD, -⟩ := h pathD doomed_D ((has_treeDX _).mpr (by simp))
  obtain ⟨-, -, hX, -⟩ := h pathX doomed_X ((has_treeDX _).mpr (by simp))
  have hturnD : turn pathD = ("d".toList : LuaString) := by
    have hlead := hD.leads
    rcases name_cases hD.isName with hn | hn | hn
    · rw [hn] at hlead
      exact absurd hlead (by decide)
    · exact hn
    · rw [hn] at hlead
      exact absurd hlead (by decide)
  have hturnX : turn pathX = ("./d/x".toList : LuaString) := by
    have hlead := hX.leads
    rcases name_cases hX.isName with hn | hn | hn
    · rw [hn] at hlead
      exact absurd hlead (by decide)
    · rw [hn] at hlead
      exact absurd hlead (by decide)
    · exact hn
  have hlt := hD.below pathX ((has_treeDX _).mpr (by simp)) ⟨by decide, by decide⟩
  rw [hturnD, hturnX, WithBot.coe_lt_coe] at hlt
  exact absurd hlt (by decide)

/-- Programs that are never started, and files that are never read. -/
def idleOs : Os (FileTree Seg) Unit where
  dirsep := '/'
  hash _ _ := []
  checkString _ := .ok []
  exec _ _ _ := .notCreated []
  remove _ _ := none
  dirRemove _ _ := none

/-- The keys are those of the two commands, all of them lead somewhere, and `d` contains nothing
    but the recorded `d/x`. -/
theorem not_cleaned_spelledTwice :
    getPath (Apr.unixApe "/p".toList) "sub".toList "../d".toList = some "d".toList ∧
      getPath (Apr.unixApe "/p".toList) ".".toList "d/x".toList = some "./d/x".toList ∧
      (∀ n, IsName spelledTwice n → wayOf "/p".toList (nameStr n) ⊆ present treeDX) ∧
      (∀ p ∈ doomed (pathOf "/p".toList) (wayOf "/p".toList) sessionDX, ∀ q, treeDX.Has q →
        Below q p → q ∈ doomed (pathOf "/p".toList) (wayOf "/p".toList) sessionDX) ∧
      ¬ Cleaned (pathOf "/p".toList) (wayOf "/p".toList) sessionDX
        (autoclean (onTree idleOs (pathOf "/p".toList) (wayOf "/p".toList)) sessionDX) := by
  refine ⟨by decide, by decide, fun n => way_spelledTwice, ?_, fun h => ?_⟩
  · rintro p ⟨n, hn, -, rfl⟩ q hq ⟨hle, hne⟩
    rcases (has_treeDX q).mp hq with rfl | rfl | rfl | rfl
    · rcases name_cases hn with rfl | rfl | rfl
      · exact absurd hle (by decide)
      · exact absurd hle (by decide)
      · exact absurd hle (by decide)
    · rcases name_cases hn with rfl | rfl | rfl
      · exact absurd hle (by decide)
      · exact absurd hle (by decide)
      · exact absurd hle (by decide)
    · exact doomed_D
    · exact doomed_X
  · exact not_contentsFirst_spelledTwice ((gone_iff idleOs).mp h.gone)

end Buildsh.Autoclean
