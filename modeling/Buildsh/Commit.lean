/-
  `build.lua`: what a call of `make.run` does to the dependency table, by reference.

  The record of a command is copied, rehashed, merged with the tables of the tracer and stored.
  Up to the last step everything that is written lies behind the tables of the start
  (`Heap.Keeps`), so an error leaves these alone; the last step assigns one field of the dependency
  table. The record that is stored refers to newer tables only, and another entry leads to one of
  them exactly if it leads to the dependency table itself (`makeRun_commits`).
-/
import Buildsh.Build
import Buildsh.Records

namespace Buildsh.Records
open Buildsh.Generic Buildsh.Base Buildsh.Commands

/-! ## The tables of a tracer -/

/-- A value that a tracer stores; the modelled ones store nothing but `true`. -/
def ofValue : Value → Val
  | .bool b => .bool b
  | .str s => .str s
  | .other n => .num n

/-- A table of a tracer, whose keys are strings. -/
def ofTable (t : Table LuaString) : Obj :=
  rekey Val.str (fun _ _ h => Val.str.inj h) ofValue t

theorem ofValue_ne_table (v : Value) (r : Nat) : ofValue v ≠ .table r := by
  cases v with
  | bool b => exact Val.noConfusion
  | str b => exact Val.noConfusion
  | other b => exact Val.noConfusion

theorem not_link_ofTable (t : Table LuaString) (r : Nat) : ¬ link (ofTable t) r := by
  rintro ⟨k, hk⟩
  obtain ⟨x, -, hx⟩ := List.mem_map.mp (AList.mem_lookup_iff.mp hk)
  exact ofValue_ne_table x.2 r (congrArg (fun e : Entry => e.2) hx)

/-- A new table with this content. -/
def allocTable (o : Obj) : Prog Nat := modifyGet fun h => (h.length, h ++ [o])

/-! ## `make.run` -/

section Program

variable (order : Order) (numText : Nat → LuaString)

/-- `base.finish`, for the tables `td.input` and `td.output`. -/
def finish (deps tdInput tdOutput : Nat) : Prog PUnit := do
  (← pairs order tdInput).forM fun e => do
    match (← rawget (← toTable (← rawget deps input)) e.1).filter Val.truthy with
    | some h => rawset tdInput e.1 h
    | none => return ⟨⟩
  rawset deps input (.table tdInput)
  rawset deps output (.table tdOutput)

/-- The end of `make.run`, with the tables that `post_process` has filled. -/
def record (hash : LuaString → LuaString) (depstable : Nat) (cmd : Val) (deps : Nat)
    (td : TempDeps) : Prog PUnit := do
  let tdInput ← allocTable (ofTable td.input)
  let tdOutput ← allocTable (ofTable td.output)
  finish order deps tdInput tdOutput
  let _ ← updateDepsIo order numText hash (← toTable (← rawget deps input)) true false
  let _ ← updateDepsIo order numText hash (← toTable (← rawget deps output)) false false
  rawset depstable cmd (.table deps)

/-- The files, and the state of `build.lua`. -/
structure Session (σ : Type) where
  files : σ
  heap : Heap Obj
  dontSave : Bool

variable {σ D L : Type} (os : Build.Os σ L)

/-- `make.run`, for the arguments with the program in front. -/
def makeRun (depth : Nat) (handler : Option (Build.ExecHandler D L)) (root : Nat)
    (b : Session σ) (argv : List LuaString) (dir : Option LuaString) :
    Session σ × Build.RunResult :=
  let sargv := .str (argv2cmd os.dirsep argv dir)
  match checkDeps order numText (os.hash b.files) depth root sargv b.heap with
  | .error e h => ({ b with heap := h }, .raised e)
  | .ok (_, false) h => ({ b with heap := h }, .skipped)
  | .ok (deps, true) h =>
      let b := { b with heap := h, dontSave := false }
      match Build.ExecHandler.start handler argv with
      | .error e => (b, .raised e)
      | .ok (argv, data) =>
          let outcome := os.exec argv dir b.files
          let b := { b with files := outcome.files b.files }
          match outcome.result (argv.head?.getD []) with
          | .error e => (b, .raised e)
          | .ok log =>
              match handler.bind (·.postProcess) with
              | none => (b, .done)
              | some post =>
                  match post data (dir.getD ['.']) log with
                  | .error e => (b, .raised e)
                  | .ok report =>
                      match record order numText (os.hash b.files) root sargv deps report.td
                          b.heap with
                      | .error e h => ({ b with heap := h }, .raised e)
                      | .ok _ h => ({ b with heap := h }, .done)

end Program

/-! ## What a record refers to -/

section Rules

variable {h₀ h s x : Heap Obj} {r d tdInput tdOutput : Nat} {order : Order}
  {numText : Nat → LuaString} {hash : LuaString → LuaString} {td : TempDeps} {cmd : Val}

@[simp] theorem wp_allocTable {Q : Nat → Heap Obj → Prop} {E : LuaError → Heap Obj → Prop}
    (o : Obj) : wp (allocTable o) Q E h ↔ Q h.length (h ++ [o]) := Iff.rfl

theorem wp_toTable_of {Q : Nat → Heap Obj → Prop} {E : LuaError → Heap Obj → Prop}
    {v : Option Val} (hQ : ∀ r, v = some (.table r) → Q r s) (hE : ∀ e, E e s) :
    wp (toTable v) Q E s := by
  unfold toTable
  cases hv : asTable v with
  | none => exact hE _
  | some r => exact hQ r (asTable_eq_some.mp hv)

/-- A reference to a table that has been allocated behind `h₀`. -/
def Newer (h₀ s : Heap Obj) (r : Nat) : Prop := h₀.length ≤ r ∧ r < s.length

/-- A later heap, with `h₀` as it was. -/
def Later (h₀ s x : Heap Obj) : Prop := Heap.Keeps link h₀ x ∧ s.length ≤ x.length

theorem Newer.later (hr : Newer h₀ s r) (hx : Later h₀ s x) : Newer h₀ x r :=
  ⟨hr.1, Nat.lt_of_lt_of_le hr.2 hx.2⟩

/-- What is read from a newer table is newer, if it is a table. -/
theorem Newer.of_lookup {k : Val} {r' : Nat} (hs : Heap.Keeps link h₀ s) (hr : Newer h₀ s r)
    (hk : (Heap.get s r).lookup k = some (.table r')) : Newer h₀ s r' :=
  hs.above r r' hr.1 ⟨k, hk⟩

theorem Later.rawset {k v : Val} (hx : Later h₀ s x) (hr : Newer h₀ s r)
    (hv : ∀ r', v = .table r' → Newer h₀ x r') :
    Later h₀ s (x.set r ((Heap.get x r).insert k v)) := by
  refine ⟨keeps_rawset hx.1 hr.1 hv, ?_⟩
  rw [List.length_set]
  exact hx.2

theorem Later.alloc (hx : Later h₀ s x) (t : Table LuaString) :
    Later h₀ s (x ++ [ofTable t]) ∧ Newer h₀ (x ++ [ofTable t]) x.length := by
  have hlen := hx.1.length_le
  refine ⟨⟨hx.1.alloc fun r' hr' => absurd hr' (not_link_ofTable t r'), ?_⟩, hlen, ?_⟩
  · rw [List.length_append]
    exact Nat.le_trans hx.2 (Nat.le_add_right _ _)
  · rw [List.length_append, List.length_singleton]
    exact Nat.lt_succ_self _

theorem wp_updateDepsIo {io : Nat} (hx : Later h₀ s x) (hio : Newer h₀ x io)
    (onlynew stop : Bool) :
    wp (updateDepsIo order numText hash io onlynew stop) (fun _ s' => Later h₀ s s')
      (fun _ s' => Later h₀ s s') x := by
  refine wp_mono (updateDepsIo_inv onlynew (Later h₀ x) (fun x' k a hx' => ?_) ⟨hx.1, le_refl _⟩)
    (fun _ s' h => ⟨h.1, Nat.le_trans hx.2 h.2⟩) fun _ s' h => ⟨h.1, Nat.le_trans hx.2 h.2⟩
  exact hx'.rawset hio (by simp)

/-- `finish` moves hashes of the old record into the tables of the tracer, and these into the
    record. -/
theorem finish_spec (hs : Heap.Keeps link h₀ s) (hd : Newer h₀ s d) (hi : Newer h₀ s tdInput)
    (ho : Newer h₀ s tdOutput) :
    wp (finish order d tdInput tdOutput) (fun _ x => Later h₀ s x) (fun _ x => Later h₀ s x) s := by
  unfold finish
  rw [wp_bind, wp_pairs, wp_bind]
  refine wp_mono (wp_forM (fun _ x => Later h₀ s x) _ (fun u e v x _ hx => ?_) ⟨hs, le_refl _⟩)
    (fun _ x hx => ?_) fun _ _ h => h
  · rw [wp_bind, wp_rawget, wp_bind]
    refine wp_toTable_of (fun r hr => ?_) fun _ => hx
    have hr' : Newer h₀ x r := (hd.later hx).of_lookup hx.1 hr
    rw [wp_bind, wp_rawget]
    cases hheld : ((Heap.get x r).lookup e.1).filter Val.truthy with
    | none => exact hx
    | some a =>
        refine hx.rawset hi fun r₂ hr₂ => hr'.of_lookup hx.1 (k := e.1) ?_
        rw [(Option.filter_eq_some_iff.mp hheld).1, hr₂]
  · rw [wp_bind, wp_rawset, wp_rawset]
    have hx' := hx.rawset (k := input) hd (v := .table tdInput) (by rintro _ ⟨⟩; exact hi.later hx)
    exact hx'.rawset hd (by rintro _ ⟨⟩; exact ho.later hx')

/-- The record is stored in the last step, or an error leaves `h₀` as it was. -/
theorem record_spec {root : Nat} (hs : Heap.Keeps link h₀ s) (hd : Newer h₀ s d) :
    wp (record order numText hash root cmd d td)
      (fun _ x => ∃ y, Heap.Keeps link h₀ y ∧ Newer h₀ y d ∧
        x = y.set root ((Heap.get y root).insert cmd (.table d)))
      (fun _ x => h₀ <+: x) s := by
  unfold record
  rw [wp_bind, wp_allocTable, wp_bind, wp_allocTable, wp_bind]
  obtain ⟨hx₁, hi⟩ := Later.alloc ⟨hs, le_refl _⟩ td.input
  obtain ⟨hx₂, ho⟩ := Later.alloc ⟨hx₁.1, le_refl _⟩ td.output
  refine wp_mono (finish_spec hx₂.1 ((hd.later hx₁).later hx₂) (hi.later hx₂) ho)
    (fun _ x hx => ?_) fun _ x hx => hx.1.isPrefix
  have hdx := ((hd.later hx₁).later hx₂).later hx
  rw [wp_bind, wp_rawget, wp_bind]
  refine wp_toTable_of (fun i hin => ?_) fun _ => hx.1.isPrefix
  rw [wp_bind]
  refine wp_mono (wp_updateDepsIo ⟨hx.1, le_refl _⟩ (hdx.of_lookup hx.1 hin) true false)
    (fun _ y hy => ?_) fun _ y hy => hy.1.isPrefix
  rw [wp_bind, wp_rawget, wp_bind]
  refine wp_toTable_of (fun o hout => ?_) fun _ => hy.1.isPrefix
  have hdy := hdx.later hy
  rw [wp_bind]
  refine wp_mono (wp_updateDepsIo ⟨hy.1, le_refl _⟩ (hdy.of_lookup hy.1 hout) false false)
    (fun _ z hz => ?_) fun _ z hz => hz.1.isPrefix
  exact ⟨z, hz.1, hdy.later hz, rfl⟩

theorem differs_later (hs : Heap.Keeps link h₀ s) (hd : Newer h₀ s d) :
    wp (differs order numText hash d) (fun _ x => Later h₀ s x) (fun _ x => h₀ <+: x) s := by
  unfold differs
  rw [wp_bind, wp_rawget, wp_bind]
  refine wp_toTable_of (fun i hin => ?_) fun _ => hs.isPrefix
  rw [wp_bind]
  refine wp_mono (wp_updateDepsIo ⟨hs, le_refl _⟩ (hd.of_lookup hs hin) false false)
    (fun b x hx => ?_) fun _ x hx => hx.1.isPrefix
  cases b with
  | true => exact hx
  | false =>
      rw [if_neg (by decide), wp_bind, wp_rawget, wp_bind]
      refine wp_toTable_of (fun o hout => ?_) fun _ => hx.1.isPrefix
      exact wp_mono (wp_updateDepsIo hx ((hd.later hx).of_lookup hx.1 hout) false true)
        (fun _ y hy => hy) fun _ y hy => hy.1.isPrefix

/-- The record that `check_deps` returns is a new table. -/
theorem checkDeps_newer (order : Order) (numText : Nat → LuaString)
    (hash : LuaString → LuaString) (depth : Nat) (st : Store) (cmd : Val) :
    wp (checkDeps order numText hash depth st.root cmd)
      (fun p x => Heap.Keeps link st.heap x ∧ Newer st.heap x p.1)
      (fun _ x => st.heap <+: x) st.heap := by
  refine wp_checkDeps (fun _ s r hs _ _ => hs) (fun d s hk hd hlt _ _ => ⟨hk, hd, hlt⟩)
    fun d s r i o i' o' hd hlt hf _ => ?_
  have hnew : Newer st.heap s d := ⟨hd, hlt⟩
  exact wp_mono (differs_later hf.keeps hnew) (fun _ x hx => ⟨hx.1, hnew.later hx⟩) fun _ _ h => h

end Rules

/-! ## The dependency table afterwards -/

/-- `cmd` has a new record: the other entries and all other tables are as before, and what the
    record refers to is new. -/
structure Replaced (st : Store) (cmd : Val) (h : Heap Obj) (d : Nat) : Prop where
  stored : (Heap.get h st.root).lookup cmd = some (.table d)
  entries : ∀ k, k ≠ cmd → (Heap.get h st.root).lookup k = (Heap.get st.heap st.root).lookup k
  tables : ∀ r, r < st.heap.length → r ≠ st.root → Heap.get h r = Heap.get st.heap r
  fresh : ∀ r, Heap.Reach link h d r → st.heap.length ≤ r

section Afterwards

variable {st : Store} {cmd : Val} {h y : Heap Obj} {d : Nat}

theorem replaced_of_stored (hy : Heap.Keeps link st.heap y) (hd : Newer st.heap y d)
    (hh : h = y.set st.root ((Heap.get y st.root).insert cmd (.table d))) :
    Replaced st cmd h d := by
  have hroot := st.root_lt
  have hold : Heap.get y st.root = Heap.get st.heap st.root := Heap.get_older hy.isPrefix hroot
  have hself : Heap.get h st.root = (Heap.get st.heap st.root).insert cmd (.table d) := by
    rw [hh, hold, Heap.get_set_self (Nat.lt_of_lt_of_le hroot hy.length_le)]
  refine ⟨?_, fun k hk => ?_, fun r hr hne => ?_, fun r hr => ?_⟩
  · rw [hself, AList.lookup_insert]
  · rw [hself, AList.lookup_insert_ne hk]
  · rw [hh, Heap.get_set_of_ne _ hne, Heap.get_older hy.isPrefix hr]
  · -- the dependency table is older than all these tables, so the assignment changes none of them
    induction hr with
    | refl => exact hd.1
    | @tail a b _ hab ih =>
        rw [hh, Heap.get_set_of_ne _ (by omega)] at hab
        exact (hy.above a b ih hab).1

/-- Another entry leads to a table of the new record exactly if it leads to the dependency table,
    which the record hangs from. -/
theorem Replaced.reach_iff (hr : Replaced st cmd h d) {k : Val} {e x : Nat} (hk : k ≠ cmd)
    (he : (Heap.get h st.root).lookup k = some (.table e)) (hx : Heap.Reach link h d x) :
    Heap.Reach mentions h e x ↔ Heap.Reach mentions h e st.root := by
  constructor
  · intro hex
    have hlt : e < st.heap.length := by
      rw [hr.entries k hk] at he
      exact st.closed st.root e (Or.inl ⟨k, he⟩)
    have hge := hr.fresh x hx
    rcases Heap.lt_or_reach st.closed hr.tables hlt hex with h' | h'
    · omega
    · exact h'
  · intro hroot
    have hd : Heap.Reach mentions h st.root d :=
      Relation.ReflTransGen.single (Or.inl ⟨cmd, hr.stored⟩)
    exact (hroot.trans hd).trans (Relation.ReflTransGen.mono (fun _ _ hab => Or.inl hab) _ _ hx)

end Afterwards

section Committing

variable {σ D L : Type} (order : Order) (numText : Nat → LuaString) (os : Build.Os σ L)

/-- What a call of `make.run` for command `cmd` has done to the tables in `st`. -/
def Commits (st : Store) (cmd : Val) (traced : Prop) (h : Heap Obj) : Build.RunResult → Prop
  | .raised _ => st.heap <+: h
  | .skipped => st.heap <+: h
  | .done =>
      (¬ traced ∧ st.heap <+: h) ∨
      (traced ∧ ∃ d, Replaced st cmd h d ∧
        ∀ k e x, k ≠ cmd → (Heap.get h st.root).lookup k = some (.table e) →
          Heap.Reach link h d x → (Heap.Reach mentions h e x ↔ Heap.Reach mentions h e st.root))

theorem record_replaces (hash : LuaString → LuaString) {st : Store} (cmd : Val) {h : Heap Obj}
    {d : Nat} (hk : Heap.Keeps link st.heap h) (hd : Newer st.heap h d) (td : TempDeps) :
    wp (record order numText hash st.root cmd d td) (fun _ x => Replaced st cmd x d)
      (fun _ x => st.heap <+: x) h := by
  refine wp_mono (record_spec hk hd) (fun _ x hx => ?_) fun _ _ hx => hx
  obtain ⟨y, hy, hdy, hxy⟩ := hx
  exact replaced_of_stored hy hdy hxy

/-- An error leaves all tables as they were; a run that is traced to its end stores a new record
    under its command and changes nothing else. -/
theorem makeRun_commits (depth : Nat) (handler : Option (Build.ExecHandler D L)) (st : Store)
    (files : σ) (dontSave : Bool) (argv : List LuaString) (dir : Option LuaString) :
    let run := makeRun order numText os depth handler st.root ⟨files, st.heap, dontSave⟩ argv dir
    Commits st (.str (argv2cmd os.dirsep argv dir)) ((handler.bind (·.postProcess)).isSome)
      run.1.heap run.2 := by
  have hcheck := checkDeps_newer order numText (os.hash files) depth st
    (.str (argv2cmd os.dirsep argv dir))
  dsimp only [makeRun]
  cases hc : checkDeps order numText (os.hash files) depth st.root
      (.str (argv2cmd os.dirsep argv dir)) st.heap with
  | error e h => exact of_wp_error hcheck hc
  | ok p h =>
      have hcheck := of_wp_ok hcheck hc
      obtain ⟨deps, runIt⟩ := p
      cases runIt with
      | false => exact hcheck.1.isPrefix
      | true =>
          dsimp only
          cases hstart : Build.ExecHandler.start handler argv with
          | error e => exact hcheck.1.isPrefix
          | ok pair =>
              obtain ⟨argv', data⟩ := pair
              dsimp only
              cases hrun : (os.exec argv' dir files).result (argv'.head?.getD []) with
              | error e => exact hcheck.1.isPrefix
              | ok log =>
                  dsimp only
                  cases hpost : handler.bind (·.postProcess) with
                  | none => exact Or.inl ⟨by simp, hcheck.1.isPrefix⟩
                  | some post =>
                      dsimp only
                      cases hp : post data (dir.getD ['.']) log with
                      | error e => exact hcheck.1.isPrefix
                      | ok report =>
                          have hrecord := record_replaces order numText
                            (os.hash ((os.exec argv' dir files).files files))
                            (.str (argv2cmd os.dirsep argv dir)) hcheck.1 hcheck.2 report.td
                          dsimp only
                          cases hr : record order numText
                              (os.hash ((os.exec argv' dir files).files files)) st.root
                              (.str (argv2cmd os.dirsep argv dir)) deps report.td h with
                          | error e x => exact of_wp_error hrecord hr
                          | ok _ x =>
                              have hreplaced := of_wp_ok hrecord hr
                              exact Or.inr ⟨rfl, deps, hreplaced,
                                fun k e y hk he hy => hreplaced.reach_iff hk he hy⟩

end Committing

/-! ## The dependency table by value -/

/-- A value as a key or a hash of the dependency table by value, where numbers, functions and
    tables are told apart by an index. -/
def Val.value : Val → Value
  | .bool b => .bool b
  | .str s => .str s
  | .num n => .other (3 * n)
  | .func n => .other (3 * n + 1)
  | .table r => .other (3 * r + 2)

theorem value_injective : Function.Injective Val.value := by
  intro v w h
  cases v <;> cases w <;> simp only [Val.value, Value.bool.injEq, Value.str.injEq,
    Value.other.injEq, reduceCtorEq] at h <;> first | rw [h] | (congr 1; omega)

/-- A field of the record. -/
def ioOf (h : Heap Obj) (r : Nat) (field : Val) : Option Build.Io :=
  (asTable ((Heap.get h r).lookup field)).map fun i =>
    rekey Val.value value_injective Val.value (Heap.get h i)

def entryOf (h : Heap Obj) : Val → Build.Entry
  | .table r => .table (ioOf h r input) (ioOf h r output)
  | v => .other v.value

/-- The dependency table, with the records it refers to. -/
def Store.byValue (st : Store) : Build.DepsTable :=
  rekey Val.value value_injective (entryOf st.heap) (Heap.get st.heap st.root)

section ByValue

variable {numText : Nat → LuaString} {hash : LuaString → LuaString}
  {hashFile : Value → Except LuaError LuaString} {st : Store} {h : Heap Obj} {r : Nat} {f : Val}
  {io : Build.Io}

theorem ioOf_eq_some : ioOf h r f = some io ↔
    ∃ i, (Heap.get h r).lookup f = some (.table i) ∧
      io = rekey Val.value value_injective Val.value (Heap.get h i) := by
  unfold ioOf
  rw [Option.map_eq_some_iff]
  exact exists_congr fun i => by rw [asTable_eq_some]; exact and_congr_right fun _ => eq_comm

theorem lookup_byValue (cmd : LuaString) {input' output' : Option Build.Io} :
    st.byValue.lookup (.str cmd) = some (.table input' output') ↔
      ∃ r, (Heap.get st.heap st.root).lookup (.str cmd) = some (.table r) ∧
        input' = ioOf st.heap r input ∧ output' = ioOf st.heap r output := by
  have hl := lookup_rekey Val.value value_injective (entryOf st.heap)
    (Heap.get st.heap st.root) (.str cmd)
  change st.byValue.lookup (.str cmd) = _ at hl
  rw [hl, Option.map_eq_some_iff]
  constructor
  · rintro ⟨v, hv, he⟩
    cases v with
    | table r =>
        obtain ⟨rfl, rfl⟩ := Build.Entry.table.inj he
        exact ⟨r, hv, rfl, rfl⟩
    | bool b => cases he
    | num b => cases he
    | str b => cases he
    | func b => cases he
  · rintro ⟨r, hr, rfl, rfl⟩
    exact ⟨.table r, hr, rfl⟩

theorem rekey_eq_empty (o : Obj) :
    rekey Val.value value_injective Val.value o = ∅ ↔ o = ∅ := by
  constructor
  · intro h
    apply AList.ext
    exact List.map_eq_nil_iff.mp (congrArg AList.entries h)
  · rintro rfl
    rfl

theorem current_rekey (o : Obj)
    (hhash : ∀ v name, hashFile (Val.value v) = .ok name ↔
      ∃ file, fileName numText v = some file ∧ name = hash file) :
    Build.Current hashFile (rekey Val.value value_injective Val.value o) ↔
      Current numText hash o := by
  have hstr : ∀ (v : Val) (name : LuaString), v.value = .str name ↔ v = .str name := fun v name =>
    ⟨fun h => value_injective h, fun h => by rw [h]; rfl⟩
  have hcur : ∀ k v : Val, (∃ name, hashFile k.value = .ok name ∧ v.value = .str name) ↔
      IsCurrent numText hash k v := by
    intro k v
    constructor
    · rintro ⟨name, hn, hv⟩
      obtain ⟨file, hf, rfl⟩ := (hhash k name).mp hn
      exact ⟨file, hf, (hstr v _).mp hv⟩
    · rintro ⟨file, hf, hv⟩
      exact ⟨hash file, (hhash k _).mpr ⟨file, hf, rfl⟩, (hstr v _).mpr hv⟩
  constructor
  · intro h k v hv
    refine (hcur k v).mp (h k.value v.value ?_)
    rw [lookup_rekey, hv]
    rfl
  · intro h fn w hw
    obtain ⟨x, hx, he⟩ := List.mem_map.mp (AList.mem_lookup_iff.mp hw)
    cases he
    exact (hcur x.1 x.2).mpr (h x.1 x.2 (AList.mem_lookup_iff.mpr hx))

/-- Both models of `check_deps` find the same records up to date. -/
theorem upToDate_iff_byValue (cmd : LuaString)
    (hhash : ∀ v name, hashFile (Val.value v) = .ok name ↔
      ∃ file, fileName numText v = some file ∧ name = hash file) :
    UpToDate numText hash st (.str cmd) ↔
      ∃ deps, Build.checkDeps hashFile st.byValue cmd = .ok (deps, false) := by
  rw [Build.checkDeps_false_iff]
  constructor
  · rintro ⟨r, i, o, hr, hi, ho, hne, hci, hco⟩
    refine ⟨_, _, (lookup_byValue cmd).mpr ⟨r, hr, (ioOf_eq_some.mpr ⟨i, hi, rfl⟩).symm,
      (ioOf_eq_some.mpr ⟨o, ho, rfl⟩).symm⟩, ?_, (current_rekey _ hhash).mpr hci,
      (current_rekey _ hhash).mpr hco⟩
    rw [ne_eq, ne_eq, rekey_eq_empty, rekey_eq_empty]
    exact not_and_or.mp hne
  · rintro ⟨input', output', hl, hne, hci, hco⟩
    obtain ⟨r, hr, hin, hout⟩ := (lookup_byValue cmd).mp hl
    obtain ⟨i, hi, rfl⟩ := ioOf_eq_some.mp hin.symm
    obtain ⟨o, ho, rfl⟩ := ioOf_eq_some.mp hout.symm
    rw [ne_eq, ne_eq, rekey_eq_empty, rekey_eq_empty] at hne
    exact ⟨r, i, o, hr, hi, ho, not_and_or.mpr hne, (current_rekey _ hhash).mp hci,
      (current_rekey _ hhash).mp hco⟩

end ByValue

/-! ## An entry that contains the dependency table -/

/-- `local t = {}; t.b = { input = {}, output = {}, all = t }; return t` -/
def enclosing : Store where
  heap := [AList.singleton (.str ['b']) (.table 1),
    ((AList.singleton input (.table 2)).insert output (.table 3)).insert
      (.str "all".toList) (.table 0), ∅, ∅]
  root := 0
  root_lt := by decide
  closed := closed_of_check (by decide)

/-- Every process succeeds. -/
def succeeding : Build.Os Unit Unit where
  dirsep := '/'
  hash := fun _ _ => "digest".toList
  checkString := fun _ => .error .indexNil
  exec := fun _ _ s => .succeeded s ()
  remove := fun _ _ => none
  dirRemove := fun _ _ => none

/-- A tracer that has seen no file. -/
def blind : Build.ExecHandler Unit Unit where
  preProcess := none
  postProcess := some fun _ _ _ => .ok ⟨⟨∅, ∅⟩, Build.marks_empty, Build.marks_empty⟩

/-- Command `a` is run with the dependency table of `enclosing`. -/
def enclosingRun : Session Unit × Build.RunResult :=
  makeRun asStored (fun _ => []) succeeding 200 (some blind) enclosing.root
    ⟨(), enclosing.heap, true⟩ [['a']] none

/-- No table hangs from the record of `cmd` and from another entry. -/
def Separate (st : Store) (cmd : Val) (h : Heap Obj) : Prop :=
  ∀ d k e x, (Heap.get h st.root).lookup cmd = some (.table d) → k ≠ cmd →
    (Heap.get h st.root).lookup k = some (.table e) → link (Heap.get h d) x →
    ¬ Heap.Reach link h e x

theorem enclosing_not_separate :
    enclosingRun.2 = .done ∧ ¬ Separate enclosing (.str ['a']) enclosingRun.1.heap := by
  refine ⟨by rfl, fun h => ?_⟩
  have hlinks : ∀ r x, (∃ k, (Heap.get enclosingRun.1.heap r).lookup k = some (.table x)) →
      link (Heap.get enclosingRun.1.heap r) x := fun _ _ h => h
  have hb := hlinks 1 0 ⟨.str "all".toList, by rfl⟩
  have ha := hlinks 0 4 ⟨.str ['a'], by rfl⟩
  have hi := hlinks 4 7 ⟨input, by rfl⟩
  refine h 4 (.str ['b']) 1 7 (by rfl) (by decide) (by rfl) hi ?_
  exact ((Relation.ReflTransGen.single hb).tail ha).tail hi

end Buildsh.Records
