/-
  The tables of `.deps.lua` by reference, and the part of `build.lua` that works on them.

  `.deps.lua` is a chunk that runs in an empty environment, so its table may hold any booleans,
  numbers, strings, functions and tables, also the same table twice, and a table inside itself.
  Tables are the objects of a heap; `check_deps` copies the record of a command there and rehashes
  the copy. Lua leaves the order of `pairs` open, so it is a parameter (`Order`).

  `deepCopy_spec`: a copy shares no table with anything, and the tables that are there stay as
  they are; it raises exactly where the value is nested too deep for Lua's stack.
-/
import Buildsh.Generic.Heap
import Buildsh.Lua

namespace Buildsh.Records
open Buildsh.Generic

/-! ## Values and tables -/

/-- A value other than `nil` that a chunk with an empty environment can make. A number or a
    function is told from the others by its index; NaN, which is no key, is among the numbers. -/
inductive Val where
  | bool (b : Bool)
  | num (n : Nat)
  | str (s : LuaString)
  | func (n : Nat)
  | table (r : Nat)
  deriving DecidableEq, Repr

/-- `type( v )` -/
def Val.typeName : Val → LuaString
  | .bool _ => "boolean".toList
  | .num _ => "number".toList
  | .str _ => "string".toList
  | .func _ => "function".toList
  | .table _ => "table".toList

/-- `type( v ) == "string"` -/
def Val.isString : Val → Bool
  | .str _ => true
  | _ => false

/-- Of the values here only `false` counts as false. -/
def Val.truthy : Val → Bool
  | .bool b => b
  | _ => true

/-- `type( v ) == "table"` -/
def asTable : Option Val → Option Nat
  | some (.table r) => some r
  | _ => none

abbrev Entry := Sigma fun _ : Val => Val

abbrev Obj := AList (fun _ : Val => Val)

section Values

variable {K K' V V' : Type} [DecidableEq K] [DecidableEq K']

/-- Every key and every value replaced. -/
def rekey (f : K → K') (hf : Function.Injective f) (g : V → V') (t : AList fun _ : K => V) :
    AList fun _ : K' => V' where
  entries := t.entries.map fun x => ⟨f x.1, g x.2⟩
  nodupKeys := by
    have h : (t.entries.map (fun x => (⟨f x.1, g x.2⟩ : Sigma fun _ : K' => V'))).keys =
        t.entries.keys.map f := by
      unfold List.keys
      rw [List.map_map, List.map_map]
      rfl
    unfold List.NodupKeys
    rw [h]
    exact t.nodupKeys.map hf

theorem lookup_rekey (f : K → K') (hf : Function.Injective f) (g : V → V')
    (t : AList fun _ : K => V) (k : K) : (rekey f hf g t).lookup (f k) = (t.lookup k).map g := by
  obtain ⟨l, hl⟩ := t
  unfold AList.lookup rekey
  dsimp only
  clear hl
  induction l with
  | nil => rfl
  | cons x l ih =>
      obtain ⟨k', v⟩ := x
      by_cases h : k = k'
      · subst h
        simp
      · have h' : f k ≠ f k' := fun he => h (hf he)
        rw [List.map_cons, List.dlookup_cons_ne _ _ h', List.dlookup_cons_ne _ _ h, ih]

end Values

/-- The table refers to `r` by the value of a field. -/
def link (o : Obj) (r : Nat) : Prop := ∃ k, o.lookup k = some (.table r)

/-- The table refers to `r` by the value of a field or by a key. -/
def mentions (o : Obj) (r : Nat) : Prop := link o r ∨ .table r ∈ o

/-- The order in which `pairs` yields the entries of a table. -/
structure Order where
  pairs : Heap Obj → Nat → List Entry
  perm : ∀ h r, (pairs h r).Perm (Heap.get h r).entries

/-- The tables after a dependency file is loaded, and which of them is the dependency table. -/
structure Store where
  heap : Heap Obj
  root : Nat
  root_lt : root < heap.length
  closed : Heap.Closed mentions heap

/-- All references of a table are below `n`. -/
def Obj.below (n : Nat) (o : Obj) : Bool :=
  let ok : Val → Bool := fun v => match v with
    | .table r => decide (r < n)
    | _ => true
  o.entries.all fun e => ok e.1 && ok e.2

theorem Obj.lt_of_below {n : Nat} {o : Obj} (h : o.below n = true) {r : Nat} (hm : mentions o r) :
    r < n := by
  unfold Obj.below at h
  rw [List.all_eq_true] at h
  rcases hm with ⟨k, hk⟩ | hk
  · have h' := h ⟨k, .table r⟩ (AList.mem_lookup_iff.mp hk)
    rw [Bool.and_eq_true] at h'
    exact of_decide_eq_true h'.2
  · obtain ⟨v, hv⟩ := Option.isSome_iff_exists.mp (AList.lookup_isSome.mpr hk)
    have h' := h ⟨.table r, v⟩ (AList.mem_lookup_iff.mp hv)
    rw [Bool.and_eq_true] at h'
    exact of_decide_eq_true h'.1

theorem closed_of_check {h : Heap Obj} (hc : h.all (Obj.below h.length) = true) :
    Heap.Closed mentions h := by
  intro r r' hm
  by_cases hr : r < h.length
  · refine Obj.lt_of_below (List.all_eq_true.mp hc (Heap.get h r) ?_) hm
    unfold Heap.get
    rw [List.getElem?_eq_getElem hr]
    exact List.getElem_mem hr
  · rw [Heap.get_of_le (Nat.le_of_not_lt hr)] at hm
    rcases hm with ⟨k, hk⟩ | hk
    · cases hk
    · exact absurd hk (AList.notMem_empty _)

/-! ## The program -/

/-- A part of the program, which may raise and changes the tables. -/
abbrev Prog (α : Type) := EStateM LuaError (Heap Obj) α

/-- `{}` -/
def newTable : Prog Nat := modifyGet fun h => (h.length, h ++ [∅])

/-- `t[ k ]` -/
def rawget (r : Nat) (k : Val) : Prog (Option Val) := do
  return (Heap.get (← get) r).lookup k

/-- `t[ k ] = v` -/
def rawset (r : Nat) (k v : Val) : Prog PUnit :=
  modify fun h => h.set r ((Heap.get h r).insert k v)

/-- The table that is to be indexed. -/
def toTable (v : Option Val) : Prog Nat :=
  match asTable v with
  | some r => return r
  | none => throw .indexNil

def input : Val := .str "input".toList

def output : Val := .str "output".toList

section Program

variable (order : Order) (numText : Nat → LuaString) (hash : LuaString → LuaString)

/-- `pairs( t )`. The loops below assign to no field that is still to come. -/
def pairs (r : Nat) : Prog (List Entry) := do
  return order.pairs (← get) r

/-- What the C function takes for a file name: a string, or the text of a number. -/
def fileName : Val → Option LuaString
  | .str s => some s
  | .num n => some (numText n)
  | _ => none

/-- The digest of the file, or the message if it cannot be hashed. -/
def hashFile (fn : Val) : Prog LuaString :=
  match fileName numText fn with
  | some name => return hash name
  | none => throw (.message ("bad argument #2 to 'hash_file' (string expected, got ".toList ++
      fn.typeName ++ ")".toList))

/-- `depth` is the number of nested calls that Lua's stack has room for. -/
def deepCopy : Nat → Val → Prog Val
  | 0, _ => throw (.message "stack overflow".toList)
  | depth + 1, .table r => do
      let t ← newTable
      (← pairs order r).forM fun x => do
        rawset t x.1 (← deepCopy depth x.2)
      return .table t
  | _ + 1, v => return v

/-- The loop of `update_deps_io`, with the pairs still to come and `differ`. -/
def updateLoop (depsIo : Nat) (onlynew stop : Bool) : List Entry → Bool → Prog Bool
  | [], differ => return differ
  | ⟨fn, ohash⟩ :: l, differ =>
      if !onlynew || !ohash.isString then do
        let nhash ← hashFile numText hash fn
        rawset depsIo fn (.str nhash)
        if ohash ≠ .str nhash then
          if stop then return true else updateLoop depsIo onlynew stop l true
        else updateLoop depsIo onlynew stop l differ
      else updateLoop depsIo onlynew stop l differ

def updateDepsIo (depsIo : Nat) (onlynew stop : Bool) : Prog Bool := do
  updateLoop numText hash depsIo onlynew stop (← pairs order depsIo) false

/-- `next( t ) == nil` -/
def isEmpty (r : Nat) : Prog Bool := do
  return (Heap.get (← get) r).entries.isEmpty

/-- `deps[ field ] = {}` -/
def emptyField (deps : Nat) (field : Val) : Prog PUnit := do
  rawset deps field (.table (← newTable))

/-- A field of the record that is no table is replaced by an empty one. -/
def provide (deps : Nat) (field : Val) : Prog Bool := do
  match asTable (← rawget deps field) with
  | some _ => return false
  | none => do
      emptyField deps field
      return true

/-- The copy of the record that is stored under the command, or a new one. -/
def copyRecord (depth : Nat) (depstable : Nat) (cmd : Val) : Prog (Nat × Bool) := do
  match asTable (← rawget depstable cmd) with
  | some r => do
      let deps ← toTable (some (← deepCopy order depth (.table r)))
      return (deps, false)
  | none => do
      let deps ← newTable
      emptyField deps input
      emptyField deps output
      return (deps, true)

/-- `next( deps.input ) == nil and next( deps.output ) == nil` -/
def bothEmpty (deps : Nat) : Prog Bool := do
  let noInputs ← isEmpty (← toTable (← rawget deps input))
  let noOutputs ← isEmpty (← toTable (← rawget deps output))
  return noInputs && noOutputs

/-- Both tables are rehashed, the outputs only up to the first difference. -/
def differs (deps : Nat) : Prog Bool := do
  if ← updateDepsIo order numText hash (← toTable (← rawget deps input)) false false then
    return true
  else
    updateDepsIo order numText hash (← toTable (← rawget deps output)) false true

def checkDeps (depth : Nat) (depstable : Nat) (cmd : Val) : Prog (Nat × Bool) := do
  let (deps, fresh) ← copyRecord order depth depstable cmd
  let noInput ← provide deps input
  let noOutput ← provide deps output
  let empty ← bothEmpty deps
  if fresh || noInput || noOutput || empty then return (deps, true)
  else return (deps, ← differs order numText hash deps)

end Program

section Rules

variable {ε : Type} {E : LuaError → Heap Obj → Prop} {h : Heap Obj}

@[simp] theorem wp_newTable {Q : Nat → Heap Obj → Prop} :
    wp newTable Q E h ↔ Q h.length (h ++ [∅]) := Iff.rfl

@[simp] theorem wp_rawget {Q : Option Val → Heap Obj → Prop} (r : Nat) (k : Val) :
    wp (rawget r k) Q E h ↔ Q ((Heap.get h r).lookup k) h := Iff.rfl

@[simp] theorem wp_rawset {Q : PUnit → Heap Obj → Prop} (r : Nat) (k v : Val) :
    wp (rawset r k v) Q E h ↔ Q ⟨⟩ (h.set r ((Heap.get h r).insert k v)) := Iff.rfl

@[simp] theorem wp_toTable {Q : Nat → Heap Obj → Prop} (r : Nat) :
    wp (toTable (some (.table r))) Q E h ↔ Q r h := Iff.rfl

@[simp] theorem wp_pairs {Q : List Entry → Heap Obj → Prop} (order : Order) (r : Nat) :
    wp (pairs order r) Q E h ↔ Q (order.pairs h r) h := Iff.rfl

@[simp] theorem wp_isEmpty {Q : Bool → Heap Obj → Prop} (r : Nat) :
    wp (isEmpty r) Q E h ↔ Q (Heap.get h r).entries.isEmpty h := Iff.rfl

end Rules

theorem asTable_eq_some {v : Option Val} {r : Nat} :
    asTable v = some r ↔ v = some (.table r) := by
  cases v with
  | none => simp [asTable]
  | some v => cases v <;> simp [asTable]

/-! ## Links -/

theorem not_link_empty (r : Nat) : ¬ link default r := by
  rintro ⟨k, hk⟩
  cases hk

/-- A field is assigned: the links of the table are the old ones and that of the value. -/
theorem link_insert {o : Obj} {k v : Val} {r : Nat} (h : link (o.insert k v) r) :
    v = .table r ∨ link o r := by
  obtain ⟨k', hk'⟩ := h
  by_cases hk : k' = k
  · subst hk
    rw [AList.lookup_insert] at hk'
    exact Or.inl (Option.some.inj hk')
  · rw [AList.lookup_insert_ne hk] at hk'
    exact Or.inr ⟨k', hk'⟩

/-- If no two fields refer to one table and a field is assigned a value that refers to none of
    these tables, no two fields do so afterwards. -/
theorem inj_insert {o : Obj} {k₀ w : Val}
    (hinj : ∀ k k' r, o.lookup k = some (.table r) → o.lookup k' = some (.table r) → k = k')
    (hw : ∀ r, w = .table r → ¬ link o r) :
    ∀ k k' r, (o.insert k₀ w).lookup k = some (.table r) →
      (o.insert k₀ w).lookup k' = some (.table r) → k = k' := by
  intro k k' r hk hk'
  by_cases hke : k = k₀
  · by_cases hke' : k' = k₀
    · rw [hke, hke']
    · rw [hke, AList.lookup_insert] at hk
      rw [AList.lookup_insert_ne hke'] at hk'
      exact absurd ⟨k', hk'⟩ (hw r (Option.some.inj hk))
  · rw [AList.lookup_insert_ne hke] at hk
    by_cases hke' : k' = k₀
    · rw [hke', AList.lookup_insert] at hk'
      exact absurd ⟨k, hk⟩ (hw r (Option.some.inj hk'))
    · rw [AList.lookup_insert_ne hke'] at hk'
      exact hinj k k' r hk hk'

/-! ## Deep copies -/

section Copies

variable {order : Order} {h₀ h s s' x : Heap Obj} {depth n m r : Nat} {v w : Val}

/-- The value refers to a table that exists. -/
def Valid (h : Heap Obj) (v : Val) : Prop := ∀ r, v = .table r → r < h.length

/-- The value is nested less than `depth` tables deep. -/
def Fits (h : Heap Obj) : Nat → Val → Prop
  | 0, _ => False
  | depth + 1, .table r => ∀ k v, (Heap.get h r).lookup k = some v → Fits h depth v
  | _ + 1, _ => True

/-- `w` in `s` looks like `v` in `h`, down to `n` levels. -/
def Copy (h s : Heap Obj) : Nat → Val → Val → Prop
  | 0, _, _ => True
  | n + 1, .table r, w => ∃ r', w = .table r' ∧
      ∀ k, Option.Rel (Copy h s n) ((Heap.get h r).lookup k) ((Heap.get s r').lookup k)
  | _ + 1, v, w => w = v

theorem copy_leaf (hv : ∀ r, v ≠ .table r) (h s : Heap Obj) (n : Nat) : Copy h s n v v := by
  cases n with
  | zero => trivial
  | succ n =>
      cases v with
      | table r => exact absurd rfl (hv r)
      | bool b => rfl
      | num b => rfl
      | str b => rfl
      | func b => rfl

theorem fits_leaf (hv : ∀ r, v ≠ .table r) (h : Heap Obj) (n : Nat) : Fits h (n + 1) v := by
  cases v with
  | table r => exact absurd rfl (hv r)
  | bool b => trivial
  | num b => trivial
  | str b => trivial
  | func b => trivial

theorem rel_mono {R S : Val → Val → Prop} {o o' : Option Val}
    (hRS : ∀ v w, o = some v → o' = some w → R v w → S v w) (h : Option.Rel R o o') :
    Option.Rel S o o' := by
  cases h with
  | none => exact Option.Rel.none
  | some hr => exact Option.Rel.some (hRS _ _ rfl rfl hr)

/-- A copy stays one while the tables from `m` on are left alone. -/
theorem Copy.congr (ha : Heap.Above link m s)
    (hs : ∀ r, m ≤ r → r < s.length → Heap.get s' r = Heap.get s r)
    (hw : ∀ r, w = .table r → m ≤ r ∧ r < s.length) (h : Copy h₀ s n v w) :
    Copy h₀ s' n v w := by
  induction n generalizing v w with
  | zero => trivial
  | succ n ih =>
      cases v with
      | bool b => exact h
      | num b => exact h
      | str b => exact h
      | func b => exact h
      | table r =>
          obtain ⟨r', rfl, hk⟩ := h
          have hr' := hw r' rfl
          refine ⟨r', rfl, fun k => ?_⟩
          rw [hs r' hr'.1 hr'.2]
          refine rel_mono (fun v' w' _ hw' hc => ih (fun r₂ hr₂ => ?_) hc) (hk k)
          exact ha r' r₂ hr'.1 ⟨k, by rw [hw', hr₂]⟩

/-- The loop of `deep_copy`, after the entries `done`; the new table is behind `s`. -/
structure Copying (h₀ s : Heap Obj) (depth : Nat) (done : List Entry) (x : Heap Obj) : Prop where
  isPrefix : s <+: x
  lt : s.length < x.length
  above : Heap.Above link (s.length + 1) x
  fits : ∀ e ∈ done, Fits h₀ depth e.2
  newer : ∀ r, link (Heap.get x s.length) r → s.length < r ∧ r < x.length
  held : ∀ k, Option.Rel (fun v w => ∀ n, Copy h₀ x n v w) (done.dlookup k)
    ((Heap.get x s.length).lookup k)
  inj : ∀ k k' r, (Heap.get x s.length).lookup k = some (.table r) →
    (Heap.get x s.length).lookup k' = some (.table r) → k = k'

/-- What `deep_copy` returns for the value, started in `s`. -/
structure Copied (h₀ s : Heap Obj) (depth : Nat) (v w : Val) (s' : Heap Obj) : Prop where
  keeps : Heap.Keeps link s s'
  fits : Fits h₀ depth v
  newer : ∀ r, w = .table r → r = s.length ∧ r < s'.length
  copy : ∀ n, Copy h₀ s' n v w
  deeper : ∀ r r', w = .table r → link (Heap.get s' r) r' → r < r'
  inj : ∀ r k k' r', w = .table r → (Heap.get s' r).lookup k = some (.table r') →
    (Heap.get s' r).lookup k' = some (.table r') → k = k'

theorem copying_start (h₀ s : Heap Obj) (depth : Nat) : Copying h₀ s depth [] (s ++ [∅]) where
  isPrefix := List.prefix_append s [∅]
  lt := by
    rw [List.length_append, List.length_singleton]
    exact Nat.lt_succ_self _
  above := by
    have ha : Heap.Above link (s ++ [∅]).length (s ++ [∅]) :=
      Heap.above_length (s ++ [∅]) not_link_empty
    rwa [List.length_append, List.length_singleton] at ha
  fits := by simp
  newer := by
    rw [Heap.get_alloc_self]
    exact fun r hr => absurd hr (not_link_empty r)
  held := by
    rw [Heap.get_alloc_self]
    exact fun k => Option.Rel.none
  inj := by
    rw [Heap.get_alloc_self]
    intro k k' r hk
    cases hk

theorem Copying.step {done : List Entry} {e : Entry} (hc : Copying h₀ s depth done x)
    (he : e.1 ∉ done.keys) (hw : Copied h₀ x depth e.2 w s') :
    Copying h₀ s depth (done ++ [e])
      (s'.set s.length ((Heap.get s' s.length).insert e.1 w)) := by
  have hlt := hc.lt
  have hle := hw.keeps.length_le
  have hget : Heap.get s' s.length = Heap.get x s.length :=
    Heap.get_older hw.keeps.isPrefix hlt
  rw [hget]
  have hself := Heap.get_set_self (Nat.lt_of_lt_of_le hlt hle)
    ((Heap.get x s.length).insert e.1 w)
  have hnew : ∀ r, w = .table r → s.length < r ∧ r < s'.length := fun r hr => by
    have h := hw.newer r hr
    omega
  refine ⟨?_, ?_, ?_, ?_, ?_, ?_, ?_⟩
  · exact Heap.prefix_set (hc.isPrefix.trans hw.keeps.isPrefix) (le_refl _) _
  · rw [List.length_set]
    omega
  · exact (hc.above.trans hlt hw.keeps).set_below (Nat.lt_succ_self _) _
  · intro e' he'
    rcases List.mem_append.mp he' with h | h
    · exact hc.fits e' h
    · rw [List.mem_singleton.mp h]
      exact hw.fits
  · intro r hr
    rw [hself] at hr
    rw [List.length_set]
    rcases link_insert hr with h | h
    · exact hnew r h
    · have h' := hc.newer r h
      omega
  · intro k
    rw [hself, List.dlookup_append]
    by_cases hk : k = e.1
    · subst hk
      rw [AList.lookup_insert, List.dlookup_eq_none.mpr he, Option.none_or, List.dlookup_cons_eq]
      refine Option.Rel.some fun n => (hw.copy n).congr hw.keeps.above (fun r hr _ => ?_) ?_
      · exact Heap.get_set_of_ne _ (by omega)
      · intro r hr
        have h := hw.newer r hr
        omega
    · rw [AList.lookup_insert_ne hk, List.dlookup_cons_ne _ _ hk, List.dlookup_nil, Option.or_none]
      refine rel_mono (fun v' w' _ hw' hcopy n => (hcopy n).congr hc.above (fun r hr hrx => ?_) ?_)
        (hc.held k)
      · rw [Heap.get_set_of_ne _ (by omega), Heap.get_older hw.keeps.isPrefix hrx]
      · intro r hr
        have h := hc.newer r ⟨k, by rw [hw', hr]⟩
        omega
  · rw [hself]
    refine inj_insert hc.inj fun r hwr hr => ?_
    have h := hc.newer r hr
    have h' := hw.newer r hwr
    omega

theorem Copying.finish {done : List Entry} (hc : Copying h₀ s depth done x)
    (hdone : ∀ k, done.dlookup k = (Heap.get h₀ r).lookup k) :
    Copied h₀ s (depth + 1) (.table r) (.table s.length) x where
  keeps := by
    refine ⟨hc.isPrefix, fun r₁ r₂ hr₁ hlink => ?_⟩
    by_cases hr : r₁ = s.length
    · subst hr
      have h := hc.newer r₂ hlink
      omega
    · have h := hc.above r₁ r₂ (by omega) hlink
      omega
  fits := by
    intro k v hk
    rw [← hdone] at hk
    exact hc.fits ⟨k, v⟩ (List.of_mem_dlookup hk)
  newer := by
    rintro _ ⟨⟩
    exact ⟨rfl, hc.lt⟩
  copy := by
    intro n
    cases n with
    | zero => trivial
    | succ n =>
        refine ⟨s.length, rfl, fun k => ?_⟩
        rw [← hdone]
        exact rel_mono (fun v w _ _ h => h n) (hc.held k)
  deeper := by
    rintro _ r' ⟨⟩ hr'
    exact (hc.newer r' hr').1
  inj := by
    rintro _ k k' r' ⟨⟩ hk hk'
    exact hc.inj k k' r' hk hk'

theorem copied_leaf (hv : ∀ r, v ≠ .table r) (h₀ s : Heap Obj) (depth : Nat) :
    Copied h₀ s (depth + 1) v v s where
  keeps := Heap.keeps_refl s not_link_empty
  fits := fits_leaf hv h₀ depth
  newer := fun r hr => absurd hr (hv r)
  copy := copy_leaf hv h₀ s
  deeper := fun r _ hr => absurd hr (hv r)
  inj := fun r _ _ _ hr => absurd hr (hv r)

/-- `deep_copy` returns a copy that shares no table with anything, and raises where the value is
    nested too deep. Either way the tables that are there stay as they are. -/
theorem deepCopy_spec (hclosed : Heap.Closed mentions h₀) (depth : Nat) (v : Val) (s : Heap Obj)
    (hs : h₀ <+: s) (hv : Valid h₀ v) :
    wp (deepCopy order depth v) (fun w s' => Copied h₀ s depth v w s')
      (fun _ s' => s <+: s' ∧ ¬ Fits h₀ depth v) s := by
  induction depth generalizing v s with
  | zero => exact ⟨List.prefix_refl s, fun h => h⟩
  | succ depth ih =>
      cases v with
      | bool b => exact copied_leaf (by simp) h₀ s depth
      | num b => exact copied_leaf (by simp) h₀ s depth
      | str b => exact copied_leaf (by simp) h₀ s depth
      | func b => exact copied_leaf (by simp) h₀ s depth
      | table r =>
          have hr := hv r rfl
          have hsrc : Heap.get (s ++ [∅]) r = Heap.get h₀ r :=
            Heap.get_older (hs.trans (List.prefix_append s [∅])) hr
          have hperm := order.perm (s ++ [∅]) r
          rw [hsrc] at hperm
          have hnd := (List.perm_nodupKeys hperm).mpr (Heap.get h₀ r).nodupKeys
          have hlook : ∀ k, (order.pairs (s ++ [∅]) r).dlookup k = (Heap.get h₀ r).lookup k :=
            fun k => List.perm_dlookup k hnd hperm
          rw [deepCopy, wp_bind, wp_newTable, wp_bind, wp_pairs, wp_bind]
          refine wp_mono (wp_forM (Copying h₀ s depth) _ (fun u e l x hl hx => ?_)
            (copying_start h₀ s depth)) (fun _ x hx => hx.finish hlook) (fun _ _ h => h)
          have hmem : e ∈ order.pairs (s ++ [∅]) r := by rw [hl]; simp
          have hheld : (Heap.get h₀ r).lookup e.1 = some e.2 := by
            rw [← hlook]
            exact List.mem_dlookup hnd hmem
          have hnew : e.1 ∉ u.keys := by
            rw [hl, List.nodupKeys_middle, List.nodupKeys_cons] at hnd
            exact fun h => hnd.1 (by rw [List.keys_append]; exact List.mem_append_left _ h)
          rw [wp_bind]
          refine wp_mono (ih e.2 x (hs.trans hx.isPrefix) fun r' hr' => ?_)
            (fun w s' hw => hx.step hnew hw) (fun _ s' h => ⟨hx.isPrefix.trans h.1, fun hf => ?_⟩)
          · exact hclosed r r' (Or.inl ⟨e.1, by rw [hheld, hr']⟩)
          · exact h.2 (hf e.1 e.2 hheld)

end Copies

end Buildsh.Records
