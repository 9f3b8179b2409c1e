/-
  The parts of Lua that the modelled programs rest on.

  A Lua string is a sequence of bytes, here a `List Char` with one character a byte. A table that
  is walked with `pairs` is an `AList`, whose entries stand in the order in which `pairs` yields
  them; Lua leaves that order open, so no result below depends on it. A table that is only
  indexed is a function into `Option`.
-/
import Mathlib.Data.List.AList

namespace Buildsh

/-- A Lua string, byte by byte. -/
abbrev LuaString := List Char

instance : LawfulBEq LuaString := inferInstance

/-- A value other than `nil`. `other` stands for the numbers and tables that a program stores
    or compares without looking into them. -/
inductive Value where
  | bool (b : Bool)
  | str (s : LuaString)
  | other (n : Nat)
  deriving DecidableEq, Repr

/-- `nil` and `false` count as false. -/
def truthy : Option Value → Bool
  | none => false
  | some (.bool b) => b
  | some _ => true

/-- `type( v ) == "string"`. -/
def Value.isString : Value → Bool
  | .str _ => true
  | _ => false

/-- The Lua errors that the modelled functions can raise. -/
inductive LuaError where
  /-- attempt to index a nil value -/
  | indexNil
  /-- a table store with `nil` as the key -/
  | nilKey
  /-- `error` called with a message -/
  | message (s : LuaString)
  deriving DecidableEq, Repr

/-- A table that is walked with `pairs`. -/
abbrev Table (K : Type) := AList (fun _ : K => Value)

namespace Table

variable {K : Type}

/-- Every value replaced, the keys left as they are. -/
def mapVals (t : Table K) (f : K → Value → Value) : Table K where
  entries := t.entries.map (fun x => ⟨x.1, f x.1 x.2⟩)
  nodupKeys := by
    have h : (t.entries.map (fun x => (⟨x.1, f x.1 x.2⟩ : Sigma fun _ : K => Value))).keys =
        t.entries.keys := by
      unfold List.keys
      rw [List.map_map]
      rfl
    unfold List.NodupKeys
    rw [h]
    exact t.nodupKeys

@[simp] theorem keys_mapVals (t : Table K) (f : K → Value → Value) :
    (t.mapVals f).keys = t.keys := by
  unfold AList.keys List.keys mapVals
  rw [List.map_map]
  rfl

@[simp] theorem mem_mapVals (t : Table K) (f : K → Value → Value) (k : K) :
    k ∈ t.mapVals f ↔ k ∈ t := by
  rw [AList.mem_keys, AList.mem_keys, keys_mapVals]

variable [DecidableEq K]

@[simp] theorem lookup_mapVals (t : Table K) (f : K → Value → Value) (k : K) :
    (t.mapVals f).lookup k = (t.lookup k).map (f k) := by
  obtain ⟨l, hl⟩ := t
  unfold AList.lookup mapVals
  dsimp only
  clear hl
  induction l with
  | nil => rfl
  | cons x l ih =>
      obtain ⟨k', v⟩ := x
      by_cases h : k = k'
      · subst h
        simp
      · rw [List.map_cons, List.dlookup_cons_ne _ _ h, List.dlookup_cons_ne _ _ h, ih]

/-- A table keyed by strings, as a table that is keyed by any values. -/
def ofStrings (t : Table LuaString) : Table Value where
  entries := t.entries.map fun x => ⟨.str x.1, x.2⟩
  nodupKeys := by
    have h : (t.entries.map (fun x => (⟨.str x.1, x.2⟩ : Sigma fun _ : Value => Value))).keys =
        t.entries.keys.map Value.str := by
      unfold List.keys
      rw [List.map_map, List.map_map]
      rfl
    unfold List.NodupKeys
    rw [h]
    exact t.nodupKeys.map fun _ _ h => Value.str.inj h

theorem lookup_ofStrings (t : Table LuaString) (k : LuaString) :
    t.ofStrings.lookup (.str k) = t.lookup k := by
  obtain ⟨l, hl⟩ := t
  unfold AList.lookup ofStrings
  dsimp only
  clear hl
  induction l with
  | nil => rfl
  | cons x l ih =>
      obtain ⟨k', v⟩ := x
      by_cases h : k = k'
      · subst h
        simp
      · have h' : Value.str k ≠ Value.str k' := fun he => h (Value.str.inj he)
        rw [List.map_cons, List.dlookup_cons_ne _ _ h', List.dlookup_cons_ne _ _ h, ih]

theorem exists_of_mem_ofStrings {t : Table LuaString} {v : Value} (h : v ∈ t.ofStrings) :
    ∃ k ∈ t, v = .str k := by
  rw [AList.mem_keys] at h
  unfold AList.keys ofStrings List.keys at h
  rw [List.map_map] at h
  obtain ⟨x, hx, rfl⟩ := List.mem_map.mp h
  exact ⟨x.1, AList.mem_keys.mpr (List.mem_map.mpr ⟨x, hx, rfl⟩), rfl⟩

/-- Two tables that hold the same. -/
def Same (t t' : Table K) : Prop := ∀ k, t.lookup k = t'.lookup k

end Table

end Buildsh
