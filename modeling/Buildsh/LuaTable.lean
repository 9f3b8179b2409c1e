/-
  `ltable.c`: the hash part of a Lua table.

  The nodes are linked in chains. A new key goes to its main position, the one its hash gives it;
  if there is another element, the new key goes to a free node of the same chain, unless the other
  element is out of its own main position: then this one is moved to the free node. A table without
  a free node is replaced by a larger one. A key without a value stays in its node, and the garbage
  collector may mark it as dead.

  `run_refines`: after any assignments and collections, `luaH_get` finds what was assigned last,
  and the only error is that there are too many elements. `Valid` is the invariant, with what the
  head of the file says about it in the field `main`.

  Tables without integer keys are modelled: these have no array part.
-/
import Mathlib
import Buildsh.Generic.Chains
import Buildsh.Lua

namespace Buildsh.LuaTable
open Buildsh.Generic

/-- `gkey( n )` -/
inductive Key (K : Type) where
  | nil
  | key (k : K)
  /-- `LUA_TDEADKEY` -/
  | dead (k : K)
  deriving DecidableEq

/-- What `mainposition` hashes, and `luaH_next` compares with. -/
def Key.object : Key K → Option K
  | .nil => none
  | .key k | .dead k => some k

structure Node (K V : Type) where
  key : Key K
  /-- `gval( n )`, and `none` for `nil` -/
  val : Option V
  next : Option Nat

def Node.free {K V : Type} : Node K V := ⟨.nil, none, none⟩

/-- The fields of `Table` for its hash part. -/
structure HashPart (K V : Type) where
  lsizenode : Nat
  node : Nat → Node K V
  /-- `t->node == dummynode` -/
  dummy : Bool
  lastfree : Nat

/-- `mainposition`, for tables with `2 ^ lsizenode` nodes. -/
structure MainPosition (K : Type) where
  pos : Nat → K → Nat
  lt : ∀ lsizenode k, pos lsizenode k < 2 ^ lsizenode

/-- The loop of `luaS_newlstr`, for the `l1` last characters that are still to be hashed. -/
def hashLoop (str : LuaString) (step : Nat) : Nat → Nat → UInt32 → UInt32
  | 0, _, h => h
  | fuel + 1, l1, h =>
      if step ≤ l1 then
        let c := UInt32.ofNat ((str[l1 - 1]?.getD (Char.ofNat 0)).toNat)
        hashLoop str step fuel (l1 - step) (h ^^^ ((h <<< 5) + (h >>> 2) + c))
      else h

/-- The hash of a string, from its length and at most 32 of its characters. -/
def luaSHash (str : LuaString) : Nat :=
  (hashLoop str (str.length / 32 + 1) str.length str.length (UInt32.ofNat str.length)).toNat

/-- `hashstr` -/
def hashstr (hash : LuaString → Nat) : MainPosition LuaString where
  pos lsizenode k := hash k % 2 ^ lsizenode
  lt lsizenode _ := Nat.mod_lt _ (Nat.two_pow_pos lsizenode)

/-- How a call fails. -/
inductive Failure where
  /-- the calls are nested deeper than the given depth -/
  | depth
  /-- a null pointer is followed -/
  | crash
  | raised (e : LuaError)
  deriving DecidableEq

def tableOverflow : Failure := .raised (.message "table overflow".toList)

def MAXBITS : Nat := 26

def ceillog2 (x : Nat) : Nat := if x ≤ 1 then 0 else Nat.log2 (x - 1) + 1

namespace HashPart

variable {K V : Type}

def sizenode (t : HashPart K V) : Nat := 2 ^ t.lsizenode

/-- `gnext( gnode( t, i ) )` -/
def gnext (t : HashPart K V) (i : Nat) : Option Nat := (t.node i).next

def setNode (t : HashPart K V) (i : Nat) (n : Node K V) : HashPart K V :=
  { t with node := Function.update t.node i n }

def setKey (t : HashPart K V) (i : Nat) (key : Key K) : HashPart K V :=
  t.setNode i { t.node i with key }

def setVal (t : HashPart K V) (i : Nat) (val : Option V) : HashPart K V :=
  t.setNode i { t.node i with val }

def setNext (t : HashPart K V) (i : Nat) (next : Option Nat) : HashPart K V :=
  t.setNode i { t.node i with next }

/-- The loop of `getfreepos`. -/
def freeBelow (t : HashPart K V) : Nat → Nat × Option Nat
  | 0 => (0, none)
  | i + 1 => match (t.node i).key with
    | .nil => (i, some i)
    | _ => t.freeBelow i

def getfreepos (t : HashPart K V) : HashPart K V × Option Nat :=
  let (lastfree, n) := t.freeBelow t.lastfree
  ({ t with lastfree }, n)

/-- `numusehash`: the elements with a value. -/
def numusehash (t : HashPart K V) : Nat :=
  (List.range t.sizenode).countP fun i => (t.node i).val.isSome

end HashPart

section Functions

variable {K V : Type} [DecidableEq K] (mp : MainPosition K)

/-- `setnodevector`, for a new vector. -/
def setnodevector (size : Nat) : Except Failure (HashPart K V) :=
  if size = 0 then .ok ⟨0, fun _ => .free, true, 0⟩
  else if MAXBITS < ceillog2 size then .error tableOverflow
  else .ok ⟨ceillog2 size, fun _ => .free, false, 2 ^ ceillog2 size⟩

def luaHNew (nhash : Nat) : Except Failure (HashPart K V) := setnodevector nhash

/-- `luaH_get`: the node with the value. No chain is longer than the table (`luaHGet_iff`). -/
def luaHGet (t : HashPart K V) (k : K) : Option Nat :=
  walk t.gnext (fun i => (t.node i).key = .key k) t.sizenode (mp.pos t.lsizenode k)

section NewKey

variable (set : HashPart K V → K → Except Failure (HashPart K V × Nat))

/-- The end of `resize`, for the nodes of `old` below an index. -/
def reinsert (old : HashPart K V) : Nat → HashPart K V → Except Failure (HashPart K V)
  | 0, t => .ok t
  | i + 1, t =>
      match (old.node i).val with
      | none => reinsert old i t
      | some v =>
          match (old.node i).key.object with
          | none => .error (.raised .nilKey)
          | some k => do
              let (t, slot) ← set t k
              reinsert old i (t.setVal slot (some v))

def resize (t : HashPart K V) (nhsize : Nat) : Except Failure (HashPart K V) := do
  let new ← setnodevector nhsize
  reinsert set t t.sizenode new

/-- `rehash`, with the extra key counted. -/
def rehash (t : HashPart K V) : Except Failure (HashPart K V) := resize set t (t.numusehash + 1)

/-- `newkey`, when `n` is a free node and the element at the main position `m` has the key
    `other`. -/
def collide (t : HashPart K V) (k : K) (m n : Nat) (other : K) :
    Except Failure (HashPart K V × Nat) :=
  let othern := mp.pos t.lsizenode other
  if othern ≠ m then
    match walk t.gnext (fun i => t.gnext i = some m) t.sizenode othern with
    | none => .error .crash
    | some o =>
        let t := t.setNext o (some n)
        let t := t.setNode n (t.node m)
        .ok (t.setNode m ⟨.key k, none, none⟩, m)
  else
    let t := t.setNext n (t.gnext m)
    let t := t.setNext m (some n)
    .ok (t.setKey n (.key k), n)

def newkey (t : HashPart K V) (k : K) : Except Failure (HashPart K V × Nat) :=
  let m := mp.pos t.lsizenode k
  if (t.node m).val.isSome ∨ t.dummy then
    match t.getfreepos with
    | (t, none) => do
        let t ← rehash set t
        set t k
    | (t, some n) =>
        match (t.node m).key.object with
        | none => .error .crash
        | some other => collide mp t k m n other
  else .ok (t.setKey m (.key k), m)

end NewKey

/-- `luaH_set`, whose calls are nested through `newkey` and `rehash`. -/
def luaHSet : Nat → HashPart K V → K → Except Failure (HashPart K V × Nat)
  | 0, _, _ => .error .depth
  | depth + 1, t, k =>
      match luaHGet mp t k with
      | some i => .ok (t, i)
      | none => newkey mp (luaHSet depth) t k

/-- `t[ k ] = v` -/
def assign (depth : Nat) (t : HashPart K V) (k : K) (v : Option V) :
    Except Failure (HashPart K V) := do
  let (t, i) ← luaHSet mp depth t k
  return t.setVal i v

/-- `t[ k ]` -/
def index (t : HashPart K V) (k : K) : Option V := (luaHGet mp t k).bind fun i => (t.node i).val

/-- What the garbage collector does to a table: the keys without a value are marked if they are
    objects that it collects. -/
def collect (collectable : K → Bool) (t : HashPart K V) : HashPart K V :=
  { t with
    node := fun i =>
      match (t.node i).val, (t.node i).key with
      | none, .key k => if collectable k then { t.node i with key := .dead k } else t.node i
      | _, _ => t.node i }

end Functions

/-! ## The invariant -/

/-- What every operation keeps. -/
structure Valid {K V : Type} (mp : MainPosition K) (t : HashPart K V) : Prop where
  linked : Linked t.gnext
  used : ∀ i, (t.node i).key ≠ .nil → i < t.sizenode ∧ t.dummy = false
  free : ∀ i, (t.node i).key = .nil → (t.node i).val = none ∧ Alone t.gnext i
  dead : ∀ i k, (t.node i).key = .dead k → (t.node i).val = none
  lastfree_le : t.lastfree ≤ t.sizenode
  lastfree_dummy : t.dummy = true → t.lastfree = 0
  /-- the free nodes are below `lastfree` -/
  lastfree : ∀ i, t.lastfree ≤ i → i < t.sizenode → t.dummy = false → (t.node i).key ≠ .nil
  /-- an element is in the chain that begins at its main position, in front of all nodes that had
      the same key -/
  chained : ∀ i k, (t.node i).key = .key k →
    First t.gnext (fun j => (t.node j).key.object = some k) (mp.pos t.lsizenode k) i
  /-- if an element is not in its main position, the one that is there is in its own -/
  main : ∀ i k, (t.node i).key = .key k →
    ∃ k', (t.node (mp.pos t.lsizenode k)).key.object = some k' ∧
      mp.pos t.lsizenode k' = mp.pos t.lsizenode k
  unique : ∀ i j k, (t.node i).key = .key k → (t.node j).key = .key k → i = j

section Basics

variable {K V : Type} {mp : MainPosition K} {t t' : HashPart K V} {k : K} {i j : Nat}

@[simp] theorem setNode_sizenode (t : HashPart K V) (i : Nat) (n : Node K V) :
    (t.setNode i n).sizenode = t.sizenode := rfl

@[simp] theorem setVal_sizenode (t : HashPart K V) (i : Nat) (v : Option V) :
    (t.setVal i v).sizenode = t.sizenode := rfl

theorem setVal_node (t : HashPart K V) (i j : Nat) (v : Option V) :
    ((t.setVal i v).node j).key = (t.node j).key ∧
      ((t.setVal i v).node j).next = (t.node j).next ∧
      ((t.setVal i v).node j).val = if j = i then v else (t.node j).val := by
  unfold HashPart.setVal HashPart.setNode
  by_cases h : j = i
  · subst h
    simp
  · simp [h]

theorem Valid.lt_of_reach (h : Valid mp t) {l : List Nat} (hl : Leads t.gnext (some i) l)
    (hi : i < t.sizenode) : l.length ≤ t.sizenode := by
  have hlt : ∀ j ∈ l, j ∈ List.range t.sizenode := by
    intro j hj
    rw [List.mem_range]
    rcases hl.mem_cases hj with rfl | ⟨o, -, ho⟩
    · exact hi
    · exact (h.used j fun hnil => (h.free j hnil).2.2 o ho).1
  simpa using hl.length_le hlt

theorem Valid.pos_lt (_ : Valid mp t) (k : K) : mp.pos t.lsizenode k < t.sizenode :=
  mp.lt t.lsizenode k

/-- A walk from a main position sees the whole chain. -/
theorem Valid.walk_eq (h : Valid mp t) (p : Nat → Bool) (k : K) :
    ∃ l, Leads t.gnext (some (mp.pos t.lsizenode k)) l ∧
      walk t.gnext p t.sizenode (mp.pos t.lsizenode k) = l.find? p := by
  obtain ⟨l, hl⟩ := h.linked.ends (mp.pos t.lsizenode k)
  exact ⟨l, hl, Generic.walk_eq hl (h.lt_of_reach hl (h.pos_lt k))⟩

/-- A table with other values. -/
theorem Valid.of_same (h : Valid mp t) (hsize : t'.lsizenode = t.lsizenode)
    (hdummy : t'.dummy = t.dummy) (hfree : t'.lastfree = t.lastfree)
    (hkey : ∀ j, (t'.node j).key = (t.node j).key)
    (hnext : ∀ j, (t'.node j).next = (t.node j).next)
    (hval : ∀ j, (∀ k, (t.node j).key ≠ .key k) → (t'.node j).val = none) : Valid mp t' := by
  have hgnext : t'.gnext = t.gnext := funext hnext
  have hsizenode : t'.sizenode = t.sizenode := by unfold HashPart.sizenode; rw [hsize]
  constructor
  · rw [hgnext]
    exact h.linked
  · intro i
    rw [hkey, hsizenode, hdummy]
    exact h.used i
  · intro i
    rw [hkey, hgnext]
    exact fun hi => ⟨hval i fun k hk => (by rw [hi] at hk; cases hk), (h.free i hi).2⟩
  · intro i k
    rw [hkey]
    exact fun hi => hval i fun k hk => by rw [hi] at hk; cases hk
  · rw [hfree, hsizenode]
    exact h.lastfree_le
  · rw [hfree, hdummy]
    exact h.lastfree_dummy
  · intro i
    rw [hfree, hsizenode, hdummy, hkey]
    exact h.lastfree i
  · intro i k hi
    rw [hkey] at hi
    rw [hgnext, hsize]
    exact (h.chained i k hi).mono fun j hj => by rw [← hkey]; exact hj
  · intro i k
    rw [hkey, hkey, hsize]
    exact h.main i k
  · intro i j k
    rw [hkey, hkey]
    exact h.unique i j k

theorem Valid.setVal (h : Valid mp t) (hi : (t.node i).key = .key k) (v : Option V) :
    Valid mp (t.setVal i v) := by
  refine h.of_same rfl rfl rfl (fun j => (setVal_node t i j v).1)
    (fun j => (setVal_node t i j v).2.1) fun j hj => ?_
  have hne : j ≠ i := fun heq => hj k (heq ▸ hi)
  rw [(setVal_node t i j v).2.2, if_neg hne]
  cases hk : (t.node j).key with
  | nil => exact (h.free j hk).1
  | key k' => exact absurd hk (hj k')
  | dead k' => exact h.dead j k' hk

variable [DecidableEq K]

/-- `luaH_get` finds the one node with the key. -/
theorem luaHGet_iff (h : Valid mp t) : luaHGet mp t k = some i ↔ (t.node i).key = .key k := by
  unfold luaHGet
  obtain ⟨l, hl, hwalk⟩ := h.walk_eq (fun i => decide ((t.node i).key = .key k)) k
  constructor
  · intro hfind
    rw [hwalk] at hfind
    have hdec := List.find?_some hfind
    exact of_decide_eq_true hdec
  · intro hi
    obtain ⟨a, b, hab, hnot⟩ := h.chained i k hi
    refine walk_eq_some hab (h.lt_of_reach hab (h.pos_lt k)) (fun j hj => ?_)
      (decide_eq_true hi)
    refine decide_eq_false fun heq => hnot j hj ?_
    change (t.node j).key.object = some k
    rw [heq]
    rfl

theorem luaHGet_eq_none (h : Valid mp t) :
    luaHGet mp t k = none ↔ ∀ i, (t.node i).key ≠ .key k := by
  rw [Option.eq_none_iff_forall_not_mem]
  exact forall_congr' fun i => not_congr (luaHGet_iff h)

theorem index_eq_some (h : Valid mp t) {v : V} :
    index mp t k = some v ↔ ∃ i, (t.node i).key = .key k ∧ (t.node i).val = some v := by
  unfold index
  rw [Option.bind_eq_some_iff]
  exact exists_congr fun i => and_congr_left fun _ => luaHGet_iff h

/-- The tables hold the same under the key. -/
theorem index_congr (h : Valid mp t) (h' : Valid mp t')
    (hsame : ∀ v, (∃ i, (t'.node i).key = .key k ∧ (t'.node i).val = some v) ↔
      ∃ i, (t.node i).key = .key k ∧ (t.node i).val = some v) :
    index mp t' k = index mp t k := by
  refine Option.ext fun v => ?_
  rw [index_eq_some h, index_eq_some h']
  exact hsame v

end Basics

/-! ## A new key -/

/-- The nodes with a key. -/
def HashPart.usedNodes {K V : Type} [DecidableEq K] (t : HashPart K V) : Finset Nat :=
  (Finset.range t.sizenode).filter fun i => (t.node i).key ≠ .nil

section NewKey

variable {K V : Type} [DecidableEq K] {mp : MainPosition K} {t t' : HashPart K V} {k : K}
  {i m n o : Nat}

/-- `t'` is `t` with the new key `k`, which has no value yet, in node `i`. -/
structure Placed (mp : MainPosition K) (t t' : HashPart K V) (k : K) (i : Nat) : Prop where
  valid : Valid mp t'
  lsizenode : t'.lsizenode = t.lsizenode
  dummy : t'.dummy = t.dummy
  key : (t'.node i).key = .key k
  val : (t'.node i).val = none
  others : ∀ k', k' ≠ k → ∀ v, (∃ j, (t'.node j).key = .key k' ∧ (t'.node j).val = some v) ↔
    ∃ j, (t.node j).key = .key k' ∧ (t.node j).val = some v
  keys : ∀ j k', (t'.node j).key = .key k' → k' = k ∨ ∃ j', (t.node j').key = .key k'
  card : t'.usedNodes.card ≤ t.usedNodes.card + 1

theorem card_usedNodes_le (hsize : t'.sizenode = t.sizenode)
    (h : ∀ j, j ≠ n → (t'.node j).key ≠ .nil → (t.node j).key ≠ .nil) :
    t'.usedNodes.card ≤ t.usedNodes.card + 1 := by
  have hsub : t'.usedNodes ⊆ insert n t.usedNodes := by
    intro j hj
    simp only [HashPart.usedNodes, Finset.mem_filter, hsize] at hj
    by_cases hjn : j = n
    · exact Finset.mem_insert.mpr (Or.inl hjn)
    · exact Finset.mem_insert.mpr (Or.inr (Finset.mem_filter.mpr ⟨hj.1, h j hjn hj.2⟩))
  exact le_trans (Finset.card_le_card hsub) (Finset.card_insert_le _ _)

/-- The main position is free, or holds a key without a value. -/
theorem placed_setKey (h : Valid mp t) (habs : ∀ i, (t.node i).key ≠ .key k)
    (hval : (t.node (mp.pos t.lsizenode k)).val = none) (hdummy : t.dummy = false) :
    Placed mp t (t.setKey (mp.pos t.lsizenode k) (.key k)) k (mp.pos t.lsizenode k) := by
  have hm := h.pos_lt k
  generalize hpos : mp.pos t.lsizenode k = m at hval hm ⊢
  have hkey : ∀ j, ((t.setKey m (.key k)).node j).key =
      if j = m then .key k else (t.node j).key := by
    intro j
    by_cases hj : j = m
    · subst hj; simp [HashPart.setKey, HashPart.setNode]
    · simp [HashPart.setKey, HashPart.setNode, hj]
  have hother : ∀ j, ((t.setKey m (.key k)).node j).val = (t.node j).val ∧
      ((t.setKey m (.key k)).node j).next = (t.node j).next := by
    intro j
    by_cases hj : j = m
    · subst hj; simp [HashPart.setKey, HashPart.setNode]
    · simp [HashPart.setKey, HashPart.setNode, hj]
  have hgnext : (t.setKey m (.key k)).gnext = t.gnext := funext fun j => (hother j).2
  have hvalid : Valid mp (t.setKey m (.key k)) := by
    constructor
    · rw [hgnext]
      exact h.linked
    · intro j hj
      rw [hkey] at hj
      split_ifs at hj with hjm
      · exact ⟨hjm ▸ hm, hdummy⟩
      · exact h.used j hj
    · intro j hj
      rw [hkey] at hj
      split_ifs at hj with hjm
      rw [(hother j).1, hgnext]
      exact h.free j hj
    · intro j k' hj
      rw [hkey] at hj
      split_ifs at hj with hjm
      rw [(hother j).1]
      exact h.dead j k' hj
    · exact h.lastfree_le
    · exact h.lastfree_dummy
    · intro j hl hs hd
      rw [hkey]
      split_ifs with hjm
      · simp
      · exact h.lastfree j hl hs hd
    · intro j k' hj
      rw [hgnext]
      rw [hkey] at hj
      split_ifs at hj with hjm
      · cases hj
        rw [hjm, show mp.pos (t.setKey m (.key k)).lsizenode k = m from hpos]
        exact h.linked.refl _ m
      · refine (h.chained j k' hj).mono fun x hx => ?_
        rw [hkey] at hx
        split_ifs at hx with hxm
        · cases hx
          exact absurd hj (habs j)
        · exact hx
    · intro j k' hj
      change ∃ k'', ((t.setKey m (.key k)).node (mp.pos t.lsizenode k')).key.object = some k'' ∧
        mp.pos t.lsizenode k'' = mp.pos t.lsizenode k'
      rw [hkey] at hj ⊢
      by_cases hpm : mp.pos t.lsizenode k' = m
      · rw [if_pos hpm]
        exact ⟨k, rfl, hpos.trans hpm.symm⟩
      · rw [if_neg hpm]
        split_ifs at hj with hjm
        · cases hj
          exact absurd hpos hpm
        · exact h.main j k' hj
    · intro j j' k' hj hj'
      rw [hkey] at hj hj'
      split_ifs at hj hj' with h₁ h₂ h₂
      · rw [h₁, h₂]
      · cases hj
        exact absurd hj' (habs j')
      · cases hj'
        exact absurd hj (habs j)
      · exact h.unique j j' k' hj hj'
  refine ⟨hvalid, rfl, rfl, ?_, ?_, fun k' hk' v => exists_congr fun j => ?_,
    fun j k' hj => ?_, ?_⟩
  · rw [hkey, if_pos rfl]
  · rw [(hother m).1]
    exact hval
  · rw [hkey, (hother j).1]
    split_ifs with hjm
    · constructor
      · rintro ⟨hj, -⟩
        cases hj
        exact absurd rfl hk'
      · rintro ⟨-, hj⟩
        rw [hjm, hval] at hj
        cases hj
    · exact Iff.rfl
  · rw [hkey] at hj
    split_ifs at hj with hjm
    · cases hj
      exact Or.inl rfl
    · exact Or.inr ⟨j, hj⟩
  · exact card_usedNodes_le (n := m) rfl fun j hjm hj => by rwa [hkey, if_neg hjm] at hj

theorem freeBelow_spec (t : HashPart K V) (below : Nat) :
    (∀ l n, t.freeBelow below = (l, some n) → l = n ∧ n < below ∧ (t.node n).key = .nil ∧
      ∀ i, n < i → i < below → (t.node i).key ≠ .nil) ∧
    (∀ l, t.freeBelow below = (l, none) →
      l = 0 ∧ ∀ i, i < below → (t.node i).key ≠ .nil) := by
  induction below with
  | zero =>
      refine ⟨fun l n h => by simp [HashPart.freeBelow] at h, fun l h => ?_⟩
      cases h
      exact ⟨rfl, fun i hi => by omega⟩
  | succ below ih =>
      have hstep : (t.node below).key ≠ .nil → t.freeBelow (below + 1) = t.freeBelow below := by
        intro hkey
        rw [HashPart.freeBelow]
        cases hk : (t.node below).key with
        | nil => exact absurd hk hkey
        | key k => rfl
        | dead k => rfl
      by_cases hkey : (t.node below).key = .nil
      · have hfound : t.freeBelow (below + 1) = (below, some below) := by
          rw [HashPart.freeBelow, hkey]
        rw [hfound]
        refine ⟨fun l n h => ?_, fun l h => by cases h⟩
        cases h
        exact ⟨rfl, Nat.lt_succ_self _, hkey, fun i hi hi' => by omega⟩
      · rw [hstep hkey]
        refine ⟨fun l n h => ?_, fun l h => ⟨(ih.2 l h).1, fun i hi => ?_⟩⟩
        · obtain ⟨hl, hn, hnil, hrest⟩ := ih.1 l n h
          refine ⟨hl, by omega, hnil, fun i hi hi' => ?_⟩
          rcases Nat.lt_succ_iff_lt_or_eq.mp hi' with hlt | rfl
          · exact hrest i hi hlt
          · exact hkey
        · rcases Nat.lt_succ_iff_lt_or_eq.mp hi with hlt | rfl
          · exact (ih.2 l h).2 i hlt
          · exact hkey

/-- A free node, which is the new `lastfree`. -/
structure FreePos (t : HashPart K V) (n : Nat) : Prop where
  lt : n < t.sizenode
  key : (t.node n).key = .nil
  above : ∀ i, n < i → i < t.sizenode → (t.node i).key ≠ .nil

/-- Every node is in use, or the table is the one without nodes. -/
def Full (t : HashPart K V) : Prop :=
  t.dummy = true ∨ ∀ i, i < t.sizenode → (t.node i).key ≠ .nil

theorem getfreepos_spec (h : Valid mp t) :
    (∃ n, t.getfreepos = ({ t with lastfree := n }, some n) ∧ FreePos t n) ∨
      (t.getfreepos = ({ t with lastfree := 0 }, none) ∧ Full t) := by
  obtain ⟨hsome, hnone⟩ := freeBelow_spec t t.lastfree
  unfold HashPart.getfreepos
  cases hf : t.freeBelow t.lastfree with
  | mk l r =>
      cases hdummy : t.dummy with
      | true =>
          rw [h.lastfree_dummy hdummy] at hf
          cases hf
          exact Or.inr ⟨rfl, Or.inl hdummy⟩
      | false =>
          have habove : ∀ i, t.lastfree ≤ i → i < t.sizenode → (t.node i).key ≠ .nil :=
            fun i hi hi' => h.lastfree i hi hi' hdummy
          cases r with
          | none =>
              obtain ⟨rfl, hall⟩ := hnone l hf
              refine Or.inr ⟨rfl, Or.inr fun i hi => ?_⟩
              by_cases hlt : i < t.lastfree
              · exact hall i hlt
              · exact habove i (Nat.le_of_not_lt hlt) hi
          | some n =>
              obtain ⟨rfl, hn, hnil, hrest⟩ := hsome l n hf
              refine Or.inl ⟨l, rfl, Nat.lt_of_lt_of_le hn h.lastfree_le, hnil,
                fun i hi hi' => ?_⟩
              by_cases hlt : i < t.lastfree
              · exact hrest i hi hlt
              · exact habove i (Nat.le_of_not_lt hlt) hi'

section Collide

variable {other : K} (h : Valid mp t) (habs : ∀ i, (t.node i).key ≠ .key k)
  (hpos : mp.pos t.lsizenode k = m) (hother : (t.node m).key = .key other) (hn : FreePos t n)
  (hsize : t'.lsizenode = t.lsizenode) (hdummy : t'.dummy = t.dummy) (hfree : t'.lastfree = n)

include h hother hn in
omit [DecidableEq K] in
theorem main_ne_free : m < t.sizenode ∧ t.dummy = false ∧ m ≠ n := by
  have hm := h.used m (by rw [hother]; simp)
  refine ⟨hm.1, hm.2, fun heq => ?_⟩
  rw [heq, hn.key] at hother
  cases hother

omit [DecidableEq K] in
/-- The main positions of the elements are in use. -/
theorem Valid.pos_ne_free (h : Valid mp t) (hn : FreePos t n) {j : Nat} {k' : K}
    (hj : (t.node j).key = .key k') : mp.pos t.lsizenode k' ≠ n := by
  intro heq
  obtain ⟨k'', hk'', -⟩ := h.main j k' hj
  rw [heq, hn.key] at hk''
  cases hk''

include h habs hpos hother hn hsize hdummy hfree

/-- The element is in its own main position: the new key goes to the free node. -/
theorem placed_insertAfter (hmain : mp.pos t.lsizenode other = m)
    (hnode : ∀ j, t'.node j = if j = m then { t.node m with next := some n }
      else if j = n then ⟨.key k, none, t.gnext m⟩ else t.node j) :
    Placed mp t t' k n := by
  obtain ⟨hm, hd, hmn⟩ := main_ne_free h hother hn
  have halone : Alone t.gnext n := (h.free n hn.key).2
  have hsizenode : t'.sizenode = t.sizenode := by unfold HashPart.sizenode; rw [hsize]
  have hkey : ∀ j, (t'.node j).key = if j = n then .key k else (t.node j).key := by
    intro j
    rw [hnode]
    by_cases hjm : j = m
    · subst hjm; rw [if_pos rfl, if_neg hmn]
    · rw [if_neg hjm]
      split_ifs <;> rfl
  have hval : ∀ j, (t'.node j).val = (t.node j).val := by
    intro j
    rw [hnode]
    split_ifs with hjm hjn
    · rw [hjm]
    · rw [hjn, (h.free n hn.key).1]
    · rfl
  have hgnext : t'.gnext = insertAfter t.gnext m n := by
    funext j
    unfold HashPart.gnext
    rw [hnode]
    by_cases hjm : j = m
    · subst hjm
      rw [if_pos rfl, insertAfter_self]
    · rw [if_neg hjm]
      by_cases hjn : j = n
      · subst hjn
        rw [if_pos rfl, insertAfter_fresh (Ne.symm hjm)]
        rfl
      · rw [if_neg hjn, insertAfter_of_ne hjm hjn]
  have hvalid : Valid mp t' := by
    constructor
    · rw [hgnext]
      exact h.linked.insertAfter halone hmn
    · intro j hj
      rw [hsizenode, hdummy]
      rw [hkey] at hj
      split_ifs at hj with hjn
      · exact ⟨hjn ▸ hn.lt, hd⟩
      · exact h.used j hj
    · intro j hj
      rw [hkey] at hj
      split_ifs at hj with hjn
      have hjm : j ≠ m := fun heq => by rw [heq, hother] at hj; cases hj
      rw [hval, hgnext]
      exact ⟨(h.free j hj).1, (h.free j hj).2.insertAfter hjm hjn⟩
    · intro j k' hj
      rw [hkey] at hj
      split_ifs at hj with hjn
      rw [hval]
      exact h.dead j k' hj
    · rw [hfree, hsizenode]
      exact Nat.le_of_lt hn.lt
    · rw [hdummy, hd]
      exact fun hf => by cases hf
    · intro j hl hs _
      rw [hkey]
      split_ifs with hjn
      · simp
      · rw [hfree] at hl
        exact hn.above j (by omega) (hsizenode ▸ hs)
    · intro j k' hj
      rw [hgnext, hsize]
      rw [hkey] at hj
      split_ifs at hj with hjn
      · cases hj
        rw [hpos, hjn]
        refine (h.linked.insertAfter halone hmn).first_of_next insertAfter_self fun hobj => ?_
        rw [hkey, if_neg hmn, hother] at hobj
        cases hobj
        exact habs m hother
      · refine (h.chained j k' hj).insertAfter halone (h.pos_ne_free hn hj) (fun x hx => ?_)
          fun hx => ?_
        · rw [hkey] at hx
          split_ifs at hx with hxn
          · cases hx
            exact absurd hj (habs j)
          · exact hx
        · rw [hkey, if_pos rfl] at hx
          cases hx
          exact habs j hj
    · intro j k' hj
      rw [hsize]
      have hpn : mp.pos t.lsizenode k' ≠ n := by
        rw [hkey] at hj
        split_ifs at hj with hjn
        · cases hj
          rw [hpos]
          exact hmn
        · exact h.pos_ne_free hn hj
      rw [hkey, if_neg hpn]
      rw [hkey] at hj
      split_ifs at hj with hjn
      · cases hj
        rw [hpos, hother]
        exact ⟨other, rfl, hmain⟩
      · exact h.main j k' hj
    · intro j j' k' hj hj'
      rw [hkey] at hj hj'
      split_ifs at hj hj' with h₁ h₂ h₂
      · rw [h₁, h₂]
      · cases hj
        exact absurd hj' (habs j')
      · cases hj'
        exact absurd hj (habs j)
      · exact h.unique j j' k' hj hj'
  refine ⟨hvalid, hsize, hdummy, ?_, ?_, fun k' hk' v => exists_congr fun j => ?_,
    fun j k' hj => ?_, ?_⟩
  · rw [hkey, if_pos rfl]
  · rw [hval, (h.free n hn.key).1]
  · rw [hkey, hval]
    split_ifs with hjn
    · constructor
      · rintro ⟨hj, -⟩
        cases hj
        exact absurd rfl hk'
      · rintro ⟨hj, -⟩
        rw [hjn, hn.key] at hj
        cases hj
    · exact Iff.rfl
  · rw [hkey] at hj
    split_ifs at hj with hjn
    · cases hj
      exact Or.inl rfl
    · exact Or.inr ⟨j, hj⟩
  · exact card_usedNodes_le (n := n) hsizenode fun j hjn hj => by rwa [hkey, if_neg hjn] at hj

/-- The element is out of its main position: it goes to the free node. -/
theorem placed_relocate (hmain : mp.pos t.lsizenode other ≠ m) (ho : t.gnext o = some m)
    (hnode : ∀ j, t'.node j = if j = m then ⟨.key k, none, none⟩
      else if j = n then t.node m
      else if j = o then { t.node o with next := some n } else t.node j) :
    Placed mp t t' k m := by
  obtain ⟨hm, hd, hmn⟩ := main_ne_free h hother hn
  have halone : Alone t.gnext n := (h.free n hn.key).2
  have hon : o ≠ n := fun heq => by rw [heq, halone.1] at ho; cases ho
  have hom : o ≠ m := fun heq => h.linked.not_self m (heq ▸ ho)
  have hsizenode : t'.sizenode = t.sizenode := by unfold HashPart.sizenode; rw [hsize]
  have hkey : ∀ j, (t'.node j).key =
      if j = m then .key k else if j = n then .key other else (t.node j).key := by
    intro j
    rw [hnode]
    split_ifs with hjm hjn hjo
    · rfl
    · exact hother
    · rw [hjo]
    · rfl
  have hval : ∀ j, (t'.node j).val =
      if j = m then none else if j = n then (t.node m).val else (t.node j).val := by
    intro j
    rw [hnode]
    split_ifs with hjm hjn hjo
    · rfl
    · rfl
    · rw [hjo]
    · rfl
  have hgnext : t'.gnext = relocate t.gnext o m n := by
    funext j
    unfold HashPart.gnext
    rw [hnode]
    split_ifs with hjm hjn hjo
    · rw [hjm, relocate_self]
    · have hfresh : relocate t.gnext o m n n = t.gnext m := relocate_fresh hmn
      rw [hjn]
      exact hfresh.symm
    · rw [hjo, relocate_of_front hom hon]
    · rw [relocate_of_ne hjo hjm hjn]
  -- where an element comes from
  have hback : ∀ j k', (t'.node j).key = .key k' → (j = m ∧ k' = k) ∨
      (j ≠ m ∧ (t.node (if j = n then m else j)).key = .key k') := by
    intro j k' hj
    rw [hkey] at hj
    by_cases hjm : j = m
    · rw [if_pos hjm] at hj
      cases hj
      exact Or.inl ⟨hjm, rfl⟩
    · rw [if_neg hjm] at hj
      refine Or.inr ⟨hjm, ?_⟩
      split_ifs at hj ⊢ with hjn
      · exact hother.trans hj
      · exact hj
  -- no element has `m` as its main position
  have hposm : ∀ j k', (t.node j).key = .key k' → mp.pos t.lsizenode k' ≠ m := by
    intro j k' hj heq
    obtain ⟨k'', hk'', hpos''⟩ := h.main j k' hj
    rw [heq, hother] at hk''
    cases hk''
    exact hmain (hpos''.trans heq)
  have hmoved : ∀ j k', (t.node j).key = .key k' →
      First (relocate t.gnext o m n) (fun x => (t'.node x).key.object = some k')
        (mp.pos t.lsizenode k') (if j = m then n else j) := by
    intro j k' hj
    refine (h.chained j k' hj).relocate h.linked ho halone hmn (h.pos_ne_free hn hj)
      (hposm j k' hj) (fun x hxm hxn hx => ?_) fun hx => ?_
    · rwa [hkey, if_neg hxm, if_neg hxn] at hx
    · rw [hkey, if_neg hmn.symm, if_pos rfl] at hx
      rw [hother]
      exact hx
  have hvalid : Valid mp t' := by
    constructor
    · rw [hgnext]
      exact h.linked.relocate ho halone hmn
    · intro j hj
      rw [hsizenode, hdummy]
      rw [hkey] at hj
      split_ifs at hj with hjm hjn
      · exact ⟨hjm ▸ hm, hd⟩
      · exact ⟨hjn ▸ hn.lt, hd⟩
      · exact h.used j hj
    · intro j hj
      rw [hkey] at hj
      split_ifs at hj with hjm hjn
      rw [hval, if_neg hjm, if_neg hjn, hgnext]
      exact ⟨(h.free j hj).1, (h.free j hj).2.relocate ho hjm hjn⟩
    · intro j k' hj
      rw [hkey] at hj
      split_ifs at hj with hjm hjn
      rw [hval, if_neg hjm, if_neg hjn]
      exact h.dead j k' hj
    · rw [hfree, hsizenode]
      exact Nat.le_of_lt hn.lt
    · rw [hdummy, hd]
      exact fun hf => by cases hf
    · intro j hl hs _
      rw [hkey]
      split_ifs with hjm hjn
      · simp
      · simp
      · rw [hfree] at hl
        exact hn.above j (by omega) (hsizenode ▸ hs)
    · intro j k' hj
      rw [hgnext, hsize]
      have hl := h.linked.relocate ho halone hmn
      rw [hkey] at hj
      split_ifs at hj with hjm hjn
      · cases hj
        rw [hpos, hjm]
        exact hl.refl _ m
      · cases hj
        have hr := hmoved m other hother
        rw [if_pos rfl] at hr
        rw [hjn]
        exact hr
      · have hr := hmoved j k' hj
        rw [if_neg hjm] at hr
        exact hr
    · intro j k' hj
      rw [hsize]
      rw [hkey] at hj
      have hold : ∀ i, (t.node i).key = .key k' →
          ∃ k'', (t'.node (mp.pos t.lsizenode k')).key.object = some k'' ∧
            mp.pos t.lsizenode k'' = mp.pos t.lsizenode k' := by
        intro i hi
        rw [hkey, if_neg (hposm i k' hi), if_neg (h.pos_ne_free hn hi)]
        exact h.main i k' hi
      split_ifs at hj with hjm hjn
      · cases hj
        rw [hkey, if_pos hpos]
        exact ⟨k, rfl, rfl⟩
      · cases hj
        exact hold m hother
      · exact hold j hj
    · intro j j' k' hj hj'
      rcases hback j k' hj with ⟨hjm, hk⟩ | ⟨hjm, hj⟩
      · rcases hback j' k' hj' with ⟨hjm', -⟩ | ⟨-, hj'⟩
        · rw [hjm, hjm']
        · exact absurd (hk ▸ hj') (habs _)
      · rcases hback j' k' hj' with ⟨-, hk⟩ | ⟨hjm', hj'⟩
        · exact absurd (hk ▸ hj) (habs _)
        · have heq := h.unique _ _ k' hj hj'
          split_ifs at heq with h₁ h₂ h₂
          · rw [h₁, h₂]
          · exact absurd heq.symm hjm'
          · exact absurd heq hjm
          · exact heq
  refine ⟨hvalid, hsize, hdummy, ?_, ?_, fun k' hk' v => ?_, fun j k' hj => ?_, ?_⟩
  · rw [hkey, if_pos rfl]
  · rw [hval, if_pos rfl]
  · constructor
    · rintro ⟨j, hj, hv⟩
      rw [hkey] at hj
      rw [hval] at hv
      split_ifs at hj hv with hjm hjn
      · cases hj
        exact ⟨m, hother, hv⟩
      · exact ⟨j, hj, hv⟩
    · rintro ⟨j, hj, hv⟩
      by_cases hjm : j = m
      · subst hjm
        rw [hother] at hj
        cases hj
        refine ⟨n, ?_, ?_⟩
        · rw [hkey, if_neg hmn.symm, if_pos rfl]
        · rw [hval, if_neg hmn.symm, if_pos rfl]
          exact hv
      · have hjn : j ≠ n := fun heq => by rw [heq, hn.key] at hj; cases hj
        refine ⟨j, ?_, ?_⟩
        · rw [hkey, if_neg hjm, if_neg hjn]
          exact hj
        · rw [hval, if_neg hjm, if_neg hjn]
          exact hv
  · rcases hback j k' hj with ⟨-, hk⟩ | ⟨-, hj⟩
    · exact Or.inl hk
    · exact Or.inr ⟨_, hj⟩
  · refine card_usedNodes_le (n := n) hsizenode fun j hjn hj => ?_
    by_cases hjm : j = m
    · rw [hjm, hother]
      simp
    · rwa [hkey, if_neg hjm, if_neg hjn] at hj

end Collide

/-- `newkey`, with a free node `n`. -/
theorem placed_collide {other : K} (h : Valid mp t) (habs : ∀ i, (t.node i).key ≠ .key k)
    (hpos : mp.pos t.lsizenode k = m) (hother : (t.node m).key = .key other)
    (hn : FreePos t n) :
    ∃ t' i, collide mp { t with lastfree := n } k m n other = .ok (t', i) ∧
      Placed mp t t' k i := by
  obtain ⟨-, -, hmn⟩ := main_ne_free h hother hn
  unfold collide
  dsimp only
  by_cases hmain : mp.pos t.lsizenode other = m
  · rw [if_neg (not_not.mpr hmain)]
    refine ⟨_, _, rfl, placed_insertAfter h habs hpos hother hn rfl rfl rfl hmain fun j => ?_⟩
    simp only [HashPart.setKey, HashPart.setNext, HashPart.setNode, HashPart.gnext,
      Function.update_apply]
    by_cases hjm : j = m
    · subst hjm
      simp [hmn]
    · by_cases hjn : j = n
      · subst hjn
        simp [hjm, (h.free j hn.key).1]
      · simp [hjm, hjn]
  · rw [if_pos hmain]
    -- the element is behind its main position, so there is a node in front of it
    obtain ⟨a, b, hl, -⟩ := h.chained m other hother
    have hmem : m ∈ a ++ m :: b := List.mem_append_right _ List.mem_cons_self
    have hfound : ∃ o, walk t.gnext (fun i => t.gnext i = some m) t.sizenode
        (mp.pos t.lsizenode other) = some o ∧ t.gnext o = some m := by
      obtain ⟨l', hl', hwalk⟩ := h.walk_eq (fun i => t.gnext i = some m) other
      rw [hwalk, hl'.unique hl]
      rcases hl.mem_cases hmem with heq | ⟨o, ho, hnext⟩
      · exact absurd heq.symm hmain
      · cases hfind : (a ++ m :: b).find? fun i => decide (t.gnext i = some m) with
        | none => exact absurd (decide_eq_true hnext) (List.find?_eq_none.mp hfind o ho)
        | some o' =>
            have hdec := List.find?_some hfind
            exact ⟨o', rfl, of_decide_eq_true hdec⟩
    obtain ⟨o, hwalk, ho⟩ := hfound
    have hom : o ≠ m := fun heq => h.linked.not_self m (heq ▸ ho)
    have hon : o ≠ n := fun heq => by rw [heq, (h.free n hn.key).2.1] at ho; cases ho
    have hwalk' : walk (HashPart.gnext { t with lastfree := n })
        (fun i => HashPart.gnext { t with lastfree := n } i = some m)
        (HashPart.sizenode { t with lastfree := n }) (mp.pos t.lsizenode other) = some o := hwalk
    rw [hwalk']
    refine ⟨_, _, rfl, placed_relocate h habs hpos hother hn rfl rfl rfl hmain ho fun j => ?_⟩
    simp only [HashPart.setNext, HashPart.setNode, Function.update_apply]
    by_cases hjm : j = m
    · rw [if_pos hjm, if_pos hjm]
    · by_cases hjn : j = n
      · simp [hjn, hmn.symm, hom.symm]
      · simp [hjm, hjn]

/-- A key that is not in the table yet. -/
theorem newkey_cases (set : HashPart K V → K → Except Failure (HashPart K V × Nat))
    (h : Valid mp t) (habs : ∀ i, (t.node i).key ≠ .key k) :
    (∃ t' i, newkey mp set t k = .ok (t', i) ∧ Placed mp t t' k i) ∨
      (Full t ∧ newkey mp set t k = do
        let t ← rehash set { t with lastfree := 0 }
        set t k) := by
  unfold newkey
  dsimp only
  by_cases hcond : (t.node (mp.pos t.lsizenode k)).val.isSome = true ∨ t.dummy = true
  · rw [if_pos hcond]
    rcases getfreepos_spec h with ⟨n, hfree, hn⟩ | ⟨hfree, hfull⟩
    · rw [hfree]
      dsimp only
      refine Or.inl ?_
      have hval : (t.node (mp.pos t.lsizenode k)).val.isSome = true := by
        refine hcond.resolve_right fun hd => ?_
        have hlt := hn.lt
        have := h.lastfree_dummy hd
        unfold HashPart.getfreepos at hfree
        rw [this] at hfree
        cases hfree
      cases hkey : (t.node (mp.pos t.lsizenode k)).key with
      | nil => rw [(h.free _ hkey).1] at hval; cases hval
      | dead k' => rw [h.dead _ k' hkey] at hval; cases hval
      | key other => exact placed_collide h habs rfl hkey hn
    · rw [hfree]
      exact Or.inr ⟨hfull, rfl⟩
  · rw [if_neg hcond]
    rw [not_or, Bool.not_eq_true, Option.isSome_eq_false_iff, Option.isNone_iff_eq_none,
      Bool.not_eq_true] at hcond
    exact Or.inl ⟨_, _, rfl, placed_setKey h habs hcond.1 hcond.2⟩

end NewKey

/-! ## A larger table -/

section Grow

variable {K V : Type} [DecidableEq K] {mp : MainPosition K} {t t' old : HashPart K V} {k : K}
  {i : Nat}

theorem index_setVal (h : Valid mp t) (hi : (t.node i).key = .key k) (v : Option V) (k' : K) :
    index mp (t.setVal i v) k' = if k' = k then v else index mp t k' := by
  have h' := h.setVal hi v
  obtain hset := setVal_node t i
  refine Option.ext fun w => ?_
  rw [index_eq_some h']
  by_cases hk : k' = k
  · subst hk
    rw [if_pos rfl]
    constructor
    · rintro ⟨j, hj, hv⟩
      rw [(hset j v).1] at hj
      obtain rfl := h.unique j i k' hj hi
      rw [(hset j v).2.2, if_pos rfl] at hv
      exact hv
    · intro hv
      refine ⟨i, ?_, ?_⟩
      · rw [(hset i v).1, hi]
      · rw [(hset i v).2.2, if_pos rfl]
        exact hv
  · rw [if_neg hk, index_eq_some h]
    refine exists_congr fun j => ?_
    rw [(hset j v).1]
    refine and_congr_right fun hj => ?_
    have hne : j ≠ i := fun heq => by
      rw [heq, hi] at hj
      cases hj
      exact hk rfl
    rw [(hset j v).2.2, if_neg hne]

/-- The new key has no value, and the others have kept theirs. -/
theorem Placed.index_eq (hp : Placed mp t t' k i) (h : Valid mp t)
    (habs : ∀ i, (t.node i).key ≠ .key k) (k' : K) : index mp t' k' = index mp t k' := by
  by_cases hk : k' = k
  · subst hk
    have hnone : index mp t k' = none := by
      unfold index
      rw [(luaHGet_eq_none h).mpr habs]
      rfl
    have hget : luaHGet mp t' k' = some i := (luaHGet_iff hp.valid).mpr hp.key
    rw [hnone, index, hget]
    exact hp.val
  · exact index_congr h hp.valid (hp.others k' hk)

theorem card_usedNodes_setVal (t : HashPart K V) (i : Nat) (v : Option V) :
    (t.setVal i v).usedNodes = t.usedNodes := by
  refine Finset.filter_congr fun j _ => ?_
  rw [(setVal_node t i j v).1]

/-- The elements from a node on. -/
def liveFrom (t : HashPart K V) (j : Nat) : Finset Nat :=
  (Finset.range t.sizenode).filter fun i => j ≤ i ∧ (t.node i).val.isSome

/-- The loop of `resize`, when the nodes from `j` on have been copied. -/
structure Copied (mp : MainPosition K) (old : HashPart K V) (j : Nat) (t : HashPart K V) :
    Prop where
  valid : Valid mp t
  dummy : t.dummy = false
  room : (liveFrom old 0).card < t.sizenode
  card : t.usedNodes.card ≤ (liveFrom old j).card
  keys : ∀ i k, (t.node i).key = .key k → ∃ i', j ≤ i' ∧ (old.node i').key = .key k
  index : ∀ k v, index mp t k = some v ↔
    ∃ i, j ≤ i ∧ (old.node i).key = .key k ∧ (old.node i).val = some v

/-- A function that adds a key to a table with a free node. -/
def Adds (mp : MainPosition K) (set : HashPart K V → K → Except Failure (HashPart K V × Nat)) :
    Prop :=
  ∀ t k, Valid mp t → (∀ i, (t.node i).key ≠ .key k) → t.dummy = false →
    t.usedNodes.card < t.sizenode → ∃ t' i, set t k = .ok (t', i) ∧ Placed mp t t' k i

omit [DecidableEq K] in
theorem liveFrom_succ {j : Nat} (hj : j < old.sizenode) :
    (liveFrom old j).card =
      (liveFrom old (j + 1)).card + if (old.node j).val.isSome then 1 else 0 := by
  have hsplit : liveFrom old j =
      if (old.node j).val.isSome then insert j (liveFrom old (j + 1)) else liveFrom old (j + 1) := by
    ext i
    unfold liveFrom
    split_ifs with hv
    · simp only [Finset.mem_filter, Finset.mem_insert]
      constructor
      · rintro ⟨hr, hle, hi⟩
        rcases Nat.eq_or_lt_of_le hle with rfl | hlt
        · exact Or.inl rfl
        · exact Or.inr ⟨hr, hlt, hi⟩
      · rintro (rfl | ⟨hr, hle, hi⟩)
        · exact ⟨Finset.mem_range.mpr hj, le_refl _, hv⟩
        · exact ⟨hr, Nat.le_of_succ_le hle, hi⟩
    · simp only [Finset.mem_filter]
      refine and_congr_right fun _ => ⟨fun ⟨hle, hi⟩ => ⟨?_, hi⟩, fun ⟨hle, hi⟩ => ⟨?_, hi⟩⟩
      · rcases Nat.eq_or_lt_of_le hle with rfl | hlt
        · exact absurd hi hv
        · exact hlt
      · exact Nat.le_of_succ_le hle
  rw [hsplit]
  split_ifs
  · refine Finset.card_insert_of_notMem fun hmem => ?_
    have hle := (Finset.mem_filter.mp hmem).2.1
    omega
  · rfl

omit [DecidableEq K] in
theorem liveFrom_card_le (j : Nat) : (liveFrom old j).card ≤ (liveFrom old 0).card := by
  refine Finset.card_le_card fun i hi => ?_
  obtain ⟨hr, -, hv⟩ := Finset.mem_filter.mp hi
  exact Finset.mem_filter.mpr ⟨hr, Nat.zero_le _, hv⟩

theorem reinsert_spec {set : HashPart K V → K → Except Failure (HashPart K V × Nat)}
    (hset : Adds mp set) (hold : Valid mp old) {j : Nat} (hj : j ≤ old.sizenode)
    (hc : Copied mp old j t) :
    ∃ t', reinsert set old j t = .ok t' ∧ t'.lsizenode = t.lsizenode ∧ Copied mp old 0 t' := by
  induction j generalizing t with
  | zero => exact ⟨t, rfl, rfl, hc⟩
  | succ j ih =>
      have hlive := @liveFrom_succ _ _ old _ (Nat.lt_of_succ_le hj)
      have hle := @liveFrom_card_le _ _ old j
      rw [reinsert]
      cases hval : (old.node j).val with
      | none =>
          refine ih (Nat.le_of_succ_le hj) ⟨hc.valid, hc.dummy, hc.room, ?_, ?_, ?_⟩
          · rw [hlive, hval]
            exact hc.card
          · intro i k hi
            obtain ⟨i', hi', hk⟩ := hc.keys i k hi
            exact ⟨i', Nat.le_of_succ_le hi', hk⟩
          · intro k v
            rw [hc.index]
            constructor
            · rintro ⟨i, hi, hk, hv⟩
              exact ⟨i, Nat.le_of_succ_le hi, hk, hv⟩
            · rintro ⟨i, hi, hk, hv⟩
              refine ⟨i, ?_, hk, hv⟩
              rcases Nat.eq_or_lt_of_le hi with rfl | hlt
              · rw [hval] at hv
                cases hv
              · exact hlt
      | some v =>
          rw [hval] at hlive
          simp only [Option.isSome_some, if_true] at hlive
          have hkey : ∃ k, (old.node j).key = .key k := by
            cases hk : (old.node j).key with
            | nil => rw [(hold.free j hk).1] at hval; cases hval
            | dead k => rw [hold.dead j k hk] at hval; cases hval
            | key k => exact ⟨k, rfl⟩
          obtain ⟨k, hk⟩ := hkey
          have habs : ∀ i, (t.node i).key ≠ .key k := by
            intro i hi
            obtain ⟨i', hi', hk'⟩ := hc.keys i k hi
            have := hold.unique i' j k hk' hk
            omega
          obtain ⟨t₁, slot, hok, hp⟩ := hset t k hc.valid habs hc.dummy (by
            have := hc.card
            have := hc.room
            omega)
          have hroom : t₁.sizenode = t.sizenode := by
            unfold HashPart.sizenode
            rw [hp.lsizenode]
          have hc' : Copied mp old j (t₁.setVal slot (some v)) := by
            refine ⟨hp.valid.setVal hp.key _, hp.dummy.trans hc.dummy, ?_, ?_, ?_, ?_⟩
            · rw [setVal_sizenode, hroom]
              exact hc.room
            · rw [card_usedNodes_setVal, hlive]
              exact le_trans hp.card (Nat.succ_le_succ hc.card)
            · intro i k' hi
              rw [(setVal_node t₁ slot i (some v)).1] at hi
              rcases hp.keys i k' hi with rfl | ⟨i', hi'⟩
              · exact ⟨j, le_refl _, hk⟩
              · obtain ⟨i'', hle'', hk''⟩ := hc.keys i' k' hi'
                exact ⟨i'', Nat.le_of_succ_le hle'', hk''⟩
            · intro k' w
              rw [index_setVal hp.valid hp.key, hp.index_eq hc.valid habs]
              by_cases hk' : k' = k
              · subst hk'
                rw [if_pos rfl]
                constructor
                · rintro ⟨⟩
                  exact ⟨j, le_refl _, hk, hval⟩
                · rintro ⟨i, -, hi, hv⟩
                  rw [hold.unique i j k' hi hk, hval] at hv
                  exact hv
              · rw [if_neg hk', hc.index]
                constructor
                · rintro ⟨i, hi, hi', hv⟩
                  exact ⟨i, Nat.le_of_succ_le hi, hi', hv⟩
                · rintro ⟨i, hi, hi', hv⟩
                  refine ⟨i, ?_, hi', hv⟩
                  rcases Nat.eq_or_lt_of_le hi with rfl | hlt
                  · rw [hk] at hi'
                    cases hi'
                    exact absurd rfl hk'
                  · exact hlt
          obtain ⟨t', hok', hsize, hfinal⟩ := ih (Nat.le_of_succ_le hj) hc'
          refine ⟨t', ?_, hsize.trans hp.lsizenode, hfinal⟩
          dsimp only
          rw [hk]
          dsimp only [Key.object]
          rw [hok]
          exact hok'

theorem le_two_pow_ceillog2 (x : Nat) : x ≤ 2 ^ ceillog2 x := by
  unfold ceillog2
  split_ifs with h
  · exact h
  · have := Nat.lt_log2_self (n := x - 1)
    omega

theorem lt_of_lt_ceillog2 {b x : Nat} (h : b < ceillog2 x) : 2 ^ b < x := by
  unfold ceillog2 at h
  split_ifs at h with hx
  · omega
  · have hle : b ≤ Nat.log2 (x - 1) := Nat.le_of_lt_succ h
    have hpow := (Nat.le_log2 (by omega)).mp hle
    omega

omit [DecidableEq K] in
theorem valid_free (lsizenode : Nat) (dummy : Bool) :
    Valid mp (⟨lsizenode, fun _ => .free, dummy,
      if dummy then 0 else 2 ^ lsizenode⟩ : HashPart K V) := by
  constructor
  · exact ⟨fun i i' j hi => (by cases hi), fun i => ⟨[i], .cons .nil⟩⟩
  · exact fun i hi => absurd rfl hi
  · exact fun i _ => ⟨rfl, rfl, fun j hj => (by cases hj)⟩
  · exact fun i k hi => by cases hi
  · change (if dummy then 0 else 2 ^ lsizenode) ≤ 2 ^ lsizenode
    split_ifs
    · exact Nat.zero_le _
    · exact le_refl _
  · rintro ⟨⟩
    rfl
  · intro i hl hs hd
    cases hd
    exact absurd hs (Nat.not_lt.mpr hl)
  · exact fun i k hi => by cases hi
  · exact fun i k hi => by cases hi
  · exact fun i j k hi => by cases hi

omit [DecidableEq K] in
theorem setnodevector_spec (mp : MainPosition K) (size : Nat) (hsize : size ≠ 0) :
    ((setnodevector size : Except Failure (HashPart K V)) = .error tableOverflow ∧
      2 ^ MAXBITS < size) ∨
      ∃ t : HashPart K V, setnodevector size = .ok t ∧ Valid mp t ∧ t.dummy = false ∧
        size ≤ t.sizenode ∧ ∀ i, t.node i = .free := by
  unfold setnodevector
  rw [if_neg hsize]
  split_ifs with hbits
  · exact Or.inl ⟨rfl, lt_of_lt_ceillog2 hbits⟩
  · exact Or.inr ⟨_, rfl, valid_free _ false, rfl, le_two_pow_ceillog2 size, fun _ => rfl⟩

omit [DecidableEq K] in
theorem numusehash_eq (t : HashPart K V) : t.numusehash = (liveFrom t 0).card := by
  unfold HashPart.numusehash liveFrom
  simp only [Nat.zero_le, true_and]
  have hcard : ((Finset.range t.sizenode).filter fun i => (t.node i).val.isSome).card =
      ((List.range t.sizenode).filter fun i => decide ((t.node i).val.isSome = true)).length :=
    rfl
  rw [hcard, List.countP_eq_length_filter]
  simp only [Bool.decide_eq_true]

theorem adds_luaHSet (mp : MainPosition K) (depth : Nat) :
    Adds (V := V) mp (luaHSet mp (depth + 1)) := by
  intro t k h habs hdummy hroom
  rw [luaHSet, (luaHGet_eq_none h).mpr habs]
  rcases newkey_cases (luaHSet mp depth) h habs with hplaced | ⟨hd | hall, -⟩
  · exact hplaced
  · rw [hdummy] at hd
    cases hd
  · have huniv : t.usedNodes = Finset.range t.sizenode :=
      Finset.filter_true_of_mem fun i hi => hall i (Finset.mem_range.mp hi)
    rw [huniv, Finset.card_range] at hroom
    exact absurd hroom (lt_irrefl _)

/-- A table without a free node is copied to one with room for another key. -/
theorem rehash_spec {set : HashPart K V → K → Except Failure (HashPart K V × Nat)}
    (hset : Adds mp set) (h : Valid mp t) :
    (rehash set t = .error tableOverflow ∧ 2 ^ MAXBITS ≤ t.numusehash) ∨
      ∃ t', rehash set t = .ok t' ∧ Valid mp t' ∧ t'.dummy = false ∧
        t'.usedNodes.card < t'.sizenode ∧
        (∀ i k, (t'.node i).key = .key k → ∃ i', (t.node i').key = .key k) ∧
        ∀ k, index mp t' k = index mp t k := by
  unfold rehash resize
  rcases setnodevector_spec mp (t.numusehash + 1) (Nat.succ_ne_zero _) with
    ⟨herr, hlt⟩ | ⟨new, hok, hvalid, hdummy, hsize, hfree⟩
  · rw [herr]
    exact Or.inl ⟨rfl, Nat.le_of_lt_succ hlt⟩
  · rw [hok]
    have hnokey : ∀ i k, (new.node i).key ≠ .key k := by
      intro i k hi
      rw [hfree] at hi
      cases hi
    have hroom : (liveFrom t 0).card < new.sizenode := by
      rw [← numusehash_eq]
      exact hsize
    have hc : Copied mp t t.sizenode new := by
      refine ⟨hvalid, hdummy, hroom, ?_, fun i k hi => absurd hi (hnokey i k), fun k v => ?_⟩
      · have hempty : new.usedNodes = ∅ :=
          Finset.filter_false_of_mem fun i _ => by rw [hfree]; simp [Node.free]
        rw [hempty]
        exact Nat.zero_le _
      · rw [index_eq_some hvalid]
        constructor
        · rintro ⟨i, hi, -⟩
          exact absurd hi (hnokey i k)
        · rintro ⟨i, hi, hk, -⟩
          have hlt := (h.used i (by rw [hk]; simp)).1
          omega
    obtain ⟨t', hok', hsize', hfinal⟩ := reinsert_spec hset h (le_refl _) hc
    refine Or.inr ⟨t', hok', hfinal.valid, hfinal.dummy, ?_, fun i k hi => ?_, fun k => ?_⟩
    · exact Nat.lt_of_le_of_lt hfinal.card hfinal.room
    · obtain ⟨i', -, hi'⟩ := hfinal.keys i k hi
      exact ⟨i', hi'⟩
    · refine Option.ext fun v => ?_
      rw [hfinal.index, index_eq_some h]
      simp only [Nat.zero_le, true_and]

omit [DecidableEq K] in
theorem Valid.lastfree_zero (h : Valid mp t) (hfull : Full t) :
    Valid mp { t with lastfree := 0 } where
  linked := h.linked
  used := h.used
  free := h.free
  dead := h.dead
  lastfree_le := Nat.zero_le _
  lastfree_dummy _ := rfl
  lastfree i _ hs hd := by
    rcases hfull with hdummy | hall
    · exact absurd (hdummy.symm.trans hd) (by simp)
    · exact hall i hs
  chained := h.chained
  main := h.main
  unique := h.unique

/-- What `luaH_set` does: the table holds what it held, and the node that is returned has the
    key. -/
theorem luaHSet_spec (h : Valid mp t) (k : K) {depth : Nat} (hdepth : 2 ≤ depth) :
    (∃ t' i, luaHSet mp depth t k = .ok (t', i) ∧ Valid mp t' ∧ (t'.node i).key = .key k ∧
      ∀ k', index mp t' k' = index mp t k') ∨
    (luaHSet mp depth t k = .error tableOverflow ∧ 2 ^ MAXBITS ≤ t.numusehash) := by
  obtain ⟨d, rfl⟩ : ∃ d, depth = d + 2 := ⟨depth - 2, by omega⟩
  rw [luaHSet]
  cases hget : luaHGet mp t k with
  | some i => exact Or.inl ⟨t, i, rfl, h, (luaHGet_iff h).mp hget, fun _ => rfl⟩
  | none =>
      have habs := (luaHGet_eq_none h).mp hget
      rcases newkey_cases (luaHSet mp (d + 1)) h habs with ⟨t', i, hok, hp⟩ | ⟨hfull, hrehash⟩
      · exact Or.inl ⟨t', i, hok, hp.valid, hp.key, hp.index_eq h habs⟩
      · dsimp only
        rw [hrehash]
        rcases rehash_spec (adds_luaHSet mp d) (h.lastfree_zero hfull) with ⟨herr, hlt⟩ |
          ⟨t₁, hok₁, hvalid₁, hdummy₁, hroom₁, hkeys₁, hindex₁⟩
        · rw [herr]
          exact Or.inr ⟨rfl, hlt⟩
        · have habs₁ : ∀ i, (t₁.node i).key ≠ .key k := by
            intro i hi
            obtain ⟨i', hi'⟩ := hkeys₁ i k hi
            exact habs i' hi'
          obtain ⟨t', i, hok, hp⟩ := adds_luaHSet mp d t₁ k hvalid₁ habs₁ hdummy₁ hroom₁
          refine Or.inl ⟨t', i, ?_, hp.valid, hp.key, fun k' => ?_⟩
          · rw [hok₁]
            exact hok
          · rw [hp.index_eq hvalid₁ habs₁, hindex₁]
            rfl

end Grow

/-! ## Runs -/

/-- What happens to a table. -/
inductive Op (K V : Type) where
  /-- `t[ k ] = v` -/
  | assign (k : K) (v : Option V)
  /-- a cycle of the garbage collector -/
  | collect

section Runs

variable {K V : Type} [DecidableEq K] (mp : MainPosition K) (collectable : K → Bool) (depth : Nat)

def step (t : HashPart K V) : Op K V → Except Failure (HashPart K V)
  | .assign k v => assign mp depth t k v
  | .collect => .ok (collect collectable t)

def run (ops : List (Op K V)) (t : HashPart K V) : Except Failure (HashPart K V) :=
  ops.foldlM (step mp collectable depth) t

/-- The same for a map. -/
def Op.apply (f : K → Option V) : Op K V → K → Option V
  | .assign k v => Function.update f k v
  | .collect => f

variable {mp collectable depth} {t : HashPart K V}

omit [DecidableEq K] in
theorem collect_node (t : HashPart K V) (i : Nat) :
    ((collect collectable t).node i).val = (t.node i).val ∧
      ((collect collectable t).node i).next = (t.node i).next ∧
      ((collect collectable t).node i).key.object = (t.node i).key.object ∧
      (((collect collectable t).node i).key = (t.node i).key ∨
        (t.node i).val = none ∧ ∃ k, (t.node i).key = .key k ∧
          ((collect collectable t).node i).key = .dead k) := by
  unfold collect
  dsimp only
  cases hv : (t.node i).val with
  | some v => exact ⟨hv, rfl, rfl, Or.inl rfl⟩
  | none =>
      cases hk : (t.node i).key with
      | nil => exact ⟨hv, rfl, by rw [hk], Or.inl hk⟩
      | dead k => exact ⟨hv, rfl, by rw [hk], Or.inl hk⟩
      | key k =>
          dsimp only
          split_ifs
          · exact ⟨rfl, rfl, rfl, Or.inr ⟨rfl, k, rfl, rfl⟩⟩
          · exact ⟨hv, rfl, by rw [hk], Or.inl hk⟩

omit [DecidableEq K] in
/-- The elements have kept their keys. -/
theorem key_of_collect {i : Nat} {k : K} (h : ((collect collectable t).node i).key = .key k) :
    (t.node i).key = .key k := by
  rcases (collect_node t i).2.2.2 with heq | ⟨-, k', -, hdead⟩
  · rw [← heq, h]
  · rw [hdead] at h
    cases h

omit [DecidableEq K] in
theorem key_collect_eq_nil {i : Nat} :
    ((collect collectable t).node i).key = .nil ↔ (t.node i).key = .nil := by
  have hnil : ∀ key : Key K, key = .nil ↔ key.object = none := by
    intro key
    cases key <;> simp [Key.object]
  rw [hnil, hnil, (collect_node t i).2.2.1]

omit [DecidableEq K] in
theorem Valid.collect (h : Valid mp t) : Valid mp (collect collectable t) := by
  have hgnext : (LuaTable.collect collectable t).gnext = t.gnext :=
    funext fun i => (collect_node t i).2.1
  constructor
  · rw [hgnext]
    exact h.linked
  · exact fun i hi => h.used i fun hk => hi (key_collect_eq_nil.mpr hk)
  · intro i hi
    rw [(collect_node t i).1, hgnext]
    exact h.free i (key_collect_eq_nil.mp hi)
  · intro i k hi
    rw [(collect_node t i).1]
    rcases (collect_node t i).2.2.2 with heq | ⟨hval, -⟩
    · exact h.dead i k (heq ▸ hi)
    · exact hval
  · exact h.lastfree_le
  · exact h.lastfree_dummy
  · exact fun i hl hs hd hi => h.lastfree i hl hs hd (key_collect_eq_nil.mp hi)
  · intro i k hi
    rw [hgnext]
    refine (h.chained i k (key_of_collect hi)).mono fun j hj => ?_
    rw [← (collect_node t j).2.2.1]
    exact hj
  · intro i k hi
    obtain ⟨k', hk', hpos⟩ := h.main i k (key_of_collect hi)
    exact ⟨k', (collect_node t _).2.2.1.trans hk', hpos⟩
  · exact fun i j k hi hj => h.unique i j k (key_of_collect hi) (key_of_collect hj)

theorem index_collect (h : Valid mp t) (k : K) :
    index mp (collect collectable t) k = index mp t k := by
  refine index_congr h h.collect fun v => exists_congr fun i => ?_
  rw [(collect_node t i).1]
  refine ⟨fun ⟨hk, hv⟩ => ⟨key_of_collect hk, hv⟩, fun ⟨hk, hv⟩ => ⟨?_, hv⟩⟩
  rcases (collect_node t i).2.2.2 with heq | ⟨hval, -⟩
  · rw [heq, hk]
  · rw [hval] at hv
    cases hv

theorem assign_spec (h : Valid mp t) (hdepth : 2 ≤ depth) (k : K) (v : Option V) :
    (∃ t', assign mp depth t k v = .ok t' ∧ Valid mp t' ∧
      index mp t' = Function.update (index mp t) k v) ∨
    (assign mp depth t k v = .error tableOverflow ∧ 2 ^ MAXBITS ≤ t.numusehash) := by
  unfold assign
  rcases luaHSet_spec h k hdepth with ⟨t', i, hok, hvalid, hkey, hindex⟩ | ⟨herr, hlt⟩
  · rw [hok]
    refine Or.inl ⟨t'.setVal i v, rfl, hvalid.setVal hkey v, funext fun k' => ?_⟩
    rw [index_setVal hvalid hkey, Function.update_apply, hindex]
  · rw [herr]
    exact Or.inr ⟨rfl, hlt⟩

theorem step_spec (collectable : K → Bool) (h : Valid mp t) (hdepth : 2 ≤ depth) (op : Op K V) :
    (∃ t', step mp collectable depth t op = .ok t' ∧ Valid mp t' ∧
      index mp t' = op.apply (index mp t)) ∨
    (step mp collectable depth t op = .error tableOverflow ∧ 2 ^ MAXBITS ≤ t.numusehash) := by
  cases op with
  | assign k v => exact assign_spec h hdepth k v
  | collect => exact Or.inl ⟨_, rfl, h.collect, funext (index_collect h)⟩

theorem run_spec (collectable : K → Bool) (h : Valid mp t) (hdepth : 2 ≤ depth) (ops : List (Op K V)) :
    (∃ t', run mp collectable depth ops t = .ok t' ∧ Valid mp t' ∧
      index mp t' = ops.foldl Op.apply (index mp t)) ∨
    (run mp collectable depth ops t = .error tableOverflow ∧
      ∃ pre t', pre <+: ops ∧ run mp collectable depth pre t = .ok t' ∧
        2 ^ MAXBITS ≤ t'.numusehash) := by
  induction ops generalizing t with
  | nil => exact Or.inl ⟨t, rfl, h, rfl⟩
  | cons op ops ih =>
      have hcons : ∀ l, run mp collectable depth (op :: l) t =
          step mp collectable depth t op >>= run mp collectable depth l := fun _ => rfl
      rw [hcons]
      rcases step_spec collectable h hdepth op with
        ⟨t₁, hok, hvalid, hindex⟩ | ⟨herr, hlt⟩
      · rw [hok]
        rcases ih hvalid with ⟨t', hok', hvalid', hindex'⟩ | ⟨herr, pre, t', hpre, hok', hlt⟩
        · refine Or.inl ⟨t', hok', hvalid', ?_⟩
          rw [hindex', hindex, List.foldl_cons]
        · refine Or.inr ⟨herr, op :: pre, t', List.cons_prefix_cons.mpr ⟨rfl, hpre⟩, ?_, hlt⟩
          rw [hcons, hok]
          exact hok'
      · rw [herr]
        exact Or.inr ⟨rfl, [], t, List.nil_prefix, rfl, hlt⟩

theorem valid_luaHNew (mp : MainPosition K) {nhash : Nat} (h : luaHNew nhash = .ok t) :
    Valid mp t ∧ ∀ k, index mp t k = none := by
  have hnodes : Valid mp t ∧ ∀ i, t.node i = .free := by
    unfold luaHNew setnodevector at h
    split_ifs at h
    · cases h
      exact ⟨valid_free 0 true, fun _ => rfl⟩
    · cases h
      exact ⟨valid_free _ false, fun _ => rfl⟩
  refine ⟨hnodes.1, fun k => Option.eq_none_iff_forall_ne_some.mpr fun v hv => ?_⟩
  obtain ⟨i, hi, -⟩ := (index_eq_some hnodes.1).mp hv
  rw [hnodes.2 i] at hi
  cases hi

/-- **A table is a map.** After any assignments and collections, a table that was made by
    `luaH_new` holds under each key what was assigned to it last, and an element out of its main
    position collides with one that is in its own. The only error is that there are too many
    elements. -/
theorem run_refines {nhash : Nat} (hnew : luaHNew nhash = .ok t) (hdepth : 2 ≤ depth)
    (ops : List (Op K V)) :
    (∃ t', run mp collectable depth ops t = .ok t' ∧
      (∀ k, index mp t' k = ops.foldl Op.apply (fun _ => none) k) ∧
      ∀ i k, (t'.node i).key = .key k → mp.pos t'.lsizenode k ≠ i →
        ∃ k', (t'.node (mp.pos t'.lsizenode k)).key.object = some k' ∧
          mp.pos t'.lsizenode k' = mp.pos t'.lsizenode k) ∨
    (run mp collectable depth ops t = .error tableOverflow ∧
      ∃ pre t', pre <+: ops ∧ run mp collectable depth pre t = .ok t' ∧
        2 ^ MAXBITS ≤ t'.numusehash) := by
  obtain ⟨hvalid, hempty⟩ := valid_luaHNew mp hnew
  rcases run_spec collectable hvalid hdepth ops with
    ⟨t', hok, hvalid', hindex⟩ | herr
  · refine Or.inl ⟨t', hok, fun k => ?_, fun i k hi _ => hvalid'.main i k hi⟩
    rw [hindex, show index mp t = fun _ => none from funext hempty]
  · exact Or.inr herr

/-- A field is cleared, collected and assigned again. -/
theorem run_refines_ab :
    let ops : List (Op LuaString Nat) := [.assign ['a'] (some 1), .assign ['b'] (some 2),
      .assign ['a'] none, .collect, .assign ['c'] (some 3), .assign ['a'] (some 4)]
    let mp := hashstr luaSHash
    let t : HashPart LuaString Nat := ⟨0, fun _ => .free, true, 0⟩
    (∃ t', run mp (fun _ => true) 2 ops t = .ok t' ∧
      (∀ k, index mp t' k = ops.foldl Op.apply (fun _ => none) k) ∧
      ∀ i k, (t'.node i).key = .key k → mp.pos t'.lsizenode k ≠ i →
        ∃ k', (t'.node (mp.pos t'.lsizenode k)).key.object = some k' ∧
          mp.pos t'.lsizenode k' = mp.pos t'.lsizenode k) ∨
    (run mp (fun _ => true) 2 ops t = .error tableOverflow ∧
      ∃ pre t', pre <+: ops ∧ run mp (fun _ => true) 2 pre t = .ok t' ∧
        2 ^ MAXBITS ≤ t'.numusehash) :=
  run_refines (show luaHNew 0 = .ok _ from rfl) (le_refl 2) _

end Runs

end Buildsh.LuaTable
