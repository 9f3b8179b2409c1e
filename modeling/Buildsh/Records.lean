/-
  `build.lua`: when `check_deps` finds a record up to date, for any table in `.deps.lua`.

  A record is hashed key by key, so what decides is which keys the hash function is asked about.
  A key that is neither a string nor a number makes it raise, and so does a record that is nested
  deeper than Lua's stack (`Tolerated`). Everything else is tolerated: `exact_iff`.
-/
import Buildsh.Tables

namespace Buildsh.Records
open Buildsh.Generic

/-! ## Rehashing -/

section Rehash

variable (numText : Nat → LuaString) (hash : LuaString → LuaString)

/-- The C function takes the key for a file name. -/
def Hashable (fn : Val) : Prop := ∃ name, fileName numText fn = some name

/-- The key is mapped to the hash of its file. -/
def IsCurrent (fn v : Val) : Prop := ∃ name, fileName numText fn = some name ∧ v = .str (hash name)

/-- Every key is mapped to the hash of its file. -/
def Current (o : Obj) : Prop := ∀ fn v, o.lookup fn = some v → IsCurrent numText hash fn v

/-- The loop of `update_deps_io` comes to the entry. -/
def Walked (stop : Bool) : List Entry → Entry → Prop
  | [], _ => False
  | x :: l, e => e = x ∨ (stop = true → IsCurrent numText hash x.1 x.2) ∧ Walked stop l e

/-- `pairs` yields a key that is no file name first, where there is one. -/
def Order.BadFirst (order : Order) : Prop :=
  ∀ h r, (∃ e ∈ order.pairs h r, ¬ Hashable numText e.1) →
    ∃ e l, order.pairs h r = e :: l ∧ ¬ Hashable numText e.1

variable {numText hash} {order : Order} {onlynew stop : Bool} {l : List Entry} {e : Entry}
  {s : Heap Obj} {io : Nat} {fn : Val}

theorem wp_hashFile {Q : LuaString → Heap Obj → Prop} {E : LuaError → Heap Obj → Prop}
    (hQ : ∀ name, fileName numText fn = some name → Q (hash name) s)
    (hE : ∀ e, ¬ Hashable numText fn → E e s) : wp (hashFile numText hash fn) Q E s := by
  unfold hashFile
  cases hn : fileName numText fn with
  | none =>
      refine hE _ ?_
      rintro ⟨name, hname⟩
      rw [hn] at hname
      cases hname
  | some name => exact hQ name hn

/-- What the writes of `update_deps_io` preserve, holds after it, whether it returns or raises. -/
theorem updateLoop_inv (I : Heap Obj → Prop)
    (hI : ∀ s k x, I s → I (s.set io ((Heap.get s io).insert k (.str x)))) (differ : Bool)
    (hs : I s) :
    wp (updateLoop numText hash io onlynew stop l differ) (fun _ s' => I s') (fun _ s' => I s')
      s := by
  induction l generalizing differ s with
  | nil => exact hs
  | cons x l ih =>
      obtain ⟨fn, ohash⟩ := x
      rw [updateLoop]
      by_cases hnew : (!onlynew || !ohash.isString) = true
      · rw [if_pos hnew, wp_bind]
        refine wp_hashFile (fun name _ => ?_) fun _ _ => hs
        rw [wp_bind, wp_rawset]
        have hs' := hI s fn (hash name) hs
        by_cases hne : ohash ≠ .str (hash name)
        · rw [if_pos hne]
          cases stop with
          | true => exact hs'
          | false => exact ih true hs'
        · rw [if_neg hne]
          exact ih differ hs'
      · rw [if_neg hnew]
        exact ih differ hs

/-- The result of `update_deps_io` does not depend on what it has written. -/
theorem updateLoop_decides (differ : Bool) :
    wp (updateLoop numText hash io false stop l differ)
      (fun b _ => (b = false ↔ differ = false ∧ ∀ e ∈ l, IsCurrent numText hash e.1 e.2) ∧
        ∀ e, Walked numText hash stop l e → Hashable numText e.1)
      (fun _ _ => ∃ e ∈ l, ¬ Hashable numText e.1) s := by
  induction l generalizing differ s with
  | nil => exact ⟨by simp, fun e he => he.elim⟩
  | cons x l ih =>
      obtain ⟨fn, ohash⟩ := x
      rw [updateLoop, if_pos (by rfl), wp_bind]
      refine wp_hashFile (fun name hname => ?_) fun _ h => ⟨⟨fn, ohash⟩, by simp, h⟩
      rw [wp_bind, wp_rawset]
      have hfn : Hashable numText fn := ⟨name, hname⟩
      have hcur : IsCurrent numText hash fn ohash ↔ ohash = .str (hash name) := by
        refine ⟨fun ⟨name', hn, hv⟩ => ?_, fun h => ⟨name, hname, h⟩⟩
        rw [hname] at hn
        rw [hv, Option.some.inj hn]
      by_cases hne : ohash ≠ .str (hash name)
      · rw [if_pos hne]
        have hno : ¬ IsCurrent numText hash fn ohash := fun h => hne (hcur.mp h)
        cases stop with
        | true =>
            refine ⟨⟨fun h => (by cases h), fun h => ?_⟩, fun e he => ?_⟩
            · exact absurd (h.2 ⟨fn, ohash⟩ (by simp)) hno
            · rcases he with rfl | he
              · exact hfn
              · exact absurd (he.1 rfl) hno
        | false =>
            refine wp_mono (ih true) (fun b s' hb => ⟨?_, fun e he => ?_⟩) ?_
            · rw [hb.1]
              refine ⟨fun h => (by cases h.1), fun h => ?_⟩
              exact absurd (h.2 ⟨fn, ohash⟩ (by simp)) hno
            · rcases he with rfl | he
              · exact hfn
              · exact hb.2 e he.2
            · rintro _ _ ⟨e, he, hbad⟩
              exact ⟨e, by simp [he], hbad⟩
      · rw [if_neg hne]
        have hyes := hcur.mpr (not_not.mp hne)
        refine wp_mono (ih differ) (fun b s' hb => ⟨?_, fun e he => ?_⟩) ?_
        · rw [hb.1, List.forall_mem_cons]
          exact and_congr_right fun _ => ⟨fun h => ⟨hyes, h⟩, fun h => h.2⟩
        · rcases he with rfl | he
          · exact hfn
          · exact hb.2 e he.2
        · rintro _ _ ⟨e, he, hbad⟩
          exact ⟨e, by simp [he], hbad⟩

theorem Order.mem_pairs (order : Order) (s : Heap Obj) (io : Nat) (e : Entry) :
    e ∈ order.pairs s io ↔ (Heap.get s io).lookup e.1 = some e.2 := by
  rw [(order.perm s io).mem_iff]
  exact (List.mem_dlookup_iff (Heap.get s io).nodupKeys).symm

theorem Order.forall_pairs (order : Order) (s : Heap Obj) (io : Nat) :
    (∀ e ∈ order.pairs s io, IsCurrent numText hash e.1 e.2) ↔
      Current numText hash (Heap.get s io) := by
  refine ⟨fun h fn v hv => ?_, fun h e he => ?_⟩
  · exact h ⟨fn, v⟩ ((order.mem_pairs s io _).mpr hv)
  · exact h e.1 e.2 ((order.mem_pairs s io e).mp he)

theorem walked_false (he : e ∈ l) : Walked numText hash false l e := by
  induction l with
  | nil => cases he
  | cons x l ih =>
      rcases List.mem_cons.mp he with rfl | he
      · exact Or.inl rfl
      · exact Or.inr ⟨fun h => (by cases h), ih he⟩

/-- Where the loop does not stop early, or meets the bad keys first, it finds every one. -/
theorem hashable_of_walked (hbad : stop = false ∨ order.BadFirst numText)
    (hw : ∀ e, Walked numText hash stop (order.pairs s io) e → Hashable numText e.1) :
    ∀ e ∈ order.pairs s io, Hashable numText e.1 := by
  rcases hbad with rfl | hbad
  · exact fun e he => hw e (walked_false he)
  · by_contra hno
    push Not at hno
    obtain ⟨e, l, heq, hne⟩ := hbad s io hno
    exact hne (hw e (by rw [heq]; exact Or.inl rfl))

theorem updateDepsIo_decides (numText : Nat → LuaString) (hash : LuaString → LuaString)
    (order : Order) (io : Nat) (stop : Bool) (s : Heap Obj) :
    wp (updateDepsIo order numText hash io false stop)
      (fun b _ => (b = false ↔ Current numText hash (Heap.get s io)) ∧
        (stop = false ∨ order.BadFirst numText → ∀ fn ∈ Heap.get s io, Hashable numText fn))
      (fun _ _ => ∃ fn ∈ Heap.get s io, ¬ Hashable numText fn) s := by
  unfold updateDepsIo
  rw [wp_bind, wp_pairs]
  refine wp_mono (updateLoop_decides false) (fun b s' hb => ⟨?_, fun hbad fn hfn => ?_⟩) ?_
  · rw [hb.1, order.forall_pairs]
    exact and_iff_right rfl
  · obtain ⟨v, hv⟩ := Option.isSome_iff_exists.mp (AList.lookup_isSome.mpr hfn)
    exact hashable_of_walked hbad hb.2 ⟨fn, v⟩ ((order.mem_pairs s io _).mpr hv)
  · rintro _ _ ⟨e, he, hbad⟩
    refine ⟨e.1, ?_, hbad⟩
    rw [← AList.lookup_isSome, (order.mem_pairs s io e).mp he]
    rfl

theorem updateDepsIo_inv (onlynew : Bool) (I : Heap Obj → Prop)
    (hI : ∀ s k x, I s → I (s.set io ((Heap.get s io).insert k (.str x)))) (hs : I s) :
    wp (updateDepsIo order numText hash io onlynew stop) (fun _ s' => I s') (fun _ s' => I s')
      s := by
  unfold updateDepsIo
  rw [wp_bind, wp_pairs]
  exact updateLoop_inv I hI false hs

end Rehash

/-! ## The record of a command -/

section Decision

variable (numText : Nat → LuaString) (hash : LuaString → LuaString)

/-- The record holds the current hash of every file, and is not empty. -/
def UpToDate (st : Store) (cmd : Val) : Prop :=
  ∃ r i o, (Heap.get st.heap st.root).lookup cmd = some (.table r) ∧
    (Heap.get st.heap r).lookup input = some (.table i) ∧
    (Heap.get st.heap r).lookup output = some (.table o) ∧
    ¬ (Heap.get st.heap i = ∅ ∧ Heap.get st.heap o = ∅) ∧
    Current numText hash (Heap.get st.heap i) ∧ Current numText hash (Heap.get st.heap o)

/-- A record that is a table is not nested too deep, and every key that may have to be hashed is
    a file name. -/
def Tolerated (depth : Nat) (st : Store) (cmd : Val) : Prop :=
  ∀ r, (Heap.get st.heap st.root).lookup cmd = some (.table r) →
    Fits st.heap depth (.table r) ∧
    ∀ i o, (Heap.get st.heap r).lookup input = some (.table i) →
      (Heap.get st.heap r).lookup output = some (.table o) →
      ¬ (Heap.get st.heap i = ∅ ∧ Heap.get st.heap o = ∅) →
      (∀ fn ∈ Heap.get st.heap i, Hashable numText fn) ∧
      (Current numText hash (Heap.get st.heap i) → ∀ fn ∈ Heap.get st.heap o, Hashable numText fn)

/-- `check_deps` returns, changes no table, and finds out whether the record is up to date. -/
def Exact (depth : Nat) (st : Store) (cmd : Val) : Prop :=
  ∀ order : Order, ∃ deps runIt h,
    checkDeps order numText hash depth st.root cmd st.heap = .ok (deps, runIt) h ∧
    st.heap <+: h ∧ (runIt = false ↔ UpToDate numText hash st cmd)

end Decision

/-- Two tables with the same keys and the same strings as values. -/
def Alike (o o' : Obj) : Prop :=
  ∀ k, Option.Rel (fun v w => ∀ x, v = .str x ↔ w = .str x) (o.lookup k) (o'.lookup k)

section Alike

variable {numText : Nat → LuaString} {hash : LuaString → LuaString} {o o' : Obj}
  {h s : Heap Obj} {v w : Val}

theorem Alike.mem_iff (ha : Alike o o') (k : Val) : k ∈ o' ↔ k ∈ o := by
  rw [← AList.lookup_isSome, ← AList.lookup_isSome]
  have hk := ha k
  generalize o.lookup k = a at hk ⊢
  generalize o'.lookup k = b at hk ⊢
  cases hk with
  | none => exact Iff.rfl
  | some _ => exact Iff.rfl

theorem Alike.eq_empty_iff (ha : Alike o o') : o' = ∅ ↔ o = ∅ := by
  have hempty : ∀ t : Obj, t = ∅ ↔ ∀ k, k ∉ t := by
    intro t
    refine ⟨fun h k => by rw [h]; exact AList.notMem_empty k, fun h => ?_⟩
    apply AList.ext
    cases he : t.entries with
    | nil => rfl
    | cons e l =>
        refine absurd ?_ (h e.1)
        rw [AList.mem_keys]
        unfold AList.keys
        rw [he]
        simp
  rw [hempty, hempty]
  exact forall_congr' fun k => not_congr (ha.mem_iff k)

theorem Alike.current_iff (ha : Alike o o') :
    Current numText hash o' ↔ Current numText hash o := by
  have hrel : ∀ k, (∀ w, o'.lookup k = some w → IsCurrent numText hash k w) ↔
      ∀ v, o.lookup k = some v → IsCurrent numText hash k v := by
    intro k
    have hk := ha k
    generalize o.lookup k = a at hk ⊢
    generalize o'.lookup k = b at hk ⊢
    cases hk with
    | none => simp
    | @some v w hvw =>
        have heq : IsCurrent numText hash k w ↔ IsCurrent numText hash k v :=
          exists_congr fun name => and_congr_right fun _ => (hvw _).symm
        simp [heq]
  exact forall_congr' hrel

/-- The tables two levels down look alike. -/
theorem Copy.alike {r r' : Nat} (hc : ∀ n, Copy h s n (.table r) (.table r')) :
    Alike (Heap.get h r) (Heap.get s r') := by
  obtain ⟨_, ⟨⟩, hk⟩ := hc 2
  intro k
  refine rel_mono (fun v w _ _ hvw x => ?_) (hk k)
  cases v with
  | table r => obtain ⟨r₂, rfl, -⟩ := hvw; simp
  | bool b => rw [show w = _ from hvw]
  | num b => rw [show w = _ from hvw]
  | str b => rw [show w = _ from hvw]
  | func b => rw [show w = _ from hvw]

end Alike

section Fetch

variable {order : Order} {h₀ h s s' : Heap Obj} {depth d root : Nat} {cmd f : Val} {fresh : Bool}

/-- A field is assigned in a table behind `h₀`. -/
theorem keeps_rawset {r : Nat} {k v : Val} (hk : Heap.Keeps link h₀ s) (hr : h₀.length ≤ r)
    (hv : ∀ r', v = .table r' → h₀.length ≤ r' ∧ r' < s.length) :
    Heap.Keeps link h₀ (s.set r ((Heap.get s r).insert k v)) := by
  refine hk.set hr fun r' hr' => ?_
  rcases link_insert hr' with h | h
  · exact hv r' h
  · exact hk.above r r' hr h

/-- The heap after `deps[ field ] = {}`. -/
def attach (s : Heap Obj) (d : Nat) (f : Val) : Heap Obj :=
  (s ++ [∅]).set d ((Heap.get (s ++ [∅]) d).insert f (.table s.length))

@[simp] theorem wp_emptyField {Q : PUnit → Heap Obj → Prop} {E : LuaError → Heap Obj → Prop} :
    wp (emptyField d f) Q E s ↔ Q ⟨⟩ (attach s d f) := Iff.rfl

@[simp] theorem length_attach : (attach s d f).length = s.length + 1 := by
  unfold attach
  rw [List.length_set, List.length_append, List.length_singleton]

theorem get_attach (hlt : d < s.length) :
    Heap.get (attach s d f) d = (Heap.get s d).insert f (.table s.length) := by
  unfold attach
  rw [Heap.get_set_self, Heap.get_alloc_of_ne _ (Nat.ne_of_lt hlt)]
  rw [List.length_append]
  omega

theorem keeps_attach (hk : Heap.Keeps link h₀ s) (hd : h₀.length ≤ d) :
    Heap.Keeps link h₀ (attach s d f) := by
  refine keeps_rawset (hk.alloc fun r' hr' => absurd hr' (not_link_empty r')) hd ?_
  rintro _ ⟨⟩
  rw [List.length_append, List.length_singleton]
  exact ⟨hk.length_le, Nat.lt_succ_self _⟩

/-- What `check_deps` has done to a field of the record, from `s` to `s'`. -/
structure Provided (h₀ s : Heap Obj) (d : Nat) (f : Val) (missing : Bool) (s' : Heap Obj) :
    Prop where
  keeps : Heap.Keeps link h₀ s'
  lt : d < s'.length
  unchanged : missing = false → s' = s
  had : missing = false ↔ ∃ i, (Heap.get s d).lookup f = some (.table i)
  has : ∃ i, (Heap.get s' d).lookup f = some (.table i)
  others : ∀ g, g ≠ f → (Heap.get s' d).lookup g = (Heap.get s d).lookup g

theorem provide_spec (hk : Heap.Keeps link h₀ s) (hd : h₀.length ≤ d) (hlt : d < s.length) :
    wp (provide d f) (fun b s' => Provided h₀ s d f b s') (fun _ _ => False) s := by
  unfold provide
  rw [wp_bind, wp_rawget]
  cases hl : asTable ((Heap.get s d).lookup f) with
  | some i =>
      have hi := asTable_eq_some.mp hl
      exact ⟨hk, hlt, fun _ => rfl, ⟨fun _ => ⟨i, hi⟩, fun _ => rfl⟩, ⟨i, hi⟩, fun _ _ => rfl⟩
  | none =>
      rw [wp_bind, wp_emptyField]
      refine ⟨keeps_attach hk hd, ?_, fun h => (by cases h), ⟨fun h => (by cases h), ?_⟩, ?_, ?_⟩
      · rw [length_attach]
        omega
      · rintro ⟨i, hi⟩
        rw [asTable_eq_some.mpr hi] at hl
        cases hl
      · rw [get_attach hlt]
        exact ⟨s.length, AList.lookup_insert _⟩
      · intro g hg
        rw [get_attach hlt, AList.lookup_insert_ne hg]

/-- The record that `check_deps` works on: new, or a copy of the one in `h`. -/
structure Fetched (h : Heap Obj) (root : Nat) (cmd : Val) (depth d : Nat) (fresh : Bool)
    (s : Heap Obj) : Prop where
  keeps : Heap.Keeps link h s
  newer : h.length ≤ d
  lt : d < s.length
  isFresh : fresh = false ↔ ∃ r, (Heap.get h root).lookup cmd = some (.table r)
  copied : ∀ r, (Heap.get h root).lookup cmd = some (.table r) →
    Fits h depth (.table r) ∧ ∀ n, Copy h s n (.table r) (.table d)
  deeper : ∀ r, link (Heap.get s d) r → d < r ∧ r < s.length
  inj : ∀ k k' r, (Heap.get s d).lookup k = some (.table r) →
    (Heap.get s d).lookup k' = some (.table r) → k = k'

theorem fetched_copy {r : Nat} {w : Val} (hr : (Heap.get h root).lookup cmd = some (.table r))
    (hw : Copied h h depth (.table r) w s) :
    ∃ d, w = .table d ∧ Fetched h root cmd depth d false s := by
  obtain ⟨d, rfl, -⟩ := hw.copy 1
  have hd := hw.newer d rfl
  refine ⟨d, rfl, hw.keeps, Nat.le_of_eq hd.1.symm, hd.2, ⟨fun _ => ⟨r, hr⟩, fun _ => rfl⟩, ?_, ?_,
    fun k k' r' => hw.inj d k k' r' rfl⟩
  · intro r' hr'
    rw [hr] at hr'
    cases hr'
    exact ⟨hw.fits, hw.copy⟩
  · intro r' hr'
    exact ⟨hw.deeper d r' rfl hr', (hw.keeps.above d r' (Nat.le_of_eq hd.1.symm) hr').2⟩

theorem fetched_new (hr : asTable ((Heap.get h root).lookup cmd) = none) :
    Fetched h root cmd depth h.length true
      (attach (attach (h ++ [∅]) h.length input) h.length output) := by
  have hlen : (h ++ [(∅ : Obj)]).length = h.length + 1 := by
    rw [List.length_append, List.length_singleton]
  have hno : ∀ r, (Heap.get h root).lookup cmd ≠ some (.table r) := by
    intro r h'
    rw [asTable_eq_some.mpr h'] at hr
    cases hr
  have hget : Heap.get (attach (attach (h ++ [∅]) h.length input) h.length output) h.length =
      (AList.insert input (.table (h.length + 1)) (∅ : Obj)).insert output
        (.table (h.length + 2)) := by
    rw [get_attach (by rw [length_attach]; omega), get_attach (by omega), Heap.get_alloc_self,
      length_attach, hlen]
  have hinput : ∀ r, link (AList.insert input (.table (h.length + 1)) (∅ : Obj)) r →
      r = h.length + 1 := by
    intro r hr
    rcases link_insert hr with h' | h'
    · cases h'
      rfl
    · exact absurd h' (not_link_empty r)
  have hk₀ : Heap.Keeps link h (h ++ [∅]) :=
    (Heap.keeps_refl h not_link_empty).alloc fun r' hr' => absurd hr' (not_link_empty r')
  refine ⟨keeps_attach (keeps_attach hk₀ (le_refl _)) (le_refl _), le_refl _, ?_,
    ⟨fun h => (by cases h), fun ⟨r, h'⟩ => absurd h' (hno r)⟩, fun r h' => absurd h' (hno r),
    fun r hr => ?_, ?_⟩
  · rw [length_attach, length_attach]
    omega
  · rw [hget] at hr
    rw [length_attach, length_attach]
    rcases link_insert hr with h' | h'
    · cases h'
      omega
    · have h' := hinput r h'
      omega
  · rw [hget]
    refine inj_insert (inj_insert (fun k _ r hk => by cases hk) fun r _ hr =>
      not_link_empty r hr) fun r hr hr' => ?_
    cases hr
    have h' := hinput _ hr'
    omega

theorem copyRecord_spec (hclosed : Heap.Closed mentions h) :
    wp (copyRecord order depth root cmd) (fun p s => Fetched h root cmd depth p.1 p.2 s)
      (fun _ s => h <+: s ∧ ∃ r, (Heap.get h root).lookup cmd = some (.table r) ∧
        ¬ Fits h depth (.table r)) h := by
  unfold copyRecord
  rw [wp_bind, wp_rawget]
  cases hl : asTable ((Heap.get h root).lookup cmd) with
  | none =>
      rw [wp_bind, wp_newTable, wp_bind, wp_emptyField, wp_bind, wp_emptyField]
      exact fetched_new hl
  | some r =>
      have hr := asTable_eq_some.mp hl
      rw [wp_bind]
      refine wp_mono (deepCopy_spec hclosed depth (.table r) h (List.prefix_refl h) ?_)
        (fun w s hw => ?_) (fun _ s hs => ⟨hs.1, r, hr, hs.2⟩)
      · rintro _ ⟨⟩
        exact hclosed root r (Or.inl ⟨cmd, hr⟩)
      · obtain ⟨d, rfl, hd⟩ := fetched_copy hr hw
        exact hd

end Fetch

/-! ## The decision -/

section Spec

variable {numText : Nat → LuaString} {hash : LuaString → LuaString} {order : Order}
  {st : Store} {h s x : Heap Obj} {depth d r i o i' o' : Nat} {cmd f : Val}

theorem Copy.fields (hc : ∀ n, Copy h s n (.table r) (.table d)) (k : Val) :
    Option.Rel (fun v w => ∀ n, Copy h s n v w) ((Heap.get h r).lookup k)
      ((Heap.get s d).lookup k) := by
  have hrel : ∀ n, Option.Rel (Copy h s n) ((Heap.get h r).lookup k)
      ((Heap.get s d).lookup k) := by
    intro n
    obtain ⟨_, ⟨⟩, hk⟩ := hc (n + 1)
    exact hk k
  generalize (Heap.get h r).lookup k = a at hrel ⊢
  generalize (Heap.get s d).lookup k = b at hrel ⊢
  cases a with
  | none =>
      cases b with
      | none => exact Option.Rel.none
      | some w => cases hrel 0
  | some v =>
      cases b with
      | none => cases hrel 0
      | some w =>
          refine Option.Rel.some fun n => ?_
          cases hrel n with
          | some h => exact h

/-- A field of the record is a table where that of the copy is one. -/
theorem Copy.field (hc : ∀ n, Copy h s n (.table r) (.table d))
    (hi : (Heap.get s d).lookup f = some (.table i')) :
    ∃ i, (Heap.get h r).lookup f = some (.table i) ∧
      ∀ n, Copy h s n (.table i) (.table i') := by
  have hk := Copy.fields hc f
  rw [hi] at hk
  generalize (Heap.get h r).lookup f = a at hk ⊢
  cases hk with
  | @some v _ hvw =>
      cases v with
      | table i => exact ⟨i, rfl, hvw⟩
      | bool b => cases hvw 1
      | num b => cases hvw 1
      | str b => cases hvw 1
      | func b => cases hvw 1

theorem Copy.field_of_source (hc : ∀ n, Copy h s n (.table r) (.table d))
    (hi : (Heap.get h r).lookup f = some (.table i)) :
    ∃ i', (Heap.get s d).lookup f = some (.table i') := by
  have hk := Copy.fields hc f
  rw [hi] at hk
  generalize (Heap.get s d).lookup f = a at hk ⊢
  cases hk with
  | @some _ w hvw =>
      obtain ⟨i', rfl, -⟩ := hvw 1
      exact ⟨i', rfl⟩

/-- The tables of the record in the dependency table, and those of its copy `d` in `s`. -/
structure Found (st : Store) (cmd : Val) (s : Heap Obj) (d r i o i' o' : Nat) : Prop where
  record : (Heap.get st.heap st.root).lookup cmd = some (.table r)
  input : (Heap.get st.heap r).lookup input = some (.table i)
  output : (Heap.get st.heap r).lookup output = some (.table o)
  notEmpty : ¬ (Heap.get st.heap i = ∅ ∧ Heap.get st.heap o = ∅)
  inputCopy : (Heap.get s d).lookup Records.input = some (.table i')
  outputCopy : (Heap.get s d).lookup Records.output = some (.table o')
  alikeInput : Alike (Heap.get st.heap i) (Heap.get s i')
  alikeOutput : Alike (Heap.get st.heap o) (Heap.get s o')
  keeps : Heap.Keeps link st.heap s
  newer : st.heap.length ≤ i' ∧ st.heap.length ≤ o'
  apart : d ≠ i' ∧ o' ≠ i'

/-- There is only one such record. -/
theorem Found.eq (hf : Found st cmd s d r i o i' o') {r₁ : Nat}
    (hr : (Heap.get st.heap st.root).lookup cmd = some (.table r₁)) :
    r = r₁ ∧ ∀ i₁ o₁, (Heap.get st.heap r).lookup Records.input = some (.table i₁) →
      (Heap.get st.heap r).lookup Records.output = some (.table o₁) → i = i₁ ∧ o = o₁ := by
  rw [hf.record] at hr
  refine ⟨Val.table.inj (Option.some.inj hr), fun i₁ o₁ hi ho => ?_⟩
  rw [hf.input] at hi
  rw [hf.output] at ho
  exact ⟨Val.table.inj (Option.some.inj hi), Val.table.inj (Option.some.inj ho)⟩

theorem Found.upToDate_iff (hf : Found st cmd s d r i o i' o') :
    UpToDate numText hash st cmd ↔ Current numText hash (Heap.get s i') ∧
      Current numText hash (Heap.get s o') := by
  rw [hf.alikeInput.current_iff, hf.alikeOutput.current_iff]
  constructor
  · rintro ⟨r₁, i₁, o₁, hr, hi, ho, -, h⟩
    obtain ⟨rfl, hio⟩ := hf.eq hr
    obtain ⟨rfl, rfl⟩ := hio i₁ o₁ hi ho
    exact h
  · exact fun h => ⟨r, i, o, hf.record, hf.input, hf.output, hf.notEmpty, h.1, h.2⟩

theorem Found.tolerated_iff (hf : Found st cmd s d r i o i' o')
    (hfits : Fits st.heap depth (.table r)) :
    Tolerated numText hash depth st cmd ↔ (∀ fn ∈ Heap.get s i', Hashable numText fn) ∧
      (Current numText hash (Heap.get s i') →
        ∀ fn ∈ Heap.get s o', Hashable numText fn) := by
  have hin : (∀ fn ∈ Heap.get s i', Hashable numText fn) ↔
      ∀ fn ∈ Heap.get st.heap i, Hashable numText fn :=
    forall_congr' fun fn => by rw [hf.alikeInput.mem_iff]
  have hout : (∀ fn ∈ Heap.get s o', Hashable numText fn) ↔
      ∀ fn ∈ Heap.get st.heap o, Hashable numText fn :=
    forall_congr' fun fn => by rw [hf.alikeOutput.mem_iff]
  rw [hin, hout, hf.alikeInput.current_iff]
  constructor
  · exact fun h => (h r hf.record).2 i o hf.input hf.output hf.notEmpty
  · intro h r₁ hr
    obtain ⟨rfl, hio⟩ := hf.eq hr
    refine ⟨hfits, fun i₁ o₁ hi ho _ => ?_⟩
    obtain ⟨rfl, rfl⟩ := hio i₁ o₁ hi ho
    exact h

theorem differs_spec (hf : Found st cmd s d r i o i' o') (hfits : Fits st.heap depth (.table r)) :
    wp (differs order numText hash d)
      (fun b s' => st.heap <+: s' ∧ (b = false ↔ UpToDate numText hash st cmd) ∧
        (order.BadFirst numText → Tolerated numText hash depth st cmd))
      (fun _ s' => st.heap <+: s' ∧ ¬ Tolerated numText hash depth st cmd) s := by
  rw [hf.upToDate_iff, hf.tolerated_iff hfits]
  unfold differs
  rw [wp_bind, wp_rawget, hf.inputCopy, wp_bind, wp_toTable, wp_bind]
  -- the first pass writes to the copy of the input table only
  have hfirst := wp_and (updateDepsIo_decides numText hash order i' false s)
    (updateDepsIo_inv false
      (fun x => Heap.Keeps link st.heap x ∧ ∀ r, r ≠ i' → Heap.get x r = Heap.get s r)
      (fun x k a hx => ⟨keeps_rawset hx.1 hf.newer.1 (by simp), fun r hr => by
        rw [Heap.get_set_of_ne _ hr, hx.2 r hr]⟩)
      ⟨hf.keeps, fun _ _ => rfl⟩)
  refine wp_mono hfirst ?_ ?_
  · rintro b x ⟨⟨hb, hkeys⟩, hx, hsame⟩
    cases b with
    | true =>
        rw [if_pos rfl, wp_pure]
        refine ⟨hx.isPrefix, ⟨fun h => (by cases h), fun h => hb.mpr h.1⟩, fun _ => ?_⟩
        exact ⟨hkeys (Or.inl rfl), fun hc => absurd (hb.mpr hc) (by decide)⟩
    | false =>
        have hcur := hb.mp rfl
        rw [if_neg (by decide), wp_bind, wp_rawget, hsame d hf.apart.1, hf.outputCopy, wp_bind,
          wp_toTable]
        have hsecond := wp_and (updateDepsIo_decides numText hash order o' true x)
          (updateDepsIo_inv false (Heap.Keeps link st.heap)
            (fun x k a hx => keeps_rawset hx hf.newer.2 (by simp)) hx)
        rw [hsame o' hf.apart.2] at hsecond
        refine wp_mono hsecond ?_ ?_
        · rintro b x' ⟨⟨hb', hkeys'⟩, hx'⟩
          refine ⟨hx'.isPrefix, ?_, fun hbad => ⟨hkeys (Or.inl rfl), fun _ => ?_⟩⟩
          · rw [hb']
            exact ⟨fun h => ⟨hcur, h⟩, fun h => h.2⟩
          · exact hkeys' (Or.inr hbad)
        · rintro _ x' ⟨⟨fn, hfn, hbad⟩, hx'⟩
          exact ⟨hx'.isPrefix, fun h => hbad (h.2 hcur fn hfn)⟩
  · rintro _ x ⟨⟨fn, hfn, hbad⟩, hx, -⟩
    exact ⟨hx.isPrefix, fun h => hbad (h.1 fn hfn)⟩

/-- The record that `check_deps` goes on to compare. -/
def Held (st : Store) (cmd : Val) : Prop :=
  ∃ r i o, (Heap.get st.heap st.root).lookup cmd = some (.table r) ∧
    (Heap.get st.heap r).lookup input = some (.table i) ∧
    (Heap.get st.heap r).lookup output = some (.table o) ∧
    ¬ (Heap.get st.heap i = ∅ ∧ Heap.get st.heap o = ∅)

theorem held_of_upToDate (h : UpToDate numText hash st cmd) : Held st cmd := by
  obtain ⟨r, i, o, hr, hi, ho, hne, -⟩ := h
  exact ⟨r, i, o, hr, hi, ho, hne⟩

theorem tolerated_of_not_held (hno : ¬ Held st cmd)
    (hfits : ∀ r, (Heap.get st.heap st.root).lookup cmd = some (.table r) →
      Fits st.heap depth (.table r)) :
    Tolerated numText hash depth st cmd :=
  fun r hr => ⟨hfits r hr, fun i o hi ho hne => absurd ⟨r, i, o, hr, hi, ho, hne⟩ hno⟩

theorem isEmpty_eq_true (o : Obj) : o.entries.isEmpty = true ↔ o = ∅ := by
  rw [List.isEmpty_iff]
  exact ⟨fun h => AList.ext h, fun h => by rw [h]; rfl⟩

theorem Fetched.found (hF : Fetched st.heap st.root cmd depth d false s)
    (hi : (Heap.get s d).lookup input = some (.table i'))
    (ho : (Heap.get s d).lookup output = some (.table o'))
    (hne : ¬ (Heap.get s i' = ∅ ∧ Heap.get s o' = ∅)) :
    ∃ r i o, Found st cmd s d r i o i' o' ∧ Fits st.heap depth (.table r) := by
  obtain ⟨r, hr⟩ := hF.isFresh.mp rfl
  obtain ⟨hfits, hc⟩ := hF.copied r hr
  obtain ⟨i, hi₀, hci⟩ := Copy.field hc hi
  obtain ⟨o, ho₀, hco⟩ := Copy.field hc ho
  have hli := hF.deeper i' ⟨input, hi⟩
  have hlo := hF.deeper o' ⟨output, ho⟩
  have hn := hF.newer
  refine ⟨r, i, o, ⟨hr, hi₀, ho₀, ?_, hi, ho, Copy.alike hci, Copy.alike hco, hF.keeps, by omega,
    by omega, fun h => ?_⟩, hfits⟩
  · rwa [← (Copy.alike hci).eq_empty_iff, ← (Copy.alike hco).eq_empty_iff]
  · rw [h] at ho
    exact absurd (hF.inj _ _ _ hi ho) (by decide)

/-- A record whose fields are tables, in the dependency table, is found in the copy. -/
theorem Fetched.of_held {fresh : Bool} (hF : Fetched st.heap st.root cmd depth d fresh s)
    (hh : Held st cmd) : fresh = false ∧
      ∃ i' o', (Heap.get s d).lookup input = some (.table i') ∧
        (Heap.get s d).lookup output = some (.table o') ∧
        ¬ (Heap.get s i' = ∅ ∧ Heap.get s o' = ∅) := by
  obtain ⟨r, i, o, hr, hi, ho, hne⟩ := hh
  obtain ⟨-, hc⟩ := hF.copied r hr
  obtain ⟨i', hi'⟩ := Copy.field_of_source hc hi
  obtain ⟨o', ho'⟩ := Copy.field_of_source hc ho
  refine ⟨hF.isFresh.mpr ⟨r, hr⟩, i', o', hi', ho', ?_⟩
  obtain ⟨i₁, hi₁, hci⟩ := Copy.field hc hi'
  obtain ⟨o₁, ho₁, hco⟩ := Copy.field hc ho'
  rw [hi] at hi₁
  rw [ho] at ho₁
  cases hi₁
  cases ho₁
  rwa [(Copy.alike hci).eq_empty_iff, (Copy.alike hco).eq_empty_iff]

/-- The three ways of `check_deps`: the record cannot be copied, it has to be rebuilt anyway, or
    its tables are found and compared. -/
theorem wp_checkDeps {Q : Nat × Bool → Heap Obj → Prop} {E : LuaError → Heap Obj → Prop}
    (hdeep : ∀ e s r, st.heap <+: s → (Heap.get st.heap st.root).lookup cmd = some (.table r) →
      ¬ Fits st.heap depth (.table r) → E e s)
    (hquick : ∀ d s, Heap.Keeps link st.heap s → st.heap.length ≤ d → d < s.length →
      ¬ Held st cmd → (∀ r, (Heap.get st.heap st.root).lookup cmd = some (.table r) →
        Fits st.heap depth (.table r)) → Q (d, true) s)
    (hfound : ∀ d s r i o i' o', st.heap.length ≤ d → d < s.length →
      Found st cmd s d r i o i' o' → Fits st.heap depth (.table r) →
      wp (differs order numText hash d) (fun b => Q (d, b)) E s) :
    wp (checkDeps order numText hash depth st.root cmd) Q E st.heap := by
  unfold checkDeps
  rw [wp_bind]
  refine wp_mono (copyRecord_spec st.closed) ?_ fun e s ⟨hs, r, hr, hfits⟩ => hdeep e s r hs hr hfits
  rintro ⟨d, fresh⟩ s hF
  dsimp only at hF ⊢
  rw [wp_bind]
  refine wp_mono (provide_spec hF.keeps hF.newer hF.lt) (fun noInput s₁ hi => ?_)
    fun _ _ h => h.elim
  rw [wp_bind]
  refine wp_mono (provide_spec hi.keeps hF.newer hi.lt) (fun noOutput s₂ ho => ?_)
    fun _ _ h => h.elim
  obtain ⟨i', hi'⟩ := hi.has
  obtain ⟨o', ho'⟩ := ho.has
  have hin : (Heap.get s₂ d).lookup input = some (.table i') := by
    rw [ho.others input (by decide), hi']
  unfold bothEmpty
  simp only [wp_bind, wp_rawget, hin, ho', wp_toTable, wp_isEmpty, wp_pure]
  by_cases hrun : (fresh || noInput || noOutput ||
      ((Heap.get s₂ i').entries.isEmpty && (Heap.get s₂ o').entries.isEmpty)) = true
  · rw [if_pos hrun, wp_pure]
    refine hquick d s₂ ho.keeps hF.newer ho.lt (fun hh => ?_) fun r hr => (hF.copied r hr).1
    obtain ⟨rfl, i₁, o₁, hi₁, ho₁, hne⟩ := hF.of_held hh
    obtain rfl := hi.had.mpr ⟨i₁, hi₁⟩
    obtain rfl := hi.unchanged rfl
    obtain rfl := ho.had.mpr ⟨o₁, ho₁⟩
    obtain rfl := ho.unchanged rfl
    rw [hi₁] at hin
    rw [ho₁] at ho'
    cases hin
    cases ho'
    rw [Bool.false_or, Bool.false_or, Bool.false_or, Bool.and_eq_true, isEmpty_eq_true,
      isEmpty_eq_true] at hrun
    exact hne hrun
  · rw [if_neg hrun]
    rw [Bool.not_eq_true, Bool.or_eq_false_iff, Bool.or_eq_false_iff,
      Bool.or_eq_false_iff] at hrun
    obtain ⟨⟨⟨rfl, rfl⟩, rfl⟩, hne⟩ := hrun
    obtain rfl := hi.unchanged rfl
    obtain rfl := ho.unchanged rfl
    obtain ⟨r, i, o, hf, hfits⟩ := hF.found hin ho' fun h => by
      rw [(isEmpty_eq_true _).mpr h.1, (isEmpty_eq_true _).mpr h.2] at hne
      cases hne
    rw [wp_bind]
    exact hfound d s₂ r i o i' o' hF.newer ho.lt hf hfits

theorem checkDeps_spec (numText : Nat → LuaString) (hash : LuaString → LuaString) (depth : Nat)
    (st : Store) (cmd : Val) (order : Order) :
    wp (checkDeps order numText hash depth st.root cmd)
      (fun p s' => st.heap <+: s' ∧ (p.2 = false ↔ UpToDate numText hash st cmd) ∧
        (order.BadFirst numText → Tolerated numText hash depth st cmd))
      (fun _ s' => st.heap <+: s' ∧ ¬ Tolerated numText hash depth st cmd) st.heap := by
  refine wp_checkDeps (fun _ s r hs hr hfits => ?_) (fun d s hk _ _ hno hfits => ?_)
    fun d s r i o i' o' _ _ hf hfits => differs_spec hf hfits
  · exact ⟨hs, fun h => hfits (h r hr).1⟩
  · refine ⟨hk.isPrefix, ⟨fun h => (by cases h), fun h => ?_⟩, fun _ => ?_⟩
    · exact absurd (held_of_upToDate h) hno
    · exact tolerated_of_not_held hno hfits

/-- A way to walk the tables that meets the bad keys first. -/
def badFirst (numText : Nat → LuaString) : Order where
  pairs h r :=
    (Heap.get h r).entries.filter (fun e => (fileName numText e.1).isNone) ++
      (Heap.get h r).entries.filter (fun e => !(fileName numText e.1).isNone)
  perm _ _ := List.filter_append_perm _ _

theorem not_hashable_iff (fn : Val) : ¬ Hashable numText fn ↔ (fileName numText fn).isNone := by
  unfold Hashable
  cases fileName numText fn with
  | none => simp
  | some name => simp

theorem badFirst_badFirst (numText : Nat → LuaString) : (badFirst numText).BadFirst numText := by
  rintro h r ⟨e, he, hbad⟩
  rw [not_hashable_iff] at hbad
  have hmem : e ∈ (Heap.get h r).entries.filter fun e => (fileName numText e.1).isNone := by
    rw [List.mem_filter]
    exact ⟨((badFirst numText).perm h r).mem_iff.mp he, hbad⟩
  obtain ⟨e', l, hl⟩ := List.exists_cons_of_ne_nil (List.ne_nil_of_mem hmem)
  refine ⟨e', l ++ (Heap.get h r).entries.filter fun e => !(fileName numText e.1).isNone, ?_, ?_⟩
  · change List.filter _ _ ++ _ = _
    rw [hl]
    rfl
  · rw [not_hashable_iff]
    have he' : e' ∈ (Heap.get h r).entries.filter fun e => (fileName numText e.1).isNone := by
      rw [hl]
      exact List.mem_cons_self
    exact (List.mem_filter.mp he').2

end Spec

/-- `check_deps` does what it should exactly where it can copy the record and has to hash nothing
    but file names. -/
theorem exact_iff (numText : Nat → LuaString) (hash : LuaString → LuaString) (depth : Nat)
    (st : Store) (cmd : Val) :
    Exact numText hash depth st cmd ↔ Tolerated numText hash depth st cmd := by
  constructor
  · intro h
    obtain ⟨deps, runIt, s, hok, -⟩ := h (badFirst numText)
    have hspec := of_wp_ok (checkDeps_spec numText hash depth st cmd (badFirst numText)) hok
    exact hspec.2.2 (badFirst_badFirst numText)
  · intro h order
    obtain ⟨⟨deps, runIt⟩, s, hok, hs⟩ := exists_of_wp
      (checkDeps_spec numText hash depth st cmd order) fun _ _ h' => h'.2 h
    exact ⟨deps, runIt, s, hok, hs.1, hs.2.1⟩

/-- `{ ["cc a.c"] = { input = { [true] = true }, output = {} } }` -/
def junkKey : Store where
  heap := [AList.singleton (.str "cc a.c".toList) (.table 1),
    (AList.singleton input (.table 2)).insert output (.table 3),
    AList.singleton (.bool true) (.bool true), ∅]
  root := 0
  root_lt := by decide
  closed := closed_of_check (by decide)

/-- The order in which the entries are written down. -/
def asStored : Order := ⟨fun h r => (Heap.get h r).entries, fun _ _ => List.Perm.refl _⟩

theorem boolean_key_raises :
    ¬ Exact (fun _ => []) (fun _ => "digest".toList) 200 junkKey (.str "cc a.c".toList) := by
  intro h
  obtain ⟨deps, runIt, s, hok, -⟩ := h asStored
  have herr : ∃ e s', checkDeps asStored (fun _ => []) (fun _ => "digest".toList) 200 junkKey.root
      (.str "cc a.c".toList) junkKey.heap = .error e s' := ⟨_, _, rfl⟩
  obtain ⟨e, s', he⟩ := herr
  rw [he] at hok
  cases hok

end Buildsh.Records
