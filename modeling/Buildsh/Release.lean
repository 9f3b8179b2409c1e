/-
  `preload.c`: who frees the clone of an environment, and what.

  `free_env` frees the strings at the positions that are not -1, and then the array. Calls of
  `malloc` are numbered, the array being number 0, so what has been allocated is the list of the
  numbers whose call succeeded. `Owned` is the invariant of `clone_env`: the strings at the
  positions are what has been allocated besides the array. Every variable is put into a slot
  behind all earlier ones (`Owned.put`), so a handler does not disturb it.

  But a clone that is returned ends one slot behind its block, and what stands there is the
  allocator's unless it has left room (`spare`). `failedExec_releasedOnce_iff`: only a clone that
  is not finished is released as it should be.
-/
import Buildsh.Clone

namespace Buildsh.Release
open Buildsh.Clone
open scoped List

/-! ## `free_env` -/

/-- What `free` gets to free in a slot. `none` is what an unassigned slot happens to hold. -/
def freeSlot : Slot → List (Option Origin)
  | .unassigned => [none]
  | .null => []
  | .ptr p => [some p.origin]

/-- `if( pos != (size_t)-1 ) free( env[ pos ] );` -/
def freeAt (m : Memory) : Option Nat → List (Option Origin)
  | none => []
  | some i => freeSlot (m.slots i)

/-- `free_env`, for an array that is not `NULL`: the origins of what is freed, in this order. -/
def freeEnv (m : Memory) (pos : Positions) : List (Option Origin) :=
  freeAt m pos.ldp ++ freeAt m pos.dil ++ freeAt m pos.dffns ++ freeAt m pos.lmtf ++
    freeAt m pos.lmpl ++ [some (.heap 0)]

/-- The blocks that the first `n` calls of `malloc` have allocated. -/
def allocated (c : Caller) (n : Nat) : List (Option Origin) :=
  ((List.range n).filter c.malloc).map fun k => some (.heap k)

/-! ## The wrappers -/

/-- How a wrapper ends that does not execute the program. -/
inductive Failed where
  /-- `getenv` has not found the library -/
  | aborted
  /-- `free` is called when the data of the allocator has been overwritten -/
  | corrupted
  /-- what has been freed, of what has been allocated -/
  | returned (freed owned : List (Option Origin))

/-- `free_env` after what has been written. Behind a block of `k` slots are `spare k` slots that
    belong to nobody. -/
def release (spare : Nat → Nat) (c : Caller) (m : Memory) (pos : Positions) : Failed :=
  if ∀ i ∈ m.written, i < m.size + spare m.size then
    .returned (freeEnv m pos) (allocated c m.mallocs)
  else .corrupted

/-- `clone_env`, whose error path calls `free_env`, and a failed exec, after which the wrapper
    calls it. The wrapper's call for a `NULL` from `clone_env` does nothing. -/
def failedExec (spare : Nat → Nat) (c : Caller) (env : List CString) : Failed :=
  match cloneEnv c env with
  | .aborted _ => .aborted
  | .failed none _ => .returned [] (allocated c 1)
  | .failed (some m) pos => release spare c m pos
  | .returned m pos => release spare c m pos

/-- Everything that has been allocated is freed once, and nothing else is freed. -/
def Failed.ReleasedOnce : Failed → Prop
  | .aborted => True
  | .corrupted => False
  | .returned freed owned => freed.Perm owned ∧ freed.Nodup

/-! ## What the positions own -/

theorem allocated_succ (c : Caller) (n : Nat) : allocated c (n + 1) =
    allocated c n ++ if c.malloc n then [some (.heap n)] else [] := by
  unfold allocated
  rw [List.range_succ, List.filter_append, List.map_append]
  cases h : c.malloc n <;> simp [h]

theorem nodup_allocated (c : Caller) (n : Nat) : (allocated c n).Nodup := by
  refine (List.nodup_range.filter _).map fun a b hab => ?_
  exact Origin.heap.inj (Option.some.inj hab)

def positions (pos : Positions) : List (Option Nat) :=
  [pos.ldp, pos.dil, pos.dffns, pos.lmtf, pos.lmpl]

theorem freeEnv_eq (m : Memory) (pos : Positions) :
    freeEnv m pos = (positions pos).flatMap (freeAt m) ++ [some (.heap 0)] := by
  simp [freeEnv, positions]

/-- `free_env` would free what has been allocated, and no position is behind slot `n`. -/
structure Owned (c : Caller) (s : CloneState) : Prop where
  freed : (freeEnv s.m s.pos).Perm (allocated c s.m.mallocs)
  inside : ∀ i, some i ∈ positions s.pos → i ≤ s.n

/-- A handler has put a string into slot `i`. What it leaves as the position leads to what it has
    allocated. -/
structure Adds (c : Caller) (m : Memory) (i : Nat) (m' : Memory) (p : Option Nat) : Prop where
  others : ∀ j, j ≠ i → m'.slots j = m.slots j
  pos : ∀ j, p = some j → j = i
  freed : allocated c m'.mallocs = allocated c m.mallocs ++ freeAt m' p

section Handlers

variable (c : Caller) (m : Memory) (i : Nat)

theorem adds_reuse (p : Pointer) : Adds c m i (reuse m i p).1 none := by
  refine ⟨fun j hj => Function.update_of_ne hj _ _, fun j hj => (by cases hj), ?_⟩
  exact (List.append_nil _).symm

theorem adds_store (b : Block) : Adds c m i (store i (c.alloc m b)).1 (some i) := by
  refine ⟨fun j hj => Function.update_of_ne hj _ _, fun j hj => (Option.some.inj hj).symm, ?_⟩
  have hslot : (store i (c.alloc m b)).1.slots i = (c.alloc m b).1 := Function.update_self ..
  have hmallocs : (store i (c.alloc m b)).1.mallocs = m.mallocs + 1 := rfl
  rw [hmallocs, allocated_succ, freeAt, hslot]
  unfold Caller.alloc
  cases c.malloc m.mallocs <;> rfl

/-- With no old value, `handle_lmtf` takes the static default or allocates. -/
theorem adds_handleLmtf {m' : Memory} {p : Option Nat} {ok : Bool}
    (h : handleLmtf c m none i = (m', p, ok)) : Adds c m i m' p := by
  unfold handleLmtf at h
  cases hf : c.tempfile with
  | none =>
      rw [hf] at h
      cases h
      exact adds_reuse c m i _
  | some fname =>
      rw [hf] at h
      cases h
      exact adds_store c m i _

theorem adds_handleLmpl {m' : Memory} {p : Option Nat} {ok : Bool}
    (h : handleLmpl c m none i = some (m', p, ok)) : Adds c m i m' p := by
  unfold handleLmpl at h
  cases hf : c.preload with
  | none =>
      rw [hf] at h
      cases h
  | some fname =>
      rw [hf] at h
      cases h
      exact adds_store c m i _

theorem adds_handleLdp {name : List Char} {m' : Memory} {p : Option Nat} {ok : Bool}
    (h : handleLdp c m none i name = some (m', p, ok)) : Adds c m i m' p := by
  unfold handleLdp at h
  cases hf : c.preload with
  | none =>
      rw [hf] at h
      cases h
  | some fname =>
      rw [hf] at h
      cases h
      exact adds_store c m i _

end Handlers

/-! ## `clone_env` -/

/-- The error path leaves nothing allocated, and a step that succeeds keeps the invariant. -/
def Sound (c : Caller) (P : Positions → Prop) : Except Cloned CloneState → Prop
  | .ok s => Owned c s ∧ P s.pos
  | .error (.aborted _) => True
  | .error (.failed none _) => allocated c 1 = []
  | .error (.failed (some m) pos) | .error (.returned m pos) =>
      (freeEnv m pos).Perm (allocated c m.mallocs)

section Steps

variable {c : Caller} {s : CloneState} {rest : List (Option Nat)}

theorem Sound.bind {P Q : Positions → Prop} {x : Except Cloned CloneState}
    {f : CloneState → Except Cloned CloneState} (hx : Sound c P x)
    (hf : ∀ s, Owned c s → P s.pos → Sound c Q (f s)) : Sound c Q (x.bind f) := by
  cases x with
  | ok s => exact hf s hx.1 hx.2
  | error r =>
      cases r with
      | aborted m => trivial
      | failed m pos => cases m <;> exact hx
      | returned m pos => exact hx

/-- What lies at positions up to `n` is freed all the same if only later slots are written to. -/
theorem flatMap_freeAt {l : List (Option Nat)} {n : Nat} {m m' : Memory}
    (hinside : ∀ i, some i ∈ l → i ≤ n) (hslots : ∀ i, i ≤ n → m'.slots i = m.slots i) :
    l.flatMap (freeAt m') = l.flatMap (freeAt m) := by
  refine List.flatMap_congr fun q hq => ?_
  cases q with
  | none => rfl
  | some j => rw [freeAt, freeAt, hslots j (hinside j hq)]

/-- A string in a new slot: the positions that are set already own what they did. -/
theorem Owned.freed_add (ho : Owned c s) {m' : Memory} {p : Option Nat} {pos' : Positions}
    (hold : (positions s.pos).Perm (none :: rest)) (hnew : (positions pos').Perm (p :: rest))
    (hadd : Adds c s.m (s.n + 1) m' p) : (freeEnv m' pos').Perm (allocated c m'.mallocs) := by
  have hrest : rest.flatMap (freeAt m') = rest.flatMap (freeAt s.m) :=
    flatMap_freeAt (fun j hj => ho.inside j (hold.mem_iff.mpr (List.mem_cons_of_mem _ hj)))
      fun j hj => hadd.others j (by omega)
  have hkept : rest.flatMap (freeAt s.m) ~ (positions s.pos).flatMap (freeAt s.m) :=
    (hold.flatMap_right (freeAt s.m)).symm
  have hfreed := ho.freed
  rw [freeEnv_eq] at hfreed ⊢
  rw [hadd.freed]
  calc (positions pos').flatMap (freeAt m') ++ [some (.heap 0)]
      ~ (freeAt m' p ++ rest.flatMap (freeAt m')) ++ [some (.heap 0)] :=
        (hnew.flatMap_right _).append_right _
    _ = freeAt m' p ++ (rest.flatMap (freeAt s.m) ++ [some (.heap 0)]) := by
        rw [hrest, List.append_assoc]
    _ ~ freeAt m' p ++ ((positions s.pos).flatMap (freeAt s.m) ++ [some (.heap 0)]) :=
        (hkept.append_right _).append_left _
    _ ~ freeAt m' p ++ allocated c s.m.mallocs := hfreed.append_left _
    _ ~ allocated c s.m.mallocs ++ freeAt m' p := List.perm_append_comm

theorem Owned.put (ho : Owned c s) {h : Option Handled} {setPos : Option Nat → Positions}
    {P : Positions → Prop} (hold : (positions s.pos).Perm (none :: rest))
    (hnew : ∀ p, (positions (setPos p)).Perm (p :: rest)) (hP : ∀ p, P (setPos p))
    (hadd : ∀ m' p ok, h = some (m', p, ok) → Adds c s.m (s.n + 1) m' p) :
    Sound c P (continueWith s.m (s.n + 1) h setPos) := by
  cases h with
  | none => trivial
  | some r =>
      obtain ⟨m', p, ok⟩ := r
      have ha := hadd m' p ok rfl
      have hfreed := ho.freed_add hold (hnew p) ha
      cases ok with
      | false => exact hfreed
      | true =>
          refine ⟨⟨hfreed, fun j hj => ?_⟩, hP p⟩
          rcases List.mem_cons.mp ((hnew p).mem_iff.mp hj) with hp | hmem
          · rw [ha.pos j hp.symm]
          · have hle := ho.inside j (hold.mem_iff.mpr (List.mem_cons_of_mem _ hmem))
            exact Nat.le_succ_of_le hle

end Steps

section Run

variable {c : Caller} {env : List CString} {s : CloneState}

theorem mallocs_copyLoop (pos : Positions) (env : List CString) (i : Nat) (m : Memory) :
    (copyLoop pos env i m).mallocs = m.mallocs := by
  induction env generalizing i m with
  | nil => rfl
  | cons s env ih => rw [copyLoop, ih]; rfl

/-- The copies are strings of the caller, and no position is set. -/
theorem sound_startClone (c : Caller) (env : List CString) :
    Sound c (fun pos => pos = ⟨none, none, none, none, none⟩) (startClone c env) := by
  unfold startClone
  rw [scanEnv_eq]
  dsimp only
  cases h : c.malloc 0 with
  | false =>
      rw [if_neg (by decide)]
      show allocated c 1 = []
      simp [allocated, h]
  | true =>
      rw [if_pos rfl]
      refine ⟨⟨?_, fun i hi => by simp [positions] at hi⟩, rfl⟩
      rw [freeEnv_eq, mallocs_copyLoop]
      have halloc : allocated c 1 = [some (.heap 0)] := by simp [allocated, h]
      rw [halloc]
      exact List.Perm.refl _

theorem sound_putDffns (ho : Owned c s) (h : s.pos.dffns = none) :
    Owned c (putDffns env s) ∧ (putDffns env s).pos = s.pos := by
  have hadd := adds_reuse c s.m (s.n + 1) ⟨.static, dffnsDefault.block⟩
  have hold : positions s.pos ~ none :: [s.pos.ldp, s.pos.dil, s.pos.lmtf, s.pos.lmpl] := by
    rw [positions, h]
    exact @List.perm_middle _ none [s.pos.ldp, s.pos.dil] [s.pos.lmtf, s.pos.lmpl]
  have hput : putDffns env s =
      ⟨(reuse s.m (s.n + 1) ⟨.static, dffnsDefault.block⟩).1, s.n + 1, s.pos⟩ := by
    obtain ⟨m, n, ⟨ldp, dil, dffns, lmtf, lmpl⟩⟩ := s
    obtain rfl : dffns = none := h
    rfl
  rw [hput]
  exact ⟨⟨ho.freed_add hold hold hadd, fun i hi => Nat.le_succ_of_le (ho.inside i hi)⟩, rfl⟩

/-- A variable that has not been found is added behind slot `n`. -/
theorem sound_putLmtf (ho : Owned c s) (h : s.pos.lmtf = none) {P : Positions → Prop}
    (hP : ∀ p, P { s.pos with lmtf := p }) : Sound c P (putLmtf c env s) := by
  obtain ⟨m, n, ⟨ldp, dil, dffns, lmtf, lmpl⟩⟩ := s
  obtain rfl : lmtf = none := h
  have hperm : ∀ p, [ldp, dil, dffns, p, lmpl] ~ p :: [ldp, dil, dffns, lmpl] := fun p =>
    @List.perm_middle _ p [ldp, dil, dffns] [lmpl]
  exact ho.put (hperm none) hperm hP fun m' p ok hh =>
    adds_handleLmtf c m (n + 1) (Option.some.inj hh)

theorem sound_putLmpl (ho : Owned c s) (h : s.pos.lmpl = none) {P : Positions → Prop}
    (hP : ∀ p, P { s.pos with lmpl := p }) : Sound c P (putLmpl c env s) := by
  obtain ⟨m, n, ⟨ldp, dil, dffns, lmtf, lmpl⟩⟩ := s
  obtain rfl : lmpl = none := h
  have hperm : ∀ p, [ldp, dil, dffns, lmtf, p] ~ p :: [ldp, dil, dffns, lmtf] := fun p =>
    @List.perm_middle _ p [ldp, dil, dffns, lmtf] []
  exact ho.put (hperm none) hperm hP fun m' p ok hh => adds_handleLmpl c m (n + 1) hh

theorem sound_putLdp (ho : Owned c s) (h : s.pos.ldp = none) {P : Positions → Prop}
    (hP : ∀ p, P { s.pos with ldp := p }) : Sound c P (putLdp c env s) := by
  obtain ⟨m, n, ⟨ldp, dil, dffns, lmtf, lmpl⟩⟩ := s
  obtain rfl : ldp = none := h
  exact ho.put (List.Perm.refl _) (fun p => List.Perm.refl _) hP fun m' p ok hh =>
    adds_handleLdp c m (n + 1) hh

theorem sound_putDil (ho : Owned c s) (h : s.pos.dil = none) {P : Positions → Prop}
    (hP : ∀ p, P { s.pos with dil := p }) : Sound c P (putDil c env s) := by
  obtain ⟨m, n, ⟨ldp, dil, dffns, lmtf, lmpl⟩⟩ := s
  obtain rfl : dil = none := h
  have hperm : ∀ p, [ldp, p, dffns, lmtf, lmpl] ~ p :: [ldp, dffns, lmtf, lmpl] := fun p =>
    @List.perm_middle _ p [ldp] [dffns, lmtf, lmpl]
  exact ho.put (hperm none) hperm hP fun m' p ok hh => adds_handleLdp c m (n + 1) hh

/-- The five variables, one after the other. -/
theorem sound_steps (c : Caller) (env : List CString) :
    Sound c (fun _ => True) ((startClone c env).bind fun s =>
      (putLmtf c env (putDffns env s)).bind fun s =>
        (putLmpl c env s).bind fun s => (putLdp c env s).bind fun s => putDil c env s) := by
  refine (sound_startClone c env).bind fun s hs hpos => ?_
  obtain ⟨hs₁, hpos₁⟩ := @sound_putDffns c env s hs (by rw [hpos])
  have hall := hpos₁.trans hpos
  have hlmtf : Sound c (fun pos => pos.lmpl = none ∧ pos.ldp = none ∧ pos.dil = none)
      (putLmtf c env (putDffns env s)) :=
    sound_putLmtf hs₁ (by rw [hall]) fun p => by
      rw [hall]
      exact ⟨rfl, rfl, rfl⟩
  refine hlmtf.bind fun s hs hpos => ?_
  have hlmpl : Sound c (fun pos => pos.ldp = none ∧ pos.dil = none) (putLmpl c env s) :=
    sound_putLmpl hs hpos.1 fun p => hpos.2
  refine hlmpl.bind fun s hs hpos => ?_
  have hldp : Sound c (fun pos => pos.dil = none) (putLdp c env s) :=
    sound_putLdp hs hpos.1 fun p => hpos.2
  exact hldp.bind fun s hs hpos => sound_putDil hs hpos fun _ => trivial

/-- The terminator is written behind all positions. -/
theorem Owned.terminate (ho : Owned c s) :
    (freeEnv (s.m.set (s.n + 1) .null) s.pos).Perm
      (allocated c (s.m.set (s.n + 1) .null).mallocs) := by
  have hsame : (positions s.pos).flatMap (freeAt (s.m.set (s.n + 1) .null)) =
      (positions s.pos).flatMap (freeAt s.m) :=
    flatMap_freeAt ho.inside fun j hj => slots_set_of_ne s.m (by omega) _
  have hfreed := ho.freed
  rw [freeEnv_eq] at hfreed ⊢
  rw [hsame]
  exact hfreed

/-- **`clone_env` owns what it has allocated**, on the error path and when it returns. -/
theorem sound_cloneEnv (c : Caller) (env : List CString) :
    Sound c (fun _ => True) (.error (cloneEnv c env)) := by
  have hsteps := sound_steps c env
  unfold cloneEnv
  dsimp only [bind]
  generalize ((startClone c env).bind fun s => (putLmtf c env (putDffns env s)).bind fun s =>
    (putLmpl c env s).bind fun s => (putLdp c env s).bind fun s => putDil c env s) = r at hsteps ⊢
  cases r with
  | error r => cases r <;> exact hsteps
  | ok s => exact hsteps.1.terminate

end Run

/-! ## How far `clone_env` gets -/

/-- `clone_env` has put `j` variables behind the copies, after `k` calls of `malloc`. -/
structure At (c : Caller) (env : List CString) (k j : Nat) (s : CloneState) : Prop where
  succeeded : ∀ i < k, c.malloc i = true
  mallocs : s.m.mallocs = k
  n_eq : s.n = env.length + j
  size : s.m.size = env.length + 6
  written : ∀ i ∈ s.m.written, i ≤ s.n

/-- What has been written before an error lies in the block, and the error is a missing library or
    one of the first `k` calls of `malloc`. -/
def Gets (c : Caller) (env : List CString) (P : Positions → Prop) (k j : Nat) :
    Except Cloned CloneState → Prop
  | .ok s => At c env k j s ∧ P s.pos
  | .error (.aborted _) => c.preload = none
  | .error (.failed m _) =>
      (∃ i < k, c.malloc i = false) ∧ ∀ m' ∈ m, ∀ i ∈ m'.written, i < m'.size
  | .error (.returned ..) => False

section Progress

variable {c : Caller} {env : List CString} {s : CloneState} {P Q : Positions → Prop}
  {k k' j j' : Nat}

theorem Gets.bind {x : Except Cloned CloneState} {f : CloneState → Except Cloned CloneState}
    (hx : Gets c env P k j x) (hk : k ≤ k')
    (hf : ∀ s, At c env k j s → P s.pos → Gets c env Q k' j' (f s)) :
    Gets c env Q k' j' (x.bind f) := by
  cases x with
  | ok s => exact hf s hx.1 hx.2
  | error r =>
      cases r with
      | aborted m => exact hx
      | failed m pos =>
          obtain ⟨⟨i, hi, hfail⟩, hinside⟩ := hx
          exact ⟨⟨i, by omega, hfail⟩, hinside⟩
      | returned m pos => exact hx

theorem At.le_succ (h : At c env k j s) {i : Nat} (hi : i ∈ s.m.written ++ [s.n + 1]) :
    i ≤ s.n + 1 := by
  rcases List.mem_append.mp hi with hi | hi
  · exact Nat.le_succ_of_le (h.written i hi)
  · exact le_of_eq (List.mem_singleton.mp hi)

/-- A string from elsewhere in the next slot. -/
theorem At.reuse (h : At c env k j s) (p : Pointer) (pos : Positions) :
    At c env k (j + 1) ⟨(reuse s.m (s.n + 1) p).1, s.n + 1, pos⟩ :=
  ⟨h.succeeded, h.mallocs, by rw [h.n_eq, Nat.add_assoc], h.size, fun _ => h.le_succ⟩

/-- A new string in the next slot. -/
theorem gets_store (h : At c env k j s) (hj : j < 5) (b : Block)
    {setPos : Option Nat → Positions} (hP : P (setPos (some (s.n + 1)))) :
    Gets c env P (k + 1) (j + 1)
      (continueWith s.m (s.n + 1) (some (store (s.n + 1) (c.alloc s.m b))) setPos) := by
  have hmallocs := h.mallocs
  cases hm : c.malloc k with
  | true =>
      have hstore : continueWith s.m (s.n + 1) (some (store (s.n + 1) (c.alloc s.m b))) setPos =
          .ok ⟨(store (s.n + 1) (c.alloc s.m b)).1, s.n + 1, setPos (some (s.n + 1))⟩ := by
        simp [store, Caller.alloc, hmallocs, hm, continueWith, Slot.isNull]
      rw [hstore]
      refine ⟨⟨fun i hi => ?_, congrArg (· + 1) hmallocs, by rw [h.n_eq, Nat.add_assoc], h.size,
        fun _ => h.le_succ⟩, hP⟩
      rcases Nat.lt_succ_iff_lt_or_eq.mp hi with hi | rfl
      · exact h.succeeded i hi
      · exact hm
  | false =>
      have hstore : continueWith s.m (s.n + 1) (some (store (s.n + 1) (c.alloc s.m b))) setPos =
          .error (.failed (some (store (s.n + 1) (c.alloc s.m b)).1)
            (setPos (some (s.n + 1)))) := by
        simp [store, Caller.alloc, hmallocs, hm, continueWith, Slot.isNull]
      rw [hstore]
      refine ⟨⟨k, Nat.lt_succ_self k, hm⟩, fun m' hm' i hi => ?_⟩
      obtain rfl := Option.some.inj hm'
      have hle := h.le_succ hi
      have hsize : (store (s.n + 1) (c.alloc s.m b)).1.size = env.length + 6 := h.size
      rw [h.n_eq] at hle
      omega

/-- The calls of `malloc` for `BUILDSH_TEMPFILE`. -/
def lmtfCalls (c : Caller) : Nat := if c.tempfile = none then 0 else 1

theorem gets_startClone (c : Caller) (env : List CString) :
    Gets c env (fun pos => pos = ⟨none, none, none, none, none⟩) 1 0 (startClone c env) := by
  unfold startClone
  rw [scanEnv_eq]
  dsimp only
  cases h : c.malloc 0 with
  | false =>
      rw [if_neg (by decide)]
      exact ⟨⟨0, Nat.one_pos, h⟩, fun m hm => by cases hm⟩
  | true =>
      rw [if_pos rfl]
      have hcopied := copied_copyLoop env 0 ⟨env.length + 6, fun _ => .unassigned, [], 1⟩
      refine ⟨⟨fun i hi => ?_, mallocs_copyLoop _ env 0 _, rfl, hcopied.size, fun i hi => ?_⟩, rfl⟩
      · rw [Nat.lt_one_iff.mp hi]
        exact h
      · rcases (hcopied.written i).mp hi with hi | hi
        · cases hi
        · dsimp only
          omega

theorem gets_putLmtf (h : At c env k j s) (hj : j < 5) (hpos : s.pos.lmtf = none)
    (hP : ∀ p, P { s.pos with lmtf := p }) :
    Gets c env P (k + lmtfCalls c) (j + 1) (putLmtf c env s) := by
  obtain ⟨m, n, ⟨ldp, dil, dffns, lmtf, lmpl⟩⟩ := s
  obtain rfl : lmtf = none := hpos
  unfold putLmtf handleLmtf lmtfCalls
  cases hf : c.tempfile with
  | none => exact ⟨h.reuse _ _, hP _⟩
  | some fname => exact gets_store h hj _ (hP _)

theorem gets_putLmpl (h : At c env k j s) (hj : j < 5) (hpos : s.pos.lmpl = none)
    (hP : c.preload ≠ none → ∀ p, P { s.pos with lmpl := p }) :
    Gets c env P (k + 1) (j + 1) (putLmpl c env s) := by
  obtain ⟨m, n, ⟨ldp, dil, dffns, lmtf, lmpl⟩⟩ := s
  obtain rfl : lmpl = none := hpos
  unfold putLmpl handleLmpl
  cases hf : c.preload with
  | none => exact hf
  | some fname => exact gets_store h hj _ (hP (by rw [hf]; exact Option.some_ne_none _) _)

theorem gets_putLdp (h : At c env k j s) (hj : j < 5) (hpos : s.pos.ldp = none)
    (hP : ∀ p, P { s.pos with ldp := p }) : Gets c env P (k + 1) (j + 1) (putLdp c env s) := by
  obtain ⟨m, n, ⟨ldp, dil, dffns, lmtf, lmpl⟩⟩ := s
  obtain rfl : ldp = none := hpos
  unfold putLdp handleLdp
  cases hf : c.preload with
  | none => exact hf
  | some fname => exact gets_store h hj _ (hP _)

theorem gets_putDil (h : At c env k j s) (hj : j < 5) (hpos : s.pos.dil = none)
    (hP : ∀ p, P { s.pos with dil := p }) : Gets c env P (k + 1) (j + 1) (putDil c env s) := by
  obtain ⟨m, n, ⟨ldp, dil, dffns, lmtf, lmpl⟩⟩ := s
  obtain rfl : dil = none := hpos
  unfold putDil handleLdp
  cases hf : c.preload with
  | none => exact hf
  | some fname => exact gets_store h hj _ (hP _)

/-- The calls of `malloc` when none fails: the array, the file and three times the library. -/
def calls (c : Caller) : Nat := 1 + lmtfCalls c + 3

theorem gets_steps (c : Caller) (env : List CString) :
    Gets c env (fun _ => c.preload ≠ none) (calls c) 5 ((startClone c env).bind fun s =>
      (putLmtf c env (putDffns env s)).bind fun s =>
        (putLmpl c env s).bind fun s => (putLdp c env s).bind fun s => putDil c env s) := by
  refine (gets_startClone c env).bind (by unfold calls; omega) fun s hs hpos => ?_
  have hdffns : At c env 1 1 (putDffns env s) ∧ (putDffns env s).pos = s.pos := by
    obtain ⟨m, n, pos⟩ := s
    obtain rfl : pos = ⟨none, none, none, none, none⟩ := hpos
    exact ⟨hs.reuse _ _, rfl⟩
  obtain ⟨hs₁, hpos₁⟩ := hdffns
  have hall := hpos₁.trans hpos
  have hlmtf : Gets c env (fun pos => pos.lmpl = none ∧ pos.ldp = none ∧ pos.dil = none)
      (1 + lmtfCalls c) 2 (putLmtf c env (putDffns env s)) :=
    gets_putLmtf hs₁ (by omega) (by rw [hall]) fun p => by
      rw [hall]
      exact ⟨rfl, rfl, rfl⟩
  refine hlmtf.bind (by unfold calls; omega) fun s hs hpos => ?_
  have hlmpl : Gets c env (fun pos => (pos.ldp = none ∧ pos.dil = none) ∧ c.preload ≠ none)
      (1 + lmtfCalls c + 1) 3 (putLmpl c env s) :=
    gets_putLmpl hs (by omega) hpos.1 fun hp p => ⟨hpos.2, hp⟩
  refine hlmpl.bind (by unfold calls; omega) fun s hs hpos => ?_
  have hldp : Gets c env (fun pos => pos.dil = none ∧ c.preload ≠ none)
      (1 + lmtfCalls c + 2) 4 (putLdp c env s) :=
    gets_putLdp hs (by omega) hpos.1.1 fun p => ⟨hpos.1.2, hpos.2⟩
  refine hldp.bind (by unfold calls; omega) fun s hs hpos => ?_
  exact gets_putDil hs (by omega) hpos.1 fun p => hpos.2

end Progress

/-- What `clone_env` returns tells what has failed. -/
def Told (c : Caller) (env : List CString) : Cloned → Prop
  | .aborted _ => c.preload = none
  | .failed m _ => (∃ i < calls c, c.malloc i = false) ∧ ∀ m' ∈ m, ∀ i ∈ m'.written, i < m'.size
  | .returned m _ =>
      c.preload ≠ none ∧ (∀ i < calls c, c.malloc i = true) ∧ m.size = env.length + 6 ∧
        m.size ∈ m.written ∧ ∀ i ∈ m.written, i ≤ m.size

theorem told_cloneEnv (c : Caller) (env : List CString) : Told c env (cloneEnv c env) := by
  have hsteps := gets_steps c env
  unfold cloneEnv
  dsimp only [bind]
  generalize ((startClone c env).bind fun s => (putLmtf c env (putDffns env s)).bind fun s =>
    (putLmpl c env s).bind fun s => (putLdp c env s).bind fun s => putDil c env s) = r at hsteps ⊢
  cases r with
  | error r =>
      cases r with
      | aborted m => exact hsteps
      | failed m pos => exact hsteps
      | returned m pos => exact hsteps.elim
  | ok s =>
      obtain ⟨hat, hpreload⟩ := hsteps
      have hsize : (s.m.set (s.n + 1) .null).size = s.n + 1 := hat.size.trans (by rw [hat.n_eq])
      refine ⟨hpreload, hat.succeeded, hat.size, ?_, fun i hi => ?_⟩
      · rw [hsize]
        exact List.mem_append_right _ (List.mem_singleton.mpr rfl)
      · rw [hsize]
        exact hat.le_succ hi

/-! ## When the clone is released -/

theorem releasedOnce_release {spare : Nat → Nat} {c : Caller} {m : Memory} {pos : Positions}
    (h : (freeEnv m pos).Perm (allocated c m.mallocs)) :
    (release spare c m pos).ReleasedOnce ↔ ∀ i ∈ m.written, i < m.size + spare m.size := by
  unfold release
  split
  · rename_i hroom
    exact iff_of_true ⟨h, h.nodup_iff.mpr (nodup_allocated c _)⟩ hroom
  · rename_i hroom
    exact iff_of_false id hroom

/-- **The clone is released, unless it is finished.** On the error path `free_env` frees the
    strings that `clone_env` has allocated and the array, each once, and nothing else. After a
    failed exec it does so only where the allocator has left room for the terminator. -/
theorem failedExec_releasedOnce_iff (spare : Nat → Nat) (c : Caller) (env : List CString) :
    (failedExec spare c env).ReleasedOnce ↔
      c.preload = none ∨ (∃ k < calls c, c.malloc k = false) ∨ 0 < spare (env.length + 6) := by
  have hsound := sound_cloneEnv c env
  have htold := told_cloneEnv c env
  unfold failedExec
  cases hc : cloneEnv c env with
  | aborted m =>
      rw [hc] at htold
      exact iff_of_true trivial (Or.inl htold)
  | failed m pos =>
      rw [hc] at hsound htold
      cases m with
      | none =>
          have hnone : allocated c 1 = [] := hsound
          exact iff_of_true ⟨by rw [hnone], List.nodup_nil⟩ (Or.inr (Or.inl htold.1))
      | some m =>
          refine iff_of_true ((releasedOnce_release hsound).mpr fun i hi => ?_)
            (Or.inr (Or.inl htold.1))
          exact Nat.lt_add_right _ (htold.2 m rfl i hi)
  | returned m pos =>
      rw [hc] at hsound htold
      obtain ⟨hpreload, hmalloc, hsize, hlast, hall⟩ := htold
      refine (releasedOnce_release hsound).trans ?_
      have hfails : ¬ ∃ k < calls c, c.malloc k = false := by
        rintro ⟨k, hk, hfail⟩
        rw [hmalloc k hk] at hfail
        cases hfail
      rw [or_iff_right hpreload, or_iff_right hfails, ← hsize]
      -- the terminator is the only slot outside
      constructor
      · intro h
        have := h _ hlast
        omega
      · intro h i hi
        have := hall i hi
        omega

/-- The slots behind a block where an allocator rounds the sizes of blocks, with 8 bytes of its
    own, up to a multiple of 16, and a pointer has 8 bytes. -/
def rounded (k : Nat) : Nat := ((8 * k + 8 + 15) / 16 * 16 - 8) / 8 - k

/-- With one variable in the environment, the terminator overwrites data of the allocator. -/
theorem not_releasedOnce_one :
    ¬ (failedExec rounded plainCaller [⟨"A=b".toList, by decide⟩]).ReleasedOnce := by
  have hcorrupted : failedExec rounded plainCaller [⟨"A=b".toList, by decide⟩] = .corrupted := rfl
  rw [hcorrupted]
  exact id

end Buildsh.Release
