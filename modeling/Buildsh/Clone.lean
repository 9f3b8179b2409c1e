/-
  `preload.c`: the environment that the exec wrappers hand on.

  An exec with an explicit environment is given a clone of it (`cloneEnv`) in which five variables
  are replaced or added. The new array is modelled slot by slot: `malloc` leaves the slots
  unassigned, and a write past the end of the block is recorded like any other. A string is a
  block of characters, of which some may be unassigned; whoever owns it is its `Origin`.

  `scan_env` never finds a variable (`scanEnv_eq`), since every comparison is made on condition
  that the variable has been found already. So all five are added behind slot `n`, which stays
  unassigned, and the terminator is written one slot past the block (`cloneEnv_eq`).
-/
import Mathlib
import Buildsh.Lua

namespace Buildsh.Clone

/-! ## C strings -/

def NUL : Char := Char.ofNat 0

/-- What a pointer to a string points to, without the terminating NUL. -/
def CString := { s : List Char // NUL ∉ s }

/-- Its characters. -/
def CString.chars (s : CString) : List Char := s.1

instance : DecidableEq CString := inferInstanceAs (DecidableEq { s : List Char // NUL ∉ s })

/-- Memory for characters; `none` where nothing has been assigned. -/
abbrev Block := List (Option Char)

def CString.block (s : CString) : Block := s.1.map some ++ [some NUL]

/-- The string in a block, if there is a NUL in front of everything unassigned. -/
def Block.text : Block → Option CString
  | [] => none
  | none :: _ => none
  | some c :: b =>
      if h : c = NUL then some ⟨[], by simp⟩
      else (Block.text b).map fun s => ⟨c :: s.1, by
        rw [List.mem_cons, not_or]
        exact ⟨fun hc => h hc.symm, s.2⟩⟩

theorem text_block (s : CString) : Block.text s.block = some s := by
  obtain ⟨s, hs⟩ := s
  unfold CString.block
  dsimp only
  induction s with
  | nil => rfl
  | cons c s ih =>
      rw [List.mem_cons, not_or] at hs
      have hc : c ≠ NUL := fun h => hs.1 h.symm
      rw [List.map_cons, List.cons_append, Block.text, dif_neg hc, ih hs.2]
      rfl

/-- `strncmp( s, t, k ) == 0`, for a string and a literal -/
def strncmpEq (s : CString) (t : List Char) (k : Nat) : Bool :=
  (s.1 ++ [NUL]).take k = (t ++ [NUL]).take k

/-! ## The variables -/

def LDP : List Char := "LD_PRELOAD=".toList
def LMTF : List Char := "BUILDSH_TEMPFILE=".toList
def LMPL : List Char := "BUILDSH_PRELOAD=".toList
def DIL : List Char := "DYLD_INSERT_LIBRARIES=".toList
def DFFNS : List Char := "DYLD_FORCE_FLAT_NAMESPACE=".toList

def BUILDSH_TEMPFILE_DEFAULT : List Char := "/tmp/preload.log".toList

def dffnsDefault : CString := ⟨DFFNS ++ "y".toList, by decide⟩
def lmtfDefault : CString := ⟨LMTF ++ BUILDSH_TEMPFILE_DEFAULT, by decide⟩

/-- `ldp_pos` to `lmpl_pos`, with `none` for -1. -/
structure Positions where
  ldp : Option Nat
  dil : Option Nat
  dffns : Option Nat
  lmtf : Option Nat
  lmpl : Option Nat
  deriving DecidableEq

/-- The body of the loop in `scan_env`. `sizeof` counts the NUL of the literal. -/
def scanVar (pos : Positions) (n : Nat) (s : CString) : Positions :=
  if pos.ldp ≠ none ∧ strncmpEq s LDP (LDP.length + 1) then { pos with ldp := some n }
  else if pos.lmtf ≠ none ∧ strncmpEq s LMTF (LMTF.length + 1) then { pos with lmtf := some n }
  else if pos.lmpl ≠ none ∧ strncmpEq s LMPL (LMPL.length + 1) then { pos with lmpl := some n }
  else if pos.dil ≠ none ∧ strncmpEq s DIL (DIL.length + 1) then { pos with dil := some n }
  else if pos.dffns ≠ none ∧ strncmpEq s DFFNS (DFFNS.length + 1) then
    { pos with dffns := some n }
  else pos

def scanLoop : List CString → Nat → Positions → Nat × Positions
  | [], n, pos => (n, pos)
  | s :: env, n, pos => scanLoop env (n + 1) (scanVar pos n s)

def scanEnv (env : List CString) : Nat × Positions := scanLoop env 0 ⟨none, none, none, none, none⟩

/-- Nothing is found. -/
theorem scanEnv_eq (env : List CString) :
    scanEnv env = (env.length, ⟨none, none, none, none, none⟩) := by
  have hloop : ∀ n, scanLoop env n ⟨none, none, none, none, none⟩ =
      (n + env.length, ⟨none, none, none, none, none⟩) := by
    induction env with
    | nil => exact fun n => rfl
    | cons s env ih =>
        intro n
        have hvar : scanVar ⟨none, none, none, none, none⟩ n s = ⟨none, none, none, none, none⟩ := by
          simp [scanVar]
        rw [scanLoop, hvar, ih]
        simp only [List.length_cons, Prod.mk.injEq, and_true]
        omega
  rw [scanEnv, hloop, Nat.zero_add]

/-! ## The new array -/

/-- Who owns a string: the caller of exec, the library, or the `n`-th call of `malloc`. -/
inductive Origin where
  | caller
  | static
  | heap (n : Nat)
  deriving DecidableEq

structure Pointer where
  origin : Origin
  block : Block

inductive Slot where
  | unassigned
  | null
  | ptr (p : Pointer)

/-- The block of `new_env`, and how often `malloc` has been called. -/
structure Memory where
  size : Nat
  slots : Nat → Slot
  /-- the indices written to, oldest first -/
  written : List Nat
  mallocs : Nat

/-- `new_env[ i ] = v` -/
def Memory.set (m : Memory) (i : Nat) (v : Slot) : Memory :=
  { m with slots := Function.update m.slots i v, written := m.written ++ [i] }

/-- What the wrappers find in their own process. -/
structure Caller where
  /-- `getenv( "BUILDSH_PRELOAD" )` -/
  preload : Option CString
  /-- `getenv( "BUILDSH_TEMPFILE" )` -/
  tempfile : Option CString
  /-- the calls of `malloc` that succeed -/
  malloc : Nat → Bool

/-- A string on the heap, or `NULL`. -/
def Caller.alloc (c : Caller) (m : Memory) (b : Block) : Slot × Memory :=
  (if c.malloc m.mallocs then .ptr ⟨.heap m.mallocs, b⟩ else .null,
    { m with mallocs := m.mallocs + 1 })

/-- `concat` of a literal and a string -/
def concat (c : Caller) (m : Memory) (s₁ : List Char) (s₂ : CString) : Slot × Memory :=
  c.alloc m (s₁.map some ++ s₂.block)

def Slot.isNull : Slot → Bool
  | .null => true
  | _ => false

/-- What a handler leaves: the array, its position, and whether it succeeded. -/
abbrev Handled := Memory × Option Nat × Bool

/-- `dest[ *pos ] = mem; return mem != NULL;` -/
def store (pos : Nat) (r : Slot × Memory) : Handled := (r.2.set pos r.1, some pos, !r.1.isNull)

/-- `dest[ *pos ] = cur; *pos = -1; return 1;` -/
def reuse (m : Memory) (pos : Nat) (p : Pointer) : Handled := (m.set pos (.ptr p), none, true)

def handleLmtf (c : Caller) (m : Memory) (cur : Option CString) (pos : Nat) : Handled :=
  let good := match cur, c.tempfile with
    | none, _ => false
    | some s, some fname => s.1.drop LMTF.length = fname.1
    | some s, none => s.1.drop LMTF.length = BUILDSH_TEMPFILE_DEFAULT
  match cur, good, c.tempfile with
  | some s, true, _ => reuse m pos ⟨.caller, s.block⟩
  | _, _, none => reuse m pos ⟨.static, lmtfDefault.block⟩
  | _, _, some fname => store pos (concat c m LMTF fname)

/-- `none` where `abort` is called. -/
def handleLmpl (c : Caller) (m : Memory) (cur : Option CString) (pos : Nat) : Option Handled :=
  match c.preload with
  | none => none
  | some fname =>
      match cur with
      | some s =>
          if s.1.drop LMPL.length = fname.1 then some (reuse m pos ⟨.caller, s.block⟩)
          else some (store pos (concat c m LMPL fname))
      | none => some (store pos (concat c m LMPL fname))

/-- The block for an old list has one character more than is copied into it. -/
def handleLdp (c : Caller) (m : Memory) (cur : Option CString) (pos : Nat) (name : List Char) :
    Option Handled :=
  match c.preload with
  | none => none
  | some fname =>
      match cur with
      | some s =>
          let old := s.1.drop name.length
          if fname.1 <:+: old then some (reuse m pos ⟨.caller, s.block⟩)
          else some (store pos (c.alloc m ((name ++ fname.1 ++ ':' :: old).map some ++ [none])))
      | none => some (store pos (concat c m name fname))

/-! ## `clone_env` -/

inductive Cloned where
  | aborted (m : Memory)
  /-- `NULL` is returned; `m` is what has been allocated -/
  | failed (m : Option Memory) (pos : Positions)
  | returned (m : Memory) (pos : Positions)

/-- The state of `clone_env`: the array, the count `n` and the positions. -/
structure CloneState where
  m : Memory
  n : Nat
  pos : Positions

/-- The loop that copies all but the variables to be replaced. -/
def copyLoop (pos : Positions) : List CString → Nat → Memory → Memory
  | [], _, m => m
  | s :: env, i, m =>
      copyLoop pos env (i + 1) (m.set i
        (if pos.ldp = some i ∨ pos.dil = some i ∨ pos.dffns = some i ∨ pos.lmtf = some i then .null
        else .ptr ⟨.caller, s.block⟩))

/-- The old value of a variable, its slot and the new count: it is replaced or added. -/
def locate (env : List CString) (p : Option Nat) (n : Nat) : Option CString × Nat × Nat :=
  match p with
  | some i => (env[i]?, i, n)
  | none => (none, n + 1, n + 1)

def startClone (c : Caller) (env : List CString) : Except Cloned CloneState :=
  let (n, pos) := scanEnv env
  if c.malloc 0 then
    .ok ⟨copyLoop pos env 0 ⟨n + 6, fun _ => .unassigned, [], 1⟩, n, pos⟩
  else .error (.failed none pos)

def putDffns (env : List CString) (s : CloneState) : CloneState :=
  let (_, i, n) := locate env s.pos.dffns s.n
  ⟨s.m.set i (.ptr ⟨.static, dffnsDefault.block⟩), n, { s.pos with dffns := none }⟩

/-- What `clone_env` makes of a handler that has been called for slot `i`. -/
def continueWith (m : Memory) (n : Nat) (h : Option Handled) (setPos : Option Nat → Positions) :
    Except Cloned CloneState :=
  match h with
  | none => .error (.aborted m)
  | some (m, p, true) => .ok ⟨m, n, setPos p⟩
  | some (m, p, false) => .error (.failed (some m) (setPos p))

def putLmtf (c : Caller) (env : List CString) (s : CloneState) : Except Cloned CloneState :=
  let (cur, i, n) := locate env s.pos.lmtf s.n
  continueWith s.m n (some (handleLmtf c s.m cur i)) fun p => { s.pos with lmtf := p }

def putLmpl (c : Caller) (env : List CString) (s : CloneState) : Except Cloned CloneState :=
  let (cur, i, n) := locate env s.pos.lmpl s.n
  continueWith s.m n (handleLmpl c s.m cur i) fun p => { s.pos with lmpl := p }

def putLdp (c : Caller) (env : List CString) (s : CloneState) : Except Cloned CloneState :=
  let (cur, i, n) := locate env s.pos.ldp s.n
  continueWith s.m n (handleLdp c s.m cur i LDP) fun p => { s.pos with ldp := p }

def putDil (c : Caller) (env : List CString) (s : CloneState) : Except Cloned CloneState :=
  let (cur, i, n) := locate env s.pos.dil s.n
  continueWith s.m n (handleLdp c s.m cur i DIL) fun p => { s.pos with dil := p }

def cloneEnv (c : Caller) (env : List CString) : Cloned :=
  let result := do
    let s ← startClone c env
    let s ← putLmtf c env (putDffns env s)
    let s ← putLmpl c env s
    let s ← putLdp c env s
    putDil c env s
  match result with
  | .error r => r
  | .ok s => .returned (s.m.set (s.n + 1) .null) s.pos


/-! ## What the clone holds -/

/-- `name` with a value. -/
def assign (name : List Char) (hname : NUL ∉ name) (v : CString) : CString :=
  ⟨name ++ v.1, by
    rw [List.mem_append, not_or]
    exact ⟨hname, v.2⟩⟩

theorem block_assign (name : List Char) (hname : NUL ∉ name) (v : CString) :
    (assign name hname v).block = name.map some ++ v.block := by
  unfold assign CString.block
  rw [List.map_append, List.append_assoc]

/-- The variable that `handle_lmtf` adds. -/
def lmtfVar (c : Caller) : CString :=
  match c.tempfile with
  | none => lmtfDefault
  | some fname => assign LMTF (by decide) fname

/-- The variables that are added for the library `f`, in the order of their slots. -/
def addedVars (c : Caller) (f : CString) : List CString :=
  [dffnsDefault, lmtfVar c, assign LMPL (by decide) f, assign LDP (by decide) f,
    assign DIL (by decide) f]

/-- The copies of `env` in the first slots, an unassigned slot, and `vs` behind it. -/
structure Layout (env vs : List CString) (m : Memory) : Prop where
  size : m.size = env.length + 6
  written : ∀ i, i ∈ m.written ↔ i < env.length ∨ env.length < i ∧ i ≤ env.length + vs.length
  copied : ∀ i s, env[i]? = some s → m.slots i = .ptr ⟨.caller, s.block⟩
  gap : m.slots env.length = .unassigned
  added : ∀ j s, vs[j]? = some s → ∃ o, m.slots (env.length + 1 + j) = .ptr ⟨o, s.block⟩

/-- What `copyLoop` does when no variable has been found. -/
structure Copied (env : List CString) (i : Nat) (m m' : Memory) : Prop where
  size : m'.size = m.size
  written : ∀ j, j ∈ m'.written ↔ j ∈ m.written ∨ i ≤ j ∧ j < i + env.length
  copied : ∀ j s, env[j]? = some s → m'.slots (i + j) = .ptr ⟨.caller, s.block⟩
  others : ∀ j, j < i ∨ i + env.length ≤ j → m'.slots j = m.slots j

theorem copied_copyLoop (env : List CString) (i : Nat) (m : Memory) :
    Copied env i m (copyLoop ⟨none, none, none, none, none⟩ env i m) := by
  induction env generalizing i m with
  | nil =>
      refine ⟨rfl, fun j => ?_, by simp, fun _ _ => rfl⟩
      have hj : ¬ (i ≤ j ∧ j < i + 0) := by omega
      simp only [copyLoop, List.length_nil, hj, or_false]
  | cons s env ih =>
      have h := ih (i + 1) (m.set i (.ptr ⟨.caller, s.block⟩))
      have hloop : copyLoop ⟨none, none, none, none, none⟩ (s :: env) i m =
          copyLoop ⟨none, none, none, none, none⟩ env (i + 1)
            (m.set i (.ptr ⟨.caller, s.block⟩)) := by simp [copyLoop]
      rw [hloop]
      refine ⟨h.size, fun j => ?_, fun j t ht => ?_, fun j hj => ?_⟩
      · rw [h.written]
        simp only [Memory.set, List.mem_append, List.mem_singleton, List.length_cons, or_assoc]
        refine or_congr_right ?_
        omega
      · cases j with
        | zero =>
            rw [List.getElem?_cons_zero, Option.some.injEq] at ht
            rw [h.others _ (Or.inl (by omega)), ← ht]
            exact Function.update_self ..
        | succ j =>
            have hj := h.copied j t ht
            have e : i + 1 + j = i + (j + 1) := by omega
            rwa [e] at hj
      · rw [List.length_cons] at hj
        rw [h.others j (by omega)]
        exact Function.update_of_ne (by omega) _ _

/-- A handler has put the string `v` into slot `i`. -/
structure Puts (m : Memory) (i : Nat) (v : CString) (m' : Memory) : Prop where
  size : m'.size = m.size
  written : m'.written = m.written ++ [i]
  slots : ∃ o, m'.slots = Function.update m.slots i (.ptr ⟨o, v.block⟩)

theorem Layout.push {env vs : List CString} {m m' : Memory} {v : CString} (h : Layout env vs m)
    (hp : Puts m (env.length + vs.length + 1) v m') : Layout env (vs ++ [v]) m' := by
  obtain ⟨o, ho⟩ := hp.slots
  have hother : ∀ i, i ≠ env.length + vs.length + 1 → m'.slots i = m.slots i := fun i hi => by
    rw [ho]
    exact Function.update_of_ne hi _ _
  refine ⟨hp.size.trans h.size, fun i => ?_, fun i s hs => ?_, ?_, fun j s hs => ?_⟩
  · rw [hp.written, List.mem_append, h.written, List.mem_singleton, List.length_append,
      List.length_singleton]
    omega
  · obtain ⟨hi, -⟩ := List.getElem?_eq_some_iff.mp hs
    rw [hother i (by omega), h.copied i s hs]
  · rw [hother _ (by omega), h.gap]
  · rcases Nat.lt_trichotomy j vs.length with hj | rfl | hj
    · rw [List.getElem?_append_left hj] at hs
      rw [hother _ (by omega)]
      exact h.added j s hs
    · rw [List.getElem?_concat_length, Option.some.injEq] at hs
      have e : env.length + 1 + vs.length = env.length + vs.length + 1 := by omega
      rw [ho, e, ← hs]
      exact ⟨o, Function.update_self ..⟩
    · rw [List.getElem?_eq_none (by simp; omega)] at hs
      cases hs

section Handlers

variable {c : Caller} (hm : ∀ k, c.malloc k = true)
include hm

theorem alloc_eq (m : Memory) (b : Block) :
    c.alloc m b = (.ptr ⟨.heap m.mallocs, b⟩, { m with mallocs := m.mallocs + 1 }) := by
  simp [Caller.alloc, hm]

theorem store_concat (m : Memory) (i : Nat) (name : List Char) (hname : NUL ∉ name)
    (v : CString) :
    ∃ m', store i (concat c m name v) = (m', some i, true) ∧ Puts m i (assign name hname v) m' := by
  rw [concat, alloc_eq hm, ← block_assign name hname]
  exact ⟨_, rfl, rfl, rfl, _, rfl⟩

theorem handleLmtf_none (m : Memory) (i : Nat) :
    ∃ m' p, handleLmtf c m none i = (m', p, true) ∧ Puts m i (lmtfVar c) m' := by
  unfold handleLmtf lmtfVar
  cases c.tempfile with
  | none => exact ⟨_, _, rfl, rfl, rfl, _, rfl⟩
  | some fname =>
      obtain ⟨m', h, hp⟩ := store_concat hm m i LMTF (by decide) fname
      exact ⟨m', _, h, hp⟩

theorem handleLmpl_none {f : CString} (hf : c.preload = some f) (m : Memory) (i : Nat) :
    ∃ m' p, handleLmpl c m none i = some (m', p, true) ∧
      Puts m i (assign LMPL (by decide) f) m' := by
  obtain ⟨m', h, hp⟩ := store_concat hm m i LMPL (by decide) f
  exact ⟨m', some i, by simp only [handleLmpl, hf, h], hp⟩

theorem handleLdp_none {f : CString} (hf : c.preload = some f) (m : Memory) (i : Nat)
    (name : List Char) (hname : NUL ∉ name) :
    ∃ m' p, handleLdp c m none i name = some (m', p, true) ∧ Puts m i (assign name hname f) m' := by
  obtain ⟨m', h, hp⟩ := store_concat hm m i name hname f
  exact ⟨m', some i, by simp only [handleLdp, hf, h], hp⟩

end Handlers

theorem layout_start (env : List CString) :
    Layout env [] (copyLoop ⟨none, none, none, none, none⟩ env 0
      ⟨env.length + 6, fun _ => .unassigned, [], 1⟩) := by
  have h := copied_copyLoop env 0 ⟨env.length + 6, fun _ => .unassigned, [], 1⟩
  refine ⟨h.size, fun i => ?_, fun i s hs => ?_, h.others _ (Or.inr (by omega)), by simp⟩
  · rw [h.written]
    simp only [List.not_mem_nil, List.length_nil, false_or]
    omega
  · have hi := h.copied i s hs
    rwa [Nat.zero_add] at hi

/-- The state of `clone_env` when the first two variables have been added. -/
theorem clone_begin {c : Caller} (hm : ∀ k, c.malloc k = true) (env : List CString) :
    ∃ m p, (startClone c env).bind (fun s => putLmtf c env (putDffns env s)) =
        .ok ⟨m, env.length + 2, ⟨none, none, none, p, none⟩⟩ ∧
      Layout env [dffnsDefault, lmtfVar c] m := by
  have h₀ := layout_start env
  generalize hm₀ : copyLoop ⟨none, none, none, none, none⟩ env 0
    ⟨env.length + 6, fun _ => .unassigned, [], 1⟩ = m₀ at h₀
  have hstart : startClone c env = .ok ⟨m₀, env.length, ⟨none, none, none, none, none⟩⟩ := by
    simp [startClone, scanEnv_eq, hm, hm₀]
  have h₁ : Layout env [dffnsDefault]
      (m₀.set (env.length + 1) (.ptr ⟨.static, dffnsDefault.block⟩)) :=
    h₀.push ⟨rfl, rfl, _, rfl⟩
  obtain ⟨m₂, p₂, e₂, hp₂⟩ := handleLmtf_none hm
    (m₀.set (env.length + 1) (.ptr ⟨.static, dffnsDefault.block⟩)) (env.length + 2)
  refine ⟨m₂, p₂, ?_, h₁.push hp₂⟩
  simp only [hstart, Except.bind, putDffns, putLmtf, locate, continueWith, e₂]

theorem cloneEnv_begin {c : Caller} {env : List CString} {s : CloneState}
    (h : (startClone c env).bind (fun s => putLmtf c env (putDffns env s)) = .ok s) :
    cloneEnv c env =
      match ((putLmpl c env s).bind (putLdp c env)).bind (putDil c env) with
      | .error r => r
      | .ok s => .returned (s.m.set (s.n + 1) .null) s.pos := by
  unfold cloneEnv
  cases hs : startClone c env with
  | error r => rw [hs] at h; cases h
  | ok s₀ =>
      rw [hs] at h
      change putLmtf c env (putDffns env s₀) = .ok s at h
      simp only [bind, Except.bind, h]
      cases putLmpl c env s with
      | error r => rfl
      | ok s₁ => rfl

/-- **The clone.** With the library `f`, all five variables are added behind slot `n`, and the
    terminator is written behind them. -/
theorem cloneEnv_eq {c : Caller} (hm : ∀ k, c.malloc k = true) {f : CString}
    (hf : c.preload = some f) (env : List CString) :
    ∃ m pos, cloneEnv c env = .returned (m.set (env.length + 6) .null) pos ∧
      Layout env (addedVars c f) m := by
  obtain ⟨m₂, p₂, e₂, h₂⟩ := clone_begin hm env
  obtain ⟨m₃, p₃, e₃, hp₃⟩ := handleLmpl_none hm hf m₂ (env.length + 3)
  have h₃ := h₂.push hp₃
  obtain ⟨m₄, p₄, e₄, hp₄⟩ := handleLdp_none hm hf m₃ (env.length + 4) LDP (by decide)
  have h₄ := h₃.push hp₄
  obtain ⟨m₅, p₅, e₅, hp₅⟩ := handleLdp_none hm hf m₄ (env.length + 5) DIL (by decide)
  refine ⟨m₅, ⟨p₄, p₅, none, p₂, p₃⟩, ?_, h₄.push hp₅⟩
  rw [cloneEnv_begin e₂]
  simp only [putLmpl, putLdp, putDil, locate, continueWith, e₃, e₄, e₅, Except.bind]

/-- Without a library, `abort` is called when two variables have been added. -/
theorem cloneEnv_abort {c : Caller} (hm : ∀ k, c.malloc k = true) (hf : c.preload = none)
    (env : List CString) :
    ∃ m, cloneEnv c env = .aborted m ∧ Layout env [dffnsDefault, lmtfVar c] m := by
  obtain ⟨m₂, p₂, e₂, h₂⟩ := clone_begin hm env
  refine ⟨m₂, ?_, h₂⟩
  rw [cloneEnv_begin e₂]
  simp only [putLmpl, continueWith, handleLmpl, hf, Except.bind]

/-! ## Is the clone well formed? -/

/-- Every write is inside the block, every slot before the first `NULL` has been assigned a
    string, and a `NULL` follows all strings. -/
structure WellFormed (m : Memory) : Prop where
  inside : ∀ i ∈ m.written, i < m.size
  strings : ∀ i < m.size, (∀ j ≤ i, (m.slots j).isNull = false) →
    ∃ p, m.slots i = .ptr p ∧ (Block.text p.block).isSome = true
  terminated : ∃ t < m.size, (m.slots t).isNull = true ∧ ∀ i p, m.slots i = .ptr p → i < t

/-- `clone_env` returns a well-formed array, if it returns one. -/
def Cloned.WellFormed : Cloned → Prop
  | .aborted m | .failed (some m) _ => ∀ i ∈ m.written, i < m.size
  | .failed none _ => True
  | .returned m _ => Clone.WellFormed m

/-- **The terminator overruns the block.** A clone that is returned is never well formed. -/
theorem wellFormed_iff {c : Caller} (hm : ∀ k, c.malloc k = true) (env : List CString) :
    (cloneEnv c env).WellFormed ↔ c.preload = none := by
  cases hf : c.preload with
  | none =>
      obtain ⟨m, h, hl⟩ := cloneEnv_abort hm hf env
      rw [h]
      refine iff_of_true (fun i hi => ?_) rfl
      have := (hl.written i).mp hi
      rw [hl.size]
      simp only [List.length_cons, List.length_nil] at this
      omega
  | some f =>
      obtain ⟨m, pos, h, hl⟩ := cloneEnv_eq hm hf env
      rw [h]
      refine iff_of_false (fun hw => ?_) (by simp)
      have hmem : env.length + 6 ∈ (m.set (env.length + 6) .null).written :=
        List.mem_append_right _ (List.mem_singleton.mpr rfl)
      have hsize : (m.set (env.length + 6) .null).size = env.length + 6 := hl.size
      have := hw.inside _ hmem
      omega

/-- A process with a library, in which every `malloc` succeeds. -/
def plainCaller : Caller := ⟨some ⟨"/p.so".toList, by decide⟩, none, fun _ => true⟩

theorem not_wellFormed_empty :
    ¬ ∀ (c : Caller) (env : List CString), (∀ k, c.malloc k = true) →
      (cloneEnv c env).WellFormed := by
  intro h
  obtain ⟨inside, -, -⟩ : WellFormed _ := h plainCaller [] fun _ => rfl
  exact absurd (inside 6 (by decide)) (by decide)

/-- An environment with a list of libraries and another variable. -/
def twoVars : List CString :=
  [⟨"LD_PRELOAD=/o.so".toList, by decide⟩, ⟨"HOME=/root".toList, by decide⟩]

theorem wellFormed_iff_two :
    (cloneEnv plainCaller twoVars).WellFormed ↔ plainCaller.preload = none :=
  wellFormed_iff (fun _ => rfl) twoVars

/-! ## The environment that is handed on -/

/-- What an unassigned slot happens to hold. -/
inductive Junk where
  | null
  | str (s : CString)
  /-- a pointer that `exec` cannot read from -/
  | invalid

/-- The strings from slot `i` to the first `NULL`, with `junk` in every unassigned slot; `k` bounds
    the slots. There is no environment if a string has no end or cannot be read. -/
def Memory.stringsFrom (m : Memory) (junk : Junk) : Nat → Nat → Option (List CString)
  | 0, _ => none
  | k + 1, i =>
      match m.slots i with
      | .null => some []
      | .ptr p =>
          match Block.text p.block with
          | none => none
          | some s => (m.stringsFrom junk k (i + 1)).map (s :: ·)
      | .unassigned =>
          match junk with
          | .null => some []
          | .str s => (m.stringsFrom junk k (i + 1)).map (s :: ·)
          | .invalid => none

/-- What `exec` reads; the terminator is written one slot past the block. -/
def Memory.handed (m : Memory) (junk : Junk) : Option (List CString) :=
  m.stringsFrom junk (m.size + 1) 0

/-- `s` is a setting of variable `name`. -/
def isVar (name : List Char) (s : CString) : Bool := name.isPrefixOf s.1

/-- A setting of one of the five variables. -/
def special (s : CString) : Bool :=
  isVar LDP s || isVar LMTF s || isVar LMPL s || isVar DIL s || isVar DFFNS s

/-- The value of `name` in `env`. -/
def valueOf (name : List Char) (env : List CString) : Option (List Char) :=
  (env.find? (isVar name)).map fun s => s.1.drop name.length

/-- The library in front of an old list, or the old list if it names the library. -/
def listWith (f : List Char) : Option (List Char) → List Char
  | none => f
  | some old => if f <:+: old then old else f ++ ':' :: old

/-- The settings of `name` in `env` are the one of `value`. -/
def SetOnce (name value : List Char) (env : List CString) : Prop :=
  (env.filter (isVar name)).map CString.chars = [name ++ value]

/-- `new` is `env` with the five variables as they should be. -/
structure RightClone (c : Caller) (f : CString) (env new : List CString) : Prop where
  others : new.filter (fun s => !special s) = env.filter (fun s => !special s)
  ldp : SetOnce LDP (listWith f.1 (valueOf LDP env)) new
  dil : SetOnce DIL (listWith f.1 (valueOf DIL env)) new
  dffns : SetOnce DFFNS "y".toList new
  lmtf : SetOnce LMTF ((c.tempfile.map CString.chars).getD BUILDSH_TEMPFILE_DEFAULT) new
  lmpl : SetOnce LMPL f.1 new

/-- Whatever `clone_env` returns is handed on as the right environment, and a clone of that has
    the same variables. -/
def ClonesRightly (c : Caller) (env : List CString) (junk : Junk) : Prop :=
  ∀ m pos, cloneEnv c env = .returned m pos → ∃ f new, c.preload = some f ∧
    m.handed junk = some new ∧ RightClone c f env new ∧
    ∀ m' pos', cloneEnv c new = .returned m' pos' →
      ∃ new', m'.handed junk = some new' ∧ ∀ s, s ∈ new' ↔ s ∈ new

theorem slots_set_of_ne (m : Memory) {i j : Nat} (h : i ≠ j) (v : Slot) :
    (m.set j v).slots i = m.slots i := Function.update_of_ne h _ _

section Reading

variable {m : Memory} {i : Nat} (junk : Junk) (k : Nat)

theorem stringsFrom_null (h : m.slots i = .null) : m.stringsFrom junk (k + 1) i = some [] := by
  simp only [Memory.stringsFrom, h]

theorem stringsFrom_ptr {o : Origin} {s : CString} (h : m.slots i = .ptr ⟨o, s.block⟩) :
    m.stringsFrom junk (k + 1) i = (m.stringsFrom junk k (i + 1)).map (s :: ·) := by
  simp only [Memory.stringsFrom, h, text_block]

theorem stringsFrom_unassigned (h : m.slots i = .unassigned) :
    m.stringsFrom .null (k + 1) i = some [] := by
  simp only [Memory.stringsFrom, h]

theorem stringsFrom_unassigned_str (h : m.slots i = .unassigned) (s : CString) :
    m.stringsFrom (.str s) (k + 1) i = (m.stringsFrom (.str s) k (i + 1)).map (s :: ·) := by
  simp only [Memory.stringsFrom, h]

theorem stringsFrom_unassigned_invalid (h : m.slots i = .unassigned) :
    m.stringsFrom .invalid (k + 1) i = none := by
  simp only [Memory.stringsFrom, h]

end Reading

/-- Strings in consecutive slots are read one after the other. -/
theorem stringsFrom_append (m : Memory) (junk : Junk) (k : Nat) (vs : List CString) :
    ∀ i, (∀ j s, vs[j]? = some s → ∃ o, m.slots (i + j) = .ptr ⟨o, s.block⟩) →
      m.stringsFrom junk (vs.length + k) i =
        (m.stringsFrom junk k (i + vs.length)).map (vs ++ ·) := by
  induction vs with
  | nil =>
      intro i _
      simp
  | cons s vs ih =>
      intro i h
      obtain ⟨o, h₀⟩ := h 0 s rfl
      rw [Nat.add_zero] at h₀
      have hrest := ih (i + 1) fun j t ht => by
        have hj := h (j + 1) t ht
        have e : i + 1 + j = i + (j + 1) := by omega
        rwa [e]
      have e₁ : (s :: vs).length + k = vs.length + k + 1 := by
        rw [List.length_cons]
        omega
      have e₂ : i + (s :: vs).length = i + 1 + vs.length := by
        rw [List.length_cons]
        omega
      rw [e₁, e₂, stringsFrom_ptr junk _ h₀, hrest, Option.map_map]
      rfl

section Handed

variable {env vs : List CString} {m : Memory}

/-- The copies are read first, then the unassigned slot. -/
theorem handed_eq (h : Layout env vs m) (junk : Junk) :
    (m.set (env.length + 6) .null).handed junk =
      ((m.set (env.length + 6) .null).stringsFrom junk (6 + 1) env.length).map (env ++ ·) := by
  have hcopied : ∀ j s, env[j]? = some s →
      ∃ o, (m.set (env.length + 6) .null).slots (0 + j) = .ptr ⟨o, s.block⟩ := fun j s hs => by
    obtain ⟨hj, -⟩ := List.getElem?_eq_some_iff.mp hs
    rw [Nat.zero_add, slots_set_of_ne m (by omega), h.copied j s hs]
    exact ⟨_, rfl⟩
  have hsize : (m.set (env.length + 6) .null).size = env.length + 6 := h.size
  rw [Memory.handed, hsize, Nat.add_assoc,
    stringsFrom_append (m.set (env.length + 6) .null) junk (6 + 1) env 0 hcopied, Nat.zero_add]

theorem slots_gap (h : Layout env vs m) :
    (m.set (env.length + 6) .null).slots env.length = .unassigned := by
  rw [slots_set_of_ne m (by omega), h.gap]

/-- With `NULL` in the unassigned slot, the environment is handed on as it was given. -/
theorem handed_null (h : Layout env vs m) :
    (m.set (env.length + 6) .null).handed .null = some env := by
  rw [handed_eq h, stringsFrom_unassigned 6 (slots_gap h), Option.map_some, List.append_nil]

theorem handed_invalid (h : Layout env vs m) :
    (m.set (env.length + 6) .null).handed .invalid = none := by
  rw [handed_eq h, stringsFrom_unassigned_invalid 6 (slots_gap h), Option.map_none]

/-- With a string in the unassigned slot, this string comes before the added variables. -/
theorem handed_junk (h : Layout env vs m) (hvs : vs.length = 5) (s : CString) :
    (m.set (env.length + 6) .null).handed (.str s) = some (env ++ s :: vs) := by
  have hadded : ∀ j t, vs[j]? = some t →
      ∃ o, (m.set (env.length + 6) .null).slots (env.length + 1 + j) = .ptr ⟨o, t.block⟩ := by
    intro j t ht
    obtain ⟨hj, -⟩ := List.getElem?_eq_some_iff.mp ht
    rw [slots_set_of_ne m (by omega)]
    exact h.added j t ht
  have hrest := stringsFrom_append (m.set (env.length + 6) .null) (.str s) (0 + 1) vs
    (env.length + 1) hadded
  have hlast : (m.set (env.length + 6) .null).slots (env.length + 1 + 5) = .null :=
    Function.update_self ..
  rw [hvs, stringsFrom_null _ 0 hlast, Option.map_some, List.append_nil] at hrest
  rw [handed_eq h, stringsFrom_unassigned_str 6 (slots_gap h), hrest]
  rfl

end Handed

/-! ## When the clone is right -/

theorem isVar_assign (name : List Char) (hname : NUL ∉ name) (v : CString) :
    isVar name (assign name hname v) = true :=
  List.isPrefixOf_iff_prefix.mpr (List.prefix_append _ _)

theorem isVar_lmtfVar (c : Caller) : isVar LMTF (lmtfVar c) = true := by
  unfold lmtfVar
  cases c.tempfile with
  | none => decide
  | some fname => exact isVar_assign _ _ _

/-- Every special variable is among those that are added. -/
theorem exists_added (c : Caller) (f : CString) {s : CString} (h : special s = true) :
    ∃ name ∈ [LDP, LMTF, LMPL, DIL, DFFNS], isVar name s = true ∧
      ∃ v ∈ addedVars c f, isVar name v = true := by
  simp only [special, Bool.or_eq_true] at h
  rcases h with (((h | h) | h) | h) | h
  · exact ⟨LDP, by decide, h, assign LDP (by decide) f, by simp [addedVars], isVar_assign _ _ _⟩
  · exact ⟨LMTF, by decide, h, lmtfVar c, by simp [addedVars], isVar_lmtfVar c⟩
  · exact ⟨LMPL, by decide, h, assign LMPL (by decide) f, by simp [addedVars], isVar_assign _ _ _⟩
  · exact ⟨DIL, by decide, h, assign DIL (by decide) f, by simp [addedVars], isVar_assign _ _ _⟩
  · exact ⟨DFFNS, by decide, h, dffnsDefault, by simp [addedVars], by decide⟩

/-- A variable that is set once is not set twice. -/
theorem SetOnce.not_twice {name value : List Char} {env vs : List CString} {s v : CString}
    (h : SetOnce name value (env ++ s :: vs)) (hs : isVar name s = true) (hv : v ∈ vs)
    (hname : isVar name v = true) : False := by
  have hlen := congrArg List.length h
  have hpos : 0 < (vs.filter (isVar name)).length :=
    List.length_pos_of_mem (List.mem_filter.mpr ⟨hv, hname⟩)
  rw [List.length_map, List.filter_append, List.filter_cons_of_pos hs, List.length_append,
    List.length_cons, List.length_singleton] at hlen
  omega

/-- With a string in the unassigned slot, the clone is not right: the string is a variable that
    was not there, or one of the five and set twice. -/
theorem not_rightClone_junk (c : Caller) (f : CString) (env : List CString) (s : CString) :
    ¬ RightClone c f env (env ++ s :: addedVars c f) := by
  intro h
  cases hs : special s with
  | false =>
      have hlen := congrArg List.length h.others
      rw [List.filter_append, List.filter_cons_of_pos (by simp [hs]), List.length_append,
        List.length_cons] at hlen
      omega
  | true =>
      obtain ⟨name, hname, hvar, v, hv, hvv⟩ := exists_added c f hs
      simp only [List.mem_cons, List.not_mem_nil, or_false] at hname
      rcases hname with rfl | rfl | rfl | rfl | rfl
      exacts [h.ldp.not_twice hvar hv hvv, h.lmtf.not_twice hvar hv hvv,
        h.lmpl.not_twice hvar hv hvv, h.dil.not_twice hvar hv hvv, h.dffns.not_twice hvar hv hvv]

/-- **The variables are lost.** `abort` is called, or the unassigned slot holds `NULL` and the
    environment was right already; otherwise the clone is not right. -/
theorem clonesRightly_iff {c : Caller} (hm : ∀ k, c.malloc k = true) (env : List CString)
    (junk : Junk) :
    ClonesRightly c env junk ↔
      c.preload = none ∨ junk = .null ∧ ∃ f, c.preload = some f ∧ RightClone c f env env := by
  cases hf : c.preload with
  | none =>
      refine iff_of_true (fun m pos h => ?_) (Or.inl rfl)
      obtain ⟨m', h', -⟩ := cloneEnv_abort hm hf env
      rw [h'] at h
      cases h
  | some f =>
      obtain ⟨m, pos, h, hl⟩ := cloneEnv_eq hm hf env
      constructor
      · intro hr
        obtain ⟨f', new, hf', hnew, hright, -⟩ := hr _ _ h
        rw [hf, Option.some.injEq] at hf'
        subst hf'
        cases junk with
        | null =>
            rw [handed_null hl, Option.some.injEq] at hnew
            exact Or.inr ⟨rfl, f, rfl, hnew ▸ hright⟩
        | str s =>
            rw [handed_junk hl rfl, Option.some.injEq] at hnew
            exact absurd (hnew ▸ hright) (not_rightClone_junk c f env s)
        | invalid =>
            rw [handed_invalid hl] at hnew
            cases hnew
      · rintro (hn | ⟨rfl, f', hf', hright⟩)
        · cases hn
        · intro m' pos' h'
          rw [h, Cloned.returned.injEq] at h'
          obtain ⟨rfl, -⟩ := h'
          refine ⟨f', env, hf.trans hf', handed_null hl, hright, fun m' pos' h' => ?_⟩
          rw [h, Cloned.returned.injEq] at h'
          obtain ⟨rfl, -⟩ := h'
          exact ⟨env, handed_null hl, fun _ => Iff.rfl⟩

/-- The library is not preloaded into the program. -/
theorem not_clonesRightly_empty :
    ¬ ∀ (c : Caller) (env : List CString) (junk : Junk), (∀ k, c.malloc k = true) →
      ClonesRightly c env junk := by
  intro h
  obtain ⟨f, new, -, hnew, hright, -⟩ := h plainCaller [] .null (fun _ => rfl) _ _ rfl
  have hempty : new = [] := (Option.some.inj hnew).symm
  rw [hempty] at hright
  exact absurd hright.dffns (List.cons_ne_nil _ _).symm

theorem clonesRightly_iff_two :
    ClonesRightly plainCaller twoVars .invalid ↔ plainCaller.preload = none ∨
      Junk.invalid = .null ∧ ∃ f, plainCaller.preload = some f ∧
        RightClone plainCaller f twoVars twoVars :=
  clonesRightly_iff (fun _ => rfl) twoVars .invalid

end Buildsh.Clone
