/-
  `lcode.c`: the code of a chunk; and what the code does when it is run.

  The part that table constructors need: constants (`addk`), the instructions that make a table,
  set a field and load a constant, and the two limits, on the constants and on the instructions of
  a chunk. Registers are not limited here: the texts that are read nest three constructors.

  `run` executes the code. A table is a value: none of the instructions reads a table out of a
  field again, so that no change can be seen from outside.
-/
import Mathlib
import Buildsh.Chunk.Lex

namespace Buildsh.Chunk

/-! ## Code -/

/-- `MAXARG_Bx` -/
def MAXARG_Bx : Nat := 262143

/-- `MAXINDEXRK` -/
def MAXINDEXRK : Nat := 255

/-- An operand that is a register or a constant. -/
inductive Operand where
  | reg (r : Nat)
  | const (i : Nat)
  deriving DecidableEq, Repr

inductive Instr where
  | newTable (a : Nat)
  | loadK (a bx : Nat)
  | getGlobal (a bx : Nat)
  | setTable (a : Nat) (b c : Operand)
  | ret (a b : Nat)
  deriving DecidableEq, Repr

structure FuncState where
  /-- the constants -/
  k : List LuaString
  code : List Instr
  freereg : Nat
  deriving DecidableEq, Repr

/-- `open_func` -/
def FuncState.start : FuncState := ⟨[], [], 0⟩

/-- The index of a constant, which is added if it is new. -/
def addk (fs : FuncState) (s : LuaString) : Except LoadError (FuncState × Nat) :=
  if s ∈ fs.k then .ok (fs, fs.k.idxOf s)
  else if fs.k.length < MAXARG_Bx then .ok ({ fs with k := fs.k ++ [s] }, fs.k.length)
  else .error .constantOverflow

/-- `luaK_code` -/
def emit (fs : FuncState) (i : Instr) : Except LoadError FuncState :=
  if fs.code.length < MAX_INT then .ok { fs with code := fs.code ++ [i] }
  else .error .codeOverflow

/-- `expdesc` -/
inductive ExpDesc where
  | k (info : Nat)
  | global (info : Nat)
  | nonreloc (info : Nat)
  deriving DecidableEq, Repr

def reserveReg (fs : FuncState) : FuncState := { fs with freereg := fs.freereg + 1 }

/-- `luaK_exp2anyreg` -/
def exp2anyreg (fs : FuncState) : ExpDesc → Except LoadError (FuncState × Nat)
  | .nonreloc r => .ok (fs, r)
  | .k i => do
      let fs' ← emit fs (.loadK fs.freereg i)
      return (reserveReg fs', fs.freereg)
  | .global i => do
      let fs' ← emit fs (.getGlobal fs.freereg i)
      return (reserveReg fs', fs.freereg)

/-- `luaK_exp2RK` -/
def exp2RK (fs : FuncState) (e : ExpDesc) : Except LoadError (FuncState × Operand) :=
  match e with
  | .k i =>
      if i ≤ MAXINDEXRK then .ok (fs, .const i)
      else do
        let (fs, r) ← exp2anyreg fs e
        return (fs, .reg r)
  | _ => do
      let (fs, r) ← exp2anyreg fs e
      return (fs, .reg r)

/-! ## Running the code -/

/-- A Lua value, as far as such a chunk can make one. The fields of a table stand in the order
    in which they were set first. -/
inductive Tree where
  | nil
  | str (s : LuaString)
  | table (fields : List (LuaString × Tree))

/-- `fields[ key ] = v` -/
def setField (key : LuaString) (v : Tree) :
    List (LuaString × Tree) → List (LuaString × Tree)
  | [] => [(key, v)]
  | x :: fields => if x.1 = key then (key, v) :: fields else x :: setField key v fields

abbrev Regs := Nat → Tree

section Run

variable (k : List LuaString)

def operand (regs : Regs) : Operand → Option Tree
  | .reg r => some (regs r)
  | .const i => (k[i]?).map .str

/-- One instruction other than a return. -/
def step (regs : Regs) : Instr → Option Regs
  | .newTable a => some (Function.update regs a (.table []))
  | .loadK a bx => (k[bx]?).map fun s => Function.update regs a (.str s)
  | .getGlobal a _ => some (Function.update regs a .nil)
  | .setTable a b c =>
      match regs a, operand k regs b, operand k regs c with
      | .table fields, some (.str key), some v =>
          some (Function.update regs a (.table (setField key v fields)))
      | _, _, _ => none
  | .ret _ _ => none

/-- Instructions without a return. -/
def steps : List Instr → Regs → Option Regs
  | [], regs => some regs
  | i :: l, regs => (step k regs i).bind (steps l)

/-- The values that the chunk returns. The globals that it can read are all nil. -/
def run : List Instr → Regs → Option (List Tree)
  | [], _ => none
  | .ret a b :: _, regs => some ((List.range (b - 1)).map fun i => regs (a + i))
  | i :: l, regs => (step k regs i).bind (run l)

theorem steps_append (l₁ l₂ : List Instr) (regs : Regs) :
    steps k (l₁ ++ l₂) regs = (steps k l₁ regs).bind (steps k l₂) := by
  induction l₁ generalizing regs with
  | nil => rfl
  | cons i l₁ ih =>
      rw [List.cons_append, steps, steps]
      cases step k regs i with
      | none => rfl
      | some regs' => exact ih regs'

/-- The instructions in front of a return. -/
theorem run_append {l₁ : List Instr} {regs regs' : Regs} (h : steps k l₁ regs = some regs')
    (l₂ : List Instr) : run k (l₁ ++ l₂) regs = run k l₂ regs' := by
  induction l₁ generalizing regs with
  | nil =>
      cases h
      rfl
  | cons i l₁ ih =>
      rw [steps] at h
      cases hi : step k regs i with
      | none =>
          rw [hi] at h
          cases h
      | some regs₁ =>
          rw [hi] at h
          have hrun : run k (i :: (l₁ ++ l₂)) regs = (step k regs i).bind (run k (l₁ ++ l₂)) := by
            cases i with
            | ret a b => cases hi
            | _ => rfl
          rw [List.cons_append, hrun, hi]
          exact ih h

end Run

end Buildsh.Chunk
