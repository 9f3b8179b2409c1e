/-
  `check_bytecode` of `build.lua`: the programs that a build script uses.

  The function prototypes of a script are walked instruction by instruction. Reading a global
  `$n` uses the program `n`; so does an instruction CALL directly behind a LOADK of `n` and a
  GETGLOBAL of `$`. The line of a use is what the table `gt` has for the name, and `special` says
  that a name has been used in the second way only.

  A walk is the fold of what it comes across (`checkBytecode_eq`), so what it leaves in the tables
  depends on the uses and on nothing else of the prototypes.
-/
import Buildsh.Lua
import Mathlib.Data.List.Induction

namespace Buildsh.Bytecode

/-! ## Prototypes -/

/-- A constant. Numbers are told apart, and nothing else is known of them. -/
inductive Constant where
  | nil
  | bool (b : Bool)
  | num (n : Nat)
  | str (s : LuaString)
  deriving DecidableEq, Repr

inductive OpCode where
  | move | loadk | loadbool | loadnil | getupval | getglobal | gettable | setglobal | setupval
  | settable | newtable | self | add | sub | mul | div | mod | pow | unm | not | len | concat
  | jmp | eq | lt | le | test | testset | call | tailcall | return_ | forloop | forprep
  | tforloop | setlist | close | closure | vararg
  deriving DecidableEq, Repr

/-- What `bci.getinstruction` returns. There is no line where the line information is missing, as
    in a chunk that was stripped. An operand below zero is the index of a constant. -/
structure Instruction where
  line : Option Nat
  code : OpCode
  a : Int
  b : Option Int
  c : Option Int
  deriving DecidableEq, Repr

/-- A function: its instructions, its constants, the functions in it. -/
inductive Proto where
  | mk (code : List Instruction) (k : List Constant) (p : List Proto)

namespace Proto

def code : Proto → List Instruction
  | mk code _ _ => code

def k : Proto → List Constant
  | mk _ k _ => k

def p : Proto → List Proto
  | mk _ _ p => p

end Proto

/-- `bci.getconstant` -/
def getconstant (f : Proto) (i : Int) : Option Constant :=
  if i ≤ 0 then none else f.k[i.toNat - 1]?

/-- `name`: the constant that operand B refers to, if it counts as true. -/
def nameOf (f : Proto) (i : Instruction) : Option Constant :=
  match i.b with
  | none => none
  | some const =>
      if const < 0 then
        match getconstant f (-const) with
        | some .nil | some (.bool false) => none
        | name => name
      else none

/-! ## The walk -/

/-- `gt`, `st` and `special`. -/
structure Tables where
  gt : AList fun _ : Constant => Nat
  st : AList fun _ : LuaString => Nat
  special : Constant → Bool

def Tables.empty : Tables := ⟨∅, ∅, fun _ => false⟩

/-- `t[ k ] = line` -/
def setLine {K : Type} [DecidableEq K] (t : AList fun _ : K => Nat) (k : K) :
    Option Nat → AList fun _ : K => Nat
  | none => t.erase k
  | some line => t.insert k line

@[simp] theorem lookup_setLine {K : Type} [DecidableEq K] (t : AList fun _ : K => Nat) (k k' : K)
    (line : Option Nat) : (setLine t k line).lookup k' = if k' = k then line else t.lookup k' := by
  cases line with
  | none =>
      by_cases h : k' = k
      · subst h
        simp [setLine]
      · simp [setLine, h, AList.lookup_erase_ne h]
  | some line =>
      by_cases h : k' = k
      · subst h
        simp [setLine]
      · simp [setLine, h, AList.lookup_insert_ne h]

/-- What is remembered while a function is walked. -/
structure Marks where
  lastDollar : Option Nat
  lastLoadk : Option Nat
  loadkVal : Option Constant
  deriving DecidableEq, Repr

/-- `code == "CALL" and last_loadk == i-1 and last_dollar == i-2` -/
def isDollarCall (m : Marks) (i : Nat) (ins : Instruction) : Bool :=
  ins.code = .call ∧ m.lastLoadk.map (· + 1) = some i ∧ m.lastDollar.map (· + 2) = some i

/-- One instruction. The name of a global is a string. -/
def checkInstruction (f : Proto) (i : Nat) (ins : Instruction) (m : Marks) (t : Tables) :
    Marks × Tables :=
  if isDollarCall m i ins then
    match m.loadkVal with
    | none => (m, t)
    | some loadkVal =>
        if (t.gt.lookup loadkVal).isNone then
          (m, { t with
            gt := setLine t.gt loadkVal ins.line
            special := Function.update t.special loadkVal true })
        else (m, t)
  else
    match ins.code, nameOf f ins with
    | .getglobal, some (.str name) =>
        if name = "$".toList then ({ m with lastDollar := some i }, t)
        else
          match name with
          | '$' :: n =>
              (m, { t with
                gt := setLine t.gt (.str n) ins.line
                special := Function.update t.special (.str n) false })
          | _ => (m, t)
    | .setglobal, some (.str name) => (m, { t with st := setLine t.st name ins.line })
    | .loadk, some name => ({ m with lastLoadk := some i, loadkVal := some name }, t)
    | _, _ => (m, t)

/-- The loop over the instructions, which are counted from `i`. -/
def checkInstructions (f : Proto) : Nat → List Instruction → Marks → Tables → Tables
  | _, [], _, t => t
  | i, ins :: l, m, t =>
      let s := checkInstruction f i ins m t
      checkInstructions f (i + 1) l s.1 s.2

mutual

def checkBytecode (t : Tables) : Proto → Tables
  | .mk code k p =>
      checkFunctions (checkInstructions (.mk code k p) 1 code ⟨none, none, none⟩ t) p

def checkFunctions (t : Tables) : List Proto → Tables
  | [] => t
  | f :: l => checkFunctions (checkBytecode t f) l

end

/-! ## Uses -/

/-- What the walk comes across. -/
inductive Use where
  /-- the global `$n` is read -/
  | read (n : LuaString) (line : Option Nat)
  /-- `$` is called -/
  | call (n : Constant) (line : Option Nat)
  /-- a global is assigned -/
  | assign (name : LuaString) (line : Option Nat)
  deriving DecidableEq, Repr

def Use.apply (t : Tables) : Use → Tables
  | .read n line =>
      { t with
        gt := setLine t.gt (.str n) line
        special := Function.update t.special (.str n) false }
  | .call n line =>
      if (t.gt.lookup n).isNone then
        { t with gt := setLine t.gt n line, special := Function.update t.special n true }
      else t
  | .assign name line => { t with st := setLine t.st name line }

/-- The global that an instruction reads. -/
def readsGlobal (f : Proto) (ins : Instruction) : Option LuaString :=
  match ins.code, nameOf f ins with
  | .getglobal, some (.str name) => some name
  | _, _ => none

/-- What is remembered behind an instruction. -/
def Marks.next (m : Marks) (f : Proto) (i : Nat) (ins : Instruction) : Marks :=
  if isDollarCall m i ins then m
  else
    match ins.code, nameOf f ins with
    | .getglobal, some (.str name) => if name = "$".toList then { m with lastDollar := some i } else m
    | .loadk, some name => { m with lastLoadk := some i, loadkVal := some name }
    | _, _ => m

/-- The use that an instruction is, if it is one. -/
def useOf (m : Marks) (f : Proto) (i : Nat) (ins : Instruction) : Option Use :=
  if isDollarCall m i ins then m.loadkVal.map fun n => .call n ins.line
  else
    match ins.code, nameOf f ins with
    | .getglobal, some (.str ('$' :: n)) => if n = [] then none else some (.read n ins.line)
    | .setglobal, some (.str name) => some (.assign name ins.line)
    | _, _ => none

def usesOfCode (f : Proto) : Nat → Marks → List Instruction → List Use
  | _, _, [] => []
  | i, m, ins :: l => (useOf m f i ins).toList ++ usesOfCode f (i + 1) (m.next f i ins) l

mutual

/-- The uses in a function and in those within it, in the order of the walk. -/
def uses : Proto → List Use
  | .mk code k p => usesOfCode (.mk code k p) 1 ⟨none, none, none⟩ code ++ usesOfAll p

def usesOfAll : List Proto → List Use
  | [] => []
  | f :: l => uses f ++ usesOfAll l

end

theorem getglobal_cases (name : LuaString) :
    name = "$".toList ∨ (∃ n, n ≠ [] ∧ name = '$' :: n) ∨
      (name ≠ "$".toList ∧ ∀ n, name ≠ '$' :: n) := by
  cases name with
  | nil => exact Or.inr (Or.inr ⟨by decide, by simp⟩)
  | cons c n =>
      by_cases hc : c = '$'
      · subst hc
        cases n with
        | nil => exact Or.inl rfl
        | cons d n => exact Or.inr (Or.inl ⟨d :: n, List.cons_ne_nil _ _, rfl⟩)
      · refine Or.inr (Or.inr ⟨fun h => hc (List.cons.inj h).1, fun n h => hc (List.cons.inj h).1⟩)

theorem checkInstruction_eq (f : Proto) (i : Nat) (ins : Instruction) (m : Marks) (t : Tables) :
    checkInstruction f i ins m t =
      (m.next f i ins, (useOf m f i ins).toList.foldl Use.apply t) := by
  unfold checkInstruction Marks.next useOf
  by_cases hcall : isDollarCall m i ins = true
  · rw [if_pos hcall, if_pos hcall, if_pos hcall]
    cases m.loadkVal with
    | none => rfl
    | some n =>
        change (if _ then _ else _) = (m, if _ then _ else t)
        exact (apply_ite (Prod.mk m) _ _ _).symm
  · rw [if_neg hcall, if_neg hcall, if_neg hcall]
    cases ins.code with
    | getglobal =>
        cases nameOf f ins with
        | none => rfl
        | some name =>
            cases name with
            | str name =>
                rcases getglobal_cases name with rfl | ⟨n, hn, rfl⟩ | ⟨hne, hnot⟩
                · rfl
                · simp [hn, Use.apply]
                · simp [hnot]
            | nil | bool | num => rfl
    | setglobal | loadk =>
        cases nameOf f ins with
        | none => rfl
        | some name => cases name <;> rfl
    | _ => rfl

theorem checkInstructions_eq (f : Proto) (i : Nat) (l : List Instruction) (m : Marks)
    (t : Tables) :
    checkInstructions f i l m t = (usesOfCode f i m l).foldl Use.apply t := by
  induction l generalizing i m t with
  | nil => rfl
  | cons ins l ih =>
      rw [checkInstructions, checkInstruction_eq, ih, usesOfCode, List.foldl_append]

mutual

/-- **The walk.** It is the fold of the uses that it comes across. -/
theorem checkBytecode_eq (t : Tables) :
    ∀ f, checkBytecode t f = (uses f).foldl Use.apply t
  | .mk code k p => by
      rw [checkBytecode, checkFunctions_eq, checkInstructions_eq, uses, List.foldl_append]

theorem checkFunctions_eq (t : Tables) :
    ∀ l, checkFunctions t l = (usesOfAll l).foldl Use.apply t
  | [] => rfl
  | f :: l => by
      rw [checkFunctions, checkFunctions_eq, checkBytecode_eq, usesOfAll, List.foldl_append]

end

/-! ## Reading a global -/

mutual

/-- The functions of a script, at any depth. -/
def Proto.all : Proto → List Proto
  | .mk code k p => .mk code k p :: allOf p

def allOf : List Proto → List Proto
  | [] => []
  | f :: l => f.all ++ allOf l

end

/-- Somewhere in the script, the global `$n` is read. -/
def ReadsDollar (f : Proto) (n : LuaString) (line : Option Nat) : Prop :=
  n ≠ [] ∧ ∃ g ∈ f.all, ∃ ins ∈ g.code,
    readsGlobal g ins = some ('$' :: n) ∧ ins.line = line

theorem useOf_read {m : Marks} {f : Proto} {i : Nat} {ins : Instruction} {n : LuaString}
    {line : Option Nat} :
    useOf m f i ins = some (.read n line) ↔
      n ≠ [] ∧ readsGlobal f ins = some ('$' :: n) ∧ ins.line = line := by
  unfold useOf readsGlobal isDollarCall
  cases ins.code with
  | getglobal =>
      cases nameOf f ins with
      | none => simp
      | some name =>
          cases name with
          | str name =>
              rcases getglobal_cases name with rfl | ⟨n', hn, rfl⟩ | ⟨hne, hnot⟩
              · simp [eq_comm]
                exact fun hn h => absurd h hn
              · simp [hn]
                grind
              · simp [hnot]
          | nil | bool | num => simp
  | setglobal =>
      cases nameOf f ins with
      | none => simp
      | some name => cases name <;> simp
  | call => simp
  | _ => simp

theorem read_mem_usesOfCode {f : Proto} {i : Nat} {m : Marks} {l : List Instruction}
    {n : LuaString} {line : Option Nat} :
    .read n line ∈ usesOfCode f i m l ↔
      n ≠ [] ∧ ∃ ins ∈ l, readsGlobal f ins = some ('$' :: n) ∧ ins.line = line := by
  induction l generalizing i m with
  | nil => simp [usesOfCode]
  | cons ins l ih =>
      rw [usesOfCode, List.mem_append, Option.mem_toList, ih, useOf_read]
      simp only [List.mem_cons, exists_eq_or_imp]
      tauto

mutual

theorem read_mem_uses {n : LuaString} {line : Option Nat} :
    ∀ f, .read n line ∈ uses f ↔ ReadsDollar f n line
  | .mk code k p => by
      rw [uses, List.mem_append, read_mem_usesOfCode, read_mem_usesOfAll, ReadsDollar, Proto.all]
      simp only [List.mem_cons, exists_eq_or_imp]
      exact and_or_left.symm

theorem read_mem_usesOfAll {n : LuaString} {line : Option Nat} :
    ∀ l, .read n line ∈ usesOfAll l ↔
      n ≠ [] ∧ ∃ g ∈ allOf l, ∃ ins ∈ g.code,
        readsGlobal g ins = some ('$' :: n) ∧ ins.line = line
  | [] => by simp [usesOfAll, allOf]
  | f :: l => by
      rw [usesOfAll, List.mem_append, read_mem_uses f, read_mem_usesOfAll l, ReadsDollar, allOf]
      simp only [List.mem_append, or_and_right, exists_or]
      exact and_or_left.symm

end

/-! ## What the tables say -/

section Spec

variable {l : List Use} {k : Constant}

def ReadIn (l : List Use) (k : Constant) : Prop := ∃ n line, k = .str n ∧ .read n line ∈ l

/-- Every `$n` that is read has a line. -/
def Lined (l : List Use) : Prop := ∀ n, .read n none ∉ l

def tablesOf (l : List Use) : Tables := l.foldl Use.apply Tables.empty

theorem tablesOf_concat (l : List Use) (u : Use) :
    tablesOf (l ++ [u]) = Use.apply (tablesOf l) u := by
  unfold tablesOf
  rw [List.foldl_append]
  rfl

theorem readIn_concat {u : Use} :
    ReadIn (l ++ [u]) k ↔ ReadIn l k ∨ ∃ n line, k = .str n ∧ u = .read n line := by
  unfold ReadIn
  simp only [List.mem_append, List.mem_singleton, and_or_left, exists_or, eq_comm (b := u)]

/-- The names in `gt`. -/
theorem isSome_gt (h : Lined l) :
    ((tablesOf l).gt.lookup k).isSome ↔ ReadIn l k ∨ ∃ line, .call k (some line) ∈ l := by
  induction l using List.reverseRecOn with
  | nil => simp [tablesOf, Tables.empty, ReadIn]
  | append_singleton l u ih =>
      have hl : Lined l := fun n hn => h n (List.mem_append_left _ hn)
      rw [tablesOf_concat, readIn_concat]
      have ih := ih hl
      cases u with
      | assign name line => simpa [Use.apply] using ih
      | read n line =>
          have hline : line ≠ none := by
            rintro rfl
            exact h n (by simp)
          by_cases hk : k = .str n
          · simp [Use.apply, hk, Option.isSome_iff_ne_none, hline]
          · simp [Use.apply, hk, ih]
      | call n line =>
          cases hn : (tablesOf l).gt.lookup n with
          | none =>
              by_cases hk : k = n
              · subst hk
                have hnot : ¬ (ReadIn l k ∨ ∃ line, .call k (some line) ∈ l) := fun hin => by
                  rw [hn] at ih
                  cases ih.mpr hin
                cases line with
                | none => simpa [Use.apply, hn] using hnot
                | some line => simp [Use.apply, hn]
              · simp [Use.apply, hn, hk, ih]
          | some old =>
              by_cases hk : k = n
              · subst hk
                have hin := ih.mp (by rw [hn]; rfl)
                refine iff_of_true (by simp [Use.apply, hn]) (hin.imp Or.inl ?_)
                exact fun ⟨line, hline⟩ => ⟨line, List.mem_append_left _ hline⟩
              · simp [Use.apply, hn, hk, ih]

/-- The names in `special`. -/
theorem special_eq (h : Lined l) :
    (tablesOf l).special k = true ↔ ¬ ReadIn l k ∧ ∃ line, .call k line ∈ l := by
  induction l using List.reverseRecOn with
  | nil => simp [tablesOf, Tables.empty]
  | append_singleton l u ih =>
      have hl : Lined l := fun n hn => h n (List.mem_append_left _ hn)
      rw [tablesOf_concat, readIn_concat]
      have ih := ih hl
      cases u with
      | assign name line => simpa [Use.apply] using ih
      | read n line =>
          by_cases hk : k = .str n
          · simp [Use.apply, hk]
          · simp [Use.apply, hk, ih]
      | call n line =>
          cases hn : (tablesOf l).gt.lookup n with
          | none =>
              by_cases hk : k = n
              · subst hk
                have hread : ¬ ReadIn l k := fun hread => by
                  have hsome := (isSome_gt hl).mpr (Or.inl hread)
                  rw [hn] at hsome
                  cases hsome
                simpa [Use.apply, hn] using hread
              · simp [Use.apply, hn, hk, ih]
          | some old =>
              by_cases hk : k = n
              · subst hk
                -- a name that is in `gt` was read, or it is in `special`
                rcases (isSome_gt hl).mp (by rw [hn]; rfl) with hread | ⟨line', hline'⟩
                · simp [Use.apply, hn, ih, hread]
                · have hcall : ∃ line, .call k line ∈ l := ⟨_, hline'⟩
                  simp [Use.apply, hn, ih, hcall]
              · simp [Use.apply, hn, hk, ih]

/-- What is no string cannot have been read. -/
theorem special_of_not_str (hk : ∀ n, k ≠ .str n)
    (h : ((tablesOf l).gt.lookup k).isSome = true) : (tablesOf l).special k = true := by
  induction l using List.reverseRecOn with
  | nil => cases h
  | append_singleton l u ih =>
      rw [tablesOf_concat] at h ⊢
      cases u with
      | assign name line => exact ih h
      | read n line =>
          simp only [Use.apply, lookup_setLine, if_neg (hk n)] at h
          simpa [Use.apply, hk n] using ih h
      | call n line =>
          cases hn : (tablesOf l).gt.lookup n with
          | some old =>
              simp only [Use.apply, hn, Option.isNone_some, Bool.false_eq_true, if_false] at h ⊢
              exact ih h
          | none =>
              by_cases hkn : k = n
              · simp [Use.apply, hn, hkn]
              · simp only [Use.apply, hn, Option.isNone_none, if_true, lookup_setLine,
                  if_neg hkn] at h
                simpa [Use.apply, hn, hkn] using ih h

/-- The tables of a script. -/
def tables (f : Proto) : Tables := checkBytecode Tables.empty f

theorem tables_eq (f : Proto) : tables f = tablesOf (uses f) := checkBytecode_eq _ _

theorem lined_uses {f : Proto} (h : ∀ n line, ReadsDollar f n line → line ≠ none) :
    Lined (uses f) := fun n hn => h n none ((read_mem_uses f).mp hn) rfl

/-- A script, with a function behind it that reads `$n`. -/
def Proto.thenRead (f : Proto) (n : LuaString) (line : Option Nat) : Proto :=
  .mk [] [] [f, .mk [⟨line, .getglobal, 0, some (-1), none⟩] [.str ('$' :: n)] []]

theorem uses_thenRead (f : Proto) {n : LuaString} (hn : n ≠ []) (line : Option Nat) :
    uses (f.thenRead n line) = uses f ++ [.read n line] := by
  simp [Proto.thenRead, uses, usesOfAll, usesOfCode, useOf, isDollarCall, nameOf, getconstant,
    Proto.k, hn]

end Spec

end Buildsh.Bytecode
