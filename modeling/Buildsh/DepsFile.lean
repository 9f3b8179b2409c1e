/-
  `build.lua`: the file `.deps.lua`.

  `saveDeps` is the text that `save_deps` writes, and `loadDeps` what `load_deps` makes of a text:
  the text is compiled and run, and what goes wrong gives the empty table. The tables that
  `make.run` makes are those of `Records`: commands have records, and a record has two tables of
  file names and their hashes.

  `loadDeps_saveDeps_iff`: such a table is read back if its text is within the limits of a chunk
  (`Limits`), and only then. `loadDeps_torn`: of a text that breaks off, the whole table is read
  or nothing.
-/
import Buildsh.Build
import Buildsh.Chunk.Exec

namespace Buildsh.DepsFile
open Buildsh.Build Buildsh.Chunk

/-! ## Writing -/

/-- One line of a table of hashes. -/
def hashText (x : Sigma fun _ : Value => Value) : LuaString :=
  match x.1, x.2 with
  | .str fn, .str h =>
      "      [ ".toList ++ addquoted fn ++ " ] = ".toList ++ addquoted h ++ ",\n".toList
  | _, _ => []

/-- One of the two tables of a record. -/
def ioText (name : LuaString) : Option Io → LuaString
  | none => []
  | some io =>
      "    ".toList ++ name ++ " = \x7b\n".toList ++ io.entries.flatMap hashText ++ "    \x7d,\n".toList

def entryText (x : Sigma fun _ : Value => Entry) : LuaString :=
  match x.1, x.2 with
  | .str k, .table input output =>
      "  [ ".toList ++ addquoted k ++ " ] = \x7b\n".toList ++ ioText "input".toList input ++
        ioText "output".toList output ++ "  \x7d,\n".toList
  | _, _ => []

/-- `save_deps`, where the file can be opened. -/
def saveDeps (deps : DepsTable) : LuaString :=
  "return \x7b\n".toList ++ deps.entries.flatMap entryText ++ "\x7d\n".toList

/-! ## Reading -/

/-- A field of a table; one that was set to nil is none. -/
def toValue : Tree → Option Value
  | .nil => none
  | .str s => some (.str s)
  | .table _ => some (.other 0)

def toIo (fields : List (LuaString × Tree)) : Io :=
  (fields.filterMap fun x => (toValue x.2).map fun v => (⟨.str x.1, v⟩ : Sigma fun _ => _)).toAList

/-- `t[ name ]` -/
def fieldOf (name : LuaString) (fields : List (LuaString × Tree)) : Tree :=
  ((fields.find? fun x => x.1 = name).map (·.2)).getD .nil

def ioOf : Tree → Option Io
  | .table fields => some (toIo fields)
  | _ => none

def toEntry : Tree → Option Entry
  | .nil => none
  | .str s => some (.other (.str s))
  | .table fields =>
      some (.table (ioOf (fieldOf "input".toList fields)) (ioOf (fieldOf "output".toList fields)))

def toDeps (fields : List (LuaString × Tree)) : DepsTable :=
  (fields.filterMap fun x => (toEntry x.2).map fun v => (⟨.str x.1, v⟩ : Sigma fun _ => _)).toAList

/-- What `pcall` returns, where a chunk that fails or returns no table counts as the empty one. -/
def returned : Option (List Tree) → DepsTable
  | some (.table fields :: _) => toDeps fields
  | _ => ∅

/-- `load_deps`, for a file that is missing or has this text, without the handler for the exit.
    `none` stands for what Lua makes of a text that is not modelled. -/
def loadDeps : Option LuaString → Option DepsTable
  | none => some ∅
  | some text =>
      match loadfile text with
      | .error .outside => none
      | .error _ => some ∅
      | .ok fs => some (returned (run fs.k fs.code Regs.start))

/-! ## Records -/

/-- File names with their hashes. -/
abbrev Hashes := AList (fun _ : LuaString => LuaString)

/-- What `make.run` stores under a command. -/
structure Record where
  input : Hashes
  output : Hashes

/-- The tables that `make.run` makes. -/
abbrev Records := AList (fun _ : LuaString => Record)

theorem nodupKeys_str {β γ : Type} {l : List (Sigma fun _ : LuaString => β)} (h : l.NodupKeys)
    (f : β → γ) :
    (l.map fun x => (⟨.str x.1, f x.2⟩ : Sigma fun _ : Value => γ)).NodupKeys := by
  have hkeys : (l.map fun x => (⟨.str x.1, f x.2⟩ : Sigma fun _ : Value => γ)).keys =
      l.keys.map .str := by
    unfold List.keys
    rw [List.map_map, List.map_map]
    rfl
  unfold List.NodupKeys at h ⊢
  rw [hkeys]
  exact h.map fun a b hab => by cases hab; rfl

/-- The table of a record, as a Lua table. -/
def Hashes.io (t : Hashes) : Io where
  entries := t.entries.map fun x => ⟨.str x.1, .str x.2⟩
  nodupKeys := nodupKeys_str t.nodupKeys _

def Record.entry (r : Record) : Entry := .table (some r.input.io) (some r.output.io)

def Records.deps (R : Records) : DepsTable where
  entries := R.entries.map fun x => ⟨.str x.1, x.2.entry⟩
  nodupKeys := nodupKeys_str R.nodupKeys _

/-- The strings of a table, in the order in which they are written. -/
def Hashes.strings (t : Hashes) : List LuaString := t.entries.flatMap fun x => [x.1, x.2]

def Record.strings (r : Record) : List LuaString :=
  "input".toList :: (r.input.strings ++ "output".toList :: r.output.strings)

def Records.strings (R : Records) : List LuaString :=
  R.entries.flatMap fun x => x.1 :: x.2.strings

/-- The number of hashes. -/
def Records.hashCount (R : Records) : Nat :=
  (R.entries.map fun x => x.2.input.entries.length + x.2.output.entries.length).sum

/-- The strings that need an instruction of their own. -/
def Records.loadCount (R : Records) : Nat :=
  (R.strings.map (loads (constants R.strings))).sum

/-- The limits of a chunk: on the constants, on the instructions and on the lines. A record takes
    six instructions and six lines, a hash one of each. -/
structure Limits (R : Records) : Prop where
  constants : (constants R.strings).length ≤ MAXARG_Bx
  instructions : 3 + 6 * R.entries.length + R.hashCount + R.loadCount ≤ MAX_INT
  lines : 3 + 6 * R.entries.length + R.hashCount + (R.strings.map newlines).sum < MAX_INT

/-! ## Literals with a list of fields -/

/-- The fields in this order. -/
def fieldsOf : List (Key × Lit) → Fields
  | [] => .nil
  | x :: l => .cons x.1 x.2 (fieldsOf l)

mutual

/-- The instructions for the tables and for their fields. -/
def nodes : Lit → Nat
  | .str _ => 0
  | .table fields => 1 + nodesOf fields

def nodesOf : Fields → Nat
  | .nil => 0
  | .cons _ v fields => nodes v + 1 + nodesOf fields

end

mutual

theorem size_eq_nodes (k : List LuaString) : ∀ v : Lit,
    v.size k = nodes v + (v.operands.map (loads k)).sum
  | .str s => by simp [Lit.size, nodes, Lit.operands]
  | .table fields => by
      rw [Lit.size, nodes, Lit.operands, size_eq_nodesOf k fields, Nat.add_assoc]

theorem size_eq_nodesOf (k : List LuaString) : ∀ fields : Fields,
    fields.size k = nodesOf fields + (fields.operands.map (loads k)).sum
  | .nil => rfl
  | .cons key v fields => by
      rw [Fields.size, nodesOf, Fields.operands, size_eq_nodes k v, size_eq_nodesOf k fields]
      simp
      omega

end

section FieldsOf

variable (l : List (Key × Lit))

theorem toks_fieldsOf : (fieldsOf l).toks =
    l.flatMap fun x =>
      x.1.first :: (x.1.others ++ .char '=' :: (x.2.toks ++ [Token.char ','])) := by
  induction l with
  | nil => rfl
  | cons x l ih => simp [fieldsOf, Fields.toks, ih, Lit.toks]

theorem operands_fieldsOf :
    (fieldsOf l).operands = l.flatMap fun x => x.1.str :: x.2.operands := by
  induction l with
  | nil => rfl
  | cons x l ih => simp [fieldsOf, Fields.operands, ih]

theorem nodes_fieldsOf : nodesOf (fieldsOf l) = (l.map fun x => nodes x.2 + 1).sum := by
  induction l with
  | nil => rfl
  | cons x l ih => simp [fieldsOf, nodesOf, ih]

theorem setField_new {key : LuaString} {prev : List (LuaString × Tree)}
    (h : key ∉ prev.map (·.1)) (v : Tree) : setField key v prev = prev ++ [(key, v)] := by
  induction prev with
  | nil => rfl
  | cons x prev ih =>
      rw [List.map_cons, List.mem_cons, not_or] at h
      rw [setField, if_neg (Ne.symm h.1), ih h.2]
      rfl

/-- Fields with different keys stand in the table as they are written. -/
theorem fill_fieldsOf {prev : List (LuaString × Tree)}
    (h : (prev.map (·.1) ++ l.map (·.1.str)).Nodup) :
    (fieldsOf l).fill prev = prev ++ l.map fun x => (x.1.str, x.2.tree) := by
  induction l generalizing prev with
  | nil => simp [fieldsOf, Fields.fill]
  | cons x l ih =>
      have hnew : x.1.str ∉ prev.map (·.1) := by
        intro hmem
        rw [List.nodup_append] at h
        exact h.2.2 _ hmem _ (by simp) rfl
      rw [fieldsOf, Fields.fill, setField_new hnew, ih (by simpa using h)]
      simp

end FieldsOf

/-! ## The literal of a table -/

def Hashes.fields (t : Hashes) : Fields :=
  fieldsOf (t.entries.map fun x => (.bracket x.1, .str x.2))

def Record.lit (r : Record) : Lit :=
  .table (fieldsOf [(.ident "input".toList, .table r.input.fields),
    (.ident "output".toList, .table r.output.fields)])

def Records.fields (R : Records) : Fields :=
  fieldsOf (R.entries.map fun x => (.bracket x.1, x.2.lit))

theorem operands_hashes (t : Hashes) : t.fields.operands = t.strings := by
  rw [Hashes.fields, operands_fieldsOf, List.flatMap_map]
  rfl

theorem operands_record (r : Record) : r.lit.operands = r.strings := by
  rw [Record.lit, Lit.operands, operands_fieldsOf]
  simp [Lit.operands, operands_hashes, Record.strings, Key.str]

theorem operands_records (R : Records) : R.fields.operands = R.strings := by
  rw [Records.fields, operands_fieldsOf, List.flatMap_map]
  simp only [operands_record]
  rfl

theorem nodes_hashes (t : Hashes) : nodesOf t.fields = t.entries.length := by
  rw [Hashes.fields, nodes_fieldsOf, List.map_map]
  simp [Function.comp_def, nodes]

theorem nodes_record (r : Record) :
    nodes r.lit = 5 + (r.input.entries.length + r.output.entries.length) := by
  rw [Record.lit, nodes, nodes_fieldsOf]
  simp [nodes, nodes_hashes]
  omega

theorem nodes_records (R : Records) :
    nodesOf R.fields = 6 * R.entries.length + R.hashCount := by
  rw [Records.fields, nodes_fieldsOf, List.map_map, Records.hashCount]
  simp only [Function.comp_def, nodes_record]
  induction R.entries with
  | nil => rfl
  | cons x l ih =>
      simp only [List.map_cons, List.sum_cons, List.length_cons, ih]
      omega

/-- Entries with different keys are a table as they are. -/
theorem dedupKeys_eq_self {β : Type} {l : List (Sigma fun _ : Value => β)} (h : l.NodupKeys) :
    l.dedupKeys = l := by
  induction l with
  | nil => rfl
  | cons x l ih =>
      rw [List.nodupKeys_cons] at h
      rw [List.dedupKeys_cons, ih h.2, List.kinsert_def, List.kerase_of_notMem_keys h.1]

theorem toAList_entries {β : Type} (t : AList (fun _ : Value => β)) : t.entries.toAList = t :=
  AList.ext (dedupKeys_eq_self t.nodupKeys)

/-- Fields with the keys of a table are filled in as they are written. -/
theorem fill_entries {β : Type} (t : AList (fun _ : LuaString => β)) (f : β → Lit) :
    (fieldsOf (t.entries.map fun x => (.bracket x.1, f x.2))).fill [] =
      t.entries.map fun x => (x.1, (f x.2).tree) := by
  have hkeys : (t.entries.map fun x => (Key.bracket x.1, f x.2)).map (·.1.str) = t.keys := by
    rw [List.map_map]
    rfl
  rw [fill_fieldsOf _ (by rw [hkeys]; exact t.nodupKeys), List.map_map]
  rfl

theorem toIo_hashes (t : Hashes) : toIo (t.fields.fill []) = t.io := by
  have hio : toIo (t.fields.fill []) = t.io.entries.toAList := by
    rw [Hashes.fields, fill_entries t .str, toIo, List.filterMap_map]
    congr 1
    exact congrFun List.filterMap_eq_map _
  rw [hio, toAList_entries]

theorem toEntry_record (r : Record) : toEntry r.lit.tree = some r.entry := by
  have hfill : (fieldsOf [(.ident "input".toList, .table r.input.fields),
      (.ident "output".toList, .table r.output.fields)]).fill [] =
        [("input".toList, .table (r.input.fields.fill [])),
          ("output".toList, .table (r.output.fields.fill []))] := by
    have hkeys : ["input".toList, "output".toList].Nodup := by decide +kernel
    refine (fill_fieldsOf [(.ident "input".toList, .table r.input.fields),
      (.ident "output".toList, .table r.output.fields)] ?_).trans rfl
    exact hkeys
  have hne : ("input".toList = "output".toList) = False := by decide +kernel
  rw [Record.lit, Lit.tree, toEntry, hfill]
  simp only [fieldOf, List.find?_cons, hne, decide_false, decide_true,
    Option.map_some, Option.getD_some, ioOf, toIo_hashes]
  rfl

/-- **Values.** The literal has the value that was written. -/
theorem toDeps_records (R : Records) : toDeps (R.fields.fill []) = R.deps := by
  have hdeps : toDeps (R.fields.fill []) = R.deps.entries.toAList := by
    rw [Records.fields, fill_entries R Record.lit, toDeps, List.filterMap_map]
    congr 1
    simp only [Function.comp_def, toEntry_record]
    exact congrFun List.filterMap_eq_map _
  rw [hdeps, toAList_entries]

/-! ## The text of a table -/

def blanks (n : Nat) : List Atom := List.replicate n .blank

def hashAtoms (fn h : LuaString) : List Atom :=
  blanks 6 ++ ([.spaced '[', .quoted fn, .blank, .sole ']', .blank, .spaced '=', .quoted h,
    .sole ',', .newline] : List Atom)

/-- The end of a table within a table. -/
def closeAtoms (n : Nat) : List Atom :=
  blanks n ++ ([.sole '}', .sole ',', .newline] : List Atom)

def Hashes.atoms (t : Hashes) (name : LuaString) : List Atom :=
  blanks 4 ++ ([.word name, .spaced '=', .sole '{', .newline] : List Atom) ++
    t.entries.flatMap (fun x => hashAtoms x.1 x.2) ++ closeAtoms 4

def Record.atoms (r : Record) (cmd : LuaString) : List Atom :=
  blanks 2 ++ ([.spaced '[', .quoted cmd, .blank, .sole ']', .blank, .spaced '=', .sole '{',
    .newline] : List Atom) ++ r.input.atoms "input".toList ++ r.output.atoms "output".toList ++ closeAtoms 2

def Records.atoms (R : Records) : List Atom :=
  ([.word "return".toList, .sole '{', .newline] : List Atom) ++
    R.entries.flatMap (fun x => x.2.atoms x.1) ++ ([.sole '}', .newline] : List Atom)

section Atoms

@[simp] theorem textOf_append (l₁ l₂ : List Atom) : textOf (l₁ ++ l₂) = textOf l₁ ++ textOf l₂ := by
  simp [textOf]

@[simp] theorem toksOf_append (l₁ l₂ : List Atom) : toksOf (l₁ ++ l₂) = toksOf l₁ ++ toksOf l₂ := by
  simp [toksOf]

@[simp] theorem linesOf_append (l₁ l₂ : List Atom) :
    linesOf (l₁ ++ l₂) = linesOf l₁ + linesOf l₂ := by
  simp [linesOf]

theorem textOf_flatMap {α : Type} (l : List α) (f : α → List Atom) :
    textOf (l.flatMap f) = l.flatMap fun x => textOf (f x) := by
  simp [textOf, List.flatMap_assoc]

theorem toksOf_flatMap {α : Type} (l : List α) (f : α → List Atom) :
    toksOf (l.flatMap f) = l.flatMap fun x => toksOf (f x) := by
  simp [toksOf, List.flatMap_assoc]

theorem linesOf_flatMap {α : Type} (l : List α) (f : α → List Atom) :
    linesOf (l.flatMap f) = (l.map fun x => linesOf (f x)).sum := by
  induction l with
  | nil => rfl
  | cons x l ih => simp [ih]

@[simp] theorem toksOf_blanks (n : Nat) : toksOf (blanks n) = [] := by
  induction n with
  | zero => rfl
  | succ n ih => exact ih

@[simp] theorem linesOf_blanks (n : Nat) : linesOf (blanks n) = 0 := by
  simp [linesOf, blanks, Atom.lines]

theorem textOf_hash (fn h : LuaString) :
    textOf (hashAtoms fn h) = hashText ⟨.str fn, .str h⟩ := by
  simp [textOf, hashAtoms, blanks, Atom.text, hashText]

theorem textOf_hashes (t : Hashes) (name : LuaString) :
    textOf (t.atoms name) = ioText name (some t.io) := by
  have hlines : t.io.entries.flatMap hashText =
      t.entries.flatMap fun x => textOf (hashAtoms x.1 x.2) := by
    simp only [textOf_hash]
    exact List.flatMap_map ..
  change textOf (t.atoms name) = "    ".toList ++ name ++ " = \x7b\n".toList ++
    t.io.entries.flatMap hashText ++ "    \x7d,\n".toList
  rw [hlines, Hashes.atoms, textOf_append, textOf_append, textOf_flatMap]
  simp [textOf, closeAtoms, blanks, Atom.text]

theorem textOf_record (r : Record) (cmd : LuaString) :
    textOf (r.atoms cmd) = entryText ⟨.str cmd, r.entry⟩ := by
  simp only [Record.atoms, textOf_append, textOf_hashes]
  simp [textOf, closeAtoms, blanks, Atom.text, entryText, Record.entry]

theorem saveDeps_records (R : Records) : saveDeps R.deps = textOf R.atoms := by
  have hlines : (R.entries.flatMap fun x => textOf (x.2.atoms x.1)) =
      R.deps.entries.flatMap entryText := by
    simp only [textOf_record]
    exact (List.flatMap_map ..).symm
  have hopen : textOf [.word "return".toList, .sole '{', .newline] = "return \x7b\n".toList := by
    simp [textOf, Atom.text]
  have hclose : textOf [.sole '}', .newline] = "\x7d\n".toList := by simp [textOf, Atom.text]
  symm
  calc textOf R.atoms
      = textOf [.word "return".toList, .sole '{', .newline] ++
          (R.entries.flatMap fun x => textOf (x.2.atoms x.1)) ++
            textOf [.sole '}', .newline] := by
        rw [Records.atoms, textOf_append, textOf_append, textOf_flatMap]
    _ = saveDeps R.deps := by
        rw [hopen, hlines, hclose]
        rfl

theorem toksOf_hash (fn h : LuaString) : toksOf (hashAtoms fn h) =
    (Key.bracket fn).first :: ((Key.bracket fn).others ++
      .char '=' :: ((Lit.str h).toks ++ [Token.char ','])) := by
  simp [hashAtoms, toksOf, blanks, Atom.toks, Key.first, Key.others, Lit.toks,
    Lit.first, Lit.others]

theorem toksOf_close (n : Nat) : toksOf (closeAtoms n) = [.char '}', .char ','] := by
  simp [closeAtoms, toksOf, blanks, Atom.toks]

theorem toksOf_hashes (t : Hashes) {w : LuaString} (hw : wordToken w = .name w) :
    toksOf (t.atoms w) = .name w :: .char '=' ::
      ((Lit.table t.fields).toks ++ [Token.char ',']) := by
  have hopen : toksOf (blanks 4 ++ ([.word w, .spaced '=', .sole '{', .newline] : List Atom)) =
      [.name w, .char '=', .char '{'] := by
    simp [toksOf, blanks, Atom.toks, hw]
  rw [Hashes.atoms, toksOf_append, toksOf_append, toksOf_flatMap, hopen, toksOf_close, Lit.toks,
    Lit.others, Lit.first, Hashes.fields, toks_fieldsOf, List.flatMap_map]
  simp [toksOf_hash]

theorem toksOf_record (r : Record) (cmd : LuaString) : toksOf (r.atoms cmd) =
    (Key.bracket cmd).first :: ((Key.bracket cmd).others ++
      .char '=' :: (r.lit.toks ++ [Token.char ','])) := by
  have hinput : wordToken "input".toList = .name "input".toList := by decide +kernel
  have houtput : wordToken "output".toList = .name "output".toList := by decide +kernel
  have hopen : toksOf (blanks 2 ++ ([.spaced '[', .quoted cmd, .blank, .sole ']', .blank,
      .spaced '=', .sole '{', .newline] : List Atom)) =
        [.char '[', .string cmd, .char ']', .char '=', .char '{'] := by
    simp [toksOf, blanks, Atom.toks]
  rw [Record.atoms, toksOf_append, toksOf_append, toksOf_append, hopen,
    toksOf_hashes r.input hinput, toksOf_hashes r.output houtput, toksOf_close, Record.lit]
  simp [Lit.toks, Lit.others, Lit.first, toks_fieldsOf, Key.first, Key.others]

/-- **Tokens.** The text has the tokens of the literal. -/
theorem toksOf_records (R : Records) : toksOf R.atoms = returnToks R.fields := by
  have hopen : toksOf [.word "return".toList, .sole '{', .newline] =
      [wordToken "return".toList, .char '{'] := rfl
  have hclose : toksOf [.sole '}', .newline] = [.char '}'] := rfl
  rw [Records.atoms, toksOf_append, toksOf_append, toksOf_flatMap, hopen, hclose, returnToks,
    Lit.toks, Lit.first, Lit.others, Records.fields, toks_fieldsOf, List.flatMap_map]
  simp [toksOf_record]

theorem linesOf_hash (fn h : LuaString) :
    linesOf (hashAtoms fn h) = newlines fn + newlines h + 1 := by
  simp [hashAtoms, linesOf, blanks, Atom.lines, Nat.add_assoc]

theorem linesOf_close (n : Nat) : linesOf (closeAtoms n) = 1 := by
  simp [closeAtoms, linesOf, blanks, Atom.lines]

theorem linesOf_hashes (t : Hashes) (name : LuaString) :
    linesOf (t.atoms name) = 2 + t.entries.length + (t.strings.map newlines).sum := by
  have hopen : linesOf (blanks 4 ++
      ([.word name, .spaced '=', .sole '{', .newline] : List Atom)) = 1 := by
    simp [linesOf, blanks, Atom.lines]
  have hsum : (t.entries.map fun x => linesOf (hashAtoms x.1 x.2)).sum =
      t.entries.length + (t.strings.map newlines).sum := by
    unfold Hashes.strings
    induction t.entries with
    | nil => rfl
    | cons x l ih =>
        rw [List.map_cons, List.sum_cons, ih, linesOf_hash]
        simp only [List.map_cons, List.sum_cons, List.length_cons, List.flatMap_cons,
          List.map_append, List.sum_append, List.map_nil, List.sum_nil]
        omega
  rw [Hashes.atoms, linesOf_append, linesOf_append, linesOf_flatMap, hopen, hsum, linesOf_close]
  omega

theorem linesOf_record (r : Record) (cmd : LuaString) :
    linesOf (r.atoms cmd) = 6 + (r.input.entries.length + r.output.entries.length) +
      (newlines cmd + (r.strings.map newlines).sum) := by
  have hopen : linesOf (blanks 2 ++ ([.spaced '[', .quoted cmd, .blank, .sole ']', .blank,
      .spaced '=', .sole '{', .newline] : List Atom)) = newlines cmd + 1 := by
    simp [linesOf, blanks, Atom.lines]
  have hinput : newlines "input".toList = 0 := by decide +kernel
  have houtput : newlines "output".toList = 0 := by decide +kernel
  rw [Record.atoms, linesOf_append, linesOf_append, linesOf_append, hopen, linesOf_hashes,
    linesOf_hashes, linesOf_close, Record.strings]
  simp only [List.map_cons, List.map_append, List.sum_cons, List.sum_append, hinput, houtput]
  omega

theorem linesOf_records (R : Records) : linesOf R.atoms =
    2 + 6 * R.entries.length + R.hashCount + (R.strings.map newlines).sum := by
  have hsum : (R.entries.map fun x => linesOf (x.2.atoms x.1)).sum =
      6 * R.entries.length + R.hashCount + (R.strings.map newlines).sum := by
    unfold Records.strings Records.hashCount
    induction R.entries with
    | nil => rfl
    | cons x l ih =>
        rw [List.map_cons, List.sum_cons, ih, linesOf_record]
        simp only [List.map_cons, List.sum_cons, List.length_cons, List.flatMap_cons,
          List.map_append, List.sum_append]
        omega
  have hopen : linesOf [.word "return".toList, .sole '{', .newline] = 1 := rfl
  have hclose : linesOf [.sole '}', .newline] = 1 := rfl
  rw [Records.atoms, linesOf_append, linesOf_append, linesOf_flatMap, hopen, hclose, hsum]
  omega

theorem ok_blanks (n : Nat) : ∀ a ∈ blanks n, a.Ok := by
  intro a ha
  rw [List.eq_of_mem_replicate ha]
  trivial

theorem ok_close (n : Nat) : ∀ a ∈ closeAtoms n, a.Ok :=
  List.forall_mem_append.mpr ⟨ok_blanks n, by simp [Atom.Ok]⟩

theorem ok_hash (fn h : LuaString) : ∀ a ∈ hashAtoms fn h, a.Ok :=
  List.forall_mem_append.mpr ⟨ok_blanks 6, by simp [Atom.Ok]⟩

theorem ok_hashes (t : Hashes) {name : LuaString}
    (hname : name ∈ ["return".toList, "input".toList, "output".toList]) :
    ∀ a ∈ t.atoms name, a.Ok := by
  have hopen : ∀ a ∈ blanks 4 ++ ([.word name, .spaced '=', .sole '{', .newline] : List Atom),
      a.Ok :=
    List.forall_mem_append.mpr ⟨ok_blanks 4, by simpa [Atom.Ok] using hname⟩
  refine List.forall_mem_append.mpr ⟨List.forall_mem_append.mpr ⟨hopen, ?_⟩, ok_close 4⟩
  intro a ha
  obtain ⟨x, -, hx⟩ := List.mem_flatMap.mp ha
  exact ok_hash x.1 x.2 a hx

theorem ok_record (r : Record) (cmd : LuaString) : ∀ a ∈ r.atoms cmd, a.Ok := by
  have hopen : ∀ a ∈ blanks 2 ++ ([.spaced '[', .quoted cmd, .blank, .sole ']', .blank,
      .spaced '=', .sole '{', .newline] : List Atom), a.Ok :=
    List.forall_mem_append.mpr ⟨ok_blanks 2, by simp [Atom.Ok]⟩
  have hinput : ∀ a ∈ r.input.atoms "input".toList, a.Ok := ok_hashes _ (by simp)
  have houtput : ∀ a ∈ r.output.atoms "output".toList, a.Ok := ok_hashes _ (by simp)
  simp only [Record.atoms, List.forall_mem_append]
  exact ⟨⟨⟨List.forall_mem_append.mp hopen, hinput⟩, houtput⟩, ok_close 2⟩

theorem ok_records (R : Records) : ∀ a ∈ R.atoms, a.Ok := by
  refine List.forall_mem_append.mpr ⟨List.forall_mem_append.mpr ⟨?_, ?_⟩, ?_⟩
  · simp [Atom.Ok]
  · intro a ha
    obtain ⟨x, -, hx⟩ := List.mem_flatMap.mp ha
    exact ok_record x.2 x.1 a hx
  · simp [Atom.Ok]

end Atoms

/-! ## Round trip -/

section RoundTrip

variable (R : Records)

theorem fits_records : (returnCode R.fields).Fits ↔
    (constants R.strings).length ≤ MAXARG_Bx ∧
      3 + 6 * R.entries.length + R.hashCount + R.loadCount ≤ MAX_INT := by
  have hsize : (Lit.table R.fields).size (constants R.strings) =
      1 + 6 * R.entries.length + R.hashCount + R.loadCount := by
    rw [size_eq_nodes, nodes, nodes_records, Lit.operands, operands_records, Records.loadCount]
    omega
  rw [fits_return, operands_records, hsize]
  refine and_congr_right fun _ => ?_
  omega

/-- No text of these begins like a file that `luaL_loadfile` treats in another way. -/
theorem loadfile_torn {p : LuaString} (hp : p <+: saveDeps R.deps) :
    loadfile p = luaYParser (tokensOf p) := by
  have hhead : p = [] ∨ p.head? = some 'r' := by
    cases p with
    | nil => exact Or.inl rfl
    | cons c p =>
        obtain ⟨t, ht⟩ := hp
        have hc : (c :: p ++ t).head? = some 'r' := by
          rw [ht]
          rfl
        exact Or.inr hc
  rw [loadfile, if_neg]
  rcases hhead with rfl | h
  · simp
  · simp [h]

theorem loadDeps_fails {p : LuaString} (h : Fails (loadfile p)) : loadDeps (some p) = some ∅ := by
  obtain ⟨e, he, hload⟩ := h
  unfold loadDeps
  dsimp only
  rw [hload]
  cases e with
  | outside => exact absurd rfl he
  | _ => rfl

theorem loadDeps_runs {p : LuaString} {fs : FuncState} (h : loadfile p = .ok fs) :
    loadDeps (some p) = some (returned (run fs.k fs.code Regs.start)) := by
  unfold loadDeps
  dsimp only
  rw [h]

/-- A text that breaks off is read as the empty table. -/
theorem loadDeps_cut {p : LuaString} (hp : p <+: saveDeps R.deps)
    (h : Cut (returnToks R.fields ++ [Token.eos]) (tokensOf p)) :
    loadDeps (some p) = some ∅ := by
  have hload : loadfile p = luaYParser (tokensOf p) := loadfile_torn R hp
  rcases luaYParser_cut R.fields h with hfails | ⟨fs, hok, hrun⟩
  · exact loadDeps_fails (hload ▸ hfails)
  · rw [loadDeps_runs (hload.trans hok), hrun]
    rfl

/-- A text with all tokens is read as the table, if its code is within the limits. -/
theorem loadDeps_whole {p : LuaString} (hp : p <+: saveDeps R.deps)
    (h : tokensOf p = (returnToks R.fields ++ [Token.eos]).map .tok) :
    ((returnCode R.fields).Fits → loadDeps (some p) = some R.deps) ∧
      (¬ (returnCode R.fields).Fits → loadDeps (some p) = some ∅) := by
  have hload : loadfile p = luaYParser ((returnToks R.fields ++ [Token.eos]).map .tok) :=
    h ▸ loadfile_torn R hp
  obtain ⟨hfits, hnot⟩ := yields_return R.fields
  constructor
  · intro hlim
    rw [loadDeps_runs (hload.trans (hfits hlim)), run_return]
    exact congrArg some (toDeps_records R)
  · intro hlim
    exact loadDeps_fails (hload ▸ hnot hlim)

/-- The tokens of a beginning of the text. -/
theorem tokensOf_torn {p : LuaString} (hp : p <+: saveDeps R.deps) :
    WholeOrCut (returnToks R.fields) (tokensOf p) := by
  rw [saveDeps_records] at hp
  rw [← toksOf_records]
  exact lexAll_cut (ok_records R) (Nat.lt_succ_self p.length) (by decide) hp

theorem loadDeps_limits (h : Limits R) : loadDeps (some (saveDeps R.deps)) = some R.deps := by
  have hline : 1 + linesOf R.atoms < MAX_INT := by
    have := h.lines
    rw [linesOf_records]
    omega
  have htoks : tokensOf (saveDeps R.deps) = (returnToks R.fields ++ [Token.eos]).map .tok := by
    rw [← toksOf_records, saveDeps_records]
    exact lexAll_atoms (ok_records R) (Nat.lt_succ_self _) hline
  exact (loadDeps_whole R (List.prefix_refl _) htoks).1
    ((fits_records R).mpr ⟨h.constants, h.instructions⟩)

/-- What is too large for a chunk is lost. -/
theorem loadDeps_tooLarge (h : ¬ Limits R) : loadDeps (some (saveDeps R.deps)) = some ∅ := by
  by_cases hline : 1 + linesOf R.atoms < MAX_INT
  · have htoks : tokensOf (saveDeps R.deps) = (returnToks R.fields ++ [Token.eos]).map .tok := by
      rw [← toksOf_records, saveDeps_records]
      exact lexAll_atoms (ok_records R) (Nat.lt_succ_self _) hline
    refine (loadDeps_whole R (List.prefix_refl _) htoks).2 fun hfits => h ?_
    obtain ⟨hconst, hinstr⟩ := (fits_records R).mp hfits
    refine ⟨hconst, hinstr, ?_⟩
    rw [linesOf_records] at hline
    omega
  · refine loadDeps_cut R (List.prefix_refl _) ?_
    rw [← toksOf_records, saveDeps_records]
    exact lexAll_tooManyLines (ok_records R) (Nat.lt_succ_self _) (by decide) (by omega)

theorem limits_empty : Limits ∅ := ⟨by decide, by decide, by decide⟩

/-- **Round trip.** The table is read back if its text is within the limits of a chunk, and
    only then. -/
theorem loadDeps_saveDeps_iff : loadDeps (some (saveDeps R.deps)) = some R.deps ↔ Limits R := by
  constructor
  · intro h
    by_contra hlim
    have hempty : R.deps = ∅ := by
      rw [loadDeps_tooLarge R hlim] at h
      exact (Option.some.inj h).symm
    have hnil : R = ∅ := by
      have hentries : R.deps.entries = [] := congrArg AList.entries hempty
      exact AList.ext (List.map_eq_nil_iff.mp hentries)
    exact hlim (hnil ▸ limits_empty)
  · exact loadDeps_limits R

/-- **Torn files.** Of the first `n` characters of the text, the whole table is read or nothing. -/
theorem loadDeps_torn (n : Nat) :
    loadDeps (some ((saveDeps R.deps).take n)) = some ∅ ∨
      loadDeps (some ((saveDeps R.deps).take n)) = some R.deps := by
  have hp : (saveDeps R.deps).take n <+: saveDeps R.deps := List.take_prefix n _
  rcases tokensOf_torn R hp with hwhole | hcut
  · by_cases hfits : (returnCode R.fields).Fits
    · exact Or.inr ((loadDeps_whole R hp hwhole).1 hfits)
    · exact Or.inl ((loadDeps_whole R hp hwhole).2 hfits)
  · exact Or.inl (loadDeps_cut R hp hcut)

end RoundTrip

/-! ## A table that is too large -/

/-- `2^18` commands without files. -/
def manyCommands : Records where
  entries := (List.range 262144).map fun i => ⟨List.replicate i 'a', ⟨∅, ∅⟩⟩
  nodupKeys := by
    have hkeys : ((List.range 262144).map fun i =>
        (⟨List.replicate i 'a', ⟨∅, ∅⟩⟩ : Sigma fun _ : LuaString => Record)).keys =
          (List.range 262144).map fun i => List.replicate i 'a' := by
      unfold List.keys
      rw [List.map_map]
      rfl
    unfold List.NodupKeys
    rw [hkeys]
    exact List.nodup_range.map fun i j hij => by simpa using congrArg List.length hij

theorem manyCommands_not_limits : ¬ Limits manyCommands := by
  intro h
  have hsub : manyCommands.keys ⊆ constants manyCommands.strings := by
    intro k hk
    obtain ⟨x, hx, rfl⟩ := List.mem_map.mp hk
    exact mem_constants.mpr (List.mem_flatMap.mpr ⟨x, hx, List.mem_cons_self⟩)
  have hlen : manyCommands.keys.length = 262144 := by
    unfold AList.keys List.keys manyCommands
    rw [List.length_map, List.length_map, List.length_range]
  have hle : manyCommands.keys.length ≤ (constants manyCommands.strings).length :=
    (List.Nodup.subperm manyCommands.nodupKeys hsub).length_le
  have hmax : (constants manyCommands.strings).length ≤ 262143 := h.constants
  omega

theorem manyCommands_lost :
    loadDeps (some (saveDeps manyCommands.deps)) ≠ some manyCommands.deps := by
  rw [loadDeps_tooLarge manyCommands manyCommands_not_limits]
  intro h
  have hempty : manyCommands.deps.entries = [] := (congrArg AList.entries (Option.some.inj h)).symm
  have hlen : manyCommands.deps.entries.length = 262144 := by
    unfold Records.deps manyCommands
    rw [List.length_map, List.length_map, List.length_range]
  rw [hempty] at hlen
  cases hlen

end Buildsh.DepsFile
