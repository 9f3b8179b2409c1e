/-
  `build.lua` and `ape_proc.c`: from the arguments of a call to the process that is created.

  `make.run` flattens its arguments, renders them into the key of the command (`argv2cmd`), looks
  the key up (`check_deps`), and hands the flat table to `ape.proc_create`, where `ape_table2argv`
  picks the strings and numbers. The flat table is modelled with its indices, the stack of Lua by
  the number of calls it has room for, and an argument by the tree of its tables. The directory
  and the attributes of the process are set up by `ape.proc_create` as far as this model goes.

  `argv2cmd` calls a method of every element, which only strings have; `ape_table2argv` hands out
  pointers to C strings. `runsKeyed_iff` says for which arguments the three agree.
-/
import Buildsh.Commands
import Buildsh.Dirsep
import Buildsh.Records

namespace Buildsh.Arguments
open Buildsh.Generic Buildsh.Base Buildsh.Commands Buildsh.Clone Buildsh.Dirsep Buildsh.Records

/-! ## Arguments -/

/-- A value that is neither `nil` nor a table. A number or a function is told from the others by
    its index. -/
inductive Leaf where
  | bool (b : Bool)
  | num (n : Nat)
  | str (s : LuaString)
  | func (n : Nat)
  deriving DecidableEq

/-- `type( v )` -/
def Leaf.typeName : Leaf → LuaString
  | .bool _ => "boolean".toList
  | .num _ => "number".toList
  | .str _ => "string".toList
  | .func _ => "function".toList

def Leaf.asString : Leaf → Option LuaString
  | .str s => some s
  | _ => none

/-- `lua_tostring`, where `lua_isstring` is true: a string, or the text of a number -/
def Leaf.text (numText : Nat → LuaString) : Leaf → Option LuaString
  | .str s => some s
  | .num n => some (numText n)
  | _ => none

/-- An argument. A table has named fields, of which those that are tables are left out, and the
    elements from 1 to its length. -/
inductive Arg where
  | nil
  | leaf (v : Leaf)
  | table (fields : LuaString → Option Leaf) (items : List Arg)

mutual

/-- The leaves, from left to right. -/
def Arg.leaves : Arg → List Leaf
  | .nil => []
  | .leaf v => [v]
  | .table _ items => leavesOf items

def leavesOf : List Arg → List Leaf
  | [] => []
  | a :: l => a.leaves ++ leavesOf l

end

/-- The tables are nested less than `room` deep. -/
def Arg.Fits : Nat → Arg → Prop
  | 0, _ => False
  | room + 1, .table _ items => ∀ a ∈ items, a.Fits room
  | _ + 1, _ => True

/-- A field of the first argument, if that is a table and the field a string. -/
def Arg.stringField (name : LuaString) : Arg → Option LuaString
  | .table fields _ => (fields name).bind Leaf.asString
  | _ => none

/-! ## `flatten` -/

/-- The table that `flatten` fills. -/
abbrev Vals := AList (fun _ : Nat => Leaf)

/-- `room` is the number of nested calls that Lua's stack has room for. -/
def myFlatten : Nat → Vals × Nat → Arg → Except LuaError (Vals × Nat)
  | 0, _, _ => .error (.message "stack overflow".toList)
  | _ + 1, tn, .nil => .ok tn
  | _ + 1, (t, n), .leaf v => .ok (t.insert (n + 1) v, n + 1)
  | room + 1, tn, .table _ items => items.foldlM (myFlatten room) tn

def flatten (room : Nat) (args : List Arg) : Except LuaError (Vals × Nat) :=
  args.foldlM (myFlatten room) (∅, 0)

/-- `t` holds the values `l` at the indices from 1 on, and `n` is their number. -/
structure Holds (tn : Vals × Nat) (l : List Leaf) : Prop where
  count : tn.2 = l.length
  lookup : ∀ i, tn.1.lookup (i + 1) = l[i]?

theorem Holds.push {tn : Vals × Nat} {l : List Leaf} (h : Holds tn l) (v : Leaf) :
    Holds (tn.1.insert (tn.2 + 1) v, tn.2 + 1) (l ++ [v]) := by
  refine ⟨by rw [List.length_append, h.count]; rfl, fun i => ?_⟩
  by_cases hi : i = l.length
  · rw [hi, h.count, AList.lookup_insert, List.getElem?_concat_length]
  · have hne : i + 1 ≠ tn.2 + 1 := by
      rw [h.count]
      omega
    rw [AList.lookup_insert_ne hne, h.lookup]
    by_cases hlt : i < l.length
    · rw [List.getElem?_append_left hlt]
    · rw [List.getElem?_eq_none (by omega), List.getElem?_eq_none (by simp; omega)]

theorem Holds.lookup_middle {tn : Vals × Nat} {pre rest : List Leaf} {v : Leaf}
    (h : Holds tn (pre ++ v :: rest)) : tn.1.lookup (pre.length + 1) = some v := by
  rw [h.lookup, List.getElem?_append_right (le_refl _), Nat.sub_self]
  rfl

/-- A run of `my_flatten` has appended `l`, or its arguments do not fit. -/
def Appends (fits : Prop) (l : List Leaf) : Except LuaError (Vals × Nat) → Prop
  | .ok tn => fits ∧ Holds tn l
  | .error _ => ¬ fits

theorem appends_foldlM {room : Nat} {items : List Arg} {tn : Vals × Nat} {l : List Leaf}
    (hstep : ∀ a ∈ items, ∀ tn l, Holds tn l →
      Appends (a.Fits room) (l ++ a.leaves) (myFlatten room tn a))
    (h : Holds tn l) :
    Appends (∀ a ∈ items, a.Fits room) (l ++ leavesOf items)
      (items.foldlM (myFlatten room) tn) := by
  induction items generalizing tn l with
  | nil => exact ⟨fun a ha => (List.not_mem_nil ha).elim, by simpa [leavesOf] using h⟩
  | cons a items ih =>
      have ha := hstep a List.mem_cons_self tn l h
      rw [List.foldlM_cons]
      cases hf : myFlatten room tn a with
      | error e =>
          rw [hf] at ha
          exact fun hall => ha (hall a List.mem_cons_self)
      | ok tn' =>
          rw [hf] at ha
          obtain ⟨hfit, h'⟩ := ha
          have hrest := ih (fun b hb => hstep b (List.mem_cons_of_mem _ hb)) h'
          rw [List.append_assoc, ← leavesOf] at hrest
          show Appends _ _ (items.foldlM (myFlatten room) tn')
          cases hr : items.foldlM (myFlatten room) tn' with
          | error e =>
              rw [hr] at hrest
              exact fun hall => hrest fun b hb => hall b (List.mem_cons_of_mem _ hb)
          | ok tn'' =>
              rw [hr] at hrest
              exact ⟨List.forall_mem_cons.mpr ⟨hfit, hrest.1⟩, hrest.2⟩

theorem myFlatten_appends (room : Nat) (a : Arg) (tn : Vals × Nat) (l : List Leaf)
    (h : Holds tn l) : Appends (a.Fits room) (l ++ a.leaves) (myFlatten room tn a) := by
  induction room generalizing a tn l with
  | zero => exact fun hfit => hfit
  | succ room ih =>
      cases a with
      | nil => exact ⟨trivial, by simpa [Arg.leaves] using h⟩
      | leaf v => exact ⟨trivial, h.push v⟩
      | table fields items => exact appends_foldlM (fun a _ tn l h => ih a tn l h) h

theorem flatten_appends (room : Nat) (args : List Arg) :
    Appends (∀ a ∈ args, a.Fits room) (leavesOf args) (flatten room args) :=
  appends_foldlM (l := []) (fun a _ tn l h => myFlatten_appends room a tn l h)
    ⟨rfl, fun _ => AList.lookup_empty _⟩

/-! ## The flat table is read -/

/-- `#t`. Any border will do for Lua; the tables here have no other. -/
def border (t : Vals) : Nat :=
  ((List.range (t.entries.length + 1)).find? fun n => (t.lookup (n + 1)).isNone).getD 0

theorem Holds.border_eq {tn : Vals × Nat} {l : List Leaf} (h : Holds tn l) :
    border tn.1 = l.length := by
  have hsub : (List.range l.length).map (· + 1) ⊆ tn.1.keys := by
    intro k hk
    obtain ⟨i, hi, rfl⟩ := List.mem_map.mp hk
    rw [List.mem_range] at hi
    rw [← AList.mem_keys, ← AList.lookup_isSome, h.lookup, List.getElem?_eq_getElem hi]
    rfl
  have hnodup : ((List.range l.length).map (· + 1)).Nodup :=
    List.nodup_range.map fun _ _ hij => Nat.succ.inj hij
  have hle : l.length ≤ tn.1.entries.length := by
    have hlen := (hnodup.subperm hsub).length_le
    rwa [List.length_map, List.length_range, AList.keys, List.keys, List.length_map] at hlen
  have hfind : (List.range (tn.1.entries.length + 1)).find?
      (fun n => (tn.1.lookup (n + 1)).isNone) = some l.length := by
    rw [List.find?_range_eq_some]
    refine ⟨by rw [h.lookup, List.getElem?_eq_none (le_refl _)]; rfl, ?_, fun j hj => ?_⟩
    · rw [List.mem_range]
      omega
    · rw [h.lookup, List.getElem?_eq_getElem hj]
      rfl
  rw [border, hfind, Option.getD_some]

section Render

variable (dirsep : Char)

/-- An element of the line; only strings have a method `match`. -/
def word : Option Leaf → Except LuaError LuaString
  | none => .error .indexNil
  | some (.str s) => .ok (quoted dirsep s)
  | some v => .error (.message ("attempt to index local 'a' (a ".toList ++ v.typeName ++
      " value)".toList))

/-- The loop over `argv`, with the number of elements still to come. -/
def appendWords (argv : Vals) : Nat → Nat → LuaString → Except LuaError LuaString
  | 0, _, s => .ok s
  | todo + 1, i, s =>
      match word dirsep (argv.lookup i) with
      | .error e => .error e
      | .ok a =>
          let s := s ++ a
          appendWords argv todo (i + 1) (if i < border argv then s ++ [' '] else s)

def argv2cmd (argv : Vals) (dir : Option LuaString) : Except LuaError LuaString :=
  let s := match dir with
    | none => []
    | some dir => "cd ".toList ++ quoted dirsep dir ++ " && ".toList
  appendWords dirsep argv (border argv) 1 s

variable {tn : Vals × Nat} {l : List Leaf} {ws : List LuaString}

/-- One round of the loop. -/
theorem appendWords_cons {pre rest : List Leaf} {w : LuaString}
    (h : Holds tn (pre ++ .str w :: rest)) (s : LuaString) :
    Holds tn ((pre ++ [Leaf.str w]) ++ rest) ∧
      appendWords dirsep tn.1 (rest.length + 1) (pre.length + 1) s =
        appendWords dirsep tn.1 rest.length ((pre ++ [Leaf.str w]).length + 1)
          (if rest = [] then s ++ quoted dirsep w else s ++ quoted dirsep w ++ [' ']) := by
  have h' : Holds tn ((pre ++ [.str w]) ++ rest) := by
    rwa [List.append_assoc]
  have hlen : border tn.1 = pre.length + 1 + rest.length := by
    rw [h'.border_eq, List.length_append, List.length_append, List.length_singleton]
  refine ⟨h', ?_⟩
  rw [appendWords, h.lookup_middle, List.length_append, List.length_singleton]
  simp only [word]
  rw [hlen]
  cases rest with
  | nil => simp
  | cons v rest => simp

theorem appendWords_str (pre : List Leaf) (h : Holds tn (pre ++ ws.map Leaf.str)) (s : LuaString) :
    appendWords dirsep tn.1 ws.length (pre.length + 1) s = .ok (appendArgs dirsep s ws) := by
  induction ws generalizing pre s with
  | nil => rfl
  | cons w ws ih =>
      obtain ⟨h', hround⟩ := appendWords_cons dirsep h s
      rw [List.length_map] at hround
      rw [List.length_cons, hround, ih _ h']
      cases ws with
      | nil => rfl
      | cons w' ws => rfl

theorem appendWords_error (pre rest : List Leaf) (h : Holds tn (pre ++ rest))
    (hbad : ∃ v ∈ rest, v.asString = none) (s : LuaString) :
    ∃ e, appendWords dirsep tn.1 rest.length (pre.length + 1) s = .error e := by
  induction rest generalizing pre s with
  | nil =>
      obtain ⟨v, hv, -⟩ := hbad
      cases hv
  | cons v rest ih =>
      cases v with
      | str w =>
          have hrest : ∃ v ∈ rest, v.asString = none := by
            obtain ⟨v, hv, hnone⟩ := hbad
            rcases List.mem_cons.mp hv with rfl | hv
            · cases hnone
            · exact ⟨v, hv, hnone⟩
          obtain ⟨h', hround⟩ := appendWords_cons dirsep h s
          rw [List.length_cons, hround]
          exact ih _ h' hrest _
      | bool b | num n | func n =>
          rw [List.length_cons, appendWords, h.lookup_middle]
          exact ⟨_, rfl⟩

/-- Strings are rendered as `Commands.argv2cmd` does it. -/
theorem argv2cmd_str (h : Holds tn (ws.map Leaf.str)) (dir : Option LuaString) :
    argv2cmd dirsep tn.1 dir = .ok (Commands.argv2cmd dirsep ws dir) := by
  have hwords := appendWords_str dirsep [] h
  unfold argv2cmd Commands.argv2cmd
  rw [h.border_eq, List.length_map]
  exact hwords _

theorem argv2cmd_error (h : Holds tn l) (hbad : ∃ v ∈ l, v.asString = none)
    (dir : Option LuaString) : ∃ e, argv2cmd dirsep tn.1 dir = .error e := by
  unfold argv2cmd
  rw [h.border_eq]
  exact appendWords_error dirsep [] l h hbad _

end Render

/-- What the process reads of the strings in `array->elts`. -/
def table2argv (numText : Nat → LuaString) (argv : Vals) : List LuaString :=
  ((List.range (border argv)).filterMap fun i =>
    (argv.lookup (i + 1)).bind (Leaf.text numText)).map cString

theorem filterMap_getElem? (l : List Leaf) :
    (List.range l.length).filterMap (fun i => l[i]?) = l := by
  induction l with
  | nil => rfl
  | cons v l ih =>
      rw [List.length_cons, List.range_succ_eq_map, List.filterMap_cons, List.filterMap_map]
      simpa using ih

theorem table2argv_eq (numText : Nat → LuaString) {tn : Vals × Nat} {l : List Leaf}
    (h : Holds tn l) : table2argv numText tn.1 = (l.filterMap (Leaf.text numText)).map cString := by
  unfold table2argv
  rw [h.border_eq]
  conv_rhs => rw [← filterMap_getElem? l, List.filterMap_filterMap]
  simp only [h.lookup]

/-! ## `make.run`, up to the process -/

/-- What `ape.proc_create` is called with, after the line that is printed. -/
structure Creation where
  key : LuaString
  printed : LuaString
  prog : LuaString
  argv : List LuaString
  dir : Option LuaString

section Run

variable (ape : Ape) (order : Order) (numText : Nat → LuaString) (hash : LuaString → LuaString)
  (room depth : Nat)

def ofExcept {α : Type} : Except LuaError α → Prog α
  | .ok a => return a
  | .error e => throw e

/-- The line for `err`. `ape.basename` always returns a name. -/
def printed (p : LuaString) (echo : Option LuaString) (sargv : LuaString) : LuaString :=
  match echo with
  | some echo =>
      "[".toList ++ basename ape p [".exe".toList, ".cmd".toList, ".bat".toList] ++
        "] ".toList ++ echo ++ "\n".toList
  | none => sargv ++ "\n".toList

/-- A call of the function that `make.run( p )` returns, with `a` as its first argument, without
    a tracer. The result is `none` if the command is up to date. -/
def makeRun (root : Nat) (p : LuaString) (a : Arg) (rest : List Arg) : Prog (Option Creation) := do
  let (argv, _) ← ofExcept (flatten room (.leaf (.str p) :: a :: rest))
  let echo := a.stringField "echo".toList
  let dir := a.stringField "dir".toList
  let sargv ← ofExcept (argv2cmd ape.dirsep argv dir)
  let (_, runIt) ← checkDeps order numText hash depth root (.str sargv)
  if runIt then
    return some ⟨sargv, printed ape p echo sargv, cString p, table2argv numText argv, dir⟩
  else return none

/-! ## The command that is keyed is the command that is executed -/

/-- The program and the leaves of the arguments. -/
def wholeCommand (p : LuaString) (a : Arg) (rest : List Arg) : List Leaf :=
  leavesOf (.leaf (.str p) :: a :: rest)

/-- The key of a command whose words are strings. -/
def keyOf (p : LuaString) (a : Arg) (rest : List Arg) : LuaString :=
  Commands.argv2cmd ape.dirsep ((wholeCommand p a rest).filterMap Leaf.asString)
    (a.stringField "dir".toList)

/-- The call raises no error, and if it creates a process, this gets the texts of all leaves,
    which are also what the key is made of. -/
def RunsKeyed (st : Store) (p : LuaString) (a : Arg) (rest : List Arg) : Prop :=
  ∃ c h, makeRun ape order numText hash room depth st.root p a rest st.heap = .ok c h ∧
    ∀ x, c = some x → (wholeCommand p a rest).map (Leaf.text numText) = x.argv.map some ∧
      x.key = Commands.argv2cmd ape.dirsep x.argv (a.stringField "dir".toList)

/-- The tables are not nested too deep, and every leaf is a string. -/
structure Renderable (p : LuaString) (a : Arg) (rest : List Arg) : Prop where
  fits : ∀ x ∈ .leaf (.str p) :: a :: rest, x.Fits room
  strings : ∀ v ∈ wholeCommand p a rest, v.asString ≠ none

end Run

section Spec

theorem wp_ofExcept {α : Type} {r : Except LuaError α} {Q : α → Heap Obj → Prop}
    {E : LuaError → Heap Obj → Prop} {s : Heap Obj} (hok : ∀ x, r = .ok x → Q x s)
    (herr : ∀ e, r = .error e → E e s) : wp (ofExcept r) Q E s := by
  cases r with
  | ok x => exact hok x rfl
  | error e => exact herr e rfl

theorem exists_strings {l : List Leaf} (h : ∀ v ∈ l, v.asString ≠ none) :
    ∃ ws : List LuaString, l = ws.map Leaf.str := by
  induction l with
  | nil => exact ⟨[], rfl⟩
  | cons v l ih =>
      obtain ⟨ws, rfl⟩ := ih fun v hv => h v (List.mem_cons_of_mem _ hv)
      cases v with
      | str w => exact ⟨w :: ws, rfl⟩
      | bool b => exact absurd rfl (h _ List.mem_cons_self)
      | num n => exact absurd rfl (h _ List.mem_cons_self)
      | func n => exact absurd rfl (h _ List.mem_cons_self)

theorem filterMap_asString (ws : List LuaString) :
    (ws.map Leaf.str).filterMap Leaf.asString = ws := by
  rw [List.filterMap_map]
  exact List.filterMap_some

theorem filterMap_text (numText : Nat → LuaString) (ws : List LuaString) :
    (ws.map Leaf.str).filterMap (Leaf.text numText) = ws := by
  rw [List.filterMap_map]
  exact List.filterMap_some

/-- The arguments as `check_deps` and the process get them. -/
theorem rendered {room : Nat} {p : LuaString} {a : Arg} {rest : List Arg}
    (hr : Renderable room p a rest) {tn : Vals × Nat} (h : Holds tn (wholeCommand p a rest))
    (dirsep : Char) :
    ∃ ws : List LuaString, wholeCommand p a rest = ws.map Leaf.str ∧
      argv2cmd dirsep tn.1 (a.stringField "dir".toList) =
        .ok (Commands.argv2cmd dirsep ws (a.stringField "dir".toList)) := by
  obtain ⟨ws, hws⟩ := exists_strings hr.strings
  exact ⟨ws, hws, argv2cmd_str dirsep (hws ▸ h) _⟩

/-- A call raises an error only where its arguments cannot be rendered or its record cannot be
    looked up. -/
theorem makeRun_spec (ape : Ape) (numText : Nat → LuaString) (hash : LuaString → LuaString)
    (room depth : Nat) (st : Store) (p : LuaString) (a : Arg) (rest : List Arg) (order : Order) :
    wp (makeRun ape order numText hash room depth st.root p a rest)
      (fun c _ => Renderable room p a rest ∧
        (order.BadFirst numText →
          Tolerated numText hash depth st (.str (keyOf ape p a rest))) ∧
        (c = none ↔ UpToDate numText hash st (.str (keyOf ape p a rest))) ∧
        ∀ x, c = some x → x.key = keyOf ape p a rest ∧
          x.argv = ((wholeCommand p a rest).filterMap (Leaf.text numText)).map cString)
      (fun _ _ => ¬ (Renderable room p a rest ∧
        Tolerated numText hash depth st (.str (keyOf ape p a rest)))) st.heap := by
  have hflat := flatten_appends room (.leaf (.str p) :: a :: rest)
  unfold makeRun
  rw [wp_bind]
  refine wp_ofExcept (fun tn htn => ?_) fun e he => ?_
  · rw [htn] at hflat
    obtain ⟨hfits, hholds⟩ := hflat
    dsimp only
    rw [wp_bind]
    refine wp_ofExcept (fun sargv hs => ?_) fun e he => ?_
    · have hr : Renderable room p a rest := ⟨hfits, fun v hv hnone => by
        obtain ⟨e, he⟩ := argv2cmd_error ape.dirsep hholds ⟨v, hv, hnone⟩
          (a.stringField "dir".toList)
        rw [he] at hs
        cases hs⟩
      obtain ⟨ws, hws, hkey⟩ := rendered hr hholds ape.dirsep
      rw [hkey, Except.ok.injEq] at hs
      have hsargv : sargv = keyOf ape p a rest := by
        rw [← hs, keyOf, hws, filterMap_asString]
      rw [hsargv, wp_bind]
      refine wp_mono (checkDeps_spec numText hash depth st (.str (keyOf ape p a rest)) order)
        (fun q s hq => ?_) fun e s he h => he.2 h.2
      obtain ⟨-, hup, htol⟩ := hq
      obtain ⟨d, runIt⟩ := q
      cases runIt with
      | true =>
          refine ⟨hr, htol, ⟨fun h => (by cases h), fun h => ?_⟩, fun x hx => ?_⟩
          · exact absurd (hup.mpr h) Bool.noConfusion
          · cases hx
            exact ⟨rfl, table2argv_eq numText hholds⟩
      | false => exact ⟨hr, htol, ⟨fun _ => hup.mp rfl, fun _ => rfl⟩, fun x hx => (by cases hx)⟩
    · rintro ⟨hr, -⟩
      obtain ⟨ws, -, hkey⟩ := rendered hr hholds ape.dirsep
      rw [hkey] at he
      cases he
  · rw [he] at hflat
    exact fun h => hflat h.1.fits

theorem cString_eq_iff (w : LuaString) : cString w = w ↔ NUL ∉ w := by
  rw [cString, List.takeWhile_eq_self_iff]
  constructor
  · intro h hm
    simpa using h NUL hm
  · intro h c hc
    rw [decide_eq_true_eq]
    rintro rfl
    exact h hc

/-- The process reads the words as they are, if there is no NUL in them. -/
theorem map_cString_eq_iff (ws : List LuaString) :
    ws.map cString = ws ↔ ∀ w ∈ ws, NUL ∉ w := by
  induction ws with
  | nil => simp
  | cons w ws ih => rw [List.map_cons, List.cons.injEq, cString_eq_iff, ih, List.forall_mem_cons]

theorem forall_mem_str {P : LuaString → Prop} (ws : List LuaString) :
    (∀ w, .str w ∈ ws.map Leaf.str → P w) ↔ ∀ w ∈ ws, P w := by
  simp only [List.mem_map, Leaf.str.injEq, exists_eq_right]

/-- The texts of all words are handed over if no word is cut short. -/
theorem map_text_eq_iff (numText : Nat → LuaString) (ws : List LuaString) :
    (ws.map Leaf.str).map (Leaf.text numText) = (ws.map cString).map some ↔
      ∀ w ∈ ws, NUL ∉ w := by
  rw [← map_cString_eq_iff, List.map_map]
  constructor
  · exact fun h => (List.map_injective_iff.mpr (Option.some_injective _) h).symm
  · intro h
    rw [h]
    rfl

/-- **The command that is executed.** Calls run what they are keyed under exactly if they can be
    rendered and looked up, and if no NUL cuts a word short that a process is to read. -/
theorem runsKeyed_iff (ape : Ape) (numText : Nat → LuaString) (hash : LuaString → LuaString)
    (room depth : Nat) (st : Store) (p : LuaString) (a : Arg) (rest : List Arg) :
    (∀ order, RunsKeyed ape order numText hash room depth st p a rest) ↔
      Renderable room p a rest ∧ Tolerated numText hash depth st (.str (keyOf ape p a rest)) ∧
      (UpToDate numText hash st (.str (keyOf ape p a rest)) ∨
        ∀ w, .str w ∈ wholeCommand p a rest → NUL ∉ w) := by
  constructor
  · intro hall
    obtain ⟨c, h, hok, hx⟩ := hall (badFirst numText)
    obtain ⟨hr, htol, hup, hc⟩ :=
      of_wp_ok (makeRun_spec ape numText hash room depth st p a rest (badFirst numText)) hok
    refine ⟨hr, htol (badFirst_badFirst numText), ?_⟩
    cases c with
    | none => exact Or.inl (hup.mp rfl)
    | some x =>
        obtain ⟨ws, hws⟩ := exists_strings hr.strings
        obtain ⟨-, hargv⟩ := hc x rfl
        obtain ⟨htexts, -⟩ := hx x rfl
        rw [hargv, hws, filterMap_text] at htexts
        rw [hws, forall_mem_str]
        exact Or.inr ((map_text_eq_iff numText ws).mp htexts)
  · rintro ⟨hr, htol, hrest⟩ order
    obtain ⟨c, h, hok, -, -, hup, hc⟩ := exists_of_wp
      (makeRun_spec ape numText hash room depth st p a rest order) fun _ _ h => h ⟨hr, htol⟩
    refine ⟨c, h, hok, fun x hx => ?_⟩
    obtain ⟨hkey, hargv⟩ := hc x hx
    have hnul : ∀ w, .str w ∈ wholeCommand p a rest → NUL ∉ w :=
      hrest.resolve_left fun h => by
        have hnone := hup.mpr h
        rw [hx] at hnone
        cases hnone
    obtain ⟨ws, hws⟩ := exists_strings hr.strings
    rw [hws, forall_mem_str] at hnul
    rw [hkey, hargv, keyOf, hws, filterMap_text, filterMap_asString]
    refine ⟨(map_text_eq_iff numText ws).mpr hnul, ?_⟩
    rw [(map_cString_eq_iff ws).mpr hnul]

end Spec

/-- A dependency table without records. -/
def noRecords : Store where
  heap := [∅]
  root := 0
  root_lt := by decide
  closed := closed_of_check (by decide)

/-- `make.run( "sleep" )( 1 )` -/
theorem number_not_rendered :
    ¬ ∀ (p : LuaString) (a : Arg) (rest : List Arg),
      (∀ v ∈ wholeCommand p a rest, (v.text fun _ => ['1']).isSome = true) →
      ∀ order, RunsKeyed (Apr.unixApe "/".toList) order (fun _ => ['1']) (fun _ => "digest".toList)
        200 200 noRecords p a rest := by
  intro h
  obtain ⟨c, s, hok, -⟩ := h "sleep".toList (.leaf (.num 1)) [] (by decide) asStored
  have herr : ∃ e s', makeRun (Apr.unixApe "/".toList) asStored (fun _ => ['1'])
      (fun _ => "digest".toList) 200 200 noRecords.root "sleep".toList (.leaf (.num 1)) []
      noRecords.heap = .error e s' := ⟨_, _, rfl⟩
  obtain ⟨e, s', he⟩ := herr
  rw [he] at hok
  cases hok

end Buildsh.Arguments
