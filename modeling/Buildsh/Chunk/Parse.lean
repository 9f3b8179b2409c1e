/-
  `lparser.c`: chunks that return a table constructor.

  The parser of what `.deps.lua` can hold, and of every beginning of it: an empty chunk, a
  statement that begins with a name, and `return` with an expression or without one. An
  expression is a string, a name or a constructor whose fields have keys. What else Lua knows gives
  the error `outside`; `LUAI_MAXCCALLS` is not modelled.
-/
import Buildsh.Chunk.Code

namespace Buildsh.Chunk

structure ParseState where
  /-- the current token -/
  t : Token
  rest : List Lexed
  fs : FuncState

/-- The first of these tokens becomes the current one. -/
def advance (l : List Lexed) (fs : FuncState) : Except LoadError ParseState :=
  match l with
  | [] => .ok ⟨.eos, [], fs⟩
  | .tok t :: rest => .ok ⟨t, rest, fs⟩
  | .bad e :: _ => .error e

/-- `luaX_next` -/
def luaXNext (st : ParseState) : Except LoadError ParseState := advance st.rest st.fs

def checknext (t : Token) (st : ParseState) : Except LoadError ParseState :=
  if st.t = t then luaXNext st else .error .unexpected

/-! ## Expressions -/

/-- The beginning of an expression that is not modelled: a unary operator, a parenthesis, a
    function, nil, true or false. -/
def beginsOther : Token → Bool
  | .char c => c ∈ ['-', '#', '(']
  | .reserved s =>
      s ∈ ["not".toList, "function".toList, "nil".toList, "true".toList, "false".toList]
  | _ => false

/-- `getbinopr` -/
def isBinaryOp : Token → Bool
  | .eq | .le | .ge | .ne => true
  | .char c => c ∈ ['+', '-', '*', '/', '%', '^', '<', '>']
  | .reserved s => s ∈ ["and".toList, "or".toList]
  | _ => false

/-- What goes on with a primary expression. -/
def goesOn : Token → Bool
  | .char c => c ∈ ['.', '[', ':', '(', '{']
  | .string _ => true
  | _ => false

/-- `simpleexp`, with `cons` for a constructor -/
def simpleexp (cons : ParseState → Except LoadError (ParseState × ExpDesc)) (st : ParseState) :
    Except LoadError (ParseState × ExpDesc) :=
  match st.t with
  | .string s => do
      let (fs, i) ← addk st.fs s
      let st ← advance st.rest fs
      return (st, .k i)
  | .name s => do
      let st ← luaXNext st
      let (fs, i) ← addk st.fs s
      if goesOn st.t then .error .outside else return ({ st with fs := fs }, .global i)
  | .char c => if c = '{' then cons st else .error .unexpected
  | _ => .error .unexpected

/-- `expr` -/
def exprWith (cons : ParseState → Except LoadError (ParseState × ExpDesc)) (st : ParseState) :
    Except LoadError (ParseState × ExpDesc) :=
  if beginsOther st.t then .error .outside
  else do
    let (st, e) ← simpleexp cons st
    if isBinaryOp st.t then .error .outside else return (st, e)

/-! ## Constructors -/

/-- `yindex`; a name as a key is not modelled -/
def yindex (cons : ParseState → Except LoadError (ParseState × ExpDesc)) (st : ParseState) :
    Except LoadError (ParseState × ExpDesc) := do
  let st ← luaXNext st
  let (st, e) ← exprWith cons st
  match e with
  | .global _ => .error .outside
  | e => do
      let st ← checknext (.char ']') st
      return (st, e)

/-- The key of a record field, up to the `=`. -/
def fieldKey (cons : ParseState → Except LoadError (ParseState × ExpDesc)) (st : ParseState) :
    Except LoadError (ParseState × ExpDesc) :=
  match st.t with
  | .name s => do
      let st ← luaXNext st
      let (fs, i) ← addk st.fs s
      return ({ st with fs := fs }, .k i)
  | _ => yindex cons st

/-- `recfield`, for the table in register `r` -/
def recfield (cons : ParseState → Except LoadError (ParseState × ExpDesc)) (r : Nat)
    (st : ParseState) : Except LoadError ParseState := do
  let reg := st.fs.freereg
  let (st, key) ← fieldKey cons st
  let st ← checknext (.char '=') st
  let (fs, rkkey) ← exp2RK st.fs key
  let (st, val) ← exprWith cons { st with fs := fs }
  let (fs, rkval) ← exp2RK st.fs val
  let fs ← emit fs (.setTable r rkkey rkval)
  return { st with fs := { fs with freereg := reg } }

/-- `listfield`; an item of a list that does not end in an error is not modelled -/
def listfield (cons : ParseState → Except LoadError (ParseState × ExpDesc)) (st : ParseState) :
    Except LoadError ParseState := do
  let (st, _) ← exprWith cons st
  if st.t ∈ [.char ',', .char ';', .char '}'] then .error .outside else return st

/-- One field. A name is the key of a record if `=` follows it. -/
def field (cons : ParseState → Except LoadError (ParseState × ExpDesc)) (r : Nat)
    (st : ParseState) : Except LoadError ParseState :=
  match st.t with
  | .name _ =>
      match st.rest with
      | .bad e :: _ => .error e
      | .tok t :: _ => if t = .char '=' then recfield cons r st else listfield cons st
      | [] => listfield cons st
  | .char c => if c = '[' then recfield cons r st else listfield cons st
  | _ => listfield cons st

/-- `constructor`, with `loop` for the fields and the closing brace -/
def constructorWith (loop : Nat → ParseState → Except LoadError ParseState) (st : ParseState) :
    Except LoadError (ParseState × ExpDesc) := do
  let r := st.fs.freereg
  let fs ← emit st.fs (.newTable r)
  let st ← checknext (.char '{') { st with fs := reserveReg fs }
  let st ← loop r st
  return (st, .nonreloc r)

/-- The loop of `constructor` and the closing brace; `n` bounds the fields. -/
def fieldsLoop : Nat → Nat → ParseState → Except LoadError ParseState
  | 0, _, _ => .error .outside
  | n + 1, r, st =>
      if st.t = .char '}' then luaXNext st
      else do
        let st ← field (constructorWith (fieldsLoop n)) r st
        if st.t = .char ',' ∨ st.t = .char ';' then do
          let st ← luaXNext st
          fieldsLoop n r st
        else checknext (.char '}') st

/-- `expr`, where `n` bounds the fields of a constructor -/
def expr (n : Nat) : ParseState → Except LoadError (ParseState × ExpDesc) :=
  exprWith (constructorWith (fieldsLoop n))

/-! ## Statements -/

/-- `block_follow` -/
def blockFollow : Token → Bool
  | .eos => true
  | .reserved s => s ∈ ["else".toList, "elseif".toList, "end".toList, "until".toList]
  | _ => false

def retstat (n : Nat) (st : ParseState) : Except LoadError ParseState := do
  let st ← luaXNext st
  if blockFollow st.t ∨ st.t = .char ';' then do
    let fs ← emit st.fs (.ret 0 1)
    return { st with fs := fs }
  else do
    let (st, e) ← expr n st
    if st.t = .char ',' then .error .outside
    else do
      let (fs, r) ← exp2anyreg st.fs e
      let fs ← emit fs (.ret r 2)
      return { st with fs := fs }

/-- `statement`; only a `return` goes through here -/
def statement (n : Nat) (st : ParseState) : Except LoadError ParseState :=
  match st.t with
  | .reserved s =>
      if s = "return".toList then retstat n st
      else if s ∈ ["if".toList, "while".toList, "do".toList, "for".toList, "repeat".toList,
          "function".toList, "local".toList, "break".toList] then .error .outside
      else .error .unexpected
  | .name s => do
      let st ← luaXNext st
      let _ ← addk st.fs s
      if goesOn st.t ∨ st.t = .char '=' ∨ st.t = .char ',' then .error .outside
      else .error .unexpected
  | .char c => if c = '(' then .error .outside else .error .unexpected
  | _ => .error .unexpected

def chunk (n : Nat) (st : ParseState) : Except LoadError ParseState :=
  if blockFollow st.t then .ok st
  else do
    let st ← statement n st
    if st.t = .char ';' then luaXNext st else return st

/-- `luaY_parser` -/
def luaYParser (l : List Lexed) : Except LoadError FuncState := do
  let st ← advance l .start
  let st ← chunk (l.length + 1) st
  if st.t = .eos then emit st.fs (.ret 0 1) else .error .unexpected

/-- `luaL_loadfile`, on a file with this text; a first line with `#` and code that has been
    compiled already are not modelled -/
def loadfile (text : LuaString) : Except LoadError FuncState :=
  if text.head? ∈ [some '#', some '\x1b'] then .error .outside
  else luaYParser (tokensOf text)

end Buildsh.Chunk
