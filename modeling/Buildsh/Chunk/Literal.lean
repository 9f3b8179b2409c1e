/-
  Constructors of strings, as the parser reads them.

  A `Lit` is a string or a constructor of literals with a key in front of each. `expr_lit`: on the
  tokens of a literal the parser does what `Lit.gen` does by recursion on the literal, and goes on
  behind them.
-/
import Buildsh.Chunk.Parse
import Buildsh.Chunk.Text

namespace Buildsh.Chunk

/-! ## Literals -/

/-- `[ "key" ]` or `key` -/
inductive Key where
  | bracket (s : LuaString)
  | ident (w : LuaString)

mutual

inductive Lit where
  | str (s : LuaString)
  | table (fields : Fields)

inductive Fields where
  | nil
  | cons (key : Key) (v : Lit) (fields : Fields)

end

namespace Key

def str : Key → LuaString
  | bracket s => s
  | ident w => w

/-- The names that are keys. -/
def Ok : Key → Prop
  | bracket _ => True
  | ident w => w ∈ ["input".toList, "output".toList]

def first : Key → Token
  | bracket _ => .char '['
  | ident w => .name w

def others : Key → List Token
  | bracket s => [.string s, .char ']']
  | ident _ => []

end Key

mutual

def Lit.Ok : Lit → Prop
  | .str _ => True
  | .table fields => fields.Ok

def Fields.Ok : Fields → Prop
  | .nil => True
  | .cons key v fields => key.Ok ∧ v.Ok ∧ fields.Ok

end

mutual

/-- The tokens behind the first one. -/
def Lit.others : Lit → List Token
  | .str _ => []
  | .table fields => fields.toks ++ [.char '}']

def Fields.toks : Fields → List Token
  | .nil => []
  | .cons key v fields =>
      key.first :: (key.others ++ .char '=' :: v.first :: (v.others ++ .char ',' :: fields.toks))

def Lit.first : Lit → Token
  | .str s => .string s
  | .table _ => .char '{'

end

def Lit.toks (v : Lit) : List Token := v.first :: v.others

mutual

/-- The code for a literal. -/
def Lit.gen : Lit → FuncState → Except LoadError (FuncState × ExpDesc)
  | .str s, fs => do
      let (fs, i) ← addk fs s
      return (fs, .k i)
  | .table fields, fs => do
      let r := fs.freereg
      let fs ← emit fs (.newTable r)
      let fs ← fields.gen r (reserveReg fs)
      return (fs, .nonreloc r)

/-- The code for fields of the table in register `r`. -/
def Fields.gen : Fields → Nat → FuncState → Except LoadError FuncState
  | .nil, _, fs => .ok fs
  | .cons key v fields, r, fs => do
      let reg := fs.freereg
      let (fs, i) ← addk fs key.str
      let (fs, rkkey) ← exp2RK fs (.k i)
      let (fs, e) ← v.gen fs
      let (fs, rkval) ← exp2RK fs e
      let fs ← emit fs (.setTable r rkkey rkval)
      fields.gen r { fs with freereg := reg }

end

/-! ## Literals are parsed -/

section Parse

variable {n r : Nat} {t : Token} {s : List Lexed} {fs : FuncState}

@[simp] theorem ok_bind {α β : Type} (a : α) (f : α → Except LoadError β) :
    (Except.ok a >>= f) = f a := rfl

@[simp] theorem error_bind {α β : Type} (e : LoadError) (f : α → Except LoadError β) :
    (Except.error e >>= f) = .error e := rfl

theorem bind_then {α β γ : Type} {x : Except LoadError α} {f : α → Except LoadError β}
    {y : Except LoadError β} (h : x >>= f = y) (g : β → Except LoadError γ) :
    (x >>= fun a => f a >>= g) = y >>= g := by
  rw [← h, bind_assoc]

@[simp] theorem advance_tok (t : Token) (s : List Lexed) (fs : FuncState) :
    advance (.tok t :: s) fs = .ok ⟨t, s, fs⟩ := rfl

@[simp] theorem luaXNext_tok (t' t : Token) (s : List Lexed) (fs : FuncState) :
    luaXNext ⟨t', .tok t :: s, fs⟩ = .ok ⟨t, s, fs⟩ := rfl

@[simp] theorem checknext_self (t' t : Token) (s : List Lexed) (fs : FuncState) :
    checknext t' ⟨t', .tok t :: s, fs⟩ = .ok ⟨t, s, fs⟩ := by
  rw [checknext, if_pos rfl, luaXNext_tok]

/-- What follows an expression must not be an operator. -/
def afterExpr (s : List Lexed) (fs : FuncState) (e : ExpDesc) :
    Except LoadError (ParseState × ExpDesc) := do
  let st ← advance s fs
  if isBinaryOp st.t then .error .outside else return (st, e)

theorem afterExpr_tok (ht : isBinaryOp t = false) (e : ExpDesc) :
    afterExpr (.tok t :: s) fs e = .ok (⟨t, s, fs⟩, e) := by
  simp only [afterExpr, advance_tok, ok_bind, ht]
  rfl

theorem exprWith_str (cons : ParseState → Except LoadError (ParseState × ExpDesc))
    (str : LuaString) :
    exprWith cons ⟨.string str, s, fs⟩ =
      addk fs str >>= fun x => afterExpr s x.1 (.k x.2) := by
  have hbegin : beginsOther (.string str) = false := rfl
  simp only [exprWith, simpleexp, hbegin, Bool.false_eq_true, if_false, bind_assoc, pure_bind]
  rfl

/-- A constructor whose fields are parsed by `loop`. -/
theorem exprWith_table {loop : Nat → ParseState → Except LoadError ParseState} {fields : Fields}
    (hloop : ∀ r fs, (advance (fields.toks.map .tok ++ .tok (.char '}') :: s) fs >>= loop r) =
      fields.gen r fs >>= advance s) :
    exprWith (constructorWith loop)
        ⟨.char '{', (fields.toks ++ [Token.char '}']).map .tok ++ s, fs⟩ =
      (Lit.table fields).gen fs >>= fun x => afterExpr s x.1 x.2 := by
  have hbegin : beginsOther (.char '{') = false := rfl
  have hrest : (fields.toks ++ [Token.char '}']).map Lexed.tok ++ s =
      fields.toks.map .tok ++ .tok (.char '}') :: s := by simp
  simp only [exprWith, hbegin, simpleexp, constructorWith, Lit.gen, hrest, checknext, if_true,
    luaXNext, Bool.false_eq_true, if_false, bind_assoc]
  cases emit fs (.newTable fs.freereg) with
  | error e => rfl
  | ok fs₁ =>
      simp only [ok_bind, pure_bind]
      rw [bind_then (hloop fs.freereg (reserveReg fs₁)), bind_assoc]
      rfl

theorem fieldKey_key (cons : ParseState → Except LoadError (ParseState × ExpDesc)) (key : Key) :
    fieldKey cons ⟨key.first, key.others.map .tok ++ .tok (.char '=') :: s, fs⟩ = do
      let (fs, i) ← addk fs key.str
      return (⟨.char '=', s, fs⟩, .k i) := by
  cases key with
  | ident w => rfl
  | bracket str =>
      simp only [Key.first, Key.others, fieldKey, yindex, List.map_cons, List.map_nil,
        List.cons_append, List.nil_append, luaXNext_tok, ok_bind, exprWith_str, Key.str]
      cases addk fs str <;> rfl

/-- A field, up to its value, which is parsed by `cons`. -/
theorem recfield_key {cons : ParseState → Except LoadError (ParseState × ExpDesc)} (key : Key) :
    recfield cons r ⟨key.first, key.others.map .tok ++ .tok (.char '=') :: s, fs⟩ = do
      let (fs₁, i) ← addk fs key.str
      let st ← advance s fs₁
      let (fs₂, rkkey) ← exp2RK st.fs (.k i)
      let (st, val) ← exprWith cons { st with fs := fs₂ }
      let (fs₃, rkval) ← exp2RK st.fs val
      let fs₄ ← emit fs₃ (.setTable r rkkey rkval)
      return { st with fs := { fs₄ with freereg := fs.freereg } } := by
  simp only [recfield, fieldKey_key, bind_assoc, pure_bind, checknext, if_true, luaXNext]

/-- A field that is followed by a comma, where `hv` parses its value. -/
theorem recfield_comma {cons : ParseState → Except LoadError (ParseState × ExpDesc)} (key : Key)
    {v : Lit}
    (hv : ∀ fs, exprWith cons ⟨v.first, v.others.map .tok ++ .tok (.char ',') :: s, fs⟩ =
      v.gen fs >>= fun x => afterExpr (.tok (.char ',') :: s) x.1 x.2) :
    recfield cons r ⟨key.first, key.others.map .tok ++ .tok (.char '=') :: .tok v.first ::
        (v.others.map .tok ++ .tok (.char ',') :: s), fs⟩ = do
      let fs ← (Fields.cons key v .nil).gen r fs
      return ⟨.char ',', s, fs⟩ := by
  have hcomma : isBinaryOp (.char ',') = false := rfl
  simp only [recfield_key, Fields.gen, bind_assoc, advance_tok, ok_bind, hv, afterExpr_tok hcomma]

theorem gen_cons (key : Key) (v : Lit) (fields : Fields) (r : Nat) (fs : FuncState) :
    (Fields.cons key v fields).gen r fs =
      (Fields.cons key v .nil).gen r fs >>= fun fs => fields.gen r fs := by
  simp only [Fields.gen, bind_assoc, ok_bind]

/-- A key begins a record field. -/
theorem field_key (cons : ParseState → Except LoadError (ParseState × ExpDesc)) (key : Key) :
    field cons r ⟨key.first, key.others.map .tok ++ .tok (.char '=') :: s, fs⟩ =
      recfield cons r ⟨key.first, key.others.map .tok ++ .tok (.char '=') :: s, fs⟩ := by
  cases key <;> rfl

theorem first_ne_close (key : Key) : key.first ≠ .char '}' := by cases key <;> simp [Key.first]

/-- A field that is followed by a comma, and what is behind it. -/
theorem fieldsLoop_cons {key : Key} {v : Lit} {fields : Fields}
    (hv : ∀ fs, expr n ⟨v.first, v.others.map .tok ++ .tok (.char ',') ::
        (fields.toks.map .tok ++ .tok (.char '}') :: s), fs⟩ =
      v.gen fs >>= fun x =>
        afterExpr (.tok (.char ',') :: (fields.toks.map .tok ++ .tok (.char '}') :: s)) x.1 x.2)
    (hrest : ∀ fs, (advance (fields.toks.map .tok ++ .tok (.char '}') :: s) fs >>=
      fieldsLoop n r) = fields.gen r fs >>= advance s) :
    (advance ((Fields.cons key v fields).toks.map .tok ++ .tok (.char '}') :: s) fs >>=
      fieldsLoop (n + 1) r) = (Fields.cons key v fields).gen r fs >>= advance s := by
  have htoks : (Fields.cons key v fields).toks.map Lexed.tok ++ .tok (.char '}') :: s =
      .tok key.first :: (key.others.map .tok ++ .tok (.char '=') :: .tok v.first ::
        (v.others.map .tok ++ .tok (.char ',') ::
          (fields.toks.map .tok ++ .tok (.char '}') :: s))) := by
    simp [Fields.toks]
  rw [htoks, advance_tok, ok_bind, fieldsLoop, if_neg (first_ne_close key), gen_cons, field_key,
    recfield_comma key hv]
  cases (Fields.cons key v .nil).gen r fs with
  | error e => rfl
  | ok fs₁ =>
      simp only [ok_bind, pure_bind, true_or, if_true]
      exact hrest fs₁

mutual

/-- **Literals.** The code for a literal is that of `Lit.gen`. -/
theorem expr_lit : ∀ (v : Lit) (n : Nat) (s : List Lexed) (fs : FuncState),
    v.others.length ≤ n →
    expr n ⟨v.first, v.others.map .tok ++ s, fs⟩ = v.gen fs >>= fun x => afterExpr s x.1 x.2
  | .str str, n, s, fs, _ => by
      change exprWith _ ⟨.string str, s, fs⟩ = _
      rw [exprWith_str _ str, Lit.gen]
      cases addk fs str <;> rfl
  | .table fields, n, s, fs, hn => by
      have hlen : fields.toks.length < n := by
        rw [Lit.others, List.length_append] at hn
        exact hn
      exact exprWith_table fun r fs => fieldsLoop_fields fields n r s fs hlen

theorem fieldsLoop_fields : ∀ (fields : Fields) (n r : Nat) (s : List Lexed) (fs : FuncState),
    fields.toks.length < n →
    (advance (fields.toks.map .tok ++ .tok (.char '}') :: s) fs >>= fieldsLoop n r) =
      fields.gen r fs >>= advance s
  | .nil, n, r, s, fs, hn => by
      obtain ⟨n, rfl⟩ : ∃ m, n = m + 1 := ⟨n - 1, by omega⟩
      rfl
  | .cons key v fields, n, r, s, fs, hn => by
      obtain ⟨n, rfl⟩ : ∃ m, n = m + 1 := ⟨n - 1, by omega⟩
      have hlen : v.others.length ≤ n ∧ fields.toks.length < n := by
        simp only [Fields.toks, List.length_cons, List.length_append] at hn
        omega
      exact fieldsLoop_cons (fun fs => expr_lit v n _ fs hlen.1)
        fun fs => fieldsLoop_fields fields n r s fs hlen.2

end

end Parse

end Buildsh.Chunk
