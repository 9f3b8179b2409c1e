/-
  Torn chunks: the tokens of a constructor that break off.

  A step that fails ends in an error that Lua reports (`Fails`). `expr_cut`: where the tokens of
  a literal break off (`Cut`), the parser fails. The induction is the one of `expr_lit`: what is
  there of the fields in front of the break is parsed as a whole, and the break is within a key,
  within a value (which fails by itself), or between them.
-/
import Buildsh.Chunk.Literal

namespace Buildsh.Chunk

/-! ## Failing steps -/

/-- Ends in an error that Lua reports. -/
def Fails {α : Type} (x : Except LoadError α) : Prop := ∃ e : LoadError, e.Real ∧ x = .error e

/-- Every error is one that Lua reports. -/
def RealErrors {α : Type} (x : Except LoadError α) : Prop :=
  ∀ e : LoadError, x = .error e → e.Real

section Fails

variable {α β : Type} {x : Except LoadError α} {f : α → Except LoadError β}

theorem fails_unexpected : Fails (.error .unexpected : Except LoadError α) :=
  ⟨_, by simp [LoadError.Real], rfl⟩

theorem Fails.bind (h : Fails x) (f : α → Except LoadError β) : Fails (x >>= f) := by
  obtain ⟨e, he, rfl⟩ := h
  exact ⟨e, he, rfl⟩

theorem Fails.bind_then {γ : Type} (h : Fails (x >>= f)) (g : α → β → Except LoadError γ) :
    Fails (x >>= fun a => f a >>= g a) := by
  cases x with
  | error e =>
      obtain ⟨e', he, h⟩ := h
      cases h
      exact ⟨e, he, rfl⟩
  | ok a => exact Fails.bind (x := f a) h (g a)

theorem fails_bind (hx : RealErrors x) (hf : ∀ a, Fails (f a)) : Fails (x >>= f) := by
  cases x with
  | error e => exact ⟨e, hx e rfl, rfl⟩
  | ok a => exact hf a

theorem realErrors_ok (a : α) : RealErrors (.ok a) := fun e h => by cases h

theorem RealErrors.bind (hx : RealErrors x) (hf : ∀ a, RealErrors (f a)) :
    RealErrors (x >>= f) := by
  cases x with
  | error e =>
      intro e' h
      cases h
      exact hx e rfl
  | ok a => exact hf a

end Fails

theorem realErrors_addk (fs : FuncState) (s : LuaString) : RealErrors (addk fs s) := by
  unfold addk
  split
  · exact realErrors_ok _
  · split
    · exact realErrors_ok _
    · intro e h
      cases h
      simp [LoadError.Real]

theorem realErrors_emit (fs : FuncState) (i : Instr) : RealErrors (emit fs i) := by
  unfold emit
  split
  · exact realErrors_ok _
  · intro e h
    cases h
    simp [LoadError.Real]

theorem realErrors_exp2anyreg (fs : FuncState) (e : ExpDesc) : RealErrors (exp2anyreg fs e) := by
  cases e with
  | nonreloc r => exact realErrors_ok _
  | k i => exact (realErrors_emit _ _).bind fun _ => realErrors_ok _
  | global i => exact (realErrors_emit _ _).bind fun _ => realErrors_ok _

theorem realErrors_exp2RK (fs : FuncState) (e : ExpDesc) : RealErrors (exp2RK fs e) := by
  have hreg : RealErrors (exp2anyreg fs e >>= fun x => Except.ok (x.1, Operand.reg x.2)) :=
    (realErrors_exp2anyreg fs e).bind fun _ => realErrors_ok _
  cases e with
  | k i =>
      unfold exp2RK
      dsimp only
      split
      · exact realErrors_ok _
      · exact hreg
  | nonreloc r => exact hreg
  | global i => exact hreg

mutual

theorem realErrors_lit : ∀ (v : Lit) (fs : FuncState), RealErrors (v.gen fs)
  | .str s, fs => by
      rw [Lit.gen]
      exact (realErrors_addk fs s).bind fun _ => realErrors_ok _
  | .table fields, fs => by
      rw [Lit.gen]
      exact (realErrors_emit _ _).bind fun fs =>
        (realErrors_fields fields _ _).bind fun _ => realErrors_ok _

theorem realErrors_fields : ∀ (fields : Fields) (r : Nat) (fs : FuncState),
    RealErrors (fields.gen r fs)
  | .nil, r, fs => by
      rw [Fields.gen]
      exact realErrors_ok _
  | .cons key v fields, r, fs => by
      rw [Fields.gen]
      exact (realErrors_addk fs key.str).bind fun _ =>
        (realErrors_exp2RK _ _).bind fun _ => (realErrors_lit v _).bind fun _ =>
          (realErrors_exp2RK _ _).bind fun _ => (realErrors_emit _ _).bind fun _ =>
            realErrors_fields fields r _

end

/-! ## Where the tokens break off -/

/-- There is no token. -/
inductive Stopped : List Lexed → Prop
  | eos : Stopped [.tok .eos]
  | bad {e : LoadError} (he : e.Real) : Stopped [.bad e]

/-- A break in front of a token, within it if it is a word, or behind it. -/
theorem cut_cases {t : Token} {l : List Token} {s : List Lexed} (h : Cut (t :: l) s) :
    Stopped s ∨ (∃ w w', t = wordToken w ∧ w' <+: w ∧
      w ∈ ["return".toList, "input".toList, "output".toList] ∧
        s = [.tok (wordToken w'), .tok .eos]) ∨ ∃ s', s = .tok t :: s' ∧ Cut l s' := by
  generalize htl : t :: l = tl at h
  cases h with
  | eos _ => exact Or.inl .eos
  | bad he => exact Or.inl (.bad he)
  | word hp hnil hne hw =>
      cases htl
      exact Or.inr (Or.inl ⟨_, _, rfl, hp, hw, rfl⟩)
  | cons h =>
      cases htl
      exact Or.inr (Or.inr ⟨_, rfl, h⟩)

/-- A break in front of a token that is no word, or behind it. -/
theorem cut_token {t : Token} {l : List Token} {s : List Lexed} (ht : ∀ w, t ≠ wordToken w)
    (h : Cut (t :: l) s) : Stopped s ∨ ∃ s', s = .tok t :: s' ∧ Cut l s' := by
  rcases cut_cases h with hs | ⟨w, w', hw, -⟩ | hs
  · exact Or.inl hs
  · exact absurd hw (ht w)
  · exact Or.inr hs

theorem cut_length_pos {l : List Token} {s : List Lexed} (h : Cut l s) : 0 < s.length := by
  cases h <;> simp

theorem char_ne_word (c : Char) (w : LuaString) : Token.char c ≠ wordToken w := by
  unfold wordToken
  split <;> simp

theorem string_ne_word (s w : LuaString) : Token.string s ≠ wordToken w := by
  unfold wordToken
  split <;> simp

/-- What `advance` finds does not depend on the code. -/
theorem advance_cases (s : List Lexed) :
    (∃ e, ∀ fs, advance s fs = .error e) ∨ ∃ t rest, ∀ fs, advance s fs = .ok ⟨t, rest, fs⟩ := by
  rcases s with _ | ⟨t | e, rest⟩
  · exact Or.inr ⟨.eos, [], fun _ => rfl⟩
  · exact Or.inr ⟨t, rest, fun _ => rfl⟩
  · exact Or.inl ⟨e, fun _ => rfl⟩

/-- A step that looks at the current token and fails at the end of the text. -/
theorem fails_stopped {α : Type} {s : List Lexed} (h : Stopped s) {fs : FuncState}
    {f : ParseState → Except LoadError α} (heos : Fails (f ⟨.eos, [], fs⟩)) :
    Fails (advance s fs >>= f) := by
  cases h with
  | eos => exact heos
  | bad he => exact ⟨_, he, rfl⟩

section Cuts

variable {n r : Nat} {s : List Lexed} {fs : FuncState}
  {cons : ParseState → Except LoadError (ParseState × ExpDesc)}

/-- A name that is the last token. -/
theorem listfield_name_eos (w : LuaString) :
    listfield cons ⟨.name w, [.tok .eos], fs⟩ =
      addk fs w >>= fun x => .ok ⟨.eos, [], x.1⟩ := by
  have hbegin : beginsOther (.name w) = false := rfl
  simp only [listfield, exprWith, simpleexp, hbegin, luaXNext_tok, ok_bind, Bool.false_eq_true,
    if_false]
  cases addk fs w <;> rfl

/-- A name that is no key. -/
theorem fieldsLoop_name_eos (w : LuaString) :
    Fails (fieldsLoop (n + 1) r ⟨.name w, [.tok .eos], fs⟩) := by
  have hfield : field (constructorWith (fieldsLoop n)) r ⟨.name w, [.tok .eos], fs⟩ =
      listfield (constructorWith (fieldsLoop n)) ⟨.name w, [.tok .eos], fs⟩ := rfl
  rw [fieldsLoop, if_neg (by simp), hfield, listfield_name_eos, bind_assoc]
  exact fails_bind (realErrors_addk fs w) fun x => fails_unexpected

/-- The beginning of a word. -/
theorem fieldsLoop_word_eos {w w' : LuaString} (hp : w' <+: w)
    (hw : w ∈ ["return".toList, "input".toList, "output".toList]) :
    Fails (fieldsLoop (n + 1) r ⟨wordToken w', [.tok .eos], fs⟩) := by
  have hother : ∀ w ∈ ["return".toList, "input".toList, "output".toList],
      ∀ w' ∈ w.inits, beginsOther (wordToken w') = false := by decide +kernel
  have hbegin : beginsOther (wordToken w') = false := hother w hw w' (by simpa using hp)
  unfold wordToken at hbegin ⊢
  split
  · next hres =>
      rw [if_pos hres] at hbegin
      have hfield : field (constructorWith (fieldsLoop n)) r ⟨.reserved w', [.tok .eos], fs⟩ =
          .error .unexpected := by
        simp only [field, listfield, exprWith, hbegin, simpleexp, error_bind, Bool.false_eq_true,
          if_false]
      rw [fieldsLoop, if_neg (by simp), hfield]
      exact fails_unexpected
  · exact fieldsLoop_name_eos w'

/-- A string in brackets. -/
theorem fieldKey_string (str : LuaString) :
    fieldKey cons ⟨.char '[', .tok (.string str) :: s, fs⟩ =
      addk fs str >>= fun x => afterExpr s x.1 (.k x.2) >>= fun y =>
        checknext (.char ']') y.1 >>= fun st => .ok (st, .k x.2) := by
  simp only [fieldKey, yindex, luaXNext_tok, ok_bind, exprWith_str, bind_assoc]
  cases addk fs str with
  | error e => rfl
  | ok x =>
      simp only [ok_bind, afterExpr, bind_assoc]
      rcases advance_cases s with ⟨e, hs⟩ | ⟨t, rest, hs⟩
      · rw [hs]
        rfl
      · rw [hs, ok_bind, ok_bind]
        dsimp only
        split <;> rfl

/-- A break behind the bracket of a key. -/
theorem fails_bracket_cut {str : LuaString} (h : Cut [.string str, .char ']', .char '='] s) :
    Fails (fieldKey cons ⟨.char '[', s, fs⟩ >>= fun x => checknext (.char '=') x.1) := by
  rcases cut_token (string_ne_word str) h with hs | ⟨s₁, rfl, h₁⟩
  · have hkey : Fails (fieldKey cons ⟨.char '[', s, fs⟩) := by
      exact fails_stopped hs fails_unexpected
    exact hkey.bind _
  rw [fieldKey_string, bind_assoc]
  refine fails_bind (realErrors_addk fs str) fun x => ?_
  rw [bind_assoc, afterExpr, bind_assoc]
  rcases cut_token (char_ne_word ']') h₁ with hs | ⟨s₂, rfl, h₂⟩
  · exact fails_stopped hs fails_unexpected
  rcases cut_token (char_ne_word '=') h₂ with hs | ⟨s₃, rfl, h₃⟩
  · cases hs with
    | eos => exact fails_unexpected
    | bad he => exact ⟨_, he, rfl⟩
  · cases h₃

/-- A break within a key or in front of the `=` behind it. -/
theorem fieldsLoop_key_cut {key : Key}
    (h : Cut (key.first :: (key.others ++ [Token.char '='])) s) :
    Fails (advance s fs >>= fieldsLoop (n + 1) r) := by
  cases key with
  | bracket str =>
      rcases cut_token (char_ne_word '[') h with hs | ⟨s₁, rfl, h₁⟩
      · exact fails_stopped hs fails_unexpected
      have hrec : Fails (recfield (constructorWith (fieldsLoop n)) r ⟨.char '[', s₁, fs⟩) := by
        have hkey : Fails (fieldKey (constructorWith (fieldsLoop n)) ⟨.char '[', s₁, fs⟩ >>=
          fun x => checknext (.char '=') x.1) := fails_bracket_cut h₁
        exact hkey.bind_then _
      change Fails (fieldsLoop (n + 1) r ⟨.char '[', s₁, fs⟩)
      rw [fieldsLoop, if_neg (by simp)]
      exact hrec.bind _
  | ident w =>
      rcases cut_cases h with hs | ⟨w₁, w', -, hp, hw, rfl⟩ | ⟨s₁, rfl, h₁⟩
      · exact fails_stopped hs fails_unexpected
      · exact fieldsLoop_word_eos hp hw
      · rcases cut_token (char_ne_word '=') h₁ with hs | ⟨s₂, rfl, h₂⟩
        · cases hs with
          | eos => exact fieldsLoop_name_eos w
          | bad he => exact ⟨_, he, rfl⟩
        · cases h₂

/-- A value that breaks off, in front of the field that it belongs to. -/
theorem fails_value {β γ : Type} {f : ParseState → Except LoadError β}
    (h : ∀ fs, Fails (advance s fs >>= f)) (e : ExpDesc) (fs : FuncState)
    (g : FuncState × Operand → β → Except LoadError γ) :
    Fails (advance s fs >>= fun st => exp2RK st.fs e >>= fun x =>
      f { st with fs := x.1 } >>= g x) := by
  rcases advance_cases s with ⟨err, hs⟩ | ⟨t, rest, hs⟩
  · rw [hs]
    obtain ⟨err', herr, heq⟩ := h fs
    rw [hs] at heq
    cases heq
    exact ⟨err, herr, rfl⟩
  · rw [hs, ok_bind]
    refine fails_bind (realErrors_exp2RK fs e) fun x => ?_
    have hf : Fails (advance s x.1 >>= f) := h x.1
    rw [hs] at hf
    exact hf.bind _

/-- A field whose value breaks off. -/
theorem recfield_cut {key : Key} (h : ∀ fs, Fails (advance s fs >>= exprWith cons)) :
    Fails (recfield cons r ⟨key.first, key.others.map .tok ++ .tok (.char '=') :: s, fs⟩) := by
  rw [recfield_key]
  exact fails_bind (realErrors_addk fs key.str) fun x => fails_value h (.k x.2) x.1 _

/-- What follows a field that has been parsed. -/
def afterField (n r : Nat) (st : ParseState) : Except LoadError ParseState :=
  if st.t = .char ',' ∨ st.t = .char ';' then luaXNext st >>= fieldsLoop n r
  else checknext (.char '}') st

theorem fieldsLoop_field {key : Key} :
    fieldsLoop (n + 1) r ⟨key.first, key.others.map .tok ++ .tok (.char '=') :: s, fs⟩ =
      recfield (constructorWith (fieldsLoop n)) r
        ⟨key.first, key.others.map .tok ++ .tok (.char '=') :: s, fs⟩ >>= afterField n r := by
  rw [fieldsLoop, if_neg (first_ne_close key), field_key]
  rfl

/-- A field that breaks off in front of its comma. -/
theorem recfield_stopped {key : Key} {v : Lit} (hs : Stopped s)
    (hv : ∀ fs, exprWith cons ⟨v.first, v.others.map .tok ++ s, fs⟩ =
      v.gen fs >>= fun x => afterExpr s x.1 x.2) :
    Fails (recfield cons r ⟨key.first, key.others.map .tok ++ .tok (.char '=') :: .tok v.first ::
        (v.others.map .tok ++ s), fs⟩ >>= afterField n r) := by
  rw [recfield_key, bind_assoc]
  refine fails_bind (realErrors_addk fs key.str) fun x => ?_
  simp only [advance_tok, ok_bind, bind_assoc, hv]
  refine fails_bind (realErrors_exp2RK _ _) fun y => fails_bind (realErrors_lit v _) fun z => ?_
  cases hs with
  | bad he => exact ⟨_, he, rfl⟩
  | eos =>
      have hafter : afterExpr [.tok .eos] z.1 z.2 = .ok (⟨.eos, [], z.1⟩, z.2) := rfl
      rw [hafter, ok_bind]
      exact fails_bind (realErrors_exp2RK _ _) fun _ => fails_bind (realErrors_emit _ _) fun _ =>
        fails_unexpected

mutual

/-- **Torn literals.** -/
theorem expr_cut : ∀ (v : Lit) (n : Nat) (s : List Lexed) (fs : FuncState),
    Cut v.toks s → s.length ≤ n → Fails (advance s fs >>= expr n)
  | .str str, n, s, fs, h, _ => by
      rcases cut_token (string_ne_word str) h with hs | ⟨s₁, rfl, h₁⟩
      · exact fails_stopped hs fails_unexpected
      · cases h₁
  | .table fields, n, s, fs, h, hn => by
      rcases cut_token (char_ne_word '{') h with hs | ⟨s₁, rfl, h₁⟩
      · exact fails_stopped hs fails_unexpected
      have hlen : s₁.length ≤ n := by
        rw [List.length_cons] at hn
        omega
      have hcons : Fails (constructorWith (fieldsLoop n) ⟨.char '{', s₁, fs⟩) := by
        refine fails_bind (realErrors_emit _ _) fun fs₁ => ?_
        have hloop : Fails (advance s₁ (reserveReg fs₁) >>= fieldsLoop n fs.freereg) :=
          fieldsLoop_cut fields n fs.freereg s₁ (reserveReg fs₁) h₁ hlen
        exact hloop.bind_then _
      exact hcons.bind _

theorem fieldsLoop_cut : ∀ (fields : Fields) (n r : Nat) (s : List Lexed) (fs : FuncState),
    Cut (fields.toks ++ [Token.char '}']) s → s.length ≤ n →
    Fails (advance s fs >>= fieldsLoop n r)
  | .nil, n, r, s, fs, h, hn => by
      have hpos : 0 < s.length := cut_length_pos h
      obtain ⟨n, rfl⟩ : ∃ m, n = m + 1 := ⟨n - 1, by omega⟩
      rcases cut_token (char_ne_word '}') h with hs | ⟨s₁, rfl, h₁⟩
      · exact fails_stopped hs fails_unexpected
      · cases h₁
  | .cons key v fields, n, r, s, fs, h, hn => by
      have hpos : 0 < s.length := cut_length_pos h
      obtain ⟨n, rfl⟩ : ∃ m, n = m + 1 := ⟨n - 1, by omega⟩
      have htoks : (Fields.cons key v fields).toks ++ [Token.char '}'] =
          (key.first :: (key.others ++ [Token.char '='])) ++
            (v.toks ++ (Token.char ',' :: (fields.toks ++ [Token.char '}']))) := by
        simp [Fields.toks, Lit.toks]
      have hkey : ∀ s : List Lexed,
          (key.first :: (key.others ++ [Token.char '='])).map Lexed.tok ++ s =
            .tok key.first :: (key.others.map .tok ++ .tok (.char '=') :: s) := by simp
      have hval : ∀ s : List Lexed, v.toks.map Lexed.tok ++ s =
          .tok v.first :: (v.others.map .tok ++ s) := by simp [Lit.toks]
      rw [htoks] at h
      -- within the key
      rcases cut_append h with hcut | ⟨s₁, rfl, h₁⟩
      · exact fieldsLoop_key_cut hcut
      rw [hkey, advance_tok, ok_bind, fieldsLoop_field]
      simp only [List.length_append, List.length_map, List.length_cons, List.length_nil] at hn
      -- within the value
      rcases cut_append h₁ with hcut | ⟨s₂, rfl, h₂⟩
      · exact (recfield_cut fun fs => expr_cut v n s₁ fs hcut (by omega)).bind _
      rw [hval]
      rw [List.length_append, List.length_map, Lit.toks, List.length_cons] at hn
      have hlit : ∀ s fs, expr n ⟨v.first, v.others.map .tok ++ s, fs⟩ =
          v.gen fs >>= fun x => afterExpr s x.1 x.2 :=
        fun s fs => expr_lit v n s fs (by omega)
      -- in front of the comma, or behind it
      rcases cut_token (char_ne_word ',') h₂ with hs | ⟨s₃, rfl, h₃⟩
      · exact recfield_stopped hs fun fs => hlit s₂ fs
      · rw [List.length_cons] at hn
        rw [recfield_comma key fun fs => hlit (.tok (.char ',') :: s₃) fs, bind_assoc]
        refine fails_bind (realErrors_fields _ _ _) fun fs₁ => ?_
        exact fieldsLoop_cut fields n r s₃ fs₁ h₃ (by omega)

end

end Cuts

end Buildsh.Chunk
