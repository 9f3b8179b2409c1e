/-
  What the code of a literal does, and whole chunks.

  `lit_runs`: run behind the code that is there already, the code of a literal leaves its value
  (`Lit.tree`) where the expression says, and changes no register that was in use.
  `luaYParser_return` is the result for a chunk that returns a table, and `luaYParser_cut` the one
  for a chunk that is torn: it fails, or it returns nothing.
-/
import Buildsh.Chunk.Compile

namespace Buildsh.Chunk
open FuncState

/-! ## Values -/

mutual

def Lit.tree : Lit → Tree
  | .str s => .str s
  | .table fields => .table (fields.fill [])

/-- The fields of a table, where `prev` are there already. -/
def Fields.fill : Fields → List (LuaString × Tree) → List (LuaString × Tree)
  | .nil, prev => prev
  | .cons key v fields, prev => fields.fill (setField key.str v.tree prev)

end

section Runs

variable (K : List LuaString)

/-- The registers before the code is run. -/
def Regs.start : Regs := fun _ => .nil

/-- The code is run up to its end. -/
def Runs (fs : FuncState) (regs : Regs) : Prop := steps K fs.code Regs.start = some regs

/-- The value of an expression. -/
def value (regs : Regs) : ExpDesc → Option Tree
  | .k i => (K[i]?).map .str
  | .nonreloc r => some (regs r)
  | .global _ => some .nil

end Runs

section Steps

variable {K : List LuaString} {fs : FuncState} {regs regs' : Regs}

theorem runs_put {i : Instr} (h : Runs K fs regs) (hi : step K regs i = some regs') :
    Runs K (fs.put i) regs' := by
  unfold Runs at h ⊢
  rw [code_put, steps_append, h, Option.bind_some, steps, hi]
  rfl

/-- A string that is a constant. -/
theorem getElem_index {s : LuaString} (h : (fs.addConstant s).k <+: K) :
    K[fs.index s]? = some s := by
  have hmem : s ∈ K := h.subset (mem_addConstant fs s)
  rw [← idxOf_eq_index h, List.getElem?_eq_getElem (List.idxOf_lt_length_of_mem hmem),
    List.getElem_idxOf]

/-- The registers below `n` are the same. -/
def SameBelow (n : Nat) (regs regs' : Regs) : Prop := ∀ i < n, regs' i = regs i

theorem SameBelow.trans {n : Nat} {regs'' : Regs} (h : SameBelow n regs regs')
    (h' : SameBelow n regs' regs'') : SameBelow n regs regs'' :=
  fun i hi => (h' i hi).trans (h i hi)

theorem SameBelow.mono {m n : Nat} (hmn : m ≤ n) (h : SameBelow n regs regs') :
    SameBelow m regs regs' := fun i hi => h i (by omega)

theorem sameBelow_update (n : Nat) (regs : Regs) (t : Tree) :
    SameBelow n regs (Function.update regs n t) := by
  intro i hi
  exact Function.update_of_ne (by omega) _ _

/-- A register that an operand or an expression names is in use. -/
def Operand.Below (n : Nat) : Operand → Prop
  | .reg r => r < n
  | .const _ => True

def ExpDesc.Below (n : Nat) : ExpDesc → Prop
  | .nonreloc r => r < n
  | _ => True

theorem operand_congr {n : Nat} {o : Operand} (ho : o.Below n) (h : SameBelow n regs regs') :
    operand K regs' o = operand K regs o := by
  cases o with
  | reg r => exact congrArg some (h r ho)
  | const i => rfl

end Steps

/-- The code up to `x` has put the value `t` where the operand says. -/
structure Loaded (K : List LuaString) (fs : FuncState) (regs : Regs) (x : FuncState × Operand)
    (t : Tree) (regs' : Regs) : Prop where
  runs : Runs K x.1 regs'
  same : SameBelow fs.freereg regs regs'
  val : operand K regs' x.2 = some t
  le : fs.freereg ≤ x.1.freereg
  below : x.2.Below x.1.freereg

/-- The code up to `x` has put the value `t` where the expression says. -/
structure Computed (K : List LuaString) (fs : FuncState) (regs : Regs) (x : FuncState × ExpDesc)
    (t : Tree) (regs' : Regs) : Prop where
  runs : Runs K x.1 regs'
  same : SameBelow fs.freereg regs regs'
  val : value K regs' x.2 = some t
  le : fs.freereg ≤ x.1.freereg
  below : x.2.Below x.1.freereg

section Literals

variable {K : List LuaString} {fs : FuncState} {regs : Regs}

/-- An expression becomes an operand. -/
theorem toRK_runs {e : ExpDesc} {t : Tree} (h : Runs K fs regs) (he : value K regs e = some t)
    (hglobal : ∀ i, e ≠ .global i) (hbelow : e.Below fs.freereg) :
    ∃ regs', Loaded K fs regs (fs.toRK e) t regs' := by
  cases e with
  | global i => exact absurd rfl (hglobal i)
  | nonreloc r => exact ⟨regs, h, fun _ _ => rfl, he, Nat.le_refl _, hbelow⟩
  | k i =>
      by_cases hi : i ≤ MAXINDEXRK
      · rw [toRK_low hi]
        exact ⟨regs, h, fun _ _ => rfl, he, Nat.le_refl _, trivial⟩
      · rw [toRK_high hi]
        refine ⟨Function.update regs fs.freereg t, ?_, sameBelow_update _ _ _, ?_, ?_, ?_⟩
        · refine runs_put h ?_
          simp only [value, Option.map_eq_some_iff] at he
          obtain ⟨s, hs, rfl⟩ := he
          simp [step, hs]
        · simp [operand]
        · simp [load, reserveReg]
        · simp [load, reserveReg, Operand.Below]

theorem key_runs {s : LuaString} (h : Runs K fs regs) (hK : (fs.addConstant s).k <+: K) :
    ∃ regs', Loaded K fs regs ((fs.addConstant s).toRK (.k (fs.index s))) (.str s) regs' := by
  have hadd : Runs K (fs.addConstant s) regs := by
    unfold Runs
    rw [code_addConstant]
    exact h
  have hval : value K regs (.k (fs.index s)) = some (.str s) := by
    simp [value, getElem_index hK]
  obtain ⟨regs', hrk⟩ := toRK_runs hadd hval (fun i => by simp) trivial
  have hfree : (fs.addConstant s).freereg = fs.freereg := freereg_addConstant fs s
  exact ⟨regs', hrk.runs, hfree ▸ hrk.same, hrk.val, hfree ▸ hrk.le, hrk.below⟩

/-- The field `key` of the table in register `r` is set. -/
theorem store_runs (reg : Nat) {r : Nat} {key v : Operand} {s : LuaString} {t : Tree}
    {prev : List (LuaString × Tree)} (h : Runs K fs regs) (hr : regs r = .table prev)
    (hkey : operand K regs key = some (.str s)) (hv : operand K regs v = some t) :
    Runs K (fs.store r key v reg) (Function.update regs r (.table (setField s t prev))) := by
  refine runs_put h ?_
  simp only [step, hr, hkey, hv]

theorem freereg_fields (fields : Fields) (r : Nat) (fs : FuncState) :
    (fields.compile r fs).freereg = fs.freereg := by
  cases fields with
  | nil => rfl
  | cons key v fields =>
      rw [Fields.compile]
      exact freereg_fields fields r _

mutual

/-- **Values.** The code of a literal gives its value. -/
theorem lit_runs : ∀ (v : Lit) (fs : FuncState) (regs : Regs), Runs K fs regs →
    (v.compile fs).1.k <+: K → ∃ regs', Computed K fs regs (v.compile fs) v.tree regs'
  | .str s, fs, regs, h, hK => by
      have hadd : Runs K (fs.addConstant s) regs := by
        unfold Runs
        rw [code_addConstant]
        exact h
      refine ⟨regs, hadd, fun _ _ => rfl, ?_, ?_, trivial⟩
      · have hidx : K[fs.index s]? = some s := getElem_index hK
        simp [Lit.compile, value, hidx, Lit.tree]
      · simp [Lit.compile]
  | .table fields, fs, regs, h, hK => by
      have hopen : Runs K fs.open_ (Function.update regs fs.freereg (.table [])) :=
        runs_put h rfl
      have hlt : fs.freereg < fs.open_.freereg := Nat.lt_succ_self _
      obtain ⟨regs', hrun, htable, hsame⟩ := fields_runs fields fs.freereg fs.open_ _ [] hopen
        (Function.update_self ..) hlt hK
      refine ⟨regs', hrun, ?_, ?_, ?_, ?_⟩
      · intro i hi
        rw [hsame i (by omega) (by omega), Function.update_of_ne (by omega)]
      · exact congrArg some htable
      · change fs.freereg ≤ (fields.compile fs.freereg fs.open_).freereg
        rw [freereg_fields]
        omega
      · change fs.freereg < (fields.compile fs.freereg fs.open_).freereg
        rw [freereg_fields]
        exact hlt

/-- The fields are set one after the other. -/
theorem fields_runs : ∀ (fields : Fields) (r : Nat) (fs : FuncState) (regs : Regs)
    (prev : List (LuaString × Tree)), Runs K fs regs → regs r = .table prev → r < fs.freereg →
    (fields.compile r fs).k <+: K →
    ∃ regs', Runs K (fields.compile r fs) regs' ∧ regs' r = .table (fields.fill prev) ∧
      ∀ i < fs.freereg, i ≠ r → regs' i = regs i
  | .nil, r, fs, regs, prev, h, hr, _, _ => ⟨regs, h, hr, fun _ _ _ => rfl⟩
  | .cons key v fields, r, fs, regs, prev, h, hr, hlt, hK => by
      rw [Fields.compile] at hK ⊢
      set x := (fs.addConstant key.str).toRK (.k (fs.index key.str)) with hx
      set y := v.compile x.1 with hy
      set z := y.1.toRK y.2 with hz
      have hzK : z.1.k <+: K :=
        (grows_fields fields r (z.1.store r x.2 z.2 fs.freereg)).1.trans hK
      have hyK : y.1.k <+: K := (grows_toRK y.1 y.2).1.trans hzK
      have hxK : (fs.addConstant key.str).k <+: K := by
        rw [← k_toRK (fs.addConstant key.str) (.k (fs.index key.str))]
        exact (grows_lit v x.1).1.trans hyK
      obtain ⟨regs₁, hkey⟩ := key_runs h hxK
      obtain ⟨regs₂, hval⟩ := lit_runs v x.1 regs₁ hkey.runs hyK
      obtain ⟨regs₃, hrk⟩ := toRK_runs hval.runs hval.val (compile_ne_global v x.1) hval.below
      -- the registers that were in use, and that of the key, are as they were
      have hsame : SameBelow x.1.freereg regs₁ regs₃ :=
        hval.same.trans (hrk.same.mono hval.le)
      have hsame₀ : SameBelow fs.freereg regs regs₃ := hkey.same.trans (hsame.mono hkey.le)
      have hr₃ : regs₃ r = .table prev := (hsame₀ r hlt).trans hr
      have hop : operand K regs₃ x.2 = some (.str key.str) :=
        (operand_congr hkey.below hsame).trans hkey.val
      have hstore := store_runs fs.freereg hrk.runs hr₃ hop hrk.val
      obtain ⟨regs', hrun, htable, hsame'⟩ := fields_runs fields r _ _ _ hstore
        (Function.update_self ..) hlt hK
      refine ⟨regs', hrun, htable, fun i hi hne => ?_⟩
      rw [hsame' i hi hne, Function.update_of_ne hne]
      exact hsame₀ i hi

end

end Literals

/-! ## Chunks -/

/-- The tokens of a chunk that returns a table. -/
def returnToks (fields : Fields) : List Token :=
  wordToken "return".toList :: (Lit.table fields).toks

/-- The chunk that returns a table, without the limits. -/
def returnCode (fields : Fields) : FuncState :=
  (((Lit.table fields).compile .start).1.put (.ret 0 2)).put (.ret 0 1)

section Chunks

variable (fields : Fields)

theorem retstat_table {n : Nat} {s : List Lexed} (hn : (Lit.table fields).others.length ≤ n)
    (t : Token) (fs : FuncState) :
    retstat n ⟨t, (Lit.table fields).toks.map .tok ++ .tok .eos :: s, fs⟩ =
      (Lit.table fields).gen fs >>= fun x => exp2anyreg x.1 x.2 >>= fun y =>
        emit y.1 (.ret y.2 2) >>= fun fs => .ok ⟨.eos, s, fs⟩ := by
  have htoks : (Lit.table fields).toks.map Lexed.tok ++ .tok .eos :: s =
      .tok (.char '{') :: ((Lit.table fields).others.map .tok ++ .tok .eos :: s) := rfl
  have hexpr := expr_lit (.table fields) n (.tok .eos :: s) fs hn
  change expr n ⟨.char '{', _, fs⟩ = _ at hexpr
  have hnot : ¬ (blockFollow (.char '{') = true ∨ Token.char '{' = .char ';') := by decide
  have heos : isBinaryOp .eos = false := rfl
  simp only [retstat, htoks, luaXNext_tok, ok_bind, hnot, if_false, hexpr, bind_assoc,
    afterExpr_tok heos]
  rfl

theorem luaYParser_return :
    luaYParser ((returnToks fields ++ [Token.eos]).map .tok) =
      (Lit.table fields).gen .start >>= fun x => exp2anyreg x.1 x.2 >>= fun y =>
        emit y.1 (.ret y.2 2) >>= fun fs => emit fs (.ret 0 1) := by
  have htoks : (returnToks fields ++ [Token.eos]).map Lexed.tok =
      .tok (.reserved "return".toList) :: ((Lit.table fields).toks.map .tok ++ [.tok .eos]) := by
    have hword : wordToken "return".toList = .reserved "return".toList := by decide +kernel
    rw [returnToks, hword]
    simp
  have hlen : (Lit.table fields).others.length ≤
      ((returnToks fields ++ [Token.eos]).map Lexed.tok).length + 1 := by
    simp only [returnToks, Lit.toks, List.length_map, List.length_append, List.length_cons]
    omega
  have hfollow : blockFollow (.reserved "return".toList) = false := by decide +kernel
  have hret := retstat_table (s := []) fields hlen (.reserved "return".toList) .start
  have hsemi : Token.eos ≠ .char ';' := by simp
  simp only [luaYParser]
  generalize ((returnToks fields ++ [Token.eos]).map Lexed.tok).length + 1 = n at hret
  rw [htoks]
  simp only [advance_tok, ok_bind, chunk, hfollow, Bool.false_eq_true, if_false, statement,
    if_true, hret, bind_assoc, hsemi]
  rfl

theorem compile_table : ((Lit.table fields).compile .start).2 = .nonreloc 0 := rfl

/-- The code of the chunk. -/
theorem yields_return : Yields (luaYParser ((returnToks fields ++ [Token.eos]).map .tok))
    (returnCode fields).Fits (returnCode fields) := by
  have hstart : FuncState.start.Fits := ⟨Nat.zero_le _, Nat.zero_le _⟩
  have hput : Grows (((Lit.table fields).compile .start).1.put (.ret 0 2)) (returnCode fields) :=
    grows_put _ _
  rw [luaYParser_return]
  refine (yields_lit (.table fields) .start hstart).bind (fun h₁ => ?_)
    ((grows_put _ _).trans hput).fits
  rw [compile_table]
  exact (yields_emit h₁ _).bind (fun h₂ => yields_emit h₂ _) hput.fits

/-- What the chunk returns. -/
theorem run_return : run (returnCode fields).k (returnCode fields).code Regs.start =
    some [(Lit.table fields).tree] := by
  have hk : (returnCode fields).k = ((Lit.table fields).compile .start).1.k := rfl
  have hcode : (returnCode fields).code =
      ((Lit.table fields).compile .start).1.code ++ [.ret 0 2, .ret 0 1] := by
    simp [returnCode]
  obtain ⟨regs, hregs⟩ := lit_runs (K := (returnCode fields).k) (.table fields) .start Regs.start
    rfl (hk ▸ List.prefix_refl _)
  have hval : some (regs 0) = some (Lit.table fields).tree := hregs.val
  rw [hcode, run_append _ hregs.runs]
  simp only [run]
  rw [← Option.some.inj hval]
  rfl

/-- The limits of the chunk. -/
theorem fits_return : (returnCode fields).Fits ↔
    (constants fields.operands).length ≤ MAXARG_Bx ∧
      (Lit.table fields).size (constants fields.operands) + 2 ≤ MAX_INT := by
  have hk : ((Lit.table fields).compile .start).1.k = constants fields.operands :=
    k_lit (.table fields) .start
  have hsize : ((Lit.table fields).compile .start).1.code.length =
      0 + (Lit.table fields).size (constants fields.operands) :=
    size_lit (.table fields) .start _ (hk ▸ List.prefix_refl _)
  have hcode : (returnCode fields).code.length =
      (Lit.table fields).size (constants fields.operands) + 2 := by
    simp [returnCode, hsize]
  rw [Fits, hcode]
  exact and_congr_left fun _ => by rw [← hk]; rfl

/-! ## Torn chunks -/

/-- The chunk is not read, or it returns nothing. -/
def ReadsNothing (x : Except LoadError FuncState) : Prop :=
  Fails x ∨ ∃ fs : FuncState, x = .ok fs ∧ run fs.k fs.code Regs.start = some []

theorem luaYParser_eos : ReadsNothing (luaYParser [.tok .eos]) := Or.inr ⟨_, rfl, rfl⟩

theorem luaYParser_bad {e : LoadError} (he : e.Real) (l : List Lexed) :
    Fails (luaYParser (.bad e :: l)) := ⟨e, he, rfl⟩

/-- A name that is the whole chunk. -/
theorem luaYParser_name (w : LuaString) : Fails (luaYParser [.tok (.name w), .tok .eos]) := by
  have hstat : ∀ n, statement n ⟨.name w, [.tok .eos], .start⟩ =
      addk .start w >>= fun _ => .error .unexpected := by
    intro n
    simp only [statement, luaXNext_tok, ok_bind]
    rfl
  have hchunk : ∀ n, Fails (chunk n ⟨.name w, [.tok .eos], .start⟩) := by
    intro n
    have hfollow : blockFollow (.name w) = false := rfl
    simp only [chunk, hfollow, Bool.false_eq_true, if_false, hstat]
    exact (fails_bind (realErrors_addk _ w) fun _ => fails_unexpected).bind _
  rw [luaYParser, advance_tok, ok_bind]
  exact (hchunk _).bind _

theorem luaYParser_bare :
    ReadsNothing (luaYParser [.tok (.reserved "return".toList), .tok .eos]) :=
  Or.inr ⟨⟨[], [.ret 0 1, .ret 0 1], 0⟩, by decide +kernel, rfl⟩

/-- A `return` that fails. -/
theorem luaYParser_retstat {s : List Lexed}
    (h : ∀ n, s.length ≤ n → Fails (retstat n ⟨.reserved "return".toList, s, .start⟩)) :
    Fails (luaYParser (.tok (.reserved "return".toList) :: s)) := by
  have hfollow : blockFollow (.reserved "return".toList) = false := by decide +kernel
  have hret := h ((Lexed.tok (.reserved "return".toList) :: s).length + 1) (by simp; omega)
  have hchunk : Fails (chunk ((Lexed.tok (.reserved "return".toList) :: s).length + 1)
      ⟨.reserved "return".toList, s, .start⟩) := by
    simp only [chunk, hfollow, Bool.false_eq_true, if_false, statement, if_true]
    exact hret.bind _
  exact hchunk.bind _

/-- A break within the literal. -/
theorem retstat_cut {n : Nat} {s : List Lexed} (hn : (Lexed.tok (.char '{') :: s).length ≤ n)
    (h : Cut (Lit.table fields).toks (.tok (.char '{') :: s)) (t : Token) (fs : FuncState) :
    Fails (retstat n ⟨t, .tok (.char '{') :: s, fs⟩) := by
  have hexpr : Fails (expr n ⟨.char '{', s, fs⟩) := expr_cut (.table fields) n _ fs h hn
  have hnot : ¬ (blockFollow (.char '{') = true ∨ Token.char '{' = .char ';') := by decide
  simp only [retstat, luaXNext_tok, ok_bind, hnot, if_false]
  exact hexpr.bind _

/-- A break behind the literal. -/
theorem retstat_bad {n : Nat} {e : LoadError} (he : e.Real)
    (hn : (Lit.table fields).others.length ≤ n) (t : Token) (fs : FuncState) :
    Fails (retstat n ⟨t, (Lit.table fields).toks.map .tok ++ [.bad e], fs⟩) := by
  have htoks : (Lit.table fields).toks.map Lexed.tok ++ [.bad e] =
      .tok (.char '{') :: ((Lit.table fields).others.map .tok ++ [.bad e]) := rfl
  have hexpr := expr_lit (.table fields) n [.bad e] fs hn
  change expr n ⟨.char '{', _, fs⟩ = _ at hexpr
  have hnot : ¬ (blockFollow (.char '{') = true ∨ Token.char '{' = .char ';') := by decide
  simp only [retstat, htoks, luaXNext_tok, ok_bind, hnot, if_false, hexpr]
  exact (fails_bind (realErrors_lit _ _) fun x => ⟨e, he, rfl⟩).bind _

theorem cut_eos {s : List Lexed} (h : Cut [Token.eos] s) :
    ∃ e : LoadError, e.Real ∧ s = [.bad e] := by
  generalize htl : [Token.eos] = tl at h
  cases h with
  | eos ht =>
      cases htl
      exact absurd rfl ht
  | bad he => exact ⟨_, he, rfl⟩
  | word hp hnil hne hw =>
      injection htl with hw _
      exact absurd hw.symm (wordToken_ne_eos _)
  | cons h =>
      cases htl
      cases h

/-- The beginnings of `return`. -/
theorem word_return : ∀ w ∈ ["return".toList, "input".toList, "output".toList],
    wordToken "return".toList = wordToken w → ∀ w' ∈ w.inits,
      wordToken w' = .name w' ∨ wordToken w' = .reserved "return".toList := by decide +kernel

/-- **Torn chunks.** -/
theorem luaYParser_cut {s : List Lexed} (h : Cut (returnToks fields ++ [Token.eos]) s) :
    ReadsNothing (luaYParser s) := by
  have hword : wordToken "return".toList = .reserved "return".toList := by decide +kernel
  rcases cut_cases h with hs | ⟨w, w', hw, hp, hmem, rfl⟩ | ⟨s₁, rfl, h₁⟩
  · cases hs with
    | eos => exact luaYParser_eos
    | bad he => exact Or.inl (luaYParser_bad he [])
  · rcases word_return w hmem hw w' (by simpa using hp) with hname | hret
    · rw [hname]
      exact Or.inl (luaYParser_name w')
    · rw [hret]
      exact luaYParser_bare
  rw [hword]
  rcases cut_append h₁ with hcut | ⟨s₂, rfl, h₂⟩
  · rcases cut_token (char_ne_word '{') hcut with hs | ⟨s₃, rfl, -⟩
    · cases hs with
      | eos => exact luaYParser_bare
      | bad he => exact Or.inl (luaYParser_retstat fun n _ => ⟨_, he, rfl⟩)
    · exact Or.inl (luaYParser_retstat fun n hn => retstat_cut fields hn hcut _ _)
  · obtain ⟨e, he, rfl⟩ := cut_eos h₂
    refine Or.inl (luaYParser_retstat fun n hn => retstat_bad fields he ?_ _ _)
    rw [List.length_append, List.length_map, Lit.toks, List.length_cons] at hn
    omega

end Chunks

end Buildsh.Chunk
