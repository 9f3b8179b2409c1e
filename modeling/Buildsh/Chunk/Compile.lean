/-
  The code of a literal, without the limits.

  `Lit.compile` is `Lit.gen` without the limits on constants and instructions. `yields_lit`:
  `gen` gives the same code if that code is within the limits (`Fits`), and fails otherwise. The
  code only grows, so that the limits hold on the way if they hold at the end. `k_lit` and
  `size_lit` count the constants and the instructions.
-/
import Buildsh.Chunk.Torn

namespace Buildsh.Chunk

/-! ## Steps that can fail -/

/-- Gives `a` where `P` holds, and fails elsewhere. -/
def Yields {α : Type} (x : Except LoadError α) (P : Prop) (a : α) : Prop :=
  (P → x = .ok a) ∧ (¬ P → Fails x)

section Yields

variable {α β : Type} {x : Except LoadError α} {f : α → Except LoadError β} {P Q : Prop}
  {a : α} {b : β}

theorem yields_ok (hP : P) : Yields (.ok a) P a := ⟨fun _ => rfl, fun h => absurd hP h⟩

/-- The second step, where its condition implies that of the first one. -/
theorem Yields.bind (hx : Yields x P a) (hf : P → Yields (f a) Q b) (hPQ : Q → P) :
    Yields (x >>= f) Q b := by
  constructor
  · intro hQ
    rw [hx.1 (hPQ hQ)]
    exact (hf (hPQ hQ)).1 hQ
  · intro hQ
    by_cases hP : P
    · rw [hx.1 hP]
      exact (hf hP).2 hQ
    · exact (hx.2 hP).bind f

end Yields

/-! ## Code without limits -/

namespace FuncState

/-- Within the limits. -/
def Fits (fs : FuncState) : Prop := fs.k.length ≤ MAXARG_Bx ∧ fs.code.length ≤ MAX_INT

/-- `addk` -/
def addConstant (fs : FuncState) (s : LuaString) : FuncState :=
  if s ∈ fs.k then fs else { fs with k := fs.k ++ [s] }

/-- `luaK_code` -/
def put (fs : FuncState) (i : Instr) : FuncState := { fs with code := fs.code ++ [i] }

/-- Constants and code are added behind those that are there. -/
def Grows (fs fs' : FuncState) : Prop := fs.k <+: fs'.k ∧ fs.code <+: fs'.code

variable {fs fs' fs'' : FuncState}

theorem Grows.refl (fs : FuncState) : Grows fs fs := ⟨List.prefix_refl _, List.prefix_refl _⟩

theorem Grows.trans (h : Grows fs fs') (h' : Grows fs' fs'') : Grows fs fs'' :=
  ⟨h.1.trans h'.1, h.2.trans h'.2⟩

theorem Grows.fits (h : Grows fs fs') (hfits : fs'.Fits) : fs.Fits :=
  ⟨h.1.length_le.trans hfits.1, h.2.length_le.trans hfits.2⟩

theorem grows_addConstant (fs : FuncState) (s : LuaString) : Grows fs (fs.addConstant s) := by
  unfold addConstant
  split
  · exact Grows.refl fs
  · exact ⟨List.prefix_append _ _, List.prefix_refl _⟩

theorem grows_put (fs : FuncState) (i : Instr) : Grows fs (fs.put i) :=
  ⟨List.prefix_refl _, List.prefix_append _ _⟩

@[simp] theorem k_put (fs : FuncState) (i : Instr) : (fs.put i).k = fs.k := rfl

@[simp] theorem freereg_put (fs : FuncState) (i : Instr) : (fs.put i).freereg = fs.freereg := rfl

@[simp] theorem code_put (fs : FuncState) (i : Instr) : (fs.put i).code = fs.code ++ [i] := rfl

@[simp] theorem code_addConstant (fs : FuncState) (s : LuaString) :
    (fs.addConstant s).code = fs.code := by
  unfold addConstant
  split <;> rfl

@[simp] theorem freereg_addConstant (fs : FuncState) (s : LuaString) :
    (fs.addConstant s).freereg = fs.freereg := by
  unfold addConstant
  split <;> rfl

theorem mem_addConstant (fs : FuncState) (s : LuaString) : s ∈ (fs.addConstant s).k := by
  unfold addConstant
  split
  · assumption
  · simp

/-- The index of a constant. -/
def index (fs : FuncState) (s : LuaString) : Nat := (fs.addConstant s).k.idxOf s

theorem yields_addk (h : fs.Fits) (s : LuaString) :
    Yields (addk fs s) (fs.addConstant s).Fits (fs.addConstant s, fs.index s) := by
  by_cases hs : s ∈ fs.k
  · have hadd : fs.addConstant s = fs := by rw [addConstant, if_pos hs]
    rw [addk, if_pos hs, index, hadd]
    exact yields_ok h
  · have hadd : fs.addConstant s = { fs with k := fs.k ++ [s] } := by rw [addConstant, if_neg hs]
    have hidx : fs.index s = fs.k.length := by
      rw [index, hadd, List.idxOf_append_of_notMem hs]
      simp
    have hfits : (fs.addConstant s).Fits ↔ fs.k.length < MAXARG_Bx := by
      rw [hadd, Fits, List.length_append, List.length_singleton]
      exact ⟨fun h => h.1, fun hlt => ⟨hlt, h.2⟩⟩
    rw [addk, if_neg hs, hfits, hidx, hadd]
    constructor
    · intro hlt
      rw [if_pos hlt]
    · intro hlt
      rw [if_neg hlt]
      exact ⟨.constantOverflow, by simp [LoadError.Real], rfl⟩

theorem yields_emit (h : fs.Fits) (i : Instr) :
    Yields (emit fs i) (fs.put i).Fits (fs.put i) := by
  have hfits : (fs.put i).Fits ↔ fs.code.length < MAX_INT := by
    rw [Fits, code_put, List.length_append, List.length_singleton]
    exact ⟨fun h => h.2, fun hlt => ⟨h.1, hlt⟩⟩
  rw [hfits, emit]
  constructor
  · intro hlt
    rw [if_pos hlt]
    rfl
  · intro hlt
    rw [if_neg hlt]
    exact ⟨.codeOverflow, by simp [LoadError.Real], rfl⟩

/-- `luaK_exp2anyreg` for a constant -/
def load (fs : FuncState) (i : Nat) : FuncState := reserveReg (fs.put (.loadK fs.freereg i))

/-- `luaK_exp2RK`, for constants and registers -/
def toRK (fs : FuncState) : ExpDesc → FuncState × Operand
  | .k i => if i ≤ MAXINDEXRK then (fs, .const i) else (fs.load i, .reg fs.freereg)
  | .nonreloc r | .global r => (fs, .reg r)

theorem toRK_low {i : Nat} (h : i ≤ MAXINDEXRK) (fs : FuncState) :
    fs.toRK (.k i) = (fs, .const i) := if_pos h

theorem toRK_high {i : Nat} (h : ¬ i ≤ MAXINDEXRK) (fs : FuncState) :
    fs.toRK (.k i) = (fs.load i, .reg fs.freereg) := if_neg h

theorem grows_load (fs : FuncState) (i : Nat) : Grows fs (fs.load i) := grows_put fs _

theorem grows_toRK (fs : FuncState) (e : ExpDesc) : Grows fs (fs.toRK e).1 := by
  cases e with
  | k i =>
      by_cases hi : i ≤ MAXINDEXRK
      · rw [toRK_low hi]
        exact Grows.refl fs
      · rw [toRK_high hi]
        exact grows_load fs i
  | nonreloc r => exact Grows.refl fs
  | global r => exact Grows.refl fs

theorem yields_toRK (h : fs.Fits) {e : ExpDesc} (he : ∀ i, e ≠ .global i) :
    Yields (exp2RK fs e) (fs.toRK e).1.Fits (fs.toRK e) := by
  cases e with
  | global i => exact absurd rfl (he i)
  | nonreloc r => exact yields_ok h
  | k i =>
      unfold exp2RK
      dsimp only
      by_cases hi : i ≤ MAXINDEXRK
      · rw [toRK_low hi, if_pos hi]
        exact yields_ok h
      · rw [toRK_high hi, if_neg hi]
        refine Yields.bind (P := (fs.load i).Fits) (a := (fs.load i, fs.freereg)) ?_
          (fun hfits => yields_ok hfits) id
        exact (yields_emit h _).bind (fun hfits => yields_ok hfits) id

@[simp] theorem k_toRK (fs : FuncState) (e : ExpDesc) : (fs.toRK e).1.k = fs.k := by
  cases e with
  | k i =>
      by_cases hi : i ≤ MAXINDEXRK
      · rw [toRK_low hi]
      · rw [toRK_high hi]
        rfl
  | nonreloc r => rfl
  | global r => rfl

/-- The table `r` gets a field, and the registers above `reg` are free again. -/
def store (fs : FuncState) (r : Nat) (key v : Operand) (reg : Nat) : FuncState :=
  { fs.put (.setTable r key v) with freereg := reg }

theorem grows_store (fs : FuncState) (r : Nat) (key v : Operand) (reg : Nat) :
    Grows fs (fs.store r key v reg) := grows_put fs _

/-- The table `freereg` is made. -/
def open_ (fs : FuncState) : FuncState := reserveReg (fs.put (.newTable fs.freereg))

theorem grows_open (fs : FuncState) : Grows fs fs.open_ := grows_put fs _

end FuncState

open FuncState

mutual

/-- `Lit.gen` without the limits -/
def Lit.compile : Lit → FuncState → FuncState × ExpDesc
  | .str s, fs => (fs.addConstant s, .k (fs.index s))
  | .table fields, fs => (fields.compile fs.freereg fs.open_, .nonreloc fs.freereg)

/-- `Fields.gen` without the limits -/
def Fields.compile : Fields → Nat → FuncState → FuncState
  | .nil, _, fs => fs
  | .cons key v fields, r, fs =>
      let x := (fs.addConstant key.str).toRK (.k (fs.index key.str))
      let y := v.compile x.1
      let z := y.1.toRK y.2
      fields.compile r (z.1.store r x.2 z.2 fs.freereg)

end

mutual

theorem grows_lit : ∀ (v : Lit) (fs : FuncState), Grows fs (v.compile fs).1
  | .str s, fs => grows_addConstant fs s
  | .table fields, fs => (grows_open fs).trans (grows_fields fields fs.freereg fs.open_)

theorem grows_fields : ∀ (fields : Fields) (r : Nat) (fs : FuncState),
    Grows fs (fields.compile r fs)
  | .nil, _, fs => Grows.refl fs
  | .cons key v fields, r, fs => by
      rw [Fields.compile]
      have hkey := grows_toRK (fs.addConstant key.str) (.k (fs.index key.str))
      have hv := grows_lit v ((fs.addConstant key.str).toRK (.k (fs.index key.str))).1
      exact (grows_addConstant fs key.str).trans <| hkey.trans <| hv.trans <|
        (grows_toRK _ _).trans <| (grows_store _ _ _ _ _).trans (grows_fields fields r _)

end

theorem compile_ne_global (v : Lit) (fs : FuncState) (i : Nat) : (v.compile fs).2 ≠ .global i := by
  cases v <;> simp [Lit.compile]

mutual

/-- **Limits.** The code is that of `compile`, if it is within the limits. -/
theorem yields_lit : ∀ (v : Lit) (fs : FuncState), fs.Fits →
    Yields (v.gen fs) (v.compile fs).1.Fits (v.compile fs)
  | .str s, fs, h => by
      rw [Lit.gen]
      exact (yields_addk h s).bind (fun h₁ => yields_ok h₁) id
  | .table fields, fs, h => by
      have hgrows : Grows fs.open_ (fields.compile fs.freereg fs.open_) :=
        grows_fields fields fs.freereg fs.open_
      rw [Lit.gen]
      refine (yields_emit h _).bind (fun h₁ => ?_) hgrows.fits
      exact (yields_fields fields fs.freereg fs.open_ h₁).bind (fun h₂ => yields_ok h₂) id

theorem yields_fields : ∀ (fields : Fields) (r : Nat) (fs : FuncState), fs.Fits →
    Yields (fields.gen r fs) (fields.compile r fs).Fits (fields.compile r fs)
  | .nil, r, fs, h => yields_ok h
  | .cons key v fields, r, fs, h => by
      rw [Fields.gen, Fields.compile]
      set x := (fs.addConstant key.str).toRK (.k (fs.index key.str)) with hx
      set y := v.compile x.1 with hy
      set z := y.1.toRK y.2 with hz
      set fs₁ := z.1.store r x.2 z.2 fs.freereg with hfs₁
      -- the code at each step grows to the code at the end
      have h₁ : Grows fs₁ (fields.compile r fs₁) := grows_fields fields r fs₁
      have hz₁ : Grows z.1 (fields.compile r fs₁) := (grows_store _ _ _ _ _).trans h₁
      have hy₁ : Grows y.1 (fields.compile r fs₁) := (grows_toRK y.1 y.2).trans hz₁
      have hx₁ : Grows x.1 (fields.compile r fs₁) := (grows_lit v x.1).trans hy₁
      have ha₁ : Grows (fs.addConstant key.str) (fields.compile r fs₁) :=
        (grows_toRK _ _).trans hx₁
      refine (yields_addk h key.str).bind (fun ha => ?_) ha₁.fits
      refine (yields_toRK ha fun i => by simp).bind (fun hxf => ?_) hx₁.fits
      refine (yields_lit v x.1 hxf).bind (fun hyf => ?_) hy₁.fits
      refine (yields_toRK hyf (compile_ne_global v x.1)).bind (fun hzf => ?_) hz₁.fits
      refine (yields_emit hzf (.setTable r x.2 z.2)).bind (fun hf => ?_) h₁.fits
      exact yields_fields fields r fs₁ hf

end

/-! ## Constants and instructions -/

mutual

/-- The strings that are constants of the code, in the order of their use. -/
def Lit.operands : Lit → List LuaString
  | .str s => [s]
  | .table fields => fields.operands

def Fields.operands : Fields → List LuaString
  | .nil => []
  | .cons key v fields => key.str :: (v.operands ++ fields.operands)

end

/-- A constant that is new stands behind the others. -/
def pushNew (k : List LuaString) (s : LuaString) : List LuaString :=
  if s ∈ k then k else k ++ [s]

/-- Each string once, in the order of its first use. -/
def constants (l : List LuaString) : List LuaString := l.foldl pushNew []

theorem k_addConstant (fs : FuncState) (s : LuaString) :
    (fs.addConstant s).k = pushNew fs.k s := by
  unfold addConstant pushNew
  split <;> rfl

mutual

theorem k_lit : ∀ (v : Lit) (fs : FuncState), (v.compile fs).1.k = v.operands.foldl pushNew fs.k
  | .str s, fs => k_addConstant fs s
  | .table fields, fs => k_fields fields fs.freereg fs.open_

theorem k_fields : ∀ (fields : Fields) (r : Nat) (fs : FuncState),
    (fields.compile r fs).k = fields.operands.foldl pushNew fs.k
  | .nil, _, fs => rfl
  | .cons key v fields, r, fs => by
      rw [Fields.compile, k_fields fields, Fields.operands, List.foldl_cons, List.foldl_append,
        ← k_addConstant fs key.str, ← k_toRK (fs.addConstant key.str) (.k (fs.index key.str)),
        ← k_lit v]
      exact congrArg (fields.operands.foldl pushNew) (k_toRK _ _)

end

theorem mem_pushNew {k : List LuaString} {s x : LuaString} :
    x ∈ pushNew k s ↔ x ∈ k ∨ x = s := by
  unfold pushNew
  split
  · next hs =>
      constructor
      · exact Or.inl
      · rintro (h | rfl)
        exacts [h, hs]
  · simp

theorem mem_foldl_pushNew {l k : List LuaString} {x : LuaString} :
    x ∈ l.foldl pushNew k ↔ x ∈ k ∨ x ∈ l := by
  induction l generalizing k with
  | nil => simp
  | cons s l ih => rw [List.foldl_cons, ih, mem_pushNew, List.mem_cons, or_assoc]

theorem mem_constants {l : List LuaString} {x : LuaString} : x ∈ constants l ↔ x ∈ l := by
  simp [constants, mem_foldl_pushNew]

/-- A constant with a high index is loaded into a register by an instruction of its own. -/
def loads (k : List LuaString) (s : LuaString) : Nat := if MAXINDEXRK < k.idxOf s then 1 else 0

mutual

/-- The number of instructions, where `k` are the constants of the chunk. -/
def Lit.size (k : List LuaString) : Lit → Nat
  | .str s => loads k s
  | .table fields => 1 + fields.size k

def Fields.size (k : List LuaString) : Fields → Nat
  | .nil => 0
  | .cons key v fields => loads k key.str + v.size k + 1 + fields.size k

end

/-- An index stays what it is when constants are added. -/
theorem idxOf_eq_index {K : List LuaString} {fs : FuncState} {s : LuaString}
    (h : (fs.addConstant s).k <+: K) : K.idxOf s = fs.index s := by
  obtain ⟨t, rfl⟩ := h
  exact List.idxOf_append_of_mem (mem_addConstant fs s)

theorem code_constant {K : List LuaString} {fs : FuncState} {s : LuaString}
    (h : (fs.addConstant s).k <+: K) :
    ((fs.addConstant s).toRK (.k (fs.index s))).1.code.length = fs.code.length + loads K s := by
  rw [loads, idxOf_eq_index h]
  by_cases hi : fs.index s ≤ MAXINDEXRK
  · rw [toRK_low hi, if_neg (by omega), code_addConstant, Nat.add_zero]
  · rw [toRK_high hi, if_pos (by omega)]
    simp [load, reserveReg]

mutual

theorem size_lit : ∀ (v : Lit) (fs : FuncState) (K : List LuaString),
    (v.compile fs).1.k <+: K →
    ((v.compile fs).1.toRK (v.compile fs).2).1.code.length = fs.code.length + v.size K
  | .str s, fs, K, h => code_constant h
  | .table fields, fs, K, h => by
      have hsize := size_fields fields fs.freereg fs.open_ K h
      change (fields.compile fs.freereg fs.open_).code.length = _
      rw [hsize, Lit.size]
      simp [open_, reserveReg]
      omega

theorem size_fields : ∀ (fields : Fields) (r : Nat) (fs : FuncState) (K : List LuaString),
    (fields.compile r fs).k <+: K →
    (fields.compile r fs).code.length = fs.code.length + fields.size K
  | .nil, _, fs, K, _ => rfl
  | .cons key v fields, r, fs, K, h => by
      rw [Fields.compile] at h ⊢
      set x := (fs.addConstant key.str).toRK (.k (fs.index key.str)) with hx
      set y := v.compile x.1 with hy
      set z := y.1.toRK y.2 with hz
      have hrest : z.1.k <+: K :=
        (grows_fields fields r (z.1.store r x.2 z.2 fs.freereg)).1.trans h
      have hyK : y.1.k <+: K := (grows_toRK y.1 y.2).1.trans hrest
      have hxK : (fs.addConstant key.str).k <+: K := by
        rw [← k_toRK (fs.addConstant key.str) (.k (fs.index key.str))]
        exact (grows_lit v x.1).1.trans hyK
      have hkey : x.1.code.length = fs.code.length + loads K key.str := code_constant hxK
      have hval : z.1.code.length = x.1.code.length + v.size K := size_lit v x.1 K hyK
      rw [size_fields fields r _ K h, Fields.size]
      simp only [store, code_put, List.length_append, List.length_singleton]
      omega

end

end Buildsh.Chunk
