/-
  `make_env` and `make_env_with_executables` of `build.lua`: the environment of a build script.

  A name of `gt` becomes a function that runs the program. The script finds it as the global `$n`
  if it reads this global somewhere, and as the result of `$"n"` in any case. `resolves_iff`: this
  needs that every instruction that reads a `$n` has a line, since `check_bytecode` stores the line
  as the entry of the name. In a chunk without line information the entry is `nil`.
-/
import Buildsh.Bytecode
import Buildsh.FindExec

namespace Buildsh.DollarEnv
open Buildsh.Bytecode Buildsh.FindExec

/-! ## The environment -/

/-- A function that `make.run` has made. Each call makes another one. -/
structure RunFn where
  prog : Constant
  id : Nat
  deriving DecidableEq, Repr

inductive Global where
  | dollar
  | run (f : RunFn)
  deriving DecidableEq, Repr

/-- The table `env`, without what it inherits from `_G`, and the table of the function `dollar`. -/
structure Env where
  globals : LuaString → Option Global
  specialEnv : Constant → Option RunFn
  /-- the functions that have been made -/
  made : Nat

/-- `make.run( p )` -/
def Env.makeRun (e : Env) (p : Constant) : RunFn × Env := (⟨p, e.made⟩, { e with made := e.made + 1 })

def Env.dollar (e : Env) (p : Constant) : RunFn × Env :=
  match e.specialEnv p with
  | some f => (f, e)
  | none =>
      let (f, e) := e.makeRun p
      (f, { e with specialEnv := Function.update e.specialEnv p (some f) })

section Make

variable (numText : Nat → LuaString)

/-- `"$"..name` -/
def globalName : Constant → Except LuaError LuaString
  | .str n => .ok ('$' :: n)
  | .num n => .ok ('$' :: numText n)
  | .bool _ => .error (.message "attempt to concatenate a boolean value".toList)
  | .nil => .error (.message "attempt to concatenate a nil value".toList)

/-- One name in the loop of `make_env`. -/
def addName (special : Constant → Bool) (e : Env) (name : Constant) : Except LuaError Env :=
  let (rp, e) := e.makeRun name
  let e := { e with specialEnv := Function.update e.specialEnv name (some rp) }
  if special name then .ok e
  else
    match globalName numText name with
    | .error err => .error err
    | .ok s => .ok { e with globals := Function.update e.globals s (some (.run rp)) }

def makeEnv (progs : List Constant) (special : Constant → Bool) (made : Nat) :
    Except LuaError Env :=
  progs.foldlM (addName numText special)
    ⟨Function.update (fun _ => none) "$".toList (some .dollar), fun _ => none, made⟩

/-- What `make_env_with_executables` returns. -/
inductive EnvResult where
  | missing (names : List Constant)
  | env (e : Env)

/-- The names that are not found. An error of `find_exec` leads to a call of `write_err` with the
    undefined variable `ggname`, which raises. -/
def findMissing (find : Constant → Except AprStatus (Option (LuaString × LuaString))) :
    List Constant → Except LuaError (List Constant)
  | [] => .ok []
  | name :: l =>
      match find name with
      | .error _ =>
          .error (.message "bad argument #2 to 'write' (string expected, got nil)".toList)
      | .ok (some _) => findMissing find l
      | .ok none => (findMissing find l).map (name :: ·)

def makeEnvWithExecutables (find : Constant → Except AprStatus (Option (LuaString × LuaString)))
    (gg : AList fun _ : Constant => Nat) (special : Constant → Bool) (made : Nat) :
    Except LuaError EnvResult :=
  match findMissing find gg.keys with
  | .error err => .error err
  | .ok [] => (makeEnv numText gg.keys special made).map .env
  | .ok (name :: missing) => .ok (.missing (name :: missing))

end Make

/-! ## What is bound -/

section Bound

variable {numText : Nat → LuaString} {special : Constant → Bool}

/-- The environment after the names `done`. -/
structure Inv (special : Constant → Bool) (done : List Constant) (e : Env) : Prop where
  recorded : ∀ k ∈ done, ∃ rp, e.specialEnv k = some rp ∧ rp.prog = k ∧
    ∀ n, k = .str n → special k = false → e.globals ('$' :: n) = some (.run rp)
  bound : ∀ n, n ≠ [] → e.globals ('$' :: n) ≠ none → .str n ∈ done ∧ special (.str n) = false

theorem inv_start (special : Constant → Bool) (made : Nat) :
    Inv special [] ⟨Function.update (fun _ => none) "$".toList (some .dollar), fun _ => none, made⟩
    where
  recorded k hk := by cases hk
  bound n hn h := by
    have hne : '$' :: n ≠ "$".toList := fun he => hn (List.cons.inj he).2
    change Function.update (fun _ => (none : Option Global)) "$".toList _ _ ≠ none at h
    exact absurd (Function.update_of_ne hne _ _) h

/-- One more name, of which only a string can be other than special. -/
theorem inv_addName {done : List Constant} {e : Env} {k : Constant} (h : Inv special done e)
    (hk : k ∉ done) (hstr : special k = false → ∃ n, k = .str n) :
    ∃ e', addName numText special e k = .ok e' ∧ Inv special (done ++ [k]) e' := by
  have hne : ∀ j ∈ done, j ≠ k := fun j hj he => hk (he ▸ hj)
  by_cases hspecial : special k = true
  · refine ⟨⟨e.globals, Function.update e.specialEnv k (some ⟨k, e.made⟩), e.made + 1⟩,
      by rw [addName]; simp [Env.makeRun, hspecial], fun j hj => ?_, fun n hn hb => ?_⟩
    · rcases List.mem_append.mp hj with hj | hj
      · obtain ⟨rp, hrp, hprog, hglobal⟩ := h.recorded j hj
        exact ⟨rp, (Function.update_of_ne (hne j hj) _ _).trans hrp, hprog, hglobal⟩
      · rw [List.mem_singleton.mp hj]
        refine ⟨⟨k, e.made⟩, Function.update_self _ _ _, rfl, fun n _ hfalse => ?_⟩
        rw [hspecial] at hfalse
        cases hfalse
    · exact (h.bound n hn hb).imp_left (List.mem_append_left _)
  · rw [Bool.not_eq_true] at hspecial
    obtain ⟨n, rfl⟩ := hstr hspecial
    refine ⟨⟨Function.update e.globals ('$' :: n) (some (.run ⟨.str n, e.made⟩)),
      Function.update e.specialEnv (.str n) (some ⟨.str n, e.made⟩), e.made + 1⟩,
      by rw [addName]; simp [Env.makeRun, hspecial, globalName], fun j hj => ?_, fun m hm hb => ?_⟩
    · rcases List.mem_append.mp hj with hj | hj
      · obtain ⟨rp, hrp, hprog, hglobal⟩ := h.recorded j hj
        refine ⟨rp, (Function.update_of_ne (hne j hj) _ _).trans hrp, hprog, fun m hm hfalse => ?_⟩
        have hname : '$' :: m ≠ '$' :: n := fun he => by
          rw [(List.cons.inj he).2] at hm
          exact hne j hj hm
        exact (Function.update_of_ne hname _ _).trans (hglobal m hm hfalse)
      · rw [List.mem_singleton.mp hj]
        refine ⟨⟨.str n, e.made⟩, Function.update_self _ _ _, rfl, fun m hm _ => ?_⟩
        rw [← Constant.str.inj hm]
        exact Function.update_self _ _ _
    · by_cases hmn : m = n
      · rw [hmn]
        exact ⟨by simp, hspecial⟩
      · have hname : '$' :: m ≠ '$' :: n := fun he => hmn (List.cons.inj he).2
        change Function.update e.globals _ _ _ ≠ none at hb
        rw [Function.update_of_ne hname] at hb
        exact (h.bound m hm hb).imp_left (List.mem_append_left _)

/-- The whole loop. -/
theorem inv_makeEnv {l done : List Constant} {e : Env} (h : Inv special done e)
    (hnodup : (done ++ l).Nodup) (hstr : ∀ k ∈ l, special k = false → ∃ n, k = .str n) :
    ∃ e', l.foldlM (addName numText special) e = .ok e' ∧ Inv special (done ++ l) e' := by
  induction l generalizing done e with
  | nil => exact ⟨e, rfl, by rwa [List.append_nil]⟩
  | cons k l ih =>
      rw [List.forall_mem_cons] at hstr
      have hk : k ∉ done := fun hmem =>
        (List.nodup_append.mp hnodup).2.2 k hmem k List.mem_cons_self rfl
      obtain ⟨e₁, he₁, hinv⟩ := inv_addName h hk hstr.1
      rw [List.append_cons] at hnodup ⊢
      obtain ⟨e', he', hinv'⟩ := ih hinv hnodup hstr.2
      refine ⟨e', ?_, hinv'⟩
      rw [List.foldlM_cons, he₁]
      exact he'

theorem inv_env {find : Constant → Except AprStatus (Option (LuaString × LuaString))}
    {gg : AList fun _ : Constant => Nat} {made : Nat} {e : Env}
    (hstr : ∀ k ∈ gg.keys, special k = false → ∃ n, k = .str n)
    (h : makeEnvWithExecutables numText find gg special made = .ok (.env e)) :
    Inv special gg.keys e := by
  obtain ⟨e', he', hinv⟩ := @inv_makeEnv numText _ _ _ _ (inv_start special made)
    (by rw [List.nil_append]; exact gg.keys_nodup) hstr
  unfold makeEnvWithExecutables at h
  cases hfind : findMissing find gg.keys with
  | error err => rw [hfind] at h; cases h
  | ok missing =>
      rw [hfind] at h
      cases missing with
      | cons name missing => cases h
      | nil =>
          rw [makeEnv] at h
          simp only [he'] at h
          cases h
          exact hinv

end Bound

/-! ## Resolving the names of a script -/

/-- The environment after some calls of `dollar`. -/
def Env.dollars (e : Env) (l : List Constant) : Env := l.foldl (fun e p => (e.dollar p).2) e

theorem dollar_of_recorded {e : Env} {k : Constant} {rp : RunFn} (h : e.specialEnv k = some rp) :
    e.dollar k = (rp, e) := by
  rw [Env.dollar, h]

/-- What is recorded stays. -/
theorem specialEnv_dollar {e : Env} {k : Constant} {rp : RunFn} (h : e.specialEnv k = some rp)
    (p : Constant) : (e.dollar p).2.specialEnv k = some rp := by
  cases hp : e.specialEnv p with
  | some f =>
      rw [dollar_of_recorded hp]
      exact h
  | none =>
      have hne : k ≠ p := by
        rintro rfl
        rw [hp] at h
        cases h
      rw [Env.dollar, hp]
      exact (Function.update_of_ne hne _ _).trans h

theorem dollar_dollars {e : Env} {k : Constant} {rp : RunFn} (h : e.specialEnv k = some rp)
    (l : List Constant) : ((e.dollars l).dollar k).1 = rp := by
  induction l generalizing e with
  | nil =>
      change (e.dollar k).1 = rp
      rw [dollar_of_recorded h]
  | cons p l ih => exact ih (specialEnv_dollar h p)

/-- The names of a script resolve. -/
structure Resolves (f : Proto) : Prop where
  /-- a global `$n` that is read is bound to the function that `$"n"` gives, now and later -/
  bound : ∀ numText find made e,
    makeEnvWithExecutables numText find (tables f).gt (tables f).special made = .ok (.env e) →
    ∀ n line, ReadsDollar f n line → ∃ rp, rp.prog = .str n ∧
      e.globals ('$' :: n) = some (.run rp) ∧ ∀ l, ((e.dollars l).dollar (.str n)).1 = rp
  /-- a name of `gt` always gives the same function -/
  recorded : ∀ numText find made e,
    makeEnvWithExecutables numText find (tables f).gt (tables f).special made = .ok (.env e) →
    ∀ k ∈ (tables f).gt, ∃ rp, rp.prog = k ∧ ∀ l, ((e.dollars l).dollar k).1 = rp
  /-- neither the order of the uses nor their number counts -/
  order : ∀ f', (∀ u, u ∈ uses f ↔ u ∈ uses f') → ∀ k,
    (k ∈ (tables f).gt ↔ k ∈ (tables f').gt) ∧ (tables f).special k = (tables f').special k

/-- Only a string can be bound as a global. -/
theorem str_of_not_special {f : Proto} :
    ∀ k ∈ (tables f).gt.keys, (tables f).special k = false → ∃ n, k = .str n := by
  intro k hk hspecial
  by_contra hnot
  have hstr : ∀ n, k ≠ .str n := fun n he => hnot ⟨n, he⟩
  rw [tables_eq] at hk hspecial
  rw [special_of_not_str hstr (AList.lookup_isSome.mpr (AList.mem_keys.mpr hk))] at hspecial
  cases hspecial

/-- If every program is found, there is an environment. -/
theorem exists_env (f : Proto) (numText : Nat → LuaString) (made : Nat) :
    ∃ e, makeEnvWithExecutables numText (fun _ => .ok (some ([], []))) (tables f).gt
      (tables f).special made = .ok (.env e) := by
  have hfind : ∀ l, findMissing (fun _ => .ok (some ([], []))) l = .ok [] := by
    intro l
    induction l with
    | nil => rfl
    | cons name l ih => exact ih
  obtain ⟨e, he, -⟩ := @inv_makeEnv numText _ _ _ _ (inv_start (tables f).special made)
    (by rw [List.nil_append]; exact (tables f).gt.keys_nodup) str_of_not_special
  refine ⟨e, ?_⟩
  rw [makeEnvWithExecutables, hfind, makeEnv]
  simp only [he]
  rfl

theorem resolves_of_lined {f : Proto} (h : ∀ n line, ReadsDollar f n line → line ≠ none) :
    Resolves f where
  bound numText find made e he n line hread := by
    have hmem := (read_mem_uses f).mpr hread
    have hreadIn : ReadIn (uses f) (.str n) := ⟨n, line, rfl, hmem⟩
    have hgt : ((tables f).gt.lookup (.str n)).isSome := by
      rw [tables_eq]
      exact (isSome_gt (lined_uses h)).mpr (Or.inl hreadIn)
    have hspecial : (tables f).special (.str n) = false := by
      rw [tables_eq, ← Bool.not_eq_true, special_eq (lined_uses h)]
      exact fun hnot => hnot.1 hreadIn
    obtain ⟨rp, hrp, hprog, hglobal⟩ := (inv_env str_of_not_special he).recorded (.str n)
      (AList.mem_keys.mp (AList.lookup_isSome.mp hgt))
    exact ⟨rp, hprog, hglobal n rfl hspecial, dollar_dollars hrp⟩
  recorded numText find made e he k hk := by
    obtain ⟨rp, hrp, hprog, -⟩ := (inv_env str_of_not_special he).recorded k
      (AList.mem_keys.mp hk)
    exact ⟨rp, hprog, dollar_dollars hrp⟩
  order f' hmem k := by
    have hl := lined_uses h
    have hl' : Lined (uses f') := fun n hn => hl n ((hmem _).mpr hn)
    have hread : ReadIn (uses f) k ↔ ReadIn (uses f') k := by simp only [ReadIn, hmem]
    constructor
    · rw [← AList.lookup_isSome, ← AList.lookup_isSome, tables_eq, tables_eq, isSome_gt hl,
        isSome_gt hl', hread]
      simp only [hmem]
    · rw [Bool.eq_iff_iff, tables_eq, tables_eq, special_eq hl, special_eq hl', hread]
      simp only [hmem]

/-- **Names resolve.** Every `$name` of a script that is accepted has its own function, whatever
    the order of the uses, if and only if no line is missing where a `$name` is read. -/
theorem resolves_iff (f : Proto) :
    Resolves f ↔ ∀ n line, ReadsDollar f n line → line ≠ none := by
  refine ⟨fun hres n line hread hline => ?_, resolves_of_lined⟩
  subst hline
  have hn := hread.1
  -- the same uses, with one behind them that takes the name out
  have hmem : ∀ u, u ∈ uses f ↔ u ∈ uses (f.thenRead n none) := by
    intro u
    rw [uses_thenRead f hn, List.mem_append, List.mem_singleton]
    refine ⟨Or.inl, fun hu => hu.elim id fun he => ?_⟩
    rw [he]
    exact (read_mem_uses f).mpr hread
  have hout : Constant.str n ∉ (tables (f.thenRead n none)).gt := by
    rw [tables_eq, uses_thenRead f hn, tablesOf_concat, ← AList.lookup_isSome]
    simp [Use.apply]
  obtain ⟨e, he⟩ := exists_env f (fun _ => []) 0
  obtain ⟨rp, -, hglobal, -⟩ := hres.bound _ _ _ e he n none hread
  have hbound := ((inv_env str_of_not_special he).bound n hn (by rw [hglobal]; simp)).1
  exact hout (((hres.order _ hmem (.str n)).1).mp (AList.mem_keys.mpr hbound))

/-- `return $cc` in a chunk without lines: the script is accepted, and `$cc` is not bound. -/
def strippedScript : Proto :=
  .mk [⟨none, .getglobal, 0, some (-1), none⟩, ⟨none, .return_, 0, some 2, none⟩]
    [.str "$cc".toList] []

theorem stripped_not_bound :
    ReadsDollar strippedScript "cc".toList none ∧
      ∀ find, ∃ e, makeEnvWithExecutables (fun _ => []) find (tables strippedScript).gt
        (tables strippedScript).special 0 = .ok (.env e) ∧ e.globals "$cc".toList = none := by
  refine ⟨⟨by decide, strippedScript, by simp [strippedScript, Proto.all],
    ⟨none, .getglobal, 0, some (-1), none⟩, by simp [strippedScript, Proto.code], by decide, rfl⟩,
    fun find => ⟨_, rfl, by decide⟩⟩

end Buildsh.DollarEnv
