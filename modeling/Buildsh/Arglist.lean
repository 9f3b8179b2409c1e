/-
  `preload.c`: the exec wrappers with variadic arguments.

  What a caller passes for the dots is a list, from which `va_arg` takes one element after the
  other; the result of a wrapper is `none` if an element is taken that was not passed, or one of
  the wrong type is used. `count_arglist` and `make_argv` walk the list separately, and both
  treat the argument in front of the dots as the first one: `rebuildsFaithfully_iff`.
-/
import Buildsh.Clone

namespace Buildsh.Arglist
open Buildsh.Clone

/-! ## The two walks -/

/-- What is passed for the dots. -/
inductive VaArg where
  | null
  | str (s : CString)
  | env (env : List CString)

/-- A `va_list`: the arguments still to come. -/
abbrev VaList := List VaArg

/-- The loop of `count_arglist`, with the arguments behind the terminator. -/
def countArgs : VaList → Nat → Option (Nat × VaList)
  | [], _ => none
  | .null :: ap, n => some (n, ap)
  | .str _ :: ap, n | .env _ :: ap, n => countArgs ap (n + 1)

def countArglist (ap : VaList) : Option (Nat × VaList) := countArgs ap 1

/-- The block of `argv`; `none` where nothing has been assigned. -/
structure Argv where
  size : Nat
  slots : Nat → Option VaArg
  /-- the indices written to, oldest first -/
  written : List Nat

/-- `argv[ i ] = v` -/
def Argv.set (m : Argv) (i : Nat) (v : VaArg) : Argv :=
  { m with slots := Function.update m.slots i (some v), written := m.written ++ [i] }

/-- The loop of `make_argv`. -/
def copyArgs : VaList → Nat → Argv → Option Argv
  | [], _, _ => none
  | .null :: _, i, m => some (m.set i .null)
  | v :: ap, i, m => copyArgs ap (i + 1) (m.set i v)

/-- `malloc` tells whether there is memory for the array. -/
def makeArgv (malloc : Bool) (argc : Nat) (arg : VaArg) (ap : VaList) : Option (Option Argv) :=
  if malloc then (copyArgs ap 1 (Argv.set ⟨argc + 1, fun _ => none, []⟩ 0 arg)).map some
  else some none

/-! ## The wrappers -/

/-- The environment that a program is executed with. -/
inductive NewEnv where
  | environ
  /-- what `clone_env` has made of an environment -/
  | clone (env : List CString) (m : Memory)

/-- What a wrapper does in the end. -/
inductive Attempt where
  /-- `errno` is `ENOMEM` -/
  | noMemory
  | aborted
  /-- `orig_execve`, or `orig_execvpe` if the path is searched -/
  | exec (search : Bool) (prog : CString) (argv : Argv) (env : NewEnv)

section Wrappers

variable (c : Caller) (prog : CString) (arg : VaArg) (dots : VaList)

/-- `my_execl` and `my_execlp`. -/
def execWithList (search : Bool) : Option Attempt :=
  match countArglist dots with
  | none => none
  | some (argc, _) =>
      match makeArgv (c.malloc 0) argc arg dots with
      | none => none
      | some none => some .noMemory
      | some (some argv) => some (.exec search prog argv .environ)

def myExecl : Option Attempt := execWithList c prog arg dots false

def myExeclp : Option Attempt := execWithList c prog arg dots true

def myExecle : Option Attempt :=
  match countArglist dots with
  | none => none
  | some (argc, ap) =>
      match ap with
      | .env env :: _ =>
          match cloneEnv c env with
          | .aborted _ => some .aborted
          | .failed _ _ => some .noMemory
          | .returned m _ =>
              match makeArgv (c.malloc m.mallocs) argc arg dots with
              | none => none
              | some none => some .noMemory
              | some (some argv) => some (.exec true prog argv (.clone env m))
      | _ => none

end Wrappers

/-! ## Calls -/

/-- The list of a call. If it is empty, `arg` itself is the terminator. -/
inductive ArgList where
  | empty
  | args (arg : CString) (rest : List CString)

def ArgList.first : ArgList → VaArg
  | .empty => .null
  | .args arg _ => .str arg

/-- What is passed behind the first argument, up to the terminator. -/
def ArgList.dots : ArgList → VaList
  | .empty => []
  | .args _ rest => rest.map VaArg.str ++ [.null]

/-- What the program should get. -/
def ArgList.vector (l : ArgList) : List VaArg := l.first :: l.dots

inductive Wrapper where
  | execl
  | execlp
  | execle

/-- The call of a wrapper; `env` is passed to `execle` only. -/
def Wrapper.call (w : Wrapper) (c : Caller) (prog : CString) (l : ArgList) (env : List CString) :
    Option Attempt :=
  match w with
  | .execl => myExecl c prog l.first l.dots
  | .execlp => myExeclp c prog l.first l.dots
  | .execle => myExecle c prog l.first (l.dots ++ [.env env])

/-- Nothing is read that was not passed, the array is not overrun, and a program that is executed
    gets the list and the environment of the call. -/
def Wrapper.RebuildsFaithfully (w : Wrapper) (c : Caller) (prog : CString) (l : ArgList)
    (env : List CString) : Prop :=
  ∃ attempt, w.call c prog l env = some attempt ∧
    ∀ search prog' argv env', attempt = .exec search prog' argv env' →
      prog' = prog ∧ (∀ i ∈ argv.written, i < argv.size) ∧
      (∀ i v, l.vector[i]? = some v → argv.slots i = some v) ∧
      match w with
      | .execl | .execlp => env' = .environ
      | .execle => ∃ m, env' = .clone env m

section Walks

variable {rest : List CString} {ap : VaList} {i n : Nat} {m : Argv}

theorem countArgs_eq : countArgs (rest.map VaArg.str ++ .null :: ap) n =
    some (n + rest.length, ap) := by
  induction rest generalizing n with
  | nil => rfl
  | cons s rest ih =>
      rw [List.map_cons, List.cons_append, countArgs, ih, List.length_cons, Nat.add_right_comm,
        Nat.add_assoc]

/-- What the copying loop leaves. -/
structure Filled (vs : List VaArg) (i : Nat) (m m' : Argv) : Prop where
  size : m'.size = m.size
  written : ∀ j, j ∈ m'.written ↔ j ∈ m.written ∨ i ≤ j ∧ j < i + vs.length
  filled : ∀ j v, vs[j]? = some v → m'.slots (i + j) = some v
  others : ∀ j, j < i → m'.slots j = m.slots j

theorem filled_set (m : Argv) (i : Nat) (v : VaArg) : Filled [v] i m (m.set i v) := by
  refine ⟨rfl, fun j => ?_, fun j w hw => ?_, fun j hj => ?_⟩
  · simp only [Argv.set, List.mem_append, List.mem_singleton, List.length_singleton]
    refine or_congr_right ?_
    omega
  · obtain ⟨hj, hw⟩ := List.getElem?_eq_some_iff.mp hw
    rw [List.length_singleton, Nat.lt_one_iff] at hj
    subst hj
    rw [← hw]
    exact Function.update_self ..
  · exact Function.update_of_ne (by omega) _ _

theorem Filled.trans {vs ws : List VaArg} {m' m'' : Argv} (h : Filled vs i m m')
    (h' : Filled ws (i + vs.length) m' m'') : Filled (vs ++ ws) i m m'' := by
  refine ⟨h'.size.trans h.size, fun j => ?_, fun j v hv => ?_, fun j hj => ?_⟩
  · rw [h'.written, h.written, List.length_append, or_assoc]
    refine or_congr_right ?_
    omega
  · by_cases hj : j < vs.length
    · rw [List.getElem?_append_left hj] at hv
      rw [h'.others _ (by omega), h.filled j v hv]
    · rw [List.getElem?_append_right (by omega)] at hv
      have hslot := h'.filled _ v hv
      have e : i + vs.length + (j - vs.length) = i + j := by omega
      rwa [e] at hslot
  · rw [h'.others j (by omega), h.others j hj]

theorem copyArgs_eq : ∃ m', copyArgs (rest.map VaArg.str ++ .null :: ap) i m = some m' ∧
    Filled (rest.map VaArg.str ++ [.null]) i m m' := by
  induction rest generalizing i m with
  | nil => exact ⟨_, rfl, filled_set m i .null⟩
  | cons s rest ih =>
      obtain ⟨m', hcopy, hfilled⟩ := @ih (i + 1) (m.set i (.str s))
      exact ⟨m', hcopy, (filled_set m i (.str s)).trans hfilled⟩

/-- `make_argv` fills the slots that `count_arglist` has counted. -/
theorem makeArgv_eq (arg : CString) (malloc : Bool) :
    ∃ r, makeArgv malloc (1 + rest.length) (.str arg) (rest.map VaArg.str ++ .null :: ap) =
        some r ∧
      ∀ argv, r = some argv → (∀ i ∈ argv.written, i < argv.size) ∧
        ∀ i v, (ArgList.args arg rest).vector[i]? = some v → argv.slots i = some v := by
  cases malloc with
  | false => exact ⟨none, rfl, fun argv h => (by cases h)⟩
  | true =>
      obtain ⟨argv, hcopy, hfilled⟩ := @copyArgs_eq rest ap 1
        (Argv.set ⟨1 + rest.length + 1, fun _ => none, []⟩ 0 (.str arg))
      refine ⟨some argv, by rw [makeArgv, if_pos rfl, hcopy]; rfl, ?_⟩
      rintro _ ⟨⟩
      have hall := (filled_set _ 0 (.str arg)).trans hfilled
      refine ⟨fun i hi => ?_, fun i v hv => ?_⟩
      · have hin := (hall.written i).mp hi
        have hsize : argv.size = 1 + rest.length + 1 := hall.size
        rw [hsize]
        simp only [List.not_mem_nil, false_or, List.length_append, List.length_map,
          List.length_singleton] at hin
        omega
      · have hslot := hall.filled i v hv
        rwa [Nat.zero_add] at hslot

end Walks

section Rebuilding

variable (c : Caller) (prog : CString) (env : List CString)

/-- What a wrapper does once it has counted the list and has an environment. -/
theorem exec_makeArgv (malloc search : Bool) (env' : NewEnv) (arg : CString) (rest : List CString)
    (ap : VaList) :
    ∃ attempt : Attempt,
      (match makeArgv malloc (1 + rest.length) (.str arg) (rest.map VaArg.str ++ .null :: ap) with
        | none => none
        | some none => some Attempt.noMemory
        | some (some argv) => some (Attempt.exec search prog argv env')) = some attempt ∧
      ∀ search' prog' argv env'', attempt = .exec search' prog' argv env'' →
        prog' = prog ∧ (∀ i ∈ argv.written, i < argv.size) ∧
        (∀ i v, (ArgList.args arg rest).vector[i]? = some v → argv.slots i = some v) ∧
        env'' = env' := by
  obtain ⟨r, hmake, hr⟩ := @makeArgv_eq rest ap arg malloc
  rw [hmake]
  cases r with
  | none => exact ⟨.noMemory, rfl, fun _ _ _ _ h => (by cases h)⟩
  | some argv =>
      refine ⟨_, rfl, ?_⟩
      rintro _ _ _ _ ⟨⟩
      exact ⟨rfl, (hr argv rfl).1, (hr argv rfl).2, rfl⟩

theorem execWithList_args (search : Bool) (arg : CString) (rest : List CString) :
    ∃ attempt, execWithList c prog (.str arg) (ArgList.args arg rest).dots search = some attempt ∧
      ∀ search' prog' argv env', attempt = .exec search' prog' argv env' →
        prog' = prog ∧ (∀ i ∈ argv.written, i < argv.size) ∧
        (∀ i v, (ArgList.args arg rest).vector[i]? = some v → argv.slots i = some v) ∧
        env' = .environ := by
  unfold execWithList ArgList.dots countArglist
  rw [countArgs_eq]
  exact exec_makeArgv prog (c.malloc 0) search .environ arg rest []

theorem myExecle_args (arg : CString) (rest : List CString) :
    ∃ attempt, myExecle c prog (.str arg) ((ArgList.args arg rest).dots ++ [.env env]) =
        some attempt ∧
      ∀ search prog' argv env', attempt = .exec search prog' argv env' →
        prog' = prog ∧ (∀ i ∈ argv.written, i < argv.size) ∧
        (∀ i v, (ArgList.args arg rest).vector[i]? = some v → argv.slots i = some v) ∧
        ∃ m, env' = .clone env m := by
  have hdots : (ArgList.args arg rest).dots ++ [.env env] =
      rest.map VaArg.str ++ .null :: [.env env] := by
    rw [ArgList.dots, List.append_assoc]
    rfl
  rw [hdots]
  unfold myExecle countArglist
  rw [countArgs_eq]
  dsimp only
  cases cloneEnv c env with
  | aborted m => exact ⟨.aborted, rfl, fun _ _ _ _ h => (by cases h)⟩
  | failed m pos => exact ⟨.noMemory, rfl, fun _ _ _ _ h => (by cases h)⟩
  | returned m pos =>
      obtain ⟨attempt, hcall, hall⟩ :=
        exec_makeArgv prog (c.malloc m.mallocs) true (.clone env m) arg rest [.env env]
      refine ⟨attempt, hcall, fun search prog' argv env' h => ?_⟩
      obtain ⟨hprog, hwritten, hslots, henv⟩ := hall search prog' argv env' h
      exact ⟨hprog, hwritten, hslots, m, henv⟩

/-- The terminator is looked for behind the first argument, so an empty list has none. -/
theorem call_empty (w : Wrapper) : w.call c prog .empty env = none := by
  cases w with
  | execl => rfl
  | execlp => rfl
  | execle => rfl

/-- **Argument lists.** A wrapper rebuilds every list but the empty one. -/
theorem rebuildsFaithfully_iff (w : Wrapper) (l : ArgList) :
    w.RebuildsFaithfully c prog l env ↔ l ≠ .empty := by
  cases l with
  | empty =>
      refine iff_of_false ?_ fun h => h rfl
      rintro ⟨attempt, h, -⟩
      rw [call_empty] at h
      cases h
  | args arg rest =>
      refine iff_of_true ?_ ArgList.noConfusion
      cases w with
      | execl => exact execWithList_args c prog false arg rest
      | execlp => exact execWithList_args c prog true arg rest
      | execle => exact myExecle_args c prog env arg rest

end Rebuilding

/-- `execl( "/bin/true", NULL )` -/
theorem empty_list_overrun :
    ¬ ∀ (w : Wrapper) (c : Caller) (prog : CString) (l : ArgList) (env : List CString),
      w.RebuildsFaithfully c prog l env := by
  intro h
  obtain ⟨attempt, hcall, -⟩ := h .execl plainCaller ⟨"/bin/true".toList, by decide⟩ .empty []
  cases hcall

end Buildsh.Arglist
