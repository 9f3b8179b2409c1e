/-
  The selection of a make file.

  `select` is the driver without what it writes: every candidate has a verdict, and there may be a
  problem, something that the driver cannot write or sort. `mainLoop_only`: but for what it writes,
  the driver does what `select` does.
-/
import Buildsh.Driver

namespace Buildsh.Driver
open Buildsh.Generic Buildsh.Generic.Output

/-! ## Problems -/

/-- What cannot be written in a list. -/
def listProblem (l : List Text) : Option DriverError := if none ∈ l then some .concat else none

def writeProblem (l : List Text) : Option DriverError :=
  if none ∈ l then some .badArgument else none

def Raised.problem : Raised → Option DriverError
  | .file l | .exec l => listProblem l
  | .assert reason => writeProblem [reason.getD (lit "unknown reason")]
  | .unknown => none
  | .other text => writeProblem [text]

/-- Does the driver go on with the next candidate? -/
def Raised.cont (isTarget : Bool) : Raised → Bool
  | .file _ | .exec _ => !isTarget
  | .assert _ => true
  | .unknown | .other _ => false

/-- The targets are listed if their names are all strings or all numbers. -/
def Targets.problem (res : Targets) : Option DriverError :=
  if res.keys.all (·.string.isSome) ∨ res.keys.all (·.number.isSome) then none
  else if res.keys.length ≤ 1 then some .concat
  else some .compare

def FindExec.isFailed : FindExec → Bool
  | .failed _ => true
  | _ => false

def FindExec.isMissing : FindExec → Bool
  | .missing => true
  | _ => false

@[simp] theorem isFailed_found : FindExec.found.isFailed = false := rfl

@[simp] theorem isFailed_missing : FindExec.missing.isFailed = false := rfl

@[simp] theorem isFailed_failed (msg : LuaString) : (FindExec.failed msg).isFailed = true := rfl

@[simp] theorem isMissing_found : FindExec.found.isMissing = false := rfl

@[simp] theorem isMissing_missing : FindExec.missing.isMissing = true := rfl

@[simp] theorem isMissing_failed (msg : LuaString) : (FindExec.failed msg).isMissing = false := rfl

def Script.problem (s : Script) : Option DriverError :=
  if s.sg ≠ [] then none
  else if s.gg.any (·.2.isFailed) then some .badArgument
  else if s.gg.any (·.2.isMissing) then none
  else
    match s.outcome with
    | .error e => e.problem
    | .ok _ => none

def Candidate.problem (c : Candidate) : Option DriverError :=
  match c.load with
  | .error _ => none
  | .ok s => s.problem

/-! ## Verdicts -/

/-- What becomes of a candidate. -/
inductive Verdict where
  /-- it cannot be used here -/
  | skipped
  /-- it is wrong -/
  | aborted
  /-- it loads, assigns no globals, has all it needs, and returns targets -/
  | accepted (res : Nat → Targets)

def Script.verdict (s : Script) : Verdict :=
  if s.sg ≠ [] then .skipped
  else if s.gg.any (·.2.isFailed) then .aborted
  else if s.gg.any (·.2.isMissing) then .skipped
  else
    match s.outcome with
    | .error e => if e.cont false then .skipped else .aborted
    | .ok none => .aborted
    | .ok (some res) => if (res 0).entries.isEmpty then .aborted else .accepted res

def Candidate.verdict (c : Candidate) : Verdict :=
  match c.load with
  | .error _ => .skipped
  | .ok s => s.verdict

/-! ## The driver without what it writes -/

/-- An error if there is a problem. -/
def orRaise {α : Type} (p : Option DriverError) (x : Out α) : Out α :=
  match p with
  | none => x
  | some e => raise e

def perform (c : Candidate) (res : Nat → Targets) : Nat → List LuaString → Out Bool
  | _, [] => pure true
  | i, t :: ts =>
      match (res i).lookup (.str t) with
      | some (.function (.ok _)) => do
          emit (.call c i t)
          perform c res (i + 1) ts
      | some (.function (.error e)) => do
          emit (.call c i t)
          orRaise e.problem (pure false)
      | _ =>
          if t = "list".toList then orRaise (res i).problem (perform c res (i + 1) ts)
          else if t = "clean".toList then do
            emit .autoclean
            perform c res (i + 1) ts
          else pure false

def select (targets : List LuaString) : List Candidate → Bool → Out Bool
  | [], retval => pure retval
  | c :: files, _ => do
      emit (.load c)
      orRaise c.problem <|
        match c.verdict with
        | .skipped => select targets files false
        | .aborted => pure false
        | .accepted res => perform c res 0 targets

/-! ## What is written -/

def isAction : Event → Bool
  | .write _ => false
  | _ => true

section Writing

variable {α β : Type}

@[simp] theorem orRaise_none (x : Out α) : orRaise none x = x := rfl

@[simp] theorem orRaise_some (e : DriverError) (x : Out α) : orRaise (some e) x = raise e := rfl

@[simp] theorem orRaise_then (p : Option DriverError) (x : Out α) (f : α → Out β) :
    (orRaise p x >>= f) = orRaise p (x >>= f) := by
  cases p <;> rfl

theorem only_write (l : List Text) :
    (write l).only isAction = orRaise (writeProblem l) (pure ()) := by
  induction l with
  | nil => rfl
  | cons x l ih =>
      cases x with
      | none => simp [write, writeProblem]
      | some s =>
          have hemit : (emit (Event.write s) : Out Unit).only isAction = pure () :=
            only_emit_of_neg _ rfl
          have hprob : writeProblem (some s :: l) = writeProblem l := by simp [writeProblem]
          rw [write, only_bind, hemit, pure_then, ih, hprob]

theorem only_writeErr (fname : Option LuaString) (line : Option Nat) (l : List Text) :
    (writeErr fname line l).only isAction = orRaise (writeProblem l) (pure ()) := by
  cases fname with
  | none => simp [writeErr, only_write, writeProblem, lit]
  | some f => cases line <;> simp [writeErr, only_write, writeProblem, lit]

theorem only_writeItems (del s : LuaString) (l : List Text) :
    (writeItems del s l).only isAction = orRaise (listProblem l) (pure ()) := by
  induction l generalizing s with
  | nil => simp [writeItems, only_write, writeProblem, listProblem, lit]
  | cons x l ih =>
      cases x with
      | none => simp [writeItems, quote, listProblem]
      | some t =>
          have hprob : listProblem (some t :: l) = listProblem l := by simp [listProblem]
          rw [writeItems, quote, pure_then, hprob]
          split
          · exact ih _
          · rw [only_bind, only_write, ih]
            simp [writeProblem, lit]

theorem only_writeList (l : List Text) (del : LuaString) :
    (writeList l del).only isAction = orRaise (listProblem l) (pure ()) := by
  cases l with
  | nil => rfl
  | cons x l =>
      cases x with
      | none => simp [writeList, quote, listProblem]
      | some s =>
          have hprob : listProblem (some s :: l) = listProblem l := by simp [listProblem]
          rw [writeList, quote, pure_then, only_writeItems, hprob]

theorem only_reportError (fname : LuaString) (isTarget : Bool) (e : Raised) :
    (reportError fname isTarget e).only isAction =
      orRaise e.problem (pure (e.cont isTarget)) := by
  have herr : ∀ s : String, (writeErr (some fname) none [lit s]).only isAction = pure () := by
    intro s
    simp [only_writeErr, writeProblem, lit]
  -- the alternatives are written behind one of three lines
  have hlist : ∀ l : List Text, ∀ x : Out Unit, x.only isAction = pure () →
      (x >>= fun _ => writeList l ", or".toList >>= fun _ => (pure !isTarget : Out Bool)).only
        isAction = orRaise (listProblem l) (pure !isTarget) := by
    intro l x hx
    simp [hx, only_writeList]
  cases e with
  | file l =>
      rw [reportError]
      split
      · exact hlist l _ (herr _)
      · split
        · exact hlist l _ (herr _)
        · exact hlist l _ (herr _)
  | exec l =>
      rw [reportError]
      split
      · exact hlist l _ (herr _)
      · split
        · exact hlist l _ (herr _)
        · exact hlist l _ (herr _)
  | assert reason =>
      rw [reportError]
      have hprob : writeProblem [lit "--    ", reason.getD (lit "unknown reason"), lit "\n"] =
          (Raised.assert reason).problem := by
        simp [writeProblem, Raised.problem, lit]
      split <;> simp [herr, only_write, hprob, Raised.cont]
  | unknown => simp [reportError, herr, Raised.problem, Raised.cont]
  | other text => simp [reportError, only_writeErr, Raised.problem, Raised.cont]

theorem only_call (fname : LuaString) (outcome : Except Raised α) (isTarget : Bool) :
    (callBuildshFunction fname outcome isTarget).only isAction =
      match outcome with
      | .ok res => pure (true, true, some res)
      | .error e => orRaise e.problem (pure (false, e.cont isTarget, none)) := by
  cases outcome with
  | ok res => rfl
  | error e => simp [callBuildshFunction, only_reportError]

theorem only_listTargets (res : Targets) :
    (listTargets res).only isAction = orRaise res.problem (pure ()) := by
  have hwrite : (write [lit "== listing available targets:\n"]).only isAction = pure () := by
    simp [only_write, writeProblem, lit]
  unfold listTargets Targets.problem sortKeys
  by_cases hstr : res.keys.all (·.string.isSome) = true
  · rw [if_pos hstr, if_pos (Or.inl hstr)]
    simp [hwrite, only_writeList, listProblem]
  by_cases hnum : res.keys.all (·.number.isSome) = true
  · rw [if_neg hstr, if_pos hnum, if_pos (Or.inr hnum)]
    simp [hwrite, only_writeList, listProblem, Key.text]
  rw [if_neg hstr, if_neg hnum, if_neg (not_or.mpr ⟨hstr, hnum⟩)]
  by_cases hlen : res.keys.length ≤ 1
  · -- a single key that is neither a string nor a number
    have hother : none ∈ res.keys.map Key.text := by
      cases hkeys : res.keys with
      | nil => simp [hkeys] at hstr
      | cons k l =>
          have hl : l = [] := by
            rw [hkeys, List.length_cons] at hlen
            exact List.length_eq_zero_iff.mp (by omega)
          subst hl
          cases k with
          | str s => simp [hkeys, Key.string] at hstr
          | num n => simp [hkeys, Key.number] at hnum
          | other n => simp [Key.text]
    rw [if_pos hlen, if_pos hlen, pure_then, only_bind, hwrite, pure_then, only_writeList,
      listProblem, if_pos hother]
  · rw [if_neg hlen, if_neg hlen]
    rfl

theorem only_findExecs (fname : LuaString) (gg : List (LuaString × FindExec))
    (missing : List Text) :
    (findExecs fname gg missing).only isAction =
      orRaise (if gg.any (·.2.isFailed) then some .badArgument else none)
        (pure (some (missing ++ (gg.filter (·.2.isMissing)).map fun x => some x.1))) := by
  induction gg generalizing missing with
  | nil => simp [findExecs]
  | cons x gg ih =>
      obtain ⟨name, r⟩ := x
      cases r with
      | found =>
          rw [findExecs, ih]
          rfl
      | missing =>
          rw [findExecs, ih, List.append_assoc]
          rfl
      | failed msg =>
          simp [findExecs, only_writeErr, writeProblem]

theorem only_makeEnv (fname : LuaString) (gg : List (LuaString × FindExec)) :
    (makeEnvWithExecutables fname gg).only isAction =
      orRaise (if gg.any (·.2.isFailed) then some .badArgument else none)
        (pure (if gg.any (·.2.isMissing) then (false, true) else (true, true))) := by
  have hempty : ((gg.filter (·.2.isMissing)).map fun x => some x.1).isEmpty =
      !gg.any (·.2.isMissing) := by
    induction gg with
    | nil => rfl
    | cons x gg ih =>
        cases hx : x.2.isMissing with
        | true => simp [hx]
        | false => simpa [hx] using ih
  rw [makeEnvWithExecutables, only_bind, only_findExecs, orRaise_then, pure_then, List.nil_append]
  dsimp only
  rw [hempty]
  cases hmiss : gg.any (·.2.isMissing) with
  | false => simp
  | true =>
      have hlist : listProblem ((gg.filter (·.2.isMissing)).map fun x => some x.1) = none := by
        simp [listProblem]
      simp [only_writeErr, only_writeList, hlist, writeProblem, lit]

/-- A line that can be written is forgotten. -/
theorem only_line {l : List Text} (h : none ∉ l) (f : Unit → Out β) :
    (write l >>= f).only isAction = (f ()).only isAction := by
  rw [only_bind, only_write, writeProblem, if_neg h]
  rfl

theorem only_message {fname : Option LuaString} {line : Option Nat} {l : List Text}
    (h : none ∉ l) (f : Unit → Out β) :
    (writeErr fname line l >>= f).only isAction = (f ()).only isAction := by
  rw [only_bind, only_writeErr, writeProblem, if_neg h]
  rfl

theorem only_action {e : Event} (h : isAction e = true) (f : Unit → Out β) :
    (emit e >>= f).only isAction = emit e >>= fun _ => (f ()).only isAction := by
  rw [only_bind, only_emit_of_pos _ h]

/-- What is done with a target that is no function. -/
theorem builtin_only (c : Candidate) (res : Nat → Targets) (i : Nat) (t : LuaString)
    {x y : Out Bool} (hx : x.only isAction = y) :
    (if t = "list".toList then listTargets (res i) >>= fun _ => x
      else if t = "clean".toList then emit .autoclean >>= fun _ => x
      else write [lit "== executing target `", some t, lit "' ...\n"] >>= fun _ =>
        writeErr (some c.fname) none [lit "no target `", some t, lit "' defined"] >>=
          fun _ => (pure false : Out Bool)).only isAction =
      if t = "list".toList then orRaise (res i).problem y
      else if t = "clean".toList then emit .autoclean >>= fun _ => y
      else pure false := by
  split
  · rw [only_bind, only_listTargets, orRaise_then, pure_then, hx]
  · split
    · rw [only_action rfl, hx]
    · rw [only_line (by simp [lit]), only_message (by simp [lit])]
      rfl

theorem runTargets_only (c : Candidate) (res : Nat → Targets) (i : Nat) (ts : List LuaString) :
    (runTargets c res i ts).only isAction = perform c res i ts := by
  induction ts generalizing i with
  | nil =>
      rw [runTargets, only_line (by simp [lit])]
      rfl
  | cons t ts ih =>
      rw [runTargets, perform]
      cases (res i).lookup (.str t) with
      | none => exact builtin_only c res i t (ih (i + 1))
      | some v =>
          cases v with
          | other => exact builtin_only c res i t (ih (i + 1))
          | function o =>
              cases o with
              | ok _ =>
                  dsimp only
                  rw [only_line (by simp [lit]), only_action rfl]
                  simp only [only_bind, only_call, pure_then, Bool.not_true, Bool.false_eq_true,
                    if_false, ih]
              | error e =>
                  dsimp only
                  rw [only_line (by simp [lit]), only_action rfl]
                  simp only [only_bind, only_call, orRaise_then, pure_then, Bool.not_false,
                    if_true, only_pure]

/-- What the driver does with the targets of a script. -/
def useTargets (handler : Option LuaString) (targets : List LuaString) (c : Candidate) :
    Option (Nat → Targets) → Out Bool
  | none => do
      writeErr (some c.fname) none [lit "no targets defined"]
      pure false
  | some res =>
      if (res 0).entries.isEmpty then do
        writeErr (some c.fname) none [lit "no targets defined"]
        pure false
      else do
        write [lit "== `", some c.fname, lit "' it is ...\n"]
        match handler with
        | none => pure ()
        | some name => write [lit "== using ", some name, lit " to detect dependencies.\n"]
        runTargets c res 0 targets

theorem useTargets_only (handler : Option LuaString) (targets : List LuaString) (c : Candidate)
    (r : Option (Nat → Targets)) :
    (useTargets handler targets c r).only isAction =
      match r with
      | none => pure false
      | some res =>
          if (res 0).entries.isEmpty then pure false else perform c res 0 targets := by
  cases r with
  | none =>
      rw [useTargets, only_message (by simp [lit])]
      rfl
  | some res =>
      rw [useTargets]
      dsimp only
      split
      · rw [only_message (by simp [lit])]
        rfl
      · rw [only_line (by simp [lit])]
        cases handler with
        | none => exact runTargets_only c res 0 targets
        | some name =>
            dsimp only
            rw [only_line (by simp [lit]), runTargets_only]

/-- What the driver does with the outcome of a script, where `next` goes on with the other
    candidates. -/
def useOutcome (handler : Option LuaString) (targets : List LuaString) (c : Candidate)
    (next : Out Bool) (outcome : Except Raised (Option (Nat → Targets))) : Out Bool := do
  let (ok, cont, res) ← callBuildshFunction c.fname outcome false
  if !ok then
    if !cont then pure false else next
  else useTargets handler targets c res.join

theorem useOutcome_only (handler : Option LuaString) (targets : List LuaString) (c : Candidate)
    {next next' : Out Bool} (hnext : next.only isAction = next')
    (outcome : Except Raised (Option (Nat → Targets))) :
    (useOutcome handler targets c next outcome).only isAction =
      match outcome with
      | .error e => orRaise e.problem (if e.cont false then next' else pure false)
      | .ok none => pure false
      | .ok (some res) =>
          if (res 0).entries.isEmpty then pure false else perform c res 0 targets := by
  rw [useOutcome, only_bind, only_call]
  cases outcome with
  | error e =>
      dsimp only
      rw [orRaise_then, pure_then]
      cases e.cont false with
      | true => exact congrArg _ hnext
      | false => rfl
  | ok r =>
      dsimp only
      rw [pure_then]
      cases r with
      | none => exact useTargets_only handler targets c none
      | some res => exact useTargets_only handler targets c (some res)

/-- **The driver**, but for what it writes. -/
theorem mainLoop_only (handler : Option LuaString) (targets : List LuaString)
    (files : List Candidate) (retval : Bool) :
    (mainLoop handler targets files retval).only isAction = select targets files retval := by
  induction files generalizing retval with
  | nil => rfl
  | cons c files ih =>
      rw [mainLoop, select, only_line (by simp [lit]), only_action rfl]
      congr 1
      funext _
      unfold Candidate.problem Candidate.verdict
      cases c.load with
      | error msg =>
          dsimp only
          rw [only_message (by simp), ih]
          rfl
      | ok script =>
          dsimp only
          unfold Script.problem Script.verdict
          cases script.sg with
          | cons x sg =>
              obtain ⟨name, line⟩ := x
              dsimp only
              rw [only_message (by simp [lit]), ih]
              rfl
          | nil =>
              dsimp only
              rw [only_bind, only_makeEnv, orRaise_then, pure_then, if_neg (not_not.mpr rfl),
                if_neg (not_not.mpr rfl)]
              cases script.gg.any (·.2.isFailed) with
              | true => rfl
              | false =>
                  cases script.gg.any (·.2.isMissing) with
                  | true => exact ih false
                  | false =>
                      refine (useOutcome_only handler targets c (ih false) script.outcome).trans ?_
                      cases script.outcome with
                      | error e =>
                          simp only [Bool.false_eq_true, if_false]
                          cases e.cont false with
                          | true => rfl
                          | false => rfl
                      | ok r =>
                          cases r with
                          | none => rfl
                          | some res =>
                              simp only [Bool.false_eq_true, if_false, orRaise_none]
                              cases (res 0).entries.isEmpty with
                              | true => rfl
                              | false => rfl

end Writing

end Buildsh.Driver
