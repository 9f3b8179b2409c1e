/-
  The result of the main program.

  `Reported` is what the result should be: the driver raises no error, it returns true if a
  candidate was accepted and every target was made, no functions but those of that candidate are
  called, and no candidate behind it is loaded. `reported_iff`: this is so if there is a candidate
  at all and the driver does not come to a problem (`Condition`), and only then.
-/
import Buildsh.Selection

namespace Buildsh.Driver
open Buildsh.Generic Buildsh.Generic.Output

/-! ## What the result should be -/

/-- Target `t` is made: it has a function that goes through, or it is built in. -/
def Provided (res : Nat → Targets) (i : Nat) (t : LuaString) : Prop :=
  match (res i).lookup (.str t) with
  | some (.function (.ok _)) => True
  | some (.function (.error _)) => False
  | _ => t = "list".toList ∨ t = "clean".toList

/-- All candidates in front of `c` are skipped. -/
def Reaches (files : List Candidate) (c : Candidate) : Prop :=
  ∃ pre post, files = pre ++ c :: post ∧ ∀ x ∈ pre, x.verdict = .skipped

/-- `c` is the first candidate that loads, passes the check and has what it needs. -/
def Accepts (files : List Candidate) (c : Candidate) (res : Nat → Targets) : Prop :=
  Reaches files c ∧ c.verdict = .accepted res

/-- The candidates that are loaded, in this order. -/
def loaded (r : Out Bool) : List Candidate :=
  r.events.filterMap fun
    | .load c => some c
    | _ => none

/-- The candidates whose functions are called. -/
def called (r : Out Bool) : List Candidate :=
  r.events.filterMap fun
    | .call c _ _ => some c
    | _ => none

/-- **The right result.** -/
structure Reported (files : List Candidate) (targets : List LuaString) (r : Out Bool) : Prop where
  returns : ∃ v, r.result = .ok v
  true_iff : r.result = .ok true ↔
    ∃ c res, Accepts files c res ∧ ∀ i t, targets[i]? = some t → Provided res i t
  calls : ∀ c ∈ called r, ∃ res, Accepts files c res
  loads : loaded r <+: files ∧ ∀ c ∈ (loaded r).dropLast, c.verdict = .skipped

/-- The problem with target `t`. -/
def targetProblem (res : Nat → Targets) (i : Nat) (t : LuaString) : Option DriverError :=
  match (res i).lookup (.str t) with
  | some (.function (.ok _)) => none
  | some (.function (.error e)) => e.problem
  | _ => if t = "list".toList then (res i).problem else none

/-- There is a candidate, and no problem with those that are reached, nor with the targets that
    are reached. -/
structure Condition (files : List Candidate) (targets : List LuaString) : Prop where
  nonempty : files ≠ []
  candidates : ∀ c, Reaches files c → c.problem = none
  targets : ∀ c res, Accepts files c res → ∀ i t, targets[i]? = some t →
    (∀ j < i, ∀ t', targets[j]? = some t' → Provided res j t') → targetProblem res i t = none

/-! ## Targets -/

section Targets

variable (c : Candidate) (res : Nat → Targets)

/-- All targets from the `k`th one are made. -/
def AllProvided (k : Nat) (ts : List LuaString) : Prop :=
  ∀ i t, ts[i]? = some t → Provided res (k + i) t

/-- No problem with the targets that are reached. -/
def NoProblem (k : Nat) (ts : List LuaString) : Prop :=
  ∀ i t, ts[i]? = some t → (∀ j < i, ∀ t', ts[j]? = some t' → Provided res (k + j) t') →
    targetProblem res (k + i) t = none

theorem allProvided_cons (k : Nat) (t : LuaString) (ts : List LuaString) :
    AllProvided res k (t :: ts) ↔ Provided res k t ∧ AllProvided res (k + 1) ts := by
  constructor
  · intro h
    refine ⟨h 0 t rfl, fun i t' ht => ?_⟩
    rw [show k + 1 + i = k + (i + 1) by omega]
    exact h (i + 1) t' ht
  · rintro ⟨h₀, h⟩ i t' ht
    cases i with
    | zero =>
        cases ht
        exact h₀
    | succ i =>
        rw [show k + (i + 1) = k + 1 + i by omega]
        exact h i t' ht

theorem noProblem_cons (k : Nat) (t : LuaString) (ts : List LuaString) :
    NoProblem res k (t :: ts) ↔
      targetProblem res k t = none ∧ (Provided res k t → NoProblem res (k + 1) ts) := by
  constructor
  · intro h
    refine ⟨h 0 t rfl fun j hj => absurd hj (by omega), fun h₀ i t' ht hpre => ?_⟩
    rw [show k + 1 + i = k + (i + 1) by omega]
    refine h (i + 1) t' ht fun j hj t'' ht'' => ?_
    cases j with
    | zero =>
        cases ht''
        exact h₀
    | succ j =>
        rw [show k + (j + 1) = k + 1 + j by omega]
        exact hpre j (by omega) t'' ht''
  · rintro ⟨h₀, h⟩ i t' ht hpre
    cases i with
    | zero =>
        cases ht
        exact h₀
    | succ i =>
        rw [show k + (i + 1) = k + 1 + i by omega]
        refine h (hpre 0 (by omega) t rfl) i t' ht fun j hj t'' ht'' => ?_
        rw [show k + 1 + j = k + (j + 1) by omega]
        exact hpre (j + 1) (by omega) t'' ht''

/-- One target: it is made, and the next one is looked at; or it is not. -/
theorem perform_cons (i : Nat) (t : LuaString) (ts : List LuaString) :
    ∃ l : List Event, (∀ e ∈ l, e = .call c i t ∨ e = .autoclean) ∧
      ((Provided res i t ∧
          perform c res i (t :: ts) =
            (orRaise (targetProblem res i t) (perform c res (i + 1) ts)).after l) ∨
        (¬ Provided res i t ∧
          perform c res i (t :: ts) =
            (orRaise (targetProblem res i t) (pure false)).after l)) := by
  -- what is done if the target is no function
  have hother : ∃ l : List Event, (∀ e ∈ l, e = .call c i t ∨ e = .autoclean) ∧
      (((t = "list".toList ∨ t = "clean".toList) ∧
          (if t = "list".toList then orRaise (res i).problem (perform c res (i + 1) ts)
            else if t = "clean".toList then emit .autoclean >>= fun _ => perform c res (i + 1) ts
            else pure false) =
          (orRaise (if t = "list".toList then (res i).problem else none)
            (perform c res (i + 1) ts)).after l) ∨
        (¬ (t = "list".toList ∨ t = "clean".toList) ∧
          (if t = "list".toList then orRaise (res i).problem (perform c res (i + 1) ts)
            else if t = "clean".toList then emit .autoclean >>= fun _ => perform c res (i + 1) ts
            else pure false) =
          (orRaise (if t = "list".toList then (res i).problem else none)
            (pure false)).after l)) := by
    by_cases hlist : t = "list".toList
    · refine ⟨[], by simp, Or.inl ⟨Or.inl hlist, ?_⟩⟩
      rw [if_pos hlist, if_pos hlist]
      rfl
    · by_cases hclean : t = "clean".toList
      · refine ⟨[.autoclean], by simp, Or.inl ⟨Or.inr hclean, ?_⟩⟩
        rw [if_neg hlist, if_pos hclean, if_neg hlist]
        rfl
      · refine ⟨[], by simp, Or.inr ⟨not_or.mpr ⟨hlist, hclean⟩, ?_⟩⟩
        rw [if_neg hlist, if_neg hclean, if_neg hlist]
        rfl
  unfold Provided targetProblem
  rw [perform]
  cases (res i).lookup (.str t) with
  | none => exact hother
  | some v =>
      cases v with
      | other => exact hother
      | function o =>
          cases o with
          | ok _ => exact ⟨[.call c i t], by simp, Or.inl ⟨trivial, rfl⟩⟩
          | error e => exact ⟨[.call c i t], by simp, Or.inr ⟨not_false, rfl⟩⟩

/-- **The targets.** The result is whether all of them are made, if there is no problem. -/
theorem perform_result (k : Nat) (ts : List LuaString) :
    (NoProblem res k ts →
      ∃ v, (perform c res k ts).result = .ok v ∧ (v = true ↔ AllProvided res k ts)) ∧
      (¬ NoProblem res k ts → ∃ e, (perform c res k ts).result = .error e) := by
  induction ts generalizing k with
  | nil =>
      have hall : AllProvided res k [] := fun i t h => by simp at h
      have hno : NoProblem res k [] := fun i t h => by simp at h
      exact ⟨fun _ => ⟨true, rfl, iff_of_true rfl hall⟩, fun h => absurd hno h⟩
  | cons t ts ih =>
      rw [noProblem_cons, allProvided_cons]
      obtain ⟨l, -, hcase⟩ := perform_cons c res k t ts
      cases htarget : targetProblem res k t with
      | some e =>
          rw [htarget] at hcase
          have hraised : (perform c res k (t :: ts)).result = .error e := by
            rcases hcase with ⟨-, hperform⟩ | ⟨-, hperform⟩
            · rw [hperform, result_after, orRaise_some]
              rfl
            · rw [hperform, result_after, orRaise_some]
              rfl
          exact ⟨fun h => (by cases h.1), fun _ => ⟨e, hraised⟩⟩
      | none =>
          rw [htarget] at hcase
          rcases hcase with ⟨hprov, hperform⟩ | ⟨hprov, hperform⟩
          · rw [hperform, result_after, orRaise_none]
            obtain ⟨hok, herr⟩ := ih (k + 1)
            constructor
            · rintro ⟨-, hrest⟩
              obtain ⟨v, hv, hiff⟩ := hok (hrest hprov)
              exact ⟨v, hv, hiff.trans (and_iff_right hprov).symm⟩
            · intro h
              exact herr fun hrest => h ⟨rfl, fun _ => hrest⟩
          · rw [hperform, result_after, orRaise_none]
            refine ⟨fun _ => ⟨false, rfl, ?_⟩, fun h => ?_⟩
            · exact iff_of_false (by simp) fun h => hprov h.1
            · exact absurd ⟨rfl, fun h => absurd h hprov⟩ h

theorem events_orRaise {α : Type} (p : Option DriverError) (x : Out α) (e : Event)
    (h : e ∈ (orRaise p x).events) : e ∈ x.events := by
  cases p with
  | none => exact h
  | some err => cases h

theorem perform_events (k : Nat) (ts : List LuaString) :
    ∀ e ∈ (perform c res k ts).events, (∃ i t, e = .call c i t) ∨ e = .autoclean := by
  induction ts generalizing k with
  | nil => exact fun e h => by cases h
  | cons t ts ih =>
      intro e he
      obtain ⟨l, hl, ⟨-, hperform⟩ | ⟨-, hperform⟩⟩ := perform_cons c res k t ts
      · rw [hperform, events_after, List.mem_append] at he
        rcases he with he | he
        · exact (hl e he).imp (fun h => ⟨k, t, h⟩) id
        · exact ih (k + 1) e (events_orRaise _ _ e he)
      · rw [hperform, events_after, List.mem_append] at he
        rcases he with he | he
        · exact (hl e he).imp (fun h => ⟨k, t, h⟩) id
        · cases events_orRaise _ _ e he

end Targets

/-! ## Candidates -/

section Candidates

variable {files : List Candidate} {c c' : Candidate} {res : Nat → Targets}

theorem reaches_cons : Reaches (c :: files) c' ↔
    c' = c ∨ c.verdict = .skipped ∧ Reaches files c' := by
  constructor
  · rintro ⟨pre, post, hfiles, hpre⟩
    cases pre with
    | nil =>
        cases hfiles
        exact Or.inl rfl
    | cons x pre =>
        cases hfiles
        obtain ⟨hx, hpre⟩ := List.forall_mem_cons.mp hpre
        exact Or.inr ⟨hx, pre, post, rfl, hpre⟩
  · rintro (rfl | ⟨hskip, pre, post, rfl, hpre⟩)
    · exact ⟨[], files, rfl, by simp⟩
    · exact ⟨c :: pre, post, rfl, List.forall_mem_cons.mpr ⟨hskip, hpre⟩⟩

theorem accepts_cons : Accepts (c :: files) c' res ↔
    (c' = c ∧ c.verdict = .accepted res) ∨ (c.verdict = .skipped ∧ Accepts files c' res) := by
  unfold Accepts
  rw [reaches_cons]
  constructor
  · rintro ⟨rfl | ⟨hskip, hreach⟩, hacc⟩
    · exact Or.inl ⟨rfl, hacc⟩
    · exact Or.inr ⟨hskip, hreach, hacc⟩
  · rintro (⟨rfl, hacc⟩ | ⟨hskip, hreach, hacc⟩)
    · exact ⟨Or.inl rfl, hacc⟩
    · exact ⟨Or.inr ⟨hskip, hreach⟩, hacc⟩

theorem not_reaches_nil : ¬ Reaches [] c := by
  rintro ⟨pre, post, h, -⟩
  simp at h

/-- No two candidates are accepted. -/
theorem accepts_unique {res' : Nat → Targets} (h : Accepts files c res)
    (h' : Accepts files c' res') : c = c' ∧ res = res' := by
  induction files with
  | nil => exact absurd h.1 not_reaches_nil
  | cons x files ih =>
      rcases accepts_cons.mp h with ⟨rfl, ha⟩ | ⟨hs, ha⟩
      · rcases accepts_cons.mp h' with ⟨rfl, ha'⟩ | ⟨hs', -⟩
        · rw [ha] at ha'
          exact ⟨rfl, Verdict.accepted.inj ha'⟩
        · rw [ha] at hs'
          cases hs'
      · rcases accepts_cons.mp h' with ⟨rfl, ha'⟩ | ⟨-, ha'⟩
        · rw [ha'] at hs
          cases hs
        · exact ih ha ha'

variable (targets : List LuaString)

/-- No problem with the candidates and the targets that are reached. -/
def Fine (files : List Candidate) : Prop :=
  (∀ c, Reaches files c → c.problem = none) ∧
    ∀ c res, Accepts files c res → NoProblem res 0 targets

theorem condition_iff : Condition files targets ↔ files ≠ [] ∧ Fine targets files := by
  have hno : ∀ res, NoProblem res 0 targets ↔ ∀ i t, targets[i]? = some t →
      (∀ j < i, ∀ t', targets[j]? = some t' → Provided res j t') →
        targetProblem res i t = none := by
    intro res
    simp only [NoProblem, Nat.zero_add]
  constructor
  · rintro ⟨hne, hcand, htargets⟩
    exact ⟨hne, hcand, fun c res h => (hno res).mpr (htargets c res h)⟩
  · rintro ⟨hne, hcand, htargets⟩
    exact ⟨hne, hcand, fun c res h => (hno res).mp (htargets c res h)⟩

theorem fine_cons : Fine targets (c :: files) ↔ c.problem = none ∧
    (c.verdict = .skipped → Fine targets files) ∧
      ∀ res, c.verdict = .accepted res → NoProblem res 0 targets := by
  unfold Fine
  constructor
  · rintro ⟨hprob, hno⟩
    refine ⟨hprob c (reaches_cons.mpr (Or.inl rfl)), fun hskip => ⟨fun c' h => ?_,
      fun c' res h => ?_⟩, fun res hacc => ?_⟩
    · exact hprob c' (reaches_cons.mpr (Or.inr ⟨hskip, h⟩))
    · exact hno c' res (accepts_cons.mpr (Or.inr ⟨hskip, h⟩))
    · exact hno c res (accepts_cons.mpr (Or.inl ⟨rfl, hacc⟩))
  · rintro ⟨hprob, hskip, hacc⟩
    refine ⟨fun c' h => ?_, fun c' res h => ?_⟩
    · rcases reaches_cons.mp h with rfl | ⟨hs, hreach⟩
      exacts [hprob, (hskip hs).1 c' hreach]
    · rcases accepts_cons.mp h with ⟨rfl, ha⟩ | ⟨hs, ha⟩
      exacts [hacc res ha, (hskip hs).2 c' res ha]

/-- Somebody is accepted and makes all targets. -/
def Made (files : List Candidate) : Prop :=
  ∃ c res, Accepts files c res ∧ AllProvided res 0 targets

theorem made_cons : Made targets (c :: files) ↔
    (∃ res, c.verdict = .accepted res ∧ AllProvided res 0 targets) ∨
      c.verdict = .skipped ∧ Made targets files := by
  unfold Made
  constructor
  · rintro ⟨c', res, h, hall⟩
    rcases accepts_cons.mp h with ⟨rfl, ha⟩ | ⟨hs, ha⟩
    exacts [Or.inl ⟨res, ha, hall⟩, Or.inr ⟨hs, c', res, ha, hall⟩]
  · rintro (⟨res, ha, hall⟩ | ⟨hs, c', res, ha, hall⟩)
    · exact ⟨c, res, accepts_cons.mpr (Or.inl ⟨rfl, ha⟩), hall⟩
    · exact ⟨c', res, accepts_cons.mpr (Or.inr ⟨hs, ha⟩), hall⟩

/-- **The result.** Without a problem it is whether the targets are made, or the flag if there is
    no candidate. -/
theorem select_result (files : List Candidate) (retval : Bool) :
    (Fine targets files → ∃ v, (select targets files retval).result = .ok v ∧
      (v = true ↔ (files = [] ∧ retval = true) ∨ Made targets files)) ∧
      (¬ Fine targets files → ∃ e, (select targets files retval).result = .error e) := by
  induction files generalizing retval with
  | nil =>
      have hfine : Fine targets [] :=
        ⟨fun c h => absurd h not_reaches_nil, fun c res h => absurd h.1 not_reaches_nil⟩
      have hmade : ¬ Made targets [] := by
        rintro ⟨c, res, h, -⟩
        exact not_reaches_nil h.1
      exact ⟨fun _ => ⟨retval, rfl, by simp [hmade]⟩, fun h => absurd hfine h⟩
  | cons c files ih =>
      rw [fine_cons, made_cons, select, emit_then, result_after]
      cases hprob : c.problem with
      | some e =>
          rw [orRaise_some]
          exact ⟨fun h => (by cases h.1), fun _ => ⟨e, rfl⟩⟩
      | none =>
          rw [orRaise_none]
          cases hv : c.verdict with
          | skipped =>
              obtain ⟨hok, herr⟩ := ih false
              constructor
              · rintro ⟨-, hfine, -⟩
                obtain ⟨v, hres, hiff⟩ := hok (hfine rfl)
                exact ⟨v, hres, hiff.trans (by simp)⟩
              · intro h
                exact herr fun hfine => h ⟨rfl, fun _ => hfine, fun res hacc => by cases hacc⟩
          | aborted =>
              constructor
              · exact fun _ => ⟨false, rfl, by simp⟩
              · intro h
                exact absurd ⟨rfl, fun hs => (by cases hs), fun res hacc => (by cases hacc)⟩ h
          | accepted res =>
              obtain ⟨hok, herr⟩ := perform_result c res 0 targets
              constructor
              · rintro ⟨-, -, hno⟩
                obtain ⟨v, hres, hiff⟩ := hok (hno res rfl)
                exact ⟨v, hres, hiff.trans (by simp)⟩
              · intro h
                refine herr fun hno => h ⟨rfl, fun hs => (by cases hs), fun res' hacc => ?_⟩
                cases hacc
                exact hno

/-- What `select` does with the first candidate. -/
theorem select_cons (c : Candidate) (files : List Candidate) (retval : Bool) :
    ∃ r : Out Bool, select targets (c :: files) retval = r.after [.load c] ∧
      (r.events = [] ∨ c.verdict = .skipped ∧ r = select targets files false ∨
        ∃ res, c.verdict = .accepted res ∧ r = perform c res 0 targets) := by
  refine ⟨_, rfl, ?_⟩
  cases c.problem with
  | some e => exact Or.inl rfl
  | none =>
      cases c.verdict with
      | skipped => exact Or.inr (Or.inl ⟨rfl, rfl⟩)
      | aborted => exact Or.inl rfl
      | accepted res => exact Or.inr (Or.inr ⟨res, rfl, rfl⟩)

theorem loaded_perform (c : Candidate) (res : Nat → Targets) (k : Nat) (ts : List LuaString) :
    loaded (perform c res k ts) = [] := by
  refine List.filterMap_eq_nil_iff.mpr fun e he => ?_
  rcases perform_events c res k ts e he with ⟨i, t, rfl⟩ | rfl <;> rfl

theorem called_perform (c : Candidate) (res : Nat → Targets) (k : Nat) (ts : List LuaString) :
    ∀ c' ∈ called (perform c res k ts), c' = c := by
  intro c' hc'
  obtain ⟨e, he, hsome⟩ := List.mem_filterMap.mp hc'
  rcases perform_events c res k ts e he with ⟨i, t, rfl⟩ | rfl
  · exact (Option.some.inj hsome).symm
  · cases hsome

/-- **The loads.** No candidate behind one that is not skipped is loaded. -/
theorem select_loads (files : List Candidate) (retval : Bool) :
    loaded (select targets files retval) <+: files ∧
      ∀ c ∈ (loaded (select targets files retval)).dropLast, c.verdict = .skipped := by
  induction files generalizing retval with
  | nil => exact ⟨List.prefix_refl [], fun c h => by cases h⟩
  | cons c files ih =>
      obtain ⟨r, hr, hcases⟩ := select_cons targets c files retval
      have hload : loaded (select targets (c :: files) retval) = c :: loaded r := by
        rw [hr]
        rfl
      have hnil : loaded r = [] → c :: loaded r <+: c :: files ∧
          ∀ x ∈ (c :: loaded r).dropLast, x.verdict = .skipped := by
        intro h
        rw [h]
        exact ⟨List.cons_prefix_cons.mpr ⟨rfl, List.nil_prefix⟩, fun x hx => by cases hx⟩
      rw [hload]
      rcases hcases with hev | ⟨hskip, rfl⟩ | ⟨res, -, rfl⟩
      · exact hnil (by rw [loaded, hev]; rfl)
      · obtain ⟨hpre, hdrop⟩ := ih false
        refine ⟨List.cons_prefix_cons.mpr ⟨rfl, hpre⟩, fun x hx => ?_⟩
        cases hl : loaded (select targets files false) with
        | nil =>
            rw [hl] at hx
            cases hx
        | cons y l =>
            rw [hl, List.dropLast_cons_cons] at hx
            rcases List.mem_cons.mp hx with rfl | hx
            · exact hskip
            · exact hdrop x (by rw [hl]; exact hx)
      · exact hnil (loaded_perform c res 0 targets)

/-- **The calls.** Only functions of the candidate that is accepted are called. -/
theorem select_calls (files : List Candidate) (retval : Bool) :
    ∀ c ∈ called (select targets files retval), ∃ res, Accepts files c res := by
  induction files generalizing retval with
  | nil => exact fun c h => by cases h
  | cons c files ih =>
      intro c' hc'
      obtain ⟨r, hr, hcases⟩ := select_cons targets c files retval
      have hcall : called (select targets (c :: files) retval) = called r := by
        rw [hr]
        rfl
      rw [hcall] at hc'
      rcases hcases with hev | ⟨hskip, rfl⟩ | ⟨res, hacc, rfl⟩
      · rw [called, hev] at hc'
        cases hc'
      · obtain ⟨res, h⟩ := ih false c' hc'
        exact ⟨res, accepts_cons.mpr (Or.inr ⟨hskip, h⟩)⟩
      · have hsame : c' = c := called_perform c res 0 targets c' hc'
        exact ⟨res, accepts_cons.mpr (Or.inl ⟨hsame, hacc⟩)⟩

end Candidates

/-! ## The main program -/

section Main

variable (handler : Option LuaString) (files : List Candidate) (targets : List LuaString)

theorem loaded_only (r : Out Bool) : loaded (r.only isAction) = loaded r :=
  filterMap_only isAction _ (fun e h => by cases e <;> simp_all [isAction]) r

theorem called_only (r : Out Bool) : called (r.only isAction) = called r :=
  filterMap_only isAction _ (fun e h => by cases e <;> simp_all [isAction]) r

theorem reported_only (r : Out Bool) :
    Reported files targets (r.only isAction) ↔ Reported files targets r := by
  constructor
  · rintro ⟨hret, htrue, hcalls, hloads⟩
    rw [result_only] at hret htrue
    rw [called_only] at hcalls
    rw [loaded_only] at hloads
    exact ⟨hret, htrue, hcalls, hloads⟩
  · rintro ⟨hret, htrue, hcalls, hloads⟩
    refine ⟨hret, htrue, ?_, ?_⟩
    · rw [called_only]
      exact hcalls
    · rw [loaded_only]
      exact hloads

theorem made_iff : Made targets files ↔
    ∃ c res, Accepts files c res ∧ ∀ i t, targets[i]? = some t → Provided res i t := by
  simp only [Made, AllProvided, Nat.zero_add]

/-- **The right result.** It is reported if there is a candidate and no problem is reached, and
    only then. -/
theorem reported_iff : Reported files targets (mainLoop handler targets files true) ↔
    Condition files targets := by
  rw [← reported_only, mainLoop_only, condition_iff]
  obtain ⟨hok, herr⟩ := select_result targets files true
  constructor
  · rintro ⟨⟨v, hret⟩, htrue, -, -⟩
    have hfine : Fine targets files := by
      by_contra hno
      obtain ⟨e, he⟩ := herr hno
      rw [he] at hret
      cases hret
    refine ⟨?_, hfine⟩
    rintro rfl
    obtain ⟨c, res, h, -⟩ := htrue.mp rfl
    exact not_reaches_nil h.1
  · rintro ⟨hne, hfine⟩
    obtain ⟨v, hres, hiff⟩ := hok hfine
    refine ⟨⟨v, hres⟩, ?_, select_calls targets files true, select_loads targets files true⟩
    rw [hres, ← made_iff, Except.ok.injEq, hiff]
    simp [hne]

/-- Without any make file, the driver reports success. -/
theorem not_reported_empty :
    ¬ Reported [] ["build".toList] (mainLoop none ["build".toList] [] true) := by
  rintro ⟨-, htrue, -, -⟩
  obtain ⟨c, res, h, -⟩ := htrue.mp rfl
  exact not_reaches_nil h.1

end Main

end Buildsh.Driver
