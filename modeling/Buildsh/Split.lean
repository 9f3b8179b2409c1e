/-
  Calls that `strace` writes in two pieces.

  A call that another process interrupts is written as `pid sys(args <unfinished ...>` and
  `pid <... sys resumed>) = ret`. `post_process` keeps the arguments of the first line on a stack
  for the process and the call, and takes them from there at the second.

  The blank that `strace` writes in front of `<unfinished` stays with the arguments, and blanks at
  their beginning are dropped. Most handlers see no difference; `fchdir` wants nothing but digits,
  so its number is lost (`Lost`). `split_iff`: apart from such calls, a log gives the same with a
  call in two pieces as with the whole line at the place of the second. A call that fails leaves
  nothing behind in any case.
-/
import Buildsh.Total

namespace Buildsh.Split
open Buildsh.Generic Buildsh.Generic.Pattern Buildsh.Base Buildsh.Patterns Buildsh.Commands
open Buildsh.Strace Buildsh.Trace

/-! ## Lines -/

/-- `pid sys(args) = ret` -/
def completeLine (pid sys args ret : LuaString) : LuaString :=
  pid ++ ' ' :: (sys ++ '(' :: (args ++ ')' :: (" = ".toList ++ ret)))

/-- `pid sys(args <unfinished ...>` -/
def unfinishedLine (pid sys args : LuaString) : LuaString :=
  pid ++ ' ' :: (sys ++ '(' :: (args ++ ' ' :: '<' :: "unfinished ...>".toList))

/-- `pid <... sys resumed>) = ret`, with a blank in front of the parenthesis in old versions. -/
def resumedLine (old : Bool) (pid sys ret : LuaString) : LuaString :=
  pid ++ ' ' :: '<' :: ("... ".toList ++ (sys ++ (" resumed>".toList ++
    ((if old then " ".toList else []) ++ ')' :: (" = ".toList ++ ret)))))

/-- How a line is read. -/
inductive LineKind where
  | whole (c : CallLine)
  | begun (pid : Pid) (syscall args : LuaString)
  | ended (pid : Pid) (syscall args ret : LuaString)
  | garbled

def kindOf (line : LuaString) : LineKind :=
  match match_ syscallRe line with
  | some [pid, syscall, args, ret] => .whole ⟨pid, syscall, args, ret⟩
  | _ =>
      match match_ unfinishedRe line with
      | some [pid, syscall, args] => .begun pid syscall args
      | _ =>
          match match_ resumedRe line with
          | some [pid, syscall, args, ret] => .ended pid syscall args ret
          | _ => .garbled

def LineKind.pid : LineKind → Option Pid
  | .whole c => some c.pid
  | .begun pid _ _ => some pid
  | .ended pid _ _ _ => some pid
  | .garbled => none

def LineKind.take (t : Unfinished) : LineKind → Unfinished × Option CallLine
  | .whole c => (t, some c)
  | .begun pid syscall args => (pushUnfinished t pid syscall args, none)
  | .ended pid syscall args ret =>
      ((popUnfinished t pid syscall args ret).1,
        (popUnfinished t pid syscall args ret).2.map fun args => ⟨pid, syscall, args, ret⟩)
  | .garbled => (t, none)

theorem takeLine_eq (t : Unfinished) (line : LuaString) :
    takeLine t line = (kindOf line).take t := by
  unfold kindOf
  split
  · rename_i h
    simp only [takeLine, h, LineKind.take]
  · split
    · rename_i h
      simp only [takeLine, h, LineKind.take]
    · split
      · rename_i h
        simp only [takeLine, h, LineKind.take]
      · simp only [takeLine, LineKind.take]

/-! ## Reading the lines -/

/-- A call with a handler, with a result that is not negative. -/
structure IsCall (pid sys ret : LuaString) : Prop where
  pid_ne : pid ≠ []
  pid_digits : ∀ c ∈ pid, c.isDigit = true
  handled : (syscallHandlers.lookup sys).isSome
  ret_ne : ret ≠ []
  ret_digits : ∀ c ∈ ret, c.isDigit = true

/-- A call, with its texts checked. -/
theorem isCall_of_check {pid sys ret : LuaString}
    (h : (pid ≠ [] && pid.all Char.isDigit && (syscallHandlers.lookup sys).isSome &&
      (ret ≠ [] && ret.all Char.isDigit)) = true) : IsCall pid sys ret := by
  simp only [Bool.and_eq_true, decide_eq_true_eq] at h
  exact ⟨h.1.1.1, List.all_eq_true.mp h.1.1.2, h.1.2, h.2.1, List.all_eq_true.mp h.2.2⟩

theorem mem_keys_of_lookup {α β : Type} [BEq α] [LawfulBEq α] {l : List (α × β)} {a : α}
    (h : (l.lookup a).isSome) : a ∈ l.map (·.1) := by
  induction l with
  | nil => cases h
  | cons x l ih =>
      obtain ⟨b, v⟩ := x
      rw [List.lookup_cons] at h
      by_cases hab : a = b
      · simp [hab]
      · have hne : (a == b) = false := by simpa using hab
        rw [hne] at h
        exact List.mem_cons_of_mem _ (ih h)

theorem isWord_of_handled {sys : LuaString} (h : (syscallHandlers.lookup sys).isSome) :
    sys ≠ [] ∧ ∀ c ∈ sys, isWord c = true := by
  have hkeys : (syscallHandlers.map (·.1)).all (fun s => s ≠ [] && s.all isWord) = true := by
    decide
  have hs := List.all_eq_true.mp hkeys sys (mem_keys_of_lookup h)
  rw [Bool.and_eq_true, decide_eq_true_eq] at hs
  exact ⟨hs.1, List.all_eq_true.mp hs.2⟩

section Read

variable {pid sys args ret : LuaString}

/-- `^(%d+)%s*([%w_]+)%(`, with which two of the patterns begin. -/
theorem match_head (h : IsCall pid sys ret) {p : List (Item Char)} {v : LuaString}
    {r : Captures Char × LuaString} (hp : matchItems p ⟨[pid, sys], []⟩ v = some r) :
    matchItems (captured Char.isDigit .plus ++ ([spaces] ++ (atItem ++ (literal "(".toList ++ p))))
      .none (pid ++ ' ' :: (sys ++ '(' :: v)) = some r := by
  obtain ⟨hne, hword⟩ := isWord_of_handled h.handled
  refine match_captured_plus h.pid_ne h.pid_digits (stops_cons (by decide)) ?_
  refine match_space ?_ ?_
  · obtain ⟨c, s, rfl⟩ := List.exists_cons_of_ne_nil hne
    exact stops_cons (not_isSpace_of_isWord (hword c List.mem_cons_self))
  · refine match_captured_plus hne hword (stops_cons (by decide)) ?_
    exact (match_literal ['('] v).trans hp

/-- `%s*=%s*`, behind a closing parenthesis. -/
theorem match_equals {c : Captures Char} {p : List (Item Char)} {v : LuaString}
    {r : Captures Char × LuaString} (hv : Stops isSpace v) (hp : matchItems p c v = some r) :
    matchItems ([spaces] ++ (literal "=".toList ++ ([spaces] ++ p))) c (" = ".toList ++ v) =
      some r := by
  refine match_space (stops_cons (by decide)) ?_
  refine (match_literal ['='] (' ' :: v)).trans ?_
  exact match_space hv hp

theorem paren_not_mem (h : IsCall pid sys ret) (neg : Bool) :
    ')' ∉ " = ".toList ++ ((if neg then "-".toList else []) ++ ret) := by
  intro hmem
  rcases List.mem_append.mp hmem with hmem | hmem
  · exact absurd hmem (by decide)
  · rcases List.mem_append.mp hmem with hmem | hmem
    · cases neg <;> exact absurd hmem (by decide)
    · exact absurd (h.ret_digits _ hmem) (by decide)

theorem kindOf_complete (h : IsCall pid sys ret) (args : LuaString) :
    kindOf (completeLine pid sys args ret) = .whole ⟨pid, sys, args, ret⟩ := by
  have hret : matchItems (captured Char.isDigit .plus ++ [.stop]) ⟨[pid, sys, args], []⟩ ret =
      some (⟨[pid, sys, args, ret], []⟩, []) := by
    have hv := @match_captured_plus [.stop] (⟨[pid, sys, args, ret], []⟩, [])
      [pid, sys, args] [] Char.isDigit ret [] h.ret_ne h.ret_digits stops_nil rfl
    rwa [List.append_nil] at hv
  have hmatch : matchItems syscallRe .none (completeLine pid sys args ret) =
      some (⟨[pid, sys, args, ret], []⟩, []) := by
    simp only [syscallRe, List.append_assoc, completeLine]
    refine match_head h (matchItems_anything (fun w hw hne c => ?_) ?_)
    · exact matchItems_literal_none (suffix_not_head (paren_not_mem h false) hw hne) c
    · refine (match_literal [')'] _).trans (match_equals ?_ hret)
      simpa using stops_digits (v := []) h.ret_ne h.ret_digits
  unfold kindOf
  rw [match_, hmatch]
  rfl

/-- The arguments of a line that is not finished. -/
def firstHalf (args : LuaString) : LuaString := (args ++ [' ']).dropWhile isSpace

theorem stops_dropWhile {cls : Char → Bool} (s : LuaString) {v : LuaString} (hv : Stops cls v) :
    Stops cls (s.dropWhile cls ++ v) := by
  have h := List.head?_dropWhile_not cls s
  cases hs : s.dropWhile cls with
  | nil => exact hv
  | cons c t =>
      rw [hs] at h
      exact stops_cons (by simpa using h)

theorem kindOf_unfinished (h : IsCall pid sys ret) (args : LuaString) :
    kindOf (unfinishedLine pid sys args) = .begun pid sys (firstHalf args) := by
  -- the line does not end in a digit
  have hwhole : match_ syscallRe (unfinishedLine pid sys args) = none := by
    by_contra hne
    obtain ⟨l, hl⟩ := Option.ne_none_iff_exists'.mp hne
    obtain ⟨r, hr, -⟩ := Option.map_eq_some_iff.mp hl
    obtain ⟨x, hx, hdigit⟩ := getLast_of_stop (p := captured Char.isDigit .plus ++ [spaces] ++
      atItem ++ literal "(".toList ++ anything ++ literal ")".toList ++ [spaces] ++
      literal "=".toList ++ [spaces]) hr
    have hline : unfinishedLine pid sys args =
        pid ++ ' ' :: (sys ++ '(' :: (args ++ " <unfinished ...".toList)) ++ ['>'] := by
      simp [unfinishedLine]
    have hlast : (unfinishedLine pid sys args).getLast? = some '>' := by
      rw [hline, List.getLast?_concat]
    rw [hlast, Option.mem_some_iff] at hx
    rw [← hx] at hdigit
    exact absurd hdigit (by decide)
  have hsplit : args ++ ' ' :: '<' :: "unfinished ...>".toList =
      (args ++ [' ']).takeWhile isSpace ++ (firstHalf args ++ '<' :: "unfinished ...>".toList) := by
    rw [firstHalf, ← List.append_assoc, List.takeWhile_append_dropWhile, List.append_assoc]
    rfl
  have hmatch : matchItems unfinishedRe .none (unfinishedLine pid sys args) =
      some (⟨[pid, sys, firstHalf args], []⟩, []) := by
    simp only [unfinishedRe, List.append_assoc, unfinishedLine, hsplit]
    refine match_head h (matchItems_star (fun x hx => ?_) ?_ (matchItems_anything ?_ ?_))
    · exact List.all_eq_true.mp List.all_takeWhile x hx
    · exact stops_dropWhile _ (stops_cons (by decide))
    · intro w hw hne c
      exact matchItems_literal_none (suffix_not_head (by decide) hw hne) c
    · rfl
  unfold kindOf
  rw [hwhole, match_, hmatch]
  rfl

/-- The result as `strace` writes it: a number, and a text without '=' behind one that is
    negative. -/
def resultText (neg : Bool) (ret tail : LuaString) : LuaString :=
  (if neg then "-".toList else []) ++ (ret ++ tail)

theorem match_result (h : IsCall pid sys ret) (neg : Bool) {tail : LuaString}
    (htail : Stops Char.isDigit tail) (ended : List LuaString) :
    matchItems [.begin_, .chars (fun c => c = '-') .opt, .chars Char.isDigit .plus, .end_]
      ⟨ended, []⟩ (resultText neg ret tail) =
      some (⟨ended ++ [(if neg then "-".toList else []) ++ ret], []⟩, tail) := by
  have hplus : matchItems [.chars Char.isDigit .plus, .end_]
      ⟨ended, [resultText neg ret tail]⟩ (ret ++ tail) =
      some (⟨ended ++ [(if neg then "-".toList else []) ++ ret], []⟩, tail) := by
    refine matchItems_plus h.ret_ne h.ret_digits htail ?_
    rw [resultText, ← List.append_assoc]
    exact matchItems_end rfl
  rw [matchItems, matchItems_chars]
  cases neg with
  | true =>
      have htext : resultText true ret tail = '-' :: (ret ++ tail) := rfl
      rw [htext] at hplus ⊢
      rw [expand, if_pos (by decide), hplus]
      rfl
  | false =>
      obtain ⟨c, ds, hret⟩ := List.exists_cons_of_ne_nil h.ret_ne
      have hc : c ≠ '-' := by
        rintro rfl
        exact absurd (h.ret_digits '-' (hret ▸ List.mem_cons_self)) (by decide)
      have htext : resultText false ret tail = c :: (ds ++ tail) := by
        rw [resultText, hret]
        rfl
      rw [htext] at hplus ⊢
      rw [expand, if_neg (by simpa using hc)]
      rw [hret] at hplus ⊢
      exact hplus

/-- The beginning of a resumed line is that of no other line: the name does not follow. -/
theorem match_resumed_none (h : IsCall pid sys ret) (p : List (Item Char)) (v : LuaString) :
    matchItems (captured Char.isDigit .plus ++ ([spaces] ++ (atItem ++ (literal "(".toList ++ p))))
      .none (pid ++ ' ' :: '<' :: v) = none := by
  have hpid : ∀ y ∈ pid ++ [' '], (decide (y = '(')) = false := by
    intro y hy
    rw [decide_eq_false_iff_not]
    rintro rfl
    rcases List.mem_append.mp hy with hy | hy
    · exact absurd (h.pid_digits _ hy) (by decide)
    · exact absurd hy (by decide)
  have hacc : ¬ Accepts (captured Char.isDigit .plus ++ ([spaces] ++ atItem)) '<' := by
    rintro ⟨cls, times, hmem, hcls⟩
    simp only [captured, spaces, atItem, List.cons_append, List.nil_append, List.mem_cons,
      List.not_mem_nil, or_false, reduceCtorEq, false_or, Item.chars.injEq] at hmem
    rcases hmem with ⟨rfl, -⟩ | ⟨rfl, -⟩ | ⟨rfl, -⟩
    · exact absurd hcls (by decide)
    · exact absurd hcls (by decide)
    · exact absurd hcls (by decide)
  have hblocked := @matchItems_none_of_blocked Char (fun y => y = '(') .one _ p .none '<'
    (pid ++ [' ']) v (Or.inl rfl) hacc hpid (by decide)
  simpa [literal, List.append_assoc] using hblocked

/-- The pattern does not go on at a later parenthesis: this stands in the text behind the number,
    where no '=' follows. -/
theorem match_later_none (h : IsCall pid sys ret) (neg : Bool) {tail w : LuaString}
    (heq : '=' ∉ tail) (hw : w <:+ ')' :: (" = ".toList ++ resultText neg ret tail))
    (hne : w ≠ ')' :: (" = ".toList ++ resultText neg ret tail)) (p : List (Item Char))
    (c : Captures Char) :
    matchItems (literal ")".toList ++ ([spaces] ++ (literal "=".toList ++ p))) c w = none := by
  by_cases hparen : w.head? = some ')'
  · have hw' : w <:+ " = ".toList ++ ((if neg then "-".toList else []) ++ ret) ++ tail := by
      rcases List.suffix_cons_iff.mp hw with rfl | hw
      · exact absurd rfl hne
      · simpa [resultText, List.append_assoc] using hw
    have htail : w <:+ tail := suffix_of_head (paren_not_mem h neg) hw' hparen
    have hmissing : ∀ x ∈ w, decide (x = '=') = false := fun x hx =>
      decide_eq_false fun he => heq (he ▸ htail.subset hx)
    exact matchItems_none_of_missing (p := literal ")".toList ++ [spaces]) (Or.inl rfl) hmissing
  · exact matchItems_literal_none hparen c

theorem match_resumed (h : IsCall pid sys ret) (old neg : Bool) {tail : LuaString}
    (hdigit : Stops Char.isDigit tail) (heq : '=' ∉ tail) :
    matchItems resumedRe .none (resumedLine old pid sys (resultText neg ret tail)) =
      some (⟨[pid, sys, [], (if neg then "-".toList else []) ++ ret], []⟩, tail) := by
  obtain ⟨hne, hword⟩ := isWord_of_handled h.handled
  simp only [resumedRe, List.append_assoc, resumedLine]
  refine match_captured_plus h.pid_ne h.pid_digits (stops_cons (by decide)) ?_
  refine match_space (stops_cons (by decide)) ?_
  refine (match_literal "<...".toList _).trans ?_
  refine match_space ?_ ?_
  · obtain ⟨c, s, rfl⟩ := List.exists_cons_of_ne_nil hne
    exact stops_cons (not_isSpace_of_isWord (hword c List.mem_cons_self))
  change matchItems _ _ (sys ++ (" resumed>".toList ++ _)) = _
  refine match_captured_plus hne hword (stops_cons (by decide)) ?_
  refine match_space (stops_cons (by decide)) ?_
  refine (match_literal "resumed>".toList _).trans ?_
  refine matchItems_star (u := if old then " ".toList else []) ?_ (stops_cons (by decide)) ?_
  · cases old with
    | true => exact List.forall_mem_singleton.mpr rfl
    | false => simp
  refine matchItems_anything (u := [])
    (fun w hw hne c => match_later_none h neg heq hw hne _ c) ?_
  refine (match_literal [')'] _).trans (match_equals ?_ (match_result h neg hdigit _))
  cases neg with
  | true => exact stops_cons (by decide)
  | false =>
      have hstops : Stops isSpace (ret ++ tail) := stops_digits h.ret_ne h.ret_digits
      exact hstops

theorem kindOf_resumed (h : IsCall pid sys ret) (old neg : Bool) {tail : LuaString}
    (hdigit : Stops Char.isDigit tail) (heq : '=' ∉ tail) :
    kindOf (resumedLine old pid sys (resultText neg ret tail)) =
      .ended pid sys [] ((if neg then "-".toList else []) ++ ret) := by
  have hwhole : match_ syscallRe (resumedLine old pid sys (resultText neg ret tail)) = none := by
    rw [match_, Option.map_eq_none_iff]
    simp only [syscallRe, List.append_assoc]
    exact match_resumed_none h _ _
  have hbegun : match_ unfinishedRe (resumedLine old pid sys (resultText neg ret tail)) = none := by
    rw [match_, Option.map_eq_none_iff]
    simp only [unfinishedRe, List.append_assoc]
    exact match_resumed_none h _ _
  unfold kindOf
  rw [hwhole, hbegun, match_, match_resumed h old neg hdigit heq]
  rfl

end Read

/-! ## Lines of other processes -/

/-- A line that is not read as one of `pid`. -/
def Other (pid : Pid) (line : LuaString) : Prop := (kindOf line).pid ≠ some pid

/-- The unfinished calls, `pid` apart. -/
def AgreeOff (pid : Pid) (t t' : Unfinished) : Prop := ∀ q, q ≠ pid → t q = t' q

/-- The unfinished calls behind some lines. -/
def tableAfter (t : Unfinished) (lines : List LuaString) : Unfinished :=
  lines.foldl (fun t line => (takeLine t line).1) t

theorem callsOf_append (t : Unfinished) (a b : List LuaString) :
    callsOf t (a ++ b) = callsOf t a ++ callsOf (tableAfter t a) b := by
  induction a generalizing t with
  | nil => rfl
  | cons line a ih => rw [List.cons_append, callsOf, callsOf, ih, List.append_assoc]; rfl

theorem popUnfinished_fst (t : Unfinished) (pid : Pid) (sys args ret : LuaString) :
    (popUnfinished t pid sys args ret).1 =
      Function.update t pid (Function.update (t pid) sys (t pid sys).dropLast) := by
  unfold popUnfinished
  dsimp only
  split <;> rfl

theorem popUnfinished_snd (t : Unfinished) (pid : Pid) (sys args ret : LuaString) :
    (popUnfinished t pid sys args ret).2 =
      (t pid sys).getLast?.bind fun a =>
        if ret.take 1 ≠ "-".toList then some (a ++ args) else none := by
  unfold popUnfinished
  dsimp only
  cases (t pid sys).getLast? <;> rfl

section Others

variable {pid : Pid} {t t' : Unfinished}

theorem take_other {k : LineKind} (hk : k.pid ≠ some pid) (h : AgreeOff pid t t') :
    (k.take t).2 = (k.take t').2 ∧ AgreeOff pid (k.take t).1 (k.take t').1 ∧
      (k.take t).1 pid = t pid := by
  cases k with
  | whole c => exact ⟨rfl, h, rfl⟩
  | garbled => exact ⟨rfl, h, rfl⟩
  | begun p sys args =>
      have hp : p ≠ pid := fun he => hk (congrArg some he)
      refine ⟨rfl, fun q hq => ?_, Function.update_of_ne hp.symm _ _⟩
      change Function.update t p _ q = Function.update t' p _ q
      rw [h p hp]
      by_cases hqp : q = p
      · rw [hqp, Function.update_self, Function.update_self]
      · rw [Function.update_of_ne hqp, Function.update_of_ne hqp, h q hq]
  | ended p sys args ret =>
      have hp : p ≠ pid := fun he => hk (congrArg some he)
      refine ⟨?_, fun q hq => ?_, ?_⟩
      · change (popUnfinished t p sys args ret).2.map _ = (popUnfinished t' p sys args ret).2.map _
        rw [popUnfinished_snd, popUnfinished_snd, h p hp]
      · change (popUnfinished t p sys args ret).1 q = (popUnfinished t' p sys args ret).1 q
        rw [popUnfinished_fst, popUnfinished_fst, h p hp]
        by_cases hqp : q = p
        · rw [hqp, Function.update_self, Function.update_self]
        · rw [Function.update_of_ne hqp, Function.update_of_ne hqp, h q hq]
      · change (popUnfinished t p sys args ret).1 pid = t pid
        rw [popUnfinished_fst]
        exact Function.update_of_ne hp.symm _ _

theorem lines_other {lines : List LuaString} (hlines : ∀ line ∈ lines, Other pid line)
    (h : AgreeOff pid t t') :
    callsOf t lines = callsOf t' lines ∧
      AgreeOff pid (tableAfter t lines) (tableAfter t' lines) ∧
      tableAfter t lines pid = t pid := by
  induction lines generalizing t t' with
  | nil => exact ⟨rfl, h, rfl⟩
  | cons line lines ih =>
      rw [List.forall_mem_cons] at hlines
      obtain ⟨hcall, hagree, hpid⟩ := take_other hlines.1 h
      rw [← takeLine_eq, ← takeLine_eq] at hcall hagree
      rw [← takeLine_eq] at hpid
      obtain ⟨hcalls, hagree', hpid'⟩ := ih hlines.2 hagree
      exact ⟨by rw [callsOf, callsOf, hcall, hcalls], hagree', hpid'.trans hpid⟩

/-- What was pushed is popped, and the other entries are as if nothing had been. -/
theorem pop_pushed {sys a : LuaString} {T T' : Unfinished} (hagree : AgreeOff pid T T')
    (hpid : T' pid = Function.update (T pid) sys (T pid sys ++ [a])) (ret : LuaString) :
    popUnfinished T' pid sys [] ret =
      (T, if ret.take 1 ≠ "-".toList then some a else none) := by
  have hst : T' pid sys = T pid sys ++ [a] := by rw [hpid, Function.update_self]
  refine Prod.ext ?_ ?_
  · rw [popUnfinished_fst, hst, List.dropLast_concat]
    funext q
    by_cases hq : q = pid
    · subst hq
      rw [Function.update_self, hpid, Function.update_idem, Function.update_eq_self]
    · rw [Function.update_of_ne hq]
      exact (hagree q hq).symm
  · rw [popUnfinished_snd, hst, List.getLast?_concat, Option.bind_some, List.append_nil]

end Others

/-! ## What the handlers see -/

/-- Arguments that begin with a blank. -/
def Blank (args : LuaString) : Prop := ∃ c ∈ args.head?, isSpace c = true

/-- An event that some state does not absorb: `fork` and `fchdir` need more than a process. -/
def shows : Event → Bool
  | .fork _ | .fchdir _ => false
  | _ => true

/-- A handler that a blank behind the arguments does not disturb, and one in front does. -/
structure Plain (sh : LuaString → LuaString → Option Event) : Prop where
  shows : ∀ args ret e, sh args ret = some e → shows e = true
  behind : ∀ args ret, sh (args ++ [' ']) ret = sh args ret
  blank : ∀ args ret, Blank args → sh args ret = none

/-- A handler that looks at nothing but the captures of a pattern. -/
theorem plain_of_pattern {sh : LuaString → LuaString → Option Event} (re : List (Item Char))
    (hshows : ∀ args ret e, sh args ret = some e → shows e = true)
    (hsh : ∀ args args' ret, match_ re args = match_ re args' → sh args ret = sh args' ret)
    (hnone : ∀ args ret, match_ re args = none → sh args ret = none) (hfirm : firm ' ' re = true)
    (hstart : ∀ c s, isSpace c = true → matchItems re .none (c :: s) = none) : Plain sh where
  shows := hshows
  behind args ret := hsh _ _ ret (match_behind hfirm args)
  blank args ret h := by
    obtain ⟨c, hc, hspace⟩ := h
    cases args with
    | nil => cases hc
    | cons c' s =>
        rw [List.head?_cons, Option.mem_some_iff] at hc
        refine hnone _ ret ?_
        rw [match_, hc, hstart c s hspace, Option.map_none]

theorem start_quoted {c : Char} (h : isSpace c = true) (p : List (Item Char)) (s : LuaString) :
    matchItems (literal "\"".toList ++ p) .none (c :: s) = none := by
  refine matchItems_literal_none (fun he => ?_) _
  rw [List.head?_cons, Option.some.injEq] at he
  subst he
  exact absurd h (by decide)

theorem start_word {c : Char} (h : isSpace c = true) (p : List (Item Char)) (s : LuaString) :
    matchItems (atItem ++ p) .none (c :: s) = none := by
  have hc : isWord c = false := by
    by_contra hw
    rw [Bool.not_eq_false] at hw
    rw [not_isSpace_of_isWord hw] at h
    cases h
  simp [atItem, captured, matchItems, hc]

theorem plain_open : Plain handleOpen :=
  plain_of_pattern openRe
    (fun args ret e h => by unfold handleOpen at h; split at h <;> cases h; rfl)
    (fun _ _ _ h => by rw [handleOpen, h, handleOpen])
    (fun _ _ h => by rw [handleOpen, h]) (by decide) fun _ _ h => start_quoted h _ _

theorem plain_openat : Plain handleOpenat :=
  plain_of_pattern openatRe
    (fun args ret e h => by unfold handleOpenat at h; split at h <;> cases h; rfl)
    (fun _ _ _ h => by rw [handleOpenat, h, handleOpenat])
    (fun _ _ h => by rw [handleOpenat, h]) (by decide) fun _ _ h => start_word h _ _

theorem plain_creat : Plain handleCreat :=
  plain_of_pattern quotedName
    (fun args ret e h => by unfold handleCreat at h; split at h <;> cases h; rfl)
    (fun _ _ _ h => by rw [handleCreat, h, handleCreat])
    (fun _ _ h => by rw [handleCreat, h]) (by decide) fun _ _ h => start_quoted h _ _

theorem plain_exec : Plain handleExec :=
  plain_of_pattern quotedName
    (fun args ret e h => by unfold handleExec at h; split at h <;> cases h; rfl)
    (fun _ _ _ h => by rw [handleExec, h, handleExec])
    (fun _ _ h => by rw [handleExec, h]) (by decide) fun _ _ h => start_quoted h _ _

theorem plain_chdir : Plain handleChdir :=
  plain_of_pattern quotedName
    (fun args ret e h => by unfold handleChdir at h; split at h <;> cases h; rfl)
    (fun _ _ _ h => by rw [handleChdir, h, handleChdir])
    (fun _ _ h => by rw [handleChdir, h]) (by decide) fun _ _ h => start_quoted h _ _

theorem plain_mkdir : Plain handleMkdir :=
  plain_of_pattern quotedName
    (fun args ret e h => by unfold handleMkdir at h; split at h <;> cases h; rfl)
    (fun _ _ _ h => by rw [handleMkdir, h, handleMkdir])
    (fun _ _ h => by rw [handleMkdir, h]) (by decide) fun _ _ h => start_quoted h _ _

theorem plain_mkdirat : Plain handleMkdirat :=
  plain_of_pattern mkdiratRe
    (fun args ret e h => by unfold handleMkdirat at h; split at h <;> cases h; rfl)
    (fun _ _ _ h => by rw [handleMkdirat, h, handleMkdirat])
    (fun _ _ h => by rw [handleMkdirat, h]) (by decide) fun _ _ h => start_word h _ _

theorem plain_rename : Plain handleRename :=
  plain_of_pattern renameRe
    (fun args ret e h => by unfold handleRename at h; split at h <;> cases h; rfl)
    (fun _ _ _ h => by rw [handleRename, h, handleRename])
    (fun _ _ h => by rw [handleRename, h]) (by decide) fun _ _ h => start_quoted h _ _

theorem plain_renameat : Plain handleRenameat :=
  plain_of_pattern renameatRe
    (fun args ret e h => by unfold handleRenameat at h; split at h <;> cases h; rfl)
    (fun _ _ _ h => by rw [handleRenameat, h, handleRenameat])
    (fun _ _ h => by rw [handleRenameat, h]) (by decide) fun _ _ h => start_word h _ _

/-- The calls that make a process. Their arguments are not read. -/
def isFork (sys : LuaString) : Bool := sys ∈ ["clone".toList, "vfork".toList, "fork".toList]

theorem handler_cases {sys : LuaString} {sh : LuaString → LuaString → Option Event}
    (h : syscallHandlers.lookup sys = some sh) :
    (isFork sys = true ∧ sh = handleFork) ∨
      (isFork sys = false ∧ sys = "fchdir".toList ∧ sh = handleFchdir) ∨
      (isFork sys = false ∧ sys ≠ "fchdir".toList ∧ Plain sh) := by
  have hmem : sys ∈ syscallHandlers.map (·.1) := mem_keys_of_lookup (by rw [h]; rfl)
  simp only [syscallHandlers, List.map_cons, List.map_nil, List.mem_cons, List.not_mem_nil,
    or_false] at hmem
  rcases hmem with rfl | rfl | rfl | rfl | rfl | rfl | rfl | rfl | rfl | rfl | rfl | rfl | rfl
  · cases h; exact Or.inr (Or.inr ⟨by decide, by decide, plain_open⟩)
  · cases h; exact Or.inr (Or.inr ⟨by decide, by decide, plain_openat⟩)
  · cases h; exact Or.inr (Or.inr ⟨by decide, by decide, plain_creat⟩)
  · cases h; exact Or.inr (Or.inr ⟨by decide, by decide, plain_exec⟩)
  · cases h; exact Or.inr (Or.inr ⟨by decide, by decide, plain_chdir⟩)
  · cases h; exact Or.inr (Or.inl ⟨by decide, rfl, rfl⟩)
  · cases h; exact Or.inr (Or.inr ⟨by decide, by decide, plain_mkdir⟩)
  · cases h; exact Or.inr (Or.inr ⟨by decide, by decide, plain_mkdirat⟩)
  · cases h; exact Or.inr (Or.inr ⟨by decide, by decide, plain_rename⟩)
  · cases h; exact Or.inr (Or.inr ⟨by decide, by decide, plain_renameat⟩)
  · cases h; exact Or.inl ⟨by decide, rfl⟩
  · cases h; exact Or.inl ⟨by decide, rfl⟩
  · cases h; exact Or.inl ⟨by decide, rfl⟩

/-- The number of an `fchdir` has a blank behind it in the first of two lines; and blanks in
    front of arguments, which no handler accepts, are dropped there. -/
def Lost (sys args ret : LuaString) : Prop :=
  (sys = "fchdir".toList ∧ args ≠ [] ∧ ∀ c ∈ args, c.isDigit = true) ∨
    (isFork sys = false ∧ sys ≠ "fchdir".toList ∧ Blank args ∧
      (CallLine.event ⟨[], sys, args.dropWhile isSpace, ret⟩).isSome)

theorem firstHalf_cases (args : LuaString) :
    firstHalf args = args.dropWhile isSpace ++ [' '] ∨
      (firstHalf args = [] ∧ args.dropWhile isSpace = []) := by
  unfold firstHalf
  rw [List.dropWhile_append]
  by_cases h : (args.dropWhile isSpace).isEmpty = true
  · rw [if_pos h]
    exact Or.inr ⟨rfl, List.isEmpty_iff.mp h⟩
  · rw [if_neg h]
    exact Or.inl rfl

theorem dropWhile_of_not_blank {args : LuaString} (h : ¬ Blank args) :
    args.dropWhile isSpace = args := by
  cases args with
  | nil => rfl
  | cons c s =>
      rw [List.dropWhile_cons_of_neg]
      exact fun hc => h ⟨c, rfl, hc⟩

/-- `fchdir` accepts a number. -/
theorem handleFchdir_digits {args : LuaString} (hne : args ≠ [])
    (h : ∀ c ∈ args, c.isDigit = true) (ret : LuaString) :
    handleFchdir args ret = some (.fchdir args) := by
  have hmatch := @match_captured_plus [.stop] (⟨[args], []⟩, []) [] [] Char.isDigit args [] hne h
    stops_nil rfl
  rw [List.append_nil] at hmatch
  rw [handleFchdir, match_, numberRe, show matchItems _ .none args = _ from hmatch]
  rfl

theorem digits_of_handleFchdir {args ret : LuaString} {e : Event}
    (h : handleFchdir args ret = some e) : args ≠ [] ∧ ∀ c ∈ args, c.isDigit = true := by
  constructor
  · rintro rfl
    cases h
  · cases hm : match_ numberRe args with
    | none =>
        rw [handleFchdir, hm] at h
        cases h
    | some l =>
        obtain ⟨r, hr, -⟩ := Option.map_eq_some_iff.mp hm
        change matchItems (.chars Char.isDigit .plus :: [.end_, .stop]) _ args = some r at hr
        obtain ⟨u, v, hargs, hu, hv⟩ := matchItems_chars_some hr
        cases v with
        | nil => rwa [hargs, List.append_nil]
        | cons c v => cases hv

/-- The number is lost. -/
theorem handleFchdir_firstHalf (args ret : LuaString) : handleFchdir (firstHalf args) ret = none := by
  have hnone : match_ numberRe (firstHalf args) = none := by
    by_contra hne
    obtain ⟨l, hl⟩ := Option.ne_none_iff_exists'.mp hne
    obtain ⟨r, hr, -⟩ := Option.map_eq_some_iff.mp hl
    obtain ⟨x, hx, hdigit⟩ := getLast_of_stop (p := []) hr
    rcases firstHalf_cases args with h | ⟨h, -⟩
    · rw [h, List.getLast?_concat, Option.mem_some_iff] at hx
      rw [← hx] at hdigit
      exact absurd hdigit (by decide)
    · rw [h] at hx
      cases hx
  rw [handleFchdir, hnone]

theorem Plain.firstHalf {sh : LuaString → LuaString → Option Event} (h : Plain sh)
    (args ret : LuaString) : sh (firstHalf args) ret = sh (args.dropWhile isSpace) ret := by
  rcases firstHalf_cases args with heq | ⟨heq, heq'⟩
  · rw [heq, h.behind]
  · rw [heq, heq']

/-- What reaches the handler in two pieces means the same, unless it is lost. -/
theorem event_firstHalf {sys : LuaString} (h : (syscallHandlers.lookup sys).isSome)
    (pid args ret : LuaString) :
    CallLine.event ⟨pid, sys, firstHalf args, ret⟩ = CallLine.event ⟨pid, sys, args, ret⟩ ↔
      ¬ Lost sys args ret := by
  obtain ⟨sh, hsh⟩ := Option.isSome_iff_exists.mp h
  have hevent : ∀ a, CallLine.event ⟨pid, sys, a, ret⟩ = sh a ret := fun a => by
    rw [CallLine.event, hsh, Option.bind_some]
  have hevent' : ∀ a, CallLine.event ⟨[], sys, a, ret⟩ = sh a ret := fun a => by
    rw [CallLine.event, hsh, Option.bind_some]
  rw [hevent, hevent, Lost, hevent']
  rcases handler_cases hsh with ⟨hfork, rfl⟩ | ⟨hfork, rfl, rfl⟩ | ⟨hfork, hne, hplain⟩
  · refine iff_of_true rfl ?_
    rintro (⟨rfl, -⟩ | ⟨hnot, -⟩)
    · exact absurd hfork (by decide)
    · rw [hfork] at hnot
      cases hnot
  · rw [handleFchdir_firstHalf]
    constructor
    · rintro heq (⟨-, hargs, hdigits⟩ | ⟨-, hne, -⟩)
      · rw [handleFchdir_digits hargs hdigits] at heq
        cases heq
      · exact hne rfl
    · intro hnot
      cases hargs : handleFchdir args ret with
      | none => rfl
      | some e => exact absurd (Or.inl ⟨rfl, digits_of_handleFchdir hargs⟩) hnot
  · rw [hplain.firstHalf]
    by_cases hb : Blank args
    · rw [hplain.blank args ret hb]
      constructor
      · rintro hnone (⟨heq, -⟩ | ⟨-, -, -, hsome⟩)
        · exact hne heq
        · rw [hnone] at hsome
          cases hsome
      · intro hnot
        cases hdrop : sh (args.dropWhile isSpace) ret with
        | none => rfl
        | some e => exact absurd (Or.inr ⟨hfork, hne, hb, by rw [hdrop]; rfl⟩) hnot
    · refine iff_of_true (by rw [dropWhile_of_not_blank hb]) ?_
      rintro (⟨heq, -⟩ | ⟨-, -, hb', -⟩)
      · exact hne heq
      · exact hb hb'

/-! ## Whole logs -/

/-- What `post_process` makes of a call. -/
def effect (c : CallLine) : Pid × Option Event := (c.pid, c.event)

theorem eventsOf_eq (l : List CallLine) :
    Strace.eventsOf l = (l.map effect).filterMap fun x => x.2.map fun e => (x.1, e) := by
  unfold Strace.eventsOf
  rw [List.filterMap_map]
  rfl

/-- Nothing but the effects of the calls counts. -/
theorem postProcess_congr {text text' : List LuaString}
    (h : (callsOf (fun _ _ => []) text).map effect = (callsOf (fun _ _ => []) text').map effect)
    (ape : Ape) (depth : Nat) (dir : LuaString) :
    postProcess ape depth dir text = postProcess ape depth dir text' := by
  have hfirst : ∀ text, Total.firstPid text =
      ((callsOf (fun _ _ => []) text).map effect).head?.map (·.1) := by
    intro text
    unfold Total.firstPid
    rw [List.head?_map, Option.map_map]
    rfl
  rw [Total.postProcess_strace, Total.postProcess_strace, hfirst, hfirst, h, Total.straceLog,
    Total.straceLog, eventsOf_eq, eventsOf_eq, h]

section Pieces

variable {pid sys args ret : LuaString} {mid : List LuaString}

/-- The unfinished calls after the line in the middle of which others were written. -/
theorem callsOf_pieces (h : IsCall pid sys ret) (old neg : Bool) {tail : LuaString}
    (hdigit : Stops Char.isDigit tail) (heq : '=' ∉ tail) (hmid : ∀ line ∈ mid, Other pid line)
    (t : Unfinished) (post : List LuaString) :
    callsOf t (unfinishedLine pid sys args ::
        (mid ++ resumedLine old pid sys (resultText neg ret tail) :: post)) =
      callsOf t mid ++ (if neg then [] else [⟨pid, sys, firstHalf args, ret⟩]) ++
        callsOf (tableAfter t mid) post := by
  have hpush : AgreeOff pid t (pushUnfinished t pid sys (firstHalf args)) := fun q hq =>
    (Function.update_of_ne hq _ _).symm
  obtain ⟨hcalls, hagree, hpid⟩ := lines_other hmid hpush
  obtain ⟨-, -, hpid'⟩ := lines_other hmid
    (fun q hq => (hpush q hq).symm : AgreeOff pid (pushUnfinished t pid sys (firstHalf args)) t)
  have htable : tableAfter (pushUnfinished t pid sys (firstHalf args)) mid pid =
      Function.update (tableAfter t mid pid) sys
        (tableAfter t mid pid sys ++ [firstHalf args]) := by
    rw [hpid', hpid]
    exact Function.update_self _ _ _
  rw [callsOf, takeLine_eq, kindOf_unfinished h]
  change callsOf (pushUnfinished t pid sys (firstHalf args)) _ = _
  rw [callsOf_append, ← hcalls, callsOf, takeLine_eq, kindOf_resumed h old neg hdigit heq,
    List.append_assoc]
  simp only [LineKind.take, pop_pushed hagree htable]
  cases neg with
  | true => rfl
  | false =>
      have hsign : ret.take 1 ≠ "-".toList := fun he =>
        absurd (h.ret_digits '-' (List.take_subset 1 ret (he ▸ List.mem_cons_self))) (by decide)
      have hret : (if false = true then "-".toList else []) ++ ret = ret := rfl
      rw [hret, if_pos hsign]
      rfl

theorem callsOf_complete (h : IsCall pid sys ret) (t : Unfinished) (post : List LuaString) :
    callsOf t (mid ++ completeLine pid sys args ret :: post) =
      callsOf t mid ++ [⟨pid, sys, args, ret⟩] ++ callsOf (tableAfter t mid) post := by
  rw [callsOf_append, callsOf, takeLine_eq, kindOf_complete h, List.append_assoc]
  rfl

/-- A call in two pieces, anywhere in a log. -/
theorem postProcess_pieces (h : IsCall pid sys ret) (old : Bool)
    (hmid : ∀ line ∈ mid, Other pid line) (hlost : ¬ Lost sys args ret) (ape : Ape) (depth : Nat)
    (dir : LuaString) (pre post : List LuaString) :
    postProcess ape depth dir (pre ++ unfinishedLine pid sys args ::
        (mid ++ resumedLine old pid sys ret :: post)) =
      postProcess ape depth dir (pre ++ (mid ++ completeLine pid sys args ret :: post)) := by
  refine postProcess_congr ?_ ape depth dir
  have hret : resultText false ret [] = ret := by simp [resultText]
  have hpieces := @callsOf_pieces pid sys args ret _ h old false [] stops_nil List.not_mem_nil hmid
    (tableAfter (fun _ _ => []) pre) post
  rw [hret] at hpieces
  rw [callsOf_append, callsOf_append, hpieces, callsOf_complete h]
  have heffect : effect ⟨pid, sys, firstHalf args, ret⟩ = effect ⟨pid, sys, args, ret⟩ :=
    Prod.ext rfl ((event_firstHalf h.handled pid args ret).mpr hlost)
  simp [heffect]

/-- A call in two pieces that fails. -/
theorem postProcess_failed (h : IsCall pid sys ret) (old : Bool) {tail : LuaString}
    (hdigit : Stops Char.isDigit tail) (heq : '=' ∉ tail) (hmid : ∀ line ∈ mid, Other pid line)
    (ape : Ape) (depth : Nat) (dir : LuaString) (pre post : List LuaString) :
    postProcess ape depth dir (pre ++ unfinishedLine pid sys args ::
        (mid ++ resumedLine old pid sys (resultText true ret tail) :: post)) =
      postProcess ape depth dir (pre ++ (mid ++ post)) := by
  refine postProcess_congr ?_ ape depth dir
  rw [callsOf_append, callsOf_append, callsOf_pieces h old true hdigit heq hmid, callsOf_append]
  simp

end Pieces

/-! ## Calls that are lost -/

/-- Every name has the key `k`, and no name is that of a program in the search path. -/
def probeApe : Ape where
  filepathGet := none
  filepathRoot _ := none
  filepathMerge _ _ := some ['k']
  basename p := 'x' :: p
  dirsep := '/'

@[simp] theorem getPath_probe (ccwd p : LuaString) : getPath probeApe ccwd p = some ['k'] := rfl

@[simp] theorem getPathat_probe (d : PData) (atfd name : LuaString) :
    getPathat probeApe d atfd name = some ['k'] := by
  unfold getPathat
  split <;> rfl

section Probe

variable {pid : Pid}

theorem touchOf_probe {d : PData} {e : Event} (h : shows e = true) :
    touchOf probeApe d e ∈ [.read ['k'], .write ['k'], .move (some ['k']) (some ['k'])] ∨
      ∃ name, e = .chdir name := by
  cases e with
  | fork c => cases h
  | fchdir fd => cases h
  | chdir name => exact Or.inr ⟨name, rfl⟩
  | open_ name dir fd => cases dir <;> simp [touchOf, Touch.ofOpen, Touch.ofRead, Touch.ofWrite]
  | openat atfd name dir fd =>
      cases dir <;> simp [touchOf, Touch.ofOpen, Touch.ofRead, Touch.ofWrite]
  | exec prog => simp [touchOf, probeApe, Touch.ofRead, getPath]
  | creat name fd => simp [touchOf, Touch.ofWrite]
  | mkdir name => simp [touchOf, Touch.ofWrite]
  | mkdirat atfd name => simp [touchOf, Touch.ofWrite]
  | rename src dst => simp [touchOf]
  | renameat atfd src atfd2 dst => simp [touchOf]

theorem touch_ne {t : Touch}
    (h : t ∈ [Touch.read ['k'], .write ['k'], .move (some ['k']) (some ['k'])]) :
    touch ⟨∅, ∅⟩ t ≠ ⟨∅, ∅⟩ := by
  have hk : (touch ⟨∅, ∅⟩ t).input.lookup ['k'] ≠ none ∨
      (touch ⟨∅, ∅⟩ t).output.lookup ['k'] ≠ none := by
    simp only [List.mem_cons, List.not_mem_nil, or_false] at h
    rcases h with rfl | rfl | rfl
    · exact Or.inl (by decide)
    · exact Or.inr (by decide)
    · exact Or.inr (by decide)
  intro he
  rw [he] at hk
  simp at hk

/-- Such an event changes the world that a trace starts in. -/
theorem body_probe {e : Event} (h : shows e = true) :
    body probeApe (World.start pid []) pid e ≠ .ok (World.start pid []) := by
  have hpd : (World.start pid []).pd pid = some ⟨[], fun _ => none⟩ := by simp [World.start]
  intro hb
  have hafter := eq_after_of_body_ok hpd hb
  rcases touchOf_probe (d := ⟨[], fun _ => none⟩) h with ht | ⟨name, rfl⟩
  · have htd := congrArg World.td hafter
    rw [after_td] at htd
    exact touch_ne ht htd.symm
  · have hpid := congrArg (fun w => (w.pd pid).map PData.cwd) hafter
    simp [hpd, after, Event.announces, nextData, PData.enter] at hpid

theorem run_step {ape : Ape} {s : State Pid Event World} {d : PData} {e : Event}
    (hd : s.world.pd pid = some d) (ha : e.announces = none) (hr : raisesOn ape d e = none)
    (depth : Nat) (log : List (Pid × Event)) :
    run (machine ape) depth s ((pid, e) :: log) =
      run (machine ape) depth { s with world := after ape s.world pid d e } log := by
  have hknown : (s.world.pd pid).isSome := Option.isSome_iff_exists.mpr ⟨d, hd⟩
  have hb : body ape s.world pid e = .ok (after ape s.world pid d e) := by
    rw [body_eq hd, hr]
  rw [run_cons, checked_of_known (m := machine ape) hknown,
    handle_of_not_announces (m := machine ape) hb ha]
  rfl

/-- A handler that changes the world changes the state. -/
theorem run_ne {ape : Ape} {s : State Pid Event World} {e : Event} {depth : Nat}
    (hknown : (s.world.pd pid).isSome) (ha : e.announces = none)
    (hb : body ape s.world pid e ≠ .ok s.world) :
    run (machine ape) depth s [(pid, e)] ≠ .ok s := by
  rw [run_cons, checked_of_known (m := machine ape) hknown]
  cases hbody : body ape s.world pid e with
  | error err =>
      have herr : handle (machine ape) depth s pid e = .error (.raised err) := by
        cases depth <;> simp only [handle, handleWith, machine, hbody]
      rw [herr]
      exact fun h => by cases h
  | ok w =>
      rw [handle_of_not_announces (m := machine ape) hbody ha depth]
      intro hs
      have hw : w = s.world := congrArg State.world (Except.ok.inj hs)
      exact hb (hw ▸ hbody)

theorem announces_of_shows {e : Event} (h : shows e = true) : e.announces = none := by
  cases e with
  | fork c => cases h
  | _ => rfl

/-- A log that starts with a call of `pid`. -/
theorem postProcess_of_calls {ape : Ape} {depth : Nat} {dir : LuaString} {text : List LuaString}
    {l : List CallLine} (hl : callsOf (fun _ _ => []) text = l)
    (hpid : l.head?.map CallLine.pid = some pid) :
    postProcess ape depth dir text =
      run (machine ape) depth (State.start (World.start pid dir)) (Strace.eventsOf l) := by
  have hfirst : Total.firstPid text = some pid := by
    rw [Total.firstPid, hl]
    exact hpid
  rw [Total.postProcess_strace, hfirst, Total.straceLog, hl]

theorem known_start (pid : Pid) (dir : LuaString) : ((World.start pid dir).pd pid).isSome := by
  simp [World.start]

/-- The process has opened a file with this number. -/
theorem run_fchdir_ne {fd : LuaString} (depth : Nat) :
    run (machine probeApe) depth (State.start (World.start pid []))
        [(pid, .open_ [] .input fd), (pid, .fchdir fd)] ≠
      run (machine probeApe) depth (State.start (World.start pid []))
        [(pid, .open_ [] .input fd)] := by
  have hpd : (World.start pid []).pd pid = some ⟨[], fun _ => none⟩ := by simp [World.start]
  have hafter : (after probeApe (World.start pid []) pid ⟨[], fun _ => none⟩
      (.open_ [] .input fd)).pd pid = some ⟨[], Function.update (fun _ => none) fd (some ['k'])⟩ := by
    simp [after, Event.announces, nextData, PData.setFd]
  have hopen : ∀ log, run (machine probeApe) depth (State.start (World.start pid []))
      ((pid, .open_ [] .input fd) :: log) = run (machine probeApe) depth
        { (State.start (World.start pid []) : State Pid Event World) with
          world := after probeApe (World.start pid []) pid ⟨[], fun _ => none⟩
            (.open_ [] .input fd) } log :=
    fun log => run_step hpd rfl rfl depth log
  rw [hopen, hopen]
  refine run_ne (Option.isSome_iff_exists.mpr ⟨_, hafter⟩) rfl fun hb => ?_
  have hcwd := congrArg (fun w => (w.pd pid).map PData.cwd) (eq_after_of_body_ok hafter hb)
  simp [after, Event.announces, nextData, PData.enter, PData.setFd] at hcwd

/-- The call in two lines at the end of a log, with nothing in between. -/
theorem callsOf_twoLines {sys args ret : LuaString} (h : IsCall pid sys ret) (old : Bool)
    (t : Unfinished) :
    callsOf t (unfinishedLine pid sys args :: ([] ++ resumedLine old pid sys ret :: [])) =
      [⟨pid, sys, firstHalf args, ret⟩] := by
  have hmid : ∀ line ∈ ([] : List LuaString), Other pid line := by simp
  have hpieces := @callsOf_pieces pid sys args ret _ h old false [] stops_nil List.not_mem_nil hmid
    t []
  have hret : resultText false ret [] = ret := by simp [resultText]
  rw [hret] at hpieces
  exact hpieces

/-- The descriptor of a lost `fchdir` has been opened before. -/
theorem postProcess_lost_fchdir {args ret : LuaString} (h : IsCall pid "fchdir".toList ret)
    (old : Bool) (hargs : args ≠ []) (hdigits : ∀ c ∈ args, c.isDigit = true) :
    ∃ pre, postProcess probeApe 0 [] (pre ++ unfinishedLine pid "fchdir".toList args ::
        ([] ++ resumedLine old pid "fchdir".toList ret :: [])) ≠
      postProcess probeApe 0 []
        (pre ++ ([] ++ completeLine pid "fchdir".toList args ret :: [])) := by
  have hopen : IsCall pid "open".toList args :=
    ⟨h.pid_ne, h.pid_digits, by decide, hargs, hdigits⟩
  have hpre : callsOf (fun _ _ => []) [completeLine pid "open".toList "\"\",O".toList args] =
      [⟨pid, "open".toList, "\"\",O".toList, args⟩] := by
    rw [callsOf, takeLine_eq, kindOf_complete hopen]
    rfl
  refine ⟨[completeLine pid "open".toList "\"\",O".toList args], ?_⟩
  have hopened : CallLine.event ⟨pid, "open".toList, "\"\",O".toList, args⟩ =
      some (.open_ [] .input args) := rfl
  have hnone : CallLine.event ⟨pid, "fchdir".toList, firstHalf args, ret⟩ = none :=
    handleFchdir_firstHalf args ret
  have hsome : CallLine.event ⟨pid, "fchdir".toList, args, ret⟩ = some (.fchdir args) :=
    handleFchdir_digits hargs hdigits ret
  have hevents : Strace.eventsOf [⟨pid, "open".toList, "\"\",O".toList, args⟩,
      ⟨pid, "fchdir".toList, firstHalf args, ret⟩] = [(pid, .open_ [] .input args)] := by
    simp only [Strace.eventsOf, List.filterMap_cons, List.filterMap_nil, hopened, hnone,
      Option.map_some, Option.map_none]
  have hevents' : Strace.eventsOf [⟨pid, "open".toList, "\"\",O".toList, args⟩,
      ⟨pid, "fchdir".toList, args, ret⟩] =
        [(pid, .open_ [] .input args), (pid, .fchdir args)] := by
    simp only [Strace.eventsOf, List.filterMap_cons, List.filterMap_nil, hopened, hsome,
      Option.map_some]
  have hleft : callsOf (fun _ _ => []) ([completeLine pid "open".toList "\"\",O".toList args] ++
      unfinishedLine pid "fchdir".toList args ::
        ([] ++ resumedLine old pid "fchdir".toList ret :: [])) =
      [⟨pid, "open".toList, "\"\",O".toList, args⟩,
        ⟨pid, "fchdir".toList, firstHalf args, ret⟩] := by
    rw [callsOf_append, hpre, callsOf_twoLines h]
    rfl
  have hright : callsOf (fun _ _ => []) ([completeLine pid "open".toList "\"\",O".toList args] ++
      ([] ++ completeLine pid "fchdir".toList args ret :: [])) =
      [⟨pid, "open".toList, "\"\",O".toList, args⟩, ⟨pid, "fchdir".toList, args, ret⟩] := by
    rw [callsOf_append, hpre, callsOf_complete h]
    rfl
  rw [postProcess_of_calls hleft rfl, postProcess_of_calls hright rfl, hevents, hevents']
  exact (run_fchdir_ne 0).symm

/-- The other handlers only lose a call whose arguments are blank; alone in a log it shows. -/
theorem postProcess_lost_blank {sys args ret : LuaString} (h : IsCall pid sys ret) (old : Bool)
    (hfork : isFork sys = false) (hne : sys ≠ "fchdir".toList) (hblank : Blank args)
    (hsome : (CallLine.event ⟨[], sys, args.dropWhile isSpace, ret⟩).isSome) :
    postProcess probeApe 0 [] ([] ++ unfinishedLine pid sys args ::
        ([] ++ resumedLine old pid sys ret :: [])) ≠
      postProcess probeApe 0 [] ([] ++ ([] ++ completeLine pid sys args ret :: [])) := by
  obtain ⟨sh, hsh⟩ := Option.isSome_iff_exists.mp h.handled
  have hevent : ∀ p a, CallLine.event ⟨p, sys, a, ret⟩ = sh a ret := fun p a => by
    rw [CallLine.event, hsh, Option.bind_some]
  have hplain : Plain sh := by
    rcases handler_cases hsh with ⟨hfork', -⟩ | ⟨-, heq, -⟩ | ⟨-, -, hplain⟩
    · rw [hfork] at hfork'
      cases hfork'
    · exact absurd heq hne
    · exact hplain
  rw [hevent, ← hplain.firstHalf] at hsome
  obtain ⟨e, he⟩ := Option.isSome_iff_exists.mp hsome
  have hshows := hplain.shows _ _ _ he
  have hleft := @callsOf_twoLines pid sys args ret h old fun _ _ => []
  have hright : callsOf (fun _ _ => []) ([] ++ ([] ++ completeLine pid sys args ret :: [])) =
      [⟨pid, sys, args, ret⟩] := @callsOf_complete pid sys args ret [] h (fun _ _ => []) []
  have hevents : Strace.eventsOf [⟨pid, sys, firstHalf args, ret⟩] = [(pid, e)] := by
    simp only [Strace.eventsOf, List.filterMap_cons, List.filterMap_nil, hevent, he,
      Option.map_some]
  have hevents' : Strace.eventsOf [⟨pid, sys, args, ret⟩] = [] := by
    simp only [Strace.eventsOf, List.filterMap_cons, List.filterMap_nil, hevent,
      hplain.blank args ret hblank, Option.map_none]
  rw [List.nil_append, postProcess_of_calls hleft rfl, postProcess_of_calls hright rfl, hevents,
    hevents']
  exact run_ne (known_start pid []) (announces_of_shows hshows) (body_probe hshows)

/-- A call that is lost: one log in which it is missed. -/
theorem postProcess_lost {sys args ret : LuaString} (h : IsCall pid sys ret) (old : Bool)
    (hlost : Lost sys args ret) :
    ∃ pre, postProcess probeApe 0 [] (pre ++ unfinishedLine pid sys args ::
        ([] ++ resumedLine old pid sys ret :: [])) ≠
      postProcess probeApe 0 [] (pre ++ ([] ++ completeLine pid sys args ret :: [])) := by
  rcases hlost with ⟨rfl, hargs, hdigits⟩ | ⟨hfork, hne, hblank, hsome⟩
  · exact postProcess_lost_fchdir h old hargs hdigits
  · exact ⟨[], postProcess_lost_blank h old hfork hne hblank hsome⟩

end Probe

/-- **Split lines.** A call in two pieces gives what the whole line gives at the place of the
    second, in every log, unless it is `Lost`; one that fails gives nothing. -/
theorem split_iff {pid sys ret : LuaString} (h : IsCall pid sys ret) (args : LuaString)
    (old : Bool) :
    ((∀ (ape : Ape) (depth : Nat) (dir : LuaString) (pre mid post : List LuaString),
        (∀ line ∈ mid, Other pid line) →
        postProcess ape depth dir (pre ++ unfinishedLine pid sys args ::
            (mid ++ resumedLine old pid sys ret :: post)) =
          postProcess ape depth dir (pre ++ (mid ++ completeLine pid sys args ret :: post))) ↔
      ¬ Lost sys args ret) ∧
    ∀ (tail : LuaString), Stops Char.isDigit tail → '=' ∉ tail →
      ∀ (ape : Ape) (depth : Nat) (dir : LuaString) (pre mid post : List LuaString),
        (∀ line ∈ mid, Other pid line) →
        postProcess ape depth dir (pre ++ unfinishedLine pid sys args ::
            (mid ++ resumedLine old pid sys (resultText true ret tail) :: post)) =
          postProcess ape depth dir (pre ++ (mid ++ post)) := by
  refine ⟨⟨fun heq hlost => ?_, fun hlost ape depth dir pre mid post hmid => ?_⟩,
    fun tail hdigit htail ape depth dir pre mid post hmid => ?_⟩
  · obtain ⟨pre, hne⟩ := postProcess_lost h old hlost
    exact hne (heq probeApe 0 [] pre [] [] (by simp))
  · exact postProcess_pieces h old hmid hlost ape depth dir pre post
  · exact postProcess_failed h old hdigit htail hmid ape depth dir pre post

/-- `mkdir( "d" )`, with a line of another process in the middle. -/
theorem split_iff_mkdir :
    postProcess (Apr.unixApe "/p".toList) 3 ".".toList
        [unfinishedLine "7".toList "mkdir".toList "\"\\x64\", 0777".toList,
          completeLine "8".toList "chdir".toList "\"\\x65\"".toList "0".toList,
          resumedLine false "7".toList "mkdir".toList "0".toList] =
      postProcess (Apr.unixApe "/p".toList) 3 ".".toList
        [completeLine "8".toList "chdir".toList "\"\\x65\"".toList "0".toList,
          completeLine "7".toList "mkdir".toList "\"\\x64\", 0777".toList "0".toList] := by
  have hcall : IsCall "7".toList "mkdir".toList "0".toList :=
    isCall_of_check (by decide)
  have hother : IsCall "8".toList "chdir".toList "0".toList :=
    isCall_of_check (by decide)
  have hnot : ¬ Lost "mkdir".toList "\"\\x64\", 0777".toList "0".toList := by
    rintro (⟨hfchdir, -⟩ | ⟨-, -, ⟨c, hc, hspace⟩, -⟩)
    · exact absurd hfchdir (by decide)
    · cases hc
      exact absurd hspace (by decide)
  refine (split_iff hcall "\"\\x64\", 0777".toList false).1.mpr hnot _ 3 _ []
    [completeLine "8".toList "chdir".toList "\"\\x65\"".toList "0".toList] [] ?_
  intro line hline
  rw [List.mem_singleton.mp hline, Other, kindOf_complete hother]
  decide

/-- The outputs that a trace ends with. -/
def outputsOf : Except (Fault LuaError) (State Pid Event World) → List LuaString
  | .ok s => s.world.td.output.keys
  | .error _ => []

/-- A process that enters `s` through its descriptor writes `s/f`, not `f`. -/
theorem fchdir_lost :
    IsCall "7".toList "fchdir".toList "0".toList ∧
      outputsOf (postProcess (Apr.unixApe "/p".toList) 3 ".".toList
        [completeLine "7".toList "open".toList "\"\\x73\", O_RDONLY".toList "3".toList,
          unfinishedLine "7".toList "fchdir".toList "3".toList,
          resumedLine false "7".toList "fchdir".toList "0".toList,
          completeLine "7".toList "open".toList "\"\\x66\", O_WRONLY".toList "4".toList]) =
        ["./f".toList] ∧
      outputsOf (postProcess (Apr.unixApe "/p".toList) 3 ".".toList
        [completeLine "7".toList "open".toList "\"\\x73\", O_RDONLY".toList "3".toList,
          completeLine "7".toList "fchdir".toList "3".toList "0".toList,
          completeLine "7".toList "open".toList "\"\\x66\", O_WRONLY".toList "4".toList]) =
        ["./s/f".toList] := by
  refine ⟨isCall_of_check (by decide), ?_, ?_⟩
  · decide +kernel
  · decide +kernel

end Buildsh.Split
