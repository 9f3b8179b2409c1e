/-
  `argv2cmd` of `build.lua`: the command line that `make.run` prints, and under which it stores
  and looks up the dependencies of a command.

  A word with a blank, a quote or a backslash in it is quoted. Inside the quotes, quotes and
  backslashes get a backslash, tab and newline become blanks and CR is dropped. A directory comes
  first, as the words of `cd dir &&`. `same_command_iff`: on Unix two commands share their line
  exactly when their words agree one by one, up to what is lost inside the quotes (`Alike`).
-/
import Buildsh.Lua
import Mathlib.Data.List.Forall2

namespace Buildsh.Commands

/-! ## The command line -/

/-- `%s` in a pattern, in the C locale. -/
def isSpace (c : Char) : Bool := c ∈ [' ', '\t', '\n', '\x0b', '\x0c', '\r']

/-- The characters that `a2c_pattern` matches. -/
def a2cPattern (dirsep c : Char) : Bool := isSpace c ∨ c = '"' ∨ (dirsep ≠ '\\' ∧ c = '\\')

/-- `a2c_repl`, as `gsub` applies it: a match that is not in the table stays. -/
def a2cRepl (c : Char) : LuaString :=
  if c = '\\' then ['\\', '\\']
  else if c = '"' then ['\\', '"']
  else if c = '\t' then [' ']
  else if c = '\n' then [' ']
  else if c = '\r' then []
  else [c]

/-- `a:match( a2c_pattern )` -/
def needsQuotes (dirsep : Char) (a : LuaString) : Bool := a.any (a2cPattern dirsep)

/-- `a:gsub( a2c_pattern, a2c_repl )` -/
def replaced (dirsep : Char) (a : LuaString) : LuaString :=
  a.flatMap fun c => if a2cPattern dirsep c then a2cRepl c else [c]

def quoted (dirsep : Char) (a : LuaString) : LuaString :=
  if needsQuotes dirsep a then '"' :: replaced dirsep a ++ ['"'] else a

/-- The loop over `argv`. -/
def appendArgs (dirsep : Char) (s : LuaString) : List LuaString → LuaString
  | [] => s
  | [a] => s ++ quoted dirsep a
  | a :: b :: argv => appendArgs dirsep (s ++ quoted dirsep a ++ [' ']) (b :: argv)

def argv2cmd (dirsep : Char) (argv : List LuaString) (dir : Option LuaString) : LuaString :=
  let s := match dir with
    | none => []
    | some dir => "cd ".toList ++ quoted dirsep dir ++ " && ".toList
  appendArgs dirsep s argv

/-! ## The words of a command -/

/-- The words of the line: the arguments, after those that change the directory. -/
def words (argv : List LuaString) : Option LuaString → List LuaString
  | none => argv
  | some dir => "cd".toList :: dir :: "&&".toList :: argv

/-- The rest of a line, each word with a blank in front. -/
def restOfLine (dirsep : Char) (ws : List LuaString) : LuaString :=
  ws.flatMap fun w => ' ' :: quoted dirsep w

theorem restOfLine_cons (dirsep : Char) (w : LuaString) (ws : List LuaString) :
    restOfLine dirsep (w :: ws) = ' ' :: (quoted dirsep w ++ restOfLine dirsep ws) := by
  simp [restOfLine]

theorem appendArgs_cons (dirsep : Char) (s a : LuaString) (argv : List LuaString) :
    appendArgs dirsep s (a :: argv) = s ++ quoted dirsep a ++ restOfLine dirsep argv := by
  induction argv generalizing s a with
  | nil => simp [appendArgs, restOfLine]
  | cons b argv ih =>
      rw [appendArgs, ih, restOfLine_cons]
      simp

theorem quoted_of_not {dirsep : Char} {a : LuaString} (h : needsQuotes dirsep a = false) :
    quoted dirsep a = a := by
  unfold quoted
  rw [h]
  rfl

theorem quoted_of_needs {dirsep : Char} {a : LuaString} (h : needsQuotes dirsep a = true) :
    quoted dirsep a = '"' :: replaced dirsep a ++ ['"'] := by
  unfold quoted
  rw [if_pos h]

/-- The line is its words, with blanks between them. -/
theorem argv2cmd_eq (argv : List LuaString) (hne : argv ≠ []) (dir : Option LuaString) :
    ∃ w ws, words argv dir = w :: ws ∧
      argv2cmd '/' argv dir = quoted '/' w ++ restOfLine '/' ws := by
  obtain ⟨a, argv, rfl⟩ := List.exists_cons_of_ne_nil hne
  cases dir with
  | none => exact ⟨a, argv, rfl, by simp [argv2cmd, appendArgs_cons]⟩
  | some dir =>
      refine ⟨_, _, rfl, ?_⟩
      have hcd : quoted '/' "cd".toList = "cd".toList := by decide
      have hand : quoted '/' "&&".toList = "&&".toList := by decide
      rw [argv2cmd, appendArgs_cons, restOfLine_cons, restOfLine_cons, restOfLine_cons, hcd, hand]
      simp

/-! ## What the quotes keep -/

/-- What is left of a word inside quotes. -/
def blanked (a : LuaString) : LuaString :=
  a.flatMap fun c => if c = '\t' ∨ c = '\n' then [' '] else if c = '\r' then [] else [c]

/-- A quote or backslash gets a backslash. -/
def escaped (c : Char) : LuaString := if c = '"' ∨ c = '\\' then ['\\', c] else [c]

/-- Two words that look alike on the line. -/
def Alike (a b : LuaString) : Prop :=
  needsQuotes '/' a = needsQuotes '/' b ∧ blanked a = blanked b

theorem replaced_eq (a : LuaString) : replaced '/' a = (blanked a).flatMap escaped := by
  unfold replaced blanked
  rw [List.flatMap_assoc]
  congr 1
  funext c
  unfold a2cRepl a2cPattern escaped isSpace
  by_cases hb : c = '\\'
  · subst hb; decide
  · by_cases hq : c = '"'
    · subst hq; decide
    · by_cases ht : c = '\t'
      · subst ht; decide
      · by_cases hn : c = '\n'
        · subst hn; decide
        · by_cases hr : c = '\r'
          · subst hr; decide
          · simp [hb, hq, ht, hn, hr]

/-- Nothing is lost of a word that needs no quotes. -/
theorem blanked_of_not {a : LuaString} (h : needsQuotes '/' a = false) : blanked a = a := by
  unfold needsQuotes at h
  unfold blanked
  rw [List.any_eq_false] at h
  conv => rhs; rw [← List.flatMap_singleton' a]
  refine List.flatMap_congr fun c hc => ?_
  have hpat := h c hc
  have ht : c ≠ '\t' := by rintro rfl; exact hpat (by decide)
  have hn : c ≠ '\n' := by rintro rfl; exact hpat (by decide)
  have hr : c ≠ '\r' := by rintro rfl; exact hpat (by decide)
  simp [ht, hn, hr]

theorem quoted_congr {a b : LuaString} (h : Alike a b) : quoted '/' a = quoted '/' b := by
  obtain ⟨hq, hb⟩ := h
  cases ha : needsQuotes '/' a with
  | true =>
      rw [quoted_of_needs ha, quoted_of_needs (hq ▸ ha), replaced_eq, replaced_eq, hb]
  | false =>
      have hb' : needsQuotes '/' b = false := hq ▸ ha
      rw [quoted_of_not ha, quoted_of_not hb', ← blanked_of_not ha, hb, blanked_of_not hb']

/-! ## Reading a line back -/

/-- `s` cannot continue a word. -/
def Stops (s : LuaString) : Prop := ∀ c ∈ s.head?, c = ' '

theorem stops_restOfLine (dirsep : Char) (ws : List LuaString) :
    Stops (restOfLine dirsep ws) := by
  intro c hc
  cases ws with
  | nil => simp [restOfLine] at hc
  | cons w ws =>
      rw [restOfLine_cons, List.head?_cons, Option.mem_some_iff] at hc
      exact hc.symm

/-- The first quote without a backslash ends the word. -/
theorem escaped_append_inj {x y s t : LuaString}
    (h : x.flatMap escaped ++ '"' :: s = y.flatMap escaped ++ '"' :: t) : x = y ∧ s = t := by
  induction x generalizing y with
  | nil =>
      cases y with
      | nil => simpa using h
      | cons d y =>
          exfalso
          unfold escaped at h
          by_cases hd : d = '"' ∨ d = '\\'
          · simp [hd] at h
          · simp only [List.flatMap_nil, List.nil_append, List.flatMap_cons, if_neg hd,
              List.cons_append, List.cons.injEq] at h
            exact hd (Or.inl h.1.symm)
  | cons c x ih =>
      cases y with
      | nil =>
          exfalso
          unfold escaped at h
          by_cases hc : c = '"' ∨ c = '\\'
          · simp [hc] at h
          · simp only [List.flatMap_nil, List.nil_append, List.flatMap_cons, if_neg hc,
              List.cons_append, List.cons.injEq] at h
            exact hc (Or.inl h.1)
      | cons d y =>
          rw [List.flatMap_cons, List.flatMap_cons, List.append_assoc, List.append_assoc] at h
          have hcd : c = d ∧
              x.flatMap escaped ++ '"' :: s = y.flatMap escaped ++ '"' :: t := by
            generalize x.flatMap escaped ++ '"' :: s = u at h
            generalize y.flatMap escaped ++ '"' :: t = v at h
            unfold escaped at h
            by_cases hc : c = '"' ∨ c = '\\' <;> by_cases hd : d = '"' ∨ d = '\\'
            · simpa [hc, hd] using h
            · simp only [if_pos hc, if_neg hd, List.cons_append, List.cons.injEq] at h
              exact absurd (Or.inr h.1.symm) hd
            · simp only [if_neg hc, if_pos hd, List.cons_append, List.cons.injEq] at h
              exact absurd (Or.inr h.1) hc
            · simpa [hc, hd] using h
          obtain ⟨rfl, hrest⟩ := hcd
          obtain ⟨rfl, hst⟩ := ih hrest
          exact ⟨rfl, hst⟩

/-- Without quotes the first blank ends the word. -/
theorem plain_append_inj {a b s t : LuaString} (ha : ' ' ∉ a) (hb : ' ' ∉ b) (hs : Stops s)
    (ht : Stops t) (h : a ++ s = b ++ t) : a = b ∧ s = t := by
  induction a generalizing b with
  | nil =>
      cases b with
      | nil => exact ⟨rfl, h⟩
      | cons d b =>
          have hd : d = ' ' := hs d (by rw [List.nil_append] at h; rw [h]; rfl)
          exact absurd List.mem_cons_self (hd ▸ hb)
  | cons c a ih =>
      cases b with
      | nil =>
          have hc : c = ' ' := ht c (by rw [List.nil_append] at h; rw [← h]; rfl)
          exact absurd List.mem_cons_self (hc ▸ ha)
      | cons d b =>
          rw [List.cons_append, List.cons_append, List.cons.injEq] at h
          obtain ⟨rfl, h⟩ := h
          obtain ⟨rfl, hst⟩ := ih (fun hm => ha (List.mem_cons_of_mem _ hm))
            (fun hm => hb (List.mem_cons_of_mem _ hm)) h
          exact ⟨rfl, hst⟩

theorem not_mem_of_not_needs {a : LuaString} (h : needsQuotes '/' a = false) {c : Char}
    (hc : a2cPattern '/' c = true) : c ∉ a := by
  intro hm
  unfold needsQuotes at h
  rw [List.any_eq_false] at h
  exact h c hm hc

/-- A quoted word does not read like one without quotes. -/
theorem quote_ne_plain {b s t : LuaString} (hb : needsQuotes '/' b = false) (ht : Stops t) :
    '"' :: s ≠ b ++ t := by
  intro h
  cases b with
  | nil =>
      have hq : '"' = ' ' := ht '"' (by rw [List.nil_append] at h; rw [← h]; rfl)
      exact absurd hq (by decide)
  | cons c b =>
      rw [List.cons_append, List.cons.injEq] at h
      exact not_mem_of_not_needs hb (c := '"') (by decide) (h.1 ▸ List.mem_cons_self)

/-- **One word.** -/
theorem quoted_append_inj {a b s t : LuaString} (hs : Stops s) (ht : Stops t)
    (h : quoted '/' a ++ s = quoted '/' b ++ t) : Alike a b ∧ s = t := by
  cases ha : needsQuotes '/' a with
  | true =>
      rw [quoted_of_needs ha] at h
      cases hb : needsQuotes '/' b with
      | true =>
          rw [quoted_of_needs hb, replaced_eq, replaced_eq] at h
          simp only [List.cons_append, List.append_assoc, List.nil_append, List.cons.injEq,
            true_and] at h
          obtain ⟨hab, hst⟩ := escaped_append_inj h
          exact ⟨⟨ha.trans hb.symm, hab⟩, hst⟩
      | false =>
          rw [quoted_of_not hb, List.cons_append, List.cons_append] at h
          exact absurd h (quote_ne_plain hb ht)
  | false =>
      rw [quoted_of_not ha] at h
      cases hb : needsQuotes '/' b with
      | true =>
          rw [quoted_of_needs hb, List.cons_append, List.cons_append] at h
          exact absurd h.symm (quote_ne_plain ha hs)
      | false =>
          rw [quoted_of_not hb] at h
          obtain ⟨rfl, hst⟩ := plain_append_inj (not_mem_of_not_needs ha (by decide))
            (not_mem_of_not_needs hb (by decide)) hs ht h
          exact ⟨⟨rfl, rfl⟩, hst⟩

theorem restOfLine_inj {ws ws' : List LuaString} (h : restOfLine '/' ws = restOfLine '/' ws') :
    List.Forall₂ Alike ws ws' := by
  induction ws generalizing ws' with
  | nil =>
      cases ws' with
      | nil => exact .nil
      | cons w' ws' => simp [restOfLine] at h
  | cons w ws ih =>
      cases ws' with
      | nil => simp [restOfLine] at h
      | cons w' ws' =>
          rw [restOfLine_cons, restOfLine_cons, List.cons.injEq] at h
          obtain ⟨hw, hws⟩ := quoted_append_inj (stops_restOfLine _ _) (stops_restOfLine _ _) h.2
          exact .cons hw (ih hws)

theorem restOfLine_congr {ws ws' : List LuaString} (h : List.Forall₂ Alike ws ws') :
    restOfLine '/' ws = restOfLine '/' ws' := by
  induction h with
  | nil => rfl
  | cons hw _ ih => rw [restOfLine_cons, restOfLine_cons, quoted_congr hw, ih]

/-- **Equal command lines.** -/
theorem same_command_iff (argv argv' : List LuaString) (dir dir' : Option LuaString)
    (h : argv ≠ []) (h' : argv' ≠ []) :
    argv2cmd '/' argv dir = argv2cmd '/' argv' dir' ↔
      List.Forall₂ Alike (words argv dir) (words argv' dir') := by
  obtain ⟨w, ws, hw, heq⟩ := argv2cmd_eq argv h dir
  obtain ⟨w', ws', hw', heq'⟩ := argv2cmd_eq argv' h' dir'
  rw [hw, hw', heq, heq', List.forall₂_cons]
  constructor
  · intro hline
    obtain ⟨hww, hrest⟩ := quoted_append_inj (stops_restOfLine _ _) (stops_restOfLine _ _) hline
    exact ⟨hww, restOfLine_inj hrest⟩
  · rintro ⟨hww, hrest⟩
    rw [quoted_congr hww, restOfLine_congr hrest]

theorem same_command_cd :
    argv2cmd '/' ["make".toList, "a\tb".toList] (some "sub".toList) =
        argv2cmd '/' ["cd".toList, "sub".toList, "&&".toList, "make".toList, "a b".toList] none ↔
      List.Forall₂ Alike (words ["make".toList, "a\tb".toList] (some "sub".toList))
        (words ["cd".toList, "sub".toList, "&&".toList, "make".toList, "a b".toList] none) :=
  same_command_iff _ _ _ _ (by decide) (by decide)

/-- A tab reads like a blank. -/
theorem command_not_injective :
    ¬ ∀ (argv argv' : List LuaString) (dir dir' : Option LuaString), argv ≠ [] → argv' ≠ [] →
        argv2cmd '/' argv dir = argv2cmd '/' argv' dir' → argv = argv' ∧ dir = dir' := by
  intro h
  have hline : argv2cmd '/' ["echo".toList, "a\tb".toList] none =
      argv2cmd '/' ["echo".toList, "a b".toList] none := by decide
  obtain ⟨hargv, -⟩ := h _ _ _ _ (by decide) (by decide) hline
  exact absurd hargv (by decide)

end Buildsh.Commands
