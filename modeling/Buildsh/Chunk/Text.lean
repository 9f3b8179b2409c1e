/-
  Texts that are read in pieces.

  `addquoted` is the quoting of `string.format` with `%q`; `readString_quoted` reads it back, and
  `readString_cut` shows that a quoted string that is cut is an error. An `Atom` is a piece of text
  that gives its tokens whatever follows it. `lexAll_atoms` says which tokens a text made of atoms
  has, and `lexAll_cut` what becomes of them when the text is cut somewhere (`Cut`): the tokens
  end too early, with the end of the text, with an error, or with the beginning of a word.
-/
import Mathlib
import Buildsh.Chunk.Lex

namespace Buildsh.Chunk
open Buildsh.Commands (isSpace)

/-! ## Quoted strings -/

/-- What `addquoted` makes of one character. -/
def quoteChar (c : Char) : LuaString :=
  if c = '"' ∨ c = '\\' ∨ c = '\n' then ['\\', c]
  else if c = '\r' then ['\\', 'r']
  else if c = '\x00' then ['\\', '0', '0', '0']
  else [c]

/-- `%q` -/
def addquoted (s : LuaString) : LuaString := '"' :: s.flatMap quoteChar ++ ['"']

/-- An error that Lua reports. -/
def LoadError.Real (e : LoadError) : Prop := e ≠ .outside

/-- The text does not go on with the second half of a line break. -/
def NoReturn (u : LuaString) : Prop := u.head? ≠ some '\r'

theorem noReturn_cons {c : Char} (h : c ≠ '\r') (u : LuaString) : NoReturn (c :: u) := by
  simp [NoReturn, h]

theorem noReturn_nil : NoReturn [] := by simp [NoReturn]

theorem skipPair_newline {u : LuaString} (h : NoReturn u) : skipPair '\n' u = u := by
  cases u with
  | nil => rfl
  | cons c u =>
      have hc : c ≠ '\r' := by simpa [NoReturn] using h
      have hno : ¬ (isNewline c = true ∧ c ≠ '\n') := by simp [isNewline, hc]
      rw [skipPair, if_neg hno]

theorem inclinenumber_newline {line : Nat} {u : LuaString} (h : NoReturn u) :
    inclinenumber line '\n' u =
      if MAX_INT ≤ line + 1 then .error .tooManyLines else .ok (line + 1, u) := by
  rw [inclinenumber, skipPair_newline h]

theorem readDecimal_zeros (u : LuaString) : readDecimal 3 0 ('0' :: '0' :: '0' :: u) = (0, u) :=
  rfl

/-- A quoted character is read back. -/
theorem readString_quoteChar (n line : Nat) (acc : LuaString) (c : Char) {u : LuaString}
    (h : NoReturn u) :
    readString '"' (n + 1) line acc (quoteChar c ++ u) =
      if c = '\n' ∧ MAX_INT ≤ line + 1 then .error .tooManyLines
      else readString '"' n (if c = '\n' then line + 1 else line) (acc ++ [c]) u := by
  by_cases hq : c = '"'
  · subst hq; rfl
  by_cases hb : c = '\\'
  · subst hb; rfl
  by_cases hn : c = '\n'
  · subst hn
    have hinc : inclinenumber line '\n' u =
      if MAX_INT ≤ line + 1 then .error .tooManyLines else .ok (line + 1, u) :=
        inclinenumber_newline h
    by_cases hmax : MAX_INT ≤ line + 1
    · rw [if_pos hmax] at hinc
      simp [quoteChar, readString, escapeOf, isNewline, hinc, hmax]
    · rw [if_neg hmax] at hinc
      simp [quoteChar, readString, escapeOf, isNewline, hinc, hmax]
  by_cases hr : c = '\r'
  · subst hr; simp [quoteChar, readString, escapeOf, isNewline]
  by_cases h0 : c = '\x00'
  · subst h0
    simp [quoteChar, readString, escapeOf, isNewline, readDecimal_zeros]
  · simp [quoteChar, readString, isNewline, hq, hb, hn, hr, h0]

theorem noReturn_quoted (s : LuaString) {v : LuaString} (hv : NoReturn v) :
    NoReturn (s.flatMap quoteChar ++ v) := by
  cases s with
  | nil => exact hv
  | cons c s =>
      have hc : NoReturn (quoteChar c) ∧ quoteChar c ≠ [] := by
        unfold quoteChar
        split
        · exact ⟨noReturn_cons (by decide) _, by simp⟩
        · split
          · exact ⟨noReturn_cons (by decide) _, by simp⟩
          · split
            · exact ⟨noReturn_cons (by decide) _, by simp⟩
            · exact ⟨noReturn_cons (by assumption) _, by simp⟩
      unfold NoReturn at hc ⊢
      rw [List.flatMap_cons, List.append_assoc, List.head?_append_of_ne_nil _ hc.2]
      exact hc.1

/-- The line breaks in a text. -/
def newlines (s : LuaString) : Nat := s.count '\n'

theorem newlines_cons (c : Char) (s : LuaString) :
    newlines (c :: s) = (if c = '\n' then 1 else 0) + newlines s := by
  unfold newlines
  rw [List.count_cons]
  by_cases h : c = '\n'
  · simp [h, Nat.add_comm]
  · simp [h]

/-- One character of a quoted string. -/
theorem readString_round (s : LuaString) (n line : Nat) (acc v : LuaString) (c : Char) :
    readString '"' (n + 1) line acc ((c :: s).flatMap quoteChar ++ '"' :: v) =
      if c = '\n' ∧ MAX_INT ≤ line + 1 then .error .tooManyLines
      else readString '"' n (if c = '\n' then line + 1 else line) (acc ++ [c])
        (s.flatMap quoteChar ++ '"' :: v) := by
  have hu : NoReturn (s.flatMap quoteChar ++ '"' :: v) :=
    noReturn_quoted s (noReturn_cons (by decide) v)
  rw [List.flatMap_cons, List.append_assoc, readString_quoteChar n line acc c hu]

/-- **Quoted strings.** A quoted string is read back. -/
theorem readString_quoted (s : LuaString) {n line : Nat} (acc v : LuaString)
    (hn : s.length < n) (hline : line + newlines s < MAX_INT) :
    readString '"' n line acc (s.flatMap quoteChar ++ '"' :: v) =
      .ok (acc ++ s, line + newlines s, v) := by
  induction s generalizing n line acc with
  | nil =>
      cases n with
      | zero => cases hn
      | succ n => simp [readString, newlines]
  | cons c s ih =>
      cases n with
      | zero => cases hn
      | succ n =>
          have hn' : s.length < n := by simpa using hn
          rw [newlines_cons] at hline
          rw [readString_round, newlines_cons]
          by_cases hc : c = '\n'
          · rw [if_pos hc] at hline
            rw [if_neg (by omega), if_pos hc, ih _ hn' (by omega), if_pos hc]
            simp [Nat.add_assoc]
          · rw [if_neg hc] at hline
            rw [if_neg (fun h => hc h.1), if_neg hc, ih _ hn' (by omega), if_neg hc]
            simp

theorem readString_tooManyLines (s : LuaString) {n line : Nat} (acc v : LuaString)
    (hn : s.length < n) (hline : line < MAX_INT) (hmax : MAX_INT ≤ line + newlines s) :
    readString '"' n line acc (s.flatMap quoteChar ++ '"' :: v) = .error .tooManyLines := by
  induction s generalizing n line acc with
  | nil =>
      simp only [newlines, List.count_nil] at hmax
      omega
  | cons c s ih =>
      cases n with
      | zero => cases hn
      | succ n =>
          have hn' : s.length < n := by simpa using hn
          rw [newlines_cons] at hmax
          rw [readString_round]
          by_cases hc : c = '\n'
          · rw [if_pos hc] at hmax
            by_cases hstep : MAX_INT ≤ line + 1
            · rw [if_pos ⟨hc, hstep⟩]
            · rw [if_neg (fun h => hstep h.2), if_pos hc, ih _ hn' (by omega) (by omega)]
          · rw [if_neg hc] at hmax
            rw [if_neg (fun h => hc h.1), if_neg hc, ih _ hn' hline (by omega)]

theorem isPre_append_cases {α : Type} {p a b : List α} (h : p <+: a ++ b) :
    (p <+: a ∧ p ≠ a) ∨ ∃ p', p = a ++ p' ∧ p' <+: b := by
  induction a generalizing p with
  | nil => exact Or.inr ⟨p, rfl, h⟩
  | cons x a ih =>
      cases p with
      | nil => exact Or.inl ⟨List.nil_prefix, by simp⟩
      | cons y p =>
          rw [List.cons_append, List.cons_prefix_cons] at h
          obtain ⟨rfl, h⟩ := h
          rcases ih h with ⟨hp, hne⟩ | ⟨p', rfl, hp'⟩
          · exact Or.inl ⟨List.cons_prefix_cons.mpr ⟨rfl, hp⟩, by simpa using hne⟩
          · exact Or.inr ⟨p', rfl, hp'⟩

/-- A quoted character that is cut. -/
theorem readString_quoteChar_cut (n line : Nat) (acc : LuaString) {c : Char} {p : LuaString}
    (hp : p <+: quoteChar c) (hne : p ≠ quoteChar c) :
    readString '"' (n + 2) line acc p = .error .unfinishedString := by
  have hnil : ∀ acc, readString '"' (n + 2) line acc [] = .error .unfinishedString := fun _ => rfl
  have hback : readString '"' (n + 2) line acc ['\\'] = .error .unfinishedString := rfl
  have hlead : quoteChar c = [c] ∨ (∃ x, quoteChar c = ['\\', x]) ∨
      quoteChar c = ['\\', '0', '0', '0'] := by
    unfold quoteChar
    split
    · exact Or.inr (Or.inl ⟨_, rfl⟩)
    · split
      · exact Or.inr (Or.inl ⟨_, rfl⟩)
      · split
        · exact Or.inr (Or.inr rfl)
        · exact Or.inl rfl
  rw [← List.mem_inits] at hp
  rcases hlead with h | ⟨x, h⟩ | h
  · rw [h] at hp hne
    rcases (by simpa using hp : p = [] ∨ p = [c]) with rfl | rfl
    exacts [hnil acc, absurd rfl hne]
  · rw [h] at hp hne
    rcases (by simpa using hp : p = [] ∨ p = ['\\'] ∨ p = ['\\', x]) with rfl | rfl | rfl
    exacts [hnil acc, hback, absurd rfl hne]
  · rw [h] at hp hne
    rcases (by simpa using hp : p = [] ∨ p = ['\\'] ∨ p = ['\\', '0'] ∨ p = ['\\', '0', '0'] ∨
      p = ['\\', '0', '0', '0']) with rfl | rfl | rfl | rfl | rfl
    exacts [hnil acc, hback, rfl, rfl, absurd rfl hne]

theorem noReturn_of_isPre {p u : LuaString} (h : p <+: u) (hu : NoReturn u) : NoReturn p := by
  cases p with
  | nil => exact noReturn_nil
  | cons c p =>
      obtain ⟨t, rfl⟩ := h
      exact hu

theorem quoteChar_length_pos (c : Char) : 0 < (quoteChar c).length := by
  unfold quoteChar
  split
  · simp
  · split
    · simp
    · split <;> simp

/-- A quoted string that is cut. -/
theorem readString_cut (s : LuaString) {n line : Nat} (acc : LuaString) {p : LuaString}
    (hn : p.length < n) (hp : p <+: s.flatMap quoteChar) :
    ∃ e : LoadError, e.Real ∧ readString '"' n line acc p = .error e := by
  induction s generalizing n line acc p with
  | nil =>
      obtain ⟨n, rfl⟩ : ∃ m, n = m + 1 := ⟨n - 1, by omega⟩
      rw [List.prefix_nil.mp hp]
      exact ⟨.unfinishedString, by simp [LoadError.Real], rfl⟩
  | cons c s ih =>
      by_cases hnil : p = []
      · obtain ⟨n, rfl⟩ : ∃ m, n = m + 1 := ⟨n - 1, by omega⟩
        rw [hnil]
        exact ⟨.unfinishedString, by simp [LoadError.Real], rfl⟩
      obtain ⟨n, rfl⟩ : ∃ m, n = m + 2 := by
        have := List.length_pos_iff.mpr hnil
        exact ⟨n - 2, by omega⟩
      rcases isPre_append_cases hp with ⟨hpc, hne⟩ | ⟨q, rfl, hq⟩
      · exact ⟨.unfinishedString, by simp [LoadError.Real],
          readString_quoteChar_cut n line acc hpc hne⟩
      · have hu : NoReturn q := by
          have hs : NoReturn (s.flatMap quoteChar ++ []) := noReturn_quoted s noReturn_nil
          rw [List.append_nil] at hs
          exact noReturn_of_isPre hq hs
        have hlen : q.length < n + 1 := by
          have := quoteChar_length_pos c
          rw [List.length_append] at hn
          omega
        rw [readString_quoteChar (n + 1) line acc c hu]
        split
        · exact ⟨.tooManyLines, by simp [LoadError.Real], rfl⟩
        · exact ih _ hlen hq

/-! ## Atoms -/

/-- A piece of text that is read by itself. -/
inductive Atom where
  | blank
  | newline
  | sole (c : Char)
  /-- with a blank behind it -/
  | spaced (c : Char)
  /-- with a blank behind it -/
  | word (w : LuaString)
  | quoted (s : LuaString)

namespace Atom

def text : Atom → LuaString
  | blank => [' ']
  | newline => ['\n']
  | sole c => [c]
  | spaced c => [c, ' ']
  | word w => w ++ [' ']
  | quoted s => addquoted s

def toks : Atom → List Token
  | blank | newline => []
  | sole c | spaced c => [.char c]
  | word w => [wordToken w]
  | quoted s => [.string s]

def lines : Atom → Nat
  | newline => 1
  | quoted s => newlines s
  | _ => 0

/-- The characters and words of the texts that are read here. -/
def Ok : Atom → Prop
  | sole c => c ∈ ['{', '}', ']', ',']
  | spaced c => c ∈ ['[', '=']
  | word w => w ∈ ["return".toList, "input".toList, "output".toList]
  | _ => True

end Atom

section Atoms

variable {n line : Nat} {v : LuaString}

theorem lexAll_blank : lexAll n line (' ' :: v) = lexAll n line v := by
  cases n <;> rfl

theorem llex_newline (hv : NoReturn v) :
    llex (n + 1) line ('\n' :: v) =
      if MAX_INT ≤ line + 1 then .error .tooManyLines else llex n (line + 1) v := by
  have hinc : inclinenumber line '\n' v =
      if MAX_INT ≤ line + 1 then .error .tooManyLines else .ok (line + 1, v) :=
    inclinenumber_newline hv
  have hnl : isNewline '\n' = true := rfl
  rw [llex, if_pos hnl, hinc]
  by_cases hmax : MAX_INT ≤ line + 1
  · rw [if_pos hmax, if_pos hmax]
  · rw [if_neg hmax, if_neg hmax]

theorem lexAll_newline (hv : NoReturn v) (hline : line + 1 < MAX_INT) :
    lexAll n line ('\n' :: v) = lexAll n (line + 1) v := by
  cases n with
  | zero => rfl
  | succ n => rw [lexAll, lexAll, List.length_cons, llex_newline hv, if_neg (by omega)]

/-- A token in front of a text. -/
theorem lexAll_token {s : LuaString} {t : Token} {line' : Nat} (ht : t ≠ .eos)
    (h : llex (s.length + 1) line s = .ok (t, line', v)) :
    lexAll (n + 1) line s = .tok t :: lexAll n line' v := by
  rw [lexAll, h]
  simp [ht]

theorem llex_sole {c : Char} (hc : c ∈ ['{', '}', ']', ',']) :
    llex (n + 1) line (c :: v) = .ok (.char c, line, v) := by
  simp only [List.mem_cons, List.not_mem_nil, or_false] at hc
  rcases hc with rfl | rfl | rfl | rfl <;> rfl

theorem llex_spaced {c : Char} (hc : c ∈ ['[', '=']) :
    llex (n + 1) line (c :: ' ' :: v) = .ok (.char c, line, ' ' :: v) := by
  simp only [List.mem_cons, List.not_mem_nil, or_false] at hc
  rcases hc with rfl | rfl <;> rfl

theorem llex_quote {u : LuaString} :
    llex (n + 1) line ('"' :: u) =
      match readString '"' (u.length + 1) line [] u with
      | .error err => .error err
      | .ok (str, line, s) => .ok (.string str, line, s) := rfl

theorem length_quoted (s : LuaString) : s.length ≤ (s.flatMap quoteChar).length := by
  induction s with
  | nil => exact Nat.le_refl 0
  | cons c s ih =>
      have hpos : 0 < (quoteChar c).length := quoteChar_length_pos c
      rw [List.flatMap_cons, List.length_append, List.length_cons]
      omega

theorem addquoted_append (s v : LuaString) :
    addquoted s ++ v = '"' :: (s.flatMap quoteChar ++ '"' :: v) := by
  simp [addquoted]

theorem llex_quoted {s : LuaString} (hline : line + newlines s < MAX_INT) :
    llex (n + 1) line (addquoted s ++ v) = .ok (.string s, line + newlines s, v) := by
  have hlen : s.length < (s.flatMap quoteChar ++ '"' :: v).length + 1 := by
    have := length_quoted s
    rw [List.length_append]
    omega
  rw [addquoted_append, llex_quote, readString_quoted s [] v hlen hline]
  rfl

theorem llex_quoted_tooManyLines {s : LuaString} (hline : line < MAX_INT)
    (hmax : MAX_INT ≤ line + newlines s) :
    llex (n + 1) line (addquoted s ++ v) = .error .tooManyLines := by
  have hlen : s.length < (s.flatMap quoteChar ++ '"' :: v).length + 1 := by
    have := length_quoted s
    rw [List.length_append]
    omega
  rw [addquoted_append, llex_quote, readString_tooManyLines s [] v hlen hline hmax]

theorem llex_word {w : LuaString} (hw : w ∈ ["return".toList, "input".toList, "output".toList]) :
    llex (n + 1) line (w ++ ' ' :: v) = .ok (wordToken w, line, ' ' :: v) := by
  simp only [List.mem_cons, List.not_mem_nil, or_false] at hw
  rcases hw with rfl | rfl | rfl <;> rfl

theorem wordToken_ne_eos (w : LuaString) : wordToken w ≠ .eos := by
  unfold wordToken
  split <;> simp

/-- The tokens of an atom, whatever follows it. -/
theorem lexAll_atom {a : Atom} (ha : a.Ok) (hv : NoReturn v) (hn : (a.text ++ v).length < n)
    (hline : line + a.lines < MAX_INT) :
    lexAll n line (a.text ++ v) =
      a.toks.map .tok ++ lexAll (n - a.toks.length) (line + a.lines) v := by
  obtain ⟨n, rfl⟩ : ∃ m, n = m + 1 := ⟨n - 1, by omega⟩
  cases a with
  | blank => exact lexAll_blank
  | newline => exact lexAll_newline hv hline
  | sole c => exact lexAll_token (by simp) (llex_sole ha)
  | spaced c =>
      exact (lexAll_token (by simp) (llex_spaced ha)).trans (congrArg _ lexAll_blank)
  | word w =>
      have h : lexAll (n + 1) line (w ++ ' ' :: v) = .tok (wordToken w) :: lexAll n line (' ' :: v) :=
        lexAll_token (wordToken_ne_eos w) (llex_word ha)
      rw [lexAll_blank] at h
      simpa [Atom.text, Atom.toks, Atom.lines] using h
  | quoted s => exact lexAll_token (by simp) (llex_quoted hline)

theorem lexAll_atom_tooManyLines {a : Atom} (hv : NoReturn v) (hn : (a.text ++ v).length < n)
    (hline : line < MAX_INT) (hmax : MAX_INT ≤ line + a.lines) :
    lexAll n line (a.text ++ v) = [.bad .tooManyLines] := by
  obtain ⟨n, rfl⟩ : ∃ m, n = m + 1 := ⟨n - 1, by omega⟩
  cases a with
  | newline =>
      have hmax' : MAX_INT ≤ line + 1 := hmax
      change lexAll (n + 1) line ('\n' :: v) = _
      rw [lexAll, List.length_cons, llex_newline hv, if_pos hmax']
  | quoted s =>
      change lexAll (n + 1) line (addquoted s ++ v) = _
      rw [lexAll, llex_quoted_tooManyLines hline hmax]
  | _ =>
      simp only [Atom.lines] at hmax
      omega

end Atoms

/-! ## Texts made of atoms -/

def textOf (l : List Atom) : LuaString := l.flatMap Atom.text

def toksOf (l : List Atom) : List Token := l.flatMap Atom.toks

def linesOf (l : List Atom) : Nat := (l.map Atom.lines).sum

/-- The tokens of a text that is cut: `s` breaks off within the tokens `l`. -/
inductive Cut : List Token → List Lexed → Prop
  | eos {t : Token} {l : List Token} (ht : t ≠ .eos) : Cut (t :: l) [.tok .eos]
  | bad {t : Token} {l : List Token} {e : LoadError} (he : e.Real) : Cut (t :: l) [.bad e]
  /-- within a word -/
  | word {w w' : LuaString} {l : List Token} (hp : w' <+: w) (hnil : w' ≠ []) (hne : w' ≠ w)
      (hw : w ∈ ["return".toList, "input".toList, "output".toList]) :
      Cut (wordToken w :: l) [.tok (wordToken w'), .tok .eos]
  | cons {t : Token} {l : List Token} {s : List Lexed} (h : Cut l s) : Cut (t :: l) (.tok t :: s)

theorem Cut.append {l : List Token} {s : List Lexed} (h : Cut l s) (ts : List Token) :
    Cut (ts ++ l) (ts.map .tok ++ s) := by
  induction ts with
  | nil => exact h
  | cons t ts ih => exact .cons ih

/-- Where the tokens of `a ++ b` break off. -/
theorem cut_append {a b : List Token} {s : List Lexed} (h : Cut (a ++ b) s) :
    Cut a s ∨ ∃ s', s = a.map .tok ++ s' ∧ Cut b s' := by
  induction a generalizing s with
  | nil => exact Or.inr ⟨s, rfl, h⟩
  | cons t a ih =>
      cases h with
      | eos ht => exact Or.inl (.eos ht)
      | bad he => exact Or.inl (.bad he)
      | word hp hnil hne hw => exact Or.inl (.word hp hnil hne hw)
      | cons h =>
          rcases ih h with ha | ⟨s', rfl, hb⟩
          · exact Or.inl (.cons ha)
          · exact Or.inr ⟨s', rfl, hb⟩

section Texts

variable {n line : Nat} {p : LuaString}

/-- All the tokens, or those up to a cut. -/
def WholeOrCut (l : List Token) (s : List Lexed) : Prop :=
  s = (l ++ [Token.eos]).map .tok ∨ Cut (l ++ [Token.eos]) s

theorem WholeOrCut.append {l : List Token} {s : List Lexed} (h : WholeOrCut l s)
    (ts : List Token) : WholeOrCut (ts ++ l) (ts.map .tok ++ s) := by
  rcases h with rfl | h
  · exact Or.inl (by simp)
  · refine Or.inr ?_
    rw [List.append_assoc]
    exact h.append ts

theorem toks_ne_eos {a : Atom} : ∀ t ∈ a.toks, t ≠ .eos := by
  cases a <;> simp [Atom.toks, wordToken_ne_eos]

theorem wholeOrCut_eos {l : List Token} (h : ∀ t ∈ l, t ≠ .eos) : WholeOrCut l [.tok .eos] := by
  cases l with
  | nil => exact Or.inl rfl
  | cons t l => exact Or.inr (.eos (h t List.mem_cons_self))

theorem wholeOrCut_bad (l : List Token) {e : LoadError} (he : e.Real) :
    WholeOrCut l [.bad e] := by
  refine Or.inr ?_
  cases l with
  | nil => exact .bad he
  | cons t l => exact .bad he

theorem lexAll_nil : lexAll (n + 1) line [] = [.tok .eos] := rfl

theorem llex_wordChars {c : Char} {q : LuaString} (hc : c ∈ ['r', 'i', 'o'])
    (hq : ∀ x ∈ q, isWordChar x = true) :
    llex (n + 1) line (c :: q) = .ok (wordToken (c :: q), line, []) := by
  have htake : q.takeWhile isWordChar = q := List.takeWhile_eq_self_iff.mpr hq
  have hdrop : q.dropWhile isWordChar = [] := List.dropWhile_eq_nil_iff.mpr hq
  have hlex : llex (n + 1) line (c :: q) =
      .ok (wordToken (c :: q.takeWhile isWordChar), line, q.dropWhile isWordChar) := by
    simp only [List.mem_cons, List.not_mem_nil, or_false] at hc
    rcases hc with rfl | rfl | rfl <;> rfl
  rw [hlex, htake, hdrop]

/-- The beginning of a word. -/
theorem lexAll_word_cut {w : LuaString}
    (hw : w ∈ ["return".toList, "input".toList, "output".toList]) (hp : p <+: w) (hnil : p ≠ []) :
    lexAll (n + 2) line p = [.tok (wordToken p), .tok .eos] := by
  have hchars : ∀ w ∈ ["return".toList, "input".toList, "output".toList],
      w.headI ∈ ['r', 'i', 'o'] ∧ w.all isWordChar = true := by decide +kernel
  obtain ⟨hhead, hall⟩ := hchars w hw
  rw [List.all_eq_true] at hall
  obtain ⟨t, rfl⟩ := hp
  cases p with
  | nil => exact absurd rfl hnil
  | cons c q =>
      have hc : c ∈ ['r', 'i', 'o'] := hhead
      have hq : ∀ x ∈ q, isWordChar x = true := fun x hx => hall x (by simp [hx])
      rw [lexAll_token (wordToken_ne_eos _) (llex_wordChars hc hq), lexAll_nil]

/-- A quoted string without its end. -/
theorem lexAll_unfinished {s : LuaString} (hp : p <+: s.flatMap quoteChar) :
    ∃ e : LoadError, e.Real ∧ lexAll (n + 1) line ('"' :: p) = [.bad e] := by
  obtain ⟨e, he, hread⟩ : ∃ e : LoadError, e.Real ∧
      readString '"' (p.length + 1) line [] p = .error e :=
    readString_cut s [] (Nat.lt_succ_self p.length) hp
  refine ⟨e, he, ?_⟩
  rw [lexAll, llex_quote, hread]

theorem lexAll_spaced_cut {c : Char} (hc : c ∈ ['[', '=']) :
    lexAll (n + 2) line [c] = [.tok (.char c), .tok .eos] := by
  simp only [List.mem_cons, List.not_mem_nil, or_false] at hc
  rcases hc with rfl | rfl <;> rfl

/-- An atom that is cut. -/
theorem lexAll_atom_cut {a : Atom} (ha : a.Ok) (hn : p.length < n) (hp : p <+: a.text)
    (hne : p ≠ a.text) {l : List Token} (hl : ∀ t ∈ l, t ≠ .eos) :
    WholeOrCut (a.toks ++ l) (lexAll n line p) := by
  by_cases hnil : p = []
  · obtain ⟨n, rfl⟩ : ∃ m, n = m + 1 := ⟨n - 1, by omega⟩
    rw [hnil, lexAll_nil]
    exact wholeOrCut_eos fun t ht => (List.mem_append.mp ht).elim (toks_ne_eos t) (hl t)
  obtain ⟨n, rfl⟩ : ∃ m, n = m + 2 := by
    have := List.length_pos_iff.mpr hnil
    exact ⟨n - 2, by omega⟩
  cases a with
  | blank | newline | sole c =>
      rcases List.prefix_cons_iff.mp hp with rfl | ⟨t, rfl, ht⟩
      · exact absurd rfl hnil
      · rw [List.prefix_nil.mp ht] at hne
        exact absurd rfl hne
  | spaced c =>
      rcases List.prefix_cons_iff.mp hp with rfl | ⟨t, rfl, ht⟩
      · exact absurd rfl hnil
      · rcases List.prefix_cons_iff.mp ht with rfl | ⟨t', rfl, ht'⟩
        · rw [lexAll_spaced_cut ha]
          exact (wholeOrCut_eos hl).append [.char c]
        · rw [List.prefix_nil.mp ht'] at hne
          exact absurd rfl hne
  | word w =>
      rcases isPre_append_cases hp with ⟨hw, hnew⟩ | ⟨q, rfl, hq⟩
      · rw [lexAll_word_cut ha hw hnil]
        exact Or.inr (.word hw hnil hnew ha)
      · rcases List.prefix_cons_iff.mp hq with rfl | ⟨t, rfl, ht⟩
        · rw [List.append_nil] at hnil ⊢
          rw [lexAll_word_cut ha (List.prefix_refl w) hnil]
          exact (wholeOrCut_eos hl).append [wordToken w]
        · rw [List.prefix_nil.mp ht] at hne
          exact absurd rfl hne
  | quoted s =>
      rcases List.prefix_cons_iff.mp hp with rfl | ⟨q, rfl, hq⟩
      · exact absurd rfl hnil
      · have hpre : q <+: s.flatMap quoteChar := by
          rcases isPre_append_cases hq with ⟨hq, -⟩ | ⟨q', rfl, hq'⟩
          · exact hq
          · rcases List.prefix_cons_iff.mp hq' with rfl | ⟨t, rfl, ht⟩
            · simp
            · rw [List.prefix_nil.mp ht] at hne
              exact absurd rfl hne
        obtain ⟨e, he, hlex⟩ := lexAll_unfinished (n := n + 1) hpre
        rw [hlex]
        exact wholeOrCut_bad _ he

theorem noReturn_textOf {l : List Atom} (hl : ∀ a ∈ l, a.Ok) : NoReturn (textOf l) := by
  cases l with
  | nil => exact noReturn_nil
  | cons a l =>
      have ha : a.Ok := hl a List.mem_cons_self
      cases a with
      | blank | newline | quoted s => exact noReturn_cons (by decide) _
      | sole c =>
          refine noReturn_cons (fun hc => ?_) _
          subst hc
          simp [Atom.Ok] at ha
      | spaced c =>
          refine noReturn_cons (fun hc => ?_) _
          subst hc
          simp [Atom.Ok] at ha
      | word w =>
          simp only [Atom.Ok, List.mem_cons, List.not_mem_nil, or_false] at ha
          rcases ha with rfl | rfl | rfl <;> exact noReturn_cons (by decide) _

theorem toksOf_ne_eos (l : List Atom) : ∀ t ∈ toksOf l, t ≠ .eos := by
  intro t ht
  obtain ⟨a, -, ha⟩ := List.mem_flatMap.mp ht
  exact toks_ne_eos t ha

theorem length_toks_le (a : Atom) : a.toks.length ≤ a.text.length := by
  cases a <;> simp [Atom.toks, Atom.text, addquoted]

theorem lines_cons (a : Atom) (l : List Atom) : linesOf (a :: l) = a.lines + linesOf l := by
  simp [linesOf]

/-- The steps that are left behind an atom. -/
theorem length_lt_of_atom {a : Atom} (hn : (a.text ++ p).length < n) :
    p.length < n - a.toks.length := by
  have := length_toks_le a
  rw [List.length_append] at hn
  omega

/-- **Whole texts.** -/
theorem lexAll_atoms {l : List Atom} (hl : ∀ a ∈ l, a.Ok) (hn : (textOf l).length < n)
    (hline : line + linesOf l < MAX_INT) :
    lexAll n line (textOf l) = (toksOf l ++ [Token.eos]).map .tok := by
  induction l generalizing n line with
  | nil =>
      obtain ⟨n, rfl⟩ : ∃ m, n = m + 1 := ⟨n - 1, by omega⟩
      rfl
  | cons a l ih =>
      obtain ⟨ha, hl⟩ := List.forall_mem_cons.mp hl
      rw [lines_cons] at hline
      have hrest : lexAll (n - a.toks.length) (line + a.lines) (textOf l) = _ :=
        ih hl (length_lt_of_atom hn) (by omega)
      change lexAll n line (a.text ++ textOf l) = ((a.toks ++ toksOf l) ++ [Token.eos]).map .tok
      rw [lexAll_atom ha (noReturn_textOf hl) hn (by omega), hrest]
      simp

/-- **Cut texts.** -/
theorem lexAll_cut {l : List Atom} (hl : ∀ a ∈ l, a.Ok) (hn : p.length < n)
    (hline : line < MAX_INT) (hp : p <+: textOf l) :
    WholeOrCut (toksOf l) (lexAll n line p) := by
  induction l generalizing n line p with
  | nil =>
      obtain ⟨n, rfl⟩ : ∃ m, n = m + 1 := ⟨n - 1, by omega⟩
      rw [List.prefix_nil.mp hp]
      exact Or.inl rfl
  | cons a l ih =>
      obtain ⟨ha, hl⟩ := List.forall_mem_cons.mp hl
      rcases isPre_append_cases hp with ⟨hpa, hne⟩ | ⟨q, rfl, hq⟩
      · exact lexAll_atom_cut ha hn hpa hne (toksOf_ne_eos l)
      · have hv : NoReturn q := noReturn_of_isPre hq (noReturn_textOf hl)
        by_cases hmax : line + a.lines < MAX_INT
        · rw [lexAll_atom ha hv hn hmax]
          exact (ih hl (length_lt_of_atom hn) hmax hq).append a.toks
        · rw [lexAll_atom_tooManyLines hv hn hline (by omega)]
          exact wholeOrCut_bad _ (by simp [LoadError.Real])

/-- A text with too many lines breaks off, too. -/
theorem lexAll_tooManyLines {l : List Atom} (hl : ∀ a ∈ l, a.Ok) (hn : (textOf l).length < n)
    (hline : line < MAX_INT) (hmax : MAX_INT ≤ line + linesOf l) :
    Cut (toksOf l ++ [Token.eos]) (lexAll n line (textOf l)) := by
  induction l generalizing n line with
  | nil =>
      simp only [linesOf, List.map_nil, List.sum_nil] at hmax
      omega
  | cons a l ih =>
      obtain ⟨ha, hl⟩ := List.forall_mem_cons.mp hl
      rw [lines_cons] at hmax
      have hv : NoReturn (textOf l) := noReturn_textOf hl
      change Cut ((a.toks ++ toksOf l) ++ [Token.eos]) (lexAll n line (a.text ++ textOf l))
      rw [List.append_assoc]
      by_cases hstep : line + a.lines < MAX_INT
      · rw [lexAll_atom ha hv hn hstep]
        exact (ih hl (length_lt_of_atom hn) hstep (by omega)).append a.toks
      · rw [lexAll_atom_tooManyLines hv hn hline (by omega)]
        cases htoks : a.toks ++ (toksOf l ++ [Token.eos]) with
        | nil => simp at htoks
        | cons t ts => exact .bad (by simp [LoadError.Real])

end Texts

end Buildsh.Chunk
