/-
  The texts of the patterns in the scripts.

  The list `patterns` has the texts of `preload.lua`, `strace.lua` and `ktrace.lua`, each with the
  items of its model; `patterns_match` is `string.match` on them. `hex2name_strGsub` is `hex2name`
  of `base.lua`, `quoted_patterns` the quoting of `build.lua`.
-/
import Buildsh.PatternTexts
import Buildsh.Ktrace
import Buildsh.PreloadLog
import Buildsh.Driver

namespace Buildsh.PatternTexts
open Buildsh.Generic Buildsh.Generic.Pattern Buildsh.Matching Buildsh.Patterns Buildsh.Commands

/-! ## The patterns of the scripts -/

section Scripts

theorem item_escape (times : Times) :
    Tok.item (.chars ['[', '\\', 'x', '%', 'x', ']'] times) = .chars isEscape times := by
  have h : ∀ c, singlematch c ['[', '\\', 'x', '%', 'x', ']'] [] = isEscape c := by
    intro c
    change (decide ('\\' = c) || (decide ('x' = c) || (isHex c || false))) = _
    simp [isEscape, @eq_comm _ _ c]
  rw [Tok.item, funext h]

theorem item_word (times : Times) :
    Tok.item (.chars ['[', '%', 'w', '_', ']'] times) = .chars isWord times := by
  have h : ∀ c, singlematch c ['[', '%', 'w', '_', ']'] [] = isWord c := by
    intro c
    change (c.isAlphanum || (decide ('_' = c) || false)) = _
    simp [isWord, @eq_comm _ _ c]
  rw [Tok.item, funext h]

theorem item_flag (times : Times) :
    Tok.item (.chars ['[', '%', 'u', '_', '|', ']'] times) =
      .chars (fun c => c.isUpper ∨ c = '_' ∨ c = '|') times := by
  have h : ∀ c, singlematch c ['[', '%', 'u', '_', '|', ']'] [] =
      decide (c.isUpper ∨ c = '_' ∨ c = '|') := by
    intro c
    change (c.isUpper || (decide ('_' = c) || (decide ('|' = c) || false))) = _
    simp [@eq_comm _ _ c]
  rw [Tok.item, funext h]

/-- A character that stands for itself. -/
theorem item_char {x : Char} (hx : x ∉ ['.', '%', '[']) (times : Times) :
    Tok.item (.chars [x] times) = .chars (fun c => c = x) times := by
  simp only [List.mem_cons, List.not_mem_nil, or_false, not_or] at hx
  obtain ⟨hany, hesc, hset⟩ := hx
  have h : ∀ c, singlematch c [x] [] = decide (c = x) := by
    intro c
    rw [singlematch_plain hesc hset, decide_eq_false hany, Bool.false_or]
    simp [eq_comm]
  rw [Tok.item, funext h]

theorem item_escaped {x : Char} (hx : x.toLower ∉ "acdlpsuwxz".toList) (times : Times) :
    Tok.item (.chars ['%', x] times) = .chars (fun c => c = x) times := by
  have hclass : ∀ c, matchClass c x = decide (x = c) := by
    intro c
    unfold matchClass
    simp only
    split <;> first | rfl | (rename_i h; rw [h] at hx; exact absurd (by decide) hx)
  have h : ∀ c, singlematch c ['%', x] [] = decide (c = x) := by
    intro c
    rw [show singlematch c ['%', x] [] = matchClass c x from rfl, hclass]
    simp [eq_comm]
  rw [Tok.item, funext h]

/-- A captured repetition of a class. -/
def group (cls : String) (times : Times) : List Tok := [.begin_, .chars cls.toList times, .end_]

/-- Characters that stand for themselves. -/
def plain (s : String) : List Tok := s.toList.map fun c => .chars [c] .one

def escaped (c : Char) : Tok := .chars ['%', c] .one

/-- `%s*` -/
def space : Tok := .chars "%s".toList .star

/-- `%s+` -/
def gap : Tok := .chars "%s".toList .plus

def name : List Tok := group "[\\x%x]" .star

def number : List Tok := group "%d" .plus

def word : List Tok := group "[%w_]" .plus

def flags : List Tok := group "[%u_|]" .plus

def quoted : List Tok := plain "\"" ++ name ++ plain "\""

def comma : List Tok := plain "," ++ [space]

/-- `(%-?%d+)` -/
def signed : List Tok := [.begin_, .chars "%-".toList .opt, .chars "%d".toList .plus, .end_]

/-- `.+` or `.-` -/
def anything (times : Times) : Tok := .chars ".".toList times

/-- `%x+` -/
def digits : Tok := .chars "%x".toList .plus

/-- The text of a pattern in a script, how it is read, and the items of the model. -/
structure PatternText where
  text : String
  toks : List Tok
  items : List (Item Char)

/-- `preload.lua` -/
def preloadPatterns : List PatternText :=
  [⟨"^(%d+)%s*([%w_]+)%s+(.*)$", number ++ [space] ++ word ++ [gap] ++ group "." .star ++ [.stop],
      PreloadLog.syscallRe⟩,
    ⟨"^%s*([\\x%x]*)%s+(%w+)%s+(%d+)%s*$",
      [space] ++ name ++ [gap] ++ group "%w" .plus ++ [gap] ++ number ++ [space, .stop],
      PreloadLog.openRe⟩,
    ⟨"^%s*([%w_]+)%s+([\\x%x]*)%s+(%w+)%s+(%d+)%s*$",
      [space] ++ word ++ [gap] ++ name ++ [gap] ++ group "%w" .plus ++ [gap] ++ number ++
        [space, .stop],
      PreloadLog.openatRe⟩,
    ⟨"^%s*([\\x%x]*)%s+(%d+)%s*$", [space] ++ name ++ [gap] ++ number ++ [space, .stop],
      PreloadLog.creatRe⟩,
    ⟨"^%s*([\\x%x]*)%s*$", [space] ++ name ++ [space, .stop], PreloadLog.nameRe⟩,
    ⟨"^%s*([\\x%x]*)%s*", [space] ++ name ++ [space], PreloadLog.chdirRe⟩,
    ⟨"^%s*(%d+)%s*$", [space] ++ number ++ [space, .stop], PreloadLog.numberRe⟩,
    ⟨"^%s*([%w_]+)%s+([\\x%x]*)%s*$", [space] ++ word ++ [gap] ++ name ++ [space, .stop],
      PreloadLog.mkdiratRe⟩,
    ⟨"^%s*([\\x%x]*)%s+([\\x%x]*)%s*$", [space] ++ name ++ [gap] ++ name ++ [space, .stop],
      PreloadLog.renameRe⟩,
    ⟨"^%s*([%w_]+)%s+([\\x%x]*)%s+([%w_]+)%s+([\\x%x]*)%s*$",
      [space] ++ word ++ [gap] ++ name ++ [gap] ++ word ++ [gap] ++ name ++ [space, .stop],
      PreloadLog.renameatRe⟩]

/-- `strace.lua` -/
def stracePatterns : List PatternText :=
  [⟨"^(%d+)%s*([%w_]+)%((.*)%)%s*=%s*(%d+)$",
      number ++ [space] ++ word ++ [escaped '('] ++ group "." .star ++ [escaped ')', space] ++
        plain "=" ++ [space] ++ number ++ [.stop],
      Strace.syscallRe⟩,
    ⟨"^(%d+)%s*([%w_]+)%(%s*(.*)<unfinished%s*%.%.%.>$",
      number ++ [space] ++ word ++ [escaped '(', space] ++ group "." .star ++
        plain "<unfinished" ++ [space, escaped '.', escaped '.', escaped '.'] ++ plain ">" ++
        [.stop],
      Strace.unfinishedRe⟩,
    ⟨"^(%d+)%s*<%.%.%.%s*([%w_]+)%s*resumed>%s*(.*)%)%s*=%s*(%-?%d+)",
      number ++ [space] ++ plain "<" ++ [escaped '.', escaped '.', escaped '.', space] ++ word ++
        [space] ++ plain "resumed>" ++ [space] ++ group "." .star ++ [escaped ')', space] ++
        plain "=" ++ [space] ++ signed,
      Strace.resumedRe⟩,
    ⟨"^\"([\\x%x]*)\",%s*([%u_|]+)", quoted ++ comma ++ flags, Strace.openRe⟩,
    ⟨"^([%w_]+),%s*\"([\\x%x]*)\",%s*([%u_|]+)", word ++ comma ++ quoted ++ comma ++ flags,
      Strace.openatRe⟩,
    ⟨"^\"([\\x%x]*)\"", quoted, Strace.quotedName⟩,
    ⟨"^(%d+)$", number ++ [.stop], Strace.numberRe⟩,
    ⟨"^([%w_]+),%s*\"([\\x%x]*)\"", word ++ comma ++ quoted, Strace.mkdiratRe⟩,
    ⟨"^\"([\\x%x]*)\",%s*\"([\\x%x]*)\"", quoted ++ comma ++ quoted, Strace.renameRe⟩,
    ⟨"^([%w_]+),%s*\"([\\x%x]*)\",%s*([%w_]+),%s*\"([\\x%x]*)\"",
      word ++ comma ++ quoted ++ comma ++ word ++ comma ++ quoted, Strace.renameatRe⟩]

/-- `ktrace.lua` -/
def ktracePatterns : List PatternText :=
  [⟨"^%s*(%d+).+CALL%s*([%w_]+)(.-)$",
      [space] ++ number ++ [anything .plus] ++ plain "CALL" ++ [space] ++ word ++
        group "." .least ++ [.stop],
      Ktrace.syscallRe⟩,
    ⟨"^%s*(%d+).+NAMI%s*\"(.-)\"%s*$",
      [space] ++ number ++ [anything .plus] ++ plain "NAMI" ++ [space] ++ plain "\"" ++
        group "." .least ++ plain "\"" ++ [space, .stop],
      Ktrace.namiRe⟩,
    ⟨"^%s*(%d+).+RET%s*([%w_]+)%s*(%-?%d+).-$",
      [space] ++ number ++ [anything .plus] ++ plain "RET" ++ [space] ++ word ++ [space] ++
        signed ++ [anything .least, .stop],
      Ktrace.retRe⟩,
    ⟨"^%(0x(%x+),", [escaped '('] ++ plain "0x" ++ group "%x" .plus ++ plain ",", Ktrace.atfdRe⟩,
    ⟨"^%(0x%x+,0x%x+,0x(%x+),",
      [escaped '('] ++ plain "0x" ++ [digits] ++ plain ",0x" ++ [digits] ++ plain ",0x" ++
        group "%x" .plus ++ plain ",",
      Ktrace.oflagsRe⟩,
    ⟨"^%(0x(%x+)%)", [escaped '('] ++ plain "0x" ++ group "%x" .plus ++ [escaped ')'],
      Ktrace.fchdirRe⟩,
    ⟨"^%(0x(%x+),0x%x+,0x(%x+),",
      [escaped '('] ++ plain "0x" ++ group "%x" .plus ++ plain ",0x" ++ [digits] ++ plain ",0x" ++
        group "%x" .plus ++ plain ",",
      Ktrace.renameatRe⟩]

def patterns : List PatternText := preloadPatterns ++ stracePatterns ++ ktracePatterns

theorem patterns_read :
    ∀ x ∈ patterns, readPattern x.text.toList = some (true, x.toks) ∧ ends x.items ≠ 0 := by
  decide +kernel

theorem group_items (cls : String) (times : Times) :
    (group cls times).map Tok.item = [.begin_, Tok.item (.chars cls.toList times), .end_] := rfl

theorem name_items : name.map Tok.item = captured isEscape .star := by
  rw [name, group_items]
  exact congrArg (fun i => [.begin_, i, .end_]) (item_escape .star)

theorem word_items : word.map Tok.item = captured isWord .plus := by
  rw [word, group_items]
  exact congrArg (fun i => [.begin_, i, .end_]) (item_word .plus)

theorem flags_items : flags.map Tok.item = Strace.flagsItem := by
  rw [flags, group_items]
  exact congrArg (fun i => [.begin_, i, .end_]) (item_flag .plus)

theorem plain_items (s : String) (hs : (s.toList.all fun x => x ∉ ['.', '%', '[']) = true) :
    (plain s).map Tok.item = literal s.toList := by
  rw [plain, literal, List.map_map]
  refine List.map_congr_left fun x hx => item_char ?_ .one
  exact of_decide_eq_true (List.all_eq_true.mp hs x hx)

theorem quoted_items : quoted.map Tok.item = Strace.quotedName := by
  rw [quoted, List.map_append, List.map_append, name_items, plain_items _ rfl]
  rfl

theorem comma_items : comma.map Tok.item = Strace.comma := by
  rw [comma, List.map_append, plain_items _ rfl]
  rfl

theorem escaped_item {x : Char} (hx : x.toLower ∉ "acdlpsuwxz".toList) :
    (escaped x).item = .chars (fun c => c = x) .one := item_escaped hx .one

theorem signed_items : signed.map Tok.item =
    [.begin_, .chars (fun c => c = '-') .opt, .chars Char.isDigit .plus, .end_] :=
  congrArg (fun i => [Item.begin_, i, .chars Char.isDigit .plus, .end_])
    (item_escaped (x := '-') (by decide +kernel) .opt)

theorem preloadPatterns_items : ∀ x ∈ preloadPatterns, x.toks.map Tok.item = x.items := by
  simp only [preloadPatterns, List.forall_mem_cons, List.map_append, name_items, word_items]
  exact ⟨rfl, rfl, rfl, rfl, rfl, rfl, rfl, rfl, rfl, rfl, List.forall_mem_nil _⟩

theorem stracePatterns_items : ∀ x ∈ stracePatterns, x.toks.map Tok.item = x.items := by
  simp (disch := decide) only [stracePatterns, List.forall_mem_cons, List.map_append,
    List.map_cons, word_items, flags_items, quoted_items, comma_items, plain_items, escaped_item,
    signed_items]
  exact ⟨rfl, rfl, rfl, rfl, rfl, trivial, rfl, rfl, rfl, rfl, List.forall_mem_nil _⟩

theorem ktracePatterns_items : ∀ x ∈ ktracePatterns, x.toks.map Tok.item = x.items := by
  simp (disch := decide) only [ktracePatterns, List.forall_mem_cons, List.map_append,
    List.map_cons, word_items, plain_items, escaped_item, signed_items]
  exact ⟨rfl, rfl, rfl, rfl, rfl, rfl, rfl, List.forall_mem_nil _⟩

/-- **The patterns of the back ends.** On every subject, `string.match` returns for the text of
    each pattern what the model matches. -/
theorem patterns_match : ∀ x ∈ patterns, ∀ (s : LuaString) (caps : List Capture),
    ∃ caps', strFindAux false false s x.text.toList 1 caps =
      .ok ((Pattern.match_ x.items s).map (·.map .str)) caps' := by
  intro x hx s caps
  obtain ⟨hread, hends⟩ := patterns_read x hx
  have hitems : x.toks.map Tok.item = x.items := by
    rcases List.mem_append.mp hx with hx | hx
    · rcases List.mem_append.mp hx with hx | hx
      · exact preloadPatterns_items x hx
      · exact stracePatterns_items x hx
    · exact ktracePatterns_items x hx
  obtain ⟨caps', h⟩ := strFindAux_items hread s caps
  refine ⟨caps', ?_⟩
  rw [h, hitems, found, if_pos rfl, Pattern.match_]
  cases hm : matchItems x.items .none s with
  | none => rfl
  | some r =>
      rw [Option.map_some, Option.map_some, results_of_ends hm hends]
      rfl

theorem patterns_match_chdir : ∃ caps',
    strFindAux false false " \\x2f".toList "^%s*([\\x%x]*)%s*".toList 1 [] =
      .ok ((Pattern.match_ PreloadLog.chdirRe " \\x2f".toList).map (·.map .str)) caps' :=
  patterns_match ⟨"^%s*([\\x%x]*)%s*", [space] ++ name ++ [space], PreloadLog.chdirRe⟩
    (by simp [patterns, preloadPatterns]) _ _

end Scripts

/-! ## `hex2name` -/

/-- The error of `string.char` without a number. -/
def noNumber : LuaString := "bad argument #1 to 'char' (number expected, got nil)".toList

/-- `hex2char` as it is handed to `gsub`; here it takes two digits and nothing else. -/
def hex2charFunction : List Value → Except LuaString Given
  | [.str [a, b]] =>
      if isHex a ∧ isHex b then .ok (.text (hex2char [[a, b]])) else .error noNumber
  | _ => .error noNumber

def hexToks : List Tok :=
  plain "\\x" ++ [.begin_, .chars "%x".toList .one, .chars "%x".toList .one, .end_]

theorem hexToks_items : hexToks.map Tok.item = hexRe := by
  rw [hexToks, List.map_append, plain_items _ rfl]
  rfl

/-- A match has two digits. -/
theorem hexRe_digits {s : LuaString} {r : Captures Char × LuaString}
    (hm : matchItems hexRe .none s = some r) :
    ∃ a b, isHex a ∧ isHex b ∧ r.1.ended = [[a, b]] := by
  rcases s with _ | ⟨x, _ | ⟨y, _ | ⟨a, _ | ⟨b, s⟩⟩⟩⟩
  -- a subject of fewer than four characters
  · simp [hexRe, literal, matchItems] at hm
  · simp [hexRe, literal, matchItems] at hm
  · simp [hexRe, literal, matchItems] at hm
  · simp [hexRe, literal, matchItems] at hm
  · simp [hexRe, literal, matchItems, Captures.end_, Captures.none] at hm
    obtain ⟨-, -, ha, hb, rfl⟩ := hm
    have htwo : s.length + 1 + 1 - s.length = 2 := by omega
    exact ⟨a, b, ha, hb, by rw [htwo]; rfl⟩

/-- `s:gsub( "\x(%x%x)", hex2char )` -/
theorem hex2name_strGsub (s : LuaString) (caps : List Capture) :
    ∃ n caps', strGsub s "\\x(%x%x)".toList (.function hex2charFunction) (s.length + 1) caps =
      .ok (hex2name s, n) caps' := by
  have hread : readPattern "\\x(%x%x)".toList = some (false, hexToks) := by decide +kernel
  refine strGsub_items hread (same_of_ends hexToks_items (by decide)) ?_ s caps
  -- `hex2char` gets the digits of a match
  refine gives_function fun s r hm => ?_
  rw [hexToks_items] at hm
  obtain ⟨a, b, ha, hb, hended⟩ := hexRe_digits hm
  rw [results_of_ends hm (by decide), hended]
  exact if_pos ⟨ha, hb⟩

/-! ## `argv2cmd` -/

/-- `a2c_pattern` -/
def a2cText (dirsep : Char) : LuaString :=
  if dirsep = '\\' then ['[', '%', 's', '"', ']'] else ['[', '%', 's', '\\', '"', ']']

/-- `a2c_repl` -/
def a2cTable : Value → Given
  | .str s =>
      if s = ['\\'] then .text ['\\', '\\']
      else if s = ['"'] then .text ['\\', '"']
      else if s = ['\t'] then .text [' ']
      else if s = ['\n'] then .text [' ']
      else if s = ['\r'] then .text []
      else .falsy
  | _ => .falsy

theorem a2cText_read (dirsep : Char) :
    readPattern (a2cText dirsep) = some (false, [.chars (a2cText dirsep) .one]) := by
  unfold a2cText
  split
  · decide +kernel
  · decide +kernel

theorem a2cText_class (dirsep c : Char) :
    singlematch c (a2cText dirsep) [] = a2cPattern dirsep c := by
  by_cases h : dirsep = '\\'
  · have htext : singlematch c ['[', '%', 's', '"', ']'] [] =
        (isSpace c || (decide ('"' = c) || false)) := rfl
    rw [a2cText, if_pos h, htext, a2cPattern]
    simp [h, @eq_comm _ _ c]
  · have htext : singlematch c ['[', '%', 's', '\\', '"', ']'] [] =
        (isSpace c || (decide ('\\' = c) || (decide ('"' = c) || false))) := rfl
    rw [a2cText, if_neg h, htext, a2cPattern]
    simp [h, @eq_comm _ _ c, Bool.or_comm]

/-- What the table makes of the captures. -/
def a2cOf (l : List LuaString) : LuaString :=
  l.flatMap fun u => if u.length = 1 then u.flatMap a2cRepl else u

theorem a2cOf_char (c : Char) : a2cOf [[c]] = a2cRepl c := by
  rw [a2cOf, List.flatMap_singleton, if_pos List.length_singleton, List.flatMap_singleton]

theorem a2cTable_of (u : LuaString) :
    a2cTable (.str u) = .text (a2cOf [u]) ∨ (a2cTable (.str u) = .falsy ∧ a2cOf [u] = u) := by
  by_cases hu : u.length = 1
  · obtain ⟨c, rfl⟩ := List.length_eq_one_iff.mp hu
    simp only [a2cOf_char, a2cTable, a2cRepl, List.cons.injEq, and_true]
    -- the characters of the table, one after the other
    by_cases h : c = '\\' ∨ c = '"' ∨ c = '\t' ∨ c = '\n' ∨ c = '\r'
    · rcases h with rfl | rfl | rfl | rfl | rfl <;> exact .inl rfl
    · simp only [not_or] at h
      obtain ⟨h₁, h₂, h₃, h₄, h₅⟩ := h
      refine .inr ⟨?_, ?_⟩
      · simp only [if_neg h₁, if_neg h₂, if_neg h₃, if_neg h₄, if_neg h₅]
      · simp only [if_neg h₁, if_neg h₂, if_neg h₃, if_neg h₄, if_neg h₅]
  · have hne : ∀ c, u ≠ [c] := by
      intro c h
      exact hu (h ▸ List.length_singleton)
    refine .inr ⟨?_, ?_⟩
    · simp only [a2cTable, if_neg (hne _)]
    · rw [a2cOf, List.flatMap_singleton, if_neg hu]

/-- **`a2c_pattern`.** A word matches where the model puts it in quotes. -/
theorem quoted_strFindAux (dirsep : Char) (s : LuaString) (caps : List Capture) :
    ∃ vs caps', strFindAux false false s (a2cText dirsep) 1 caps = .ok vs caps' ∧
      vs.isSome = needsQuotes dirsep s := by
  obtain ⟨caps', h⟩ := strFindAux_items (a2cText_read dirsep) s caps
  refine ⟨_, caps', h, ?_⟩
  rw [Option.isSome_map]
  refine found_class.trans ?_
  rw [needsQuotes, funext (a2cText_class dirsep)]

/-- **`a2c_repl`.** What `gsub` makes of a word is what the model puts between the quotes. -/
theorem replaced_strGsub (dirsep : Char) (s : LuaString) (caps : List Capture) :
    ∃ n caps', strGsub s (a2cText dirsep) (.table a2cTable) (s.length + 1) caps =
      .ok (replaced dirsep s, n) caps' := by
  obtain ⟨n, caps', h⟩ :=
    strGsub_items (a2cText_read dirsep) same_class (gives_table rfl a2cTable_of) s caps
  refine ⟨n, caps', ?_⟩
  rw [h, gsub, gsubLoop_class (Nat.lt_succ_self _), replaced]
  simp only [a2cText_class, a2cOf_char]

/-- **The patterns of `build.lua`.** -/
theorem quoted_patterns (dirsep : Char) (s : LuaString) (caps : List Capture) :
    (∃ vs caps', strFindAux false false s (a2cText dirsep) 1 caps = .ok vs caps' ∧
      vs.isSome = needsQuotes dirsep s) ∧
    ∃ n caps', strGsub s (a2cText dirsep) (.table a2cTable) (s.length + 1) caps =
      .ok (replaced dirsep s, n) caps' :=
  ⟨quoted_strFindAux dirsep s caps, replaced_strGsub dirsep s caps⟩

end Buildsh.PatternTexts
