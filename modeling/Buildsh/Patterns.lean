/-
  The patterns that the back ends read their logs with: the character classes of Lua, the items
  that occur in several patterns, and the hexadecimal names of `base.lua`.
-/
import Buildsh.Generic.Pattern
import Buildsh.Commands

namespace Buildsh.Patterns
open Buildsh.Generic.Pattern Buildsh.Commands

/-! ## Classes and items -/

/-- `%x` -/
def isHex (c : Char) : Bool := c.isDigit ∨ ('a' ≤ c ∧ c ≤ 'f') ∨ ('A' ≤ c ∧ c ≤ 'F')

/-- `[\x%x]` -/
def isEscape (c : Char) : Bool := c = '\\' ∨ c = 'x' ∨ isHex c

/-- `[%w_]` -/
def isWord (c : Char) : Bool := c.isAlphanum ∨ c = '_'

/-- A captured repetition of a class. -/
def captured (cls : Char → Bool) (times : Times) : List (Item Char) :=
  [.begin_, .chars cls times, .end_]

/-- Characters that stand for themselves. -/
def literal (s : LuaString) : List (Item Char) := s.map fun c => .chars (fun x => x = c) .one

/-- `%s*` -/
def spaces : Item Char := .chars isSpace .star

/-- `%s+` -/
def blanks : Item Char := .chars isSpace .plus

/-- A captured repetition of a class, as a field of a record. -/
structure Field where
  cls : Char → Bool
  times : Times

/-- Fields with `%s+` between them. -/
def fieldsRe : List Field → List (Item Char)
  | [] => []
  | [f] => captured f.cls f.times
  | f :: g :: fs => captured f.cls f.times ++ blanks :: fieldsRe (g :: fs)

/-- `^%s*`, the fields, `%s*$` -/
def argsRe (fs : List Field) : List (Item Char) := spaces :: fieldsRe fs ++ [spaces] ++ [.stop]

/-- Words with a blank between them. -/
def unwords : List LuaString → LuaString
  | [] => []
  | [w] => w
  | w :: v :: ws => w ++ ' ' :: unwords (v :: ws)

section Forward

variable {p : List (Item Char)} {c : Captures Char} {r : Captures Char × LuaString}
  {ended begun : List LuaString} {cls : Char → Bool} {u v : LuaString}

theorem match_spaces (hv : Stops isSpace v) (h : matchItems p c v = some r) :
    matchItems (spaces :: p) c v = some r :=
  matchItems_star (u := []) (by simp) hv h

theorem match_blanks (hv : Stops isSpace v) (h : matchItems p c v = some r) :
    matchItems (blanks :: p) c (' ' :: v) = some r :=
  matchItems_plus (u := [' ']) (by simp) (List.forall_mem_singleton.mpr rfl) hv h

theorem match_captured_plus (hne : u ≠ []) (hu : ∀ x ∈ u, cls x = true) (hv : Stops cls v)
    (h : matchItems p ⟨ended ++ [u], begun⟩ v = some r) :
    matchItems (captured cls .plus ++ p) ⟨ended, begun⟩ (u ++ v) = some r :=
  matchItems_capture_plus hne hu hv h

theorem match_captured_star (hu : ∀ x ∈ u, cls x = true) (hv : Stops cls v)
    (h : matchItems p ⟨ended ++ [u], begun⟩ v = some r) :
    matchItems (captured cls .star ++ p) ⟨ended, begun⟩ (u ++ v) = some r :=
  matchItems_capture_star hu hv h

/-- A word without blanks. -/
structure Solid (w : LuaString) : Prop where
  ne_nil : w ≠ []
  not_space : ∀ x ∈ w, isSpace x = false

theorem Solid.stops {w : LuaString} (hw : Solid w) (v : LuaString) : Stops isSpace (w ++ v) := by
  obtain ⟨hne, hspace⟩ := hw
  cases w with
  | nil => exact absurd rfl hne
  | cons x w => exact stops_cons (hspace x List.mem_cons_self)

/-- A word that a field takes as a whole, where a blank or the end follows it. -/
structure Fits (f : Field) (w : LuaString) : Prop where
  times : f.times = .star ∨ f.times = .plus
  blank : f.cls ' ' = false
  solid : Solid w
  cls : ∀ x ∈ w, f.cls x = true

theorem match_field {f : Field} {w : LuaString} (hf : Fits f w) (hv : Stops f.cls v)
    (h : matchItems p ⟨ended ++ [w], begun⟩ v = some r) :
    matchItems (captured f.cls f.times ++ p) ⟨ended, begun⟩ (w ++ v) = some r := by
  obtain ⟨htimes | htimes, -, hsolid, hcls⟩ := hf
  · rw [htimes]
    exact match_captured_star hcls hv h
  · rw [htimes]
    exact match_captured_plus hsolid.ne_nil hcls hv h

theorem unwords_stops {ws : List LuaString} (h : ∀ w ∈ ws, Solid w) :
    Stops isSpace (unwords ws) := by
  match ws with
  | [] => exact stops_nil
  | [w] => simpa [unwords] using (h w List.mem_cons_self).stops []
  | w :: v :: ws => exact (h w List.mem_cons_self).stops _

theorem solid_of_fits {fs : List Field} {ws : List LuaString} (h : List.Forall₂ Fits fs ws) :
    ∀ w ∈ ws, Solid w := by
  induction h with
  | nil => simp
  | cons hf _ ih => exact List.forall_mem_cons.mpr ⟨hf.solid, ih⟩

/-- Fields that fit words, on these words. -/
theorem match_fields {fs : List Field} {ws : List LuaString} (h : List.Forall₂ Fits fs ws)
    (hp : matchItems p ⟨ended ++ ws, begun⟩ [] = some r) :
    matchItems (fieldsRe fs ++ p) ⟨ended, begun⟩ (unwords ws) = some r := by
  induction h generalizing ended with
  | nil => simpa [fieldsRe, unwords] using hp
  | @cons f w fs ws hf hfs ih =>
      cases hfs with
      | nil =>
          rw [unwords, ← List.append_nil w]
          exact match_field hf stops_nil (by simpa using hp)
      | @cons g v fs ws hg hgs =>
          have hsolid : ∀ w ∈ v :: ws, Solid w := solid_of_fits (.cons hg hgs)
          rw [fieldsRe, List.append_assoc, List.cons_append, unwords]
          refine match_field hf (stops_cons hf.blank) (match_blanks (unwords_stops hsolid) ?_)
          refine ih ?_
          rwa [List.append_assoc]

theorem match_argsRe {fs : List Field} {ws : List LuaString} (h : List.Forall₂ Fits fs ws) :
    match_ (argsRe fs) (unwords ws) = some ws := by
  have htail : matchItems [spaces, .stop] ⟨ws, []⟩ [] = some (⟨ws, []⟩, []) := rfl
  have hmatch : matchItems (argsRe fs) .none (unwords ws) = some (⟨ws, []⟩, []) := by
    rw [argsRe, List.cons_append, List.cons_append, List.append_assoc]
    exact match_spaces (unwords_stops (solid_of_fits h)) (match_fields h htail)
  rw [match_, hmatch]
  rfl

theorem match_space (hv : Stops isSpace v) (h : matchItems p c v = some r) :
    matchItems (spaces :: p) c (' ' :: v) = some r :=
  matchItems_star (u := [' ']) (List.forall_mem_singleton.mpr rfl) hv h

theorem match_literal (s v : LuaString) :
    matchItems (literal s ++ p) c (s ++ v) = matchItems p c v := by
  induction s with
  | nil => rfl
  | cons x s ih =>
      change matchItems (.chars (fun y => y = x) .one :: (literal s ++ p)) c (x :: (s ++ v)) = _
      rw [matchItems_one (by simp), ih]

/-- A pattern that starts with a character matches nothing that does not. -/
theorem matchItems_literal_none {x : Char} {s w : LuaString} (h : w.head? ≠ some x)
    (c : Captures Char) :
    matchItems (literal (x :: s) ++ p) c w = none := by
  cases w with
  | nil => rfl
  | cons y w =>
      have hne : y ≠ x := fun he => h (by rw [he]; rfl)
      change matchItems (.chars (fun z => z = x) .one :: (literal s ++ p)) c (y :: w) = none
      simp [matchItems, hne]

theorem suffix_not_head {x : Char} {s w : LuaString} (hs : x ∉ s) (hw : w <:+ x :: s)
    (hne : w ≠ x :: s) : w.head? ≠ some x := by
  rcases List.suffix_cons_iff.mp hw with rfl | hw
  · exact absurd rfl hne
  · exact fun hx => hs (hw.subset (List.mem_of_mem_head? hx))

/-- A suffix that starts with a character starts no earlier than this character occurs. -/
theorem suffix_of_head {x : Char} {a b w : LuaString} (ha : x ∉ a) (hw : w <:+ a ++ b)
    (hx : w.head? = some x) : w <:+ b := by
  obtain ⟨u, hu⟩ := hw
  rcases List.append_eq_append_iff.mp hu with ⟨a', rfl, rfl⟩ | ⟨c', rfl, rfl⟩
  · cases a' with
    | nil => exact List.suffix_rfl
    | cons y a' =>
        rw [List.cons_append, List.head?_cons, Option.some.injEq] at hx
        exact absurd (by simp [hx]) ha
  · exact List.suffix_append c' w

theorem begins_literal {s w : LuaString} :
    Begins (literal s ++ p) w ↔ ∃ v, w = s ++ v ∧ Begins p v := by
  induction s generalizing w with
  | nil => exact ⟨fun h => ⟨w, rfl, h⟩, fun ⟨v, hv, h⟩ => hv ▸ h⟩
  | cons x s ih =>
      change (∃ u v, w = u ++ v ∧ u.length = 1 ∧ (∀ y ∈ u, decide (y = x) = true) ∧
        Begins (literal s ++ p) v) ↔ _
      constructor
      · rintro ⟨u, v, rfl, hlen, hu, hv⟩
        obtain ⟨y, rfl⟩ := List.length_eq_one_iff.mp hlen
        obtain ⟨v', rfl, hv'⟩ := ih.mp hv
        have hy : y = x := of_decide_eq_true (hu y List.mem_cons_self)
        exact ⟨v', by rw [hy]; rfl, hv'⟩
      · rintro ⟨v, rfl, hv⟩
        exact ⟨[x], s ++ v, rfl, rfl, by simp, ih.mpr ⟨v, rfl, hv⟩⟩

theorem not_isSpace_of_isWord {c : Char} (h : isWord c = true) : isSpace c = false := by
  by_contra hs
  rw [Bool.not_eq_false] at hs
  have hmem : c ∈ [' ', '\t', '\n', '\x0b', '\x0c', '\r'] := of_decide_eq_true hs
  have hall : [' ', '\t', '\n', '\x0b', '\x0c', '\r'].all (fun c => !isWord c) = true := by decide
  have hc := List.all_eq_true.mp hall c hmem
  rw [h] at hc
  cases hc

theorem stops_digits {ds v : LuaString} (hne : ds ≠ []) (h : ∀ c ∈ ds, c.isDigit = true) :
    Stops isSpace (ds ++ v) := by
  obtain ⟨c, ds, rfl⟩ := List.exists_cons_of_ne_nil hne
  have hc : isWord c = true := by
    simp [isWord, Char.isAlphanum, h c List.mem_cons_self]
  exact stops_cons (not_isSpace_of_isWord hc)

end Forward

theorem accepts_captured {cls : Char → Bool} {times : Times} {x : Char}
    (h : Accepts (captured cls times) x) : cls x = true := by
  obtain ⟨cls', times', hmem, hx⟩ := h
  simp only [captured, List.mem_cons, List.not_mem_nil, or_false, reduceCtorEq, false_or,
    Item.chars.injEq] at hmem
  rwa [← hmem.1]

theorem accepts_fieldsRe {fs : List Field} {x : Char} (h : Accepts (fieldsRe fs) x) :
    isSpace x = true ∨ ∃ f ∈ fs, f.cls x = true := by
  induction fs using fieldsRe.induct with
  | case1 =>
      obtain ⟨cls, times, hmem, -⟩ := h
      cases hmem
  | case2 f => exact Or.inr ⟨f, List.mem_cons_self, accepts_captured h⟩
  | case3 f g fs ih =>
      rcases accepts_append h with h | h
      · exact Or.inr ⟨f, List.mem_cons_self, accepts_captured h⟩
      · rcases accepts_cons h with h | h
        · exact Or.inl h
        · obtain h | ⟨f', hmem, hx⟩ := ih h
          · exact Or.inl h
          · exact Or.inr ⟨f', List.mem_cons_of_mem _ hmem, hx⟩

/-- A subject that is matched has blanks and characters of the fields only. -/
theorem match_argsRe_only {fs : List Field} {s : LuaString} {l : List LuaString}
    (h : match_ (argsRe fs) s = some l) :
    ∀ x ∈ s, isSpace x = true ∨ ∃ f ∈ fs, f.cls x = true := by
  intro x hx
  rcases accepts_append (accepts_of_match h x hx) with h | h
  · rcases accepts_cons h with h | h
    · exact Or.inl h
    · exact accepts_fieldsRe h
  · rcases accepts_cons h with h | ⟨cls, times, hmem, -⟩
    · exact Or.inl h
    · cases hmem

/-! ## Hexadecimal names -/

def hexValue (c : Char) : Nat :=
  if c.isDigit then c.toNat - '0'.toNat
  else if 'a' ≤ c then c.toNat - 'a'.toNat + 10
  else c.toNat - 'A'.toNat + 10

/-- `string.char( tonumber( s, 16 ) )`, for two digits -/
def hex2char : List LuaString → LuaString
  | [[a, b]] => [Char.ofNat (16 * hexValue a + hexValue b)]
  | _ => []

/-- `\x(%x%x)` -/
def hexRe : List (Item Char) :=
  literal "\\x".toList ++ [.begin_, .chars isHex .one, .chars isHex .one, .end_]

def hex2name (s : LuaString) : LuaString := gsub hexRe hex2char s

/-- A digit of `write_name`. -/
def hexDigit (n : Nat) : Char := "0123456789abcdef".toList.getD n '0'

/-- What `write_name` writes for a character. -/
def hexEscape (c : Char) : LuaString :=
  ['\\', 'x', hexDigit (c.toNat >>> 4 &&& 0xF), hexDigit (c.toNat &&& 0xF)]

def writeName (s : LuaString) : LuaString := s.flatMap hexEscape

theorem hexDigit_spec : ∀ n < 16, isHex (hexDigit n) = true ∧ hexValue (hexDigit n) = n := by
  decide

theorem isEscape_of_isHex {c : Char} (h : isHex c = true) : isEscape c = true := by
  simp [isEscape, h]

/-- The two halves of a byte. -/
theorem halves {n : Nat} (h : n < 256) :
    n >>> 4 &&& 0xF < 16 ∧ n &&& 0xF < 16 ∧ 16 * (n >>> 4 &&& 0xF) + (n &&& 0xF) = n := by
  have hlow : n &&& 0xF = n % 16 := Nat.and_two_pow_sub_one_eq_mod n 4
  have hhigh : n >>> 4 &&& 0xF = n / 16 % 16 := by
    rw [Nat.shiftRight_eq_div_pow]
    exact Nat.and_two_pow_sub_one_eq_mod (n / 16) 4
  rw [hlow, hhigh]
  omega

theorem isEscape_hexEscape {c : Char} (hc : c.toNat < 256) :
    ∀ x ∈ hexEscape c, isEscape x = true := by
  obtain ⟨hhigh, hlow, -⟩ := halves hc
  intro x hx
  simp only [hexEscape, List.mem_cons, List.not_mem_nil, or_false] at hx
  rcases hx with rfl | rfl | rfl | rfl
  exacts [by decide, by decide, isEscape_of_isHex (hexDigit_spec _ hhigh).1,
    isEscape_of_isHex (hexDigit_spec _ hlow).1]

theorem isEscape_writeName {s : LuaString} (hs : ∀ c ∈ s, c.toNat < 256) :
    ∀ x ∈ writeName s, isEscape x = true := by
  intro x hx
  obtain ⟨c, hc, hx⟩ := List.mem_flatMap.mp hx
  exact isEscape_hexEscape (hs c hc) x hx

theorem replaces_hexEscape {c : Char} (hc : c.toNat < 256) :
    Replaces hexRe hex2char hexEscape (fun c => [c]) c := by
  obtain ⟨hhigh, hlow, hval⟩ := halves hc
  obtain ⟨hx₁, hv₁⟩ := hexDigit_spec _ hhigh
  obtain ⟨hx₂, hv₂⟩ := hexDigit_spec _ hlow
  refine ⟨by simp [hexEscape], fun v => ?_⟩
  refine ⟨⟨[[hexDigit (c.toNat >>> 4 &&& 0xF), hexDigit (c.toNat &&& 0xF)]], []⟩, ?_, ?_⟩
  · have htwo : v.length + 1 + 1 - v.length = 2 := by omega
    simp [hexRe, literal, hexEscape, matchItems, hx₁, hx₂, Captures.none, Captures.end_, htwo]
  · simp only [hex2char, hv₁, hv₂, hval, Char.ofNat_toNat]

/-- **Names.** What is written is read back. -/
theorem hex2name_writeName {s : LuaString} (hs : ∀ c ∈ s, c.toNat < 256) :
    hex2name (writeName s) = s := by
  have h : hex2name (writeName s) = s.flatMap fun c => [c] :=
    gsub_flatMap (by decide) fun c hc => replaces_hexEscape (hs c hc)
  rw [h, List.flatMap_singleton']

end Buildsh.Patterns
