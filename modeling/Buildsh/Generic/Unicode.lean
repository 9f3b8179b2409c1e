/-
  UTF-8 and UTF-16 as codes of the Unicode scalar values.

  A unit of UTF-16 is a number below 2^16. Only the classes of the units decide whether a text is
  valid, high surrogates, low surrogates and all others (`validUtf16_iff`), so a function that
  keeps the classes keeps validity.
-/
import Mathlib.Data.List.Basic
import Buildsh.Generic.Recode

namespace Buildsh.Generic.Recode

/-! ## UTF-8 -/

theorem decode_utf8 {c : Char} {l : List UInt8} (h : String.utf8EncodeChar c <+: l) :
    ByteArray.utf8DecodeChar? l.toByteArray 0 = some c := by
  obtain ⟨t, rfl⟩ := h
  rw [List.toByteArray_append]
  exact ByteArray.utf8DecodeChar?_utf8EncodeChar_append

def utf8 : Code Char UInt8 where
  enc := String.utf8EncodeChar
  ne_nil _ := String.utf8EncodeChar_ne_nil
  prefixFree a b h := by
    have hb := decode_utf8 (List.prefix_refl (String.utf8EncodeChar b))
    rw [decode_utf8 h] at hb
    exact Option.some.inj hb
  width := 4
  length_le c := by
    rw [String.length_utf8EncodeChar]
    exact c.utf8Size_le_four

/-! ## UTF-16 -/

def isHigh (u : Nat) : Bool := 0xd800 ≤ u ∧ u < 0xdc00

def isLow (u : Nat) : Bool := 0xdc00 ≤ u ∧ u < 0xe000

theorem isHigh_lt {u : Nat} (h : isHigh u = true) : u < 0x10000 := by
  simp only [isHigh, decide_eq_true_eq] at h
  omega

theorem isLow_lt {u : Nat} (h : isLow u = true) : u < 0x10000 := by
  simp only [isLow, decide_eq_true_eq] at h
  omega

def utf16EncodeChar (c : Char) : List Nat :=
  if c.toNat < 0x10000 then [c.toNat]
  else [0xd800 + (c.toNat - 0x10000) / 0x400, 0xdc00 + (c.toNat - 0x10000) % 0x400]

theorem toNat_valid (c : Char) :
    c.toNat < 0xd800 ∨ 0xdfff < c.toNat ∧ c.toNat < 0x110000 := c.valid

theorem toNat_inj {c d : Char} (h : c.toNat = d.toNat) : c = d := by
  rw [← Char.ofNat_toNat c, h, Char.ofNat_toNat]

theorem utf16EncodeChar_prefix {c d : Char} (h : utf16EncodeChar c <+: utf16EncodeChar d) :
    c = d := by
  have hc := toNat_valid c
  have hd := toNat_valid d
  apply toNat_inj
  unfold utf16EncodeChar at h
  by_cases hc' : c.toNat < 0x10000
  · rw [if_pos hc'] at h
    by_cases hd' : d.toNat < 0x10000
    · rw [if_pos hd', List.cons_prefix_cons] at h
      exact h.1
    · rw [if_neg hd', List.cons_prefix_cons] at h
      omega
  · rw [if_neg hc'] at h
    by_cases hd' : d.toNat < 0x10000
    · rw [if_pos hd'] at h
      exact absurd h.length_le (by simp)
    · rw [if_neg hd', List.cons_prefix_cons, List.cons_prefix_cons] at h
      omega

def utf16 : Code Char Nat where
  enc := utf16EncodeChar
  ne_nil c := by
    unfold utf16EncodeChar
    split <;> exact List.cons_ne_nil _ _
  prefixFree _ _ h := utf16EncodeChar_prefix h
  width := 2
  length_le c := by
    unfold utf16EncodeChar
    split <;> simp

theorem utf16_enc (c : Char) : utf16.enc c = utf16EncodeChar c := rfl

/-- A character is one unit that is no surrogate, or a pair of surrogates. -/
theorem utf16_cases (c : Char) :
    (c.toNat < 0x10000 ∧ utf16.enc c = [c.toNat] ∧ isHigh c.toNat = false ∧
      isLow c.toNat = false) ∨
    (0x10000 ≤ c.toNat ∧ ∃ u v, utf16.enc c = [u, v] ∧ isHigh u = true ∧ isLow v = true) := by
  have hc := toNat_valid c
  rw [utf16_enc, utf16EncodeChar]
  by_cases hbmp : c.toNat < 0x10000
  · rw [if_pos hbmp]
    refine Or.inl ⟨hbmp, rfl, ?_, ?_⟩
    · simp [isHigh]
      omega
    · simp [isLow]
      omega
  · rw [if_neg hbmp]
    refine Or.inr ⟨Nat.le_of_not_lt hbmp, _, _, rfl, ?_, ?_⟩
    · simp [isHigh]
      omega
    · simp [isLow]
      omega

theorem encode_lt {cs : List Char} {u : Nat} (h : u ∈ utf16.encode cs) : u < 0x10000 := by
  obtain ⟨c, -, hu⟩ := List.mem_flatMap.mp h
  rcases utf16_cases c with ⟨hbmp, henc, -⟩ | ⟨-, v, w, henc, hv, hw⟩
  · rw [henc, List.mem_singleton] at hu
    rw [hu]
    exact hbmp
  · rw [henc, List.mem_pair] at hu
    rcases hu with rfl | rfl
    · exact isHigh_lt hv
    · exact isLow_lt hw

/-- Every surrogate is part of a pair. -/
def validUtf16 : List Nat → Bool
  | [] => true
  | [u] => !isHigh u && !isLow u
  | u :: v :: l =>
      if isHigh u then isLow v && validUtf16 l else !isLow u && validUtf16 (v :: l)

theorem validUtf16_cons {u : Nat} (hh : isHigh u = false) (hl : isLow u = false) (l : List Nat) :
    validUtf16 (u :: l) = validUtf16 l := by
  cases l with
  | nil => simp [validUtf16, hh, hl]
  | cons v l => simp [validUtf16, hh, hl]

theorem validUtf16_encode (cs : List Char) : validUtf16 (utf16.encode cs) = true := by
  induction cs with
  | nil => rfl
  | cons c cs ih =>
      rw [encode_cons]
      rcases utf16_cases c with ⟨-, henc, hhigh, hlow⟩ | ⟨-, u, v, henc, hu, hv⟩
      · rw [henc, List.singleton_append, validUtf16_cons hhigh hlow, ih]
      · rw [henc, List.cons_append, List.singleton_append, validUtf16, if_pos hu, hv, ih]
        rfl

theorem toNat_ofNat {n : Nat} (h : n.isValidChar) : (Char.ofNat n).toNat = n := by
  rw [Char.ofNat, dif_pos h]
  rfl

/-- A unit that is no surrogate. -/
theorem enc_ofNat {u : Nat} (hlt : u < 0x10000) (hh : isHigh u = false) (hl : isLow u = false) :
    utf16.enc (Char.ofNat u) = [u] := by
  simp only [isHigh, isLow, decide_eq_false_iff_not] at hh hl
  have hv : u.isValidChar := by
    unfold Nat.isValidChar
    omega
  rw [utf16_enc, utf16EncodeChar, toNat_ofNat hv, if_pos hlt]

/-- The scalar value of a surrogate pair. -/
def ofPair (u v : Nat) : Nat := 0x10000 + (u - 0xd800) * 0x400 + (v - 0xdc00)

theorem ofPair_bounds {u v : Nat} (hu : isHigh u = true) (hv : isLow v = true) :
    0x10000 ≤ ofPair u v ∧ ofPair u v < 0x110000 := by
  simp only [isHigh, isLow, decide_eq_true_eq] at hu hv
  unfold ofPair
  omega

theorem ofPair_split {u v : Nat} (hu : isHigh u = true) (hv : isLow v = true) :
    0xd800 + (ofPair u v - 0x10000) / 0x400 = u ∧
      0xdc00 + (ofPair u v - 0x10000) % 0x400 = v := by
  simp only [isHigh, isLow, decide_eq_true_eq] at hu hv
  unfold ofPair
  omega

theorem enc_ofPair {u v : Nat} (hu : isHigh u = true) (hv : isLow v = true) :
    utf16.enc (Char.ofNat (ofPair u v)) = [u, v] := by
  obtain ⟨hge, hlt⟩ := ofPair_bounds hu hv
  obtain ⟨hhi, hlo⟩ := ofPair_split hu hv
  have hvalid : (ofPair u v).isValidChar := Or.inr ⟨by omega, hlt⟩
  rw [utf16_enc, utf16EncodeChar, toNat_ofNat hvalid, if_neg (Nat.not_lt.mpr hge), hhi, hlo]

theorem exists_encode (l : List Nat) (hl : ∀ u ∈ l, u < 0x10000) (hv : validUtf16 l = true) :
    ∃ cs, l = utf16.encode cs := by
  fun_induction validUtf16 l with
  | case1 => exact ⟨[], rfl⟩
  | case2 u =>
      rw [Bool.and_eq_true, Bool.not_eq_true', Bool.not_eq_true'] at hv
      refine ⟨[Char.ofNat u], ?_⟩
      rw [encode_cons, enc_ofNat (hl u List.mem_cons_self) hv.1 hv.2]
      rfl
  | case3 u v l hu ih =>
      rw [Bool.and_eq_true] at hv
      obtain ⟨cs, hcs⟩ := ih
        (fun x hx => hl x (List.mem_cons_of_mem _ (List.mem_cons_of_mem _ hx))) hv.2
      refine ⟨Char.ofNat (ofPair u v) :: cs, ?_⟩
      rw [encode_cons, enc_ofPair hu hv.1, ← hcs]
      rfl
  | case4 u v l hu ih =>
      rw [Bool.and_eq_true, Bool.not_eq_true'] at hv
      rw [Bool.not_eq_true] at hu
      obtain ⟨cs, hcs⟩ := ih (fun x hx => hl x (List.mem_cons_of_mem _ hx)) hv.2
      refine ⟨Char.ofNat u :: cs, ?_⟩
      rw [encode_cons, enc_ofNat (hl u List.mem_cons_self) hu hv.1, ← hcs]
      rfl

theorem validUtf16_iff {l : List Nat} (hl : ∀ u ∈ l, u < 0x10000) :
    validUtf16 l = true ↔ ∃ cs, l = utf16.encode cs :=
  ⟨exists_encode l hl, fun ⟨cs, h⟩ => h ▸ validUtf16_encode cs⟩

theorem validUtf16_map {f : Nat → Nat} {l : List Nat}
    (hf : ∀ u ∈ l, isHigh (f u) = isHigh u ∧ isLow (f u) = isLow u) :
    validUtf16 (l.map f) = validUtf16 l := by
  fun_induction validUtf16 l with
  | case1 => rfl
  | case2 u =>
      obtain ⟨hh, hl⟩ := hf u List.mem_cons_self
      rw [List.map_singleton, validUtf16, hh, hl]
  | case3 u v l hu ih =>
      obtain ⟨hh, -⟩ := hf u List.mem_cons_self
      obtain ⟨-, hl⟩ := hf v (List.mem_cons_of_mem _ List.mem_cons_self)
      have hrest := ih fun x hx => hf x (List.mem_cons_of_mem _ (List.mem_cons_of_mem _ hx))
      rw [List.map_cons, List.map_cons, validUtf16, hh, hl, if_pos hu, hrest]
  | case4 u v l hu ih =>
      obtain ⟨hh, hl⟩ := hf u List.mem_cons_self
      have hrest := ih fun x hx => hf x (List.mem_cons_of_mem _ hx)
      rw [List.map_cons] at hrest
      rw [List.map_cons, List.map_cons, validUtf16, hh, hl, if_neg hu, hrest]

/-! ## What may stand at the front of a text -/

/-- The symbols that a text of UTF-16 can begin with. -/
def guessUtf16 (r : List Nat) : List Char :=
  [Char.ofNat (r.getD 0 0), Char.ofNat (ofPair (r.getD 0 0) (r.getD 1 0))]

theorem mem_guessUtf16 (c : Char) (r : List Nat) (h : utf16.enc c <+: r) : c ∈ guessUtf16 r := by
  have hc := toNat_valid c
  obtain ⟨t, rfl⟩ := h
  show c ∈ guessUtf16 (utf16EncodeChar c ++ t)
  unfold utf16EncodeChar guessUtf16
  by_cases hbmp : c.toNat < 0x10000
  · rw [if_pos hbmp]
    simp only [List.singleton_append, List.getD_cons_zero, Char.ofNat_toNat]
    exact List.mem_cons_self
  · have hpair : ofPair (0xd800 + (c.toNat - 0x10000) / 0x400)
        (0xdc00 + (c.toNat - 0x10000) % 0x400) = c.toNat := by
      unfold ofPair
      omega
    rw [if_neg hbmp]
    simp only [List.cons_append, List.nil_append, List.getD_cons_zero, List.getD_cons_succ, hpair,
      Char.ofNat_toNat]
    exact List.mem_cons_of_mem _ List.mem_cons_self

/-- The symbol that a text of UTF-8 begins with. -/
def guessUtf8 (r : List UInt8) : List Char := (ByteArray.utf8DecodeChar? r.toByteArray 0).toList

theorem mem_guessUtf8 (c : Char) (r : List UInt8) (h : utf8.enc c <+: r) : c ∈ guessUtf8 r := by
  unfold guessUtf8
  rw [decode_utf8 h]
  exact List.mem_singleton_self c

end Buildsh.Generic.Recode
