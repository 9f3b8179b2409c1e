/-
  `ape_extra.c`: the two conversions of the Windows build that fold case.

  `ucs2_to_utf8` folds the 16-bit units of a logged line and encodes them in UTF-8, and `wupper`
  folds the start directory, a string in UTF-8, by way of UTF-16. Both convert through buffers, of
  256 units and of `LUAL_BUFFERSIZE` bytes, whose ends may fall inside a character, and `get_path`
  compares what they return. `towupper`, the two converters of APR and `LUAL_BUFFERSIZE` are
  parameters; an error stands for the `nil` and the message of `ape_status`.
-/
import Mathlib.Data.List.Basic
import Buildsh.Generic.Unicode

namespace Buildsh.Wide
open Buildsh.Generic.Recode

section Conversions

variable (towupper : Nat → Nat) (ucs2ToUtf8 : List Nat → Nat → Converted UInt8)
  (utf8ToUcs2 : List UInt8 → Nat → Converted Nat) (bufferSize : Nat)

/-- The conversion to `wchar_t`. -/
def toWchar (n : Nat) : Nat := n % 0x10000

def upper (n : Nat) : Nat := toWchar (towupper (toWchar n))

/-- `luaL_addsize`. -/
def addSize (o outbuf : List UInt8) : Option (Except Status (List UInt8)) :=
  some (.ok (outbuf ++ o))

/-- `ape_extra_ucs2_to_utf8`. -/
def apeExtraUcs2ToUtf8 (fuel : Nat) (t : List Nat) : Option (Except Status (List UInt8)) :=
  if 0 < t.length then
    rounds ucs2ToUtf8 bufferSize t.length
      (fun done => ((t.drop done).take 256).map (upper towupper)) (fun _ => addSize) fuel 0 []
  else some (.ok [])

/-- The inner loop of `ape_extra_wupper`, which converts the units back. -/
def backToUtf8 (fuel : Nat) (wcbuf : List Nat) (outbuf : List UInt8) :
    Option (Except Status (List UInt8)) :=
  rounds ucs2ToUtf8 bufferSize wcbuf.length (fun k => wcbuf.drop k) (fun _ => addSize) fuel 0
    outbuf

/-- `ape_extra_wupper`. -/
def apeExtraWupper (fuel : Nat) (s : List UInt8) : Option (Except Status (List UInt8)) :=
  if 0 < s.length then
    rounds utf8ToUcs2 256 s.length (fun done => s.drop done)
      (fun fuel wcbuf => backToUtf8 ucs2ToUtf8 bufferSize fuel (wcbuf.map (upper towupper)))
      fuel 0 []
  else some (.ok [])

/-- What is known of `towupper`, of the converters and of the size of the buffer. -/
structure Platform : Prop where
  surrogate : ∀ u, isHigh u = true ∨ isLow u = true → towupper u = u
  bmp : ∀ u, u < 0x10000 → isHigh u = false → isLow u = false →
    towupper u < 0x10000 ∧ isHigh (towupper u) = false ∧ isLow (towupper u) = false
  toUtf8 : Converts utf16 utf8 ucs2ToUtf8
  toUcs2 : Converts utf8 utf16 utf8ToUcs2
  /-- one character fits -/
  room : utf8.width ≤ bufferSize

end Conversions

/-! ## Folding a text -/

section Folding

variable {towupper : Nat → Nat} {ucs2ToUtf8 : List Nat → Nat → Converted UInt8}
  {utf8ToUcs2 : List UInt8 → Nat → Converted Nat} {bufferSize : Nat}

theorem upper_spec (h : Platform towupper ucs2ToUtf8 utf8ToUcs2 bufferSize) {u : Nat}
    (hu : u < 0x10000) :
    upper towupper u = towupper u ∧ towupper u < 0x10000 ∧
      isHigh (towupper u) = isHigh u ∧ isLow (towupper u) = isLow u := by
  have hfold : towupper u < 0x10000 ∧ isHigh (towupper u) = isHigh u ∧
      isLow (towupper u) = isLow u := by
    by_cases hs : isHigh u = true ∨ isLow u = true
    · rw [h.surrogate u hs]
      exact ⟨hu, rfl, rfl⟩
    · rw [not_or, Bool.not_eq_true, Bool.not_eq_true] at hs
      obtain ⟨hlt, hhigh, hlow⟩ := h.bmp u hu hs.1 hs.2
      rw [hhigh, hlow, hs.1, hs.2]
      exact ⟨hlt, rfl, rfl⟩
  refine ⟨?_, hfold⟩
  unfold upper toWchar
  rw [Nat.mod_eq_of_lt hu, Nat.mod_eq_of_lt hfold.1]

theorem map_upper (h : Platform towupper ucs2ToUtf8 utf8ToUcs2 bufferSize) {t : List Nat}
    (ht : ∀ u ∈ t, u < 0x10000) : t.map (upper towupper) = t.map towupper :=
  List.map_congr_left fun u hu => (upper_spec h (ht u hu)).1

/-- Folding keeps a text valid, and an invalid one invalid. -/
theorem map_towupper_iff (h : Platform towupper ucs2ToUtf8 utf8ToUcs2 bufferSize) {t : List Nat}
    (ht : ∀ u ∈ t, u < 0x10000) :
    (∃ cs, t.map towupper = utf16.encode cs) ↔ ∃ cs, t = utf16.encode cs := by
  have hmap : ∀ u ∈ t.map towupper, u < 0x10000 := by
    intro u hu
    obtain ⟨v, hv, rfl⟩ := List.mem_map.mp hu
    exact (upper_spec h (ht v hv)).2.1
  rw [← validUtf16_iff ht, ← validUtf16_iff hmap,
    validUtf16_map fun u hu => (upper_spec h (ht u hu)).2.2]

/-- A character, folded. -/
def foldChar (towupper : Nat → Nat) (c : Char) : Char :=
  if c.toNat < 0x10000 then Char.ofNat (towupper c.toNat) else c

theorem map_enc (h : Platform towupper ucs2ToUtf8 utf8ToUcs2 bufferSize) (c : Char) :
    (utf16.enc c).map (upper towupper) = utf16.enc (foldChar towupper c) := by
  rcases utf16_cases c with ⟨hbmp, henc, hhigh, hlow⟩ | ⟨hbig, u, v, henc, hu, hv⟩
  · obtain ⟨hup, hlt, hhigh', hlow'⟩ := upper_spec h hbmp
    rw [foldChar, if_pos hbmp, henc, List.map_singleton, hup,
      enc_ofNat hlt (hhigh'.trans hhigh) (hlow'.trans hlow)]
  · have hu' := (upper_spec h (isHigh_lt hu)).1.trans (h.surrogate u (Or.inl hu))
    have hv' := (upper_spec h (isLow_lt hv)).1.trans (h.surrogate v (Or.inr hv))
    rw [foldChar, if_neg (Nat.not_lt.mpr hbig), henc, List.map_cons, List.map_singleton, hu', hv']

theorem map_encode (h : Platform towupper ucs2ToUtf8 utf8ToUcs2 bufferSize) (cs : List Char) :
    (utf16.encode cs).map (upper towupper) = utf16.encode (cs.map (foldChar towupper)) := by
  induction cs with
  | nil => rfl
  | cons c cs ih => rw [encode_cons, List.map_append, map_enc h, ih, List.map_cons, encode_cons]

theorem length_encode_folded (h : Platform towupper ucs2ToUtf8 utf8ToUcs2 bufferSize)
    (cs : List Char) :
    (utf16.encode (cs.map (foldChar towupper))).length = (utf16.encode cs).length := by
  rw [← map_encode h, List.length_map]

end Folding

/-! ## The two conversions -/

section Agreement

variable {towupper : Nat → Nat} {ucs2ToUtf8 : List Nat → Nat → Converted UInt8}
  {utf8ToUcs2 : List UInt8 → Nat → Converted Nat} {bufferSize : Nat}

/-- The loop also covers the case in which there is nothing to convert. -/
theorem rounds_empty {β γ : Type} {conv : List β → Nat → Converted γ} {space len fuel : Nat}
    {piece : Nat → List β} {emit : Nat → List γ → List UInt8 → Option (Except Status (List UInt8))}
    (hfuel : 0 < fuel) :
    (if 0 < len then rounds conv space len piece emit fuel 0 [] else some (.ok [])) =
      rounds conv space len piece emit fuel 0 [] := by
  by_cases hlen : 0 < len
  · rw [if_pos hlen]
  · obtain ⟨n, rfl⟩ : ∃ n, fuel = n + 1 := ⟨fuel - 1, by omega⟩
    rw [if_neg hlen, rounds, if_neg hlen]

theorem emits_addSize : Emits utf8 bufferSize 0 (fun _ => addSize) utf8.encode :=
  ⟨rfl, encode_append, fun _ _ _ _ _ => rfl⟩

/-- What is left, as a piece. -/
theorem drop_eq_take {β : Type} (t : List β) (n k : Nat) :
    t.drop k = (t.drop k).take (t.length + n) :=
  (List.take_of_length_le (by rw [List.length_drop]; omega)).symm

/-- The loop of `ucs2_to_utf8` is a loop over the folded units. -/
theorem apeExtraUcs2ToUtf8_eq (t : List Nat) {fuel : Nat} (hfuel : 0 < fuel) :
    apeExtraUcs2ToUtf8 towupper ucs2ToUtf8 bufferSize fuel t =
      rounds ucs2ToUtf8 bufferSize (t.map (upper towupper)).length
        (fun done => ((t.map (upper towupper)).drop done).take 256) (fun _ => addSize) fuel 0
        [] := by
  unfold apeExtraUcs2ToUtf8
  rw [rounds_empty hfuel, List.length_map]
  simp only [← List.map_drop, ← List.map_take]

theorem apeExtraUcs2ToUtf8_encode
    (h : Platform towupper ucs2ToUtf8 utf8ToUcs2 bufferSize) (cs : List Char) {fuel : Nat}
    (hfuel : (utf16.encode cs).length < fuel) :
    apeExtraUcs2ToUtf8 towupper ucs2ToUtf8 bufferSize fuel (utf16.encode cs) =
      some (.ok (utf8.encode (cs.map (foldChar towupper)))) := by
  rw [apeExtraUcs2ToUtf8_eq _ (Nat.zero_lt_of_lt hfuel), map_encode h]
  refine rounds_encode h.toUtf8 h.room (fun _ => rfl) (by decide) (by decide) emits_addSize
    (Nat.zero_le _) List.drop_zero ?_ []
  rw [length_encode_folded h]
  omega

theorem apeExtraUcs2ToUtf8_error
    (h : Platform towupper ucs2ToUtf8 utf8ToUcs2 bufferSize) {t : List Nat}
    (ht : ∀ u ∈ t, u < 0x10000) (hinvalid : ¬ ∃ cs, t = utf16.encode cs) :
    ∃ status, ∀ fuel, t.length < fuel →
      apeExtraUcs2ToUtf8 towupper ucs2ToUtf8 bufferSize fuel t = some (.error status) := by
  have hfolded : ∀ cs, (t.map (upper towupper)).drop 0 ≠ utf16.encode cs := by
    rw [map_upper h ht]
    exact fun cs hcs => hinvalid ((map_towupper_iff h ht).mp ⟨cs, hcs⟩)
  obtain ⟨status, hstatus⟩ := rounds_error h.toUtf8 h.room
    (fun done => @rfl _ (((t.map (upper towupper)).drop done).take 256)) (by decide) emits_addSize
    (Nat.zero_le _) hfolded
  refine ⟨status, fun fuel hfuel => ?_⟩
  rw [apeExtraUcs2ToUtf8_eq t (Nat.zero_lt_of_lt hfuel)]
  refine hstatus fuel [] ?_
  rw [List.length_map]
  omega

theorem backToUtf8_encode (h : Platform towupper ucs2ToUtf8 utf8ToUcs2 bufferSize)
    (cs : List Char) {fuel : Nat} (hfuel : (utf16.encode cs).length < fuel) (outbuf : List UInt8) :
    backToUtf8 ucs2ToUtf8 bufferSize fuel (utf16.encode cs) outbuf =
      some (.ok (outbuf ++ utf8.encode cs)) := by
  have hpos : utf16.width ≤ (utf16.encode cs).length + 2 := Nat.le_add_left _ _
  exact rounds_encode h.toUtf8 h.room (drop_eq_take _ 2) (Nat.succ_pos _) hpos emits_addSize
    (Nat.zero_le _) List.drop_zero (by omega) outbuf

/-- What `wupper` does with a full buffer. -/
theorem emits_backToUtf8 (h : Platform towupper ucs2ToUtf8 utf8ToUcs2 bufferSize) :
    Emits utf16 256 257
      (fun fuel wcbuf => backToUtf8 ucs2ToUtf8 bufferSize fuel (wcbuf.map (upper towupper)))
      (fun cs => utf8.encode (cs.map (foldChar towupper))) where
  nil := rfl
  append l m := by rw [List.map_append, encode_append]
  emit cs out fuel hlen hfuel := by
    rw [map_encode h]
    refine backToUtf8_encode h _ ?_ out
    rw [length_encode_folded h]
    omega

theorem apeExtraWupper_encode (h : Platform towupper ucs2ToUtf8 utf8ToUcs2 bufferSize)
    (cs : List Char) {fuel : Nat} (hfuel : (utf8.encode cs).length + 257 < fuel) :
    apeExtraWupper towupper ucs2ToUtf8 utf8ToUcs2 bufferSize fuel (utf8.encode cs) =
      some (.ok (utf8.encode (cs.map (foldChar towupper)))) := by
  have hpos : utf8.width ≤ (utf8.encode cs).length + 4 := Nat.le_add_left _ _
  unfold apeExtraWupper
  rw [rounds_empty (Nat.zero_lt_of_lt hfuel)]
  exact rounds_encode h.toUcs2 (by decide) (drop_eq_take _ 4) (Nat.succ_pos _) hpos
    (emits_backToUtf8 h) (Nat.zero_le _) List.drop_zero (by omega) []

/-- **The conversions agree.** For a valid text both end with the folded text in UTF-8, for an
    invalid one `ucs2_to_utf8` ends with an error, and the test in `get_path` finds out whether
    the folded units of the directory are the beginning of those of the path. -/
theorem conversions_agree (h : Platform towupper ucs2ToUtf8 utf8ToUcs2 bufferSize)
    (t : List Nat) (ht : ∀ u ∈ t, u < 0x10000) :
    (∀ cs, t = utf16.encode cs → ∃ cs', t.map towupper = utf16.encode cs' ∧
      ∃ n, ∀ fuel, n ≤ fuel →
        apeExtraUcs2ToUtf8 towupper ucs2ToUtf8 bufferSize fuel t =
          some (.ok (utf8.encode cs')) ∧
        apeExtraWupper towupper ucs2ToUtf8 utf8ToUcs2 bufferSize fuel (utf8.encode cs) =
          some (.ok (utf8.encode cs'))) ∧
    ((¬ ∃ cs, t = utf16.encode cs) → ∃ status n, ∀ fuel, n ≤ fuel →
      apeExtraUcs2ToUtf8 towupper ucs2ToUtf8 bufferSize fuel t = some (.error status)) ∧
    ∀ cs cwd, t = utf16.encode cs → ∃ p mycwd n, (∀ fuel, n ≤ fuel →
        apeExtraUcs2ToUtf8 towupper ucs2ToUtf8 bufferSize fuel t = some (.ok p) ∧
        apeExtraWupper towupper ucs2ToUtf8 utf8ToUcs2 bufferSize fuel (utf8.encode cwd) =
          some (.ok mycwd)) ∧
      ((mycwd.length ≤ p.length ∧ p.take mycwd.length = mycwd) ↔
        (utf16.encode cwd).map towupper <+: t.map towupper) := by
  have hmap : ∀ cs, (utf16.encode cs).map towupper =
      utf16.encode (cs.map (foldChar towupper)) := fun cs => by
    rw [← map_upper h fun _ => encode_lt, map_encode h]
  refine ⟨?_, fun hinvalid => ?_, ?_⟩
  · rintro cs rfl
    refine ⟨_, hmap cs, (utf16.encode cs).length + (utf8.encode cs).length + 258, ?_⟩
    intro fuel hfuel
    exact ⟨apeExtraUcs2ToUtf8_encode h cs (by omega), apeExtraWupper_encode h cs (by omega)⟩
  · obtain ⟨status, hstatus⟩ := apeExtraUcs2ToUtf8_error h ht hinvalid
    exact ⟨status, t.length + 1, hstatus⟩
  · rintro cs cwd rfl
    refine ⟨_, _, (utf16.encode cs).length + (utf8.encode cwd).length + 258, fun fuel hfuel =>
      ⟨apeExtraUcs2ToUtf8_encode h cs (by omega), apeExtraWupper_encode h cwd (by omega)⟩, ?_⟩
    rw [hmap, hmap, encode_prefix_iff, ← encode_prefix_iff (C := utf8)]
    exact ⟨fun hcmp => List.prefix_iff_eq_take.mpr hcmp.2.symm,
      fun hp => ⟨hp.length_le, (List.prefix_iff_eq_take.mp hp).symm⟩⟩

end Agreement

/-- `towupper` of the C locale. -/
def asciiUpper (u : Nat) : Nat := if 0x61 ≤ u ∧ u ≤ 0x7a then u - 0x20 else u

theorem platform_ascii : Platform asciiUpper
    (fun input space => greedy utf16 utf8 guessUtf16 input.length input space)
    (fun input space => greedy utf8 utf16 guessUtf8 input.length input space) 512 where
  surrogate u hu := by
    simp only [isHigh, isLow, decide_eq_true_eq] at hu
    unfold asciiUpper
    rw [if_neg (by omega)]
  bmp u hu hhigh hlow := by
    simp only [isHigh, isLow, decide_eq_false_iff_not] at hhigh hlow ⊢
    unfold asciiUpper
    split <;> omega
  toUtf8 := converts_greedy mem_guessUtf16
  toUcs2 := converts_greedy mem_guessUtf8
  room := by decide

/-- A letter and a pair of surrogates. -/
theorem conversions_agree_pair : ∃ n, ∀ fuel, n ≤ fuel →
    apeExtraUcs2ToUtf8 asciiUpper
      (fun input space => greedy utf16 utf8 guessUtf16 input.length input space) 512 fuel
      [0x61, 0xd83d, 0xde00] = some (.ok [0x41, 0xf0, 0x9f, 0x98, 0x80]) ∧
    apeExtraWupper asciiUpper
      (fun input space => greedy utf16 utf8 guessUtf16 input.length input space)
      (fun input space => greedy utf8 utf16 guessUtf8 input.length input space) 512 fuel
      [0x61, 0xf0, 0x9f, 0x98, 0x80] = some (.ok [0x41, 0xf0, 0x9f, 0x98, 0x80]) := by
  obtain ⟨cs, hcs, n, hn⟩ := (conversions_agree platform_ascii [0x61, 0xd83d, 0xde00]
    (by decide)).1 [Char.ofNat 0x61, Char.ofNat 0x1f600] rfl
  have hupper : [0x61, 0xd83d, 0xde00].map asciiUpper =
      utf16.encode [Char.ofNat 0x41, Char.ofNat 0x1f600] := rfl
  obtain rfl : [Char.ofNat 0x41, Char.ofNat 0x1f600] = cs := encode_inj (hupper.symm.trans hcs)
  exact ⟨n, hn⟩

end Buildsh.Wide
