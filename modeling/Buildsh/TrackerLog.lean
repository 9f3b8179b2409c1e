/-
  `tracker.lua`: the lines of a log in UTF-16.

  `read_utf16_line` reads two bytes at a time, up to a line feed in the byte order that the first
  call has found, and `each_line` hands every line but the first to its callback, as far as
  `ucs2_to_utf8` can convert it. A file is the string of the bytes still to be read, a line the
  list of its 16-bit units, and the result of `each_line` the list of what its callback gets.

  `eachLine_text`: what was written as lines is read as these lines, except that a text without a
  byte order mark must not begin with the unit that reads like the other mark.
-/
import Mathlib.Data.List.Basic
import Buildsh.Lua

namespace Buildsh.TrackerLog

/-! ## `read_utf16_line` -/

def beBom : LuaString := [Char.ofNat 254, Char.ofNat 255]

def leBom : LuaString := [Char.ofNat 255, Char.ofNat 254]

def beLf : LuaString := [Char.ofNat 0, Char.ofNat 10]

def leLf : LuaString := [Char.ofNat 10, Char.ofNat 0]

def cr : Nat := 13

/-- `lf`, which is `le_lf` unless `is_be` is set. -/
def lineFeed (isBe : Bool) : LuaString := if isBe then beLf else leLf

/-- The unit of two bytes. -/
def toUnit (isBe : Bool) (a b : Char) : Nat :=
  if isBe then a.toNat * 256 + b.toNat else b.toNat * 256 + a.toNat

/-- The loop, each round with the `f:read( 2 )` in front of it: the units, the last `s` and the
    rest of the file. -/
def readUnits (isBe : Bool) : LuaString → List Nat → List Nat × Option LuaString × LuaString
  | [], t => (t, none, [])
  | [a], t => (t, some [a], [])
  | a :: b :: f, t =>
      if [a, b] = lineFeed isBe then (t, some [a, b], f)
      else readUnits isBe f (t ++ [toUnit isBe a b])

/-- A CR at the end is dropped. -/
def stripCr (t : List Nat) : List Nat := if t.getLast? = some cr then t.dropLast else t

/-- The byte order, and the file behind a mark. -/
def readMark (isBe : Bool) (f : LuaString) : Bool × LuaString :=
  if f.take 2 = beBom then (true, f.drop 2)
  else if f.take 2 = leBom then (false, f.drop 2)
  else (isBe, f)

/-- The line, the byte order and the rest of the file. -/
def readUtf16Line (f : LuaString) (isFirstLine isBe : Bool) :
    Option (List Nat) × Bool × LuaString :=
  let (isBe, f) := if isFirstLine then readMark isBe f else (isBe, f)
  let (t, s, f) := readUnits isBe f []
  let t := stripCr t
  (if s = some (lineFeed isBe) ∨ t ≠ [] then some t else none, isBe, f)

/-! ## `each_line` -/

section EachLine

variable (ucs2ToUtf8 : List Nat → Option LuaString)

/-- The loop of `each_line`, for at most `fuel` rounds: what `func` is called with. -/
def eachLoop (isBe : Bool) : Nat → Option (List Nat) → LuaString → Option (List LuaString)
  | 0, _, _ => none
  | _ + 1, none, _ => some []
  | fuel + 1, some line, f =>
      let (next, _, f) := readUtf16Line f false isBe
      (eachLoop isBe fuel next f).map ((ucs2ToUtf8 line).toList ++ ·)

/-- `each_line`, for a file that can be opened. -/
def eachLine (fuel : Nat) (f : LuaString) : Option (List LuaString) :=
  match readUtf16Line f true false with
  | (none, _, _) => some []
  | (some _, isBe, f) =>
      let (line, _, f) := readUtf16Line f false isBe
      eachLoop ucs2ToUtf8 isBe fuel line f

end EachLine

/-! ## Every call of `read_utf16_line` that finds a line gets on in the file -/

theorem readUnits_length (isBe : Bool) (f : LuaString) (t : List Nat) :
    (readUnits isBe f t).2.2.length ≤ f.length ∧
      (f ≠ [] → (readUnits isBe f t).2.2.length < f.length) := by
  fun_induction readUnits isBe f t with
  | case1 t => exact ⟨le_refl _, fun h => absurd rfl h⟩
  | case2 t a => exact ⟨Nat.zero_le _, fun _ => Nat.zero_lt_one⟩
  | case3 t a b f h =>
      simp only [List.length_cons]
      omega
  | case4 t a b f h ih =>
      simp only [List.length_cons]
      omega

theorem readUtf16Line_nil (isBe : Bool) : readUtf16Line [] false isBe = (none, isBe, []) := by
  cases isBe <;> rfl

theorem readUtf16Line_length {f f' : LuaString} {isBe isBe' : Bool} {t : List Nat}
    (h : readUtf16Line f false isBe = (some t, isBe', f')) : f'.length < f.length := by
  by_cases hf : f = []
  · rw [hf, readUtf16Line_nil] at h
    cases h
  · have hrest : (readUnits isBe f []).2.2 = f' := congrArg (fun r => r.2.2) h
    rw [← hrest]
    exact (readUnits_length isBe f []).2 hf

/-- The loop ends, whatever is in the file. -/
theorem eachLoop_isSome (conv : List Nat → Option LuaString) (isBe : Bool) (fuel : Nat)
    (line : Option (List Nat)) (f : LuaString) (h : f.length + 1 < fuel) :
    (eachLoop conv isBe fuel line f).isSome = true := by
  induction fuel generalizing line f with
  | zero => omega
  | succ fuel ih =>
      cases line with
      | none => rfl
      | some line =>
          rw [eachLoop]
          cases hr : readUtf16Line f false isBe with
          | mk next rest =>
              obtain ⟨isBe', f'⟩ := rest
              rw [Option.isSome_map]
              cases next with
              | none =>
                  obtain ⟨n, rfl⟩ : ∃ n, fuel = n + 1 := ⟨fuel - 1, by omega⟩
                  rfl
              | some t =>
                  have hlen := readUtf16Line_length hr
                  exact ih (some t) f' (by omega)

/-! ## Texts -/

/-- The bytes of a unit. -/
def ofUnit (isBe : Bool) (u : Nat) : LuaString :=
  if isBe then [Char.ofNat (u / 256), Char.ofNat (u % 256)]
  else [Char.ofNat (u % 256), Char.ofNat (u / 256)]

inductive Ending where
  | lf
  | crLf
  /-- the end of the file -/
  | eof
  deriving DecidableEq

def Ending.units : Ending → List Nat
  | .lf => [10]
  | .crLf => [13, 10]
  | .eof => []

structure TextLine where
  units : List Nat
  ending : Ending

/-- The units are 16-bit units other than LF, and the last one is no CR. -/
structure TextLine.Proper (x : TextLine) : Prop where
  units : ∀ u ∈ x.units, u < 65536 ∧ u ≠ 10
  last : x.units.getLast? ≠ some cr

/-- Only the last line may end with the file, and only if it is not empty. -/
def WellFormed : List TextLine → Prop
  | [] => True
  | x :: l => x.Proper ∧ (x.ending = .eof → x.units ≠ [] ∧ l = []) ∧ WellFormed l

/-- What stands at the beginning of a file. -/
inductive Mark where
  | be
  | le
  | none

def Mark.isBe : Mark → Bool
  | .be => true
  | .le | .none => false

def Mark.bytes : Mark → LuaString
  | .be => beBom
  | .le => leBom
  | .none => []

def encode (isBe : Bool) (units : List Nat) : LuaString := units.flatMap (ofUnit isBe)

def body (isBe : Bool) (l : List TextLine) : LuaString :=
  l.flatMap fun x => encode isBe (x.units ++ x.ending.units)

/-- The file. -/
def text (mark : Mark) (l : List TextLine) : LuaString := mark.bytes ++ body mark.isBe l

section Reading

variable {isBe : Bool} {u : Nat}

theorem toNat_ofNat {n : Nat} (h : n < 256) : (Char.ofNat n).toNat = n := by
  have hv : n.isValidChar := Or.inl (by omega)
  rw [Char.ofNat, dif_pos hv]
  rfl

theorem ofUnit_inj {v : Nat} (hu : u < 65536) (hv : v < 65536)
    (h : ofUnit isBe u = ofUnit isBe v) : u = v := by
  have hbytes : Char.ofNat (u / 256) = Char.ofNat (v / 256) ∧
      Char.ofNat (u % 256) = Char.ofNat (v % 256) := by
    unfold ofUnit at h
    cases isBe <;> simpa [and_comm] using h
  have hhi := congrArg Char.toNat hbytes.1
  have hlo := congrArg Char.toNat hbytes.2
  rw [toNat_ofNat (by omega), toNat_ofNat (by omega)] at hhi hlo
  omega

theorem lineFeed_eq (isBe : Bool) : lineFeed isBe = ofUnit isBe 10 := by
  cases isBe <;> rfl

theorem readUnits_ofUnit (hu : u < 65536) (hne : u ≠ 10) (f : LuaString) (t : List Nat) :
    readUnits isBe (ofUnit isBe u ++ f) t = readUnits isBe f (t ++ [u]) := by
  have hnot : ofUnit isBe u ≠ lineFeed isBe := fun h => by
    rw [lineFeed_eq] at h
    exact hne (ofUnit_inj hu (by decide) h)
  have hunit : u / 256 * 256 + u % 256 = u := by omega
  cases isBe with
  | true =>
      simp only [ofUnit, if_true, List.cons_append, List.nil_append] at hnot ⊢
      rw [readUnits, if_neg hnot, toUnit, if_pos rfl, toNat_ofNat (by omega),
        toNat_ofNat (by omega), hunit]
  | false =>
      simp only [ofUnit, Bool.false_eq_true, if_false, List.cons_append, List.nil_append] at hnot ⊢
      rw [readUnits, if_neg hnot, toUnit, if_neg Bool.false_ne_true, toNat_ofNat (by omega),
        toNat_ofNat (by omega), hunit]

theorem readUnits_encode {us : List Nat} (hus : ∀ u ∈ us, u < 65536 ∧ u ≠ 10) (f : LuaString)
    (t : List Nat) : readUnits isBe (encode isBe us ++ f) t = readUnits isBe f (t ++ us) := by
  induction us generalizing t with
  | nil => rw [List.append_nil]; rfl
  | cons u us ih =>
      obtain ⟨hu, hus⟩ := List.forall_mem_cons.mp hus
      rw [encode, List.flatMap_cons, List.append_assoc, readUnits_ofUnit hu.1 hu.2, ← encode,
        ih hus, List.append_assoc]
      rfl

theorem readUnits_lineFeed (f : LuaString) (t : List Nat) :
    readUnits isBe (ofUnit isBe 10 ++ f) t = (t, some (lineFeed isBe), f) := by
  cases isBe <;> rfl

theorem body_cons (x : TextLine) (l : List TextLine) :
    body isBe (x :: l) = encode isBe (x.units ++ x.ending.units) ++ body isBe l := rfl

theorem encode_append (us vs : List Nat) :
    encode isBe (us ++ vs) = encode isBe us ++ encode isBe vs := List.flatMap_append

theorem stripCr_of_ne {t : List Nat} (h : t.getLast? ≠ some cr) : stripCr t = t := if_neg h

theorem stripCr_concat (t : List Nat) : stripCr (t ++ [cr]) = t := by
  rw [stripCr, if_pos List.getLast?_concat, List.dropLast_concat]

/-- One line is read as it was written. -/
theorem readUtf16Line_body {x : TextLine} {l : List TextLine} (h : WellFormed (x :: l)) :
    readUtf16Line (body isBe (x :: l)) false isBe = (some x.units, isBe, body isBe l) := by
  obtain ⟨hx, heof, -⟩ := h
  obtain ⟨us, ending⟩ := x
  have hus : ∀ u ∈ us, u < 65536 ∧ u ≠ 10 := hx.units
  have hlast : us.getLast? ≠ some cr := hx.last
  unfold readUtf16Line
  rw [body_cons, encode_append, List.append_assoc]
  simp only [Bool.false_eq_true, if_false]
  cases ending with
  | lf =>
      have hread : readUnits isBe (encode isBe us ++ (encode isBe [10] ++ body isBe l)) [] =
          (us, some (lineFeed isBe), body isBe l) := by
        have hlf : encode isBe [10] = ofUnit isBe 10 := by cases isBe <;> rfl
        rw [readUnits_encode hus, hlf, readUnits_lineFeed, List.nil_append]
      simp only [Ending.units, hread, stripCr_of_ne hlast, true_or, if_true]
  | crLf =>
      have hread : readUnits isBe (encode isBe us ++ (encode isBe [13, 10] ++ body isBe l)) [] =
          (us ++ [cr], some (lineFeed isBe), body isBe l) := by
        have hcr : encode isBe [13, 10] = ofUnit isBe 13 ++ ofUnit isBe 10 := by
          cases isBe <;> rfl
        rw [readUnits_encode hus, hcr, List.append_assoc,
          readUnits_ofUnit (by decide) (by decide), readUnits_lineFeed]
        rfl
      simp only [Ending.units, hread, stripCr_concat, true_or, if_true]
  | eof =>
      obtain ⟨hne, rfl⟩ := heof rfl
      have hread : readUnits isBe (encode isBe us ++ (encode isBe [] ++ body isBe [])) [] =
          (us, none, []) := by
        rw [readUnits_encode hus]
        rfl
      have hnonempty : us ≠ [] := hne
      simp only [Ending.units, hread, stripCr_of_ne hlast, ne_eq, hnonempty, not_false_iff,
        or_true, if_true]
      rfl

end Reading

/-! ## What the callback gets -/

section Lines

variable (conv : List Nat → Option LuaString) (isBe : Bool)

/-- The loop, from the line that has just been read. -/
theorem eachLoop_body {l : List TextLine} (h : WellFormed l) {fuel : Nat}
    (hfuel : l.length < fuel) {line : Option (List Nat)} {f : LuaString}
    (hread : readUtf16Line (body isBe l) false isBe = (line, isBe, f)) :
    eachLoop conv isBe fuel line f = some ((l.map TextLine.units).filterMap conv) := by
  induction l generalizing fuel line f with
  | nil =>
      obtain ⟨n, rfl⟩ : ∃ n, fuel = n + 1 := ⟨fuel - 1, by simp at hfuel; omega⟩
      have hnone : line = none := by
        have heof := readUtf16Line_nil isBe
        rw [show body isBe [] = [] from rfl, heof] at hread
        cases hread
        rfl
      rw [hnone]
      rfl
  | cons x l ih =>
      obtain ⟨n, rfl⟩ : ∃ n, fuel = n + 1 := ⟨fuel - 1, by omega⟩
      rw [readUtf16Line_body h] at hread
      cases hread
      rw [eachLoop]
      cases hr : readUtf16Line (body isBe l) false isBe with
      | mk next rest =>
          obtain ⟨isBe', f'⟩ := rest
          have hbe : isBe' = isBe := (congrArg (fun r => r.2.1) hr).symm
          subst hbe
          dsimp only
          rw [ih h.2.2 (by simpa using hfuel) hr, Option.map_some, List.map_cons,
            List.filterMap_cons]
          cases conv x.units <;> rfl

end Lines

/-- A text that can be told from one with another mark. -/
def Recognised (mark : Mark) (l : List TextLine) : Prop :=
  mark = .none → (l.flatMap fun x => x.units ++ x.ending.units).head? ≠ some 0xfffe

theorem WellFormed.exists_unit {x : TextLine} {l : List TextLine} (h : WellFormed (x :: l)) :
    ∃ u us, x.units ++ x.ending.units = u :: us ∧ u < 65536 := by
  obtain ⟨hx, heof, -⟩ := h
  obtain ⟨units, ending⟩ := x
  cases units with
  | cons u us => exact ⟨u, _, rfl, (hx.units u List.mem_cons_self).1⟩
  | nil =>
      cases ending with
      | lf => exact ⟨10, [], rfl, by decide⟩
      | crLf => exact ⟨13, [10], rfl, by decide⟩
      | eof => exact absurd rfl (heof rfl).1

theorem take_encode (u : Nat) (us : List Nat) (f : LuaString) :
    (encode false (u :: us) ++ f).take 2 = ofUnit false u ∧
      (encode false (u :: us) ++ f).drop 2 = encode false us ++ f := ⟨rfl, rfl⟩

/-- A text without a mark is read from its start, or from behind its first unit if this reads like
    the mark. -/
theorem readMark_none {x : TextLine} {l : List TextLine} (h : WellFormed (x :: l))
    (hr : Recognised .none (x :: l)) :
    readMark false (body false (x :: l)) = (false, body false (x :: l)) ∨
      ∃ us, x.units = 0xfeff :: us ∧ readMark false (body false (x :: l)) =
        (false, encode false (us ++ x.ending.units) ++ body false l) := by
  obtain ⟨u, us, hu, hlt⟩ := h.exists_unit
  have hne : u ≠ 0xfffe := fun hbe => by
    have hhead := hr rfl
    rw [List.flatMap_cons, hu, List.cons_append, List.head?_cons, hbe] at hhead
    exact hhead rfl
  have hbe : ofUnit false u ≠ beBom := fun hb => hne (ofUnit_inj hlt (by decide) hb)
  unfold readMark
  rw [body_cons, hu, (take_encode u us _).1, (take_encode u us _).2, if_neg hbe]
  by_cases hle : ofUnit false u = leBom
  · rw [if_pos hle]
    have hfeff : u = 0xfeff := ofUnit_inj hlt (by decide) hle
    obtain ⟨units, ending⟩ := x
    cases units with
    | nil =>
        -- the first unit is that of a line end
        cases ending with
        | lf => exact absurd (List.cons.inj hu).1 (by rw [hfeff]; decide)
        | crLf => exact absurd (List.cons.inj hu).1 (by rw [hfeff]; decide)
        | eof => cases hu
    | cons v vs =>
        obtain ⟨rfl, hvs⟩ := List.cons.inj hu
        exact Or.inr ⟨vs, by rw [hfeff], by rw [← hvs]; rfl⟩
  · rw [if_neg hle]
    exact Or.inl rfl

theorem readUtf16Line_mark {f f' : LuaString} {isBe : Bool} (h : readMark false f = (isBe, f')) :
    readUtf16Line f true false = readUtf16Line f' false isBe := by
  unfold readUtf16Line
  simp only [if_true, h, Bool.false_eq_true, if_false]

/-- The first line. The call returns `nil` for it only at the end of the file. -/
theorem readUtf16Line_first (mark : Mark) {x : TextLine} {l : List TextLine}
    (h : WellFormed (x :: l)) (hr : Recognised mark (x :: l)) :
    ∃ line, readUtf16Line (text mark (x :: l)) true false = (line, mark.isBe, body mark.isBe l) ∧
      (line = none → l = []) := by
  cases mark with
  | be =>
      refine ⟨some x.units, ?_, fun hn => (by cases hn)⟩
      rw [@readUtf16Line_mark _ (body true (x :: l)) true rfl]
      exact readUtf16Line_body h
  | le =>
      refine ⟨some x.units, ?_, fun hn => (by cases hn)⟩
      rw [@readUtf16Line_mark _ (body false (x :: l)) false rfl]
      exact readUtf16Line_body h
  | none =>
      rcases readMark_none h hr with hstart | ⟨us, hx, hstart⟩
      · refine ⟨some x.units, ?_, fun hn => (by cases hn)⟩
        exact (readUtf16Line_mark hstart).trans (readUtf16Line_body h)
      · obtain ⟨hproper, heof, hrest⟩ := h
        have hfirst : readUtf16Line (text .none (x :: l)) true false =
            readUtf16Line (body false (⟨us, x.ending⟩ :: l)) false false :=
          readUtf16Line_mark hstart
        rw [hfirst]
        by_cases hempty : x.ending = .eof ∧ us = []
        · obtain ⟨he, rfl⟩ := hempty
          obtain ⟨-, rfl⟩ := heof he
          refine ⟨none, ?_, fun _ => rfl⟩
          rw [body_cons, he]
          rfl
        · have hproper' : TextLine.Proper ⟨us, x.ending⟩ := by
            refine ⟨fun u hu => hproper.units u (hx ▸ List.mem_cons_of_mem _ hu), fun hlast => ?_⟩
            have hlast' := hproper.last
            rw [hx, List.getLast?_cons, hlast] at hlast'
            exact hlast' rfl
          refine ⟨some us, readUtf16Line_body ⟨hproper', fun he => ?_, hrest⟩,
            fun hn => (by cases hn)⟩
          exact ⟨fun hus => hempty ⟨he, hus⟩, (heof he).2⟩

/-- More rounds do not change what the callback gets. -/
theorem eachLoop_mono (conv : List Nat → Option LuaString) (isBe : Bool) {n fuel : Nat}
    {line : Option (List Nat)} {f : LuaString} {calls : List LuaString} (hle : n ≤ fuel)
    (h : eachLoop conv isBe n line f = some calls) :
    eachLoop conv isBe fuel line f = some calls := by
  induction n generalizing fuel line f calls with
  | zero => cases h
  | succ n ih =>
      obtain ⟨m, rfl⟩ : ∃ m, fuel = m + 1 := ⟨fuel - 1, by omega⟩
      cases line with
      | none => exact h
      | some line =>
          rw [eachLoop] at h ⊢
          cases hr : readUtf16Line f false isBe with
          | mk next rest =>
              obtain ⟨isBe', f'⟩ := rest
              rw [hr] at h
              dsimp only at h ⊢
              obtain ⟨calls', hcalls, rfl⟩ := Option.map_eq_some_iff.mp h
              rw [ih (Nat.le_of_succ_le_succ hle) hcalls, Option.map_some]

theorem eachLine_terminates (conv : List Nat → Option LuaString) (f : LuaString) :
    ∃ n calls, ∀ fuel, n ≤ fuel → eachLine conv fuel f = some calls := by
  unfold eachLine
  cases readUtf16Line f true false with
  | mk first rest =>
      obtain ⟨isBe, f₁⟩ := rest
      cases first with
      | none => exact ⟨0, [], fun _ _ => rfl⟩
      | some first =>
          have hsome := eachLoop_isSome conv isBe
            ((readUtf16Line f₁ false isBe).2.2.length + 2) (readUtf16Line f₁ false isBe).1
            (readUtf16Line f₁ false isBe).2.2 (by omega)
          obtain ⟨calls, hcalls⟩ := Option.isSome_iff_exists.mp hsome
          exact ⟨_, calls, fun fuel hle => eachLoop_mono conv isBe hle hcalls⟩

theorem eachLine_eq (conv : List Nat → Option LuaString) (mark : Mark) {l : List TextLine}
    (h : WellFormed l) (hr : Recognised mark l) {fuel : Nat} (hfuel : l.length ≤ fuel) :
    eachLine conv fuel (text mark l) = some ((l.tail.map TextLine.units).filterMap conv) := by
  unfold eachLine
  cases l with
  | nil => cases mark <;> rfl
  | cons x l =>
      obtain ⟨line, hfirst, hnone⟩ := readUtf16Line_first mark h hr
      rw [hfirst]
      cases line with
      | none =>
          rw [hnone rfl]
          rfl
      | some first =>
          dsimp only
          cases hnext : readUtf16Line (body mark.isBe l) false mark.isBe with
          | mk next rest =>
              obtain ⟨isBe', f'⟩ := rest
              have hbe : isBe' = mark.isBe := (congrArg (fun r => r.2.1) hnext).symm
              rw [hbe] at hnext
              exact eachLoop_body conv mark.isBe h.2.2 (Nat.lt_of_succ_le hfuel) hnext

/-- **The log is decoded.** Every call of `each_line` ends, and for a text whose mark, or whose
    lack of one, is recognised, its callback gets every line but the first. -/
theorem eachLine_text (conv : List Nat → Option LuaString) :
    (∀ f, ∃ n calls, ∀ fuel, n ≤ fuel → eachLine conv fuel f = some calls) ∧
    ∀ mark l, WellFormed l → Recognised mark l → ∃ n, ∀ fuel, n ≤ fuel →
      eachLine conv fuel (text mark l) = some ((l.tail.map TextLine.units).filterMap conv) :=
  ⟨eachLine_terminates conv, fun mark l h hr => ⟨l.length, fun _ => eachLine_eq conv mark h hr⟩⟩

/-- The unit 0x0A00, an empty line and a last line without an end. -/
theorem eachLine_text_bigEndian : ∃ n, ∀ fuel, n ≤ fuel →
    eachLine (fun us => some (us.map Char.ofNat)) fuel
      (text .be [⟨[0x41], .crLf⟩, ⟨[0xa00], .crLf⟩, ⟨[], .lf⟩, ⟨[0x42], .eof⟩]) =
      some [[Char.ofNat 0xa00], [], ['B']] :=
  (eachLine_text fun us => some (us.map Char.ofNat)).2 .be _
    ⟨⟨by decide, by decide⟩, by decide, ⟨by decide, by decide⟩, by decide,
      ⟨by decide, by decide⟩, by decide, ⟨by decide, by decide⟩, by decide, trivial⟩
    fun h => Mark.noConfusion h

/-- Without a mark, a text that begins with U+FFFE is read in the other byte order. -/
theorem swapped_mark_misread :
    ¬ ∀ (conv : List Nat → Option LuaString) (mark : Mark) (l : List TextLine), WellFormed l →
      ∃ n, ∀ fuel, n ≤ fuel →
        eachLine conv fuel (text mark l) = some ((l.tail.map TextLine.units).filterMap conv) := by
  intro h
  obtain ⟨n, hn⟩ := h (fun _ => some []) .none [⟨[0xfffe], .lf⟩, ⟨[0x41], .lf⟩]
    ⟨⟨by decide, by decide⟩, by decide, ⟨by decide, by decide⟩, by decide, trivial⟩
  have hread : eachLine (fun _ => some []) (n + 1)
      (text .none [⟨[0xfffe], .lf⟩, ⟨[0x41], .lf⟩]) = some [] := rfl
  rw [hn (n + 1) (Nat.le_succ n)] at hread
  cases hread

end Buildsh.TrackerLog
