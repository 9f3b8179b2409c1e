/-
  Converting between two codes in pieces.

  A code gives every symbol a word, and no word is the beginning of another one, so a text has at
  most one reading (`Code.encode_append_inj`). A converter reads whole words of one code as long
  as input and output space last, writes the words of the other code, and reports what is left of
  both (`Converts`).

  A loop (`rounds`) hands a converter a bounded piece of the text, goes on behind what has been
  read, and gives up when the converter fails without output. Each round that does not give up
  reads at least one word (`Converts.progress`), and on a text of the first code no round gives
  up, also if a piece ends inside a word (`Converts.not_failed`). So the loop ends, with the whole
  text converted (`rounds_encode`) or with an error (`rounds_error`).
-/
import Mathlib.Data.List.Basic

namespace Buildsh.Generic.Recode

/-! ## Codes -/

structure Code (α β : Type) where
  enc : α → List β
  ne_nil : ∀ a, enc a ≠ []
  prefixFree : ∀ a b, enc a <+: enc b → a = b
  /-- the length of the longest word -/
  width : Nat
  length_le : ∀ a, (enc a).length ≤ width

section Texts

variable {α β γ : Type} (C : Code α β)

/-- The text of some symbols. -/
def Code.encode (l : List α) : List β := l.flatMap C.enc

/-- No word stands at the front. -/
def Code.Blocked (r : List β) : Prop := ∀ a, ¬ C.enc a <+: r

variable {C}

@[simp] theorem encode_nil : C.encode [] = [] := rfl

theorem encode_cons (a : α) (l : List α) : C.encode (a :: l) = C.enc a ++ C.encode l := rfl

theorem encode_append (l l' : List α) : C.encode (l ++ l') = C.encode l ++ C.encode l' :=
  List.flatMap_append

theorem encode_eq_nil_iff {l : List α} : C.encode l = [] ↔ l = [] := by
  cases l with
  | nil => simp
  | cons a l => simp [encode_cons, C.ne_nil a]

/-- Two words at the front of one text are the same. -/
theorem enc_inj_of_prefix {a b : α} {r : List β} (ha : C.enc a <+: r) (hb : C.enc b <+: r) :
    a = b := by
  rcases List.prefix_or_prefix_of_prefix ha hb with h | h
  · exact C.prefixFree a b h
  · exact (C.prefixFree b a h).symm

/-- A text behind some words of a text is the text of the symbols behind them. -/
theorem encode_append_inj {l l' : List α} {r : List β} (h : C.encode l ++ r = C.encode l') :
    ∃ m, l' = l ++ m ∧ r = C.encode m := by
  induction l generalizing l' with
  | nil => exact ⟨l', rfl, h⟩
  | cons a l ih =>
      cases l' with
      | nil =>
          rw [encode_nil, List.append_eq_nil_iff, encode_eq_nil_iff] at h
          exact absurd h.1 (List.cons_ne_nil _ _)
      | cons b l' =>
          rw [encode_cons, encode_cons, List.append_assoc] at h
          have ha : C.enc a <+: C.enc b ++ C.encode l' := ⟨_, h⟩
          have hab : a = b := enc_inj_of_prefix ha (List.prefix_append _ _)
          rw [hab] at h
          obtain ⟨m, hm, hr⟩ := ih (List.append_cancel_left h)
          exact ⟨m, by rw [hab, hm]; rfl, hr⟩

theorem encode_prefix_iff {l m : List α} : C.encode l <+: C.encode m ↔ l <+: m := by
  constructor
  · rintro ⟨r, h⟩
    obtain ⟨m', rfl, -⟩ := encode_append_inj h
    exact List.prefix_append _ _
  · rintro ⟨m', rfl⟩
    exact ⟨C.encode m', (encode_append l m').symm⟩

theorem encode_inj {l m : List α} (h : C.encode l = C.encode m) : l = m := by
  have happend : C.encode l ++ [] = C.encode m := by rw [List.append_nil, h]
  obtain ⟨m', hm, hnil⟩ := encode_append_inj happend
  rw [hm, encode_eq_nil_iff.mp hnil.symm, List.append_nil]

/-- A piece of a text with no word at its front is part of one word. -/
theorem Code.Blocked.length_lt {r t : List β} {l : List α} (hr : C.Blocked r)
    (h : r ++ t = C.encode l) (hl : l ≠ []) :
    ∃ a m, l = a :: m ∧ r <+: C.enc a ∧ r.length < (C.enc a).length := by
  obtain ⟨a, m, rfl⟩ := List.exists_cons_of_ne_nil hl
  rw [encode_cons] at h
  have hra : r <+: C.enc a ++ C.encode m := ⟨t, h⟩
  rcases List.prefix_or_prefix_of_prefix hra (List.prefix_append (C.enc a) _) with hp | hp
  · refine ⟨a, m, rfl, hp, Nat.lt_of_le_of_ne hp.length_le fun he => ?_⟩
    exact hr a (hp.eq_of_length he ▸ List.prefix_refl _)
  · exact absurd hp (hr a)

/-- A text that is long enough for a word and has none at its front is part of none. -/
theorem Code.Blocked.not_prefix {r : List β} (h : C.Blocked r) (hlong : C.width ≤ r.length)
    (a : α) : ¬ r <+: C.enc a := by
  intro hp
  have heq := hp.eq_of_length_le (Nat.le_trans (C.length_le a) hlong)
  exact h a (heq ▸ List.prefix_refl _)

end Texts

/-! ## Converters -/

inductive Status where
  | success
  /-- malformed input -/
  | invalid
  /-- the input ends inside a word -/
  | incomplete
  deriving DecidableEq

/-- What a converter returns: its status, how much of the input and of the output space is left,
    and what it has written. -/
structure Converted (γ : Type) where
  status : Status
  inLeft : Nat
  outLeft : Nat
  out : List γ

/-- Whole words have been converted, up to `rest`. -/
structure ConvertsTo {α β γ : Type} (C : Code α β) (D : Code α γ) (input : List β) (space : Nat)
    (l : List α) (rest : List β) (r : Converted γ) : Prop where
  input : input = C.encode l ++ rest
  inLeft : r.inLeft = rest.length
  out : r.out = D.encode l
  outLeft : r.out.length + r.outLeft = space
  success : r.status = .success → rest = [] ∨ r.outLeft < D.width
  invalid : r.status = .invalid → rest ≠ [] ∧ C.Blocked rest ∧ ∀ a, ¬ rest <+: C.enc a
  incomplete : r.status = .incomplete → rest ≠ [] ∧ C.Blocked rest

/-- A converter, which is given its input and the size of the space for its output. -/
def Converts {α β γ : Type} (C : Code α β) (D : Code α γ)
    (conv : List β → Nat → Converted γ) : Prop :=
  ∀ input space, ∃ l rest, ConvertsTo C D input space l rest (conv input space)

/-- The test on which a loop gives up. -/
def Converted.failed {γ : Type} (r : Converted γ) (space : Nat) : Bool :=
  r.status = .invalid ∨ r.status ≠ .success ∧ r.outLeft = space

section Rounds

variable {α β γ : Type} {C : Code α β} {D : Code α γ} {conv : List β → Nat → Converted γ}
  {text : List β} {limit space : Nat}

theorem ConvertsTo.nil_iff {input rest : List β} {l : List α} {r : Converted γ}
    (h : ConvertsTo C D input space l rest r) : r.outLeft = space ↔ l = [] := by
  have hlen := h.outLeft
  rw [h.out] at hlen
  constructor
  · intro hs
    rw [← encode_eq_nil_iff (C := D), ← List.length_eq_zero_iff]
    omega
  · rintro rfl
    rw [encode_nil, List.length_nil] at hlen
    omega

/-- A round that does not give up has converted some words at the front of the text. -/
theorem Converts.progress (hconv : Converts C D conv) (htext : text ≠ []) (hlimit : 0 < limit)
    (hspace : D.width ≤ space)
    (hok : (conv (text.take limit) space).failed space = false) :
    ∃ l, l ≠ [] ∧ (conv (text.take limit) space).out = D.encode l ∧
      text = C.encode l ++
        text.drop ((text.take limit).length - (conv (text.take limit) space).inLeft) := by
  obtain ⟨l, rest, h⟩ := hconv (text.take limit) space
  unfold Converted.failed at hok
  rw [decide_eq_false_iff_not, not_or, not_and] at hok
  refine ⟨l, fun hl => ?_, h.out, ?_⟩
  · -- nothing has been converted, so the piece was empty or there was no space
    have hs := h.nil_iff.mpr hl
    have hstatus : (conv (text.take limit) space).status = .success := by
      by_contra hne
      exact hok.2 hne hs
    rcases h.success hstatus with hrest | hlt
    · have hempty : text.take limit = [] := by rw [h.input, hl, hrest]; rfl
      rw [List.take_eq_nil_iff] at hempty
      rcases hempty with h0 | h0
      · omega
      · exact htext h0
    · omega
  · have hread : (text.take limit).length - (conv (text.take limit) space).inLeft =
        (C.encode l).length := by
      rw [h.inLeft]
      conv_lhs => rw [h.input]
      rw [List.length_append]
      omega
    have hprefix : C.encode l <+: text :=
      List.IsPrefix.trans ⟨rest, h.input.symm⟩ (List.take_prefix _ _)
    rw [hread]
    conv_lhs => rw [← List.take_append_drop (C.encode l).length text]
    rw [← List.prefix_iff_eq_take.mp hprefix]

/-- On a text of the code a round does not give up. -/
theorem Converts.not_failed (hconv : Converts C D conv) {l : List α} (htext : text = C.encode l)
    (hlimit : C.width ≤ limit) : (conv (text.take limit) space).failed space = false := by
  obtain ⟨l', rest, h⟩ := hconv (text.take limit) space
  have hread : C.encode l' ++ (rest ++ text.drop limit) = C.encode l := by
    rw [← List.append_assoc, ← h.input, List.take_append_drop, htext]
  obtain ⟨m, -, hm⟩ := encode_append_inj hread
  have hword : rest ≠ [] → C.Blocked rest →
      ∃ a m', m = a :: m' ∧ rest <+: C.enc a ∧ rest.length < (C.enc a).length := by
    intro hne hblocked
    refine hblocked.length_lt hm ?_
    rintro rfl
    exact hne (List.append_eq_nil_iff.mp hm).1
  unfold Converted.failed
  rw [decide_eq_false_iff_not, not_or, not_and]
  refine ⟨fun hinvalid => ?_, fun hne hs => ?_⟩
  · obtain ⟨hrest, hblocked, hnot⟩ := h.invalid hinvalid
    obtain ⟨a, -, -, hp, -⟩ := hword hrest hblocked
    exact hnot a hp
  · cases hstatus : (conv (text.take limit) space).status with
    | success => exact hne hstatus
    | invalid =>
        obtain ⟨hrest, hblocked, hnot⟩ := h.invalid hstatus
        obtain ⟨a, -, -, hp, -⟩ := hword hrest hblocked
        exact hnot a hp
    | incomplete =>
        obtain ⟨hrest, hblocked⟩ := h.incomplete hstatus
        obtain ⟨a, m', hcons, -, hlt⟩ := hword hrest hblocked
        -- the piece is shorter than a word, so nothing of the text is behind it
        obtain rfl := h.nil_iff.mp hs
        have hpiece : text.take limit = rest := h.input
        have hlen : (text.take limit).length < limit := by
          rw [hpiece]
          exact Nat.lt_of_lt_of_le hlt (Nat.le_trans (C.length_le a) hlimit)
        rw [List.length_take] at hlen
        have hdrop : text.drop limit = [] := List.drop_eq_nil_of_le (by omega)
        rw [hdrop, List.append_nil, hcons, encode_cons] at hm
        exact hblocked a ⟨_, hm.symm⟩

end Rounds

/-! ## A loop over a text -/

section Loop

variable {α β γ δ : Type} (conv : List β → Nat → Converted γ) (space len : Nat)
  (piece : Nat → List β) (emit : Nat → List γ → List δ → Option (Except Status (List δ)))

/-- Until `done` is the end of the text, a piece of what is left is converted, `emit` takes the
    output, and `done` moves behind the input that has been read. At most `fuel` rounds. -/
def rounds : Nat → Nat → List δ → Option (Except Status (List δ))
  | 0, _, _ => none
  | fuel + 1, done, out =>
      if done < len then
        let r := conv (piece done) space
        if r.failed space then some (.error r.status)
        else
          match emit fuel (r.out.take (space - r.outLeft)) out with
          | some (.ok out) => rounds fuel (done + ((piece done).length - r.inLeft)) out
          | stopped => stopped
      else some (.ok out)

/-- `F` of the symbols is what `emit` makes of their text, if it gets the fuel it needs. -/
structure Emits (D : Code α γ) (space need : Nat)
    (emit : Nat → List γ → List δ → Option (Except Status (List δ))) (F : List α → List δ) :
    Prop where
  nil : F [] = []
  append : ∀ l m, F (l ++ m) = F l ++ F m
  emit : ∀ l out fuel, (D.encode l).length ≤ space → need ≤ fuel →
    emit fuel (D.encode l) out = some (.ok (out ++ F l))

variable {conv space piece emit} {C : Code α β} {D : Code α γ} {text : List β}
  {limit need : Nat} {F : List α → List δ}

/-- A round that does not give up. -/
theorem rounds_step (hconv : Converts C D conv) (hspace : D.width ≤ space)
    (hpiece : ∀ done, piece done = (text.drop done).take limit) (hlimit : 0 < limit)
    (hemit : Emits D space need emit F) {done : Nat} (hdone : done < text.length)
    (hok : (conv (piece done) space).failed space = false) :
    ∃ l done', text.drop done = C.encode l ++ text.drop done' ∧ done < done' ∧
      done' ≤ text.length ∧ ∀ fuel out, need ≤ fuel →
        rounds conv space text.length piece emit (fuel + 1) done out =
          rounds conv space text.length piece emit fuel done' (out ++ F l) := by
  have hne : text.drop done ≠ [] := by
    rw [ne_eq, List.drop_eq_nil_iff]
    omega
  have hread : (piece done).length ≤ text.length - done := by
    rw [hpiece, List.length_take, List.length_drop]
    exact Nat.min_le_right _ _
  obtain ⟨l', rest, hto⟩ := hconv (piece done) space
  have hwritten : (conv (piece done) space).out.take
      (space - (conv (piece done) space).outLeft) = (conv (piece done) space).out :=
    List.take_of_length_le (by have := hto.outLeft; omega)
  have hroom : (conv (piece done) space).out.length ≤ space := by
    have := hto.outLeft
    omega
  rw [hpiece] at hok
  obtain ⟨l, hl, hout, hsplit⟩ := hconv.progress hne hlimit hspace hok
  rw [← hpiece] at hout hsplit
  rw [List.drop_drop] at hsplit
  have hlen := congrArg List.length hsplit
  rw [List.length_append, List.length_drop, List.length_drop] at hlen
  have hpos : 0 < (C.encode l).length :=
    List.length_pos_of_ne_nil fun h => hl (encode_eq_nil_iff.mp h)
  refine ⟨l, _, hsplit, by omega, by omega, fun fuel out hneed => ?_⟩
  rw [← hpiece] at hok
  rw [rounds, if_pos hdone]
  simp only [hok, Bool.false_eq_true, if_false]
  rw [hwritten, hout, hemit.emit l out fuel (hout ▸ hroom) hneed]

/-- On a text of the code the loop ends with what `emit` makes of its symbols. -/
theorem rounds_encode (hconv : Converts C D conv) (hspace : D.width ≤ space)
    (hpiece : ∀ done, piece done = (text.drop done).take limit) (hlimit : 0 < limit)
    (hwidth : C.width ≤ limit) (hemit : Emits D space need emit F) {m : List α} {done : Nat}
    (hdone : done ≤ text.length) (htext : text.drop done = C.encode m) {fuel : Nat}
    (hfuel : text.length - done + need < fuel) (out : List δ) :
    rounds conv space text.length piece emit fuel done out = some (.ok (out ++ F m)) := by
  induction fuel generalizing done m out with
  | zero => omega
  | succ fuel ih =>
      by_cases hlt : done < text.length
      · have hok : (conv (piece done) space).failed space = false := by
          rw [hpiece]
          exact hconv.not_failed htext hwidth
        obtain ⟨l, done', hsplit, hmore, hle, hround⟩ :=
          rounds_step hconv hspace hpiece hlimit hemit hlt hok
        rw [htext] at hsplit
        obtain ⟨m', rfl, hrest⟩ := encode_append_inj hsplit.symm
        rw [hround fuel out (by omega), ih hle hrest (by omega), hemit.append, List.append_assoc]
      · rw [List.drop_eq_nil_of_le (by omega)] at htext
        obtain rfl : m = [] := encode_eq_nil_iff.mp htext.symm
        rw [rounds, if_neg hlt, hemit.nil, List.append_nil]

/-- On any other text it gives up. -/
theorem rounds_error (hconv : Converts C D conv) (hspace : D.width ≤ space)
    (hpiece : ∀ done, piece done = (text.drop done).take limit) (hlimit : 0 < limit)
    (hemit : Emits D space need emit F) {done : Nat} (hdone : done ≤ text.length)
    (htext : ∀ m, text.drop done ≠ C.encode m) :
    ∃ status, ∀ fuel out, text.length - done + need < fuel →
      rounds conv space text.length piece emit fuel done out = some (.error status) := by
  induction hk : text.length - done using Nat.strongRecOn generalizing done with
  | ind k ih =>
      have hlt : done < text.length := by
        by_contra hge
        exact htext [] (List.drop_eq_nil_of_le (by omega))
      cases hok : (conv (piece done) space).failed space with
      | true =>
          refine ⟨(conv (piece done) space).status, fun fuel out hfuel => ?_⟩
          obtain ⟨n, rfl⟩ : ∃ n, fuel = n + 1 := ⟨fuel - 1, by omega⟩
          rw [rounds, if_pos hlt]
          simp only [hok, if_true]
      | false =>
          obtain ⟨l, done', hsplit, hmore, hle, hround⟩ :=
            rounds_step hconv hspace hpiece hlimit hemit hlt hok
          have hrest : ∀ m, text.drop done' ≠ C.encode m := fun m hm =>
            htext (l ++ m) (by rw [hsplit, hm, encode_append])
          obtain ⟨status, hstatus⟩ := ih (text.length - done') (by omega) hle hrest rfl
          refine ⟨status, fun fuel out hfuel => ?_⟩
          obtain ⟨n, rfl⟩ : ∃ n, fuel = n + 1 := ⟨fuel - 1, by omega⟩
          rw [hround n out (by omega)]
          exact hstatus n _ (by omega)

end Loop

/-! ## A converter -/

section Outcomes

variable {α β γ : Type} {C : Code α β} {D : Code α γ}

theorem convertsTo_nil {input : List β} {space : Nat} {status : Status}
    (hsuccess : status = .success → input = [] ∨ space < D.width)
    (hinvalid : status = .invalid → input ≠ [] ∧ C.Blocked input ∧ ∀ a, ¬ input <+: C.enc a)
    (hincomplete : status = .incomplete → input ≠ [] ∧ C.Blocked input) :
    ConvertsTo C D input space [] input ⟨status, input.length, space, []⟩ :=
  ⟨rfl, rfl, rfl, Nat.zero_add _, hsuccess, hinvalid, hincomplete⟩

theorem ConvertsTo.cons {input rest : List β} {space : Nat} {l : List α} {r : Converted γ} (a : α)
    (hspace : (D.enc a).length ≤ space)
    (h : ConvertsTo C D input (space - (D.enc a).length) l rest r) :
    ConvertsTo C D (C.enc a ++ input) space (a :: l) rest { r with out := D.enc a ++ r.out } := by
  refine ⟨?_, h.inLeft, ?_, ?_, h.success, h.invalid, h.incomplete⟩
  · rw [h.input, encode_cons, List.append_assoc]
  · rw [encode_cons, ← h.out]
  · have hlen := h.outLeft
    show (D.enc a ++ r.out).length + r.outLeft = space
    rw [List.length_append]
    omega

end Outcomes

section Greedy

variable {α β γ : Type} [DecidableEq β] (C : Code α β) (D : Code α γ) (guess : List β → List α)

/-- The symbol whose word stands at the front of a text, if it is among those that are tried. -/
def readSymbol (r : List β) : Option α := (guess r).find? fun a => (C.enc a).isPrefixOf r

/-- Word by word, for at most `fuel` words. -/
def greedy : Nat → List β → Nat → Converted γ
  | 0, input, space => ⟨.success, input.length, space, []⟩
  | fuel + 1, input, space =>
      if input = [] then ⟨.success, 0, space, []⟩
      else
        match readSymbol C guess input with
        | none =>
            ⟨if input.length < C.width then .incomplete else .invalid, input.length, space, []⟩
        | some a =>
            if (D.enc a).length ≤ space then
              let r := greedy fuel (input.drop (C.enc a).length) (space - (D.enc a).length)
              { r with out := D.enc a ++ r.out }
            else ⟨.success, input.length, space, []⟩

variable {C D guess}

theorem readSymbol_some {r : List β} {a : α} (h : readSymbol C guess r = some a) :
    C.enc a <+: r :=
  List.isPrefixOf_iff_prefix.mp
    (List.find?_some (p := fun a => (C.enc a).isPrefixOf r) h)

theorem blocked_of_readSymbol (hguess : ∀ a r, C.enc a <+: r → a ∈ guess r) {r : List β}
    (h : readSymbol C guess r = none) : C.Blocked r := by
  intro a ha
  exact List.find?_eq_none.mp h a (hguess a r ha) (List.isPrefixOf_iff_prefix.mpr ha)

/-- Trying every symbol that may be there makes a converter. -/
theorem converts_greedy (hguess : ∀ a r, C.enc a <+: r → a ∈ guess r) :
    Converts C D fun input space => greedy C D guess input.length input space := by
  have hfuel : ∀ fuel input space, input.length ≤ fuel →
      ∃ l rest, ConvertsTo C D input space l rest (greedy C D guess fuel input space) := by
    intro fuel
    induction fuel with
    | zero =>
        intro input space hlen
        have hnil : input = [] := List.eq_nil_of_length_eq_zero (Nat.le_zero.mp hlen)
        exact ⟨[], input, convertsTo_nil (fun _ => Or.inl hnil) (fun h => by cases h)
          fun h => by cases h⟩
    | succ fuel ih =>
        intro input space hlen
        rw [greedy]
        by_cases hnil : input = []
        · rw [if_pos hnil, hnil]
          exact ⟨[], [], convertsTo_nil (fun _ => Or.inl rfl) (fun h => by cases h)
            fun h => by cases h⟩
        · rw [if_neg hnil]
          cases hread : readSymbol C guess input with
          | none =>
              have hblocked := blocked_of_readSymbol hguess hread
              refine ⟨[], input, convertsTo_nil (fun h => ?_) (fun h => ⟨hnil, hblocked, ?_⟩)
                fun _ => ⟨hnil, hblocked⟩⟩
              · split at h <;> cases h
              · split at h
                · cases h
                · rename_i hlong
                  exact hblocked.not_prefix (Nat.le_of_not_lt hlong)
          | some a =>
              obtain ⟨t, rfl⟩ := readSymbol_some hread
              dsimp only
              by_cases hspace : (D.enc a).length ≤ space
              · rw [if_pos hspace, List.drop_left]
                have hlt := List.length_pos_of_ne_nil (C.ne_nil a)
                rw [List.length_append] at hlen
                obtain ⟨l, rest, h⟩ := ih t (space - (D.enc a).length) (by omega)
                exact ⟨a :: l, rest, h.cons a hspace⟩
              · rw [if_neg hspace]
                refine ⟨[], _, convertsTo_nil (fun _ => Or.inr ?_) (fun h => by cases h)
                  fun h => by cases h⟩
                exact Nat.lt_of_lt_of_le (Nat.lt_of_not_le hspace) (D.length_le a)
  exact fun input space => hfuel input.length input space (Nat.le_refl _)

end Greedy

end Buildsh.Generic.Recode
