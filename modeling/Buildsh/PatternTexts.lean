/-
  Texts of patterns.

  `readItems` reads the text of a pattern as a list of items, if it has no captures inside each
  other, no position captures, and none of `%b`, `%f` and `%1`. `doMatch_items`: on such a text
  `match` does what `matchItems` does with the items, captures and failures included.
  `strFindAux_items` and `strGsub_items` are `string.match` and `string.gsub` on it.
-/
import Buildsh.Matching

namespace Buildsh.PatternTexts
open Buildsh.Generic Buildsh.Generic.Pattern Buildsh.Matching Buildsh.Patterns Buildsh.Commands

/-! ## Reading a text -/

/-- An item of a pattern, with the text of its class. -/
inductive Tok where
  | chars (cls : LuaString) (times : Times)
  | begin_
  | end_
  | stop
  deriving DecidableEq

def Tok.item : Tok → Item Char
  | .chars cls times => .chars (fun c => singlematch c cls []) times
  | .begin_ => .begin_
  | .end_ => .end_
  | .stop => .stop

/-- The repetition at the start of a text, and what follows it. -/
def readTimes (ep : LuaString) : Times × LuaString :=
  match at_ ep 0 with
  | '?' => (.opt, ep.tail)
  | '*' => (.star, ep.tail)
  | '+' => (.plus, ep.tail)
  | '-' => (.least, ep.tail)
  | _ => (.one, ep)

def readChars (rest : LuaString → Option (List Tok)) (p : LuaString) : Option (List Tok) :=
  match classend p [] with
  | .ok ep _ => (rest (readTimes ep).2).map (.chars (between p ep) (readTimes ep).1 :: ·)
  | .error _ _ => none

/-- The items of a text with captures side by side; `begun` inside of one, and `level` is their
    number so far. -/
def readItems : Nat → Bool → Nat → LuaString → Option (List Tok)
  | 0, _, _, _ => none
  | n + 1, begun, level, p =>
      match at_ p 0 with
      | '(' =>
          if begun ∨ at_ p 1 = ')' ∨ MAXCAPTURES ≤ level then none
          else (readItems n true (level + 1) (p.drop 1)).map (.begin_ :: ·)
      | ')' => if begun then (readItems n false level (p.drop 1)).map (.end_ :: ·) else none
      | '%' =>
          if at_ p 1 = 'b' ∨ at_ p 1 = 'f' ∨ (at_ p 1).isDigit then none
          else readChars (readItems n begun level) p
      | '\x00' => if begun then none else some []
      | '$' =>
          if at_ p 1 = '\x00' then
            if begun then none else some [.stop]
          else readChars (readItems n begun level) p
      | _ => readChars (readItems n begun level) p

/-- Whether a pattern is anchored, and its items. -/
def readPattern (p : LuaString) : Option (Bool × List Tok) :=
  (readItems ((anchored p).2.length + 1) false 0 (anchored p).2).map fun toks =>
    ((anchored p).1, toks)

/-! ## Classes -/

section Classes

variable {p ep : LuaString} {caps caps' : List Capture}

theorem setEnd_ok {first : Bool} (h : setEnd first p caps = .ok ep caps') :
    (∀ caps, setEnd first p caps = .ok ep caps) ∧ ∃ u, p = u ++ ']' :: ep := by
  fun_induction setEnd first p with
  | case1 => cases h
  | case2 first c p hc =>
      cases h
      exact ⟨fun _ => rfl, [], by rw [hc.1]; rfl⟩
  | case3 => cases h
  | case4 => cases h
  | case5 first q _ _ ih =>
      obtain ⟨hok, u, hu⟩ := ih h
      exact ⟨hok, '%' :: u, by rw [hu]; rfl⟩
  | case6 first d q _ _ _ ih =>
      obtain ⟨hok, u, hu⟩ := ih h
      exact ⟨hok, '%' :: d :: u, by rw [hu]; rfl⟩
  | case7 first c p _ _ _ ih =>
      obtain ⟨hok, u, hu⟩ := ih h
      exact ⟨hok, c :: u, by rw [hu]; rfl⟩

theorem bracketLoop_of_le {c : Char} {e : Nat} (h : p.length ≤ e) : bracketLoop c e p = false := by
  match p with
  | [] => rfl
  | [x] => rfl
  | x :: d :: p => rw [bracketLoop.eq_def]; simp only; rw [if_pos h]

theorem bracketLoop_cons (c : Char) (e : Nat) (x d : Char) (p : LuaString) :
    bracketLoop c e (x :: d :: p) =
      if (x :: d :: p).length ≤ e then false
      else if x = '%' then matchClass c d || bracketLoop c e p
      else
        match p with
        | y :: q =>
            if d = '-' ∧ e < (y :: q).length then (x ≤ c ∧ c ≤ y : Bool) || bracketLoop c e q
            else (x = c : Bool) || bracketLoop c e (d :: y :: q)
        | [] => (x = c : Bool) || bracketLoop c e [d] := by
  cases p with
  | nil => rw [bracketLoop]
  | cons y q => rw [bracketLoop]

/-- A set is read up to its end. -/
theorem bracketLoop_append {c : Char} {e : Nat} (he : 0 < e) (u v : LuaString) :
    bracketLoop c (e + v.length) (u ++ v) = bracketLoop c e u := by
  have hshort : ∀ u : LuaString, u.length ≤ e →
      bracketLoop c (e + v.length) (u ++ v) = bracketLoop c e u := by
    intro u hu
    rw [bracketLoop_of_le hu, bracketLoop_of_le (by rw [List.length_append]; omega)]
  have hlen : ∀ u : LuaString, (u ++ v).length ≤ e + v.length ↔ u.length ≤ e := by
    intro u
    rw [List.length_append]
    omega
  have hlt : ∀ u : LuaString, e + v.length < (u ++ v).length ↔ e < u.length := by
    intro u
    rw [List.length_append]
    omega
  fun_induction bracketLoop c e u with
  | case1 x d p h => rw [hshort _ h, bracketLoop_of_le h]
  | case2 d p h ih =>
      have hl : ¬ ('%' :: d :: (p ++ v)).length ≤ e + v.length := mt (hlen ('%' :: d :: p)).mp h
      rw [List.cons_append, List.cons_append, bracketLoop_cons, if_neg hl, if_pos rfl, ih]
  | case3 x d hx y q hr h ih =>
      have hl : ¬ (x :: d :: y :: (q ++ v)).length ≤ e + v.length :=
        mt (hlen (x :: d :: y :: q)).mp h
      have hr' : d = '-' ∧ e + v.length < (y :: (q ++ v)).length := ⟨hr.1, (hlt (y :: q)).mpr hr.2⟩
      rw [List.cons_append, List.cons_append, List.cons_append, bracketLoop_cons, if_neg hl,
        if_neg hx]
      simp only
      rw [if_pos hr', ih]
  | case4 x d hx y q hr h ih =>
      have hl : ¬ (x :: d :: y :: (q ++ v)).length ≤ e + v.length :=
        mt (hlen (x :: d :: y :: q)).mp h
      have hr' : ¬ (d = '-' ∧ e + v.length < (y :: (q ++ v)).length) :=
        fun h => hr ⟨h.1, (hlt (y :: q)).mp h.2⟩
      rw [List.cons_append, List.cons_append, List.cons_append, bracketLoop_cons, if_neg hl,
        if_neg hx]
      simp only
      rw [if_neg hr']
      exact congrArg _ ih
  | case5 x d hx h ih =>
      have hl : ¬ (x :: d :: v).length ≤ e + v.length := mt (hlen [x, d]).mp h
      change bracketLoop c (e + v.length) (x :: d :: v) = _
      rw [bracketLoop_cons, if_neg hl, if_neg hx]
      cases v with
      | nil => exact congrArg (fun b => decide (x = c) || b) ih
      | cons y v =>
          have hr : ¬ (d = '-' ∧ e + (y :: v).length < (y :: v).length) :=
            fun h => Nat.not_lt_zero e ((hlt []).mp h.2)
          simp only
          rw [if_neg hr]
          exact congrArg _ ih
  | case6 u hu =>
      refine (hshort u ?_).trans ?_
      · match u, hu with
        | [], _ => exact Nat.zero_le e
        | [x], _ => exact he
        | x :: d :: p, hu => exact (hu x d p rfl).elim
      · match u, hu with
        | [], _ => rfl
        | [x], _ => rfl
        | x :: d :: p, hu => exact (hu x d p rfl).elim

theorem between_right (u v : LuaString) : between (u ++ v) v = u := by
  rw [between, List.length_append, Nat.add_sub_cancel, List.take_left]

theorem bracketLoop_between (c : Char) (u : LuaString) :
    bracketLoop c 1 (u ++ [']']) = bracketLoop c (ep.length + 1) (u ++ ']' :: ep) := by
  have h := bracketLoop_append (c := c) Nat.one_pos (u ++ [']']) ep
  rw [Nat.add_comm, List.append_assoc] at h
  exact h.symm

/-- A class is read up to its end. -/
theorem singlematch_between (c : Char) (h : classend p caps = .ok ep caps') :
    singlematch c (between p ep) [] = singlematch c p ep := by
  unfold classend at h
  split at h
  · -- an escaped character
    rename_i q
    cases q with
    | nil => cases h
    | cons d q =>
        split at h
        · cases h
        · cases h
          have hb : between ('%' :: d :: q) q = ['%', d] := between_right ['%', d] q
          rw [List.tail_cons, hb]
          rfl
  · -- a set that is negated
    rename_i q
    obtain ⟨-, u, rfl⟩ := setEnd_ok h
    have hb : between ('[' :: '^' :: (u ++ ']' :: ep)) ep = '[' :: '^' :: (u ++ [']']) := by
      rw [← between_right ('[' :: '^' :: (u ++ [']'])) ep]
      simp
    rw [hb]
    exact congrArg not (bracketLoop_between c u)
  · rename_i q hq
    obtain ⟨-, u, rfl⟩ := setEnd_ok h
    have hb : between ('[' :: (u ++ ']' :: ep)) ep = '[' :: (u ++ [']']) := by
      rw [← between_right ('[' :: (u ++ [']'])) ep]
      simp
    have hne : ∀ v : LuaString, at_ ('[' :: (u ++ ']' :: v)) 1 ≠ '^' := by
      intro v
      cases u with
      | nil =>
          change ']' ≠ '^'
          decide
      | cons x u =>
          intro hx
          have hx : x = '^' := hx
          exact hq (u ++ ']' :: ep) (by rw [hx]; rfl)
    have hset : ∀ q e, singlematch c ('[' :: q) e = matchbracketclass c ('[' :: q) e :=
      fun _ _ => rfl
    rw [hb, hset, hset, matchbracketclass, matchbracketclass, if_neg (hne []), if_neg (hne ep)]
    exact bracketLoop_between c u
  · -- a character
    rename_i hesc _ hset
    cases h
    cases p with
    | nil => rfl
    | cons x q =>
        rw [List.tail_cons, show between (x :: q) q = [x] from between_right [x] q]
        have hx : x ≠ '%' := fun hx => hesc q (by rw [hx])
        have hx' : x ≠ '[' := fun hx => hset q (by rw [hx])
        rw [singlematch_plain hx hx', singlematch_plain hx hx']

theorem classend_ok (h : classend p caps = .ok ep caps') (caps : List Capture) :
    classend p caps = .ok ep caps := by
  unfold classend at h ⊢
  split at h
  · split at h
    · cases h
    · rename_i hne
      cases h
      exact congrFun (if_neg hne) caps
  · exact (setEnd_ok h).1 caps
  · exact (setEnd_ok h).1 caps
  · cases h
    rfl

end Classes

/-! ## What a text matches -/

section Agrees

/-- The text of a capture that has been closed. -/
def textOf (k : Capture) : Option LuaString :=
  match k.len with
  | .closed n => some (k.init.take n)
  | _ => none

/-- The captures in use are those of the items, side by side; `begun` if one is not closed yet. -/
inductive Shows : Bool → List Capture → Captures Char → Prop
  | closed {l : List Capture} {ended : List LuaString} (h : l.map textOf = ended.map some) :
      Shows false l ⟨ended, []⟩
  | begun {l : List Capture} {ended : List LuaString} (h : l.map textOf = ended.map some)
      (g : LuaString) : Shows true (l ++ [⟨g, .unfinished⟩]) ⟨ended, [g]⟩

/-- A call does what the items do: it leaves the captures as they were, or ends with the same
    captures at the same place. -/
def Agrees (m : MatchM (Option LuaString)) (caps : List Capture)
    (o : Option (Captures Char × LuaString)) : Prop :=
  match o with
  | none => m caps = .ok none caps
  | some (c, e) => ∃ caps', m caps = .ok (some e) caps' ∧ Shows false caps' c

variable {m m' : MatchM (Option LuaString)} {caps : List Capture}
  {o o' : Option (Captures Char × LuaString)} {s p ep : LuaString}
  {k : LuaString → MatchM (Option LuaString)}
  {k' : LuaString → Option (Captures Char × LuaString)}

theorem agrees_none : Agrees (pure none) caps none := rfl

/-- One thing is tried, and another one if it fails. -/
theorem Agrees.orElse (h : Agrees m caps o) (h' : Agrees m' caps o') :
    Agrees (do match ← m with | some res => return some res | none => m') caps (o.or o') := by
  cases o with
  | none =>
      have hm : (do match ← m with | some res => return some res | none => m') caps = m' caps :=
        bind_ok h
      cases o' with
      | none => exact hm.trans h'
      | some r =>
          obtain ⟨caps', h', hshows⟩ := h'
          exact ⟨caps', hm.trans h', hshows⟩
  | some r =>
      obtain ⟨caps', h, hshows⟩ := h
      exact ⟨caps', bind_ok h, hshows⟩

theorem maxExpand_cons {cls : Char → Bool} {c : Char} (hc : cls c = true) :
    Pattern.maxExpand cls k' (c :: s) = (Pattern.maxExpand cls k' s).or (k' (c :: s)) := by
  rw [Pattern.maxExpand, if_pos hc]
  cases Pattern.maxExpand cls k' s <;> rfl

/-- What is tried from the `i`th character on, backwards. -/
def downFrom (k' : LuaString → Option (Captures Char × LuaString)) (s : LuaString) :
    Nat → Option (Captures Char × LuaString)
  | 0 => k' s
  | i + 1 => (k' (s.drop (i + 1))).or (downFrom k' s i)

theorem downFrom_cons (c : Char) (s : LuaString) (i : Nat) :
    downFrom k' (c :: s) (i + 1) = (downFrom k' s i).or (k' (c :: s)) := by
  induction i with
  | zero => rfl
  | succ i ih =>
      rw [downFrom, ih, downFrom, Option.or_assoc]
      rfl

theorem downFrom_countLoop (s : LuaString) :
    downFrom k' s (countLoop p ep s) = Pattern.maxExpand (fun c => singlematch c p ep) k' s := by
  induction s with
  | nil => rfl
  | cons c s ih =>
      by_cases hc : singlematch c p ep = true
      · rw [countLoop, if_pos hc, downFrom_cons, ih, maxExpand_cons hc]
      · rw [countLoop, if_neg hc, Pattern.maxExpand, if_neg hc]
        rfl

theorem maxLoop_agrees (hk : ∀ s, Agrees (k s) caps (k' s)) (i : Nat) :
    Agrees (maxLoop k s i) caps (downFrom k' s i) := by
  induction i with
  | zero => exact hk s
  | succ i ih => exact (hk _).orElse ih

theorem maxExpand_agrees (hk : ∀ s, Agrees (k s) caps (k' s)) :
    Agrees (Matching.maxExpand k s p ep) caps
      (Pattern.maxExpand (fun c => singlematch c p ep) k' s) := by
  rw [← downFrom_countLoop]
  exact maxLoop_agrees hk _

theorem minExpand_agrees (hk : ∀ s, Agrees (k s) caps (k' s)) :
    Agrees (Matching.minExpand k p ep s) caps
      (Pattern.minExpand (fun c => singlematch c p ep) k' s) := by
  induction s with
  | nil => exact hk []
  | cons c s ih =>
      have hrest : Agrees (if singlematch c p ep then Matching.minExpand k p ep s else pure none)
          caps (if singlematch c p ep then
            Pattern.minExpand (fun c => singlematch c p ep) k' s else none) := by
        split
        · exact ih
        · exact agrees_none
      have h := (hk (c :: s)).orElse hrest
      rw [Pattern.minExpand]
      cases hks : k' (c :: s) with
      | none =>
          rw [hks] at h
          exact h
      | some r =>
          rw [hks] at h
          exact h

theorem Agrees.of_bind {α : Type} {m : MatchM α} {f : α → MatchM (Option LuaString)} {a : α}
    (hm : m caps = .ok a caps) (h : Agrees (f a) caps o) : Agrees (m >>= f) caps o := by
  have heq : (m >>= f) caps = f a caps := bind_ok hm
  cases o with
  | none => exact heq.trans h
  | some r =>
      obtain ⟨caps', h, hshows⟩ := h
      exact ⟨caps', heq.trans h, hshows⟩

/-- A class with its repetition. -/
theorem matchDefault_agrees {k : LuaString → LuaString → MatchM (Option LuaString)}
    (hend : classend p caps = .ok ep caps)
    (hk : ∀ s, Agrees (k s (readTimes ep).2) caps (k' s)) :
    Agrees (matchDefault k s p) caps
      (expand (fun c => singlematch c p ep) k' (readTimes ep).1 s) := by
  refine Agrees.of_bind hend ?_
  split
  · rename_i h
    rw [show readTimes ep = (.opt, ep.tail) by simp [readTimes, h]] at hk ⊢
    cases s with
    | nil => exact hk []
    | cons c s =>
        change Agrees (if singlematch c p ep = true then _ else _) caps
          (if singlematch c p ep = true then _ else _)
        split
        · exact (hk s).orElse (hk (c :: s))
        · exact hk (c :: s)
  · rename_i h
    rw [show readTimes ep = (.star, ep.tail) by simp [readTimes, h]] at hk ⊢
    exact maxExpand_agrees hk
  · rename_i h
    rw [show readTimes ep = (.plus, ep.tail) by simp [readTimes, h]] at hk ⊢
    cases s with
    | nil => exact agrees_none
    | cons c s =>
        change Agrees (if singlematch c p ep = true then _ else _) caps
          (if singlematch c p ep = true then _ else _)
        split
        · exact maxExpand_agrees hk
        · exact agrees_none
  · rename_i h
    rw [show readTimes ep = (.least, ep.tail) by simp [readTimes, h]] at hk ⊢
    exact minExpand_agrees hk
  · have hone : readTimes ep = (.one, ep) := by
      unfold readTimes
      split <;> first | contradiction | rfl
    rw [hone] at hk ⊢
    cases s with
    | nil => exact agrees_none
    | cons c s =>
        change Agrees (if singlematch c p ep = true then _ else _) caps
          (if singlematch c p ep = true then _ else _)
        split
        · exact hk s
        · exact agrees_none

theorem modify_concat (l : List Capture) (x : Capture) (f : Capture → Capture) :
    (l ++ [x]).modify l.length f = l ++ [f x] := by
  induction l with
  | nil => rfl
  | cons y l ih => exact congrArg (y :: ·) ih

/-- A change of the captures that is undone if the rest of the pattern fails. -/
theorem Agrees.undo {m₀ : MatchM (Option LuaString)} {f : MatchM Unit} {caps₁ : List Capture}
    (hk : Agrees m caps₁ o) (hundo : f caps₁ = .ok () caps)
    (h : m₀ caps = (do
      match ← m with
      | some res => return some res
      | none =>
          f
          return none : MatchM (Option LuaString)) caps₁) : Agrees m₀ caps o := by
  cases o with
  | none =>
      have hend : (do f; return none : MatchM (Option LuaString)) caps₁ = .ok none caps :=
        bind_ok hundo
      exact h.trans ((bind_ok hk).trans hend)
  | some r =>
      obtain ⟨caps', hm, hshows⟩ := hk
      exact ⟨caps', h.trans (bind_ok hm), hshows⟩

theorem startCapture_agrees (hlevel : caps.length < MAXCAPTURES)
    (hk : Agrees (k s) (caps ++ [⟨s, .unfinished⟩]) o) :
    Agrees (startCapture k s .unfinished) caps o := by
  refine hk.undo (f := modify List.dropLast) ?_ ?_
  · change EStateM.Result.ok () (caps ++ [_]).dropLast = _
    rw [List.dropLast_concat]
  · change (if MAXCAPTURES ≤ caps.length then _ else _ : MatchM (Option LuaString)) caps = _
    rw [if_neg (Nat.not_le.mpr hlevel)]
    rfl

theorem captureToClose_concat (l : List Capture) (g : LuaString) :
    captureToClose (l ++ [⟨g, .unfinished⟩]) = .ok l.length (l ++ [⟨g, .unfinished⟩]) := by
  change closeLoop (l ++ [(⟨g, .unfinished⟩ : Capture)])
    (l ++ [(⟨g, .unfinished⟩ : Capture)]).length _ = _
  rw [List.length_append, List.length_singleton, closeLoop, List.getElem?_concat_length]
  rfl

theorem endCapture_agrees {l : List Capture} {g : LuaString}
    (hk : Agrees (k s) (l ++ [⟨g, .closed (g.length - s.length)⟩]) o) :
    Agrees (endCapture k s) (l ++ [⟨g, .unfinished⟩]) o := by
  have hget : (get : MatchM (List Capture)) (l ++ [⟨g, .unfinished⟩]) =
      .ok (l ++ [⟨g, .unfinished⟩]) (l ++ [⟨g, .unfinished⟩]) := rfl
  refine Agrees.of_bind (captureToClose_concat l g) (Agrees.of_bind hget ?_)
  refine hk.undo (f := setLen l.length .unfinished) ?_ ?_
  · exact congrArg (EStateM.Result.ok ()) (modify_concat l _ _)
  · have hlast : (l ++ [(⟨g, .unfinished⟩ : Capture)])[l.length]? = some ⟨g, .unfinished⟩ :=
      List.getElem?_concat_length
    have hset : setLen l.length (.closed (g.length - s.length)) (l ++ [⟨g, .unfinished⟩]) =
        .ok () (l ++ [⟨g, .closed (g.length - s.length)⟩]) :=
      congrArg (EStateM.Result.ok ()) (modify_concat l _ _)
    have hrun : setLen l.length (.closed
        ((((l ++ [(⟨g, .unfinished⟩ : Capture)])[l.length]?.map Capture.init).getD []).length -
          s.length)) (l ++ [⟨g, .unfinished⟩]) =
        .ok () (l ++ [⟨g, .closed (g.length - s.length)⟩]) := by
      rw [hlast]
      exact hset
    exact bind_ok hrun

theorem readChars_agrees {src : LuaString} {n : Nat} {begun : Bool} {toks : List Tok}
    {c : Captures Char}
    (hrest : ∀ {p toks}, readItems n begun caps.length p = some toks → ∀ s,
      Agrees (doMatch src n s p) caps (matchItems (toks.map Tok.item) c s))
    (h : readChars (readItems n begun caps.length) p = some toks) :
    Agrees (matchDefault (doMatch src n) s p) caps (matchItems (toks.map Tok.item) c s) := by
  unfold readChars at h
  split at h
  · rename_i ep _ hend
    obtain ⟨toks', htoks, rfl⟩ := Option.map_eq_some_iff.mp h
    have hcls : (fun c => singlematch c (between p ep) []) = fun c => singlematch c p ep :=
      funext fun c => singlematch_between c hend
    rw [List.map_cons, Tok.item, matchItems_chars, hcls]
    exact matchDefault_agrees (classend_ok hend caps) (hrest htoks)
  · cases h

/-- **Texts.** On a text that is read as items, `match` does what the items do. -/
theorem doMatch_items {src : LuaString} {n : Nat} {begun : Bool} {toks : List Tok}
    {c : Captures Char} (h : readItems n begun caps.length p = some toks)
    (hshows : Shows begun caps c) (s : LuaString) :
    Agrees (doMatch src n s p) caps (matchItems (toks.map Tok.item) c s) := by
  induction n generalizing begun caps c p toks s with
  | zero => cases h
  | succ n ih =>
      have hdefault : readChars (readItems n begun caps.length) p = some toks →
          Agrees (matchDefault (doMatch src n) s p) caps (matchItems (toks.map Tok.item) c s) :=
        readChars_agrees fun h s => ih h hshows s
      rw [readItems] at h
      split at h
      · -- the beginning of a capture
        rename_i hp
        split at h
        · cases h
        · rename_i hcond
          obtain ⟨toks', htoks, rfl⟩ := Option.map_eq_some_iff.mp h
          rw [not_or, not_or, Nat.not_le] at hcond
          obtain ⟨hbegun, hpos, hlevel⟩ := hcond
          cases hshows with
          | begun hl g => exact (hbegun rfl).elim
          | closed hl =>
              rw [doMatch, hp]
              simp only
              rw [if_neg hpos]
              refine startCapture_agrees hlevel ?_
              refine ih ?_ (Shows.begun hl s) s
              rw [List.length_append]
              exact htoks
      · -- the end of a capture
        rename_i hp
        split at h
        · obtain ⟨toks', htoks, rfl⟩ := Option.map_eq_some_iff.mp h
          cases hshows with
          | closed hl => contradiction
          | @begun l ended hl g =>
              have hclosed : (l ++ [(⟨g, .closed (g.length - s.length)⟩ : Capture)]).map textOf =
                  (ended ++ [g.take (g.length - s.length)]).map some := by
                rw [List.map_append, List.map_append, hl]
                rfl
              rw [doMatch, hp]
              simp only
              refine endCapture_agrees (ih ?_ (Shows.closed hclosed) s)
              rw [List.length_append] at htoks ⊢
              exact htoks
        · cases h
      · -- an escaped character
        rename_i hp
        split at h
        · cases h
        · rename_i hcond
          rw [not_or, not_or] at hcond
          obtain ⟨hb, hf, hdigit⟩ := hcond
          rw [doMatch, hp]
          simp only
          split <;> first | contradiction | exact hdefault h
      · rename_i hp
        split at h
        · cases h
        · cases h
          rw [doMatch, hp]
          cases hshows with
          | closed hl => exact ⟨caps, rfl, Shows.closed hl⟩
          | begun hl g => contradiction
      · rename_i hp
        rw [doMatch, hp]
        simp only
        split at h
        · rename_i hend
          rw [if_pos hend]
          split at h
          · cases h
          · cases h
            cases hshows with
            | begun hl g => contradiction
            | closed hl =>
                cases s with
                | nil => exact ⟨caps, rfl, Shows.closed hl⟩
                | cons x s => exact agrees_none
        · rename_i hend
          rw [if_neg hend]
          exact hdefault h
      · rw [doMatch]
        split <;> first | contradiction | exact hdefault h

end Agrees

/-! ## The library on such a text -/

section Library

variable {src s p : LuaString} {caps : List Capture} {toks : List Tok}

/-- The captures of a match, or the whole of it. -/
def results (s : LuaString) (r : Captures Char × LuaString) : List LuaString :=
  if r.1.ended = [] then [between s r.2] else r.1.ended

/-- A pattern with captures does not return the whole match. -/
theorem results_of_ends {items : List (Item Char)} {r : Captures Char × LuaString}
    (hm : matchItems items .none s = some r) (hends : ends items ≠ 0) :
    results s r = r.1.ended := by
  have hne : r.1.ended ≠ [] := by
    intro hnil
    have hlen := length_ended hm
    rw [hnil] at hlen
    exact hends (Nat.add_eq_zero_iff.mp hlen.symm).2
  rw [results, if_neg hne]

theorem pushFrom_shown {e : LuaString} {ended : List LuaString}
    (h : caps.map textOf = ended.map some) {n i : Nat} (hn : i + n = ended.length) :
    pushFrom src s e n i caps = .ok ((ended.drop i).map .str) caps := by
  induction n generalizing i with
  | zero =>
      rw [List.drop_eq_nil_of_le (by omega)]
      rfl
  | succ n ih =>
      have hi : i < ended.length := by omega
      have hget : caps[i]?.map textOf = some (some ended[i]) := by
        rw [← List.getElem?_map, h, List.getElem?_map, List.getElem?_eq_getElem hi, Option.map_some]
      obtain ⟨k, hk, htext⟩ := Option.map_eq_some_iff.mp hget
      have hpush : pushOnecapture src i s e caps = .ok (.str ended[i]) caps := by
        obtain ⟨init, len⟩ := k
        cases len with
        | closed m =>
            have hinit : init.take m = ended[i] := Option.some.inj htext
            rw [pushOnecapture_closed hk, hinit]
        | position => cases htext
        | unfinished => cases htext
      rw [List.drop_eq_getElem_cons hi, List.map_cons, pushFrom]
      exact (bind_ok hpush).trans (bind_ok (ih (by omega)))

/-- What is pushed for a match. -/
theorem pushCaptures_shown {c : Captures Char} {e : LuaString} (h : Shows false caps c) :
    pushCaptures src true s e caps = .ok ((results s (c, e)).map .str) caps := by
  cases h with
  | @closed _ ended h =>
      have hlen : caps.length = ended.length := by
        have := congrArg List.length h
        rwa [List.length_map, List.length_map] at this
      have heq : pushCaptures src true s e caps =
          pushFrom src s e (if caps.length = 0 ∧ true = true then 1 else caps.length) 0 caps := rfl
      rw [heq]
      cases ended with
      | nil =>
          rw [List.length_eq_zero_iff.mp hlen]
          rfl
      | cons t ended =>
          have hne : ¬ (caps.length = 0 ∧ true = true) := by
            rw [hlen, List.length_cons]
            omega
          rw [if_neg hne, pushFrom_shown h (by rw [Nat.zero_add, hlen])]
          rfl

theorem shows_nil : Shows false [] .none := Shows.closed rfl

theorem matchFrom_none (h : readItems (p.length + 1) false 0 p = some toks)
    (hm : matchItems (toks.map Tok.item) .none s = none) (caps : List Capture) :
    matchFrom src s p caps = .ok none [] := by
  have hagrees : Agrees (doMatch src (p.length + 1) s p) [] (matchItems _ .none s) :=
    doMatch_items h shows_nil s
  rw [hm] at hagrees
  exact hagrees

theorem matchFrom_some {r : Captures Char × LuaString}
    (h : readItems (p.length + 1) false 0 p = some toks)
    (hm : matchItems (toks.map Tok.item) .none s = some r) (caps : List Capture) :
    ∃ caps', matchFrom src s p caps = .ok (some r.2) caps' ∧ Shows false caps' r.1 := by
  have hagrees : Agrees (doMatch src (p.length + 1) s p) [] (matchItems _ .none s) :=
    doMatch_items h shows_nil s
  rw [hm] at hagrees
  exact hagrees

/-- `string.match` with the items: the first place with a match, or the start of the subject. -/
def found (items : List (Item Char)) (anchor : Bool) (s : LuaString) : Option (List LuaString) :=
  if anchor then (matchItems items .none s).map (results s)
  else s.tails.findSome? fun u => (matchItems items .none u).map (results u)

theorem pushFound_shown {r : Captures Char × LuaString} (h : Shows false caps r.1) :
    (do return some (← pushFound src false s r.2)) caps =
      .ok (some ((results s r).map Value.str)) caps := by
  have hpush : pushFound src false s r.2 caps = .ok ((results s r).map .str) caps :=
    bind_ok (pushCaptures_shown h)
  exact bind_ok hpush

theorem findLoop_items {anchor : Bool} (h : readItems (p.length + 1) false 0 p = some toks)
    (s : LuaString) (caps : List Capture) :
    ∃ caps', findLoop src p false anchor s caps =
      .ok ((found (toks.map Tok.item) anchor s).map (·.map .str)) caps' := by
  induction s generalizing caps with
  | nil =>
      rw [findLoop]
      cases hm : matchItems (toks.map Tok.item) .none [] with
      | none =>
          refine ⟨[], ?_⟩
          refine (bind_ok (matchFrom_none h hm caps)).trans ?_
          cases anchor <;> simp [found, hm] <;> rfl
      | some r =>
          obtain ⟨caps', hok, hshows⟩ : ∃ caps', matchFrom src [] p caps =
              .ok (some r.2) caps' ∧ Shows false caps' r.1 := matchFrom_some h hm caps
          refine ⟨caps', ?_⟩
          refine (bind_ok hok).trans ((pushFound_shown hshows).trans ?_)
          cases anchor <;> simp [found, hm]
  | cons c s ih =>
      rw [findLoop]
      cases hm : matchItems (toks.map Tok.item) .none (c :: s) with
      | none =>
          cases anchor with
          | true =>
              refine ⟨[], ?_⟩
              refine (bind_ok (matchFrom_none h hm caps)).trans ?_
              simp [found, hm]
              rfl
          | false =>
              obtain ⟨caps', hrest⟩ := ih []
              refine ⟨caps', ?_⟩
              refine (bind_ok (matchFrom_none h hm caps)).trans (hrest.trans ?_)
              simp [found, hm]
      | some r =>
          obtain ⟨caps', hok, hshows⟩ : ∃ caps', matchFrom src (c :: s) p caps =
              .ok (some r.2) caps' ∧ Shows false caps' r.1 := matchFrom_some h hm caps
          refine ⟨caps', ?_⟩
          refine (bind_ok hok).trans ((pushFound_shown hshows).trans ?_)
          cases anchor <;> simp [found, hm]

/-- **`string.match`.** On a text that is read as items it finds what the items match. -/
theorem strFindAux_items {anchor : Bool} (h : readPattern p = some (anchor, toks)) (s : LuaString)
    (caps : List Capture) :
    ∃ caps', strFindAux false false s p 1 caps =
      .ok ((found (toks.map Tok.item) anchor s).map (·.map .str)) caps' := by
  obtain ⟨toks', htoks, heq⟩ := Option.map_eq_some_iff.mp h
  cases heq
  have hstart : strFindAux false false s p 1 =
      findLoop s (anchored p).2 false (anchored p).1 s := by
    have hdrop : s.drop (min (posrelat 1 s.length - 1) s.length) = s := by
      rw [show posrelat 1 s.length - 1 = 0 from rfl, Nat.zero_min, List.drop_zero]
    rw [strFindAux, hdrop]
    rfl
  rw [hstart]
  exact findLoop_items htoks s caps

end Library

/-! ## Replacing -/

section Replacing

variable {src s p : LuaString} {caps : List Capture} {toks : List Tok} {repl : Repl}
  {g : List LuaString → LuaString} {items : List (Item Char)}

/-- The replacement makes a text of the captures of a match, or of the whole of it. -/
def Gives (toks : List Tok) (repl : Repl) (g : List LuaString → LuaString) : Prop :=
  ∀ (src s : LuaString) (caps : List Capture) (r : Captures Char × LuaString),
    matchItems (toks.map Tok.item) .none s = some r → Shows false caps r.1 →
    addValue src s r.2 repl caps = .ok (g (results s r)) caps

/-- A function is called with the captures. -/
theorem gives_function {f : List Value → Except LuaString Given}
    (hf : ∀ s r, matchItems (toks.map Tok.item) .none s = some r →
      f ((results s r).map .str) = .ok (.text (g (results s r)))) :
    Gives toks (.function f) g := by
  intro src s caps r hm hshows
  refine (bind_ok (pushCaptures_shown hshows)).trans ?_
  rw [hf s r hm]
  rfl

/-- The items match where the text does, and their captures are what is handed over. -/
def Same (toks : List Tok) (items : List (Item Char)) : Prop :=
  ∀ s, (matchItems (toks.map Tok.item) .none s).map (fun r => (results s r, r.2)) =
    (matchItems items .none s).map fun r => (r.1.ended, r.2)

theorem gsubLoop_items (hread : readItems (p.length + 1) false 0 p = some toks)
    (hsame : Same toks items) (hgives : Gives toks repl g)
    {maxS rounds n : Nat} (hrounds : s.length < rounds) (hmax : n + s.length < maxS)
    (caps : List Capture) :
    ∃ n' caps', Matching.gsubLoop src p repl maxS false rounds n s caps =
      .ok (Pattern.gsubLoop items g rounds s, n') caps' := by
  induction rounds generalizing n s caps with
  | zero => omega
  | succ rounds ih =>
      -- the rest of the loop behind a round
      have hgo : ∀ {added : LuaString} {m : Nat} {s' : LuaString} {caps₁ : List Capture},
          gsubRound src p repl s caps = .ok (added, m, some s') caps₁ → m ≤ 1 →
          s'.length < s.length →
          ∃ n' caps', Matching.gsubLoop src p repl maxS false (rounds + 1) n s caps =
            .ok (added ++ Pattern.gsubLoop items g rounds s', n') caps' := by
        intro added m s' caps₁ hround hm hlt
        obtain ⟨n', caps', hrest⟩ := @ih s' (n + m) (by omega) (by omega) caps₁
        refine ⟨n', caps', ?_⟩
        rw [Matching.gsubLoop, if_pos (by omega)]
        exact (bind_ok hround).trans (bind_ok hrest)
      have hstop : ∀ {added : LuaString} {m : Nat} {caps₁ : List Capture},
          gsubRound src p repl s caps = .ok (added, m, none) caps₁ →
          ∃ n' caps', Matching.gsubLoop src p repl maxS false (rounds + 1) n s caps =
            .ok (added, n') caps' := by
        intro added m caps₁ hround
        refine ⟨n + m, caps₁, ?_⟩
        rw [Matching.gsubLoop, if_pos (by omega)]
        exact bind_ok hround
      have hs := hsame s
      cases hm : matchItems (toks.map Tok.item) .none s with
      | none =>
          rw [hm, Option.map_none, eq_comm, Option.map_eq_none_iff] at hs
          have hfrom : matchFrom src s p caps = .ok none [] := matchFrom_none hread hm caps
          cases s with
          | nil =>
              have hloop : Pattern.gsubLoop items g (rounds + 1) [] = [] := by
                rw [Pattern.gsubLoop, hs]
              rw [hloop]
              exact hstop (bind_ok hfrom)
          | cons x s =>
              have hloop : Pattern.gsubLoop items g (rounds + 1) (x :: s) =
                  [x] ++ Pattern.gsubLoop items g rounds s := by
                rw [Pattern.gsubLoop, hs]
                rfl
              rw [hloop]
              exact hgo (bind_ok hfrom) (Nat.zero_le 1) (by simp)
      | some r =>
          rw [hm, Option.map_some, eq_comm, Option.map_eq_some_iff] at hs
          obtain ⟨⟨c, e⟩, hm', heq⟩ := hs
          injection heq with hended hrest
          subst hrest
          change c.ended = results s r at hended
          obtain ⟨caps₁, hfrom, hshows⟩ : ∃ caps', matchFrom src s p caps = .ok (some r.2) caps' ∧
            Shows false caps' r.1 := matchFrom_some hread hm caps
          have hgive := hgives src s caps₁ r hm hshows
          by_cases hlt : r.2.length < s.length
          · have hloop : Pattern.gsubLoop items g (rounds + 1) s =
                g (results s r) ++ Pattern.gsubLoop items g rounds r.2 := by
              simp only [Pattern.gsubLoop, hm', if_pos hlt, hended]
            have hround : gsubRound src p repl s caps =
                .ok (g (results s r), 1, some r.2) caps₁ :=
              (bind_ok hfrom).trans ((bind_ok hgive).trans (congrFun (if_pos hlt) caps₁))
            rw [hloop]
            exact hgo hround (le_refl 1) hlt
          · -- nothing is consumed
            cases s with
            | nil =>
                have hloop : Pattern.gsubLoop items g (rounds + 1) [] = g (results [] r) := by
                  simp only [Pattern.gsubLoop, hm', if_neg hlt, hended]
                have hround : gsubRound src p repl [] caps =
                    .ok (g (results [] r), 1, none) caps₁ :=
                  (bind_ok hfrom).trans ((bind_ok hgive).trans (congrFun (if_neg hlt) caps₁))
                rw [hloop]
                exact hstop hround
            | cons x s =>
                have hloop : Pattern.gsubLoop items g (rounds + 1) (x :: s) =
                    (g (results (x :: s) r) ++ [x]) ++ Pattern.gsubLoop items g rounds s := by
                  simp only [Pattern.gsubLoop, hm', if_neg hlt, hended, List.append_assoc,
                    List.singleton_append]
                have hround : gsubRound src p repl (x :: s) caps =
                    .ok (g (results (x :: s) r) ++ [x], 1, some s) caps₁ :=
                  (bind_ok hfrom).trans ((bind_ok hgive).trans (congrFun (if_neg hlt) caps₁))
                rw [hloop]
                exact hgo hround (le_refl 1) (Nat.lt_succ_self _)

/-- `string.gsub` with all replacements. -/
theorem strGsub_items (hread : readPattern p = some (false, toks)) (hsame : Same toks items)
    (hgives : Gives toks repl g) (s : LuaString) (caps : List Capture) :
    ∃ n caps', strGsub s p repl (s.length + 1) caps = .ok (gsub items g s, n) caps' := by
  obtain ⟨toks', htoks, heq⟩ := Option.map_eq_some_iff.mp hread
  injection heq with hanchor htoks'
  subst htoks'
  rw [strGsub, hanchor]
  exact gsubLoop_items htoks hsame hgives (Nat.lt_succ_self _) (by omega) caps

/-- A pattern with captures. -/
theorem same_of_ends (hitems : toks.map Tok.item = items) (hends : ends items ≠ 0) :
    Same toks items := by
  intro s
  rw [hitems]
  cases hm : matchItems items .none s with
  | none => rfl
  | some r => rw [Option.map_some, Option.map_some, results_of_ends hm hends]

/-- A table that has a text for some of the strings. -/
theorem gives_table {t : Value → Given} (hends : ends (toks.map Tok.item) = 0)
    (ht : ∀ u, t (.str u) = .text (g [u]) ∨ (t (.str u) = .falsy ∧ g [u] = u)) :
    Gives toks (.table t) g := by
  intro src s caps r hm hshows
  obtain ⟨c, e⟩ := r
  have hlen : c.ended.length = 0 :=
    (length_ended hm).trans ((Nat.zero_add _).trans hends)
  have hended : c.ended = [] := List.length_eq_zero_iff.mp hlen
  have hcaps : caps = [] := by
    cases hshows with
    | @closed _ ended h =>
        have hnil : ended = [] := hended
        rw [hnil] at h
        exact List.map_eq_nil_iff.mp h
  have hres : results s (c, e) = [between s e] := if_pos hended
  have hpush : pushOnecapture src 0 s e caps = .ok (.str (between s e)) caps := by
    rw [hcaps]
    rfl
  refine (bind_ok hpush).trans ?_
  rw [hres]
  rcases ht (between s e) with h | ⟨h, hg⟩
  · rw [h]
    rfl
  · rw [h, hg]
    rfl

/-- A single class without captures, and the same class captured. -/
theorem same_class {cls : LuaString} :
    Same [.chars cls .one]
      [.begin_, .chars (fun c => singlematch c cls []) .one, .end_] := by
  intro s
  cases s with
  | nil => rfl
  | cons x s =>
      have htake : (x :: s).take ((x :: s).length - s.length) = [x] := by
        rw [List.length_cons, Nat.add_sub_cancel_left]
        rfl
      by_cases hx : singlematch x cls [] = true
      · simp [Tok.item, matchItems, hx, Captures.none, Captures.end_, results, between]
      · simp [Tok.item, matchItems, hx]

theorem gsubLoop_class {cls : Char → Bool} {n : Nat} (hn : s.length < n) :
    Pattern.gsubLoop [.begin_, .chars cls .one, .end_] g n s =
      s.flatMap fun c => if cls c then g [[c]] else [c] := by
  induction n generalizing s with
  | zero => omega
  | succ n ih =>
      cases s with
      | nil => rfl
      | cons x s =>
          have hrest := ih (s := s) (by rw [List.length_cons] at hn; omega)
          rw [List.flatMap_cons, ← hrest]
          by_cases hx : cls x = true
          · simp [Pattern.gsubLoop, matchItems, hx, Captures.none, Captures.end_]
          · simp [Pattern.gsubLoop, matchItems, hx]

/-- A class is found in a word that has a character of it. -/
theorem found_class {cls : Char → Bool} :
    (found [.chars cls .one] false s).isSome = s.any cls := by
  induction s with
  | nil => rfl
  | cons x s ih =>
      rw [List.any_cons, ← ih]
      by_cases hx : cls x = true
      · simp [found, matchItems, hx]
      · simp [found, matchItems, hx]

end Replacing

end Buildsh.PatternTexts
