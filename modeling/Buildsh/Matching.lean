/-
  Lua patterns (`lstrlib.c`): the matcher, and `string.find`, `match`, `gmatch` and `gsub` over it.

  A pointer into the pattern or the subject is what is left of the text from there on, and reading
  at its end gives the zero byte that ends every string. The captures in use are the state; a call
  of `match` that fails has to leave them as they were, because the callers try again. `match`
  calls itself for a later part of the pattern, so that its length bounds the depth of the calls.

  `doMatch_safe`: on any pattern and any subject `match` ends, and stays within the subject and the
  places for captures. `strFindAux_parts`, `gmatch_parts` and `strGsub_pieces` say so of the
  functions of the library: they return parts of the subject, the plain search finds the first
  place, and `gsub` replaces the matches from the left to the right and keeps all other pieces.
-/
import Buildsh.Patterns
import Buildsh.Generic.Ends
import Mathlib.Data.Set.Basic
import Mathlib.Order.Bounds.Defs

namespace Buildsh.Matching
open Buildsh.Generic Buildsh.Commands Buildsh.Patterns

/-- How a function of the library fails. -/
inductive Failure where
  /-- a loop has more rounds, or calls are nested deeper, than is given -/
  | rounds
  | raised (s : LuaString)

inductive Len where
  /-- `CAP_UNFINISHED` -/
  | unfinished
  /-- `CAP_POSITION` -/
  | position
  | closed (n : Nat)
  deriving DecidableEq

structure Capture where
  init : LuaString
  len : Len

/-- `LUA_MAXCAPTURES` -/
def MAXCAPTURES : Nat := 32

/-- The first `level` captures are the state. -/
abbrev MatchM := EStateM Failure (List Capture)

def raise {α : Type} (s : String) : MatchM α := throw (.raised s.toList)

/-- `*(p+i)` -/
def at_ (p : LuaString) (i : Nat) : Char := p.getD i '\x00'

section Code

/-! ## Classes -/

def matchClass (c cl : Char) : Bool :=
  let res := fun b => if cl.isLower then b else !b
  match cl.toLower with
  | 'a' => res c.isAlpha
  | 'c' => res (c.toNat < 32 ∨ c.toNat = 127)
  | 'd' => res c.isDigit
  | 'l' => res c.isLower
  | 'p' => res (32 < c.toNat ∧ c.toNat < 127 ∧ ¬ c.isAlphanum)
  | 's' => res (isSpace c)
  | 'u' => res c.isUpper
  | 'w' => res c.isAlphanum
  | 'x' => res (isHex c)
  | 'z' => res (c = '\x00')
  | _ => cl = c

def missing : String := "malformed pattern (missing ']')"

/-- The loop of `classend`, which looks for a `]`, but not in its first round. -/
def setEnd : Bool → LuaString → MatchM LuaString
  | _, [] => raise missing
  | first, c :: p =>
      if c = ']' ∧ first = false then pure p
      else if c = '\x00' then raise missing
      else if c = '%' then
        match p with
        | [] => raise missing
        | d :: q => if d = '\x00' then setEnd false (d :: q) else setEnd false q
      else setEnd false p

def classend (p : LuaString) : MatchM LuaString :=
  match p with
  | '%' :: p =>
      if at_ p 0 = '\x00' then raise "malformed pattern (ends with '%')" else pure p.tail
  | '[' :: '^' :: p => setEnd true p
  | '[' :: p => setEnd true p
  | p => pure p.tail

/-- The loop of `matchbracketclass`, with `e` bytes of the pattern from `ec` on. -/
def bracketLoop (c : Char) (e : Nat) : LuaString → Bool
  | x :: d :: p =>
      if (x :: d :: p).length ≤ e then false
      else if x = '%' then matchClass c d || bracketLoop c e p
      else
        match p with
        | y :: q =>
            if d = '-' ∧ e < (y :: q).length then (x ≤ c ∧ c ≤ y : Bool) || bracketLoop c e q
            else (x = c : Bool) || bracketLoop c e (d :: y :: q)
        | [] => (x = c : Bool) || bracketLoop c e [d]
  | _ => false

def matchbracketclass (c : Char) (p ep : LuaString) : Bool :=
  if at_ p 1 = '^' then !bracketLoop c (ep.length + 1) (p.drop 2)
  else bracketLoop c (ep.length + 1) (p.drop 1)

def singlematch (c : Char) (p ep : LuaString) : Bool :=
  match at_ p 0 with
  | '.' => true
  | '%' => matchClass c (at_ p 1)
  | '[' => matchbracketclass c p ep
  | x => x = c

/-! ## Matching -/

/-- `check_capture`: the capture that the digit `l` stands for -/
def checkCapture (l : Char) : MatchM Capture := do
  let caps ← get
  if l = '0' then raise "invalid capture index"
  else
    match caps[l.toNat - '1'.toNat]? with
    | none => raise "invalid capture index"
    | some k => if k.len = .unfinished then raise "invalid capture index" else return k

/-- The loop of `capture_to_close`. -/
def closeLoop (caps : List Capture) : Nat → MatchM Nat
  | 0 => raise "invalid pattern capture"
  | l + 1 => if (caps[l]?.map Capture.len) = some .unfinished then pure l else closeLoop caps l

def captureToClose : MatchM Nat := do
  let caps ← get
  closeLoop caps caps.length

/-- The loop of `matchbalance`, with `cont` one less than in the source. -/
def balanceLoop (b e : Char) : Nat → LuaString → Option LuaString
  | _, [] => none
  | cont, x :: s =>
      if x = e then
        match cont with
        | 0 => some s
        | cont + 1 => balanceLoop b e cont s
      else if x = b then balanceLoop b e (cont + 1) s
      else balanceLoop b e cont s

def matchbalance (s p : LuaString) : MatchM (Option LuaString) :=
  if at_ p 0 = '\x00' ∨ at_ p 1 = '\x00' then raise "unbalanced pattern"
  else if at_ s 0 ≠ at_ p 0 then pure none
  else pure (balanceLoop (at_ p 0) (at_ p 1) 0 s.tail)

/-- `s<ms->src_end && singlematch(uchar(*s), p, ep)` -/
def matchesNext (p ep : LuaString) : LuaString → Bool
  | [] => false
  | c :: _ => singlematch c p ep

/-- The first loop of `max_expand`. -/
def countLoop (p ep : LuaString) : LuaString → Nat
  | [] => 0
  | c :: s => if singlematch c p ep then countLoop p ep s + 1 else 0

/-- The second loop of `max_expand`; `k` matches the rest of the pattern. -/
def maxLoop (k : LuaString → MatchM (Option LuaString)) (s : LuaString) :
    Nat → MatchM (Option LuaString)
  | 0 => k s
  | i + 1 => do
      match ← k (s.drop (i + 1)) with
      | some res => return some res
      | none => maxLoop k s i

def maxExpand (k : LuaString → MatchM (Option LuaString)) (s p ep : LuaString) :
    MatchM (Option LuaString) := maxLoop k s (countLoop p ep s)

def minExpand (k : LuaString → MatchM (Option LuaString)) (p ep : LuaString) :
    LuaString → MatchM (Option LuaString)
  | [] => k []
  | c :: s => do
      match ← k (c :: s) with
      | some res => return some res
      | none => if singlematch c p ep then minExpand k p ep s else return none

def startCapture (k : LuaString → MatchM (Option LuaString)) (s : LuaString) (what : Len) :
    MatchM (Option LuaString) := do
  let caps ← get
  if MAXCAPTURES ≤ caps.length then raise "too many captures"
  else
    set (caps ++ [⟨s, what⟩])
    match ← k s with
    | some res => return some res
    | none =>
        modify List.dropLast
        return none

/-- `ms->capture[l].len = len` -/
def setLen (l : Nat) (len : Len) : MatchM Unit := modify fun caps => caps.modify l ({ · with len })

def endCapture (k : LuaString → MatchM (Option LuaString)) (s : LuaString) :
    MatchM (Option LuaString) := do
  let l ← captureToClose
  let caps ← get
  setLen l (.closed (((caps[l]?.map Capture.init).getD []).length - s.length))
  match ← k s with
  | some res => return some res
  | none =>
      setLen l .unfinished
      return none

/-- A position, as a `size_t`, is longer than any subject. -/
def matchCapture (s : LuaString) (l : Char) : MatchM (Option LuaString) := do
  let k ← checkCapture l
  match k.len with
  | .closed n =>
      if n ≤ s.length ∧ k.init.take n = s.take n then return some (s.drop n) else return none
  | _ => return none

/-- The `default` case of `match`: a single character, with its repetition. -/
def matchDefault (k : LuaString → LuaString → MatchM (Option LuaString)) (s p : LuaString) :
    MatchM (Option LuaString) := do
  let ep ← classend p
  match at_ ep 0 with
  | '?' =>
      if matchesNext p ep s then
        match ← k s.tail ep.tail with
        | some res => return some res
        | none => k s ep.tail
      else k s ep.tail
  | '*' => maxExpand (fun s => k s ep.tail) s p ep
  | '+' =>
      if matchesNext p ep s then maxExpand (fun s => k s ep.tail) s.tail p ep else return none
  | '-' => minExpand (fun s => k s ep.tail) p ep s
  | _ => if matchesNext p ep s then k s.tail ep else return none

/-- `match`, with at most `n` calls inside each other -/
def doMatch (src : LuaString) : Nat → LuaString → LuaString → MatchM (Option LuaString)
  | 0, _, _ => throw .rounds
  | n + 1, s, p =>
      match at_ p 0 with
      | '(' =>
          if at_ p 1 = ')' then startCapture (fun s => doMatch src n s (p.drop 2)) s .position
          else startCapture (fun s => doMatch src n s (p.drop 1)) s .unfinished
      | ')' => endCapture (fun s => doMatch src n s (p.drop 1)) s
      | '%' =>
          match at_ p 1 with
          | 'b' => do
              match ← matchbalance s (p.drop 2) with
              | none => return none
              | some s => doMatch src n s (p.drop 4)
          | 'f' =>
              if at_ p 2 ≠ '[' then raise "missing '[' after '%f' in pattern"
              else do
                let ep ← classend (p.drop 2)
                let previous := if s.length = src.length then '\x00'
                  else at_ src (src.length - s.length - 1)
                if matchbracketclass previous (p.drop 2) ep ∨
                    ¬ matchbracketclass (at_ s 0) (p.drop 2) ep then return none
                else doMatch src n s ep
          | d =>
              if d.isDigit then do
                match ← matchCapture s d with
                | none => return none
                | some s => doMatch src n s (p.drop 2)
              else matchDefault (doMatch src n) s p
      | '\x00' => return some s
      | '$' =>
          if at_ p 1 = '\x00' then
            if s = [] then return some s else return none
          else matchDefault (doMatch src n) s p
      | _ => matchDefault (doMatch src n) s p

/-- `ms->level = 0`, and `match` -/
def matchFrom (src s p : LuaString) : MatchM (Option LuaString) := do
  set ([] : List Capture)
  doMatch src (p.length + 1) s p

/-! ## The library -/

/-- The text from `s` up to `e`. -/
def between (s e : LuaString) : LuaString := s.take (s.length - e.length)

def pushOnecapture (src : LuaString) (i : Nat) (s e : LuaString) : MatchM Value := do
  let caps ← get
  match caps[i]? with
  | none => if i = 0 then return .str (between s e) else raise "invalid capture index"
  | some k =>
      match k.len with
      | .unfinished => raise "unfinished capture"
      | .position => return .other (src.length - k.init.length + 1)
      | .closed n => return .str (k.init.take n)

/-- The loop of `push_captures`, for the captures from `i` on. -/
def pushFrom (src s e : LuaString) : Nat → Nat → MatchM (List Value)
  | 0, _ => return []
  | n + 1, i => do
      let v ← pushOnecapture src i s e
      let vs ← pushFrom src s e n (i + 1)
      return v :: vs

/-- `push_captures`; `whole` if there is an `s`. -/
def pushCaptures (src : LuaString) (whole : Bool) (s e : LuaString) : MatchM (List Value) := do
  let caps ← get
  pushFrom src s e (if caps.length = 0 ∧ whole then 1 else caps.length) 0

/-- The loop of `lmemfind`: at most `l1` places, and the first character before the others. -/
def memLoop (c : Char) (s2 : LuaString) : Nat → LuaString → Option LuaString
  | l1 + 1, x :: s1 => if x = c ∧ s1.take s2.length = s2 then some (x :: s1) else memLoop c s2 l1 s1
  | _, _ => none

def lmemfind (s1 : LuaString) : LuaString → Option LuaString
  | [] => some s1
  | c :: s2 =>
      if s1.length < s2.length + 1 then none else memLoop c s2 (s1.length - s2.length) s1

def posrelat (pos : Int) (len : Nat) : Nat :=
  if pos < 0 then (pos + (len + 1)).toNat else pos.toNat

/-- The bytes of a C string. -/
def cstring (p : LuaString) : LuaString := p.takeWhile fun c => c ≠ '\x00'

/-- `SPECIALS` -/
def specials : List Char := "^$*+?.([%-".toList

/-- The results of `str_find_aux` for a match from `s1` up to `res`. -/
def pushFound (src : LuaString) (find : Bool) (s1 res : LuaString) : MatchM (List Value) := do
  let vs ← pushCaptures src (!find) s1 res
  if find then
    return .other (src.length - s1.length + 1) :: .other (src.length - res.length) :: vs
  else return vs

/-- The loop of `str_find_aux` over the starts of a match; `none` stands for `nil`. -/
def findLoop (src p : LuaString) (find anchor : Bool) :
    LuaString → MatchM (Option (List Value))
  | [] => do
      match ← matchFrom src [] p with
      | some res => return some (← pushFound src find [] res)
      | none => return none
  | c :: s => do
      match ← matchFrom src (c :: s) p with
      | some res => return some (← pushFound src find (c :: s) res)
      | none => if anchor then return none else findLoop src p find anchor s

/-- `*p == '^'`, and the pattern behind it -/
def anchored : LuaString → Bool × LuaString
  | '^' :: p => (true, p)
  | p => (false, p)

def strFindAux (find plain : Bool) (s p : LuaString) (init : Int) :
    MatchM (Option (List Value)) :=
  let start := s.drop (min (posrelat init s.length - 1) s.length)
  if find ∧ (plain ∨ ¬ (cstring p).any (· ∈ specials)) then
    match lmemfind start p with
    | some s2 =>
        return some [.other (s.length - s2.length + 1), .other (s.length - s2.length + p.length)]
    | none => return none
  else findLoop s (anchored p).2 find (anchored p).1 start

/-- `gmatch_aux`, from `src` on: the captures of the next match, and where to go on -/
def gmatchAux (src p : LuaString) : LuaString → MatchM (Option (List Value × Option LuaString))
  | [] => do
      match ← matchFrom src [] p with
      | some e => return some (← pushCaptures src true [] e, none)
      | none => return none
  | c :: s => do
      match ← matchFrom src (c :: s) p with
      | some e =>
          let vs ← pushCaptures src true (c :: s) e
          -- an empty match takes one character
          return some (vs, if e.length = s.length + 1 then some s else some e)
      | none => gmatchAux src p s

/-- A `for` loop over `gmatch`: the captures of all matches. -/
def gmatchLoop (src p : LuaString) : Nat → LuaString → MatchM (List (List Value))
  | 0, _ => throw .rounds
  | n + 1, s => do
      match ← gmatchAux src p s with
      | none => return []
      | some (vs, none) => return [vs]
      | some (vs, some s) =>
          let rest ← gmatchLoop src p n s
          return vs :: rest

def gmatch (s p : LuaString) : MatchM (List (List Value)) := gmatchLoop s p (s.length + 1) s

/-- What a replacement function or table gives. -/
inductive Given where
  /-- `nil` or `false` -/
  | falsy
  /-- a string, or a number as a string -/
  | text (s : LuaString)
  | invalid (typename : LuaString)

/-- The third argument of `gsub`. -/
inductive Repl where
  | text (news : LuaString)
  | function (f : List Value → Except LuaString Given)
  | table (t : Value → Given)

/-- `lua_tolstring`, of a capture -/
def textOf : Value → LuaString
  | .str s => s
  | .other n => (toString n).toList
  | .bool _ => []

/-- The loop of `add_s`. -/
def addS (src s e : LuaString) : LuaString → MatchM LuaString
  | [] => return []
  | ['%'] => return ['\x00']
  | '%' :: d :: news =>
      if ¬ d.isDigit then do
        let rest ← addS src s e news
        return d :: rest
      else if d = '0' then do
        let rest ← addS src s e news
        return between s e ++ rest
      else do
        let v ← pushOnecapture src (d.toNat - '1'.toNat) s e
        let rest ← addS src s e news
        return textOf v ++ rest
  | c :: news => do
      let rest ← addS src s e news
      return c :: rest

def invalid (typename : LuaString) : Failure :=
  .raised ("invalid replacement value (a ".toList ++ typename ++ ")".toList)

/-- The end of `add_value`. -/
def addGiven (s e : LuaString) : Given → MatchM LuaString
  | .falsy => return between s e
  | .text t => return t
  | .invalid typename => throw (invalid typename)

def addValue (src s e : LuaString) : Repl → MatchM LuaString
  | .text news => addS src s e news
  | .function f => do
      let vs ← pushCaptures src true s e
      match f vs with
      | .ok g => addGiven s e g
      | .error msg => throw (.raised msg)
  | .table t => do
      let v ← pushOnecapture src 0 s e
      addGiven s e (t v)

/-- A round of `str_gsub`: what is added to the buffer, the number of the matches, and where the
    loop goes on. -/
def gsubRound (src p : LuaString) (repl : Repl) (s : LuaString) :
    MatchM (LuaString × Nat × Option LuaString) := do
  match ← matchFrom src s p with
  | some e =>
      let added ← addValue src s e repl
      if e.length < s.length then return (added, 1, some e)
      else
        match s with
        | [] => return (added, 1, none)
        | c :: s => return (added ++ [c], 1, some s)
  | none =>
      match s with
      | [] => return ([], 0, none)
      | c :: s => return ([c], 0, some s)

def gsubLoop (src p : LuaString) (repl : Repl) (maxS : Nat) (anchor : Bool) :
    Nat → Nat → LuaString → MatchM (LuaString × Nat)
  | 0, _, _ => throw .rounds
  | rounds + 1, n, s =>
      if n < maxS then do
        let r ← gsubRound src p repl s
        match r.2.2 with
        | none => return (r.1, n + r.2.1)
        | some s =>
            if anchor then return (r.1 ++ s, n + r.2.1)
            else
              let rest ← gsubLoop src p repl maxS anchor rounds (n + r.2.1) s
              return (r.1 ++ rest.1, rest.2)
      else return (s, n)

def strGsub (s p : LuaString) (repl : Repl) (maxS : Nat) : MatchM (LuaString × Nat) :=
  gsubLoop s (anchored p).2 repl maxS (anchored p).1 (s.length + 1) 0 s

end Code

/-! ## Single steps -/

theorem singlematch_plain {x : Char} (hesc : x ≠ '%') (hset : x ≠ '[') (c : Char)
    (p ep : LuaString) :
    singlematch c (x :: p) ep = (decide (x = '.') || decide (x = c)) := by
  have hat : at_ (x :: p) 0 = x := rfl
  unfold singlematch
  split
  · rename_i h
    rw [hat] at h
    rw [decide_eq_true h, Bool.true_or]
  · rename_i h
    exact absurd (hat.symm.trans h) hesc
  · rename_i h
    exact absurd (hat.symm.trans h) hset
  · rename_i h _ _
    rw [hat] at h ⊢
    rw [decide_eq_false h, Bool.false_or]

theorem pushOnecapture_closed {src s e init : LuaString} {i n : Nat} {caps : List Capture}
    (h : caps[i]? = some ⟨init, .closed n⟩) :
    pushOnecapture src i s e caps = .ok (.str (init.take n)) caps := by
  have hget : (get : MatchM (List Capture)) caps = .ok caps caps := rfl
  refine (bind_ok hget).trans ?_
  rw [h]
  rfl

/-! ## Within the subject -/

def Capture.size (k : Capture) : Nat :=
  match k.len with
  | .closed n => n
  | _ => 0

/-- The captures lie in the subject and end in front of `s`, and there are places for them. -/
structure Within (src s : LuaString) (caps : List Capture) : Prop where
  level : caps.length ≤ MAXCAPTURES
  init : ∀ k ∈ caps, k.init <:+ src
  size : ∀ k ∈ caps, k.size ≤ k.init.length
  behind : ∀ k ∈ caps, s <:+ k.init.drop k.size

def messages : List String :=
  ["malformed pattern (missing ']')", "malformed pattern (ends with '%')",
    "missing '[' after '%f' in pattern", "unbalanced pattern", "invalid pattern capture",
    "invalid capture index", "too many captures", "unfinished capture"]

/-- An error with one of the messages. -/
def Known : Failure → Prop
  | .rounds => False
  | .raised s => ∃ m ∈ messages, s = m.toList

/-- A call ends with captures in the subject, or leaves them as they were. -/
def Safe (src s : LuaString) (m : MatchM (Option LuaString)) (caps : List Capture) : Prop :=
  Ends m caps
    (fun r caps' =>
      match r with
      | none => caps' = caps
      | some e => e <:+ s ∧ Within src e caps')
    fun e _ => Known e

section Safe

variable {src s s' p ep : LuaString} {caps : List Capture} {m : MatchM (Option LuaString)}
  {k : LuaString → MatchM (Option LuaString)}

theorem Within.mono (h : Within src s caps) (hs : s' <:+ s) : Within src s' caps :=
  ⟨h.level, h.init, h.size, fun k hk => hs.trans (h.behind k hk)⟩

theorem Safe.mono (h : Safe src s' m caps) (hs : s' <:+ s) : Safe src s m caps := by
  refine Ends.imp h fun r caps' hr => ?_
  cases r with
  | none => exact hr
  | some e => exact ⟨hr.1.trans hs, hr.2⟩

theorem safe_raise {msg : String} (h : msg ∈ messages) : Safe src s (raise msg) caps :=
  ends_throw ⟨msg, h, rfl⟩

theorem safe_none : Safe src s (pure none) caps := ends_pure (by simp)

theorem safe_some (h : Within src s' caps) (hs : s' <:+ s) : Safe src s (pure (some s')) caps :=
  ends_pure ⟨hs, h⟩

/-- The rest of the pattern, wherever it is tried. -/
def Goes (src s : LuaString) (k : LuaString → MatchM (Option LuaString)) : Prop :=
  ∀ s' caps, s' <:+ s → Within src s' caps → Safe src s' (k s') caps

theorem Goes.mono (h : Goes src s k) (hs : s' <:+ s) : Goes src s' k :=
  fun t caps ht hcaps => h t caps (ht.trans hs) hcaps

/-- One thing is tried, and another one if it fails. -/
theorem Safe.orElse (h : Safe src s m caps) {m' : MatchM (Option LuaString)}
    (h' : Safe src s m' caps) :
    Safe src s (do match ← m with | some res => return some res | none => m') caps := by
  refine Ends.then h fun r caps' hr => ?_
  cases r with
  | none =>
      change caps' = caps at hr
      rw [hr]
      exact h'
  | some e => exact safe_some hr.2 hr.1

theorem maxLoop_safe (hk : Goes src s k) (hcaps : Within src s caps) (i : Nat) :
    Safe src s (maxLoop k s i) caps := by
  induction i with
  | zero => exact hk s caps List.suffix_rfl hcaps
  | succ i ih =>
      have hdrop : s.drop (i + 1) <:+ s := List.drop_suffix _ s
      exact Safe.orElse ((hk _ caps hdrop (hcaps.mono hdrop)).mono hdrop) ih

theorem minExpand_safe (hk : Goes src s k) (hcaps : Within src s caps) :
    Safe src s (minExpand k p ep s) caps := by
  induction s with
  | nil => exact hk [] caps List.suffix_rfl hcaps
  | cons c s ih =>
      have hsuf : s <:+ c :: s := List.suffix_cons c s
      refine Safe.orElse (hk _ caps List.suffix_rfl hcaps) ?_
      refine ends_ite (fun _ => ?_) fun _ => safe_none
      exact (ih (hk.mono hsuf) (hcaps.mono hsuf)).mono hsuf

theorem Within.push {what : Len} (hcaps : Within src s caps) (hs : s <:+ src)
    (hlevel : caps.length < MAXCAPTURES) (hwhat : what = .position ∨ what = .unfinished) :
    Within src s (caps ++ [⟨s, what⟩]) := by
  have hsize : Capture.size ⟨s, what⟩ = 0 := by rcases hwhat with rfl | rfl <;> rfl
  refine ⟨?_, ?_, ?_, ?_⟩
  · rw [List.length_append]
    exact hlevel
  · exact List.forall_mem_append.mpr ⟨hcaps.init, by simpa using hs⟩
  · exact List.forall_mem_append.mpr ⟨hcaps.size, by simp [hsize]⟩
  · exact List.forall_mem_append.mpr ⟨hcaps.behind, by simp [hsize]⟩

theorem startCapture_safe {what : Len} (hk : Goes src s k) (hs : s <:+ src)
    (hcaps : Within src s caps) (hwhat : what = .position ∨ what = .unfinished) :
    Safe src s (startCapture k s what) caps := by
  refine Ends.bind (ends_get (ends_ite (fun _ => safe_raise (by decide)) fun hlevel => ?_))
  refine Ends.bind (ends_set ?_)
  have hpush : Within src s (caps ++ [⟨s, what⟩]) := hcaps.push hs (by omega) hwhat
  refine Ends.then (hk s _ List.suffix_rfl hpush) fun r caps' hr => ?_
  cases r with
  | none =>
      change caps' = _ at hr
      refine Ends.bind (ends_modify (ends_pure ?_))
      rw [hr]
      exact List.dropLast_concat
  | some e => exact safe_some hr.2 hr.1

theorem closeLoop_spec (l : Nat) :
    Ends (closeLoop caps l) caps
      (fun i caps' => caps' = caps ∧ (caps[i]?.map Capture.len) = some .unfinished)
      fun e _ => Known e := by
  induction l with
  | zero => exact ends_throw ⟨_, by decide, rfl⟩
  | succ l ih => exact ends_ite (fun h => ends_pure ⟨rfl, h⟩) fun _ => ih

theorem Within.close {x : Capture} {l : Nat} (hcaps : Within src s caps) (hx : caps[l]? = some x)
    (hlen : x.len = .unfinished) :
    Within src s (caps.modify l ({ · with len := .closed (x.init.length - s.length) })) := by
  have hmem : ∀ k ∈ caps.modify l ({ · with len := .closed (x.init.length - s.length) }),
      k ∈ caps ∨ k = ⟨x.init, .closed (x.init.length - s.length)⟩ := by
    intro k hk
    obtain ⟨i, hi⟩ := List.mem_iff_getElem?.mp hk
    rw [List.getElem?_modify] at hi
    obtain ⟨y, hy, rfl⟩ := Option.map_eq_some_iff.mp hi
    split
    · rename_i h
      rw [← h, hx] at hy
      cases hy
      exact Or.inr rfl
    · exact Or.inl (List.mem_of_getElem? hy)
  have hx' : x ∈ caps := List.mem_of_getElem? hx
  have hsuf : s <:+ x.init := by
    have h := hcaps.behind x hx'
    rwa [show x.size = 0 by simp [Capture.size, hlen], List.drop_zero] at h
  refine ⟨?_, ?_, ?_, ?_⟩
  · rw [List.length_modify]
    exact hcaps.level
  · intro k hk
    rcases hmem k hk with hk | rfl
    · exact hcaps.init k hk
    · exact hcaps.init x hx'
  · intro k hk
    rcases hmem k hk with hk | rfl
    · exact hcaps.size k hk
    · exact Nat.sub_le _ _
  · intro k hk
    rcases hmem k hk with hk | rfl
    · exact hcaps.behind k hk
    · rw [show Capture.size ⟨x.init, .closed (x.init.length - s.length)⟩ =
        x.init.length - s.length from rfl, ← List.suffix_iff_eq_drop.mp hsuf]

theorem captureToClose_spec :
    Ends captureToClose caps
      (fun i caps' => caps' = caps ∧ (caps[i]?.map Capture.len) = some .unfinished)
      fun e _ => Known e :=
  Ends.bind (ends_get (closeLoop_spec caps.length))

theorem modify_undo {x : Capture} {l : Nat} {len : Len} (hx : caps[l]? = some x) :
    (caps.modify l ({ · with len })).modify l ({ · with len := x.len }) = caps := by
  apply List.ext_getElem?
  intro i
  rw [List.getElem?_modify, List.getElem?_modify]
  by_cases hi : l = i
  · subst hi
    rw [hx]
    simp
  · simp [hi]

theorem endCapture_safe (hk : Goes src s k) (hcaps : Within src s caps) :
    Safe src s (endCapture k s) caps := by
  refine Ends.bind (Ends.imp captureToClose_spec ?_)
  rintro l _ ⟨rfl, hl⟩
  obtain ⟨x, hx, hlen⟩ := Option.map_eq_some_iff.mp hl
  refine Ends.bind (ends_get (Ends.bind (ends_modify ?_)))
  simp only [hx, Option.map_some, Option.getD_some]
  refine Ends.then (hk s _ List.suffix_rfl (hcaps.close hx hlen)) fun r caps' hr => ?_
  cases r with
  | none =>
      change caps' = _ at hr
      refine Ends.bind (ends_modify (ends_pure ?_))
      rw [hr, ← hlen]
      exact modify_undo hx
  | some e => exact safe_some hr.2 hr.1

/-- A call that does not touch the captures. -/
def Stays (s : LuaString) (m : MatchM (Option LuaString)) (caps : List Capture) : Prop :=
  Ends m caps (fun r caps' => caps' = caps ∧ ∀ e ∈ r, e <:+ s) fun e _ => Known e

theorem matchCapture_stays {l : Char} : Stays s (matchCapture s l) caps := by
  have hcheck : Ends (checkCapture l) caps (fun _ caps' => caps' = caps) fun e _ => Known e := by
    refine Ends.bind (ends_get (ends_ite (fun _ => ends_throw ⟨_, by decide, rfl⟩) fun _ => ?_))
    split
    · exact ends_throw ⟨_, by decide, rfl⟩
    · exact ends_ite (fun _ => ends_throw ⟨_, by decide, rfl⟩) fun _ => ends_pure rfl
  refine Ends.bind (Ends.imp hcheck ?_)
  rintro x _ rfl
  split
  · refine ends_ite (fun _ => ends_pure ⟨rfl, fun e he => ?_⟩) fun _ => ends_pure ⟨rfl, by simp⟩
    cases he
    exact List.drop_suffix _ s
  · exact ends_pure ⟨rfl, by simp⟩

theorem balanceLoop_suffix {b e : Char} {cont : Nat} (h : balanceLoop b e cont s = some s') :
    s' <:+ s := by
  fun_induction balanceLoop b e cont s with
  | case1 => cases h
  | case2 s =>
      cases h
      exact List.suffix_cons _ _
  | case3 s cont ih => exact (ih h).trans (List.suffix_cons _ _)
  | case4 cont s _ ih => exact (ih h).trans (List.suffix_cons _ _)
  | case5 cont x s _ _ ih => exact (ih h).trans (List.suffix_cons _ _)

theorem matchbalance_stays : Stays s (matchbalance s p) caps := by
  refine ends_ite (fun _ => ends_throw ⟨_, by decide, rfl⟩) fun _ => ?_
  refine ends_ite (fun _ => ends_pure ⟨rfl, by simp⟩) fun _ => ends_pure ⟨rfl, fun e he => ?_⟩
  exact (balanceLoop_suffix he).trans (List.tail_suffix s)

/-- Something is matched, and the rest of the pattern behind it. -/
theorem Stays.andThen (h : Stays s m caps) (hk : Goes src s k) (hcaps : Within src s caps) :
    Safe src s (do match ← m with | none => return none | some s => k s) caps := by
  refine Ends.bind (Ends.imp h ?_)
  rintro (_ | e) _ ⟨rfl, he⟩
  · exact safe_none
  · have hsuf := he e rfl
    exact Safe.mono (hk e _ hsuf (hcaps.mono hsuf)) hsuf

/-! The end of a class -/

/-- The class is not empty, and its end lies in the pattern. -/
def Ended (p : LuaString) (m : MatchM LuaString) (caps : List Capture) : Prop :=
  Ends m caps (fun ep caps' => caps' = caps ∧ ep.length < p.length) fun e _ => Known e

theorem Ended.mono {q : LuaString} {m : MatchM LuaString} (h : Ended q m caps)
    (hq : q.length ≤ p.length) : Ended p m caps :=
  Ends.imp h fun _ _ h => ⟨h.1, by omega⟩

theorem setEnd_spec {first : Bool} : Ended p (setEnd first p) caps := by
  fun_induction setEnd first p with
  | case1 => exact ends_throw ⟨_, by decide, rfl⟩
  | case2 => exact ends_pure ⟨rfl, by simp⟩
  | case3 => exact ends_throw ⟨_, by decide, rfl⟩
  | case4 => exact ends_throw ⟨_, by decide, rfl⟩
  | case5 => exact Ended.mono ‹_› (by simp)
  | case6 => exact Ended.mono ‹_› (by simp only [List.length_cons]; omega)
  | case7 => exact Ended.mono ‹_› (by simp)

theorem classend_spec (hp : p ≠ []) : Ended p (classend p) caps := by
  have hpos : 0 < p.length := List.length_pos_of_ne_nil hp
  unfold classend
  split
  · rename_i q
    have hlen : q.tail.length < ('%' :: q).length := by
      rw [List.length_tail, List.length_cons]
      omega
    exact ends_ite (fun _ => ends_throw ⟨_, by decide, rfl⟩) fun _ => ends_pure ⟨rfl, hlen⟩
  · exact setEnd_spec.mono (by simp only [List.length_cons]; omega)
  · exact setEnd_spec.mono (Nat.le_succ _)
  · exact ends_pure ⟨rfl, by rw [List.length_tail]; omega⟩

/-- The rest of the pattern from any place behind the first character. -/
def GoesOn (src s p : LuaString) (k : LuaString → LuaString → MatchM (Option LuaString)) : Prop :=
  ∀ q : LuaString, q.length < p.length → Goes src s fun s => k s q

theorem matchDefault_safe {k : LuaString → LuaString → MatchM (Option LuaString)}
    (hk : GoesOn src s p k) (hp : p ≠ []) (hcaps : Within src s caps) :
    Safe src s (matchDefault k s p) caps := by
  refine Ends.bind (Ends.imp (classend_spec hp) ?_)
  rintro ep _ ⟨rfl, hep⟩
  have htail : Goes src s fun s => k s ep.tail := hk _ (by rw [List.length_tail]; omega)
  have hsuf : s.tail <:+ s := List.tail_suffix s
  split
  · have hrest := htail s _ List.suffix_rfl hcaps
    exact ends_ite (fun _ => (Safe.mono (htail s.tail _ hsuf (hcaps.mono hsuf)) hsuf).orElse hrest)
      fun _ => hrest
  · exact maxLoop_safe htail hcaps _
  · exact ends_ite
      (fun _ => Safe.mono (maxLoop_safe (htail.mono hsuf) (hcaps.mono hsuf) _) hsuf)
      fun _ => safe_none
  · exact minExpand_safe htail hcaps
  · exact ends_ite (fun _ => Safe.mono (hk ep hep _ _ hsuf (hcaps.mono hsuf)) hsuf)
      fun _ => safe_none

/-- On any pattern and any subject, `match` ends: it returns a place in the subject, with captures
    in front of it, or leaves the captures as they were, or raises one of its errors. -/
theorem doMatch_safe {n : Nat} (hn : p.length < n) (hs : s <:+ src) (hcaps : Within src s caps) :
    Safe src s (doMatch src n s p) caps := by
  induction n generalizing s p caps with
  | zero => omega
  | succ n ih =>
      by_cases hp : p = []
      · subst hp
        exact safe_some hcaps List.suffix_rfl
      have hgoes : GoesOn src s p (doMatch src n) :=
        fun q hq s' caps hs' hcaps => ih (by omega) (hs'.trans hs) hcaps
      have hdrop : ∀ i, 0 < i → Goes src s fun s => doMatch src n s (p.drop i) := by
        intro i hi
        have hpos := List.length_pos_of_ne_nil hp
        refine hgoes _ ?_
        rw [List.length_drop]
        omega
      have hdefault := matchDefault_safe hgoes hp hcaps
      rw [doMatch]
      split
      · -- the beginning of a capture
        refine ends_ite (fun _ => ?_) fun _ => ?_
        · exact startCapture_safe (hdrop 2 (by omega)) hs hcaps (Or.inl rfl)
        · exact startCapture_safe (hdrop 1 (by omega)) hs hcaps (Or.inr rfl)
      · exact endCapture_safe (hdrop 1 (by omega)) hcaps
      · split
        · exact matchbalance_stays.andThen (hdrop 4 (by omega)) hcaps
        · refine ends_ite (fun _ => safe_raise (by decide)) fun h => ?_
          have hset : p.drop 2 ≠ [] := by
            intro hnil
            rw [List.drop_eq_nil_iff] at hnil
            rw [not_not, at_, List.getD_eq_getElem?_getD, List.getElem?_eq_none hnil] at h
            cases h
          refine Ends.bind (Ends.imp (classend_spec hset) ?_)
          rintro ep _ ⟨rfl, hep⟩
          refine ends_ite (fun _ => safe_none) fun _ => ?_
          refine hgoes ep ?_ s _ List.suffix_rfl hcaps
          rw [List.length_drop] at hep
          omega
        · exact ends_ite (fun _ => matchCapture_stays.andThen (hdrop 2 (by omega)) hcaps)
            fun _ => hdefault
      · exact safe_some hcaps List.suffix_rfl
      · refine ends_ite (fun _ => ?_) fun _ => hdefault
        exact ends_ite (fun _ => safe_some hcaps List.suffix_rfl) fun _ => safe_none
      · exact hdefault

/-- A match is tried, from the state without captures. -/
theorem matchFrom_safe {β : Type} {f : LuaString → MatchM β} {m : MatchM β}
    {ok : β → List Capture → Prop} {bad : Failure → List Capture → Prop} (hs : s <:+ src)
    (hsome : ∀ e caps', matchFrom src s p [] = .ok (some e) caps' → e <:+ s →
      Within src e caps' → Ends (f e) caps' ok bad)
    (hnone : matchFrom src s p [] = .ok none [] → Ends m [] ok bad)
    (hbad : ∀ e caps', Known e → bad e caps') :
    Ends (do match ← matchFrom src s p with | some e => f e | none => m) caps ok bad := by
  have hnil : Within src s [] := ⟨by decide, by simp, by simp, by simp⟩
  have hsafe : Safe src s (doMatch src (p.length + 1) s p) [] :=
    doMatch_safe (Nat.lt_succ_self _) hs hnil
  refine Ends.bind (Ends.bind (ends_set (Ends.mono (Ends.eq hsafe) ?_ fun e _ => hbad e _)))
  rintro (_ | e) caps' ⟨h, heq⟩
  · change caps' = [] at h
    subst h
    exact hnone heq
  · exact hsome e caps' heq h.1 h.2

/-! ## The library -/

/-- A part of the subject, or a position in it. -/
def Part (src : LuaString) : Value → Prop
  | .str t => t <:+: src
  | .other n => n ≤ src.length + 1
  | .bool _ => False

theorem part_between {e : LuaString} (hs : s <:+ src) : Part src (.str (between s e)) :=
  (List.take_prefix _ s).isInfix.trans hs.isInfix

theorem pushOnecapture_spec {e : LuaString} {i : Nat} (hs : s <:+ src) (hcaps : Within src e caps) :
    Ends (pushOnecapture src i s e) caps (fun v caps' => Part src v ∧ caps' = caps)
      fun e _ => Known e := by
  refine Ends.bind (ends_get ?_)
  split
  · exact ends_ite (fun _ => ends_pure ⟨part_between hs, rfl⟩)
      fun _ => ends_throw ⟨_, by decide, rfl⟩
  · rename_i k hk
    have hmem : k ∈ caps := List.mem_of_getElem? hk
    split
    · exact ends_throw ⟨_, by decide, rfl⟩
    · refine ends_pure ⟨?_, rfl⟩
      change src.length - k.init.length + 1 ≤ src.length + 1
      omega
    · exact ends_pure ⟨(List.take_prefix _ k.init).isInfix.trans (hcaps.init k hmem).isInfix, rfl⟩

theorem pushFrom_spec {e : LuaString} (hs : s <:+ src) (hcaps : Within src e caps) (n i : Nat) :
    Ends (pushFrom src s e n i) caps (fun vs caps' => (∀ v ∈ vs, Part src v) ∧ caps' = caps)
      fun e _ => Known e := by
  induction n generalizing i with
  | zero => exact ends_pure ⟨by simp, rfl⟩
  | succ n ih =>
      refine Ends.bind (Ends.imp (pushOnecapture_spec hs hcaps) ?_)
      rintro v _ ⟨hv, rfl⟩
      refine Ends.bind (Ends.imp (ih (i + 1)) ?_)
      rintro vs _ ⟨hvs, rfl⟩
      exact ends_pure ⟨List.forall_mem_cons.mpr ⟨hv, hvs⟩, rfl⟩

theorem pushCaptures_spec {whole : Bool} {e : LuaString} (hs : s <:+ src)
    (hcaps : Within src e caps) :
    Ends (pushCaptures src whole s e) caps (fun vs caps' => (∀ v ∈ vs, Part src v) ∧ caps' = caps)
      fun e _ => Known e :=
  Ends.bind (ends_get (pushFrom_spec hs hcaps _ 0))

theorem pushFound_spec {find : Bool} {e : LuaString} (hs : s <:+ src) (hcaps : Within src e caps) :
    Ends (pushFound src find s e) caps (fun vs _ => ∀ v ∈ vs, Part src v) fun e _ => Known e := by
  refine Ends.bind (Ends.imp (pushCaptures_spec hs hcaps) ?_)
  rintro vs _ ⟨hvs, rfl⟩
  refine ends_ite (fun _ => ends_pure ?_) fun _ => ends_pure hvs
  refine List.forall_mem_cons.mpr ⟨?_, List.forall_mem_cons.mpr ⟨?_, hvs⟩⟩
  · change src.length - s.length + 1 ≤ src.length + 1
    omega
  · change src.length - e.length ≤ src.length + 1
    omega

theorem findLoop_spec {find anchor : Bool} (hs : s <:+ src) :
    Ends (findLoop src p find anchor s) caps (fun r _ => ∀ vs ∈ r, ∀ v ∈ vs, Part src v)
      fun e _ => Known e := by
  have hfound : ∀ {s e : LuaString} {caps' : List Capture}, s <:+ src → Within src e caps' →
      Ends (do return some (← pushFound src find s e)) caps'
        (fun r _ => ∀ vs ∈ r, ∀ v ∈ vs, Part src v) fun e _ => Known e := by
    intro s e caps' hs hcaps
    refine Ends.bind (Ends.imp (pushFound_spec hs hcaps) fun vs _ hvs => ends_pure ?_)
    intro vs' hmem
    cases hmem
    exact hvs
  induction s generalizing caps with
  | nil =>
      exact matchFrom_safe hs (fun e _ _ _ hcaps => hfound hs hcaps) (fun _ => ends_pure (by simp))
        fun _ _ h => h
  | cons c s ih =>
      refine matchFrom_safe hs (fun e _ _ _ hcaps => hfound hs hcaps) (fun _ => ?_) fun _ _ h => h
      exact ends_ite (fun _ => ends_pure (by simp)) fun _ => ih ((List.suffix_cons c s).trans hs)

theorem memLoop_eq (c : Char) (s2 s : LuaString) :
    memLoop c s2 (s.length - s2.length) s = s.tails.find? fun u => (c :: s2).isPrefixOf u := by
  induction s with
  | nil =>
      rw [List.length_nil, Nat.zero_sub]
      rfl
  | cons x s ih =>
      rw [List.tails_cons, List.find?_cons]
      by_cases hlen : s2.length ≤ s.length
      · have hsucc : (x :: s).length - s2.length = s.length - s2.length + 1 := by
          rw [List.length_cons]
          omega
        have hprefix : (c :: s2).isPrefixOf (x :: s) = decide (x = c ∧ s.take s2.length = s2) := by
          rw [Bool.eq_iff_iff, List.isPrefixOf_iff_prefix, decide_eq_true_iff,
            List.cons_prefix_cons, List.prefix_iff_eq_take, eq_comm, @eq_comm _ s2]
        rw [hsucc, memLoop, ih, hprefix]
        by_cases h : x = c ∧ s.take s2.length = s2 <;> simp [h]
      · have hzero : (x :: s).length - s2.length = 0 := by
          rw [List.length_cons]
          omega
        have hprefix : (c :: s2).isPrefixOf (x :: s) = false := by
          rw [Bool.eq_false_iff, ne_eq, List.isPrefixOf_iff_prefix]
          intro h
          have hle := h.length_le
          rw [List.length_cons, List.length_cons] at hle
          omega
        have hrest : s.length - s2.length = 0 := by omega
        rw [hrest] at ih
        rw [hzero, hprefix, ← ih]
        cases s <;> rfl

theorem lmemfind_eq (s t : LuaString) : lmemfind s t = s.tails.find? fun u => t.isPrefixOf u := by
  cases t with
  | nil => cases s <;> rfl
  | cons c s2 =>
      rw [← memLoop_eq, lmemfind]
      split
      · have hzero : s.length - s2.length = 0 := by omega
        rw [hzero]
        cases s <;> rfl
      · rfl

/-- The places of `t` in `s`, from `start` on. -/
def places (s t : LuaString) (start : Nat) : Set Nat := {i | start ≤ i ∧ t <+: s.drop i}

/-- The first of the ends of a text that has a property. -/
theorem find_tails (P : LuaString → Bool) (s : LuaString) :
    (s.tails.find? P = none ∧ ∀ i, P (s.drop i) = false) ∨
      ∃ i ≤ s.length, s.tails.find? P = some (s.drop i) ∧ P (s.drop i) = true ∧
        ∀ j < i, P (s.drop j) = false := by
  induction s with
  | nil =>
      cases h : P [] with
      | false => exact Or.inl ⟨by simp [h], by simp [h]⟩
      | true => exact Or.inr ⟨0, le_refl 0, by simp [h], h, by simp⟩
  | cons x s ih =>
      rw [List.tails_cons, List.find?_cons]
      cases h : P (x :: s) with
      | true => exact Or.inr ⟨0, Nat.zero_le _, rfl, h, by simp⟩
      | false =>
          rcases ih with ⟨hnone, hall⟩ | ⟨i, hi, hfind, hP, hlt⟩
          · refine Or.inl ⟨hnone, fun i => ?_⟩
            cases i with
            | zero => exact h
            | succ i => exact hall i
          · refine Or.inr ⟨i + 1, Nat.succ_le_succ hi, hfind, hP, fun j hj => ?_⟩
            cases j with
            | zero => exact h
            | succ j => exact hlt j (by omega)

/-- The plain search finds the first place where the text stands. -/
theorem lmemfind_least (s t : LuaString) {start : Nat} (hstart : start ≤ s.length) :
    (lmemfind (s.drop start) t = none ∧ places s t start = ∅) ∨
      ∃ i ≤ s.length, lmemfind (s.drop start) t = some (s.drop i) ∧
        IsLeast (places s t start) i := by
  have hiff : ∀ u : LuaString, t <+: u ↔ t.isPrefixOf u = true :=
    fun u => List.isPrefixOf_iff_prefix.symm
  have hno : ∀ i, t.isPrefixOf ((s.drop start).drop i) = false → start + i ∉ places s t start := by
    intro i hi hmem
    have hpre := (hiff _).mp hmem.2
    rw [← List.drop_drop, hi] at hpre
    cases hpre
  rw [lmemfind_eq]
  rcases find_tails (fun u => t.isPrefixOf u) (s.drop start) with
    ⟨hnone, hall⟩ | ⟨i, hi, hfind, hP, hlt⟩
  · refine Or.inl ⟨hnone, Set.eq_empty_of_forall_notMem fun j hj => ?_⟩
    have hsub : start + (j - start) = j := Nat.add_sub_cancel' hj.1
    exact hno (j - start) (hall _) (by rwa [hsub])
  · rw [List.length_drop] at hi
    rw [List.drop_drop] at hfind hP
    refine Or.inr ⟨start + i, by omega, hfind, ⟨Nat.le_add_right _ _, (hiff _).mpr hP⟩, ?_⟩
    intro j hj
    by_contra hji
    have hsub : start + (j - start) = j := Nat.add_sub_cancel' hj.1
    exact hno (j - start) (hlt _ (by omega)) (by rwa [hsub])

/-- The place where a search begins. -/
def startOf (init : Int) (s : LuaString) : Nat := min (posrelat init s.length - 1) s.length

/-- `string.find` and `string.match`, on any subject and any pattern: what they return are parts
    of the subject and positions in it, and a text without special characters is looked for at its
    first place. -/
theorem strFindAux_parts (find plain : Bool) (s p : LuaString) (init : Int) (caps : List Capture) :
    Ends (strFindAux find plain s p init) caps
      (fun r _ => (∀ vs ∈ r, ∀ v ∈ vs, Part s v) ∧
        (find = true → plain = true ∨ (∀ c ∈ cstring p, c ∉ specials) →
          (r = none ∧ places s p (startOf init s) = ∅) ∨
            ∃ i, IsLeast (places s p (startOf init s)) i ∧
              r = some [.other (i + 1), .other (i + p.length)]))
      fun e _ => Known e := by
  have hstart : startOf init s ≤ s.length := Nat.min_le_right _ _
  refine ends_ite (fun _ => ?_) fun hplain => ?_
  · rcases lmemfind_least s p hstart with ⟨hnone, hempty⟩ | ⟨i, hi, hsome, hleast⟩
    · rw [show lmemfind (s.drop (min (posrelat init s.length - 1) s.length)) p = none from hnone]
      exact ends_pure ⟨by simp, fun _ _ => Or.inl ⟨rfl, hempty⟩⟩
    · rw [show lmemfind (s.drop (min (posrelat init s.length - 1) s.length)) p = some (s.drop i)
        from hsome]
      have hplace : s.length - (s.drop i).length = i := by
        rw [List.length_drop]
        omega
      have hle : p.length ≤ s.length - i := by
        rw [← List.length_drop]
        exact hleast.1.2.length_le
      refine ends_pure ⟨?_, fun _ _ => Or.inr ⟨i, hleast, ?_⟩⟩
      · intro vs hvs
        cases hvs
        rw [hplace]
        refine List.forall_mem_cons.mpr ⟨?_, List.forall_mem_singleton.mpr ?_⟩
        · change i + 1 ≤ s.length + 1
          omega
        · change i + p.length ≤ s.length + 1
          omega
      · rw [hplace]
  · refine Ends.imp (findLoop_spec (List.drop_suffix _ s)) fun r _ hr => ⟨hr, fun hf hp => ?_⟩
    refine absurd ⟨hf, hp.imp_right fun h => ?_⟩ hplain
    simpa using h

theorem gmatchAux_spec (hs : s <:+ src) :
    Ends (gmatchAux src p s) caps
      (fun r _ => ∀ x ∈ r, (∀ v ∈ x.1, Part src v) ∧ ∀ s' ∈ x.2, s' <:+ s ∧ s'.length < s.length)
      fun e _ => Known e := by
  induction s generalizing caps with
  | nil =>
      refine matchFrom_safe hs (fun e _ _ _ hcaps => ?_) (fun _ => ends_pure (by simp))
        fun _ _ h => h
      refine Ends.bind (Ends.imp (pushCaptures_spec hs hcaps) ?_)
      rintro vs _ ⟨hvs, -⟩
      exact ends_pure (by simpa using hvs)
  | cons c s ih =>
      have hsuf : s <:+ c :: s := List.suffix_cons c s
      refine matchFrom_safe hs (fun e _ _ he hcaps => ?_) (fun _ => ?_) fun _ _ h => h
      · refine Ends.bind (Ends.imp (pushCaptures_spec hs hcaps) ?_)
        rintro vs _ ⟨hvs, -⟩
        refine ends_pure fun x hx => ?_
        cases hx
        refine ⟨hvs, fun s' hs' => ?_⟩
        have hle := he.length_le
        rw [List.length_cons] at hle ⊢
        split at hs'
        · cases hs'
          exact ⟨hsuf, by omega⟩
        · cases hs'
          exact ⟨he, by omega⟩
      · refine Ends.imp (ih (hsuf.trans hs)) fun r _ h x hx => ?_
        refine ⟨(h x hx).1, fun s' hs' => ?_⟩
        obtain ⟨hs'', hlt⟩ := (h x hx).2 s' hs'
        exact ⟨hs''.trans hsuf, by rw [List.length_cons]; omega⟩

theorem gmatchLoop_spec {n : Nat} (hn : s.length < n) (hs : s <:+ src) :
    Ends (gmatchLoop src p n s) caps
      (fun r _ => r.length ≤ s.length + 1 ∧ ∀ vs ∈ r, ∀ v ∈ vs, Part src v) fun e _ => Known e := by
  induction n generalizing s caps with
  | zero => omega
  | succ n ih =>
      refine Ends.bind (Ends.imp (gmatchAux_spec hs) ?_)
      rintro (_ | ⟨vs, _ | s'⟩) caps' h
      · exact ends_pure (by simp)
      · exact ends_pure ⟨by simp, by simpa using (h _ rfl).1⟩
      · obtain ⟨hvs, hs'⟩ := h _ rfl
        obtain ⟨hsuf, hlt⟩ := hs' s' rfl
        refine Ends.bind (Ends.imp (ih (by omega) (hsuf.trans hs)) ?_)
        rintro rest _ ⟨hlen, hrest⟩
        refine ends_pure ⟨?_, List.forall_mem_cons.mpr ⟨hvs, hrest⟩⟩
        rw [List.length_cons]
        omega

/-- A loop over `gmatch` ends. -/
theorem gmatch_parts (s p : LuaString) (caps : List Capture) :
    Ends (gmatch s p) caps (fun r _ => r.length ≤ s.length + 1 ∧ ∀ vs ∈ r, ∀ v ∈ vs, Part s v)
      fun e _ => Known e :=
  gmatchLoop_spec (Nat.lt_succ_self _) List.suffix_rfl

/-! ### Replacing -/

/-- The errors of a replacement function or table. -/
def Repl.Raises : Repl → Failure → Prop
  | .text _, _ => False
  | .function f, e =>
      ∃ vs, (∃ msg, f vs = .error msg ∧ e = .raised msg) ∨
        ∃ typename, f vs = .ok (.invalid typename) ∧ e = invalid typename
  | .table t, e => ∃ v typename, t v = .invalid typename ∧ e = invalid typename

theorem addS_spec {e news : LuaString} (hs : s <:+ src) (hcaps : Within src e caps) :
    Ends (addS src s e news) caps (fun _ _ => True) fun e _ => Known e := by
  fun_induction addS src s e news with
  | case1 => exact ends_pure trivial
  | case2 => exact ends_pure trivial
  | case3 => exact Ends.then ‹_› fun _ _ _ => ends_pure trivial
  | case4 => exact Ends.then ‹_› fun _ _ _ => ends_pure trivial
  | case5 d news h h' ih =>
      refine Ends.bind (Ends.imp (pushOnecapture_spec hs hcaps) ?_)
      rintro v _ ⟨-, rfl⟩
      exact Ends.then ih fun _ _ _ => ends_pure trivial
  | case6 => exact Ends.then ‹_› fun _ _ _ => ends_pure trivial

theorem addValue_spec {e : LuaString} {repl : Repl} (hs : s <:+ src) (hcaps : Within src e caps) :
    Ends (addValue src s e repl) caps (fun _ _ => True) fun e _ => Known e ∨ repl.Raises e := by
  have hknown : ∀ {α : Type} {m : MatchM α} {ok : α → List Capture → Prop},
      Ends m caps ok (fun e _ => Known e) → Ends m caps ok fun e _ => Known e ∨ repl.Raises e :=
    fun h => h.mono (fun _ _ h => h) fun _ _ h => Or.inl h
  have hgiven : ∀ g : Given, (∀ typename, g = .invalid typename → repl.Raises (invalid typename)) →
      Ends (addGiven s e g) caps (fun _ _ => True) fun e _ => Known e ∨ repl.Raises e := by
    intro g hg
    cases g with
    | falsy => exact ends_pure trivial
    | text t => exact ends_pure trivial
    | invalid typename => exact ends_throw (Or.inr (hg typename rfl))
  cases repl with
  | text news => exact hknown (addS_spec hs hcaps)
  | function f =>
      refine Ends.bind (Ends.imp (hknown (pushCaptures_spec hs hcaps)) ?_)
      rintro vs _ ⟨-, rfl⟩
      cases hf : f vs with
      | error msg => exact ends_throw (Or.inr ⟨vs, Or.inl ⟨msg, hf, rfl⟩⟩)
      | ok g => exact hgiven g fun typename h => ⟨vs, Or.inr ⟨typename, by rw [hf, h], rfl⟩⟩
  | table t =>
      refine Ends.bind (Ends.imp (hknown (pushOnecapture_spec hs hcaps)) ?_)
      rintro v _ ⟨-, rfl⟩
      exact hgiven (t v) fun typename h => ⟨v, typename, h, rfl⟩

/-- A part of the subject that is kept, or what replaces it. -/
structure Piece where
  text : LuaString
  added : Option LuaString

def before (l : List Piece) : LuaString := l.flatMap Piece.text

def after (l : List Piece) : LuaString := l.flatMap fun x => x.added.getD x.text

def count (l : List Piece) : Nat := l.countP fun x => x.added.isSome

/-- No match stands at `s`. -/
def Misses (src p s : LuaString) : Prop := matchFrom src s p [] = .ok none []

/-- `t` replaces the match that stands at `s`, in front of `e`. -/
def Replaces (src p : LuaString) (repl : Repl) (s e t : LuaString) : Prop :=
  ∃ caps caps', matchFrom src s p [] = .ok (some e) caps ∧ addValue src s e repl caps = .ok t caps'

/-- No round comes after the pieces. -/
def Over (maxS : Nat) (anchor : Bool) (l : List Piece) : Prop :=
  maxS ≤ count l ∨ anchor = true ∧ l ≠ []

/-- The last of the pieces is an empty match, so that a character is kept behind it. -/
def AfterEmpty (l : List Piece) : Prop := ∃ l' t, l = l' ++ [⟨[], some t⟩]

/-- Why a piece is replaced or kept, behind the pieces `l` and in front of `e`. -/
def Piece.Right (src p : LuaString) (repl : Repl) (maxS : Nat) (anchor : Bool) (l : List Piece)
    (x : Piece) (e : LuaString) : Prop :=
  match x.added with
  | some t => ¬ Over maxS anchor l ∧ ¬ AfterEmpty l ∧ Replaces src p repl (x.text ++ e) e t
  | none => Over maxS anchor l ∨
      x.text.length = 1 ∧ (AfterEmpty l ∨ Misses src p (x.text ++ e))

/-- The pieces, behind `l` and in front of `e`, are those that `gsub` makes. -/
def Cut (src p : LuaString) (repl : Repl) (maxS : Nat) (anchor : Bool) :
    List Piece → List Piece → LuaString → Prop
  | _, [], _ => True
  | l, x :: l', e => x.Right src p repl maxS anchor l (before l' ++ e) ∧
      Cut src p repl maxS anchor (l ++ [x]) l' e

section Cut

variable {repl : Repl} {maxS : Nat} {anchor : Bool} {l l' l'' : List Piece} {e : LuaString}

theorem before_append (l l' : List Piece) : before (l ++ l') = before l ++ before l' :=
  List.flatMap_append

theorem after_append (l l' : List Piece) : after (l ++ l') = after l ++ after l' :=
  List.flatMap_append

theorem count_append (l l' : List Piece) : count (l ++ l') = count l + count l' :=
  List.countP_append

theorem Cut.append (h : Cut src p repl maxS anchor l l' (before l'' ++ e))
    (h' : Cut src p repl maxS anchor (l ++ l') l'' e) :
    Cut src p repl maxS anchor l (l' ++ l'') e := by
  induction l' generalizing l with
  | nil => rwa [List.append_nil] at h'
  | cons x l' ih =>
      refine ⟨?_, ih h.2 (by rwa [List.append_cons] at h')⟩
      change x.Right src p repl maxS anchor l (before (l' ++ l'') ++ e)
      rw [before_append, List.append_assoc]
      exact h.1

theorem cut_replaced {t u : LuaString} (hover : ¬ Over maxS anchor l) (hempty : ¬ AfterEmpty l)
    (h : Replaces src p repl (u ++ e) e t) : Cut src p repl maxS anchor l [⟨u, some t⟩] e :=
  ⟨⟨hover, hempty, h⟩, trivial⟩

theorem cut_char {c : Char} (h : AfterEmpty l ∨ Misses src p (c :: e)) :
    Cut src p repl maxS anchor l [⟨[c], none⟩] e := ⟨Or.inr ⟨rfl, h⟩, trivial⟩

theorem cut_rest (h : Over maxS anchor l) : Cut src p repl maxS anchor l [⟨e, none⟩] [] :=
  ⟨Or.inl h, trivial⟩

theorem afterEmpty_append (l : List Piece) (t : LuaString) : AfterEmpty (l ++ [⟨[], some t⟩]) :=
  ⟨l, t, rfl⟩

theorem not_afterEmpty_append {x : Piece} (hx : x.text ≠ []) (l : List Piece) :
    ¬ AfterEmpty (l ++ [x]) := by
  rintro ⟨l', t, h⟩
  have hlast := List.singleton_inj.mp (List.append_inj' h rfl).2
  exact hx (by rw [hlast])

theorem not_over (hn : count l < maxS) (hanchor : anchor = true → l = []) :
    ¬ Over maxS anchor l := by
  rintro (h | ⟨h, hl⟩)
  · omega
  · exact hl (hanchor h)

end Cut

theorem between_append {e : LuaString} (h : e <:+ s) : between s e ++ e = s := by
  obtain ⟨u, rfl⟩ := h
  rw [between, List.length_append, Nat.add_sub_cancel, List.take_left]

/-- A round with the result `r` makes the pieces `l'` of the beginning of `s`, behind the
    pieces `l`. -/
structure Made (src p : LuaString) (repl : Repl) (maxS : Nat) (anchor : Bool) (l : List Piece)
    (s : LuaString) (r : LuaString × Nat × Option LuaString) (l' : List Piece) : Prop where
  before_eq : before l' ++ r.2.2.getD [] = s
  after_eq : after l' = r.1
  count_eq : count l' = r.2.1
  count_le : count l' ≤ 1
  cut : Cut src p repl maxS anchor l l' (r.2.2.getD [])
  stops : r.2.2 = none → AfterEmpty (l ++ l') ∨ Misses src p []
  goesOn : ∀ s' ∈ r.2.2, s'.length < s.length ∧ l' ≠ [] ∧ ¬ AfterEmpty (l ++ l')

theorem gsubRound_spec {repl : Repl} {maxS : Nat} {anchor : Bool} {l : List Piece} (hs : s <:+ src)
    (hover : ¬ Over maxS anchor l) (hempty : ¬ AfterEmpty l) :
    Ends (gsubRound src p repl s) caps (fun r _ => ∃ l', Made src p repl maxS anchor l s r l')
      fun e _ => Known e ∨ repl.Raises e := by
  refine matchFrom_safe hs (fun e caps' hmatch he hcaps => ?_) (fun hmiss => ?_)
    fun _ _ h => Or.inl h
  · refine Ends.then (Ends.eq (addValue_spec hs hcaps)) fun t caps'' ht => ?_
    have hrepl : Replaces src p repl (between s e ++ e) e t := by
      rw [between_append he]
      exact ⟨caps', caps'', hmatch, ht.2⟩
    refine ends_ite (fun hlt => ends_pure ⟨[⟨between s e, some t⟩], ?_⟩) fun hlt => ?_
    · have hne : between s e ≠ [] := by
        intro hnil
        have h := between_append he
        rw [hnil, List.nil_append] at h
        rw [h] at hlt
        exact absurd hlt (lt_irrefl _)
      refine ⟨by simp [before, between_append he], by simp [after], rfl, le_refl 1,
        cut_replaced hover hempty hrepl, by simp, ?_⟩
      rintro s' hs'
      cases hs'
      exact ⟨hlt, by simp, not_afterEmpty_append hne l⟩
    · -- an empty match
      have hes : e = s := he.eq_of_length_le (Nat.le_of_not_lt hlt)
      subst hes
      have hnil : between e e = [] := by
        rw [between, Nat.sub_self, List.take_zero]
      rw [hnil] at hrepl
      have hlast := afterEmpty_append l t
      have hcut := cut_replaced hover hempty hrepl
      cases e with
      | nil =>
          exact ends_pure ⟨[⟨[], some t⟩], rfl, by simp [after], rfl, le_refl 1, hcut,
            fun _ => Or.inl hlast, by simp⟩
      | cons c s =>
          refine ends_pure ⟨[⟨[], some t⟩, ⟨[c], none⟩], rfl, by simp [after], rfl, le_refl 1,
            hcut.append (cut_char (Or.inl hlast)), by simp, ?_⟩
          rintro s' hs'
          cases hs'
          refine ⟨Nat.lt_succ_self _, by simp, ?_⟩
          rw [List.append_cons]
          exact not_afterEmpty_append (List.cons_ne_nil c []) _
  · cases s with
    | nil =>
        exact ends_pure ⟨[], rfl, rfl, rfl, Nat.zero_le 1, trivial, fun _ => Or.inr hmiss, by simp⟩
    | cons c s =>
        refine ends_pure ⟨[⟨[c], none⟩], rfl, rfl, rfl, Nat.zero_le 1, cut_char (Or.inr hmiss),
          by simp, ?_⟩
        rintro s' hs'
        cases hs'
        exact ⟨Nat.lt_succ_self _, by simp, not_afterEmpty_append (List.cons_ne_nil c []) l⟩

/-- The rounds from here on make the pieces `l'` of `s`, behind the pieces `l`. -/
structure Replaced (src p : LuaString) (repl : Repl) (maxS : Nat) (anchor : Bool)
    (l : List Piece) (s : LuaString) (r : LuaString × Nat) (l' : List Piece) : Prop where
  before_eq : before l' = s
  after_eq : after l' = r.1
  count_eq : count (l ++ l') = r.2
  count_le : r.2 ≤ maxS
  cut : Cut src p repl maxS anchor l l' []
  ends : Over maxS anchor (l ++ l') ∨ AfterEmpty (l ++ l') ∨ Misses src p []

section Rounds

variable {repl : Repl} {maxS : Nat} {anchor : Bool} {l l' l'' : List Piece} {added : LuaString}
  {m : Nat}

theorem replaced_rest (h : Over maxS anchor l) (hle : count l ≤ maxS) (s : LuaString) :
    Replaced src p repl maxS anchor l s (s, count l) [⟨s, none⟩] := by
  refine ⟨by simp [before], by simp [after], count_append _ _, hle, cut_rest h, Or.inl ?_⟩
  rcases h with h | h
  · exact Or.inl (h.trans (by rw [count_append]; exact Nat.le_add_right _ _))
  · exact Or.inr ⟨h.1, List.append_ne_nil_of_left_ne_nil h.2 _⟩

/-- The last round. -/
theorem Made.last (h : Made src p repl maxS anchor l s (added, m, none) l')
    (hn : count l < maxS) : Replaced src p repl maxS anchor l s (added, count l + m) l' := by
  have hbefore : before l' ++ [] = s := h.before_eq
  have hm : count l' = m := h.count_eq
  have hle := h.count_le
  refine ⟨(List.append_nil _).symm.trans hbefore, h.after_eq, ?_, ?_, h.cut, Or.inr (h.stops rfl)⟩
  · rw [count_append, hm]
  · change count l + m ≤ maxS
    omega

/-- A round, and the others. -/
theorem Made.then {rest : LuaString × Nat}
    (h : Made src p repl maxS anchor l s (added, m, some s') l')
    (h' : Replaced src p repl maxS anchor (l ++ l') s' rest l'') :
    Replaced src p repl maxS anchor l s (added ++ rest.1, rest.2) (l' ++ l'') := by
  have hbefore : before l' ++ s' = s := h.before_eq
  have hcut : Cut src p repl maxS anchor l l' s' := h.cut
  refine ⟨?_, ?_, ?_, h'.count_le, Cut.append ?_ h'.cut, ?_⟩
  · rw [before_append, h'.before_eq, hbefore]
  · rw [after_append, h'.after_eq, h.after_eq]
  · rw [← List.append_assoc]
    exact h'.count_eq
  · rw [List.append_nil, h'.before_eq]
    exact hcut
  · rw [← List.append_assoc]
    exact h'.ends

end Rounds

theorem gsubLoop_spec {repl : Repl} {maxS rounds : Nat} {anchor : Bool} {l : List Piece}
    (hrounds : s.length < rounds) (hs : s <:+ src) (hcount : count l ≤ maxS)
    (hanchor : anchor = true → l = []) (hempty : ¬ AfterEmpty l) :
    Ends (gsubLoop src p repl maxS anchor rounds (count l) s) caps
      (fun r _ => ∃ l', Replaced src p repl maxS anchor l s r l')
      fun e _ => Known e ∨ repl.Raises e := by
  induction rounds generalizing l s caps with
  | zero => omega
  | succ rounds ih =>
      refine ends_ite (fun hn => ?_) fun hn => ?_
      · refine Ends.bind (Ends.imp (gsubRound_spec hs (not_over hn hanchor) hempty) ?_)
        rintro ⟨added, m, _ | s'⟩ caps' ⟨l', hl'⟩
        · exact ends_pure ⟨l', hl'.last hn⟩
        · obtain ⟨hlen, hne, hempty'⟩ := hl'.goesOn s' rfl
          have hbefore : before l' ++ s' = s := hl'.before_eq
          have hm : count l' = m := hl'.count_eq
          have hle : count l' ≤ 1 := hl'.count_le
          have hcount' : count (l ++ l') = count l + m := by rw [count_append, hm]
          refine ends_ite (fun ha => ends_pure ?_) fun ha => ?_
          · -- an anchored pattern has one round
            have hover : Over maxS anchor (l ++ l') := Or.inr ⟨ha, by simp [hne]⟩
            have hrest : Replaced src p repl maxS anchor (l ++ l') s' _ _ :=
              replaced_rest hover (by omega) s'
            rw [hcount'] at hrest
            exact ⟨_, hl'.then hrest⟩
          · have hsuf : s' <:+ s := ⟨before l', hbefore⟩
            have hrest := @ih s' caps' (l ++ l') (by omega) (hsuf.trans hs) (by omega)
              (fun h => absurd h ha) hempty'
            rw [hcount'] at hrest
            refine Ends.bind (Ends.imp hrest ?_)
            rintro rest _ ⟨l'', hl''⟩
            exact ends_pure ⟨_, hl'.then hl''⟩
      · exact ends_pure ⟨_, replaced_rest (Or.inl (Nat.le_of_not_lt hn)) hcount s⟩

/-- `string.gsub` ends. It replaces at most `maxS` pieces of the subject, which are the matches
    from the left to the right (one at the start only, if the pattern is anchored), and all others
    stay where they are. -/
theorem strGsub_pieces (s p : LuaString) (repl : Repl) (maxS : Nat) (caps : List Capture) :
    Ends (strGsub s p repl maxS) caps
      (fun r _ => r.2 ≤ maxS ∧ ∃ l, before l = s ∧ after l = r.1 ∧ count l = r.2 ∧
        Cut s (anchored p).2 repl maxS (anchored p).1 [] l [] ∧
        (Over maxS (anchored p).1 l ∨ AfterEmpty l ∨ Misses s (anchored p).2 []))
      fun e _ => Known e ∨ repl.Raises e := by
  have hempty : ¬ AfterEmpty [] := by
    rintro ⟨l', t, h⟩
    exact List.append_ne_nil_of_right_ne_nil l' (List.cons_ne_nil _ _) h.symm
  refine Ends.imp (gsubLoop_spec (l := []) (Nat.lt_succ_self _) List.suffix_rfl (Nat.zero_le _)
    (fun _ => rfl) hempty) ?_
  rintro r _ ⟨l, hl⟩
  exact ⟨hl.count_le, l, hl.before_eq, hl.after_eq, hl.count_eq, hl.cut, hl.ends⟩

/-- Behind a match, an empty one counts as well. -/
example : (match strGsub "abc".toList "b*".toList (.text "-".toList) 9 [] with
    | .ok r _ => some r
    | .error .. => none) = some ("-a--c-".toList, 4) := by decide

end Safe

end Buildsh.Matching
