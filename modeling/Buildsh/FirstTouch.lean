/-
  The inputs of a command are decided by the first touch.

  `Reads`, `Creates` and `RenamesAway` say what an event does to a key, for the data of its
  process; `callsOf` lists the handler calls of a run in the order in which they are made, each
  with this data. With nothing delayed this is the order of the log; a delayed event is called
  when its process is registered.

  A key that is read before it is created becomes an input and stays one (`input_of_readFirst`).
  A key that is created first is an output from then on, so that no read makes it an input
  unless it is renamed away in between (`not_input_of_createdFirst`).
-/
import Buildsh.Trace

namespace Buildsh.FirstTouch
open Buildsh.Generic Buildsh.Base Buildsh.Trace

/-! ## Events and keys -/

section Events

variable (ape : Ape) (d : PData) (p : LuaString)

/-- The event reads `p`. -/
def Reads : Event → Prop
  | .open_ name .input _ => getPath ape d.cwd name = some p
  | .openat atfd name .input _ => getPathat ape d atfd name = some p
  | .exec prog => prog ≠ ape.basename prog ∧ getPath ape d.cwd prog = some p
  | .rename src _ => getPath ape d.cwd src = some p
  | .renameat atfd src _ _ => getPathat ape d atfd src = some p
  | _ => False

/-- The event writes or creates `p`. -/
def Creates : Event → Prop
  | .open_ name .output _ => getPath ape d.cwd name = some p
  | .openat atfd name .output _ => getPathat ape d atfd name = some p
  | .creat name _ => getPath ape d.cwd name = some p
  | .mkdir name => getPath ape d.cwd name = some p
  | .mkdirat atfd name => getPathat ape d atfd name = some p
  | .rename src dst => getPath ape d.cwd dst = some p ∧ getPath ape d.cwd src ≠ some p
  | .renameat atfd src atfd2 dst =>
      getPathat ape d atfd2 dst = some p ∧ getPathat ape d atfd src ≠ some p
  | _ => False

/-- The event has `p` as the source of a rename. -/
def RenamesAway : Event → Prop
  | .rename src _ => getPath ape d.cwd src = some p
  | .renameat atfd src _ _ => getPathat ape d atfd src = some p
  | _ => False

/-- The event finds a key for every name it is given. -/
def Resolves : Event → Prop
  | .open_ name _ _ | .creat name _ | .exec name | .chdir name | .mkdir name =>
      (getPath ape d.cwd name).isSome = true
  | .openat atfd name _ _ | .mkdirat atfd name => (getPathat ape d atfd name).isSome = true
  | .rename src dst =>
      (getPath ape d.cwd src).isSome = true ∧ (getPath ape d.cwd dst).isSome = true
  | .renameat atfd src atfd2 dst =>
      (getPathat ape d atfd src).isSome = true ∧ (getPathat ape d atfd2 dst).isSome = true
  | .fchdir _ | .fork _ => True

theorem raisesOn_of_resolves {e : Event} (h : Resolves ape d e) : raisesOn ape d e = none := by
  cases e with
  | rename src dst =>
      refine if_neg ?_
      rintro ⟨hs, -⟩
      have hsome := h.1
      rw [hs] at hsome
      cases hsome
  | _ => rfl

end Events

/-- Every event is one of a registered process and finds a key for every name. -/
def Resolved (ape : Ape) : List (Pid × Event) → World → Prop
  | [], _ => True
  | x :: log, w =>
      ∃ d, w.pd x.1 = some d ∧ Resolves ape d x.2 ∧ Resolved ape log (after ape w x.1 d x.2)

theorem knownRun_of_resolved {ape : Ape} {log : List (Pid × Event)} {w : World}
    (h : Resolved ape log w) : ∃ w', KnownRun (machine ape) w log w' := by
  induction log generalizing w with
  | nil => exact ⟨w, .nil w⟩
  | cons x log ih =>
      obtain ⟨d, hd, hx, hlog⟩ := h
      obtain ⟨w', hw'⟩ := ih hlog
      have hknown : (machine ape).known w x.1 = true := by
        change (w.pd x.1).isSome = true
        rw [hd]
        rfl
      have hbody : (machine ape).body w x.1 x.2 = .ok (after ape w x.1 d x.2) := by
        change body ape w x.1 x.2 = _
        rw [body_eq hd, raisesOn_of_resolves ape d hx]
      exact ⟨w', .cons hknown hbody hw'⟩

/-- A handler call: the data of the process before the call, and the event. -/
abbrev Call := PData × Event

/-- The handler calls of a run, in the order in which they are made. -/
def callsOf (ape : Ape) : List (Pid × Event) → World → List Call
  | [], _ => []
  | x :: X, w =>
      match w.pd x.1, body ape w x.1 x.2 with
      | some d, .ok w' => (d, x.2) :: callsOf ape X w'
      | none, .ok w' => callsOf ape X w'
      | _, .error _ => []

section Calls

variable (ape : Ape) (p : LuaString)

/-- No call reads or creates `p`. -/
def Untouched (calls : List Call) : Prop :=
  ∀ c ∈ calls, ¬ Reads ape c.1 p c.2 ∧ ¬ Creates ape c.1 p c.2

/-- The first call that touches `p` reads it. -/
def ReadFirst (calls : List Call) : Prop :=
  ∃ a c b, calls = a ++ c :: b ∧ Untouched ape p a ∧ Reads ape c.1 p c.2

/-- The first call that touches `p` creates it, and none after it renames it away. -/
def CreatedFirst (calls : List Call) : Prop :=
  ∃ a c b, calls = a ++ c :: b ∧ Untouched ape p a ∧ Creates ape c.1 p c.2 ∧
    ∀ c' ∈ b, ¬ RenamesAway ape c'.1 p c'.2

end Calls

/-! ## The cell of a key -/

/-- What a call does to the cell of `p`. -/
def act (ape : Ape) (p : LuaString) (c : Cell) (x : Call) : Cell :=
  (touchOf ape x.1 x.2).actAt p c

section Cells

variable {ape : Ape} {p : LuaString}

/-- A run, seen at one key. -/
theorem cell_bodies {X : List (Pid × Event)} {w w' : World}
    (h : bodies (machine ape) X w = .ok w') :
    cell w'.td p = (callsOf ape X w).foldl (act ape p) (cell w.td p) := by
  induction X generalizing w with
  | nil => cases h; rfl
  | cons x X ih =>
      cases hb : body ape w x.1 x.2 with
      | error err =>
          have hb' : (machine ape).body w x.1 x.2 = .error err := hb
          rw [bodies, hb'] at h
          cases h
      | ok w₁ =>
          rw [bodies_cons_ok (machine ape) hb] at h
          rw [ih h]
          cases hpd : w.pd x.1 with
          | none =>
              have hcalls : callsOf ape (x :: X) w = callsOf ape X w₁ := by
                simp only [callsOf, hpd, hb]
              rw [hcalls, body_none hpd hb]
          | some d =>
              have hcalls : callsOf ape (x :: X) w = (d, x.2) :: callsOf ape X w₁ := by
                simp only [callsOf, hpd, hb]
              have hcell : cell w₁.td p = act ape p (cell w.td p) (d, x.2) := by
                rw [eq_after_of_body_ok hpd hb, after_td]
                exact cell_touch _ _ _
              rw [hcalls, List.foldl_cons, hcell]

theorem act_of_untouched {x : Call} (hr : ¬ Reads ape x.1 p x.2) (hc : ¬ Creates ape x.1 p x.2)
    (c : Cell) : act ape p c x = c := by
  apply Touch.actAt_of_not_touches
  obtain ⟨d, e⟩ := x
  have hopen : ∀ (path : Option LuaString) (dir : Dir), path ≠ some p →
      ¬ (Touch.ofOpen path dir).Touches p := by
    intro path dir hp
    cases path with
    | none => cases dir <;> exact id
    | some q => cases dir <;> exact fun h => hp (congrArg some (Eq.symm h))
  cases e with
  | open_ name dir fd => cases dir; exacts [hopen _ .input hr, hopen _ .output hc]
  | openat atfd name dir fd => cases dir; exacts [hopen _ .input hr, hopen _ .output hc]
  | creat name fd => exact hopen _ .output hc
  | mkdir name => exact hopen _ .output hc
  | mkdirat atfd name => exact hopen _ .output hc
  | exec prog =>
      simp only [touchOf]
      split
      · exact hopen _ .input fun h => hr ⟨by assumption, h⟩
      · exact id
  | chdir name => exact id
  | fchdir fd => exact id
  | fork c => exact id
  | rename src dst => rintro (h | h); exacts [hr h, hc ⟨h, hr⟩]
  | renameat atfd src atfd2 dst => rintro (h | h); exacts [hr h, hc ⟨h, hr⟩]

theorem foldl_untouched {a : List Call} (h : Untouched ape p a) (c : Cell) :
    a.foldl (act ape p) c = c := by
  induction a generalizing c with
  | nil => rfl
  | cons x a ih =>
      obtain ⟨hr, hc⟩ := h x List.mem_cons_self
      rw [List.foldl_cons, act_of_untouched hr hc]
      exact ih (fun y hy => h y (List.mem_cons_of_mem _ hy)) c

/-! ## Read first -/

theorem read_isSome {c : Cell} (h : c.1.isSome = true) : (Cell.read c).1.isSome = true := by
  unfold Cell.read
  split
  · exact h
  · rfl

theorem read_of_not_output {c : Cell} (h : c.2 = none) : (Cell.read c).1.isSome = true := by
  unfold Cell.read
  rw [h]
  rfl

/-- Of a touch, an input is left as it is or made. -/
theorem actAt_input (t : Touch) (c : Cell) :
    (t.actAt p c).1 = c.1 ∨ (t.actAt p c).1 = (Cell.read c).1 := by
  cases t with
  | nothing => exact Or.inl rfl
  | read q =>
      by_cases h : p = q
      · exact Or.inr (by simp [Touch.actAt, h])
      · exact Or.inl (by simp [Touch.actAt, h])
  | write q => exact Or.inl (by by_cases h : p = q <;> simp [Touch.actAt, h])
  | move src dst =>
      by_cases hs : src = some p
      · refine Or.inr ?_
        by_cases hd : dst = none
        · simp [Touch.actAt, hs, hd]
        · by_cases hp : dst = some p <;> simp [Touch.actAt, hs, hd, hp]
      · refine Or.inl ?_
        by_cases hd : dst = none
        · simp [Touch.actAt, hs, hd]
        · by_cases hp : dst = some p <;> simp [Touch.actAt, hs, hd, hp]

/-- An input stays one. -/
theorem foldl_input {l : List Call} {c : Cell} (h : c.1.isSome = true) :
    (l.foldl (act ape p) c).1.isSome = true := by
  induction l generalizing c with
  | nil => exact h
  | cons x l ih =>
      refine ih ?_
      rcases actAt_input (p := p) (touchOf ape x.1 x.2) c with hx | hx
      · exact hx ▸ h
      · exact hx ▸ read_isSome h

theorem actAt_move_source (dst : Option LuaString) (c : Cell) :
    ((Touch.move (some p) dst).actAt p c).1 = (Cell.read c).1 := by
  by_cases hd : dst = none
  · simp [Touch.actAt, hd]
  · by_cases hp : dst = some p <;> simp [Touch.actAt, hd, hp]

theorem act_of_reads {x : Call} (h : Reads ape x.1 p x.2) (c : Cell) :
    (act ape p c x).1 = (Cell.read c).1 := by
  obtain ⟨d, e⟩ := x
  have hread : ∀ path : Option LuaString, path = some p →
      ((Touch.ofRead path).actAt p c).1 = (Cell.read c).1 := by
    rintro _ rfl
    simp [Touch.ofRead, Touch.actAt]
  cases e with
  | open_ name dir fd => cases dir; exacts [hread _ h, h.elim]
  | openat atfd name dir fd => cases dir; exacts [hread _ h, h.elim]
  | exec prog => simp only [act, touchOf, if_pos h.1]; exact hread _ h.2
  | rename src dst =>
      have hs : getPath ape d.cwd src = some p := h
      simp only [act, touchOf, hs]
      exact actAt_move_source _ c
  | renameat atfd src atfd2 dst =>
      have hs : getPathat ape d atfd src = some p := h
      simp only [act, touchOf, hs]
      exact actAt_move_source _ c
  | _ => exact h.elim

theorem input_of_readFirst {calls : List Call} {c : Cell} (h : ReadFirst ape p calls)
    (hc : c.2 = none) : (calls.foldl (act ape p) c).1.isSome = true := by
  obtain ⟨a, x, b, rfl, ha, hx⟩ := h
  rw [List.foldl_append, foldl_untouched ha, List.foldl_cons]
  apply foldl_input
  rw [act_of_reads hx]
  exact read_of_not_output hc

/-! ## Created first -/

/-- `p` is an output and no input. -/
def OutputOnly (c : Cell) : Prop := c.1 = none ∧ c.2 = some (.bool true)

theorem read_of_outputOnly {c : Cell} (h : OutputOnly c) : Cell.read c = c := by
  unfold Cell.read
  rw [h.2]
  rfl

theorem act_of_creates {x : Call} (h : Creates ape x.1 p x.2) {c : Cell} (hc : c.1 = none) :
    OutputOnly (act ape p c x) := by
  obtain ⟨d, e⟩ := x
  have hwrite : ∀ path : Option LuaString, path = some p →
      OutputOnly ((Touch.ofWrite path).actAt p c) := by
    rintro _ rfl
    simp [Touch.ofWrite, Touch.actAt, OutputOnly, hc]
  have hmove : ∀ src dst : Option LuaString, dst = some p ∧ src ≠ some p →
      OutputOnly ((Touch.move src dst).actAt p c) := by
    rintro src _ ⟨rfl, hs⟩
    simp [Touch.actAt, OutputOnly, hs, hc]
  cases e with
  | open_ name dir fd => cases dir; exacts [h.elim, hwrite _ h]
  | openat atfd name dir fd => cases dir; exacts [h.elim, hwrite _ h]
  | creat name fd => exact hwrite _ h
  | mkdir name => exact hwrite _ h
  | mkdirat atfd name => exact hwrite _ h
  | rename src dst => exact hmove _ _ h
  | renameat atfd src atfd2 dst => exact hmove _ _ h
  | _ => exact h.elim

/-- A touch of an output that does not rename it away. -/
theorem actAt_outputOnly {t : Touch} {c : Cell} (hc : OutputOnly c)
    (ht : ∀ dst, t ≠ .move (some p) dst) : OutputOnly (t.actAt p c) := by
  cases t with
  | nothing => exact hc
  | read q =>
      simp only [Touch.actAt, read_of_outputOnly hc, ite_self]
      exact hc
  | write q =>
      simp only [Touch.actAt]
      split
      · exact ⟨hc.1, rfl⟩
      · exact hc
  | move src dst =>
      have hs : src ≠ some p := fun h => ht dst (by rw [h])
      simp only [Touch.actAt, if_neg hs]
      split
      · exact hc
      · split
        · exact ⟨hc.1, rfl⟩
        · exact hc

theorem renamesAway_of_move {x : Call} {dst : Option LuaString}
    (h : touchOf ape x.1 x.2 = .move (some p) dst) : RenamesAway ape x.1 p x.2 := by
  obtain ⟨d, e⟩ := x
  have hopen : ∀ (path : Option LuaString) (dir : Dir), Touch.ofOpen path dir ≠ .move (some p) dst := by
    intro path dir
    cases path <;> cases dir <;> exact Touch.noConfusion
  cases e with
  | open_ name dir fd => exact absurd h (hopen _ _)
  | openat atfd name dir fd => exact absurd h (hopen _ _)
  | creat name fd => exact absurd h (hopen _ .output)
  | mkdir name => exact absurd h (hopen _ .output)
  | mkdirat atfd name => exact absurd h (hopen _ .output)
  | exec prog =>
      simp only [touchOf] at h
      split at h
      · exact absurd h (hopen _ .input)
      · cases h
  | chdir name => cases h
  | fchdir fd => cases h
  | fork c => cases h
  | rename src dst' => exact (Touch.move.inj h).1
  | renameat atfd src atfd2 dst' => exact (Touch.move.inj h).1

theorem not_input_of_createdFirst {calls : List Call} {c : Cell} (h : CreatedFirst ape p calls)
    (hc : c.1 = none) : (calls.foldl (act ape p) c).1 = none := by
  obtain ⟨a, x, b, rfl, ha, hx, hb⟩ := h
  rw [List.foldl_append, foldl_untouched ha, List.foldl_cons]
  have hkeep : ∀ (l : List Call) (c : Cell), OutputOnly c →
      (∀ y ∈ l, ¬ RenamesAway ape y.1 p y.2) → OutputOnly (l.foldl (act ape p) c) := by
    intro l
    induction l with
    | nil => exact fun c hc _ => hc
    | cons y l ih =>
        intro c hc hl
        refine ih _ (actAt_outputOnly hc fun dst hy => ?_) fun z hz => hl z (List.mem_cons_of_mem _ hz)
        exact hl y List.mem_cons_self (renamesAway_of_move hy)
  exact (hkeep b _ (act_of_creates hx hc) hb).1

end Cells

/-! ## Whole traces -/

/-- **The first touch decides.** `s.world.2` are the events in the order in which their handlers
    are called: the log itself, if every event is one of a registered process. -/
theorem first_touch (ape : Ape) {w : World} (hw : w.td = ⟨∅, ∅⟩) (depth : Nat)
    (log : List (Pid × Event)) :
    (Resolved ape log w → ∃ s,
      run (machine ape).recorded depth (State.start (w, [])) log = .ok s ∧ s.world.2 = log) ∧
    ∀ s, run (machine ape).recorded depth (State.start (w, [])) log = .ok s → ∀ p,
      (ReadFirst ape p (callsOf ape s.world.2 w) → p ∈ s.world.1.td.input) ∧
      (CreatedFirst ape p (callsOf ape s.world.2 w) → p ∉ s.world.1.td.input) := by
  constructor
  · intro h
    obtain ⟨w', hw'⟩ := knownRun_of_resolved h
    exact ⟨_, run_of_knownRun hw' depth [], rfl⟩
  · intro s hrun p
    have hcell := cell_bodies (p := p) (bodies_of_recorded hrun)
    have hstart : cell w.td p = (none, none) := by
      rw [hw]
      rfl
    rw [hstart] at hcell
    have hinput : s.world.1.td.input.lookup p =
        ((callsOf ape s.world.2 w).foldl (act ape p) (none, none)).1 := congrArg Prod.fst hcell
    constructor
    · intro h
      rw [← AList.lookup_isSome, hinput]
      exact input_of_readFirst h rfl
    · intro h
      rw [← AList.lookup_eq_none, hinput]
      exact not_input_of_createdFirst h rfl

/-- A source is compiled by a child, which reads its object file back, and the program is
    renamed. -/
def touchLog : List (Pid × Event) :=
  [("1".toList, .open_ "a.c".toList .input "3".toList), ("1".toList, .fork "2".toList),
    ("2".toList, .creat "a.o".toList "4".toList),
    ("2".toList, .open_ "a.o".toList .input "5".toList),
    ("1".toList, .rename "a.tmp".toList "a.out".toList)]

theorem resolved_touchLog :
    Resolved (Apr.unixApe "/p".toList) touchLog (World.start "1".toList ".".toList) :=
  ⟨_, rfl, rfl, _, rfl, trivial, _, rfl, rfl, _, rfl, rfl, _, rfl, ⟨rfl, rfl⟩, trivial⟩

theorem readFirst_touchLog : ReadFirst (Apr.unixApe "/p".toList) "./a.c".toList
    (callsOf (Apr.unixApe "/p".toList) touchLog (World.start "1".toList ".".toList)) :=
  ⟨[], _, _, rfl, fun _ h => absurd h List.not_mem_nil, rfl⟩

theorem createdFirst_touchLog : CreatedFirst (Apr.unixApe "/p".toList) "./a.o".toList
    (callsOf (Apr.unixApe "/p".toList) touchLog (World.start "1".toList ".".toList)) := by
  refine ⟨[_, _], _, [_, _], rfl, ?_, rfl, ?_⟩
  · simp only [Untouched, List.forall_mem_cons]
    refine ⟨⟨?_, id⟩, ⟨id, id⟩, List.forall_mem_nil _⟩
    change ¬ getPath (Apr.unixApe "/p".toList) ".".toList "a.c".toList = some "./a.o".toList
    decide
  · simp only [List.forall_mem_cons]
    refine ⟨id, ?_, List.forall_mem_nil _⟩
    change ¬ getPath (Apr.unixApe "/p".toList) ".".toList "a.tmp".toList = some "./a.o".toList
    decide

/-- The source is an input, the object file is none. -/
theorem first_touch_touchLog :
    ∃ s, run (machine (Apr.unixApe "/p".toList)).recorded 5
        (State.start (World.start "1".toList ".".toList, [])) touchLog = .ok s ∧
      s.world.2 = touchLog ∧ "./a.c".toList ∈ s.world.1.td.input ∧
      "./a.o".toList ∉ s.world.1.td.input := by
  obtain ⟨hruns, hends⟩ := first_touch (Apr.unixApe "/p".toList)
    (w := World.start "1".toList ".".toList) rfl 5 touchLog
  obtain ⟨s, hrun, hcalls⟩ := hruns resolved_touchLog
  obtain ⟨hread, -⟩ := hends s hrun "./a.c".toList
  obtain ⟨-, hcreated⟩ := hends s hrun "./a.o".toList
  rw [hcalls] at hread hcreated
  exact ⟨s, hrun, hcalls, hread readFirst_touchLog, hcreated createdFirst_touchLog⟩

end Buildsh.FirstTouch
