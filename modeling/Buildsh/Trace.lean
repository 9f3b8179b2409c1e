/-
  What a trace adds up to.

  `body_eq` says what every handler of `Base` does in terms of the data of its process: it raises
  (`raisesOn`), or it changes this data (`nextData`) and touches the tables of dependencies
  (`touchOf`). A touch acts on every key by itself (`Touch.actAt`), and touches that share no
  key, or only read it, commute (`actAt_comm`).

  So the handlers are an instance of the delay queue and of the interleaving theory
  (`localView`). `events_not_lost`: on the log of a process tree the delay queue runs every
  handler once, in the order of each process and after the process is registered, and is empty
  at the end. `same_deps`: two interleavings that apply conflicting events in the same order end
  with the same dependencies and the same processes.
-/
import Buildsh.Apr

namespace Buildsh.Trace
open Buildsh.Generic Buildsh.Base

/-! ## Touches -/

/-- What an event does to the tables of dependencies. -/
inductive Touch where
  | nothing
  | read (p : LuaString)
  | write (p : LuaString)
  | move (src dst : Option LuaString)
  deriving DecidableEq, Repr

def Touch.ofRead : Option LuaString → Touch
  | none => .nothing
  | some p => .read p

def Touch.ofWrite : Option LuaString → Touch
  | none => .nothing
  | some p => .write p

def Touch.ofOpen (path : Option LuaString) : Dir → Touch
  | .input => .ofRead path
  | .output => .ofWrite path

section Events

variable (ape : Ape)

def touchOf (d : PData) : Event → Touch
  | .open_ name dir _ => .ofOpen (getPath ape d.cwd name) dir
  | .openat atfd name dir _ => .ofOpen (getPathat ape d atfd name) dir
  | .creat name _ => .ofWrite (getPath ape d.cwd name)
  | .exec prog => if prog ≠ ape.basename prog then .ofRead (getPath ape d.cwd prog) else .nothing
  | .chdir _ => .nothing
  | .fchdir _ => .nothing
  | .mkdir name => .ofWrite (getPath ape d.cwd name)
  | .mkdirat atfd name => .ofWrite (getPathat ape d atfd name)
  | .fork _ => .nothing
  | .rename src dst => .move (getPath ape d.cwd src) (getPath ape d.cwd dst)
  | .renameat atfd src atfd2 dst => .move (getPathat ape d atfd src) (getPathat ape d atfd2 dst)

/-- `chdir`, on the data of the process. -/
def PData.enter (d : PData) (name : LuaString) : PData :=
  { d with cwd := (getPath ape d.cwd name).getD name }

def nextData (d : PData) : Event → PData
  | .open_ name _ fd => d.setFd fd ((getPath ape d.cwd name).getD name)
  | .openat atfd name _ fd => d.setFd fd ((getPathat ape d atfd name).getD name)
  | .creat name fd => d.setFd fd ((getPath ape d.cwd name).getD name)
  | .chdir name => PData.enter ape d name
  | .fchdir fd =>
      match d.fds fd with
      | none => d
      | some name => PData.enter ape d name
  | .exec _ | .mkdir _ | .mkdirat .. | .fork _ | .rename .. | .renameat .. => d

/-- Only `rename` raises: when its target has a key and its source has none. -/
def raisesOn (d : PData) : Event → Option LuaError
  | .rename src dst =>
      if getPath ape d.cwd src = none ∧ getPath ape d.cwd dst ≠ none then some .nilKey else none
  | _ => none

end Events

/-- A touch of the tables. -/
def touch (td : TempDeps) : Touch → TempDeps
  | .nothing => td
  | .read p => td.setInput p
  | .write p => td.setOutput p
  | .move src dst =>
      let td := match src with
        | none => td
        | some f => td.setInput f
      match dst with
      | none => td
      | some t =>
          let td := match src with
            | none => td
            | some f => td.clearOutput f
          td.setOutput t

theorem setProc_self {w : World} {p : Pid} {d : PData} (h : w.pd p = some d) :
    w.setProc p d = w := by
  unfold World.setProc
  rw [← h, Function.update_eq_self]

@[simp] theorem setProc_td (w : World) (p : Pid) (d : PData) : (w.setProc p d).td = w.td := rfl

@[simp] theorem setProc_pd (w : World) (p : Pid) (d : PData) :
    (w.setProc p d).pd = Function.update w.pd p (some d) := rfl

theorem touch_ofOpen (td : TempDeps) (path : Option LuaString) (dir : Dir) :
    touch td (.ofOpen path dir) = td.opened path dir := by
  cases path <;> cases dir <;> rfl

/-- The world after an event of a process with data `d`. -/
def after (ape : Ape) (w : World) (p : Pid) (d : PData) (e : Event) : World :=
  let w := { w with td := touch w.td (touchOf ape d e) }.setProc p (nextData ape d e)
  match e.announces with
  | none => w
  | some c => w.setProc c (nextData ape d e)

section Bodies

variable {ape : Ape} {w : World} {p : Pid} {d : PData}

theorem after_of_same {e : Event} (h : w.pd p = some d) (hn : nextData ape d e = d)
    (ha : e.announces = none) :
    after ape w p d e = { w with td := touch w.td (touchOf ape d e) } := by
  unfold after
  rw [hn, ha]
  exact setProc_self h

/-- **One handler.** -/
theorem body_eq (h : w.pd p = some d) (e : Event) :
    body ape w p e =
      match raisesOn ape d e with
      | some err => .error err
      | none => .ok (after ape w p d e) := by
  cases e with
  | open_ name dir fd =>
      simp only [body, open_, withProc, h, raisesOn, after, Event.announces, touchOf, nextData,
        touch_ofOpen]
  | openat atfd name dir fd =>
      simp only [body, openat, withProc, h, raisesOn, after, Event.announces, touchOf, nextData,
        touch_ofOpen]
  | creat name fd =>
      simp only [body, creat, withProc, h, raisesOn, after, Event.announces, touchOf, nextData]
      cases getPath ape d.cwd name <;> rfl
  | exec prog =>
      simp only [body, exec, raisesOn]
      rw [after_of_same h rfl rfl, touchOf]
      by_cases hb : prog ≠ ape.basename prog
      · simp only [if_pos hb, withProc, h]
        cases getPath ape d.cwd prog <;> rfl
      · simp only [if_neg hb]
        rfl
  | chdir name => simp only [body, chdir, withProc, h, raisesOn, after, Event.announces]; rfl
  | fchdir fd =>
      simp only [body, fchdir, withProc, h, raisesOn]
      cases hfd : d.fds fd with
      | none =>
          have hn : nextData ape d (.fchdir fd) = d := by simp only [nextData, hfd]
          rw [after_of_same h hn rfl]
          rfl
      | some name =>
          have hn : nextData ape d (.fchdir fd) = PData.enter ape d name := by
            simp only [nextData, hfd]
          simp only [chdir, withProc, h, after, hn, Event.announces]
          rfl
  | mkdir name =>
      simp only [body, mkdir, withProc, h, raisesOn]
      rw [after_of_same h rfl rfl, touchOf]
      cases getPath ape d.cwd name <;> rfl
  | mkdirat atfd name =>
      simp only [body, mkdirat, withProc, h, raisesOn]
      rw [after_of_same h rfl rfl, touchOf]
      cases getPathat ape d atfd name <;> rfl
  | fork c =>
      have hw : { w with td := touch w.td (touchOf ape d (.fork c)) }.setProc p d = w :=
        setProc_self h
      simp only [body, fork, withProc, h, raisesOn, after, Event.announces, nextData, hw]
  | rename src dst =>
      simp only [body, rename, withProc, h, raisesOn]
      rw [after_of_same h rfl rfl, touchOf]
      cases getPath ape d.cwd src <;> cases getPath ape d.cwd dst <;> rfl
  | renameat atfd src atfd2 dst =>
      simp only [body, renameat, withProc, h, raisesOn]
      rw [after_of_same h rfl rfl, touchOf]
      cases getPathat ape d atfd src <;> cases getPathat ape d atfd2 dst <;> rfl

/-- Of an unregistered process only `exec` of a plain name goes through. -/
theorem body_none {w' : World} {e : Event} (h : w.pd p = none) (hb : body ape w p e = .ok w') :
    w' = w := by
  cases e with
  | exec prog =>
      simp only [body, exec, withProc, h] at hb
      split at hb
      · cases hb
      · exact (Except.ok.inj hb).symm
  | _ => simp [body, open_, openat, creat, chdir, fchdir, mkdir, mkdirat, fork, rename, renameat,
      withProc, h] at hb

/-- A handler that goes through. -/
theorem eq_after_of_body_ok {w' : World} {e : Event} (h : w.pd p = some d)
    (hb : body ape w p e = .ok w') : w' = after ape w p d e := by
  rw [body_eq h] at hb
  cases hr : raisesOn ape d e with
  | some err => rw [hr] at hb; cases hb
  | none => rw [hr] at hb; exact (Except.ok.inj hb).symm

@[simp] theorem after_td (ape : Ape) (w : World) (p : Pid) (d : PData) (e : Event) :
    (after ape w p d e).td = touch w.td (touchOf ape d e) := by
  unfold after
  cases e.announces <;> rfl

end Bodies

/-! ## Keys -/

/-- What the tables say about one key: `td.input[ k ]` and `td.output[ k ]`. -/
abbrev Cell := Option Value × Option Value

def cell (td : TempDeps) (k : LuaString) : Cell := (td.input.lookup k, td.output.lookup k)

/-- `if not td.output[ k ] then td.input[ k ] = true end` -/
def Cell.read (c : Cell) : Cell := if truthy c.2 then c else (some (.bool true), c.2)

/-- A touch, seen at one key. -/
def Touch.actAt (k : LuaString) (c : Cell) : Touch → Cell
  | .nothing => c
  | .read p => if k = p then Cell.read c else c
  | .write p => if k = p then (c.1, some (.bool true)) else c
  | .move src dst =>
      let c := if src = some k then Cell.read c else c
      if dst = none then c
      else
        let c := if src = some k then (c.1, none) else c
        if dst = some k then (c.1, some (.bool true)) else c

theorem cell_setInput (td : TempDeps) (p k : LuaString) :
    cell (td.setInput p) k = if k = p then Cell.read (cell td k) else cell td k := by
  unfold TempDeps.setInput cell Cell.read
  by_cases hk : k = p
  · subst hk
    by_cases ht : truthy (td.output.lookup k) = true
    · simp [ht]
    · simp [ht]
  · by_cases ht : truthy (td.output.lookup p) = true
    · simp [ht, hk]
    · simp [ht, hk, AList.lookup_insert_ne hk]

theorem cell_setOutput (td : TempDeps) (p k : LuaString) :
    cell (td.setOutput p) k =
      if k = p then ((cell td k).1, some (.bool true)) else cell td k := by
  unfold TempDeps.setOutput cell
  by_cases hk : k = p
  · subst hk; simp
  · simp [hk, AList.lookup_insert_ne hk]

theorem cell_clearOutput (td : TempDeps) (p k : LuaString) :
    cell (td.clearOutput p) k = if k = p then ((cell td k).1, none) else cell td k := by
  unfold TempDeps.clearOutput cell
  by_cases hk : k = p
  · subst hk; simp
  · simp [hk, AList.lookup_erase_ne hk]

theorem cell_touch (td : TempDeps) (t : Touch) (k : LuaString) :
    cell (touch td t) k = t.actAt k (cell td k) := by
  cases t with
  | nothing => rfl
  | read p => exact cell_setInput td p k
  | write p => exact cell_setOutput td p k
  | move src dst =>
      cases src with
      | none =>
          cases dst with
          | none => rfl
          | some t => simp [touch, Touch.actAt, cell_setOutput, eq_comm (a := t)]
      | some f =>
          cases dst with
          | none => simp [touch, Touch.actAt, cell_setInput, eq_comm (a := f)]
          | some t =>
              simp [touch, Touch.actAt, cell_setInput, cell_setOutput, cell_clearOutput,
                eq_comm (a := t), eq_comm (a := f)]

/-- The keys that a touch reads or changes. -/
def Touch.Touches (k : LuaString) : Touch → Prop
  | .nothing => False
  | .read p => k = p
  | .write p => k = p
  | .move src dst => src = some k ∨ dst = some k

/-- The keys that a touch writes, creates or renames. -/
def Touch.Changes (k : LuaString) : Touch → Prop
  | .nothing | .read _ => False
  | .write p => k = p
  | .move src dst => src = some k ∨ dst = some k

/-- Two touches of the same key, at least one of which changes it. -/
def Touch.Conflict (t t' : Touch) : Prop :=
  ∃ k, t.Touches k ∧ t'.Touches k ∧ (t.Changes k ∨ t'.Changes k)

namespace Touch

variable {t t' : Touch} {k : LuaString}

theorem actAt_of_not_touches (h : ¬ t.Touches k) (c : Cell) : t.actAt k c = c := by
  cases t with
  | nothing => rfl
  | read p => exact if_neg h
  | write p => exact if_neg h
  | move src dst =>
      have hs : src ≠ some k := fun hs => h (Or.inl hs)
      have hd : dst ≠ some k := fun hd => h (Or.inr hd)
      simp [actAt, hs, hd]

/-- A touch of a key that does not change it reads it. -/
theorem eq_read_of_not_changes (h : t.Touches k) (hc : ¬ t.Changes k) : t = .read k := by
  cases t with
  | nothing => exact absurd h id
  | read p => exact congrArg Touch.read (Eq.symm h)
  | write p => exact absurd h hc
  | move src dst => exact absurd h hc

/-- Touches without a conflict commute, key by key. -/
theorem actAt_comm (h : ¬ Conflict t t') (k : LuaString) (c : Cell) :
    t'.actAt k (t.actAt k c) = t.actAt k (t'.actAt k c) := by
  by_cases ht : t.Touches k
  · by_cases ht' : t'.Touches k
    · have hc : ¬ (t.Changes k ∨ t'.Changes k) := fun hc => h ⟨k, ht, ht', hc⟩
      rw [eq_read_of_not_changes ht fun hc' => hc (Or.inl hc'),
        eq_read_of_not_changes ht' fun hc' => hc (Or.inr hc')]
    · rw [actAt_of_not_touches ht', actAt_of_not_touches ht']
  · rw [actAt_of_not_touches ht, actAt_of_not_touches ht]

end Touch

/-! ## The trackers as an instance of the interleaving theory -/

/-- Process data on the one hand, the tables of dependencies on the other. -/
def localView (ape : Ape) : LocalView (machine ape) PData (LuaString → Cell) where
  data := World.pd
  shared w := cell w.td
  fails := raisesOn ape
  next := nextData ape
  effect d e g k := (touchOf ape d e).actAt k (g k)
  known_eq _ _ := rfl
  body_fails {w p e d err} hd hf := by
    change body ape w p e = _
    rw [body_eq hd, hf]
  body_ok {w p e d} hd hf := by
    have hb : (machine ape).body w p e = .ok (after ape w p d e) := by
      change body ape w p e = _
      rw [body_eq hd, hf]
    refine ⟨after ape w p d e, hb, ?_⟩
    have hann : (machine ape).announces e = e.announces := rfl
    rw [hann]
    unfold after
    cases hc : e.announces with
    | none =>
        refine ⟨funext fun k => cell_touch _ _ k, Function.update_self .., ?_, ?_⟩
        · intro c h; cases h
        · intro q hq _
          exact Function.update_of_ne hq _ _
    | some c =>
        refine ⟨funext fun k => cell_touch _ _ k, ?_, ?_, ?_⟩
        · by_cases hp : p = c
          · subst hp; exact Function.update_self ..
          · exact (Function.update_of_ne hp _ _).trans (Function.update_self ..)
        · intro c' h
          cases h
          exact Function.update_self ..
        · intro q hq hqc
          have hqc' : q ≠ c := fun he => hqc (he ▸ rfl)
          exact (Function.update_of_ne hqc' _ _).trans (Function.update_of_ne hq _ _)

/-! ## No event is lost -/

/-- Only `root` is registered. -/
def RootOnly (w : World) (root : Pid) : Prop := ∀ q, (w.pd q).isSome = true ↔ q = root

theorem rootOnly_start (root : Pid) (dir : LuaString) : RootOnly (World.start root dir) root := by
  intro q
  unfold World.start
  by_cases hq : q = root
  · subst hq; simp
  · simp [hq]

/-- **The delay queue.** On the log of a process tree no queue is left; the handlers ran once
    for each event (`X`, in the order in which they ran), in the order of each process, each for
    a process that was registered. -/
theorem events_not_lost (ape : Ape) {log : List (Pid × Event)} {root : Pid} {w : World}
    {depth : Nat} (hroot : RootOnly w root) (ht : Generic.Tree Event.announces root log)
    (hd : log.length ≤ depth)
    (hok : ∀ err, run (machine ape) depth (State.start w) log ≠ .error (.raised err)) :
    ∃ s X, run (machine ape) depth (State.start w) log = .ok s ∧
      run (machine ape).recorded depth (State.start (w, [])) log =
        .ok ⟨(s.world, X), s.delayed⟩ ∧
      s.delayed = (fun _ => none) ∧ X.Perm log ∧ (∀ q, proj q X = proj q log) ∧
      ∀ a x b, X = a ++ x :: b →
        ∃ w', bodies (machine ape) a w = .ok w' ∧ (w'.pd x.1).isSome = true := by
  have hm := (localView ape).lawful
  obtain ⟨s, X, hr, hrec, hX, hord, hproj, hdel⟩ := run_tree_recorded hm hroot ht hd hok
  refine ⟨s, X, hr, hrec, hdel, perm_of_proj_eq hproj, hproj, ?_⟩
  rintro a x b rfl
  obtain ⟨w', ha, _⟩ := bodies_split _ hX
  have hK : (fun q => (machine ape).known w q = true) = (· = root) :=
    funext fun q => propext (hroot q)
  have hord' : Ordered (machine ape).announces (fun q => (machine ape).known w q = true) a := by
    rw [hK]
    exact ordered_left _ hord
  refine ⟨w', ha, (known_bodies hm hord' ha x.1).mpr ?_⟩
  rcases hord a x b rfl with h | h
  · exact Or.inl ((hroot x.1).mpr h)
  · exact Or.inr h

/-- A child and a grandchild log before the events that announce them. -/
def earlyLog : List (Pid × Event) :=
  [("3".toList, .creat "x".toList "3".toList), ("2".toList, .chdir "sub".toList),
    ("2".toList, .fork "3".toList), ("1".toList, .fork "2".toList), ("1".toList, .mkdir "y".toList)]

theorem earlyLog_tree : Generic.Tree Event.announces "1".toList earlyLog where
  nodup := by decide
  root_not := by decide
  mem := by
    have h₁ : InTree Event.announces "1".toList earlyLog "1".toList := .root
    have h₂ : InTree Event.announces "1".toList earlyLog "2".toList :=
      .child (e := .fork "2".toList) h₁ (by decide) rfl
    have h₃ : InTree Event.announces "1".toList earlyLog "3".toList :=
      .child (e := .fork "3".toList) h₂ (by decide) rfl
    intro x hx
    simp only [earlyLog, List.mem_cons, List.not_mem_nil, or_false] at hx
    rcases hx with rfl | rfl | rfl | rfl | rfl
    exacts [h₃, h₂, h₂, h₁, h₁]

theorem events_not_lost_earlyLog :
    ∃ s X, run (machine (Apr.unixApe "/p".toList)) 5
        (State.start (World.start "1".toList ".".toList)) earlyLog = .ok s ∧
      run (machine (Apr.unixApe "/p".toList)).recorded 5
        (State.start (World.start "1".toList ".".toList, [])) earlyLog =
          .ok ⟨(s.world, X), s.delayed⟩ ∧
      s.delayed = (fun _ => none) ∧ X.Perm earlyLog ∧ (∀ q, proj q X = proj q earlyLog) ∧
      ∀ a x b, X = a ++ x :: b → ∃ w',
        bodies (machine (Apr.unixApe "/p".toList)) a (World.start "1".toList ".".toList) =
          .ok w' ∧ (w'.pd x.1).isSome = true :=
  events_not_lost (Apr.unixApe "/p".toList) (rootOnly_start _ _) earlyLog_tree (by decide)
    (fun err h => by
      have hok : (run (machine (Apr.unixApe "/p".toList)) 5
          (State.start (World.start "1".toList ".".toList)) earlyLog).toOption.isSome = true := by
        decide
      rw [h] at hok
      cases hok)

/-! ## The order of unrelated events -/

/-- The conflicting events of different processes stand in the same order in `l₁` and `l₂`.
    The keys an event touches are those it has for the data its process has at that event in
    every interleaving of `log`. -/
def AgreeOn (ape : Ape) (log : List (Pid × Event)) (root : Pid) (d₀ : PData)
    (l₁ l₂ : List (Pid × Event)) : Prop :=
  ∀ o o' d d', o.pid ≠ o'.pid →
    (localView ape).At log root d₀ o.pid o.ix d → (localView ape).At log root d₀ o'.pid o'.ix d' →
    Touch.Conflict (touchOf ape d o.ev) (touchOf ape d' o'.ev) →
    [o, o'].Sublist (occurrences l₁) → [o, o'].Sublist (occurrences l₂)

theorem initial_of_rootOnly {ape : Ape} {w : World} {root : Pid} {d₀ : PData}
    (hroot : RootOnly w root) (hd₀ : w.pd root = some d₀) :
    LocalView.Initial (localView ape) root d₀ w := by
  intro q d
  change w.pd q = some d ↔ _
  constructor
  · intro h
    have hq : q = root := (hroot q).mp (by rw [h]; rfl)
    rw [hq, hd₀, Option.some.injEq] at h
    exact ⟨hq, h.symm⟩
  · rintro ⟨rfl, rfl⟩
    exact hd₀

/-- **Two interleavings.** If one of them goes through, the other one does, and every process
    ends with the same directory and descriptors. If the handlers of conflicting events ran in
    the same order, the tables of dependencies are the same, too. -/
theorem same_deps (ape : Ape) {log₁ log₂ : List (Pid × Event)} {root : Pid} {w : World}
    {d₀ : PData} {depth : Nat} (hroot : RootOnly w root) (hd₀ : w.pd root = some d₀)
    (ht : Generic.Tree Event.announces root log₁) (hproj : ∀ q, proj q log₁ = proj q log₂)
    (hd : log₁.length ≤ depth) {r₁ : State Pid Event (World × List (Pid × Event))}
    (hr₁ : run (machine ape).recorded depth (State.start (w, [])) log₁ = .ok r₁) :
    ∃ r₂, run (machine ape).recorded depth (State.start (w, [])) log₂ = .ok r₂ ∧
      r₁.world.1.pd = r₂.world.1.pd ∧
      (AgreeOn ape log₁ root d₀ r₁.world.2 r₂.world.2 →
        Table.Same r₁.world.1.td.input r₂.world.1.td.input ∧
          Table.Same r₁.world.1.td.output r₂.world.1.td.output) := by
  have hm := (localView ape).lawful
  have hw : LocalView.Initial (localView ape) root d₀ w := initial_of_rootOnly hroot hd₀
  have ht₂ : Generic.Tree Event.announces root log₂ := ht.of_proj_eq hproj
  have hd₂ : log₂.length ≤ depth := by rw [← (perm_of_proj_eq hproj).length_eq]; exact hd
  have hrun₁ : ∀ err, run (machine ape) depth (State.start w) log₁ ≠ .error (.raised err) := by
    intro err h
    have := run_forget (m := machine ape) depth log₁ (State.start (w, []))
    rw [hr₁, show (State.start (w, [])).forget = State.start w from rfl, h] at this
    cases this
  obtain ⟨s₁, X₁, hrun, hrec₁, hX₁, hord₁, hproj₁, -⟩ := run_tree_recorded hm hroot ht hd hrun₁
  rw [hr₁, Except.ok.injEq] at hrec₁
  subst hrec₁
  -- no body raises in the second interleaving, since none raised in the first one
  have hno := (LocalView.run_ok_iff ht hw hd).mp ⟨s₁, hrun⟩
  obtain ⟨s, hs⟩ := (LocalView.run_ok_iff ht₂ hw hd₂).mpr (hno.of_proj_eq hproj)
  have hrun₂ : ∀ err, run (machine ape) depth (State.start w) log₂ ≠ .error (.raised err) := by
    intro err h
    rw [hs] at h
    cases h
  obtain ⟨s₂, X₂, -, hrec₂, hX₂, hord₂, hproj₂, -⟩ := run_tree_recorded hm hroot ht₂ hd₂ hrun₂
  have hproj₂' : ∀ q, proj q X₂ = proj q log₁ := fun q => (hproj₂ q).trans (hproj q).symm
  refine ⟨_, hrec₂, ?_, fun hagree => ?_⟩
  · funext q
    exact LocalView.same_data ht hw hX₁ hord₁ hproj₁ hX₂ hord₂ hproj₂' q
  · have hcell : cell s₁.world.td = cell s₂.world.td :=
      LocalView.same_shared ht hw hX₁ hord₁ hproj₁ hX₂ hord₂ hproj₂'
        (fun d e d' e' => Touch.Conflict (touchOf ape d e) (touchOf ape d' e'))
        (fun d e d' e' hc g => funext fun k => Touch.actAt_comm hc k (g k)) hagree
    exact ⟨fun k => congrArg Prod.fst (congrFun hcell k),
      fun k => congrArg Prod.snd (congrFun hcell k)⟩

/-- The child `2` writes `x` before its sibling `3` reads it; its `fork` line comes in time. -/
def promptLog : List (Pid × Event) :=
  [("1".toList, .fork "3".toList), ("1".toList, .fork "2".toList),
    ("2".toList, .creat "x".toList "3".toList),
    ("3".toList, .open_ "x".toList .input "3".toList)]

/-- The same events in the same order, but for the `fork` line of `2`, which comes last. -/
def lateLog : List (Pid × Event) :=
  [("1".toList, .fork "3".toList), ("2".toList, .creat "x".toList "3".toList),
    ("3".toList, .open_ "x".toList .input "3".toList), ("1".toList, .fork "2".toList)]

theorem promptLog_tree : Generic.Tree Event.announces "1".toList promptLog where
  nodup := by decide
  root_not := by decide
  mem := by
    have h₁ : InTree Event.announces "1".toList promptLog "1".toList := .root
    have h₂ : InTree Event.announces "1".toList promptLog "2".toList :=
      .child (e := .fork "2".toList) h₁ (by decide) rfl
    have h₃ : InTree Event.announces "1".toList promptLog "3".toList :=
      .child (e := .fork "3".toList) h₁ (by decide) rfl
    intro x hx
    simp only [promptLog, List.mem_cons, List.not_mem_nil, or_false] at hx
    rcases hx with rfl | rfl | rfl | rfl
    exacts [h₁, h₁, h₂, h₃]

theorem proj_promptLog (q : Pid) : proj q promptLog = proj q lateLog :=
  proj_eq_of_forall_mem ["1".toList, "2".toList, "3".toList] (by decide) (by decide) (by decide) q

def isFork : Event → Bool
  | .fork _ => true
  | _ => false

theorem not_conflict_of_isFork {ape : Ape} {d d' : PData} {e e' : Event}
    (h : isFork e = true ∨ isFork e' = true) :
    ¬ Touch.Conflict (touchOf ape d e) (touchOf ape d' e') := by
  rintro ⟨k, h₁, h₂, -⟩
  rcases h with h | h
  · cases e with
    | fork c => exact h₁
    | _ => cases h
  · cases e' with
    | fork c => exact h₂
    | _ => cases h

theorem agreeOn_promptLog (ape : Ape) (d₀ : PData) :
    AgreeOn ape promptLog "1".toList d₀ promptLog lateLog := by
  intro o o' d d' hne _ _ hc hs
  have hall : ∀ o ∈ occurrences promptLog, ∀ o' ∈ occurrences promptLog, o.pid ≠ o'.pid →
      isFork o.ev = true ∨ isFork o'.ev = true ∨
        ([o, o'].Sublist (occurrences promptLog) → [o, o'].Sublist (occurrences lateLog)) := by
    decide
  rcases hall o (hs.subset (by simp)) o' (hs.subset (by simp)) hne with h | h | h
  · exact absurd hc (not_conflict_of_isFork (Or.inl h))
  · exact absurd hc (not_conflict_of_isFork (Or.inr h))
  · exact h hs

theorem ok_of_isSome {ε α : Type} {x : Except ε α} (h : x.toOption.isSome = true) :
    ∃ r, x = .ok r := by
  cases x with
  | error err => cases h
  | ok r => exact ⟨r, rfl⟩

/-- Agreement in the order of the log is not enough: what comes before the `fork` line of its
    process is applied late. -/
theorem log_order_not_enough :
    ¬ ∀ (ape : Ape) (log₁ log₂ : List (Pid × Event)) (root : Pid) (w : World) (d₀ : PData)
        (depth : Nat) (r₁ r₂ : State Pid Event World), RootOnly w root → w.pd root = some d₀ →
        Generic.Tree Event.announces root log₁ → (∀ q, proj q log₁ = proj q log₂) →
        log₁.length ≤ depth → AgreeOn ape log₁ root d₀ log₁ log₂ →
        run (machine ape) depth (State.start w) log₁ = .ok r₁ →
        run (machine ape) depth (State.start w) log₂ = .ok r₂ →
        Table.Same r₁.world.td.input r₂.world.td.input := by
  intro h
  let m := machine (Apr.unixApe "/p".toList)
  let s₀ : State Pid Event World := State.start (World.start "1".toList ".".toList)
  obtain ⟨r₁, h₁⟩ : ∃ r, run m 4 s₀ promptLog = .ok r := ok_of_isSome (by decide)
  obtain ⟨r₂, h₂⟩ : ∃ r, run m 4 s₀ lateLog = .ok r := ok_of_isSome (by decide)
  have hsame := h _ _ _ _ _ _ _ r₁ r₂ (rootOnly_start _ _)
    (show (World.start "1".toList ".".toList).pd "1".toList = some ⟨".".toList, _⟩ by rfl)
    promptLog_tree proj_promptLog (by decide) (agreeOn_promptLog _ _) h₁ h₂ "./x".toList
  -- `x` is an input in one interleaving only
  have hdiff : (run m 4 s₀ promptLog).toOption.map (fun r => r.world.td.input.lookup "./x".toList)
      ≠ (run m 4 s₀ lateLog).toOption.map (fun r => r.world.td.input.lookup "./x".toList) := by
    decide
  rw [h₁, h₂] at hdiff
  exact hdiff (congrArg some hsame)

/-- `promptLog` with the first line of `2` in front of everything. -/
def deferredLog : List (Pid × Event) :=
  [("2".toList, .creat "x".toList "3".toList), ("1".toList, .fork "3".toList),
    ("1".toList, .fork "2".toList), ("3".toList, .open_ "x".toList .input "3".toList)]

theorem proj_deferredLog (q : Pid) : proj q promptLog = proj q deferredLog :=
  proj_eq_of_forall_mem ["1".toList, "2".toList, "3".toList] (by decide) (by decide) (by decide) q

theorem same_deps_deferredLog :
    ∃ r₁ r₂,
      run (machine (Apr.unixApe "/p".toList)).recorded 4
        (State.start (World.start "1".toList ".".toList, [])) promptLog = .ok r₁ ∧
      run (machine (Apr.unixApe "/p".toList)).recorded 4
        (State.start (World.start "1".toList ".".toList, [])) deferredLog = .ok r₂ ∧
      r₁.world.1.pd = r₂.world.1.pd ∧
      Table.Same r₁.world.1.td.input r₂.world.1.td.input ∧
      Table.Same r₁.world.1.td.output r₂.world.1.td.output := by
  let m := machine (Apr.unixApe "/p".toList)
  let s₀ : State Pid Event (World × List (Pid × Event)) :=
    State.start (World.start "1".toList ".".toList, [])
  obtain ⟨r₁, h₁⟩ : ∃ r, run m.recorded 4 s₀ promptLog = .ok r := ok_of_isSome (by decide)
  obtain ⟨r₂, h₂, hpd, hsame⟩ := same_deps (Apr.unixApe "/p".toList) (rootOnly_start _ _)
    (show (World.start "1".toList ".".toList).pd "1".toList = some ⟨".".toList, _⟩ by rfl)
    promptLog_tree proj_deferredLog (by decide) h₁
  have hrec : (run m.recorded 4 s₀ promptLog).toOption.map (fun r => r.world.2) =
      (run m.recorded 4 s₀ deferredLog).toOption.map (fun r => r.world.2) := by decide
  have h₂' : run m.recorded 4 s₀ deferredLog = .ok r₂ := h₂
  rw [h₁, h₂'] at hrec
  have hX : r₁.world.2 = r₂.world.2 := Option.some.inj hrec
  exact ⟨r₁, r₂, h₁, h₂, hpd, hsame fun _ _ _ _ _ _ _ _ hs => hX ▸ hs⟩

end Buildsh.Trace
