/-
  `tracker.lua`: the back end that reads the logs of `tracker.exe`.

  Every traced process leaves logs of its writes, of its deletions and of its reads. `post_process`
  scans them in this order, all files of one kind in the order in which `ape.path_glob` returns
  them, and hands what it has found to `base.finish`.

  `tables_iff`: the tables depend on which names are logged, not on the order of the lines or of
  the files, and a log cannot be read to its end only if `wupper` is called without a directory.
  `in_order_iff`: compared with handlers that are called as the files are used, the scan goes wrong
  at a file that is written after a deletion, at an output that has been read before it was
  written, and at a file that is read only between a write and a deletion.
-/
import Buildsh.Environment
import Buildsh.TrackerLog

namespace Buildsh.Tracker
open Buildsh.Generic Buildsh.Base Buildsh.Trace Buildsh.Build Buildsh.TrackerLog

/-! ## `tracker.lua` -/

/-- What `post_process` finds on the disk. -/
structure Logs where
  /-- `ape.path_glob` -/
  glob : LuaString → Option (List LuaString)
  /-- the bytes of a file that `io.open` can open -/
  contents : LuaString → Option LuaString

section Handlers

variable (ape : Ape) (wupper : LuaString → Option LuaString)

/-- `base.get_path( ".", line, wupper )`. `wupper` raises if it is called with `nil`. -/
def linePath (line : LuaString) : Except LuaError (Option LuaString) :=
  if ape.filepathGet = none ∧ ape.filepathRoot line ≠ none then
    .error (.message
      "base.lua:42: bad argument #1 to 'transform' (string expected, got nil)".toList)
  else .ok (getPath ape ['.'] line fun cwd => cwd.bind wupper)

def handleWrite (line : LuaString) (td : TempDeps) : Except LuaError TempDeps := do
  match ← linePath ape wupper line with
  | none => return td
  | some p => return td.setOutput p

def handleDelete (line : LuaString) (td : TempDeps) : Except LuaError TempDeps := do
  match ← linePath ape wupper line with
  | none => return td
  | some p => return td.clearOutput p

def handleRead (line : LuaString) (td : TempDeps) : Except LuaError TempDeps := do
  match ← linePath ape wupper line with
  | none => return td
  | some p => return td.setInput p

end Handlers

section PostProcess

variable (ucs2ToUtf8 : List Nat → Option LuaString)

/-- The lines that `each_line` hands on (`eachLine_linesOf`). -/
def linesOf (f : LuaString) : List LuaString :=
  (eachLine ucs2ToUtf8 (f.length + 2) f).getD []

/-- `each_line`. A file that cannot be opened is left out. -/
def eachLineDo (logs : Logs) (func : LuaString → TempDeps → Except LuaError TempDeps)
    (td : TempDeps) (file : LuaString) : Except LuaError TempDeps :=
  match logs.contents file with
  | none => return td
  | some f => (linesOf ucs2ToUtf8 f).foldlM (fun td line => func line td) td

/-- One of the three loops of `post_process`. -/
def scan (logs : Logs) (pattern : LuaString)
    (func : LuaString → TempDeps → Except LuaError TempDeps) (td : TempDeps) :
    Except LuaError TempDeps :=
  match logs.glob pattern with
  | none => return td
  | some t => t.foldlM (eachLineDo ucs2ToUtf8 logs func) td

variable (ape : Ape) (wupper : LuaString → Option LuaString)

/-- `tempdeps`, when `post_process` hands them to `base.finish`. -/
def postProcess (logs : Logs) (data : LuaString) : Except LuaError TempDeps := do
  let td ← scan ucs2ToUtf8 logs (data ++ "/*.write.*.tlog".toList) (handleWrite ape wupper) ⟨∅, ∅⟩
  let td ← scan ucs2ToUtf8 logs (data ++ "/*.delete.*.tlog".toList) (handleDelete ape wupper) td
  scan ucs2ToUtf8 logs (data ++ "/*.read.*.tlog".toList) (handleRead ape wupper) td

end PostProcess

/-! ## The lines of a file -/

theorem readMark_length (isBe : Bool) (f : LuaString) :
    (readMark isBe f).2.length ≤ f.length := by
  unfold readMark
  split_ifs
  · exact (List.drop_sublist 2 f).length_le
  · exact (List.drop_sublist 2 f).length_le
  · exact le_refl _

theorem readUtf16Line_length_le (f : LuaString) (isFirstLine isBe : Bool) :
    (readUtf16Line f isFirstLine isBe).2.2.length ≤ f.length := by
  cases isFirstLine with
  | false => exact (readUnits_length isBe f []).1
  | true =>
      have hunits := (readUnits_length (readMark isBe f).1 (readMark isBe f).2 []).1
      exact le_trans hunits (readMark_length isBe f)

theorem eachLine_linesOf (conv : List Nat → Option LuaString) (f : LuaString) {fuel : Nat}
    (h : f.length + 2 ≤ fuel) : eachLine conv fuel f = some (linesOf conv f) := by
  obtain ⟨calls, hcalls, hall⟩ : ∃ calls, eachLine conv (f.length + 2) f = some calls ∧
      ∀ fuel, f.length + 2 ≤ fuel → eachLine conv fuel f = some calls := by
    have hfirst := readUtf16Line_length_le f true false
    unfold eachLine
    generalize readUtf16Line f true false = r at hfirst
    obtain ⟨first, isBe, f₁⟩ := r
    cases first with
    | none => exact ⟨[], rfl, fun _ _ => rfl⟩
    | some first =>
        have hnext := readUtf16Line_length_le f₁ false isBe
        have hsome := eachLoop_isSome conv isBe (f.length + 2)
          (readUtf16Line f₁ false isBe).1 (readUtf16Line f₁ false isBe).2.2 (by
            dsimp only at hfirst
            omega)
        obtain ⟨calls, hcalls⟩ := Option.isSome_iff_exists.mp hsome
        exact ⟨calls, hcalls, fun fuel hle => eachLoop_mono conv isBe hle hcalls⟩
  rw [hall fuel h, linesOf, hcalls]
  rfl

/-! ## What one line does to one key -/

/-- The three kinds of logs. -/
inductive Op where
  | write | delete | read
  deriving DecidableEq, Repr

namespace Op

def pattern (data : LuaString) : Op → LuaString
  | write => data ++ "/*.write.*.tlog".toList
  | delete => data ++ "/*.delete.*.tlog".toList
  | read => data ++ "/*.read.*.tlog".toList

def handle (ape : Ape) (wupper : LuaString → Option LuaString) :
    Op → LuaString → TempDeps → Except LuaError TempDeps
  | write => handleWrite ape wupper
  | delete => handleDelete ape wupper
  | read => handleRead ape wupper

/-- What a handler does with the key of its line. -/
def act : Op → TempDeps → LuaString → TempDeps
  | write => TempDeps.setOutput
  | delete => TempDeps.clearOutput
  | read => TempDeps.setInput

/-- The same, seen at this key. -/
def actAt : Op → Cell → Cell
  | write => fun c => (c.1, some (.bool true))
  | delete => fun c => (c.1, none)
  | read => Cell.read

theorem cell_act (o : Op) (td : TempDeps) (p k : LuaString) :
    cell (o.act td p) k = if k = p then o.actAt (cell td k) else cell td k := by
  cases o with
  | write => exact cell_setOutput td p k
  | delete => exact cell_clearOutput td p k
  | read => exact cell_setInput td p k

theorem actAt_actAt (o : Op) (c : Cell) : o.actAt (o.actAt c) = o.actAt c := by
  cases o with
  | write => rfl
  | delete => rfl
  | read =>
      change Cell.read (Cell.read c) = Cell.read c
      unfold Cell.read
      cases hc : truthy c.2 with
      | true => simp [hc]
      | false => simp [hc]

/-- The names of one kind, in any order and any number. -/
theorem cell_foldl (o : Op) (names : List LuaString) (td : TempDeps) (k : LuaString) :
    cell (names.foldl o.act td) k = if k ∈ names then o.actAt (cell td k) else cell td k := by
  induction names generalizing td with
  | nil => rfl
  | cons p names ih =>
      rw [List.foldl_cons, ih, cell_act]
      by_cases hp : k = p
      · have hmem : k ∈ p :: names := List.mem_cons.mpr (Or.inl hp)
        rw [if_pos hp, actAt_actAt, if_pos hmem, ite_self]
      · rw [if_neg hp]
        simp only [List.mem_cons, hp, false_or]

theorem marksOnly_act (o : Op) {td : TempDeps} (h : MarksOnly td) (p : LuaString) :
    MarksOnly (o.act td p) := by
  cases o with
  | write => exact ⟨h.1, marks_insert h.2 p⟩
  | delete => exact ⟨h.1, marks_erase h.2 p⟩
  | read => exact marksOnly_setInput h p

end Op

/-! ## The scan of the logs of one kind -/

section Scan

variable (conv : List Nat → Option LuaString) (ape : Ape) (wupper : LuaString → Option LuaString)
  (logs : Logs) (data : LuaString)

/-- The lines of the logs of one kind. -/
def logged (o : Op) : List LuaString :=
  (((logs.glob (o.pattern data)).getD []).filterMap logs.contents).flatMap (linesOf conv)

/-- A line for which `wupper` is called without a directory. -/
def Faulty (line : LuaString) : Prop := ape.filepathGet = none ∧ ape.filepathRoot line ≠ none

instance (line : LuaString) : Decidable (Faulty ape line) :=
  inferInstanceAs (Decidable (_ ∧ _))

/-- The key of a line. -/
def keyOf (line : LuaString) : Option LuaString :=
  getPath ape ['.'] line fun cwd => cwd.bind wupper

/-- The names in the logs of one kind. -/
def names (o : Op) : List LuaString := (logged conv logs data o).filterMap (keyOf ape wupper)

variable {conv ape wupper logs data}

/-- The program raises if `p` holds, and returns `td` if not. -/
def Outcome (p : Prop) (x : Except LuaError TempDeps) (td : TempDeps) : Prop :=
  p ∧ (∃ e, x = .error e) ∨ ¬ p ∧ x = .ok td

theorem Outcome.bind {p q : Prop} {x : Except LuaError TempDeps} {td td' : TempDeps}
    {f : TempDeps → Except LuaError TempDeps} (hx : Outcome p x td)
    (hf : Outcome q (f td) td') : Outcome (p ∨ q) (x >>= f) td' := by
  rcases hx with ⟨hp, e, rfl⟩ | ⟨hp, rfl⟩
  · exact Or.inl ⟨Or.inl hp, e, rfl⟩
  · rcases hf with ⟨hq, hraised⟩ | ⟨hq, hok⟩
    · exact Or.inl ⟨Or.inr hq, hraised⟩
    · exact Or.inr ⟨not_or.mpr ⟨hp, hq⟩, hok⟩

theorem handle_outcome (o : Op) (line : LuaString) (td : TempDeps) :
    Outcome (Faulty ape line) (o.handle ape wupper line td)
      ((keyOf ape wupper line).elim td (o.act td)) := by
  by_cases h : Faulty ape line
  · obtain ⟨e, he⟩ : ∃ e, linePath ape wupper line = .error e := ⟨_, if_pos h⟩
    refine Or.inl ⟨h, e, ?_⟩
    cases o <;> simp only [Op.handle, handleWrite, handleDelete, handleRead, he] <;> rfl
  · have hpath : linePath ape wupper line = .ok (keyOf ape wupper line) := if_neg h
    refine Or.inr ⟨h, ?_⟩
    cases o <;>
      simp only [Op.handle, handleWrite, handleDelete, handleRead, hpath] <;>
      cases keyOf ape wupper line <;> rfl

/-- The lines, one after the other. -/
theorem foldlM_handle (o : Op) (lines : List LuaString) (td : TempDeps) :
    Outcome (∃ line ∈ lines, Faulty ape line)
      (lines.foldlM (fun td line => o.handle ape wupper line td) td)
      ((lines.filterMap (keyOf ape wupper)).foldl o.act td) := by
  induction lines generalizing td with
  | nil => exact Or.inr ⟨by simp, rfl⟩
  | cons line lines ih =>
      have hkeys : ((line :: lines).filterMap (keyOf ape wupper)).foldl o.act td =
          (lines.filterMap (keyOf ape wupper)).foldl o.act
            ((keyOf ape wupper line).elim td (o.act td)) := by
        rw [List.filterMap_cons]
        cases keyOf ape wupper line <;> rfl
      have hfaulty : (∃ l ∈ line :: lines, Faulty ape l) ↔
          Faulty ape line ∨ ∃ l ∈ lines, Faulty ape l := by
        simp only [List.mem_cons, exists_eq_or_imp]
      rw [List.foldlM_cons, hkeys, hfaulty]
      exact (handle_outcome o line td).bind (ih _)

/-- The files do not matter, only their lines. -/
theorem scan_eq (o : Op) (td : TempDeps) :
    scan conv logs (o.pattern data) (o.handle ape wupper) td =
      (logged conv logs data o).foldlM (fun td line => o.handle ape wupper line td) td := by
  have hfiles : ∀ (files : List LuaString) (td : TempDeps),
      files.foldlM (eachLineDo conv logs (o.handle ape wupper)) td =
        ((files.filterMap logs.contents).flatMap (linesOf conv)).foldlM
          (fun td line => o.handle ape wupper line td) td := by
    intro files
    induction files with
    | nil => exact fun _ => rfl
    | cons file files ih =>
        intro td
        rw [List.foldlM_cons, List.filterMap_cons, eachLineDo]
        cases logs.contents file with
        | none => exact ih td
        | some f =>
            rw [List.flatMap_cons, List.foldlM_append]
            exact bind_congr ih
  unfold scan logged
  cases logs.glob (o.pattern data) with
  | none => rfl
  | some files => exact hfiles files td

theorem scan_outcome (o : Op) (td : TempDeps) :
    Outcome (∃ line ∈ logged conv logs data o, Faulty ape line)
      (scan conv logs (o.pattern data) (o.handle ape wupper) td)
      ((names conv ape wupper logs data o).foldl o.act td) := by
  rw [scan_eq]
  exact foldlM_handle o _ td

end Scan

/-! ## The three scans -/

section Tables

variable (conv : List Nat → Option LuaString) (ape : Ape) (wupper : LuaString → Option LuaString)
  (logs : Logs) (data : LuaString)

/-- The tables of a log that is read to its end. -/
def tables : TempDeps :=
  (names conv ape wupper logs data .read).foldl (Op.act .read)
    ((names conv ape wupper logs data .delete).foldl (Op.act .delete)
      ((names conv ape wupper logs data .write).foldl (Op.act .write) ⟨∅, ∅⟩))

/-- A log is read to its end, or `wupper` raises. -/
theorem postProcess_outcome :
    Outcome (∃ o, ∃ line ∈ logged conv logs data o, Faulty ape line)
      (postProcess conv ape wupper logs data) (tables conv ape wupper logs data) := by
  have hkinds : (∃ o, ∃ line ∈ logged conv logs data o, Faulty ape line) ↔
      (∃ line ∈ logged conv logs data .write, Faulty ape line) ∨
        (∃ line ∈ logged conv logs data .delete, Faulty ape line) ∨
          ∃ line ∈ logged conv logs data .read, Faulty ape line := by
    constructor
    · rintro ⟨o, h⟩
      cases o with
      | write => exact Or.inl h
      | delete => exact Or.inr (Or.inl h)
      | read => exact Or.inr (Or.inr h)
    · rintro (h | h | h)
      exacts [⟨_, h⟩, ⟨_, h⟩, ⟨_, h⟩]
  rw [hkinds]
  exact (scan_outcome .write ⟨∅, ∅⟩).bind
    ((scan_outcome .delete _).bind (scan_outcome .read _))

/-- The tables at one key. -/
theorem mem_tables (k : LuaString) :
    (k ∈ (tables conv ape wupper logs data).output ↔
      k ∈ names conv ape wupper logs data .write ∧
        k ∉ names conv ape wupper logs data .delete) ∧
    (k ∈ (tables conv ape wupper logs data).input ↔
      k ∈ names conv ape wupper logs data .read ∧
        k ∉ (tables conv ape wupper logs data).output) := by
  have hwrite := Op.cell_foldl .write (names conv ape wupper logs data .write) ⟨∅, ∅⟩ k
  have hdelete := Op.cell_foldl .delete (names conv ape wupper logs data .delete)
    ((names conv ape wupper logs data .write).foldl (Op.act .write) ⟨∅, ∅⟩) k
  have hcell := Op.cell_foldl .read (names conv ape wupper logs data .read)
    ((names conv ape wupper logs data .delete).foldl (Op.act .delete)
      ((names conv ape wupper logs data .write).foldl (Op.act .write) ⟨∅, ∅⟩)) k
  rw [hdelete, hwrite, show cell ⟨∅, ∅⟩ k = (none, none) by rfl] at hcell
  have hin : AList.lookup k (tables conv ape wupper logs data).input = _ :=
    congrArg Prod.fst hcell
  have hout : AList.lookup k (tables conv ape wupper logs data).output = _ :=
    congrArg Prod.snd hcell
  rw [← AList.lookup_isSome, ← AList.lookup_isSome, hin, hout]
  by_cases hw : k ∈ names conv ape wupper logs data .write <;>
    by_cases hd : k ∈ names conv ape wupper logs data .delete <;>
    by_cases hr : k ∈ names conv ape wupper logs data .read <;>
    simp [hw, hd, hr, Op.actAt, Cell.read, truthy]

theorem marksOnly_foldl (o : Op) (l : List LuaString) {td : TempDeps} (h : MarksOnly td) :
    MarksOnly (l.foldl o.act td) := by
  induction l generalizing td with
  | nil => exact h
  | cons p l ih => exact ih (o.marksOnly_act h p)

theorem marksOnly_tables : MarksOnly (tables conv ape wupper logs data) :=
  marksOnly_foldl _ _ (marksOnly_foldl _ _ (marksOnly_foldl _ _ ⟨marks_empty, marks_empty⟩))

theorem marksOnly_postProcess {td : TempDeps}
    (h : postProcess conv ape wupper logs data = .ok td) : MarksOnly td := by
  rcases postProcess_outcome conv ape wupper logs data with ⟨-, e, he⟩ | ⟨-, hok⟩
  · rw [he] at h
    cases h
  · rw [hok] at h
    cases h
    exact marksOnly_tables conv ape wupper logs data

/-- The back end of `tracker.lua`, as `make.run` calls it: its data is the directory of the logs,
    and the directory of the command plays no part. -/
def trackerHandler (odir : LuaString) : ExecHandler LuaString Logs where
  preProcess := some fun argv => .ok (Environment.trackerArgv odir argv, odir)
  postProcess := some fun data _ logs =>
    match data with
    | none => .error (.message "attempt to concatenate local 'data' (a nil value)".toList)
    | some data =>
        match h : postProcess conv ape wupper logs data with
        | .error e => .error e
        | .ok td => .ok ⟨td, (marksOnly_postProcess conv ape wupper logs data h).1,
            (marksOnly_postProcess conv ape wupper logs data h).2⟩

/-- **The tables.** `post_process` raises if an absolute name is logged and the start directory is
    unknown. Otherwise the outputs are what is written and not deleted, and the inputs what is read
    and no output, whatever the order of the lines and of the files. -/
theorem tables_iff :
    ((∃ e, postProcess conv ape wupper logs data = .error e) ↔
      ape.filepathGet = none ∧ ∃ o, ∃ line ∈ logged conv logs data o,
        ape.filepathRoot line ≠ none) ∧
    ∀ td, postProcess conv ape wupper logs data = .ok td → MarksOnly td ∧ ∀ k,
      (k ∈ td.output ↔ k ∈ names conv ape wupper logs data .write ∧
        k ∉ names conv ape wupper logs data .delete) ∧
      (k ∈ td.input ↔ k ∈ names conv ape wupper logs data .read ∧ k ∉ td.output) := by
  have hfaulty : (∃ o, ∃ line ∈ logged conv logs data o, Faulty ape line) ↔
      ape.filepathGet = none ∧ ∃ o, ∃ line ∈ logged conv logs data o,
        ape.filepathRoot line ≠ none := by
    constructor
    · rintro ⟨o, line, hline, hget, hroot⟩
      exact ⟨hget, o, line, hline, hroot⟩
    · rintro ⟨hget, o, line, hline, hroot⟩
      exact ⟨o, line, hline, hget, hroot⟩
  rw [← hfaulty]
  rcases postProcess_outcome conv ape wupper logs data with ⟨hf, e, he⟩ | ⟨hf, hok⟩
  · rw [he]
    exact ⟨⟨fun _ => hf, fun _ => ⟨e, rfl⟩⟩, fun td h => by cases h⟩
  · rw [hok]
    refine ⟨⟨fun ⟨e, h⟩ => (by cases h), fun h => absurd h hf⟩, fun td h => ?_⟩
    cases h
    exact ⟨marksOnly_tables conv ape wupper logs data, mem_tables conv ape wupper logs data⟩

end Tables

/-! ## The files as they are used -/

/-- The handlers, called for each use of a file as it happens. -/
def applied (ops : List (Op × LuaString)) : TempDeps :=
  ops.foldl (fun td o => o.1.act td o.2) ⟨∅, ∅⟩

/-- After these uses there is a `k` that they have written. -/
def Left (ops : List (Op × LuaString)) (k : LuaString) : Prop :=
  ∃ pre post, ops = pre ++ (.write, k) :: post ∧ (.delete, k) ∉ post

/-- The uses of `k` that the scan gets wrong. -/
inductive Misread (ops : List (Op × LuaString)) (k : LuaString) : Prop where
  /-- `k` has been deleted, but is there again: it is missing in the outputs. -/
  | rewritten (hd : (.delete, k) ∈ ops) (hl : Left ops k)
  /-- `k` has been read before it was written: it is missing in the inputs. -/
  | updated (hd : (.delete, k) ∉ ops) (pre post : List (Op × LuaString))
      (hops : ops = pre ++ (.read, k) :: post) (hpre : (.write, k) ∉ pre)
      (hpost : (.write, k) ∈ post)
  /-- Nothing but a `k` that is deleted later has been read: it is taken for an input. -/
  | temporary (hd : (.delete, k) ∈ ops) (hr : (.read, k) ∈ ops)
      (hl : ∀ pre post, ops = pre ++ (.read, k) :: post → Left pre k)

section InOrder

variable {ops : List (Op × LuaString)} {k : LuaString}

theorem applied_concat (ops : List (Op × LuaString)) (o : Op) (p : LuaString) :
    applied (ops ++ [(o, p)]) = o.act (applied ops) p := by
  unfold applied
  rw [List.foldl_append]
  rfl

theorem marksOnly_applied (ops : List (Op × LuaString)) : MarksOnly (applied ops) := by
  induction ops using List.reverseRecOn with
  | nil => exact ⟨marks_empty, marks_empty⟩
  | append_singleton ops x ih =>
      obtain ⟨o, p⟩ := x
      rw [applied_concat]
      exact o.marksOnly_act ih p

theorem truthy_of_marks {t : Table LuaString} (h : Marks t) (k : LuaString) :
    truthy (t.lookup k) = (t.lookup k).isSome := by
  cases hv : t.lookup k with
  | none => rfl
  | some v =>
      rw [h k v hv]
      rfl

theorem left_concat (ops : List (Op × LuaString)) (o : Op) (p : LuaString) :
    Left (ops ++ [(o, p)]) k ↔
      (o = .write ∧ p = k) ∨ (Left ops k ∧ ¬ (o = .delete ∧ p = k)) := by
  unfold Left
  simp only [snoc_eq_append_cons]
  constructor
  · rintro ⟨pre, post, ⟨-, -, heq⟩ | ⟨post', rfl, hops⟩, hd⟩
    · cases heq
      exact Or.inl ⟨rfl, rfl⟩
    · rw [List.mem_append, not_or, List.mem_singleton] at hd
      refine Or.inr ⟨⟨pre, post', hops, hd.1⟩, ?_⟩
      rintro ⟨rfl, rfl⟩
      exact hd.2 rfl
  · rintro (⟨rfl, rfl⟩ | ⟨⟨pre, post, hops, hd⟩, hnot⟩)
    · exact ⟨ops, [], Or.inl ⟨rfl, rfl, rfl⟩, List.not_mem_nil⟩
    · refine ⟨pre, post ++ [(o, p)], Or.inr ⟨post, rfl, hops⟩, ?_⟩
      rw [List.mem_append, not_or, List.mem_singleton]
      refine ⟨hd, fun heq => ?_⟩
      cases heq
      exact hnot ⟨rfl, rfl⟩

/-- What the handlers make of the uses of `k`. -/
theorem mem_applied (ops : List (Op × LuaString)) (k : LuaString) :
    (k ∈ (applied ops).output ↔ Left ops k) ∧
    (k ∈ (applied ops).input ↔ ∃ pre post, ops = pre ++ (.read, k) :: post ∧ ¬ Left pre k) := by
  induction ops using List.reverseRecOn with
  | nil =>
      constructor
      · refine ⟨fun h => absurd h (AList.notMem_empty k), ?_⟩
        rintro ⟨pre, post, h, -⟩
        simp at h
      · refine ⟨fun h => absurd h (AList.notMem_empty k), ?_⟩
        rintro ⟨pre, post, h, -⟩
        simp at h
  | append_singleton ops x ih =>
      obtain ⟨o, p⟩ := x
      have hcell := Op.cell_act o (applied ops) p k
      rw [← applied_concat] at hcell
      have hin : AList.lookup k (applied (ops ++ [(o, p)])).input = _ := congrArg Prod.fst hcell
      have hout : AList.lookup k (applied (ops ++ [(o, p)])).output = _ := congrArg Prod.snd hcell
      have hread : (∃ pre post, ops ++ [(o, p)] = pre ++ (.read, k) :: post ∧ ¬ Left pre k) ↔
          (∃ pre post, ops = pre ++ (.read, k) :: post ∧ ¬ Left pre k) ∨
            o = .read ∧ p = k ∧ ¬ Left ops k := by
        simp only [snoc_eq_append_cons]
        constructor
        · rintro ⟨pre, post, ⟨-, rfl, heq⟩ | ⟨post', -, hops⟩, hl⟩
          · cases heq
            exact Or.inr ⟨rfl, rfl, hl⟩
          · exact Or.inl ⟨pre, post', hops, hl⟩
        · rintro (⟨pre, post, hops, hl⟩ | ⟨rfl, rfl, hl⟩)
          · exact ⟨pre, _, Or.inr ⟨post, rfl, hops⟩, hl⟩
          · exact ⟨ops, [], Or.inl ⟨rfl, rfl, rfl⟩, hl⟩
      rw [left_concat, hread, ← ih.1, ← ih.2]
      simp only [← AList.lookup_isSome, hin, hout]
      by_cases hp : k = p
      · rw [if_pos hp]
        cases o with
        | write => simp [Op.actAt, cell, hp]
        | delete => simp [Op.actAt, cell, hp]
        | read =>
            have htruthy := truthy_of_marks (marksOnly_applied ops).2 k
            subst hp
            cases hout' : (AList.lookup k (applied ops).output).isSome with
            | true => simp [Op.actAt, Cell.read, cell, htruthy, hout']
            | false => simp [Op.actAt, Cell.read, cell, htruthy, hout']
      · have hp' : p ≠ k := fun h => hp h.symm
        simp [if_neg hp, hp', cell]

theorem Left.mem (h : Left ops k) : (.write, k) ∈ ops := by
  obtain ⟨pre, post, rfl, -⟩ := h
  exact List.mem_append_right _ List.mem_cons_self

theorem left_of_not_deleted (hw : (.write, k) ∈ ops) (hd : (.delete, k) ∉ ops) : Left ops k := by
  obtain ⟨pre, post, rfl⟩ := List.append_of_mem hw
  exact ⟨pre, post, rfl, fun h => hd (List.mem_append_right _ (List.mem_cons_of_mem _ h))⟩

/-- The scan against the handlers, at one file. -/
theorem misread_iff (ops : List (Op × LuaString)) (k : LuaString) :
    (((.write, k) ∈ ops ∧ (.delete, k) ∉ ops ↔ Left ops k) ∧
      ((.read, k) ∈ ops ∧ ¬ ((.write, k) ∈ ops ∧ (.delete, k) ∉ ops) ↔
        ∃ pre post, ops = pre ++ (.read, k) :: post ∧ ¬ Left pre k)) ↔ ¬ Misread ops k := by
  constructor
  · rintro ⟨hout, hin⟩ hmis
    cases hmis with
    | rewritten hd hl => exact (hout.mpr hl).2 hd
    | updated hd pre post hops hpre hpost =>
        refine (hin.mpr ⟨pre, post, hops, fun hl => hpre hl.mem⟩).2 ⟨?_, hd⟩
        rw [hops]
        exact List.mem_append_right _ (List.mem_cons_of_mem _ hpost)
    | temporary hd hr hl =>
        obtain ⟨pre, post, hops, hnot⟩ := hin.mp ⟨hr, fun h => h.2 hd⟩
        exact hnot (hl pre post hops)
  · intro hmis
    refine ⟨⟨fun h => left_of_not_deleted h.1 h.2, fun hl => ⟨hl.mem, fun hd => ?_⟩⟩, ?_, ?_⟩
    · exact hmis (.rewritten hd hl)
    · rintro ⟨hr, hnot⟩
      by_contra hall
      push Not at hall
      by_cases hd : (.delete, k) ∈ ops
      · exact hmis (.temporary hd hr hall)
      · obtain ⟨pre, post, hops⟩ := List.append_of_mem hr
        refine hnot ⟨?_, hd⟩
        rw [hops]
        exact List.mem_append_left _ (hall pre post hops).mem
    · rintro ⟨pre, post, hops, hl⟩
      have hr : (Op.read, k) ∈ ops := by
        rw [hops]
        exact List.mem_append_right _ List.mem_cons_self
      refine ⟨hr, fun ⟨hw, hd⟩ => hmis ?_⟩
      rw [hops, List.mem_append, List.mem_cons, not_or] at hd
      have hpre : (Op.write, k) ∉ pre := fun h => hl (left_of_not_deleted h hd.1)
      rw [hops, List.mem_append, List.mem_cons] at hw
      refine .updated ?_ pre post hops hpre ?_
      · rw [hops, List.mem_append, List.mem_cons, not_or]
        exact hd
      · rcases hw with h | h | h
        · exact absurd h hpre
        · cases h
        · exact h

/-- Two tables that hold nothing but marks are the same if they have the same keys. -/
theorem same_iff_of_marks {t t' : Table LuaString} (h : Marks t) (h' : Marks t') :
    Table.Same t t' ↔ ∀ k, k ∈ t ↔ k ∈ t' := by
  constructor
  · intro hs k
    rw [← AList.lookup_isSome, ← AList.lookup_isSome, hs k]
  · intro hk k
    have hiff := hk k
    rw [← AList.lookup_isSome, ← AList.lookup_isSome] at hiff
    cases hv : t.lookup k with
    | none =>
        rw [hv] at hiff
        exact (Option.not_isSome_iff_eq_none.mp fun h => by simpa using hiff.mpr h).symm
    | some v =>
        obtain ⟨v', hv'⟩ := Option.isSome_iff_exists.mp (hiff.mp (by rw [hv]; rfl))
        rw [hv', h k v hv, h' k v' hv']

/-- **In order.** The logs say which files were written, deleted and read, but not in which order.
    The tables are those of handlers that are called for each use as it happens if, and only if,
    no file is used in one of the three ways that the scan gets wrong. -/
theorem in_order_iff {conv : List Nat → Option LuaString} {ape : Ape}
    {wupper : LuaString → Option LuaString} {logs : Logs} {data : LuaString} {td : TempDeps}
    (h : postProcess conv ape wupper logs data = .ok td)
    (hnames : ∀ o k, k ∈ names conv ape wupper logs data o ↔ (o, k) ∈ ops) :
    Table.Same td.output (applied ops).output ∧ Table.Same td.input (applied ops).input ↔
      ∀ k, ¬ Misread ops k := by
  have htd : td = tables conv ape wupper logs data := by
    rcases postProcess_outcome conv ape wupper logs data with ⟨-, e, he⟩ | ⟨-, hok⟩
    · rw [he] at h
      cases h
    · exact (Except.ok.inj (hok.symm.trans h)).symm
  have hmarks := marksOnly_tables conv ape wupper logs data
  have hmarks' := marksOnly_applied ops
  rw [htd, same_iff_of_marks hmarks.2 hmarks'.2, same_iff_of_marks hmarks.1 hmarks'.1,
    ← forall_and]
  refine forall_congr' fun k => ?_
  have hmem := mem_tables conv ape wupper logs data k
  rw [hmem.2, hmem.1, (mem_applied ops k).1, (mem_applied ops k).2, hnames, hnames, hnames]
  exact misread_iff ops k

/-- The logs of a program that reads `x` and writes it. -/
def updateLogs : Logs where
  glob pattern :=
    if pattern = Op.pattern ['d'] .delete then none else some [pattern]
  contents _ := some (text .le [⟨['#'.toNat], .crLf⟩, ⟨['x'.toNat], .crLf⟩])

theorem in_order_iff_updateLogs :
    let ape := Apr.unixApe "/p".toList
    let conv := fun us : List Nat => some (us.map Char.ofNat)
    let ops := [(Op.read, "./x".toList), (Op.write, "./x".toList)]
    ∃ td, postProcess conv ape some updateLogs ['d'] = .ok td ∧
      (Table.Same td.output (applied ops).output ∧ Table.Same td.input (applied ops).input ↔
        ∀ k, ¬ Misread ops k) := by
  intro ape conv ops
  have hnames : ∀ o, names conv ape some updateLogs ['d'] o =
      if o = .delete then [] else ["./x".toList] := by
    intro o
    cases o <;> decide
  have hok : ∃ td, postProcess conv ape some updateLogs ['d'] = .ok td := ⟨_, rfl⟩
  obtain ⟨td, htd⟩ := hok
  refine ⟨td, htd, in_order_iff htd fun o k => ?_⟩
  rw [hnames]
  cases o <;> simp [ops]

end InOrder

end Buildsh.Tracker
