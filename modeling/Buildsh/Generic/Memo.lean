/-
  Skipping a task that would change nothing.

  A task on a store reads some keys, writes others, and what it does depends on nothing but what
  it reads. A memo of a run has a digest for every key that was read, and one for every key that
  was written. `run_eq_of_fresh`, `idle_of_fresh`: a store that has these digests at these keys is
  one on which the task does the same again, and leaves every key as it is.
-/
import Mathlib.Logic.Function.Basic

namespace Buildsh.Generic

variable {K V R D : Type}

/-- What one run of a task reads and leaves. -/
structure Effect (K V : Type) where
  reads : K → Bool
  writes : K → Option V
  disjoint : ∀ k, reads k = true → writes k = none

namespace Effect

/-- The store after the run. -/
def apply (e : Effect K V) (st : K → V) : K → V := fun k => (e.writes k).getD (st k)

theorem apply_of_reads (e : Effect K V) (st : K → V) {k : K} (h : e.reads k = true) :
    e.apply st k = st k := by
  unfold apply
  rw [e.disjoint k h, Option.getD_none]

theorem apply_of_writes (e : Effect K V) (st : K → V) {k : K} {v : V} (h : e.writes k = some v) :
    e.apply st k = v := by
  unfold apply
  rw [h, Option.getD_some]

theorem apply_eq_self {e : Effect K V} {st : K → V} (h : ∀ k v, e.writes k = some v → st k = v) :
    e.apply st = st := by
  funext k
  cases hk : e.writes k with
  | none => rw [apply, hk, Option.getD_none]
  | some v => rw [e.apply_of_writes st hk, h k v hk]

/-- The digests of what was read. -/
def readDigest (digest : V → D) (e : Effect K V) (st : K → V) (k : K) : Option D :=
  if e.reads k = true then some (digest (st k)) else none

/-- The digests of what was left. -/
def writeDigest (digest : V → D) (e : Effect K V) (k : K) : Option D := (e.writes k).map digest

end Effect

/-- A task whose effect and result depend on what it reads. -/
structure Task (K V R : Type) where
  run : (K → V) → Effect K V × R
  determined : ∀ st st', (∀ k, (run st).1.reads k = true → st' k = st k) → run st' = run st

namespace Task

variable (task : Task K V R) {digest : V → D} {st₀ st : K → V}

/-- `st` has the digests of the run on `st₀`. -/
structure Fresh (digest : V → D) (st₀ st : K → V) : Prop where
  reads : ∀ k d, (task.run st₀).1.readDigest digest st₀ k = some d → d = digest (st k)
  writes : ∀ k d, (task.run st₀).1.writeDigest digest k = some d → d = digest (st k)

variable {task}

theorem run_eq_of_fresh (hd : Function.Injective digest) (h : task.Fresh digest st₀ st) :
    task.run st = task.run st₀ := by
  refine task.determined st₀ st fun k hk => ?_
  have hr := h.reads k (digest (st₀ k)) (if_pos hk)
  exact (hd hr).symm

theorem idle_of_fresh (hd : Function.Injective digest) (h : task.Fresh digest st₀ st) :
    (task.run st).1.apply st = st := by
  rw [run_eq_of_fresh hd h]
  refine Effect.apply_eq_self fun k v hv => ?_
  have hw := h.writes k (digest v) (by rw [Effect.writeDigest, hv, Option.map_some])
  exact (hd hw).symm

end Task

end Buildsh.Generic
