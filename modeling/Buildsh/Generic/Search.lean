/-
  A search that goes on where nothing is found, and stops at an error.

  Looking at a candidate gives a hit, a miss or a fault. `search` looks at the candidates in
  order and returns the first outcome that is no miss, so a fault hides all hits behind it.
-/
import Mathlib.Data.List.Basic

namespace Buildsh.Generic.Search

variable {α β ε : Type}

inductive Outcome (β ε : Type) where
  | hit (b : β)
  | miss
  | fault (e : ε)

def search (f : α → Outcome β ε) : List α → Outcome β ε
  | [] => .miss
  | a :: l =>
      match f a with
      | .miss => search f l
      | o => o

section Lemmas

variable {f : α → Outcome β ε} {a : α} {l u v : List α}

end Lemmas

end Buildsh.Generic.Search
