/-
  Logs of events of agents.

  A log is a list of pairs (agent, event). `proj p l` are the events of `p` in `l`; two logs
  with the same projections are interleavings of the same per-agent sequences. `ann e` is the
  agent an event announces, if any; `Ordered` says that no agent acts before it is announced,
  `Tree` that the announcements of a log span a tree of agents below a root.

  `occurrences l` numbers the events of every agent, so that one event can be told from another
  and found again in another interleaving (`occurrences_perm`).
-/
import Mathlib.Data.List.Induction
import Mathlib.Data.List.Nodup
import Mathlib.Data.List.Perm.Subperm

namespace Buildsh.Generic

variable {P E : Type}

/-! ## Projections -/

section Projections

variable [DecidableEq P]

/-- The events of `p` in `l`, in order. -/
def proj (p : P) (l : List (P × E)) : List (P × E) := l.filter (fun x => decide (x.1 = p))

@[simp] theorem proj_nil (p : P) : proj p ([] : List (P × E)) = [] := rfl

@[simp] theorem proj_append (p : P) (l r : List (P × E)) :
    proj p (l ++ r) = proj p l ++ proj p r := List.filter_append ..

theorem proj_cons (p : P) (x : P × E) (l : List (P × E)) :
    proj p (x :: l) = proj p [x] ++ proj p l := proj_append p [x] l

theorem proj_singleton_self (x : P × E) : proj x.1 [x] = [x] := by simp [proj]

theorem proj_singleton_ne {p : P} {x : P × E} (h : x.1 ≠ p) : proj p [x] = [] := by
  simp [proj, h]

theorem mem_proj {p : P} {x : P × E} {l : List (P × E)} : x ∈ proj p l ↔ x ∈ l ∧ x.1 = p := by
  simp [proj]

theorem proj_eq_nil {p : P} {l : List (P × E)} (h : ∀ x ∈ l, x.1 ≠ p) : proj p l = [] := by
  rw [List.eq_nil_iff_forall_not_mem]
  intro x hx
  exact h x (mem_proj.mp hx).1 (mem_proj.mp hx).2

theorem proj_proj_self (p : P) (l : List (P × E)) : proj p (proj p l) = proj p l := by
  simp [proj]

theorem proj_proj_ne {p q : P} (h : p ≠ q) (l : List (P × E)) : proj q (proj p l) = [] :=
  proj_eq_nil fun _ hx => by rw [(mem_proj.mp hx).2]; exact h

/-- The events of `p`, without `p`. -/
def eventsOf (p : P) (l : List (P × E)) : List E := (proj p l).map Prod.snd

theorem count_filter_key {α : Type} [BEq α] [LawfulBEq α] (key : α → P) (x : α) (l : List α) :
    (l.filter (fun y => decide (key y = key x))).count x = l.count x :=
  List.count_filter (by simp)

/-- Lists that agree on the elements of every key are permutations of one another. -/
theorem perm_of_filter_key_eq {α : Type} (key : α → P) {l r : List α}
    (h : ∀ p, l.filter (fun x => decide (key x = p)) = r.filter (fun x => decide (key x = p))) :
    l.Perm r := by
  classical
  rw [List.perm_iff_count]
  intro x
  rw [← count_filter_key key x l, ← count_filter_key key x r, h (key x)]

/-- Logs with the same events for every agent are permutations of one another. -/
theorem perm_of_proj_eq {l r : List (P × E)} (h : ∀ p, proj p l = proj p r) : l.Perm r :=
  perm_of_filter_key_eq Prod.fst h

/-- The projections on the agents that occur decide. -/
theorem proj_eq_of_forall_mem {l r : List (P × E)} (ps : List P) (hl : ∀ x ∈ l, x.1 ∈ ps)
    (hr : ∀ x ∈ r, x.1 ∈ ps) (h : ∀ p ∈ ps, proj p l = proj p r) (q : P) :
    proj q l = proj q r := by
  by_cases hq : q ∈ ps
  · exact h q hq
  · have hnil : ∀ {k : List (P × E)}, (∀ x ∈ k, x.1 ∈ ps) → proj q k = [] := fun hk =>
      proj_eq_nil fun x hx he => hq (he ▸ hk x hx)
    rw [hnil hl, hnil hr]

theorem subperm_of_proj {l r : List (P × E)} (h : ∀ p, proj p l <+: proj p r) :
    l.Subperm r := by
  classical
  rw [List.subperm_ext_iff]
  intro x _
  rw [← count_filter_key Prod.fst x l, ← count_filter_key Prod.fst x r]
  exact (h x.1).sublist.count_le x

end Projections

/-! ## Announcements -/

section Announcements

variable (ann : E → Option P)

/-- The agents announced in `l`, in order. -/
def announced (l : List (P × E)) : List P := l.filterMap (fun x => ann x.2)

@[simp] theorem announced_nil : announced ann ([] : List (P × E)) = [] := rfl

@[simp] theorem announced_append (l r : List (P × E)) :
    announced ann (l ++ r) = announced ann l ++ announced ann r := List.filterMap_append ..

theorem mem_announced {c : P} {l : List (P × E)} :
    c ∈ announced ann l ↔ ∃ x ∈ l, ann x.2 = some c := List.mem_filterMap

theorem announced_cons_some {x : P × E} {c : P} (h : ann x.2 = some c) (l : List (P × E)) :
    announced ann (x :: l) = c :: announced ann l := List.filterMap_cons_some h

theorem announced_length_le (l : List (P × E)) : (announced ann l).length ≤ l.length :=
  List.length_filterMap_le ..

theorem announced_perm {l r : List (P × E)} (h : l.Perm r) :
    (announced ann l).Perm (announced ann r) := h.filterMap _

theorem announced_subperm {l r : List (P × E)} (h : l.Subperm r) :
    (announced ann l).Subperm (announced ann r) := by
  obtain ⟨t, ht, hs⟩ := h
  exact ⟨announced ann t, announced_perm ann ht, hs.filterMap _⟩

/-- A list that ends with `y`, taken apart at `x`. -/
theorem snoc_eq_append_cons {α : Type} {l a b : List α} {x y : α} :
    l ++ [y] = a ++ x :: b ↔
      (b = [] ∧ l = a ∧ y = x) ∨ ∃ b', b = b' ++ [y] ∧ l = a ++ x :: b' := by
  constructor
  · intro h
    rcases List.eq_nil_or_concat b with rfl | ⟨b', z, rfl⟩
    · obtain ⟨rfl, hx⟩ := List.append_inj' h rfl
      exact Or.inl ⟨rfl, rfl, (List.cons.inj hx).1⟩
    · rw [List.concat_eq_append, ← List.cons_append, ← List.append_assoc] at h
      obtain ⟨rfl, hz⟩ := List.append_inj' h rfl
      exact Or.inr ⟨b', by rw [List.concat_eq_append, hz], rfl⟩
  · rintro (⟨rfl, rfl, rfl⟩ | ⟨b', rfl, rfl⟩)
    · rfl
    · rw [List.append_assoc, List.cons_append]

/-- Every event of `l` comes from an agent in `K` or announced earlier in `l`. -/
def Ordered (K : P → Prop) (l : List (P × E)) : Prop :=
  ∀ a x b, l = a ++ x :: b → K x.1 ∨ x.1 ∈ announced ann a

theorem ordered_nil (K : P → Prop) : Ordered ann K ([] : List (P × E)) := by
  intro a x b h
  simp at h

theorem ordered_append {K K' : P → Prop} {l r : List (P × E)} (hl : Ordered ann K l)
    (hr : Ordered ann K' r) (hK : ∀ p, K' p → K p ∨ p ∈ announced ann l) :
    Ordered ann K (l ++ r) := by
  intro a x b h
  rcases List.append_eq_append_iff.mp h with ⟨t, ha, ht⟩ | ⟨t, hlt, ht⟩
  · -- `x` stands in `r`, after `t`
    rcases hr t x b ht with hx | hx
    · rcases hK _ hx with hx | hx
      · exact Or.inl hx
      · exact Or.inr (by rw [ha, announced_append]; exact List.mem_append_left _ hx)
    · exact Or.inr (by rw [ha, announced_append]; exact List.mem_append_right _ hx)
  · rcases t with _ | ⟨y, t⟩
    · rw [List.nil_append] at ht
      rw [List.append_nil] at hlt
      rcases hr [] x b ht.symm with hx | hx
      · rcases hK _ hx with hx | hx
        · exact Or.inl hx
        · exact Or.inr (by rw [← hlt]; exact hx)
      · simp at hx
    · rw [List.cons_append, List.cons.injEq] at ht
      exact hl a x t (by rw [hlt, ht.1])

theorem ordered_singleton {K : P → Prop} {x : P × E} (h : K x.1) : Ordered ann K [x] := by
  intro a y b hl
  rcases a with _ | ⟨z, a⟩
  · simp only [List.nil_append, List.cons.injEq] at hl
    exact Or.inl (hl.1 ▸ h)
  · simp at hl

theorem ordered_left {K : P → Prop} {l r : List (P × E)} (h : Ordered ann K (l ++ r)) :
    Ordered ann K l := by
  intro a x b hl
  exact h a x (b ++ r) (by rw [hl]; simp)

/-- `p` is `root`, or announced by an event of an agent of the tree. -/
inductive InTree (root : P) (log : List (P × E)) : P → Prop where
  | root : InTree root log root
  | child {p c : P} {e : E} (hp : InTree root log p) (he : (p, e) ∈ log)
      (hc : ann e = some c) : InTree root log c

/-- The log of a tree of agents: the root is announced by nobody, every other agent by exactly
    one event of an agent of the tree. -/
structure Tree (root : P) (log : List (P × E)) : Prop where
  nodup : (announced ann log).Nodup
  root_not : root ∉ announced ann log
  mem : ∀ x ∈ log, InTree ann root log x.1

end Announcements

/-! ## Occurrences -/

/-- The `ix`-th event of agent `pid`, counted from 0. -/
structure Occ (P E : Type) where
  pid : P
  ix : Nat
  ev : E
  deriving DecidableEq

section Occurrences

/-- The events `es` of `p`, numbered from `n`. -/
def numbered (p : P) : Nat → List E → List (Occ P E)
  | _, [] => []
  | n, e :: es => ⟨p, n, e⟩ :: numbered p (n + 1) es

theorem mem_numbered {p : P} {o : Occ P E} {es : List E} {n : Nat} :
    o ∈ numbered p n es ↔ o.pid = p ∧ n ≤ o.ix ∧ es[o.ix - n]? = some o.ev := by
  induction es generalizing n with
  | nil => simp [numbered]
  | cons e es ih =>
      rw [numbered, List.mem_cons, ih]
      obtain ⟨q, i, f⟩ := o
      constructor
      · rintro (h | ⟨h₁, h₂, h₃⟩)
        · simp only [Occ.mk.injEq] at h
          obtain ⟨rfl, rfl, rfl⟩ := h
          simp
        · dsimp only at h₁ h₂ h₃ ⊢
          refine ⟨h₁, by omega, ?_⟩
          rw [show i - n = (i - (n + 1)) + 1 by omega, List.getElem?_cons_succ]
          exact h₃
      · rintro ⟨h₁, h₂, h₃⟩
        dsimp only at h₁ h₂ h₃ ⊢
        rcases Nat.eq_or_lt_of_le h₂ with h | h
        · left
          rw [h, Nat.sub_self, List.getElem?_cons_zero, Option.some.injEq] at h₃
          rw [h₁, h, h₃]
        · right
          rw [show i - n = (i - (n + 1)) + 1 by omega, List.getElem?_cons_succ] at h₃
          exact ⟨h₁, by omega, h₃⟩

variable [DecidableEq P]

/-- The occurrences of a log that goes on after the events `seen`. -/
def numberFrom (seen : List (P × E)) : List (P × E) → List (Occ P E)
  | [] => []
  | x :: l => ⟨x.1, (proj x.1 seen).length, x.2⟩ :: numberFrom (seen ++ [x]) l

/-- The events of a log as occurrences. -/
def occurrences (l : List (P × E)) : List (Occ P E) := numberFrom [] l

theorem numberFrom_append (seen a b : List (P × E)) :
    numberFrom seen (a ++ b) = numberFrom seen a ++ numberFrom (seen ++ a) b := by
  induction a generalizing seen with
  | nil => simp [numberFrom]
  | cons x a ih => simp [numberFrom, ih]

theorem occurrences_snoc (a : List (P × E)) (x : P × E) :
    occurrences (a ++ [x]) = occurrences a ++ [⟨x.1, (proj x.1 a).length, x.2⟩] := by
  unfold occurrences
  rw [numberFrom_append]
  rfl

theorem map_numberFrom (seen l : List (P × E)) :
    (numberFrom seen l).map (fun o => (o.pid, o.ev)) = l := by
  induction l generalizing seen with
  | nil => rfl
  | cons x l ih => rw [numberFrom, List.map_cons, ih]

theorem announced_eq_occurrences (ann : E → Option P) (l : List (P × E)) :
    announced ann l = (occurrences l).filterMap (fun o => ann o.ev) := by
  conv => lhs; rw [← map_numberFrom [] l]
  unfold announced
  rw [List.filterMap_map]
  rfl

theorem le_ix_of_mem {seen l : List (P × E)} {o : Occ P E} (h : o ∈ numberFrom seen l) :
    (proj o.pid seen).length ≤ o.ix := by
  induction l generalizing seen with
  | nil => simp [numberFrom] at h
  | cons x l ih =>
      rcases List.mem_cons.mp h with rfl | h
      · exact Nat.le_refl _
      · have := ih h
        rw [proj_append, List.length_append] at this
        omega

theorem occurrences_nodup (l : List (P × E)) : (occurrences l).Nodup := by
  suffices h : ∀ seen, (numberFrom seen l).Nodup from h []
  induction l with
  | nil => intro seen; exact List.nodup_nil
  | cons x l ih =>
      intro seen
      refine List.nodup_cons.mpr ⟨fun hm => ?_, ih _⟩
      have := le_ix_of_mem hm
      rw [proj_append, List.length_append, proj_singleton_self, List.length_singleton] at this
      exact absurd this (Nat.not_succ_le_self _)

theorem filter_numberFrom (p : P) (seen l : List (P × E)) :
    (numberFrom seen l).filter (fun o => decide (o.pid = p)) =
      numbered p (proj p seen).length (eventsOf p l) := by
  induction l generalizing seen with
  | nil => rfl
  | cons x l ih =>
      have hev : eventsOf p (x :: l) = (proj p [x]).map Prod.snd ++ eventsOf p l := by
        unfold eventsOf
        rw [proj_cons, List.map_append]
      rw [numberFrom, hev]
      by_cases hx : x.1 = p
      · subst hx
        rw [List.filter_cons_of_pos (by simp), ih, proj_append, proj_singleton_self,
          List.length_append]
        rfl
      · rw [List.filter_cons_of_neg (by simpa using hx), ih, proj_append,
          proj_singleton_ne hx, List.append_nil]
        rfl

theorem filter_occurrences (p : P) (l : List (P × E)) :
    (occurrences l).filter (fun o => decide (o.pid = p)) = numbered p 0 (eventsOf p l) :=
  filter_numberFrom p [] l

theorem mem_occurrences {o : Occ P E} {l : List (P × E)} :
    o ∈ occurrences l ↔ (eventsOf o.pid l)[o.ix]? = some o.ev := by
  have h : o ∈ occurrences l ↔
      o ∈ (occurrences l).filter (fun o' => decide (o'.pid = o.pid)) := by simp
  rw [h, filter_occurrences, mem_numbered]
  simp

/-- Interleavings of the same sequences have the same occurrences. -/
theorem occurrences_perm {l r : List (P × E)} (h : ∀ p, proj p l = proj p r) :
    (occurrences l).Perm (occurrences r) := by
  refine perm_of_filter_key_eq Occ.pid fun p => ?_
  rw [filter_occurrences, filter_occurrences, eventsOf, eventsOf, h p]

/-- Interleavings agree on the order of the events of one agent. -/
theorem occurrences_order {l r : List (P × E)} (h : ∀ p, proj p l = proj p r)
    {o o' : Occ P E} (hpid : o.pid = o'.pid) (hs : [o, o'].Sublist (occurrences l)) :
    [o, o'].Sublist (occurrences r) := by
  have hf := hs.filter (fun x => decide (x.pid = o.pid))
  rw [filter_occurrences, show eventsOf o.pid l = eventsOf o.pid r by
    rw [eventsOf, eventsOf, h], ← filter_occurrences] at hf
  have hoo : [o, o'].filter (fun x => decide (x.pid = o.pid)) = [o, o'] := by simp [hpid]
  rw [hoo] at hf
  exact hf.trans List.filter_sublist

/-- Where an occurrence stands. -/
theorem split_of_mem_occurrences {o : Occ P E} {l : List (P × E)} (h : o ∈ occurrences l) :
    ∃ a b, l = a ++ (o.pid, o.ev) :: b ∧ (proj o.pid a).length = o.ix := by
  induction l using List.reverseRecOn with
  | nil => simp [occurrences, numberFrom] at h
  | append_singleton l x ih =>
      rw [occurrences_snoc, List.mem_append, List.mem_singleton] at h
      rcases h with h | rfl
      · obtain ⟨a, b, rfl, hl⟩ := ih h
        exact ⟨a, b ++ [x], by simp, hl⟩
      · exact ⟨l, [], rfl, rfl⟩

/-- Two occurrences do not announce the same agent if a log announces no agent twice. -/
theorem eq_of_announces {ann : E → Option P} {l : List (P × E)}
    (hnd : (announced ann l).Nodup) {o o' : Occ P E} (ho : o ∈ occurrences l)
    (ho' : o' ∈ occurrences l) {c : P} (hc : ann o.ev = some c) (hc' : ann o'.ev = some c) :
    o = o' := by
  rw [announced_eq_occurrences] at hnd
  by_contra hne
  obtain ⟨a, b, hab⟩ := List.append_of_mem ho
  have hcons : (o :: b).filterMap (fun o => ann o.ev) = c :: b.filterMap (fun o => ann o.ev) :=
    List.filterMap_cons_some hc
  rw [hab, List.filterMap_append, hcons] at hnd
  have hin : o' ∈ a ∨ o' ∈ b := by
    rw [hab, List.mem_append, List.mem_cons] at ho'
    rcases ho' with h | h | h
    · exact Or.inl h
    · exact absurd h.symm hne
    · exact Or.inr h
  rcases hin with h | h
  · exact (List.nodup_append.mp hnd).2.2 c (List.mem_filterMap.mpr ⟨o', h, hc'⟩) c
      List.mem_cons_self rfl
  · exact (List.nodup_cons.mp (List.nodup_append.mp hnd).2.1).1
      (List.mem_filterMap.mpr ⟨o', h, hc'⟩)

end Occurrences

/-! ## Partial runs of the log of a tree -/

section Partial

variable [DecidableEq P] {ann : E → Option P} {root : P} {log X : List (P × E)} {x : P × E}

/-- The event `x` that follows the run `X` is the next one of its agent. -/
theorem getElem?_of_snoc (h : proj x.1 (X ++ [x]) <+: proj x.1 log) :
    (eventsOf x.1 log)[(proj x.1 X).length]? = some x.2 := by
  obtain ⟨t, ht⟩ := h
  rw [proj_append, proj_singleton_self] at ht
  unfold eventsOf
  rw [← ht]
  simp

/-- An agent has run nothing before it is announced. -/
theorem proj_nil_of_announces (ht : Tree ann root log) (hord : Ordered ann (· = root) (X ++ [x]))
    (hpre : ∀ q, proj q (X ++ [x]) <+: proj q log) {c : P} (hc : ann x.2 = some c) :
    proj c X = [] := by
  have hsub := announced_subperm ann (subperm_of_proj hpre)
  have hnd : (announced ann (X ++ [x])).Nodup := by
    obtain ⟨t, htp, hts⟩ := hsub
    exact htp.nodup_iff.mp (ht.nodup.sublist hts)
  have hcx : c ∈ announced ann [x] := (mem_announced ann).mpr ⟨x, List.mem_singleton_self x, hc⟩
  rw [announced_append] at hnd
  refine proj_eq_nil fun y hy hyc => ?_
  obtain ⟨a, b, rfl⟩ := List.append_of_mem hy
  rcases hord a y (b ++ [x]) (by simp) with hr | hm
  · refine ht.root_not (hsub.subset ?_)
    rw [announced_append, ← hr, hyc]
    exact List.mem_append_right _ hcx
  · refine (List.nodup_append.mp hnd).2.2 c ?_ c hcx rfl
    rw [announced_append, ← hyc]
    exact List.mem_append_left _ hm

/-- The log of a tree, interleaved otherwise. -/
theorem Tree.of_proj_eq {l r : List (P × E)} (ht : Tree ann root l) (h : ∀ q, proj q l = proj q r) : Tree ann root r := by
  have hp := perm_of_proj_eq h
  have hin : ∀ p, InTree ann root l p → InTree ann root r p := by
    intro p hp'
    induction hp' with
    | root => exact InTree.root
    | child _ he hc ih => exact InTree.child ih (hp.mem_iff.mp he) hc
  exact
    { nodup := (announced_perm ann hp).nodup_iff.mp ht.nodup
      root_not := fun hm => ht.root_not ((announced_perm ann hp).mem_iff.mpr hm)
      mem := fun x hx => hin _ (ht.mem x (hp.mem_iff.mpr hx)) }

end Partial

/-! ## Other names -/

section Relabel

variable {P' E' : Type} {ann : E → Option P} {ann' : E' → Option P'} {f : P → P'} {g : E → E'}

/-- The same log under other names. -/
def relabel (f : P → P') (g : E → E') (l : List (P × E)) : List (P' × E') :=
  l.map fun x => (f x.1, g x.2)

theorem announced_relabel (hann : ∀ e, ann' (g e) = (ann e).map f) (l : List (P × E)) :
    announced ann' (relabel f g l) = (announced ann l).map f := by
  simp only [announced, relabel, List.filterMap_map, List.map_filterMap]
  exact congrArg (List.filterMap · l) (funext fun x => hann x.2)

theorem Tree.relabel {root : P} {l : List (P × E)} (ht : Tree ann root l)
    (hf : Function.Injective f) (hann : ∀ e, ann' (g e) = (ann e).map f) :
    Tree ann' (f root) (relabel f g l) where
  nodup := by
    rw [announced_relabel hann]
    exact ht.nodup.map hf
  root_not := by
    rw [announced_relabel hann, List.mem_map]
    rintro ⟨p, hp, heq⟩
    exact ht.root_not (hf heq ▸ hp)
  mem := by
    have hin : ∀ p, InTree ann root l p → InTree ann' (f root) (Generic.relabel f g l) (f p) := by
      intro p hp
      induction hp with
      | root => exact .root
      | child _ he hc ih =>
          exact .child ih (List.mem_map_of_mem (f := fun x => (f x.1, g x.2)) he)
            (by rw [hann, hc]; rfl)
    intro y hy
    obtain ⟨x, hx, rfl⟩ := List.mem_map.mp hy
    exact hin x.1 (ht.mem x hx)

variable [DecidableEq P] [DecidableEq P']

end Relabel

end Buildsh.Generic
