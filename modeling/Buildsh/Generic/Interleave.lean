/-
  Interleavings of agents that act on data of their own and on a shared state.

  `LocalView m D G`: the world of `m` splits into data of each known agent and a shared state;
  whether a body raises and what it does depends on the agent's own data and the event only, and
  an announced agent starts with a copy of its announcer's data. Then the data an agent has
  before its `i`-th event is the same in every interleaving (`At`, `At.unique`), so whether a
  body raises does not depend on the interleaving (`run_ok_iff`), every agent ends with the same
  data (`same_data`), and two interleavings in which the bodies of conflicting events run in the
  same order leave the same shared state (`same_shared`).
-/
import Buildsh.Generic.Commute
import Buildsh.Generic.DelayQueue

namespace Buildsh.Generic

variable {P E W ε : Type}

/-- A split of the world of `m` into per-agent data and a shared state. -/
structure LocalView (m : Machine P E W ε) (D G : Type) where
  data : W → P → Option D
  shared : W → G
  fails : D → E → Option ε
  next : D → E → D
  effect : D → E → G → G
  known_eq : ∀ w p, m.known w p = (data w p).isSome
  body_fails : ∀ {w p e d err}, data w p = some d → fails d e = some err →
    m.body w p e = .error err
  body_ok : ∀ {w p e d}, data w p = some d → fails d e = none →
    ∃ w', m.body w p e = .ok w' ∧ shared w' = effect d e (shared w) ∧
      data w' p = some (next d e) ∧ (∀ c, m.announces e = some c → data w' c = some (next d e)) ∧
      ∀ q, q ≠ p → m.announces e ≠ some q → data w' q = data w q

namespace LocalView

variable {m : Machine P E W ε} {D G : Type} (v : LocalView m D G)

/-- What a body that went through did. -/
theorem body_inv {w w' : W} {p : P} {e : E} {d : D} (hd : v.data w p = some d)
    (hb : m.body w p e = .ok w') :
    v.fails d e = none ∧ v.shared w' = v.effect d e (v.shared w) ∧
      v.data w' p = some (v.next d e) ∧
      (∀ c, m.announces e = some c → v.data w' c = some (v.next d e)) ∧
      ∀ q, q ≠ p → m.announces e ≠ some q → v.data w' q = v.data w q := by
  cases hf : v.fails d e with
  | some err => rw [v.body_fails hd hf] at hb; cases hb
  | none =>
      obtain ⟨w₁, hb₁, h⟩ := v.body_ok hd hf
      rw [hb₁, Except.ok.injEq] at hb
      exact ⟨rfl, hb ▸ h⟩

theorem lawful (v : LocalView m D G) : m.Lawful where
  known_body {w w' p e} hp hb q := by
    classical
    rw [v.known_eq, Option.isSome_iff_exists] at hp
    obtain ⟨d, hd⟩ := hp
    obtain ⟨_, _, hself, hann, hother⟩ := v.body_inv hd hb
    rw [v.known_eq, v.known_eq]
    by_cases ha : m.announces e = some q
    · simp [hann q ha, ha]
    · by_cases hq : q = p
      · subst hq; simp [hself, hd]
      · rw [hother q hq ha]; simp [ha]

section Initial

/-- Only the root is known at first, with data `d₀`. -/
def Initial (v : LocalView m D G) (root : P) (d₀ : D) (w : W) : Prop :=
  ∀ q d, v.data w q = some d ↔ q = root ∧ d = d₀

variable {v : LocalView m D G} {X : List (P × E)} {root : P} {d₀ : D} {w w' : W} {x : P × E}

theorem Initial.known_iff (hw : Initial v root d₀ w) (q : P) :
    m.known w q = true ↔ q = root := by
  rw [v.known_eq, Option.isSome_iff_exists]
  constructor
  · rintro ⟨d, hd⟩; exact ((hw q d).mp hd).1
  · intro hq; exact ⟨d₀, (hw q d₀).mpr ⟨hq, rfl⟩⟩

theorem Initial.ordered_known (hw : Initial v root d₀ w)
    (hord : Ordered m.announces (· = root) X) :
    Ordered m.announces (fun q => m.known w q = true) X := by
  intro a y b h
  rcases hord a y b h with hr | ha
  · exact Or.inl ((hw.known_iff y.1).mpr hr)
  · exact Or.inr ha

/-- The agents that have data after a run. -/
theorem data_isSome_iff (hw : Initial v root d₀ w) (hX : bodies m X w = .ok w')
    (hord : Ordered m.announces (· = root) X) (q : P) :
    (v.data w' q).isSome = true ↔ q = root ∨ q ∈ announced m.announces X := by
  rw [← v.known_eq, known_bodies v.lawful (hw.ordered_known hord) hX, hw.known_iff]

/-- The agent of the next event has data. -/
theorem exists_data (hw : Initial v root d₀ w) (hX : bodies m X w = .ok w')
    (hord : Ordered m.announces (· = root) (X ++ [x])) : ∃ d, v.data w' x.1 = some d := by
  rw [← Option.isSome_iff_exists, data_isSome_iff hw hX (ordered_left _ hord)]
  exact hord X x [] rfl

/-- The agents of a run have data afterwards. -/
theorem data_isSome_of_mem (hw : Initial v root d₀ w) (hX : bodies m X w = .ok w')
    (hord : Ordered m.announces (· = root) X) (hx : x ∈ X) : (v.data w' x.1).isSome = true := by
  rw [data_isSome_iff hw hX hord]
  obtain ⟨a, b, rfl⟩ := List.append_of_mem hx
  rcases hord a x b rfl with h | h
  · exact Or.inl h
  · rw [announced_append]
    exact Or.inr (List.mem_append_left _ h)

end Initial

/-! ## The data of an agent -/

section Data

variable [DecidableEq P]

/-- `At log root d₀ p i d`: in every interleaving of `log`, `p` has data `d` before its `i`-th
    event, the root starting with `d₀`. -/
inductive At (log : List (P × E)) (root : P) (d₀ : D) : P → Nat → D → Prop where
  | root : At log root d₀ root 0 d₀
  | step {p : P} {i : Nat} {d : D} {e : E} (h : At log root d₀ p i d)
      (he : (eventsOf p log)[i]? = some e) : At log root d₀ p (i + 1) (v.next d e)
  | child {p c : P} {i : Nat} {d : D} {e : E} (h : At log root d₀ p i d)
      (he : (eventsOf p log)[i]? = some e) (hc : m.announces e = some c) :
      At log root d₀ c 0 (v.next d e)

variable {v}

theorem At.of_proj_eq {log log' : List (P × E)} {root : P} {d₀ : D}
    (hproj : ∀ q, proj q log = proj q log') {p : P} {i : Nat} {d : D}
    (h : v.At log root d₀ p i d) : v.At log' root d₀ p i d := by
  have hev : ∀ q, eventsOf q log = eventsOf q log' := fun q => by
    unfold eventsOf
    rw [hproj q]
  induction h with
  | root => exact .root
  | step _ he ih => exact .step ih (by rw [← hev]; exact he)
  | child _ he hc ih => exact .child ih (by rw [← hev]; exact he) hc

/-- `Descends log p i es q j`: `q` before its `j`-th event is `p` before its `i`-th event, or a
    descendant of it, after the events `es`. -/
inductive Descends (m : Machine P E W ε) (log : List (P × E)) (p : P) (i : Nat) :
    List E → P → Nat → Prop where
  | refl : Descends m log p i [] p i
  | step {es : List E} {q : P} {j : Nat} {e : E} (h : Descends m log p i es q j)
      (he : (eventsOf q log)[j]? = some e) : Descends m log p i (es ++ [e]) q (j + 1)
  | child {es : List E} {q c : P} {j : Nat} {e : E} (h : Descends m log p i es q j)
      (he : (eventsOf q log)[j]? = some e) (hc : m.announces e = some c) :
      Descends m log p i (es ++ [e]) c 0

theorem At.descend {log : List (P × E)} {root : P} {d₀ : D} {p q : P} {i j : Nat} {d : D}
    {es : List E} (h : v.At log root d₀ p i d) (hes : Descends m log p i es q j) :
    v.At log root d₀ q j (es.foldl v.next d) := by
  induction hes with
  | refl => exact h
  | step _ he ih =>
      rw [List.foldl_append]
      exact .step ih he
  | child _ he hc ih =>
      rw [List.foldl_append]
      exact .child ih he hc

theorem At.unique {log : List (P × E)} {root : P} {d₀ : D} (ht : Tree m.announces root log)
    {p : P} {i : Nat} {d d' : D} (h : v.At log root d₀ p i d) (h' : v.At log root d₀ p i d') :
    d = d' := by
  have hroot : ∀ {q : P} {j : Nat} {e : E}, (eventsOf q log)[j]? = some e →
      m.announces e ≠ some root := by
    intro q j e he ha
    have ho : (⟨q, j, e⟩ : Occ P E) ∈ occurrences log := mem_occurrences.mpr he
    refine ht.root_not ?_
    rw [announced_eq_occurrences]
    exact List.mem_filterMap.mpr ⟨_, ho, ha⟩
  induction h generalizing d' with
  | root =>
      generalize hi : 0 = i at h'
      cases h' with
      | root => rfl
      | step => omega
      | child _ he hc => exact absurd hc (hroot he)
  | @step p i d e _ he ih =>
      generalize hi : i + 1 = j at h'
      cases h' with
      | root => omega
      | @step _ i' d' e' h₂ he' =>
          obtain rfl : i = i' := by omega
          rw [he, Option.some.injEq] at he'
          rw [ih h₂, he']
      | child => omega
  | @child p c i d e _ he hc ih =>
      generalize hi : 0 = j at h'
      cases h' with
      | root => exact absurd hc (hroot he)
      | step => omega
      | @child p' _ i' d' e' h₂ he' hc' =>
          have ho : (⟨p, i, e⟩ : Occ P E) = ⟨p', i', e'⟩ :=
            eq_of_announces ht.nodup (mem_occurrences.mpr he) (mem_occurrences.mpr he') hc hc'
          simp only [Occ.mk.injEq] at ho
          obtain ⟨rfl, rfl, rfl⟩ := ho
          rw [ih h₂]

variable {log X : List (P × E)} {root : P} {d₀ : D} {w w' : W} {x : P × E}

/-- The data of the known agents after some bodies of a log have run. -/
theorem data_at (ht : Tree m.announces root log) (hw : Initial v root d₀ w)
    (hX : bodies m X w = .ok w') (hord : Ordered m.announces (· = root) X)
    (hpre : ∀ q, proj q X <+: proj q log) :
    ∀ q d, v.data w' q = some d → v.At log root d₀ q (proj q X).length d := by
  induction X using List.reverseRecOn generalizing w' with
  | nil =>
      cases hX
      intro q d hd
      obtain ⟨rfl, rfl⟩ := (hw q d).mp hd
      exact At.root
  | append_singleton X x ih =>
      obtain ⟨w₁, h₁, h₂⟩ := bodies_split m hX
      rw [bodies_singleton] at h₂
      have hpre₁ : ∀ q, proj q X <+: proj q log := fun q =>
        (List.prefix_append _ _).trans (by rw [← proj_append]; exact hpre q)
      have ih₁ := ih h₁ (ordered_left _ hord) hpre₁
      obtain ⟨d, hd⟩ := exists_data hw h₁ hord
      obtain ⟨_, _, hself, hann, hother⟩ := v.body_inv hd h₂
      have hix := getElem?_of_snoc (hpre x.1)
      have hAt := ih₁ x.1 d hd
      intro q d' hd'
      by_cases hqx : q = x.1
      · subst hqx
        rw [proj_append, proj_singleton_self, List.length_append]
        rw [hself, Option.some.injEq] at hd'
        exact hd' ▸ At.step hAt hix
      · rw [proj_append, proj_singleton_ne (Ne.symm hqx), List.append_nil]
        by_cases ha : m.announces x.2 = some q
        · -- a new agent has run nothing yet
          rw [hann q ha, Option.some.injEq] at hd'
          rw [proj_nil_of_announces ht hord hpre ha, ← hd']
          exact At.child hAt hix ha
        · rw [hother q hqx ha] at hd'
          exact ih₁ q d' hd'

/-- At every split of a run the agent of the next event has its data and does not fail. -/
theorem at_split (ht : Tree m.announces root log) (hw : Initial v root d₀ w)
    (hX : bodies m X w = .ok w') (hord : Ordered m.announces (· = root) X)
    (hpre : ∀ q, proj q X <+: proj q log) {a b : List (P × E)} (hab : X = a ++ x :: b) :
    ∃ d, v.At log root d₀ x.1 (proj x.1 a).length d ∧ v.fails d x.2 = none := by
  have hab' : X = a ++ [x] ++ b := by rw [hab]; simp
  subst hab'
  obtain ⟨w₂, h₂, _⟩ := bodies_split m hX
  obtain ⟨w₁, h₁, hb⟩ := bodies_split m h₂
  rw [bodies_singleton] at hb
  have hordx := ordered_left _ hord
  obtain ⟨d, hd⟩ := exists_data hw h₁ hordx
  have hprea : ∀ q, proj q a <+: proj q log := fun q => by
    have hq := hpre q
    rw [List.append_assoc, proj_append] at hq
    exact (List.prefix_append _ _).trans hq
  exact ⟨d, data_at ht hw h₁ (ordered_left _ hordx) hprea x.1 d hd, (v.body_inv hd hb).1⟩

/-- The data of an agent and the event of one of its occurrences. -/
theorem at_of_mem_occurrences (ht : Tree m.announces root log) (hw : Initial v root d₀ w)
    (hX : bodies m X w = .ok w') (hord : Ordered m.announces (· = root) X)
    (hproj : ∀ q, proj q X = proj q log) {o : Occ P E} (ho : o ∈ occurrences log) :
    ∃ d, v.At log root d₀ o.pid o.ix d ∧ v.fails d o.ev = none := by
  have hoX : o ∈ occurrences X := (occurrences_perm hproj).mem_iff.mpr ho
  obtain ⟨a, b, hab, hlen⟩ := split_of_mem_occurrences hoX
  have hpre : ∀ q, proj q X <+: proj q log := fun q => by rw [hproj q]
  obtain ⟨d, hd, hf⟩ := at_split ht hw hX hord hpre hab
  exact ⟨d, hlen ▸ hd, hf⟩

end Data

/-! ## Two interleavings -/

section TwoLogs

variable [DecidableEq P] {v} {root : P} {d₀ : D} {w w₁ w₂ : W}

/-- No event of `log` fails, on the data its agent has at that event. -/
def NoFail (v : LocalView m D G) (log : List (P × E)) (root : P) (d₀ : D) : Prop :=
  ∀ p i d e, v.At log root d₀ p i d → (eventsOf p log)[i]? = some e → v.fails d e = none

theorem NoFail.of_proj_eq {log' : List (P × E)} (hproj : ∀ q, proj q log = proj q log')
    (h : NoFail v log root d₀) : NoFail v log' root d₀ := by
  intro p i d e hAt he
  refine h p i d e (hAt.of_proj_eq fun q => (hproj q).symm) ?_
  rw [eventsOf, hproj p]
  exact he

/-- **When a log goes through.** Whether it does depends on the events of each agent alone. -/
theorem run_ok_iff (ht : Tree m.announces root log) (hw : Initial v root d₀ w) {depth : Nat}
    (hd : log.length ≤ depth) :
    (∃ s, run m depth (State.start w) log = .ok s) ↔ NoFail v log root d₀ := by
  constructor
  · rintro ⟨s, hs⟩ p i d e hAt he
    rcases run_tree v.lawful hw.known_iff ht hd with
      ⟨_, X, _, hX, hord, hproj, _⟩ | ⟨err, _, _, _, hr, _⟩
    · obtain ⟨d', hd', hf⟩ := at_of_mem_occurrences ht hw hX hord hproj
        (mem_occurrences.mpr he : (⟨p, i, e⟩ : Occ P E) ∈ occurrences log)
      rw [hAt.unique ht hd']
      exact hf
    · rw [hs] at hr; cases hr
  · intro hno
    rcases run_tree v.lawful hw.known_iff ht hd with
      ⟨s, _, hr, _⟩ | ⟨err, X, x, w', _, hX, hb, hord, hpre⟩
    · exact ⟨s, hr⟩
    · obtain ⟨d, hxd⟩ := exists_data hw hX hord
      have hpreX : ∀ q, proj q X <+: proj q log := fun q => by
        have hq := hpre q
        rw [proj_append] at hq
        exact (List.prefix_append _ _).trans hq
      have hAt := data_at ht hw hX (ordered_left _ hord) hpreX x.1 d hxd
      obtain ⟨w₂, hb₂, _⟩ := v.body_ok hxd (hno _ _ _ _ hAt (getElem?_of_snoc (hpre x.1)))
      rw [hb₂] at hb
      cases hb

/-- The data of an agent before one of its events, in every interleaving of `log`. -/
noncomputable def dataOf (v : LocalView m D G) (log : List (P × E)) (root : P) (d₀ : D)
    (o : Occ P E) : D :=
  haveI : Nonempty D := ⟨d₀⟩
  Classical.epsilon (fun d => v.At log root d₀ o.pid o.ix d)

theorem dataOf_eq (ht : Tree m.announces root log) {o : Occ P E} {d : D}
    (h : v.At log root d₀ o.pid o.ix d) : dataOf v log root d₀ o = d := by
  have : Nonempty D := ⟨d₀⟩
  have hex : ∃ d, v.At log root d₀ o.pid o.ix d := ⟨d, h⟩
  exact (Classical.epsilon_spec hex).unique ht h

/-- What an interleaving leaves of the shared state: the effects of its occurrences. -/
theorem shared_eq_foldl (ht : Tree m.announces root log) (hw : Initial v root d₀ w)
    {X : List (P × E)} (hX : bodies m X w = .ok w₁)
    (hord : Ordered m.announces (· = root) X) (hpre : ∀ q, proj q X <+: proj q log) :
    v.shared w₁ = (occurrences X).foldl
      (fun g o => v.effect (dataOf v log root d₀ o) o.ev g) (v.shared w) := by
  induction X using List.reverseRecOn generalizing w₁ with
  | nil => cases hX; rfl
  | append_singleton X x ih =>
      obtain ⟨w₃, h₁, h₂⟩ := bodies_split m hX
      rw [bodies_singleton] at h₂
      have hpre₁ : ∀ q, proj q X <+: proj q log := fun q => by
        have hq := hpre q
        rw [proj_append] at hq
        exact (List.prefix_append _ _).trans hq
      obtain ⟨d, hd⟩ := exists_data hw h₁ hord
      have hAt := data_at ht hw h₁ (ordered_left _ hord) hpre₁ x.1 d hd
      have hδ : dataOf v log root d₀ ⟨x.1, (proj x.1 X).length, x.2⟩ = d := dataOf_eq ht hAt
      rw [(v.body_inv hd h₂).2.1, ih h₁ (ordered_left _ hord) hpre₁, occurrences_snoc,
        List.foldl_append, List.foldl_cons, List.foldl_nil, hδ]

variable {X₁ X₂ : List (P × E)}

/-- Every agent ends with the same data. -/
theorem same_data (ht : Tree m.announces root log) (hw : Initial v root d₀ w)
    (hX₁ : bodies m X₁ w = .ok w₁) (hord₁ : Ordered m.announces (· = root) X₁)
    (hproj₁ : ∀ q, proj q X₁ = proj q log)
    (hX₂ : bodies m X₂ w = .ok w₂) (hord₂ : Ordered m.announces (· = root) X₂)
    (hproj₂ : ∀ q, proj q X₂ = proj q log) (q : P) : v.data w₁ q = v.data w₂ q := by
  have hsome : (v.data w₁ q).isSome = true ↔ (v.data w₂ q).isSome = true := by
    rw [data_isSome_iff hw hX₁ hord₁, data_isSome_iff hw hX₂ hord₂,
      (announced_perm m.announces (perm_of_proj_eq hproj₁)).mem_iff,
      (announced_perm m.announces (perm_of_proj_eq hproj₂)).mem_iff]
  cases h₁ : v.data w₁ q with
  | none =>
      cases h₂ : v.data w₂ q with
      | none => rfl
      | some d₂ => rw [h₁, h₂] at hsome; simp at hsome
  | some d₁ =>
      cases h₂ : v.data w₂ q with
      | none => rw [h₁, h₂] at hsome; simp at hsome
      | some d₂ =>
          have hA₁ := data_at ht hw hX₁ hord₁ (fun q => by rw [hproj₁ q]) q d₁ h₁
          have hA₂ := data_at ht hw hX₂ hord₂ (fun q => by rw [hproj₂ q]) q d₂ h₂
          rw [hproj₁ q] at hA₁
          rw [hproj₂ q] at hA₂
          rw [hA₁.unique ht hA₂]

/-- Two interleavings that order conflicting occurrences of different agents alike leave the
    same shared state. -/
theorem same_shared (ht : Tree m.announces root log) (hw : Initial v root d₀ w)
    (hX₁ : bodies m X₁ w = .ok w₁) (hord₁ : Ordered m.announces (· = root) X₁)
    (hproj₁ : ∀ q, proj q X₁ = proj q log)
    (hX₂ : bodies m X₂ w = .ok w₂) (hord₂ : Ordered m.announces (· = root) X₂)
    (hproj₂ : ∀ q, proj q X₂ = proj q log) (Conf : D → E → D → E → Prop)
    (hcomm : ∀ d e d' e', ¬ Conf d e d' e' → ∀ g,
      v.effect d' e' (v.effect d e g) = v.effect d e (v.effect d' e' g))
    (hagree : ∀ o o' d d', o.pid ≠ o'.pid → v.At log root d₀ o.pid o.ix d →
      v.At log root d₀ o'.pid o'.ix d' → Conf d o.ev d' o'.ev →
      [o, o'].Sublist (occurrences X₁) → [o, o'].Sublist (occurrences X₂)) :
    v.shared w₁ = v.shared w₂ := by
  have hX₁₂ : ∀ q, proj q X₁ = proj q X₂ := fun q => (hproj₁ q).trans (hproj₂ q).symm
  rw [shared_eq_foldl ht hw hX₁ hord₁ (fun q => by rw [hproj₁ q]),
    shared_eq_foldl ht hw hX₂ hord₂ (fun q => by rw [hproj₂ q])]
  -- occurrences of one agent, and conflicting ones, must keep their order
  refine foldl_eq_of_depOrder _
    (fun o o' => o.pid = o'.pid ∨
      Conf (dataOf v log root d₀ o) o.ev (dataOf v log root d₀ o') o'.ev)
    (fun o o' h g => hcomm _ _ _ _ (fun hc => h (Or.inr hc)) g)
    (occurrences X₁) (occurrences X₂) (occurrences_perm hX₁₂) (occurrences_nodup X₁) ?_
    (v.shared w)
  intro o o' hdep hs
  by_cases hpid : o.pid = o'.pid
  · exact occurrences_order hX₁₂ hpid hs
  · have hAt : ∀ o'' ∈ occurrences X₁, ∃ d, v.At log root d₀ o''.pid o''.ix d := by
      intro o'' ho''
      obtain ⟨d, hd, _⟩ := at_of_mem_occurrences ht hw hX₁ hord₁ hproj₁
        ((occurrences_perm hproj₁).mem_iff.mp ho'')
      exact ⟨d, hd⟩
    obtain ⟨d, hd⟩ := hAt o (hs.subset (by simp))
    obtain ⟨d', hd'⟩ := hAt o' (hs.subset (by simp))
    have hc := hdep.resolve_left hpid
    rw [dataOf_eq ht hd, dataOf_eq ht hd'] at hc
    exact hagree o o' d d' hpid hd hd' hc hs

end TwoLogs

end LocalView

end Buildsh.Generic
