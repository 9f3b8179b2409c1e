/-
  Things that are removed one after another, where nothing can go that has something below it.

  `Below q p` says that `q` lies below `p`, and `Loose p` that `p` can go at all. A sweep walks
  down a list of names; a name leads to `lead n` by way of the things `way n`, and nowhere when
  one of these is gone. What still has something below it when its turn comes stays, and has to
  wait for another of its names.

  `sweep_clears_iff`: a sweep in descending order clears a set `R` exactly when each member has a
  name under which it goes, its turn: the greatest one at which what lies below has gone and the
  way is still there, going by the turns of the others.
-/
import Mathlib.Data.Set.Basic
import Mathlib.Order.Bounds.Defs
import Mathlib.Order.Lattice

namespace Buildsh.Generic.Sweep

variable {P N : Type} (Below : P → P → Prop) (Loose : P → Prop) (lead : N → P) (way : N → Set P)

/-- `p` has nothing below it, and the way `w` is there. -/
structure Ready (left : Set P) (p : P) (w : Set P) : Prop where
  loose : Loose p
  bare : ∀ q ∈ left, ¬ Below q p
  there : w ⊆ left

/-- One removal. -/
def removeOne (left : Set P) (p : P) (w : Set P) : Set P :=
  {x ∈ left | ¬ (x = p ∧ Ready Below Loose left p w)}

/-- What a sweep leaves. -/
def sweep (left : Set P) (names : List N) : Set P :=
  names.foldl (fun left n => removeOne Below Loose left (lead n) (way n)) left

variable {Below Loose lead way}

theorem mem_removeOne {left w : Set P} {p x : P} :
    x ∈ removeOne Below Loose left p w ↔ x ∈ left ∧ ¬ (x = p ∧ Ready Below Loose left p w) :=
  Iff.rfl

theorem removeOne_subset (left : Set P) (p : P) (w : Set P) :
    removeOne Below Loose left p w ⊆ left := fun _ hx => hx.1

theorem sweep_cons (left : Set P) (n : N) (names : List N) :
    sweep Below Loose lead way left (n :: names) =
      sweep Below Loose lead way (removeOne Below Loose left (lead n) (way n)) names := rfl

theorem sweep_map {M : Type} (f : M → N) (left : Set P) (names : List M) :
    sweep Below Loose lead way left (names.map f) =
      sweep Below Loose (fun n => lead (f n)) (fun n => way (f n)) left names := List.foldl_map

theorem sweep_subset (left : Set P) (names : List N) :
    sweep Below Loose lead way left names ⊆ left := by
  induction names generalizing left with
  | nil => exact Set.Subset.rfl
  | cons n names ih =>
      rw [sweep_cons]
      exact (ih _).trans (removeOne_subset left _ _)

variable [LinearOrder N]

/-- Under `n`, everything below `p` has gone and the way is left, if what is in `R` goes at the
    turns `c`. -/
structure InTurn (Below : P → P → Prop) (lead : N → P) (way : N → Set P) (left R : Set P)
    (c : P → N) (p : P) (n : N) : Prop where
  lead_eq : lead n = p
  sub : way n ⊆ left
  below : ∀ q ∈ left, Below q p → n < c q
  there : ∀ v ∈ way n, v ∈ R → c v ≤ n

/-- Each member goes at its turn, which is the first chance it gets. -/
structure Turns (Below : P → P → Prop) (Loose : P → Prop) (lead : N → P) (way : N → Set P)
    (left R : Set P) (names : List N) (c : P → N) : Prop where
  loose : ∀ p ∈ left ∩ R, Loose p
  closed : ∀ p ∈ left ∩ R, ∀ q ∈ left, Below q p → q ∈ R
  first : ∀ p ∈ left ∩ R, IsGreatest {n | n ∈ names ∧ InTurn Below lead way left R c p n} (c p)

/-! ## Turns clear a set -/

section Clears

variable {left₀ left R : Set P} {all names : List N} {c : P → N} {n : N}

/-- What a sweep with the turns `c` has left when `names` are still to come. -/
structure Swept (left₀ R : Set P) (c : P → N) (left : Set P) (names : List N) : Prop where
  sub : left ⊆ left₀
  others : ∀ x ∈ left₀, x ∉ R → x ∈ left
  ahead : ∀ x ∈ left, x ∈ R → c x ∈ names
  gone : ∀ x ∈ left₀, x ∈ R → x ∉ left → ∀ m ∈ names, m ≤ c x

/-- What has its turn is ready. -/
theorem Swept.ready (ht : Turns Below Loose lead way left₀ R all c)
    (hs : Swept left₀ R c left (n :: names)) (hn : ∀ m ∈ names, m ≤ n) {x : P} (hx : x ∈ left)
    (hxR : x ∈ R) (hc : c x = n) : lead n = x ∧ Ready Below Loose left (lead n) (way n) := by
  have hx₀ : x ∈ left₀ ∩ R := ⟨hs.sub hx, hxR⟩
  have hturn := (ht.first x hx₀).1.2
  rw [hc] at hturn
  refine ⟨hturn.lead_eq, ?_, fun q hq hqx => ?_, fun v hv => ?_⟩
  · rw [hturn.lead_eq]
    exact ht.loose x hx₀
  · -- `q` would have a later turn than `x`, but it goes first
    rw [hturn.lead_eq] at hqx
    have hlt := hturn.below q (hs.sub hq) hqx
    have hqR := ht.closed x hx₀ q (hs.sub hq) hqx
    rcases List.mem_cons.mp (hs.ahead q hq hqR) with hqn | hqn
    · exact absurd (hqn ▸ hlt) (lt_irrefl n)
    · exact absurd (hn _ hqn) (not_le.mpr hlt)
  · by_contra hgone
    have hv₀ := hturn.sub hv
    have hvR : v ∈ R := by_contra fun h => hgone (hs.others v hv₀ h)
    have hle := hturn.there v hv hvR
    have hge := hs.gone v hv₀ hvR hgone n List.mem_cons_self
    have hcv : c v = n := le_antisymm hle hge
    have hlead := (ht.first v ⟨hv₀, hvR⟩).1.2.lead_eq
    rw [hcv, hturn.lead_eq] at hlead
    exact hgone (hlead ▸ hx)

/-- What is ready has its turn, or has had it. -/
theorem Swept.le_turn (ht : Turns Below Loose lead way left₀ R all c)
    (hs : Swept left₀ R c left (n :: names)) (hn : ∀ m ∈ names, m ≤ n) (hmem : n ∈ all)
    (hx : lead n ∈ left) (hxR : lead n ∈ R) (hr : Ready Below Loose left (lead n) (way n)) :
    n ≤ c (lead n) := by
  have hx₀ : lead n ∈ left₀ ∩ R := ⟨hs.sub hx, hxR⟩
  refine (ht.first _ hx₀).2 ⟨hmem, rfl, fun v hv => hs.sub (hr.there hv), fun q hq hqx => ?_,
    fun v hv hvR => ?_⟩
  · have hqR := ht.closed _ hx₀ q hq hqx
    have hgone : q ∉ left := fun h => hr.bare q h hqx
    refine lt_of_le_of_ne (hs.gone q hq hqR hgone n List.mem_cons_self) fun he => hgone ?_
    have hlead := (ht.first q ⟨hq, hqR⟩).1.2.lead_eq
    rw [← he] at hlead
    exact hlead ▸ hx
  · rcases List.mem_cons.mp (hs.ahead v (hr.there hv) hvR) with hvn | hvn
    · exact le_of_eq hvn
    · exact hn _ hvn

/-- One name. -/
theorem Swept.step (ht : Turns Below Loose lead way left₀ R all c)
    (hR : ∀ n ∈ all, way n ⊆ left₀ → lead n ∈ R) (hs : Swept left₀ R c left (n :: names))
    (hn : ∀ m ∈ names, m ≤ n) (hmem : n ∈ all) :
    Swept left₀ R c (removeOne Below Loose left (lead n) (way n)) names := by
  refine ⟨fun x hx => hs.sub hx.1, fun x hx hxR => ?_, fun x hx hxR => ?_, fun x hx hxR hgone => ?_⟩
  · refine ⟨hs.others x hx hxR, fun ⟨he, hr⟩ => hxR ?_⟩
    rw [he]
    exact hR n hmem fun v hv => hs.sub (hr.there hv)
  · rcases List.mem_cons.mp (hs.ahead x hx.1 hxR) with hxn | hxn
    · obtain ⟨hlead, hr⟩ := hs.ready ht hn hx.1 hxR hxn
      exact absurd ⟨hlead.symm, hr⟩ hx.2
    · exact hxn
  · by_cases hxl : x ∈ left
    · obtain ⟨rfl, hr⟩ : x = lead n ∧ Ready Below Loose left (lead n) (way n) :=
        by_contra fun h => hgone ⟨hxl, h⟩
      have hle := hs.le_turn ht hn hmem hxl hxR hr
      exact fun m hm => (hn m hm).trans hle
    · exact fun m hm => hs.gone x hx hxR hxl m (List.mem_cons_of_mem _ hm)

theorem Swept.sweep (ht : Turns Below Loose lead way left₀ R all c)
    (hR : ∀ n ∈ all, way n ⊆ left₀ → lead n ∈ R)
    (hsorted : names.Pairwise (fun a b => b ≤ a)) (hs : Swept left₀ R c left names)
    (hsub : ∀ n ∈ names, n ∈ all) :
    Swept left₀ R c (sweep Below Loose lead way left names) [] := by
  induction names generalizing left with
  | nil => exact hs
  | cons n names ih =>
      rw [List.pairwise_cons] at hsorted
      rw [List.forall_mem_cons] at hsub
      exact ih hsorted.2 (hs.step ht hR hsorted.1 hsub.1) hsub.2

end Clears

/-! ## What a sweep clears has turns -/

/-- What is gone at the end. -/
def goneAfter (Below : P → P → Prop) (Loose : P → Prop) (lead : N → P) (way : N → Set P)
    (left : Set P) (names : List N) : Set P := left \ sweep Below Loose lead way left names

/-- The turns at which things went. -/
structure Went (Below : P → P → Prop) (Loose : P → Prop) (lead : N → P) (way : N → Set P)
    (left : Set P) (names : List N) (G : Set P) (c : P → N) (p : P) : Prop where
  loose : Loose p
  closed : ∀ q ∈ left, Below q p → q ∈ G
  first : IsGreatest {n | n ∈ names ∧ InTurn Below lead way left G c p n} (c p)

section Went

variable {left G : Set P} {n : N} {names : List N} {c : P → N}

/-- A name that removes nothing. -/
theorem Went.skip (hn : ∀ m ∈ names, m ≤ n) (hnot : ¬ (lead n ∈ left ∧
      Ready Below Loose left (lead n) (way n))) (hG : ∀ q ∈ G, c q ∈ names) {p : P} (hp : p ∈ left)
    (h : Went Below Loose lead way left names G c p) :
    Went Below Loose lead way left (n :: names) G c p := by
  refine ⟨h.loose, h.closed, ⟨List.mem_cons_of_mem _ h.first.1.1, h.first.1.2⟩, ?_⟩
  rintro m ⟨hm, hturn⟩
  rcases List.mem_cons.mp hm with rfl | hm
  · -- something below `p` would have gone before the first name
    obtain rfl := hturn.lead_eq
    refine absurd ⟨hp, h.loose, fun q hq hqp => ?_, hturn.sub⟩ hnot
    exact absurd (hn _ (hG q (h.closed q hq hqp))) (not_le.mpr (hturn.below q hq hqp))
  · exact h.first.2 ⟨hm, hturn⟩

variable [DecidableEq P]

/-- The name that removes `p`. -/
theorem went_removed (hn : ∀ m ∈ names, m ≤ n) (hG : ∀ q ∈ G, q ≠ lead n → c q ∈ names)
    (hr : Ready Below Loose left (lead n) (way n)) :
    Went Below Loose lead way left (n :: names) G (Function.update c (lead n) n) (lead n) := by
  have hmax : ∀ m ∈ n :: names, m ≤ n := fun m hm =>
    (List.mem_cons.mp hm).elim le_of_eq (hn m)
  refine ⟨hr.loose, fun q hq hqp => absurd hqp (hr.bare q hq), ?_⟩
  rw [Function.update_self]
  refine ⟨⟨List.mem_cons_self, rfl, hr.there, fun q hq hqp => absurd hqp (hr.bare q hq),
    fun v hv hvG => ?_⟩, fun m hm => hmax m hm.1⟩
  by_cases hvn : v = lead n
  · rw [hvn, Function.update_self]
  · rw [Function.update_of_ne hvn]
    exact hn _ (hG v hvG hvn)

/-- What goes after the first name has removed something. -/
theorem Went.after (hn : ∀ m ∈ names, m ≤ n) (hx : lead n ∈ left)
    (hr : Ready Below Loose left (lead n) (way n)) {p : P} (hp : p ≠ lead n)
    (h : Went Below Loose lead way (removeOne Below Loose left (lead n) (way n)) names
      (G \ {lead n}) c p) (hG : lead n ∈ G) :
    Went Below Loose lead way left (n :: names) G (Function.update c (lead n) n) p := by
  have hstays : ∀ q ∈ left, q ≠ lead n → q ∈ removeOne Below Loose left (lead n) (way n) :=
    fun q hq hqn => ⟨hq, fun hqr => hqn hqr.1⟩
  have hleft : ∀ q ∈ removeOne Below Loose left (lead n) (way n), q ≠ lead n := fun q hq he =>
    hq.2 ⟨he, hr⟩
  -- the first name is no name of `p`, so the name of `p` is smaller
  have hlt : ∀ m ∈ names, lead m = p → m < n := fun m hm he =>
    lt_of_le_of_ne (hn m hm) fun hmn => hp (by rw [← he, hmn])
  obtain ⟨⟨hmem, hturn⟩, hmax⟩ := h.first
  refine ⟨h.loose, fun q hq hqp => ?_, ?_⟩
  · by_cases hqn : q = lead n
    · exact hqn ▸ hG
    · exact (h.closed q (hstays q hq hqn) hqp).1
  rw [Function.update_of_ne hp]
  refine ⟨⟨List.mem_cons_of_mem _ hmem, hturn.lead_eq, fun v hv => (hturn.sub hv).1,
    fun q hq hqp => ?_, fun v hv hvG => ?_⟩, ?_⟩
  · by_cases hqn : q = lead n
    · rw [hqn, Function.update_self]
      exact hlt _ hmem hturn.lead_eq
    · rw [Function.update_of_ne hqn]
      exact hturn.below q (hstays q hq hqn) hqp
  · have hvn := hleft v (hturn.sub hv)
    rw [Function.update_of_ne hvn]
    exact hturn.there v hv ⟨hvG, hvn⟩
  · rintro m ⟨hm, hm'⟩
    rcases List.mem_cons.mp hm with rfl | hm
    · exact absurd hm'.lead_eq.symm hp
    have hway : ∀ v ∈ way m, v ≠ lead n := fun v hv he => by
      have hle := hm'.there v hv (he ▸ hG)
      rw [he, Function.update_self] at hle
      exact absurd (hlt m hm hm'.lead_eq) (not_lt.mpr hle)
    refine hmax ⟨hm, hm'.lead_eq, fun v hv => hstays v (hm'.sub hv) (hway v hv), fun q hq hqp => ?_,
      fun v hv hvG => ?_⟩
    · have hlt' := hm'.below q hq.1 hqp
      rwa [Function.update_of_ne (hleft q hq)] at hlt'
    · have hle := hm'.there v hv hvG.1
      rwa [Function.update_of_ne (hway v hv)] at hle

end Went

/-- What a sweep removes has turns. -/
theorem exists_turns [Inhabited N] {left : Set P} {names : List N}
    (hsorted : names.Pairwise (fun a b => b ≤ a)) :
    ∃ c : P → N, ∀ p ∈ goneAfter Below Loose lead way left names,
      Went Below Loose lead way left names (goneAfter Below Loose lead way left names) c p := by
  classical
  induction names generalizing left with
  | nil => exact ⟨fun _ => default, fun p hp => absurd hp.1 hp.2⟩
  | cons n names ih =>
      rw [List.pairwise_cons] at hsorted
      obtain ⟨hn, hsorted⟩ := hsorted
      obtain ⟨c, hc⟩ := @ih (removeOne Below Loose left (lead n) (way n)) hsorted
      by_cases hx : lead n ∈ left ∧ Ready Below Loose left (lead n) (way n)
      · obtain ⟨hx, hr⟩ := hx
        have hgone : goneAfter Below Loose lead way
              (removeOne Below Loose left (lead n) (way n)) names =
            goneAfter Below Loose lead way left (n :: names) \ {lead n} := by
          ext q
          refine ⟨fun hq => ⟨⟨hq.1.1, hq.2⟩, fun he => hq.1.2 ⟨he, hr⟩⟩, fun hq => ?_⟩
          exact ⟨⟨hq.1.1, fun he => hq.2 he.1⟩, hq.1.2⟩
        have hmem : lead n ∈ goneAfter Below Loose lead way left (n :: names) := by
          refine ⟨hx, fun h => ?_⟩
          exact (sweep_subset _ names h).2 ⟨rfl, hr⟩
        rw [hgone] at hc
        refine ⟨Function.update c (lead n) n, fun p hp => ?_⟩
        by_cases hpn : p = lead n
        · subst hpn
          exact went_removed hn (fun q hq hqn => (hc q ⟨hq, hqn⟩).first.1.1) hr
        · exact (hc p ⟨hp, hpn⟩).after hn hx hr hpn hmem
      · have hsame : removeOne Below Loose left (lead n) (way n) = left := by
          ext q
          refine ⟨fun hq => hq.1, fun hq => ⟨hq, fun ⟨he, hr⟩ => hx ⟨he ▸ hq, hr⟩⟩⟩
        have hgone : goneAfter Below Loose lead way left (n :: names) =
            goneAfter Below Loose lead way left names := by
          unfold goneAfter
          rw [sweep_cons, hsame]
        rw [hsame] at hc
        rw [hgone]
        exact ⟨c, fun p hp => (hc p hp).skip hn hx (fun q hq => (hc q hq).first.1.1) hp.1⟩

/-- **What a sweep clears.** All names that lead somewhere lead into `R`. -/
theorem sweep_clears_iff [Inhabited N] {left R : Set P} {names : List N}
    (hsorted : names.Pairwise (fun a b => b ≤ a)) (hR : ∀ n ∈ names, way n ⊆ left → lead n ∈ R) :
    (∀ p ∈ R, p ∉ sweep Below Loose lead way left names) ↔
      ∃ c : P → N, Turns Below Loose lead way left R names c := by
  constructor
  · intro h
    obtain ⟨c, hc⟩ := @exists_turns P N Below Loose lead way _ _ left names hsorted
    have hsame : goneAfter Below Loose lead way left names = left ∩ R := by
      ext q
      refine ⟨fun hq => ⟨hq.1, ?_⟩, fun hq => ⟨hq.1, h q hq.2⟩⟩
      obtain ⟨hmem, hturn⟩ := (hc q hq).first.1
      exact hturn.lead_eq ▸ hR _ hmem hturn.sub
    rw [hsame] at hc
    -- the way of a name is in `left`
    have hsets : ∀ p, {n | n ∈ names ∧ InTurn Below lead way left (left ∩ R) c p n} =
        {n | n ∈ names ∧ InTurn Below lead way left R c p n} := by
      intro p
      ext n
      refine and_congr_right fun _ => ⟨fun hn => ?_, fun hn => ?_⟩
      · exact ⟨hn.lead_eq, hn.sub, hn.below, fun v hv hvR => hn.there v hv ⟨hn.sub hv, hvR⟩⟩
      · exact ⟨hn.lead_eq, hn.sub, hn.below, fun v hv hvR => hn.there v hv hvR.2⟩
    exact ⟨c, fun p hp => (hc p hp).loose, fun p hp q hq hqp => ((hc p hp).closed q hq hqp).2,
      fun p hp => hsets p ▸ (hc p hp).first⟩
  · rintro ⟨c, hc⟩ p hp hmem
    have hstart : Swept left R c left names := by
      refine ⟨Set.Subset.rfl, fun x hx _ => hx, fun x hx hxR => (hc.first x ⟨hx, hxR⟩).1.1, ?_⟩
      exact fun x hx _ hgone => absurd hx hgone
    have hend := hstart.sweep hc hR hsorted fun n hn => hn
    exact absurd (hend.ahead p hmem hp) List.not_mem_nil

end Buildsh.Generic.Sweep
