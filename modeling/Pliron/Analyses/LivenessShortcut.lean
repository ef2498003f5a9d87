/-
  Pliron.Analyses.LivenessShortcut

  When the live-in query is right.

  On reducible graphs it looks at one candidate only, the one that is said to
  dominate all others.  There a candidate dominates the query block, or is a loop
  header that the query block reaches without a back edge.  Candidates of the
  first kind form a chain of dominators, and the topmost one reaches whatever the
  others reach.  A header of the second kind need not be dominated by it: then no
  candidate dominates all others, and the one picked does not even reach the
  query block.
-/

import Pliron.Analyses.LivenessCorrect

namespace Pliron

open Pliron.Lib BitSet Traversals Relation

namespace LivenessTq

/-! ## Candidates on a reducible graph -/

section Candidates

variable {α : Type} [DecidableEq α] {g : ControlFlowGraph α} {r d q t u v m : α}

/-- One candidate dominates all others. -/
def Covered (g : ControlFlowGraph α) (r d q : α) : Prop :=
  ∃ m, Candidate g r d q m ∧ ∀ t, Candidate g r d q t → Dominates g.Edge r m t

/-- A step of the closure of back-edge targets leads to a dominator. -/
theorem dominates_of_up (hred : Reducible g r) (hu : Reach g.Edge r u)
    (h : Up g.Edge (search g r).pre (search g r).post u v) : Dominates g.Edge r v u := by
  obtain ⟨s, hus, hback, hnot⟩ := h
  have hvs : Dominates g.Edge r v s :=
    hred s v (hu.trans (IsDfsOrder.reach_of_reduced hus)) hback
  -- the path on to `s` does not pass `v`, so every path to `u` does
  have havoid : Avoids g.Edge v u s :=
    (Avoids.of_not_reach hus hnot).mono (fun _ _ he => he.1)
  exact fun hru => hvs (hru.trans havoid)

theorem dominates_of_climb (hred : Reducible g r) (hu : Reach g.Edge r u)
    (h : Climb g r u v) : Dominates g.Edge r v u := by
  induction h with
  | refl => exact Dominates.refl u
  | @tail b c hub hbc ih =>
      have hb : Reach g.Edge r b := hu.trans (IsDfsOrder.reach_of_chain hub)
      exact (dominates_of_up hred hb hbc).trans ih

/-- What is collected for a block dominates it, or is a header below it. -/
theorem dominates_or_reach_of_tqReach (hred : Reducible g r) (h : TqReach g r q t)
    (hq : Reach g.Edge r q) : Dominates g.Edge r t q ∨ Reach (Red g r) q t := by
  induction h with
  | target _ hclimb => exact Or.inl (dominates_of_climb hred hq hclimb)
  | @source q t₁ t _ hback hclimb =>
      have ht₁ : Dominates g.Edge r t₁ q := hred q t₁ hq hback
      exact Or.inl ((dominates_of_climb hred (hq.tail hback.1) hclimb).trans ht₁)
  | @plain q q' t _ _ hedge _ ih =>
      rcases ih (hq.tail hedge.1) with hdom | hreach
      · by_cases heq : q' = t
        · exact Or.inr (heq ▸ (Reach.refl q).tail hedge)
        · exact Or.inl (hdom.pred hedge.1 heq)
      · exact Or.inr (hreach.head hedge)

theorem Candidate.dominates_or_reach (h : Candidate g r d q t) (hred : Reducible g r)
    (hq : Reach g.Edge r q) : Dominates g.Edge r t q ∨ Reach (Red g r) q t := by
  rcases h.1 with rfl | htq
  · exact Or.inl (Dominates.refl t)
  · exact dominates_or_reach_of_tqReach hred htq hq

section Order

variable (hg : g.Valid) (hr : r ∈ g.nodes)

include hg hr

/-- A dominator reaches what it dominates without a back edge. -/
theorem reach_red_of_dominates (hv : Reach g.Edge r v) (h : Dominates g.Edge r u v) :
    Reach (Red g r) u v := by
  have hdfs := search_isDfsOrder hg.closed hr
  exact hdfs.reduced_of_ancestor (h.reach hv).1 hv (hdfs.ancestor_of_dominates hv h)

/-- A strict dominator comes first. -/
theorem before_of_strictlyDominates (hv : Reach g.Edge r v)
    (h : StrictlyDominates g.Edge r u v) : Before g r u v :=
  ((search_isDfsOrder hg.closed hr).lt_of_strictlyDominates hv h).2

/-- A candidate that dominates all others is the one picked. -/
theorem picked_of_dominates (hq : Reach g.Edge r q) (hm : Candidate g r d q m)
    (hall : ∀ t, Candidate g r d q t → Dominates g.Edge r m t) : Picked g r d q m where
  candidate := hm
  after t ht hmt := by
    refine ⟨hall t ht, ?_⟩
    rintro rfl
    exact absurd hmt (Nat.lt_irrefl _)
  before t ht htm := by
    by_cases hmt : m = t
    · rw [hmt] at htm
      exact absurd htm (Nat.lt_irrefl _)
    · have hbefore := before_of_strictlyDominates hg hr (hq.trans ht.reach) ⟨hall t ht, hmt⟩
      exact absurd htm (Nat.lt_asymm hbefore)

/-- If the picked candidate reaches the query block without a back edge, it dominates all
    candidates. -/
theorem covered_of_picked_reach (hred : Reducible g r) (hq : Reach g.Edge r q)
    (hdq : StrictlyDominates g.Edge r d q) (hm : Picked g r d q m)
    (hmq : Reach (Red g r) m q) : Covered g r d q := by
  have hdfs := search_isDfsOrder hg.closed hr
  have hreach : ∀ {t}, Candidate g r d q t → Reach g.Edge r t := fun ht => hq.trans ht.reach
  have hmr := hreach hm.candidate
  have hqcand : Candidate g r d q q := ⟨Or.inl rfl, hdq⟩
  have hmle := hdfs.post_le_of_reduced hmr hmq
  have hmdom : Dominates g.Edge r m q := by
    by_cases heq : m = q
    · exact heq ▸ Dominates.refl m
    · have hlt : Before g r m q :=
        lt_of_le_of_ne hmle (fun h => heq (hdfs.post_inj hq hmr h).symm)
      exact (hm.after q hqcand hlt).1
  -- a candidate before `m` dominates `q`
  have hdom : ∀ {t}, Candidate g r d q t → Before g r t m → Dominates g.Edge r t q := by
    intro t ht htm
    refine (ht.dominates_or_reach hred hq).resolve_right (fun hqt => ?_)
    have hle := hdfs.post_le_of_reduced hq hqt
    have hlt : (search g r).post m < (search g r).post t := htm
    omega
  -- and would strictly dominate everything after it, so there is none
  have hnone : ∀ {t}, Candidate g r d q t → ¬ Before g r t m := by
    intro t ht htm
    obtain ⟨t', ht', htt', hnot⟩ := hm.before t ht htm
    have hsdom : ∀ {a}, Candidate g r d q a → Dominates g.Edge r a q → Before g r t a →
        StrictlyDominates g.Edge r t a := by
      intro a ha haq hta
      have hne : t ≠ a := by
        rintro rfl
        exact absurd hta (Nat.lt_irrefl _)
      rcases (hdom ht htm).total haq hq with hle | hle
      · exact ⟨hle, hne⟩
      · have hbefore := before_of_strictlyDominates hg hr (hreach ht) ⟨hle, Ne.symm hne⟩
        exact absurd hta (Nat.lt_asymm hbefore)
    have htm' : StrictlyDominates g.Edge r t m := hsdom hm.candidate hmdom htm
    rcases Nat.lt_trichotomy ((search g r).post t') ((search g r).post m) with hlt | heq | hgt
    · exact hnot (htm'.trans (hm.after t' ht' hlt) (hreach ht'))
    · rw [hdfs.post_inj (hreach ht') hmr heq] at hnot
      exact hnot htm'
    · exact hnot (hsdom ht' (hdom ht' hgt) htt')
  refine ⟨m, hm.candidate, fun t ht => ?_⟩
  by_cases heq : m = t
  · exact heq ▸ Dominates.refl m
  · have hlt : Before g r m t := by
      have hnot := hnone ht
      have hne : (search g r).post t ≠ (search g r).post m := fun h =>
        heq (hdfs.post_inj (hreach ht) hmr h).symm
      unfold Before at hnot ⊢
      omega
    exact (hm.after t ht hlt).1

/-- A candidate that dominates all others reaches what they reach. -/
theorem Covered.exists_picked (h : Covered g r d q) (hq : Reach g.Edge r q)
    (ht : Candidate g r d q t) (htu : Reach (Red g r) t u) :
    ∃ m, Picked g r d q m ∧ Reach (Red g r) m u := by
  obtain ⟨m, hm, hall⟩ := h
  have hmt := reach_red_of_dominates hg hr (hq.trans ht.reach) (hall t ht)
  exact ⟨m, picked_of_dominates hg hr hq hm hall, hmt.trans htu⟩

/-- The picked candidate reaches a use whenever some candidate does, whatever is used, exactly
    if one candidate dominates all others. -/
theorem covered_iff_forall_uses (hred : Reducible g r) (hq : Reach g.Edge r q)
    (hdq : StrictlyDominates g.Edge r d q) :
    Covered g r d q ↔ ∀ U : α → Prop, (∀ u, U u → Reach g.Edge r u ∧ Dominates g.Edge r d u) →
      (∃ t u, Candidate g r d q t ∧ U u ∧ Reach (Red g r) t u) →
      ∃ m u, Picked g r d q m ∧ U u ∧ Reach (Red g r) m u := by
  constructor
  · rintro hcovered U - ⟨t, u, ht, hu, htu⟩
    obtain ⟨m, hm, hmu⟩ := hcovered.exists_picked hg hr hq ht htu
    exact ⟨m, u, hm, hu, hmu⟩
  · intro hall
    -- a value whose only use is in the query block
    obtain ⟨m, u, hm, rfl, hmu⟩ := hall (fun u => u = q) (fun u hu => hu ▸ ⟨hq, hdq.1⟩)
      ⟨q, q, ⟨Or.inl rfl, hdq⟩, rfl, Reach.refl q⟩
    exact covered_of_picked_reach hg hr hred hq hdq hm hmu

/-- Where one candidate dominates all others, the live-in query sees what a path without back
    edges, or with an early one, leads to. -/
theorem seenIn_iff_of_covered {U : α → Prop}
    (hU : ∀ u, U u → Reach g.Edge r u ∧ Dominates g.Edge r d u) (hq : Reach g.Edge r q)
    (hdq : StrictlyDominates g.Edge r d q) (hcov : Reducible g r → Covered g r d q) :
    SeenIn g r d U q ↔ ∃ u, U u ∧ (Avoids (Red g r) d q u ∨ EarlyBack g r d q u) := by
  constructor
  · intro hseen
    by_cases hred : Reducible g r
    · obtain ⟨m, u, hm, hu, hmu⟩ := hseen.1 hred
      exact ⟨u, hu, (exists_candidate_iff hg hr hq hdq (hU u hu).2).mp ⟨m, hm.candidate, hmu⟩⟩
    · exact hseen.2 hred
  · rintro ⟨u, hu, hpath⟩
    refine ⟨fun hred => ?_, fun _ => ⟨u, hu, hpath⟩⟩
    obtain ⟨t, ht, htu⟩ := (exists_candidate_iff hg hr hq hdq (hU u hu).2).mpr hpath
    obtain ⟨m, hm, hmu⟩ := (hcov hred).exists_picked hg hr hq ht htu
    exact ⟨m, u, hm, hu, hmu⟩

end Order

end Candidates

/-! ## The two paths of the query -/

/-- The precomputed information with the flag off, so that the query tests every candidate. -/
def withoutShortcut {α : Type} (lv : LivenessTq α) : LivenessTq α :=
  { lv with isReducible := false }

section Index

variable {α : Type} [DecidableEq α] {g : ControlFlowGraph α} {r d q : α} {lv : LivenessTq α}
  {U : α → Prop} {uses : BitSet} {di qi : Nat}

/-- Without the shortcut the query finds a use that any candidate reaches. -/
theorem withoutShortcut_spec (h : Spec g r lv) (hg : g.Valid) (hr : r ∈ g.nodes)
    (hU : ∀ u, U u → Reach g.Edge r u ∧ Dominates g.Edge r d u)
    (huses : IsSetOf (Dominance.rpo g r) uses U) (hd : (Dominance.rpo g r)[di]? = some d)
    (hq : (Dominance.rpo g r)[qi]? = some q) (hdq : StrictlyDominates g.Edge r d q) :
    ∃ b, (withoutShortcut lv).isLiveInAtIndex di qi uses = some b ∧
      (b = true ↔ ∃ t u, Candidate g r d q t ∧ U u ∧ Reach (Red g r) t u) := by
  have hqr : Reach g.Edge r q := (Dominance.mem_rpo hg hr).mp (List.mem_of_getElem? hq)
  have hqd : qi ∈ at' lv.sdomTree di := (Spec.mem_at'_iff h.sdom hd hq).mpr hdq
  by_cases hempty : uses = ∅
  · refine ⟨false, by rw [isLiveInAtIndex, if_pos (Or.inr hempty)], iff_of_false (by simp) ?_⟩
    rintro ⟨t, u, -, hu, -⟩
    exact huses.ne_empty_iff.mpr ⟨u, mem_rpo_of_use hg hr hU hu, hu⟩ hempty
  · have hguard : ¬ (qi ∉ at' lv.sdomTree di ∨ uses = ∅) := by
      rw [not_or, not_not]
      exact ⟨hqd, hempty⟩
    have hcand := h.candidates_isSetOf hd hq
    refine ⟨(iter lv.numBlocks (at' lv.tqSets qi ∩ at' lv.sdomTree di)).any
      (fun t => lv.reducedReaches t uses), ?_, ?_⟩
    · show (if qi ∉ at' lv.sdomTree di ∨ uses = ∅ then some false else _) = _
      rw [if_neg hguard]
      rfl
    · rw [h.any_iter_iff hcand (fun i t hi => h.reducedReaches_iff huses hi)]
      constructor
      · rintro ⟨t, -, ht, u, -, htu, hu⟩
        exact ⟨t, u, ht, hu, htu⟩
      · rintro ⟨t, u, ht, hu, htu⟩
        exact ⟨t, (Dominance.mem_rpo hg hr).mpr (hqr.trans ht.reach), ht, u,
          mem_rpo_of_use hg hr hU hu, htu, hu⟩

/-- The two paths agree when one candidate dominates all others, when there is nothing to be
    found, or when the picked candidate finds it. -/
theorem shortcut_spec (h : Spec g r lv) (hg : g.Valid) (hr : r ∈ g.nodes)
    (hU : ∀ u, U u → Reach g.Edge r u ∧ Dominates g.Edge r d u)
    (huses : IsSetOf (Dominance.rpo g r) uses U) (hd : (Dominance.rpo g r)[di]? = some d)
    (hq : (Dominance.rpo g r)[qi]? = some q) (hdq : StrictlyDominates g.Edge r d q)
    (hred : Reducible g r) :
    ∃ b b', lv.isLiveInAtIndex di qi uses = some b ∧
      (withoutShortcut lv).isLiveInAtIndex di qi uses = some b' ∧
      (b = true ↔ ∃ m u, Picked g r d q m ∧ U u ∧ Reach (Red g r) m u) ∧
      (b' = true ↔ ∃ t u, Candidate g r d q t ∧ U u ∧ Reach (Red g r) t u) ∧
      (b = b' ↔ Covered g r d q ∨
        (¬ ∃ t u, Candidate g r d q t ∧ U u ∧ Reach (Red g r) t u) ∨
        ∃ m u, Picked g r d q m ∧ U u ∧ Reach (Red g r) m u) := by
  have hqr : Reach g.Edge r q := (Dominance.mem_rpo hg hr).mp (List.mem_of_getElem? hq)
  obtain ⟨b, hb, hseen⟩ := isLiveInAtIndex_spec h hg hr hU huses hd hq
  obtain ⟨b', hb', hall⟩ := withoutShortcut_spec h hg hr hU huses hd hq hdq
  have hpick : b = true ↔ ∃ m u, Picked g r d q m ∧ U u ∧ Reach (Red g r) m u := by
    rw [hseen, SeenIn]
    simp [hdq, hred]
  refine ⟨b, b', hb, hb', hpick, hall, ?_⟩
  have hle : b = true → b' = true := by
    intro hbt
    obtain ⟨m, u, hm, hu, hmu⟩ := hpick.mp hbt
    exact hall.mpr ⟨m, u, hm.candidate, hu, hmu⟩
  have heq : b = b' ↔ (b' = true → b = true) := by
    cases b <;> cases b' <;> simp_all
  rw [heq, hpick, hall]
  constructor
  · intro himp
    by_cases hfound : ∃ t u, Candidate g r d q t ∧ U u ∧ Reach (Red g r) t u
    · exact Or.inr (Or.inr (himp hfound))
    · exact Or.inr (Or.inl hfound)
  · rintro (hcovered | hnone | hfound) hfound'
    · obtain ⟨t, u, ht, hu, htu⟩ := hfound'
      obtain ⟨m, hm, hmu⟩ := hcovered.exists_picked hg hr hqr ht htu
      exact ⟨m, u, hm, hu, hmu⟩
    · exact absurd hfound' hnone
    · exact hfound

/-- Numbers of blocks that the definition dominates, as a set of blocks. -/
theorem uses_spec (hg : g.Valid) (hr : r ∈ g.nodes)
    (hdom : ∀ i ∈ uses, ∃ u, (Dominance.rpo g r)[i]? = some u ∧ Dominates g.Edge r d u) :
    IsSetOf (Dominance.rpo g r) uses (fun u => ∃ i ∈ uses, (Dominance.rpo g r)[i]? = some u) ∧
      ∀ u, (∃ i ∈ uses, (Dominance.rpo g r)[i]? = some u) →
        Reach g.Edge r u ∧ Dominates g.Edge r d u := by
  constructor
  · intro i
    constructor
    · intro hi
      obtain ⟨u, hu, -⟩ := hdom i hi
      exact ⟨u, hu, i, hi, hu⟩
    · rintro ⟨u, hu, j, hj, hju⟩
      rw [eq_of_getElem?_eq Dominance.rpo_nodup hu hju]
      exact hj
  · rintro u ⟨i, hi, hiu⟩
    obtain ⟨u', hu', hdu⟩ := hdom i hi
    rw [hiu, Option.some.injEq] at hu'
    exact ⟨(Dominance.mem_rpo hg hr).mp (List.mem_of_getElem? hiu), hu' ▸ hdu⟩

/-- For all values with the same definition the two paths agree exactly when one candidate
    dominates all others. -/
theorem shortcut_all_iff (h : Spec g r lv) (hg : g.Valid) (hr : r ∈ g.nodes)
    (hd : (Dominance.rpo g r)[di]? = some d) (hq : (Dominance.rpo g r)[qi]? = some q)
    (hdq : StrictlyDominates g.Edge r d q) (hred : Reducible g r) :
    (∀ uses : BitSet, (∀ i ∈ uses, ∃ u, (Dominance.rpo g r)[i]? = some u ∧
        Dominates g.Edge r d u) →
      lv.isLiveInAtIndex di qi uses = (withoutShortcut lv).isLiveInAtIndex di qi uses) ↔
      Covered g r d q := by
  have hqr : Reach g.Edge r q := (Dominance.mem_rpo hg hr).mp (List.mem_of_getElem? hq)
  constructor
  · intro hagree
    -- a value whose only use is in the query block
    have hdom : ∀ i ∈ ({qi} : BitSet), ∃ u, (Dominance.rpo g r)[i]? = some u ∧
        Dominates g.Edge r d u := fun i hi => ⟨q, Finset.mem_singleton.mp hi ▸ hq, hdq.1⟩
    obtain ⟨huses, hU⟩ := uses_spec hg hr hdom
    obtain ⟨b, b', hb, hb', hpick, hall, -⟩ := shortcut_spec h hg hr hU huses hd hq hdq hred
    have heq := hagree {qi} hdom
    rw [hb, hb', Option.some.injEq] at heq
    have hfound : b' = true := hall.mpr
      ⟨q, q, ⟨Or.inl rfl, hdq⟩, ⟨qi, Finset.mem_singleton_self _, hq⟩, Reach.refl q⟩
    rw [← heq] at hfound
    obtain ⟨m, u, hm, ⟨i, hi, hu⟩, hmu⟩ := hpick.mp hfound
    rw [Finset.mem_singleton.mp hi, hq, Option.some.injEq] at hu
    exact covered_of_picked_reach hg hr hred hqr hdq hm (hu ▸ hmu)
  · intro hcovered uses hdom
    obtain ⟨huses, hU⟩ := uses_spec hg hr hdom
    obtain ⟨b, b', hb, hb', -, -, hiff⟩ := shortcut_spec h hg hr hU huses hd hq hdq hred
    rw [hb, hb', hiff.mpr (Or.inl hcovered)]

/-- The answer is right for all values with the same definition exactly when one candidate
    dominates all others, if the graph is reducible, and each path to a block that the definition
    dominates can be replaced by one without back edges, or with an early one. -/
theorem liveIn_all_iff (h : Spec g r lv) (hg : g.Valid) (hr : r ∈ g.nodes)
    (hd : (Dominance.rpo g r)[di]? = some d) (hq : (Dominance.rpo g r)[qi]? = some q) :
    (∀ uses : BitSet, (∀ i ∈ uses, ∃ u, (Dominance.rpo g r)[i]? = some u ∧
        Dominates g.Edge r d u) →
      (lv.isLiveInAtIndex di qi uses = some true ↔
        LiveIn g.Edge d (fun u => ∃ i ∈ uses, (Dominance.rpo g r)[i]? = some u) q)) ↔
      (StrictlyDominates g.Edge r d q → (Reducible g r → Covered g r d q) ∧
        ∀ u, Reach g.Edge r u → Dominates g.Edge r d u → Avoids g.Edge d q u →
          Avoids (Red g r) d q u ∨ EarlyBack g r d q u) := by
  have hqr : Reach g.Edge r q := (Dominance.mem_rpo hg hr).mp (List.mem_of_getElem? hq)
  constructor
  · intro hright hdq
    -- values with a single use
    have hsingle : ∀ {u}, Reach g.Edge r u → Dominates g.Edge r d u → Avoids g.Edge d q u →
        SeenIn g r d (fun v => v = u) q := by
      intro u hur hdu hav
      obtain ⟨i, hi⟩ := List.getElem?_of_mem ((Dominance.mem_rpo hg hr).mpr hur)
      have hdom : ∀ j ∈ ({i} : BitSet), ∃ v, (Dominance.rpo g r)[j]? = some v ∧
          Dominates g.Edge r d v := fun j hj => ⟨u, Finset.mem_singleton.mp hj ▸ hi, hdu⟩
      have hset : (fun v => ∃ j ∈ ({i} : BitSet), (Dominance.rpo g r)[j]? = some v) =
          fun v => v = u := by
        funext v
        simp only [Finset.mem_singleton, exists_eq_left, hi, Option.some.injEq]
        exact propext ⟨Eq.symm, Eq.symm⟩
      obtain ⟨huses, hU⟩ := uses_spec hg hr hdom
      obtain ⟨b, hb, hiff⟩ := isLiveInAtIndex_spec h hg hr hU huses hd hq
      have hlive := (hright {i} hdom).mpr
        ⟨Ne.symm hdq.2, u, ⟨i, Finset.mem_singleton_self i, hi⟩, hav⟩
      rw [hb, Option.some.injEq] at hlive
      rw [← hset]
      exact (hiff.mp hlive).2
    have hcov : Reducible g r → Covered g r d q := by
      intro hred
      obtain ⟨m, u, hm, rfl, hmu⟩ :=
        (hsingle hqr hdq.1 (Avoids.refl (Ne.symm hdq.2))).1 hred
      exact covered_of_picked_reach hg hr hred hqr hdq hm hmu
    refine ⟨hcov, fun u hur hdu hav => ?_⟩
    obtain ⟨u', rfl, hpath⟩ := (seenIn_iff_of_covered hg hr
      (fun v hv => hv ▸ ⟨hur, hdu⟩) hqr hdq hcov).mp (hsingle hur hdu hav)
    exact hpath
  · intro hcond uses hdom
    obtain ⟨huses, hU⟩ := uses_spec hg hr hdom
    obtain ⟨b, hb, hiff⟩ := isLiveInAtIndex_spec h hg hr hU huses hd hq
    rw [hb, Option.some.injEq, hiff]
    constructor
    · rintro ⟨hdq, hseen⟩
      exact hseen.liveIn hg hr hU hdq hqr
    · intro hlive
      have hdq := hlive.strictlyDominates hU
      obtain ⟨hcov, hpaths⟩ := hcond hdq
      obtain ⟨-, u, hu, hav⟩ := hlive
      obtain ⟨hur, hdu⟩ := hU u hu
      exact ⟨hdq, (seenIn_iff_of_covered hg hr hU hqr hdq hcov).mpr
        ⟨u, hu, hpaths u hur hdu hav⟩⟩

end Index

/-! ## Queries on the IR -/

section Queries

variable {ctx : Context} {region : RegionPtr} {r d q : BlockPtr} {value : Value}

/-- Where one candidate dominates all others, or the graph is irreducible, the live-in query is
    right exactly when each value that is live-in has a use on a path without back edges, or with
    an early one.  For all values of a block at once it is right exactly when one candidate
    dominates all others, if the graph is reducible, and all paths can be so replaced. -/
theorem isLiveInAtBlock_correct_iff (h : ctx.LivenessQuery region r value d q) :
    ∃ lv b, ofRegion ctx region = some lv ∧ lv.isLiveInAtBlock ctx region value q = some b ∧
      ((StrictlyDominates (ctx.regionGraph region).Edge r d q →
          Reducible (ctx.regionGraph region) r → Covered (ctx.regionGraph region) r d q) →
        ((b = true ↔ LiveIn (ctx.regionGraph region).Edge d (ctx.UsedIn region value) q) ↔
          (LiveIn (ctx.regionGraph region).Edge d (ctx.UsedIn region value) q →
            ∃ u, ctx.UsedIn region value u ∧ (Avoids (Red (ctx.regionGraph region) r) d q u ∨
              EarlyBack (ctx.regionGraph region) r d q u)))) ∧
      ∀ di qi, lv.blockIndex d = some di → lv.blockIndex q = some qi →
        ((∀ uses : BitSet, (∀ i ∈ uses, ∃ u,
            (Dominance.rpo (ctx.regionGraph region) r)[i]? = some u ∧
              Dominates (ctx.regionGraph region).Edge r d u) →
            (lv.isLiveInAtIndex di qi uses = some true ↔
              LiveIn (ctx.regionGraph region).Edge d
                (fun u => ∃ i ∈ uses, (Dominance.rpo (ctx.regionGraph region) r)[i]? = some u)
                q)) ↔
          (StrictlyDominates (ctx.regionGraph region).Edge r d q →
            (Reducible (ctx.regionGraph region) r → Covered (ctx.regionGraph region) r d q) ∧
            ∀ u, Reach (ctx.regionGraph region).Edge r u →
              Dominates (ctx.regionGraph region).Edge r d u →
              Avoids (ctx.regionGraph region).Edge d q u →
              Avoids (Red (ctx.regionGraph region) r) d q u ∨
                EarlyBack (ctx.regionGraph region) r d q u)) := by
  obtain ⟨lv, hlv, hspec⟩ := ofRegion_spec h.graph h.entry
  obtain ⟨lv', b, hlv', hb, hiff⟩ := isLiveInAtBlock_spec h
  obtain rfl : lv = lv' := Option.some.inj (hlv.symm.trans hlv')
  have hr := h.graph.entry_mem h.entry
  have hU := used_dominated h
  refine ⟨lv, b, hlv, hb, fun hcov => ?_, fun di qi hdi hqi => ?_⟩
  · rw [hiff]
    constructor
    · intro hright hlive
      obtain ⟨hdq, hseen⟩ := hright.mpr hlive
      exact (seenIn_iff_of_covered h.graph hr hU h.queryReach hdq (hcov hdq)).mp hseen
    · intro hpath
      -- what is seen is always live; only the other direction needs the path
      constructor
      · rintro ⟨hdq, hseen⟩
        exact hseen.liveIn h.graph hr hU hdq h.queryReach
      · intro hlive
        have hdq := hlive.strictlyDominates hU
        exact ⟨hdq, (seenIn_iff_of_covered h.graph hr hU h.queryReach hdq (hcov hdq)).mpr
          (hpath hlive)⟩
  · -- all values of the block at once
    exact liveIn_all_iff hspec h.graph hr (hspec.getElem?_of_blockIndex hdi)
      (hspec.getElem?_of_blockIndex hqi)

/-- A reducible graph in which block 1 is followed by a loop at 3 that it does not dominate, and
    by the use in 4. -/
def sharedLoop : Context := Context.ofCfg [[1, 2], [3, 4], [3], [3], []] 0 4

theorem sharedLoop_query :
    sharedLoop.LivenessQuery ⟨0⟩ ⟨0⟩ ⟨0, .block ⟨0⟩⟩ ⟨0⟩ ⟨1⟩ where
  graph := ⟨by decide, by decide, by decide⟩
  entry := rfl
  defBlock := rfl
  defRegion := rfl
  queryRegion := rfl
  queryReach := (Reach.refl _).tail (by decide)
  defined := by
    refine ⟨[⟨⟨4⟩, 0⟩], rfl, ?_⟩
    simp only [List.mem_singleton, forall_eq]
    have h01 : (sharedLoop.regionGraph ⟨0⟩).Edge ⟨0⟩ ⟨1⟩ := by decide
    exact ⟨⟨4⟩, rfl, ((Reach.refl _).tail h01).tail (by decide), Dominates.root _⟩

/-- The candidate that is picked for block 1 is the loop at 3, from where 4 is not reached. -/
theorem sharedLoop_liveIn_missed :
    (ofRegion sharedLoop ⟨0⟩).bind (fun lv =>
      lv.isLiveInAtBlock sharedLoop ⟨0⟩ ⟨0, .block ⟨0⟩⟩ ⟨1⟩) = some false ∧
      LiveIn (sharedLoop.regionGraph ⟨0⟩).Edge ⟨0⟩
        (sharedLoop.UsedIn ⟨0⟩ ⟨0, .block ⟨0⟩⟩) ⟨1⟩ ∧
      sharedLoop.LivenessQuery ⟨0⟩ ⟨0⟩ ⟨0, .block ⟨0⟩⟩ ⟨0⟩ ⟨1⟩ := by
  refine ⟨by decide +kernel, ⟨by decide, ⟨4⟩, ⟨_, rfl, _, List.mem_singleton_self _, rfl⟩, ?_⟩,
    sharedLoop_query⟩
  exact (Avoids.refl (by decide)).tail (by decide) (by decide)

theorem sharedLoop_strict {b : BlockPtr} (hb : (⟨0⟩ : BlockPtr) ≠ b) :
    StrictlyDominates (sharedLoop.regionGraph ⟨0⟩).Edge ⟨0⟩ ⟨0⟩ b :=
  ⟨Dominates.root _, hb⟩

/-- From block 4, which returns, nothing else is reached. -/
theorem sharedLoop_reach_four {b : BlockPtr}
    (h : Reach (sharedLoop.regionGraph ⟨0⟩).Edge ⟨4⟩ b) : b = ⟨4⟩ := by
  rcases ReflTransGen.cases_head h with heq | ⟨c, hc, -⟩
  · exact heq.symm
  · exact absurd hc List.not_mem_nil

/-- At block 4 the query is right for all values of block 0. -/
theorem isLiveInAtBlock_correct_iff_sharedLoop :
    ∃ lv b, ofRegion sharedLoop ⟨0⟩ = some lv ∧
      lv.isLiveInAtBlock sharedLoop ⟨0⟩ ⟨0, .block ⟨0⟩⟩ ⟨4⟩ = some b ∧
      (b = true ↔ LiveIn (sharedLoop.regionGraph ⟨0⟩).Edge ⟨0⟩
        (sharedLoop.UsedIn ⟨0⟩ ⟨0, .block ⟨0⟩⟩) ⟨4⟩) ∧
      ∀ di qi, lv.blockIndex ⟨0⟩ = some di → lv.blockIndex ⟨4⟩ = some qi →
        ∀ uses : BitSet, (∀ i ∈ uses, ∃ u,
          (Dominance.rpo (sharedLoop.regionGraph ⟨0⟩) ⟨0⟩)[i]? = some u ∧
            Dominates (sharedLoop.regionGraph ⟨0⟩).Edge ⟨0⟩ ⟨0⟩ u) →
          (lv.isLiveInAtIndex di qi uses = some true ↔
            LiveIn (sharedLoop.regionGraph ⟨0⟩).Edge ⟨0⟩
              (fun u => ∃ i ∈ uses, (Dominance.rpo (sharedLoop.regionGraph ⟨0⟩) ⟨0⟩)[i]? = some u)
              ⟨4⟩) := by
  have hquery : sharedLoop.LivenessQuery ⟨0⟩ ⟨0⟩ ⟨0, .block ⟨0⟩⟩ ⟨0⟩ ⟨4⟩ :=
    { sharedLoop_query with
      queryRegion := rfl
      queryReach := sharedLoop_query.queryReach.tail (by decide) }
  obtain ⟨lv, b, hlv, hb, hiff, hall⟩ := isLiveInAtBlock_correct_iff hquery
  have hcov : Covered (sharedLoop.regionGraph ⟨0⟩) ⟨0⟩ ⟨0⟩ ⟨4⟩ := by
    refine ⟨⟨4⟩, ⟨Or.inl rfl, sharedLoop_strict (by decide)⟩, fun t ht => ?_⟩
    rw [sharedLoop_reach_four ht.reach]
    exact Dominates.refl _
  have hpath : ∀ u, Avoids (sharedLoop.regionGraph ⟨0⟩).Edge ⟨0⟩ ⟨4⟩ u →
      Avoids (Red (sharedLoop.regionGraph ⟨0⟩) ⟨0⟩) ⟨0⟩ ⟨4⟩ u := by
    intro u hav
    rw [sharedLoop_reach_four hav.reach]
    exact Avoids.refl (by decide)
  refine ⟨lv, b, hlv, hb, (hiff fun _ _ => hcov).mpr ?_, fun di qi hdi hqi =>
    (hall di qi hdi hqi).mpr fun _ => ⟨fun _ => hcov, fun u _ _ hav => Or.inl (hpath u hav)⟩⟩
  rintro ⟨-, u, hu, hav⟩
  exact ⟨u, hu, Or.inl (hpath u hav)⟩

/-- The shortcut gives the answer of the general path exactly when one candidate dominates all
    others, or no candidate reaches a use, or the picked candidate does; for all values defined
    in `d` it does so exactly when one candidate dominates all others. -/
theorem shortcut_agrees_iff (h : ctx.LivenessQuery region r value d q)
    (hred : Reducible (ctx.regionGraph region) r)
    (hdq : StrictlyDominates (ctx.regionGraph region).Edge r d q) :
    ∃ lv b b' di qi, ofRegion ctx region = some lv ∧ lv.isReducible = true ∧
      lv.isLiveInAtBlock ctx region value q = some b ∧
      (withoutShortcut lv).isLiveInAtBlock ctx region value q = some b' ∧
      (b = b' ↔ Covered (ctx.regionGraph region) r d q ∨
        (¬ ∃ t u, Candidate (ctx.regionGraph region) r d q t ∧ ctx.UsedIn region value u ∧
          Reach (Red (ctx.regionGraph region) r) t u) ∨
        ∃ m u, Picked (ctx.regionGraph region) r d q m ∧ ctx.UsedIn region value u ∧
          Reach (Red (ctx.regionGraph region) r) m u) ∧
      lv.blockIndex d = some di ∧ lv.blockIndex q = some qi ∧
      ((∀ uses : BitSet, (∀ i ∈ uses, ∃ u,
          (Dominance.rpo (ctx.regionGraph region) r)[i]? = some u ∧
            Dominates (ctx.regionGraph region).Edge r d u) →
          lv.isLiveInAtIndex di qi uses = (withoutShortcut lv).isLiveInAtIndex di qi uses) ↔
        Covered (ctx.regionGraph region) r d q) := by
  obtain ⟨lv, hlv, hspec⟩ := ofRegion_spec h.graph h.entry
  have hr := h.graph.entry_mem h.entry
  have hU := used_dominated h
  obtain ⟨uses, huses, hset⟩ := useBlocksInRegion_spec h hspec
  have hdr : Reach (ctx.regionGraph region).Edge r d := (hdq.1.reach h.queryReach).1
  obtain ⟨qi, hqi⟩ := List.getElem?_of_mem ((Dominance.mem_rpo h.graph hr).mpr h.queryReach)
  obtain ⟨di, hdi⟩ := List.getElem?_of_mem ((Dominance.mem_rpo h.graph hr).mpr hdr)
  have hguard : ctx.blockParentRegion q = some region ∧ ctx.blockParentRegion d = some region :=
    ⟨h.queryRegion, h.defRegion⟩
  obtain ⟨b, b', hb, hb', -, -, hiff⟩ :=
    shortcut_spec hspec h.graph hr hU hset hdi hqi hdq hred
  have hblock : ∀ lv' : LivenessTq BlockPtr, lv'.blockToIndex = lv.blockToIndex →
      lv'.isLiveInAtBlock ctx region value q = lv'.isLiveInAtIndex di qi uses := by
    intro lv' hindex
    have hindexD : lv'.blockIndex d = some di := by
      rw [blockIndex, hindex]
      exact hspec.blockIndex_eq_some hdi
    have hindexQ : lv'.blockIndex q = some qi := by
      rw [blockIndex, hindex]
      exact hspec.blockIndex_eq_some hqi
    have husesEq : lv'.useBlocksInRegion ctx region value = some (some uses) := by
      rw [← huses]
      simp only [useBlocksInRegion, blockIndex, hindex]
    simp [isLiveInAtBlock, h.defBlock, hguard, guard, hindexD, hindexQ, husesEq]
  refine ⟨lv, b, b', di, qi, hlv, hspec.reducible.mpr hred, ?_, ?_, hiff,
    hspec.blockIndex_eq_some hdi, hspec.blockIndex_eq_some hqi,
    shortcut_all_iff hspec h.graph hr hdi hqi hdq hred⟩
  · rw [hblock lv rfl, hb]
  · rw [hblock (withoutShortcut lv) rfl, hb']

theorem sharedLoop_reducible : Reducible (sharedLoop.regionGraph ⟨0⟩) ⟨0⟩ := by
  obtain ⟨lv, hlv, hspec⟩ := ofRegion_spec sharedLoop_query.graph sharedLoop_query.entry
  have hrun : (ofRegion sharedLoop ⟨0⟩).map LivenessTq.isReducible = some true := by
    decide +kernel
  rw [hlv, Option.map_some, Option.some.injEq] at hrun
  exact hspec.reducible.mp hrun

/-- The header 3 is collected for block 1, which does not dominate it, and is picked. -/
theorem sharedLoop_shortcut_differs :
    ((ofRegion sharedLoop ⟨0⟩).bind (fun lv =>
        lv.isLiveInAtBlock sharedLoop ⟨0⟩ ⟨0, .block ⟨0⟩⟩ ⟨1⟩) = some false ∧
      (ofRegion sharedLoop ⟨0⟩).bind (fun lv =>
        (withoutShortcut lv).isLiveInAtBlock sharedLoop ⟨0⟩ ⟨0, .block ⟨0⟩⟩ ⟨1⟩) = some true) ∧
      sharedLoop.LivenessQuery ⟨0⟩ ⟨0⟩ ⟨0, .block ⟨0⟩⟩ ⟨0⟩ ⟨1⟩ ∧
      Reducible (sharedLoop.regionGraph ⟨0⟩) ⟨0⟩ ∧
      StrictlyDominates (sharedLoop.regionGraph ⟨0⟩).Edge ⟨0⟩ ⟨0⟩ ⟨1⟩ :=
  ⟨⟨by decide +kernel, by decide +kernel⟩, sharedLoop_query, sharedLoop_reducible,
    sharedLoop_strict (by decide)⟩

/-- For the values of block 0 no candidate dominates all others at block 1. -/
theorem shortcut_agrees_iff_sharedLoop :
    ¬ Covered (sharedLoop.regionGraph ⟨0⟩) ⟨0⟩ ⟨0⟩ ⟨1⟩ := by
  obtain ⟨lv, b, b', _, _, hlv, _, hb, hb', hiff, _⟩ :=
    shortcut_agrees_iff sharedLoop_query sharedLoop_reducible (sharedLoop_strict (by decide))
  have hrun : (ofRegion sharedLoop ⟨0⟩).bind (fun lv =>
      lv.isLiveInAtBlock sharedLoop ⟨0⟩ ⟨0, .block ⟨0⟩⟩ ⟨1⟩) = some false := by decide +kernel
  have hrun' : (ofRegion sharedLoop ⟨0⟩).bind (fun lv =>
      (withoutShortcut lv).isLiveInAtBlock sharedLoop ⟨0⟩ ⟨0, .block ⟨0⟩⟩ ⟨1⟩) = some true := by
    decide +kernel
  rw [hlv, Option.bind_some, hb, Option.some.injEq] at hrun
  rw [hlv, Option.bind_some, hb', Option.some.injEq] at hrun'
  intro hcovered
  have heq : b = b' := hiff.mpr (Or.inl hcovered)
  rw [hrun, hrun'] at heq
  exact absurd heq (by simp)

end Queries

end LivenessTq

end Pliron
