/-
  Pliron.Analyses.TqSpec

  The back-edge target sets of the queries, phase by phase.

  Phase 1 relies on the targets above a target being numbered earlier in
  pre-order, phase 3 on reduced successors closing earlier in post-order.  Phase
  2 changes the sets of pure sources only, since the back edges of a target are
  part of what it closes over already.
-/

import Pliron.Analyses.LivenessSpec

namespace Pliron

open Pliron.Lib BitSet Traversals Relation

namespace LivenessTq

variable {α : Type} [DecidableEq α] {g : ControlFlowGraph α} {r : α}

/-! ## Pre-order as a list of numbers -/

/-- The numbers of the blocks in pre-order. -/
def preIndices (g : ControlFlowGraph α) (r : α) : List Nat :=
  (search g r).opened.map (fun v => (Dominance.rpo g r).idxOf v)

theorem mem_rpo_of_opened (hg : g.Valid) (hr : r ∈ g.nodes) {v : α}
    (hv : v ∈ (search g r).opened) : v ∈ Dominance.rpo g r := by
  rw [Dominance.mem_rpo hg hr]
  exact (mem_search_opened hg.closed hr).mp hv

theorem pairwise_idxOf {l : List α} (hl : l.Nodup) :
    l.Pairwise (fun u v => l.idxOf u < l.idxOf v) := by
  rw [List.pairwise_iff_getElem]
  intro i j hi hj hij
  rw [hl.idxOf_getElem i hi, hl.idxOf_getElem j hj]
  exact hij

theorem preIndices_nodup (hg : g.Valid) (hr : r ∈ g.nodes) : (preIndices g r).Nodup := by
  refine List.Nodup.map_on (fun u hu v _ heq => ?_) search_inv.opened_nodup
  exact eq_of_idxOf_eq (mem_rpo_of_opened hg hr hu) heq

theorem mem_preIndices (hg : g.Valid) (hr : r ∈ g.nodes) {i : Nat} {u : α}
    (hi : (Dominance.rpo g r)[i]? = some u) : i ∈ preIndices g r := by
  refine List.mem_map.mpr ⟨u, ?_, idxOf_eq_of_getElem? Dominance.rpo_nodup hi⟩
  rw [mem_search_opened hg.closed hr, ← Dominance.mem_rpo hg hr]
  exact List.mem_of_getElem? hi

theorem lt_of_mem_preIndices (hg : g.Valid) (hr : r ∈ g.nodes) {i : Nat}
    (hi : i ∈ preIndices g r) : i < (Dominance.rpo g r).length := by
  obtain ⟨v, hv, rfl⟩ := List.mem_map.mp hi
  exact List.idxOf_lt_length_of_mem (mem_rpo_of_opened hg hr hv)

/-- Numbers listed earlier have smaller pre-order numbers. -/
theorem preIndices_pairwise (hg : g.Valid) (hr : r ∈ g.nodes) :
    (preIndices g r).Pairwise (fun i j => ∀ u v, (Dominance.rpo g r)[i]? = some u →
      (Dominance.rpo g r)[j]? = some v → (search g r).pre u < (search g r).pre v) := by
  refine List.pairwise_map.mpr ((pairwise_idxOf search_inv.opened_nodup).imp_of_mem ?_)
  intro a b ha hb hlt u v hu hv
  have hu' := List.getElem?_idxOf (mem_rpo_of_opened hg hr ha)
  have hv' := List.getElem?_idxOf (mem_rpo_of_opened hg hr hb)
  rw [Option.some.inj (hu.symm.trans hu'), Option.some.inj (hv.symm.trans hv')]
  exact hlt

/-- In a list ordered by a key, what has a smaller key than the current element was met
    before. -/
theorem mem_done_of_lt {order done rest : List Nat} {i j : Nat} {lt : Nat → Nat → Prop}
    (horder : order = done ++ i :: rest) (hpair : order.Pairwise lt)
    (hasymm : ∀ a b, lt a b → ¬ lt b a) (hj : j ∈ order) (hji : lt j i) : j ∈ done := by
  subst horder
  rcases List.mem_append.mp hj with hj | hj
  · exact hj
  · rcases List.mem_cons.mp hj with rfl | hj
    · exact absurd hji (hasymm _ _ hji)
    · have hij := (List.pairwise_cons.mp (List.pairwise_append.mp hpair).2.1).1 j hj
      exact absurd hji (hasymm _ _ hij)

/-! ## The three phases -/

section Phases

variable (hg : g.Valid) (hr : r ∈ g.nodes) {sets : EdgeSets} (hsets : EdgeSpec g r sets)

include hg hr hsets

/-- Phase 1 closes every target. -/
theorem tqPhase1_spec {tUp : List BitSet}
    (hup : Represents (Dominance.rpo g r) tUp (Up g.Edge (search g r).pre (search g r).post)) :
    Represents (Dominance.rpo g r)
      (tqPhase1 tUp sets.backEdgeTargets (preIndices g r) (List.replicate tUp.length ∅))
      (fun u v => IsTarget g r u ∧ Climb g r u v) := by
  have hlt : ∀ i ∈ (preIndices g r).filter (fun t => t ∈ sets.backEdgeTargets),
      i < (List.replicate tUp.length (∅ : BitSet)).length := by
    intro i hi
    rw [List.length_replicate, hup.1]
    exact lt_of_mem_preIndices hg hr (List.mem_of_mem_filter hi)
  obtain ⟨hlen, hall, hother⟩ := foldl_set_invariant
    (fun tqSets t => insert t (unionAll ((iter tUp.length (at' tUp t)).map (at' tqSets))))
    (fun i s => ∀ u, (Dominance.rpo g r)[i]? = some u →
      IsSetOf (Dominance.rpo g r) s (Climb g r u))
    _ _ ((preIndices_nodup hg hr).filter _) hlt (by
      intro done i rest res horder _ hdone _ u hi
      have hu : Reach g.Edge r u := (Dominance.mem_rpo hg hr).mp (List.mem_of_getElem? hi)
      refine IsSetOf.congr (IsSetOf.insert Dominance.rpo_nodup hi
        (IsSetOf.unionAll_map (Q := Climb g r) hup.1 (hup.2 i u hi) ?_)) (fun w _ => ?_)
      · -- the target one step up was opened earlier, so its set is final
        intro j v hj huv
        have hvlt := (search_isDfsOrder hg.closed hr).pre_lt_of_up hu huv
        obtain ⟨x, hux, hxv, _⟩ := huv
        have hxr : Reach g.Edge r x := hu.trans (IsDfsOrder.reach_of_reduced hux)
        have hjt : j ∈ sets.backEdgeTargets :=
          (hsets.targets.mem_iff hj).mpr ⟨x, hxr, hxv⟩
        have hjo : j ∈ (preIndices g r).filter (fun t => t ∈ sets.backEdgeTargets) :=
          List.mem_filter.mpr ⟨mem_preIndices hg hr hj, by simpa using hjt⟩
        have hpair := ((preIndices_pairwise hg hr).filter
          (fun t => decide (t ∈ sets.backEdgeTargets)))
        rw [horder] at hjo hpair
        rcases List.mem_append.mp hjo with hjd | hjr
        · exact hdone j hjd v hj
        · rcases List.mem_cons.mp hjr with rfl | hjr
          · rw [Option.some.inj (hj.symm.trans hi)] at hvlt
            exact absurd hvlt (Nat.lt_irrefl _)
          · have hcons := (List.pairwise_cons.mp (List.pairwise_append.mp hpair).2.1).1 j hjr
              u v hi hj
            exact absurd hvlt (Nat.lt_asymm hcons)
      · constructor
        · rintro (rfl | ⟨v, _, huv, hvw⟩)
          · exact ReflTransGen.refl
          · exact ReflTransGen.head huv hvw
        · intro huw
          -- a climb stays where it is, or takes a step up first
          rcases ReflTransGen.cases_head huw with rfl | ⟨v, huv, hvw⟩
          · exact Or.inl rfl
          · refine Or.inr ⟨v, ?_, huv, hvw⟩
            exact (Dominance.mem_rpo hg hr).mpr (hu.trans (IsDfsOrder.reach_of_up huv)))
  refine ⟨by rw [tqPhase1, hlen, List.length_replicate, hup.1], fun i u hi => ?_⟩
  by_cases ht : IsTarget g r u
  · have hio : i ∈ (preIndices g r).filter (fun t => t ∈ sets.backEdgeTargets) :=
      List.mem_filter.mpr ⟨mem_preIndices hg hr hi,
        by simpa using (hsets.targets.mem_iff hi).mpr ht⟩
    exact (hall i hio u hi).congr (fun v _ => by simp [ht])
  · -- no target: the set stays empty
    have hio : i ∉ (preIndices g r).filter (fun t => t ∈ sets.backEdgeTargets) := by
      intro hi'
      have hmem := (List.mem_filter.mp hi').2
      exact ht ((hsets.targets.mem_iff hi).mp (by simpa using hmem))
    rw [tqPhase1, hother i hio, at'_replicate]
    exact IsSetOf.empty (fun v _ h => ht h.1)

omit hsets in
/-- A target closes over the targets of its own back edges. -/
theorem climb_of_back {u t v : α} (hu : Reach g.Edge r u) (hut : Back g r u t)
    (htv : Climb g r t v) : Climb g r u v := by
  by_cases heq : t = u
  · exact heq ▸ htv
  · refine ReflTransGen.head ⟨u, Reach.refl u, hut, fun hred => ?_⟩ htv
    have hdfs := search_isDfsOrder hg.closed hr
    have ht : Reach g.Edge r t := hu.tail hut.1
    exact heq (hdfs.eq_of_reduced_cycle ht (hdfs.reduced_of_ancestor ht hu hut.2) hred)

omit hg hr in
theorem mem_sources_iff {i : Nat} {u : α} (hi : (Dominance.rpo g r)[i]? = some u)
    (hmem : ∀ v, Back g r u v → v ∈ Dominance.rpo g r) :
    sets.backEdgesBySource.getD i [] ≠ [] ↔ IsSource g r u := by
  have hset := hsets.back i u hi
  constructor
  · intro hne
    obtain ⟨j, hj⟩ := List.exists_mem_of_ne_nil _ hne
    obtain ⟨v, _, huv⟩ := (hset j).mp (List.mem_toFinset.mpr hj)
    exact ⟨v, huv⟩
  · rintro ⟨v, huv⟩
    have hj := (hset.mem_iff (List.getElem?_idxOf (hmem v huv))).mpr huv
    exact List.ne_nil_of_mem (List.mem_toFinset.mp hj)

omit hsets in
theorem mem_rpo_of_back {u v : α} (hu : Reach g.Edge r u) (huv : Back g r u v) :
    v ∈ Dominance.rpo g r := (Dominance.mem_rpo hg hr).mpr (hu.tail huv.1)

/-- Phase 2 adds the sources that are not targets. -/
theorem tqPhase2_spec {tq : List BitSet}
    (htq : Represents (Dominance.rpo g r) tq (fun u v => IsTarget g r u ∧ Climb g r u v)) :
    Represents (Dominance.rpo g r)
      (tqPhase2 sets.backEdgesBySource (preIndices g r) tq)
      (fun u v => (IsTarget g r u ∧ Climb g r u v) ∨
        (¬ IsTarget g r u ∧ ∃ t, Back g r u t ∧ Climb g r t v)) := by
  have hlt : ∀ i ∈ (preIndices g r).filter
      (fun s => sets.backEdgesBySource.getD s [] ≠ []), i < tq.length := by
    intro i hi
    rw [htq.1]
    exact lt_of_mem_preIndices hg hr (List.mem_of_mem_filter hi)
  have hself : ∀ {u v : α}, IsTarget g r u → ((IsTarget g r u ∧ Climb g r u v) ∨
      (¬ IsTarget g r u ∧ ∃ t, Back g r u t ∧ Climb g r t v) ↔ Climb g r u v) := by
    intro u v hu
    simp [hu]
  obtain ⟨hlen, hall, hother⟩ := foldl_set_invariant
    (fun tqSets s => unionAll (at' tqSets s ::
      (sets.backEdgesBySource.getD s []).map (at' tqSets)))
    (fun i s => ∀ u, (Dominance.rpo g r)[i]? = some u →
      IsSetOf (Dominance.rpo g r) s (fun v => (IsTarget g r u ∧ Climb g r u v) ∨
        (¬ IsTarget g r u ∧ ∃ t, Back g r u t ∧ Climb g r t v)))
    _ _ ((preIndices_nodup hg hr).filter _) hlt (by
      intro done i rest res horder _ hdone hrest u hi
      have hu : Reach g.Edge r u := (Dominance.mem_rpo hg hr).mp (List.mem_of_getElem? hi)
      have hpair := ((preIndices_nodup hg hr).filter
        (fun s => sets.backEdgesBySource.getD s [] ≠ []))
      rw [horder] at hpair
      have hid : i ∉ done := fun h =>
        (List.nodup_append.mp hpair).2.2 i h i List.mem_cons_self rfl
      have hself' : IsSetOf (Dominance.rpo g r) (at' res i)
          (fun v => IsTarget g r u ∧ Climb g r u v) := by
        rw [hrest i hid]
        exact htq.2 i u hi
      -- the set of a target is the same before and after its turn
      have htarget : ∀ j t, (Dominance.rpo g r)[j]? = some t → Back g r u t →
          IsSetOf (Dominance.rpo g r) (at' res j) (Climb g r t) := by
        intro j t hj hut
        have htt : IsTarget g r t := ⟨u, hu, hut⟩
        by_cases hjd : j ∈ done
        · exact (hdone j hjd t hj).congr (fun v _ => hself htt)
        · rw [hrest j hjd]
          exact (htq.2 j t hj).congr (fun v _ => by simp [htt])
      intro k
      simp only [mem_unionAll, List.mem_cons, List.mem_map, exists_eq_or_imp,
        exists_exists_and_eq_and]
      rw [hself' k]
      constructor
      · rintro (⟨v, hv, hut, huv⟩ | ⟨j, hj, hk⟩)
        · exact ⟨v, hv, Or.inl ⟨hut, huv⟩⟩
        · -- what a back edge adds to the set of a target is in it already
          obtain ⟨t, htj, hut⟩ := (hsets.back i u hi j).mp (List.mem_toFinset.mpr hj)
          obtain ⟨v, hv, htv⟩ := (htarget j t htj hut k).mp hk
          refine ⟨v, hv, ?_⟩
          by_cases hu' : IsTarget g r u
          · exact Or.inl ⟨hu', climb_of_back hg hr hu hut htv⟩
          · exact Or.inr ⟨hu', t, hut, htv⟩
      · rintro ⟨v, hv, ⟨hu', huv⟩ | ⟨_, t, hut, htv⟩⟩
        · exact Or.inl ⟨v, hv, hu', huv⟩
        · have hj := List.getElem?_idxOf (mem_rpo_of_back hg hr hu hut)
          refine Or.inr ⟨_, List.mem_toFinset.mp (((hsets.back i u hi).mem_iff hj).mpr hut), ?_⟩
          exact (htarget _ t hj hut k).mpr ⟨v, hv, htv⟩)
  refine ⟨hlen.trans htq.1, fun i u hi => ?_⟩
  have hu : Reach g.Edge r u := (Dominance.mem_rpo hg hr).mp (List.mem_of_getElem? hi)
  by_cases hio : i ∈ (preIndices g r).filter (fun s => sets.backEdgesBySource.getD s [] ≠ [])
  · exact hall i hio u hi
  · -- no back edge leaves the node, so this phase leaves its set alone
    have hsrc : ¬ IsSource g r u := by
      rw [← mem_sources_iff hsets hi (fun v => mem_rpo_of_back hg hr hu)]
      exact fun hne => hio (List.mem_filter.mpr ⟨mem_preIndices hg hr hi, by simpa using hne⟩)
    rw [tqPhase2, hother i hio]
    refine (htq.2 i u hi).congr (fun v _ => ⟨Or.inl, ?_⟩)
    rintro (h | ⟨_, t, hut, _⟩)
    · exact h
    · exact absurd ⟨t, hut⟩ hsrc

omit hg hr hsets in
theorem tqReach_iff {u v : α} (h : IsTarget g r u ∨ IsSource g r u) :
    TqReach g r u v ↔ (IsTarget g r u ∧ Climb g r u v) ∨
      (¬ IsTarget g r u ∧ ∃ t, Back g r u t ∧ Climb g r t v) := by
  constructor
  · intro huv
    cases huv with
    | target hq ht => exact Or.inl ⟨hq, ht⟩
    | source hq hb ht => exact Or.inr ⟨hq, _, hb, ht⟩
    | plain hq hs he ht => exact (h.elim hq hs).elim
  · rintro (⟨hq, ht⟩ | ⟨hq, t, hb, ht⟩)
    · exact .target hq ht
    · exact .source hq hb ht

/-- Phase 3 hands the sets on to the remaining blocks. -/
theorem tqPhase3_spec {tq : List BitSet}
    (htq : Represents (Dominance.rpo g r) tq
      (fun u v => (IsTarget g r u ∧ Climb g r u v) ∨
        (¬ IsTarget g r u ∧ ∃ t, Back g r u t ∧ Climb g r t v))) :
    Represents (Dominance.rpo g r)
      (tqPhase3 sets.reducedSuccessors
        (fun v => decide (v ∈ sets.backEdgeTargets) || (sets.backEdgesBySource.getD v [] ≠ []))
        (List.range (Dominance.rpo g r).length).reverse tq) (TqReach g r) := by
  -- the nodes that the first two phases have already computed
  have hcomputed : ∀ i u, (Dominance.rpo g r)[i]? = some u →
      ((decide (i ∈ sets.backEdgeTargets) ||
        decide (sets.backEdgesBySource.getD i [] ≠ [])) = true ↔
          IsTarget g r u ∨ IsSource g r u) := by
    intro i u hi
    have hu : Reach g.Edge r u := (Dominance.mem_rpo hg hr).mp (List.mem_of_getElem? hi)
    rw [Bool.or_eq_true, decide_eq_true_iff, decide_eq_true_iff, hsets.targets.mem_iff hi,
      mem_sources_iff hsets hi (fun v => mem_rpo_of_back hg hr hu)]
  have hrange : ∀ {i u}, (Dominance.rpo g r)[i]? = some u →
      i ∈ (List.range (Dominance.rpo g r).length).reverse := by
    intro i u hi
    simpa using (List.getElem?_eq_some_iff.mp hi).1
  obtain ⟨hlen, hall, hother⟩ := foldl_set_invariant
    (fun tqSets q => unionAll ((iter sets.reducedSuccessors.length
      (at' sets.reducedSuccessors q)).map (at' tqSets)))
    (fun i s => ∀ u, (Dominance.rpo g r)[i]? = some u →
      IsSetOf (Dominance.rpo g r) s (TqReach g r u))
    ((List.range (Dominance.rpo g r).length).reverse.filter (fun q =>
      !(decide (q ∈ sets.backEdgeTargets) || (sets.backEdgesBySource.getD q [] ≠ []))))
    tq ((List.nodup_reverse.mpr List.nodup_range).filter _)
    (fun i hi => by
      rw [htq.1]
      simpa using (List.mem_filter.mp hi).1)
    (by
      intro done i rest res horder _ hdone hrest u hi
      have hu : Reach g.Edge r u := (Dominance.mem_rpo hg hr).mp (List.mem_of_getElem? hi)
      have hio : i ∈ (List.range (Dominance.rpo g r).length).reverse.filter (fun q =>
          !(decide (q ∈ sets.backEdgeTargets) ||
            (sets.backEdgesBySource.getD q [] ≠ []))) := by
        rw [horder]
        exact List.mem_append_right _ List.mem_cons_self
      have hplain : ¬ (IsTarget g r u ∨ IsSource g r u) := by
        rw [← hcomputed i u hi]
        simpa using (List.mem_filter.mp hio).2
      obtain ⟨hut, hus⟩ := not_or.mp hplain
      refine IsSetOf.congr (IsSetOf.unionAll_map (Q := TqReach g r) hsets.red.1
        (hsets.red.2 i u hi) ?_) (fun w _ => ?_)
      · -- a successor is a source or a target, or it comes earlier in post-order
        intro j v hj huv
        have hij := index_lt_of_red hg hr hi hj huv
        have hpair : ((List.range (Dominance.rpo g r).length).reverse.filter (fun q =>
            !(decide (q ∈ sets.backEdgeTargets) ||
              (sets.backEdgesBySource.getD q [] ≠ [])))).Pairwise (fun a b => b < a) :=
          (List.pairwise_reverse.mpr List.pairwise_lt_range).filter _
        by_cases hv : IsTarget g r v ∨ IsSource g r v
        · -- a source or a target: its set is the one of the first two phases
          have hjd : j ∉ done := by
            intro hjd
            have hjo : j ∈ done ++ i :: rest := List.mem_append_left _ hjd
            rw [← horder] at hjo
            have hcomp := (List.mem_filter.mp hjo).2
            rw [(hcomputed j v hj).mpr hv] at hcomp
            exact absurd hcomp (by decide)
          rw [hrest j hjd]
          exact (htq.2 j v hj).congr (fun w _ => (tqReach_iff hv).symm)
        · -- a plain node: earlier in post-order, so its set is done
          have hjo : j ∈ (List.range (Dominance.rpo g r).length).reverse.filter (fun q =>
              !(decide (q ∈ sets.backEdgeTargets) ||
                (sets.backEdgesBySource.getD q [] ≠ []))) := by
            refine List.mem_filter.mpr ⟨hrange hj, ?_⟩
            rw [← hcomputed j v hj] at hv
            simpa using hv
          exact hdone j (mem_done_of_lt horder hpair (fun a b h => Nat.lt_asymm h) hjo hij) v hj
      · constructor
        · rintro ⟨v, _, huv, hvw⟩
          exact .plain hut hus huv hvw
        · intro huw
          cases huw with
          | target hq _ => exact absurd hq hut
          | source _ hb _ => exact absurd ⟨_, hb⟩ hus
          | plain _ _ he ht =>
              exact ⟨_, (Dominance.mem_rpo hg hr).mpr (hu.tail he.1), he, ht⟩)
  refine ⟨hlen.trans htq.1, fun i u hi => ?_⟩
  by_cases hu : IsTarget g r u ∨ IsSource g r u
  · have hio : i ∉ (List.range (Dominance.rpo g r).length).reverse.filter (fun q =>
        !(decide (q ∈ sets.backEdgeTargets) ||
          (sets.backEdgesBySource.getD q [] ≠ []))) := by
      intro hio
      have hcomp := (List.mem_filter.mp hio).2
      rw [(hcomputed i u hi).mpr hu] at hcomp
      exact absurd hcomp (by decide)
    rw [tqPhase3, hother i hio]
    exact (htq.2 i u hi).congr (fun w _ => (tqReach_iff hu).symm)
  · refine hall i (List.mem_filter.mpr ⟨hrange hi, ?_⟩) u hi
    rw [← hcomputed i u hi] at hu
    simpa using hu

/-- All three phases, and the block itself. -/
theorem computeTqSets_spec {tUp : List BitSet}
    (hup : Represents (Dominance.rpo g r) tUp (Up g.Edge (search g r).pre (search g r).post)) :
    Represents (Dominance.rpo g r)
      (computeTqSets tUp sets.reducedSuccessors sets.backEdgesBySource sets.backEdgeTargets
        (preIndices g r) (List.range (Dominance.rpo g r).length).reverse)
      (fun u v => v = u ∨ TqReach g r u v) := by
  have h3 := tqPhase3_spec hg hr hsets
    (tqPhase2_spec hg hr hsets (tqPhase1_spec hg hr hsets hup))
  refine ⟨by rw [computeTqSets, List.length_mapIdx]; exact h3.1, fun i u hi => ?_⟩
  rw [computeTqSets, at'_mapIdx _ (by rw [h3.1]; exact (List.getElem?_eq_some_iff.mp hi).1)]
  exact IsSetOf.insert Dominance.rpo_nodup hi (h3.2 i u hi)

end Phases

/-! ## The whole precomputation -/

/-- What a query finds precomputed. -/
structure Spec (g : ControlFlowGraph α) (r : α) (lv : LivenessTq α) : Prop where
  index : lv.blockToIndex = (Dominance.rpo g r).zipIdx
  reducible : lv.isReducible = true ↔ Reducible g r
  sdom : Represents (Dominance.rpo g r) lv.sdomTree (StrictlyDominates g.Edge r)
  reach : Represents (Dominance.rpo g r) lv.reducedReachability (Reach (Red g r))
  tq : Represents (Dominance.rpo g r) lv.tqSets (fun u v => v = u ∨ TqReach g r u v)
  targets : IsSetOf (Dominance.rpo g r) lv.backEdgeTargets (IsTarget g r)

/-- The precomputation succeeds, and stores what the queries expect. -/
theorem new_spec (hg : g.Valid) (hr : g.entryNode = some r) {t : DomTree α}
    (ht : IsDomTree g r t) : ∃ lv, new g t = some lv ∧ Spec g r lv := by
  have hrn := hg.entry_mem hr
  obtain ⟨sdom, hsdomEq, hsdom⟩ := domTreeToSdomTree_spec ht Dominance.rpo_nodup
    (fun v => Dominance.mem_rpo hg hrn)
  obtain ⟨sets, hsetsEq, hseen⟩ := collectEdges_seen hg hr hsdom
  have hsets := EdgeSpec.of_seen hg hrn hseen
  have hpre : (search g r).opened.mapM (IMap.get? (Dominance.rpo g r).zipIdx) =
      some (preIndices g r) :=
    mapM_get?_zipIdx Dominance.rpo_nodup (fun v hv => mem_rpo_of_opened hg hrn hv)
  have hpost : (Dominance.rpo g r).reverse.mapM (IMap.get? (Dominance.rpo g r).zipIdx) =
      some (List.range (Dominance.rpo g r).length).reverse := by
    rw [mapM_get?_zipIdx Dominance.rpo_nodup (fun v hv => List.mem_reverse.mp hv),
      List.map_reverse]
    congr 2
    refine List.ext_getElem (by simp) (fun i hi hi' => ?_)
    rw [List.getElem_map, List.getElem_range, Dominance.rpo_nodup.idxOf_getElem i (by simpa using hi')]
  refine ⟨{ isReducible := sets.isReducible
            sdomTree := sdom
            blockToIndex := (Dominance.rpo g r).zipIdx
            reducedReachability := computeReducedReachability sets.reducedSuccessors
            tqSets := computeTqSets
              (computeTUpSets (computeReducedReachability sets.reducedSuccessors)
                sets.backEdgesBySource)
              sets.reducedSuccessors sets.backEdgesBySource sets.backEdgeTargets
              (preIndices g r) (List.range (Dominance.rpo g r).length).reverse
            backEdgeTargets := sets.backEdgeTargets },
    ?_, rfl, hsets.reducible, hsdom, computeReducedReachability_spec hg hrn hsets,
    computeTqSets_spec hg hrn hsets (computeTUpSets_spec hg hrn hsets), hsets.targets⟩
  have hrpo : (DFSTraversal.new g).reversePostOrder = some (Dominance.rpo g r) :=
    DFSTraversal.reversePostOrder_new hg.closed hr
  simp only [new, hrpo, DFSTraversal.preOrder_new hg.closed hr, hsdomEq, hsetsEq, hpre, hpost,
    Option.bind_eq_bind, Option.bind_some]

end LivenessTq

end Pliron
