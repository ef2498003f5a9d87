/-
  Pliron.Analyses.LivenessQuery

  What the queries answer, in terms of paths.

  The candidates of a query block `q` are `q` itself and the back-edge targets
  collected for it, as far as the definition strictly dominates them.  On an
  irreducible graph the live-in query looks at every candidate; on a reducible one
  only at the candidate that `reduce` picks, which `Picked` describes.  The
  live-out query always looks at every candidate.
-/

import Pliron.Analyses.LivenessPaths

namespace Pliron

open Pliron.Lib BitSet Traversals Relation

/-! ## The candidate that `reduce` picks -/

/-- The loop of `reduce` keeps the first element that covers everything after it. -/
theorem foldl_keep_spec (R : Nat → Nat → Prop) [DecidableRel R]
    (htrans : ∀ a b c, R a b → R b c → R a c) (ts : List Nat) :
    ∀ (done : List Nat) (m : Nat), (∀ x ∈ done, ∀ y ∈ ts, x < y) → ts.Pairwise (· < ·) →
      m ∈ done → (∀ x ∈ done, m < x → R m x) →
      (∀ x ∈ done, x < m → ∃ y ∈ done, x < y ∧ ¬ R x y) →
      ∃ p, ts.foldl (fun a b => if R a b then a else b) m = p ∧ p ∈ done ++ ts ∧
        (∀ x ∈ done ++ ts, p < x → R p x) ∧
        ∀ x ∈ done ++ ts, x < p → ∃ y ∈ done ++ ts, x < y ∧ ¬ R x y := by
  induction ts with
  | nil =>
      intro done m _ _ hm hafter hbefore
      exact ⟨m, rfl, by simpa using hm, by simpa using hafter, by simpa using hbefore⟩
  | cons b ts ih =>
      intro done m hlt hsorted hm hafter hbefore
      obtain ⟨hb, hsorted⟩ := List.pairwise_cons.mp hsorted
      have hltb : ∀ x ∈ done, x < b := fun x hx => hlt x hx b List.mem_cons_self
      have hlt' : ∀ x ∈ done ++ [b], ∀ y ∈ ts, x < y := by
        intro x hx y hy
        rcases List.mem_append.mp hx with hx | hx
        · exact hlt x hx y (List.mem_cons_of_mem b hy)
        · rw [List.mem_singleton.mp hx]
          exact hb y hy
      have hassoc : done ++ b :: ts = done ++ [b] ++ ts := by simp
      rw [List.foldl_cons, hassoc]
      by_cases hmb : R m b
      · rw [if_pos hmb]
        refine ih (done ++ [b]) m hlt' hsorted (List.mem_append_left _ hm) ?_ ?_
        · intro x hx hmx
          rcases List.mem_append.mp hx with hx | hx
          · exact hafter x hx hmx
          · rw [List.mem_singleton.mp hx]
            exact hmb
        · intro x hx hxm
          rcases List.mem_append.mp hx with hx | hx
          · obtain ⟨y, hy, hxy⟩ := hbefore x hx hxm
            exact ⟨y, List.mem_append_left _ hy, hxy⟩
          · have hxb := List.mem_singleton.mp hx
            have hmb' := hltb m hm
            omega
      · rw [if_neg hmb]
        refine ih (done ++ [b]) b hlt' hsorted (by simp) ?_ ?_
        · intro x hx hbx
          rcases List.mem_append.mp hx with hx | hx
          · have hxb := hltb x hx
            omega
          · have hxb := List.mem_singleton.mp hx
            omega
        · intro x hx hxb
          rcases List.mem_append.mp hx with hx | hx
          · rcases Nat.lt_trichotomy x m with hxm | rfl | hmx
            · obtain ⟨y, hy, hxy⟩ := hbefore x hx hxm
              exact ⟨y, List.mem_append_left _ hy, hxy⟩
            · exact ⟨b, by simp, hxb, hmb⟩
            · -- `m` covers `x`, so `x` cannot cover `b`
              exact ⟨b, by simp, hxb, fun h => hmb (htrans m x b (hafter x hx hmx) h)⟩
          · rw [List.mem_singleton.mp hx] at hxb
            exact absurd hxb (Nat.lt_irrefl b)

namespace LivenessTq

variable {α : Type} [DecidableEq α]

section Definitions

variable (g : ControlFlowGraph α) (r d q : α)

/-- `u` comes before `v` in reverse post-order. -/
def Before (u v : α) : Prop := (search g r).post v < (search g r).post u

/-- The blocks whose reduced reachability a query at `q` may look at. -/
def Candidate (t : α) : Prop := (t = q ∨ TqReach g r q t) ∧ StrictlyDominates g.Edge r d t

/-- The candidate that the query on a reducible graph looks at: the first one in reverse
    post-order that strictly dominates all later ones. -/
structure Picked (m : α) : Prop where
  candidate : Candidate g r d q m
  after : ∀ t, Candidate g r d q t → Before g r m t → StrictlyDominates g.Edge r m t
  before : ∀ t, Candidate g r d q t → Before g r t m →
    ∃ t', Candidate g r d q t' ∧ Before g r t t' ∧ ¬ StrictlyDominates g.Edge r t t'

end Definitions

variable {g : ControlFlowGraph α} {r d q : α} {lv : LivenessTq α}

theorem Candidate.reach {t : α} (h : Candidate g r d q t) : Reach g.Edge q t := by
  rcases h.1 with rfl | h
  · exact Reach.refl t
  · exact h.reach

/-- Only one candidate can be picked. -/
theorem Picked.unique (hg : g.Valid) (hr : r ∈ g.nodes) (hq : Reach g.Edge r q) {m m' : α}
    (h : Picked g r d q m) (h' : Picked g r d q m') : m = m' := by
  have hnot : ∀ {a b}, Picked g r d q a → Picked g r d q b → ¬ Before g r a b := by
    intro a b ha hb hab
    obtain ⟨t, ht, hat, hnot⟩ := hb.before a ha.candidate hab
    exact hnot (ha.after t ht hat)
  have heq : (search g r).post m = (search g r).post m' := by
    have h₁ := hnot h h'
    have h₂ := hnot h' h
    unfold Before at h₁ h₂
    omega
  exact (search_isDfsOrder hg.closed hr).post_inj (hq.trans h.candidate.reach)
    (hq.trans h'.candidate.reach) heq

/-- Numbers are ordered as the blocks they stand for. -/
theorem index_lt_iff {u v : α} {i j : Nat} (hi : (Dominance.rpo g r)[i]? = some u)
    (hj : (Dominance.rpo g r)[j]? = some v) : i < j ↔ Before g r u v := by
  have hu := List.mem_reverse.mp (List.mem_of_getElem? hi)
  have hv := List.mem_reverse.mp (List.mem_of_getElem? hj)
  have hul : (search g r).post u < (search g r).closed.length := idxOf_lt_length_of_mem hu
  have hvl : (search g r).post v < (search g r).closed.length := idxOf_lt_length_of_mem hv
  rw [Dominance.rpo_index_eq hi, Dominance.rpo_index_eq hj, Before]
  omega

namespace Spec

theorem blockIndex_eq_some (h : Spec g r lv) {i : Nat} (hi : (Dominance.rpo g r)[i]? = some q) :
    lv.blockIndex q = some i := by
  rw [blockIndex, h.index]
  exact get?_zipIdx_eq_some Dominance.rpo_nodup hi

theorem blockIndex_eq_none (h : Spec g r lv) (hq : q ∉ Dominance.rpo g r) :
    lv.blockIndex q = none := by
  rw [blockIndex, h.index]
  exact get?_zipIdx_eq_none hq

theorem getElem?_of_blockIndex (h : Spec g r lv) {i : Nat} (hi : lv.blockIndex q = some i) :
    (Dominance.rpo g r)[i]? = some q := by
  by_cases hq : q ∈ Dominance.rpo g r
  · obtain ⟨j, hj⟩ := List.getElem?_of_mem hq
    rw [h.blockIndex_eq_some hj, Option.some.injEq] at hi
    exact hi ▸ hj
  · rw [h.blockIndex_eq_none hq] at hi
    cases hi

theorem numBlocks_eq (h : Spec g r lv) : lv.numBlocks = (Dominance.rpo g r).length := by
  rw [numBlocks, h.index, List.length_zipIdx]

/-- Membership in the row of a vector of sets that represents a relation. -/
theorem mem_at'_iff {sets : List BitSet} {R : α → α → Prop} {u v : α} {i j : Nat}
    (h : Represents (Dominance.rpo g r) sets R) (hi : (Dominance.rpo g r)[i]? = some u)
    (hj : (Dominance.rpo g r)[j]? = some v) : j ∈ at' sets i ↔ R u v :=
  (h.2 i u hi).mem_iff hj

theorem sdomTree_trans (h : Spec g r lv) (hg : g.Valid) (hr : r ∈ g.nodes) (a b c : Nat)
    (hab : b ∈ at' lv.sdomTree a) (hbc : c ∈ at' lv.sdomTree b) : c ∈ at' lv.sdomTree a := by
  have ha : a < lv.sdomTree.length := by
    by_contra hle
    rw [at', List.getD_eq_getElem?_getD, List.getElem?_eq_none (Nat.le_of_not_lt hle)] at hab
    simp at hab
  rw [h.sdom.1] at ha
  have hau := List.getElem?_eq_getElem ha
  obtain ⟨v, hbv, hv⟩ := (h.sdom.2 a _ hau b).mp hab
  obtain ⟨w, hcw, hw⟩ := (h.sdom.2 b v hbv c).mp hbc
  have hwr : Reach g.Edge r w := (Dominance.mem_rpo hg hr).mp (List.mem_of_getElem? hcw)
  exact (h.sdom.2 a _ hau c).mpr ⟨w, hcw, hv.trans hw hwr⟩

/-- The set of candidates of a query. -/
theorem candidates_isSetOf (h : Spec g r lv) {di qi : Nat}
    (hd : (Dominance.rpo g r)[di]? = some d) (hq : (Dominance.rpo g r)[qi]? = some q) :
    IsSetOf (Dominance.rpo g r) (at' lv.tqSets qi ∩ at' lv.sdomTree di) (Candidate g r d q) :=
  (h.tq.2 qi q hq).inter (h.sdom.2 di d hd)

/-- `reduce` finds the picked candidate. -/
theorem allDominator_spec (h : Spec g r lv) (hg : g.Valid) (hr : r ∈ g.nodes) {s : BitSet}
    (hq : Reach g.Edge r q) (hs : IsSetOf (Dominance.rpo g r) s (Candidate g r d q))
    (hne : s ≠ ∅) :
    ∃ i m, lv.allDominator s = some i ∧ (Dominance.rpo g r)[i]? = some m ∧
      Picked g r d q m := by
  have hmem : ∀ {i}, i ∈ iter lv.numBlocks s ↔ i ∈ s := by
    intro i
    rw [mem_iter, and_iff_right_iff_imp, h.numBlocks_eq]
    intro hi
    obtain ⟨v, hv, _⟩ := (hs i).mp hi
    exact (List.getElem?_eq_some_iff.mp hv).1
  have hsorted : (iter lv.numBlocks s).Pairwise (· < ·) :=
    List.pairwise_lt_range.filter _
  cases hl : iter lv.numBlocks s with
  | nil =>
      obtain ⟨i, hi⟩ := Finset.nonempty_iff_ne_empty.mpr hne
      rw [← hmem, hl] at hi
      simp at hi
  | cons t ts =>
      rw [hl] at hsorted
      obtain ⟨ht, hts⟩ := List.pairwise_cons.mp hsorted
      obtain ⟨p, hp, hpm, hafter, hbefore⟩ := foldl_keep_spec
        (fun a b => b ∈ at' lv.sdomTree a) (h.sdomTree_trans hg hr) ts [t] t
        (by simpa using ht) hts (by simp) (by simp) (by simp)
      have hmem' : ∀ {i}, i ∈ [t] ++ ts ↔ i ∈ s := by
        intro i
        rw [List.singleton_append, ← hl]
        exact hmem
      obtain ⟨m, hm, hcand⟩ := (hs p).mp (hmem'.mp hpm)
      have hindex : ∀ v, Candidate g r d q v →
          ∃ j, (Dominance.rpo g r)[j]? = some v ∧ j ∈ [t] ++ ts := by
        intro v hv
        have hvl : v ∈ Dominance.rpo g r := (Dominance.mem_rpo hg hr).mpr (hq.trans hv.reach)
        obtain ⟨j, hj, rfl⟩ := List.getElem_of_mem hvl
        have hjv := List.getElem?_eq_getElem hj
        exact ⟨j, hjv, hmem'.mpr ((hs.mem_iff hjv).mpr hv)⟩
      refine ⟨p, m, ?_, hm, hcand, ?_, ?_⟩
      · rw [allDominator, hl]
        exact congrArg some hp
      · intro v hv hmv
        obtain ⟨j, hj, hjl⟩ := hindex v hv
        exact (mem_at'_iff h.sdom hm hj).mp (hafter j hjl ((index_lt_iff hm hj).mpr hmv))
      · intro v hv hvm
        obtain ⟨j, hj, hjl⟩ := hindex v hv
        obtain ⟨k, hkl, hjk, hnot⟩ := hbefore j hjl ((index_lt_iff hj hm).mpr hvm)
        obtain ⟨w, hk, hw⟩ := (hs k).mp (hmem'.mp hkl)
        exact ⟨w, hw, (index_lt_iff hj hk).mp hjk,
          fun hs => hnot ((mem_at'_iff h.sdom hj hk).mpr hs)⟩

/-- Reduced reachability of a set of uses. -/
theorem reducedReaches_iff (h : Spec g r lv) {U : α → Prop} {uses : BitSet} {i : Nat} {t : α}
    (huses : IsSetOf (Dominance.rpo g r) uses U) (hi : (Dominance.rpo g r)[i]? = some t) :
    lv.reducedReaches i uses = true ↔ ∃ u ∈ Dominance.rpo g r, Reach (Red g r) t u ∧ U u := by
  rw [reducedReaches, decide_eq_true_iff]
  exact ((h.reach.2 i t hi).inter huses).ne_empty_iff

/-- A scan of a set of blocks. -/
theorem any_iter_iff (h : Spec g r lv) {P Q : α → Prop} {s : BitSet} {f : Nat → Bool}
    (hs : IsSetOf (Dominance.rpo g r) s P)
    (hf : ∀ i t, (Dominance.rpo g r)[i]? = some t → (f i = true ↔ Q t)) :
    (iter lv.numBlocks s).any f = true ↔ ∃ t ∈ Dominance.rpo g r, P t ∧ Q t := by
  rw [List.any_eq_true]
  constructor
  · rintro ⟨i, hi, hfi⟩
    obtain ⟨t, ht, hP⟩ := (hs i).mp (mem_iter.mp hi).2
    exact ⟨t, List.mem_of_getElem? ht, hP, (hf i t ht).mp hfi⟩
  · rintro ⟨t, htl, hP, hQ⟩
    obtain ⟨i, hi, rfl⟩ := List.getElem_of_mem htl
    have hit := List.getElem?_eq_getElem hi
    refine ⟨i, mem_iter.mpr ⟨by rw [h.numBlocks_eq]; exact hi, (hs.mem_iff hit).mpr hP⟩, ?_⟩
    exact (hf i _ hit).mpr hQ

end Spec

/-! ## What the queries look for -/

section Definitions

variable (g : ControlFlowGraph α) (r d : α) (U : α → Prop) (q : α)

/-- What the live-in query at `q` looks for. -/
def SeenIn : Prop :=
  (Reducible g r → ∃ m u, Picked g r d q m ∧ U u ∧ Reach (Red g r) m u) ∧
    (¬ Reducible g r → ∃ u, U u ∧ (Avoids (Red g r) d q u ∨ EarlyBack g r d q u))

/-- What the live-out query at `q` looks for. -/
def SeenOut : Prop :=
  ∃ u, U u ∧ ((u ≠ q ∧ Avoids (Red g r) d q u) ∨ EarlyBack g r d q u)

end Definitions

section Queries

variable (h : Spec g r lv) (hg : g.Valid) (hr : r ∈ g.nodes) {U : α → Prop}
  (hU : ∀ u, U u → Reach g.Edge r u ∧ Dominates g.Edge r d u) {uses : BitSet}
  (huses : IsSetOf (Dominance.rpo g r) uses U) {di qi : Nat}
  (hd : (Dominance.rpo g r)[di]? = some d) (hq : (Dominance.rpo g r)[qi]? = some q)

include hg hr

theorem mem_rpo_of_use (hU : ∀ u, U u → Reach g.Edge r u ∧ Dominates g.Edge r d u) {u : α}
    (hu : U u) : u ∈ Dominance.rpo g r := (Dominance.mem_rpo hg hr).mpr (hU u hu).1

/-- A reduced path from the block itself or from a collected target, as a path. -/
theorem exists_candidate_iff (hqr : Reach g.Edge r q) (hdq : StrictlyDominates g.Edge r d q)
    {u : α} (hu : Dominates g.Edge r d u) :
    (∃ t, Candidate g r d q t ∧ Reach (Red g r) t u) ↔
      Avoids (Red g r) d q u ∨ EarlyBack g r d q u := by
  rw [← exists_tqReach_iff hg hr hqr hdq hu]
  constructor
  · rintro ⟨t, ⟨rfl | hqt, hdt⟩, htu⟩
    · exact Or.inl (avoids_red hg hr hqr hdq htu)
    · exact Or.inr ⟨t, hqt, hdt, htu⟩
  · rintro (hqu | ⟨t, hqt, hdt, htu⟩)
    · exact ⟨q, ⟨Or.inl rfl, hdq⟩, hqu.reach⟩
    · exact ⟨t, ⟨Or.inr hqt, hdt⟩, htu⟩

omit hg hr in
/-- Everything collected is the target of a back edge. -/
theorem isTarget_of_tqReach (hqr : Reach g.Edge r q) {t : α} (hqt : TqReach g r q t) :
    IsTarget g r t := by
  have hclimb : ∀ {a b : α}, Climb g r a b → Reach g.Edge r a → IsTarget g r a →
      IsTarget g r b := by
    intro a b hab har ha
    rcases ReflTransGen.cases_tail hab with rfl | ⟨c, hac, s, hcs, hsb, _⟩
    · exact ha
    · have hc : Reach g.Edge r c := har.trans (IsDfsOrder.reach_of_chain hac)
      exact ⟨s, hc.trans (IsDfsOrder.reach_of_reduced hcs), hsb⟩
  induction hqt with
  | target hq ht => exact hclimb ht hqr hq
  | @source a t₁ b _ hb ht => exact hclimb ht (hqr.tail hb.1) ⟨a, hqr, hb⟩
  | plain _ _ he _ ih => exact ih (hqr.tail he.1)

/-- At a back-edge target the live-out query scans all candidates. -/
theorem seenOut_iff_of_target (hU : ∀ u, U u → Reach g.Edge r u ∧ Dominates g.Edge r d u)
    (hqr : Reach g.Edge r q) (hdq : StrictlyDominates g.Edge r d q) (hqt : IsTarget g r q) :
    SeenOut g r d U q ↔ ∃ t u, Candidate g r d q t ∧ U u ∧ Reach (Red g r) t u := by
  constructor
  · rintro ⟨u, hu, ⟨_, hqu⟩ | hqu⟩
    · exact ⟨q, u, ⟨Or.inl rfl, hdq⟩, hu, hqu.reach⟩
    · obtain ⟨t, ht, htu⟩ := (exists_candidate_iff hg hr hqr hdq (hU u hu).2).mpr (Or.inr hqu)
      exact ⟨t, u, ht, hu, htu⟩
  · rintro ⟨t, u, ht, hu, htu⟩
    refine ⟨u, hu, Or.inr ?_⟩
    rcases (exists_candidate_iff hg hr hqr hdq (hU u hu).2).mp ⟨t, ht, htu⟩ with hqu | hqu
    · exact .target hqt (edge_of_red hqu)
    · exact hqu

/-- Elsewhere it leaves out a use in the block itself that is only found from there. -/
theorem seenOut_iff_of_not_target
    (hU : ∀ u, U u → Reach g.Edge r u ∧ Dominates g.Edge r d u) (hqr : Reach g.Edge r q)
    (hdq : StrictlyDominates g.Edge r d q) (hqt : ¬ IsTarget g r q) :
    SeenOut g r d U q ↔ (∃ u, U u ∧ u ≠ q ∧ Reach (Red g r) q u) ∨
      ∃ t u, t ≠ q ∧ Candidate g r d q t ∧ U u ∧ Reach (Red g r) t u := by
  constructor
  · rintro ⟨u, hu, ⟨hne, hqu⟩ | hqu⟩
    · exact Or.inl ⟨u, hu, hne, hqu.reach⟩
    · obtain ⟨t, hqt', hdt, htu⟩ := tqReach_of_earlyBack hqu hqr (hU u hu).2
      refine Or.inr ⟨t, u, ?_, ⟨Or.inr hqt', hdt⟩, hu, htu⟩
      rintro rfl
      exact hqt (isTarget_of_tqReach hqr hqt')
  · rintro (⟨u, hu, hne, hqu⟩ | ⟨t, u, hne, ⟨heq | hqt', hdt⟩, hu, htu⟩)
    · exact ⟨u, hu, Or.inl ⟨hne, avoids_red hg hr hqr hdq hqu⟩⟩
    · exact absurd heq hne
    · exact ⟨u, hu, Or.inr ((exists_tqReach_iff hg hr hqr hdq (hU u hu).2).mp
        ⟨t, hqt', hdt, htu⟩)⟩

include h hU huses hd hq

/-- The live-in query on block numbers. -/
theorem isLiveInAtIndex_spec :
    ∃ b, lv.isLiveInAtIndex di qi uses = some b ∧
      (b = true ↔ StrictlyDominates g.Edge r d q ∧ SeenIn g r d U q) := by
  have hqr : Reach g.Edge r q := (Dominance.mem_rpo hg hr).mp (List.mem_of_getElem? hq)
  have hcand := h.candidates_isSetOf hd hq
  have hne := huses.ne_empty_iff
  by_cases hdq : StrictlyDominates g.Edge r d q
  · have hqd : qi ∈ at' lv.sdomTree di := (Spec.mem_at'_iff h.sdom hd hq).mpr hdq
    by_cases hempty : uses = ∅
    · -- without uses nothing is looked for in vain
      have hno : ∀ u, ¬ U u := fun u hu =>
        hne.mpr ⟨u, mem_rpo_of_use hg hr hU hu, hu⟩ hempty
      refine ⟨false, by rw [isLiveInAtIndex, if_pos (Or.inr hempty)], ?_⟩
      simp only [Bool.false_eq_true, false_iff, not_and, SeenIn]
      rintro _ hred hirr
      by_cases hR : Reducible g r
      · obtain ⟨_, u, _, hu, _⟩ := hred hR
        exact hno u hu
      · obtain ⟨u, hu, _⟩ := hirr hR
        exact hno u hu
    · have hguard : ¬ (qi ∉ at' lv.sdomTree di ∨ uses = ∅) := by simp [hqd, hempty]
      rw [isLiveInAtIndex, if_neg hguard]
      by_cases hR : Reducible g r
      · have hmem : qi ∈ at' lv.tqSets qi ∩ at' lv.sdomTree di :=
          (hcand.mem_iff hq).mpr ⟨Or.inl rfl, hdq⟩
        obtain ⟨i, m, hi, hm, hpick⟩ := h.allDominator_spec hg hr hqr hcand
          (Finset.ne_empty_of_mem hmem)
        refine ⟨lv.reducedReaches i uses, by rw [if_pos (h.reducible.mpr hR), hi]; rfl, ?_⟩
        rw [h.reducedReaches_iff huses hm, SeenIn]
        constructor
        · rintro ⟨u, _, hmu, hu⟩
          exact ⟨hdq, fun _ => ⟨m, u, hpick, hu, hmu⟩, fun hirr => absurd hR hirr⟩
        · rintro ⟨_, hred, _⟩
          obtain ⟨m', u, hpick', hu, hmu⟩ := hred hR
          rw [hpick'.unique hg hr hqr hpick] at hmu
          exact ⟨u, mem_rpo_of_use hg hr hU hu, hmu, hu⟩
      · refine ⟨_, by rw [if_neg (fun hb => hR (h.reducible.mp hb))], ?_⟩
        rw [h.any_iter_iff hcand (fun i t hi => h.reducedReaches_iff huses hi), SeenIn]
        constructor
        · rintro ⟨t, _, ht, u, _, htu, hu⟩
          exact ⟨hdq, fun hred => absurd hred hR, fun _ =>
            ⟨u, hu, (exists_candidate_iff hg hr hqr hdq (hU u hu).2).mp ⟨t, ht, htu⟩⟩⟩
        · rintro ⟨_, _, hirr⟩
          obtain ⟨u, hu, hseen⟩ := hirr hR
          obtain ⟨t, ht, htu⟩ := (exists_candidate_iff hg hr hqr hdq (hU u hu).2).mpr hseen
          exact ⟨t, (Dominance.mem_rpo hg hr).mpr (hqr.trans ht.reach), ht, u,
            mem_rpo_of_use hg hr hU hu, htu, hu⟩
  · have hqd : qi ∉ at' lv.sdomTree di := fun hmem =>
      hdq ((Spec.mem_at'_iff h.sdom hd hq).mp hmem)
    exact ⟨false, by rw [isLiveInAtIndex, if_pos (Or.inl hqd)], by simp [hdq]⟩

/-- The live-out query on block numbers. -/
theorem isLiveOutOfIndex_spec :
    lv.isLiveOutOfIndex di qi uses = true ↔
      (q = d ∧ ∃ u, U u ∧ u ≠ d) ∨ (StrictlyDominates g.Edge r d q ∧ SeenOut g r d U q) := by
  have hqr : Reach g.Edge r q := (Dominance.mem_rpo hg hr).mp (List.mem_of_getElem? hq)
  have hcand := h.candidates_isSetOf hd hq
  by_cases heq : di = qi
  · -- at the definition any use elsewhere counts
    have hqd : q = d := Option.some.inj (hq.symm.trans (heq ▸ hd))
    subst hqd
    have hnot : ¬ StrictlyDominates g.Edge r q q := fun hs => hs.2 rfl
    rw [isLiveOutOfIndex, if_pos heq, h.any_iter_iff (Q := fun u => u ≠ q) huses]
    · simp only [hnot, false_and, or_false, true_and]
      constructor
      · rintro ⟨u, _, hu, hne⟩
        exact ⟨u, hu, hne⟩
      · rintro ⟨u, hu, hne⟩
        exact ⟨u, mem_rpo_of_use hg hr hU hu, hu, hne⟩
    · intro i t hi
      rw [decide_eq_true_iff, not_iff_not]
      constructor
      · rintro rfl
        exact Option.some.inj (hi.symm.trans hq)
      · rintro rfl
        exact eq_of_getElem?_eq Dominance.rpo_nodup hi hq
  · have hqd : q ≠ d := by
      rintro rfl
      exact heq (eq_of_getElem?_eq Dominance.rpo_nodup hd hq)
    -- elsewhere the source answers no when the definition does not dominate or nothing is used
    rw [isLiveOutOfIndex, if_neg heq]
    simp only [hqd, false_and, false_or]
    by_cases hguard : qi ∉ at' lv.sdomTree di ∨ uses = ∅
    · rw [if_pos hguard]
      simp only [Bool.false_eq_true, false_iff, not_and]
      intro hdq
      rcases hguard with hmem | hempty
      · exact absurd ((Spec.mem_at'_iff h.sdom hd hq).mpr hdq) hmem
      · rintro ⟨u, hu, _⟩
        exact huses.ne_empty_iff.mpr ⟨u, mem_rpo_of_use hg hr hU hu, hu⟩ hempty
    · rw [if_neg hguard]
      obtain ⟨hmem, _⟩ := not_or.mp hguard
      have hdq : StrictlyDominates g.Edge r d q :=
        (Spec.mem_at'_iff h.sdom hd hq).mp (not_not.mp hmem)
      have hqc : qi ∈ at' lv.tqSets qi ∩ at' lv.sdomTree di :=
        (hcand.mem_iff hq).mpr ⟨Or.inl rfl, hdq⟩
      have htu : ∀ {t u}, Candidate g r d q t → U u → t ∈ Dominance.rpo g r ∧
          u ∈ Dominance.rpo g r := fun ht hu =>
        ⟨(Dominance.mem_rpo hg hr).mpr (hqr.trans ht.reach), mem_rpo_of_use hg hr hU hu⟩
      simp only [hdq, true_and]
      by_cases hqt : IsTarget g r q
      · -- a target: a use in the block itself counts, as any other use
        have hin : ¬ (qi ∈ at' lv.tqSets qi ∩ at' lv.sdomTree di ∧
            qi ∉ lv.backEdgeTargets) := fun hb => hb.2 ((h.targets.mem_iff hq).mpr hqt)
        rw [if_neg hin, seenOut_iff_of_target hg hr hU hqr hdq hqt,
          h.any_iter_iff hcand (fun i t hi => h.reducedReaches_iff huses hi)]
        constructor
        · rintro ⟨t, _, ht, u, _, htu, hu⟩
          exact ⟨t, u, ht, hu, htu⟩
        · rintro ⟨t, u, ht, hu, hreach⟩
          exact ⟨t, (htu ht hu).1, ht, u, (htu ht hu).2, hreach, hu⟩
      · -- no target: a use in the block itself does not count
        have hin : qi ∉ lv.backEdgeTargets := fun hb => hqt ((h.targets.mem_iff hq).mp hb)
        rw [if_pos ⟨hqc, hin⟩, seenOut_iff_of_not_target hg hr hU hqr hdq hqt, Bool.or_eq_true,
          h.reducedReaches_iff (huses.erase Dominance.rpo_nodup hq) hq,
          h.any_iter_iff (hcand.erase Dominance.rpo_nodup hq)
            (fun i t hi => h.reducedReaches_iff huses hi)]
        refine or_congr ?_ ?_
        · constructor
          · rintro ⟨u, _, hqu, hne, hu⟩
            exact ⟨u, hu, hne, hqu⟩
          · rintro ⟨u, hu, hne, hqu⟩
            exact ⟨u, mem_rpo_of_use hg hr hU hu, hqu, hne, hu⟩
        · constructor
          · rintro ⟨t, _, ⟨hne, ht⟩, u, _, htu, hu⟩
            exact ⟨t, u, hne, ht, hu, htu⟩
          · rintro ⟨t, u, hne, ht, hu, hreach⟩
            exact ⟨t, (htu ht hu).1, ⟨hne, ht⟩, u, (htu ht hu).2, hreach, hu⟩

end Queries

end LivenessTq

end Pliron
