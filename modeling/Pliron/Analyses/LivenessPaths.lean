/-
  Pliron.Analyses.LivenessPaths

  Liveness as a property of paths, and the paths that the queries see.

  `LiveIn` and `LiveOut` say what liveness is.  A query only looks at reduced
  paths from the back-edge targets collected for the query block, so it sees a
  path that avoids the definition if the path takes no back edge, or if the first
  block on it at which a back edge starts or ends is the target of one, or is left
  along one (`EarlyBack`).  `exists_tqReach_iff` relates the two views.
-/

import Pliron.Analyses.TqSpec

namespace Pliron

open Pliron.Lib Traversals Relation

variable {α : Type} [DecidableEq α]

section Definitions

variable (E : α → α → Prop) (d : α) (U : α → Prop)

/-- Live-in at `q`: some use is reached from `q` without passing through the definition. -/
def LiveIn (q : α) : Prop := q ≠ d ∧ ∃ u, U u ∧ Avoids E d q u

/-- Live-out of `q`: some use is so reached from a successor of `q`. -/
def LiveOut (q : α) : Prop := ∃ s, E q s ∧ ∃ u, U u ∧ Avoids E d s u

end Definitions

namespace LivenessTq

variable (g : ControlFlowGraph α) (r d : α)

/-- A path from `q` to `u` that avoids `d`, on which the first block where a back edge starts
    or ends is the target of a back edge, or is left along a back edge. -/
inductive EarlyBack : α → α → Prop where
  | target {q u : α} (hq : IsTarget g r q) (hqu : Avoids g.Edge d q u) : EarlyBack q u
  | back {q t u : α} (hqd : q ≠ d) (hqt : Back g r q t) (htu : Avoids g.Edge d t u) :
      EarlyBack q u
  | plain {q q' u : α} (hqd : q ≠ d) (ht : ¬ IsTarget g r q) (hs : ¬ IsSource g r q)
      (hqq : Red g r q q') (hqu : EarlyBack q' u) : EarlyBack q u

variable {g r d} {q u t : α}

theorem TqReach.reach (h : TqReach g r q t) : Reach g.Edge q t := by
  induction h with
  | target _ hc => exact IsDfsOrder.reach_of_chain hc
  | source _ hb hc => exact (IsDfsOrder.reach_of_chain hc).head hb.1
  | plain _ _ he _ ih => exact ih.head he.1

theorem EarlyBack.avoids (h : EarlyBack g r d q u) : Avoids g.Edge d q u := by
  induction h with
  | target _ hqu => exact hqu
  | back hqd hqt htu => exact htu.head hqt.1 hqd
  | plain hqd _ _ hqq _ ih => exact ih.head hqq.1 hqd

section Seen

variable (hg : g.Valid) (hr : r ∈ g.nodes)

include hg hr

/-- From a strictly dominated block, back-edge-free paths never meet the dominator. -/
theorem not_reach_red (hq : Reach g.Edge r q) (hd : StrictlyDominates g.Edge r d q) :
    ¬ Reach (Red g r) q d :=
  (search_isDfsOrder hg.closed hr).not_reduced_of_strictlyDominates hq hd

theorem avoids_red (hq : Reach g.Edge r q) (hd : StrictlyDominates g.Edge r d q)
    (hqu : Reach (Red g r) q u) : Avoids (Red g r) d q u :=
  Avoids.of_not_reach hqu (not_reach_red hg hr hq hd)

omit hg hr in
theorem edge_of_red (h : Avoids (Red g r) d q u) : Avoids g.Edge d q u :=
  h.mono (fun _ _ he => he.1)

/-- What is reduced-reachable from a collected target is seen by an early back edge. -/
theorem earlyBack_of_tqReach (h : TqReach g r q t) (hq : Reach g.Edge r q)
    (hqd : ¬ Reach (Red g r) q d) (hd : StrictlyDominates g.Edge r d t)
    (htu : Avoids g.Edge d t u) : EarlyBack g r d q u := by
  have hdfs := search_isDfsOrder hg.closed hr
  have hne : ∀ {a}, ¬ Reach (Red g r) a d → a ≠ d := by
    rintro a ha rfl
    exact ha (Reach.refl a)
  induction h with
  | target hqt hclimb => exact .target hqt ((hdfs.avoids_of_chain hq hclimb hd).trans htu)
  | source _ hb hclimb =>
      exact .back (hne hqd) hb ((hdfs.avoids_of_chain (hq.tail hb.1) hclimb hd).trans htu)
  | plain hqt hqs he _ ih =>
      exact .plain (hne hqd) hqt hqs he (ih (hq.tail he.1) (fun h => hqd (h.head he)) hd htu)

omit hg hr in
/-- What is seen by an early back edge is reduced-reachable from a collected target. -/
theorem tqReach_of_earlyBack (h : EarlyBack g r d q u) (hq : Reach g.Edge r q)
    (hu : Dominates g.Edge r d u) :
    ∃ t, TqReach g r q t ∧ StrictlyDominates g.Edge r d t ∧ Reach (Red g r) t u := by
  induction h with
  | @target q u hqt hqu =>
      obtain ⟨t, hc, hdt, htu⟩ := IsDfsOrder.chain_of_avoids hu hqu q hq
        (StrictlyDominates.of_avoids hu hqu) (Reach.refl q)
      exact ⟨t, .target hqt hc, hdt, htu⟩
  | @back q t u hqd hqt htu =>
      by_cases htarget : IsTarget g r q
      · have hqu := htu.head hqt.1 hqd
        obtain ⟨t', hc, hdt, htu⟩ := IsDfsOrder.chain_of_avoids hu hqu q hq
          (StrictlyDominates.of_avoids hu hqu) (Reach.refl q)
        exact ⟨t', .target htarget hc, hdt, htu⟩
      · obtain ⟨t', hc, hdt, htu'⟩ := IsDfsOrder.chain_of_avoids hu htu t (hq.tail hqt.1)
          (StrictlyDominates.of_avoids hu htu) (Reach.refl t)
        exact ⟨t', .source htarget hqt hc, hdt, htu'⟩
  | plain _ hqt hqs he _ ih =>
      obtain ⟨t, ht, hdt, htu⟩ := ih (hq.tail he.1) hu
      exact ⟨t, .plain hqt hqs he ht, hdt, htu⟩

theorem exists_tqReach_iff (hq : Reach g.Edge r q) (hdq : StrictlyDominates g.Edge r d q)
    (hu : Dominates g.Edge r d u) :
    (∃ t, TqReach g r q t ∧ StrictlyDominates g.Edge r d t ∧ Reach (Red g r) t u) ↔
      EarlyBack g r d q u := by
  constructor
  · rintro ⟨t, hqt, hdt, htu⟩
    have ht : Reach g.Edge r t := hq.trans hqt.reach
    exact earlyBack_of_tqReach hg hr hqt hq (not_reach_red hg hr hq hdq) hdt
      (edge_of_red (avoids_red hg hr ht hdt htu))
  · exact fun h => tqReach_of_earlyBack h hq hu

end Seen

end LivenessTq

end Pliron
