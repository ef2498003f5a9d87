/-
  Pliron.Lib.DfsOrder

  What a depth-first numbering gives, whatever program computed it.

  `IsDfsOrder E r pre post` collects the facts about the pre-order and
  post-order numbers of the nodes reachable from `r` that the rest of the
  development uses: both numberings are injective, an edge to a node numbered
  later in pre-order closes that node first, subtrees are nested or disjoint
  (`nest`), and every node but the root hangs off an enclosing parent.  From
  these follow the classification of edges into back edges and the rest, that
  the graph without its back edges is acyclic, and that dominators are
  ancestors in the depth-first tree.
-/

import Pliron.Lib.Digraph

namespace Pliron.Lib

open Relation

variable {α : Type*}

/-- `pre` and `post` are the numbers of a depth-first traversal of `E` from `r`. -/
structure IsDfsOrder (E : α → α → Prop) (r : α) (pre post : α → Nat) : Prop where
  pre_inj : ∀ {u v}, Reach E r u → Reach E r v → pre u = pre v → u = v
  post_inj : ∀ {u v}, Reach E r u → Reach E r v → post u = post v → u = v
  pre_root : ∀ {u}, Reach E r u → pre r ≤ pre u
  edge : ∀ {u v}, Reach E r u → E u v → pre u < pre v → post v < post u
  nest : ∀ {u v w}, Reach E r u → Reach E r v → Reach E r w →
    pre u < pre v → post u < post v → pre v ≤ pre w → post u < post w
  parent : ∀ {v}, Reach E r v → v ≠ r → ∃ p, Reach E r p ∧ E p v ∧
    pre p < pre v ∧ post v < post p ∧
    ∀ u, Reach E r u → pre u < pre v → post v < post u → pre u ≤ pre p ∧ post p ≤ post u

/-- `u` is an ancestor of `v` (or `v` itself) in the depth-first tree. -/
def Ancestor (pre post : α → Nat) (u v : α) : Prop := pre u ≤ pre v ∧ post v ≤ post u

/-- A back edge: its target is an ancestor of its source, or the source itself. -/
def BackEdge (E : α → α → Prop) (pre post : α → Nat) (u v : α) : Prop :=
  E u v ∧ Ancestor pre post v u

/-- The edges that are not back edges. -/
def ReducedEdge (E : α → α → Prop) (pre post : α → Nat) (u v : α) : Prop :=
  E u v ∧ ¬ Ancestor pre post v u

theorem Ancestor.refl {pre post : α → Nat} (u : α) : Ancestor pre post u u :=
  ⟨Nat.le_refl _, Nat.le_refl _⟩

theorem Ancestor.trans {pre post : α → Nat} {u v w : α} (h₁ : Ancestor pre post u v)
    (h₂ : Ancestor pre post v w) : Ancestor pre post u w :=
  ⟨Nat.le_trans h₁.1 h₂.1, Nat.le_trans h₂.2 h₁.2⟩

namespace IsDfsOrder

variable {E : α → α → Prop} {r d u v w x y : α} {pre post : α → Nat}

/-! ## Edges -/

/-- An edge whose target closes after its source is a back edge. -/
theorem post_lt_of_reducedEdge (h : IsDfsOrder E r pre post) (hu : Reach E r u)
    (he : ReducedEdge E pre post u v) : post v < post u := by
  have hv : Reach E r v := hu.tail he.1
  rcases Nat.lt_trichotomy (pre u) (pre v) with hlt | heq | hgt
  · exact h.edge hu he.1 hlt
  · exact absurd (h.pre_inj hu hv heq ▸ Ancestor.refl u) he.2
  · by_contra hpost
    exact he.2 ⟨Nat.le_of_lt hgt, Nat.le_of_not_lt hpost⟩

theorem reducedEdge_or_backEdge (he : E u v) :
    ReducedEdge E pre post u v ∨ BackEdge E pre post u v := by
  by_cases hanc : Ancestor pre post v u
  · exact Or.inr ⟨he, hanc⟩
  · exact Or.inl ⟨he, hanc⟩

theorem reach_of_reduced (h : Reach (ReducedEdge E pre post) u v) : Reach E u v :=
  h.mono (fun _ _ he => he.1)

/-- Post-order numbers do not grow along reduced paths. -/
theorem post_le_of_reduced (h : IsDfsOrder E r pre post) (hu : Reach E r u)
    (huv : Reach (ReducedEdge E pre post) u v) : post v ≤ post u := by
  induction huv with
  | refl => exact Nat.le_refl _
  | @tail b c hub hbc ih =>
      have hb : Reach E r b := hu.trans (reach_of_reduced hub)
      exact Nat.le_trans (Nat.le_of_lt (h.post_lt_of_reducedEdge hb hbc)) ih

/-- The reduced graph is acyclic. -/
theorem eq_of_reduced_cycle (h : IsDfsOrder E r pre post) (hu : Reach E r u)
    (huv : Reach (ReducedEdge E pre post) u v) (hvu : Reach (ReducedEdge E pre post) v u) :
    u = v := by
  have hv : Reach E r v := hu.trans (reach_of_reduced huv)
  exact h.post_inj hu hv
    (Nat.le_antisymm (h.post_le_of_reduced hv hvu) (h.post_le_of_reduced hu huv))

/-! ## The depth-first tree -/

/-- A node reaches its descendants by reduced edges (those of the tree). -/
theorem reduced_of_ancestor (h : IsDfsOrder E r pre post) (hu : Reach E r u)
    (hv : Reach E r v) (hanc : Ancestor pre post u v) :
    Reach (ReducedEdge E pre post) u v := by
  induction hn : pre v using Nat.strong_induction_on generalizing v with
  | _ n ih =>
      subst hn
      by_cases huv : u = v
      · subst huv
        exact Reach.refl _
      · have hpre : pre u < pre v :=
          lt_of_le_of_ne hanc.1 (fun heq => huv (h.pre_inj hu hv heq))
        have hpost : post v < post u :=
          lt_of_le_of_ne hanc.2 (fun heq => huv (h.post_inj hv hu heq).symm)
        have hvr : v ≠ r := by
          rintro rfl
          exact absurd (h.pre_root hu) (Nat.not_le_of_lt hpre)
        obtain ⟨p, hp, hpv, hpre', hpost', hinner⟩ := h.parent hv hvr
        have hup := ih _ hpre' hp (hinner u hu hpre hpost) rfl
        exact hup.tail ⟨hpv, fun hback => absurd hback.1 (Nat.not_le_of_lt hpre')⟩

/-- The root is an ancestor of every reachable node. -/
theorem root_ancestor (h : IsDfsOrder E r pre post) (hv : Reach E r v) :
    Ancestor pre post r v := by
  induction hn : pre v using Nat.strong_induction_on generalizing v with
  | _ n ih =>
      subst hn
      by_cases hvr : v = r
      · subst hvr
        exact Ancestor.refl _
      · obtain ⟨p, hp, _, hpre, hpost, _⟩ := h.parent hv hvr
        exact (ih _ hpre hp rfl).trans ⟨Nat.le_of_lt hpre, Nat.le_of_lt hpost⟩

/-- Dominators are ancestors. -/
theorem ancestor_of_dominates (h : IsDfsOrder E r pre post) (hv : Reach E r v)
    (hd : Dominates E r d v) : Ancestor pre post d v := by
  induction hn : pre v using Nat.strong_induction_on generalizing v with
  | _ n ih =>
      subst hn
      by_cases hvd : v = d
      · subst hvd
        exact Ancestor.refl _
      · have hvr : v ≠ r := by
          rintro rfl
          exact hd (Avoids.refl hvd)
        obtain ⟨p, hp, hpv, hpre, hpost, _⟩ := h.parent hv hvr
        exact (ih _ hpre hp (hd.pred hpv hvd) rfl).trans
          ⟨Nat.le_of_lt hpre, Nat.le_of_lt hpost⟩

/-- A strict dominator comes strictly before the nodes it dominates, and closes after. -/
theorem lt_of_strictlyDominates (h : IsDfsOrder E r pre post) (hv : Reach E r v)
    (hd : StrictlyDominates E r d v) : pre d < pre v ∧ post v < post d := by
  have hanc := h.ancestor_of_dominates hv hd.1
  have hdr := (hd.1.reach hv).1
  exact ⟨lt_of_le_of_ne hanc.1 (fun heq => hd.2 (h.pre_inj hdr hv heq)),
    lt_of_le_of_ne hanc.2 (fun heq => hd.2 (h.post_inj hv hdr heq).symm)⟩

/-- A strictly dominated node does not reach its dominator without a back edge. -/
theorem not_reduced_of_strictlyDominates (h : IsDfsOrder E r pre post) (hv : Reach E r v)
    (hd : StrictlyDominates E r d v) : ¬ Reach (ReducedEdge E pre post) v d := fun hvd =>
  absurd (h.post_le_of_reduced hv hvd) (Nat.not_le_of_lt (h.lt_of_strictlyDominates hv hd).2)

/-- Nodes that are neither nested in nor closed before `u` close after it: a descendant
    of a node opened after `u` was closed is not reached from `u` by reduced edges. -/
theorem not_reduced_of_disjoint (h : IsDfsOrder E r pre post) (hu : Reach E r u)
    (hv : Reach E r v) (hw : Reach E r w) (hpre : pre u < pre v)
    (hanc : ¬ Ancestor pre post u v) (hvw : pre v ≤ pre w) :
    ¬ Reach (ReducedEdge E pre post) u w := by
  intro huw
  have hpost : post u < post v := by
    by_contra hle
    exact hanc ⟨Nat.le_of_lt hpre, Nat.le_of_not_lt hle⟩
  have hlt := h.nest hu hv hw hpre hpost hvw
  exact absurd (h.post_le_of_reduced hu huw) (Nat.not_le_of_lt hlt)

end IsDfsOrder

end Pliron.Lib
