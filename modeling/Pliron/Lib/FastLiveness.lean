/-
  Pliron.Lib.FastLiveness

  The theory behind checking liveness with back-edge target sets.

  `Up t t'` is one step of the target closure: `t'` is the target of a back edge
  that leaves a node reduced-reachable from `t`, and is not itself
  reduced-reachable from `t`.  `Chain` is its closure.  For a node `d` that
  dominates the uses, the two main results say that the targets found by
  `Chain` from a strictly dominated node `t` are exactly what is needed to
  see every use that `t` reaches without passing through `d`:

    * `avoids_of_chain`  — a chain that ends below `d` never passes through `d`;
    * `chain_of_avoids`  — a path that avoids `d` is covered by a chain followed by
                           one reduced path.
-/

import Pliron.Lib.DfsOrder

namespace Pliron.Lib

open Relation

variable {α : Type*}

/-- One step of the back-edge target closure. -/
def Up (E : α → α → Prop) (pre post : α → Nat) (t t' : α) : Prop :=
  ∃ s, Reach (ReducedEdge E pre post) t s ∧ BackEdge E pre post s t' ∧
    ¬ Reach (ReducedEdge E pre post) t t'

/-- The back-edge target closure. -/
def Chain (E : α → α → Prop) (pre post : α → Nat) (t t' : α) : Prop :=
  ReflTransGen (Up E pre post) t t'

namespace IsDfsOrder

variable {E : α → α → Prop} {r b d s t t' u x y : α} {pre post : α → Nat}

theorem reach_of_up (h : Up E pre post t t') : Reach E t t' := by
  obtain ⟨s, hts, hst, _⟩ := h
  exact (reach_of_reduced hts).tail hst.1

theorem reach_of_chain (h : Chain E pre post t t') : Reach E t t' := by
  induction h with
  | refl => exact Reach.refl _
  | tail _ hbc ih => exact ih.trans (reach_of_up hbc)

/-- The closure climbs: every step leads to a node opened earlier. -/
theorem pre_lt_of_up (h : IsDfsOrder E r pre post) (ht : Reach E r t)
    (hup : Up E pre post t t') : pre t' < pre t := by
  obtain ⟨s, hts, hst, hnot⟩ := hup
  have hs : Reach E r s := ht.trans (reach_of_reduced hts)
  have ht' : Reach E r t' := hs.tail hst.1
  by_contra hle
  have hne : t ≠ t' := by
    rintro rfl
    exact hnot (Reach.refl _)
  have hlt : pre t < pre t' :=
    lt_of_le_of_ne (Nat.le_of_not_lt hle) (fun heq => hne (h.pre_inj ht ht' heq))
  by_cases hanc : Ancestor pre post t t'
  · exact hnot (h.reduced_of_ancestor ht ht' hanc)
  · exact h.not_reduced_of_disjoint ht ht' hs hlt hanc hst.2.1 hts

theorem pre_le_of_chain (h : IsDfsOrder E r pre post) (ht : Reach E r t)
    (hc : Chain E pre post t t') : pre t' ≤ pre t := by
  induction hc with
  | refl => exact Nat.le_refl _
  | @tail b c htb hbc ih =>
      exact Nat.le_trans (Nat.le_of_lt (h.pre_lt_of_up (ht.trans (reach_of_chain htb)) hbc)) ih

/-- A step of the closure to a node opened after `d` does not pass through `d`. -/
theorem avoids_of_up (h : IsDfsOrder E r pre post) (hd : Reach E r d) (ht : Reach E r t)
    (hup : Up E pre post t t') (hlt : pre d < pre t') : Avoids E d t t' := by
  obtain ⟨s, hts, hst, hnot⟩ := hup
  have hs : Reach E r s := ht.trans (reach_of_reduced hts)
  have ht' : Reach E r t' := hs.tail hst.1
  have ht'd : t' ≠ d := by
    rintro rfl
    exact absurd hlt (Nat.lt_irrefl _)
  rcases Avoids.of_reach (d := d) hts with hav | ⟨htd', hds⟩
  · exact (hav.mono (fun _ _ he => he.1)).tail hst.1 ht'd
  · -- the reduced path runs through `d`: then `t'` is nested in `d`, or opened after `d`
    -- was closed, and either contradicts the step
    exfalso
    by_cases hanc : Ancestor pre post d t'
    · exact hnot (htd'.trans (h.reduced_of_ancestor hd ht' hanc))
    · exact h.not_reduced_of_disjoint hd ht' hs hlt hanc hst.2.1 hds

/-- A chain that ends strictly below `d` does not pass through `d`. -/
theorem avoids_of_chain (h : IsDfsOrder E r pre post) (ht : Reach E r t)
    (hc : Chain E pre post t t') (hd : StrictlyDominates E r d t') : Avoids E d t t' := by
  have ht' : Reach E r t' := ht.trans (reach_of_chain hc)
  have hdr : Reach E r d := (hd.1.reach ht').1
  have hlt := (h.lt_of_strictlyDominates ht' hd).1
  induction hc using ReflTransGen.head_induction_on with
  | refl => exact Avoids.refl (Ne.symm hd.2)
  | @head x y hxy hyt ih =>
      have hy : Reach E r y := ht.trans (reach_of_up hxy)
      have hpre : pre d < pre y := Nat.lt_of_lt_of_le hlt (h.pre_le_of_chain hy hyt)
      exact (h.avoids_of_up hdr ht hxy hpre).trans (ih hy)

/-- A path from `x` that avoids the dominator `d` of its end `u` is covered from any
    strictly dominated `t` with a reduced path to `x`: some node of the chain from `t`
    has a reduced path to `u`. -/
theorem chain_of_avoids (hu : Dominates E r d u) (hxu : Avoids E d x u) :
    ∀ t, Reach E r t → StrictlyDominates E r d t → Reach (ReducedEdge E pre post) t x →
      ∃ t', Chain E pre post t t' ∧ StrictlyDominates E r d t' ∧
        Reach (ReducedEdge E pre post) t' u := by
  refine hxu.head_induction (P := fun x => ∀ t, Reach E r t → StrictlyDominates E r d t →
    Reach (ReducedEdge E pre post) t x → ∃ t', Chain E pre post t t' ∧
      StrictlyDominates E r d t' ∧ Reach (ReducedEdge E pre post) t' u) ?_ ?_
  · intro t _ hdt htu
    exact ⟨t, ReflTransGen.refl, hdt, htu⟩
  · intro x y _ hxy hyu ih t ht hdt htx
    have hcases : ReducedEdge E pre post x y ∨ BackEdge E pre post x y :=
      reducedEdge_or_backEdge hxy
    rcases hcases with hred | hback
    · exact ih t ht hdt (htx.tail hred)
    · by_cases hty : Reach (ReducedEdge E pre post) t y
      · exact ih t ht hdt hty
      · -- the back edge leaves what `t` reaches: continue the chain at its target
        have hup : Up E pre post t y := ⟨x, htx, hback, hty⟩
        have hdy : StrictlyDominates E r d y := StrictlyDominates.of_avoids hu hyu
        obtain ⟨t', hc, hdt', htu⟩ := ih y (ht.trans (reach_of_up hup)) hdy (Reach.refl _)
        exact ⟨t', ReflTransGen.head hup hc, hdt', htu⟩

end IsDfsOrder

end Pliron.Lib
