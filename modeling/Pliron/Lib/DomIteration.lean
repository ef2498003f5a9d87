/-
  Pliron.Lib.DomIteration

  Iterative computation of immediate dominators, independent of how the nearest
  common ancestors are found.

  The nodes are `0 .. n-1`, `0` is the root, and every other node has a
  predecessor with a smaller number (any reverse post-order has this property).
  A sweep visits `1 .. n-1` in order and replaces the parent of `i` by the
  nearest common ancestor of its processed predecessors.  `DomInv` is what holds
  when the nodes below `m` are processed and the current sweep has come to
  `pos`.  It gives the two halves of the argument:

    * correctness: no dominator is ever lost from the ancestors (`dom`), and at a
      fixpoint every ancestor is a dominator (`anc_iff_dominates`);
    * termination: the new parent is always an ancestor of the old one
      (`anc_of_isNca`), so parents only move towards the root.
-/

import Pliron.Lib.Digraph
import Pliron.Lib.ParentChain

namespace Pliron.Lib

open Relation

variable {E : Nat → Nat → Prop} {D : Nat → Option Nat} {n m pos c i j k p x : Nat}

/-- Every node but the root has a predecessor with a smaller number. -/
def HasSmallerPred (E : Nat → Nat → Prop) (n : Nat) : Prop :=
  ∀ i, 0 < i → i < n → ∃ p < i, E p i

/-- The state of the iteration between two updates. -/
structure DomInv (E : Nat → Nat → Prop) (D : Nat → Option Nat) (m pos : Nat) : Prop where
  chain : IsParentChain D
  some_iff : ∀ k, (D k).isSome ↔ k < m
  pos_pos : 0 < pos
  pos_le : pos ≤ m
  path : ∀ k c, D k = some c → ReflTransGen (fun a b => E a b ∧ c ≤ a ∧ c ≤ b) c k
  dom : ∀ k < m, ∀ x, Dominates E 0 x k → Anc D x k
  nca : ∀ k, 0 < k → k < m → ∀ x, (∀ p, E p k → p < m → Anc D x p) →
    ∀ j, D k = some j → Anc D x j
  ahead : ∀ k, pos ≤ k → k < m → ∀ p, E p k → p < k → ∀ i, pos ≤ i →
    ∀ j, D k = some j → Anc D i j → Anc D i p
  behind : ∀ k, 0 < k → k < pos → ∀ p, E p k → p < k → ∀ j, D k = some j → Anc D j p

namespace DomInv

/-- Before the first sweep only the root is processed. -/
theorem init : DomInv E (fun k => if k = 0 then some 0 else none) 1 1 := by
  have hsome : ∀ {k j : Nat}, (if k = 0 then some 0 else none) = some j → k = 0 ∧ j = 0 := by
    intro k j h
    split at h
    · next hk => exact ⟨hk, (Option.some.inj h).symm⟩
    · exact absurd h (by simp)
  refine ⟨⟨rfl, fun h hk => absurd (hsome h).1 hk⟩, ?_, Nat.one_pos, Nat.le_refl 1, ?_, ?_,
    ?_, ?_, ?_⟩
  · intro k
    split <;> simp <;> omega
  · intro k c h
    obtain ⟨rfl, rfl⟩ := hsome h
    exact ReflTransGen.refl
  · intro k hk x hx
    obtain rfl : k = 0 := by omega
    by_cases hx0 : x = 0
    · rw [hx0]
      exact Anc.refl 0
    · exact absurd (Avoids.refl (Ne.symm hx0)) hx
  · intro k hk hk1
    omega
  · intro k hk hk1
    omega
  · intro k hk hk1
    omega

/-- A descendant is reached from its ancestor without going below it. -/
theorem path_of_anc (h : DomInv E D m pos) (hx : Anc D x k) :
    ReflTransGen (fun a b => E a b ∧ x ≤ a ∧ x ≤ b) x k := by
  refine hx.induction ReflTransGen.refl (fun k j hkj hxj ih => ?_)
  have hle := h.chain.le_of_anc hxj
  refine ih.trans (ReflTransGen.mono (fun a b hab => ?_) _ _ (h.path k j hkj))
  exact ⟨hab.1, Nat.le_trans hle hab.2.1, Nat.le_trans hle hab.2.2⟩

theorem lt_of_parent (h : DomInv E D m pos) (hk : 0 < k) (hj : D k = some j) : j < k :=
  h.chain.lt hj (Nat.ne_of_gt hk)

/-- A dominator of a descendant of `i` that comes before `i` dominates `i`. -/
theorem dominates_of_anc (h : DomInv E D m pos) (hi : Anc D i k) (hxi : x < i)
    (hx : Dominates E 0 x k) : Dominates E 0 x i := by
  intro hav
  refine hx (hav.trans ⟨Nat.ne_of_gt hxi, ReflTransGen.mono (fun a b hab => ?_) _ _
    (h.path_of_anc hi)⟩)
  exact ⟨hab.1, Nat.ne_of_gt (Nat.lt_of_lt_of_le hxi hab.2.2)⟩

section Update

variable (h : DomInv E D m pos) (hpred : HasSmallerPred E n) (hpos : pos < n)
  (hc : IsNca D (fun p => E p pos ∧ p < m) c)

include h hpred hpos hc

theorem nca_lt : c < pos := by
  obtain ⟨p, hp, hpe⟩ := hpred pos h.pos_pos hpos
  have hcp := hc.1 p ⟨hpe, Nat.lt_of_lt_of_le hp h.pos_le⟩
  exact Nat.lt_of_le_of_lt (h.chain.le_of_anc hcp) hp

omit hpred hpos in
/-- The new parent is an ancestor of the old one. -/
theorem anc_of_isNca (hj : D pos = some j) : Anc D c j := by
  have hm : pos < m := (h.some_iff pos).mp (by rw [hj]; rfl)
  exact h.nca pos h.pos_pos hm c (fun p hp hpm => hc.1 p ⟨hp, hpm⟩) j hj

/-- Processed nodes do not gain ancestors. -/
theorem anc_of_update (hp : p < m) (hx : Anc (Function.update D pos (some c)) x p) :
    Anc D x p := by
  by_cases hm : pos < m
  · obtain ⟨j, hj⟩ := Option.isSome_iff_exists.mp ((h.some_iff pos).mpr hm)
    exact Anc.of_update (Anc.of_parent hj (h.anc_of_isNca hc hj)) hx
  · have hlt : p < pos := Nat.lt_of_lt_of_le hp (Nat.le_of_not_lt hm)
    exact (h.chain.anc_update_of_lt (h.nca_lt hpred hpos hc) hlt).mp hx

omit hpred hpos in
theorem dom_update_self (hx : Dominates E 0 x pos) :
    x = pos ∨ Anc D x c := by
  by_cases hxp : x = pos
  · exact Or.inl hxp
  · refine Or.inr (hc.2 x (fun p hp => h.dom p hp.2 x (hx.pred hp.1 ?_)))
    exact fun heq => hxp heq.symm

theorem dom_update (hk : k < m ∨ k = pos) (hx : Dominates E 0 x k) :
    Anc (Function.update D pos (some c)) x k := by
  have hlt := h.nca_lt hpred hpos hc
  by_cases hkp : k = pos
  · subst hkp
    exact (h.chain.anc_update_self hlt).mpr (h.dom_update_self hc hx)
  · have hxk := h.dom k (hk.resolve_right hkp) x hx
    by_cases hanc : Anc D pos k
    · by_cases hle : pos ≤ x
      · exact h.chain.anc_update_of_le hlt hxk hle
      · have hxp : x < pos := Nat.lt_of_not_le hle
        have hxd := h.dominates_of_anc hanc hxp hx
        exact (h.chain.anc_update_iff_of_anc hlt hanc hxp).mpr
          ((h.dom_update_self hc hxd).resolve_left (Nat.ne_of_lt hxp))
    · exact Anc.update_of_not hanc hxk

theorem nca_update (hk0 : 0 < k) (hk : k < m ∨ k = pos) (hk' : k < n)
    (hx : ∀ p, E p k → p < m → Anc (Function.update D pos (some c)) x p)
    (hj : Function.update D pos (some c) k = some j) :
    Anc (Function.update D pos (some c)) x j := by
  have hlt := h.nca_lt hpred hpos hc
  have hold : ∀ p, E p k → p < m → Anc D x p := fun p hp hpm =>
    h.anc_of_update hpred hpos hc hpm (hx p hp hpm)
  by_cases hkp : k = pos
  · subst hkp
    rw [Function.update_self] at hj
    rw [← Option.some.inj hj, h.chain.anc_update_of_lt hlt hlt]
    exact hc.2 x (fun p hp => hold p hp.1 hp.2)
  · rw [Function.update_of_ne hkp] at hj
    have hkm := hk.resolve_right hkp
    have hxj := h.nca k hk0 hkm x hold j hj
    by_cases hanc : Anc D pos j
    · by_cases hle : pos ≤ x
      · exact h.chain.anc_update_of_le hlt hxj hle
      · -- the predecessor of `k` with the smaller number is below `pos` as well
        have hxp : x < pos := Nat.lt_of_not_le hle
        have hjk := h.lt_of_parent hk0 hj
        have hpk : pos ≤ k := Nat.le_trans (h.chain.le_of_anc hanc) (Nat.le_of_lt hjk)
        obtain ⟨p, hp, hpe⟩ := hpred k hk0 hk'
        have hpm := Nat.lt_trans hp hkm
        have hposp := h.ahead k hpk hkm p hpe hp pos (Nat.le_refl pos) j hj hanc
        exact (h.chain.anc_update_iff_of_anc hlt hanc hxp).mpr
          ((h.chain.anc_update_iff_of_anc hlt hposp hxp).mp (hx p hpe hpm))
    · exact Anc.update_of_not hanc hxj

theorem path_update {d : Nat} (hd : Function.update D pos (some c) k = some d) :
    ReflTransGen (fun a b => E a b ∧ d ≤ a ∧ d ≤ b) d k := by
  by_cases hkp : k = pos
  · subst hkp
    rw [Function.update_self] at hd
    obtain rfl := Option.some.inj hd
    obtain ⟨p, hp, hpe⟩ := hpred k h.pos_pos hpos
    have hcp := hc.1 p ⟨hpe, Nat.lt_of_lt_of_le hp h.pos_le⟩
    exact (h.path_of_anc hcp).tail
      ⟨hpe, h.chain.le_of_anc hcp, Nat.le_of_lt (h.nca_lt hpred hpos hc)⟩
  · rw [Function.update_of_ne hkp] at hd
    exact h.path k d hd

/-- One update of a sweep keeps the invariant. -/
theorem update (hmn : m ≤ n) :
    DomInv E (Function.update D pos (some c)) (max m (pos + 1)) (pos + 1) := by
  have hlt := h.nca_lt hpred hpos hc
  have hmax : ∀ {k}, k < max m (pos + 1) → k < m ∨ k = pos := fun hk => by
    have := h.pos_le
    omega
  refine ⟨h.chain.update hlt, ?_, Nat.succ_pos _, Nat.le_max_right _ _, ?_, ?_, ?_, ?_, ?_⟩
  · intro k
    by_cases hkp : k = pos
    · subst hkp
      simp
    · rw [Function.update_of_ne hkp, h.some_iff k]
      have := h.pos_le
      omega
  · intro k d hd
    exact h.path_update hpred hpos hc hd
  · intro k hk x hx
    exact h.dom_update hpred hpos hc (hmax hk) hx
  · intro k hk0 hk x hx j hj
    refine h.nca_update hpred hpos hc hk0 (hmax hk) (by omega) (fun p hp hpm => ?_) hj
    exact hx p hp (Nat.lt_of_lt_of_le hpm (Nat.le_max_left _ _))
  · intro k hpk hk p hp hpk' i hi j hj hij
    have hkm : k < m := (hmax hk).resolve_right (by omega)
    rw [Function.update_of_ne (by omega)] at hj
    have hjm : j < m := Nat.lt_trans (h.lt_of_parent (by omega) hj) hkm
    have hold := h.ahead k (by omega) hkm p hp hpk' i (by omega) j hj
      (h.anc_of_update hpred hpos hc hjm hij)
    exact h.chain.anc_update_of_le hlt hold (by omega)
  · intro k hk0 hk p hp hpk j hj
    by_cases hkp : k = pos
    · subst hkp
      rw [Function.update_self] at hj
      rw [← Option.some.inj hj, h.chain.anc_update_of_lt hlt hpk]
      exact hc.1 p ⟨hp, Nat.lt_of_lt_of_le hpk h.pos_le⟩
    · rw [Function.update_of_ne hkp] at hj
      rw [h.chain.anc_update_of_lt hlt (by omega)]
      exact h.behind k hk0 (by omega) p hp hpk j hj

end Update

/-- At the end of a sweep the next one can start. -/
theorem rewind (h : DomInv E D n n) : DomInv E D n 1 := by
  refine { h with pos_pos := Nat.one_pos, pos_le := Nat.lt_of_lt_of_le h.pos_pos (Nat.le_refl n),
                  ahead := ?_, behind := ?_ }
  · intro k hk hkn p hp hpk i _ j hj hij
    exact hij.trans (h.behind k hk hkn p hp hpk j hj)
  · intro k hk hk1
    omega

/-- At a fixpoint the ancestors are exactly the dominators. -/
theorem anc_iff_dominates (h : DomInv E D n pos) (hE : ∀ p k, E p k → p < n ∧ k < n)
    (hfix : ∀ i, 0 < i → i < n → ∀ j, D i = some j → IsNca D (fun p => E p i ∧ p < n) j)
    (hk : k < n) : Anc D x k ↔ Dominates E 0 x k := by
  refine ⟨fun hx hav => ?_, h.dom k hk x⟩
  -- along a path that avoids `x`, no node has `x` as an ancestor
  obtain ⟨hx0, hav⟩ := hav
  have hnot : ∀ k, ReflTransGen (fun a b => E a b ∧ b ≠ x) 0 k → ¬ Anc D x k := by
    intro k hpath
    induction hpath with
    | refl => exact fun h0 => hx0 (Nat.le_zero.mp (h.chain.le_of_anc h0)).symm
    | @tail p k _ hpk ih =>
        intro hxk
        by_cases hk0 : k = 0
        · subst hk0
          exact hpk.2 (Nat.le_zero.mp (h.chain.le_of_anc hxk)).symm
        · obtain ⟨hpn, hkn⟩ := hE p k hpk.1
          rcases hxk.cases with heq | ⟨j, hj, hxj⟩
          · exact hpk.2 heq.symm
          · exact ih (hxj.trans ((hfix k (by omega) hkn j hj).1 p ⟨hpk.1, hpn⟩))
  exact hnot k hav hx

end DomInv

end Pliron.Lib
