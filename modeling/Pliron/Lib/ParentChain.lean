/-
  Pliron.Lib.ParentChain

  Trees given by parent pointers that point to smaller numbers.

  `parent k = some j` says that `j` is the parent of `k`; the root `0` is its own
  parent and `none` marks a node that has no parent yet.  `Anc parent x k` says
  that `x` is met when climbing from `k`.  The ancestors of a node form a chain,
  and changing one parent pointer changes the ancestors below the changed node
  only: these are the facts that iterative dominance algorithms rely on.
-/

import Mathlib.Logic.Relation
import Mathlib.Logic.Function.Basic
import Mathlib.Tactic

namespace Pliron.Lib

open Relation

/-- Climbing from `k` along parent pointers meets `x`. -/
def Anc (parent : Nat → Option Nat) (x k : Nat) : Prop :=
  ReflTransGen (fun a b => parent a = some b) k x

/-- The parent pointers of a tree with root `0`, numbered downwards. -/
structure IsParentChain (parent : Nat → Option Nat) : Prop where
  root : parent 0 = some 0
  lt : ∀ {k j}, parent k = some j → k ≠ 0 → j < k

/-- `c` is the nearest common ancestor of the members of `S`. -/
def IsNca (parent : Nat → Option Nat) (S : Nat → Prop) (c : Nat) : Prop :=
  (∀ p, S p → Anc parent c p) ∧ ∀ x, (∀ p, S p → Anc parent x p) → Anc parent x c

variable {parent : Nat → Option Nat} {a b c i j k x y : Nat}

namespace Anc

theorem refl (k : Nat) : Anc parent k k := ReflTransGen.refl

theorem trans (h₁ : Anc parent x y) (h₂ : Anc parent y k) : Anc parent x k :=
  ReflTransGen.trans h₂ h₁

theorem of_parent (h : parent k = some j) (hx : Anc parent x j) : Anc parent x k :=
  ReflTransGen.head h hx

theorem cases (h : Anc parent x k) : x = k ∨ ∃ j, parent k = some j ∧ Anc parent x j := by
  rcases ReflTransGen.cases_head h with rfl | ⟨j, hj, hx⟩
  · exact Or.inl rfl
  · exact Or.inr ⟨j, hj, hx⟩

/-- Induction from the ancestor down to the node that climbs to it. -/
theorem induction {P : Nat → Prop} (h : Anc parent x k) (hx : P x)
    (hstep : ∀ k j, parent k = some j → Anc parent x j → P j → P k) : P k := by
  induction h using ReflTransGen.head_induction_on with
  | refl => exact hx
  | head hkj hjx ih => exact hstep _ _ hkj hjx ih

/-- An ancestor other than the node itself is an ancestor of the parent. -/
theorem parent_of_lt (h : Anc parent x k) (hlt : x < k) (hj : parent k = some j) :
    Anc parent x j := by
  rcases h.cases with rfl | ⟨j', hj', hx⟩
  · exact absurd hlt (Nat.lt_irrefl _)
  · rw [hj] at hj'
    exact Option.some.inj hj' ▸ hx

/-- Nodes that are not below `i` keep their ancestors. -/
theorem update_of_not (hi : ¬ Anc parent i k) (h : Anc parent x k) :
    Anc (Function.update parent i (some c)) x k := by
  refine h.induction (P := fun k => ¬ Anc parent i k → Anc (Function.update parent i (some c)) x k)
    (fun _ => Anc.refl _) (fun k j hkj _ ih hi => ?_) hi
  have hki : k ≠ i := by
    rintro rfl
    exact hi (Anc.refl _)
  exact Anc.of_parent (by rw [Function.update_of_ne hki]; exact hkj)
    (ih (fun hij => hi (Anc.of_parent hkj hij)))

/-- Moving `i` up the tree only loses ancestors. -/
theorem of_update (hanc : Anc parent c i)
    (h : Anc (Function.update parent i (some c)) x k) : Anc parent x k := by
  refine h.induction (Anc.refl _) (fun k j hkj _ ih => ?_)
  by_cases hki : k = i
  · subst hki
    rw [Function.update_self] at hkj
    exact (Option.some.inj hkj ▸ ih).trans hanc
  · rw [Function.update_of_ne hki] at hkj
    exact Anc.of_parent hkj ih

end Anc

/-- The nearest common ancestor of a set, once one more member is added. -/
theorem IsNca.insert {S : Nat → Prop} (hc : IsNca parent S c) {d p : Nat}
    (hd : IsNca parent (fun q => q = p ∨ q = c) d) :
    IsNca parent (fun q => q = p ∨ S q) d := by
  constructor
  · rintro q (rfl | hq)
    · exact hd.1 q (Or.inl rfl)
    · exact (hd.1 c (Or.inr rfl)).trans (hc.1 q hq)
  · intro x hx
    refine hd.2 x ?_
    rintro q (rfl | rfl)
    · exact hx q (Or.inl rfl)
    · exact hc.2 x (fun q hq => hx q (Or.inr hq))

namespace IsParentChain

variable (hp : IsParentChain parent)

include hp

theorem le_of_anc (h : Anc parent x k) : x ≤ k := by
  refine h.induction (Nat.le_refl x) (fun k j hkj _ ih => ?_)
  by_cases hk : k = 0
  · subst hk
    rw [hp.root] at hkj
    exact Option.some.inj hkj ▸ ih
  · exact Nat.le_trans ih (Nat.le_of_lt (hp.lt hkj hk))

/-- The ancestors of a node form a chain. -/
theorem anc_of_le (hx : Anc parent x k) (hy : Anc parent y k) (hxy : x ≤ y) :
    Anc parent x y := by
  refine hy.induction (P := fun k => Anc parent x k → Anc parent x y) id ?_ hx
  intro k j hkj hyj ih hx
  rcases hx.cases with rfl | ⟨j', hj', hx⟩
  · have hjy := hp.le_of_anc hyj
    by_cases hx0 : x = 0
    · subst hx0
      rw [hp.root] at hkj
      have hj0 : j = 0 := (Option.some.inj hkj).symm
      have hy0 : y = 0 := Nat.le_zero.mp (hj0 ▸ hjy)
      rw [hy0]
      exact Anc.refl 0
    · exact absurd (hp.lt hkj hx0) (Nat.not_lt_of_le (Nat.le_trans hxy hjy))
  · rw [hkj] at hj'
    exact ih (Option.some.inj hj' ▸ hx)

/-! ## Changing one parent pointer -/

/-- Making a smaller number the parent of `i` keeps the shape. -/
theorem update (hci : c < i) : IsParentChain (Function.update parent i (some c)) := by
  constructor
  · rw [Function.update_of_ne (by omega)]
    exact hp.root
  · intro k j hkj hk
    by_cases hki : k = i
    · subst hki
      rw [Function.update_self] at hkj
      exact Option.some.inj hkj ▸ hci
    · rw [Function.update_of_ne hki] at hkj
      exact hp.lt hkj hk

omit hp in
/-- Climbing from below `i` only looks at parents below `i`. -/
theorem anc_congr {parent' : Nat → Option Nat} (hp : IsParentChain parent)
    (heq : ∀ k < i, parent k = parent' k) (hk : k < i) (h : Anc parent x k) :
    Anc parent' x k := by
  refine h.induction (P := fun k => k < i → Anc parent' x k) (fun _ => Anc.refl _) ?_ hk
  intro k j hkj _ ih hk
  have hj : j ≤ k := hp.le_of_anc (Anc.of_parent hkj (Anc.refl j))
  exact Anc.of_parent (heq k hk ▸ hkj) (ih (Nat.lt_of_le_of_lt hj hk))

/-- Below `i` nothing changes. -/
theorem anc_update_of_lt (hci : c < i) (hk : k < i) :
    Anc (Function.update parent i (some c)) x k ↔ Anc parent x k := by
  have hother : ∀ k < i, Function.update parent i (some c) k = parent k :=
    fun k hk => Function.update_of_ne (Nat.ne_of_lt hk) _ _
  exact ⟨anc_congr (hp.update hci) hother hk,
    anc_congr hp (fun k hk => (hother k hk).symm) hk⟩

/-- The ancestors of the changed node. -/
theorem anc_update_self (hci : c < i) :
    Anc (Function.update parent i (some c)) x i ↔ x = i ∨ Anc parent x c := by
  constructor
  · intro h
    rcases h.cases with rfl | ⟨j, hj, hx⟩
    · exact Or.inl rfl
    · rw [Function.update_self] at hj
      rw [← Option.some.inj hj] at hx
      exact Or.inr ((hp.anc_update_of_lt hci hci).mp hx)
  · rintro (rfl | h)
    · exact Anc.refl _
    · exact Anc.of_parent (Function.update_self ..) ((hp.anc_update_of_lt hci hci).mpr h)

/-- Ancestors from `i` on are kept. -/
theorem anc_update_of_le (hci : c < i) (h : Anc parent x k) (hix : i ≤ x) :
    Anc (Function.update parent i (some c)) x k := by
  refine h.induction (Anc.refl _) (fun k j hkj hxj ih => ?_)
  have hxj := hp.le_of_anc hxj
  have hki : k ≠ i := by
    rintro rfl
    have hk0 : k ≠ 0 := by omega
    have := hp.lt hkj hk0
    omega
  exact Anc.of_parent (by rw [Function.update_of_ne hki]; exact hkj) ih

/-- A node below `i` whose ancestor is above `i` finds it above the new parent. -/
theorem anc_update_iff_of_anc (hci : c < i) (hi : Anc parent i k) (hxi : x < i) :
    Anc (Function.update parent i (some c)) x k ↔ Anc parent x c := by
  have hi' := hp.anc_update_of_le hci hi (Nat.le_refl i)
  have hp' := hp.update (c := c) hci
  constructor
  · intro h
    have hxi' := hp'.anc_of_le h hi' (Nat.le_of_lt hxi)
    exact ((hp.anc_update_self hci).mp hxi').resolve_left (Nat.ne_of_lt hxi)
  · intro h
    exact ((hp.anc_update_self hci).mpr (Or.inr h)).trans hi'

end IsParentChain

end Pliron.Lib
