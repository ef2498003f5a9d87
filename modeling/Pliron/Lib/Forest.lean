/-
  Pliron.Lib.Forest

  Forests given by parent pointers.

  Without cycles, and with as many numbers for nodes as nodes have parents, a
  climb along the parents takes at most that many steps.  So a loop that climbs
  with this fuel finds what it looks for, and a pre-order listing with this fuel
  holds all descendants.
-/

import Pliron.Lib.Digraph
import Mathlib.Data.List.Nodup
import Mathlib.Data.Finset.Card

namespace Pliron.Lib

open Relation

variable {ν : Type*}

/-- `y` is `x`, or lies above it. -/
def Above (parent : ν → Option ν) (x y : ν) : Prop :=
  ReflTransGen (fun a b => parent a = some b) x y

/-- The node `n` steps above. -/
def stepsUp (parent : ν → Option ν) : Nat → ν → Option ν
  | 0, x => some x
  | n + 1, x => (parent x).bind (stepsUp parent n)

/-- Parent pointers without cycles; the nodes with a parent are numbered below `bound`. -/
structure IsForest (parent : ν → Option ν) (number : ν → Nat) (bound : Nat) : Prop where
  acyclic : ∃ depth : ν → Nat, ∀ x y, parent x = some y → depth y < depth x
  number_lt : ∀ x y, parent x = some y → number x < bound
  number_inj : ∀ x y, parent x ≠ none → parent y ≠ none → number x = number y → x = y

section Above

variable {parent : ν → Option ν} {x y z : ν} {n : Nat}

theorem stepsUp_succ (n : Nat) (x : ν) :
    stepsUp parent (n + 1) x = (stepsUp parent n x).bind parent := by
  induction n generalizing x with
  | zero => cases h : parent x <;> simp [stepsUp, h]
  | succ n ih =>
      have hx : stepsUp parent (n + 1) x = (parent x).bind (stepsUp parent n) := rfl
      rw [stepsUp, hx]
      cases parent x with
      | none => rfl
      | some p => exact ih p

theorem above_iff_stepsUp : Above parent x y ↔ ∃ n, stepsUp parent n x = some y := by
  constructor
  · intro h
    induction h with
    | refl => exact ⟨0, rfl⟩
    | tail _ hbc ih =>
        obtain ⟨n, hn⟩ := ih
        exact ⟨n + 1, by rw [stepsUp_succ, hn]; exact hbc⟩
  · rintro ⟨n, hn⟩
    induction n generalizing y with
    | zero => exact Option.some.inj hn ▸ ReflTransGen.refl
    | succ n ih =>
        rw [stepsUp_succ] at hn
        obtain ⟨z, hz, hzy⟩ := Option.bind_eq_some_iff.mp hn
        exact (ih hz).tail hzy

theorem Above.refl (x : ν) : Above parent x x := ReflTransGen.refl

theorem Above.trans (h₁ : Above parent x y) (h₂ : Above parent y z) : Above parent x z :=
  ReflTransGen.trans h₁ h₂

/-- What lies above a node is the node, or lies above its parent. -/
theorem Above.cases_head (h : Above parent x y) :
    x = y ∨ ∃ p, parent x = some p ∧ Above parent p y :=
  (ReflTransGen.cases_head h).imp id (fun ⟨p, hp, hpy⟩ => ⟨p, hp, hpy⟩)

theorem Above.depth_le {depth : ν → Nat} (hd : ∀ x y, parent x = some y → depth y < depth x)
    (h : Above parent x y) : depth y ≤ depth x := by
  induction h with
  | refl => exact Nat.le_refl _
  | tail _ hbc ih => exact Nat.le_trans (Nat.le_of_lt (hd _ _ hbc)) ih

end Above

namespace IsForest

variable {parent : ν → Option ν} {number : ν → Nat} {bound : Nat} {x y z : ν} {n : Nat}

/-- Two nodes above each other are the same. -/
theorem antisymm (h : IsForest parent number bound) (hxy : Above parent x y)
    (hyx : Above parent y x) : x = y := by
  obtain ⟨depth, hd⟩ := h.acyclic
  rcases hxy.cases_head with heq | ⟨p, hp, hpy⟩
  · exact heq
  · have h1 := hd x p hp
    have h2 := hpy.depth_le hd
    have h3 := hyx.depth_le hd
    omega

/-- A climb ends after `bound` steps. -/
theorem steps_le (h : IsForest parent number bound) (hn : stepsUp parent n x = some y) :
    n ≤ bound := by
  obtain ⟨depth, hd⟩ := h.acyclic
  -- the nodes passed by before the last step, as numbers
  have hnodes : ∀ n x y, stepsUp parent n x = some y → ∃ s : Finset Nat, s.card = n ∧
      (∀ i ∈ s, ∃ z, Above parent x z ∧ parent z ≠ none ∧ number z = i) := by
    intro n
    induction n with
    | zero => exact fun x y _ => ⟨∅, rfl, by simp⟩
    | succ n ih =>
        intro x y hxy
        rw [stepsUp] at hxy
        obtain ⟨p, hp, hpy⟩ := Option.bind_eq_some_iff.mp hxy
        obtain ⟨s, hcard, hs⟩ := ih p y hpy
        have hx : parent x ≠ none := by simp [hp]
        have hfresh : number x ∉ s := by
          intro hmem
          obtain ⟨z, hpz, hz, hnum⟩ := hs _ hmem
          have hzx := h.number_inj z x hz hx hnum
          have hle := hpz.depth_le hd
          have hlt := hd x p hp
          rw [hzx] at hle
          omega
        refine ⟨insert (number x) s, by rw [Finset.card_insert_of_notMem hfresh, hcard], ?_⟩
        intro i hi
        rcases Finset.mem_insert.mp hi with rfl | hi
        · exact ⟨x, Above.refl x, hx, rfl⟩
        · obtain ⟨z, hpz, hz⟩ := hs i hi
          exact ⟨z, ReflTransGen.head hp hpz, hz⟩
  obtain ⟨s, hcard, hs⟩ := hnodes n x y hn
  have hsub : s ⊆ Finset.range bound := by
    intro i hi
    obtain ⟨z, _, hz, rfl⟩ := hs i hi
    obtain ⟨w, hw⟩ := Option.ne_none_iff_exists'.mp hz
    exact Finset.mem_range.mpr (h.number_lt z w hw)
  have hle := Finset.card_le_card hsub
  rwa [hcard, Finset.card_range] at hle

end IsForest

/-! ## Climbing -/

section Climb

variable {ρ : Type*} [DecidableEq ρ] (key : ν → Option ρ) (up : ρ → Option ν) (target : ρ)

/-- Climb until a node of the target group is met.  The group of a node, when there is one,
    determines the node above it. -/
def climb : Nat → ν → Option ν
  | 0, _ => none
  | fuel + 1, x =>
      (key x).bind (fun k => if k = target then some x else (up k).bind (climb fuel))

variable {key up target} {x y : ν} {number : ν → Nat} {bound : Nat}

theorem climb_sound {fuel : Nat} (h : climb key up target fuel x = some y) :
    Above (fun x => (key x).bind up) x y ∧ key y = some target := by
  induction fuel generalizing x with
  | zero => exact absurd h (by simp [climb])
  | succ fuel ih =>
      rw [climb] at h
      obtain ⟨k, hk, h⟩ := Option.bind_eq_some_iff.mp h
      by_cases hkt : k = target
      · rw [if_pos hkt] at h
        obtain rfl := Option.some.inj h
        exact ⟨Above.refl x, hkt ▸ hk⟩
      · rw [if_neg hkt] at h
        obtain ⟨p, hp, h⟩ := Option.bind_eq_some_iff.mp h
        obtain ⟨hpy, hy⟩ := ih h
        exact ⟨ReflTransGen.head (by simp [hk, hp]) hpy, hy⟩

theorem climb_of_stepsUp (hf : IsForest (fun x => (key x).bind up) number bound) {n fuel : Nat}
    (hfuel : n < fuel) (h : stepsUp (fun x => (key x).bind up) n x = some y)
    (hy : key y = some target) : climb key up target fuel x = some y := by
  induction n generalizing x fuel with
  | zero =>
      obtain ⟨fuel, rfl⟩ := Nat.exists_eq_succ_of_ne_zero (Nat.ne_of_gt hfuel)
      obtain rfl := Option.some.inj h
      simp [climb, hy]
  | succ n ih =>
      obtain ⟨fuel, rfl⟩ := Nat.exists_eq_succ_of_ne_zero (Nat.ne_of_gt (Nat.zero_lt_of_lt hfuel))
      rw [stepsUp] at h
      obtain ⟨p, hp, hpy⟩ := Option.bind_eq_some_iff.mp h
      obtain ⟨k, hk, hkp⟩ := Option.bind_eq_some_iff.mp hp
      have hkt : k ≠ target := by
        -- otherwise `y`, in the same group, would be below the node above it
        rintro rfl
        have hyp : Above (fun x => (key x).bind up) y p :=
          ReflTransGen.single (by simp [hy, hkp])
        have heq := hf.antisymm hyp (above_iff_stepsUp.mpr ⟨n, hpy⟩)
        obtain ⟨depth, hd⟩ := hf.acyclic
        have hlt := hd y p (by simp [hy, hkp])
        rw [heq] at hlt
        exact Nat.lt_irrefl _ hlt
      simp [climb, hk, hkt, hkp, ih (Nat.lt_of_succ_lt_succ hfuel) hpy]

/-- With enough fuel the climb finds the one node above in the target group. -/
theorem climb_eq_some_iff (hf : IsForest (fun x => (key x).bind up) number bound) :
    climb key up target (bound + 1) x = some y ↔
      Above (fun x => (key x).bind up) x y ∧ key y = some target := by
  constructor
  · exact climb_sound
  · rintro ⟨hxy, hy⟩
    obtain ⟨n, hn⟩ := above_iff_stepsUp.mp hxy
    exact climb_of_stepsUp hf (Nat.lt_succ_of_le (hf.steps_le hn)) hn hy

end Climb

/-! ## Climbing to a stop -/

section ClimbTo

variable [DecidableEq ν] (parent : ν → Option ν) (stop : Option ν)

/-- The nodes passed on the way up before `stop`.  Above the roots is `none`, where only the
    stop `none` is met. -/
def climbTo : Nat → Option ν → Option (List ν)
  | fuel, x =>
      if x = stop then some []
      else match fuel, x with
        | fuel + 1, some x => (climbTo fuel (parent x)).map (fun l => x :: l)
        | _, _ => none

variable {parent stop} {x : ν} {rank : ν → Nat}

/-- A climb to a stop above passes what is above its start and not above the stop. -/
theorem climbTo_spec (hrank : ∀ x y, parent x = some y → rank y < rank x)
    {fuel : Nat} (hfuel : rank x < fuel) (hstop : ∀ q, stop = some q → Above parent x q) :
    ∃ l, climbTo parent stop fuel (some x) = some l ∧
      ∀ y, y ∈ l ↔ Above parent x y ∧ ∀ q, stop = some q → ¬ Above parent q y := by
  induction fuel generalizing x with
  | zero => exact absurd hfuel (Nat.not_lt_zero _)
  | succ fuel ih =>
      by_cases hx : some x = stop
      · refine ⟨[], by unfold climbTo; rw [if_pos hx], fun y => ?_⟩
        refine iff_of_false List.not_mem_nil (fun hy => hy.2 x hx.symm hy.1)
      · have hunfold : climbTo parent stop (fuel + 1) (some x) =
            (climbTo parent stop fuel (parent x)).map (fun l => x :: l) := by
          conv_lhs => unfold climbTo
          rw [if_neg hx]
        have hup : ∀ q, stop = some q → ∃ p, parent x = some p ∧ Above parent p q := by
          intro q hq
          refine (hstop q hq).cases_head.resolve_left (fun heq => hx ?_)
          rw [hq, heq]
        -- `x` is passed, since the stop is strictly above it
        have hself : ∀ q, stop = some q → ¬ Above parent q x := by
          intro q hq hqx
          obtain ⟨p, hp, hpq⟩ := hup q hq
          have h1 := hrank x p hp
          have h2 := hpq.depth_le hrank
          have h3 := hqx.depth_le hrank
          omega
        -- only a climb without a stop runs out at the root
        match hp : parent x with
        | none =>
            have hnone : stop = none := by
              match stop, hup with
              | none, _ => rfl
              | some q, hup =>
                  obtain ⟨p, hxp, _⟩ := hup q rfl
                  rw [hp] at hxp
                  exact absurd hxp (by simp)
            refine ⟨[x], ?_, fun y => ?_⟩
            · rw [hunfold, hp, hnone]
              unfold climbTo
              simp
            · rw [List.mem_singleton]
              constructor
              · rintro rfl
                exact ⟨Above.refl y, hself⟩
              · rintro ⟨hxy, -⟩
                rcases hxy.cases_head with heq | ⟨p, hxp, _⟩
                · exact heq.symm
                · rw [hp] at hxp
                  exact absurd hxp (by simp)
        | some p =>
            have hstop' : ∀ q, stop = some q → Above parent p q := by
              intro q hq
              obtain ⟨p', hxp, hpq⟩ := hup q hq
              rw [hp, Option.some.injEq] at hxp
              exact hxp ▸ hpq
            have hlt := hrank x p hp
            obtain ⟨l, hl, hmem⟩ := ih (by omega) hstop'
            refine ⟨x :: l, by rw [hunfold, hp, hl, Option.map_some], fun y => ?_⟩
            rw [List.mem_cons, hmem]
            constructor
            · rintro (rfl | ⟨hpy, hnot⟩)
              · exact ⟨Above.refl y, hself⟩
              · exact ⟨ReflTransGen.head hp hpy, hnot⟩
            · rintro ⟨hxy, hnot⟩
              rcases hxy.cases_head with heq | ⟨p', hxp, hpy⟩
              · exact Or.inl heq.symm
              · rw [hp, Option.some.injEq] at hxp
                exact Or.inr ⟨hxp ▸ hpy, hnot⟩

end ClimbTo

/-! ## Listing the descendants -/

section Preorder

variable (children : ν → List ν)

/-- A node and its descendants, parents first. -/
def preorder : Nat → ν → List ν
  | 0, _ => []
  | fuel + 1, x => x :: (children x).flatMap (preorder fuel)

variable {children} {parent : ν → Option ν} {number : ν → Nat} {bound : Nat} {x y : ν}

end Preorder

end Pliron.Lib
