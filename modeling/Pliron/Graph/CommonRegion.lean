/-
  Pliron.Graph.CommonRegion

  Lifting two blocks to a common region, and their nearest common dominator.

  The outer `none` is a failed `expect` or a loop that does not end.
-/

import Pliron.IR.Verify
import Pliron.Lib.Meet

namespace Pliron

open Pliron.Lib

namespace DomTree

variable {α : Type} [DecidableEq α] (t : DomTree α)

/-- Nearest common dominator of two nodes. -/
def nearestCommonDominator (node1 node2 : α) : Option α := do
  (← t.dominators node1).find? (fun node1Dom => t.dominates node1Dom node2)

end DomTree

namespace Context

variable (ctx : Context)

/-- Parent block of a block. -/
def blockParentBlock (block : BlockPtr) : Option BlockPtr := do
  ctx.regionParentBlock (← ctx.blockParentRegion block)

/-- Walk up the ancestor blocks looking for one in a region: the block, or how many blocks were
    passed. -/
def liftLoop (target : RegionPtr) : Nat → Option BlockPtr → Nat → Option (BlockPtr ⊕ Nat)
  | _, none, regionDepth => some (.inr regionDepth)
  | 0, some _, _ => none
  | fuel + 1, some block, regionDepth =>
    if ctx.blockParentRegion block = some target then some (.inl block)
    else liftLoop target fuel (ctx.blockParentBlock block) (regionDepth + 1)

/-- Walk up a number of ancestor blocks, to equalize the depths. -/
def equalize : Nat → Option BlockPtr → Option BlockPtr
  | 0, block => block
  | n + 1, block => equalize n (block.bind ctx.blockParentBlock)

/-- Walk both sides upward in lockstep until a common region is found. -/
def lockstepLoop : Nat → Option BlockPtr → Option BlockPtr → Option (Option (BlockPtr × BlockPtr))
  | fuel + 1, some a, some b =>
    if ctx.blockParentRegion a = ctx.blockParentRegion b then some (some (a, b))
    else lockstepLoop fuel (ctx.blockParentBlock a) (ctx.blockParentBlock b)
  | 0, some _, some _ => none
  | _, _, _ => some none

/-- Tries to update two blocks to blocks in the same region. -/
def tryGetBlocksInSameRegion (a b : BlockPtr) : Option (Option (BlockPtr × BlockPtr)) :=
  match ctx.blockParentRegion a, ctx.blockParentRegion b with
  | some aRegion, some bRegion =>
    if aRegion = bRegion then some (some (a, b))
    else do
      match ← ctx.liftLoop bRegion (ctx.nextBlock + 1) (some a) 0 with
      | .inl block => some (some (block, b))
      | .inr aRegionDepth =>
        match ← ctx.liftLoop aRegion (ctx.nextBlock + 1) (some b) 0 with
        | .inl block => some (some (a, block))
        | .inr bRegionDepth =>
          ctx.lockstepLoop (ctx.nextBlock + 1)
            (ctx.equalize (aRegionDepth - bRegionDepth) (some a))
            (ctx.equalize (bRegionDepth - aRegionDepth) (some b))
  | _, _ => some none

end Context

namespace DomInfo

variable (ctx : Context)

/-- Find the nearest common dominator of two blocks, if it exists. -/
def nearestCommonDominator (a b : BlockPtr) : StateT DomInfo Option (Option BlockPtr) :=
  if a = b then pure (some a)
  else do
    match ← StateT.lift (ctx.tryGetBlocksInSameRegion a b) with
    | none => pure none
    | some (a, b) =>
      if a = b then pure (some a)
      else do
        let region ← StateT.lift (ctx.blockParentRegion a)
        let tree ← getDomTree ctx region
        let d ← StateT.lift (tree.nearestCommonDominator a b)
        pure (some d)

end DomInfo

/-! ## The common region -/

namespace Context

section Spec

variable (ctx : Context)

/-- `ancestor` is `block` or contains it, and lies directly in `region`. -/
def IsAncestorBlockIn (region : RegionPtr) (block ancestor : BlockPtr) : Prop :=
  Above ctx.blockParentBlock block ancestor ∧ ctx.blockParentRegion ancestor = some region

/-- A region contains a block, at any depth. -/
def RegionContains (region : RegionPtr) (block : BlockPtr) : Prop :=
  ∃ ancestor, ctx.IsAncestorBlockIn region block ancestor

/-- The deepest region that contains both blocks: all others that do are around it. -/
structure IsDeepestCommon (region : RegionPtr) (a b : BlockPtr) : Prop where
  left : ctx.RegionContains region a
  right : ctx.RegionContains region b
  deepest : ∀ outer, ctx.RegionContains outer a → ctx.RegionContains outer b →
    ctx.Inside (.region outer) (.region region)

/-- Lifting gives the ancestors in the deepest region that contains both blocks, and nothing
    exactly if there is no such region. -/
def LiftExact (a b : BlockPtr) : Prop :=
  ∃ lifted, ctx.tryGetBlocksInSameRegion a b = some lifted ∧
    match lifted with
    | some (x, y) => ∃ region, ctx.IsDeepestCommon region a b ∧
        ctx.IsAncestorBlockIn region a x ∧ ctx.IsAncestorBlockIn region b y
    | none => ∀ region, ¬ (ctx.RegionContains region a ∧ ctx.RegionContains region b)

/-- The outermost region around a block, and the block in no region that it lies in. -/
def OutermostDetached (region : RegionPtr) (block : BlockPtr) : Prop :=
  ∃ outer root, ctx.IsAncestorBlockIn region block outer ∧
    ctx.blockParentBlock outer = some root ∧ ctx.blockParentRegion root = none

/-- The outermost regions around two blocks differ, and the blocks they lie in are in no region. -/
def DetachedApart (a b : BlockPtr) : Prop :=
  ∃ r s, r ≠ s ∧ ctx.OutermostDetached r a ∧ ctx.OutermostDetached s b

end Spec

variable {ctx : Context} {a b x y : BlockPtr} {region r s : RegionPtr}

/-- What lies above a block is around its region. -/
theorem inside_of_above {outer : RegionPtr} (hx : ctx.blockParentRegion x = some region)
    (hxy : Above ctx.blockParentBlock x y) (hy : ctx.blockParentRegion y = some outer) :
    ctx.Inside (.region outer) (.region region) := by
  induction hxy using Relation.ReflTransGen.head_induction_on generalizing region with
  | refl =>
      obtain rfl := Option.some.inj (hx.symm.trans hy)
      exact Above.refl _
  | @head x p hp _ ih =>
      have hup : ctx.regionParentBlock region = some p := by
        rw [← hp, blockParentBlock, hx]
        rfl
      rw [regionParentBlock_eq] at hup
      obtain ⟨op, hop, hpblock⟩ := Option.bind_eq_some_iff.mp hup
      have hregion : ctx.parentNode (.region region) = some (.operation op) := by
        rw [parentNode, hop]
        rfl
      have hopblock : ctx.parentNode (.operation op) = some (.basicBlock p) := by
        rw [parentNode, hpblock]
        rfl
      refine Relation.ReflTransGen.head hregion (Relation.ReflTransGen.head hopblock ?_)
      cases hpr : ctx.blockParentRegion p with
      | none =>
          -- nothing is above a block in no region
          rename_i hpy
          rcases hpy.cases_head with rfl | ⟨q, hq, -⟩
          · rw [hpr] at hy
            cases hy
          · rw [blockParentBlock, hpr] at hq
            cases hq
      | some r =>
          have hblock : ctx.parentNode (.basicBlock p) = some (.region r) := by
            rw [parentNode, hpr]
            rfl
          exact Relation.ReflTransGen.head hblock (ih hpr)

/-- The lowest blocks in a common region are in the deepest one. -/
theorem deepest_of_isMeet
    (hmeet : IsMeet ctx.blockParentRegion ctx.regionParentBlock a b x y)
    (hx : ctx.blockParentRegion x = some region) (hy : ctx.blockParentRegion y = some region) :
    ctx.IsDeepestCommon region a b := by
  refine ⟨⟨x, hmeet.left, hx⟩, ⟨y, hmeet.right, hy⟩, ?_⟩
  rintro outer ⟨u, hu, huk⟩ ⟨v, hv, hvk⟩
  exact inside_of_above hx (hmeet.lowest u v outer hu hv huk hvk).1 huk

theorem noMeet_iff : NoMeet ctx.blockParentRegion ctx.regionParentBlock a b ↔
    ∀ region, ¬ (ctx.RegionContains region a ∧ ctx.RegionContains region b) := by
  constructor
  · rintro hno region ⟨⟨u, hu, huk⟩, v, hv, hvk⟩
    exact hno u v region hu hv huk hvk
  · exact fun hno u v region hu hv huk hvk => hno region ⟨⟨u, hu, huk⟩, v, hv, hvk⟩

/-! ## The loops -/

theorem liftLoop_none {fuel depth : Nat} :
    ctx.liftLoop region fuel none depth = some (.inr depth) := by
  cases fuel <;> rfl

/-- Walking up finds the ancestor in a region, or counts the blocks: induction on the height. -/
theorem liftLoop_spec {n fuel depth : Nat} (hx : Height ctx.blockParentBlock x n)
    (hfuel : n < fuel) :
    (∃ y, ctx.liftLoop region fuel (some x) depth = some (.inl y) ∧
      ctx.IsAncestorBlockIn region x y) ∨
    (ctx.liftLoop region fuel (some x) depth = some (.inr (depth + n + 1)) ∧
      ∀ y, ¬ ctx.IsAncestorBlockIn region x y) := by
  induction n generalizing x fuel depth with
  | zero =>
      obtain ⟨fuel, rfl⟩ := Nat.exists_eq_succ_of_ne_zero (Nat.ne_of_gt hfuel)
      rw [Height.zero_iff] at hx
      rw [liftLoop]
      by_cases hkey : ctx.blockParentRegion x = some region
      · rw [if_pos hkey]
        exact Or.inl ⟨x, rfl, Above.refl x, hkey⟩
      · rw [if_neg hkey, hx, liftLoop_none]
        refine Or.inr ⟨rfl, fun y hy => ?_⟩
        rcases hy.1.cases_head with rfl | ⟨p, hp, -⟩
        · exact hkey hy.2
        · rw [hx] at hp
          exact nomatch hp
  | succ n ih =>
      obtain ⟨fuel, rfl⟩ := Nat.exists_eq_succ_of_ne_zero (Nat.ne_of_gt (Nat.zero_lt_of_lt hfuel))
      obtain ⟨p, hp, hpn⟩ := Height.succ_iff.mp hx
      rw [liftLoop]
      by_cases hkey : ctx.blockParentRegion x = some region
      · rw [if_pos hkey]
        exact Or.inl ⟨x, rfl, Above.refl x, hkey⟩
      · rw [if_neg hkey, hp]
        rcases @ih p fuel (depth + 1) hpn (Nat.lt_of_succ_lt_succ hfuel) with
          ⟨y, hrun, hy⟩ | ⟨hrun, hno⟩
        · exact Or.inl ⟨y, hrun, Relation.ReflTransGen.head hp hy.1, hy.2⟩
        · refine Or.inr ⟨by rw [hrun]; congr 2; omega, fun y hy => ?_⟩
          rcases hy.1.cases_head with rfl | ⟨p', hp', hpy⟩
          · exact hkey hy.2
          · exact hno y ⟨Option.some.inj (hp.symm.trans hp') ▸ hpy, hy.2⟩

theorem equalize_none (n : Nat) : ctx.equalize n none = none := by
  induction n with
  | zero => rfl
  | succ n ih => exact ih

theorem equalize_eq (n : Nat) (x : BlockPtr) :
    ctx.equalize n (some x) = stepsUp ctx.blockParentBlock n x := by
  induction n generalizing x with
  | zero => rfl
  | succ n ih =>
      rw [equalize, stepsUp, Option.bind_some]
      cases hp : ctx.blockParentBlock x with
      | none => exact equalize_none n
      | some p => exact ih p

/-- What lifting can give. -/
inductive LiftOutcome (ctx : Context) (a b : BlockPtr) : Option (BlockPtr × BlockPtr) → Prop
  | common {x y : BlockPtr} (h : IsMeet ctx.blockParentRegion ctx.regionParentBlock a b x y) :
      LiftOutcome ctx a b (some (x, y))
  | apart (h : NoMeet ctx.blockParentRegion ctx.regionParentBlock a b)
      (hroot : ¬ ∃ x y, Above ctx.blockParentBlock a x ∧ Above ctx.blockParentBlock b y ∧
        ctx.blockParentRegion x = none ∧ ctx.blockParentRegion y = none) :
      LiftOutcome ctx a b none
  | detached {x y : BlockPtr} (h : NoMeet ctx.blockParentRegion ctx.regionParentBlock a b)
      (hx : Above ctx.blockParentBlock a x) (hy : Above ctx.blockParentBlock b y)
      (hxr : ctx.blockParentRegion x = none) (hyr : ctx.blockParentRegion y = none) :
      LiftOutcome ctx a b (some (x, y))

theorem blockParentBlock_eq_none (hx : ctx.blockParentRegion x = none) :
    ctx.blockParentBlock x = none := by
  rw [blockParentBlock, hx]
  rfl

/-- Nothing is above a block in no region. -/
theorem eq_of_above_detached (hx : ctx.blockParentRegion x = none)
    (hxy : Above ctx.blockParentBlock x y) : x = y := by
  rcases hxy.cases_head with heq | ⟨p, hp, -⟩
  · exact heq
  · rw [blockParentBlock_eq_none hx] at hp
    exact nomatch hp

/-- A block in no region is above everything that a climb to it passes. -/
theorem above_detached (hay : Above ctx.blockParentBlock a y)
    (hax : Above ctx.blockParentBlock a x) (hx : ctx.blockParentRegion x = none) :
    Above ctx.blockParentBlock y x := by
  rcases hay.total hax with hyx | hxy
  · exact hyx
  · rw [eq_of_above_detached hx hxy]
    exact Above.refl y

theorem above_parent_detached {p : BlockPtr} (hp : ctx.blockParentBlock a = some p)
    (hax : Above ctx.blockParentBlock a x) (hx : ctx.blockParentRegion x = none) :
    Above ctx.blockParentBlock p x :=
  above_detached (Relation.ReflTransGen.single hp) hax hx

/-- Two blocks in one region are where they meet, and two blocks in no region are both taken. -/
theorem LiftOutcome.of_group (hkey : ctx.blockParentRegion a = ctx.blockParentRegion b) :
    LiftOutcome ctx a b (some (a, b)) := by
  cases ha : ctx.blockParentRegion a with
  | none =>
      refine .detached (fun u v k hu _ hku _ => ?_) (Above.refl a) (Above.refl b) ha
        (hkey ▸ ha)
      rw [← eq_of_above_detached ha hu, ha] at hku
      exact nomatch hku
  | some r => exact .common (.self ha (hkey ▸ ha))

/-- One step of the walk in lockstep keeps the outcome. -/
theorem LiftOutcome.of_parents {n : Nat} {p q : BlockPtr} {lifted : Option (BlockPtr × BlockPtr)}
    (ha : Height ctx.blockParentBlock a n) (hb : Height ctx.blockParentBlock b n)
    (hp : ctx.blockParentBlock a = some p) (hq : ctx.blockParentBlock b = some q)
    (hkey : ctx.blockParentRegion a ≠ ctx.blockParentRegion b)
    (hout : LiftOutcome ctx p q lifted) : LiftOutcome ctx a b lifted := by
  have hpair : ∀ u v k, Above ctx.blockParentBlock a u → Above ctx.blockParentBlock b v →
      ctx.blockParentRegion u = some k → ctx.blockParentRegion v = some k →
        Above ctx.blockParentBlock p u ∧ Above ctx.blockParentBlock q v := by
    intro u v k hu hv hku hkv
    obtain ⟨p', q', hp', hq', hpu, hqv⟩ := above_parents ha hb hkey hu hv hku hkv
    obtain rfl := Option.some.inj (hp.symm.trans hp')
    obtain rfl := Option.some.inj (hq.symm.trans hq')
    exact ⟨hpu, hqv⟩
  cases hout with
  | common h =>
      refine .common ⟨.head hp h.left, .head hq h.right, h.group, fun u v k hu hv hku hkv => ?_⟩
      obtain ⟨hpu, hqv⟩ := hpair u v k hu hv hku hkv
      exact h.lowest u v k hpu hqv hku hkv
  | apart h hroot =>
      refine .apart (fun u v k hu hv hku hkv => ?_) ?_
      · obtain ⟨hpu, hqv⟩ := hpair u v k hu hv hku hkv
        exact h u v k hpu hqv hku hkv
      · rintro ⟨x, y, hx, hy, hxr, hyr⟩
        exact hroot ⟨x, y, above_parent_detached hp hx hxr, above_parent_detached hq hy hyr, hxr,
          hyr⟩
  | detached h hx hy hxr hyr =>
      refine .detached (fun u v k hu hv hku hkv => ?_) (.head hp hx) (.head hq hy) hxr hyr
      obtain ⟨hpu, hqv⟩ := hpair u v k hu hv hku hkv
      exact h u v k hpu hqv hku hkv

/-- Climbing to the height of the other block keeps the outcome. -/
theorem LiftOutcome.of_left {n : Nat} {lifted : Option (BlockPtr × BlockPtr)}
    (hnest : ctx.WellNested) (hax : Above ctx.blockParentBlock a x)
    (hx : Height ctx.blockParentBlock x n) (hb : Height ctx.blockParentBlock b n)
    (hout : LiftOutcome ctx x b lifted) : LiftOutcome ctx a b lifted := by
  cases hout with
  | common h => exact .common (h.of_climb hnest.isForest_block hax hx hb)
  | apart h hroot =>
      refine .apart (h.of_climb hnest.isForest_block hax hx hb) ?_
      rintro ⟨u, v, hu, hv, hur, hvr⟩
      exact hroot ⟨u, v, above_detached hax hu hur, hv, hur, hvr⟩
  | detached h hu hv hur hvr =>
      exact .detached (h.of_climb hnest.isForest_block hax hx hb) (hax.trans hu) hv hur hvr

theorem LiftOutcome.of_right {n : Nat} {lifted : Option (BlockPtr × BlockPtr)}
    (hnest : ctx.WellNested) (hbx : Above ctx.blockParentBlock b x)
    (hx : Height ctx.blockParentBlock x n) (ha : Height ctx.blockParentBlock a n)
    (hout : LiftOutcome ctx a x lifted) : LiftOutcome ctx a b lifted := by
  cases hout with
  | common h => exact .common (h.symm.of_climb hnest.isForest_block hbx hx ha).symm
  | apart h hroot =>
      refine .apart (h.symm.of_climb hnest.isForest_block hbx hx ha).symm ?_
      rintro ⟨u, v, hu, hv, hur, hvr⟩
      exact hroot ⟨u, v, hu, above_detached hbx hv hvr, hur, hvr⟩
  | detached h hu hv hur hvr =>
      exact .detached (h.symm.of_climb hnest.isForest_block hbx hx ha).symm hu (hbx.trans hv) hur
        hvr

/-- The walk in lockstep: induction on the height of the two blocks. -/
theorem lockstepLoop_spec {n fuel : Nat} (ha : Height ctx.blockParentBlock a n)
    (hb : Height ctx.blockParentBlock b n) (hfuel : n < fuel) :
    ∃ lifted, ctx.lockstepLoop fuel (some a) (some b) = some lifted ∧
      LiftOutcome ctx a b lifted := by
  induction n generalizing a b fuel with
  | zero =>
      obtain ⟨fuel, rfl⟩ := Nat.exists_eq_succ_of_ne_zero (Nat.ne_of_gt hfuel)
      rw [lockstepLoop]
      by_cases hkey : ctx.blockParentRegion a = ctx.blockParentRegion b
      · rw [if_pos hkey]
        exact ⟨_, rfl, .of_group hkey⟩
      · rw [Height.zero_iff] at ha hb
        rw [if_neg hkey, ha, hb]
        have htop : ∀ {z w}, ctx.blockParentBlock z = none → Above ctx.blockParentBlock z w →
            z = w := by
          intro z w hz hzw
          rcases hzw.cases_head with heq | ⟨p, hp, -⟩
          · exact heq
          · rw [hz] at hp
            exact nomatch hp
        refine ⟨none, by cases fuel <;> rfl, .apart (fun u v k hu hv hku hkv => ?_) ?_⟩
        · rw [← htop ha hu] at hku
          rw [← htop hb hv] at hkv
          exact hkey (hku.trans hkv.symm)
        · rintro ⟨x, y, hx, hy, hxr, hyr⟩
          rw [← htop ha hx] at hxr
          rw [← htop hb hy] at hyr
          exact hkey (hxr.trans hyr.symm)
  | succ n ih =>
      obtain ⟨fuel, rfl⟩ := Nat.exists_eq_succ_of_ne_zero (Nat.ne_of_gt (Nat.zero_lt_of_lt hfuel))
      rw [lockstepLoop]
      by_cases hkey : ctx.blockParentRegion a = ctx.blockParentRegion b
      · rw [if_pos hkey]
        exact ⟨_, rfl, .of_group hkey⟩
      · obtain ⟨p, hp, hpn⟩ := Height.succ_iff.mp ha
        obtain ⟨q, hq, hqn⟩ := Height.succ_iff.mp hb
        rw [if_neg hkey, hp, hq]
        obtain ⟨lifted, hrun, hout⟩ := ih hpn hqn (Nat.lt_of_succ_lt_succ hfuel)
        exact ⟨lifted, hrun, hout.of_parents ha hb hp hq hkey⟩

/-! ## Lifting -/

theorem height_lt (hnest : ctx.WellNested) (x : BlockPtr) :
    ∃ n < ctx.nextBlock + 1, Height ctx.blockParentBlock x n := by
  obtain ⟨n, hle, hn⟩ := hnest.isForest_block.exists_height x
  exact ⟨n, Nat.lt_succ_of_le hle, hn⟩

/-- Lifting two blocks that are in regions. -/
theorem tryGetBlocksInSameRegion_spec (hnest : ctx.WellNested)
    (ha : ctx.blockParentRegion a = some r) (hb : ctx.blockParentRegion b = some s) :
    ∃ lifted, ctx.tryGetBlocksInSameRegion a b = some lifted ∧ LiftOutcome ctx a b lifted := by
  obtain ⟨m, hm, ham⟩ := height_lt hnest a
  obtain ⟨n, hn, hbn⟩ := height_lt hnest b
  rw [tryGetBlocksInSameRegion, ha, hb]
  by_cases hrs : r = s
  · exact ⟨_, if_pos hrs, .of_group (by rw [ha, hb, hrs])⟩
  · simp only [if_neg hrs]
    rcases @liftLoop_spec ctx a s m _ 0 ham hm with ⟨x, hrun, hx⟩ | ⟨hrun, -⟩
    · rw [hrun]
      exact ⟨_, rfl, .common (.of_left hnest.isForest_block hx.1 hx.2 hb)⟩
    · rw [hrun, Option.bind_eq_bind, Option.bind_some]
      rcases @liftLoop_spec ctx b r n _ 0 hbn hn with ⟨y, hrun', hy⟩ | ⟨hrun', -⟩
      · simp only [hrun']
        exact ⟨_, rfl, .common (IsMeet.of_left hnest.isForest_block hy.1 hy.2 ha).symm⟩
      · simp only [hrun', Option.bind_some, equalize_eq]
        -- one of the two climbs is empty, the other one ends at the same height
        rcases Nat.le_total n m with hle | hle
        · obtain ⟨x, hx, hxn⟩ := ham.exists_above hle
          have hab : 0 + m + 1 - (0 + n + 1) = m - n := by omega
          have hba : 0 + n + 1 - (0 + m + 1) = 0 := by omega
          rw [hab, hba, hx, stepsUp]
          obtain ⟨lifted, hrun'', hout⟩ := lockstepLoop_spec hxn hbn hn
          exact ⟨lifted, hrun'', hout.of_left hnest (above_iff_stepsUp.mpr ⟨_, hx⟩) hxn hbn⟩
        · obtain ⟨y, hy, hym⟩ := hbn.exists_above hle
          have hab : 0 + m + 1 - (0 + n + 1) = 0 := by omega
          have hba : 0 + n + 1 - (0 + m + 1) = n - m := by omega
          rw [hab, hba, hy, stepsUp]
          obtain ⟨lifted, hrun'', hout⟩ := lockstepLoop_spec ham hym hm
          exact ⟨lifted, hrun'', hout.of_right hnest (above_iff_stepsUp.mpr ⟨_, hy⟩) hym ham⟩

/-- The outermost regions differ and are detached exactly when no region contains both blocks and
    both climbs end in a block in no region. -/
theorem detachedApart_iff : ctx.DetachedApart a b ↔
    ctx.blockParentRegion a ≠ none ∧ ctx.blockParentRegion b ≠ none ∧
      NoMeet ctx.blockParentRegion ctx.regionParentBlock a b ∧
      ∃ x y, Above ctx.blockParentBlock a x ∧ Above ctx.blockParentBlock b y ∧
        ctx.blockParentRegion x = none ∧ ctx.blockParentRegion y = none := by
  constructor
  · rintro ⟨r, s, hrs, ⟨x, p, hx, hp, hpr⟩, y, q, hy, hq, hqr⟩
    have hup : ∀ {z w t}, ctx.blockParentRegion z = some t → ctx.blockParentBlock z = some w →
        ctx.regionParentBlock t = some w := by
      intro z w t hz hw
      rw [← hw, blockParentBlock, hz]
      rfl
    have hkey : ∀ {z w}, Above ctx.blockParentBlock z w → ctx.blockParentRegion w ≠ none →
        ctx.blockParentRegion z ≠ none :=
      fun hzw hw hz => hw (eq_of_above_detached hz hzw ▸ hz)
    refine ⟨hkey hx.1 (by rw [hx.2]; nofun), hkey hy.1 (by rw [hy.2]; nofun), ?_, p, q,
      hx.1.tail hp, hy.1.tail hq, hpr, hqr⟩
    exact .of_top hrs hx.1 hx.2 (hup hx.2 hp) hpr hy.1 hy.2 (hup hy.2 hq) hqr
  · rintro ⟨ha, hb, hno, x, y, hx, hy, hxr, hyr⟩
    have hlast : ∀ {z w}, ctx.blockParentRegion z ≠ none → Above ctx.blockParentBlock z w →
        ctx.blockParentRegion w = none → ∃ r, ctx.OutermostDetached r z := by
      intro z w hz hzw hw
      rcases Relation.ReflTransGen.cases_tail hzw with rfl | ⟨o, hzo, ho⟩
      · exact absurd hw hz
      · obtain ⟨r, hr, -⟩ := Option.bind_eq_some_iff.mp ho
        exact ⟨r, o, w, ⟨hzo, hr⟩, ho, hw⟩
    obtain ⟨r, hr⟩ := hlast ha hx hxr
    obtain ⟨s, hs⟩ := hlast hb hy hyr
    refine ⟨r, s, ?_, hr, hs⟩
    rintro rfl
    obtain ⟨u, -, hu, -⟩ := hr
    obtain ⟨v, -, hv, -⟩ := hs
    exact hno u v r hu.1 hv.1 hu.2 hv.2

/-- Lifting is exact but for blocks in different detached trees. -/
theorem liftExact_iff (hnest : ctx.WellNested) : ctx.LiftExact a b ↔ ¬ ctx.DetachedApart a b := by
  cases ha : ctx.blockParentRegion a with
  | none =>
      refine iff_of_true ⟨none, ?_, ?_⟩ fun hdet => (detachedApart_iff.mp hdet).1 ha
      · rw [tryGetBlocksInSameRegion, ha]
      · rintro region ⟨⟨u, hu, huk⟩, -⟩
        rw [← eq_of_above_detached ha hu, ha] at huk
        exact nomatch huk
  | some r =>
      cases hb : ctx.blockParentRegion b with
      | none =>
          refine iff_of_true ⟨none, ?_, ?_⟩ fun hdet => (detachedApart_iff.mp hdet).2.1 hb
          · rw [tryGetBlocksInSameRegion, ha, hb]
          · rintro region ⟨-, v, hv, hvk⟩
            rw [← eq_of_above_detached hb hv, hb] at hvk
            exact nomatch hvk
      | some s =>
          obtain ⟨lifted, hrun, hout⟩ := tryGetBlocksInSameRegion_spec hnest ha hb
          cases hout with
          | common h =>
              obtain ⟨k, hxk, hyk⟩ := h.group
              refine iff_of_true ⟨_, hrun, k, deepest_of_isMeet h hxk hyk, ⟨h.left, hxk⟩, h.right,
                hyk⟩ fun hdet => ?_
              exact (detachedApart_iff.mp hdet).2.2.1 _ _ k h.left h.right hxk hyk
          | apart h hroot =>
              refine iff_of_true ⟨_, hrun, noMeet_iff.mp h⟩ fun hdet => ?_
              exact hroot (detachedApart_iff.mp hdet).2.2.2
          | @detached x y h hx hy hxr hyr =>
              refine iff_of_false ?_ (not_not_intro (detachedApart_iff.mpr
                ⟨by rw [ha]; nofun, by rw [hb]; nofun, h, x, y, hx, hy, hxr, hyr⟩))
              rintro ⟨lifted, hrun', hexact⟩
              obtain rfl := Option.some.inj (hrun.symm.trans hrun')
              obtain ⟨region, hdeepest, -⟩ := hexact
              exact noMeet_iff.mp h region ⟨hdeepest.left, hdeepest.right⟩

end Context

/-! ## The nearest common dominator -/

namespace IsDomTree

variable {α : Type} [DecidableEq α] {g : ControlFlowGraph α} {t : DomTree α} {e u v : α}

/-- The first of the dominators of a node that dominates another node: induction on the fuel, up
    the tree from `u`. -/
theorem dominatorsLoop_find (h : IsDomTree g e t) (hv : Reach g.Edge e v) (fuel : Nat) :
    ∀ u, Reach g.Edge e u → t.dominatorsMap.keys.idxOf u < fuel →
      ∃ l n, t.dominatorsLoop fuel (some u) = some l ∧
        l.find? (fun d => t.dominates d v) = some n ∧ Dominates g.Edge e n u ∧
        Dominates g.Edge e n v ∧
        ∀ d, Dominates g.Edge e d u → Dominates g.Edge e d v → Dominates g.Edge e d n := by
  induction fuel with
  | zero => exact fun u _ hfuel => absurd hfuel (Nat.not_lt_zero _)
  | succ fuel ih =>
      intro u hu hfuel
      by_cases huv : Dominates g.Edge e u v
      · -- the node dominates the other one itself
        have hfind : t.dominates u v = true := (h.dominates_iff hv).mpr huv
        have hloop : ∃ l, t.dominatorsLoop (fuel + 1) (some u) = some (u :: l) := by
          by_cases hue : u = e
          · refine ⟨[], ?_⟩
            rw [DomTree.dominatorsLoop, h.idom_eq hu, hue, h.parent_root]
            cases fuel <;> rfl
          · obtain ⟨p, hp, hpu, -, hlt⟩ := h.parent u hu hue
            obtain ⟨l, n, hl, -⟩ := ih p (hpu.1.reach hu).1 (by omega)
            refine ⟨l, ?_⟩
            rw [DomTree.dominatorsLoop, h.idom_eq hu, hp, Option.bind_eq_bind, Option.bind_some, hl]
            rfl
        obtain ⟨l, hl⟩ := hloop
        refine ⟨u :: l, u, hl, ?_, Dominates.refl u, huv, fun d hdu _ => hdu⟩
        exact List.find?_cons_of_pos hfind
      · -- the root dominates every node
        have hue : u ≠ e := by
          rintro rfl
          exact huv (Dominates.root v)
        have hfind : ¬ t.dominates u v = true := mt (h.dominates_iff hv).mp huv
        obtain ⟨p, hp, hpu, hidom, hlt⟩ := h.parent u hu hue
        obtain ⟨l, n, hl, hn, hnp, hnv, hnearest⟩ := ih p (hpu.1.reach hu).1 (by omega)
        refine ⟨u :: l, n, ?_, ?_, hnp.trans hpu.1, hnv, fun d hdu hdv => ?_⟩
        · rw [DomTree.dominatorsLoop, h.idom_eq hu, hp, Option.bind_eq_bind, Option.bind_some, hl]
          rfl
        · exact (List.find?_cons_of_neg (p := fun d => t.dominates d v) hfind).trans hn
        · have hdne : d ≠ u := by
            rintro rfl
            exact huv hdv
          exact hnearest d (hidom d ⟨hdu, hdne⟩) hdv

/-- Of the common dominators of two reachable nodes, the tree gives the one that all others
    dominate. -/
theorem nearestCommonDominator_spec (h : IsDomTree g e t) (hu : Reach g.Edge e u)
    (hv : Reach g.Edge e v) : ∃ n, t.nearestCommonDominator u v = some n ∧
      Dominates g.Edge e n u ∧ Dominates g.Edge e n v ∧
      ∀ d, Dominates g.Edge e d u → Dominates g.Edge e d v → Dominates g.Edge e d n := by
  have hlt := List.idxOf_lt_length_of_mem ((h.mem_keys u).mpr hu)
  rw [IMap.keys, List.length_map] at hlt
  obtain ⟨l, n, hl, hn, hspec⟩ :=
    h.dominatorsLoop_find hv (t.dominatorsMap.length + 1) u hu (Nat.lt_succ_of_lt hlt)
  refine ⟨n, ?_, hspec⟩
  rw [DomTree.nearestCommonDominator, DomTree.dominators, hl]
  exact hn

end IsDomTree

namespace Context

variable (ctx : Context)

/-- Every path from the entry of the region of `d` to `block`, or to the block of the region that
    contains it, passes `d`. -/
def BlockDominates (d block : BlockPtr) : Prop :=
  d = block ∨ ∃ region x, ctx.blockParentRegion d = some region ∧
    ctx.IsAncestorBlockIn region block x ∧
    ∀ e, ctx.entryBlock region = some e → Dominates (ctx.regionGraph region).Edge e d x

/-- The blocks that two blocks are lifted to are reachable from the entry of their region. -/
def LiftReachable (a b : BlockPtr) : Prop :=
  ∀ region x, ctx.IsDeepestCommon region a b →
    ctx.IsAncestorBlockIn region a x ∨ ctx.IsAncestorBlockIn region b x →
      (ctx.regionGraph region).Reachable x

/-- The query gives the block that dominates both and is dominated by every other one that does,
    if there is one. -/
def NearestExact (a b : BlockPtr) : Prop :=
  ∃ nearest, Returns (DomInfo.Valid ctx) (DomInfo.nearestCommonDominator ctx a b) nearest ∧
    match nearest with
    | some d => ctx.BlockDominates d a ∧ ctx.BlockDominates d b ∧
        ∀ d', ctx.BlockDominates d' a → ctx.BlockDominates d' b → ctx.BlockDominates d' d
    | none => ∀ d, ¬ (ctx.BlockDominates d a ∧ ctx.BlockDominates d b)

variable {ctx} {a b d x y : BlockPtr} {region : RegionPtr}

/-- Two different blocks with a common dominator: both are inside its region, or in it. -/
theorem BlockDominates.common (hab : a ≠ b) (ha : ctx.BlockDominates d a)
    (hb : ctx.BlockDominates d b) : ∃ region u v, ctx.blockParentRegion d = some region ∧
      ctx.IsAncestorBlockIn region a u ∧ ctx.IsAncestorBlockIn region b v ∧
      ∀ e, ctx.entryBlock region = some e →
        Dominates (ctx.regionGraph region).Edge e d u ∧
          Dominates (ctx.regionGraph region).Edge e d v := by
  rcases ha with rfl | ⟨region, u, hd, hu, hdu⟩
  · rcases hb with heq | ⟨region, v, hd, hv, hdv⟩
    · exact absurd heq hab
    · exact ⟨region, d, v, hd, ⟨Above.refl d, hd⟩, hv, fun e he => ⟨Dominates.refl d, hdv e he⟩⟩
  · rcases hb with rfl | ⟨region', v, hd', hv, hdv⟩
    · exact ⟨region, u, d, hd, hu, ⟨Above.refl d, hd⟩, fun e he => ⟨hdu e he, Dominates.refl d⟩⟩
    · obtain rfl := Option.some.inj (hd.symm.trans hd')
      exact ⟨region, u, v, hd, hu, hv, fun e he => ⟨hdu e he, hdv e he⟩⟩

/-- What is above one block of a region, and not in it, is above all of its blocks. -/
theorem above_of_region {n u : BlockPtr} {outer : RegionPtr}
    (hx : ctx.blockParentRegion x = some region) (hn : ctx.blockParentRegion n = some region)
    (hxu : Above ctx.blockParentBlock x u) (hu : ctx.blockParentRegion u = some outer)
    (hne : outer ≠ region) : Above ctx.blockParentBlock n u := by
  rcases hxu.cases_head with rfl | ⟨p, hp, hpu⟩
  · exact absurd (Option.some.inj (hu.symm.trans hx)) hne
  · refine Relation.ReflTransGen.head ?_ hpu
    rw [← hp, blockParentBlock, blockParentBlock, hx, hn]

/-- Two blocks of a region that are above each other are the same. -/
theorem eq_of_above_of_region (hnest : ctx.WellNested) (hx : ctx.blockParentRegion x = some region)
    (hy : ctx.blockParentRegion y = some region) (hxy : Above ctx.blockParentBlock x y) :
    x = y := by
  obtain ⟨n, -, hn⟩ := hnest.isForest_block.exists_height x
  exact hxy.eq_of_height hn (hn.of_group hx hy)

/-- A dominator of the lifted blocks that all other ones in their region dominate is the nearest
    one for the blocks themselves. -/
theorem nearest_of_lifted (hnest : ctx.WellNested) (hab : a ≠ b) {n e : BlockPtr}
    (hmeet : IsMeet ctx.blockParentRegion ctx.regionParentBlock a b x y)
    (hx : ctx.blockParentRegion x = some region) (hy : ctx.blockParentRegion y = some region)
    (hn : ctx.blockParentRegion n = some region) (he : ctx.entryBlock region = some e)
    (hnx : Dominates (ctx.regionGraph region).Edge e n x)
    (hny : Dominates (ctx.regionGraph region).Edge e n y)
    (hnearest : ∀ d, Dominates (ctx.regionGraph region).Edge e d x →
      Dominates (ctx.regionGraph region).Edge e d y →
      Dominates (ctx.regionGraph region).Edge e d n) :
    ctx.BlockDominates n a ∧ ctx.BlockDominates n b ∧
      ∀ d, ctx.BlockDominates d a → ctx.BlockDominates d b → ctx.BlockDominates d n := by
  refine ⟨Or.inr ⟨region, x, hn, ⟨hmeet.left, hx⟩, fun e' he' => ?_⟩,
    Or.inr ⟨region, y, hn, ⟨hmeet.right, hy⟩, fun e' he' => ?_⟩, fun d hda hdb => ?_⟩
  · rwa [← Option.some.inj (he.symm.trans he')]
  · rwa [← Option.some.inj (he.symm.trans he')]
  · obtain ⟨outer, u, v, hd, hu, hv, hduv⟩ := BlockDominates.common hab hda hdb
    obtain ⟨hxu, hyv⟩ := hmeet.lowest u v outer hu.1 hv.1 hu.2 hv.2
    by_cases hregion : outer = region
    · -- a dominator in the same region
      subst hregion
      obtain rfl := eq_of_above_of_region hnest hx hu.2 hxu
      obtain rfl := eq_of_above_of_region hnest hy hv.2 hyv
      refine Or.inr ⟨outer, n, hd, ⟨Above.refl n, hn⟩, fun e' he' => ?_⟩
      obtain rfl := Option.some.inj (he.symm.trans he')
      obtain ⟨hdx, hdy⟩ := hduv e he
      exact hnearest d hdx hdy
    · -- a dominator in a region further out dominates the block there that contains all of it
      refine Or.inr ⟨outer, u, hd, ⟨above_of_region hx hn hxu hu.2 hregion, hu.2⟩,
        fun e' he' => (hduv e' he').1⟩

theorem nearestExact_of_isMeet (hctx : ctx.WellFormed)
    (hmeet : IsMeet ctx.blockParentRegion ctx.regionParentBlock a b x y)
    (hrun : ctx.tryGetBlocksInSameRegion a b = some (some (x, y)))
    (hreach : ctx.LiftReachable a b) (hab : a ≠ b) : ctx.NearestExact a b := by
  obtain ⟨region, hx, hy⟩ := hmeet.group
  have hdeepest := deepest_of_isMeet hmeet hx hy
  obtain ⟨e, he, hex⟩ := hreach region x hdeepest (Or.inl ⟨hmeet.left, hx⟩)
  obtain ⟨e', he', hey⟩ := hreach region y hdeepest (Or.inr ⟨hmeet.right, hy⟩)
  obtain rfl : e = e' := Option.some.inj (he.symm.trans he')
  have hquery : DomInfo.nearestCommonDominator ctx a b = (do
      match ← StateT.lift (ctx.tryGetBlocksInSameRegion a b) with
      | none => pure none
      | some (a, b) =>
        if a = b then pure (some a)
        else do
          let region ← StateT.lift (ctx.blockParentRegion a)
          let tree ← DomInfo.getDomTree ctx region
          let d ← StateT.lift (tree.nearestCommonDominator a b)
          pure (some d)) := if_neg hab
  by_cases hxy : x = y
  · subst hxy
    refine ⟨some x, ?_, nearest_of_lifted hctx.nested hab hmeet hx hy hx he (Dominates.refl x)
      (Dominates.refl x) (fun d hdx _ => hdx)⟩
    rw [hquery]
    refine .bind (.lift hrun) ?_
    simp only [if_pos]
    exact .pure (some x)
  · obtain ⟨t, ht, htree⟩ := Dominance.computeDominatorTree_spec (hctx.graph region) he
    obtain ⟨n, hn, hnx, hny, hnearest⟩ := htree.nearestCommonDominator_spec hex hey
    have hnregion : ctx.blockParentRegion n = some region := by
      have hmem := (hctx.graph region).mem_of_reach ((hctx.graph region).entry_mem he)
        (hnx.reach hex).1
      exact (hctx.nested.block_mem region n).mp hmem
    refine ⟨some n, ?_, nearest_of_lifted hctx.nested hab hmeet hx hy hnregion he hnx hny hnearest⟩
    rw [hquery]
    refine .bind (.lift hrun) ?_
    simp only [if_neg hxy]
    exact .bind (.lift hx) (.bind (DomInfo.getDomTree_returns ht) (.bind (.lift hn) (.pure _)))

/-- What lifting gives, if it gives blocks. -/
theorem liftOutcome_of_some (hnest : ctx.WellNested)
    (hrun : ctx.tryGetBlocksInSameRegion a b = some (some (x, y))) :
    LiftOutcome ctx a b (some (x, y)) := by
  cases ha : ctx.blockParentRegion a with
  | none =>
      rw [tryGetBlocksInSameRegion, ha] at hrun
      exact nomatch hrun
  | some r =>
      cases hb : ctx.blockParentRegion b with
      | none =>
          rw [tryGetBlocksInSameRegion, ha, hb] at hrun
          exact nomatch hrun
      | some s =>
          obtain ⟨lifted, hrun', hout⟩ := tryGetBlocksInSameRegion_spec hnest ha hb
          obtain rfl := Option.some.inj (hrun.symm.trans hrun')
          exact hout

/-- Two blocks that no region contains have no common dominator. -/
theorem nearestExact_of_apart (hab : a ≠ b)
    (hrun : ctx.tryGetBlocksInSameRegion a b = some none)
    (hno : ∀ region, ¬ (ctx.RegionContains region a ∧ ctx.RegionContains region b)) :
    ctx.NearestExact a b := by
  refine ⟨none, ?_, ?_⟩
  · rw [DomInfo.nearestCommonDominator, if_neg hab]
    exact .bind (.lift hrun) (.pure none)
  · rintro d ⟨hda, hdb⟩
    obtain ⟨region, u, v, -, hu, hv, -⟩ := BlockDominates.common hab hda hdb
    exact hno region ⟨⟨u, hu⟩, v, hv⟩

/-- Lifting to the common region, and the nearest common dominator, are exact for all blocks but
    those in different trees whose outermost regions lie in detached blocks. -/
theorem common_exact_iff (hctx : ctx.WellFormed) (a b : BlockPtr) :
    (ctx.LiftExact a b ∧ (ctx.LiftReachable a b → ctx.NearestExact a b)) ↔
      ¬ ctx.DetachedApart a b := by
  refine ⟨fun hexact => (liftExact_iff hctx.nested).mp hexact.1, fun hdet => ?_⟩
  have hlift := (liftExact_iff hctx.nested).mpr hdet
  refine ⟨hlift, fun hreach => ?_⟩
  by_cases hab : a = b
  · subst hab
    refine ⟨some a, ?_, Or.inl rfl, Or.inl rfl, fun d hda _ => hda⟩
    rw [DomInfo.nearestCommonDominator, if_pos rfl]
    exact .pure (some a)
  · obtain ⟨lifted, hrun, hexact⟩ := hlift
    match lifted, hexact with
    -- no common region: the source answers that there is no dominator
    | none, hno => exact nearestExact_of_apart hab hrun hno
    | some (x, y), ⟨region, hdeepest, _⟩ =>
        cases liftOutcome_of_some hctx.nested hrun with
        | common hmeet => exact nearestExact_of_isMeet hctx hmeet hrun hreach hab
        -- two detached blocks, which the condition rules out
        | detached hno =>
            exact absurd ⟨hdeepest.left, hdeepest.right⟩ (noMeet_iff.mp hno region)

/-- Two detached blocks, each with one operation around a region with one block. -/
def twoDetached : Context where
  operations := fun op => match op.idx with
    | 0 => some { concreteOp := { opId := 0 }, parentBlock := some ⟨0⟩, regions := [⟨0⟩] }
    | 1 => some { concreteOp := { opId := 0 }, parentBlock := some ⟨1⟩, regions := [⟨1⟩] }
    | _ => none
  basicBlocks := fun block => match block.idx with
    | 0 => some { ops := [⟨0⟩] }
    | 1 => some { ops := [⟨1⟩] }
    | 2 => some { parentRegion := some ⟨0⟩ }
    | 3 => some { parentRegion := some ⟨1⟩ }
    | _ => none
  regions := fun region => match region.idx with
    | 0 => some { parentOp := ⟨0⟩, blocks := [⟨2⟩] }
    | 1 => some { parentOp := ⟨1⟩, blocks := [⟨3⟩] }
    | _ => none
  nextOp := 2
  nextBlock := 4
  nextRegion := 2

theorem twoDetached_wellNested : twoDetached.WellNested where
  op_mem := by
    rintro ⟨_ | _ | _ | _ | i⟩ ⟨_ | _ | j⟩ <;>
      simp [blockOps, opParentBlock, twoDetached]
  block_mem := by
    rintro ⟨_ | _ | i⟩ ⟨_ | _ | _ | _ | j⟩ <;>
      simp [regionBlocks, blockParentRegion, twoDetached]
  region_mem := by
    rintro ⟨_ | _ | i⟩ ⟨_ | _ | j⟩ <;> simp [opRegions, regionParentOp, twoDetached]
  ops_nodup := by
    rintro ⟨_ | _ | _ | _ | i⟩ <;> simp [blockOps, twoDetached]
  blocks_nodup := by
    rintro ⟨_ | _ | i⟩ <;> simp [regionBlocks, twoDetached]
  regions_nodup := by
    rintro ⟨_ | _ | i⟩ <;> simp [opRegions, twoDetached]
  op_lt := by
    rintro ⟨_ | _ | i⟩ <;> simp [twoDetached]
  block_lt := by
    rintro ⟨_ | _ | _ | _ | i⟩ <;> simp [twoDetached]
  region_lt := by
    rintro ⟨_ | _ | i⟩ <;> simp [twoDetached]
  acyclic := by
    refine ⟨fun _ => 0, ?_⟩
    rintro ⟨_ | _ | i⟩ parent <;>
      simp [parentOp, opParentRegion, opParentBlock, blockParentRegion, twoDetached]

theorem twoDetached_wellFormed : twoDetached.WellFormed where
  nested := twoDetached_wellNested
  graph := by
    rintro ⟨_ | _ | i⟩ <;>
      exact ⟨by simp [regionGraph, regionBlocks, blockSuccs, terminator, blockOps, twoDetached],
        by simp [regionGraph, regionBlocks, blockSuccs, blockPreds, terminator, blockOps,
          twoDetached], rfl⟩

/-- Lifting gives two blocks in no region, and the query for the dominator panics on them. -/
theorem twoDetached_not_exact : twoDetached.WellFormed ∧ ¬ twoDetached.LiftExact ⟨2⟩ ⟨3⟩ ∧
    twoDetached.tryGetBlocksInSameRegion ⟨2⟩ ⟨3⟩ = some (some (⟨0⟩, ⟨1⟩)) ∧
    ∀ info, (DomInfo.nearestCommonDominator twoDetached ⟨2⟩ ⟨3⟩).run info = none := by
  have hrun : twoDetached.tryGetBlocksInSameRegion ⟨2⟩ ⟨3⟩ = some (some (⟨0⟩, ⟨1⟩)) := by decide
  refine ⟨twoDetached_wellFormed, ?_, hrun, fun info => ?_⟩
  · rw [liftExact_iff twoDetached_wellNested, not_not]
    refine ⟨⟨0⟩, ⟨1⟩, by decide, ?_, ?_⟩
    · exact ⟨⟨2⟩, ⟨0⟩, ⟨Above.refl _, rfl⟩, rfl, rfl⟩
    · exact ⟨⟨3⟩, ⟨1⟩, ⟨Above.refl _, rfl⟩, rfl, rfl⟩
  · rfl

/-- A region with two blocks, the first of which branches to the second; in each of them is an
    operation around a region with one block. -/
def siblings : Context where
  operations := fun op => match op.idx with
    | 0 => some { concreteOp := { opId := 0 }, regions := [⟨0⟩] }
    | 1 => some { concreteOp := { opId := 0 }, parentBlock := some ⟨0⟩, regions := [⟨1⟩] }
    | 2 => some { concreteOp := { opId := 0 }, parentBlock := some ⟨1⟩, regions := [⟨2⟩] }
    | 3 => some { concreteOp := { opId := 1, isTerminator := true, isBranch := true },
                  successors := [⟨0, ⟨1⟩⟩], parentBlock := some ⟨0⟩ }
    | _ => none
  basicBlocks := fun block => match block.idx with
    | 0 => some { ops := [⟨1⟩, ⟨3⟩], parentRegion := some ⟨0⟩ }
    | 1 => some { ops := [⟨2⟩], preds := ⟨[⟨⟨3⟩, 0⟩]⟩, parentRegion := some ⟨0⟩ }
    | 2 => some { parentRegion := some ⟨1⟩ }
    | 3 => some { parentRegion := some ⟨2⟩ }
    | _ => none
  regions := fun region => match region.idx with
    | 0 => some { parentOp := ⟨0⟩, blocks := [⟨0⟩, ⟨1⟩] }
    | 1 => some { parentOp := ⟨1⟩, blocks := [⟨2⟩] }
    | 2 => some { parentOp := ⟨2⟩, blocks := [⟨3⟩] }
    | _ => none
  useCounter := 1
  nextOp := 4
  nextBlock := 4
  nextRegion := 3

theorem siblings_wellNested : siblings.WellNested where
  op_mem := by
    rintro ⟨_ | _ | _ | _ | i⟩ ⟨_ | _ | _ | _ | j⟩ <;>
      simp [blockOps, opParentBlock, siblings]
  block_mem := by
    rintro ⟨_ | _ | _ | i⟩ ⟨_ | _ | _ | _ | j⟩ <;>
      simp [regionBlocks, blockParentRegion, siblings]
  region_mem := by
    rintro ⟨_ | _ | _ | _ | i⟩ ⟨_ | _ | _ | j⟩ <;> simp [opRegions, regionParentOp, siblings]
  ops_nodup := by
    rintro ⟨_ | _ | _ | _ | i⟩ <;> simp [blockOps, siblings]
  blocks_nodup := by
    rintro ⟨_ | _ | _ | i⟩ <;> simp [regionBlocks, siblings]
  regions_nodup := by
    rintro ⟨_ | _ | _ | _ | i⟩ <;> simp [opRegions, siblings]
  op_lt := by
    rintro ⟨_ | _ | _ | _ | i⟩ <;> simp [siblings]
  block_lt := by
    rintro ⟨_ | _ | _ | _ | i⟩ <;> simp [siblings]
  region_lt := by
    rintro ⟨_ | _ | _ | i⟩ <;> simp [siblings]
  acyclic := by
    refine ⟨fun op => if op = ⟨0⟩ then 0 else 1, ?_⟩
    rintro ⟨_ | _ | _ | _ | i⟩ parent <;>
      simp [parentOp, opParentRegion, opParentBlock, blockParentRegion, regionParentOp, siblings]
    all_goals (rintro rfl; simp)

theorem siblings_wellFormed : siblings.WellFormed where
  nested := siblings_wellNested
  graph := by
    rintro ⟨_ | _ | _ | i⟩ <;>
      exact ⟨by simp [regionGraph, regionBlocks, blockSuccs, terminator, blockOps, siblings,
          Operation.successorDefs],
        by simp [regionGraph, regionBlocks, blockSuccs, blockPreds, terminator, blockOps,
          opParentBlock, siblings, Operation.successorDefs], rfl⟩

/-- What is above the block of a nested region. -/
theorem siblings_above {x : BlockPtr} :
    (Above siblings.blockParentBlock ⟨2⟩ x → x = ⟨2⟩ ∨ x = ⟨0⟩) ∧
      (Above siblings.blockParentBlock ⟨3⟩ x → x = ⟨3⟩ ∨ x = ⟨1⟩) := by
  refine ⟨fun h => ?_, fun h => ?_⟩
  · rcases h.cases_head with rfl | ⟨p, hp, hpx⟩
    · exact .inl rfl
    · obtain rfl : ⟨0⟩ = p := Option.some.inj hp
      rcases hpx.cases_head with rfl | ⟨q, hq, _⟩
      · exact .inr rfl
      · exact nomatch hq
  · rcases h.cases_head with rfl | ⟨p, hp, hpx⟩
    · exact .inl rfl
    · obtain rfl : ⟨1⟩ = p := Option.some.inj hp
      rcases hpx.cases_head with rfl | ⟨q, hq, _⟩
      · exact .inr rfl
      · exact nomatch hq

/-- The blocks of the nested regions are lifted to the blocks around them, and the first of these
    dominates both. -/
theorem common_exact_iff_siblings :
    siblings.tryGetBlocksInSameRegion ⟨2⟩ ⟨3⟩ = some (some (⟨0⟩, ⟨1⟩)) ∧
      siblings.LiftExact ⟨2⟩ ⟨3⟩ ∧ siblings.NearestExact ⟨2⟩ ⟨3⟩ := by
  have hapart : ¬ siblings.DetachedApart ⟨2⟩ ⟨3⟩ := by
    rintro ⟨r, s, -, ⟨outer, root, ⟨hout, -⟩, hroot, hnone⟩, -⟩
    rcases siblings_above.1 hout with rfl | rfl
    · obtain rfl : ⟨0⟩ = root := Option.some.inj hroot
      exact nomatch hnone
    · exact nomatch hroot
  obtain ⟨hlift, hnearest⟩ := (common_exact_iff siblings_wellFormed ⟨2⟩ ⟨3⟩).mpr hapart
  refine ⟨by decide, hlift, hnearest fun region x hdeepest hx => ?_⟩
  obtain ⟨⟨u, hu, hur⟩, ⟨v, hv, hvr⟩, -⟩ := hdeepest
  have hregion : region = ⟨0⟩ := by
    rcases siblings_above.1 hu with rfl | rfl
    · obtain rfl : ⟨1⟩ = region := Option.some.inj hur
      rcases siblings_above.2 hv with rfl | rfl <;> exact nomatch hvr
    · exact (Option.some.inj hur).symm
  subst hregion
  -- the first block is the entry, and branches to the second one
  have hedge : (siblings.regionGraph ⟨0⟩).Edge ⟨0⟩ ⟨1⟩ := by decide
  rcases hx with ⟨hx, hxr⟩ | ⟨hx, hxr⟩
  · rcases siblings_above.1 hx with rfl | rfl
    · exact nomatch hxr
    · exact ⟨⟨0⟩, rfl, .refl _⟩
  · rcases siblings_above.2 hx with rfl | rfl
    · exact nomatch hxr
    · exact ⟨⟨0⟩, rfl, .single hedge⟩

end Context

end Pliron
