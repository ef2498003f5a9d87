/-
  Pliron.IR.Nesting

  The nesting of operations, blocks and regions.

  `WellNested` is what the IR structures promise: the members of a container are
  those that point back to it, and nothing contains itself.  The searches for an
  ancestor then find it, whatever the depth of nesting.
-/

import Pliron.Graph.Region
import Pliron.Lib.Forest

namespace Pliron

open Pliron.Lib

/-- An operation, a block or a region. -/
inductive IRNode where
  | operation (op : OpPtr)
  | basicBlock (block : BlockPtr)
  | region (region : RegionPtr)
deriving DecidableEq, Repr

namespace Context

variable (ctx : Context)

/-- Parent operation of an operation. -/
def parentOp (op : OpPtr) : Option OpPtr := (ctx.opParentRegion op).bind ctx.regionParentOp

/-- What directly contains a node. -/
def parentNode : IRNode → Option IRNode
  | .operation op => (ctx.opParentBlock op).map IRNode.basicBlock
  | .basicBlock block => (ctx.blockParentRegion block).map IRNode.region
  | .region region => (ctx.regionParentOp region).map IRNode.operation

/-- What a node directly contains, in order. -/
def childNodes : IRNode → List IRNode
  | .operation op => (ctx.opRegions op).map IRNode.region
  | .basicBlock block => (ctx.blockOps block).map IRNode.operation
  | .region region => (ctx.regionBlocks region).map IRNode.basicBlock

/-- The number of nodes ever allocated. -/
def nodeCount : Nat := ctx.nextOp + ctx.nextBlock + ctx.nextRegion

/-- A number for each node. -/
def nodeNumber : IRNode → Nat
  | .operation op => op.idx
  | .basicBlock block => ctx.nextOp + block.idx
  | .region region => ctx.nextOp + ctx.nextBlock + region.idx

/-- Containers and back pointers agree, and nothing contains itself. -/
structure WellNested : Prop where
  op_mem : ∀ block op, op ∈ ctx.blockOps block ↔ ctx.opParentBlock op = some block
  block_mem : ∀ region block, block ∈ ctx.regionBlocks region ↔
    ctx.blockParentRegion block = some region
  region_mem : ∀ op region, region ∈ ctx.opRegions op ↔ ctx.regionParentOp region = some op
  ops_nodup : ∀ block, (ctx.blockOps block).Nodup
  blocks_nodup : ∀ region, (ctx.regionBlocks region).Nodup
  regions_nodup : ∀ op, (ctx.opRegions op).Nodup
  op_lt : ∀ op, ctx.operations op ≠ none → op.idx < ctx.nextOp
  block_lt : ∀ block, ctx.basicBlocks block ≠ none → block.idx < ctx.nextBlock
  region_lt : ∀ region, ctx.regions region ≠ none → region.idx < ctx.nextRegion
  acyclic : ∃ depth : OpPtr → Nat, ∀ op parent, ctx.parentOp op = some parent →
    depth parent < depth op

/-- `node` lies inside `root`, or is `root`. -/
def Inside (root node : IRNode) : Prop := Above ctx.parentNode node root

/-- `ancestor` is `op` or contains it, and lies directly in a block of `region`. -/
def IsAncestorIn (region : RegionPtr) (op ancestor : OpPtr) : Prop :=
  Above ctx.parentOp op ancestor ∧ ctx.opParentRegion ancestor = some region

variable {ctx}

theorem operations_ne_none {op : OpPtr} {block : BlockPtr}
    (h : ctx.opParentBlock op = some block) : ctx.operations op ≠ none := by
  intro hnone
  simp [opParentBlock, hnone] at h

theorem basicBlocks_ne_none {block : BlockPtr} {region : RegionPtr}
    (h : ctx.blockParentRegion block = some region) : ctx.basicBlocks block ≠ none := by
  intro hnone
  simp [blockParentRegion, hnone] at h

theorem regions_ne_none {region : RegionPtr} {op : OpPtr}
    (h : ctx.regionParentOp region = some op) : ctx.regions region ≠ none := by
  intro hnone
  simp [regionParentOp, hnone] at h

theorem opParentRegion_eq_some {op : OpPtr} {region : RegionPtr} :
    ctx.opParentRegion op = some region ↔
      ∃ block, ctx.opParentBlock op = some block ∧ ctx.blockParentRegion block = some region := by
  simp [opParentRegion, Option.bind_eq_some_iff]

theorem regionParentBlock_eq (region : RegionPtr) :
    ctx.regionParentBlock region = (ctx.regionParentOp region).bind ctx.opParentBlock := rfl

theorem opParentRegion_eq (op : OpPtr) :
    ctx.opParentRegion op = (ctx.opParentBlock op).bind ctx.blockParentRegion := rfl

/-! ## Three forests -/

namespace WellNested

variable (h : ctx.WellNested)

include h

theorem isForest_op : IsForest (fun op => (ctx.opParentRegion op).bind ctx.regionParentOp)
    OpPtr.idx ctx.nextOp where
  acyclic := h.acyclic
  number_lt := by
    intro x y hxy
    obtain ⟨region, hregion, _⟩ := Option.bind_eq_some_iff.mp hxy
    obtain ⟨block, hblock, _⟩ := opParentRegion_eq_some.mp hregion
    exact h.op_lt x (operations_ne_none hblock)
  number_inj := by
    rintro ⟨x⟩ ⟨y⟩ _ _ (rfl : x = y)
    rfl

theorem isForest_block :
    IsForest (fun block => (ctx.blockParentRegion block).bind ctx.regionParentBlock)
      BlockPtr.idx ctx.nextBlock where
  acyclic := by
    obtain ⟨depth, hdepth⟩ := h.acyclic
    refine ⟨fun block => ((ctx.blockParentOp block).map (fun op => depth op + 1)).getD 0, ?_⟩
    intro x y hxy
    obtain ⟨region, hregion, hy⟩ := Option.bind_eq_some_iff.mp hxy
    rw [regionParentBlock_eq] at hy
    obtain ⟨op, hop, hopy⟩ := Option.bind_eq_some_iff.mp hy
    have hx : ctx.blockParentOp x = some op := by simp [blockParentOp, hregion, hop]
    simp only [hx]
    cases hyp : ctx.blockParentOp y with
    | none => simp
    | some parent =>
        have hlt := hdepth op parent (by
          obtain ⟨region', hregion', hparent⟩ := Option.bind_eq_some_iff.mp hyp
          simp [parentOp, opParentRegion, hopy, hregion', hparent])
        simpa using hlt
  number_lt := by
    intro x y hxy
    obtain ⟨region, hregion, _⟩ := Option.bind_eq_some_iff.mp hxy
    exact h.block_lt x (basicBlocks_ne_none hregion)
  number_inj := by
    rintro ⟨x⟩ ⟨y⟩ _ _ (rfl : x = y)
    rfl

/-- Depth of a node, three levels for each operation above it. -/
theorem isForest_node : IsForest ctx.parentNode ctx.nodeNumber ctx.nodeCount where
  acyclic := by
    -- three levels for each level of operations: an operation, its regions, their blocks
    obtain ⟨depth, hdepth⟩ := h.acyclic
    let regionDepth : RegionPtr → Nat := fun region =>
      ((ctx.regionParentOp region).map (fun op => 3 * depth op + 4)).getD 0
    let blockDepth : BlockPtr → Nat := fun block =>
      ((ctx.blockParentRegion block).map (fun region => regionDepth region + 1)).getD 0
    refine ⟨fun node => match node with
      | .operation op => 3 * depth op + 3
      | .basicBlock block => blockDepth block
      | .region region => regionDepth region, ?_⟩
    rintro (op | block | region) y hxy
    · obtain ⟨block, hblock, rfl⟩ := Option.map_eq_some_iff.mp hxy
      simp only [blockDepth, regionDepth]
      cases hregion : ctx.blockParentRegion block with
      | none => simp
      | some region =>
          cases hparent : ctx.regionParentOp region with
          | none => simp [hparent]
          | some parent =>
              have hlt := hdepth op parent (by
                simp [parentOp, opParentRegion, hblock, hregion, hparent])
              simp only [Option.map_some, hparent, Option.getD_some]
              omega
    · obtain ⟨region, hregion, rfl⟩ := Option.map_eq_some_iff.mp hxy
      simp [blockDepth, hregion]
    · obtain ⟨op, hop, rfl⟩ := Option.map_eq_some_iff.mp hxy
      simp [regionDepth, hop]
  number_lt := by
    rintro (op | block | region) y hxy
    · obtain ⟨block, hblock, _⟩ := Option.map_eq_some_iff.mp hxy
      have hlt := h.op_lt op (operations_ne_none hblock)
      simp only [nodeNumber, nodeCount]
      omega
    · obtain ⟨region, hregion, _⟩ := Option.map_eq_some_iff.mp hxy
      have hlt := h.block_lt block (basicBlocks_ne_none hregion)
      simp only [nodeNumber, nodeCount]
      omega
    · obtain ⟨op, hop, _⟩ := Option.map_eq_some_iff.mp hxy
      have hlt := h.region_lt region (regions_ne_none hop)
      simp only [nodeNumber, nodeCount]
      omega
  number_inj := by
    have hop : ∀ {op}, ctx.parentNode (.operation op) ≠ none → op.idx < ctx.nextOp := by
      intro op hop
      refine h.op_lt op (fun hnone => hop ?_)
      simp [parentNode, opParentBlock, hnone]
    have hblock : ∀ {block}, ctx.parentNode (.basicBlock block) ≠ none →
        block.idx < ctx.nextBlock := by
      intro block hblock
      refine h.block_lt block (fun hnone => hblock ?_)
      simp [parentNode, blockParentRegion, hnone]
    rintro (x | x | x) (y | y | y) hx hy heq <;> simp only [nodeNumber] at heq
    · obtain ⟨x⟩ := x
      obtain ⟨y⟩ := y
      simp_all
    · have := hop hx
      omega
    · have := hop hx
      omega
    · have := hop hy
      omega
    · obtain ⟨x⟩ := x
      obtain ⟨y⟩ := y
      simp_all
    · have := hblock hx
      omega
    · have := hop hy
      omega
    · have := hblock hy
      omega
    · obtain ⟨x⟩ := x
      obtain ⟨y⟩ := y
      simp_all

/-- A node contains exactly the nodes that point back to it. -/
theorem mem_childNodes (x y : IRNode) : y ∈ ctx.childNodes x ↔ ctx.parentNode y = some x := by
  rcases x with op | block | region <;> rcases y with op' | block' | region' <;>
    simp [childNodes, parentNode, h.op_mem, h.block_mem, h.region_mem]

/-! ## Ancestors -/

omit h in
theorem ancestorOpLoop_eq_climb (target : RegionPtr) (fuel : Nat) (op : OpPtr) :
    ctx.ancestorOpLoop target fuel op =
      climb ctx.opParentRegion ctx.regionParentOp target fuel op := by
  induction fuel generalizing op with
  | zero => rfl
  | succ fuel ih =>
      simp only [ancestorOpLoop, climb, Option.bind_eq_bind]
      refine congrArg _ (funext fun region => ?_)
      split
      · rfl
      · exact congrArg _ (funext ih)

omit h in
theorem ancestorBlockLoop_eq_climb (target : RegionPtr) (fuel : Nat) (block : BlockPtr) :
    ctx.ancestorBlockLoop target fuel block =
      climb ctx.blockParentRegion ctx.regionParentBlock target fuel block := by
  induction fuel generalizing block with
  | zero => rfl
  | succ fuel ih =>
      simp only [ancestorBlockLoop, climb, Option.bind_eq_bind]
      refine congrArg _ (funext fun region => ?_)
      split
      · rfl
      · exact congrArg _ (funext ih)

/-- The search finds the ancestor operation in a region, if there is one. -/
theorem findAncestorOp_eq_some_iff {op ancestor : OpPtr} {region : RegionPtr} :
    ctx.findAncestorOpOfOpInRegion op region = some ancestor ↔
      ctx.IsAncestorIn region op ancestor := by
  rw [findAncestorOpOfOpInRegion, ancestorOpLoop_eq_climb, climb_eq_some_iff h.isForest_op]
  rfl

omit h in
/-- The block around an operation that is above another is above the block of that one. -/
theorem above_block_of_above_op {op ancestor : OpPtr} {block : BlockPtr}
    (hop : ctx.opParentBlock op = some block) (habove : Above ctx.parentOp op ancestor) :
    ∀ ablock, ctx.opParentBlock ancestor = some ablock →
      Above (fun b => (ctx.blockParentRegion b).bind ctx.regionParentBlock) block ablock := by
  induction habove with
  | refl =>
      intro ablock hablock
      rw [Option.some.inj (hop.symm.trans hablock)]
      exact Above.refl ablock
  | @tail mid last _ hmid ih =>
      intro ablock hablock
      obtain ⟨region, hregion, hlast⟩ := Option.bind_eq_some_iff.mp hmid
      obtain ⟨mblock, hmblock, hmregion⟩ := opParentRegion_eq_some.mp hregion
      refine (ih mblock hmblock).tail ?_
      simp [hmregion, regionParentBlock_eq, hlast, hablock]

omit h in
/-- The block above the block of an operation is the block around an operation above it. -/
theorem exists_op_of_above_block {op : OpPtr} {block ablock : BlockPtr}
    (hop : ctx.opParentBlock op = some block)
    (habove : Above (fun b => (ctx.blockParentRegion b).bind ctx.regionParentBlock)
      block ablock) :
    ∃ ancestor, Above ctx.parentOp op ancestor ∧ ctx.opParentBlock ancestor = some ablock := by
  induction habove with
  | refl => exact ⟨op, Above.refl op, hop⟩
  | @tail mid last _ hmid ih =>
      obtain ⟨anc, hanc, hmblock⟩ := ih
      obtain ⟨region, hregion, hlast⟩ := Option.bind_eq_some_iff.mp hmid
      rw [regionParentBlock_eq] at hlast
      obtain ⟨parent, hparent, hpblock⟩ := Option.bind_eq_some_iff.mp hlast
      refine ⟨parent, hanc.tail ?_, hpblock⟩
      simp [parentOp, opParentRegion, hmblock, hregion, hparent]

/-- The ancestor block in a region is the block of the ancestor operation. -/
theorem findAncestorBlock_eq {op : OpPtr} {block : BlockPtr} (region : RegionPtr)
    (hop : ctx.opParentBlock op = some block) :
    ctx.findAncestorBlockOfBlockInRegion block region =
      (ctx.findAncestorOpOfOpInRegion op region).bind ctx.opParentBlock := by
  refine Option.ext (fun ablock => ?_)
  rw [findAncestorBlockOfBlockInRegion, ancestorBlockLoop_eq_climb,
    climb_eq_some_iff h.isForest_block, Option.bind_eq_some_iff]
  constructor
  · rintro ⟨habove, hregion⟩
    obtain ⟨anc, hanc, hablock⟩ := exists_op_of_above_block hop habove
    exact ⟨anc, h.findAncestorOp_eq_some_iff.mpr
      ⟨hanc, opParentRegion_eq_some.mpr ⟨ablock, hablock, hregion⟩⟩, hablock⟩
  · rintro ⟨anc, hanc, hablock⟩
    obtain ⟨hanc, hregion⟩ := h.findAncestorOp_eq_some_iff.mp hanc
    obtain ⟨ablock', hablock', hregion⟩ := opParentRegion_eq_some.mp hregion
    rw [Option.some.inj (hablock'.symm.trans hablock)] at hregion
    exact ⟨above_block_of_above_op hop hanc ablock hablock, hregion⟩

end WellNested

/-! ## Contexts made from a graph -/

section OfCfg

variable (succs : List (List Nat)) (defBlock useBlock : Nat)

theorem ofCfg_opParentBlock (op : OpPtr) : (ofCfg succs defBlock useBlock).opParentBlock op =
    if op.idx < succs.length then some ⟨op.idx⟩ else none := by
  simp only [opParentBlock, ofCfg]
  split
  · rfl
  · split <;> rfl

theorem ofCfg_blockParentRegion (block : BlockPtr) :
    (ofCfg succs defBlock useBlock).blockParentRegion block =
      if block.idx < succs.length then some ⟨0⟩ else none := by
  simp only [blockParentRegion, ofCfg]
  split <;> rfl

theorem ofCfg_regionParentOp (region : RegionPtr) :
    (ofCfg succs defBlock useBlock).regionParentOp region =
      if region.idx = 0 then some ⟨succs.length⟩ else none := by
  simp only [regionParentOp, ofCfg]
  split <;> rfl

theorem ofCfg_blockOps (block : BlockPtr) : (ofCfg succs defBlock useBlock).blockOps block =
    if block.idx < succs.length then [⟨block.idx⟩] else [] := by
  simp only [blockOps, ofCfg]
  split <;> rfl

theorem ofCfg_regionBlocks (region : RegionPtr) :
    (ofCfg succs defBlock useBlock).regionBlocks region =
      if region.idx = 0 then (List.range succs.length).map BlockPtr.mk else [] := by
  simp only [regionBlocks, ofCfg]
  split <;> rfl

theorem ofCfg_opRegions (op : OpPtr) : (ofCfg succs defBlock useBlock).opRegions op =
    if op.idx = succs.length then [⟨0⟩] else [] := by
  simp only [opRegions, ofCfg]
  by_cases hlt : op.idx < succs.length
  · simp [hlt, Nat.ne_of_lt hlt]
  · simp only [hlt, if_false]
    split <;> rfl

theorem ofCfg_wellNested : (ofCfg succs defBlock useBlock).WellNested where
  op_mem := by
    rintro ⟨b⟩ ⟨o⟩
    rw [ofCfg_blockOps, ofCfg_opParentBlock]
    by_cases hb : b < succs.length <;> by_cases ho : o < succs.length <;>
      simp [hb, ho, eq_comm] <;> omega
  block_mem := by
    rintro ⟨region⟩ ⟨b⟩
    rw [ofCfg_regionBlocks, ofCfg_blockParentRegion]
    by_cases hregion : region = 0 <;> by_cases hb : b < succs.length <;>
      simp [hregion, hb, eq_comm]
  region_mem := by
    rintro ⟨o⟩ ⟨region⟩
    rw [ofCfg_opRegions, ofCfg_regionParentOp]
    by_cases ho : o = succs.length <;> by_cases hregion : region = 0 <;>
      simp [hregion, ho, eq_comm]
  ops_nodup := by
    intro block
    rw [ofCfg_blockOps]
    split <;> simp
  blocks_nodup := by
    intro region
    rw [ofCfg_regionBlocks]
    split
    · exact List.nodup_range.map (fun x y hxy => congrArg BlockPtr.idx hxy)
    · exact List.nodup_nil
  regions_nodup := by
    intro op
    rw [ofCfg_opRegions]
    split <;> simp
  op_lt := by
    intro op hop
    by_contra hle
    have hge : succs.length + 1 ≤ op.idx := Nat.le_of_not_lt hle
    refine hop ?_
    simp only [ofCfg]
    rw [if_neg (by omega), if_neg (by omega)]
  block_lt := by
    intro block hblock
    by_contra hle
    exact hblock (if_neg hle)
  region_lt := by
    intro region hregion
    by_contra hle
    have hge : 1 ≤ region.idx := Nat.le_of_not_lt hle
    exact hregion (if_neg (by omega))
  acyclic := by
    refine ⟨fun op => if op.idx < succs.length then 1 else 0, ?_⟩
    intro op parent hparent
    rw [parentOp, opParentRegion_eq, ofCfg_opParentBlock] at hparent
    by_cases hlt : op.idx < succs.length
    · rw [if_pos hlt, Option.bind_some, ofCfg_blockParentRegion, if_pos hlt, Option.bind_some,
        ofCfg_regionParentOp, if_pos rfl] at hparent
      simp only [← Option.some.inj hparent, hlt, if_true]
      simp
    · simp [hlt] at hparent

/-- The argument has its one use. -/
theorem ofCfg_valueUses {value : Value} {uses : List Use}
    (h : (ofCfg succs defBlock useBlock).valueUses value = some uses) :
    uses = [⟨⟨useBlock⟩, 0⟩] := by
  obtain ⟨d, hd, rfl⟩ := Option.map_eq_some_iff.mp h
  obtain ⟨valUid, op | block⟩ := value
  · obtain ⟨o, ho, hd⟩ := Option.bind_eq_some_iff.mp hd
    have hresults : o.results = [] := by
      simp only [ofCfg] at ho
      split at ho
      · rw [← Option.some.inj ho]
      · split at ho
        · rw [← Option.some.inj ho]
        · exact absurd ho (by simp)
    simp [hresults] at hd
  · obtain ⟨b, hb, hd⟩ := Option.bind_eq_some_iff.mp hd
    have hmem := List.mem_of_find?_eq_some hd
    simp only [ofCfg] at hb
    split at hb
    · rw [← Option.some.inj hb] at hmem
      by_cases hdef : block.idx = defBlock
      · rw [if_pos hdef, List.mem_singleton] at hmem
        rw [hmem]
      · rw [if_neg hdef] at hmem
        exact absurd hmem List.not_mem_nil
    · exact absurd hb (by simp)

/-- Only the region that holds the graph has blocks. -/
theorem ofCfg_valid (h : ((ofCfg succs defBlock useBlock).regionGraph ⟨0⟩).Valid)
    (region : RegionPtr) : ((ofCfg succs defBlock useBlock).regionGraph region).Valid := by
  by_cases heq : region.idx = 0
  · obtain ⟨_⟩ := region
    simp only at heq
    exact heq ▸ h
  · have hnil : (ofCfg succs defBlock useBlock).regionBlocks region = [] := by
      rw [ofCfg_regionBlocks, if_neg heq]
    have hnodes : ((ofCfg succs defBlock useBlock).regionGraph region).nodes = [] := hnil
    refine ⟨by simp [hnodes], by simp [hnodes], ?_⟩
    rw [hnodes]
    simp [regionGraph, entryBlock, hnil]

end OfCfg

end Context

end Pliron
