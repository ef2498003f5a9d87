/-
  Pliron.Graph.Region

  The control-flow graph of a region, and the ancestors of a block or an
  operation in an enclosing region.

  Both searches climb the chain of parents.  A context only has as many blocks
  as were ever allocated, so that is the fuel they run on.
-/

import Pliron.Graph.Basic
import Pliron.IR.Context

namespace Pliron

namespace Context

variable (ctx : Context)

/-- The entry block of a region. -/
def entryBlock (region : RegionPtr) : Option BlockPtr := (ctx.regionBlocks region).head?

/-- The control-flow graph of a region. -/
def regionGraph (region : RegionPtr) : ControlFlowGraph BlockPtr where
  successors := ctx.blockSuccs
  predecessors := ctx.blockPreds
  entryNode := ctx.entryBlock region
  nodes := ctx.regionBlocks region

/-- The loop of `find_ancestor_block_of_block_in_region`. -/
def ancestorBlockLoop (targetRegion : RegionPtr) : Nat → BlockPtr → Option BlockPtr
  | 0, _ => none
  | fuel + 1, block => do
      let ancestorRegion ← ctx.blockParentRegion block
      if ancestorRegion = targetRegion then some block
      else ancestorBlockLoop targetRegion fuel (← ctx.regionParentBlock ancestorRegion)

/-- The ancestor block of `block` contained in `targetRegion`. -/
def findAncestorBlockOfBlockInRegion (block : BlockPtr) (targetRegion : RegionPtr) :
    Option BlockPtr :=
  ctx.ancestorBlockLoop targetRegion (ctx.nextBlock + 1) block

/-- The loop of `find_ancestor_op_of_op_in_region`. -/
def ancestorOpLoop (targetRegion : RegionPtr) : Nat → OpPtr → Option OpPtr
  | 0, _ => none
  | fuel + 1, op => do
      let ancestorRegion ← ctx.opParentRegion op
      if ancestorRegion = targetRegion then some op
      else ancestorOpLoop targetRegion fuel (← ctx.regionParentOp ancestorRegion)

/-- The ancestor operation of `op` contained in `targetRegion`. -/
def findAncestorOpOfOpInRegion (op : OpPtr) (targetRegion : RegionPtr) : Option OpPtr :=
  ctx.ancestorOpLoop targetRegion (ctx.nextOp + 1) op

/-! ## Contexts made from a graph -/

/-- The uses of block `i` as a successor, when `succs` lists the successors of each block. -/
def cfgPreds (succs : List (List Nat)) (i : Nat) : List Use :=
  succs.zipIdx.flatMap (fun e =>
    (e.1.zipIdx.filter (fun s => s.1 = i)).map (fun s => ⟨⟨e.2⟩, 1 + e.2 * 8 + s.2⟩))

/-- One region, with a block for each entry of `succs` that only holds its terminator.  Block
    `defBlock` has an argument, an operand of the terminator of `useBlock`. -/
def ofCfg (succs : List (List Nat)) (defBlock useBlock : Nat) : Context where
  valueCounter := 1
  useCounter := 1 + succs.length * 8
  operations := fun op =>
    if op.idx < succs.length then
      some { concreteOp := { opId := 0, isTerminator := true, isBranch := true }
             operands := if op.idx = useBlock then [⟨0, ⟨0, .block ⟨defBlock⟩⟩⟩] else []
             successors := (succs.getD op.idx []).zipIdx.map
               (fun s => ⟨1 + op.idx * 8 + s.2, ⟨s.1⟩⟩)
             parentBlock := some ⟨op.idx⟩ }
    else if op.idx = succs.length then
      some { concreteOp := { opId := 1 }, regions := [⟨0⟩] }
    else none
  basicBlocks := fun b =>
    if b.idx < succs.length then
      some { ops := [⟨b.idx⟩]
             args := if b.idx = defBlock then [⟨⟨[⟨⟨useBlock⟩, 0⟩]⟩, 0, 0⟩] else []
             preds := ⟨cfgPreds succs b.idx⟩
             parentRegion := some ⟨0⟩ }
    else none
  regions := fun region =>
    if region.idx = 0 then
      some { parentOp := ⟨succs.length⟩, blocks := (List.range succs.length).map BlockPtr.mk }
    else none
  nextOp := succs.length + 1
  nextBlock := succs.length
  nextRegion := 1

end Context

end Pliron
