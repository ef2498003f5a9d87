/-
  Pliron.Analyses.LivenessPoints

  Liveness of a value at a program point.

  A point before or after an operation is answered from the uses in the rest of
  its block and the live-out query, the start and the end of a block by the
  live-in and the live-out query alone.  A point in a nested region is moved to
  the operation around it in the region of the definition, unless that operation
  says how control moves between its regions.

  The state holds what was computed for each region.  `none` is a failed `expect`
  or a loop that does not end.
-/

import Pliron.Analyses.Liveness
import Pliron.Graph.DomInfo
import Pliron.IR.Mutate

namespace Pliron

/-! ## Edges between regions -/

/-- The source of a control-flow edge of a region branch operation. -/
inductive RegionBranchPoint where
  | parent
  | terminator (op : OpPtr)
deriving DecidableEq, Repr

/-- The target of a control-flow edge of a region branch operation. -/
inductive RegionSuccessor where
  | region (region : RegionPtr)
  | after
deriving DecidableEq, Repr

/-- A control-flow edge of a region branch operation, with the values that are read on it. -/
structure RegionEdge where
  source : RegionBranchPoint
  target : RegionSuccessor
  reads : List Value
deriving DecidableEq, Repr

namespace Context

variable (ctx : Context) (edges : List RegionEdge)

/-- Does an edge start at a terminator in the region? -/
def startsIn (region : RegionPtr) (edge : RegionEdge) : Bool :=
  match edge.source with
  | .parent => false
  | .terminator op => decide (ctx.opParentRegion op = some region)

/-- The operands that are read on edges from terminators in `region`. -/
def operandsReadFromRegion (region : RegionPtr) : ISet Value :=
  ISet.extend [] ((edges.filter (ctx.startsIn region)).flatMap RegionEdge.reads)

/-- The regions that the terminators of `region` branch to. -/
def successorRegions (region : RegionPtr) : ISet RegionPtr :=
  ISet.extend [] (edges.filterMap (fun edge =>
    match edge.target with
    | .region target => if ctx.startsIn region edge then some target else none
    | .after => none))

/-- Add the regions that were not reached yet to them, and to the worklist. -/
def reachTargets (found : List RegionPtr × List RegionPtr) (targets : List RegionPtr) :
    List RegionPtr × List RegionPtr :=
  targets.foldl (fun found target =>
    if target ∈ found.1 then found else (found.1 ++ [target], target :: found.2)) found

/-- The loop of `reachableRegions`, the worklist with its last entry first. -/
def reachLoop : Nat → List RegionPtr × List RegionPtr → Option (List RegionPtr)
  | _, (reachable, []) => some reachable
  | 0, (_, _ :: _) => none
  | fuel + 1, (reachable, source :: worklist) =>
      reachLoop fuel (reachTargets (reachable, worklist) (ctx.successorRegions edges source))

/-- The regions reachable from `region` through one or more edges between regions. -/
def reachableRegions (region : RegionPtr) : Option (List RegionPtr) :=
  ctx.reachLoop edges (edges.length + 1) ([], [region])

/-! ## Uses around a point -/

/-- The loop of `find_ancestor_op_of_op_in_block`. -/
def ancestorOpInBlockLoop (targetBlock : BlockPtr) : Nat → OpPtr → Option OpPtr
  | 0, _ => none
  | fuel + 1, op => do
      let parentBlock ← ctx.opParentBlock op
      if parentBlock = targetBlock then some op
      else ancestorOpInBlockLoop targetBlock fuel (← ctx.blockParentOp parentBlock)

/-- The ancestor operation of `op` contained in `targetBlock`. -/
def findAncestorOpOfOpInBlock (op : OpPtr) (targetBlock : BlockPtr) : Option OpPtr :=
  ctx.ancestorOpInBlockLoop targetBlock (ctx.nextOp + 1) op

/-- Is one of the uses inside a region? -/
def hasUseInRegionSubtree (uses : List Use) (region : RegionPtr) : Bool :=
  uses.any (fun use => (ctx.findAncestorOpOfOpInRegion use.userOp region).isSome)

/-- The operations of a block that come after a point. -/
def opsFrom : OpInsertionPoint → Option (List OpPtr)
  | .set (.before op) => some (op :: ctx.opsAfter op)
  | .set (.after op) => some (ctx.opsAfter op)
  | .set (.atFront block) => some (ctx.blockOps block)
  | .set (.atBack _) => some []
  | .unset => none

/-- Are there uses of `value` in the same block after `point`, or nested in the operations
    there? -/
def hasLocalUseAfterPoint (value : Value) (point : OpInsertionPoint) : Option Bool := do
  let pointBlock ← ctx.getInsertionBlock point
  let uses ← ctx.valueUses value
  let userOpsInPointBlock := uses.filterMap
    (fun use => ctx.findAncestorOpOfOpInBlock use.userOp pointBlock)
  let ops ← ctx.opsFrom point
  some (ops.any (fun op => op ∈ userOpsInPointBlock))

/-- The climb from a query block in no region, or for a definition in no region, through the
    operations around the query. -/
def orphanLoop (value : Value) (defBlock : BlockPtr) : Nat → Option OpPtr → Option Bool
  | _, none => some false
  | 0, some _ => none
  | fuel + 1, some queryAncestorOp =>
      match ctx.opParentBlock queryAncestorOp with
      | none => some false
      | some queryAncestorBlock =>
          if queryAncestorBlock = defBlock then
            ctx.hasLocalUseAfterPoint value (.set (.before queryAncestorOp))
          else orphanLoop value defBlock fuel (ctx.parentOp queryAncestorOp)

/-- Is `value` live at a point, when its definition or the point is in no region? -/
def isLiveInOrphanBlock (value : Value) (point : OpInsertionPoint)
    (defBlock queryBlock : BlockPtr) : Option Bool :=
  if defBlock = queryBlock then ctx.hasLocalUseAfterPoint value point
  else ctx.orphanLoop value defBlock (ctx.nextOp + 1) (ctx.blockParentOp queryBlock)

end Context

/-! ## The queries -/

/-- The liveness information of the regions, and the dominator trees. -/
structure Liveness where
  regions : HMap RegionPtr (LivenessTq BlockPtr)
  domInfo : DomInfo

namespace Liveness

variable (ctx : Context)

/-- Run a query on the dominator trees. -/
def withDomInfo {α : Type} (m : StateT DomInfo Option α) : StateT Liveness Option α := do
  let liveness ← get
  let (a, domInfo) ← StateT.lift (m.run liveness.domInfo)
  set { liveness with domInfo := domInfo }
  pure a

/-- The liveness information of a region, cached or computed. -/
def getRegionInfo (region : RegionPtr) : StateT Liveness Option (LivenessTq BlockPtr) := do
  let domTree ← withDomInfo (DomInfo.getDomTree ctx region)
  match (← get).regions region with
  | some info => pure info
  | none => do
      let info ← StateT.lift (LivenessTq.new (ctx.regionGraph region) domTree)
      modify (fun liveness => { liveness with regions := liveness.regions.insert region info })
      pure info

/-- Is `value` live out of a block of the region of its definition? -/
def isLiveOutOfBlock (value : Value) (defRegion : RegionPtr) (queryBlock : BlockPtr) :
    StateT Liveness Option Bool := do
  let info ← getRegionInfo ctx defRegion
  StateT.lift (info.isLiveOutOfBlock ctx defRegion value queryBlock)

/-- Is `value` used in the block of `op` after a point next to it, or live out of the block? -/
def isUsedFromPoint (value : Value) (defRegion : RegionPtr) (op : OpPtr)
    (point : Context.OpInsertionPoint) : StateT Liveness Option Bool := do
  if ← StateT.lift (ctx.hasLocalUseAfterPoint value point) then pure true
  else do
    let queryBlock ← StateT.lift (ctx.opParentBlock op)
    isLiveOutOfBlock ctx value defRegion queryBlock

/-- Does `value` dominate the point after `op`?  Its own definition does. -/
def dominatesAfter (value : Value) (op : OpPtr) : StateT Liveness Option Bool :=
  match value.definingEntity with
  | .op valueDefOp =>
      if valueDefOp = op then pure true
      else withDomInfo (DomInfo.valueStrictlyDominatesOp ctx value op)
  | .block _ => pure true

/-- Is `value` live at a point of the region of its definition? -/
def isLiveInDefRegion (value : Value) (defRegion : RegionPtr) :
    Context.OpInsertionPoint → StateT Liveness Option Bool
  | .unset => StateT.lift none
  | .set (.atFront queryBlock) => do
      let info ← getRegionInfo ctx defRegion
      StateT.lift (info.isLiveInAtBlock ctx defRegion value queryBlock)
  | .set (.atBack queryBlock) => isLiveOutOfBlock ctx value defRegion queryBlock
  | .set (.before op) => do
      if ← withDomInfo (DomInfo.valueStrictlyDominatesOp ctx value op) then
        isUsedFromPoint ctx value defRegion op (.set (.before op))
      else pure false
  | .set (.after op) => do
      if ← dominatesAfter ctx value op then
        isUsedFromPoint ctx value defRegion op (.set (.after op))
      else pure false

/-- The operations that implement `RegionBranchOpInterface`, with their region edges. -/
abbrev RegionEdges := OpPtr → Option (List RegionEdge)

variable (regionEdges : RegionEdges)

/-- For a `point` in a region of `op`, is `value` live there?  `none` if `op` does not implement
    `RegionBranchOpInterface`. -/
def isLiveInRegionBranchOp
    (isLiveAtPoint : Value → Context.OpInsertionPoint → StateT Liveness Option Bool)
    (value : Value) (point : Context.OpInsertionPoint) (op : OpPtr) :
    StateT Liveness Option (Option Bool) :=
  match regionEdges op with
  | none => pure none
  | some edges => do
      if ← withDomInfo (DomInfo.valueStrictlyDominatesOp ctx value op) then
        let queryBlock ← StateT.lift (ctx.getInsertionBlock point)
        -- the region of `op` that contains the point
        let region ← StateT.lift ((ctx.opRegions op).find? (fun region =>
          (ctx.findAncestorBlockOfBlockInRegion queryBlock region).isSome))
        let reachable ← StateT.lift (ctx.reachableRegions edges region)
        let uses ← StateT.lift (ctx.valueUses value)
        if (region :: reachable).any (ctx.hasUseInRegionSubtree uses) then pure (some true)
        else if (region :: reachable).any
            (fun source => value ∈ ctx.operandsReadFromRegion edges source) then pure (some true)
        else do
          let live ← isLiveAtPoint value (.set (.after op))
          pure (some live)
      else pure (some false)

/-- `is_live_at_point`, with fuel for its calls of itself. -/
def isLiveAtPointLoop :
    Nat → Value → Context.OpInsertionPoint → StateT Liveness Option Bool
  | 0, _, _ => StateT.lift none
  | fuel + 1, value, point =>
      match ctx.valueParentBlock value, ctx.getInsertionBlock point with
      | some defBlock, some queryBlock =>
          match ctx.blockParentRegion defBlock, ctx.blockParentRegion queryBlock with
          | some defRegion, some queryRegion =>
              if queryRegion = defRegion then isLiveInDefRegion ctx value defRegion point
              else do
                -- elsewhere: find the operation around the point in the region of the value
                let queryParent ← StateT.lift (ctx.regionParentOp queryRegion)
                match ctx.findAncestorOpOfOpInRegion queryParent defRegion with
                | none => pure false
                | some queryOp => do
                    match ← isLiveInRegionBranchOp ctx regionEdges (isLiveAtPointLoop fuel)
                        value point queryOp with
                    | some live => pure live
                    | none => do
                        -- used below that region, or live in front of the operation around it
                        let uses ← StateT.lift (ctx.valueUses value)
                        if ctx.hasUseInRegionSubtree uses queryRegion then pure true
                        else isLiveInDefRegion ctx value defRegion (.set (.before queryOp))
          | _, _ => StateT.lift (ctx.isLiveInOrphanBlock value point defBlock queryBlock)
      | _, _ => pure false

/-- Is `value` live at a program point?  A call of itself is about a point in the region of the
    definition, and makes no further one. -/
def isLiveAtPoint : Value → Context.OpInsertionPoint → StateT Liveness Option Bool :=
  isLiveAtPointLoop ctx regionEdges 2

end Liveness

end Pliron
