/-
  Pliron.Opts.Sccp

  Sparse conditional constant propagation: the analysis, and the candidates it collects for
  rewriting.

  The interfaces of operations are a table of their implementations: the operands a branch
  forwards, the control-flow edges of an operation with regions, and what each of them folds to
  when some operands are known.  An attribute is any type with decidable equality.  `none` is a
  panic: a failed assertion, or a pointer to nothing.
-/

import Pliron.Analyses.LivenessPoints
import Pliron.Lib.SparseSolver

namespace Pliron

open Pliron.Lib Walkers

namespace Context

variable (ctx : Context)

/-- The definition that an operand is a use of. -/
def useDef (use : Use) : Option Value := do
  let user ← ctx.operations use.userOp
  (user.operands.find? (fun opd => opd.useUid = use.useUid)).map Operand.defn

/-- The region that contains the definition of a value. -/
def valueParentRegion (value : Value) : Option RegionPtr :=
  (ctx.valueParentBlock value).bind ctx.blockParentRegion

/-- The operations that use a value, once for each use. -/
def valueUsers (value : Value) : List OpPtr := ((ctx.valueUses value).getD []).map Use.userOp

end Context

namespace Sccp

/-! ## The lattice -/

/-- Compile-time knowledge about the constantness of a value. -/
inductive Constness (A : Type) where
  /-- The analysis has not determined whether this is a constant. -/
  | undetermined
  /-- The analysis has seen one definition of the value, which assigns `val` to it. -/
  | constant (val : A)
  /-- The analysis cannot prove that this value is a constant. -/
  | notAConstant
deriving DecidableEq, Repr

namespace Constness

variable {A : Type}

def leq [DecidableEq A] : Constness A → Constness A → Bool
  | .notAConstant, _ => true
  | _, .undetermined => true
  | .constant va, .constant vb => decide (va = vb)
  | _, _ => false

def meet [DecidableEq A] : Constness A → Constness A → Constness A
  | .notAConstant, _ => .notAConstant
  | _, .notAConstant => .notAConstant
  | .undetermined, x => x
  | x, .undetermined => x
  | .constant va, .constant vb => if va = vb then .constant va else .notAConstant

/-- The attribute of a constant. -/
def attr : Constness A → Option A
  | .constant val => some val
  | _ => none

/-- What a fold result says of a value. -/
def ofFold : Option A → Constness A
  | some val => .constant val
  | none => .notAConstant

end Constness

/-! ## The interfaces of operations -/

/-- A control-flow edge of a region branch operation, with the operands that flow on it, each
    paired with the value that receives it. -/
structure RegionEdge where
  source : RegionBranchPoint
  target : RegionSuccessor
  flows : List (Use × Value)
deriving DecidableEq, Repr

/-- `BranchOpInterface`, and `BranchOpFoldInterface` where it is implemented. -/
structure BranchOp (A : Type) where
  successorOperandRange : Nat → Option (Nat × Nat)
  checkFold : Option (List (Option A) → List BlockPtr)

/-- `RegionBranchOpInterface`, and `RegionBranchOpFoldInterface` where it is implemented. -/
structure RegionBranchOp (A : Type) where
  regionEdges : List RegionEdge
  checkFold : Option
    (RegionBranchPoint → List (Option A) → List (Option A) → List RegionSuccessor)

/-- The interfaces that each operation implements. -/
structure OpInterfaces (A : Type) where
  branch : OpPtr → Option (BranchOp A)
  /-- `check_fold` of `ConstFoldInterface`. -/
  fold : OpPtr → Option (List (Option A) → List (Option A))
  regionBranch : OpPtr → Option (RegionBranchOp A)

/-- The edges that start at a point. -/
def RegionBranchOp.edgesFrom {A : Type} (op : RegionBranchOp A) (point : RegionBranchPoint) :
    List RegionEdge :=
  op.regionEdges.filter (fun edge => edge.source = point)

variable {A : Type} (ctx : Context)

/-- The values forwarded to a successor. -/
def BranchOp.successorOperands (branchOp : BranchOp A) (op : OpPtr) (succIdx : Nat) :
    Option (List Value) := do
  let o ← ctx.operations op
  let range ← branchOp.successorOperandRange succIdx
  (List.range' range.1 (range.2 - range.1)).mapM (fun opdIdx => o.operandDefs[opdIdx]?)

/-! ## The state -/

structure SccpState (A : Type) where
  /-- The outermost operation whose regions are analyzed. -/
  rootOp : OpPtr
  valStates : HMap Value (Constness A)
  /-- Operations that the analysis has marked as reachable. -/
  reachableOps : ISet OpPtr
  /-- Reachable operations that require further processing. -/
  opWorklist : ISet OpPtr

namespace SccpState

variable (st : SccpState A)

/-- What is known of a value. -/
def getValState (val : Value) : Constness A := (st.valStates val).getD .notAConstant

/-- Mark an operation as reachable, and put it into the worklist if it was not before. -/
def markReachable (op : OpPtr) : SccpState A :=
  if op ∈ st.reachableOps then st
  else { st with
    reachableOps := st.reachableOps.insert op
    opWorklist := st.opWorklist.insert op }

/-- Mark the first operation of a block as reachable. -/
def markBlockReachable (block : BlockPtr) : Option (SccpState A) := do
  let b ← ctx.basicBlocks block
  match b.ops.head? with
  | some first => some (st.markReachable first)
  | none => some st

/-- Mark the operation after `op` in its block as reachable. -/
def markNextReachable (op : OpPtr) : Option (SccpState A) :=
  if op = st.rootOp then some st
  else do
    let _ ← ctx.operations op
    match (ctx.opsAfter op).head? with
    | some next => some (st.markReachable next)
    | none => some st

variable [DecidableEq A]

/-- Meet what is known of a value with `incoming`.  The reachable users of a value that got
    lower are put into the worklist. -/
def mergeValState (val : Value) (incoming : Constness A) : Option (SccpState A) :=
  let old := st.getValState val
  let new := old.meet incoming
  if old.leq new then some st
  else do
    let uses ← ctx.valueUses val
    some { st with
      valStates := st.valStates.insert val new
      opWorklist := (uses.map Use.userOp).foldl
        (fun worklist user => if user ∈ st.reachableOps then worklist.insert user else worklist)
        st.opWorklist }

/-- The values are not constants. -/
def mergeAll (vals : List Value) : Option (SccpState A) :=
  vals.foldlM (fun st val => st.mergeValState ctx val .notAConstant) st

/-- Mark the entry blocks of the regions as reachable, and their arguments as no constants. -/
def seedNestedRegions (op : OpPtr) : Option (SccpState A) := do
  let o ← ctx.operations op
  o.regions.foldlM (fun st region => do
    let r ← ctx.regions region
    match r.blocks.head? with
    | none => some st
    | some entry => do
        let b ← ctx.basicBlocks entry
        let st ← st.mergeAll ctx (b.argValues entry)
        st.markBlockReachable ctx entry) st

/-- All values that the operations and blocks inside `rootOp` define, not determined yet. -/
def initialValues (rootOp : OpPtr) : Check (HMap Value (Constness A)) Empty Unit :=
  walkOp ctx .preorderForward (fun node values =>
    match node with
    | .operation op =>
        if op = rootOp then some (.ok .advance, values)
        else do
          let o ← ctx.operations op
          some (.ok .advance, (o.resultValues op).foldl
            (fun values value => values.insert value .undetermined) values)
    | .basicBlock block => do
        let b ← ctx.basicBlocks block
        some (.ok .advance, (b.argValues block).foldl
          (fun values value => values.insert value .undetermined) values)
    | .region _ => some (.ok .advance, values)) rootOp

/-- The initial state for analyzing `rootOp`. -/
def new (rootOp : OpPtr) : Option (SccpState A) := do
  let initial ← initialValues ctx rootOp (fun _ => none)
  seedNestedRegions ctx
    { rootOp := rootOp, valStates := initial.2, reachableOps := [], opWorklist := [] } rootOp

end SccpState

/-! ## Processing an operation -/

variable [DecidableEq A] (ifaces : OpInterfaces A)

/-- What is known of an operand.  An undetermined value of a graph region is taken for no
    constant, and is asserted not to occur elsewhere. -/
def operandState (val : Value) (st : SccpState A) : Option (Constness A) :=
  match st.getValState val with
  | .undetermined => do
      let region ← ctx.valueParentRegion val
      if ← ctx.hasSsaDominance region then none else some .notAConstant
  | constness => some constness

/-- The attributes of the operands that are known to be constant. -/
def operandAttrs (op : OpPtr) (st : SccpState A) : Option (List (Option A)) := do
  let o ← ctx.operations op
  o.operandDefs.mapM (fun val => (operandState ctx val st).map Constness.attr)

/-- Pass what is known of a value on to another one. -/
def forwardValue (st : SccpState A) (flow : Value × Value) : Option (SccpState A) := do
  let incoming ← operandState ctx flow.1 st
  st.mergeValState ctx flow.2 incoming

def processFoldOp (checkFold : List (Option A) → List (Option A)) (op : OpPtr)
    (st : SccpState A) : Option (SccpState A) := do
  let attrs ← operandAttrs ctx op st
  let o ← ctx.operations op
  ((o.resultValues op).zip (checkFold attrs)).foldlM
    (fun st entry => st.mergeValState ctx entry.1 (Constness.ofFold entry.2)) st

/-- The successors that a branch can take. -/
def BranchOp.feasible (branchOp : BranchOp A) (o : Operation) (attrs : List (Option A)) :
    List BlockPtr :=
  match branchOp.checkFold with
  | some checkFold => checkFold attrs
  | none => o.successorDefs

/-- Forward the operands for a successor into the arguments of its block, which is reachable. -/
def processSuccessor (branchOp : BranchOp A) (op : OpPtr) (st : SccpState A)
    (succ : BlockPtr × Nat) : Option (SccpState A) := do
  let forwarded ← branchOp.successorOperands ctx op succ.2
  let block ← ctx.basicBlocks succ.1
  let st ← (forwarded.zip (block.argValues succ.1)).foldlM (forwardValue ctx) st
  st.markBlockReachable ctx succ.1

def processBranchOp (branchOp : BranchOp A) (op : OpPtr) (st : SccpState A) :
    Option (SccpState A) := do
  let attrs ← operandAttrs ctx op st
  let o ← ctx.operations op
  o.successorDefs.zipIdx.foldlM (fun st succ =>
    if succ.1 ∈ branchOp.feasible o attrs then processSuccessor ctx branchOp op st succ
    else some st) st

/-- The successors that the edges from a point can lead to. -/
def RegionBranchOp.feasible (regionBranch : RegionBranchOp A) (point : RegionBranchPoint)
    (opAttrs terminatorAttrs : List (Option A)) : List RegionSuccessor :=
  match regionBranch.checkFold with
  | some checkFold => checkFold point opAttrs terminatorAttrs
  | none => (regionBranch.edgesFrom point).map RegionEdge.target

/-- Mark the target of a region edge as reachable. -/
def markTarget (op : OpPtr) (st : SccpState A) : RegionSuccessor → Option (SccpState A)
  | .region region => do
      let r ← ctx.regions region
      match r.blocks.head? with
      | some entry => st.markBlockReachable ctx entry
      | none => some st
  | .after => st.markNextReachable ctx op

/-- Forward the operands that flow on a region edge, and mark its target. -/
def processRegionEdge (op : OpPtr) (st : SccpState A) (edge : RegionEdge) :
    Option (SccpState A) := do
  let st ← edge.flows.foldlM (fun st flow => do
    let val ← ctx.useDef flow.1
    forwardValue ctx st (val, flow.2)) st
  markTarget ctx op st edge.target

def processRegionBranchEdges (regionBranch : RegionBranchOp A) (op : OpPtr)
    (point : RegionBranchPoint) (opAttrs terminatorAttrs : List (Option A)) (st : SccpState A) :
    Option (SccpState A) :=
  ((regionBranch.edgesFrom point).filter (fun edge =>
    edge.target ∈ regionBranch.feasible point opAttrs terminatorAttrs)).foldlM
      (processRegionEdge ctx op) st

/-- Process the edges that start at a terminator in a region of `parent`. -/
def processRegionTerminator (terminator parent : OpPtr) (st : SccpState A) :
    Option (SccpState A) := do
  let parentAttrs ← operandAttrs ctx parent st
  let attrs ← operandAttrs ctx terminator st
  let regionBranch ← ifaces.regionBranch parent
  processRegionBranchEdges ctx regionBranch parent (.terminator terminator) parentAttrs attrs st

/-- The values that an edge can pass something to: the results, and the arguments of the entry
    blocks. -/
def RegionBranchOp.receiverSlots (op : OpPtr) : Option (List Value) := do
  let o ← ctx.operations op
  let entryArgs ← o.regions.mapM (fun region => do
    let r ← ctx.regions region
    match r.blocks.head? with
    | none => some []
    | some entry => (ctx.basicBlocks entry).map (fun b => b.argValues entry))
  some (o.resultValues op ++ entryArgs.flatten)

/-- The values that some edge passes something to. -/
def RegionBranchOp.receivers (regionBranch : RegionBranchOp A) : List Value :=
  regionBranch.regionEdges.flatMap (fun edge => edge.flows.map Prod.snd)

/-- The terminators that edges start at, each once. -/
def RegionBranchOp.terminators (regionBranch : RegionBranchOp A) : ISet OpPtr :=
  ISet.extend [] (regionBranch.regionEdges.filterMap (fun edge =>
    match edge.source with
    | .terminator terminator => some terminator
    | .parent => none))

/-- The values that no edge passes anything to can have any value, and the edges that start at
    `op` itself are processed. -/
def processParentEdges (regionBranch : RegionBranchOp A) (op : OpPtr) (st : SccpState A) :
    Option (SccpState A) := do
  let attrs ← operandAttrs ctx op st
  let slots ← RegionBranchOp.receiverSlots ctx op
  let st ← st.mergeAll ctx (slots.filter (fun value => value ∉ regionBranch.receivers))
  processRegionBranchEdges ctx regionBranch op .parent attrs [] st

def processRegionBranchOp (regionBranch : RegionBranchOp A) (op : OpPtr) (st : SccpState A) :
    Option (SccpState A) := do
  let st ← processParentEdges ctx regionBranch op st
  -- the feasibility of edges at reachable terminators can depend on the operands
  regionBranch.terminators.foldlM (fun st terminator =>
    if terminator ∈ st.reachableOps then processRegionTerminator ctx ifaces terminator op st
    else some st) st

/-- If `op` starts a region edge of its parent operation, that operation. -/
def regionBranchParent (op : OpPtr) : Option (Option OpPtr) := do
  let o ← ctx.operations op
  if !o.concreteOp.isTerminator then some none
  else
    match ctx.parentOp op with
    | none => some none
    | some parent =>
        match ifaces.regionBranch parent with
        | none => some none
        | some regionBranch =>
            some (if (regionBranch.edgesFrom (.terminator op)).isEmpty then none else some parent)

/-- The results are not constants. -/
def processGenericOp (op : OpPtr) (st : SccpState A) : Option (SccpState A) := do
  let o ← ctx.operations op
  st.mergeAll ctx (o.resultValues op)

/-- The kinds of processing that the interfaces of an operation ask for. -/
def kindCount (op : OpPtr) (parent : Option OpPtr) : Nat :=
  (ifaces.branch op).isSome.toNat + (ifaces.fold op).isSome.toNat +
    (ifaces.regionBranch op).isSome.toNat + parent.isSome.toNat

def processOp (op : OpPtr) (st : SccpState A) : Option (SccpState A) := do
  let parent ← regionBranchParent ctx ifaces op
  guard (kindCount ifaces op parent ≤ 1)
  match ifaces.regionBranch op with
  | some regionBranch => processRegionBranchOp ctx ifaces regionBranch op st
  | none => do
      let st ← st.seedNestedRegions ctx op
      match parent, ifaces.branch op, ifaces.fold op with
      | some parent, _, _ => processRegionTerminator ctx ifaces op parent st
      | none, some branchOp, _ => processBranchOp ctx branchOp op st
      | none, none, some checkFold => processFoldOp ctx checkFold op st
      | none, none, none => processGenericOp ctx op st

/-- Does control continue from `op` to the next operation in its block? -/
def fallsThrough (op : OpPtr) : Option Bool :=
  if (ifaces.regionBranch op).isNone then some true
  else
    match ctx.opParentRegion op with
    | none => some false
    | some region => (ctx.hasSsaDominance region).map (fun ssa => !ssa)

/-! ## The analysis -/

/-- Process an operation from the worklist. -/
def visit (op : OpPtr) (st : SccpState A) : Option (SccpState A) := do
  let st ← processOp ctx ifaces op { st with opWorklist := st.opWorklist.erase op }
  if ← fallsThrough ctx ifaces op then st.markNextReachable ctx op else some st

/-- One iteration of the analysis: an arbitrary operation of the worklist is processed. -/
def Step (st st' : SccpState A) : Prop :=
  ∃ op ∈ st.opWorklist, visit ctx ifaces op st = some st'

/-- The analysis, which pops the operation that was put into the worklist last. -/
def analyze : Nat → SccpState A → Option (SccpState A)
  | 0, _ => none
  | fuel + 1, st =>
      match st.opWorklist.getLast? with
      | none => some st
      | some op => do analyze fuel (← visit ctx ifaces op st)

/-! ## The candidates for rewriting -/

/-- Operations to fold, with the attributes of their operands, and values to replace by a
    constant. -/
structure Candidates (A : Type) where
  foldCandidates : List (OpPtr × List (Option A)) := []
  constValues : List (Value × A) := []

/-- Record the values that are known to be constant. -/
def Candidates.addConstants (st : SccpState A) (found : Candidates A) (vals : List Value) :
    Candidates A :=
  { found with
    constValues := found.constValues ++ vals.filterMap (fun val =>
      (st.getValState val).attr.map (fun attr => (val, attr))) }

/-- Collect the optimization candidates. -/
def collect (st : SccpState A) : Check (Candidates A) Empty Unit :=
  walkOp ctx .preorderForward (fun node found =>
    match node with
    | .operation op => do
        if op ∉ st.reachableOps then some (.ok .advance, found)
        else if (ifaces.fold op).isSome then do
          let attrs ← operandAttrs ctx op st
          some (.ok .advance,
            { found with foldCandidates := found.foldCandidates ++ [(op, attrs)] })
        else do
          let o ← ctx.operations op
          some (.ok .advance, found.addConstants st (o.resultValues op))
    | .basicBlock block => do
        let b ← ctx.basicBlocks block
        -- a block is reached when its first operation is
        if b.ops.head?.all (fun first => first ∉ st.reachableOps) then
          some (.ok .advance, found)
        else some (.ok .advance, found.addConstants st (b.argValues block))
    | .region _ => some (.ok .advance, found)) st.rootOp

end Sccp

end Pliron
