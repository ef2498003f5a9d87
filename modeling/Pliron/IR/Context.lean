/-
  Pliron.IR.Context

  The IR as the context stores it: three arenas of operations, basic blocks and
  regions that refer to each other by pointer, and two counters that hand out
  unique numbers for values and uses.

  An arena is a partial map from pointers to objects together with the next
  pointer to hand out, so a pointer is never reused and dereferencing a
  deallocated object is `none`, the panic of the source.  The linked lists of
  operations in a block and of blocks in a region are lists in their container;
  the back pointers to the container are fields of the members, as in the source.

  The concrete type of an operation is its identifier with the interfaces the
  code asks about.
-/

import Mathlib.Logic.Function.Basic
import Mathlib.Tactic

namespace Pliron

/-! ## Pointers, values and uses -/

/-- Pointer to an operation. -/
structure OpPtr where
  idx : Nat
deriving DecidableEq, Repr

/-- Pointer to a basic block. -/
structure BlockPtr where
  idx : Nat
deriving DecidableEq, Repr

/-- Pointer to a region. -/
structure RegionPtr where
  idx : Nat
deriving DecidableEq, Repr

/-- The defining entity of a value: an operation (as its result) or a block (as its
    argument). -/
inductive DefiningEntity where
  | op (op : OpPtr)
  | block (block : BlockPtr)
deriving DecidableEq, Repr

/-- Describes a value definition. -/
structure Value where
  valUid : Nat
  definingEntity : DefiningEntity
deriving DecidableEq, Repr

/-- Describes the use of a value, or of a block, by an operation. -/
structure Use where
  userOp : OpPtr
  useUid : Nat
deriving DecidableEq, Repr

/-- A definition contains the set of its uses, here in insertion order. -/
structure DefNode where
  uses : List Use
deriving DecidableEq, Repr

/-- An operand (or successor) of an operation. -/
structure Operand (δ : Type) where
  useUid : Nat
  defn : δ
deriving DecidableEq, Repr

/-! ## The objects of the arenas -/

/-- A uniqued handle to a type. -/
abbrev TypeHandle := Nat

/-- A result of an operation, or an argument of a block. -/
structure ValueDef where
  defNode : DefNode
  valUid : Nat
  ty : TypeHandle
deriving DecidableEq, Repr

/-- The name of a symbol, an attribute or a label. -/
abbrev Identifier := String

/-- An attribute: an `IdentifierAttr`, or another one. -/
inductive Attribute where
  | identifier (name : Identifier)
  | other (handle : Nat)
deriving DecidableEq, Repr

/-- The concrete type of an operation, and the interfaces it implements. -/
structure ConcreteOpInfo where
  opId : Nat
  /-- Implements `IsTerminatorInterface`. -/
  isTerminator : Bool := false
  /-- Implements `BranchOpInterface`. -/
  isBranch : Bool := false
  /-- Implements `SymbolOpInterface`. -/
  isSymbol : Bool := false
  /-- `has_ssa_dominance` of `RegionKindInterface`, when that is implemented. -/
  regionKind : Option (Nat → Bool) := none

/-- Basic unit of execution.  May or may not be in a block. -/
structure Operation where
  concreteOp : ConcreteOpInfo
  results : List ValueDef := []
  operands : List (Operand Value) := []
  successors : List (Operand BlockPtr) := []
  parentBlock : Option BlockPtr := none
  attributes : List (Identifier × Attribute) := []
  regions : List RegionPtr := []

/-- A basic block contains a list of operations.  It may have arguments. -/
structure BasicBlock where
  label : Option String := none
  ops : List OpPtr := []
  args : List ValueDef := []
  preds : DefNode := ⟨[]⟩
  parentRegion : Option RegionPtr := none
  attributes : List (Identifier × Attribute) := []

/-- A region is an ordered list of blocks contained in an operation. -/
structure Region where
  parentOp : OpPtr
  blocks : List BlockPtr := []

/-- A context stores all IR data of a compilation session. -/
structure Context where
  valueCounter : Nat := 0
  useCounter : Nat := 0
  operations : OpPtr → Option Operation := fun _ => none
  basicBlocks : BlockPtr → Option BasicBlock := fun _ => none
  regions : RegionPtr → Option Region := fun _ => none
  nextOp : Nat := 0
  nextBlock : Nat := 0
  nextRegion : Nat := 0

/-! ## Reading the IR -/

namespace Operation

/-- The results of an operation as values. -/
def resultValues (op : Operation) (self : OpPtr) : List Value :=
  op.results.map (fun r => ⟨r.valUid, .op self⟩)

/-- The definitions an operation uses as operands. -/
def operandDefs (op : Operation) : List Value := op.operands.map Operand.defn

/-- The blocks an operation names as successors. -/
def successorDefs (op : Operation) : List BlockPtr := op.successors.map Operand.defn

/-- Does any result of this operation have a use? -/
def hasUse (op : Operation) : Bool := op.results.any (fun r => !r.defNode.uses.isEmpty)

end Operation

namespace BasicBlock

/-- The arguments of a block as values. -/
def argValues (block : BasicBlock) (self : BlockPtr) : List Value :=
  block.args.map (fun a => ⟨a.valUid, .block self⟩)

end BasicBlock

namespace Context

variable (ctx : Context)

/-- Parent block of an operation. -/
def opParentBlock (op : OpPtr) : Option BlockPtr := do (← ctx.operations op).parentBlock

/-- Parent region of a block. -/
def blockParentRegion (block : BlockPtr) : Option RegionPtr := do
  (← ctx.basicBlocks block).parentRegion

/-- Parent operation of a region. -/
def regionParentOp (region : RegionPtr) : Option OpPtr :=
  (ctx.regions region).map Region.parentOp

/-- Parent region of an operation. -/
def opParentRegion (op : OpPtr) : Option RegionPtr := do
  ctx.blockParentRegion (← ctx.opParentBlock op)

/-- Parent block of a region: the block that contains its parent operation. -/
def regionParentBlock (region : RegionPtr) : Option BlockPtr := do
  ctx.opParentBlock (← ctx.regionParentOp region)

/-- Parent operation of a block. -/
def blockParentOp (block : BlockPtr) : Option OpPtr := do
  ctx.regionParentOp (← ctx.blockParentRegion block)

/-- The operations of a block, in order. -/
def blockOps (block : BlockPtr) : List OpPtr :=
  ((ctx.basicBlocks block).map BasicBlock.ops).getD []

/-- The blocks of a region, in order. -/
def regionBlocks (region : RegionPtr) : List BlockPtr :=
  ((ctx.regions region).map Region.blocks).getD []

/-- The regions of an operation, in order. -/
def opRegions (op : OpPtr) : List RegionPtr :=
  ((ctx.operations op).map Operation.regions).getD []

/-- The definition node of a value.  `none` is the panic on a value that its defining entity
    does not currently define. -/
def valueDef (value : Value) : Option ValueDef :=
  match value.definingEntity with
  | .op op => do (← ctx.operations op).results.find? (fun r => r.valUid = value.valUid)
  | .block block => do (← ctx.basicBlocks block).args.find? (fun a => a.valUid = value.valUid)

/-- All uses of a value. -/
def valueUses (value : Value) : Option (List Use) :=
  (ctx.valueDef value).map (fun d => d.defNode.uses)

/-- The block that contains the definition of a value. -/
def valueParentBlock (value : Value) : Option BlockPtr :=
  match value.definingEntity with
  | .op op => ctx.opParentBlock op
  | .block block => some block

/-- The block terminator, if one exists. -/
def terminator (block : BlockPtr) : Option OpPtr := do
  let last ← (ctx.blockOps block).getLast?
  let op ← ctx.operations last
  if op.concreteOp.isTerminator then some last else none

/-- The successors of a block: those of its terminator. -/
def blockSuccs (block : BlockPtr) : List BlockPtr :=
  (((ctx.terminator block).bind ctx.operations).map Operation.successorDefs).getD []

/-- The predecessors of a block: the blocks of the operations that use it.  A use by an
    operation in no block, on which the source panics, is left out. -/
def blockPreds (block : BlockPtr) : List BlockPtr :=
  (((ctx.basicBlocks block).map (fun b => b.preds.uses)).getD []).filterMap
    (fun u => ctx.opParentBlock u.userOp)

end Context

end Pliron
