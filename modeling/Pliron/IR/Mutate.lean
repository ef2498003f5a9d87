/-
  Pliron.IR.Mutate

  The mutating operations of the IR.

  Each function takes the context and returns the changed one; `none` is a panic.
  Operands and successors are edited by the same code, with the `OperandKind`
  saying which of the two, and so are the results of an operation and the
  arguments of a block, named by their defining entity.
-/

import Pliron.IR.Nesting

namespace Pliron

/-- What a use can refer to: a value, or a block as the target of a branch. -/
inductive Def where
  | value (value : Value)
  | block (block : BlockPtr)
deriving DecidableEq, Repr

/-- The node that makes a definition. -/
def Def.definer : Def → IRNode
  | .value ⟨_, .op op⟩ => .operation op
  | .value ⟨_, .block b⟩ => .basicBlock b
  | .block b => .basicBlock b

/-- Is this a result of `op`? -/
def Def.isResultOf : Def → OpPtr → Bool
  | .value v, op => decide (v.definingEntity = .op op)
  | .block _, _ => false

/-- Either the operands or the successors of operations. -/
structure OperandKind (δ : Type) where
  get : Operation → List (Operand δ)
  set : Operation → List (Operand δ) → Operation
  toDef : δ → Def

/-- The operands. -/
def operandKind : OperandKind Value where
  get := Operation.operands
  set o l := { o with operands := l }
  toDef := .value

/-- The successors. -/
def successorKind : OperandKind BlockPtr where
  get := Operation.successors
  set o l := { o with successors := l }
  toDef := .block

/-- Modify the first element that satisfies `p`. -/
def modifyFirst {α : Type} (p : α → Bool) (f : α → α) : List α → List α
  | [] => []
  | a :: l => if p a then f a :: l else a :: modifyFirst p f l

namespace Context

variable (ctx : Context)

/-! ## Writing to the arenas -/

def setOp (op : OpPtr) (o : Operation) : Context :=
  { ctx with operations := Function.update ctx.operations op (some o) }

def setBlock (block : BlockPtr) (b : BasicBlock) : Context :=
  { ctx with basicBlocks := Function.update ctx.basicBlocks block (some b) }

def setRegion (region : RegionPtr) (r : Region) : Context :=
  { ctx with regions := Function.update ctx.regions region (some r) }

/-- The values that an entity defines. -/
def valueDefs : DefiningEntity → Option (List ValueDef)
  | .op op => (ctx.operations op).map Operation.results
  | .block block => (ctx.basicBlocks block).map BasicBlock.args

def setValueDefs (entity : DefiningEntity) (l : List ValueDef) : Option Context :=
  match entity with
  | .op op => (ctx.operations op).map (fun o => ctx.setOp op { o with results := l })
  | .block block => (ctx.basicBlocks block).map (fun b => ctx.setBlock block { b with args := l })

/-! ## Definitions and their uses -/

/-- The use set of a definition. -/
def usesOf : Def → Option (List Use)
  | .value v => ctx.valueUses v
  | .block block => (ctx.basicBlocks block).map (fun b => b.preds.uses)

/-- Write the use set of a definition. -/
def setUses (d : Def) (uses : List Use) : Option Context :=
  match d with
  | .value v => do
      let l ← ctx.valueDefs v.definingEntity
      ctx.setValueDefs v.definingEntity
        (modifyFirst (fun e => e.valUid = v.valUid) (fun e => { e with defNode := ⟨uses⟩ }) l)
  | .block block =>
      (ctx.basicBlocks block).map (fun b => ctx.setBlock block { b with preds := ⟨uses⟩ })

/-- Track a new use; panics if it exists. -/
def addUse (d : Def) (use : Use) : Option Context := do
  let uses ← ctx.usesOf d
  guard (use ∉ uses)
  ctx.setUses d (uses ++ [use])

/-- Remove a use; panics if it does not exist. -/
def removeUse (d : Def) (use : Use) : Option Context := do
  let uses ← ctx.usesOf d
  guard (use ∈ uses)
  ctx.setUses d (uses.erase use)

/-! ## Operands and successors -/

section Operands

variable {δ : Type} (k : OperandKind δ)

/-- Create a new operand in `userOp`. -/
def newOperand (defn : δ) (userOp : OpPtr) : Option (Operand δ × Context) := do
  let useUid := ctx.useCounter
  let ctx ← { ctx with useCounter := useUid + 1 }.addUse (k.toDef defn) ⟨userOp, useUid⟩
  some (⟨useUid, defn⟩, ctx)

/-- Create new operands in `userOp`. -/
def newOperands (ctx : Context) : List δ → OpPtr → Option (List (Operand δ) × Context)
  | [], _ => some ([], ctx)
  | defn :: defns, userOp => do
      let (opd, ctx) ← ctx.newOperand k defn userOp
      let (opds, ctx) ← newOperands ctx defns userOp
      some (opd :: opds, ctx)

/-- Drop the use that an operand of `op` makes. -/
def dropUse (op : OpPtr) (opd : Operand δ) : Option Context :=
  ctx.removeUse (k.toDef opd.defn) ⟨op, opd.useUid⟩

/-- Add a new operand to the end of the list. -/
def pushRef (this : OpPtr) (newDef : δ) : Option Context := do
  let (opd, ctx) ← ctx.newOperand k newDef this
  let o ← ctx.operations this
  some (ctx.setOp this (k.set o (k.get o ++ [opd])))

/-- Insert a new operand at an index, which may be the length of the list. -/
def insertRef (this : OpPtr) (idx : Nat) (newDef : δ) : Option Context := do
  let (opd, ctx) ← ctx.newOperand k newDef this
  let o ← ctx.operations this
  guard (idx ≤ (k.get o).length)
  some (ctx.setOp this (k.set o ((k.get o).insertIdx idx opd)))

/-- Remove the operand at an index, and return what it referred to. -/
def removeRef (this : OpPtr) (idx : Nat) : Option (δ × Context) := do
  let o ← ctx.operations this
  let opd ← (k.get o)[idx]?
  let ctx ← (ctx.setOp this (k.set o ((k.get o).eraseIdx idx))).dropUse k this opd
  some (opd.defn, ctx)

/-- Remove the last operand. -/
def popRef (this : OpPtr) : Option (δ × Context) := do
  let o ← ctx.operations this
  guard (0 < (k.get o).length)
  ctx.removeRef k this ((k.get o).length - 1)

/-- Replace the operand at an index.  The operation is still borrowed when the old use is
    dropped, which panics if that use is of one of its own results. -/
def replaceRef (this : OpPtr) (idx : Nat) (other : δ) : Option Context := do
  let (opd, ctx) ← ctx.newOperand k other this
  let o ← ctx.operations this
  let old ← (k.get o)[idx]?
  let ctx := ctx.setOp this (k.set o ((k.get o).set idx opd))
  guard (!(k.toDef old.defn).isResultOf this)
  ctx.dropUse k this old

/-- Replace a use of `this` with `other`. -/
def replaceUseWith [DecidableEq δ] (this : δ) (use : Use) (other : δ) : Option Context := do
  let _ ← ctx.usesOf (k.toDef this)
  let _ ← ctx.usesOf (k.toDef other)
  if this = other then some ctx
  else do
    let ctx ← ctx.addUse (k.toDef other) use
    let o ← ctx.operations use.userOp
    let idx ← (k.get o).findIdx? (fun opd => opd.useUid = use.useUid)
    let ctx := ctx.setOp use.userOp
      (k.set o ((k.get o).modify idx (fun opd => { opd with defn := other })))
    let uses ← ctx.usesOf (k.toDef this)
    ctx.setUses (k.toDef this) (uses.erase use)

/-- Replace the uses of `this` that satisfy a predicate with `other`. -/
def replaceSomeUses [DecidableEq δ] (this : δ) (predicate : Use → Option Bool) (other : δ) :
    Option Context := do
  let touched ← (← ctx.usesOf (k.toDef this)).filterM predicate
  touched.foldlM (fun ctx use => ctx.replaceUseWith k this use other) ctx

end Operands

def pushOperand (this : OpPtr) (newOpd : Value) : Option Context :=
  ctx.pushRef operandKind this newOpd

def insertOperand (this : OpPtr) (opdIdx : Nat) (newOpd : Value) : Option Context :=
  ctx.insertRef operandKind this opdIdx newOpd

def removeOperand (this : OpPtr) (opdIdx : Nat) : Option (Value × Context) :=
  ctx.removeRef operandKind this opdIdx

def popOperand (this : OpPtr) : Option (Value × Context) := ctx.popRef operandKind this

def replaceOperand (this : OpPtr) (opdIdx : Nat) (other : Value) : Option Context :=
  ctx.replaceRef operandKind this opdIdx other

def pushSuccessor (this : OpPtr) (newSucc : BlockPtr) : Option Context :=
  ctx.pushRef successorKind this newSucc

def insertSuccessor (this : OpPtr) (succIdx : Nat) (newSucc : BlockPtr) : Option Context :=
  ctx.insertRef successorKind this succIdx newSucc

def removeSuccessor (this : OpPtr) (succIdx : Nat) : Option (BlockPtr × Context) :=
  ctx.removeRef successorKind this succIdx

def popSuccessor (this : OpPtr) : Option (BlockPtr × Context) := ctx.popRef successorKind this

def replaceSuccessor (this : OpPtr) (succIdx : Nat) (other : BlockPtr) : Option Context :=
  ctx.replaceRef successorKind this succIdx other

/-- Replace uses of a value, that satisfy the predicate, with `other`. -/
def replaceSomeUsesWith (this : Value) (predicate : Context → Use → Bool) (other : Value) :
    Option Context :=
  ctx.replaceSomeUses operandKind this (fun use => some (predicate ctx use)) other

/-- Retarget the predecessors of a block that satisfy the predicate to `other`. -/
def retargetSomePredsTo (this : BlockPtr) (predicate : Context → BlockPtr → Bool)
    (other : BlockPtr) : Option Context :=
  ctx.replaceSomeUses successorKind this
    (fun use => (ctx.opParentBlock use.userOp).map (predicate ctx)) other

/-! ## Results and arguments -/

/-- New values of the given types, without uses. -/
def newValueDefs (ctx : Context) : List TypeHandle → List ValueDef × Context
  | [] => ([], ctx)
  | ty :: tys =>
      let value : ValueDef := ⟨⟨[]⟩, ctx.valueCounter, ty⟩
      let (values, ctx) := newValueDefs { ctx with valueCounter := ctx.valueCounter + 1 } tys
      (value :: values, ctx)

/-- Insert a new value at an index of an entity's values. -/
def insertValue (entity : DefiningEntity) (idx : Nat) (ty : TypeHandle) : Option Context := do
  let value : ValueDef := ⟨⟨[]⟩, ctx.valueCounter, ty⟩
  let ctx := { ctx with valueCounter := ctx.valueCounter + 1 }
  let l ← ctx.valueDefs entity
  guard (idx ≤ l.length)
  ctx.setValueDefs entity (l.insertIdx idx value)

/-- Add a new value to the end of an entity's values. -/
def pushValue (entity : DefiningEntity) (ty : TypeHandle) : Option Context := do
  let value : ValueDef := ⟨⟨[]⟩, ctx.valueCounter, ty⟩
  let ctx := { ctx with valueCounter := ctx.valueCounter + 1 }
  let l ← ctx.valueDefs entity
  ctx.setValueDefs entity (l ++ [value])

/-- Remove an unused value; panics if it has uses. -/
def removeValue (entity : DefiningEntity) (idx : Nat) : Option Context := do
  let l ← ctx.valueDefs entity
  let value ← l[idx]?
  let uses ← ctx.valueUses ⟨value.valUid, entity⟩
  guard uses.isEmpty
  ctx.setValueDefs entity (l.eraseIdx idx)

def popValue (entity : DefiningEntity) : Option Context := do
  let l ← ctx.valueDefs entity
  guard (0 < l.length)
  ctx.removeValue entity (l.length - 1)

def pushResult (this : OpPtr) (ty : TypeHandle) : Option Context := ctx.pushValue (.op this) ty

def insertResult (this : OpPtr) (resIdx : Nat) (ty : TypeHandle) : Option Context :=
  ctx.insertValue (.op this) resIdx ty

def removeResult (this : OpPtr) (resIdx : Nat) : Option Context := ctx.removeValue (.op this) resIdx

def popResult (this : OpPtr) : Option Context := ctx.popValue (.op this)

def pushArgument (block : BlockPtr) (ty : TypeHandle) : Option Context :=
  ctx.pushValue (.block block) ty

def insertArgument (block : BlockPtr) (argIdx : Nat) (ty : TypeHandle) : Option Context :=
  ctx.insertValue (.block block) argIdx ty

def removeArgument (block : BlockPtr) (argIdx : Nat) : Option Context :=
  ctx.removeValue (.block block) argIdx

def popArgument (block : BlockPtr) : Option Context := ctx.popValue (.block block)

/-! ## Creating operations, regions and blocks -/

/-- Create a new region in an operation. -/
def newRegion (parentOp : OpPtr) : RegionPtr × Context :=
  let region : RegionPtr := ⟨ctx.nextRegion⟩
  (region, { ctx.setRegion region { parentOp := parentOp } with nextRegion := ctx.nextRegion + 1 })

def newRegions (ctx : Context) (parentOp : OpPtr) : Nat → List RegionPtr × Context
  | 0 => ([], ctx)
  | n + 1 =>
      let (region, ctx) := ctx.newRegion parentOp
      let (regions, ctx) := newRegions ctx parentOp n
      (region :: regions, ctx)

/-- Create a new operation that is in no block. -/
def newOp (concreteOp : ConcreteOpInfo) (resultTypes : List TypeHandle) (operands : List Value)
    (successors : List BlockPtr) (numRegions : Nat) : Option (OpPtr × Context) := do
  let newop : OpPtr := ⟨ctx.nextOp⟩
  let ctx := { ctx.setOp newop { concreteOp := concreteOp } with nextOp := ctx.nextOp + 1 }
  let (results, ctx) := ctx.newValueDefs resultTypes
  let ctx := ctx.setOp newop { (← ctx.operations newop) with results := results }
  let (opds, ctx) ← ctx.newOperands operandKind operands newop
  let ctx := ctx.setOp newop { (← ctx.operations newop) with operands := opds }
  let (succs, ctx) ← ctx.newOperands successorKind successors newop
  let ctx := ctx.setOp newop { (← ctx.operations newop) with successors := succs }
  let (regions, ctx) := ctx.newRegions newop numRegions
  let ctx := ctx.setOp newop { (← ctx.operations newop) with regions := regions }
  some (newop, ctx)

/-- Add a new empty region to an operation. -/
def addRegion (op : OpPtr) : Option (RegionPtr × Context) := do
  let (region, ctx) := ctx.newRegion op
  let o ← ctx.operations op
  some (region, ctx.setOp op { o with regions := o.regions ++ [region] })

/-- Create a new basic block that is in no region. -/
def newBlock (label : Option String) (argTypes : List TypeHandle) :
    Option (BlockPtr × Context) := do
  let newblock : BlockPtr := ⟨ctx.nextBlock⟩
  let ctx := { ctx.setBlock newblock { label := label } with nextBlock := ctx.nextBlock + 1 }
  let (args, ctx) := ctx.newValueDefs argTypes
  let ctx := ctx.setBlock newblock { (← ctx.basicBlocks newblock) with args := args }
  some (newblock, ctx)

/-! ## Linking -/

/-- Where a node is inserted into a list. -/
inductive InsertPoint (ν κ : Type) where
  | atFront (container : κ)
  | atBack (container : κ)
  | after (mark : ν)
  | before (mark : ν)
deriving DecidableEq, Repr

/-- The list with a node inserted, relative to a mark if that is given. -/
def insertNode {ν κ : Type} [DecidableEq ν] (point : InsertPoint ν κ) (node : ν) (l : List ν) :
    List ν :=
  match point with
  | .atFront _ => node :: l
  | .atBack _ => l ++ [node]
  | .after mark => l.insertIdx (l.idxOf mark + 1) node
  | .before mark => l.insertIdx (l.idxOf mark) node

/-- The container that an insertion point is in. -/
def insertContainer {ν κ : Type} (containerOf : ν → Option κ) : InsertPoint ν κ → Option κ
  | .atFront container => some container
  | .atBack container => some container
  | .after mark => containerOf mark
  | .before mark => containerOf mark

/-- Link an operation into a block; panics if it is linked already. -/
def linkOp (op : OpPtr) (point : InsertPoint OpPtr BlockPtr) : Option Context := do
  let o ← ctx.operations op
  guard (o.parentBlock = none)
  let block ← insertContainer ctx.opParentBlock point
  let ctx := ctx.setOp op { o with parentBlock := some block }
  let b ← ctx.basicBlocks block
  some (ctx.setBlock block { b with ops := insertNode point op b.ops })

/-- Insertion point specification for inserting operations. -/
inductive OpInsertionPoint where
  | unset
  | set (point : InsertPoint OpPtr BlockPtr)
deriving DecidableEq, Repr

/-- The insertion block, if the point is set. -/
def getInsertionBlock : OpInsertionPoint → Option BlockPtr
  | .unset => none
  | .set point => insertContainer ctx.opParentBlock point

/-- Insert an operation; panics if the insertion point is not set. -/
def insertOperation (op : OpPtr) : OpInsertionPoint → Option Context
  | .unset => none
  | .set point => ctx.linkOp op point

/-- Unlink an operation from its block. -/
def unlinkOp (op : OpPtr) : Option Context := do
  let o ← ctx.operations op
  let block ← o.parentBlock
  let ctx := ctx.setOp op { o with parentBlock := none }
  let b ← ctx.basicBlocks block
  some (ctx.setBlock block { b with ops := b.ops.erase op })

/-- Link a block into a region; panics if it is linked already. -/
def linkBlock (block : BlockPtr) (point : InsertPoint BlockPtr RegionPtr) : Option Context := do
  let b ← ctx.basicBlocks block
  guard (b.parentRegion = none)
  let region ← insertContainer ctx.blockParentRegion point
  let ctx := ctx.setBlock block { b with parentRegion := some region }
  let r ← ctx.regions region
  some (ctx.setRegion region { r with blocks := insertNode point block r.blocks })

/-- Unlink a block from its region. -/
def unlinkBlock (block : BlockPtr) : Option Context := do
  let b ← ctx.basicBlocks block
  let region ← b.parentRegion
  let ctx := ctx.setBlock block { b with parentRegion := none }
  let r ← ctx.regions region
  some (ctx.setRegion region { r with blocks := r.blocks.erase block })

/-! ## Erasing -/

/-- The operands of an operation cease to be uses, and then its successors. -/
def dropOwnUses (op : OpPtr) : Option Context := do
  let o ← ctx.operations op
  let ctx ← o.operands.foldlM (fun ctx opd => ctx.dropUse operandKind op opd)
    (ctx.setOp op { o with operands := [] })
  let o ← ctx.operations op
  o.successors.foldlM (fun ctx succ => ctx.dropUse successorKind op succ)
    (ctx.setOp op { o with successors := [] })

/-- The node exists. -/
def isAllocated : IRNode → Bool
  | .operation op => (ctx.operations op).isSome
  | .basicBlock block => (ctx.basicBlocks block).isSome
  | .region region => (ctx.regions region).isSome

/-- Drop the uses that a node itself holds: only operations hold uses. -/
def dropNodeUses : IRNode → Option Context
  | .operation op => ctx.dropOwnUses op
  | .basicBlock _ => some ctx
  | .region _ => some ctx

/-- Drop all uses that a node holds, and those of everything in it. -/
def dropAllUses : Nat → Context → IRNode → Option Context
  | 0, _, _ => none
  | fuel + 1, ctx, node => do
      guard (ctx.isAllocated node)
      let ctx ← ctx.dropNodeUses node
      (ctx.childNodes node).foldlM (dropAllUses fuel) ctx

/-- Remove a node from its arena. -/
def removeNode : IRNode → Context
  | .operation op => { ctx with operations := Function.update ctx.operations op none }
  | .basicBlock block => { ctx with basicBlocks := Function.update ctx.basicBlocks block none }
  | .region region => { ctx with regions := Function.update ctx.regions region none }

/-- Deallocate a node and everything in it. -/
def dealloc : Nat → Context → IRNode → Option Context
  | 0, _, _ => none
  | fuel + 1, ctx, node => do
      guard (ctx.isAllocated node)
      let ctx ← (ctx.childNodes node).foldlM (dealloc fuel) ctx
      some (ctx.removeNode node)

/-- Unlink a node, if it is linked. -/
def unlinkNode : IRNode → Option Context
  | .operation op => if (ctx.opParentBlock op).isSome then ctx.unlinkOp op else some ctx
  | .basicBlock block =>
      if (ctx.blockParentRegion block).isSome then ctx.unlinkBlock block else some ctx
  | .region _ => some ctx

/-- Unlink and deallocate an operation and everything that it contains.  Panics if there are
    any uses of this operation. -/
def eraseOp (op : OpPtr) : Option Context := do
  let ctx ← dropAllUses (ctx.nodeCount + 1) ctx (.operation op)
  guard (!(← ctx.operations op).hasUse)
  let ctx ← ctx.unlinkNode (.operation op)
  dealloc (ctx.nodeCount + 1) ctx (.operation op)

/-- Unlink and deallocate a block and everything that it contains.  Panics if it has
    predecessors, or if an argument or an operation directly in it has a use. -/
def eraseBlock (block : BlockPtr) : Option Context := do
  let ctx ← dropAllUses (ctx.nodeCount + 1) ctx (.basicBlock block)
  let b ← ctx.basicBlocks block
  guard b.preds.uses.isEmpty
  guard (b.args.all (fun arg => arg.defNode.uses.isEmpty))
  let ops ← b.ops.mapM ctx.operations
  guard (ops.all (fun o => !o.hasUse))
  let ctx ← ctx.unlinkNode (.basicBlock block)
  dealloc (ctx.nodeCount + 1) ctx (.basicBlock block)

/-- Erase a region of an operation. -/
def eraseRegion (op : OpPtr) (regIdx : Nat) : Option Context := do
  let reg ← (← ctx.operations op).regions[regIdx]?
  let ctx ← dropAllUses (ctx.nodeCount + 1) ctx (.region reg)
  let o ← ctx.operations op
  let ctx := ctx.setOp op { o with regions := o.regions.eraseIdx regIdx }
  dealloc (ctx.nodeCount + 1) ctx (.region reg)

end Context

end Pliron
