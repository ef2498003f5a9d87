/-
  Pliron.LLVM.FromLlvm

  Importing a function of LLVM.

  The blocks are visited in the order `rpo` computes from `successors`; each instruction becomes an
  operation whose operands are looked up among the values converted before.  Conversions of types
  do not fail here, and the attribute of an aggregate constant, when it has one, is a parameter.
-/

import Pliron.Lib.DfsWalk
import Pliron.Lib.Triple
import Pliron.LLVM.LlvmSys
import Pliron.Utils.Table

namespace Pliron.FromLlvm

open Lib

/-- How a conversion ends early. -/
inductive Failure where
  | opdMissing (idx : Nat)
  | succMissing (idx : Nat)
  | phiArgMissing (src : LLVMBasicBlock)
  | undefinedValue (val : LLVMValue)
  | undefinedBlock (block : LLVMBasicBlock)
  | switchCaseNonIntConst
  | switchCaseNotInteger
  | zeroWidthIntConst
  | intConstTooWide (width : Nat)
  | constWithoutAttr (id : Nat)
  /-- `todo!`, `unreachable!`, `unwrap` or an assertion. -/
  | panic
deriving DecidableEq, Repr

/-! ## Successors -/

/-- `llvm_get_operand` -/
def getLlvmOperand (inst : Instruction) (index : Nat) : Except Failure LLVMValue :=
  match inst.operands[index]? with
  | some val => .ok val
  | none => .error .panic

/-- `llvm_value_as_basic_block` of an operand. -/
def blockOperand (inst : Instruction) (index : Nat) : Except Failure LLVMBasicBlock := do
  match (← getLlvmOperand inst index).asBasicBlock? with
  | some block => pure block
  | none => throw .panic

/-- The successors of a block. -/
def successors (f : Function) (block : LLVMBasicBlock) : Except Failure (List LLVMBasicBlock) :=
  match f.terminator block with
  | none => pure []
  | some term =>
    match term.opcode with
    | .uncondBr =>
        if term.operands.length = 1 then do pure [← blockOperand term 0] else throw .panic
    | .condBr =>
        if term.operands.length = 3 then do pure [← blockOperand term 1, ← blockOperand term 2]
        else throw .panic
    | .switch => do
        -- the subtraction is on `u32`
        if term.operands.length < 2 then throw .panic
        let numCases := (term.operands.length - 2) / 2
        let default ← blockOperand term 1
        let cases ← (List.range numCases).mapM (fun i => blockOperand term (2 + 2 * i + 1))
        pure (default :: cases)
    | .indirectBr =>
        (List.range (term.operands.length - 1)).mapM (fun i => blockOperand term (i + 1))
    | .ret | .unreachable => pure []
    | _ => throw .panic

/-- The nested function `walk` of `rpo`; the state is `visited` and `po`. -/
def rpoWalk (f : Function) : Nat → LLVMBasicBlock →
    List LLVMBasicBlock × List LLVMBasicBlock →
    Except Failure (List LLVMBasicBlock × List LLVMBasicBlock)
  | 0, _, s => pure s
  | fuel + 1, block, s =>
      if block ∈ s.1 then pure s
      else do
        let succs ← successors f block
        let s' ← succs.foldlM (fun s succ => rpoWalk f fuel succ s) (block :: s.1, s.2)
        pure (s'.1, s'.2 ++ [block])

/-- The blocks of a function in reverse post-order. -/
def rpo (f : Function) : Except Failure (List LLVMBasicBlock) := do
  let s ← f.blocks.foldlM
    (fun s block =>
      if block ∈ s.1 then pure s
      else do
        let s' ← rpoWalk f (f.blocks.length + 1) block (s.1, [])
        pure (s'.1, s.2 ++ s'.2.reverse))
    (([], []) : List LLVMBasicBlock × List LLVMBasicBlock)
  pure s.2

/-! ## The IR under construction -/

/-- An attribute of a constant. -/
inductive Attr where
  | integer (width value : Nat)
  | other (id : Nat)
deriving DecidableEq, Repr

/-- A value of the IR: a result of an operation, or an argument of a block. -/
inductive Value where
  | opResult (op : Nat)
  | blockArgument (block index : Nat)
deriving DecidableEq, Repr

/-- The kind of an operation. -/
inductive OpKind where
  /-- The operation for an opcode. -/
  | inst (opcode : LLVMOpcode)
  | call (name : String) | callIndirect | callIntrinsic (name : String) | inlineAsm
  | constant (attr : Attr) | undef | poison | zero
  | addressOf (name : String) | blockAddress (function : String) (tag : Nat)
deriving DecidableEq, Repr

structure Operation where
  id : Nat
  kind : OpKind
  operands : List Value
  /-- The successors, each with the operands passed to it. -/
  successors : List (Nat × List Value) := []
  /-- Constant indices of an address computation or of an element. -/
  indices : List Nat := []
  /-- The case values of a switch. -/
  cases : List Attr := []
deriving DecidableEq, Repr

structure BasicBlock where
  numArguments : Nat := 0
  ops : List Operation := []
deriving DecidableEq, Repr

/-- `ConversionContext`, with the IR being built. -/
structure ConversionContext where
  valueMap : HMap LLVMValue Value
  blockMap : HMap LLVMBasicBlock Nat
  blockTagMap : HMap (String × LLVMBasicBlock) Nat
  blockTagCounter : Nat
  /-- The operations put in by `constants_inserter`, which are the first of the entry block. -/
  constants : List Operation
  /-- The blocks of the function, without `constants`. -/
  blocks : Nat → BasicBlock
  nextOp : Nat

abbrev ImportM := Prog ConversionContext Failure

/-- The attributes of the constants, where there is one. -/
abbrev AttrOf := Nat → Option Attr

/-- A new operation, not inserted yet. -/
def newOp (kind : OpKind) (operands : List Value) (successors : List (Nat × List Value) := [])
    (indices : List Nat := []) (cases : List Attr := []) : ImportM Operation := do
  let cctx ← get
  set { cctx with nextOp := cctx.nextOp + 1 }
  pure ⟨cctx.nextOp, kind, operands, successors, indices, cases⟩

/-- Insert a new constant instruction in the entry block. -/
def insertConstInst (kind : OpKind) (operands : List Value) (indices : List Nat := []) :
    ImportM Value := do
  let op ← newOp kind operands [] indices
  modify fun cctx => { cctx with constants := cctx.constants ++ [op] }
  pure (.opResult op.id)

/-- `cctx.value_map.insert` -/
def insertValue (val : LLVMValue) (mVal : Value) : ImportM Unit :=
  modify fun cctx => { cctx with valueMap := cctx.valueMap.insert val mVal }

/-- `cctx.value_map.get`, where a missing value ends the conversion. -/
def lookupValue (val : LLVMValue) (failure : Failure) : ImportM Value := do
  match (← get).valueMap val with
  | some mVal => pure mVal
  | none => throw failure

/-! ## Constants -/

/-- The attribute of a constant operation that defines a value. -/
def getConstOpAsInt (cctx : ConversionContext) : Value → Option Attr
  | .opResult op =>
      match cctx.constants.find? (·.id = op) with
      | some ⟨_, .constant (.integer width value), _, _, _, _⟩ => some (.integer width value)
      | _ => none
  | .blockArgument _ _ => none

def getConstOpAsU32 (cctx : ConversionContext) (val : Value) : Option Nat :=
  match getConstOpAsInt cctx val with
  | some (.integer 32 value) => some value
  | _ => none

/-- Split indices in values and constants. -/
def gepIndices (cctx : ConversionContext) (vals : List Value) : List Value × List Nat :=
  (vals.filter (fun v => (getConstOpAsU32 cctx v).isNone), vals.filterMap (getConstOpAsU32 cctx))

/-- `const_llvm_value_to_attr`: integers have an attribute up to 64 bits. -/
def constLlvmValueToAttr (f : Function) (attrOf : AttrOf) (c : Nat) :
    Except Failure (Option Attr) :=
  match f.constants.get c with
  | .int width value =>
      if width = 0 then throw .zeroWidthIntConst
      else if 64 < width then throw (.intConstTooWide width)
      else pure (some (.integer width value))
  | _ => pure (attrOf c)

/-- The result of a conversion that does not touch the IR. -/
def liftExcept {α : Type} : Except Failure α → ImportM α
  | .ok a => pure a
  | .error e => throw e

/-- `const_llvm_value_to_const_op` -/
def constLlvmValueToConstOp (f : Function) (attrOf : AttrOf) (c : Nat) : ImportM Bool := do
  match ← liftExcept (constLlvmValueToAttr f attrOf c) with
  | none => pure false
  | some attr =>
      let val ← insertConstInst (.constant attr) []
      insertValue (.constant c) val
      pure true

/-- Insert the one operation a constant becomes. -/
def insertConstant (c : Nat) (kind : OpKind) (operands : List Value) (indices : List Nat := []) :
    ImportM Unit := do
  let val ← insertConstInst kind operands indices
  insertValue (.constant c) val

/-- Starting with an undefined value, insert the fields of an array or a struct. -/
def insertFields (fields : List Value) : ImportM Value := do
  let undef ← insertConstInst .undef []
  fields.zipIdx.foldlM (fun acc field =>
    insertConstInst (.inst .insertValue) [acc, field.1] [field.2]) undef

/-- Starting with an undefined value, insert the elements of a vector; their indices are values. -/
def insertElements (elements : List Value) : ImportM Value := do
  let undef ← insertConstInst .undef []
  elements.zipIdx.foldlM (fun acc elem => do
    let idx ← insertConstInst (.constant (.integer 32 elem.2)) []
    insertConstInst (.inst .insertElement) [acc, elem.1, idx]) undef

/-- The tag of a block whose address is taken. -/
def blockTag (function : String) (block : LLVMBasicBlock) : ImportM Nat := do
  let cctx ← get
  match cctx.blockTagMap (function, block) with
  | some tag => pure tag
  | none =>
      set { cctx with
        blockTagMap := cctx.blockTagMap.insert (function, block) cctx.blockTagCounter
        blockTagCounter := cctx.blockTagCounter + 1 }
      pure cctx.blockTagCounter

/-- The operation of a constant expression. -/
def constantExpr (c : Nat) (opcode : LLVMOpcode) (opds : List Value) : ImportM Unit := do
  match opcode, opds with
  | .bitCast, opd :: _ | .intToPtr, opd :: _ | .ptrToInt, opd :: _ | .trunc, opd :: _ =>
      insertConstant c (.inst opcode) [opd]
  | .getElementPtr, base :: indices => do
      let (values, constants) := gepIndices (← get) indices
      insertConstant c (.inst opcode) (base :: values) constants
  | .add, lhs :: rhs :: _ | .sub, lhs :: rhs :: _ => insertConstant c (.inst opcode) [lhs, rhs]
  | _, _ => throw .panic

/-- How many operands of a constant expression are read: all those of an address. -/
def constantExprOperands (opcode : LLVMOpcode) (operands : List Nat) : List Nat :=
  match opcode with
  | .bitCast | .intToPtr | .ptrToInt | .trunc => operands.take 1
  | .getElementPtr => operands
  | .add | .sub => operands.take 2
  | _ => []

/-- Convert a value when it is a constant that was not converted before. -/
def processConstant (f : Function) (attrOf : AttrOf) : Nat → LLVMValue → ImportM Unit
  | 0, _ => throw .panic
  | fuel + 1, val => do
      if ((← get).valueMap val).isSome then return ()
      -- the operands of a constant, converted
      let parts := fun (ids : List Nat) => ids.mapM (fun e => do
        processConstant f attrOf fuel (.constant e)
        lookupValue (.constant e) .panic)
      match val with
      | .constant c =>
        match f.constants.get c with
        | .undefValue => insertConstant c .undef []
        | .poison => insertConstant c .poison []
        | .pointerNull => insertConstant c .zero []
        | .aggregateZero => insertConstant c .zero []
        | .int _ _ | .fp => do
            if !(← constLlvmValueToConstOp f attrOf c) then throw (.constWithoutAttr c)
        | .array elements | .struct elements => do
            if ← constLlvmValueToConstOp f attrOf c then return ()
            insertValue val (← insertFields (← parts elements))
        | .vector elements => do
            if ← constLlvmValueToConstOp f attrOf c then return ()
            insertValue val (← insertElements (← parts elements))
        | .expr opcode operands => do
            constantExpr c opcode (← parts (constantExprOperands opcode operands))
        | .globalVariable name | .function name => insertConstant c (.addressOf name) []
        | .blockAddress function block => do
            insertConstant c (.blockAddress function (← blockTag function block)) []
        | .other => throw .panic
      | _ => throw .panic

/-- Fuel that is enough for any constant. -/
def constantFuel : LLVMValue → Nat
  | .constant c => c + 1
  | _ => 1

/-! ## Instructions -/

/-- Process a value as a constant and look it up. -/
def convertValue (f : Function) (attrOf : AttrOf) (val : LLVMValue) : ImportM Value := do
  processConstant f attrOf (constantFuel val) val
  lookupValue val (.undefinedValue val)

/-- Sort the operands into values and blocks. -/
def convertOperands (f : Function) (attrOf : AttrOf) :
    List LLVMValue → ImportM (List Value × List Nat)
  | [] => pure ([], [])
  | opd :: operands =>
      match opd.asBasicBlock? with
      | none => do
          let mVal ← convertValue f attrOf opd
          let (opds, succs) ← convertOperands f attrOf operands
          pure (mVal :: opds, succs)
      | some block => do
          match (← get).blockMap block with
          | none => throw (.undefinedBlock block)
          | some mBlock => do
              let (opds, succs) ← convertOperands f attrOf operands
              pure (opds, mBlock :: succs)

def getOperand (opds : List Value) (idx : Nat) : ImportM Value :=
  match opds[idx]? with
  | some val => pure val
  | none => throw (.opdMissing idx)

def getSuccessor (succs : List Nat) (idx : Nat) : ImportM Nat :=
  match succs[idx]? with
  | some block => pure block
  | none => throw (.opdMissing idx)

/-- The arguments that a branch from `src` passes for the PHIs among `insts`. -/
def convertPhiArgs (f : Function) (attrOf : AttrOf) (src : LLVMBasicBlock) :
    List Instruction → ImportM (List Value)
  | [] => pure []
  | inst :: insts =>
      if inst.opcode = .phi then
        match inst.incoming.find? (·.2 = src) with
        | none => throw (.phiArgMissing src)
        | some (incomingVal, _) => do
            let mVal ← convertValue f attrOf incomingVal
            let args ← convertPhiArgs f attrOf src insts
            pure (mVal :: args)
      else pure []

/-- Compute the arguments to be passed when branching from `src` to `dst`. -/
def convertBranchArgs (f : Function) (attrOf : AttrOf) (src dst : LLVMBasicBlock) :
    ImportM (List Value) :=
  convertPhiArgs f attrOf src (f.instructions dst)

/-- The number of operands that the conversion of an opcode reads, where this is all it does. -/
def numOperands : LLVMOpcode → Option Nat
  | .fence => some 0
  | .addrSpaceCast | .alloca | .bitCast | .fNeg | .fPExt | .fPTrunc | .fPToSI | .fPToUI
  | .sIToFP | .uIToFP | .freeze | .extractValue | .intToPtr | .load | .ptrToInt | .sExt | .zExt
  | .trunc | .vaArg => some 1
  | .add | .and | .aShr | .atomicRMW | .fAdd | .fCmp | .fDiv | .fMul | .fRem | .fSub | .iCmp
  | .extractElement | .shuffleVector | .insertValue | .lShr | .mul | .or | .sDiv | .shl | .sRem
  | .store | .sub | .uDiv | .uRem | .xor => some 2
  | .atomicCmpXchg | .insertElement | .select => some 3
  | _ => none

def convertCall (f : Function) (attrOf : AttrOf) (inst : Instruction) : ImportM Operation := do
  let (args, _) ← convertOperands f attrOf (inst.operands.take inst.numArgOperands)
  match inst.callee with
  | .inlineAsm => newOp .inlineAsm args
  | .function name true => newOp (.callIntrinsic name) args
  | .function name false => newOp (.call name) args
  | .value callee => do
      let (calleeConverted, _) ← convertOperands f attrOf [callee]
      newOp .callIndirect (args ++ [← getOperand calleeConverted 0])

/-- The case values of a switch, then the operands passed to each case's destination. -/
def convertSwitch (f : Function) (attrOf : AttrOf) (src : LLVMBasicBlock) (inst : Instruction)
    (opds : List Value) (succs : List Nat) : ImportM Operation := do
  let cond ← getOperand opds 0
  match succs with
  | [] => throw (.succMissing 0)
  | defaultDest :: caseDests => do
      let caseValues ← (List.range caseDests.length).mapM (fun caseIdx =>
        match inst.caseValues[caseIdx]? with
        | none => throw .panic
        | some caseValue => do
            processConstant f attrOf (constantFuel caseValue) caseValue
            lookupValue caseValue .switchCaseNonIntConst)
      let cases ← (caseValues.zip caseDests).zipIdx.mapM (fun case => do
        match getConstOpAsInt (← get) case.1.1 with
        | none => throw .switchCaseNotInteger
        | some value => do
            -- case destinations start at operand 2
            let llvmDest ← liftExcept (blockOperand inst (2 + case.2))
            if (← get).blockMap llvmDest ≠ some case.1.2 then throw .panic
            let caseArgs ← convertBranchArgs f attrOf src llvmDest
            pure (value, case.1.2, caseArgs))
      let defaultDestArgs ←
        convertBranchArgs f attrOf src (← liftExcept (blockOperand inst 1))
      newOp (.inst .switch) [cond] ((defaultDest, defaultDestArgs) :: cases.map (·.2)) []
        (cases.map (·.1))

/-- The operation for an instruction whose operands are converted. -/
def convertOpcode (f : Function) (attrOf : AttrOf) (src : LLVMBasicBlock) (inst : Instruction)
    (opds : List Value) (succs : List Nat) : ImportM Operation :=
  match inst.opcode with
  | .uncondBr => do
      let destOpds ← convertBranchArgs f attrOf src (← liftExcept (blockOperand inst 0))
      newOp (.inst .uncondBr) [] [(← getSuccessor succs 0, destOpds)]
  | .condBr => do
      if opds.length ≠ 1 ∨ succs.length ≠ 2 then throw .panic
      let trueDestOpds ← convertBranchArgs f attrOf src (← liftExcept (blockOperand inst 1))
      let falseDestOpds ← convertBranchArgs f attrOf src (← liftExcept (blockOperand inst 2))
      newOp (.inst .condBr) [← getOperand opds 0]
        [(← getSuccessor succs 0, trueDestOpds), (← getSuccessor succs 1, falseDestOpds)]
  | .switch => convertSwitch f attrOf src inst opds succs
  | .indirectBr => do
      let addr ← getOperand opds 0
      -- operand 0 is the address, so destinations start at operand 1
      let dests ← succs.zipIdx.mapM (fun dest => do
        let llvmDest ← liftExcept (blockOperand inst (dest.2 + 1))
        pure (dest.1, ← convertBranchArgs f attrOf src llvmDest))
      newOp (.inst .indirectBr) [addr] dests
  | .ret => do
      if inst.operands.length = 1 then newOp (.inst .ret) [← getOperand opds 0]
      else newOp (.inst .ret) []
  | .unreachable => newOp (.inst .unreachable) []
  | .getElementPtr =>
      match opds with
      | [] => throw (.opdMissing 0)
      | base :: indices => do
          let (values, constants) := gepIndices (← get) indices
          newOp (.inst .getElementPtr) (base :: values) [] constants
  | opcode =>
      match numOperands opcode with
      | some n => do newOp (.inst opcode) (← (List.range n).mapM (getOperand opds))
      | none => throw .panic

/-- Convert an instruction of block `src` that is not a PHI. -/
def convertInstruction (f : Function) (attrOf : AttrOf) (src : LLVMBasicBlock)
    (inst : Instruction) : ImportM Operation := do
  if inst.opcode = .call then convertCall f attrOf inst
  else do
    let (opds, succs) ← convertOperands f attrOf inst.operands
    convertOpcode f attrOf src inst opds succs

/-! ## Blocks and functions -/

/-- Put an operation at the end of a block. -/
def appendOp (mBlock : Nat) (op : Operation) : ImportM Unit :=
  modify fun cctx =>
    let b := cctx.blocks mBlock
    { cctx with blocks := Function.update cctx.blocks mBlock { b with ops := b.ops ++ [op] } }

/-- `BasicBlock::push_argument` -/
def pushArgument (mBlock : Nat) : ImportM Value := do
  let cctx ← get
  let b := cctx.blocks mBlock
  set { cctx with
    blocks := Function.update cctx.blocks mBlock { b with numArguments := b.numArguments + 1 } }
  pure (.blockArgument mBlock b.numArguments)

/-- Convert the instruction at place `idx` of a block. -/
def convertBlockInst (f : Function) (attrOf : AttrOf) (block : LLVMBasicBlock) (mBlock : Nat)
    (inst : Instruction) (idx : Nat) : ImportM Unit := do
  if inst.opcode = .phi then
    insertValue (.instruction block idx) (← pushArgument mBlock)
  else do
    let op ← convertInstruction f attrOf block inst
    appendOp mBlock op
    if inst.hasResult then insertValue (.instruction block idx) (.opResult op.id)

/-- Convert [LLVMBasicBlock] to pliron's [BasicBlock]. -/
def convertBlock (f : Function) (attrOf : AttrOf) (block : LLVMBasicBlock) (mBlock : Nat) :
    ImportM Unit :=
  (f.instructions block).zipIdx.forM (fun inst =>
    convertBlockInst f attrOf block mBlock inst.1 inst.2)

/-- The state before the first block: the parameters and the blocks are mapped. -/
def startFunction (f : Function) (blocks : List LLVMBasicBlock) (cctx : ConversionContext) :
    ConversionContext :=
  { cctx with
    valueMap := (List.range f.numParams).foldl
      (fun m i => m.insert (.argument i) (.blockArgument 0 i)) (fun _ => none)
    blockMap := blocks.zipIdx.foldl (fun m b => m.insert b.1 b.2) cctx.blockMap
    constants := []
    blocks := Function.update (fun _ => {}) 0 { numArguments := f.numParams } }

/-- Convert a function; its blocks are numbered as they are created, the entry block first. -/
def convertFunction (f : Function) (attrOf : AttrOf) : ImportM Unit := do
  if f.blocks = [] then return ()
  let blocks ← liftExcept (rpo f)
  modify (startFunction f blocks)
  blocks.forM (fun block => do
    match (← get).blockMap block with
    | none => throw .panic
    | some mBlock => convertBlock f attrOf block mBlock)

end Pliron.FromLlvm
