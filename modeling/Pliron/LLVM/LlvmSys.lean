/-
  Pliron.LLVM.LlvmSys

  An LLVM function as the C API shows it: blocks in layout order, instructions with their operands,
  and constants.

  An instruction is known by its block and its place in it.  Types, flags, metadata and names are
  left out.
-/

import Mathlib.Tactic.Common

namespace Pliron.FromLlvm

inductive LLVMOpcode where
  | ret | uncondBr | condBr | switch | indirectBr | invoke | unreachable | callBr
  | fNeg | add | fAdd | sub | fSub | mul | fMul | uDiv | sDiv | fDiv | uRem | sRem | fRem
  | shl | lShr | aShr | and | or | xor
  | alloca | load | store | getElementPtr
  | trunc | zExt | sExt | fPToUI | fPToSI | uIToFP | sIToFP | fPTrunc | fPExt
  | ptrToInt | ptrToAddr | intToPtr | bitCast | addrSpaceCast
  | iCmp | fCmp | phi | call | select | userOp1 | userOp2 | vaArg
  | extractElement | insertElement | shuffleVector | extractValue | insertValue | freeze
  | fence | atomicCmpXchg | atomicRMW
  | resume | landingPad | cleanupRet | catchRet | catchPad | cleanupPad | catchSwitch
deriving DecidableEq, Repr

/-- A block of a function. -/
abbrev LLVMBasicBlock := Nat

/-- A value: of an instruction, a parameter, a constant, or a block used as an operand. -/
inductive LLVMValue where
  | instruction (block : LLVMBasicBlock) (index : Nat)
  | argument (index : Nat)
  | constant (id : Nat)
  | basicBlock (block : LLVMBasicBlock)
deriving DecidableEq, Repr

/-- What a call calls. -/
inductive Callee where
  | function (name : String) (intrinsic : Bool)
  | inlineAsm
  | value (val : LLVMValue)
deriving DecidableEq, Repr

structure Instruction where
  opcode : LLVMOpcode
  operands : List LLVMValue := []
  /-- The incoming values of a PHI. -/
  incoming : List (LLVMValue × LLVMBasicBlock) := []
  /-- The values of a switch's cases. -/
  caseValues : List LLVMValue := []
  /-- What a call calls; its operands before that are the arguments. -/
  callee : Callee := .inlineAsm
  numArgOperands : Nat := 0
  hasResult : Bool := false
deriving DecidableEq, Repr

/-- A constant.  Its operands are constants too. -/
inductive Constant where
  | undefValue | poison | pointerNull | aggregateZero
  | int (width value : Nat)
  | fp
  | array (elements : List Nat)
  | struct (fields : List Nat)
  | vector (elements : List Nat)
  | expr (opcode : LLVMOpcode) (operands : List Nat)
  | globalVariable (name : String)
  | function (name : String)
  | blockAddress (function : String) (block : LLVMBasicBlock)
  /-- Any other kind of value. -/
  | other
deriving DecidableEq, Repr

def Constant.operands : Constant → List Nat
  | array operands | struct operands | vector operands | expr _ operands => operands
  | _ => []

/-- The constants of a module; none is part of itself. -/
structure Constants where
  get : Nat → Constant
  operand_lt : ∀ c, ∀ e ∈ (get c).operands, e < c

structure Function where
  numParams : Nat
  /-- The blocks in layout order; a declaration has none. -/
  blocks : List LLVMBasicBlock
  instructions : LLVMBasicBlock → List Instruction
  constants : Constants

namespace LLVMValue

/-- `llvm_value_as_basic_block`, on a value that is a block. -/
def asBasicBlock? : LLVMValue → Option LLVMBasicBlock
  | basicBlock block => some block
  | _ => none

/-- `llvm_value_is_basic_block` -/
def isBasicBlock (val : LLVMValue) : Bool := val.asBasicBlock?.isSome

@[simp] theorem asBasicBlock?_basicBlock (block : LLVMBasicBlock) :
    (basicBlock block).asBasicBlock? = some block := rfl

@[simp] theorem isBasicBlock_basicBlock (block : LLVMBasicBlock) :
    (basicBlock block).isBasicBlock = true := rfl

end LLVMValue

namespace LLVMOpcode

/-- Does an instruction with this opcode end its block? -/
def isTerminator : LLVMOpcode → Bool
  | ret | uncondBr | condBr | switch | indirectBr | unreachable => true
  | invoke | callBr | resume | cleanupRet | catchRet | catchSwitch => true
  | _ => false

end LLVMOpcode

/-- The blocks among the operands of an instruction. -/
def Instruction.destinations (inst : Instruction) : List LLVMBasicBlock :=
  inst.operands.filterMap LLVMValue.asBasicBlock?

namespace Function

variable (f : Function)

/-- `llvm_get_basic_block_terminator` -/
def terminator (block : LLVMBasicBlock) : Option Instruction :=
  (f.instructions block).getLast?.filter (·.opcode.isTerminator)

/-- Where control may go from a block. -/
def destinations (block : LLVMBasicBlock) : List LLVMBasicBlock :=
  match f.terminator block with
  | some term => term.destinations
  | none => []

/-- The PHIs at the start of a block. -/
def phis (block : LLVMBasicBlock) : List Instruction :=
  (f.instructions block).takeWhile (·.opcode = .phi)

end Function

end Pliron.FromLlvm
