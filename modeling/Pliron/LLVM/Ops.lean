/-
  Pliron.LLVM.Ops

  The operations of the LLVM dialect that can be folded, and the branches.
-/

import Pliron.LLVM.Attributes

namespace Pliron.LLVM

variable {F : Type}

/-- What is known of operands or results. -/
abbrev Known (F : Type) := List (Option (Attr F))

/-- Integer overflow flags for arithmetic operations. -/
structure IntegerOverflowFlagsAttr where
  nsw : Bool := false
  nuw : Bool := false
deriving DecidableEq

/-- The fast math flags that folding looks at. -/
structure FastmathFlagsAttr where
  nnan : Bool := false
  ninf : Bool := false
deriving DecidableEq

inductive ICmpPredicateAttr where
  | eq | ne | slt | sle | sgt | sge | ult | ule | ugt | uge
deriving DecidableEq

inductive FCmpPredicateAttr where
  | «false» | oeq | ogt | oge | olt | ole | one | ord | ueq | ugt | uge | ult | ule | une | uno
  | «true»
deriving DecidableEq

/-- Integer operations on two operands. -/
inductive IntBinOp where
  | add (flags : IntegerOverflowFlagsAttr)
  | sub (flags : IntegerOverflowFlagsAttr)
  | mul (flags : IntegerOverflowFlagsAttr)
  | shl (flags : IntegerOverflowFlagsAttr)
  | udiv
  | sdiv
  | urem
  | srem
  | and
  | or
  | xor
  | lshr
  | ashr
deriving DecidableEq

inductive IntCastOp where
  | sext
  | zext (nneg : Bool)
  | trunc
deriving DecidableEq

/-- Floating-point operations on two operands. -/
inductive FloatBinOp where
  | fadd
  | fsub
  | fmul
  | fdiv
  | frem
deriving DecidableEq

/-- An operation that can be folded, with its attributes. -/
inductive Opcode (F : Type) where
  | constant (value : Attr F)
  | poison
  | undef
  | intBin (op : IntBinOp)
  | icmp (predicate : ICmpPredicateAttr)
  | shuffleVector (mask : List Int)
  | extractElement
  | insertElement
  | extractValue (indices : List Nat)
  | insertValue (indices : List Nat)
  | intCast (op : IntCastOp)
  | fptosi
  | fptoui
  | sitofp
  | uitofp (nneg : Bool)
  | fpext (flags : FastmathFlagsAttr)
  | fptrunc (flags : FastmathFlagsAttr)
  | fneg (flags : FastmathFlagsAttr)
  | floatBin (op : FloatBinOp) (flags : FastmathFlagsAttr)
  | fcmp (predicate : FCmpPredicateAttr) (flags : FastmathFlagsAttr)
  | select
  | freeze

def Opcode.numOperands : Opcode F → Nat
  | .constant _ | .poison | .undef => 0
  | .extractValue _ | .intCast _ | .fptosi | .fptoui | .sitofp | .uitofp _ | .fpext _ | .fptrunc _
  | .fneg _ | .freeze => 1
  | .intBin _ | .icmp _ | .shuffleVector _ | .extractElement | .insertValue _ | .floatBin _ _
  | .fcmp _ _ => 2
  | .insertElement | .select => 3

/-- An operation with the types of its operands and of its result. -/
structure Op (F : Type) where
  opcode : Opcode F
  operandTypes : List Ty
  resultType : Ty

namespace Op

/-- A signless integer, or a vector of these. -/
def isSignlessIntOrVector (ty : Ty) : Bool :=
  match ty.scalarOrVectorElemTy with
  | .integer int => int.signedness = .signless
  | _ => false

/-- The result has another width than the operand, as `cmp` says. -/
def integerCastVerify (operandTy resultTy : Ty) (cmp : Nat → Nat → Bool) : Bool :=
  match operandTy.scalarOrVectorElemTy, resultTy.scalarOrVectorElemTy with
  | .integer operandInt, .integer resultInt =>
      operandTy.vectorShape = resultTy.vectorShape && cmp resultInt.width operandInt.width
  | _, _ => false

/-- The number of operands, and the types of integer operations, are as they must be.  The types of
    the other operations are not looked at. -/
def verify (op : Op F) : Bool :=
  op.operandTypes.length = op.opcode.numOperands &&
    match op.opcode, op.operandTypes with
    | .intBin _, [lhs, rhs] =>
        lhs = rhs && op.resultType = lhs && isSignlessIntOrVector lhs
    | .icmp _, [lhs, rhs] =>
        lhs = rhs && op.resultType.vectorShape = lhs.vectorShape &&
          (match op.resultType.scalarOrVectorElemTy with
            | .integer int => int.width = 1
            | _ => false) &&
          match lhs.scalarOrVectorElemTy with
          | .integer _ => true
          | .pointer => true
          | _ => false
    | .intCast .sext, [operand] => integerCastVerify operand op.resultType (fun r o => o < r)
    | .intCast (.zext _), [operand] => integerCastVerify operand op.resultType (fun r o => o < r)
    | .intCast .trunc, [operand] => integerCastVerify operand op.resultType (fun r o => r < o)
    | _, _ => true

end Op

/-- A branch, with the case values of a switch. -/
inductive BranchOpcode where
  | br
  | condBr
  | switch (caseValues : List IntegerAttr)

structure BranchOp (Block : Type) where
  opcode : BranchOpcode
  successors : List Block

/-- The number of successors is as it must be. -/
def BranchOp.verify {Block : Type} (op : BranchOp Block) : Bool :=
  match op.opcode with
  | .br => op.successors.length = 1
  | .condBr => op.successors.length = 2
  | .switch caseValues => op.successors.length = caseValues.length + 1

end Pliron.LLVM
