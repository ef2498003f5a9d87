/-
  Pliron.Builtin.OperandSegments

  Operands that are grouped into segments.

  The operands of an operation are one list; an attribute holds the sizes of the segments, as
  32-bit integers.  `SegmentedContext` is a context with these attributes.  The sizes are added
  up in 32 bits, and whether an overflow panics or wraps around depends on the build.  `none` is
  a panic.
-/

import Pliron.IR.Mutate
import Pliron.Lib.Segments

namespace Pliron

/-! ## 32-bit sums -/

/-- What an arithmetic overflow does. -/
inductive OverflowMode where
  /-- It panics: a build with overflow checks. -/
  | checked
  /-- It wraps around. -/
  | wrapping
deriving DecidableEq, Repr

def addU32 (mode : OverflowMode) (a b : UInt32) : Option UInt32 :=
  if a.toNat + b.toNat < 2 ^ 32 then some (a + b)
  else match mode with
    | .checked => none
    | .wrapping => some (a + b)

def sumU32 (mode : OverflowMode) (sizes : List UInt32) : Option UInt32 :=
  sizes.foldlM (addU32 mode) 0

/-- `try_into` of a length, unwrapped. -/
def lengthU32 (n : Nat) : Option UInt32 := if n < 2 ^ 32 then some (UInt32.ofNat n) else none

/-! ## The interface -/

inductive OperandSegmentInterfaceVerifyErr where
  /-- "operand_segment_sizes attribute not found" -/
  | operandSegmentSizesAttrErr
  /-- "operand_segment_sizes total {0} does not match the number of operands {1}" -/
  | operandSegmentSizesTotalMismatchErr (total numOperands : UInt32)
  /-- "Expected {expected} operand segments, but found {found}" -/
  | segmentCountMismatch (expected found : Nat)
deriving DecidableEq, Repr

/-- A context, and the `operand_segment_sizes` attributes of its operations. -/
structure SegmentedContext where
  ctx : Context
  segmentSizes : OpPtr → Option (List UInt32) := fun _ => none

namespace SegmentedContext

variable (mode : OverflowMode) (s : SegmentedContext)

/-- The operands of an operation. -/
def operands (op : OpPtr) : Option (List Value) := (s.ctx.operations op).map Operation.operandDefs

/-- Get the `operand_segment_sizes` attribute for this operation. -/
def getOperandSegmentSizes (op : OpPtr) : Option (List UInt32) := s.segmentSizes op

/-- Set the `operand_segment_sizes` attribute for this operation. -/
def setOperandSegmentSizes (op : OpPtr) (sizes : List UInt32) : SegmentedContext :=
  { s with segmentSizes := Function.update s.segmentSizes op (some sizes) }

/-- The start and the end of the operands in segment `segIdx`. -/
def segmentRange (op : OpPtr) (segIdx : Nat) : Option (Nat × Nat) := do
  let sizes ← s.getOperandSegmentSizes op
  let size ← sizes[segIdx]?
  let start ← sumU32 mode (sizes.take segIdx)
  some (start.toNat, start.toNat + size.toNat)

/-- The operands at a range of indices. -/
def operandsInRange (op : OpPtr) (range : Nat × Nat) : Option (List Value) := do
  let operands ← s.operands op
  (List.range' range.1 (range.2 - range.1)).mapM (fun opdIdx => operands[opdIdx]?)

/-- Get the `segIdx`th segment of operands. -/
def getSegment (op : OpPtr) (segIdx : Nat) : Option (List Value) := do
  let range ← s.segmentRange mode op segIdx
  s.operandsInRange op range

/-- Push a new operand at the end of the `segIdx`th segment, and return its index in it. -/
def pushToSegment (op : OpPtr) (segIdx : Nat) (operand : Value) :
    Option (Nat × SegmentedContext) := do
  let sizes ← s.getOperandSegmentSizes op
  let size ← sizes[segIdx]?
  let insertIdx ← sumU32 mode (sizes.take (segIdx + 1))
  let ctx ← s.ctx.insertOperand op insertIdx.toNat operand
  let newSize ← addU32 mode size 1
  some (size.toNat, { s with ctx := ctx }.setOperandSegmentSizes op (sizes.set segIdx newSize))

/-- Pop and return the last operand in the `segIdx`th segment. -/
def popFromSegment (op : OpPtr) (segIdx : Nat) : Option (Value × SegmentedContext) := do
  let sizes ← s.getOperandSegmentSizes op
  let size ← sizes[segIdx]?
  let segmentStart ← sumU32 mode (sizes.take segIdx)
  guard (0 < size.toNat)
  let removeIdx := segmentStart.toNat + size.toNat - 1
  let (removed, ctx) ← s.ctx.removeOperand op removeIdx
  some (removed, { s with ctx := ctx }.setOperandSegmentSizes op (sizes.set segIdx (size - 1)))

/-- Insert an operand at `segOpdIdx` within the `segIdx`th segment. -/
def insertIntoSegment (op : OpPtr) (segIdx segOpdIdx : Nat) (operand : Value) :
    Option SegmentedContext := do
  let sizes ← s.getOperandSegmentSizes op
  let size ← sizes[segIdx]?
  let segmentStart ← sumU32 mode (sizes.take segIdx)
  guard (segOpdIdx ≤ size.toNat)
  let ctx ← s.ctx.insertOperand op (segmentStart.toNat + segOpdIdx) operand
  let newSize ← addU32 mode size 1
  some ({ s with ctx := ctx }.setOperandSegmentSizes op (sizes.set segIdx newSize))

/-- Remove and return the operand at `segOpdIdx` in the `segIdx`th segment. -/
def removeFromSegment (op : OpPtr) (segIdx segOpdIdx : Nat) :
    Option (Value × SegmentedContext) := do
  let sizes ← s.getOperandSegmentSizes op
  let size ← sizes[segIdx]?
  let segmentStart ← sumU32 mode (sizes.take segIdx)
  guard (segOpdIdx < size.toNat)
  let (removed, ctx) ← s.ctx.removeOperand op (segmentStart.toNat + segOpdIdx)
  some (removed, { s with ctx := ctx }.setOperandSegmentSizes op (sizes.set segIdx (size - 1)))

/-- `OperandSegmentInterface::verify`, for an operation that must have a number of segments. -/
def verifySegments (op : OpPtr) (expectedNumSegments : Option Nat) :
    Option (Except OperandSegmentInterfaceVerifyErr Unit) := do
  let operands ← s.operands op
  match s.segmentSizes op with
  | none => some (.error .operandSegmentSizesAttrErr)
  | some sizes => do
      let total ← sumU32 mode sizes
      let numOperands ← lengthU32 operands.length
      if total ≠ numOperands then
        some (.error (.operandSegmentSizesTotalMismatchErr total numOperands))
      else match expectedNumSegments with
        | some expected =>
            if sizes.length ≠ expected then
              some (.error (.segmentCountMismatch expected sizes.length))
            else some (.ok ())
        | none => some (.ok ())

/-! ## Branches whose successors have segments -/

/-- The branches of the LLVM dialect that implement the interface.  Segment 0 is the condition,
    or the address. -/
inductive SegmentedBranch where
  | condBr
  | switch
  | indirectBr
deriving DecidableEq, Repr

/-- The number of segments that an operation with `numSuccessors` successors must have. -/
def SegmentedBranch.expectedNumSegments (numSuccessors : Nat) : SegmentedBranch → Option Nat
  | .condBr => some 3
  | .switch => some (numSuccessors + 1)
  | .indirectBr => some (numSuccessors + 1)

/-- Why the successor operands of a branch are not laid out as they should be. -/
inductive BranchLayoutErr where
  | segments (err : OperandSegmentInterfaceVerifyErr)
  /-- "Expected {0} successor(s), but found {1}" -/
  | nSuccs (expected found : Nat)
deriving DecidableEq, Repr

/-- The number of successors of an operation. -/
def numSuccessors (op : OpPtr) : Option Nat :=
  (s.ctx.operations op).map (fun o => o.successors.length)

/-- Verify that the successor operands can be read without a panic. -/
def verifySuccessorOperandLayout (kind : SegmentedBranch) (op : OpPtr) :
    Option (Except BranchLayoutErr Unit) := do
  let numSuccessors ← s.numSuccessors op
  let segments ← s.verifySegments mode op (kind.expectedNumSegments numSuccessors)
  match segments with
  | .error err => some (.error (.segments err))
  | .ok () =>
      match kind with
      | .condBr =>
          if numSuccessors ≠ 2 then some (.error (.nSuccs 2 numSuccessors)) else some (.ok ())
      | .switch => some (.ok ())
      | .indirectBr => some (.ok ())

/-- The index range of the operands forwarded to a successor. -/
def successorOperandRange (kind : SegmentedBranch) (op : OpPtr) (succIdx : Nat) :
    Option (Nat × Nat) :=
  match kind with
  | .condBr => do
      guard (succIdx = 0 ∨ succIdx = 1)
      -- skip the first segment, which is the condition
      s.segmentRange mode op (succIdx + 1)
  | .switch => s.segmentRange mode op (succIdx + 1)
  | .indirectBr => s.segmentRange mode op (succIdx + 1)

/-- The values forwarded to a successor. -/
def successorOperands (kind : SegmentedBranch) (op : OpPtr) (succIdx : Nat) :
    Option (List Value) := do
  let range ← s.successorOperandRange mode kind op succIdx
  s.operandsInRange op range

/-- Add a new operand to be forwarded to a successor, and return its index there. -/
def addSuccessorOperand (op : OpPtr) (succIdx : Nat) (operand : Value) :
    Option (Nat × SegmentedContext) :=
  s.pushToSegment mode op (succIdx + 1) operand

/-- Remove and return an operand forwarded to a successor. -/
def removeSuccessorOperand (op : OpPtr) (succIdx argIdx : Nat) :
    Option (Value × SegmentedContext) :=
  s.removeFromSegment mode op (succIdx + 1) argIdx

end SegmentedContext

end Pliron
