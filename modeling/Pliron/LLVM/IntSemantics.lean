/-
  Pliron.LLVM.IntSemantics

  The meaning of integer constants and operations.

  A vector is looked at lane by lane, and a pointer is an integer of `p` bits.
-/

import Pliron.Lib.LLVMInt
import Pliron.LLVM.Ops

namespace Pliron.LLVM

open LLVMInt (Outcome)

variable {F : Type} {w v : Nat}

/-! ## The meaning of constants and operations -/

/-- The bit width of a lane. -/
def Ty.laneWidth (p : Nat) (ty : Ty) : Nat :=
  match ty.scalarOrVectorElemTy with
  | .integer int => int.width
  | .pointer => p
  | _ => 0

def Ty.signless : Ty → Ty
  | .integer int => .integer int.signless
  | ty => ty

namespace Attr

/-- Is it an integer, `undef` or `poison` of this type? -/
def OfType (ty : Ty) : Attr F → Prop
  | .integer attr => ty = .integer attr.ty ∧ attr.val.bw = attr.ty.width
  | .undef ty' => ty' = ty
  | .poison ty' => ty' = ty
  | _ => False

/-- May a lane of this constant have this value? -/
def Lane (attr : Attr F) (val : LLVMInt.Value w) : Prop :=
  match attr with
  | .integer attr => ∃ h : attr.val.bw = w, val = .int (attr.val.value.cast h)
  | .undef _ => ∃ x, val = .int x
  | .poison _ => val = .poison
  | _ => False

end Attr

/-- May the lanes of operands of which this is known have these values? -/
def Lanes (ops : Known F) (vals : List (LLVMInt.Value w)) : Prop :=
  List.Forall₂ (fun known val => ∀ c ∈ known, c.Lane val) ops vals

def IntBinOp.outcome : IntBinOp → LLVMInt.Value w → LLVMInt.Value w → Outcome w
  | .add flags => LLVMInt.binary (LLVMInt.add flags.nsw flags.nuw)
  | .sub flags => LLVMInt.binary (LLVMInt.sub flags.nsw flags.nuw)
  | .mul flags => LLVMInt.binary (LLVMInt.mul flags.nsw flags.nuw)
  | .shl flags => LLVMInt.binary (LLVMInt.shl flags.nsw flags.nuw)
  | .udiv => LLVMInt.division LLVMInt.udiv
  | .sdiv => LLVMInt.division LLVMInt.sdiv
  | .urem => LLVMInt.division LLVMInt.urem
  | .srem => LLVMInt.division LLVMInt.srem
  | .and => LLVMInt.binary LLVMInt.and
  | .or => LLVMInt.binary LLVMInt.or
  | .xor => LLVMInt.binary LLVMInt.xor
  | .lshr => LLVMInt.binary LLVMInt.lshr
  | .ashr => LLVMInt.binary LLVMInt.ashr

def ICmpPredicateAttr.predicate : ICmpPredicateAttr → LLVMInt.Predicate
  | .eq => .eq
  | .ne => .ne
  | .slt => .slt
  | .sle => .sle
  | .sgt => .sgt
  | .sge => .sge
  | .ult => .ult
  | .ule => .ule
  | .ugt => .ugt
  | .uge => .uge

def IntCastOp.outcome (v : Nat) : IntCastOp → LLVMInt.Value w → Outcome v
  | .sext => LLVMInt.unary (LLVMInt.sext v)
  | .zext nneg => LLVMInt.unary (LLVMInt.zext v nneg)
  | .trunc => LLVMInt.unary (LLVMInt.trunc v)

/-- What an integer operation does on a lane of its operands. -/
inductive Opcode.Executes : Opcode F → List (LLVMInt.Value w) → (v : Nat) → Outcome v → Prop where
  | intBin (op : IntBinOp) (x y : LLVMInt.Value w) : Executes (.intBin op) [x, y] w (op.outcome x y)
  | icmp (pred : ICmpPredicateAttr) (x y : LLVMInt.Value w) :
      Executes (.icmp pred) [x, y] 1 (LLVMInt.binary (LLVMInt.icmp pred.predicate) x y)
  | intCast (op : IntCastOp) (x : LLVMInt.Value w) (v : Nat) :
      Executes (.intCast op) [x] v (op.outcome v x)

def Opcode.isInteger : Opcode F → Bool
  | .intBin _ | .icmp _ | .intCast _ => true
  | _ => false

theorem IntBinOp.refinedBy_poison_left (op : IntBinOp) (y c : LLVMInt.Value w) :
    (op.outcome .poison y).RefinedBy c := by
  cases op with
  | udiv | sdiv | urem | srem => simp only [outcome, LLVMInt.division_poison_left]
  | add _ | sub _ | mul _ | shl _ | and | or | xor | lshr | ashr =>
      simp only [outcome, LLVMInt.binary_poison_left]

theorem IntBinOp.refinedBy_poison_right (op : IntBinOp) (x c : LLVMInt.Value w) :
    (op.outcome x .poison).RefinedBy c := by
  cases op with
  | udiv | sdiv | urem | srem => simp only [outcome, LLVMInt.division_poison_right]
  | add _ | sub _ | mul _ | shl _ | and | or | xor | lshr | ashr =>
      simp only [outcome, LLVMInt.binary_poison_right]

/-- A poison operand lets the result be any constant. -/
theorem Opcode.Executes.refinedBy_of_poison {op : Opcode F} {vals : List (LLVMInt.Value w)}
    {outcome : Outcome v} (h : op.Executes vals v outcome) (hpoison : .poison ∈ vals)
    (c : LLVMInt.Value v) : outcome.RefinedBy c := by
  cases h with
  | intBin op x y =>
      have hxy : x = .poison ∨ y = .poison := by simpa [eq_comm] using hpoison
      obtain rfl | rfl := hxy
      · exact op.refinedBy_poison_left y c
      · exact op.refinedBy_poison_right x c
  | icmp pred x y =>
      have hxy : x = .poison ∨ y = .poison := by simpa [eq_comm] using hpoison
      obtain rfl | rfl := hxy
      · exact LLVMInt.binary_poison_left _ y c
      · exact LLVMInt.binary_poison_right _ x c
  | intCast op x =>
      have hx : x = .poison := by simpa [eq_comm] using hpoison
      subst hx
      cases op with
      | sext | zext _ | trunc => simp only [IntCastOp.outcome, LLVMInt.unary_poison]

end Pliron.LLVM
