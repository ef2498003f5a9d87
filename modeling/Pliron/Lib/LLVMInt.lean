/-
  Pliron.Lib.LLVMInt

  The meaning of LLVM's integer instructions.

  An instruction on integers of `w` bits has undefined behaviour, or results in
  poison or in an integer.  A constant refines such an outcome if it is the
  integer that results; any constant refines poison and undefined behaviour.
-/

import Mathlib.Tactic

namespace LLVMInt

variable {w v : Nat}

/-! ## Values and outcomes -/

/-- What an operand of `w` bits is. -/
inductive Value (w : Nat) where
  | poison
  | int (x : BitVec w)
deriving DecidableEq

/-- What executing an instruction gives. -/
inductive Outcome (w : Nat) where
  | undefinedBehavior
  | value (v : Value w)
deriving DecidableEq

/-- May the constant `c` stand for this outcome? -/
def Outcome.RefinedBy : Outcome w → Value w → Prop
  | .undefinedBehavior, _ => True
  | .value .poison, _ => True
  | .value (.int x), c => c = .int x

/-- Poison operands make the result poison. -/
def unary (f : BitVec w → Outcome v) : Value w → Outcome v
  | .poison => .value .poison
  | .int x => f x

/-- Poison operands make the result poison. -/
def binary (f : BitVec w → BitVec w → Outcome v) : Value w → Value w → Outcome v
  | .int x, .int y => f x y
  | _, _ => .value .poison

/-- Poison operands make the result poison, and a poison divisor is undefined behaviour. -/
def division (f : BitVec w → BitVec w → Outcome v) : Value w → Value w → Outcome v
  | _, .poison => .undefinedBehavior
  | .poison, .int _ => .value .poison
  | .int x, .int y => f x y

theorem unary_poison (f : BitVec w → Outcome v) (c : Value v) :
    (unary f .poison).RefinedBy c := trivial

theorem binary_poison_left (f : BitVec w → BitVec w → Outcome v) (y : Value w) (c : Value v) :
    (binary f .poison y).RefinedBy c := by
  cases y <;> trivial

theorem binary_poison_right (f : BitVec w → BitVec w → Outcome v) (x : Value w) (c : Value v) :
    (binary f x .poison).RefinedBy c := by
  cases x <;> trivial

theorem division_poison_left (f : BitVec w → BitVec w → Outcome v) (y : Value w) (c : Value v) :
    (division f .poison y).RefinedBy c := by
  cases y <;> trivial

theorem division_poison_right (f : BitVec w → BitVec w → Outcome v) (x : Value w) (c : Value v) :
    (division f x .poison).RefinedBy c := by
  cases x <;> trivial

/-! ## Ranges -/

/-- Is this the value of an unsigned integer of `w` bits? -/
def UFits (w : Nat) (i : Int) : Prop := 0 ≤ i ∧ i < 2 ^ w

/-- Is this the value of a signed integer of `w` bits? -/
def SFits (w : Nat) (i : Int) : Prop := -2 ^ (w - 1) ≤ i ∧ i < 2 ^ (w - 1)

instance : DecidablePred (UFits w) := fun i => inferInstanceAs (Decidable (0 ≤ i ∧ i < 2 ^ w))

instance : DecidablePred (SFits w) :=
  fun i => inferInstanceAs (Decidable (-2 ^ (w - 1) ≤ i ∧ i < 2 ^ (w - 1)))

theorem two_pow_eq (hw : 0 < w) : (2 : Int) ^ w = 2 * 2 ^ (w - 1) := by
  obtain ⟨n, rfl⟩ : ∃ n, w = n + 1 := ⟨w - 1, by omega⟩
  rw [Nat.add_sub_cancel, pow_succ, mul_comm]

theorem sFits_toInt (hw : 0 < w) (x : BitVec w) : SFits w x.toInt := by
  have hlt := BitVec.two_mul_toInt_lt (x := x)
  have hle := BitVec.le_two_mul_toInt (x := x)
  have hpow := two_pow_eq hw
  constructor
  · omega
  · omega

/-- An integer is the value of its low bits if, and only if, it is in range. -/
theorem toInt_ofInt_eq_iff (hw : 0 < w) (i : Int) : (BitVec.ofInt w i).toInt = i ↔ SFits w i := by
  constructor
  · intro h
    rw [← h]
    exact sFits_toInt hw _
  · rintro ⟨hle, hlt⟩
    have hpow := two_pow_eq hw
    rw [BitVec.toInt_ofInt]
    apply Int.bmod_eq_of_le_mul_two
    · push_cast
      omega
    · push_cast
      omega

/-! ## Instructions -/

/-- A result that is exact as the unsigned integer `u` and as the signed integer `s`, which have the
    same low bits. -/
def overflowing (nsw nuw : Bool) (u s : Int) : Outcome w :=
  if (nsw = true ∧ ¬ SFits w s) ∨ (nuw = true ∧ ¬ UFits w u) then .value .poison
  else .value (.int (BitVec.ofInt w s))

def add (nsw nuw : Bool) (x y : BitVec w) : Outcome w :=
  overflowing nsw nuw (x.toNat + y.toNat) (x.toInt + y.toInt)

def sub (nsw nuw : Bool) (x y : BitVec w) : Outcome w :=
  overflowing nsw nuw (x.toNat - y.toNat) (x.toInt - y.toInt)

def mul (nsw nuw : Bool) (x y : BitVec w) : Outcome w :=
  overflowing nsw nuw (x.toNat * y.toNat) (x.toInt * y.toInt)

def shl (nsw nuw : Bool) (x y : BitVec w) : Outcome w :=
  if y.toNat < w then overflowing nsw nuw (x.toNat * 2 ^ y.toNat) (x.toInt * 2 ^ y.toNat)
  else .value .poison

def lshr (x y : BitVec w) : Outcome w :=
  if y.toNat < w then .value (.int (BitVec.ofNat w (x.toNat / 2 ^ y.toNat))) else .value .poison

def ashr (x y : BitVec w) : Outcome w :=
  if y.toNat < w then .value (.int (BitVec.ofInt w (x.toInt / 2 ^ y.toNat))) else .value .poison

def udiv (x y : BitVec w) : Outcome w :=
  if y.toNat = 0 then .undefinedBehavior
  else .value (.int (BitVec.ofNat w (x.toNat / y.toNat)))

def urem (x y : BitVec w) : Outcome w :=
  if y.toNat = 0 then .undefinedBehavior
  else .value (.int (BitVec.ofNat w (x.toNat % y.toNat)))

/-- The quotient is rounded towards zero; overflow is undefined behaviour. -/
def sdiv (x y : BitVec w) : Outcome w :=
  if y.toInt = 0 ∨ ¬ SFits w (x.toInt.tdiv y.toInt) then .undefinedBehavior
  else .value (.int (BitVec.ofInt w (x.toInt.tdiv y.toInt)))

/-- Undefined where the quotient is. -/
def srem (x y : BitVec w) : Outcome w :=
  if y.toInt = 0 ∨ ¬ SFits w (x.toInt.tdiv y.toInt) then .undefinedBehavior
  else .value (.int (BitVec.ofInt w (x.toInt.tmod y.toInt)))

def and (x y : BitVec w) : Outcome w := .value (.int (x &&& y))

def or (x y : BitVec w) : Outcome w := .value (.int (x ||| y))

def xor (x y : BitVec w) : Outcome w := .value (.int (x ^^^ y))

inductive Predicate where
  | eq | ne | slt | sle | sgt | sge | ult | ule | ugt | uge
deriving DecidableEq

def Predicate.holds : Predicate → BitVec w → BitVec w → Bool
  | .eq, x, y => decide (x = y)
  | .ne, x, y => decide (x ≠ y)
  | .slt, x, y => decide (x.toInt < y.toInt)
  | .sle, x, y => decide (x.toInt ≤ y.toInt)
  | .sgt, x, y => decide (y.toInt < x.toInt)
  | .sge, x, y => decide (y.toInt ≤ x.toInt)
  | .ult, x, y => decide (x.toNat < y.toNat)
  | .ule, x, y => decide (x.toNat ≤ y.toNat)
  | .ugt, x, y => decide (y.toNat < x.toNat)
  | .uge, x, y => decide (y.toNat ≤ x.toNat)

def icmp (pred : Predicate) (x y : BitVec w) : Outcome 1 :=
  .value (.int (BitVec.ofBool (pred.holds x y)))

def sext (v : Nat) (x : BitVec w) : Outcome v := .value (.int (BitVec.ofInt v x.toInt))

def zext (v : Nat) (nneg : Bool) (x : BitVec w) : Outcome v :=
  if nneg = true ∧ x.toInt < 0 then .value .poison
  else .value (.int (BitVec.ofNat v x.toNat))

def trunc (v : Nat) (x : BitVec w) : Outcome v := .value (.int (BitVec.ofNat v x.toNat))

end LLVMInt
