/-
  Pliron.Utils.APInt

  Arbitrary precision integers.

  Their bits are kept by the `awint` library, which is a parameter here: `Awint` has the
  functions that are used, and `Awint.Documented` says what their documentation does.
  `none` is a panic.
-/

import Mathlib.Tactic

namespace Pliron

/-! ## The library -/

/-- The functions of `awint`.  A function that fails on operands of two bit widths takes operands
    of one bit width. -/
structure Awint where
  umax : (w : Nat) → BitVec w
  imin : (w : Nat) → BitVec w
  isZero : {w : Nat} → BitVec w → Bool
  msb : {w : Nat} → BitVec w → Bool
  not : {w : Nat} → BitVec w → BitVec w
  and : {w : Nat} → BitVec w → BitVec w → BitVec w
  or : {w : Nat} → BitVec w → BitVec w → BitVec w
  xor : {w : Nat} → BitVec w → BitVec w → BitVec w
  /-- The sum with a carry, and whether it overflows as unsigned and as signed integers. -/
  cinSum : {w : Nat} → (cin : Bool) → (lhs rhs : BitVec w) → BitVec w × Bool × Bool
  mulAdd : {w : Nat} → (self lhs rhs : BitVec w) → BitVec w
  arbUmulAdd : {w : Nat} → (self lhs rhs : BitVec w) → BitVec w
  arbImulAdd : {w : Nat} → (self lhs rhs : BitVec w) → BitVec w
  /-- The resized value, and whether the unsigned value changes. -/
  zeroResize : {w : Nat} → (v : Nat) → BitVec w → BitVec v × Bool
  /-- The resized value, and whether the signed value changes. -/
  signResize : {w : Nat} → (v : Nat) → BitVec w → BitVec v × Bool
  shl : {w : Nat} → BitVec w → Nat → Option (BitVec w)
  lshr : {w : Nat} → BitVec w → Nat → Option (BitVec w)
  ashr : {w : Nat} → BitVec w → Nat → Option (BitVec w)
  /-- Quotient and remainder. -/
  udivide : {w : Nat} → (duo div : BitVec w) → Option (BitVec w × BitVec w)
  /-- Quotient and remainder. -/
  idivide : {w : Nat} → (duo div : BitVec w) → Option (BitVec w × BitVec w)
  ult : {w : Nat} → BitVec w → BitVec w → Bool
  ule : {w : Nat} → BitVec w → BitVec w → Bool
  ugt : {w : Nat} → BitVec w → BitVec w → Bool
  uge : {w : Nat} → BitVec w → BitVec w → Bool
  ilt : {w : Nat} → BitVec w → BitVec w → Bool
  ile : {w : Nat} → BitVec w → BitVec w → Bool
  igt : {w : Nat} → BitVec w → BitVec w → Bool
  ige : {w : Nat} → BitVec w → BitVec w → Bool
  /-- Set from a machine integer, which is extended by zeros or truncated. -/
  usize : (w : Nat) → Nat → BitVec w
  /-- The low 64 bits. -/
  toUsize : {w : Nat} → BitVec w → Nat
  u128 : (w : Nat) → Nat → BitVec w
  i128 : (w : Nat) → Int → BitVec w
  toU128 : {w : Nat} → BitVec w → Nat
  toI128 : {w : Nat} → BitVec w → Int

/-- Is an integer out of the range of the signed integers of `w` bits? -/
def signedOverflow (w : Nat) (i : Int) : Bool := !decide (-2 ^ (w - 1) ≤ i ∧ i < 2 ^ (w - 1))

/-- The documented behaviour. -/
structure Awint.Documented (A : Awint) : Prop where
  umax : ∀ w, A.umax w = BitVec.allOnes w
  imin : ∀ w, A.imin w = BitVec.intMin w
  isZero : ∀ {w} (x : BitVec w), A.isZero x = decide (x = 0)
  msb : ∀ {w} (x : BitVec w), A.msb x = x.msb
  not : ∀ {w} (x : BitVec w), A.not x = ~~~x
  and : ∀ {w} (x y : BitVec w), A.and x y = x &&& y
  or : ∀ {w} (x y : BitVec w), A.or x y = x ||| y
  xor : ∀ {w} (x y : BitVec w), A.xor x y = x ^^^ y
  cinSum : ∀ {w} (cin : Bool) (x y : BitVec w), A.cinSum cin x y =
    (BitVec.ofNat w (x.toNat + y.toNat + cin.toNat),
      decide (2 ^ w ≤ x.toNat + y.toNat + cin.toNat),
      signedOverflow w (x.toInt + y.toInt + cin.toNat))
  mulAdd : ∀ {w} (z x y : BitVec w), A.mulAdd z x y = z + x * y
  arbUmulAdd : ∀ {w} (z x y : BitVec w), A.arbUmulAdd z x y = z + x * y
  arbImulAdd : ∀ {w} (z x y : BitVec w), A.arbImulAdd z x y = z + x * y
  zeroResize : ∀ {w} (v : Nat) (x : BitVec w), A.zeroResize v x =
    (x.setWidth v, decide ((x.setWidth v).toNat ≠ x.toNat))
  signResize : ∀ {w} (v : Nat) (x : BitVec w), A.signResize v x =
    (x.signExtend v, decide ((x.signExtend v).toInt ≠ x.toInt))
  shl : ∀ {w} (x : BitVec w) (s : Nat), A.shl x s = if s < w then some (x <<< s) else none
  lshr : ∀ {w} (x : BitVec w) (s : Nat), A.lshr x s = if s < w then some (x >>> s) else none
  ashr : ∀ {w} (x : BitVec w) (s : Nat), A.ashr x s =
    if s < w then some (x.sshiftRight s) else none
  udivide : ∀ {w} (x y : BitVec w), A.udivide x y = if y = 0 then none
    else some (BitVec.ofNat w (x.toNat / y.toNat), BitVec.ofNat w (x.toNat % y.toNat))
  idivide : ∀ {w} (x y : BitVec w), A.idivide x y = if y = 0 then none
    else some (BitVec.ofInt w (x.toInt.tdiv y.toInt), BitVec.ofInt w (x.toInt.tmod y.toInt))
  ult : ∀ {w} (x y : BitVec w), A.ult x y = decide (x.toNat < y.toNat)
  ule : ∀ {w} (x y : BitVec w), A.ule x y = decide (x.toNat ≤ y.toNat)
  ugt : ∀ {w} (x y : BitVec w), A.ugt x y = decide (y.toNat < x.toNat)
  uge : ∀ {w} (x y : BitVec w), A.uge x y = decide (y.toNat ≤ x.toNat)
  ilt : ∀ {w} (x y : BitVec w), A.ilt x y = decide (x.toInt < y.toInt)
  ile : ∀ {w} (x y : BitVec w), A.ile x y = decide (x.toInt ≤ y.toInt)
  igt : ∀ {w} (x y : BitVec w), A.igt x y = decide (y.toInt < x.toInt)
  ige : ∀ {w} (x y : BitVec w), A.ige x y = decide (y.toInt ≤ x.toInt)
  usize : ∀ (w n : Nat), A.usize w n = BitVec.ofNat w n
  toUsize : ∀ {w} (x : BitVec w), A.toUsize x = x.toNat % 2 ^ 64

/-- Functions on bit vectors with this behaviour. -/
def Awint.bitVec : Awint where
  umax := fun w => BitVec.allOnes w
  imin := fun w => BitVec.intMin w
  isZero := fun x => decide (x = 0)
  msb := fun x => x.msb
  not := fun x => ~~~x
  and := fun x y => x &&& y
  or := fun x y => x ||| y
  xor := fun x y => x ^^^ y
  cinSum := fun {w} cin x y =>
    (BitVec.ofNat w (x.toNat + y.toNat + cin.toNat),
      decide (2 ^ w ≤ x.toNat + y.toNat + cin.toNat),
      signedOverflow w (x.toInt + y.toInt + cin.toNat))
  mulAdd := fun z x y => z + x * y
  arbUmulAdd := fun z x y => z + x * y
  arbImulAdd := fun z x y => z + x * y
  zeroResize := fun v x => (x.setWidth v, decide ((x.setWidth v).toNat ≠ x.toNat))
  signResize := fun v x => (x.signExtend v, decide ((x.signExtend v).toInt ≠ x.toInt))
  shl := fun {w} x s => if s < w then some (x <<< s) else none
  lshr := fun {w} x s => if s < w then some (x >>> s) else none
  ashr := fun {w} x s => if s < w then some (x.sshiftRight s) else none
  udivide := fun {w} x y => if y = 0 then none
    else some (BitVec.ofNat w (x.toNat / y.toNat), BitVec.ofNat w (x.toNat % y.toNat))
  idivide := fun {w} x y => if y = 0 then none
    else some (BitVec.ofInt w (x.toInt.tdiv y.toInt), BitVec.ofInt w (x.toInt.tmod y.toInt))
  ult := fun x y => decide (x.toNat < y.toNat)
  ule := fun x y => decide (x.toNat ≤ y.toNat)
  ugt := fun x y => decide (y.toNat < x.toNat)
  uge := fun x y => decide (y.toNat ≤ x.toNat)
  ilt := fun x y => decide (x.toInt < y.toInt)
  ile := fun x y => decide (x.toInt ≤ y.toInt)
  igt := fun x y => decide (y.toInt < x.toInt)
  ige := fun x y => decide (y.toInt ≤ x.toInt)
  usize := fun w n => BitVec.ofNat w n
  toUsize := fun x => x.toNat % 2 ^ 64
  u128 := fun w n => BitVec.ofNat w n
  i128 := fun w i => BitVec.ofInt w i
  toU128 := fun x => x.toNat % 2 ^ 128
  toI128 := fun x => (x.signExtend 128).toInt

theorem Awint.bitVec_documented : Awint.bitVec.Documented := by
  constructor <;> intros <;> rfl

/-! ## Integers -/

/-- An integer of a fixed bit width, which is not zero. -/
structure APInt where
  bw : Nat
  value : BitVec bw
  pos : 0 < bw
deriving DecidableEq

namespace APInt

variable (A : Awint)

/-- An integer of the same bit width. -/
def withValue (self : APInt) (value : BitVec self.bw) : APInt := { self with value := value }

/-- Assert that two integers have the same bit width. -/
def sameBw {β : Type} (self rhs : APInt) (f : BitVec self.bw → BitVec self.bw → Option β) :
    Option β :=
  if h : rhs.bw = self.bw then f self.value (rhs.value.cast h) else none

def zero (width : Nat) (pos : 0 < width) : APInt := ⟨width, 0, pos⟩

def isZero (self : APInt) : Bool := A.isZero self.value

/-- Is the sign bit set? -/
def isNegative (self : APInt) : Bool := A.msb self.value

def umax (width : Nat) (pos : 0 < width) : APInt := ⟨width, A.umax width, pos⟩

def imin (width : Nat) (pos : 0 < width) : APInt := ⟨width, A.imin width, pos⟩

def fromUsize (value width : Nat) (pos : 0 < width) : APInt := ⟨width, A.usize width value, pos⟩

def toUsize (self : APInt) : Nat := A.toUsize self.value

def fromU128 (value width : Nat) (pos : 0 < width) : APInt := ⟨width, A.u128 width value, pos⟩

def fromI128 (value : Int) (width : Nat) (pos : 0 < width) : APInt :=
  ⟨width, A.i128 width value, pos⟩

def toU128 (self : APInt) : Nat := A.toU128 self.value

def toI128 (self : APInt) : Int := A.toI128 self.value

/-- The sum, and whether it overflows as unsigned and as signed integers. -/
def addOverflow (self rhs : APInt) : Option (APInt × Bool × Bool) :=
  self.sameBw rhs fun lhs rhs =>
    let (value, unsignedOverflow, signedOverflow) := A.cinSum false lhs rhs
    some (self.withValue value, unsignedOverflow, signedOverflow)

/-- The difference, and whether it overflows as unsigned and as signed integers. -/
def subOverflow (self rhs : APInt) : Option (APInt × Bool × Bool) :=
  self.sameBw rhs fun lhs rhs =>
    -- `self - rhs` is `self + !rhs + 1`
    let (value, carryOut, signedOverflow) := A.cinSum true lhs (A.not rhs)
    some (self.withValue value, !carryOut, signedOverflow)

def mul (self rhs : APInt) : Option APInt :=
  self.sameBw rhs fun lhs rhs => some (self.withValue (A.mulAdd (BitVec.ofNat self.bw 0) lhs rhs))

/-- The product, and whether it overflows as unsigned and as signed integers. -/
def mulOverflow (self rhs : APInt) : Option (APInt × Bool × Bool) :=
  self.sameBw rhs fun lhs rhs' => do
    let dbw := self.bw * 2
    let uprod := A.arbUmulAdd (BitVec.ofNat dbw 0) (A.zeroResize dbw lhs).1 (A.zeroResize dbw rhs').1
    let unsignedOverflow := (A.zeroResize self.bw uprod).2
    let sprod := A.arbImulAdd (BitVec.ofNat dbw 0) (A.signResize dbw lhs).1 (A.signResize dbw rhs').1
    let signedOverflow := (A.signResize self.bw sprod).2
    some (← self.mul A rhs, unsignedOverflow, signedOverflow)

def shl (self rhs : APInt) : Option APInt :=
  self.sameBw rhs fun lhs _ =>
    some (self.withValue ((A.shl lhs (rhs.toUsize A)).getD 0))

def lshr (self rhs : APInt) : Option APInt :=
  self.sameBw rhs fun lhs _ =>
    some (self.withValue ((A.lshr lhs (rhs.toUsize A)).getD 0))

def ashr (self rhs : APInt) : Option APInt :=
  self.sameBw rhs fun lhs _ => do
    let shamt := min (rhs.toUsize A) (self.bw - 1)
    some (self.withValue (← A.ashr lhs shamt))

/-- The shifted value, and whether it overflows as unsigned and as signed integers: whether
    shifting back does not recover `self`. -/
def shlOverflow (self rhs : APInt) : Option (APInt × Bool × Bool) :=
  self.sameBw rhs fun _ _ => do
    let shamt := rhs.toUsize A
    if shamt < self.bw then
      let result ← self.shl A rhs
      let ushiftedBack ← A.lshr result.value shamt
      let unsignedOverflow := decide (result.withValue ushiftedBack ≠ self)
      let sshiftedBack ← A.ashr result.value shamt
      let signedOverflow := decide (result.withValue sshiftedBack ≠ self)
      some (result, unsignedOverflow, signedOverflow)
    else none

def sext (self : APInt) (width : Nat) (pos : 0 < width) : APInt :=
  ⟨width, (A.signResize width self.value).1, pos⟩

def zext (self : APInt) (width : Nat) (pos : 0 < width) : APInt :=
  ⟨width, (A.zeroResize width self.value).1, pos⟩

/-- The low bits; the width must not exceed the current one. -/
def trunc (self : APInt) (width : Nat) (pos : 0 < width) : Option APInt :=
  if width ≤ self.bw then some (self.zext A width pos) else none

def udiv (self rhs : APInt) : Option APInt :=
  self.sameBw rhs fun lhs rhs' =>
    if rhs.isZero A then none
    else (A.udivide lhs rhs').map (fun result => self.withValue result.1)

def sdiv (self rhs : APInt) : Option APInt :=
  self.sameBw rhs fun lhs rhs' =>
    if rhs.isZero A then none
    else (A.idivide lhs rhs').map (fun result => self.withValue result.1)

def urem (self rhs : APInt) : Option APInt :=
  self.sameBw rhs fun lhs rhs' =>
    if rhs.isZero A then none
    else (A.udivide lhs rhs').map (fun result => self.withValue result.2)

def srem (self rhs : APInt) : Option APInt :=
  self.sameBw rhs fun lhs rhs' =>
    if rhs.isZero A then none
    else (A.idivide lhs rhs').map (fun result => self.withValue result.2)

def and (self rhs : APInt) : Option APInt :=
  self.sameBw rhs fun lhs rhs => some (self.withValue (A.and lhs rhs))

def or (self rhs : APInt) : Option APInt :=
  self.sameBw rhs fun lhs rhs => some (self.withValue (A.or lhs rhs))

def xor (self rhs : APInt) : Option APInt :=
  self.sameBw rhs fun lhs rhs => some (self.withValue (A.xor lhs rhs))

def ult (self rhs : APInt) : Option Bool := self.sameBw rhs fun lhs rhs => some (A.ult lhs rhs)
def ule (self rhs : APInt) : Option Bool := self.sameBw rhs fun lhs rhs => some (A.ule lhs rhs)
def ugt (self rhs : APInt) : Option Bool := self.sameBw rhs fun lhs rhs => some (A.ugt lhs rhs)
def uge (self rhs : APInt) : Option Bool := self.sameBw rhs fun lhs rhs => some (A.uge lhs rhs)
def slt (self rhs : APInt) : Option Bool := self.sameBw rhs fun lhs rhs => some (A.ilt lhs rhs)
def sle (self rhs : APInt) : Option Bool := self.sameBw rhs fun lhs rhs => some (A.ile lhs rhs)
def sgt (self rhs : APInt) : Option Bool := self.sameBw rhs fun lhs rhs => some (A.igt lhs rhs)
def sge (self rhs : APInt) : Option Bool := self.sameBw rhs fun lhs rhs => some (A.ige lhs rhs)

/-- The two integers have the same bit width. -/
@[simp] theorem sameBw_mk {β : Type} {w : Nat} (x y : BitVec w) (hx hy : 0 < w)
    (f : BitVec w → BitVec w → Option β) :
    sameBw ⟨w, x, hx⟩ ⟨w, y, hy⟩ f = f x y := by
  rw [sameBw, dif_pos rfl]
  rfl

end APInt

end Pliron
