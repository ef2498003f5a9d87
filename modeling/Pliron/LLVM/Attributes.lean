/-
  Pliron.LLVM.Attributes

  The types of the LLVM dialect and its constants.

  Floating-point numbers are those of an external library, a parameter here.
-/

import Pliron.Utils.APInt

namespace Pliron.LLVM

/-! ## Types -/

inductive Signedness where
  | signed
  | unsigned
  | signless
deriving DecidableEq, Repr

/-- An integer type, whose width is a 32 bit integer. -/
structure IntegerType where
  width : Nat
  signedness : Signedness
  lt : width < 2 ^ 32 := by decide
deriving DecidableEq, Repr

inductive VectorTypeKind where
  | fixed
  | scalable
deriving DecidableEq, Repr

inductive Ty where
  | integer (ty : IntegerType)
  | fp16
  | bf16
  | fp32
  | fp64
  | pointer
  | vector (elemType : Ty) (numElements : Nat) (kind : VectorTypeKind)
  /-- A type that is only compared with others. -/
  | other (name : String)
deriving DecidableEq, Repr

namespace Ty

/-- The type, or its element type if it is a vector. -/
def scalarOrVectorElemTy : Ty → Ty
  | vector elemType _ _ => elemType
  | ty => ty

/-- The shape of a vector. -/
def vectorShape : Ty → Option (Nat × VectorTypeKind)
  | vector _ numElements kind => some (numElements, kind)
  | _ => none

end Ty

/-- Get the signless integer type of the given width. -/
def IntegerType.signless (ty : IntegerType) : IntegerType := { ty with signedness := .signless }

/-! ## Floating-point numbers -/

/-- The functions on floating-point numbers that are used, for numbers in `F`. -/
structure APFloat (F : Type) where
  ty : F → Ty
  neg : F → F
  add : F → F → F
  sub : F → F → F
  mul : F → F → F
  div : F → F → F
  rem : F → F → F
  isNan : F → Bool
  isInfinite : F → Bool
  partialCmp : F → F → Option Ordering
  zero : Ty → F
  convert : F → Ty → F
  buildFromI128 : F → Int → F
  buildFromU128 : F → Nat → F
  /-- Round towards zero to a signed integer of the given width; is that invalid? -/
  toI128 : F → Nat → Int × Bool
  /-- Round towards zero to an unsigned integer of the given width; is that invalid? -/
  toU128 : F → Nat → Nat × Bool

/-- A library with one number. -/
def APFloat.unit : APFloat Unit where
  ty := fun _ => .fp32
  neg := fun _ => ()
  add := fun _ _ => ()
  sub := fun _ _ => ()
  mul := fun _ _ => ()
  div := fun _ _ => ()
  rem := fun _ _ => ()
  isNan := fun _ => false
  isInfinite := fun _ => false
  partialCmp := fun _ _ => some .eq
  zero := fun _ => ()
  convert := fun _ _ => ()
  buildFromI128 := fun _ _ => ()
  buildFromU128 := fun _ _ => ()
  toI128 := fun _ _ => (0, false)
  toU128 := fun _ _ => (0, false)

/-! ## Constants -/

/-- An attribute containing an integer. -/
structure IntegerAttr where
  ty : IntegerType
  val : APInt
deriving DecidableEq

/-- The constants that operands are known to be. -/
inductive Attr (F : Type) where
  | integer (attr : IntegerAttr)
  | float (value : F)
  | undef (ty : Ty)
  | poison (ty : Ty)
  | aggregate (elements : List (Attr F)) (ty : Ty)
  | splat (element : Attr F) (elemType : Ty) (numElements : Nat) (kind : VectorTypeKind)
  /-- Another attribute, with its type if it is a typed one. -/
  | other (name : String) (ty : Option Ty)

namespace Attr

variable {F : Type}

/-- The type of a typed attribute. -/
def getType (fl : APFloat F) : Attr F → Option Ty
  | integer attr => some (.integer attr.ty)
  | float value => some (fl.ty value)
  | undef ty => some ty
  | poison ty => some ty
  | aggregate _ ty => some ty
  | splat _ elemType numElements kind => some (.vector elemType numElements kind)
  | other _ ty => ty

/-- Is it a typed attribute? -/
def isTyped : Attr F → Bool
  | other _ ty => ty.isSome
  | _ => true

def isPoison : Attr F → Bool
  | poison _ => true
  | _ => false

/-- Is it an `undef` or a `poison` value? -/
def isUndefOrPoison : Attr F → Bool
  | undef _ => true
  | poison _ => true
  | _ => false

mutual

/-- Is it an `undef` or a `poison` value, or does it contain one? -/
def containsUndefOrPoison : Attr F → Bool
  | undef _ => true
  | poison _ => true
  | aggregate elements _ => anyContainsUndefOrPoison elements
  | splat element _ _ _ => containsUndefOrPoison element
  | _ => false

def anyContainsUndefOrPoison : List (Attr F) → Bool
  | [] => false
  | element :: elements => containsUndefOrPoison element || anyContainsUndefOrPoison elements

end

mutual

/-- Equality of attributes. -/
def beq [DecidableEq F] : Attr F → Attr F → Bool
  | integer a, integer b => a = b
  | float a, float b => a = b
  | undef a, undef b => a = b
  | poison a, poison b => a = b
  | aggregate es ty, aggregate es' ty' => beqList es es' && ty = ty'
  | splat e elemType n kind, splat e' elemType' n' kind' =>
      beq e e' && elemType = elemType' && n = n' && kind = kind'
  | other a ty, other b ty' => a = b && ty = ty'
  | _, _ => false

def beqList [DecidableEq F] : List (Attr F) → List (Attr F) → Bool
  | [], [] => true
  | e :: es, e' :: es' => beq e e' && beqList es es'
  | _, _ => false

end

mutual

theorem beq_iff [DecidableEq F] (a b : Attr F) : beq a b = true ↔ a = b := by
  match a, b with
  | aggregate es ty, aggregate es' ty' =>
      have hes := beqList_iff es es'
      simp only [beq, Bool.and_eq_true, hes, decide_eq_true_eq, aggregate.injEq]
  | splat e elemType n kind, splat e' elemType' n' kind' =>
      have he := beq_iff e e'
      simp only [beq, Bool.and_eq_true, he, decide_eq_true_eq, splat.injEq, and_assoc]
  | integer a, b => cases b <;> simp [beq]
  | float a, b => cases b <;> simp [beq]
  | undef a, b => cases b <;> simp [beq]
  | poison a, b => cases b <;> simp [beq]
  | other a ty, b => cases b <;> simp [beq]
  | aggregate es ty, integer _ | aggregate es ty, float _ | aggregate es ty, undef _
  | aggregate es ty, poison _ | aggregate es ty, splat _ _ _ _ | aggregate es ty, other _ _ =>
      simp [beq]
  | splat e elemType n kind, integer _ | splat e elemType n kind, float _
  | splat e elemType n kind, undef _ | splat e elemType n kind, poison _
  | splat e elemType n kind, aggregate _ _ | splat e elemType n kind, other _ _ => simp [beq]

theorem beqList_iff [DecidableEq F] (es es' : List (Attr F)) :
    beqList es es' = true ↔ es = es' := by
  match es, es' with
  | [], [] => simp [beqList]
  | [], _ :: _ => simp [beqList]
  | _ :: _, [] => simp [beqList]
  | e :: es, e' :: es' =>
      have he := beq_iff e e'
      have hes := beqList_iff es es'
      simp only [beqList, Bool.and_eq_true, he, hes, List.cons.injEq]

end

instance [DecidableEq F] : DecidableEq (Attr F) := fun a b => decidable_of_iff _ (beq_iff a b)

end Attr

end Pliron.LLVM
