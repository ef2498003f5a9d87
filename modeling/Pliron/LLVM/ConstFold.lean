/-
  Pliron.LLVM.ConstFold

  Constant folding of the operations of the LLVM dialect.

  Folding takes, for each operand, the constant it is known to be, if any, and gives
  the constant of each result, if any.  `none` around that is a panic.
-/

import Pliron.LLVM.Ops

namespace Pliron.LLVM

variable {F : Type}

/-! ## Poison -/

/-- Is an operand known to be poison? -/
def isPoisonOperand (attr : Option (Attr F)) : Bool :=
  match attr with
  | some attr => attr.isPoison
  | none => false

@[simp] theorem isPoisonOperand_none : isPoisonOperand (none : Option (Attr F)) = false := rfl

/-- Fold an operation whose result is poison whenever an operand is: `fold` sees no poison, and
    what it does not fold is poison if an operand is. -/
def checkFoldPoisonPropagatingOp (resultTypes : List Ty) (ops : Known F)
    (fold : Known F → Option (Known F)) : Option (Known F) :=
  if ops.any isPoisonOperand then do
    let nonPoisonOps := ops.map (fun attr => if isPoisonOperand attr then none else attr)
    let folded ← fold nonPoisonOps
    some ((folded.zip resultTypes).map (fun e => e.1.or (some (.poison e.2))))
  else fold ops

/-- Forget that an operand is poison. -/
def forgetPoison (attr : Option (Attr F)) : Option (Attr F) :=
  if isPoisonOperand attr then none else attr

/-- What the wrapper makes of a fold that sees no poison. -/
theorem checkFoldPoisonPropagatingOp_eq {ty : Ty} {ops : Known F} {fold : Known F → Option (Known F)}
    {r : Option (Attr F)} (h : fold (ops.map forgetPoison) = some [r]) :
    checkFoldPoisonPropagatingOp [ty] ops fold =
      some [if ops.any isPoisonOperand then r.or (some (.poison ty)) else r] := by
  unfold checkFoldPoisonPropagatingOp
  by_cases hany : ops.any isPoisonOperand = true
  · rw [if_pos hany, if_pos hany]
    have hmap : (ops.map fun attr => if isPoisonOperand attr then none else attr) =
        ops.map forgetPoison := rfl
    simp only [hmap, h, Option.bind_eq_bind, Option.bind_some, List.zip_cons_cons,
      List.zip_nil_left, List.map_cons, List.map_nil]
  · rw [if_neg hany, if_neg hany, ← h]
    congr 1
    have hid : ∀ attr ∈ ops, forgetPoison attr = attr := by
      intro attr hattr
      have hattr' : ¬ isPoisonOperand attr = true := fun hp =>
        hany (List.any_eq_true.mpr ⟨attr, hattr, hp⟩)
      rw [forgetPoison, if_neg hattr']
    rw [List.map_congr_left hid, List.map_id']

/-! ## Integer operations -/

/-- The two constant integer operands. -/
def getIntBinOperands : Known F → Option (Option (IntegerAttr × IntegerAttr))
  | [some (.integer lhs), some (.integer rhs)] => some (some (lhs, rhs))
  | [_, _] => some none
  | _ => none

/-- Create an `i1` attribute. -/
def boolAttr (A : Awint) (value : Bool) : Attr F :=
  .integer ⟨{ width := 1, signedness := .signless },
    APInt.fromUsize A value.toNat 1 Nat.one_pos⟩

variable (A : Awint)

/-- Fold a binary integer operation, given the wrapped result and whether it overflows as unsigned
    and as signed integers. -/
def checkFoldIntBinOpWithOverflow (ops : Known F) (flags : IntegerOverflowFlagsAttr)
    (combine : APInt → APInt → Option (APInt × Bool × Bool)) : Option (Known F) := do
  match ← getIntBinOperands ops with
  | none => some [none]
  | some (lhs, rhs) => do
      let (res, unsignedOverflow, signedOverflow) ← combine lhs.val rhs.val
      if (flags.nsw && signedOverflow) || (flags.nuw && unsignedOverflow) then some [none]
      else some [some (.integer ⟨lhs.ty, res⟩)]

/-- Fold a binary integer operation. -/
def checkFoldIntBinOp (ops : Known F) (combine : APInt → APInt → Option APInt) :
    Option (Known F) := do
  match ← getIntBinOperands ops with
  | none => some [none]
  | some (lhs, rhs) => do
      let res ← combine lhs.val rhs.val
      some [some (.integer ⟨lhs.ty, res⟩)]

/-- Is signed-dividing `lhs` by `rhs` undefined behaviour? -/
def isSignedDivUb (lhs rhs : APInt) : Bool :=
  rhs.isZero A || (lhs = APInt.imin A rhs.bw rhs.pos && rhs = APInt.umax A rhs.bw rhs.pos)

/-- Fold a shift by an amount below the bit width. -/
def checkFoldShift (ops : Known F) (fold : Known F → Option (Known F)) : Option (Known F) := do
  match ← getIntBinOperands ops with
  | none => some [none]
  | some (lhs, rhs) => do
      let lhsBw := APInt.fromUsize A lhs.val.bw lhs.val.bw lhs.val.pos
      if ← rhs.val.ult A lhsBw then fold ops else some [none]

/-- Fold a division, unless it is undefined behaviour. -/
def checkFoldDivision (ops : Known F) (isUb : APInt → APInt → Bool)
    (combine : APInt → APInt → Option APInt) : Option (Known F) := do
  match ← getIntBinOperands ops with
  | some (lhs, rhs) =>
      if isUb lhs.val rhs.val then some [none] else checkFoldIntBinOp ops combine
  | none => checkFoldIntBinOp ops combine

/-- Look at the known operands in order: the first that is not an integer forbids folding, and the
    first that is absorbing is the result. -/
def absorbingOperand (absorbing : APInt → APInt) : Known F → Option (Known F)
  | [] => none
  | none :: ops => absorbingOperand absorbing ops
  | some (.integer int) :: ops =>
      if int.val = absorbing int.val then some [some (.integer ⟨int.ty, absorbing int.val⟩)]
      else absorbingOperand absorbing ops
  | some _ :: _ => some [none]

/-- Fold an operation with an absorbing integer. -/
def checkFoldAbsorbing (ops : Known F) (absorbing : APInt → APInt)
    (combine : APInt → APInt → Option APInt) : Option (Known F) :=
  if ops.length = 2 then
    match absorbingOperand absorbing ops with
    | some res => some res
    | none => checkFoldIntBinOp ops combine
  else none

def IntBinOp.checkFold (op : IntBinOp) (ops : Known F) : Option (Known F) :=
  match op with
  | .add flags => checkFoldIntBinOpWithOverflow ops flags (APInt.addOverflow A)
  | .sub flags => checkFoldIntBinOpWithOverflow ops flags (APInt.subOverflow A)
  | .mul flags => checkFoldIntBinOpWithOverflow ops flags (APInt.mulOverflow A)
  | .shl flags => checkFoldShift A ops
      (fun ops => checkFoldIntBinOpWithOverflow ops flags (APInt.shlOverflow A))
  | .udiv => checkFoldDivision ops (fun _ rhs => rhs.isZero A) (APInt.udiv A)
  | .sdiv => checkFoldDivision ops (isSignedDivUb A) (APInt.sdiv A)
  | .urem => checkFoldDivision ops (fun _ rhs => rhs.isZero A) (APInt.urem A)
  | .srem => checkFoldDivision ops (isSignedDivUb A) (APInt.srem A)
  | .and => checkFoldAbsorbing ops (fun int => APInt.zero int.bw int.pos) (APInt.and A)
  | .or => checkFoldAbsorbing ops (fun int => APInt.umax A int.bw int.pos) (APInt.or A)
  | .xor => checkFoldIntBinOp ops (APInt.xor A)
  | .lshr => checkFoldShift A ops (fun ops => checkFoldIntBinOp ops (APInt.lshr A))
  | .ashr => checkFoldShift A ops (fun ops => checkFoldIntBinOp ops (APInt.ashr A))

/-- Evaluate an integer comparison. -/
def evalICmp (pred : ICmpPredicateAttr) (lhs rhs : APInt) : Option Bool :=
  if lhs.bw = rhs.bw then
    match pred with
    | .eq => some (decide (lhs = rhs))
    | .ne => some (decide (lhs ≠ rhs))
    | .slt => lhs.slt A rhs
    | .sle => lhs.sle A rhs
    | .sgt => lhs.sgt A rhs
    | .sge => lhs.sge A rhs
    | .ult => lhs.ult A rhs
    | .ule => lhs.ule A rhs
    | .ugt => lhs.ugt A rhs
    | .uge => lhs.uge A rhs
  else none

def checkFoldICmp (pred : ICmpPredicateAttr) (ops : Known F) : Option (Known F) := do
  match ← getIntBinOperands ops with
  | none => some [none]
  | some (lhs, rhs) => do
      let result ← evalICmp A pred lhs.val rhs.val
      some [some (boolAttr A result)]

/-! ## Integer casts -/

/-- For an integer type, its signless integer type; the width must not be zero. -/
def castDestToSignless (resTy : Ty) : Option (Option { ty : IntegerType // 0 < ty.width }) :=
  match resTy with
  | .integer ty => if h : 0 < ty.width then some (some ⟨ty.signless, h⟩) else none
  | _ => some none

/-- Fold a scalar integer cast with `resize`. -/
def checkFoldIntCast (ops : Known F) (resTy : Ty)
    (resize : APInt → (width : Nat) → 0 < width → Option APInt) : Option (Known F) :=
  match ops with
  | [some (.integer operand)] => do
      match ← castDestToSignless resTy with
      | none => some [none]
      | some dest => do
          let res ← resize operand.val dest.1.width dest.2
          some [some (.integer ⟨dest.1, res⟩)]
  | [_] => some [none]
  | _ => none

/-- Is the one operand known to be negative? -/
def isNegativeOperand : Known F → Bool
  | [some (.integer operand)] => operand.val.isNegative A
  | _ => false

def IntCastOp.checkFold (op : IntCastOp) (resTy : Ty) (ops : Known F) : Option (Known F) :=
  match op with
  | .sext => checkFoldIntCast ops resTy (fun int width pos => some (int.sext A width pos))
  | .zext nneg =>
      -- A negative operand violates `nneg`.
      if nneg && isNegativeOperand A ops then some [none]
      else checkFoldIntCast ops resTy (fun int width pos => some (int.zext A width pos))
  | .trunc => checkFoldIntCast ops resTy (fun int width pos => int.trunc A width pos)

/-! ## Vectors and aggregates -/

/-- A fixed vector constant's type and length. -/
def fixedVectorShape : Attr F → Option (Ty × Nat)
  | .aggregate elements ty =>
      match ty with
      | .vector _ _ .fixed => some (ty, elements.length)
      | _ => none
  | .splat _ elemType numElements kind =>
      match kind with
      | .fixed => some (.vector elemType numElements kind, numElements)
      | .scalable => none
  | _ => none

/-- A fixed vector element; the index must be in bounds. -/
def fixedVectorElement (vector : Attr F) (index : Nat) : Option (Attr F) :=
  match vector with
  | .aggregate elements _ => elements[index]?
  | .splat element _ _ _ => some element
  | _ => none

/-- The element that an entry of the mask names; negative entries and those out of bounds are not
    folded. -/
def shuffleElement (lhs : Attr F) (lhsLen : Nat) (rhs : Attr F) (rhsLen : Nat) (maskIndex : Int) :
    Option (Option (Attr F)) :=
  match maskIndex with
  | .negSucc _ => some none
  | .ofNat index =>
      if index < lhsLen then (fixedVectorElement lhs index).map some
      else if index - lhsLen < rhsLen then (fixedVectorElement rhs (index - lhsLen)).map some
      else some none

def shuffleElements (lhs : Attr F) (lhsLen : Nat) (rhs : Attr F) (rhsLen : Nat) :
    List Int → Option (Option (List (Attr F)))
  | [] => some (some [])
  | maskIndex :: mask => do
      match ← shuffleElement lhs lhsLen rhs rhsLen maskIndex with
      | none => some none
      | some element => do
          let elements ← shuffleElements lhs lhsLen rhs rhsLen mask
          some (elements.map (element :: ·))

/-- Fold a shuffle of two fixed vector constants. -/
def foldShuffleVector (lhs rhs : Attr F) (mask : List Int) (resultTy : Ty) :
    Option (Option (Attr F)) :=
  match fixedVectorShape lhs, fixedVectorShape rhs with
  | some (_, lhsLen), some (_, rhsLen) => do
      let elements ← shuffleElements lhs lhsLen rhs rhsLen mask
      some (elements.map (fun elements => .aggregate elements resultTy))
  | _, _ => some none

def checkFoldShuffleVector (mask : List Int) (resultTy : Ty) : Known F → Option (Known F)
  | [some lhs, some rhs] => do some [← foldShuffleVector lhs rhs mask resultTy]
  | [_, _] => some [none]
  | _ => none

/-- Convert an index to an in-bounds vector index. -/
def constantVectorIndex (index : IntegerAttr) (length : Nat) : Option Nat :=
  if 128 < index.val.bw then none
  else
    let index := index.val.toU128 A
    if index < 2 ^ 64 ∧ index < length then some index else none

def checkFoldExtractElement : Known F → Option (Known F)
  | [some vector, some (.integer index)] =>
      match fixedVectorShape vector with
      | none => some [none]
      | some (_, length) =>
          match constantVectorIndex A index length with
          | none => some [none]
          | some index => do some [some (← fixedVectorElement vector index)]
  | [_, _] => some [none]
  | _ => none

/-- A fixed vector constant's elements and type. -/
def fixedVectorElements (vector : Attr F) : Option (Option (List (Attr F) × Ty)) :=
  match fixedVectorShape vector with
  | none => some none
  | some (ty, length) => do
      let elements ← (List.range length).mapM (fixedVectorElement vector)
      some (some (elements, ty))

def checkFoldInsertElement : Known F → Option (Known F)
  | [some vector, some element, some index] =>
      if element.isTyped then
        match index with
        | .integer index => do
            match ← fixedVectorElements vector with
            | none => some [none]
            | some (elements, ty) =>
                match constantVectorIndex A index elements.length with
                | none => some [none]
                | some index => some [some (.aggregate (elements.set index element) ty)]
        | _ => some [none]
      else none
  | [_, _, _] => some [none]
  | _ => none

/-- Extract an element along `indices`. -/
def extractFromAggregateAttr (elements : List (Attr F)) : List Nat → Option (Attr F)
  | [] => none
  | index :: rest =>
      match elements[index]? with
      | none => none
      | some element =>
          if rest.isEmpty then some element
          else
            match element with
            | .aggregate nested _ => extractFromAggregateAttr nested rest
            | _ => none

def checkFoldExtractValue (indices : List Nat) : Known F → Option (Known F)
  | [some (.aggregate elements _)] => some [extractFromAggregateAttr elements indices]
  | [_] => some [none]
  | _ => none

/-- Insert `value` along `indices`. -/
def insertIntoAggregateAttr (elements : List (Attr F)) (value : Attr F) :
    List Nat → Option (List (Attr F))
  | [] => none
  | index :: rest =>
      match elements[index]? with
      | none => none
      | some current =>
          if rest.isEmpty then some (elements.set index value)
          else
            match current with
            | .aggregate nested ty =>
                (insertIntoAggregateAttr nested value rest).map
                  (fun nested => elements.set index (.aggregate nested ty))
            | _ => none

def checkFoldInsertValue (indices : List Nat) : Known F → Option (Known F)
  | [some (.aggregate elements ty), some value] =>
      if value.isTyped then
        some [(insertIntoAggregateAttr elements value indices).map
          (fun elements => .aggregate elements ty)]
      else none
  | [_, _] => some [none]
  | _ => none

/-! ## Floating-point operations -/

variable (fl : APFloat F)

/-- Fold a scalar float-to-integer cast, rounding toward zero. -/
def checkFoldFloatToInt (resultTy : Ty) (signed : Bool) : Known F → Option (Known F)
  | [some (.float value)] => do
      match ← castDestToSignless resultTy with
      | none => some [none]
      | some dest =>
          if 128 < dest.1.width then some [none]
          else if signed then
            -- A conversion to zero bits is not supported, so that one bit needs care.
            let (converted, invalidOp) := fl.toI128 value (max dest.1.width 2)
            if invalidOp || (dest.1.width = 1 && converted ≠ -1 && converted ≠ 0) then some [none]
            else some [some (.integer ⟨dest.1, APInt.fromI128 A converted dest.1.width dest.2⟩)]
          else
            let (converted, invalidOp) := fl.toU128 value dest.1.width
            if invalidOp then some [none]
            else some [some (.integer ⟨dest.1, APInt.fromU128 A converted dest.1.width dest.2⟩)]
  | [_] => some [none]
  | _ => none

/-- Is it a builtin float type? -/
def isBuiltinFloat : Ty → Bool
  | .fp16 | .bf16 | .fp32 | .fp64 => true
  | _ => false

/-- The zero of a builtin float type. -/
def zeroFloatAttr (ty : Ty) : Option F := if isBuiltinFloat ty then some (fl.zero ty) else none

/-- Fold a scalar integer-to-float cast. -/
def checkFoldIntToFloat (resultTy : Ty) (signed nneg : Bool) : Known F → Option (Known F)
  | [some (.integer value)] =>
      -- A violated `nneg` produces poison.
      if 128 < value.val.bw || (nneg && value.val.isNegative A) then some [none]
      else
        match zeroFloatAttr fl resultTy with
        | none => some [none]
        | some result =>
            if signed then some [some (.float (fl.buildFromI128 result (value.val.toI128 A)))]
            else some [some (.float (fl.buildFromU128 result (value.val.toU128 A)))]
  | [_] => some [none]
  | _ => none

/-- Does a value violate the fast-math flags? -/
def fastMathForbidsFold (flags : FastmathFlagsAttr) (values : List F) : Bool :=
  (flags.nnan && values.any fl.isNan) || (flags.ninf && values.any fl.isInfinite)

/-- Fold a scalar float cast. -/
def checkFoldFloatCast (resultTy : Ty) (flags : FastmathFlagsAttr) : Known F → Option (Known F)
  | [some (.float source)] =>
      if isBuiltinFloat (fl.ty source) && isBuiltinFloat resultTy then
        let result := fl.convert source resultTy
        if fastMathForbidsFold fl flags [source, result] then some [none]
        else some [some (.float result)]
      else some [none]
  | [_] => some [none]
  | _ => none

def checkFoldFNeg (flags : FastmathFlagsAttr) : Known F → Option (Known F)
  | [some (.float value)] =>
      if fastMathForbidsFold fl flags [value] then some [none]
      else some [some (.float (fl.neg value))]
  | [_] => some [none]
  | _ => none

/-- The two constant operands of a binary float operation. -/
def getFloatBinOperands : Known F → Option (Option (F × F))
  | [some (.float lhs), some (.float rhs)] => some (some (lhs, rhs))
  | [_, _] => some none
  | _ => none

def FloatBinOp.combine : FloatBinOp → F → F → F
  | .fadd => fl.add
  | .fsub => fl.sub
  | .fmul => fl.mul
  | .fdiv => fl.div
  | .frem => fl.rem

/-- Fold a binary floating-point operation. -/
def checkFoldFloatBinOp (op : FloatBinOp) (flags : FastmathFlagsAttr) (ops : Known F) :
    Option (Known F) := do
  match ← getFloatBinOperands ops with
  | none => some [none]
  | some (lhs, rhs) =>
      let res := op.combine fl lhs rhs
      if fastMathForbidsFold fl flags [lhs, rhs, res] then some [none]
      else some [some (.float res)]

/-- Evaluate a comparison of floats. -/
def evalFCmp (pred : FCmpPredicateAttr) (lhs rhs : F) : Bool :=
  let ord := fl.partialCmp lhs rhs
  match pred with
  | .false => false
  | .true => true
  | .ord => ord.isSome
  | .uno => ord.isNone
  | .oeq => ord = some .eq
  | .ogt => ord = some .gt
  | .oge => ord = some .gt || ord = some .eq
  | .olt => ord = some .lt
  | .ole => ord = some .lt || ord = some .eq
  | .one => ord = some .lt || ord = some .gt
  | .ueq => !(ord = some .lt || ord = some .gt)
  | .ugt => !(ord = some .lt || ord = some .eq)
  | .uge => ord ≠ some .lt
  | .ult => !(ord = some .gt || ord = some .eq)
  | .ule => ord ≠ some .gt
  | .une => ord ≠ some .eq

def checkFoldFCmp (pred : FCmpPredicateAttr) (flags : FastmathFlagsAttr) (ops : Known F) :
    Option (Known F) := do
  match ← getFloatBinOperands ops with
  | none => some [none]
  | some (lhs, rhs) =>
      if fastMathForbidsFold fl flags [lhs, rhs] then some [none]
      else some [some (boolAttr A (evalFCmp fl pred lhs rhs))]

/-! ## Select and freeze -/

def checkFoldSelect [DecidableEq F] : Known F → Option (Known F)
  | [some (.integer cond), trueVal, falseVal] =>
      some [if cond.val.isZero A then falseVal else trueVal]
  | [some _, _, _] => some [none]
  | [none, some t, some f] =>
      -- Equal constants make the condition irrelevant.
      if t = f then some [some t] else some [none]
  | [none, _, _] => some [none]
  | _ => none

/-- A constant without `undef` or `poison` parts is its own frozen value. -/
def checkFoldFreeze : Known F → Option (Known F)
  | [operand] => some [operand.filter (fun attr => !attr.containsUndefOrPoison)]
  | _ => none

/-! ## Operations -/

/-- Fold an operation. -/
def Op.checkFold [DecidableEq F] (op : Op F) (ops : Known F) : Option (Known F) :=
  let poisonPropagating := checkFoldPoisonPropagatingOp [op.resultType] ops
  match op.opcode with
  | .constant value => some [some value]
  | .poison => some [some (.poison op.resultType)]
  | .undef => some [some (.undef op.resultType)]
  | .intBin binOp => poisonPropagating (binOp.checkFold A)
  | .icmp pred => poisonPropagating (checkFoldICmp A pred)
  | .shuffleVector mask => checkFoldShuffleVector mask op.resultType ops
  | .extractElement => poisonPropagating (checkFoldExtractElement A)
  | .insertElement => checkFoldInsertElement A ops
  | .extractValue indices => poisonPropagating (checkFoldExtractValue indices)
  | .insertValue indices => checkFoldInsertValue indices ops
  | .intCast castOp => poisonPropagating (castOp.checkFold A op.resultType)
  | .fptosi => poisonPropagating (checkFoldFloatToInt A fl op.resultType true)
  | .fptoui => poisonPropagating (checkFoldFloatToInt A fl op.resultType false)
  | .sitofp => poisonPropagating (checkFoldIntToFloat A fl op.resultType true false)
  | .uitofp nneg => poisonPropagating (checkFoldIntToFloat A fl op.resultType false nneg)
  | .fpext flags => poisonPropagating (checkFoldFloatCast fl op.resultType flags)
  | .fptrunc flags => poisonPropagating (checkFoldFloatCast fl op.resultType flags)
  | .fneg flags => poisonPropagating (checkFoldFNeg fl flags)
  | .floatBin binOp flags => poisonPropagating (checkFoldFloatBinOp fl binOp flags)
  | .fcmp pred flags => poisonPropagating (checkFoldFCmp A fl pred flags)
  | .select => checkFoldSelect A ops
  | .freeze => checkFoldFreeze ops

/-! ## Branches -/

/-- Is the branch condition, the first operand, `undef` or `poison`?  Branching on such a value is
    undefined behaviour. -/
def isUndefOrPoisonCondition : Known F → Bool
  | some cond :: _ => cond.isUndefOrPoison
  | _ => false

/-- The integer that the first operand is known to be. -/
def conditionInt : Known F → Option APInt
  | some (.integer cond) :: _ => some cond.val
  | _ => none

variable {Block : Type}

/-- The possible successors of a conditional branch. -/
def possibleSuccessorIndices (numSuccessors : Nat) (ops : Known F) : Option (List Nat) :=
  if isUndefOrPoisonCondition ops then some []
  else if ops.isEmpty then none
  else
    match conditionInt ops with
    | none => some (List.range numSuccessors)
    | some cond => some [if cond.isZero A then 1 else 0]

/-- The possible successors of a branch. -/
def BranchOp.checkFold (op : BranchOp Block) (ops : Known F) : Option (List Block) :=
  match op.opcode with
  | .br => some op.successors
  | .condBr => do
      let indices ← possibleSuccessorIndices A op.successors.length ops
      indices.mapM (fun ind => op.successors[ind]?)
  | .switch caseValues =>
      if isUndefOrPoisonCondition ops then some []
      else
        match conditionInt ops with
        | none => some op.successors
        | some cond => do
            let position := caseValues.findIdx? (fun case => case.val = cond)
            let taken := (position.map (· + 1)).getD 0
            some [← op.successors[taken]?]

end Pliron.LLVM
