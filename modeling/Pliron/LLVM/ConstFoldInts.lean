/-
  Pliron.LLVM.ConstFoldInts

  What folding gives for operands that are not poison: two integers, or an absorbing one.
-/

import Pliron.Utils.APIntSpec
import Pliron.LLVM.ConstFold
import Pliron.LLVM.IntSemantics

namespace Pliron.LLVM

open LLVMInt (Outcome UFits SFits)

variable {F : Type} {w v : Nat}

/-! ## Operands that are not poison -/

/-- An integer constant of an integer type. -/
def intAttr (int : IntegerType) (hw : 0 < int.width) (x : BitVec int.width) : Attr F :=
  .integer ⟨int, ⟨int.width, x, hw⟩⟩

@[simp] theorem lane_intAttr {int : IntegerType} (hw : 0 < int.width) (x : BitVec int.width)
    (val : LLVMInt.Value int.width) : (intAttr int hw x : Attr F).Lane val ↔ val = .int x :=
  ⟨fun ⟨_, h⟩ => h, fun h => ⟨rfl, h⟩⟩

/-- What may be known of an operand of this type that is not known to be poison. -/
inductive Entry (ty : Ty) : Option (Attr F) → Prop where
  | unknown : Entry ty none
  | undef : Entry ty (some (.undef ty))
  | int (int : IntegerType) (hw : 0 < int.width) (x : BitVec int.width) (h : ty = .integer int) :
      Entry ty (some (intAttr int hw x))

theorem entry_forgetPoison {ty : Ty} {known : Option (Attr F)}
    (h : ∀ c ∈ known, c.OfType ty) : Entry ty (forgetPoison known) := by
  cases known with
  | none => exact .unknown
  | some c =>
      have hc := h c rfl
      cases c with
      | integer attr =>
          obtain ⟨int, bw, value, pos⟩ := attr
          obtain ⟨hty, hbw⟩ := hc
          simp only at hty hbw
          subst hbw
          exact .int int pos value hty
      | undef ty' =>
          have hty : ty' = ty := hc
          subst hty
          exact .undef
      | poison ty' => exact .unknown
      | float value => exact hc.elim
      | aggregate elements ty' => exact hc.elim
      | splat element elemType n kind => exact hc.elim
      | other name ty' => exact hc.elim

/-- Only a scalar has an integer constant. -/
theorem Entry.eq_of_not_integer {ty : Ty} {known : Option (Attr F)} (h : Entry ty known)
    (hty : ∀ int, ty ≠ .integer int) : known = none ∨ known = some (.undef ty) := by
  cases h with
  | unknown => exact Or.inl rfl
  | undef => exact Or.inr rfl
  | int int hw x h => exact (hty int h).elim

/-- Forgetting poison loses nothing but knowledge. -/
theorem Lanes.forgetPoison {ops : Known F} {vals : List (LLVMInt.Value w)} (h : Lanes ops vals) :
    Lanes (ops.map forgetPoison) vals := by
  unfold Lanes at h ⊢
  rw [List.forall₂_map_left_iff]
  apply h.imp
  intro known val hval c hc
  unfold LLVM.forgetPoison at hc
  split at hc
  · exact absurd hc (by simp)
  · exact hval c hc

theorem Lanes.poison_mem {ops : Known F} {vals : List (LLVMInt.Value w)} (h : Lanes ops vals)
    (hpoison : ops.any isPoisonOperand = true) : .poison ∈ vals := by
  unfold Lanes at h
  induction h with
  | nil => exact absurd hpoison (by simp)
  | @cons known val ops vals hval _ ih =>
      rw [List.any_cons, Bool.or_eq_true] at hpoison
      rw [List.mem_cons]
      apply hpoison.imp
      · intro hknown
        cases known with
        | none => exact absurd hknown (by simp [isPoisonOperand])
        | some c =>
            cases c with
            | poison ty => exact (hval _ rfl).symm
            | integer _ | float _ | undef _ | aggregate _ _ | splat _ _ _ _ | other _ _ =>
                exact absurd hknown (by simp [isPoisonOperand, Attr.isPoison])
      · exact ih

/-! ## Folding two integers -/

/-- The fold gives nothing, or an integer that is good. -/
def GivesInt (res : Option (Known F)) (int : IntegerType) (hw : 0 < int.width)
    (good : BitVec int.width → Prop) : Prop :=
  res = some [none] ∨ ∃ z, res = some [some (intAttr int hw z)] ∧ good z

variable {A : Awint} (hA : A.Documented) {int : IntegerType} (hw : 0 < int.width)
  (x y : BitVec int.width)

/-- Two integer constants. -/
def intOps : Known F := [some (intAttr int hw x), some (intAttr int hw y)]

/-- The integer of a constant. -/
def apInt : APInt := ⟨int.width, x, hw⟩

theorem getIntBinOperands_intOps : getIntBinOperands (intOps hw x y : Known F) =
    some (some (⟨int, apInt hw x⟩, ⟨int, apInt hw y⟩)) := rfl

theorem checkFoldIntBinOp_intOps {combine : APInt → APInt → Option APInt} {z : BitVec int.width}
    (h : combine (apInt hw x) (apInt hw y) = some (apInt hw z)) :
    checkFoldIntBinOp (intOps hw x y : Known F) combine = some [some (intAttr int hw z)] := by
  simp only [checkFoldIntBinOp, getIntBinOperands_intOps, Option.bind_eq_bind, Option.bind_some, h]
  rfl

theorem checkFoldIntBinOpWithOverflow_intOps {combine : APInt → APInt → Option (APInt × Bool × Bool)}
    {flags : IntegerOverflowFlagsAttr} {u s : Int}
    (h : combine (apInt hw x) (apInt hw y) = some (APInt.exact hw u s)) :
    GivesInt (checkFoldIntBinOpWithOverflow (intOps hw x y : Known F) flags combine) int hw
      (fun z => (LLVMInt.overflowing flags.nsw flags.nuw u s).RefinedBy (.int z)) := by
  have hflags : ((flags.nsw && decide (¬ SFits int.width s)) ||
      (flags.nuw && decide (¬ UFits int.width u))) = true ↔
        (flags.nsw = true ∧ ¬ SFits int.width s) ∨ (flags.nuw = true ∧ ¬ UFits int.width u) := by
    rw [Bool.or_eq_true, Bool.and_eq_true, Bool.and_eq_true, decide_eq_true_eq, decide_eq_true_eq]
  simp only [checkFoldIntBinOpWithOverflow, getIntBinOperands_intOps, Option.bind_eq_bind,
    Option.bind_some, h, APInt.exact, hflags, LLVMInt.overflowing]
  by_cases hover : (flags.nsw = true ∧ ¬ SFits int.width s) ∨
      (flags.nuw = true ∧ ¬ UFits int.width u)
  · exact Or.inl (if_pos hover)
  · rw [if_neg hover, if_neg hover]
    exact Or.inr ⟨_, rfl, rfl⟩

/-- A division is folded unless it is undefined behaviour. -/
theorem checkFoldDivision_intOps {isUb : APInt → APInt → Bool}
    {combine : APInt → APInt → Option APInt} {z : BitVec int.width}
    (hub : isUb (apInt hw x) (apInt hw y) = false → combine (apInt hw x) (apInt hw y) =
      some (apInt hw z))
    {outcome : Outcome int.width} (hrefine : outcome.RefinedBy (.int z)) :
    GivesInt (checkFoldDivision (intOps hw x y : Known F) isUb combine) int hw
      (fun z => outcome.RefinedBy (.int z)) := by
  simp only [checkFoldDivision, getIntBinOperands_intOps, Option.bind_eq_bind, Option.bind_some]
  by_cases h : isUb (apInt hw x) (apInt hw y) = true
  · exact Or.inl (if_pos h)
  · rw [if_neg h, checkFoldIntBinOp_intOps hw x y (hub (by simpa using h))]
    exact Or.inr ⟨z, rfl, hrefine⟩

theorem width_lt (int : IntegerType) : int.width < 2 ^ 64 := by
  have h := int.lt
  omega

/-- A fold that is the exact result is good. -/
theorem givesInt_checkFoldIntBinOp {combine : APInt → APInt → Option APInt}
    {z : BitVec int.width} {outcome : Outcome int.width}
    (h : combine (apInt hw x) (apInt hw y) = some (apInt hw z))
    (hrefine : outcome.RefinedBy (.int z)) :
    GivesInt (checkFoldIntBinOp (intOps hw x y : Known F) combine) int hw
      (fun z => outcome.RefinedBy (.int z)) := by
  rw [checkFoldIntBinOp_intOps hw x y h]
  exact Or.inr ⟨z, rfl, hrefine⟩

include hA

/-- A shift is folded if the amount is below the bit width. -/
theorem checkFoldShift_intOps (fold : Known F → Option (Known F)) :
    checkFoldShift A (intOps hw x y) fold =
      if y.toNat < int.width then fold (intOps hw x y) else some [none] := by
  have hbw : (BitVec.ofNat int.width int.width).toNat = int.width := by
    rw [BitVec.toNat_ofNat, Nat.mod_eq_of_lt Nat.lt_two_pow_self]
  have hult : (apInt hw y).ult A (APInt.fromUsize A int.width int.width hw) =
      some (decide (y.toNat < int.width)) := by
    show APInt.sameBw (apInt hw y) ⟨int.width, A.usize int.width int.width, hw⟩ _ = _
    rw [apInt, APInt.sameBw_mk, hA.ult, hA.usize, hbw]
  simp only [checkFoldShift, getIntBinOperands_intOps, Option.bind_eq_bind, Option.bind_some]
  show (APInt.ult A (apInt hw y) (APInt.fromUsize A int.width int.width hw)).bind _ = _
  rw [hult, Option.bind_some]
  simp only [decide_eq_true_eq]

/-- The shift of an integer is folded as `fold` does if the amount is below the bit width, and
    nothing is known of a shift that is poison. -/
theorem checkFoldShift_givesInt {fold : Known F → Option (Known F)} {outcome : Outcome int.width}
    (hfold : y.toNat < int.width → GivesInt (fold (intOps hw x y)) int hw
      (fun z => outcome.RefinedBy (.int z))) :
    GivesInt (checkFoldShift A (intOps hw x y) fold) int hw
      (fun z => outcome.RefinedBy (.int z)) := by
  rw [checkFoldShift_intOps hA]
  by_cases hy : y.toNat < int.width
  · rw [if_pos hy]
    exact hfold hy
  · rw [if_neg hy]
    exact Or.inl rfl

theorem shl_intOps (flags : IntegerOverflowFlagsAttr) :
    GivesInt ((IntBinOp.shl flags).checkFold A (intOps hw x y : Known F)) int hw
      (fun z => (LLVMInt.shl flags.nsw flags.nuw x y).RefinedBy (.int z)) := by
  rw [IntBinOp.checkFold]
  apply checkFoldShift_givesInt hA hw x y
  intro hy
  have hspec := APInt.shlOverflow_spec hA hw x y hy (width_lt int)
  push_cast at hspec
  rw [LLVMInt.shl, if_pos hy]
  exact checkFoldIntBinOpWithOverflow_intOps hw x y hspec

theorem lshr_intOps :
    GivesInt (IntBinOp.lshr.checkFold A (intOps hw x y : Known F)) int hw
      (fun z => (LLVMInt.lshr x y).RefinedBy (.int z)) := by
  rw [IntBinOp.checkFold]
  apply checkFoldShift_givesInt hA hw x y
  intro hy
  rw [LLVMInt.lshr, if_pos hy]
  exact givesInt_checkFoldIntBinOp hw x y (APInt.lshr_spec hA hw x y hy (width_lt int)) rfl

theorem ashr_intOps :
    GivesInt (IntBinOp.ashr.checkFold A (intOps hw x y : Known F)) int hw
      (fun z => (LLVMInt.ashr x y).RefinedBy (.int z)) := by
  rw [IntBinOp.checkFold]
  apply checkFoldShift_givesInt hA hw x y
  intro hy
  rw [LLVMInt.ashr, if_pos hy]
  exact givesInt_checkFoldIntBinOp hw x y (APInt.ashr_spec hA hw x y hy (width_lt int)) rfl

theorem isZero_apInt : (apInt hw y).isZero A = decide (y = 0) := hA.isZero y

theorem udiv_intOps :
    GivesInt (IntBinOp.udiv.checkFold A (intOps hw x y : Known F)) int hw
      (fun z => (LLVMInt.udiv x y).RefinedBy (.int z)) := by
  rw [IntBinOp.checkFold]
  apply checkFoldDivision_intOps hw x y (z := BitVec.ofNat int.width (x.toNat / y.toNat))
  · intro hub
    rw [isZero_apInt hA, decide_eq_false_iff_not] at hub
    exact APInt.udiv_spec hA hw x y hub
  · unfold LLVMInt.udiv
    split
    · trivial
    · rfl

theorem urem_intOps :
    GivesInt (IntBinOp.urem.checkFold A (intOps hw x y : Known F)) int hw
      (fun z => (LLVMInt.urem x y).RefinedBy (.int z)) := by
  rw [IntBinOp.checkFold]
  apply checkFoldDivision_intOps hw x y (z := BitVec.ofNat int.width (x.toNat % y.toNat))
  · intro hub
    rw [isZero_apInt hA, decide_eq_false_iff_not] at hub
    exact APInt.urem_spec hA hw x y hub
  · unfold LLVMInt.urem
    split
    · trivial
    · rfl

theorem ne_zero_of_not_isSignedDivUb (h : isSignedDivUb A (apInt hw x) (apInt hw y) = false) :
    y ≠ 0 := by
  rw [isSignedDivUb, Bool.or_eq_false_iff, isZero_apInt hA, decide_eq_false_iff_not] at h
  exact h.1

theorem sdiv_intOps :
    GivesInt (IntBinOp.sdiv.checkFold A (intOps hw x y : Known F)) int hw
      (fun z => (LLVMInt.sdiv x y).RefinedBy (.int z)) := by
  rw [IntBinOp.checkFold]
  apply checkFoldDivision_intOps hw x y (z := BitVec.ofInt int.width (x.toInt.tdiv y.toInt))
  · intro hub
    exact APInt.sdiv_spec hA hw x y (ne_zero_of_not_isSignedDivUb hA hw x y hub)
  · unfold LLVMInt.sdiv
    split
    · trivial
    · rfl

theorem srem_intOps :
    GivesInt (IntBinOp.srem.checkFold A (intOps hw x y : Known F)) int hw
      (fun z => (LLVMInt.srem x y).RefinedBy (.int z)) := by
  rw [IntBinOp.checkFold]
  apply checkFoldDivision_intOps hw x y (z := BitVec.ofInt int.width (x.toInt.tmod y.toInt))
  · intro hub
    exact APInt.srem_spec hA hw x y (ne_zero_of_not_isSignedDivUb hA hw x y hub)
  · unfold LLVMInt.srem
    split
    · trivial
    · rfl

/-! ## Absorbing integers -/

omit hA

/-- Without two integers, an operation without an absorbing integer gives nothing. -/
theorem checkFoldIntBinOp_none {ops : Known F} {combine : APInt → APInt → Option APInt}
    (h : getIntBinOperands ops = some none) : checkFoldIntBinOp ops combine = some [none] := by
  rw [checkFoldIntBinOp, h]
  rfl

theorem absorbingOperand_int {absorbing : APInt → APInt} {e : BitVec int.width}
    (habsorbing : ∀ x : BitVec int.width, absorbing (apInt hw x) = apInt hw e) (ops : Known F) :
    absorbingOperand absorbing (some (intAttr int hw x) :: ops) =
      if x = e then some [some (intAttr int hw e)] else absorbingOperand absorbing ops := by
  have hval : apInt hw x = absorbing (apInt hw x) ↔ x = e := by
    rw [habsorbing]
    exact APInt.mk_eq_mk_iff hw
  show (if apInt hw x = absorbing (apInt hw x) then
      some [some (Attr.integer ⟨int, absorbing (apInt hw x)⟩)] else _) = _
  rw [habsorbing]
  rw [habsorbing] at hval
  simp only [hval]
  rfl

/-- An absorbing integer is the result; otherwise only two integers are folded. -/
theorem checkFoldAbsorbing_givesInt {a b : Option (Attr F)} (ha : Entry (.integer int) a)
    (hb : Entry (.integer int) b) {absorbing : APInt → APInt}
    {combine : APInt → APInt → Option APInt} {e : BitVec int.width}
    (habsorbing : ∀ x : BitVec int.width, absorbing (apInt hw x) = apInt hw e)
    {f : BitVec int.width → BitVec int.width → BitVec int.width}
    (hcombine : ∀ x y, combine (apInt hw x) (apInt hw y) = some (apInt hw (f x y)))
    (hleft : ∀ y, f e y = e) (hright : ∀ x, f x e = e) :
    GivesInt (checkFoldAbsorbing [a, b] absorbing combine) int hw (fun z =>
      ∀ x y : LLVMInt.Value int.width, Lanes [a, b] [x, y] →
        (LLVMInt.binary (fun x y => .value (.int (f x y))) x y).RefinedBy (.int z)) := by
  -- the absorbing constant decides on its own, unless the other lane is poison
  have hgoodLeft : ∀ x y : LLVMInt.Value int.width, Lanes [some (intAttr int hw e), b] [x, y] →
      (LLVMInt.binary (fun x y => .value (.int (f x y))) x y).RefinedBy (.int e) := by
    intro x y hlanes
    obtain ⟨hx, -⟩ := List.forall₂_cons.mp hlanes
    rw [(lane_intAttr hw e x).mp (hx _ rfl)]
    cases y with
    | poison => trivial
    | int y => exact congrArg LLVMInt.Value.int (hleft y).symm
  have hgoodRight : ∀ x y : LLVMInt.Value int.width, Lanes [a, some (intAttr int hw e)] [x, y] →
      (LLVMInt.binary (fun x y => .value (.int (f x y))) x y).RefinedBy (.int e) := by
    intro x y hlanes
    obtain ⟨-, hys⟩ := List.forall₂_cons.mp hlanes
    obtain ⟨hy, -⟩ := List.forall₂_cons.mp hys
    rw [(lane_intAttr hw e y).mp (hy _ rfl)]
    cases x with
    | poison => trivial
    | int x => exact congrArg LLVMInt.Value.int (hright x).symm
  have hlength : [a, b].length = 2 := rfl
  rw [checkFoldAbsorbing, if_pos hlength]
  cases ha with
  | undef => exact Or.inl rfl
  | unknown =>
      cases hb with
      | undef => exact Or.inl rfl
      | unknown => exact Or.inl rfl
      | int int' hw' y h =>
          cases h
          rw [absorbingOperand, absorbingOperand_int hw' y habsorbing]
          -- an unknown operand folds only against the absorbing constant
          by_cases hy : y = e
          · subst hy
            rw [if_pos rfl]
            exact Or.inr ⟨y, rfl, hgoodRight⟩
          · rw [if_neg hy]
            exact Or.inl rfl
  | int int' hw' x h =>
      cases h
      rw [absorbingOperand_int hw' x habsorbing]
      by_cases hx : x = e
      · subst hx
        rw [if_pos rfl]
        exact Or.inr ⟨x, rfl, hgoodLeft⟩
      · rw [if_neg hx]
        cases hb with
        | undef => exact Or.inl rfl
        | unknown => exact Or.inl rfl
        | int int' hw' y h =>
            cases h
            rw [absorbingOperand_int hw' y habsorbing]
            by_cases hy : y = e
            · subst hy
              rw [if_pos rfl]
              exact Or.inr ⟨y, rfl, hgoodRight⟩
            · -- neither is absorbing, so both are combined
              rw [if_neg hy]
              have hfold := checkFoldIntBinOp_intOps (F := F) hw x y (hcombine x y)
              refine Or.inr ⟨f x y, hfold, ?_⟩
              intro x' y' hlanes
              obtain ⟨hx', hys⟩ := List.forall₂_cons.mp hlanes
              obtain ⟨hy', -⟩ := List.forall₂_cons.mp hys
              rw [(lane_intAttr hw x x').mp (hx' _ rfl), (lane_intAttr hw y y').mp (hy' _ rfl)]
              rfl

end Pliron.LLVM
