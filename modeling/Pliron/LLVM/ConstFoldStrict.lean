/-
  Pliron.LLVM.ConstFoldStrict

  Folding when less is known of the operands, and the folds that then give nothing.
-/

import Pliron.LLVM.ConstFold

namespace Pliron.LLVM

variable {F : Type}

/-! ## Knowing less -/

/-- The second list is the first with some constants forgotten. -/
def Forgets (ops ops' : Known F) : Prop :=
  List.Forall₂ (fun known known' => known' = none ∨ known' = known) ops ops'

theorem Forgets.refl (ops : Known F) : Forgets ops ops :=
  List.forall₂_same.mpr fun _ _ => Or.inr rfl

theorem Forgets.length_eq {ops ops' : Known F} (h : Forgets ops ops') :
    ops'.length = ops.length :=
  (List.Forall₂.length_eq h).symm

/-- Something is forgotten, or nothing is. -/
theorem Forgets.eq_or_mem {ops ops' : Known F} (h : Forgets ops ops') :
    ops' = ops ∨ none ∈ ops' := by
  unfold Forgets at h
  induction h with
  | nil => exact Or.inl rfl
  | @cons known known' ops ops' hknown _ ih =>
      obtain rfl | rfl := hknown
      · exact Or.inr List.mem_cons_self
      · apply ih.imp
        · intro heq
          rw [heq]
        · exact List.mem_cons_of_mem _

theorem Forgets.any_isPoisonOperand {ops ops' : Known F} (h : Forgets ops ops')
    (hpoison : ops'.any isPoisonOperand = true) : ops.any isPoisonOperand = true := by
  unfold Forgets at h
  induction h with
  | nil => exact hpoison
  | @cons known known' ops ops' hknown _ ih =>
      rw [List.any_cons, Bool.or_eq_true] at hpoison ⊢
      obtain hhead | htail := hpoison
      · obtain rfl | rfl := hknown
        · exact absurd hhead (by simp [isPoisonOperand])
        · exact Or.inl hhead
      · exact Or.inr (ih htail)

theorem forgets_none (r : Option (Attr F)) : Forgets [r] [none] :=
  List.Forall₂.cons (Or.inl rfl) List.Forall₂.nil

theorem forgets_pair {a b : Option (Attr F)} {ops' : Known F} (h : Forgets [a, b] ops') :
    ops' = [a, b] ∨ ops' = [none, b] ∨ ops' = [a, none] ∨ ops' = [none, none] := by
  obtain ⟨a', as, ha, has, rfl⟩ := List.forall₂_cons_left_iff.mp h
  obtain ⟨b', bs, hb, hbs, rfl⟩ := List.forall₂_cons_left_iff.mp has
  obtain rfl := List.forall₂_nil_left_iff.mp hbs
  obtain rfl | rfl := ha
  · obtain rfl | rfl := hb
    · simp
    · simp
  · obtain rfl | rfl := hb
    · simp
    · simp

/-- Whatever is forgotten of these operands, the fold forgets results or gives the same. -/
def MonotoneAt (fold : Known F → Option (Known F)) (ops : Known F) : Prop :=
  ∀ ops' rs, Forgets ops ops' → fold ops = some rs →
    ∃ rs', fold ops' = some rs' ∧ Forgets rs rs'

/-! ## Strict folds -/

/-- A fold has one result. -/
def Single (res : Option (Known F)) : Prop := ∀ rs, res = some rs → ∃ r, rs = [r]

theorem single_some (r : Option (Attr F)) : Single (some [r]) :=
  fun _ h => ⟨r, (Option.some.inj h).symm⟩

theorem single_none : Single (none : Option (Known F)) := nofun

theorem single_bind {β : Type} {o : Option β} {f : β → Option (Known F)}
    (h : ∀ x, Single (f x)) : Single (o.bind f) := by
  intro rs hrs
  obtain ⟨x, -, hx⟩ := Option.bind_eq_some_iff.mp hrs
  exact h x rs hx

theorem single_ite {c : Prop} [Decidable c] {res res' : Option (Known F)} (h : Single res)
    (h' : Single res') : Single (if c then res else res') := by
  split
  · exact h
  · exact h'

/-- A fold of `n` operands that gives nothing unless all are known. -/
structure Strict (n : Nat) (fold : Known F → Option (Known F)) : Prop where
  single : ∀ ops, Single (fold ops)
  fold_none : ∀ ops : Known F, ops.length = n → none ∈ ops → fold ops = some [none]

theorem Strict.monotoneAt {n : Nat} {fold : Known F → Option (Known F)} (hfold : Strict n fold)
    {ops : Known F} (hlength : ops.length = n) : MonotoneAt fold ops := by
  intro ops' rs hforgets hrs
  obtain rfl | hmem := hforgets.eq_or_mem
  · exact ⟨rs, hrs, .refl rs⟩
  · obtain ⟨r, rfl⟩ := hfold.single ops rs hrs
    exact ⟨[none], hfold.fold_none ops' (hforgets.length_eq.trans hlength) hmem, forgets_none r⟩

/-- Without a poison operand the wrapper only folds. -/
theorem checkFoldPoisonPropagatingOp_of_not_any {tys : List Ty} {ops : Known F}
    (h : ¬ ops.any isPoisonOperand = true) (fold : Known F → Option (Known F)) :
    checkFoldPoisonPropagatingOp tys ops fold = fold ops :=
  if_neg h

/-- A strict fold of a poison operand is poison. -/
theorem Strict.checkFold_of_any {n : Nat} {fold : Known F → Option (Known F)}
    (hfold : Strict n fold) {ops : Known F} (hlength : ops.length = n)
    (h : ops.any isPoisonOperand = true) (ty : Ty) :
    checkFoldPoisonPropagatingOp [ty] ops fold = some [some (.poison ty)] := by
  obtain ⟨attr, hmem, hattr⟩ := List.any_eq_true.mp h
  have hnone : none ∈ ops.map (fun attr => if isPoisonOperand attr then none else attr) := by
    apply List.mem_map.mpr
    exact ⟨attr, hmem, if_pos hattr⟩
  rw [checkFoldPoisonPropagatingOp, if_pos h]
  simp only [hfold.fold_none _ ((List.length_map _).trans hlength) hnone, Option.bind_eq_bind,
    Option.bind_some]
  rfl

/-- The wrapper keeps a strict fold monotone. -/
theorem Strict.monotoneAt_poison {n : Nat} {fold : Known F → Option (Known F)}
    (hfold : Strict n fold) {ops : Known F} (hlength : ops.length = n) (ty : Ty) :
    MonotoneAt (fun ops => checkFoldPoisonPropagatingOp [ty] ops fold) ops := by
  intro ops' rs hforgets hrs
  have hlength' : ops'.length = n := hforgets.length_eq.trans hlength
  by_cases hany' : ops'.any isPoisonOperand = true
  · have hpoison := hfold.checkFold_of_any hlength (hforgets.any_isPoisonOperand hany') ty
    obtain rfl := Option.some.inj (hpoison.symm.trans hrs)
    exact ⟨_, hfold.checkFold_of_any hlength' hany' ty, .refl _⟩
  · simp only [checkFoldPoisonPropagatingOp_of_not_any hany']
    by_cases hany : ops.any isPoisonOperand = true
    · have hpoison := hfold.checkFold_of_any hlength hany ty
      obtain rfl := Option.some.inj (hpoison.symm.trans hrs)
      obtain rfl | hmem := hforgets.eq_or_mem
      · exact absurd hany hany'
      · exact ⟨[none], hfold.fold_none ops' hlength' hmem, forgets_none _⟩
    · simp only [checkFoldPoisonPropagatingOp_of_not_any hany] at hrs
      exact hfold.monotoneAt hlength ops' rs hforgets hrs

/-! ## The strict folds -/

theorem eq_of_length_one {ops : Known F} (hlength : ops.length = 1) (hmem : none ∈ ops) :
    ops = [none] := by
  obtain ⟨a, rfl⟩ := List.length_eq_one_iff.mp hlength
  rw [List.mem_singleton.mp hmem]

theorem eq_of_length_two {ops : Known F} (hlength : ops.length = 2) (hmem : none ∈ ops) :
    ∃ a, ops = [none, a] ∨ ops = [a, none] := by
  obtain ⟨a, b, rfl⟩ := List.length_eq_two.mp hlength
  obtain h | h : none = a ∨ none = b := by simpa using hmem
  · exact ⟨b, Or.inl (by rw [h])⟩
  · exact ⟨a, Or.inr (by rw [h])⟩

theorem eq_of_length_three {ops : Known F} (hlength : ops.length = 3) (hmem : none ∈ ops) :
    ∃ a b, ops = [none, a, b] ∨ ops = [a, none, b] ∨ ops = [a, b, none] := by
  obtain ⟨a, b, c, rfl⟩ := List.length_eq_three.mp hlength
  obtain h | h | h : none = a ∨ none = b ∨ none = c := by simpa using hmem
  · exact ⟨b, c, Or.inl (by rw [h])⟩
  · exact ⟨a, c, Or.inr (Or.inl (by rw [h]))⟩
  · exact ⟨a, b, Or.inr (Or.inr (by rw [h]))⟩

theorem getIntBinOperands_of_mem {ops : Known F} (hlength : ops.length = 2) (hmem : none ∈ ops) :
    getIntBinOperands ops = some none := by
  obtain ⟨a, rfl | rfl⟩ := eq_of_length_two hlength hmem
  · rfl
  · cases a with
    | none => rfl
    | some c => cases c <;> rfl

theorem getFloatBinOperands_of_mem {ops : Known F} (hlength : ops.length = 2)
    (hmem : none ∈ ops) : getFloatBinOperands ops = some none := by
  obtain ⟨a, rfl | rfl⟩ := eq_of_length_two hlength hmem
  · rfl
  · cases a with
    | none => rfl
    | some c => cases c <;> rfl

variable (A : Awint)

theorem single_checkFoldIntBinOp (ops : Known F) (combine : APInt → APInt → Option APInt) :
    Single (checkFoldIntBinOp ops combine) := by
  apply single_bind
  intro operands
  cases operands with
  | none => exact single_some none
  | some operands => exact single_bind fun res => single_some _

theorem strict_checkFoldIntBinOp (combine : APInt → APInt → Option APInt) :
    Strict 2 (fun ops : Known F => checkFoldIntBinOp ops combine) where
  single := fun ops => single_checkFoldIntBinOp ops combine
  fold_none := by
    intro ops hlength hmem
    simp only [checkFoldIntBinOp, getIntBinOperands_of_mem hlength hmem, Option.bind_eq_bind,
      Option.bind_some]

theorem strict_checkFoldIntBinOpWithOverflow (flags : IntegerOverflowFlagsAttr)
    (combine : APInt → APInt → Option (APInt × Bool × Bool)) :
    Strict 2 (fun ops : Known F => checkFoldIntBinOpWithOverflow ops flags combine) where
  single := by
    intro ops
    apply single_bind
    intro operands
    cases operands with
    | none => exact single_some none
    | some operands =>
        exact single_bind fun res => single_ite (single_some none) (single_some _)
  fold_none := by
    intro ops hlength hmem
    simp only [checkFoldIntBinOpWithOverflow, getIntBinOperands_of_mem hlength hmem,
      Option.bind_eq_bind, Option.bind_some]

theorem strict_checkFoldShift {fold : Known F → Option (Known F)} (hfold : Strict 2 fold) :
    Strict 2 (fun ops => checkFoldShift A ops fold) where
  single := by
    intro ops
    apply single_bind
    intro operands
    cases operands with
    | none => exact single_some none
    | some operands =>
        exact single_bind fun below => single_ite (hfold.single ops) (single_some none)
  fold_none := by
    intro ops hlength hmem
    simp only [checkFoldShift, getIntBinOperands_of_mem hlength hmem, Option.bind_eq_bind,
      Option.bind_some]

theorem strict_checkFoldDivision (isUb : APInt → APInt → Bool)
    (combine : APInt → APInt → Option APInt) :
    Strict 2 (fun ops : Known F => checkFoldDivision ops isUb combine) where
  single := by
    intro ops
    apply single_bind
    intro operands
    cases operands with
    | none => exact single_checkFoldIntBinOp ops combine
    | some operands => exact single_ite (single_some none) (single_checkFoldIntBinOp ops combine)
  fold_none := by
    intro ops hlength hmem
    simp only [checkFoldDivision, getIntBinOperands_of_mem hlength hmem, Option.bind_eq_bind,
      Option.bind_some]
    exact (strict_checkFoldIntBinOp combine).fold_none ops hlength hmem

/-- Every integer operation but `and` and `or` wants both operands. -/
theorem IntBinOp.strict (op : IntBinOp) (hand : op ≠ .and) (hor : op ≠ .or) :
    Strict 2 (op.checkFold (F := F) A) := by
  cases op with
  | add flags => exact strict_checkFoldIntBinOpWithOverflow flags (APInt.addOverflow A)
  | sub flags => exact strict_checkFoldIntBinOpWithOverflow flags (APInt.subOverflow A)
  | mul flags => exact strict_checkFoldIntBinOpWithOverflow flags (APInt.mulOverflow A)
  | shl flags =>
      exact strict_checkFoldShift A
        (strict_checkFoldIntBinOpWithOverflow flags (APInt.shlOverflow A))
  | udiv => exact strict_checkFoldDivision (fun _ rhs => rhs.isZero A) (APInt.udiv A)
  | sdiv => exact strict_checkFoldDivision (isSignedDivUb A) (APInt.sdiv A)
  | urem => exact strict_checkFoldDivision (fun _ rhs => rhs.isZero A) (APInt.urem A)
  | srem => exact strict_checkFoldDivision (isSignedDivUb A) (APInt.srem A)
  | xor => exact strict_checkFoldIntBinOp (APInt.xor A)
  | lshr => exact strict_checkFoldShift A (strict_checkFoldIntBinOp (APInt.lshr A))
  | ashr => exact strict_checkFoldShift A (strict_checkFoldIntBinOp (APInt.ashr A))
  | and => exact absurd rfl hand
  | or => exact absurd rfl hor

theorem strict_checkFoldICmp (pred : ICmpPredicateAttr) :
    Strict 2 (checkFoldICmp (F := F) A pred) where
  single := by
    intro ops
    apply single_bind
    intro operands
    cases operands with
    | none => exact single_some none
    | some operands => exact single_bind fun result => single_some _
  fold_none := by
    intro ops hlength hmem
    simp only [checkFoldICmp, getIntBinOperands_of_mem hlength hmem, Option.bind_eq_bind,
      Option.bind_some]

theorem single_checkFoldIntCast (ops : Known F) (resTy : Ty)
    (resize : APInt → (width : Nat) → 0 < width → Option APInt) :
    Single (checkFoldIntCast ops resTy resize) := by
  unfold checkFoldIntCast
  split
  · apply single_bind
    intro dest
    cases dest with
    | none => exact single_some none
    | some dest => exact single_bind fun res => single_some _
  · exact single_some none
  · exact single_none

theorem IntCastOp.strict (op : IntCastOp) (resTy : Ty) :
    Strict 1 (op.checkFold (F := F) A resTy) where
  single := by
    intro ops
    cases op with
    | sext =>
        exact single_checkFoldIntCast ops resTy (fun int width pos => some (int.sext A width pos))
    | zext nneg => exact single_ite (single_some none) (single_checkFoldIntCast ops resTy _)
    | trunc =>
        exact single_checkFoldIntCast ops resTy (fun int width pos => int.trunc A width pos)
  fold_none := by
    intro ops hlength hmem
    rw [eq_of_length_one hlength hmem]
    cases op with
    | sext | trunc => rfl
    | zext nneg => cases nneg <;> rfl

theorem strict_checkFoldShuffleVector (mask : List Int) (resultTy : Ty) :
    Strict 2 (checkFoldShuffleVector (F := F) mask resultTy) where
  single := by
    intro ops
    unfold checkFoldShuffleVector
    split
    · exact single_bind fun res => single_some _
    · exact single_some none
    · exact single_none
  fold_none := by
    intro ops hlength hmem
    obtain ⟨a, rfl | rfl⟩ := eq_of_length_two hlength hmem
    · rfl
    · cases a <;> rfl

theorem strict_checkFoldExtractElement : Strict 2 (checkFoldExtractElement (F := F) A) where
  single := by
    intro ops
    unfold checkFoldExtractElement
    split
    · split
      · exact single_some none
      · split
        · exact single_some none
        · exact single_bind fun element => single_some _
    · exact single_some none
    · exact single_none
  fold_none := by
    intro ops hlength hmem
    obtain ⟨a, rfl | rfl⟩ := eq_of_length_two hlength hmem
    · rfl
    · cases a <;> rfl

theorem strict_checkFoldInsertElement : Strict 3 (checkFoldInsertElement (F := F) A) where
  single := by
    intro ops
    unfold checkFoldInsertElement
    split
    · split
      · split
        · apply single_bind
          intro elements
          cases elements with
          | none => exact single_some none
          | some elements =>
              dsimp only
              split
              · exact single_some none
              · exact single_some _
        · exact single_some none
      · exact single_none
    · exact single_some none
    · exact single_none
  fold_none := by
    intro ops hlength hmem
    obtain ⟨a, b, rfl | rfl | rfl⟩ := eq_of_length_three hlength hmem
    · rfl
    · cases a <;> rfl
    · cases a <;> cases b <;> rfl

theorem strict_checkFoldExtractValue (indices : List Nat) :
    Strict 1 (checkFoldExtractValue (F := F) indices) where
  single := by
    intro ops
    unfold checkFoldExtractValue
    split
    · exact single_some _
    · exact single_some none
    · exact single_none
  fold_none := by
    intro ops hlength hmem
    rw [eq_of_length_one hlength hmem]
    rfl

theorem strict_checkFoldInsertValue (indices : List Nat) :
    Strict 2 (checkFoldInsertValue (F := F) indices) where
  single := by
    intro ops
    unfold checkFoldInsertValue
    split
    · exact single_ite (single_some _) single_none
    · exact single_some none
    · exact single_none
  fold_none := by
    intro ops hlength hmem
    obtain ⟨a, rfl | rfl⟩ := eq_of_length_two hlength hmem
    · rfl
    · cases a with
      | none => rfl
      | some c => cases c <;> rfl

variable (fl : APFloat F)

theorem strict_checkFoldFloatToInt (resultTy : Ty) (signed : Bool) :
    Strict 1 (checkFoldFloatToInt A fl resultTy signed) where
  single := by
    intro ops
    unfold checkFoldFloatToInt
    split
    · apply single_bind
      intro dest
      cases dest with
      | none => exact single_some none
      | some dest =>
          apply single_ite (single_some none)
          apply single_ite
          · exact single_ite (single_some none) (single_some _)
          · exact single_ite (single_some none) (single_some _)
    · exact single_some none
    · exact single_none
  fold_none := by
    intro ops hlength hmem
    rw [eq_of_length_one hlength hmem]
    rfl

theorem strict_checkFoldIntToFloat (resultTy : Ty) (signed nneg : Bool) :
    Strict 1 (checkFoldIntToFloat A fl resultTy signed nneg) where
  single := by
    intro ops
    unfold checkFoldIntToFloat
    split
    · apply single_ite (single_some none)
      split
      · exact single_some none
      · exact single_ite (single_some _) (single_some _)
    · exact single_some none
    · exact single_none
  fold_none := by
    intro ops hlength hmem
    rw [eq_of_length_one hlength hmem]
    rfl

theorem strict_checkFoldFloatCast (resultTy : Ty) (flags : FastmathFlagsAttr) :
    Strict 1 (checkFoldFloatCast fl resultTy flags) where
  single := by
    intro ops
    unfold checkFoldFloatCast
    split
    · apply single_ite
      · exact single_ite (single_some none) (single_some _)
      · exact single_some none
    · exact single_some none
    · exact single_none
  fold_none := by
    intro ops hlength hmem
    rw [eq_of_length_one hlength hmem]
    rfl

theorem strict_checkFoldFNeg (flags : FastmathFlagsAttr) : Strict 1 (checkFoldFNeg fl flags) where
  single := by
    intro ops
    unfold checkFoldFNeg
    split
    · exact single_ite (single_some none) (single_some _)
    · exact single_some none
    · exact single_none
  fold_none := by
    intro ops hlength hmem
    rw [eq_of_length_one hlength hmem]
    rfl

theorem strict_checkFoldFloatBinOp (op : FloatBinOp) (flags : FastmathFlagsAttr) :
    Strict 2 (checkFoldFloatBinOp fl op flags) where
  single := by
    intro ops
    apply single_bind
    intro operands
    cases operands with
    | none => exact single_some none
    | some operands => exact single_ite (single_some none) (single_some _)
  fold_none := by
    intro ops hlength hmem
    simp only [checkFoldFloatBinOp, getFloatBinOperands_of_mem hlength hmem, Option.bind_eq_bind,
      Option.bind_some]

theorem strict_checkFoldFCmp (pred : FCmpPredicateAttr) (flags : FastmathFlagsAttr) :
    Strict 2 (checkFoldFCmp A fl pred flags) where
  single := by
    intro ops
    apply single_bind
    intro operands
    cases operands with
    | none => exact single_some none
    | some operands => exact single_ite (single_some none) (single_some _)
  fold_none := by
    intro ops hlength hmem
    simp only [checkFoldFCmp, getFloatBinOperands_of_mem hlength hmem, Option.bind_eq_bind,
      Option.bind_some]

theorem strict_checkFoldFreeze : Strict 1 (checkFoldFreeze (F := F)) where
  single := by
    intro ops
    unfold checkFoldFreeze
    split
    · exact single_some _
    · exact single_none
  fold_none := by
    intro ops hlength hmem
    rw [eq_of_length_one hlength hmem]
    rfl

end Pliron.LLVM
