/-
  Pliron.LLVM.ConstFoldSound

  Folding an integer operation is sound: the constant refines what the operation results in.
-/

import Pliron.LLVM.ConstFoldInts

namespace Pliron.LLVM

open LLVMInt (Outcome)

variable {F : Type} {w v : Nat}
variable {A : Awint} (hA : A.Documented) {int : IntegerType} (hw : 0 < int.width)
  (x y : BitVec int.width)

/-! ## Operations on two integers -/

theorem lanes_intOps {x' y' : LLVMInt.Value int.width} :
    Lanes (intOps hw x y : Known F) [x', y'] ↔ x' = .int x ∧ y' = .int y := by
  constructor
  · intro h
    obtain ⟨hx, hys⟩ := List.forall₂_cons.mp h
    obtain ⟨hy, -⟩ := List.forall₂_cons.mp hys
    exact ⟨(lane_intAttr hw x x').mp (hx _ rfl), (lane_intAttr hw y y').mp (hy _ rfl)⟩
  · rintro ⟨rfl, rfl⟩
    apply List.Forall₂.cons
    · rintro c ⟨⟩
      exact (lane_intAttr hw x _).mpr rfl
    · apply List.Forall₂.cons _ List.Forall₂.nil
      rintro c ⟨⟩
      exact (lane_intAttr hw y _).mpr rfl

/-- Either operands are two integers, or nothing is folded. -/
theorem entries_cases {a b : Option (Attr F)} (ha : Entry (.integer int) a)
    (hb : Entry (.integer int) b) :
    getIntBinOperands [a, b] = some none ∨ ∃ x y, [a, b] = intOps hw x y := by
  cases ha with
  | unknown => exact Or.inl rfl
  | undef => exact Or.inl rfl
  | int int' hw' x h =>
      cases h
      cases hb with
      | unknown => exact Or.inl rfl
      | undef => exact Or.inl rfl
      | int int' hw' y h =>
          cases h
          exact Or.inr ⟨x, y, rfl⟩

/-- Only `and` and `or` have an absorbing integer. -/
def IntBinOp.isAbsorbing : IntBinOp → Bool
  | .and | .or => true
  | _ => false

theorem IntBinOp.checkFold_none {op : IntBinOp} (hop : op.isAbsorbing = false) {ops : Known F}
    (h : getIntBinOperands ops = some none) : op.checkFold A ops = some [none] := by
  cases op with
  | and => exact absurd hop (by decide)
  | or => exact absurd hop (by decide)
  | add flags | sub flags | mul flags =>
      rw [checkFold, checkFoldIntBinOpWithOverflow, h]
      rfl
  | shl flags => rw [checkFold, checkFoldShift, h]; rfl
  | lshr | ashr => rw [checkFold, checkFoldShift, h]; rfl
  | udiv | sdiv | urem | srem =>
      rw [checkFold, checkFoldDivision, h]
      exact checkFoldIntBinOp_none h
  | xor => exact checkFoldIntBinOp_none h

/-- Without an integer among the operands nothing is folded. -/
theorem IntBinOp.checkFold_of_not_integer (op : IntBinOp) {ty : Ty} {a b : Option (Attr F)}
    (ha : Entry ty a) (hb : Entry ty b) (hty : ∀ int, ty ≠ .integer int) :
    op.checkFold A [a, b] = some [none] := by
  obtain rfl | rfl := ha.eq_of_not_integer hty
  · obtain rfl | rfl := hb.eq_of_not_integer hty
    · cases op <;> rfl
    · cases op <;> rfl
  · cases op <;> rfl

include hA

/-- Folding two integers is sound. -/
theorem IntBinOp.checkFold_intOps {op : IntBinOp} (hop : op.isAbsorbing = false) :
    GivesInt (op.checkFold A (intOps hw x y : Known F)) int hw
      (fun z => (op.outcome (.int x) (.int y)).RefinedBy (.int z)) := by
  cases op with
  | and => exact absurd hop (by decide)
  | or => exact absurd hop (by decide)
  | add flags =>
      exact checkFoldIntBinOpWithOverflow_intOps hw x y (APInt.addOverflow_spec hA hw x y)
  | sub flags =>
      exact checkFoldIntBinOpWithOverflow_intOps hw x y (APInt.subOverflow_spec hA hw x y)
  | mul flags =>
      exact checkFoldIntBinOpWithOverflow_intOps hw x y (APInt.mulOverflow_spec hA hw x y)
  | shl flags => exact shl_intOps hA hw x y flags
  | udiv => exact udiv_intOps hA hw x y
  | sdiv => exact sdiv_intOps hA hw x y
  | urem => exact urem_intOps hA hw x y
  | srem => exact srem_intOps hA hw x y
  | lshr => exact lshr_intOps hA hw x y
  | ashr => exact ashr_intOps hA hw x y
  | xor =>
      have hxor : (apInt hw x).xor A (apInt hw y) = some (apInt hw (x ^^^ y)) := by
        rw [apInt, apInt, APInt.xor, APInt.sameBw_mk, hA.xor]
        rfl
      exact givesInt_checkFoldIntBinOp hw x y hxor rfl

/-- Folding operands that are not poison is sound. -/
theorem IntBinOp.checkFold_entries (op : IntBinOp) {a b : Option (Attr F)}
    (ha : Entry (.integer int) a) (hb : Entry (.integer int) b) :
    GivesInt (op.checkFold A [a, b]) int hw (fun z => ∀ x y : LLVMInt.Value int.width,
      Lanes [a, b] [x, y] → (op.outcome x y).RefinedBy (.int z)) := by
  cases hop : op.isAbsorbing with
  | false =>
      obtain hnone | ⟨x, y, hints⟩ := entries_cases hw ha hb
      · exact Or.inl (checkFold_none hop hnone)
      · rw [hints]
        obtain hnone | ⟨z, hfold, hz⟩ := checkFold_intOps (F := F) hA hw x y hop
        · exact Or.inl hnone
        · refine Or.inr ⟨z, hfold, ?_⟩
          intro x' y' hlanes
          obtain ⟨rfl, rfl⟩ := (lanes_intOps hw x y).mp hlanes
          exact hz
  | true =>
      cases op with
      | and =>
          apply checkFoldAbsorbing_givesInt hw ha hb (e := BitVec.ofNat int.width 0)
          · intro x
            rfl
          · intro x y
            rw [apInt, apInt, APInt.and, APInt.sameBw_mk, hA.and]
            rfl
          · exact fun y => BitVec.zero_and
          · exact fun x => BitVec.and_zero
      | or =>
          apply checkFoldAbsorbing_givesInt hw ha hb (e := BitVec.allOnes int.width)
          · intro x
            exact congrArg (apInt hw) (hA.umax int.width)
          · intro x y
            rw [apInt, apInt, APInt.or, APInt.sameBw_mk, hA.or]
            rfl
          · exact fun y => BitVec.allOnes_or
          · exact fun x => BitVec.or_allOnes
      | add _ | sub _ | mul _ | shl _ | udiv | sdiv | urem | srem | xor | lshr | ashr =>
          exact Bool.noConfusion hop

/-! ## Comparisons -/

omit hA in
theorem one_lt_pow : 1 < 2 ^ 32 := by decide

/-- The type of a folded comparison. -/
def int1 : IntegerType := { width := 1, signedness := .signless, lt := one_lt_pow }

theorem boolAttr_eq (value : Bool) :
    (boolAttr A value : Attr F) = intAttr int1 Nat.one_pos (BitVec.ofBool value) := by
  have hvalue : A.usize 1 value.toNat = BitVec.ofBool value := by
    rw [hA.usize]
    cases value <;> rfl
  show Attr.integer ⟨int1, ⟨1, A.usize 1 value.toNat, _⟩⟩ = _
  rw [hvalue]
  rfl

theorem evalICmp_spec (pred : ICmpPredicateAttr) :
    evalICmp A pred (apInt hw x) (apInt hw y) = some (pred.predicate.holds x y) := by
  have heq : apInt hw x = apInt hw y ↔ x = y := APInt.mk_eq_mk_iff hw
  have hbw : (apInt hw x).bw = (apInt hw y).bw := rfl
  unfold evalICmp
  rw [if_pos hbw]
  cases pred with
  | eq => simp only [heq, ICmpPredicateAttr.predicate, LLVMInt.Predicate.holds]
  | ne => simp only [ne_eq, heq, ICmpPredicateAttr.predicate, LLVMInt.Predicate.holds]
  | slt => exact (APInt.sameBw_mk x y hw hw _).trans (congrArg some (hA.ilt x y))
  | sle => exact (APInt.sameBw_mk x y hw hw _).trans (congrArg some (hA.ile x y))
  | sgt => exact (APInt.sameBw_mk x y hw hw _).trans (congrArg some (hA.igt x y))
  | sge => exact (APInt.sameBw_mk x y hw hw _).trans (congrArg some (hA.ige x y))
  | ult => exact (APInt.sameBw_mk x y hw hw _).trans (congrArg some (hA.ult x y))
  | ule => exact (APInt.sameBw_mk x y hw hw _).trans (congrArg some (hA.ule x y))
  | ugt => exact (APInt.sameBw_mk x y hw hw _).trans (congrArg some (hA.ugt x y))
  | uge => exact (APInt.sameBw_mk x y hw hw _).trans (congrArg some (hA.uge x y))

include hw in
/-- Folding a comparison of operands that are not poison is sound. -/
theorem checkFoldICmp_entries (pred : ICmpPredicateAttr) {a b : Option (Attr F)}
    (ha : Entry (.integer int) a) (hb : Entry (.integer int) b) :
    GivesInt (checkFoldICmp A pred [a, b]) int1 Nat.one_pos (fun z => ∀ x y : LLVMInt.Value int.width,
      Lanes [a, b] [x, y] →
        (LLVMInt.binary (LLVMInt.icmp pred.predicate) x y).RefinedBy (.int z)) := by
  obtain hnone | ⟨x, y, hints⟩ := entries_cases hw ha hb
  · rw [checkFoldICmp, hnone]
    exact Or.inl rfl
  · have hfold : checkFoldICmp A pred (intOps hw x y : Known F) =
        some [some (intAttr int1 Nat.one_pos (BitVec.ofBool (pred.predicate.holds x y)))] := by
      simp only [checkFoldICmp, getIntBinOperands_intOps, Option.bind_eq_bind, Option.bind_some,
        evalICmp_spec hA, boolAttr_eq hA]
    rw [hints]
    refine Or.inr ⟨_, hfold, ?_⟩
    intro x' y' hlanes
    obtain ⟨rfl, rfl⟩ := (lanes_intOps hw x y).mp hlanes
    rfl

omit hA in
theorem checkFoldICmp_of_not_integer (pred : ICmpPredicateAttr) {ty : Ty} {a b : Option (Attr F)}
    (ha : Entry ty a) (hty : ∀ int, ty ≠ .integer int) :
    checkFoldICmp A pred [a, b] = some [none] := by
  obtain rfl | rfl := ha.eq_of_not_integer hty
  · rfl
  · rfl

/-! ## Casts -/

omit hA in
theorem castDestToSignless_integer {res : IntegerType} (hv : 0 < res.width) :
    castDestToSignless (.integer res) = some (some ⟨res.signless, hv⟩) := by
  rw [castDestToSignless, dif_pos hv]

omit hA in
theorem checkFoldIntCast_int {res : IntegerType} (hv : 0 < res.width)
    {resize : APInt → (width : Nat) → 0 < width → Option APInt} {z : BitVec res.width}
    (hresize : resize (apInt hw x) res.width hv = some ⟨res.width, z, hv⟩) :
    checkFoldIntCast [some (intAttr int hw x : Attr F)] (.integer res) resize =
      some [some (intAttr res.signless hv z)] := by
  show (castDestToSignless (.integer res)).bind _ = _
  rw [castDestToSignless_integer hv, Option.bind_some]
  show (resize (apInt hw x) res.width hv).bind _ = _
  rw [hresize]
  rfl

/-- Folding a cast of an integer is sound; `trunc` must not widen. -/
theorem IntCastOp.checkFold_int (op : IntCastOp) {res : IntegerType} (hv : 0 < res.width)
    (hop : op = .trunc → res.width ≤ int.width) :
    GivesInt (op.checkFold A (.integer res) [some (intAttr int hw x : Attr F)]) res.signless hv
      (fun z => (op.outcome res.width (.int x)).RefinedBy (.int z)) := by
  cases op with
  | sext =>
      refine Or.inr ⟨x.signExtend res.width, ?_, rfl⟩
      rw [checkFold]
      apply checkFoldIntCast_int hw x hv
      show some (⟨res.width, (A.signResize res.width x).1, hv⟩ : APInt) = _
      rw [hA.signResize]
  | zext nneg =>
      have hneg : isNegativeOperand A [some (intAttr int hw x : Attr F)] = decide (x.toInt < 0) := by
        show A.msb x = _
        rw [hA.msb, BitVec.msb_eq_toInt]
      by_cases h : nneg = true ∧ x.toInt < 0
      · have hcond : (nneg && decide (x.toInt < 0)) = true := by simpa using h
        rw [checkFold, hneg, if_pos hcond]
        exact Or.inl rfl
      · have hcond : ¬ (nneg && decide (x.toInt < 0)) = true := by simpa using h
        rw [checkFold, hneg, if_neg hcond]
        refine Or.inr ⟨BitVec.ofNat res.width x.toNat, ?_, ?_⟩
        · apply checkFoldIntCast_int hw x hv
          show some (⟨res.width, (A.zeroResize res.width x).1, hv⟩ : APInt) = _
          rw [hA.zeroResize, BitVec.ofNat_toNat]
        · show (LLVMInt.zext res.width nneg x).RefinedBy _
          rw [LLVMInt.zext, if_neg h]
          rfl
  | trunc =>
      refine Or.inr ⟨BitVec.ofNat res.width x.toNat, ?_, rfl⟩
      rw [checkFold]
      apply checkFoldIntCast_int hw x hv
      show (if res.width ≤ int.width then some ((apInt hw x).zext A res.width hv) else none) = _
      rw [if_pos (hop rfl)]
      show some (⟨res.width, (A.zeroResize res.width x).1, hv⟩ : APInt) = _
      rw [hA.zeroResize, BitVec.ofNat_toNat]

omit hA in
theorem IntCastOp.checkFold_unknown (op : IntCastOp) (resTy : Ty) :
    op.checkFold A resTy [(none : Option (Attr F))] = some [none] := by
  cases op with
  | sext | trunc => rfl
  | zext nneg => cases nneg <;> rfl

omit hA in
theorem IntCastOp.checkFold_undef (op : IntCastOp) (resTy ty : Ty) :
    op.checkFold A resTy [some (.undef ty : Attr F)] = some [none] := by
  cases op with
  | sext | trunc => rfl
  | zext nneg => cases nneg <;> rfl

/-! ## Operations -/

omit hA

/-- This constant is an integer of the type of the result, or of its signless type, and refines the
    outcome on lanes of `w` bits. -/
def SoundInt (w : Nat) (opcode : Opcode F) (resultType : Ty) (ops : Known F) (c : Attr F) : Prop :=
  ∃ (int : IntegerType) (hw : 0 < int.width) (z : BitVec int.width), c = intAttr int hw z ∧
    (resultType = .integer int ∨ resultType.signless = .integer int) ∧
    ∀ (vals : List (LLVMInt.Value w)) (outcome : Outcome int.width),
      opcode.Executes vals int.width outcome → Lanes ops vals → outcome.RefinedBy (.int z)

theorem GivesInt.sound {res : Option (Known F)} {good : BitVec int.width → Prop}
    (h : GivesInt res int hw good) {opcode : Opcode F} {resultType : Ty} {ops : Known F}
    (hty : resultType = .integer int ∨ resultType.signless = .integer int)
    (hgood : ∀ z, good z → ∀ (vals : List (LLVMInt.Value w)) (outcome : Outcome int.width),
      opcode.Executes vals int.width outcome → Lanes ops vals → outcome.RefinedBy (.int z)) :
    ∃ r, res = some [r] ∧ ∀ c ∈ r, SoundInt w opcode resultType ops c := by
  obtain hnone | ⟨z, hsome, hz⟩ := h
  · exact ⟨none, hnone, by simp⟩
  · refine ⟨_, hsome, ?_⟩
    rintro c ⟨⟩
    exact ⟨int, hw, z, rfl, hty, hgood z hz⟩

theorem Opcode.Executes.intBin_inv {op : IntBinOp} {vals : List (LLVMInt.Value w)} {outcome : Outcome w}
    (h : Opcode.Executes (F := F) (.intBin op) vals w outcome) :
    ∃ x y, vals = [x, y] ∧ outcome = op.outcome x y := by
  cases h with
  | intBin op x y => exact ⟨x, y, rfl, rfl⟩

theorem Opcode.Executes.icmp_inv {pred : ICmpPredicateAttr} {vals : List (LLVMInt.Value w)}
    {outcome : Outcome 1} (h : Opcode.Executes (F := F) (.icmp pred) vals 1 outcome) :
    ∃ x y, vals = [x, y] ∧ outcome = LLVMInt.binary (LLVMInt.icmp pred.predicate) x y := by
  cases h with
  | icmp pred x y => exact ⟨x, y, rfl, rfl⟩

theorem Opcode.Executes.intCast_inv {op : IntCastOp} {vals : List (LLVMInt.Value w)}
    {outcome : Outcome v} (h : Opcode.Executes (F := F) (.intCast op) vals v outcome) :
    ∃ x, vals = [x] ∧ outcome = op.outcome v x := by
  cases h with
  | intCast op x => exact ⟨x, rfl, rfl⟩

include hA

theorem intBin_sound (op : IntBinOp) {ty : Ty} {a b : Option (Attr F)} (ha : Entry ty a)
    (hb : Entry ty b) (p : Nat) (hpos : 0 < ty.laneWidth p) :
    ∃ r, op.checkFold A [a, b] = some [r] ∧
      ∀ c ∈ r, SoundInt (ty.laneWidth p) (.intBin op) ty [a, b] c := by
  by_cases hint : ∃ int, ty = .integer int
  · obtain ⟨int, rfl⟩ := hint
    apply (op.checkFold_entries hA hpos ha hb).sound hpos (Or.inl rfl)
    intro z hz vals outcome hexec hlanes
    obtain ⟨x, y, rfl, rfl⟩ := hexec.intBin_inv
    exact hz x y hlanes
  · have hty : ∀ int, ty ≠ .integer int := fun int h => hint ⟨int, h⟩
    exact ⟨none, op.checkFold_of_not_integer ha hb hty, by simp⟩

theorem icmp_sound (pred : ICmpPredicateAttr) {ty resultType : Ty} {a b : Option (Attr F)}
    (ha : Entry ty a) (hb : Entry ty b) (p : Nat) (hpos : 0 < ty.laneWidth p)
    (hresult : ∀ int, ty = .integer int → resultType.signless = .integer int1) :
    ∃ r, checkFoldICmp A pred [a, b] = some [r] ∧
      ∀ c ∈ r, SoundInt (ty.laneWidth p) (.icmp pred) resultType [a, b] c := by
  by_cases hint : ∃ int, ty = .integer int
  · obtain ⟨int, rfl⟩ := hint
    apply (checkFoldICmp_entries hA hpos pred ha hb).sound Nat.one_pos (Or.inr (hresult int rfl))
    intro z hz vals outcome hexec hlanes
    obtain ⟨x, y, rfl, rfl⟩ := Opcode.Executes.icmp_inv hexec
    exact hz x y hlanes
  · have hty : ∀ int, ty ≠ .integer int := fun int h => hint ⟨int, h⟩
    exact ⟨none, checkFoldICmp_of_not_integer pred ha hty, by simp⟩

theorem intCast_sound (op : IntCastOp) {ty resultType : Ty} {a : Option (Attr F)}
    (ha : Entry ty a) (p : Nat)
    (hresult : ∀ int, ty = .integer int → ∃ res : IntegerType, resultType = .integer res ∧
      0 < res.width ∧ (op = .trunc → res.width ≤ int.width)) :
    ∃ r, op.checkFold A resultType [a] = some [r] ∧
      ∀ c ∈ r, SoundInt (ty.laneWidth p) (.intCast op) resultType [a] c := by
  cases ha with
  | unknown => exact ⟨none, op.checkFold_unknown resultType, by simp⟩
  | undef => exact ⟨none, op.checkFold_undef resultType ty, by simp⟩
  | int int hw x hty =>
      subst hty
      obtain ⟨res, rfl, hv, htrunc⟩ := hresult int rfl
      have hv' : 0 < res.signless.width := hv
      apply (op.checkFold_int hA hw x hv htrunc).sound hv' (Or.inr rfl)
      intro z hz vals outcome hexec hlanes
      obtain ⟨val, rfl, rfl⟩ := Opcode.Executes.intCast_inv hexec
      obtain ⟨hval, -⟩ := List.forall₂_cons.mp hlanes
      rw [(lane_intAttr hw x val).mp (hval _ rfl)]
      exact hz

omit hA in
/-- What an operation that propagates poison gives, if its fold is sound when it sees no poison. -/
theorem poisonPropagating_sound {opcode : Opcode F} {resultType : Ty} (ops : Known F)
    {fold : Known F → Option (Known F)} {p : Nat} {r : Option (Attr F)}
    (hfold : fold (ops.map forgetPoison) = some [r])
    (hsound : ∀ c ∈ r, SoundInt w opcode resultType (ops.map forgetPoison) c) :
    ∃ r, checkFoldPoisonPropagatingOp [resultType] ops fold = some [r] ∧ ∀ c ∈ r,
      (c.OfType resultType ∨ c.OfType resultType.signless) ∧
      ∃ val : LLVMInt.Value (resultType.laneWidth p), (∀ val', c.Lane val' ↔ val' = val) ∧
        ∀ (vals : List (LLVMInt.Value w)) (outcome : Outcome (resultType.laneWidth p)),
          opcode.Executes vals _ outcome → Lanes ops vals → outcome.RefinedBy val := by
  refine ⟨_, checkFoldPoisonPropagatingOp_eq hfold, ?_⟩
  intro c hc
  have hcases : c ∈ r ∨ ops.any isPoisonOperand = true ∧ c = .poison resultType := by
    split at hc
    · rename_i hany
      cases r with
      | none => exact Or.inr ⟨hany, (Option.some.inj hc).symm⟩
      | some c' => exact Or.inl hc
    · exact Or.inl hc
  obtain hcr | ⟨hany, rfl⟩ := hcases
  · obtain ⟨int, hw, z, rfl, hty, hrefine⟩ := hsound c hcr
    have hwidth : resultType.laneWidth p = int.width := by
      obtain rfl | hty := hty
      · rfl
      · cases resultType with
        | integer res =>
            cases hty
            rfl
        | vector _ _ _ | fp16 | bf16 | fp32 | fp64 | pointer | other _ => exact nomatch hty
    refine ⟨hty.imp (fun h => ⟨h, rfl⟩) (fun h => ⟨h, rfl⟩), ?_⟩
    rw [hwidth]
    refine ⟨.int z, fun val' => lane_intAttr hw z val', ?_⟩
    intro vals outcome hexec hlanes
    exact hrefine vals outcome hexec hlanes.forgetPoison
  · refine ⟨Or.inl rfl, .poison, fun val' => Iff.rfl, ?_⟩
    intro vals outcome hexec hlanes
    exact hexec.refinedBy_of_poison (hlanes.poison_mem hany) _

omit hA in
/-- A type with the shape of a scalar is its own element type. -/
theorem scalarOrVectorElemTy_of_shape {ty : Ty} (h : ty.vectorShape = none) :
    ty.scalarOrVectorElemTy = ty := by
  cases ty with
  | vector elemType n kind => exact nomatch h
  | integer _ | fp16 | bf16 | fp32 | fp64 | pointer | other _ => rfl

omit hA in
theorem icmp_result {lhs rhs resultType : Ty} {pred : ICmpPredicateAttr}
    (h : (⟨.icmp pred, [lhs, rhs], resultType⟩ : Op F).verify = true) :
    lhs = rhs ∧ ∀ int, lhs = .integer int → resultType.signless = .integer int1 := by
  simp only [Op.verify, Bool.and_eq_true, decide_eq_true_eq] at h
  obtain ⟨-, ⟨⟨heq, hshape⟩, hwidth⟩, -⟩ := h
  refine ⟨heq, ?_⟩
  rintro int rfl
  rw [scalarOrVectorElemTy_of_shape hshape] at hwidth
  cases resultType with
  | integer res =>
      obtain ⟨width, signedness, lt⟩ := res
      have hone : width = 1 := by simpa using hwidth
      subst hone
      rfl
  | vector _ _ _ | fp16 | bf16 | fp32 | fp64 | pointer | other _ =>
      exact absurd hwidth (by simp)

omit hA in
theorem integerCastVerify_result {ty resultType : Ty} {cmp : Nat → Nat → Bool}
    (h : Op.integerCastVerify ty resultType cmp = true) {p : Nat}
    (hpos : 0 < resultType.laneWidth p) (int : IntegerType) (hint : ty = .integer int) :
    ∃ res : IntegerType, resultType = .integer res ∧ 0 < res.width ∧
      cmp res.width int.width = true := by
  subst hint
  have hshape : resultType.vectorShape = none := by
    unfold Op.integerCastVerify at h
    split at h
    · rw [Bool.and_eq_true, decide_eq_true_eq] at h
      exact h.1.symm
    · exact absurd h (by simp)
  unfold Op.integerCastVerify at h
  rw [scalarOrVectorElemTy_of_shape hshape] at h
  cases resultType with
  | integer res =>
      simp only [Ty.scalarOrVectorElemTy, Bool.and_eq_true] at h
      exact ⟨res, rfl, hpos, h.2⟩
  | vector _ _ _ | fp16 | bf16 | fp32 | fp64 | pointer | other _ => exact absurd h (by simp)

/-- Folding a verified integer operation does not panic, and a folded constant has the type of the
    result, or its signless type, and refines what the operation does on each lane.  Lanes of the
    operands have `w` bits, and pointers have `p`. -/
theorem checkFold_sound [DecidableEq F] (fl : APFloat F) (op : Op F)
    (hop : op.opcode.isInteger = true) (hverify : op.verify = true) (p w : Nat)
    (hw : ∀ ty ∈ op.operandTypes, ty.laneWidth p = w) (hpos : 0 < w)
    (hres : 0 < op.resultType.laneWidth p) (ops : Known F)
    (hops : List.Forall₂ (fun ty known => ∀ c ∈ known, c.OfType ty) op.operandTypes ops) :
    ∃ r, op.checkFold A fl ops = some [r] ∧ ∀ c ∈ r,
      (c.OfType op.resultType ∨ c.OfType op.resultType.signless) ∧
      ∃ val : LLVMInt.Value (op.resultType.laneWidth p), (∀ val', c.Lane val' ↔ val' = val) ∧
        ∀ (vals : List (LLVMInt.Value w)) (outcome : Outcome (op.resultType.laneWidth p)),
          op.opcode.Executes vals _ outcome → Lanes ops vals → outcome.RefinedBy val := by
  obtain ⟨opcode, operandTypes, resultType⟩ := op
  have hlength : operandTypes.length = opcode.numOperands := by
    simp only [Op.verify, Bool.and_eq_true, decide_eq_true_eq] at hverify
    exact hverify.1
  cases opcode with
  | intBin binOp =>
      obtain ⟨lhs, rhs, rfl⟩ := List.length_eq_two.mp hlength
      have hty : lhs = rhs ∧ resultType = lhs := by
        simp only [Op.verify, Bool.and_eq_true, decide_eq_true_eq] at hverify
        exact hverify.2.1
      obtain ⟨rfl, rfl⟩ := hty
      obtain rfl := hw resultType (by simp)
      obtain ⟨a, as, ha, has, rfl⟩ := List.forall₂_cons_left_iff.mp hops
      obtain ⟨b, bs, hb, hbs, rfl⟩ := List.forall₂_cons_left_iff.mp has
      obtain rfl := List.forall₂_nil_left_iff.mp hbs
      -- poison is taken out first, so the fold sees no poison operand
      obtain ⟨r, hr, hsound⟩ := intBin_sound hA binOp (entry_forgetPoison ha)
        (entry_forgetPoison hb) p hpos
      exact poisonPropagating_sound [a, b] hr hsound
  | icmp pred =>
      obtain ⟨lhs, rhs, rfl⟩ := List.length_eq_two.mp hlength
      obtain ⟨rfl, hresult⟩ := icmp_result hverify
      obtain rfl := hw lhs (by simp)
      obtain ⟨a, as, ha, has, rfl⟩ := List.forall₂_cons_left_iff.mp hops
      obtain ⟨b, bs, hb, hbs, rfl⟩ := List.forall₂_cons_left_iff.mp has
      obtain rfl := List.forall₂_nil_left_iff.mp hbs
      obtain ⟨r, hr, hsound⟩ := icmp_sound hA pred (entry_forgetPoison ha)
        (entry_forgetPoison hb) p hpos hresult
      exact poisonPropagating_sound [a, b] hr hsound
  | intCast castOp =>
      obtain ⟨operand, rfl⟩ := List.length_eq_one_iff.mp hlength
      obtain rfl := hw operand (by simp)
      obtain ⟨a, as, ha, has, rfl⟩ := List.forall₂_cons_left_iff.mp hops
      obtain rfl := List.forall₂_nil_left_iff.mp has
      -- the result type is an integer type too, and for `trunc` one that is no wider
      have hresult : ∀ int, operand = .integer int → ∃ res : IntegerType,
          resultType = .integer res ∧ 0 < res.width ∧
            (castOp = .trunc → res.width ≤ int.width) := by
        intro int hint
        simp only [Op.verify, Bool.and_eq_true] at hverify
        cases castOp with
        | sext =>
            obtain ⟨res, hty, hv, -⟩ := integerCastVerify_result hverify.2 hres int hint
            exact ⟨res, hty, hv, nofun⟩
        | zext nneg =>
            obtain ⟨res, hty, hv, -⟩ := integerCastVerify_result hverify.2 hres int hint
            exact ⟨res, hty, hv, nofun⟩
        | trunc =>
            obtain ⟨res, hty, hv, hlt⟩ := integerCastVerify_result hverify.2 hres int hint
            exact ⟨res, hty, hv, fun _ => (decide_eq_true_eq.mp hlt).le⟩
      obtain ⟨r, hr, hsound⟩ := intCast_sound hA castOp (entry_forgetPoison ha) p hresult
      exact poisonPropagating_sound [a] hr hsound
  | constant _ | poison | undef | shuffleVector _ | extractElement | insertElement
  | extractValue _ | insertValue _ | fptosi | fptoui | sitofp | uitofp _ | fpext _ | fptrunc _
  | fneg _ | floatBin _ _ | fcmp _ _ | select | freeze => exact nomatch hop

omit hA

theorem eight_lt_pow : 8 < 2 ^ 32 := by decide

def i8 : IntegerType := { width := 8, signedness := .signless, lt := eight_lt_pow }

/-- The conjunction of an unknown integer with zero is folded. -/
theorem checkFold_sound_and_zero :
    ∃ r, (⟨.intBin .and, [.integer i8, .integer i8], .integer i8⟩ : Op Unit).checkFold
        Awint.bitVec APFloat.unit [none, some (intAttr i8 (by decide) 0)] = some [r] ∧ ∀ c ∈ r,
      (c.OfType (.integer i8) ∨ c.OfType (Ty.integer i8).signless) ∧
      ∃ val : LLVMInt.Value 8, (∀ val', c.Lane val' ↔ val' = val) ∧
        ∀ (vals : List (LLVMInt.Value 8)) (outcome : Outcome 8),
          Opcode.Executes (F := Unit) (.intBin .and) vals 8 outcome →
            Lanes [none, some (intAttr (F := Unit) i8 (by decide) 0)] vals →
              outcome.RefinedBy val := by
  apply checkFold_sound Awint.bitVec_documented APFloat.unit
    ⟨.intBin .and, [.integer i8, .integer i8], .integer i8⟩ rfl rfl 64 8
  · simp [Ty.laneWidth, Ty.scalarOrVectorElemTy, i8]
  · decide
  · decide
  · apply List.Forall₂.cons (by simp)
    apply List.Forall₂.cons _ List.Forall₂.nil
    rintro c ⟨⟩
    exact ⟨rfl, rfl⟩

/-- A cast to a signed integer type is folded to a constant of the signless type. -/
theorem checkFold_sext_signed :
    (⟨.intCast .sext, [.integer int1], .integer { width := 8, signedness := .signed }⟩ :
        Op Unit).verify = true ∧
      (⟨.intCast .sext, [.integer int1], .integer { width := 8, signedness := .signed }⟩ :
        Op Unit).checkFold Awint.bitVec APFloat.unit
          [some (intAttr int1 Nat.one_pos 1)] = some [some (intAttr i8 (by decide) 255)] ∧
      (intAttr i8 (by decide) 255 : Attr Unit).getType APFloat.unit ≠
        some (.integer { width := 8, signedness := .signed }) := by
  refine ⟨rfl, rfl, ?_⟩
  decide

end Pliron.LLVM
