/-
  Pliron.LLVM.FromLlvmConstants

  Converting a constant maps it, and touches nothing else.
-/

import Pliron.Lib.Growing
import Pliron.LLVM.FromLlvm

namespace Pliron.FromLlvm

open Lib

/-- The constants that the import can convert. -/
def Constant.Supported (attrOf : AttrOf) (c : Nat) : Constant → Prop
  | .int width _ => width ≠ 0 ∧ width ≤ 64
  | .fp => (attrOf c).isSome
  | .expr .bitCast operands | .expr .intToPtr operands | .expr .ptrToInt operands
  | .expr .trunc operands | .expr .getElementPtr operands => operands ≠ []
  | .expr .add operands | .expr .sub operands => 2 ≤ operands.length
  | .expr _ _ => False
  | .other => False
  | _ => True

/-- What holds of the constants converted so far. -/
structure ConstInv (f : Function) (cctx : ConversionContext) : Prop where
  fresh : ∀ op ∈ cctx.constants, op.id < cctx.nextOp
  ints : ∀ c width value m, f.constants.get c = .int width value →
    cctx.valueMap (.constant c) = some m → (getConstOpAsInt cctx m).isSome

/-- The attribute of a constant operation stays the same. -/
theorem getConstOpAsInt_append {cctx cctx' : ConversionContext} {more : List Operation}
    (hmore : cctx'.constants = cctx.constants ++ more) {m : Value}
    (hm : (getConstOpAsInt cctx m).isSome) : (getConstOpAsInt cctx' m).isSome := by
  cases m with
  | blockArgument block index => exact absurd hm (by simp [getConstOpAsInt])
  | opResult op =>
      simp only [getConstOpAsInt] at hm ⊢
      rw [hmore, List.find?_append]
      cases hfind : cctx.constants.find? (·.id = op) with
      | none => exact absurd hm (by rw [hfind]; exact Bool.false_ne_true)
      | some found =>
          rw [hfind] at hm
          exact hm

/-- Constants below `n` were converted, and nothing else was done. -/
structure ConstStep (n : Nat) (cctx cctx' : ConversionContext) : Prop where
  blockMap : cctx'.blockMap = cctx.blockMap
  blocks : cctx'.blocks = cctx.blocks
  constants : ∃ more, cctx'.constants = cctx.constants ++ more
  nextOp : cctx.nextOp ≤ cctx'.nextOp
  grows : ∀ v m, cctx.valueMap v = some m → cctx'.valueMap v = some m
  other : ∀ v, (∀ c < n, v ≠ .constant c) → cctx'.valueMap v = cctx.valueMap v

namespace ConstStep

variable {n n' : Nat} {cctx cctx' cctx'' : ConversionContext}

theorem refl (n : Nat) (cctx : ConversionContext) : ConstStep n cctx cctx :=
  ⟨rfl, rfl, ⟨[], by simp⟩, Nat.le_refl _, fun _ _ h => h, fun _ _ => rfl⟩

theorem trans (h : ConstStep n cctx cctx') (h' : ConstStep n cctx' cctx'') :
    ConstStep n cctx cctx'' where
  blockMap := h'.blockMap.trans h.blockMap
  blocks := h'.blocks.trans h.blocks
  constants := by
    obtain ⟨more, hmore⟩ := h.constants
    obtain ⟨more', hmore'⟩ := h'.constants
    exact ⟨more ++ more', by rw [hmore', hmore, List.append_assoc]⟩
  nextOp := Nat.le_trans h.nextOp h'.nextOp
  grows := fun v m hv => h'.grows v m (h.grows v m hv)
  other := fun v hv => (h'.other v hv).trans (h.other v hv)

instance : Std.Refl (ConstStep n) := ⟨refl n⟩

instance : IsTrans ConversionContext (ConstStep n) := ⟨fun _ _ _ => trans⟩

theorem mono (h : ConstStep n cctx cctx') (hle : n ≤ n') : ConstStep n' cctx cctx' :=
  { h with other := fun v hv => h.other v (fun c hc => hv c (Nat.lt_of_lt_of_le hc hle)) }

theorem getConstOpAsInt_isSome (h : ConstStep n cctx cctx') {m : Value}
    (hm : (getConstOpAsInt cctx m).isSome) : (getConstOpAsInt cctx' m).isSome := by
  obtain ⟨more, hmore⟩ := h.constants
  exact getConstOpAsInt_append hmore hm

end ConstStep

/-- The constant is not mapped yet. -/
def Unmapped (c : Nat) (cctx : ConversionContext) : Prop := cctx.valueMap (.constant c) = none

theorem unmapped_stable (c : Nat) : Stable (ConstStep c) (Unmapped c) := by
  intro cctx cctx' hstep hc
  have hother := hstep.other (.constant c) fun c' hc' heq =>
    absurd (LLVMValue.constant.inj heq) (by omega)
  exact hother.trans hc

/-- A constant is an integer only if the value is defined by an integer constant operation. -/
def IntValue (f : Function) (c : Nat) (m : Value) (cctx : ConversionContext) : Prop :=
  ∀ width value, f.constants.get c = .int width value → (getConstOpAsInt cctx m).isSome

section Insert

variable {f : Function} {n c : Nat} {kind : OpKind} {operands : List Value} {indices : List Nat}
  {α : Type} {E : ConversionContext → Prop}

theorem Keeps.raise {n' : Nat} {P : ConversionContext → Prop} {m : ImportM α}
    {Q : α → ConversionContext → Prop} (h : Keeps (ConstInv f) (ConstStep n) P m Q E)
    (hle : n ≤ n') : Keeps (ConstInv f) (ConstStep n') P m Q E :=
  h.weaken fun _ _ hstep => hstep.mono hle

/-- A new constant instruction; what defines an integer is found again. -/
theorem insertConstInst_spec {P : ConversionContext → Prop} (hP : Stable (ConstStep n) P) :
    Keeps (ConstInv f) (ConstStep n) P (insertConstInst kind operands indices)
      (fun m cctx => P cctx ∧ ∀ width value, kind = .constant (.integer width value) →
        (getConstOpAsInt cctx m).isSome) E := by
  apply Keeps.of_run
  intro cctx hinv hPc
  have hstep : ConstStep n cctx { cctx with
      nextOp := cctx.nextOp + 1
      constants := cctx.constants ++ [⟨cctx.nextOp, kind, operands, [], indices, []⟩] } :=
    ⟨rfl, rfl, ⟨_, rfl⟩, Nat.le_succ _, fun _ _ h => h, fun _ _ => rfl⟩
  refine ⟨⟨?_, ?_⟩, hstep, hP _ _ hstep hPc, ?_⟩
  · intro op hop
    rcases List.mem_append.mp hop with hop | hop
    · exact Nat.lt_succ_of_lt (hinv.fresh op hop)
    · rw [List.mem_singleton.mp hop]
      exact Nat.lt_succ_self cctx.nextOp
  · intro c width value m hc hm
    exact hstep.getConstOpAsInt_isSome (hinv.ints c width value m hc hm)
  · rintro width value rfl
    have hnone : cctx.constants.find? (·.id = cctx.nextOp) = none := by
      rw [List.find?_eq_none]
      intro op hop
      have := hinv.fresh op hop
      simp only [decide_eq_true_eq]
      omega
    have hfind : ∀ op : Operation, op.id = cctx.nextOp →
        (cctx.constants ++ [op]).find? (fun op => op.id = cctx.nextOp) = some op := by
      intro op hop
      rw [List.find?_append, hnone]
      simp [hop]
    show (getConstOpAsInt _ (.opResult cctx.nextOp)).isSome
    unfold getConstOpAsInt
    simp only
    rw [hfind _ rfl]
    rfl

/-- The last step of every conversion of a constant. -/
theorem Keeps.thenMap {m : ImportM Value}
    (h : Keeps (ConstInv f) (ConstStep c) (Unmapped c) m
      (fun val cctx => Unmapped c cctx ∧ IntValue f c val cctx) E) :
    Keeps (ConstInv f) (ConstStep (c + 1)) (Unmapped c)
      (m >>= fun val => insertValue (.constant c) val)
      (fun _ cctx => (cctx.valueMap (.constant c)).isSome) E := by
  apply Keeps.bind (Keeps.raise h (Nat.le_succ c))
  intro val
  apply Keeps.modify
  rintro cctx hinv ⟨hnone, hint⟩
  have hstep : ConstStep (c + 1) cctx
      { cctx with valueMap := cctx.valueMap.insert (.constant c) val } := by
    refine ⟨rfl, rfl, ⟨[], by simp⟩, Nat.le_refl _, ?_, ?_⟩
    · intro v m hv
      have hne : v ≠ .constant c := by
        rintro rfl
        exact nomatch hnone.symm.trans hv
      show cctx.valueMap.insert (.constant c) val v = some m
      rw [HMap.insert_of_ne hne, hv]
    · intro v hv
      exact HMap.insert_of_ne (hv c (Nat.lt_succ_self c))
  refine ⟨⟨hinv.fresh, ?_⟩, hstep, ?_⟩
  · intro c' width value m hget hm
    rcases HMap.insert_eq_some_iff.mp hm with ⟨heq, rfl⟩ | ⟨_, hm⟩
    · obtain rfl := LLVMValue.constant.inj heq
      exact hint width value hget
    · exact hinv.ints c' width value m hget hm
  · simp

theorem insertConstant_spec (hkind : ∀ width value, f.constants.get c = .int width value →
      ∃ width value, kind = .constant (.integer width value)) :
    Keeps (ConstInv f) (ConstStep (c + 1)) (Unmapped c) (insertConstant c kind operands indices)
      (fun _ cctx => (cctx.valueMap (.constant c)).isSome) E := by
  apply Keeps.thenMap
  apply (insertConstInst_spec (unmapped_stable c)).conseq (fun _ _ h => h) ?_ (fun _ h => h)
  intro m cctx _ hm
  refine ⟨hm.1, fun width value hget => ?_⟩
  obtain ⟨width', value', hk⟩ := hkind width value hget
  exact hm.2 width' value' hk

theorem insertFields_spec {P : ConversionContext → Prop} (hP : Stable (ConstStep n) P)
    (fields : List Value) :
    Keeps (ConstInv f) (ConstStep n) P (insertFields fields) (fun _ => P) E := by
  apply Keeps.bind (insertConstInst_spec hP)
  intro undef
  apply (Keeps.foldlM (T := fun _ => P)
    ?_).conseq (fun _ _ h => h.1) (fun _ _ _ h => h) (fun _ h => h)
  intro acc field _
  exact (insertConstInst_spec hP).conseq (fun _ _ h => h) (fun _ _ _ h => h.1) (fun _ h => h)

theorem insertElements_spec {P : ConversionContext → Prop} (hP : Stable (ConstStep n) P)
    (elements : List Value) :
    Keeps (ConstInv f) (ConstStep n) P (insertElements elements) (fun _ => P) E := by
  apply Keeps.bind (insertConstInst_spec hP)
  intro undef
  apply (Keeps.foldlM (T := fun _ => P)
    ?_).conseq (fun _ _ h => h.1) (fun _ _ _ h => h) (fun _ h => h)
  intro acc elem _
  apply Keeps.bind (insertConstInst_spec hP)
  intro idx
  exact (insertConstInst_spec hP).conseq (fun _ _ h => h.1) (fun _ _ _ h => h.1) (fun _ h => h)

theorem lookupValue_spec {R : ConversionContext → ConversionContext → Prop}
    [Std.Refl R] {val : LLVMValue} {failure : Failure} :
    Keeps (ConstInv f) R (fun cctx => (cctx.valueMap val).isSome) (lookupValue val failure)
      (fun m cctx => cctx.valueMap val = some m) E := by
  apply Keeps.get_bind
  intro cctx hinv hval
  obtain ⟨m, hm⟩ := Option.isSome_iff_exists.mp hval
  simp only [hm]
  apply Keeps.pure
  rintro _ _ rfl
  exact hm

end Insert

section Process

variable {f : Function} {attrOf : AttrOf} {c fuel : Nat} {E : ConversionContext → Prop}

/-- The conversion of the constants that make up `c`. -/
theorem parts_spec (hprocess : ∀ e < c, Keeps (ConstInv f) (ConstStep (e + 1)) (fun _ => True)
      (processConstant f attrOf fuel (.constant e))
      (fun _ cctx => (cctx.valueMap (.constant e)).isSome) E)
    {ids : List Nat} (hids : ∀ e ∈ ids, e < c) :
    Keeps (ConstInv f) (ConstStep c) (Unmapped c)
      (ids.mapM (fun e => do
        processConstant f attrOf fuel (.constant e)
        lookupValue (.constant e) .panic))
      (fun vals cctx => Unmapped c cctx ∧ vals.length = ids.length) E := by
  have hmap := Keeps.mapM (I := ConstInv f) (R := ConstStep c) (P := fun _ => True) (l := ids)
    (f := fun e => do
      processConstant f attrOf fuel (.constant e)
      lookupValue (.constant e) .panic)
    (V := fun _ _ _ => True) (E := E) (fun _ _ _ _ _ h => h) (fun _ _ _ h => h)
    (fun e he => by
      apply Keeps.bind (Keeps.raise (hprocess e (hids e he)) (hids e he))
      intro _
      exact lookupValue_spec.conseq (fun _ _ h => h) (fun _ _ _ _ => trivial) (fun _ h => h))
  apply (hmap.frame (unmapped_stable c)).conseq (fun _ _ h => ⟨trivial, h⟩) ?_ (fun _ h => h)
  intro vals cctx _ h
  exact ⟨h.2, h.1.length_eq.symm⟩

/-- A supported integer has an attribute, and no conversion to an attribute fails. -/
theorem constLlvmValueToAttr_ok (hsup : (f.constants.get c).Supported attrOf c) :
    ∃ attr, constLlvmValueToAttr f attrOf c = .ok attr ∧
      ∀ width value, f.constants.get c = .int width value →
        attr = some (.integer width value) := by
  unfold constLlvmValueToAttr
  cases hget : f.constants.get c with
  | int width value =>
      rw [hget] at hsup
      refine ⟨some (.integer width value), ?_, ?_⟩
      · simp only
        rw [if_neg hsup.1, if_neg (Nat.not_lt.mpr hsup.2)]
        rfl
      · rintro _ _ ⟨⟩
        rfl
  | _ => exact ⟨attrOf c, rfl, nofun⟩

theorem constLlvmValueToConstOp_spec (hsup : (f.constants.get c).Supported attrOf c) :
    Keeps (ConstInv f) (ConstStep (c + 1)) (Unmapped c) (constLlvmValueToConstOp f attrOf c)
      (fun done cctx => (done = true ∧ (cctx.valueMap (.constant c)).isSome) ∨
        (done = false ∧ Unmapped c cctx ∧ attrOf c = none ∧
          ∀ width value, f.constants.get c ≠ .int width value)) E := by
  obtain ⟨attr, hattr, hint⟩ := constLlvmValueToAttr_ok hsup
  unfold constLlvmValueToConstOp
  rw [hattr]
  cases attr with
  | none =>
      apply Keeps.pure
      intro s _ hs
      have hnot : ∀ width value, f.constants.get c ≠ .int width value := fun width value hget =>
        nomatch hint width value hget
      refine Or.inr ⟨rfl, hs, ?_, hnot⟩
      unfold constLlvmValueToAttr at hattr
      split at hattr
      · next width value hget => exact absurd hget (hnot width value)
      · exact Except.ok.inj hattr
  | some attr =>
      show Keeps _ _ _ (insertConstInst (.constant attr) [] >>= fun val =>
        insertValue (.constant c) val >>= fun _ => pure true) _ _
      have hmap := @insertConstant_spec f c (.constant attr) [] [] E (fun width value hget =>
          ⟨width, value, congrArg OpKind.constant (Option.some.inj (hint width value hget))⟩)
      have hassoc : (insertConstInst (.constant attr) [] >>= fun val =>
          insertValue (.constant c) val >>= fun _ => pure true) =
          insertConstant c (.constant attr) [] >>= fun _ => (pure true : ImportM Bool) := by
        unfold insertConstant
        rw [bind_assoc]
      rw [hassoc]
      apply Keeps.bind hmap
      intro _
      apply Keeps.pure
      intro s _ hs
      exact Or.inl ⟨rfl, hs⟩

/-- A constant with parts: an attribute if it has one, else the parts put together. -/
theorem aggregate_spec (hsup : (f.constants.get c).Supported attrOf c)
    {parts : ImportM (List Value)} {insert : List Value → ImportM Value}
    (hparts : Keeps (ConstInv f) (ConstStep c) (Unmapped c) parts (fun _ => Unmapped c) E)
    (hinsert : ∀ vals, Keeps (ConstInv f) (ConstStep c) (Unmapped c) (insert vals)
      (fun _ => Unmapped c) E) :
    Keeps (ConstInv f) (ConstStep (c + 1)) (Unmapped c)
      (constLlvmValueToConstOp f attrOf c >>= fun done =>
        if done = true then pure () else parts >>= fun vals => insert vals >>= fun val =>
          insertValue (.constant c) val)
      (fun _ cctx => (cctx.valueMap (.constant c)).isSome) E := by
  apply Keeps.bind (constLlvmValueToConstOp_spec hsup)
  intro done
  apply Keeps.of_forall
  rintro s _ (⟨rfl, hs⟩ | ⟨rfl, hs, _, hnot⟩)
  · apply Keeps.pure
    rintro _ _ rfl
    exact hs
  · have hmap := Keeps.thenMap (f := f) (c := c) (E := E) (m := parts >>= insert)
      ((Keeps.bind hparts hinsert).conseq (fun _ _ h => h)
        (fun _ _ _ h => ⟨h, fun width value hget => absurd hget (hnot width value)⟩)
        (fun _ h => h))
    rw [bind_assoc] at hmap
    apply hmap.conseq ?_ (fun _ _ _ h => h) (fun _ h => h)
    rintro _ _ rfl
    exact hs

theorem blockTag_spec {n : Nat} {P : ConversionContext → Prop} (hP : Stable (ConstStep n) P)
    {function : String} {block : LLVMBasicBlock} :
    Keeps (ConstInv f) (ConstStep n) P (blockTag function block) (fun _ => P) E := by
  apply Keeps.get_bind
  intro s hinv hPs
  split
  · apply Keeps.pure
    rintro _ _ rfl
    exact hPs
  · apply Keeps.of_run
    rintro s' _ rfl
    have hstep : ConstStep n s' { s' with
        blockTagMap := s'.blockTagMap.insert (function, block) s'.blockTagCounter
        blockTagCounter := s'.blockTagCounter + 1 } :=
      ⟨rfl, rfl, ⟨[], by simp⟩, Nat.le_refl _, fun _ _ h => h, fun _ _ => rfl⟩
    exact ⟨⟨hinv.fresh, hinv.ints⟩, hstep, hP _ _ hstep hPs⟩

theorem constantExprOperands_sublist {opcode : LLVMOpcode} {operands : List Nat} :
    (constantExprOperands opcode operands).Sublist operands := by
  unfold constantExprOperands
  split
  all_goals first
    | exact List.take_sublist _ _
    | exact List.Sublist.refl _
    | exact List.nil_sublist _

theorem constantExpr_spec {opcode : LLVMOpcode} {operands : List Nat} {vals : List Value}
    (hget : f.constants.get c = .expr opcode operands)
    (hsup : (f.constants.get c).Supported attrOf c)
    (hlen : vals.length = (constantExprOperands opcode operands).length) :
    Keeps (ConstInv f) (ConstStep (c + 1)) (Unmapped c) (constantExpr c opcode vals)
      (fun _ cctx => (cctx.valueMap (.constant c)).isSome) E := by
  have hinsert : ∀ kind opds indices, Keeps (ConstInv f) (ConstStep (c + 1)) (Unmapped c)
      (insertConstant c kind opds indices)
      (fun _ cctx => (cctx.valueMap (.constant c)).isSome) E := fun kind opds indices =>
    insertConstant_spec (by simp [hget])
  -- a supported expression has the operands that are read
  have hone : operands ≠ [] → vals.length = (operands.take 1).length →
      ∃ opd rest, vals = opd :: rest := by
    intro hne hlen
    cases operands with
    | nil => exact absurd rfl hne
    | cons e operands => exact List.exists_cons_of_length_eq_add_one hlen
  have htwo : 2 ≤ operands.length → vals.length = (operands.take 2).length →
      ∃ lhs rhs rest, vals = lhs :: rhs :: rest := by
    intro hle hlen
    rw [List.length_take, Nat.min_eq_left hle] at hlen
    match vals, hlen with
    | [lhs, rhs], _ => exact ⟨lhs, rhs, [], rfl⟩
  rw [hget] at hsup
  unfold Constant.Supported at hsup
  split at hsup
  case h_3 heq =>
    obtain ⟨rfl, rfl⟩ := Constant.expr.inj heq
    obtain ⟨opd, rest, rfl⟩ := hone hsup hlen
    exact hinsert _ _ _
  case h_4 heq =>
    obtain ⟨rfl, rfl⟩ := Constant.expr.inj heq
    obtain ⟨opd, rest, rfl⟩ := hone hsup hlen
    exact hinsert _ _ _
  case h_5 heq =>
    obtain ⟨rfl, rfl⟩ := Constant.expr.inj heq
    obtain ⟨opd, rest, rfl⟩ := hone hsup hlen
    exact hinsert _ _ _
  case h_6 heq =>
    obtain ⟨rfl, rfl⟩ := Constant.expr.inj heq
    obtain ⟨opd, rest, rfl⟩ := hone hsup hlen
    exact hinsert _ _ _
  case h_7 heq =>
    obtain ⟨rfl, rfl⟩ := Constant.expr.inj heq
    have hlen' : vals.length = operands.length := hlen
    -- `getelementptr` reads all its operands, the base first
    cases vals with
    | nil => exact absurd (List.length_eq_zero_iff.mp hlen'.symm) hsup
    | cons base indices =>
        apply Keeps.get_bind
        intro s _ hs
        apply (hinsert _ _ _).conseq ?_ (fun _ _ _ h => h) (fun _ h => h)
        rintro _ _ rfl
        exact hs
  case h_8 heq =>
    obtain ⟨rfl, rfl⟩ := Constant.expr.inj heq
    obtain ⟨lhs, rhs, rest, rfl⟩ := htwo hsup hlen
    exact hinsert _ _ _
  case h_9 heq =>
    obtain ⟨rfl, rfl⟩ := Constant.expr.inj heq
    obtain ⟨lhs, rhs, rest, rfl⟩ := htwo hsup hlen
    exact hinsert _ _ _
  case h_10 => exact hsup.elim
  all_goals simp_all

/-- A constant is converted and mapped. -/
theorem processConstant_spec (hsup : ∀ c, (f.constants.get c).Supported attrOf c)
    (hc : c < fuel) :
    Keeps (ConstInv f) (ConstStep (c + 1)) (fun _ => True)
      (processConstant f attrOf fuel (.constant c))
      (fun _ cctx => (cctx.valueMap (.constant c)).isSome) E := by
  induction fuel generalizing c with
  | zero => exact absurd hc (Nat.not_lt_zero c)
  | succ fuel ih =>
      unfold processConstant
      apply Keeps.get_bind
      intro s₀ _ _
      by_cases hmapped : (s₀.valueMap (.constant c)).isSome
      · rw [if_pos hmapped]
        apply Keeps.pure
        rintro s _ rfl
        exact hmapped
      rw [if_neg hmapped]
      have hunmapped : ∀ s, ConstInv f s → s = s₀ → Unmapped c s := by
        rintro s _ rfl
        exact Option.not_isSome_iff_eq_none.mp hmapped
      have hfrom : ∀ {m : ImportM Unit}, Keeps (ConstInv f) (ConstStep (c + 1)) (Unmapped c) m
            (fun _ cctx => (cctx.valueMap (.constant c)).isSome) E →
          Keeps (ConstInv f) (ConstStep (c + 1)) (fun s => s = s₀) m
            (fun _ cctx => (cctx.valueMap (.constant c)).isSome) E :=
        fun h => h.conseq hunmapped (fun _ _ _ h => h) (fun _ h => h)
      -- the operands of a constant come before it, so the induction hypothesis holds of them
      have hparts : ∀ ids : List Nat, (∀ e ∈ ids, e < c) → _ :=
        fun ids => @parts_spec f attrOf _ _ E
          (fun e he => ih (Nat.lt_of_lt_of_le he (Nat.le_of_lt_succ hc))) ids
      have hlt := f.constants.operand_lt c
      have hsupc := hsup c
      simp only
      cases hget : f.constants.get c with
      | undefValue => exact hfrom (insertConstant_spec (by simp [hget]))
      | poison => exact hfrom (insertConstant_spec (by simp [hget]))
      | pointerNull => exact hfrom (insertConstant_spec (by simp [hget]))
      | aggregateZero => exact hfrom (insertConstant_spec (by simp [hget]))
      -- an integer is always made into one operation, with nothing left to do
      | int width value =>
          apply hfrom (Keeps.bind (constLlvmValueToConstOp_spec hsupc) ?_)
          intro done
          apply Keeps.of_forall
          rintro s _ (⟨rfl, hs⟩ | ⟨_, _, _, hnot⟩)
          · apply Keeps.pure
            rintro _ _ rfl
            exact hs
          · exact absurd hget (hnot width value)
      | fp =>
          apply hfrom (Keeps.bind (constLlvmValueToConstOp_spec hsupc) ?_)
          intro done
          apply Keeps.of_forall
          rintro s _ (⟨rfl, hs⟩ | ⟨_, _, hnone, _⟩)
          · apply Keeps.pure
            rintro _ _ rfl
            exact hs
          · -- a float is made into an operation too, as the module is supported
            rw [hget] at hsupc
            exact absurd hnone (Option.isSome_iff_ne_none.mp hsupc)
      | array elements =>
          rw [hget] at hlt
          exact hfrom (aggregate_spec hsupc ((hparts elements hlt).conseq (fun _ _ h => h)
            (fun _ _ _ h => h.1) (fun _ h => h)) (insertFields_spec (unmapped_stable c)))
      | struct fields =>
          rw [hget] at hlt
          exact hfrom (aggregate_spec hsupc ((hparts fields hlt).conseq (fun _ _ h => h)
            (fun _ _ _ h => h.1) (fun _ h => h)) (insertFields_spec (unmapped_stable c)))
      | vector elements =>
          rw [hget] at hlt
          exact hfrom (aggregate_spec hsupc ((hparts elements hlt).conseq (fun _ _ h => h)
            (fun _ _ _ h => h.1) (fun _ h => h)) (insertElements_spec (unmapped_stable c)))
      | expr opcode operands =>
          rw [hget] at hlt
          have hmem : ∀ e ∈ constantExprOperands opcode operands, e < c := fun e he =>
            hlt e (constantExprOperands_sublist.subset he)
          apply hfrom (Keeps.bind (Keeps.raise (hparts _ hmem) (Nat.le_succ c)) ?_)
          intro vals
          apply Keeps.of_forall
          intro s _ hs
          apply (constantExpr_spec hget hsupc hs.2).conseq ?_ (fun _ _ _ h => h) (fun _ h => h)
          rintro _ _ rfl
          exact hs.1
      | globalVariable name => exact hfrom (insertConstant_spec (by simp [hget]))
      | function name => exact hfrom (insertConstant_spec (by simp [hget]))
      | blockAddress function block =>
          apply hfrom (Keeps.bind
            (Keeps.raise (blockTag_spec (unmapped_stable c)) (Nat.le_succ c)) ?_)
          intro tag
          exact insertConstant_spec (by simp [hget])
      | other =>
          rw [hget] at hsupc
          exact hsupc.elim

end Process

end Pliron.FromLlvm
