/-
  Pliron.LLVM.FromLlvmSpec

  What the conversion of an instruction gives, and when it fails.

  An instruction of a valid function is converted exactly when all values it uses are mapped.  Its
  operation then has a successor for each destination, with the values the PHIs there have for the
  edge.
-/

import Pliron.LLVM.FromLlvmOrder

namespace Pliron.FromLlvm

open Lib

/-- Constants were converted, and nothing else was done. -/
structure ConstsOnly (cctx cctx' : ConversionContext) : Prop where
  blockMap : cctx'.blockMap = cctx.blockMap
  blocks : cctx'.blocks = cctx.blocks
  constants : ∃ more, cctx'.constants = cctx.constants ++ more
  nextOp : cctx.nextOp ≤ cctx'.nextOp
  grows : ∀ v m, cctx.valueMap v = some m → cctx'.valueMap v = some m
  other : ∀ v, (∀ c, v ≠ .constant c) → cctx'.valueMap v = cctx.valueMap v

theorem ConstStep.constsOnly {n : Nat} {cctx cctx' : ConversionContext}
    (h : ConstStep n cctx cctx') : ConstsOnly cctx cctx' :=
  { h with other := fun v hv => h.other v fun c _ => hv c }

namespace ConstsOnly

variable {cctx cctx' cctx'' : ConversionContext}

theorem refl (cctx : ConversionContext) : ConstsOnly cctx cctx := (ConstStep.refl 0 cctx).constsOnly

theorem trans (h : ConstsOnly cctx cctx') (h' : ConstsOnly cctx' cctx'') :
    ConstsOnly cctx cctx'' where
  blockMap := h'.blockMap.trans h.blockMap
  blocks := h'.blocks.trans h.blocks
  constants := by
    obtain ⟨more, hmore⟩ := h.constants
    obtain ⟨more', hmore'⟩ := h'.constants
    exact ⟨more ++ more', by rw [hmore', hmore, List.append_assoc]⟩
  nextOp := Nat.le_trans h.nextOp h'.nextOp
  grows := fun v m hv => h'.grows v m (h.grows v m hv)
  other := fun v hv => (h'.other v hv).trans (h.other v hv)

instance : Std.Refl ConstsOnly := ⟨refl⟩

instance : IsTrans ConversionContext ConstsOnly := ⟨fun _ _ _ => trans⟩

/-- What a mapped value is mapped to stays the same. -/
theorem mapped_stable (v : LLVMValue) (m : Value) :
    Stable ConstsOnly (fun cctx => cctx.valueMap v = some m) := fun _ _ h hv => h.grows v m hv

theorem blockMap_stable (b : LLVMBasicBlock) (m : Nat) :
    Stable ConstsOnly (fun cctx => cctx.blockMap b = some m) := fun _ _ h hb => by
  show _ = _
  rw [h.blockMap]
  exact hb

end ConstsOnly

/-- Some value that is no constant is not mapped. -/
def Missing (vals : List LLVMValue) (cctx : ConversionContext) : Prop :=
  ∃ v ∈ vals, (∀ c, v ≠ .constant c) ∧ cctx.valueMap v = none

/-- The values are mapped to what they were converted to. -/
def Mapped (cctx : ConversionContext) (vals : List LLVMValue) (ms : List Value) : Prop :=
  List.Forall₂ (fun v m => cctx.valueMap v = some m) vals ms

/-- The arguments that the PHIs of `dst` take on an edge from `src`. -/
def EdgeArgs (f : Function) (src : LLVMBasicBlock) (cctx : ConversionContext)
    (dst : LLVMBasicBlock) (args : List Value) : Prop :=
  List.Forall₂ (fun p m => ∃ val, p.incomingFrom src = some val ∧ cctx.valueMap val = some m)
    (f.phis dst) args

/-- A successor of an operation stands for an edge. -/
def EdgeTo (f : Function) (src : LLVMBasicBlock) (cctx : ConversionContext)
    (dst : LLVMBasicBlock) (succ : Nat × List Value) : Prop :=
  cctx.blockMap dst = some succ.1 ∧ EdgeArgs f src cctx dst succ.2

theorem Missing.mono {vals vals' : List LLVMValue} (h : ∀ v ∈ vals, v ∈ vals')
    (cctx : ConversionContext) (hm : Missing vals cctx) : Missing vals' cctx := by
  obtain ⟨v, hv, hnot, hnone⟩ := hm
  exact ⟨v, h v hv, hnot, hnone⟩

theorem mapped_stable (vals : List LLVMValue) (ms : List Value) :
    Stable ConstsOnly (fun cctx => Mapped cctx vals ms) := fun _ _ h hm =>
  hm.imp fun v m hv => h.grows v m hv

theorem edgeArgs_stable (f : Function) (src dst : LLVMBasicBlock) (args : List Value) :
    Stable ConstsOnly (fun cctx => EdgeArgs f src cctx dst args) := by
  intro cctx cctx' h hm
  apply hm.imp
  rintro p m ⟨val, hval, hv⟩
  exact ⟨val, hval, h.grows val m hv⟩

section Values

variable {f : Function} {attrOf : AttrOf} {P : ConversionContext → Prop}

/-- A value that is no constant is only looked up. -/
theorem processConstant_other {v : LLVMValue} (hnot : ∀ c, v ≠ .constant c) (fuel : Nat) :
    Keeps (ConstInv f) ConstsOnly (fun _ => True) (processConstant f attrOf (fuel + 1) v)
      (fun _ cctx => (cctx.valueMap v).isSome) (Missing [v]) := by
  unfold processConstant
  apply Keeps.get_bind
  intro s _ _
  by_cases hmapped : (s.valueMap v).isSome
  · rw [if_pos hmapped]
    apply Keeps.pure
    rintro _ _ rfl
    exact hmapped
  · rw [if_neg hmapped]
    have hmissing : ∀ s', ConstInv f s' → s' = s → Missing [v] s' := by
      rintro s' _ rfl
      exact ⟨v, List.mem_singleton_self v, hnot, Option.not_isSome_iff_eq_none.mp hmapped⟩
    cases v with
    | constant c => exact absurd rfl (hnot c)
    | instruction block index => exact Keeps.throw hmissing
    | argument index => exact Keeps.throw hmissing
    | basicBlock block => exact Keeps.throw hmissing

theorem constsOnly_of_process (hsup : ∀ c, (f.constants.get c).Supported attrOf c)
    {E : ConversionContext → Prop} (c : Nat) :
    Keeps (ConstInv f) ConstsOnly (fun _ => True)
      (processConstant f attrOf (constantFuel (.constant c)) (.constant c))
      (fun _ cctx => (cctx.valueMap (.constant c)).isSome) E :=
  (processConstant_spec hsup (Nat.lt_succ_self c)).weaken fun _ _ hstep => hstep.constsOnly

/-- A value is converted unless it is missing. -/
theorem convertValue_spec (hsup : ∀ c, (f.constants.get c).Supported attrOf c) (v : LLVMValue) :
    Keeps (ConstInv f) ConstsOnly (fun _ => True) (convertValue f attrOf v)
      (fun m cctx => cctx.valueMap v = some m) (Missing [v]) := by
  unfold convertValue
  by_cases hconst : ∃ c, v = .constant c
  · obtain ⟨c, rfl⟩ := hconst
    apply Keeps.bind (constsOnly_of_process hsup c)
    intro _
    exact lookupValue_spec
  · have hnot : ∀ c, v ≠ .constant c := fun c h => hconst ⟨c, h⟩
    have hfuel : constantFuel v = 0 + 1 := by
      cases v with
      | constant c => exact absurd rfl (hnot c)
      | _ => rfl
    rw [hfuel]
    apply Keeps.bind (processConstant_other hnot 0)
    intro _
    exact lookupValue_spec

theorem convertOperands_spec (hsup : ∀ c, (f.constants.get c).Supported attrOf c)
    (operands : List LLVMValue) :
    Keeps (ConstInv f) ConstsOnly
      (fun cctx => ∀ d ∈ operands.filterMap LLVMValue.asBasicBlock?, ∃ m, cctx.blockMap d = some m)
      (convertOperands f attrOf operands)
      (fun r cctx => Mapped cctx (valueOperands operands) r.1 ∧
        List.Forall₂ (fun d m => cctx.blockMap d = some m)
          (operands.filterMap LLVMValue.asBasicBlock?) r.2)
      (Missing (valueOperands operands)) := by
  induction operands with
  | nil =>
      apply Keeps.pure
      intro _ _ _
      exact ⟨List.Forall₂.nil, List.Forall₂.nil⟩
  | cons v operands ih =>
      unfold convertOperands
      have hblocks : ∀ l : List LLVMBasicBlock, Stable ConstsOnly
          (fun cctx => ∀ d ∈ l, ∃ m, cctx.blockMap d = some m) := by
        intro l cctx cctx' hstep h d hd
        obtain ⟨m, hm⟩ := h d hd
        exact ⟨m, ConstsOnly.blockMap_stable d m _ _ hstep hm⟩
      cases hv : v.asBasicBlock? with
      | none =>
          have hvals : valueOperands (v :: operands) = v :: valueOperands operands := by
            unfold valueOperands
            rw [List.filter_cons_of_pos]
            simp [LLVMValue.isBasicBlock, hv]
          rw [List.filterMap_cons_none hv, hvals]
          simp only
          apply Keeps.bind (((convertValue_spec hsup v).frame (hblocks _)).conseq
            (fun _ _ h => ⟨trivial, h⟩) (fun _ _ _ h => h)
            (Missing.mono fun w hw => List.mem_singleton.mp hw ▸ List.mem_cons_self))
          intro m
          apply Keeps.bind ((ih.frame (ConstsOnly.mapped_stable v m)).conseq
            (fun _ _ h => ⟨h.2, h.1⟩) (fun _ _ _ h => h)
            (Missing.mono fun w hw => List.mem_cons_of_mem v hw))
          intro r
          apply Keeps.pure
          intro _ _ h
          exact ⟨List.Forall₂.cons h.2 h.1.1, h.1.2⟩
      | some block =>
          have hvals : valueOperands (v :: operands) = valueOperands operands := by
            unfold valueOperands
            rw [List.filter_cons_of_neg]
            simp [LLVMValue.isBasicBlock, hv]
          rw [List.filterMap_cons_some hv, hvals]
          simp only
          apply Keeps.get_bind
          intro s _ hs
          obtain ⟨m, hm⟩ := hs block List.mem_cons_self
          simp only [hm]
          apply Keeps.bind ((ih.frame (ConstsOnly.blockMap_stable block m)).conseq
            ?_ (fun _ _ _ h => h) (fun _ h => h))
          · intro r
            apply Keeps.pure
            intro _ _ h
            exact ⟨h.1.1, List.Forall₂.cons h.2 h.1.2⟩
          · rintro _ _ rfl
            exact ⟨fun d hd => hs d (List.mem_cons_of_mem block hd), hm⟩

theorem convertPhiArgs_spec (hsup : ∀ c, (f.constants.get c).Supported attrOf c)
    (src : LLVMBasicBlock) (insts : List Instruction)
    (hincoming : ∀ p ∈ insts.takeWhile (·.opcode = .phi), (p.incomingFrom src).isSome) :
    Keeps (ConstInv f) ConstsOnly (fun _ => True) (convertPhiArgs f attrOf src insts)
      (fun args cctx => List.Forall₂ (fun p m => ∃ val, p.incomingFrom src = some val ∧
        cctx.valueMap val = some m) (insts.takeWhile (·.opcode = .phi)) args)
      (Missing ((insts.takeWhile (·.opcode = .phi)).filterMap (Instruction.incomingFrom src))) := by
  induction insts with
  | nil =>
      apply Keeps.pure
      intro _ _ _
      exact List.Forall₂.nil
  | cons inst insts ih =>
      unfold convertPhiArgs
      by_cases hphi : inst.opcode = .phi
      · have htake : (inst :: insts).takeWhile (·.opcode = .phi) =
            inst :: insts.takeWhile (·.opcode = .phi) := by
          rw [List.takeWhile_cons_of_pos (by simpa using hphi)]
        rw [htake] at hincoming ⊢
        rw [if_pos hphi]
        have hinst := hincoming inst List.mem_cons_self
        unfold Instruction.incomingFrom at hinst
        cases hfind : inst.incoming.find? (·.2 = src) with
        | none =>
            rw [hfind] at hinst
            exact absurd hinst Bool.false_ne_true
        | some entry =>
            have hval : inst.incomingFrom src = some entry.1 := by
              unfold Instruction.incomingFrom
              rw [hfind]
              rfl
            rw [List.filterMap_cons_some hval]
            simp only
            apply Keeps.bind ((convertValue_spec hsup entry.1).conseq (fun _ _ h => h)
              (fun _ _ _ h => h)
              (Missing.mono fun w hw => List.mem_singleton.mp hw ▸ List.mem_cons_self))
            intro m
            apply Keeps.bind (((ih fun p hp => hincoming p (List.mem_cons_of_mem inst hp)).frame
              (ConstsOnly.mapped_stable entry.1 m)).conseq (fun _ _ h => ⟨trivial, h⟩)
              (fun _ _ _ h => h) (Missing.mono fun w hw => List.mem_cons_of_mem _ hw))
            intro args
            apply Keeps.pure
            intro _ _ h
            exact List.Forall₂.cons ⟨entry.1, hval, h.2⟩ h.1
      · have htake : (inst :: insts).takeWhile (·.opcode = .phi) = [] := by
          rw [List.takeWhile_cons_of_neg (by simpa using hphi)]
        rw [htake, if_neg hphi]
        apply Keeps.pure
        intro _ _ _
        exact List.Forall₂.nil

theorem convertBranchArgs_spec (hsup : ∀ c, (f.constants.get c).Supported attrOf c)
    {src dst : LLVMBasicBlock} (hincoming : ∀ p ∈ f.phis dst, (p.incomingFrom src).isSome)
    (hP : Stable ConstsOnly P) :
    Keeps (ConstInv f) ConstsOnly P (convertBranchArgs f attrOf src dst)
      (fun args cctx => EdgeArgs f src cctx dst args ∧ P cctx)
      (Missing (f.edgeValues src dst)) :=
  ((convertPhiArgs_spec hsup src (f.instructions dst) hincoming).frame hP).conseq
    (fun _ _ h => ⟨trivial, h⟩) (fun _ _ _ h => h) (fun _ h => h)

theorem newOp_spec (hP : Stable ConstsOnly P) {kind : OpKind} {operands : List Value}
    {successors : List (Nat × List Value)} {indices : List Nat} {cases : List Attr}
    {E : ConversionContext → Prop} :
    Keeps (ConstInv f) ConstsOnly P (newOp kind operands successors indices cases)
      (fun op cctx => op.successors = successors ∧ P cctx) E := by
  apply Keeps.of_run
  intro cctx hinv hPc
  have hstep : ConstsOnly cctx { cctx with nextOp := cctx.nextOp + 1 } :=
    ⟨rfl, rfl, ⟨[], by simp⟩, Nat.le_succ _, fun _ _ h => h, fun _ _ => rfl⟩
  refine ⟨⟨fun op hop => Nat.lt_succ_of_lt (hinv.fresh op hop), hinv.ints⟩, hstep, rfl, ?_⟩
  exact hP _ _ hstep hPc

/-- A lookup in a list that is long enough. -/
theorem getOperand_spec {opds : List Value} {idx : Nat} (h : idx < opds.length)
    {E : ConversionContext → Prop} :
    Keeps (ConstInv f) ConstsOnly P (getOperand opds idx) (fun _ => P) E := by
  unfold getOperand
  rw [List.getElem?_eq_getElem h]
  exact Keeps.pure fun _ _ h => h

end Values

/-! ## Instructions -/

/-- What is known of a converted operation. -/
def Converted (f : Function) (src : LLVMBasicBlock) (inst : Instruction) (op : Operation)
    (cctx : ConversionContext) : Prop :=
  List.Forall₂ (EdgeTo f src cctx) inst.destinations op.successors ∧
    ∀ v ∈ f.uses src inst, (cctx.valueMap v).isSome

section Instructions

variable {f : Function} {attrOf : AttrOf} {src : LLVMBasicBlock} {inst : Instruction}

theorem Mapped.isSome {cctx : ConversionContext} {vals : List LLVMValue} {ms : List Value}
    (h : Mapped cctx vals ms) : ∀ v ∈ vals, (cctx.valueMap v).isSome := by
  intro v hv
  obtain ⟨m, hm⟩ := exists_of_forall₂ h hv
  rw [hm]
  rfl

theorem EdgeArgs.isSome {cctx : ConversionContext} {dst : LLVMBasicBlock} {args : List Value}
    (h : EdgeArgs f src cctx dst args) : ∀ v ∈ f.edgeValues src dst, (cctx.valueMap v).isSome := by
  intro v hv
  obtain ⟨p, hp, hval⟩ := List.mem_filterMap.mp hv
  obtain ⟨m, val, hval', hm⟩ := exists_of_forall₂ h hp
  obtain rfl := Option.some.inj (hval.symm.trans hval')
  rw [hm]
  rfl

theorem convertOpcode_of_numOperands {n : Nat} {opds : List Value} {succs : List Nat}
    (hn : numOperands inst.opcode = some n) :
    convertOpcode f attrOf src inst opds succs =
      (do newOp (.inst inst.opcode) (← (List.range n).mapM (getOperand opds))) := by
  unfold convertOpcode
  split
  all_goals first
    | next h =>
        rw [h] at hn
        exact nomatch hn
    | rw [hn]

/-- An instruction that is no terminator and reads its operands. -/
theorem convertPlain_spec (hsup : ∀ c, (f.constants.get c).Supported attrOf c)
    (hplain : inst.Plain) :
    Keeps (ConstInv f) ConstsOnly (fun _ => True) (convertInstruction f attrOf src inst)
      (Converted f src inst) (Missing (f.uses src inst)) := by
  -- a plain instruction names no block, so the values it uses are the ones it reads
  have huses : f.uses src inst = inst.reads := by
    unfold Function.uses
    rw [hplain.not_terminator, if_neg Bool.false_ne_true, List.append_nil]
  have hnone : ∀ l : List LLVMValue, (∀ v ∈ l, v.asBasicBlock? = none) →
      l.filterMap LLVMValue.asBasicBlock? = [] ∧ valueOperands l = l := by
    intro l hl
    refine ⟨List.filterMap_eq_nil_iff.mpr hl, List.filter_eq_self.mpr fun v hv => ?_⟩
    simp [LLVMValue.isBasicBlock, hl v hv]
  have hdests : inst.destinations = [] := (hnone inst.operands hplain.no_block).1
  have hdone : ∀ op cctx, op.successors = [] → (∀ v ∈ inst.reads, (cctx.valueMap v).isSome) →
      Converted f src inst op cctx := by
    intro op cctx hsucc hreads
    refine ⟨?_, huses ▸ hreads⟩
    rw [hdests, hsucc]
    exact List.Forall₂.nil
  unfold convertInstruction
  by_cases hcall : inst.opcode = .call
  · -- a call converts its arguments, and the called value when there is one
    rw [if_pos hcall]
    have hreads : inst.reads = inst.operands.take inst.numArgOperands ++ inst.callee.reads := by
      unfold Instruction.reads
      rw [if_pos hcall]
    obtain ⟨hnoblock, hvals⟩ := hnone (inst.operands.take inst.numArgOperands)
      (fun v hv => hplain.no_block v (List.mem_of_mem_take hv))
    have hargs := convertOperands_spec (f := f) hsup (inst.operands.take inst.numArgOperands)
    rw [hnoblock, hvals] at hargs
    unfold convertCall
    apply Keeps.bind (hargs.conseq (fun _ _ _ d hd => absurd hd List.not_mem_nil)
      (fun _ _ _ h => h.1) (Missing.mono fun v hv => by
        rw [huses, hreads]
        exact List.mem_append_left _ hv))
    rintro ⟨args, _⟩
    have hnew : ∀ kind, inst.callee.reads = [] → Keeps (ConstInv f) ConstsOnly
        (fun cctx => Mapped cctx (inst.operands.take inst.numArgOperands) args)
        (newOp kind args) (Converted f src inst) (Missing (f.uses src inst)) := by
      intro kind hempty
      apply (newOp_spec (mapped_stable _ args)).conseq (fun _ _ h => h) ?_ (fun _ h => h)
      intro op cctx _ h
      apply hdone op cctx h.1
      rw [hreads, hempty, List.append_nil]
      exact h.2.isSome
    cases hcallee : inst.callee with
    | inlineAsm => exact hnew _ (by rw [hcallee]; rfl)
    | function name intrinsic =>
        cases intrinsic with
        | true => exact hnew _ (by rw [hcallee]; rfl)
        | false => exact hnew _ (by rw [hcallee]; rfl)
    | value callee =>
        have hcalleeReads : inst.callee.reads = [callee] := by
          rw [hcallee]
          rfl
        obtain ⟨hnoblock', hvals'⟩ := hnone [callee] (hcalleeReads ▸ hplain.callee_no_block)
        have hconv := convertOperands_spec (f := f) hsup [callee]
        rw [hnoblock', hvals'] at hconv
        apply Keeps.bind ((hconv.frame (mapped_stable _ args)).conseq
          (fun _ _ h => ⟨fun d hd => absurd hd List.not_mem_nil, h⟩) (fun _ _ _ h => h)
          (Missing.mono fun v hv => by
            rw [huses, hreads, hcalleeReads]
            exact List.mem_append_right _ hv))
        rintro ⟨converted, _⟩
        apply Keeps.of_forall
        rintro s _ ⟨⟨hmapped, _⟩, hargsMapped⟩
        have hlen : 0 < converted.length := by
          rw [← hmapped.length_eq]
          exact Nat.one_pos
        apply Keeps.bind (getOperand_spec (P := fun cctx => Mapped cctx [callee] converted ∧
          Mapped cctx (inst.operands.take inst.numArgOperands) args) hlen |>.conseq ?_
          (fun _ _ _ h => h) (fun _ h => h))
        · intro calleeVal
          apply (newOp_spec ?_).conseq (fun _ _ h => h) ?_ (fun _ h => h)
          · intro cctx cctx' hstep h
            exact ⟨mapped_stable _ _ _ _ hstep h.1, mapped_stable _ _ _ _ hstep h.2⟩
          · intro op cctx _ h
            apply hdone op cctx h.1
            rw [hreads, hcalleeReads]
            intro v hv
            rcases List.mem_append.mp hv with hv | hv
            · exact h.2.2.isSome v hv
            · exact h.2.1.isSome v hv
        · rintro _ _ rfl
          exact ⟨hmapped, hargsMapped⟩
  · -- every other opcode converts all operands before it looks at any
    rw [if_neg hcall]
    have hreads : inst.reads = inst.operands := by
      unfold Instruction.reads
      rw [if_neg hcall]
      exact (hnone inst.operands hplain.no_block).2
    obtain ⟨hnoblock, hvals⟩ := hnone inst.operands hplain.no_block
    have hopds := convertOperands_spec (f := f) hsup inst.operands
    rw [hnoblock, hvals] at hopds
    apply Keeps.bind (hopds.conseq (fun _ _ _ d hd => absurd hd List.not_mem_nil)
      (fun _ _ _ h => h.1) (Missing.mono fun v hv => by
        rw [huses, hreads]
        exact hv))
    rintro ⟨opds, succs⟩
    have hnew : ∀ kind operands indices, Keeps (ConstInv f) ConstsOnly
        (fun cctx => Mapped cctx inst.operands opds)
        (newOp kind operands [] indices) (Converted f src inst) (Missing (f.uses src inst)) := by
      intro kind operands indices
      apply (newOp_spec (mapped_stable _ opds)).conseq (fun _ _ h => h) ?_ (fun _ h => h)
      intro op cctx _ h
      exact hdone op cctx h.1 (hreads ▸ h.2.isSome)
    apply Keeps.of_forall
    intro s _ hs
    have hlen : opds.length = inst.operands.length := hs.length_eq.symm
    have hstart : ∀ s', ConstInv f s' → s' = s → Mapped s' inst.operands opds := by
      rintro s' _ rfl
      exact hs
    rcases hplain.supported with h | ⟨hgep, hne⟩ | ⟨n, hn, hle⟩
    · exact absurd h hcall
    · unfold convertOpcode
      simp only [hgep]
      -- the base is the first operand, and there is one
      cases opds with
      | nil => exact absurd (List.length_eq_zero_iff.mp hlen.symm) hne
      | cons base indices =>
          apply Keeps.get_bind
          intro s' _ hs'
          apply (hnew _ _ _).conseq ?_ (fun _ _ _ h => h) (fun _ h => h)
          rintro _ _ rfl
          exact hs' ▸ hs
    · simp only [convertOpcode_of_numOperands hn]
      -- the operands the opcode indexes are all there
      have hread : Keeps (ConstInv f) ConstsOnly (fun cctx => Mapped cctx inst.operands opds)
          ((List.range n).mapM (getOperand opds)) (fun _ _ => True) (Missing (f.uses src inst)) := by
        apply (Keeps.mapM (V := fun _ _ _ => True) (fun _ _ _ _ _ h => h) (mapped_stable _ opds)
          fun idx hidx => ?_).conseq (fun _ _ h => h) (fun _ _ _ _ => trivial) (fun _ h => h)
        have hidx' : idx < opds.length := by
          rw [hlen]
          exact Nat.lt_of_lt_of_le (List.mem_range.mp hidx) hle
        exact (getOperand_spec hidx').conseq (fun _ _ h => h) (fun _ _ _ _ => trivial)
          (fun _ h => h)
      apply (Keeps.bind (hread.frame (mapped_stable _ opds)) ?_).conseq
        (fun s' hI hs' => ⟨hstart s' hI hs', hstart s' hI hs'⟩) (fun _ _ _ h => h) (fun _ h => h)
      intro operands
      exact (hnew _ _ _).conseq (fun _ _ h => h.2) (fun _ _ _ h => h) (fun _ h => h)

/-- The operands of an instruction are converted. -/
def Ready (inst : Instruction) (opds : List Value) (succs : List Nat)
    (cctx : ConversionContext) : Prop :=
  Mapped cctx (valueOperands inst.operands) opds ∧
    List.Forall₂ (fun d m => cctx.blockMap d = some m) inst.destinations succs

theorem ready_stable (inst : Instruction) (opds : List Value) (succs : List Nat) :
    Stable ConstsOnly (Ready inst opds succs) := by
  intro cctx cctx' h hm
  refine ⟨mapped_stable _ _ _ _ h hm.1, hm.2.imp fun d m hd => ?_⟩
  exact ConstsOnly.blockMap_stable d m _ _ h hd

section Ends

variable {opds : List Value} {succs : List Nat} {P : ConversionContext → Prop}

theorem Instruction.EndsBlock.uses (hends : inst.EndsBlock) :
    f.uses src inst =
      valueOperands inst.operands ++ inst.destinations.flatMap (f.edgeValues src) := by
  unfold Function.uses Instruction.reads
  rw [hends.isTerminator, if_pos rfl, if_neg hends.not_call]

/-- The operation of a terminator, when the arguments for all edges are converted. -/
theorem newOp_edges (opds : List Value) (hends : inst.EndsBlock) (hP : Stable ConstsOnly P)
    {kind : OpKind} {operands : List Value} {edges : List (Nat × List Value)} {indices : List Nat}
    {cases : List Attr} {E : ConversionContext → Prop}
    (h : ∀ cctx, P cctx → Mapped cctx (valueOperands inst.operands) opds ∧
      List.Forall₂ (EdgeTo f src cctx) inst.destinations edges) :
    Keeps (ConstInv f) ConstsOnly P (newOp kind operands edges indices cases)
      (Converted f src inst) E := by
  apply (newOp_spec hP).conseq (fun _ _ h => h) ?_ (fun _ h => h)
  rintro op cctx _ ⟨rfl, hPc⟩
  obtain ⟨hmapped, hedges⟩ := h cctx hPc
  refine ⟨hedges, ?_⟩
  rw [hends.uses]
  intro v hv
  rcases List.mem_append.mp hv with hv | hv
  · exact hmapped.isSome v hv
  · obtain ⟨d, hd, hv⟩ := List.mem_flatMap.mp hv
    obtain ⟨edge, hedge⟩ := exists_of_forall₂ hedges hd
    exact hedge.2.isSome v hv

/-- The arguments for the edge to a destination. -/
theorem edgeArgs_spec (hsup : ∀ c, (f.constants.get c).Supported attrOf c)
    (hends : inst.EndsBlock)
    (hincoming : ∀ d ∈ inst.destinations, ∀ p ∈ f.phis d, (p.incomingFrom src).isSome)
    {d : LLVMBasicBlock} (hd : d ∈ inst.destinations) (hP : Stable ConstsOnly P) :
    Keeps (ConstInv f) ConstsOnly P (convertBranchArgs f attrOf src d)
      (fun args cctx => EdgeArgs f src cctx d args ∧ P cctx) (Missing (f.uses src inst)) := by
  apply (convertBranchArgs_spec hsup (hincoming d hd) hP).conseq (fun _ _ h => h)
    (fun _ _ _ h => h) (Missing.mono fun v hv => ?_)
  rw [hends.uses]
  exact List.mem_append_right _ (List.mem_flatMap.mpr ⟨d, hd, hv⟩)

/-- A terminator without destinations. -/
theorem newOp_noEdges (hends : inst.EndsBlock) (hdests : inst.destinations = []) {kind : OpKind}
    {operands : List Value} :
    Keeps (ConstInv f) ConstsOnly (Ready inst opds succs) (newOp kind operands)
      (Converted f src inst) (Missing (f.uses src inst)) := by
  apply newOp_edges opds hends (ready_stable inst opds succs)
  rintro cctx ⟨hmapped, _⟩
  refine ⟨hmapped, ?_⟩
  rw [hdests]
  exact List.Forall₂.nil

theorem liftExcept_blockOperand {k : Nat} {d : LLVMBasicBlock}
    (hk : inst.operands[k]? = some (.basicBlock d)) :
    liftExcept (blockOperand inst k) = pure d := by
  rw [blockOperand_eq hk]
  rfl

variable (hsup : ∀ c, (f.constants.get c).Supported attrOf c) (hends : inst.EndsBlock)
  (hincoming : ∀ d ∈ inst.destinations, ∀ p ∈ f.phis d, (p.incomingFrom src).isSome)

include hsup hends hincoming

theorem convertUncondBr_spec (hop : inst.opcode = .uncondBr) :
    Keeps (ConstInv f) ConstsOnly (Ready inst opds succs)
      (convertOpcode f attrOf src inst opds succs) (Converted f src inst)
      (Missing (f.uses src inst)) := by
  have hform := hends
  unfold Instruction.EndsBlock at hform
  rw [hop] at hform
  obtain ⟨d, hopds⟩ := hform
  have hdests : inst.destinations = [d] := by
    unfold Instruction.destinations
    rw [hopds]
    rfl
  have hd : d ∈ inst.destinations := hdests ▸ List.mem_singleton_self d
  unfold convertOpcode
  simp only [hop]
  rw [liftExcept_blockOperand (d := d) (by rw [hopds]; rfl), pure_bind]
  apply Keeps.bind (edgeArgs_spec hsup hends hincoming hd (ready_stable inst opds succs))
  intro args
  apply Keeps.of_forall
  rintro s₀ _ ⟨hargs, hready⟩
  have hsuccs := hready.2
  rw [hdests] at hsuccs
  obtain ⟨m, rest, hm, hrest, rfl⟩ := List.forall₂_cons_left_iff.mp hsuccs
  obtain rfl := List.forall₂_nil_left_iff.mp hrest
  show Keeps _ _ _ (newOp (.inst .uncondBr) [] [(m, args)]) _ _
  apply (newOp_edges opds hends
    (Stable.and (edgeArgs_stable f src d args) (ready_stable inst opds [m])) ?_).conseq ?_
    (fun _ _ _ h => h) (fun _ h => h)
  · rintro cctx ⟨hargs, hmapped, hblocks⟩
    refine ⟨hmapped, ?_⟩
    rw [hdests] at hblocks ⊢
    exact List.Forall₂.cons ⟨(List.forall₂_cons.mp hblocks).1, hargs⟩ List.Forall₂.nil
  · rintro _ _ rfl
    exact ⟨hargs, hready⟩

theorem convertCondBr_spec (hop : inst.opcode = .condBr) :
    Keeps (ConstInv f) ConstsOnly (Ready inst opds succs)
      (convertOpcode f attrOf src inst opds succs) (Converted f src inst)
      (Missing (f.uses src inst)) := by
  have hform := hends
  unfold Instruction.EndsBlock at hform
  rw [hop] at hform
  obtain ⟨cond, t, e, hopds, hcond⟩ := hform
  have hdests : inst.destinations = [t, e] := by
    unfold Instruction.destinations
    rw [hopds, List.filterMap_cons_none hcond]
    rfl
  have hvals : valueOperands inst.operands = [cond] := by
    unfold valueOperands
    rw [hopds]
    simp [LLVMValue.isBasicBlock, hcond]
  have ht : t ∈ inst.destinations := by simp [hdests]
  have he : e ∈ inst.destinations := by simp [hdests]
  unfold convertOpcode
  simp only [hop]
  apply Keeps.of_forall
  rintro s₀ _ hready
  have hsuccs := hready.2
  have hmapped := hready.1
  rw [hdests] at hsuccs
  rw [hvals] at hmapped
  obtain ⟨mt, _, _, hsuccs', rfl⟩ := List.forall₂_cons_left_iff.mp hsuccs
  obtain ⟨me, _, _, hsuccs'', rfl⟩ := List.forall₂_cons_left_iff.mp hsuccs'
  obtain rfl := List.forall₂_nil_left_iff.mp hsuccs''
  obtain ⟨mc, _, _, hmapped', rfl⟩ := List.forall₂_cons_left_iff.mp hmapped
  obtain rfl := List.forall₂_nil_left_iff.mp hmapped'
  rw [if_neg (by simp)]
  show Keeps _ _ _ (liftExcept (blockOperand inst 1) >>= _) _ _
  rw [liftExcept_blockOperand (d := t) (by rw [hopds]; rfl), pure_bind]
  apply (Keeps.bind (edgeArgs_spec hsup hends hincoming ht (ready_stable inst [mc] [mt, me]))
    ?_).conseq (fun s' _ (h : s' = s₀) => h ▸ hready) (fun _ _ _ h => h) (fun _ h => h)
  intro targs
  rw [liftExcept_blockOperand (d := e) (by rw [hopds]; rfl), pure_bind]
  apply Keeps.bind (edgeArgs_spec hsup hends hincoming he
    (Stable.and (edgeArgs_stable f src t targs) (ready_stable inst [mc] [mt, me])))
  intro eargs
  show Keeps _ _ _ (newOp (.inst .condBr) [mc] [(mt, targs), (me, eargs)]) _ _
  apply newOp_edges [mc] hends (Stable.and (edgeArgs_stable f src e eargs)
    (Stable.and (edgeArgs_stable f src t targs) (ready_stable inst [mc] [mt, me])))
  rintro cctx ⟨heargs, htargs, hmapped, hblocks⟩
  refine ⟨hmapped, ?_⟩
  rw [hdests] at hblocks ⊢
  obtain ⟨hmt, hblocks⟩ := List.forall₂_cons.mp hblocks
  obtain ⟨hme, _⟩ := List.forall₂_cons.mp hblocks
  exact List.Forall₂.cons ⟨hmt, htargs⟩ (List.Forall₂.cons ⟨hme, heargs⟩ List.Forall₂.nil)

omit hsup hincoming in
theorem convertRet_spec (hop : inst.opcode = .ret) :
    Keeps (ConstInv f) ConstsOnly (Ready inst opds succs)
      (convertOpcode f attrOf src inst opds succs) (Converted f src inst)
      (Missing (f.uses src inst)) := by
  have hform := hends
  unfold Instruction.EndsBlock at hform
  rw [hop] at hform
  unfold convertOpcode
  simp only [hop]
  rcases hform with hopds | ⟨val, hopds, hval⟩
  · have hdests : inst.destinations = [] := by
      unfold Instruction.destinations
      rw [hopds]
      rfl
    rw [if_neg (by rw [hopds]; decide)]
    exact newOp_noEdges hends hdests
  · have hdests : inst.destinations = [] := by
      unfold Instruction.destinations
      rw [hopds, List.filterMap_cons_none hval]
      rfl
    have hvals : valueOperands inst.operands = [val] := by
      unfold valueOperands
      rw [hopds]
      simp [LLVMValue.isBasicBlock, hval]
    rw [if_pos (by rw [hopds]; rfl)]
    apply Keeps.of_forall
    intro s₀ _ hready
    have hlen : 0 < opds.length := by
      rw [← hready.1.length_eq, hvals]
      exact Nat.one_pos
    apply (Keeps.bind (getOperand_spec (P := Ready inst opds succs) hlen) ?_).conseq
      (fun s' _ (h : s' = s₀) => h ▸ hready) (fun _ _ _ h => h) (fun _ h => h)
    intro m
    exact newOp_noEdges hends hdests

omit hsup hincoming in
theorem convertUnreachable_spec (hop : inst.opcode = .unreachable) :
    Keeps (ConstInv f) ConstsOnly (Ready inst opds succs)
      (convertOpcode f attrOf src inst opds succs) (Converted f src inst)
      (Missing (f.uses src inst)) := by
  have hform := hends
  unfold Instruction.EndsBlock at hform
  rw [hop] at hform
  have hdests : inst.destinations = [] := by
    unfold Instruction.destinations
    rw [hform]
    rfl
  unfold convertOpcode
  simp only [hop]
  exact newOp_noEdges hends hdests

/-- What an edge from the `i`-th of `dests` becomes. -/
def EdgeAt (f : Function) (src : LLVMBasicBlock) (dests : List LLVMBasicBlock) (i m : Nat)
    (edge : Nat × List Value) (cctx : ConversionContext) : Prop :=
  ∀ d, dests[i]? = some d → edge.1 = m ∧ EdgeArgs f src cctx d edge.2

omit hsup hends hincoming in
theorem edgeAt_stable (dests : List LLVMBasicBlock) (i m : Nat) (edge : Nat × List Value) :
    Stable ConstsOnly (EdgeAt f src dests i m edge) := by
  intro cctx cctx' h hm d hd
  exact ⟨(hm d hd).1, edgeArgs_stable f src d _ _ _ h (hm d hd).2⟩

omit hsup hends hincoming in
theorem edgesTo_of_edgeAt {cctx : ConversionContext} {dests : List LLVMBasicBlock} {ms : List Nat}
    {edges : List (Nat × List Value)}
    (hblocks : List.Forall₂ (fun d m => cctx.blockMap d = some m) dests ms)
    (hlen : edges.length = dests.length)
    (hedges : ∀ i m edge, ms[i]? = some m → edges[i]? = some edge →
      EdgeAt f src dests i m edge cctx) :
    List.Forall₂ (EdgeTo f src cctx) dests edges := by
  rw [forall₂_iff_getElem?] at hblocks ⊢
  refine ⟨hlen, fun i d edge hd hedge => ?_⟩
  have hi : i < ms.length := by
    rw [hblocks.1]
    exact (List.getElem?_eq_some_iff.mp hd).1
  obtain ⟨heq, hargs⟩ := hedges i ms[i] edge (List.getElem?_eq_getElem hi) hedge d hd
  exact ⟨heq ▸ hblocks.2 i d ms[i] hd (List.getElem?_eq_getElem hi), hargs⟩

theorem convertIndirectBr_spec (hop : inst.opcode = .indirectBr) :
    Keeps (ConstInv f) ConstsOnly (Ready inst opds succs)
      (convertOpcode f attrOf src inst opds succs) (Converted f src inst)
      (Missing (f.uses src inst)) := by
  have hform := hends
  unfold Instruction.EndsBlock at hform
  rw [hop] at hform
  obtain ⟨addr, dests, hopds, haddr⟩ := hform
  have hdests : inst.destinations = dests := by
    unfold Instruction.destinations
    rw [hopds, List.filterMap_cons_none haddr, filterMap_basicBlock]
  unfold convertOpcode
  simp only [hop]
  apply Keeps.of_forall
  intro s₀ _ hready
  have hlen : 0 < opds.length := by
    rw [← hready.1.length_eq, hopds]
    unfold valueOperands
    rw [List.filter_cons_of_pos (by simp [LLVMValue.isBasicBlock, haddr])]
    exact Nat.succ_pos _
  have hsuccs : succs.length = dests.length := hdests ▸ hready.2.length_eq.symm
  apply (Keeps.bind (getOperand_spec (P := Ready inst opds succs) hlen) ?_).conseq
    (fun s' _ (h : s' = s₀) => h ▸ hready) (fun _ _ _ h => h) (fun _ h => h)
  intro maddr
  have hmap := Keeps.mapM (I := ConstInv f) (R := ConstsOnly) (P := Ready inst opds succs)
    (E := Missing (f.uses src inst)) (l := succs.zipIdx)
    (V := fun x edge cctx => EdgeAt f src dests x.2 x.1 edge cctx)
    (f := fun dest => do
      let llvmDest ← liftExcept (blockOperand inst (dest.2 + 1))
      pure (dest.1, ← convertBranchArgs f attrOf src llvmDest))
    (fun x edge => edgeAt_stable dests x.2 x.1 edge) (ready_stable inst opds succs) (by
      rintro ⟨m, i⟩ hx
      have hi : i < dests.length := by
        rw [← hsuccs]
        exact List.snd_lt_of_mem_zipIdx hx
      have hget : inst.operands[i + 1]? = some (.basicBlock dests[i]) := by
        rw [hopds, List.getElem?_cons_succ, List.getElem?_map, List.getElem?_eq_getElem hi]
        rfl
      simp only [liftExcept_blockOperand hget, pure_bind]
      apply Keeps.bind (edgeArgs_spec hsup hends hincoming
        (by rw [hdests]; exact List.getElem_mem hi) (ready_stable inst opds succs))
      intro args
      apply Keeps.pure
      rintro cctx _ ⟨hargs, _⟩ d hd
      obtain rfl := Option.some.inj ((List.getElem?_eq_getElem hi).symm.trans hd)
      exact ⟨rfl, hargs⟩)
  apply Keeps.bind ((hmap.frame (ready_stable inst opds succs)).conseq (fun _ _ h => ⟨h, h⟩)
    (fun _ _ _ h => h) (fun _ h => h))
  intro edges
  apply newOp_edges opds hends (Stable.and ?_ (ready_stable inst opds succs))
  · rintro cctx ⟨hedges, hmapped, hblocks⟩
    refine ⟨hmapped, ?_⟩
    rw [hdests] at hblocks ⊢
    rw [forall₂_iff_getElem?, List.length_zipIdx] at hedges
    apply edgesTo_of_edgeAt hblocks (hedges.1.trans hsuccs)
    intro i m edge hm hedge
    exact hedges.2 i (m, i) edge (by rw [List.getElem?_zipIdx, hm]; simp) hedge
  · intro cctx cctx' h hm
    exact hm.imp fun x edge hx => edgeAt_stable dests x.2 x.1 edge _ _ h hx

/-- The values of the cases are integer constants. -/
def CaseValues (vals : List Value) (cctx : ConversionContext) : Prop :=
  ∀ m ∈ vals, (getConstOpAsInt cctx m).isSome

omit hsup hends hincoming in
theorem isInt_stable (m : Value) :
    Stable ConstsOnly (fun cctx => (getConstOpAsInt cctx m).isSome) := by
  intro cctx cctx' h hm
  obtain ⟨more, hmore⟩ := h.constants
  exact getConstOpAsInt_append hmore hm

omit hsup hends hincoming in
theorem caseValues_stable (vals : List Value) : Stable ConstsOnly (CaseValues vals) :=
  fun cctx cctx' h hm m hmem => isInt_stable m cctx cctx' h (hm m hmem)

omit hends hincoming in
theorem caseValues_spec (hcases : ∀ v ∈ inst.caseValues, ∃ c width value,
      v = .constant c ∧ f.constants.get c = .int width value) {n : Nat}
    (hn : n ≤ inst.caseValues.length) (hP : Stable ConstsOnly P) {E : ConversionContext → Prop} :
    Keeps (ConstInv f) ConstsOnly P
      ((List.range n).mapM (fun caseIdx =>
        match inst.caseValues[caseIdx]? with
        | none => throw .panic
        | some caseValue => do
            processConstant f attrOf (constantFuel caseValue) caseValue
            lookupValue caseValue .switchCaseNonIntConst))
      (fun vals cctx => (vals.length = n ∧ CaseValues vals cctx) ∧ P cctx)
      E := by
  have hmap := Keeps.mapM (I := ConstInv f) (R := ConstsOnly) (P := fun _ => True)
    (E := E) (l := List.range n)
    (V := fun _ m cctx => (getConstOpAsInt cctx m).isSome)
    (f := fun caseIdx =>
      match inst.caseValues[caseIdx]? with
      | none => throw .panic
      | some caseValue => do
          processConstant f attrOf (constantFuel caseValue) caseValue
          lookupValue caseValue .switchCaseNonIntConst)
    (fun _ m => isInt_stable m) (fun _ _ _ h => h) (by
      intro i hi
      have hi' : i < inst.caseValues.length := Nat.lt_of_lt_of_le (List.mem_range.mp hi) hn
      obtain ⟨c, width, value, hc, hget⟩ := hcases _ (List.getElem_mem hi')
      rw [List.getElem?_eq_getElem hi']
      simp only [hc]
      apply Keeps.bind (constsOnly_of_process hsup c)
      intro _
      apply lookupValue_spec.conseq (fun _ _ h => h) ?_ (fun _ h => h)
      intro m cctx hinv hm
      exact hinv.ints c width value m hget hm)
  apply (hmap.frame hP).conseq (fun _ _ h => ⟨trivial, h⟩) ?_ (fun _ h => h)
  intro vals cctx _ h
  refine ⟨⟨?_, ?_⟩, h.2⟩
  · rw [← h.1.length_eq, List.length_range]
  · intro m hm
    obtain ⟨i, hi⟩ := exists_of_forall₂ h.1.flip hm
    exact hi

/-- One case of a switch. -/
theorem caseEdge_spec {cond : LLVMValue} {dflt : LLVMBasicBlock} {dests : List LLVMBasicBlock}
    (hopds : inst.operands = cond :: .basicBlock dflt :: dests.map .basicBlock)
    (hdests : inst.destinations = dflt :: dests) {mdflt : Nat} {ms : List Nat}
    (hlen : ms.length = dests.length) {vals : List Value} {val : Value} {m i : Nat}
    (hx : ((val, m), i) ∈ (vals.zip ms).zipIdx) :
    Keeps (ConstInv f) ConstsOnly
      (fun cctx => CaseValues vals cctx ∧ Ready inst opds (mdflt :: ms) cctx)
      (do
        match getConstOpAsInt (← get) val with
        | none => throw .switchCaseNotInteger
        | some value => do
            let llvmDest ← liftExcept (blockOperand inst (2 + i))
            if (← get).blockMap llvmDest ≠ some m then throw .panic
            let caseArgs ← convertBranchArgs f attrOf src llvmDest
            pure (value, m, caseArgs))
      (fun edge cctx => EdgeAt f src dests i m edge.2 cctx) (Missing (f.uses src inst)) := by
  have hpair := List.mem_zipIdx_iff_getElem?.mp hx
  rw [List.getElem?_zip_eq_some] at hpair
  obtain ⟨hval, hm⟩ := hpair
  have hi : i < dests.length := hlen ▸ (List.getElem?_eq_some_iff.mp hm).1
  have hget : inst.operands[2 + i]? = some (.basicBlock dests[i]) := by
    rw [hopds, Nat.add_comm 2 i, List.getElem?_cons_succ, List.getElem?_cons_succ,
      List.getElem?_map, List.getElem?_eq_getElem hi]
    rfl
  apply Keeps.get_bind
  rintro s _ ⟨hvals, hready⟩
  obtain ⟨value, hvalue⟩ := Option.isSome_iff_exists.mp (hvals val (List.mem_of_getElem? hval))
  simp only [hvalue, liftExcept_blockOperand hget, pure_bind]
  apply Keeps.get_bind
  rintro s' _ rfl
  have hblock : s'.blockMap dests[i] = some m := by
    have hblocks := hready.2
    rw [hdests] at hblocks
    obtain ⟨_, hblocks⟩ := List.forall₂_cons.mp hblocks
    exact (forall₂_iff_getElem?.mp hblocks).2 i dests[i] m (List.getElem?_eq_getElem hi) hm
  rw [if_neg (not_not_intro hblock)]
  apply (Keeps.bind (edgeArgs_spec hsup hends hincoming (P := fun _ => True)
    (by rw [hdests]; exact List.mem_cons_of_mem _ (List.getElem_mem hi)) (fun _ _ _ h => h))
    ?_).conseq (fun _ _ _ => trivial) (fun _ _ _ h => h) (fun _ h => h)
  intro args
  apply Keeps.pure
  rintro cctx _ ⟨hargs, _⟩ d hd
  obtain rfl := Option.some.inj ((List.getElem?_eq_getElem hi).symm.trans hd)
  exact ⟨rfl, hargs⟩

theorem convertSwitch_spec (hop : inst.opcode = .switch)
    (hcases : ∀ v ∈ inst.caseValues, ∃ c width value,
      v = .constant c ∧ f.constants.get c = .int width value) :
    Keeps (ConstInv f) ConstsOnly (Ready inst opds succs)
      (convertOpcode f attrOf src inst opds succs) (Converted f src inst)
      (Missing (f.uses src inst)) := by
  have hform := hends
  unfold Instruction.EndsBlock at hform
  rw [hop] at hform
  obtain ⟨cond, dflt, dests, hopds, hcond, hvalues⟩ := hform
  have hdests : inst.destinations = dflt :: dests := by
    unfold Instruction.destinations
    rw [hopds, List.filterMap_cons_none hcond,
      List.filterMap_cons_some (LLVMValue.asBasicBlock?_basicBlock dflt), filterMap_basicBlock]
  unfold convertOpcode
  simp only [hop]
  unfold convertSwitch
  apply Keeps.of_forall
  intro s₀ _ hready
  have hlen : 0 < opds.length := by
    rw [← hready.1.length_eq, hopds]
    unfold valueOperands
    rw [List.filter_cons_of_pos (by simp [LLVMValue.isBasicBlock, hcond])]
    exact Nat.succ_pos _
  -- the default block comes first, then one block for each case
  have hblocks := hready.2
  rw [hdests] at hblocks
  obtain ⟨mdflt, ms, hmdflt, hms, rfl⟩ := List.forall₂_cons_left_iff.mp hblocks
  have hmsLen : ms.length = dests.length := hms.length_eq.symm
  apply (Keeps.bind (getOperand_spec (P := Ready inst opds (mdflt :: ms)) hlen) ?_).conseq
    (fun s' _ (h : s' = s₀) => h ▸ hready) (fun _ _ _ h => h) (fun _ h => h)
  intro mcond
  apply Keeps.bind (caseValues_spec hsup hcases (by rw [hmsLen, hvalues])
    (ready_stable inst opds (mdflt :: ms)))
  intro vals
  apply Keeps.of_forall
  rintro s₁ _ ⟨⟨hvalsLen, hvals⟩, hready'⟩
  have hP := Stable.and (caseValues_stable vals) (ready_stable inst opds (mdflt :: ms))
  -- the edges of the cases, each with the block and the arguments of its own
  have hmap := Keeps.mapM (I := ConstInv f) (R := ConstsOnly)
    (P := fun cctx => CaseValues vals cctx ∧ Ready inst opds (mdflt :: ms) cctx)
    (E := Missing (f.uses src inst)) (l := (vals.zip ms).zipIdx)
    (V := fun x edge cctx => EdgeAt f src dests x.2 x.1.2 edge.2 cctx)
    (f := fun case => do
      match getConstOpAsInt (← get) case.1.1 with
      | none => throw .switchCaseNotInteger
      | some value => do
          let llvmDest ← liftExcept (blockOperand inst (2 + case.2))
          if (← get).blockMap llvmDest ≠ some case.1.2 then throw .panic
          let caseArgs ← convertBranchArgs f attrOf src llvmDest
          pure (value, case.1.2, caseArgs))
    (fun x edge => edgeAt_stable dests x.2 x.1.2 edge.2) hP (by
      rintro ⟨⟨val, m⟩, i⟩ hx
      exact caseEdge_spec hsup hends hincoming hopds hdests hmsLen hx)
  apply (Keeps.bind ((hmap.frame hP).conseq (fun _ _ h => ⟨h, h⟩) (fun _ _ _ h => h)
    (fun _ h => h)) ?_).conseq (fun s' _ (h : s' = s₁) => h ▸ ⟨hvals, hready'⟩)
    (fun _ _ _ h => h) (fun _ h => h)
  intro cases
  -- then the edge to the default block
  rw [liftExcept_blockOperand (d := dflt) (by rw [hopds]; rfl), pure_bind]
  have hcasesStable : Stable ConstsOnly (fun cctx => List.Forall₂ (fun x edge =>
      EdgeAt f src dests x.2 x.1.2 edge.2 cctx) (vals.zip ms).zipIdx cases) :=
    fun cctx cctx' h hm => hm.imp fun x edge hx =>
      edgeAt_stable dests x.2 x.1.2 edge.2 _ _ h hx
  have hP' := Stable.and hcasesStable hP
  apply Keeps.bind (edgeArgs_spec hsup hends hincoming
    (by rw [hdests]; exact List.mem_cons_self) hP')
  intro dfltArgs
  apply newOp_edges opds hends (Stable.and (edgeArgs_stable f src dflt dfltArgs) hP')
  rintro cctx ⟨hdfltArgs, hedges, _, hmapped, hblocks⟩
  refine ⟨hmapped, ?_⟩
  rw [hdests] at hblocks ⊢
  obtain ⟨hmdflt, hblocks⟩ := List.forall₂_cons.mp hblocks
  have hzipLen : (vals.zip ms).length = dests.length := by
    rw [List.length_zip, hvalsLen, Nat.min_self, hmsLen]
  rw [forall₂_iff_getElem?, List.length_zipIdx] at hedges
  apply List.Forall₂.cons ⟨hmdflt, hdfltArgs⟩
  apply edgesTo_of_edgeAt hblocks
  · rw [List.length_map, hedges.1, hzipLen]
  · intro i m edge hm hedge
    rw [List.getElem?_map] at hedge
    obtain ⟨edge', hedge', rfl⟩ := Option.map_eq_some_iff.mp hedge
    have hi : i < vals.length := by
      rw [hvalsLen]
      exact (List.getElem?_eq_some_iff.mp hm).1
    have hzip : (vals.zip ms)[i]? = some (vals[i], m) :=
      List.getElem?_zip_eq_some.mpr ⟨List.getElem?_eq_getElem hi, hm⟩
    exact hedges.2 i ((vals[i], m), i) edge' (by rw [List.getElem?_zipIdx, hzip]; simp) hedge'

end Ends

/-- A terminator. -/
theorem convertEnds_spec (hsup : ∀ c, (f.constants.get c).Supported attrOf c)
    (hends : inst.EndsBlock)
    (hcases : inst.opcode = .switch → ∀ v ∈ inst.caseValues, ∃ c width value,
      v = .constant c ∧ f.constants.get c = .int width value)
    (hincoming : ∀ d ∈ inst.destinations, ∀ p ∈ f.phis d, (p.incomingFrom src).isSome) :
    Keeps (ConstInv f) ConstsOnly
      (fun cctx => ∀ d ∈ inst.destinations, ∃ m, cctx.blockMap d = some m)
      (convertInstruction f attrOf src inst) (Converted f src inst)
      (Missing (f.uses src inst)) := by
  unfold convertInstruction
  rw [if_neg hends.not_call]
  apply Keeps.bind ((convertOperands_spec hsup inst.operands).conseq (fun _ _ h => h)
    (fun _ _ _ h => h) (Missing.mono fun v hv => by
      rw [hends.uses]
      exact List.mem_append_left _ hv))
  rintro ⟨opds, succs⟩
  show Keeps _ _ (Ready inst opds succs) _ _ _
  have hform := hends
  unfold Instruction.EndsBlock at hform
  split at hform
  · next hop => exact convertUncondBr_spec hsup hends hincoming hop
  · next hop => exact convertCondBr_spec hsup hends hincoming hop
  · next hop => exact convertSwitch_spec hsup hends hincoming hop (hcases hop)
  · next hop => exact convertIndirectBr_spec hsup hends hincoming hop
  · next hop => exact convertRet_spec hends hop
  · next hop => exact convertUnreachable_spec hends hop
  · exact hform.elim

end Instructions

end Pliron.FromLlvm
