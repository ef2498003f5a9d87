/-
  Pliron.LLVM.FromLlvmRuns

  Whole runs of the import: a block's instructions one after the other, and a function's blocks in
  the order given.

  The import of a valid function ends with the IR for it exactly when, in that order, every value
  is defined before its uses.
-/

import Pliron.LLVM.FromLlvmSpec

namespace Pliron.FromLlvm

open Lib

/-! ## Progress -/

/-- Instruction `j` of block `d` comes before instruction `i` of block `b`, when the blocks `pre`
    come before `b`. -/
def Seen (pre : List LLVMBasicBlock) (b : LLVMBasicBlock) (i : Nat) (d : LLVMBasicBlock)
    (j : Nat) : Prop :=
  d ∈ pre ∨ (d = b ∧ j < i)

/-- All values that an instruction uses are defined before it. -/
def UsesSeen (f : Function) (pre : List LLVMBasicBlock) (b : LLVMBasicBlock) (i : Nat)
    (inst : Instruction) : Prop :=
  ∀ d j, .instruction d j ∈ f.uses b inst → Seen pre b i d j

/-- All values that the instructions of a block use are defined before them. -/
def BlockSeen (f : Function) (pre : List LLVMBasicBlock) (b : LLVMBasicBlock) : Prop :=
  ∀ (i : Nat) (inst : Instruction), (f.instructions b)[i]? = some inst → inst.opcode ≠ .phi →
    UsesSeen f pre b i inst

/-- In this order of the blocks, all values are defined before their uses. -/
def OrderSeen (f : Function) (order : List LLVMBasicBlock) : Prop :=
  ∀ pre b post, order = pre ++ b :: post → BlockSeen f pre b

/-- What is mapped before instruction `i` of block `b`. -/
structure Progress (f : Function) (pre : List LLVMBasicBlock) (b : LLVMBasicBlock) (i : Nat)
    (cctx : ConversionContext) : Prop where
  arguments : ∀ k < f.numParams, (cctx.valueMap (.argument k)).isSome
  mapped : ∀ (d : LLVMBasicBlock) (j : Nat), (cctx.valueMap (.instruction d j)).isSome ↔
    Seen pre b i d j ∧ ∃ inst : Instruction, (f.instructions d)[j]? = some inst ∧ inst.hasResult

/-- Only block `m` was worked on. -/
structure LaterIn (m : Nat) (cctx cctx' : ConversionContext) : Prop where
  blockMap : cctx'.blockMap = cctx.blockMap
  blocks : ∀ m', m' ≠ m → cctx'.blocks m' = cctx.blocks m'
  grows : ∀ v val, cctx.valueMap v = some val → cctx'.valueMap v = some val

namespace LaterIn

variable {m : Nat} {cctx cctx' cctx'' : ConversionContext}

theorem refl (m : Nat) (cctx : ConversionContext) : LaterIn m cctx cctx :=
  ⟨rfl, fun _ _ => rfl, fun _ _ h => h⟩

theorem trans (h : LaterIn m cctx cctx') (h' : LaterIn m cctx' cctx'') :
    LaterIn m cctx cctx'' where
  blockMap := h'.blockMap.trans h.blockMap
  blocks := fun m' hm' => (h'.blocks m' hm').trans (h.blocks m' hm')
  grows := fun v val hv => h'.grows v val (h.grows v val hv)

instance : Std.Refl (LaterIn m) := ⟨refl m⟩

instance : IsTrans ConversionContext (LaterIn m) := ⟨fun _ _ _ => trans⟩

theorem of_constsOnly (h : ConstsOnly cctx cctx') : LaterIn m cctx cctx' :=
  ⟨h.blockMap, fun m' _ => congrFun h.blocks m', h.grows⟩

end LaterIn

theorem edgeTo_grows {f : Function} {src dst : LLVMBasicBlock} {succ : Nat × List Value}
    {cctx cctx' : ConversionContext} (hblocks : cctx'.blockMap = cctx.blockMap)
    (hgrows : ∀ v m, cctx.valueMap v = some m → cctx'.valueMap v = some m)
    (h : EdgeTo f src cctx dst succ) : EdgeTo f src cctx' dst succ := by
  refine ⟨by rw [hblocks]; exact h.1, h.2.imp ?_⟩
  rintro p m ⟨val, hval, hv⟩
  exact ⟨val, hval, hgrows val m hv⟩

section Steps

variable {f : Function} {attrOf : AttrOf} {pre : List LLVMBasicBlock} {b : LLVMBasicBlock}
  {i m n : Nat} {ops : List Operation} {inst : Instruction}

/-- One more instruction is mapped. -/
theorem Progress.step {cctx cctx' : ConversionContext} (h : Progress f pre b i cctx)
    (hb : b ∉ pre) (hinst : (f.instructions b)[i]? = some inst)
    (hself : (cctx'.valueMap (.instruction b i)).isSome ↔ inst.hasResult)
    (hother : ∀ v, v ≠ .instruction b i → (∀ c, v ≠ .constant c) →
      cctx'.valueMap v = cctx.valueMap v) : Progress f pre b (i + 1) cctx' where
  arguments := fun k hk => by
    rw [hother (.argument k) nofun nofun]
    exact h.arguments k hk
  mapped := fun d j => by
    by_cases heq : d = b ∧ j = i
    · obtain ⟨rfl, rfl⟩ := heq
      rw [hself]
      constructor
      · intro hres
        exact ⟨Or.inr ⟨rfl, Nat.lt_succ_self j⟩, inst, hinst, hres⟩
      · rintro ⟨_, inst', hinst', hres⟩
        obtain rfl := Option.some.inj (hinst.symm.trans hinst')
        exact hres
    · have hne : LLVMValue.instruction d j ≠ .instruction b i := by
        intro hv
        injection hv with hd hj
        exact heq ⟨hd, hj⟩
      rw [hother _ hne nofun, h.mapped]
      apply and_congr_left
      intro _
      unfold Seen
      apply or_congr_right
      constructor
      · exact fun ⟨hd, hj⟩ => ⟨hd, Nat.lt_succ_of_lt hj⟩
      · rintro ⟨hd, hj⟩
        exact ⟨hd, Nat.lt_of_le_of_ne (Nat.le_of_lt_succ hj) fun hji => heq ⟨hd, hji⟩⟩

theorem Progress.unmapped {cctx : ConversionContext} (h : Progress f pre b i cctx) (hb : b ∉ pre) :
    cctx.valueMap (.instruction b i) = none := by
  rw [← Option.not_isSome_iff_eq_none, h.mapped]
  rintro ⟨hpre | ⟨_, hlt⟩, _⟩
  · exact hb hpre
  · exact Nat.lt_irrefl i hlt

/-- Inserting a value that is not mapped. -/
theorem insert_grows {cctx : ConversionContext} {v : LLVMValue} {val : Value}
    (hnone : cctx.valueMap v = none) (v' : LLVMValue) (val' : Value)
    (h : cctx.valueMap v' = some val') : cctx.valueMap.insert v val v' = some val' := by
  have hne : v' ≠ v := by
    rintro rfl
    exact nomatch hnone.symm.trans h
  rw [HMap.insert_of_ne hne, h]

theorem insert_constant (cctx : ConversionContext) (b : LLVMBasicBlock) (i : Nat) (val : Value)
    (c : Nat) : cctx.valueMap.insert (.instruction b i) val (.constant c) =
      cctx.valueMap (.constant c) :=
  HMap.insert_of_ne (by simp)

/-- The invariant of the constants is about the constants only. -/
theorem ConstInv.of_eq {cctx cctx' : ConversionContext} (hinv : ConstInv f cctx)
    (hconstants : cctx'.constants = cctx.constants) (hnext : cctx'.nextOp = cctx.nextOp)
    (hmap : ∀ c, cctx'.valueMap (.constant c) = cctx.valueMap (.constant c)) :
    ConstInv f cctx' where
  fresh := by
    rw [hconstants, hnext]
    exact hinv.fresh
  ints := fun c width value val hget hval => by
    rw [hmap] at hval
    exact getConstOpAsInt_append (by rw [hconstants, List.append_nil])
      (hinv.ints c width value val hget hval)

/-- A PHI becomes an argument. -/
theorem convertPhi_spec (hb : b ∉ pre) (hinst : (f.instructions b)[i]? = some inst)
    (hphi : inst.opcode = .phi) (hres : inst.hasResult) {E : ConversionContext → Prop} :
    Keeps (ConstInv f) (LaterIn m)
      (fun cctx => Progress f pre b i cctx ∧ cctx.blocks m = ⟨n, ops⟩)
      (convertBlockInst f attrOf b m inst i)
      (fun _ cctx => Progress f pre b (i + 1) cctx ∧ cctx.blocks m = ⟨n + 1, ops⟩ ∧
        cctx.valueMap (.instruction b i) = some (.blockArgument m n)) E := by
  unfold convertBlockInst
  rw [if_pos hphi]
  apply Keeps.of_run
  rintro cctx hinv ⟨hprogress, hblock⟩
  have hnone := hprogress.unmapped hb
  refine ⟨hinv.of_eq rfl rfl
    (insert_constant cctx b i (.blockArgument m (cctx.blocks m).numArguments)),
    ⟨rfl, ?_, insert_grows hnone⟩, ?_, ?_, ?_⟩
  · intro m' hm'
    exact Function.update_of_ne hm' _ _
  · apply hprogress.step hb hinst
    · exact iff_of_true (by simp [HMap.insert_self]) hres
    · intro v hne _
      exact HMap.insert_of_ne hne
  · show Function.update _ _ _ m = _
    rw [Function.update_self, hblock]
  · show cctx.valueMap.insert _ _ _ = _
    rw [HMap.insert_self, hblock]

/-- What the conversion of an instruction needs of a function, and of the instruction. -/
structure Convertible (f : Function) (attrOf : AttrOf) (b : LLVMBasicBlock)
    (inst : Instruction) : Prop where
  constants : ∀ c, (f.constants.get c).Supported attrOf c
  form : inst.Plain ∨ inst.EndsBlock
  caseValues : inst.opcode = .switch → ∀ v ∈ inst.caseValues, ∃ c width value : Nat,
    v = .constant c ∧ f.constants.get c = .int width value
  incoming : ∀ d ∈ inst.destinations, ∀ p ∈ f.phis d, (p.incomingFrom b).isSome
  exist : ∀ v ∈ f.uses b inst, f.Exists v

theorem Convertible.not_phi (h : Convertible f attrOf b inst) : inst.opcode ≠ .phi := by
  rcases h.form with hplain | hends
  · exact hplain.not_phi
  · exact hends.not_phi

theorem Convertible.convertInstruction_spec (h : Convertible f attrOf b inst) :
    Keeps (ConstInv f) ConstsOnly
      (fun cctx => ∀ d ∈ inst.destinations, ∃ m, cctx.blockMap d = some m)
      (convertInstruction f attrOf b inst) (Converted f b inst) (Missing (f.uses b inst)) := by
  rcases h.form with hplain | hends
  · exact (convertPlain_spec h.constants hplain).conseq (fun _ _ _ => trivial)
      (fun _ _ _ h => h) (fun _ h => h)
  · exact convertEnds_spec h.constants hends h.caseValues h.incoming

/-- What is missing when the conversion fails was not seen. -/
theorem Progress.not_usesSeen {cctx cctx' : ConversionContext} (h : Progress f pre b i cctx)
    (hexist : ∀ v ∈ f.uses b inst, f.Exists v) (hstep : ConstsOnly cctx cctx')
    (hmissing : Missing (f.uses b inst) cctx') : ¬ UsesSeen f pre b i inst := by
  obtain ⟨v, hv, hnot, hnone⟩ := hmissing
  rw [hstep.other v hnot] at hnone
  intro hseen
  have hvexists := hexist v hv
  cases v with
  | constant c => exact hnot c rfl
  | argument k =>
      have := h.arguments k hvexists
      rw [hnone] at this
      exact Bool.false_ne_true this
  | instruction d j =>
      have := (h.mapped d j).mpr ⟨hseen d j hv, hvexists.2⟩
      rw [hnone] at this
      exact Bool.false_ne_true this
  | basicBlock d => exact hvexists

/-- What is used by a converted instruction was seen. -/
theorem Progress.usesSeen {cctx cctx' : ConversionContext} (h : Progress f pre b i cctx)
    (hstep : ConstsOnly cctx cctx')
    (hmapped : ∀ v ∈ f.uses b inst, (cctx'.valueMap v).isSome) : UsesSeen f pre b i inst := by
  intro d j hv
  have hisSome := hmapped _ hv
  rw [hstep.other (.instruction d j) nofun] at hisSome
  exact ((h.mapped d j).mp hisSome).1

/-- Any other instruction becomes an operation, unless it uses what was not seen. -/
theorem convertOther_spec (hconv : Convertible f attrOf b inst) (hb : b ∉ pre)
    (hinst : (f.instructions b)[i]? = some inst) :
    Keeps (ConstInv f) (LaterIn m)
      (fun cctx => (Progress f pre b i cctx ∧ cctx.blocks m = ⟨n, ops⟩) ∧
        ∀ d ∈ inst.destinations, ∃ m', cctx.blockMap d = some m')
      (convertBlockInst f attrOf b m inst i)
      (fun _ cctx => Progress f pre b (i + 1) cctx ∧ UsesSeen f pre b i inst ∧
        ∃ op, cctx.blocks m = ⟨n, ops ++ [op]⟩ ∧
          List.Forall₂ (EdgeTo f b cctx) inst.destinations op.successors)
      (fun _ => ¬ UsesSeen f pre b i inst) := by
  unfold convertBlockInst
  rw [if_neg hconv.not_phi]
  apply Keeps.of_forall
  rintro s₀ _ ⟨⟨hprogress, hblock⟩, hdests⟩
  have hconvert := ((hconv.convertInstruction_spec.conseq (S := fun s => s = s₀)
    (fun s' _ (h : s' = s₀) => h ▸ hdests) (fun _ _ _ h => h) (fun _ h => h)).later).weaken
    (fun _ _ h => LaterIn.of_constsOnly (m := m) h)
  apply Keeps.bind (hconvert.conseq (fun _ _ h => h) (fun _ _ _ h => h)
    (fun s hs => hprogress.not_usesSeen hconv.exist hs.2 hs.1))
  intro op
  apply Keeps.of_run
  rintro s₁ hinv ⟨⟨hedges, hmapped⟩, hstep⟩
  have hseen := hprogress.usesSeen hstep hmapped
  have hblock₁ : s₁.blocks m = ⟨n, ops⟩ := (congrFun hstep.blocks m).trans hblock
  have hnone : s₁.valueMap (.instruction b i) = none :=
    (hstep.other (.instruction b i) nofun).trans (hprogress.unmapped hb)
  -- the operation is appended, and its result is mapped when it has one
  by_cases hres : inst.hasResult
  · rw [if_pos hres]
    refine ⟨hinv.of_eq rfl rfl (insert_constant s₁ b i (.opResult op.id)),
      ⟨rfl, ?_, insert_grows hnone⟩, ?_, hseen, op, ?_, ?_⟩
    · intro m' hm'
      exact Function.update_of_ne hm' _ _
    · apply hprogress.step hb hinst
      · exact iff_of_true (by simp [HMap.insert_self]) hres
      · intro v hne hnot
        exact (HMap.insert_of_ne hne).trans (hstep.other v hnot)
    · show Function.update _ _ _ m = _
      rw [Function.update_self, hblock₁]
    · apply hedges.imp
      intro d succ hd
      refine edgeTo_grows ?_ ?_ hd
      · rfl
      · exact insert_grows hnone
  · rw [if_neg hres]
    refine ⟨hinv.of_eq rfl rfl fun _ => rfl, ⟨rfl, ?_, fun _ _ h => h⟩, ?_, hseen, op, ?_, hedges⟩
    · intro m' hm'
      exact Function.update_of_ne hm' _ _
    · apply hprogress.step hb hinst
      · apply iff_of_false _ hres
        show ¬ (s₁.valueMap (.instruction b i)).isSome
        rw [hnone]
        exact Bool.false_ne_true
      · exact fun v _ hnot => hstep.other v hnot
    · show Function.update _ _ _ m = _
      rw [Function.update_self, hblock₁]

end Steps

/-! ## Blocks -/

/-- A block of the IR is what its block in LLVM is: each PHI is an argument, and each edge passes
    what the PHIs at its end have for it. -/
structure BlockDone (f : Function) (b : LLVMBasicBlock) (m n : Nat) (cctx : ConversionContext) :
    Prop where
  numArguments : (cctx.blocks m).numArguments = n + (f.phis b).length
  phis : ∀ (k : Nat) (p : Instruction), (f.phis b)[k]? = some p →
    cctx.valueMap (.instruction b k) = some (.blockArgument m (n + k))
  terminator : ∃ ops op, (cctx.blocks m).ops = ops ++ [op] ∧
    List.Forall₂ (EdgeTo f b cctx) (f.destinations b) op.successors

/-- Between two instructions of a block, when `k` are converted. -/
structure InBlock (f : Function) (pre : List LLVMBasicBlock) (b : LLVMBasicBlock) (m n k : Nat)
    (cctx : ConversionContext) : Prop where
  progress : Progress f pre b k cctx
  dests : ∀ d ∈ f.destinations b, ∃ m', cctx.blockMap d = some m'
  seen : ∀ (i : Nat) (inst : Instruction), i < k → (f.instructions b)[i]? = some inst →
    inst.opcode ≠ .phi → UsesSeen f pre b i inst
  numArguments : (cctx.blocks m).numArguments = n + min k (f.phis b).length
  phis : ∀ (i : Nat) (p : Instruction), i < k → (f.phis b)[i]? = some p →
    cctx.valueMap (.instruction b i) = some (.blockArgument m (n + i))
  last : ∀ (i : Nat) (inst : Instruction), k = i + 1 → (f.instructions b)[i]? = some inst →
    inst.opcode ≠ .phi → ∃ ops op, (cctx.blocks m).ops = ops ++ [op] ∧
      List.Forall₂ (EdgeTo f b cctx) inst.destinations op.successors

section Blocks

variable {f : Function} {attrOf : AttrOf} {pre : List LLVMBasicBlock} {b : LLVMBasicBlock}
  {i m n : Nat} {inst : Instruction}

theorem Instruction.Plain.destinations (h : inst.Plain) : inst.destinations = [] :=
  List.filterMap_eq_nil_iff.mpr h.no_block

theorem Function.Valid.phis_eq (hvalid : f.Valid attrOf) (hb : b ∈ f.blocks) :
    ∃ (body : List Instruction) (term : Instruction),
      f.instructions b = f.phis b ++ (body ++ [term]) ∧
      (∀ p ∈ f.phis b, p.opcode = .phi ∧ p.hasResult) ∧ (∀ inst ∈ body, inst.Plain) ∧
      term.EndsBlock ∧ f.destinations b = term.destinations := by
  obtain ⟨phis, body, term, hinsts, hphis, hbody, hends, _⟩ := hvalid.block_form b hb
  have hnot : ∀ inst ∈ body ++ [term], inst.opcode ≠ .phi := by
    intro inst hinst
    rcases List.mem_append.mp hinst with hinst | hinst
    · exact (hbody inst hinst).not_phi
    · rw [List.mem_singleton.mp hinst]
      exact hends.not_phi
  have htake : f.phis b = phis := by
    unfold Function.phis
    rw [hinsts, List.append_assoc, List.takeWhile_append_of_pos (by
      intro p hp
      simpa using (hphis p hp).1)]
    have hnil : (body ++ [term]).takeWhile (·.opcode = .phi) = [] := by
      cases hrest : body ++ [term] with
      | nil => rfl
      | cons inst rest =>
          rw [List.takeWhile_cons_of_neg]
          simpa using hnot inst (hrest ▸ List.mem_cons_self)
    rw [hnil, List.append_nil]
  refine ⟨body, term, by rw [htake, hinsts, List.append_assoc], htake ▸ hphis, hbody, hends, ?_⟩
  obtain ⟨term', hterm', hends'⟩ := hvalid.terminator hb
  have : f.terminator b = some term := by
    unfold Function.terminator
    rw [hinsts, List.getLast?_append, List.getLast?_singleton]
    simp [hends.isTerminator]
  unfold Function.destinations
  rw [this]

/-- Only the terminator of a block has destinations. -/
theorem Function.Valid.destinations_subset (hvalid : f.Valid attrOf) (hb : b ∈ f.blocks)
    (hinst : (f.instructions b)[i]? = some inst) {d : LLVMBasicBlock}
    (hd : d ∈ inst.destinations) (hnot : inst.opcode ≠ .phi) : d ∈ f.destinations b := by
  obtain ⟨body, term, hinsts, hphis, hbody, _, hdests⟩ := hvalid.phis_eq hb
  have hmem := List.mem_of_getElem? hinst
  rw [hinsts, List.mem_append, List.mem_append, List.mem_singleton] at hmem
  rcases hmem with h | h | rfl
  · exact absurd (hphis inst h).1 hnot
  · rw [(hbody inst h).destinations] at hd
    exact absurd hd List.not_mem_nil
  · rw [hdests]
    exact hd

/-- An instruction is a PHI at the start of its block, or can be converted. -/
theorem Function.Valid.instruction_cases (hvalid : f.Valid attrOf) (hb : b ∈ f.blocks)
    (hinst : (f.instructions b)[i]? = some inst) :
    ((f.phis b)[i]? = some inst ∧ inst.opcode = .phi ∧ inst.hasResult) ∨
      ((f.phis b).length ≤ i ∧ Convertible f attrOf b inst) := by
  obtain ⟨body, term, hinsts, hphis, hbody, hends, hdests⟩ := hvalid.phis_eq hb
  have hmem := List.mem_of_getElem? hinst
  have hinst' := hinst
  rw [hinsts, List.getElem?_append] at hinst
  split at hinst
  · have hp := hphis inst (List.mem_of_getElem? hinst)
    exact Or.inl ⟨hinst, hp.1, hp.2⟩
  · next hlt =>
      have hform : inst.Plain ∨ inst = term := by
        rcases List.mem_append.mp (List.mem_of_getElem? hinst) with h | h
        · exact Or.inl (hbody inst h)
        · exact Or.inr (List.mem_singleton.mp h)
      have hform' : inst.Plain ∨ inst.EndsBlock := hform.imp id fun (h : inst = term) => h ▸ hends
      have hnot : inst.opcode ≠ .phi := by
        rcases hform' with hplain | hends'
        · exact hplain.not_phi
        · exact hends'.not_phi
      refine Or.inr ⟨Nat.le_of_not_lt hlt, hvalid.constants, hform',
        hvalid.case_values b hb inst hmem, ?_, hvalid.uses_exist b hb inst hmem hnot⟩
      intro d hd p hp
      obtain ⟨val, hval, _⟩ := hvalid.incoming b hb d
        (hvalid.destinations_subset hb hinst' hd hnot) p hp
      unfold Instruction.incomingFrom
      rw [Option.isSome_map, List.find?_isSome]
      exact ⟨(val, b), hval, by simp⟩

theorem convertBlockInst_spec (hvalid : f.Valid attrOf) (hb : b ∈ f.blocks) (hpre : b ∉ pre)
    (hinst : (f.instructions b)[i]? = some inst) :
    Keeps (ConstInv f) (LaterIn m) (InBlock f pre b m n i) (convertBlockInst f attrOf b m inst i)
      (fun _ => InBlock f pre b m n (i + 1)) (fun _ => ¬ BlockSeen f pre b) := by
  apply Keeps.of_forall
  intro s₀ _ h₀
  rcases hvalid.instruction_cases hb hinst with ⟨hphiAt, hphi, hres⟩ | ⟨hle, hconv⟩
  · -- a phi becomes an argument of the block, and is no operation
    have hlt : i < (f.phis b).length := (List.getElem?_eq_some_iff.mp hphiAt).1
    have hstep := (@convertPhi_spec f attrOf _ _ _ m (n + i) (s₀.blocks m).ops _ hpre hinst hphi
      hres (fun _ => ¬ BlockSeen f pre b)).conseq
      (S := fun s => s = s₀) ?_ (fun _ _ _ h => h) (fun _ h => h)
    · apply hstep.later.conseq (fun _ _ h => h) ?_ (fun _ h => h.1)
      rintro _ s _ ⟨⟨hprogress, hblock, hmapped⟩, hlater⟩
      refine ⟨hprogress, ?_, ?_, ?_, ?_, ?_⟩
      · rw [hlater.blockMap]
        exact h₀.dests
      · intro j inst' hj hinst' hnot
        rcases Nat.lt_succ_iff_lt_or_eq.mp hj with hj | rfl
        · exact h₀.seen j inst' hj hinst' hnot
        · obtain rfl := Option.some.inj (hinst.symm.trans hinst')
          exact absurd hphi hnot
      · rw [hblock, Nat.min_eq_left hlt]
        exact Nat.add_assoc n i 1
      · intro j p hj hp
        rcases Nat.lt_succ_iff_lt_or_eq.mp hj with hj | rfl
        · exact hlater.grows _ _ (h₀.phis j p hj hp)
        · exact hmapped
      · intro j inst' hj hinst' hnot
        obtain rfl := Nat.succ.inj hj
        obtain rfl := Option.some.inj (hinst.symm.trans hinst')
        exact absurd hphi hnot
    · rintro _ _ rfl
      refine ⟨h₀.progress, ?_⟩
      have hnum := h₀.numArguments
      rw [Nat.min_eq_left (Nat.le_of_lt hlt)] at hnum
      rw [← hnum]
  · -- any other instruction becomes the next operation, behind all arguments
    have hstep := (@convertOther_spec _ _ _ _ _ m (s₀.blocks m).numArguments (s₀.blocks m).ops _
      hconv hpre hinst).conseq (S := fun s => s = s₀) ?_
      (fun _ _ _ h => h) (fun _ h => h)
    · apply hstep.later.conseq (fun _ _ h => h) ?_ ?_
      · rintro _ s _ ⟨⟨hprogress, hseen, op, hblock, hedges⟩, hlater⟩
        refine ⟨hprogress, ?_, ?_, ?_, ?_, ?_⟩
        · rw [hlater.blockMap]
          exact h₀.dests
        · intro j inst' hj hinst' hnot
          rcases Nat.lt_succ_iff_lt_or_eq.mp hj with hj | rfl
          · exact h₀.seen j inst' hj hinst' hnot
          · obtain rfl := Option.some.inj (hinst.symm.trans hinst')
            exact hseen
        · rw [hblock, Nat.min_eq_right (Nat.le_succ_of_le hle)]
          have hnum := h₀.numArguments
          rwa [Nat.min_eq_right hle] at hnum
        · intro j p hj hp
          rcases Nat.lt_succ_iff_lt_or_eq.mp hj with hj | rfl
          · exact hlater.grows _ _ (h₀.phis j p hj hp)
          · exact absurd (List.getElem?_eq_some_iff.mp hp).1 (Nat.not_lt.mpr hle)
        · intro j inst' hj hinst' hnot
          obtain rfl := Nat.succ.inj hj
          obtain rfl := Option.some.inj (hinst.symm.trans hinst')
          exact ⟨(s₀.blocks m).ops, op, by rw [hblock], hedges⟩
      · -- a failure means that a value the instruction uses is not there yet
        rintro s ⟨hnot, _⟩ hblockSeen
        exact hnot (hblockSeen i inst hinst hconv.not_phi)
    · rintro _ _ rfl
      refine ⟨⟨h₀.progress, rfl⟩, fun d hd => h₀.dests d ?_⟩
      exact hvalid.destinations_subset hb hinst hd hconv.not_phi

theorem convertBlock_spec (hvalid : f.Valid attrOf) (hb : b ∈ f.blocks) (hpre : b ∉ pre) :
    Keeps (ConstInv f) (LaterIn m)
      (fun cctx => Progress f pre b 0 cctx ∧ cctx.blocks m = ⟨n, []⟩ ∧
        ∀ d ∈ f.destinations b, ∃ m', cctx.blockMap d = some m')
      (convertBlock f attrOf b m)
      (fun _ cctx => Progress f pre b (f.instructions b).length cctx ∧ BlockSeen f pre b ∧
        BlockDone f b m n cctx)
      (fun _ => ¬ BlockSeen f pre b) := by
  have hrun := Keeps.forM (I := ConstInv f) (R := LaterIn m) (E := fun _ => ¬ BlockSeen f pre b)
    (l := (f.instructions b).zipIdx)
    (f := fun inst => convertBlockInst f attrOf b m inst.1 inst.2)
    (J := fun done _ => InBlock f pre b m n done.length) (by
      intro done x rest hsplit
      have hx : (f.instructions b).zipIdx[done.length]? = some x := by
        rw [hsplit, List.getElem?_append_right (Nat.le_refl _), Nat.sub_self]
        rfl
      rw [List.getElem?_zipIdx] at hx
      obtain ⟨inst, hinst, rfl⟩ := Option.map_eq_some_iff.mp hx
      rw [List.length_append]
      simp only [Nat.zero_add]
      exact convertBlockInst_spec hvalid hb hpre hinst)
  apply hrun.conseq ?_ ?_ (fun _ h => h)
  · rintro cctx _ ⟨hprogress, hblock, hdests⟩
    refine ⟨hprogress, hdests, fun i _ hi => absurd hi (Nat.not_lt_zero i), ?_,
      fun i _ hi => absurd hi (Nat.not_lt_zero i), fun i _ hi => absurd hi (by simp)⟩
    rw [hblock, List.length_nil, Nat.zero_min]
    rfl
  · rintro _ cctx _ hdone
    rw [List.length_zipIdx] at hdone
    obtain ⟨body, term, hinsts, hphis, hbody, hends, hdests⟩ := hvalid.phis_eq hb
    have hlen : (f.instructions b).length = (f.phis b).length + body.length + 1 := by
      rw [hinsts, List.length_append, List.length_append, List.length_singleton, Nat.add_assoc]
    have hlast : (f.instructions b)[(f.phis b).length + body.length]? = some term := by
      rw [hinsts, List.getElem?_append_right (Nat.le_add_right _ _), Nat.add_sub_cancel_left,
        List.getElem?_append_right (Nat.le_refl _), Nat.sub_self]
      rfl
    refine ⟨hdone.progress, fun i inst hinst hphi => ?_, ?_, fun k p hp => ?_, ?_⟩
    · exact hdone.seen i inst (List.getElem?_eq_some_iff.mp hinst).1 hinst hphi
    · rw [hdone.numArguments, Nat.min_eq_right (by omega)]
    · have hk := (List.getElem?_eq_some_iff.mp hp).1
      exact hdone.phis k p (by omega) hp
    · rw [hdests]
      exact hdone.last _ term hlen hlast hends.not_phi

end Blocks

/-! ## Functions -/

/-- How many arguments a block has before its PHIs: the entry block has the parameters. -/
def firstArguments (f : Function) (m : Nat) : Nat := if m = 0 then f.numParams else 0

/-- Between two blocks, when `done` are converted. -/
structure Importing (f : Function) (order done : List LLVMBasicBlock) (cctx : ConversionContext) :
    Prop where
  progress : ∀ b, Progress f done b 0 cctx
  blockMap : ∀ (i : Nat) (b : LLVMBasicBlock), order[i]? = some b → cctx.blockMap b = some i
  fresh : ∀ m, done.length ≤ m → cctx.blocks m = ⟨firstArguments f m, []⟩
  converted : ∀ (i : Nat) (b : LLVMBasicBlock), done[i]? = some b →
    BlockDone f b i (firstArguments f i) cctx
  seen : ∀ pre b post, done = pre ++ b :: post → BlockSeen f pre b

section Functions

variable {f : Function} {attrOf : AttrOf} {order : List LLVMBasicBlock}

theorem BlockDone.later {b : LLVMBasicBlock} {i m n : Nat} {cctx cctx' : ConversionContext}
    (h : BlockDone f b i n cctx) (hlater : LaterIn m cctx cctx') (hne : i ≠ m) :
    BlockDone f b i n cctx' := by
  have hblock := hlater.blocks i hne
  obtain ⟨ops, op, hops, hedges⟩ := h.terminator
  refine ⟨by rw [hblock]; exact h.numArguments, fun k p hp => ?_, ops, op,
    by rw [hblock]; exact hops, ?_⟩
  · exact hlater.grows _ _ (h.phis k p hp)
  · exact hedges.imp fun d succ hd => edgeTo_grows hlater.blockMap hlater.grows hd

theorem Progress.next {pre : List LLVMBasicBlock} {b : LLVMBasicBlock}
    {cctx : ConversionContext} (h : Progress f pre b (f.instructions b).length cctx)
    (b' : LLVMBasicBlock) : Progress f (pre ++ [b]) b' 0 cctx where
  arguments := h.arguments
  mapped := fun d j => by
    rw [h.mapped]
    apply and_congr_left
    rintro ⟨inst, hinst, _⟩
    unfold Seen
    rw [List.mem_append, List.mem_singleton]
    constructor
    · rintro (hd | ⟨rfl, _⟩)
      · exact Or.inl (Or.inl hd)
      · exact Or.inl (Or.inr rfl)
    · rintro ((hd | rfl) | ⟨_, hlt⟩)
      · exact Or.inl hd
      · exact Or.inr ⟨rfl, (List.getElem?_eq_some_iff.mp hinst).1⟩
      · exact absurd hlt (Nat.not_lt_zero j)

/-- One block of the function. -/
theorem importBlock_spec (hvalid : f.Valid attrOf) (hnodup : order.Nodup)
    (hmem : ∀ b, b ∈ order ↔ b ∈ f.blocks) {done rest : List LLVMBasicBlock}
    {b : LLVMBasicBlock} (hsplit : order = done ++ b :: rest) :
    Keeps (ConstInv f) Anywhere (Importing f order done)
      (do
        match (← get).blockMap b with
        | none => throw .panic
        | some mBlock => convertBlock f attrOf b mBlock)
      (fun _ => Importing f order (done ++ [b])) (fun _ => ¬ OrderSeen f order) := by
  have hb : order[done.length]? = some b := by
    rw [hsplit, List.getElem?_append_right (Nat.le_refl _), Nat.sub_self]
    rfl
  have hbmem : b ∈ f.blocks := (hmem b).mp (List.mem_of_getElem? hb)
  have hpre : b ∉ done := by
    intro hbd
    rw [hsplit] at hnodup
    exact List.disjoint_of_nodup_append hnodup hbd List.mem_cons_self
  apply Keeps.get_bind
  intro s₀ _ h₀
  simp only [h₀.blockMap _ b hb]
  -- so far every block in front is converted, and this one is as it was made
  have hstart : ∀ s, ConstInv f s → s = s₀ → Progress f done b 0 s ∧
      s.blocks done.length = ⟨firstArguments f done.length, []⟩ ∧
      ∀ d ∈ f.destinations b, ∃ m', s.blockMap d = some m' := by
    rintro s _ rfl
    refine ⟨h₀.progress b, h₀.fresh _ (Nat.le_refl _), fun d hd => ?_⟩
    obtain ⟨i, hi⟩ := List.mem_iff_getElem?.mp
      ((hmem d).mpr (hvalid.destination_mem b hbmem d hd))
    exact ⟨i, h₀.blockMap i d hi⟩
  have hconvert := ((@convertBlock_spec f attrOf _ _ done.length (firstArguments f done.length) hvalid
    hbmem hpre).conseq hstart (fun _ _ _ h => h)
    (fun _ h => h)).later.weaken fun _ _ _ => trivial
  apply hconvert.conseq (fun _ _ h => h) ?_ ?_
  · rintro _ s _ ⟨⟨hprogress, hseen, hdone⟩, hlater⟩
    refine ⟨hprogress.next, ?_, ?_, ?_, ?_⟩
    · rw [hlater.blockMap]
      exact h₀.blockMap
    · intro m hm
      rw [List.length_append, List.length_singleton] at hm
      rw [hlater.blocks m (by omega)]
      exact h₀.fresh m (by omega)
    · intro i b' hi
      -- the blocks in front stay as they are, this one is now converted
      rcases Nat.lt_trichotomy i done.length with hlt | rfl | hgt
      · rw [List.getElem?_append_left hlt] at hi
        exact (h₀.converted i b' hi).later hlater (by omega)
      · rw [List.getElem?_append_right (Nat.le_refl _), Nat.sub_self] at hi
        obtain rfl := Option.some.inj hi
        exact hdone
      · have := (List.getElem?_eq_some_iff.mp hi).1
        rw [List.length_append, List.length_singleton] at this
        omega
    · intro pre b' post hsplit'
      rcases List.append_eq_append_iff.mp hsplit' with ⟨l, hl, hr⟩ | ⟨l, hl, hr⟩
      · cases l with
        | nil =>
            rw [List.append_nil] at hl
            obtain ⟨rfl, _⟩ := List.cons.inj hr
            exact hl ▸ hseen
        | cons x l => exact absurd (List.cons.inj hr).2 (by simp)
      · cases l with
        | nil =>
            rw [List.append_nil] at hl
            obtain ⟨rfl, _⟩ := List.cons.inj hr
            exact hl ▸ hseen
        | cons x l =>
            obtain ⟨rfl, _⟩ := List.cons.inj hr
            exact h₀.seen pre _ l hl
  · rintro s ⟨hnot, _⟩ horder
    exact hnot (horder done b rest hsplit)

/-- What the fold over the numbered blocks leaves as it was. -/
theorem foldl_insert_of_not_mem {l : List LLVMBasicBlock} {k : Nat} {b : LLVMBasicBlock}
    {map : HMap LLVMBasicBlock Nat} (hb : b ∉ l) :
    (l.zipIdx k).foldl (fun m b => m.insert b.1 b.2) map b = map b := by
  induction l generalizing k map with
  | nil => rfl
  | cons c l ih =>
      rw [List.mem_cons, not_or] at hb
      rw [List.zipIdx_cons, List.foldl_cons, ih hb.2, HMap.insert_of_ne hb.1]

/-- Each block is mapped to its place. -/
theorem foldl_insert_of_getElem? {l : List LLVMBasicBlock} {i k : Nat} {b : LLVMBasicBlock}
    {map : HMap LLVMBasicBlock Nat} (hnodup : l.Nodup) (hb : l[i]? = some b) :
    (l.zipIdx k).foldl (fun m b => m.insert b.1 b.2) map b = some (k + i) := by
  induction l generalizing i k map with
  | nil => exact nomatch hb
  | cons c l ih =>
      rw [List.nodup_cons] at hnodup
      rw [List.zipIdx_cons, List.foldl_cons]
      cases i with
      | zero =>
          obtain rfl := Option.some.inj hb
          rw [foldl_insert_of_not_mem hnodup.1, HMap.insert_self, Nat.add_zero]
      | succ i => rw [ih hnodup.2 hb, Nat.add_right_comm, Nat.add_assoc]

/-- The parameters are mapped, and nothing else. -/
theorem foldl_insert_argument (n : Nat) (v : LLVMValue) :
    (List.range n).foldl (fun m i => HMap.insert m (.argument i) (.blockArgument 0 i))
      (fun _ => none : HMap LLVMValue Value) v =
      match v with
      | .argument i => if i < n then some (.blockArgument 0 i) else none
      | _ => none := by
  induction n with
  | zero => cases v <;> rfl
  | succ n ih =>
      rw [List.range_succ, List.foldl_append, List.foldl_cons, List.foldl_nil]
      by_cases hv : v = .argument n
      · subst hv
        rw [HMap.insert_self]
        simp
      · rw [HMap.insert_of_ne hv, ih]
        cases v with
        | argument i =>
            have hne : i ≠ n := fun h => hv (h ▸ rfl)
            simp only [Nat.lt_succ_iff_lt_or_eq, hne, or_false]
        | _ => rfl

theorem startFunction_valueMap (cctx : ConversionContext) (v : LLVMValue) :
    (startFunction f order cctx).valueMap v =
      match v with
      | .argument i => if i < f.numParams then some (.blockArgument 0 i) else none
      | _ => none :=
  foldl_insert_argument f.numParams v

theorem startFunction_blockMap (hnodup : order.Nodup) (cctx : ConversionContext) {i : Nat}
    {b : LLVMBasicBlock} (hb : order[i]? = some b) :
    (startFunction f order cctx).blockMap b = some i :=
  (foldl_insert_of_getElem? hnodup hb).trans (by rw [Nat.zero_add])

theorem startFunction_blocks (cctx : ConversionContext) (m : Nat) :
    (startFunction f order cctx).blocks m = ⟨firstArguments f m, []⟩ := by
  show Function.update (fun _ => ({} : BasicBlock)) 0 ⟨f.numParams, []⟩ m = _
  unfold firstArguments
  by_cases hm : m = 0
  · rw [hm, Function.update_self, if_pos rfl]
  · rw [Function.update_of_ne hm, if_neg hm]

/-- Before the first block. -/
theorem importing_start (hnodup : order.Nodup) (cctx : ConversionContext) :
    ConstInv f (startFunction f order cctx) ∧
      Importing f order [] (startFunction f order cctx) := by
  refine ⟨⟨nofun, fun c width value m _ hval => ?_⟩, ⟨fun b => ⟨fun k hk => ?_, fun d j => ?_⟩,
    fun i b hb => ?_, fun m _ => ?_, nofun, fun pre b post h => ?_⟩⟩
  · rw [startFunction_valueMap] at hval
    exact nomatch hval
  · rw [startFunction_valueMap]
    simp [hk]
  · rw [startFunction_valueMap]
    apply iff_of_false Bool.false_ne_true
    rintro ⟨hmem | ⟨_, hlt⟩, _⟩
    · exact List.not_mem_nil hmem
    · exact Nat.not_lt_zero j hlt
  · exact startFunction_blockMap hnodup cctx hb
  · exact startFunction_blocks cctx m
  · exact absurd h (by simp)

/-- The blocks in the order of the visit. -/
def Function.visitOrder (f : Function) : List LLVMBasicBlock :=
  depthFirstOrder f.readDestinations (f.blocks.length + 1) f.blocks

theorem Function.Valid.visitOrder_nodup (hvalid : f.Valid attrOf) : f.visitOrder.Nodup :=
  depthFirstOrder_nodup hvalid.readDestinations_mem (fun _ h => h) (Nat.lt_succ_self _)

theorem Function.Valid.mem_visitOrder (hvalid : f.Valid attrOf) (b : LLVMBasicBlock) :
    b ∈ f.visitOrder ↔ b ∈ f.blocks := by
  unfold visitOrder
  rw [mem_depthFirstOrder hvalid.readDestinations_mem (fun _ h => h) (Nat.lt_succ_self _)]
  constructor
  · rintro ⟨r, hr, hreach⟩
    induction hreach with
    | refl => exact hr
    | tail _ hedge ih => exact hvalid.readDestinations_mem _ ih _ hedge
  · exact fun hb => ⟨b, hb, Relation.ReflTransGen.refl⟩

/-- The import ends with the whole function, or an instruction uses what comes after it. -/
theorem convertFunction_spec (hvalid : f.Valid attrOf) (hne : f.blocks ≠ [])
    (cctx : ConversionContext) :
    match (convertFunction f attrOf).run.run cctx with
    | (.ok _, cctx') => Importing f f.visitOrder f.visitOrder cctx'
    | (.error _, _) => ¬ OrderSeen f f.visitOrder := by
  obtain ⟨hinv, hstart⟩ := importing_start (f := f) hvalid.visitOrder_nodup cctx
  have hrun := Keeps.forM (I := ConstInv f) (R := Anywhere) (l := f.visitOrder)
    (E := fun _ => ¬ OrderSeen f f.visitOrder)
    (J := fun done _ => Importing f f.visitOrder done)
    (fun done b rest hsplit =>
      importBlock_spec hvalid hvalid.visitOrder_nodup hvalid.mem_visitOrder hsplit)
    _ hinv hstart _ rfl
  have hconvert : (convertFunction f attrOf).run.run cctx =
      ((f.visitOrder.forM fun block => do
        match (← get).blockMap block with
        | none => throw .panic
        | some mBlock => convertBlock f attrOf block mBlock) : ImportM Unit).run.run
          (startFunction f f.visitOrder cctx) := by
    unfold convertFunction
    rw [if_neg hne, hvalid.rpo]
    rfl
  rw [hconvert]
  split at hrun
  · next heq =>
      rw [heq]
      exact hrun.2.2
  · next heq =>
      rw [heq]
      exact hrun.2

end Functions

end Pliron.FromLlvm
