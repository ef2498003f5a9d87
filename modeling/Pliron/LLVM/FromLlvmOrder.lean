/-
  Pliron.LLVM.FromLlvmOrder

  Valid functions, what `successors` reads of their terminators, and the order of `rpo`.
-/

import Pliron.LLVM.FromLlvm
import Pliron.LLVM.FromLlvmConstants

namespace Pliron.FromLlvm

open Lib
open DfsInv (Edge)

/-! ## Valid functions -/

/-- The values that a call reads to know what to call. -/
def Callee.reads : Callee → List LLVMValue
  | .value val => [val]
  | _ => []

/-- The values among the operands, in order. -/
def valueOperands (operands : List LLVMValue) : List LLVMValue :=
  operands.filter (fun v => !v.isBasicBlock)

/-- The values that an instruction reads. -/
def Instruction.reads (inst : Instruction) : List LLVMValue :=
  if inst.opcode = .call then inst.operands.take inst.numArgOperands ++ inst.callee.reads
  else valueOperands inst.operands

/-- The value that a PHI has for an edge from `src`. -/
def Instruction.incomingFrom (src : LLVMBasicBlock) (p : Instruction) : Option LLVMValue :=
  (p.incoming.find? (·.2 = src)).map Prod.fst

/-- The values that the PHIs of `dst` have for edges from `src`. -/
def Function.edgeValues (f : Function) (src dst : LLVMBasicBlock) : List LLVMValue :=
  (f.phis dst).filterMap (Instruction.incomingFrom src)

/-- The values that must be defined for an instruction of `block`: those it reads, and for a
    terminator those that it makes the PHIs of its destinations take. -/
def Function.uses (f : Function) (block : LLVMBasicBlock) (inst : Instruction) :
    List LLVMValue :=
  inst.reads ++ if inst.opcode.isTerminator then inst.destinations.flatMap (f.edgeValues block)
    else []

/-- The form of a terminator's operands: a switch has its condition, the default destination, and
    then one destination for each case, whose values are apart. -/
def Instruction.EndsBlock (inst : Instruction) : Prop :=
  match inst.opcode with
  | .uncondBr => ∃ d, inst.operands = [.basicBlock d]
  | .condBr => ∃ cond t e, inst.operands = [cond, .basicBlock t, .basicBlock e] ∧
      cond.asBasicBlock? = none
  | .switch => ∃ cond d, ∃ cases : List LLVMBasicBlock,
      inst.operands = cond :: .basicBlock d :: cases.map .basicBlock ∧
      cond.asBasicBlock? = none ∧ inst.caseValues.length = cases.length
  | .indirectBr => ∃ addr, ∃ dests : List LLVMBasicBlock,
      inst.operands = addr :: dests.map .basicBlock ∧
      addr.asBasicBlock? = none
  | .ret => inst.operands = [] ∨ ∃ val, inst.operands = [val] ∧ val.asBasicBlock? = none
  | .unreachable => inst.operands = []
  | _ => False

/-- The other instructions that the import supports. -/
structure Instruction.Plain (inst : Instruction) : Prop where
  not_phi : inst.opcode ≠ .phi
  not_terminator : inst.opcode.isTerminator = false
  no_block : ∀ v ∈ inst.operands, v.asBasicBlock? = none
  callee_no_block : ∀ v ∈ inst.callee.reads, v.asBasicBlock? = none
  supported : inst.opcode = .call ∨ (inst.opcode = .getElementPtr ∧ inst.operands ≠ []) ∨
    ∃ n, numOperands inst.opcode = some n ∧ n ≤ inst.operands.length

namespace Function

variable (f : Function)

/-- The value can be used: a constant, a parameter, or a result of an instruction. -/
def Exists : LLVMValue → Prop
  | .constant _ => True
  | .argument index => index < f.numParams
  | .instruction block index =>
      block ∈ f.blocks ∧ ∃ inst : Instruction, (f.instructions block)[index]? = some inst ∧
        inst.hasResult
  | .basicBlock _ => False

/-- Control can come to the block. -/
def Reachable (block : LLVMBasicBlock) : Prop :=
  ∃ entry, f.blocks.head? = some entry ∧ Reach (Edge f.destinations) entry block

/-- Every way from the entry to `block` goes through `d`. -/
def Dominates (d block : LLVMBasicBlock) : Prop :=
  ∃ entry, f.blocks.head? = some entry ∧ Lib.Dominates (Edge f.destinations) entry d block

/-- The rules of LLVM's verifier that matter here, for a function of supported instructions.
    A use in a block that control cannot come to need not be dominated by its definition. -/
structure Valid (attrOf : AttrOf) : Prop where
  blocks_nodup : f.blocks.Nodup
  block_form : ∀ b ∈ f.blocks, ∃ (phis body : List Instruction) (term : Instruction),
    f.instructions b = phis ++ body ++ [term] ∧
    (∀ p ∈ phis, p.opcode = .phi ∧ p.hasResult) ∧ (∀ inst ∈ body, inst.Plain) ∧
    term.EndsBlock ∧ term.hasResult = false
  destination_mem : ∀ b ∈ f.blocks, ∀ d ∈ f.destinations b, d ∈ f.blocks
  entry : ∀ entry, f.blocks.head? = some entry →
    f.phis entry = [] ∧ ∀ b ∈ f.blocks, entry ∉ f.destinations b
  incoming : ∀ b ∈ f.blocks, ∀ d ∈ f.destinations b, ∀ p ∈ f.phis d,
    ∃ val, (val, b) ∈ p.incoming ∧ ∀ val', (val', b) ∈ p.incoming → val' = val
  uses_exist : ∀ b ∈ f.blocks, ∀ inst ∈ f.instructions b, inst.opcode ≠ .phi →
    ∀ v ∈ f.uses b inst, f.Exists v
  uses_dominated : ∀ b ∈ f.blocks, f.Reachable b → ∀ (i : Nat) (inst : Instruction),
    (f.instructions b)[i]? = some inst → inst.opcode ≠ .phi → ∀ (d : LLVMBasicBlock) (j : Nat),
    .instruction d j ∈ f.uses b inst → (d = b ∧ j < i) ∨ (d ≠ b ∧ f.Dominates d b)
  case_values : ∀ b ∈ f.blocks, ∀ inst ∈ f.instructions b, inst.opcode = .switch →
    ∀ v ∈ inst.caseValues, ∃ c width value : Nat, v = .constant c ∧
      f.constants.get c = .int width value
  constants : ∀ c, (f.constants.get c).Supported attrOf c

end Function

/-! ## Successors -/

/-- The second of every two elements. -/
def everySecond {α : Type} : List α → List α
  | _ :: b :: l => b :: everySecond l
  | _ => []

theorem mem_everySecond {α : Type} {l : List α} {a : α} :
    a ∈ everySecond l ↔ ∃ j, l[2 * j + 1]? = some a := by
  match l with
  | [] => simp [everySecond]
  | [b] => simp [everySecond]
  | b :: c :: l =>
      rw [everySecond, List.mem_cons, mem_everySecond]
      constructor
      · rintro (rfl | ⟨j, hj⟩)
        · exact ⟨0, rfl⟩
        · exact ⟨j + 1, hj⟩
      · rintro ⟨j, hj⟩
        cases j with
        | zero => exact Or.inl (Option.some.inj hj).symm
        | succ j => exact Or.inr ⟨j, hj⟩

theorem forall₂_everySecond {α : Type} (l : List α) :
    List.Forall₂ (fun i a => l[2 * i + 1]? = some a) (List.range (l.length / 2))
      (everySecond l) := by
  match l with
  | [] => simp [everySecond]
  | [b] => simp [everySecond]
  | b :: c :: l =>
      have hlen : (b :: c :: l).length / 2 = l.length / 2 + 1 := by
        simp only [List.length_cons]
        omega
      rw [hlen, List.range_succ_eq_map, everySecond]
      exact List.Forall₂.cons rfl (List.forall₂_map_left_iff.mpr (forall₂_everySecond l))

theorem forall₂_range {α : Type} (l : List α) :
    List.Forall₂ (fun i a => l[i]? = some a) (List.range l.length) l := by
  induction l with
  | nil => exact List.Forall₂.nil
  | cons b l ih =>
      rw [List.length_cons, List.range_succ_eq_map]
      exact List.Forall₂.cons rfl (List.forall₂_map_left_iff.mpr ih)

/-- The destinations that `successors` reads: of a switch's cases, every second one. -/
def Instruction.readDestinations (inst : Instruction) : List LLVMBasicBlock :=
  if inst.opcode = .switch then
    match inst.destinations with
    | d :: cases => d :: everySecond cases
    | [] => []
  else inst.destinations

/-- The destinations that `successors` reads of a block's terminator. -/
def Function.readDestinations (f : Function) (block : LLVMBasicBlock) : List LLVMBasicBlock :=
  match f.terminator block with
  | some term => term.readDestinations
  | none => []

section Successors

variable {f : Function} {attrOf : AttrOf} {b : LLVMBasicBlock} {inst : Instruction}

theorem filterMap_basicBlock (dests : List LLVMBasicBlock) :
    (dests.map LLVMValue.basicBlock).filterMap LLVMValue.asBasicBlock? = dests := by
  rw [List.filterMap_map]
  exact List.filterMap_some

theorem blockOperand_eq {index : Nat} {d : LLVMBasicBlock}
    (h : inst.operands[index]? = some (.basicBlock d)) : blockOperand inst index = .ok d := by
  unfold blockOperand getLlvmOperand
  rw [h]
  rfl

theorem mapM_ok {α β : Type} {g : α → Except Failure β} {l : List α} {bs : List β}
    (h : List.Forall₂ (fun a b => g a = .ok b) l bs) : l.mapM g = .ok bs := by
  induction h with
  | nil => rfl
  | cons ha _ ih =>
      rw [List.mapM_cons, ha, ih]
      rfl

theorem successors_of_endsBlock (hterm : f.terminator b = some inst) (hends : inst.EndsBlock) :
    successors f b = .ok inst.readDestinations := by
  unfold successors
  rw [hterm]
  unfold Instruction.EndsBlock at hends
  unfold Instruction.readDestinations Instruction.destinations
  split at hends
  · -- a branch to one block
    next hop =>
      obtain ⟨d, hopds⟩ := hends
      simp only [hop]
      rw [if_pos (by rw [hopds]; rfl), blockOperand_eq (d := d) (by rw [hopds]; rfl), hopds]
      rfl
  · -- a conditional branch: the condition, and then the two blocks
    next hop =>
      obtain ⟨cond, t, e, hopds, hcond⟩ := hends
      simp only [hop]
      rw [if_pos (by rw [hopds]; rfl), blockOperand_eq (d := t) (by rw [hopds]; rfl),
        blockOperand_eq (d := e) (by rw [hopds]; rfl), hopds, List.filterMap_cons_none hcond]
      rfl
  · -- a switch: the default, and then every second operand
    next hop =>
      obtain ⟨cond, d, cases, hopds, hcond, _⟩ := hends
      have hlen : inst.operands.length = cases.length + 2 := by simp [hopds]
      have hcases : (List.range (cases.length / 2)).mapM
          (fun i => blockOperand inst (2 + 2 * i + 1)) = .ok (everySecond cases) := by
        apply mapM_ok
        apply (forall₂_everySecond cases).imp
        intro i a ha
        apply blockOperand_eq
        have hindex : 2 + 2 * i + 1 = (2 * i + 1) + 2 := by omega
        rw [hopds, hindex, List.getElem?_cons_succ, List.getElem?_cons_succ, List.getElem?_map, ha]
        rfl
      simp only [hop, hlen]
      rw [if_neg (by omega), blockOperand_eq (d := d) (by rw [hopds]; rfl), Nat.add_sub_cancel,
        hopds, List.filterMap_cons_none hcond]
      show (do
        let cases ← (List.range (cases.length / 2)).mapM
          (fun i => blockOperand inst (2 + 2 * i + 1))
        pure (d :: cases)) = _
      rw [hcases, List.filterMap_cons_some (LLVMValue.asBasicBlock?_basicBlock d),
        filterMap_basicBlock]
      rfl
  · -- an indirect branch: all operands but the address
    next hop =>
      obtain ⟨addr, dests, hopds, haddr⟩ := hends
      have hlen : inst.operands.length - 1 = dests.length := by simp [hopds]
      simp only [hop, hlen]
      rw [hopds, List.filterMap_cons_none haddr, filterMap_basicBlock]
      apply mapM_ok
      apply (forall₂_range dests).imp
      intro i a ha
      apply blockOperand_eq
      rw [hopds, List.getElem?_cons_succ, List.getElem?_map, ha]
      rfl
  · next hop =>
      simp only [hop]
      obtain hopds | ⟨val, hopds, hval⟩ := hends
      · rw [hopds]
        rfl
      · rw [hopds, List.filterMap_cons_none hval]
        rfl
  · next hop =>
      simp only [hop]
      rw [hends]
      rfl
  · exact hends.elim

theorem Instruction.EndsBlock.isTerminator (hends : inst.EndsBlock) :
    inst.opcode.isTerminator = true := by
  unfold EndsBlock at hends
  split at hends
  all_goals first
    | exact hends.elim
    | simp [*, LLVMOpcode.isTerminator]

theorem Instruction.EndsBlock.not_phi (hends : inst.EndsBlock) : inst.opcode ≠ .phi := by
  intro h
  have hterm := hends.isTerminator
  rw [h] at hterm
  exact nomatch hterm

theorem Instruction.EndsBlock.not_call (hends : inst.EndsBlock) : inst.opcode ≠ .call := by
  intro h
  have hterm := hends.isTerminator
  rw [h] at hterm
  exact nomatch hterm

theorem Function.Valid.terminator (hvalid : f.Valid attrOf) (hb : b ∈ f.blocks) :
    ∃ term, f.terminator b = some term ∧ term.EndsBlock := by
  obtain ⟨phis, body, term, hinsts, _, _, hends, _⟩ := hvalid.block_form b hb
  refine ⟨term, ?_, hends⟩
  unfold Function.terminator
  rw [hinsts, List.getLast?_append, List.getLast?_singleton]
  simp [hends.isTerminator]

theorem Function.Valid.successors (hvalid : f.Valid attrOf) (hb : b ∈ f.blocks) :
    successors f b = .ok (f.readDestinations b) := by
  obtain ⟨term, hterm, hends⟩ := hvalid.terminator hb
  unfold readDestinations
  rw [successors_of_endsBlock hterm hends, hterm]

theorem Instruction.readDestinations_subset {d : LLVMBasicBlock}
    (hd : d ∈ inst.readDestinations) : d ∈ inst.destinations := by
  unfold readDestinations at hd
  split at hd
  · cases hdests : inst.destinations with
    | nil =>
        rw [hdests] at hd
        exact hd
    | cons e cases =>
        rw [hdests] at hd
        rcases List.mem_cons.mp hd with rfl | hd
        · exact List.mem_cons_self
        · obtain ⟨j, hj⟩ := mem_everySecond.mp hd
          exact List.mem_cons_of_mem _ (List.mem_of_getElem? hj)
  · exact hd

theorem Function.readDestinations_subset {d : LLVMBasicBlock}
    (hd : d ∈ f.readDestinations b) : d ∈ f.destinations b := by
  unfold readDestinations at hd
  unfold destinations
  cases hterm : f.terminator b with
  | none =>
      rw [hterm] at hd
      exact absurd hd List.not_mem_nil
  | some term =>
      rw [hterm] at hd
      exact Instruction.readDestinations_subset hd

end Successors

/-! ## Switches whose destinations are all read -/

/-- In every switch, the destination of each case in an even place (the first, the third, ...) is
    also the default destination or the destination of a case in an odd place. -/
def Function.SwitchesCovered (f : Function) : Prop :=
  ∀ b ∈ f.blocks, ∀ term, f.terminator b = some term → term.opcode = .switch →
    ∀ (i : Nat) (d : LLVMBasicBlock), term.operands[2 + 2 * i]? = some (.basicBlock d) →
      term.operands[1]? = some (.basicBlock d) ∨
        ∃ j : Nat, term.operands[2 + (2 * j + 1)]? = some (.basicBlock d)

section Covered

variable {f : Function} {attrOf : AttrOf} {b : LLVMBasicBlock} {inst : Instruction}

/-- An element in an even place. -/
theorem mem_iff_even_or_everySecond {α : Type} {l : List α} {a : α} :
    a ∈ l ↔ (∃ i, l[2 * i]? = some a) ∨ a ∈ everySecond l := by
  rw [List.mem_iff_getElem?, mem_everySecond]
  constructor
  · rintro ⟨k, hk⟩
    rcases Nat.even_or_odd' k with ⟨i, rfl | rfl⟩
    · exact Or.inl ⟨i, hk⟩
    · exact Or.inr ⟨i, hk⟩
  · rintro (⟨i, hi⟩ | ⟨j, hj⟩)
    · exact ⟨_, hi⟩
    · exact ⟨_, hj⟩

/-- `successors` reads all destinations of a terminator exactly when a switch is covered. -/
theorem Instruction.readDestinations_iff (hends : inst.EndsBlock) :
    (∀ d, d ∈ inst.readDestinations ↔ d ∈ inst.destinations) ↔
      (inst.opcode = .switch → ∀ (i : Nat) (d : LLVMBasicBlock),
        inst.operands[2 + 2 * i]? = some (.basicBlock d) →
        inst.operands[1]? = some (.basicBlock d) ∨
          ∃ j : Nat, inst.operands[2 + (2 * j + 1)]? = some (.basicBlock d)) := by
  by_cases hop : inst.opcode = .switch
  · have hform := hends
    unfold EndsBlock at hform
    rw [hop] at hform
    obtain ⟨cond, d₀, cases, hopds, hcond, _⟩ := hform
    have hindex : ∀ (k : Nat) (d : LLVMBasicBlock),
        inst.operands[2 + k]? = some (.basicBlock d) ↔ cases[k]? = some d := by
      intro k d
      rw [hopds, Nat.add_comm 2 k, List.getElem?_cons_succ, List.getElem?_cons_succ,
        List.getElem?_map]
      cases cases[k]? <;> simp
    have hdefault : ∀ d : LLVMBasicBlock, inst.operands[1]? = some (.basicBlock d) ↔ d = d₀ := by
      intro d
      rw [hopds]
      simp [eq_comm]
    have hdests : inst.destinations = d₀ :: cases := by
      unfold destinations
      rw [hopds, List.filterMap_cons_none hcond,
        List.filterMap_cons_some (LLVMValue.asBasicBlock?_basicBlock d₀), filterMap_basicBlock]
    have hread : inst.readDestinations = d₀ :: everySecond cases := by
      unfold readDestinations
      rw [hdests, if_pos hop]
    rw [hdests, hread]
    simp only [hop, true_implies, hindex, hdefault, List.mem_cons, ← mem_everySecond]
    constructor
    · intro h i d hi
      exact (h d).mpr (Or.inr (List.mem_of_getElem? hi))
    · intro h d
      constructor
      · rintro (hd | hd)
        · exact Or.inl hd
        · exact Or.inr (mem_iff_even_or_everySecond.mpr (Or.inr hd))
      · rintro (hd | hd)
        · exact Or.inl hd
        · rcases mem_iff_even_or_everySecond.mp hd with ⟨i, hi⟩ | hd
          · exact h i d hi
          · exact Or.inr hd
  · have hread : inst.readDestinations = inst.destinations := by
      unfold readDestinations
      rw [if_neg hop]
    rw [hread]
    simp [hop]

theorem Function.Valid.switchesCovered_iff (hvalid : f.Valid attrOf) :
    f.SwitchesCovered ↔ ∀ b ∈ f.blocks, ∀ d, d ∈ f.readDestinations b ↔ d ∈ f.destinations b := by
  have hblock : ∀ b ∈ f.blocks, ∃ term, f.terminator b = some term ∧ term.EndsBlock ∧
      f.readDestinations b = term.readDestinations ∧ f.destinations b = term.destinations := by
    intro b hb
    obtain ⟨term, hterm, hends⟩ := hvalid.terminator hb
    refine ⟨term, hterm, hends, ?_, ?_⟩
    · unfold readDestinations
      rw [hterm]
    · unfold destinations
      rw [hterm]
  constructor
  · intro hcov b hb
    obtain ⟨term, hterm, hends, hread, hdests⟩ := hblock b hb
    rw [hread, hdests]
    exact (Instruction.readDestinations_iff hends).mpr (hcov b hb term hterm)
  · intro h b hb term hterm
    obtain ⟨term', hterm', hends, hread, hdests⟩ := hblock b hb
    obtain rfl := Option.some.inj (hterm.symm.trans hterm')
    have hall := h b hb
    rw [hread, hdests] at hall
    exact (Instruction.readDestinations_iff hends).mp hall

end Covered

/-! ## The order -/

section Order

variable {f : Function} {attrOf : AttrOf}

theorem foldlM_ok {α β : Type} {g : β → α → Except Failure β} {g' : β → α → β} {l : List α}
    (h : ∀ a ∈ l, ∀ s, g s a = .ok (g' s a)) (s : β) : l.foldlM g s = .ok (l.foldl g' s) := by
  induction l generalizing s with
  | nil => rfl
  | cons a l ih =>
      rw [List.foldlM_cons, h a List.mem_cons_self s, List.foldl_cons]
      exact ih (fun a' ha' => h a' (List.mem_cons_of_mem a ha')) (g' s a)

theorem Function.Valid.readDestinations_mem (hvalid : f.Valid attrOf) :
    ∀ b ∈ f.blocks, ∀ d ∈ f.readDestinations b, d ∈ f.blocks := fun b hb d hd =>
  hvalid.destination_mem b hb d (readDestinations_subset hd)

theorem Function.Valid.rpoWalk (hvalid : f.Valid attrOf) (fuel : Nat) {b : LLVMBasicBlock}
    (hb : b ∈ f.blocks) (s : List LLVMBasicBlock × List LLVMBasicBlock) :
    rpoWalk f fuel b s = .ok (walk f.readDestinations fuel b s) := by
  induction fuel generalizing b s with
  | zero => rfl
  | succ fuel ih =>
      unfold FromLlvm.rpoWalk walk
      by_cases hmem : b ∈ s.1
      · rw [if_pos hmem, if_pos hmem]
        rfl
      · rw [if_neg hmem, if_neg hmem, hvalid.successors hb]
        show (do
          let s' ← (f.readDestinations b).foldlM (fun s succ => FromLlvm.rpoWalk f fuel succ s)
            (b :: s.1, s.2)
          pure (s'.1, s'.2 ++ [b])) = _
        rw [foldlM_ok (fun d hd s' => ih (hvalid.readDestinations_mem b hb d hd) s')]
        rfl

/-- `rpo` is the depth-first order along the destinations that are read. -/
theorem Function.Valid.rpo (hvalid : f.Valid attrOf) :
    rpo f = .ok (depthFirstOrder f.readDestinations (f.blocks.length + 1) f.blocks) := by
  unfold FromLlvm.rpo
  rw [@foldlM_ok _ _ _ (listRoot f.readDestinations (f.blocks.length + 1)) _]
  · rfl
  · intro b hb s
    unfold listRoot
    by_cases hmem : b ∈ s.1
    · rw [if_pos hmem, if_pos hmem]
      rfl
    · rw [if_neg hmem, if_neg hmem, hvalid.rpoWalk _ hb]
      rfl

end Order

end Pliron.FromLlvm
