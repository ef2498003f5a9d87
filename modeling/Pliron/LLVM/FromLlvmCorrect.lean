/-
  Pliron.LLVM.FromLlvmCorrect

  When the import of a valid function is right.

  `successors` skips every second case of a switch, so the order of `rpo` follows only the
  destinations that are read; and in blocks that control cannot come to, nothing relates that order
  to where values are defined.  The import is right exactly when neither matters.
-/

import Pliron.LLVM.FromLlvmRuns

namespace Pliron.FromLlvm

open Lib
open DfsInv (Edge)

/-- Each block once, the entry first, and each block that control can come to after all blocks that
    dominate it. -/
structure DefinitionsFirst (f : Function) (order : List LLVMBasicBlock) : Prop where
  nodup : order.Nodup
  mem : ∀ b, b ∈ order ↔ b ∈ f.blocks
  head : order.head? = f.blocks.head?
  dominators : ∀ pre b post, order = pre ++ b :: post → f.Reachable b →
    ∀ d, f.Dominates d b → d ≠ b → d ∈ pre

/-- The import of a function is right: the successors of a block are the destinations of its
    terminator, definitions are visited before uses, and the function is converted without an
    error, each block to one that passes on every edge what the PHIs have for it. -/
structure Imports (f : Function) (attrOf : AttrOf) : Prop where
  successors : ∀ b ∈ f.blocks, ∃ succs, successors f b = .ok succs ∧
    ∀ d, d ∈ succs ↔ d ∈ f.destinations b
  order : ∃ order, rpo f = .ok order ∧ DefinitionsFirst f order
  convert : ∀ cctx : ConversionContext, ∃ cctx' : ConversionContext,
    (convertFunction f attrOf).run.run cctx = (.ok (), cctx') ∧
      ∀ b ∈ f.blocks, ∃ m, cctx'.blockMap b = some m ∧
        BlockDone f b m (firstArguments f m) cctx'

/-- In blocks that control cannot come to, each value is defined before its uses when the blocks
    are taken in the order of the visit. -/
def Function.UnreachableSeen (f : Function) : Prop :=
  ∀ pre b post, f.visitOrder = pre ++ b :: post → ¬ f.Reachable b → BlockSeen f pre b

section Covered

variable {f : Function} {attrOf : AttrOf} {b d entry : LLVMBasicBlock}

/-- With every destination read, control comes to the same blocks. -/
theorem Function.Valid.reach_readDestinations (hvalid : f.Valid attrOf)
    (hcovered : f.SwitchesCovered) (hentry : entry ∈ f.blocks)
    (hreach : Reach (Edge f.destinations) entry b) :
    b ∈ f.blocks ∧ Reach (Edge f.readDestinations) entry b := by
  have hread := hvalid.switchesCovered_iff.mp hcovered
  induction hreach with
  | refl => exact ⟨hentry, Reach.refl entry⟩
  | @tail c e _ hedge ih =>
      have hedge' : Edge f.readDestinations c e := (hread c ih.1 e).mpr hedge
      exact ⟨hvalid.destination_mem c ih.1 e hedge, Reach.tail ih.2 hedge'⟩

theorem Function.Dominates.readDestinations (h : Lib.Dominates (Edge f.destinations) entry d b) :
    Lib.Dominates (Edge f.readDestinations) entry d b := fun havoids =>
  h (havoids.mono fun _ _ hedge => readDestinations_subset hedge)

/-- What dominates a block comes before it. -/
theorem Function.Valid.dominator_mem (hvalid : f.Valid attrOf) (hcovered : f.SwitchesCovered)
    {pre post : List LLVMBasicBlock} (hsplit : f.visitOrder = pre ++ b :: post)
    (hreach : f.Reachable b) (hdom : f.Dominates d b) (hne : d ≠ b) : d ∈ pre := by
  obtain ⟨entry, hhead, hpath⟩ := hreach
  obtain ⟨entry', hhead', hdom⟩ := hdom
  obtain rfl := Option.some.inj (hhead.symm.trans hhead')
  obtain ⟨rest, hblocks⟩ := List.head?_eq_some_iff.mp hhead
  have hentry : entry ∈ f.blocks := hblocks ▸ List.mem_cons_self
  have hrest : ∀ r ∈ rest, r ∈ f.blocks := fun r hr =>
    hblocks ▸ List.mem_cons_of_mem entry hr
  have hpath' := (hvalid.reach_readDestinations hcovered hentry hpath).2
  have horder : depthFirstOrder f.readDestinations (f.blocks.length + 1) (entry :: rest) =
      pre ++ b :: post := by
    rw [← hblocks]
    exact hsplit
  exact mem_of_dominates hvalid.readDestinations_mem hrest (Nat.lt_succ_self _) hentry horder
    hpath' (Dominates.readDestinations hdom) hne

theorem Function.Valid.definitionsFirst (hvalid : f.Valid attrOf)
    (hcovered : f.SwitchesCovered) : DefinitionsFirst f f.visitOrder where
  nodup := hvalid.visitOrder_nodup
  mem := hvalid.mem_visitOrder
  head := by
    cases hblocks : f.blocks with
    | nil =>
        have hnil : f.visitOrder = [] := List.eq_nil_iff_forall_not_mem.mpr fun b hb => by
          have := (hvalid.mem_visitOrder b).mp hb
          rw [hblocks] at this
          exact List.not_mem_nil this
        rw [hnil]
    | cons entry rest =>
        have hentry : entry ∈ f.blocks := hblocks ▸ List.mem_cons_self
        have hrest : ∀ r ∈ rest, r ∈ f.blocks := fun r hr =>
          hblocks ▸ List.mem_cons_of_mem entry hr
        obtain ⟨more, hmore⟩ := depthFirstOrder_head hvalid.readDestinations_mem hrest
          (Nat.lt_succ_self _) hentry
        unfold visitOrder
        rw [show depthFirstOrder f.readDestinations (f.blocks.length + 1) f.blocks =
          entry :: more from by rw [← hmore]; exact congrArg _ hblocks]
        rfl
  dominators := fun _ _ _ hsplit hreach _ hdom hne =>
    hvalid.dominator_mem hcovered hsplit hreach hdom hne

/-- Where control can come to, dominance puts definitions before uses. -/
theorem Function.Valid.blockSeen_of_reachable (hvalid : f.Valid attrOf)
    (hcovered : f.SwitchesCovered) {pre post : List LLVMBasicBlock}
    (hsplit : f.visitOrder = pre ++ b :: post) (hreach : f.Reachable b) : BlockSeen f pre b := by
  have hb : b ∈ f.blocks := (hvalid.mem_visitOrder b).mp (hsplit ▸ by simp)
  intro i inst hinst hphi d j huse
  rcases hvalid.uses_dominated b hb hreach i inst hinst hphi d j huse with hsame | ⟨hne, hdom⟩
  · exact Or.inr hsame
  · exact Or.inl (hvalid.dominator_mem hcovered hsplit hreach hdom hne)

theorem Function.Valid.orderSeen (hvalid : f.Valid attrOf) (hcovered : f.SwitchesCovered)
    (hunreachable : f.UnreachableSeen) : OrderSeen f f.visitOrder := by
  intro pre b post hsplit
  by_cases hreach : f.Reachable b
  · exact hvalid.blockSeen_of_reachable hcovered hsplit hreach
  · exact hunreachable pre b post hsplit hreach

/-- A declaration has nothing to import. -/
theorem convertFunction_nil (hnil : f.blocks = []) (cctx : ConversionContext) :
    (convertFunction f attrOf).run.run cctx = (.ok (), cctx) := by
  unfold convertFunction
  rw [if_pos hnil]
  rfl

theorem Function.Valid.convert (hvalid : f.Valid attrOf) (hseen : OrderSeen f f.visitOrder)
    (cctx : ConversionContext) : ∃ cctx' : ConversionContext,
    (convertFunction f attrOf).run.run cctx = (.ok (), cctx') ∧
      ∀ b ∈ f.blocks, ∃ m, cctx'.blockMap b = some m ∧
        BlockDone f b m (firstArguments f m) cctx' := by
  by_cases hnil : f.blocks = []
  · refine ⟨cctx, convertFunction_nil hnil cctx, fun b hb => ?_⟩
    rw [hnil] at hb
    exact absurd hb List.not_mem_nil
  · have hspec := convertFunction_spec hvalid hnil cctx
    split at hspec
    · next cctx' heq =>
        refine ⟨cctx', heq, fun b hb => ?_⟩
        obtain ⟨i, hi⟩ := List.mem_iff_getElem?.mp ((hvalid.mem_visitOrder b).mpr hb)
        exact ⟨i, hspec.blockMap i b hi, hspec.converted i b hi⟩
    · exact absurd hseen hspec

/-- A function is only converted when definitions are visited before uses. -/
theorem Function.Valid.orderSeen_of_convert (hvalid : f.Valid attrOf)
    {cctx cctx' : ConversionContext}
    (hconvert : (convertFunction f attrOf).run.run cctx = (.ok (), cctx')) :
    OrderSeen f f.visitOrder := by
  by_cases hnil : f.blocks = []
  · intro pre b post hsplit
    have hb := (hvalid.mem_visitOrder b).mp (hsplit ▸ by simp)
    rw [hnil] at hb
    exact absurd hb List.not_mem_nil
  · have hspec := convertFunction_spec hvalid hnil cctx
    rw [hconvert] at hspec
    exact hspec.seen

end Covered

/-- The import of a valid function is right exactly when `successors` reads every destination of its
    switches, and values are visited before their uses also where control cannot come to. -/
theorem imports_iff (f : Function) (attrOf : AttrOf) (hvalid : f.Valid attrOf) :
    Imports f attrOf ↔ f.SwitchesCovered ∧ f.UnreachableSeen := by
  constructor
  · intro h
    constructor
    · rw [hvalid.switchesCovered_iff]
      intro b hb d
      obtain ⟨succs, hsuccs, hmem⟩ := h.successors b hb
      rw [hvalid.successors hb] at hsuccs
      obtain rfl := Except.ok.inj hsuccs
      exact hmem d
    · -- it succeeds from the empty context, so it has met each definition before its uses
      obtain ⟨cctx', hconvert, _⟩ := h.convert
        ⟨fun _ => none, fun _ => none, fun _ => none, 0, [], fun _ => {}, 0⟩
      exact fun pre b post hsplit _ => hvalid.orderSeen_of_convert hconvert pre b post hsplit
  · rintro ⟨hcovered, hunreachable⟩
    refine ⟨fun b hb => ?_, ⟨f.visitOrder, hvalid.rpo, hvalid.definitionsFirst hcovered⟩, ?_⟩
    · exact ⟨f.readDestinations b, hvalid.successors hb,
        hvalid.switchesCovered_iff.mp hcovered b hb⟩
    · exact hvalid.convert (hvalid.orderSeen hcovered hunreachable)

/-! ## A switch -/

/-- A switch with `n` cases, all to block 2, and with block 3 as the default destination. -/
def switchInst (n : Nat) : Instruction where
  opcode := .switch
  operands := .argument 0 :: .basicBlock 3 :: (List.replicate n 2).map .basicBlock
  caseValues := (List.range n).map .constant

/-- The switch in a function where block 1 uses what block 2 defines, and comes first in the
    layout. -/
def oneSwitch (n : Nat) : Function where
  numParams := 1
  blocks := [0, 1, 2, 3]
  instructions
    | 0 => [switchInst n]
    | 1 => [{ opcode := .ret, operands := [.instruction 2 0] }]
    | 2 => [{ opcode := .add, operands := [.argument 0, .argument 0], hasResult := true },
            { opcode := .uncondBr, operands := [.basicBlock 1] }]
    | 3 => [{ opcode := .ret, operands := [.argument 0] }]
    | _ => []
  constants := { get := fun c => .int 32 c, operand_lt := fun _ _ he => nomatch he }

section OneSwitch

variable {n : Nat}

theorem oneSwitch_destinations (b : LLVMBasicBlock) :
    (oneSwitch n).destinations b =
      match b with
      | 0 => 3 :: List.replicate n 2
      | 2 => [1]
      | _ => [] := by
  match b with
  | 0 => exact congrArg (3 :: ·) (filterMap_basicBlock (List.replicate n 2))
  | 1 => rfl
  | 2 => rfl
  | 3 => rfl
  | b + 4 => rfl

/-- Every way to block 1 goes through block 2. -/
theorem oneSwitch_dominates : (oneSwitch n).Dominates 2 1 := by
  refine ⟨0, rfl, ?_⟩
  rintro ⟨_, hpath⟩
  have hreached : ∀ b, Relation.ReflTransGen
      (fun x y => Edge (oneSwitch n).destinations x y ∧ y ≠ 2) 0 b → b = 0 ∨ b = 3 := by
    intro b hb
    induction hb with
    | refl => exact Or.inl rfl
    | tail _ hstep ih =>
        obtain ⟨hedge, hne⟩ := hstep
        unfold Edge at hedge
        rw [oneSwitch_destinations] at hedge
        rcases ih with rfl | rfl
        · rcases List.mem_cons.mp hedge with rfl | hmem
          · exact Or.inr rfl
          · exact absurd (List.eq_of_mem_replicate hmem) hne
        · exact absurd hedge List.not_mem_nil
  rcases hreached 1 hpath with h | h <;> exact absurd h (by decide)

theorem oneSwitch_phis (b : LLVMBasicBlock) : (oneSwitch n).phis b = [] := by
  match b with
  | 0 => rfl
  | 1 => rfl
  | 2 => rfl
  | 3 => rfl
  | b + 4 => rfl

theorem switchInst_endsBlock : (switchInst n).EndsBlock := by
  refine ⟨.argument 0, 3, List.replicate n 2, rfl, rfl, ?_⟩
  show ((List.range n).map LLVMValue.constant).length = _
  rw [List.length_map, List.length_range, List.length_replicate]

theorem switchInst_reads : (switchInst n).reads = [.argument 0] := by
  show valueOperands (switchInst n).operands = _
  unfold valueOperands switchInst
  rw [List.filter_cons_of_pos rfl, List.filter_cons_of_neg (by simp),
    List.filter_eq_nil_iff.mpr]
  intro v hv
  obtain ⟨d, _, rfl⟩ := List.mem_map.mp hv
  simp

/-- Only block 1 uses the result of an instruction. -/
theorem oneSwitch_uses {b : LLVMBasicBlock} {inst : Instruction} {v : LLVMValue}
    (hb : b ∈ (oneSwitch n).blocks) (hinst : inst ∈ (oneSwitch n).instructions b)
    (hv : v ∈ (oneSwitch n).uses b inst) :
    v = .argument 0 ∨ (b = 1 ∧ v = .instruction 2 0) := by
  have hreads : v ∈ inst.reads := by
    have hedges : ∀ d, (oneSwitch n).edgeValues b d = [] := fun d => by
      unfold Function.edgeValues
      rw [oneSwitch_phis]
      rfl
    unfold Function.uses at hv
    rcases List.mem_append.mp hv with hv | hv
    · exact hv
    · split at hv
      · obtain ⟨d, _, hd⟩ := List.mem_flatMap.mp hv
        rw [hedges] at hd
        exact absurd hd List.not_mem_nil
      · exact absurd hv List.not_mem_nil
  simp only [oneSwitch, List.mem_cons, List.not_mem_nil, or_false] at hb
  rcases hb with rfl | rfl | rfl | rfl
  · obtain rfl := List.mem_singleton.mp hinst
    rw [switchInst_reads] at hreads
    exact Or.inl (List.mem_singleton.mp hreads)
  · obtain rfl := List.mem_singleton.mp hinst
    exact Or.inr ⟨rfl, List.mem_singleton.mp hreads⟩
  · rcases List.mem_cons.mp hinst with rfl | hinst
    · exact Or.inl (by simp_all [Instruction.reads, valueOperands])
    · obtain rfl := List.mem_singleton.mp hinst
      exact absurd hreads List.not_mem_nil
  · obtain rfl := List.mem_singleton.mp hinst
    exact Or.inl (List.mem_singleton.mp hreads)

theorem oneSwitch_valid (n : Nat) (attrOf : AttrOf) : (oneSwitch n).Valid attrOf where
  blocks_nodup := (by decide : [0, 1, 2, 3].Nodup)
  block_form := by
    intro b hb
    simp only [oneSwitch, List.mem_cons, List.not_mem_nil, or_false] at hb
    rcases hb with rfl | rfl | rfl | rfl
    · exact ⟨[], [], switchInst n, rfl, by simp, by simp, switchInst_endsBlock, rfl⟩
    · exact ⟨[], [], _, rfl, by simp, by simp, Or.inr ⟨.instruction 2 0, rfl, rfl⟩, rfl⟩
    · refine ⟨[], [_], _, rfl, by simp, ?_, ⟨1, rfl⟩, rfl⟩
      intro inst hinst
      obtain rfl := List.mem_singleton.mp hinst
      exact ⟨by decide, rfl, by decide, by decide, Or.inr (Or.inr ⟨2, rfl, by decide⟩)⟩
    · exact ⟨[], [], _, rfl, by simp, by simp, Or.inr ⟨.argument 0, rfl, rfl⟩, rfl⟩
  destination_mem := by
    intro b hb d hd
    rw [oneSwitch_destinations] at hd
    simp only [oneSwitch, List.mem_cons, List.not_mem_nil, or_false] at hb ⊢
    rcases hb with rfl | rfl | rfl | rfl
    · rcases List.mem_cons.mp hd with rfl | hd
      · simp
      · simp [List.eq_of_mem_replicate hd]
    · exact absurd hd List.not_mem_nil
    · simp [List.mem_singleton.mp hd]
    · exact absurd hd List.not_mem_nil
  entry := by
    rintro _ ⟨⟩
    refine ⟨rfl, fun b _ hd => ?_⟩
    rw [oneSwitch_destinations] at hd
    split at hd
    · rcases List.mem_cons.mp hd with h | h
      · exact absurd h (by decide)
      · exact absurd (List.eq_of_mem_replicate h) (by decide)
    · exact absurd (List.mem_singleton.mp hd) (by decide)
    · exact absurd hd List.not_mem_nil
  incoming := by
    intro b _ d _ p hp
    rw [oneSwitch_phis] at hp
    exact absurd hp List.not_mem_nil
  uses_exist := by
    intro b hb inst hinst _ v hv
    rcases oneSwitch_uses hb hinst hv with rfl | ⟨_, rfl⟩
    · exact Nat.one_pos
    · exact ⟨(by decide : 2 ∈ [0, 1, 2, 3]), _, rfl, rfl⟩
  uses_dominated := by
    intro b hb _ i inst hinst _ d j huse
    rcases oneSwitch_uses hb (List.mem_of_getElem? hinst) huse with h | ⟨rfl, h⟩
    · exact nomatch h
    · obtain ⟨rfl, rfl⟩ := LLVMValue.instruction.inj h
      exact Or.inr ⟨by decide, oneSwitch_dominates⟩
  case_values := by
    intro b hb inst hinst hop v hv
    simp only [oneSwitch, List.mem_cons, List.not_mem_nil, or_false] at hb
    rcases hb with rfl | rfl | rfl | rfl
    · obtain rfl := List.mem_singleton.mp hinst
      obtain ⟨c, _, rfl⟩ := List.mem_map.mp hv
      exact ⟨c, 32, c, rfl, rfl⟩
    · obtain rfl := List.mem_singleton.mp hinst
      exact nomatch hop
    · rcases List.mem_cons.mp hinst with rfl | hinst
      · exact nomatch hop
      · obtain rfl := List.mem_singleton.mp hinst
        exact nomatch hop
    · obtain rfl := List.mem_singleton.mp hinst
      exact nomatch hop
  constants := fun c => ⟨by decide, by decide⟩

/-- With two cases to the same block, the destination is read for the second. -/
theorem imports_iff_oneSwitch : Imports (oneSwitch 2) (fun _ => none) := by
  rw [imports_iff (oneSwitch 2) (fun _ => none) (oneSwitch_valid 2 _)]
  constructor
  · rw [(oneSwitch_valid 2 fun _ => none).switchesCovered_iff]
    intro b hb d
    simp only [oneSwitch, List.mem_cons, List.not_mem_nil, or_false] at hb
    rcases hb with rfl | rfl | rfl | rfl
    · rw [oneSwitch_destinations]
      simp [show (oneSwitch 2).readDestinations 0 = [3, 2] from rfl]
    all_goals rfl
  · intro pre b post hsplit hnot
    have hb := ((oneSwitch_valid 2 fun _ => none).mem_visitOrder b).mp (hsplit ▸ by simp)
    apply absurd _ hnot
    have hedge : ∀ x y, y ∈ (oneSwitch 2).destinations x → Edge (oneSwitch 2).destinations x y :=
      fun _ _ h => h
    have h2 : Reach (Edge (oneSwitch 2).destinations) 0 2 :=
      Relation.ReflTransGen.single (hedge 0 2 (by rw [oneSwitch_destinations]; decide))
    refine ⟨0, rfl, ?_⟩
    simp only [oneSwitch, List.mem_cons, List.not_mem_nil, or_false] at hb
    rcases hb with rfl | rfl | rfl | rfl
    · exact Reach.refl 0
    · exact h2.tail (hedge 2 1 (by rw [oneSwitch_destinations]; decide))
    · exact h2
    · exact Relation.ReflTransGen.single (hedge 0 3 (by rw [oneSwitch_destinations]; decide))

/-- With one case, its destination is not read: block 1 comes before the block that dominates it,
    and its use of a value that is not defined yet ends the import. -/
theorem not_imports_oneSwitch :
    (oneSwitch 1).Valid (fun _ => none) ∧ (oneSwitch 1).destinations 0 = [3, 2] ∧
      successors (oneSwitch 1) 0 = .ok [3] ∧ rpo (oneSwitch 1) = .ok [0, 3, 1, 2] ∧
      ((convertFunction (oneSwitch 1) fun _ => none).run.run
        ⟨fun _ => none, fun _ => none, fun _ => none, 0, [], fun _ => {}, 0⟩).1 = .error .panic ∧
      ¬ Imports (oneSwitch 1) (fun _ => none) := by
  have hsuccs : successors (oneSwitch 1) 0 = .ok [3] := rfl
  refine ⟨oneSwitch_valid 1 _, oneSwitch_destinations 0, hsuccs, rfl, by decide +kernel,
    fun h => ?_⟩
  obtain ⟨succs, heq, hmem⟩ := h.successors 0 (by decide : 0 ∈ [0, 1, 2, 3])
  rw [hsuccs] at heq
  obtain rfl := Except.ok.inj heq
  have h2 := (hmem 2).mpr (by rw [oneSwitch_destinations]; decide)
  exact absurd h2 (by decide)

end OneSwitch

end Pliron.FromLlvm
