/-
  Pliron.IRBuild.RewriterCorrect

  When erasing through the rewriter goes through.

  The comment in `erase_region` says that blocks are erased in post-order, so that
  uses go before definitions; the loop over their operations runs through the
  reversed post-order.  So a result that is used in another block, which the block
  of its definition dominates, is erased while that use is still there, and the
  assertion of `Operation::erase` fails.  In all other valid IR the erasure
  completes.
-/

import Pliron.IRBuild.EraseUses

namespace Pliron

open Pliron.Lib Traversals

namespace Context

variable {ctx : Context} {node : IRNode} {fuel : Nat} {op user : OpPtr}

/-- `node` is part of valid IR, and nothing that is defined inside is used outside. -/
structure SelfContained (ctx : Context) (node : IRNode) : Prop where
  wellFormed : ctx.WellFormed
  defUse : ctx.DefUse
  allocated : ctx.isAllocated node = true
  /-- Definitions inside the node dominate their uses. -/
  dominated : ∀ user, ∀ r ∈ ctx.refsOf user, ∀ value, r.2 = .value value →
    ctx.Inside node r.2.definer → ctx.UseDominated value user
  /-- Branches to a block inside the node are in the region of that block. -/
  branches : ∀ user, ∀ r ∈ ctx.refsOf user, ∀ block, r.2 = .block block →
    ctx.Inside node r.2.definer → ∃ region anc, ctx.blockParentRegion block = some region ∧
      ctx.IsAncestorIn region user anc
  closed : ∀ user, ∀ r ∈ ctx.refsOf user, ctx.Inside node r.2.definer →
    ctx.Inside node (.operation user)

/-- Results of the operations inside the node are only used in the block of their definition: by
    the operation itself or by later ones, or by what these contain. -/
def UsedInOwnBlocks (ctx : Context) (node : IRNode) : Prop :=
  ∀ op user, ctx.Inside node (.operation op) → ctx.RefersTo user (.operation op) →
    ctx.UsedBelow op user

/-- A dominated use of a result is placed as dominance has it. -/
theorem placed_of_useDominated (h : ctx.WellFormed) {value : Value}
    (hvalue : value.definingEntity = .op op) (huse : ctx.UseDominated value user) :
    ∃ block region anc block', ctx.Placed op user block region anc block' := by
  obtain ⟨defBlock, region, hdef, hregion, anc, block, ⟨habove, hancr⟩, hblock, hyes, hno⟩ := huse
  have hop : ctx.opParentBlock op = some defBlock := by
    rw [← hdef, valueParentBlock, hvalue]
  obtain ⟨block₁, hblock₁, hblockr⟩ := opParentRegion_eq_some.mp hancr
  obtain rfl := Option.some.inj (hblock.symm.trans hblock₁)
  refine ⟨defBlock, region, anc, block, hop, hregion, hblock, hblockr, inside_op_of_above habove, ?_⟩
  intro hne
  have hgraph : ctx.DefinedInGraph region defBlock block := by
    obtain ⟨ssa, hssa⟩ := exists_hasSsaDominance h hregion
    cases ssa with
    | false => exact hno hssa
    | true =>
        have hmem : op ∈ ctx.blockOps defBlock := (h.nested.op_mem defBlock op).mpr hop
        have hk : (ctx.defPoint value defBlock).2 ≤ (ctx.blockOps defBlock).length := by
          rw [defPoint, hvalue]
          exact List.idxOf_lt_length_of_mem hmem
        have hbefore := (definedBefore_iff h hk hregion).mp (hyes hssa)
        rwa [if_neg hne] at hbefore
  obtain ⟨⟨r, hr, hreach⟩, hdom⟩ := hgraph.resolve_left hne
  exact idxOf_lt_of_strictlyDominates (h.graph region) hr hreach ⟨hdom r hr, Ne.symm hne⟩

namespace SelfContained

variable (h : ctx.SelfContained node)

include h

theorem placed (hop : ctx.Inside node (.operation op)) (huser : ctx.RefersTo user (.operation op)) :
    ∃ block region anc block', ctx.Placed op user block region anc block' := by
  obtain ⟨r, hr, hdef⟩ := huser
  obtain ⟨value, hvalue, hent⟩ := definer_eq_operation_iff.mp hdef
  exact placed_of_useDominated h.wellFormed hent
    (h.dominated user r hr value hvalue (hdef ▸ hop))

/-- Users of a block or of its arguments are in its region. -/
theorem goneInTime_basicBlock {block : BlockPtr} (hblock : ctx.Inside node (.basicBlock block))
    (huser : ctx.RefersTo user (.basicBlock block)) :
    ctx.GoneInTime user (.basicBlock block) := by
  have hn := h.wellFormed.nested
  have hin : ∀ {region anc}, ctx.IsAncestorIn region user anc →
      ctx.Inside (.region region) (.operation user) := by
    rintro region anc ⟨habove, hregion⟩
    obtain ⟨block', hblock', hparent⟩ := opParentRegion_eq_some.mp hregion
    have hinner := inside_op_of_above habove
    have hblock'' : ctx.parentNode (.operation anc) = some (.basicBlock block') := by
      simp [parentNode, hblock']
    have hregion' : ctx.parentNode (.basicBlock block') = some (.region region) := by
      simp [parentNode, hparent]
    exact (Relation.ReflTransGen.tail hinner hblock'').tail hregion'
  obtain ⟨r, hr, hdef⟩ := huser
  rcases definer_eq_basicBlock_iff.mp hdef with heq | ⟨value, hvalue, hent⟩
  · obtain ⟨region, anc, hregion, hanc⟩ := h.branches user r hr block heq (hdef ▸ hblock)
    exact ⟨region, hregion, hin hanc⟩
  · obtain ⟨defBlock, region, hdefBlock, hregion, anc, _, hanc, _⟩ :=
      h.dominated user r hr value hvalue (hdef ▸ hblock)
    rw [valueParentBlock, hent] at hdefBlock
    obtain rfl := Option.some.inj hdefBlock
    exact ⟨region, hregion, hin hanc⟩

/-- Every erasure goes through exactly if results are only used in their own blocks. -/
theorem unreferred_along_iff (hfits : ctx.Fits fuel node) :
    Along ctx.Unreferred [] (ctx.eraseOrder fuel node) ↔ ctx.UsedInOwnBlocks node := by
  have hclosed : ∀ {user x}, ctx.RefersTo user x → ctx.Inside node x →
      ctx.Inside node (.operation user) := by
    rintro user x ⟨r, hr, rfl⟩ hx
    exact h.closed user r hr hx
  constructor
  · intro halong op user hop huser
    by_cases hroot : node = .operation op
    · obtain ⟨block, _, _, _, hp⟩ := h.placed hop huser
      have hin := hclosed huser hop
      rw [hroot] at hin
      exact ⟨block, op, hp.opBlock, hp.opBlock, hin, Nat.le_refl _⟩
    · exact usedBelow_of_along h.wellFormed hfits (fun op user => h.placed) (by simp) (by simp)
        halong op hop hroot user huser
  · intro hused
    refine unreferred_along h.wellFormed hfits (fun x hx user huser => Or.inr ?_)
    split
    · exact hclosed huser hx
    · rcases x with op | block | region
      · exact hused op user hx huser
      · exact h.goneInTime_basicBlock hx huser
      · trivial

end SelfContained

end Context

namespace IRRewriter

open Context

variable {st st' : IRRewriter} {node : IRNode} {fuel : Nat}

/-- The node and everything in it is gone and nothing else is, and the listener has heard of each
    of these nodes once, while it was there. -/
structure ErasedWhole (st st' : IRRewriter) (node : IRNode) : Prop where
  allocated : ∀ x, st'.ctx.isAllocated x = true ↔
    st.ctx.isAllocated x = true ∧ ¬ st.ctx.Inside node x
  erasures : ∃ log, st'.erasures = st.erasures ++ log ∧ (log.map Prod.snd).Nodup ∧
    (∀ x, x ∈ log.map Prod.snd ↔ st.ctx.Inside node x) ∧ ∀ e ∈ log, e.1.isAllocated e.2 = true
  defUse : st'.ctx.DefUse

theorem nodup_of_along {ctx : Context} {done l : List IRNode}
    (h : Along ctx.Erasable done l) : l.Nodup := by
  induction l generalizing done with
  | nil => exact List.nodup_nil
  | cons x l ih =>
      refine List.nodup_cons.mpr ⟨fun hx => ?_, ih h.2⟩
      obtain ⟨_, _, _, hpos⟩ := h.2.of_mem hx
      refine hpos.not_done (List.mem_append_left _ ?_)
      exact List.mem_append_right _ (List.mem_singleton_self x)

/-- The procedures of the rewriter run through the order of erasure or panic. -/
theorem eraseNode_spec (h : st.ctx.WellFormed) (hdefUse : st.ctx.DefUse)
    (halloc : st.ctx.isAllocated node = true) (hfuel : st.ctx.nodeCount < fuel) :
    ((∃ st', eraseNode fuel st node = some st') ↔
        Along st.ctx.Unreferred [] (st.ctx.eraseOrder fuel node)) ∧
      ∀ st', eraseNode fuel st node = some st' → ErasedWhole st st' node := by
  have hfits := Fits.of_nodeCount h.nested hfuel node
  have hready : Along st.ctx.Erasable [] (st.ctx.eraseOrder fuel node) :=
    erasable_along h hfits halloc (by simp)
  have hstart := Erased.refl hdefUse
  have hsteps : Steps eraseStep (Erased st) st.ctx.Erasable st.ctx.Unreferred :=
    eraseStep_steps h.nested
  rw [eraseNode_eq_run h hfits halloc hready hstart]
  refine ⟨hsteps.run_iff hstart hready, fun st' hrun => ?_⟩
  have hend := hsteps.run_keeps hstart hready hrun
  rw [List.nil_append] at hend
  obtain ⟨log, hlog, hnodes, hshown⟩ := hend.erasures
  refine ⟨fun x => ?_, ⟨log, hlog, ?_, fun x => ?_, hshown⟩, hend.remains.defUse⟩
  · rw [hend.remains.allocated, mem_eraseOrder h hfits]
  · rw [hnodes]
    exact nodup_of_along hready
  · rw [hnodes, mem_eraseOrder h hfits]

/-- In valid IR, erasing a node that nothing outside uses completes, and erases and notifies as
    it should, exactly if results are only used in the block of their definition. -/
theorem eraseNode_completes_iff (h : st.ctx.SelfContained node) (hfuel : st.ctx.nodeCount < fuel) :
    (∃ st', eraseNode fuel st node = some st' ∧ ErasedWhole st st' node) ↔
      st.ctx.UsedInOwnBlocks node := by
  have hfits := Fits.of_nodeCount h.wellFormed.nested hfuel node
  obtain ⟨hiff, hwhole⟩ := eraseNode_spec h.wellFormed h.defUse h.allocated hfuel
  rw [← h.unreferred_along_iff hfits, ← hiff]
  constructor
  · rintro ⟨st', hrun, _⟩
    exact ⟨st', hrun⟩
  · rintro ⟨st', hrun⟩
    exact ⟨st', hrun, hwhole st' hrun⟩

end IRRewriter

/-! ## A use in a dominated block -/

namespace Context

/-- Block 0 defines a value and branches to block 1, which uses the value. -/
def crossBlock : Context where
  valueCounter := 1
  useCounter := 2
  operations := fun op => match op.idx with
    | 0 => some { concreteOp := { opId := 0 }, results := [⟨⟨[⟨⟨2⟩, 1⟩]⟩, 0, 0⟩],
                  parentBlock := some ⟨0⟩ }
    | 1 => some { concreteOp := { opId := 1, isTerminator := true, isBranch := true },
                  successors := [⟨0, ⟨1⟩⟩], parentBlock := some ⟨0⟩ }
    | 2 => some { concreteOp := { opId := 2, isTerminator := true },
                  operands := [⟨1, ⟨0, .op ⟨0⟩⟩⟩], parentBlock := some ⟨1⟩ }
    | 3 => some { concreteOp := { opId := 3 }, regions := [⟨0⟩] }
    | _ => none
  basicBlocks := fun block => match block.idx with
    | 0 => some { ops := [⟨0⟩, ⟨1⟩], parentRegion := some ⟨0⟩ }
    | 1 => some { ops := [⟨2⟩], preds := ⟨[⟨⟨1⟩, 0⟩]⟩, parentRegion := some ⟨0⟩ }
    | _ => none
  regions := fun region => match region.idx with
    | 0 => some { parentOp := ⟨3⟩, blocks := [⟨0⟩, ⟨1⟩] }
    | _ => none
  nextOp := 4
  nextBlock := 2
  nextRegion := 1

theorem crossBlock_wellNested : crossBlock.WellNested where
  op_mem := by
    rintro ⟨_ | _ | i⟩ ⟨_ | _ | _ | _ | j⟩ <;> simp [blockOps, opParentBlock, crossBlock]
  block_mem := by
    rintro ⟨_ | i⟩ ⟨_ | _ | j⟩ <;> simp [regionBlocks, blockParentRegion, crossBlock]
  region_mem := by
    rintro ⟨_ | _ | _ | _ | i⟩ ⟨_ | j⟩ <;> simp [opRegions, regionParentOp, crossBlock]
  ops_nodup := by
    rintro ⟨_ | _ | i⟩ <;> simp [blockOps, crossBlock]
  blocks_nodup := by
    rintro ⟨_ | i⟩ <;> simp [regionBlocks, crossBlock]
  regions_nodup := by
    rintro ⟨_ | _ | _ | _ | i⟩ <;> simp [opRegions, crossBlock]
  op_lt := by
    rintro ⟨_ | _ | _ | _ | i⟩ <;> simp [crossBlock]
  block_lt := by
    rintro ⟨_ | _ | i⟩ <;> simp [crossBlock]
  region_lt := by
    rintro ⟨_ | i⟩ <;> simp [crossBlock]
  acyclic := by
    refine ⟨fun op => if op.idx = 3 then 0 else 1, ?_⟩
    rintro ⟨_ | _ | _ | _ | i⟩ parent <;>
      simp [parentOp, opParentRegion, opParentBlock, blockParentRegion, regionParentOp,
        crossBlock] <;> rintro rfl <;> simp

theorem crossBlock_wellFormed : crossBlock.WellFormed where
  nested := crossBlock_wellNested
  graph := by
    rintro ⟨_ | i⟩
    · exact ⟨by decide, by decide, rfl⟩
    · exact ⟨by simp [regionGraph, regionBlocks, crossBlock],
        by simp [regionGraph, regionBlocks, crossBlock], rfl⟩

theorem crossBlock_refsOf (op : OpPtr) : crossBlock.refsOf op =
    match op.idx with
    | 1 => [(0, .block ⟨1⟩)]
    | 2 => [(1, .value ⟨0, .op ⟨0⟩⟩)]
    | _ => [] := by
  rcases op with ⟨_ | _ | _ | _ | i⟩ <;> rfl

theorem crossBlock_usePairs {d : Def} {us : List (OpPtr × Nat)}
    (h : crossBlock.usePairs d = some us) :
    (d = .value ⟨0, .op ⟨0⟩⟩ ∧ us = [(⟨2⟩, 1)]) ∨ (d = .block ⟨1⟩ ∧ us = [(⟨1⟩, 0)]) ∨
      us = [] := by
  rcases d with ⟨uid, ⟨_ | _ | _ | _ | i⟩ | ⟨_ | _ | i⟩⟩ | ⟨_ | _ | i⟩
  · by_cases huid : uid = 0
    · subst huid
      exact Or.inl ⟨rfl, (Option.some.inj h).symm⟩
    · simp [usePairs, usesOf, valueUses, valueDef, crossBlock, Ne.symm huid] at h
  all_goals simp [usePairs, usesOf, valueUses, valueDef, crossBlock, Use.pair] at h
  · exact Or.inr (Or.inr h)
  · exact Or.inr (Or.inl ⟨rfl, h.symm⟩)

theorem crossBlock_defUse : crossBlock.DefUse where
  vals_nodup := by
    rintro (⟨_ | _ | _ | _ | i⟩ | ⟨_ | _ | i⟩) <;> simp [valueDefs, crossBlock]
  vals_lt := by
    rintro (⟨_ | _ | _ | _ | i⟩ | ⟨_ | _ | i⟩) <;> simp [valueDefs, crossBlock]
  op_lt := crossBlock_wellNested.op_lt
  block_lt := crossBlock_wellNested.block_lt
  consistent := by
    refine ⟨?_, ?_, ?_, ?_⟩
    · rintro ⟨_ | _ | _ | _ | i⟩ r hr <;> simp [crossBlock_refsOf] at hr
      · subst hr
        exact ⟨[(⟨1⟩, 0)], rfl, by simp⟩
      · subst hr
        exact ⟨[(⟨2⟩, 1)], by decide, by simp⟩
    · intro d us hus u hu
      rcases crossBlock_usePairs hus with ⟨rfl, rfl⟩ | ⟨rfl, rfl⟩ | rfl
      · obtain rfl := List.mem_singleton.mp hu
        simp [crossBlock_refsOf]
      · obtain rfl := List.mem_singleton.mp hu
        simp [crossBlock_refsOf]
      · exact absurd hu List.not_mem_nil
    · rintro ⟨_ | _ | _ | _ | i⟩ <;> simp [crossBlock_refsOf]
    · intro d us hus
      rcases crossBlock_usePairs hus with ⟨_, rfl⟩ | ⟨_, rfl⟩ | rfl <;> simp
  ids_lt := by
    intro op r hr
    show r.1 < 2
    rcases op with ⟨_ | _ | _ | _ | i⟩ <;> simp [crossBlock_refsOf] at hr <;> simp [hr]

/-- The value is not used in the block that defines it. -/
theorem crossBlock_not_usedInOwnBlocks : ¬ crossBlock.UsedInOwnBlocks (.region ⟨0⟩) := by
  intro hused
  have hop : crossBlock.Inside (.region ⟨0⟩) (.operation ⟨0⟩) :=
    Relation.ReflTransGen.head (b := .basicBlock ⟨0⟩) rfl (Relation.ReflTransGen.single rfl)
  obtain ⟨block, anc, hblock, hanc, hin, _⟩ := hused ⟨0⟩ ⟨2⟩ hop ⟨_, List.mem_singleton_self _, rfl⟩
  obtain rfl : (⟨0⟩ : BlockPtr) = block := Option.some.inj hblock
  -- what contains the user is the user, its block, the region or its operation
  rcases Above.cases_head hin with heq | ⟨p, hp, hin⟩
  · obtain rfl := IRNode.operation.inj heq
    exact absurd hanc (by decide)
  · obtain rfl : IRNode.basicBlock ⟨1⟩ = p := Option.some.inj hp
    rcases Above.cases_head hin with heq | ⟨p, hp, hin⟩
    · cases heq
    · obtain rfl : IRNode.region ⟨0⟩ = p := Option.some.inj hp
      rcases Above.cases_head hin with heq | ⟨p, hp, hin⟩
      · cases heq
      · obtain rfl : IRNode.operation ⟨3⟩ = p := Option.some.inj hp
        rcases Above.cases_head hin with heq | ⟨p, hp, _⟩
        · obtain rfl := IRNode.operation.inj heq
          exact absurd hanc (by decide)
        · cases hp

/-- The region of `crossBlock` is valid and is used by nobody else. -/
theorem crossBlock_selfContained : crossBlock.SelfContained (.region ⟨0⟩) where
  wellFormed := crossBlock_wellFormed
  defUse := crossBlock_defUse
  allocated := rfl
  dominated := by
    rintro ⟨_ | _ | _ | _ | i⟩ r hr value hvalue _ <;> simp [crossBlock_refsOf] at hr
    · rw [hr] at hvalue
      cases hvalue
    · rw [hr] at hvalue
      obtain rfl := Def.value.inj hvalue
      rcases valueStrictlyDominatesOp_spec crossBlock_wellFormed ⟨0, .op ⟨0⟩⟩ ⟨2⟩ with
        ⟨b, hret, hiff⟩ | ⟨_, defBlock, hdef, hregion⟩
      · obtain ⟨info, hrun, _⟩ := hret [] (by simp [DomInfo.Valid])
        have hrun' : ((DomInfo.valueStrictlyDominatesOp crossBlock ⟨0, .op ⟨0⟩⟩ ⟨2⟩).run []).map
            Prod.fst = some true := by decide +kernel
        rw [hrun] at hrun'
        exact hiff.mp (Option.some.inj hrun')
      · obtain rfl : (⟨0⟩ : BlockPtr) = defBlock := Option.some.inj hdef
        cases hregion
  branches := by
    rintro ⟨_ | _ | _ | _ | i⟩ r hr block hblock _ <;> simp [crossBlock_refsOf] at hr
    · rw [hr] at hblock
      obtain rfl := Def.block.inj hblock
      exact ⟨⟨0⟩, ⟨1⟩, rfl, Above.refl _, rfl⟩
    · rw [hr] at hblock
      cases hblock
  closed := by
    have hinside : ∀ op block, crossBlock.opParentBlock op = some block →
        crossBlock.blockParentRegion block = some ⟨0⟩ →
        crossBlock.Inside (.region ⟨0⟩) (.operation op) := by
      intro op block hop hblock
      refine Relation.ReflTransGen.head (b := .basicBlock block) (by simp [parentNode, hop]) ?_
      exact Relation.ReflTransGen.single (by simp [parentNode, hblock])
    rintro ⟨_ | _ | _ | _ | i⟩ r hr _ <;> simp [crossBlock_refsOf] at hr
    · exact hinside ⟨1⟩ ⟨0⟩ rfl rfl
    · exact hinside ⟨2⟩ ⟨1⟩ rfl rfl

end Context

namespace IRRewriter

open Context

/-- Erasing the region panics, whatever the fuel. -/
theorem crossBlock_panics : crossBlock.SelfContained (.region ⟨0⟩) ∧
    ∀ fuel, crossBlock.nodeCount < fuel →
      eraseRegion fuel { ctx := crossBlock } ⟨0⟩ = none := by
  refine ⟨crossBlock_selfContained, fun fuel hfuel => ?_⟩
  have hiff : (∃ st', eraseNode fuel { ctx := crossBlock } (.region ⟨0⟩) = some st') ↔
      Along crossBlock.Unreferred [] (crossBlock.eraseOrder fuel (.region ⟨0⟩)) :=
    (eraseNode_spec crossBlock_wellFormed crossBlock_defUse rfl hfuel).1
  refine Option.eq_none_iff_forall_ne_some.mpr (fun st' hrun => ?_)
  refine crossBlock_not_usedInOwnBlocks ?_
  rw [← crossBlock_selfContained.unreferred_along_iff
    (Fits.of_nodeCount crossBlock_wellNested hfuel _)]
  exact hiff.mp ⟨st', hrun⟩

theorem eraseNode_completes_iff_crossBlock :
    (∃ st', eraseNode 8 { ctx := crossBlock } (.region ⟨0⟩) = some st' ∧
      ErasedWhole { ctx := crossBlock } st' (.region ⟨0⟩)) ↔
        crossBlock.UsedInOwnBlocks (.region ⟨0⟩) :=
  eraseNode_completes_iff crossBlock_selfContained (by decide)

end IRRewriter

end Pliron
