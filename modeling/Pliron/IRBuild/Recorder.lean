/-
  Pliron.IRBuild.Recorder

  The listener that records events, and undoing what it recorded.

  When an operation or a block is about to be unlinked, the recorder notes its position: an end
  of the list, or else the neighbour before it.  Inserted again at these positions, the last one
  first, all of them are where they were.
-/

import Pliron.IRBuild.InserterCorrect

namespace Pliron

open Context Function

/-! ## The recorder -/

/-- Events recorded by the listener. -/
inductive RecorderEvent where
  | insertedOperation (op : OpPtr)
  | insertedBlock (block : BlockPtr)
  | unlinkedOperation (op : OpPtr) (previousPosition : OpInsertionPoint)
  | unlinkedBlock (block : BlockPtr) (previousPosition : BlockInsertionPoint)
deriving DecidableEq, Repr

namespace Recorder

/-- The position of a node in the list of its container; panics if it is not there. -/
def previousPosition {ν κ : Type} [DecidableEq ν] (container : κ) (l : List ν) (node : ν) :
    Option (InsertPoint ν κ) :=
  if l.head? = some node then some (.atFront container)
  else if l.getLast? = some node then some (.atBack container)
  else (l[l.idxOf node - 1]?).map .after

/-- What the recorder makes of a notification, in the context that it is shown. -/
def notify (ctx : Context) : PlacementEvent → Option RecorderEvent
  | .operationInserted op => some (.insertedOperation op)
  | .blockInserted block => some (.insertedBlock block)
  | .operationUnlinking op => do
      let parent ← (← ctx.operations op).parentBlock
      let position ← previousPosition parent (← ctx.basicBlocks parent).ops op
      some (.unlinkedOperation op (.set position))
  | .blockUnlinking block => do
      let parent ← (← ctx.basicBlocks block).parentRegion
      let position ← previousPosition parent (← ctx.regions parent).blocks block
      some (.unlinkedBlock block (.set position))

/-- The recorded events. -/
def events (placements : List (Context × PlacementEvent)) : Option (List RecorderEvent) :=
  placements.mapM (fun e => notify e.1 e.2)

/-- Insert what an event has unlinked at its previous position. -/
def reinsert (ctx : Context) : RecorderEvent → Option Context
  | .unlinkedOperation op position => ctx.insertOperation op position
  | .unlinkedBlock block (.set point) => ctx.linkBlock block point
  | .unlinkedBlock _ .unset => none
  | .insertedOperation _ => some ctx
  | .insertedBlock _ => some ctx

/-- Undo events, the last one first. -/
def undo (ctx : Context) (events : List RecorderEvent) : Option Context :=
  events.reverse.foldlM reinsert ctx

end Recorder

/-- An unlinking that a rewriter is asked for. -/
inductive Unlinking where
  | operation (op : OpPtr)
  | block (block : BlockPtr)
deriving DecidableEq, Repr

namespace PlacingRewriter

def unlink (st : PlacingRewriter) : Unlinking → Option PlacingRewriter
  | .operation op => st.unlinkOperation op
  | .block block => st.unlinkBlock block

/-- Unlink operations and blocks, one after the other. -/
def unlinkAll : PlacingRewriter → List Unlinking → Option PlacingRewriter
  | st, [] => some st
  | st, u :: us => do unlinkAll (← st.unlink u) us

end PlacingRewriter

/-! ## Lists -/

section Lists

variable {ν κ : Type} [DecidableEq ν] {l pre post : List ν} {node : ν}

/-- The position is recorded, and inserting there undoes the removal.  After a neighbour the
    position is in the same list. -/
theorem insertNode_previousPosition (container : κ) (hl : l.Nodup) (hnode : node ∈ l) :
    ∃ position : InsertPoint ν κ, Recorder.previousPosition container l node = some position ∧
      insertNode position node (l.erase node) = l ∧
      (position = .atFront container ∨ position = .atBack container ∨
        ∃ mark ∈ l, mark ≠ node ∧ position = .after mark) := by
  obtain ⟨pre, post, rfl⟩ := List.append_of_mem hnode
  have hnot : node ∉ pre := fun hmem =>
    (List.nodup_append.mp hl).2.2 node hmem node List.mem_cons_self rfl
  have herase : (pre ++ node :: post).erase node = pre ++ post := by
    rw [List.erase_append_right _ hnot, List.erase_cons_head]
  rw [Recorder.previousPosition, herase]
  by_cases hhead : (pre ++ node :: post).head? = some node
  · -- the first of the list goes back to the front
    rw [if_pos hhead]
    have hpre : pre = [] := by
      cases pre with
      | nil => rfl
      | cons x pre =>
          obtain rfl : x = node := Option.some.inj hhead
          exact absurd List.mem_cons_self hnot
    subst hpre
    exact ⟨_, rfl, rfl, Or.inl rfl⟩
  · rw [if_neg hhead]
    by_cases hlast : (pre ++ node :: post).getLast? = some node
    · -- the last of the list goes back to the end
      rw [if_pos hlast]
      have hpost : post = [] := by
        cases hlist : post.getLast? with
        | none => exact List.getLast?_eq_none_iff.mp hlist
        | some x =>
            rw [List.getLast?_append, List.getLast?_cons, hlist] at hlast
            obtain rfl : x = node := Option.some.inj hlast
            have hmem : x ∈ post := List.mem_of_getLast? hlist
            have hcons := (List.nodup_append.mp hl).2.1
            exact absurd hmem (List.nodup_cons.mp hcons).1
      subst hpost
      refine ⟨_, rfl, ?_, Or.inr (Or.inl rfl)⟩
      rw [insertNode, List.append_nil]
    · rw [if_neg hlast]
      -- the neighbour before the node
      obtain ⟨front, mark, rfl⟩ : ∃ front mark, pre = front ++ [mark] := by
        cases hpre : pre.getLast? with
        | none =>
            rw [List.getLast?_eq_none_iff.mp hpre] at hhead
            exact absurd rfl hhead
        | some mark =>
            obtain ⟨front, hfront⟩ := List.getLast?_eq_some_iff.mp hpre
            exact ⟨front, mark, hfront⟩
      have hidx : (front ++ [mark] ++ node :: post).idxOf node = front.length + 1 := by
        rw [List.idxOf_append_of_notMem hnot, List.idxOf_cons_self, List.length_append]
        rfl
      have hmark : mark ∉ front := by
        intro hmem
        have hnodup := (List.nodup_append.mp (List.nodup_append.mp hl).1).2.2
        exact hnodup mark hmem mark List.mem_cons_self rfl
      have hget : (front ++ [mark] ++ node :: post)[front.length]? = some mark := by
        rw [List.append_assoc, List.getElem?_append_right (Nat.le_refl _), Nat.sub_self]
        rfl
      have hne : mark ≠ node := by
        rintro rfl
        exact hnot (List.mem_append_right _ List.mem_cons_self)
      refine ⟨.after mark, ?_, ?_, Or.inr (Or.inr ⟨mark, ?_, hne, rfl⟩)⟩
      · rw [hidx, Nat.add_sub_cancel, hget]
        rfl
      · rw [List.append_assoc, List.append_assoc]
        exact insertNode_after hmark
      · exact List.mem_append_left _ (List.mem_append_right _ List.mem_cons_self)

end Lists

/-! ## One unlinking -/

namespace Context

/-- The operations of blocks and the blocks of regions are those that point back to them. -/
structure ListsAgree (ctx : Context) : Prop where
  op_mem : ∀ block op, op ∈ ctx.blockOps block ↔ ctx.opParentBlock op = some block
  block_mem : ∀ region block, block ∈ ctx.regionBlocks region ↔
    ctx.blockParentRegion block = some region
  ops_nodup : ∀ block, (ctx.blockOps block).Nodup
  blocks_nodup : ∀ region, (ctx.regionBlocks region).Nodup

variable {ctx ctx' : Context} {op : OpPtr} {block : BlockPtr} {o : Operation} {b : BasicBlock}

theorem mem_erase_iff {ν : Type} [DecidableEq ν] {l : List ν} (hl : l.Nodup) (x y : ν) :
    x ∈ l.erase y ↔ x ∈ l ∧ x ≠ y := by
  rw [hl.mem_erase_iff]
  exact and_comm

/-- What unlinking an operation writes. -/
theorem unlinkOp_cases (h : ctx.unlinkOp op = some ctx') : ∃ o block b,
    ctx.operations op = some o ∧ o.parentBlock = some block ∧ ctx.basicBlocks block = some b ∧
      ctx' = (ctx.setOp op { o with parentBlock := none }).setBlock block
        { b with ops := b.ops.erase op } := by
  obtain ⟨o, ho, h⟩ := Option.bind_eq_some_iff.mp h
  obtain ⟨block, hblock, h⟩ := Option.bind_eq_some_iff.mp h
  obtain ⟨b, hb, h⟩ := Option.bind_eq_some_iff.mp h
  exact ⟨o, block, b, ho, hblock, hb, (Option.some.inj h).symm⟩

/-- What unlinking a block writes. -/
theorem unlinkBlock_cases (h : ctx.unlinkBlock block = some ctx') : ∃ b region r,
    ctx.basicBlocks block = some b ∧ b.parentRegion = some region ∧
      ctx.regions region = some r ∧
      ctx' = (ctx.setBlock block { b with parentRegion := none }).setRegion region
        { r with blocks := r.blocks.erase block } := by
  obtain ⟨b, hb, h⟩ := Option.bind_eq_some_iff.mp h
  obtain ⟨region, hregion, h⟩ := Option.bind_eq_some_iff.mp h
  obtain ⟨r, hr, h⟩ := Option.bind_eq_some_iff.mp h
  exact ⟨b, region, r, hb, hregion, hr, (Option.some.inj h).symm⟩

theorem ListsAgree.unlinkOp (hagree : ctx.ListsAgree) (h : ctx.unlinkOp op = some ctx') :
    ctx'.ListsAgree := by
  obtain ⟨o, block, b, ho, hblock, hb, rfl⟩ := unlinkOp_cases h
  have hops : ctx.blockOps block = b.ops := by rw [blockOps, hb]; rfl
  have hparent : ctx.opParentBlock op = some block := by
    rw [opParentBlock, ho]
    exact hblock
  have hnodup : b.ops.Nodup := hops ▸ hagree.ops_nodup block
  -- the lists and the parents after the step
  have hops' : ∀ x, ((ctx.setOp op { o with parentBlock := none }).setBlock block
      { b with ops := b.ops.erase op }).blockOps x =
        if x = block then b.ops.erase op else ctx.blockOps x := by
    intro x
    by_cases hx : x = block
    · subst hx
      simp only [blockOps, setBlock, update_self, if_true, Option.map_some, Option.getD_some]
    · rw [if_neg hx]
      simp only [blockOps, setBlock, setOp, update_of_ne hx]
  have hparent' : ∀ x, ((ctx.setOp op { o with parentBlock := none }).setBlock block
      { b with ops := b.ops.erase op }).opParentBlock x =
        if x = op then none else ctx.opParentBlock x := by
    intro x
    by_cases hx : x = op
    · subst hx
      simp only [opParentBlock, setBlock, setOp, update_self, if_true]
      rfl
    · rw [if_neg hx]
      simp only [opParentBlock, setBlock, setOp, update_of_ne hx]
  have hregion' : ∀ x, ((ctx.setOp op { o with parentBlock := none }).setBlock block
      { b with ops := b.ops.erase op }).blockParentRegion x = ctx.blockParentRegion x := by
    intro x
    by_cases hx : x = block
    · subst hx
      simp only [blockParentRegion, setBlock, update_self, hb]
      rfl
    · simp only [blockParentRegion, setBlock, setOp, update_of_ne hx]
  refine ⟨fun x y => ?_, fun x y => ?_, fun x => ?_, hagree.blocks_nodup⟩
  · rw [hops', hparent']
    by_cases hx : x = block
    · subst hx
      rw [if_pos rfl, mem_erase_iff hnodup, ← hops, hagree.op_mem]
      by_cases hy : y = op
      · rw [if_pos hy]
        exact ⟨fun hand => absurd hy hand.2, fun hnone => by cases hnone⟩
      · rw [if_neg hy]
        exact ⟨And.left, fun hp => ⟨hp, hy⟩⟩
    · rw [if_neg hx, hagree.op_mem]
      by_cases hy : y = op
      · subst hy
        rw [if_pos rfl, hparent]
        exact ⟨fun heq => absurd (Option.some.inj heq).symm hx, fun hnone => by cases hnone⟩
      · rw [if_neg hy]
  · rw [hregion']
    exact hagree.block_mem x y
  · rw [hops']
    by_cases hx : x = block
    · rw [if_pos hx]
      exact hnodup.erase op
    · rw [if_neg hx]
      exact hagree.ops_nodup x

theorem ListsAgree.unlinkBlock (hagree : ctx.ListsAgree) (h : ctx.unlinkBlock block = some ctx') :
    ctx'.ListsAgree := by
  obtain ⟨b, region, r, hb, hregion, hr, rfl⟩ := unlinkBlock_cases h
  have hblocks : ctx.regionBlocks region = r.blocks := by rw [regionBlocks, hr]; rfl
  have hparent : ctx.blockParentRegion block = some region := by
    rw [blockParentRegion, hb]
    exact hregion
  have hnodup : r.blocks.Nodup := hblocks ▸ hagree.blocks_nodup region
  -- the lists and the parents after the step
  have hblocks' : ∀ x, ((ctx.setBlock block { b with parentRegion := none }).setRegion region
      { r with blocks := r.blocks.erase block }).regionBlocks x =
        if x = region then r.blocks.erase block else ctx.regionBlocks x := by
    intro x
    by_cases hx : x = region
    · subst hx
      simp only [regionBlocks, setRegion, update_self, if_true, Option.map_some,
        Option.getD_some]
    · rw [if_neg hx]
      simp only [regionBlocks, setRegion, setBlock, update_of_ne hx]
  have hparent' : ∀ x, ((ctx.setBlock block { b with parentRegion := none }).setRegion region
      { r with blocks := r.blocks.erase block }).blockParentRegion x =
        if x = block then none else ctx.blockParentRegion x := by
    intro x
    by_cases hx : x = block
    · subst hx
      simp only [blockParentRegion, setRegion, setBlock, update_self, if_true]
      rfl
    · rw [if_neg hx]
      simp only [blockParentRegion, setRegion, setBlock, update_of_ne hx]
  have hops' : ∀ x, ((ctx.setBlock block { b with parentRegion := none }).setRegion region
      { r with blocks := r.blocks.erase block }).blockOps x = ctx.blockOps x := by
    intro x
    by_cases hx : x = block
    · subst hx
      simp only [blockOps, setRegion, setBlock, update_self, hb]
      rfl
    · simp only [blockOps, setRegion, setBlock, update_of_ne hx]
  refine ⟨fun x y => ?_, fun x y => ?_, fun x => ?_, fun x => ?_⟩
  · rw [hops']
    exact hagree.op_mem x y
  · rw [hblocks', hparent']
    by_cases hx : x = region
    · -- the region it was in loses the block and nothing else
      subst hx
      rw [if_pos rfl, mem_erase_iff hnodup, ← hblocks, hagree.block_mem]
      by_cases hy : y = block
      · rw [if_pos hy]
        exact ⟨fun hand => absurd hy hand.2, fun hnone => by cases hnone⟩
      · rw [if_neg hy]
        exact ⟨And.left, fun hp => ⟨hp, hy⟩⟩
    · rw [if_neg hx, hagree.block_mem]
      by_cases hy : y = block
      · subst hy
        rw [if_pos rfl, hparent]
        exact ⟨fun heq => absurd (Option.some.inj heq).symm hx, fun hnone => by cases hnone⟩
      · rw [if_neg hy]
  · rw [hops']
    exact hagree.ops_nodup x
  · rw [hblocks']
    by_cases hx : x = region
    · rw [if_pos hx]
      exact hnodup.erase block
    · rw [if_neg hx]
      exact hagree.blocks_nodup x

/-- An operation that is unlinked is recorded, and its insertion gives the context before. -/
theorem reinsert_operation (hagree : ctx.ListsAgree) (h : ctx.unlinkOp op = some ctx') :
    ∃ event, Recorder.notify ctx (.operationUnlinking op) = some event ∧
      Recorder.reinsert ctx' event = some ctx := by
  obtain ⟨o, block, b, ho, hblock, hb, rfl⟩ := unlinkOp_cases h
  have hops : ctx.blockOps block = b.ops := by rw [blockOps, hb]; rfl
  have hparent : ctx.opParentBlock op = some block := by
    rw [opParentBlock, ho]
    exact hblock
  have hmem : op ∈ b.ops := hops ▸ (hagree.op_mem block op).mpr hparent
  obtain ⟨position, hposition, hinsert, hwhere⟩ := insertNode_previousPosition block
    (hops ▸ hagree.ops_nodup block) hmem
  refine ⟨.unlinkedOperation op (.set position), ?_, ?_⟩
  · simp only [Recorder.notify, ho, hblock, hb, hposition, Option.bind_eq_bind, Option.bind_some]
  · have hcontainer : insertContainer ((ctx.setOp op { o with parentBlock := none }).setBlock block
        { b with ops := b.ops.erase op }).opParentBlock position = some block := by
      obtain rfl | rfl | ⟨mark, hmark, hne, rfl⟩ := hwhere
      · rfl
      · rfl
      · have hmark' := (hagree.op_mem block mark).mp (hops.symm ▸ hmark)
        rw [← hmark', insertContainer]
        simp only [opParentBlock, setBlock, setOp, update_of_ne hne]
    have hop : ((ctx.setOp op { o with parentBlock := none }).setBlock block
        { b with ops := b.ops.erase op }).operations op =
          some { o with parentBlock := none } := update_self _ _ _
    rw [Recorder.reinsert, insertOperation, linkOp]
    simp only [hop, hcontainer, Option.bind_eq_bind, Option.bind_some, guard, if_true,
      Option.pure_def]
    simp only [setOp, setBlock, update_self, update_idem, Option.bind_some, hinsert]
    rw [← hblock]
    -- both records are as before
    have hops_eq : update ctx.operations op (some o) = ctx.operations :=
      update_eq_self_iff.mpr ho.symm
    have hblocks_eq : update ctx.basicBlocks block (some b) = ctx.basicBlocks :=
      update_eq_self_iff.mpr hb.symm
    rw [hops_eq, hblocks_eq]

/-- A block that is unlinked is recorded, and its insertion gives the context before. -/
theorem reinsert_block (hagree : ctx.ListsAgree) (h : ctx.unlinkBlock block = some ctx') :
    ∃ event, Recorder.notify ctx (.blockUnlinking block) = some event ∧
      Recorder.reinsert ctx' event = some ctx := by
  obtain ⟨b, region, r, hb, hregion, hr, rfl⟩ := unlinkBlock_cases h
  have hblocks : ctx.regionBlocks region = r.blocks := by rw [regionBlocks, hr]; rfl
  have hparent : ctx.blockParentRegion block = some region := by
    rw [blockParentRegion, hb]
    exact hregion
  have hmem : block ∈ r.blocks := hblocks ▸ (hagree.block_mem region block).mpr hparent
  obtain ⟨position, hposition, hinsert, hwhere⟩ := insertNode_previousPosition
    region (hblocks ▸ hagree.blocks_nodup region) hmem
  refine ⟨.unlinkedBlock block (.set position), ?_, ?_⟩
  · simp only [Recorder.notify, hb, hregion, hr, hposition, Option.bind_eq_bind, Option.bind_some]
  · have hcontainer : insertContainer ((ctx.setBlock block
        { b with parentRegion := none }).setRegion
        region { r with blocks := r.blocks.erase block }).blockParentRegion position =
          some region := by
      obtain rfl | rfl | ⟨mark, hmark, hne, rfl⟩ := hwhere
      · rfl
      · rfl
      · have hmark' := (hagree.block_mem region mark).mp (hblocks.symm ▸ hmark)
        rw [← hmark', insertContainer]
        simp only [blockParentRegion, setRegion, setBlock, update_of_ne hne]
    have hblock : ((ctx.setBlock block { b with parentRegion := none }).setRegion region
        { r with blocks := r.blocks.erase block }).basicBlocks block =
          some { b with parentRegion := none } := update_self _ _ _
    rw [Recorder.reinsert, linkBlock]
    simp only [hblock, hcontainer, Option.bind_eq_bind, Option.bind_some, guard, if_true,
      Option.pure_def]
    simp only [setBlock, setRegion, update_self, update_idem, Option.bind_some, hinsert]
    rw [← hregion]
    -- both records are as before
    have hblocks_eq : update ctx.basicBlocks block (some b) = ctx.basicBlocks :=
      update_eq_self_iff.mpr hb.symm
    have hregions_eq : update ctx.regions region (some r) = ctx.regions :=
      update_eq_self_iff.mpr hr.symm
    rw [hblocks_eq, hregions_eq]

end Context

/-! ## Runs of unlinkings -/

namespace PlacingRewriter

open Recorder

variable {st st' : PlacingRewriter} {u : Unlinking} {us : List Unlinking}

/-- An unlinking gives one event, which undoes it. -/
theorem unlink_undone (hagree : st.ctx.ListsAgree) (h : st.unlink u = some st') :
    st'.ctx.ListsAgree ∧ ∃ placement event, st'.placements = st.placements ++ [placement] ∧
      Recorder.notify placement.1 placement.2 = some event ∧
      reinsert st'.ctx event = some st.ctx := by
  cases u with
  | operation op =>
      obtain ⟨ctx', hctx', hst'⟩ := Option.bind_eq_some_iff.mp h
      obtain rfl := Option.some.inj hst'
      have hunlink : st.ctx.unlinkOp op = some ctx' := hctx'
      obtain ⟨event, hevent, hback⟩ := reinsert_operation hagree hunlink
      exact ⟨hagree.unlinkOp hunlink, (st.ctx, .operationUnlinking op), event, rfl, hevent, hback⟩
  | block block =>
      obtain ⟨ctx', hctx', hst'⟩ := Option.bind_eq_some_iff.mp h
      obtain rfl := Option.some.inj hst'
      have hunlink : st.ctx.unlinkBlock block = some ctx' := hctx'
      obtain ⟨event, hevent, hback⟩ := reinsert_block hagree hunlink
      exact ⟨hagree.unlinkBlock hunlink, (st.ctx, .blockUnlinking block), event, rfl, hevent, hback⟩

theorem undo_cons (ctx : Context) (event : RecorderEvent) (events : List RecorderEvent) :
    undo ctx (event :: events) = (undo ctx events).bind (fun ctx => reinsert ctx event) := by
  rw [undo, List.reverse_cons, List.foldlM_append, undo]
  cases List.foldlM reinsert ctx events.reverse with
  | none => rfl
  | some ctx =>
      show (reinsert ctx event >>= fun ctx => List.foldlM reinsert ctx []) = reinsert ctx event
      exact bind_pure _

/-- Whatever a run of unlinkings takes out of the lists, undoing the recorded events puts back:
    in every block and every region the sequence is the original one, and nothing else differs
    either. -/
theorem unlinkings_undone (hagree : st.ctx.ListsAgree) (hrun : st.unlinkAll us = some st') :
    ∃ placements events, st'.placements = st.placements ++ placements ∧
      Recorder.events placements = some events ∧ undo st'.ctx events = some st.ctx := by
  -- the induction is on the run: what the later unlinkings did is undone first
  induction us generalizing st with
  | nil =>
      obtain rfl := Option.some.inj hrun
      exact ⟨[], [], (List.append_nil _).symm, rfl, rfl⟩
  | cons u us ih =>
      obtain ⟨st₁, hunlink, hrest⟩ := Option.bind_eq_some_iff.mp hrun
      obtain ⟨hagree₁, placement, event, hplaced, hevent, hback⟩ := unlink_undone hagree hunlink
      obtain ⟨placements, events, hplaced', hevents, hundo⟩ := ih hagree₁ hrest
      refine ⟨placement :: placements, event :: events, ?_, ?_, ?_⟩
      · rw [hplaced', hplaced, List.append_assoc, List.singleton_append]
      · rw [Recorder.events, List.mapM_cons, hevent]
        have hmap : placements.mapM (fun e => Recorder.notify e.1 e.2) = some events := hevents
        rw [hmap]
        rfl
      · rw [undo_cons, hundo]
        exact hback

/-- Three operations in a row and three blocks in a row. -/
def threeInARow : Context where
  valueCounter := 0
  useCounter := 0
  operations := fun op => match op.idx with
    | 0 => some { concreteOp := { opId := 0 }, parentBlock := some ⟨0⟩ }
    | 1 => some { concreteOp := { opId := 1 }, parentBlock := some ⟨0⟩ }
    | 2 => some { concreteOp := { opId := 2 }, parentBlock := some ⟨0⟩ }
    | 3 => some { concreteOp := { opId := 3 }, regions := [⟨0⟩] }
    | _ => none
  basicBlocks := fun block => match block.idx with
    | 0 => some { ops := [⟨0⟩, ⟨1⟩, ⟨2⟩], parentRegion := some ⟨0⟩ }
    | 1 => some { ops := [], parentRegion := some ⟨0⟩ }
    | 2 => some { ops := [], parentRegion := some ⟨0⟩ }
    | _ => none
  regions := fun region => match region.idx with
    | 0 => some { parentOp := ⟨3⟩, blocks := [⟨0⟩, ⟨1⟩, ⟨2⟩] }
    | _ => none
  nextOp := 4
  nextBlock := 3
  nextRegion := 1

theorem threeInARow_listsAgree : threeInARow.ListsAgree where
  op_mem := by
    rintro ⟨_ | _ | _ | i⟩ ⟨_ | _ | _ | _ | j⟩ <;>
      simp [blockOps, opParentBlock, threeInARow]
  block_mem := by
    rintro ⟨_ | i⟩ ⟨_ | _ | _ | j⟩ <;> simp [regionBlocks, blockParentRegion, threeInARow]
  ops_nodup := by
    rintro ⟨_ | _ | _ | i⟩ <;> simp [blockOps, threeInARow]
  blocks_nodup := by
    rintro ⟨_ | i⟩ <;> simp [regionBlocks, threeInARow]

/-- From the middle, the neighbour it was recorded after, the back, and the only one left. -/
def inwards : List Unlinking :=
  [.operation ⟨1⟩, .operation ⟨0⟩, .block ⟨1⟩, .block ⟨2⟩, .operation ⟨2⟩, .block ⟨0⟩]

theorem unlinkings_undone_inwards :
    ((({ ctx := threeInARow } : PlacingRewriter).unlinkAll inwards).map
      (fun st => Recorder.events st.placements)) = some (some
        [.unlinkedOperation ⟨1⟩ (.set (.after ⟨0⟩)), .unlinkedOperation ⟨0⟩ (.set (.atFront ⟨0⟩)),
         .unlinkedBlock ⟨1⟩ (.set (.after ⟨0⟩)), .unlinkedBlock ⟨2⟩ (.set (.atBack ⟨0⟩)),
         .unlinkedOperation ⟨2⟩ (.set (.atFront ⟨0⟩)),
         .unlinkedBlock ⟨0⟩ (.set (.atFront ⟨0⟩))]) ∧
    ∃ st', ({ ctx := threeInARow } : PlacingRewriter).unlinkAll inwards = some st' ∧
      ∃ placements events, st'.placements = [] ++ placements ∧
        Recorder.events placements = some events ∧ undo st'.ctx events = some threeInARow := by
  refine ⟨by decide, ?_⟩
  cases hrun : ({ ctx := threeInARow } : PlacingRewriter).unlinkAll inwards with
  | none =>
      have hsome : (({ ctx := threeInARow } : PlacingRewriter).unlinkAll inwards).isSome := by
        decide
      rw [hrun] at hsome
      cases hsome
  | some st' => exact ⟨st', rfl, unlinkings_undone threeInARow_listsAgree hrun⟩

end PlacingRewriter

end Pliron
