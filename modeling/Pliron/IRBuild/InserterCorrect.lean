/-
  Pliron.IRBuild.InserterCorrect

  Splitting a block and inlining a region keep the order.

  Both move the members of a list, one after the other, into another list.  `Splitting` and
  `Inlining` say what a context looks like after some of them have moved: everything else is as
  it was at the start.
-/

import Pliron.IRBuild.Inserter
import Pliron.IR.SameNesting

namespace Pliron

open Context Function

/-! ## Insertion points as indices -/

/-- The number of elements before an insertion point. -/
def Context.InsertPoint.index {ν κ : Type} [DecidableEq ν] (l : List ν) : InsertPoint ν κ → Nat
  | .atFront _ => 0
  | .atBack _ => l.length
  | .after mark => l.idxOf mark + 1
  | .before mark => l.idxOf mark

section Insert

variable {ν κ : Type} [DecidableEq ν] {containerOf : ν → Option κ} {container : κ}
  {point : InsertPoint ν κ} {l : List ν}

theorem index_le (hpoint : insertContainer containerOf point = some container)
    (hl : ∀ mark, containerOf mark = some container → mark ∈ l) : point.index l ≤ l.length := by
  cases point with
  | atFront _ => exact Nat.zero_le _
  | atBack _ => exact Nat.le_refl _
  | after mark => exact List.idxOf_lt_length_of_mem (hl mark hpoint)
  | before mark => exact (List.idxOf_lt_length_of_mem (hl mark hpoint)).le

omit [DecidableEq ν] in
theorem insertIdx_eq_cut {i : Nat} (hi : i ≤ l.length) (x : ν) :
    l.insertIdx i x = l.take i ++ x :: l.drop i := by
  induction l generalizing i with
  | nil =>
      obtain rfl := Nat.le_zero.mp hi
      rfl
  | cons y l ih =>
      cases i with
      | zero => rfl
      | succ i =>
          rw [List.insertIdx_succ_cons, ih (Nat.le_of_succ_le_succ hi)]
          rfl

/-- A node is inserted at the index of the insertion point. -/
theorem insertNode_eq_cut (hpoint : insertContainer containerOf point = some container)
    (hl : ∀ mark, containerOf mark = some container → mark ∈ l) (x : ν) :
    insertNode point x l = l.take (point.index l) ++ x :: l.drop (point.index l) := by
  have hle := index_le hpoint hl
  cases point with
  | atFront _ => rfl
  | atBack _ => rw [insertNode, InsertPoint.index, List.take_length, List.drop_length]
  | after mark => exact insertIdx_eq_cut hle x
  | before mark => exact insertIdx_eq_cut hle x

/-- Inserting after the last of the nodes that were inserted. -/
theorem insertNode_after {pre post : List ν} {mark x : ν} (hmark : mark ∉ pre) :
    insertNode (κ := κ) (.after mark) x (pre ++ mark :: post) = pre ++ mark :: x :: post := by
  have hidx : (pre ++ mark :: post).idxOf mark = pre.length := by
    rw [List.idxOf_append_of_notMem hmark, List.idxOf_cons_self, Nat.add_zero]
  rw [insertNode, hidx, insertIdx_eq_cut (by simp)]
  rw [show pre ++ mark :: post = (pre ++ [mark]) ++ post by simp,
    List.take_left' (by simp), List.drop_left' (by simp)]
  simp

end Insert

/-! ## Moving one operation -/

namespace PlacingRewriter

variable {st : PlacingRewriter} {ctx₀ : Context} {block newBlock : BlockPtr} {b b' : BasicBlock}
  {keep moved rest : List OpPtr} {op : OpPtr}

/-- A context in which some operations of a block have moved to another one. -/
structure Splitting (ctx₀ ctx : Context) (block newBlock : BlockPtr) (b b' : BasicBlock)
    (keep moved rest : List OpPtr) : Prop where
  basicBlocks : ctx.basicBlocks = update (update ctx₀.basicBlocks block
    (some { b with ops := keep ++ rest })) newBlock (some { b' with ops := moved })
  operations : ∀ x, ctx.operations x =
    if x ∈ moved then (ctx₀.operations x).map (fun o => { o with parentBlock := some newBlock })
    else ctx₀.operations x
  regions : ctx.regions = ctx₀.regions

/-- The operations of the block at the start. -/
structure Members (ctx₀ : Context) (block : BlockPtr) (ops : List OpPtr) : Prop where
  nodup : ops.Nodup
  parent : ∀ op ∈ ops, ∃ o, ctx₀.operations op = some o ∧ o.parentBlock = some block

theorem Splitting.blockOps (hne : block ≠ newBlock)
    (h : Splitting ctx₀ st.ctx block newBlock b b' keep moved rest) :
    st.ctx.basicBlocks block = some { b with ops := keep ++ rest } ∧
      st.ctx.basicBlocks newBlock = some { b' with ops := moved } := by
  rw [h.basicBlocks]
  constructor
  · rw [update_of_ne hne, update_self]
  · rw [update_self]

theorem moveOperation_eq {ctx₁ ctx₂ : Context} {point : InsertPoint OpPtr BlockPtr}
    (hunlink : st.ctx.unlinkOp op = some ctx₁) (hlink : ctx₁.linkOp op point = some ctx₂) :
    ∃ st', st.moveOperation op (.set point) = some st' ∧ st'.ctx = ctx₂ ∧
      st'.opInsertionPoint = st.opInsertionPoint := by
  let placements := st.placements ++ [(st.ctx, .operationUnlinking op)] ++
    [(ctx₂, .operationInserted op)]
  refine ⟨{ st with ctx := ctx₂, modified := true, placements := placements }, ?_, rfl, rfl⟩
  rw [moveOperation, unlinkOperation]
  simp only [Option.bind_eq_bind, notify, changed, hunlink, Option.bind_some, withInsertionPoint,
    setInsertionPoint, insertOperation, Context.insertOperation, hlink, Option.map_some]
  rfl

/-- One more operation moves. -/
theorem moveOperation_splitting (hne : block ≠ newBlock)
    (hmem : Members ctx₀ block (keep ++ moved ++ op :: rest))
    (h : Splitting ctx₀ st.ctx block newBlock b b' keep moved (op :: rest)) :
    ∃ st', st.moveOperation op (.set (.atBack newBlock)) = some st' ∧
      Splitting ctx₀ st'.ctx block newBlock b b' keep (moved ++ [op]) rest ∧
      st'.opInsertionPoint = st.opInsertionPoint := by
  obtain ⟨hblock, hnew⟩ := h.blockOps hne
  -- the operation is the first one that is not moved yet
  have hperm : op ∉ keep ∧ op ∉ moved := by
    have hnodup := List.nodup_append.mp hmem.nodup
    have hnot : op ∉ keep ++ moved := fun hin => hnodup.2.2 op hin op List.mem_cons_self rfl
    rw [List.mem_append, not_or] at hnot
    exact hnot
  obtain ⟨hkeep, hmoved⟩ := hperm
  obtain ⟨o, ho, hparent⟩ := hmem.parent op (List.mem_append_right _ List.mem_cons_self)
  have hop : st.ctx.operations op = some o := by rw [h.operations, if_neg hmoved, ho]
  have herase : (keep ++ op :: rest).erase op = keep ++ rest := by
    rw [List.erase_append_right _ hkeep, List.erase_cons_head]
  -- the two contexts on the way
  let ctx₁ := (st.ctx.setOp op { o with parentBlock := none }).setBlock block
    { b with ops := keep ++ rest }
  let ctx₂ := (ctx₁.setOp op { o with parentBlock := some newBlock }).setBlock newBlock
    { b' with ops := moved ++ [op] }
  have hunlink : st.ctx.unlinkOp op = some ctx₁ := by
    have hblock' : (st.ctx.setOp op { o with parentBlock := none }).basicBlocks block =
        some { b with ops := keep ++ op :: rest } := hblock
    rw [unlinkOp]
    simp only [Option.bind_eq_bind, hop, hparent, Option.bind_some]
    rw [hblock', Option.bind_some, herase]
  have hlink : ctx₁.linkOp op (.atBack newBlock) = some ctx₂ := by
    have hop₁ : ctx₁.operations op = some { o with parentBlock := none } :=
      (setOp_operations op).trans (if_pos rfl)
    have hnew₁ : (ctx₁.setOp op { o with parentBlock := some newBlock }).basicBlocks newBlock =
        some { b' with ops := moved } := by
      show ctx₁.basicBlocks newBlock = _
      rw [setBlock_basicBlocks, if_neg hne.symm]
      exact hnew
    rw [linkOp]
    simp only [Option.bind_eq_bind, hop₁, Option.bind_some, insertContainer, guard, if_true]
    show ((some ()).bind fun _ =>
      ((ctx₁.setOp op { o with parentBlock := some newBlock }).basicBlocks newBlock).bind _) = _
    rw [Option.bind_some, hnew₁]
    rfl
  obtain ⟨st', hmove, hctx, hpoint⟩ := moveOperation_eq hunlink hlink
  refine ⟨st', hmove, ?_, hpoint⟩
  rw [hctx]
  refine ⟨?_, ?_, h.regions⟩
  · show update (update st.ctx.basicBlocks block _) newBlock _ = _
    rw [h.basicBlocks, update_comm hne.symm, update_idem, update_idem]
  · intro x
    have hx₂ : ctx₂.operations x = if x = op then some { o with parentBlock := some newBlock }
        else ctx₁.operations x := setOp_operations x
    have hx₁ : ctx₁.operations x = if x = op then some { o with parentBlock := none }
        else st.ctx.operations x := setOp_operations x
    rw [hx₂]
    -- its parent is the new block now, and no other operation changes
    by_cases hx : x = op
    · have hin : op ∈ moved ++ [op] := List.mem_append_right _ List.mem_cons_self
      rw [hx, if_pos rfl, if_pos hin, ho]
      rfl
    · have hiff : x ∈ moved ++ [op] ↔ x ∈ moved := by
        rw [List.mem_append, List.mem_singleton, or_iff_left hx]
      rw [if_neg hx, hx₁, if_neg hx, h.operations]
      simp only [hiff]

/-- The next operation is fetched before the current one moves. -/
theorem Splitting.getNext (hne : block ≠ newBlock)
    (hmem : Members ctx₀ block (keep ++ moved ++ op :: rest))
    (h : Splitting ctx₀ st.ctx block newBlock b b' keep moved (op :: rest)) :
    st.ctx.getNext op = some rest.head? := by
  obtain ⟨hblock, _⟩ := h.blockOps hne
  have hnodup := List.nodup_append.mp hmem.nodup
  have hnot : op ∉ keep ++ moved := fun hin => hnodup.2.2 op hin op List.mem_cons_self rfl
  rw [List.mem_append, not_or] at hnot
  obtain ⟨o, ho, hparent⟩ := hmem.parent op (List.mem_append_right _ List.mem_cons_self)
  have hop : st.ctx.operations op = some o := by rw [h.operations, if_neg hnot.2, ho]
  have hops : st.ctx.blockOps block = keep ++ op :: rest := by
    rw [Context.blockOps, hblock]
    rfl
  have hidx : (keep ++ op :: rest).idxOf op = keep.length := by
    rw [List.idxOf_append_of_notMem hnot.1, List.idxOf_cons_self, Nat.add_zero]
  rw [Context.getNext, hop]
  simp only [Option.bind_eq_bind, Option.bind_some, hparent, hops, hidx]
  rw [List.getElem?_append_right (Nat.le_add_right _ 1), Nat.add_sub_cancel_left,
    List.getElem?_cons_succ, List.head?_eq_getElem?]

/-- The operations from a point on move, by induction on what is left. -/
theorem moveFrom_splitting (hne : block ≠ newBlock) {fuel : Nat} (hfuel : rest.length ≤ fuel)
    (hmem : Members ctx₀ block (keep ++ moved ++ rest))
    (h : Splitting ctx₀ st.ctx block newBlock b b' keep moved rest) :
    ∃ st', moveFrom newBlock fuel st rest.head? = some st' ∧
      Splitting ctx₀ st'.ctx block newBlock b b' keep (moved ++ rest) [] ∧
      st'.opInsertionPoint = st.opInsertionPoint := by
  induction rest generalizing st moved fuel with
  | nil =>
      rw [List.append_nil]
      exact ⟨st, by rw [List.head?_nil, moveFrom], h, rfl⟩
  | cons op rest ih =>
      obtain ⟨fuel, rfl⟩ : ∃ n, fuel = n + 1 :=
        Nat.exists_eq_add_one_of_ne_zero (Nat.ne_of_gt (Nat.lt_of_lt_of_le (Nat.succ_pos _) hfuel))
      obtain ⟨st₁, hmove, h₁, hpoint₁⟩ := moveOperation_splitting hne hmem h
      have happ : keep ++ (moved ++ [op]) ++ rest = keep ++ moved ++ op :: rest := by simp
      obtain ⟨st₂, hrest, h₂, hpoint₂⟩ :=
        ih (Nat.le_of_succ_le_succ hfuel) (happ ▸ hmem) h₁
      rw [List.append_assoc, List.singleton_append] at h₂
      refine ⟨st₂, ?_, h₂, hpoint₂.trans hpoint₁⟩
      rw [List.head?_cons, moveFrom]
      simp only [Option.bind_eq_bind, h.getNext hne hmem, hmove, Option.bind_some]
      exact hrest

/-! ## Splitting a block -/

/-- What splitting a block does: the operations from the position on are in the new block, which
    follows the old one, and everything else is as it was. -/
structure SplitAt (st st' : PlacingRewriter) (block newBlock : BlockPtr) (region : RegionPtr)
    (index : Nat) : Prop where
  new : st.ctx.basicBlocks newBlock = none
  front : st'.ctx.blockOps block = (st.ctx.blockOps block).take index
  back : st'.ctx.blockOps newBlock = (st.ctx.blockOps block).drop index
  concat : st'.ctx.blockOps block ++ st'.ctx.blockOps newBlock = st.ctx.blockOps block
  parents : ∀ x op, x = block ∨ x = newBlock → op ∈ st'.ctx.blockOps x →
    st'.ctx.opParentBlock op = some x
  regionBlocks : st'.ctx.regionBlocks region =
    insertNode (κ := RegionPtr) (.after block) newBlock (st.ctx.regionBlocks region)
  blockParent : st'.ctx.blockParentRegion newBlock = some region
  otherBlocks : ∀ x, x ≠ block → x ≠ newBlock → st'.ctx.basicBlocks x = st.ctx.basicBlocks x
  otherOps : ∀ op, op ∉ (st.ctx.blockOps block).drop index →
    st'.ctx.operations op = st.ctx.operations op
  insertionPoint : st'.opInsertionPoint = st.opInsertionPoint

/-- The position in a block that an insertion point is at. -/
def splitIndex (l : List OpPtr) : OpInsertionPoint → Nat
  | .unset => 0
  | .set point => point.index l

/-- The new block is created after the old one. -/
theorem createBlock_eq (point : OpInsertionPoint) (label : Option String) {region : RegionPtr}
    {r : Region}
    (hb : st.ctx.basicBlocks block = some b) (hparent : b.parentRegion = some region)
    (hr : st.ctx.regions region = some r) (hnew : block ≠ ⟨st.ctx.nextBlock⟩) :
    ∃ st', (st.setInsertionPoint point).createBlock (.set (.after block)) label [] =
        some (⟨st.ctx.nextBlock⟩, st') ∧
      st'.ctx.operations = st.ctx.operations ∧ st'.ctx.nextOp = st.ctx.nextOp ∧
      st'.ctx.basicBlocks = update st.ctx.basicBlocks ⟨st.ctx.nextBlock⟩
        (some { label := label, parentRegion := some region }) ∧
      st'.ctx.regions = update st.ctx.regions region (some { r with
        blocks := insertNode (κ := RegionPtr) (.after block) ⟨st.ctx.nextBlock⟩ r.blocks }) := by
  let newBlock : BlockPtr := ⟨st.ctx.nextBlock⟩
  let ctx₁ : Context := ({ st.ctx.setBlock newBlock { label := label } with
    nextBlock := st.ctx.nextBlock + 1 } : Context).setBlock newBlock { label := label }
  let ctx₂ := (ctx₁.setBlock newBlock { label := label, parentRegion := some region }).setRegion
    region { r with blocks := insertNode (κ := RegionPtr) (.after block) newBlock r.blocks }
  have hget : ∀ x, ctx₁.basicBlocks x =
      if x = newBlock then some { label := label } else st.ctx.basicBlocks x := by
    intro x
    show update (update st.ctx.basicBlocks newBlock _) newBlock _ x = _
    rw [update_idem, update_apply]
  have hnewBlock : st.ctx.newBlock label [] = some (newBlock, ctx₁) := by
    rw [Context.newBlock]
    simp only [newValueDefs, setBlock, update_self, Option.bind_eq_bind, Option.bind_some]
    rfl
  have hlink : ctx₁.linkBlock newBlock (.after block) = some ctx₂ := by
    have hself : ctx₁.basicBlocks newBlock = some { label := label } := by rw [hget, if_pos rfl]
    have hmark : ctx₁.blockParentRegion block = some region := by
      rw [blockParentRegion, hget, if_neg hnew, hb]
      exact hparent
    have hregion : (ctx₁.setBlock newBlock
        { label := label, parentRegion := some region }).regions region = some r := hr
    rw [linkBlock]
    simp only [Option.bind_eq_bind, hself, Option.bind_some, insertContainer, hmark, guard, if_true]
    show ((some ()).bind fun _ => ((ctx₁.setBlock newBlock
      { label := label, parentRegion := some region }).regions region).bind _) = _
    rw [Option.bind_some, hregion]
    rfl
  let placements := st.placements ++ [(ctx₂, .blockInserted newBlock)]
  refine ⟨{ st with
    ctx := ctx₂, modified := true, placements := placements,
    opInsertionPoint := .set (.atBack newBlock) }, ?_, rfl, rfl, ?_, rfl⟩
  · rw [createBlock, setInsertionPoint]
    simp only [Option.bind_eq_bind, hnewBlock, Option.bind_some, insertBlock, hlink]
    rfl
  · show update (update (update st.ctx.basicBlocks newBlock _) newBlock _) newBlock _ = _
    rw [update_idem, update_idem]

/-- The operations of a block are its members. -/
theorem members_of_wellNested (hnest : st.ctx.WellNested) (hb : st.ctx.basicBlocks block = some b) :
    Members st.ctx block b.ops := by
  have hops : st.ctx.blockOps block = b.ops := by
    rw [Context.blockOps, hb]
    rfl
  refine ⟨hops ▸ hnest.ops_nodup block, fun op hop => ?_⟩
  rw [← hops] at hop
  have hparent := (hnest.op_mem block op).mp hop
  obtain ⟨o, ho, hparent⟩ := Option.bind_eq_some_iff.mp hparent
  exact ⟨o, ho, hparent⟩

/-- A block has no more operations than were ever allocated. -/
theorem length_ops_le (hnest : st.ctx.WellNested) (hb : st.ctx.basicBlocks block = some b) :
    b.ops.length ≤ st.ctx.nextOp := by
  have hmem := members_of_wellNested hnest hb
  have hnodup : (b.ops.map OpPtr.idx).Nodup :=
    hmem.nodup.map (fun x y h => by cases x; cases y; exact congrArg OpPtr.mk h)
  have hsub : b.ops.map OpPtr.idx ⊆ List.range st.ctx.nextOp := by
    intro n hn
    obtain ⟨op, hop, rfl⟩ := List.mem_map.mp hn
    obtain ⟨o, ho, _⟩ := hmem.parent op hop
    apply List.mem_range.mpr
    apply hnest.op_lt
    rw [ho]
    exact nofun
  have hle := (List.subperm_of_subset hnodup hsub).length_le
  rwa [List.length_map, List.length_range] at hle

/-- The first operation that moves is the one at the position. -/
theorem firstSplitOp_eq (hb : st.ctx.basicBlocks block = some b)
    (hin : ∀ op, st.ctx.opParentBlock op = some block → op ∈ b.ops)
    {position : OpInsertionPoint} (hpos : st.ctx.getInsertionBlock position = some block) :
    st.firstSplitOp position = some (b.ops.drop (splitIndex b.ops position)).head? := by
  have hops : st.ctx.blockOps block = b.ops := by
    rw [Context.blockOps, hb]
    rfl
  cases position with
  | unset => cases hpos
  | set point =>
      cases point with
      | atFront target =>
          obtain rfl : target = block := Option.some.inj hpos
          rw [firstSplitOp, hb]
          rfl
      | atBack target =>
          show some none = some (b.ops.drop b.ops.length).head?
          rw [List.drop_length, List.head?_nil]
      | before op =>
          have hlt := List.idxOf_lt_length_of_mem (hin op hpos)
          show some (some op) = some (b.ops.drop (b.ops.idxOf op)).head?
          rw [List.head?_drop, List.getElem?_eq_getElem hlt, List.getElem_idxOf]
      | after op =>
          have hpos : st.ctx.opParentBlock op = some block := hpos
          obtain ⟨o, ho, hparent⟩ := Option.bind_eq_some_iff.mp hpos
          show st.ctx.getNext op = some (b.ops.drop (b.ops.idxOf op + 1)).head?
          rw [Context.getNext, ho, List.head?_drop]
          simp only [Option.bind_eq_bind, Option.bind_some, hparent, hops]

/-- The region of a block exists. -/
theorem exists_region (hnest : st.ctx.WellNested) {region : RegionPtr}
    (hlinked : st.ctx.blockParentRegion block = some region) :
    ∃ r, st.ctx.regions region = some r := by
  have hmem := (hnest.block_mem region block).mpr hlinked
  rw [Context.regionBlocks] at hmem
  cases hr : st.ctx.regions region with
  | none =>
      rw [hr] at hmem
      exact absurd hmem List.not_mem_nil
  | some r => exact ⟨r, rfl⟩

/-- The new block is created, and then the operations move one by one. -/
theorem splitBlock_splitting (hnest : st.ctx.WellNested) {region : RegionPtr} {r : Region}
    (hb : st.ctx.basicBlocks block = some b) (hparent : b.parentRegion = some region)
    (hr : st.ctx.regions region = some r) (hne : block ≠ ⟨st.ctx.nextBlock⟩)
    {position : OpInsertionPoint} (hpos : st.ctx.getInsertionBlock position = some block)
    (label : Option String) :
    ∃ (newLabel : Option String) (st₁ st' : PlacingRewriter),
      st.splitBlock block position label = some (⟨st.ctx.nextBlock⟩, st') ∧
      st₁.ctx.operations = st.ctx.operations ∧
      st₁.ctx.basicBlocks = update st.ctx.basicBlocks ⟨st.ctx.nextBlock⟩
        (some { label := newLabel, parentRegion := some region }) ∧
      st₁.ctx.regions = update st.ctx.regions region (some { r with
        blocks := insertNode (κ := RegionPtr) (.after block) ⟨st.ctx.nextBlock⟩ r.blocks }) ∧
      Splitting st₁.ctx st'.ctx block ⟨st.ctx.nextBlock⟩ b
        { label := newLabel, parentRegion := some region }
        (b.ops.take (splitIndex b.ops position)) (b.ops.drop (splitIndex b.ops position)) [] ∧
      st'.opInsertionPoint = st.opInsertionPoint := by
  have hops : st.ctx.blockOps block = b.ops := by
    rw [Context.blockOps, hb]
    rfl
  let newLabel := label.or (b.label.map (fun label => label ++ "_split"))
  -- the new block goes right behind the block that is split
  obtain ⟨st₁, hcreate, hops₁, hnext₁, hblocks₁, hregions₁⟩ :=
    createBlock_eq .unset newLabel hb hparent hr hne
  have hb₁ : st₁.ctx.basicBlocks block = some b := by
    rw [hblocks₁, update_of_ne hne]
    exact hb
  have hparents : st₁.ctx.opParentBlock = st.ctx.opParentBlock := by
    funext op
    rw [opParentBlock, opParentBlock, hops₁]
  have hin : ∀ op, st₁.ctx.opParentBlock op = some block → op ∈ b.ops := by
    intro op hop
    rw [hparents] at hop
    rw [← hops]
    exact (hnest.op_mem block op).mpr hop
  have hpos₁ : st₁.ctx.getInsertionBlock position = some block := by
    cases position with
    | unset => exact hpos
    | set point =>
        rw [getInsertionBlock, hparents]
        exact hpos
  -- the operation the position names is still the same one
  have hfirst := firstSplitOp_eq hb₁ hin hpos₁
  have hcut := List.take_append_drop (splitIndex b.ops position) b.ops
  have hmem : Members st₁.ctx block (b.ops.take (splitIndex b.ops position) ++ [] ++
      b.ops.drop (splitIndex b.ops position)) := by
    rw [List.append_nil, hcut]
    obtain ⟨hnodup, hparents⟩ := members_of_wellNested hnest hb
    refine ⟨hnodup, ?_⟩
    rw [hops₁]
    exact hparents
  have hstart : Splitting st₁.ctx st₁.ctx block ⟨st.ctx.nextBlock⟩ b
      { label := newLabel, parentRegion := some region }
      (b.ops.take (splitIndex b.ops position)) [] (b.ops.drop (splitIndex b.ops position)) := by
    refine ⟨?_, fun x => (if_neg List.not_mem_nil).symm, rfl⟩
    have hnew₁ : st₁.ctx.basicBlocks ⟨st.ctx.nextBlock⟩ =
        some { label := newLabel, parentRegion := some region } := by
      rw [hblocks₁]
      exact update_self ..
    rw [hcut, ← hb₁, update_eq_self, ← hnew₁, update_eq_self]
  -- a block has no more operations than were ever made
  have hfuel : (b.ops.drop (splitIndex b.ops position)).length ≤ st₁.ctx.nextOp + 1 := by
    have hle := length_ops_le hnest hb
    rw [List.length_drop, hnext₁]
    omega
  obtain ⟨st₂, hmove, hsplit, _⟩ := moveFrom_splitting hne hfuel hmem hstart
  rw [List.nil_append] at hsplit
  refine ⟨newLabel, st₁, st₂.setInsertionPoint st.opInsertionPoint, ?_, hops₁, hblocks₁,
    hregions₁, hsplit, rfl⟩
  have hb₀ : (st.setInsertionPoint .unset).ctx.basicBlocks block = some b := hb
  rw [splitBlock, withInsertionPoint]
  simp only [Option.bind_eq_bind, hb₀, Option.bind_some, hcreate, hfirst, hmove, newLabel]

/-- A block is split at a position in it. -/
theorem splitBlock_splitAt (hnest : st.ctx.WellNested) {region : RegionPtr}
    (hlinked : st.ctx.blockParentRegion block = some region) {position : OpInsertionPoint}
    (hpos : st.ctx.getInsertionBlock position = some block) (label : Option String) :
    ∃ newBlock st', st.splitBlock block position label = some (newBlock, st') ∧
      SplitAt st st' block newBlock region (splitIndex (st.ctx.blockOps block) position) := by
  obtain ⟨b, hb, hparent⟩ := Option.bind_eq_some_iff.mp hlinked
  obtain ⟨r, hr⟩ := exists_region hnest hlinked
  have hops : st.ctx.blockOps block = b.ops := by
    rw [Context.blockOps, hb]
    rfl
  -- the new block is a new one
  have hfresh : st.ctx.basicBlocks ⟨st.ctx.nextBlock⟩ = none := by
    by_contra hsome
    exact Nat.lt_irrefl _ (hnest.block_lt _ hsome)
  have hne : block ≠ ⟨st.ctx.nextBlock⟩ := by
    intro heq
    rw [← heq, hb] at hfresh
    cases hfresh
  obtain ⟨newLabel, st₁, st', hrun, hops₁, hblocks₁, hregions₁, hsplit, hpoint⟩ :=
    splitBlock_splitting hnest hb hparent hr hne hpos label
  obtain ⟨hblock', hnew'⟩ := hsplit.blockOps hne
  have hfront : st'.ctx.blockOps block = b.ops.take (splitIndex b.ops position) := by
    rw [Context.blockOps, hblock', Option.map_some, List.append_nil]
    rfl
  have hback : st'.ctx.blockOps ⟨st.ctx.nextBlock⟩ = b.ops.drop (splitIndex b.ops position) := by
    rw [Context.blockOps, hnew']
    rfl
  have hcut := List.take_append_drop (splitIndex b.ops position) b.ops
  obtain ⟨hnodup, hmem⟩ := members_of_wellNested hnest hb
  refine ⟨⟨st.ctx.nextBlock⟩, st', hrun, ?_⟩
  rw [hops]
  exact {
    new := hfresh
    front := by rw [hfront, hops]
    back := by rw [hback, hops]
    concat := by rw [hfront, hback, hcut, hops]
    parents := by
      intro x op hx hop
      rw [opParentBlock, hsplit.operations, hops₁]
      rcases hx with rfl | rfl
      · -- an operation before the position does not move
        rw [hfront] at hop
        have hdrop : op ∉ b.ops.drop (splitIndex b.ops position) := by
          rw [← hcut] at hnodup
          exact fun hin => (List.nodup_append.mp hnodup).2.2 op hop op hin rfl
        obtain ⟨o, ho, hop⟩ := hmem op (List.mem_of_mem_take hop)
        rw [if_neg hdrop, ho]
        exact hop
      · -- an operation from the position on is moved to the new block
        rw [hback] at hop
        obtain ⟨o, ho, _⟩ := hmem op (List.mem_of_mem_drop hop)
        rw [if_pos hop, ho]
        rfl
    regionBlocks := by
      rw [Context.regionBlocks, Context.regionBlocks, hsplit.regions, hregions₁, update_self, hr]
      rfl
    blockParent := by
      rw [blockParentRegion, hnew']
      rfl
    otherBlocks := by
      intro x hx hxnew
      rw [hsplit.basicBlocks, update_of_ne hxnew, update_of_ne hx, hblocks₁, update_of_ne hxnew]
    otherOps := by
      intro op hop
      rw [hops] at hop
      rw [hsplit.operations, if_neg hop, hops₁]
    insertionPoint := hpoint }

/-! ## Moving one block -/

section Inline

variable {srcRegion destRegion : RegionPtr} {s d : Region} {before after done todo : List BlockPtr}
  {point : InsertPoint BlockPtr RegionPtr}

/-- A context in which some blocks of a region have moved to another one. -/
structure Inlining (ctx₀ ctx : Context) (srcRegion destRegion : RegionPtr) (s d : Region)
    (before done todo after : List BlockPtr) : Prop where
  regions : ctx.regions = update (update ctx₀.regions srcRegion (some { s with blocks := todo }))
    destRegion (some { d with blocks := before ++ done ++ after })
  basicBlocks : ∀ x, ctx.basicBlocks x =
    if x ∈ done then (ctx₀.basicBlocks x).map (fun b => { b with parentRegion := some destRegion })
    else ctx₀.basicBlocks x
  operations : ctx.operations = ctx₀.operations

/-- A block moves from one region to another. -/
theorem moveBlock_eq (hb : st.ctx.basicBlocks block = some b)
    (hparent : b.parentRegion = some srcRegion) (hs : st.ctx.regions srcRegion = some s)
    (hd : st.ctx.regions destRegion = some d) (hne : srcRegion ≠ destRegion)
    (hpoint : insertContainer st.ctx.blockParentRegion point = some destRegion) :
    ∃ st', st.moveBlock block (.set point) = some st' ∧
      st'.ctx.operations = st.ctx.operations ∧
      st'.ctx.basicBlocks =
        update st.ctx.basicBlocks block (some { b with parentRegion := some destRegion }) ∧
      st'.ctx.regions = update (update st.ctx.regions srcRegion
        (some { s with blocks := s.blocks.erase block })) destRegion
        (some { d with blocks := insertNode point block d.blocks }) ∧
      st'.opInsertionPoint = st.opInsertionPoint := by
  -- the two contexts on the way
  let ctx₁ := (st.ctx.setBlock block { b with parentRegion := none }).setRegion srcRegion
    { s with blocks := s.blocks.erase block }
  let ctx₂ := (ctx₁.setBlock block { b with parentRegion := some destRegion }).setRegion destRegion
    { d with blocks := insertNode point block d.blocks }
  have hunlink : st.ctx.unlinkBlock block = some ctx₁ := by
    have hs' : (st.ctx.setBlock block { b with parentRegion := none }).regions srcRegion =
        some s := hs
    rw [Context.unlinkBlock]
    simp only [Option.bind_eq_bind, hb, hparent, Option.bind_some]
    rw [hs', Option.bind_some]
  have hlink : ctx₁.linkBlock block point = some ctx₂ := by
    have hself : ctx₁.basicBlocks block = some { b with parentRegion := none } := update_self ..
    have hpoint₁ : insertContainer ctx₁.blockParentRegion point = some destRegion := by
      -- the block the point names is in the other region, so it stays linked
      have hmark : ∀ mark, st.ctx.blockParentRegion mark = some destRegion →
          ctx₁.blockParentRegion mark = some destRegion := by
        intro mark hmark
        have hother : mark ≠ block := by
          rintro rfl
          rw [blockParentRegion, hb] at hmark
          exact hne (Option.some.inj (hparent.symm.trans hmark))
        rw [blockParentRegion]
        show (update st.ctx.basicBlocks block _ mark).bind _ = _
        rw [update_of_ne hother]
        exact hmark
      cases point with
      | atFront _ => exact hpoint
      | atBack _ => exact hpoint
      | after mark => exact hmark mark hpoint
      | before mark => exact hmark mark hpoint
    have hd₁ : (ctx₁.setBlock block { b with parentRegion := some destRegion }).regions
        destRegion = some d := by
      show update st.ctx.regions srcRegion _ destRegion = _
      rw [update_of_ne hne.symm]
      exact hd
    rw [linkBlock]
    simp only [Option.bind_eq_bind, hself, Option.bind_some, hpoint₁, guard, if_true]
    show ((some ()).bind fun _ => ((ctx₁.setBlock block
      { b with parentRegion := some destRegion }).regions destRegion).bind _) = _
    rw [Option.bind_some, hd₁]
    rfl
  let placements := st.placements ++ [(st.ctx, .blockUnlinking block)] ++
    [(ctx₂, .blockInserted block)]
  refine ⟨{ st with ctx := ctx₂, modified := true, placements := placements }, ?_, rfl, ?_, rfl,
    rfl⟩
  · rw [moveBlock, unlinkBlock]
    simp only [Option.bind_eq_bind, notify, changed, hunlink, Option.bind_some, insertBlock, hlink]
    rfl
  · show update (update st.ctx.basicBlocks block _) block _ = _
    rw [update_idem]

/-- One more block moves, to the end of those that have moved. -/
theorem moveBlock_inlining (hne : srcRegion ≠ destRegion)
    (hnodup : (done ++ block :: todo).Nodup) (hb : ctx₀.basicBlocks block = some b)
    (hparent : b.parentRegion = some srcRegion)
    (h : Inlining ctx₀ st.ctx srcRegion destRegion s d before done (block :: todo) after)
    (hpoint : insertContainer st.ctx.blockParentRegion point = some destRegion)
    (hinsert : insertNode point block (before ++ done ++ after) =
      before ++ (done ++ [block]) ++ after) :
    ∃ st', st.moveBlock block (.set point) = some st' ∧
      Inlining ctx₀ st'.ctx srcRegion destRegion s d before (done ++ [block]) todo after ∧
      st'.opInsertionPoint = st.opInsertionPoint := by
  have hnot : block ∉ done := fun hin =>
    (List.nodup_append.mp hnodup).2.2 block hin block List.mem_cons_self rfl
  have hb' : st.ctx.basicBlocks block = some b := by rw [h.basicBlocks, if_neg hnot, hb]
  have hs' : st.ctx.regions srcRegion = some { s with blocks := block :: todo } := by
    rw [h.regions, update_of_ne hne, update_self]
  have hd' : st.ctx.regions destRegion = some { d with blocks := before ++ done ++ after } := by
    rw [h.regions, update_self]
  obtain ⟨st', hmove, hops, hblocks, hregions, hsame⟩ :=
    moveBlock_eq hb' hparent hs' hd' hne hpoint
  refine ⟨st', hmove, ⟨?_, ?_, hops.trans h.operations⟩, hsame⟩
  · rw [hregions, hinsert, List.erase_cons_head, h.regions, update_comm hne, update_idem,
      update_comm hne.symm, update_idem]
  · intro x
    rw [hblocks]
    by_cases hx : x = block
    · have hin : block ∈ done ++ [block] := List.mem_append_right _ List.mem_cons_self
      rw [hx, update_self, if_pos hin, hb]
      rfl
    · have hiff : x ∈ done ++ [block] ↔ x ∈ done := by
        rw [List.mem_append, List.mem_singleton, or_iff_left hx]
      rw [update_of_ne hx, h.basicBlocks]
      simp only [hiff]

/-- All blocks move, by induction on those that are left. -/
theorem moveBlocks_inlining (hne : srcRegion ≠ destRegion) (hnodup : (done ++ todo).Nodup)
    (hsrc : ∀ x ∈ todo, ∃ b, ctx₀.basicBlocks x = some b ∧ b.parentRegion = some srcRegion)
    (hbefore : ∀ x ∈ todo, x ∉ before)
    (h : Inlining ctx₀ st.ctx srcRegion destRegion s d before done todo after)
    (hpoint : insertContainer st.ctx.blockParentRegion point = some destRegion)
    (hinsert : ∀ x, insertNode point x (before ++ done ++ after) =
      before ++ (done ++ [x]) ++ after) :
    ∃ st', moveBlocks todo st (.set point) = some st' ∧
      Inlining ctx₀ st'.ctx srcRegion destRegion s d before (done ++ todo) [] after ∧
      st'.opInsertionPoint = st.opInsertionPoint := by
  induction todo generalizing st done point with
  | nil =>
      rw [List.append_nil]
      exact ⟨st, rfl, h, rfl⟩
  | cons block todo ih =>
      obtain ⟨b, hb, hparent⟩ := hsrc block List.mem_cons_self
      obtain ⟨st₁, hmove, h₁, hsame₁⟩ :=
        moveBlock_inlining hne hnodup hb hparent h hpoint (hinsert block)
      have happ : (done ++ [block]) ++ todo = done ++ block :: todo := by simp
      have hnot : block ∉ before ++ done := by
        rw [List.mem_append, not_or]
        exact ⟨hbefore block List.mem_cons_self, fun hin =>
          (List.nodup_append.mp hnodup).2.2 block hin block List.mem_cons_self rfl⟩
      have hpoint₁ : insertContainer st₁.ctx.blockParentRegion (.after block) =
          some destRegion := by
        have hin : block ∈ done ++ [block] := List.mem_append_right _ List.mem_cons_self
        rw [insertContainer, blockParentRegion, h₁.basicBlocks, if_pos hin, hb]
        rfl
      have hinsert₁ : ∀ x, insertNode (κ := RegionPtr) (.after block) x
          (before ++ (done ++ [block]) ++ after) =
          before ++ (done ++ [block] ++ [x]) ++ after := by
        intro x
        have hcut : before ++ (done ++ [block]) ++ after = (before ++ done) ++ block :: after := by
          simp
        rw [hcut, insertNode_after hnot]
        simp
      obtain ⟨st₂, hrest, h₂, hsame₂⟩ :=
        ih (happ ▸ hnodup) (fun x hx => hsrc x (List.mem_cons_of_mem _ hx))
          (fun x hx => hbefore x (List.mem_cons_of_mem _ hx)) h₁ hpoint₁ hinsert₁
      rw [happ] at h₂
      refine ⟨st₂, ?_, h₂, hsame₂.trans hsame₁⟩
      rw [moveBlocks]
      simp only [Option.bind_eq_bind, hmove, Option.bind_some]
      exact hrest

/-! ## Inlining a region -/

/-- What inlining a region does: its blocks are at the insertion point in the other region, and
    everything else is as it was. -/
structure InlinedAt (st st' : PlacingRewriter) (srcRegion destRegion : RegionPtr) (index : Nat) :
    Prop where
  source : st'.ctx.regionBlocks srcRegion = []
  target : st'.ctx.regionBlocks destRegion = (st.ctx.regionBlocks destRegion).take index ++
    st.ctx.regionBlocks srcRegion ++ (st.ctx.regionBlocks destRegion).drop index
  blocks : ∀ x ∈ st.ctx.regionBlocks srcRegion, st'.ctx.basicBlocks x =
    (st.ctx.basicBlocks x).map (fun b => { b with parentRegion := some destRegion })
  otherBlocks : ∀ x, x ∉ st.ctx.regionBlocks srcRegion →
    st'.ctx.basicBlocks x = st.ctx.basicBlocks x
  operations : st'.ctx.operations = st.ctx.operations
  otherRegions : ∀ x, x ≠ srcRegion → x ≠ destRegion → st'.ctx.regions x = st.ctx.regions x
  insertionPoint : st'.opInsertionPoint = st.opInsertionPoint

/-- The position in a region that an insertion point is at. -/
def inlineIndex (l : List BlockPtr) : BlockInsertionPoint → Nat
  | .unset => 0
  | .set point => point.index l

/-- The blocks of a region are inlined at a place in another one. -/
theorem inlineRegion_inlinedAt (hnest : st.ctx.WellNested)
    {destInsertionPoint : BlockInsertionPoint} (hs : st.ctx.regions srcRegion = some s)
    (hd : st.ctx.regions destRegion = some d) (hne : srcRegion ≠ destRegion)
    (hdest : destInsertionPoint.getInsertionRegion st.ctx = some destRegion) :
    ∃ st', st.inlineRegion srcRegion destInsertionPoint = some st' ∧
      InlinedAt st st' srcRegion destRegion
        (inlineIndex (st.ctx.regionBlocks destRegion) destInsertionPoint) := by
  have hsBlocks : st.ctx.regionBlocks srcRegion = s.blocks := by
    rw [Context.regionBlocks, hs]
    rfl
  have hdBlocks : st.ctx.regionBlocks destRegion = d.blocks := by
    rw [Context.regionBlocks, hd]
    rfl
  cases destInsertionPoint with
  | unset => cases hdest
  | set point =>
      have hpoint : insertContainer st.ctx.blockParentRegion point = some destRegion := hdest
      let index := point.index d.blocks
      have hcut := List.take_append_drop index d.blocks
      have hsrc : ∀ x ∈ s.blocks, ∃ b, st.ctx.basicBlocks x = some b ∧
          b.parentRegion = some srcRegion := by
        intro x hx
        rw [← hsBlocks] at hx
        exact Option.bind_eq_some_iff.mp ((hnest.block_mem srcRegion x).mp hx)
      -- no block of the source region is in the destination
      have hbefore : ∀ x ∈ s.blocks, x ∉ d.blocks.take index := by
        intro x hx hin
        rw [← hsBlocks] at hx
        have hin := List.mem_of_mem_take hin
        rw [← hdBlocks] at hin
        have hxsrc := (hnest.block_mem srcRegion x).mp hx
        have hxdest := (hnest.block_mem destRegion x).mp hin
        exact hne (Option.some.inj (hxsrc.symm.trans hxdest))
      have hnodup : ([] ++ s.blocks).Nodup := by
        rw [List.nil_append, ← hsBlocks]
        exact hnest.blocks_nodup srcRegion
      have hstart : Inlining st.ctx st.ctx srcRegion destRegion s d (d.blocks.take index) []
          s.blocks (d.blocks.drop index) := by
        refine ⟨?_, fun x => (if_neg List.not_mem_nil).symm, rfl⟩
        rw [List.append_nil, hcut, ← hs, update_eq_self, ← hd, update_eq_self]
      -- inserting at the point puts each block behind those already moved
      have hinsert : ∀ x, insertNode point x (d.blocks.take index ++ [] ++ d.blocks.drop index) =
          d.blocks.take index ++ ([] ++ [x]) ++ d.blocks.drop index := by
        intro x
        have hmem : ∀ mark, st.ctx.blockParentRegion mark = some destRegion →
            mark ∈ d.blocks := by
          intro mark hmark
          rw [← hdBlocks]
          exact (hnest.block_mem destRegion mark).mpr hmark
        rw [List.append_nil, hcut, insertNode_eq_cut hpoint hmem]
        simp [index]
      obtain ⟨st', hrun, h, hsame⟩ :=
        moveBlocks_inlining hne hnodup hsrc hbefore hstart hpoint hinsert
      rw [List.nil_append] at h
      refine ⟨st', ?_, ?_⟩
      · rw [inlineRegion]
        simp only [Option.bind_eq_bind, hdest, Option.bind_some, hs, guard, if_pos hne]
        exact hrun
      · rw [hdBlocks]
        exact {
          source := by
            rw [Context.regionBlocks, h.regions, update_of_ne hne, update_self]
            rfl
          target := by
            rw [Context.regionBlocks, h.regions, update_self, hsBlocks, hdBlocks]
            rfl
          blocks := by
            intro x hx
            rw [hsBlocks] at hx
            rw [h.basicBlocks, if_pos hx]
          otherBlocks := by
            intro x hx
            rw [hsBlocks] at hx
            rw [h.basicBlocks, if_neg hx]
          operations := h.operations
          otherRegions := by
            intro x hxs hxd
            rw [h.regions, update_of_ne hxd, update_of_ne hxs]
          insertionPoint := hsame }

end Inline

/-! ## The order is preserved -/

/-- Splitting a block in a region at a position in the block, and inlining a region at a position
    in another region, keep the order of what they move. -/
theorem split_and_inline_keep_order (hnest : st.ctx.WellNested) :
    (∀ block region position label, st.ctx.blockParentRegion block = some region →
      st.ctx.getInsertionBlock position = some block →
      ∃ newBlock st', st.splitBlock block position label = some (newBlock, st') ∧
        SplitAt st st' block newBlock region
          (splitIndex (st.ctx.blockOps block) position)) ∧
    (∀ srcRegion destRegion destInsertionPoint, st.ctx.regions srcRegion ≠ none →
      st.ctx.regions destRegion ≠ none → srcRegion ≠ destRegion →
      destInsertionPoint.getInsertionRegion st.ctx = some destRegion →
      ∃ st', st.inlineRegion srcRegion destInsertionPoint = some st' ∧
        InlinedAt st st' srcRegion destRegion
          (inlineIndex (st.ctx.regionBlocks destRegion) destInsertionPoint)) := by
  constructor
  · intro block region position label hlinked hpos
    exact splitBlock_splitAt hnest hlinked hpos label
  · intro srcRegion destRegion point hs hd hne hdest
    obtain ⟨s, hs⟩ := Option.ne_none_iff_exists'.mp hs
    obtain ⟨d, hd⟩ := Option.ne_none_iff_exists'.mp hd
    exact inlineRegion_inlinedAt hnest hs hd hne hdest

/-- An operation with two regions: a block with two operations, and an empty block. -/
def twoRegions : Context where
  operations := fun op => match op.idx with
    | 0 => some { concreteOp := { opId := 0 }, parentBlock := some ⟨0⟩ }
    | 1 => some { concreteOp := { opId := 0 }, parentBlock := some ⟨0⟩ }
    | 2 => some { concreteOp := { opId := 1 }, regions := [⟨0⟩, ⟨1⟩] }
    | _ => none
  basicBlocks := fun block => match block.idx with
    | 0 => some { ops := [⟨0⟩, ⟨1⟩], parentRegion := some ⟨0⟩ }
    | 1 => some { parentRegion := some ⟨1⟩ }
    | _ => none
  regions := fun region => match region.idx with
    | 0 => some { parentOp := ⟨2⟩, blocks := [⟨0⟩] }
    | 1 => some { parentOp := ⟨2⟩, blocks := [⟨1⟩] }
    | _ => none
  nextOp := 3
  nextBlock := 2
  nextRegion := 2

theorem twoRegions_wellNested : twoRegions.WellNested where
  op_mem := by
    rintro ⟨_ | _ | i⟩ ⟨_ | _ | _ | j⟩ <;> simp [blockOps, opParentBlock, twoRegions]
  block_mem := by
    rintro ⟨_ | _ | i⟩ ⟨_ | _ | j⟩ <;> simp [regionBlocks, blockParentRegion, twoRegions]
  region_mem := by
    rintro ⟨_ | _ | _ | i⟩ ⟨_ | _ | j⟩ <;> simp [opRegions, regionParentOp, twoRegions]
  ops_nodup := by
    rintro ⟨_ | _ | i⟩ <;> simp [blockOps, twoRegions]
  blocks_nodup := by
    rintro ⟨_ | _ | i⟩ <;> simp [regionBlocks, twoRegions]
  regions_nodup := by
    rintro ⟨_ | _ | _ | i⟩ <;> simp [opRegions, twoRegions]
  op_lt := by
    rintro ⟨_ | _ | _ | i⟩ <;> simp [twoRegions]
  block_lt := by
    rintro ⟨_ | _ | i⟩ <;> simp [twoRegions]
  region_lt := by
    rintro ⟨_ | _ | i⟩ <;> simp [twoRegions]
  acyclic := by
    refine ⟨fun op => if op.idx = 2 then 0 else 1, ?_⟩
    rintro ⟨_ | _ | _ | i⟩ parent <;>
      simp [parentOp, opParentRegion, opParentBlock, blockParentRegion, regionParentOp,
        twoRegions] <;> rintro rfl <;> simp

/-- The block is split before its second operation, and its region is inlined at the end of the
    other one. -/
theorem split_and_inline_keep_order_twoRegions :
    (∃ newBlock st', splitBlock { ctx := twoRegions } ⟨0⟩ (.set (.before ⟨1⟩)) none =
        some (newBlock, st') ∧ SplitAt { ctx := twoRegions } st' ⟨0⟩ newBlock ⟨0⟩ 1) ∧
    (∃ st', inlineRegion { ctx := twoRegions } ⟨0⟩ (.set (.atBack ⟨1⟩)) = some st' ∧
      InlinedAt { ctx := twoRegions } st' ⟨0⟩ ⟨1⟩ 1) := by
  have hnest : ({ ctx := twoRegions } : PlacingRewriter).ctx.WellNested := twoRegions_wellNested
  obtain ⟨hsplit, hinline⟩ := split_and_inline_keep_order hnest
  exact ⟨hsplit ⟨0⟩ ⟨0⟩ (.set (.before ⟨1⟩)) none rfl rfl,
    hinline ⟨0⟩ ⟨1⟩ (.set (.atBack ⟨1⟩)) nofun nofun (by decide) rfl⟩

end PlacingRewriter

end Pliron
