/-
  Pliron.IR.SameNesting

  What editing uses and erasing leave alone.

  Editing uses changes no link, type or attribute.  Erasing an operation moreover
  unlinks it and deallocates what it contains, and everything else stays.
-/

import Pliron.IR.DefUseErase

namespace Pliron

namespace Context

/-- Two contexts that differ in values and their uses at most. -/
structure SameNesting (ctx ctx' : Context) : Prop where
  op : ∀ x, (ctx'.operations x).map (fun o => (o.concreteOp, o.attributes, o.parentBlock, o.regions)) =
    (ctx.operations x).map (fun o => (o.concreteOp, o.attributes, o.parentBlock, o.regions))
  block : ∀ x, (ctx'.basicBlocks x).map (fun b => (b.ops, b.parentRegion)) =
    (ctx.basicBlocks x).map (fun b => (b.ops, b.parentRegion))
  region : ctx'.regions = ctx.regions

namespace SameNesting

variable {ctx ctx' ctx'' : Context} {op : OpPtr} {o o' : Operation} {block : BlockPtr}

theorem refl (ctx : Context) : SameNesting ctx ctx := ⟨fun _ => rfl, fun _ => rfl, rfl⟩

theorem trans (h : SameNesting ctx ctx') (h' : SameNesting ctx' ctx'') : SameNesting ctx ctx'' :=
  ⟨fun x => (h'.op x).trans (h.op x), fun x => (h'.block x).trans (h.block x),
    h'.region.trans h.region⟩

theorem setOp (ho : ctx.operations op = some o)
    (h : (o'.concreteOp, o'.attributes, o'.parentBlock, o'.regions) =
      (o.concreteOp, o.attributes, o.parentBlock, o.regions)) :
    SameNesting ctx (ctx.setOp op o') := by
  refine ⟨fun x => ?_, fun _ => rfl, rfl⟩
  by_cases hx : x = op
  · rw [setOp_operations, if_pos hx, hx, ho, Option.map_some, Option.map_some, h]
  · rw [setOp_operations, if_neg hx]

theorem setBlock {b b' : BasicBlock} (hb : ctx.basicBlocks block = some b)
    (h : (b'.ops, b'.parentRegion) = (b.ops, b.parentRegion)) :
    SameNesting ctx (ctx.setBlock block b') := by
  refine ⟨fun _ => rfl, fun x => ?_, rfl⟩
  by_cases hx : x = block
  · rw [setBlock_basicBlocks, if_pos hx, hx, hb, Option.map_some, Option.map_some, h]
  · rw [setBlock_basicBlocks, if_neg hx]

theorem setValueDefs {entity : DefiningEntity} {l : List ValueDef}
    (h : ctx.setValueDefs entity l = some ctx') : SameNesting ctx ctx' := by
  rcases entity with op | block
  · obtain ⟨o, ho, rfl⟩ := Option.map_eq_some_iff.mp h
    exact setOp ho rfl
  · obtain ⟨b, hb, rfl⟩ := Option.map_eq_some_iff.mp h
    exact setBlock hb rfl

theorem setUses {d : Def} {uses : List Use} (h : ctx.setUses d uses = some ctx') :
    SameNesting ctx ctx' := by
  rcases d with v | block
  · obtain ⟨l, _, hset⟩ := Option.bind_eq_some_iff.mp h
    exact setValueDefs hset
  · obtain ⟨b, hb, rfl⟩ := Option.map_eq_some_iff.mp h
    exact setBlock hb rfl

theorem dropUse {δ : Type} {k : OperandKind δ} {opd : Operand δ}
    (h : ctx.dropUse k op opd = some ctx') : SameNesting ctx ctx' := by
  obtain ⟨uses, _, h⟩ := Option.bind_eq_some_iff.mp h
  obtain ⟨_, _, h⟩ := Option.bind_eq_some_iff.mp h
  exact setUses h

theorem foldlM {β : Type} {f : Context → β → Option Context}
    (hf : ∀ c b c', f c b = some c' → SameNesting c c') {l : List β}
    (h : l.foldlM f ctx = some ctx') : SameNesting ctx ctx' := by
  induction l generalizing ctx with
  | nil =>
      obtain rfl := Option.some.inj h
      exact refl ctx
  | cons b l ih =>
      rw [List.foldlM_cons] at h
      obtain ⟨ctx₁, hb, h⟩ := Option.bind_eq_some_iff.mp h
      exact (hf _ _ _ hb).trans (ih h)

theorem dropOwnUses (h : ctx.dropOwnUses op = some ctx') : SameNesting ctx ctx' := by
  obtain ⟨o, ho, h⟩ := Option.bind_eq_some_iff.mp h
  obtain ⟨ctx₁, hopds, h⟩ := Option.bind_eq_some_iff.mp h
  obtain ⟨o₁, ho₁, hsuccs⟩ := Option.bind_eq_some_iff.mp h
  have hset : SameNesting ctx (ctx.setOp op { o with operands := [] }) := setOp ho rfl
  have hset₁ : SameNesting ctx₁ (ctx₁.setOp op { o₁ with successors := [] }) := setOp ho₁ rfl
  have h₁ := hset.trans (foldlM (fun _ _ _ => dropUse) hopds)
  exact h₁.trans (hset₁.trans (foldlM (fun _ _ _ => dropUse) hsuccs))

theorem dropAllUses {fuel : Nat} {node : IRNode} (h : dropAllUses fuel ctx node = some ctx') :
    SameNesting ctx ctx' := by
  induction fuel generalizing ctx ctx' node with
  | zero => cases h
  | succ fuel ih =>
      obtain ⟨_, _, h⟩ := Option.bind_eq_some_iff.mp h
      obtain ⟨ctx₁, hown, h⟩ := Option.bind_eq_some_iff.mp h
      have hown : SameNesting ctx ctx₁ := by
        cases node with
        | operation op => exact dropOwnUses hown
        | basicBlock _ =>
            obtain rfl := Option.some.inj hown
            exact refl ctx
        | region _ =>
            obtain rfl := Option.some.inj hown
            exact refl ctx
      exact hown.trans (foldlM (fun _ _ _ => ih) h)

theorem opParentBlock_eq (h : SameNesting ctx ctx') (x : OpPtr) :
    ctx'.opParentBlock x = ctx.opParentBlock x := by
  have hx := congrArg (Option.map (fun t => t.2.2.1)) (h.op x)
  rw [Option.map_map, Option.map_map] at hx
  have hx := congrArg (fun o => Option.bind o id) hx
  simp only [Option.bind_map] at hx
  exact hx

theorem blockOps_eq (h : SameNesting ctx ctx') (x : BlockPtr) :
    ctx'.blockOps x = ctx.blockOps x := by
  have hx := congrArg (Option.map Prod.fst) (h.block x)
  rw [Option.map_map, Option.map_map] at hx
  exact congrArg (fun l => l.getD []) hx

end SameNesting

/-! ## Linking an operation -/

/-- Two contexts that differ in the contents of blocks at most, apart from values and uses. -/
structure SameFrame (ctx ctx' : Context) : Prop where
  op : ∀ x, (ctx'.operations x).map (fun o => (o.concreteOp, o.attributes, o.regions)) =
    (ctx.operations x).map (fun o => (o.concreteOp, o.attributes, o.regions))
  block : ∀ x, (ctx'.basicBlocks x).map BasicBlock.parentRegion =
    (ctx.basicBlocks x).map BasicBlock.parentRegion
  region : ctx'.regions = ctx.regions

theorem SameNesting.sameFrame {ctx ctx' : Context} (h : SameNesting ctx ctx') :
    SameFrame ctx ctx' := by
  refine ⟨fun x => ?_, fun x => ?_, h.region⟩
  · have hx := congrArg (Option.map (fun t => (t.1, t.2.1, t.2.2.2))) (h.op x)
    rwa [Option.map_map, Option.map_map] at hx
  · have hx := congrArg (Option.map Prod.snd) (h.block x)
    rwa [Option.map_map, Option.map_map] at hx

namespace SameFrame

variable {ctx ctx' : Context}

theorem opRegions_eq (h : SameFrame ctx ctx') (x : OpPtr) :
    ctx'.opRegions x = ctx.opRegions x := by
  have hx := congrArg (Option.map (fun t => t.2.2)) (h.op x)
  rw [Option.map_map, Option.map_map] at hx
  exact congrArg (fun l => l.getD []) hx

theorem blockParentRegion_eq (h : SameFrame ctx ctx') (x : BlockPtr) :
    ctx'.blockParentRegion x = ctx.blockParentRegion x := by
  have hx := congrArg (fun o => Option.bind o id) (h.block x)
  simp only [Option.bind_map] at hx
  exact hx

theorem regionBlocks_eq (h : SameFrame ctx ctx') (x : RegionPtr) :
    ctx'.regionBlocks x = ctx.regionBlocks x := by
  rw [regionBlocks, regionBlocks, h.region]

theorem regionParentOp_eq (h : SameFrame ctx ctx') (x : RegionPtr) :
    ctx'.regionParentOp x = ctx.regionParentOp x := by
  rw [regionParentOp, regionParentOp, h.region]

theorem blockParentOp_eq (h : SameFrame ctx ctx') (x : BlockPtr) :
    ctx'.blockParentOp x = ctx.blockParentOp x := by
  have hregion : ctx'.regionParentOp = ctx.regionParentOp := funext h.regionParentOp_eq
  rw [blockParentOp, blockParentOp, h.blockParentRegion_eq, hregion]

end SameFrame

namespace SameNesting

variable {ctx ctx' : Context}

theorem childNodes_eq (h : SameNesting ctx ctx') : ctx'.childNodes = ctx.childNodes := by
  funext x
  rcases x with x | x | x
  · exact congrArg (List.map _) (h.sameFrame.opRegions_eq x)
  · exact congrArg (List.map _) (h.blockOps_eq x)
  · exact congrArg (List.map _) (h.sameFrame.regionBlocks_eq x)

theorem contains_eq (h : SameNesting ctx ctx') : ctx'.Contains = ctx.Contains := by
  unfold Contains
  rw [h.childNodes_eq]

end SameNesting

section Link

variable {ctx ctx' : Context} {op : OpPtr}

theorem mem_insertNode {ν κ : Type} [DecidableEq ν] {containerOf : ν → Option κ}
    {point : InsertPoint ν κ} {container : κ} {l : List ν} {x node : ν}
    (hpoint : insertContainer containerOf point = some container)
    (hl : ∀ mark, containerOf mark = some container → mark ∈ l) :
    x ∈ insertNode point node l ↔ x = node ∨ x ∈ l := by
  cases point with
  | atFront _ => exact List.mem_cons
  | atBack _ => rw [insertNode, List.mem_append, List.mem_singleton, or_comm]
  | after mark =>
      have hlt := List.idxOf_lt_length_of_mem (hl mark hpoint)
      rw [insertNode, List.mem_insertIdx (by omega)]
  | before mark =>
      have hlt := List.idxOf_lt_length_of_mem (hl mark hpoint)
      rw [insertNode, List.mem_insertIdx (by omega)]

theorem nodup_insertNode {ν κ : Type} [DecidableEq ν] (point : InsertPoint ν κ) {l : List ν}
    {node : ν} (hl : l.Nodup) (hnode : node ∉ l) : (insertNode point node l).Nodup := by
  have hcons : (node :: l).Nodup := List.nodup_cons.mpr ⟨hnode, hl⟩
  have hinsert : ∀ i, (l.insertIdx i node).Nodup := by
    intro i
    by_cases hi : i ≤ l.length
    · exact (List.perm_insertIdx node l hi).nodup_iff.mpr hcons
    · rw [List.insertIdx_of_length_lt (by omega)]
      exact hl
  cases point with
  | atFront _ => exact hcons
  | atBack _ => exact (List.perm_append_singleton node l).nodup_iff.mpr hcons
  | after mark => exact hinsert _
  | before mark => exact hinsert _

/-- Moving an operation to another place. -/
theorem sameFrame_move {o : Operation} {b b' : BasicBlock} {block : BlockPtr}
    (parent : Option BlockPtr) (ho : ctx.operations op = some o)
    (hb : ctx.basicBlocks block = some b) (hparent : b'.parentRegion = b.parentRegion) :
    SameFrame ctx ((ctx.setOp op { o with parentBlock := parent }).setBlock block b') := by
  refine ⟨fun x => ?_, fun x => ?_, rfl⟩
  · have hset : ((ctx.setOp op { o with parentBlock := parent }).setBlock block b').operations x =
        if x = op then some { o with parentBlock := parent } else ctx.operations x :=
      setOp_operations x
    rw [hset]
    by_cases hx : x = op
    · rw [if_pos hx, hx, ho]
      rfl
    · rw [if_neg hx]
  · rw [setBlock_basicBlocks]
    by_cases hx : x = block
    · rw [if_pos hx, hx, hb, Option.map_some, Option.map_some, hparent]
    · rw [if_neg hx]
      rfl

/-- What linking an operation into a block does. -/
structure Linked (ctx ctx' : Context) (op : OpPtr) (block : BlockPtr)
    (point : InsertPoint OpPtr BlockPtr) : Prop where
  frame : SameFrame ctx ctx'
  unlinked : ctx.opParentBlock op = none
  container : insertContainer ctx.opParentBlock point = some block
  opParentBlock : ∀ x, ctx'.opParentBlock x = if x = op then some block else ctx.opParentBlock x
  blockOps : ∀ x, ctx'.blockOps x =
    if x = block then insertNode point op (ctx.blockOps block) else ctx.blockOps x

theorem opParentBlock_move {o : Operation} {b' : BasicBlock} (block : BlockPtr)
    (parent : Option BlockPtr) (x : OpPtr) :
    ((ctx.setOp op { o with parentBlock := parent }).setBlock block b').opParentBlock x =
      if x = op then parent else ctx.opParentBlock x := by
  have hset : ((ctx.setOp op { o with parentBlock := parent }).setBlock block b').operations x =
      if x = op then some { o with parentBlock := parent } else ctx.operations x :=
    setOp_operations x
  rw [Context.opParentBlock, hset]
  split <;> rfl

theorem blockOps_move {o' : Operation} {b' : BasicBlock} (block : BlockPtr) (x : BlockPtr) :
    ((ctx.setOp op o').setBlock block b').blockOps x =
      if x = block then b'.ops else ctx.blockOps x := by
  rw [Context.blockOps, setBlock_basicBlocks]
  split <;> rfl

theorem linkOp_linked {point : InsertPoint OpPtr BlockPtr} (h : ctx.linkOp op point = some ctx') :
    ∃ block, Linked ctx ctx' op block point := by
  obtain ⟨o, ho, h⟩ := Option.bind_eq_some_iff.mp h
  obtain ⟨_, hguard, h⟩ := Option.bind_eq_some_iff.mp h
  obtain ⟨block, hblock, h⟩ := Option.bind_eq_some_iff.mp h
  obtain ⟨b, hb, h⟩ := Option.bind_eq_some_iff.mp h
  obtain rfl := Option.some.inj h
  have hb : ctx.basicBlocks block = some b := hb
  have hnone : o.parentBlock = none := by simpa [guard] using hguard
  have hops : ctx.blockOps block = b.ops := by rw [Context.blockOps, hb]; rfl
  refine ⟨block, sameFrame_move _ ho hb rfl, ?_, hblock, opParentBlock_move block (some block),
    fun x => ?_⟩
  · simp [Context.opParentBlock, ho, hnone]
  · rw [blockOps_move, hops]

/-- What unlinking an operation from its block does. -/
structure UnlinkedFrom (ctx ctx' : Context) (op : OpPtr) (block : BlockPtr) : Prop where
  frame : SameFrame ctx ctx'
  linked : ctx.opParentBlock op = some block
  opParentBlock : ∀ x, ctx'.opParentBlock x = if x = op then none else ctx.opParentBlock x
  blockOps : ∀ x, ctx'.blockOps x =
    if x = block then (ctx.blockOps block).erase op else ctx.blockOps x

theorem unlinkOp_unlinkedFrom (h : ctx.unlinkOp op = some ctx') :
    ∃ block, UnlinkedFrom ctx ctx' op block := by
  obtain ⟨o, ho, h⟩ := Option.bind_eq_some_iff.mp h
  obtain ⟨block, hblock, h⟩ := Option.bind_eq_some_iff.mp h
  obtain ⟨b, hb, h⟩ := Option.bind_eq_some_iff.mp h
  obtain rfl := Option.some.inj h
  have hb : ctx.basicBlocks block = some b := hb
  have hops : ctx.blockOps block = b.ops := by rw [Context.blockOps, hb]; rfl
  refine ⟨block, sameFrame_move _ ho hb rfl, ?_, opParentBlock_move block none, fun x => ?_⟩
  · simp [Context.opParentBlock, ho, hblock]
  · rw [blockOps_move, hops]

/-- Erasing an operation that is in no block deallocates it and what it contains. -/
theorem eraseOp_freed (h : ctx.eraseOp op = some ctx') (hop : ctx.opParentBlock op = none) :
    ∃ ctx₁, SameNesting ctx ctx₁ ∧ Freed ctx₁ ctx' (ctx.Contains (.operation op)) := by
  obtain ⟨ctx₁, hdrop, h⟩ := Option.bind_eq_some_iff.mp h
  obtain ⟨o, _, h⟩ := Option.bind_eq_some_iff.mp h
  obtain ⟨_, _, h⟩ := Option.bind_eq_some_iff.mp h
  obtain ⟨ctx₂, hunlink, hdealloc⟩ := Option.bind_eq_some_iff.mp h
  have hsame := SameNesting.dropAllUses hdrop
  have hunlinked : ctx₁.opParentBlock op = none := (hsame.opParentBlock_eq op).trans hop
  obtain rfl : ctx₁ = ctx₂ := by
    simpa [unlinkNode, hunlinked] using hunlink
  exact ⟨ctx₁, hsame, hsame.contains_eq ▸ dealloc_freed hdealloc⟩

end Link

end Context

end Pliron
