/-
  Pliron.IR.EraseLeaf

  Erasing a node that contains nothing any more.

  This is what the rewriter asks of the IR: it erases the contents of an entity
  first.  Such an erasure fails exactly if another operation still refers to what
  the node defines, and it takes out the node and nothing else (`Cut`).
-/

import Pliron.IR.SameNesting

namespace Pliron

open Pliron.Lib Function

/-- What an operation is and refers to. -/
def Operation.body (o : Operation) :
    ConcreteOpInfo × List (Operand Value) × List (Operand BlockPtr) :=
  (o.concreteOp, o.operands, o.successors)

namespace Context

variable {ctx ctx₁ ctx' ctx'' : Context} {refs : OpPtr → List (Nat × Def)} {op : OpPtr}
  {o : Operation} {node : IRNode} {block : BlockPtr} {region : RegionPtr}

/-- Erase one node, the region by its place in its operation. -/
def eraseOne (ctx : Context) : IRNode → Option Context
  | .operation op => ctx.eraseOp op
  | .basicBlock block => ctx.eraseBlock block
  | .region region => do
      let parentOp ← ctx.regionParentOp region
      let indexInParent ← (← ctx.operations parentOp).regions.idxOf? region
      ctx.eraseRegion parentOp indexInParent

/-! ## Dropping the uses of an operation -/

/-- A recorded use can be removed. -/
theorem removeUse_total {uid : Nat} {d : Def} (h : ctx.DefUseOn refs) (hr : (uid, d) ∈ refs op) :
    ∃ ctx', ctx.removeUse d ⟨op, uid⟩ = some ctx' := by
  obtain ⟨us, hus, hmem⟩ := h.consistent.recorded op (uid, d) hr
  obtain ⟨uses, huses, rfl⟩ := Option.map_eq_some_iff.mp hus
  obtain ⟨use, huse, hpair⟩ := List.mem_map.mp hmem
  have heq : use = ⟨op, uid⟩ := Use.pair_injective hpair
  obtain ⟨ctx', hctx', _⟩ := setUses_spec (uses.erase ⟨op, uid⟩) huses
  refine ⟨ctx', ?_⟩
  have huses' : ctx.usesOf d = some uses := huses
  simp only [removeUse, huses', Option.bind_eq_bind, Option.bind_some]
  rw [show (guard (⟨op, uid⟩ ∈ uses) : Option Unit) = some () from by
    simp [guard, heq ▸ huse], Option.bind_some]
  exact hctx'

section Operands

variable {δ : Type} {k : OperandKind δ}

theorem dropUses_total {opds : List (Operand δ)} {rest : List (Nat × Def)} (h : ctx.DefUseOn refs)
    (hrest : (opds.map (Operand.ref k.toDef) ++ rest).Perm (refs op)) :
    ∃ ctx', opds.foldlM (fun ctx opd => ctx.dropUse k op opd) ctx = some ctx' := by
  induction opds generalizing ctx refs with
  | nil => exact ⟨ctx, rfl⟩
  | cons opd opds ih =>
      have hr : (opd.useUid, k.toDef opd.defn) ∈ refs op := hrest.mem_iff.mp List.mem_cons_self
      obtain ⟨ctx₁, hone⟩ := removeUse_total h hr
      obtain ⟨h₁, _⟩ := dropUse_spec h hone hrest
      obtain ⟨ctx', hctx'⟩ := ih h₁ (by rw [update_self]; rfl)
      refine ⟨ctx', ?_⟩
      rw [List.foldlM_cons]
      exact Option.bind_eq_some_iff.mpr ⟨ctx₁, hone, hctx'⟩

theorem clearRefs_total (hk : k.Lawful) (h : ctx.DefUse) (ho : ctx.operations op = some o) :
    ∃ ctx', (k.get o).foldlM (fun ctx opd => ctx.dropUse k op opd)
      (ctx.setOp op (k.set o [])) = some ctx' := by
  have hset : (ctx.setOp op (k.set o [])).DefUseOn ctx.refsOf :=
    DefUseOn.setOp h ho (hk.results_set o [])
  exact dropUses_total hset (by rw [refsOf_eq ho]; exact (hk.refs_perm o).symm)

end Operands

/-- An operation can always drop its uses. -/
theorem dropOwnUses_total (h : ctx.DefUse) (ho : ctx.operations op = some o) :
    ∃ ctx', ctx.dropOwnUses op = some ctx' := by
  obtain ⟨ctx₁, hopds⟩ := clearRefs_total operandKind_lawful h ho
  obtain ⟨h₁, hsame₁⟩ := clearRefs_spec operandKind_lawful h ho hopds
  obtain ⟨o₁, ho₁⟩ : ∃ o₁, ctx₁.operations op = some o₁ := by
    refine Option.ne_none_iff_exists'.mp (fun hnone => ?_)
    have hset := (hsame₁.op_none op).mp hnone
    rw [setOp_operations, if_pos rfl] at hset
    cases hset
  obtain ⟨ctx', hsuccs⟩ := clearRefs_total successorKind_lawful h₁ ho₁
  refine ⟨ctx', ?_⟩
  refine Option.bind_eq_some_iff.mpr ⟨o, ho, ?_⟩
  refine Option.bind_eq_some_iff.mpr ⟨ctx₁, hopds, ?_⟩
  exact Option.bind_eq_some_iff.mpr ⟨o₁, ho₁, hsuccs⟩

theorem map_body_eq {a b : Option Operation}
    (hc : a.map Operation.concreteOp = b.map Operation.concreteOp)
    (ho : a.map Operation.operands = b.map Operation.operands)
    (hs : a.map Operation.successors = b.map Operation.successors) :
    a.map Operation.body = b.map Operation.body := by
  cases a with
  | none => cases b <;> simp_all
  | some a =>
      cases b with
      | none => simp at hc
      | some b =>
          have hc' := Option.some.inj hc
          have ho' := Option.some.inj ho
          have hs' := Option.some.inj hs
          simp [Operation.body, hc', ho', hs']

theorem removeUse_body {d : Def} {use : Use} (h : ctx.removeUse d use = some ctx') (x : OpPtr) :
    (ctx'.operations x).map Operation.body = (ctx.operations x).map Operation.body := by
  obtain ⟨uses, huses, h⟩ := Option.bind_eq_some_iff.mp h
  obtain ⟨_, _, h⟩ := Option.bind_eq_some_iff.mp h
  obtain ⟨ctx'', hctx'', _, hsame⟩ := setUses_spec (uses.erase use) huses
  obtain rfl := Option.some.inj (hctx''.symm.trans h)
  refine map_body_eq ?_ (hsame.operands x) (hsame.successors x)
  have hx := congrArg (Option.map Prod.fst) ((SameNesting.setUses h).op x)
  rwa [Option.map_map, Option.map_map] at hx

theorem foldlM_body {β : Type} {f : Context → β → Option Context}
    (hf : ∀ c b c', f c b = some c' → ∀ x, (c'.operations x).map Operation.body =
      (c.operations x).map Operation.body)
    {l : List β} (h : l.foldlM f ctx = some ctx') (x : OpPtr) :
    (ctx'.operations x).map Operation.body = (ctx.operations x).map Operation.body := by
  induction l generalizing ctx with
  | nil => rw [Option.some.inj h]
  | cons b l ih =>
      rw [List.foldlM_cons] at h
      obtain ⟨ctx₁, hb, h⟩ := Option.bind_eq_some_iff.mp h
      rw [ih h, hf _ _ _ hb]

/-- The other operations keep what they refer to. -/
theorem dropOwnUses_body (h : ctx.dropOwnUses op = some ctx') {x : OpPtr} (hx : x ≠ op) :
    (ctx'.operations x).map Operation.body = (ctx.operations x).map Operation.body := by
  obtain ⟨o, ho, h⟩ := Option.bind_eq_some_iff.mp h
  obtain ⟨ctx₁, hopds, h⟩ := Option.bind_eq_some_iff.mp h
  obtain ⟨o₁, ho₁, hsuccs⟩ := Option.bind_eq_some_iff.mp h
  have h₁ := foldlM_body (fun c b c' hc => removeUse_body hc) hopds x
  have h₂ := foldlM_body (fun c b c' hc => removeUse_body hc) hsuccs x
  rw [h₂, setOp_operations, if_neg hx, h₁, setOp_operations, if_neg hx]

namespace SameNesting

theorem isAllocated_eq (h : SameNesting ctx ctx') (x : IRNode) :
    ctx'.isAllocated x = ctx.isAllocated x := by
  rcases x with x | x | x
  · have hx := congrArg Option.isSome (h.op x)
    rwa [Option.isSome_map, Option.isSome_map] at hx
  · have hx := congrArg Option.isSome (h.block x)
    rwa [Option.isSome_map, Option.isSome_map] at hx
  · exact congrArg (fun r => (r x).isSome) h.region

theorem parentNode_eq (h : SameNesting ctx ctx') (x : IRNode) :
    ctx'.parentNode x = ctx.parentNode x := by
  rcases x with x | x | x
  · exact congrArg (Option.map _) (h.opParentBlock_eq x)
  · exact congrArg (Option.map _) (h.sameFrame.blockParentRegion_eq x)
  · exact congrArg (Option.map _) (h.sameFrame.regionParentOp_eq x)

end SameNesting

/-! ## Definitions that nothing refers to -/

/-- The values of an entity have no uses exactly if no operation refers to one of them. -/
theorem unused_values_iff (entity : DefiningEntity) {l : List ValueDef} (h : ctx.DefUse)
    (hl : ctx.valueDefs entity = some l) :
    (∀ e ∈ l, e.defNode.uses = []) ↔
      ∀ x, ∀ r ∈ ctx.refsOf x, ∀ v, r.2 = .value v → v.definingEntity ≠ entity := by
  constructor
  · rintro hunused x ⟨uid, d⟩ hr v rfl rfl
    obtain ⟨us, hus, hmem⟩ := h.consistent.recorded x _ hr
    obtain ⟨uses, huses, rfl⟩ := Option.map_eq_some_iff.mp hus
    rw [usesOf_value_eq_nil hl hunused huses] at hmem
    exact List.not_mem_nil hmem
  · intro hrefs e he
    have hfind := (find?_valUid_eq_some (h.vals_nodup entity l hl)).mpr ⟨he, rfl⟩
    have huses : ctx.usePairs (.value ⟨e.valUid, entity⟩) =
        some (e.defNode.uses.map Use.pair) := by
      rw [usePairs, usesOf_value, hl, Option.bind_some, hfind]
      rfl
    refine List.eq_nil_iff_forall_not_mem.mpr (fun use huse => ?_)
    exact hrefs _ _ (h.consistent.refers _ _ huses _ (List.mem_map_of_mem huse)) _ rfl rfl

theorem unused_preds_iff {b : BasicBlock} (h : ctx.DefUse)
    (hb : ctx.basicBlocks block = some b) :
    b.preds.uses = [] ↔ ∀ x, ∀ r ∈ ctx.refsOf x, r.2 ≠ .block block := by
  have huses : ctx.usePairs (.block block) = some (b.preds.uses.map Use.pair) := by
    simp [usePairs, usesOf, hb]
  constructor
  · rintro hunused x ⟨uid, d⟩ hr rfl
    obtain ⟨us, hus, hmem⟩ := h.consistent.recorded x _ hr
    rw [huses, hunused] at hus
    rw [← Option.some.inj hus] at hmem
    exact List.not_mem_nil hmem
  · intro hrefs
    refine List.eq_nil_iff_forall_not_mem.mpr (fun use huse => ?_)
    exact hrefs _ _ (h.consistent.refers _ _ huses _ (List.mem_map_of_mem huse)) rfl

/-- Nothing but `node` itself refers to what `node` defines. -/
def Unused (ctx : Context) (node : IRNode) : Prop :=
  ∀ x, .operation x ≠ node → ∀ r ∈ ctx.refsOf x, r.2.definer ≠ node

theorem definer_eq_operation_iff {d : Def} :
    d.definer = .operation op ↔ ∃ v, d = .value v ∧ v.definingEntity = .op op := by
  rcases d with ⟨uid, x | x⟩ | x <;> simp [Def.definer]

theorem definer_eq_basicBlock_iff {d : Def} : d.definer = .basicBlock block ↔
    d = .block block ∨ ∃ v, d = .value v ∧ v.definingEntity = .block block := by
  rcases d with ⟨uid, x | x⟩ | x <;> simp [Def.definer]

theorem definer_ne_region (d : Def) : d.definer ≠ .region region := by
  rcases d with ⟨uid, x | x⟩ | x <;> simp [Def.definer]

/-- The results of an operation that has dropped its uses. -/
theorem not_hasUse_iff_unused (h : ctx.DefUse) (ho : ctx.operations op = some o)
    (hnil : ctx.refsOf op = []) : (!o.hasUse) = true ↔ ctx.Unused (.operation op) := by
  rw [not_hasUse_iff, unused_values_iff (.op op) h (by simp [valueDefs, ho])]
  constructor
  · intro hall x _ r hr hdef
    obtain ⟨v, hv, hent⟩ := definer_eq_operation_iff.mp hdef
    exact hall x r hr v hv hent
  · intro hall x r hr v hv hent
    by_cases hx : x = op
    · rw [hx, hnil] at hr
      exact List.not_mem_nil hr
    · refine hall x (fun heq => hx (IRNode.operation.inj heq)) r hr ?_
      exact definer_eq_operation_iff.mpr ⟨v, hv, hent⟩

/-- A block and its arguments. -/
theorem block_unused_iff {b : BasicBlock} (h : ctx.DefUse) (hb : ctx.basicBlocks block = some b) :
    (b.preds.uses = [] ∧ ∀ e ∈ b.args, e.defNode.uses = []) ↔
      ctx.Unused (.basicBlock block) := by
  rw [unused_preds_iff h hb,
    unused_values_iff (.block block) h (by simp [valueDefs, hb])]
  constructor
  · rintro ⟨hpreds, hargs⟩ x _ r hr hdef
    rcases definer_eq_basicBlock_iff.mp hdef with heq | ⟨v, hv, hent⟩
    · exact hpreds x r hr heq
    · exact hargs x r hr v hv hent
  · intro hall
    have hnone : ∀ x, ∀ r ∈ ctx.refsOf x, r.2.definer ≠ .basicBlock block :=
      fun x => hall x (by simp)
    refine ⟨fun x r hr heq => ?_, fun x r hr v hv hent => ?_⟩
    · exact hnone x r hr (definer_eq_basicBlock_iff.mpr (Or.inl heq))
    · exact hnone x r hr (definer_eq_basicBlock_iff.mpr (Or.inr ⟨v, hv, hent⟩))

/-- What taking out a node that contains nothing leaves. -/
structure Cut (ctx ctx' : Context) (node : IRNode) : Prop where
  defUse : ctx'.DefUse
  allocated : ∀ x, ctx'.isAllocated x = true ↔ ctx.isAllocated x = true ∧ x ≠ node
  children : ∀ x, x ≠ node → ctx'.childNodes x = (ctx.childNodes x).erase node
  parent : ∀ x, x ≠ node → ctx'.parentNode x = ctx.parentNode x
  body : ∀ x, .operation x ≠ node →
    (ctx'.operations x).map Operation.body = (ctx.operations x).map Operation.body

theorem refsOf_of_body {x : OpPtr}
    (h : (ctx'.operations x).map Operation.body = (ctx.operations x).map Operation.body) :
    ctx'.refsOf x = ctx.refsOf x := by
  have hrefs := congrArg (Option.map (fun b => b.2.1.map (Operand.ref .value) ++
    b.2.2.map (Operand.ref .block))) h
  rw [Option.map_map, Option.map_map] at hrefs
  exact congrArg (fun l => l.getD []) hrefs

namespace Cut

/-- Dropping the uses of an operation first. -/
theorem of_sameNesting (hsame : SameNesting ctx ctx₁)
    (hbody : ∀ x, .operation x ≠ node →
      (ctx₁.operations x).map Operation.body = (ctx.operations x).map Operation.body)
    (h : Cut ctx₁ ctx' node) : Cut ctx ctx' node where
  defUse := h.defUse
  allocated x := by rw [h.allocated, hsame.isAllocated_eq]
  children x hx := by rw [h.children x hx, hsame.childNodes_eq]
  parent x hx := by rw [h.parent x hx, hsame.parentNode_eq]
  body x hx := (h.body x hx).trans (hbody x hx)

end Cut

/-! ## Taking out -/

theorem update_none_apply {κ ν : Type} [DecidableEq κ] {f : κ → Option ν} {k : κ} (x : κ) :
    update f k none x = if x = k then none else f x := by
  by_cases hx : x = k
  · rw [hx, update_self, if_pos rfl]
  · rw [update_of_ne hx, if_neg hx]

section Cut

variable (hdefUse : ctx'.DefUse)

include hdefUse

theorem cut_operation
    (hops : ∀ x, ctx'.operations x = if x = op then none else ctx.operations x)
    (hblocks : ∀ x, ctx'.basicBlocks x =
      (ctx.basicBlocks x).map (fun b => { b with ops := b.ops.erase op }))
    (hregions : ctx'.regions = ctx.regions) : Cut ctx ctx' (.operation op) where
  defUse := hdefUse
  allocated x := by
    rcases x with x | x | x
    · simp only [isAllocated, hops, ne_eq, IRNode.operation.injEq]
      split <;> simp_all
    · simp [isAllocated, hblocks]
    · simp [isAllocated, hregions]
  children x hx := by
    rcases x with x | x | x
    · have hne : x ≠ op := fun heq => hx (heq ▸ rfl)
      rw [List.erase_of_not_mem (by simp [childNodes])]
      simp [childNodes, opRegions, hops, hne]
    · have hinj : Injective IRNode.operation := fun a b hab => IRNode.operation.inj hab
      simp only [childNodes, blockOps, hblocks, ← List.map_erase hinj]
      cases ctx.basicBlocks x <;> rfl
    · rw [List.erase_of_not_mem (by simp [childNodes])]
      simp [childNodes, regionBlocks, hregions]
  parent x hx := by
    rcases x with x | x | x
    · have hne : x ≠ op := fun heq => hx (heq ▸ rfl)
      simp [parentNode, opParentBlock, hops, hne]
    · simp only [parentNode, blockParentRegion, hblocks]
      cases ctx.basicBlocks x <;> rfl
    · simp [parentNode, regionParentOp, hregions]
  body x hx := by
    have hne : x ≠ op := fun heq => hx (heq ▸ rfl)
    rw [hops, if_neg hne]

theorem cut_basicBlock
    (hblocks : ∀ x, ctx'.basicBlocks x = if x = block then none else ctx.basicBlocks x)
    (hregions : ∀ x, ctx'.regions x =
      (ctx.regions x).map (fun r => { r with blocks := r.blocks.erase block }))
    (hops : ctx'.operations = ctx.operations) : Cut ctx ctx' (.basicBlock block) where
  defUse := hdefUse
  allocated x := by
    rcases x with x | x | x
    · simp [isAllocated, hops]
    · simp only [isAllocated, hblocks, ne_eq, IRNode.basicBlock.injEq]
      split <;> simp_all
    · simp [isAllocated, hregions]
  children x hx := by
    rcases x with x | x | x
    · rw [List.erase_of_not_mem (by simp [childNodes])]
      simp [childNodes, opRegions, hops]
    · have hne : x ≠ block := fun heq => hx (heq ▸ rfl)
      rw [List.erase_of_not_mem (by simp [childNodes])]
      simp [childNodes, blockOps, hblocks, hne]
    · have hinj : Injective IRNode.basicBlock := fun a b hab => IRNode.basicBlock.inj hab
      simp only [childNodes, regionBlocks, hregions, ← List.map_erase hinj]
      cases ctx.regions x <;> rfl
  parent x hx := by
    rcases x with x | x | x
    · simp [parentNode, opParentBlock, hops]
    · have hne : x ≠ block := fun heq => hx (heq ▸ rfl)
      simp [parentNode, blockParentRegion, hblocks, hne]
    · simp only [parentNode, regionParentOp, hregions]
      cases ctx.regions x <;> rfl
  body x _ := by rw [hops]

theorem cut_region
    (hregions : ∀ x, ctx'.regions x = if x = region then none else ctx.regions x)
    (hops : ∀ x, ctx'.operations x =
      (ctx.operations x).map (fun o => { o with regions := o.regions.erase region }))
    (hblocks : ctx'.basicBlocks = ctx.basicBlocks) : Cut ctx ctx' (.region region) where
  defUse := hdefUse
  allocated x := by
    rcases x with x | x | x
    · simp [isAllocated, hops]
    · simp [isAllocated, hblocks]
    · simp only [isAllocated, hregions, ne_eq, IRNode.region.injEq]
      split <;> simp_all
  children x hx := by
    rcases x with x | x | x
    · have hinj : Injective IRNode.region := fun a b hab => IRNode.region.inj hab
      simp only [childNodes, opRegions, hops, ← List.map_erase hinj]
      cases ctx.operations x <;> rfl
    · rw [List.erase_of_not_mem (by simp [childNodes])]
      simp [childNodes, blockOps, hblocks]
    · have hne : x ≠ region := fun heq => hx (heq ▸ rfl)
      rw [List.erase_of_not_mem (by simp [childNodes])]
      simp [childNodes, regionBlocks, hregions, hne]
  parent x hx := by
    rcases x with x | x | x
    · simp only [parentNode, opParentBlock, hops]
      cases ctx.operations x <;> rfl
    · simp [parentNode, blockParentRegion, hblocks]
    · have hne : x ≠ region := fun heq => hx (heq ▸ rfl)
      simp [parentNode, regionParentOp, hregions, hne]
  body x _ := by
    rw [hops]
    cases ctx.operations x <;> rfl

end Cut

/-! ## Unlinking -/

theorem map_erase_ops (hnot : ∀ b, ctx.basicBlocks block = some b → op ∉ b.ops) :
    (ctx.basicBlocks block).map (fun b => { b with ops := b.ops.erase op }) =
      ctx.basicBlocks block := by
  cases hb : ctx.basicBlocks block with
  | none => rfl
  | some b => rw [Option.map_some, List.erase_of_not_mem (hnot b hb)]

theorem map_erase_blocks (hnot : ∀ r, ctx.regions region = some r → block ∉ r.blocks) :
    (ctx.regions region).map (fun r => { r with blocks := r.blocks.erase block }) =
      ctx.regions region := by
  cases hr : ctx.regions region with
  | none => rfl
  | some r => rw [Option.map_some, List.erase_of_not_mem (hnot r hr)]

theorem map_erase_regions (hnot : ∀ o, ctx.operations op = some o → region ∉ o.regions) :
    (ctx.operations op).map (fun o => { o with regions := o.regions.erase region }) =
      ctx.operations op := by
  cases ho : ctx.operations op with
  | none => rfl
  | some o => rw [Option.map_some, List.erase_of_not_mem (hnot o ho)]

/-- An operation that its block lists can be unlinked. -/
theorem unlinkNode_operation (ho : ctx.operations op = some o)
    (hlink : ∀ x, op ∈ ctx.blockOps x ↔ ctx.opParentBlock op = some x) :
    ∃ ctx', ctx.unlinkNode (.operation op) = some ctx' ∧
      (∀ x, x ≠ op → ctx'.operations x = ctx.operations x) ∧
      ctx'.operations op = some { o with parentBlock := none } ∧
      (∀ x, ctx'.basicBlocks x =
        (ctx.basicBlocks x).map (fun b => { b with ops := b.ops.erase op })) ∧
      ctx'.regions = ctx.regions := by
  have hparent : ctx.opParentBlock op = o.parentBlock := by simp [opParentBlock, ho]
  have hnot : ∀ x, ctx.opParentBlock op ≠ some x → ∀ b, ctx.basicBlocks x = some b →
      op ∉ b.ops := by
    intro x hx b hb hmem
    exact hx ((hlink x).mp (by simpa [blockOps, hb] using hmem))
  cases hblock : o.parentBlock with
  | none =>
      rw [hblock] at hparent
      refine ⟨ctx, by simp [unlinkNode, hparent], fun _ _ => rfl, by rw [ho, ← hblock], ?_, rfl⟩
      intro x
      exact (map_erase_ops (hnot x (by rw [hparent]; simp))).symm
  | some block =>
      rw [hblock] at hparent
      have hmem := (hlink block).mpr hparent
      cases hb : ctx.basicBlocks block with
      | none => simp [blockOps, hb] at hmem
      | some b =>
          refine ⟨(ctx.setOp op { o with parentBlock := none }).setBlock block
            { b with ops := b.ops.erase op }, ?_, ?_, ?_, ?_, rfl⟩
          · rw [unlinkNode, hparent, Option.isSome_some, if_pos rfl]
            simp only [unlinkOp, ho, hblock, Option.bind_eq_bind, Option.bind_some]
            rw [show (ctx.setOp op { o with parentBlock := none }).basicBlocks block = some b
              from hb, Option.bind_some]
          · intro x hx
            exact (setOp_operations x).trans (if_neg hx)
          · exact (setOp_operations op).trans (if_pos rfl)
          · intro x
            rw [setBlock_basicBlocks]
            by_cases hx : x = block
            · rw [if_pos hx, hx, hb, Option.map_some]
            · rw [if_neg hx]
              refine (map_erase_ops (hnot x (fun heq => hx ?_))).symm
              exact (Option.some.inj (hparent.symm.trans heq)).symm

/-- A block that its region lists can be unlinked. -/
theorem unlinkNode_basicBlock {b : BasicBlock} (hb : ctx.basicBlocks block = some b)
    (hlink : ∀ x, block ∈ ctx.regionBlocks x ↔ ctx.blockParentRegion block = some x) :
    ∃ ctx', ctx.unlinkNode (.basicBlock block) = some ctx' ∧
      (∀ x, x ≠ block → ctx'.basicBlocks x = ctx.basicBlocks x) ∧
      ctx'.basicBlocks block = some { b with parentRegion := none } ∧
      (∀ x, ctx'.regions x =
        (ctx.regions x).map (fun r => { r with blocks := r.blocks.erase block })) ∧
      ctx'.operations = ctx.operations := by
  have hparent : ctx.blockParentRegion block = b.parentRegion := by simp [blockParentRegion, hb]
  have hnot : ∀ x, ctx.blockParentRegion block ≠ some x → ∀ r, ctx.regions x = some r →
      block ∉ r.blocks := by
    intro x hx r hr hmem
    exact hx ((hlink x).mp (by simpa [regionBlocks, hr] using hmem))
  cases hregion : b.parentRegion with
  | none =>
      rw [hregion] at hparent
      refine ⟨ctx, by simp [unlinkNode, hparent], fun _ _ => rfl, by rw [hb, ← hregion], ?_, rfl⟩
      intro x
      exact (map_erase_blocks (hnot x (by rw [hparent]; simp))).symm
  | some region =>
      rw [hregion] at hparent
      have hmem := (hlink region).mpr hparent
      cases hr : ctx.regions region with
      | none => simp [regionBlocks, hr] at hmem
      | some r =>
          refine ⟨(ctx.setBlock block { b with parentRegion := none }).setRegion region
            { r with blocks := r.blocks.erase block }, ?_, ?_, ?_, ?_, rfl⟩
          · rw [unlinkNode, hparent, Option.isSome_some, if_pos rfl]
            simp only [unlinkBlock, hb, hregion, Option.bind_eq_bind, Option.bind_some]
            rw [show (ctx.setBlock block { b with parentRegion := none }).regions region = some r
              from hr, Option.bind_some]
          · intro x hx
            exact (setBlock_basicBlocks x).trans (if_neg hx)
          · exact (setBlock_basicBlocks block).trans (if_pos rfl)
          · intro x
            by_cases hx : x = region
            · rw [hx, hr, Option.map_some]
              simp [setRegion]
            · rw [map_erase_blocks (hnot x (fun heq => hx ?_))]
              · simp [setRegion, setBlock, hx]
              · exact (Option.some.inj (hparent.symm.trans heq)).symm

/-! ## Erasing -/

theorem dealloc_leaf {fuel : Nat} (halloc : ctx.isAllocated node = true)
    (hleaf : ctx.childNodes node = []) :
    dealloc (fuel + 1) ctx node = some (ctx.removeNode node) := by
  simp [dealloc, halloc, hleaf, guard]

/-- Nothing is reached from a node that contains nothing. -/
theorem contains_leaf {x : IRNode} (hleaf : ctx.childNodes node = []) (hx : ctx.Contains node x) :
    x = node := by
  rcases Relation.ReflTransGen.cases_head hx with heq | ⟨y, hy, _⟩
  · exact heq.symm
  · rw [hleaf] at hy
    exact absurd hy List.not_mem_nil

/-- Erasing an operation without regions. -/
theorem eraseOp_leaf (h : ctx.DefUse) (ho : ctx.operations op = some o) (hleaf : o.regions = [])
    (hlink : ∀ x, op ∈ ctx.blockOps x ↔ ctx.opParentBlock op = some x) :
    ((∃ ctx', ctx.eraseOp op = some ctx') ↔ ctx.Unused (.operation op)) ∧
      ∀ ctx', ctx.eraseOp op = some ctx' → Cut ctx ctx' (.operation op) := by
  have hchild : ctx.childNodes (.operation op) = [] := by simp [childNodes, opRegions, ho, hleaf]
  obtain ⟨ctx₁, hdrop⟩ := dropOwnUses_total h ho
  obtain ⟨h₁, hdropped⟩ := dropOwnUses_spec h hdrop
  have hsame := SameNesting.dropOwnUses hdrop
  have hbody : ∀ x, .operation x ≠ IRNode.operation op →
      (ctx₁.operations x).map Operation.body = (ctx.operations x).map Operation.body :=
    fun x hx => dropOwnUses_body hdrop (fun heq => hx (heq ▸ rfl))
  obtain ⟨o₁, ho₁, hframe⟩ := Option.map_eq_some_iff.mp
    ((hsame.op op).trans (congrArg _ ho))
  have hregions : o₁.regions = [] := by
    rw [← hleaf]
    exact congrArg (fun t => t.2.2.2) hframe
  have hlink₁ : ∀ x, op ∈ ctx₁.blockOps x ↔ ctx₁.opParentBlock op = some x := by
    intro x
    rw [hsame.blockOps_eq, hsame.opParentBlock_eq]
    exact hlink x
  obtain ⟨ctx₂, hunlink, hother, hself, hblocks, hreg⟩ := unlinkNode_operation ho₁ hlink₁
  have hdealloc : dealloc (ctx₂.nodeCount + 1) ctx₂ (.operation op) =
      some (ctx₂.removeNode (.operation op)) :=
    dealloc_leaf (by simp [isAllocated, hself])
      (by simp [childNodes, opRegions, hself, hregions])
  have hdropAll : dropAllUses (ctx.nodeCount + 1) ctx (.operation op) = some ctx₁ := by
    have hchild₁ : ctx₁.childNodes (.operation op) = [] := by rw [hsame.childNodes_eq, hchild]
    simp [dropAllUses, isAllocated, ho, guard, dropNodeUses, hdrop, hchild₁]
  have hrun : ctx.eraseOp op = (guard (!o₁.hasUse) : Option Unit).bind
      (fun _ => some (ctx₂.removeNode (.operation op))) := by
    simp only [eraseOp, hdropAll, ho₁, hunlink, hdealloc, Option.bind_eq_bind, Option.bind_some]
  have hunused : (!o₁.hasUse) = true ↔ ctx.Unused (.operation op) := by
    rw [not_hasUse_iff_unused h₁ ho₁ (hdropped.refs_nil op rfl)]
    unfold Unused
    refine forall₂_congr (fun x hx => ?_)
    rw [refsOf_of_body (hbody x hx)]
  refine ⟨?_, fun ctx' hctx' => ?_⟩
  · rw [← hunused, hrun]
    constructor
    · rintro ⟨ctx', hctx'⟩
      obtain ⟨_, hguard, _⟩ := Option.bind_eq_some_iff.mp hctx'
      rwa [Option.guard_eq_some'] at hguard
    · intro huse
      refine ⟨_, Option.bind_eq_some_iff.mpr ⟨(), ?_, rfl⟩⟩
      rwa [Option.guard_eq_some']
  · have hdefUse : ctx'.DefUse := by
      refine eraseOp_defUse h (fun x r hr hin hopen => ?_) hctx'
      obtain ⟨v, hv, hent⟩ := definer_eq_operation_iff.mp (contains_leaf hchild hin)
      rw [hv] at hopen
      exact absurd hent hopen
    rw [hrun] at hctx'
    obtain ⟨_, _, hctx'⟩ := Option.bind_eq_some_iff.mp hctx'
    obtain rfl := Option.some.inj hctx'
    refine Cut.of_sameNesting hsame hbody (cut_operation hdefUse (fun x => ?_) hblocks hreg)
    show update ctx₂.operations op none x = _
    rw [update_none_apply]
    split
    · rfl
    · next hx => exact hother x hx

/-- Erasing a block without operations. -/
theorem eraseBlock_leaf {b : BasicBlock} (h : ctx.DefUse) (hb : ctx.basicBlocks block = some b)
    (hleaf : b.ops = [])
    (hlink : ∀ x, block ∈ ctx.regionBlocks x ↔ ctx.blockParentRegion block = some x) :
    ((∃ ctx', ctx.eraseBlock block = some ctx') ↔ ctx.Unused (.basicBlock block)) ∧
      ∀ ctx', ctx.eraseBlock block = some ctx' → Cut ctx ctx' (.basicBlock block) := by
  have hchild : ctx.childNodes (.basicBlock block) = [] := by
    simp [childNodes, blockOps, hb, hleaf]
  have hdrop : dropAllUses (ctx.nodeCount + 1) ctx (.basicBlock block) = some ctx := by
    simp [dropAllUses, isAllocated, hb, guard, dropNodeUses, hchild]
  obtain ⟨ctx₂, hunlink, hother, hself, hregions, hops⟩ := unlinkNode_basicBlock hb hlink
  have hdealloc : dealloc (ctx₂.nodeCount + 1) ctx₂ (.basicBlock block) =
      some (ctx₂.removeNode (.basicBlock block)) :=
    dealloc_leaf (by simp [isAllocated, hself])
      (by simp [childNodes, blockOps, hself, hleaf])
  have hrun : ctx.eraseBlock block = (guard b.preds.uses.isEmpty : Option Unit).bind (fun _ =>
      (guard (b.args.all (fun arg => arg.defNode.uses.isEmpty)) : Option Unit).bind
        (fun _ => some (ctx₂.removeNode (.basicBlock block)))) := by
    simp [eraseBlock, hdrop, hb, hunlink, hdealloc, hleaf, guard]
  refine ⟨?_, fun ctx' hctx' => ?_⟩
  · rw [← block_unused_iff h hb, hrun]
    constructor
    · rintro ⟨ctx', hctx'⟩
      obtain ⟨_, hpreds, hctx'⟩ := Option.bind_eq_some_iff.mp hctx'
      obtain ⟨_, hargs, _⟩ := Option.bind_eq_some_iff.mp hctx'
      rw [Option.guard_eq_some', List.isEmpty_iff] at hpreds
      rw [Option.guard_eq_some', List.all_eq_true] at hargs
      exact ⟨hpreds, fun e he => List.isEmpty_iff.mp (hargs e he)⟩
    · rintro ⟨hpreds, hargs⟩
      refine ⟨_, Option.bind_eq_some_iff.mpr ⟨(), ?_, Option.bind_eq_some_iff.mpr ⟨(), ?_, rfl⟩⟩⟩
      · rw [Option.guard_eq_some', List.isEmpty_iff]
        exact hpreds
      · rw [Option.guard_eq_some', List.all_eq_true]
        exact fun e he => List.isEmpty_iff.mpr (hargs e he)
  · have hdefUse : ctx'.DefUse := by
      refine eraseBlock_defUse h (fun x r hr hin hopen => absurd ?_ hopen) hctx'
      rcases definer_eq_basicBlock_iff.mp (contains_leaf hchild hin) with heq | ⟨v, hv, hent⟩
      · rw [heq]
        rfl
      · rcases v with ⟨uid, entity⟩
        rw [hv]
        simp only at hent
        subst hent
        rfl
    rw [hrun] at hctx'
    obtain ⟨_, _, hctx'⟩ := Option.bind_eq_some_iff.mp hctx'
    obtain ⟨_, _, hctx'⟩ := Option.bind_eq_some_iff.mp hctx'
    obtain rfl := Option.some.inj hctx'
    refine cut_basicBlock hdefUse (fun x => ?_) hregions hops
    show update ctx₂.basicBlocks block none x = _
    rw [update_none_apply]
    split
    · rfl
    · next hx => exact hother x hx

/-- Erasing a region without blocks checks nothing. -/
theorem eraseRegion_leaf {r : Region} (h : ctx.DefUse) (hr : ctx.regions region = some r)
    (hleaf : r.blocks = [])
    (hlink : ∀ x, region ∈ ctx.opRegions x ↔ ctx.regionParentOp region = some x) :
    ∃ ctx', ctx.eraseOne (.region region) = some ctx' ∧ Cut ctx ctx' (.region region) := by
  have hchild : ctx.childNodes (.region region) = [] := by
    simp [childNodes, regionBlocks, hr, hleaf]
  have hparent : ctx.regionParentOp region = some r.parentOp := by simp [regionParentOp, hr]
  have hmem := (hlink r.parentOp).mpr hparent
  cases ho : ctx.operations r.parentOp with
  | none => simp [opRegions, ho] at hmem
  | some o =>
      have hmem : region ∈ o.regions := by simpa [opRegions, ho] using hmem
      obtain ⟨i, hi⟩ := Option.isSome_iff_exists.mp (List.isSome_idxOf?.mpr hmem)
      have hget : o.regions[i]? = some region := by
        obtain ⟨hlt, heq, _⟩ := List.idxOf?_eq_some_iff.mp hi
        rw [List.getElem?_eq_getElem hlt, heq]
      have herase : o.regions.eraseIdx i = o.regions.erase region := by
        rw [List.erase_eq_eraseIdx, hi]
      have hdrop : dropAllUses (ctx.nodeCount + 1) ctx (.region region) = some ctx := by
        simp [dropAllUses, isAllocated, hr, guard, dropNodeUses, hchild]
      have hdealloc : dealloc ((ctx.setOp r.parentOp
            { o with regions := o.regions.eraseIdx i }).nodeCount + 1)
          (ctx.setOp r.parentOp { o with regions := o.regions.eraseIdx i }) (.region region) =
          some ((ctx.setOp r.parentOp { o with regions := o.regions.eraseIdx i }).removeNode
            (.region region)) :=
        dealloc_leaf (by simp [isAllocated, setOp, hr])
          (by simp [childNodes, regionBlocks, setOp, hr, hleaf])
      have hrun : ctx.eraseRegion r.parentOp i =
          some ((ctx.setOp r.parentOp { o with regions := o.regions.eraseIdx i }).removeNode
            (.region region)) := by
        simp only [eraseRegion, ho, hget, hdrop, hdealloc, Option.bind_eq_bind, Option.bind_some]
      refine ⟨(ctx.setOp r.parentOp { o with regions := o.regions.eraseIdx i }).removeNode
        (.region region), ?_, cut_region ?_ (fun x => ?_) (fun x => ?_) rfl⟩
      · simp only [eraseOne, hparent, ho, hi, Option.bind_eq_bind, Option.bind_some]
        exact hrun
      · refine eraseRegion_defUse h ho hget (fun x r hr hin _ => ?_) hrun
        exact absurd (contains_leaf hchild hin) (definer_ne_region _)
      · exact update_none_apply x
      · show (ctx.setOp r.parentOp _).operations x = _
        rw [setOp_operations]
        by_cases hx : x = r.parentOp
        · rw [if_pos hx, hx, ho, Option.map_some, herase]
        · rw [if_neg hx]
          refine (map_erase_regions (fun o' ho' hmem' => hx ?_)).symm
          have hin : region ∈ ctx.opRegions x := by simpa [opRegions, ho'] using hmem'
          exact Option.some.inj (((hlink x).mp hin).symm.trans hparent)

/-- Erasing a node that contains nothing: it fails exactly if something refers to it, and takes
    out the node and nothing else. -/
theorem eraseOne_leaf (h : ctx.DefUse) (halloc : ctx.isAllocated node = true)
    (hleaf : ctx.childNodes node = [])
    (hlink : ∀ x, node ∈ ctx.childNodes x ↔ ctx.parentNode node = some x) :
    ((∃ ctx', ctx.eraseOne node = some ctx') ↔ ctx.Unused node) ∧
      ∀ ctx', ctx.eraseOne node = some ctx' → Cut ctx ctx' node := by
  rcases node with op | block | region
  · obtain ⟨o, ho⟩ := Option.isSome_iff_exists.mp halloc
    refine eraseOp_leaf h ho ?_ (fun x => ?_)
    · simpa [childNodes, opRegions, ho] using hleaf
    · simpa [childNodes, parentNode] using hlink (.basicBlock x)
  · obtain ⟨b, hb⟩ := Option.isSome_iff_exists.mp halloc
    refine eraseBlock_leaf h hb ?_ (fun x => ?_)
    · simpa [childNodes, blockOps, hb] using hleaf
    · simpa [childNodes, parentNode] using hlink (.region x)
  · obtain ⟨r, hr⟩ := Option.isSome_iff_exists.mp halloc
    obtain ⟨ctx₁, hrun, hcut⟩ := eraseRegion_leaf h hr
      (by simpa [childNodes, regionBlocks, hr] using hleaf)
      (fun x => by simpa [childNodes, parentNode] using hlink (.operation x))
    refine ⟨iff_of_true ⟨ctx₁, hrun⟩ (fun x _ r _ => definer_ne_region r.2), ?_⟩
    intro ctx' hctx'
    obtain rfl := Option.some.inj (hrun.symm.trans hctx')
    exact hcut

end Context

end Pliron
