/-
  Pliron.IRBuild.EraseRun

  The procedures of the rewriter run along the order of erasure.

  `Remains` relates the context in the middle of the run to the one before it: what
  was erased is gone, and what is left has kept its place, its contents and its
  references.  A single erasure then succeeds exactly if no operation that is
  left, other than the erased one, refers to what the node defines.
-/

import Pliron.IRBuild.EraseOrder

namespace Pliron

open Pliron.Lib Traversals

namespace Context

variable {ctx ctx' ctx'' : Context} {node x y : IRNode} {gone done : List IRNode} {fuel : Nat}

/-- What is left of a context when the nodes of `gone` were erased. -/
structure Remains (ctx ctx' : Context) (gone : List IRNode) : Prop where
  defUse : ctx'.DefUse
  closed : ∀ x ∈ gone, ∀ c ∈ ctx.childNodes x, c ∈ gone
  allocated : ∀ x, ctx'.isAllocated x = true ↔ ctx.isAllocated x = true ∧ x ∉ gone
  children : ∀ x, x ∉ gone → ctx'.childNodes x = (ctx.childNodes x).filter (fun c => c ∉ gone)
  parent : ∀ x, x ∉ gone → ctx'.parentNode x = ctx.parentNode x
  body : ∀ op, .operation op ∉ gone →
    (ctx'.operations op).map Operation.body = (ctx.operations op).map Operation.body

/-- No operation that is left, other than the node, refers to what the node defines. -/
def Unreferred (ctx : Context) (gone : List IRNode) (node : IRNode) : Prop :=
  ∀ op, .operation op ≠ node → .operation op ∉ gone → ∀ r ∈ ctx.refsOf op, r.2.definer ≠ node

theorem childNodes_eq_nil (hx : ctx.isAllocated x ≠ true) : ctx.childNodes x = [] := by
  refine List.eq_nil_iff_forall_not_mem.mpr (fun c hc => hx ?_)
  exact isAllocated_of_child hc

namespace Remains

theorem refl (h : ctx.DefUse) : Remains ctx ctx [] where
  defUse := h
  closed := by simp
  allocated := by simp
  children := by simp
  parent _ _ := rfl
  body _ _ := rfl

theorem refs_of_gone (h : Remains ctx ctx' gone) {op : OpPtr} (hop : .operation op ∈ gone) :
    ctx'.refsOf op = [] := by
  have hnot : ctx'.isAllocated (.operation op) ≠ true := fun halloc =>
    ((h.allocated _).mp halloc).2 hop
  cases ho : ctx'.operations op with
  | none => simp [refsOf, ho]
  | some o => simp [isAllocated, ho] at hnot

theorem unused_iff (h : Remains ctx ctx' gone) :
    ctx'.Unused node ↔ ctx.Unreferred gone node := by
  constructor
  · intro hunused op hne hop r hr
    refine hunused op hne r ?_
    rwa [refsOf_of_body (h.body op hop)]
  · intro hunref op hne r hr
    by_cases hop : .operation op ∈ gone
    · rw [h.refs_of_gone hop] at hr
      exact absurd hr List.not_mem_nil
    · rw [refsOf_of_body (h.body op hop)] at hr
      exact hunref op hne hop r hr

/-- The container of a node that is left lists it. -/
theorem mem_children (hn : ctx.WellNested) (h : Remains ctx ctx' gone) (hnode : node ∉ gone)
    (x : IRNode) : node ∈ ctx'.childNodes x ↔ ctx'.parentNode node = some x := by
  rw [h.parent node hnode]
  by_cases hx : x ∈ gone
  · have hnil : ctx'.childNodes x = [] :=
      childNodes_eq_nil (fun halloc => ((h.allocated x).mp halloc).2 hx)
    rw [hnil]
    refine iff_of_false List.not_mem_nil (fun hp => hnode ?_)
    exact h.closed x hx node ((hn.mem_childNodes x node).mpr hp)
  · rw [h.children x hx, List.mem_filter, hn.mem_childNodes]
    simp [hnode]

/-- One more node is taken out. -/
theorem cut (hn : ctx.WellNested) (h : Remains ctx ctx' gone) (hready : ctx.Erasable gone node)
    (hcut : Cut ctx' ctx'' node) : Remains ctx ctx'' (gone ++ [node]) where
  defUse := hcut.defUse
  closed x hx c hc := by
    rcases List.mem_append.mp hx with hx | hx
    · exact List.mem_append_left _ (h.closed x hx c hc)
    · rw [List.mem_singleton.mp hx] at hc
      exact List.mem_append_left _ (hready.children c hc)
  allocated x := by
    rw [hcut.allocated, h.allocated, List.mem_append, List.mem_singleton, not_or, and_assoc]
  children x hx := by
    rw [List.mem_append, List.mem_singleton, not_or] at hx
    have hnodup : ((ctx.childNodes x).filter (fun c => c ∉ gone)).Nodup :=
      (hn.childNodes_nodup x).filter _
    rw [hcut.children x hx.2, h.children x hx.1, hnodup.erase_eq_filter, List.filter_filter]
    refine List.filter_congr (fun c _ => ?_)
    by_cases hc : c = node <;> simp [hc]
  parent x hx := by
    rw [List.mem_append, List.mem_singleton, not_or] at hx
    rw [hcut.parent x hx.2, h.parent x hx.1]
  body op hop := by
    rw [List.mem_append, List.mem_singleton, not_or] at hop
    rw [hcut.body op hop.2, h.body op hop.1]

end Remains

/-- A node of which nothing is gone yet. -/
theorem Remains.untouched (hn : ctx.WellNested) (h : Remains ctx ctx' gone)
    (hnode : ctx.isAllocated node = true) (hfresh : ∀ y, ctx.Inside node y → y ∉ gone) :
    ctx'.isAllocated node = true ∧ ctx'.childNodes node = ctx.childNodes node := by
  have hself := hfresh node (Above.refl node)
  refine ⟨(h.allocated node).mpr ⟨hnode, hself⟩, ?_⟩
  rw [h.children node hself]
  refine List.filter_eq_self.mpr (fun c hc => ?_)
  simpa using hfresh c (hn.inside_of_child hc (Above.refl c))

end Context

namespace IRRewriter

open Context

variable {ctx : Context} {st st₀ st' : IRRewriter} {node : IRNode} {done : List IRNode}
  {fuel : Nat}

/-- Tell the listener about one node and erase it. -/
def eraseStep (st : IRRewriter) (node : IRNode) : Option IRRewriter :=
  let st := st.notifyErasure node
  (st.ctx.eraseOne node).map st.markModified

/-- In the middle of a run: the listener has heard of what was erased, of each node when that was
    still there. -/
structure Erased (st₀ : IRRewriter) (done : List IRNode) (st : IRRewriter) : Prop where
  remains : Remains st₀.ctx st.ctx done
  erasures : ∃ log, st.erasures = st₀.erasures ++ log ∧ log.map Prod.snd = done ∧
    ∀ e ∈ log, e.1.isAllocated e.2 = true

theorem Erased.refl (h : st₀.ctx.DefUse) : Erased st₀ [] st₀ :=
  ⟨Remains.refl h, [], by simp⟩

/-- One node after the other is erased, if nothing is in it, and nothing that is left refers to
    it. -/
theorem eraseStep_steps (hn : st₀.ctx.WellNested) :
    Steps eraseStep (Erased st₀) st₀.ctx.Erasable st₀.ctx.Unreferred := by
  have hleaf : ∀ {done st node}, Erased st₀ done st → st₀.ctx.Erasable done node →
      ((∃ ctx', st.ctx.eraseOne node = some ctx') ↔ st.ctx.Unused node) ∧
        ∀ ctx', st.ctx.eraseOne node = some ctx' → Cut st.ctx ctx' node := by
    intro done st node h hready
    refine eraseOne_leaf h.remains.defUse ?_ ?_ (h.remains.mem_children hn hready.not_done)
    · exact (h.remains.allocated node).mpr ⟨hready.allocated, hready.not_done⟩
    · rw [h.remains.children node hready.not_done]
      refine List.filter_eq_nil_iff.mpr (fun c hc => ?_)
      simpa using hready.children c hc
  refine ⟨fun {done st node} h hready => ?_, fun {done st node st'} h hready hstep => ?_⟩
  · rw [← h.remains.unused_iff, ← (hleaf h hready).1]
    constructor
    · rintro ⟨st', hst'⟩
      obtain ⟨ctx', hctx', _⟩ := Option.map_eq_some_iff.mp hst'
      exact ⟨ctx', hctx'⟩
    · rintro ⟨ctx', hctx'⟩
      exact ⟨_, Option.map_eq_some_iff.mpr ⟨ctx', hctx', rfl⟩⟩
  · obtain ⟨ctx', hctx', rfl⟩ := Option.map_eq_some_iff.mp hstep
    refine ⟨h.remains.cut hn hready ((hleaf h hready).2 ctx' hctx'), ?_⟩
    obtain ⟨log, hlog, hnodes, halloc⟩ := h.erasures
    refine ⟨log ++ [(st.ctx, node)], ?_, by simp [hnodes], fun e he => ?_⟩
    · show st.erasures ++ [(st.ctx, node)] = _
      rw [hlog, List.append_assoc]
    · rcases List.mem_append.mp he with he | he
      · exact halloc e he
      · rw [List.mem_singleton.mp he]
        exact (h.remains.allocated node).mpr ⟨hready.allocated, hready.not_done⟩

/-! ## The procedures -/

/-- A procedure that still has all of its schedule to do has not touched its node. -/
theorem fresh_of_along (h : ctx.WellFormed) (hfits : ctx.Fits fuel node)
    (hready : Along ctx.Erasable done (ctx.eraseOrder fuel node)) :
    ∀ y, ctx.Inside node y → y ∉ done := by
  intro y hy hdone
  obtain ⟨front, _, _, hpos⟩ := hready.of_mem ((mem_eraseOrder h hfits).mpr hy)
  exact hpos.not_done (List.mem_append_left _ hdone)

theorem ops_eq_of_childNodes {ctx' : Context} {block : BlockPtr}
    (h : ctx'.childNodes (.basicBlock block) = ctx.childNodes (.basicBlock block)) :
    ctx'.blockOps block = ctx.blockOps block :=
  List.map_injective_iff.mpr (fun _ _ hab => IRNode.operation.inj hab) h

theorem regions_eq_of_childNodes {ctx' : Context} {op : OpPtr}
    (h : ctx'.childNodes (.operation op) = ctx.childNodes (.operation op)) :
    ctx'.opRegions op = ctx.opRegions op :=
  List.map_injective_iff.mpr (fun _ _ hab => IRNode.region.inj hab) h

theorem blocks_eq_of_childNodes {ctx' : Context} {region : RegionPtr}
    (h : ctx'.childNodes (.region region) = ctx.childNodes (.region region)) :
    ctx'.regionBlocks region = ctx.regionBlocks region :=
  List.map_injective_iff.mpr (fun _ _ hab => IRNode.basicBlock.inj hab) h

/-- A block that nothing was erased from has its successors. -/
theorem blockSuccs_eq {ctx' : Context} {gone : List IRNode} (hn : ctx.WellNested)
    (h : Remains ctx ctx' gone) {block : BlockPtr}
    (hblock : ctx.isAllocated (.basicBlock block) = true)
    (hfresh : ∀ y, ctx.Inside (.basicBlock block) y → y ∉ gone) :
    ctx'.blockSuccs block = ctx.blockSuccs block := by
  have hops := ops_eq_of_childNodes (h.untouched hn hblock hfresh).2
  have hbody : ∀ op ∈ ctx.blockOps block,
      (ctx'.operations op).map Operation.body = (ctx.operations op).map Operation.body := by
    intro op hop
    refine h.body op (hfresh _ (hn.inside_of_child ?_ (Above.refl _)))
    exact List.mem_map_of_mem hop
  -- the terminator of a block, and its successors, in terms of bodies
  have hsuccs : ∀ c : Context, c.blockSuccs block =
      (((c.blockOps block).getLast?.bind (fun op => (c.operations op).map Operation.body)).map
        (fun b => if b.1.isTerminator then b.2.2.map Operand.defn else [])).getD [] := by
    intro c
    rw [blockSuccs, terminator]
    cases hlast : (c.blockOps block).getLast? with
    | none => rfl
    | some op =>
        cases ho : c.operations op with
        | none => simp [ho]
        | some o =>
            by_cases hterm : o.concreteOp.isTerminator = true
            · simp [ho, hterm, Operation.body, Operation.successorDefs]
            · simp [ho, hterm, Operation.body]
  rw [hsuccs, hsuccs, hops]
  cases hlast : (ctx.blockOps block).getLast? with
  | none => rfl
  | some op =>
      rw [Option.bind_some, Option.bind_some, hbody op (List.mem_of_getLast? hlast)]

/-- The blocks of a region that nothing was erased from come in the same order. -/
theorem postOrder_eq_of_fresh {ctx' : Context} {gone : List IRNode} (h : ctx.WellFormed)
    (hrem : Remains ctx ctx' gone) {region : RegionPtr}
    (hregion : ctx.isAllocated (.region region) = true)
    (hfresh : ∀ y, ctx.Inside (.region region) y → y ∉ gone) :
    postOrder (ctx'.regionGraph region) = postOrder (ctx.regionGraph region) := by
  have hn := h.nested
  refine postOrder_congr (h.graph region).closed ?_ (fun block hblock => ?_)
  · exact blocks_eq_of_childNodes (hrem.untouched hn hregion hfresh).2
  · have hchild : IRNode.basicBlock block ∈ ctx.childNodes (.region region) :=
      List.mem_map_of_mem hblock
    refine blockSuccs_eq hn hrem ?_ (fun y hy => hfresh y (hn.inside_of_child hchild hy))
    exact isAllocated_of_parent ((hn.mem_childNodes _ _).mp hchild)

section Procedures

variable (h : st₀.ctx.WellFormed)

include h

/-- The operations of a block, erased one after the other. -/
theorem ops_eq_run {block : BlockPtr}
    (ih : ∀ op ∈ st₀.ctx.blockOps block, ∀ done st,
      Along st₀.ctx.Erasable done (st₀.ctx.eraseOrder fuel (.operation op)) →
      Erased st₀ done st → eraseOperation fuel st op =
        (st₀.ctx.eraseOrder fuel (.operation op)).foldlM eraseStep st)
    (hready : Along st₀.ctx.Erasable done ((st₀.ctx.blockOps block).reverse.flatMap
      (fun op => st₀.ctx.eraseOrder fuel (.operation op))))
    (hst : Erased st₀ done st) :
    (st₀.ctx.blockOps block).reverse.foldlM (eraseOperation fuel) st =
      ((st₀.ctx.blockOps block).reverse.flatMap
        (fun op => st₀.ctx.eraseOrder fuel (.operation op))).foldlM eraseStep st := by
  refine (eraseStep_steps h.nested).foldlM_flatMap hst hready
    (fun front op back hsplit st' hst' => ?_)
  have hop : op ∈ st₀.ctx.blockOps block := by
    rw [← List.mem_reverse, hsplit]
    simp
  exact ih op hop _ st' (Along.flatMap_iff.mp hready front op back hsplit) hst'

omit h in
theorem foldlM_step (st : IRRewriter) (node : IRNode) :
    [node].foldlM eraseStep st = eraseStep st node := by
  rw [List.foldlM_cons]
  exact bind_pure _

omit h in
/-- A block without operations. -/
theorem eraseBlock_eq_step {block : BlockPtr} (hready : st₀.ctx.Erasable done (.basicBlock block))
    (hst : Erased st₀ done st) :
    eraseBlock (fuel + 1) st block = eraseStep st (.basicBlock block) := by
  have halloc := (hst.remains.allocated (.basicBlock block)).mpr
    ⟨hready.allocated, hready.not_done⟩
  obtain ⟨b, hb⟩ := Option.isSome_iff_exists.mp halloc
  have hchild := hst.remains.children (.basicBlock block) hready.not_done
  rw [List.filter_eq_nil_iff.mpr (fun c hc => by simpa using hready.children c hc)] at hchild
  have hops : b.ops = [] := by simpa [childNodes, blockOps, hb] using hchild
  rw [eraseBlock]
  simp only [hb, hops, Option.bind_eq_bind, Option.bind_some, List.reverse_nil, List.foldlM_nil,
    Option.pure_def]
  exact (Option.map_eq_bind ..).symm

/-- The operations of the blocks of a region, block after block. -/
theorem regionOps_eq_run {region : RegionPtr} (hfits : st₀.ctx.Fits (fuel + 1) (.region region))
    (ih : ∀ block ∈ st₀.ctx.regionBlocks region, ∀ op ∈ st₀.ctx.blockOps block, ∀ done st,
      Along st₀.ctx.Erasable done (st₀.ctx.eraseOrder fuel (.operation op)) →
      Erased st₀ done st → eraseOperation fuel st op =
        (st₀.ctx.eraseOrder fuel (.operation op)).foldlM eraseStep st)
    (hfresh : ∀ y, st₀.ctx.Inside (.region region) y → y ∉ done)
    (hready : Along st₀.ctx.Erasable done (st₀.ctx.regionOpsOrder fuel region))
    (hst : Erased st₀ done st) :
    (postOrder (st₀.ctx.regionGraph region)).reverse.foldlM (fun st block =>
        (st.ctx.basicBlocks block).bind
          (fun b => b.ops.reverse.foldlM (eraseOperation fuel) st)) st =
      (st₀.ctx.regionOpsOrder fuel region).foldlM eraseStep st := by
  have hn := h.nested
  have hmem : ∀ block ∈ (postOrder (st₀.ctx.regionGraph region)).reverse,
      block ∈ st₀.ctx.regionBlocks region := by
    intro block hblock
    rwa [List.mem_reverse, mem_postOrder_region h] at hblock
  have hchild : ∀ block ∈ (postOrder (st₀.ctx.regionGraph region)).reverse,
      IRNode.basicBlock block ∈ st₀.ctx.childNodes (.region region) :=
    fun block hblock => List.mem_map_of_mem (hmem block hblock)
  refine (eraseStep_steps hn).foldlM_flatMap hst hready
    (fun front block back hsplit st' hst' => ?_)
  have hblock : block ∈ (postOrder (st₀.ctx.regionGraph region)).reverse := by simp [hsplit]
  have hfresh' := fresh_at hn (nodup_blocks h region) hchild
    (fun c hc y hy => ((mem_opsOrder h (fits_ops h hfits (hmem c hc))).mp hy).1) hfresh hsplit
  obtain ⟨halloc', hchild'⟩ := hst'.remains.untouched hn
    (isAllocated_of_parent ((hn.mem_childNodes _ _).mp (hchild block hblock))) hfresh'
  obtain ⟨b, hb⟩ := Option.isSome_iff_exists.mp halloc'
  have hops : b.ops = st₀.ctx.blockOps block := by
    rw [← ops_eq_of_childNodes hchild']
    simp [blockOps, hb]
  rw [hb, Option.bind_some, hops]
  exact ops_eq_run h (ih block (hmem block hblock))
    (Along.flatMap_iff.mp hready front block back hsplit) hst'

/-- The blocks of a region, when the operations in them are gone. -/
theorem blocks_eq_run {region : RegionPtr} (hfits : st₀.ctx.Fits (fuel + 1) (.region region))
    (hready : Along st₀.ctx.Erasable done
      ((postOrder (st₀.ctx.regionGraph region)).map IRNode.basicBlock))
    (hst : Erased st₀ done st) :
    (postOrder (st₀.ctx.regionGraph region)).foldlM (eraseBlock fuel) st =
      ((postOrder (st₀.ctx.regionGraph region)).map IRNode.basicBlock).foldlM eraseStep st := by
  rw [List.map_eq_flatMap] at hready ⊢
  refine (eraseStep_steps h.nested).foldlM_flatMap hst hready
    (fun front block back hsplit st' hst' => ?_)
  have hblock : block ∈ st₀.ctx.regionBlocks region :=
    (mem_postOrder_region h).mp (by simp [hsplit])
  have hchild : IRNode.basicBlock block ∈ st₀.ctx.childNodes (.region region) :=
    List.mem_map_of_mem hblock
  -- a region that has a block is nested deeper than one level
  obtain ⟨fuel, rfl⟩ := Nat.exists_eq_succ_of_ne_zero
    (Nat.ne_of_gt (hfits.child h.nested hchild).pos)
  have hpos := Along.singleton_iff.mp (Along.flatMap_iff.mp hready front block back hsplit)
  rw [foldlM_step, eraseBlock_eq_step hpos hst']

/-- The procedures erase along the order of erasure. -/
theorem eraseNode_eq_run (hfits : st₀.ctx.Fits fuel node)
    (halloc : st₀.ctx.isAllocated node = true)
    (hready : Along st₀.ctx.Erasable done (st₀.ctx.eraseOrder fuel node))
    (hst : Erased st₀ done st) :
    eraseNode fuel st node = (st₀.ctx.eraseOrder fuel node).foldlM eraseStep st := by
  have hn := h.nested
  induction fuel generalizing node done st with
  | zero => exact absurd hfits.pos (Nat.lt_irrefl 0)
  | succ fuel ih =>
      have hfresh := fresh_of_along h hfits hready
      -- nothing inside the node is gone, so it still has the children it had
      obtain ⟨halloc', hchild⟩ := hst.remains.untouched hn halloc hfresh
      rcases node with op | block | region
      · -- an operation reads its regions once, before it erases them
        obtain ⟨o, ho⟩ := Option.isSome_iff_exists.mp halloc'
        have hregions : o.regions = st₀.ctx.opRegions op := by
          rw [← regions_eq_of_childNodes hchild]
          simp [opRegions, ho]
        rw [eraseOrder, Along.append_iff] at hready
        have hrun : (st₀.ctx.opRegions op).reverse.foldlM (eraseRegion fuel) st =
            ((st₀.ctx.opRegions op).reverse.flatMap
              (fun region => st₀.ctx.eraseOrder fuel (.region region))).foldlM eraseStep st := by
          refine (eraseStep_steps hn).foldlM_flatMap hst hready.1
            (fun front region back hsplit st' hst' => ?_)
          have hc : IRNode.region region ∈ st₀.ctx.childNodes (.operation op) := by
            refine List.mem_map_of_mem ?_
            rw [← List.mem_reverse, hsplit]
            simp
          exact ih (hfits.child hn hc) (isAllocated_of_parent ((hn.mem_childNodes _ _).mp hc))
            (Along.flatMap_iff.mp hready.1 front region back hsplit) hst'
        rw [eraseOrder, List.foldlM_append, ← hrun]
        show eraseOperation (fuel + 1) st op = _
        rw [eraseOperation]
        simp only [ho, hregions, Option.bind_eq_bind, Option.bind_some]
        refine congrArg _ (funext fun st' => ?_)
        rw [foldlM_step]
        exact (Option.map_eq_bind ..).symm
      · -- a block reads its operations once
        have hops : ∀ op ∈ st₀.ctx.blockOps block, ∀ done st,
            Along st₀.ctx.Erasable done (st₀.ctx.eraseOrder fuel (.operation op)) →
            Erased st₀ done st → eraseOperation fuel st op =
              (st₀.ctx.eraseOrder fuel (.operation op)).foldlM eraseStep st := by
          intro op hop done st hready hst
          have hc : IRNode.operation op ∈ st₀.ctx.childNodes (.basicBlock block) :=
            List.mem_map_of_mem hop
          exact ih (hfits.child hn hc) (isAllocated_of_parent ((hn.mem_childNodes _ _).mp hc))
            hready hst
        obtain ⟨b, hb⟩ := Option.isSome_iff_exists.mp halloc'
        have hblock : b.ops = st₀.ctx.blockOps block := by
          rw [← ops_eq_of_childNodes hchild]
          simp [blockOps, hb]
        rw [eraseOrder, Along.append_iff] at hready
        rw [eraseOrder, List.foldlM_append, ← ops_eq_run h hops hready.1 hst]
        show eraseBlock (fuel + 1) st block = _
        rw [eraseBlock]
        simp only [hb, hblock, Option.bind_eq_bind, Option.bind_some]
        refine congrArg _ (funext fun st' => ?_)
        rw [foldlM_step]
        exact (Option.map_eq_bind ..).symm
      · have hops : ∀ block ∈ st₀.ctx.regionBlocks region, ∀ op ∈ st₀.ctx.blockOps block,
            ∀ done st, Along st₀.ctx.Erasable done (st₀.ctx.eraseOrder fuel (.operation op)) →
            Erased st₀ done st → eraseOperation fuel st op =
              (st₀.ctx.eraseOrder fuel (.operation op)).foldlM eraseStep st := by
          intro block hblock op hop done st hready hst
          have hc : IRNode.operation op ∈ st₀.ctx.childNodes (.basicBlock block) :=
            List.mem_map_of_mem hop
          exact ih (fits_ops h hfits hblock op hop)
            (isAllocated_of_parent ((hn.mem_childNodes _ _).mp hc)) hready hst
        obtain ⟨r, hr⟩ := Option.isSome_iff_exists.mp halloc'
        -- the region is as it was, and so is the post-order it is erased in
        have horder := postOrder_eq_of_fresh h hst.remains halloc hfresh
        have hready' : Along st₀.ctx.Erasable done (st₀.ctx.regionOpsOrder fuel region ++
          (postOrder (st₀.ctx.regionGraph region)).map IRNode.basicBlock ++
            [.region region]) := hready
        rw [Along.append_iff, Along.append_iff] at hready'
        show eraseRegion (fuel + 1) st region = (st₀.ctx.regionOpsOrder fuel region ++
          (postOrder (st₀.ctx.regionGraph region)).map IRNode.basicBlock ++
            [IRNode.region region]).foldlM eraseStep st
        rw [List.foldlM_append, List.foldlM_append, eraseRegion]
        simp only [hr, horder, Option.bind_eq_bind, Option.bind_some, Option.bind_assoc]
        rw [regionOps_eq_run h hfits hops hfresh hready'.1.1 hst]
        refine Option.bind_congr (fun st₁ hst₁ => ?_)
        have hst₁' := (eraseStep_steps hn).run_keeps hst hready'.1.1 hst₁
        rw [blocks_eq_run h hfits hready'.1.2 hst₁']
        refine congrArg _ (funext fun st₂ => ?_)
        rw [foldlM_step]
        simp only [eraseStep, eraseOne, Option.bind_eq_bind, Option.map_eq_bind,
          Option.bind_assoc]
        rfl

end Procedures

end IRRewriter

end Pliron
