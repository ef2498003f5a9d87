/-
  Pliron.IRBuild.EraseOrder

  The rewriter erases node by node.

  `eraseOrder` lists what the procedures of the rewriter erase, in that order.  In
  it everything that a node contains comes before the node, so that each single
  erasure is one of a node that contains nothing (`eraseOne_leaf`), and the
  procedures come down to a run along the list.  What the list means only depends
  on the context before, of which `Remains` says what is left at each point.
-/

import Pliron.IRBuild.Rewriter
import Pliron.IR.EraseLeaf
import Pliron.IR.Verify
import Pliron.Lib.Schedule

namespace Pliron

open Pliron.Lib Traversals

namespace Context

variable {ctx ctx' : Context} {node x y z : IRNode} {gone done : List IRNode} {fuel : Nat}

/-! ## The nodes inside a node -/

namespace WellNested

variable (h : ctx.WellNested)

include h

theorem childNodes_nodup (x : IRNode) : (ctx.childNodes x).Nodup := by
  rcases x with op | block | region
  · exact (h.regions_nodup op).map (fun a b hab => IRNode.region.inj hab)
  · exact (h.ops_nodup block).map (fun a b hab => IRNode.operation.inj hab)
  · exact (h.blocks_nodup region).map (fun a b hab => IRNode.basicBlock.inj hab)

/-- What is inside a node is the node, or inside something that the node contains. -/
theorem inside_iff : ctx.Inside x y ↔ y = x ∨ ∃ c ∈ ctx.childNodes x, ctx.Inside c y := by
  constructor
  · intro hin
    rcases Relation.ReflTransGen.cases_tail hin with heq | ⟨c, hyc, hc⟩
    · exact Or.inl heq.symm
    · exact Or.inr ⟨c, (h.mem_childNodes x c).mpr hc, hyc⟩
  · rintro (rfl | ⟨c, hc, hin⟩)
    · exact Above.refl y
    · exact Relation.ReflTransGen.tail hin ((h.mem_childNodes x c).mp hc)

/-- Nodes in the same container have nothing in common. -/
theorem eq_of_inside_siblings {c₁ c₂ : IRNode} (h₁ : c₁ ∈ ctx.childNodes x)
    (h₂ : c₂ ∈ ctx.childNodes x) (hy₁ : ctx.Inside c₁ y) (hy₂ : ctx.Inside c₂ y) : c₁ = c₂ := by
  have hp₁ := (h.mem_childNodes x c₁).mp h₁
  have hp₂ := (h.mem_childNodes x c₂).mp h₂
  obtain ⟨depth, hdepth⟩ := h.isForest_node.acyclic
  -- a node that lies above its sibling lies above its own parent
  have haux : ∀ {a b}, ctx.parentNode a = some x → ctx.parentNode b = some x →
      Above ctx.parentNode a b → a = b := by
    intro a b ha hb hab
    rcases hab.cases_head with heq | ⟨p, hp, hpb⟩
    · exact heq
    · obtain rfl := Option.some.inj (ha.symm.trans hp)
      have hle := hpb.depth_le hdepth
      have hlt := hdepth b x hb
      omega
  have huniq : Relator.RightUnique (fun a b => ctx.parentNode a = some b) :=
    fun a b c hb hc => Option.some.inj (hb.symm.trans hc)
  rcases Relation.ReflTransGen.total_of_right_unique huniq hy₁ hy₂ with h12 | h21
  · exact haux hp₁ hp₂ h12
  · exact (haux hp₂ hp₁ h21).symm

theorem not_inside_child {c : IRNode} (hc : c ∈ ctx.childNodes x) : ¬ ctx.Inside c x := by
  intro hin
  obtain ⟨depth, hdepth⟩ := h.isForest_node.acyclic
  have hlt := hdepth c x ((h.mem_childNodes x c).mp hc)
  have hle := Above.depth_le hdepth hin
  omega

theorem inside_of_child {c : IRNode} (hc : c ∈ ctx.childNodes x) (hin : ctx.Inside c y) :
    ctx.Inside x y :=
  h.inside_iff.mpr (Or.inr ⟨c, hc, hin⟩)

end WellNested

theorem isAllocated_of_child (hc : y ∈ ctx.childNodes x) : ctx.isAllocated x = true := by
  rcases x with op | block | region
  · cases ho : ctx.operations op with
    | none => simp [childNodes, opRegions, ho] at hc
    | some o => simp [isAllocated, ho]
  · cases hb : ctx.basicBlocks block with
    | none => simp [childNodes, blockOps, hb] at hc
    | some b => simp [isAllocated, hb]
  · cases hr : ctx.regions region with
    | none => simp [childNodes, regionBlocks, hr] at hc
    | some r => simp [isAllocated, hr]

theorem isAllocated_of_parent (hx : ctx.parentNode x = some y) : ctx.isAllocated x = true := by
  rcases x with op | block | region
  · obtain ⟨block, hblock, _⟩ := Option.map_eq_some_iff.mp hx
    exact Option.isSome_iff_ne_none.mpr (operations_ne_none hblock)
  · obtain ⟨region, hregion, _⟩ := Option.map_eq_some_iff.mp hx
    exact Option.isSome_iff_ne_none.mpr (basicBlocks_ne_none hregion)
  · obtain ⟨op, hop, _⟩ := Option.map_eq_some_iff.mp hx
    exact Option.isSome_iff_ne_none.mpr (regions_ne_none hop)

/-! ## The order of erasure -/

/-- What the rewriter erases when it erases a node, in that order. -/
def eraseOrder (ctx : Context) : Nat → IRNode → List IRNode
  | 0, _ => []
  | fuel + 1, .operation op =>
      (ctx.opRegions op).reverse.flatMap (fun region => ctx.eraseOrder fuel (.region region)) ++
        [.operation op]
  | fuel + 1, .basicBlock block =>
      (ctx.blockOps block).reverse.flatMap (fun op => ctx.eraseOrder fuel (.operation op)) ++
        [.basicBlock block]
  | fuel + 1, .region region =>
      (postOrder (ctx.regionGraph region)).reverse.flatMap (fun block =>
        (ctx.blockOps block).reverse.flatMap (fun op => ctx.eraseOrder fuel (.operation op))) ++
      (postOrder (ctx.regionGraph region)).map IRNode.basicBlock ++ [.region region]

/-- The nesting below a node is less deep than `fuel`. -/
def Fits (ctx : Context) (fuel : Nat) (node : IRNode) : Prop :=
  ∀ k x, stepsUp ctx.parentNode k x = some node → k < fuel

theorem Fits.of_nodeCount (h : ctx.WellNested) (hfuel : ctx.nodeCount < fuel) (node : IRNode) :
    ctx.Fits fuel node :=
  fun _ _ hk => Nat.lt_of_le_of_lt (h.isForest_node.steps_le hk) hfuel

theorem Fits.pos (h : ctx.Fits fuel node) : 0 < fuel := h 0 node rfl

theorem Fits.child (hn : ctx.WellNested) (h : ctx.Fits (fuel + 1) node)
    (hc : x ∈ ctx.childNodes node) : ctx.Fits fuel x := by
  intro k z hk
  refine Nat.lt_of_succ_lt_succ (h (k + 1) z ?_)
  rw [stepsUp_succ, hk, Option.bind_some]
  exact (hn.mem_childNodes node x).mp hc

theorem Fits.mono {fuel' : Nat} (h : ctx.Fits fuel node) (hle : fuel ≤ fuel') :
    ctx.Fits fuel' node :=
  fun k z hk => Nat.lt_of_lt_of_le (h k z hk) hle

section Order

variable (h : ctx.WellFormed)

include h

theorem mem_postOrder_region {region : RegionPtr} {block : BlockPtr} :
    block ∈ postOrder (ctx.regionGraph region) ↔ block ∈ ctx.regionBlocks region :=
  mem_postOrder (h.graph region).closed

/-- The list holds what is inside the node. -/
theorem mem_eraseOrder (hfits : ctx.Fits fuel node) :
    x ∈ ctx.eraseOrder fuel node ↔ ctx.Inside node x := by
  induction fuel generalizing node x with
  | zero => exact absurd hfits.pos (Nat.lt_irrefl 0)
  | succ fuel ih =>
      have hn := h.nested
      rw [hn.inside_iff]
      rcases node with op | block | region
      · have hall : x ∈ (ctx.opRegions op).reverse.flatMap
            (fun region => ctx.eraseOrder fuel (.region region)) ↔
            ∃ c ∈ ctx.childNodes (.operation op), ctx.Inside c x := by
          simp only [List.mem_flatMap, List.mem_reverse, childNodes, List.mem_map,
            exists_exists_and_eq_and]
          refine exists_congr (fun region => and_congr_right (fun hmem => ?_))
          exact ih (hfits.child hn (List.mem_map_of_mem hmem))
        rw [eraseOrder, List.mem_append, List.mem_singleton, hall, or_comm]
      · have hall : x ∈ (ctx.blockOps block).reverse.flatMap
            (fun op => ctx.eraseOrder fuel (.operation op)) ↔
            ∃ c ∈ ctx.childNodes (.basicBlock block), ctx.Inside c x := by
          simp only [List.mem_flatMap, List.mem_reverse, childNodes, List.mem_map,
            exists_exists_and_eq_and]
          refine exists_congr (fun op => and_congr_right (fun hmem => ?_))
          exact ih (hfits.child hn (List.mem_map_of_mem hmem))
        rw [eraseOrder, List.mem_append, List.mem_singleton, hall, or_comm]
      · have hops : ∀ block ∈ ctx.regionBlocks region,
            (x ∈ (ctx.blockOps block).reverse.flatMap
              (fun op => ctx.eraseOrder fuel (.operation op)) ∨ x = .basicBlock block) ↔
            ctx.Inside (.basicBlock block) x := by
          intro block hblock
          have hchild : IRNode.basicBlock block ∈ ctx.childNodes (.region region) :=
            List.mem_map_of_mem hblock
          rw [hn.inside_iff, or_comm]
          refine or_congr_right ?_
          simp only [List.mem_flatMap, List.mem_reverse, childNodes, List.mem_map,
            exists_exists_and_eq_and]
          refine exists_congr (fun op => and_congr_right (fun hmem => ?_))
          have hchild' : IRNode.operation op ∈ ctx.childNodes (.basicBlock block) :=
            List.mem_map_of_mem hmem
          refine ih (Fits.child hn ?_ hchild')
          exact (hfits.child hn hchild).mono (Nat.le_succ fuel)
        rw [eraseOrder, List.mem_append, List.mem_append, List.mem_singleton, or_comm]
        refine or_congr_right ?_
        simp only [List.mem_flatMap, List.mem_reverse, mem_postOrder_region h, childNodes,
          List.mem_map, exists_exists_and_eq_and]
        constructor
        · rintro (⟨block, hblock, hx⟩ | ⟨block, hblock, rfl⟩)
          · refine ⟨block, hblock, (hops block hblock).mp (Or.inl ?_)⟩
            simpa using hx
          · exact ⟨block, hblock, Above.refl _⟩
        · rintro ⟨block, hblock, hx⟩
          rcases (hops block hblock).mpr hx with hx | rfl
          · exact Or.inl ⟨block, hblock, by simpa using hx⟩
          · exact Or.inr ⟨block, hblock, rfl⟩

end Order

/-! ## Contents first -/

/-- Everything in the node is gone, and the node is not. -/
structure Erasable (ctx : Context) (done : List IRNode) (node : IRNode) : Prop where
  allocated : ctx.isAllocated node = true
  not_done : node ∉ done
  children : ∀ c ∈ ctx.childNodes node, c ∈ done

section Siblings

variable (h : ctx.WellNested) {β : Type} {toNode : β → IRNode} {order : β → List IRNode}
  {cs front back : List β} {c : β}

include h

/-- What was erased with the siblings before a node does not touch it. -/
theorem fresh_at (hnodup : (cs.map toNode).Nodup) (hchild : ∀ c ∈ cs, toNode c ∈ ctx.childNodes x)
    (horder : ∀ c ∈ cs, ∀ y ∈ order c, ctx.Inside (toNode c) y)
    (hfresh : ∀ y, ctx.Inside x y → y ∉ done) (hsplit : cs = front ++ c :: back) :
    ∀ y, ctx.Inside (toNode c) y → y ∉ done ++ front.flatMap order := by
  intro y hy hmem
  have hc : c ∈ cs := by simp [hsplit]
  rcases List.mem_append.mp hmem with hmem | hmem
  · exact hfresh y (h.inside_of_child (hchild c hc) hy) hmem
  · obtain ⟨c', hc', hy'⟩ := List.mem_flatMap.mp hmem
    have hmem' : c' ∈ cs := by simp [hsplit, hc']
    have heq := h.eq_of_inside_siblings (hchild c' hmem') (hchild c hc) (horder c' hmem' y hy') hy
    rw [hsplit, List.map_append, List.map_cons] at hnodup
    have hdisj := (List.nodup_append.mp hnodup).2.2 _ (List.mem_map_of_mem hc') (toNode c)
      List.mem_cons_self
    exact hdisj heq

/-- The schedules of siblings, none of which was touched before. -/
theorem along_siblings {P : List IRNode → IRNode → Prop} (hnodup : (cs.map toNode).Nodup)
    (hchild : ∀ c ∈ cs, toNode c ∈ ctx.childNodes x)
    (horder : ∀ c ∈ cs, ∀ y ∈ order c, ctx.Inside (toNode c) y)
    (hfresh : ∀ y, ctx.Inside x y → y ∉ done)
    (halong : ∀ c ∈ cs, ∀ done', (∀ y, ctx.Inside (toNode c) y → y ∉ done') →
      Along P done' (order c)) : Along P done (cs.flatMap order) := by
  rw [Along.flatMap_iff]
  intro front c back hsplit
  have hc : c ∈ cs := by simp [hsplit]
  exact halong c hc _ (fresh_at h hnodup hchild horder hfresh hsplit)

end Siblings

section Erasable

variable (h : ctx.WellFormed)

include h

theorem nodup_regions (op : OpPtr) :
    ((ctx.opRegions op).reverse.map IRNode.region).Nodup := by
  rw [List.map_reverse, List.nodup_reverse]
  exact h.nested.childNodes_nodup (.operation op)

theorem nodup_ops (block : BlockPtr) :
    ((ctx.blockOps block).reverse.map IRNode.operation).Nodup := by
  rw [List.map_reverse, List.nodup_reverse]
  exact h.nested.childNodes_nodup (.basicBlock block)

theorem nodup_blocks (region : RegionPtr) :
    ((postOrder (ctx.regionGraph region)).reverse.map IRNode.basicBlock).Nodup := by
  rw [List.map_reverse, List.nodup_reverse]
  exact (postOrder_nodup (h.graph region).closed).map (fun a b hab => IRNode.basicBlock.inj hab)

theorem mem_opsOrder {block : BlockPtr} (hfits : ∀ op ∈ ctx.blockOps block,
    ctx.Fits fuel (.operation op)) :
    x ∈ (ctx.blockOps block).reverse.flatMap (fun op => ctx.eraseOrder fuel (.operation op)) ↔
      ctx.Inside (.basicBlock block) x ∧ x ≠ .basicBlock block := by
  have hn := h.nested
  simp only [List.mem_flatMap, List.mem_reverse]
  constructor
  · rintro ⟨op, hop, hx⟩
    have hchild : IRNode.operation op ∈ ctx.childNodes (.basicBlock block) :=
      List.mem_map_of_mem hop
    have hin := (mem_eraseOrder h (hfits op hop)).mp hx
    refine ⟨hn.inside_of_child hchild hin, ?_⟩
    rintro rfl
    exact hn.not_inside_child hchild hin
  · rintro ⟨hin, hne⟩
    obtain ⟨c, hc, hcx⟩ := (hn.inside_iff.mp hin).resolve_left hne
    obtain ⟨op, hop, rfl⟩ := List.mem_map.mp hc
    exact ⟨op, hop, (mem_eraseOrder h (hfits op hop)).mpr hcx⟩

/-- The operations of the blocks of a region, in the order in which they are erased. -/
def regionOpsOrder (ctx : Context) (fuel : Nat) (region : RegionPtr) : List IRNode :=
  (postOrder (ctx.regionGraph region)).reverse.flatMap (fun block =>
    (ctx.blockOps block).reverse.flatMap (fun op => ctx.eraseOrder fuel (.operation op)))

section RegionOps

variable {region : RegionPtr}

theorem fits_ops (hfits : ctx.Fits (fuel + 1) (.region region)) {block : BlockPtr}
    (hblock : block ∈ ctx.regionBlocks region) :
    ∀ op ∈ ctx.blockOps block, ctx.Fits fuel (.operation op) := by
  intro op hop
  have hblock' : IRNode.basicBlock block ∈ ctx.childNodes (.region region) :=
    List.mem_map_of_mem hblock
  have hop' : IRNode.operation op ∈ ctx.childNodes (.basicBlock block) :=
    List.mem_map_of_mem hop
  exact Fits.child h.nested ((hfits.child h.nested hblock').mono (Nat.le_succ fuel)) hop'

theorem mem_regionOpsOrder (hfits : ctx.Fits (fuel + 1) (.region region)) :
    x ∈ ctx.regionOpsOrder fuel region ↔ ∃ block ∈ ctx.regionBlocks region,
      ctx.Inside (.basicBlock block) x ∧ x ≠ .basicBlock block := by
  rw [regionOpsOrder, List.mem_flatMap]
  refine exists_congr (fun block => ?_)
  rw [List.mem_reverse, mem_postOrder_region h]
  exact and_congr_right (fun hblock => mem_opsOrder h (fits_ops h hfits hblock))

/-- The blocks of a region are erased when all operations in it are gone. -/
theorem erasable_along_blocks (hfits : ctx.Fits (fuel + 1) (.region region))
    (hfresh : ∀ y, ctx.Inside (.region region) y → y ∉ done) :
    Along ctx.Erasable (done ++ ctx.regionOpsOrder fuel region)
      ((postOrder (ctx.regionGraph region)).map IRNode.basicBlock) := by
  have hn := h.nested
  rw [List.map_eq_flatMap, Along.flatMap_iff]
  intro front block back hsplit
  rw [← List.map_eq_flatMap, Along.singleton_iff]
  have hblock : block ∈ ctx.regionBlocks region :=
    (mem_postOrder_region h).mp (by simp [hsplit])
  have hchild : IRNode.basicBlock block ∈ ctx.childNodes (.region region) :=
    List.mem_map_of_mem hblock
  refine ⟨isAllocated_of_parent ((hn.mem_childNodes _ _).mp hchild), fun hdone => ?_,
    fun c hc => ?_⟩
  · rcases List.mem_append.mp hdone with hdone | hdone
    · rcases List.mem_append.mp hdone with hdone | hdone
      · exact hfresh _ (hn.inside_of_child hchild (Above.refl _)) hdone
      · obtain ⟨block', hblock', hin, hne⟩ := (mem_regionOpsOrder h hfits).mp hdone
        have hchild' : IRNode.basicBlock block' ∈ ctx.childNodes (.region region) :=
          List.mem_map_of_mem hblock'
        exact hne (hn.eq_of_inside_siblings hchild hchild' (Above.refl _) hin)
    · obtain ⟨block', hblock', heq⟩ := List.mem_map.mp hdone
      obtain rfl := IRNode.basicBlock.inj heq
      have hnodup := postOrder_nodup (h.graph region).closed
      rw [hsplit] at hnodup
      exact (List.nodup_append.mp hnodup).2.2 _ hblock' _ List.mem_cons_self rfl
  · refine List.mem_append_left _ (List.mem_append_right _ ?_)
    refine (mem_regionOpsOrder h hfits).mpr ⟨block, hblock, ?_, ?_⟩
    · exact hn.inside_of_child hc (Above.refl c)
    · rintro rfl
      exact hn.not_inside_child hc (Above.refl _)

end RegionOps

/-- Along the order, what a node contains is gone before it. -/
theorem erasable_along (hfits : ctx.Fits fuel node) (halloc : ctx.isAllocated node = true)
    (hfresh : ∀ y, ctx.Inside node y → y ∉ done) :
    Along ctx.Erasable done (ctx.eraseOrder fuel node) := by
  have hn := h.nested
  induction fuel generalizing node done with
  | zero => exact absurd hfits.pos (Nat.lt_irrefl 0)
  | succ fuel ih =>
      -- the operations of a block are siblings, so none is inside another
      have hops : ∀ (block : BlockPtr) {done : List IRNode},
          (∀ op ∈ ctx.blockOps block, ctx.Fits fuel (.operation op)) →
          (∀ y, ctx.Inside (.basicBlock block) y → y ∉ done) →
          Along ctx.Erasable done ((ctx.blockOps block).reverse.flatMap
            (fun op => ctx.eraseOrder fuel (.operation op))) := by
        intro block done hfitsOps hfreshOps
        have hchild : ∀ op ∈ (ctx.blockOps block).reverse,
            IRNode.operation op ∈ ctx.childNodes (.basicBlock block) :=
          fun op hop => List.mem_map_of_mem (List.mem_reverse.mp hop)
        refine along_siblings hn (nodup_ops h block) hchild (fun op hop y hy => ?_) hfreshOps
          (fun op hop done' hfresh' => ?_)
        · exact (mem_eraseOrder h (hfitsOps op (List.mem_reverse.mp hop))).mp hy
        · exact ih (hfitsOps op (List.mem_reverse.mp hop))
            (isAllocated_of_parent ((hn.mem_childNodes _ _).mp (hchild op hop))) hfresh'
      rcases node with op | block | region
      · -- an operation: its regions, and then none of them is left
        have hchild : ∀ region ∈ (ctx.opRegions op).reverse,
            IRNode.region region ∈ ctx.childNodes (.operation op) :=
          fun region hmem => List.mem_map_of_mem (List.mem_reverse.mp hmem)
        have hmem : ∀ region ∈ (ctx.opRegions op).reverse, ∀ y,
            y ∈ ctx.eraseOrder fuel (.region region) ↔ ctx.Inside (.region region) y :=
          fun region hmem y => mem_eraseOrder h (hfits.child hn (hchild region hmem))
        rw [eraseOrder, Along.append_iff, Along.singleton_iff]
        refine ⟨?_, halloc, fun hdone => ?_, fun c hc => ?_⟩
        · refine along_siblings hn (nodup_regions h op) hchild
            (fun c hc y hy => (hmem c hc y).mp hy) hfresh (fun region hc done' hfresh' => ?_)
          exact ih (hfits.child hn (hchild region hc))
            (isAllocated_of_parent ((hn.mem_childNodes _ _).mp (hchild region hc))) hfresh'
        · rcases List.mem_append.mp hdone with hdone | hdone
          · exact hfresh _ (Above.refl _) hdone
          · obtain ⟨c, hc, hop⟩ := List.mem_flatMap.mp hdone
            exact hn.not_inside_child (hchild c hc) ((hmem c hc _).mp hop)
        · obtain ⟨region, hregion, rfl⟩ := List.mem_map.mp hc
          have hrev := List.mem_reverse.mpr hregion
          refine List.mem_append_right _ (List.mem_flatMap.mpr ⟨region, hrev, ?_⟩)
          exact (hmem region hrev _).mpr (Above.refl _)
      · -- a block: its operations, and then none of them is left
        have hfitsOps : ∀ op ∈ ctx.blockOps block, ctx.Fits fuel (.operation op) :=
          fun op hop => hfits.child hn (List.mem_map_of_mem hop)
        rw [eraseOrder, Along.append_iff, Along.singleton_iff]
        refine ⟨hops block hfitsOps hfresh, halloc, fun hdone => ?_, fun c hc => ?_⟩
        · rcases List.mem_append.mp hdone with hdone | hdone
          · exact hfresh _ (Above.refl _) hdone
          · exact ((mem_opsOrder h hfitsOps).mp hdone).2 rfl
        · refine List.mem_append_right _ ((mem_opsOrder h hfitsOps).mpr ?_)
          refine ⟨hn.inside_of_child hc (Above.refl c), ?_⟩
          rintro rfl
          exact hn.not_inside_child hc (Above.refl _)
      · -- a region: the operations of all blocks go before the first block does
        have hchild : ∀ block ∈ (postOrder (ctx.regionGraph region)).reverse,
            IRNode.basicBlock block ∈ ctx.childNodes (.region region) := by
          intro block hblock
          rw [List.mem_reverse, mem_postOrder_region h] at hblock
          exact List.mem_map_of_mem hblock
        show Along ctx.Erasable done (ctx.regionOpsOrder fuel region ++
          (postOrder (ctx.regionGraph region)).map IRNode.basicBlock ++ [.region region])
        rw [Along.append_iff, Along.append_iff, Along.singleton_iff]
        refine ⟨⟨?_, erasable_along_blocks h hfits hfresh⟩, halloc, fun hdone => ?_,
          fun c hc => ?_⟩
        · have hfitsOps : ∀ block ∈ (postOrder (ctx.regionGraph region)).reverse,
              ∀ op ∈ ctx.blockOps block, ctx.Fits fuel (.operation op) := by
            intro block hblock
            rw [List.mem_reverse, mem_postOrder_region h] at hblock
            exact fits_ops h hfits hblock
          refine along_siblings hn (nodup_blocks h region) hchild
            (fun block hblock y hy => ((mem_opsOrder h (hfitsOps block hblock)).mp hy).1) hfresh
            (fun block hblock done' hfresh' => hops block (hfitsOps block hblock) hfresh')
        · rw [← List.append_assoc] at hdone
          rcases List.mem_append.mp hdone with hdone | hdone
          · rcases List.mem_append.mp hdone with hdone | hdone
            · exact hfresh _ (Above.refl _) hdone
            · obtain ⟨block, hblock, hin, _⟩ := (mem_regionOpsOrder h hfits).mp hdone
              exact hn.not_inside_child (List.mem_map_of_mem hblock) hin
          · simp at hdone
        · obtain ⟨block, hblock, rfl⟩ := List.mem_map.mp hc
          refine List.mem_append_right _ (List.mem_append_right _ (List.mem_map_of_mem ?_))
          exact (mem_postOrder_region h).mpr hblock

end Erasable

end Context

end Pliron
