/-
  Pliron.IRBuild.EraseUses

  Which uses are gone when a definition is erased.

  Within a block the rewriter erases from the end, so the uses of a result by the
  later operations of its block, and by what these contain, are gone in time
  (`UsedBelow`).  The blocks of a region are walked in reverse post-order, in which
  a block comes before those that it dominates: a use in another block is still
  there.
-/

import Pliron.IRBuild.EraseRun

namespace Pliron

open Pliron.Lib Traversals

/-! ## Positions in a reversed list -/

/-- In front of a position of the reversed list are the elements behind it. -/
theorem mem_front_reverse_iff {α : Type} [DecidableEq α] {l front back : List α} {a b : α}
    (hl : l.Nodup) (hsplit : l.reverse = front ++ a :: back) (hb : b ∈ l) :
    b ∈ front ↔ l.idxOf a < l.idxOf b := by
  have hl' : l = back.reverse ++ a :: front.reverse := by
    rw [← List.reverse_reverse l, hsplit]
    simp
  rw [hl'] at hl hb ⊢
  obtain ⟨_, hcons, hdisj⟩ := List.nodup_append.mp hl
  have ha : a ∉ back.reverse := fun ha => hdisj a ha a List.mem_cons_self rfl
  have haf : a ∉ front.reverse := (List.nodup_cons.mp hcons).1
  have hidxa : (back.reverse ++ a :: front.reverse).idxOf a = back.reverse.length := by
    rw [List.idxOf_append_of_notMem ha, List.idxOf_cons_self, Nat.add_zero]
  rw [hidxa]
  constructor
  · intro hbf
    have hbf' : b ∈ front.reverse := List.mem_reverse.mpr hbf
    have hbb : b ∉ back.reverse := fun hbb =>
      hdisj b hbb b (List.mem_cons_of_mem _ hbf') rfl
    have hne : a ≠ b := fun heq => haf (heq ▸ hbf')
    rw [List.idxOf_append_of_notMem hbb, List.idxOf_cons_ne _ hne]
    omega
  · intro hlt
    rcases List.mem_append.mp hb with hbb | hb
    · have hidx := List.idxOf_lt_length_of_mem hbb
      rw [List.idxOf_append_of_mem hbb] at hlt
      omega
    · rcases List.mem_cons.mp hb with rfl | hb
      · rw [hidxa] at hlt
        omega
      · exact List.mem_reverse.mp hb

namespace Context

variable {ctx : Context} {node x : IRNode} {done : List IRNode} {fuel : Nat} {op user anc : OpPtr}
  {block : BlockPtr} {region : RegionPtr}

/-- `user` refers to something that `x` defines. -/
def RefersTo (ctx : Context) (user : OpPtr) (x : IRNode) : Prop :=
  ∃ r ∈ ctx.refsOf user, r.2.definer = x

/-- `user` is `op` or a later operation of its block, or is nested in one of these. -/
def UsedBelow (ctx : Context) (op user : OpPtr) : Prop :=
  ∃ block anc, ctx.opParentBlock op = some block ∧ ctx.opParentBlock anc = some block ∧
    ctx.Inside (.operation anc) (.operation user) ∧
    (ctx.blockOps block).idxOf op ≤ (ctx.blockOps block).idxOf anc

/-- The uses of a node that are gone when its turn comes. -/
def GoneInTime (ctx : Context) (user : OpPtr) : IRNode → Prop
  | .operation op => ctx.UsedBelow op user
  | .basicBlock block => ∃ region, ctx.blockParentRegion block = some region ∧
      ctx.Inside (.region region) (.operation user)
  | .region _ => True

theorem not_refersTo_region (user : OpPtr) (region : RegionPtr) :
    ¬ ctx.RefersTo user (.region region) := by
  rintro ⟨r, _, hdef⟩
  exact definer_ne_region r.2 hdef

theorem unreferred_iff : ctx.Unreferred done x ↔
    ∀ user, ctx.RefersTo user x → .operation user = x ∨ .operation user ∈ done := by
  constructor
  · rintro h user ⟨r, hr, hdef⟩
    by_contra hnot
    rw [not_or] at hnot
    exact h user hnot.1 hnot.2 r hr hdef
  · intro h user hne hdone r hr hdef
    rcases h user ⟨r, hr, hdef⟩ with heq | hmem
    · exact hne heq
    · exact hdone hmem

section Uses

variable (h : ctx.WellFormed)

include h

/-- The operations of a block, when the uses of what is in the block are gone in time. -/
theorem unreferred_along_ops (hfits : ∀ op ∈ ctx.blockOps block, ctx.Fits fuel (.operation op))
    (ih : ∀ op ∈ ctx.blockOps block, ∀ done, (∀ x, ctx.Inside (.operation op) x → ∀ user,
        ctx.RefersTo user x → .operation user ∈ done ∨
          if x = .operation op then ctx.Inside (.operation op) (.operation user)
          else ctx.GoneInTime user x) →
      Along ctx.Unreferred done (ctx.eraseOrder fuel (.operation op)))
    (huses : ∀ x, ctx.Inside (.basicBlock block) x → x ≠ .basicBlock block → ∀ user,
      ctx.RefersTo user x → .operation user ∈ done ∨ ctx.GoneInTime user x) :
    Along ctx.Unreferred done ((ctx.blockOps block).reverse.flatMap
      (fun op => ctx.eraseOrder fuel (.operation op))) := by
  have hn := h.nested
  rw [Along.flatMap_iff]
  intro front op back hsplit
  have hop : op ∈ ctx.blockOps block := by
    rw [← List.mem_reverse, hsplit]
    simp
  have hchild : IRNode.operation op ∈ ctx.childNodes (.basicBlock block) :=
    List.mem_map_of_mem hop
  refine ih op hop _ (fun x hx user huser => ?_)
  have hne : x ≠ .basicBlock block := by
    rintro rfl
    exact hn.not_inside_child hchild hx
  rcases huses x (hn.inside_of_child hchild hx) hne user huser with hdone | hgone
  · exact Or.inl (List.mem_append_left _ hdone)
  · split
    · next heq =>
        subst heq
        obtain ⟨block', anc, hblock', hanc, hin, hle⟩ := hgone
        obtain rfl := Option.some.inj (((hn.op_mem block op).mp hop).symm.trans hblock')
        by_cases heq : anc = op
        · exact Or.inr (heq ▸ hin)
        · have hancmem := (hn.op_mem block anc).mpr hanc
          have hlt : (ctx.blockOps block).idxOf op < (ctx.blockOps block).idxOf anc :=
            lt_of_le_of_ne hle (fun hidx => heq ((List.idxOf_inj hop).mp hidx).symm)
          have hfront := (mem_front_reverse_iff (hn.ops_nodup block) hsplit hancmem).mpr hlt
          refine Or.inl (List.mem_append_right _ (List.mem_flatMap.mpr ⟨anc, hfront, ?_⟩))
          exact (mem_eraseOrder h (hfits anc hancmem)).mpr hin
    · exact Or.inr hgone

/-- If all uses are gone in time, every erasure goes through. -/
theorem unreferred_along (hfits : ctx.Fits fuel node)
    (huses : ∀ x, ctx.Inside node x → ∀ user, ctx.RefersTo user x → .operation user ∈ done ∨
      if x = node then ctx.Inside node (.operation user) else ctx.GoneInTime user x) :
    Along ctx.Unreferred done (ctx.eraseOrder fuel node) := by
  have hn := h.nested
  induction fuel generalizing node done with
  | zero => exact absurd hfits.pos (Nat.lt_irrefl 0)
  | succ fuel ih =>
      rcases node with op | block | region
      · -- an operation: its regions last to first, then itself
        have hchild : ∀ {region}, region ∈ (ctx.opRegions op).reverse →
            IRNode.region region ∈ ctx.childNodes (.operation op) :=
          fun hmem => List.mem_map_of_mem (List.mem_reverse.mp hmem)
        rw [eraseOrder, Along.append_iff, Along.singleton_iff, Along.flatMap_iff]
        refine ⟨fun front region back hsplit => ?_, unreferred_iff.mpr (fun user huser => ?_)⟩
        · have hc : IRNode.region region ∈ ctx.childNodes (.operation op) :=
            hchild (by simp [hsplit])
          refine ih (hfits.child hn hc) (fun x hx user huser => ?_)
          -- the users of what is inside a region are gone in time, so they are gone here
          have hne : x ≠ .operation op := by
            rintro rfl
            exact hn.not_inside_child hc hx
          have hne' : x ≠ .region region := by
            rintro rfl
            exact not_refersTo_region user region huser
          have hgone := huses x (hn.inside_of_child hc hx) user huser
          rw [if_neg hne] at hgone
          rw [if_neg hne']
          exact hgone.imp (List.mem_append_left _) id
        · have hgone := huses _ (Above.refl _) user huser
          rw [if_pos rfl] at hgone
          -- a user of the operation itself is inside it, so in one of its regions
          rcases hgone with hdone | hin
          · exact Or.inr (List.mem_append_left _ hdone)
          · rcases hn.inside_iff.mp hin with heq | ⟨c, hc, hin⟩
            · exact Or.inl heq
            · obtain ⟨region, hregion, rfl⟩ := List.mem_map.mp hc
              refine Or.inr (List.mem_append_right _ (List.mem_flatMap.mpr ⟨region, ?_, ?_⟩))
              · exact List.mem_reverse.mpr hregion
              · exact (mem_eraseOrder h (hfits.child hn hc)).mpr hin
      · -- a block: its operations last to first, then itself
        have hfitsOps : ∀ op ∈ ctx.blockOps block, ctx.Fits fuel (.operation op) :=
          fun op hop => hfits.child hn (List.mem_map_of_mem hop)
        rw [eraseOrder, Along.append_iff, Along.singleton_iff]
        refine ⟨unreferred_along_ops h hfitsOps (fun op hop done huses => ih (hfitsOps op hop) huses)
          (fun x hx hne user huser => ?_), unreferred_iff.mpr (fun user huser => ?_)⟩
        · have hgone := huses x hx user huser
          rwa [if_neg hne] at hgone
        · have hgone := huses _ (Above.refl _) user huser
          rw [if_pos rfl] at hgone
          rcases hgone with hdone | hin
          · exact Or.inr (List.mem_append_left _ hdone)
          · exact Or.inr (List.mem_append_right _ ((mem_opsOrder h hfitsOps).mpr ⟨hin, by simp⟩))
      · -- a region: the operations of its blocks, then the blocks, then itself
        have hmem : ∀ {block}, block ∈ (postOrder (ctx.regionGraph region)).reverse →
            block ∈ ctx.regionBlocks region := by
          intro block hblock
          rwa [List.mem_reverse, mem_postOrder_region h] at hblock
        have hgone : ∀ {block}, block ∈ ctx.regionBlocks region → ∀ x,
            ctx.Inside (.basicBlock block) x → ∀ user, ctx.RefersTo user x →
            .operation user ∈ done ∨ ctx.GoneInTime user x := by
          intro block hblock x hx user huser
          have hchild : IRNode.basicBlock block ∈ ctx.childNodes (.region region) :=
            List.mem_map_of_mem hblock
          have hne : x ≠ .region region := by
            rintro rfl
            exact hn.not_inside_child hchild hx
          have hgone := huses x (hn.inside_of_child hchild hx) user huser
          rwa [if_neg hne] at hgone
        show Along ctx.Unreferred done (ctx.regionOpsOrder fuel region ++
          (postOrder (ctx.regionGraph region)).map IRNode.basicBlock ++ [.region region])
        rw [Along.append_iff, Along.append_iff, Along.singleton_iff]
        refine ⟨⟨?_, ?_⟩, unreferred_iff.mpr (fun user huser => ?_)⟩
        · refine Along.flatMap_iff.mpr (fun front block back hsplit => ?_)
          have hblock : block ∈ ctx.regionBlocks region := hmem (by simp [hsplit])
          have hfitsOps := fits_ops h hfits hblock
          refine unreferred_along_ops h hfitsOps
            (fun op hop done huses => ih (hfitsOps op hop) huses) (fun x hx _ user huser => ?_)
          exact (hgone hblock x hx user huser).imp (List.mem_append_left _) id
        · rw [List.map_eq_flatMap]
          refine Along.flatMap_iff.mpr (fun front block back hsplit => ?_)
          have hblock : block ∈ ctx.regionBlocks region :=
            (mem_postOrder_region h).mp (by simp [hsplit])
          refine Along.singleton_iff.mpr (unreferred_iff.mpr (fun user huser => Or.inr ?_))
          rcases hgone hblock _ (Above.refl _) user huser with hdone | ⟨region', hregion', hin⟩
          · exact List.mem_append_left _ (List.mem_append_left _ hdone)
          · -- a user of a block is in an operation of the region, and these are gone
            have hparent := (hn.block_mem region block).mp hblock
            obtain rfl := Option.some.inj (hparent.symm.trans hregion')
            obtain ⟨c, hc, hin⟩ := (hn.inside_iff.mp hin).resolve_left (by simp)
            obtain ⟨block', hblock', rfl⟩ := List.mem_map.mp hc
            refine List.mem_append_left _ (List.mem_append_right _ ?_)
            exact (mem_regionOpsOrder h hfits).mpr ⟨block', hblock', hin, by simp⟩
        · exact absurd huser (not_refersTo_region user region)

/-! ## Uses that are not gone in time -/

omit h in
/-- What is nested in an operation is inside of it. -/
theorem inside_op_of_above (habove : Above ctx.parentOp user anc) :
    ctx.Inside (.operation anc) (.operation user) := by
  induction habove with
  | refl => exact Above.refl _
  | @tail b c _ hbc ih =>
      obtain ⟨region, hregion, hop⟩ := Option.bind_eq_some_iff.mp hbc
      obtain ⟨block, hblock, hparent⟩ := opParentRegion_eq_some.mp hregion
      have hb : ctx.parentNode (.operation b) = some (.basicBlock block) := by
        simp [parentNode, hblock]
      have hc : ctx.parentNode (.basicBlock block) = some (.region region) := by
        simp [parentNode, hparent]
      have hd : ctx.parentNode (.region region) = some (.operation c) := by
        simp [parentNode, hop]
      exact ((ih.tail hb).tail hc).tail hd

/-- Where a use of a result is, as dominance has it: in the region of the operation, and if in
    another block, then in one that comes before in post-order. -/
structure Placed (ctx : Context) (op user : OpPtr) (block : BlockPtr) (region : RegionPtr)
    (anc : OpPtr) (block' : BlockPtr) : Prop where
  opBlock : ctx.opParentBlock op = some block
  opRegion : ctx.blockParentRegion block = some region
  ancBlock : ctx.opParentBlock anc = some block'
  ancRegion : ctx.blockParentRegion block' = some region
  inside : ctx.Inside (.operation anc) (.operation user)
  before : block' ≠ block → (postOrder (ctx.regionGraph region)).idxOf block' <
    (postOrder (ctx.regionGraph region)).idxOf block

namespace Placed

variable {block' : BlockPtr}

omit h in
theorem inside_block (hp : ctx.Placed op user block region anc block') :
    ctx.Inside (.basicBlock block') (.operation user) := by
  refine Relation.ReflTransGen.tail hp.inside ?_
  simp [parentNode, hp.ancBlock]

omit h in
theorem inside_region (hp : ctx.Placed op user block region anc block') :
    ctx.Inside (.region region) (.operation user) := by
  refine Relation.ReflTransGen.tail hp.inside_block ?_
  simp [parentNode, hp.ancRegion]

omit h in
/-- A use is inside whatever contains the operation with its region. -/
theorem inside_of (hp : ctx.Placed op user block region anc block')
    (hin : ctx.Inside node (.operation op)) (hop : node ≠ .operation op)
    (hblock : node ≠ .basicBlock block) : ctx.Inside node (.operation user) := by
  rcases Above.cases_head hin with heq | ⟨p, hp₁, hin⟩
  · exact absurd heq.symm hop
  · have hp₁' : ctx.parentNode (.operation op) = some (.basicBlock block) := by
      simp [parentNode, hp.opBlock]
    obtain rfl := Option.some.inj (hp₁'.symm.trans hp₁)
    rcases Above.cases_head hin with heq | ⟨p, hp₂, hin⟩
    · exact absurd heq.symm hblock
    · have hp₂' : ctx.parentNode (.basicBlock block) = some (.region region) := by
        simp [parentNode, hp.opRegion]
      obtain rfl := Option.some.inj (hp₂'.symm.trans hp₂)
      exact Above.trans hp.inside_region hin

end Placed

/-- The operations of a block, if their users are not gone before. -/
theorem usedBelow_of_along_ops
    (hfits : ∀ op ∈ ctx.blockOps block, ctx.Fits fuel (.operation op))
    (ih : ∀ op ∈ ctx.blockOps block, ∀ done, (∀ y, ctx.Inside (.operation op) y → y ∉ done) →
      Along ctx.Unreferred done (ctx.eraseOrder fuel (.operation op)) →
      ∀ x, ctx.Inside (.operation op) (.operation x) → x ≠ op → ∀ user,
        ctx.RefersTo user (.operation x) → ctx.UsedBelow x user)
    (hfresh : ∀ y, ctx.Inside (.basicBlock block) y → y ∉ done)
    (hlate : ∀ op ∈ ctx.blockOps block, ∀ user, ctx.RefersTo user (.operation op) →
      .operation user ∉ done)
    (halong : Along ctx.Unreferred done ((ctx.blockOps block).reverse.flatMap
      (fun op => ctx.eraseOrder fuel (.operation op)))) :
    ∀ x, ctx.Inside (.basicBlock block) (.operation x) → ∀ user,
      ctx.RefersTo user (.operation x) → ctx.UsedBelow x user := by
  have hn := h.nested
  intro x hx user huser
  obtain ⟨c, hc, hx⟩ := (hn.inside_iff.mp hx).resolve_left (by simp)
  obtain ⟨op, hop, rfl⟩ := List.mem_map.mp hc
  obtain ⟨front, back, hsplit⟩ := List.append_of_mem (List.mem_reverse.mpr hop)
  have hpart := Along.flatMap_iff.mp halong front op back hsplit
  by_cases hxop : x = op
  · subst hxop
    have hblock := (hn.op_mem block x).mp hop
    obtain ⟨front', back', horder, hun⟩ := hpart.of_mem
      ((mem_eraseOrder h (hfits x hop)).mpr (Above.refl _))
    have hself : ctx.Inside (.operation x) (.operation user) → ctx.UsedBelow x user :=
      fun hin => ⟨block, x, hblock, hblock, hin, Nat.le_refl _⟩
    rcases unreferred_iff.mp hun user huser with heq | hdone
    · exact hself (heq ▸ Above.refl _)
    · rcases List.mem_append.mp hdone with hdone | hdone
      · rcases List.mem_append.mp hdone with hdone | hdone
        · exact absurd hdone (hlate x hop user huser)
        · -- the user is in a later operation of the block
          obtain ⟨anc, hanc, hin⟩ := List.mem_flatMap.mp hdone
          have hancmem : anc ∈ ctx.blockOps block := by
            rw [← List.mem_reverse, hsplit]
            exact List.mem_append_left _ hanc
          have hlt := (mem_front_reverse_iff (hn.ops_nodup block) hsplit hancmem).mp hanc
          refine ⟨block, anc, hblock, (hn.op_mem block anc).mp hancmem, ?_, Nat.le_of_lt hlt⟩
          exact (mem_eraseOrder h (hfits anc hancmem)).mp hin
      · refine hself ((mem_eraseOrder h (hfits x hop)).mp ?_)
        rw [horder]
        exact List.mem_append_left _ hdone
  · refine ih op hop _ ?_ hpart x hx hxop user huser
    refine fresh_at hn (nodup_ops h block) (fun c hc => ?_) (fun c hc y hy => ?_) hfresh hsplit
    · exact List.mem_map_of_mem (List.mem_reverse.mp hc)
    · exact (mem_eraseOrder h (hfits c (List.mem_reverse.mp hc))).mp hy

/-- If every erasure goes through, results are only used where the uses are gone in time. -/
theorem usedBelow_of_along (hfits : ctx.Fits fuel node)
    (hplaced : ∀ op user, ctx.Inside node (.operation op) → ctx.RefersTo user (.operation op) →
      ∃ block region anc block', ctx.Placed op user block region anc block')
    (hfresh : ∀ y, ctx.Inside node y → y ∉ done)
    (hlate : ∀ op, ctx.Inside node (.operation op) → node ≠ .operation op → ∀ user,
      ctx.RefersTo user (.operation op) → .operation user ∉ done)
    (halong : Along ctx.Unreferred done (ctx.eraseOrder fuel node)) :
    ∀ op, ctx.Inside node (.operation op) → node ≠ .operation op → ∀ user,
      ctx.RefersTo user (.operation op) → ctx.UsedBelow op user := by
  have hn := h.nested
  induction fuel generalizing node done with
  | zero => exact absurd hfits.pos (Nat.lt_irrefl 0)
  | succ fuel ih =>
      -- the induction hypothesis at an operation: what uses its inside lies inside it too
      have ihOps : ∀ op, ctx.Fits fuel (.operation op) → ctx.Inside node (.operation op) →
          ∀ done, (∀ y, ctx.Inside (.operation op) y → y ∉ done) →
          Along ctx.Unreferred done (ctx.eraseOrder fuel (.operation op)) →
          ∀ x, ctx.Inside (.operation op) (.operation x) → x ≠ op → ∀ user,
            ctx.RefersTo user (.operation x) → ctx.UsedBelow x user := by
        intro op hfitsOp hop done hfresh halong x hx hne user huser
        have hin : ∀ {y}, ctx.Inside (.operation op) y → ctx.Inside node y :=
          fun hy => Above.trans hy hop
        refine ih hfitsOp (fun x user hx => hplaced x user (hin hx)) hfresh ?_ halong x hx
          (fun heq => hne (IRNode.operation.inj heq).symm) user huser
        intro x hx hne user huser hdone
        obtain ⟨_, _, _, _, hp⟩ := hplaced x user (hin hx) huser
        exact hfresh _ (hp.inside_of hx hne (by simp)) hdone
      rcases node with root | block | region
      · -- an operation: its regions are erased one after the other
        intro op hop hne user huser
        have hchild : ∀ {region}, region ∈ (ctx.opRegions root).reverse →
            IRNode.region region ∈ ctx.childNodes (.operation root) :=
          fun hmem => List.mem_map_of_mem (List.mem_reverse.mp hmem)
        obtain ⟨c, hc, hx⟩ := (hn.inside_iff.mp hop).resolve_left (fun heq => hne heq.symm)
        obtain ⟨region, hregion, rfl⟩ := List.mem_map.mp hc
        rw [eraseOrder, Along.append_iff] at halong
        obtain ⟨front, back, hsplit⟩ := List.append_of_mem (List.mem_reverse.mpr hregion)
        have hpart := Along.flatMap_iff.mp halong.1 front region back hsplit
        have hin : ∀ {y}, ctx.Inside (.region region) y → ctx.Inside (.operation root) y :=
          fun hy => hn.inside_of_child hc hy
        have hfresh' := fresh_at hn (nodup_regions h root) (fun c hc => hchild hc)
          (fun c hmem y hy => (mem_eraseOrder h (hfits.child hn (hchild hmem))).mp hy) hfresh hsplit
        refine ih (hfits.child hn hc) (fun x user hx => hplaced x user (hin hx)) hfresh' ?_ hpart
          op hx (by simp) user huser
        intro x hx hne user huser hdone
        obtain ⟨_, _, _, _, hp⟩ := hplaced x user (hin hx) huser
        exact hfresh' _ (hp.inside_of hx hne (by simp)) hdone
      · -- a block: its operations are erased last first
        intro op hop _ user huser
        have hfitsOps : ∀ op ∈ ctx.blockOps block, ctx.Fits fuel (.operation op) :=
          fun op hop => hfits.child hn (List.mem_map_of_mem hop)
        have hinOps : ∀ op ∈ ctx.blockOps block, ctx.Inside (.basicBlock block) (.operation op) :=
          fun op hop => hn.inside_of_child (List.mem_map_of_mem hop) (Above.refl _)
        rw [eraseOrder, Along.append_iff] at halong
        exact usedBelow_of_along_ops h hfitsOps
          (fun op hop => ihOps op (hfitsOps op hop) (hinOps op hop)) hfresh
          (fun op hop => hlate op (hinOps op hop) (by simp)) halong.1 op hop user huser
      · -- a region: its blocks are erased in reverse post-order
        intro op hop _ user huser
        have hchild : ∀ {block}, block ∈ ctx.regionBlocks region →
            IRNode.basicBlock block ∈ ctx.childNodes (.region region) :=
          fun hmem => List.mem_map_of_mem hmem
        have hmem : ∀ {block}, block ∈ (postOrder (ctx.regionGraph region)).reverse ↔
            block ∈ ctx.regionBlocks region := by
          intro block
          rw [List.mem_reverse, mem_postOrder_region h]
        obtain ⟨c, hc, hx⟩ := (hn.inside_iff.mp hop).resolve_left (by simp)
        obtain ⟨block, hblock, rfl⟩ := List.mem_map.mp hc
        have halong' : Along ctx.Unreferred done (ctx.regionOpsOrder fuel region) :=
          (Along.append_iff.mp (Along.append_iff.mp
            (show Along ctx.Unreferred done (ctx.regionOpsOrder fuel region ++
              (postOrder (ctx.regionGraph region)).map IRNode.basicBlock ++ [.region region])
              from halong)).1).1
        obtain ⟨front, back, hsplit⟩ := List.append_of_mem (hmem.mpr hblock)
        have hpart := Along.flatMap_iff.mp halong' front block back hsplit
        have hopsOrder : ∀ c ∈ (postOrder (ctx.regionGraph region)).reverse, ∀ y,
            y ∈ (ctx.blockOps c).reverse.flatMap (fun op => ctx.eraseOrder fuel (.operation op)) →
            ctx.Inside (.basicBlock c) y :=
          fun c hc y hy => ((mem_opsOrder h (fits_ops h hfits (hmem.mp hc))).mp hy).1
        have hfresh' := fresh_at hn (nodup_blocks h region) (fun c hc => hchild (hmem.mp hc))
          hopsOrder hfresh hsplit
        have hinOps : ∀ op ∈ ctx.blockOps block, ctx.Inside (.region region) (.operation op) :=
          fun op hop => hn.inside_of_child (hchild hblock)
            (hn.inside_of_child (List.mem_map_of_mem hop) (Above.refl _))
        refine usedBelow_of_along_ops h (fits_ops h hfits hblock)
          (fun op hop => ihOps op (fits_ops h hfits hblock op hop) (hinOps op hop)) hfresh' ?_
          hpart op hx user huser
        intro op hop user huser hdone
        obtain ⟨block₁, region₁, anc, block', hp⟩ := hplaced op user (hinOps op hop) huser
        obtain rfl := Option.some.inj (hp.opBlock.symm.trans ((hn.op_mem block op).mp hop))
        obtain rfl := Option.some.inj
          (hp.opRegion.symm.trans ((hn.block_mem region block₁).mp hblock))
        rcases List.mem_append.mp hdone with hdone | hdone
        · exact hfresh _ hp.inside_region hdone
        · -- a block in front of `block₁` would come after it in post-order
          obtain ⟨c, hc, hcin⟩ := List.mem_flatMap.mp hdone
          have hcmem : c ∈ (postOrder (ctx.regionGraph region₁)).reverse := by simp [hsplit, hc]
          have hblock' : block' ∈ ctx.regionBlocks region₁ :=
            (hn.block_mem region₁ block').mpr hp.ancRegion
          have heq := hn.eq_of_inside_siblings (hchild (hmem.mp hcmem)) (hchild hblock')
            (hopsOrder c hcmem _ hcin) hp.inside_block
          obtain rfl := IRNode.basicBlock.inj heq
          have hlt := (mem_front_reverse_iff (postOrder_nodup (h.graph region₁).closed) hsplit
            (List.mem_reverse.mp hcmem)).mp hc
          by_cases hne : c = block₁
          · rw [hne] at hlt
            exact Nat.lt_irrefl _ hlt
          · exact Nat.lt_asymm hlt (hp.before hne)

end Uses

end Context

end Pliron
