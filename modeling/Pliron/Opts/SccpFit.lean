/-
  Pliron.Opts.SccpFit

  What the analysis knows of the values that dominate a reached operation.

  An operation is only reached when every value that dominates it is determined, or is defined
  in a graph region.  So if definitions dominate their uses, the assertion that a definition is
  processed before its uses holds at each operand that a visit reads.
-/

import Pliron.IR.Verify
import Pliron.Opts.SccpFixed

namespace Pliron

open Pliron.Lib Relation Walkers

namespace Sccp

open SccpState

variable {A : Type}

/-! ## What the verifier accepts -/

/-- What the verifier of the interface checks of the flows. -/
structure RegionBranchOp.FlowsVerified (ctx : Context) (root parent : OpPtr)
    (op : RegionBranchOp A) : Prop where
  operand : ∀ edge ∈ op.regionEdges, ∀ flow ∈ edge.flows, ctx.useDef flow.1 ≠ none
  receiver : ∀ edge ∈ op.regionEdges, ∀ flow ∈ edge.flows,
    flow.2 ∈ (regionTarget ctx root parent edge.target).2
  same : ∀ edge ∈ op.regionEdges, ∀ edge' ∈ op.regionEdges, edge.target = edge'.target →
    ∀ flow ∈ edge.flows, ∃ flow' ∈ edge'.flows, flow'.2 = flow.2

/-- A verified program whose operations follow their interfaces. -/
structure Runnable [DecidableEq A] (ctx : Context) (ifaces : OpInterfaces A) (root : OpPtr) : Prop
    extends Ready ctx ifaces root where
  wellFormed : ctx.WellFormed
  exists_root : ctx.operations root ≠ none
  /-- The verifier has found that definitions dominate their uses. -/
  dominance : ctx.verifyValueDominance root = some (.ok ())
  /-- At most one kind of processing. -/
  exclusive : ∀ op parent, regionBranchParent ctx ifaces op = some parent →
    kindCount ifaces op parent ≤ 1
  /-- Folding has an entry for each result. -/
  fold : ∀ op checkFold, ifaces.fold op = some checkFold → ∀ attrs,
    (checkFold attrs).length = (ctx.opResults op).length
  /-- A terminator is the last operation of its block. -/
  last : ∀ op o, ctx.operations op = some o → o.concreteOp.isTerminator = true →
    ctx.nextOpOf op = none
  /-- A branch is a terminator without results, that forwards a value for each argument. -/
  branch : ∀ op branchOp, ifaces.branch op = some branchOp →
    (∃ o, ctx.operations op = some o ∧ o.concreteOp.isTerminator = true) ∧
    ctx.opResults op = [] ∧ ∀ (i : Nat) block, (ctx.opSuccessors op)[i]? = some block →
      ∃ forwarded, branchOp.successorOperands ctx op i = some forwarded ∧
        forwarded.length = (ctx.blockArgs block).length
  flows : ∀ op regionBranch, ifaces.regionBranch op = some regionBranch →
    regionBranch.FlowsVerified ctx root op

/-! ## Determined values -/

/-- Reading the value does not fail: it is determined, or defined in a graph region. -/
def Determined (ctx : Context) (st : SccpState A) (val : Value) : Prop :=
  st.getValState val ≠ .undetermined ∨
    ∃ region, ctx.valueParentRegion val = some region ∧ ctx.hasSsaDominance region = some false

/-- What dominates an operation is determined. -/
def Available (ctx : Context) (root : OpPtr) (st : SccpState A) (n : OpPtr) : Prop :=
  ∀ val, ctx.DefinedWithin root val → ctx.UseDominated val n → Determined ctx st val

/-- The values that no edge of the operation passes anything to are determined. -/
def SlotsDetermined (ctx : Context) (ifaces : OpInterfaces A) (st : SccpState A) (op : OpPtr) :
    Prop :=
  ∀ regionBranch, ifaces.regionBranch op = some regionBranch →
    ∀ slots, RegionBranchOp.receiverSlots ctx op = some slots →
      ∀ val ∈ slots, val ∉ regionBranch.receivers → Determined ctx st val

/-- What holds of a reached operation. -/
structure Fit [DecidableEq A] (ctx : Context) (ifaces : OpInterfaces A) (root : OpPtr)
    (st : SccpState A) (n : OpPtr) : Prop where
  inner : Inner ctx st n
  available : Available ctx root st n
  live : ∀ block region, ctx.opParentBlock n = some block →
    ctx.blockParentRegion block = some region → (ctx.regionGraph region).Reachable block
  slots : ∀ parent, ctx.parentOp n = some parent → parent ≠ root →
    SlotsDetermined ctx ifaces st parent

/-- What holds throughout an analysis that does not panic. -/
structure Sane [DecidableEq A] (ctx : Context) (ifaces : OpInterfaces A) (root : OpPtr)
    (st : SccpState A) : Prop where
  rootOp : st.rootOp = root
  outside : OutsideUnknown ctx st
  fit : ∀ n ∈ st.reachableOps, Fit ctx ifaces root st n

variable [DecidableEq A] {ctx : Context} {ifaces : OpInterfaces A} {root op n : OpPtr}
  {st st' : SccpState A} {val : Value}

theorem Determined.descends (h : Determined ctx st val) (hdesc : Descends st st') :
    Determined ctx st' val := by
  rcases h with h | h
  · left
    intro hbad
    have hle := hdesc.getValState_le val
    rw [hbad] at hle
    exact h (Constness.undetermined_le_iff.mp hle)
  · exact Or.inr h

theorem Fit.descends (h : Fit ctx ifaces root st n) (hdesc : Descends st st') :
    Fit ctx ifaces root st' n where
  inner := h.inner.descends hdesc
  available val hval hdom := (h.available val hval hdom).descends hdesc
  live := h.live
  slots parent hparent hne rb hrb slots hslots val hval hnot :=
    (h.slots parent hparent hne rb hrb slots hslots val hval hnot).descends hdesc

theorem Sane.descends (h : Sane ctx ifaces root st) (hdesc : Descends st st')
    (hnew : ∀ n ∈ st'.reachableOps, n ∈ st.reachableOps ∨ Fit ctx ifaces root st n) :
    Sane ctx ifaces root st' where
  rootOp := hdesc.2.trans h.rootOp
  outside := h.outside.descends hdesc
  fit n hn := (hnew n hn).elim (fun hn => (h.fit n hn).descends hdesc)
    (fun hfit => hfit.descends hdesc)

omit [DecidableEq A] in
/-- Reading an operand that is determined does not fail. -/
theorem operandState_of_determined (h : Determined ctx st val) :
    ∃ x, operandState ctx val st = some x ∧ x ≠ .undetermined := by
  unfold operandState
  cases hstate : st.getValState val with
  | constant a => exact ⟨_, rfl, by simp⟩
  | notAConstant => exact ⟨_, rfl, by simp⟩
  | undetermined =>
      rcases h with h | ⟨region, hregion, hssa⟩
      · exact absurd hstate h
      · refine ⟨.notAConstant, ?_, by simp⟩
        simp only [hregion, Option.bind_eq_bind, Option.bind_some, hssa]
        rfl

theorem mem_allValues_cases (hval : val ∈ ctx.allValues) :
    (∃ op o, val.definingEntity = .op op ∧ ctx.operations op = some o ∧ val ∈ o.resultValues op) ∨
      ∃ block b, val.definingEntity = .block block ∧ ctx.basicBlocks block = some b ∧
        val ∈ b.argValues block := by
  rcases List.mem_append.mp hval with hval | hval
  · obtain ⟨i, _, hval⟩ := List.mem_flatMap.mp hval
    cases ho : ctx.operations ⟨i⟩ with
    | none => simp [ho] at hval
    | some o =>
        simp only [ho, Option.map_some, Option.getD_some] at hval
        obtain ⟨r, _, rfl⟩ := List.mem_map.mp hval
        exact Or.inl ⟨⟨i⟩, o, rfl, ho, hval⟩
  · obtain ⟨i, _, hval⟩ := List.mem_flatMap.mp hval
    cases hb : ctx.basicBlocks ⟨i⟩ with
    | none => simp [hb] at hval
    | some b =>
        simp only [hb, Option.map_some, Option.getD_some] at hval
        obtain ⟨a, _, rfl⟩ := List.mem_map.mp hval
        exact Or.inr ⟨⟨i⟩, b, rfl, hb, hval⟩

/-- A value that can be lowered is known to the program. -/
theorem Sane.known (h : Sane ctx ifaces root st) (hval : st.getValState val ≠ .notAConstant) :
    ctx.DefinedWithin root val ∧ val ∈ ctx.allValues := by
  by_contra hnot
  rw [← h.rootOp] at hnot
  exact hval (h.outside val hnot)

theorem exists_valueUses (hval : val ∈ ctx.allValues) : ∃ uses, ctx.valueUses val = some uses := by
  have hfind : ∀ {l : List ValueDef} {uid : Nat}, uid ∈ l.map ValueDef.valUid →
      ∃ d, l.find? (fun r => r.valUid = uid) = some d := by
    intro l uid hmem
    obtain ⟨d, hd, rfl⟩ := List.mem_map.mp hmem
    exact Option.isSome_iff_exists.mp (List.find?_isSome.mpr ⟨d, hd, decide_eq_true rfl⟩)
  rcases mem_allValues_cases hval with ⟨op, o, hentity, ho, hmem⟩ | ⟨block, b, hentity, hb, hmem⟩
  · obtain ⟨r, hr, rfl⟩ := List.mem_map.mp hmem
    obtain ⟨d, hd⟩ := hfind (List.mem_map_of_mem hr)
    exact ⟨d.defNode.uses, by simp [Context.valueUses, Context.valueDef, ho, hd]⟩
  · obtain ⟨a, ha, rfl⟩ := List.mem_map.mp hmem
    obtain ⟨d, hd⟩ := hfind (List.mem_map_of_mem ha)
    exact ⟨d.defNode.uses, by simp [Context.valueUses, Context.valueDef, hb, hd]⟩

theorem definedInside (hval : ctx.DefinedWithin root val) (hmem : val ∈ ctx.allValues) :
    ctx.DefinedInside root val := by
  rcases mem_allValues_cases hmem with ⟨op, o, hentity, ho, hmem⟩ | ⟨block, b, hentity, hb, hmem⟩
  · simp only [Context.DefinedWithin, hentity] at hval
    exact ⟨.operation op, _, hval.2, by simp [Context.nodeValues, ho], hmem⟩
  · simp only [Context.DefinedWithin, hentity] at hval
    exact ⟨.basicBlock block, _, hval, by simp [Context.nodeValues, hb], hmem⟩

/-- Definitions inside the root dominate their uses. -/
theorem Runnable.useDominated (hrun : Runnable ctx ifaces root)
    (hval : ctx.DefinedInside root val) {uses : List Use} (huses : ctx.valueUses val = some uses)
    {use : Use} (huse : use ∈ uses) : ctx.UseDominated val use.userOp := by
  obtain ⟨node, values, hnode, hvalues, hmem⟩ := hval
  have hwalk := walkOp_decides hrun.wellFormed.nested (Context.checkNode_decides hrun.wellFormed)
    root [] (by simp [DomInfo.Valid])
  obtain ⟨⟨res, info⟩, hwalked, hres⟩ := Option.map_eq_some_iff.mp hrun.dominance
  obtain rfl : res = .ok () := hres
  by_contra hnot
  refine hwalk.2 (fun hall => hnot ?_) info hwalked
  obtain ⟨values', hvalues', hchecked⟩ := hall node hnode
  obtain rfl := Option.some.inj (hvalues.symm.trans hvalues')
  obtain ⟨uses', huses', hdom⟩ := hchecked val hmem
  obtain rfl := Option.some.inj (huses.symm.trans huses')
  exact hdom use huse

/-- The operands of a reached operation, and of the root, can be read. -/
theorem Sane.operands (h : Sane ctx ifaces root st) (hrun : Runnable ctx ifaces root)
    (hop : op = root ∨ op ∈ st.reachableOps) (hval : val ∈ ctx.opOperands op) :
    Determined ctx st val := by
  by_cases hbot : st.getValState val = .notAConstant
  · left
    rw [hbot]
    simp
  · obtain ⟨hwithin, hmem⟩ := h.known hbot
    rcases hop with rfl | hop
    · exact absurd hwithin (hrun.operands val hval)
    · obtain ⟨uses, huses⟩ := exists_valueUses hmem
      have huser := mem_valueUsers hrun.defUse hval
      unfold Context.valueUsers at huser
      rw [huses] at huser
      obtain ⟨use, huse, rfl⟩ := List.mem_map.mp huser
      exact (h.fit _ hop).available val hwithin
        (hrun.useDominated (definedInside hwithin hmem) huses huse)

/-! ## What dominates the operations that are marked -/

section Points

variable {block : BlockPtr}

omit [DecidableEq A] in
theorem opPoint_firstOp (hn : ctx.firstOp block = some n) : ctx.opPoint n block = (block, 0) := by
  unfold Context.firstOp at hn
  unfold Context.opPoint
  cases hops : ctx.blockOps block with
  | nil =>
      rw [hops] at hn
      cases hn
  | cons m rest =>
      rw [hops] at hn
      obtain rfl := Option.some.inj hn
      rw [List.idxOf_cons_self]

theorem idxOf_nextOpOf (hnest : ctx.WellNested) (hblock : ctx.opParentBlock op = some block)
    (hn : ctx.nextOpOf op = some n) :
    (ctx.blockOps block).idxOf n = (ctx.blockOps block).idxOf op + 1 ∧
      (ctx.blockOps block).idxOf op < (ctx.blockOps block).length := by
  obtain ⟨block', before, after, hblock', hops⟩ := nextOpOf_split hn
  obtain rfl := Option.some.inj (hblock.symm.trans hblock')
  have hnodup := hnest.ops_nodup block
  have hget : ∀ {i : Nat} {x : OpPtr}, (ctx.blockOps block)[i]? = some x →
      (ctx.blockOps block).idxOf x = i := by
    intro i x hx
    obtain ⟨hi, rfl⟩ := List.getElem?_eq_some_iff.mp hx
    exact hnodup.idxOf_getElem i hi
  have hop : (ctx.blockOps block)[before.length]? = some op := by
    rw [hops, List.getElem?_append_right (Nat.le_refl _), Nat.sub_self]
    rfl
  have hn' : (ctx.blockOps block)[before.length + 1]? = some n := by
    rw [hops, List.getElem?_append_right (Nat.le_succ _)]
    show (op :: n :: after)[before.length + 1 - before.length]? = some n
    rw [Nat.add_sub_cancel_left]
    rfl
  rw [hget hop, hget hn']
  exact ⟨rfl, (List.getElem?_eq_some_iff.mp hop).1⟩

theorem length_of_last (hnest : ctx.WellNested) (hblock : ctx.opParentBlock op = some block)
    (hlast : ctx.nextOpOf op = none) :
    (ctx.blockOps block).length = (ctx.blockOps block).idxOf op + 1 := by
  have hmem : op ∈ ctx.blockOps block := (hnest.op_mem block op).mpr hblock
  have hlt := List.idxOf_lt_length_of_mem hmem
  by_contra hne
  have hnext : (ctx.blockOps block).idxOf op + 1 < (ctx.blockOps block).length := by omega
  have hidx := (hnest.ops_nodup block).idxOf_getElem _ hnext
  have hafter : ctx.opsAfter op =
      ((ctx.blockOps block).dropWhile (fun o => decide (o ≠ op))).tail := by
    unfold Context.opsAfter
    rw [hblock]
  have hlater := (Context.mem_tail_dropWhile_iff (hnest.ops_nodup block)
    (List.getElem_mem hnext)).mpr (show (ctx.blockOps block).idxOf op < _ by omega)
  rw [← hafter, List.head?_eq_none_iff.mp hlast] at hlater
  exact List.not_mem_nil hlater

theorem terminator_of_last (hnest : ctx.WellNested) (hblock : ctx.opParentBlock op = some block)
    (hlast : ctx.nextOpOf op = none) {o : Operation} (ho : ctx.operations op = some o)
    (hterm : o.concreteOp.isTerminator = true) : ctx.terminator block = some op := by
  have hmem : op ∈ ctx.blockOps block := (hnest.op_mem block op).mpr hblock
  have hlen := length_of_last hnest hblock hlast
  have hend : (ctx.blockOps block).getLast? = some op := by
    rw [List.getLast?_eq_getElem?, hlen, Nat.add_sub_cancel]
    exact List.getElem?_eq_some_iff.mpr
      ⟨List.idxOf_lt_length_of_mem hmem, List.getElem_idxOf _⟩
  unfold Context.terminator
  simp [hend, ho, hterm]

end Points

section Dominance

variable (hrun : Runnable ctx ifaces root)
include hrun

/-- A definition that dominates an operation is in a graph region, in the region of the operation,
    or dominates the operation around it. -/
theorem useDominated_cases (st : SccpState A) (h : ctx.UseDominated val n) :
    Determined ctx st val ∨
    (∃ defBlock block region, ctx.valueParentBlock val = some defBlock ∧
      ctx.blockParentRegion defBlock = some region ∧ ctx.opParentBlock n = some block ∧
      ctx.opParentRegion n = some region ∧ ctx.hasSsaDominance region = some true ∧
      ctx.DefinedBefore region val defBlock n block) ∨
    ∃ parent, ctx.parentOp n = some parent ∧ ctx.UseDominated val parent := by
  obtain ⟨defBlock, region, hdef, hregion, a, block, ⟨habove, hin⟩, hblock, hssa, hgraph⟩ := h
  rcases habove.cases_head with rfl | ⟨parent, hparent, habove⟩
  · obtain ⟨b, hb⟩ := Context.exists_hasSsaDominance hrun.wellFormed hregion
    cases b with
    | true => exact Or.inr (Or.inl ⟨defBlock, block, region, hdef, hregion, hblock, hin, hb, hssa hb⟩)
    | false =>
        refine Or.inl (Or.inr ⟨region, ?_, hb⟩)
        unfold Context.valueParentRegion
        rw [hdef]
        exact hregion
  · exact Or.inr (Or.inr ⟨parent, hparent, defBlock, region, hdef, hregion, a, block,
      ⟨habove, hin⟩, hblock, hssa, hgraph⟩)

omit hrun in
theorem useDominated_of_definedBefore {defBlock block : BlockPtr} {region : RegionPtr}
    (hdef : ctx.valueParentBlock val = some defBlock)
    (hregion : ctx.blockParentRegion defBlock = some region)
    (hblock : ctx.opParentBlock n = some block) (hin : ctx.opParentRegion n = some region)
    (hssa : ctx.hasSsaDominance region = some true)
    (h : ctx.DefinedBefore region val defBlock n block) : ctx.UseDominated val n := by
  refine ⟨defBlock, region, hdef, hregion, n, block, ⟨ReflTransGen.refl, hin⟩, hblock, fun _ => h,
    fun hfalse => ?_⟩
  rw [hssa] at hfalse
  cases hfalse

omit hrun in
/-- What dominates the operation around another one dominates it. -/
theorem useDominated_of_parent {parent : OpPtr} (hparent : ctx.parentOp n = some parent)
    (h : ctx.UseDominated val parent) : ctx.UseDominated val n := by
  obtain ⟨defBlock, region, hdef, hregion, a, block, ⟨habove, hin⟩, hrest⟩ := h
  exact ⟨defBlock, region, hdef, hregion, a, block, ⟨ReflTransGen.head hparent habove, hin⟩, hrest⟩

omit hrun in
theorem above_of_parentOp {a b : OpPtr} (h : ctx.parentOp a = some b) :
    Above ctx.parentNode (.operation a) (.operation b) := by
  obtain ⟨region, hregion, hb⟩ := Option.bind_eq_some_iff.mp h
  obtain ⟨block, hblock, hregion⟩ := Option.bind_eq_some_iff.mp hregion
  refine ReflTransGen.head (b := .basicBlock block) ?_
    (ReflTransGen.head (b := .region region) ?_ (ReflTransGen.single ?_))
  · show (ctx.opParentBlock a).map IRNode.basicBlock = _
    rw [hblock]
    rfl
  · show (ctx.blockParentRegion block).map IRNode.region = _
    rw [hregion]
    rfl
  · show (ctx.regionParentOp region).map IRNode.operation = _
    rw [hb]
    rfl

omit hrun in
theorem above_of_aboveOp {a b : OpPtr} (h : Above ctx.parentOp a b) :
    Above ctx.parentNode (.operation a) (.operation b) := by
  induction h with
  | refl => exact Above.refl _
  | tail _ hstep ih => exact ih.trans (above_of_parentOp hstep)

omit hrun in
/-- The block of a definition inside the root is inside the root. -/
theorem above_defBlock {defBlock : BlockPtr} (hval : ctx.DefinedWithin root val)
    (hdef : ctx.valueParentBlock val = some defBlock) :
    Above ctx.parentNode (.basicBlock defBlock) (.operation root) := by
  unfold Context.DefinedWithin at hval
  unfold Context.valueParentBlock at hdef
  cases hentity : val.definingEntity with
  | block block =>
      simp only [hentity] at hval hdef
      obtain rfl := Option.some.inj hdef
      exact hval
  | op op =>
      simp only [hentity] at hval hdef
      rcases Above.cases_head hval.2 with heq | ⟨node, hnode, habove⟩
      · exact absurd (IRNode.operation.inj heq) hval.1
      · obtain ⟨block, hblock, rfl⟩ := Option.map_eq_some_iff.mp hnode
        obtain rfl := Option.some.inj (hdef.symm.trans hblock)
        exact habove

/-- Nothing defined inside the root dominates it. -/
theorem not_useDominated_root (hval : ctx.DefinedWithin root val) :
    ¬ ctx.UseDominated val root := by
  rintro ⟨defBlock, region, hdef, hregion, a, block, ⟨habove, hin⟩, hblock, _⟩
  have hforest := hrun.nested.isForest_node
  obtain ⟨parent, hparent, habove'⟩ : ∃ parent, ctx.regionParentOp region = some parent ∧
      Above ctx.parentNode (.operation parent) (.operation root) := by
    rcases Above.cases_head (above_defBlock hval hdef) with heq | ⟨node, hnode, habove⟩
    · cases heq
    · obtain ⟨region', hregion', rfl⟩ := Option.map_eq_some_iff.mp hnode
      obtain rfl := Option.some.inj (hregion.symm.trans hregion')
      rcases Above.cases_head habove with heq | ⟨node, hnode, habove⟩
      · cases heq
      · obtain ⟨parent, hparent, rfl⟩ := Option.map_eq_some_iff.mp hnode
        exact ⟨parent, hparent, habove⟩
  have hparentOp : ctx.parentOp a = some parent := by
    unfold Context.parentOp
    rw [hin]
    exact hparent
  have hup := above_of_parentOp hparentOp
  have ha : a = root := IRNode.operation.inj
    (hforest.antisymm (hup.trans habove') (above_of_aboveOp habove))
  subst ha
  have hp : parent = a := IRNode.operation.inj (hforest.antisymm habove' hup)
  subst hp
  obtain ⟨depth, hdepth⟩ := hrun.nested.acyclic
  exact absurd (hdepth _ _ hparentOp) (Nat.lt_irrefl _)

omit hrun in
/-- A block dominates only through its definitions: a value that dominates the first operation of
    the entry block is an argument of it. -/
theorem entry_definedBefore {defBlock block : BlockPtr} {region : RegionPtr}
    (hentry : ctx.entryBlock region = some block) (hn : ctx.firstOp block = some n)
    (h : ctx.DefinedBefore region val defBlock n block) :
    ctx.defPoint val defBlock = (block, 0) := by
  have hreach : (ctx.regionGraph region).Reachable block := ⟨block, hentry, ReflTransGen.refl⟩
  have hdom := h.1 hreach block hentry
  by_contra hne
  rw [opPoint_firstOp hn] at hdom
  exact hdom (Avoids.refl (fun heq => hne heq.symm))

/-- What dominates the next operation dominates the operation, or is a result of it. -/
theorem next_definedBefore {defBlock block : BlockPtr} {region : RegionPtr}
    (hblock : ctx.opParentBlock op = some block)
    (hlive : (ctx.regionGraph region).Reachable block) (hn : ctx.nextOpOf op = some n)
    (h : ctx.DefinedBefore region val defBlock n block) :
    ctx.DefinedBefore region val defBlock op block ∨
      ctx.defPoint val defBlock = ctx.opPoint n block := by
  by_cases hpoint : ctx.defPoint val defBlock = ctx.opPoint n block
  · exact Or.inr hpoint
  · left
    refine ⟨fun hreach r hr => ?_, fun hnot => absurd hlive hnot⟩
    have hdom := h.1 hreach r hr
    refine Dominates.pred hdom ?_ (fun heq => hpoint heq.symm)
    obtain ⟨hidx, hlt⟩ := idxOf_nextOpOf hrun.nested hblock hn
    unfold Context.opPoint Context.ProgramStep
    rw [hidx]
    exact PointStep.next hlt

/-- What dominates the first operation of a successor dominates the branch, or is a result of it
    or an argument of the successor. -/
theorem succ_definedBefore {defBlock block succ : BlockPtr} {region : RegionPtr}
    (hblock : ctx.opParentBlock op = some block)
    (hlive : (ctx.regionGraph region).Reachable block) (hlast : ctx.nextOpOf op = none)
    (hsucc : succ ∈ ctx.blockSuccs block) (hn : ctx.firstOp succ = some n)
    (h : ctx.DefinedBefore region val defBlock n succ) :
    ctx.DefinedBefore region val defBlock op block ∨
      ctx.defPoint val defBlock = (succ, 0) ∨
      ctx.defPoint val defBlock = (block, (ctx.blockOps block).idxOf op + 1) := by
  by_cases harg : ctx.defPoint val defBlock = (succ, 0)
  · exact Or.inr (Or.inl harg)
  · by_cases hres : ctx.defPoint val defBlock = (block, (ctx.blockOps block).idxOf op + 1)
    · exact Or.inr (Or.inr hres)
    · left
      refine ⟨fun hreach r hr => ?_, fun hnot => absurd hlive hnot⟩
      have hedge : (ctx.regionGraph region).Edge block succ := hsucc
      have hdom := h.1 (hreach.tail hedge) r hr
      rw [opPoint_firstOp hn] at hdom
      have hlen := length_of_last hrun.nested hblock hlast
      have hend := Dominates.pred hdom (PointStep.jump hedge) (fun heq => harg heq.symm)
      rw [hlen] at hend
      refine Dominates.pred hend ?_ (fun heq => hres heq.symm)
      exact PointStep.next (by omega)

end Dominance

/-! ## What is marked is fit for a visit -/

section Values

variable {block : BlockPtr}

theorem determined_of_args (hsane : Sane ctx ifaces root st)
    (hargs : ∀ v ∈ ctx.blockArgs block, Determined ctx st v)
    (hval : val.definingEntity = .block block) : Determined ctx st val := by
  by_cases hbot : st.getValState val = .notAConstant
  · left
    rw [hbot]
    simp
  · rcases mem_allValues_cases (hsane.known hbot).2 with
      ⟨op, o, hentity, _, _⟩ | ⟨b, bb, hentity, hb, hmem⟩
    · rw [hval] at hentity
      cases hentity
    · rw [hval] at hentity
      obtain rfl := DefiningEntity.block.inj hentity
      refine hargs val ?_
      simp only [Context.blockArgs, hb]
      exact hmem

theorem determined_of_results (hsane : Sane ctx ifaces root st)
    (hresults : ∀ v ∈ ctx.opResults op, Determined ctx st v)
    (hval : val.definingEntity = .op op) : Determined ctx st val := by
  by_cases hbot : st.getValState val = .notAConstant
  · left
    rw [hbot]
    simp
  · rcases mem_allValues_cases (hsane.known hbot).2 with
      ⟨op', o, hentity, ho, hmem⟩ | ⟨b, bb, hentity, _, _⟩
    · rw [hval] at hentity
      obtain rfl := DefiningEntity.op.inj hentity
      refine hresults val ?_
      simp only [Context.opResults, ho]
      exact hmem
    · rw [hval] at hentity
      cases hentity

omit [DecidableEq A] in
/-- What is defined at the start of a block is an argument of it. -/
theorem entity_of_defPoint_zero {defBlock : BlockPtr}
    (h : ctx.defPoint val defBlock = (block, 0)) (hdef : ctx.valueParentBlock val = some defBlock) :
    val.definingEntity = .block block := by
  unfold Context.defPoint at h
  unfold Context.valueParentBlock at hdef
  cases hentity : val.definingEntity with
  | op op =>
      simp only [hentity] at h
      exact absurd (congrArg Prod.snd h) (Nat.succ_ne_zero _)
  | block b =>
      simp only [hentity] at h hdef
      obtain rfl := Option.some.inj hdef
      obtain rfl : b = block := congrArg Prod.fst h
      rfl

omit [DecidableEq A] in
/-- What is defined after an operation is a result of it. -/
theorem entity_of_defPoint_succ (hnest : ctx.WellNested) {defBlock : BlockPtr}
    (h : ctx.defPoint val defBlock = (block, (ctx.blockOps block).idxOf op + 1))
    (hdef : ctx.valueParentBlock val = some defBlock) : val.definingEntity = .op op := by
  unfold Context.defPoint at h
  unfold Context.valueParentBlock at hdef
  cases hentity : val.definingEntity with
  | op m =>
      simp only [hentity] at h hdef
      obtain rfl : defBlock = block := congrArg Prod.fst h
      have hidx : (ctx.blockOps defBlock).idxOf m = (ctx.blockOps defBlock).idxOf op :=
        Nat.succ_injective (congrArg Prod.snd h)
      have hmem : m ∈ ctx.blockOps defBlock := (hnest.op_mem defBlock m).mpr hdef
      rw [(List.idxOf_inj hmem).mp hidx]
  | block b =>
      simp only [hentity] at h
      exact absurd (congrArg Prod.snd h).symm (Nat.succ_ne_zero _)

end Values

section Marked

variable (hrun : Runnable ctx ifaces root) (hsane : Sane ctx ifaces root st)
include hrun hsane

omit hrun in
theorem Sane.parent_around (hop : op ∈ st.reachableOps) :
    ∃ parent, ctx.parentOp op = some parent ∧ (parent = root ∨ parent ∈ st.reachableOps) := by
  obtain ⟨parent, hparent, hcase⟩ := (hsane.fit op hop).inner.1
  rw [hsane.rootOp] at hcase
  exact ⟨parent, hparent, hcase⟩

/-- What dominates an operation that is analyzed is determined. -/
theorem Sane.determined_of_dominates (hop : op = root ∨ op ∈ st.reachableOps)
    (hval : ctx.DefinedWithin root val) (h : ctx.UseDominated val op) : Determined ctx st val := by
  rcases hop with rfl | hop
  · exact absurd h (not_useDominated_root hrun hval)
  · exact (hsane.fit op hop).available val hval h

/-- The first operation of a region whose arguments are determined. -/
theorem fit_entry {region : RegionPtr} (hop : op = root ∨ op ∈ st.reachableOps)
    (hregion : region ∈ ctx.opRegions op) (hn : ctx.entryOp region = some n)
    (hargs : ∀ v ∈ ctx.entryArgs region, Determined ctx st v)
    (hslots : op ≠ root → SlotsDetermined ctx ifaces st op) : Fit ctx ifaces root st n := by
  have hnest := hrun.nested
  have hparent := parentOp_entryOp hnest hregion hn
  obtain ⟨entry, hentry, hfirst⟩ := Option.bind_eq_some_iff.mp hn
  have hblock : ctx.opParentBlock n = some entry :=
    (hnest.op_mem entry n).mp (List.mem_of_mem_head? hfirst)
  have hin : ctx.blockParentRegion entry = some region :=
    (hnest.block_mem region entry).mp (List.mem_of_mem_head? hentry)
  refine ⟨⟨⟨op, hparent, ?_⟩, fun m hm => absurd hm (nextOpOf_ne_entryOp hnest hn)⟩, ?_, ?_, ?_⟩
  · rw [hsane.rootOp]
    exact hop
  · intro val hval hdom
    rcases useDominated_cases hrun st hdom with hdet | hcase | ⟨parent, hparent', hdom⟩
    · exact hdet
    · obtain ⟨defBlock, block, region', hdef, _, hblock', hregion', _, hbefore⟩ := hcase
      obtain rfl := Option.some.inj (hblock.symm.trans hblock')
      have heq : region' = region := by
        have h : (ctx.opParentBlock n).bind ctx.blockParentRegion = some region' := hregion'
        rw [hblock, Option.bind_some, hin] at h
        exact (Option.some.inj h).symm
      subst heq
      have hentity := entity_of_defPoint_zero (entry_definedBefore hentry hfirst hbefore) hdef
      refine determined_of_args hsane ?_ hentity
      have hblockArgs : ctx.entryArgs region' = ctx.blockArgs entry := by
        unfold Context.entryArgs Context.blockArgs
        rw [hentry]
        rfl
      rwa [← hblockArgs]
    · obtain rfl := Option.some.inj (hparent.symm.trans hparent')
      exact hsane.determined_of_dominates hrun hop hval hdom
  · intro block region' hblock' hregion'
    obtain rfl := Option.some.inj (hblock.symm.trans hblock')
    obtain rfl := Option.some.inj (hin.symm.trans hregion')
    exact ⟨entry, hentry, ReflTransGen.refl⟩
  · intro parent hparent' hne
    obtain rfl := Option.some.inj (hparent.symm.trans hparent')
    exact hslots hne

/-- The operation after one whose results are determined. -/
theorem fit_next (hop : op ∈ st.reachableOps) (hn : ctx.nextOpOf op = some n)
    (hresults : ∀ v ∈ ctx.opResults op, Determined ctx st v) : Fit ctx ifaces root st n := by
  have hnest := hrun.nested
  have hfit := hsane.fit op hop
  have hsame := opParentBlock_nextOpOf hnest hn
  obtain ⟨block, _, _, hblock, _⟩ := nextOpOf_split hn
  have hregions : ctx.opParentRegion n = ctx.opParentRegion op := by
    unfold Context.opParentRegion
    rw [hsame]
  have hparents : ctx.parentOp n = ctx.parentOp op := by
    unfold Context.parentOp
    rw [hregions]
  refine ⟨⟨?_, fun m hm => ?_⟩, ?_, ?_, ?_⟩
  · rw [hparents]
    exact hfit.inner.1
  · rw [nextOpOf_injective hnest hm hn]
    exact hop
  · intro val hval hdom
    rcases useDominated_cases hrun st hdom with hdet | hcase | ⟨parent, hparent, hdom⟩
    · exact hdet
    · obtain ⟨defBlock, block', region, hdef, hregion, hblock', hin, hssa, hbefore⟩ := hcase
      obtain rfl := Option.some.inj (hblock.symm.trans (hsame ▸ hblock'))
      have hin' : ctx.opParentRegion op = some region := hregions ▸ hin
      have hregion' : ctx.blockParentRegion block = some region := by
        have h : (ctx.opParentBlock op).bind ctx.blockParentRegion = some region := hin'
        rwa [hblock, Option.bind_some] at h
      have hlive := hfit.live block region hblock hregion'
      rcases next_definedBefore hrun hblock hlive hn hbefore with hbefore | hpoint
      · exact hfit.available val hval
          (useDominated_of_definedBefore hdef hregion hblock hin' hssa hbefore)
      · unfold Context.opPoint at hpoint
        rw [(idxOf_nextOpOf hnest hblock hn).1] at hpoint
        exact determined_of_results hsane hresults (entity_of_defPoint_succ hnest hpoint hdef)
    · exact hfit.available val hval (useDominated_of_parent (hparents ▸ hparent) hdom)
  · rw [hsame]
    exact hfit.live
  · intro parent hparent hne
    exact hfit.slots parent (hparents ▸ hparent) hne

/-- The first operation of a successor whose arguments are determined. -/
theorem fit_succ {succ : BlockPtr} {o : Operation} (hop : op ∈ st.reachableOps)
    (ho : ctx.operations op = some o) (hterm : o.concreteOp.isTerminator = true)
    (hnone : ctx.opResults op = []) (hsucc : succ ∈ o.successorDefs)
    (hn : ctx.firstOp succ = some n)
    (hargs : ∀ v ∈ ctx.blockArgs succ, Determined ctx st v) : Fit ctx ifaces root st n := by
  have hnest := hrun.nested
  have hfit := hsane.fit op hop
  have hlast := hrun.last op o ho hterm
  obtain ⟨parent, hparent, hcase⟩ := hfit.inner.1
  obtain ⟨region, hin, hparent'⟩ := Option.bind_eq_some_iff.mp hparent
  obtain ⟨block, hblock, hregion⟩ := Option.bind_eq_some_iff.mp hin
  have hsuccRegion := hrun.succs op o ho succ hsucc region hin
  have hblockN : ctx.opParentBlock n = some succ :=
    (hnest.op_mem succ n).mp (List.mem_of_mem_head? hn)
  have hparentN : ctx.parentOp n = some parent := by
    rw [parentOp_firstOp hnest hsuccRegion hn]
    exact hparent'
  have hlive := hfit.live block region hblock hregion
  have hsuccs : succ ∈ ctx.blockSuccs block := by
    unfold Context.blockSuccs
    rw [terminator_of_last hnest hblock hlast ho hterm, Option.bind_some, ho]
    exact hsucc
  refine ⟨⟨⟨parent, hparentN, hcase⟩, fun m hm => absurd hm (nextOpOf_ne_firstOp hnest hn)⟩,
    ?_, ?_, ?_⟩
  · intro val hval hdom
    rcases useDominated_cases hrun st hdom with hdet | hcase | ⟨parent', hparent'', hdom⟩
    · exact hdet
    · obtain ⟨defBlock, block', region', hdef, hregion', hblock', hin', hssa, hbefore⟩ := hcase
      obtain rfl := Option.some.inj (hblockN.symm.trans hblock')
      have heq : region = region' := by
        have h : (ctx.opParentBlock n).bind ctx.blockParentRegion = some region' := hin'
        rw [hblockN, Option.bind_some, hsuccRegion] at h
        exact Option.some.inj h
      subst heq
      rcases succ_definedBefore hrun hblock hlive hlast hsuccs hn hbefore with
        hbefore | hpoint | hpoint
      · exact hfit.available val hval
          (useDominated_of_definedBefore hdef hregion' hblock hin hssa hbefore)
      · exact determined_of_args hsane hargs (entity_of_defPoint_zero hpoint hdef)
      · refine determined_of_results hsane ?_ (entity_of_defPoint_succ hnest hpoint hdef)
        rw [hnone]
        exact fun v hv => absurd hv List.not_mem_nil
    · obtain rfl := Option.some.inj (hparentN.symm.trans hparent'')
      exact hfit.available val hval (useDominated_of_parent hparent hdom)
  · intro block' region' hblock' hregion'
    obtain rfl := Option.some.inj (hblockN.symm.trans hblock')
    obtain rfl := Option.some.inj (hsuccRegion.symm.trans hregion')
    obtain ⟨r, hr, hreach⟩ := hlive
    exact ⟨r, hr, hreach.tail hsuccs⟩
  · intro parent' hparent'' hne
    obtain rfl := Option.some.inj (hparentN.symm.trans hparent'')
    exact hfit.slots parent hparent hne

end Marked

end Sccp

end Pliron
