/-
  Pliron.Analyses.LivenessPointsCorrect

  Points that denote the same place get the same answer, but at the start of a
  block.

  `LiveAt` says what each kind of point is answered, in terms of the queries on
  blocks and of the uses in the rest of the block.  The end of a block and the
  point after its last operation agree, and so do the points between two
  operations.  The start of a block is answered by the live-in query alone, which
  says no in the block of the definition, and elsewhere misses what its shortcut
  on reducible graphs misses, while the point before the first operation looks at
  the uses in the block and at the live-out query.
-/

import Pliron.Analyses.LivenessShortcut
import Pliron.Analyses.LivenessPoints
import Pliron.IR.Verify

namespace Pliron

open Pliron.Lib Relation

/-! ## The state only caches -/

namespace Liveness

/-- What is cached is what would be computed. -/
structure Valid (ctx : Context) (liveness : Liveness) : Prop where
  domInfo : DomInfo.Valid ctx liveness.domInfo
  regions : ∀ region info, liveness.regions region = some info →
    LivenessTq.ofRegion ctx region = some info

variable {ctx : Context} {region : RegionPtr}

theorem withDomInfo_returns {α : Type} {m : StateT DomInfo Option α} {a : α}
    (h : Returns (DomInfo.Valid ctx) m a) : Returns (Valid ctx) (withDomInfo m) a := by
  intro liveness hvalid
  obtain ⟨info, hrun, hinfo⟩ := h liveness.domInfo hvalid.domInfo
  refine ⟨{ liveness with domInfo := info }, ?_, hinfo, hvalid.regions⟩
  simp [withDomInfo, hrun]

theorem getRegionInfo_returns {lv : LivenessTq BlockPtr}
    (h : LivenessTq.ofRegion ctx region = some lv) :
    Returns (Valid ctx) (getRegionInfo ctx region) lv := by
  obtain ⟨tree, htree, hnew⟩ := Option.bind_eq_some_iff.mp h
  refine .bind (withDomInfo_returns (DomInfo.getDomTree_returns htree)) ?_
  intro liveness hvalid
  cases hget : liveness.regions region with
  | some info =>
      obtain rfl := Option.some.inj ((hvalid.regions region info hget).symm.trans h)
      exact ⟨liveness, by simp [hget], hvalid⟩
  | none =>
      refine ⟨{ liveness with regions := liveness.regions.insert region lv },
        by simp [hget, hnew], hvalid.domInfo, ?_⟩
      intro r info hr
      rcases HMap.insert_eq_some_iff.mp hr with ⟨rfl, rfl⟩ | ⟨-, hr⟩
      · exact h
      · exact hvalid.regions r info hr

end Liveness

namespace Context

variable {ctx : Context}

/-! ## Edges between regions -/

section RegionEdges

variable {edges : List RegionEdge}

theorem successorRegions_subset (source : RegionPtr) :
    ctx.successorRegions edges source ⊆ edges.filterMap (fun edge =>
      match edge.target with
      | .region target => some target
      | .after => none) := by
  intro target htarget
  rcases ISet.mem_extend.mp htarget with hnil | hmem
  · exact absurd hnil List.not_mem_nil
  · obtain ⟨edge, hedge, hsome⟩ := List.mem_filterMap.mp hmem
    refine List.mem_filterMap.mpr ⟨edge, hedge, ?_⟩
    cases htarget : edge.target with
    | after => simp [htarget] at hsome
    | region t =>
        simp only [htarget] at hsome ⊢
        split at hsome
        · exact hsome
        · exact nomatch hsome

/-- Each round takes one region off the worklist, and puts those on it that are new. -/
theorem reachTargets_spec {all targets : List RegionPtr} (htargets : targets ⊆ all)
    {reachable : List RegionPtr} (worklist : List RegionPtr) (hnodup : reachable.Nodup)
    (hall : reachable ⊆ all) :
    ∃ reachable' worklist', reachTargets (reachable, worklist) targets = (reachable', worklist') ∧
      reachable'.Nodup ∧ reachable' ⊆ all ∧
      worklist'.length + reachable.length = worklist.length + reachable'.length := by
  induction targets generalizing reachable worklist with
  | nil => exact ⟨reachable, worklist, rfl, hnodup, hall, by omega⟩
  | cons target targets ih =>
      have hrest : targets ⊆ all := fun x hx => htargets (List.mem_cons_of_mem target hx)
      rw [reachTargets, List.foldl_cons]
      by_cases hmem : target ∈ reachable
      · rw [if_pos hmem]
        exact ih hrest worklist hnodup hall
      · -- a new region is found, and added to both lists
        rw [if_neg hmem]
        have hnodup' : (reachable ++ [target]).Nodup := by
          refine List.nodup_append.mpr ⟨hnodup, List.nodup_singleton target, ?_⟩
          rintro x hx y hy rfl
          exact hmem (List.mem_singleton.mp hy ▸ hx)
        have hall' : reachable ++ [target] ⊆ all := by
          refine List.append_subset.mpr ⟨hall, ?_⟩
          simpa using htargets List.mem_cons_self
        obtain ⟨reachable', worklist', hrun, hnd, hsub, hlen⟩ :=
          ih hrest (target :: worklist) hnodup' hall'
        refine ⟨reachable', worklist', hrun, hnd, hsub, ?_⟩
        simp only [List.length_append, List.length_cons, List.length_nil] at hlen
        omega

theorem reachLoop_isSome {all : List RegionPtr}
    (hall : ∀ source, ctx.successorRegions edges source ⊆ all) {fuel : Nat}
    {reachable worklist : List RegionPtr} (hnodup : reachable.Nodup) (hsub : reachable ⊆ all)
    (hfuel : worklist.length + all.length ≤ fuel + reachable.length) :
    ∃ found, ctx.reachLoop edges fuel (reachable, worklist) = some found := by
  induction fuel generalizing reachable worklist with
  | zero =>
      have hlen : reachable.length ≤ all.length := (hnodup.subperm hsub).length_le
      obtain rfl : worklist = [] := List.eq_nil_of_length_eq_zero (by omega)
      exact ⟨reachable, rfl⟩
  | succ fuel ih =>
      cases worklist with
      | nil => exact ⟨reachable, rfl⟩
      | cons source worklist =>
          obtain ⟨reachable', worklist', hrun, hnd, hsub', hlen⟩ :=
            reachTargets_spec (hall source) worklist hnodup hsub
          rw [reachLoop, hrun]
          refine ih hnd hsub' ?_
          simp only [List.length_cons] at hfuel
          omega

/-- The reachable regions are found. -/
theorem reachableRegions_isSome (region : RegionPtr) :
    ∃ found, ctx.reachableRegions edges region = some found := by
  refine reachLoop_isSome successorRegions_subset List.nodup_nil (List.nil_subset _) ?_
  have hlen := List.length_filterMap_le (fun edge : RegionEdge =>
    match edge.target with
    | .region target => some target
    | .after => none) edges
  simp only [List.length_cons, List.length_nil]
  omega

end RegionEdges

/-! ## Points and the operations of their block -/

/-- Two points that denote the same place. -/
inductive SamePlace (ctx : Context) : OpInsertionPoint → OpInsertionPoint → Prop where
  | blockStart {block : BlockPtr} {op : OpPtr} {rest : List OpPtr}
      (h : ctx.blockOps block = op :: rest) :
      SamePlace ctx (.set (.atFront block)) (.set (.before op))
  | blockEnd {block : BlockPtr} {op : OpPtr} {front : List OpPtr}
      (h : ctx.blockOps block = front ++ [op]) :
      SamePlace ctx (.set (.atBack block)) (.set (.after op))
  | between {block : BlockPtr} {op next : OpPtr} {front rest : List OpPtr}
      (h : ctx.blockOps block = front ++ op :: next :: rest) :
      SamePlace ctx (.set (.after op)) (.set (.before next))

section Blocks

variable (h : ctx.WellNested) {block : BlockPtr} {op user : OpPtr} {front rest : List OpPtr}

include h

theorem opParentBlock_of_split (hops : ctx.blockOps block = front ++ op :: rest) :
    ctx.opParentBlock op = some block := by
  rw [← h.op_mem, hops]
  simp

theorem idxOf_of_split (hops : ctx.blockOps block = front ++ op :: rest) :
    (ctx.blockOps block).idxOf op = front.length := by
  have hnodup := h.ops_nodup block
  rw [hops] at hnodup ⊢
  have hnot : op ∉ front := fun hmem =>
    List.disjoint_of_nodup_append hnodup hmem List.mem_cons_self
  rw [List.idxOf_append_of_notMem hnot, List.idxOf_cons_self, Nat.add_zero]

/-- The operations after another one are the rest of its block. -/
theorem opsAfter_of_split (hops : ctx.blockOps block = front ++ op :: rest) :
    ctx.opsAfter op = rest := by
  have hnodup := h.ops_nodup block
  rw [opsAfter, opParentBlock_of_split h hops]
  simp only [hops]
  rw [hops] at hnodup
  have hnot : ∀ o ∈ front, o ≠ op := by
    rintro o hmem rfl
    exact List.disjoint_of_nodup_append hnodup hmem List.mem_cons_self
  rw [List.dropWhile_append_of_pos (by simpa using hnot), List.dropWhile_cons_of_neg (by simp),
    List.tail_cons]

/-- Points that denote the same place are in the same block. -/
theorem SamePlace.getInsertionBlock {point point' : OpInsertionPoint}
    (hsame : ctx.SamePlace point point') :
    ∃ block, ctx.getInsertionBlock point = some block ∧
      ctx.getInsertionBlock point' = some block := by
  cases hsame with
  | @blockStart block op rest hops =>
      have hfirst : ctx.blockOps block = [] ++ op :: rest := hops
      exact ⟨block, rfl, opParentBlock_of_split h hfirst⟩
  | @blockEnd block op front hops => exact ⟨block, rfl, opParentBlock_of_split h hops⟩
  | @between block op next front rest hops =>
      have hnext : ctx.blockOps block = (front ++ [op]) ++ next :: rest := by simpa using hops
      exact ⟨block, opParentBlock_of_split h hops, opParentBlock_of_split h hnext⟩

omit h in
theorem ancestorOpInBlockLoop_eq_climb (target : BlockPtr) (fuel : Nat) (op : OpPtr) :
    ctx.ancestorOpInBlockLoop target fuel op =
      climb ctx.opParentBlock ctx.blockParentOp target fuel op := by
  induction fuel generalizing op with
  | zero => rfl
  | succ fuel ih =>
      simp only [ancestorOpInBlockLoop, climb, Option.bind_eq_bind]
      refine congrArg _ (funext fun parentBlock => ?_)
      split
      · rfl
      · exact congrArg _ (funext ih)

omit h in
theorem parentOp_eq (op : OpPtr) :
    ctx.parentOp op = (ctx.opParentBlock op).bind ctx.blockParentOp := by
  rw [parentOp, opParentRegion_eq, Option.bind_assoc]
  rfl

/-- The search finds the ancestor operation in a block, if there is one. -/
theorem findAncestorOpInBlock_eq_some_iff {ancestor : OpPtr} :
    ctx.findAncestorOpOfOpInBlock op block = some ancestor ↔
      Above ctx.parentOp op ancestor ∧ ctx.opParentBlock ancestor = some block := by
  have hforest : IsForest (fun x => (ctx.opParentBlock x).bind ctx.blockParentOp) OpPtr.idx
      ctx.nextOp := by
    have hparent : (fun x => (ctx.opParentBlock x).bind ctx.blockParentOp) =
        fun x => (ctx.opParentRegion x).bind ctx.regionParentOp :=
      funext fun x => (parentOp_eq x).symm
    rw [hparent]
    exact h.isForest_op
  rw [findAncestorOpOfOpInBlock, ancestorOpInBlockLoop_eq_climb, climb_eq_some_iff hforest]
  have hparent : (fun x => (ctx.opParentBlock x).bind ctx.blockParentOp) = ctx.parentOp :=
    funext fun x => (parentOp_eq x).symm
  rw [hparent]

end Blocks

/-! ## A value of a region, and its uses -/

/-- `value` is defined in block `d` of the region, and dominates all its uses. -/
structure RegionValue (ctx : Context) (region : RegionPtr) (value : Value) (d : BlockPtr) :
    Prop where
  wellFormed : ctx.WellFormed
  defBlock : ctx.valueParentBlock value = some d
  defRegion : ctx.blockParentRegion d = some region
  used : ∃ uses, ctx.valueUses value = some uses ∧
    ∀ use ∈ uses, ctx.UseDominated value use.userOp

/-- One of `ops`, of block `block`, uses `value` or contains a use. -/
def UsedFrom (ctx : Context) (value : Value) (block : BlockPtr) (ops : List OpPtr) : Prop :=
  ∃ uses, ctx.valueUses value = some uses ∧ ∃ use ∈ uses, ∃ op ∈ ops,
    ctx.findAncestorOpOfOpInBlock use.userOp block = some op

section Uses

variable {region : RegionPtr} {value : Value} {d block : BlockPtr} {op user : OpPtr}

/-- The scan of the rest of a block. -/
theorem hasLocalUseAfterPoint_spec (h : ctx.RegionValue region value d) {point : OpInsertionPoint}
    {ops : List OpPtr} (hblock : ctx.getInsertionBlock point = some block)
    (hops : ctx.opsFrom point = some ops) :
    ∃ b, ctx.hasLocalUseAfterPoint value point = some b ∧
      (b = true ↔ ctx.UsedFrom value block ops) := by
  obtain ⟨uses, huses, -⟩ := h.used
  refine ⟨_, by simp only [hasLocalUseAfterPoint, hblock, huses, hops]; rfl, ?_⟩
  simp only [List.any_eq_true, decide_eq_true_eq, List.mem_filterMap]
  constructor
  · rintro ⟨o, ho, use, huse, hanc⟩
    exact ⟨uses, huses, use, huse, o, ho, hanc⟩
  · rintro ⟨uses', huses', use, huse, o, ho, hanc⟩
    obtain rfl := Option.some.inj (huses.symm.trans huses')
    exact ⟨o, ho, use, huse, hanc⟩

/-- The rule for an operation that lies in the region itself. -/
theorem useDominated_in_region (h : ctx.RegionValue region value d) {ssa : Bool}
    (hssa : ctx.hasSsaDominance region = some ssa)
    (hop : ctx.opParentBlock op = some block) (hregion : ctx.blockParentRegion block = some region)
    (huser : Above ctx.parentOp user op) :
    ctx.UseDominated value user ↔
      if block = d ∧ ssa = true then (ctx.defPoint value d).2 ≤ (ctx.blockOps block).idxOf op
      else ctx.DefinedInGraph region d block := by
  have hanc : ctx.findAncestorOpOfOpInRegion user region = some op :=
    h.wellFormed.nested.findAncestorOp_eq_some_iff.mpr
      ⟨huser, opParentRegion_eq_some.mpr ⟨block, hop, hregion⟩⟩
  have hk : (ctx.defPoint value d).2 ≤ (ctx.blockOps d).length := by
    obtain ⟨valUid, o | b⟩ := value
    · have hmem : o ∈ ctx.blockOps d := (h.wellFormed.nested.op_mem d o).mpr h.defBlock
      exact List.idxOf_lt_length_of_mem hmem
    · exact Nat.zero_le _
  rw [useDominated_iff h.wellFormed h.defBlock h.defRegion hssa hanc hop]
  cases ssa with
  | false => simp
  | true =>
      rw [if_pos rfl, definedBefore_iff h.wellFormed hk h.defRegion]
      simp only [and_true]

theorem definedInGraph_of_user (h : ctx.RegionValue region value d)
    (hop : ctx.opParentBlock op = some block) (hregion : ctx.blockParentRegion block = some region)
    (habove : Above ctx.parentOp user op) (huse : ctx.UseDominated value user) :
    ctx.DefinedInGraph region d block := by
  obtain ⟨ssa, hssa⟩ := exists_hasSsaDominance h.wellFormed h.defRegion
  rw [useDominated_in_region h hssa hop hregion habove] at huse
  split at huse
  · next hcase => exact Or.inl hcase.1
  · exact huse

/-- A use lies in an operation of the region, in a block that the definition dominates. -/
theorem exists_user (h : ctx.RegionValue region value d)
    (huse : ctx.UseDominated value user) :
    ∃ op block, Above ctx.parentOp user op ∧ ctx.opParentBlock op = some block ∧
      ctx.blockParentRegion block = some region ∧ ctx.DefinedInGraph region d block := by
  have hall := huse
  obtain ⟨d', region', hd', hregion', op, block, ⟨habove, hopr⟩, hblock, -, -⟩ := huse
  obtain rfl := Option.some.inj (h.defBlock.symm.trans hd')
  obtain rfl := Option.some.inj (h.defRegion.symm.trans hregion')
  obtain ⟨block', hblock', hblockr⟩ := opParentRegion_eq_some.mp hopr
  obtain rfl := Option.some.inj (hblock.symm.trans hblock')
  exact ⟨op, block, habove, hblock, hblockr, definedInGraph_of_user h hblock hblockr habove hall⟩

/-- The block of a use is that of the operation of the region that contains it. -/
theorem useBlockIn_eq_some_iff (h : ctx.WellNested) {use : Use}
    (hregion : ctx.blockParentRegion block = some region) :
    ctx.useBlockIn region use = some block ↔
      ∃ op, Above ctx.parentOp use.userOp op ∧ ctx.opParentBlock op = some block := by
  rw [useBlockIn]
  constructor
  · intro huse
    obtain ⟨userBlock, huser, hfind⟩ := Option.bind_eq_some_iff.mp huse
    rw [h.findAncestorBlock_eq region huser] at hfind
    obtain ⟨op, hop, hblock⟩ := Option.bind_eq_some_iff.mp hfind
    exact ⟨op, (h.findAncestorOp_eq_some_iff.mp hop).1, hblock⟩
  · rintro ⟨op, habove, hblock⟩
    have hop := h.findAncestorOp_eq_some_iff.mpr
      ⟨habove, opParentRegion_eq_some.mpr ⟨block, hblock, hregion⟩⟩
    have huser : ∃ userBlock, ctx.opParentBlock use.userOp = some userBlock := by
      rcases habove.cases_head with heq | ⟨parent, hparent, -⟩
      · exact ⟨block, heq ▸ hblock⟩
      · rw [parentOp_eq] at hparent
        obtain ⟨userBlock, huser, -⟩ := Option.bind_eq_some_iff.mp hparent
        exact ⟨userBlock, huser⟩
    obtain ⟨userBlock, huser⟩ := huser
    rw [huser, Option.bind_some, h.findAncestorBlock_eq region huser, hop]
    exact hblock

/-- A use in one of all operations of a block is a use in the block. -/
theorem usedFrom_blockOps_iff (h : ctx.WellNested)
    (hregion : ctx.blockParentRegion block = some region) :
    ctx.UsedFrom value block (ctx.blockOps block) ↔ ctx.UsedIn region value block := by
  constructor
  · rintro ⟨uses, huses, use, huse, op, -, hanc⟩
    refine ⟨uses, huses, use, huse, (useBlockIn_eq_some_iff h hregion).mpr ⟨op, ?_⟩⟩
    exact (findAncestorOpInBlock_eq_some_iff h).mp hanc
  · rintro ⟨uses, huses, use, huse, hblock⟩
    obtain ⟨op, habove, hop⟩ := (useBlockIn_eq_some_iff h hregion).mp hblock
    exact ⟨uses, huses, use, huse, op, (h.op_mem block op).mpr hop,
      (findAncestorOpInBlock_eq_some_iff h).mpr ⟨habove, hop⟩⟩

/-- A used value has a use in some block that its definition dominates. -/
theorem exists_usedIn (h : ctx.RegionValue region value d) {uses : List Use}
    (huses : ctx.valueUses value = some uses) (hne : uses ≠ []) :
    ∃ block, ctx.UsedIn region value block ∧ ctx.DefinedInGraph region d block := by
  obtain ⟨uses', huses', hall⟩ := h.used
  obtain rfl := Option.some.inj (huses.symm.trans huses')
  obtain ⟨use, huse⟩ := List.exists_mem_of_ne_nil uses hne
  obtain ⟨op, block, habove, hop, hregion, hdef⟩ := exists_user h (hall use huse)
  exact ⟨block, ⟨uses, huses, use, huse,
    (useBlockIn_eq_some_iff h.wellFormed.nested hregion).mpr ⟨op, habove, hop⟩⟩, hdef⟩

end Uses

end Context

/-! ## What each point is answered -/

namespace Liveness

open LivenessTq

section Answers

variable (ctx : Context) (region : RegionPtr) (r d : BlockPtr) (value : Value)

/-- What the live-in query answers for a block of the region. -/
def AnsweredIn (q : BlockPtr) : Prop :=
  Reach (ctx.regionGraph region).Edge r q ∧
    StrictlyDominates (ctx.regionGraph region).Edge r d q ∧
    SeenIn (ctx.regionGraph region) r d (ctx.UsedIn region value) q

/-- What the live-out query answers for a block of the region. -/
def AnsweredOut (q : BlockPtr) : Prop :=
  Reach (ctx.regionGraph region).Edge r q ∧
    ((q = d ∧ ∃ u, ctx.UsedIn region value u ∧ u ≠ d) ∨
      (StrictlyDominates (ctx.regionGraph region).Edge r d q ∧
        SeenOut (ctx.regionGraph region) r d (ctx.UsedIn region value) q))

/-- Does `value` dominate the point after `op`? -/
def DominatesAfter (op : OpPtr) : Prop :=
  ∀ valueDefOp, value.definingEntity = .op valueDefOp → valueDefOp ≠ op →
    ctx.UseDominated value op

/-- What is answered for a point of the region, in block `q`. -/
def LiveAt (q : BlockPtr) : Context.OpInsertionPoint → Prop
  | .unset => False
  | .set (.atFront _) => AnsweredIn ctx region r d value q
  | .set (.atBack _) => AnsweredOut ctx region r d value q
  | .set (.before op) => ctx.UseDominated value op ∧
      (ctx.UsedFrom value q (op :: ctx.opsAfter op) ∨ AnsweredOut ctx region r d value q)
  | .set (.after op) => DominatesAfter ctx value op ∧
      (ctx.UsedFrom value q (ctx.opsAfter op) ∨ AnsweredOut ctx region r d value q)

end Answers

section Queries

variable {ctx : Context} {region : RegionPtr} {r d q : BlockPtr} {value : Value} {op : OpPtr}
  (h : ctx.RegionValue region value d) (hr : ctx.entryBlock region = some r)

include h hr

/-- The queries on blocks apply when control reaches the definition and the query. -/
theorem livenessQuery (hq : ctx.blockParentRegion q = some region)
    (hreach : Reach (ctx.regionGraph region).Edge r q)
    (hdr : Reach (ctx.regionGraph region).Edge r d) : ctx.LivenessQuery region r value d q where
  graph := h.wellFormed.graph region
  entry := hr
  defBlock := h.defBlock
  defRegion := h.defRegion
  queryRegion := hq
  queryReach := hreach
  defined := by
    obtain ⟨uses, huses, hall⟩ := h.used
    refine ⟨uses, huses, fun use huse => ?_⟩
    obtain ⟨op, block, habove, hop, hregion, hdef⟩ := Context.exists_user h (hall use huse)
    refine ⟨block, (Context.useBlockIn_eq_some_iff h.wellFormed.nested hregion).mpr
      ⟨op, habove, hop⟩, ?_⟩
    rcases hdef with rfl | ⟨⟨r', hr', hreach'⟩, hdom⟩
    · exact ⟨hdr, Dominates.refl _⟩
    · obtain rfl := Option.some.inj (hr.symm.trans hr')
      exact ⟨hreach', hdom r hr⟩

/-- Both queries say no when control does not reach the definition and the query. -/
theorem blockQueries_of_not_reach (hq : ctx.blockParentRegion q = some region)
    (hnot : ¬ (Reach (ctx.regionGraph region).Edge r q ∧
      Reach (ctx.regionGraph region).Edge r d)) :
    ∃ lv, ofRegion ctx region = some lv ∧
      lv.isLiveInAtBlock ctx region value q = some false ∧
      lv.isLiveOutOfBlock ctx region value q = some false := by
  have hgraph := h.wellFormed.graph region
  obtain ⟨lv, hlv, hspec⟩ := ofRegion_spec hgraph hr
  have hguard : ctx.blockParentRegion q = some region ∧ ctx.blockParentRegion d = some region :=
    ⟨hq, h.defRegion⟩
  have hindex : ∀ {b}, ¬ Reach (ctx.regionGraph region).Edge r b → lv.blockIndex b = none :=
    fun hb => hspec.blockIndex_eq_none fun hmem =>
      hb ((Dominance.mem_rpo hgraph (hgraph.entry_mem hr)).mp hmem)
  refine ⟨lv, hlv, ?_⟩
  by_cases hdr : Reach (ctx.regionGraph region).Edge r d
  · have hqi := hindex fun hqr => hnot ⟨hqr, hdr⟩
    cases hdi : lv.blockIndex d <;>
      simp [isLiveInAtBlock, LivenessTq.isLiveOutOfBlock, h.defBlock, hguard, guard, hqi]
  · have hdi := hindex hdr
    simp [isLiveInAtBlock, LivenessTq.isLiveOutOfBlock, h.defBlock, hguard, guard, hdi]

theorem isLiveInAtBlock_returns (hq : ctx.blockParentRegion q = some region) :
    ∃ b, Returns (Valid ctx)
        (isLiveInDefRegion ctx value region (.set (.atFront q))) b ∧
      (b = true ↔ AnsweredIn ctx region r d value q) := by
  by_cases hreach : Reach (ctx.regionGraph region).Edge r q ∧
      Reach (ctx.regionGraph region).Edge r d
  · obtain ⟨lv, b, hlv, hb, hiff⟩ := isLiveInAtBlock_spec (livenessQuery h hr hq hreach.1 hreach.2)
    refine ⟨b, .bind (getRegionInfo_returns hlv) (.lift hb), ?_⟩
    rw [hiff, AnsweredIn, and_iff_right hreach.1]
  · obtain ⟨lv, hlv, hin, -⟩ := blockQueries_of_not_reach h hr hq hreach
    refine ⟨false, .bind (getRegionInfo_returns hlv) (.lift hin), ?_⟩
    simp only [Bool.false_eq_true, false_iff]
    rintro ⟨hqr, hdq, -⟩
    exact hreach ⟨hqr, (hdq.1.reach hqr).1⟩

theorem isLiveOutOfBlock_returns (hq : ctx.blockParentRegion q = some region) :
    ∃ b, Returns (Valid ctx) (isLiveOutOfBlock ctx value region q) b ∧
      (b = true ↔ AnsweredOut ctx region r d value q) := by
  by_cases hreach : Reach (ctx.regionGraph region).Edge r q ∧
      Reach (ctx.regionGraph region).Edge r d
  · obtain ⟨lv, b, hlv, hb, hiff⟩ := isLiveOutOfBlock_spec (livenessQuery h hr hq hreach.1 hreach.2)
    refine ⟨b, .bind (getRegionInfo_returns hlv) (.lift hb), ?_⟩
    rw [hiff, AnsweredOut, and_iff_right hreach.1]
  · obtain ⟨lv, hlv, -, hout⟩ := blockQueries_of_not_reach h hr hq hreach
    refine ⟨false, .bind (getRegionInfo_returns hlv) (.lift hout), ?_⟩
    simp only [Bool.false_eq_true, false_iff]
    rintro ⟨hqr, ⟨rfl, -⟩ | ⟨hdq, -⟩⟩
    · exact hreach ⟨hqr, hqr⟩
    · exact hreach ⟨hqr, (hdq.1.reach hqr).1⟩

omit hr in
theorem valueStrictlyDominatesOp_returns (op : OpPtr) :
    ∃ b, Returns (Valid ctx) (withDomInfo (DomInfo.valueStrictlyDominatesOp ctx value op)) b ∧
      (b = true ↔ ctx.UseDominated value op) := by
  rcases Context.valueStrictlyDominatesOp_spec h.wellFormed value op with
    ⟨b, hb, hiff⟩ | ⟨-, d', hd', hnone⟩
  · exact ⟨b, withDomInfo_returns hb, hiff⟩
  · obtain rfl := Option.some.inj (h.defBlock.symm.trans hd')
    exact absurd (h.defRegion.symm.trans hnone) (by simp)

omit hr in
theorem dominatesAfter_returns (op : OpPtr) :
    ∃ b, Returns (Valid ctx) (dominatesAfter ctx value op) b ∧
      (b = true ↔ DominatesAfter ctx value op) := by
  obtain ⟨b, hb, hiff⟩ := valueStrictlyDominatesOp_returns h op
  rw [dominatesAfter]
  unfold DominatesAfter
  cases hdef : value.definingEntity with
  | block block => exact ⟨true, Returns.pure true, by simp⟩
  | op valueDefOp =>
      by_cases heq : valueDefOp = op
      · refine ⟨true, ?_, ?_⟩
        · simp only [if_pos heq]
          exact Returns.pure true
        · simp [heq]
      · refine ⟨b, ?_, ?_⟩
        · simp only [if_neg heq]
          exact hb
        · simp [hiff, heq]

theorem isUsedFromPoint_returns {point : Context.OpInsertionPoint} {ops : List OpPtr}
    (hop : ctx.opParentBlock op = some q) (hq : ctx.blockParentRegion q = some region)
    (hblock : ctx.getInsertionBlock point = some q) (hops : ctx.opsFrom point = some ops) :
    ∃ b, Returns (Valid ctx) (isUsedFromPoint ctx value region op point) b ∧
      (b = true ↔ ctx.UsedFrom value q ops ∨ AnsweredOut ctx region r d value q) := by
  obtain ⟨used, hused, hiff⟩ := Context.hasLocalUseAfterPoint_spec h hblock hops
  obtain ⟨out, hout, houtIff⟩ := isLiveOutOfBlock_returns h hr hq
  cases used with
  | true =>
      refine ⟨true, .bind (.lift hused) (Returns.pure true), ?_⟩
      simp [hiff.mp rfl]
  | false =>
      refine ⟨out, .bind (.lift hused) (.bind (.lift hop) hout), ?_⟩
      have hno : ¬ ctx.UsedFrom value q ops := fun hu => Bool.false_ne_true (hiff.mpr hu)
      rw [houtIff, or_iff_right hno]

/-- The answer at a point of the region of the definition. -/
theorem isLiveInDefRegion_returns {point : Context.OpInsertionPoint}
    (hblock : ctx.getInsertionBlock point = some q)
    (hq : ctx.blockParentRegion q = some region) :
    ∃ b, Returns (Valid ctx) (isLiveInDefRegion ctx value region point) b ∧
      (b = true ↔ LiveAt ctx region r d value q point) := by
  obtain - | (block | block | op | op) := point
  · exact nomatch hblock
  · obtain rfl : block = q := Option.some.inj hblock
    exact isLiveInAtBlock_returns h hr hq
  · obtain rfl : block = q := Option.some.inj hblock
    exact isLiveOutOfBlock_returns h hr hq
  · exact Returns.ite_and (dominatesAfter_returns h op)
      (isUsedFromPoint_returns h hr hblock hq hblock rfl)
  · exact Returns.ite_and (valueStrictlyDominatesOp_returns h op)
      (isUsedFromPoint_returns h hr hblock hq hblock rfl)

end Queries

/-! ## Points that denote the same place -/

section Agreement

variable {ctx : Context} {region : RegionPtr} {r d block : BlockPtr} {value : Value}
  {op next : OpPtr} {front rest : List OpPtr} (h : ctx.RegionValue region value d)
  (hr : ctx.entryBlock region = some r)

/-- In the block of the definition, only block arguments and values of graph regions are defined
    from its start on. -/
def DefinedAtStart (ctx : Context) (region : RegionPtr) (value : Value) : Prop :=
  (∃ block, value.definingEntity = .block block) ∨ ctx.hasSsaDominance region = some false

/-- Some candidate of the query at `q` reaches a use without taking a back edge. -/
def CandidateReaches (ctx : Context) (region : RegionPtr) (r d : BlockPtr) (value : Value)
    (q : BlockPtr) : Prop :=
  ∃ t u, Candidate (ctx.regionGraph region) r d q t ∧ ctx.UsedIn region value u ∧
    Reach (Red (ctx.regionGraph region) r) t u

/-- The candidate that the shortcut on reducible graphs picks does. -/
def PickedReaches (ctx : Context) (region : RegionPtr) (r d : BlockPtr) (value : Value)
    (q : BlockPtr) : Prop :=
  ∃ m u, Picked (ctx.regionGraph region) r d q m ∧ ctx.UsedIn region value u ∧
    Reach (Red (ctx.regionGraph region) r) m u

/-- When the start of a block is answered as the point before its first operation: in the block of
    the definition, unless the value is defined at its start and used; elsewhere, if the shortcut
    on reducible graphs misses no use. -/
structure StartAgrees (ctx : Context) (region : RegionPtr) (r d : BlockPtr) (value : Value)
    (q : BlockPtr) : Prop where
  ownBlock : q = d → DefinedAtStart ctx region value → ctx.valueUses value = some []
  shortcut : Reach (ctx.regionGraph region).Edge r q →
    StrictlyDominates (ctx.regionGraph region).Edge r d q →
    Reducible (ctx.regionGraph region) r → CandidateReaches ctx region r d value q →
    PickedReaches ctx region r d value q

theorem valueParentBlock_of_op (hdef : value.definingEntity = .op op) :
    ctx.valueParentBlock value = ctx.opParentBlock op := by
  rw [Context.valueParentBlock, hdef]

theorem defPoint_of_op (hdef : value.definingEntity = .op op) :
    (ctx.defPoint value d).2 = (ctx.blockOps d).idxOf op + 1 := by
  rw [Context.defPoint, hdef]

theorem defPoint_of_block {b : BlockPtr} (hdef : value.definingEntity = .block b) :
    (ctx.defPoint value d).2 = 0 := by
  rw [Context.defPoint, hdef]

include h

theorem exists_ssa : ∃ ssa, ctx.hasSsaDominance region = some ssa :=
  Context.exists_hasSsaDominance h.wellFormed h.defRegion

/-- The rule for an operation at a known place of its block. -/
theorem useDominated_split {ssa : Bool} (hssa : ctx.hasSsaDominance region = some ssa)
    (hregion : ctx.blockParentRegion block = some region)
    (hops : ctx.blockOps block = front ++ op :: rest) :
    ctx.UseDominated value op ↔
      if block = d ∧ ssa = true then (ctx.defPoint value d).2 ≤ front.length
      else ctx.DefinedInGraph region d block := by
  have hop := Context.opParentBlock_of_split h.wellFormed.nested hops
  rw [Context.useDominated_in_region h hssa hop hregion (Above.refl op),
    Context.idxOf_of_split h.wellFormed.nested hops]

/-- A value is only used from points of blocks that its definition dominates. -/
theorem definedInGraph_of_usedFrom (hregion : ctx.blockParentRegion block = some region)
    {ops : List OpPtr} (hused : ctx.UsedFrom value block ops) :
    ctx.DefinedInGraph region d block := by
  obtain ⟨uses, huses, use, huse, op, -, hanc⟩ := hused
  obtain ⟨uses', huses', hall⟩ := h.used
  obtain rfl := Option.some.inj (huses.symm.trans huses')
  obtain ⟨habove, hop⟩ := (Context.findAncestorOpInBlock_eq_some_iff h.wellFormed.nested).mp hanc
  exact Context.definedInGraph_of_user h hop hregion habove (hall use huse)

include hr

omit h in
theorem definedInGraph_iff : ctx.DefinedInGraph region d block ↔
    block = d ∨ (Reach (ctx.regionGraph region).Edge r block ∧
      StrictlyDominates (ctx.regionGraph region).Edge r d block) := by
  constructor
  · rintro (heq | ⟨⟨r', hr', hreach⟩, hdom⟩)
    · exact Or.inl heq
    · obtain rfl := Option.some.inj (hr.symm.trans hr')
      by_cases heq : block = d
      · exact Or.inl heq
      · exact Or.inr ⟨hreach, hdom r hr, fun hd => heq hd.symm⟩
  · rintro (heq | ⟨hreach, hdq⟩)
    · exact Or.inl heq
    · refine Or.inr ⟨⟨r, hr, hreach⟩, fun r' hr' => ?_⟩
      obtain rfl := Option.some.inj (hr.symm.trans hr')
      exact hdq.1

omit h in
/-- A value is only live out of blocks that its definition dominates. -/
theorem AnsweredOut.definedInGraph (hout : AnsweredOut ctx region r d value block) :
    ctx.DefinedInGraph region d block := by
  rw [definedInGraph_iff hr]
  obtain ⟨hreach, ⟨heq, -⟩ | ⟨hdq, -⟩⟩ := hout
  · exact Or.inl heq
  · exact Or.inr ⟨hreach, hdq⟩

/-- The end of a block is answered as the point after its last operation. -/
theorem liveAt_blockEnd (hregion : ctx.blockParentRegion block = some region)
    (hops : ctx.blockOps block = front ++ [op]) :
    LiveAt ctx region r d value block (.set (.atBack block)) ↔
      LiveAt ctx region r d value block (.set (.after op)) := by
  have hnone : ¬ ctx.UsedFrom value block [] := by
    rintro ⟨_, _, _, _, _, hmem, _⟩
    exact List.not_mem_nil hmem
  rw [LiveAt, LiveAt, Context.opsAfter_of_split h.wellFormed.nested hops, or_iff_right hnone]
  refine ⟨fun hout => ⟨fun valueDefOp hdef hne => ?_, hout⟩, fun hlive => hlive.2⟩
  obtain ⟨ssa, hssa⟩ := exists_ssa h
  rw [useDominated_split h hssa hregion hops]
  split
  · next hcase =>
      -- the definition is another operation of the block, so it comes before the last one
      have hparent : ctx.opParentBlock valueDefOp = some d := by
        rw [← h.defBlock, valueParentBlock_of_op hdef]
      have hmem := (h.wellFormed.nested.op_mem d valueDefOp).mpr hparent
      rw [← hcase.1, hops, List.mem_append, List.mem_singleton, or_iff_left hne] at hmem
      rw [defPoint_of_op hdef, ← hcase.1, hops, List.idxOf_append_of_mem hmem]
      exact List.idxOf_lt_length_of_mem hmem
  · exact hout.definedInGraph hr

/-- The point after an operation is answered as the point before the next one. -/
theorem liveAt_between (hregion : ctx.blockParentRegion block = some region)
    (hops : ctx.blockOps block = front ++ op :: next :: rest) :
    LiveAt ctx region r d value block (.set (.after op)) ↔
      LiveAt ctx region r d value block (.set (.before next)) := by
  have hnext : ctx.blockOps block = (front ++ [op]) ++ next :: rest := by simpa using hops
  have hlen : (front ++ [op]).length = front.length + 1 := List.length_append
  rw [LiveAt, LiveAt, Context.opsAfter_of_split h.wellFormed.nested hops,
    Context.opsAfter_of_split h.wellFormed.nested hnext]
  refine and_congr_left fun hlive => ?_
  have hgraph : ctx.DefinedInGraph region d block := by
    rcases hlive with hused | hout
    · exact definedInGraph_of_usedFrom h hregion hused
    · exact hout.definedInGraph hr
  obtain ⟨ssa, hssa⟩ := exists_ssa h
  rw [useDominated_split h hssa hregion hnext, hlen, DominatesAfter]
  cases hdef : value.definingEntity with
  | block b =>
      have hpoint : (ctx.defPoint value d).2 = 0 := defPoint_of_block hdef
      simp [hpoint, hgraph]
  | op valueDefOp =>
      simp only [DefiningEntity.op.injEq, forall_eq',
        useDominated_split h hssa hregion hops]
      by_cases hcase : block = d ∧ ssa = true
      · -- in its own block the definition comes before `next`, and is `op` or before it
        rw [if_pos hcase, if_pos hcase, defPoint_of_op hdef, ← hcase.1]
        have hidx := Context.idxOf_of_split h.wellFormed.nested hops
        constructor
        · intro hdom
          by_cases heq : valueDefOp = op
          · rw [heq, hidx]
          · exact Nat.le_succ_of_le (hdom heq)
        · intro hle hne
          refine Nat.lt_of_le_of_ne (Nat.le_of_succ_le_succ hle) fun heq => hne ?_
          have hop : op ∈ ctx.blockOps block := by simp [hops]
          exact (List.idxOf_inj hop).mp (hidx.trans heq.symm) |>.symm
      · simp [if_neg hcase, hgraph]

omit h hr in
/-- A value of an SSA region that is defined at the start of its block is an argument. -/
theorem defPoint_le_zero_iff {ssa : Bool} (hssa : ctx.hasSsaDominance region = some ssa) :
    (if ssa = true then (ctx.defPoint value d).2 ≤ 0 else True) ↔
      DefinedAtStart ctx region value := by
  rw [DefinedAtStart, hssa]
  cases ssa with
  | false => simp
  | true =>
      cases hdef : value.definingEntity with
      | block b => simp [defPoint_of_block hdef]
      | op valueDefOp => simp [defPoint_of_op hdef]

/-- In the block of the definition the point before the first operation sees every use. -/
theorem usedOrOut_ownBlock_iff : (ctx.UsedIn region value d ∨ AnsweredOut ctx region r d value d) ↔
    ctx.valueUses value ≠ some [] := by
  constructor
  · intro hlive hnone
    have hno : ∀ u, ¬ ctx.UsedIn region value u := by
      rintro u ⟨uses, huses, use, huse, -⟩
      obtain rfl := Option.some.inj (huses.symm.trans hnone)
      exact List.not_mem_nil huse
    rcases hlive with hused | ⟨-, ⟨-, u, hu, -⟩ | ⟨hdq, -⟩⟩
    · exact hno d hused
    · exact hno u hu
    · exact hdq.2 rfl
  · intro hne
    obtain ⟨uses, huses, -⟩ := h.used
    obtain ⟨b, hb, hgraph⟩ := Context.exists_usedIn h huses (fun heq => hne (heq ▸ huses))
    rcases (definedInGraph_iff hr).mp hgraph with rfl | ⟨hreach, hdb⟩
    · exact Or.inl hb
    · exact Or.inr ⟨(hdb.1.reach hreach).1, Or.inl ⟨rfl, b, hb, Ne.symm hdb.2⟩⟩

/-- Elsewhere it sees the uses that some candidate reaches. -/
theorem usedOrSeenOut_iff (hregion : ctx.blockParentRegion block = some region)
    (hreach : Reach (ctx.regionGraph region).Edge r block)
    (hdq : StrictlyDominates (ctx.regionGraph region).Edge r d block) :
    (ctx.UsedIn region value block ∨
        SeenOut (ctx.regionGraph region) r d (ctx.UsedIn region value) block) ↔
      CandidateReaches ctx region r d value block := by
  have hquery := livenessQuery h hr hregion hreach (hdq.1.reach hreach).1
  have hr' := hquery.graph.entry_mem hr
  have hU := used_dominated hquery
  constructor
  · rintro (hused | ⟨u, hu, hseen⟩)
    · exact ⟨block, block, ⟨Or.inl rfl, hdq⟩, hused, Reach.refl block⟩
    · have hseen' : Avoids (Red (ctx.regionGraph region) r) d block u ∨
          EarlyBack (ctx.regionGraph region) r d block u := hseen.imp_left And.right
      obtain ⟨t, ht, htu⟩ := (exists_candidate_iff hquery.graph hr' hreach hdq (hU u hu).2).mpr
        hseen'
      exact ⟨t, u, ht, hu, htu⟩
  · rintro ⟨t, u, ht, hu, htu⟩
    by_cases heq : u = block
    · exact Or.inl (heq ▸ hu)
    · refine Or.inr ⟨u, hu, ?_⟩
      rcases (exists_candidate_iff hquery.graph hr' hreach hdq (hU u hu).2).mp ⟨t, ht, htu⟩ with
        hav | hback
      · exact Or.inl ⟨heq, hav⟩
      · exact Or.inr hback

/-- On an irreducible graph the live-in query sees the same uses. -/
theorem seenIn_of_irreducible (hregion : ctx.blockParentRegion block = some region)
    (hreach : Reach (ctx.regionGraph region).Edge r block)
    (hdq : StrictlyDominates (ctx.regionGraph region).Edge r d block)
    (hirr : ¬ Reducible (ctx.regionGraph region) r) :
    SeenIn (ctx.regionGraph region) r d (ctx.UsedIn region value) block ↔
      CandidateReaches ctx region r d value block := by
  have hquery := livenessQuery h hr hregion hreach (hdq.1.reach hreach).1
  have hr' := hquery.graph.entry_mem hr
  have hU := used_dominated hquery
  constructor
  · rintro ⟨-, hseen⟩
    obtain ⟨u, hu, hpath⟩ := hseen hirr
    obtain ⟨t, ht, htu⟩ :=
      (exists_candidate_iff hquery.graph hr' hreach hdq (hU u hu).2).mpr hpath
    exact ⟨t, u, ht, hu, htu⟩
  · rintro ⟨t, u, ht, hu, htu⟩
    refine ⟨fun hred => absurd hred hirr, fun _ => ⟨u, hu, ?_⟩⟩
    exact (exists_candidate_iff hquery.graph hr' hreach hdq (hU u hu).2).mp ⟨t, ht, htu⟩

omit h hr in
/-- On a reducible graph it sees those that the picked candidate reaches. -/
theorem seenIn_of_reducible (hred : Reducible (ctx.regionGraph region) r) :
    SeenIn (ctx.regionGraph region) r d (ctx.UsedIn region value) block ↔
      PickedReaches ctx region r d value block :=
  ⟨fun hseen => hseen.1 hred, fun hpick => ⟨fun _ => hpick, fun hirr => absurd hred hirr⟩⟩

/-- The shortcut misses nothing where one candidate dominates all others, which for all values of
    `d` is when it misses nothing. -/
theorem StartAgrees.of_covered (hregion : ctx.blockParentRegion block = some region)
    (hown : block = d → DefinedAtStart ctx region value → ctx.valueUses value = some [])
    (hcov : StrictlyDominates (ctx.regionGraph region).Edge r d block →
      Reducible (ctx.regionGraph region) r → Covered (ctx.regionGraph region) r d block) :
    StartAgrees ctx region r d value block where
  ownBlock := hown
  shortcut hreach hdq hred hcand := by
    have hquery := livenessQuery h hr hregion hreach (hdq.1.reach hreach).1
    exact (covered_iff_forall_uses hquery.graph (hquery.graph.entry_mem hr) hred hreach hdq).mp
      (hcov hdq hred) (ctx.UsedIn region value) (used_dominated hquery) hcand

/-- When the start of a block is answered as the point before its first operation. -/
theorem liveAt_blockStart_iff (hregion : ctx.blockParentRegion block = some region)
    (hops : ctx.blockOps block = op :: rest) :
    (LiveAt ctx region r d value block (.set (.atFront block)) ↔
        LiveAt ctx region r d value block (.set (.before op))) ↔
      StartAgrees ctx region r d value block := by
  obtain ⟨ssa, hssa⟩ := exists_ssa h
  have hfirst : ctx.blockOps block = [] ++ op :: rest := hops
  have hdom := useDominated_split h hssa hregion hfirst
  rw [LiveAt, LiveAt, Context.opsAfter_of_split h.wellFormed.nested hfirst, ← hops,
    Context.usedFrom_blockOps_iff h.wellFormed.nested hregion, hdom, List.length_nil]
  by_cases heq : block = d
  · -- the definition does not strictly dominate its own block
    subst heq
    have hself : ¬ StrictlyDominates (ctx.regionGraph region).Edge r block block :=
      fun hs => hs.2 rfl
    have hgraph : ctx.DefinedInGraph region block block := Or.inl rfl
    have hstart : StartAgrees ctx region r block value block ↔
        (DefinedAtStart ctx region value → ctx.valueUses value = some []) :=
      ⟨fun hs => hs.ownBlock rfl, fun ho => ⟨fun _ => ho, fun _ hs => absurd hs hself⟩⟩
    have hin : ¬ AnsweredIn ctx region r block value block := fun ha => hself ha.2.1
    have hrule : (if block = block ∧ ssa = true then (ctx.defPoint value block).2 ≤ 0
        else ctx.DefinedInGraph region block block) ↔ DefinedAtStart ctx region value := by
      rw [← defPoint_le_zero_iff (d := block) hssa]
      simp [hgraph]
    rw [hrule, usedOrOut_ownBlock_iff h hr, hstart]
    simp only [hin, false_iff, not_and, not_not, ne_eq]
  · have hstart : StartAgrees ctx region r d value block ↔
        (Reach (ctx.regionGraph region).Edge r block →
          StrictlyDominates (ctx.regionGraph region).Edge r d block →
          (SeenIn (ctx.regionGraph region) r d (ctx.UsedIn region value) block ↔
            CandidateReaches ctx region r d value block)) := by
      constructor
      · intro hs hreach hdq
        by_cases hred : Reducible (ctx.regionGraph region) r
        · rw [seenIn_of_reducible hred]
          refine ⟨?_, hs.shortcut hreach hdq hred⟩
          rintro ⟨m, u, hm, hu, hmu⟩
          exact ⟨m, u, hm.candidate, hu, hmu⟩
        · exact seenIn_of_irreducible h hr hregion hreach hdq hred
      · intro hs
        refine ⟨fun hd => absurd hd heq, fun hreach hdq hred hcand => ?_⟩
        exact (seenIn_of_reducible hred).mp ((hs hreach hdq).mpr hcand)
    have hcase : ¬ (block = d ∧ ssa = true) := fun hc => heq hc.1
    rw [hstart, if_neg hcase, definedInGraph_iff hr, AnsweredIn, AnsweredOut]
    simp only [heq, false_or, false_and]
    by_cases hreach : Reach (ctx.regionGraph region).Edge r block
    · by_cases hdq : StrictlyDominates (ctx.regionGraph region).Edge r d block
      · simp only [hreach, hdq, true_and, forall_const]
        rw [usedOrSeenOut_iff h hr hregion hreach hdq]
      · simp [hdq]
    · simp [hreach]

end Agreement

/-! ## Points of nested regions -/

section Nested

variable {ctx : Context} {region queryRegion : RegionPtr} {r d q : BlockPtr} {value : Value}
  {op : OpPtr} {point point' : Context.OpInsertionPoint} (regionEdges : RegionEdges)

/-- An operation around a block has a region that contains it. -/
theorem exists_region_of_above (hq : ctx.blockParentRegion q = some queryRegion)
    {parent : OpPtr} (hparent : ctx.regionParentOp queryRegion = some parent)
    (habove : Above ctx.parentOp parent op) :
    ∃ region z, ctx.regionParentOp region = some op ∧
      Above (fun b => (ctx.blockParentRegion b).bind ctx.regionParentBlock) q z ∧
      ctx.blockParentRegion z = some region := by
  induction habove with
  | refl => exact ⟨queryRegion, q, hparent, Above.refl q, hq⟩
  | @tail x y _ hxy ih =>
      obtain ⟨region, z, hx, hqz, hz⟩ := ih
      obtain ⟨outer, houter, hy⟩ := Option.bind_eq_some_iff.mp hxy
      obtain ⟨block, hblock, hblockr⟩ := Context.opParentRegion_eq_some.mp houter
      refine ⟨outer, block, hy, hqz.tail ?_, hblockr⟩
      simp [hz, Context.regionParentBlock_eq, hx, hblock]

/-- The search for the region of an operation that contains a block. -/
theorem exists_find_region (h : ctx.WellNested)
    (hq : ctx.blockParentRegion q = some queryRegion) {parent : OpPtr}
    (hparent : ctx.regionParentOp queryRegion = some parent)
    (habove : Above ctx.parentOp parent op) :
    ∃ region, (ctx.opRegions op).find? (fun region =>
      (ctx.findAncestorBlockOfBlockInRegion q region).isSome) = some region := by
  obtain ⟨region, z, hop, hqz, hz⟩ := exists_region_of_above hq hparent habove
  have hmem : region ∈ ctx.opRegions op := (h.region_mem op region).mpr hop
  have hfind : ctx.findAncestorBlockOfBlockInRegion q region = some z := by
    rw [Context.findAncestorBlockOfBlockInRegion, Context.WellNested.ancestorBlockLoop_eq_climb,
      climb_eq_some_iff h.isForest_block]
    exact ⟨hqz, hz⟩
  refine Option.isSome_iff_exists.mp (List.find?_isSome.mpr ⟨region, hmem, ?_⟩)
  simp [hfind]

/-- In a region other than that of the definition only the block of the point matters. -/
theorem isLiveAtPointLoop_congr (hd : ctx.valueParentBlock value = some d)
    (hdr : ctx.blockParentRegion d = some region) (hq : ctx.blockParentRegion q ≠ some region)
    (hpoint : ctx.getInsertionBlock point = some q)
    (hpoint' : ctx.getInsertionBlock point' = some q) (fuel : Nat) :
    isLiveAtPointLoop ctx regionEdges fuel value point =
      isLiveAtPointLoop ctx regionEdges fuel value point' := by
  cases fuel with
  | zero => rfl
  | succ fuel =>
      rw [isLiveAtPointLoop, isLiveAtPointLoop]
      simp only [hd, hpoint, hpoint', hdr]
      cases hqr : ctx.blockParentRegion q with
      | none =>
          have hne : d ≠ q := by
            rintro rfl
            exact absurd (hdr.symm.trans hqr) (by simp)
          simp only [Context.isLiveInOrphanBlock, if_neg hne]
      | some queryRegion =>
          have hne : queryRegion ≠ region := fun heq => hq (hqr.trans (congrArg some heq))
          simp only [if_neg hne, isLiveInRegionBranchOp, hpoint, hpoint']

variable (h : ctx.RegionValue region value d) (hr : ctx.entryBlock region = some r)

include h

theorem isLiveAtPointLoop_eq (hq : ctx.blockParentRegion q = some region)
    (hpoint : ctx.getInsertionBlock point = some q) (fuel : Nat) :
    isLiveAtPointLoop ctx regionEdges (fuel + 1) value point =
      isLiveInDefRegion ctx value region point := by
  rw [isLiveAtPointLoop]
  simp only [h.defBlock, hpoint, h.defRegion, hq, if_true]

include hr

/-- The question put to a region branch operation around the point is answered. -/
theorem isLiveInRegionBranchOp_returns (hq : ctx.blockParentRegion q = some queryRegion)
    {parent : OpPtr} (hparent : ctx.regionParentOp queryRegion = some parent)
    (hop : ctx.IsAncestorIn region parent op)
    (hpoint : ctx.getInsertionBlock point = some q) (fuel : Nat) :
    ∃ answer, Returns (Valid ctx) (isLiveInRegionBranchOp ctx regionEdges
      (isLiveAtPointLoop ctx regionEdges (fuel + 1)) value point op) answer := by
  rw [isLiveInRegionBranchOp]
  cases regionEdges op with
  | none => exact ⟨none, Returns.pure none⟩
  | some edges =>
      obtain ⟨dom, hdom, -⟩ := valueStrictlyDominatesOp_returns h op
      cases dom with
      | false => exact ⟨some false, .bind hdom (Returns.pure (some false))⟩
      | true =>
          obtain ⟨found, hfound⟩ := exists_find_region h.wellFormed.nested hq hparent hop.1
          obtain ⟨reachable, hreachable⟩ := @Context.reachableRegions_isSome ctx edges found
          obtain ⟨uses, huses, -⟩ := h.used
          obtain ⟨block, hblock, hregion⟩ := Context.opParentRegion_eq_some.mp hop.2
          have hafter : ctx.getInsertionBlock (.set (.after op)) = some block := hblock
          obtain ⟨live, hlive, -⟩ := isLiveInDefRegion_returns h hr hafter hregion
          rw [← isLiveAtPointLoop_eq regionEdges h hregion hafter fuel] at hlive
          by_cases hused : (found :: reachable).any (ctx.hasUseInRegionSubtree uses) = true
          · refine ⟨some true, .bind hdom (.bind (.lift hpoint) (.bind (.lift hfound)
              (.bind (.lift hreachable) (.bind (.lift huses) ?_))))⟩
            rw [if_pos hused]
            exact Returns.pure (some true)
          · by_cases hread : (found :: reachable).any
                (fun source => value ∈ ctx.operandsReadFromRegion edges source) = true
            · refine ⟨some true, .bind hdom (.bind (.lift hpoint) (.bind (.lift hfound)
                (.bind (.lift hreachable) (.bind (.lift huses) ?_))))⟩
              rw [if_neg hused, if_pos hread]
              exact Returns.pure (some true)
            · refine ⟨some live, .bind hdom (.bind (.lift hpoint) (.bind (.lift hfound)
                (.bind (.lift hreachable) (.bind (.lift huses) ?_))))⟩
              rw [if_neg hused, if_neg hread]
              exact .bind hlive (Returns.pure (some live))

/-- A question about a point in another region is answered. -/
theorem isLiveAtPointLoop_returns (hq : ctx.blockParentRegion q ≠ some region)
    (hpoint : ctx.getInsertionBlock point = some q) (fuel : Nat) :
    ∃ live, Returns (Valid ctx) (isLiveAtPointLoop ctx regionEdges (fuel + 2) value point)
      live := by
  rw [isLiveAtPointLoop]
  simp only [h.defBlock, hpoint, h.defRegion]
  cases hqr : ctx.blockParentRegion q with
  | none =>
      -- nothing is around a block in no region
      have hne : d ≠ q := by
        rintro rfl
        exact absurd (h.defRegion.symm.trans hqr) (by simp)
      have hparent : ctx.blockParentOp q = none := by simp [Context.blockParentOp, hqr]
      refine ⟨false, .lift ?_⟩
      rw [Context.isLiveInOrphanBlock, if_neg hne, hparent, Context.orphanLoop]
  | some queryRegion =>
      have hne : queryRegion ≠ region := fun heq => hq (hqr.trans (congrArg some heq))
      have hmem := (h.wellFormed.nested.block_mem queryRegion q).mpr hqr
      have hparent : ∃ parent, ctx.regionParentOp queryRegion = some parent := by
        cases hget : ctx.regions queryRegion with
        | none => simp [Context.regionBlocks, hget] at hmem
        | some reg => exact ⟨reg.parentOp, by simp [Context.regionParentOp, hget]⟩
      obtain ⟨parent, hparent⟩ := hparent
      simp only [if_neg hne]
      cases hfind : ctx.findAncestorOpOfOpInRegion parent region with
      | none =>
          refine ⟨false, .bind (.lift hparent) ?_⟩
          rw [hfind]
          exact Returns.pure false
      | some op =>
          have hop := h.wellFormed.nested.findAncestorOp_eq_some_iff.mp hfind
          obtain ⟨block, hblock, hregion⟩ := Context.opParentRegion_eq_some.mp hop.2
          obtain ⟨answer, hanswer⟩ :=
            isLiveInRegionBranchOp_returns regionEdges h hr hqr hparent hop hpoint fuel
          cases answer with
          | some live =>
              refine ⟨live, .bind (.lift hparent) ?_⟩
              rw [hfind]
              exact .bind hanswer (Returns.pure live)
          | none =>
              obtain ⟨uses, huses, -⟩ := h.used
              have hbefore : ctx.getInsertionBlock (.set (.before op)) = some block := hblock
              obtain ⟨live, hlive, -⟩ := isLiveInDefRegion_returns h hr hbefore hregion
              by_cases hused : ctx.hasUseInRegionSubtree uses queryRegion = true
              · refine ⟨true, .bind (.lift hparent) ?_⟩
                rw [hfind]
                refine .bind hanswer (.bind (.lift huses) ?_)
                rw [if_pos hused]
                exact Returns.pure true
              · refine ⟨live, .bind (.lift hparent) ?_⟩
                rw [hfind]
                refine .bind hanswer (.bind (.lift huses) ?_)
                rw [if_neg hused]
                exact hlive

end Nested

/-! ## Equal places -/

section Main

variable {ctx : Context} {region : RegionPtr} {d : BlockPtr} {value : Value}
  {point point' : Context.OpInsertionPoint}

/-- Points that denote the same place get the same answer exactly when they are not the start of
    a block of the region of the definition, or `StartAgrees` holds for the block. -/
theorem isLiveAtPoint_agrees_iff (h : ctx.RegionValue region value d) (regionEdges : RegionEdges)
    (hsame : ctx.SamePlace point point') :
    ∃ live live', Returns (Valid ctx) (isLiveAtPoint ctx regionEdges value point) live ∧
      Returns (Valid ctx) (isLiveAtPoint ctx regionEdges value point') live' ∧
      (live = live' ↔ ∀ q r, point = .set (.atFront q) →
        ctx.blockParentRegion q = some region → ctx.entryBlock region = some r →
        StartAgrees ctx region r d value q) := by
  obtain ⟨r, hr⟩ := Context.exists_entryBlock h.wellFormed h.defRegion
  obtain ⟨q, hpoint, hpoint'⟩ := hsame.getInsertionBlock h.wellFormed.nested
  by_cases hq : ctx.blockParentRegion q = some region
  · obtain ⟨live, hlive, hiff⟩ := isLiveInDefRegion_returns h hr hpoint hq
    obtain ⟨live', hlive', hiff'⟩ := isLiveInDefRegion_returns h hr hpoint' hq
    rw [← isLiveAtPointLoop_eq regionEdges h hq hpoint 1] at hlive
    rw [← isLiveAtPointLoop_eq regionEdges h hq hpoint' 1] at hlive'
    refine ⟨live, live', hlive, hlive', ?_⟩
    rw [Bool.eq_iff_iff, hiff, hiff']
    cases hsame with
    -- only the start of a block goes through the query of the whole block
    | @blockStart block op rest hops =>
        obtain rfl : block = q := Option.some.inj hpoint
        rw [liveAt_blockStart_iff h hr hq hops]
        constructor
        · intro hs q r' hstart _ hr'
          obtain rfl := Option.some.inj (hr.symm.trans hr')
          obtain rfl : block = q := by simpa using hstart
          exact hs
        · exact fun hs => hs block r rfl hq hr
    | @blockEnd block op front hops =>
        obtain rfl : block = q := Option.some.inj hpoint
        exact iff_of_true (liveAt_blockEnd h hr hq hops) (fun _ _ hstart => nomatch hstart)
    | @between block op next front rest hops =>
        have hblock := Context.opParentBlock_of_split h.wellFormed.nested hops
        obtain rfl : block = q := Option.some.inj (hblock.symm.trans hpoint)
        exact iff_of_true (liveAt_between h hr hq hops) (fun _ _ hstart => nomatch hstart)
  · -- in another region both points lead to the same operation around them
    obtain ⟨live, hlive⟩ := isLiveAtPointLoop_returns regionEdges h hr hq hpoint 0
    have hcongr := isLiveAtPointLoop_congr regionEdges h.defBlock h.defRegion hq hpoint hpoint' 2
    refine ⟨live, live, hlive, ?_, iff_of_true rfl ?_⟩
    · rw [isLiveAtPoint, ← hcongr]
      exact hlive
    · rintro q' r' rfl hq' -
      obtain rfl : q' = q := Option.some.inj hpoint
      exact absurd hq' hq

end Main

/-! ## A block argument used in its own block -/

/-- A region of one block, whose argument is used by its only operation. -/
def ownArgument : Context := Context.ofCfg [[]] 0 0

theorem ownArgument_valid : ownArgument.RegionValue ⟨0⟩ ⟨0, .block ⟨0⟩⟩ ⟨0⟩ where
  wellFormed := ⟨Context.ofCfg_wellNested _ _ _, Context.ofCfg_valid _ _ _
    ⟨by decide, by decide, by decide⟩⟩
  defBlock := rfl
  defRegion := rfl
  used := by
    refine ⟨[⟨⟨0⟩, 0⟩], rfl, fun use huse => ?_⟩
    obtain rfl := List.mem_singleton.mp huse
    refine ⟨⟨0⟩, ⟨0⟩, rfl, rfl, ⟨0⟩, ⟨0⟩, ⟨Above.refl _, rfl⟩, rfl, fun _ => ⟨?_, ?_⟩, ?_⟩
    · intro _ r hr
      obtain rfl : (⟨0⟩ : BlockPtr) = r := Option.some.inj hr
      exact Dominates.refl _
    · intro _
      exact ⟨rfl, Nat.le_refl 0⟩
    · intro _
      exact Or.inl rfl

/-- It is not live at the start of the block, but live before the first operation. -/
theorem ownArgument_disagrees :
    ownArgument.RegionValue ⟨0⟩ ⟨0, .block ⟨0⟩⟩ ⟨0⟩ ∧
      ownArgument.SamePlace (.set (.atFront ⟨0⟩)) (.set (.before ⟨0⟩)) ∧
      Valid ownArgument ⟨fun _ => none, []⟩ ∧
      ((isLiveAtPoint ownArgument (fun _ => none) ⟨0, .block ⟨0⟩⟩ (.set (.atFront ⟨0⟩))).run
        ⟨fun _ => none, []⟩).map Prod.fst = some false ∧
      ((isLiveAtPoint ownArgument (fun _ => none) ⟨0, .block ⟨0⟩⟩ (.set (.before ⟨0⟩))).run
        ⟨fun _ => none, []⟩).map Prod.fst = some true := by
  refine ⟨ownArgument_valid, .blockStart rfl, ⟨?_, ?_⟩, by decide +kernel, by decide +kernel⟩
  · intro region tree htree
    exact nomatch htree
  · intro region info hinfo
    exact nomatch hinfo

theorem isLiveAtPoint_agrees_iff_ownArgument :
    ∃ live live',
      Returns (Valid ownArgument) (isLiveAtPoint ownArgument (fun _ => none) ⟨0, .block ⟨0⟩⟩
        (.set (.atFront ⟨0⟩))) live ∧
      Returns (Valid ownArgument) (isLiveAtPoint ownArgument (fun _ => none) ⟨0, .block ⟨0⟩⟩
        (.set (.before ⟨0⟩))) live' ∧
      (live = live' ↔ ∀ q r, Context.OpInsertionPoint.set (.atFront ⟨0⟩) = .set (.atFront q) →
        ownArgument.blockParentRegion q = some ⟨0⟩ → ownArgument.entryBlock ⟨0⟩ = some r →
        StartAgrees ownArgument ⟨0⟩ r ⟨0⟩ ⟨0, .block ⟨0⟩⟩ q) :=
  isLiveAtPoint_agrees_iff ownArgument_valid (fun _ => none) (.blockStart rfl)

end Liveness

end Pliron
