/-
  Pliron.IR.Verify

  The verifier's check that definitions dominate their uses.

  The walk visits every operation and block inside an operation and checks the
  recorded uses of the values they define.  `UseDominated` says what it checks in
  terms of paths: control cannot get from the entry of the region of the
  definition to the operation that contains the use without executing the
  definition.  In a block that control cannot reach this says nothing, and the
  verifier only accepts a use there after a definition in the same block.
-/

import Pliron.Graph.DomInfo
import Pliron.Lib.ProgramPoints

namespace Pliron

open Pliron.Lib Walkers Relation

/-- What is wrong with a use. -/
inductive DefUseVerifyErr where
  /-- "Operand is not a use of its def" -/
  | operandNotUseOfDef
  /-- "Use of {0} not dominated by definition" -/
  | useNotDominatedByDef (value : Value)
deriving DecidableEq, Repr

namespace Context

variable (ctx : Context)

/-! ## The verifier -/

/-- Check one use of a value. -/
def checkUse (value : Value) (use : Use) : Check DomInfo DefUseVerifyErr Unit := do
  let dominates ← ExceptT.lift (DomInfo.valueStrictlyDominatesOp ctx value use.userOp)
  if dominates then pure () else throw (.useNotDominatedByDef value)

/-- Check all uses of a value. -/
def checkValueUse (value : Value) : Check DomInfo DefUseVerifyErr Unit := do
  let uses ← ExceptT.lift (StateT.lift (ctx.valueUses value))
  uses.forM (ctx.checkUse value)

/-- The values that a node defines. -/
def nodeValues : IRNode → Option (List Value)
  | .operation op => (ctx.operations op).map (fun o => o.resultValues op)
  | .basicBlock block => (ctx.basicBlocks block).map (fun b => b.argValues block)
  | .region _ => some []

/-- Check the uses of all values that a node defines. -/
def checkNode (node : IRNode) : Check DomInfo DefUseVerifyErr Unit := do
  let values ← ExceptT.lift (StateT.lift (ctx.nodeValues node))
  values.forM ctx.checkValueUse

/-- Verify that every value in the IR dominates all of its uses. -/
def verifyValueDominance (ir : OpPtr) : Option (Except DefUseVerifyErr Unit) :=
  ((walkOp ctx .preorderForward (fun n => do ctx.checkNode n; pure .advance) ir).run.run []).map
    Prod.fst

/-! ## Executed before, in terms of paths -/

/-- Control moves from one program point of a region to another. -/
def ProgramStep (region : RegionPtr) : BlockPtr × Nat → BlockPtr × Nat → Prop :=
  PointStep (ctx.regionGraph region).Edge (fun block => (ctx.blockOps block).length)

/-- The point in its block from which on a value is defined. -/
def defPoint (value : Value) (block : BlockPtr) : BlockPtr × Nat :=
  match value.definingEntity with
  | .op op => (block, (ctx.blockOps block).idxOf op + 1)
  | .block _ => (block, 0)

/-- The point just before an operation. -/
def opPoint (op : OpPtr) (block : BlockPtr) : BlockPtr × Nat :=
  (block, (ctx.blockOps block).idxOf op)

/-- The definition has been executed before the operation `op` of block `block`, on every path
    from the entry of the region; without such a path it comes earlier in the same block. -/
def DefinedBefore (region : RegionPtr) (value : Value) (defBlock : BlockPtr) (op : OpPtr)
    (block : BlockPtr) : Prop :=
  ((ctx.regionGraph region).Reachable block → ∀ r, ctx.entryBlock region = some r →
    Dominates (ctx.ProgramStep region) (r, 0) (ctx.defPoint value defBlock)
      (ctx.opPoint op block)) ∧
  (¬ (ctx.regionGraph region).Reachable block →
    block = defBlock ∧ (ctx.defPoint value defBlock).2 ≤ (ctx.opPoint op block).2)

/-- In a graph region, order within the block does not count. -/
def DefinedInGraph (region : RegionPtr) (defBlock block : BlockPtr) : Prop :=
  block = defBlock ∨ ((ctx.regionGraph region).Reachable block ∧
    ∀ r, ctx.entryBlock region = some r → Dominates (ctx.regionGraph region).Edge r defBlock block)

/-- A use is dominated by the definition of its value. -/
def UseDominated (value : Value) (user : OpPtr) : Prop :=
  ∃ defBlock region, ctx.valueParentBlock value = some defBlock ∧
    ctx.blockParentRegion defBlock = some region ∧
    ∃ op block, ctx.IsAncestorIn region user op ∧ ctx.opParentBlock op = some block ∧
      (ctx.hasSsaDominance region = some true →
        ctx.DefinedBefore region value defBlock op block) ∧
      (ctx.hasSsaDominance region = some false → ctx.DefinedInGraph region defBlock block)

/-- What the nesting and the control flow of a program promise. -/
structure WellFormed : Prop where
  nested : ctx.WellNested
  graph : ∀ region, (ctx.regionGraph region).Valid

/-- `value` is defined by `root` or inside it. -/
def DefinedInside (root : OpPtr) (value : Value) : Prop :=
  ∃ node values, ctx.Inside (.operation root) node ∧ ctx.nodeValues node = some values ∧
    value ∈ values

variable {ctx}

/-! ## Order within a block -/

theorem mem_tail_dropWhile_iff {l : List OpPtr} (hl : l.Nodup) {a b : OpPtr} (hb : b ∈ l) :
    b ∈ (l.dropWhile (fun o => o ≠ a)).tail ↔ l.idxOf a < l.idxOf b := by
  induction l with
  | nil => exact absurd hb List.not_mem_nil
  | cons c l ih =>
      obtain ⟨hc, hl⟩ := List.nodup_cons.mp hl
      by_cases hca : c = a
      · subst hca
        rw [List.dropWhile_cons_of_neg (by simp), List.tail_cons, List.idxOf_cons_self]
        constructor
        · intro hmem
          have hne : c ≠ b := fun heq => hc (heq ▸ hmem)
          rw [List.idxOf_cons_ne _ hne]
          exact Nat.succ_pos _
        · intro hlt
          refine (List.mem_cons.mp hb).resolve_left (fun heq => ?_)
          rw [heq, List.idxOf_cons_self] at hlt
          exact Nat.lt_irrefl 0 hlt
      · rw [List.dropWhile_cons_of_pos (by simpa using hca), List.idxOf_cons_ne _ hca]
        rcases List.mem_cons.mp hb with rfl | hb
        · rw [List.idxOf_cons_self]
          refine iff_of_false (fun hmem => hc ?_) (Nat.not_lt_zero _)
          exact List.dropWhile_subset _ (List.mem_of_mem_tail hmem)
        · have hcb : c ≠ b := fun heq => hc (heq ▸ hb)
          rw [List.idxOf_cons_ne _ hcb, ih hl hb]
          exact Nat.succ_lt_succ_iff.symm

/-- Within a block, precedence is that of positions. -/
theorem strictlyPrecedesInBlock_iff (h : ctx.WellNested) {a b : OpPtr} {block : BlockPtr}
    (ha : ctx.opParentBlock a = some block) (hb : ctx.opParentBlock b = some block) :
    ctx.strictlyPrecedesInBlock a b = true ↔
      (ctx.blockOps block).idxOf a < (ctx.blockOps block).idxOf b := by
  have hmem : b ∈ ctx.blockOps block := (h.op_mem block b).mpr hb
  by_cases hab : a = b
  · simp [strictlyPrecedesInBlock, hab]
  · rw [strictlyPrecedesInBlock, if_neg (by simp [ha, hb, hab]), decide_eq_true_iff, opsAfter, ha]
    exact mem_tail_dropWhile_iff (h.ops_nodup block) hmem

/-! ## What the dominator tree decides -/

section Region

variable (h : ctx.WellFormed) {region : RegionPtr} {defBlock block : BlockPtr}

include h

theorem exists_entryBlock (hblock : ctx.blockParentRegion block = some region) :
    ∃ r, ctx.entryBlock region = some r := by
  have hmem := (h.nested.block_mem region block).mpr hblock
  cases hl : ctx.regionBlocks region with
  | nil => exact absurd (hl ▸ hmem) List.not_mem_nil
  | cons r l => exact ⟨r, by rw [entryBlock, hl]; rfl⟩

/-- The tree of a region decides dominance of blocks, unreachable ones included. -/
theorem exists_domTree (hdef : ctx.blockParentRegion defBlock = some region) :
    ∃ tree, Dominance.computeDominatorTree (ctx.regionGraph region) = some tree ∧
      ∀ block, tree.dominates defBlock block = true ↔ ctx.DefinedInGraph region defBlock block := by
  obtain ⟨r, hr⟩ := exists_entryBlock h hdef
  obtain ⟨tree, htree, hspec⟩ := Dominance.computeDominatorTree_spec (h.graph region) hr
  refine ⟨tree, htree, fun block => ?_⟩
  by_cases hreach : Reach (ctx.regionGraph region).Edge r block
  · have hreachable : (ctx.regionGraph region).Reachable block := ⟨r, hr, hreach⟩
    rw [hspec.dominates_iff hreach]
    constructor
    · intro hdom
      refine Or.inr ⟨hreachable, fun r' hr' => ?_⟩
      rw [← Option.some.inj (hr.symm.trans hr')]
      exact hdom
    · rintro (rfl | ⟨_, hdom⟩)
      · exact Dominates.refl block
      · exact hdom r hr
  · rw [hspec.dominates_of_not_reach hreach]
    constructor
    · exact Or.inl
    · rintro (heq | ⟨⟨r', hr', hreach'⟩, _⟩)
      · exact heq
      · rw [← Option.some.inj (hr.symm.trans hr')] at hreach'
        exact absurd hreach' hreach

/-- Between different blocks, paths of program points come down to paths of blocks. -/
theorem definedBefore_iff {value : Value} {op : OpPtr}
    (hk : (ctx.defPoint value defBlock).2 ≤ (ctx.blockOps defBlock).length)
    (hdef : ctx.blockParentRegion defBlock = some region) :
    ctx.DefinedBefore region value defBlock op block ↔
      if block = defBlock then (ctx.defPoint value defBlock).2 ≤ (ctx.blockOps block).idxOf op
      else ctx.DefinedInGraph region defBlock block := by
  obtain ⟨r, hr⟩ := exists_entryBlock h hdef
  have hfst : ctx.defPoint value defBlock = (defBlock, (ctx.defPoint value defBlock).2) := by
    unfold defPoint
    split <;> rfl
  have hi : (ctx.blockOps block).idxOf op ≤ (ctx.blockOps block).length := List.idxOf_le_length
  have hall : ∀ {P : BlockPtr → Prop}, (∀ r', ctx.entryBlock region = some r' → P r') ↔ P r := by
    intro P
    constructor
    · exact fun hP => hP r hr
    · intro hP r' hr'
      rwa [← Option.some.inj (hr.symm.trans hr')]
  have hreachable : (ctx.regionGraph region).Reachable block ↔
      Reach (ctx.regionGraph region).Edge r block := by
    constructor
    · rintro ⟨r', hr', hreach⟩
      rwa [Option.some.inj (hr.symm.trans hr')]
    · exact fun hreach => ⟨r, hr, hreach⟩
  rw [DefinedBefore, DefinedInGraph, hall, hall, hreachable, opPoint, hfst, ProgramStep]
  by_cases heq : block = defBlock
  · subst heq
    rw [if_pos rfl]
    by_cases hreach : Reach (ctx.regionGraph region).Edge r block
    · simp only [hreach, forall_const, not_true_eq_false, false_implies, and_true]
      exact PointStep.dominates_iff_of_eq hreach hk hi
    · simp [hreach]
  · rw [if_neg heq]
    simp only [heq, false_and, false_or, imp_false, not_not]
    constructor
    · rintro ⟨hdom, hreach⟩
      exact ⟨hreach, (PointStep.dominates_iff_of_ne (Ne.symm heq) hk hi).mp (hdom hreach)⟩
    · rintro ⟨hreach, hdom⟩
      exact ⟨fun _ => (PointStep.dominates_iff_of_ne (Ne.symm heq) hk hi).mpr hdom, hreach⟩

/-- The kind of a region that holds a block is known. -/
theorem exists_hasSsaDominance (hblock : ctx.blockParentRegion block = some region) :
    ∃ b, ctx.hasSsaDominance region = some b := by
  have hmem := (h.nested.block_mem region block).mpr hblock
  cases hregion : ctx.regions region with
  | none => simp [regionBlocks, hregion] at hmem
  | some reg =>
      have hparent : ctx.regionParentOp region = some reg.parentOp := by
        simp [regionParentOp, hregion]
      have hin := (h.nested.region_mem reg.parentOp region).mpr hparent
      cases hop : ctx.operations reg.parentOp with
      | none => simp [opRegions, hop] at hin
      | some op =>
          have hin' : region ∈ op.regions := by simpa [opRegions, hop] using hin
          obtain ⟨i, hi⟩ := Option.isSome_iff_exists.mp (List.isSome_idxOf?.mpr hin')
          cases hkind : op.concreteOp.regionKind with
          | none => exact ⟨true, by simp [hasSsaDominance, hparent, hop, hkind]⟩
          | some kind => exact ⟨kind i, by simp [hasSsaDominance, hparent, hop, hkind, hi]⟩

end Region

/-! ## One use -/

section Uses

variable (h : ctx.WellFormed) {value : Value} {user op : OpPtr} {defBlock block : BlockPtr}
  {region : RegionPtr} {ssa : Bool}

include h

/-- Once all parts are found, only the rule of the region's kind is left. -/
theorem useDominated_iff (hdef : ctx.valueParentBlock value = some defBlock)
    (hregion : ctx.blockParentRegion defBlock = some region)
    (hssa : ctx.hasSsaDominance region = some ssa)
    (hop : ctx.findAncestorOpOfOpInRegion user region = some op)
    (hblock : ctx.opParentBlock op = some block) :
    ctx.UseDominated value user ↔
      if ssa then ctx.DefinedBefore region value defBlock op block
      else ctx.DefinedInGraph region defBlock block := by
  constructor
  · rintro ⟨defBlock', region', hdef', hregion', op', block', hop', hblock', hyes, hno⟩
    obtain rfl := Option.some.inj (hdef.symm.trans hdef')
    obtain rfl := Option.some.inj (hregion.symm.trans hregion')
    rw [← h.nested.findAncestorOp_eq_some_iff] at hop'
    obtain rfl := Option.some.inj (hop.symm.trans hop')
    obtain rfl := Option.some.inj (hblock.symm.trans hblock')
    cases ssa with
    | true => exact hyes hssa
    | false => exact hno hssa
  · intro hrule
    refine ⟨defBlock, region, hdef, hregion, op, block,
      h.nested.findAncestorOp_eq_some_iff.mp hop, hblock, ?_, ?_⟩
    · intro htrue
      rw [Option.some.inj (hssa.symm.trans htrue)] at hrule
      exact hrule
    · intro hfalse
      rw [Option.some.inj (hssa.symm.trans hfalse)] at hrule
      exact hrule

theorem not_useDominated_of_no_ancestor (hdef : ctx.valueParentBlock value = some defBlock)
    (hregion : ctx.blockParentRegion defBlock = some region)
    (hop : ctx.findAncestorOpOfOpInRegion user region = none) :
    ¬ ctx.UseDominated value user := by
  rintro ⟨defBlock', region', hdef', hregion', op', _, hop', _⟩
  obtain rfl := Option.some.inj (hdef.symm.trans hdef')
  obtain rfl := Option.some.inj (hregion.symm.trans hregion')
  rw [← h.nested.findAncestorOp_eq_some_iff, hop] at hop'
  exact absurd hop' (by simp)

/-- The query on an operation result. -/
theorem opStrictlyDominatesOp_spec (op : OpPtr) (valUid : Nat) (user : OpPtr) :
    (∃ b, Returns (DomInfo.Valid ctx) (DomInfo.opStrictlyDominatesOp ctx op user) b ∧
      (b = true ↔ ctx.UseDominated ⟨valUid, .op op⟩ user)) ∨
    ((∀ info, (DomInfo.opStrictlyDominatesOp ctx op user).run info = none) ∧
      ∃ defBlock, ctx.opParentBlock op = some defBlock ∧
        ctx.blockParentRegion defBlock = none) := by
  unfold DomInfo.opStrictlyDominatesOp
  cases hdef : ctx.opParentBlock op with
  | none =>
      refine Or.inl ⟨false, Returns.pure false, ?_⟩
      simp only [Bool.false_eq_true, false_iff]
      rintro ⟨defBlock, _, hdef', _⟩
      exact absurd (hdef.symm.trans hdef') (by simp)
  | some defBlock =>
      cases hregion : ctx.blockParentRegion defBlock with
      | none =>
          exact Or.inr ⟨fun info => by simp [hregion], defBlock, rfl, hregion⟩
      | some region =>
          left
          obtain ⟨ssa, hssa⟩ := exists_hasSsaDominance h hregion
          have hvalue : ctx.valueParentBlock ⟨valUid, .op op⟩ = some defBlock := hdef
          cases hanc : ctx.findAncestorOpOfOpInRegion user region with
          | none =>
              refine ⟨false, .bind (.lift hregion) (.bind (.lift hssa) ?_), ?_⟩
              · rw [hanc]
                exact Returns.pure false
              · simpa using not_useDominated_of_no_ancestor h hvalue hregion hanc
          | some anc =>
              obtain ⟨block, hblock, _⟩ := opParentRegion_eq_some.mp
                (h.nested.findAncestorOp_eq_some_iff.mp hanc).2
              have hmem : op ∈ ctx.blockOps defBlock := (h.nested.op_mem defBlock op).mpr hdef
              have hk : (ctx.defPoint ⟨valUid, .op op⟩ defBlock).2 ≤
                  (ctx.blockOps defBlock).length := List.idxOf_lt_length_of_mem hmem
              have hrule := useDominated_iff h hvalue hregion hssa hanc hblock
              by_cases heq : defBlock = block
              · subst heq
                refine ⟨!ssa || ctx.strictlyPrecedesInBlock op anc,
                  .bind (.lift hregion) (.bind (.lift hssa) ?_), ?_⟩
                · rw [hanc]
                  refine .bind (.lift hblock) ?_
                  rw [if_pos rfl]
                  exact Returns.pure _
                · rw [hrule, definedBefore_iff h hk hregion, if_pos rfl]
                  cases ssa with
                  | false => simp [DefinedInGraph]
                  | true =>
                      rw [Bool.not_true, Bool.false_or,
                        strictlyPrecedesInBlock_iff h.nested hdef hblock]
                      rfl
              · obtain ⟨tree, htree, hdom⟩ := exists_domTree h hregion
                refine ⟨tree.dominates defBlock block,
                  .bind (.lift hregion) (.bind (.lift hssa) ?_), ?_⟩
                · rw [hanc]
                  refine .bind (.lift hblock) ?_
                  rw [if_neg heq]
                  exact .bind (DomInfo.getDomTree_returns htree) (Returns.pure _)
                · rw [hrule, definedBefore_iff h hk hregion, if_neg (Ne.symm heq), hdom]
                  cases ssa <;> simp

/-- The query on a block argument. -/
theorem blockArg_spec (defBlock : BlockPtr) (valUid : Nat) (user : OpPtr) :
    (∃ b, Returns (DomInfo.Valid ctx)
        (DomInfo.valueStrictlyDominatesOp ctx ⟨valUid, .block defBlock⟩ user) b ∧
      (b = true ↔ ctx.UseDominated ⟨valUid, .block defBlock⟩ user)) ∨
    ((∀ info, (DomInfo.valueStrictlyDominatesOp ctx ⟨valUid, .block defBlock⟩ user).run info =
        none) ∧
      ctx.blockParentRegion defBlock = none) := by
  have hdef : ctx.valueParentBlock ⟨valUid, .block defBlock⟩ = some defBlock := rfl
  unfold DomInfo.valueStrictlyDominatesOp
  cases hparent : ctx.opParentBlock user with
  | none =>
      refine Or.inl ⟨false, Returns.pure false, ?_⟩
      simp only [Bool.false_eq_true, false_iff]
      rintro ⟨_, region, _, _, op, _, ⟨habove, hopr⟩, _⟩
      -- an operation in no block is its only ancestor
      rcases habove.cases_head with rfl | ⟨p, hp, _⟩
      · simp [opParentRegion, hparent] at hopr
      · simp [parentOp, opParentRegion, hparent] at hp
  | some userBlock =>
      cases hregion : ctx.blockParentRegion defBlock with
      | none =>
          exact Or.inr ⟨fun info => by simp [hregion], rfl⟩
      | some region =>
          left
          obtain ⟨ssa, hssa⟩ := exists_hasSsaDominance h hregion
          have hfind := h.nested.findAncestorBlock_eq region hparent
          cases hanc : ctx.findAncestorOpOfOpInRegion user region with
          | none =>
              rw [hanc] at hfind
              refine ⟨false, .bind (.lift hregion) ?_, ?_⟩
              · rw [hfind]
                exact Returns.pure false
              · simpa using not_useDominated_of_no_ancestor h hdef hregion hanc
          | some anc =>
              obtain ⟨block, hblock, _⟩ := opParentRegion_eq_some.mp
                (h.nested.findAncestorOp_eq_some_iff.mp hanc).2
              rw [hanc, Option.bind_some, hblock] at hfind
              obtain ⟨tree, htree, hdom⟩ := exists_domTree h hregion
              refine ⟨tree.dominates defBlock block, .bind (.lift hregion) ?_, ?_⟩
              · rw [hfind]
                exact .bind (DomInfo.getDomTree_returns htree) (Returns.pure _)
              · have hk : (ctx.defPoint ⟨valUid, .block defBlock⟩ defBlock).2 ≤
                    (ctx.blockOps defBlock).length := Nat.zero_le _
                rw [useDominated_iff h hdef hregion hssa hanc hblock,
                  definedBefore_iff h hk hregion, hdom]
                by_cases heq : block = defBlock
                · subst heq
                  simp [DefinedInGraph, defPoint]
                · rw [if_neg heq]
                  cases ssa <;> simp

/-- The query on a value. -/
theorem valueStrictlyDominatesOp_spec (value : Value) (user : OpPtr) :
    (∃ b, Returns (DomInfo.Valid ctx) (DomInfo.valueStrictlyDominatesOp ctx value user) b ∧
      (b = true ↔ ctx.UseDominated value user)) ∨
    ((∀ info, (DomInfo.valueStrictlyDominatesOp ctx value user).run info = none) ∧
      ∃ defBlock, ctx.valueParentBlock value = some defBlock ∧
        ctx.blockParentRegion defBlock = none) := by
  obtain ⟨valUid, op | defBlock⟩ := value
  · exact opStrictlyDominatesOp_spec h op valUid user
  · rcases blockArg_spec h defBlock valUid user with hb | ⟨hnone, hregion⟩
    · exact Or.inl hb
    · exact Or.inr ⟨hnone, defBlock, rfl, hregion⟩

/-- The verifier checks one use as it should. -/
theorem checkUse_decides (value : Value) (use : Use) :
    Decides (DomInfo.Valid ctx) (ctx.checkUse value use) (ctx.UseDominated value use.userOp) := by
  rcases valueStrictlyDominatesOp_spec h value use.userOp with
    ⟨b, hb, hiff⟩ | ⟨hnone, defBlock, hdef, hregion⟩
  · refine Decides.congr (.bind_returns hb ?_) hiff
    cases b with
    | true => exact Decides.pure.congr (by simp)
    | false => exact (Decides.throw _).congr (by simp)
  · refine (Decides.bind_none (fun info _ => hnone info)).congr (iff_of_false id ?_)
    rintro ⟨defBlock', region, hdef', hregion', _⟩
    obtain rfl := Option.some.inj (hdef.symm.trans hdef')
    exact absurd (hregion.symm.trans hregion') (by simp)

theorem checkValueUse_decides (value : Value) :
    Decides (DomInfo.Valid ctx) (ctx.checkValueUse value)
      (∃ uses, ctx.valueUses value = some uses ∧
        ∀ use ∈ uses, ctx.UseDominated value use.userOp) := by
  cases huses : ctx.valueUses value with
  | none =>
      refine (Decides.bind_none ?_).congr (iff_of_false id (by simp))
      exact fun _ _ => by simp [huses]
  | some uses =>
      refine Decides.congr (.bind_returns (.lift huses)
        (.forM (fun use _ => checkUse_decides h value use))) ?_
      simp

theorem checkNode_decides (node : IRNode) :
    Decides (DomInfo.Valid ctx) (ctx.checkNode node)
      (∃ values, ctx.nodeValues node = some values ∧ ∀ value ∈ values,
        ∃ uses, ctx.valueUses value = some uses ∧
          ∀ use ∈ uses, ctx.UseDominated value use.userOp) := by
  cases hvalues : ctx.nodeValues node with
  | none =>
      refine (Decides.bind_none ?_).congr (iff_of_false id (by simp))
      exact fun _ _ => by simp [hvalues]
  | some values =>
      refine Decides.congr (.bind_returns (.lift hvalues)
        (.forM (fun value _ => checkValueUse_decides h value))) ?_
      simp

/-! ## The whole walk -/

omit h in
theorem valueUses_of_mem {node : IRNode} {values : List Value}
    (hvalues : ctx.nodeValues node = some values) (hmem : value ∈ values) :
    ∃ uses, ctx.valueUses value = some uses := by
  have hfind : ∀ {l : List ValueDef} {d : ValueDef}, d ∈ l →
      ∃ d', l.find? (fun e => e.valUid = d.valUid) = some d' := by
    intro l d hd
    exact Option.isSome_iff_exists.mp (List.find?_isSome.mpr ⟨d, hd, by simp⟩)
  rcases node with op | block | region
  · obtain ⟨o, ho, rfl⟩ := Option.map_eq_some_iff.mp hvalues
    obtain ⟨d, hd, rfl⟩ := List.mem_map.mp hmem
    obtain ⟨d', hd'⟩ := hfind hd
    exact ⟨d'.defNode.uses, by simp [valueUses, valueDef, ho, hd']⟩
  · obtain ⟨b, hb, rfl⟩ := Option.map_eq_some_iff.mp hvalues
    obtain ⟨d, hd, rfl⟩ := List.mem_map.mp hmem
    obtain ⟨d', hd'⟩ := hfind hd
    exact ⟨d'.defNode.uses, by simp [valueUses, valueDef, hb, hd']⟩
  · rw [← Option.some.inj hvalues] at hmem
    exact absurd hmem List.not_mem_nil

omit h in
/-- Everything inside an allocated operation is allocated. -/
theorem nodeValues_of_inside {root : OpPtr} (hroot : ctx.operations root ≠ none) {node : IRNode}
    (hnode : ctx.Inside (.operation root) node) : ∃ values, ctx.nodeValues node = some values := by
  rcases hnode.cases_head with rfl | ⟨parent, hparent, _⟩
  · obtain ⟨o, ho⟩ := Option.ne_none_iff_exists'.mp hroot
    exact ⟨o.resultValues root, by simp [nodeValues, ho]⟩
  · rcases node with op | block | region
    · obtain ⟨block, hblock, _⟩ := Option.map_eq_some_iff.mp hparent
      obtain ⟨o, ho⟩ := Option.ne_none_iff_exists'.mp (operations_ne_none hblock)
      exact ⟨o.resultValues op, by simp [nodeValues, ho]⟩
    · obtain ⟨region, hregion, _⟩ := Option.map_eq_some_iff.mp hparent
      obtain ⟨b, hb⟩ := Option.ne_none_iff_exists'.mp (basicBlocks_ne_none hregion)
      exact ⟨b.argValues block, by simp [nodeValues, hb]⟩
    · exact ⟨[], rfl⟩

/-- The verifier accepts exactly the programs whose definitions dominate their uses. -/
theorem verifyValueDominance_ok_iff (root : OpPtr) (hroot : ctx.operations root ≠ none) :
    ctx.verifyValueDominance root = some (.ok ()) ↔
      ∀ value, ctx.DefinedInside root value → ∀ uses, ctx.valueUses value = some uses →
        ∀ use ∈ uses, ctx.UseDominated value use.userOp := by
  have hwalk := walkOp_decides h.nested (checkNode_decides h) root [] (by simp [DomInfo.Valid])
  -- the walk stops at the first node with a use that is not dominated
  have hok : ctx.verifyValueDominance root = some (.ok ()) ↔ ∀ node,
      ctx.Inside (.operation root) node → ∃ values, ctx.nodeValues node = some values ∧
        ∀ value ∈ values, ∃ uses, ctx.valueUses value = some uses ∧
          ∀ use ∈ uses, ctx.UseDominated value use.userOp := by
    constructor
    · intro haccept
      by_contra hbad
      obtain ⟨⟨res, info⟩, hrun, hres⟩ := Option.map_eq_some_iff.mp haccept
      simp only at hres
      subst hres
      exact hwalk.2 hbad info hrun
    · intro hall
      obtain ⟨info, hrun, _⟩ := hwalk.1 hall
      exact Option.map_eq_some_iff.mpr ⟨_, hrun, rfl⟩
  rw [hok]
  constructor
  · rintro hall value ⟨node, values, hnode, hvalues, hmem⟩ uses huses use hu
    obtain ⟨values', hvalues', hdom⟩ := hall node hnode
    obtain rfl := Option.some.inj (hvalues.symm.trans hvalues')
    obtain ⟨uses', huses', hdom⟩ := hdom value hmem
    obtain rfl := Option.some.inj (huses.symm.trans huses')
    exact hdom use hu
  · intro hall node hnode
    obtain ⟨values, hvalues⟩ := nodeValues_of_inside hroot hnode
    refine ⟨values, hvalues, fun value hmem => ?_⟩
    obtain ⟨uses, huses⟩ := valueUses_of_mem hvalues hmem
    exact ⟨uses, huses, hall value ⟨node, values, hnode, hvalues, hmem⟩ uses huses⟩

end Uses

/-- Control never gets from block 1, which is unreachable, to its use in block 2 without the
    definition; still the verifier rejects the use. -/
def unreachableUse : Context := ofCfg [[], [2], []] 1 2

theorem unreachableUse_wellFormed : unreachableUse.WellFormed :=
  ⟨ofCfg_wellNested _ _ _, ofCfg_valid _ _ _ ⟨by decide, by decide, by decide⟩⟩

theorem unreachableUse_rejected :
    unreachableUse.verifyValueDominance ⟨3⟩ =
        some (.error (.useNotDominatedByDef ⟨0, .block ⟨1⟩⟩)) ∧
      unreachableUse.WellFormed ∧
      (∀ value, unreachableUse.DefinedInside ⟨3⟩ value → ∀ uses,
        unreachableUse.valueUses value = some uses → ∀ use ∈ uses, ∀ block region,
          unreachableUse.opParentBlock use.userOp = some block →
          unreachableUse.blockParentRegion block = some region →
          ¬ (unreachableUse.regionGraph region).Reachable block) := by
  refine ⟨by decide +kernel, unreachableUse_wellFormed, ?_⟩
  intro value _ uses huses use hu block region hblock hregion
  rw [ofCfg_valueUses _ _ _ huses, List.mem_singleton] at hu
  subst hu
  obtain rfl : (⟨2⟩ : BlockPtr) = block := Option.some.inj hblock
  obtain rfl : (⟨0⟩ : RegionPtr) = region := Option.some.inj hregion
  rintro ⟨r, hr, hreach⟩
  obtain rfl : (⟨0⟩ : BlockPtr) = r := Option.some.inj hr
  -- no edge leaves the entry
  rcases ReflTransGen.cases_head hreach with heq | ⟨c, hc, _⟩
  · exact absurd heq (by decide)
  · exact absurd (show c ∈ ([] : List BlockPtr) from hc) List.not_mem_nil

theorem verifyValueDominance_ok_iff_unreachableUse :
    unreachableUse.verifyValueDominance ⟨3⟩ = some (.ok ()) ↔
      ∀ value, unreachableUse.DefinedInside ⟨3⟩ value → ∀ uses,
        unreachableUse.valueUses value = some uses →
          ∀ use ∈ uses, unreachableUse.UseDominated value use.userOp :=
  verifyValueDominance_ok_iff unreachableUse_wellFormed ⟨3⟩ (by simp [unreachableUse, ofCfg])

end Context

end Pliron
