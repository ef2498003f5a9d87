/-
  Pliron.Opts.SccpStable

  What holds between two visits of the analysis.

  Every operation that was reached is in the worklist, or visiting it changes nothing.  For the
  edges that start at a terminator in a region this is said of the terminator and the operation
  around it together, since either can be queued when an operand changes.  A finished run is
  therefore stable everywhere.
-/

import Pliron.IR.DefUse
import Pliron.Opts.SccpTransfer

namespace Pliron

open Pliron.Lib Relation

namespace Sccp

open SccpState

variable {A : Type} [DecidableEq A]

/-! ## The parts of a visit -/

section Parts

variable (ctx : Context) (ifaces : OpInterfaces A)

/-- What processing an operation does by its kind, apart from the edges of a terminator. -/
def processKind (parent : Option OpPtr) (op : OpPtr) (st : SccpState A) : Option (SccpState A) :=
  match parent, ifaces.branch op, ifaces.fold op with
  | some _, _, _ => some st
  | none, some branchOp, _ => processBranchOp ctx branchOp op st
  | none, none, some checkFold => processFoldOp ctx checkFold op st
  | none, none, none => processGenericOp ctx op st

/-- What processing an operation does that reads its own operands only. -/
def processLocal (op : OpPtr) (st : SccpState A) : Option (SccpState A) :=
  match ifaces.regionBranch op with
  | some regionBranch => processParentEdges ctx regionBranch op st
  | none => do
      let parent ← regionBranchParent ctx ifaces op
      let st ← st.seedNestedRegions ctx op
      processKind ctx ifaces parent op st

/-- What processing an operation does at terminators in regions. -/
def processTerminators (op : OpPtr) (st : SccpState A) : Option (SccpState A) :=
  match ifaces.regionBranch op with
  | some regionBranch =>
      regionBranch.terminators.foldlM (fun st terminator =>
        if terminator ∈ st.reachableOps then processRegionTerminator ctx ifaces terminator op st
        else some st) st
  | none => do
      match ← regionBranchParent ctx ifaces op with
      | some parent => processRegionTerminator ctx ifaces op parent st
      | none => some st

/-- Mark the next operation as reachable, if control continues there. -/
def proceed (op : OpPtr) (st : SccpState A) : Option (SccpState A) := do
  if ← fallsThrough ctx ifaces op then st.markNextReachable ctx op else some st

/-- Visiting `op` again changes nothing, except at terminators. -/
def LocallyStable (st : SccpState A) (op : OpPtr) : Prop :=
  processLocal ctx ifaces op st = some st ∧ proceed ctx ifaces op st = some st

/-- The state without one entry of the worklist. -/
def SccpState.popped (st : SccpState A) (op : OpPtr) : SccpState A :=
  { st with opWorklist := st.opWorklist.erase op }

end Parts

variable {ctx : Context} {ifaces : OpInterfaces A} {root op : OpPtr} {nodes : OpPtr → Prop}
  {st st' : SccpState A}

theorem processOp_parts (h : processOp ctx ifaces op st = some st') :
    (∃ parent, regionBranchParent ctx ifaces op = some parent ∧ kindCount ifaces op parent ≤ 1) ∧
      ∃ s, processLocal ctx ifaces op st = some s ∧
        processTerminators ctx ifaces op s = some st' := by
  unfold processOp at h
  obtain ⟨parent, hparent, h⟩ := Option.bind_eq_some_iff.mp h
  obtain ⟨_, hguard, h⟩ := Option.bind_eq_some_iff.mp h
  refine ⟨⟨parent, hparent, ?_⟩, ?_⟩
  · by_contra hcount
    rw [guard, if_neg hcount] at hguard
    cases hguard
  cases hregion : ifaces.regionBranch op with
  | some regionBranch =>
      simp only [hregion] at h
      obtain ⟨s, hs, hst⟩ := Option.bind_eq_some_iff.mp h
      refine ⟨s, ?_, ?_⟩
      · simp only [processLocal, hregion]
        exact hs
      · simp only [processTerminators, hregion]
        exact hst
  | none =>
      simp only [hregion] at h
      obtain ⟨s, hs, hst⟩ := Option.bind_eq_some_iff.mp h
      simp only [processLocal, processKind, processTerminators, hregion, hparent,
        Option.bind_eq_bind, Option.bind_some, hs]
      cases parent with
      | some p => exact ⟨s, rfl, hst⟩
      | none =>
          cases hbranch : ifaces.branch op with
          | some branchOp =>
              simp only [hbranch] at hst
              exact ⟨st', hst, rfl⟩
          | none =>
              simp only [hbranch] at hst
              cases hfold : ifaces.fold op with
              | some checkFold =>
                  simp only [hfold] at hst
                  exact ⟨st', hst, rfl⟩
              | none =>
                  simp only [hfold] at hst
                  exact ⟨st', hst, rfl⟩

/-- A visit, and that a terminator that starts region edges has no regions of that kind. -/
theorem visit_parts (h : visit ctx ifaces op st = some st') :
    (∀ parent, regionBranchParent ctx ifaces op = some (some parent) →
      ifaces.regionBranch op = none) ∧
    ∃ s t, processLocal ctx ifaces op (st.popped op) = some s ∧
      processTerminators ctx ifaces op s = some t ∧ proceed ctx ifaces op t = some st' := by
  unfold visit at h
  obtain ⟨t, ht, hst⟩ := Option.bind_eq_some_iff.mp h
  obtain ⟨⟨parent, hparent, hcount⟩, s, hs, hst'⟩ := processOp_parts ht
  refine ⟨fun p hp => ?_, s, t, hs, hst', hst⟩
  obtain rfl := Option.some.inj (hparent.symm.trans hp)
  by_contra hsome
  rw [← Ne.eq_def, Option.ne_none_iff_isSome] at hsome
  unfold kindCount at hcount
  rw [hsome, Option.isSome_some, Bool.toNat_true] at hcount
  omega

/-! ## Nesting -/

section Nesting

variable (hnest : ctx.WellNested)
include hnest

theorem parentOp_firstOp {block : BlockPtr} {n : OpPtr} {region : RegionPtr}
    (hblock : ctx.blockParentRegion block = some region) (hn : ctx.firstOp block = some n) :
    ctx.parentOp n = ctx.regionParentOp region := by
  have hmem : n ∈ ctx.blockOps block := List.mem_of_mem_head? hn
  have hparent := (hnest.op_mem block n).mp hmem
  unfold Context.parentOp Context.opParentRegion
  rw [hparent]
  show (ctx.blockParentRegion block).bind _ = _
  rw [hblock]
  rfl

theorem parentOp_entryOp {region : RegionPtr} {n : OpPtr} (hregion : region ∈ ctx.opRegions op)
    (hn : ctx.entryOp region = some n) : ctx.parentOp n = some op := by
  unfold Context.entryOp at hn
  obtain ⟨entry, hentry, hn⟩ := Option.bind_eq_some_iff.mp hn
  have hmem : entry ∈ ctx.regionBlocks region := List.mem_of_mem_head? hentry
  rw [parentOp_firstOp hnest ((hnest.block_mem region entry).mp hmem) hn]
  exact (hnest.region_mem op region).mp hregion

omit hnest in
/-- An operation and the next one are neighbours in a block. -/
theorem nextOpOf_split {n : OpPtr} (hn : ctx.nextOpOf op = some n) :
    ∃ block before after, ctx.opParentBlock op = some block ∧
      ctx.blockOps block = before ++ op :: n :: after := by
  unfold Context.nextOpOf Context.opsAfter at hn
  cases hblock : ctx.opParentBlock op with
  | none =>
      simp only [hblock] at hn
      cases hn
  | some block =>
      simp only [hblock] at hn
      have hsplit := List.takeWhile_append_dropWhile
        (p := fun o => decide (o ≠ op)) (l := ctx.blockOps block)
      cases hdrop : (ctx.blockOps block).dropWhile (fun o => decide (o ≠ op)) with
      | nil =>
          rw [hdrop] at hn
          cases hn
      | cons m rest =>
          have hm : m = op := by
            have hhead := List.head_dropWhile_not (fun o => decide (o ≠ op))
              (l := ctx.blockOps block) (by rw [hdrop]; exact List.cons_ne_nil m rest)
            simp only [hdrop, List.head_cons, decide_eq_false_iff_not, not_not] at hhead
            exact hhead
          rw [hdrop] at hn hsplit
          cases rest with
          | nil => cases hn
          | cons n' after =>
              obtain rfl := Option.some.inj hn
              subst hm
              exact ⟨block, _, after, rfl, hsplit.symm⟩

theorem opParentBlock_nextOpOf {n : OpPtr} (hn : ctx.nextOpOf op = some n) :
    ctx.opParentBlock n = ctx.opParentBlock op := by
  obtain ⟨block, before, after, hblock, hops⟩ := nextOpOf_split hn
  rw [hblock]
  refine (hnest.op_mem block n).mp ?_
  rw [hops]
  exact List.mem_append_right _ (List.mem_cons_of_mem _ List.mem_cons_self)

/-- Only one operation comes right before another one. -/
theorem nextOpOf_injective {m n : OpPtr} (hm : ctx.nextOpOf m = some n)
    (hop : ctx.nextOpOf op = some n) : m = op := by
  obtain ⟨block, before, after, hblock, hops⟩ := nextOpOf_split hm
  obtain ⟨block', before', after', hblock', hops'⟩ := nextOpOf_split hop
  have heq : block = block' := by
    have h := opParentBlock_nextOpOf hnest hm
    rw [opParentBlock_nextOpOf hnest hop, hblock, hblock'] at h
    exact (Option.some.inj h).symm
  subst heq
  have hnodup := hnest.ops_nodup block
  have hidx : ∀ {front : List OpPtr} {x : OpPtr} {back : List OpPtr},
      ctx.blockOps block = front ++ x :: n :: back → (ctx.blockOps block).idxOf n = front.length + 1 ∧
        (ctx.blockOps block)[front.length]? = some x := by
    intro front x back h
    have hget : (ctx.blockOps block)[front.length + 1]? = some n := by
      rw [h, List.getElem?_append_right (Nat.le_succ _)]
      show (x :: n :: back)[front.length + 1 - front.length]? = some n
      rw [Nat.add_sub_cancel_left]
      rfl
    obtain ⟨hlt, hget'⟩ := List.getElem?_eq_some_iff.mp hget
    refine ⟨?_, ?_⟩
    · rw [← hget']
      exact hnodup.idxOf_getElem _ hlt
    · rw [h, List.getElem?_append_right (Nat.le_refl _), Nat.sub_self]
      rfl
  obtain ⟨hidx₁, hget₁⟩ := hidx hops
  obtain ⟨hidx₂, hget₂⟩ := hidx hops'
  have hlen : before.length = before'.length := by omega
  rw [hlen, hget₂] at hget₁
  exact (Option.some.inj hget₁).symm

/-- No operation comes before the first one. -/
theorem nextOpOf_ne_firstOp {block : BlockPtr} {n : OpPtr} (hn : ctx.firstOp block = some n) :
    ctx.nextOpOf op ≠ some n := by
  intro hop
  obtain ⟨block', before, after, hblock, hops⟩ := nextOpOf_split hop
  have hmem : n ∈ ctx.blockOps block := List.mem_of_mem_head? hn
  have heq : block' = block := by
    have h := opParentBlock_nextOpOf hnest hop
    rw [(hnest.op_mem block n).mp hmem, hblock] at h
    exact (Option.some.inj h).symm
  subst heq
  have hnodup := hnest.ops_nodup block'
  unfold Context.firstOp at hn
  rw [hops] at hn hnodup
  cases before with
  | nil =>
      obtain rfl := Option.some.inj hn
      exact (List.nodup_cons.mp hnodup).1 List.mem_cons_self
  | cons m before =>
      obtain rfl := Option.some.inj hn
      exact (List.nodup_cons.mp hnodup).1
        (List.mem_append_right _ (List.mem_cons_of_mem _ List.mem_cons_self))

theorem nextOpOf_ne_entryOp {region : RegionPtr} {n : OpPtr} (hn : ctx.entryOp region = some n) :
    ctx.nextOpOf op ≠ some n := by
  obtain ⟨entry, _, hn⟩ := Option.bind_eq_some_iff.mp hn
  exact nextOpOf_ne_firstOp hnest hn

end Nesting

/-! ## Programs that can be analyzed -/

/-- What a verified program promises the analysis of `root`. -/
structure Ready (ctx : Context) (ifaces : OpInterfaces A) (root : OpPtr) : Prop where
  nested : ctx.WellNested
  defUse : ctx.DefUse
  /-- Control stays in the region of a branch. -/
  succs : ∀ op o, ctx.operations op = some o → ∀ block ∈ o.successorDefs, ∀ region,
    ctx.opParentRegion op = some region → ctx.blockParentRegion block = some region
  verified : ∀ op regionBranch, ifaces.regionBranch op = some regionBranch →
    regionBranch.Verified ctx op
  /-- An operation does not use what its own regions define. -/
  operands : ∀ val ∈ ctx.opOperands root, ¬ ctx.DefinedWithin root val

/-- What is marked in a state: operations directly inside `root` or a reached operation, where
    the one before is reached too. -/
def Inner (ctx : Context) (st : SccpState A) (n : OpPtr) : Prop :=
  (∃ parent, ctx.parentOp n = some parent ∧ (parent = st.rootOp ∨ parent ∈ st.reachableOps)) ∧
    ∀ m, ctx.nextOpOf m = some n → m ∈ st.reachableOps

variable (ctx ifaces) in
/-- What holds between two visits. -/
structure Settled (st : SccpState A) : Prop where
  queue : ∀ op ∈ st.opWorklist, op ∈ st.reachableOps
  parents : ∀ op ∈ st.reachableOps, Inner ctx st op
  rootOperands : ∀ val ∈ ctx.opOperands st.rootOp, st.getValState val = .notAConstant
  ops : ∀ op ∈ st.reachableOps, op ∈ st.opWorklist ∨ LocallyStable ctx ifaces st op
  terminators : ∀ op ∈ st.reachableOps, ∀ parent,
    regionBranchParent ctx ifaces op = some (some parent) →
      (∃ n, (n = op ∨ n = parent) ∧ n ∈ st.opWorklist) ∨
        processRegionTerminator ctx ifaces op parent st = some st

theorem mem_valueUsers (hdefUse : ctx.DefUse) {val : Value} (hval : val ∈ ctx.opOperands op) :
    op ∈ ctx.valueUsers val := by
  unfold Context.opOperands at hval
  cases hop : ctx.operations op with
  | none => simp [hop] at hval
  | some o =>
      rw [hop] at hval
      obtain ⟨opd, hopd, rfl⟩ := List.mem_map.mp hval
      have href : (opd.useUid, Def.value opd.defn) ∈ ctx.refsOf op := by
        unfold Context.refsOf Operation.refs
        rw [hop]
        exact List.mem_append_left _ (List.mem_map_of_mem hopd)
      obtain ⟨us, hus, hmem⟩ := hdefUse.consistent.recorded op _ href
      obtain ⟨uses, huses, rfl⟩ := Option.map_eq_some_iff.mp hus
      obtain ⟨u, hu, hpair⟩ := List.mem_map.mp hmem
      have huser : u.userOp = op := congrArg Prod.fst hpair
      unfold Context.valueUsers
      rw [show ctx.valueUses opd.defn = some uses from huses, ← huser]
      exact List.mem_map_of_mem hu

section Transfers

variable (hready : Ready ctx ifaces root) (hcovers : Covers ctx root nodes op)
  (hsuccs : ∀ o, ctx.operations op = some o → ∀ block ∈ o.successorDefs,
    ∀ n, ctx.firstOp block = some n → nodes n)
include hready hcovers

include hsuccs in
omit hready hcovers in
theorem processKind_transfer (parent : Option OpPtr) :
    Transfer ctx root nodes (ctx.opOperands op) (processKind ctx ifaces parent op) := by
  have hreads : ∀ val ∈ ctx.opOperands op, val ∈ ctx.opOperands op := fun _ hval => hval
  unfold processKind
  cases parent with
  | some _ => exact Transfer.same
  | none =>
      cases ifaces.branch op with
      | some branchOp => exact processBranchOp_transfer hreads hsuccs
      | none =>
          cases ifaces.fold op with
          | some checkFold => exact processFoldOp_transfer checkFold hreads
          | none => exact processGenericOp_transfer

include hsuccs in
theorem processLocal_transfer :
    Transfer ctx root nodes (ctx.opOperands op) (processLocal ctx ifaces op) := by
  have hreads : ∀ val ∈ ctx.opOperands op, val ∈ ctx.opOperands op := fun _ hval => hval
  unfold processLocal
  cases hregion : ifaces.regionBranch op with
  | some regionBranch =>
      exact processParentEdges_transfer hready.nested hcovers
        (hready.verified op regionBranch hregion) hreads
  | none =>
      refine Transfer.lookup (fun parent _ => ?_)
      exact (seedNestedRegions_transfer hcovers).andThen (processKind_transfer hsuccs parent)

omit hready in
theorem proceed_transfer : Transfer (A := A) ctx root nodes (ctx.opOperands op)
    (proceed ctx ifaces op) := by
  refine Transfer.lookup (fun falls _ => ?_)
  cases falls with
  | false => exact Transfer.same
  | true => exact markNextReachable_transfer hcovers.next

end Transfers

omit [DecidableEq A] in
theorem regionBranchParent_eq {terminator parent : OpPtr}
    (h : regionBranchParent ctx ifaces terminator = some (some parent)) :
    ctx.parentOp terminator = some parent ∧ ∃ regionBranch,
      ifaces.regionBranch parent = some regionBranch ∧ terminator ∈ regionBranch.terminators := by
  unfold regionBranchParent at h
  obtain ⟨o, ho, h⟩ := Option.bind_eq_some_iff.mp h
  by_cases hterm : o.concreteOp.isTerminator = true
  · simp only [hterm, Bool.not_true, Bool.false_eq_true, if_false] at h
    cases hparent : ctx.parentOp terminator with
    | none => simp [hparent] at h
    | some p =>
        simp only [hparent] at h
        cases hregion : ifaces.regionBranch p with
        | none => simp [hregion] at h
        | some regionBranch =>
            simp only [hregion] at h
            by_cases hempty : (regionBranch.edgesFrom (.terminator terminator)).isEmpty = true
            · simp [hempty] at h
            · simp only [hempty] at h
              obtain rfl := Option.some.inj (Option.some.inj h)
              refine ⟨rfl, regionBranch, hregion, ?_⟩
              obtain ⟨edge, hedge⟩ := List.exists_mem_of_ne_nil _
                (fun hnil => hempty (List.isEmpty_iff.mpr hnil))
              obtain ⟨hmem, hsource⟩ := mem_edgesFrom.mp hedge
              exact mem_terminators.mpr ⟨edge, hmem, hsource⟩
  · simp [hterm] at h

/-! ## What a visit keeps -/

section Visits

variable (hready : Ready ctx ifaces st.rootOp)
include hready

omit [DecidableEq A] in
theorem covers_root : Covers ctx st.rootOp (Inner ctx st) st.rootOp where
  regions _ hregion _ hn := ⟨⟨st.rootOp, parentOp_entryOp hready.nested hregion hn, Or.inl rfl⟩,
    fun _ hm => absurd hm (nextOpOf_ne_entryOp hready.nested hn)⟩
  next hne := absurd rfl hne

omit [DecidableEq A] in
theorem covers_of_reached (hparents : Inner ctx st op) (hop : op ∈ st.reachableOps) :
    Covers ctx st.rootOp (Inner ctx st) op where
  regions _ hregion _ hn := ⟨⟨op, parentOp_entryOp hready.nested hregion hn, Or.inr hop⟩,
    fun _ hm => absurd hm (nextOpOf_ne_entryOp hready.nested hn)⟩
  next _ n hn := by
    obtain ⟨⟨parent, hparent, hin⟩, _⟩ := hparents
    refine ⟨⟨parent, ?_, hin⟩, fun m hm => ?_⟩
    · unfold Context.parentOp Context.opParentRegion at hparent ⊢
      rwa [opParentBlock_nextOpOf hready.nested hn]
    · rwa [nextOpOf_injective hready.nested hm hn]

omit [DecidableEq A] in
theorem covers_succs (hparents : Inner ctx st op) : ∀ o, ctx.operations op = some o →
    ∀ block ∈ o.successorDefs, ∀ n, ctx.firstOp block = some n → Inner ctx st n := by
  intro o ho block hblock n hn
  obtain ⟨⟨parent, hparent, hin⟩, _⟩ := hparents
  obtain ⟨region, hregion, hparent'⟩ := Option.bind_eq_some_iff.mp hparent
  have hsucc := hready.succs op o ho block hblock region hregion
  exact ⟨⟨parent, (parentOp_firstOp hready.nested hsucc hn).trans hparent', hin⟩,
    fun _ hm => absurd hm (nextOpOf_ne_firstOp hready.nested hn)⟩

end Visits

section Terminators

variable (hready : Ready ctx ifaces root) {s t : SccpState A}
include hready

theorem terminator_transfer {terminator parent : OpPtr} (hcovers : Covers ctx root nodes parent) :
    Transfer ctx root nodes (ctx.opOperands terminator ++ ctx.opOperands parent)
      (processRegionTerminator ctx ifaces terminator parent) :=
  processRegionTerminator_transfer hready.nested hcovers (hready.verified parent)
    (fun _ hval => List.mem_append_left _ hval) (fun _ hval => List.mem_append_right _ hval)

/-- The edges of a terminator are processed with it, and with the operation around it. -/
theorem processTerminators_steps (hroot : s.rootOp = root)
    (hparent : ∀ parent, regionBranchParent ctx ifaces op = some (some parent) →
      ifaces.regionBranch op = none ∧ Covers ctx root nodes parent)
    (hcovers : Covers ctx root nodes op) (h : processTerminators ctx ifaces op s = some t) :
    Moves ctx nodes s t ∧ ∀ terminator parent,
      regionBranchParent ctx ifaces terminator = some (some parent) →
      terminator = op ∨ (parent = op ∧ terminator ∈ s.reachableOps) →
      ∃ s₁ s₂, Moves ctx nodes s s₁ ∧
        processRegionTerminator ctx ifaces terminator parent s₁ = some s₂ ∧
        Moves ctx nodes s₂ t := by
  unfold processTerminators at h
  cases hregion : ifaces.regionBranch op with
  | none =>
      simp only [hregion] at h
      obtain ⟨opt, hopt, h⟩ := Option.bind_eq_some_iff.mp h
      cases opt with
      | none =>
          obtain rfl := Option.some.inj h
          refine ⟨Moves.refl s, fun terminator parent hp hcase => ?_⟩
          rcases hcase with rfl | ⟨rfl, _⟩
          · rw [hopt] at hp
            cases Option.some.inj hp
          · obtain ⟨_, _, hsome, _⟩ := regionBranchParent_eq hp
            rw [hregion] at hsome
            cases hsome
      | some p =>
          have hp' := (hparent p hopt).2
          have hmoves := (terminator_transfer hready hp').moves s t hroot h
          refine ⟨hmoves, fun terminator parent hp hcase => ?_⟩
          rcases hcase with rfl | ⟨rfl, _⟩
          · obtain rfl := Option.some.inj (Option.some.inj (hopt.symm.trans hp))
            exact ⟨s, t, Moves.refl s, h, Moves.refl t⟩
          · obtain ⟨_, _, hsome, _⟩ := regionBranchParent_eq hp
            rw [hregion] at hsome
            cases hsome
  | some regionBranch =>
      simp only [hregion] at h
      have hstep : ∀ a ∈ regionBranch.terminators, ∀ s₁ s₂ : SccpState A, Moves ctx nodes s s₁ →
          (if a ∈ s₁.reachableOps then processRegionTerminator ctx ifaces a op s₁ else some s₁) =
            some s₂ → Moves ctx nodes s₁ s₂ := by
        intro a _ s₁ s₂ hs₁ heq
        by_cases ha : a ∈ s₁.reachableOps
        · rw [if_pos ha] at heq
          exact (terminator_transfer hready hcovers).moves s₁ s₂ (hs₁.rootOp.trans hroot) heq
        · rw [if_neg ha] at heq
          obtain rfl := Option.some.inj heq
          exact Moves.refl s₁
      obtain ⟨hmoves, hplace⟩ := foldlM_steps (R := Moves ctx nodes) Moves.refl Moves.trans hstep h
      refine ⟨hmoves, fun terminator parent hp hcase => ?_⟩
      rcases hcase with rfl | ⟨rfl, hreached⟩
      · have hnone := (hparent parent hp).1
        rw [hregion] at hnone
        cases hnone
      · obtain ⟨_, rb, hrb, hmem⟩ := regionBranchParent_eq hp
        obtain rfl := Option.some.inj (hregion.symm.trans hrb)
        obtain ⟨s₁, s₂, hs₁, heq, hs₂⟩ := hplace terminator hmem
        rw [if_pos (hs₁.descends.mem_reachableOps hreached)] at heq
        exact ⟨s₁, s₂, hs₁, heq, hs₂⟩

end Terminators

/-! ## Runs -/

theorem popped_descends (st : SccpState A) (op : OpPtr) : Descends st (st.popped op) :=
  ⟨⟨fun _ => le_refl _, fun _ hn => hn⟩, rfl⟩

theorem Inner.descends {n : OpPtr} (h : Inner ctx st n) (hdesc : Descends st st') :
    Inner ctx st' n := by
  obtain ⟨⟨parent, hparent, hin⟩, hbefore⟩ := h
  refine ⟨⟨parent, hparent, ?_⟩, fun m hm => hdesc.mem_reachableOps (hbefore m hm)⟩
  rcases hin with hin | hin
  · exact Or.inl (hin.trans hdesc.2.symm)
  · exact Or.inr (hdesc.mem_reachableOps hin)

/-- The operands of a reached operation are as before, or it is queued. -/
theorem operands_same_or_queued (hdefUse : ctx.DefUse) (hmoves : Moves ctx nodes st st')
    (hop : op ∈ st'.reachableOps) :
    SameOn (ctx.opOperands op) st st' ∨ op ∈ st'.opWorklist := by
  have hchange := @Store.Later.same_or_queued Value OpPtr (Constness A) ctx.valueUsers st.store
    st'.store _ (· ∈ ctx.opOperands op) (· = op) hmoves.later
    (fun val hval _ => ⟨op, rfl, mem_valueUsers hdefUse hval, hop⟩)
  rcases hchange with hsame | ⟨_, rfl, hqueued⟩
  · exact Or.inl hsame
  · exact Or.inr hqueued

/-- The three parts of a visit as moves, and the terminators that it processed. -/
structure Trace (ctx : Context) (ifaces : OpInterfaces A) (op : OpPtr)
    (st s t st' : SccpState A) : Prop where
  runLocal : processLocal ctx ifaces op (st.popped op) = some s
  runProceed : proceed ctx ifaces op t = some st'
  first : Moves ctx (Inner ctx st) (st.popped op) s
  second : Moves ctx (Inner ctx st) s t
  third : Moves ctx (Inner ctx st) t st'
  terminators : ∀ terminator parent,
    regionBranchParent ctx ifaces terminator = some (some parent) →
    terminator = op ∨ (parent = op ∧ terminator ∈ s.reachableOps) →
    ∃ s₁ s₂, Moves ctx (Inner ctx st) s s₁ ∧
      processRegionTerminator ctx ifaces terminator parent s₁ = some s₂ ∧
      Moves ctx (Inner ctx st) s₂ t

namespace Trace

variable {s t : SccpState A}

theorem moves (h : Trace ctx ifaces op st s t st') :
    Moves ctx (Inner ctx st) (st.popped op) st' :=
  h.first.trans (h.second.trans h.third)

theorem descends (h : Trace ctx ifaces op st s t st') : Descends st st' :=
  (popped_descends st op).trans h.moves.descends

end Trace

namespace Settled

variable (hready : Ready ctx ifaces st.rootOp) (hs : Settled ctx ifaces st) {s t : SccpState A}
include hready hs

theorem covers {n : OpPtr} (hn : n ∈ st.reachableOps) : Covers ctx st.rootOp (Inner ctx st) n :=
  covers_of_reached hready (hs.parents n hn) hn

theorem coversParent {n parent : OpPtr} (hn : n ∈ st.reachableOps)
    (hparent : ctx.parentOp n = some parent) : Covers ctx st.rootOp (Inner ctx st) parent := by
  obtain ⟨⟨parent', hparent', hin⟩, _⟩ := hs.parents n hn
  obtain rfl := Option.some.inj (hparent.symm.trans hparent')
  rcases hin with rfl | hin
  · exact covers_root hready
  · exact hs.covers hready hin

theorem local_transfer {n : OpPtr} (hn : n ∈ st.reachableOps) :
    Transfer ctx st.rootOp (Inner ctx st) (ctx.opOperands n) (processLocal ctx ifaces n) :=
  processLocal_transfer hready (hs.covers hready hn) (covers_succs hready (hs.parents n hn))

theorem trace (hop : op ∈ st.opWorklist) (h : Sccp.visit ctx ifaces op st = some st') :
    ∃ s t, Trace ctx ifaces op st s t st' := by
  obtain ⟨hexclusive, s, t, hlocal, hterm, hproceed⟩ := visit_parts h
  have hreached := hs.queue op hop
  have hcovers := hs.covers hready hreached
  have hfirst := (hs.local_transfer hready hreached).moves (st.popped op) s rfl hlocal
  obtain ⟨hsecond, hsteps⟩ := processTerminators_steps hready hfirst.rootOp
    (fun parent hp => ⟨hexclusive parent hp,
      hs.coversParent hready hreached (regionBranchParent_eq hp).1⟩) hcovers hterm
  have hroot : t.rootOp = st.rootOp := hsecond.rootOp.trans hfirst.rootOp
  have hthird := (@proceed_transfer A _ ctx ifaces _ op _ hcovers).moves t st' hroot hproceed
  exact ⟨s, t, hlocal, hproceed, hfirst, hsecond, hthird, hsteps⟩

/-- After a visit, an operation that was reached before is queued, or locally stable. -/
theorem ops_trace (h : Trace ctx ifaces op st s t st') {n : OpPtr} (hn : n ∈ st.reachableOps) :
    n ∈ st'.opWorklist ∨ LocallyStable ctx ifaces st' n := by
  have hlocal := hs.local_transfer hready hn
  have hproceed := @proceed_transfer A _ ctx ifaces _ n _ (hs.covers hready hn)
  rcases operands_same_or_queued hready.defUse h.moves (h.descends.mem_reachableOps hn) with
    hsame | hqueued
  · by_cases hnop : n = op
    · subst hnop
      have hroot : t.rootOp = st.rootOp := h.second.rootOp.trans h.first.rootOp
      have hsame' := (h.first.trans h.second).descends.sameOn h.third.descends hsame
      right
      constructor
      · exact hlocal.replay (st.popped n) s st' rfl h.runLocal (h.second.trans h.third).descends
          hsame
      · exact hproceed.replay t st' st' hroot h.runProceed (Descends.refl st') hsame'
    · rcases hs.ops n hn with hqueued | ⟨hstable, hstable'⟩
      · left
        exact h.moves.later.queue n ((List.mem_erase_of_ne hnop).mpr hqueued)
      · right
        constructor
        · exact hlocal.replay st st st' rfl hstable h.descends hsame
        · exact hproceed.replay st st st' rfl hstable' h.descends hsame
  · exact Or.inl hqueued

/-- After a visit, the operands of the operation around a reached one are as before, or it is
    queued: the operands of the root never change. -/
theorem parent_trace (h : Trace ctx ifaces op st s t st') {n parent : OpPtr}
    (hn : n ∈ st.reachableOps) (hparent : ctx.parentOp n = some parent) :
    SameOn (ctx.opOperands parent) (st.popped op) st' ∨ parent ∈ st'.opWorklist := by
  obtain ⟨⟨parent', hparent', hin⟩, _⟩ := hs.parents n hn
  obtain rfl := Option.some.inj (hparent.symm.trans hparent')
  rcases hin with rfl | hin
  · refine Or.inl (fun val hval => ?_)
    have hbot : (st.popped op).getValState val = .notAConstant := hs.rootOperands val hval
    have hle := h.moves.descends.getValState_le val
    rw [hbot] at hle ⊢
    exact Constness.le_bot_iff.mp hle
  · exact operands_same_or_queued hready.defUse h.moves (h.descends.mem_reachableOps hin)

/-- After a visit, the edges of a terminator that was reached before are stable, or it is queued,
    or the operation around it is. -/
theorem terminators_trace (h : Trace ctx ifaces op st s t st') {n parent : OpPtr}
    (hn : n ∈ st.reachableOps) (hp : regionBranchParent ctx ifaces n = some (some parent)) :
    (∃ m, (m = n ∨ m = parent) ∧ m ∈ st'.opWorklist) ∨
      processRegionTerminator ctx ifaces n parent st' = some st' := by
  have hparent := (regionBranchParent_eq hp).1
  have htrans := @terminator_transfer A _ ctx ifaces _ _ hready n _
    (hs.coversParent hready hn hparent)
  rcases operands_same_or_queued hready.defUse h.moves (h.descends.mem_reachableOps hn) with
    hsame | hqueued
  · rcases hs.parent_trace hready h hn hparent with hsame' | hqueued
    · have hboth : SameOn (ctx.opOperands n ++ ctx.opOperands parent) (st.popped op) st' := by
        intro val hval
        rcases List.mem_append.mp hval with hval | hval
        · exact hsame val hval
        · exact hsame' val hval
      by_cases hcase : n = op ∨ parent = op
      · obtain ⟨s₁, s₂, hs₁, hrun, hs₂⟩ := h.terminators n parent hp
          (hcase.imp_right (fun hpo => ⟨hpo, h.first.descends.mem_reachableOps hn⟩))
        have hbefore := h.first.trans hs₁
        have hafter := hs₂.trans h.third
        have hmid := htrans.moves s₁ s₂ hbefore.rootOp hrun
        right
        exact htrans.replay s₁ s₂ st' hbefore.rootOp hrun hafter.descends
          (hbefore.descends.sameOn (hmid.trans hafter).descends hboth)
      · rw [not_or] at hcase
        rcases hs.terminators n hn parent hp with ⟨m, hm, hqueued⟩ | hstable
        · have hmop : m ≠ op := by
            rcases hm with rfl | rfl
            · exact hcase.1
            · exact hcase.2
          left
          exact ⟨m, hm, h.moves.later.queue m ((List.mem_erase_of_ne hmop).mpr hqueued)⟩
        · right
          exact htrans.replay st st st' rfl hstable h.descends hboth
    · exact Or.inl ⟨parent, Or.inr rfl, hqueued⟩
  · exact Or.inl ⟨n, Or.inl rfl, hqueued⟩

/-- A visit of an operation in the worklist keeps what holds between visits. -/
theorem visit (hop : op ∈ st.opWorklist) (hvisit : Sccp.visit ctx ifaces op st = some st') :
    Settled ctx ifaces st' ∧ Moves ctx (Inner ctx st) (st.popped op) st' := by
  obtain ⟨s, t, h⟩ := hs.trace hready hop hvisit
  have hnew : ∀ n ∈ st'.reachableOps, n ∉ st.reachableOps → n ∈ st'.opWorklist :=
    h.moves.later.newly
  refine ⟨⟨?_, ?_, ?_, ?_, ?_⟩, h.moves⟩
  · have hqueue : (st.popped op).store.QueueReached := fun n hn =>
      hs.queue n (List.mem_of_mem_erase hn)
    exact hqueue.moves h.moves.store
  · intro n hn
    rcases h.moves.reached hn with hn | hn
    · exact (hs.parents n hn).descends h.descends
    · exact hn.descends h.descends
  · intro val hval
    rw [h.descends.2] at hval
    have hle := h.descends.getValState_le val
    rw [hs.rootOperands val hval] at hle
    exact Constness.le_bot_iff.mp hle
  · intro n hn
    by_cases hold : n ∈ st.reachableOps
    · exact hs.ops_trace hready h hold
    · exact Or.inl (hnew n hn hold)
  · intro n hn parent hp
    by_cases hold : n ∈ st.reachableOps
    · exact hs.terminators_trace hready h hold hp
    · exact Or.inl ⟨n, Or.inl rfl, hnew n hn hold⟩

end Settled

end Sccp

end Pliron
