/-
  Pliron.Opts.SccpFixed

  What holds in a state that no visit changes any more.

  Where a transfer function has no effect, each of its parts has none: values are as low as
  what was merged into them, and what would be marked is reached.
-/

import Pliron.Opts.SccpRuns

namespace Pliron

open Pliron.Lib Relation

namespace Context

variable (ctx : Context)

/-- The arguments of the first block of a region. -/
def entryArgs (region : RegionPtr) : List Value :=
  ((do
    let entry ← ctx.entryBlock region
    (ctx.basicBlocks entry).map (fun b => b.argValues entry)) : Option (List Value)).getD []

/-- The results of an operation as values. -/
def opResults (op : OpPtr) : List Value :=
  ((ctx.operations op).map (fun o => o.resultValues op)).getD []

/-- The arguments of a block as values. -/
def blockArgs (block : BlockPtr) : List Value :=
  ((ctx.basicBlocks block).map (fun b => b.argValues block)).getD []

/-- The successors of an operation. -/
def opSuccessors (op : OpPtr) : List BlockPtr :=
  ((ctx.operations op).map Operation.successorDefs).getD []

end Context

namespace Sccp

open SccpState

variable {A : Type}

/-- The values that flow on a region edge, with their receivers. -/
def RegionEdge.valueFlows (ctx : Context) (edge : RegionEdge) : Option (List (Value × Value)) :=
  edge.flows.mapM (fun flow => (ctx.useDef flow.1).map (fun val => (val, flow.2)))

/-- The operation that control continues with, and the values there that an edge can set. -/
def regionTarget (ctx : Context) (root op : OpPtr) : RegionSuccessor → Option OpPtr × List Value
  | .region region => (ctx.entryOp region, ctx.entryArgs region)
  | .after => (if op = root then none else ctx.nextOpOf op, ctx.opResults op)

/-! ## Where nothing changes any more -/

section Fixed

variable [DecidableEq A] {ctx : Context} {ifaces : OpInterfaces A} {root op : OpPtr}
  {F : SccpState A}

theorem mergeAll_fixed {vals : List Value} (h : F.mergeAll ctx vals = some F) :
    ∀ val ∈ vals, F.getValState val = .notAConstant := by
  intro val hval
  have htransfer : ∀ v ∈ vals, Transfer (A := A) ctx F.rootOp (fun _ => True) []
      (fun st => st.mergeValState ctx v .notAConstant) := fun v _ => Transfer.merge v .notAConstant
  have hstep := Transfer.loop_fixed htransfer rfl h val hval
  exact Constness.le_bot_iff.mp (mergeValState_le hstep)

omit [DecidableEq A] in
theorem mem_of_markOption {n : OpPtr} (h : F.markOption (some n) = F) : n ∈ F.reachableOps := by
  rw [← h]
  exact mem_markReachable n F

omit [DecidableEq A] in
theorem markBlock_fixed {block : BlockPtr} {n : OpPtr} (h : F.markBlockReachable ctx block = some F)
    (hn : ctx.firstOp block = some n) : n ∈ F.reachableOps := by
  rw [markBlockReachable_eq, hn] at h
  obtain ⟨_, _, hmark⟩ := Option.map_eq_some_iff.mp h
  exact mem_of_markOption hmark

omit [DecidableEq A] in
theorem markNext_fixed {n : OpPtr} (hop : op ≠ F.rootOp) (h : F.markNextReachable ctx op = some F)
    (hn : ctx.nextOpOf op = some n) : n ∈ F.reachableOps := by
  rw [markNextReachable_eq, if_neg hop, hn] at h
  obtain ⟨_, _, hmark⟩ := Option.map_eq_some_iff.mp h
  exact mem_of_markOption hmark

omit [DecidableEq A] in
theorem entryArgs_eq {region : RegionPtr} {r : Region} {entry : BlockPtr} {b : BasicBlock}
    (hr : ctx.regions region = some r) (hentry : r.blocks.head? = some entry)
    (hb : ctx.basicBlocks entry = some b) : ctx.entryArgs region = b.argValues entry := by
  simp [Context.entryArgs, entryBlock_eq hr, hentry, hb]

omit [DecidableEq A] in
theorem entryArgs_none {region : RegionPtr} {r : Region} (hr : ctx.regions region = some r)
    (hentry : r.blocks.head? = none) : ctx.entryArgs region = [] := by
  simp [Context.entryArgs, entryBlock_eq hr, hentry]

theorem seedNestedRegions_fixed (h : F.seedNestedRegions ctx op = some F) {region : RegionPtr}
    (hregion : region ∈ ctx.opRegions op) :
    (∀ val ∈ ctx.entryArgs region, F.getValState val = .notAConstant) ∧
      ∀ n, ctx.entryOp region = some n → n ∈ F.reachableOps := by
  obtain ⟨o, ho, hloop⟩ := Option.bind_eq_some_iff.mp h
  have hmem : region ∈ o.regions := by simpa [Context.opRegions, ho] using hregion
  have htransfer : ∀ r ∈ o.regions, Transfer (A := A) ctx F.rootOp (fun _ => True) []
      (fun st => seedRegion ctx st r) := fun r _ => seedRegion_transfer (fun _ _ => trivial)
  have hseed : seedRegion ctx F region = some F :=
    Transfer.loop_fixed htransfer rfl hloop region hmem
  obtain ⟨r, hr, hseed⟩ := Option.bind_eq_some_iff.mp hseed
  cases hentry : r.blocks.head? with
  | none =>
      rw [entryArgs_none hr hentry]
      refine ⟨fun val hval => absurd hval List.not_mem_nil, fun n hn => ?_⟩
      unfold Context.entryOp at hn
      rw [entryBlock_eq hr, hentry] at hn
      cases hn
  | some entry =>
      simp only [hentry] at hseed
      obtain ⟨b, hb, hseed⟩ := Option.bind_eq_some_iff.mp hseed
      have hmerge : Transfer (A := A) ctx F.rootOp (fun _ => True) []
          (fun st => st.mergeAll ctx (b.argValues entry)) := mergeAll_transfer (b.argValues entry)
      obtain ⟨hargs, hmark⟩ := hmerge.andThen_fixed
        (markBlockReachable_transfer (fun _ _ => trivial)) rfl hseed
      rw [entryArgs_eq hr hentry hb, entryOp_eq hr hentry]
      exact ⟨mergeAll_fixed hargs, fun n hn => markBlock_fixed hmark hn⟩

/-- What is known of the receiver is no better than what is known of the value. -/
def Flows (ctx : Context) (F : SccpState A) (flow : Value × Value) : Prop :=
  ∃ x, operandState ctx flow.1 F = some x ∧ F.getValState flow.2 ≤ x

theorem forwardValue_fixed {flow : Value × Value} (h : forwardValue ctx F flow = some F) :
    Flows ctx F flow := by
  obtain ⟨x, hx, hmerge⟩ := Option.bind_eq_some_iff.mp h
  exact ⟨x, hx, mergeValState_le hmerge⟩

theorem forwardAll_fixed {flows : List (Value × Value)}
    (h : flows.foldlM (forwardValue ctx) F = some F) : ∀ flow ∈ flows, Flows ctx F flow := by
  have htransfer : ∀ flow ∈ flows, Transfer (A := A) ctx F.rootOp (fun _ => True)
      (flows.map Prod.fst) (fun st => forwardValue ctx st flow) :=
    fun flow hflow => forwardValue_transfer (List.mem_map_of_mem hflow)
  exact fun flow hflow => forwardValue_fixed (Transfer.loop_fixed htransfer rfl h flow hflow)

theorem processFoldOp_fixed {checkFold : List (Option A) → List (Option A)}
    (h : processFoldOp ctx checkFold op F = some F) :
    ∃ attrs, operandAttrs ctx op F = some attrs ∧
      ∀ entry ∈ (ctx.opResults op).zip (checkFold attrs),
        F.getValState entry.1 ≤ Constness.ofFold entry.2 := by
  obtain ⟨attrs, hattrs, h⟩ := Option.bind_eq_some_iff.mp h
  obtain ⟨o, ho, hloop⟩ := Option.bind_eq_some_iff.mp h
  refine ⟨attrs, hattrs, fun entry hentry => ?_⟩
  have hresults : ctx.opResults op = o.resultValues op := by simp [Context.opResults, ho]
  rw [hresults] at hentry
  have htransfer : ∀ e ∈ (o.resultValues op).zip (checkFold attrs),
      Transfer ctx F.rootOp (fun _ => True) []
        (fun st => st.mergeValState ctx e.1 (Constness.ofFold e.2)) :=
    fun e _ => Transfer.merge e.1 (Constness.ofFold e.2)
  exact mergeValState_le (Transfer.loop_fixed htransfer rfl hloop entry hentry)

theorem processGenericOp_fixed (h : processGenericOp ctx op F = some F) :
    ∀ val ∈ ctx.opResults op, F.getValState val = .notAConstant := by
  obtain ⟨o, ho, h⟩ := Option.bind_eq_some_iff.mp h
  have hresults : ctx.opResults op = o.resultValues op := by simp [Context.opResults, ho]
  rw [hresults]
  exact mergeAll_fixed h

theorem processBranchOp_fixed {branchOp : BranchOp A}
    (h : processBranchOp ctx branchOp op F = some F) :
    ∃ o attrs, ctx.operations op = some o ∧ operandAttrs ctx op F = some attrs ∧
      ∀ (i : Nat) (block : BlockPtr) (forwarded : List Value), o.successorDefs[i]? = some block →
        block ∈ branchOp.feasible o attrs →
        branchOp.successorOperands ctx op i = some forwarded →
        (∀ flow ∈ forwarded.zip (ctx.blockArgs block), Flows ctx F flow) ∧
          ∀ n, ctx.firstOp block = some n → n ∈ F.reachableOps := by
  obtain ⟨attrs, hattrs, h⟩ := Option.bind_eq_some_iff.mp h
  obtain ⟨o, ho, hloop⟩ := Option.bind_eq_some_iff.mp h
  refine ⟨o, attrs, ho, hattrs, fun i block forwarded hblock hfeasible hforwarded => ?_⟩
  have hmem : (block, i) ∈ o.successorDefs.zipIdx := List.mk_mem_zipIdx_iff_getElem?.mpr hblock
  have hreads : ∀ val ∈ ctx.opOperands op, val ∈ ctx.opOperands op := fun _ hval => hval
  have htransfer : ∀ succ ∈ o.successorDefs.zipIdx, Transfer (A := A) ctx F.rootOp
      (fun _ => True) (ctx.opOperands op) (fun st =>
        if succ.1 ∈ branchOp.feasible o attrs then processSuccessor ctx branchOp op st succ
        else some st) := by
    intro succ _
    by_cases hin : succ.1 ∈ branchOp.feasible o attrs
    · simp only [if_pos hin]
      exact processSuccessor_transfer hreads (fun _ _ => trivial)
    · simp only [if_neg hin]
      exact Transfer.same
  have hstep := Transfer.loop_fixed htransfer rfl hloop (block, i) hmem
  rw [if_pos hfeasible] at hstep
  obtain ⟨forwarded', hforwarded', hstep⟩ := Option.bind_eq_some_iff.mp hstep
  obtain rfl := Option.some.inj (hforwarded.symm.trans hforwarded')
  obtain ⟨b, hb, hstep⟩ := Option.bind_eq_some_iff.mp hstep
  have hargs : ctx.blockArgs block = b.argValues block := by
    simp only [Context.blockArgs, hb]
    rfl
  have hflows : Transfer (A := A) ctx F.rootOp (fun _ => True) (ctx.opOperands op)
      (fun st => (forwarded.zip (b.argValues block)).foldlM (forwardValue ctx) st) :=
    Transfer.loop (fun flow hflow => forwardValue_transfer
      (successorOperands_mem hforwarded (List.of_mem_zip hflow).1))
  obtain ⟨hforward, hmark⟩ := hflows.andThen_fixed
    (markBlockReachable_transfer (fun _ _ => trivial)) rfl hstep
  rw [hargs]
  exact ⟨forwardAll_fixed hforward, fun n hn => markBlock_fixed hmark hn⟩

theorem covers_all (op : OpPtr) : Covers ctx root (fun _ => True) op where
  regions _ _ _ _ := trivial
  next _ _ _ := trivial

omit [DecidableEq A] in
theorem markTarget_fixed {target : RegionSuccessor} {n : OpPtr}
    (h : markTarget ctx op F target = some F)
    (hn : (regionTarget ctx F.rootOp op target).1 = some n) : n ∈ F.reachableOps := by
  cases target with
  | after =>
      by_cases hop : op = F.rootOp
      · simp [regionTarget, hop] at hn
      · rw [regionTarget, if_neg hop] at hn
        exact markNext_fixed hop h hn
  | region region =>
      obtain ⟨r, hr, h⟩ := Option.bind_eq_some_iff.mp h
      cases hentry : r.blocks.head? with
      | none =>
          have hnone : ctx.entryOp region = none := by
            unfold Context.entryOp
            rw [entryBlock_eq hr, hentry]
            rfl
          rw [regionTarget, hnone] at hn
          cases hn
      | some entry =>
          simp only [hentry] at h
          refine markBlock_fixed h ?_
          rw [← entryOp_eq hr hentry]
          exact hn

/-- An edge that has been processed. -/
def Passed (ctx : Context) (F : SccpState A) (op : OpPtr) (edge : RegionEdge) : Prop :=
  (∀ flow ∈ edge.flows, ∀ val, ctx.useDef flow.1 = some val → Flows ctx F (val, flow.2)) ∧
    ∀ n, (regionTarget ctx F.rootOp op edge.target).1 = some n → n ∈ F.reachableOps

theorem Passed.flows {edge : RegionEdge} (h : Passed ctx F op edge) {flows : List (Value × Value)}
    (hflows : edge.valueFlows ctx = some flows) : ∀ flow ∈ flows, Flows ctx F flow := by
  intro flow hflow
  obtain ⟨use, huse, hdef⟩ := mem_of_mapM hflows hflow
  obtain ⟨val, hval, rfl⟩ := Option.map_eq_some_iff.mp hdef
  exact h.1 use huse val hval

section Edges

variable (hnest : ctx.WellNested) {regionBranch : RegionBranchOp A}
  (hverified : regionBranch.Verified ctx op)
include hnest hverified

theorem processRegionEdge_fixed {edge : RegionEdge} (hedge : edge ∈ regionBranch.regionEdges)
    (h : processRegionEdge ctx op F edge = some F) : Passed ctx F op edge := by
  have hflow : ∀ flow ∈ edge.flows, Transfer (A := A) ctx F.rootOp (fun _ => True)
      (ctx.opOperands (edge.source.op op))
      (fun st => do
        let val ← ctx.useDef flow.1
        forwardValue ctx st (val, flow.2)) := by
    intro flow hflow
    refine Transfer.lookup (fun val hval => forwardValue_transfer ?_)
    rw [← hverified.flow edge hedge flow hflow]
    exact useDef_mem hval
  obtain ⟨hloop, hmark⟩ := (Transfer.loop hflow).andThen_fixed
    (markTarget_transfer hnest (covers_all op) (hverified.region edge hedge)) rfl h
  refine ⟨fun use huse val hval => ?_, fun n hn => markTarget_fixed hmark hn⟩
  have hstep := Transfer.loop_fixed hflow rfl hloop use huse
  simp only [hval] at hstep
  exact forwardValue_fixed hstep

theorem processRegionBranchEdges_fixed {point : RegionBranchPoint}
    {opAttrs terminatorAttrs : List (Option A)}
    (h : processRegionBranchEdges ctx regionBranch op point opAttrs terminatorAttrs F = some F)
    {edge : RegionEdge} (hedge : edge ∈ regionBranch.regionEdges) (hsource : edge.source = point)
    (hfeasible : edge.target ∈ regionBranch.feasible point opAttrs terminatorAttrs) :
    Passed ctx F op edge := by
  have hmem : edge ∈ (regionBranch.edgesFrom point).filter (fun edge =>
      edge.target ∈ regionBranch.feasible point opAttrs terminatorAttrs) :=
    List.mem_filter.mpr ⟨mem_edgesFrom.mpr ⟨hedge, hsource⟩, decide_eq_true hfeasible⟩
  have htransfer : ∀ e ∈ (regionBranch.edgesFrom point).filter (fun edge =>
      edge.target ∈ regionBranch.feasible point opAttrs terminatorAttrs),
      Transfer (A := A) ctx F.rootOp (fun _ => True) (ctx.opOperands (point.op op))
        (fun st => processRegionEdge ctx op st e) := by
    intro e he
    obtain ⟨he, hsource⟩ := mem_edgesFrom.mp (List.mem_of_mem_filter he)
    refine processRegionEdge_transfer hnest (covers_all op) hverified he ?_
    rw [hsource]
    exact fun _ hval => hval
  exact processRegionEdge_fixed hnest hverified hedge
    (Transfer.loop_fixed htransfer rfl h edge hmem)

omit hnest hverified in
theorem mem_receiverSlots {slots : List Value} (h : RegionBranchOp.receiverSlots ctx op = some slots)
    {target : RegionSuccessor} (hregion : ∀ region, target = .region region →
      region ∈ ctx.opRegions op) {val : Value} (hval : val ∈ (regionTarget ctx root op target).2) :
    val ∈ slots := by
  obtain ⟨o, ho, h⟩ := Option.bind_eq_some_iff.mp h
  obtain ⟨entryArgs, hargs, h⟩ := Option.bind_eq_some_iff.mp h
  obtain rfl := Option.some.inj h
  cases target with
  | after =>
      refine List.mem_append_left _ ?_
      simpa [regionTarget, Context.opResults, ho] using hval
  | region region =>
      have hmem : region ∈ o.regions := by
        simpa [Context.opRegions, ho] using hregion region rfl
      obtain ⟨args, hmem', hargs⟩ := exists_of_mapM hargs hmem
      obtain ⟨r, hr, hargs⟩ := Option.bind_eq_some_iff.mp hargs
      refine List.mem_append_right _ (List.mem_flatten.mpr ⟨args, hmem', ?_⟩)
      have hval' : val ∈ ctx.entryArgs region := hval
      cases hentry : r.blocks.head? with
      | none =>
          rw [entryArgs_none hr hentry] at hval'
          exact absurd hval' List.not_mem_nil
      | some entry =>
          simp only [hentry] at hargs
          obtain ⟨b, hb, rfl⟩ := Option.map_eq_some_iff.mp hargs
          rwa [entryArgs_eq hr hentry hb] at hval'

theorem processParentEdges_fixed (h : processParentEdges ctx regionBranch op F = some F) :
    ∃ attrs slots, operandAttrs ctx op F = some attrs ∧
      RegionBranchOp.receiverSlots ctx op = some slots ∧
      (∀ val ∈ slots, val ∉ regionBranch.receivers → F.getValState val = .notAConstant) ∧
      ∀ edge ∈ regionBranch.regionEdges, edge.source = .parent →
        edge.target ∈ regionBranch.feasible .parent attrs [] → Passed ctx F op edge := by
  obtain ⟨attrs, hattrs, h⟩ := Option.bind_eq_some_iff.mp h
  obtain ⟨slots, hslots, h⟩ := Option.bind_eq_some_iff.mp h
  have hedges : Transfer ctx F.rootOp (fun _ => True) (ctx.opOperands op)
      (processRegionBranchEdges ctx regionBranch op .parent attrs []) :=
    processRegionBranchEdges_transfer hnest (covers_all op) hverified (fun _ hval => hval)
  obtain ⟨hmerge, hloop⟩ := (mergeAll_transfer _).andThen_fixed hedges rfl h
  refine ⟨attrs, slots, hattrs, hslots, fun val hval hnot => ?_, fun edge hedge hsource hin =>
    processRegionBranchEdges_fixed hnest hverified hloop hedge hsource hin⟩
  exact mergeAll_fixed hmerge val (List.mem_filter.mpr ⟨hval, decide_eq_true hnot⟩)

end Edges

end Fixed

/-! ## Finished runs -/

/-- A state in which no visit changes anything. -/
structure Finished (ctx : Context) (ifaces : OpInterfaces A) [DecidableEq A] (root : OpPtr)
    (F : SccpState A) : Prop where
  rootOp : F.rootOp = root
  inner : ∀ op ∈ F.reachableOps, Inner ctx F op
  stable : ∀ op ∈ F.reachableOps, LocallyStable ctx ifaces F op
  terminators : ∀ op ∈ F.reachableOps, ∀ parent,
    regionBranchParent ctx ifaces op = some (some parent) →
      processRegionTerminator ctx ifaces op parent F = some F
  seeds : F.seedNestedRegions ctx root = some F
  outside : OutsideUnknown ctx F

section Runs

variable [DecidableEq A] {ctx : Context} {ifaces : OpInterfaces A} {root op : OpPtr}
  {F st : SccpState A}

theorem finished_of_run (hready : Ready ctx ifaces root) (hnew : SccpState.new ctx root = some st)
    (hrun : ReflTransGen (Step ctx ifaces) st F) (hdone : F.opWorklist = []) :
    Finished ctx ifaces root F := by
  obtain ⟨hroot, hs, hunknown⟩ := new_settled hready hnew
  obtain ⟨hroot', hs', hdesc⟩ := run_settled hready hroot hs hrun
  have hnone : ∀ n, n ∉ F.opWorklist := by
    rw [hdone]
    exact fun n => List.not_mem_nil
  refine ⟨hroot', hs'.parents, fun n hn => ?_, fun n hn parent hp => ?_, ?_,
    hunknown.descends hdesc⟩
  · exact (hs'.ops n hn).resolve_left (hnone n)
  · refine (hs'.terminators n hn parent hp).resolve_left ?_
    rintro ⟨m, _, hm⟩
    exact hnone m hm
  · obtain ⟨⟨r, values⟩, _, hseed⟩ := Option.bind_eq_some_iff.mp hnew
    have hseeds : Transfer (A := A) ctx root (fun _ => True) []
        (fun st => st.seedNestedRegions ctx root) := seedNestedRegions_transfer (covers_all root)
    exact hseeds.replay _ st F rfl hseed hdesc (fun val hval => absurd hval List.not_mem_nil)

namespace Finished

variable (h : Finished ctx ifaces root F) (hready : Ready ctx ifaces root)
include h

/-- What is stable at an operation that says nothing of its regions. -/
theorem kind_fixed (hop : op ∈ F.reachableOps) (hregion : ifaces.regionBranch op = none) :
    F.seedNestedRegions ctx op = some F ∧ ∃ parent,
      regionBranchParent ctx ifaces op = some parent ∧
        processKind ctx ifaces parent op F = some F := by
  have hstable := (h.stable op hop).1
  unfold processLocal at hstable
  simp only [hregion] at hstable
  obtain ⟨parent, hparent, hrun⟩ := Option.bind_eq_some_iff.mp hstable
  have hseeds : Transfer (A := A) ctx F.rootOp (fun _ => True) (ctx.opOperands op)
      (fun st => st.seedNestedRegions ctx op) := seedNestedRegions_transfer (covers_all op)
  obtain ⟨hseed, hkind⟩ := hseeds.andThen_fixed
    (processKind_transfer (fun _ _ _ _ _ _ => trivial) parent) rfl hrun
  exact ⟨hseed, parent, hparent, hkind⟩

theorem next_reached (hop : op ∈ F.reachableOps) (hne : op ≠ root)
    (hfalls : fallsThrough ctx ifaces op = some true) {n : OpPtr} (hn : ctx.nextOpOf op = some n) :
    n ∈ F.reachableOps := by
  have hstable := (h.stable op hop).2
  unfold proceed at hstable
  rw [hfalls] at hstable
  exact markNext_fixed (h.rootOp.symm ▸ hne) hstable hn

include hready

/-- What no edge passes anything to is no constant. -/
theorem free_bot {parent : OpPtr} {regionBranch : RegionBranchOp A}
    (hregion : ifaces.regionBranch parent = some regionBranch)
    (hparent : parent = root ∨ parent ∈ F.reachableOps) {target : RegionSuccessor}
    (htarget : ∀ region, target = .region region → ctx.regionParentOp region = some parent)
    {n : OpPtr} (hn : (regionTarget ctx root parent target).1 = some n) {val : Value}
    (hval : val ∈ (regionTarget ctx root parent target).2) (hnot : val ∉ regionBranch.receivers) :
    F.getValState val = .notAConstant := by
  have hmem : ∀ region, target = .region region → region ∈ ctx.opRegions parent :=
    fun region heq => (hready.nested.region_mem parent region).mpr (htarget region heq)
  rcases hparent with rfl | hreached
  · cases target with
    | after =>
        rw [regionTarget, if_pos rfl] at hn
        cases hn
    | region region =>
        exact (seedNestedRegions_fixed h.seeds (hmem region rfl)).1 val hval
  · have hstable := (h.stable parent hreached).1
    unfold processLocal at hstable
    simp only [hregion] at hstable
    obtain ⟨_, slots, _, hslots, hfree, _⟩ := processParentEdges_fixed hready.nested
      (hready.verified parent regionBranch hregion) hstable
    exact hfree val (mem_receiverSlots hslots hmem hval) hnot

end Finished

end Runs

end Sccp

end Pliron
