/-
  Pliron.Opts.SccpSound

  What the analysis finds holds in every execution.

  An execution is described by what the interfaces promise: results that folding may predict,
  branches that go to one of their successors, edges between regions.  It is at an operation
  with an environment, the data that values have there.  A finished run has marked each such
  operation, and what it knows of a value is right for the data of that value.
-/

import Pliron.Opts.SccpFixed

namespace Pliron

open Pliron.Lib Relation Walkers

namespace Sccp

open SccpState

/-! ## Executions -/

/-- What operations do with data, and which data an attribute stands for. -/
structure Semantics (A D : Type) where
  denotes : A → D → Prop
  /-- The operation computes these results from its operands. -/
  results : OpPtr → List D → List D → Prop
  /-- The branch takes the successor with this index. -/
  takes : OpPtr → List D → Nat → Prop
  /-- Control moves from the point to the successor, for these operands of the operation and of
      the terminator. -/
  moves : OpPtr → RegionBranchPoint → List D → List D → RegionSuccessor → Prop

/-- The data of values. -/
abbrev Env (D : Type) := Value → Option D

/-- Give values their data. -/
def Env.bind {D : Type} (env : Env D) (data : List (Value × D)) : Env D :=
  data.foldl (fun env entry => Function.update env entry.1 (some entry.2)) env

/-- The data that flow along pairs of a value and a receiver. -/
def Env.along {D : Type} (env : Env D) (flows : List (Value × Value)) : Option (List (Value × D)) :=
  flows.mapM (fun flow => (env flow.1).map (fun d => (flow.2, d)))

/-- The operands of the terminator at a point. -/
def terminatorData {D : Type} (ctx : Context) (env : Env D) :
    RegionBranchPoint → Option (List D)
  | .parent => some []
  | .terminator terminator => (ctx.opOperands terminator).mapM env

/-- `op` is at a branch point of `parent`. -/
def AtPoint {A : Type} (ctx : Context) (ifaces : OpInterfaces A) (op parent : OpPtr) :
    RegionBranchPoint → Prop
  | .parent => op = parent
  | .terminator terminator =>
      op = terminator ∧ regionBranchParent ctx ifaces terminator = some (some parent)

variable {A D : Type}

/-- Execution of the regions of `root` can come to an operation, with these data of values. -/
inductive Reaches (ctx : Context) (ifaces : OpInterfaces A) (sem : Semantics A D) (root : OpPtr)
    (env₀ : Env D) : OpPtr → Env D → Prop where
  /-- A region of the root is entered. -/
  | start {region : RegionPtr} {n : OpPtr} (ds : List D)
      (hregion : region ∈ ctx.opRegions root) (hn : ctx.entryOp region = some n) :
      Reaches ctx ifaces sem root env₀ n (env₀.bind ((ctx.entryArgs region).zip ds))
  /-- A region is entered of an operation that says nothing of its regions. -/
  | nested {op n : OpPtr} {env : Env D} {region : RegionPtr} (ds : List D)
      (h : Reaches ctx ifaces sem root env₀ op env) (hop : ifaces.regionBranch op = none)
      (hregion : region ∈ ctx.opRegions op) (hn : ctx.entryOp region = some n) :
      Reaches ctx ifaces sem root env₀ n (env.bind ((ctx.entryArgs region).zip ds))
  /-- The operation is executed, and then the next one. -/
  | next {op n : OpPtr} {env : Env D} {ds rs : List D}
      (h : Reaches ctx ifaces sem root env₀ op env) (hroot : op ≠ root)
      (hregion : ifaces.regionBranch op = none) (hbranch : ifaces.branch op = none)
      (hparent : regionBranchParent ctx ifaces op = some none)
      (hds : (ctx.opOperands op).mapM env = some ds) (hrs : sem.results op ds rs)
      (hn : ctx.nextOpOf op = some n) :
      Reaches ctx ifaces sem root env₀ n (env.bind ((ctx.opResults op).zip rs))
  /-- A branch is taken. -/
  | branch {op n : OpPtr} {env : Env D} {branchOp : BranchOp A} {ds : List D} {i : Nat}
      {block : BlockPtr} {forwarded : List Value} {data : List (Value × D)}
      (h : Reaches ctx ifaces sem root env₀ op env) (hregion : ifaces.regionBranch op = none)
      (hparent : regionBranchParent ctx ifaces op = some none)
      (hbranch : ifaces.branch op = some branchOp)
      (hds : (ctx.opOperands op).mapM env = some ds) (htakes : sem.takes op ds i)
      (hblock : (ctx.opSuccessors op)[i]? = some block)
      (hforwarded : branchOp.successorOperands ctx op i = some forwarded)
      (hdata : env.along (forwarded.zip (ctx.blockArgs block)) = some data)
      (hn : ctx.firstOp block = some n) :
      Reaches ctx ifaces sem root env₀ n (env.bind data)
  /-- Control moves between the regions of an operation, into them or out of them.  A value that
      no edge passes anything to can have any data. -/
  | edge {op parent n : OpPtr} {env : Env D} {regionBranch : RegionBranchOp A}
      {edge : RegionEdge} {ds ds' : List D} {flows : List (Value × Value)}
      {data : List (Value × D)} (free : List (Value × D))
      (h : Reaches ctx ifaces sem root env₀ op env)
      (hregion : ifaces.regionBranch parent = some regionBranch)
      (hedge : edge ∈ regionBranch.regionEdges)
      (hpoint : AtPoint ctx ifaces op parent edge.source)
      (hds : (ctx.opOperands parent).mapM env = some ds)
      (hds' : terminatorData ctx env edge.source = some ds')
      (hmoves : sem.moves parent edge.source ds ds' edge.target)
      (hflows : edge.valueFlows ctx = some flows) (hdata : env.along flows = some data)
      (hfree : ∀ entry ∈ free, entry.1 ∈ (regionTarget ctx root parent edge.target).2 ∧
        entry.1 ∉ regionBranch.receivers)
      (hn : (regionTarget ctx root parent edge.target).1 = some n) :
      Reaches ctx ifaces sem root env₀ n (env.bind (free ++ data))
  /-- In a graph region, control can move through the block in any order. -/
  | graph {op n : OpPtr} {env : Env D} {region : RegionPtr}
      (h : Reaches ctx ifaces sem root env₀ op env) (hroot : op ≠ root)
      (hregion : ctx.opParentRegion op = some region)
      (hssa : ctx.hasSsaDominance region = some false)
      (hn : ctx.nextOpOf op = some n ∨ ctx.nextOpOf n = some op) :
      Reaches ctx ifaces sem root env₀ n env

/-! ## What is described -/

/-- What is known of a value is right for a datum. -/
def Constness.Describes (denotes : A → D → Prop) : Constness A → D → Prop
  | .undetermined, _ => False
  | .constant a, d => denotes a d
  | .notAConstant, _ => True

/-- The attributes that are known are right for the data. -/
def AttrsDescribe (denotes : A → D → Prop) (attrs : List (Option A)) (ds : List D) : Prop :=
  List.Forall₂ (fun attr d => ∀ a, attr = some a → denotes a d) attrs ds

/-- Folding predicts what the operations do. -/
structure SoundFolds (ctx : Context) (ifaces : OpInterfaces A) (sem : Semantics A D) : Prop where
  fold : ∀ op checkFold, ifaces.fold op = some checkFold → ∀ attrs (ds rs : List D),
    AttrsDescribe sem.denotes attrs ds → sem.results op ds rs → ∀ (i : Nat) (d : D), rs[i]? = some d →
    ∃ attr, (checkFold attrs)[i]? = some attr ∧ ∀ a, attr = some a → sem.denotes a d
  branch : ∀ op branchOp checkFold, ifaces.branch op = some branchOp →
    branchOp.checkFold = some checkFold → ∀ attrs ds, AttrsDescribe sem.denotes attrs ds →
    ∀ i block, sem.takes op ds i → (ctx.opSuccessors op)[i]? = some block →
    block ∈ checkFold attrs
  regionBranch : ∀ op regionBranch checkFold, ifaces.regionBranch op = some regionBranch →
    regionBranch.checkFold = some checkFold → ∀ point attrs attrs' ds ds',
    AttrsDescribe sem.denotes attrs ds → AttrsDescribe sem.denotes attrs' ds' →
    ∀ target, sem.moves op point ds ds' target → target ∈ checkFold point attrs attrs'

/-! ## Data that are described -/

/-- What is known of each value is right for its data. -/
def EnvDescribed (denotes : A → D → Prop) (F : SccpState A) (env : Env D) : Prop :=
  ∀ val d, env val = some d → (F.getValState val).Describes denotes d

section Described

variable [DecidableEq A] {ctx : Context} {ifaces : OpInterfaces A} {root op : OpPtr}
  {F : SccpState A} {denotes : A → D → Prop} {env : Env D}

theorem Constness.Describes.mono {x y : Constness A} {d : D} (h : x.Describes denotes d)
    (hle : y ≤ x) : y.Describes denotes d := by
  cases x with
  | undetermined => exact h.elim
  | notAConstant =>
      rw [Constness.le_bot_iff.mp hle]
      trivial
  | constant a =>
      cases y with
      | notAConstant => trivial
      | constant b =>
          have hab : b = a := of_decide_eq_true hle
          rw [hab]
          exact h
      | undetermined => exact absurd hle Bool.false_ne_true

omit [DecidableEq A] in
theorem EnvDescribed.bind (h : EnvDescribed denotes F env) {data : List (Value × D)}
    (hdata : ∀ entry ∈ data, (F.getValState entry.1).Describes denotes entry.2) :
    EnvDescribed denotes F (env.bind data) := by
  induction data generalizing env with
  | nil => exact h
  | cons entry data ih =>
      refine ih (fun val d hval => ?_) (fun e he => hdata e (List.mem_cons_of_mem _ he))
      have hupdate : Function.update env entry.1 (some entry.2) val = some d := hval
      by_cases hentry : val = entry.1
      · subst hentry
        rw [Function.update_self] at hupdate
        rw [← Option.some.inj hupdate]
        exact hdata entry List.mem_cons_self
      · rw [Function.update_of_ne hentry] at hupdate
        exact h val d hupdate

omit [DecidableEq A] in
theorem EnvDescribed.operand (h : EnvDescribed denotes F env) {val : Value} {d : D}
    {x : Constness A} (hval : env val = some d) (hx : operandState ctx val F = some x) :
    x.Describes denotes d := by
  have hdesc := h val d hval
  unfold operandState at hx
  cases hstate : F.getValState val with
  | undetermined =>
      rw [hstate] at hdesc
      exact hdesc.elim
  | constant a =>
      simp only [hstate] at hx hdesc
      obtain rfl := Option.some.inj hx
      exact hdesc
  | notAConstant =>
      simp only [hstate] at hx
      obtain rfl := Option.some.inj hx
      trivial

omit [DecidableEq A] in
/-- The attributes of the operands are right for their data. -/
theorem EnvDescribed.operands (h : EnvDescribed denotes F env) {attrs : List (Option A)}
    {ds : List D} (hattrs : operandAttrs ctx op F = some attrs)
    (hds : (ctx.opOperands op).mapM env = some ds) : AttrsDescribe denotes attrs ds := by
  obtain ⟨o, ho, hmap⟩ := Option.bind_eq_some_iff.mp hattrs
  have hoperands : ctx.opOperands op = o.operandDefs := by simp [Context.opOperands, ho]
  rw [hoperands] at hds
  clear hattrs
  generalize o.operandDefs = vals at hmap hds
  induction vals generalizing attrs ds with
  | nil =>
      rw [List.mapM_nil] at hmap hds
      obtain rfl := Option.some.inj hmap
      obtain rfl := Option.some.inj hds
      exact List.Forall₂.nil
  | cons val vals ih =>
      rw [List.mapM_cons] at hmap hds
      obtain ⟨attr, hattr, hrest⟩ := Option.bind_eq_some_iff.mp hmap
      obtain ⟨attrs', hattrs', hmap⟩ := Option.bind_eq_some_iff.mp hrest
      obtain rfl := Option.some.inj hmap
      obtain ⟨d, hd, hrest⟩ := Option.bind_eq_some_iff.mp hds
      obtain ⟨ds', hds', hds⟩ := Option.bind_eq_some_iff.mp hrest
      obtain rfl := Option.some.inj hds
      obtain ⟨x, hx, rfl⟩ := Option.map_eq_some_iff.mp hattr
      refine List.Forall₂.cons (fun a ha => ?_) (ih hattrs' hds')
      have hdesc := h.operand hd hx
      cases x with
      | constant b =>
          obtain rfl := Option.some.inj ha
          exact hdesc
      | undetermined => cases ha
      | notAConstant => cases ha

/-- What flows along processed pairs is described at the receivers. -/
theorem EnvDescribed.along (h : EnvDescribed denotes F env) {flows : List (Value × Value)}
    {data : List (Value × D)} (hflows : ∀ flow ∈ flows, Flows ctx F flow)
    (hdata : env.along flows = some data) :
    ∀ entry ∈ data, (F.getValState entry.1).Describes denotes entry.2 := by
  intro entry hentry
  obtain ⟨flow, hflow, hmap⟩ := mem_of_mapM hdata hentry
  obtain ⟨d, hd, rfl⟩ := Option.map_eq_some_iff.mp hmap
  obtain ⟨x, hx, hle⟩ := hflows flow hflow
  exact (h.operand hd hx).mono hle

omit [DecidableEq A] in
theorem describes_of_bot {vals : List Value} (h : ∀ val ∈ vals, F.getValState val = .notAConstant)
    {data : List (Value × D)} (hdata : ∀ entry ∈ data, entry.1 ∈ vals) :
    ∀ entry ∈ data, (F.getValState entry.1).Describes denotes entry.2 := by
  intro entry hentry
  rw [h entry.1 (hdata entry hentry)]
  trivial

end Described

/-! ## One step of an execution -/

section Steps

variable [DecidableEq A] {ctx : Context} {ifaces : OpInterfaces A} {sem : Semantics A D}
  {root op n : OpPtr} {F : SccpState A} {env : Env D}
  (h : Finished ctx ifaces root F) (hready : Ready ctx ifaces root)
  (hfolds : SoundFolds ctx ifaces sem) (hop : op ∈ F.reachableOps)
  (hdesc : EnvDescribed sem.denotes F env)

include h hop

/-- Results are described. -/
theorem Finished.results_described (hregion : ifaces.regionBranch op = none)
    (hbranch : ifaces.branch op = none) (hparent : regionBranchParent ctx ifaces op = some none)
    {ds rs : List D} (hds : (ctx.opOperands op).mapM env = some ds)
    (hrs : sem.results op ds rs) (hfolds : SoundFolds ctx ifaces sem)
    (hdesc : EnvDescribed sem.denotes F env) :
    ∀ entry ∈ (ctx.opResults op).zip rs,
      (F.getValState entry.1).Describes sem.denotes entry.2 := by
  obtain ⟨_, parent, hparent', hkind⟩ := h.kind_fixed hop hregion
  obtain rfl := Option.some.inj (hparent.symm.trans hparent')
  unfold processKind at hkind
  simp only [hbranch] at hkind
  cases hfold : ifaces.fold op with
  | none =>
      simp only [hfold] at hkind
      exact describes_of_bot (processGenericOp_fixed hkind)
        (fun entry hentry => (List.of_mem_zip hentry).1)
  | some checkFold =>
      simp only [hfold] at hkind
      obtain ⟨attrs, hattrs, hmerged⟩ := processFoldOp_fixed hkind
      have hattrs' := hdesc.operands hattrs hds
      intro entry hentry
      obtain ⟨i, hi⟩ := List.mem_iff_getElem?.mp hentry
      obtain ⟨hres, hd⟩ := List.getElem?_zip_eq_some.mp hi
      obtain ⟨attr, hattr, hdenotes⟩ := hfolds.fold op checkFold hfold attrs ds rs hattrs' hrs i
        entry.2 hd
      have hmem : (entry.1, attr) ∈ (ctx.opResults op).zip (checkFold attrs) :=
        List.mem_iff_getElem?.mpr ⟨i, List.getElem?_zip_eq_some.mpr ⟨hres, hattr⟩⟩
      refine Constness.Describes.mono ?_ (hmerged _ hmem)
      cases attr with
      | none => trivial
      | some a => exact hdenotes a rfl

/-- Where a branch goes is reached, with described arguments. -/
theorem Finished.branch_described (hregion : ifaces.regionBranch op = none)
    (hparent : regionBranchParent ctx ifaces op = some none) {branchOp : BranchOp A}
    (hbranch : ifaces.branch op = some branchOp) {ds : List D}
    (hds : (ctx.opOperands op).mapM env = some ds) {i : Nat} (htakes : sem.takes op ds i)
    {block : BlockPtr} (hblock : (ctx.opSuccessors op)[i]? = some block) {forwarded : List Value}
    (hforwarded : branchOp.successorOperands ctx op i = some forwarded)
    (hn : ctx.firstOp block = some n) (hfolds : SoundFolds ctx ifaces sem)
    (hdesc : EnvDescribed sem.denotes F env) :
    n ∈ F.reachableOps ∧ ∀ flow ∈ forwarded.zip (ctx.blockArgs block), Flows ctx F flow := by
  obtain ⟨_, parent, hparent', hkind⟩ := h.kind_fixed hop hregion
  obtain rfl := Option.some.inj (hparent.symm.trans hparent')
  unfold processKind at hkind
  simp only [hbranch] at hkind
  obtain ⟨o, attrs, ho, hattrs, hsuccs⟩ := processBranchOp_fixed hkind
  have hsuccessors : ctx.opSuccessors op = o.successorDefs := by simp [Context.opSuccessors, ho]
  have hfeasible : block ∈ branchOp.feasible o attrs := by
    unfold BranchOp.feasible
    cases hcheck : branchOp.checkFold with
    | none =>
        rw [hsuccessors] at hblock
        exact List.mem_of_getElem? hblock
    | some checkFold =>
        exact hfolds.branch op branchOp checkFold hbranch hcheck attrs ds
          (hdesc.operands hattrs hds) i block htakes hblock
  rw [hsuccessors] at hblock
  obtain ⟨hflows, hreached⟩ := hsuccs i block forwarded hblock hfeasible hforwarded
  exact ⟨hreached n hn, hflows⟩

omit hop in
/-- Where an edge between regions goes is reached, and what flows on it was processed. -/
theorem Finished.edge_described (hready : Ready ctx ifaces root) {parent : OpPtr}
    {regionBranch : RegionBranchOp A} (hregion : ifaces.regionBranch parent = some regionBranch)
    {edge : RegionEdge} (hedge : edge ∈ regionBranch.regionEdges)
    (hop : op ∈ F.reachableOps) (hpoint : AtPoint ctx ifaces op parent edge.source)
    {ds ds' : List D} (hds : (ctx.opOperands parent).mapM env = some ds)
    (hds' : terminatorData ctx env edge.source = some ds')
    (hmoves : sem.moves parent edge.source ds ds' edge.target)
    (hfolds : SoundFolds ctx ifaces sem) (hdesc : EnvDescribed sem.denotes F env) :
    Passed ctx F parent edge ∧ (parent = root ∨ parent ∈ F.reachableOps) := by
  have hverified := hready.verified parent regionBranch hregion
  have hfeasible : ∀ attrs attrs', AttrsDescribe sem.denotes attrs ds →
      AttrsDescribe sem.denotes attrs' ds' →
      edge.target ∈ regionBranch.feasible edge.source attrs attrs' := by
    intro attrs attrs' hattrs hattrs'
    unfold RegionBranchOp.feasible
    cases hcheck : regionBranch.checkFold with
    | none => exact List.mem_map_of_mem (mem_edgesFrom.mpr ⟨hedge, rfl⟩)
    | some checkFold =>
        exact hfolds.regionBranch parent regionBranch checkFold hregion hcheck edge.source attrs
          attrs' ds ds' hattrs hattrs' edge.target hmoves
  cases hsource : edge.source with
  | parent =>
      rw [hsource] at hpoint hds'
      obtain rfl : op = parent := hpoint
      obtain rfl := Option.some.inj hds'
      have hstable := (h.stable op hop).1
      unfold processLocal at hstable
      simp only [hregion] at hstable
      obtain ⟨attrs, _, hattrs, _, _, hedges⟩ :=
        processParentEdges_fixed hready.nested hverified hstable
      have hin := hfeasible attrs [] (hdesc.operands hattrs hds) List.Forall₂.nil
      rw [hsource] at hin
      exact ⟨hedges edge hedge hsource hin, Or.inr hop⟩
  | terminator terminator =>
      rw [hsource] at hpoint hds'
      obtain ⟨rfl, hparent⟩ := hpoint
      have hrun := h.terminators op hop parent hparent
      obtain ⟨attrs, hattrs, hrun⟩ := Option.bind_eq_some_iff.mp hrun
      obtain ⟨attrs', hattrs', hrun⟩ := Option.bind_eq_some_iff.mp hrun
      obtain ⟨rb, hrb, hrun⟩ := Option.bind_eq_some_iff.mp hrun
      obtain rfl := Option.some.inj (hregion.symm.trans hrb)
      have hin := hfeasible attrs attrs' (hdesc.operands hattrs hds) (hdesc.operands hattrs' hds')
      rw [hsource] at hin
      refine ⟨processRegionBranchEdges_fixed hready.nested hverified hrun hedge hsource hin, ?_⟩
      obtain ⟨⟨parent', hparent', hin'⟩, _⟩ := h.inner op hop
      obtain rfl := Option.some.inj ((regionBranchParent_eq hparent).1.symm.trans hparent')
      rwa [h.rootOp] at hin'

end Steps

/-! ## Every execution -/

section Executions

variable [DecidableEq A] {ctx : Context} {ifaces : OpInterfaces A} {sem : Semantics A D}
  {root n : OpPtr} {F st : SccpState A} {env env₀ : Env D}

omit [DecidableEq A] in
theorem fallsThrough_of_none (h : ifaces.regionBranch n = none) :
    fallsThrough ctx ifaces n = some true := by
  unfold fallsThrough
  rw [h]
  rfl

omit [DecidableEq A] in
theorem fallsThrough_of_graph {region : RegionPtr} (hregion : ctx.opParentRegion n = some region)
    (hssa : ctx.hasSsaDominance region = some false) : fallsThrough ctx ifaces n = some true := by
  unfold fallsThrough
  cases hop : ifaces.regionBranch n with
  | none => rfl
  | some regionBranch =>
      simp only [Option.isNone_some, Bool.false_eq_true, if_false, hregion, hssa]
      rfl

/-- Where an execution comes is marked, and its data are described. -/
theorem Finished.reaches (h : Finished ctx ifaces root F) (hready : Ready ctx ifaces root)
    (hfolds : SoundFolds ctx ifaces sem)
    (henv₀ : ∀ val, ctx.DefinedWithin root val → env₀ val = none)
    (hreaches : Reaches ctx ifaces sem root env₀ n env) :
    n ∈ F.reachableOps ∧ EnvDescribed sem.denotes F env := by
  have hzip : ∀ {region : RegionPtr} {ds : List D},
      (∀ val ∈ ctx.entryArgs region, F.getValState val = .notAConstant) →
      ∀ entry ∈ (ctx.entryArgs region).zip ds,
        (F.getValState entry.1).Describes sem.denotes entry.2 :=
    fun hargs => describes_of_bot hargs (fun _ hentry => (List.of_mem_zip hentry).1)
  induction hreaches with
  | start ds hregion hn =>
      obtain ⟨hargs, hmark⟩ := seedNestedRegions_fixed h.seeds hregion
      refine ⟨hmark _ hn, EnvDescribed.bind (fun val d hval => ?_) (hzip hargs)⟩
      rw [h.outside val (fun hin => ?_)]
      · trivial
      · rw [h.rootOp] at hin
        rw [henv₀ val hin.1] at hval
        cases hval
  | nested ds _ hop hregion hn ih =>
      obtain ⟨hseed, _⟩ := h.kind_fixed ih.1 hop
      obtain ⟨hargs, hmark⟩ := seedNestedRegions_fixed hseed hregion
      exact ⟨hmark _ hn, ih.2.bind (hzip hargs)⟩
  | next _ hroot hregion hbranch hparent hds hrs hn ih =>
      exact ⟨h.next_reached ih.1 hroot (fallsThrough_of_none hregion) hn,
        ih.2.bind (h.results_described ih.1 hregion hbranch hparent hds hrs hfolds ih.2)⟩
  | branch _ hregion hparent hbranch hds htakes hblock hforwarded hdata hn ih =>
      obtain ⟨hreached, hflows⟩ := h.branch_described ih.1 hregion hparent hbranch hds htakes hblock
        hforwarded hn hfolds ih.2
      exact ⟨hreached, ih.2.bind (ih.2.along hflows hdata)⟩
  | @edge op parent n env regionBranch edge ds ds' flows data free _ hregion hedge hpoint hds hds'
      hmoves hflows hdata hfree hn ih =>
      obtain ⟨hpassed, hparent⟩ := h.edge_described hready hregion hedge ih.1 hpoint hds hds' hmoves
        hfolds ih.2
      have htarget := (hready.verified parent regionBranch hregion).region edge hedge
      refine ⟨hpassed.2 n (h.rootOp.symm ▸ hn), ih.2.bind (fun entry hentry => ?_)⟩
      rcases List.mem_append.mp hentry with hentry | hentry
      · rw [h.free_bot hready hregion hparent htarget hn (hfree entry hentry).1
          (hfree entry hentry).2]
        trivial
      · exact ih.2.along (hpassed.flows hflows) hdata entry hentry
  | graph _ hroot hregion hssa hn ih =>
      refine ⟨?_, ih.2⟩
      rcases hn with hn | hn
      · exact h.next_reached ih.1 hroot (fallsThrough_of_graph hregion hssa) hn
      · exact (h.inner _ ih.1).2 _ hn

/-- What the collected candidates say of a state. -/
structure Found (ctx : Context) (F : SccpState A) (found : Candidates A) : Prop where
  fold : ∀ entry ∈ found.foldCandidates, operandAttrs ctx entry.1 F = some entry.2
  const : ∀ entry ∈ found.constValues, F.getValState entry.1 = .constant entry.2

omit [DecidableEq A] in
theorem Found.addConstants {found : Candidates A} (h : Found ctx F found) (vals : List Value) :
    Found ctx F (found.addConstants F vals) where
  fold := h.fold
  const entry hentry := by
    rcases List.mem_append.mp hentry with hentry | hentry
    · exact h.const entry hentry
    · obtain ⟨val, _, hval⟩ := List.mem_filterMap.mp hentry
      obtain ⟨a, ha, rfl⟩ := Option.map_eq_some_iff.mp hval
      cases hstate : F.getValState val with
      | constant b =>
          rw [hstate] at ha
          exact congrArg Constness.constant (Option.some.inj ha)
      | undetermined =>
          rw [hstate] at ha
          cases ha
      | notAConstant =>
          rw [hstate] at ha
          cases ha

omit [DecidableEq A] in
theorem collect_found (hnest : ctx.WellNested) {r : Except Empty Unit} {found : Candidates A}
    (h : collect ctx ifaces F {} = some (r, found)) : Found ctx F found := by
  refine walkNode_preserves hnest (P := Found ctx F) (fun node _ s r s' hs h => ?_) _
    (.operation F.rootOp) ReflTransGen.refl {} r found
    ⟨fun _ hentry => absurd hentry List.not_mem_nil,
      fun _ hentry => absurd hentry List.not_mem_nil⟩ h
  cases node with
  | region region =>
      obtain rfl : s = s' := congrArg Prod.snd (Option.some.inj h)
      exact hs
  | operation op =>
      by_cases hop : op ∉ F.reachableOps
      · simp only [if_pos hop] at h
        obtain rfl : s = s' := congrArg Prod.snd (Option.some.inj h)
        exact hs
      · simp only [if_neg hop] at h
        by_cases hfold : (ifaces.fold op).isSome = true
        · simp only [if_pos hfold] at h
          obtain ⟨attrs, hattrs, h⟩ := Option.bind_eq_some_iff.mp h
          obtain rfl : _ = s' := congrArg Prod.snd (Option.some.inj h)
          refine ⟨fun entry hentry => ?_, hs.const⟩
          rcases List.mem_append.mp hentry with hentry | hentry
          · exact hs.fold entry hentry
          · obtain rfl := List.mem_singleton.mp hentry
            exact hattrs
        · simp only [if_neg hfold] at h
          obtain ⟨o, _, h⟩ := Option.bind_eq_some_iff.mp h
          obtain rfl : _ = s' := congrArg Prod.snd (Option.some.inj h)
          exact hs.addConstants _
  | basicBlock block =>
      obtain ⟨b, _, h⟩ := Option.bind_eq_some_iff.mp h
      by_cases hfirst : b.ops.head?.all (fun first => first ∉ F.reachableOps) = true
      · simp only [if_pos hfirst] at h
        obtain rfl : s = s' := congrArg Prod.snd (Option.some.inj h)
        exact hs
      · simp only [if_neg hfirst] at h
        obtain rfl : _ = s' := congrArg Prod.snd (Option.some.inj h)
        exact hs.addConstants _

/-- In whatever order the worklist was emptied: an execution only comes to operations that are
    marked, a value that is replaced by a constant has the data of the constant there, and the
    attributes that an operation is folded with are right for its operands. -/
theorem candidates_sound {r : Except Empty Unit} {found : Candidates A}
    (hready : Ready ctx ifaces root) (hfolds : SoundFolds ctx ifaces sem)
    (hnew : SccpState.new ctx root = some st) (hrun : ReflTransGen (Step ctx ifaces) st F)
    (hdone : F.opWorklist = []) (hcollect : collect ctx ifaces F {} = some (r, found))
    (henv₀ : ∀ val, ctx.DefinedWithin root val → env₀ val = none)
    (hreaches : Reaches ctx ifaces sem root env₀ n env) :
    n ∈ F.reachableOps ∧
      (∀ val a d, (val, a) ∈ found.constValues → env val = some d → sem.denotes a d) ∧
      ∀ attrs ds, (n, attrs) ∈ found.foldCandidates → (ctx.opOperands n).mapM env = some ds →
        AttrsDescribe sem.denotes attrs ds := by
  have hfin := finished_of_run hready hnew hrun hdone
  have hfound := collect_found hready.nested hcollect
  -- an execution only reaches what the analysis has reached
  obtain ⟨hreached, hdesc⟩ := hfin.reaches hready hfolds henv₀ hreaches
  refine ⟨hreached, fun val a d hval hd => ?_, fun attrs ds hattrs hds => ?_⟩
  · have hdescribes := hdesc val d hd
    rw [hfound.const (val, a) hval] at hdescribes
    exact hdescribes
  · exact hdesc.operands (hfound.fold (n, attrs) hattrs) hds

end Executions

/-! ## A constant that is used in another block -/

/-- The definition computes 5. -/
def crossBlockSemantics : Semantics Nat Nat where
  denotes a d := a = d
  results op _ rs := rs = if op = ⟨0⟩ then [5] else []
  takes _ _ _ := True
  moves _ _ _ _ _ := False

theorem crossBlock_soundFolds :
    SoundFolds Context.crossBlock crossBlockOps crossBlockSemantics where
  fold op checkFold h attrs ds rs _ hrs i d hd := by
    obtain rfl : rs = _ := hrs
    unfold crossBlockOps at h
    simp only at h
    by_cases hzero : op = ⟨0⟩
    · rw [if_pos hzero] at h hd
      obtain rfl := Option.some.inj h
      cases i with
      | zero => exact ⟨some 5, rfl, fun a ha => (Option.some.inj ha).symm.trans (Option.some.inj hd)⟩
      | succ i => cases hd
    · rw [if_neg hzero] at hd
      cases hd
  branch op branchOp checkFold h hcheck := by
    unfold crossBlockOps at h
    simp only at h
    by_cases hone : op = ⟨1⟩
    · rw [if_pos hone] at h
      obtain rfl := Option.some.inj h
      cases hcheck
    · rw [if_neg hone] at h
      cases h
  regionBranch _ _ _ h := by cases h

/-- The data at the use. -/
def crossBlockEnv : Env Nat := Env.bind (fun _ => none) [(⟨0, .op ⟨0⟩⟩, 5)]

theorem crossBlock_reaches : Reaches Context.crossBlock crossBlockOps crossBlockSemantics ⟨3⟩
    (fun _ => none) ⟨2⟩ crossBlockEnv := by
  have hfirst : Reaches Context.crossBlock crossBlockOps crossBlockSemantics ⟨3⟩
      (fun _ => none) ⟨0⟩ (Env.bind (fun _ => none) []) :=
    @Reaches.start _ _ _ _ _ _ _ ⟨0⟩ _ [] (by decide) rfl
  have hsecond : Reaches Context.crossBlock crossBlockOps crossBlockSemantics ⟨3⟩
      (fun _ => none) ⟨1⟩ crossBlockEnv :=
    @Reaches.next _ _ _ _ _ _ _ _ _ _ [] [5] hfirst (by decide) rfl rfl rfl rfl rfl rfl
  exact @Reaches.branch _ _ _ _ _ _ _ _ _ _ _ [] 0 ⟨1⟩ [] [] hsecond
    rfl rfl rfl rfl trivial rfl rfl rfl rfl

/-- The use is folded with the constant that the definition computes. -/
theorem crossBlock_candidates_sound : ∃ (F : SccpState Nat) (found : Candidates Nat),
    (⟨2⟩, [some 5]) ∈ found.foldCandidates ∧
      (⟨2⟩ : OpPtr) ∈ F.reachableOps ∧
      (∀ val a d, (val, a) ∈ found.constValues → crossBlockEnv val = some d →
        crossBlockSemantics.denotes a d) ∧
      ∀ attrs ds, (⟨2⟩, attrs) ∈ found.foldCandidates →
        (Context.crossBlock.opOperands ⟨2⟩).mapM crossBlockEnv = some ds →
        AttrsDescribe crossBlockSemantics.denotes attrs ds := by
  have hcheck : ((SccpState.new (A := Nat) Context.crossBlock ⟨3⟩).bind (fun st =>
      (analyze Context.crossBlock crossBlockOps 10 st).bind (fun F =>
        (collect Context.crossBlock crossBlockOps F {}).map (fun p =>
          decide ((⟨2⟩, [some 5]) ∈ p.2.foldCandidates))))) = some true := by decide
  obtain ⟨st, hnew, hrest⟩ := Option.bind_eq_some_iff.mp hcheck
  obtain ⟨F, hF, hrest⟩ := Option.bind_eq_some_iff.mp hrest
  obtain ⟨⟨r, found⟩, hcollect, hmem⟩ := Option.map_eq_some_iff.mp hrest
  obtain ⟨hrun, hdone⟩ := analyze_run hF
  exact ⟨F, found, of_decide_eq_true hmem, candidates_sound crossBlock_ready crossBlock_soundFolds
    hnew hrun hdone hcollect (fun _ _ => rfl) crossBlock_reaches⟩

end Sccp

end Pliron
