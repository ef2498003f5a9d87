/-
  Pliron.Opts.SccpTransfer

  The functions that process an operation, as transfer functions of its operands.

  A region branch operation and the terminators in its regions are processed together.  What
  only reads the operands of the operation is kept apart here from the edges that start at
  terminators, which read the operands of both.
-/

import Pliron.Opts.SccpSteps

namespace Pliron

open Pliron.Lib Relation

/-- The operation at a branch point of `self`. -/
def RegionBranchPoint.op (self : OpPtr) : RegionBranchPoint → OpPtr
  | .parent => self
  | .terminator op => op

namespace Sccp

open SccpState

variable {A : Type}

/-! ## What a verified program promises -/

/-- What the verifier of the interface checks of the edges. -/
structure RegionBranchOp.Verified (ctx : Context) (parent : OpPtr) (op : RegionBranchOp A) :
    Prop where
  terminator : ∀ edge ∈ op.regionEdges, ∀ t, edge.source = .terminator t →
    ctx.parentOp t = some parent ∧
      ∃ o, ctx.operations t = some o ∧ o.concreteOp.isTerminator = true
  region : ∀ edge ∈ op.regionEdges, ∀ region, edge.target = .region region →
    ctx.regionParentOp region = some parent
  flow : ∀ edge ∈ op.regionEdges, ∀ flow ∈ edge.flows, flow.1.userOp = edge.source.op parent

/-- What lies around an operation is among `nodes`: the first operations of its regions, and the
    operation after it. -/
structure Covers (ctx : Context) (root : OpPtr) (nodes : OpPtr → Prop) (op : OpPtr) : Prop where
  regions : ∀ region ∈ ctx.opRegions op, ∀ n, ctx.entryOp region = some n → nodes n
  next : op ≠ root → ∀ n, ctx.nextOpOf op = some n → nodes n

variable [DecidableEq A] {ctx : Context} {ifaces : OpInterfaces A} {root op : OpPtr}
  {nodes : OpPtr → Prop} {reads : List Value} {st st' : SccpState A}

/-! ## Values and marks -/

theorem mergeAll_transfer (vals : List Value) :
    Transfer (A := A) ctx root nodes reads (fun st => st.mergeAll ctx vals) :=
  Transfer.loop (fun val _ => Transfer.merge val .notAConstant)

theorem markBlockReachable_transfer {block : BlockPtr}
    (hfirst : ∀ n, ctx.firstOp block = some n → nodes n) :
    Transfer (A := A) ctx root nodes reads (fun st => st.markBlockReachable ctx block) := by
  have hlookup : Transfer (A := A) ctx root nodes reads (fun st =>
      (ctx.basicBlocks block).bind (fun _ => some (st.markOption (ctx.firstOp block)))) :=
    Transfer.lookup (fun _ _ => Transfer.mark hfirst)
  have heq : (fun st : SccpState A => st.markBlockReachable ctx block) = fun st =>
      (ctx.basicBlocks block).bind (fun _ => some (st.markOption (ctx.firstOp block))) := by
    funext st
    rw [markBlockReachable_eq, Option.map_eq_bind]
    rfl
  rw [heq]
  exact hlookup

theorem markNextReachable_transfer (hnext : op ≠ root → ∀ n, ctx.nextOpOf op = some n → nodes n) :
    Transfer (A := A) ctx root nodes reads (fun st => st.markNextReachable ctx op) := by
  by_cases hop : op = root
  · have hsame : ∀ st : SccpState A, st.rootOp = root →
        st.markNextReachable ctx op = some st := by
      intro st hroot
      rw [markNextReachable_eq, if_pos (hop.trans hroot.symm)]
    constructor
    · intro st st' hroot h
      rw [hsame st hroot] at h
      obtain rfl := Option.some.inj h
      exact Moves.refl st
    · intro st st' st'' hroot h hdesc _
      rw [hsame st hroot] at h
      obtain rfl := Option.some.inj h
      exact hsame st'' (hdesc.2.trans hroot)
  · have hlookup : Transfer (A := A) ctx root nodes reads (fun st =>
        (ctx.operations op).bind (fun _ => some (st.markOption (ctx.nextOpOf op)))) :=
      Transfer.lookup (fun _ _ => Transfer.mark (hnext hop))
    have heq : ∀ st : SccpState A, st.rootOp = root → st.markNextReachable ctx op =
        (ctx.operations op).bind (fun _ => some (st.markOption (ctx.nextOpOf op))) := by
      intro st hroot
      rw [markNextReachable_eq, if_neg (fun h => hop (h.trans hroot)), Option.map_eq_bind]
      rfl
    constructor
    · intro st st' hroot h
      exact hlookup.moves st st' hroot ((heq st hroot).symm.trans h)
    · intro st st' st'' hroot h hdesc hsame
      have hmoves := hlookup.moves st st' hroot ((heq st hroot).symm.trans h)
      rw [heq st'' (hdesc.2.trans (hmoves.rootOp.trans hroot))]
      exact hlookup.replay st st' st'' hroot ((heq st hroot).symm.trans h) hdesc hsame

theorem entryBlock_eq {region : RegionPtr} {r : Region} (hr : ctx.regions region = some r) :
    ctx.entryBlock region = r.blocks.head? := by
  simp [Context.entryBlock, Context.regionBlocks, hr]

theorem entryOp_eq {region : RegionPtr} {r : Region} {entry : BlockPtr}
    (hr : ctx.regions region = some r) (hentry : r.blocks.head? = some entry) :
    ctx.entryOp region = ctx.firstOp entry := by
  unfold Context.entryOp
  rw [entryBlock_eq hr, hentry]
  rfl

/-- What is done to a state at the first block of a region. -/
def seedRegion (ctx : Context) (st : SccpState A) (region : RegionPtr) : Option (SccpState A) := do
  let r ← ctx.regions region
  match r.blocks.head? with
  | none => some st
  | some entry => do
      let b ← ctx.basicBlocks entry
      let st ← st.mergeAll ctx (b.argValues entry)
      st.markBlockReachable ctx entry

theorem seedRegion_transfer {region : RegionPtr}
    (hfirst : ∀ n, ctx.entryOp region = some n → nodes n) :
    Transfer (A := A) ctx root nodes reads (fun st => seedRegion ctx st region) := by
  refine Transfer.lookup (fun r hr => ?_)
  cases hentry : r.blocks.head? with
  | none => exact Transfer.same
  | some entry =>
      rw [entryOp_eq hr hentry] at hfirst
      refine Transfer.lookup (fun b _ => ?_)
      exact (mergeAll_transfer _).andThen (markBlockReachable_transfer hfirst)

theorem seedNestedRegions_transfer (hcovers : Covers ctx root nodes op) :
    Transfer (A := A) ctx root nodes reads (fun st => st.seedNestedRegions ctx op) := by
  refine Transfer.lookup (fun o ho => ?_)
  refine Transfer.loop (f := seedRegion ctx) (fun region hregion => ?_)
  have hmem : region ∈ ctx.opRegions op := by simpa [Context.opRegions, ho] using hregion
  exact seedRegion_transfer (hcovers.regions region hmem)

/-! ## Operations without regions -/

theorem forwardValue_transfer {flow : Value × Value} (hread : flow.1 ∈ reads) :
    Transfer (A := A) ctx root nodes reads (fun st => forwardValue ctx st flow) :=
  Transfer.read (fun _ _ hsame => operandState_congr (hsame _ hread))
    (fun _ _ _ => Transfer.merge _ _)

omit [DecidableEq A] in
theorem operandAttrs_read (hreads : ∀ val ∈ ctx.opOperands op, val ∈ reads) (st st' : SccpState A)
    (hsame : SameOn reads st st') : operandAttrs ctx op st' = operandAttrs ctx op st :=
  operandAttrs_congr (hsame.mono hreads)

theorem processFoldOp_transfer (checkFold : List (Option A) → List (Option A))
    (hreads : ∀ val ∈ ctx.opOperands op, val ∈ reads) :
    Transfer ctx root nodes reads (processFoldOp ctx checkFold op) := by
  refine Transfer.read (operandAttrs_read hreads) (fun _ attrs _ => ?_)
  refine Transfer.lookup (fun o _ => ?_)
  exact Transfer.loop (fun entry _ => Transfer.merge _ _)

theorem processGenericOp_transfer : Transfer (A := A) ctx root nodes reads
    (processGenericOp ctx op) :=
  Transfer.lookup (fun _ _ => mergeAll_transfer _)

theorem processSuccessor_transfer {branchOp : BranchOp A} {succ : BlockPtr × Nat}
    (hreads : ∀ val ∈ ctx.opOperands op, val ∈ reads)
    (hfirst : ∀ n, ctx.firstOp succ.1 = some n → nodes n) :
    Transfer ctx root nodes reads (fun st => processSuccessor ctx branchOp op st succ) := by
  refine Transfer.lookup (fun forwarded hforwarded => ?_)
  refine Transfer.lookup (fun block _ => ?_)
  refine Transfer.andThen (Transfer.loop (fun flow hflow => ?_)) (markBlockReachable_transfer hfirst)
  have hmem : flow.1 ∈ forwarded := (List.of_mem_zip hflow).1
  exact forwardValue_transfer (hreads _ (successorOperands_mem hforwarded hmem))

theorem processBranchOp_transfer {branchOp : BranchOp A}
    (hreads : ∀ val ∈ ctx.opOperands op, val ∈ reads)
    (hfirst : ∀ o, ctx.operations op = some o → ∀ block ∈ o.successorDefs,
      ∀ n, ctx.firstOp block = some n → nodes n) :
    Transfer ctx root nodes reads (processBranchOp ctx branchOp op) := by
  refine Transfer.read (operandAttrs_read hreads) (fun _ attrs _ => ?_)
  refine Transfer.lookup (fun o ho => ?_)
  refine Transfer.loop (fun succ hsucc => ?_)
  by_cases hfeasible : succ.1 ∈ branchOp.feasible o attrs
  · simp only [if_pos hfeasible]
    exact processSuccessor_transfer hreads
      (hfirst o ho succ.1 (List.fst_mem_of_mem_zipIdx hsucc))
  · simp only [if_neg hfeasible]
    exact Transfer.same

/-! ## Edges between regions -/

theorem markTarget_transfer (hnest : ctx.WellNested) (hcovers : Covers ctx root nodes op)
    {target : RegionSuccessor}
    (hregion : ∀ region, target = .region region → ctx.regionParentOp region = some op) :
    Transfer (A := A) ctx root nodes reads (fun st => markTarget ctx op st target) := by
  cases target with
  | after => exact markNextReachable_transfer hcovers.next
  | region region =>
      have hmem := (hnest.region_mem op region).mpr (hregion region rfl)
      refine Transfer.lookup (fun r hr => ?_)
      have hfirst := hcovers.regions region hmem
      cases hentry : r.blocks.head? with
      | none => exact Transfer.same
      | some entry =>
          rw [entryOp_eq hr hentry] at hfirst
          exact markBlockReachable_transfer hfirst

theorem processRegionEdge_transfer (hnest : ctx.WellNested) (hcovers : Covers ctx root nodes op)
    {regionBranch : RegionBranchOp A} (hverified : regionBranch.Verified ctx op) {edge : RegionEdge}
    (hedge : edge ∈ regionBranch.regionEdges)
    (hreads : ∀ val ∈ ctx.opOperands (edge.source.op op), val ∈ reads) :
    Transfer (A := A) ctx root nodes reads (fun st => processRegionEdge ctx op st edge) := by
  refine Transfer.andThen (Transfer.loop (fun flow hflow => ?_))
    (markTarget_transfer hnest hcovers (hverified.region edge hedge))
  refine Transfer.lookup (fun val hval => forwardValue_transfer (hreads val ?_))
  rw [← hverified.flow edge hedge flow hflow]
  exact useDef_mem hval

omit [DecidableEq A] in
theorem mem_edgesFrom {regionBranch : RegionBranchOp A} {point : RegionBranchPoint}
    {edge : RegionEdge} :
    edge ∈ regionBranch.edgesFrom point ↔ edge ∈ regionBranch.regionEdges ∧ edge.source = point := by
  unfold RegionBranchOp.edgesFrom
  rw [List.mem_filter, decide_eq_true_iff]

omit [DecidableEq A] in
theorem mem_terminators {regionBranch : RegionBranchOp A} {terminator : OpPtr} :
    terminator ∈ regionBranch.terminators ↔
      ∃ edge ∈ regionBranch.regionEdges, edge.source = .terminator terminator := by
  unfold RegionBranchOp.terminators
  rw [ISet.mem_extend, or_iff_right List.not_mem_nil, List.mem_filterMap]
  refine exists_congr (fun edge => and_congr_right (fun _ => ?_))
  cases edge.source with
  | parent => simp
  | terminator t => simp

theorem processRegionBranchEdges_transfer (hnest : ctx.WellNested)
    (hcovers : Covers ctx root nodes op) {regionBranch : RegionBranchOp A}
    (hverified : regionBranch.Verified ctx op) {point : RegionBranchPoint}
    {opAttrs terminatorAttrs : List (Option A)}
    (hreads : ∀ val ∈ ctx.opOperands (point.op op), val ∈ reads) :
    Transfer ctx root nodes reads
      (processRegionBranchEdges ctx regionBranch op point opAttrs terminatorAttrs) := by
  refine Transfer.loop (fun edge hedge => ?_)
  obtain ⟨hmem, hsource⟩ := mem_edgesFrom.mp (List.mem_of_mem_filter hedge)
  rw [← hsource] at hreads
  exact processRegionEdge_transfer hnest hcovers hverified hmem hreads

theorem processParentEdges_transfer (hnest : ctx.WellNested) (hcovers : Covers ctx root nodes op)
    {regionBranch : RegionBranchOp A} (hverified : regionBranch.Verified ctx op)
    (hreads : ∀ val ∈ ctx.opOperands op, val ∈ reads) :
    Transfer ctx root nodes reads (processParentEdges ctx regionBranch op) := by
  refine Transfer.read (operandAttrs_read hreads) (fun _ attrs _ => ?_)
  refine Transfer.lookup (fun slots _ => ?_)
  exact (mergeAll_transfer _).andThen
    (processRegionBranchEdges_transfer hnest hcovers hverified hreads)

theorem processRegionTerminator_transfer (hnest : ctx.WellNested)
    {terminator parent : OpPtr} (hcovers : Covers ctx root nodes parent)
    (hverified : ∀ regionBranch, ifaces.regionBranch parent = some regionBranch →
      regionBranch.Verified ctx parent)
    (hreads : ∀ val ∈ ctx.opOperands terminator, val ∈ reads)
    (hparent : ∀ val ∈ ctx.opOperands parent, val ∈ reads) :
    Transfer ctx root nodes reads (processRegionTerminator ctx ifaces terminator parent) := by
  refine Transfer.read (operandAttrs_read hparent) (fun _ parentAttrs _ => ?_)
  refine Transfer.read (operandAttrs_read hreads) (fun _ attrs _ => ?_)
  refine Transfer.lookup (fun regionBranch hregionBranch => ?_)
  exact @processRegionBranchEdges_transfer A _ ctx root parent nodes reads hnest hcovers
    regionBranch (hverified regionBranch hregionBranch) (.terminator terminator) parentAttrs attrs
    hreads

end Sccp

end Pliron
