/-
  Pliron.Opts.SccpOrder

  The analysis ends, and its result does not depend on the order of visits.

  If folding is monotone and values are defined in regions with SSA dominance, no visit gets
  below a state in which nothing changes any more.  So two finished runs are above each other.
-/

import Pliron.Opts.SccpFixed

namespace Pliron

open Pliron.Lib Relation Walkers

namespace Sccp

open SccpState

variable {A : Type}

/-! ## Monotone folding -/

/-- `attrs` are `attrs'`, with fewer of them known. -/
def FewerKnown (attrs attrs' : List (Option A)) : Prop :=
  List.Forall₂ (fun a b => a = none ∨ a = b) attrs attrs'

/-- Folding that knows less of the operands finds less. -/
structure MonotoneFolds (ifaces : OpInterfaces A) : Prop where
  fold : ∀ op checkFold, ifaces.fold op = some checkFold → ∀ attrs attrs',
    FewerKnown attrs attrs' → FewerKnown (checkFold attrs) (checkFold attrs')
  branch : ∀ op branchOp checkFold, ifaces.branch op = some branchOp →
    branchOp.checkFold = some checkFold → ∀ attrs attrs', FewerKnown attrs attrs' →
    ∀ block ∈ checkFold attrs', block ∈ checkFold attrs
  regionBranch : ∀ op regionBranch checkFold, ifaces.regionBranch op = some regionBranch →
    regionBranch.checkFold = some checkFold → ∀ point a a' b b', FewerKnown a a' →
    FewerKnown b b' → ∀ target ∈ checkFold point a' b', target ∈ checkFold point a b

/-- What is defined inside `root` is defined in regions with SSA dominance. -/
def SsaWithin (ctx : Context) (root : OpPtr) : Prop :=
  ∀ val, ctx.DefinedWithin root val → ∀ region, ctx.valueParentRegion val = some region →
    ctx.hasSsaDominance region = some true

variable [DecidableEq A] {ctx : Context} {ifaces : OpInterfaces A} {root op : OpPtr}
  {F st st' : SccpState A}

/-- A state above another one, in the same analysis. -/
structure Bounded (ctx : Context) (F st : SccpState A) : Prop where
  above : F.store.Above st.store
  rootOp : st.rootOp = F.rootOp
  outside : OutsideUnknown ctx st

/-- A function that does not get below a state. -/
def Safe (ctx : Context) (F : SccpState A) (f : SccpState A → Option (SccpState A)) : Prop :=
  ∀ st st', Bounded ctx F st → f st = some st' → Bounded ctx F st'

namespace Safe

variable {f g : SccpState A → Option (SccpState A)}

theorem same : Safe ctx F some := by
  intro st st' hst h
  obtain rfl := Option.some.inj h
  exact hst

theorem merge {val : Value} {x : Constness A} (hx : F.getValState val ≤ x) :
    Safe ctx F (fun st => st.mergeValState ctx val x) := by
  intro st st' hst h
  refine ⟨?_, (mergeValState_rootOp h).trans hst.rootOp, ?_⟩
  · rw [mergeValState_store h]
    exact hst.above.lower hx
  · have hmoves : Moves ctx (fun _ => True) st st' :=
      ReflTransGen.single (Move.merge val x st' h)
    exact hst.outside.descends hmoves.descends

theorem mark {first : Option OpPtr} (hfirst : ∀ n, first = some n → n ∈ F.reachableOps) :
    Safe ctx F (fun st => some (st.markOption first)) := by
  intro st st' hst h
  obtain rfl := Option.some.inj h
  have hmoves : Moves ctx (fun _ => True) st (st.markOption first) :=
    markOption_moves (fun _ _ => trivial)
  refine ⟨?_, hmoves.rootOp.trans hst.rootOp, hst.outside.descends hmoves.descends⟩
  cases first with
  | none => exact hst.above
  | some n =>
      show F.store.Above (st.markReachable n).store
      rw [markReachable_store]
      exact hst.above.reach (hfirst n rfl)

theorem andThen (hf : Safe ctx F f) (hg : Safe ctx F g) : Safe ctx F (fun st => (f st).bind g) := by
  intro st st' hst h
  obtain ⟨s, hs, hst'⟩ := Option.bind_eq_some_iff.mp h
  exact hg s st' (hf st s hst hs) hst'

theorem read {β : Type} {r : SccpState A → Option β} {f : β → SccpState A → Option (SccpState A)}
    (hf : ∀ st b, Bounded ctx F st → r st = some b → Safe ctx F (f b)) :
    Safe ctx F (fun st => (r st).bind (fun b => f b st)) := by
  intro st st' hst h
  obtain ⟨b, hb, hst'⟩ := Option.bind_eq_some_iff.mp h
  exact hf st b hst hb st st' hst hst'

theorem lookup {β : Type} {r : Option β} {f : β → SccpState A → Option (SccpState A)}
    (hf : ∀ b, r = some b → Safe ctx F (f b)) :
    Safe ctx F (fun st => r.bind (fun b => f b st)) :=
  read (r := fun _ => r) (fun _ b _ hb => hf b hb)

theorem loop {α : Type} {f : SccpState A → α → Option (SccpState A)} {l : List α}
    (hf : ∀ a ∈ l, Safe ctx F (fun st => f st a)) : Safe ctx F (fun st => l.foldlM f st) := by
  induction l with
  | nil => exact same
  | cons a l ih =>
      exact (hf a List.mem_cons_self).andThen (ih (fun b hb => hf b (List.mem_cons_of_mem _ hb)))

end Safe

/-! ## What is read above a state -/

section Reads

variable (hssa : SsaWithin ctx F.rootOp) (hst : Bounded ctx F st)
include hssa hst

theorem operandState_eq {val : Value} {x : Constness A} (hx : operandState ctx val st = some x) :
    x = st.getValState val ∧ x ≠ .undetermined := by
  unfold operandState at hx
  cases hstate : st.getValState val with
  | constant a =>
      simp only [hstate] at hx
      obtain rfl := Option.some.inj hx
      exact ⟨rfl, by simp⟩
  | notAConstant =>
      simp only [hstate] at hx
      obtain rfl := Option.some.inj hx
      exact ⟨rfl, by simp⟩
  | undetermined =>
      simp only [hstate] at hx
      obtain ⟨region, hregion, hx⟩ := Option.bind_eq_some_iff.mp hx
      have hwithin : ctx.DefinedWithin st.rootOp val := by
        by_contra hnot
        have hbot := hst.outside val (fun hin => hnot hin.1)
        rw [hstate] at hbot
        cases hbot
      rw [hst.rootOp] at hwithin
      rw [hssa val hwithin region hregion] at hx
      cases hx

theorem operandState_le {val : Value} {x y : Constness A} (hx : operandState ctx val st = some x)
    (hy : operandState ctx val F = some y) : y ≤ x := by
  obtain ⟨rfl, hne⟩ := operandState_eq hssa hst hx
  have hle : F.getValState val ≤ st.getValState val := hst.above.1 val
  unfold operandState at hy
  cases hstate : F.getValState val with
  | constant a =>
      simp only [hstate] at hy
      obtain rfl := Option.some.inj hy
      rwa [hstate] at hle
  | notAConstant =>
      simp only [hstate] at hy
      obtain rfl := Option.some.inj hy
      rwa [hstate] at hle
  | undetermined =>
      rw [hstate] at hle
      exact absurd (Constness.undetermined_le_iff.mp hle) hne

theorem operandAttrs_fewer {attrs attrs' : List (Option A)}
    (hattrs : operandAttrs ctx op F = some attrs) (hattrs' : operandAttrs ctx op st = some attrs') :
    FewerKnown attrs attrs' := by
  obtain ⟨o, ho, hmap⟩ := Option.bind_eq_some_iff.mp hattrs
  obtain ⟨o', ho', hmap'⟩ := Option.bind_eq_some_iff.mp hattrs'
  obtain rfl := Option.some.inj (ho.symm.trans ho')
  clear hattrs hattrs'
  generalize o.operandDefs = vals at hmap hmap'
  induction vals generalizing attrs attrs' with
  | nil =>
      rw [List.mapM_nil] at hmap hmap'
      obtain rfl := Option.some.inj hmap
      obtain rfl := Option.some.inj hmap'
      exact List.Forall₂.nil
  | cons val vals ih =>
      rw [List.mapM_cons] at hmap hmap'
      obtain ⟨attr, hattr, hrest⟩ := Option.bind_eq_some_iff.mp hmap
      obtain ⟨l, hl, hmap⟩ := Option.bind_eq_some_iff.mp hrest
      obtain rfl := Option.some.inj hmap
      obtain ⟨attr', hattr', hrest'⟩ := Option.bind_eq_some_iff.mp hmap'
      obtain ⟨l', hl', hmap'⟩ := Option.bind_eq_some_iff.mp hrest'
      obtain rfl := Option.some.inj hmap'
      refine List.Forall₂.cons ?_ (ih hl hl')
      obtain ⟨y, hy, rfl⟩ := Option.map_eq_some_iff.mp hattr
      obtain ⟨x, hx, rfl⟩ := Option.map_eq_some_iff.mp hattr'
      have hle := operandState_le hssa hst hx hy
      have hne := (operandState_eq hssa hst hx).2
      cases y with
      | constant a =>
          rcases Constness.constant_le_iff.mp hle with rfl | rfl
          · exact Or.inr rfl
          · exact absurd rfl hne
      | undetermined => exact Or.inl rfl
      | notAConstant => exact Or.inl rfl

end Reads

/-! ## Processing an operation that is stable below -/

section Functions

theorem mergeAll_safe {vals : List Value}
    (h : ∀ val ∈ vals, F.getValState val = .notAConstant) :
    Safe ctx F (fun st => st.mergeAll ctx vals) :=
  Safe.loop (fun val hval => Safe.merge (Constness.le_bot_iff.mpr (h val hval)))

theorem markBlock_safe {block : BlockPtr} (h : ∀ n, ctx.firstOp block = some n →
    n ∈ F.reachableOps) : Safe ctx F (fun st => st.markBlockReachable ctx block) := by
  have heq : (fun st : SccpState A => st.markBlockReachable ctx block) = fun st =>
      (ctx.basicBlocks block).bind (fun _ => some (st.markOption (ctx.firstOp block))) := by
    funext st
    rw [markBlockReachable_eq, Option.map_eq_bind]
    rfl
  rw [heq]
  exact Safe.lookup (fun _ _ => Safe.mark h)

theorem markNext_safe (h : op ≠ F.rootOp → ∀ n, ctx.nextOpOf op = some n → n ∈ F.reachableOps) :
    Safe ctx F (fun st => st.markNextReachable ctx op) := by
  intro st st' hst hrun
  change st.markNextReachable ctx op = some st' at hrun
  rw [markNextReachable_eq] at hrun
  by_cases hop : op = st.rootOp
  · rw [if_pos hop] at hrun
    obtain rfl := Option.some.inj hrun
    exact hst
  · rw [if_neg hop] at hrun
    obtain ⟨_, _, rfl⟩ := Option.map_eq_some_iff.mp hrun
    exact Safe.mark (h (fun heq => hop (heq.trans hst.rootOp.symm))) st _ hst rfl

theorem seedNestedRegions_safe (h : F.seedNestedRegions ctx op = some F) :
    Safe ctx F (fun st => st.seedNestedRegions ctx op) := by
  refine Safe.lookup (fun o ho => Safe.loop (f := seedRegion ctx) (fun region hregion => ?_))
  have hmem : region ∈ ctx.opRegions op := by simpa [Context.opRegions, ho] using hregion
  obtain ⟨hargs, hmark⟩ := seedNestedRegions_fixed h hmem
  refine Safe.lookup (fun r hr => ?_)
  cases hentry : r.blocks.head? with
  | none => exact Safe.same
  | some entry =>
      refine Safe.lookup (fun b hb => ?_)
      rw [entryArgs_eq hr hentry hb] at hargs
      rw [entryOp_eq hr hentry] at hmark
      exact (mergeAll_safe hargs).andThen (markBlock_safe hmark)

variable (hssa : SsaWithin ctx F.rootOp)
include hssa

theorem forwardValue_safe {flow : Value × Value} (h : Flows ctx F flow) :
    Safe ctx F (fun st => forwardValue ctx st flow) := by
  obtain ⟨y, hy, hle⟩ := h
  refine Safe.read (fun st x hst hx => Safe.merge (hle.trans ?_))
  exact operandState_le hssa hst hx hy

theorem processFoldOp_safe (hmono : MonotoneFolds ifaces)
    {checkFold : List (Option A) → List (Option A)} (hfold : ifaces.fold op = some checkFold)
    (h : processFoldOp ctx checkFold op F = some F) :
    Safe ctx F (processFoldOp ctx checkFold op) := by
  obtain ⟨attrs, hattrs, hmerged⟩ := processFoldOp_fixed h
  refine Safe.read (fun st attrs' hst hattrs' => Safe.lookup (fun o ho => Safe.loop ?_))
  intro entry hentry
  have hresults : ctx.opResults op = o.resultValues op := by simp [Context.opResults, ho]
  have hfewer := hmono.fold op checkFold hfold attrs attrs'
    (operandAttrs_fewer hssa hst hattrs hattrs')
  obtain ⟨i, hi⟩ := List.mem_iff_getElem?.mp hentry
  obtain ⟨hres, hx⟩ := List.getElem?_zip_eq_some.mp hi
  obtain ⟨x, hx', hcase⟩ := getElem?_of_forall₂ hfewer hx
  have hmem : (entry.1, x) ∈ (ctx.opResults op).zip (checkFold attrs) := by
    rw [hresults]
    exact List.mem_iff_getElem?.mpr ⟨i, List.getElem?_zip_eq_some.mpr ⟨hres, hx'⟩⟩
  refine Safe.merge ((hmerged _ hmem).trans ?_)
  rcases hcase with rfl | rfl
  · exact Constness.bot_le _
  · exact le_refl _

omit hssa in
theorem processGenericOp_safe (h : processGenericOp ctx op F = some F) :
    Safe ctx F (processGenericOp ctx op) := by
  refine Safe.lookup (fun o ho => mergeAll_safe ?_)
  have hresults : ctx.opResults op = o.resultValues op := by simp [Context.opResults, ho]
  rw [← hresults]
  exact processGenericOp_fixed h

theorem processBranchOp_safe (hmono : MonotoneFolds ifaces) {branchOp : BranchOp A}
    (hbranch : ifaces.branch op = some branchOp)
    (h : processBranchOp ctx branchOp op F = some F) :
    Safe ctx F (processBranchOp ctx branchOp op) := by
  obtain ⟨o, attrs, ho, hattrs, hsuccs⟩ := processBranchOp_fixed h
  refine Safe.read (fun st attrs' hst hattrs' => Safe.lookup (fun o' ho' => Safe.loop ?_))
  obtain rfl := Option.some.inj (ho.symm.trans ho')
  have hfewer := operandAttrs_fewer hssa hst hattrs hattrs'
  intro succ hsucc
  by_cases hin : succ.1 ∈ branchOp.feasible o attrs'
  · simp only [if_pos hin]
    have hin' : succ.1 ∈ branchOp.feasible o attrs := by
      unfold BranchOp.feasible at hin ⊢
      cases hcheck : branchOp.checkFold with
      | none =>
          simp only [hcheck] at hin
          exact hin
      | some checkFold =>
          simp only [hcheck] at hin
          exact hmono.branch op branchOp checkFold hbranch hcheck attrs attrs' hfewer _ hin
    refine Safe.lookup (fun forwarded hforwarded => Safe.lookup (fun b hb => ?_))
    have hblock := List.mk_mem_zipIdx_iff_getElem?.mp hsucc
    obtain ⟨hflows, hmark⟩ := hsuccs succ.2 succ.1 forwarded hblock hin' hforwarded
    have hargs : ctx.blockArgs succ.1 = b.argValues succ.1 := by
      simp only [Context.blockArgs, hb]
      rfl
    rw [hargs] at hflows
    exact (Safe.loop (fun flow hflow => forwardValue_safe hssa (hflows flow hflow))).andThen
      (markBlock_safe hmark)
  · simp only [if_neg hin]
    exact Safe.same

omit hssa in
theorem markTarget_safe {target : RegionSuccessor}
    (h : ∀ n, (regionTarget ctx F.rootOp op target).1 = some n → n ∈ F.reachableOps) :
    Safe ctx F (fun st => markTarget ctx op st target) := by
  cases target with
  | after =>
      refine markNext_safe (fun hop n hn => h n ?_)
      rw [regionTarget, if_neg hop]
      exact hn
  | region region =>
      refine Safe.lookup (fun r hr => ?_)
      cases hentry : r.blocks.head? with
      | none => exact Safe.same
      | some entry =>
          have hfirst : ∀ n, ctx.entryOp region = some n → n ∈ F.reachableOps := h
          rw [entryOp_eq hr hentry] at hfirst
          exact markBlock_safe hfirst

theorem processRegionEdge_safe {edge : RegionEdge} (h : Passed ctx F op edge) :
    Safe ctx F (fun st => processRegionEdge ctx op st edge) := by
  refine Safe.andThen (Safe.loop (fun flow hflow => ?_)) (markTarget_safe h.2)
  exact Safe.lookup (fun val hval => forwardValue_safe hssa (h.1 flow hflow val hval))

section Edges

variable (hmono : MonotoneFolds ifaces) (hready : Ready ctx ifaces root)
  {regionBranch : RegionBranchOp A} (hregion : ifaces.regionBranch op = some regionBranch)
include hmono hregion

/-- Edges that can be taken above a state can be taken in it. -/
theorem processRegionBranchEdges_safe {point : RegionBranchPoint} {a a' b b' : List (Option A)}
    (ha : FewerKnown a a') (hb : FewerKnown b b')
    (h : ∀ edge ∈ regionBranch.regionEdges, edge.source = point →
      edge.target ∈ regionBranch.feasible point a b → Passed ctx F op edge) :
    Safe ctx F (processRegionBranchEdges ctx regionBranch op point a' b') := by
  refine Safe.loop (fun edge hedge => processRegionEdge_safe hssa ?_)
  obtain ⟨hfrom, hfeasible⟩ := List.mem_filter.mp hedge
  obtain ⟨hmem, hsource⟩ := mem_edgesFrom.mp hfrom
  refine h edge hmem hsource ?_
  have hin := of_decide_eq_true hfeasible
  unfold RegionBranchOp.feasible at hin ⊢
  cases hcheck : regionBranch.checkFold with
  | none =>
      simp only [hcheck] at hin
      exact hin
  | some checkFold =>
      simp only [hcheck] at hin
      exact hmono.regionBranch op regionBranch checkFold hregion hcheck point a a' b b' ha hb _ hin

include hready

theorem processParentEdges_safe (h : processParentEdges ctx regionBranch op F = some F) :
    Safe ctx F (processParentEdges ctx regionBranch op) := by
  have hverified := hready.verified op regionBranch hregion
  obtain ⟨attrs, slots, hattrs, hslots, hfree, hedges⟩ :=
    processParentEdges_fixed hready.nested hverified h
  refine Safe.read (fun st attrs' hst hattrs' => Safe.lookup (fun slots' hslots' => ?_))
  obtain rfl := Option.some.inj (hslots.symm.trans hslots')
  have hfewer := operandAttrs_fewer hssa hst hattrs hattrs'
  refine (mergeAll_safe (fun val hval => ?_)).andThen
    (processRegionBranchEdges_safe hssa hmono hregion hfewer List.Forall₂.nil hedges)
  obtain ⟨hslot, hnot⟩ := List.mem_filter.mp hval
  exact hfree val hslot (of_decide_eq_true hnot)

end Edges

theorem processRegionTerminator_safe (hmono : MonotoneFolds ifaces)
    (hready : Ready ctx ifaces root) {terminator parent : OpPtr}
    (h : processRegionTerminator ctx ifaces terminator parent F = some F) :
    Safe ctx F (processRegionTerminator ctx ifaces terminator parent) := by
  obtain ⟨attrs, hattrs, h⟩ := Option.bind_eq_some_iff.mp h
  obtain ⟨attrs₂, hattrs₂, h⟩ := Option.bind_eq_some_iff.mp h
  obtain ⟨regionBranch, hregion, h⟩ := Option.bind_eq_some_iff.mp h
  have hverified := hready.verified parent regionBranch hregion
  refine Safe.read (fun st attrs' hst hattrs' => Safe.read (fun st₂ attrs₂' hst₂ hattrs₂' => ?_))
  refine Safe.lookup (fun regionBranch' hregion' => ?_)
  obtain rfl := Option.some.inj (hregion.symm.trans hregion')
  exact processRegionBranchEdges_safe hssa hmono hregion
    (operandAttrs_fewer hssa hst hattrs hattrs') (operandAttrs_fewer hssa hst₂ hattrs₂ hattrs₂')
    (fun edge hedge hsource hin =>
      processRegionBranchEdges_fixed hready.nested hverified h hedge hsource hin)

end Functions

/-! ## A visit above a finished state -/

omit [DecidableEq A] in
theorem regionBranchParent_of_verified {regionBranch : RegionBranchOp A} {terminator : OpPtr}
    (hregion : ifaces.regionBranch op = some regionBranch)
    (hverified : regionBranch.Verified ctx op) (hmem : terminator ∈ regionBranch.terminators) :
    regionBranchParent ctx ifaces terminator = some (some op) := by
  obtain ⟨edge, hedge, hpoint⟩ := mem_terminators.mp hmem
  obtain ⟨hparent, o, ho, hterm⟩ := hverified.terminator edge hedge terminator hpoint
  have hne : (regionBranch.edgesFrom (.terminator terminator)).isEmpty = false := by
    rw [List.isEmpty_eq_false_iff]
    exact List.ne_nil_of_mem (mem_edgesFrom.mpr ⟨hedge, hpoint⟩)
  simp [regionBranchParent, ho, hterm, hparent, hregion, hne]

theorem processKind_safe (hmono : MonotoneFolds ifaces) (hssa : SsaWithin ctx F.rootOp)
    {parent : Option OpPtr}
    (hkind : processKind ctx ifaces parent op F = some F) :
    Safe ctx F (processKind ctx ifaces parent op) := by
  unfold processKind at hkind ⊢
  cases parent with
  | some p => exact Safe.same
  | none =>
      cases hbranch : ifaces.branch op with
      | some branchOp =>
          simp only [hbranch] at hkind ⊢
          exact processBranchOp_safe hssa hmono hbranch hkind
      | none =>
          simp only [hbranch] at hkind ⊢
          cases hfold : ifaces.fold op with
          | some checkFold =>
              simp only [hfold] at hkind ⊢
              exact processFoldOp_safe hssa hmono hfold hkind
          | none =>
              simp only [hfold] at hkind ⊢
              exact processGenericOp_safe hkind

section Visits

variable (h : Finished ctx ifaces root F) (hready : Ready ctx ifaces root)
  (hmono : MonotoneFolds ifaces) (hssa : SsaWithin ctx F.rootOp) (hop : op ∈ F.reachableOps)
include h hready hmono hssa hop

theorem Finished.local_safe : Safe ctx F (processLocal ctx ifaces op) := by
  cases hregion : ifaces.regionBranch op with
  | some regionBranch =>
      have hstable := (h.stable op hop).1
      unfold processLocal at hstable ⊢
      simp only [hregion] at hstable ⊢
      exact processParentEdges_safe hssa hmono hready hregion hstable
  | none =>
      obtain ⟨hseed, parent, hparent, hkind⟩ := h.kind_fixed hop hregion
      unfold processLocal
      simp only [hregion]
      refine Safe.lookup (fun parent' hparent' => ?_)
      obtain rfl := Option.some.inj (hparent.symm.trans hparent')
      exact (seedNestedRegions_safe hseed).andThen (processKind_safe hmono hssa hkind)

theorem Finished.terminators_safe : Safe ctx F (processTerminators ctx ifaces op) := by
  unfold processTerminators
  cases hregion : ifaces.regionBranch op with
  | some regionBranch =>
      simp only
      refine Safe.loop (fun terminator hmem => ?_)
      intro st st' hst hrun
      by_cases hreached : terminator ∈ st.reachableOps
      · simp only [if_pos hreached] at hrun
        have hparent := regionBranchParent_of_verified hregion
          (hready.verified op regionBranch hregion) hmem
        have hfixed := h.terminators terminator (hst.above.2 terminator hreached) op hparent
        exact processRegionTerminator_safe hssa hmono hready hfixed st st' hst hrun
      · simp only [if_neg hreached] at hrun
        obtain rfl := Option.some.inj hrun
        exact hst
  | none =>
      simp only
      refine Safe.lookup (fun parent hparent => ?_)
      cases parent with
      | none => exact Safe.same
      | some p =>
          exact processRegionTerminator_safe hssa hmono hready (h.terminators op hop p hparent)

/-- A visit of an operation that is stable below does not get below. -/
theorem Finished.visit_safe (hst : Bounded ctx F st)
    (hvisit : visit ctx ifaces op st = some st') : Bounded ctx F st' := by
  obtain ⟨_, s, t, hlocal, hterm, hproceed⟩ := visit_parts hvisit
  have hpopped : Bounded ctx F (st.popped op) := ⟨hst.above, hst.rootOp, hst.outside⟩
  have hs := h.local_safe hready hmono hssa hop _ s hpopped hlocal
  have ht := h.terminators_safe hready hmono hssa hop s t hs hterm
  obtain ⟨falls, hfalls, hproceed⟩ := Option.bind_eq_some_iff.mp hproceed
  cases falls with
  | false =>
      obtain rfl := Option.some.inj hproceed
      exact ht
  | true =>
      refine markNext_safe (fun hne n hn => ?_) t st' ht hproceed
      exact h.next_reached hop (fun heq => hne (heq.trans h.rootOp.symm)) hfalls hn

end Visits

/-! ## Results -/

/-- No run gets below a finished one. -/
theorem Finished.bounds (h : Finished ctx ifaces root F) (hready : Ready ctx ifaces root)
    (hmono : MonotoneFolds ifaces) (hssa : SsaWithin ctx root) {G : SccpState A}
    (hnew : SccpState.new ctx root = some st) (hst : Descends st F)
    (hrun : ReflTransGen (Step ctx ifaces) st G) : Bounded ctx F G := by
  obtain ⟨hroot, hs, hunknown⟩ := new_settled hready hnew
  induction hrun with
  | refl => exact ⟨hst.1, hst.2.symm, hunknown⟩
  | @tail a b hpre hstep ih =>
      obtain ⟨op, hop, hvisit⟩ := hstep
      have hqueue := (run_settled hready hroot hs hpre).2.1.queue
      have hreached := ih.above.2 op (hqueue op hop)
      exact h.visit_safe hready hmono (h.rootOp.symm ▸ hssa) hreached ih hvisit

/-- The result of the analysis, and with it the candidates, does not depend on the order in which
    operations are taken from the worklist. -/
theorem analysis_order_independent (hready : Ready ctx ifaces root) (hmono : MonotoneFolds ifaces)
    (hssa : SsaWithin ctx root) (hnew : SccpState.new ctx root = some st) {G : SccpState A}
    (hF : ReflTransGen (Step ctx ifaces) st F) (hFdone : F.opWorklist = [])
    (hG : ReflTransGen (Step ctx ifaces) st G) (hGdone : G.opWorklist = []) :
    F.getValState = G.getValState ∧ (∀ op, op ∈ F.reachableOps ↔ op ∈ G.reachableOps) ∧
      collect ctx ifaces F = collect ctx ifaces G := by
  obtain ⟨hroot, hs, _⟩ := new_settled hready hnew
  have hF' := finished_of_run hready hnew hF hFdone
  have hG' := finished_of_run hready hnew hG hGdone
  have hFdesc := (run_settled hready hroot hs hF).2.2
  have hGdesc := (run_settled hready hroot hs hG).2.2
  -- each end bounds every run, the run of the other end included
  have hFG := hF'.bounds hready hmono hssa hnew hFdesc hG
  have hGF := hG'.bounds hready hmono hssa hnew hGdesc hF
  obtain ⟨hval, hreached⟩ := hFG.above.antisymm hGF.above
  have hval' : F.getValState = G.getValState := hval
  have hreached' : ∀ op, op ∈ F.reachableOps ↔ op ∈ G.reachableOps := hreached
  have hattrs : ∀ op, operandAttrs ctx op F = operandAttrs ctx op G := fun op =>
    operandAttrs_congr (fun val _ => congrFun hval' val)
  refine ⟨hval', hreached', ?_⟩
  unfold collect Candidates.addConstants
  rw [hF'.rootOp, hG'.rootOp, hval']
  simp only [hreached', hattrs]

end Sccp

/-! ## Two branches that meet -/

namespace Context

/-- Block 0 defines two values and branches to blocks 1 and 2, each of which passes one of them
    to block 3. -/
def diamond : Context where
  valueCounter := 3
  useCounter := 7
  operations := fun op => match op.idx with
    | 0 => some { concreteOp := { opId := 0 },
                  results := [⟨⟨[⟨⟨2⟩, 2⟩]⟩, 0, 0⟩, ⟨⟨[⟨⟨3⟩, 4⟩]⟩, 1, 0⟩],
                  parentBlock := some ⟨0⟩ }
    | 1 => some { concreteOp := { opId := 1, isTerminator := true, isBranch := true },
                  successors := [⟨0, ⟨1⟩⟩, ⟨1, ⟨2⟩⟩], parentBlock := some ⟨0⟩ }
    | 2 => some { concreteOp := { opId := 1, isTerminator := true, isBranch := true },
                  operands := [⟨2, ⟨0, .op ⟨0⟩⟩⟩], successors := [⟨3, ⟨3⟩⟩],
                  parentBlock := some ⟨1⟩ }
    | 3 => some { concreteOp := { opId := 1, isTerminator := true, isBranch := true },
                  operands := [⟨4, ⟨1, .op ⟨0⟩⟩⟩], successors := [⟨5, ⟨3⟩⟩],
                  parentBlock := some ⟨2⟩ }
    | 4 => some { concreteOp := { opId := 2, isTerminator := true },
                  operands := [⟨6, ⟨2, .block ⟨3⟩⟩⟩], parentBlock := some ⟨3⟩ }
    | 5 => some { concreteOp := { opId := 3 }, regions := [⟨0⟩] }
    | _ => none
  basicBlocks := fun block => match block.idx with
    | 0 => some { ops := [⟨0⟩, ⟨1⟩], parentRegion := some ⟨0⟩ }
    | 1 => some { ops := [⟨2⟩], preds := ⟨[⟨⟨1⟩, 0⟩]⟩, parentRegion := some ⟨0⟩ }
    | 2 => some { ops := [⟨3⟩], preds := ⟨[⟨⟨1⟩, 1⟩]⟩, parentRegion := some ⟨0⟩ }
    | 3 => some { ops := [⟨4⟩], args := [⟨⟨[⟨⟨4⟩, 6⟩]⟩, 2, 0⟩],
                  preds := ⟨[⟨⟨2⟩, 3⟩, ⟨⟨3⟩, 5⟩]⟩, parentRegion := some ⟨0⟩ }
    | _ => none
  regions := fun region => match region.idx with
    | 0 => some { parentOp := ⟨5⟩, blocks := [⟨0⟩, ⟨1⟩, ⟨2⟩, ⟨3⟩] }
    | _ => none
  nextOp := 6
  nextBlock := 4
  nextRegion := 1

theorem diamond_wellNested : diamond.WellNested where
  op_mem := by
    rintro ⟨_ | _ | _ | _ | i⟩ ⟨_ | _ | _ | _ | _ | _ | j⟩ <;>
      simp [blockOps, opParentBlock, diamond]
  block_mem := by
    rintro ⟨_ | i⟩ ⟨_ | _ | _ | _ | j⟩ <;> simp [regionBlocks, blockParentRegion, diamond]
  region_mem := by
    rintro ⟨_ | _ | _ | _ | _ | _ | i⟩ ⟨_ | j⟩ <;> simp [opRegions, regionParentOp, diamond]
  ops_nodup := by
    rintro ⟨_ | _ | _ | _ | i⟩ <;> simp [blockOps, diamond]
  blocks_nodup := by
    rintro ⟨_ | i⟩ <;> simp [regionBlocks, diamond]
  regions_nodup := by
    rintro ⟨_ | _ | _ | _ | _ | _ | i⟩ <;> simp [opRegions, diamond]
  op_lt := by
    rintro ⟨_ | _ | _ | _ | _ | _ | i⟩ <;> simp [diamond]
  block_lt := by
    rintro ⟨_ | _ | _ | _ | i⟩ <;> simp [diamond]
  region_lt := by
    rintro ⟨_ | i⟩ <;> simp [diamond]
  acyclic := by
    refine ⟨fun op => if op.idx = 5 then 0 else 1, ?_⟩
    rintro ⟨_ | _ | _ | _ | _ | _ | i⟩ parent <;>
      simp [parentOp, opParentRegion, opParentBlock, blockParentRegion, regionParentOp,
        diamond] <;> rintro rfl <;> simp

theorem diamond_refsOf (op : OpPtr) : diamond.refsOf op =
    match op.idx with
    | 1 => [(0, .block ⟨1⟩), (1, .block ⟨2⟩)]
    | 2 => [(2, .value ⟨0, .op ⟨0⟩⟩), (3, .block ⟨3⟩)]
    | 3 => [(4, .value ⟨1, .op ⟨0⟩⟩), (5, .block ⟨3⟩)]
    | 4 => [(6, .value ⟨2, .block ⟨3⟩⟩)]
    | _ => [] := by
  rcases op with ⟨_ | _ | _ | _ | _ | _ | i⟩ <;> rfl

theorem diamond_usePairs {d : Def} {us : List (OpPtr × Nat)} (h : diamond.usePairs d = some us) :
    (d, us) ∈ [(Def.value ⟨0, .op ⟨0⟩⟩, [((⟨2⟩ : OpPtr), 2)]), (.value ⟨1, .op ⟨0⟩⟩, [(⟨3⟩, 4)]),
      (.value ⟨2, .block ⟨3⟩⟩, [(⟨4⟩, 6)]), (.block ⟨1⟩, [(⟨1⟩, 0)]), (.block ⟨2⟩, [(⟨1⟩, 1)]),
      (.block ⟨3⟩, [(⟨2⟩, 3), (⟨3⟩, 5)])] ∨ us = [] := by
  rcases d with ⟨uid, ⟨_ | _ | _ | _ | _ | _ | i⟩ | ⟨_ | _ | _ | _ | i⟩⟩ | ⟨_ | _ | _ | _ | i⟩
  · by_cases hzero : uid = 0
    · subst hzero
      obtain rfl := Option.some.inj h
      exact Or.inl (by decide)
    · by_cases hone : uid = 1
      · subst hone
        obtain rfl := Option.some.inj h
        exact Or.inl (by decide)
      · simp [usePairs, usesOf, valueUses, valueDef, diamond, Ne.symm hzero, Ne.symm hone] at h
  all_goals simp [usePairs, usesOf, valueUses, valueDef, diamond, Use.pair] at h
  all_goals first
    | exact Or.inr h
    | (subst h; exact Or.inl (by decide))
    | (obtain ⟨rfl, rfl⟩ := h; exact Or.inl (by decide))

theorem diamond_defUse : diamond.DefUse where
  vals_nodup := by
    rintro (⟨_ | _ | _ | _ | _ | _ | i⟩ | ⟨_ | _ | _ | _ | i⟩) <;> simp [valueDefs, diamond]
  vals_lt := by
    rintro (⟨_ | _ | _ | _ | _ | _ | i⟩ | ⟨_ | _ | _ | _ | i⟩) <;> simp [valueDefs, diamond]
  op_lt := diamond_wellNested.op_lt
  block_lt := diamond_wellNested.block_lt
  consistent := by
    refine ⟨?_, ?_, ?_, ?_⟩
    · rintro ⟨_ | _ | _ | _ | _ | _ | i⟩ r hr <;> simp [diamond_refsOf] at hr
      · rcases hr with rfl | rfl
        · exact ⟨[(⟨1⟩, 0)], rfl, by simp⟩
        · exact ⟨[(⟨1⟩, 1)], rfl, by simp⟩
      · rcases hr with rfl | rfl
        · exact ⟨[(⟨2⟩, 2)], by decide, by simp⟩
        · exact ⟨[(⟨2⟩, 3), (⟨3⟩, 5)], rfl, by simp⟩
      · rcases hr with rfl | rfl
        · exact ⟨[(⟨3⟩, 4)], by decide, by simp⟩
        · exact ⟨[(⟨2⟩, 3), (⟨3⟩, 5)], rfl, by simp⟩
      · subst hr
        exact ⟨[(⟨4⟩, 6)], by decide, by simp⟩
    · intro d us hus u hu
      rcases diamond_usePairs hus with hmem | rfl
      · fin_cases hmem <;> simp at hu <;> (try rcases hu with rfl | rfl) <;>
          simp [diamond_refsOf, *]
      · exact absurd hu List.not_mem_nil
    · rintro ⟨_ | _ | _ | _ | _ | _ | i⟩ <;> simp [diamond_refsOf]
    · intro d us hus
      rcases diamond_usePairs hus with hmem | rfl
      · fin_cases hmem <;> simp
      · exact List.nodup_nil
  ids_lt := by
    intro op r hr
    show r.1 < 7
    rcases op with ⟨_ | _ | _ | _ | _ | _ | i⟩ <;> simp [diamond_refsOf] at hr
    · rcases hr with rfl | rfl <;> simp
    · rcases hr with rfl | rfl <;> simp
    · rcases hr with rfl | rfl <;> simp
    · subst hr
      simp

end Context

namespace Sccp

/-- In `diamond`, the two values are different constants, and the use of the argument is asked
    to fold. -/
def diamondOps : OpInterfaces Nat where
  branch op :=
    if op = ⟨1⟩ then some ⟨fun _ => some (0, 0), none⟩
    else if op = ⟨2⟩ ∨ op = ⟨3⟩ then some ⟨fun _ => some (0, 1), none⟩ else none
  fold op :=
    if op = ⟨0⟩ then some (fun _ => [some 5, some 7])
    else if op = ⟨4⟩ then some (fun _ => []) else none
  regionBranch _ := none

theorem diamond_ready : Ready Context.diamond diamondOps ⟨5⟩ where
  nested := Context.diamond_wellNested
  defUse := Context.diamond_defUse
  succs := by
    rintro ⟨_ | _ | _ | _ | _ | _ | i⟩ o ho block hblock region hregion <;>
      simp [Context.diamond] at ho <;> subst ho <;>
      simp [Operation.successorDefs] at hblock
    · rcases hblock with rfl | rfl <;> exact hregion
    · subst hblock
      exact hregion
    · subst hblock
      exact hregion
  verified op regionBranch h := by cases h
  operands val hval := absurd hval List.not_mem_nil

theorem diamond_monotoneFolds : MonotoneFolds diamondOps where
  fold op checkFold h attrs attrs' _ := by
    unfold diamondOps at h
    simp only at h
    by_cases hzero : op = ⟨0⟩
    · rw [if_pos hzero] at h
      obtain rfl := Option.some.inj h
      exact .cons (Or.inr rfl) (.cons (Or.inr rfl) .nil)
    · by_cases hfour : op = ⟨4⟩
      · rw [if_neg hzero, if_pos hfour] at h
        obtain rfl := Option.some.inj h
        exact List.Forall₂.nil
      · rw [if_neg hzero, if_neg hfour] at h
        cases h
  branch op branchOp checkFold h hcheck := by
    unfold diamondOps at h
    simp only at h
    by_cases hone : op = ⟨1⟩
    · rw [if_pos hone] at h
      obtain rfl := Option.some.inj h
      cases hcheck
    · by_cases hpass : op = ⟨2⟩ ∨ op = ⟨3⟩
      · rw [if_neg hone, if_pos hpass] at h
        obtain rfl := Option.some.inj h
        cases hcheck
      · rw [if_neg hone, if_neg hpass] at h
        cases h
  regionBranch _ _ _ h := by cases h

theorem diamond_ssaWithin : SsaWithin Context.diamond ⟨5⟩ := by
  have hregions : ∀ block region, Context.diamond.blockParentRegion block = some region →
      Context.diamond.hasSsaDominance region = some true := by
    rintro ⟨_ | _ | _ | _ | i⟩ region h <;> cases h <;> rfl
  intro val _ region h
  obtain ⟨block, _, hblock⟩ := Option.bind_eq_some_iff.mp h
  exact hregions block region hblock

/-- Visits of the given operations one after the other, each taken from the worklist. -/
def visitAll [DecidableEq A] (ctx : Context) (ifaces : OpInterfaces A) :
    List OpPtr → SccpState A → Option (SccpState A)
  | [], st => some st
  | op :: ops, st =>
      if op ∈ st.opWorklist then do visitAll ctx ifaces ops (← visit ctx ifaces op st) else none

theorem visitAll_run {A : Type} [DecidableEq A] {ctx : Context} {ifaces : OpInterfaces A}
    {ops : List OpPtr} {st F : SccpState A} (h : visitAll ctx ifaces ops st = some F) :
    ReflTransGen (Step ctx ifaces) st F := by
  induction ops generalizing st with
  | nil =>
      obtain rfl := Option.some.inj h
      exact .refl
  | cons op ops ih =>
      unfold visitAll at h
      by_cases hop : op ∈ st.opWorklist
      · rw [if_pos hop] at h
        obtain ⟨st', hvisit, h⟩ := Option.bind_eq_some_iff.mp h
        exact .head ⟨op, hop, hvisit⟩ (ih h)
      · rw [if_neg hop] at h
        cases h

/-- Both branches wait in the worklist together: one run takes the second of them after the use
    of the argument, the other one takes it first. -/
theorem diamond_order_independent : ∃ st F G : SccpState Nat,
    visitAll Context.diamond diamondOps [⟨0⟩, ⟨1⟩, ⟨2⟩, ⟨4⟩, ⟨3⟩, ⟨4⟩] st = some F ∧
    visitAll Context.diamond diamondOps [⟨0⟩, ⟨1⟩, ⟨3⟩, ⟨2⟩, ⟨4⟩] st = some G ∧
    F.getValState = G.getValState ∧ (∀ op, op ∈ F.reachableOps ↔ op ∈ G.reachableOps) ∧
      collect Context.diamond diamondOps F = collect Context.diamond diamondOps G := by
  have hruns : ((SccpState.new (A := Nat) Context.diamond ⟨5⟩).bind (fun st =>
      (visitAll Context.diamond diamondOps [⟨0⟩, ⟨1⟩, ⟨2⟩, ⟨4⟩, ⟨3⟩, ⟨4⟩] st).bind (fun F =>
        (visitAll Context.diamond diamondOps [⟨0⟩, ⟨1⟩, ⟨3⟩, ⟨2⟩, ⟨4⟩] st).map (fun G =>
          decide (F.opWorklist = [] ∧ G.opWorklist = []))))) = some true := by decide +kernel
  obtain ⟨st, hnew, hruns⟩ := Option.bind_eq_some_iff.mp hruns
  obtain ⟨F, hF, hruns⟩ := Option.bind_eq_some_iff.mp hruns
  obtain ⟨G, hG, hdone⟩ := Option.map_eq_some_iff.mp hruns
  obtain ⟨hFdone, hGdone⟩ := of_decide_eq_true hdone
  exact ⟨st, F, G, hF, hG, analysis_order_independent diamond_ready diamond_monotoneFolds
    diamond_ssaWithin hnew (visitAll_run hF) hFdone (visitAll_run hG) hGdone⟩

end Sccp

end Pliron
