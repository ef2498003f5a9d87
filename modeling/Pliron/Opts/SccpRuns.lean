/-
  Pliron.Opts.SccpRuns

  The runs of the analysis: from its initial state, in any order of visits, every run is
  finite, and where it ends it is stable.
-/

import Pliron.IRBuild.RewriterCorrect
import Pliron.Opts.SccpStable

namespace Pliron

open Pliron.Lib Relation Walkers

/-! ## Walks that keep a property -/

section Walks

variable {σ ε α : Type}

/-- What a check does to the state keeps a property. -/
def Preserves (P : σ → Prop) (m : Check σ ε α) : Prop :=
  ∀ s r s', P s → m s = some (r, s') → P s'

namespace Preserves

variable {P : σ → Prop} {m : Check σ ε α} {β : Type} {k : α → Check σ ε β}

theorem pure (a : α) : Preserves P (Pure.pure a : Check σ ε α) := by
  intro s r s' hs h
  obtain rfl : s = s' := congrArg Prod.snd (Option.some.inj h)
  exact hs

theorem bind (hm : Preserves P m) (hk : ∀ a, Preserves P (k a)) : Preserves P (m >>= k) := by
  intro s r s' hs h
  obtain ⟨⟨a, t⟩, hrun, hrest⟩ := Option.bind_eq_some_iff.mp h
  have ht := hm s a t hs hrun
  cases a with
  | ok a => exact hk a t r s' ht hrest
  | error e =>
      obtain rfl : t = s' := congrArg Prod.snd (Option.some.inj hrest)
      exact ht

theorem forM {γ : Type} {f : γ → Check σ ε PUnit} {l : List γ} (hf : ∀ a ∈ l, Preserves P (f a)) :
    Preserves P (l.forM f) := by
  induction l with
  | nil => exact pure ()
  | cons a l ih =>
      exact (hf a List.mem_cons_self).bind (fun _ => ih (fun b hb =>
        hf b (List.mem_cons_of_mem _ hb)))

end Preserves

theorem walkNode_preserves {ctx : Context} (hnest : ctx.WellNested) {P : σ → Prop} {root : IRNode}
    {callback : IRNode → Check σ ε WalkContinue}
    (hcallback : ∀ node, ctx.Inside root node → Preserves P (callback node)) (fuel : Nat) :
    ∀ node, ctx.Inside root node →
      Preserves P (walkNode ctx .preorderForward callback fuel node) := by
  induction fuel with
  | zero =>
      intro node _ s r s' _ h
      cases h
  | succ fuel ih =>
      intro node hnode
      have hchildren : Preserves P
          ((ctx.childNodes node).forM (walkNode ctx .preorderForward callback fuel)) := by
        refine Preserves.forM (fun child hchild => ih child ?_)
        exact ReflTransGen.head ((hnest.mem_childNodes node child).mp hchild) hnode
      have hcall := hcallback node hnode
      cases node <;>
        exact hcall.bind (fun reply => by
          cases reply with
          | skip => exact Preserves.pure ()
          | advance => exact hchildren)

end Walks

namespace Context

variable (ctx : Context)

def allOps : List OpPtr :=
  ((List.range ctx.nextOp).map OpPtr.mk).filter (fun op => (ctx.operations op).isSome)

/-- The values that operations and blocks define. -/
def allValues : List Value :=
  (List.range ctx.nextOp).flatMap (fun i =>
    ((ctx.operations ⟨i⟩).map (fun o => o.resultValues ⟨i⟩)).getD []) ++
  (List.range ctx.nextBlock).flatMap (fun i =>
    ((ctx.basicBlocks ⟨i⟩).map (fun b => b.argValues ⟨i⟩)).getD [])

variable {ctx}

theorem resultValues_mem_allValues {op : OpPtr} {o : Operation} {val : Value}
    (hlt : op.idx < ctx.nextOp) (ho : ctx.operations op = some o) (hval : val ∈ o.resultValues op) :
    val ∈ ctx.allValues := by
  refine List.mem_append_left _ (List.mem_flatMap.mpr ⟨op.idx, List.mem_range.mpr hlt, ?_⟩)
  rw [show (⟨op.idx⟩ : OpPtr) = op from rfl, ho]
  exact hval

theorem argValues_mem_allValues {block : BlockPtr} {b : BasicBlock} {val : Value}
    (hlt : block.idx < ctx.nextBlock) (hb : ctx.basicBlocks block = some b)
    (hval : val ∈ b.argValues block) : val ∈ ctx.allValues := by
  refine List.mem_append_right _ (List.mem_flatMap.mpr ⟨block.idx, List.mem_range.mpr hlt, ?_⟩)
  rw [show (⟨block.idx⟩ : BlockPtr) = block from rfl, hb]
  exact hval

end Context

namespace Sccp

open SccpState

variable {A : Type} [DecidableEq A] {ctx : Context} {ifaces : OpInterfaces A} {root op : OpPtr}
  {st st' : SccpState A}

/-! ## The initial state -/

/-- The map only knows values that are defined inside `root`. -/
def Local (ctx : Context) (root : OpPtr) (values : HMap Value (Constness A)) : Prop :=
  ∀ val, values val ≠ none → ctx.DefinedWithin root val ∧ val ∈ ctx.allValues

omit [DecidableEq A] in
theorem Local.insert {values : HMap Value (Constness A)} {vals : List Value}
    (h : Local ctx root values)
    (hvals : ∀ val ∈ vals, ctx.DefinedWithin root val ∧ val ∈ ctx.allValues) :
    Local ctx root
      (vals.foldl (fun values value => HMap.insert values value .undetermined) values) := by
  induction vals generalizing values with
  | nil => exact h
  | cons v vals ih =>
      refine ih (fun val hval => ?_) (fun val hval => hvals val (List.mem_cons_of_mem _ hval))
      by_cases hv : val = v
      · subst hv
        exact hvals val List.mem_cons_self
      · have hval' : values.insert v .undetermined val ≠ none := hval
        rw [HMap.insert_of_ne hv] at hval'
        exact h val hval'

omit [DecidableEq A] in
theorem initialValues_local (hnest : ctx.WellNested) {values : HMap Value (Constness A)}
    {r : Except Empty Unit}
    (h : SccpState.initialValues ctx root (fun _ => none) = some (r, values)) :
    Local ctx root values := by
  refine walkNode_preserves hnest (P := Local ctx root) ?_ _ (.operation root) ReflTransGen.refl
    (fun _ => none) r values (fun val hval => absurd rfl hval) h
  intro node hnode s r s' hs h
  cases node with
  | region region =>
      obtain rfl : s = s' := congrArg Prod.snd (Option.some.inj h)
      exact hs
  | operation op =>
      by_cases hop : op = root
      · simp only [if_pos hop] at h
        obtain rfl : s = s' := congrArg Prod.snd (Option.some.inj h)
        exact hs
      · simp only [if_neg hop] at h
        obtain ⟨o, ho, h⟩ := Option.bind_eq_some_iff.mp h
        obtain rfl : _ = s' := congrArg Prod.snd (Option.some.inj h)
        refine hs.insert (fun val hval => ⟨?_, ?_⟩)
        · obtain ⟨result, _, rfl⟩ := List.mem_map.mp hval
          exact ⟨hop, hnode⟩
        · have hsome : ctx.operations op ≠ none := by simp [ho]
          exact Context.resultValues_mem_allValues (hnest.op_lt op hsome) ho hval
  | basicBlock block =>
      obtain ⟨b, hb, h⟩ := Option.bind_eq_some_iff.mp h
      obtain rfl : _ = s' := congrArg Prod.snd (Option.some.inj h)
      refine hs.insert (fun val hval => ⟨?_, ?_⟩)
      · obtain ⟨arg, _, rfl⟩ := List.mem_map.mp hval
        exact hnode
      · have hsome : ctx.basicBlocks block ≠ none := by simp [hb]
        exact Context.argValues_mem_allValues (hnest.block_lt block hsome) hb hval

/-- What the analysis starts with: nothing is known to be reached yet. -/
theorem new_moves (hready : Ready ctx ifaces root) (h : SccpState.new (A := A) ctx root = some st) :
    ∃ values, Local ctx root values ∧
      Moves ctx (Inner ctx (SccpState.mk (A := A) root values [] []))
        { rootOp := root, valStates := values, reachableOps := [], opWorklist := [] } st := by
  obtain ⟨⟨r, values⟩, hvalues, hseed⟩ := Option.bind_eq_some_iff.mp h
  refine ⟨values, initialValues_local hready.nested hvalues, ?_⟩
  have hcovers : Covers ctx root (Inner ctx (SccpState.mk (A := A) root values [] [])) root :=
    @covers_root A ctx ifaces (SccpState.mk root values [] []) hready
  have hseeds : Transfer (A := A) ctx root (Inner ctx (SccpState.mk (A := A) root values [] [])) []
      (fun st => st.seedNestedRegions ctx root) := seedNestedRegions_transfer hcovers
  exact hseeds.moves _ st rfl hseed

/-- The values that are not defined inside `root` are no constants. -/
def OutsideUnknown (ctx : Context) (st : SccpState A) : Prop :=
  ∀ val, ¬ (ctx.DefinedWithin st.rootOp val ∧ val ∈ ctx.allValues) →
    st.getValState val = .notAConstant

theorem OutsideUnknown.descends (h : OutsideUnknown ctx st) (hdesc : Descends st st') :
    OutsideUnknown ctx st' := by
  intro val hval
  rw [hdesc.2] at hval
  have hle := hdesc.getValState_le val
  rw [h val hval] at hle
  exact Constness.le_bot_iff.mp hle

omit [DecidableEq A] in
theorem Local.unknown {values : HMap Value (Constness A)} (h : Local ctx root values) :
    OutsideUnknown ctx (SccpState.mk root values [] []) := by
  intro val hval
  have hnone : values val = none := by
    by_contra hsome
    exact hval (h val hsome)
  show (values val).getD .notAConstant = _
  rw [hnone]
  rfl

theorem new_settled (hready : Ready ctx ifaces root) (h : SccpState.new ctx root = some st) :
    st.rootOp = root ∧ Settled ctx ifaces st ∧ OutsideUnknown ctx st := by
  obtain ⟨values, hlocal, hmoves⟩ := new_moves hready h
  have hroot : st.rootOp = root := hmoves.rootOp
  have hunknown := hlocal.unknown.descends hmoves.descends
  have hnew : ∀ n ∈ st.reachableOps, n ∈ st.opWorklist :=
    fun n hn => hmoves.later.newly n hn List.not_mem_nil
  refine ⟨hroot, ⟨?_, ?_, ?_, ?_, ?_⟩, hunknown⟩
  · have hqueue : (SccpState.mk (A := A) root values [] []).store.QueueReached :=
      fun n hn => absurd hn List.not_mem_nil
    exact hqueue.moves hmoves.store
  · intro n hn
    rcases hmoves.reached hn with hn | hn
    · exact absurd hn List.not_mem_nil
    · exact hn.descends hmoves.descends
  · intro val hval
    rw [hroot] at hval
    refine hunknown val (fun hin => hready.operands val hval ?_)
    rw [← hroot]
    exact hin.1
  · exact fun n hn => Or.inl (hnew n hn)
  · exact fun n hn parent _ => Or.inl ⟨n, Or.inl rfl, hnew n hn⟩

/-! ## Every run -/

/-- What holds in each state of a run. -/
theorem run_settled (hready : Ready ctx ifaces root) (hroot : st.rootOp = root)
    (hs : Settled ctx ifaces st) (hrun : ReflTransGen (Step ctx ifaces) st st') :
    st'.rootOp = root ∧ Settled ctx ifaces st' ∧ Descends st st' := by
  induction hrun with
  | refl => exact ⟨hroot, hs, Descends.refl st⟩
  | @tail a b _ hstep ih =>
      obtain ⟨hroot', hs', hdesc⟩ := ih
      obtain ⟨op, hop, hvisit⟩ := hstep
      obtain ⟨hs'', hmoves⟩ := hs'.visit (hroot'.symm ▸ hready) hop hvisit
      have hdesc' : Descends a b := (popped_descends a op).trans hmoves.descends
      exact ⟨hdesc'.2.trans hroot', hs'', hdesc.trans hdesc'⟩

/-- A bound on the number of visits: each operation is visited once, and once more for each of
    its operands that is lowered, at most twice. -/
def visitBound (ctx : Context) : Nat :=
  ctx.allOps.length + 2 * (ctx.allValues.map (fun val => (ctx.valueUsers val).length)).sum

/-- The work that is left in a state. -/
def work (ctx : Context) (st : SccpState A) : Nat :=
  st.store.work ctx.valueUsers ctx.allOps ctx.allValues Constness.height

omit [DecidableEq A] in
theorem Inner.mem_allOps (hnest : ctx.WellNested) {n : OpPtr} (h : Inner ctx st n) :
    n ∈ ctx.allOps := by
  obtain ⟨⟨parent, hparent, _⟩, _⟩ := h
  obtain ⟨region, hregion, _⟩ := Option.bind_eq_some_iff.mp hparent
  obtain ⟨block, hblock, _⟩ := Option.bind_eq_some_iff.mp hregion
  have hop := Context.operations_ne_none hblock
  exact List.mem_filter.mpr ⟨List.mem_map.mpr ⟨n.idx, List.mem_range.mpr (hnest.op_lt n hop), rfl⟩,
    Option.isSome_iff_ne_none.mpr hop⟩

theorem OutsideUnknown.onlyVars (h : OutsideUnknown ctx st) :
    st.store.OnlyVars ctx.allValues := by
  intro val hval x
  show st.getValState val ≤ x
  rw [h val (fun hin => hval hin.2)]
  exact Constness.bot_le x

theorem work_step (hready : Ready ctx ifaces st.rootOp) (hs : Settled ctx ifaces st)
    (hunknown : OutsideUnknown ctx st) (hstep : Step ctx ifaces st st') :
    work ctx st' < work ctx st := by
  obtain ⟨op, hop, hvisit⟩ := hstep
  obtain ⟨_, hmoves⟩ := hs.visit hready hop hvisit
  exact Store.work_visit_lt (fun _ _ => Constness.height_lt) hunknown.onlyVars hop
    (hmoves.mono (fun n hn => hn.mem_allOps hready.nested)).store

omit [DecidableEq A] in
theorem work_le (values : HMap Value (Constness A)) :
    work ctx (SccpState.mk root values [] []) ≤ visitBound ctx := by
  have hnodes : (ctx.allOps.filter (fun n => decide (n ∉ ([] : List OpPtr)))).length ≤
      ctx.allOps.length := List.length_filter_le _ _
  have hheight : ∀ x : Constness A, x.height ≤ 2 := by
    intro x
    cases x <;> simp [Constness.height]
  have hvals : (ctx.allValues.map (fun val =>
      ((SccpState.mk root values [] []).getValState val).height *
        (ctx.valueUsers val).length)).sum ≤
      2 * (ctx.allValues.map (fun val => (ctx.valueUsers val).length)).sum := by
    rw [← List.sum_map_mul_left]
    exact List.sum_le_sum (fun val _ => Nat.mul_le_mul_right _ (hheight _))
  unfold work Store.work visitBound
  show 0 + _ + _ ≤ _
  rw [Nat.zero_add]
  exact Nat.add_le_add hnodes hvals

theorem work_new (hready : Ready ctx ifaces root) (h : SccpState.new (A := A) ctx root = some st) :
    work ctx st ≤ visitBound ctx := by
  obtain ⟨values, hlocal, hmoves⟩ := new_moves hready h
  have hmono := (hmoves.mono (fun n hn => hn.mem_allOps hready.nested)).store
  have hle := Store.work_moves_le (fun _ _ => Constness.height_lt) hlocal.unknown.onlyVars hmono
  exact hle.trans (work_le values)

/-- A run of `n` visits has done that much less work than was there. -/
theorem run_work (hready : Ready ctx ifaces root) (hroot : st.rootOp = root)
    (hs : Settled ctx ifaces st) (hunknown : OutsideUnknown ctx st) {run : Nat → SccpState A}
    (hstart : run 0 = st) {n : Nat} (hrun : ∀ i < n, Step ctx ifaces (run i) (run (i + 1))) :
    ReflTransGen (Step ctx ifaces) st (run n) ∧ work ctx (run n) + n ≤ work ctx st := by
  induction n with
  | zero =>
      rw [hstart]
      exact ⟨ReflTransGen.refl, Nat.le_refl _⟩
  | succ n ih =>
      obtain ⟨hreach, hle⟩ := ih (fun i hi => hrun i (Nat.lt_succ_of_lt hi))
      have hstep := hrun n (Nat.lt_succ_self n)
      obtain ⟨hroot', hs', hdesc⟩ := run_settled hready hroot hs hreach
      have hlt := work_step (hroot'.symm ▸ hready) hs' (hunknown.descends hdesc) hstep
      exact ⟨hreach.tail hstep, by omega⟩

/-- The analysis is one of the runs. -/
theorem analyze_run {fuel : Nat} (h : analyze ctx ifaces fuel st = some st') :
    ReflTransGen (Step ctx ifaces) st st' ∧ st'.opWorklist = [] := by
  induction fuel generalizing st with
  | zero => cases h
  | succ fuel ih =>
      unfold analyze at h
      cases hlast : st.opWorklist.getLast? with
      | none =>
          simp only [hlast] at h
          obtain rfl := Option.some.inj h
          exact ⟨ReflTransGen.refl, List.getLast?_eq_none_iff.mp hlast⟩
      | some op =>
          simp only [hlast] at h
          obtain ⟨s, hs, h⟩ := Option.bind_eq_some_iff.mp h
          obtain ⟨hrun, hdone⟩ := ih h
          have hmem : op ∈ st.opWorklist := List.mem_of_getLast? hlast
          exact ⟨ReflTransGen.head ⟨op, hmem, hs⟩ hrun, hdone⟩

/-- With enough fuel for the work that is left, the analysis ends, or a visit of its run panics. -/
theorem analyze_ends (hready : Ready ctx ifaces root) {fuel : Nat} (hroot : st.rootOp = root)
    (hs : Settled ctx ifaces st) (hunknown : OutsideUnknown ctx st) (hfuel : work ctx st < fuel) :
    (∃ F, analyze ctx ifaces fuel st = some F) ∨
      ∃ F op, ReflTransGen (Step ctx ifaces) st F ∧ op ∈ F.opWorklist ∧
        visit ctx ifaces op F = none := by
  induction fuel generalizing st with
  | zero => omega
  | succ fuel ih =>
      unfold analyze
      cases hlast : st.opWorklist.getLast? with
      | none => exact Or.inl ⟨st, rfl⟩
      | some op =>
          have hmem : op ∈ st.opWorklist := List.mem_of_getLast? hlast
          cases hvisit : visit ctx ifaces op st with
          | none => exact Or.inr ⟨st, op, ReflTransGen.refl, hmem, hvisit⟩
          | some s =>
              have hstep : Step ctx ifaces st s := ⟨op, hmem, hvisit⟩
              have hready' := hroot.symm ▸ hready
              have hlt := work_step hready' hs hunknown hstep
              obtain ⟨hs', hmoves⟩ := hs.visit hready' hmem hvisit
              have hdesc : Descends st s := (popped_descends st op).trans hmoves.descends
              have hrest := ih (hdesc.2.trans hroot) hs' (hunknown.descends hdesc) (by omega)
              rcases hrest with hfound | ⟨F, n, hrun, hn, hpanic⟩
              · left
                simpa only [Option.bind_eq_bind, hvisit, Option.bind_some] using hfound
              · exact Or.inr ⟨F, n, ReflTransGen.head hstep hrun, hn, hpanic⟩

/-- In whatever order operations are taken from the worklist, there is a bound on the number of
    visits that only depends on the program.  The analysis of the source ends within it, unless
    one of its visits panics. -/
theorem analysis_terminates (hready : Ready ctx ifaces root)
    (hnew : SccpState.new ctx root = some st) :
    (∀ (n : Nat) (run : Nat → SccpState A), run 0 = st →
      (∀ i < n, Step ctx ifaces (run i) (run (i + 1))) → n ≤ visitBound ctx) ∧
    ((∃ F, analyze ctx ifaces (visitBound ctx + 1) st = some F) ∨
      ∃ F op, ReflTransGen (Step ctx ifaces) st F ∧ op ∈ F.opWorklist ∧
        visit ctx ifaces op F = none) := by
  obtain ⟨hroot, hs, hunknown⟩ := new_settled hready hnew
  have hwork := work_new hready hnew
  constructor
  · intro n run hstart hrun
    obtain ⟨_, hle⟩ := run_work hready hroot hs hunknown hstart hrun
    omega
  · exact analyze_ends hready hroot hs hunknown (by omega)

/-! ## A constant that is used in another block -/

/-- In `crossBlock`, the definition folds to a constant, and the use is asked to fold. -/
def crossBlockOps : OpInterfaces Nat where
  branch op := if op = ⟨1⟩ then some ⟨fun _ => some (0, 0), none⟩ else none
  fold op :=
    if op = ⟨0⟩ then some (fun _ => [some 5]) else if op = ⟨2⟩ then some (fun _ => []) else none
  regionBranch _ := none

theorem crossBlock_ready : Ready Context.crossBlock crossBlockOps ⟨3⟩ where
  nested := Context.crossBlock_wellNested
  defUse := Context.crossBlock_defUse
  succs := by
    rintro ⟨_ | _ | _ | _ | i⟩ o ho block hblock region hregion <;>
      simp [Context.crossBlock] at ho <;> subst ho <;>
      simp [Operation.successorDefs] at hblock
    subst hblock
    exact hregion
  verified op regionBranch h := by cases h
  operands val hval := absurd hval List.not_mem_nil

theorem crossBlock_new : ∃ st : SccpState Nat, SccpState.new Context.crossBlock ⟨3⟩ = some st :=
  Option.isSome_iff_exists.mp (by decide)

theorem crossBlock_analysis_terminates : ∃ st : SccpState Nat,
    SccpState.new Context.crossBlock ⟨3⟩ = some st ∧
    ((∀ (n : Nat) (run : Nat → SccpState Nat), run 0 = st →
      (∀ i < n, Step Context.crossBlock crossBlockOps (run i) (run (i + 1))) →
        n ≤ visitBound Context.crossBlock) ∧
    ((∃ F, analyze Context.crossBlock crossBlockOps (visitBound Context.crossBlock + 1) st =
        some F) ∨
      ∃ F op, ReflTransGen (Step Context.crossBlock crossBlockOps) st F ∧ op ∈ F.opWorklist ∧
        visit Context.crossBlock crossBlockOps op F = none)) := by
  obtain ⟨st, hnew⟩ := crossBlock_new
  exact ⟨st, hnew, analysis_terminates crossBlock_ready hnew⟩

end Sccp

end Pliron
