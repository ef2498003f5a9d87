/-
  Pliron.PassManager.Truthful

  Analyses are never stale, if leaf passes report truthfully what they did.
-/

import Pliron.PassManager.Run

namespace Pliron.PassManager

open Lib

variable {An Err L : Type} (env : Env An Err)

/-! ## Truthful results -/

/-- Every cached analysis is what a new manager computes on this IR. -/
def State.Fresh (s : State An L) : Prop := s.analyses.Fresh env.compute s.ctx

/-- This result tells the truth about a step between two states: the IR is as it was if it is
    reported unchanged, and the analyses that the result lets one retain are right. -/
structure Truthful (before : State An L) (res : PassResult) (after : State An L) : Prop where
  ctx_eq : res.irChanged = .unchanged → after.ctx = before.ctx
  computed : ∀ ty op analysis, after.analyses.tryGetAnalysis ty op = some analysis →
    res.irChanged = .unchanged ∨ ty ∈ res.preservedAnalyses →
      AnalysisManager.ComputedAfresh env.compute after.ctx ty op (.ok analysis)

/-- A leaf pass whose results are truthful when it starts with fresh analyses. -/
def TruthfulLeaf (run : OpPtr → State An L → Except (Failure Err) PassResult × State An L) : Prop :=
  ∀ op s res s', s.Fresh env → run op s = (.ok res, s') → Truthful env s res s'

mutual

/-- The code of the leaves of a tree of passes. -/
def Pass.leaves : Pass An Err L →
    List (OpPtr → State An L → Except (Failure Err) PassResult × State An L)
  | .leaf _ run => [run]
  | .passes passes => leavesOfAll passes
  | .nestedOpsPass pass => pass.leaves
  | .guardedPass _ pass => pass.leaves

def leavesOfAll : List (Pass An Err L) →
    List (OpPtr → State An L → Except (Failure Err) PassResult × State An L)
  | [] => []
  | pass :: passes => pass.leaves ++ leavesOfAll passes

end

variable {env}

theorem Truthful.refl {s : State An L} (h : s.Fresh env) : Truthful env s {} s where
  ctx_eq := fun _ => rfl
  computed := fun ty op analysis hget _ => h ty op analysis hget

/-- Retaining what a truthful result preserves leaves fresh analyses. -/
theorem Truthful.fresh_retainPreserved {before after : State An L} {res : PassResult}
    (h : Truthful env before res after) :
    (after.analyses.retainPreserved res).Fresh env.compute after.ctx := by
  intro ty op analysis hget
  rw [AnalysisManager.tryGetAnalysis_retainPreserved] at hget
  split at hget
  · next hpreserved => exact h.computed ty op analysis hget hpreserved
  · exact nomatch hget

/-! ## Running one pass -/

variable (env)

/-- All noted moments have fresh analyses. -/
def Noted (m : Machine An L) : Prop := ∀ s ∈ m.moments, s.Fresh env

/-- A pass starts in this state. -/
def Starts (s : State An L) (m : Machine An L) : Prop := m.state = s ∧ s.Fresh env ∧ Noted env m

/-- A pass that started in this state ends with this result. -/
def Ends (s : State An L) (res : PassResult) (m : Machine An L) : Prop :=
  Truthful env s res m.state ∧ Noted env m

/-- The specification of a pass. -/
def Sound (run : RunM An Err L PassResult) : Prop :=
  ∀ s, Triple (Starts env s) run (Ends env s) (Noted env)

variable {env}

theorem liftCheck_spec {check : Except (Failure Err) Unit} {P E : Machine An L → Prop}
    (hE : ∀ m, P m → E m) : Triple P (liftCheck check) (fun _ => P) E := by
  unfold liftCheck
  split
  · exact Triple.pure fun m hm => hm
  · exact Triple.throw hE

theorem printHook_spec {op : OpPtr} {enabled : Bool} {config : PMConfig} {filename : String}
    {P E : Machine An L → Prop} (hE : ∀ m, P m → E m) :
    Triple P (runPass.printHook env op enabled config filename) (fun _ => P) E := by
  apply Triple.bind (Triple.get (Q := fun _ m => P m) fun m hm => hm)
  intro m
  split
  · exact liftCheck_spec hE
  · exact Triple.pure fun m hm => hm

theorem verifyHook_spec {op : OpPtr} {enabled : Bool} {P E : Machine An L → Prop}
    (hE : ∀ m, P m → E m) :
    Triple P (runPass.verifyHook env op enabled) (fun _ => P) E := by
  apply Triple.bind (Triple.get (Q := fun _ m => P m) fun m hm => hm)
  intro m
  split
  · exact liftCheck_spec hE
  · exact Triple.pure fun m hm => hm

theorem noteMoment_spec {isPassManager : Bool} {s : State An L} :
    Triple (Starts env s) (runPass.noteMoment isPassManager : RunM An Err L Unit)
      (fun _ => Starts env s) (Noted env) := by
  apply Triple.modify
  rintro m ⟨hstate, hfresh, hnoted⟩
  split
  · exact ⟨hstate, hfresh, hnoted⟩
  · refine ⟨hstate, hfresh, ?_⟩
    intro t ht
    rcases List.mem_append.mp ht with ht | ht
    · exact hnoted t ht
    · rw [List.mem_singleton.mp ht, hstate]
      exact hfresh

/-- Counting a run leaves the IR and the analyses alone. -/
theorem countRun_spec {isPassManager : Bool} {s : State An L} {result : Except Err PassResult} :
    Triple (fun m => (∀ res, result = .ok res → Truthful env s res m.state) ∧ Noted env m)
      (runPass.countRun isPassManager : RunM An Err L Unit)
      (fun _ m => (∀ res, result = .ok res → Truthful env s res m.state) ∧ Noted env m)
      (Noted env) := by
  apply Triple.modify
  rintro m ⟨htruthful, hnoted⟩
  split
  · exact ⟨htruthful, hnoted⟩
  · refine ⟨?_, hnoted⟩
    intro res hres
    obtain ⟨hctx, hcomputed⟩ := htruthful res hres
    exact ⟨hctx, hcomputed⟩

theorem attempt_spec {run : RunM An Err L PassResult} {s : State An L} (hrun : Sound env run) :
    Triple (Starts env s) (attempt run)
      (fun result m => (∀ res, result = .ok res → Truthful env s res m.state) ∧ Noted env m)
      (Noted env) := by
  apply Triple.bind (Triple.capture (hrun s))
  intro result
  cases result with
  | ok res =>
      apply Triple.pure
      rintro m ⟨htruthful, hnoted⟩
      refine ⟨?_, hnoted⟩
      intro res' hres
      obtain rfl := Except.ok.inj hres
      exact htruthful
  | error e =>
      cases e with
      | panic => exact Triple.throw fun m hm => hm
      | error err => exact Triple.pure fun m hm => ⟨nofun, hm⟩

/-- The hooks leave what a pass reports truthful. -/
theorem runPass_spec {name : String} {isPassManager : Bool} {op : OpPtr}
    {run : RunM An Err L PassResult} (hrun : Sound env run) :
    Sound env (runPass env name isPassManager op run) := by
  intro s
  have hstarts : ∀ m, Starts env s m → Noted env m := fun m hm => hm.2.2
  unfold runPass
  apply Triple.bind (Triple.get (Q := fun _ m => Starts env s m) fun m hm => hm)
  intro m₀
  apply Triple.bind (Triple.get (Q := fun _ m => Starts env s m) fun m hm => hm)
  intro m₁
  dsimp only
  split
  · apply Triple.pure
    rintro m ⟨rfl, hfresh, hnoted⟩
    exact ⟨.refl hfresh, hnoted⟩
  · apply Triple.bind (printHook_spec hstarts)
    intro _
    apply Triple.bind (verifyHook_spec hstarts)
    intro _
    apply Triple.bind noteMoment_spec
    intro _
    apply Triple.bind (attempt_spec hrun)
    intro result
    apply Triple.bind (printHook_spec fun m hm => hm.2)
    intro _
    apply Triple.bind (verifyHook_spec fun m hm => hm.2)
    intro _
    apply Triple.bind countRun_spec
    intro _
    cases result with
    | ok res => exact Triple.pure fun m hm => ⟨hm.1 res rfl, hm.2⟩
    | error err => exact Triple.throw fun m hm => hm.2

/-! ## Running a tree of passes -/

variable (env)

/-- Between two passes of a composite that started in a state: the analyses are fresh, and the IR
    has not changed if no pass has reported that. -/
def Between (s : State An L) (passRes : PassResult) (m : Machine An L) : Prop :=
  m.state.Fresh env ∧ Noted env m ∧ (passRes.irChanged = .unchanged → m.state.ctx = s.ctx)

variable {env}

theorem IRStatus.or_eq_unchanged_iff {a b : IRStatus} :
    a.or b = .unchanged ↔ a = .unchanged ∧ b = .unchanged := by
  cases a <;> cases b <;> simp [IRStatus.or]

theorem between_of_starts {s : State An L} (m : Machine An L) (h : Starts env s m) :
    Between env s {} m := by
  obtain ⟨rfl, hfresh, hnoted⟩ := h
  exact ⟨hfresh, hnoted, fun _ => rfl⟩

theorem Between.noted {s : State An L} {passRes : PassResult} {m : Machine An L}
    (h : Between env s passRes m) : Noted env m := h.2.1

/-- Invalidating leaves fresh analyses. -/
theorem invalidate_spec {s : State An L} {res : PassResult} :
    Triple (Ends env s res) (invalidate res : RunM An Err L Unit)
      (fun _ m => m.state.Fresh env ∧ Noted env m ∧
        (res.irChanged = .unchanged → m.state.ctx = s.ctx))
      (Noted env) := by
  apply Triple.modify
  rintro m ⟨htruthful, hnoted⟩
  exact ⟨htruthful.fresh_retainPreserved, hnoted, htruthful.ctx_eq⟩

/-- A pass in a composite: run it, join its result, invalidate. -/
theorem joinResult_spec {run : RunM An Err L PassResult} (hrun : Sound env run)
    {s : State An L} {passRes : PassResult} :
    Triple (Between env s passRes) (run >>= joinResult passRes) (Between env s) (Noted env) := by
  apply Triple.of_forall
  rintro m₀ ⟨hfresh, hnoted, hsame⟩
  have hstart : ∀ m, m = m₀ → Starts env m₀.state m := by
    rintro m rfl
    exact ⟨rfl, hfresh, hnoted⟩
  apply Triple.bind ((hrun m₀.state).conseq hstart (fun _ _ h => h) (fun _ h => h))
  intro res
  apply Triple.bind invalidate_spec
  intro _
  apply Triple.pure
  rintro m ⟨hfresh, hnoted, hctx⟩
  refine ⟨hfresh, hnoted, ?_⟩
  intro hor
  obtain ⟨hpass, hres⟩ := IRStatus.or_eq_unchanged_iff.mp hor
  rw [hctx hres, hsame hpass]

theorem deref_spec {β : Type} {read : Context → Option β} {P E : Machine An L → Prop}
    (hE : ∀ m, P m → E m) : Triple P (deref read : RunM An Err L β) (fun _ => P) E := by
  apply Triple.bind (Triple.get (Q := fun _ m => P m) fun m hm => hm)
  intro m
  split
  · exact Triple.pure fun m hm => hm
  · exact Triple.throw hE

variable (env) in
/-- A composite ends with fresh analyses, and reports just those that it has. -/
def EndsFresh (s : State An L) (res : PassResult) (m : Machine An L) : Prop :=
  Between env s res m ∧ ∀ ty, ty ∈ res.preservedAnalyses ↔
    ∃ op analysis, m.state.analyses.tryGetAnalysis ty op = some analysis

theorem reportRemaining_spec {s : State An L} {passRes : PassResult} :
    Triple (Between env s passRes) (reportRemaining passRes : RunM An Err L PassResult)
      (EndsFresh env s) (Noted env) := by
  apply Triple.bind (Triple.get (Q := fun m' m => m' = m ∧ Between env s passRes m)
    fun m hm => ⟨rfl, hm⟩)
  intro m'
  apply Triple.pure
  rintro m ⟨rfl, hbetween⟩
  refine ⟨hbetween, ?_⟩
  intro ty
  exact AnalysisManager.mem_listAnalyses

theorem EndsFresh.ends {s : State An L} {res : PassResult} {m : Machine An L}
    (h : EndsFresh env s res m) : Ends env s res m := by
  obtain ⟨⟨hfresh, hnoted, hctx⟩, -⟩ := h
  exact ⟨⟨hctx, fun ty op analysis hget _ => hfresh ty op analysis hget⟩, hnoted⟩

/-- A leaf pass does what it is trusted to do. -/
theorem leaf_spec {name : String}
    {run : OpPtr → State An L → Except (Failure Err) PassResult × State An L}
    (hrun : TruthfulLeaf env run) (op : OpPtr) : Sound env ((Pass.leaf name run).run env op) := by
  intro s
  rw [Pass.run]
  apply Triple.bind (Triple.get (Q := fun m' m => m' = m ∧ Starts env s m) fun m hm => ⟨rfl, hm⟩)
  intro m'
  cases hresult : run op m'.state with
  | mk result state =>
      have hset : Triple (fun m => m' = m ∧ Starts env s m)
          (set { m' with state := state } : RunM An Err L PUnit)
          (fun _ m => m.state = state ∧ Noted env m ∧ s.Fresh env ∧ m'.state = s)
          (Noted env) := by
        apply Triple.set
        rintro m ⟨rfl, hstate, hfresh, hnoted⟩
        exact ⟨rfl, hnoted, hfresh, hstate⟩
      apply Triple.bind hset
      intro _
      cases result with
      | ok res =>
          apply Triple.pure
          rintro m ⟨rfl, hnoted, hfresh, rfl⟩
          exact ⟨hrun op m'.state res m.state hfresh hresult, hnoted⟩
      | error e => exact Triple.throw fun m hm => hm.2.1

/-- Running passes one after the other. -/
theorem passes_spec {passes : List (Pass An Err L)} {op : OpPtr}
    (hpasses : ∀ s passRes, Triple (Between env s passRes) (runAll env passes op passRes)
      (Between env s) (Noted env)) (s : State An L) :
    Triple (Starts env s) ((Pass.passes passes).run env op) (EndsFresh env s) (Noted env) := by
  rw [Pass.run]
  apply Triple.bind ((hpasses s {}).conseq between_of_starts (fun _ _ h => h) (fun _ h => h))
  intro passRes
  exact reportRemaining_spec

/-- Running a pass on each nested operation. -/
theorem nestedOpsPass_spec {pass : Pass An Err L} (hpass : ∀ op, Sound env (pass.run env op))
    (op : OpPtr) (s : State An L) :
    Triple (Starts env s) ((Pass.nestedOpsPass pass).run env op) (EndsFresh env s)
      (Noted env) := by
  have hnoted : ∀ passRes m, Between env s passRes m → Noted env m :=
    fun passRes m hm => hm.noted
  rw [Pass.run]
  apply Triple.bind (deref_spec fun m hm => hm.2.2)
  intro regions
  have hregions : Triple (Between env s {}) (regions.foldlM (fun passRes region => do
      let blocks ← deref (fun ctx => (ctx.regions region).map Region.blocks)
      blocks.foldlM (fun passRes block => do
        let ops ← deref (fun ctx => (ctx.basicBlocks block).map BasicBlock.ops)
        ops.foldlM (fun passRes nestedOp => do
          let res ← runPass env pass.name pass.isPassManager nestedOp (pass.run env nestedOp)
          joinResult passRes res) passRes) passRes) {}) (Between env s) (Noted env) := by
    apply Triple.foldlM
    intro passRes region _
    apply Triple.bind (deref_spec (hnoted passRes))
    intro blocks
    apply Triple.foldlM
    intro passRes block _
    apply Triple.bind (deref_spec (hnoted passRes))
    intro ops
    apply Triple.foldlM
    intro passRes nestedOp _
    exact joinResult_spec (runPass_spec (hpass nestedOp))
  apply Triple.bind (hregions.conseq between_of_starts (fun _ _ h => h) (fun _ h => h))
  intro passRes
  exact reportRemaining_spec

/-- Running a pass where the guard allows it. -/
theorem guardedPass_spec {isAllowed : OpPtr → Context → Bool} {pass : Pass An Err L} {op : OpPtr}
    (hpass : Sound env (pass.run env op)) :
    Sound env ((Pass.guardedPass isAllowed pass).run env op) := by
  intro s
  rw [Pass.run]
  apply Triple.bind (Triple.get (Q := fun _ m => Starts env s m) fun m hm => hm)
  intro m
  split
  · exact runPass_spec hpass s
  · apply Triple.pure
    rintro m ⟨rfl, hfresh, hnoted⟩
    exact ⟨.refl hfresh, hnoted⟩

/-- One pass of a list, then the others. -/
theorem runAll_cons_spec {pass : Pass An Err L} {passes : List (Pass An Err L)} {op : OpPtr}
    (hpass : Sound env (pass.run env op))
    (hpasses : ∀ s passRes, Triple (Between env s passRes) (runAll env passes op passRes)
      (Between env s) (Noted env)) (s : State An L) (passRes : PassResult) :
    Triple (Between env s passRes) (runAll env (pass :: passes) op passRes) (Between env s)
      (Noted env) := by
  rw [runAll, ← bind_assoc]
  exact Triple.bind (joinResult_spec (runPass_spec hpass)) (hpasses s)

mutual

/-- Every pass whose leaves are truthful is. -/
theorem run_spec : ∀ pass : Pass An Err L, (∀ run ∈ pass.leaves, TruthfulLeaf env run) →
    ∀ op, Sound env (pass.run env op)
  | .leaf _ _, hleaves, op => leaf_spec (hleaves _ List.mem_cons_self) op
  | .passes passes, hleaves, op => fun s =>
      (passes_spec (runAll_spec passes hleaves op) s).conseq (fun _ h => h)
        (fun _ _ h => h.ends) (fun _ h => h)
  | .nestedOpsPass pass, hleaves, op => fun s =>
      (nestedOpsPass_spec (run_spec pass hleaves) op s).conseq (fun _ h => h)
        (fun _ _ h => h.ends) (fun _ h => h)
  | .guardedPass _ pass, hleaves, op => guardedPass_spec (run_spec pass hleaves op)

theorem runAll_spec : ∀ passes : List (Pass An Err L),
    (∀ run ∈ leavesOfAll passes, TruthfulLeaf env run) → ∀ op s passRes,
      Triple (Between env s passRes) (runAll env passes op passRes) (Between env s) (Noted env)
  | [], _, _ => fun _ _ => Triple.pure fun _ hm => hm
  | pass :: passes, hleaves, op =>
      runAll_cons_spec
        (run_spec pass (fun run hrun => hleaves run (List.mem_append_left _ hrun)) op)
        (runAll_spec passes (fun run hrun => hleaves run (List.mem_append_right _ hrun)) op)

end

/-! ## No analysis is stale -/

variable (env)

/-- Whatever the manager hands out in this state is what a new manager computes on the IR. -/
def State.HandsOutFresh (s : State An L) : Prop :=
  (∀ ty op fuel result self,
    s.analyses.getAnalysis env.compute s.ctx fuel ty op = some (result, self) →
      AnalysisManager.ComputedAfresh env.compute s.ctx ty op result) ∧
  ∀ ty op analysis, s.analyses.tryGetAnalysis ty op = some analysis →
    AnalysisManager.ComputedAfresh env.compute s.ctx ty op (.ok analysis)

/-- Does this pass report the analyses that remain after its own invalidation? -/
def Pass.reportsRemaining : Pass An Err L → Bool
  | .passes _ | .nestedOpsPass _ => true
  | _ => false

variable {env}

theorem State.Fresh.handsOut {s : State An L} (h : s.Fresh env) : s.HandsOutFresh env :=
  ⟨fun _ _ _ _ _ hget => (AnalysisManager.Fresh.getAnalysis h hget).1, h⟩

theorem reportsRemaining_spec {pass : Pass An Err L} (h : pass.reportsRemaining = true)
    (hleaves : ∀ run ∈ pass.leaves, TruthfulLeaf env run) (op : OpPtr) (s : State An L) :
    Triple (Starts env s) (pass.run env op) (EndsFresh env s) (Noted env) := by
  cases pass with
  | passes passes => exact passes_spec (runAll_spec passes hleaves op) s
  | nestedOpsPass pass => exact nestedOpsPass_spec (run_spec pass hleaves) op s
  | leaf name run => exact nomatch h
  | guardedPass isAllowed pass => exact nomatch h

/-- Run a tree of passes whose leaves are truthful.  At every moment at which a leaf starts, the
    manager hands out what a new one computes.  The result is truthful, and by retaining what it
    preserves the manager does so again.  A sequence of passes, or a pass on nested operations, has
    invalidated already, and reports as preserved just those analyses that are still cached. -/
theorem analyses_not_stale (pass : Pass An Err L)
    (hleaves : ∀ run ∈ pass.leaves, TruthfulLeaf env run) (op : OpPtr) (s : State An L)
    (hfresh : s.Fresh env) :
    (∀ t ∈ ((pass.run env op).run.run ⟨s, []⟩).2.moments, t.HandsOutFresh env) ∧
      ∀ res m, (pass.run env op).run.run ⟨s, []⟩ = (.ok res, m) →
        Truthful env s res m.state ∧
        State.HandsOutFresh env
          { m.state with analyses := m.state.analyses.retainPreserved res } ∧
        (pass.reportsRemaining = true → m.state.HandsOutFresh env ∧
          ∀ ty, ty ∈ res.preservedAnalyses ↔
            ∃ op analysis, m.state.analyses.tryGetAnalysis ty op = some analysis) := by
  have hstarts : Starts env s ⟨s, []⟩ := ⟨rfl, hfresh, fun t ht => nomatch ht⟩
  have hrun := run_spec pass hleaves op s ⟨s, []⟩ hstarts
  constructor
  · intro t ht
    -- the moments are kept whether the run fails or not
    split at hrun
    · next heq =>
        rw [heq] at ht
        exact (hrun.2 t ht).handsOut
    · next heq =>
        rw [heq] at ht
        exact (hrun t ht).handsOut
  · intro res m hres
    rw [hres] at hrun
    refine ⟨hrun.1, State.Fresh.handsOut hrun.1.fresh_retainPreserved, ?_⟩
    intro hreports
    have hremaining := reportsRemaining_spec hreports hleaves op s ⟨s, []⟩ hstarts
    rw [hres] at hremaining
    exact ⟨hremaining.1.1.handsOut, hremaining.2⟩

/-! ## An analysis that is computed again -/

/-- One analysis, which tells how many values the context has numbered. -/
def countValues : Env Nat Unit where
  compute := fun _ _ ctx => .done (.ok ctx.valueCounter)
  verifyOperation := fun _ _ => .ok ()
  printOpToFile := fun _ _ _ _ => .ok ()

/-- Number another value; nothing is preserved. -/
def numberValue (_ : OpPtr) (s : State Nat Unit) :
    Except (Failure Unit) PassResult × State Nat Unit :=
  (.ok { irChanged := .changed },
    { s with ctx := { s.ctx with valueCounter := s.ctx.valueCounter + 1 } })

/-- Get the analysis; the IR is not changed. -/
def useCount (op : OpPtr) (s : State Nat Unit) :
    Except (Failure Unit) PassResult × State Nat Unit :=
  match s.analyses.getAnalysis countValues.compute s.ctx 1 0 op with
  | some (.ok _, analyses) => (.ok {}, { s with analyses := analyses })
  | _ => (.error .panic, s)

def numberThenUse : Pass Nat Unit Unit :=
  .passes [.leaf "number" numberValue, .leaf "use" useCount]

def startState : State Nat Unit := ⟨{}, {}, ()⟩

theorem truthfulLeaf_numberValue : TruthfulLeaf countValues numberValue := by
  intro op s res s' hfresh hrun
  obtain ⟨hres, rfl⟩ := Prod.mk.inj hrun
  obtain rfl := Except.ok.inj hres
  exact ⟨nofun, fun ty op analysis hget hpreserved => by simp at hpreserved⟩

theorem truthfulLeaf_useCount : TruthfulLeaf countValues useCount := by
  intro op s res s' hfresh hrun
  unfold useCount at hrun
  split at hrun
  · next analyses hget =>
      obtain ⟨hres, rfl⟩ := Prod.mk.inj hrun
      obtain rfl := Except.ok.inj hres
      have hfresh' := (AnalysisManager.Fresh.getAnalysis hfresh hget).2
      exact ⟨fun _ => rfl, fun ty op analysis hget _ => hfresh' ty op analysis hget⟩
  · exact nomatch (Prod.mk.inj hrun).1

theorem numberThenUse_leaves : ∀ run ∈ numberThenUse.leaves, TruthfulLeaf countValues run := by
  intro run hrun
  have hcases : run = numberValue ∨ run = useCount := by
    simpa [numberThenUse, Pass.leaves, leavesOfAll] using hrun
  obtain rfl | rfl := hcases
  · exact truthfulLeaf_numberValue
  · exact truthfulLeaf_useCount

/-- Two passes, of which the first changes what the second computes. -/
theorem analyses_not_stale_numberThenUse :
    startState.Fresh countValues ∧
      ∀ t ∈ ((numberThenUse.run countValues ⟨0⟩).run.run ⟨startState, []⟩).2.moments,
        t.HandsOutFresh countValues :=
  ⟨AnalysisManager.fresh_default, (analyses_not_stale numberThenUse numberThenUse_leaves ⟨0⟩
    startState AnalysisManager.fresh_default).1⟩

/-- The analyses that a result preserves are the same on both IRs. -/
def SameAnalyses (compute : Compute An Err) (before after : Context) (res : PassResult) : Prop :=
  ∀ ty, res.irChanged = .unchanged ∨ ty ∈ res.preservedAnalyses → ∀ op result,
    AnalysisManager.ComputedAfresh compute before ty op result ↔
      AnalysisManager.ComputedAfresh compute after ty op result

/-- Each pass of the sequence preserves only analyses that stay the same, but the sequence reports as
    preserved one that its first pass changes, since its second computes it again. -/
theorem numberThenUse_not_sameAnalyses :
    (∀ run ∈ numberThenUse.leaves, TruthfulLeaf countValues run ∧
      ∀ op s res s', run op s = (.ok res, s') →
        SameAnalyses countValues.compute s.ctx s'.ctx res) ∧
      ∃ res m, (numberThenUse.run countValues ⟨0⟩).run.run ⟨startState, []⟩ = (.ok res, m) ∧
        ¬ SameAnalyses countValues.compute startState.ctx m.state.ctx res := by
  constructor
  · intro run hrun
    refine ⟨numberThenUse_leaves run hrun, ?_⟩
    intro op s res s' hres
    have hcases : run = numberValue ∨ run = useCount := by
      simpa [numberThenUse, Pass.leaves, leavesOfAll] using hrun
    obtain rfl | rfl := hcases
    · obtain ⟨hok, -⟩ := Prod.mk.inj hres
      obtain rfl := Except.ok.inj hok
      intro ty hpreserved
      exact absurd hpreserved (by simp)
    · unfold useCount at hres
      split at hres
      · obtain ⟨-, rfl⟩ := Prod.mk.inj hres
        exact fun _ _ _ _ => Iff.rfl
      · exact nomatch (Prod.mk.inj hres).1
  · refine ⟨_, _, rfl, ?_⟩
    intro hsame
    have hbefore : AnalysisManager.ComputedAfresh countValues.compute startState.ctx 0 ⟨0⟩
        (.ok 0) := ⟨1, _, rfl⟩
    have hafter := (hsame 0 (Or.inr (List.mem_cons_self)) ⟨0⟩ (.ok 0)).mp hbefore
    have hone : AnalysisManager.ComputedAfresh countValues.compute
        { startState.ctx with valueCounter := 1 } 0 ⟨0⟩ (.ok 1) := ⟨1, _, rfl⟩
    exact absurd (hafter.unique hone) (by simp)

end Pliron.PassManager
