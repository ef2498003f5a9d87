/-
  Pliron.Opts.RegionBranchVerify

  The verifier of operations whose regions are entered and left along known edges.

  It goes through the edges once and remembers the receivers of the first edge into each
  successor.  What it accepts is what the analyses rely on: in particular sparse conditional
  constant propagation, whose assumptions on region edges follow from it.
-/

import Pliron.Opts.SccpFit

namespace Pliron

open Pliron.Lib

namespace RegionBranch

/-! ## The verifier -/

inductive RegionBranchOpInterfaceVerifyErr where
  /-- An error of `verify_region_edges_layout`. -/
  | layout (message : String)
  | foreignRegionSuccessor
  | invalidTerminator
  | operandNotAtBranchPoint
  | receiverNotRegionArgument
  | receiverNotResult
  | duplicateReceiver
  | flowTypeMismatch (operand receiver : TypeHandle)
  | readNotOpOrSourceOperand
  | receiverSetMismatch
deriving DecidableEq, Repr

/-- A control-flow edge, with the operands that flow on it, each paired with its receiver, and
    the operands that can be read on it. -/
structure RegionEdge where
  source : RegionBranchPoint
  target : RegionSuccessor
  flows : List (Use × Value)
  reads : List Use
deriving DecidableEq, Repr

/-- `none` is a panic. -/
abbrev VerifyM := ExceptT RegionBranchOpInterfaceVerifyErr Option

/-- What is looked up must be there. -/
def expect {α : Type} (o : Option α) : VerifyM α := ExceptT.lift o

/-- Fail unless the condition holds. -/
def require (p : Prop) [Decidable p] (err : RegionBranchOpInterfaceVerifyErr) : VerifyM Unit :=
  if p then pure () else throw err

/-- The receivers of an edge. -/
def RegionEdge.receivers (edge : RegionEdge) : List Value := edge.flows.map Prod.snd

/-- Are the two lists equal as sets? -/
def sameSet (a b : List Value) : Bool := a.all (fun v => v ∈ b) && b.all (fun v => v ∈ a)

/-- The receivers of the first edge into each successor. -/
abbrev SuccessorReceivers := List (RegionSuccessor × List Value)

/-- Compare the receivers with those of the first edge into the same successor. -/
def checkReceivers (seen : SuccessorReceivers) (edge : RegionEdge) : VerifyM SuccessorReceivers :=
  match seen.find? (fun entry => entry.1 = edge.target) with
  | some entry => do
      require (sameSet entry.2 edge.receivers = true) .receiverSetMismatch
      pure seen
  | none => pure (seen ++ [(edge.target, edge.receivers)])

variable (ctx : Context) (this : OpPtr)

/-- The type of a value. -/
def valueType (value : Value) : Option TypeHandle := (ctx.valueDef value).map ValueDef.ty

/-- The operation at the source of an edge. -/
def sourceOp : RegionBranchPoint → VerifyM OpPtr
  | .parent => pure this
  | .terminator terminator => do
      let o ← expect (ctx.operations terminator)
      require (ctx.parentOp terminator = some this ∧ o.concreteOp.isTerminator = true)
        .invalidTerminator
      pure terminator

/-- A region that an edge leads to is a region of the operation itself. -/
def checkTarget : RegionSuccessor → VerifyM Unit
  | .region region => do
      let r ← expect (ctx.regions region)
      require (r.parentOp = this) .foreignRegionSuccessor
  | .after => pure ()

/-- A receiver is an argument of the entry block of the target, or a result of the operation. -/
def checkReceiver (target : RegionSuccessor) (receiver : Value) : VerifyM Unit :=
  match target, receiver.definingEntity with
  | .region region, .block block =>
      require (ctx.entryBlock region = some block) .receiverNotRegionArgument
  | .region _, .op _ => throw .receiverNotRegionArgument
  | .after, .op op => require (op = this) .receiverNotResult
  | .after, .block _ => throw .receiverNotResult

/-- Check one flow of an edge, after others with the given receivers. -/
def checkFlow (source : OpPtr) (target : RegionSuccessor) (receivers : List Value)
    (flow : Use × Value) : VerifyM (List Value) := do
  require (flow.1.userOp = source) .operandNotAtBranchPoint
  checkReceiver ctx this target flow.2
  require (flow.2 ∉ receivers) .duplicateReceiver
  let operand ← expect ((ctx.useDef flow.1).bind (valueType ctx))
  let receiver ← expect (valueType ctx flow.2)
  require (operand = receiver) (.flowTypeMismatch operand receiver)
  pure (receivers ++ [flow.2])

def checkEdge (seen : SuccessorReceivers) (edge : RegionEdge) : VerifyM SuccessorReceivers := do
  let seen ← checkReceivers seen edge
  let source ← sourceOp ctx this edge.source
  require (∀ operand ∈ edge.reads, operand.userOp = this ∨ operand.userOp = source)
    .readNotOpOrSourceOperand
  checkTarget ctx this edge.target
  let _ ← edge.flows.foldlM (checkFlow ctx this source edge.target) []
  pure seen

/-- `verify` of the interface: `layout` is what `verify_region_edges_layout` returns, `edges` what
    `region_edges` does. -/
def verify (layout : VerifyM Unit) (edges : List RegionEdge) : VerifyM Unit := do
  layout
  let _ ← edges.foldlM (checkEdge ctx this) []
  pure ()

/-! ## What the parts accept -/

/-- The program returns `a`. -/
def Gives {α : Type} (m : VerifyM α) (a : α) : Prop := m.run = some (.ok a)

section Gives

variable {α β : Type} {a : α} {b : β}

theorem gives_pure {a' : α} : Gives (pure a) a' ↔ a = a' := by
  show some (Except.ok a) = some (Except.ok a') ↔ _
  rw [Option.some.injEq, Except.ok.injEq]

theorem gives_bind {m : VerifyM α} {f : α → VerifyM β} :
    Gives (m >>= f) b ↔ ∃ a, Gives m a ∧ Gives (f a) b := by
  have hrun : (m >>= f).run = m.run.bind (fun r => ExceptT.bindCont f r) := rfl
  unfold Gives
  rw [hrun, Option.bind_eq_some_iff]
  constructor
  · rintro ⟨r, hr, hrest⟩
    cases r with
    | ok a => exact ⟨a, hr, hrest⟩
    | error e => cases hrest
  · rintro ⟨a, ha, hrest⟩
    exact ⟨.ok a, ha, hrest⟩

theorem gives_throw {err : RegionBranchOpInterfaceVerifyErr} :
    ¬ Gives (throw err : VerifyM α) a := by
  intro h
  cases h

theorem gives_expect {o : Option α} : Gives (expect o) a ↔ o = some a := by
  show o.map Except.ok = some (Except.ok a) ↔ _
  cases o with
  | none => simp
  | some a' => simp

theorem gives_require {p : Prop} [Decidable p] {err : RegionBranchOpInterfaceVerifyErr} {u : Unit} :
    Gives (require p err) u ↔ p := by
  unfold require
  by_cases hp : p
  · rw [if_pos hp]
    exact ⟨fun _ => hp, fun _ => gives_pure.mpr rfl⟩
  · rw [if_neg hp]
    exact ⟨fun h => absurd h gives_throw, fun h => absurd h hp⟩

end Gives

variable {ctx this} {edge : RegionEdge} {edges : List RegionEdge}

theorem sameSet_iff {a b : List Value} : sameSet a b = true ↔ ∀ v, v ∈ a ↔ v ∈ b := by
  simp only [sameSet, Bool.and_eq_true, List.all_eq_true, decide_eq_true_eq]
  exact ⟨fun h v => ⟨h.1 v, h.2 v⟩, fun h => ⟨fun v => (h v).mp, fun v => (h v).mpr⟩⟩

/-- What a receiver of a target is. -/
def Receives (ctx : Context) (this : OpPtr) (receiver : Value) : RegionSuccessor → Prop
  | .region region =>
      ∃ block, receiver.definingEntity = .block block ∧ ctx.entryBlock region = some block
  | .after => receiver.definingEntity = .op this

theorem gives_checkReceiver {target : RegionSuccessor} {receiver : Value} {u : Unit} :
    Gives (checkReceiver ctx this target receiver) u ↔ Receives ctx this receiver target := by
  unfold checkReceiver Receives
  cases target with
  | region region =>
      cases hentity : receiver.definingEntity with
      | block block =>
          simp only [gives_require, DefiningEntity.block.injEq, exists_eq_left']
      | op op =>
          refine iff_of_false gives_throw ?_
          rintro ⟨block, heq, _⟩
          cases heq
  | after =>
      cases hentity : receiver.definingEntity with
      | block block =>
          refine iff_of_false gives_throw (fun heq => ?_)
          cases heq
      | op op => simp only [gives_require, DefiningEntity.op.injEq]

/-- What is asked of a flow on its own. -/
structure FlowVerified (ctx : Context) (this source : OpPtr) (target : RegionSuccessor)
    (flow : Use × Value) : Prop where
  user : flow.1.userOp = source
  receives : Receives ctx this flow.2 target
  type : ∃ ty, (ctx.useDef flow.1).bind (valueType ctx) = some ty ∧ valueType ctx flow.2 = some ty

theorem gives_checkFlow {source : OpPtr} {target : RegionSuccessor} {receivers out : List Value}
    {flow : Use × Value} : Gives (checkFlow ctx this source target receivers flow) out ↔
      FlowVerified ctx this source target flow ∧ flow.2 ∉ receivers ∧
        out = receivers ++ [flow.2] := by
  unfold checkFlow
  simp only [gives_bind, gives_require, gives_checkReceiver, gives_expect, gives_pure]
  constructor
  · rintro ⟨_, huser, _, hreceives, _, hnew, operand, hoperand, receiver, hreceiver, _, heq, hout⟩
    subst heq
    exact ⟨⟨huser, hreceives, operand, hoperand, hreceiver⟩, hnew, hout.symm⟩
  · rintro ⟨⟨huser, hreceives, ty, hoperand, hreceiver⟩, hnew, hout⟩
    exact ⟨(), huser, (), hreceives, (), hnew, ty, hoperand, ty, hreceiver, (), rfl, hout.symm⟩

/-- The flows are checked one after the other, and no receiver comes twice. -/
theorem gives_flows {source : OpPtr} {target : RegionSuccessor} {flows : List (Use × Value)}
    {receivers out : List Value} (hnodup : receivers.Nodup) :
    Gives (flows.foldlM (checkFlow ctx this source target) receivers) out ↔
      (∀ flow ∈ flows, FlowVerified ctx this source target flow) ∧
        (receivers ++ flows.map Prod.snd).Nodup ∧ out = receivers ++ flows.map Prod.snd := by
  induction flows generalizing receivers with
  | nil =>
      rw [List.foldlM_nil, gives_pure, List.map_nil, List.append_nil]
      exact ⟨fun h => ⟨fun _ hflow => absurd hflow List.not_mem_nil, hnodup, h.symm⟩,
        fun h => h.2.2.symm⟩
  | cons flow flows ih =>
      have hsplit : receivers ++ (flow :: flows).map Prod.snd =
          (receivers ++ [flow.2]) ++ flows.map Prod.snd := by
        rw [List.map_cons, List.append_assoc, List.singleton_append]
      rw [List.foldlM_cons, gives_bind, hsplit]
      constructor
      · rintro ⟨next, hflow, hrest⟩
        obtain ⟨hverified, hnew, rfl⟩ := gives_checkFlow.mp hflow
        have hnodup' : (receivers ++ [flow.2]).Nodup :=
          List.nodup_append'.mpr ⟨hnodup, List.nodup_singleton _,
            List.disjoint_singleton.mpr hnew⟩
        obtain ⟨hall, hrest⟩ := (ih hnodup').mp hrest
        exact ⟨List.forall_mem_cons.mpr ⟨hverified, hall⟩, hrest⟩
      · rintro ⟨hall, hnodup', hout⟩
        obtain ⟨hverified, hall⟩ := List.forall_mem_cons.mp hall
        have hfirst := (List.nodup_append'.mp hnodup').1
        have hnew : flow.2 ∉ receivers :=
          List.disjoint_singleton.mp (List.nodup_append'.mp hfirst).2.2
        exact ⟨_, gives_checkFlow.mpr ⟨hverified, hnew, rfl⟩,
          (ih hfirst).mpr ⟨hall, hnodup', hout⟩⟩

/-! ## Edges -/

/-- What is asked of an edge on its own. -/
structure EdgeVerified (ctx : Context) (this : OpPtr) (edge : RegionEdge) : Prop where
  source : ∀ terminator, edge.source = .terminator terminator →
    ctx.parentOp terminator = some this ∧
      ∃ o, ctx.operations terminator = some o ∧ o.concreteOp.isTerminator = true
  reads : ∀ operand ∈ edge.reads,
    operand.userOp = this ∨ operand.userOp = edge.source.op this
  target : ∀ region, edge.target = .region region → ctx.regionParentOp region = some this
  flows : ∀ flow ∈ edge.flows, FlowVerified ctx this (edge.source.op this) edge.target flow
  nodup : edge.receivers.Nodup

theorem gives_sourceOp {point : RegionBranchPoint} {source : OpPtr} :
    Gives (sourceOp ctx this point) source ↔ source = point.op this ∧
      ∀ terminator, point = .terminator terminator → ctx.parentOp terminator = some this ∧
        ∃ o, ctx.operations terminator = some o ∧ o.concreteOp.isTerminator = true := by
  unfold sourceOp
  cases point with
  | parent =>
      rw [gives_pure]
      exact ⟨fun h => ⟨h.symm, fun _ heq => by cases heq⟩, fun h => h.1.symm⟩
  | terminator t =>
      simp only [gives_bind, gives_expect, gives_require, gives_pure]
      constructor
      · rintro ⟨o, ho, _, ⟨hparent, hterm⟩, rfl⟩
        refine ⟨rfl, fun terminator heq => ?_⟩
        obtain rfl := RegionBranchPoint.terminator.inj heq
        exact ⟨hparent, o, ho, hterm⟩
      · rintro ⟨rfl, hterm⟩
        obtain ⟨hparent, o, ho, hterm⟩ := hterm _ rfl
        exact ⟨o, ho, (), ⟨hparent, hterm⟩, rfl⟩

theorem gives_checkTarget {target : RegionSuccessor} {u : Unit} :
    Gives (checkTarget ctx this target) u ↔
      ∀ region, target = .region region → ctx.regionParentOp region = some this := by
  unfold checkTarget
  cases target with
  | after => exact ⟨fun _ _ heq => (by cases heq), fun _ => gives_pure.mpr rfl⟩
  | region region =>
      simp only [gives_bind, gives_expect, gives_require]
      constructor
      · rintro ⟨r, hr, hparent⟩ region' heq
        obtain rfl := RegionSuccessor.region.inj heq
        simp [Context.regionParentOp, hr, hparent]
      · intro h
        have hparent := h region rfl
        obtain ⟨r, hr⟩ := Option.ne_none_iff_exists'.mp (Context.regions_ne_none hparent)
        refine ⟨r, hr, ?_⟩
        simpa [Context.regionParentOp, hr] using hparent

theorem gives_checkEdge {seen out : SuccessorReceivers} :
    Gives (checkEdge ctx this seen edge) out ↔
      Gives (checkReceivers seen edge) out ∧ EdgeVerified ctx this edge := by
  unfold checkEdge
  simp only [gives_bind, gives_require, gives_sourceOp, gives_checkTarget, gives_pure,
    gives_flows List.nodup_nil, List.nil_append]
  constructor
  · rintro ⟨next, hnext, source, ⟨rfl, hsource⟩, _, hreads, _, htarget, receivers,
      ⟨hflows, hnodup, _⟩, rfl⟩
    exact ⟨hnext, hsource, hreads, htarget, hflows, hnodup⟩
  · rintro ⟨hnext, h⟩
    exact ⟨out, hnext, _, ⟨rfl, h.source⟩, (), h.reads, (), h.target, edge.receivers,
      ⟨h.flows, h.nodup, rfl⟩, rfl⟩

/-! ## All edges -/

/-- Edges into the same successor have the same receivers. -/
def SameReceivers (edges : List RegionEdge) : Prop :=
  ∀ edge ∈ edges, ∀ edge' ∈ edges, edge.target = edge'.target →
    ∀ v, v ∈ edge.receivers ↔ v ∈ edge'.receivers

/-- What is remembered after some edges: the receivers of the first edge into each successor. -/
structure Remembers (done : List RegionEdge) (seen : SuccessorReceivers) : Prop where
  found : ∀ target entry, seen.find? (fun e => e.1 = target) = some entry →
    ∃ edge ∈ done, edge.target = target ∧ edge.receivers = entry.2
  missing : ∀ edge ∈ done, seen.find? (fun e => e.1 = edge.target) ≠ none

theorem remembers_nil : Remembers [] [] where
  found _ _ h := by cases h
  missing _ h := absurd h List.not_mem_nil

variable {done : List RegionEdge} {seen out : SuccessorReceivers}

theorem SameReceivers.mono (h : SameReceivers edges) (hsub : done ⊆ edges) :
    SameReceivers done :=
  fun edge hedge edge' hedge' => h edge (hsub hedge) edge' (hsub hedge')

theorem SameReceivers.push (h : SameReceivers done)
    (hnew : ∀ edge' ∈ done, edge'.target = edge.target →
      ∀ v, v ∈ edge'.receivers ↔ v ∈ edge.receivers) :
    SameReceivers (done ++ [edge]) := by
  intro e he e' he' htarget v
  rcases List.mem_append.mp he with hdone | hlast
  · rcases List.mem_append.mp he' with hdone' | hlast'
    · exact h e hdone e' hdone' htarget v
    · obtain rfl := List.mem_singleton.mp hlast'
      exact hnew e hdone htarget v
  · obtain rfl := List.mem_singleton.mp hlast
    rcases List.mem_append.mp he' with hdone' | hlast'
    · exact (hnew e' hdone' htarget.symm v).symm
    · obtain rfl := List.mem_singleton.mp hlast'
      exact Iff.rfl

theorem gives_checkReceivers : Gives (checkReceivers seen edge) out ↔
    (∃ entry, seen.find? (fun e => e.1 = edge.target) = some entry ∧
      (∀ v, v ∈ entry.2 ↔ v ∈ edge.receivers) ∧ out = seen) ∨
    (seen.find? (fun e => e.1 = edge.target) = none ∧
      out = seen ++ [(edge.target, edge.receivers)]) := by
  unfold checkReceivers
  cases hfind : seen.find? (fun e => e.1 = edge.target) with
  | some entry =>
      simp only [gives_bind, gives_require, gives_pure, sameSet_iff]
      constructor
      · rintro ⟨_, hset, hout⟩
        exact Or.inl ⟨entry, rfl, hset, hout.symm⟩
      · rintro (⟨entry', heq, hset, hout⟩ | ⟨hnone, _⟩)
        · obtain rfl := Option.some.inj heq
          exact ⟨(), hset, hout.symm⟩
        · cases hnone
  | none =>
      rw [gives_pure]
      constructor
      · intro hout
        exact Or.inr ⟨rfl, hout.symm⟩
      · rintro (⟨_, heq, _⟩ | ⟨_, hout⟩)
        · cases heq
        · exact hout.symm

theorem Remembers.checkReceivers (hseen : Remembers done seen) (hsame : SameReceivers done)
    (h : Gives (RegionBranch.checkReceivers seen edge) out) :
    Remembers (done ++ [edge]) out ∧ SameReceivers (done ++ [edge]) := by
  rcases gives_checkReceivers.mp h with ⟨entry, hfind, hset, rfl⟩ | ⟨hnone, rfl⟩
  · obtain ⟨first, hfirst, htarget, hreceivers⟩ := hseen.found _ _ hfind
    rw [← hreceivers] at hset
    refine ⟨⟨fun target entry' hfind' => ?_, fun edge' hedge' => ?_⟩,
      hsame.push (fun edge' hedge' htarget' v => ?_)⟩
    · obtain ⟨first', hfirst', hrest⟩ := hseen.found _ _ hfind'
      exact ⟨first', List.mem_append_left _ hfirst', hrest⟩
    · rcases List.mem_append.mp hedge' with hdone | hlast
      · exact hseen.missing edge' hdone
      · obtain rfl := List.mem_singleton.mp hlast
        rw [hfind]
        exact Option.some_ne_none _
    · exact (hsame edge' hedge' first hfirst (htarget'.trans htarget.symm) v).trans (hset v)
  · refine ⟨⟨fun target entry' hfind' => ?_, fun edge' hedge' => ?_⟩,
      hsame.push (fun edge' hedge' htarget' _ => ?_)⟩
    · rw [List.find?_append] at hfind'
      rcases Option.or_eq_some_iff.mp hfind' with hold | ⟨_, hlast⟩
      · obtain ⟨first', hfirst', hrest⟩ := hseen.found _ _ hold
        exact ⟨first', List.mem_append_left _ hfirst', hrest⟩
      · obtain rfl := List.mem_singleton.mp (List.mem_of_find?_eq_some hlast)
        have htarget : edge.target = target := by simpa using List.find?_some hlast
        exact ⟨edge, List.mem_append_right _ (List.mem_singleton.mpr rfl), htarget, rfl⟩
    · rw [List.find?_append, ne_eq, Option.or_eq_none_iff]
      rintro ⟨hold, hlast⟩
      rcases List.mem_append.mp hedge' with hdone | hlast'
      · exact hseen.missing edge' hdone hold
      · obtain rfl := List.mem_singleton.mp hlast'
        simp at hlast
    · exact absurd (htarget' ▸ hnone) (hseen.missing edge' hedge')

/-- An edge with the receivers of the edges before it is accepted. -/
theorem Remembers.exists_gives (hseen : Remembers done seen)
    (hsame : SameReceivers (done ++ [edge])) :
    ∃ out, Gives (RegionBranch.checkReceivers seen edge) out := by
  cases hfind : seen.find? (fun e => e.1 = edge.target) with
  | none => exact ⟨_, gives_checkReceivers.mpr (Or.inr ⟨hfind, rfl⟩)⟩
  | some entry =>
      obtain ⟨first, hfirst, htarget, hreceivers⟩ := hseen.found _ _ hfind
      have hset : ∀ v, v ∈ entry.2 ↔ v ∈ edge.receivers := by
        rw [← hreceivers]
        exact hsame first (List.mem_append_left _ hfirst) edge
          (List.mem_append_right _ (List.mem_singleton.mpr rfl)) htarget
      exact ⟨_, gives_checkReceivers.mpr (Or.inl ⟨entry, hfind, hset, rfl⟩)⟩

/-- What a run over the remaining edges accepts. -/
theorem gives_edges (hseen : Remembers done seen) (hsame : SameReceivers done) :
    (∃ out, Gives (edges.foldlM (checkEdge ctx this) seen) out) ↔
      (∀ edge ∈ edges, EdgeVerified ctx this edge) ∧ SameReceivers (done ++ edges) := by
  induction edges generalizing done seen with
  | nil =>
      rw [List.append_nil]
      exact ⟨fun _ => ⟨fun _ hedge => absurd hedge List.not_mem_nil, hsame⟩,
        fun _ => ⟨seen, gives_pure.mpr rfl⟩⟩
  | cons edge edges ih =>
      have hsplit : done ++ edge :: edges = (done ++ [edge]) ++ edges := by
        rw [List.append_assoc, List.singleton_append]
      simp only [List.foldlM_cons, gives_bind]
      rw [hsplit]
      constructor
      · rintro ⟨out, next, hedge, hrest⟩
        obtain ⟨hnext, hverified⟩ := gives_checkEdge.mp hedge
        obtain ⟨hseen', hsame'⟩ := hseen.checkReceivers hsame hnext
        obtain ⟨hall, hsame''⟩ := (ih hseen' hsame').mp ⟨out, hrest⟩
        exact ⟨List.forall_mem_cons.mpr ⟨hverified, hall⟩, hsame''⟩
      · rintro ⟨hall, hsame''⟩
        obtain ⟨hverified, hall⟩ := List.forall_mem_cons.mp hall
        obtain ⟨next, hnext⟩ :=
          hseen.exists_gives (hsame''.mono (List.subset_append_left _ _))
        obtain ⟨hseen', hsame'⟩ := hseen.checkReceivers hsame hnext
        obtain ⟨out, hrest⟩ := (ih hseen' hsame').mpr ⟨hall, hsame''⟩
        exact ⟨out, next, gives_checkEdge.mpr ⟨hnext, hverified⟩, hrest⟩

/-- The verifier accepts an operation exactly if each edge is verified on its own, and edges into
    the same successor have the same receivers. -/
theorem verify_ok_iff {layout : VerifyM Unit} :
    Gives (verify ctx this layout edges) () ↔ Gives layout () ∧
      (∀ edge ∈ edges, EdgeVerified ctx this edge) ∧ SameReceivers edges := by
  have hnil : SameReceivers [] := fun _ hedge => absurd hedge List.not_mem_nil
  have hrun : (∃ out, Gives (edges.foldlM (checkEdge ctx this) []) out) ↔
      (∀ edge ∈ edges, EdgeVerified ctx this edge) ∧ SameReceivers ([] ++ edges) :=
    gives_edges remembers_nil hnil
  rw [List.nil_append] at hrun
  rw [← hrun]
  unfold verify
  simp only [gives_bind, gives_pure]
  constructor
  · rintro ⟨_, hlayout, out, hout, _⟩
    exact ⟨hlayout, out, hout⟩
  · rintro ⟨hlayout, out, hout⟩
    exact ⟨(), hlayout, out, hout, trivial⟩

/-- Operation 1 carries a value through its region: it starts with the result of operation 0, and
    operation 2 passes the value on. -/
def carryingLoop : Context where
  operations := fun op => match op.idx with
    | 0 => some { concreteOp := { opId := 0 }, results := [⟨⟨[⟨⟨1⟩, 0⟩]⟩, 0, 0⟩] }
    | 1 => some { concreteOp := { opId := 1 }, operands := [⟨0, ⟨0, .op ⟨0⟩⟩⟩],
                  results := [⟨⟨[]⟩, 1, 0⟩], regions := [⟨0⟩] }
    | 2 => some { concreteOp := { opId := 2, isTerminator := true },
                  operands := [⟨1, ⟨2, .block ⟨0⟩⟩⟩], parentBlock := some ⟨0⟩ }
    | _ => none
  basicBlocks := fun block => match block.idx with
    | 0 => some { ops := [⟨2⟩], args := [⟨⟨[⟨⟨2⟩, 1⟩]⟩, 2, 0⟩], parentRegion := some ⟨0⟩ }
    | _ => none
  regions := fun region => match region.idx with
    | 0 => some { parentOp := ⟨1⟩, blocks := [⟨0⟩] }
    | _ => none

/-- The region and the end of the loop are each reached from the operation and from the
    terminator, with the operand of either. -/
def carryingEdges : List RegionEdge :=
  [⟨.parent, .region ⟨0⟩, [(⟨⟨1⟩, 0⟩, ⟨2, .block ⟨0⟩⟩)], []⟩,
    ⟨.parent, .after, [(⟨⟨1⟩, 0⟩, ⟨1, .op ⟨1⟩⟩)], []⟩,
    ⟨.terminator ⟨2⟩, .region ⟨0⟩, [(⟨⟨2⟩, 1⟩, ⟨2, .block ⟨0⟩⟩)], []⟩,
    ⟨.terminator ⟨2⟩, .after, [(⟨⟨2⟩, 1⟩, ⟨1, .op ⟨1⟩⟩)], [⟨⟨1⟩, 0⟩]⟩]

/-- A value for the result is not one for the argument of the region. -/
example : (verify carryingLoop ⟨1⟩ (pure ())
    [⟨.parent, .region ⟨0⟩, [(⟨⟨1⟩, 0⟩, ⟨1, .op ⟨1⟩⟩)], []⟩]).run =
      some (.error .receiverNotRegionArgument) := rfl

/-- Every edge into the region has to give its argument a value. -/
example : (verify carryingLoop ⟨1⟩ (pure ())
    [⟨.parent, .region ⟨0⟩, [(⟨⟨1⟩, 0⟩, ⟨2, .block ⟨0⟩⟩)], []⟩,
      ⟨.terminator ⟨2⟩, .region ⟨0⟩, [], []⟩]).run =
      some (.error .receiverSetMismatch) := rfl

/-! ## What the analyses rely on -/

/-- The edge without the operands that are read on it. -/
def RegionEdge.flowEdge (edge : RegionEdge) : Sccp.RegionEdge where
  source := edge.source
  target := edge.target
  flows := edge.flows

theorem mem_entryArgs {receiver : Value} {region : RegionPtr} {block : BlockPtr}
    (hentity : receiver.definingEntity = .block block) (hentry : ctx.entryBlock region = some block)
    {ty : TypeHandle} (hty : valueType ctx receiver = some ty) :
    receiver ∈ ctx.entryArgs region := by
  obtain ⟨uid, entity⟩ := receiver
  obtain rfl : entity = .block block := hentity
  obtain ⟨arg, harg, _⟩ := Option.map_eq_some_iff.mp hty
  obtain ⟨b, hb, hfind⟩ := Option.bind_eq_some_iff.mp harg
  have huid : arg.valUid = uid := by simpa using List.find?_some hfind
  simp only [Context.entryArgs, hentry, hb, Option.bind_eq_bind, Option.bind_some,
    Option.map_some, Option.getD_some]
  exact List.mem_map.mpr ⟨arg, List.mem_of_find?_eq_some hfind, by rw [huid]⟩

theorem mem_opResults {receiver : Value} (hentity : receiver.definingEntity = .op this)
    {ty : TypeHandle} (hty : valueType ctx receiver = some ty) :
    receiver ∈ ctx.opResults this := by
  obtain ⟨uid, entity⟩ := receiver
  obtain rfl : entity = .op this := hentity
  obtain ⟨result, hresult, _⟩ := Option.map_eq_some_iff.mp hty
  obtain ⟨o, ho, hfind⟩ := Option.bind_eq_some_iff.mp hresult
  have huid : result.valUid = uid := by simpa using List.find?_some hfind
  simp only [Context.opResults, ho, Option.map_some, Option.getD_some]
  exact List.mem_map.mpr ⟨result, List.mem_of_find?_eq_some hfind, by rw [huid]⟩

theorem FlowVerified.mem_regionTarget {source root : OpPtr} {target : RegionSuccessor}
    {flow : Use × Value} (h : FlowVerified ctx this source target flow) :
    flow.2 ∈ (Sccp.regionTarget ctx root this target).2 := by
  obtain ⟨ty, _, hty⟩ := h.type
  have hreceives := h.receives
  cases target with
  | region region =>
      obtain ⟨block, hentity, hentry⟩ := hreceives
      exact mem_entryArgs hentity hentry hty
  | after => exact mem_opResults hreceives hty

section Analyses

variable {A : Type} {regionBranch : Sccp.RegionBranchOp A} {layout : VerifyM Unit}
  (h : Gives (verify ctx this layout edges) ())
  (hedges : regionBranch.regionEdges = edges.map RegionEdge.flowEdge)

include h hedges

/-- Edges start and end at the operation or in its regions. -/
theorem verified_of_verify : regionBranch.Verified ctx this := by
  obtain ⟨_, hall, _⟩ := verify_ok_iff.mp h
  refine ⟨fun edge hedge => ?_, fun edge hedge => ?_, fun edge hedge flow hflow => ?_⟩ <;>
    rw [hedges] at hedge <;> obtain ⟨edge, hmem, rfl⟩ := List.mem_map.mp hedge
  · exact (hall edge hmem).source
  · exact (hall edge hmem).target
  · exact ((hall edge hmem).flows flow hflow).user

/-- Flows go from operands that exist to the values that the target defines. -/
theorem flowsVerified_of_verify (root : OpPtr) : regionBranch.FlowsVerified ctx root this := by
  obtain ⟨_, hall, hsame⟩ := verify_ok_iff.mp h
  refine ⟨fun edge hedge flow hflow => ?_, fun edge hedge flow hflow => ?_,
    fun edge hedge edge' hedge' htarget flow hflow => ?_⟩ <;>
    rw [hedges] at hedge <;> obtain ⟨edge, hmem, rfl⟩ := List.mem_map.mp hedge
  · obtain ⟨ty, hty, _⟩ := ((hall edge hmem).flows flow hflow).type
    intro hnone
    rw [hnone] at hty
    cases hty
  · exact ((hall edge hmem).flows flow hflow).mem_regionTarget
  · rw [hedges] at hedge'
    obtain ⟨edge', hmem', rfl⟩ := List.mem_map.mp hedge'
    have hreceiver : flow.2 ∈ edge.receivers := List.mem_map.mpr ⟨flow, hflow, rfl⟩
    have hreceiver' := (hsame edge hmem edge' hmem' htarget flow.2).mp hreceiver
    exact List.mem_map.mp hreceiver'

/-- What the verifier accepts meets every assumption of the analysis on region edges. -/
theorem verify_supports_sccp (root : OpPtr) :
    regionBranch.Verified ctx this ∧ regionBranch.FlowsVerified ctx root this :=
  ⟨verified_of_verify h hedges, flowsVerified_of_verify h hedges root⟩

end Analyses

theorem carryingLoop_verify_supports_sccp :
    let regionBranch : Sccp.RegionBranchOp Nat :=
      ⟨carryingEdges.map RegionEdge.flowEdge, none⟩
    regionBranch.Verified carryingLoop ⟨1⟩ ∧
      regionBranch.FlowsVerified carryingLoop ⟨1⟩ ⟨1⟩ :=
  have h : Gives (verify carryingLoop ⟨1⟩ (pure ()) carryingEdges) () := rfl
  verify_supports_sccp h rfl ⟨1⟩

end RegionBranch

end Pliron
