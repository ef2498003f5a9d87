/-
  Pliron.IRBuild.MatchRewriteCorrect

  What the driver of match rewrites rewrites.

  The driver checks an operation when it collects or enqueues it, and not again when it takes it
  from the queue.  So it rewrites what still matches in every run in which no rewrite makes a
  waiting operation stop matching.  In all runs it never touches an erased operation, and in the
  end every operation that matched is rewritten or erased.
-/

import Pliron.IRBuild.RewriterSteps
import Pliron.Graph.MutableWalkersCorrect
import Pliron.IR.SymbolTable
import Pliron.IR.SymbolTableWalk

namespace Pliron

open Context Walkers Pliron.Lib TreeWalk Relation

variable {τ ε : Type}

/-! ## Runs -/

/-- A call of `rewrite`, with the operations that wait in the queue and all that were reported
    to be erased up to its end. -/
structure Rewriting where
  op : OpPtr
  waiting : List OpPtr
  before : PlacingRewriter
  after : PlacingRewriter
  erased : List OpPtr

/-- The rewrite makes no waiting operation stop matching, unless it erases it. -/
def Rewriting.KeepsMatches (m : MatchRewrite τ ε) (r : Rewriting) : Prop :=
  ∀ op ∈ r.waiting, m.isMatch r.before.ctx op = true → r.after.Alive op →
    m.isMatch r.after.ctx op = true

namespace MatchRewrite

variable (m : MatchRewrite τ ε) (order : RewriterOrder)

/-- A number of iterations, with the rewrites in them. -/
inductive Runs : MatchDriver τ → List Rewriting → MatchDriver τ → Prop
  | refl (d : MatchDriver τ) : Runs d [] d
  | skip {d d' : MatchDriver τ} {op : OpPtr} {toRewrite : List OpPtr} {rs : List Rewriting}
      (hqueue : d.toRewrite = op :: toRewrite) (herased : op ∈ d.erased)
      (hrest : Runs { d with toRewrite := toRewrite } rs d') : Runs d rs d'
  | rewrite {d d' : MatchDriver τ} {op : OpPtr} {toRewrite : List OpPtr} {own : τ}
      {rewriter : PlacingRewriter} {rs : List Rewriting}
      (hqueue : d.toRewrite = op :: toRewrite) (herased : op ∉ d.erased)
      (hcall : m.rewrite d.own (d.rewriter.setInsertionPoint (.set (.before op))) op =
        some (.ok (own, rewriter)))
      (hrest : Runs (m.processEvents order d own rewriter toRewrite) rs d') :
      Runs d (⟨op, toRewrite, d.rewriter, rewriter, d.erased ++ rewriter.erasedOps⟩ :: rs) d'

/-- The driver runs until the queue is empty. -/
theorem runs_of_drive {fuel : Nat} {d d' : MatchDriver τ}
    (h : m.drive order fuel d = some (.ok d')) :
    ∃ rs, Runs m order d rs d' ∧ d'.toRewrite = [] := by
  induction fuel generalizing d with
  | zero => exact absurd h nofun
  | succ fuel ih =>
      rw [drive] at h
      cases hqueue : d.toRewrite with
      | nil =>
          rw [hqueue] at h
          obtain rfl : d = d' := Except.ok.inj (Option.some.inj h)
          exact ⟨[], Runs.refl d, hqueue⟩
      | cons op toRewrite =>
          rw [hqueue] at h
          simp only at h
          by_cases herased : op ∈ d.erased
          · rw [if_pos herased] at h
            obtain ⟨rs, hruns, hend⟩ := ih h
            exact ⟨rs, Runs.skip hqueue herased hruns, hend⟩
          · rw [if_neg herased] at h
            obtain ⟨result, hcall, h⟩ := Option.bind_eq_some_iff.mp h
            cases result with
            | error e => exact absurd (Option.some.inj h) nofun
            | ok p =>
                obtain ⟨rs, hruns, hend⟩ := ih h
                exact ⟨_, Runs.rewrite hqueue herased hcall hruns, hend⟩

/-! ## The queue -/

variable {m order} {op : OpPtr} {ctx : Context} {erased : List OpPtr}

theorem mem_push {enque : EnqueueOrder} {toRewrite : List OpPtr} {x : OpPtr} :
    x ∈ enque.push toRewrite op ↔ x ∈ toRewrite ∨ x = op := by
  cases enque with
  | enqueFront => exact List.mem_cons.trans or_comm
  | enqueBack => rw [EnqueueOrder.push, List.mem_append, List.mem_singleton]

/-- What is in the queue after the events of a rewrite. -/
theorem mem_processEvents {events : List (Context × PlacementEvent)} {toRewrite : List OpPtr} :
    op ∈ events.foldl (m.processEvent order ctx erased) toRewrite ↔ op ∈ toRewrite ∨
      ((∃ c, (c, .operationInserted op) ∈ events) ∧ op ∉ erased ∧ m.isMatch ctx op = true) := by
  induction events generalizing toRewrite with
  | nil =>
      refine ⟨.inl, ?_⟩
      rintro (hop | ⟨⟨c, hc⟩, _⟩)
      · exact hop
      · exact absurd hc List.not_mem_nil
  | cons event events ih =>
      rw [List.foldl_cons, ih]
      have hstep : op ∈ m.processEvent order ctx erased toRewrite event ↔ op ∈ toRewrite ∨
          (event.2 = .operationInserted op ∧ op ∉ erased ∧ m.isMatch ctx op = true) := by
        obtain ⟨c, event⟩ := event
        cases event with
        | operationInserted newOp =>
            simp only [processEvent, PlacementEvent.operationInserted.injEq]
            by_cases hnew : newOp ∉ erased ∧ m.isMatch ctx newOp = true
            · rw [if_pos hnew, mem_push]
              refine or_congr_right ⟨?_, fun h => h.1.symm⟩
              rintro rfl
              exact ⟨rfl, hnew⟩
            · rw [if_neg hnew]
              refine ⟨.inl, ?_⟩
              rintro (hop | ⟨rfl, hop⟩)
              · exact hop
              · exact absurd hop hnew
        | blockInserted block => exact ⟨.inl, fun h => h.resolve_right (fun h => nomatch h.1)⟩
        | operationUnlinking x => exact ⟨.inl, fun h => h.resolve_right (fun h => nomatch h.1)⟩
        | blockUnlinking block => exact ⟨.inl, fun h => h.resolve_right (fun h => nomatch h.1)⟩
      rw [hstep, or_assoc]
      refine or_congr_right ?_
      constructor
      · rintro (⟨hevent, h⟩ | ⟨⟨c, hc⟩, h⟩)
        · exact ⟨⟨event.1, hevent ▸ List.mem_cons_self⟩, h⟩
        · exact ⟨⟨c, List.mem_cons_of_mem _ hc⟩, h⟩
      · rintro ⟨⟨c, hc⟩, h⟩
        rcases List.mem_cons.mp hc with rfl | hc
        · exact .inl ⟨rfl, h⟩
        · exact .inr ⟨⟨c, hc⟩, h⟩

/-! ## Collecting -/

section Collect

variable {root : OpPtr} {own : τ} {d : MatchDriver τ}
  {log : List (Visit IRNode (List OpPtr) Unit)} {s s' : List OpPtr}

/-- The walk collects the visited operations that match. -/
theorem collected_eq (hlinked : TreeWalk.Linked s log s') (hvisit : ∀ v ∈ log,
    m.walkerCallback ctx v.node v.before = (v.reply, v.after)) :
    s' = s ++ (nodes log).filterMap (fun node => node.asOp.filter (m.isMatch ctx)) := by
  induction log generalizing s with
  | nil =>
      obtain rfl : s = s' := hlinked
      rw [nodes, List.map_nil, List.filterMap_nil, List.append_nil]
  | cons v log ih =>
      obtain ⟨rfl, hlinked⟩ := hlinked
      have hafter : v.after = v.before ++
          [v.node].filterMap (fun node => node.asOp.filter (m.isMatch ctx)) := by
        have hsnd : (m.walkerCallback ctx v.node v.before).2 = v.after :=
          congrArg Prod.snd (hvisit v List.mem_cons_self)
        rw [← hsnd]
        obtain ⟨node, before, reply, after⟩ := v
        cases node with
        | operation op =>
            by_cases hop : m.isMatch ctx op = true
            · simp [walkerCallback, IRNode.asOp, Option.filter, hop]
            · simp [walkerCallback, IRNode.asOp, Option.filter, hop]
        | basicBlock block => exact (List.append_nil _).symm
        | region region => exact (List.append_nil _).symm
      have hcons : nodes (v :: log) = [v.node] ++ nodes log := rfl
      rw [ih hlinked (fun w hw => hvisit w (List.mem_cons_of_mem _ hw)), hafter, hcons,
        List.filterMap_append, List.append_assoc]

/-- The driver starts with the operations inside the root that match. -/
theorem mem_start (hnest : ctx.WellNested) (h : m.start order ctx own root = some d) :
    op ∈ d.toRewrite ↔
      ctx.Inside (.operation root) (.operation op) ∧ m.isMatch ctx op = true := by
  have hroot : Level (childrenOf order.collect ctx) 0 (.operation root) (.operation root) := rfl
  have hwalk : WalksTo (fun _ => childrenOf order.collect ctx) order.collect
      (m.walkerCallback ctx) (walkNode ctx order.collect (ofVisit (m.walkerCallback ctx))
        (ctx.nodeCount + 1) (.operation root)) [.operation root] [] :=
    walkNode_walksTo hnest hroot (by omega) []
  obtain ⟨log, e, collected, hrun, hwalk⟩ := hwalk
  rw [start, hrun] at h
  obtain rfl := Option.some.inj h
  have hadvance : ∀ v ∈ log, v.reply = .advance := fun v hv =>
    (congrArg Prod.fst (hwalk.visit_eq v hv)).symm
  have he : e = none := by
    cases e with
    | none => rfl
    | some b =>
        obtain ⟨front, v, rfl, hstop, _, _⟩ := hwalk.endsWith
        rw [hadvance v (List.mem_append_right _ (List.mem_singleton_self v))] at hstop
        exact absurd hstop nofun
  have hbelow : ∀ x, Below (childrenOf order.collect ctx) (.operation root) x ↔
      ctx.Inside (.operation root) x := fun x => below_kidsOf (s := (ctx, ())) hnest
  have hready : Ready (fun _ => childrenOf order.collect ctx) (.operation root) (fun _ => True)
      [.operation root] ([] : List OpPtr) := {
    start := trivial
    below := by
      intro n hn
      rw [List.mem_singleton.mp hn]
      exact Below.refl _ _
    apart := List.pairwise_singleton _ _ }
  have hout := (Rules.const (isTree_kidsOf (s := (ctx, ())) hnest)).outcome hwalk hready
  have hnodes : ∀ x, x ∈ nodes log ↔ ctx.Inside (.operation root) x := by
    intro x
    constructor
    · intro hx
      obtain ⟨v, hv, rfl⟩ := mem_nodes.mp hx
      exact (hbelow _).mp (hout.alive v hv).2
    · intro hx
      rcases hout.covered he x (.inl ⟨_, List.mem_singleton_self _, (hbelow x).mpr hx⟩)
        with hx | ⟨v, hv, hskip, _⟩
      · exact hx
      · rw [hadvance v hv] at hskip
        exact absurd hskip nofun
  rw [collected_eq hwalk.linked hwalk.visit_eq, List.nil_append, List.mem_filterMap]
  constructor
  · rintro ⟨node, hnode, hop⟩
    obtain ⟨hop, hmatch⟩ := Option.filter_eq_some_iff.mp hop
    cases node with
    | operation op' =>
        obtain rfl : op' = op := Option.some.inj hop
        exact ⟨(hnodes _).mp hnode, hmatch⟩
    | basicBlock block => exact absurd hop nofun
    | region region => exact absurd hop nofun
  · rintro ⟨hin, hmatch⟩
    exact ⟨_, (hnodes _).mpr hin, Option.filter_eq_some_iff.mpr ⟨rfl, hmatch⟩⟩

end Collect

/-! ## What holds between two iterations -/

/-- A waiting operation exists, or it was reported to be erased. -/
structure Waits (d : MatchDriver τ) : Prop where
  waiting : ∀ op ∈ d.toRewrite, op ∈ d.erased ∨ d.rewriter.Alive op
  dead : ∀ op ∈ d.erased, d.rewriter.Dead op
  erasures : d.rewriter.erasures = []
  placements : d.rewriter.placements = []
  bounded : d.rewriter.Bounded

variable {d d' : MatchDriver τ} {toRewrite : List OpPtr} {own : τ} {rewriter : PlacingRewriter}
  {rs : List Rewriting}

theorem Waits.skip (h : Waits d) (hqueue : d.toRewrite = op :: toRewrite) :
    Waits { d with toRewrite := toRewrite } where
  waiting x hx := h.waiting x (hqueue ▸ List.mem_cons_of_mem _ hx)
  dead := h.dead
  erasures := h.erasures
  placements := h.placements
  bounded := h.bounded

/-- What a rewrite does to the operations. -/
theorem follows_call {point : OpInsertionPoint}
    (hcall : m.rewrite d.own (d.rewriter.setInsertionPoint point) op = some (.ok (own, rewriter))) :
    PlacingRewriter.Follows d.rewriter rewriter :=
  (PlacingRewriter.RewriterStep.setInsertionPoint d.rewriter point).follows.trans
    (m.through hcall).follows

section Call

variable (h : Waits d) (hfollows : PlacingRewriter.Follows d.rewriter rewriter)

include h hfollows

/-- What the listener was told to be inserted exists, or was erased. -/
theorem alive_of_inserted (hop : rewriter.Inserted op)
    (hnot : op ∉ d.erased ++ rewriter.erasedOps) : rewriter.Alive op := by
  rcases hfollows.inserted op hop with ⟨c, hc⟩ | halive | hgone
  · rw [h.placements] at hc
    exact absurd hc List.not_mem_nil
  · exact halive
  · exact absurd (List.mem_append_right _ (PlacingRewriter.mem_erasedOps.mpr hgone)) hnot

theorem dead_of_erased (hop : op ∈ d.erased ++ rewriter.erasedOps) : rewriter.Dead op := by
  rcases List.mem_append.mp hop with hop | hop
  · exact hfollows.dead op (h.dead op hop)
  · rcases hfollows.buried op (PlacingRewriter.mem_erasedOps.mp hop) with ⟨c, hc⟩ | hdead
    · rw [h.erasures] at hc
      exact absurd hc List.not_mem_nil
    · exact hdead

theorem Waits.processEvents (hqueue : d.toRewrite = op :: toRewrite) :
    Waits (m.processEvents order d own rewriter toRewrite) where
  waiting x hx := by
    by_cases hgone : x ∈ d.erased ++ rewriter.erasedOps
    · exact .inl hgone
    · refine .inr ?_
      rcases mem_processEvents.mp hx with hx | ⟨hinserted, _, _⟩
      · rcases h.waiting x (hqueue ▸ List.mem_cons_of_mem _ hx) with hx | halive
        · exact absurd (List.mem_append_left _ hx) hgone
        · rcases hfollows.kept x halive with halive | hx
          · exact halive
          · exact absurd (List.mem_append_right _ (PlacingRewriter.mem_erasedOps.mpr hx)) hgone
      · have halive : rewriter.Alive x := alive_of_inserted h hfollows hinserted hgone
        exact halive
  dead x hx := by
    have hdead : rewriter.Dead x := dead_of_erased h hfollows hx
    exact hdead
  erasures := rfl
  placements := rfl
  bounded := hfollows.bounded h.bounded

end Call

/-! ## What holds of a run -/

/-- The driver rewrites what matched: `rs` are the rewrites of a run that began in `ctx`. -/
structure RewritesMatched (m : MatchRewrite τ ε) (ctx : Context) (root : OpPtr)
    (rs : List Rewriting) (d : MatchDriver τ) : Prop where
  /-- It rewrites and checks operations that exist. -/
  alive : ∀ r ∈ rs, r.before.Alive r.op
  checked : ∀ r ∈ rs, ∀ op, r.after.Inserted op → op ∉ r.erased → r.after.Alive op
  matching : ∀ r ∈ rs, m.isMatch r.before.ctx r.op = true
  /-- In the end it has rewritten what matched when it was collected, and what matched when it
      was inserted. -/
  collected : d.toRewrite = [] → ∀ op, d.rewriter.Alive op →
    ctx.Inside (.operation root) (.operation op) → m.isMatch ctx op = true → ∃ r ∈ rs, r.op = op
  inserted : d.toRewrite = [] → ∀ front r back, rs = front ++ r :: back → ∀ op,
    d.rewriter.Alive op → r.after.Inserted op → m.isMatch r.after.ctx op = true →
      ∃ r' ∈ back, r'.op = op

namespace Runs

/-- What is dead stays dead. -/
theorem dead (h : Runs m order d rs d') (hop : d.rewriter.Dead op) : d'.rewriter.Dead op := by
  induction h with
  | refl d => exact hop
  | skip _ _ _ ih => exact ih hop
  | rewrite _ _ hcall _ ih => exact ih ((follows_call hcall).dead op hop)

/-- What waits is rewritten in the end, if it is not erased. -/
theorem popped (h : Runs m order d rs d') (hd : Waits d) (hend : d'.toRewrite = [])
    (hop : op ∈ d.toRewrite) (halive : d'.rewriter.Alive op) : ∃ r ∈ rs, r.op = op := by
  induction h with
  | refl d =>
      rw [hend] at hop
      exact absurd hop List.not_mem_nil
  | @skip d d' x toRewrite rs hqueue herased hrest ih =>
      rw [hqueue] at hop
      rcases List.mem_cons.mp hop with rfl | hop
      · exact absurd halive (hrest.dead (hd.dead op herased)).1
      · exact ih (hd.skip hqueue) hend hop halive
  | @rewrite d d' x toRewrite own rewriter rs hqueue herased hcall hrest ih =>
      rw [hqueue] at hop
      rcases List.mem_cons.mp hop with rfl | hop
      · exact ⟨_, List.mem_cons_self, rfl⟩
      · have hwaits : Waits (m.processEvents order d own rewriter toRewrite) :=
          hd.processEvents (follows_call hcall) hqueue
        obtain ⟨r, hr, hrop⟩ := ih hwaits hend (mem_processEvents.mpr (.inl hop)) halive
        exact ⟨r, List.mem_cons_of_mem _ hr, hrop⟩

theorem alive (h : Runs m order d rs d') (hd : Waits d) : ∀ r ∈ rs, r.before.Alive r.op := by
  induction h with
  | refl d => exact fun r hr => absurd hr List.not_mem_nil
  | skip hqueue _ _ ih => exact ih (hd.skip hqueue)
  | @rewrite d d' x toRewrite own rewriter rs hqueue herased hcall hrest ih =>
      intro r hr
      rcases List.mem_cons.mp hr with rfl | hr
      · exact (hd.waiting x (hqueue ▸ List.mem_cons_self)).resolve_left herased
      · exact ih (hd.processEvents (follows_call hcall) hqueue) r hr

theorem checked (h : Runs m order d rs d') (hd : Waits d) :
    ∀ r ∈ rs, ∀ op, r.after.Inserted op → op ∉ r.erased → r.after.Alive op := by
  induction h with
  | refl d => exact fun r hr => absurd hr List.not_mem_nil
  | skip hqueue _ _ ih => exact ih (hd.skip hqueue)
  | @rewrite d d' x toRewrite own rewriter rs hqueue herased hcall hrest ih =>
      intro r hr op hinserted hnot
      rcases List.mem_cons.mp hr with rfl | hr
      · exact alive_of_inserted hd (follows_call hcall) hinserted hnot
      · exact ih (hd.processEvents (follows_call hcall) hqueue) r hr op hinserted hnot

theorem inserted (h : Runs m order d rs d') (hd : Waits d) (hend : d'.toRewrite = [])
    {front back : List Rewriting} {r : Rewriting} (hrs : rs = front ++ r :: back)
    (halive : d'.rewriter.Alive op) (hop : r.after.Inserted op)
    (hmatch : m.isMatch r.after.ctx op = true) : ∃ r' ∈ back, r'.op = op := by
  induction h generalizing front with
  | refl d => exact absurd hrs (List.ne_nil_of_mem (List.mem_append_right _ List.mem_cons_self)).symm
  | skip hqueue _ _ ih => exact ih (hd.skip hqueue) hend hrs halive
  | @rewrite d d' x toRewrite own rewriter rs hqueue herased hcall hrest ih =>
      have hfollows := follows_call hcall
      have hwaits : Waits (m.processEvents order d own rewriter toRewrite) :=
        hd.processEvents hfollows hqueue
      cases front with
      | nil =>
          obtain ⟨rfl, rfl⟩ := List.cons.inj hrs
          refine hrest.popped hwaits hend (mem_processEvents.mpr (.inr ⟨hop, ?_, hmatch⟩)) halive
          exact fun hgone => (hrest.dead (hwaits.dead op hgone)).1 halive
      | cons first front => exact ih hwaits hend (List.cons.inj hrs).2 halive

/-- The waiting operations match in all states of a run whose rewrites keep the matches. -/
theorem matching (h : Runs m order d rs d') (hd : Waits d)
    (hmatch : ∀ op ∈ d.toRewrite, d.rewriter.Alive op → m.isMatch d.rewriter.ctx op = true)
    (hkeeps : ∀ r ∈ rs, r.KeepsMatches m) : ∀ r ∈ rs, m.isMatch r.before.ctx r.op = true := by
  induction h with
  | refl d => exact fun r hr => absurd hr List.not_mem_nil
  | skip hqueue _ _ ih =>
      exact ih (hd.skip hqueue) (fun x hx => hmatch x (hqueue ▸ List.mem_cons_of_mem _ hx)) hkeeps
  | @rewrite d d' x toRewrite own rewriter rs hqueue herased hcall hrest ih =>
      have hfollows := follows_call hcall
      intro r hr
      rcases List.mem_cons.mp hr with rfl | hr
      · have hx : x ∈ d.toRewrite := hqueue ▸ List.mem_cons_self
        exact hmatch x hx ((hd.waiting x hx).resolve_left herased)
      · refine ih (hd.processEvents hfollows hqueue) (fun y hy halive => ?_)
          (fun r hr => hkeeps r (List.mem_cons_of_mem _ hr)) r hr
        rcases mem_processEvents.mp hy with hy | ⟨_, _, hy⟩
        · have hold : y ∈ d.toRewrite := hqueue ▸ List.mem_cons_of_mem _ hy
          have hbefore : d.rewriter.Alive y := by
            rcases hd.waiting y hold with hgone | hbefore
            · exact absurd halive (hfollows.dead y (hd.dead y hgone)).1
            · exact hbefore
          exact hkeeps _ List.mem_cons_self y hy (hmatch y hold hbefore) halive
        · exact hy

end Runs

theorem start_eq {root : OpPtr} (h : m.start order ctx own root = some d) :
    d.rewriter = { ctx := ctx } ∧ d.erased = [] := by
  obtain ⟨⟨_, toRewrite⟩, _, h⟩ := Option.bind_eq_some_iff.mp h
  obtain rfl := Option.some.inj h
  exact ⟨rfl, rfl⟩

theorem waits_start {root : OpPtr} (hnest : ctx.WellNested)
    (hroot : ctx.isAllocated (.operation root) = true)
    (h : m.start order ctx own root = some d) : Waits d := by
  obtain ⟨hrewriter, herased⟩ := start_eq h
  have hctx : d.rewriter.ctx = ctx := by rw [hrewriter]
  exact {
    waiting := by
      intro op hop
      refine .inr ?_
      rw [PlacingRewriter.Alive, hctx]
      rcases ReflTransGen.cases_head ((mem_start hnest h).mp hop).1 with heq | ⟨c, hc, _⟩
      · rw [heq]
        exact hroot
      · obtain ⟨block, hblock, _⟩ := Option.map_eq_some_iff.mp hc
        exact Option.isSome_iff_ne_none.mpr (operations_ne_none hblock)
    dead := by
      intro op hop
      rw [herased] at hop
      exact absurd hop List.not_mem_nil
    erasures := by rw [hrewriter]
    placements := by rw [hrewriter]
    bounded := by
      intro op hop
      rw [PlacingRewriter.Alive, hctx] at hop
      rw [hctx]
      exact hnest.op_lt op (Option.isSome_iff_ne_none.mp hop) }

/-- A run from the start in which no rewrite makes a waiting operation stop matching. -/
theorem Runs.rewritesMatched {root : OpPtr} (hnest : ctx.WellNested)
    (hroot : ctx.isAllocated (.operation root) = true)
    (hstart : m.start order ctx own root = some d) (hruns : Runs m order d rs d')
    (hkeeps : ∀ r ∈ rs, r.KeepsMatches m) : RewritesMatched m ctx root rs d' := by
  have hwaits := waits_start hnest hroot hstart
  have hctx : d.rewriter.ctx = ctx := by rw [(start_eq hstart).1]
  exact {
    alive := hruns.alive hwaits
    checked := hruns.checked hwaits
    matching := by
      refine hruns.matching hwaits (fun op hop _ => ?_) hkeeps
      rw [hctx]
      exact ((mem_start hnest hstart).mp hop).2
    collected := fun hend op halive hin hmatch =>
      hruns.popped hwaits hend ((mem_start hnest hstart).mpr ⟨hin, hmatch⟩) halive
    inserted := fun hend _ _ _ hrs _ halive hop hmatch =>
      hruns.inserted hwaits hend hrs halive hop hmatch }

/-- `applyMatchRewrite` is a run from the start to an empty queue. -/
theorem runs_of_applyMatchRewrite {root : OpPtr} {fuel : Nat} {modified : Bool}
    (h : m.applyMatchRewrite order fuel ctx own root = some (.ok (modified, d'))) :
    ∃ d rs, m.start order ctx own root = some d ∧ Runs m order d rs d' ∧ d'.toRewrite = [] := by
  obtain ⟨d, hstart, h⟩ := Option.bind_eq_some_iff.mp h
  obtain ⟨result, hdrive, h⟩ := Option.bind_eq_some_iff.mp h
  cases result with
  | error e => exact absurd (Option.some.inj h) nofun
  | ok d₁ =>
      obtain rfl : d₁ = d' := (Prod.mk.inj (Except.ok.inj (Option.some.inj h))).2
      obtain ⟨rs, hruns, hend⟩ := runs_of_drive m order hdrive
      exact ⟨d, rs, hstart, hruns, hend⟩

/-- In every run from the start in which no rewrite makes a waiting operation stop matching, the
    driver only rewrites what exists and matches, and in the end has rewritten what matched; and
    `applyMatchRewrite` is such a run, up to the end. -/
theorem runs_rewritesMatched {root : OpPtr} (hnest : ctx.WellNested)
    (hroot : ctx.isAllocated (.operation root) = true) :
    (∀ (d : MatchDriver τ) (rs : List Rewriting) (d' : MatchDriver τ),
      m.start order ctx own root = some d → Runs m order d rs d' →
        (∀ r ∈ rs, r.KeepsMatches m) → RewritesMatched m ctx root rs d') ∧
    ∀ (fuel : Nat) (modified : Bool) (d' : MatchDriver τ),
      m.applyMatchRewrite order fuel ctx own root = some (.ok (modified, d')) →
        ∃ d rs, m.start order ctx own root = some d ∧ Runs m order d rs d' ∧
          d'.toRewrite = [] ∧
          ((∀ r ∈ rs, r.KeepsMatches m) → RewritesMatched m ctx root rs d') := by
  refine ⟨fun d rs d' hstart hruns hkeeps => hruns.rewritesMatched hnest hroot hstart hkeeps,
    fun fuel modified d' h => ?_⟩
  obtain ⟨d, rs, hstart, hruns, hend⟩ := runs_of_applyMatchRewrite h
  exact ⟨d, rs, hstart, hruns, hend, hruns.rewritesMatched hnest hroot hstart⟩

/-- Matches the operations without a name.  It names the operation, and one more. -/
def naming (other : OpPtr → OpPtr) : MatchRewrite Unit Unit where
  isMatch ctx op := (ctx.operations op).any
    (fun o => (IMap.get? o.attributes attrKeySymName).isNone)
  rewrite own st op := do
    let ctx ← st.ctx.setSymbolName op "symbol"
    let ctx ← ctx.setSymbolName (other op) "symbol"
    some (.ok (own, { st with ctx := ctx, modified := true }))
  through {own st op own' st'} h := by
    obtain ⟨ctx₁, hfirst, h⟩ := Option.bind_eq_some_iff.mp h
    obtain ⟨ctx₂, hsecond, h⟩ := Option.bind_eq_some_iff.mp h
    obtain ⟨_, rfl⟩ := Prod.mk.inj (Except.ok.inj (Option.some.inj h))
    have hkeeps : ∀ {ctx ctx' : Context} {op : OpPtr} {name : Identifier},
        ctx.setSymbolName op name = some ctx' → ctx.KeepsOps ctx' := by
      intro ctx ctx' op name hname
      obtain ⟨o, ho, hname⟩ := Option.bind_eq_some_iff.mp hname
      rw [← Option.some.inj hname]
      exact PlacingRewriter.keepsOps_of_eq (PlacingRewriter.isAllocated_setOp ho _) rfl
    have hstep : PlacingRewriter.RewriterStep st { st with ctx := ctx₁, modified := true } :=
      .edit st true (hkeeps hfirst)
    exact (ReflTransGen.single hstep).tail
      (.edit { st with ctx := ctx₁, modified := true } true (hkeeps hsecond))

/-- The order that rewrites a module before the operation in it. -/
def outermostFirst : RewriterOrder where
  collect := WalkConfig.preorderForward
  enque := .enqueBack

theorem runs_rewritesMatched_naming :
    (∃ rs d', rs.length = 2 ∧ RewritesMatched (naming id) (moduleWith 1) ⟨0⟩ rs d') ∧
    ∃ d rs d', (naming id).applyMatchRewrite outermostFirst 3 (moduleWith 1) () ⟨0⟩ =
        some (.ok (true, d')) ∧
      (naming id).start outermostFirst (moduleWith 1) () ⟨0⟩ = some d ∧
      Runs (naming id) outermostFirst d rs d' ∧ d'.toRewrite = [] := by
  have hstart : (naming id).start outermostFirst (moduleWith 1) () ⟨0⟩ =
    some { rewriter := { ctx := moduleWith 1 }, own := (), toRewrite := [⟨0⟩, ⟨1⟩], erased := [] } :=
    rfl
  have hall := @runs_rewritesMatched Unit Unit (naming id) outermostFirst (moduleWith 1) () ⟨0⟩
    (moduleWith_wellNested 1) rfl
  constructor
  · refine ⟨_, _, ?_, hall.1 _ _ _ hstart
      (.rewrite rfl List.not_mem_nil rfl (.rewrite rfl List.not_mem_nil rfl (.refl _))) ?_⟩
    · rfl
    · intro r hr
      rcases List.mem_cons.mp hr with rfl | hr
      · intro op hop _ _
        obtain rfl := List.mem_singleton.mp hop
        rfl
      · obtain rfl := List.mem_singleton.mp hr
        exact fun op hop => absurd hop List.not_mem_nil
  · obtain ⟨d, rs, hd, hruns, hend, _⟩ := hall.2 3 true _ rfl
    exact ⟨d, rs, _, rfl, hd, hruns, hend⟩

/-- The module names the operation in it, and this operation is rewritten although it does not
    match any more. -/
theorem rewrites_unmatched : (moduleWith 1).WellNested ∧
    ∃ d rs d', (naming (fun op => ⟨1 - op.idx⟩)).start outermostFirst (moduleWith 1) () ⟨0⟩ =
        some d ∧
      Runs (naming (fun op => ⟨1 - op.idx⟩)) outermostFirst d rs d' ∧ d'.toRewrite = [] ∧
      ¬ RewritesMatched (naming (fun op => ⟨1 - op.idx⟩)) (moduleWith 1) ⟨0⟩ rs d' := by
  refine ⟨moduleWith_wellNested 1, _, _, _, rfl,
    .rewrite rfl List.not_mem_nil rfl (.rewrite rfl List.not_mem_nil rfl (.refl _)), rfl, ?_⟩
  intro h
  exact absurd (h.matching _ (List.mem_cons_of_mem _ List.mem_cons_self)) (by decide)

end MatchRewrite

end Pliron
