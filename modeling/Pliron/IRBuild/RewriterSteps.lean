/-
  Pliron.IRBuild.RewriterSteps

  What a rewrite may do to the operations of the IR.

  An operation that is gone after a rewrite was reported to the listener, and an operation that
  was reported to be erased is gone for good.  This is proved for each step of a rewrite and
  holds of sequences of them; moving, splitting and inlining are such sequences.
-/

import Pliron.IRBuild.MatchRewrite
import Pliron.IRBuild.RewriterCorrect

namespace Pliron

open Context Relation Pliron.Lib

/-! ## No pointer is allocated twice -/

namespace Context

variable {ctx ctx' : Context} {op : OpPtr} {block : BlockPtr} {node : IRNode}

theorem removeUse_nextOp {d : Def} {use : Use} (h : ctx.removeUse d use = some ctx') :
    ctx'.nextOp = ctx.nextOp := by
  obtain ⟨uses, huses, h⟩ := Option.bind_eq_some_iff.mp h
  obtain ⟨_, _, h⟩ := Option.bind_eq_some_iff.mp h
  obtain ⟨ctx'', hctx'', _, hsame⟩ := setUses_spec (uses.erase use) huses
  obtain rfl := Option.some.inj (hctx''.symm.trans h)
  exact hsame.nextOp

/-- What every step of a fold keeps, the fold keeps. -/
theorem foldlM_keeps {σ β γ : Type} {f : σ → β → Option σ} (g : σ → γ)
    (hf : ∀ s b s', f s b = some s' → g s' = g s) {l : List β} {s s' : σ}
    (h : l.foldlM f s = some s') : g s' = g s := by
  induction l generalizing s with
  | nil =>
      obtain rfl := Option.some.inj h
      rfl
  | cons b l ih =>
      rw [List.foldlM_cons] at h
      obtain ⟨s₁, hs₁, h⟩ := Option.bind_eq_some_iff.mp h
      exact (ih h).trans (hf s b s₁ hs₁)

theorem dropOwnUses_nextOp (h : ctx.dropOwnUses op = some ctx') : ctx'.nextOp = ctx.nextOp := by
  obtain ⟨o, _, h⟩ := Option.bind_eq_some_iff.mp h
  obtain ⟨ctx₁, hopds, h⟩ := Option.bind_eq_some_iff.mp h
  obtain ⟨o₁, _, hsuccs⟩ := Option.bind_eq_some_iff.mp h
  have h₁ := foldlM_keeps Context.nextOp (fun _ _ _ hc => removeUse_nextOp hc) hopds
  have h₂ := foldlM_keeps Context.nextOp (fun _ _ _ hc => removeUse_nextOp hc) hsuccs
  exact h₂.trans h₁

theorem dropAllUses_nextOp {fuel : Nat} (h : dropAllUses fuel ctx node = some ctx') :
    ctx'.nextOp = ctx.nextOp := by
  induction fuel generalizing ctx ctx' node with
  | zero => exact absurd h nofun
  | succ fuel ih =>
      obtain ⟨_, _, h⟩ := Option.bind_eq_some_iff.mp h
      obtain ⟨ctx₁, hdrop, h⟩ := Option.bind_eq_some_iff.mp h
      refine (foldlM_keeps Context.nextOp (fun _ _ _ hc => ih hc) h).trans ?_
      cases node with
      | operation op => exact dropOwnUses_nextOp hdrop
      | basicBlock block => rw [← Option.some.inj hdrop]
      | region region => rw [← Option.some.inj hdrop]

theorem unlinkOp_nextOp (h : ctx.unlinkOp op = some ctx') : ctx'.nextOp = ctx.nextOp := by
  obtain ⟨o, _, h⟩ := Option.bind_eq_some_iff.mp h
  obtain ⟨block, _, h⟩ := Option.bind_eq_some_iff.mp h
  obtain ⟨b, _, h⟩ := Option.bind_eq_some_iff.mp h
  rw [← Option.some.inj h]
  rfl

theorem unlinkBlock_nextOp (h : ctx.unlinkBlock block = some ctx') :
    ctx'.nextOp = ctx.nextOp := by
  obtain ⟨b, _, h⟩ := Option.bind_eq_some_iff.mp h
  obtain ⟨region, _, h⟩ := Option.bind_eq_some_iff.mp h
  obtain ⟨r, _, h⟩ := Option.bind_eq_some_iff.mp h
  rw [← Option.some.inj h]
  rfl

theorem unlinkNode_nextOp (h : ctx.unlinkNode node = some ctx') : ctx'.nextOp = ctx.nextOp := by
  cases node with
  | operation op =>
      rw [unlinkNode] at h
      by_cases hlinked : (ctx.opParentBlock op).isSome = true
      · rw [if_pos hlinked] at h
        exact unlinkOp_nextOp h
      · rw [if_neg hlinked] at h
        rw [← Option.some.inj h]
  | basicBlock block =>
      rw [unlinkNode] at h
      by_cases hlinked : (ctx.blockParentRegion block).isSome = true
      · rw [if_pos hlinked] at h
        exact unlinkBlock_nextOp h
      · rw [if_neg hlinked] at h
        rw [← Option.some.inj h]
  | region region => rw [← Option.some.inj h]

theorem eraseOp_nextOp (h : ctx.eraseOp op = some ctx') : ctx'.nextOp = ctx.nextOp := by
  obtain ⟨ctx₁, hdrop, h⟩ := Option.bind_eq_some_iff.mp h
  obtain ⟨_, _, h⟩ := Option.bind_eq_some_iff.mp h
  obtain ⟨_, _, h⟩ := Option.bind_eq_some_iff.mp h
  obtain ⟨ctx₂, hunlink, hdealloc⟩ := Option.bind_eq_some_iff.mp h
  exact ((dealloc_freed hdealloc).nextOp.trans (unlinkNode_nextOp hunlink)).trans
    (dropAllUses_nextOp hdrop)

theorem eraseBlock_nextOp (h : ctx.eraseBlock block = some ctx') : ctx'.nextOp = ctx.nextOp := by
  obtain ⟨ctx₁, hdrop, h⟩ := Option.bind_eq_some_iff.mp h
  obtain ⟨_, _, h⟩ := Option.bind_eq_some_iff.mp h
  obtain ⟨_, _, h⟩ := Option.bind_eq_some_iff.mp h
  obtain ⟨_, _, h⟩ := Option.bind_eq_some_iff.mp h
  obtain ⟨_, _, h⟩ := Option.bind_eq_some_iff.mp h
  obtain ⟨_, _, h⟩ := Option.bind_eq_some_iff.mp h
  obtain ⟨ctx₂, hunlink, hdealloc⟩ := Option.bind_eq_some_iff.mp h
  exact ((dealloc_freed hdealloc).nextOp.trans (unlinkNode_nextOp hunlink)).trans
    (dropAllUses_nextOp hdrop)

theorem eraseRegion_nextOp {regIdx : Nat} (h : ctx.eraseRegion op regIdx = some ctx') :
    ctx'.nextOp = ctx.nextOp := by
  obtain ⟨_, _, h⟩ := Option.bind_eq_some_iff.mp h
  obtain ⟨_, _, h⟩ := Option.bind_eq_some_iff.mp h
  obtain ⟨ctx₁, hdrop, h⟩ := Option.bind_eq_some_iff.mp h
  obtain ⟨_, _, hdealloc⟩ := Option.bind_eq_some_iff.mp h
  have hfreed : ctx'.nextOp = ctx₁.nextOp := (dealloc_freed hdealloc).nextOp
  exact hfreed.trans (dropAllUses_nextOp hdrop)

end Context

namespace IRRewriter

/-- Erasing allocates nothing. -/
theorem eraseNode_nextOp {fuel : Nat} {st st' : IRRewriter} {node : IRNode}
    (h : eraseNode fuel st node = some st') : st'.ctx.nextOp = st.ctx.nextOp := by
  induction fuel generalizing st st' node with
  | zero =>
      cases node with
      | operation op => exact absurd h nofun
      | basicBlock block => exact absurd h nofun
      | region region => exact absurd h nofun
  | succ fuel ih =>
      have hnode : ∀ node s s', eraseNode fuel s node = some s' → s'.ctx.nextOp = s.ctx.nextOp :=
        fun _ _ _ hs => ih hs
      have hop : ∀ s op s', eraseOperation fuel s op = some s' → s'.ctx.nextOp = s.ctx.nextOp :=
        fun s op s' => hnode (.operation op) s s'
      have hblock : ∀ s block s', eraseBlock fuel s block = some s' →
          s'.ctx.nextOp = s.ctx.nextOp := fun s block s' => hnode (.basicBlock block) s s'
      have hregion : ∀ s region s', eraseRegion fuel s region = some s' →
          s'.ctx.nextOp = s.ctx.nextOp := fun s region s' => hnode (.region region) s s'
      cases node with
      | operation op =>
          rw [eraseNode, eraseOperation] at h
          obtain ⟨o, _, h⟩ := Option.bind_eq_some_iff.mp h
          obtain ⟨st₁, hregions, h⟩ := Option.bind_eq_some_iff.mp h
          obtain ⟨ctx', herase, h⟩ := Option.bind_eq_some_iff.mp h
          rw [← Option.some.inj h]
          exact (eraseOp_nextOp herase).trans
            (foldlM_keeps (fun s => s.ctx.nextOp) hregion hregions)
      | basicBlock block =>
          rw [eraseNode, eraseBlock] at h
          obtain ⟨b, _, h⟩ := Option.bind_eq_some_iff.mp h
          obtain ⟨st₁, hops, h⟩ := Option.bind_eq_some_iff.mp h
          obtain ⟨ctx', herase, h⟩ := Option.bind_eq_some_iff.mp h
          rw [← Option.some.inj h]
          exact (eraseBlock_nextOp herase).trans (foldlM_keeps (fun s => s.ctx.nextOp) hop hops)
      | region region =>
          rw [eraseNode, eraseRegion] at h
          obtain ⟨_, _, h⟩ := Option.bind_eq_some_iff.mp h
          obtain ⟨st₁, hops, h⟩ := Option.bind_eq_some_iff.mp h
          obtain ⟨st₂, hblocks, h⟩ := Option.bind_eq_some_iff.mp h
          obtain ⟨_, _, h⟩ := Option.bind_eq_some_iff.mp h
          obtain ⟨_, _, h⟩ := Option.bind_eq_some_iff.mp h
          obtain ⟨_, _, h⟩ := Option.bind_eq_some_iff.mp h
          obtain ⟨ctx', herase, h⟩ := Option.bind_eq_some_iff.mp h
          rw [← Option.some.inj h]
          have hfirst : st₁.ctx.nextOp = st.ctx.nextOp := by
            refine foldlM_keeps (fun s => s.ctx.nextOp) (fun s b s' hs => ?_) hops
            obtain ⟨_, _, hs⟩ := Option.bind_eq_some_iff.mp hs
            exact foldlM_keeps (fun s => s.ctx.nextOp) hop hs
          exact ((eraseRegion_nextOp herase).trans
            (foldlM_keeps (fun s => s.ctx.nextOp) hblock hblocks)).trans hfirst

end IRRewriter

/-! ## The operations after a step -/

namespace PlacingRewriter

variable {st st' st'' : PlacingRewriter} {op : OpPtr}

/-- The operation exists. -/
def Alive (st : PlacingRewriter) (op : OpPtr) : Prop :=
  st.ctx.isAllocated (.operation op) = true

/-- The operation existed and does not any more. -/
def Dead (st : PlacingRewriter) (op : OpPtr) : Prop := ¬ st.Alive op ∧ op.idx < st.ctx.nextOp

/-- The listener was told that the operation is erased. -/
def Gone (st : PlacingRewriter) (op : OpPtr) : Prop := ∃ ctx, (ctx, .operation op) ∈ st.erasures

/-- The listener was told that the operation was inserted. -/
def Inserted (st : PlacingRewriter) (op : OpPtr) : Prop :=
  ∃ ctx, (ctx, .operationInserted op) ∈ st.placements

/-- All operations have pointers below the next one. -/
def Bounded (st : PlacingRewriter) : Prop := ∀ op, st.Alive op → op.idx < st.ctx.nextOp

theorem mem_erasedOps : op ∈ st.erasedOps ↔ st.Gone op := by
  rw [erasedOps, List.mem_filterMap]
  constructor
  · rintro ⟨⟨ctx, node⟩, he, hop⟩
    cases node with
    | operation op' =>
        obtain rfl : op' = op := Option.some.inj hop
        exact ⟨ctx, he⟩
    | basicBlock block => exact absurd hop nofun
    | region region => exact absurd hop nofun
  · rintro ⟨ctx, he⟩
    exact ⟨_, he, rfl⟩

/-- What becomes of the operations. -/
structure Follows (st st' : PlacingRewriter) : Prop where
  kept : ∀ op, st.Alive op → st'.Alive op ∨ st'.Gone op
  gone : ∀ op, st.Gone op → st'.Gone op
  buried : ∀ op, st'.Gone op → st.Gone op ∨ st'.Dead op
  dead : ∀ op, st.Dead op → st'.Dead op
  bounded : st.Bounded → st'.Bounded
  inserted : ∀ op, st'.Inserted op → st.Inserted op ∨ st'.Alive op ∨ st'.Gone op

namespace Follows

theorem refl (st : PlacingRewriter) : Follows st st where
  kept _ hop := .inl hop
  gone _ hop := hop
  buried _ hop := .inl hop
  dead _ hop := hop
  bounded h := h
  inserted _ hop := .inl hop

theorem trans (h : Follows st st') (h' : Follows st' st'') : Follows st st'' where
  kept op hop := by
    rcases h.kept op hop with hop | hop
    · exact h'.kept op hop
    · exact .inr (h'.gone op hop)
  gone op hop := h'.gone op (h.gone op hop)
  buried op hop := by
    rcases h'.buried op hop with hop | hop
    · exact (h.buried op hop).imp id (h'.dead op)
    · exact .inr hop
  dead op hop := h'.dead op (h.dead op hop)
  bounded hst := h'.bounded (h.bounded hst)
  inserted op hop := by
    rcases h'.inserted op hop with hop | hop
    · rcases h.inserted op hop with hop | hop | hop
      · exact .inl hop
      · exact .inr (h'.kept op hop)
      · exact .inr (.inr (h'.gone op hop))
    · exact .inr hop

/-- A step that keeps the operations. -/
theorem of_keepsOps (h : st.ctx.KeepsOps st'.ctx) (herasures : st'.erasures = st.erasures)
    (hinserted : ∀ op, st'.Inserted op → st.Inserted op ∨ st'.Alive op) : Follows st st' where
  kept op hop := .inl (h.allocated op hop)
  gone op hop := by
    obtain ⟨ctx, hop⟩ := hop
    exact ⟨ctx, herasures ▸ hop⟩
  buried op hop := by
    obtain ⟨ctx, hop⟩ := hop
    exact .inl ⟨ctx, herasures ▸ hop⟩
  dead op hop := by
    obtain ⟨hnot, hlt⟩ := hop
    refine ⟨fun halive => ?_, Nat.lt_of_lt_of_le hlt h.nextOp⟩
    rcases h.created op halive with hold | ⟨hle, _⟩
    · exact hnot hold
    · exact Nat.not_lt.mpr hle hlt
  bounded hst op hop := by
    rcases h.created op hop with hold | ⟨_, hlt⟩
    · exact Nat.lt_of_lt_of_le (hst op hold) h.nextOp
    · exact hlt
  inserted op hop := (hinserted op hop).imp id .inl

end Follows

/-! ## Each step -/

theorem isAllocated_setOp {ctx : Context} {o : Operation} (ho : ctx.operations op = some o)
    (o' : Operation) (x : OpPtr) : (ctx.setOp op o').isAllocated (.operation x) =
      ctx.isAllocated (.operation x) := by
  show (Function.update ctx.operations op (some o') x).isSome = (ctx.operations x).isSome
  by_cases hx : x = op
  · rw [hx, Function.update_self, ho]
    rfl
  · rw [Function.update_of_ne hx]

theorem keepsOps_of_eq {ctx ctx' : Context}
    (h : ∀ op, ctx'.isAllocated (.operation op) = ctx.isAllocated (.operation op))
    (hnext : ctx'.nextOp = ctx.nextOp) : ctx.KeepsOps ctx' where
  allocated op hop := (h op).trans hop
  created op hop := .inl ((h op).symm.trans hop)
  nextOp := Nat.le_of_eq hnext.symm

theorem linkOp_keepsOps {ctx ctx' : Context} {point : InsertPoint OpPtr BlockPtr}
    (h : ctx.linkOp op point = some ctx') :
    ctx.KeepsOps ctx' ∧ ctx'.isAllocated (.operation op) = true := by
  obtain ⟨o, ho, h⟩ := Option.bind_eq_some_iff.mp h
  obtain ⟨_, _, h⟩ := Option.bind_eq_some_iff.mp h
  obtain ⟨block, _, h⟩ := Option.bind_eq_some_iff.mp h
  obtain ⟨b, _, h⟩ := Option.bind_eq_some_iff.mp h
  rw [← Option.some.inj h]
  have hsame := isAllocated_setOp ho { o with parentBlock := some block }
  refine ⟨keepsOps_of_eq hsame rfl, (hsame op).trans ?_⟩
  rw [isAllocated, ho]
  rfl

theorem unlinkOp_keepsOps {ctx ctx' : Context} (h : ctx.unlinkOp op = some ctx') :
    ctx.KeepsOps ctx' := by
  obtain ⟨o, ho, h⟩ := Option.bind_eq_some_iff.mp h
  obtain ⟨block, _, h⟩ := Option.bind_eq_some_iff.mp h
  obtain ⟨b, _, h⟩ := Option.bind_eq_some_iff.mp h
  rw [← Option.some.inj h]
  exact keepsOps_of_eq (isAllocated_setOp ho { o with parentBlock := none }) rfl

theorem linkBlock_keepsOps {ctx ctx' : Context} {block : BlockPtr}
    {point : InsertPoint BlockPtr RegionPtr} (h : ctx.linkBlock block point = some ctx') :
    ctx.KeepsOps ctx' := by
  obtain ⟨b, _, h⟩ := Option.bind_eq_some_iff.mp h
  obtain ⟨_, _, h⟩ := Option.bind_eq_some_iff.mp h
  obtain ⟨region, _, h⟩ := Option.bind_eq_some_iff.mp h
  obtain ⟨r, _, h⟩ := Option.bind_eq_some_iff.mp h
  rw [← Option.some.inj h]
  exact keepsOps_of_eq (fun _ => rfl) rfl

theorem unlinkBlock_keepsOps {ctx ctx' : Context} {block : BlockPtr}
    (h : ctx.unlinkBlock block = some ctx') : ctx.KeepsOps ctx' := by
  obtain ⟨b, _, h⟩ := Option.bind_eq_some_iff.mp h
  obtain ⟨region, _, h⟩ := Option.bind_eq_some_iff.mp h
  obtain ⟨r, _, h⟩ := Option.bind_eq_some_iff.mp h
  rw [← Option.some.inj h]
  exact keepsOps_of_eq (fun _ => rfl) rfl

/-- Another event than an insertion. -/
theorem inserted_notify {event : PlacementEvent} (hevent : ∀ op, event ≠ .operationInserted op)
    (hop : (st.notify event).Inserted op) : st.Inserted op := by
  obtain ⟨ctx, hmem⟩ := hop
  rcases List.mem_append.mp hmem with hmem | hmem
  · exact ⟨ctx, hmem⟩
  · exact absurd (Prod.mk.inj (List.mem_singleton.mp hmem)).2.symm (hevent op)

/-- What is erased is reported, and gone. -/
theorem follows_eraseNode {st₁ : IRRewriter} {node : IRNode} {fuel : Nat}
    (hwell : st.ctx.WellFormed) (huses : st.ctx.DefUse)
    (hnode : st.ctx.isAllocated node = true) (hfuel : st.ctx.nodeCount < fuel)
    (h : IRRewriter.eraseNode fuel st.toIRRewriter node = some st₁) :
    Follows st { st with toIRRewriter := st₁ } := by
  have hwhole := (IRRewriter.eraseNode_spec hwell huses hnode hfuel).2 st₁ h
  have hnext := IRRewriter.eraseNode_nextOp h
  obtain ⟨log, hlog, _, hmem, _⟩ := hwhole.erasures
  have hgone : ∀ op, Gone { st with toIRRewriter := st₁ } op ↔
      st.Gone op ∨ st.ctx.Inside node (.operation op) := by
    intro op
    rw [← hmem, Gone, Gone]
    simp only [hlog, List.mem_append, List.mem_map, exists_or]
    refine or_congr_right ⟨fun ⟨ctx, he⟩ => ⟨_, he, rfl⟩, ?_⟩
    rintro ⟨⟨ctx, n⟩, he, rfl⟩
    exact ⟨ctx, he⟩
  have hinside : ∀ op, st.ctx.Inside node (.operation op) → st.Alive op := by
    intro op hin
    rcases ReflTransGen.cases_head hin with heq | ⟨c, hc, _⟩
    · rw [Alive, heq]
      exact hnode
    · obtain ⟨block, hblock, _⟩ := Option.map_eq_some_iff.mp hc
      exact Option.isSome_iff_ne_none.mpr (operations_ne_none hblock)
  have hbound : st.Bounded := fun op hop =>
    hwell.nested.op_lt op (Option.isSome_iff_ne_none.mp hop)
  exact {
    kept := by
      intro op hop
      by_cases hin : st.ctx.Inside node (.operation op)
      · exact .inr ((hgone op).mpr (.inr hin))
      · exact .inl ((hwhole.allocated _).mpr ⟨hop, hin⟩)
    gone := fun op hop => (hgone op).mpr (.inl hop)
    buried := by
      intro op hop
      refine ((hgone op).mp hop).imp id (fun hin => ⟨fun halive => ?_, ?_⟩)
      · exact ((hwhole.allocated _).mp halive).2 hin
      · show op.idx < st₁.ctx.nextOp
        rw [hnext]
        exact hbound op (hinside op hin)
    dead := by
      intro op hop
      refine ⟨fun halive => hop.1 ((hwhole.allocated _).mp halive).1, ?_⟩
      show op.idx < st₁.ctx.nextOp
      rw [hnext]
      exact hop.2
    bounded := by
      intro hst op hop
      show op.idx < st₁.ctx.nextOp
      rw [hnext]
      exact hst op ((hwhole.allocated _).mp hop).1
    inserted := fun op hop => .inl hop }

theorem RewriterStep.follows (h : RewriterStep st st') : Follows st st' := by
  cases h with
  | setInsertionPoint point => exact { Follows.refl st with }
  | @insertOperation _ op h =>
      obtain ⟨ctx', hctx', h⟩ := Option.bind_eq_some_iff.mp h
      rw [← Option.some.inj h]
      have hlink : st.ctx.KeepsOps ctx' ∧ ctx'.isAllocated (.operation op) = true := by
        cases hpoint : st.opInsertionPoint with
        | unset =>
            rw [hpoint] at hctx'
            exact absurd hctx' nofun
        | set point =>
            rw [hpoint] at hctx'
            exact linkOp_keepsOps hctx'
      refine Follows.of_keepsOps hlink.1 rfl (fun x hx => ?_)
      obtain ⟨c, hmem⟩ := hx
      rcases List.mem_append.mp hmem with hmem | hmem
      · exact .inl ⟨c, hmem⟩
      · obtain ⟨_, heq⟩ := Prod.mk.inj (List.mem_singleton.mp hmem)
        obtain rfl : x = op := PlacementEvent.operationInserted.inj heq
        exact .inr hlink.2
  | @insertBlock _ point block h =>
      cases point with
      | unset => exact absurd h nofun
      | set point =>
          obtain ⟨ctx', hctx', h⟩ := Option.bind_eq_some_iff.mp h
          rw [← Option.some.inj h]
          have hevent : ∀ op, PlacementEvent.blockInserted block ≠ .operationInserted op :=
            fun _ => nofun
          refine Follows.of_keepsOps (linkBlock_keepsOps hctx') rfl (fun x hx => .inl ?_)
          have hold : (st.changed ctx').Inserted x := inserted_notify hevent hx
          exact hold
  | @unlinkOperation _ op h =>
      obtain ⟨ctx', hctx', h⟩ := Option.bind_eq_some_iff.mp h
      rw [← Option.some.inj h]
      have hevent : ∀ x, PlacementEvent.operationUnlinking op ≠ .operationInserted x :=
        fun _ => nofun
      refine Follows.of_keepsOps (unlinkOp_keepsOps hctx') rfl (fun x hx => .inl ?_)
      exact inserted_notify hevent hx
  | @unlinkBlock _ block h =>
      obtain ⟨ctx', hctx', h⟩ := Option.bind_eq_some_iff.mp h
      rw [← Option.some.inj h]
      have hevent : ∀ op, PlacementEvent.blockUnlinking block ≠ .operationInserted op :=
        fun _ => nofun
      refine Follows.of_keepsOps (unlinkBlock_keepsOps hctx') rfl (fun x hx => .inl ?_)
      exact inserted_notify hevent hx
  | eraseNode hwell huses hnode hfuel h => exact follows_eraseNode hwell huses hnode hfuel h
  | edit modified h => exact Follows.of_keepsOps h rfl (fun _ hx => .inl hx)

/-- What becomes of the operations in a rewrite. -/
theorem Rewrites.follows (h : Rewrites st st') : Follows st st' := by
  induction h with
  | refl => exact Follows.refl st
  | tail _ hstep ih => exact ih.trans hstep.follows

end PlacingRewriter

end Pliron
