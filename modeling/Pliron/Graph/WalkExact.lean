/-
  Pliron.Graph.WalkExact

  A walk calls the callback once for every node.

  The calls of a walk are recorded next to the state of the callback.  The callback may insert
  nodes below a node that is visited before its children, and take nodes out below a node that
  is visited after its children.  What it does otherwise is free, as long as the tree keeps its
  links and there is a bound on the nodes.
-/

import Pliron.Graph.MutableWalkersCorrect

namespace Pliron

open Pliron.Lib TreeWalk Relation

namespace Walkers

variable {τ β α : Type} {config : WalkConfig} {root : IRNode} {bound : Nat}

/-! ## The calls of a callback -/

/-- A call of the callback, with the contexts before and after it. -/
structure Call (β : Type) where
  node : IRNode
  before : Context
  reply : Reply β
  after : Context

/-- A callback whose calls are recorded. -/
def recording (visit : IRNode → Context × τ → Reply β × (Context × τ)) (node : IRNode)
    (s : Context × (τ × List (Call β))) : Reply β × (Context × (τ × List (Call β))) :=
  let (reply, ctx, t) := visit node (s.1, s.2.1)
  (reply, (ctx, (t, s.2.2 ++ [⟨node, s.1, reply, ctx⟩])))

/-- The nodes for which the callback answered `skip`. -/
def skips (calls : List (Call β)) : List IRNode :=
  (calls.filter (fun c => c.reply.isSkip)).map Call.node

/-- The nodes of a tree in the order of the walk, without what is below the nodes `skipped`. -/
def nodeOrder (config : WalkConfig) (ctx : Context) (skipped : List IRNode) (bound : Nat)
    (root : IRNode) : List IRNode :=
  order (fun node => directed (config.forNode node).2 (ctx.childNodes node)) (isPre config)
    skipped (bound + 1) root

/-- The answer for an ancestor, visited before its children, was to skip them. -/
def PrunedBy (config : WalkConfig) (calls : List (Call β)) (x : IRNode) : Prop :=
  ∃ c ∈ calls, c.reply = .skip ∧ isPre config c.node = true ∧ x ≠ c.node ∧
    c.after.Inside c.node x

/-- No call breaks off the walk, or the last one does, as the only one. -/
def BreaksOff (calls : List (Call β)) : Option β → Prop
  | none => ∀ c ∈ calls, c.reply.exit = none
  | some b => ∃ front c, calls = front ++ [c] ∧ c.reply = .stop b ∧
      ∀ c ∈ front, c.reply.exit = none

/-! ## What a callback may do -/

/-- The node is in the tree, or was when the callback was called. -/
def EverInside (root : IRNode) (calls : List (Call β)) (ctx : Context) (x : IRNode) : Prop :=
  ctx.Inside root x ∨ ∃ c ∈ calls, c.before.Inside root x

/-- Nodes are inserted below `node` only, with everything inside them, and they are new. -/
structure InsertsBelow (root : IRNode) (calls : List (Call β)) (node : IRNode)
    (ctx ctx' : Context) : Prop where
  others : ∀ x, ctx.Inside root x → x ≠ node → ctx'.childNodes x = ctx.childNodes x
  keeps : ∀ c ∈ ctx.childNodes node, c ∈ ctx'.childNodes node
  fresh : ∀ c ∈ ctx'.childNodes node, c ∉ ctx.childNodes node →
    ∀ x, ctx'.Inside c x → ¬ EverInside root calls ctx x

/-- Nodes are deleted below `node` only, with everything inside them. -/
structure DeletesBelow (root node : IRNode) (ctx ctx' : Context) : Prop where
  others : ∀ x, ctx'.Inside root x → x ≠ node → ctx'.childNodes x = ctx.childNodes x
  fewer : ∀ c ∈ ctx'.childNodes node, c ∈ ctx.childNodes node

/-- The callback obeys the rules in all states that the walk may reach, after the calls made
    so far. -/
structure WalkRules (config : WalkConfig)
    (visit : IRNode → Context × τ → Reply β × (Context × τ)) (root : IRNode) (bound : Nat)
    (inv : List (Call β) → Context × τ → Prop) : Prop where
  wellNested : ∀ {calls s}, inv calls s → s.1.WellNested
  allocated : ∀ {calls s}, inv calls s → s.1.isAllocated root = true
  bounded : ∀ {calls s}, inv calls s → s.1.nodeCount ≤ bound
  step : ∀ {calls s node r s'}, inv calls s → s.1.Inside root node → visit node s = (r, s') →
    inv (calls ++ [⟨node, s.1, r, s'.1⟩]) s'
  preOrder : ∀ {calls s node r s'}, inv calls s → s.1.Inside root node →
    visit node s = (r, s') → (config.forNode node).1 = .preOrder →
    InsertsBelow root calls node s.1 s'.1
  postOrder : ∀ {calls s node r s'}, inv calls s → s.1.Inside root node →
    visit node s = (r, s') → (config.forNode node).1 = .postOrder →
    DeletesBelow root node s.1 s'.1

/-! ## What a walk does -/

/-- The calls of a walk from `ctx` to `ctx'`. -/
structure WalkExact (config : WalkConfig)
    (visit : IRNode → Context × τ → Reply β × (Context × τ)) (root : IRNode) (bound : Nat)
    (ctx ctx' : Context) (calls : List (Call β)) (exit : Option β) : Prop where
  answered : ∀ c ∈ calls, ∃ t t', visit c.node (c.before, t) = (c.reply, (c.after, t'))
  once : (calls.map Call.node).Nodup
  /-- Only nodes that are in the tree are visited, -/
  alive : ∀ c ∈ calls, c.before.Inside root c.node ∧ c.before.isAllocated c.node = true
  /-- and all that ever are in it, except the pruned ones. -/
  complete : exit = none → ∀ x, (ctx.Inside root x ∨ ctx'.Inside root x ∨
    ∃ c ∈ calls, c.after.Inside root x) → x ∈ calls.map Call.node ∨ PrunedBy config calls x
  pruned : ∀ x, PrunedBy config calls x → x ∉ calls.map Call.node
  ends : BreaksOff calls exit
  /-- The visits of a tree that stays as it is come in its order. -/
  ordered : (∀ c ∈ calls, c.after.childNodes = c.before.childNodes) →
    calls.map Call.node <+: nodeOrder config ctx (skips calls) bound root ∧
      (exit = none → calls.map Call.node = nodeOrder config ctx (skips calls) bound root)

section Recording

variable {visit : IRNode → Context × τ → Reply β × (Context × τ)}
  {s s' : Context × (τ × List (Call β))} {log : List (Visit IRNode (Context × (τ × List (Call β))) β)}
  {e : Option β}

/-- A visit of a recorded walk, as a call. -/
def callOf (v : Visit IRNode (Context × α) β) : Call β := ⟨v.node, v.before.1, v.reply, v.after.1⟩

/-- A recorded visit is a call of the callback. -/
theorem answered_of_recording {v : Visit IRNode (Context × (τ × List (Call β))) β}
    (hv : recording visit v.node v.before = (v.reply, v.after)) :
    ∃ t t', visit (callOf v).node ((callOf v).before, t) =
      ((callOf v).reply, ((callOf v).after, t')) := by
  have hreply : (visit v.node (v.before.1, v.before.2.1)).1 = v.reply := congrArg Prod.fst hv
  have hafter : (visit v.node (v.before.1, v.before.2.1)).2.1 = v.after.1 :=
    congrArg (fun p => p.2.1) hv
  refine ⟨v.before.2.1, (visit v.node (v.before.1, v.before.2.1)).2.2, ?_⟩
  rw [callOf, ← hreply, ← hafter]

/-- The calls recorded are the visits of the walk. -/
theorem calls_of_linked (hlinked : Linked s log s')
    (hvisit : ∀ v ∈ log, recording visit v.node v.before = (v.reply, v.after)) :
    s'.2.2 = s.2.2 ++ log.map callOf := by
  induction log generalizing s with
  | nil =>
      obtain rfl : s = s' := hlinked
      rw [List.map_nil, List.append_nil]
  | cons v log ih =>
      obtain ⟨rfl, hlinked⟩ := hlinked
      have hv := hvisit v List.mem_cons_self
      have hafter : v.after.2.2 = v.before.2.2 ++ [callOf v] := by
        have hreply : (recording visit v.node v.before).1 = v.reply := congrArg Prod.fst hv
        have hstate : (recording visit v.node v.before).2 = v.after := congrArg Prod.snd hv
        rw [callOf, ← hreply, ← hstate]
        rfl
      rw [ih hlinked (fun w hw => hvisit w (List.mem_cons_of_mem _ hw)), hafter,
        List.map_cons, List.append_assoc, List.singleton_append]

theorem nodes_eq_calls : nodes log = (log.map callOf).map Call.node := by
  rw [nodes, List.map_map]
  rfl

/-- The calls end as the visits do. -/
theorem breaksOff_of_endsWith (h : EndsWith log s' e) : BreaksOff (log.map callOf) e := by
  have hcalls : ∀ {log : List (Visit IRNode (Context × (τ × List (Call β))) β)}, Unstopped log →
      ∀ c ∈ log.map callOf, c.reply.exit = none := by
    intro log hlog c hc
    obtain ⟨v, hv, rfl⟩ := List.mem_map.mp hc
    exact hlog v hv
  cases e with
  | none => exact hcalls h
  | some b =>
      obtain ⟨front, v, rfl, hreply, _, hfront⟩ := h
      refine ⟨front.map callOf, callOf v, ?_, hreply, hcalls hfront⟩
      rw [List.map_append, List.map_singleton]

theorem skips_eq : skips (log.map callOf) = skippedNodes log := by
  rw [skips, skippedNodes, nodes, List.filter_map, List.map_map]
  rfl

end Recording

/-! ## The rules hold of the recorded callback -/

theorem postOrder_of_isPre {node : IRNode} (h : isPre config node = false) :
    (config.forNode node).1 = .postOrder := by
  cases horder : (config.forNode node).1 with
  | preOrder => exact absurd horder (of_decide_eq_false h)
  | postOrder => rfl

namespace WalkRules

variable {visit : IRNode → Context × τ → Reply β × (Context × τ)}
  {inv : List (Call β) → Context × τ → Prop} (h : WalkRules config visit root bound inv)

/-- The states of the recorded walk. -/
def recorded (inv : List (Call β) → Context × τ → Prop) (s : Context × (τ × List (Call β))) :
    Prop := inv s.2.2 (s.1, s.2.1)

include h

theorem below_iff {s : Context × (τ × List (Call β))} (hs : recorded inv s) {n x : IRNode} :
    Below (kidsOf config s) n x ↔ s.1.Inside n x := below_kidsOf (s := s) (h.wellNested hs)

theorem setting : Setting config (recording visit) root (recorded inv)
    (fun s => EverInside root s.2.2 s.1) bound where
  wellNested hs := h.wellNested hs
  allocated hs := h.allocated hs
  bounded hs := h.bounded hs
  rules := {
    tree := fun hs => isTree_kidsOf (h.wellNested hs)
    known_of_below := fun hs hx => .inl ((h.below_iff hs).mp hx)
    inv_visit := by
      intro s n hs hn
      rw [h.below_iff hs] at hn
      exact h.step hs hn rfl
    known_visit := by
      intro s n x _ _ hx
      rcases hx with hx | ⟨c, hc, hx⟩
      · exact .inr ⟨_, List.mem_append_right _ (List.mem_singleton_self _), hx⟩
      · exact .inr ⟨c, List.mem_append_left _ hc, hx⟩
    before_others := by
      intro s n x hs hpre hn hx hne
      rw [h.below_iff hs] at hn hx
      have hrule := h.preOrder hs hn rfl (of_decide_eq_true hpre)
      exact congrArg _ (hrule.others x hx hne)
    before_keeps := by
      intro s n c hs hpre hn hc
      rw [h.below_iff hs] at hn
      have hrule := h.preOrder hs hn rfl (of_decide_eq_true hpre)
      rw [mem_kidsOf] at hc ⊢
      exact hrule.keeps c hc
    before_new := by
      intro s n c x hs hpre hn hc hnew hx
      rw [h.below_iff hs] at hn
      have hs' : recorded inv (recording visit n s).2 := h.step hs hn rfl
      have hrule := h.preOrder hs hn rfl (of_decide_eq_true hpre)
      rw [mem_kidsOf] at hc hnew
      exact hrule.fresh c hc hnew x ((h.below_iff hs').mp hx)
    after_others := by
      intro s n x hs hpost hn hx hne
      rw [h.below_iff hs] at hn
      have hs' : recorded inv (recording visit n s).2 := h.step hs hn rfl
      have hrule := h.postOrder hs hn rfl (postOrder_of_isPre hpost)
      exact congrArg _ (hrule.others x ((h.below_iff hs').mp hx) hne)
    after_keeps := by
      intro s n c hs hpost hn hc
      rw [h.below_iff hs] at hn
      have hrule := h.postOrder hs hn rfl (postOrder_of_isPre hpost)
      rw [mem_kidsOf] at hc ⊢
      exact hrule.fewer c hc }

variable {s : Context × τ}

/-- The walk of a recorded callback is exact. -/
theorem walk_recording (hs : inv [] s) : ∃ exit calls ctx' t',
    walk config (ofVisit (recording visit)) bound root (s.1, (s.2, [])) =
        some (ending exit, (ctx', (t', calls))) ∧
      WalkExact config visit root bound s.1 ctx' calls exit := by
  let s₀ : Context × (τ × List (Call β)) := (s.1, (s.2, []))
  have hs₀ : recorded inv s₀ := hs
  obtain ⟨log, exit, s', hrun, hwalk⟩ := h.setting.walk_walksTo hs₀
  have hready : Ready (kidsOf config) root (recorded inv) [root] s₀ := {
    start := hs₀
    below := by
      intro n hn
      rw [List.mem_singleton.mp hn]
      exact Below.refl _ _
    apart := List.pairwise_singleton _ _ }
  have hout := h.setting.rules.outcome hwalk hready
  have hcalls : s'.2.2 = log.map callOf := calls_of_linked hwalk.linked hwalk.visit_eq
  have hnodes : nodes log = (log.map callOf).map Call.node := nodes_eq_calls
  have hafter : ∀ v ∈ log, recorded inv v.after := fun v hv =>
    h.setting.rules.before_inv (hout.alive v hv).1 (hout.alive v hv).2 (hwalk.visit_eq v hv)
  -- what the log and the recorded calls leave out is the same
  have hpruned : ∀ x, Pruned (kidsOf config) (isPre config) log x ↔
      PrunedBy config (log.map callOf) x := by
    intro x
    constructor
    · rintro ⟨v, hv, hskip, hpre, hne, hx⟩
      exact ⟨callOf v, List.mem_map_of_mem hv, hskip, hpre, hne,
        (h.below_iff (hafter v hv)).mp hx⟩
    · rintro ⟨c, hc, hskip, hpre, hne, hx⟩
      obtain ⟨v, hv, rfl⟩ := List.mem_map.mp hc
      exact ⟨v, hv, hskip, hpre, hne, (h.below_iff (hafter v hv)).mpr hx⟩
  refine ⟨exit, log.map callOf, s'.1, s'.2.1, ?_, ?_⟩
  · rw [← hcalls]
    exact hrun
  · exact {
      answered := by
        intro c hc
        obtain ⟨v, hv, rfl⟩ := List.mem_map.mp hc
        exact answered_of_recording (hwalk.visit_eq v hv)
      once := by
        rw [← hnodes]
        exact hout.nodup
      alive := by
        intro c hc
        obtain ⟨v, hv, rfl⟩ := List.mem_map.mp hc
        obtain ⟨hinv, hbelow⟩ := hout.alive v hv
        exact ⟨(h.below_iff hinv).mp hbelow, h.setting.isAllocated_of_below hinv hbelow⟩
      complete := by
        intro he x hx
        rw [← hnodes, ← hpruned]
        refine hout.covered he x ?_
        -- what was ever below the root is what some visit had below it
        have hever : Below (kidsOf config s₀) root x ∨
            ∃ v ∈ log, Below (kidsOf config v.after) v.node x := by
          rcases hx with hx | hx
          · exact .inl ((h.below_iff hs₀).mpr hx)
          · refine h.setting.rules.ever_linked hwalk.linked (fun v hv =>
              ⟨hwalk.visit_eq v hv, hout.alive v hv⟩) ?_
            rcases hx with hx | ⟨c, hc, hx⟩
            · exact .inl ((h.below_iff hout.final).mpr hx)
            · obtain ⟨v, hv, rfl⟩ := List.mem_map.mp hc
              exact .inr ⟨v, hv, (h.below_iff (hafter v hv)).mpr hx⟩
        rcases hever with hx | hx
        · exact .inl ⟨root, List.mem_singleton_self root, hx⟩
        · exact .inr (.inr hx)
      pruned := by
        intro x hx
        rw [← hnodes]
        exact hout.pruned x ((hpruned x).mpr hx)
      ends := breaksOff_of_endsWith hwalk.endsWith
      ordered := by
        intro hsame
        -- a node is visited once, so its answer is the one in the record
        have hskip : ∀ v ∈ log, isPre config v.node = true →
            (v.reply = .skip ↔ v.node ∈ skips (log.map callOf)) := by
          intro v hv _
          rw [skips_eq]
          exact skip_iff hout.nodup hv
        have hkids : ∀ v ∈ log, kidsOf config v.after = kidsOf config v.before := by
          intro v hv
          funext node
          exact congrArg _ (congrFun (hsame _ (List.mem_map_of_mem hv)) node)
        -- the bound is above the number of nodes, so the order has fuel enough
        have hfits : ∀ n ∈ [root], Fits (kidsOf config s₀) (bound + 1) n := by
          intro n hn
          rw [List.mem_singleton.mp hn]
          have hroot : Level (kidsOf config s₀) 0 root root := rfl
          have hbound : s₀.1.nodeCount ≤ bound := h.bounded hs
          exact fits_kidsOf (s := s₀) (h.wellNested hs₀) hroot (by omega)
        have hinOrder := hwalk.inOrder hkids hfits hskip
        rw [List.flatMap_singleton] at hinOrder
        rw [← hnodes]
        exact hinOrder }

end WalkRules

/-- Every walk visits the nodes of the tree once, also when its callback inserts and deletes
    nodes as the rules allow.  A walk that is not interrupted is completed. -/
theorem walk_exact {visit : IRNode → Context × τ → Reply β × (Context × τ)}
    {inv : List (Call β) → Context × τ → Prop} {s : Context × τ}
    (h : WalkRules config visit root bound inv) (hs : inv [] s) : ∃ exit calls ctx' t',
    walk config (ofVisit (recording visit)) bound root (s.1, (s.2, [])) =
        some (ending exit, (ctx', (t', calls))) ∧
      WalkExact config visit root bound s.1 ctx' calls exit ∧
      ((∀ node s, (visit node s).1 = .advance) → exit = none) := by
  obtain ⟨exit, calls, ctx', t', hrun, hexact⟩ := h.walk_recording hs
  refine ⟨exit, calls, ctx', t', hrun, hexact, fun hadvance => ?_⟩
  cases exit with
  | none => rfl
  | some b =>
      -- a walk that breaks off ends with a call that did not answer to go on
      obtain ⟨front, c, rfl, hstop, _⟩ := hexact.ends
      obtain ⟨t, _, hcall⟩ :=
        hexact.answered c (List.mem_append_right _ (List.mem_singleton_self c))
      have hreply := hadvance c.node (c.before, t)
      rw [hcall, hstop] at hreply
      exact absurd hreply nofun

/-! ## A block that loses an operation -/

/-- A block with some of the operations 0 and 1. -/
def blockWith (ops : List OpPtr) : Context where
  operations := fun op =>
    if op ∈ ops then some { concreteOp := { opId := 0 }, parentBlock := some ⟨0⟩ } else none
  basicBlocks := fun block => if block = ⟨0⟩ then some { ops := ops } else none
  nextOp := 2
  nextBlock := 1

theorem blockWith_wellNested {ops : List OpPtr} (hnodup : ops.Nodup)
    (hlt : ∀ op ∈ ops, op.idx < 2) :
    (blockWith ops).WellNested where
  op_mem := by
    intro block op
    by_cases hop : op ∈ ops <;> by_cases hblock : block = ⟨0⟩ <;>
      simp [Context.blockOps, Context.opParentBlock, blockWith, hop, hblock, eq_comm]
  block_mem := by
    intro region block
    by_cases hblock : block = ⟨0⟩ <;>
      simp [Context.regionBlocks, Context.blockParentRegion, blockWith, hblock]
  region_mem := by
    intro op region
    by_cases hop : op ∈ ops <;>
      simp [Context.opRegions, Context.regionParentOp, blockWith, hop]
  ops_nodup := by
    intro block
    by_cases hblock : block = ⟨0⟩ <;> simp [Context.blockOps, blockWith, hblock, hnodup]
  blocks_nodup := by
    intro region
    simp [Context.regionBlocks, blockWith]
  regions_nodup := by
    intro op
    by_cases hop : op ∈ ops <;> simp [Context.opRegions, blockWith, hop]
  op_lt := by
    intro op hop
    refine hlt op (Decidable.not_not.mp (fun hnot => hop ?_))
    simp [blockWith, hnot]
  block_lt := by
    intro block hblock
    by_cases hzero : block = ⟨0⟩
    · subst hzero
      exact Nat.one_pos
    · simp [blockWith, hzero] at hblock
  region_lt := fun region hregion => absurd rfl hregion
  acyclic := by
    refine ⟨fun _ => 0, fun op parent h => ?_⟩
    by_cases hop : op ∈ ops <;>
      simp [Context.parentOp, Context.opParentRegion, Context.opParentBlock,
        Context.blockParentRegion, blockWith, hop] at h

/-- Operations 0 and 1 are visited, in reverse, and then the block, which loses operation 1. -/
def dropSecond (node : IRNode) (s : Context × Unit) : Reply Unit × (Context × Unit) :=
  match node with
  | .basicBlock ⟨0⟩ => (.advance, (blockWith [⟨0⟩], ()))
  | _ => (.advance, s)

/-- All nodes are visited after what is inside them, in reverse. -/
def postorderReverse : WalkConfig where
  regionsInOp := (.postOrder, .reverse)
  opsInBlock := (.postOrder, .reverse)
  blocksInRegion := (.postOrder, .reverse)

theorem childNodes_blockWith {ops ops' : List OpPtr} {x : IRNode} (hx : x ≠ .basicBlock ⟨0⟩) :
    (blockWith ops).childNodes x = (blockWith ops').childNodes x := by
  cases x with
  | operation op =>
      have hregions : ∀ ops, (blockWith ops).opRegions op = [] := by
        intro ops
        by_cases hop : op ∈ ops <;> simp [Context.opRegions, blockWith, hop]
      rw [Context.childNodes, Context.childNodes, hregions, hregions]
  | basicBlock block =>
      have hblock : block ≠ ⟨0⟩ := fun heq => hx (congrArg _ heq)
      simp [Context.childNodes, Context.blockOps, blockWith, hblock]
  | region region => rfl

theorem dropSecond_rules : WalkRules postorderReverse dropSecond (.basicBlock ⟨0⟩) 3
    (fun _ s => s.1 = blockWith [⟨0⟩, ⟨1⟩] ∨ s.1 = blockWith [⟨0⟩]) where
  wellNested := by
    rintro _ ⟨_, _⟩ (rfl | rfl)
    · exact blockWith_wellNested (by decide) (by decide)
    · exact blockWith_wellNested (by decide) (by decide)
  allocated := by
    rintro _ ⟨_, _⟩ (rfl | rfl)
    · rfl
    · rfl
  bounded := by
    rintro _ ⟨_, _⟩ (rfl | rfl)
    · exact le_refl 3
    · exact le_refl 3
  step := by
    intro _ s node r s' hs _ hvisit
    unfold dropSecond at hvisit
    split at hvisit
    · rw [← (Prod.mk.inj hvisit).2]
      exact .inr rfl
    · rw [← (Prod.mk.inj hvisit).2]
      exact hs
  preOrder := by
    intro _ _ node _ _ _ _ _ hpre
    cases node <;> exact absurd hpre nofun
  postOrder := by
    intro _ s node r s' hs _ hvisit _
    unfold dropSecond at hvisit
    split at hvisit
    · rw [← (Prod.mk.inj hvisit).2]
      obtain ⟨ctx, ⟨⟩⟩ := s
      refine ⟨fun x _ hx => ?_, ?_⟩
      · rcases hs with rfl | rfl
        · exact childNodes_blockWith hx
        · rfl
      · rcases hs with rfl | rfl
        · decide
        · decide
    · rw [← (Prod.mk.inj hvisit).2]
      exact ⟨fun _ _ _ => rfl, fun _ hc => hc⟩

theorem walk_exact_dropSecond : ∃ (exit : Option Unit) (calls : List (Call Unit)) (ctx' : Context)
    (t' : Unit),
    walk postorderReverse (ofVisit (recording dropSecond)) 3 (.basicBlock ⟨0⟩)
        (blockWith [⟨0⟩, ⟨1⟩], ((), [])) = some (ending exit, (ctx', (t', calls))) ∧
      WalkExact postorderReverse dropSecond (.basicBlock ⟨0⟩) 3 (blockWith [⟨0⟩, ⟨1⟩]) ctx' calls
        exit ∧
      ((∀ node s, (dropSecond node s).1 = .advance) → exit = none) :=
  walk_exact (s := (blockWith [⟨0⟩, ⟨1⟩], ())) dropSecond_rules (.inl rfl)

example : (walk postorderReverse (ofVisit (recording dropSecond)) 3 (.basicBlock ⟨0⟩)
    (blockWith [⟨0⟩, ⟨1⟩], ((), []))).map (fun p => p.2.2.2.map Call.node) =
      some [.operation ⟨1⟩, .operation ⟨0⟩, .basicBlock ⟨0⟩] := by
  decide

end Walkers

end Pliron
