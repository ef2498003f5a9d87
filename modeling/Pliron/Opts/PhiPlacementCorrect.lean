/-
  Pliron.Opts.PhiPlacementCorrect

  The blocks chosen for a new argument are the live-in blocks of the iterated dominance frontier of
  the blocks that store.

  Both worklists end with what their seeds lead to.  Pruning on the way is the general fact about
  pruned frontiers; what is left is the entry, which the dominance frontiers leave out.
-/

import Pliron.Opts.PhiPlacement

namespace Pliron

open Pliron.Lib Relation

namespace Mem2Reg

variable {α : Type} [DecidableEq α] {g : ControlFlowGraph α} {r b v : α}

/-! ## Summaries of blocks -/

/-- A block stores to the slot. -/
def UserBlocks.Stores (user : UserBlocks g) (b : α) : Prop :=
  ∃ l, (b, l) ∈ user.accesses ∧ Access.store ∈ l

/-- A block uses the slot's value before storing to it. -/
def UserBlocks.UsedBeforeStore (user : UserBlocks g) (b : α) : Prop :=
  ∃ l pre post, (b, l) ∈ user.accesses ∧ l = pre ++ Access.load :: post ∧ Access.store ∉ pre

/-- Recording accesses: induction on the accesses. -/
theorem record_spec (l : List Access) (info : CandidateUserBlockInfo) :
    ((l.foldl CandidateUserBlockInfo.record info).hasStore = true ↔
      info.hasStore = true ∨ Access.store ∈ l) ∧
    ((l.foldl CandidateUserBlockInfo.record info).loadBeforeStore = true ↔
      info.loadBeforeStore = true ∨
        (info.hasStore = false ∧ ∃ pre post, l = pre ++ Access.load :: post ∧
          Access.store ∉ pre)) := by
  induction l generalizing info with
  | nil =>
      refine ⟨by simp, ?_⟩
      simp
  | cons a l ih =>
      obtain ⟨hstore, hload⟩ := ih (info.record a)
      rw [List.foldl_cons, hstore, hload]
      cases a with
      | load =>
          have hhas : (info.record .load).hasStore = info.hasStore := by
            rw [CandidateUserBlockInfo.record]
            split <;> rfl
          have hlbs : (info.record .load).loadBeforeStore = true ↔
              info.loadBeforeStore = true ∨ info.hasStore = false := by
            rw [CandidateUserBlockInfo.record]
            cases hh : info.hasStore <;> simp
          rw [hhas, hlbs]
          refine ⟨by simp, ?_⟩
          constructor
          · rintro ((h | h) | ⟨h, -⟩)
            · exact Or.inl h
            · exact Or.inr ⟨h, [], l, rfl, List.not_mem_nil⟩
            · exact Or.inr ⟨h, [], l, rfl, List.not_mem_nil⟩
          · rintro (h | ⟨h, -⟩)
            · exact Or.inl (Or.inl h)
            · exact Or.inl (Or.inr h)
      | store =>
          have hhas : (info.record .store).hasStore = true := rfl
          have hlbs : (info.record .store).loadBeforeStore = info.loadBeforeStore := rfl
          rw [hhas, hlbs]
          refine ⟨by simp, or_congr_right (iff_of_false (by simp) ?_)⟩
          rintro ⟨-, pre, post, heq, hno⟩
          cases pre with
          | nil => exact absurd (List.cons.inj heq).1 (by decide)
          | cons a pre => exact hno ((List.cons.inj heq).1 ▸ List.mem_cons_self)

omit [DecidableEq α] in
theorem mem_defining_iff (user : UserBlocks g) :
    b ∈ (user.info.filter (fun e => e.2.hasStore)).map Prod.fst ↔ user.Stores b := by
  simp only [UserBlocks.info, UserBlocks.Stores, List.mem_map, List.mem_filter]
  constructor
  · rintro ⟨_, ⟨⟨e, he, rfl⟩, hstore⟩, rfl⟩
    exact ⟨e.2, he, ((record_spec e.2 {}).1.mp hstore).resolve_left (by simp)⟩
  · rintro ⟨l, hl, hstore⟩
    exact ⟨_, ⟨⟨(b, l), hl, rfl⟩, (record_spec l {}).1.mpr (Or.inr hstore)⟩, rfl⟩

omit [DecidableEq α] in
theorem mem_seeds_iff (user : UserBlocks g) :
    b ∈ (user.info.filter (fun e => e.2.loadBeforeStore)).map Prod.fst ↔
      user.UsedBeforeStore b := by
  simp only [UserBlocks.info, UserBlocks.UsedBeforeStore, List.mem_map, List.mem_filter]
  constructor
  · rintro ⟨_, ⟨⟨e, he, rfl⟩, hload⟩, rfl⟩
    obtain ⟨-, pre, post, heq, hno⟩ :=
      ((record_spec e.2 {}).2.mp hload).resolve_left (by simp)
    exact ⟨e.2, pre, post, he, heq, hno⟩
  · rintro ⟨l, pre, post, hl, heq, hno⟩
    exact ⟨_, ⟨⟨(b, l), hl, rfl⟩, (record_spec l {}).2.mpr (Or.inr ⟨rfl, pre, post, heq, hno⟩)⟩,
      rfl⟩

omit [DecidableEq α] in
theorem UserBlocks.Stores.mem_nodes {user : UserBlocks g} (h : user.Stores b) : b ∈ g.nodes := by
  obtain ⟨l, hl, -⟩ := h
  exact user.mem_nodes b (List.mem_map_of_mem hl)

omit [DecidableEq α] in
theorem UserBlocks.UsedBeforeStore.mem_nodes {user : UserBlocks g} (h : user.UsedBeforeStore b) :
    b ∈ g.nodes := by
  obtain ⟨l, _, _, hl, -⟩ := h
  exact user.mem_nodes b (List.mem_map_of_mem hl)

/-! ## Liveness -/

/-- The predecessors still to be pushed, once one more block is live-in. -/
theorem sum_filter_insert {f : α → Nat} {l s : List α} (hl : l.Nodup) (hv : v ∈ l) (hs : v ∉ s) :
    f v + ((l.filter (· ∉ ISet.insert s v)).map f).sum = ((l.filter (· ∉ s)).map f).sum := by
  have hperm : (v :: l.filter (· ∉ ISet.insert s v)).Perm (l.filter (· ∉ s)) := by
    refine (List.perm_ext_iff_of_nodup ?_ (hl.filter _)).mpr fun w => ?_
    · refine List.nodup_cons.mpr ⟨fun hm => ?_, hl.filter _⟩
      have hnot := (List.mem_filter.mp hm).2
      simp [ISet.mem_insert] at hnot
    · rw [List.mem_cons, List.mem_filter, List.mem_filter]
      simp only [ISet.mem_insert, decide_eq_true_eq, not_or]
      constructor
      · rintro (rfl | ⟨hw, hws, -⟩)
        · exact ⟨hv, hs⟩
        · exact ⟨hw, hws⟩
      · rintro ⟨hw, hws⟩
        by_cases heq : w = v
        · exact Or.inl heq
        · exact Or.inr ⟨hw, hws, heq⟩
  have hsum := (hperm.map f).sum_eq
  rwa [List.map_cons, List.sum_cons] at hsum

/-- What holds between two rounds of the liveness worklist. -/
structure Spreading (g : ControlFlowGraph α) (defines uses : α → Prop) (worklist : List α)
    (liveIn : ISet α) : Prop where
  mem_nodes : ∀ v, v ∈ liveIn ∨ v ∈ worklist → v ∈ g.nodes
  sound : ∀ v, v ∈ liveIn ∨ v ∈ worklist → LiveBefore g.Edge defines uses v
  seeds : ∀ v, uses v → v ∈ liveIn ∨ v ∈ worklist
  closed : ∀ v ∈ liveIn, ∀ p ∈ g.nodes, g.Edge p v → ¬ defines p → p ∈ liveIn ∨ p ∈ worklist

omit [DecidableEq α] in
/-- With an empty worklist all live-in blocks are found. -/
theorem Spreading.mem_iff {defines uses : α → Prop} {liveIn : ISet α} (hg : g.IsDigraph)
    (h : Spreading g defines uses [] liveIn) (hv : v ∈ g.nodes) :
    v ∈ liveIn ↔ LiveBefore g.Edge defines uses v := by
  refine ⟨fun hmem => h.sound v (Or.inl hmem), ?_⟩
  rintro ⟨u, hu, hvu⟩
  induction hvu using ReflTransGen.head_induction_on with
  | refl => exact (h.seeds u hu).resolve_right List.not_mem_nil
  | @head x y hxy _ ih =>
      have hy := hg.succ_mem x hv y hxy.1
      exact (h.closed y (ih hy) x hv hxy.1 hxy.2).resolve_right List.not_mem_nil

/-- One round: a block becomes live-in, and its predecessors that do not store are pushed. -/
theorem Spreading.step {defining : ISet α} {uses : α → Prop} {worklist : List α} {liveIn : ISet α}
    (hg : g.IsDigraph) (h : Spreading g (· ∈ defining) uses (v :: worklist) liveIn) :
    Spreading g (· ∈ defining) uses
      (((g.predecessors v).filter (· ∉ defining)).reverse ++ worklist) (liveIn.insert v) := by
  have hv := h.mem_nodes v (Or.inr List.mem_cons_self)
  have hlive := h.sound v (Or.inr List.mem_cons_self)
  have hpush : ∀ p, p ∈ ((g.predecessors v).filter (· ∉ defining)).reverse ↔
      p ∈ g.nodes ∧ g.Edge p v ∧ p ∉ defining := by
    intro p
    rw [List.mem_reverse, List.mem_filter, decide_eq_true_eq]
    constructor
    · rintro ⟨hp, hdef⟩
      have hpn := hg.pred_mem v hv p hp
      exact ⟨hpn, (hg.mem_preds v hv p hpn).mp hp, hdef⟩
    · rintro ⟨hpn, hpv, hdef⟩
      exact ⟨(hg.mem_preds v hv p hpn).mpr hpv, hdef⟩
  have hold : ∀ w, w ∈ liveIn ∨ w ∈ v :: worklist →
      w ∈ liveIn.insert v ∨
        w ∈ ((g.predecessors v).filter (· ∉ defining)).reverse ++ worklist := by
    rintro w (hw | hw)
    · exact Or.inl (ISet.mem_insert.mpr (Or.inl hw))
    · rcases List.mem_cons.mp hw with rfl | hw
      · exact Or.inl (ISet.mem_insert.mpr (Or.inr rfl))
      · exact Or.inr (List.mem_append_right _ hw)
  have hnew : ∀ w, w ∈ liveIn.insert v ∨
      w ∈ ((g.predecessors v).filter (· ∉ defining)).reverse ++ worklist →
      (w ∈ liveIn ∨ w ∈ v :: worklist) ∨ (w ∈ g.nodes ∧ g.Edge w v ∧ w ∉ defining) := by
    rintro w (hw | hw)
    · rcases ISet.mem_insert.mp hw with hw | rfl
      · exact Or.inl (Or.inl hw)
      · exact Or.inl (Or.inr List.mem_cons_self)
    · rcases List.mem_append.mp hw with hw | hw
      · exact Or.inr ((hpush w).mp hw)
      · exact Or.inl (Or.inr (List.mem_cons_of_mem _ hw))
  refine ⟨fun w hw => ?_, fun w hw => ?_, fun w hw => hold w (h.seeds w hw),
    fun w hw p hp hpw hdef => ?_⟩
  · rcases hnew w hw with hw | hw
    · exact h.mem_nodes w hw
    · exact hw.1
  · rcases hnew w hw with hw | ⟨-, hwv, hdef⟩
    · exact h.sound w hw
    · exact hlive.pred hwv hdef
  · rcases ISet.mem_insert.mp hw with hw | rfl
    · exact hold p (h.closed w hw p hp hpw hdef)
    · exact Or.inr (List.mem_append_left _ ((hpush p).mpr ⟨hp, hpw, hdef⟩))

/-- The worklist ends with the blocks that the slot is live into: induction on the fuel, of which a
    round takes one. -/
theorem liveInLoop_spec (hg : g.IsDigraph) {defining : ISet α} {uses : α → Prop} (fuel : Nat) :
    ∀ {worklist : List α} {liveIn : ISet α},
      Spreading g (· ∈ defining) uses worklist liveIn →
      worklist.length + ((g.nodes.filter (· ∉ liveIn)).map g.numPredecessors).sum ≤ fuel →
      ∃ all, liveInLoop g defining fuel worklist liveIn = some all ∧
        ∀ v ∈ g.nodes, v ∈ all ↔ LiveBefore g.Edge (· ∈ defining) uses v := by
  induction fuel with
  | zero =>
      intro worklist liveIn h hfuel
      obtain rfl : worklist = [] := List.length_eq_zero_iff.mp (by omega)
      exact ⟨liveIn, rfl, fun v hv => h.mem_iff hg hv⟩
  | succ fuel ih =>
      intro worklist liveIn h hfuel
      cases worklist with
      | nil => exact ⟨liveIn, rfl, fun v hv => h.mem_iff hg hv⟩
      | cons v worklist =>
          rw [List.length_cons] at hfuel
          rw [liveInLoop]
          by_cases hv : v ∈ liveIn
          · rw [if_pos hv]
            have hmem : ∀ w, w ∈ liveIn ∨ w ∈ v :: worklist ↔ w ∈ liveIn ∨ w ∈ worklist := by
              intro w
              rw [List.mem_cons]
              constructor
              · rintro (hw | rfl | hw)
                · exact Or.inl hw
                · exact Or.inl hv
                · exact Or.inr hw
              · exact Or.imp_right Or.inr
            refine ih ⟨fun w hw => h.mem_nodes w ((hmem w).mpr hw),
              fun w hw => h.sound w ((hmem w).mpr hw), fun w hw => (hmem w).mp (h.seeds w hw),
              fun w hw p hp hpw hdef => (hmem p).mp (h.closed w hw p hp hpw hdef)⟩ (by omega)
          · rw [if_neg hv]
            refine ih (h.step hg) ?_
            have hsum := sum_filter_insert (f := g.numPredecessors) hg.nodup
              (h.mem_nodes v (Or.inr List.mem_cons_self)) hv
            have hlen : ((g.predecessors v).filter (· ∉ defining)).length ≤
                g.numPredecessors v := List.length_filter_le _ _
            rw [List.length_append, List.length_reverse]
            omega

/-- The live-in blocks and the defining blocks of a candidate. -/
theorem computeCandidateLiveIn_spec (hg : g.IsDigraph) (user : UserBlocks g) :
    ∃ liveIn defining, computeCandidateLiveInAndDefiningBlocks g user.info =
        some (liveIn, defining) ∧
      (∀ b, b ∈ defining ↔ user.Stores b) ∧
      ∀ b ∈ g.nodes, b ∈ liveIn ↔ LiveBefore g.Edge user.Stores user.UsedBeforeStore b := by
  have hstores : (· ∈ (user.info.filter (fun e => e.2.hasStore)).map Prod.fst) = user.Stores :=
    funext fun b => propext (mem_defining_iff user)
  have hinit : Spreading g (· ∈ (user.info.filter (fun e => e.2.hasStore)).map Prod.fst)
      user.UsedBeforeStore
      ((user.info.filter (fun e => e.2.loadBeforeStore)).map Prod.fst).reverse [] := by
    have hseed : ∀ v, v ∈ ([] : ISet α) ∨
        v ∈ ((user.info.filter (fun e => e.2.loadBeforeStore)).map Prod.fst).reverse ↔
          user.UsedBeforeStore v := by
      intro v
      rw [List.mem_reverse, mem_seeds_iff]
      exact or_iff_right List.not_mem_nil
    refine ⟨fun v hv => ((hseed v).mp hv).mem_nodes, fun v hv => ?_, fun v hv => (hseed v).mpr hv,
      fun v hv => absurd hv List.not_mem_nil⟩
    exact ⟨v, (hseed v).mp hv, ReflTransGen.refl⟩
  obtain ⟨all, hall, hmem⟩ := liveInLoop_spec hg
    (((user.info.filter (fun e => e.2.loadBeforeStore)).map Prod.fst).length +
      (g.nodes.map g.numPredecessors).sum) hinit (by simp)
  refine ⟨all, _, ?_, fun b => mem_defining_iff user, fun b hb => ?_⟩
  · rw [computeCandidateLiveInAndDefiningBlocks]
    simp only [hall, Option.bind_eq_bind, Option.bind_some]
  · rw [hmem b hb, hstores]

/-! ## Placement -/

/-- Going over a frontier: what is live-in and new is chosen, and pushed unless it stores. -/
theorem visitFrontier_spec {liveIn defining : ISet α} (frontier : List α) :
    ∀ {phis : ISet α} (worklist : List α), phis.Nodup →
      ∃ fresh pushed, visitFrontier liveIn defining frontier phis worklist =
          (phis ++ fresh, pushed ++ worklist) ∧ (phis ++ fresh).Nodup ∧
        (∀ w ∈ fresh, w ∈ frontier ∧ w ∈ liveIn) ∧
        (∀ w ∈ frontier, w ∈ liveIn → w ∈ phis ++ fresh) ∧
        pushed.length ≤ fresh.length ∧ (∀ w ∈ pushed, w ∈ fresh) ∧
        ∀ w ∈ fresh, w ∉ defining → w ∈ pushed := by
  induction frontier with
  | nil =>
      intro phis worklist hphis
      refine ⟨[], [], by rw [List.append_nil]; rfl, by rwa [List.append_nil], ?_, ?_, Nat.le_refl _,
        ?_, ?_⟩ <;> exact fun _ h => absurd h List.not_mem_nil
  | cons b frontier ih =>
      intro phis worklist hphis
      rw [visitFrontier]
      by_cases hlive : b ∈ liveIn
      · rw [if_neg (not_not_intro hlive)]
        -- a block that has a phi is not looked at again
        by_cases hmem : b ∈ phis
        · rw [if_pos hmem]
          obtain ⟨fresh, pushed, hrun, hnodup, hfresh, hall, hrest⟩ := ih worklist hphis
          refine ⟨fresh, pushed, hrun, hnodup, fun w hw => ?_, fun w hw hwl => ?_, hrest⟩
          · exact ⟨List.mem_cons_of_mem _ (hfresh w hw).1, (hfresh w hw).2⟩
          · rcases List.mem_cons.mp hw with rfl | hw
            · exact List.mem_append_left _ hmem
            · exact hall w hw hwl
        · rw [if_neg hmem]
          have hinsert : phis.insert b = phis ++ [b] := if_neg hmem
          have hphis' : (phis.insert b).Nodup := by
            rw [hinsert]
            refine List.nodup_append.mpr ⟨hphis, List.nodup_singleton b, fun a ha c hc heq => ?_⟩
            rw [List.mem_singleton] at hc
            exact hmem (hc ▸ heq ▸ ha)
          obtain ⟨fresh, pushed, hrun, hnodup, hfresh, hall, hlen, hpushed, hdef⟩ :=
            ih (if b ∈ defining then worklist else b :: worklist) hphis'
          rw [hinsert, List.append_assoc, List.singleton_append] at hrun hnodup hall
          have hfresh' : ∀ w ∈ b :: fresh, w ∈ b :: frontier ∧ w ∈ liveIn := by
            intro w hw
            rcases List.mem_cons.mp hw with rfl | hw
            · exact ⟨List.mem_cons_self, hlive⟩
            · exact ⟨List.mem_cons_of_mem _ (hfresh w hw).1, (hfresh w hw).2⟩
          have hall' : ∀ w ∈ b :: frontier, w ∈ liveIn → w ∈ phis ++ b :: fresh := by
            intro w hw hwl
            rcases List.mem_cons.mp hw with rfl | hw
            · exact List.mem_append_right _ List.mem_cons_self
            · exact hall w hw hwl
          rw [hinsert]
          -- a block that defines the slot is on the worklist from the start
          by_cases hbdef : b ∈ defining
          · rw [if_pos hbdef] at hrun
            refine ⟨b :: fresh, pushed, by rw [if_pos hbdef]; exact hrun, hnodup, hfresh', hall',
              Nat.le_succ_of_le hlen, fun w hw => List.mem_cons_of_mem _ (hpushed w hw),
              fun w hw hwd => ?_⟩
            rcases List.mem_cons.mp hw with rfl | hw
            · exact absurd hbdef hwd
            · exact hdef w hw hwd
          · rw [if_neg hbdef] at hrun
            refine ⟨b :: fresh, pushed ++ [b], ?_, hnodup, hfresh', hall', ?_, fun w hw => ?_,
              fun w hw hwd => ?_⟩
            · rw [if_neg hbdef, hrun, List.append_assoc, List.singleton_append]
            · rw [List.length_append, List.length_singleton, List.length_cons]
              omega
            · rcases List.mem_append.mp hw with hw | hw
              · exact List.mem_cons_of_mem _ (hpushed w hw)
              · rw [List.mem_singleton.mp hw]
                exact List.mem_cons_self
            · rcases List.mem_cons.mp hw with rfl | hw
              · exact List.mem_append_right _ (List.mem_singleton_self w)
              · exact List.mem_append_left _ (hdef w hw hwd)
      · rw [if_pos hlive]
        obtain ⟨fresh, pushed, hrun, hnodup, hfresh, hall, hrest⟩ := ih worklist hphis
        refine ⟨fresh, pushed, hrun, hnodup, fun w hw => ?_, fun w hw hwl => ?_, hrest⟩
        · exact ⟨List.mem_cons_of_mem _ (hfresh w hw).1, (hfresh w hw).2⟩
        · rcases List.mem_cons.mp hw with rfl | hw
          · exact absurd hwl hlive
          · exact hall w hw hwl

/-- What holds between two rounds of the placement worklist. -/
structure Placing (nodes : List α) (R : α → α → Prop) (defines : α → Prop) (worklist : List α)
    (phis : ISet α) : Prop where
  nodup : phis.Nodup
  mem_nodes : ∀ v ∈ phis, v ∈ nodes
  sound : ∀ v ∈ phis, ∃ d, defines d ∧ TransGen R d v
  pending : ∀ v ∈ worklist, defines v ∨ v ∈ phis
  done : ∀ v, defines v ∨ v ∈ phis → v ∉ worklist → ∀ w, R v w → w ∈ phis

omit [DecidableEq α] in
/-- With an empty worklist all blocks that the definitions lead to are chosen. -/
theorem Placing.mem_iff {nodes : List α} {R : α → α → Prop} {defines : α → Prop} {phis : ISet α}
    (h : Placing nodes R defines [] phis) :
    v ∈ phis ↔ ∃ d, defines d ∧ TransGen R d v := by
  refine ⟨h.sound v, ?_⟩
  rintro ⟨d, hd, hdv⟩
  induction hdv with
  | single hdw => exact h.done d (Or.inl hd) List.not_mem_nil _ hdw
  | tail _ huw ih => exact h.done _ (Or.inr ih) List.not_mem_nil _ huw

/-- One round: the frontier of a block is gone over. -/
theorem Placing.step {nodes frontier : List α} {F : α → α → Prop} {liveIn defining : ISet α}
    {worklist : List α} {phis : ISet α} (hF : ∀ a b, F a b → b ∈ nodes)
    (h : Placing nodes (fun a b => F a b ∧ b ∈ liveIn) (· ∈ defining) (b :: worklist) phis)
    (hmem : ∀ w, w ∈ frontier ↔ F b w) :
    ∃ fresh pushed, visitFrontier liveIn defining frontier phis worklist =
        (phis ++ fresh, pushed ++ worklist) ∧
      Placing nodes (fun a b => F a b ∧ b ∈ liveIn) (· ∈ defining) (pushed ++ worklist)
        (phis ++ fresh) ∧ pushed.length ≤ fresh.length := by
  obtain ⟨fresh, pushed, hrun, hnodup, hfresh, hall, hlen, hpushed, hdef⟩ :=
    visitFrontier_spec frontier worklist h.nodup
  refine ⟨fresh, pushed, hrun, ⟨hnodup, fun v hv => ?_, fun v hv => ?_, fun v hv => ?_,
    fun v hv hnot w hvw => ?_⟩, hlen⟩
  · rcases List.mem_append.mp hv with hv | hv
    · exact h.mem_nodes v hv
    · exact hF b v ((hmem v).mp (hfresh v hv).1)
  · rcases List.mem_append.mp hv with hv | hv
    · exact h.sound v hv
    · -- a fresh block is one step from `b`
      obtain ⟨hvf, hvl⟩ := hfresh v hv
      have hbv := And.intro ((hmem v).mp hvf) hvl
      rcases h.pending b List.mem_cons_self with hd | hp
      · exact ⟨b, hd, TransGen.single hbv⟩
      · obtain ⟨d, hd, hdb⟩ := h.sound b hp
        exact ⟨d, hd, hdb.tail hbv⟩
  · rcases List.mem_append.mp hv with hv | hv
    · exact Or.inr (List.mem_append_right _ (hpushed v hv))
    · exact (h.pending v (List.mem_cons_of_mem _ hv)).imp_right (List.mem_append_left _)
  · rw [List.mem_append, not_or] at hnot
    by_cases hvb : v = b
    · subst hvb
      exact hall w ((hmem w).mpr hvw.1) hvw.2
    · have hold : v ∈ defining ∨ v ∈ phis := by
        rcases hv with hv | hv
        · exact Or.inl hv
        · rcases List.mem_append.mp hv with hv | hv
          · exact Or.inr hv
          · -- a fresh block that does not store is pending
            by_contra hnone
            exact hnot.1 (hdef v hv fun hd => hnone (Or.inl hd))
      have hpend : v ∉ b :: worklist := by
        rw [List.mem_cons, not_or]
        exact ⟨hvb, hnot.2⟩
      exact List.mem_append_left _ (h.done v hold hpend w hvw)

/-- The worklist ends with what the definitions lead to: induction on the fuel. -/
theorem phiLoop_spec {nodes : List α} {F : α → α → Prop} {dfMap : DomFrontierMap α}
    {liveIn defining : ISet α} (hdf : DomFrontierMap.Holds nodes F dfMap)
    (hdefining : ∀ d ∈ defining, d ∈ nodes) (hF : ∀ a b, F a b → b ∈ nodes) (fuel : Nat) :
    ∀ {worklist : List α} {phis : ISet α},
      Placing nodes (fun a b => F a b ∧ b ∈ liveIn) (· ∈ defining) worklist phis →
      worklist.length + nodes.length ≤ phis.length + fuel →
      ∃ all, phiLoop dfMap liveIn defining fuel worklist phis = some all ∧
        ∀ v, v ∈ all ↔ ∃ d ∈ defining, TransGen (fun a b => F a b ∧ b ∈ liveIn) d v := by
  induction fuel with
  | zero =>
      intro worklist phis h hfuel
      have hle : phis.length ≤ nodes.length := (h.nodup.subperm h.mem_nodes).length_le
      obtain rfl : worklist = [] := List.length_eq_zero_iff.mp (by omega)
      exact ⟨phis, rfl, fun v => h.mem_iff⟩
  | succ fuel ih =>
      intro worklist phis h hfuel
      cases worklist with
      | nil => exact ⟨phis, rfl, fun v => h.mem_iff⟩
      | cons b worklist =>
          have hb : b ∈ nodes := by
            rcases h.pending b List.mem_cons_self with hd | hp
            · exact hdefining b hd
            · exact h.mem_nodes b hp
          obtain ⟨frontier, hfrontier, hmem⟩ := hdf b hb
          obtain ⟨fresh, pushed, hrun, hstep, hlen⟩ := h.step hF hmem
          obtain ⟨all, hall, hspec⟩ := ih hstep (by
            rw [List.length_cons] at hfuel
            rw [List.length_append, List.length_append]
            omega)
          refine ⟨all, ?_, hspec⟩
          rw [phiLoop, DomFrontierMap.frontier, hfrontier, Option.bind_eq_bind, Option.bind_some,
            hrun]
          exact hall

/-! ## Correctness -/

/-- The chosen blocks are those of the iterated dominance frontier of the blocks that store that are
    also live-in. -/
def PlacementExact (g : ControlFlowGraph α) (r : α) (user : UserBlocks g) : Prop :=
  ∃ phis, computePhiBlocksInRegion g user = some phis ∧
    ∀ b, b ∈ phis ↔ InIteratedFrontier g.Edge r user.Stores b ∧
      LiveBefore g.Edge user.Stores user.UsedBeforeStore b

/-- The chosen blocks are what the pruned frontiers lead to without passing the entry. -/
theorem computePhiBlocksInRegion_spec (hg : g.IsDigraph) (hr : g.entryNode = some r)
    (hentry : g.numPredecessors r < 2) (user : UserBlocks g) :
    ∃ phis, computePhiBlocksInRegion g user = some phis ∧
      ∀ b, b ∈ phis ↔ ∃ d, user.Stores d ∧
        TransGen (fun a b => (b ≠ r ∧ InDomFrontier g.Edge r a b) ∧
          LiveBefore g.Edge user.Stores user.UsedBeforeStore b) d b := by
  have hrn := hg.entry_mem hr
  obtain ⟨t, ht, htree⟩ := Dominance.computeDominatorTree_spec hg.toValid hr
  obtain ⟨df, hdf, hholds⟩ := DomFrontierMap.new_spec hg htree hrn hentry
  have hfrontiers : DomFrontierMap.Holds g.nodes
      (fun a b => b ≠ r ∧ InDomFrontier g.Edge r a b) df := hholds
  obtain ⟨liveIn, defining, hlive, hdefining, hlivemem⟩ := computeCandidateLiveIn_spec hg user
  have hnodes : ∀ a b, b ≠ r ∧ InDomFrontier g.Edge r a b → b ∈ g.nodes :=
    fun a b h => hg.mem_of_reach hrn h.2.reach.2.1
  have hinit : Placing g.nodes (fun a b => (b ≠ r ∧ InDomFrontier g.Edge r a b) ∧ b ∈ liveIn)
      (· ∈ defining) defining.reverse [] := by
    refine ⟨List.nodup_nil, fun v hv => absurd hv List.not_mem_nil,
      fun v hv => absurd hv List.not_mem_nil, fun v hv => Or.inl (List.mem_reverse.mp hv),
      fun v hv hnot => ?_⟩
    rcases hv with hv | hv
    · exact absurd (List.mem_reverse.mpr hv) hnot
    · exact absurd hv List.not_mem_nil
  obtain ⟨phis, hphis, hmem⟩ := phiLoop_spec hfrontiers
    (fun d hd => ((hdefining d).mp hd).mem_nodes) hnodes (defining.length + g.nodes.length) hinit
    (by rw [List.length_reverse, List.length_nil]; omega)
  refine ⟨phis, ?_, fun b => ?_⟩
  · rw [computePhiBlocksInRegion]
    simp only [ht, hdf, hlive, Option.bind_eq_bind, Option.bind_some]
    exact hphis
  · have hrel : (fun a b => (b ≠ r ∧ InDomFrontier g.Edge r a b) ∧ b ∈ liveIn) =
        fun a b => (b ≠ r ∧ InDomFrontier g.Edge r a b) ∧
          LiveBefore g.Edge user.Stores user.UsedBeforeStore b := by
      funext a b
      exact propext (and_congr_right fun h => hlivemem b (hnodes a b h))
    rw [hmem, hrel]
    exact exists_congr fun d => and_congr_left fun _ => hdefining d

/-- An entry with two predecessors makes the pass panic. -/
theorem computePhiBlocksInRegion_eq_none (hg : g.IsDigraph) (hr : g.entryNode = some r)
    (hentry : 2 ≤ g.numPredecessors r) (user : UserBlocks g) :
    computePhiBlocksInRegion g user = none := by
  obtain ⟨t, ht, htree⟩ := Dominance.computeDominatorTree_spec hg.toValid hr
  rw [computePhiBlocksInRegion, ht, Option.bind_eq_bind, Option.bind_some,
    DomFrontierMap.new_eq_none htree (hg.entry_mem hr) hentry]
  rfl

/-- Placement is exact exactly when the entry has at most one predecessor and, where the slot is
    live into the entry, no reachable block that stores leads back to it. -/
theorem placementExact_iff (hg : g.IsDigraph) (hr : g.entryNode = some r) (user : UserBlocks g) :
    PlacementExact g r user ↔ g.numPredecessors r < 2 ∧
      ¬ (LiveBefore g.Edge user.Stores user.UsedBeforeStore r ∧
        ∃ d, user.Stores d ∧ g.Reachable d ∧ TransGen g.Edge d r) := by
  constructor
  · rintro ⟨phis, hphis, hmem⟩
    have hentry : g.numPredecessors r < 2 := by
      by_contra hmany
      rw [computePhiBlocksInRegion_eq_none hg hr (Nat.le_of_not_lt hmany)] at hphis
      exact nomatch hphis
    refine ⟨hentry, ?_⟩
    rintro ⟨hlive, d, hd, ⟨r', hr', hrd⟩, hdr⟩
    obtain rfl := Option.some.inj (hr'.symm.trans hr)
    -- the entry would have to be chosen, but no frontier holds it
    have hin := (hmem r').mpr ⟨⟨d, hd, iterated_root hrd hdr⟩, hlive⟩
    obtain ⟨phis', hphis', hmem'⟩ := computePhiBlocksInRegion_spec hg hr hentry user
    obtain rfl := Option.some.inj (hphis.symm.trans hphis')
    obtain ⟨d', -, hd'r⟩ := (hmem' r').mp hin
    obtain ⟨w, -, hwr⟩ := TransGen.tail'_iff.mp hd'r
    exact hwr.1.1 rfl
  · rintro ⟨hentry, hback⟩
    obtain ⟨phis, hphis, hmem⟩ := computePhiBlocksInRegion_spec hg hr hentry user
    refine ⟨phis, hphis, fun b => ?_⟩
    have hlive : ∀ u v, g.Edge u v → LiveBefore g.Edge user.Stores user.UsedBeforeStore v →
        ¬ user.Stores u → LiveBefore g.Edge user.Stores user.UsedBeforeStore u :=
      fun u v huv hv hu => hv.pred huv hu
    rw [hmem, ← pruned_iff hlive]
    refine exists_congr fun d => and_congr_right fun hd => ?_
    constructor
    · exact fun hdb => TransGen.mono (fun _ _ h => ⟨h.1.2, h.2⟩) _ _ hdb
    · -- a chain that passes the entry would lead from a block that stores back to it
      have hne : ∀ v, TransGen (fun a b => InDomFrontier g.Edge r a b ∧
          LiveBefore g.Edge user.Stores user.UsedBeforeStore b) d v → v ≠ r := by
        rintro v hdv rfl
        obtain ⟨hrd, -, hpath⟩ := reach_of_iterated (TransGen.mono (fun _ _ h => h.1) _ _ hdv)
        obtain ⟨w, -, hwv⟩ := TransGen.tail'_iff.mp hdv
        exact hback ⟨hwv.2, d, hd, ⟨v, hr, hrd⟩, hpath⟩
      intro hdb
      induction hdb with
      | single h => exact TransGen.single ⟨⟨hne _ (TransGen.single h), h.1⟩, h.2⟩
      | tail hdu huv ih => exact TransGen.tail ih ⟨⟨hne _ (hdu.tail huv), huv.1⟩, huv.2⟩

/-- The slot of a loop counter: stored before the loop and in its body, and used at its head. -/
def loopUserBlocks : UserBlocks (arenaGraph [[1], [2, 3], [1], []]) where
  accesses := [(0, [.store]), (1, [.load]), (2, [.load, .store]), (3, [.load])]
  nodup := by decide
  mem_nodes := by decide

theorem placementExact_iff_loop :
    PlacementExact (arenaGraph [[1], [2, 3], [1], []]) 0 loopUserBlocks ↔
      (arenaGraph [[1], [2, 3], [1], []]).numPredecessors 0 < 2 ∧
        ¬ (LiveBefore (arenaGraph [[1], [2, 3], [1], []]).Edge loopUserBlocks.Stores
            loopUserBlocks.UsedBeforeStore 0 ∧
          ∃ d, loopUserBlocks.Stores d ∧ (arenaGraph [[1], [2, 3], [1], []]).Reachable d ∧
            TransGen (arenaGraph [[1], [2, 3], [1], []]).Edge d 0) :=
  placementExact_iff (arenaGraph_isDigraph (by decide)) rfl loopUserBlocks

/-- The slot is used, and then stored to, in an entry that is a loop. -/
def entryLoopUserBlocks (succs : List (List Nat)) (h : 0 < succs.length) :
    UserBlocks (arenaGraph succs) where
  accesses := [(0, [.load, .store])]
  nodup := List.nodup_singleton 0
  mem_nodes := by
    rintro b hb
    rw [List.mem_singleton.mp hb]
    exact List.mem_range.mpr h

/-- The self loop of the entry gets no argument, and a second predecessor makes the pass panic. -/
theorem not_placementExact_entryLoop :
    ¬ PlacementExact (arenaGraph [[0, 1], []]) 0 (entryLoopUserBlocks [[0, 1], []] (by decide)) ∧
      computePhiBlocksInRegion (arenaGraph [[0, 1], []])
        (entryLoopUserBlocks [[0, 1], []] (by decide)) = some [] ∧
      computePhiBlocksInRegion (arenaGraph [[0, 1], [0]])
        (entryLoopUserBlocks [[0, 1], [0]] (by decide)) = none := by
  refine ⟨?_, by decide +kernel, by decide +kernel⟩
  rintro ⟨phis, hphis, hmem⟩
  have hrun : computePhiBlocksInRegion (arenaGraph [[0, 1], []])
      (entryLoopUserBlocks [[0, 1], []] (by decide)) = some [] := by decide +kernel
  obtain rfl := Option.some.inj (hphis.symm.trans hrun)
  have hedge : (arenaGraph [[0, 1], []]).Edge 0 0 := by decide
  have hin := (hmem 0).mpr ⟨⟨0, ⟨_, List.mem_cons_self, by decide⟩,
    iterated_root (Reach.refl 0) (TransGen.single hedge)⟩,
    0, ⟨_, [], [.store], List.mem_cons_self, rfl, List.not_mem_nil⟩, ReflTransGen.refl⟩
  exact absurd hin List.not_mem_nil

end Mem2Reg

end Pliron
