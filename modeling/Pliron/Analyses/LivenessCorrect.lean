/-
  Pliron.Analyses.LivenessCorrect

  When the liveness queries are right.

  Both queries only answer yes when the value is live.  They miss a live value
  when no path they see leads to a use: the live-out query sees the reduced paths
  and those with an early back edge, and so does the live-in query on an
  irreducible graph, while on a reducible graph it sees the reduced paths from
  the candidate that `reduce` picks.
-/

import Pliron.Analyses.LivenessQuery

namespace Pliron

open Pliron.Lib BitSet Traversals Relation

/-! ## Liveness of a value whose uses are dominated -/

section Dominated

variable {α : Type} {g : ControlFlowGraph α} {r d q u : α} {U : α → Prop}

/-- A live-in block is strictly dominated by the definition. -/
theorem LiveIn.strictlyDominates (hU : ∀ u, U u → Reach g.Edge r u ∧ Dominates g.Edge r d u)
    (h : LiveIn g.Edge d U q) : StrictlyDominates g.Edge r d q := by
  obtain ⟨_, u, hu, hqu⟩ := h
  exact StrictlyDominates.of_avoids (hU u hu).2 hqu

/-- A block other than the definition where the value is live-out is live-in at its start. -/
theorem LiveOut.strictlyDominates (hU : ∀ u, U u → Reach g.Edge r u ∧ Dominates g.Edge r d u)
    (h : LiveOut g.Edge d U q) (hqd : q ≠ d) : StrictlyDominates g.Edge r d q := by
  obtain ⟨s, hqs, u, hu, hsu⟩ := h
  exact StrictlyDominates.of_avoids (hU u hu).2 (hsu.head hqs hqd)

/-- After the definition, a use elsewhere is reached without coming back to it. -/
theorem exists_avoids_of_reach {E : α → α → Prop} (h : Reach E d u) (hne : u ≠ d) :
    ∃ s, E d s ∧ Avoids E d s u := by
  induction h with
  | refl => exact absurd rfl hne
  | @tail b c _ hbc ih =>
      by_cases hb : b = d
      · subst hb
        exact ⟨c, hbc, Avoids.refl hne⟩
      · obtain ⟨s, hs, hav⟩ := ih hb
        exact ⟨s, hs, hav.tail hbc hne⟩

theorem liveOut_of_avoids {E : α → α → Prop} (hu : U u) (hne : u ≠ q) (h : Avoids E d q u) :
    LiveOut E d U q := by
  rcases h.cases_head with rfl | ⟨s, hqs, hsu⟩
  · exact absurd rfl hne
  · exact ⟨s, hqs, u, hu, hsu⟩

/-- Live-out of the definition block: some use is in another block. -/
theorem liveOut_def_iff (hU : ∀ u, U u → Reach g.Edge r u ∧ Dominates g.Edge r d u) :
    LiveOut g.Edge d U d ↔ ∃ u, U u ∧ u ≠ d := by
  constructor
  · rintro ⟨s, _, u, hu, hsu⟩
    exact ⟨u, hu, hsu.right_ne⟩
  · rintro ⟨u, hu, hne⟩
    have hdu : Reach g.Edge d u := ((hU u hu).2.reach (hU u hu).1).2
    obtain ⟨s, hds, hsu⟩ := exists_avoids_of_reach hdu hne
    exact ⟨s, hds, u, hu, hsu⟩

end Dominated

namespace LivenessTq

/-! ## What is seen is live -/

section Sound

variable {α : Type} [DecidableEq α] {g : ControlFlowGraph α} {r d q u : α} {U : α → Prop}

variable (hg : g.Valid) (hr : r ∈ g.nodes)

include hg hr

/-- A back-edge target lies on a cycle that avoids its strict dominators. -/
theorem cycle_of_target (hdq : StrictlyDominates g.Edge r d q) (hq : Reach g.Edge r q)
    (hqt : IsTarget g r q) : ∃ s, g.Edge q s ∧ Avoids g.Edge d s q := by
  obtain ⟨p, hp, hback⟩ := hqt
  have hred : Reach (Red g r) q p := (search_isDfsOrder hg.closed hr).reduced_of_ancestor hq hp hback.2
  have hav : Avoids g.Edge d q p := edge_of_red (avoids_red hg hr hq hdq hred)
  have hqd : q ≠ d := Ne.symm hdq.2
  rcases hav.cases_head with rfl | ⟨s, hqs, hsp⟩
  · exact ⟨q, hback.1, Avoids.refl hqd⟩
  · exact ⟨s, hqs, hsp.tail hback.1 hqd⟩

theorem liveOut_of_earlyBack (hdq : StrictlyDominates g.Edge r d q) (hq : Reach g.Edge r q)
    (hu : U u) (h : EarlyBack g r d q u) : LiveOut g.Edge d U q := by
  cases h with
  | target hqt hqu =>
      by_cases hne : u = q
      · subst hne
        obtain ⟨s, hus, hsu⟩ := cycle_of_target hg hr hdq hq hqt
        exact ⟨s, hus, u, hu, hsu⟩
      · exact liveOut_of_avoids hu hne hqu
  | back _ hqt htu => exact ⟨_, hqt.1, u, hu, htu⟩
  | plain _ _ _ hqq hqu => exact ⟨_, hqq.1, u, hu, hqu.avoids⟩

/-- The live-out query only looks for what makes the value live. -/
theorem SeenOut.liveOut (h : SeenOut g r d U q) (hdq : StrictlyDominates g.Edge r d q)
    (hq : Reach g.Edge r q) : LiveOut g.Edge d U q := by
  obtain ⟨u, hu, ⟨hne, hqu⟩ | hqu⟩ := h
  · exact liveOut_of_avoids hu hne (edge_of_red hqu)
  · exact liveOut_of_earlyBack hg hr hdq hq hu hqu

/-- And so does the live-in query. -/
theorem SeenIn.liveIn (hU : ∀ u, U u → Reach g.Edge r u ∧ Dominates g.Edge r d u)
    (h : SeenIn g r d U q) (hdq : StrictlyDominates g.Edge r d q) (hq : Reach g.Edge r q) :
    LiveIn g.Edge d U q := by
  refine ⟨Ne.symm hdq.2, ?_⟩
  have hseen : ∃ u, U u ∧ (Avoids (Red g r) d q u ∨ EarlyBack g r d q u) := by
    by_cases hR : Reducible g r
    · obtain ⟨m, u, hm, hu, hmu⟩ := h.1 hR
      exact ⟨u, hu, (exists_candidate_iff hg hr hq hdq (hU u hu).2).mp ⟨m, hm.candidate, hmu⟩⟩
    · exact h.2 hR
  obtain ⟨u, hu, hqu | hqu⟩ := hseen
  · exact ⟨u, hu, edge_of_red hqu⟩
  · exact ⟨u, hu, hqu.avoids⟩

end Sound

end LivenessTq

/-! ## Uses as blocks of a region -/

namespace Context

variable (ctx : Context) (region : RegionPtr)

/-- The block of the region in which a use happens, in an operation of the block itself or in
    one nested in it. -/
def useBlockIn (u : Use) : Option BlockPtr :=
  (ctx.opParentBlock u.userOp).bind
    (fun userBlock => ctx.findAncestorBlockOfBlockInRegion userBlock region)

/-- Block `b` of the region uses `value`. -/
def UsedIn (value : Value) (b : BlockPtr) : Prop :=
  ∃ uses, ctx.valueUses value = some uses ∧ ∃ u ∈ uses, ctx.useBlockIn region u = some b

/-- A query for `value`, defined in block `d`, at the reachable block `q` of a region with
    entry `r`, all uses being in reachable blocks dominated by `d`. -/
structure LivenessQuery (r : BlockPtr) (value : Value) (d q : BlockPtr) : Prop where
  graph : (ctx.regionGraph region).Valid
  entry : ctx.entryBlock region = some r
  defBlock : ctx.valueParentBlock value = some d
  defRegion : ctx.blockParentRegion d = some region
  queryRegion : ctx.blockParentRegion q = some region
  queryReach : Reach (ctx.regionGraph region).Edge r q
  defined : ∃ uses, ctx.valueUses value = some uses ∧ ∀ u ∈ uses, ∃ b,
    ctx.useBlockIn region u = some b ∧ Reach (ctx.regionGraph region).Edge r b ∧
      Dominates (ctx.regionGraph region).Edge r d b

end Context

namespace LivenessTq

section Queries

variable {ctx : Context} {region : RegionPtr} {r d q : BlockPtr} {value : Value}

/-- The precomputation of a region succeeds. -/
theorem ofRegion_spec (hg : (ctx.regionGraph region).Valid)
    (hr : ctx.entryBlock region = some r) :
    ∃ lv, ofRegion ctx region = some lv ∧ Spec (ctx.regionGraph region) r lv := by
  obtain ⟨t, ht, htree⟩ := Dominance.computeDominatorTree_spec hg hr
  obtain ⟨lv, hlv, hspec⟩ := new_spec hg hr htree
  exact ⟨lv, by rw [ofRegion, ht]; exact hlv, hspec⟩

/-- What one use does to the set of use blocks. -/
def useBlocksStep (ctx : Context) (region : RegionPtr) (lv : LivenessTq BlockPtr)
    (useBlocks : BitSet) (u : Use) : Option BitSet := do
  let userBlock ← ctx.opParentBlock u.userOp
  let ancestor ← ctx.findAncestorBlockOfBlockInRegion userBlock region
  match lv.blockIndex ancestor with
  | none => some useBlocks
  | some useIdx => some (insert useIdx useBlocks)

/-- All uses are analysable, and their blocks are collected. -/
theorem useBlocksInRegion_spec (h : ctx.LivenessQuery region r value d q)
    {lv : LivenessTq BlockPtr} (hlv : Spec (ctx.regionGraph region) r lv) :
    ∃ s, lv.useBlocksInRegion ctx region value = some (some s) ∧
      IsSetOf (Dominance.rpo (ctx.regionGraph region) r) s (ctx.UsedIn region value) := by
  obtain ⟨uses, huses, hall⟩ := h.defined
  have hr := h.graph.entry_mem h.entry
  have hgen : ∀ (us : List Use), (∀ u ∈ us, ∃ b, ctx.useBlockIn region u = some b ∧
      Reach (ctx.regionGraph region).Edge r b) → ∀ (s : BitSet) (P : BlockPtr → Prop),
      IsSetOf (Dominance.rpo (ctx.regionGraph region) r) s P →
      ∃ s', us.foldlM (lv.useBlocksStep ctx region) s = some s' ∧
        IsSetOf (Dominance.rpo (ctx.regionGraph region) r) s'
          (fun b => P b ∨ ∃ u ∈ us, ctx.useBlockIn region u = some b) := by
    intro us
    induction us with
    | nil =>
        intro _ s P hs
        exact ⟨s, rfl, hs.congr (fun b _ => by simp)⟩
    | cons u us ih =>
        intro hus s P hs
        obtain ⟨b, hb, hrb⟩ := hus u List.mem_cons_self
        obtain ⟨userBlock, hub, hanc⟩ := Option.bind_eq_some_iff.mp hb
        obtain ⟨i, hi, rfl⟩ := List.getElem_of_mem ((Dominance.mem_rpo h.graph hr).mpr hrb)
        have hib := List.getElem?_eq_getElem hi
        obtain ⟨s', hs', hset⟩ := ih (fun v hv => hus v (List.mem_cons_of_mem u hv)) _ _
          (IsSetOf.insert Dominance.rpo_nodup hib hs)
        refine ⟨s', ?_, hset.congr (fun c _ => ?_)⟩
        · rw [List.foldlM_cons]
          simp only [useBlocksStep, hub, hanc, hlv.blockIndex_eq_some hib, Option.bind_eq_bind,
            Option.bind_some]
          exact hs'
        · simp only [List.mem_cons, exists_eq_or_imp, hb, Option.some.injEq]
          constructor
          · rintro ((rfl | hP) | hu)
            · exact Or.inr (Or.inl rfl)
            · exact Or.inl hP
            · exact Or.inr (Or.inr hu)
          · rintro (hP | heq | hu)
            · exact Or.inl (Or.inr hP)
            · exact Or.inl (Or.inl heq.symm)
            · exact Or.inr hu
  obtain ⟨s, hs, hset⟩ := hgen uses (fun u hu => by
    obtain ⟨b, hb, hrb, _⟩ := hall u hu
    exact ⟨b, hb, hrb⟩) ∅ (fun _ => False) (IsSetOf.empty (fun _ _ hf => hf))
  refine ⟨s, ?_, hset.congr (fun b _ => ?_)⟩
  · rw [useBlocksInRegion, huses]
    exact congrArg some hs
  · simp only [false_or]
    constructor
    · exact fun hu => ⟨uses, huses, hu⟩
    · rintro ⟨uses', huses', hu⟩
      rwa [Option.some.inj (huses'.symm.trans huses)] at hu

theorem used_dominated (h : ctx.LivenessQuery region r value d q) (b : BlockPtr)
    (hb : ctx.UsedIn region value b) : Reach (ctx.regionGraph region).Edge r b ∧
      Dominates (ctx.regionGraph region).Edge r d b := by
  obtain ⟨uses, huses, hall⟩ := h.defined
  obtain ⟨uses', huses', u, hu, hub⟩ := hb
  rw [Option.some.inj (huses'.symm.trans huses)] at hu
  obtain ⟨b', hb', hdom⟩ := hall u hu
  rwa [Option.some.inj (hub.symm.trans hb')]

/-- The live-in query at a block that control reaches. -/
theorem isLiveInAtBlock_spec (h : ctx.LivenessQuery region r value d q) :
    ∃ lv b, ofRegion ctx region = some lv ∧ lv.isLiveInAtBlock ctx region value q = some b ∧
      (b = true ↔ StrictlyDominates (ctx.regionGraph region).Edge r d q ∧
        SeenIn (ctx.regionGraph region) r d (ctx.UsedIn region value) q) := by
  obtain ⟨lv, hlv, hspec⟩ := ofRegion_spec h.graph h.entry
  have hr := h.graph.entry_mem h.entry
  have hU := used_dominated h
  obtain ⟨uses, huses, hset⟩ := useBlocksInRegion_spec h hspec
  obtain ⟨qi, hq⟩ := List.getElem?_of_mem ((Dominance.mem_rpo h.graph hr).mpr h.queryReach)
  have hguard : ctx.blockParentRegion q = some region ∧ ctx.blockParentRegion d = some region :=
    ⟨h.queryRegion, h.defRegion⟩
  by_cases hdr : Reach (ctx.regionGraph region).Edge r d
  · obtain ⟨di, hd⟩ := List.getElem?_of_mem ((Dominance.mem_rpo h.graph hr).mpr hdr)
    obtain ⟨b, hb, hiff⟩ := isLiveInAtIndex_spec hspec h.graph hr hU hset hd hq
    refine ⟨lv, b, hlv, ?_, hiff⟩
    simp [isLiveInAtBlock, h.defBlock, hguard, guard, hspec.blockIndex_eq_some hd,
      hspec.blockIndex_eq_some hq, huses, hb]
  · -- an unreachable definition dominates no block that control reaches
    have hnone : d ∉ Dominance.rpo (ctx.regionGraph region) r := fun hmem =>
      hdr ((Dominance.mem_rpo h.graph hr).mp hmem)
    refine ⟨lv, false, hlv, ?_, ?_⟩
    · simp [isLiveInAtBlock, h.defBlock, hguard, guard, hspec.blockIndex_eq_none hnone]
    · simp only [Bool.false_eq_true, false_iff, not_and]
      exact fun hdq => absurd (hdq.1.reach h.queryReach).1 hdr

/-- The live-out query at a block that control reaches. -/
theorem isLiveOutOfBlock_spec (h : ctx.LivenessQuery region r value d q) :
    ∃ lv b, ofRegion ctx region = some lv ∧ lv.isLiveOutOfBlock ctx region value q = some b ∧
      (b = true ↔ (q = d ∧ ∃ u, ctx.UsedIn region value u ∧ u ≠ d) ∨
        (StrictlyDominates (ctx.regionGraph region).Edge r d q ∧
          SeenOut (ctx.regionGraph region) r d (ctx.UsedIn region value) q)) := by
  obtain ⟨lv, hlv, hspec⟩ := ofRegion_spec h.graph h.entry
  have hr := h.graph.entry_mem h.entry
  have hU := used_dominated h
  obtain ⟨uses, huses, hset⟩ := useBlocksInRegion_spec h hspec
  obtain ⟨qi, hq⟩ := List.getElem?_of_mem ((Dominance.mem_rpo h.graph hr).mpr h.queryReach)
  have hguard : ctx.blockParentRegion q = some region ∧ ctx.blockParentRegion d = some region :=
    ⟨h.queryRegion, h.defRegion⟩
  by_cases hdr : Reach (ctx.regionGraph region).Edge r d
  · obtain ⟨di, hd⟩ := List.getElem?_of_mem ((Dominance.mem_rpo h.graph hr).mpr hdr)
    refine ⟨lv, lv.isLiveOutOfIndex di qi uses, hlv, ?_,
      isLiveOutOfIndex_spec hspec h.graph hr hU hset hd hq⟩
    simp [isLiveOutOfBlock, h.defBlock, hguard, guard, hspec.blockIndex_eq_some hd,
      hspec.blockIndex_eq_some hq, huses]
  · have hnone : d ∉ Dominance.rpo (ctx.regionGraph region) r := fun hmem =>
      hdr ((Dominance.mem_rpo h.graph hr).mp hmem)
    refine ⟨lv, false, hlv, ?_, ?_⟩
    · simp [isLiveOutOfBlock, h.defBlock, hguard, guard, hspec.blockIndex_eq_none hnone]
    · simp only [Bool.false_eq_true, false_iff, not_or, not_and]
      constructor
      · rintro rfl
        exact absurd h.queryReach hdr
      · exact fun hdq => absurd (hdq.1.reach h.queryReach).1 hdr

/-- The live-out query is right exactly when it sees a use of every value that is live-out of
    another block than its own. -/
theorem isLiveOutOfBlock_correct_iff (h : ctx.LivenessQuery region r value d q) :
    ∃ lv b, ofRegion ctx region = some lv ∧ lv.isLiveOutOfBlock ctx region value q = some b ∧
      ((b = true ↔ LiveOut (ctx.regionGraph region).Edge d (ctx.UsedIn region value) q) ↔
        (LiveOut (ctx.regionGraph region).Edge d (ctx.UsedIn region value) q → q ≠ d →
          SeenOut (ctx.regionGraph region) r d (ctx.UsedIn region value) q)) := by
  obtain ⟨lv, b, hlv, hb, hiff⟩ := isLiveOutOfBlock_spec h
  have hr := h.graph.entry_mem h.entry
  have hU := used_dominated h
  refine ⟨lv, b, hlv, hb, ?_⟩
  rw [hiff]
  -- at its own block the query is always right
  by_cases hqd : q = d
  · subst hqd
    have hnot : ¬ StrictlyDominates (ctx.regionGraph region).Edge r q q := fun hs => hs.2 rfl
    simp [liveOut_def_iff hU, hnot]
  · simp only [hqd, false_and, false_or, not_false_iff, forall_const, ne_eq]
    constructor
    · intro heq hlive
      exact (heq.mpr hlive).2
    · intro hseen
      constructor
      · rintro ⟨hdq, hs⟩
        exact SeenOut.liveOut h.graph hr hs hdq h.queryReach
      · intro hlive
        exact ⟨hlive.strictlyDominates hU hqd, hseen hlive⟩

/-- Block 4 ends an iteration of the outer loop at 1, or goes on to 5, where an iteration of the
    inner loop at 3 ends.  The value is defined in block 2 between the two loop headers. -/
def twoLatches : Context := Context.ofCfg [[1], [2], [3], [4], [1, 5], [3, 6], []] 2 3

theorem twoLatches_reach : Reach (twoLatches.regionGraph ⟨0⟩).Edge ⟨0⟩ ⟨3⟩ := by
  have h01 : (twoLatches.regionGraph ⟨0⟩).Edge ⟨0⟩ ⟨1⟩ := by decide
  have h12 : (twoLatches.regionGraph ⟨0⟩).Edge ⟨1⟩ ⟨2⟩ := by decide
  exact (((Reach.refl _).tail h01).tail h12).tail (by decide)

theorem twoLatches_query :
    twoLatches.LivenessQuery ⟨0⟩ ⟨0⟩ ⟨0, .block ⟨2⟩⟩ ⟨2⟩ ⟨4⟩ where
  graph := ⟨by decide, by decide, by decide⟩
  entry := rfl
  defBlock := rfl
  defRegion := rfl
  queryRegion := rfl
  queryReach := twoLatches_reach.tail (by decide)
  defined := by
    refine ⟨[⟨⟨3⟩, 0⟩], rfl, ?_⟩
    simp only [List.mem_singleton, forall_eq]
    refine ⟨⟨3⟩, rfl, twoLatches_reach, ?_⟩
    refine Dominates.of_closed (P := fun b => b = ⟨0⟩ ∨ b = ⟨1⟩) (Or.inl rfl) ?_ (by decide)
    rintro x y (rfl | rfl) hxy hy
    · exact Or.inr (List.mem_singleton.mp hxy)
    · exact absurd (List.mem_singleton.mp hxy) hy

/-- The set of block 4 only has the target of its own back edge. -/
theorem twoLatches_liveOut_missed :
    (ofRegion twoLatches ⟨0⟩).bind (fun lv =>
      lv.isLiveOutOfBlock twoLatches ⟨0⟩ ⟨0, .block ⟨2⟩⟩ ⟨4⟩) = some false ∧
      LiveOut (twoLatches.regionGraph ⟨0⟩).Edge ⟨2⟩
        (twoLatches.UsedIn ⟨0⟩ ⟨0, .block ⟨2⟩⟩) ⟨4⟩ ∧
      twoLatches.LivenessQuery ⟨0⟩ ⟨0⟩ ⟨0, .block ⟨2⟩⟩ ⟨2⟩ ⟨4⟩ := by
  refine ⟨by decide +kernel, ⟨⟨5⟩, by decide, ⟨3⟩,
    ⟨_, rfl, _, List.mem_singleton_self _, rfl⟩, ?_⟩, twoLatches_query⟩
  exact (Avoids.refl (by decide)).tail (by decide) (by decide)

theorem isLiveOutOfBlock_correct_iff_twoLatches :
    ∃ lv b, ofRegion twoLatches ⟨0⟩ = some lv ∧
      lv.isLiveOutOfBlock twoLatches ⟨0⟩ ⟨0, .block ⟨2⟩⟩ ⟨4⟩ = some b ∧
      ((b = true ↔ LiveOut (twoLatches.regionGraph ⟨0⟩).Edge ⟨2⟩
          (twoLatches.UsedIn ⟨0⟩ ⟨0, .block ⟨2⟩⟩) ⟨4⟩) ↔
        (LiveOut (twoLatches.regionGraph ⟨0⟩).Edge ⟨2⟩
            (twoLatches.UsedIn ⟨0⟩ ⟨0, .block ⟨2⟩⟩) ⟨4⟩ → (⟨4⟩ : BlockPtr) ≠ ⟨2⟩ →
          SeenOut (twoLatches.regionGraph ⟨0⟩) ⟨0⟩ ⟨2⟩
            (twoLatches.UsedIn ⟨0⟩ ⟨0, .block ⟨2⟩⟩) ⟨4⟩)) :=
  isLiveOutOfBlock_correct_iff twoLatches_query

end Queries

end LivenessTq

end Pliron
