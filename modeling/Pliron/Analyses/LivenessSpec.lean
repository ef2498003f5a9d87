/-
  Pliron.Analyses.LivenessSpec

  What the precomputation of `LivenessTq` stores.

  Every vector of sets represents a relation between blocks: reduced
  reachability, the steps `Up` of the back-edge target closure, and `TqReach` for
  the sets of the queries.  `TqReach` is what the three phases add up to.  The
  first phase closes the targets of back edges, the second looks at the back
  edges of a source, and the third hands these sets on along reduced edges, but
  only through blocks that are neither source nor target of a back edge.
-/

import Pliron.Analyses.SdomTreeSpec
import Pliron.Lib.FastLiveness

namespace Pliron

open Pliron.Lib BitSet Traversals Relation

namespace LivenessTq

variable {α : Type} [DecidableEq α]

section Relations

variable (g : ControlFlowGraph α) (r : α)

/-- The edges that a depth-first traversal from `r` finds to be back edges. -/
def Back (u v : α) : Prop := BackEdge g.Edge (search g r).pre (search g r).post u v

/-- The other edges. -/
def Red (u v : α) : Prop := ReducedEdge g.Edge (search g r).pre (search g r).post u v

/-- The closure of back-edge targets. -/
def Climb (u v : α) : Prop := Chain g.Edge (search g r).pre (search g r).post u v

/-- A reachable back edge enters `v`. -/
def IsTarget (v : α) : Prop := ∃ u, Reach g.Edge r u ∧ Back g r u v

/-- A back edge leaves `u`. -/
def IsSource (u : α) : Prop := ∃ v, Back g r u v

/-- The graph is reducible: the target of a back edge dominates its source. -/
def Reducible : Prop := ∀ u v, Reach g.Edge r u → Back g r u v → Dominates g.Edge r v u

/-- The back-edge targets that the three phases collect for a block. -/
inductive TqReach : α → α → Prop where
  /-- Phase 1: a target closes over the targets above it. -/
  | target {q t : α} (hq : IsTarget g r q) (ht : Climb g r q t) : TqReach q t
  /-- Phase 2: another source takes one of its own back edges first. -/
  | source {q t₁ t : α} (hq : ¬ IsTarget g r q) (hb : Back g r q t₁) (ht : Climb g r t₁ t) :
      TqReach q t
  /-- Phase 3: any other block hands over to its successors. -/
  | plain {q q' t : α} (hq : ¬ IsTarget g r q) (hs : ¬ IsSource g r q) (he : Red g r q q')
      (ht : TqReach q' t) : TqReach q t

end Relations

variable {g : ControlFlowGraph α} {r : α}

/-! ## The scan of the edges -/

/-- What is collected once the edges of `seen` were classified. -/
structure EdgesSeen (g : ControlFlowGraph α) (r : α) (seen : List (α × α)) (sets : EdgeSets) :
    Prop where
  lengthRed : sets.reducedSuccessors.length = (Dominance.rpo g r).length
  lengthBack : sets.backEdgesBySource.length = (Dominance.rpo g r).length
  red : ∀ i u, (Dominance.rpo g r)[i]? = some u →
    IsSetOf (Dominance.rpo g r) (at' sets.reducedSuccessors i)
      (fun v => (u, v) ∈ seen ∧ ¬ Ancestor (search g r).pre (search g r).post v u)
  back : ∀ i u, (Dominance.rpo g r)[i]? = some u →
    IsSetOf (Dominance.rpo g r) (sets.backEdgesBySource.getD i []).toFinset
      (fun v => (u, v) ∈ seen ∧ Ancestor (search g r).pre (search g r).post v u)
  targets : IsSetOf (Dominance.rpo g r) sets.backEdgeTargets
    (fun v => ∃ u, (u, v) ∈ seen ∧ Ancestor (search g r).pre (search g r).post v u)
  reducible : sets.isReducible = true ↔ ∀ u v, (u, v) ∈ seen →
    Ancestor (search g r).pre (search g r).post v u → Dominates g.Edge r v u

section Edges

variable (hg : g.Valid) (hr : g.entryNode = some r) {sdom : List BitSet}
  (hsdom : Represents (Dominance.rpo g r) sdom (StrictlyDominates g.Edge r))

include hg hr hsdom

theorem addEdge_spec {seen : List (α × α)} {sets : EdgeSets} {u v : α} {i : Nat}
    (hseen : EdgesSeen g r seen sets) (hi : (Dominance.rpo g r)[i]? = some u)
    (huv : g.Edge u v) :
    ∃ sets', addEdge (DFSTraversal.new g) (Dominance.rpo g r).zipIdx sdom u i sets v =
      some sets' ∧ EdgesSeen g r (seen ++ [(u, v)]) sets' := by
  have hl := Dominance.rpo_nodup (g := g) (r := r)
  have hrn := hg.entry_mem hr
  have hu : Reach g.Edge r u := (Dominance.mem_rpo hg hrn).mp (List.mem_of_getElem? hi)
  have hj := List.getElem?_idxOf ((Dominance.mem_rpo hg hrn).mpr (hu.tail huv))
  obtain ⟨kind, hkind, hback⟩ := DFSTraversal.edgeKind_new hg.closed hr hu huv
  have hiRed : i < sets.reducedSuccessors.length :=
    hseen.lengthRed ▸ (List.getElem?_eq_some_iff.mp hi).1
  have hiBack : i < sets.backEdgesBySource.length :=
    hseen.lengthBack ▸ (List.getElem?_eq_some_iff.mp hi).1
  have hmem : ∀ {a b : α}, (a, b) ∈ seen ++ [(u, v)] ↔ (a, b) ∈ seen ∨ (a = u ∧ b = v) := by
    simp
  unfold addEdge
  simp only [get?_zipIdx_eq_some hl hj, hkind, Option.bind_eq_bind, Option.bind_some]
  by_cases hk : kind = .back
  · -- a back edge is noted and checked; the reduced successors stay
    have hanc := hback.mp hk
    rw [if_pos hk]
    refine ⟨_, rfl, hseen.lengthRed, by simpa using hseen.lengthBack, ?_, ?_, ?_, ?_⟩
    · intro k w hw
      refine (hseen.red k w hw).congr (fun x _ => ?_)
      rw [hmem]
      constructor
      · rintro ⟨h, hn⟩
        exact ⟨Or.inl h, hn⟩
      · rintro ⟨h | ⟨rfl, rfl⟩, hn⟩
        · exact ⟨h, hn⟩
        · exact absurd hanc hn
    · intro k w hw
      by_cases hik : i = k
      · subst hik
        obtain rfl : u = w := Option.some.inj (hi.symm.trans hw)
        have hset : (sets.backEdgesBySource.set i
            (sets.backEdgesBySource.getD i [] ++ [(Dominance.rpo g r).idxOf v])).getD i [] =
            sets.backEdgesBySource.getD i [] ++ [(Dominance.rpo g r).idxOf v] := by
          simp [List.getD_eq_getElem?_getD, hiBack]
        rw [hset, List.toFinset_append]
        refine IsSetOf.congr ((hseen.back i u hi).union (IsSetOf.insert hl hj
          (IsSetOf.empty (P := fun _ => False) (fun _ _ h => h)))) (fun x _ => ?_)
        rw [hmem]
        constructor
        · rintro (⟨h, ha⟩ | rfl | h)
          · exact ⟨Or.inl h, ha⟩
          · exact ⟨Or.inr ⟨rfl, rfl⟩, hanc⟩
          · exact h.elim
        · rintro ⟨h | ⟨_, rfl⟩, ha⟩
          · exact Or.inl ⟨h, ha⟩
          · exact Or.inr (Or.inl rfl)
      · have hset : (sets.backEdgesBySource.set i
            (sets.backEdgesBySource.getD i [] ++ [(Dominance.rpo g r).idxOf v])).getD k [] =
            sets.backEdgesBySource.getD k [] := by
          simp [List.getD_eq_getElem?_getD, List.getElem?_set_ne hik]
        rw [hset]
        refine (hseen.back k w hw).congr (fun x _ => ?_)
        rw [hmem]
        refine and_congr_left (fun _ => ⟨Or.inl, fun h => h.resolve_right ?_⟩)
        rintro ⟨rfl, _⟩
        exact hik (eq_of_getElem?_eq hl hi hw)
    · refine IsSetOf.congr (IsSetOf.insert hl hj hseen.targets) (fun x _ => ?_)
      constructor
      · rintro (rfl | ⟨a, ha, hax⟩)
        · exact ⟨u, hmem.mpr (Or.inr ⟨rfl, rfl⟩), hanc⟩
        · exact ⟨a, hmem.mpr (Or.inl ha), hax⟩
      · rintro ⟨a, ha, hax⟩
        rcases hmem.mp ha with ha | ⟨rfl, rfl⟩
        · exact Or.inr ⟨a, ha, hax⟩
        · exact Or.inl rfl
    · -- the check of the source is dominance of the target over the source
      have hdom : (¬ ((Dominance.rpo g r).idxOf v ≠ i ∧
          i ∉ at' sdom ((Dominance.rpo g r).idxOf v))) ↔ Dominates g.Edge r v u := by
        rw [((hsdom.2 _ v hj).mem_iff hi), StrictlyDominates, not_and_not_right]
        constructor
        · intro h
          by_cases hvu : v = u
          · exact hvu ▸ Dominates.refl v
          · exact (h (fun heq => hvu (Option.some.inj (hj.symm.trans (heq ▸ hi))))).1
        · intro h hne
          refine ⟨h, ?_⟩
          rintro rfl
          exact hne (eq_of_getElem?_eq hl hj hi)
      have hall : (∀ a b, (a, b) ∈ seen ++ [(u, v)] →
          Ancestor (search g r).pre (search g r).post b a → Dominates g.Edge r b a) ↔
          Dominates g.Edge r v u ∧ ∀ a b, (a, b) ∈ seen →
            Ancestor (search g r).pre (search g r).post b a → Dominates g.Edge r b a := by
        constructor
        · intro h
          exact ⟨h u v (hmem.mpr (Or.inr ⟨rfl, rfl⟩)) hanc,
            fun a b hab => h a b (hmem.mpr (Or.inl hab))⟩
        · rintro ⟨h, h'⟩ a b hab hba
          rcases hmem.mp hab with hab | ⟨rfl, rfl⟩
          · exact h' a b hab hba
          · exact h
      rw [hall, ← hdom, ← hseen.reducible]
      split
      · next hbad => simp [hbad]
      · next hok => simp only [hok, not_false_eq_true, true_and]
  · -- any other edge is a reduced successor of its source, with nothing to check
    have hanc : ¬ Ancestor (search g r).pre (search g r).post v u := fun h => hk (hback.mpr h)
    rw [if_neg hk]
    refine ⟨_, rfl, by simpa using hseen.lengthRed, hseen.lengthBack, ?_, ?_, ?_, ?_⟩
    · intro k w hw
      by_cases hik : i = k
      · subst hik
        obtain rfl : u = w := Option.some.inj (hi.symm.trans hw)
        simp only [at'_set_self hiRed]
        refine IsSetOf.congr (IsSetOf.insert hl hj (hseen.red i u hi)) (fun x _ => ?_)
        rw [hmem]
        constructor
        · rintro (rfl | ⟨h, hn⟩)
          · exact ⟨Or.inr ⟨rfl, rfl⟩, hanc⟩
          · exact ⟨Or.inl h, hn⟩
        · rintro ⟨h | ⟨_, rfl⟩, hn⟩
          · exact Or.inr ⟨h, hn⟩
          · exact Or.inl rfl
      · simp only [at'_set_ne hik]
        refine (hseen.red k w hw).congr (fun x _ => ?_)
        rw [hmem]
        refine and_congr_left (fun _ => ⟨Or.inl, fun h => h.resolve_right ?_⟩)
        rintro ⟨rfl, _⟩
        exact hik (eq_of_getElem?_eq hl hi hw)
    · intro k w hw
      refine (hseen.back k w hw).congr (fun x _ => ?_)
      rw [hmem]
      constructor
      · rintro ⟨h, ha⟩
        exact ⟨Or.inl h, ha⟩
      · rintro ⟨h | ⟨rfl, rfl⟩, ha⟩
        · exact ⟨h, ha⟩
        · exact absurd ha hanc
    · refine hseen.targets.congr (fun x _ => ?_)
      constructor
      · rintro ⟨a, ha, hax⟩
        exact ⟨a, hmem.mpr (Or.inl ha), hax⟩
      · rintro ⟨a, ha, hax⟩
        rcases hmem.mp ha with ha | ⟨rfl, rfl⟩
        · exact ⟨a, ha, hax⟩
        · exact absurd hax hanc
    · rw [hseen.reducible]
      constructor
      · intro h a b hab hba
        rcases hmem.mp hab with hab | ⟨rfl, rfl⟩
        · exact h a b hab hba
        · exact absurd hba hanc
      · exact fun h a b hab => h a b (hmem.mpr (Or.inl hab))

/-- The edges of one block. -/
theorem addEdges_spec {u : α} {i : Nat} (hi : (Dominance.rpo g r)[i]? = some u) (vs : List α)
    (hvs : ∀ v ∈ vs, g.Edge u v) : ∀ (seen : List (α × α)) (sets : EdgeSets),
      EdgesSeen g r seen sets → ∃ sets',
        vs.foldlM (addEdge (DFSTraversal.new g) (Dominance.rpo g r).zipIdx sdom u i) sets =
          some sets' ∧ EdgesSeen g r (seen ++ vs.map (fun v => (u, v))) sets' := by
  induction vs with
  | nil =>
      intro seen sets hseen
      exact ⟨sets, rfl, by simpa using hseen⟩
  | cons v vs ih =>
      intro seen sets hseen
      obtain ⟨sets₁, hstep, hseen₁⟩ :=
        addEdge_spec hg hr hsdom hseen hi (hvs v List.mem_cons_self)
      obtain ⟨sets₂, hrest, hseen₂⟩ :=
        ih (fun w hw => hvs w (List.mem_cons_of_mem _ hw)) _ sets₁ hseen₁
      refine ⟨sets₂, ?_, by simpa using hseen₂⟩
      rw [List.foldlM_cons, hstep]
      exact hrest

/-- All edges between blocks reachable from the entry. -/
theorem collectEdges_seen :
    ∃ sets, collectEdges g (DFSTraversal.new g) (Dominance.rpo g r).zipIdx sdom = some sets ∧
      EdgesSeen g r ((Dominance.rpo g r).flatMap
        (fun u => (g.successors u).map (fun v => (u, v)))) sets := by
  have hgen : ∀ (us : List α) (k : Nat), (Dominance.rpo g r).drop k = us →
      ∀ (seen : List (α × α)) (sets : EdgeSets), EdgesSeen g r seen sets → ∃ sets',
        (us.zipIdx k).foldlM (fun sets e => (g.successors e.1).foldlM
          (addEdge (DFSTraversal.new g) (Dominance.rpo g r).zipIdx sdom e.1 e.2) sets) sets =
            some sets' ∧
        EdgesSeen g r (seen ++ us.flatMap (fun u => (g.successors u).map (fun v => (u, v))))
          sets' := by
    intro us
    induction us with
    | nil =>
        intro k _ seen sets hseen
        exact ⟨sets, rfl, by simpa using hseen⟩
    | cons u us ih =>
        intro k hdrop seen sets hseen
        have hi : (Dominance.rpo g r)[k]? = some u := by
          have := congrArg (fun l => l[0]?) hdrop
          simpa using this
        have hdrop' : (Dominance.rpo g r).drop (k + 1) = us := by
          rw [← List.tail_drop, hdrop]
          rfl
        obtain ⟨sets₁, hstep, hseen₁⟩ :=
          addEdges_spec hg hr hsdom hi (g.successors u) (fun _ h => h) seen sets hseen
        obtain ⟨sets₂, hrest, hseen₂⟩ := ih (k + 1) hdrop' _ sets₁ hseen₁
        refine ⟨sets₂, ?_, by simpa using hseen₂⟩
        rw [List.zipIdx_cons, List.foldlM_cons, hstep]
        exact hrest
  have hinit : EdgesSeen g r []
      { reducedSuccessors := List.replicate (Dominance.rpo g r).zipIdx.length ∅
        backEdgeTargets := ∅
        backEdgesBySource := List.replicate (Dominance.rpo g r).zipIdx.length []
        isReducible := true } := by
    refine ⟨by simp, by simp, fun i u _ => ?_, fun i u _ => ?_, ?_, by simp⟩
    · rw [at'_replicate]
      exact IsSetOf.empty (by simp)
    · have hempty : (List.replicate (Dominance.rpo g r).zipIdx.length ([] : List Nat)).getD i [] =
          [] := by
        rw [List.getD_eq_getElem?_getD, List.getElem?_replicate]
        split <;> rfl
      rw [hempty]
      exact IsSetOf.empty (by simp)
    · exact IsSetOf.empty (by simp)
  exact hgen (Dominance.rpo g r) 0 rfl [] _ hinit

end Edges

/-! ## The relations the vectors stand for -/

/-- The number of a block grows along reduced edges. -/
theorem index_lt_of_red (hg : g.Valid) (hr : r ∈ g.nodes) {u v : α} {i j : Nat}
    (hi : (Dominance.rpo g r)[i]? = some u) (hj : (Dominance.rpo g r)[j]? = some v)
    (huv : Red g r u v) : i < j := by
  have hu : Reach g.Edge r u := (Dominance.mem_rpo hg hr).mp (List.mem_of_getElem? hi)
  have hlt := (search_isDfsOrder hg.closed hr).post_lt_of_reducedEdge hu huv
  have hui := Dominance.rpo_index_eq hi
  have hvj := Dominance.rpo_index_eq hj
  have hul : (search g r).post u < (search g r).closed.length :=
    idxOf_lt_length_of_mem ((mem_search_closed hg.closed hr).mpr hu)
  omega

/-- What the scan of the edges yields. -/
structure EdgeSpec (g : ControlFlowGraph α) (r : α) (sets : EdgeSets) : Prop where
  red : Represents (Dominance.rpo g r) sets.reducedSuccessors (Red g r)
  lengthBack : sets.backEdgesBySource.length = (Dominance.rpo g r).length
  back : ∀ i u, (Dominance.rpo g r)[i]? = some u →
    IsSetOf (Dominance.rpo g r) (sets.backEdgesBySource.getD i []).toFinset (Back g r u)
  targets : IsSetOf (Dominance.rpo g r) sets.backEdgeTargets (IsTarget g r)
  reducible : sets.isReducible = true ↔ Reducible g r

theorem EdgeSpec.of_seen (hg : g.Valid) (hr : r ∈ g.nodes) {sets : EdgeSets}
    (h : EdgesSeen g r ((Dominance.rpo g r).flatMap
      (fun u => (g.successors u).map (fun v => (u, v)))) sets) : EdgeSpec g r sets := by
  have hseen : ∀ {u v : α}, (u, v) ∈ (Dominance.rpo g r).flatMap
      (fun u => (g.successors u).map (fun v => (u, v))) ↔
      u ∈ Dominance.rpo g r ∧ g.Edge u v := by
    intro u v
    simp only [List.mem_flatMap, List.mem_map, Prod.mk.injEq]
    constructor
    · rintro ⟨a, ha, b, hb, rfl, rfl⟩
      exact ⟨ha, hb⟩
    · rintro ⟨hu, huv⟩
      exact ⟨u, hu, v, huv, rfl, rfl⟩
  refine ⟨⟨h.lengthRed, fun i u hi => (h.red i u hi).congr (fun v _ => ?_)⟩, h.lengthBack,
    fun i u hi => (h.back i u hi).congr (fun v _ => ?_), h.targets.congr (fun v _ => ?_), ?_⟩
  · rw [hseen]
    exact ⟨fun h => ⟨h.1.2, h.2⟩, fun h => ⟨⟨List.mem_of_getElem? hi, h.1⟩, h.2⟩⟩
  · rw [hseen]
    exact ⟨fun h => ⟨h.1.2, h.2⟩, fun h => ⟨⟨List.mem_of_getElem? hi, h.1⟩, h.2⟩⟩
  · constructor
    · rintro ⟨u, hu, hanc⟩
      obtain ⟨hul, huv⟩ := hseen.mp hu
      exact ⟨u, (Dominance.mem_rpo hg hr).mp hul, huv, hanc⟩
    · rintro ⟨u, hu, huv, hanc⟩
      exact ⟨u, hseen.mpr ⟨(Dominance.mem_rpo hg hr).mpr hu, huv⟩, hanc⟩
  · rw [h.reducible]
    constructor
    · exact fun h u v hu huv =>
        h u v (hseen.mpr ⟨(Dominance.mem_rpo hg hr).mpr hu, huv.1⟩) huv.2
    · intro h u v huv hanc
      obtain ⟨hul, he⟩ := hseen.mp huv
      exact h u v ((Dominance.mem_rpo hg hr).mp hul) ⟨he, hanc⟩

section Sets

variable (hg : g.Valid) (hr : r ∈ g.nodes) {sets : EdgeSets} (hsets : EdgeSpec g r sets)

include hg hr hsets

theorem computeReducedReachability_spec :
    Represents (Dominance.rpo g r) (computeReducedReachability sets.reducedSuccessors)
      (Reach (Red g r)) := by
  have hn : sets.reducedSuccessors.length = (Dominance.rpo g r).length := hsets.red.1
  obtain ⟨hlen, hall, _⟩ := foldl_set_invariant
    (fun res node => insert node (unionAll ((iter sets.reducedSuccessors.length
      (at' sets.reducedSuccessors node)).map (at' res))))
    (fun i s => ∀ u, (Dominance.rpo g r)[i]? = some u →
      IsSetOf (Dominance.rpo g r) s (Reach (Red g r) u))
    (List.range sets.reducedSuccessors.length).reverse
    (List.replicate sets.reducedSuccessors.length ∅)
    (List.nodup_reverse.mpr List.nodup_range) (by simp) (by
      intro done i rest res horder _ hdone _ u hi
      refine IsSetOf.congr (IsSetOf.insert Dominance.rpo_nodup hi
        (IsSetOf.unionAll_map (Q := Reach (Red g r)) hn (hsets.red.2 i u hi) ?_))
        (fun w _ => ?_)
      · -- a successor has a larger number, so its set is final
        intro j v hj huv
        have hij := index_lt_of_red hg hr hi hj huv
        have hjorder : j ∈ (List.range sets.reducedSuccessors.length).reverse := by
          simpa [hn] using (List.getElem?_eq_some_iff.mp hj).1
        have hpair : (done ++ i :: rest).Pairwise (fun a b => b < a) := by
          rw [← horder]
          exact List.pairwise_reverse.mpr List.pairwise_lt_range
        rw [horder, List.mem_append, List.mem_cons] at hjorder
        rcases hjorder with hjd | rfl | hjr
        · exact hdone j hjd v hj
        · exact absurd hij (Nat.lt_irrefl _)
        · have hcons := (List.pairwise_cons.mp (List.pairwise_append.mp hpair).2.1).1 j hjr
          exact absurd hij (Nat.lt_asymm hcons)
      · constructor
        · rintro (rfl | ⟨v, _, huv, hvw⟩)
          · exact Reach.refl w
          · exact hvw.head huv
        · intro huw
          rcases ReflTransGen.cases_head huw with rfl | ⟨v, huv, hvw⟩
          · exact Or.inl rfl
          · refine Or.inr ⟨v, ?_, huv, hvw⟩
            have hu : Reach g.Edge r u := (Dominance.mem_rpo hg hr).mp (List.mem_of_getElem? hi)
            exact (Dominance.mem_rpo hg hr).mpr (hu.tail huv.1))
  refine ⟨by simpa [computeReducedReachability, hn] using hlen, fun i u hi => ?_⟩
  have hil := (List.getElem?_eq_some_iff.mp hi).1
  exact hall i (by simpa [hn] using hil) u hi

theorem computeTUpSets_spec :
    Represents (Dominance.rpo g r)
      (computeTUpSets (computeReducedReachability sets.reducedSuccessors)
        sets.backEdgesBySource)
      (Up g.Edge (search g r).pre (search g r).post) := by
  obtain ⟨hlen, hreach⟩ := computeReducedReachability_spec hg hr hsets
  refine ⟨by rw [computeTUpSets, List.length_map, hlen], fun i u hi => ?_⟩
  have hil : i < (computeReducedReachability sets.reducedSuccessors).length := by
    rw [hlen]
    exact (List.getElem?_eq_some_iff.mp hi).1
  have hfold : ∀ (rs : List Nat) (acc : BitSet),
      rs.foldl (fun tUp r => tUp ∪ (sets.backEdgesBySource.getD r []).toFinset) acc =
        acc ∪ unionAll (rs.map (fun r => (sets.backEdgesBySource.getD r []).toFinset)) := by
    intro rs
    induction rs with
    | nil => intro acc; simp [unionAll]
    | cons a rs ih =>
        intro acc
        rw [List.foldl_cons, ih, List.map_cons, Finset.union_assoc]
        rfl
  have hat : at' (computeTUpSets (computeReducedReachability sets.reducedSuccessors)
      sets.backEdgesBySource) i =
      unionAll ((iter (computeReducedReachability sets.reducedSuccessors).length
        (at' (computeReducedReachability sets.reducedSuccessors) i)).map
          (fun r => (sets.backEdgesBySource.getD r []).toFinset)) \
        at' (computeReducedReachability sets.reducedSuccessors) i := by
    rw [computeTUpSets, at'_map _ hil, hfold, Finset.empty_union]
  rw [hat]
  refine IsSetOf.congr ((IsSetOf.unionAll_map hlen (hreach i u hi)
    (fun j v hj _ => hsets.back j v hj)).sdiff (hreach i u hi)) (fun w _ => ?_)
  constructor
  · rintro ⟨⟨v, _, huv, hvw⟩, hn⟩
    exact ⟨v, huv, hvw, hn⟩
  · rintro ⟨v, huv, hvw, hn⟩
    have hu : Reach g.Edge r u := (Dominance.mem_rpo hg hr).mp (List.mem_of_getElem? hi)
    exact ⟨⟨v, (Dominance.mem_rpo hg hr).mpr (hu.trans (IsDfsOrder.reach_of_reduced huv)),
      huv, hvw⟩, hn⟩

end Sets

end LivenessTq

end Pliron
