/-
  Pliron.Graph.DomFrontierCorrect

  Dominance frontiers are exact but for the entry.

  A predecessor of a node is dominated by the immediate dominator of the node,
  so the walk up from it passes its dominators that do not strictly dominate
  the node; a node with a single predecessor is strictly dominated by all of
  them.  The entry has no immediate dominator: with two predecessors the
  construction panics, and with a single reachable one the entry is missing
  from the frontiers.
-/

import Pliron.Graph.DomFrontier
import Pliron.Graph.DomTreeSpec
import Pliron.Lib.Forest

namespace Pliron

open Pliron.Lib

variable {α : Type} [DecidableEq α] {g : ControlFlowGraph α} {t : DomTree α} {r a b p q v x : α}

/-! ## Walks up the dominator tree -/

namespace IsDomTree

/-- The positions in the map fall along the links. -/
theorem parent_lt (h : IsDomTree g r t) {x y : α} (hxy : t.parent x = some y) :
    t.dominatorsMap.keys.idxOf y < t.dominatorsMap.keys.idxOf x := by
  by_cases hx : Reach g.Edge r x
  · have hxr : x ≠ r := by
      rintro rfl
      rw [h.parent_root] at hxy
      exact absurd hxy (by simp)
    obtain ⟨p, hp, -, -, hlt⟩ := h.parent x hx hxr
    rw [hxy, Option.some.injEq] at hp
    exact hp ▸ hlt
  · rw [h.parent_of_not_reach hx] at hxy
    exact absurd hxy (by simp)

theorem idxOf_lt (h : IsDomTree g r t) (hv : Reach g.Edge r v) :
    t.dominatorsMap.keys.idxOf v < t.dominatorsMap.length := by
  have hlt := List.idxOf_lt_length_of_mem ((h.mem_keys v).mpr hv)
  rwa [IMap.keys, List.length_map] at hlt

/-- What lies above a node in the tree are its dominators. -/
theorem above_iff (h : IsDomTree g r t) (hv : Reach g.Edge r v) :
    Above t.parent v x ↔ Dominates g.Edge r x v := by
  induction hn : t.dominatorsMap.keys.idxOf v using Nat.strong_induction_on generalizing v with
  | _ n ih =>
      subst hn
      by_cases hxv : x = v
      · rw [hxv]
        exact iff_of_true (Above.refl v) (Dominates.refl v)
      · by_cases hvr : v = r
        · subst hvr
          refine iff_of_false (fun hup => ?_) (fun hd => hd (Avoids.refl (Ne.symm hxv)))
          rcases hup.cases_head with heq | ⟨p, hp, -⟩
          · exact hxv heq.symm
          · rw [h.parent_root] at hp
            exact absurd hp (by simp)
        · obtain ⟨p, hp, hpv, hidom, hlt⟩ := h.parent v hv hvr
          have hstrict := StrictlyDominates.iff_of_idom (d := x) hpv hidom hv
          have hiff : Dominates g.Edge r x v ↔ Dominates g.Edge r x p := by
            rw [← hstrict]
            exact ⟨fun hd => ⟨hd, hxv⟩, fun hd => hd.1⟩
          rw [hiff, ← ih _ hlt (hpv.1.reach hv).1 rfl]
          constructor
          · intro hup
            rcases hup.cases_head with heq | ⟨p', hp', hup⟩
            · exact absurd heq.symm hxv
            · rw [hp, Option.some.injEq] at hp'
              exact hp' ▸ hup
          · exact fun hup => Relation.ReflTransGen.head hp hup

theorem dominatorsLoop_isSome (h : IsDomTree g r t) (fuel : Nat) :
    ∀ v, Reach g.Edge r v → t.dominatorsMap.keys.idxOf v < fuel →
      ∃ l, t.dominatorsLoop fuel (some v) = some l := by
  induction fuel with
  | zero => exact fun v _ hfuel => absurd hfuel (Nat.not_lt_zero _)
  | succ fuel ih =>
      intro v hv hfuel
      have hidom := h.idom_eq hv
      by_cases hvr : v = r
      · subst hvr
        refine ⟨[v], ?_⟩
        rw [h.parent_root] at hidom
        simp [DomTree.dominatorsLoop, hidom]
      · obtain ⟨p, hp, hpv, -, hlt⟩ := h.parent v hv hvr
        obtain ⟨l, hl⟩ := ih p (hpv.1.reach hv).1 (by omega)
        rw [hp] at hidom
        exact ⟨v :: l, by simp [DomTree.dominatorsLoop, hidom, hl]⟩

/-- Taking the dominators before a stop is climbing to the stop. -/
theorem takeWhile_dominators (h : IsDomTree g r t) {fuel fuel' : Nat} :
    ∀ {v : α} {l ds : List α}, Reach g.Edge r v →
      climbTo t.parent (some q) fuel (some v) = some l →
      t.dominatorsLoop fuel' (some v) = some ds → ds.takeWhile (fun n => n ≠ q) = l := by
  induction fuel generalizing fuel' with
  | zero =>
      intro v l ds hv hl hds
      unfold climbTo at hl
      by_cases hvq : v = q
      · rw [if_pos (by rw [hvq]), Option.some.injEq] at hl
        cases fuel' with
        | zero => cases hds
        | succ fuel' =>
            simp only [DomTree.dominatorsLoop, Option.bind_eq_bind, Option.bind_eq_some_iff,
              Option.some.injEq] at hds
            obtain ⟨_, _, above, _, rfl⟩ := hds
            rw [← hl, hvq]
            simp
      · rw [if_neg (fun heq => hvq (Option.some.inj heq))] at hl
        exact absurd hl (by simp)
  | succ fuel ih =>
      intro v l ds hv hl hds
      unfold climbTo at hl
      cases fuel' with
      | zero => cases hds
      | succ fuel' =>
          simp only [DomTree.dominatorsLoop, h.idom_eq hv, Option.bind_eq_bind, Option.bind_some,
            Option.bind_eq_some_iff, Option.some.injEq] at hds
          obtain ⟨above, habove, rfl⟩ := hds
          by_cases hvq : v = q
          · rw [if_pos (by rw [hvq]), Option.some.injEq] at hl
            rw [← hl, hvq]
            simp
          · rw [if_neg (fun heq => hvq (Option.some.inj heq))] at hl
            obtain ⟨l', hl', rfl⟩ := Option.map_eq_some_iff.mp hl
            rw [List.takeWhile_cons_of_pos (by simpa using hvq)]
            congr 1
            cases hp : t.parent v with
            | none =>
                rw [hp] at hl'
                unfold climbTo at hl'
                simp at hl'
            | some p =>
                rw [hp] at hl' habove
                have hvr : v ≠ r := by
                  rintro rfl
                  rw [h.parent_root] at hp
                  exact absurd hp (by simp)
                obtain ⟨p', hp', hpv, -⟩ := h.parent v hv hvr
                rw [hp, Option.some.injEq] at hp'
                subst hp'
                exact ih (hpv.1.reach hv).1 hl' habove

/-- The walk up from a predecessor of `b` before the immediate dominator of `b`. -/
theorem takeWhile_spec (h : IsDomTree g r t) (hp : Reach g.Edge r p) (hpb : g.Edge p b)
    (hq : t.parent b = some q) :
    ∃ ds, t.dominators p = some ds ∧ ∀ x, x ∈ ds.takeWhile (fun n => n ≠ q) ↔
      Dominates g.Edge r x p ∧ ¬ StrictlyDominates g.Edge r x b := by
  have hb : Reach g.Edge r b := hp.tail hpb
  have hbr : b ≠ r := by
    rintro rfl
    rw [h.parent_root] at hq
    exact absurd hq (by simp)
  obtain ⟨q', hq', hqb, hidom, -⟩ := h.parent b hb hbr
  rw [hq, Option.some.injEq] at hq'
  subst hq'
  have hqp : Dominates g.Edge r q p := hqb.1.pred hpb (fun heq => hqb.2 heq.symm)
  have hfuel := h.idxOf_lt hp
  obtain ⟨ds, hds⟩ := h.dominatorsLoop_isSome (t.dominatorsMap.length + 1) p hp (by omega)
  obtain ⟨l, hl, hmem⟩ := @climbTo_spec _ _ _ (some q) _ _ (fun x y => h.parent_lt) _
    (Nat.lt_succ_of_lt hfuel) (fun q' hq' => by
      rw [← Option.some.inj hq']
      exact (h.above_iff hp).mpr hqp)
  refine ⟨ds, hds, fun x => ?_⟩
  rw [h.takeWhile_dominators hp hl hds, hmem, h.above_iff hp,
    StrictlyDominates.iff_of_idom hqb hidom hb]
  simp only [Option.some.injEq, forall_eq', h.above_iff (hqb.1.reach hb).1]

end IsDomTree

/-! ## The construction -/

namespace DomFrontierMap

/-- The frontier of each node `a` of `nodes` is `{ b | R a b }`. -/
def Holds (nodes : List α) (R : α → α → Prop) (res : DomFrontierMap α) : Prop :=
  ∀ a ∈ nodes, ∃ s, res a = some s ∧ ∀ b, b ∈ s ↔ R a b

omit [DecidableEq α] in
theorem Holds.congr {nodes : List α} {R R' : α → α → Prop} {res : DomFrontierMap α}
    (h : Holds nodes R res) (hR : ∀ a ∈ nodes, ∀ x, R a x ↔ R' a x) : Holds nodes R' res := by
  intro a ha
  obtain ⟨s, hs, hmem⟩ := h a ha
  exact ⟨s, hs, fun x => (hmem x).trans (hR a ha x)⟩

omit [DecidableEq α] in
/-- A loop whose iterations each add a relation adds all of them. -/
theorem Holds.foldlM {β : Type} {nodes : List α} {f : DomFrontierMap α → β →
    Option (DomFrontierMap α)} {S : β → α → α → Prop} (l : List β)
    (hstep : ∀ i ∈ l, ∀ {R res}, Holds nodes R res →
      ∃ res', f res i = some res' ∧ Holds nodes (fun a x => R a x ∨ S i a x) res') :
    ∀ {R : α → α → Prop} {res : DomFrontierMap α}, Holds nodes R res →
      ∃ res', l.foldlM f res = some res' ∧
        Holds nodes (fun a x => R a x ∨ ∃ i ∈ l, S i a x) res' := by
  induction l with
  | nil => exact fun {R res} h => ⟨res, rfl, h.congr (by simp)⟩
  | cons i l ih =>
      intro R res h
      obtain ⟨res₁, hres₁, h₁⟩ := hstep i List.mem_cons_self h
      obtain ⟨res₂, hres₂, h₂⟩ := ih (fun j hj => hstep j (List.mem_cons_of_mem _ hj)) h₁
      refine ⟨res₂, ?_, h₂.congr (fun a _ x => ?_)⟩
      · rw [List.foldlM_cons, hres₁]
        exact hres₂
      · simp [or_assoc]

theorem insertAt_spec {nodes : List α} {R : α → α → Prop} {res : DomFrontierMap α}
    (h : Holds nodes R res) (hx : x ∈ nodes) : ∃ res', insertAt b res x = some res' ∧
      Holds nodes (fun a y => R a y ∨ (a = x ∧ y = b)) res' := by
  obtain ⟨s, hs, hmem⟩ := h x hx
  refine ⟨res.insert x (s.insert b), by simp [insertAt, hs], fun a ha => ?_⟩
  by_cases hax : a = x
  · subst hax
    refine ⟨s.insert b, HMap.insert_self, fun y => ?_⟩
    rw [ISet.mem_insert, hmem]
    simp
  · obtain ⟨s', hs', hmem'⟩ := h a ha
    refine ⟨s', by rw [HMap.insert_of_ne hax, hs'], fun y => ?_⟩
    rw [hmem']
    simp [hax]

/-- What one predecessor of `b` adds. -/
theorem addPred_spec (hg : g.Valid) (ht : IsDomTree g r t) (hr : r ∈ g.nodes)
    {R : α → α → Prop} {res : DomFrontierMap α} (h : Holds g.nodes R res)
    (hp : Reach g.Edge r p) (hpb : g.Edge p b) (hq : t.parent b = some q) :
    ∃ res', addPred t b q res p = some res' ∧ Holds g.nodes (fun a y => R a y ∨
      ((Dominates g.Edge r a p ∧ ¬ StrictlyDominates g.Edge r a b) ∧ y = b)) res' := by
  obtain ⟨ds, hds, hmem⟩ := ht.takeWhile_spec hp hpb hq
  obtain ⟨res', hres', h'⟩ := Holds.foldlM (f := insertAt b) (ds.takeWhile (fun n => n ≠ q))
    (fun x hx _ _ hR => insertAt_spec hR
      (hg.mem_of_reach hr (((hmem x).mp hx).1.reach hp).1)) h
  refine ⟨res', ?_, h'.congr (fun a _ y => ?_)⟩
  · simp only [addPred, hds, Option.bind_eq_bind, Option.bind_some]
    exact hres'
  · rw [← hmem a]
    refine or_congr_right ?_
    constructor
    · rintro ⟨i, hi, rfl, rfl⟩
      exact ⟨hi, rfl⟩
    · rintro ⟨ha, rfl⟩
      exact ⟨a, ha, rfl, rfl⟩

/-- `b` is where the dominance of `a` ends. -/
def InFrontier (g : ControlFlowGraph α) (r a b : α) : Prop :=
  (∃ p, Reach g.Edge r p ∧ g.Edge p b ∧ Dominates g.Edge r a p) ∧
    ¬ StrictlyDominates g.Edge r a b

omit [DecidableEq α] in
/-- A node whose only reachable predecessor is `p` is strictly dominated by what dominates `p`. -/
theorem not_inFrontier_of_single (hg : g.IsDigraph) (hr : r ∈ g.nodes) (hbr : b ≠ r)
    (hb : Reach g.Edge r b) (hpreds : g.numPredecessors b < 2) : ¬ InFrontier g r a b := by
  rintro ⟨⟨p, hp, hpb, hap⟩, hnot⟩
  have hpred : ∀ {w}, Reach g.Edge r w → g.Edge w b → w = p := by
    intro w hw hwb
    have hmem : ∀ {u}, Reach g.Edge r u → g.Edge u b → u ∈ g.predecessors b := fun hu hub =>
      (hg.mem_preds b (hg.mem_of_reach hr hb) _ (hg.mem_of_reach hr hu)).mpr hub
    match hl : g.predecessors b with
    | [] =>
        have hw' := hmem hw hwb
        rw [hl] at hw'
        exact absurd hw' List.not_mem_nil
    | [c] =>
        have hw' := hmem hw hwb
        have hp' := hmem hp hpb
        rw [hl, List.mem_singleton] at hw' hp'
        rw [hw', hp']
    | _ :: _ :: _ =>
        rw [ControlFlowGraph.numPredecessors, hl] at hpreds
        simp at hpreds
  -- every path to `b` passes `p`
  have hpdom : Dominates g.Edge r p b := by
    intro hav
    rcases Relation.ReflTransGen.cases_tail hav.2 with heq | ⟨w, hrw, hwb⟩
    · exact hbr heq
    · have hw : Avoids g.Edge p r w := ⟨hav.1, hrw⟩
      exact hw.right_ne (hpred hw.reach hwb.1)
  -- and `b` itself is not `p`, since nothing else leads to it
  have hpne : p ≠ b := by
    intro hpb'
    have hall : ∀ {x}, Reach g.Edge r x → Reach g.Edge r x ∧ x ≠ b := by
      intro x hx
      refine hx.closed (P := fun x => Reach g.Edge r x ∧ x ≠ b) ⟨Reach.refl r, Ne.symm hbr⟩ ?_
      rintro y z ⟨hy, hyb⟩ hyz
      refine ⟨hy.tail hyz, fun hzb => hyb ?_⟩
      rw [hpred hy (hzb ▸ hyz), hpb']
    exact (hall hb).2 rfl
  refine hnot ⟨hap.trans hpdom, ?_⟩
  rintro rfl
  exact hpne (hpdom.antisymm hap hp)

/-- What one node adds, when it is not an entry with two predecessors. -/
theorem addNode_spec (hg : g.IsDigraph) (ht : IsDomTree g r t) (hr : r ∈ g.nodes)
    {R : α → α → Prop} {res : DomFrontierMap α} (h : Holds g.nodes R res) (hb : b ∈ g.nodes)
    (hentry : b = r → g.numPredecessors b < 2) :
    ∃ res', addNode g t res b = some res' ∧
      Holds g.nodes (fun a y => R a y ∨ ((b ≠ r ∧ InFrontier g r a b) ∧ y = b)) res' := by
  unfold addNode
  by_cases hskip : ¬ t.contains b ∨ g.numPredecessors b < 2
  · rw [if_pos hskip]
    refine ⟨res, rfl, h.congr (fun a _ y => ?_)⟩
    have hnone : ¬ (b ≠ r ∧ InFrontier g r a b) := by
      rintro ⟨hbr, hin⟩
      rcases hskip with hout | hfew
      · obtain ⟨⟨p, hp, hpb, -⟩, -⟩ := hin
        exact hout (ht.contains_iff.mpr (hp.tail hpb))
      · obtain ⟨⟨p, hp, hpb, hap⟩, hnot⟩ := hin
        exact not_inFrontier_of_single hg hr hbr (hp.tail hpb) hfew ⟨⟨p, hp, hpb, hap⟩, hnot⟩
    simp [hnone]
  · rw [if_neg hskip]
    rw [not_or, not_not] at hskip
    have hbr : b ≠ r := fun heq => hskip.2 (hentry heq)
    have hbreach : Reach g.Edge r b := ht.contains_iff.mp hskip.1
    obtain ⟨q, hq, -⟩ := ht.parent b hbreach hbr
    have hpreds : ∀ p, p ∈ (g.predecessors b).filter t.contains ↔
        Reach g.Edge r p ∧ g.Edge p b := by
      intro p
      rw [List.mem_filter, ht.contains_iff]
      constructor
      · rintro ⟨hpb, hp⟩
        exact ⟨hp, (hg.mem_preds b hb p (hg.pred_mem b hb p hpb)).mp hpb⟩
      · rintro ⟨hp, hpb⟩
        exact ⟨(hg.mem_preds b hb p (hg.mem_of_reach hr hp)).mpr hpb, hp⟩
    obtain ⟨res', hres', h'⟩ := Holds.foldlM (f := addPred t b q)
      ((g.predecessors b).filter t.contains)
      (fun p hp _ _ hR => addPred_spec hg.toValid ht hr hR ((hpreds p).mp hp).1
        ((hpreds p).mp hp).2 hq) h
    refine ⟨res', ?_, h'.congr (fun a _ y => or_congr_right ?_)⟩
    · simp only [ht.idom_eq hbreach, hq, Option.bind_eq_bind, Option.bind_some]
      exact hres'
    · constructor
      · rintro ⟨p, hp, ⟨hap, hnot⟩, rfl⟩
        obtain ⟨hpr, hpb⟩ := (hpreds p).mp hp
        exact ⟨⟨hbr, ⟨p, hpr, hpb, hap⟩, hnot⟩, rfl⟩
      · rintro ⟨⟨-, ⟨p, hpr, hpb, hap⟩, hnot⟩, rfl⟩
        exact ⟨p, (hpreds p).mpr ⟨hpr, hpb⟩, ⟨hap, hnot⟩, rfl⟩

/-- Without two predecessors of the entry the construction does not panic, and the frontiers
    are exact but for the entry, which is in none. -/
theorem new_spec (hg : g.IsDigraph) (ht : IsDomTree g r t) (hr : r ∈ g.nodes)
    (hentry : g.numPredecessors r < 2) : ∃ df, new g t = some df ∧
      Holds g.nodes (fun a b => b ≠ r ∧ InFrontier g r a b) df := by
  have hinit : Holds g.nodes (fun _ _ => False)
      (HMap.ofList (g.nodes.map (fun n => (n, ([] : ISet α))))) := by
    intro a ha
    refine ⟨[], (HMap.ofList_eq_some_iff ?_).mpr (List.mem_map.mpr ⟨a, ha, rfl⟩), by simp⟩
    rw [List.map_map]
    exact (List.map_id g.nodes).symm ▸ hg.nodup
  obtain ⟨df, hdf, h⟩ := Holds.foldlM (f := addNode g t) g.nodes
    (fun b hb _ _ hR => addNode_spec hg ht hr hR hb (fun heq => heq ▸ hentry)) hinit
  refine ⟨df, hdf, h.congr (fun a _ y => ?_)⟩
  constructor
  · rintro (hfalse | ⟨b, -, hin, rfl⟩)
    · exact absurd hfalse not_false
    · exact hin
  · rintro ⟨hyr, hin⟩
    obtain ⟨⟨p, hp, hpy, -⟩, -⟩ := id hin
    exact Or.inr ⟨y, hg.mem_of_reach hr (hp.tail hpy), ⟨hyr, hin⟩, rfl⟩

/-- An entry with two predecessors makes the construction panic. -/
theorem new_eq_none (ht : IsDomTree g r t) (hr : r ∈ g.nodes)
    (hentry : 2 ≤ g.numPredecessors r) : new g t = none := by
  have hroot : ∀ res, addNode g t res r = none := by
    intro res
    have hskip : ¬ (¬ t.contains r ∨ g.numPredecessors r < 2) := by
      rw [not_or, not_not, ht.contains_iff]
      exact ⟨Reach.refl r, Nat.not_lt_of_le hentry⟩
    rw [addNode, if_neg hskip, ht.idom_eq (Reach.refl r), ht.parent_root]
    rfl
  have hfold : ∀ (l : List α), r ∈ l → ∀ res, l.foldlM (addNode g t) res = none := by
    intro l
    induction l with
    | nil => exact fun hr => absurd hr List.not_mem_nil
    | cons b l ih =>
        intro hmem res
        rw [List.foldlM_cons]
        by_cases hbr : b = r
        · rw [hbr, hroot]
          rfl
        · have hl : r ∈ l := (List.mem_cons.mp hmem).resolve_left (Ne.symm hbr)
          match addNode g t res b with
          | none => rfl
          | some res' => exact ih hl res'
  exact hfold g.nodes hr _

/-! ## Correctness -/

/-- The construction does not panic, and the frontier of each reachable node `a` is the set of
    the nodes `b` such that `a` dominates a reachable predecessor of `b` and does not strictly
    dominate `b`. -/
def Exact (g : ControlFlowGraph α) (r : α) : Prop :=
  ∃ t df, Dominance.computeDominatorTree g = some t ∧ new g t = some df ∧
    ∀ a, g.Reachable a → ∃ s, df.frontier a = some s ∧ ∀ b, b ∈ s ↔
      (∃ p, g.Reachable p ∧ g.Edge p b ∧ ∀ path, Path g.Edge r p path → a ∈ path) ∧
        ¬ ((∀ path, Path g.Edge r b path → a ∈ path) ∧ a ≠ b)

/-- Dominance frontiers are exact exactly when the entry has at most one predecessor, and no
    reachable one. -/
theorem exact_iff (hg : g.IsDigraph) (hr : g.entryNode = some r) : Exact g r ↔
    g.numPredecessors r < 2 ∧ ∀ p ∈ g.predecessors r, ¬ g.Reachable p := by
  have hrn := hg.entry_mem hr
  obtain ⟨t, ht, htree⟩ := Dominance.computeDominatorTree_spec hg.toValid hr
  have hreach : ∀ {v}, g.Reachable v ↔ Reach g.Edge r v := by
    intro v
    constructor
    · rintro ⟨r', hr', hv⟩
      obtain rfl := Option.some.inj (hr'.symm.trans hr)
      exact hv
    · exact fun hv => ⟨r, hr, hv⟩
  -- the definition, in terms of dominance
  have hdef : ∀ a b, ((∃ p, g.Reachable p ∧ g.Edge p b ∧
      ∀ path, Path g.Edge r p path → a ∈ path) ∧
      ¬ ((∀ path, Path g.Edge r b path → a ∈ path) ∧ a ≠ b)) ↔ InFrontier g r a b := by
    intro a b
    simp only [InFrontier, StrictlyDominates, dominates_iff_forall_path, hreach]
  have hself : ∀ {p}, Reach g.Edge r p → g.Edge p r → InFrontier g r p r := fun hp hpr =>
    ⟨⟨_, hp, hpr, Dominates.refl _⟩, fun hs => hs.not_root rfl⟩
  constructor
  · rintro ⟨t', df, ht', hdf, hspec⟩
    obtain rfl := Option.some.inj (ht'.symm.trans ht)
    have hfew : g.numPredecessors r < 2 := by
      by_contra hmany
      rw [new_eq_none htree hrn (Nat.le_of_not_lt hmany)] at hdf
      exact absurd hdf (by simp)
    refine ⟨hfew, fun p hp hpreach => ?_⟩
    -- the entry would be in the frontier of its predecessor
    have hpr : g.Edge p r := (hg.mem_preds r hrn p (hg.pred_mem r hrn p hp)).mp hp
    obtain ⟨df', hdf', hholds⟩ := new_spec hg htree hrn hfew
    rw [hdf, Option.some.injEq] at hdf'
    subst hdf'
    obtain ⟨s, hs, hmem⟩ := hspec p hpreach
    obtain ⟨s', hs', hmem'⟩ := hholds p (hg.pred_mem r hrn p hp)
    rw [DomFrontierMap.frontier, hs', Option.some.injEq] at hs
    subst hs
    have hin := (hmem r).mpr ((hdef p r).mpr (hself (hreach.mp hpreach) hpr))
    exact ((hmem' r).mp hin).1 rfl
  · rintro ⟨hfew, hnone⟩
    obtain ⟨df, hdf, hholds⟩ := new_spec hg htree hrn hfew
    refine ⟨t, df, ht, hdf, fun a ha => ?_⟩
    obtain ⟨s, hs, hmem⟩ := hholds a (hg.mem_of_reach hrn (hreach.mp ha))
    refine ⟨s, hs, fun b => ?_⟩
    rw [hmem, hdef]
    refine ⟨And.right, fun hin => ⟨?_, hin⟩⟩
    rintro rfl
    obtain ⟨⟨p, hp, hpb, -⟩, -⟩ := hin
    exact hnone p ((hg.mem_preds b hrn p (hg.mem_of_reach hrn hp)).mpr hpb) (hreach.mpr hp)

/-- A diamond whose join is the head of a loop. -/
theorem exact_iff_diamond : Exact (arenaGraph [[1, 2], [3], [3], [3, 4], []]) 0 := by
  have hpreds : (arenaGraph [[1, 2], [3], [3], [3, 4], []]).predecessors 0 = [] := by decide
  refine (exact_iff (g := arenaGraph [[1, 2], [3], [3], [3, 4], []])
    (arenaGraph_isDigraph (by decide)) rfl).mpr ⟨by decide, fun p hp => ?_⟩
  rw [hpreds] at hp
  exact absurd hp List.not_mem_nil

/-- The entry of a self loop is missing from its own frontier, and an entry with two
    predecessors makes the construction panic. -/
theorem not_exact_loops : ¬ Exact (arenaGraph [[0]]) 0 ∧ ¬ Exact (arenaGraph [[1, 0], [0]]) 0 := by
  constructor
  · rintro ⟨t, df, ht, hdf, hspec⟩
    have hrun : ((Dominance.computeDominatorTree (arenaGraph [[0]])).bind
        (new (arenaGraph [[0]]))).bind (fun df => df.frontier 0) = some [] := by decide +kernel
    rw [ht, Option.bind_some, hdf, Option.bind_some] at hrun
    have hreach : (arenaGraph [[0]]).Reachable 0 := ⟨0, rfl, Reach.refl 0⟩
    obtain ⟨s, hs, hmem⟩ := hspec 0 hreach
    rw [hrun, Option.some.injEq] at hs
    have hin : 0 ∈ s := by
      refine (hmem 0).mpr ⟨⟨0, hreach, by decide, fun path hpath => ?_⟩, fun hstrict =>
        hstrict.2 rfl⟩
      cases hpath <;> exact List.mem_cons_self
    rw [← hs] at hin
    exact absurd hin List.not_mem_nil
  · rintro ⟨t, df, ht, hdf, -⟩
    have hrun : ((Dominance.computeDominatorTree (arenaGraph [[1, 0], [0]])).bind
        (new (arenaGraph [[1, 0], [0]]))).isNone = true := by decide +kernel
    rw [ht, Option.bind_some, hdf] at hrun
    exact absurd hrun (by simp)

end DomFrontierMap

end Pliron
