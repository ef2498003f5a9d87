/-
  Pliron.Graph.LoopBodySpec

  The loops that the search in post-order finds.

  `Built` is what holds when some of the headers are done: the loops found are
  those of the headers done, a block has as its parent the innermost of them that
  contains it, and a loop the innermost other one that contains its header.  All
  loops inside the loop of the next header are done, and no loop around it is, so
  the units collected in `findBody` are the outermost loops and the blocks outside
  all loops among the nodes of the new loop.
-/

import Pliron.Graph.LoopTree
import Pliron.Graph.DomTreeWalk
import Pliron.Lib.NaturalLoops

namespace Pliron

open Pliron.Lib Traversals

variable {α : Type} [DecidableEq α]

namespace LoopTree

variable {g : ControlFlowGraph α} {r u v h : α} {t : DomTree α}

/-! ## Dominator tree intervals -/

/-- What the intervals hold after the sub-trees of `cs` were walked. -/
structure Numbered (g : ControlFlowGraph α) (r : α) (cs : List α) (st st' : IntervalsState α) :
    Prop where
  clock_le : st.clock ≤ st'.clock
  outside : ∀ u, ¬ (Reach g.Edge r u ∧ ∃ c ∈ cs, Dominates g.Edge r c u) →
    st'.intervals u = st.intervals u
  inside : ∀ u, Reach g.Edge r u → (∃ c ∈ cs, Dominates g.Edge r c u) →
    ∃ s e, st'.intervals u = some (s, e) ∧ st.clock ≤ s ∧ s < e ∧ e ≤ st'.clock
  dominates : ∀ u v, Reach g.Edge r u → Reach g.Edge r v → (∃ c ∈ cs, Dominates g.Edge r c u) →
    (∃ c ∈ cs, Dominates g.Edge r c v) → ∀ s e s' e', st'.intervals u = some (s, e) →
    st'.intervals v = some (s', e') → ((s ≤ s' ∧ s' < e) ↔ Dominates g.Edge r u v)

omit [DecidableEq α] in
theorem numbered_append {c : α} {cs : List α} {st st₁ st₂ : IntervalsState α}
    (hdisj : ∀ d ∈ cs, ∀ u, Reach g.Edge r u →
      ¬ (Dominates g.Edge r c u ∧ Dominates g.Edge r d u))
    (h₁ : Numbered g r [c] st st₁) (h₂ : Numbered g r cs st₁ st₂) :
    Numbered g r (c :: cs) st st₂ := by
  -- the sub-tree of the first child is not touched again
  have hkeep : ∀ u, Reach g.Edge r u → Dominates g.Edge r c u →
      st₂.intervals u = st₁.intervals u := by
    intro u hu hcu
    refine h₂.outside u (fun hin => ?_)
    obtain ⟨_, d, hd, hdu⟩ := hin
    exact hdisj d hd u hu ⟨hcu, hdu⟩
  have hsplit : ∀ {u}, (∃ d ∈ c :: cs, Dominates g.Edge r d u) →
      Dominates g.Edge r c u ∨ ∃ d ∈ cs, Dominates g.Edge r d u := by
    rintro u ⟨d, hd, hdu⟩
    rcases List.mem_cons.mp hd with rfl | hd
    · exact Or.inl hdu
    · exact Or.inr ⟨d, hd, hdu⟩
  have hone : ∀ {u}, Dominates g.Edge r c u → ∃ d ∈ [c], Dominates g.Edge r d u := fun hcu =>
    ⟨c, List.mem_singleton_self c, hcu⟩
  refine ⟨Nat.le_trans h₁.clock_le h₂.clock_le, fun u hu => ?_, fun u hu hin => ?_,
    fun u v hu hv hinu hinv s e s' e' hsu hsv => ?_⟩
  · rw [h₂.outside u (fun hin => hu ⟨hin.1, ?_⟩), h₁.outside u (fun hin => hu ⟨hin.1, ?_⟩)]
    · obtain ⟨_, d, hd, hdu⟩ := hin
      exact ⟨d, List.mem_cons.mpr (Or.inl (List.mem_singleton.mp hd)), hdu⟩
    · obtain ⟨_, d, hd, hdu⟩ := hin
      exact ⟨d, List.mem_cons_of_mem _ hd, hdu⟩
  · rcases hsplit hin with hcu | hin
    · obtain ⟨s, e, hse, hle, hlt, hend⟩ := h₁.inside u hu (hone hcu)
      exact ⟨s, e, by rw [hkeep u hu hcu, hse], hle, hlt, Nat.le_trans hend h₂.clock_le⟩
    · obtain ⟨s, e, hse, hle, hlt, hend⟩ := h₂.inside u hu hin
      exact ⟨s, e, hse, Nat.le_trans h₁.clock_le hle, hlt, hend⟩
  · rcases hsplit hinu with hcu | ⟨d, hd, hdu⟩ <;> rcases hsplit hinv with hcv | ⟨d', hd', hdv⟩
    · rw [hkeep u hu hcu] at hsu
      rw [hkeep v hv hcv] at hsv
      exact h₁.dominates u v hu hv (hone hcu) (hone hcv) s e s' e' hsu hsv
    · rw [hkeep u hu hcu] at hsu
      obtain ⟨s₁, e₁, hse, _, _, hend⟩ := h₁.inside u hu (hone hcu)
      obtain ⟨s₂, e₂, hse', hle, _, _⟩ := h₂.inside v hv ⟨d', hd', hdv⟩
      obtain ⟨rfl, rfl⟩ := Prod.mk.inj (Option.some.inj (hsu.symm.trans hse))
      obtain ⟨rfl, rfl⟩ := Prod.mk.inj (Option.some.inj (hsv.symm.trans hse'))
      refine iff_of_false (by omega) (fun huv => ?_)
      exact hdisj d' hd' v hv ⟨hcu.trans huv, hdv⟩
    · rw [hkeep v hv hcv] at hsv
      obtain ⟨s₁, e₁, hse, hlt, _, hend⟩ := h₁.inside v hv (hone hcv)
      obtain ⟨s₂, e₂, hse', hle, _, _⟩ := h₂.inside u hu ⟨d, hd, hdu⟩
      obtain ⟨rfl, rfl⟩ := Prod.mk.inj (Option.some.inj (hsv.symm.trans hse))
      obtain ⟨rfl, rfl⟩ := Prod.mk.inj (Option.some.inj (hsu.symm.trans hse'))
      refine iff_of_false (by omega) (fun huv => ?_)
      exact hdisj d hd v hv ⟨hcv, hdu.trans huv⟩
    · exact h₂.dominates u v hu hv ⟨d, hd, hdu⟩ ⟨d', hd', hdv⟩ s e s' e' hsu hsv

theorem numbered_node (ht : IsDomTree g r t) {cs : List α} (hcs : t.children v = some cs)
    (hv : Reach g.Edge r v) {st st₁ : IntervalsState α}
    (h₁ : Numbered g r cs (st.enter v) st₁) :
    ∃ st', st₁.leave v = some st' ∧ Numbered g r [v] st st' := by
  have hnot : ∀ {u}, (∃ c ∈ cs, Dominates g.Edge r c u) → ¬ Dominates g.Edge r u v := by
    rintro u ⟨c, hc, hcu⟩ huv
    have hvc := ht.strictlyDominates_child hcs hv hc
    exact hvc.2 (hvc.1.antisymm (hcu.trans huv) hv)
  -- the node is below none of its children, so their walk leaves its start alone
  have hvout : ¬ ∃ c ∈ cs, Dominates g.Edge r c v := fun hin => hnot hin (Dominates.refl v)
  have hstart : st₁.intervals v = some (st.clock, 0) := by
    rw [h₁.outside v (fun hin => hvout hin.2)]
    exact HMap.insert_self
  have hclock : st.clock + 1 ≤ st₁.clock := h₁.clock_le
  have hiff := fun {u} (hu : Reach g.Edge r u) => ht.dominates_iff_children hcs hv hu
  have hone : ∀ {u}, (∃ c ∈ [v], Dominates g.Edge r c u) → Dominates g.Edge r v u := by
    rintro u ⟨c, hc, hcu⟩
    exact List.mem_singleton.mp hc ▸ hcu
  have hget : ∀ {u}, u ≠ v → (st₁.intervals.insert v (st.clock, st₁.clock)) u =
      st₁.intervals u := fun hne => HMap.insert_of_ne hne
  have hself : (st₁.intervals.insert v (st.clock, st₁.clock)) v = some (st.clock, st₁.clock) :=
    HMap.insert_self
  refine ⟨⟨st₁.intervals.insert v (st.clock, st₁.clock), st₁.clock⟩,
    by simp [IntervalsState.leave, hstart], by show st.clock ≤ st₁.clock; omega,
    fun u hu => ?_, fun u hu hin => ?_, fun u w hu hw hinu hinw s e s' e' hsu hsw => ?_⟩
  · have hne : u ≠ v := by
      rintro rfl
      exact hu ⟨hv, u, List.mem_singleton_self u, Dominates.refl u⟩
    show (st₁.intervals.insert v (st.clock, st₁.clock)) u = st.intervals u
    rw [hget hne, h₁.outside u (fun hin => hu ⟨hin.1, v, List.mem_singleton_self v,
      (hiff hin.1).mpr (Or.inr hin.2)⟩)]
    exact HMap.insert_of_ne hne
  · show ∃ s e, (st₁.intervals.insert v (st.clock, st₁.clock)) u = some (s, e) ∧ _
    rcases (hiff hu).mp (hone hin) with rfl | hcu
    · -- the node opens before its children and closes after them
      exact ⟨st.clock, st₁.clock, hself, Nat.le_refl _, hclock, Nat.le_refl _⟩
    · obtain ⟨s, e, hse, hle, hlt, hend⟩ := h₁.inside u hu hcu
      have hne : u ≠ v := by
        rintro rfl
        exact hvout hcu
      have hle : st.clock + 1 ≤ s := hle
      exact ⟨s, e, by rw [hget hne, hse], by omega, hlt, hend⟩
  · change (st₁.intervals.insert v (st.clock, st₁.clock)) u = some (s, e) at hsu
    change (st₁.intervals.insert v (st.clock, st₁.clock)) w = some (s', e') at hsw
    have hinterval : ∀ {x}, (∃ c ∈ cs, Dominates g.Edge r c x) → Reach g.Edge r x →
        ∃ s e, st₁.intervals x = some (s, e) ∧ st.clock + 1 ≤ s ∧ s < e ∧ e ≤ st₁.clock :=
      fun hin hx => h₁.inside _ hx hin
    have hne : ∀ {x}, (∃ c ∈ cs, Dominates g.Edge r c x) → x ≠ v := by
      rintro x hin rfl
      exact hvout hin
    -- each of the two is the node itself or below a child
    rcases (hiff hu).mp (hone hinu) with rfl | hcu <;>
      rcases (hiff hw).mp (hone hinw) with rfl | hcw
    · rw [hself] at hsu hsw
      obtain ⟨rfl, rfl⟩ := Prod.mk.inj (Option.some.inj hsu)
      obtain ⟨rfl, rfl⟩ := Prod.mk.inj (Option.some.inj hsw)
      exact iff_of_true (by omega) (Dominates.refl _)
    · rw [hself] at hsu
      rw [hget (hne hcw)] at hsw
      obtain ⟨s₂, e₂, hse, hle, hlt, hend⟩ := hinterval hcw hw
      obtain ⟨rfl, rfl⟩ := Prod.mk.inj (Option.some.inj hsu)
      obtain ⟨rfl, rfl⟩ := Prod.mk.inj (Option.some.inj (hsw.symm.trans hse))
      exact iff_of_true (by omega) ((hiff hw).mpr (Or.inr hcw))
    · rw [hself] at hsw
      rw [hget (hne hcu)] at hsu
      obtain ⟨s₂, e₂, hse, hle, hlt, hend⟩ := hinterval hcu hu
      obtain ⟨rfl, rfl⟩ := Prod.mk.inj (Option.some.inj hsw)
      obtain ⟨rfl, rfl⟩ := Prod.mk.inj (Option.some.inj (hsu.symm.trans hse))
      exact iff_of_false (by omega) (hnot hcu)
    · rw [hget (hne hcu)] at hsu
      rw [hget (hne hcw)] at hsw
      exact h₁.dominates u w hu hw hcu hcw s e s' e' hsu hsw

/-- The intervals decide dominance between the nodes of the tree. -/
structure IntervalsSpec (g : ControlFlowGraph α) (r : α) (intervals : HMap α (Nat × Nat)) :
    Prop where
  reach_iff : ∀ u, (∃ i, intervals u = some i) ↔ Reach g.Edge r u
  dominates : ∀ u v s e s' e', intervals u = some (s, e) → intervals v = some (s', e') →
    ((s ≤ s' ∧ s' < e) ↔ Dominates g.Edge r u v)

theorem domIntervals_spec (ht : IsDomTree g r t) :
    ∃ intervals, domIntervals t = some intervals ∧ IntervalsSpec g r intervals := by
  have hrule : IsDomTree.WalkRule g r t
      (fun (state : Option (IntervalsState α)) node => state.map (fun s => s.enter node))
      (fun state node => state.bind (fun s => s.leave node))
      (fun cs s s' => ∀ st, s = some st → ∃ st', s' = some st' ∧ Numbered g r cs st st') := by
    refine ⟨?_, ?_, ?_⟩
    · rintro s st rfl
      refine ⟨st, rfl, Nat.le_refl _, fun _ _ => rfl, fun u _ hin => ?_,
        fun u v _ _ hin => ?_⟩
      · obtain ⟨c, hc, _⟩ := hin
        exact absurd hc List.not_mem_nil
      · obtain ⟨c, hc, _⟩ := hin
        exact absurd hc List.not_mem_nil
    · rintro c cs _ s₁ s₂ _ hdisj hW₁ hW₂ st rfl
      obtain ⟨st₁, rfl, h₁⟩ := hW₁ st rfl
      obtain ⟨st₂, rfl, h₂⟩ := hW₂ st₁ rfl
      exact ⟨st₂, rfl, numbered_append hdisj h₁ h₂⟩
    · rintro v cs _ s₁ hv hcs hW st rfl
      obtain ⟨st₁, rfl, h₁⟩ := hW _ rfl
      exact numbered_node ht hcs hv h₁
  obtain ⟨s', hwalk, hW⟩ := hrule.walk_spec ht Unit (some {})
  obtain ⟨st, rfl, hnum⟩ := hW _ rfl
  have hroot : ∀ u, ∃ c ∈ [r], Dominates g.Edge r c u := fun u =>
    ⟨r, List.mem_singleton_self r, Dominates.root u⟩
  have hreach : ∀ u, (∃ i, st.intervals u = some i) → Reach g.Edge r u := by
    rintro u ⟨i, hi⟩
    by_contra hu
    rw [hnum.outside u (fun hin => hu hin.1)] at hi
    exact absurd hi (by simp)
  refine ⟨st.intervals, by simp [domIntervals, hwalk], fun u => ⟨hreach u, fun hu => ?_⟩,
    fun u v s e s' e' hsu hsv => ?_⟩
  · obtain ⟨s, e, hse, _⟩ := hnum.inside u hu (hroot u)
    exact ⟨_, hse⟩
  · exact hnum.dominates u v (hreach u ⟨_, hsu⟩) (hreach v ⟨_, hsv⟩) (hroot u) (hroot v)
      s e s' e' hsu hsv

/-- The predecessors that the intervals pick are the latches. -/
theorem findLatches_spec (hg : g.Valid) (hr : r ∈ g.nodes) {intervals : HMap α (Nat × Nat)}
    (hi : IntervalsSpec g r intervals) (hh : Reach g.Edge r h) :
    ∃ latches, findLatches g intervals h = some latches ∧ latches.Nodup ∧
      ∀ l, l ∈ latches ↔ Latch g.Edge r h l := by
  obtain ⟨⟨hs, he⟩, hint⟩ := (hi.reach_iff h).mpr hh
  refine ⟨_, by rw [findLatches, hint]; rfl, nodup_eraseDups _, fun l => ?_⟩
  rw [List.mem_eraseDups, List.mem_filter]
  constructor
  · rintro ⟨hpred, hfilter⟩
    cases hl : intervals l with
    | none => simp [hl] at hfilter
    | some i =>
        obtain ⟨ls, le⟩ := i
        rw [hl] at hfilter
        have hlr := (hi.reach_iff l).mp ⟨_, hl⟩
        have hln := hg.mem_of_reach hr hlr
        have hdom := (hi.dominates h l hs he ls le hint hl).mp (by simpa using hfilter)
        exact ⟨hlr, (hg.mem_preds h (hg.mem_of_reach hr hh) l hln).mp hpred, hdom⟩
  · intro hl
    have hln := hg.mem_of_reach hr hl.reach
    obtain ⟨⟨ls, le⟩, hint'⟩ := (hi.reach_iff l).mpr hl.reach
    refine ⟨(hg.mem_preds h (hg.mem_of_reach hr hh) l hln).mpr hl.edge, ?_⟩
    rw [hint']
    simpa using (hi.dominates h l hs he ls le hint hint').mpr hl.dominates

/-! ## Links -/

/-- The parent links name the innermost enclosing loops. -/
structure Nested (g : ControlFlowGraph α) (r : α) (tree : LoopTree α) : Prop where
  headers_nodup : (tree.loops.map Loop.header).Nodup
  isHeader : ∀ l ∈ tree.loops, IsHeader g.Edge r l.header
  block_some : ∀ u i, tree.blockParent u = some i → ∃ l, tree.loops[i]? = some l ∧
    InLoop g.Edge r l.header u ∧ ∀ l' ∈ tree.loops, InLoop g.Edge r l'.header u →
      InLoop g.Edge r l'.header l.header
  block_none : ∀ u, tree.blockParent u = none → ∀ l ∈ tree.loops, ¬ InLoop g.Edge r l.header u
  parent_some : ∀ (i : Nat) l (k : Nat), tree.loops[i]? = some l → l.parent = some k → i < k ∧
    ∃ l', tree.loops[k]? = some l' ∧ InLoop g.Edge r l'.header l.header ∧
      ∀ l'' ∈ tree.loops, l''.header ≠ l.header → InLoop g.Edge r l''.header l.header →
        InLoop g.Edge r l''.header l'.header
  parent_none : ∀ l ∈ tree.loops, l.parent = none → ∀ l' ∈ tree.loops,
    InLoop g.Edge r l'.header l.header → l'.header = l.header

/-- The unit of the tree that holds a node: the outermost loop, or the node itself. -/
def IsUnit (g : ControlFlowGraph α) (r : α) (tree : LoopTree α) : LoopTreeNode α → α → Prop
  | .block b, u => b = u ∧ ∀ l ∈ tree.loops, ¬ InLoop g.Edge r l.header u
  | .loop k, u => ∃ l, tree.loops[k]? = some l ∧ InLoop g.Edge r l.header u ∧
      ∀ l' ∈ tree.loops, InLoop g.Edge r l'.header u → InLoop g.Edge r l.header l'.header

section Units

variable {tree : LoopTree α} {n n' : LoopTreeNode α} {i j : LoopId} {l l' : Loop α}

omit [DecidableEq α] in
theorem Nested.eq_of_header_eq (hn : Nested g r tree) (hi : tree.loops[i]? = some l)
    (hj : tree.loops[j]? = some l') (heq : l.header = l'.header) : i = j := by
  refine eq_of_getElem?_eq hn.headers_nodup (v := l.header) ?_ ?_
  · rw [List.getElem?_map, hi]
    rfl
  · rw [List.getElem?_map, hj, heq]
    rfl

omit [DecidableEq α] in
/-- Climbing the parent links ends at a loop that no other loop encloses. -/
theorem Nested.outermost_spec (hn : Nested g r tree) (fuel : Nat) :
    ∀ (i : Nat) l, tree.loops[i]? = some l → tree.loops.length ≤ fuel + i →
      ∃ k l', tree.outermost fuel i = some k ∧ tree.loops[k]? = some l' ∧ l'.parent = none ∧
        InLoop g.Edge r l'.header l.header := by
  induction fuel with
  | zero =>
      intro i l hi hlen
      have hlt := (List.getElem?_eq_some_iff.mp hi).1
      omega
  | succ fuel ih =>
      intro i l hi hlen
      cases hp : l.parent with
      | none =>
          refine ⟨i, l, by simp [outermost, hi, hp], hi, hp, InLoop.self ?_⟩
          exact hn.isHeader l (List.mem_of_getElem? hi)
      | some p =>
          obtain ⟨hlt, lp, hlp, hin, _⟩ := hn.parent_some i l p hi hp
          obtain ⟨k, l', hk, hl', hnone, hin'⟩ := ih p lp hlp (by omega)
          exact ⟨k, l', by simp [outermost, hi, hp, hk], hl', hnone, hin'.trans hin⟩

omit [DecidableEq α] in
theorem Nested.loopAncestor_spec (hn : Nested g r tree) (u : α) :
    ∃ n, tree.loopAncestor u = some n ∧ IsUnit g r tree n u := by
  cases hu : tree.blockParent u with
  | none =>
      refine ⟨.block u, by simp [loopAncestor, blockLoopParent, hu], rfl, hn.block_none u hu⟩
  | some i =>
      obtain ⟨l, hi, hin, _⟩ := hn.block_some u i hu
      obtain ⟨k, l', hk, hl', hnone, hin'⟩ :=
        hn.outermost_spec tree.loops.length i l hi (Nat.le_add_right _ _)
      refine ⟨.loop k, by simp [loopAncestor, blockLoopParent, hu, hk], l', hl',
        hin'.trans hin, fun l'' hl'' hu'' => ?_⟩
      rcases (hin'.trans hin).comparable hu'' with h' | h'
      · exact h'
      · rw [hn.parent_none l' (List.mem_of_getElem? hl') hnone l'' hl'' h']
        exact InLoop.self (hn.isHeader l' (List.mem_of_getElem? hl'))

omit [DecidableEq α] in
theorem IsUnit.unique (hn : Nested g r tree) (h₁ : IsUnit g r tree n u)
    (h₂ : IsUnit g r tree n' u) : n = n' := by
  rcases n with b | k <;> rcases n' with b' | k'
  · rw [h₁.1, h₂.1]
  · obtain ⟨l, hl, hin, _⟩ := h₂
    exact absurd hin (h₁.2 l (List.mem_of_getElem? hl))
  · obtain ⟨l, hl, hin, _⟩ := h₁
    exact absurd hin (h₂.2 l (List.mem_of_getElem? hl))
  · obtain ⟨l, hl, hin, hmax⟩ := h₁
    obtain ⟨l', hl', hin', hmax'⟩ := h₂
    have heq := (hmax l' (List.mem_of_getElem? hl') hin').antisymm
      (hmax' l (List.mem_of_getElem? hl) hin)
    rw [hn.eq_of_header_eq hl hl' heq]

omit [DecidableEq α] in
/-- A loop is the unit of all its nodes, if it is the unit of one of them. -/
theorem IsUnit.of_inLoop (hn : IsUnit g r tree (.loop i) u) (hi : tree.loops[i]? = some l)
    (hv : InLoop g.Edge r l.header v) : IsUnit g r tree (.loop i) v := by
  obtain ⟨l₀, hl₀, hin, hmax⟩ := hn
  obtain rfl := Option.some.inj (hi.symm.trans hl₀)
  refine ⟨l, hi, hv, fun l' hl' hv' => ?_⟩
  rcases hv.comparable hv' with h' | h'
  · exact h'
  · exact hmax l' hl' (h'.trans hin)

omit [DecidableEq α] in
/-- A unit inside a new loop is entered at a node of that loop. -/
theorem IsUnit.entry (hn : IsUnit g r tree n u) (hu : InLoop g.Edge r h u) (hne : u ≠ h)
    (hh : ∀ l ∈ tree.loops, ¬ InLoop g.Edge r l.header h) :
    ∃ b, tree.entryBlock n = some b ∧ InLoop g.Edge r h b ∧ b ≠ h ∧ IsUnit g r tree n b := by
  rcases n with b | k
  · obtain ⟨rfl, hout⟩ := hn
    exact ⟨b, rfl, hu, hne, rfl, hout⟩
  · obtain ⟨l, hl, hin, _⟩ := id hn
    have hmem := List.mem_of_getElem? hl
    have hself : InLoop g.Edge r l.header l.header := InLoop.self hin.isHeader
    refine ⟨l.header, by simp [entryBlock, hl], ?_, ?_, hn.of_inLoop hl hself⟩
    · exact (hu.comparable hin).resolve_right (hh l hmem)
    · rintro rfl
      exact hh l hmem hself

end Units

/-! ## The backward walk -/

section Body

variable {tree : LoopTree α}

/-- What adding the units of some blocks does to the walk. -/
structure Added (g : ControlFlowGraph α) (r : α) (tree : LoopTree α) (ps : List α)
    (st st' : BodyState α) : Prop where
  new : ∃ new, st'.body = st.body ++ new ∧ st'.queue = new.reverse ++ st.queue ∧
    ∀ n ∈ new, ∃ p ∈ ps, IsUnit g r tree n p
  nodup : st.body.Nodup → st'.body.Nodup
  mem : ∀ p ∈ ps, ∃ n ∈ st'.body, IsUnit g r tree n p

theorem Nested.addToBody_spec (hn : Nested g r tree) (ps : List α) (st : BodyState α) :
    ∃ st', ps.foldlM tree.addToBody st = some st' ∧ Added g r tree ps st st' := by
  induction ps generalizing st with
  | nil => exact ⟨st, rfl, ⟨[], by simp, by simp, by simp⟩, id, by simp⟩
  | cons p ps ih =>
      obtain ⟨n, hanc, hunit⟩ := hn.loopAncestor_spec p
      by_cases hmem : n ∈ st.body
      · obtain ⟨st', hfold, ⟨new, hbody, hqueue, hnew⟩, hnodup, hps⟩ := ih st
        refine ⟨st', ?_, ⟨new, hbody, hqueue, fun m hm => ?_⟩, hnodup, fun q hq => ?_⟩
        · simpa [addToBody, hanc, hmem] using hfold
        · obtain ⟨q, hq, hmq⟩ := hnew m hm
          exact ⟨q, List.mem_cons_of_mem _ hq, hmq⟩
        · rcases List.mem_cons.mp hq with rfl | hq
          · exact ⟨n, by rw [hbody]; exact List.mem_append_left _ hmem, hunit⟩
          · exact hps q hq
      · obtain ⟨st', hfold, ⟨new, hbody, hqueue, hnew⟩, hnodup, hps⟩ :=
          ih { body := st.body ++ [n], queue := n :: st.queue }
        refine ⟨st', ?_, ⟨n :: new, ?_, ?_, fun m hm => ?_⟩, fun h => hnodup ?_, fun q hq => ?_⟩
        · simpa [addToBody, hanc, hmem] using hfold
        · rw [hbody, List.append_assoc]
          rfl
        · rw [hqueue, List.reverse_cons, List.append_assoc]
          rfl
        · rcases List.mem_cons.mp hm with rfl | hm
          · exact ⟨p, List.mem_cons_self, hunit⟩
          · obtain ⟨q, hq, hmq⟩ := hnew m hm
            exact ⟨q, List.mem_cons_of_mem _ hq, hmq⟩
        · refine List.nodup_append.mpr ⟨h, List.nodup_singleton n, fun a ha b hb heq => hmem ?_⟩
          rwa [heq, List.mem_singleton.mp hb] at ha
        · rcases List.mem_cons.mp hq with rfl | hq
          · refine ⟨n, ?_, hunit⟩
            rw [hbody]
            exact List.mem_append_left _ (List.mem_append_right _ (List.mem_singleton_self n))
          · exact hps q hq

/-- What holds of the backward walk between two iterations. -/
structure BodyInv (g : ControlFlowGraph α) (r h : α) (tree : LoopTree α) (st : BodyState α) :
    Prop where
  nodup : st.body.Nodup
  queue_mem : ∀ n ∈ st.queue, n ∈ st.body
  sound : ∀ n ∈ st.body, ∃ u, InLoop g.Edge r h u ∧ u ≠ h ∧ IsUnit g r tree n u
  closed : ∀ n ∈ st.body, n ∉ st.queue → ∀ b, tree.entryBlock n = some b → ∀ p,
    Reach g.Edge r p → g.Edge p b → p ≠ h → ∃ m ∈ st.body, IsUnit g r tree m p
  latches : ∀ l, Latch g.Edge r h l → l ≠ h → ∃ m ∈ st.body, IsUnit g r tree m l

/-- The walk looks at the predecessors of the unit taken from the queue. -/
theorem BodyInv.pop (hg : g.Valid) (hr : r ∈ g.nodes) (ht : IsDomTree g r t)
    (hn : Nested g r tree) (hh : ∀ l ∈ tree.loops, ¬ InLoop g.Edge r l.header h)
    {st : BodyState α} {n : LoopTreeNode α} {queue : List (LoopTreeNode α)}
    (hst : BodyInv g r h tree st) (hqueue : st.queue = n :: queue) :
    ∃ b st', tree.entryBlock n = some b ∧
      ((g.predecessors b).filter (fun pred => pred ≠ h && t.contains pred)).foldlM tree.addToBody
        { st with queue := queue } = some st' ∧ BodyInv g r h tree st' ∧
      st'.queue.length + st.body.length + 1 = st.queue.length + st'.body.length := by
  have hnbody := hst.queue_mem n (by simp [hqueue])
  obtain ⟨u, hu, hune, hunit⟩ := hst.sound n hnbody
  obtain ⟨b, hb, hbin, hbne, hbunit⟩ := hunit.entry hu hune hh
  have hbn : b ∈ g.nodes := hg.mem_of_reach hr hbin.reach
  have hpreds : ∀ p, p ∈ (g.predecessors b).filter (fun pred => pred ≠ h && t.contains pred) ↔
      Reach g.Edge r p ∧ g.Edge p b ∧ p ≠ h := by
    intro p
    simp only [List.mem_filter, Bool.and_eq_true, decide_eq_true_eq, ht.contains_iff]
    constructor
    · rintro ⟨hp, hne, hpr⟩
      exact ⟨hpr, (hg.mem_preds b hbn p (hg.mem_of_reach hr hpr)).mp hp, hne⟩
    · rintro ⟨hpr, hp, hne⟩
      exact ⟨(hg.mem_preds b hbn p (hg.mem_of_reach hr hpr)).mpr hp, hne, hpr⟩
  obtain ⟨st', hfold, ⟨new, hbody, hqueue', hnew⟩, hnodup, hmem⟩ :=
    hn.addToBody_spec ((g.predecessors b).filter (fun pred => pred ≠ h && t.contains pred))
      { st with queue := queue }
  have hkeep : ∀ {m}, m ∈ st.body → m ∈ st'.body := fun hm => by
    rw [hbody]
    exact List.mem_append_left _ hm
  refine ⟨b, st', hb, hfold, ⟨hnodup hst.nodup, fun m hm => ?_, fun m hm => ?_,
    fun m hm hmq c hc p hpr hpc hpne => ?_, fun l hl hlne => ?_⟩, ?_⟩
  · rw [hqueue', List.mem_append, List.mem_reverse] at hm
    rcases hm with hm | hm
    · rw [hbody]
      exact List.mem_append_right _ hm
    · exact hkeep (hst.queue_mem m (by simp [hqueue, hm]))
  · rw [hbody] at hm
    rcases List.mem_append.mp hm with hm | hm
    · exact hst.sound m hm
    · obtain ⟨p, hp, hmp⟩ := hnew m hm
      obtain ⟨hpr, hpb, hpne⟩ := (hpreds p).mp hp
      exact ⟨p, hbin.pred hbne hpr hpb, hpne, hmp⟩
  · by_cases hmn : m = n
    · subst hmn
      obtain rfl := Option.some.inj (hb.symm.trans hc)
      exact hmem p ((hpreds p).mpr ⟨hpr, hpc, hpne⟩)
    · rw [hqueue', List.mem_append, List.mem_reverse, not_or] at hmq
      have hmold : m ∈ st.body := by
        rw [hbody] at hm
        exact (List.mem_append.mp hm).resolve_right hmq.1
      have hmq' : m ∉ st.queue := by
        rw [hqueue, List.mem_cons, not_or]
        exact ⟨hmn, hmq.2⟩
      obtain ⟨m', hm', hmp⟩ := hst.closed m hmold hmq' c hc p hpr hpc hpne
      exact ⟨m', hkeep hm', hmp⟩
  · obtain ⟨m, hm, hml⟩ := hst.latches l hl hlne
    exact ⟨m, hkeep hm, hml⟩
  · rw [hbody, hqueue', hqueue]
    simp only [List.length_append, List.length_reverse, List.length_cons]
    omega

/-- The units there are. -/
def allUnits (g : ControlFlowGraph α) (tree : LoopTree α) : List (LoopTreeNode α) :=
  g.nodes.map .block ++ (List.range tree.loops.length).map .loop

omit [DecidableEq α] in
theorem BodyInv.length_le (hg : g.Valid) (hr : r ∈ g.nodes) {st : BodyState α}
    (hst : BodyInv g r h tree st) : st.body.length ≤ g.nodes.length + tree.loops.length := by
  have hsub : st.body ⊆ allUnits g tree := by
    intro n hnb
    obtain ⟨u, hu, _, hunit⟩ := hst.sound n hnb
    rcases n with b | k
    · refine List.mem_append_left _ (List.mem_map_of_mem ?_)
      rw [hunit.1]
      exact hg.mem_of_reach hr hu.reach
    · obtain ⟨l, hl, _⟩ := hunit
      refine List.mem_append_right _ (List.mem_map_of_mem (List.mem_range.mpr ?_))
      exact (List.getElem?_eq_some_iff.mp hl).1
  have hle := (hst.nodup.subperm hsub).length_le
  simpa [allUnits] using hle

/-- When the queue is empty, the body has the units of all nodes of the loop. -/
theorem BodyInv.complete {st : BodyState α}
    (hst : BodyInv g r h tree st) (hqueue : st.queue = []) {u : α}
    (hu : InLoop g.Edge r h u) (hne : u ≠ h) : ∃ m ∈ st.body, IsUnit g r tree m u := by
  cases hu with
  | header _ => exact absurd rfl hne
  | @body l _ hl hur hul =>
      -- backward along the path to the latch
      have key : Reach g.Edge r u → ∃ m ∈ st.body, IsUnit g r tree m u := by
        refine hul.head_induction
          (P := fun x => Reach g.Edge r x → ∃ m ∈ st.body, IsUnit g r tree m x)
          (fun _ => hst.latches l hl hul.right_ne) ?_
        intro x y hx hxy hyl ih hxr
        obtain ⟨m, hm, hmy⟩ := ih (hxr.tail hxy)
        rcases m with b | k
        · obtain ⟨rfl, _⟩ := hmy
          exact hst.closed _ hm (by simp [hqueue]) b rfl x hxr hxy hx
        · obtain ⟨lk, hlk, hin, _⟩ := id hmy
          by_cases hyk : y = lk.header
          · refine hst.closed _ hm (by simp [hqueue]) y ?_ x hxr hxy hx
            simp [entryBlock, hlk, hyk]
          · exact ⟨.loop k, hm, hmy.of_inLoop hlk (hin.pred hyk hxr hxy)⟩
      exact key hur

theorem bodyLoop_spec (hg : g.Valid) (hr : r ∈ g.nodes) (ht : IsDomTree g r t)
    (hn : Nested g r tree) (hh : ∀ l ∈ tree.loops, ¬ InLoop g.Edge r l.header h) (fuel : Nat) :
    ∀ st, BodyInv g r h tree st →
      st.queue.length + (g.nodes.length + tree.loops.length) ≤ fuel + st.body.length →
      ∃ st', tree.bodyLoop g t h fuel st = some st'.body ∧ BodyInv g r h tree st' ∧
        st'.queue = [] := by
  induction fuel with
  | zero =>
      intro st hst hfuel
      have hle := hst.length_le hg hr
      have hnil : st.queue = [] := List.eq_nil_of_length_eq_zero (by omega)
      exact ⟨st, by simp [bodyLoop, hnil], hst, hnil⟩
  | succ fuel ih =>
      intro st hst hfuel
      match hqueue : st.queue with
      | [] => exact ⟨st, by simp [bodyLoop, hqueue], hst, hqueue⟩
      | n :: queue =>
          obtain ⟨b, st₁, hb, hfold, hst₁, hlen⟩ := hst.pop hg hr ht hn hh hqueue
          obtain ⟨st', hloop, hst', hnil⟩ := ih st₁ hst₁ (by omega)
          refine ⟨st', ?_, hst', hnil⟩
          rw [bodyLoop, hqueue]
          simp only [hb, hfold, hloop, Option.bind_eq_bind, Option.bind_some]

end Body

end LoopTree

end Pliron
