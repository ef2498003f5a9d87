/-
  Pliron.Graph.SccSpec

  What `sccsInTopologicalOrder` computes: its loop refines the search of
  `Pliron.Lib.Tarjan`, one step for one step, so it ends without a panic and
  lists the strongly connected components of all nodes in topological order.
-/

import Pliron.Graph.TraversalSpec
import Pliron.Lib.Tarjan

namespace Pliron

open Pliron.Lib

variable {α : Type} [DecidableEq α]

namespace Traversals

variable {g : ControlFlowGraph α}

/-! ## The refinement -/

/-- The variables of the source describe a state of the search. -/
structure SccRefines (st : SccState α) (s : TarjanState α) : Prop where
  callStack : st.callStack = s.dfs.stack
  indexOf : ∀ v, st.indexOf v = if v ∈ s.dfs.opened then some (s.dfs.pre v) else none
  lowlink : ∀ v ∈ s.dfs.opened, st.lowlink v = some (s.low v)
  nextIndex : st.nextIndex = s.dfs.opened.length
  sccStack : st.sccStack = s.sccStack
  onSccStack : ∀ v, v ∈ st.onSccStack ↔ v ∈ s.sccStack
  sccs : st.sccs.map Scc.nodes = s.sccs.reverse

namespace SccRefines

variable {st : SccState α} {s : TarjanState α} {roots : List α} {n v : α} {i : Nat}
  {rest : List (α × Nat)}

/-- Popping a component takes everything down to its root. -/
theorem popComponent_spec {a b : List α} (hn : n ∉ a) (on : List α) :
    ∃ on', SccState.popComponent n (a ++ n :: b) on = some (a ++ [n], b, on') ∧
      ∀ v, v ∈ on' ↔ v ∈ on ∧ v ∉ a ++ [n] := by
  induction a generalizing on with
  | nil =>
      refine ⟨on.filter (fun u => u ≠ n), by simp [SccState.popComponent], fun v => ?_⟩
      simp
  | cons m a ih =>
      rw [List.mem_cons, not_or] at hn
      obtain ⟨on', hpop, hmem⟩ := ih hn.2 (on.filter (fun u => u ≠ m))
      refine ⟨on', ?_, fun v => ?_⟩
      · rw [List.cons_append, SccState.popComponent, if_neg (Ne.symm hn.1), hpop]
        rfl
      · rw [hmem, List.mem_filter, List.cons_append, List.mem_cons, not_or]
        simp [and_assoc]

/-- Visiting a node for the first time. -/
theorem visit (h : SccRefines st s) (hv : v ∉ s.dfs.opened) {st' : SccState α}
    (hst : st' = { st with callStack := rest }) :
    SccRefines (st'.visit v) ⟨⟨(v, 0) :: rest, s.dfs.opened ++ [v], s.dfs.closed⟩,
      Function.update s.low v s.dfs.opened.length, v :: s.sccStack, s.sccs⟩ := by
  subst hst
  have hne : ∀ {u}, u ∈ s.dfs.opened → v ≠ u := by
    rintro u hu rfl
    exact hv hu
  refine ⟨rfl, fun u => ?_, fun u hu => ?_, ?_, ?_, fun u => ?_, h.sccs⟩
  · by_cases huv : v = u
    · subst huv
      simp [SccState.visit, DfsState.pre, h.nextIndex, idxOf_snoc_self hv]
    · have hins := HMap.insert_of_ne (m := st.indexOf) (b := st.nextIndex) (Ne.symm huv)
      by_cases hu : u ∈ s.dfs.opened
      · simp [SccState.visit, hins, h.indexOf, DfsState.pre, hu, idxOf_snoc_of_mem hu]
      · simp [SccState.visit, hins, h.indexOf, hu, Ne.symm huv]
  · rcases List.mem_append.mp hu with hu | hu
    · have huv := Ne.symm (hne hu)
      simp [SccState.visit, HMap.insert_of_ne huv, Function.update_of_ne huv, h.lowlink u hu]
    · obtain rfl := List.mem_singleton.mp hu
      simp [SccState.visit, h.nextIndex]
  · simp [SccState.visit, h.nextIndex]
  · simp [SccState.visit, h.sccStack]
  · simp only [SccState.visit, List.mem_append, h.onSccStack, List.mem_cons]
    tauto

/-- Handing a low link down the call stack. -/
theorem propagate (h : SccRefines st s) (hopen : ∀ p ∈ s.dfs.openNodes, p ∈ s.dfs.opened)
    (n : α) : ∃ st', st.propagate (s.low n) = some st' ∧
      SccRefines st' { s with low := s.propagate n s.dfs.stack } := by
  match hs : s.dfs.stack with
  | [] =>
      refine ⟨st, by simp [SccState.propagate, h.callStack, hs], ?_⟩
      exact ⟨h.callStack, h.indexOf, h.lowlink, h.nextIndex, h.sccStack, h.onSccStack, h.sccs⟩
  | (p, j) :: rest =>
      have hp : p ∈ s.dfs.opened := hopen p (by simp [DfsState.openNodes, hs])
      refine ⟨{ st with lowlink := st.lowlink.insert p (min (s.low p) (s.low n)) },
        by simp [SccState.propagate, h.callStack, hs, h.lowlink p hp],
        ⟨h.callStack, h.indexOf, fun u hu => ?_, h.nextIndex, h.sccStack, h.onSccStack, h.sccs⟩⟩
      by_cases hup : p = u
      · subst hup
        simp [TarjanState.propagate]
      · have hu : u ∈ s.dfs.opened := hu
        simp [TarjanState.propagate, HMap.insert_of_ne (Ne.symm hup),
          Function.update_of_ne (Ne.symm hup), h.lowlink u hu]

/-- One iteration of the source is one step of the search. -/
theorem step (h : SccRefines st s) (hinv : TarjanInv g.successors roots s) :
    ∃ st', st.step g = some st' ∧ SccRefines st' (s.step g.successors) := by
  rcases hs : s.dfs.stack with _ | ⟨⟨n, i⟩, rest⟩
  · refine ⟨st, by simp [SccState.step, h.callStack, hs], ?_⟩
    rw [TarjanState.step, hs]
    exact h
  · have hcall : st.callStack = (n, i) :: rest := h.callStack.trans hs
    have hn : n ∈ s.dfs.opened := hinv.dfs.mem_opened_of_open (TarjanInv.top_mem hs)
    have hnS : n ∈ s.sccStack := hinv.open_mem n (TarjanInv.top_mem hs)
    cases hv : (g.successors n)[i]? with
    | some v =>
        have hget : g.getSuccessor n i = some v := hv
        by_cases hseen : v ∈ s.dfs.opened
        · rw [TarjanState.step_seen hs hv hseen]
          have hindex : st.indexOf v = some (s.dfs.pre v) := by rw [h.indexOf, if_pos hseen]
          -- only a node still on the stack can lower the lowlink
          by_cases hvS : v ∈ s.sccStack
          · refine ⟨{ st with
                callStack := (n, i + 1) :: rest
                lowlink := st.lowlink.insert n (min (s.low n) (s.dfs.pre v)) },
              by simp [SccState.step, hcall, hget, hindex, h.onSccStack, hvS, h.lowlink n hn],
              ⟨rfl, h.indexOf, fun u hu => ?_, h.nextIndex, h.sccStack, h.onSccStack, h.sccs⟩⟩
            by_cases hun : n = u
            · subst hun
              simp [TarjanState.seenLow_self, hvS]
            · have hu : u ∈ s.dfs.opened := hu
              simp [HMap.insert_of_ne (Ne.symm hun), TarjanState.seenLow_of_ne (Ne.symm hun),
                h.lowlink u hu]
          · refine ⟨{ st with callStack := (n, i + 1) :: rest },
              by simp [SccState.step, hcall, hget, hindex, h.onSccStack, hvS],
              ⟨rfl, h.indexOf, fun u hu => ?_, h.nextIndex, h.sccStack, h.onSccStack, h.sccs⟩⟩
            simp [TarjanState.seenLow, hvS, h.lowlink u hu]
        · rw [TarjanState.step_open hs hv hseen]
          have hindex : st.indexOf v = none := by rw [h.indexOf, if_neg hseen]
          exact ⟨_, by simp only [SccState.step, hcall, hget, hindex], h.visit hseen rfl⟩
    | none =>
        have hget : g.getSuccessor n i = none := hv
        have hopen : ∀ p ∈ rest.map Prod.fst, p ∈ s.dfs.opened := fun p hp =>
          hinv.dfs.mem_opened_of_open (by
            simp only [DfsState.openNodes, hs, List.map_cons]
            exact List.mem_cons_of_mem _ hp)
        have hindex : st.indexOf n = some (s.dfs.pre n) := by rw [h.indexOf, if_pos hn]
        by_cases hroot : s.low n = s.dfs.pre n
        · rw [TarjanState.step_root hs hv hroot]
          -- popping down to `n` takes the component off the stack
          obtain ⟨a, b, hab, hna⟩ := List.eq_append_cons_of_mem hnS
          obtain ⟨on', hpop, hon'⟩ := popComponent_spec (b := b) hna st.onSccStack
          have hne : ∀ u ∈ a, decide (u ≠ n) = true := by
            intro u hu
            refine decide_eq_true (fun heq => ?_)
            rw [heq] at hu
            exact hna hu
          have htake : s.sccStack.takeWhile (fun u => u ≠ n) = a := by
            rw [hab, List.takeWhile_append_of_pos hne]
            simp
          have hdrop : (s.sccStack.dropWhile (fun u => u ≠ n)).tail = b := by
            rw [hab, List.dropWhile_append_of_pos hne]
            simp
          obtain ⟨first, hfirst⟩ : ∃ first, (a ++ [n])[0]? = some first :=
            ⟨_, List.getElem?_eq_getElem (by simp)⟩
          have hnodup : s.sccStack.Nodup := (List.nodup_append.mp hinv.nodup).1
          rw [hab, List.nodup_append, List.nodup_cons] at hnodup
          have hpopped : SccRefines { st with
              callStack := rest
              sccStack := b
              onSccStack := on'
              sccs := st.sccs ++ [⟨a ++ [n],
                (a ++ [n]).length > 1 || (g.successors first).contains first⟩] }
              ⟨⟨rest, s.dfs.opened, s.dfs.closed ++ [n]⟩, s.low, b, (a ++ [n]) :: s.sccs⟩ := by
            refine ⟨rfl, h.indexOf, h.lowlink, h.nextIndex, rfl, fun u => ?_, by simp [h.sccs]⟩
            simp only [hon', h.onSccStack, hab, List.mem_append, List.mem_cons,
              List.not_mem_nil, or_false]
            constructor
            · tauto
            · intro hu
              refine ⟨Or.inr (Or.inr hu), ?_⟩
              rintro (hua | rfl)
              · exact hnodup.2.2 u hua u (List.mem_cons_of_mem _ hu) rfl
              · exact hnodup.2.1.1 hu
          obtain ⟨st', hst', href⟩ := hpopped.propagate hopen n
          refine ⟨st', ?_, by rw [htake, hdrop]; exact href⟩
          rw [← hst']
          simp only [SccState.step, hcall, hget, h.lowlink n hn, SccState.popIfRoot, hindex,
            hroot, h.sccStack, hab, hpop, hfirst, Option.bind_eq_bind, Option.bind_some, if_true]
        · rw [TarjanState.step_close hs hv hroot]
          have hpopped : SccRefines { st with callStack := rest }
              ⟨⟨rest, s.dfs.opened, s.dfs.closed ++ [n]⟩, s.low, s.sccStack, s.sccs⟩ :=
            ⟨rfl, h.indexOf, h.lowlink, h.nextIndex, h.sccStack, h.onSccStack, h.sccs⟩
          obtain ⟨st', hst', href⟩ := hpopped.propagate hopen n
          refine ⟨st', ?_, href⟩
          rw [← hst']
          simp [SccState.step, hcall, hget, h.lowlink n hn, SccState.popIfRoot, hindex, hroot]

/-- The loop ends when the search does. -/
theorem loop (h : SccRefines st s) (hinv : TarjanInv g.successors roots s) (fuel : Nat)
    (hstack : (s.run g.successors fuel).dfs.stack = []) :
    ∃ st', SccState.loop g fuel st = some st' ∧ SccRefines st' (s.run g.successors fuel) := by
  induction fuel generalizing st s with
  | zero =>
      refine ⟨st, ?_, h⟩
      have hcall : st.callStack = [] := h.callStack.trans hstack
      simp [SccState.loop, hcall]
  | succ fuel ih =>
      unfold TarjanState.run at hstack ⊢
      by_cases hs : s.dfs.stack = []
      · rw [if_pos hs]
        exact ⟨st, by simp [SccState.loop, h.callStack, hs], h⟩
      · rw [if_neg hs] at hstack ⊢
        obtain ⟨st₁, hst₁, h₁⟩ := h.step hinv
        obtain ⟨st₂, hst₂, h₂⟩ := ih h₁ hinv.step hstack
        exact ⟨st₂, by simp [SccState.loop, h.callStack, hs, hst₁, hst₂], h₂⟩

end SccRefines

/-! ## The components -/

/-- The search over a list of first nodes. -/
theorem foldlM_sccs (hg : g.Closed) (l : List α) (hl : ∀ v ∈ l, v ∈ g.nodes) {st : SccState α}
    {s : TarjanState α} {roots : List α} (h : SccRefines st s)
    (hinv : TarjanInv g.successors roots s) (hroots : ∀ v ∈ roots, v ∈ g.nodes)
    (hstack : s.dfs.stack = []) :
    ∃ st' s' roots', l.foldlM (fun (st : SccState α) root =>
        if (st.indexOf root).isSome then some st
        else SccState.loop g (walkFuel g) ({ st with callStack := [] }.visit root)) st = some st' ∧
      SccRefines st' s' ∧ TarjanInv g.successors roots' s' ∧ (∀ v ∈ roots', v ∈ g.nodes) ∧
      s'.dfs.stack = [] ∧ ∀ v, v ∈ s.dfs.opened ∨ v ∈ l → v ∈ s'.dfs.opened := by
  induction l generalizing st s roots with
  | nil => exact ⟨st, s, roots, rfl, h, hinv, hroots, hstack, by simp⟩
  | cons r l ih =>
      have hr : r ∈ g.nodes := hl r List.mem_cons_self
      have hl' : ∀ v ∈ l, v ∈ g.nodes := fun v hv => hl v (List.mem_cons_of_mem _ hv)
      rw [List.foldlM_cons]
      by_cases hseen : r ∈ s.dfs.opened
      · obtain ⟨st', s', roots', hfold, h', hinv', hroots', hstack', hmem⟩ :=
          ih hl' h hinv hroots hstack
        refine ⟨st', s', roots', ?_, h', hinv', hroots', hstack', fun v hv => hmem v ?_⟩
        · rw [h.indexOf, if_pos hseen]
          exact hfold
        · rcases hv with hv | hv
          · exact Or.inl hv
          · rcases List.mem_cons.mp hv with rfl | hv
            · exact Or.inl hseen
            · exact Or.inr hv
      · have hpush : SccRefines ({ st with callStack := [] }.visit r) (s.push r) :=
          h.visit hseen rfl
        have hinv₀ := hinv.push hstack hseen
        have hrun : ((s.push r).run g.successors (walkFuel g)).dfs.stack = [] := by
          rw [TarjanState.run_dfs]
          refine DfsState.run_stack hg.succ_mem ?_ (DfsState.remaining_push_le hr hseen)
          intro p hp
          rw [List.mem_singleton.mp hp]
          exact hr
        obtain ⟨st₁, hst₁, h₁⟩ := hpush.loop hinv₀ (walkFuel g) hrun
        obtain ⟨st', s', roots', hfold, h', hinv', hroots', hstack', hmem⟩ :=
          ih hl' h₁ (hinv₀.run _) (by simpa using ⟨hr, hroots⟩) hrun
        refine ⟨st', s', roots', ?_, h', hinv', hroots', hstack', fun v hv => hmem v ?_⟩
        · rw [h.indexOf, if_neg hseen, Option.isSome_none, if_neg (by simp), hst₁]
          exact hfold
        · have hkeep : ∀ {v}, v ∈ s.dfs.opened ++ [r] →
              v ∈ ((s.push r).run g.successors (walkFuel g)).dfs.opened := by
            intro v hv
            rw [TarjanState.run_dfs]
            exact DfsState.mem_opened_run _ hv
          rcases hv with hv | hv
          · exact Or.inl (hkeep (List.mem_append_left _ hv))
          · rcases List.mem_cons.mp hv with rfl | hv
            · exact Or.inl (hkeep (List.mem_append_right _ (List.mem_singleton_self _)))
            · exact Or.inr hv

/-- The components found are the strongly connected components of all nodes. -/
theorem sccsInTopologicalOrder_spec (hg : g.Closed) :
    ∃ sccs, sccsInTopologicalOrder g = some sccs ∧
      AreSccs g.successors (sccs.map Scc.nodes) ∧
      ∀ v, v ∈ (sccs.map Scc.nodes).flatten ↔ v ∈ g.nodes := by
  have hempty : SccRefines ({} : SccState α) ⟨⟨[], [], []⟩, fun _ => 0, [], []⟩ := by
    refine ⟨rfl, fun v => ?_, ?_, rfl, rfl, ?_, rfl⟩ <;> simp
  have hl : ∀ v ∈ g.entryNode.toList ++ g.nodes, v ∈ g.nodes := by
    intro v hv
    rcases List.mem_append.mp hv with hv | hv
    · exact hg.entry_mem v (by simpa using hv)
    · exact hv
  obtain ⟨st, s, roots, hfold, h, hinv, hroots, hstack, hmem⟩ :=
    foldlM_sccs hg _ hl hempty (TarjanInv.empty _) (by simp) rfl
  have hsccs : st.sccs.reverse.map Scc.nodes = s.sccs := by
    rw [List.map_reverse, h.sccs, List.reverse_reverse]
  refine ⟨st.sccs.reverse, by rw [sccsInTopologicalOrder, hfold]; rfl, ?_, fun v => ?_⟩
  · rw [hsccs]
    exact hinv.areSccs hstack
  · have hopened : v ∈ s.dfs.opened ↔ v ∈ s.sccs.flatten := by
      rw [hinv.mem_opened, hinv.sccStack_eq_nil hstack]
      simp
    rw [hsccs, ← hopened]
    constructor
    · intro hv
      obtain ⟨r, hr, hrv⟩ := hinv.dfs.reach_of_opened hv
      exact hg.mem_of_reach (hroots r hr) hrv
    · exact fun hv => hmem v (Or.inr (List.mem_append_right _ hv))

end Traversals

end Pliron
