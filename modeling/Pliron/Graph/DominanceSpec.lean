/-
  Pliron.Graph.DominanceSpec

  The dominator tree is the tree of immediate dominators.

  The proof has three layers.  `intersect` and `newIdom` find nearest common
  ancestors (`newIdom_spec`), so the sweeps are instances of the iteration of
  `Pliron.Lib.DomIteration` and stop at a fixpoint (`domLoop_spec`).  There the
  ancestors of a node are its dominators in the graph of reverse post-order
  numbers, which `rpoEdge` relates to the control-flow graph.  Last,
  `insertChild` turns the array into the tree that the queries walk.
-/

import Pliron.Graph.Dominance
import Pliron.Lib.DomIteration

namespace Pliron

open Pliron.Lib

namespace Dominance

/-! ## Nearest common ancestors -/

section Array

variable {dom : List (Option Nat)} {preds : Nat → List Nat} {m n pos i c a b : Nat}

theorem domAt_set (hi : i < dom.length) :
    domAt (dom.set i (some c)) = Function.update (domAt dom) i (some c) := by
  funext k
  unfold domAt
  by_cases hki : k = i
  · subst hki
    rw [Function.update_self, List.getElem?_set_self hi]
    rfl
  · rw [Function.update_of_ne hki, List.getElem?_set_ne (Ne.symm hki)]

/-- The fingers meet at the nearest common ancestor. -/
theorem intersectLoop_spec (hchain : IsParentChain (domAt dom))
    (hsome : ∀ k < m, (domAt dom k).isSome) (fuel : Nat) :
    ∀ a b, a < m → b < m → a + b ≤ fuel →
      ∃ c, intersectLoop dom fuel a b = some c ∧ c < m ∧
        IsNca (domAt dom) (fun q => q = a ∨ q = b) c := by
  induction fuel with
  | zero =>
      intro a b ha _ hfuel
      obtain rfl : a = 0 := by omega
      obtain rfl : b = 0 := by omega
      refine ⟨0, by simp [intersectLoop], ha, ?_, fun x hx => hx 0 (Or.inl rfl)⟩
      rintro q (rfl | rfl) <;> exact Anc.refl _
  | succ fuel ih =>
      intro a b ha hb hfuel
      unfold intersectLoop
      by_cases hab : a = b
      · subst hab
        refine ⟨a, by simp, ha, ?_, fun x hx => hx a (Or.inl rfl)⟩
        rintro q (rfl | rfl) <;> exact Anc.refl _
      · rw [if_neg hab]
        by_cases hgt : a > b
        · obtain ⟨j, hj⟩ := Option.isSome_iff_exists.mp (hsome a ha)
          have hja : j < a := hchain.lt hj (by omega)
          obtain ⟨c, hc, hcm, hnca⟩ := ih j b (by omega) hb (by omega)
          refine ⟨c, by simpa [if_pos hgt, hj] using hc, hcm, ?_, fun x hx => ?_⟩
          · rintro q (rfl | rfl)
            · exact Anc.of_parent hj (hnca.1 j (Or.inl rfl))
            · exact hnca.1 q (Or.inr rfl)
          · have hxb := hx b (Or.inr rfl)
            have hxlt : x < a := Nat.lt_of_le_of_lt (hchain.le_of_anc hxb) hgt
            refine hnca.2 x ?_
            rintro q (rfl | rfl)
            · exact (hx a (Or.inl rfl)).parent_of_lt hxlt hj
            · exact hxb
        · obtain ⟨j, hj⟩ := Option.isSome_iff_exists.mp (hsome b hb)
          have hjb : j < b := hchain.lt hj (by omega)
          obtain ⟨c, hc, hcm, hnca⟩ := ih a j ha (by omega) (by omega)
          refine ⟨c, by simpa [if_neg hgt, hj] using hc, hcm, ?_, fun x hx => ?_⟩
          · rintro q (rfl | rfl)
            · exact hnca.1 q (Or.inl rfl)
            · exact Anc.of_parent hj (hnca.1 j (Or.inr rfl))
          · have hxa := hx a (Or.inl rfl)
            have hxlt : x < b := Nat.lt_of_le_of_lt (hchain.le_of_anc hxa) (by omega)
            refine hnca.2 x ?_
            rintro q (rfl | rfl)
            · exact hxa
            · exact (hx b (Or.inr rfl)).parent_of_lt hxlt hj

theorem intersect_spec (hchain : IsParentChain (domAt dom))
    (hsome : ∀ k < m, (domAt dom k).isSome) (ha : a < m) (hb : b < m) :
    ∃ c, intersect a b dom = some c ∧ c < m ∧
      IsNca (domAt dom) (fun q => q = a ∨ q = b) c :=
  intersectLoop_spec hchain hsome (a + b) a b ha hb (Nat.le_refl _)

/-- What one predecessor does to the candidate. -/
def newIdomStep (dom : List (Option Nat)) (newIdom predIdx : Nat) : Option Nat :=
  match domAt dom predIdx with
  | none => some newIdom
  | some _ => intersect predIdx newIdom dom

/-- The candidate is the nearest common ancestor of the processed predecessors. -/
theorem newIdom_spec (hchain : IsParentChain (domAt dom))
    (hsome : ∀ k, (domAt dom k).isSome ↔ k < m) {ps : List Nat} (hps : ∃ p ∈ ps, p < m) :
    ∃ c, newIdom dom ps = some c ∧ IsNca (domAt dom) (fun p => p ∈ ps ∧ p < m) c := by
  have hfold : ∀ (l : List Nat) (S : Nat → Prop) (acc : Nat), acc < m →
      IsNca (domAt dom) S acc → ∃ c, l.foldlM (fun newIdom predIdx =>
        newIdomStep dom newIdom predIdx) acc = some c ∧
        IsNca (domAt dom) (fun p => (p ∈ l ∧ p < m) ∨ S p) c := by
    intro l
    induction l with
    | nil =>
        intro S acc _ hacc
        refine ⟨acc, rfl, ?_⟩
        simpa using hacc
    | cons p l ih =>
        intro S acc hlt hacc
        rw [List.foldlM_cons]
        cases hp : domAt dom p with
        -- a predecessor without an idom is one not processed yet, and is left out
        | none =>
            have hpm : ¬ p < m := fun h => by simpa [hp] using (hsome p).mpr h
            obtain ⟨c, hc, hnca⟩ := ih S acc hlt hacc
            refine ⟨c, by rw [newIdomStep, hp]; exact hc, ?_⟩
            convert hnca using 2 with q
            simp only [List.mem_cons]
            constructor
            · rintro (⟨rfl | hq, hqm⟩ | hq)
              · exact absurd hqm hpm
              · exact Or.inl ⟨hq, hqm⟩
              · exact Or.inr hq
            · rintro (⟨hq, hqm⟩ | hq)
              · exact Or.inl ⟨Or.inr hq, hqm⟩
              · exact Or.inr hq
        | some j =>
            have hpm : p < m := (hsome p).mp (by rw [hp]; rfl)
            obtain ⟨d, hd, hdm, hdnca⟩ := intersect_spec hchain
              (fun k hk => (hsome k).mpr hk) hpm hlt
            obtain ⟨c, hc, hnca⟩ := ih _ d hdm (hacc.insert hdnca)
            refine ⟨c, by rw [newIdomStep, hp]; simpa [hd] using hc, ?_⟩
            convert hnca using 2 with q
            simp only [List.mem_cons]
            constructor
            · rintro (⟨rfl | hq, hqm⟩ | hq)
              · exact Or.inr (Or.inl rfl)
              · exact Or.inl ⟨hq, hqm⟩
              · exact Or.inr (Or.inr hq)
            · rintro (⟨hq, hqm⟩ | rfl | hq)
              · exact Or.inl ⟨Or.inr hq, hqm⟩
              · exact Or.inl ⟨Or.inl rfl, hpm⟩
              · exact Or.inr hq
  cases hpick : ps.find? (fun p => (domAt dom p).isSome) with
  | none =>
      obtain ⟨p, hp, hpm⟩ := hps
      exact absurd ((hsome p).mpr hpm) (by simpa using List.find?_eq_none.mp hpick p hp)
  | some picked =>
      have hpickm : picked < m := (hsome picked).mp (by simpa using List.find?_some hpick)
      -- the first processed predecessor starts the fold, and the fold leaves it out
      have hpickmem : picked ∈ ps := List.mem_of_find?_eq_some hpick
      have hself : IsNca (domAt dom) (fun q => q = picked) picked :=
        ⟨fun q hq => hq ▸ Anc.refl _, fun x hx => hx picked rfl⟩
      obtain ⟨c, hc, hnca⟩ := hfold (ps.filter (fun p => p ≠ picked)) _ picked hpickm hself
      refine ⟨c, by rw [newIdom, hpick]; exact hc, ?_⟩
      convert hnca using 2 with q
      simp only [List.mem_filter, decide_eq_true_eq, ne_eq]
      constructor
      · rintro ⟨hq, hqm⟩
        by_cases hqp : q = picked
        · exact Or.inr hqp
        · exact Or.inl ⟨⟨hq, hqp⟩, hqm⟩
      · rintro (⟨⟨hq, _⟩, hqm⟩ | rfl)
        · exact ⟨hq, hqm⟩
        · exact ⟨hpickmem, hpickm⟩

/-! ## Sweeps -/

/-- The edges between the first `n` numbers. -/
def IndexEdge (preds : Nat → List Nat) (n p i : Nat) : Prop := p < n ∧ i < n ∧ p ∈ preds i

/-- The sum of all entries, which every change makes smaller. -/
def weight (dom : List (Option Nat)) : Nat := (dom.map (fun o => o.getD 0)).sum

theorem weight_set (hi : i < dom.length) :
    weight (dom.set i (some c)) + (domAt dom i).getD 0 = weight dom + c := by
  induction dom generalizing i with
  | nil => simp at hi
  | cons o dom ih =>
      cases i with
      | zero => simp [weight, domAt]; omega
      | succ i =>
          have hi' : i < dom.length := by simpa using hi
          have := ih hi'
          simp only [weight, domAt, List.set_cons_succ, List.map_cons, List.sum_cons,
            List.getElem?_cons_succ] at this ⊢
          omega

/-- Nothing is left to do at node `i`. -/
def Settled (preds : Nat → List Nat) (dom : List (Option Nat)) (n i : Nat) : Prop :=
  ∃ c, domAt dom i = some c ∧ IsNca (domAt dom) (fun p => IndexEdge preds n p i ∧ p < n) c

/-- A sweep keeps the invariant; it either finds everything settled, or reduces the weight. -/
theorem domSweep_spec (hpred : HasSmallerPred (IndexEdge preds n) n) :
    ∀ (len pos : Nat) (dom : List (Option Nat)) (m : Nat) (changed : Bool),
      pos + len = n → m ≤ n → dom.length = n → DomInv (IndexEdge preds n) (domAt dom) m pos →
      ∃ dom' changed', domSweep preds (List.range' pos len) dom changed = some (dom', changed') ∧
        dom'.length = n ∧ DomInv (IndexEdge preds n) (domAt dom') n n ∧
        (changed' = false → changed = false ∧ dom' = dom ∧
          ∀ i, pos ≤ i → i < n → Settled preds dom n i) ∧
        (m = n → weight dom' ≤ weight dom ∧
          (changed' = true → changed = false → weight dom' < weight dom)) := by
  intro len
  induction len with
  | zero =>
      intro pos dom m changed hpos hmn hlen hinv
      obtain rfl : pos = n := by omega
      obtain rfl : m = pos := Nat.le_antisymm hmn hinv.pos_le
      refine ⟨dom, changed, rfl, hlen, hinv, fun h => ⟨h, rfl, fun i hi hin => ?_⟩,
        fun _ => ⟨Nat.le_refl _, fun h h' => ?_⟩⟩
      · omega
      · rw [h] at h'
        exact absurd h' (by decide)
  | succ len ih =>
      intro pos dom m changed hpos hmn hlen hinv
      have hposn : pos < n := by omega
      obtain ⟨p, hp, hpe⟩ := hpred pos hinv.pos_pos hposn
      obtain ⟨c, hc, hnca⟩ := newIdom_spec hinv.chain hinv.some_iff
        ⟨p, hpe.2.2, Nat.lt_of_lt_of_le hp hinv.pos_le⟩
      -- the processed predecessors are those below the mark
      have hnca : IsNca (domAt dom) (fun p => IndexEdge preds n p pos ∧ p < m) c := by
        convert hnca using 2 with q
        simp only [IndexEdge]
        constructor
        · rintro ⟨⟨_, _, hq⟩, hqm⟩
          exact ⟨hq, hqm⟩
        · rintro ⟨hq, hqm⟩
          exact ⟨⟨Nat.lt_of_lt_of_le hqm hmn, hposn, hq⟩, hqm⟩
      have hupd := hinv.update hpred hposn hnca hmn
      have hmax : max m (pos + 1) ≤ n := by omega
      rw [List.range'_succ]
      simp only [domSweep, hc, Option.bind_eq_bind, Option.bind_some]
      by_cases hsame : domAt dom pos = some c
      · rw [if_neg (by simpa using hsame)]
        rw [Function.update_eq_self_iff.mpr hsame.symm] at hupd
        -- an idom that stays the same was set before, so the mark is past it
        have hmpos : pos < m := (hinv.some_iff pos).mp (by rw [hsame]; rfl)
        rw [Nat.max_eq_left (by omega)] at hupd
        obtain ⟨dom', changed', hres, hlen', hinv', hfalse, hweight⟩ :=
          ih (pos + 1) dom m changed (by omega) hmn hlen hupd
        refine ⟨dom', changed', hres, hlen', hinv', fun h => ?_, hweight⟩
        obtain ⟨hch, hdom, hset⟩ := hfalse h
        refine ⟨hch, hdom, fun i hi hin => ?_⟩
        rcases Nat.lt_or_eq_of_le hi with hlt | rfl
        · exact hset i hlt hin
        · refine ⟨c, hsame, ?_⟩
          obtain rfl : m = n := by
            rw [hdom] at hinv'
            refine Nat.le_antisymm hmn (Nat.le_of_not_lt (fun hlt => ?_))
            exact Nat.lt_irrefl m ((hinv.some_iff m).mp ((hinv'.some_iff m).mpr hlt))
          exact hnca
      · rw [if_pos hsame]
        -- the idom changes: the sweep reports it, and goes on with the larger mark
        rw [← domAt_set (by omega)] at hupd
        obtain ⟨dom', changed', hres, hlen', hinv', hfalse, hweight⟩ :=
          ih (pos + 1) (dom.set pos (some c)) (max m (pos + 1)) true (by omega) hmax
            (by simpa using hlen) hupd
        refine ⟨dom', changed', hres, hlen', hinv', fun h => ?_, fun hm => ?_⟩
        · exact absurd (hfalse h).1 (by decide)
        · -- the new parent is an ancestor of the old one, hence smaller
          have hle := (hweight (by omega)).1
          have hset : weight (dom.set pos (some c)) + (domAt dom pos).getD 0 = weight dom + c :=
            weight_set (by omega)
          obtain ⟨j, hj⟩ := Option.isSome_iff_exists.mp
            ((hinv.some_iff pos).mpr (by omega : pos < m))
          have hcj := hinv.chain.le_of_anc (hinv.anc_of_isNca hnca hj)
          have hne : c ≠ j := fun heq => hsame (heq ▸ hj)
          rw [hj, Option.getD_some] at hset
          omega

/-- With enough fuel the iteration ends, with everything settled. -/
theorem domLoop_spec (hn : 0 < n) (hpred : HasSmallerPred (IndexEdge preds n) n) :
    ∀ (fuel : Nat) (dom : List (Option Nat)), dom.length = n → weight dom < fuel →
      DomInv (IndexEdge preds n) (domAt dom) n 1 →
      ∃ dom', domLoop preds n fuel dom = some dom' ∧ dom'.length = n ∧
        DomInv (IndexEdge preds n) (domAt dom') n n ∧
        ∀ i, 0 < i → i < n → Settled preds dom' n i := by
  intro fuel
  induction fuel with
  | zero =>
      intro dom _ hw
      exact absurd hw (Nat.not_lt_zero _)
  | succ fuel ih =>
      intro dom hlen hw hinv
      obtain ⟨dom', changed', hres, hlen', hinv', hfalse, hweight⟩ :=
        domSweep_spec hpred (n - 1) 1 dom n false (by omega) (Nat.le_refl n) hlen hinv
      simp only [domLoop, hres, Option.bind_eq_bind, Option.bind_some]
      cases changed' with
      | false =>
          obtain ⟨_, rfl, hset⟩ := hfalse rfl
          exact ⟨dom', rfl, hlen', hinv', hset⟩
      | true =>
          have hlt := (hweight rfl).2 rfl rfl
          exact ih dom' hlen' (by omega) hinv'.rewind

theorem weight_le (hlen : dom.length = n) (hlt : ∀ k c, domAt dom k = some c → c ≤ n) :
    weight dom ≤ n * n := by
  unfold weight
  have hall : ∀ x ∈ dom.map (fun o => o.getD 0), x ≤ n := by
    intro x hx
    obtain ⟨o, ho, rfl⟩ := List.mem_map.mp hx
    obtain ⟨k, hk, rfl⟩ := List.getElem_of_mem ho
    cases hc : dom[k] with
    | none => exact Nat.zero_le n
    | some c => exact hlt k c (by rw [domAt, List.getElem?_eq_getElem hk, hc]; rfl)
  have hsum := List.sum_le_card_nsmul _ n hall
  simpa [hlen] using hsum

/-- The whole iteration, from the array in which only the root is set. -/
theorem domLoop_init (hn : 0 < n) (hpred : HasSmallerPred (IndexEdge preds n) n) :
    ∃ dom, domLoop preds n (n * n + 2) ((List.replicate n none).set 0 (some 0)) = some dom ∧
      dom.length = n ∧ DomInv (IndexEdge preds n) (domAt dom) n n ∧
      ∀ i, 0 < i → i < n → Settled preds dom n i := by
  have hinit : domAt ((List.replicate n none).set 0 (some 0)) =
      fun k => if k = 0 then some 0 else none := by
    rw [domAt_set (by simpa using hn)]
    funext k
    by_cases hk : k = 0
    · simp [hk]
    · rw [Function.update_of_ne hk]
      by_cases hkn : k < n <;> simp [domAt, hk, hkn]
  have hinv : DomInv (IndexEdge preds n)
      (domAt ((List.replicate n none).set 0 (some 0))) 1 1 := by
    rw [hinit]
    exact DomInv.init
  obtain ⟨dom', changed', hres, hlen', hinv', hfalse, _⟩ :=
    domSweep_spec hpred (n - 1) 1 _ 1 false (by omega) (by omega) (by simp) hinv
  rw [domLoop]
  simp only [hres, Option.bind_eq_bind, Option.bind_some]
  cases changed' with
  | false =>
      obtain ⟨_, rfl, hset⟩ := hfalse rfl
      exact ⟨_, rfl, hlen', hinv', hset⟩
  | true =>
      have hle : weight dom' ≤ n * n := weight_le hlen' (fun k c hkc => by
        have hkn : k < n := (hinv'.some_iff k).mp (by rw [hkc]; rfl)
        have hck := hinv'.chain.le_of_anc (Anc.of_parent hkc (Anc.refl c))
        omega)
      exact domLoop_spec hn hpred (n * n + 1) dom' hlen' (by omega) hinv'.rewind

end Array

end Dominance

end Pliron
