/-
  Pliron.Lib.TreeWalkRules

  Walks whose visits change the tree as the rules allow.

  A visit before the children may give its node new children, which were never in the tree; a
  visit after the children may take children of its node out of the tree.  `Outcome` collects
  what then holds of a walk.  It is proved for one visit, for a node from its children, and for
  nodes one after the other.
-/

import Pliron.Lib.TreeWalk

namespace Pliron.Lib.TreeWalk

open Relation

variable {ν σ β : Type*} {kids : σ → ν → List ν} {pre : ν → Bool}
  {visit : ν → σ → Reply β × σ} {root : ν}

/-! ## The rules -/

/-- What visits may do to the tree.  `known` holds of the nodes that are or were in the tree. -/
structure Rules (kids : σ → ν → List ν) (pre : ν → Bool) (visit : ν → σ → Reply β × σ) (root : ν)
    (inv : σ → Prop) (known : σ → ν → Prop) : Prop where
  tree : ∀ {s}, inv s → IsTree (kids s)
  known_of_below : ∀ {s x}, inv s → Below (kids s) root x → known s x
  inv_visit : ∀ {s n}, inv s → Below (kids s) root n → inv (visit n s).2
  known_visit : ∀ {s n x}, inv s → Below (kids s) root n → known s x → known (visit n s).2 x
  /-- A visit before the children leaves the children of other nodes alone, -/
  before_others : ∀ {s n x}, inv s → pre n = true → Below (kids s) root n →
    Below (kids s) root x → x ≠ n → kids (visit n s).2 x = kids s x
  /-- removes no child, -/
  before_keeps : ∀ {s n c}, inv s → pre n = true → Below (kids s) root n → c ∈ kids s n →
    c ∈ kids (visit n s).2 n
  /-- and adds children that are new, with all that is below them. -/
  before_new : ∀ {s n c x}, inv s → pre n = true → Below (kids s) root n →
    c ∈ kids (visit n s).2 n → c ∉ kids s n → Below (kids (visit n s).2) c x → ¬ known s x
  /-- A visit after the children leaves the children of the other nodes of the tree alone, -/
  after_others : ∀ {s n x}, inv s → pre n = false → Below (kids s) root n →
    Below (kids (visit n s).2) root x → x ≠ n → kids (visit n s).2 x = kids s x
  /-- and adds no child. -/
  after_keeps : ∀ {s n c}, inv s → pre n = false → Below (kids s) root n →
    c ∈ kids (visit n s).2 n → c ∈ kids s n

/-! ## What holds of a walk -/

section Outcome

variable {ns : List ν} {n x : ν} {s s₁ s' : σ} {log log' : List (Visit ν σ β)} {e : Option β}
  {inv : σ → Prop} {known : σ → ν → Prop} {r : Reply β}

/-- The nodes that a walk of `ns` may visit: those below, and new ones. -/
def Reach (kids : σ → ν → List ν) (known : σ → ν → Prop) (ns : List ν) (s : σ) (x : ν) : Prop :=
  (∃ n ∈ ns, Below (kids s) n x) ∨ ¬ known s x

/-- A visit before the children of an ancestor pruned the node. -/
def Pruned (kids : σ → ν → List ν) (pre : ν → Bool) (log : List (Visit ν σ β)) (x : ν) : Prop :=
  ∃ v ∈ log, v.reply = .skip ∧ pre v.node = true ∧ x ≠ v.node ∧ Below (kids v.after) v.node x

/-- The nodes are in the tree, and have nothing below them in common. -/
structure Ready (kids : σ → ν → List ν) (root : ν) (inv : σ → Prop) (ns : List ν) (s : σ) :
    Prop where
  start : inv s
  below : ∀ n ∈ ns, Below (kids s) root n
  apart : ns.Pairwise (fun a b => ∀ x, Below (kids s) a x → ¬ Below (kids s) b x)

/-- What holds after a walk of `ns`. -/
structure Outcome (kids : σ → ν → List ν) (pre : ν → Bool) (root : ν) (inv : σ → Prop)
    (known : σ → ν → Prop) (ns : List ν) (s : σ) (log : List (Visit ν σ β)) (e : Option β)
    (s' : σ) : Prop where
  final : inv s'
  mono : ∀ x, known s x → known s' x
  /-- The rest of the tree is as it was. -/
  frame : ∀ x, Below (kids s) root x → (∀ n ∈ ns, ¬ Below (kids s) n x) →
    Below (kids s') root x ∧ kids s' x = kids s x
  /-- What is below now was below before, or is new. -/
  grown : ∀ x, (∃ n ∈ ns, Below (kids s') n x) → Reach kids known ns s x
  inside : ∀ v ∈ log, ∀ x, Below (kids v.after) v.node x → Reach kids known ns s x ∧ known s' x
  alive : ∀ v ∈ log, inv v.before ∧ Below (kids v.before) root v.node
  nodup : (nodes log).Nodup
  covered : e = none → ∀ x, ((∃ n ∈ ns, Below (kids s) n x) ∨ (∃ n ∈ ns, Below (kids s') n x) ∨
    ∃ v ∈ log, Below (kids v.after) v.node x) → x ∈ nodes log ∨ Pruned kids pre log x
  pruned : ∀ x, Pruned kids pre log x → x ∉ nodes log

theorem reach_singleton : Reach kids known [n] s x ↔ Below (kids s) n x ∨ ¬ known s x := by
  rw [Reach]
  constructor
  · rintro (⟨m, hm, hx⟩ | hx)
    · rw [List.mem_singleton.mp hm] at hx
      exact .inl hx
    · exact .inr hx
  · rintro (hx | hx)
    · exact .inl ⟨n, List.mem_singleton_self n, hx⟩
    · exact .inr hx

theorem Pruned.mono (h : Pruned kids pre log x) (hsub : log ⊆ log') : Pruned kids pre log' x := by
  obtain ⟨v, hv, hskip⟩ := h
  exact ⟨v, hsub hv, hskip⟩

theorem seen_mono (h : x ∈ nodes log ∨ Pruned kids pre log x) (hsub : log ⊆ log') :
    x ∈ nodes log' ∨ Pruned kids pre log' x := by
  rcases h with hx | hx
  · exact .inl (List.map_subset Visit.node hsub hx)
  · exact .inr (hx.mono hsub)

/-! ## One visit -/

namespace Rules

variable (h : Rules kids pre visit root inv known)

include h

/-- The children of a node can be walked. -/
theorem ready_kids (hs : inv s) (hn : Below (kids s) root n) :
    Ready kids root inv (kids s n) s where
  start := hs
  below c hc := hn.trans (Below.kid hc)
  apart := by
    have htree := h.tree hs
    refine (htree.nodup n).imp_of_mem (fun {a b} ha hb hne => ?_)
    exact fun x hax => htree.siblings_apart ha hb hne hax

section Before

variable (hs : inv s) (hpre : pre n = true) (hn : Below (kids s) root n)
  (hvisit : visit n s = (r, s₁))

include hs hpre hn hvisit

omit hpre in
theorem before_inv : inv s₁ := by
  have := h.inv_visit hs hn
  rwa [hvisit] at this

omit hpre in
theorem before_known (hx : known s x) : known s₁ x := by
  have := h.known_visit hs hn hx
  rwa [hvisit] at this

theorem before_same (hx : Below (kids s) root x) (hne : x ≠ n) : kids s₁ x = kids s x := by
  have := h.before_others hs hpre hn hx hne
  rwa [hvisit] at this

/-- The tree only grows. -/
theorem before_below {y : ν} (hy : Below (kids s) root y) (hx : Below (kids s) y x) :
    Below (kids s₁) y x := by
  induction hx with
  | refl => exact Below.refl _ _
  | @tail z w hyz hzw ih =>
      refine ih.trans (Below.kid ?_)
      by_cases hz : z = n
      · subst hz
        have := h.before_keeps hs hpre hn hzw
        rwa [hvisit] at this
      · rw [h.before_same hs hpre hn hvisit (hy.trans hyz) hz]
        exact hzw

/-- It grows below the visited node, with new nodes. -/
theorem before_grown (hx : Below (kids s₁) n x) : Below (kids s) n x ∨ ¬ known s x := by
  rcases below_iff.mp hx with rfl | ⟨c, hc, hcx⟩
  · exact .inl (Below.refl _ _)
  · by_cases hold : c ∈ kids s n
    · have hsame : ∀ y, Below (kids s) c y → kids s₁ y = kids s y := by
        intro y hcy
        have hne : y ≠ n := by
          rintro rfl
          exact (h.tree hs).acyclic hold hcy
        exact h.before_same hs hpre hn hvisit (hn.trans ((Below.kid hold).trans hcy)) hne
      exact .inl ((Below.kid hold).trans (hcx.of_same' hsame))
    · have hnew := h.before_new (c := c) (x := x) hs hpre hn
      rw [hvisit] at hnew
      exact .inr (hnew hc hold hcx)

theorem before_frame (hx : Below (kids s) root x) (hnot : ¬ Below (kids s) n x) :
    Below (kids s₁) root x ∧ kids s₁ x = kids s x := by
  have hne : x ≠ n := by
    rintro rfl
    exact hnot (Below.refl _ _)
  exact ⟨h.before_below hs hpre hn hvisit (Below.refl _ _) hx,
    h.before_same hs hpre hn hvisit hx hne⟩

/-- A visit whose children are not walked. -/
theorem outcome_leaf (hr : r ≠ .advance) :
    Outcome kids pre root inv known [n] s [⟨n, s, r, s₁⟩] r.exit s₁ where
  final := h.before_inv hs hn hvisit
  mono x hx := h.before_known hs hn hvisit hx
  frame x hx hnot := h.before_frame hs hpre hn hvisit hx (hnot n (List.mem_singleton_self n))
  grown x hx := by
    obtain ⟨m, hm, hx⟩ := hx
    rw [List.mem_singleton.mp hm] at hx
    exact reach_singleton.mpr (h.before_grown hs hpre hn hvisit hx)
  inside v hv x hx := by
    rw [List.mem_singleton.mp hv] at hx
    refine ⟨reach_singleton.mpr (h.before_grown hs hpre hn hvisit hx), ?_⟩
    apply h.known_of_below (h.before_inv hs hn hvisit)
    exact (h.before_below hs hpre hn hvisit (Below.refl _ _) hn).trans hx
  alive v hv := by
    rw [List.mem_singleton.mp hv]
    exact ⟨hs, hn⟩
  nodup := List.nodup_singleton n
  covered he x hx := by
    have hbelow : Below (kids s₁) n x := by
      rcases hx with ⟨m, hm, hx⟩ | ⟨m, hm, hx⟩ | ⟨v, hv, hx⟩
      · rw [List.mem_singleton.mp hm] at hx
        exact h.before_below hs hpre hn hvisit hn hx
      · rwa [List.mem_singleton.mp hm] at hx
      · rwa [List.mem_singleton.mp hv] at hx
    by_cases hxn : x = n
    · exact .inl (mem_nodes.mpr ⟨_, List.mem_singleton_self _, hxn.symm⟩)
    · have hskip : r = .skip := by
        cases r with
        | advance => exact absurd rfl hr
        | skip => rfl
        | stop b => exact absurd he nofun
      exact .inr ⟨_, List.mem_singleton_self _, hskip, hpre, hxn, hbelow⟩
  pruned x hx hmem := by
    obtain ⟨v, hv, _, _, hne, _⟩ := hx
    obtain ⟨w, hw, rfl⟩ := mem_nodes.mp hmem
    rw [List.mem_singleton.mp hv, List.mem_singleton.mp hw] at hne
    exact hne rfl

theorem reach_before (hx : Reach kids known (kids s₁ n) s₁ x) : Reach kids known [n] s x := by
  apply reach_singleton.mpr
  rcases hx with ⟨c, hc, hx⟩ | hx
  · exact h.before_grown hs hpre hn hvisit ((Below.kid hc).trans hx)
  · exact .inr (fun hknown => hx (h.before_known hs hn hvisit hknown))

/-- A visit, and then the children. -/
theorem outcome_before (hr : r ≠ .skip)
    (hk : Outcome kids pre root inv known (kids s₁ n) s₁ log e s') :
    Outcome kids pre root inv known [n] s (⟨n, s, r, s₁⟩ :: log) e s' := by
  have hinv₁ := h.before_inv hs hn hvisit
  have hn₁ := h.before_below hs hpre hn hvisit (Below.refl _ _) hn
  have hacyclic : ∀ c ∈ kids s₁ n, ¬ Below (kids s₁) c n := fun c hc => (h.tree hinv₁).acyclic hc
  have hsame : kids s' n = kids s₁ n := (hk.frame n hn₁ hacyclic).2
  -- no later visit has the node below it, so it is visited once
  have hfresh : ∀ v ∈ log, ¬ Below (kids v.after) v.node n := by
    intro v hv hx
    rcases (hk.inside v hv n hx).1 with ⟨c, hc, hcn⟩ | hnew
    · exact hacyclic c hc hcn
    · exact hnew (h.known_of_below hinv₁ hn₁)
  have hnot : n ∉ nodes log := by
    intro hmem
    obtain ⟨v, hv, hvn⟩ := mem_nodes.mp hmem
    exact hfresh v hv (hvn ▸ Below.refl _ _)
  have hself : ∀ x, Below (kids s₁) n x → x ∈ nodes (⟨n, s, r, s₁⟩ :: log) ∨
      ∃ c ∈ kids s₁ n, Below (kids s₁) c x := by
    intro x hx
    rcases below_iff.mp hx with rfl | hx
    · exact .inl List.mem_cons_self
    · exact .inr hx
  exact {
    final := hk.final
    mono := fun x hx => hk.mono x (h.before_known hs hn hvisit hx)
    frame := by
      intro x hx hout
      have hout := hout n (List.mem_singleton_self n)
      obtain ⟨hx₁, hkids₁⟩ := h.before_frame hs hpre hn hvisit hx hout
      have hout₁ : ∀ c ∈ kids s₁ n, ¬ Below (kids s₁) c x := by
        intro c hc hcx
        rcases h.before_grown hs hpre hn hvisit ((Below.kid hc).trans hcx) with hnx | hnew
        · exact hout hnx
        · exact hnew (h.known_of_below hs hx)
      obtain ⟨hx', hkids'⟩ := hk.frame x hx₁ hout₁
      exact ⟨hx', hkids'.trans hkids₁⟩
    grown := by
      rintro x ⟨m, hm, hx⟩
      rw [List.mem_singleton.mp hm] at hx
      rcases below_iff.mp hx with rfl | ⟨c, hc, hcx⟩
      · exact reach_singleton.mpr (.inl (Below.refl _ _))
      · rw [hsame] at hc
        exact h.reach_before hs hpre hn hvisit (hk.grown x ⟨c, hc, hcx⟩)
    inside := by
      intro v hv x hx
      rcases List.mem_cons.mp hv with rfl | hv
      · refine ⟨reach_singleton.mpr (h.before_grown hs hpre hn hvisit hx), ?_⟩
        exact hk.mono x (h.known_of_below hinv₁ (hn₁.trans hx))
      · obtain ⟨hreach, hknown⟩ := hk.inside v hv x hx
        exact ⟨h.reach_before hs hpre hn hvisit hreach, hknown⟩
    alive := by
      intro v hv
      rcases List.mem_cons.mp hv with rfl | hv
      · exact ⟨hs, hn⟩
      · exact hk.alive v hv
    nodup := List.nodup_cons.mpr ⟨hnot, hk.nodup⟩
    covered := by
      intro he x hx
      -- below a kid, the walk of the kids has seen it or left it out
      have hkid : ∀ c ∈ kids s₁ n, Below (kids s₁) c x ∨ Below (kids s') c x →
          x ∈ nodes (⟨n, s, r, s₁⟩ :: log) ∨ Pruned kids pre (⟨n, s, r, s₁⟩ :: log) x := by
        intro c hc hcx
        refine seen_mono (hk.covered he x ?_) (List.subset_cons_self _ _)
        rcases hcx with hcx | hcx
        · exact .inl ⟨c, hc, hcx⟩
        · exact .inr (.inl ⟨c, hc, hcx⟩)
      have hbelow₁ : Below (kids s₁) n x →
          x ∈ nodes (⟨n, s, r, s₁⟩ :: log) ∨ Pruned kids pre (⟨n, s, r, s₁⟩ :: log) x := by
        intro hx
        rcases hself x hx with hmem | ⟨c, hc, hcx⟩
        · exact .inl hmem
        · exact hkid c hc (.inl hcx)
      rcases hx with ⟨m, hm, hx⟩ | ⟨m, hm, hx⟩ | ⟨v, hv, hx⟩
      · rw [List.mem_singleton.mp hm] at hx
        exact hbelow₁ (h.before_below hs hpre hn hvisit hn hx)
      · rw [List.mem_singleton.mp hm] at hx
        rcases below_iff.mp hx with rfl | ⟨c, hc, hcx⟩
        · exact .inl List.mem_cons_self
        · rw [hsame] at hc
          exact hkid c hc (.inr hcx)
      · rcases List.mem_cons.mp hv with rfl | hv
        · exact hbelow₁ hx
        · exact seen_mono (hk.covered he x (.inr (.inr ⟨v, hv, hx⟩))) (List.subset_cons_self _ _)
    pruned := by
      rintro x ⟨v, hv, hskip, hvpre, hne, hx⟩ hmem
      rcases List.mem_cons.mp hv with rfl | hin
      · -- the visit of the node itself does not skip
        exact hr hskip
      · rcases List.mem_cons.mp hmem with rfl | hmem
        · exact hfresh v hin hx
        · exact hk.pruned x ⟨v, hin, hskip, hvpre, hne, hx⟩ hmem }

end Before

section After

variable (hs : inv s) (hpost : pre n = false) (hn : Below (kids s) root n)
  (hvisit : visit n s = (r, s'))

include hs hpost hn hvisit

omit hpost in
theorem after_inv : inv s' := by
  have := h.inv_visit hs hn
  rwa [hvisit] at this

theorem after_same (hx : Below (kids s') root x) (hne : x ≠ n) : kids s' x = kids s x := by
  have hothers := h.after_others (x := x) hs hpost hn
  rw [hvisit] at hothers
  exact hothers hx hne

/-- The rest of the tree stays. -/
theorem after_frame (hx : Below (kids s) root x) (hnot : ¬ Below (kids s) n x) :
    Below (kids s') root x ∧ kids s' x = kids s x := by
  have hstay : Below (kids s') root x := by
    induction hx with
    | refl => exact Below.refl _ _
    | @tail y z hy hyz ih =>
        have hnoty : ¬ Below (kids s) n y := fun hny => hnot (hny.trans (Below.kid hyz))
        have hne : y ≠ n := by
          rintro rfl
          exact hnoty (Below.refl _ _)
        refine (ih hnoty).trans (Below.kid ?_)
        rw [h.after_same hs hpost hn hvisit (ih hnoty) hne]
        exact hyz
  have hne : x ≠ n := by
    rintro rfl
    exact hnot (Below.refl _ _)
  exact ⟨hstay, h.after_same hs hpost hn hvisit hstay hne⟩

/-- The visited node stays. -/
theorem after_self : Below (kids s') root n := by
  rcases ReflTransGen.cases_tail hn with rfl | ⟨p, hp, hpn⟩
  · exact Below.refl _ _
  · have hnot : ¬ Below (kids s) n p := (h.tree hs).acyclic hpn
    obtain ⟨hstay, hsame⟩ := h.after_frame hs hpost hn hvisit hp hnot
    refine hstay.trans (Below.kid ?_)
    rw [hsame]
    exact hpn

/-- Nothing gets below the visited node. -/
theorem after_shrunk (hx : Below (kids s') n x) : Below (kids s) n x := by
  have hself := h.after_self hs hpost hn hvisit
  induction hx with
  | refl => exact Below.refl _ _
  | @tail y z hy hyz ih =>
      refine ih.trans (Below.kid ?_)
      by_cases hne : y = n
      · subst hne
        have hkeeps := h.after_keeps (c := z) hs hpost hn
        rw [hvisit] at hkeeps
        exact hkeeps hyz
      · rw [← h.after_same hs hpost hn hvisit (hself.trans hy) hne]
        exact hyz

end After

omit h in
theorem reach_kids (hx : Reach kids known (kids s n) s x) : Reach kids known [n] s x := by
  apply reach_singleton.mpr
  rcases hx with ⟨c, hc, hx⟩ | hx
  · exact .inl ((Below.kid hc).trans hx)
  · exact .inr hx

/-- The children were walked, and a visit among them stopped the walk. -/
theorem outcome_afterStopped {b : β}
    (hs : inv s) (hn : Below (kids s) root n)
    (hk : Outcome kids pre root inv known (kids s n) s log (some b) s') :
    Outcome kids pre root inv known [n] s log (some b) s' where
  final := hk.final
  mono := hk.mono
  frame x hx hout := by
    refine hk.frame x hx (fun c hc hcx => ?_)
    exact hout n (List.mem_singleton_self n) ((Below.kid hc).trans hcx)
  grown := by
    rintro x ⟨m, hm, hx⟩
    rw [List.mem_singleton.mp hm] at hx
    have hsame := (hk.frame n hn (fun c hc => (h.tree hs).acyclic hc)).2
    rcases below_iff.mp hx with rfl | ⟨c, hc, hcx⟩
    · exact reach_singleton.mpr (.inl (Below.refl _ _))
    · rw [hsame] at hc
      exact reach_kids (hk.grown x ⟨c, hc, hcx⟩)
  inside v hv x hx := ⟨reach_kids (hk.inside v hv x hx).1, (hk.inside v hv x hx).2⟩
  alive := hk.alive
  nodup := hk.nodup
  covered he := absurd he nofun
  pruned := hk.pruned

/-- The children, and then a visit. -/
theorem outcome_after (hs : inv s) (hpost : pre n = false) (hn : Below (kids s) root n)
    (hk : Outcome kids pre root inv known (kids s n) s log none s₁)
    (hvisit : visit n s₁ = (r, s')) :
    Outcome kids pre root inv known [n] s (log ++ [⟨n, s₁, r, s'⟩]) r.exit s' := by
  have hacyclic : ∀ c ∈ kids s n, ¬ Below (kids s) c n := fun c hc => (h.tree hs).acyclic hc
  obtain ⟨hn₁, hsame⟩ := hk.frame n hn hacyclic
  have hinv₁ := hk.final
  have hinv' := h.after_inv hinv₁ hn₁ hvisit
  have hself := h.after_self hinv₁ hpost hn₁ hvisit
  -- what is below the node after its kids was there before, or is new
  have hgrown₁ : ∀ x, Below (kids s₁) n x → Reach kids known [n] s x := by
    intro x hx
    rcases below_iff.mp hx with rfl | ⟨c, hc, hcx⟩
    · exact reach_singleton.mpr (.inl (Below.refl _ _))
    · rw [hsame] at hc
      exact reach_kids (hk.grown x ⟨c, hc, hcx⟩)
  have hknown' : ∀ x, known s₁ x → known s' x := by
    intro x hx
    have := h.known_visit hinv₁ hn₁ hx
    rwa [hvisit] at this
  -- no visit below has the node below it, so the node is visited only now
  have hfresh : ∀ v ∈ log, ¬ Below (kids v.after) v.node n := by
    intro v hv hx
    rcases (hk.inside v hv n hx).1 with ⟨c, hc, hcn⟩ | hnew
    · exact hacyclic c hc hcn
    · exact hnew (h.known_of_below hs hn)
  have hnot : n ∉ nodes log := by
    intro hmem
    obtain ⟨v, hv, hvn⟩ := mem_nodes.mp hmem
    exact hfresh v hv (hvn ▸ Below.refl _ _)
  have hlast : n ∈ nodes (log ++ [(⟨n, s₁, r, s'⟩ : Visit ν σ β)]) :=
    mem_nodes.mpr ⟨_, List.mem_append_right _ (List.mem_singleton_self _), rfl⟩
  exact {
    final := hinv'
    mono := fun x hx => hknown' x (hk.mono x hx)
    frame := by
      intro x hx hout
      have hout := hout n (List.mem_singleton_self n)
      obtain ⟨hx₁, hkids₁⟩ := hk.frame x hx (fun c hc hcx => hout ((Below.kid hc).trans hcx))
      have hout₁ : ¬ Below (kids s₁) n x := by
        intro hnx
        rcases reach_singleton.mp (hgrown₁ x hnx) with hnx | hnew
        · exact hout hnx
        · exact hnew (h.known_of_below hs hx)
      obtain ⟨hx', hkids'⟩ := h.after_frame hinv₁ hpost hn₁ hvisit hx₁ hout₁
      exact ⟨hx', hkids'.trans hkids₁⟩
    grown := by
      rintro x ⟨m, hm, hx⟩
      rw [List.mem_singleton.mp hm] at hx
      exact hgrown₁ x (h.after_shrunk hinv₁ hpost hn₁ hvisit hx)
    inside := by
      intro v hv x hx
      rcases List.mem_append.mp hv with hv | hv
      · obtain ⟨hreach, hknown⟩ := hk.inside v hv x hx
        exact ⟨reach_kids hreach, hknown' x hknown⟩
      · rw [List.mem_singleton.mp hv] at hx
        refine ⟨hgrown₁ x (h.after_shrunk hinv₁ hpost hn₁ hvisit hx), ?_⟩
        exact h.known_of_below hinv' (hself.trans hx)
    alive := by
      intro v hv
      rcases List.mem_append.mp hv with hv | hv
      · exact hk.alive v hv
      · rw [List.mem_singleton.mp hv]
        exact ⟨hinv₁, hn₁⟩
    nodup := by
      rw [nodes, List.map_append]
      refine List.nodup_append.mpr ⟨hk.nodup, List.nodup_singleton n, fun a ha b hb hab => ?_⟩
      have han : a = n := hab.trans (List.mem_singleton.mp hb)
      exact hnot (han ▸ ha)
    covered := by
      intro _ x hx
      -- below a kid, the walk of the kids has seen it or left it out
      have hkid : ∀ c ∈ kids s n, Below (kids s) c x ∨ Below (kids s₁) c x →
          x ∈ nodes (log ++ [⟨n, s₁, r, s'⟩]) ∨ Pruned kids pre (log ++ [⟨n, s₁, r, s'⟩]) x := by
        intro c hc hcx
        refine seen_mono (hk.covered rfl x ?_) (List.subset_append_left _ _)
        rcases hcx with hcx | hcx
        · exact .inl ⟨c, hc, hcx⟩
        · exact .inr (.inl ⟨c, hc, hcx⟩)
      have hbelow' : Below (kids s') n x →
          x ∈ nodes (log ++ [⟨n, s₁, r, s'⟩]) ∨ Pruned kids pre (log ++ [⟨n, s₁, r, s'⟩]) x := by
        intro hx
        rcases below_iff.mp (h.after_shrunk hinv₁ hpost hn₁ hvisit hx) with rfl | ⟨c, hc, hcx⟩
        · exact .inl hlast
        · rw [hsame] at hc
          exact hkid c hc (.inr hcx)
      rcases hx with ⟨m, hm, hx⟩ | ⟨m, hm, hx⟩ | ⟨v, hv, hx⟩
      · rw [List.mem_singleton.mp hm] at hx
        rcases below_iff.mp hx with rfl | ⟨c, hc, hcx⟩
        · exact .inl hlast
        · exact hkid c hc (.inl hcx)
      · rw [List.mem_singleton.mp hm] at hx
        exact hbelow' hx
      · rcases List.mem_append.mp hv with hv | hv
        · exact seen_mono (hk.covered rfl x (.inr (.inr ⟨v, hv, hx⟩)))
            (List.subset_append_left _ _)
        · rw [List.mem_singleton.mp hv] at hx
          exact hbelow' hx
    pruned := by
      rintro x ⟨v, hv, hskip, hvpre, hne, hx⟩ hmem
      rcases List.mem_append.mp hv with hin | hin
      · obtain ⟨w, hw, hwx⟩ := mem_nodes.mp hmem
        rcases List.mem_append.mp hw with hw | hw
        · exact hk.pruned x ⟨v, hin, hskip, hvpre, hne, hx⟩ (mem_nodes.mpr ⟨w, hw, hwx⟩)
        · rw [List.mem_singleton.mp hw] at hwx
          have hnx : n = x := hwx
          exact hfresh v hin (hnx ▸ hx)
      · rw [List.mem_singleton.mp hin, hpost] at hvpre
        exact absurd hvpre nofun }

/-! ## Nodes one after the other -/

section Cons

variable (hready : Ready kids root inv (n :: ns) s)

include hready

omit h in
theorem apart_of_ready {m : ν} (hm : m ∈ ns) (hx : Below (kids s) m x) : ¬ Below (kids s) n x :=
  fun hnx => (List.pairwise_cons.mp hready.apart).1 m hm x hnx hx

omit h in
/-- A walk of the first node leaves alone what is below the others. -/
theorem below_later {log : List (Visit ν σ β)} {e : Option β}
    (hk : Outcome kids pre root inv known [n] s log e s₁) {m : ν} (hm : m ∈ ns) :
    Below (kids s₁) m x ↔ Below (kids s) m x := by
  have hsame : ∀ y, Below (kids s) m y → kids s₁ y = kids s y := by
    intro y hy
    refine (hk.frame y ((hready.below m (List.mem_cons_of_mem _ hm)).trans hy) ?_).2
    intro n' hn'
    rw [List.mem_singleton.mp hn']
    exact apart_of_ready hready hm hy
  exact ⟨fun hx => hx.of_same' hsame, fun hx => hx.of_same hsame⟩

omit h in
/-- The other nodes can be walked then. -/
theorem ready_later {log : List (Visit ν σ β)} {e : Option β}
    (hk : Outcome kids pre root inv known [n] s log e s₁) : Ready kids root inv ns s₁ where
  start := hk.final
  below m hm := by
    refine (hk.frame m (hready.below m (List.mem_cons_of_mem _ hm)) ?_).1
    intro n' hn'
    rw [List.mem_singleton.mp hn']
    exact apart_of_ready hready hm (Below.refl _ _)
  apart := by
    refine (List.pairwise_cons.mp hready.apart).2.imp_of_mem (fun {a b} ha hb hab x hax hbx => ?_)
    rw [below_later hready hk ha] at hax
    rw [below_later hready hk hb] at hbx
    exact hab x hax hbx

omit h hready in
theorem reach_first (hx : Reach kids known [n] s x) : Reach kids known (n :: ns) s x := by
  rcases reach_singleton.mp hx with hx | hx
  · exact .inl ⟨n, List.mem_cons_self, hx⟩
  · exact .inr hx

omit h in
theorem reach_later {log : List (Visit ν σ β)} {e : Option β}
    (hk : Outcome kids pre root inv known [n] s log e s₁) (hx : Reach kids known ns s₁ x) :
    Reach kids known (n :: ns) s x := by
  rcases hx with ⟨m, hm, hx⟩ | hx
  · exact .inl ⟨m, List.mem_cons_of_mem _ hm, (below_later hready hk hm).mp hx⟩
  · exact .inr (fun hknown => hx (hk.mono x hknown))

/-- What the walk of the first node reached is not reached again. -/
theorem reach_apart {log : List (Visit ν σ β)} {e : Option β}
    (hk : Outcome kids pre root inv known [n] s log e s₁) (hx : Reach kids known [n] s x)
    (hknown : known s₁ x) : ¬ Reach kids known ns s₁ x := by
  rintro (⟨m, hm, hmx⟩ | hnew)
  · rw [below_later hready hk hm] at hmx
    rcases reach_singleton.mp hx with hnx | hnew
    · exact apart_of_ready hready hm hmx hnx
    · refine hnew (h.known_of_below hready.start ?_)
      exact (hready.below m (List.mem_cons_of_mem _ hm)).trans hmx
  · exact hnew hknown

omit h in
theorem outcome_stopped {b : β} (hk : Outcome kids pre root inv known [n] s log (some b) s') :
    Outcome kids pre root inv known (n :: ns) s log (some b) s' where
  final := hk.final
  mono := hk.mono
  frame x hx hout := by
    refine hk.frame x hx (fun m hm => ?_)
    rw [List.mem_singleton.mp hm]
    exact hout n List.mem_cons_self
  grown := by
    rintro x ⟨m, hm, hx⟩
    rcases List.mem_cons.mp hm with rfl | hm
    · exact reach_first (hk.grown x ⟨m, List.mem_singleton_self m, hx⟩)
    · exact .inl ⟨m, List.mem_cons_of_mem _ hm, (below_later hready hk hm).mp hx⟩
  inside v hv x hx := ⟨reach_first (hk.inside v hv x hx).1, (hk.inside v hv x hx).2⟩
  alive := hk.alive
  nodup := hk.nodup
  covered he := absurd he nofun
  pruned := hk.pruned

/-- A node, and then the others. -/
theorem outcome_cons (hk : Outcome kids pre root inv known [n] s log none s₁)
    (hl : Outcome kids pre root inv known ns s₁ log' e s') :
    Outcome kids pre root inv known (n :: ns) s (log ++ log') e s' := by
  have hmem : n ∈ [n] := List.mem_singleton_self n
  have hready₁ := ready_later hready hk
  -- what is below the first node stays as it is
  have hfirst : ∀ x, Below (kids s') n x → Below (kids s₁) n x := by
    have hn₁ : Below (kids s₁) root n := by
      rcases ReflTransGen.cases_tail (hready.below n List.mem_cons_self) with rfl | ⟨p, hp, hpn⟩
      · exact Below.refl _ _
      · have hnot : ∀ m ∈ [n], ¬ Below (kids s) m p := by
          intro m hm
          rw [List.mem_singleton.mp hm]
          exact (h.tree hready.start).acyclic hpn
        obtain ⟨hstay, hsame⟩ := hk.frame p hp hnot
        refine hstay.trans (Below.kid ?_)
        rw [hsame]
        exact hpn
    intro x hx
    refine hx.of_same' (fun y hy => (hl.frame y (hn₁.trans hy) (fun m hm hmy => ?_)).2)
    have hreach := hk.grown y ⟨n, hmem, hy⟩
    have hknown := h.known_of_below hk.final (hn₁.trans hy)
    exact h.reach_apart hready hk hreach hknown (.inl ⟨m, hm, hmy⟩)
  -- the two walks visit different nodes
  have happart : ∀ x, x ∈ nodes log → x ∉ nodes log' := by
    intro x hx hx'
    obtain ⟨v, hv, rfl⟩ := mem_nodes.mp hx
    obtain ⟨w, hw, hwv⟩ := mem_nodes.mp hx'
    obtain ⟨hreach, hknown⟩ := hk.inside v hv v.node (Below.refl _ _)
    exact h.reach_apart hready hk hreach hknown
      (hwv ▸ (hl.inside w hw w.node (Below.refl _ _)).1)
  exact {
    final := hl.final
    mono := fun x hx => hl.mono x (hk.mono x hx)
    frame := by
      intro x hx hout
      have hout₁ : ∀ m ∈ [n], ¬ Below (kids s) m x := by
        intro m hm
        rw [List.mem_singleton.mp hm]
        exact hout n List.mem_cons_self
      obtain ⟨hx₁, hkids₁⟩ := hk.frame x hx hout₁
      have hout₂ : ∀ m ∈ ns, ¬ Below (kids s₁) m x := by
        intro m hm
        rw [below_later hready hk hm]
        exact hout m (List.mem_cons_of_mem _ hm)
      obtain ⟨hx', hkids'⟩ := hl.frame x hx₁ hout₂
      exact ⟨hx', hkids'.trans hkids₁⟩
    grown := by
      rintro x ⟨m, hm, hx⟩
      rcases List.mem_cons.mp hm with rfl | hm
      · exact reach_first (hk.grown x ⟨m, hmem, hfirst x hx⟩)
      · exact reach_later hready hk (hl.grown x ⟨m, hm, hx⟩)
    inside := by
      intro v hv x hx
      rcases List.mem_append.mp hv with hv | hv
      · exact ⟨reach_first (hk.inside v hv x hx).1, hl.mono x (hk.inside v hv x hx).2⟩
      · exact ⟨reach_later hready hk (hl.inside v hv x hx).1, (hl.inside v hv x hx).2⟩
    alive := by
      intro v hv
      rcases List.mem_append.mp hv with hv | hv
      · exact hk.alive v hv
      · exact hl.alive v hv
    nodup := by
      rw [nodes, List.map_append]
      refine List.nodup_append.mpr ⟨hk.nodup, hl.nodup, fun a ha b hb hab => ?_⟩
      exact happart a ha (hab ▸ hb)
    covered := by
      intro he x hx
      have hsub : log ⊆ log ++ log' := List.subset_append_left _ _
      have hsub' : log' ⊆ log ++ log' := List.subset_append_right _ _
      rcases hx with ⟨m, hm, hx⟩ | ⟨m, hm, hx⟩ | ⟨v, hv, hx⟩
      · rcases List.mem_cons.mp hm with rfl | hm
        · exact seen_mono (hk.covered rfl x (.inl ⟨m, hmem, hx⟩)) hsub
        · rw [← below_later hready hk hm] at hx
          exact seen_mono (hl.covered he x (.inl ⟨m, hm, hx⟩)) hsub'
      · rcases List.mem_cons.mp hm with rfl | hm
        · exact seen_mono (hk.covered rfl x (.inr (.inl ⟨m, hmem, hfirst x hx⟩))) hsub
        · exact seen_mono (hl.covered he x (.inr (.inl ⟨m, hm, hx⟩))) hsub'
      · rcases List.mem_append.mp hv with hv | hv
        · exact seen_mono (hk.covered rfl x (.inr (.inr ⟨v, hv, hx⟩))) hsub
        · exact seen_mono (hl.covered he x (.inr (.inr ⟨v, hv, hx⟩))) hsub'
    pruned := by
      rintro x ⟨v, hv, hskip, hvpre, hne, hx⟩ hxmem
      rw [nodes, List.map_append] at hxmem
      rcases List.mem_append.mp hv with hin | hin
      · rcases List.mem_append.mp hxmem with hxmem | hxmem
        · exact hk.pruned x ⟨v, hin, hskip, hvpre, hne, hx⟩ hxmem
        · obtain ⟨w, hw, rfl⟩ := mem_nodes.mp hxmem
          obtain ⟨hreach, hknown⟩ := hk.inside v hin w.node hx
          exact h.reach_apart hready hk hreach hknown
            (hl.inside w hw w.node (Below.refl _ _)).1
      · rcases List.mem_append.mp hxmem with hxmem | hxmem
        · obtain ⟨w, hw, rfl⟩ := mem_nodes.mp hxmem
          obtain ⟨hreach, hknown⟩ := hk.inside w hw w.node (Below.refl _ _)
          exact h.reach_apart hready hk hreach hknown (hl.inside v hin w.node hx).1
        · exact hl.pruned x ⟨v, hin, hskip, hvpre, hne, hx⟩ hxmem }

end Cons

/-! ## A whole walk -/

omit h in
theorem ready_head (hready : Ready kids root inv (n :: ns) s) : Ready kids root inv [n] s where
  start := hready.start
  below m hm := by
    rw [List.mem_singleton.mp hm]
    exact hready.below n List.mem_cons_self
  apart := List.pairwise_singleton _ _

/-- Every walk has the outcome that the rules promise. -/
theorem outcome (hwalk : Walk kids pre visit ns s log e s') (hready : Ready kids root inv ns s) :
    Outcome kids pre root inv known ns s log e s' := by
  induction hwalk with
  | nil s =>
      exact {
        final := hready.start
        mono := fun x hx => hx
        frame := fun x hx _ => ⟨hx, rfl⟩
        grown := fun x ⟨m, hm, _⟩ => absurd hm List.not_mem_nil
        inside := fun v hv => absurd hv List.not_mem_nil
        alive := fun v hv => absurd hv List.not_mem_nil
        nodup := List.nodup_nil
        covered := by
          rintro _ x (⟨m, hm, _⟩ | ⟨m, hm, _⟩ | ⟨v, hv, _⟩)
          · exact absurd hm List.not_mem_nil
          · exact absurd hm List.not_mem_nil
          · exact absurd hv List.not_mem_nil
        pruned := fun x ⟨v, hv, _⟩ => absurd hv List.not_mem_nil }
  | leaf hpre hvisit hr =>
      exact h.outcome_leaf hready.start hpre (hready.below _ List.mem_cons_self) hvisit hr
  | before hpre hvisit _ ih =>
      have hn := hready.below _ List.mem_cons_self
      have hn₁ := h.before_below hready.start hpre hn hvisit (Below.refl _ _) hn
      have hready₁ := h.ready_kids (h.before_inv hready.start hn hvisit) hn₁
      exact h.outcome_before hready.start hpre hn hvisit nofun (ih hready₁)
  | afterStopped _ _ ih =>
      have hn := hready.below _ List.mem_cons_self
      exact h.outcome_afterStopped hready.start hn (ih (h.ready_kids hready.start hn))
  | after hpost _ hvisit ih =>
      have hn := hready.below _ List.mem_cons_self
      exact h.outcome_after hready.start hpost hn (ih (h.ready_kids hready.start hn)) hvisit
  | stopped _ ih => exact outcome_stopped hready (ih (ready_head hready))
  | cons _ _ ihn ihr =>
      have hk := ihn (ready_head hready)
      exact h.outcome_cons hready hk (ihr (ready_later hready hk))

/-- What is in the tree after a visit was there before, or is below the visited node. -/
theorem grown_visit {v : Visit ν σ β} (hv : visit v.node v.before = (v.reply, v.after))
    (hinv : inv v.before) (hn : Below (kids v.before) root v.node)
    (hx : Below (kids v.after) root x) :
    Below (kids v.before) root x ∨ Below (kids v.after) v.node x := by
  by_cases hbelow : Below (kids v.after) v.node x
  · exact .inr hbelow
  · -- no node on the way to `x` is the visited one
    refine .inl ?_
    induction hx with
    | refl => exact Below.refl _ _
    | @tail y z hy hyz ih =>
        have hnot : ¬ Below (kids v.after) v.node y := fun hny =>
          hbelow (hny.trans (Below.kid hyz))
        have hne : y ≠ v.node := by
          rintro rfl
          exact hnot (Below.refl _ _)
        refine (ih hnot).trans (Below.kid ?_)
        cases hpre : pre v.node with
        | true => rwa [h.before_same hinv hpre hn hv (ih hnot) hne] at hyz
        | false => rwa [h.after_same hinv hpre hn hv hy hne] at hyz

/-- What is ever in the tree was there at the start, or is below a node just visited. -/
theorem ever_linked (hlinked : Linked s log s')
    (hlog : ∀ v ∈ log, visit v.node v.before = (v.reply, v.after) ∧ inv v.before ∧
      Below (kids v.before) root v.node)
    (hx : Below (kids s') root x ∨ ∃ v ∈ log, Below (kids v.after) root x) :
    Below (kids s) root x ∨ ∃ v ∈ log, Below (kids v.after) v.node x := by
  induction log generalizing s with
  | nil =>
      obtain rfl : s = s' := hlinked
      rcases hx with hx | ⟨v, hv, _⟩
      · exact .inl hx
      · exact absurd hv List.not_mem_nil
  | cons v log ih =>
      obtain ⟨rfl, hlinked⟩ := hlinked
      obtain ⟨hv, hinv, hn⟩ := hlog v List.mem_cons_self
      have hfirst : Below (kids v.after) root x → Below (kids v.before) root x ∨
          ∃ w ∈ v :: log, Below (kids w.after) w.node x := by
        intro hx
        rcases h.grown_visit hv hinv hn hx with hx | hx
        · exact .inl hx
        · exact .inr ⟨v, List.mem_cons_self, hx⟩
      have hrest : (Below (kids s') root x ∨ ∃ w ∈ log, Below (kids w.after) root x) →
          Below (kids v.before) root x ∨ ∃ w ∈ v :: log, Below (kids w.after) w.node x := by
        intro hx
        rcases ih hlinked (fun w hw => hlog w (List.mem_cons_of_mem _ hw)) hx with hx | ⟨w, hw, hx⟩
        · exact hfirst hx
        · exact .inr ⟨w, List.mem_cons_of_mem _ hw, hx⟩
      rcases hx with hx | ⟨w, hw, hx⟩
      · exact hrest (.inl hx)
      · rcases List.mem_cons.mp hw with rfl | hw
        · exact hfirst hx
        · exact hrest (.inr ⟨w, hw, hx⟩)

omit h in
/-- A tree that no visit changes. -/
theorem const {kids : ν → List ν} (htree : IsTree kids) :
    Rules (fun _ => kids) pre visit root (fun _ => True) (fun _ _ => True) where
  tree _ := htree
  known_of_below _ _ := trivial
  inv_visit _ _ := trivial
  known_visit _ _ _ := trivial
  before_others _ _ _ _ _ := rfl
  before_keeps _ _ _ hc := hc
  before_new _ _ _ hc hnew := absurd hc hnew
  after_others _ _ _ _ _ := rfl
  after_keeps _ _ _ hc := hc

end Rules

end Outcome

end Pliron.Lib.TreeWalk
