/-
  Pliron.Graph.MutableWalkersCorrect

  What a walk visits, when the callback changes the IR as the rules allow.

  A walker that reads the next sibling from the context after each child walks the children that
  the node had at first, because the walk of a child leaves the children of the node alone.  So
  the walkers are walks of a tree, for which the rules were proved to be enough.
-/

import Pliron.Graph.MutableWalkers
import Pliron.IR.Mutate

namespace Pliron

open Pliron.Lib TreeWalk Relation

namespace Walkers

variable {τ β α : Type} {config : WalkConfig} {s : Context × τ} {root node x : IRNode}

/-! ## The tree of a context -/

theorem mem_directed {direction : Direction} {l : List α} {a : α} :
    a ∈ directed direction l ↔ a ∈ l := by
  cases direction with
  | forward => exact Iff.rfl
  | reverse => exact List.mem_reverse

theorem nodup_directed {direction : Direction} {l : List α} :
    (directed direction l).Nodup ↔ l.Nodup := by
  cases direction with
  | forward => exact Iff.rfl
  | reverse => exact List.nodup_reverse

theorem map_directed {α' : Type} (f : α → α') (direction : Direction) (l : List α) :
    (directed direction l).map f = directed direction (l.map f) := by
  cases direction with
  | forward => rfl
  | reverse => exact List.map_reverse

theorem directed_inj {direction : Direction} {l l' : List α} :
    directed direction l = directed direction l' ↔ l = l' := by
  cases direction with
  | forward => exact Iff.rfl
  | reverse => exact List.reverse_inj

/-- The children of a node, in the direction of the walk. -/
def kidsOf (config : WalkConfig) (s : Context × τ) (node : IRNode) : List IRNode :=
  directed (config.forNode node).2 (s.1.childNodes node)

/-- Is a node visited before its children? -/
def isPre (config : WalkConfig) (node : IRNode) : Bool :=
  decide ((config.forNode node).1 = .preOrder)

theorem mem_kidsOf : x ∈ kidsOf config s node ↔ x ∈ s.1.childNodes node := mem_directed

/-- What lies below a node in the walk is what lies inside it. -/
theorem below_kidsOf (hnest : s.1.WellNested) :
    Below (kidsOf config s) node x ↔ s.1.Inside node x := by
  have hstep : (fun a b => b ∈ kidsOf config s a) =
      Function.swap (fun a b => s.1.parentNode a = some b) := by
    funext a b
    exact propext (mem_kidsOf.trans (hnest.mem_childNodes a b))
  rw [Below, hstep, Context.Inside, Above]
  exact reflTransGen_swap

theorem isTree_kidsOf (hnest : s.1.WellNested) : IsTree (kidsOf config s) where
  nodup node := by
    rw [kidsOf, nodup_directed]
    cases node with
    | operation op => exact (hnest.regions_nodup op).map (fun _ _ h => IRNode.region.inj h)
    | basicBlock b => exact (hnest.ops_nodup b).map (fun _ _ h => IRNode.operation.inj h)
    | region r => exact (hnest.blocks_nodup r).map (fun _ _ h => IRNode.basicBlock.inj h)
  parent_unique {a b c} ha hb := by
    rw [mem_kidsOf, hnest.mem_childNodes] at ha hb
    exact Option.some.inj (ha.symm.trans hb)
  acyclic {a c} hc hbelow := by
    rw [below_kidsOf hnest] at hbelow
    rw [mem_kidsOf, hnest.mem_childNodes] at hc
    obtain ⟨depth, hdepth⟩ := hnest.isForest_node.acyclic
    have hlt := hdepth c a hc
    have hle := Above.depth_le hdepth hbelow
    omega

/-- A level is bounded by the number of nodes. -/
theorem level_le (hnest : s.1.WellNested) {d : Nat} (h : Level (kidsOf config s) d root x) :
    d ≤ s.1.nodeCount := by
  have hsteps : ∀ d x, Level (kidsOf config s) d root x →
      stepsUp s.1.parentNode d x = some root := by
    intro d
    induction d with
    | zero =>
        intro x h
        obtain rfl : x = root := h
        rfl
    | succ d ih =>
        rintro x ⟨y, hy, hyx⟩
        rw [mem_kidsOf, hnest.mem_childNodes] at hyx
        rw [stepsUp, hyx]
        exact ih y hy
  exact hnest.isForest_node.steps_le (hsteps d x h)

/-- So the tree below the root has at most as many levels. -/
theorem fits_kidsOf (hnest : s.1.WellNested) {fuel d : Nat}
    (hlevel : Level (kidsOf config s) d root node) (hfuel : s.1.nodeCount < d + fuel) :
    Fits (kidsOf config s) fuel node := by
  induction fuel generalizing d node with
  | zero =>
      have hle := level_le hnest hlevel
      omega
  | succ fuel ih =>
      intro c hc
      have hc : Level (kidsOf config s) (d + 1) root c := ⟨node, hlevel, hc⟩
      exact ih hc (by omega)

/-- A node has as many children as there are nodes, at most. -/
theorem length_kidsOf_le (hnest : s.1.WellNested) :
    (kidsOf config s node).length ≤ s.1.nodeCount := by
  have hparent : ∀ c ∈ kidsOf config s node, s.1.parentNode c = some node := fun c hc =>
    (hnest.mem_childNodes node c).mp (mem_kidsOf.mp hc)
  have hforest := hnest.isForest_node
  have hnodup : ((kidsOf config s node).map s.1.nodeNumber).Nodup := by
    refine List.Nodup.map_on ?_ ((isTree_kidsOf hnest).nodup node)
    intro a ha b hb hab
    refine hforest.number_inj a b ?_ ?_ hab
    · rw [hparent a ha]
      exact nofun
    · rw [hparent b hb]
      exact nofun
  have hsub : (kidsOf config s node).map s.1.nodeNumber ⊆ List.range s.1.nodeCount := by
    intro i hi
    obtain ⟨c, hc, rfl⟩ := List.mem_map.mp hi
    exact List.mem_range.mpr (hforest.number_lt c node (hparent c hc))
  have hle := (List.subperm_of_subset hnodup hsub).length_le
  rwa [List.length_map, List.length_range] at hle

/-! ## Siblings -/

/-- The element after one that occurs once. -/
theorem getElem?_idxOf_succ [DecidableEq α] {front rest : List α} {a : α} (h : a ∉ front) :
    (front ++ a :: rest)[(front ++ a :: rest).idxOf a + 1]? = rest.head? := by
  have hidx : (front ++ a :: rest).idxOf a = front.length := by
    rw [List.idxOf_append_of_notMem h, List.idxOf_cons_self, Nat.add_zero]
  rw [hidx, List.getElem?_append_right (Nat.le_add_right _ 1), Nat.add_sub_cancel_left,
    List.getElem?_cons_succ, List.head?_eq_getElem?]

theorem nextIn_eq [DecidableEq α] {f : α → IRNode} (hf : Function.Injective f)
    {direction : Direction} {l : List α} {front rest : List IRNode} {a : α}
    (hl : l.Nodup) (h : directed direction (l.map f) = front ++ f a :: rest) :
    (nextIn direction l a).map f = rest.head? := by
  rw [← map_directed, List.map_eq_append_iff] at h
  obtain ⟨front', rest', hcut, rfl, hrest⟩ := h
  obtain ⟨a', rest'', rfl, ha, rfl⟩ := List.map_eq_cons_iff.mp hrest
  obtain rfl := hf ha
  have hnodup : (front' ++ a' :: rest'').Nodup := by
    rw [← hcut, nodup_directed]
    exact hl
  have hnot : a' ∉ front' := fun hin =>
    (List.nodup_append.mp hnodup).2.2 a' hin a' List.mem_cons_self rfl
  rw [nextIn, hcut, getElem?_idxOf_succ hnot, List.head?_map]

/-- What follows a child is the next child. -/
theorem nextSibling_eq (hnest : s.1.WellNested) {front rest : List IRNode}
    (hnode : ∀ op, node ≠ .operation op) (h : kidsOf config s node = front ++ x :: rest) :
    nextSibling (config.forNode node).2 x s.1 = some rest.head? := by
  have hx : x ∈ s.1.childNodes node := by
    have hmem : x ∈ kidsOf config s node := h ▸ List.mem_append_right _ List.mem_cons_self
    exact mem_kidsOf.mp hmem
  cases node with
  | operation op => exact absurd rfl (hnode op)
  | basicBlock block =>
      obtain ⟨op, hop, rfl⟩ := List.mem_map.mp hx
      obtain ⟨o, ho, hparent⟩ := Option.bind_eq_some_iff.mp ((hnest.op_mem block op).mp hop)
      have hnext := nextIn_eq (fun _ _ heq => IRNode.operation.inj heq)
        (hnest.ops_nodup block) h
      rw [nextSibling]
      simp only [Option.bind_eq_bind, ho, Option.bind_some, hparent]
      rw [hnext]
  | region region =>
      obtain ⟨block, hblock, rfl⟩ := List.mem_map.mp hx
      obtain ⟨b, hb, hparent⟩ :=
        Option.bind_eq_some_iff.mp ((hnest.block_mem region block).mp hblock)
      have hnext := nextIn_eq (fun _ _ heq => IRNode.basicBlock.inj heq)
        (hnest.blocks_nodup region) h
      rw [nextSibling]
      simp only [Option.bind_eq_bind, hb, Option.bind_some, hparent]
      rw [hnext]

theorem firstChild_eq (halloc : s.1.isAllocated node = true) (hnode : ∀ op, node ≠ .operation op) :
    firstChild (config.forNode node).2 node s.1 = some (kidsOf config s node).head? := by
  cases node with
  | operation op => exact absurd rfl (hnode op)
  | basicBlock block =>
      obtain ⟨b, hb⟩ := Option.isSome_iff_exists.mp halloc
      have hkids : kidsOf config s (.basicBlock block) =
          (directed config.opsInBlock.2 b.ops).map .operation := by
        rw [kidsOf, Context.childNodes, Context.blockOps, hb, map_directed]
        rfl
      rw [hkids, List.head?_map, firstChild, hb]
      rfl
  | region region =>
      obtain ⟨r, hr⟩ := Option.isSome_iff_exists.mp halloc
      have hkids : kidsOf config s (.region region) =
          (directed config.blocksInRegion.2 r.blocks).map .basicBlock := by
        rw [kidsOf, Context.childNodes, Context.regionBlocks, hr, map_directed]
        rfl
      rw [hkids, List.head?_map, firstChild, hr]
      rfl

theorem map_range_getElem? (l : List α) : (List.range l.length).map (fun i => l[i]?) =
    l.map some := by
  apply List.ext_getElem?
  intro i
  rw [List.getElem?_map, List.getElem?_map]
  by_cases hi : i < l.length
  · rw [List.getElem?_range hi, List.getElem?_eq_getElem hi, Option.map_some, Option.map_some,
      List.getElem?_eq_getElem hi]
  · rw [List.getElem?_eq_none (by rw [List.length_range]; omega),
      List.getElem?_eq_none (not_lt.mp hi)]
    rfl

/-! ## Computations that walk -/

section Walks

variable {σ : Type} {kids : σ → IRNode → List IRNode}
  {visit : IRNode → σ → Reply β × σ} {s : σ}

/-- A computation walks some nodes. -/
def WalksTo (kids : σ → IRNode → List IRNode) (config : WalkConfig)
    (visit : IRNode → σ → Reply β × σ) (m : Check σ β Unit) (ns : List IRNode) (s : σ) : Prop :=
  ∃ log e s', m s = some (ending e, s') ∧ Walk kids (isPre config) visit ns s log e s'

/-- The walk of a child, and then of the rest if it did not stop. -/
theorem walksTo_cons {m m' : Check σ β Unit} {c : IRNode} {ns : List IRNode}
    (hm : WalksTo kids config visit m [c] s)
    (hrest : ∀ log s', Walk kids (isPre config) visit [c] s log none s' →
      WalksTo kids config visit m' ns s') :
    WalksTo kids config visit (m >>= fun _ => m') (c :: ns) s := by
  obtain ⟨log, e, s₁, hrun, hwalk⟩ := hm
  cases e with
  | some b => exact ⟨log, some b, s₁, run_bind_error hrun, hwalk.stopped⟩
  | none =>
      obtain ⟨log', e, s', hrun', hwalk'⟩ := hrest log s₁ hwalk
      exact ⟨log ++ log', e, s', (run_bind_ok hrun).trans hrun', hwalk.cons hwalk'⟩

/-- The visit of a node, and the walk of its children, in the order configured. -/
theorem walksTo_node {children : Check σ β Unit}
    (hpre : ∀ s₁, isPre config node = true → visit node s = (.advance, s₁) →
      WalksTo kids config visit children (kids s₁ node) s₁)
    (hpost : isPre config node = false → WalksTo kids config visit children (kids s node) s) :
    WalksTo kids config visit (match (config.forNode node).1 with
      | .preOrder => do
          match ← ofVisit visit node with
          | .skip => pure ()
          | .advance => children
      | .postOrder => do
          children
          let _ ← ofVisit visit node
          pure ()) [node] s := by
  cases horder : (config.forNode node).1 with
  | preOrder =>
      have hbefore : isPre config node = true := by
        rw [isPre, horder]
        rfl
      cases hv : visit node s with
      | mk r s₁ =>
          have hcall := ofVisit_eq hv
          cases r with
          | advance =>
              obtain ⟨log, e, s', hrun, hw⟩ := hpre s₁ hbefore hv
              exact ⟨_, e, s', (run_bind_ok hcall).trans hrun, Walk.before hbefore hv hw⟩
          | skip => exact ⟨_, none, s₁, run_bind_ok hcall, Walk.leaf hbefore hv nofun⟩
          | stop b => exact ⟨_, some b, s₁, run_bind_error hcall, Walk.leaf hbefore hv nofun⟩
  | postOrder =>
      have hafter : isPre config node = false := by
        rw [isPre, horder]
        rfl
      obtain ⟨log, e, s₁, hrun, hw⟩ := hpost hafter
      cases e with
      | some b => exact ⟨log, some b, s₁, run_bind_error hrun, Walk.afterStopped hafter hw⟩
      | none =>
          cases hv : visit node s₁ with
          | mk r s' =>
              have hcall := ofVisit_eq hv
              have hwalk := Walk.after hafter hw hv
              cases r with
              | advance =>
                  exact ⟨_, none, s', (run_bind_ok hrun).trans (run_bind_ok hcall), hwalk⟩
              | skip =>
                  exact ⟨_, none, s', (run_bind_ok hrun).trans (run_bind_ok hcall), hwalk⟩
              | stop b =>
                  exact ⟨_, some b, s', (run_bind_ok hrun).trans (run_bind_error hcall), hwalk⟩

end Walks

/-! ## The walkers walk the tree -/

section Walks

variable {visit : IRNode → Context × τ → Reply β × (Context × τ)} {inv : Context × τ → Prop}
  {known : Context × τ → IRNode → Prop} {bound : Nat}

/-- The contexts of a walk: the tree obeys the rules, and there are `bound` nodes at most. -/
structure Setting (config : WalkConfig) (visit : IRNode → Context × τ → Reply β × (Context × τ))
    (root : IRNode) (inv : Context × τ → Prop) (known : Context × τ → IRNode → Prop)
    (bound : Nat) : Prop where
  rules : Rules (kidsOf config) (isPre config) visit root inv known
  wellNested : ∀ {s}, inv s → s.1.WellNested
  allocated : ∀ {s}, inv s → s.1.isAllocated root = true
  bounded : ∀ {s}, inv s → s.1.nodeCount ≤ bound

namespace Setting

variable (h : Setting config visit root inv known bound)

include h

theorem isAllocated_of_below (hs : inv s) (hn : Below (kidsOf config s) root node) :
    s.1.isAllocated node = true := by
  rcases ReflTransGen.cases_tail hn with rfl | ⟨p, _, hp⟩
  · exact h.allocated hs
  · rw [mem_kidsOf, (h.wellNested hs).mem_childNodes] at hp
    cases node with
    | operation op =>
        obtain ⟨b, hb, _⟩ := Option.map_eq_some_iff.mp hp
        exact Option.isSome_iff_ne_none.mpr (Context.operations_ne_none hb)
    | basicBlock block =>
        obtain ⟨r, hr, _⟩ := Option.map_eq_some_iff.mp hp
        exact Option.isSome_iff_ne_none.mpr (Context.basicBlocks_ne_none hr)
    | region region =>
        obtain ⟨op, hop, _⟩ := Option.map_eq_some_iff.mp hp
        exact Option.isSome_iff_ne_none.mpr (Context.regions_ne_none hop)

/-- The walk of a child leaves its siblings and the level of its parent alone. -/
theorem kids_after_child {c : IRNode} {d : Nat} {s' : Context × τ}
    {log : List (Visit IRNode (Context × τ) β)} (hs : inv s)
    (hlevel : Level (kidsOf config s) d root node) (hc : c ∈ kidsOf config s node)
    (hwalk : Walk (kidsOf config) (isPre config) visit [c] s log none s') :
    inv s' ∧ Level (kidsOf config s') d root node ∧
      kidsOf config s' node = kidsOf config s node := by
  have htree := h.rules.tree hs
  have hready : Ready (kidsOf config) root inv [c] s := {
    start := hs
    below := by
      intro m hm
      rw [List.mem_singleton.mp hm]
      exact hlevel.below.trans (Below.kid hc)
    apart := List.pairwise_singleton _ _ }
  have hout := h.rules.outcome hwalk hready
  have hframe : ∀ y, Below (kidsOf config s) root y → Below (kidsOf config s) y node →
      kidsOf config s' y = kidsOf config s y := by
    intro y hy hyn
    refine (hout.frame y hy (fun m hm => ?_)).2
    rw [List.mem_singleton.mp hm]
    exact fun hcy => htree.acyclic hc (hcy.trans hyn)
  refine ⟨hout.final, ?_, hframe node hlevel.below (Below.refl _ _)⟩
  refine hlevel.mono (fun y hy hyn c hc => ?_)
  rw [hframe y hy hyn]
  exact hc

/-- The loop over siblings, by induction on those that are left. -/
theorem walkSiblings_walksTo {walk : IRNode → Check (Context × τ) β Unit} {d : Nat}
    (hwalk : ∀ c s, inv s → Level (kidsOf config s) (d + 1) root c →
      WalksTo (kidsOf config) config visit (walk c) [c] s)
    (hnode : ∀ op, node ≠ .operation op) {front ns : List IRNode} {n : Nat} (hs : inv s)
    (hlevel : Level (kidsOf config s) d root node) (hns : kidsOf config s node = front ++ ns)
    (hn : ns.length ≤ n) :
    WalksTo (kidsOf config) config visit (walkSiblings walk (config.forNode node).2 n ns.head?)
      ns s := by
  induction ns generalizing s front n with
  | nil =>
      refine ⟨[], none, s, ?_, Walk.nil s⟩
      rw [List.head?_nil, walkSiblings]
      rfl
  | cons c ns ih =>
      obtain ⟨n, rfl⟩ : ∃ k, n = k + 1 := Nat.exists_eq_add_one_of_ne_zero
        (Nat.ne_of_gt (Nat.lt_of_lt_of_le (Nat.succ_pos _) hn))
      have hc : c ∈ kidsOf config s node := by
        rw [hns]
        exact List.mem_append_right _ List.mem_cons_self
      rw [List.head?_cons, walkSiblings]
      refine walksTo_cons (hwalk c s hs ⟨node, hlevel, hc⟩) (fun log s₁ hw => ?_)
      obtain ⟨hs₁, hlevel₁, hkids₁⟩ := h.kids_after_child hs hlevel hc hw
      have hns₁ : kidsOf config s₁ node = front ++ c :: ns := hkids₁.trans hns
      have hnext := nextSibling_eq (h.wellNested hs₁) hnode hns₁
      have happ : kidsOf config s₁ node = (front ++ [c]) ++ ns := by
        rw [hns₁, List.append_assoc, List.singleton_append]
      obtain ⟨log', e, s', hrun, hwalk'⟩ :=
        ih hs₁ hlevel₁ happ (Nat.le_of_succ_le_succ hn)
      exact ⟨log', e, s', (run_bind_ok (run_readCtx hnext)).trans hrun, hwalk'⟩

/-- The loop over the indices of regions, by induction on those that are left. -/
theorem forM_regions_walksTo {walk : IRNode → Check (Context × τ) β Unit} {d : Nat} {op : OpPtr}
    (hwalk : ∀ c s, inv s → Level (kidsOf config s) (d + 1) root c →
      WalksTo (kidsOf config) config visit (walk c) [c] s)
    {regs : List RegionPtr} {indices : List Nat} {rs : List RegionPtr}
    (hindices : indices.map (fun i => regs[i]?) = rs.map some) (hs : inv s)
    (hlevel : Level (kidsOf config s) d root (.operation op))
    (hkids : s.1.opRegions op = regs) :
    WalksTo (kidsOf config) config visit (indices.forM (fun i => do
      let region ← readCtx (fun ctx => (ctx.operations op).bind (fun o => o.regions[i]?))
      walk (.region region))) (rs.map .region) s := by
  induction indices generalizing s rs with
  | nil =>
      obtain rfl := List.map_eq_nil_iff.mp hindices.symm
      exact ⟨[], none, s, rfl, Walk.nil s⟩
  | cons i indices ih =>
      obtain ⟨r, rs, rfl, hr, hrs⟩ := List.map_eq_cons_iff.mp hindices.symm
      have halloc := h.isAllocated_of_below hs hlevel.below
      obtain ⟨o, ho⟩ := Option.isSome_iff_exists.mp halloc
      have hregions : s.1.opRegions op = o.regions := by
        rw [Context.opRegions, ho]
        rfl
      have hread : (s.1.operations op).bind (fun o => o.regions[i]?) = some r := by
        rw [ho, Option.bind_some, ← hregions, hkids]
        exact hr.symm
      have hmem : IRNode.region r ∈ kidsOf config s (.operation op) := by
        rw [mem_kidsOf, Context.childNodes, hkids]
        exact List.mem_map_of_mem (List.mem_of_getElem? hr.symm)
      have hbody : WalksTo (kidsOf config) config visit (do
          let region ← readCtx (fun ctx => (ctx.operations op).bind (fun o => o.regions[i]?))
          walk (.region region)) [.region r] s := by
        obtain ⟨log, e, s', hrun, hw⟩ := hwalk (.region r) s hs ⟨_, hlevel, hmem⟩
        exact ⟨log, e, s', (run_bind_ok (run_readCtx hread)).trans hrun, hw⟩
      rw [List.forM_eq_forM, List.forM_cons, List.map_cons]
      refine walksTo_cons hbody (fun log s₁ hw => ?_)
      obtain ⟨hs₁, hlevel₁, hkids₁⟩ := h.kids_after_child hs hlevel hmem hw
      have hregs₁ : s₁.1.opRegions op = regs := by
        have hchild : s₁.1.childNodes (.operation op) = s.1.childNodes (.operation op) :=
          directed_inj.mp hkids₁
        rw [← hkids]
        exact List.map_injective_iff.mpr (fun _ _ heq => IRNode.region.inj heq) hchild
      exact ih hrs.symm hs₁ hlevel₁ hregs₁

/-- The children of a node are walked in order. -/
theorem walkChildren_walksTo {walk : IRNode → Check (Context × τ) β Unit} {d : Nat}
    (hwalk : ∀ c s, inv s → Level (kidsOf config s) (d + 1) root c →
      WalksTo (kidsOf config) config visit (walk c) [c] s) (hs : inv s)
    (hlevel : Level (kidsOf config s) d root node) :
    WalksTo (kidsOf config) config visit (walkChildren walk (config.forNode node).2 bound node)
      (kidsOf config s node) s := by
  have halloc := h.isAllocated_of_below hs hlevel.below
  have hlength : (kidsOf config s node).length ≤ bound :=
    (length_kidsOf_le (h.wellNested hs)).trans (h.bounded hs)
  have hsiblings : (∀ op, node ≠ .operation op) → WalksTo (kidsOf config) config visit (do
      let first ← readCtx (firstChild (config.forNode node).2 node)
      walkSiblings walk (config.forNode node).2 bound first) (kidsOf config s node) s := by
    intro hnode
    obtain ⟨log, e, s', hrun, hw⟩ := h.walkSiblings_walksTo hwalk hnode hs hlevel
      (List.nil_append _).symm hlength
    have hfirst : firstChild (config.forNode node).2 node s.1 =
        some (kidsOf config s node).head? := firstChild_eq halloc hnode
    exact ⟨log, e, s', (run_bind_ok (run_readCtx hfirst)).trans hrun, hw⟩
  cases node with
  | basicBlock block => exact hsiblings nofun
  | region region => exact hsiblings nofun
  | operation op =>
      obtain ⟨o, ho⟩ := Option.isSome_iff_exists.mp halloc
      have hregions : s.1.opRegions op = o.regions := by
        rw [Context.opRegions, ho]
        rfl
      have hindices : (directed config.regionsInOp.2 (List.range o.regions.length)).map
          (fun i => o.regions[i]?) = (directed config.regionsInOp.2 o.regions).map some := by
        rw [map_directed, map_range_getElem?, map_directed]
      have hkids : kidsOf config s (.operation op) =
          (directed config.regionsInOp.2 o.regions).map .region := by
        rw [kidsOf, Context.childNodes, hregions, map_directed]
        rfl
      have hnum : (s.1.operations op).map (fun o => o.regions.length) =
          some o.regions.length := by
        rw [ho]
        rfl
      obtain ⟨log, e, s', hrun, hw⟩ := h.forM_regions_walksTo hwalk hindices hs hlevel hregions
      rw [hkids]
      exact ⟨log, e, s', (run_bind_ok (run_readCtx hnum)).trans hrun, hw⟩

/-- The walkers walk a node, by induction on the fuel: it covers the levels that are left. -/
theorem walkMutable_walksTo {fuel d : Nat} (hs : inv s)
    (hlevel : Level (kidsOf config s) d root node) (hfuel : bound < d + fuel) :
    WalksTo (kidsOf config) config visit (walkMutable config (ofVisit visit) bound fuel node)
      [node] s := by
  induction fuel generalizing s d node with
  | zero =>
      have hle := (level_le (h.wellNested hs) hlevel).trans (h.bounded hs)
      omega
  | succ fuel ih =>
      have hchildren : ∀ s, inv s → Level (kidsOf config s) d root node →
          WalksTo (kidsOf config) config visit
            (walkChildren (walkMutable config (ofVisit visit) bound fuel)
              (config.forNode node).2 bound node) (kidsOf config s node) s := by
        intro s hs hlevel
        exact h.walkChildren_walksTo (fun c s hs hc => ih hs hc (by omega)) hs hlevel
      refine walksTo_node (fun s₁ hpre hv => ?_) (fun _ => hchildren s hs hlevel)
      have hs₁ := h.rules.before_inv hs hlevel.below hv
      refine hchildren s₁ hs₁ (hlevel.mono (fun y hy _ c hc => ?_))
      by_cases hyn : y = node
      · subst hyn
        have hkeep := h.rules.before_keeps hs hpre hlevel.below hc
        rwa [hv] at hkeep
      · rw [h.rules.before_same hs hpre hlevel.below hv hy hyn]
        exact hc

/-- The walk of the root. -/
theorem walk_walksTo (hs : inv s) :
    WalksTo (kidsOf config) config visit (walk config (ofVisit visit) bound root) [root] s := by
  have hroot : Level (kidsOf config s) 0 root root := rfl
  exact h.walkMutable_walksTo hs hroot (by omega)

end Setting

end Walks

/-! ## Walks that only read the context -/

section Immutable

variable {σ : Type} {ctx : Context} {visit : IRNode → σ → Reply β × σ}

/-- The children of a node in a context that no visit changes. -/
def childrenOf (config : WalkConfig) (ctx : Context) (node : IRNode) : List IRNode :=
  kidsOf config (ctx, ()) node

theorem forM_walksTo {walk : IRNode → Check σ β Unit} {ns : List IRNode}
    (hwalk : ∀ c ∈ ns, ∀ s, WalksTo (fun _ => childrenOf config ctx) config visit (walk c) [c] s)
    (s : σ) : WalksTo (fun _ => childrenOf config ctx) config visit (ns.forM walk) ns s := by
  induction ns generalizing s with
  | nil => exact ⟨[], none, s, rfl, Walk.nil s⟩
  | cons c ns ih =>
      rw [List.forM_eq_forM, List.forM_cons]
      refine walksTo_cons (hwalk c List.mem_cons_self s) (fun _ s₁ _ => ?_)
      exact ih (fun c hc => hwalk c (List.mem_cons_of_mem _ hc)) s₁

/-- The immutable walkers walk a tree that stays as it is. -/
theorem walkNode_walksTo (hnest : ctx.WellNested) {fuel d : Nat}
    (hlevel : Level (childrenOf config ctx) d root node) (hfuel : ctx.nodeCount < d + fuel)
    (s : σ) : WalksTo (fun _ => childrenOf config ctx) config visit
      (walkNode ctx config (ofVisit visit) fuel node) [node] s := by
  induction fuel generalizing d node s with
  | zero =>
      have hle : d ≤ ctx.nodeCount := level_le (s := (ctx, ())) hnest hlevel
      omega
  | succ fuel ih =>
      have hchildren : ∀ s, WalksTo (fun _ => childrenOf config ctx) config visit
          ((childrenOf config ctx node).forM (walkNode ctx config (ofVisit visit) fuel))
          (childrenOf config ctx node) s := by
        refine forM_walksTo (fun c hc s => ?_)
        have hlevelc : Level (childrenOf config ctx) (d + 1) root c := ⟨node, hlevel, hc⟩
        exact ih hlevelc (by omega) s
      exact walksTo_node (fun s₁ _ _ => hchildren s₁) (fun _ => hchildren s)

end Immutable

end Walkers

end Pliron
