/-
  Pliron.Graph.LoopFinishSpec

  What follows the search for the loops.

  No phase changes a header or a parent link.  Climbing the links from a block
  visits just the loops that contain the block, which gives the inclusive block
  sets and the depths.
-/

import Pliron.Graph.LoopTreeSpec

namespace Pliron

open Pliron.Lib Traversals Dominance

variable {α : Type} [DecidableEq α]

namespace LoopTree

variable {g : ControlFlowGraph α} {r u v h : α} {t : DomTree α}

/-! ## Sorting -/

omit [DecidableEq α] in
theorem sortByPosition_spec {β : Type} (position : β → Option Nat) {l : List β}
    (h : ∀ b ∈ l, (position b).isSome) :
    ∃ l', sortByPosition position l = some l' ∧ l'.Perm l := by
  obtain ⟨keyed, hk, hall⟩ := mapM_forall₂ (f := fun b => do some ((← position b), b))
    (R := fun b kb => kb.2 = b) (l := l) (fun b hb => by
      obtain ⟨i, hi⟩ := Option.isSome_iff_exists.mp (h b hb)
      exact ⟨(i, b), by rw [hi]; rfl, rfl⟩)
  have hmap : keyed.map Prod.snd = l := by
    rw [map_eq_of_forall₂ (f := id) hall, List.map_id]
  refine ⟨(keyed.insertionSort (fun x y => x.1 ≤ y.1)).map Prod.snd, ?_, ?_⟩
  · rw [sortByPosition, hk]
    rfl
  · exact hmap ▸ (List.perm_insertionSort _ keyed).map Prod.snd

/-! ## What the last phases leave alone -/

omit [DecidableEq α] in
/-- A field that an update keeps is the same in the whole list. -/
theorem map_set_of_eq {β γ : Type} {l : List β} {i : Nat} {b b' : β} {f : β → γ}
    (hi : l[i]? = some b) (hf : f b' = f b) : (l.set i b').map f = l.map f := by
  refine List.ext_getElem? (fun j => ?_)
  rw [List.getElem?_map, List.getElem?_map]
  by_cases hij : i = j
  · subst hij
    rw [List.getElem?_set_self (List.getElem?_eq_some_iff.mp hi).1, hi, Option.map_some,
      Option.map_some, hf]
  · rw [List.getElem?_set_ne hij]

/-- Two trees with the same headers and parent links. -/
structure SameLinks (tree tree' : LoopTree α) : Prop where
  blockParent : tree'.blockParent = tree.blockParent
  headers : tree'.loops.map Loop.header = tree.loops.map Loop.header
  parents : tree'.loops.map Loop.parent = tree.loops.map Loop.parent

namespace SameLinks

variable {tree tree' tree'' : LoopTree α} {i : Nat} {l l' : Loop α}

omit [DecidableEq α] in
theorem refl (tree : LoopTree α) : SameLinks tree tree := ⟨rfl, rfl, rfl⟩

omit [DecidableEq α] in
theorem symm (h : SameLinks tree tree') : SameLinks tree' tree :=
  ⟨h.blockParent.symm, h.headers.symm, h.parents.symm⟩

omit [DecidableEq α] in
theorem trans (h : SameLinks tree tree') (h' : SameLinks tree' tree'') : SameLinks tree tree'' :=
  ⟨h'.blockParent.trans h.blockParent, h'.headers.trans h.headers, h'.parents.trans h.parents⟩

omit [DecidableEq α] in
theorem length (h : SameLinks tree tree') : tree'.loops.length = tree.loops.length := by
  have hlen := congrArg List.length h.headers
  rwa [List.length_map, List.length_map] at hlen

omit [DecidableEq α] in
theorem get (h : SameLinks tree tree') (hi : tree'.loops[i]? = some l') :
    ∃ l, tree.loops[i]? = some l ∧ l.header = l'.header ∧ l.parent = l'.parent := by
  have hheader := congrArg (fun hs => hs[i]?) h.headers
  have hparent := congrArg (fun ps => ps[i]?) h.parents
  simp only [List.getElem?_map, hi, Option.map_some] at hheader hparent
  obtain ⟨l, hl, heq⟩ := Option.map_eq_some_iff.mp hheader.symm
  rw [hl, Option.map_some, Option.some.injEq] at hparent
  exact ⟨l, hl, heq, hparent.symm⟩

omit [DecidableEq α] in
theorem mem (h : SameLinks tree tree') (hl : l' ∈ tree'.loops) :
    ∃ l ∈ tree.loops, l.header = l'.header ∧ l.parent = l'.parent := by
  obtain ⟨i, hi⟩ := List.mem_iff_getElem?.mp hl
  obtain ⟨l, hl, heq⟩ := h.get hi
  exact ⟨l, List.mem_of_getElem? hl, heq⟩

omit [DecidableEq α] in
/-- Replacing a loop by one with the same header and parent. -/
theorem set (hi : tree.loops[i]? = some l) (hheader : l'.header = l.header)
    (hparent : l'.parent = l.parent) (hloops : tree'.loops = tree.loops.set i l')
    (hblock : tree'.blockParent = tree.blockParent) : SameLinks tree tree' := by
  exact ⟨hblock, hloops ▸ map_set_of_eq hi hheader, hloops ▸ map_set_of_eq hi hparent⟩

omit [DecidableEq α] in
theorem nested (h : SameLinks tree tree') (hn : Nested g r tree) : Nested g r tree' := by
  refine ⟨h.headers ▸ hn.headers_nodup, fun l' hl' => ?_, fun u i hu => ?_, fun u hu l' hl' => ?_,
    fun i l' k hi hk => ?_, fun l' hl' hnone m' hm' hin => ?_⟩
  · obtain ⟨l, hl, heq, _⟩ := h.mem hl'
    exact heq ▸ hn.isHeader l hl
  · rw [h.blockParent] at hu
    obtain ⟨l, hl, hin, hmin⟩ := hn.block_some u i hu
    obtain ⟨l', hl', heq, _⟩ := h.symm.get hl
    refine ⟨l', hl', heq ▸ hin, fun m' hm' hmu => ?_⟩
    obtain ⟨m, hm, hmeq, _⟩ := h.mem hm'
    rw [← hmeq] at hmu ⊢
    exact heq ▸ hmin m hm hmu
  · rw [h.blockParent] at hu
    obtain ⟨l, hl, heq, _⟩ := h.mem hl'
    exact heq ▸ hn.block_none u hu l hl
  · obtain ⟨l, hl, heq, hpar⟩ := h.get hi
    obtain ⟨hlt, lk, hlk, hin, hmin⟩ := hn.parent_some i l k hl (hpar.trans hk)
    obtain ⟨lk', hlk', hkeq, _⟩ := h.symm.get hlk
    refine ⟨hlt, lk', hlk', by rw [hkeq, ← heq]; exact hin, fun m' hm' hne hin' => ?_⟩
    obtain ⟨m, hm, hmeq, _⟩ := h.mem hm'
    rw [← hmeq, ← heq] at hne hin'
    rw [← hmeq, hkeq]
    exact hmin m hm hne hin'
  · obtain ⟨l, hl, heq, hpar⟩ := h.mem hl'
    obtain ⟨m, hm, hmeq, _⟩ := h.mem hm'
    rw [← hmeq, ← heq] at hin ⊢
    exact hn.parent_none l hl (hpar.trans hnone) m hm hin

end SameLinks

/-! ## Block sets -/

/-- What placing some blocks does. -/
structure Placed (g : ControlFlowGraph α) (r : α) (us : List α) (tree tree' : LoopTree α) :
    Prop where
  links : SameLinks tree tree'
  loopOrder : tree'.loopOrder = tree.loopOrder
  rootContents : ∀ n ∈ tree'.rootContents, n ∈ tree.rootContents ∨ ∃ u ∈ us, n = .block u
  loops : ∀ (i : Nat) l', tree'.loops[i]? = some l' → ∃ l, tree.loops[i]? = some l ∧
    l'.header = l.header ∧ l'.latches = l.latches ∧
    ∀ x, x ∈ l'.blocks ↔ x ∈ l.blocks ∨ (x ∈ us ∧ InLoop g.Edge r l.header x)

section Place

variable {tree : LoopTree α}

/-- A block is added to a loop and to the loops around it. -/
theorem addBlock_spec (node : α) (fuel : Nat) : ∀ (i : Nat) (l : Loop α) (tree : LoopTree α),
    Nested g r tree → tree.loops[i]? = some l → tree.loops.length ≤ fuel + i →
    ∃ tree', addBlock node fuel (some i) tree = some tree' ∧ SameLinks tree tree' ∧
      tree'.loopOrder = tree.loopOrder ∧ tree'.rootContents = tree.rootContents ∧
      ∀ (j : Nat) m', tree'.loops[j]? = some m' → ∃ m, tree.loops[j]? = some m ∧
        m'.header = m.header ∧ m'.latches = m.latches ∧
        ∀ x, x ∈ m'.blocks ↔
          x ∈ m.blocks ∨ (x = node ∧ InLoop g.Edge r m.header l.header) := by
  induction fuel with
  | zero =>
      intro i l tree _ hi hlen
      have hlt := (List.getElem?_eq_some_iff.mp hi).1
      omega
  | succ fuel ih =>
      intro i l tree hn hi hlen
      -- the loop itself gets the node, unless it has it
      set blocks := if node ∈ l.blocks then l.blocks else l.blocks ++ [node] with hblocks
      have hmem : ∀ x, x ∈ blocks ↔ x ∈ l.blocks ∨ x = node := by
        intro x
        rw [hblocks]
        split
        · next hnode =>
            refine ⟨Or.inl, ?_⟩
            rintro (hx | rfl)
            · exact hx
            · exact hnode
        · rw [List.mem_append, List.mem_singleton]
      have hself : InLoop g.Edge r l.header l.header :=
        InLoop.self (hn.isHeader l (List.mem_of_getElem? hi))
      set tree₁ : LoopTree α := { tree with loops := tree.loops.set i { l with blocks := blocks } }
        with htree₁
      have hlinks : SameLinks tree tree₁ := SameLinks.set hi (by rfl) (by rfl) rfl rfl
      have hilt := (List.getElem?_eq_some_iff.mp hi).1
      have hi₁ : tree₁.loops[i]? = some { l with blocks := blocks } :=
        List.getElem?_set_self hilt
      have hne₁ : ∀ {j}, i ≠ j → tree₁.loops[j]? = tree.loops[j]? := fun hij =>
        List.getElem?_set_ne hij
      have hstep : addBlock node (fuel + 1) (some i) tree = addBlock node fuel l.parent tree₁ := by
        simp only [addBlock, hi, Option.bind_eq_bind, Option.bind_some]
        rfl
      rw [hstep]
      cases hp : l.parent with
      | none =>
          refine ⟨tree₁, by cases fuel <;> rfl, hlinks, rfl, rfl, fun j m' hj => ?_⟩
          -- a loop without a parent is around no other header
          by_cases hij : i = j
          · subst hij
            obtain rfl := Option.some.inj (hi₁.symm.trans hj)
            refine ⟨l, hi, rfl, rfl, fun x => ?_⟩
            rw [hmem]
            simp [hself]
          · rw [hne₁ hij] at hj
            refine ⟨m', hj, rfl, rfl, fun x => ⟨Or.inl, ?_⟩⟩
            rintro (hx | ⟨_, hin⟩)
            · exact hx
            · have heq := hn.parent_none l (List.mem_of_getElem? hi) hp m'
                (List.mem_of_getElem? hj) hin
              exact absurd (hn.eq_of_header_eq hi hj heq.symm) hij
      | some k =>
          obtain ⟨hlt, lk, hlk, hin, hmin⟩ := hn.parent_some i l k hi hp
          have hlk₁ : tree₁.loops[k]? = some lk := (hne₁ (by omega)).trans hlk
          obtain ⟨tree', hadd, hlinks', horder, hroot, hloops⟩ := ih k lk tree₁
            (hlinks.nested hn) hlk₁ (by rw [hlinks.length]; omega)
          refine ⟨tree', hadd, hlinks.trans hlinks', horder, hroot, fun j m' hj => ?_⟩
          obtain ⟨m, hm, hheader, hlatches, hx⟩ := hloops j m' hj
          by_cases hij : i = j
          · subst hij
            obtain rfl := Option.some.inj (hi₁.symm.trans hm)
            refine ⟨l, hi, hheader, hlatches, fun x => ?_⟩
            rw [hx, hmem]
            simp only [hself, and_true]
            constructor
            · rintro (hx | ⟨rfl, _⟩)
              · exact hx
              · exact Or.inr rfl
            · exact Or.inl
          · rw [hne₁ hij] at hm
            refine ⟨m, hm, hheader, hlatches, fun x => ?_⟩
            rw [hx]
            -- what is around the parent is around the loop, but for the loop itself
            have hiff : InLoop g.Edge r m.header lk.header ↔ InLoop g.Edge r m.header l.header := by
              refine ⟨fun hmk => hmk.trans hin, hmin m (List.mem_of_getElem? hm) ?_⟩
              intro heq
              exact hij (hn.eq_of_header_eq hi hm heq.symm)
            rw [hiff]

theorem placeBlock_spec (hn : Nested g r tree) (u : α) :
    ∃ tree', placeBlock tree u = some tree' ∧ Placed g r [u] tree tree' := by
  cases hu : tree.blockParent u with
  | none =>
      refine ⟨{ tree with rootContents := tree.rootContents ++ [.block u] }, ?_, ?_⟩
      · simp only [placeBlock, blockLoopParent, hu]
        cases tree.loops.length <;> rfl
      · refine ⟨⟨rfl, rfl, rfl⟩, rfl, fun n hn => ?_, fun i l hl => ⟨l, hl, rfl, rfl, fun x => ?_⟩⟩
        · exact (List.mem_append.mp hn).imp id
            (fun hn => ⟨u, List.mem_singleton_self u, List.mem_singleton.mp hn⟩)
        · refine ⟨Or.inl, ?_⟩
          rintro (hx | ⟨hxu, hin⟩)
          · exact hx
          · rw [List.mem_singleton.mp hxu] at hin
            exact absurd hin (hn.block_none u hu l (List.mem_of_getElem? hl))
  | some i =>
      obtain ⟨l, hi, hin, hmin⟩ := hn.block_some u i hu
      obtain ⟨tree', hadd, hlinks, horder, hroot, hloops⟩ := addBlock_spec u tree.loops.length i l
        { tree with rootContents := tree.rootContents }
        (SameLinks.nested ⟨rfl, rfl, rfl⟩ hn) hi (Nat.le_add_right _ _)
      refine ⟨tree', ?_, hlinks, horder, fun n hn => Or.inl (hroot ▸ hn), fun j m' hj => ?_⟩
      · simp only [placeBlock, blockLoopParent, hu]
        exact hadd
      · obtain ⟨m, hm, hheader, hlatches, hx⟩ := hloops j m' hj
        refine ⟨m, hm, hheader, hlatches, fun x => ?_⟩
        have hiff : InLoop g.Edge r m.header l.header ↔ InLoop g.Edge r m.header u :=
          ⟨fun hml => hml.trans hin, hmin m (List.mem_of_getElem? hm)⟩
        rw [hx, hiff, List.mem_singleton]
        refine or_congr_right ⟨?_, ?_⟩
        · rintro ⟨rfl, hmu⟩
          exact ⟨rfl, hmu⟩
        · rintro ⟨rfl, hmu⟩
          exact ⟨rfl, hmu⟩

theorem placeBlocks_spec (us : List α) (hn : Nested g r tree) :
    ∃ tree', us.foldlM placeBlock tree = some tree' ∧ Placed g r us tree tree' := by
  induction us generalizing tree with
  | nil =>
      refine ⟨tree, rfl, SameLinks.refl tree, rfl, fun n hn => Or.inl hn,
        fun i l hl => ⟨l, hl, rfl, rfl, fun x => by simp⟩⟩
  | cons u us ih =>
      obtain ⟨tree₁, hstep, hp₁⟩ := placeBlock_spec hn u
      obtain ⟨tree₂, hfold, hp₂⟩ := ih (hp₁.links.nested hn)
      refine ⟨tree₂, by rw [List.foldlM_cons, hstep]; exact hfold, hp₁.links.trans hp₂.links,
        hp₂.loopOrder.trans hp₁.loopOrder, fun n hn => ?_, fun i l₂ hl₂ => ?_⟩
      · rcases hp₂.rootContents n hn with hn | ⟨v, hv, rfl⟩
        · refine (hp₁.rootContents n hn).imp id ?_
          rintro ⟨v, hv, rfl⟩
          exact ⟨v, List.mem_cons.mpr (Or.inl (List.mem_singleton.mp hv)), rfl⟩
        · exact Or.inr ⟨v, List.mem_cons_of_mem _ hv, rfl⟩
      · obtain ⟨l₁, hl₁, hheader₂, hlatches₂, hx₂⟩ := hp₂.loops i l₂ hl₂
        obtain ⟨l, hl, hheader₁, hlatches₁, hx₁⟩ := hp₁.loops i l₁ hl₁
        refine ⟨l, hl, hheader₂.trans hheader₁, hlatches₂.trans hlatches₁, fun x => ?_⟩
        rw [hx₂, hx₁, hheader₁, List.mem_singleton, List.mem_cons, or_assoc, ← or_and_right]

end Place

/-! ## Depths -/

/-- The block sets are the loops. -/
def BlocksAreLoops (g : ControlFlowGraph α) (r : α) (tree : LoopTree α) : Prop :=
  ∀ l ∈ tree.loops, ∀ x, x ∈ l.blocks ↔ InLoop g.Edge r l.header x

/-- The number of loops that contain a block. -/
def numContaining (tree : LoopTree α) (x : α) : Nat :=
  tree.loops.countP (fun l => x ∈ l.blocks)

section Depths

variable {tree : LoopTree α} {i : Nat} {l : Loop α}

/-- The loops that contain the header of a loop are the loop and those that contain the
    header of its parent. -/
theorem numContaining_header (hn : Nested g r tree) (hb : BlocksAreLoops g r tree)
    (hi : tree.loops[i]? = some l) :
    (l.parent = none → tree.numContaining l.header = 1) ∧
    ∀ k lk, l.parent = some k → tree.loops[k]? = some lk →
      tree.numContaining l.header = 1 + tree.numContaining lk.header := by
  have hl := List.mem_of_getElem? hi
  have hself : InLoop g.Edge r l.header l.header := InLoop.self (hn.isHeader l hl)
  have hone : tree.loops.countP (fun l' => l'.header = l.header) = 1 := by
    have hcount := List.count_eq_one_of_mem hn.headers_nodup (List.mem_map_of_mem hl)
    rw [List.count_eq_countP, List.countP_map] at hcount
    rw [← hcount]
    exact List.countP_congr (fun l' _ => by simp)
  constructor
  · intro hp
    rw [numContaining, ← hone]
    refine List.countP_congr (fun l' hl' => ?_)
    rw [decide_eq_true_iff, decide_eq_true_iff, hb l' hl']
    exact ⟨hn.parent_none l hl hp l' hl', fun heq => heq ▸ hself⟩
  · intro k lk hp hk
    obtain ⟨hlt, lk', hk', hin, hmin⟩ := hn.parent_some i l k hi hp
    obtain rfl := Option.some.inj (hk.symm.trans hk')
    rw [numContaining, numContaining, ← hone, ← countP_or_of_disjoint]
    · refine List.countP_congr (fun l' hl' => ?_)
      rw [Bool.or_eq_true, decide_eq_true_iff, decide_eq_true_iff, decide_eq_true_iff, hb l' hl',
        hb l' hl']
      constructor
      · intro hin'
        by_cases heq : l'.header = l.header
        · exact Or.inl heq
        · exact Or.inr (hmin l' hl' heq hin')
      · rintro (heq | hin')
        · exact heq ▸ hself
        · exact hin'.trans hin
    · rintro l' hl' ⟨heq, hin'⟩
      rw [decide_eq_true_iff] at heq hin'
      rw [hb l' hl', heq] at hin'
      exact absurd (hn.eq_of_header_eq hi hk (hin'.antisymm hin)) (Nat.ne_of_lt hlt)

theorem countEnclosing_spec (hn : Nested g r tree) (hb : BlocksAreLoops g r tree) (fuel : Nat) :
    ∀ (i : Nat) l d, tree.loops[i]? = some l → tree.loops.length ≤ fuel + i →
      tree.countEnclosing fuel (some i) d = some (d + tree.numContaining l.header) := by
  induction fuel with
  | zero =>
      intro i l d hi hlen
      have hlt := (List.getElem?_eq_some_iff.mp hi).1
      omega
  | succ fuel ih =>
      intro i l d hi hlen
      obtain ⟨hnone, hsome⟩ := numContaining_header hn hb hi
      simp only [countEnclosing, hi, Option.bind_eq_bind, Option.bind_some]
      cases hp : l.parent with
      | none =>
          rw [hnone hp]
          cases fuel <;> rfl
      | some k =>
          obtain ⟨hlt, lk, hk, _⟩ := hn.parent_some i l k hi hp
          rw [ih k lk (d + 1) hk (by omega), hsome k lk hp hk]
          congr 1
          omega

/-- What computing the depths of some loops does. -/
structure Deepened (ids : List LoopId) (tree tree' : LoopTree α) : Prop where
  links : SameLinks tree tree'
  rootContents : ∀ n ∈ tree'.rootContents, n ∈ tree.rootContents ∨ ∃ i ∈ ids, n = .loop i
  loops : ∀ (i : Nat) l', tree'.loops[i]? = some l' → ∃ l, tree.loops[i]? = some l ∧
    l'.header = l.header ∧ l'.latches = l.latches ∧ l'.blocks = l.blocks ∧
    l'.depth = if i ∈ ids then tree.numContaining l.header else l.depth
  numContaining : ∀ x, tree'.numContaining x = tree.numContaining x

theorem placeLoop_spec (hn : Nested g r tree) (hb : BlocksAreLoops g r tree)
    (hi : tree.loops[i]? = some l) :
    ∃ tree', placeLoop tree i = some tree' ∧ Deepened [i] tree tree' := by
  have hdepth : tree.countEnclosing tree.loops.length l.parent 1 =
      some (tree.numContaining l.header) := by
    obtain ⟨hnone, hsome⟩ := numContaining_header hn hb hi
    cases hp : l.parent with
    | none =>
        rw [hnone hp]
        cases tree.loops.length <;> rfl
    | some k =>
        obtain ⟨_, lk, hk, _⟩ := hn.parent_some i l k hi hp
        rw [countEnclosing_spec hn hb _ k lk 1 hk (Nat.le_add_right _ _), hsome k lk hp hk]
  refine ⟨{ tree with
      rootContents := if l.parent.isNone then tree.rootContents ++ [.loop i]
        else tree.rootContents
      loops := tree.loops.set i { l with depth := tree.numContaining l.header } }, ?_,
    SameLinks.set hi (by rfl) (by rfl) rfl rfl, fun n hroot => ?_, fun j l' hj => ?_, fun x => ?_⟩
  · simp only [placeLoop, hi, hdepth, Option.bind_eq_bind, Option.bind_some]
  · have hroot : n ∈ (if l.parent.isNone then tree.rootContents ++ [.loop i]
        else tree.rootContents) := hroot
    split at hroot
    · exact (List.mem_append.mp hroot).imp id
        (fun hn => ⟨i, List.mem_singleton_self i, List.mem_singleton.mp hn⟩)
    · exact Or.inl hroot
  · have hj : (tree.loops.set i { l with depth := tree.numContaining l.header })[j]? = some l' := hj
    by_cases hij : i = j
    · subst hij
      rw [List.getElem?_set_self (List.getElem?_eq_some_iff.mp hi).1] at hj
      obtain rfl := Option.some.inj hj
      exact ⟨l, hi, rfl, rfl, rfl, by simp⟩
    · rw [List.getElem?_set_ne hij] at hj
      exact ⟨l', hj, rfl, rfl, rfl, by simp [Ne.symm hij]⟩
  · have hblocks : (tree.loops.set i { l with depth := tree.numContaining l.header }).map
        Loop.blocks = tree.loops.map Loop.blocks := map_set_of_eq hi rfl
    have hcount := congrArg (List.countP (fun bs => decide (x ∈ bs))) hblocks
    rw [List.countP_map, List.countP_map] at hcount
    exact hcount

theorem Deepened.blocksAreLoops {ids : List LoopId} {tree' : LoopTree α}
    (h : Deepened ids tree tree') (hb : BlocksAreLoops g r tree) : BlocksAreLoops g r tree' := by
  intro l' hl'
  obtain ⟨i, hi⟩ := List.mem_iff_getElem?.mp hl'
  obtain ⟨l, hl, hheader, _, hblocks, _⟩ := h.loops i l' hi
  rw [hheader, hblocks]
  exact hb l (List.mem_of_getElem? hl)

theorem placeLoops_spec (ids : List LoopId) (hn : Nested g r tree) (hb : BlocksAreLoops g r tree)
    (hids : ∀ i ∈ ids, i < tree.loops.length) :
    ∃ tree', ids.foldlM placeLoop tree = some tree' ∧ Deepened ids tree tree' := by
  induction ids generalizing tree with
  | nil =>
      exact ⟨tree, rfl, SameLinks.refl tree, fun n hn => Or.inl hn,
        fun i l hl => ⟨l, hl, rfl, rfl, rfl, by simp⟩, fun _ => rfl⟩
  | cons i ids ih =>
      obtain ⟨tree₁, hstep, hp₁⟩ := placeLoop_spec hn hb
        (List.getElem?_eq_getElem (hids i List.mem_cons_self))
      obtain ⟨tree₂, hfold, hp₂⟩ := ih (hp₁.links.nested hn) (hp₁.blocksAreLoops hb)
        (fun j hj => hp₁.links.length ▸ hids j (List.mem_cons_of_mem _ hj))
      refine ⟨tree₂, by rw [List.foldlM_cons, hstep]; exact hfold, hp₁.links.trans hp₂.links,
        fun n hn => ?_, fun j l₂ hl₂ => ?_,
        fun x => (hp₂.numContaining x).trans (hp₁.numContaining x)⟩
      · rcases hp₂.rootContents n hn with hn | ⟨j, hj, rfl⟩
        · refine (hp₁.rootContents n hn).imp id ?_
          rintro ⟨j, hj, rfl⟩
          exact ⟨j, List.mem_cons.mpr (Or.inl (List.mem_singleton.mp hj)), rfl⟩
        · exact Or.inr ⟨j, List.mem_cons_of_mem _ hj, rfl⟩
      · obtain ⟨l₁, hl₁, hheader₂, hlatches₂, hblocks₂, hdepth₂⟩ := hp₂.loops j l₂ hl₂
        obtain ⟨l, hl, hheader₁, hlatches₁, hblocks₁, hdepth₁⟩ := hp₁.loops j l₁ hl₁
        refine ⟨l, hl, hheader₂.trans hheader₁, hlatches₂.trans hlatches₁,
          hblocks₂.trans hblocks₁, ?_⟩
        rw [hdepth₂, hdepth₁, hp₁.numContaining, hheader₁]
        by_cases hji : j = i <;> by_cases hjs : j ∈ ids <;> simp [hji, hjs]

end Depths

/-! ## The finished tree -/

/-- The loop tree of `g`, whose loops are the natural loops. -/
structure IsLoopTree (g : ControlFlowGraph α) (r : α) (tree : LoopTree α) : Prop
    extends Nested g r tree where
  mem_headers : ∀ h, h ∈ tree.loops.map Loop.header ↔ IsHeader g.Edge r h
  latches : ∀ l ∈ tree.loops, l.latches.Nodup ∧
    ∀ x, x ∈ l.latches ↔ Latch g.Edge r l.header x
  blocks : BlocksAreLoops g r tree
  depth : ∀ l ∈ tree.loops, l.depth = tree.numContaining l.header

section Finish

variable {tree : LoopTree α}

/-- All units have a position in reverse post-order. -/
theorem childPosition_isSome (hg : g.Valid) (hr : r ∈ g.nodes) (hn : Nested g r tree)
    {n : LoopTreeNode α} (h : IsNode g r tree.loops.length n) :
    (tree.childPosition (rpo g r) n).isSome := by
  cases n with
  | block b =>
      rw [childPosition, List.isSome_idxOf?]
      exact (mem_rpo hg hr).mpr h
  | loop k =>
      have hk := List.getElem?_eq_getElem (l := tree.loops) h
      have hreach := (InLoop.self (hn.isHeader _ (List.getElem_mem h))).reach
      simp only [childPosition, hk, Option.bind_eq_bind, Option.bind_some]
      rw [List.isSome_idxOf?]
      exact (mem_rpo hg hr).mpr hreach

/-- Sorting the children and latches keeps everything else. -/
theorem sortLoops_spec (hg : g.Valid) (hr : r ∈ g.nodes) {done : List α}
    (hb : Built g r done tree) :
    ∃ loops, tree.loops.mapM (tree.sortLoop (rpo g r)) = some loops ∧
      List.Forall₂ (fun l l' => l'.header = l.header ∧ l'.parent = l.parent ∧
        l'.blocks = l.blocks ∧ l'.latches.Perm l.latches) tree.loops loops := by
  refine mapM_forall₂ (fun l hl => ?_)
  obtain ⟨contents, hcontents, _⟩ := sortByPosition_spec
    (tree.childPosition (rpo g r)) (l := l.contents)
    (fun n hn => childPosition_isSome hg hr hb.toNested (hb.contents l hl n hn))
  obtain ⟨latches, hlatches, hperm⟩ := sortByPosition_spec
    (fun node => (rpo g r).idxOf? node) (l := l.latches) (fun x hx => by
      rw [List.isSome_idxOf?]
      exact (mem_rpo hg hr).mpr (((hb.latches l hl).2 x).mp hx).reach)
  refine ⟨{ l with contents := contents, latches := latches }, ?_, rfl, rfl, rfl, hperm⟩
  simp only [sortLoop, hcontents, hlatches, Option.bind_eq_bind, Option.bind_some]

theorem finish_spec (hg : g.Valid) (hr : r ∈ g.nodes)
    (hb : Built g r (search g r).closed tree) :
    ∃ tree', tree.finish (rpo g r) = some tree' ∧ IsLoopTree g r tree' := by
  -- whatever is placed has a position: its header or block is reachable
  have hpos := fun {tree' : LoopTree α} (hs : SameLinks tree tree') {n : LoopTreeNode α}
      (hnode : IsNode g r tree'.loops.length n) =>
    childPosition_isSome hg hr (hs.nested hb.toNested) hnode
  obtain ⟨positions, hpositions, hall⟩ := mapM_forall₂ (R := fun _ _ => True) (l := tree.loops)
    (f := fun l => (rpo g r).idxOf? l.header) (fun l hl => by
      have hsome : ((rpo g r).idxOf? l.header).isSome := by
        rw [List.isSome_idxOf?]
        exact (mem_rpo hg hr).mpr (InLoop.self (hb.isHeader l hl)).reach
      obtain ⟨i, hi⟩ := Option.isSome_iff_exists.mp hsome
      exact ⟨i, hi, trivial⟩)
  -- the loops in reverse post-order of their headers, and the latches of each sorted
  obtain ⟨loopOrder, horder, hperm⟩ := sortByPosition_spec (fun (i : Nat) => positions[i]?)
    (l := List.range tree.loops.length) (fun i hi => by
      rw [List.mem_range, hall.length_eq] at hi
      rw [List.getElem?_eq_getElem hi]
      rfl)
  obtain ⟨loops, hloops, hsorted⟩ := sortLoops_spec hg hr hb
  set tree₁ : LoopTree α := { tree with loopOrder := loopOrder, loops := loops } with htree₁
  have hlinks₁ : SameLinks tree tree₁ :=
    ⟨rfl, map_eq_of_forall₂ (hsorted.imp (fun _ _ h => h.1)),
      map_eq_of_forall₂ (hsorted.imp (fun _ _ h => h.2.1))⟩
  obtain ⟨tree₂, hplace, hp₂⟩ := placeBlocks_spec (rpo g r) (hlinks₁.nested hb.toNested)
  have hlinks₂ := hlinks₁.trans hp₂.links
  -- every reachable node was placed, so the block sets are complete
  have hblocks₂ : BlocksAreLoops g r tree₂ := by
    intro l₂ hl₂ x
    obtain ⟨i, hi⟩ := List.mem_iff_getElem?.mp hl₂
    obtain ⟨l₁, hl₁, hheader, _, hx⟩ := hp₂.loops i l₂ hi
    obtain ⟨l, hl, hrel⟩ := getElem?_of_forall₂ hsorted hl₁
    have hmem := List.mem_of_getElem? hl
    rw [hx, hrel.2.2.1, hb.blocks l hmem, hheader, hrel.1, List.mem_singleton]
    constructor
    · rintro (rfl | ⟨_, hin⟩)
      · exact InLoop.self (hb.isHeader l hmem)
      · exact hin
    · exact fun hin => Or.inr ⟨(mem_rpo hg hr).mpr hin.reach, hin⟩
  have horder₂ : tree₂.loopOrder = loopOrder := hp₂.loopOrder
  have hlt₂ : ∀ i ∈ tree₂.loopOrder, i < tree₂.loops.length := by
    intro i hi
    rw [hlinks₂.length]
    exact List.mem_range.mp (hperm.mem_iff.mp (horder₂ ▸ hi))
  -- the loops themselves, outermost first, so that each finds the depth of its parent
  obtain ⟨tree₃, hdeepen, hp₃⟩ := placeLoops_spec tree₂.loopOrder (hlinks₂.nested hb.toNested)
    hblocks₂ hlt₂
  have hlinks₃ := hlinks₂.trans hp₃.links
  have hroot : ∀ n ∈ tree₃.rootContents, IsNode g r tree₃.loops.length n := by
    intro n hn
    rw [hp₃.links.length]
    rcases hp₃.rootContents n hn with hn | ⟨i, hi, rfl⟩
    · rcases hp₂.rootContents n hn with hn | ⟨u, hu, rfl⟩
      · have hnil : tree.rootContents = [] := hb.rootContents
        exact absurd (hnil ▸ hn) List.not_mem_nil
      · exact (mem_rpo hg hr).mp hu
    · exact hlt₂ i hi
  obtain ⟨rootContents, hcontents, _⟩ := sortByPosition_spec
    (tree₃.childPosition (rpo g r)) (fun n hn => hpos hlinks₃ (hroot n hn))
  have hlinks₄ : SameLinks tree { tree₃ with rootContents := rootContents } :=
    hlinks₃.trans ⟨rfl, rfl, rfl⟩
  refine ⟨{ tree₃ with rootContents := rootContents }, ?_, hlinks₄.nested hb.toNested,
    fun h => ?_, fun l₃ hl₃ => ?_, hp₃.blocksAreLoops hblocks₂, fun l₃ hl₃ => ?_⟩
  · simp only [finish, hpositions, horder, hloops, Option.bind_eq_bind, Option.bind_some]
    rw [← htree₁, hplace]
    simp only [Option.bind_some, hdeepen, hcontents]
  · rw [hlinks₄.headers, hb.mem_headers]
    exact ⟨And.right, fun hh => ⟨(mem_search_closed hg.closed hr).mpr (InLoop.self hh).reach, hh⟩⟩
  · obtain ⟨i, hi⟩ := List.mem_iff_getElem?.mp hl₃
    obtain ⟨l₂, hl₂, hheader₃, hlatches₃, _⟩ := hp₃.loops i l₃ hi
    obtain ⟨l₁, hl₁, hheader₂, hlatches₂, _⟩ := hp₂.loops i l₂ hl₂
    obtain ⟨l, hl, hheader₁, _, _, hperm₁⟩ := getElem?_of_forall₂ hsorted hl₁
    obtain ⟨hnodup, hmem⟩ := hb.latches l (List.mem_of_getElem? hl)
    rw [hlatches₃, hlatches₂, hheader₃, hheader₂, hheader₁]
    exact ⟨hperm₁.nodup_iff.mpr hnodup, fun x => hperm₁.mem_iff.trans (hmem x)⟩
  · obtain ⟨i, hi⟩ := List.mem_iff_getElem?.mp hl₃
    obtain ⟨l₂, hl₂, hheader, _, _, hdepth⟩ := hp₃.loops i l₃ hi
    have hmem : i ∈ tree₂.loopOrder := by
      rw [horder₂, hperm.mem_iff, List.mem_range, ← hlinks₂.length]
      exact (List.getElem?_eq_some_iff.mp hl₂).1
    rw [hdepth, if_pos hmem, hheader]
    exact (hp₃.numContaining _).symm

end Finish

end LoopTree

end Pliron
