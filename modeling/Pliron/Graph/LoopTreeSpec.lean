/-
  Pliron.Graph.LoopTreeSpec

  The search for the natural loops.

  `findLoop_spec` adds the loop of one header to the loops found: the units
  collected get the new loop as their parent, and all other links stay.
-/

import Pliron.Graph.LoopBodySpec

namespace Pliron

open Pliron.Lib Traversals

variable {α : Type} [DecidableEq α]

namespace LoopTree

variable {g : ControlFlowGraph α} {r u v h : α} {t : DomTree α}

/-! ## Linking the body of a new loop -/

section Link

variable {tree : LoopTree α} {body : List (LoopTreeNode α)} {id : LoopId}

/-- A loop found before, with its new parent if it is in the body. -/
def relink (body : List (LoopTreeNode α)) (id : LoopId) (i : Nat) (l : Loop α) : Loop α :=
  if .loop i ∈ body then { l with parent := some id } else l

theorem setParent_fold_spec (body : List (LoopTreeNode α)) (id : LoopId) (tree : LoopTree α) :
    (∀ u, (body.foldl (setParent id) tree).blockParent u =
      if .block u ∈ body then some id else tree.blockParent u) ∧
    (∀ i, (body.foldl (setParent id) tree).loops[i]? = (tree.loops[i]?).map (relink body id i)) ∧
    (body.foldl (setParent id) tree).loops.length = tree.loops.length ∧
    (body.foldl (setParent id) tree).rootContents = tree.rootContents := by
  induction body generalizing tree with
  | nil =>
      refine ⟨fun u => by simp, fun i => ?_, rfl, rfl⟩
      have hid : relink [] id i = fun (l : Loop α) => l := by
        funext l
        simp [relink]
      rw [hid, Option.map_id']
      rfl
  | cons n body ih =>
      rw [List.foldl_cons]
      obtain ⟨hblock, hloops, hlen, hroot⟩ := ih (setParent id tree n)
      rcases n with b | k
      · refine ⟨fun u => ?_, fun i => ?_, hlen, hroot⟩
        · rw [hblock]
          by_cases hub : u = b
          · subst hub
            simp [setParent]
          · simp [setParent, HMap.insert_of_ne hub, hub]
        · rw [hloops]
          have hrelink : relink (.block b :: body) id i = relink body id i := by
            funext l
            simp [relink]
          rw [hrelink]
          rfl
      · refine ⟨fun u => ?_, fun i => ?_, ?_, hroot⟩
        · rw [hblock]
          simp [setParent]
        · rw [hloops]
          simp only [setParent, List.getElem?_modify, Option.map_eq_map, Option.map_map]
          refine congrArg (fun f => Option.map f _) (funext (fun l => ?_))
          by_cases hik : k = i
          · subst hik
            by_cases hmem : .loop k ∈ body <;> simp [relink, hmem]
          · simp [relink, hik, Ne.symm hik]
        · rw [hlen]
          simp [setParent]

/-- The tree after a loop with the units of `body` was added. -/
def addLoop (tree : LoopTree α) (body : List (LoopTreeNode α)) (h : α) (latches : List α) :
    LoopTree α :=
  let linked := body.foldl (setParent tree.loops.length) tree
  { linked with
    loops := linked.loops ++ [{
      header := h, parent := none, contents := body, latches := latches,
      blocks := [h], depth := 0 }] }

theorem addLoop_blockParent (latches : List α) (u : α) :
    (addLoop tree body h latches).blockParent u =
      if .block u ∈ body then some tree.loops.length else tree.blockParent u :=
  (setParent_fold_spec body tree.loops.length tree).1 u

theorem addLoop_loops_eq_some (latches : List α) (i : Nat) (l : Loop α) :
    (addLoop tree body h latches).loops[i]? = some l ↔
      (i = tree.loops.length ∧ l = ⟨h, none, body, latches, [h], 0⟩) ∨
      ∃ l₀, tree.loops[i]? = some l₀ ∧ l = relink body tree.loops.length i l₀ := by
  obtain ⟨_, hloops, hlen, _⟩ := setParent_fold_spec body tree.loops.length tree
  simp only [addLoop, List.getElem?_append, hlen]
  by_cases hi : i < tree.loops.length
  · rw [if_pos hi, hloops, Option.map_eq_some_iff]
    constructor
    · rintro ⟨l₀, hl₀, rfl⟩
      exact Or.inr ⟨l₀, hl₀, rfl⟩
    · rintro (⟨rfl, _⟩ | ⟨l₀, hl₀, rfl⟩)
      · exact absurd hi (Nat.lt_irrefl _)
      · exact ⟨l₀, hl₀, rfl⟩
  · rw [if_neg hi]
    have hnone : tree.loops[i]? = none := List.getElem?_eq_none (Nat.le_of_not_lt hi)
    by_cases heq : i = tree.loops.length
    · subst heq
      simp [eq_comm]
    · have hpos : i - tree.loops.length ≠ 0 := by omega
      simp [hnone, heq, hpos]

theorem relink_header (i : Nat) (l : Loop α) : (relink body id i l).header = l.header := by
  unfold relink
  split <;> rfl

theorem addLoop_headers (latches : List α) :
    (addLoop tree body h latches).loops.map Loop.header =
      tree.loops.map Loop.header ++ [h] := by
  obtain ⟨_, hloops, _, _⟩ := setParent_fold_spec body tree.loops.length tree
  simp only [addLoop, List.map_append, List.map_cons, List.map_nil]
  congr 1
  refine List.ext_getElem? (fun i => ?_)
  rw [List.getElem?_map, List.getElem?_map, hloops, Option.map_map]
  refine congrArg (fun f => Option.map f _) (funext (fun l => ?_))
  exact relink_header i l

/-- What the body of the loop of `h` has in it. -/
structure IsBody (g : ControlFlowGraph α) (r h : α) (tree : LoopTree α)
    (body : List (LoopTreeNode α)) : Prop where
  block_iff : ∀ u, .block u ∈ body ↔
    InLoop g.Edge r h u ∧ ∀ l ∈ tree.loops, ¬ InLoop g.Edge r l.header u
  loop_iff : ∀ i, .loop i ∈ body ↔
    ∃ l, tree.loops[i]? = some l ∧ InLoop g.Edge r h l.header ∧ l.parent = none

/-- The links stay right when a loop is added around the loops and blocks inside it. -/
theorem Nested.addLoop (hn : Nested g r tree) (hbody : IsBody g r h tree body)
    (hh : ∀ l ∈ tree.loops, ¬ InLoop g.Edge r l.header h) (hheader : IsHeader g.Edge r h)
    (latches : List α) : Nested g r (addLoop tree body h latches) := by
  have hmem : ∀ l ∈ (LoopTree.addLoop tree body h latches).loops,
      l.header = h ∨ ∃ l₀ ∈ tree.loops, l.header = l₀.header := by
    intro l hl
    obtain ⟨i, hi⟩ := List.mem_iff_getElem?.mp hl
    rcases (addLoop_loops_eq_some latches i l).mp hi with ⟨_, rfl⟩ | ⟨l₀, hl₀, rfl⟩
    · exact Or.inl rfl
    · exact Or.inr ⟨l₀, List.mem_of_getElem? hl₀, relink_header i l₀⟩
  have hnew : (LoopTree.addLoop tree body h latches).loops[tree.loops.length]? =
      some ⟨h, none, body, latches, [h], 0⟩ :=
    (addLoop_loops_eq_some latches _ _).mpr (Or.inl ⟨rfl, rfl⟩)
  have hold : ∀ {i : Nat} {l₀ : Loop α}, tree.loops[i]? = some l₀ →
      (LoopTree.addLoop tree body h latches).loops[i]? =
        some (relink body tree.loops.length i l₀) := fun hl₀ =>
    (addLoop_loops_eq_some latches _ _).mpr (Or.inr ⟨_, hl₀, rfl⟩)
  have hself : InLoop g.Edge r h h := InLoop.self hheader
  -- a loop around something inside `h` is inside `h` too
  have hinside : ∀ {l₀ u}, l₀ ∈ tree.loops → InLoop g.Edge r h u → InLoop g.Edge r l₀.header u →
      InLoop g.Edge r h l₀.header := fun hl₀ hu hlu =>
    (hu.comparable hlu).resolve_right (hh _ hl₀)
  refine ⟨?_, ?_, ?_, ?_, ?_, ?_⟩
  · rw [addLoop_headers, List.nodup_append]
    refine ⟨hn.headers_nodup, List.nodup_singleton h, fun a ha b hb heq => ?_⟩
    obtain ⟨l, hl, rfl⟩ := List.mem_map.mp ha
    rw [List.mem_singleton.mp hb] at heq
    exact hh l hl (heq ▸ InLoop.self (hn.isHeader l hl))
  · intro l hl
    rcases hmem l hl with heq | ⟨l₀, hl₀, heq⟩
    · exact heq ▸ hheader
    · exact heq ▸ hn.isHeader l₀ hl₀
  · intro u i hu
    -- a block of the new body is in the new loop and in no older one
    rw [addLoop_blockParent] at hu
    split at hu
    · next hub =>
        obtain ⟨hin, hout⟩ := (hbody.block_iff u).mp hub
        obtain rfl := Option.some.inj hu
        refine ⟨_, hnew, hin, fun l' hl' hu' => ?_⟩
        rcases hmem l' hl' with heq | ⟨l₀, hl₀, heq⟩
        · exact heq ▸ hself
        · exact absurd (heq ▸ hu') (hout l₀ hl₀)
    · obtain ⟨l, hl, hin, hmin⟩ := hn.block_some u i hu
      refine ⟨_, hold hl, by rwa [relink_header], fun l' hl' hu' => ?_⟩
      rw [relink_header]
      rcases hmem l' hl' with heq | ⟨l₀, hl₀, heq⟩
      · rw [heq] at hu' ⊢
        exact hinside (List.mem_of_getElem? hl) hu' hin
      · rw [heq] at hu' ⊢
        exact hmin l₀ hl₀ hu'
  · intro u hu l hl hin
    rw [addLoop_blockParent] at hu
    split at hu
    · exact absurd hu (by simp)
    · next hub =>
        have hout := hn.block_none u hu
        rcases hmem l hl with heq | ⟨l₀, hl₀, heq⟩
        · exact hub ((hbody.block_iff u).mpr ⟨heq ▸ hin, hout⟩)
        · exact hout l₀ hl₀ (heq ▸ hin)
  · intro i l k hi hk
    rcases (addLoop_loops_eq_some latches i l).mp hi with ⟨_, rfl⟩ | ⟨l₀, hl₀, rfl⟩
    · exact absurd hk (by simp)
    · have hilt := (List.getElem?_eq_some_iff.mp hl₀).1
      rw [relink_header]
      -- a loop in the new body gets the new loop as parent; the others keep theirs
      by_cases hib : .loop i ∈ body
      · rw [relink, if_pos hib] at hk
        obtain rfl := Option.some.inj hk
        obtain ⟨l₁, hl₁, hin, hnone⟩ := (hbody.loop_iff i).mp hib
        obtain rfl := Option.some.inj (hl₀.symm.trans hl₁)
        refine ⟨hilt, _, hnew, hin, fun l' hl' hne hin' => ?_⟩
        rcases hmem l' hl' with heq | ⟨l₂, hl₂, heq⟩
        · exact heq ▸ hself
        · rw [heq] at hne hin'
          exact absurd (hn.parent_none l₀ (List.mem_of_getElem? hl₀) hnone l₂ hl₂ hin') hne
      · rw [relink, if_neg hib] at hk
        obtain ⟨hlt, lk, hlk, hin, hmin⟩ := hn.parent_some i l₀ k hl₀ hk
        refine ⟨hlt, _, hold hlk, by rwa [relink_header], fun l' hl' hne hin' => ?_⟩
        rw [relink_header]
        rcases hmem l' hl' with heq | ⟨l₂, hl₂, heq⟩
        · rw [heq] at hin' ⊢
          exact hinside (List.mem_of_getElem? hlk) hin' hin
        · rw [heq] at hne hin' ⊢
          exact hmin l₂ hl₂ hne hin'
  · intro l hl hnone l' hl' hin
    obtain ⟨i, hi⟩ := List.mem_iff_getElem?.mp hl
    rcases (addLoop_loops_eq_some latches i l).mp hi with ⟨_, rfl⟩ | ⟨l₀, hl₀, rfl⟩
    · rcases hmem l' hl' with heq | ⟨l₂, hl₂, heq⟩
      · exact heq
      · exact absurd (heq ▸ hin) (hh l₂ hl₂)
    · rw [relink_header] at hin ⊢
      by_cases hib : .loop i ∈ body
      · rw [relink, if_pos hib] at hnone
        exact absurd hnone (by simp)
      · rw [relink, if_neg hib] at hnone
        rcases hmem l' hl' with heq | ⟨l₂, hl₂, heq⟩
        · exact absurd ((hbody.loop_iff i).mpr ⟨l₀, hl₀, heq ▸ hin, hnone⟩) hib
        · rw [heq] at hin ⊢
          exact hn.parent_none l₀ (List.mem_of_getElem? hl₀) hnone l₂ hl₂ hin

end Link

/-! ## The search for the loops -/

/-- A unit of a tree with `n` loops. -/
def IsNode (g : ControlFlowGraph α) (r : α) (n : Nat) : LoopTreeNode α → Prop
  | .block b => Reach g.Edge r b
  | .loop k => k < n

/-- What holds when the headers in `done` are done. -/
structure Built (g : ControlFlowGraph α) (r : α) (done : List α) (tree : LoopTree α) : Prop
    extends Nested g r tree where
  mem_headers : ∀ h, h ∈ tree.loops.map Loop.header ↔ h ∈ done ∧ IsHeader g.Edge r h
  latches : ∀ l ∈ tree.loops, l.latches.Nodup ∧
    ∀ x, x ∈ l.latches ↔ Latch g.Edge r l.header x
  blocks : ∀ l ∈ tree.loops, l.blocks = [l.header]
  contents : ∀ l ∈ tree.loops, ∀ n ∈ l.contents, IsNode g r tree.loops.length n
  rootContents : tree.rootContents = []

section Search

variable {tree : LoopTree α} {done : List α} {latches : List α}

/-- The backward walk collects the units of the new loop. -/
theorem body_spec (hg : g.Valid) (hr : r ∈ g.nodes) (ht : IsDomTree g r t)
    (hn : Nested g r tree) (hh : ∀ l ∈ tree.loops, ¬ InLoop g.Edge r l.header h)
    (hlatches : ∀ l, l ∈ latches ↔ Latch g.Edge r h l) :
    ∃ st body, (latches.filter (fun latch => latch ≠ h)).foldlM tree.addToBody {} = some st ∧
      tree.bodyLoop g t h (g.nodes.length + tree.loops.length) st = some body ∧
      ∀ n, n ∈ body ↔ ∃ u, InLoop g.Edge r h u ∧ u ≠ h ∧ IsUnit g r tree n u := by
  obtain ⟨st, hfold, ⟨new, hbody, hqueue, hnew⟩, hnodup, hmem⟩ :=
    hn.addToBody_spec (latches.filter (fun latch => latch ≠ h)) {}
  have hfilter : ∀ l, l ∈ latches.filter (fun latch => latch ≠ h) ↔
      Latch g.Edge r h l ∧ l ≠ h := by
    intro l
    rw [List.mem_filter, hlatches, decide_eq_true_iff]
  have hbody : st.body = new := by simpa using hbody
  have hqueue : st.queue = new.reverse := by simpa using hqueue
  have hst : BodyInv g r h tree st := by
    refine ⟨hnodup List.nodup_nil, fun n hq => ?_, fun n hb => ?_, fun n hb hnq => ?_,
      fun l hl hne => hmem l ((hfilter l).mpr ⟨hl, hne⟩)⟩
    · rw [hqueue, List.mem_reverse] at hq
      rwa [hbody]
    · rw [hbody] at hb
      obtain ⟨l, hl, hunit⟩ := hnew n hb
      obtain ⟨hlatch, hne⟩ := (hfilter l).mp hl
      exact ⟨l, InLoop.of_latch hlatch, hne, hunit⟩
    · rw [hqueue, List.mem_reverse, ← hbody] at hnq
      exact absurd hb hnq
  obtain ⟨st', hloop, hst', hnil⟩ := bodyLoop_spec hg hr ht hn hh
    (g.nodes.length + tree.loops.length) st hst (by rw [hbody, hqueue, List.length_reverse]; omega)
  refine ⟨st, st'.body, hfold, hloop, fun n => ⟨hst'.sound n, ?_⟩⟩
  rintro ⟨u, hu, hne, hunit⟩
  obtain ⟨m, hm, hmu⟩ := hst'.complete hnil hu hne
  rwa [hunit.unique hn hmu]

omit [DecidableEq α] in
/-- The units of the nodes of the new loop, and its header, are its body. -/
theorem isBody_of_units (hn : Nested g r tree)
    (hh : ∀ l ∈ tree.loops, ¬ InLoop g.Edge r l.header h) (hheader : IsHeader g.Edge r h)
    {body body' : List (LoopTreeNode α)}
    (hbody : ∀ n, n ∈ body ↔ ∃ u, InLoop g.Edge r h u ∧ u ≠ h ∧ IsUnit g r tree n u)
    (hbody' : ∀ n, n ∈ body' ↔ n ∈ body ∨ n = .block h) : IsBody g r h tree body' := by
  refine ⟨fun u => ?_, fun i => ?_⟩
  · rw [hbody', hbody]
    constructor
    · rintro (⟨v, hv, _, rfl, hout⟩ | heq)
      · exact ⟨hv, hout⟩
      · obtain rfl := LoopTreeNode.block.inj heq
        exact ⟨InLoop.self hheader, hh⟩
    · rintro ⟨hu, hout⟩
      by_cases hne : u = h
      · exact Or.inr (by rw [hne])
      · exact Or.inl ⟨u, hu, hne, rfl, hout⟩
  · rw [hbody', hbody]
    constructor
    · rintro (⟨u, hu, _, l, hl, hin, hmax⟩ | heq)
      · have hmem := List.mem_of_getElem? hl
        refine ⟨l, hl, (hu.comparable hin).resolve_right (hh l hmem), ?_⟩
        cases hp : l.parent with
        | none => rfl
        | some k =>
            obtain ⟨hlt, lk, hlk, hin', _⟩ := hn.parent_some i l k hl hp
            have heq := (hmax lk (List.mem_of_getElem? hlk) (hin'.trans hin)).antisymm hin'
            exact absurd (hn.eq_of_header_eq hl hlk heq) (Nat.ne_of_lt hlt)
      · exact absurd heq (by simp)
    · rintro ⟨l, hl, hin, hnone⟩
      have hmem := List.mem_of_getElem? hl
      have hself : InLoop g.Edge r l.header l.header := InLoop.self (hn.isHeader l hmem)
      refine Or.inl ⟨l.header, hin, ?_, l, hl, hself, fun l' hl' hin' => ?_⟩
      · intro heq
        exact hh l hmem (heq ▸ hself)
      · rw [hn.parent_none l hmem hnone l' hl' hin']
        exact hself

theorem findBody_spec (hg : g.Valid) (hr : r ∈ g.nodes) (ht : IsDomTree g r t)
    (hb : Built g r done tree) (hh : ∀ l ∈ tree.loops, ¬ InLoop g.Edge r l.header h)
    (hheader : IsHeader g.Edge r h) (hnodup : latches.Nodup)
    (hlatches : ∀ l, l ∈ latches ↔ Latch g.Edge r h l) :
    ∃ tree', tree.findBody g t h latches = some tree' ∧ Built g r (done ++ [h]) tree' := by
  obtain ⟨st, body, hfold, hloop, hbody⟩ := body_spec hg hr ht hb.toNested hh hlatches
  -- the header is in the body, once
  set body' := if .block h ∈ body then body else body ++ [.block h] with hbody'
  have hmem' : ∀ n, n ∈ body' ↔ n ∈ body ∨ n = .block h := by
    intro n
    rw [hbody']
    split
    · next hm =>
        refine ⟨Or.inl, ?_⟩
        rintro (hn | rfl)
        · exact hn
        · exact hm
    · rw [List.mem_append, List.mem_singleton]
  have hisBody := isBody_of_units hb.toNested hh hheader hbody hmem'
  refine ⟨addLoop tree body' h latches, ?_,
    hb.toNested.addLoop hisBody hh hheader latches, fun x => ?_, fun l hl => ?_, fun l hl => ?_,
    fun l hl n hn => ?_, ?_⟩
  · rw [findBody, hfold]
    simp only [Option.bind_eq_bind, Option.bind_some, hloop]
    rfl
  · rw [addLoop_headers, List.mem_append, hb.mem_headers, List.mem_append, List.mem_singleton]
    constructor
    · rintro (⟨hx, hxh⟩ | rfl)
      · exact ⟨Or.inl hx, hxh⟩
      · exact ⟨Or.inr rfl, hheader⟩
    · rintro ⟨hx | rfl, hxh⟩
      · exact Or.inl ⟨hx, hxh⟩
      · exact Or.inr rfl
  · obtain ⟨i, hi⟩ := List.mem_iff_getElem?.mp hl
    rcases (addLoop_loops_eq_some latches i l).mp hi with ⟨_, rfl⟩ | ⟨l₀, hl₀, rfl⟩
    · exact ⟨hnodup, hlatches⟩
    · have hlatches₀ := hb.latches l₀ (List.mem_of_getElem? hl₀)
      unfold relink
      split <;> exact hlatches₀
  · obtain ⟨i, hi⟩ := List.mem_iff_getElem?.mp hl
    rcases (addLoop_loops_eq_some latches i l).mp hi with ⟨_, rfl⟩ | ⟨l₀, hl₀, rfl⟩
    · rfl
    · have hblocks₀ := hb.blocks l₀ (List.mem_of_getElem? hl₀)
      unfold relink
      split <;> exact hblocks₀
  · obtain ⟨i, hi⟩ := List.mem_iff_getElem?.mp hl
    -- one loop more, so older contents still name loops that are there
    have hlen : (addLoop tree body' h latches).loops.length = tree.loops.length + 1 := by
      have hheaders : (addLoop tree body' h latches).loops.map Loop.header =
          tree.loops.map Loop.header ++ [h] := addLoop_headers latches
      have hheaders := congrArg List.length hheaders
      simpa only [List.length_map, List.length_append, List.length_singleton] using hheaders
    rcases (addLoop_loops_eq_some latches i l).mp hi with ⟨_, rfl⟩ | ⟨l₀, hl₀, rfl⟩
    · rcases n with b | k
      · exact ((hisBody.block_iff b).mp hn).1.reach
      · obtain ⟨lk, hlk, _⟩ := (hisBody.loop_iff k).mp hn
        rw [IsNode, hlen]
        exact Nat.lt_succ_of_lt (List.getElem?_eq_some_iff.mp hlk).1
    · have hn₀ : n ∈ l₀.contents := by
        unfold relink at hn
        split at hn <;> exact hn
      have hnode := hb.contents l₀ (List.mem_of_getElem? hl₀) n hn₀
      rcases n with b | k
      · exact hnode
      · rw [IsNode, hlen]
        exact Nat.lt_succ_of_lt hnode
  · exact (setParent_fold_spec body' tree.loops.length tree).2.2.2.trans hb.rootContents

/-- One header of the search, whose enclosing headers are not done. -/
theorem findLoop_spec (hg : g.Valid) (hr : r ∈ g.nodes) (ht : IsDomTree g r t)
    {intervals : HMap α (Nat × Nat)} (hi : IntervalsSpec g r intervals)
    (hb : Built g r done tree) (hh : ∀ l ∈ tree.loops, ¬ InLoop g.Edge r l.header h)
    (hhr : Reach g.Edge r h) :
    ∃ tree', findLoop g t intervals tree h = some tree' ∧ Built g r (done ++ [h]) tree' := by
  obtain ⟨latches, hfind, hnodup, hlatches⟩ := findLatches_spec hg hr hi hhr
  by_cases hempty : latches.isEmpty = true
  · refine ⟨tree, ?_, { hb with mem_headers := fun x => ?_ }⟩
    · rw [findLoop, hfind]
      simp only [Option.bind_eq_bind, Option.bind_some, if_pos hempty]
    rw [hb.mem_headers, List.mem_append, List.mem_singleton]
    refine ⟨fun hx => ⟨Or.inl hx.1, hx.2⟩, ?_⟩
    rintro ⟨hx | rfl, l, hl⟩
    · exact ⟨hx, l, hl⟩
    · rw [List.isEmpty_iff.mp hempty] at hlatches
      exact absurd ((hlatches l).mpr hl) List.not_mem_nil
  · obtain ⟨l, hl⟩ : ∃ l, l ∈ latches := by
      rw [List.isEmpty_iff] at hempty
      exact List.exists_mem_of_ne_nil _ hempty
    obtain ⟨tree', hbody, hb'⟩ := findBody_spec hg hr ht hb hh ⟨l, (hlatches l).mp hl⟩ hnodup
      hlatches
    refine ⟨tree', ?_, hb'⟩
    rw [findLoop, hfind]
    simp only [Option.bind_eq_bind, Option.bind_some, if_neg hempty]
    exact hbody

/-- The search finds the loops of all headers. -/
theorem findLoops_spec (hg : g.Valid) (hr : r ∈ g.nodes) (ht : IsDomTree g r t)
    {intervals : HMap α (Nat × Nat)} (hi : IntervalsSpec g r intervals) :
    ∃ tree, (search g r).closed.foldlM (findLoop g t intervals) {} = some tree ∧
      Built g r (search g r).closed tree := by
  have hempty : Built g r [] {} := by
    refine ⟨⟨?_, ?_, ?_, ?_, ?_, ?_⟩, ?_, ?_, ?_, ?_, rfl⟩ <;> simp
  have hdfs := search_isDfsOrder hg.closed hr
  have hfold : ∀ (todo done : List α) (tree : LoopTree α), done ++ todo = (search g r).closed →
      Built g r done tree → ∃ tree', todo.foldlM (findLoop g t intervals) tree = some tree' ∧
        Built g r (search g r).closed tree' := by
    intro todo
    induction todo with
    | nil =>
        intro done tree hdone hb
        rw [List.append_nil] at hdone
        exact ⟨tree, rfl, hdone ▸ hb⟩
    | cons h todo ih =>
        intro done tree hdone hb
        have hclosed : h ∈ (search g r).closed := by
          rw [← hdone]
          exact List.mem_append_right _ List.mem_cons_self
        have hnodup : (done ++ h :: todo).Nodup := by
          rw [hdone]
          exact search_inv.closed_nodup
        have hnot : h ∉ done := fun hm =>
          (List.nodup_append.mp hnodup).2.2 h hm h List.mem_cons_self rfl
        have hh : ∀ l ∈ tree.loops, ¬ InLoop g.Edge r l.header h := by
          intro l hl hin
          have hld := ((hb.mem_headers l.header).mp (List.mem_map_of_mem hl)).1
          have hne : h ≠ l.header := fun heq => hnot (heq ▸ hld)
          have hpost := hin.post_lt hdfs hne
          -- the header done comes first in post-order
          have hlt₁ := idxOf_lt_length_of_mem hld
          simp only [DfsState.post, ← hdone, List.idxOf_append_of_mem hld,
            List.idxOf_append_of_notMem hnot] at hpost
          omega
        obtain ⟨tree', hfind, hb'⟩ := findLoop_spec hg hr ht hi hb hh
          ((mem_search_closed hg.closed hr).mp hclosed)
        obtain ⟨tree'', hrest, hb''⟩ := ih (done ++ [h]) tree' (by simpa using hdone) hb'
        exact ⟨tree'', by rw [List.foldlM_cons, hfind]; exact hrest, hb''⟩
  exact hfold _ [] {} rfl hempty

end Search

end LoopTree

end Pliron
