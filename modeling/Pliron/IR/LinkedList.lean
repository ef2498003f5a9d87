/-
  Pliron.IR.LinkedList

  The intrusive linked lists that hold the operations of a block and the blocks of a region.

  The pointers are in the nodes and in the containers.  Here each of the five fields is a map, and a
  failed assertion or an unwrapped `None` is `none`.
-/

import Pliron.Lib.Neighbours

namespace Pliron.LinkedList

open Lib

/-- The pointers of nodes `ν` and of containers `κ`.  At first nothing is linked. -/
structure Heap (ν κ : Type) where
  next : ν → Option ν := fun _ => none
  prev : ν → Option ν := fun _ => none
  container : ν → Option κ := fun _ => none
  head : κ → Option ν := fun _ => none
  tail : κ → Option ν := fun _ => none

variable {ν κ : Type} [DecidableEq ν] [DecidableEq κ]

/-! ## Setters -/

namespace Heap

variable (h : Heap ν κ)

@[simp] def setNext (n : ν) (next : Option ν) : Heap ν κ :=
  { h with next := Function.update h.next n next }

@[simp] def setPrev (n : ν) (prev : Option ν) : Heap ν κ :=
  { h with prev := Function.update h.prev n prev }

@[simp] def setContainer (n : ν) (container : Option κ) : Heap ν κ :=
  { h with container := Function.update h.container n container }

@[simp] def setHead (c : κ) (head : Option ν) : Heap ν κ :=
  { h with head := Function.update h.head c head }

@[simp] def setTail (c : κ) (tail : Option ν) : Heap ν κ :=
  { h with tail := Function.update h.tail c tail }

/-- Is a node out of all lists? -/
def Unlinked (n : ν) : Prop := h.prev n = none ∧ h.next n = none ∧ h.container n = none

instance (n : ν) : Decidable (h.Unlinked n) :=
  inferInstanceAs (Decidable (_ ∧ _ ∧ _))

end Heap

/-! ## Linked list operations -/

/-- Fail an assertion if it does not hold. -/
def assert (p : Prop) [Decidable p] : Option Unit := if p then some () else none

/-- Insert a node after a mark. -/
def insertAfter (self mark : ν) (h : Heap ν κ) : Option (Heap ν κ) := do
  assert (h.Unlinked self)
  assert ((h.container mark).isSome)
  let container ← h.container mark
  let next := h.next mark
  let h ← match next with
    | some next => do
      assert (h.prev next = some mark)
      pure (h.setPrev next (some self))
    | none => do
      assert (h.tail container = some mark)
      pure (h.setTail container (some self))
  let h := h.setNext mark (some self)
  return ((h.setNext self next).setPrev self (some mark)).setContainer self (some container)

/-- Insert a node before a mark. -/
def insertBefore (self mark : ν) (h : Heap ν κ) : Option (Heap ν κ) := do
  assert (h.Unlinked self)
  assert ((h.container mark).isSome)
  let container ← h.container mark
  let prev := h.prev mark
  let h ← match prev with
    | some prev => do
      assert (h.next prev = some mark)
      pure (h.setNext prev (some self))
    | none => do
      assert (h.head container = some mark)
      pure (h.setHead container (some self))
  let h := h.setPrev mark (some self)
  return ((h.setPrev self prev).setNext self (some mark)).setContainer self (some container)

/-- Insert a node as the head of the list. -/
def insertAtFront (self : ν) (container : κ) (h : Heap ν κ) : Option (Heap ν κ) := do
  assert (h.Unlinked self)
  let head := h.head container
  let h ← match head with
    | some head => do
      assert (h.prev head = none)
      pure (h.setPrev head (some self))
    | none => pure (h.setTail container (some self))
  return ((h.setNext self head).setHead container (some self)).setContainer self (some container)

/-- Insert a node as the tail of the list. -/
def insertAtBack (self : ν) (container : κ) (h : Heap ν κ) : Option (Heap ν κ) := do
  assert (h.Unlinked self)
  let tail := h.tail container
  let h ← match tail with
    | some tail => do
      assert (h.next tail = none)
      pure (h.setNext tail (some self))
    | none => pure (h.setHead container (some self))
  return ((h.setPrev self tail).setTail container (some self)).setContainer self (some container)

/-- Unlink a node from its list. -/
def unlink (self : ν) (h : Heap ν κ) : Option (Heap ν κ) := do
  let container ← h.container self
  let next := h.next self
  let prev := h.prev self
  let h := match next with
    | some next => h.setPrev next prev
    | none => h.setTail container prev
  let h := match prev with
    | some prev => h.setNext prev next
    | none => h.setHead container next
  return ((h.setNext self none).setPrev self none).setContainer self none

/-- The loop of `append_linked_list`, for at most as many nodes as the first argument says. -/
def appendLoop (donee : κ) : Nat → Option ν → Heap ν κ → Option (Heap ν κ)
  | _, none, h => some h
  | 0, some _, _ => none
  | fuel + 1, some node, h => do
    let next := h.next node
    let h ← unlink node h
    let h ← insertAtBack node donee h
    appendLoop donee fuel next h

/-- An operation on linked lists. -/
inductive ListOp (ν κ : Type) where
  | insertAfter (self mark : ν)
  | insertBefore (self mark : ν)
  | insertAtFront (self : ν) (container : κ)
  | insertAtBack (self : ν) (container : κ)
  | unlink (self : ν)
  | append (donee donor : κ)

/-- An operation that returns. -/
def ListOp.Exec (h : Heap ν κ) : ListOp ν κ → Heap ν κ → Prop
  | .insertAfter self mark, h' => LinkedList.insertAfter self mark h = some h'
  | .insertBefore self mark, h' => LinkedList.insertBefore self mark h = some h'
  | .insertAtFront self container, h' => LinkedList.insertAtFront self container h = some h'
  | .insertAtBack self container, h' => LinkedList.insertAtBack self container h = some h'
  | .unlink self, h' => LinkedList.unlink self h = some h'
  | .append donee donor, h' => ∃ fuel, appendLoop donee fuel (h.head donor) h = some h'

/-- What an operation asks for.  A list cannot be left empty and get its own nodes. -/
def ListOp.Pre (h : Heap ν κ) : ListOp ν κ → Prop
  | .insertAfter self mark => h.Unlinked self ∧ h.container mark ≠ none
  | .insertBefore self mark => h.Unlinked self ∧ h.container mark ≠ none
  | .insertAtFront self _ => h.Unlinked self
  | .insertAtBack self _ => h.Unlinked self
  | .unlink self => h.container self ≠ none
  | .append donee donor => donee ≠ donor

/-- The heaps that operations lead to. -/
inductive Reachable : Heap ν κ → Prop where
  | init : Reachable {}
  | step {h h' : Heap ν κ} {op : ListOp ν κ} (hh : Reachable h) (hop : op.Exec h h') : Reachable h'

/-! ## Sequences -/

/-- What an operation does to the sequences of the containers. -/
def ListOp.apply (L : κ → List ν) : ListOp ν κ → κ → List ν
  | .insertAfter self mark, c => (L c).flatMap (fun n => if n = mark then [n, self] else [n])
  | .insertBefore self mark, c => (L c).flatMap (fun n => if n = mark then [self, n] else [n])
  | .insertAtFront self container, c => if c = container then self :: L c else L c
  | .insertAtBack self container, c => if c = container then L c ++ [self] else L c
  | .unlink self, c => (L c).filter (· ≠ self)
  | .append donee donor, c =>
    if donee = donor then L c
    else if c = donee then L donee ++ L donor
    else if c = donor then []
    else L c

/-- The lists are these sequences: both ends lead through them, and every node knows its list. -/
structure Represents (h : Heap ν κ) (L : κ → List ν) : Prop where
  nodup : ∀ c, (L c).Nodup
  forward : ∀ c, Follows h.next (h.head c) (L c)
  backward : ∀ c, Follows h.prev (h.tail c) (L c).reverse
  container : ∀ n c, h.container n = some c ↔ n ∈ L c
  unlinked : ∀ n, h.container n = none → h.Unlinked n

/-- The same, node by node. -/
structure Rep (h : Heap ν κ) (L : κ → List ν) : Prop where
  nodup : ∀ c, (L c).Nodup
  head : ∀ c, h.head c = (L c).head?
  tail : ∀ c, h.tail c = (L c).getLast?
  next : ∀ n c, n ∈ L c → h.next n = after n (L c)
  prev : ∀ n c, n ∈ L c → h.prev n = before n (L c)
  container : ∀ n c, h.container n = some c ↔ n ∈ L c
  unlinked : ∀ n, h.container n = none → h.Unlinked n

variable {h h' : Heap ν κ} {L : κ → List ν}

omit [DecidableEq κ] in
theorem Rep.represents (hrep : Rep h L) : Represents h L := by
  refine ⟨hrep.nodup, fun c => ?_, fun c => ?_, hrep.container, hrep.unlinked⟩
  · rw [hrep.head]
    exact follows_of_after [] (hrep.nodup c) fun n hn => hrep.next n c hn
  · rw [hrep.tail, ← List.head?_reverse]
    exact follows_of_after [] (List.nodup_reverse.mpr (hrep.nodup c)) fun n hn =>
      hrep.prev n c (List.mem_reverse.mp hn)

omit [DecidableEq κ] in
theorem rep_init : Rep ({} : Heap ν κ) (fun _ => []) :=
  ⟨fun _ => List.nodup_nil, fun _ => rfl, fun _ => rfl, nofun, nofun,
    fun _ _ => ⟨nofun, nofun⟩, fun _ _ => ⟨rfl, rfl, rfl⟩⟩

omit [DecidableEq κ] in
/-- No node is in two lists. -/
theorem Rep.eq_of_mem (hrep : Rep h L) {n : ν} {c c' : κ} (hc : n ∈ L c) (hc' : n ∈ L c') :
    c = c' :=
  Option.some.inj (((hrep.container n c).mpr hc).symm.trans ((hrep.container n c').mpr hc'))

omit [DecidableEq κ] in
theorem Rep.not_mem_of_unlinked (hrep : Rep h L) {n : ν} (hn : h.container n = none) (c : κ) :
    n ∉ L c := by
  intro hmem
  rw [(hrep.container n c).mpr hmem] at hn
  exact nomatch hn

/-! ## Linking and unlinking a node -/

/-- The pointers after a node was put between two neighbours. -/
structure Linked (h h' : Heap ν κ) (x : ν) (c : κ) (p q : Option ν) : Prop where
  next : ∀ m, h'.next m = if m = x then q else if p = some m then some x else h.next m
  prev : ∀ m, h'.prev m = if m = x then p else if q = some m then some x else h.prev m
  container : ∀ m, h'.container m = if m = x then some c else h.container m
  head : ∀ c', h'.head c' = if c' = c ∧ p = none then some x else h.head c'
  tail : ∀ c', h'.tail c' = if c' = c ∧ q = none then some x else h.tail c'

/-- The sequences after a node was put between two neighbours. -/
theorem Rep.link (hrep : Rep h L) {x : ν} {c : κ} {pre post : List ν} (hL : L c = pre ++ post)
    (hx : h.container x = none) (hlink : Linked h h' x c pre.getLast? post.head?) :
    Rep h' (Function.update L c (pre ++ x :: post)) := by
  have hfresh : ∀ c', x ∉ L c' := hrep.not_mem_of_unlinked hx
  have hnodup : (pre ++ x :: post).Nodup := by
    have hold := hL ▸ hrep.nodup c
    have hxL := hL ▸ hfresh c
    exact (List.nodup_middle).mpr (List.nodup_cons.mpr ⟨hxL, hold⟩)
  have hmem : ∀ m, m ∈ pre ++ x :: post ↔ m = x ∨ m ∈ L c := by
    intro m
    rw [hL, List.mem_append, List.mem_cons, List.mem_append]
    tauto
  -- neighbours of the new node are in its list, and in no other
  have hprev : ∀ m c', m ∈ L c' → c' ≠ c → pre.getLast? ≠ some m := by
    intro m c' hm hne hlast
    exact hne (hrep.eq_of_mem hm (hL ▸ List.mem_append_left _ (List.mem_of_getLast? hlast)))
  have hnext : ∀ m c', m ∈ L c' → c' ≠ c → post.head? ≠ some m := by
    intro m c' hm hne hhead
    exact hne (hrep.eq_of_mem hm (hL ▸ List.mem_append_right _ (List.mem_of_head? hhead)))
  refine ⟨fun c' => ?_, fun c' => ?_, fun c' => ?_, fun m c' hm => ?_, fun m c' hm => ?_,
    fun m c' => ?_, fun m hm => ?_⟩
  · by_cases hc : c' = c
    · subst hc
      rwa [Function.update_self]
    · rw [Function.update_of_ne hc]
      exact hrep.nodup c'
  · rw [hlink.head]
    by_cases hc : c' = c
    · subst hc
      rw [Function.update_self]
      cases pre with
      | nil => exact if_pos ⟨rfl, rfl⟩
      | cons a pre =>
          have hsome : (a :: pre).getLast? ≠ none :=
            mt List.getLast?_eq_none_iff.mp (List.cons_ne_nil a pre)
          rw [if_neg (fun hp => hsome hp.2), hrep.head, hL]
          rfl
    · rw [Function.update_of_ne hc, if_neg (fun hp => hc hp.1), hrep.head]
  · rw [hlink.tail]
    by_cases hc : c' = c
    · subst hc
      rw [Function.update_self, List.getLast?_append_cons]
      cases post with
      | nil => exact if_pos ⟨rfl, rfl⟩
      | cons b post =>
          rw [if_neg (fun hp => nomatch hp.2), hrep.tail, hL, List.getLast?_append_cons,
            List.getLast?_cons_cons]
    · rw [Function.update_of_ne hc, if_neg (fun hp => hc hp.1), hrep.tail]
  · rw [hlink.next]
    by_cases hc : c' = c
    · subst hc
      rw [Function.update_self] at hm ⊢
      rw [after_insert hnodup]
      -- in the changed list the links are those of the list with the node inserted
      by_cases hmx : m = x
      · rw [if_pos hmx, if_pos hmx]
      · have hold := hrep.next m c' (((hmem m).mp hm).resolve_left hmx)
        rw [if_neg hmx, if_neg hmx, hold, hL]
    · rw [Function.update_of_ne hc] at hm ⊢
      have hmx : m ≠ x := by
        rintro rfl
        exact hfresh c' hm
      rw [if_neg hmx, if_neg (hprev m c' hm hc), hrep.next m c' hm]
  · rw [hlink.prev]
    by_cases hc : c' = c
    · subst hc
      rw [Function.update_self] at hm ⊢
      rw [before_insert hnodup]
      by_cases hmx : m = x
      · rw [if_pos hmx, if_pos hmx]
      · have hold := hrep.prev m c' (((hmem m).mp hm).resolve_left hmx)
        rw [if_neg hmx, if_neg hmx, hold, hL]
    · rw [Function.update_of_ne hc] at hm ⊢
      have hmx : m ≠ x := by
        rintro rfl
        exact hfresh c' hm
      rw [if_neg hmx, if_neg (hnext m c' hm hc), hrep.prev m c' hm]
  · rw [hlink.container]
    by_cases hmx : m = x
    · subst hmx
      rw [if_pos rfl, Option.some.injEq]
      by_cases hc : c' = c
      · subst hc
        rw [Function.update_self]
        exact iff_of_true rfl (by simp)
      · rw [Function.update_of_ne hc]
        exact iff_of_false (Ne.symm hc) (hfresh c')
    · rw [if_neg hmx, hrep.container]
      by_cases hc : c' = c
      · subst hc
        rw [Function.update_self, hmem]
        exact (or_iff_right hmx).symm
      · rw [Function.update_of_ne hc]
  · rw [hlink.container] at hm
    by_cases hmx : m = x
    · rw [if_pos hmx] at hm
      exact nomatch hm
    · rw [if_neg hmx] at hm
      -- a node in no list is no neighbour of the new one, so its links stay
      obtain ⟨hprevm, hnextm, -⟩ := hrep.unlinked m hm
      have hnot := hrep.not_mem_of_unlinked hm c
      rw [hL, List.mem_append, not_or] at hnot
      refine ⟨?_, ?_, ?_⟩
      · rw [hlink.prev, if_neg hmx, if_neg (fun hp => hnot.2 (List.mem_of_head? hp)), hprevm]
      · rw [hlink.next, if_neg hmx, if_neg (fun hp => hnot.1 (List.mem_of_getLast? hp)), hnextm]
      · rw [hlink.container, if_neg hmx, hm]

end Pliron.LinkedList
