/-
  Pliron.IR.LinkedListIter

  The double-ended iterator over the elements of a linked list.
-/

import Pliron.IR.LinkedListCorrect

namespace Pliron.LinkedList

open Lib

variable {ν κ : Type} [DecidableEq ν] [DecidableEq κ]

/-- An iterator over the elements of a linked list. -/
structure Iter (ν : Type) where
  next : Option ν
  nextBack : Option ν

/-- Get an iterator over the items of the list in a container. -/
def iter (h : Heap ν κ) (c : κ) : Iter ν := ⟨h.head c, h.tail c⟩

/-- `next`.  The outer `none` is a violated expectation. -/
def Iter.callNext (h : Heap ν κ) (it : Iter ν) : Option (Option ν × Iter ν) :=
  match it.next with
  | none => some (none, it)
  | some curr => do
    let back ← it.nextBack
    if curr = back then return (some curr, ⟨none, none⟩)
    return (some curr, { it with next := h.next curr })

/-- `next_back`. -/
def Iter.callNextBack (h : Heap ν κ) (it : Iter ν) : Option (Option ν × Iter ν) :=
  match it.nextBack with
  | none => some (none, it)
  | some curr => do
    let front ← it.next
    if curr = front then return (some curr, ⟨none, none⟩)
    return (some curr, { it with nextBack := h.prev curr })

/-- The two ends of a list. -/
inductive Side where
  | front
  | back
  deriving DecidableEq

/-- A call at one end. -/
def Iter.call (h : Heap ν κ) : Side → Iter ν → Option (Option ν × Iter ν)
  | .front => Iter.callNext h
  | .back => Iter.callNextBack h

/-- Calls one after another, with what each of them returned. -/
def Iter.run (h : Heap ν κ) : List Side → Iter ν → Option (List (Side × Option ν) × Iter ν)
  | [], it => some ([], it)
  | side :: calls, it => do
    let (x, it) ← it.call h side
    let (out, it) ← Iter.run h calls it
    return ((side, x) :: out, it)

/-- The elements that the calls at one end produced. -/
def produced (side : Side) (out : List (Side × Option ν)) : List ν :=
  out.filterMap fun p => if p.1 = side then p.2 else none

variable {h : Heap ν κ} {L : κ → List ν} {c : κ} {it : Iter ν} {x : ν} {mid : List ν}

/-! ## One call -/

/-- What is left for an iterator to produce: a segment of the list, and the two cursors are at its
    ends. -/
structure Iter.Left (L : κ → List ν) (c : κ) (it : Iter ν) (mid : List ν) : Prop where
  segment : ∃ pre post, L c = pre ++ mid ++ post
  next : it.next = mid.head?
  nextBack : it.nextBack = mid.getLast?

omit [DecidableEq κ] [DecidableEq ν] in
theorem Represents.next_mid (hL : Represents h L) {pre post : List ν}
    (hc : L c = pre ++ x :: post) : h.next x = post.head? :=
  (hc ▸ hL.forward c).step_eq

omit [DecidableEq κ] [DecidableEq ν] in
theorem Represents.prev_mid (hL : Represents h L) {pre post : List ν}
    (hc : L c = pre ++ x :: post) : h.prev x = pre.getLast? := by
  have hback := hL.backward c
  rw [hc, reverse_insert] at hback
  rw [hback.step_eq, List.head?_reverse]

omit [DecidableEq κ] [DecidableEq ν] in
theorem Iter.Left.nodup (hL : Represents h L) (hleft : it.Left L c mid) : mid.Nodup := by
  obtain ⟨pre, post, hc⟩ := hleft.segment
  have hnodup := hc ▸ hL.nodup c
  exact (List.nodup_append.mp (List.nodup_append.mp hnodup).1).2.1

omit [DecidableEq κ] [DecidableEq ν] in
theorem iter_left (hL : Represents h L) (c : κ) : (iter h c).Left L c (L c) := by
  refine ⟨⟨[], [], (List.append_nil _).symm⟩, (hL.forward c).start_eq, ?_⟩
  rw [← List.head?_reverse]
  exact (hL.backward c).start_eq

omit [DecidableEq κ] in
/-- When nothing is left, both ends say so. -/
theorem Iter.Left.call_nil (hleft : it.Left L c []) (side : Side) :
    it.call h side = some (none, it) := by
  have hnext : it.next = none := hleft.next
  have hback : it.nextBack = none := hleft.nextBack
  cases side with
  | front => rw [Iter.call, Iter.callNext, hnext]
  | back => rw [Iter.call, Iter.callNextBack, hback]

omit [DecidableEq κ] in
/-- `next` produces the first element that is left. -/
theorem Iter.Left.callNext (hL : Represents h L) (hleft : it.Left L c (x :: mid)) :
    ∃ it', it.call h .front = some (some x, it') ∧ it'.Left L c mid := by
  obtain ⟨pre, post, hc⟩ := hleft.segment
  have hnodup := hleft.nodup hL
  have hsegment : L c = (pre ++ [x]) ++ mid ++ post := by
    rw [hc, List.append_assoc pre, List.append_assoc pre, List.append_assoc pre]
    rfl
  have hnext : it.next = some x := hleft.next
  cases mid with
  | nil =>
      have hback : it.nextBack = some x := hleft.nextBack
      refine ⟨⟨none, none⟩, ?_, ⟨⟨_, _, hsegment⟩, rfl, rfl⟩⟩
      rw [Iter.call, Iter.callNext, hnext, hback]
      exact if_pos rfl
  | cons y mid =>
      have hz := List.getLast?_eq_some_getLast (List.cons_ne_nil y mid)
      generalize (y :: mid).getLast (List.cons_ne_nil y mid) = z at hz
      have hback : it.nextBack = some z := by
        rw [hleft.nextBack, List.getLast?_cons_cons, hz]
      have hxz : x ≠ z := by
        rintro rfl
        exact (List.nodup_cons.mp hnodup).1 (List.mem_of_getLast? hz)
      refine ⟨⟨h.next x, it.nextBack⟩, ?_, ⟨⟨_, _, hsegment⟩, ?_, ?_⟩⟩
      · rw [Iter.call, Iter.callNext, hnext, hback]
        exact if_neg hxz
      · have hmid : L c = pre ++ x :: (y :: mid ++ post) := by
          rw [hc, List.append_assoc]
          rfl
        have hstep := hL.next_mid hmid
        exact hstep
      · rw [hleft.nextBack, List.getLast?_cons_cons]

omit [DecidableEq κ] in
/-- `next_back` produces the last element that is left. -/
theorem Iter.Left.callNextBack (hL : Represents h L) (hleft : it.Left L c (mid ++ [x])) :
    ∃ it', it.call h .back = some (some x, it') ∧ it'.Left L c mid := by
  obtain ⟨pre, post, hc⟩ := hleft.segment
  have hnodup := hleft.nodup hL
  have hsegment : L c = pre ++ mid ++ (x :: post) := by
    rw [hc, ← List.append_assoc pre, List.append_assoc (pre ++ mid)]
    rfl
  have hback : it.nextBack = some x := by rw [hleft.nextBack, List.getLast?_concat]
  cases mid with
  | nil =>
      have hnext : it.next = some x := hleft.next
      refine ⟨⟨none, none⟩, ?_, ⟨⟨_, _, hsegment⟩, rfl, rfl⟩⟩
      rw [Iter.call, Iter.callNextBack, hnext, hback]
      exact if_pos rfl
  | cons y mid =>
      have hnext : it.next = some y := hleft.next
      have hxy : x ≠ y := by
        rintro rfl
        exact (List.nodup_cons.mp hnodup).1 (List.mem_append_right _ (List.mem_singleton_self x))
      refine ⟨⟨it.next, h.prev x⟩, ?_, ⟨⟨_, _, hsegment⟩, hleft.next, ?_⟩⟩
      · rw [Iter.call, Iter.callNextBack, hnext, hback]
        exact if_neg hxy
      · rw [← List.getLast?_append_cons pre y mid]
        exact hL.prev_mid hsegment

/-! ## Any interleaving of calls -/

omit [DecidableEq ν] in
theorem produced_cons (side : Side) (out : List (Side × Option ν)) :
    produced side ((side, some x) :: out) = x :: produced side out := by
  rw [produced, List.filterMap_cons, if_pos rfl]
  rfl

omit [DecidableEq ν] in
theorem produced_cons_of_ne {side side' : Side} (hne : side ≠ side') (y : Option ν)
    (out : List (Side × Option ν)) :
    produced side' ((side, y) :: out) = produced side' out := by
  rw [produced, List.filterMap_cons, if_neg hne]
  rfl

omit [DecidableEq ν] in
theorem produced_cons_none (side side' : Side) (out : List (Side × Option ν)) :
    produced side' ((side, none) :: out) = produced side' out := by
  rw [produced, List.filterMap_cons, ite_self]
  rfl

omit [DecidableEq κ] in
theorem run_cons {it' : Iter ν} {side : Side} {calls : List Side} {y : Option ν}
    {r : List (Side × Option ν) × Iter ν} (hcall : it.call h side = some (y, it'))
    (hrun : it'.run h calls = some r) :
    it.run h (side :: calls) = some ((side, y) :: r.1, r.2) := by
  simp only [Iter.run, hcall, Option.bind_eq_bind, Option.bind_some, hrun]
  rfl

omit [DecidableEq κ] in
theorem run_nil (hleft : it.Left L c []) (calls : List Side) :
    it.run h calls = some (calls.map (·, none), it) := by
  induction calls with
  | nil => rfl
  | cons side calls ih =>
      exact run_cons (hleft.call_nil side) ih

omit [DecidableEq κ] in
/-- What is left after a run: induction on the calls, each takes one element at its end. -/
theorem Iter.Left.run (hL : Represents h L) (calls : List Side) (hleft : it.Left L c mid) :
    ∃ out it' mid', it.run h calls = some (out, it') ∧ it'.Left L c mid' ∧
      out.map Prod.fst = calls ∧
      mid = produced .front out ++ mid' ++ (produced .back out).reverse ∧
      mid'.length = mid.length - calls.length := by
  induction calls generalizing it mid with
  | nil => exact ⟨[], it, mid, rfl, hleft, rfl, (List.append_nil _).symm, rfl⟩
  | cons side calls ih =>
      rcases List.eq_nil_or_concat' mid with rfl | ⟨init, z, hz⟩
      · -- nothing is left, so the call gives nothing
        obtain ⟨out, it', mid', hrun, hleft', hsides, hmid, hlen⟩ := ih hleft
        refine ⟨(side, none) :: out, it', mid', run_cons (hleft.call_nil side) hrun, hleft',
          ?_, ?_, ?_⟩
        · rw [List.map_cons, hsides]
        · rw [produced_cons_none, produced_cons_none, hmid]
        · rw [hlen, List.length_nil, Nat.zero_sub, Nat.zero_sub]
      · cases side with
        | front =>
            cases mid with
            | nil => simp at hz
            | cons x mid =>
                obtain ⟨it₁, hcall, hleft₁⟩ := hleft.callNext hL
                obtain ⟨out, it', mid', hrun, hleft', hsides, hmid, hlen⟩ := ih hleft₁
                refine ⟨(.front, some x) :: out, it', mid', run_cons hcall hrun, hleft', ?_, ?_,
                  ?_⟩
                · rw [List.map_cons, hsides]
                · rw [produced_cons, produced_cons_of_ne (show Side.front ≠ .back from nofun), hmid]
                  rfl
                · rw [hlen, List.length_cons, List.length_cons, Nat.add_sub_add_right]
        | back =>
            rw [hz] at hleft ⊢
            obtain ⟨it₁, hcall, hleft₁⟩ := hleft.callNextBack hL
            obtain ⟨out, it', mid', hrun, hleft', hsides, hmid, hlen⟩ := ih hleft₁
            refine ⟨(.back, some z) :: out, it', mid', run_cons hcall hrun, hleft', ?_, ?_, ?_⟩
            · rw [List.map_cons, hsides]
            · rw [produced_cons, produced_cons_of_ne (show Side.back ≠ .front from nofun),
                List.reverse_cons, hmid, List.append_assoc]
            · rw [hlen, List.length_append, List.length_singleton, List.length_cons,
                Nat.add_sub_add_right]

omit [DecidableEq κ] in
/-- Any interleaving of calls produces a prefix and a suffix of the list that do not overlap, one
    element a call as long as there are any, and afterwards nothing for ever. -/
theorem iter_exact (hL : Represents h L) (c : κ) (calls : List Side) :
    ∃ out it mid, (iter h c).run h calls = some (out, it) ∧ out.map Prod.fst = calls ∧
      L c = produced .front out ++ mid ++ (produced .back out).reverse ∧
      mid.length = (L c).length - calls.length ∧
      (mid = [] → ∀ more, it.run h more = some (more.map (·, none), it)) := by
  obtain ⟨out, it, mid, hrun, hleft, hsides, hlist, hlen⟩ := (iter_left hL c).run hL calls
  refine ⟨out, it, mid, hrun, hsides, hlist, hlen, ?_⟩
  rintro rfl more
  exact run_nil hleft more

/-- A list of two nodes, from both ends. -/
theorem iter_exact_two : ∃ (h : Heap Nat Nat) (L : Nat → List Nat), L 0 = [1, 2] ∧
    ∃ out it mid, (iter h 0).run h [.back, .front] = some (out, it) ∧
      out.map Prod.fst = [.back, .front] ∧
      L 0 = produced .front out ++ mid ++ (produced .back out).reverse ∧
      mid.length = (L 0).length - 2 ∧
      (mid = [] → ∀ more, it.run h more = some (more.map (·, none), it)) := by
  have hone := rep_init.exec
    (show (ListOp.insertAtFront 1 0).Exec ({} : Heap Nat Nat) _ from rfl)
  have htwo := hone.exec (show (ListOp.insertAfter 2 1).Exec _ _ from rfl)
  exact ⟨_, _, rfl, iter_exact htwo.represents 0 [.back, .front]⟩

end Pliron.LinkedList
