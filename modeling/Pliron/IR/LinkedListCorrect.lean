/-
  Pliron.IR.LinkedListCorrect

  Every operation on linked lists does to the sequences what its name says.
-/

import Pliron.IR.LinkedList

namespace Pliron.LinkedList

open Lib

variable {ν κ : Type} [DecidableEq ν] [DecidableEq κ]
variable {h h' : Heap ν κ} {L : κ → List ν} {x m : ν} {c : κ} {pre post : List ν}

theorem assert_of {p : Prop} [Decidable p] (hp : p) : assert p = some () :=
  if_pos hp

theorem of_assert {p : Prop} [Decidable p] {u : Unit} (h : assert p = some u) : p := by
  by_contra hp
  rw [assert, if_neg hp] at h
  exact nomatch h

/-! ## Unlinking -/

/-- The pointers after a node was taken from between two neighbours. -/
structure Removed (h h' : Heap ν κ) (x : ν) (c : κ) (p q : Option ν) : Prop where
  next : ∀ m, h'.next m = if m = x then none else if p = some m then q else h.next m
  prev : ∀ m, h'.prev m = if m = x then none else if q = some m then p else h.prev m
  container : ∀ m, h'.container m = if m = x then none else h.container m
  head : ∀ c', h'.head c' = if c' = c ∧ p = none then q else h.head c'
  tail : ∀ c', h'.tail c' = if c' = c ∧ q = none then p else h.tail c'

omit [DecidableEq κ] in
/-- The neighbours of a node in its list. -/
theorem Rep.next_mid (hrep : Rep h L) (hL : L c = pre ++ x :: post) : h.next x = post.head? := by
  have hnodup := hL ▸ hrep.nodup c
  have hmem : x ∉ pre := fun hx => (List.disjoint_of_nodup_append hnodup) hx List.mem_cons_self
  rw [hrep.next x c (hL ▸ List.mem_append_right _ List.mem_cons_self), hL, after_append_cons hmem]

omit [DecidableEq κ] in
theorem Rep.prev_mid (hrep : Rep h L) (hL : L c = pre ++ x :: post) : h.prev x = pre.getLast? := by
  rw [hrep.prev x c (hL ▸ List.mem_append_right _ List.mem_cons_self), hL,
    before_of_head? (hL ▸ hrep.nodup c) rfl]

omit [DecidableEq κ] in
theorem Rep.container_mid (hrep : Rep h L) (hL : L c = pre ++ x :: post) :
    h.container x = some c :=
  (hrep.container x c).mpr (hL ▸ List.mem_append_right _ List.mem_cons_self)

omit [DecidableEq κ] in
/-- Every linked node is somewhere in the list of its container. -/
theorem Rep.split (hrep : Rep h L) (hx : h.container x ≠ none) :
    ∃ c pre post, L c = pre ++ x :: post := by
  obtain ⟨c, hc⟩ := Option.ne_none_iff_exists'.mp hx
  obtain ⟨pre, post, hL⟩ := List.append_of_mem ((hrep.container x c).mp hc)
  exact ⟨c, pre, post, hL⟩

/-- The sequences after a node was taken out. -/
theorem Rep.remove (hrep : Rep h L) (hL : L c = pre ++ x :: post)
    (hrem : Removed h h' x c pre.getLast? post.head?) :
    Rep h' (Function.update L c (pre ++ post)) := by
  have hnodup : (pre ++ x :: post).Nodup := hL ▸ hrep.nodup c
  obtain ⟨hxnot, hrest⟩ := List.nodup_cons.mp (List.nodup_middle.mp hnodup)
  have hxL : x ∈ L c := hL ▸ List.mem_append_right _ List.mem_cons_self
  have hmem : ∀ m, m ∈ L c ↔ m = x ∨ m ∈ pre ++ post := by
    intro m
    rw [hL, List.mem_append, List.mem_cons, List.mem_append]
    tauto
  -- no other list holds the node or its neighbours
  have hne : ∀ m c', m ∈ L c' → c' ≠ c → m ≠ x := by
    rintro m c' hm hc rfl
    exact hc (hrep.eq_of_mem hm hxL)
  have hprev : ∀ m c', m ∈ L c' → c' ≠ c → pre.getLast? ≠ some m := by
    intro m c' hm hc hlast
    exact hc (hrep.eq_of_mem hm (hL ▸ List.mem_append_left _ (List.mem_of_getLast? hlast)))
  have hnext : ∀ m c', m ∈ L c' → c' ≠ c → post.head? ≠ some m := by
    intro m c' hm hc hhead
    refine hc (hrep.eq_of_mem hm (hL ▸ List.mem_append_right _ ?_))
    exact List.mem_cons_of_mem _ (List.mem_of_head? hhead)
  refine ⟨fun c' => ?_, fun c' => ?_, fun c' => ?_, fun m c' hm => ?_, fun m c' hm => ?_,
    fun m c' => ?_, fun m hm => ?_⟩
  · by_cases hc : c' = c
    · subst hc
      rwa [Function.update_self]
    · rw [Function.update_of_ne hc]
      exact hrep.nodup c'
  · rw [hrem.head]
    by_cases hc : c' = c
    · subst hc
      rw [Function.update_self]
      cases pre with
      | nil => exact if_pos ⟨rfl, rfl⟩
      | cons a pre =>
          have hsome : (a :: pre).getLast? ≠ none :=
            mt List.getLast?_eq_none_iff.mp (List.cons_ne_nil a pre)
          rw [if_neg (fun hp => hsome hp.2), hrep.head, hL]
          rfl
    · rw [Function.update_of_ne hc, if_neg (fun hp => hc hp.1), hrep.head]
  · rw [hrem.tail]
    by_cases hc : c' = c
    · subst hc
      rw [Function.update_self]
      cases post with
      | nil => rw [if_pos ⟨rfl, rfl⟩, List.append_nil]
      | cons b post =>
          rw [if_neg (fun hp => nomatch hp.2), hrep.tail, hL, List.getLast?_append_cons,
            List.getLast?_append_cons, List.getLast?_cons_cons]
    · rw [Function.update_of_ne hc, if_neg (fun hp => hc hp.1), hrep.tail]
  · rw [hrem.next]
    by_cases hc : c' = c
    · subst hc
      rw [Function.update_self] at hm ⊢
      have hmx : m ≠ x := fun heq => hxnot (heq ▸ hm)
      have hold : h.next m = after m (pre ++ x :: post) :=
        hL ▸ hrep.next m c' ((hmem m).mpr (Or.inr hm))
      rw [if_neg hmx]
      -- the node before the removed one is the only one with a new successor
      by_cases hlast : pre.getLast? = some m
      · rw [if_pos hlast, after_of_getLast? hrest hlast]
      · rw [if_neg hlast, hold, after_insert hnodup, if_neg hmx, if_neg hlast]
    · rw [Function.update_of_ne hc] at hm ⊢
      rw [if_neg (hne m c' hm hc), if_neg (hprev m c' hm hc), hrep.next m c' hm]
  · rw [hrem.prev]
    by_cases hc : c' = c
    · subst hc
      rw [Function.update_self] at hm ⊢
      have hmx : m ≠ x := fun heq => hxnot (heq ▸ hm)
      have hold : h.prev m = before m (pre ++ x :: post) :=
        hL ▸ hrep.prev m c' ((hmem m).mpr (Or.inr hm))
      rw [if_neg hmx]
      -- and the node after it the only one with a new predecessor
      by_cases hhead : post.head? = some m
      · rw [if_pos hhead, before_of_head? hrest hhead]
      · rw [if_neg hhead, hold, before_insert hnodup, if_neg hmx, if_neg hhead]
    · rw [Function.update_of_ne hc] at hm ⊢
      rw [if_neg (hne m c' hm hc), if_neg (hnext m c' hm hc), hrep.prev m c' hm]
  · rw [hrem.container]
    by_cases hmx : m = x
    · subst hmx
      rw [if_pos rfl]
      by_cases hc : c' = c
      · subst hc
        rw [Function.update_self]
        exact iff_of_false nofun hxnot
      · rw [Function.update_of_ne hc]
        exact iff_of_false nofun fun hm => hc (hrep.eq_of_mem hm hxL)
    · rw [if_neg hmx, hrep.container]
      by_cases hc : c' = c
      · subst hc
        rw [Function.update_self, hmem]
        exact or_iff_right hmx
      · rw [Function.update_of_ne hc]
  · -- what is in no list now is the removed node, or was in none before
    rw [hrem.container] at hm
    by_cases hmx : m = x
    · subst hmx
      refine ⟨?_, ?_, ?_⟩
      · rw [hrem.prev, if_pos rfl]
      · rw [hrem.next, if_pos rfl]
      · rw [hrem.container, if_pos rfl]
    · rw [if_neg hmx] at hm
      obtain ⟨hprevm, hnextm, -⟩ := hrep.unlinked m hm
      have hnot := hrep.not_mem_of_unlinked hm c
      rw [hmem, List.mem_append] at hnot
      have hlast : pre.getLast? ≠ some m := fun hp =>
        hnot (Or.inr (Or.inl (List.mem_of_getLast? hp)))
      have hhead : post.head? ≠ some m := fun hp =>
        hnot (Or.inr (Or.inr (List.mem_of_head? hp)))
      refine ⟨?_, ?_, ?_⟩
      · rw [hrem.prev, if_neg hmx, if_neg hhead, hprevm]
      · rw [hrem.next, if_neg hmx, if_neg hlast, hnextm]
      · rw [hrem.container, if_neg hmx, hm]

/-- Unlinking a node deletes it from its list. -/
theorem Rep.unlink (hrep : Rep h L) (hL : L c = pre ++ x :: post) :
    ∃ h', LinkedList.unlink x h = some h' ∧ Rep h' (Function.update L c (pre ++ post)) := by
  simp only [LinkedList.unlink, hrep.container_mid hL, hrep.next_mid hL, hrep.prev_mid hL]
  refine ⟨_, rfl, hrep.remove hL ?_⟩
  cases hp : pre.getLast? with
  | none =>
      cases hq : post.head? with
      | none => constructor <;> intro m <;> simp [Function.update_apply]
      | some q => constructor <;> intro m <;> simp [Function.update_apply, eq_comm]
  | some p =>
      cases hq : post.head? with
      | none => constructor <;> intro m <;> simp [Function.update_apply, eq_comm]
      | some q => constructor <;> intro m <;> simp [Function.update_apply, eq_comm]

/-! ## Inserting -/

omit [DecidableEq κ] in
theorem Rep.ne_of_unlinked (hrep : Rep h L) (hx : h.Unlinked x) (hm : m ∈ L c) : m ≠ x :=
  fun heq => hrep.not_mem_of_unlinked hx.2.2 c (heq ▸ hm)

/-- Inserting a node at the head of a list. -/
theorem Rep.insertAtFront (hrep : Rep h L) (hx : h.Unlinked x) (c : κ) :
    ∃ h', LinkedList.insertAtFront x c h = some h' ∧ Rep h' (Function.update L c (x :: L c)) := by
  have hL : L c = [] ++ L c := rfl
  have hhead := hrep.head c
  have hprevx : h.prev x = none := hx.1
  have hlink : ∃ h', LinkedList.insertAtFront x c h = some h' ∧
      Linked h h' x c none (L c).head? := by
    cases hl : (L c).head? with
    | none =>
        rw [hl] at hhead
        simp only [LinkedList.insertAtFront, assert_of hx, hhead]
        refine ⟨_, rfl, ?_⟩
        constructor <;> intro m <;> simp [Function.update_apply]
        exact fun hm => hm ▸ hprevx
    | some q =>
        have hqx : q ≠ x := hrep.ne_of_unlinked hx (List.mem_of_head? hl)
        have hq : h.prev q = none := by
          rw [hrep.prev q c (List.mem_of_head? hl), hL]
          exact before_of_head? (hrep.nodup c) hl
        rw [hl] at hhead
        simp only [LinkedList.insertAtFront, assert_of hx, hhead, assert_of hq]
        refine ⟨_, rfl, ?_⟩
        constructor <;> intro m <;> simp [Function.update_apply, eq_comm]
        rintro rfl
        rw [if_neg hqx, hprevx]
  obtain ⟨h', hrun, hlinked⟩ := hlink
  exact ⟨h', hrun, hrep.link hL hx.2.2 hlinked⟩

/-- Inserting a node at the tail of a list. -/
theorem Rep.insertAtBack (hrep : Rep h L) (hx : h.Unlinked x) (c : κ) :
    ∃ h', LinkedList.insertAtBack x c h = some h' ∧
      Rep h' (Function.update L c (L c ++ [x])) := by
  have hL : L c = L c ++ [] := (List.append_nil _).symm
  have htail := hrep.tail c
  have hnextx : h.next x = none := hx.2.1
  have hlink : ∃ h', LinkedList.insertAtBack x c h = some h' ∧
      Linked h h' x c (L c).getLast? none := by
    cases hl : (L c).getLast? with
    | none =>
        rw [hl] at htail
        simp only [LinkedList.insertAtBack, assert_of hx, htail]
        refine ⟨_, rfl, ?_⟩
        constructor <;> intro m <;> simp [Function.update_apply]
        exact fun hm => hm ▸ hnextx
    | some p =>
        have hpx : p ≠ x := hrep.ne_of_unlinked hx (List.mem_of_getLast? hl)
        have hp : h.next p = none := by
          rw [hrep.next p c (List.mem_of_getLast? hl), hL]
          exact after_of_getLast? (hL ▸ hrep.nodup c) hl
        rw [hl] at htail
        simp only [LinkedList.insertAtBack, assert_of hx, htail, assert_of hp]
        refine ⟨_, rfl, ?_⟩
        constructor <;> intro m <;> simp [Function.update_apply, eq_comm]
        rintro rfl
        rw [if_neg hpx, hnextx]
  obtain ⟨h', hrun, hlinked⟩ := hlink
  exact ⟨h', hrun, hrep.link hL hx.2.2 hlinked⟩

/-- Inserting a node after a mark. -/
theorem Rep.insertAfter (hrep : Rep h L) (hx : h.Unlinked x) (hL : L c = pre ++ m :: post) :
    ∃ h', LinkedList.insertAfter x m h = some h' ∧
      Rep h' (Function.update L c (pre ++ m :: x :: post)) := by
  have hL' : L c = (pre ++ [m]) ++ post := by
    rw [hL, List.append_assoc, List.singleton_append]
  have hmem : m ∈ L c := hL ▸ List.mem_append_right _ List.mem_cons_self
  have hmx : m ≠ x := hrep.ne_of_unlinked hx hmem
  have hcont := hrep.container_mid hL
  have hsome : (some c).isSome := rfl
  have hlink : ∃ h', LinkedList.insertAfter x m h = some h' ∧
      Linked h h' x c (some m) post.head? := by
    cases hq : post.head? with
    | none =>
        have htail : h.tail c = some m := by
          rw [hrep.tail, hL, List.head?_eq_none_iff.mp hq, List.getLast?_concat]
        simp only [LinkedList.insertAfter, assert_of hx, hcont, assert_of hsome, hrep.next_mid hL,
          hq, Option.bind_eq_bind, Option.bind_some, assert_of htail]
        refine ⟨_, rfl, ?_⟩
        constructor <;> intro a <;> simp [Function.update_apply, eq_comm]
    | some q =>
        have hprev : h.prev q = some m := by
          have hqL : q ∈ L c := hL' ▸ List.mem_append_right _ (List.mem_of_head? hq)
          rw [hrep.prev q c hqL, hL', before_of_head? (hL' ▸ hrep.nodup c) hq,
            List.getLast?_concat]
        simp only [LinkedList.insertAfter, assert_of hx, hcont, assert_of hsome, hrep.next_mid hL,
          hq, Option.bind_eq_bind, Option.bind_some, assert_of hprev]
        refine ⟨_, rfl, ?_⟩
        constructor <;> intro a <;> simp [Function.update_apply, eq_comm]
  obtain ⟨h', hrun, hlinked⟩ := hlink
  refine ⟨h', hrun, ?_⟩
  have hrep' := hrep.link hL' hx.2.2 (by rwa [List.getLast?_concat])
  rwa [List.append_assoc, List.singleton_append] at hrep'

/-- Inserting a node before a mark. -/
theorem Rep.insertBefore (hrep : Rep h L) (hx : h.Unlinked x) (hL : L c = pre ++ m :: post) :
    ∃ h', LinkedList.insertBefore x m h = some h' ∧
      Rep h' (Function.update L c (pre ++ x :: m :: post)) := by
  have hmem : m ∈ L c := hL ▸ List.mem_append_right _ List.mem_cons_self
  have hmx : m ≠ x := hrep.ne_of_unlinked hx hmem
  have hcont := hrep.container_mid hL
  have hsome : (some c).isSome := rfl
  have hlink : ∃ h', LinkedList.insertBefore x m h = some h' ∧
      Linked h h' x c pre.getLast? (some m) := by
    cases hp : pre.getLast? with
    | none =>
        have hhead : h.head c = some m := by
          rw [hrep.head, hL, List.getLast?_eq_none_iff.mp hp]
          rfl
        simp only [LinkedList.insertBefore, assert_of hx, hcont, assert_of hsome, hrep.prev_mid hL,
          hp, Option.bind_eq_bind, Option.bind_some, assert_of hhead]
        refine ⟨_, rfl, ?_⟩
        constructor <;> intro a <;> simp [Function.update_apply, eq_comm]
    | some p =>
        have hnext : h.next p = some m := by
          have hpL : p ∈ L c := hL ▸ List.mem_append_left _ (List.mem_of_getLast? hp)
          rw [hrep.next p c hpL, hL, after_of_getLast? (hL ▸ hrep.nodup c) hp]
          rfl
        simp only [LinkedList.insertBefore, assert_of hx, hcont, assert_of hsome, hrep.prev_mid hL,
          hp, Option.bind_eq_bind, Option.bind_some, assert_of hnext]
        refine ⟨_, rfl, ?_⟩
        constructor <;> intro a <;> simp [Function.update_apply, eq_comm]
  obtain ⟨h', hrun, hlinked⟩ := hlink
  exact ⟨h', hrun, hrep.link hL hx.2.2 hlinked⟩

/-! ## Appending -/

/-- What the loop does with one node: it goes from the front of a list to the back of a list. -/
theorem Rep.move (hrep : Rep h L) (donee : κ) {donor : κ} {a : ν} {rest : List ν}
    (hl : L donor = a :: rest) :
    ∃ h₁ h₂, LinkedList.unlink a h = some h₁ ∧ LinkedList.insertAtBack a donee h₁ = some h₂ ∧
      Rep h₂ (Function.update (Function.update L donor rest) donee
        (Function.update L donor rest donee ++ [a])) := by
  have hL : L donor = [] ++ a :: rest := hl
  obtain ⟨h₁, hrun₁, hrep₁⟩ := hrep.unlink hL
  have hfree : h₁.Unlinked a := by
    refine hrep₁.unlinked a ?_
    by_contra hcont
    obtain ⟨c, hc⟩ := Option.ne_none_iff_exists'.mp hcont
    have hmem := (hrep₁.container a c).mp hc
    by_cases hcd : c = donor
    · rw [hcd, Function.update_self] at hmem
      exact (List.nodup_cons.mp (hl ▸ hrep.nodup donor)).1 hmem
    · rw [Function.update_of_ne hcd] at hmem
      exact hcd (hrep.eq_of_mem hmem (hl ▸ List.mem_cons_self))
  obtain ⟨h₂, hrun₂, hrep₂⟩ := hrep₁.insertAtBack hfree donee
  exact ⟨h₁, h₂, hrun₁, hrun₂, hrep₂⟩

/-- One turn of the loop. -/
theorem appendLoop_step {h₁ h₂ : Heap ν κ} {donee : κ} {a : ν} {fuel : Nat}
    (hrun₁ : unlink a h = some h₁) (hrun₂ : insertAtBack a donee h₁ = some h₂) :
    appendLoop donee (fuel + 1) (some a) h = appendLoop donee fuel (h.next a) h₂ := by
  rw [appendLoop]
  simp only [hrun₁, hrun₂, Option.bind_eq_bind, Option.bind_some]

/-- Moving the nodes of one list to the back of another: induction on the nodes that are left. -/
theorem Rep.appendLoop {donee donor : κ} (hne : donee ≠ donor) (hrep : Rep h L) :
    ∃ h', LinkedList.appendLoop donee (L donor).length (h.head donor) h = some h' ∧
      Rep h' (Function.update (Function.update L donee (L donee ++ L donor)) donor []) := by
  generalize hl : L donor = l
  induction l generalizing h L with
  | nil =>
      refine ⟨h, ?_, ?_⟩
      · rw [hrep.head, hl]
        rfl
      · rwa [List.append_nil, Function.update_eq_self, ← hl, Function.update_eq_self]
  | cons a rest ih =>
      have hL : L donor = [] ++ a :: rest := hl
      obtain ⟨h₁, h₂, hrun₁, hrun₂, hrep₂⟩ := hrep.move donee hl
      rw [Function.update_of_ne hne] at hrep₂
      have hdonor : Function.update (Function.update L donor rest) donee (L donee ++ [a]) donor
          = rest := by
        rw [Function.update_of_ne hne.symm, Function.update_self]
      obtain ⟨h', hrun, hrep'⟩ := ih hrep₂ hdonor
      refine ⟨h', ?_, ?_⟩
      · have hnext : h.next a = h₂.head donor := by
          rw [hrep.next_mid hL, hrep₂.head, hdonor]
        rw [hrep.head, hl, List.head?_cons, List.length_cons, appendLoop_step hrun₁ hrun₂, hnext,
          hrun]
      · convert hrep' using 1
        funext c
        by_cases hc : c = donor
        · rw [hc, Function.update_self, Function.update_self]
        · by_cases hd : c = donee
          · rw [hd, Function.update_of_ne hne, Function.update_self, Function.update_of_ne hne,
              Function.update_self, Function.update_self, List.append_assoc,
              List.singleton_append]
          · rw [Function.update_of_ne hc, Function.update_of_ne hd, Function.update_of_ne hc,
              Function.update_of_ne hd, Function.update_of_ne hd, Function.update_of_ne hc]

/-- A list of two nodes or more that is appended to itself only rotates, for ever. -/
theorem Rep.appendLoop_self_eq_none (hrep : Rep h L) (hlen : 2 ≤ (L c).length) (fuel : Nat) :
    LinkedList.appendLoop c fuel (h.head c) h = none := by
  induction fuel generalizing h L with
  | zero =>
      match hl : L c with
      | [] => simp [hl] at hlen
      | a :: rest =>
          rw [hrep.head, hl]
          rfl
  | succ fuel ih =>
      match hl : L c with
      | [] => simp [hl] at hlen
      | [a] => simp [hl] at hlen
      | a :: b :: rest =>
          have hL : L c = [] ++ a :: b :: rest := hl
          obtain ⟨h₁, h₂, hrun₁, hrun₂, hrep₂⟩ := hrep.move c hl
          rw [Function.update_self, Function.update_idem] at hrep₂
          have hnext : h.next a = h₂.head c := by
            rw [hrep.next_mid hL, hrep₂.head, Function.update_self]
            rfl
          rw [hrep.head, hl, List.head?_cons, appendLoop_step hrun₁ hrun₂, hnext]
          refine ih hrep₂ ?_
          rw [Function.update_self, List.length_append, List.length_cons, List.length_singleton]
          omega

/-- A list that is appended to itself stays as it is, if that ends. -/
theorem Rep.appendLoop_self (hrep : Rep h L) {fuel : Nat}
    (hrun : LinkedList.appendLoop c fuel (h.head c) h = some h') : Rep h' L := by
  match hl : L c with
  | [] =>
      rw [hrep.head, hl, List.head?_nil, LinkedList.appendLoop, Option.some.injEq] at hrun
      exact hrun ▸ hrep
  | [a] =>
      have hL : L c = [] ++ a :: [] := hl
      obtain ⟨h₁, h₂, hrun₁, hrun₂, hrep₂⟩ := hrep.move c hl
      rw [Function.update_self, Function.update_idem, List.nil_append, ← hl,
        Function.update_eq_self] at hrep₂
      cases fuel with
      | zero =>
          rw [hrep.head, hl] at hrun
          exact nomatch hrun
      | succ fuel =>
          rw [hrep.head, hl, List.head?_cons, appendLoop_step hrun₁ hrun₂, hrep.next_mid hL,
            List.head?_nil, LinkedList.appendLoop, Option.some.injEq] at hrun
          exact hrun ▸ hrep₂
  | a :: b :: rest =>
      have hlen : 2 ≤ (L c).length := by
        rw [hl, List.length_cons, List.length_cons]
        omega
      rw [hrep.appendLoop_self_eq_none hlen] at hrun
      exact nomatch hrun

/-- More fuel does not change what the loop returns. -/
theorem appendLoop_unique {donee : κ} {fuel fuel' : Nat} {cur : Option ν} {h₁ h₂ : Heap ν κ}
    (hrun₁ : appendLoop donee fuel cur h = some h₁)
    (hrun₂ : appendLoop donee fuel' cur h = some h₂) : h₁ = h₂ := by
  induction fuel generalizing fuel' cur h with
  | zero =>
      cases cur with
      | none =>
          rw [appendLoop] at hrun₁ hrun₂
          exact Option.some.inj (hrun₁.symm.trans hrun₂)
      | some a => exact nomatch hrun₁
  | succ fuel ih =>
      cases cur with
      | none =>
          rw [appendLoop] at hrun₁ hrun₂
          exact Option.some.inj (hrun₁.symm.trans hrun₂)
      | some a =>
          cases fuel' with
          | zero => exact nomatch hrun₂
          | succ fuel' =>
              rw [appendLoop] at hrun₁
              obtain ⟨hu, hunlink, hrun₁⟩ := Option.bind_eq_some_iff.mp hrun₁
              obtain ⟨hb, hback, hrun₁⟩ := Option.bind_eq_some_iff.mp hrun₁
              rw [appendLoop_step hunlink hback] at hrun₂
              exact ih hrun₁ hrun₂

/-! ## Sequences -/

omit [DecidableEq ν] in
/-- A change at the one place where a node is: everything else stays. -/
theorem flatMap_of_not_mem {f : ν → List ν} {l : List ν} (hf : ∀ n, n ≠ m → f n = [n])
    (hm : m ∉ l) : l.flatMap f = l := by
  induction l with
  | nil => rfl
  | cons a l ih =>
      rw [List.mem_cons, not_or] at hm
      rw [List.flatMap_cons, hf a (Ne.symm hm.1), ih hm.2, List.singleton_append]

omit [DecidableEq ν] in
theorem flatMap_mid {f : ν → List ν} (hf : ∀ n, n ≠ m → f n = [n])
    (hnodup : (pre ++ m :: post).Nodup) : (pre ++ m :: post).flatMap f = pre ++ (f m ++ post) := by
  obtain ⟨hm, -⟩ := List.nodup_cons.mp (List.nodup_middle.mp hnodup)
  rw [List.mem_append, not_or] at hm
  rw [List.flatMap_append, List.flatMap_cons, flatMap_of_not_mem hf hm.1,
    flatMap_of_not_mem hf hm.2]

/-- What a change around one node does to the sequences. -/
theorem Rep.flatMap_eq (hrep : Rep h L) {f : ν → List ν} (hf : ∀ n, n ≠ m → f n = [n])
    (hL : L c = pre ++ m :: post) :
    (fun c' => (L c').flatMap f) = Function.update L c (pre ++ (f m ++ post)) := by
  funext c'
  by_cases hc : c' = c
  · rw [hc, Function.update_self, hL, flatMap_mid hf (hL ▸ hrep.nodup c)]
  · rw [Function.update_of_ne hc]
    refine flatMap_of_not_mem hf fun hm => hc (hrep.eq_of_mem hm ?_)
    exact hL ▸ List.mem_append_right _ List.mem_cons_self

theorem filter_eq_flatMap {l : List ν} :
    l.filter (· ≠ x) = l.flatMap (fun n => if n = x then [] else [n]) := by
  induction l with
  | nil => rfl
  | cons a l ih =>
      rw [List.flatMap_cons, ← ih]
      by_cases ha : a = x
      · rw [if_pos ha, List.filter_cons_of_neg (by simpa using ha), List.nil_append]
      · rw [if_neg ha, List.filter_cons_of_pos (by simpa using ha), List.singleton_append]

/-- An operation whose precondition holds returns, and does to the sequences what it should. -/
theorem Rep.run (hrep : Rep h L) {op : ListOp ν κ} (hpre : op.Pre h) :
    ∃ h', op.Exec h h' ∧ Rep h' (op.apply L) := by
  cases op with
  | insertAfter self mark =>
      obtain ⟨c, pre, post, hL⟩ := hrep.split hpre.2
      obtain ⟨h', hrun, hrep'⟩ := hrep.insertAfter hpre.1 hL
      have happly := hrep.flatMap_eq (f := fun n => if n = mark then [n, self] else [n])
        (fun n hn => if_neg hn) hL
      rw [if_pos rfl] at happly
      refine ⟨h', hrun, ?_⟩
      rwa [show (ListOp.insertAfter self mark).apply L = _ from happly]
  | insertBefore self mark =>
      obtain ⟨c, pre, post, hL⟩ := hrep.split hpre.2
      obtain ⟨h', hrun, hrep'⟩ := hrep.insertBefore hpre.1 hL
      have happly := hrep.flatMap_eq (f := fun n => if n = mark then [self, n] else [n])
        (fun n hn => if_neg hn) hL
      rw [if_pos rfl] at happly
      refine ⟨h', hrun, ?_⟩
      rwa [show (ListOp.insertBefore self mark).apply L = _ from happly]
  | insertAtFront self container =>
      obtain ⟨h', hrun, hrep'⟩ := hrep.insertAtFront hpre container
      refine ⟨h', hrun, ?_⟩
      convert hrep' using 1
      funext c
      rw [ListOp.apply, Function.update_apply]
      by_cases hc : c = container
      · rw [if_pos hc, if_pos hc, hc]
      · rw [if_neg hc, if_neg hc]
  | insertAtBack self container =>
      obtain ⟨h', hrun, hrep'⟩ := hrep.insertAtBack hpre container
      refine ⟨h', hrun, ?_⟩
      convert hrep' using 1
      funext c
      rw [ListOp.apply, Function.update_apply]
      by_cases hc : c = container
      · rw [if_pos hc, if_pos hc, hc]
      · rw [if_neg hc, if_neg hc]
  | unlink self =>
      obtain ⟨c, pre, post, hL⟩ := hrep.split hpre
      obtain ⟨h', hrun, hrep'⟩ := hrep.unlink hL
      have happly := hrep.flatMap_eq (f := fun n => if n = self then [] else [n])
        (fun n hn => if_neg hn) hL
      rw [if_pos rfl, List.nil_append] at happly
      refine ⟨h', hrun, ?_⟩
      convert hrep' using 1
      rw [← happly]
      funext c'
      exact filter_eq_flatMap
  | append donee donor =>
      obtain ⟨h', hrun, hrep'⟩ := hrep.appendLoop hpre
      refine ⟨h', ⟨_, hrun⟩, ?_⟩
      convert hrep' using 1
      funext c
      rw [ListOp.apply, if_neg hpre, Function.update_apply, Function.update_apply]
      by_cases hd : c = donor
      · have hne : ¬ c = donee := fun hc => hpre (hc.symm.trans hd)
        rw [if_neg hne, if_pos hd, if_pos hd]
      · rw [if_neg hd, if_neg hd]

/-- An operation that returns had what it asks for, or was given one list twice. -/
theorem ListOp.Exec.pre_or {op : ListOp ν κ} (hop : op.Exec h h') :
    op.Pre h ∨ ∃ c, op = .append c c := by
  cases op with
  | insertAfter self mark =>
      obtain ⟨_, hx, hrun⟩ := Option.bind_eq_some_iff.mp hop
      obtain ⟨_, hm, -⟩ := Option.bind_eq_some_iff.mp hrun
      exact Or.inl ⟨of_assert hx, Option.isSome_iff_ne_none.mp (of_assert hm)⟩
  | insertBefore self mark =>
      obtain ⟨_, hx, hrun⟩ := Option.bind_eq_some_iff.mp hop
      obtain ⟨_, hm, -⟩ := Option.bind_eq_some_iff.mp hrun
      exact Or.inl ⟨of_assert hx, Option.isSome_iff_ne_none.mp (of_assert hm)⟩
  | insertAtFront self container =>
      obtain ⟨_, hx, -⟩ := Option.bind_eq_some_iff.mp hop
      have hpre : h.Unlinked self := of_assert hx
      exact Or.inl hpre
  | insertAtBack self container =>
      obtain ⟨_, hx, -⟩ := Option.bind_eq_some_iff.mp hop
      have hpre : h.Unlinked self := of_assert hx
      exact Or.inl hpre
  | unlink self =>
      obtain ⟨c, hc, -⟩ := Option.bind_eq_some_iff.mp hop
      exact Or.inl (Option.ne_none_iff_exists'.mpr ⟨c, hc⟩)
  | append donee donor =>
      by_cases hd : donee = donor
      · exact Or.inr ⟨donee, by rw [hd]⟩
      · exact Or.inl hd

/-- An operation returns one heap at most. -/
theorem ListOp.Exec.unique {op : ListOp ν κ} {h₁ h₂ : Heap ν κ} (hop₁ : op.Exec h h₁)
    (hop₂ : op.Exec h h₂) : h₁ = h₂ := by
  cases op with
  | append donee donor =>
      obtain ⟨fuel₁, hrun₁⟩ := hop₁
      obtain ⟨fuel₂, hrun₂⟩ := hop₂
      exact appendLoop_unique hrun₁ hrun₂
  | insertAfter | insertBefore | insertAtFront | insertAtBack | unlink =>
      exact Option.some.inj (hop₁.symm.trans hop₂)

/-- Whatever operation returns, it did to the sequences what it should. -/
theorem Rep.exec (hrep : Rep h L) {op : ListOp ν κ} (hop : op.Exec h h') :
    Rep h' (op.apply L) := by
  rcases hop.pre_or with hpre | ⟨c, rfl⟩
  · obtain ⟨h₁, hop₁, hrep₁⟩ := hrep.run hpre
    rwa [hop.unique hop₁]
  · obtain ⟨fuel, hrun⟩ := hop
    have happly : (ListOp.append c c).apply L = L := funext fun c' => if_pos rfl
    rw [happly]
    exact hrep.appendLoop_self hrun

/-- Every reachable heap holds sequences. -/
theorem Reachable.rep (hh : Reachable h) : ∃ L, Rep h L := by
  induction hh with
  | init => exact ⟨_, rep_init⟩
  | step _ hop ih =>
      obtain ⟨L, hrep⟩ := ih
      exact ⟨_, hrep.exec hop⟩

/-! ## Refinement -/

/-- In every reachable state the pointers are sequences, one for each container, and every operation
    is the one on sequences. -/
theorem linked_list_refines (hh : Reachable h) :
    ∃ L, Represents h L ∧ ∀ op : ListOp ν κ,
      (op.Pre h → ∃ h', op.Exec h h') ∧ ∀ h', op.Exec h h' → Represents h' (op.apply L) := by
  obtain ⟨L, hrep⟩ := hh.rep
  refine ⟨L, hrep.represents, fun op => ⟨fun hpre => ?_, fun h' hop => ?_⟩⟩
  · obtain ⟨h', hop, -⟩ := hrep.run hpre
    exact ⟨h', hop⟩
  · exact (hrep.exec hop).represents

/-- Two nodes in one list. -/
theorem linked_list_refines_two : ∃ h : Heap Nat Nat, h.head 0 = some 1 ∧ h.next 1 = some 2 ∧
    ∃ L, Represents h L ∧ ∀ op : ListOp Nat Nat,
      (op.Pre h → ∃ h', op.Exec h h') ∧ ∀ h', op.Exec h h' → Represents h' (op.apply L) := by
  have hone := @Reachable.step Nat Nat _ _ _ _ (.insertAtFront 1 0) Reachable.init rfl
  have htwo := @Reachable.step Nat Nat _ _ _ _ (.insertAfter 2 1) hone rfl
  exact ⟨_, rfl, rfl, linked_list_refines htwo⟩

end Pliron.LinkedList
