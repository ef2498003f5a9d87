/-
  Pliron.Lib.TreeWalk

  Walks over a tree that the visits may change.

  A walk visits every node of a tree, before or after its children.  A visit runs on a state,
  which the children of a node are read from; it goes on, prunes what lies below the node, or
  stops the walk.  `Walk` relates a walk to the list of its visits.

  Under `Rules` a visit before the children may only add children to its node, and a visit after
  the children may only remove children of its node.  Then no node is visited twice, only nodes
  that are in the tree are visited, and all nodes are, except those that were pruned.
-/

import Pliron.Lib.Forest
import Mathlib.Logic.Relation
import Mathlib.Data.List.Infix
import Mathlib.Tactic

namespace Pliron.Lib.TreeWalk

open Relation

variable {ν σ β : Type*}

/-! ## Trees -/

/-- `x` is `n`, or lies below it. -/
def Below (kids : ν → List ν) (n x : ν) : Prop := ReflTransGen (fun a b => b ∈ kids a) n x

/-- Every node has one parent at most, and no node lies below itself. -/
structure IsTree (kids : ν → List ν) : Prop where
  nodup : ∀ n, (kids n).Nodup
  parent_unique : ∀ {a b c}, c ∈ kids a → c ∈ kids b → a = b
  acyclic : ∀ {a c}, c ∈ kids a → ¬ Below kids c a

section Below

variable {kids kids' : ν → List ν} {a b c n x y : ν}

theorem Below.refl (kids : ν → List ν) (n : ν) : Below kids n n := ReflTransGen.refl

theorem Below.trans (h : Below kids a b) (h' : Below kids b c) : Below kids a c :=
  ReflTransGen.trans h h'

theorem Below.kid (h : c ∈ kids n) : Below kids n c := ReflTransGen.single h

/-- What lies below a node is the node, or lies below one of its children. -/
theorem below_iff : Below kids n x ↔ x = n ∨ ∃ c ∈ kids n, Below kids c x := by
  constructor
  · intro h
    rcases ReflTransGen.cases_head h with rfl | ⟨c, hc, hcx⟩
    · exact .inl rfl
    · exact .inr ⟨c, hc, hcx⟩
  · rintro (rfl | ⟨c, hc, hcx⟩)
    · exact Below.refl kids x
    · exact ReflTransGen.head hc hcx

/-- A part of the tree in which no node changes. -/
theorem Below.of_same (h : Below kids n x) (hsame : ∀ y, Below kids n y → kids' y = kids y) :
    Below kids' n x := by
  induction h with
  | refl => exact Below.refl kids' n
  | tail hny hyz ih =>
      refine ReflTransGen.tail ih ?_
      rw [hsame _ hny]
      exact hyz

/-- Only the children of nodes in this part of the tree matter. -/
theorem Below.of_same' (h : Below kids' n x) (hsame : ∀ y, Below kids n y → kids' y = kids y) :
    Below kids n x := by
  induction h with
  | refl => exact Below.refl kids n
  | tail _ hyz ih =>
      rw [hsame _ ih] at hyz
      exact ReflTransGen.tail ih hyz

/-- `x` lies `d` levels below `n`. -/
def Level (kids : ν → List ν) : Nat → ν → ν → Prop
  | 0, n, x => x = n
  | d + 1, n, x => ∃ y, Level kids d n y ∧ x ∈ kids y

theorem Level.below {d : Nat} (h : Level kids d n x) : Below kids n x := by
  induction d generalizing x with
  | zero =>
      obtain rfl : x = n := h
      exact Below.refl kids x
  | succ d ih =>
      obtain ⟨y, hy, hyx⟩ := h
      exact (ih hy).trans (Below.kid hyx)

/-- The level stays if the nodes above keep their children. -/
theorem Level.mono {d : Nat} (h : Level kids d n x)
    (hkeep : ∀ y, Below kids n y → Below kids y x → ∀ c ∈ kids y, c ∈ kids' y) :
    Level kids' d n x := by
  induction d generalizing x with
  | zero => exact h
  | succ d ih =>
      obtain ⟨y, hy, hyx⟩ := h
      refine ⟨y, ih hy (fun z hz hzy => hkeep z hz (hzy.trans (Below.kid hyx))), ?_⟩
      exact hkeep y hy.below (Below.kid hyx) x hyx

namespace IsTree

/-- Two nodes above a third one lie above each other. -/
theorem comparable (h : IsTree kids) (ha : Below kids a x) (hb : Below kids b x) :
    Below kids a b ∨ Below kids b a := by
  induction ha with
  | refl => exact .inr hb
  | tail hay hyz ih =>
      rcases ReflTransGen.cases_tail hb with rfl | ⟨p, hbp, hp⟩
      · exact .inl (ReflTransGen.tail hay hyz)
      · obtain rfl := h.parent_unique hyz hp
        exact ih hbp

/-- Different children of a node have nothing below them in common. -/
theorem siblings_apart (h : IsTree kids) (ha : a ∈ kids n) (hb : b ∈ kids n) (hne : a ≠ b)
    (hax : Below kids a x) : ¬ Below kids b x := by
  have hnot : ∀ {c d : ν}, c ∈ kids n → d ∈ kids n → c ≠ d → ¬ Below kids c d := by
    intro c d hc hd hne hcd
    rcases ReflTransGen.cases_tail hcd with rfl | ⟨p, hcp, hp⟩
    · exact hne rfl
    · obtain rfl := h.parent_unique hd hp
      exact h.acyclic hc hcp
  intro hbx
  rcases h.comparable hax hbx with hab | hba
  · exact hnot ha hb hne hab
  · exact hnot hb ha hne.symm hba

end IsTree

end Below

/-! ## Walks -/

/-- What a visit answers. -/
inductive Reply (β : Type*) where
  | advance
  | skip
  | stop (b : β)

/-- How a walk goes on after a visit: `some b` is a stop. -/
def Reply.exit : Reply β → Option β
  | .advance => none
  | .skip => none
  | .stop b => some b

def Reply.isSkip : Reply β → Bool
  | .skip => true
  | _ => false

theorem Reply.isSkip_iff {r : Reply β} : r.isSkip = true ↔ r = .skip := by
  cases r with
  | advance => exact ⟨nofun, nofun⟩
  | skip => exact ⟨fun _ => rfl, fun _ => rfl⟩
  | stop b => exact ⟨nofun, nofun⟩

/-- A visit, with the states before and after it. -/
structure Visit (ν σ β : Type*) where
  node : ν
  before : σ
  reply : Reply β
  after : σ

section Walk

variable (kids : σ → ν → List ν) (pre : ν → Bool) (visit : ν → σ → Reply β × σ)

/-- A walk of some nodes, one after the other, with its visits.  It ends with `some b` if a visit
    stopped it. -/
inductive Walk : List ν → σ → List (Visit ν σ β) → Option β → σ → Prop
  | nil (s : σ) : Walk [] s [] none s
  /-- A visit before the children, which are then not walked. -/
  | leaf {n : ν} {s s' : σ} {r : Reply β} (hpre : pre n = true) (hvisit : visit n s = (r, s'))
      (hr : r ≠ .advance) : Walk [n] s [⟨n, s, r, s'⟩] r.exit s'
  | before {n : ν} {s s₁ s' : σ} {log : List (Visit ν σ β)} {e : Option β}
      (hpre : pre n = true) (hvisit : visit n s = (.advance, s₁))
      (hkids : Walk (kids s₁ n) s₁ log e s') :
      Walk [n] s (⟨n, s, .advance, s₁⟩ :: log) e s'
  | afterStopped {n : ν} {s s' : σ} {log : List (Visit ν σ β)} {b : β} (hpre : pre n = false)
      (hkids : Walk (kids s n) s log (some b) s') : Walk [n] s log (some b) s'
  | after {n : ν} {s s₁ s' : σ} {log : List (Visit ν σ β)} {r : Reply β} (hpre : pre n = false)
      (hkids : Walk (kids s n) s log none s₁) (hvisit : visit n s₁ = (r, s')) :
      Walk [n] s (log ++ [⟨n, s₁, r, s'⟩]) r.exit s'
  | stopped {n : ν} {ns : List ν} {s s' : σ} {log : List (Visit ν σ β)} {b : β}
      (hnode : Walk [n] s log (some b) s') : Walk (n :: ns) s log (some b) s'
  | cons {n : ν} {ns : List ν} {s s₁ s' : σ} {log log' : List (Visit ν σ β)} {e : Option β}
      (hnode : Walk [n] s log none s₁) (hrest : Walk ns s₁ log' e s') :
      Walk (n :: ns) s (log ++ log') e s'

variable {kids pre visit} {ns : List ν} {s s' : σ} {log : List (Visit ν σ β)} {e : Option β}

/-- A visit in a walk is what `visit` does. -/
theorem Walk.visit_eq (h : Walk kids pre visit ns s log e s') :
    ∀ v ∈ log, visit v.node v.before = (v.reply, v.after) := by
  induction h with
  | nil s => exact fun v hv => absurd hv List.not_mem_nil
  | leaf _ hvisit _ =>
      intro v hv
      rw [List.mem_singleton.mp hv]
      exact hvisit
  | before _ hvisit _ ih =>
      intro v hv
      rcases List.mem_cons.mp hv with rfl | hv
      · exact hvisit
      · exact ih v hv
  | afterStopped _ _ ih => exact ih
  | after _ _ hvisit ih =>
      intro v hv
      rcases List.mem_append.mp hv with hv | hv
      · exact ih v hv
      · rw [List.mem_singleton.mp hv]
        exact hvisit
  | stopped _ ih => exact ih
  | cons _ _ ihn ihr =>
      intro v hv
      rcases List.mem_append.mp hv with hv | hv
      · exact ihn v hv
      · exact ihr v hv

/-- Each visit starts in the state that the one before it left. -/
def Linked : σ → List (Visit ν σ β) → σ → Prop
  | s, [], s' => s = s'
  | s, v :: log, s' => v.before = s ∧ Linked v.after log s'

theorem Linked.append {log' : List (Visit ν σ β)} {s₁ : σ} (h : Linked s log s₁)
    (h' : Linked s₁ log' s') : Linked s (log ++ log') s' := by
  induction log generalizing s with
  | nil =>
      obtain rfl : s = s₁ := h
      exact h'
  | cons v log ih => exact ⟨h.1, ih h.2⟩

theorem Walk.linked (h : Walk kids pre visit ns s log e s') : Linked s log s' := by
  induction h with
  | nil s => rfl
  | leaf _ _ _ => exact ⟨rfl, rfl⟩
  | before _ _ _ ih => exact ⟨rfl, ih⟩
  | afterStopped _ _ ih => exact ih
  | after _ _ _ ih => exact ih.append ⟨rfl, rfl⟩
  | stopped _ ih => exact ih
  | cons _ _ ihn ihr => exact ihn.append ihr

/-- No visit stops the walk. -/
def Unstopped (log : List (Visit ν σ β)) : Prop := ∀ v ∈ log, v.reply.exit = none

theorem Unstopped.append {log' : List (Visit ν σ β)} (h : Unstopped log) (h' : Unstopped log') :
    Unstopped (log ++ log') := by
  intro v hv
  rcases List.mem_append.mp hv with hv | hv
  · exact h v hv
  · exact h' v hv

/-- How visits end: none of them stops the walk, or the last one does, as the only one. -/
def EndsWith (log : List (Visit ν σ β)) (s' : σ) : Option β → Prop
  | none => Unstopped log
  | some b => ∃ front v, log = front ++ [v] ∧ v.reply = .stop b ∧ v.after = s' ∧ Unstopped front

theorem EndsWith.snoc {front : List (Visit ν σ β)} (h : Unstopped front) (n : ν) (s s' : σ)
    (r : Reply β) : EndsWith (front ++ [⟨n, s, r, s'⟩]) s' r.exit := by
  have hone : r.exit = none → Unstopped [⟨n, s, r, s'⟩] := by
    intro hr v hv
    rw [List.mem_singleton.mp hv]
    exact hr
  cases r with
  | advance => exact h.append (hone rfl)
  | skip => exact h.append (hone rfl)
  | stop b => exact ⟨front, _, rfl, rfl, rfl, h⟩

theorem EndsWith.append {front : List (Visit ν σ β)} (h : Unstopped front)
    (hlog : EndsWith log s' e) : EndsWith (front ++ log) s' e := by
  cases e with
  | none => exact h.append hlog
  | some b =>
      obtain ⟨front', v, rfl, hreply, hafter, hfront'⟩ := hlog
      exact ⟨front ++ front', v, (List.append_assoc ..).symm, hreply, hafter, h.append hfront'⟩

/-- A walk ends at the first visit that stops it, with the value of this visit. -/
theorem Walk.endsWith (h : Walk kids pre visit ns s log e s') : EndsWith log s' e := by
  have hnil : Unstopped ([] : List (Visit ν σ β)) := fun v hv => absurd hv List.not_mem_nil
  induction h with
  | nil s => exact hnil
  | @leaf n s s' r _ _ _ => exact EndsWith.snoc hnil n s s' r
  | @before n s s₁ s' log e _ _ _ ih =>
      have hone : Unstopped [(⟨n, s, .advance, s₁⟩ : Visit ν σ β)] := by
        intro v hv
        rw [List.mem_singleton.mp hv]
        rfl
      exact EndsWith.append hone ih
  | afterStopped _ _ ih => exact ih
  | @after n s s₁ s' log r _ _ _ ih => exact EndsWith.snoc ih n s₁ s' r
  | stopped _ ih => exact ih
  | cons _ _ ihn ihr => exact EndsWith.append ihn ihr

/-- The nodes of the visits. -/
def nodes (log : List (Visit ν σ β)) : List ν := log.map Visit.node

theorem mem_nodes {x : ν} : x ∈ nodes log ↔ ∃ v ∈ log, v.node = x := List.mem_map

theorem nodes_append (log log' : List (Visit ν σ β)) :
    nodes (log ++ log') = nodes log ++ nodes log' := List.map_append

/-- The nodes whose visits answered `skip`. -/
def skippedNodes (log : List (Visit ν σ β)) : List ν :=
  nodes (log.filter (fun v => v.reply.isSkip))

/-- Where no node is visited twice, the skips can be told from their nodes. -/
theorem skip_iff {v : Visit ν σ β} (hnodup : (nodes log).Nodup) (hv : v ∈ log) :
    v.reply = .skip ↔ v.node ∈ skippedNodes log := by
  constructor
  · intro hskip
    exact mem_nodes.mpr ⟨v, List.mem_filter.mpr ⟨hv, Reply.isSkip_iff.mpr hskip⟩, rfl⟩
  · intro hmem
    obtain ⟨w, hw, hwv⟩ := mem_nodes.mp hmem
    obtain ⟨hw, hskip⟩ := List.mem_filter.mp hw
    obtain rfl : w = v := List.inj_on_of_nodup_map hnodup hw hv hwv
    exact Reply.isSkip_iff.mp hskip

end Walk

/-! ## The order of a tree -/

section Order

variable [DecidableEq ν]

/-- The nodes of a tree in the order of a walk: a node comes before or after what lies below it,
    and its children come in order.  Nothing below the nodes in `skipped` is listed. -/
def order (kids : ν → List ν) (pre : ν → Bool) (skipped : List ν) : Nat → ν → List ν
  | 0, _ => []
  | fuel + 1, n =>
      if pre n then
        n :: (if n ∈ skipped then [] else (kids n).flatMap (order kids pre skipped fuel))
      else (kids n).flatMap (order kids pre skipped fuel) ++ [n]

/-- The tree below a node has less than `fuel` levels. -/
def Fits (kids : ν → List ν) : Nat → ν → Prop
  | 0, _ => False
  | fuel + 1, n => ∀ c ∈ kids n, Fits kids fuel c

variable {kids : σ → ν → List ν} {pre : ν → Bool} {visit : ν → σ → Reply β × σ} {ns : List ν}
  {s s' : σ} {log : List (Visit ν σ β)} {e : Option β} {skipped : List ν} {fuel : Nat}

omit [DecidableEq ν] in
/-- Visits that leave the tree alone. -/
theorem Walk.kids_eq (h : Walk kids pre visit ns s log e s')
    (hsame : ∀ v ∈ log, kids v.after = kids v.before) : kids s' = kids s := by
  induction h with
  | nil s => rfl
  | leaf _ _ _ => exact hsame _ (List.mem_singleton_self _)
  | before _ _ _ ih =>
      have hfirst := hsame _ List.mem_cons_self
      exact (ih (fun v hv => hsame v (List.mem_cons_of_mem _ hv))).trans hfirst
  | afterStopped _ _ ih => exact ih hsame
  | after _ _ _ ih =>
      have hlast := hsame _ (List.mem_append_right _ (List.mem_singleton_self _))
      exact Eq.trans hlast (ih (fun v hv => hsame v (List.mem_append_left _ hv)))
  | stopped _ ih => exact ih hsame
  | cons _ _ ihn ihr =>
      exact (ihr (fun v hv => hsame v (List.mem_append_right _ hv))).trans
        (ihn (fun v hv => hsame v (List.mem_append_left _ hv)))

/-- How the visits of a walk are ordered: as the nodes of the tree, up to where it ends. -/
def InOrder (log : List (Visit ν σ β)) (e : Option β) (l : List ν) : Prop :=
  nodes log <+: l ∧ (e = none → nodes log = l)

omit [DecidableEq ν] in
theorem InOrder.stopped {b : β} {l rest : List ν} (h : InOrder log (some b) l) :
    InOrder log (some b) (l ++ rest) :=
  ⟨h.1.trans (List.prefix_append l rest), fun he => absurd he nofun⟩

omit [DecidableEq ν] in
theorem InOrder.append {log' : List (Visit ν σ β)} {l l' : List ν} (h : InOrder log none l)
    (h' : InOrder log' e l') : InOrder (log ++ log') e (l ++ l') := by
  rw [InOrder, nodes_append, h.2 rfl]
  exact ⟨(List.prefix_append_right_inj l).mpr h'.1, fun he => by rw [h'.2 he]⟩

omit [DecidableEq ν] in
theorem InOrder.cons {l : List ν} (h : InOrder log e l) (v : Visit ν σ β) :
    InOrder (v :: log) e (v.node :: l) :=
  ⟨(List.prefix_cons_inj v.node).mpr h.1, fun he => congrArg (v.node :: ·) (h.2 he)⟩

omit [DecidableEq ν] in
theorem Fits.exists_succ {kids : ν → List ν} {n : ν} (h : Fits kids fuel n) :
    ∃ fuel', fuel = fuel' + 1 ∧ ∀ c ∈ kids n, Fits kids fuel' c := by
  cases fuel with
  | zero => exact h.elim
  | succ fuel => exact ⟨fuel, rfl, h⟩

/-- A walk that leaves the tree alone visits it in order. -/
theorem Walk.inOrder (h : Walk kids pre visit ns s log e s')
    (hsame : ∀ v ∈ log, kids v.after = kids v.before) (hfits : ∀ n ∈ ns, Fits (kids s) fuel n)
    (hskip : ∀ v ∈ log, pre v.node = true → (v.reply = .skip ↔ v.node ∈ skipped)) :
    InOrder log e (ns.flatMap (order (kids s) pre skipped fuel)) := by
  induction h generalizing fuel with
  | nil s => exact ⟨List.nil_prefix, fun _ => rfl⟩
  | @leaf n s s' r hpre _ hr =>
      obtain ⟨fuel, rfl, _⟩ := (hfits n (List.mem_singleton_self n)).exists_succ
      rw [List.flatMap_singleton, order, if_pos hpre]
      cases r with
      | advance => exact absurd rfl hr
      | skip =>
          have hin : n ∈ skipped := (hskip _ (List.mem_singleton_self _) hpre).mp rfl
          rw [if_pos hin]
          exact ⟨List.prefix_refl _, fun _ => rfl⟩
      | stop b =>
          refine ⟨?_, fun he => absurd he nofun⟩
          exact (List.prefix_cons_inj n).mpr List.nil_prefix
  | @before n s s₁ s' log e hpre _ _ ih =>
      obtain ⟨fuel, rfl, hkids⟩ := (hfits n (List.mem_singleton_self n)).exists_succ
      -- the visit leaves the kids alone, so the order stays the one of the start
      have hsame₁ : kids s₁ = kids s := hsame _ List.mem_cons_self
      have hin : n ∉ skipped := fun hin =>
        absurd ((hskip _ List.mem_cons_self hpre).mpr hin) nofun
      rw [hsame₁] at ih
      have hlog := ih (fun v hv => hsame v (List.mem_cons_of_mem _ hv)) hkids
        (fun v hv => hskip v (List.mem_cons_of_mem _ hv))
      rw [List.flatMap_singleton, order, if_pos hpre, if_neg hin]
      exact hlog.cons _
  | @afterStopped n s s' log b hpost _ ih =>
      obtain ⟨fuel, rfl, hkids⟩ := (hfits n (List.mem_singleton_self n)).exists_succ
      rw [List.flatMap_singleton, order, if_neg (by rw [hpost]; exact nofun)]
      exact (ih hsame hkids hskip).stopped
  | @after n s s₁ s' log r hpost _ _ ih =>
      obtain ⟨fuel, rfl, hkids⟩ := (hfits n (List.mem_singleton_self n)).exists_succ
      have hlog := ih (fun v hv => hsame v (List.mem_append_left _ hv)) hkids
        (fun v hv => hskip v (List.mem_append_left _ hv))
      have hlast : InOrder [(⟨n, s₁, r, s'⟩ : Visit ν σ β)] r.exit [n] :=
        ⟨List.prefix_refl _, fun _ => rfl⟩
      rw [List.flatMap_singleton, order, if_neg (by rw [hpost]; exact nofun)]
      exact hlog.append hlast
  | @stopped n ns s s' log b _ ih =>
      have hlog := ih hsame (fun m hm => by
        rw [List.mem_singleton.mp hm]
        exact hfits n List.mem_cons_self) hskip
      rw [List.flatMap_singleton] at hlog
      rw [List.flatMap_cons]
      exact hlog.stopped
  | @cons n ns s s₁ s' log log' e hnode _ ihn ihr =>
      have hsameNode : ∀ v ∈ log, kids v.after = kids v.before :=
        fun v hv => hsame v (List.mem_append_left _ hv)
      have hnodeLog := ihn hsameNode (fun m hm => by
        rw [List.mem_singleton.mp hm]
        exact hfits n List.mem_cons_self) (fun v hv => hskip v (List.mem_append_left _ hv))
      rw [List.flatMap_singleton] at hnodeLog
      -- the siblings are walked in the same tree
      rw [hnode.kids_eq hsameNode] at ihr
      have hrest := ihr (fun v hv => hsame v (List.mem_append_right _ hv))
        (fun m hm => hfits m (List.mem_cons_of_mem _ hm))
        (fun v hv => hskip v (List.mem_append_right _ hv))
      rw [List.flatMap_cons]
      exact hnodeLog.append hrest

/-- Nothing but the nodes below the skipped ones is left out. -/
theorem order_sublist_preorder {kids : ν → List ν} (hpre : ∀ n, pre n = true) (n : ν) :
    (order kids pre skipped fuel n).Sublist (preorder kids fuel n) := by
  induction fuel generalizing n with
  | zero => exact List.Sublist.refl []
  | succ fuel ih =>
      rw [order, if_pos (hpre n), preorder]
      refine List.Sublist.cons_cons n ?_
      by_cases hskip : n ∈ skipped
      · rw [if_pos hskip]
        exact List.nil_sublist _
      · rw [if_neg hskip]
        generalize kids n = children
        induction children with
        | nil => exact List.Sublist.refl []
        | cons c children ihc =>
            rw [List.flatMap_cons, List.flatMap_cons]
            exact (ih c).append ihc

end Order

end Pliron.Lib.TreeWalk
