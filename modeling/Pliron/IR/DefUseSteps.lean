/-
  Pliron.IR.DefUseSteps

  The mutators that create, edit, link and redirect keep the def-use invariant.

  The lemmas about operands hold for operands and successors alike, as the laws of
  `OperandKind` say that each of the two is one part of the references of an
  operation.
-/

import Pliron.IR.DefUse

namespace Pliron

open Pliron.Lib Function

/-! ## Operands and successors are parts of the references -/

/-- What operands and successors have in common. -/
structure OperandKind.Lawful {δ : Type} (k : OperandKind δ) : Prop where
  get_set : ∀ o l, k.get (k.set o l) = l
  set_get : ∀ o, k.set o (k.get o) = o
  refs_set : ∀ o l, (k.set o l).refs.Perm (l.map (Operand.ref k.toDef) ++ (k.set o []).refs)
  results_set : ∀ o l, (k.set o l).results = o.results
  regions_set : ∀ o l, (k.set o l).regions = o.regions
  get_congr : ∀ o o' : Operation, o.operands = o'.operands → o.successors = o'.successors →
    k.get o = k.get o'
  toDef_injective : Injective k.toDef

/-- Modifying the element at an index. -/
theorem modify_eq_set {α : Type} {l : List α} {idx : Nat} {a : α} {f : α → α}
    (ha : l[idx]? = some a) : l.modify idx f = l.set idx (f a) := by
  obtain ⟨hidx, rfl⟩ := List.getElem?_eq_some_iff.mp ha
  rw [List.modify_eq_take_cons_drop hidx, List.set_eq_take_append_cons_drop, if_pos hidx]

/-- What `filterAuxM` adds to the accumulator is a part of the list. -/
theorem filterAuxM_sublist {α : Type} {p : α → Option Bool} {l acc kept : List α}
    (h : l.filterAuxM p acc = some kept) : ∃ l' : List α, l'.Sublist l ∧
      kept = l'.reverse ++ acc := by
  induction l generalizing acc with
  | nil => exact ⟨[], List.Sublist.refl _, (Option.some.inj h).symm⟩
  | cons a l ih =>
      obtain ⟨b, _, h⟩ := Option.bind_eq_some_iff.mp h
      obtain ⟨l', hl', rfl⟩ := ih h
      cases b with
      | false => exact ⟨l', hl'.cons a, rfl⟩
      | true => exact ⟨a :: l', hl'.cons_cons a, by simp⟩

theorem filterM_sublist {α : Type} {p : α → Option Bool} {l kept : List α}
    (h : l.filterM p = some kept) : kept.Sublist l := by
  obtain ⟨kept', haux, h⟩ := Option.bind_eq_some_iff.mp h
  obtain ⟨l', hl', rfl⟩ := filterAuxM_sublist haux
  rw [← Option.some.inj h]
  simpa using hl'

theorem operandKind_lawful : operandKind.Lawful where
  get_set _ _ := rfl
  set_get _ := rfl
  refs_set o l := by simp [operandKind, Operation.refs]
  results_set _ _ := rfl
  regions_set _ _ := rfl
  get_congr _ _ hopds _ := hopds
  toDef_injective := fun _ _ h => Def.value.inj h

theorem successorKind_lawful : successorKind.Lawful where
  get_set _ _ := rfl
  set_get _ := rfl
  refs_set o l := by
    simp only [successorKind, Operation.refs, List.map_nil, List.append_nil]
    exact List.perm_append_comm
  results_set _ _ := rfl
  regions_set _ _ := rfl
  get_congr _ _ _ hsuccs := hsuccs
  toDef_injective := fun _ _ h => Def.block.inj h

namespace OperandKind.Lawful

variable {δ : Type} {k : OperandKind δ} {o : Operation} {l : List (Operand δ)} {idx : Nat}
  {opd old : Operand δ}

/-- The references of an operation, one part first. -/
theorem refs_perm (hk : k.Lawful) (o : Operation) :
    o.refs.Perm ((k.get o).map (Operand.ref k.toDef) ++ (k.set o []).refs) := by
  have h := hk.refs_set o (k.get o)
  rwa [hk.set_get] at h

theorem refs_set_cons (hk : k.Lawful) (hl : l.Perm (opd :: k.get o)) :
    (k.set o l).refs.Perm (opd.ref k.toDef :: o.refs) := by
  refine (hk.refs_set o l).trans ?_
  refine (((hl.map (Operand.ref k.toDef))).append_right _).trans ?_
  rw [List.map_cons, List.cons_append]
  exact (hk.refs_perm o).symm.cons _

theorem refs_set_eraseIdx (hk : k.Lawful) (hold : (k.get o)[idx]? = some old) :
    (old.ref k.toDef :: (k.set o ((k.get o).eraseIdx idx)).refs).Perm o.refs := by
  obtain ⟨hidx, rfl⟩ := List.getElem?_eq_some_iff.mp hold
  have hp := List.getElem_cons_eraseIdx_perm hidx
  refine ((hk.refs_set o _).cons _).trans ?_
  rw [← List.cons_append, ← List.map_cons]
  exact ((hp.map _).append_right _).trans (hk.refs_perm o).symm

theorem refs_set_set_eraseIdx (hk : k.Lawful) (opd : Operand δ) (hidx : idx < (k.get o).length) :
    (k.set o ((k.get o).set idx opd)).refs.Perm
      (opd.ref k.toDef :: (k.set o ((k.get o).eraseIdx idx)).refs) := by
  refine (hk.refs_set o _).trans ?_
  refine (((List.set_perm_cons_eraseIdx hidx opd).map _).append_right _).trans ?_
  rw [List.map_cons, List.cons_append]
  exact (hk.refs_set o _).symm.cons _

theorem refs_set_set (hk : k.Lawful) (opd : Operand δ) (hold : (k.get o)[idx]? = some old) :
    (old.ref k.toDef :: (k.set o ((k.get o).set idx opd)).refs).Perm
      (opd.ref k.toDef :: o.refs) := by
  obtain ⟨hidx, _⟩ := List.getElem?_eq_some_iff.mp hold
  have hset := hk.refs_set_set_eraseIdx opd hidx
  exact (hset.cons _).trans ((List.Perm.swap _ _ _).trans ((hk.refs_set_eraseIdx hold).cons _))

end OperandKind.Lawful

namespace Context

variable {ctx ctx' : Context} {refs : OpPtr → List (Nat × Def)} {op this : OpPtr}
  {o : Operation}

/-- The invariant is back once the operations hold the references that the use sets describe. -/
theorem defUse_of_perm (h : ctx.DefUseOn refs) (hp : ∀ x, (ctx.refsOf x).Perm (refs x)) :
    ctx.DefUse := h.perm hp

/-- The references of an operation are overwritten with what the use sets describe. -/
theorem defUse_setOp {o' : Operation} (h : ctx.DefUseOn refs) (ho : ctx.operations op = some o)
    (hresults : o'.results = o.results) (hrefs : o'.refs.Perm (refs op))
    (hother : ∀ x, x ≠ op → (ctx.refsOf x).Perm (refs x)) : (ctx.setOp op o').DefUse := by
  refine defUse_of_perm (h.setOp ho hresults) (fun x => ?_)
  rw [refsOf_setOp]
  by_cases hx : x = op
  · subst hx
    rw [update_self]
    exact hrefs
  · rw [update_of_ne hx]
    exact hother x hx

/-! ## New operands -/

section Operands

variable {δ : Type} {k : OperandKind δ} {defn : δ} {opd : Operand δ} {idx : Nat}

theorem newOperand_spec (h : ctx.DefUseOn refs)
    (hnew : ctx.newOperand k defn op = some (opd, ctx')) :
    ctx'.DefUseOn (update refs op (opd.ref k.toDef :: refs op)) ∧ SameIR ctx ctx' := by
  obtain ⟨ctx₁, hadd, hnew⟩ := Option.bind_eq_some_iff.mp hnew
  obtain ⟨rfl, rfl⟩ := Prod.mk.inj (Option.some.inj hnew)
  have hcount : SameIR ctx { ctx with useCounter := ctx.useCounter + 1 } :=
    { SameIR.refl ctx with useCounter := Nat.le_succ _ }
  have hctx : DefUseOn { ctx with useCounter := ctx.useCounter + 1 } refs :=
    h.of_sameIR hcount h.consistent (fun x r hr => Nat.lt_succ_of_lt (h.ids_lt x r hr))
  obtain ⟨hres, hsame⟩ := hctx.addUse hadd (fun r hr => Nat.ne_of_lt (h.ids_lt op r hr))
    (Nat.lt_succ_self _)
  exact ⟨hres, hcount.trans hsame⟩

theorem pushRef_defUse (hk : k.Lawful) (h : ctx.DefUse)
    (hpush : ctx.pushRef k this defn = some ctx') : ctx'.DefUse := by
  obtain ⟨⟨opd, ctx₁⟩, hnew, hpush⟩ := Option.bind_eq_some_iff.mp hpush
  obtain ⟨o, ho, hpush⟩ := Option.bind_eq_some_iff.mp hpush
  obtain rfl := Option.some.inj hpush
  obtain ⟨h₁, hsame⟩ := newOperand_spec h hnew
  refine defUse_setOp h₁ ho (hk.results_set o _) ?_ (fun x hx => ?_)
  · rw [update_self, ← hsame.refs, refsOf_eq ho]
    exact hk.refs_set_cons List.perm_append_comm
  · rw [update_of_ne hx, hsame.refs]

theorem insertRef_defUse (hk : k.Lawful) (h : ctx.DefUse)
    (hins : ctx.insertRef k this idx defn = some ctx') : ctx'.DefUse := by
  obtain ⟨⟨opd, ctx₁⟩, hnew, hins⟩ := Option.bind_eq_some_iff.mp hins
  obtain ⟨o, ho, hins⟩ := Option.bind_eq_some_iff.mp hins
  obtain ⟨_, hidx, hins⟩ := Option.bind_eq_some_iff.mp hins
  obtain rfl := Option.some.inj hins
  obtain ⟨h₁, hsame⟩ := newOperand_spec h hnew
  refine defUse_setOp h₁ ho (hk.results_set o _) ?_ (fun x hx => ?_)
  · rw [update_self, ← hsame.refs, refsOf_eq ho]
    refine hk.refs_set_cons (List.perm_insertIdx opd (k.get o) ?_)
    simpa [Option.guard_eq_some'] using hidx
  · rw [update_of_ne hx, hsame.refs]

/-- A dropped use is a reference less. -/
theorem dropUse_spec {rest : List (Nat × Def)} (h : ctx.DefUseOn refs)
    (hdrop : ctx.dropUse k op opd = some ctx') (hrest : (opd.ref k.toDef :: rest).Perm (refs op)) :
    ctx'.DefUseOn (update refs op rest) ∧ SameIR ctx ctx' :=
  h.removeUse hdrop hrest

theorem removeRef_defUse (hk : k.Lawful) (h : ctx.DefUse) {removed : δ}
    (hrem : ctx.removeRef k this idx = some (removed, ctx')) : ctx'.DefUse := by
  obtain ⟨o, ho, hrem⟩ := Option.bind_eq_some_iff.mp hrem
  obtain ⟨opd, hopd, hrem⟩ := Option.bind_eq_some_iff.mp hrem
  obtain ⟨ctx₁, hdrop, hrem⟩ := Option.bind_eq_some_iff.mp hrem
  obtain ⟨_, rfl⟩ := Prod.mk.inj (Option.some.inj hrem)
  have hset := h.setOp ho (hk.results_set o ((k.get o).eraseIdx idx))
  have hperm := hk.refs_set_eraseIdx hopd
  rw [← refsOf_eq ho] at hperm
  obtain ⟨h₁, hsame⟩ := dropUse_spec hset hdrop hperm
  refine defUse_of_perm h₁ (fun x => ?_)
  rw [hsame.refs, refsOf_setOp]

theorem popRef_defUse (hk : k.Lawful) (h : ctx.DefUse) {removed : δ}
    (hpop : ctx.popRef k this = some (removed, ctx')) : ctx'.DefUse := by
  obtain ⟨o, _, hpop⟩ := Option.bind_eq_some_iff.mp hpop
  obtain ⟨_, _, hpop⟩ := Option.bind_eq_some_iff.mp hpop
  exact removeRef_defUse hk h hpop

theorem replaceRef_defUse (hk : k.Lawful) (h : ctx.DefUse)
    (hrep : ctx.replaceRef k this idx defn = some ctx') : ctx'.DefUse := by
  obtain ⟨⟨opd, ctx₁⟩, hnew, hrep⟩ := Option.bind_eq_some_iff.mp hrep
  obtain ⟨o, ho, hrep⟩ := Option.bind_eq_some_iff.mp hrep
  obtain ⟨old, hold, hrep⟩ := Option.bind_eq_some_iff.mp hrep
  obtain ⟨_, _, hdrop⟩ := Option.bind_eq_some_iff.mp hrep
  obtain ⟨h₁, hsame⟩ := newOperand_spec h hnew
  have hset := h₁.setOp ho (hk.results_set o ((k.get o).set idx opd))
  have hperm := hk.refs_set_set opd hold
  rw [← refsOf_eq ho, hsame.refs] at hperm
  obtain ⟨h₂, hsame₂⟩ := dropUse_spec hset hdrop (by rw [update_self]; exact hperm)
  refine defUse_of_perm h₂ (fun x => ?_)
  rw [hsame₂.refs, refsOf_setOp, hsame.refs, update_idem]

/-! ## Replacing uses -/

variable {this other : δ} {use : Use} {uses : List Use}

/-- The operand that a recorded use belongs to. -/
theorem operand_of_use (hk : k.Lawful) (h : ctx.DefUse)
    (huses : ctx.usesOf (k.toDef this) = some uses) (huse : use ∈ uses)
    (ho : ctx.refsOf use.userOp = o.refs)
    (hidx : (k.get o).findIdx? (fun opd => opd.useUid = use.useUid) = some idx) :
    ∃ old, (k.get o)[idx]? = some old ∧ old.ref k.toDef = (use.useUid, k.toDef this) := by
  obtain ⟨hlt, huid, _⟩ := List.findIdx?_eq_some_iff_getElem.mp hidx
  refine ⟨_, List.getElem?_eq_getElem hlt, ?_⟩
  have huid : (k.get o)[idx].useUid = use.useUid := by simpa using huid
  have hthis : (use.useUid, k.toDef this) ∈ ctx.refsOf use.userOp :=
    h.consistent.refers _ (uses.map Use.pair) (by rw [usePairs, huses]; rfl) use.pair
      (List.mem_map_of_mem huse)
  have hold : (use.useUid, k.toDef (k.get o)[idx].defn) ∈ ctx.refsOf use.userOp := by
    rw [ho, (hk.refs_perm o).mem_iff, ← huid]
    exact List.mem_append_left _ (List.mem_map_of_mem (List.getElem_mem hlt))
  rw [Operand.ref, huid, h.consistent.def_unique hold hthis]

/-- A replaced use moves from one use set to another; the other uses stay. -/
theorem replaceUseWith_spec [DecidableEq δ] (hk : k.Lawful) (h : ctx.DefUse)
    (huses : ctx.usesOf (k.toDef this) = some uses) (huse : use ∈ uses)
    (hrep : ctx.replaceUseWith k this use other = some ctx') :
    ctx'.DefUse ∧ ∃ uses', ctx'.usesOf (k.toDef this) = some uses' ∧
      ∀ u ∈ uses, u ≠ use → u ∈ uses' := by
  obtain ⟨_, _, hrep⟩ := Option.bind_eq_some_iff.mp hrep
  obtain ⟨_, _, hrep⟩ := Option.bind_eq_some_iff.mp hrep
  by_cases heq : this = other
  · rw [if_pos heq] at hrep
    obtain rfl := Option.some.inj hrep
    exact ⟨h, uses, huses, fun u hu _ => hu⟩
  rw [if_neg heq] at hrep
  have hne : k.toDef this ≠ k.toDef other := fun hdef => heq (hk.toDef_injective hdef)
  obtain ⟨ctx₁, hadd, hrep⟩ := Option.bind_eq_some_iff.mp hrep
  obtain ⟨o, ho, hrep⟩ := Option.bind_eq_some_iff.mp hrep
  obtain ⟨idx, hidx, hrep⟩ := Option.bind_eq_some_iff.mp hrep
  obtain ⟨uses₂, huses₂, hset⟩ := Option.bind_eq_some_iff.mp hrep
  -- the use is recorded by `other`
  obtain ⟨usesO, husesO, hadd⟩ := Option.bind_eq_some_iff.mp hadd
  obtain ⟨_, _, hadd⟩ := Option.bind_eq_some_iff.mp hadd
  obtain ⟨ctx₂, hctx₁, husesOf₁, hsame₁⟩ := setUses_spec (usesO ++ [use]) husesO
  obtain rfl : ctx₂ = ctx₁ := Option.some.inj (hctx₁.symm.trans hadd)
  -- the operand refers to `other`
  have horefs : ctx.refsOf use.userOp = o.refs := by rw [← hsame₁.refs, refsOf_eq ho]
  obtain ⟨old, hold, holdref⟩ := operand_of_use hk h huses huse horefs hidx
  obtain ⟨hlt, _⟩ := List.getElem?_eq_some_iff.mp hold
  rw [modify_eq_set hold] at hset huses₂
  have huses₁ : (ctx₂.setOp use.userOp
      (k.set o ((k.get o).set idx ⟨old.useUid, other⟩))).usesOf (k.toDef this) = some uses := by
    rw [usesOf_setOp ho (hk.results_set o _), husesOf₁, update_of_ne hne, huses]
  obtain rfl := Option.some.inj (huses₁.symm.trans huses₂)
  -- `this` forgets the use
  obtain ⟨ctx₃, hctx', husesOf', hsame'⟩ := setUses_spec (uses.erase use) huses₁
  obtain rfl : ctx₃ = ctx' := Option.some.inj (hctx'.symm.trans hset)
  have huid : old.useUid = use.useUid := congrArg Prod.fst holdref
  have hrest := hk.refs_set_eraseIdx hold
  have hnew := hk.refs_set_set_eraseIdx ⟨old.useUid, other⟩ hlt
  rw [holdref, ← horefs] at hrest
  rw [Operand.ref, huid] at hnew
  have hrefs : ctx₃.refsOf = update ctx.refsOf use.userOp
      (k.set o ((k.get o).set idx ⟨use.useUid, other⟩)).refs := by
    rw [hsame'.refs, refsOf_setOp, hsame₁.refs, huid]
  refine ⟨⟨?_, ?_, ?_⟩, uses.erase use, by rw [husesOf', update_self], fun u hu hne =>
    (List.mem_erase_of_ne hne).mpr hu⟩
  · exact ((h.toFresh.of_sameIR hsame₁).setOp ho (hk.results_set o _)).of_sameIR hsame'
  · rw [hrefs, usePairs_of_usesOf husesOf', List.map_erase Use.pair_injective]
    have hpairs : (ctx₂.setOp use.userOp
        (k.set o ((k.get o).set idx ⟨old.useUid, other⟩))).usePairs =
          update ctx.usePairs (k.toDef other) (some (usesO.map Use.pair ++ [use.pair])) := by
      rw [← List.map_singleton, ← List.map_append, ← usePairs_of_usesOf husesOf₁]
      funext d
      rw [usePairs, usesOf_setOp ho (hk.results_set o _), usePairs]
    rw [hpairs]
    exact h.consistent.moveRef hne (by simp [usePairs, huses]) (by simp [usePairs, husesO])
      hrest hnew
  · intro x r hr
    rw [hrefs] at hr
    refine Nat.lt_of_lt_of_le ?_ (hsame₁.useCounter.trans hsame'.useCounter)
    by_cases hx : x = use.userOp
    · subst hx
      rw [update_self, hnew.mem_iff] at hr
      have hmem : ∀ {r}, r = (use.useUid, k.toDef this) ∨ r ∈ _ → r ∈ ctx.refsOf use.userOp :=
        fun hr => hrest.mem_iff.mp (List.mem_cons.mpr hr)
      rcases List.mem_cons.mp hr with rfl | hr
      · exact h.ids_lt _ (use.useUid, k.toDef this) (hmem (Or.inl rfl))
      · exact h.ids_lt _ _ (hmem (Or.inr hr))
    · rw [update_of_ne hx] at hr
      exact h.ids_lt x r hr

/-- Uses that `this` records can be replaced one after the other. -/
theorem replaceUses_defUse [DecidableEq δ] (hk : k.Lawful) (touched : List Use) (h : ctx.DefUse)
    (huses : ctx.usesOf (k.toDef this) = some uses) (hnodup : touched.Nodup)
    (hsub : touched ⊆ uses)
    (hrep : touched.foldlM (fun ctx use => ctx.replaceUseWith k this use other) ctx = some ctx') :
    ctx'.DefUse := by
  induction touched generalizing ctx uses with
  | nil =>
      obtain rfl := Option.some.inj hrep
      exact h
  | cons use touched ih =>
      rw [List.foldlM_cons] at hrep
      obtain ⟨ctx₁, hone, hrep⟩ := Option.bind_eq_some_iff.mp hrep
      obtain ⟨h₁, uses₁, huses₁, hkeep⟩ :=
        replaceUseWith_spec hk h huses (hsub List.mem_cons_self) hone
      rw [List.nodup_cons] at hnodup
      refine ih h₁ huses₁ hnodup.2 (fun u hu => ?_) hrep
      refine hkeep u (hsub (List.mem_cons_of_mem _ hu)) ?_
      rintro rfl
      exact hnodup.1 hu

theorem replaceSomeUses_defUse [DecidableEq δ] (hk : k.Lawful) (h : ctx.DefUse)
    {predicate : Use → Option Bool}
    (hrep : ctx.replaceSomeUses k this predicate other = some ctx') : ctx'.DefUse := by
  obtain ⟨uses, huses, hrep⟩ := Option.bind_eq_some_iff.mp hrep
  obtain ⟨touched, htouched, hrep⟩ := Option.bind_eq_some_iff.mp hrep
  have hsub := filterM_sublist htouched
  have hnodup : (uses.map Use.pair).Nodup :=
    h.consistent.uses_nodup (k.toDef this) _ (by rw [usePairs, huses]; rfl)
  exact replaceUses_defUse hk touched h huses ((List.Nodup.of_map _ hnodup).sublist hsub)
    hsub.subset hrep

end Operands

end Context

end Pliron
