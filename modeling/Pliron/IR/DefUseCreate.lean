/-
  Pliron.IR.DefUseCreate

  Values come and go without uses: the mutators of results and arguments, the
  creation of operations, regions and blocks, and the linking of what was created
  keep the def-use invariant.
-/

import Pliron.IR.DefUseSteps

namespace Pliron

open Pliron.Lib Function

namespace Context

variable {ctx ctx' : Context} {refs : OpPtr → List (Nat × Def)} {op : OpPtr} {o : Operation}
  {entity : DefiningEntity} {l l' : List ValueDef}

/-! ## The values of an entity -/

/-- With distinct identifiers, a value is found if and only if it is there. -/
theorem find?_valUid_eq_some (hl : (l.map ValueDef.valUid).Nodup) {uid : Nat} {e : ValueDef} :
    l.find? (fun e => decide (e.valUid = uid)) = some e ↔ e ∈ l ∧ e.valUid = uid := by
  constructor
  · intro h
    exact ⟨List.mem_of_find?_eq_some h, by simpa using List.find?_some h⟩
  · rintro ⟨he, rfl⟩
    cases hfind : l.find? (fun e' => decide (e'.valUid = e.valUid)) with
    | none => exact absurd (List.find?_eq_none.mp hfind e he) (by simp)
    | some e' =>
        have huid : e'.valUid = e.valUid := by simpa using List.find?_some hfind
        rw [List.inj_on_of_nodup_map hl (List.mem_of_find?_eq_some hfind) he huid]

/-- A value that is in both of two lists keeps its uses, one that is not has none. -/
theorem find?_unused (uid : Nat) (hl : (l.map ValueDef.valUid).Nodup)
    (hl' : (l'.map ValueDef.valUid).Nodup) (hold : ∀ e ∈ l, e ∉ l' → e.defNode.uses = [])
    (hnew : ∀ e ∈ l', e ∉ l → e.defNode.uses = []) :
    l'.find? (fun e => decide (e.valUid = uid)) = l.find? (fun e => decide (e.valUid = uid)) ∨
      (∀ e, l.find? (fun e => decide (e.valUid = uid)) = some e → e.defNode.uses = []) ∧
      ∀ e, l'.find? (fun e => decide (e.valUid = uid)) = some e → e.defNode.uses = [] := by
  by_cases hboth : ∃ e, e.valUid = uid ∧ e ∈ l ∧ e ∈ l'
  · obtain ⟨e, huid, he, he'⟩ := hboth
    rw [(find?_valUid_eq_some hl).mpr ⟨he, huid⟩, (find?_valUid_eq_some hl').mpr ⟨he', huid⟩]
    exact Or.inl rfl
  · refine Or.inr ⟨fun e he => ?_, fun e he => ?_⟩
    · obtain ⟨he, huid⟩ := (find?_valUid_eq_some hl).mp he
      exact hold e he (fun he' => hboth ⟨e, huid, he, he'⟩)
    · obtain ⟨he, huid⟩ := (find?_valUid_eq_some hl').mp he
      exact hnew e he (fun he' => hboth ⟨e, huid, he', he⟩)

theorem usePairs_nil {e : Option ValueDef} (he : ∀ e', e = some e' → e'.defNode.uses = []) :
    ((e.map (fun e => e.defNode.uses)).map (List.map Use.pair)).getD [] = [] := by
  cases e with
  | none => rfl
  | some e => simp [he e rfl]

/-- Entities may replace their unused values. -/
theorem setValueDefs_defUseOn (h : ctx.DefUseOn refs) (hl : ctx.valueDefs entity = some l)
    (hset : ctx.setValueDefs entity l' = some ctx') (hnodup : (l'.map ValueDef.valUid).Nodup)
    (hlt : ∀ e ∈ l', e.valUid < ctx.valueCounter)
    (hnew : ∀ e ∈ l', e ∉ l → e.defNode.uses = [])
    (hold : ∀ e ∈ l, e ∉ l' → e.defNode.uses = []) :
    ctx'.DefUseOn refs ∧ SameShape ctx ctx' := by
  obtain ⟨ctx₁, hctx₁, hvals, hblock, hsame⟩ := setValueDefs_spec l' hl
  obtain rfl : ctx₁ = ctx' := Option.some.inj (hctx₁.symm.trans hset)
  refine ⟨⟨⟨?_, ?_, ?_, ?_⟩, h.consistent.of_unused ?_, ?_⟩, hsame⟩
  · intro x m hm
    by_cases hx : x = entity
    · rw [hvals, hx, update_self] at hm
      rwa [← Option.some.inj hm]
    · rw [hvals, update_of_ne hx] at hm
      exact h.vals_nodup x m hm
  · intro x m hm v hv
    rw [hsame.valueCounter]
    by_cases hx : x = entity
    · rw [hvals, hx, update_self] at hm
      rw [← Option.some.inj hm] at hv
      exact hlt v hv
    · rw [hvals, update_of_ne hx] at hm
      exact h.vals_lt x m hm v hv
  · intro x hx
    rw [hsame.nextOp]
    exact h.op_lt x (fun hnone => hx ((hsame.op_none x).mpr hnone))
  · intro x hx
    rw [hsame.nextBlock]
    exact h.block_lt x (fun hnone => hx ((hsame.block_none x).mpr hnone))
  · intro d
    rcases d with v | block
    · by_cases hx : v.definingEntity = entity
      · have hfind := find?_unused v.valUid (h.vals_nodup entity l hl) hnodup hold hnew
        rw [usePairs, usePairs, usesOf_value, usesOf_value, hvals, hx, update_self, hl,
          Option.bind_some, Option.bind_some]
        rcases hfind with heq | ⟨hnil, hnil'⟩
        · exact Or.inl (by rw [heq])
        · exact Or.inr ⟨usePairs_nil hnil, usePairs_nil hnil'⟩
      · refine Or.inl ?_
        rw [usePairs, usePairs, usesOf_value, usesOf_value, hvals, update_of_ne hx]
    · exact Or.inl (by rw [usePairs, usePairs, hblock])
  · exact fun x r hr => Nat.lt_of_lt_of_le (h.ids_lt x r hr) hsame.useCounter

/-- Counting up takes nothing into use. -/
theorem DefUseOn.countValues (h : ctx.DefUseOn refs) {n : Nat} (hn : ctx.valueCounter ≤ n) :
    DefUseOn { ctx with valueCounter := n } refs where
  consistent := h.consistent
  ids_lt := h.ids_lt
  vals_nodup := h.vals_nodup
  vals_lt entity l hl v hv := Nat.lt_of_lt_of_le (h.vals_lt entity l hl v hv) hn
  op_lt := h.op_lt
  block_lt := h.block_lt

theorem addValue_defUse {ty : TypeHandle} (h : ctx.DefUse) (hl : ctx.valueDefs entity = some l)
    (hl' : l'.Perm (⟨⟨[]⟩, ctx.valueCounter, ty⟩ :: l))
    (hset : setValueDefs { ctx with valueCounter := ctx.valueCounter + 1 } entity l' = some ctx') :
    ctx'.DefUse := by
  have hlt := h.vals_lt entity l hl
  obtain ⟨h', hsame⟩ := setValueDefs_defUseOn (h.countValues (Nat.le_succ _)) hl hset
    (by
      rw [(hl'.map _).nodup_iff, List.map_cons, List.nodup_cons]
      refine ⟨fun hmem => ?_, h.vals_nodup entity l hl⟩
      obtain ⟨e, he, heq⟩ := List.mem_map.mp hmem
      have := hlt e he
      rw [heq] at this
      exact Nat.lt_irrefl _ this)
    (fun e he => by
      rcases List.mem_cons.mp (hl'.mem_iff.mp he) with rfl | he
      · exact Nat.lt_succ_self _
      · exact Nat.lt_succ_of_lt (hlt e he))
    (fun e he hne => by
      rcases List.mem_cons.mp (hl'.mem_iff.mp he) with rfl | he
      · rfl
      · exact absurd he hne)
    (fun e he hne => absurd (hl'.mem_iff.mpr (List.mem_cons_of_mem _ he)) hne)
  exact defUse_of_perm h' (fun x => by rw [hsame.refs]; rfl)

theorem insertValue_defUse {idx : Nat} {ty : TypeHandle} (h : ctx.DefUse)
    (hins : ctx.insertValue entity idx ty = some ctx') : ctx'.DefUse := by
  obtain ⟨l, hl, hins⟩ := Option.bind_eq_some_iff.mp hins
  obtain ⟨_, hidx, hset⟩ := Option.bind_eq_some_iff.mp hins
  rw [Option.guard_eq_some'] at hidx
  exact addValue_defUse h hl (List.perm_insertIdx _ l hidx) hset

theorem pushValue_defUse {ty : TypeHandle} (h : ctx.DefUse)
    (hpush : ctx.pushValue entity ty = some ctx') : ctx'.DefUse := by
  obtain ⟨l, hl, hset⟩ := Option.bind_eq_some_iff.mp hpush
  exact addValue_defUse h hl List.perm_append_comm hset

theorem removeValue_defUse {idx : Nat} (h : ctx.DefUse)
    (hrem : ctx.removeValue entity idx = some ctx') : ctx'.DefUse := by
  obtain ⟨l, hl, hrem⟩ := Option.bind_eq_some_iff.mp hrem
  obtain ⟨value, hvalue, hrem⟩ := Option.bind_eq_some_iff.mp hrem
  obtain ⟨uses, huses, hrem⟩ := Option.bind_eq_some_iff.mp hrem
  obtain ⟨_, hempty, hset⟩ := Option.bind_eq_some_iff.mp hrem
  obtain ⟨hidx, hget⟩ := List.getElem?_eq_some_iff.mp hvalue
  have hperm := List.getElem_cons_eraseIdx_perm hidx
  rw [hget] at hperm
  have hnodup := h.vals_nodup entity l hl
  have hnil : value.defNode.uses = [] := by
    have hfind : ctx.valueDef ⟨value.valUid, entity⟩ = some value := by
      rw [valueDef_eq, hl]
      exact (find?_valUid_eq_some hnodup).mpr ⟨hperm.mem_iff.mp List.mem_cons_self, rfl⟩
    rw [valueUses, hfind] at huses
    rw [Option.guard_eq_some', List.isEmpty_iff] at hempty
    exact (Option.some.inj huses).trans hempty
  have hsub : l.eraseIdx idx ⊆ l := (List.eraseIdx_sublist l idx).subset
  obtain ⟨h', hsame⟩ := setValueDefs_defUseOn h hl hset
    (hnodup.sublist ((List.eraseIdx_sublist l idx).map _))
    (fun e he => h.vals_lt entity l hl e (hsub he)) (fun e he hne => absurd (hsub he) hne)
    (fun e he hne => by
      rcases List.mem_cons.mp (hperm.mem_iff.mpr he) with rfl | he
      · exact hnil
      · exact absurd he hne)
  exact defUse_of_perm h' (fun x => by rw [hsame.refs])

theorem popValue_defUse (h : ctx.DefUse) (hpop : ctx.popValue entity = some ctx') :
    ctx'.DefUse := by
  obtain ⟨l, _, hpop⟩ := Option.bind_eq_some_iff.mp hpop
  obtain ⟨_, _, hpop⟩ := Option.bind_eq_some_iff.mp hpop
  exact removeValue_defUse h hpop

/-! ## New operations, regions and blocks -/

/-- New values have new identifiers and no uses. -/
theorem newValueDefs_spec {tys : List TypeHandle} (hnew : ctx.newValueDefs tys = (l, ctx')) :
    ctx' = { ctx with valueCounter := ctx.valueCounter + tys.length } ∧
      l.map ValueDef.valUid = List.range' ctx.valueCounter tys.length ∧
      ∀ e ∈ l, e.defNode.uses = [] := by
  induction tys generalizing ctx l with
  | nil =>
      obtain ⟨rfl, rfl⟩ := Prod.mk.inj hnew
      exact ⟨rfl, rfl, by simp⟩
  | cons ty tys ih =>
      obtain ⟨rfl, rfl⟩ := Prod.mk.inj hnew
      obtain ⟨hctx, huids, hnil⟩ := ih (Prod.mk.eta (p := newValueDefs
        { ctx with valueCounter := ctx.valueCounter + 1 } tys)).symm
      refine ⟨?_, ?_, ?_⟩
      · rw [hctx, List.length_cons, Nat.add_assoc, Nat.add_comm 1]
      · rw [List.map_cons, huids, List.length_cons, List.range'_succ]
      · exact List.forall_mem_cons.mpr ⟨rfl, hnil⟩

/-- The first values of an entity. -/
theorem newValues_defUse {tys : List TypeHandle} (entity : DefiningEntity) (h : ctx.DefUse)
    (hl : ctx.valueDefs entity = some []) (hnew : ctx.newValueDefs tys = (l, ctx'))
    {ctx'' : Context} (hset : ctx'.setValueDefs entity l = some ctx'') : ctx''.DefUse := by
  obtain ⟨rfl, huids, hnil⟩ := newValueDefs_spec hnew
  obtain ⟨h', hsame⟩ := setValueDefs_defUseOn (h.countValues (Nat.le_add_right _ _)) hl hset
    (by
      rw [huids]
      exact List.nodup_range')
    (fun e he => by
      have hmem : e.valUid ∈ l.map ValueDef.valUid := List.mem_map_of_mem he
      rw [huids, List.mem_range'_1] at hmem
      exact hmem.2)
    (fun e he _ => hnil e he) (by simp)
  exact defUse_of_perm h' (fun x => by rw [hsame.refs]; rfl)

section NewOperands

variable {δ : Type} {k : OperandKind δ} {defns : List δ} {opds : List (Operand δ)}

theorem newOperands_spec (h : ctx.DefUseOn refs)
    (hnew : ctx.newOperands k defns op = some (opds, ctx')) :
    ctx'.DefUseOn (update refs op (opds.map (Operand.ref k.toDef) ++ refs op)) ∧
      SameIR ctx ctx' := by
  induction defns generalizing ctx refs opds with
  | nil =>
      obtain ⟨rfl, rfl⟩ := Prod.mk.inj (Option.some.inj hnew)
      refine ⟨?_, SameIR.refl ctx⟩
      rwa [List.map_nil, List.nil_append, update_eq_self]
  | cons defn defns ih =>
      obtain ⟨⟨opd, ctx₁⟩, hone, hnew⟩ := Option.bind_eq_some_iff.mp hnew
      obtain ⟨⟨opds', ctx₂⟩, hrest, hnew⟩ := Option.bind_eq_some_iff.mp hnew
      obtain ⟨rfl, rfl⟩ := Prod.mk.inj (Option.some.inj hnew)
      obtain ⟨h₁, hsame₁⟩ := newOperand_spec h hone
      obtain ⟨h₂, hsame₂⟩ := ih h₁ hrest
      refine ⟨h₂.perm (fun x => ?_), hsame₁.trans hsame₂⟩
      rw [update_idem, update_self]
      by_cases hx : x = op
      · subst hx
        rw [update_self, update_self, List.map_cons]
        exact List.perm_middle.symm
      · rw [update_of_ne hx, update_of_ne hx]

/-- The first operands of an operation. -/
theorem newOperands_defUse (hk : k.Lawful) (h : ctx.DefUse) (ho : ctx.operations op = some o)
    (hnil : k.get o = []) (hnew : ctx.newOperands k defns op = some (opds, ctx')) {o' : Operation}
    (ho' : ctx'.operations op = some o') : (ctx'.setOp op (k.set o' opds)).DefUse := by
  obtain ⟨h', hsame⟩ := newOperands_spec h hnew
  refine defUse_setOp h' ho' (hk.results_set o' _) ?_ (fun x hx => ?_)
  · obtain ⟨o₁, ho₁, hopds, hsuccs⟩ := hsame.operation ho'
    obtain rfl := Option.some.inj (ho.symm.trans ho₁)
    have hget : k.get o' = [] := (hk.get_congr _ _ hopds hsuccs).trans hnil
    have hset : k.set o' [] = o' := by rw [← hget, hk.set_get]
    rw [update_self, ← hsame.refs, refsOf_eq ho']
    have hrefs := hk.refs_set o' opds
    rwa [hset] at hrefs
  · rw [update_of_ne hx, hsame.refs]

end NewOperands

/-- An entity without values is added. -/
theorem Fresh.alloc (h : ctx.Fresh) (hvals : ctx'.valueDefs = update ctx.valueDefs entity (some []))
    (hcount : ctx'.valueCounter = ctx.valueCounter)
    (hop : ∀ op, ctx'.operations op ≠ none → op.idx < ctx'.nextOp)
    (hblock : ∀ block, ctx'.basicBlocks block ≠ none → block.idx < ctx'.nextBlock) :
    ctx'.Fresh := by
  have hcases : ∀ {x l}, ctx'.valueDefs x = some l → l = [] ∨ ctx.valueDefs x = some l := by
    intro x l hl
    by_cases hx : x = entity
    · rw [hvals, hx, update_self] at hl
      exact Or.inl (Option.some.inj hl).symm
    · rw [hvals, update_of_ne hx] at hl
      exact Or.inr hl
  refine ⟨fun x l hl => ?_, fun x l hl v hv => ?_, hop, hblock⟩
  · rcases hcases hl with rfl | hl
    · exact List.nodup_nil
    · exact h.vals_nodup x l hl
  · rcases hcases hl with rfl | hl
    · exact absurd hv List.not_mem_nil
    · exact hcount ▸ h.vals_lt x l hl v hv

theorem valueUses_alloc (hvals : ctx'.valueDefs = update ctx.valueDefs entity (some []))
    (hnone : ctx.valueDefs entity = none) (v : Value) :
    ctx'.usePairs (.value v) = ctx.usePairs (.value v) := by
  rw [usePairs, usePairs, usesOf_value, usesOf_value, hvals]
  by_cases hx : v.definingEntity = entity
  · rw [hx, update_self, hnone]
    rfl
  · rw [update_of_ne hx]

/-- The operation as it is first allocated. -/
theorem allocOp_defUse (concreteOp : ConcreteOpInfo) (h : ctx.DefUse) :
    DefUse { ctx.setOp ⟨ctx.nextOp⟩ { concreteOp := concreteOp } with
      nextOp := ctx.nextOp + 1 } := by
  have hnone : ctx.operations ⟨ctx.nextOp⟩ = none := by
    by_contra hne
    exact Nat.lt_irrefl _ (h.op_lt _ hne)
  have hvals : (ctx.setOp ⟨ctx.nextOp⟩ { concreteOp := concreteOp }).valueDefs =
      update ctx.valueDefs (.op ⟨ctx.nextOp⟩) (some []) := by
    funext entity
    rcases entity with x | x
    · by_cases hx : x = ⟨ctx.nextOp⟩
      · subst hx
        simp [valueDefs, setOp_operations]
      · simp [valueDefs, setOp_operations, hx]
    · rw [update_of_ne (by simp)]
      rfl
  have hrefs : (ctx.setOp ⟨ctx.nextOp⟩ { concreteOp := concreteOp }).refsOf = ctx.refsOf := by
    rw [refsOf_setOp]
    refine update_eq_self_iff.mpr ?_
    simp [refsOf, hnone, Operation.refs]
  have huses : (ctx.setOp ⟨ctx.nextOp⟩ { concreteOp := concreteOp }).usePairs = ctx.usePairs := by
    funext d
    rcases d with v | _
    · exact valueUses_alloc hvals (by simp [valueDefs, hnone]) v
    · rfl
  refine ⟨h.toFresh.alloc hvals rfl (fun x hx => ?_) h.block_lt, ?_, ?_⟩
  · by_cases heq : x = ⟨ctx.nextOp⟩
    · subst heq
      exact Nat.lt_succ_self _
    · have hx : ctx.operations x ≠ none := by
        simpa [setOp_operations, heq] using hx
      exact Nat.lt_succ_of_lt (h.op_lt x hx)
  · show Consistent (ctx.setOp ⟨ctx.nextOp⟩ { concreteOp := concreteOp }).refsOf
      (ctx.setOp ⟨ctx.nextOp⟩ { concreteOp := concreteOp }).usePairs
    rw [hrefs, huses]
    exact h.consistent
  · intro x r hr
    have hr : r ∈ (ctx.setOp ⟨ctx.nextOp⟩ { concreteOp := concreteOp }).refsOf x := hr
    rw [hrefs] at hr
    exact h.ids_lt x r hr

/-- The block as it is first allocated. -/
theorem allocBlock_defUse (label : Option String) (h : ctx.DefUse) :
    DefUse { ctx.setBlock ⟨ctx.nextBlock⟩ { label := label } with
      nextBlock := ctx.nextBlock + 1 } := by
  have hnone : ctx.basicBlocks ⟨ctx.nextBlock⟩ = none := by
    by_contra hne
    exact Nat.lt_irrefl _ (h.block_lt _ hne)
  have hvals : (ctx.setBlock ⟨ctx.nextBlock⟩ { label := label }).valueDefs =
      update ctx.valueDefs (.block ⟨ctx.nextBlock⟩) (some []) := by
    funext entity
    rcases entity with x | x
    · rw [update_of_ne (by simp)]
      rfl
    · by_cases hx : x = ⟨ctx.nextBlock⟩
      · subst hx
        simp [valueDefs, setBlock_basicBlocks]
      · simp [valueDefs, setBlock_basicBlocks, hx]
  refine ⟨h.toFresh.alloc hvals rfl h.op_lt (fun x hx => ?_), ?_, h.ids_lt⟩
  · by_cases heq : x = ⟨ctx.nextBlock⟩
    · subst heq
      exact Nat.lt_succ_self _
    · have hx : ctx.basicBlocks x ≠ none := by
        simpa [setBlock_basicBlocks, heq] using hx
      exact Nat.lt_succ_of_lt (h.block_lt x hx)
  · refine h.consistent.of_unused (fun d => ?_)
    rcases d with v | x
    · exact Or.inl (valueUses_alloc hvals (by simp [valueDefs, hnone]) v)
    · by_cases hx : x = ⟨ctx.nextBlock⟩
      · subst hx
        exact Or.inr ⟨by simp [usePairs, usesOf, hnone],
          by simp [usePairs, usesOf, setBlock_basicBlocks]⟩
      · refine Or.inl ?_
        simp [usePairs, usesOf, setBlock_basicBlocks, hx]

/-- Regions have no part in the chains. -/
theorem newRegion_defUse {region : RegionPtr} (h : ctx.DefUse) (op : OpPtr)
    (hnew : ctx.newRegion op = (region, ctx')) : ctx'.DefUse ∧ ctx'.operations = ctx.operations := by
  obtain ⟨rfl, rfl⟩ := Prod.mk.inj hnew
  exact ⟨⟨⟨h.vals_nodup, h.vals_lt, h.op_lt, h.block_lt⟩, h.consistent, h.ids_lt⟩, rfl⟩

theorem newRegions_defUse {n : Nat} {regions : List RegionPtr} (h : ctx.DefUse)
    (hnew : ctx.newRegions op n = (regions, ctx')) :
    ctx'.DefUse ∧ ctx'.operations = ctx.operations := by
  induction n generalizing ctx regions with
  | zero =>
      obtain ⟨rfl, rfl⟩ := Prod.mk.inj hnew
      exact ⟨h, rfl⟩
  | succ n ih =>
      obtain ⟨rfl, rfl⟩ := Prod.mk.inj hnew
      obtain ⟨h₁, hops₁⟩ := newRegion_defUse h op rfl
      obtain ⟨h₂, hops₂⟩ := ih h₁ rfl
      exact ⟨h₂, hops₂.trans hops₁⟩

/-- The chains do not depend on the parts of an operation other than values and references. -/
theorem DefUse.setOp {o' : Operation} (h : ctx.DefUse) (ho : ctx.operations op = some o)
    (hresults : o'.results = o.results) (hrefs : o'.refs = o.refs) : (ctx.setOp op o').DefUse :=
  defUse_setOp h ho hresults (by rw [hrefs, refsOf_eq ho]) (fun _ _ => List.Perm.refl _)

theorem newOp_defUse {concreteOp : ConcreteOpInfo} {resultTypes : List TypeHandle}
    {operands : List Value} {successors : List BlockPtr} {numRegions : Nat} (h : ctx.DefUse)
    (hnew : ctx.newOp concreteOp resultTypes operands successors numRegions = some (op, ctx')) :
    ctx'.DefUse := by
  obtain ⟨o₁, ho₁, hnew⟩ := Option.bind_eq_some_iff.mp hnew
  obtain ⟨⟨opds, ctx₂⟩, hopds, hnew⟩ := Option.bind_eq_some_iff.mp hnew
  obtain ⟨o₂, ho₂, hnew⟩ := Option.bind_eq_some_iff.mp hnew
  obtain ⟨⟨succs, ctx₃⟩, hsuccs, hnew⟩ := Option.bind_eq_some_iff.mp hnew
  obtain ⟨o₃, ho₃, hnew⟩ := Option.bind_eq_some_iff.mp hnew
  obtain ⟨o₄, ho₄, hnew⟩ := Option.bind_eq_some_iff.mp hnew
  obtain ⟨hop, hctx'⟩ := Prod.mk.inj (Option.some.inj hnew)
  -- the results
  have h₀ := allocOp_defUse concreteOp h
  have hvalues := (Prod.mk.eta (p := newValueDefs { ctx.setOp ⟨ctx.nextOp⟩
    { concreteOp := concreteOp } with nextOp := ctx.nextOp + 1 } resultTypes)).symm
  obtain rfl : { concreteOp := concreteOp } = o₁ := by
    rw [(newValueDefs_spec hvalues).1] at ho₁
    simpa [setOp] using ho₁
  have h₁ := newValues_defUse (.op ⟨ctx.nextOp⟩) h₀ (by simp [valueDefs, setOp]) hvalues
    (by rw [setValueDefs, ho₁]; rfl)
  -- the operands and the successors
  have hself : ∀ {c : Context} {x : OpPtr} {o' : Operation}, (c.setOp x o').operations x = some o' :=
    by simp [setOp]
  have h₂ := newOperands_defUse operandKind_lawful h₁ hself rfl hopds ho₂
  have hsucc : o₂.successors = [] := by
    obtain ⟨o, ho, _, hsuccs⟩ := (newOperands_spec h₁ hopds).2.operation ho₂
    rw [hself] at ho
    rw [hsuccs, ← Option.some.inj ho]
  have h₃ := newOperands_defUse successorKind_lawful h₂ hself hsucc hsuccs ho₃
  -- the regions
  obtain ⟨h₄, _⟩ := newRegions_defUse (n := numRegions) h₃ (Prod.mk.eta (p := newRegions _ _ _)).symm
  rw [← hctx']
  exact h₄.setOp ho₄ rfl rfl

theorem addRegion_defUse {region : RegionPtr} (h : ctx.DefUse)
    (hadd : ctx.addRegion op = some (region, ctx')) : ctx'.DefUse := by
  obtain ⟨o, ho, hadd⟩ := Option.bind_eq_some_iff.mp hadd
  obtain ⟨_, rfl⟩ := Prod.mk.inj (Option.some.inj hadd)
  exact (newRegion_defUse h op rfl).1.setOp ho rfl rfl

theorem newBlock_defUse {label : Option String} {argTypes : List TypeHandle} {block : BlockPtr}
    (h : ctx.DefUse) (hnew : ctx.newBlock label argTypes = some (block, ctx')) : ctx'.DefUse := by
  obtain ⟨b, hb, hnew⟩ := Option.bind_eq_some_iff.mp hnew
  obtain ⟨hblock, hctx'⟩ := Prod.mk.inj (Option.some.inj hnew)
  have hvalues := (Prod.mk.eta (p := newValueDefs { ctx.setBlock ⟨ctx.nextBlock⟩
    { label := label } with nextBlock := ctx.nextBlock + 1 } argTypes)).symm
  rw [← hctx']
  exact newValues_defUse (.block ⟨ctx.nextBlock⟩) (allocBlock_defUse label h)
    (by simp [valueDefs, setBlock]) hvalues (by rw [setValueDefs, hb]; rfl)

/-! ## Linking -/

theorem usePairs_setOp {o' : Operation} (ho : ctx.operations op = some o)
    (hresults : o'.results = o.results) : (ctx.setOp op o').usePairs = ctx.usePairs := by
  funext d
  rw [usePairs, usesOf_setOp ho hresults, usePairs]

theorem usePairs_setBlock {block : BlockPtr} {b b' : BasicBlock}
    (hb : ctx.basicBlocks block = some b) (hargs : b'.args = b.args) (hpreds : b'.preds = b.preds) :
    (ctx.setBlock block b').usePairs = ctx.usePairs := by
  funext d
  rcases d with v | x
  · rw [usePairs, usePairs, usesOf_value, usesOf_value, valueDefs_setBlock _ hb hargs]
  · by_cases hx : x = block
    · simp [usePairs, usesOf, setBlock_basicBlocks, hx, hb, hpreds]
    · simp [usePairs, usesOf, setBlock_basicBlocks, hx]

/-- The chains depend on the arguments and the predecessors of a block only. -/
theorem DefUse.setBlock {block : BlockPtr} {b b' : BasicBlock} (h : ctx.DefUse)
    (hb : ctx.basicBlocks block = some b) (hargs : b'.args = b.args) (hpreds : b'.preds = b.preds) :
    (ctx.setBlock block b').DefUse := by
  have hvals := valueDefs_setBlock _ hb hargs
  refine ⟨⟨?_, ?_, h.op_lt, fun x hx => ?_⟩, ?_, h.ids_lt⟩
  · rw [hvals]
    exact h.vals_nodup
  · rw [hvals]
    exact h.vals_lt
  · by_cases heq : x = block
    · exact h.block_lt x (by rw [heq, hb]; simp)
    · rw [setBlock_basicBlocks, if_neg heq] at hx
      exact h.block_lt x hx
  · rw [usePairs_setBlock hb hargs hpreds]
    exact h.consistent

theorem linkOp_defUse {point : InsertPoint OpPtr BlockPtr} (h : ctx.DefUse)
    (hlink : ctx.linkOp op point = some ctx') : ctx'.DefUse := by
  obtain ⟨o, ho, hlink⟩ := Option.bind_eq_some_iff.mp hlink
  obtain ⟨_, _, hlink⟩ := Option.bind_eq_some_iff.mp hlink
  obtain ⟨block, _, hlink⟩ := Option.bind_eq_some_iff.mp hlink
  obtain ⟨b, hb, hlink⟩ := Option.bind_eq_some_iff.mp hlink
  obtain rfl := Option.some.inj hlink
  refine DefUse.setBlock (h.setOp ho ?_ ?_) hb ?_ ?_ <;> rfl

theorem unlinkOp_defUse (h : ctx.DefUse) (hunlink : ctx.unlinkOp op = some ctx') :
    ctx'.DefUse := by
  obtain ⟨o, ho, hunlink⟩ := Option.bind_eq_some_iff.mp hunlink
  obtain ⟨block, _, hunlink⟩ := Option.bind_eq_some_iff.mp hunlink
  obtain ⟨b, hb, hunlink⟩ := Option.bind_eq_some_iff.mp hunlink
  obtain rfl := Option.some.inj hunlink
  refine DefUse.setBlock (h.setOp ho ?_ ?_) hb ?_ ?_ <;> rfl

/-- The chains do not depend on the blocks of a region. -/
theorem DefUse.setRegion {region : RegionPtr} {r : Region} (h : ctx.DefUse) :
    (ctx.setRegion region r).DefUse :=
  ⟨⟨h.vals_nodup, h.vals_lt, h.op_lt, h.block_lt⟩, h.consistent, h.ids_lt⟩

theorem linkBlock_defUse {block : BlockPtr} {point : InsertPoint BlockPtr RegionPtr}
    (h : ctx.DefUse) (hlink : ctx.linkBlock block point = some ctx') : ctx'.DefUse := by
  obtain ⟨b, hb, hlink⟩ := Option.bind_eq_some_iff.mp hlink
  obtain ⟨_, _, hlink⟩ := Option.bind_eq_some_iff.mp hlink
  obtain ⟨region, _, hlink⟩ := Option.bind_eq_some_iff.mp hlink
  obtain ⟨r, _, hlink⟩ := Option.bind_eq_some_iff.mp hlink
  obtain rfl := Option.some.inj hlink
  refine DefUse.setRegion (h.setBlock hb ?_ ?_) <;> rfl

theorem unlinkBlock_defUse {block : BlockPtr} (h : ctx.DefUse)
    (hunlink : ctx.unlinkBlock block = some ctx') : ctx'.DefUse := by
  obtain ⟨b, hb, hunlink⟩ := Option.bind_eq_some_iff.mp hunlink
  obtain ⟨region, _, hunlink⟩ := Option.bind_eq_some_iff.mp hunlink
  obtain ⟨r, _, hunlink⟩ := Option.bind_eq_some_iff.mp hunlink
  obtain rfl := Option.some.inj hunlink
  refine DefUse.setRegion (h.setBlock hb ?_ ?_) <;> rfl

end Context

end Pliron
