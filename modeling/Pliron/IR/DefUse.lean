/-
  Pliron.IR.DefUse

  The def-use chains of the IR.

  `refsOf` and `usePairs` are the two sides of the chains: what the operands and
  successors of an operation refer to, and the uses that a value or a block
  records.  Every mutator adds, removes or redirects references one at a time, so
  its lemma tracks the references that the use sets describe at each step, which
  in between are not those that the operations hold.
-/

import Pliron.IR.Mutate
import Pliron.Lib.DefUse

namespace Pliron

open Pliron.Lib Function

/-! ## The two sides -/

/-- A reference made by an operand, with the identifier of the use. -/
def Operand.ref {δ : Type} (toDef : δ → Def) (opd : Operand δ) : Nat × Def :=
  (opd.useUid, toDef opd.defn)

/-- All references of an operation. -/
def Operation.refs (o : Operation) : List (Nat × Def) :=
  o.operands.map (Operand.ref .value) ++ o.successors.map (Operand.ref .block)

/-- A use as a pair of its user and its identifier. -/
def Use.pair (u : Use) : OpPtr × Nat := (u.userOp, u.useUid)

theorem Use.pair_injective : Injective Use.pair := by
  rintro ⟨op, uid⟩ ⟨op', uid'⟩ h
  simpa [Use.pair] using h

namespace Context

variable (ctx : Context)

def refsOf (op : OpPtr) : List (Nat × Def) := ((ctx.operations op).map Operation.refs).getD []

def usePairs (d : Def) : Option (List (OpPtr × Nat)) := (ctx.usesOf d).map (List.map Use.pair)

/-- What the counters hand out next is not in use yet. -/
structure Fresh : Prop where
  vals_nodup : ∀ entity l, ctx.valueDefs entity = some l → (l.map ValueDef.valUid).Nodup
  vals_lt : ∀ entity l, ctx.valueDefs entity = some l → ∀ v ∈ l, v.valUid < ctx.valueCounter
  op_lt : ∀ op, ctx.operations op ≠ none → op.idx < ctx.nextOp
  block_lt : ∀ block, ctx.basicBlocks block ≠ none → block.idx < ctx.nextBlock

/-- The use sets describe the references `refs`, and identifiers are fresh. -/
structure DefUseOn (refs : OpPtr → List (Nat × Def)) : Prop extends ctx.Fresh where
  consistent : Consistent refs ctx.usePairs
  ids_lt : ∀ op, ∀ r ∈ refs op, r.1 < ctx.useCounter

/-- The def-use invariant: the use sets describe what the operations refer to. -/
def DefUse : Prop := ctx.DefUseOn ctx.refsOf

/-- What changes of the values of an entity leave alone. -/
structure SameShape (ctx ctx' : Context) : Prop where
  operands : ∀ op, (ctx'.operations op).map Operation.operands =
    (ctx.operations op).map Operation.operands
  successors : ∀ op, (ctx'.operations op).map Operation.successors =
    (ctx.operations op).map Operation.successors
  useCounter : ctx.useCounter ≤ ctx'.useCounter
  valueCounter : ctx'.valueCounter = ctx.valueCounter
  nextOp : ctx'.nextOp = ctx.nextOp
  nextBlock : ctx'.nextBlock = ctx.nextBlock
  block_none : ∀ block, ctx'.basicBlocks block = none ↔ ctx.basicBlocks block = none
  children : ctx'.childNodes = ctx.childNodes
  allocated : ctx'.isAllocated = ctx.isAllocated

/-- What changes of use sets leave alone. -/
structure SameIR (ctx ctx' : Context) : Prop extends SameShape ctx ctx' where
  valUids : ∀ entity, (ctx'.valueDefs entity).map (List.map ValueDef.valUid) =
    (ctx.valueDefs entity).map (List.map ValueDef.valUid)

variable {ctx} {ctx' ctx'' : Context} {op : OpPtr} {o o' : Operation} {d : Def}

namespace SameShape

theorem refl (ctx : Context) : SameShape ctx ctx :=
  ⟨fun _ => rfl, fun _ => rfl, Nat.le_refl _, rfl, rfl, rfl, fun _ => Iff.rfl, rfl, rfl⟩

theorem trans (h : SameShape ctx ctx') (h' : SameShape ctx' ctx'') : SameShape ctx ctx'' where
  operands x := (h'.operands x).trans (h.operands x)
  successors x := (h'.successors x).trans (h.successors x)
  useCounter := Nat.le_trans h.useCounter h'.useCounter
  valueCounter := h'.valueCounter.trans h.valueCounter
  nextOp := h'.nextOp.trans h.nextOp
  nextBlock := h'.nextBlock.trans h.nextBlock
  block_none x := (h'.block_none x).trans (h.block_none x)
  children := h'.children.trans h.children
  allocated := h'.allocated.trans h.allocated

theorem op_none (h : SameShape ctx ctx') (op : OpPtr) :
    ctx'.operations op = none ↔ ctx.operations op = none := by
  rw [← Option.map_eq_none_iff (f := Operation.operands), h.operands, Option.map_eq_none_iff]

theorem operation (h : SameShape ctx ctx') (ho : ctx'.operations op = some o') :
    ∃ o, ctx.operations op = some o ∧ o'.operands = o.operands ∧
      o'.successors = o.successors := by
  have hopds := h.operands op
  have hsuccs := h.successors op
  rw [ho, Option.map_some] at hopds hsuccs
  obtain ⟨o, ho, hopds⟩ := Option.map_eq_some_iff.mp hopds.symm
  rw [ho, Option.map_some] at hsuccs
  exact ⟨o, ho, hopds.symm, Option.some.inj hsuccs⟩

theorem refs (h : SameShape ctx ctx') : ctx'.refsOf = ctx.refsOf := by
  funext op
  cases ho : ctx'.operations op with
  | none => simp [refsOf, ho, (h.op_none op).mp ho]
  | some o' =>
      obtain ⟨o, ho', hopds, hsuccs⟩ := h.operation ho
      simp [refsOf, ho, ho', Operation.refs, hopds, hsuccs]

end SameShape

theorem SameIR.refl (ctx : Context) : SameIR ctx ctx := ⟨SameShape.refl ctx, fun _ => rfl⟩

theorem SameIR.trans (h : SameIR ctx ctx') (h' : SameIR ctx' ctx'') : SameIR ctx ctx'' :=
  ⟨h.toSameShape.trans h'.toSameShape, fun x => (h'.valUids x).trans (h.valUids x)⟩

/-! ## Writing use sets -/

variable {refs : OpPtr → List (Nat × Def)}

theorem find?_modifyFirst {l : List ValueDef} {uid uid' : Nat} {uses : List Use} :
    (modifyFirst (fun e : ValueDef => decide (e.valUid = uid))
        (fun e => { e with defNode := ⟨uses⟩ }) l).find? (fun e => decide (e.valUid = uid')) =
      if uid' = uid then (l.find? (fun e => decide (e.valUid = uid))).map
        (fun e => { e with defNode := ⟨uses⟩ })
      else l.find? (fun e => decide (e.valUid = uid')) := by
  induction l with
  | nil => simp [modifyFirst]
  | cons e l ih =>
      by_cases he : e.valUid = uid
      · by_cases heq : uid' = uid
        · simp [modifyFirst, he, heq]
        · simp [modifyFirst, he, heq, Ne.symm heq]
      · have hcons : modifyFirst (fun e : ValueDef => decide (e.valUid = uid))
            (fun e => { e with defNode := ⟨uses⟩ }) (e :: l) =
            e :: modifyFirst (fun e : ValueDef => decide (e.valUid = uid))
              (fun e => { e with defNode := ⟨uses⟩ }) l := by
          simp [modifyFirst, he]
        rw [hcons, List.find?_cons, List.find?_cons, List.find?_cons, ih]
        by_cases heq : uid' = uid
        · simp [heq, he]
        · simp only [if_neg heq]

theorem map_valUid_modifyFirst (l : List ValueDef) (p : ValueDef → Bool) (uses : List Use) :
    (modifyFirst p (fun e => { e with defNode := ⟨uses⟩ }) l).map ValueDef.valUid =
      l.map ValueDef.valUid := by
  induction l with
  | nil => rfl
  | cons e l ih =>
      rw [modifyFirst]
      split
      · rfl
      · rw [List.map_cons, List.map_cons, ih]

theorem setOp_operations (x : OpPtr) : (ctx.setOp op o).operations x =
    if x = op then some o else ctx.operations x := by
  by_cases h : x = op <;> simp [setOp, h]

theorem setBlock_basicBlocks {b : BasicBlock} {block : BlockPtr} (x : BlockPtr) :
    (ctx.setBlock block b).basicBlocks x = if x = block then some b else ctx.basicBlocks x := by
  by_cases h : x = block <;> simp [setBlock, h]

theorem valueDef_eq (v : Value) : ctx.valueDef v =
    (ctx.valueDefs v.definingEntity).bind (List.find? (fun e => decide (e.valUid = v.valUid))) := by
  obtain ⟨uid, op | block⟩ := v
  · cases h : ctx.operations op <;> simp [valueDef, valueDefs, h]
  · cases h : ctx.basicBlocks block <;> simp [valueDef, valueDefs, h]

theorem usesOf_value (v : Value) : ctx.usesOf (.value v) =
    ((ctx.valueDefs v.definingEntity).bind
      (List.find? (fun e => decide (e.valUid = v.valUid)))).map (fun e => e.defNode.uses) := by
  rw [usesOf, valueUses, valueDef_eq]

theorem valueDefs_setOp (ho : ctx.operations op = some o) (hresults : o'.results = o.results) :
    (ctx.setOp op o').valueDefs = ctx.valueDefs := by
  funext entity
  rcases entity with x | _
  · by_cases hx : x = op
    · simp [valueDefs, setOp_operations, hx, ho, hresults]
    · simp [valueDefs, setOp_operations, hx]
  · rfl

theorem usesOf_setOp (ho : ctx.operations op = some o) (hresults : o'.results = o.results) :
    (ctx.setOp op o').usesOf = ctx.usesOf := by
  funext d
  rcases d with v | _
  · rw [usesOf_value, usesOf_value, valueDefs_setOp ho hresults]
  · rfl

theorem childNodes_setOp (ho : ctx.operations op = some o) (hregions : o'.regions = o.regions) :
    (ctx.setOp op o').childNodes = ctx.childNodes := by
  funext node
  rcases node with x | _ | _
  · by_cases hx : x = op
    · simp [childNodes, opRegions, setOp_operations, hx, ho, hregions]
    · simp [childNodes, opRegions, setOp_operations, hx]
  · rfl
  · rfl

theorem isAllocated_setOp (ho : ctx.operations op = some o) :
    (ctx.setOp op o').isAllocated = ctx.isAllocated := by
  funext node
  rcases node with x | _ | _
  · by_cases hx : x = op
    · simp [isAllocated, setOp_operations, hx, ho]
    · simp [isAllocated, setOp_operations, hx]
  · rfl
  · rfl

/-- Overwriting an operation, up to its values. -/
theorem setOp_sameShape (ho : ctx.operations op = some o) (hopds : o'.operands = o.operands)
    (hsuccs : o'.successors = o.successors) (hregions : o'.regions = o.regions) :
    SameShape ctx (ctx.setOp op o') where
  operands x := by
    by_cases hx : x = op
    · simp [setOp_operations, hx, ho, hopds]
    · simp [setOp_operations, hx]
  successors x := by
    by_cases hx : x = op
    · simp [setOp_operations, hx, ho, hsuccs]
    · simp [setOp_operations, hx]
  useCounter := Nat.le_refl _
  valueCounter := rfl
  nextOp := rfl
  nextBlock := rfl
  block_none _ := Iff.rfl
  children := childNodes_setOp ho hregions
  allocated := isAllocated_setOp ho

/-- Overwriting a block, up to its values. -/
theorem setBlock_sameShape {block : BlockPtr} {b b' : BasicBlock}
    (hb : ctx.basicBlocks block = some b) (hops : b'.ops = b.ops) :
    SameShape ctx (ctx.setBlock block b') where
  operands _ := rfl
  successors _ := rfl
  useCounter := Nat.le_refl _
  valueCounter := rfl
  nextOp := rfl
  nextBlock := rfl
  block_none x := by
    by_cases hx : x = block
    · simp [setBlock_basicBlocks, hx, hb]
    · simp [setBlock_basicBlocks, hx]
  children := by
    funext node
    rcases node with _ | x | _
    · rfl
    · by_cases hx : x = block
      · simp [childNodes, blockOps, setBlock_basicBlocks, hx, hb, hops]
      · simp [childNodes, blockOps, setBlock_basicBlocks, hx]
    · rfl
  allocated := by
    funext node
    rcases node with _ | x | _
    · rfl
    · by_cases hx : x = block
      · simp [isAllocated, setBlock_basicBlocks, hx, hb]
      · simp [isAllocated, setBlock_basicBlocks, hx]
    · rfl

theorem valueDefs_setBlock {block : BlockPtr} {b : BasicBlock} (b' : BasicBlock)
    (hb : ctx.basicBlocks block = some b) (hargs : b'.args = b.args) :
    (ctx.setBlock block b').valueDefs = ctx.valueDefs := by
  funext entity
  rcases entity with _ | x
  · rfl
  · by_cases hx : x = block
    · simp [valueDefs, setBlock_basicBlocks, hx, hb, hargs]
    · simp [valueDefs, setBlock_basicBlocks, hx]

/-- Writing the values of an entity. -/
theorem setValueDefs_spec {entity : DefiningEntity} {l : List ValueDef} (l' : List ValueDef)
    (hl : ctx.valueDefs entity = some l) : ∃ ctx', ctx.setValueDefs entity l' = some ctx' ∧
      ctx'.valueDefs = update ctx.valueDefs entity (some l') ∧
      (∀ block, ctx'.usesOf (.block block) = ctx.usesOf (.block block)) ∧ SameShape ctx ctx' := by
  rcases entity with op | block
  · obtain ⟨o, ho, rfl⟩ := Option.map_eq_some_iff.mp hl
    refine ⟨ctx.setOp op { o with results := l' }, by simp [setValueDefs, ho], ?_, fun _ => rfl,
      setOp_sameShape ho rfl rfl rfl⟩
    funext entity
    rcases entity with x | x
    · by_cases hx : x = op
      · subst hx
        simp [valueDefs, setOp_operations]
      · simp [valueDefs, setOp_operations, hx]
    · rw [update_of_ne (by simp)]
      rfl
  · obtain ⟨b, hb, rfl⟩ := Option.map_eq_some_iff.mp hl
    refine ⟨ctx.setBlock block { b with args := l' }, by simp [setValueDefs, hb], ?_,
      fun x => ?_, setBlock_sameShape hb rfl⟩
    · funext entity
      rcases entity with x | x
      · rw [update_of_ne (by simp)]
        rfl
      · by_cases hx : x = block
        · subst hx
          simp [valueDefs, setBlock_basicBlocks]
        · simp [valueDefs, setBlock_basicBlocks, hx]
    · by_cases hx : x = block
      · simp [usesOf, setBlock_basicBlocks, hx, hb]
      · simp [usesOf, setBlock_basicBlocks, hx]

theorem SameIR.of_valueDefs {entity : DefiningEntity} {l l' : List ValueDef}
    (hs : SameShape ctx ctx') (hl : ctx.valueDefs entity = some l)
    (hl' : ctx'.valueDefs = update ctx.valueDefs entity (some l'))
    (huids : l'.map ValueDef.valUid = l.map ValueDef.valUid) : SameIR ctx ctx' where
  toSameShape := hs
  valUids x := by
    rw [hl']
    by_cases hx : x = entity
    · simp [hx, hl, huids]
    · rw [update_of_ne hx]

/-- Writing the use set of a definition changes that use set only. -/
theorem setUses_spec {uses : List Use} (uses' : List Use) (hd : ctx.usesOf d = some uses) :
    ∃ ctx', ctx.setUses d uses' = some ctx' ∧
      ctx'.usesOf = update ctx.usesOf d (some uses') ∧ SameIR ctx ctx' := by
  rcases d with v | block
  · rw [usesOf_value] at hd
    obtain ⟨e, he, _⟩ := Option.map_eq_some_iff.mp hd
    obtain ⟨l, hl, he⟩ := Option.bind_eq_some_iff.mp he
    obtain ⟨ctx', hctx', hvals, hblock, hsame⟩ := setValueDefs_spec (modifyFirst
      (fun e => e.valUid = v.valUid) (fun e => { e with defNode := ⟨uses'⟩ }) l) hl
    refine ⟨ctx', by simp [setUses, hl, hctx'], ?_,
      SameIR.of_valueDefs hsame hl hvals (map_valUid_modifyFirst l _ uses')⟩
    funext d
    rcases d with w | block
    · rw [usesOf_value, hvals]
      by_cases hent : w.definingEntity = v.definingEntity
      · rw [hent, update_self, Option.bind_some, find?_modifyFirst]
        by_cases huid : w.valUid = v.valUid
        · obtain rfl : w = v := by
            obtain ⟨_, _⟩ := w
            obtain ⟨_, _⟩ := v
            simp_all
          rw [if_pos rfl, he, update_self]
          rfl
        · have hne : Def.value w ≠ Def.value v := fun h => huid (by rw [Def.value.inj h])
          rw [if_neg huid, update_of_ne hne, usesOf_value, hent, hl]
          rfl
      · have hne : Def.value w ≠ Def.value v := fun h => hent (by rw [Def.value.inj h])
        rw [update_of_ne hent, update_of_ne hne, usesOf_value]
    · rw [hblock, update_of_ne (by simp)]
  · obtain ⟨b, hb, _⟩ := Option.map_eq_some_iff.mp hd
    have hvals := valueDefs_setBlock { b with preds := ⟨uses'⟩ } hb rfl
    refine ⟨ctx.setBlock block { b with preds := ⟨uses'⟩ }, by simp [setUses, hb], ?_,
      setBlock_sameShape hb rfl, fun entity => by rw [hvals]⟩
    funext d
    rcases d with v | x
    · rw [update_of_ne (by simp), usesOf_value, usesOf_value, hvals]
    · by_cases hx : x = block
      · subst hx
        simp [usesOf, setBlock_basicBlocks]
      · simp [usesOf, setBlock_basicBlocks, hx]

/-! ## One use at a time -/

theorem SameIR.valueDefs {entity : DefiningEntity} {l' : List ValueDef} (h : SameIR ctx ctx')
    (hl' : ctx'.valueDefs entity = some l') : ∃ l, ctx.valueDefs entity = some l ∧
      l'.map ValueDef.valUid = l.map ValueDef.valUid := by
  have hmap := h.valUids entity
  rw [hl', Option.map_some] at hmap
  obtain ⟨l, hl, hmap⟩ := Option.map_eq_some_iff.mp hmap.symm
  exact ⟨l, hl, hmap.symm⟩

namespace Fresh

theorem of_sameIR (h : ctx.Fresh) (hs : SameIR ctx ctx') : ctx'.Fresh where
  vals_nodup entity l' hl' := by
    obtain ⟨l, hl, hmap⟩ := hs.valueDefs hl'
    rw [hmap]
    exact h.vals_nodup entity l hl
  vals_lt entity l' hl' v hv := by
    obtain ⟨l, hl, hmap⟩ := hs.valueDefs hl'
    have hmem : v.valUid ∈ l.map ValueDef.valUid := hmap ▸ List.mem_map_of_mem hv
    obtain ⟨w, hw, hwv⟩ := List.mem_map.mp hmem
    rw [hs.valueCounter, ← hwv]
    exact h.vals_lt entity l hl w hw
  op_lt op hop := by
    rw [hs.nextOp]
    exact h.op_lt op (fun hnone => hop ((hs.op_none op).mpr hnone))
  block_lt block hblock := by
    rw [hs.nextBlock]
    exact h.block_lt block (fun hnone => hblock ((hs.block_none block).mpr hnone))

theorem setOp (h : ctx.Fresh) (ho : ctx.operations op = some o)
    (hresults : o'.results = o.results) : (ctx.setOp op o').Fresh := by
  refine ⟨?_, ?_, ?_, h.block_lt⟩
  · rw [valueDefs_setOp ho hresults]
    exact h.vals_nodup
  · rw [valueDefs_setOp ho hresults]
    exact h.vals_lt
  · intro x hx
    by_cases heq : x = op
    · refine h.op_lt x ?_
      rw [heq, ho]
      simp
    · rw [setOp_operations, if_neg heq] at hx
      exact h.op_lt x hx

end Fresh

theorem usePairs_of_usesOf {uses : List Use}
    (h : ctx'.usesOf = update ctx.usesOf d (some uses)) :
    ctx'.usePairs = update ctx.usePairs d (some (uses.map Use.pair)) := by
  funext x
  rw [usePairs, h]
  by_cases hx : x = d
  · rw [hx, update_self, update_self]
    rfl
  · rw [update_of_ne hx, update_of_ne hx]
    rfl

namespace DefUseOn

variable {refs' : OpPtr → List (Nat × Def)} {uid : Nat} {l : List (Nat × Def)}

/-- Only the two sides of the chains matter. -/
theorem of_sameIR (h : ctx.DefUseOn refs) (hs : SameIR ctx ctx')
    (hc : Consistent refs' ctx'.usePairs)
    (hlt : ∀ op, ∀ r ∈ refs' op, r.1 < ctx'.useCounter) : ctx'.DefUseOn refs' :=
  ⟨h.toFresh.of_sameIR hs, hc, hlt⟩

/-- The references are described up to their order. -/
theorem perm (h : ctx.DefUseOn refs) (hp : ∀ op, (refs' op).Perm (refs op)) :
    ctx.DefUseOn refs' :=
  h.of_sameIR (SameIR.refl ctx) (h.consistent.perm hp)
    (fun op r hr => h.ids_lt op r ((hp op).mem_iff.mp hr))

/-- A tracked use is a new reference. -/
theorem addUse (h : ctx.DefUseOn refs) (hadd : ctx.addUse d ⟨op, uid⟩ = some ctx')
    (hfresh : ∀ r ∈ refs op, r.1 ≠ uid) (hlt : uid < ctx.useCounter) :
    ctx'.DefUseOn (update refs op ((uid, d) :: refs op)) ∧ SameIR ctx ctx' := by
  obtain ⟨uses, huses, hadd⟩ := Option.bind_eq_some_iff.mp hadd
  obtain ⟨_, _, hadd⟩ := Option.bind_eq_some_iff.mp hadd
  obtain ⟨ctx'', hctx'', husesOf, hsame⟩ := setUses_spec (uses ++ [⟨op, uid⟩]) huses
  obtain rfl := Option.some.inj (hctx''.symm.trans hadd)
  refine ⟨h.of_sameIR hsame ?_ ?_, hsame⟩
  · rw [usePairs_of_usesOf husesOf, List.map_append]
    exact h.consistent.addRef (by simp [usePairs, huses]) hfresh (List.Perm.refl _)
  · intro x r hr
    refine Nat.lt_of_lt_of_le ?_ hsame.useCounter
    by_cases hx : x = op
    · subst hx
      rw [update_self] at hr
      rcases List.mem_cons.mp hr with rfl | hr
      · exact hlt
      · exact h.ids_lt x r hr
    · rw [update_of_ne hx] at hr
      exact h.ids_lt x r hr

/-- A removed use is a reference less. -/
theorem removeUse (h : ctx.DefUseOn refs) (hrem : ctx.removeUse d ⟨op, uid⟩ = some ctx')
    (hl : ((uid, d) :: l).Perm (refs op)) :
    ctx'.DefUseOn (update refs op l) ∧ SameIR ctx ctx' := by
  obtain ⟨uses, huses, hrem⟩ := Option.bind_eq_some_iff.mp hrem
  obtain ⟨_, _, hrem⟩ := Option.bind_eq_some_iff.mp hrem
  obtain ⟨ctx'', hctx'', husesOf, hsame⟩ := setUses_spec (uses.erase ⟨op, uid⟩) huses
  obtain rfl := Option.some.inj (hctx''.symm.trans hrem)
  refine ⟨h.of_sameIR hsame ?_ ?_, hsame⟩
  · rw [usePairs_of_usesOf husesOf, List.map_erase Use.pair_injective]
    exact h.consistent.removeRef (by simp [usePairs, huses]) hl
  · intro x r hr
    refine Nat.lt_of_lt_of_le ?_ hsame.useCounter
    by_cases hx : x = op
    · subst hx
      rw [update_self] at hr
      exact h.ids_lt x r (hl.mem_iff.mp (List.mem_cons_of_mem _ hr))
    · rw [update_of_ne hx] at hr
      exact h.ids_lt x r hr

/-- Overwriting an operation does not touch the use sets, if it keeps the values. -/
theorem setOp (h : ctx.DefUseOn refs) (ho : ctx.operations op = some o)
    (hresults : o'.results = o.results) : (ctx.setOp op o').DefUseOn refs := by
  refine ⟨h.toFresh.setOp ho hresults, ?_, h.ids_lt⟩
  have huses : (ctx.setOp op o').usePairs = ctx.usePairs := by
    funext d
    rw [usePairs, usesOf_setOp ho hresults, usePairs]
  rw [huses]
  exact h.consistent

end DefUseOn

/-- The references after an operation was overwritten. -/
theorem refsOf_setOp : (ctx.setOp op o').refsOf = update ctx.refsOf op o'.refs := by
  funext x
  by_cases hx : x = op
  · subst hx
    simp [refsOf, setOp_operations]
  · simp [refsOf, setOp_operations, hx]

theorem refsOf_eq (ho : ctx.operations op = some o) : ctx.refsOf op = o.refs := by
  simp [refsOf, ho]

end Context

end Pliron
