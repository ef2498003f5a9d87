/-
  Pliron.IR.DefUseRuns

  The def-use chains in every state that the mutating operations reach.

  `Run P ctx` says that `ctx` is reached from the empty context by mutations that
  satisfy `P` in the state they are applied to.  `ChainsAgree` holds in every
  state reached by mutations that are `Safe`: all of them, except that erasing
  must not take away a definition that something outside still refers to.  The
  erasing operations check this only for the definitions directly in what they
  erase.
-/

import Pliron.IR.DefUseErase

namespace Pliron

open Pliron.Lib

/-! ## Mutations -/

/-- The mutating operations of the IR. -/
inductive Mutation where
  | newOp (concreteOp : ConcreteOpInfo) (resultTypes : List TypeHandle) (operands : List Value)
      (successors : List BlockPtr) (numRegions : Nat)
  | newBlock (label : Option String) (argTypes : List TypeHandle)
  | addRegion (op : OpPtr)
  | pushOperand (this : OpPtr) (newOpd : Value)
  | insertOperand (this : OpPtr) (opdIdx : Nat) (newOpd : Value)
  | removeOperand (this : OpPtr) (opdIdx : Nat)
  | popOperand (this : OpPtr)
  | replaceOperand (this : OpPtr) (opdIdx : Nat) (other : Value)
  | pushSuccessor (this : OpPtr) (newSucc : BlockPtr)
  | insertSuccessor (this : OpPtr) (succIdx : Nat) (newSucc : BlockPtr)
  | removeSuccessor (this : OpPtr) (succIdx : Nat)
  | popSuccessor (this : OpPtr)
  | replaceSuccessor (this : OpPtr) (succIdx : Nat) (other : BlockPtr)
  | replaceSomeUsesWith (this : Value) (predicate : Context → Use → Bool) (other : Value)
  | retargetSomePredsTo (this : BlockPtr) (predicate : Context → BlockPtr → Bool)
      (other : BlockPtr)
  | pushResult (this : OpPtr) (ty : TypeHandle)
  | insertResult (this : OpPtr) (resIdx : Nat) (ty : TypeHandle)
  | removeResult (this : OpPtr) (resIdx : Nat)
  | popResult (this : OpPtr)
  | pushArgument (block : BlockPtr) (ty : TypeHandle)
  | insertArgument (block : BlockPtr) (argIdx : Nat) (ty : TypeHandle)
  | removeArgument (block : BlockPtr) (argIdx : Nat)
  | popArgument (block : BlockPtr)
  | linkOp (op : OpPtr) (point : Context.InsertPoint OpPtr BlockPtr)
  | unlinkOp (op : OpPtr)
  | linkBlock (block : BlockPtr) (point : Context.InsertPoint BlockPtr RegionPtr)
  | unlinkBlock (block : BlockPtr)
  | eraseOp (op : OpPtr)
  | eraseBlock (block : BlockPtr)
  | eraseRegion (op : OpPtr) (regIdx : Nat)

namespace Mutation

/-- Apply a mutation; `none` is a panic. -/
def apply (ctx : Context) : Mutation → Option Context
  | newOp concreteOp resultTypes operands successors numRegions =>
      (ctx.newOp concreteOp resultTypes operands successors numRegions).map Prod.snd
  | newBlock label argTypes => (ctx.newBlock label argTypes).map Prod.snd
  | addRegion op => (ctx.addRegion op).map Prod.snd
  | pushOperand this newOpd => ctx.pushOperand this newOpd
  | insertOperand this opdIdx newOpd => ctx.insertOperand this opdIdx newOpd
  | removeOperand this opdIdx => (ctx.removeOperand this opdIdx).map Prod.snd
  | popOperand this => (ctx.popOperand this).map Prod.snd
  | replaceOperand this opdIdx other => ctx.replaceOperand this opdIdx other
  | pushSuccessor this newSucc => ctx.pushSuccessor this newSucc
  | insertSuccessor this succIdx newSucc => ctx.insertSuccessor this succIdx newSucc
  | removeSuccessor this succIdx => (ctx.removeSuccessor this succIdx).map Prod.snd
  | popSuccessor this => (ctx.popSuccessor this).map Prod.snd
  | replaceSuccessor this succIdx other => ctx.replaceSuccessor this succIdx other
  | replaceSomeUsesWith this predicate other => ctx.replaceSomeUsesWith this predicate other
  | retargetSomePredsTo this predicate other => ctx.retargetSomePredsTo this predicate other
  | pushResult this ty => ctx.pushResult this ty
  | insertResult this resIdx ty => ctx.insertResult this resIdx ty
  | removeResult this resIdx => ctx.removeResult this resIdx
  | popResult this => ctx.popResult this
  | pushArgument block ty => ctx.pushArgument block ty
  | insertArgument block argIdx ty => ctx.insertArgument block argIdx ty
  | removeArgument block argIdx => ctx.removeArgument block argIdx
  | popArgument block => ctx.popArgument block
  | linkOp op point => ctx.linkOp op point
  | unlinkOp op => ctx.unlinkOp op
  | linkBlock block point => ctx.linkBlock block point
  | unlinkBlock block => ctx.unlinkBlock block
  | eraseOp op => ctx.eraseOp op
  | eraseBlock block => ctx.eraseBlock block
  | eraseRegion op regIdx => ctx.eraseRegion op regIdx

/-- Nothing outside of what is erased refers to a definition inside of it that the erasing
    operation does not check. -/
def Safe (ctx : Context) : Mutation → Prop
  | eraseOp op =>
      ctx.Unreferenced (.operation op) (fun d => ¬ Context.CheckedByEraseOp op d)
  | eraseBlock block =>
      ctx.Unreferenced (.basicBlock block) (fun d => ¬ ctx.CheckedByEraseBlock block d)
  | eraseRegion op regIdx => ∀ reg, (ctx.opRegions op)[regIdx]? = some reg →
      ctx.Unreferenced (.region reg) (fun _ => True)
  | _ => True

/-- A sufficient check: only operations without regions are erased. -/
def plainlySafe (ctx : Context) : Mutation → Bool
  | eraseOp op => (ctx.opRegions op).isEmpty
  | eraseBlock _ => false
  | eraseRegion _ _ => false
  | _ => true

theorem safe_of_plainlySafe {ctx : Context} {m : Mutation} (h : m.plainlySafe ctx = true) :
    m.Safe ctx := by
  cases m with
  | eraseOp op =>
      -- nothing but the operation itself is reached from it
      have hchildren : ctx.childNodes (.operation op) = [] := by
        rw [Context.childNodes, List.isEmpty_iff.mp h]
        rfl
      rintro x ⟨uid, d⟩ _ hd hopen
      have hself : d.definer = .operation op := by
        rcases Relation.ReflTransGen.cases_head hd with heq | ⟨y, hy, _⟩
        · exact heq.symm
        · rw [hchildren] at hy
          exact absurd hy List.not_mem_nil
      rcases d with ⟨_, y | y⟩ | y
      · refine absurd ?_ hopen
        rw [Def.definer] at hself
        rw [← IRNode.operation.inj hself]
        rfl
      · cases hself
      · cases hself
  | eraseBlock => cases h
  | eraseRegion => cases h
  | _ => trivial

/-- One mutation keeps the def-use invariant. -/
theorem defUse_apply {ctx ctx' : Context} {m : Mutation} (h : ctx.DefUse) (hsafe : m.Safe ctx)
    (happly : m.apply ctx = some ctx') : ctx'.DefUse := by
  have hsnd : ∀ {α : Type} {r : Option (α × Context)}, r.map Prod.snd = some ctx' →
      ∃ a, r = some (a, ctx') := by
    rintro α r hr
    obtain ⟨⟨a, c⟩, ha, hc⟩ := Option.map_eq_some_iff.mp hr
    obtain rfl : c = ctx' := hc
    exact ⟨a, ha⟩
  cases m with
  | newOp =>
      obtain ⟨_, happly⟩ := hsnd happly
      exact Context.newOp_defUse h happly
  | newBlock =>
      obtain ⟨_, happly⟩ := hsnd happly
      exact Context.newBlock_defUse h happly
  | addRegion =>
      obtain ⟨_, happly⟩ := hsnd happly
      exact Context.addRegion_defUse h happly
  | pushOperand => exact Context.pushRef_defUse operandKind_lawful h happly
  | insertOperand => exact Context.insertRef_defUse operandKind_lawful h happly
  | removeOperand =>
      obtain ⟨_, happly⟩ := hsnd happly
      exact Context.removeRef_defUse operandKind_lawful h happly
  | popOperand =>
      obtain ⟨_, happly⟩ := hsnd happly
      exact Context.popRef_defUse operandKind_lawful h happly
  | replaceOperand => exact Context.replaceRef_defUse operandKind_lawful h happly
  | pushSuccessor => exact Context.pushRef_defUse successorKind_lawful h happly
  | insertSuccessor => exact Context.insertRef_defUse successorKind_lawful h happly
  | removeSuccessor =>
      obtain ⟨_, happly⟩ := hsnd happly
      exact Context.removeRef_defUse successorKind_lawful h happly
  | popSuccessor =>
      obtain ⟨_, happly⟩ := hsnd happly
      exact Context.popRef_defUse successorKind_lawful h happly
  | replaceSuccessor => exact Context.replaceRef_defUse successorKind_lawful h happly
  | replaceSomeUsesWith => exact Context.replaceSomeUses_defUse operandKind_lawful h happly
  | retargetSomePredsTo => exact Context.replaceSomeUses_defUse successorKind_lawful h happly
  | pushResult => exact Context.pushValue_defUse h happly
  | insertResult => exact Context.insertValue_defUse h happly
  | removeResult => exact Context.removeValue_defUse h happly
  | popResult => exact Context.popValue_defUse h happly
  | pushArgument => exact Context.pushValue_defUse h happly
  | insertArgument => exact Context.insertValue_defUse h happly
  | removeArgument => exact Context.removeValue_defUse h happly
  | popArgument => exact Context.popValue_defUse h happly
  | linkOp => exact Context.linkOp_defUse h happly
  | unlinkOp => exact Context.unlinkOp_defUse h happly
  | linkBlock => exact Context.linkBlock_defUse h happly
  | unlinkBlock => exact Context.unlinkBlock_defUse h happly
  | eraseOp => exact Context.eraseOp_defUse h hsafe happly
  | eraseBlock => exact Context.eraseBlock_defUse h hsafe happly
  | eraseRegion op regIdx =>
      have herase : ctx.eraseRegion op regIdx = some ctx' := happly
      obtain ⟨o, ho, happly⟩ := Option.bind_eq_some_iff.mp happly
      obtain ⟨reg, hreg, _⟩ := Option.bind_eq_some_iff.mp happly
      refine Context.eraseRegion_defUse h ho hreg (hsafe reg ?_) herase
      simpa [Context.opRegions, ho] using hreg

end Mutation

/-! ## Runs -/

/-- The contexts reached from the empty one by mutations that satisfy `P`. -/
inductive Run (P : Context → Mutation → Prop) : Context → Prop
  | init : Run P {}
  | step {ctx ctx' : Context} {m : Mutation} (hrun : Run P ctx) (hm : P ctx m)
      (happly : m.apply ctx = some ctx') : Run P ctx'

namespace Context

/-- A use is recorded by a definition if and only if the operand (or successor) of the user
    with that identifier refers to the definition. -/
structure ChainsAgree (ctx : Context) : Prop where
  /-- The use sets are what operands refer to, each use once. -/
  uses : ∀ d uses, ctx.usesOf d = some uses → uses.Nodup ∧
    ∀ use, use ∈ uses ↔ ∃ o, ctx.operations use.userOp = some o ∧ (use.useUid, d) ∈ o.refs
  /-- What an operand refers to is defined. -/
  defined : ∀ op o, ctx.operations op = some o → ∀ r ∈ o.refs, ctx.usesOf r.2 ≠ none
  /-- The identifiers within an operation are unique. -/
  ids : ∀ op o, ctx.operations op = some o → (o.refs.map Prod.fst).Nodup

variable {ctx : Context}

theorem mem_refsOf {op : OpPtr} {r : Nat × Def} :
    r ∈ ctx.refsOf op ↔ ∃ o, ctx.operations op = some o ∧ r ∈ o.refs := by
  cases ho : ctx.operations op <;> simp [refsOf, ho]

theorem DefUse.chainsAgree (h : ctx.DefUse) : ctx.ChainsAgree where
  uses d uses huses := by
    have hpairs : ctx.usePairs d = some (uses.map Use.pair) := by rw [usePairs, huses]; rfl
    refine ⟨List.Nodup.of_map _ (h.consistent.uses_nodup d _ hpairs), fun use => ?_⟩
    rw [← mem_refsOf, ← h.consistent.mem_iff hpairs]
    exact (List.mem_map_of_injective Use.pair_injective).symm
  defined op o ho r hr := by
    obtain ⟨us, hus, _⟩ := h.consistent.recorded op r (mem_refsOf.mpr ⟨o, ho, hr⟩)
    intro hnone
    rw [usePairs, hnone] at hus
    cases hus
  ids op o ho := by
    have hids := h.consistent.ids_nodup op
    rwa [refsOf_eq ho] at hids

theorem empty_defUse : DefUse {} where
  consistent := by
    have huses : usePairs {} = fun _ => none := by
      funext d
      rcases d with ⟨_, _ | _⟩ | _ <;> rfl
    rw [huses]
    exact Consistent.empty
  ids_lt := by simp [refsOf]
  vals_nodup := by rintro (_ | _) l hl <;> cases hl
  vals_lt := by rintro (_ | _) l hl <;> cases hl
  op_lt _ h := absurd rfl h
  block_lt _ h := absurd rfl h

end Context

namespace Run

theorem defUse {ctx : Context} (h : Run (fun ctx m => m.Safe ctx) ctx) : ctx.DefUse := by
  induction h with
  | init => exact Context.empty_defUse
  | step _ hm happly ih => exact Mutation.defUse_apply ih hm happly

/-- In every state that safe mutations reach, the two sides of the chains agree. -/
theorem chainsAgree_of_safe {ctx : Context} (h : Run (fun ctx m => m.Safe ctx) ctx) :
    ctx.ChainsAgree := h.defUse.chainsAgree

/-- Apply mutations one after the other, as long as each passes a check. -/
def applyAll (check : Context → Mutation → Bool) (ms : List Mutation) (ctx : Context) :
    Option Context :=
  ms.foldlM (fun ctx m => if check ctx m then m.apply ctx else none) ctx

theorem of_applyAll {P : Context → Mutation → Prop} {check : Context → Mutation → Bool}
    (hP : ∀ ctx m, check ctx m = true → P ctx m) {ms : List Mutation} {ctx ctx' : Context}
    (h : Run P ctx) (hms : applyAll check ms ctx = some ctx') : Run P ctx' := by
  induction ms generalizing ctx with
  | nil =>
      obtain rfl := Option.some.inj hms
      exact h
  | cons m ms ih =>
      rw [applyAll, List.foldlM_cons] at hms
      obtain ⟨ctx₁, hm, hms⟩ := Option.bind_eq_some_iff.mp hms
      split at hm
      · next hcheck => exact ih (h.step (hP ctx m hcheck) hm) hms
      · cases hm

/-- An operation of no dialect in particular. -/
def plainOp : ConcreteOpInfo := { opId := 0 }

/-- A block with an argument; operation 0 uses the argument twice, and operation 1 its result.
    The uses of the argument are redirected to a new one, and operation 1 is erased. -/
def editAndErase : List Mutation :=
  [.newBlock none [0], .newOp plainOp [0] [⟨0, .block ⟨0⟩⟩, ⟨0, .block ⟨0⟩⟩] [] 0,
    .linkOp ⟨0⟩ (.atBack ⟨0⟩), .newOp plainOp [] [⟨1, .op ⟨0⟩⟩] [⟨0⟩] 0, .linkOp ⟨1⟩ (.after ⟨0⟩),
    .insertArgument ⟨0⟩ 0 0,
    .replaceSomeUsesWith ⟨0, .block ⟨0⟩⟩ (fun _ _ => true) ⟨2, .block ⟨0⟩⟩,
    .removeArgument ⟨0⟩ 1, .eraseOp ⟨1⟩]

theorem chainsAgree_of_safe_editAndErase :
    ∃ ctx, applyAll Mutation.plainlySafe editAndErase {} = some ctx ∧ ctx.ChainsAgree := by
  obtain ⟨ctx, hctx⟩ : ∃ ctx, applyAll Mutation.plainlySafe editAndErase {} = some ctx :=
    Option.isSome_iff_exists.mp (by decide)
  exact ⟨ctx, hctx, chainsAgree_of_safe
    (of_applyAll (fun _ _ => Mutation.safe_of_plainlySafe) .init hctx)⟩

/-- Block 0 contains operation 0, whose region contains block 1 with operation 1.  Operation 2,
    which is in no block, uses the result of operation 1.  Then block 0 is erased. -/
def eraseNestedDef : List Mutation :=
  [.newBlock none [], .newOp plainOp [] [] [] 1, .linkOp ⟨0⟩ (.atBack ⟨0⟩),
    .newBlock none [], .linkBlock ⟨1⟩ (.atBack ⟨0⟩), .newOp plainOp [0] [] [] 0,
    .linkOp ⟨1⟩ (.atBack ⟨1⟩), .newOp plainOp [] [⟨0, .op ⟨1⟩⟩] [] 0, .eraseBlock ⟨0⟩]

/-- The block is erased, and the operand of operation 2 is left without a definition. -/
theorem eraseNestedDef_dangles : ∃ ctx, Run (fun _ _ => True) ctx ∧ ¬ ctx.ChainsAgree := by
  have hdangling : (applyAll (fun _ _ => true) eraseNestedDef {}).map (fun ctx =>
      ((ctx.operations ⟨2⟩).map Operation.refs, ctx.usesOf (.value ⟨0, .op ⟨1⟩⟩))) =
        some (some [(0, .value ⟨0, .op ⟨1⟩⟩)], none) := by decide
  obtain ⟨ctx, hctx, hstate⟩ := Option.map_eq_some_iff.mp hdangling
  obtain ⟨hrefs, huses⟩ := Prod.mk.inj hstate
  obtain ⟨o, ho, hrefs⟩ := Option.map_eq_some_iff.mp hrefs
  refine ⟨ctx, of_applyAll (fun _ _ _ => trivial) .init hctx, fun hagree => ?_⟩
  exact hagree.defined ⟨2⟩ o ho (0, .value ⟨0, .op ⟨1⟩⟩) (by simp [hrefs]) huses

end Run

end Pliron
