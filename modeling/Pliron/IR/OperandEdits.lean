/-
  Pliron.IR.OperandEdits

  Operands that are inserted or removed within bounds.

  If the def-use chains are consistent, an operand that refers to something defined can be
  inserted at any index up to the length, and every operand can be removed.  The other operands
  stay in order, and what is defined stays defined.
-/

import Pliron.IR.DefUseSteps

namespace Pliron

open Pliron.Lib Function

namespace Context

variable {ctx ctx' : Context} {op : OpPtr} {o : Operation} {d : Def}

/-! ## What is defined -/

theorem find?_valUid_eq_none_iff {l : List ValueDef} {uid : Nat} :
    l.find? (fun e => e.valUid = uid) = none ↔ uid ∉ l.map ValueDef.valUid := by
  rw [List.find?_eq_none, List.mem_map]
  constructor
  · rintro h ⟨e, he, hid⟩
    exact h e he (decide_eq_true hid)
  · intro h e he hid
    exact h ⟨e, he, of_decide_eq_true hid⟩

theorem usesOf_value_eq_none_iff {v : Value} : ctx.usesOf (.value v) = none ↔
    ∀ l, (ctx.valueDefs v.definingEntity).map (List.map ValueDef.valUid) = some l →
      v.valUid ∉ l := by
  rw [usesOf_value, Option.map_eq_none_iff]
  cases hl : ctx.valueDefs v.definingEntity with
  | none => exact ⟨fun _ l h => absurd h nofun, fun _ => rfl⟩
  | some l =>
      rw [Option.bind_some, find?_valUid_eq_none_iff, Option.map_some]
      constructor
      · intro h l' hl'
        rwa [← Option.some.inj hl']
      · exact fun h => h _ rfl

/-- Changes of use sets leave alone what is defined. -/
theorem SameIR.usesOf_eq_none_iff (hs : SameIR ctx ctx') :
    ctx'.usesOf d = none ↔ ctx.usesOf d = none := by
  cases d with
  | value v => rw [usesOf_value_eq_none_iff, usesOf_value_eq_none_iff, hs.valUids]
  | block block =>
      rw [usesOf, usesOf, Option.map_eq_none_iff, Option.map_eq_none_iff]
      exact hs.block_none block

/-! ## Inserting and removing -/

section Operands

variable {δ : Type} {k : OperandKind δ} {defn : δ} {idx : Nat}

/-- The definitions that an operation refers to by one kind of operands. -/
def refDefs (ctx : Context) (k : OperandKind δ) (op : OpPtr) : Option (List δ) :=
  (ctx.operations op).map (fun o => (k.get o).map Operand.defn)

theorem newOperand_succeeds (h : ctx.DefUse) (hd : ctx.usesOf (k.toDef defn) ≠ none) :
    ∃ ctx', ctx.newOperand k defn op = some (⟨ctx.useCounter, defn⟩, ctx') := by
  obtain ⟨uses, huses⟩ := Option.ne_none_iff_exists'.mp hd
  have hfresh : (⟨op, ctx.useCounter⟩ : Use) ∉ uses := by
    intro hmem
    have hpairs : ctx.usePairs (k.toDef defn) = some (uses.map Use.pair) := by
      rw [usePairs, huses]
      rfl
    have href := h.consistent.refers _ _ hpairs _ (List.mem_map_of_mem hmem)
    exact Nat.lt_irrefl _ (h.ids_lt op _ href)
  have huses' : Context.usesOf { ctx with useCounter := ctx.useCounter + 1 } (k.toDef defn) =
      some uses := huses
  obtain ⟨ctx', hctx', _, _⟩ := setUses_spec (uses ++ [⟨op, ctx.useCounter⟩]) huses'
  refine ⟨ctx', ?_⟩
  rw [newOperand, addUse]
  simp only [Option.bind_eq_bind, huses', Option.bind_some, guard, if_pos hfresh]
  rw [show (pure () : Option Unit) = some () from rfl, Option.bind_some, hctx', Option.bind_some]

/-- An operand that refers to something defined is inserted at an index. -/
theorem insertRef_succeeds (hk : k.Lawful) (h : ctx.DefUse) (ho : ctx.operations op = some o)
    (hidx : idx ≤ (k.get o).length) (hd : ctx.usesOf (k.toDef defn) ≠ none) :
    ∃ ctx', ctx.insertRef k op idx defn = some ctx' ∧ ctx'.DefUse ∧
      ctx'.refDefs k op = some (((k.get o).map Operand.defn).insertIdx idx defn) ∧
      ∀ d, ctx'.usesOf d = none ↔ ctx.usesOf d = none := by
  obtain ⟨ctx₁, hnew⟩ : ∃ ctx₁, ctx.newOperand k defn op =
      some (⟨ctx.useCounter, defn⟩, ctx₁) := newOperand_succeeds h hd
  obtain ⟨_, hsame⟩ := newOperand_spec h hnew
  have hsome : ctx₁.operations op ≠ none := by
    rw [Ne, hsame.op_none, ho]
    exact nofun
  obtain ⟨o₁, ho₁⟩ := Option.ne_none_iff_exists'.mp hsome
  obtain ⟨o', ho', hopds, hsuccs⟩ := hsame.operation ho₁
  obtain rfl := Option.some.inj (ho.symm.trans ho')
  have hget : k.get o₁ = k.get o := hk.get_congr _ _ hopds hsuccs
  have hins : ctx.insertRef k op idx defn = some (ctx₁.setOp op (k.set o₁
      ((k.get o).insertIdx idx ⟨ctx.useCounter, defn⟩))) := by
    rw [insertRef]
    simp only [Option.bind_eq_bind, hnew, Option.bind_some, ho₁, hget, guard, if_pos hidx]
    rfl
  refine ⟨_, hins, insertRef_defUse hk h hins, ?_, fun d => ?_⟩
  · rw [refDefs, setOp_operations, if_pos rfl, Option.map_some, hk.get_set, List.map_insertIdx]
  · rw [usesOf_setOp ho₁ (hk.results_set _ _), hsame.usesOf_eq_none_iff]

/-- The operand at an index is removed. -/
theorem removeRef_succeeds (hk : k.Lawful) (h : ctx.DefUse) (ho : ctx.operations op = some o)
    (hidx : ((k.get o).map Operand.defn)[idx]? = some defn) :
    ∃ ctx', ctx.removeRef k op idx = some (defn, ctx') ∧ ctx'.DefUse ∧
      ctx'.refDefs k op = some (((k.get o).map Operand.defn).eraseIdx idx) ∧
      ∀ d, ctx'.usesOf d = none ↔ ctx.usesOf d = none := by
  rw [List.getElem?_map] at hidx
  obtain ⟨opd, hopd, rfl⟩ := Option.map_eq_some_iff.mp hidx
  have hmem : opd.ref k.toDef ∈ ctx.refsOf op := by
    rw [refsOf_eq ho]
    apply (hk.refs_perm o).mem_iff.mpr
    apply List.mem_append_left
    exact List.mem_map_of_mem (List.mem_of_getElem? hopd)
  obtain ⟨pairs, hpairs, hpair⟩ := h.consistent.recorded op _ hmem
  obtain ⟨uses, huses, rfl⟩ := Option.map_eq_some_iff.mp hpairs
  obtain ⟨use, huse, heq⟩ := List.mem_map.mp hpair
  have hrec : (⟨op, opd.useUid⟩ : Use) ∈ uses := by
    obtain rfl : use = ⟨op, opd.useUid⟩ := Use.pair_injective heq
    exact huse
  let o' := k.set o ((k.get o).eraseIdx idx)
  have huses' : (ctx.setOp op o').usesOf (k.toDef opd.defn) = some uses := by
    rw [usesOf_setOp ho (hk.results_set _ _)]
    exact huses
  obtain ⟨ctx', hctx', _, hsame⟩ := setUses_spec (uses.erase ⟨op, opd.useUid⟩) huses'
  have hdrop : (ctx.setOp op o').dropUse k op opd = some ctx' := by
    rw [dropUse, removeUse]
    simp only [Option.bind_eq_bind, huses', Option.bind_some, guard, if_pos hrec]
    exact hctx'
  have hrem : ctx.removeRef k op idx = some (opd.defn, ctx') := by
    rw [removeRef]
    simp only [Option.bind_eq_bind, ho, hopd, Option.bind_some]
    rw [hdrop, Option.bind_some]
  have hsome : ctx'.operations op ≠ none := by
    rw [Ne, hsame.op_none, setOp_operations, if_pos rfl]
    exact nofun
  obtain ⟨o₁, ho₁⟩ := Option.ne_none_iff_exists'.mp hsome
  obtain ⟨o₂, ho₂, hopds, hsuccs⟩ := hsame.operation ho₁
  rw [setOp_operations, if_pos rfl] at ho₂
  obtain rfl := Option.some.inj ho₂
  refine ⟨ctx', hrem, removeRef_defUse hk h hrem, ?_, fun d => ?_⟩
  · rw [refDefs, ho₁, Option.map_some, hk.get_congr _ _ hopds hsuccs, hk.get_set,
      List.eraseIdx_map]
  · rw [hsame.usesOf_eq_none_iff, usesOf_setOp ho (hk.results_set _ _)]

end Operands

end Context

end Pliron
