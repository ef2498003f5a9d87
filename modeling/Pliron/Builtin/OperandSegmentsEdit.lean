/-
  Pliron.Builtin.OperandSegmentsEdit

  Edits of operand segments are edits of one list.

  `Agrees` relates an operation to the segments that it means: the operands are the segments one
  after the other, the sizes are their lengths.  As long as the sizes before the edited segment
  can be added up in 32 bits, and a segment that grows keeps a 32-bit size, an edit of the
  operation is the same edit of one of the segments.
-/

import Pliron.Builtin.OperandSegmentsVerify
import Pliron.IR.DefUseCreate
import Pliron.IR.OperandEdits

namespace Pliron

open Pliron.Lib Segments

/-! ## Edits -/

/-- An edit of the segments of an operation, or of the operands of its successors. -/
inductive SegmentEdit where
  | pushToSegment (segIdx : Nat) (operand : Value)
  | popFromSegment (segIdx : Nat)
  | insertIntoSegment (segIdx segOpdIdx : Nat) (operand : Value)
  | removeFromSegment (segIdx segOpdIdx : Nat)
  | addSuccessorOperand (succIdx : Nat) (operand : Value)
  | removeSuccessorOperand (succIdx argIdx : Nat)
deriving DecidableEq, Repr

/-- What an edit returns. -/
inductive EditResult where
  | unit
  | index (idx : Nat)
  | value (value : Value)
deriving DecidableEq, Repr

namespace SegmentEdit

/-- The operand that an edit adds. -/
def operand : SegmentEdit → Option Value
  | pushToSegment _ operand => some operand
  | popFromSegment _ => none
  | insertIntoSegment _ _ operand => some operand
  | removeFromSegment _ _ => none
  | addSuccessorOperand _ operand => some operand
  | removeSuccessorOperand _ _ => none

/-- An edit of an operation. -/
def apply (mode : OverflowMode) (op : OpPtr) (s : SegmentedContext) :
    SegmentEdit → Option (EditResult × SegmentedContext)
  | pushToSegment segIdx operand =>
      (s.pushToSegment mode op segIdx operand).map (Prod.map .index id)
  | popFromSegment segIdx => (s.popFromSegment mode op segIdx).map (Prod.map .value id)
  | insertIntoSegment segIdx segOpdIdx operand =>
      (s.insertIntoSegment mode op segIdx segOpdIdx operand).map (Prod.mk .unit)
  | removeFromSegment segIdx segOpdIdx =>
      (s.removeFromSegment mode op segIdx segOpdIdx).map (Prod.map .value id)
  | addSuccessorOperand succIdx operand =>
      (s.addSuccessorOperand mode op succIdx operand).map (Prod.map .index id)
  | removeSuccessorOperand succIdx argIdx =>
      (s.removeSuccessorOperand mode op succIdx argIdx).map (Prod.map .value id)

/-- Push to a list. -/
def pushTo (segs : List (List Value)) (i : Nat) (v : Value) :
    Option (EditResult × List (List Value)) := do
  let seg ← segs[i]?
  some (.index seg.length, segs.set i (seg ++ [v]))

/-- Remove an element of a list. -/
def removeAt (segs : List (List Value)) (i j : Nat) :
    Option (EditResult × List (List Value)) := do
  let seg ← segs[i]?
  let v ← seg[j]?
  some (.value v, segs.set i (seg.eraseIdx j))

/-- The same edit of lists; `none` if it is out of bounds.  Successor `i` has list `i + 1`. -/
def onLists (segs : List (List Value)) : SegmentEdit → Option (EditResult × List (List Value))
  | pushToSegment i v => pushTo segs i v
  | popFromSegment i => do
      let seg ← segs[i]?
      let v ← seg.getLast?
      some (.value v, segs.set i seg.dropLast)
  | insertIntoSegment i j v => do
      let seg ← segs[i]?
      guard (j ≤ seg.length)
      some (.unit, segs.set i (seg.insertIdx j v))
  | removeFromSegment i j => removeAt segs i j
  | addSuccessorOperand succIdx v => pushTo segs (succIdx + 1) v
  | removeSuccessorOperand succIdx j => removeAt segs (succIdx + 1) j

/-- A push to segment `i` stays within 32 bits. -/
def PushFits (segs : List (List Value)) (i : Nat) : Prop :=
  start segs (i + 1) < 2 ^ 32 ∧ ∀ seg ∈ segs[i]?, seg.length + 1 < 2 ^ 32

/-- An edit stays within 32 bits. -/
def Fits (segs : List (List Value)) : SegmentEdit → Prop
  | pushToSegment i _ => PushFits segs i
  | popFromSegment i => start segs i < 2 ^ 32
  | insertIntoSegment i _ _ =>
      start segs i < 2 ^ 32 ∧ ∀ seg ∈ segs[i]?, seg.length + 1 < 2 ^ 32
  | removeFromSegment i _ => start segs i < 2 ^ 32
  | addSuccessorOperand succIdx _ => PushFits segs (succIdx + 1)
  | removeSuccessorOperand succIdx _ => start segs (succIdx + 1) < 2 ^ 32

/-- A sequence of edits, with the results. -/
def applyAll (mode : OverflowMode) (op : OpPtr) :
    List SegmentEdit → SegmentedContext → Option (List EditResult × SegmentedContext)
  | [], s => some ([], s)
  | edit :: edits, s => do
      let (result, s) ← edit.apply mode op s
      let (results, s) ← applyAll mode op edits s
      some (result :: results, s)

/-- The same sequence of edits of lists. -/
def onListsAll :
    List SegmentEdit → List (List Value) → Option (List EditResult × List (List Value))
  | [], segs => some ([], segs)
  | edit :: edits, segs => do
      let (result, segs) ← edit.onLists segs
      let (results, segs) ← onListsAll edits segs
      some (result :: results, segs)

/-- Every edit of a sequence stays within 32 bits. -/
def FitsAll : List SegmentEdit → List (List Value) → Prop
  | [], _ => True
  | edit :: edits, segs => edit.Fits segs ∧
      ∀ result segs', edit.onLists segs = some (result, segs') → FitsAll edits segs'

end SegmentEdit

/-! ## One edit -/

namespace SegmentedContext

/-- The operands of an operation are these segments. -/
structure Agrees (s : SegmentedContext) (op : OpPtr) (segs : List (List Value)) : Prop where
  operands : s.operands op = some segs.flatten
  sizes : ∃ sizes, s.segmentSizes op = some sizes ∧
    sizes.map UInt32.toNat = segs.map List.length

variable {mode : OverflowMode} {s : SegmentedContext} {op : OpPtr} {segs : List (List Value)}
  {seg : List Value} {sizes : List UInt32} {i j : Nat} {v : Value}

/-- The sizes after an edit of one segment. -/
theorem map_set_sizes {size : UInt32} {seg' : List Value}
    (hsizes : sizes.map UInt32.toNat = segs.map List.length) (hsize : size.toNat = seg'.length) :
    (sizes.set i size).map UInt32.toNat = (segs.set i seg').map List.length := by
  rw [List.map_set, List.map_set, hsizes, hsize]

theorem set_eq_modify (f : List Value → List Value) (hseg : segs[i]? = some seg) :
    segs.set i (f seg) = segs.modify i f := by
  rw [List.modify_eq_set_getElem?, hseg]
  rfl

/-- Agreement after a new context and a new size. -/
theorem Agrees.update {size : UInt32} {seg' : List Value} {ctx' : Context}
    (hsizes : sizes.map UInt32.toNat = segs.map List.length)
    (hops : ctx'.refDefs operandKind op = some (segs.set i seg').flatten)
    (hsize : size.toNat = seg'.length) :
    ({ s with ctx := ctx' }.setOperandSegmentSizes op (sizes.set i size)).Agrees op
      (segs.set i seg') where
  operands := hops
  sizes := ⟨sizes.set i size, Function.update_self .., map_set_sizes hsizes hsize⟩

theorem operands_eq (h : s.Agrees op segs) : ∃ o, s.ctx.operations op = some o ∧
    o.operands.map Operand.defn = segs.flatten :=
  Option.map_eq_some_iff.mp h.operands

/-- An operand is inserted within a segment. -/
theorem insertOperand_segment (hdu : s.ctx.DefUse) (h : s.Agrees op segs)
    (hseg : segs[i]? = some seg) (hj : j ≤ seg.length) (hv : s.ctx.usesOf (.value v) ≠ none) :
    ∃ ctx', s.ctx.insertOperand op (start segs i + j) v = some ctx' ∧ ctx'.DefUse ∧
      ctx'.refDefs operandKind op = some (segs.set i (seg.insertIdx j v)).flatten ∧
      ∀ d, ctx'.usesOf d = none ↔ s.ctx.usesOf d = none := by
  obtain ⟨o, ho, hopds⟩ := operands_eq h
  have hbound : start segs i + j ≤ (operandKind.get o).length := by
    have hlen := congrArg List.length hopds
    rw [List.length_map] at hlen
    show start segs i + j ≤ o.operands.length
    have := start_add_length_le hseg
    omega
  obtain ⟨ctx', hins, hdu', hrefs, hdefs⟩ :=
    Context.insertRef_succeeds operandKind_lawful hdu ho hbound hv
  refine ⟨ctx', hins, hdu', ?_, hdefs⟩
  have hget : (operandKind.get o).map Operand.defn = segs.flatten := hopds
  rw [hrefs, hget, flatten_insertIdx hseg hj, ← set_eq_modify (fun l => l.insertIdx j v) hseg]

/-- An operand within a segment is removed. -/
theorem removeOperand_segment (hdu : s.ctx.DefUse) (h : s.Agrees op segs)
    (hseg : segs[i]? = some seg) (hj : seg[j]? = some v) :
    ∃ ctx', s.ctx.removeOperand op (start segs i + j) = some (v, ctx') ∧ ctx'.DefUse ∧
      ctx'.refDefs operandKind op = some (segs.set i (seg.eraseIdx j)).flatten ∧
      ∀ d, ctx'.usesOf d = none ↔ s.ctx.usesOf d = none := by
  obtain ⟨o, ho, hopds⟩ := operands_eq h
  obtain ⟨hlt, _⟩ := List.getElem?_eq_some_iff.mp hj
  have hget : (operandKind.get o).map Operand.defn = segs.flatten := hopds
  have hidx : ((operandKind.get o).map Operand.defn)[start segs i + j]? = some v := by
    rw [hget, getElem?_flatten hseg hlt, hj]
  obtain ⟨ctx', hrem, hdu', hrefs, hdefs⟩ :=
    Context.removeRef_succeeds operandKind_lawful hdu ho hidx
  refine ⟨ctx', hrem, hdu', ?_, hdefs⟩
  rw [hrefs, hget, flatten_eraseIdx hseg hlt, ← set_eq_modify (fun l => l.eraseIdx j) hseg]

/-- What an edit leaves behind. -/
structure Edited (s s' : SegmentedContext) (op : OpPtr) (segs : List (List Value)) : Prop where
  agrees : s'.Agrees op segs
  defUse : s'.ctx.DefUse
  defined : ∀ d, s'.ctx.usesOf d = none ↔ s.ctx.usesOf d = none

theorem addU32_one {size : UInt32} (mode : OverflowMode) (h : size.toNat + 1 < 2 ^ 32) :
    addU32 mode size 1 = some (size + 1) ∧ (size + 1).toNat = size.toNat + 1 := by
  have hone : (1 : UInt32).toNat = 1 := rfl
  refine ⟨if_pos h, ?_⟩
  rw [UInt32.toNat_add, hone, Nat.mod_eq_of_lt h]

theorem sub_one_toNat {size : UInt32} (h : 0 < size.toNat) :
    (size - 1).toNat = size.toNat - 1 := by
  have hone : (1 : UInt32).toNat = 1 := rfl
  have hle : (1 : UInt32) ≤ size := by
    rw [UInt32.le_iff_toNat_le, hone]
    exact h
  rw [UInt32.toNat_sub_of_le _ _ hle, hone]

variable (mode)

theorem push_edited (hdu : s.ctx.DefUse) (h : s.Agrees op segs) (hseg : segs[i]? = some seg)
    (hfits : SegmentEdit.PushFits segs i) (hv : s.ctx.usesOf (.value v) ≠ none) :
    ∃ s', s.pushToSegment mode op i v = some (seg.length, s') ∧
      s.Edited s' op (segs.set i (seg ++ [v])) := by
  obtain ⟨sizes, hsizes, hlengths⟩ := h.sizes
  obtain ⟨size, hsize, hnat⟩ := getElem?_sizes hlengths hseg
  obtain ⟨hstart, hgrow⟩ := hfits
  obtain ⟨x, hx, hxnat⟩ := sumU32_take mode hlengths hstart
  obtain ⟨hadd, haddNat⟩ := addU32_one mode (hnat ▸ hgrow seg hseg)
  obtain ⟨ctx', hins, hdu', hops, hdefs⟩ :=
    insertOperand_segment hdu h hseg (Nat.le_refl seg.length) hv
  rw [List.insertIdx_length_self] at hops
  have hlen : (size + 1).toNat = (seg ++ [v]).length := by
    rw [haddNat, hnat, List.length_append, List.length_singleton]
  refine ⟨_, ?_, Agrees.update (s := s) hlengths hops hlen, hdu', hdefs⟩
  rw [start_succ hseg] at hxnat
  rw [pushToSegment, getOperandSegmentSizes, hsizes]
  simp only [Option.bind_eq_bind, Option.bind_some, hsize, hx, hxnat, hins, hadd, hnat]

theorem insert_edited (hdu : s.ctx.DefUse) (h : s.Agrees op segs) (hseg : segs[i]? = some seg)
    (hj : j ≤ seg.length) (hstart : start segs i < 2 ^ 32) (hgrow : seg.length + 1 < 2 ^ 32)
    (hv : s.ctx.usesOf (.value v) ≠ none) :
    ∃ s', s.insertIntoSegment mode op i j v = some s' ∧
      s.Edited s' op (segs.set i (seg.insertIdx j v)) := by
  obtain ⟨sizes, hsizes, hlengths⟩ := h.sizes
  obtain ⟨size, hsize, hnat⟩ := getElem?_sizes hlengths hseg
  obtain ⟨x, hx, hxnat⟩ := sumU32_take mode hlengths hstart
  obtain ⟨hadd, haddNat⟩ := addU32_one mode (hnat ▸ hgrow)
  obtain ⟨ctx', hins, hdu', hops, hdefs⟩ := insertOperand_segment hdu h hseg hj hv
  have hlen : (size + 1).toNat = (seg.insertIdx j v).length := by
    rw [haddNat, hnat, List.length_insertIdx_of_le_length hj]
  refine ⟨_, ?_, Agrees.update (s := s) hlengths hops hlen, hdu', hdefs⟩
  rw [insertIntoSegment, getOperandSegmentSizes, hsizes]
  simp only [Option.bind_eq_bind, Option.bind_some, hsize, hx, hxnat, hnat, guard, if_pos hj]
  show ((some ()).bind fun _ => (s.ctx.insertOperand op (start segs i + j) v).bind _) = _
  rw [Option.bind_some, hins, Option.bind_some, hadd, Option.bind_some]

theorem remove_edited (hdu : s.ctx.DefUse) (h : s.Agrees op segs) (hseg : segs[i]? = some seg)
    (hj : seg[j]? = some v) (hstart : start segs i < 2 ^ 32) :
    ∃ s', s.removeFromSegment mode op i j = some (v, s') ∧
      s.Edited s' op (segs.set i (seg.eraseIdx j)) := by
  obtain ⟨sizes, hsizes, hlengths⟩ := h.sizes
  obtain ⟨size, hsize, hnat⟩ := getElem?_sizes hlengths hseg
  obtain ⟨x, hx, hxnat⟩ := sumU32_take mode hlengths hstart
  obtain ⟨hlt, _⟩ := List.getElem?_eq_some_iff.mp hj
  obtain ⟨ctx', hrem, hdu', hops, hdefs⟩ := removeOperand_segment hdu h hseg hj
  have hlen : (size - 1).toNat = (seg.eraseIdx j).length := by
    rw [sub_one_toNat (by omega), hnat, List.length_eraseIdx_of_lt hlt]
  refine ⟨_, ?_, Agrees.update (s := s) hlengths hops hlen, hdu', hdefs⟩
  rw [removeFromSegment, getOperandSegmentSizes, hsizes]
  simp only [Option.bind_eq_bind, Option.bind_some, hsize, hx, hxnat, hnat, guard, if_pos hlt]
  show ((some ()).bind fun _ => (s.ctx.removeOperand op (start segs i + j)).bind _) = _
  rw [Option.bind_some, hrem, Option.bind_some]

/-- The last operand of a segment is popped: it is the one at the last index. -/
theorem pop_edited (hdu : s.ctx.DefUse) (h : s.Agrees op segs) (hseg : segs[i]? = some seg)
    (hlast : seg.getLast? = some v) (hstart : start segs i < 2 ^ 32) :
    ∃ s', s.popFromSegment mode op i = some (v, s') ∧
      s.Edited s' op (segs.set i seg.dropLast) := by
  have hj : seg[seg.length - 1]? = some v := by
    rw [← List.getLast?_eq_getElem?]
    exact hlast
  obtain ⟨hlt, _⟩ := List.getElem?_eq_some_iff.mp hj
  obtain ⟨s', hrem, hedited⟩ := remove_edited mode hdu h hseg hj hstart
  rw [List.eraseIdx_length_sub_one] at hedited
  refine ⟨s', ?_, hedited⟩
  obtain ⟨sizes, hsizes, hlengths⟩ := h.sizes
  obtain ⟨size, hsize, hnat⟩ := getElem?_sizes hlengths hseg
  obtain ⟨x, hx, hxnat⟩ := sumU32_take mode hlengths hstart
  have hpos : 0 < seg.length := by omega
  have hidx : start segs i + (seg.length - 1) = start segs i + seg.length - 1 := by omega
  rw [← hrem, popFromSegment, removeFromSegment, getOperandSegmentSizes, hsizes]
  simp only [Option.bind_eq_bind, Option.bind_some, hsize, hx, hxnat, hnat, guard, if_pos hpos,
    if_pos hlt, hidx]

/-- One edit is the same edit of one list. -/
theorem apply_edited {edit : SegmentEdit} {result : EditResult} {segs' : List (List Value)}
    (hdu : s.ctx.DefUse) (h : s.Agrees op segs) (hfits : edit.Fits segs)
    (hv : ∀ v, edit.operand = some v → s.ctx.usesOf (.value v) ≠ none)
    (hedit : edit.onLists segs = some (result, segs')) :
    ∃ s', edit.apply mode op s = some (result, s') ∧ s.Edited s' op segs' := by
  cases edit with
  | pushToSegment i v =>
      obtain ⟨seg, hseg, hedit⟩ := Option.bind_eq_some_iff.mp hedit
      obtain ⟨rfl, rfl⟩ := Prod.mk.inj (Option.some.inj hedit)
      obtain ⟨s', hs', hedited⟩ := push_edited mode hdu h hseg hfits (hv v rfl)
      refine ⟨s', ?_, hedited⟩
      rw [SegmentEdit.apply, hs']
      rfl
  | popFromSegment i =>
      obtain ⟨seg, hseg, hedit⟩ := Option.bind_eq_some_iff.mp hedit
      obtain ⟨v, hlast, hedit⟩ := Option.bind_eq_some_iff.mp hedit
      obtain ⟨rfl, rfl⟩ := Prod.mk.inj (Option.some.inj hedit)
      obtain ⟨s', hs', hedited⟩ := pop_edited mode hdu h hseg hlast hfits
      refine ⟨s', ?_, hedited⟩
      rw [SegmentEdit.apply, hs']
      rfl
  | insertIntoSegment i j v =>
      obtain ⟨seg, hseg, hedit⟩ := Option.bind_eq_some_iff.mp hedit
      obtain ⟨_, hj, hedit⟩ := Option.bind_eq_some_iff.mp hedit
      obtain ⟨rfl, rfl⟩ := Prod.mk.inj (Option.some.inj hedit)
      have hj : j ≤ seg.length := by simpa [Option.guard_eq_some'] using hj
      obtain ⟨s', hs', hedited⟩ :=
        insert_edited mode hdu h hseg hj hfits.1 (hfits.2 seg hseg) (hv v rfl)
      refine ⟨s', ?_, hedited⟩
      rw [SegmentEdit.apply, hs']
      rfl
  | removeFromSegment i j =>
      obtain ⟨seg, hseg, hedit⟩ := Option.bind_eq_some_iff.mp hedit
      obtain ⟨v, hj, hedit⟩ := Option.bind_eq_some_iff.mp hedit
      obtain ⟨rfl, rfl⟩ := Prod.mk.inj (Option.some.inj hedit)
      obtain ⟨s', hs', hedited⟩ := remove_edited mode hdu h hseg hj hfits
      refine ⟨s', ?_, hedited⟩
      rw [SegmentEdit.apply, hs']
      rfl
  | addSuccessorOperand succIdx v =>
      obtain ⟨seg, hseg, hedit⟩ := Option.bind_eq_some_iff.mp hedit
      obtain ⟨rfl, rfl⟩ := Prod.mk.inj (Option.some.inj hedit)
      obtain ⟨s', hs', hedited⟩ := push_edited mode hdu h hseg hfits (hv v rfl)
      refine ⟨s', ?_, hedited⟩
      rw [SegmentEdit.apply, addSuccessorOperand, hs']
      rfl
  | removeSuccessorOperand succIdx j =>
      obtain ⟨seg, hseg, hedit⟩ := Option.bind_eq_some_iff.mp hedit
      obtain ⟨v, hj, hedit⟩ := Option.bind_eq_some_iff.mp hedit
      obtain ⟨rfl, rfl⟩ := Prod.mk.inj (Option.some.inj hedit)
      obtain ⟨s', hs', hedited⟩ := remove_edited mode hdu h hseg hj hfits
      refine ⟨s', ?_, hedited⟩
      rw [SegmentEdit.apply, removeSuccessorOperand, hs']
      rfl

/-! ## Sequences of edits -/

/-- A sequence of edits, by induction on the sequence. -/
theorem applyAll_edited {edits : List SegmentEdit} {results : List EditResult}
    {segs' : List (List Value)} (hdu : s.ctx.DefUse) (h : s.Agrees op segs)
    (hfits : SegmentEdit.FitsAll edits segs)
    (hv : ∀ edit ∈ edits, ∀ v, edit.operand = some v → s.ctx.usesOf (.value v) ≠ none)
    (hedits : SegmentEdit.onListsAll edits segs = some (results, segs')) :
    ∃ s', SegmentEdit.applyAll mode op edits s = some (results, s') ∧ s.Edited s' op segs' := by
  induction edits generalizing s segs results with
  | nil =>
      obtain ⟨rfl, rfl⟩ := Prod.mk.inj (Option.some.inj hedits)
      exact ⟨s, rfl, h, hdu, fun _ => Iff.rfl⟩
  | cons edit edits ih =>
      obtain ⟨⟨result, segs₁⟩, hedit, hedits⟩ := Option.bind_eq_some_iff.mp hedits
      obtain ⟨⟨rest, segs₂⟩, hrest, hedits⟩ := Option.bind_eq_some_iff.mp hedits
      obtain ⟨rfl, rfl⟩ := Prod.mk.inj (Option.some.inj hedits)
      obtain ⟨hfit, hfits⟩ := hfits
      obtain ⟨s₁, hs₁, hedited₁⟩ :=
        apply_edited mode hdu h hfit (hv edit List.mem_cons_self) hedit
      have hv₁ : ∀ edit ∈ edits, ∀ v, edit.operand = some v →
          s₁.ctx.usesOf (.value v) ≠ none := by
        intro edit' hedit' v hop
        rw [Ne, hedited₁.defined]
        exact hv edit' (List.mem_cons_of_mem _ hedit') v hop
      obtain ⟨s₂, hs₂, hedited₂⟩ :=
        ih hedited₁.defUse hedited₁.agrees (hfits _ _ hedit) hv₁ hrest
      refine ⟨s₂, ?_, hedited₂.agrees, hedited₂.defUse, ?_⟩
      · rw [SegmentEdit.applyAll]
        simp only [Option.bind_eq_bind, hs₁, hs₂, Option.bind_some]
      · exact fun d => (hedited₂.defined d).trans (hedited₁.defined d)

variable {mode}

/-- The segments of an operation, and the operands of its successors, are the lists. -/
structure ReadsAs (mode : OverflowMode) (s : SegmentedContext) (op : OpPtr)
    (segs : List (List Value)) : Prop where
  segment : ∀ i seg, segs[i]? = some seg → start segs i < 2 ^ 32 →
    s.getSegment mode op i = some seg
  successor : ∀ (kind : SegmentedBranch) succIdx seg, segs[succIdx + 1]? = some seg →
    start segs (succIdx + 1) < 2 ^ 32 → (kind = .condBr → succIdx < 2) →
    s.successorOperands mode kind op succIdx = some seg

theorem Agrees.readsAs (h : s.Agrees op segs) : s.ReadsAs mode op segs := by
  obtain ⟨sizes, hsizes, hlengths⟩ := h.sizes
  have hsegment : ∀ i seg, segs[i]? = some seg → start segs i < 2 ^ 32 →
      s.getSegment mode op i = some seg :=
    fun i seg hseg hfits => (getSegment_eq hsizes h.operands hlengths hseg hfits).2
  refine ⟨hsegment, fun kind succIdx seg hseg hfits hkind => ?_⟩
  rw [successorOperands, successorOperandRange_eq hkind]
  exact hsegment (succIdx + 1) seg hseg hfits

/-! ## One value in all operands -/

/-- The argument of a block. -/
def blockArg : Value := ⟨0, .block ⟨0⟩⟩

/-- An operation with `n` operands in one segment, which are all the argument of a block. -/
def manyUses (n : Nat) : SegmentedContext where
  ctx := {
    valueCounter := 1
    useCounter := n
    operations op := if op = ⟨0⟩ then
      some { concreteOp := { opId := 0 }, operands := (List.range n).map (⟨·, blockArg⟩) }
      else none
    basicBlocks block := if block = ⟨0⟩ then
      some { args := [⟨⟨(List.range n).map (⟨⟨0⟩, ·⟩)⟩, 0, 0⟩] }
      else none
    nextOp := 1
    nextBlock := 1 }
  segmentSizes op := if op = ⟨0⟩ then some [UInt32.ofNat n] else none

theorem manyUses_agrees {n : Nat} (hn : n < 2 ^ 32) :
    (manyUses n).Agrees ⟨0⟩ [List.replicate n blockArg] where
  operands := by
    show some (((List.range n).map (⟨·, blockArg⟩)).map (Operand.defn (δ := Value))) = _
    rw [List.map_map, List.flatten_singleton]
    congr 1
    exact (List.map_const' ..).trans (by rw [List.length_range]; rfl)
  sizes := by
    refine ⟨[UInt32.ofNat n], rfl, ?_⟩
    rw [List.map_singleton, List.map_singleton, UInt32.toNat_ofNat_of_lt' hn, List.length_replicate]

theorem manyUses_valueDefs {n : Nat} {entity : DefiningEntity} {l : List ValueDef}
    (hl : (manyUses n).ctx.valueDefs entity = some l) : (entity = .op ⟨0⟩ ∧ l = []) ∨
      (entity = .block ⟨0⟩ ∧ l = [⟨⟨(List.range n).map (⟨⟨0⟩, ·⟩)⟩, 0, 0⟩]) := by
  cases entity with
  | op op =>
      obtain ⟨o, ho, rfl⟩ := Option.map_eq_some_iff.mp hl
      obtain ⟨rfl, heq⟩ := Option.ite_none_right_eq_some.mp ho
      obtain rfl := Option.some.inj heq
      exact .inl ⟨rfl, rfl⟩
  | block block =>
      obtain ⟨b, hb, rfl⟩ := Option.map_eq_some_iff.mp hl
      obtain ⟨rfl, heq⟩ := Option.ite_none_right_eq_some.mp hb
      obtain rfl := Option.some.inj heq
      exact .inr ⟨rfl, rfl⟩

theorem manyUses_fresh (n : Nat) : (manyUses n).ctx.Fresh where
  vals_nodup entity l hl := by
    rcases manyUses_valueDefs hl with ⟨_, rfl⟩ | ⟨_, rfl⟩
    · exact List.nodup_nil
    · exact List.nodup_singleton _
  vals_lt entity l hl v hv := by
    rcases manyUses_valueDefs hl with ⟨_, rfl⟩ | ⟨_, rfl⟩
    · exact absurd hv List.not_mem_nil
    · rw [List.mem_singleton.mp hv]
      exact Nat.one_pos
  op_lt op hop := by
    by_cases h : op = ⟨0⟩
    · rw [h]
      exact Nat.one_pos
    · exact absurd (if_neg h) hop
  block_lt block hblock := by
    by_cases h : block = ⟨0⟩
    · rw [h]
      exact Nat.one_pos
    · exact absurd (if_neg h) hblock

/-- The references of the operation, and nothing else. -/
theorem mem_manyUses_refs {n : Nat} {op : OpPtr} {r : Nat × Def} :
    r ∈ (manyUses n).ctx.refsOf op ↔ op = ⟨0⟩ ∧ r.1 < n ∧ r.2 = .value blockArg := by
  by_cases hop : op = ⟨0⟩
  · subst hop
    show r ∈ ((List.range n).map (⟨·, blockArg⟩)).map (Operand.ref Def.value) ++ [] ↔ _
    rw [List.append_nil, List.map_map, List.mem_map]
    constructor
    · rintro ⟨k, hk, rfl⟩
      exact ⟨rfl, List.mem_range.mp hk, rfl⟩
    · rintro ⟨_, hlt, hdef⟩
      exact ⟨r.1, List.mem_range.mpr hlt, Prod.ext rfl hdef.symm⟩
  · have hnil : (manyUses n).ctx.refsOf op = [] := by
      rw [Context.refsOf]
      show ((if op = ⟨0⟩ then some _ else none : Option Operation).map _).getD [] = []
      rw [if_neg hop]
      rfl
    rw [hnil]
    exact ⟨fun h => absurd h List.not_mem_nil, fun h => absurd h.1 hop⟩

/-- The use set of the argument, and nothing else. -/
theorem manyUses_usePairs {n : Nat} {d : Def} {us : List (OpPtr × Nat)}
    (hd : (manyUses n).ctx.usePairs d = some us) :
    (d = .value blockArg ∧ us = (List.range n).map (⟨⟨0⟩, ·⟩)) ∨ us = [] := by
  obtain ⟨uses, huses, rfl⟩ := Option.map_eq_some_iff.mp hd
  cases d with
  | block block =>
      obtain ⟨b, hb, rfl⟩ := Option.map_eq_some_iff.mp huses
      obtain ⟨_, heq⟩ := Option.ite_none_right_eq_some.mp hb
      obtain rfl := Option.some.inj heq
      exact .inr rfl
  | value v =>
      rw [Context.usesOf_value] at huses
      obtain ⟨e, he, rfl⟩ := Option.map_eq_some_iff.mp huses
      obtain ⟨l, hl, he⟩ := Option.bind_eq_some_iff.mp he
      rcases manyUses_valueDefs hl with ⟨_, rfl⟩ | ⟨hentity, rfl⟩
      · exact absurd he nofun
      · obtain rfl := List.mem_singleton.mp (List.mem_of_find?_eq_some he)
        have huid : 0 = v.valUid := by simpa using List.find?_some he
        obtain ⟨uid, entity⟩ := v
        obtain rfl : entity = .block ⟨0⟩ := hentity
        obtain rfl : 0 = uid := huid
        refine .inl ⟨rfl, ?_⟩
        rw [List.map_map]
        rfl

theorem manyUses_defUse (n : Nat) : (manyUses n).ctx.DefUse where
  toFresh := manyUses_fresh n
  consistent := {
    recorded := by
      intro op r hr
      obtain ⟨rfl, hlt, hdef⟩ := mem_manyUses_refs.mp hr
      refine ⟨(List.range n).map (⟨⟨0⟩, ·⟩), ?_, ?_⟩
      · rw [hdef]
        show some (((List.range n).map (Use.mk ⟨0⟩)).map Use.pair) = _
        rw [List.map_map]
        rfl
      · exact List.mem_map.mpr ⟨r.1, List.mem_range.mpr hlt, rfl⟩
    refers := by
      intro d us hd u hu
      rcases manyUses_usePairs hd with ⟨rfl, rfl⟩ | rfl
      · obtain ⟨k, hk, rfl⟩ := List.mem_map.mp hu
        exact mem_manyUses_refs.mpr ⟨rfl, List.mem_range.mp hk, rfl⟩
      · exact absurd hu List.not_mem_nil
    ids_nodup := by
      intro op
      by_cases hop : op = ⟨0⟩
      · subst hop
        show ((((List.range n).map (fun k => (⟨k, blockArg⟩ : Operand Value))).map
          (Operand.ref Def.value) ++ []).map Prod.fst).Nodup
        rw [List.append_nil, List.map_map, List.map_map]
        exact List.nodup_range.map (fun _ _ h => h)
      · have hnil : (manyUses n).ctx.refsOf op = [] := by
          apply List.eq_nil_iff_forall_not_mem.mpr
          intro r hr
          exact hop (mem_manyUses_refs.mp hr).1
        rw [hnil]
        exact List.nodup_nil
    uses_nodup := by
      intro d us hd
      rcases manyUses_usePairs hd with ⟨_, rfl⟩ | rfl
      · exact List.nodup_range.map (fun _ _ h => (Prod.mk.inj h).2)
      · exact List.nodup_nil }
  ids_lt op r hr := (mem_manyUses_refs.mp hr).2.1

theorem manyUses_usesOf (n : Nat) : (manyUses n).ctx.usesOf (.value blockArg) =
    some ((List.range n).map (⟨⟨0⟩, ·⟩)) := rfl

/-! ## Edits are edits of lists -/

/-- A sequence of edits of an operation is the same sequence of edits of its segments, as long
    as every edit stays within 32 bits. -/
theorem edits_onLists {edits : List SegmentEdit} {results : List EditResult}
    {segs' : List (List Value)} (hdu : s.ctx.DefUse) (h : s.Agrees op segs)
    (hfits : SegmentEdit.FitsAll edits segs)
    (hv : ∀ edit ∈ edits, ∀ v, edit.operand = some v → s.ctx.usesOf (.value v) ≠ none)
    (hedits : SegmentEdit.onListsAll edits segs = some (results, segs')) :
    ∃ s', SegmentEdit.applyAll mode op edits s = some (results, s') ∧ s'.Agrees op segs' ∧
      s'.ReadsAs mode op segs' := by
  obtain ⟨s', hs', hedited⟩ := applyAll_edited mode hdu h hfits hv hedits
  exact ⟨s', hs', hedited.agrees, hedited.agrees.readsAs⟩

/-- A second argument of the block. -/
def secondArg : Value := ⟨1, .block ⟨0⟩⟩

/-- The argument with three uses in two segments, and a second one without uses. -/
def twoSegments : Option SegmentedContext := do
  let ctx ← (manyUses 3).ctx.pushArgument ⟨0⟩ 0
  some { ctx, segmentSizes op := if op = ⟨0⟩ then some [1, 2] else none }

theorem twoSegments_spec : ∃ s, twoSegments = some s ∧ s.ctx.DefUse ∧
    s.Agrees ⟨0⟩ [[blockArg], [blockArg, blockArg]] ∧
    s.ctx.usesOf (.value secondArg) = some [] := by
  have hpush : (manyUses 3).ctx.pushValue (.block ⟨0⟩) 0 = some _ := rfl
  exact ⟨_, rfl, Context.pushValue_defUse (manyUses_defUse 3) hpush, ⟨rfl, [1, 2], rfl, rfl⟩, rfl⟩

/-- A push into the first segment, and a removal from the second one. -/
theorem edits_onLists_twoSegments : ∃ s s', twoSegments = some s ∧
    SegmentEdit.applyAll .checked ⟨0⟩ [.pushToSegment 0 secondArg, .removeFromSegment 1 0] s =
      some ([.index 1, .value blockArg], s') ∧
    s'.Agrees ⟨0⟩ [[blockArg, secondArg], [blockArg]] ∧
    s'.ReadsAs .checked ⟨0⟩ [[blockArg, secondArg], [blockArg]] := by
  obtain ⟨s, hs, hdefUse, hagrees, huses⟩ := twoSegments_spec
  have hfits : SegmentEdit.FitsAll [.pushToSegment 0 secondArg, .removeFromSegment 1 0]
      [[blockArg], [blockArg, blockArg]] := by
    refine ⟨⟨by decide, fun seg hseg => ?_⟩, fun result segs' hpush => ?_⟩
    · obtain rfl : [blockArg] = seg := Option.some.inj hseg
      decide
    · obtain ⟨_, rfl⟩ := Prod.mk.inj (Option.some.inj hpush)
      have hstart : start [[blockArg, secondArg], [blockArg, blockArg]] 1 < 2 ^ 32 := by decide
      exact ⟨hstart, fun _ _ _ => trivial⟩
  have hallocated : ∀ edit ∈ [SegmentEdit.pushToSegment 0 secondArg, .removeFromSegment 1 0],
      ∀ v, edit.operand = some v → s.ctx.usesOf (.value v) ≠ none := by
    intro edit hedit v hv
    rcases List.mem_cons.mp hedit with rfl | hedit
    · obtain rfl : secondArg = v := Option.some.inj hv
      rw [huses]
      exact nofun
    · obtain rfl := List.mem_singleton.mp hedit
      exact absurd hv nofun
  obtain ⟨s', hedits⟩ := edits_onLists hdefUse hagrees hfits hallocated rfl
  exact ⟨s, s', hs, hedits⟩

/-- A push that does not stay within 32 bits: the size of the segment panics or becomes 0. -/
theorem push_not_agrees {n : Nat} (hn : n + 1 = 2 ^ 32) (mode : OverflowMode) :
    ¬ ∃ s', SegmentEdit.applyAll mode ⟨0⟩ [.pushToSegment 0 blockArg] (manyUses n) =
      some ([.index n], s') ∧ s'.Agrees ⟨0⟩ [List.replicate n blockArg ++ [blockArg]] := by
  rintro ⟨s', happly, hagrees⟩
  obtain ⟨⟨result, s₁⟩, hpush, happly⟩ := Option.bind_eq_some_iff.mp happly
  obtain ⟨⟨rest, s₂⟩, hnil, happly⟩ := Option.bind_eq_some_iff.mp happly
  obtain ⟨_, rfl⟩ := Prod.mk.inj (Option.some.inj happly)
  obtain ⟨_, rfl⟩ := Prod.mk.inj (Option.some.inj hnil)
  obtain ⟨⟨idx, s₃⟩, hpush', heq⟩ := Option.map_eq_some_iff.mp hpush
  obtain ⟨_, rfl⟩ := Prod.mk.inj heq
  have hsizes : (manyUses n).segmentSizes ⟨0⟩ = some [UInt32.ofNat n] := rfl
  rw [pushToSegment, getOperandSegmentSizes, hsizes, Option.bind_eq_bind, Option.bind_some]
    at hpush'
  obtain ⟨size, hsize, hpush⟩ := Option.bind_eq_some_iff.mp hpush'
  obtain rfl : UInt32.ofNat n = size := Option.some.inj hsize
  obtain ⟨_, _, hpush⟩ := Option.bind_eq_some_iff.mp hpush
  obtain ⟨ctx', _, hpush⟩ := Option.bind_eq_some_iff.mp hpush
  obtain ⟨newSize, hadd, hpush⟩ := Option.bind_eq_some_iff.mp hpush
  obtain ⟨_, rfl⟩ := Prod.mk.inj (Option.some.inj hpush)
  obtain ⟨sizes, hsizes', hlengths⟩ := hagrees.sizes
  have hset : some [newSize] = some sizes := by
    rw [← hsizes']
    rfl
  obtain rfl := Option.some.inj hset
  have hlen : newSize.toNat = n + 1 := by
    have := List.head_eq_of_cons_eq hlengths
    rwa [List.length_append, List.length_replicate, List.length_singleton] at this
  have hlt : newSize.toNat < 2 ^ 32 := newSize.toNat_lt
  omega

/-- A push to a segment of `2 ^ 32 - 1` operands. -/
theorem edits_not_onLists :
    (manyUses 4294967295).ctx.DefUse ∧
    (manyUses 4294967295).Agrees ⟨0⟩ [List.replicate 4294967295 blockArg] ∧
    (manyUses 4294967295).ctx.usesOf (.value blockArg) ≠ none ∧
    SegmentEdit.onListsAll [.pushToSegment 0 blockArg] [List.replicate 4294967295 blockArg] =
      some ([.index 4294967295], [List.replicate 4294967295 blockArg ++ [blockArg]]) ∧
    ∀ mode, ¬ ∃ s',
      SegmentEdit.applyAll mode ⟨0⟩ [.pushToSegment 0 blockArg] (manyUses 4294967295) =
        some ([.index 4294967295], s') ∧
      s'.Agrees ⟨0⟩ [List.replicate 4294967295 blockArg ++ [blockArg]] := by
  refine ⟨manyUses_defUse _, manyUses_agrees (by norm_num), ?_, ?_, push_not_agrees (by norm_num)⟩
  · rw [manyUses_usesOf]
    exact nofun
  · have hlen := List.length_replicate (n := 4294967295) (a := blockArg)
    show some ([EditResult.index (List.replicate 4294967295 blockArg).length], _) = _
    rw [hlen]
    rfl

end SegmentedContext

end Pliron
