/-
  Pliron.LLVM.MetadataSpec

  What one conversion of a metadata node does to the conversion's state.

  `Inv` holds of the state while the nodes of a stack are being converted.  A conversion keeps every
  entry that is there before it, and adds entries only for what its node reaches.
-/

import Pliron.Lib.Digraph
import Pliron.LLVM.Metadata

namespace Pliron.Metadata

open Lib Relation

variable {μ A ε : Type}

/-! ## Operands -/

namespace LLVMMetadata

variable (g : LLVMMetadata μ A ε)

/-- An operand that has no representation of its own. -/
def Unsupported (operand : Option μ) : Prop :=
  ∃ md, operand = some md ∧ (g.kind md = .other ∨
    (g.kind md = .mdString ∧ g.mdString md = none) ∨
    (g.kind md = .constantAsMetadata ∧ g.constToAttr md = .ok none))

/-- A constant operand whose conversion fails. -/
def Erring (operand : Option μ) : Prop :=
  ∃ md e, operand = some md ∧ g.kind md = .constantAsMetadata ∧ g.constToAttr md = .error e

/-- One tuple is an operand of another. -/
def Refers (v w : μ) : Prop := some w ∈ g.nodeOperands v ∧ g.kind w = .mdTuple

/-- A tuple from which no unsupported operand can be reached. -/
def Representable (v : μ) : Prop :=
  g.kind v = .mdTuple ∧
    ∀ w, Reach g.Refers v w → ∀ operand ∈ g.nodeOperands w, ¬ g.Unsupported operand

/-- A tuple that is representable, with no failing constant in reach either. -/
def Clean (v : μ) : Prop :=
  g.Representable v ∧ ∀ w, Reach g.Refers v w → ∀ operand ∈ g.nodeOperands w, ¬ g.Erring operand

/-- The conversion of an operand, when `isNode` says which id stands for which tuple. -/
def OperandOf (isNode : μ → MdNodeId → Prop) (operand : Option μ) (attr : MdOperandAttr A) : Prop :=
  match operand with
  | none => attr = .null
  | some md =>
    match g.kind md with
    | .mdString => ∃ s, g.mdString md = some s ∧ attr = .string s
    | .mdTuple => ∃ id, attr = .node id ∧ isNode md id
    | .constantAsMetadata => ∃ a, g.constToAttr md = .ok (some a) ∧ attr = .constant a
    | .other => False

variable {g} {v w : μ} {operand : Option μ} {attr : MdOperandAttr A}

theorem Representable.refers (h : g.Representable v) (hvw : g.Refers v w) : g.Representable w :=
  ⟨hvw.2, fun x hx => h.2 x (Reach.head hvw hx)⟩

theorem Clean.refers (h : g.Clean v) (hvw : g.Refers v w) : g.Clean w :=
  ⟨h.1.refers hvw, fun x hx => h.2 x (Reach.head hvw hx)⟩

theorem Clean.reach (h : g.Clean v) (hvw : Reach g.Refers v w) : g.Clean w :=
  hvw.closed h fun _ _ hx hxy => hx.refers hxy

theorem OperandOf.mono {isNode isNode' : μ → MdNodeId → Prop} (h : g.OperandOf isNode operand attr)
    (himp : ∀ md id, g.kind md = .mdTuple → operand = some md → isNode md id → isNode' md id) :
    g.OperandOf isNode' operand attr := by
  match operand with
  | none => exact h
  | some md =>
      unfold OperandOf at h ⊢
      cases hk : g.kind md with
      | mdTuple =>
          simp only [hk] at h ⊢
          obtain ⟨id, hattr, hid⟩ := h
          exact ⟨id, hattr, himp md id hk rfl hid⟩
      | mdString => simpa only [hk] using h
      | constantAsMetadata => simpa only [hk] using h
      | other => simp only [hk] at h

/-- A converted operand is neither unsupported nor failing. -/
theorem OperandOf.supported {isNode : μ → MdNodeId → Prop} (h : g.OperandOf isNode operand attr) :
    ¬ g.Unsupported operand ∧ ¬ g.Erring operand := by
  constructor
  · rintro ⟨md, rfl, hk | ⟨hk, hs⟩ | ⟨hk, hc⟩⟩
    · simp only [OperandOf, hk] at h
    · simp [OperandOf, hk, hs] at h
    · simp [OperandOf, hk, hc] at h
  · rintro ⟨md, e, rfl, hk, hc⟩
    simp [OperandOf, hk, hc] at h

end LLVMMetadata

/-! ## States of the conversion -/

/-- The id of a tuple that is converted, or being converted, or has been dropped. -/
def MayBe (nodeMap : HMap μ (Option MdNodeId)) (md : μ) (id : MdNodeId) : Prop :=
  nodeMap md = some (some id) ∨ nodeMap md = some none

/-- While the nodes on the stack are being converted: every other node with an id has its entry in
    the table, and no representable node has been dropped. -/
structure Inv (g : LLVMMetadata μ A ε) (stack : List μ) (cctx : MdConversionContext μ A) : Prop where
  nodup : stack.Nodup
  reserved : ∀ v ∈ stack, ∃ id, cctx.nodeMap v = some (some id)
  tuple : ∀ v id, cctx.nodeMap v = some (some id) → g.kind v = .mdTuple
  lt : ∀ v id, cctx.nodeMap v = some (some id) → id < cctx.table.length
  inj : ∀ v w id, cctx.nodeMap v = some (some id) → cctx.nodeMap w = some (some id) → v = w
  dropped : ∀ v, cctx.nodeMap v = some none → ¬ g.Representable v
  entry : ∀ v id, cctx.nodeMap v = some (some id) → v ∉ stack → ∃ operands,
    cctx.table[id]? = some ⟨!g.uniqued v, operands⟩ ∧
      List.Forall₂ (g.OperandOf (MayBe cctx.nodeMap)) (g.nodeOperands v) operands

variable {g : LLVMMetadata μ A ε} {stack : List μ} {cctx cctx' : MdConversionContext μ A} {v w : μ}
  {id : MdNodeId}

/-- Operands stay converted while entries are added, or become dropped. -/
theorem forall₂_mono {operands : List (Option μ)} {attrs : List (MdOperandAttr A)}
    {nodeMap nodeMap' : HMap μ (Option MdNodeId)}
    (h : List.Forall₂ (g.OperandOf (MayBe nodeMap)) operands attrs)
    (hmap : ∀ x r, nodeMap x = some r → nodeMap' x = some r ∨ nodeMap' x = some none) :
    List.Forall₂ (g.OperandOf (MayBe nodeMap')) operands attrs := by
  refine h.imp fun operand attr hop => hop.mono fun md id _ _ hid => ?_
  rcases hid with hid | hid
  · exact hmap md _ hid
  · exact Or.inr ((hmap md _ hid).elim (fun h => h) (fun h => h))

/-- The state in which the operands of a fresh tuple are converted. -/
def MdConversionContext.enter [DecidableEq μ] (cctx : MdConversionContext μ A)
    (v : μ) : MdConversionContext μ A :=
  ⟨cctx.nodeMap.insert v (some cctx.table.length), (MdTableAttr.reserve cctx.table).2⟩

namespace Inv

variable [DecidableEq μ]

/-- A fresh tuple is given the next id, and comes onto the stack. -/
theorem reserve (h : Inv g stack cctx) (hv : g.kind v = .mdTuple) (hfresh : cctx.nodeMap v = none) :
    Inv g (v :: stack) (cctx.enter v) := by
  have hget : ∀ x id, cctx.nodeMap.insert v (some cctx.table.length) x = some (some id) →
      (x = v ∧ id = cctx.table.length) ∨ (x ≠ v ∧ cctx.nodeMap x = some (some id)) := by
    intro x id hx
    rcases HMap.insert_eq_some_iff.mp hx with ⟨hxv, hid⟩ | hx
    · exact Or.inl ⟨hxv, Option.some.inj hid⟩
    · exact Or.inr hx
  have hv_stack : v ∉ stack := by
    intro hmem
    obtain ⟨id, hid⟩ := h.reserved v hmem
    rw [hfresh] at hid
    exact nomatch hid
  have hlen : (MdTableAttr.reserve cctx.table).2.length = cctx.table.length + 1 := by
    simp [MdTableAttr.reserve]
  refine ⟨List.nodup_cons.mpr ⟨hv_stack, h.nodup⟩, ?_, ?_, ?_, ?_, ?_, ?_⟩
  · intro x hx
    by_cases hxv : x = v
    · subst hxv
      exact ⟨_, HMap.insert_self⟩
    · obtain ⟨id, hid⟩ := h.reserved x ((List.mem_cons.mp hx).resolve_left hxv)
      exact ⟨id, (HMap.insert_of_ne hxv).trans hid⟩
  · intro x id hx
    rcases hget x id hx with ⟨rfl, -⟩ | ⟨-, hx⟩
    · exact hv
    · exact h.tuple x id hx
  · intro x id hx
    show id < (MdTableAttr.reserve cctx.table).2.length
    rw [hlen]
    rcases hget x id hx with ⟨-, rfl⟩ | ⟨-, hx⟩
    · exact Nat.lt_succ_self _
    · exact Nat.lt_succ_of_lt (h.lt x id hx)
  · intro x y id hx hy
    rcases hget x id hx with ⟨hxv, hid⟩ | ⟨-, hx'⟩
    · rcases hget y id hy with ⟨hyv, -⟩ | ⟨-, hy'⟩
      · rw [hxv, hyv]
      · exact absurd (h.lt y id hy') (hid ▸ Nat.lt_irrefl _)
    · rcases hget y id hy with ⟨-, hid⟩ | ⟨-, hy'⟩
      · exact absurd (h.lt x id hx') (hid ▸ Nat.lt_irrefl _)
      · exact h.inj x y id hx' hy'
  · intro x hx
    rcases HMap.insert_eq_some_iff.mp hx with ⟨-, hid⟩ | ⟨-, hx⟩
    · exact nomatch hid
    · exact h.dropped x hx
  · intro x id hx hnot
    rw [List.mem_cons, not_or] at hnot
    rcases hget x id hx with ⟨hxv, -⟩ | ⟨-, hx⟩
    · exact absurd hxv hnot.1
    obtain ⟨operands, hentry, hops⟩ := h.entry x id hx hnot.2
    refine ⟨operands, ?_, forall₂_mono hops fun y r hy => Or.inl ?_⟩
    · show (cctx.table ++ _)[id]? = _
      rw [List.getElem?_append_left (h.lt x id hx), hentry]
    · have hyv : y ≠ v := by
        intro hyv
        rw [hyv, hfresh] at hy
        exact nomatch hy
      exact (HMap.insert_of_ne hyv).trans hy

/-- A node that is not representable is dropped, from the stack or before it gets there. -/
theorem drop (h : Inv g (v :: stack) cctx ∨ (Inv g stack cctx ∧ cctx.nodeMap v = none))
    (hnot : ¬ g.Representable v) :
    Inv g stack { cctx with nodeMap := cctx.nodeMap.insert v none } := by
  have hget : ∀ x id, cctx.nodeMap.insert v none x = some (some id) →
      x ≠ v ∧ cctx.nodeMap x = some (some id) := by
    intro x id hx
    rcases HMap.insert_eq_some_iff.mp hx with ⟨-, hid⟩ | hx
    · exact nomatch hid
    · exact hx
  have hstack : stack.Nodup ∧ ∀ x ∈ stack, x ≠ v ∧ ∃ id, cctx.nodeMap x = some (some id) := by
    rcases h with h | ⟨h, hfresh⟩
    · have hnodup := List.nodup_cons.mp h.nodup
      refine ⟨hnodup.2, fun x hx => ⟨?_, h.reserved x (List.mem_cons_of_mem v hx)⟩⟩
      rintro rfl
      exact hnodup.1 hx
    · refine ⟨h.nodup, fun x hx => ⟨?_, h.reserved x hx⟩⟩
      rintro rfl
      obtain ⟨id, hid⟩ := h.reserved x hx
      rw [hfresh] at hid
      exact nomatch hid
  obtain ⟨stack', h, hsub⟩ : ∃ stack', Inv g stack' cctx ∧ ∀ x, x ∉ stack → x ≠ v → x ∉ stack' := by
    rcases h with h | ⟨h, -⟩
    · exact ⟨_, h, fun x hx hxv => List.not_mem_cons_of_ne_of_not_mem hxv hx⟩
    · exact ⟨_, h, fun x hx _ => hx⟩
  refine ⟨hstack.1, ?_, ?_, ?_, ?_, ?_, ?_⟩
  · intro x hx
    obtain ⟨hxv, id, hid⟩ := hstack.2 x hx
    exact ⟨id, (HMap.insert_of_ne hxv).trans hid⟩
  · exact fun x id hx => h.tuple x id (hget x id hx).2
  · exact fun x id hx => h.lt x id (hget x id hx).2
  · exact fun x y id hx hy => h.inj x y id (hget x id hx).2 (hget y id hy).2
  · intro x hx
    rcases HMap.insert_eq_some_iff.mp hx with ⟨rfl, -⟩ | ⟨-, hx⟩
    · exact hnot
    · exact h.dropped x hx
  · intro x id hx hxs
    obtain ⟨hxv, hx⟩ := hget x id hx
    obtain ⟨operands, hentry, hops⟩ := h.entry x id hx (hsub x hxs hxv)
    refine ⟨operands, hentry, forall₂_mono hops fun y r hy => ?_⟩
    by_cases hyv : y = v
    · subst hyv
      exact Or.inr HMap.insert_self
    · exact Or.inl ((HMap.insert_of_ne hyv).trans hy)

/-- A node whose operands are converted gets its entry, and leaves the stack. -/
theorem finish (h : Inv g (v :: stack) cctx) (hid : cctx.nodeMap v = some (some id))
    {operands : List (MdOperandAttr A)}
    (hops : List.Forall₂ (g.OperandOf (MayBe cctx.nodeMap)) (g.nodeOperands v) operands) :
    Inv g stack { cctx with table := cctx.table.set id ⟨!g.uniqued v, operands⟩ } := by
  have hlen : (cctx.table.set id ⟨!g.uniqued v, operands⟩).length = cctx.table.length :=
    List.length_set ..
  refine ⟨(List.nodup_cons.mp h.nodup).2, fun x hx => h.reserved x (List.mem_cons_of_mem v hx),
    h.tuple, fun x i hx => ?_, h.inj, h.dropped, fun x i hx hxs => ?_⟩
  · show i < (cctx.table.set id _).length
    rw [hlen]
    exact h.lt x i hx
  · by_cases hxv : x = v
    · subst hxv
      obtain rfl : i = id := by
        rw [hid] at hx
        exact (Option.some.inj (Option.some.inj hx)).symm
      exact ⟨operands, List.getElem?_set_self (h.lt x i hx), hops⟩
    · obtain ⟨operands', hentry, hops'⟩ :=
        h.entry x i hx (List.not_mem_cons_of_ne_of_not_mem hxv hxs)
      have hne : id ≠ i := by
        rintro rfl
        exact hxv (h.inj x v id hx hid)
      exact ⟨operands', by rw [List.getElem?_set_ne hne, hentry], hops'⟩

end Inv

/-! ## Steps of the conversion -/

/-- What a conversion does to the state: it keeps every entry that is there, and adds entries only
    for nodes with `P`. -/
structure Steps (g : LLVMMetadata μ A ε) (stack : List μ) (cctx cctx' : MdConversionContext μ A)
    (P : μ → Prop) : Prop where
  inv : Inv g stack cctx'
  keeps : ∀ x r, cctx.nodeMap x = some r → cctx'.nodeMap x = some r
  fresh : ∀ x, cctx'.nodeMap x ≠ none → cctx.nodeMap x ≠ none ∨ P x

namespace Steps

variable {cctx'' : MdConversionContext μ A} {P P' : μ → Prop}

theorem refl (h : Inv g stack cctx) : Steps g stack cctx cctx P :=
  ⟨h, fun _ _ hx => hx, fun _ hx => Or.inl hx⟩

theorem mono (h : Steps g stack cctx cctx' P) (hP : ∀ x, P x → P' x) :
    Steps g stack cctx cctx' P' :=
  ⟨h.inv, h.keeps, fun x hx => (h.fresh x hx).imp_right (hP x)⟩

theorem trans (h : Steps g stack cctx cctx' P) (h' : Steps g stack cctx' cctx'' P) :
    Steps g stack cctx cctx'' P := by
  refine ⟨h'.inv, fun x r hx => h'.keeps x r (h.keeps x r hx), fun x hx => ?_⟩
  rcases h'.fresh x hx with hx | hx
  · exact h.fresh x hx
  · exact Or.inr hx

/-- What is fresh after the steps is fresh before. -/
theorem fresh_of_fresh (h : Steps g stack cctx cctx' P) (hfresh : cctx'.nodeMap v = none) :
    cctx.nodeMap v = none := by
  match hv : cctx.nodeMap v with
  | none => rfl
  | some r =>
      rw [h.keeps v r hv] at hfresh
      exact nomatch hfresh

end Steps

/-- How a conversion ends: with steps and a result as described, or with an error of a constant. -/
def Converts {α : Type} (g : LLVMMetadata μ A ε) (stack : List μ) (cctx : MdConversionContext μ A)
    (P : μ → Prop) (Q : α → MdConversionContext μ A → Prop) : Result μ A ε α → Prop
  | .ok (a, cctx') => Steps g stack cctx cctx' P ∧ Q a cctx'
  | .error (.err _) => True
  | .error .diverged => False

/-- A conversion that starts where steps end. -/
theorem Converts.after {α : Type} {P : μ → Prop} {Q Q' : α → MdConversionContext μ A → Prop}
    {result : Result μ A ε α} (hsteps : Steps g stack cctx cctx' P)
    (h : Converts g stack cctx' P Q result)
    (hQ : ∀ a cctx'', Steps g stack cctx' cctx'' P → Q a cctx'' → Q' a cctx'') :
    Converts g stack cctx P Q' result := by
  match result with
  | .ok (a, cctx'') => exact ⟨hsteps.trans h.1, hQ a cctx'' h.1 h.2⟩
  | .error (.err e) => trivial
  | .error .diverged => exact h

/-- The operand for which a node is dropped. -/
def Lost (g : LLVMMetadata μ A ε) (operand : Option μ) : Prop :=
  g.Unsupported operand ∨ ∃ w, operand = some w ∧ g.kind w = .mdTuple ∧ ¬ g.Representable w

/-- A node is converted to the id that the state has for it; if it is not fresh, nothing happens. -/
abbrev NodeConverts (g : LLVMMetadata μ A ε) (stack : List μ) (cctx : MdConversionContext μ A)
    (md : μ) (result : Result μ A ε (Option MdNodeId)) : Prop :=
  Converts g stack cctx (fun x => cctx.nodeMap md = none ∧ Reach g.Refers md x)
    (fun r cctx' => cctx'.nodeMap md = some r) result

section Operands

variable {convertNode : μ → MdConversionContext μ A → Result μ A ε (Option MdNodeId)}
  (hnode : ∀ md cctx, Inv g stack cctx → NodeConverts g stack cctx md (convertNode md cctx))
include hnode

theorem convertMdOperand_steps (h : Inv g stack cctx) (operand : Option μ) :
    Converts g stack cctx
      (fun x => ∃ w, operand = some w ∧ g.kind w = .mdTuple ∧ cctx.nodeMap w = none ∧
        Reach g.Refers w x)
      (fun r cctx' => (∀ attr, r = some attr → g.OperandOf (MayBe cctx'.nodeMap) operand attr) ∧
        (r = none → Lost g operand))
      (convertMdOperand g convertNode operand cctx) := by
  rcases operand with _ | md
  · refine ⟨Steps.refl h, fun attr hattr => ?_, fun hnone => by cases hnone⟩
    exact (Option.some.inj hattr).symm
  · cases hk : g.kind md with
    | mdString =>
        simp only [convertMdOperand, hk]
        refine ⟨Steps.refl h, fun attr hattr => ?_, fun hnone => ?_⟩
        · obtain ⟨s, hs, rfl⟩ := Option.map_eq_some_iff.mp hattr
          simp only [LLVMMetadata.OperandOf, hk]
          exact ⟨s, hs, rfl⟩
        · exact Or.inl ⟨md, rfl, Or.inr (Or.inl ⟨hk, Option.map_eq_none_iff.mp hnone⟩)⟩
    | mdTuple =>
        have hmd := hnode md cctx h
        simp only [convertMdOperand, hk]
        rcases hr : convertNode md cctx with (e | _) | ⟨r, cctx'⟩
        · trivial
        · rw [hr] at hmd
          exact hmd.elim
        · rw [hr] at hmd
          obtain ⟨hsteps, hres⟩ := hmd
          refine ⟨hsteps.mono fun x hx => ⟨md, rfl, hk, hx.1, hx.2⟩, fun attr hattr => ?_,
            fun hnone => ?_⟩
          · obtain ⟨id, rfl, rfl⟩ := Option.map_eq_some_iff.mp hattr
            simp only [LLVMMetadata.OperandOf, hk]
            exact ⟨id, rfl, Or.inl hres⟩
          · rw [Option.map_eq_none_iff.mp hnone] at hres
            exact Or.inr ⟨md, rfl, hk, hsteps.inv.dropped md hres⟩
    | constantAsMetadata =>
        simp only [convertMdOperand, hk]
        rcases hc : g.constToAttr md with e | attr?
        · trivial
        · refine ⟨Steps.refl h, fun attr hattr => ?_, fun hnone => ?_⟩
          · obtain ⟨a, rfl, rfl⟩ := Option.map_eq_some_iff.mp hattr
            simp only [LLVMMetadata.OperandOf, hk]
            exact ⟨a, hc, rfl⟩
          · rw [Option.map_eq_none_iff.mp hnone] at hc
            exact Or.inl ⟨md, rfl, Or.inr (Or.inr ⟨hk, hc⟩)⟩
    | other =>
        simp only [convertMdOperand, hk]
        refine ⟨Steps.refl h, ?_, fun _ => Or.inl ⟨md, rfl, Or.inl hk⟩⟩
        exact fun attr hattr => by cases hattr

/-- The loop over the operands: induction on the operands that are left. -/
theorem convertMdOperands_steps (operands : List (Option μ)) {cctx : MdConversionContext μ A}
    (h : Inv g stack cctx) :
    Converts g stack cctx
      (fun x => ∃ w, some w ∈ operands ∧ g.kind w = .mdTuple ∧ cctx.nodeMap w = none ∧
        Reach g.Refers w x)
      (fun r cctx' => (∀ attrs, r = some attrs →
          List.Forall₂ (g.OperandOf (MayBe cctx'.nodeMap)) operands attrs) ∧
        (r = none → ∃ operand ∈ operands, Lost g operand))
      (convertMdOperands g convertNode cctx operands) := by
  induction operands generalizing cctx with
  | nil =>
      refine ⟨Steps.refl h, fun attrs hattrs => ?_, fun hnone => nomatch hnone⟩
      rw [← Option.some.inj hattrs]
      exact .nil
  | cons operand rest ih =>
      have hfirst := convertMdOperand_steps hnode h operand
      unfold convertMdOperands
      match hr : convertMdOperand g convertNode operand cctx with
      | .error (.err e) => trivial
      | .error .diverged =>
          rw [hr] at hfirst
          exact hfirst.elim
      | .ok (none, cctx') =>
          rw [hr] at hfirst
          obtain ⟨hsteps, -, hlost⟩ := hfirst
          refine ⟨hsteps.mono ?_, ?_, fun _ => ⟨operand, List.mem_cons_self, hlost rfl⟩⟩
          · rintro x ⟨w, rfl, hw⟩
            exact ⟨w, List.mem_cons_self, hw⟩
          · exact fun attrs hattrs => nomatch hattrs
      | .ok (some attr, cctx') =>
          rw [hr] at hfirst
          obtain ⟨hsteps, hattr, -⟩ := hfirst
          have hrest := ih hsteps.inv
          dsimp only
          match hr' : convertMdOperands g convertNode cctx' rest with
          | .error (.err e) => trivial
          | .error .diverged =>
              rw [hr'] at hrest
              exact hrest.elim
          | .ok (attrs?, cctx'') =>
              rw [hr'] at hrest
              obtain ⟨hsteps', hattrs, hlost⟩ := hrest
              refine ⟨(hsteps.mono ?_).trans (hsteps'.mono ?_), fun attrs hmap => ?_,
                fun hnone => ?_⟩
              · rintro x ⟨w, rfl, hw⟩
                exact ⟨w, List.mem_cons_self, hw⟩
              · rintro x ⟨w, hmem, hk, hfresh, hreach⟩
                exact ⟨w, List.mem_cons_of_mem _ hmem, hk, hsteps.fresh_of_fresh hfresh, hreach⟩
              · obtain ⟨attrs', rfl, rfl⟩ := Option.map_eq_some_iff.mp hmap
                refine .cons ((hattr attr rfl).mono fun md id _ _ hid => ?_) (hattrs attrs' rfl)
                exact hid.imp (hsteps'.keeps md _) (hsteps'.keeps md _)
              · obtain ⟨lost, hmem, hl⟩ := hlost (Option.map_eq_none_iff.mp hnone)
                exact ⟨lost, List.mem_cons_of_mem _ hmem, hl⟩

end Operands

/-- A tuple that is not on the stack leaves room for it. -/
theorem Inv.length_lt (h : Inv g stack cctx) (hv : g.kind v = .mdTuple) (hnot : v ∉ stack) :
    stack.length < g.tuples.length := by
  have hsub : v :: stack ⊆ g.tuples := by
    intro x hx
    rcases List.mem_cons.mp hx with rfl | hx
    · exact g.mem_tuples x hv
    · obtain ⟨id, hid⟩ := h.reserved x hx
      exact g.mem_tuples x (h.tuple x id hid)
  exact ((List.nodup_cons.mpr ⟨hnot, h.nodup⟩).subperm hsub).length_le

theorem Inv.not_mem_stack (h : Inv g stack cctx) (hfresh : cctx.nodeMap v = none) : v ∉ stack := by
  intro hmem
  obtain ⟨id, hid⟩ := h.reserved v hmem
  rw [hfresh] at hid
  exact nomatch hid

/-- A node with a lost operand is not representable. -/
theorem Lost.not_representable {operand : Option μ} (h : Lost g operand)
    (hop : operand ∈ g.nodeOperands v) : ¬ g.Representable v := by
  intro hv
  rcases h with hun | ⟨w, rfl, hw, hnot⟩
  · exact hv.2 v (Reach.refl v) operand hop hun
  · exact hnot (hv.refers ⟨hop, hw⟩)

section Nodes

variable [DecidableEq μ]

/-- A node that has been seen is looked up. -/
theorem convertMdNode_of_seen (fuel : Nat) {r : Option MdNodeId} (hseen : cctx.nodeMap v = some r) :
    convertMdNode g fuel v cctx = .ok (r, cctx) := by
  unfold convertMdNode
  rw [hseen]

/-- A node that is no tuple is only noted down. -/
theorem convertMdNode_of_not_tuple (fuel : Nat) (hfresh : cctx.nodeMap v = none)
    (hv : g.kind v ≠ .mdTuple) : convertMdNode g fuel v cctx =
      .ok (none, { cctx with nodeMap := cctx.nodeMap.insert v none }) := by
  unfold convertMdNode
  rw [hfresh]
  exact if_pos hv

/-- A fresh tuple is entered, its operands are converted, and it is dropped or gets its entry. -/
theorem convertMdNode_of_tuple (fuel : Nat) (hfresh : cctx.nodeMap v = none)
    (hv : g.kind v = .mdTuple) : convertMdNode g (fuel + 1) v cctx =
      match convertMdOperands g (convertMdNode g fuel) (cctx.enter v) (g.nodeOperands v) with
      | .error e => .error e
      | .ok (none, cctx') => .ok (none, { cctx' with nodeMap := cctx'.nodeMap.insert v none })
      | .ok (some operands, cctx') => .ok (some cctx.table.length,
          { cctx' with table := cctx'.table.set cctx.table.length ⟨!g.uniqued v, operands⟩ }) := by
  have hdistinct : ∀ operands : List (MdOperandAttr A),
      (if decide (g.mdNodeInModule (g.nodeOperands v) ≠ v) then MdNodeAttr.newDistinctTuple operands
        else MdNodeAttr.newTuple operands) = ⟨!g.uniqued v, operands⟩ := by
    intro operands
    by_cases hu : g.uniqued v = true
    · simp [(g.mdNodeInModule_eq v).mpr hu, hu, MdNodeAttr.newTuple]
    · have hne : g.mdNodeInModule (g.nodeOperands v) ≠ v := fun h => hu ((g.mdNodeInModule_eq v).mp h)
      simp [hne, hu, MdNodeAttr.newDistinctTuple]
  conv_lhs => unfold convertMdNode
  simp only [hfresh, hv, ne_eq, not_true_eq_false, if_false, hdistinct]
  rfl

theorem steps_skip (h : Inv g stack cctx) (hfresh : cctx.nodeMap v = none)
    (hv : g.kind v ≠ .mdTuple) :
    Steps g stack cctx { cctx with nodeMap := cctx.nodeMap.insert v none }
      (fun x => cctx.nodeMap v = none ∧ Reach g.Refers v x) := by
  refine ⟨Inv.drop (Or.inr ⟨h, hfresh⟩) fun hrep => hv hrep.1, fun x r hx => ?_, fun x hx => ?_⟩
  · have hxv : x ≠ v := by
      rintro rfl
      rw [hfresh] at hx
      exact nomatch hx
    exact (HMap.insert_of_ne hxv).trans hx
  · by_cases hxv : x = v
    · exact Or.inr ⟨hfresh, hxv ▸ Reach.refl x⟩
    · exact Or.inl fun hnone => hx ((HMap.insert_of_ne hxv).trans hnone)

/-- What a fresh tuple's operands do to the state, entering and leaving the tuple included. -/
theorem Steps.leave {cctx' cctx'' : MdConversionContext μ A} (hfresh : cctx.nodeMap v = none)
    (h : Steps g (v :: stack) (cctx.enter v) cctx'
      (fun x => ∃ w, some w ∈ g.nodeOperands v ∧ g.kind w = .mdTuple ∧
        (cctx.enter v).nodeMap w = none ∧ Reach g.Refers w x))
    (hinv : Inv g stack cctx'') (hmap : ∀ x, x ≠ v → cctx''.nodeMap x = cctx'.nodeMap x) :
    Steps g stack cctx cctx'' (fun x => cctx.nodeMap v = none ∧ Reach g.Refers v x) := by
  refine ⟨hinv, fun x r hx => ?_, fun x hx => ?_⟩
  · have hxv : x ≠ v := by
      rintro rfl
      rw [hfresh] at hx
      exact nomatch hx
    rw [hmap x hxv]
    exact h.keeps x r ((HMap.insert_of_ne hxv).trans hx)
  · by_cases hxv : x = v
    · exact Or.inr ⟨hfresh, hxv ▸ Reach.refl x⟩
    rw [hmap x hxv] at hx
    rcases h.fresh x hx with hx | ⟨w, hw, hk, -, hreach⟩
    · exact Or.inl fun hnone => hx ((HMap.insert_of_ne hxv).trans hnone)
    · exact Or.inr ⟨hfresh, Reach.head ⟨hw, hk⟩ hreach⟩

/-- The conversion of a node ends, whatever the graph: induction on the depth that is left. -/
theorem convertMdNode_steps (fuel : Nat) (md : μ) {stack : List μ} {cctx : MdConversionContext μ A}
    (h : Inv g stack cctx) (hfuel : g.tuples.length ≤ stack.length + fuel) :
    NodeConverts g stack cctx md (convertMdNode g fuel md cctx) := by
  induction fuel generalizing md stack cctx with
  | zero =>
      match hmd : cctx.nodeMap md with
      | some r =>
          rw [convertMdNode_of_seen 0 hmd]
          exact ⟨Steps.refl h, hmd⟩
      | none =>
          by_cases hk : g.kind md = .mdTuple
          · have hlt := h.length_lt hk (h.not_mem_stack hmd)
            omega
          · rw [convertMdNode_of_not_tuple 0 hmd hk]
            exact ⟨steps_skip h hmd hk, HMap.insert_self⟩
  | succ fuel ih =>
      match hmd : cctx.nodeMap md with
      | some r =>
          rw [convertMdNode_of_seen _ hmd]
          exact ⟨Steps.refl h, hmd⟩
      | none =>
          by_cases hk : g.kind md = .mdTuple
          · have henter : Inv g (md :: stack) (cctx.enter md) := h.reserve hk hmd
            have hloop := convertMdOperands_steps
              (fun md' _ hinv => ih md' hinv (by rw [List.length_cons]; omega))
              (g.nodeOperands md) henter
            rw [convertMdNode_of_tuple fuel hmd hk]
            match hr : convertMdOperands g (convertMdNode g fuel) (cctx.enter md)
                (g.nodeOperands md) with
            | .error (.err e) => trivial
            | .error .diverged =>
                rw [hr] at hloop
                exact hloop.elim
            | .ok (none, cctx') =>
                rw [hr] at hloop
                obtain ⟨hsteps, -, hlost⟩ := hloop
                obtain ⟨operand, hop, hlost⟩ := hlost rfl
                have hinv := Inv.drop (Or.inl hsteps.inv) (hlost.not_representable hop)
                exact ⟨hsteps.leave hmd hinv fun x hx => HMap.insert_of_ne hx, HMap.insert_self⟩
            | .ok (some operands, cctx') =>
                rw [hr] at hloop
                obtain ⟨hsteps, hops, -⟩ := hloop
                have hid : cctx'.nodeMap md = some (some cctx.table.length) :=
                  hsteps.keeps md _ HMap.insert_self
                have hinv := hsteps.inv.finish hid (hops operands rfl)
                exact ⟨hsteps.leave hmd hinv fun x _ => rfl, hid⟩
          · rw [convertMdNode_of_not_tuple _ hmd hk]
            exact ⟨steps_skip h hmd hk, HMap.insert_self⟩

end Nodes

end Pliron.Metadata
