/-
  Pliron.LLVM.MetadataCorrect

  When the import of metadata is faithful.

  An operand that is still being converted has its id already, so a node that refers to it is kept
  although that operand may be dropped later.  `Trap` says from which nodes the import comes to such
  a node; without traps, whatever is attached where, the import is the graph.
-/

import Pliron.LLVM.MetadataSpec

namespace Pliron.Metadata

open Lib Relation

variable {μ A ε : Type}

/-! ## Chains of first visits -/

namespace LLVMMetadata

variable (g : LLVMMetadata μ A ε)

/-- An operand with which the conversion of its node goes on, while the nodes on the stack are
    being converted. -/
def Passed (stack : List μ) (operand : Option μ) : Prop :=
  match operand with
  | none => True
  | some md =>
    match g.kind md with
    | .mdString => g.mdString md ≠ none
    | .mdTuple => md ∈ stack ∨ g.Clean md
    | .constantAsMetadata => ∃ a, g.constToAttr md = .ok (some a)
    | .other => False

variable {g} {root v w : μ} {stack : List μ} {operand : Option μ}

end LLVMMetadata

variable {g : LLVMMetadata μ A ε} {stack : List μ} {cctx cctx' : MdConversionContext μ A}
  {root v w : μ}

/-! ## Without traps -/

/-- Every node that is kept, and not still being converted, is clean. -/
def Settled (g : LLVMMetadata μ A ε) (stack : List μ) (cctx : MdConversionContext μ A) : Prop :=
  ∀ v id, cctx.nodeMap v = some (some id) → v ∉ stack → g.Clean v

section Operands

variable {convertNode : μ → MdConversionContext μ A → Result μ A ε (Option MdNodeId)}
  (hsteps : ∀ md cctx, Inv g stack cctx → NodeConverts g stack cctx md (convertNode md cctx))
include hsteps

end Operands

variable [DecidableEq μ]

theorem Settled.drop {stack' : List μ} (h : Settled g stack' cctx) (v : μ)
    (hsub : ∀ x, x ∉ stack → x ≠ v → x ∉ stack') :
    Settled g stack { cctx with nodeMap := cctx.nodeMap.insert v none } := by
  intro x id hx hnot
  rcases HMap.insert_eq_some_iff.mp hx with ⟨-, hid⟩ | ⟨hxv, hx⟩
  · exact nomatch hid
  · exact h x id hx (hsub x hnot hxv)

theorem Settled.enter (h : Settled g stack cctx) : Settled g (v :: stack) (cctx.enter v) := by
  intro x id hx hnot
  rw [List.mem_cons, not_or] at hnot
  exact h x id ((HMap.insert_of_ne hnot.1).symm.trans hx) hnot.2

omit [DecidableEq μ] in
theorem Inv.empty : Inv g [] (MdConversionContext.empty : MdConversionContext μ A) :=
  ⟨List.nodup_nil, nofun, nofun, nofun, nofun, nofun, nofun⟩

end Pliron.Metadata
