/-
  Pliron.LLVM.MetadataImport

  The import of a module's metadata: faithful without traps, and only then.
-/

import Pliron.LLVM.MetadataCorrect

namespace Pliron.Metadata

open Lib Relation

variable {μ A ε : Type}

/-! ## Faithful imports -/

/-- The uses of metadata under their names, debug data apart. -/
def LLVMModule.uses (m : LLVMModule μ) : List (String × μ) :=
  m.attachments.flatMap (fun entries => entries.filter (fun e => e.1 ≠ "dbg")) ++
    m.named.flatMap (fun list => list.2.map (Prod.mk list.1))

/-- The uses whose nodes have been kept, with the ids of these. -/
def keptUses (nodeMap : HMap μ (Option MdNodeId)) (uses : List (String × μ)) :
    List (String × MdNodeId) :=
  uses.filterMap (fun use => (nodeMap use.2).join.map (Prod.mk use.1))

variable [DecidableEq μ]

variable {β : Type}

/-- The loop that both attachments and named lists are converted by. -/
def convertUses (g : LLVMMetadata μ A ε) (fuel : Nat) (push : β → String → MdNodeId → β)
    (cctx : MdConversionContext μ A) (acc : β) : List (String × μ) → Result μ A ε β
  | [] => .ok (acc, cctx)
  | (name, md) :: uses =>
    match convertMdNode g fuel md cctx with
    | .error e => .error e
    | .ok (none, cctx) => convertUses g fuel push cctx acc uses
    | .ok (some id, cctx) => convertUses g fuel push cctx (push acc name id) uses

variable {g : LLVMMetadata μ A ε} {fuel : Nat} {cctx cctx' : MdConversionContext μ A}
  {push : β → String → MdNodeId → β}

theorem convertMdAttachments_eq (attachments : MdAttachmentsAttr) (entries : List (String × μ)) :
    convertMdAttachments g fuel cctx attachments entries =
      convertUses g fuel IMap.insert cctx attachments (entries.filter (fun e => e.1 ≠ "dbg")) := by
  induction entries generalizing cctx attachments with
  | nil => rfl
  | cons entry entries ih =>
      obtain ⟨kind, md⟩ := entry
      unfold convertMdAttachments
      by_cases hdbg : kind = "dbg"
      · rw [if_pos hdbg, ih, List.filter_cons_of_neg (by simpa using hdbg)]
      · rw [if_neg hdbg, List.filter_cons_of_pos (by simpa using hdbg), convertUses]
        match convertMdNode g fuel md cctx with
        | .error e => rfl
        | .ok (none, cctx') => exact ih attachments
        | .ok (some node, cctx') => exact ih (attachments.insert kind node)

theorem convertUses_append (acc : β) (uses uses' : List (String × μ)) :
    convertUses g fuel push cctx acc (uses ++ uses') =
      match convertUses g fuel push cctx acc uses with
      | .error e => .error e
      | .ok (acc, cctx) => convertUses g fuel push cctx acc uses' := by
  induction uses generalizing cctx acc with
  | nil => rfl
  | cons use uses ih =>
      obtain ⟨name, md⟩ := use
      rw [List.cons_append, convertUses, convertUses]
      match convertMdNode g fuel md cctx with
      | .error e => rfl
      | .ok (none, cctx') => exact ih acc
      | .ok (some id, cctx') => exact ih (push acc name id)

theorem convertNamedOperands_eq (named : NamedMdAttr) (name : String) (operands : List μ) :
    convertNamedOperands g fuel cctx named name operands =
      convertUses g fuel NamedMdAttr.push cctx named (operands.map (Prod.mk name)) := by
  induction operands generalizing cctx named with
  | nil => rfl
  | cons md operands ih =>
      rw [List.map_cons, convertUses]
      unfold convertNamedOperands
      match convertMdNode g fuel md cctx with
      | .error e => rfl
      | .ok (none, cctx') => exact ih named
      | .ok (some node, cctx') => exact ih (named.push name node)

theorem convertNamedMetadata_eq (named : NamedMdAttr) (lists : List (String × List μ)) :
    convertNamedMetadata g fuel cctx named lists = convertUses g fuel NamedMdAttr.push cctx named
      (lists.flatMap (fun list => list.2.map (Prod.mk list.1))) := by
  induction lists generalizing cctx named with
  | nil => rfl
  | cons list lists ih =>
      obtain ⟨name, operands⟩ := list
      rw [List.flatMap_cons, convertUses_append, ← convertNamedOperands_eq]
      unfold convertNamedMetadata
      match convertNamedOperands g fuel cctx named name operands with
      | .error e => rfl
      | .ok (named', cctx') => exact ih named'

/-- What later states know of the uses that have been converted. -/
def Used (uses : List (String × μ)) (cctx : MdConversionContext μ A)
    (Q : HMap μ (Option MdNodeId) → Prop) : Prop :=
  ∀ nodeMap : HMap μ (Option MdNodeId), (∀ x r, cctx.nodeMap x = some r → nodeMap x = some r) →
    Q nodeMap ∧ ∀ use ∈ uses, (nodeMap use.2).isSome

omit [DecidableEq μ] in
/-- One use more, in front. -/
theorem Used.cons {uses : List (String × μ)} {name : String} {md : μ} {acc acc' : β}
    {r : Option MdNodeId} (hmd : cctx.nodeMap md = some r)
    (h : Used uses cctx fun nodeMap => acc' = (keptUses nodeMap uses).foldl
      (fun acc e => push acc e.1 e.2) ((r.map (push acc name)).getD acc)) :
    Used ((name, md) :: uses) cctx fun nodeMap =>
      acc' = (keptUses nodeMap ((name, md) :: uses)).foldl (fun acc e => push acc e.1 e.2) acc := by
  intro nodeMap hmap
  obtain ⟨hacc, hseen⟩ := h nodeMap hmap
  have hr := hmap md r hmd
  refine ⟨?_, fun use huse => ?_⟩
  · rw [hacc]
    cases r <;> simp [keptUses, hr]
  · rcases List.mem_cons.mp huse with rfl | huse
    · rw [hr]
      rfl
    · exact hseen use huse

/-- The conversion of uses ends, with the ids of the kept nodes: induction on the uses. -/
theorem convertUses_steps (push : β → String → MdNodeId → β)
    (hfuel : g.tuples.length ≤ fuel) (uses : List (String × μ)) (acc : β)
    (h : Inv g [] cctx) :
    Converts g [] cctx (fun _ => True) (fun acc' cctx' => Used uses cctx' fun nodeMap =>
      acc' = (keptUses nodeMap uses).foldl (fun acc e => push acc e.1 e.2) acc)
      (convertUses g fuel push cctx acc uses) := by
  induction uses generalizing cctx acc with
  | nil => exact ⟨Steps.refl h, fun nodeMap _ => ⟨rfl, fun use huse => nomatch huse⟩⟩
  | cons use uses ih =>
      obtain ⟨name, md⟩ := use
      have hnode := convertMdNode_steps fuel md h (by simpa using hfuel)
      rw [convertUses]
      match hr : convertMdNode g fuel md cctx with
      | .error (.err e) => trivial
      | .error .diverged =>
          rw [hr] at hnode
          exact hnode.elim
      | .ok (none, cctx₁) =>
          rw [hr] at hnode
          refine (ih acc hnode.1.inv).after (hnode.1.mono fun _ _ => trivial) ?_
          exact fun acc' cctx' hsteps hused => hused.cons (hsteps.keeps md _ hnode.2)
      | .ok (some id, cctx₁) =>
          rw [hr] at hnode
          refine (ih (push acc name id) hnode.1.inv).after (hnode.1.mono fun _ _ => trivial) ?_
          exact fun acc' cctx' hsteps hused => hused.cons (hsteps.keeps md _ hnode.2)

/-- The attachments of every operation: induction on the operations. -/
theorem convertAllAttachments_steps (hfuel : g.tuples.length ≤ fuel)
    (lists : List (List (String × μ))) (h : Inv g [] cctx) :
    Converts g [] cctx (fun _ => True) (fun all cctx' =>
        Used (lists.flatMap (fun entries => entries.filter (fun e => e.1 ≠ "dbg"))) cctx'
          fun nodeMap => all = lists.map (fun entries =>
            (keptUses nodeMap (entries.filter (fun e => e.1 ≠ "dbg"))).foldl
              (fun attachments e => IMap.insert attachments e.1 e.2) []))
      (convertAllAttachments g fuel cctx lists) := by
  induction lists generalizing cctx with
  | nil => exact ⟨Steps.refl h, fun nodeMap _ => ⟨rfl, fun use huse => nomatch huse⟩⟩
  | cons entries lists ih =>
      have hfirst := convertUses_steps IMap.insert hfuel
        (entries.filter (fun e => e.1 ≠ "dbg")) [] h
      rw [← convertMdAttachments_eq] at hfirst
      rw [convertAllAttachments]
      match hr : convertMdAttachments g fuel cctx [] entries with
      | .error (.err e) => trivial
      | .error .diverged =>
          rw [hr] at hfirst
          exact hfirst.elim
      | .ok (attachments, cctx₁) =>
          rw [hr] at hfirst
          have hrest := ih hfirst.1.inv
          dsimp only
          match hr' : convertAllAttachments g fuel cctx₁ lists with
          | .error (.err e) => trivial
          | .error .diverged =>
              rw [hr'] at hrest
              exact hrest.elim
          | .ok (all, cctx₂) =>
              rw [hr'] at hrest
              refine ⟨hfirst.1.trans hrest.1, fun nodeMap hmap => ?_⟩
              obtain ⟨hall, hseen⟩ := hrest.2 nodeMap hmap
              obtain ⟨hattachments, hseen'⟩ := hfirst.2 nodeMap fun x r hx =>
                hmap x r (hrest.1.keeps x r hx)
              refine ⟨?_, fun use huse => ?_⟩
              · show attachments :: all = _
                rw [hall, hattachments]
                rfl
              · rw [List.flatMap_cons, List.mem_append] at huse
                exact huse.elim (hseen' use) (hseen use)

variable {m : LLVMModule μ}

/-- What the import of a module gives, whatever its metadata. -/
theorem convertModuleMetadata_steps :
    Converts g [] .empty (fun _ => True) (fun imported cctx' =>
        imported.mdTable = unlessEmpty cctx'.table ∧
        imported.attachments = m.attachments.map (fun entries =>
          unlessEmpty ((keptUses cctx'.nodeMap (entries.filter (fun e => e.1 ≠ "dbg"))).foldl
            (fun attachments e => IMap.insert attachments e.1 e.2) [])) ∧
        imported.namedMd = unlessEmpty
          ((keptUses cctx'.nodeMap (m.named.flatMap fun list => list.2.map (Prod.mk list.1))).foldl
            (fun named e => NamedMdAttr.push named e.1 e.2) []) ∧
        ∀ use ∈ m.uses, (cctx'.nodeMap use.2).isSome)
      (convertModuleMetadata g m) := by
  have hfirst := convertAllAttachments_steps (g := g) le_rfl m.attachments Inv.empty
  unfold convertModuleMetadata
  match hr : convertAllAttachments g g.tuples.length .empty m.attachments with
  | .error (.err e) =>
      trivial
  | .error .diverged =>
      rw [hr] at hfirst
      exact hfirst.elim
  | .ok (all, cctx₁) =>
      rw [hr] at hfirst
      have hrest := convertUses_steps NamedMdAttr.push (le_refl g.tuples.length)
        (m.named.flatMap fun list => list.2.map (Prod.mk list.1)) [] hfirst.1.inv
      rw [← convertNamedMetadata_eq] at hrest
      dsimp only
      match hr' : convertNamedMetadata g g.tuples.length cctx₁ [] m.named with
      | .error (.err e) => trivial
      | .error .diverged =>
          rw [hr'] at hrest
          exact hrest.elim
      | .ok (named, cctx₂) =>
          rw [hr'] at hrest
          obtain ⟨hnamed, hseen⟩ := hrest.2 cctx₂.nodeMap fun x r hx => hx
          obtain ⟨hall, hseen'⟩ := hfirst.2 cctx₂.nodeMap hrest.1.keeps
          refine ⟨hfirst.1.trans hrest.1, rfl, ?_, ?_, fun use huse => ?_⟩
          · show all.map unlessEmpty = _
            rw [hall, List.map_map]
            rfl
          · show unlessEmpty named = _
            rw [hnamed]
          · rw [LLVMModule.uses, List.mem_append] at huse
            exact huse.elim (hseen' use) (hseen use)

/-- The import of metadata terminates. -/
theorem convertModuleMetadata_terminates (g : LLVMMetadata μ A ε) (m : LLVMModule μ) :
    convertModuleMetadata g m ≠ .error .diverged := by
  intro hr
  have hsteps := convertModuleMetadata_steps (g := g) (m := m)
  rw [hr] at hsteps
  exact hsteps

/-- A module that only lists one node, under a name. -/
def LLVMModule.single (md : μ) : LLVMModule μ := ⟨[], [("llvm.ident", [md])]⟩

end Pliron.Metadata
