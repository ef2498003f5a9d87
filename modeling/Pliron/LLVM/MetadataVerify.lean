/-
  Pliron.LLVM.MetadataVerify

  Looking up and verifying the metadata of a module.

  A reference is looked up in the table of the nearest module.  The verifier of a module walks
  everything inside it, nested modules included, and looks every reference up in the one table of
  the module it was called on.
-/

import Pliron.Graph.Walkers
import Pliron.IR.SymbolTable
import Pliron.IR.SymbolTableWalk
import Pliron.LLVM.MetadataTable

namespace Pliron.Metadata

open Pliron.Lib Walkers Context Function

/-! ## Metadata in the IR -/

/-- Attach `node` under the kind `kind`, replacing an existing attachment of that kind. -/
def MdAttachmentsAttr.set (kind : String) (node : MdNodeId) : MdAttachmentsAttr → MdAttachmentsAttr
  | [] => [(kind, node)]
  | entry :: entries =>
      if entry.1 = kind then (kind, node) :: entries else entry :: set kind node entries

theorem MdAttachmentsAttr.mem_set {kind : String} {node : MdNodeId} {e : String × MdNodeId} :
    {entries : MdAttachmentsAttr} → e ∈ set kind node entries → e ∈ entries ∨ e = (kind, node)
  | [], h => Or.inr (List.mem_singleton.mp h)
  | entry :: entries, h => by
      rw [set] at h
      by_cases hkind : entry.1 = kind
      · rw [if_pos hkind] at h
        rcases List.mem_cons.mp h with h | h
        · exact Or.inr h
        · exact Or.inl (List.mem_cons_of_mem _ h)
      · rw [if_neg hkind] at h
        rcases List.mem_cons.mp h with h | h
        · exact Or.inl (h ▸ List.mem_cons_self)
        · exact (mem_set h).imp_left (List.mem_cons_of_mem _)

/-- A constant in a metadata node; `A` are the attributes that refer to no symbol. -/
inductive MdConstant (A : Type) where
  | symbolAddr (symbol : Identifier)
  | aggregate (elements : List (MdConstant A))
  | splat (element : MdConstant A)
  | other (attr : A)

namespace MdConstant

variable {A : Type} [DecidableEq A]

mutual

def decEq : (a b : MdConstant A) → Decidable (a = b)
  | symbolAddr a, symbolAddr b => decidable_of_iff (a = b) (symbolAddr.injEq a b ▸ Iff.rfl)
  | aggregate l, aggregate l' =>
      have := decEqAll l l'
      decidable_of_iff (l = l') (aggregate.injEq l l' ▸ Iff.rfl)
  | splat a, splat b =>
      have := decEq a b
      decidable_of_iff (a = b) (splat.injEq a b ▸ Iff.rfl)
  | other a, other b => decidable_of_iff (a = b) (other.injEq a b ▸ Iff.rfl)
  | symbolAddr _, aggregate _ | symbolAddr _, splat _ | symbolAddr _, other _ => isFalse nofun
  | aggregate _, symbolAddr _ | aggregate _, splat _ | aggregate _, other _ => isFalse nofun
  | splat _, symbolAddr _ | splat _, aggregate _ | splat _, other _ => isFalse nofun
  | other _, symbolAddr _ | other _, aggregate _ | other _, splat _ => isFalse nofun

def decEqAll : (l l' : List (MdConstant A)) → Decidable (l = l')
  | [], [] => isTrue rfl
  | a :: l, b :: l' =>
      have := decEq a b
      have := decEqAll l l'
      decidable_of_iff (a = b ∧ l = l') (List.cons.injEq a l b l' ▸ Iff.rfl)
  | [], _ :: _ => isFalse nofun
  | _ :: _, [] => isFalse nofun

end

instance : DecidableEq (MdConstant A) := decEq

end MdConstant

/-- A context, and the metadata attributes of its operations. -/
structure MdContext (A : Type) where
  ctx : Context
  table : OpPtr → Option (MdTableAttr (MdConstant A)) := fun _ => none
  named : OpPtr → Option NamedMdAttr := fun _ => none
  attachments : OpPtr → Option MdAttachmentsAttr := fun _ => none

namespace MdContext

variable {A : Type} (s : MdContext A) (modules : Nat → Bool)

def setMetadataTable (moduleOp : OpPtr) (table : MdTableAttr (MdConstant A)) : MdContext A :=
  { s with table := update s.table moduleOp (some table) }

def setAttachments (op : OpPtr) (attachments : MdAttachmentsAttr) : MdContext A :=
  { s with attachments := update s.attachments op (some attachments) }

/-- Attach the node `node` to `op` under the kind `kind`. -/
def attachMetadata (op : OpPtr) (kind : String) (node : MdNodeId) : MdContext A :=
  s.setAttachments op (MdAttachmentsAttr.set kind node ((s.attachments op).getD []))

/-- Starting at `op` and walking up its ancestors, find the enclosing module.  `modules` holds of
    the ids of module operations. -/
def findEnclosingModule (op : OpPtr) : Option OpPtr :=
  (s.ctx.nearestSymbolTable modules (s.ctx.nextOp + 1) op).join

/-- The metadata table of the enclosing module. -/
def findMetadataTable (op : OpPtr) : Option (MdTableAttr (MdConstant A)) :=
  (s.findEnclosingModule modules op).bind s.table

/-- Error enum for metadata addition. -/
inductive MdAddErr where
  | noEnclosingModule
deriving DecidableEq, Repr

/-- Add `node` to the metadata table of the module enclosing `op`. -/
def addMetadataNode [DecidableEq A] (op : OpPtr) (node : MdNodeAttr (MdConstant A)) :
    Except MdAddErr (MdNodeId × MdContext A) :=
  match s.findEnclosingModule modules op with
  | none => .error .noEnclosingModule
  | some moduleOp =>
      let table := (s.table moduleOp).getD []
      let (nodeId, table) := table.pushUniqued node
      .ok (nodeId, s.setMetadataTable moduleOp table)

/-- Add `node` to the metadata table of the module enclosing `op`, and attach it to `op` under
    the kind `kind`. -/
def attachNewMetadata [DecidableEq A] (op : OpPtr) (kind : String)
    (node : MdNodeAttr (MdConstant A)) : Except MdAddErr (MdNodeId × MdContext A) :=
  match s.addMetadataNode modules op node with
  | .error e => .error e
  | .ok (nodeId, s) => .ok (nodeId, s.attachMetadata op kind nodeId)

/-! ## The verifier -/

inductive MetadataVerifyErr (A : Type) where
  | danglingNodeRef (node : MdNodeId)
  | noTable
  | undefinedSymbol (symbol : Identifier)
  /-- The error of the constant's own verifier. -/
  | attr (attr : MdConstant A)

variable (verifyAttr : MdConstant A → Bool) (moduleOp : OpPtr)

/-- Look a symbol up in the symbol table of the module, which is made on demand. -/
def checkSymbol (symbol : Identifier) : Check Unit (MetadataVerifyErr A) Unit := do
  let symbolTable ← ExceptT.lift (StateT.lift (SymbolTable.new s.ctx moduleOp))
  match symbolTable.lookup symbol with
  | none => throw (.undefinedSymbol symbol)
  | some _ => pure ()

mutual

/-- Ensure that symbols referred to by a constant resolve in the module. -/
def checkSymbolsResolve : MdConstant A → Check Unit (MetadataVerifyErr A) Unit
  | .symbolAddr symbol => s.checkSymbol moduleOp symbol
  | .aggregate elements => checkElementsResolve elements
  | .splat element => checkSymbolsResolve element
  | .other _ => pure ()

def checkElementsResolve : List (MdConstant A) → Check Unit (MetadataVerifyErr A) Unit
  | [] => pure ()
  | element :: elements => do
      checkSymbolsResolve element
      checkElementsResolve elements

end

/-- A node that is referred to must be below the number of nodes. -/
def checkNode (numNodes node : MdNodeId) : Check Unit (MetadataVerifyErr A) Unit :=
  if node ≥ numNodes then throw (.danglingNodeRef node) else pure ()

/-- The constant must pass its own verifier. -/
def checkConstant (attr : MdConstant A) : Check Unit (MetadataVerifyErr A) Unit :=
  if verifyAttr attr then pure () else throw (.attr attr)

def checkOperand (numNodes : MdNodeId) :
    MdOperandAttr (MdConstant A) → Check Unit (MetadataVerifyErr A) Unit
  | .node id => checkNode numNodes id
  | .constant attr => do
      checkConstant verifyAttr attr
      s.checkSymbolsResolve moduleOp attr
  | .null => pure ()
  | .string _ => pure ()

/-- Only a module with a table may have something attached in it. -/
def checkHasTable (hasTable : Bool) (attachments : MdAttachmentsAttr) :
    Check Unit (MetadataVerifyErr A) Unit :=
  if !hasTable && !attachments.isEmpty then throw .noTable else pure ()

/-- Check what is attached to an operation that the walk meets. -/
def checkAttachments (numNodes : MdNodeId) (hasTable : Bool) :
    IRNode → Check Unit (MetadataVerifyErr A) Unit
  | .operation op =>
      match s.attachments op with
      | none => pure ()
      | some attachments => do
          checkHasTable hasTable attachments
          attachments.forM (fun e => checkNode numNodes e.2)
  | _ => pure ()

/-- Verify that the metadata references in a module resolve, and its constants verify and refer
    only to symbols of the module. -/
def verifyMetadataCheck : Check Unit (MetadataVerifyErr A) Unit := do
  let table := (s.table moduleOp).getD []
  let numNodes := asMdNodeId table.length
  table.forM (fun node => node.operands.forM (s.checkOperand verifyAttr moduleOp numNodes))
  ((s.named moduleOp).getD []).forM (fun e => e.2.forM (checkNode numNodes))
  walkOp s.ctx .preorderForward
    (fun n => do s.checkAttachments numNodes (s.table moduleOp).isSome n; pure .advance) moduleOp

def verifyMetadata : Option (Except (MetadataVerifyErr A) Unit) :=
  ((s.verifyMetadataCheck verifyAttr moduleOp).run.run ()).map Prod.fst

/-! ## What the verifier should accept -/

/-- The ids that a node refers to. -/
def nodeRefs (node : MdNodeAttr (MdConstant A)) : List MdNodeId :=
  node.operands.filterMap (fun operand => match operand with
    | .node id => some id
    | _ => none)

/-- The constants that a node holds. -/
def nodeConstants (node : MdNodeAttr (MdConstant A)) : List (MdConstant A) :=
  node.operands.filterMap (fun operand => match operand with
    | .constant attr => some attr
    | _ => none)

mutual

/-- The symbols that a constant refers to. -/
def symbolsOf : MdConstant A → List Identifier
  | .symbolAddr symbol => [symbol]
  | .aggregate elements => symbolsOfAll elements
  | .splat element => symbolsOf element
  | .other _ => []

def symbolsOfAll : List (MdConstant A) → List Identifier
  | [] => []
  | element :: elements => symbolsOf element ++ symbolsOfAll elements

end

/-- The symbol is one of the module's. -/
def SymbolOf (symbol : Identifier) : Prop :=
  ∃ symbolTable, SymbolTable.new s.ctx moduleOp = some symbolTable ∧
    symbolTable.lookup symbol ≠ none

/-- The constants of a node verify and refer only to symbols of the module. -/
def ConstantsFine (node : MdNodeAttr (MdConstant A)) : Prop :=
  ∀ attr ∈ nodeConstants node, verifyAttr attr = true ∧
    ∀ symbol ∈ symbolsOf attr, s.SymbolOf moduleOp symbol

/-- The references held by the module's table and by its named metadata. -/
def ownRefs : List MdNodeId :=
  ((s.table moduleOp).getD []).flatMap nodeRefs ++ ((s.named moduleOp).getD []).flatMap Prod.snd

/-- The references attached to an operation. -/
def attachedRefs (op : OpPtr) : List MdNodeId := ((s.attachments op).getD []).map Prod.snd

/-- The constants of the module's table are fine. -/
def TableConstantsFine : Prop :=
  ∀ node ∈ (s.table moduleOp).getD [], s.ConstantsFine verifyAttr moduleOp node

/-- A reference resolves in the table that is found from an operation. -/
def Resolves (op : OpPtr) (id : MdNodeId) : Prop :=
  ∃ table, s.findMetadataTable modules op = some table ∧ id < table.length

/-- Every reference held in the module resolves where it is looked up, and its constants are
    fine. -/
structure MetadataResolves : Prop where
  constants : s.TableConstantsFine verifyAttr moduleOp
  own : ∀ id ∈ s.ownRefs moduleOp, s.Resolves modules moduleOp id
  attached : ∀ op, s.ctx.Inside (.operation moduleOp) (.operation op) →
    ∀ id ∈ s.attachedRefs op, s.Resolves modules op id

/-- A reference is below the length of the module's table, taken as an id. -/
def Below (id : MdNodeId) : Prop := id < asMdNodeId ((s.table moduleOp).getD []).length

/-- All references that the verifier meets are below the length of the one table. -/
def AllBelow : Prop :=
  (∀ id ∈ s.ownRefs moduleOp, s.Below moduleOp id) ∧
    ∀ op, s.ctx.Inside (.operation moduleOp) (.operation op) →
      ∀ id ∈ s.attachedRefs op, s.Below moduleOp id

/-! ## What the verifier accepts -/

variable {s modules verifyAttr moduleOp} {numNodes : MdNodeId}

/-- The checks keep no state. -/
abbrev Checks (m : Check Unit (MetadataVerifyErr A) Unit) (P : Prop) : Prop :=
  Decides (fun _ => True) m P

theorem checkNode_decides (node : MdNodeId) :
    Checks (checkNode (A := A) numNodes node) (node < numNodes) := by
  rw [checkNode]
  by_cases h : node ≥ numNodes
  · rw [if_pos h]
    exact (Decides.throw _).congr (iff_of_false id (Nat.not_lt.mpr h))
  · rw [if_neg h]
    exact Decides.pure.congr (iff_of_true trivial (Nat.not_le.mp h))

theorem checkConstant_decides (attr : MdConstant A) :
    Checks (checkConstant verifyAttr attr) (verifyAttr attr = true) := by
  rw [checkConstant]
  by_cases h : verifyAttr attr = true
  · rw [if_pos h]
    exact Decides.pure.congr (iff_of_true trivial h)
  · rw [if_neg h]
    exact (Decides.throw _).congr (iff_of_false id h)

theorem checkHasTable_decides (hasTable : Bool) (attachments : MdAttachmentsAttr) :
    Checks (checkHasTable (A := A) hasTable attachments)
      (attachments ≠ [] → hasTable = true) := by
  rw [checkHasTable]
  cases hasTable with
  | true => exact Decides.pure.congr (iff_of_true trivial (fun _ => rfl))
  | false =>
      cases attachments with
      | nil => exact Decides.pure.congr (iff_of_true trivial (fun h => absurd rfl h))
      | cons e attachments =>
          have hne : e :: attachments ≠ [] := List.cons_ne_nil _ _
          exact (Decides.throw _).congr (iff_of_false id (fun h => nomatch h hne))

theorem checkSymbol_decides (symbol : Identifier) :
    Checks (s.checkSymbol moduleOp symbol) (s.SymbolOf moduleOp symbol) := by
  cases hnew : SymbolTable.new s.ctx moduleOp with
  | none =>
      refine (Decides.bind_none (fun u _ => ?_)).congr (iff_of_false id ?_)
      · rw [StateT.run_lift, hnew]
        rfl
      · rintro ⟨table, htable, _⟩
        rw [hnew] at htable
        cases htable
  | some symbolTable =>
      have hreturns : Returns (fun _ => True)
          (StateT.lift (SymbolTable.new s.ctx moduleOp) : StateT Unit Option SymbolTable)
          symbolTable := by
        intro u _
        refine ⟨u, ?_, trivial⟩
        rw [StateT.run_lift, hnew]
        rfl
      refine Decides.bind_returns hreturns ?_
      cases hlookup : symbolTable.lookup symbol with
      | none =>
          refine (Decides.throw _).congr (iff_of_false id ?_)
          rintro ⟨table, htable, hfound⟩
          obtain rfl := Option.some.inj (hnew.symm.trans htable)
          exact hfound hlookup
      | some op =>
          refine Decides.pure.congr (iff_of_true trivial ⟨symbolTable, hnew, ?_⟩)
          rw [hlookup]
          exact Option.some_ne_none op

mutual

theorem checkSymbolsResolve_decides : (attr : MdConstant A) →
    Checks (s.checkSymbolsResolve moduleOp attr)
      (∀ symbol ∈ symbolsOf attr, s.SymbolOf moduleOp symbol)
  | .symbolAddr symbol => by
      rw [checkSymbolsResolve, symbolsOf]
      exact (checkSymbol_decides symbol).congr (List.forall_mem_singleton).symm
  | .aggregate elements => by
      rw [checkSymbolsResolve, symbolsOf]
      exact checkElementsResolve_decides elements
  | .splat element => by
      rw [checkSymbolsResolve, symbolsOf]
      exact checkSymbolsResolve_decides element
  | .other _ => by
      rw [checkSymbolsResolve, symbolsOf]
      exact Decides.pure.congr (iff_of_true trivial nofun)

theorem checkElementsResolve_decides : (elements : List (MdConstant A)) →
    Checks (s.checkElementsResolve moduleOp elements)
      (∀ symbol ∈ symbolsOfAll elements, s.SymbolOf moduleOp symbol)
  | [] => by
      rw [checkElementsResolve, symbolsOfAll]
      exact Decides.pure.congr (iff_of_true trivial nofun)
  | element :: elements => by
      rw [checkElementsResolve, symbolsOfAll]
      refine (Decides.seq (checkSymbolsResolve_decides element)
        (checkElementsResolve_decides elements)).congr ?_
      exact List.forall_mem_append.symm

end

/-- What is checked of an operand. -/
theorem checkOperand_decides (operand : MdOperandAttr (MdConstant A)) :
    Checks (s.checkOperand verifyAttr moduleOp numNodes operand)
      ((∀ id, operand = .node id → id < numNodes) ∧
        ∀ attr, operand = .constant attr → verifyAttr attr = true ∧
          ∀ symbol ∈ symbolsOf attr, s.SymbolOf moduleOp symbol) := by
  cases operand with
  | null => exact Decides.pure.congr (iff_of_true trivial ⟨nofun, nofun⟩)
  | string _ => exact Decides.pure.congr (iff_of_true trivial ⟨nofun, nofun⟩)
  | node id =>
      refine (checkNode_decides id).congr ⟨fun h => ⟨?_, nofun⟩, fun h => h.1 id rfl⟩
      intro id' heq
      obtain rfl := MdOperandAttr.node.inj heq
      exact h
  | constant attr =>
      refine ((checkConstant_decides attr).seq (checkSymbolsResolve_decides attr)).congr
        ⟨fun h => ⟨nofun, ?_⟩, fun h => h.2 attr rfl⟩
      intro attr' heq
      obtain rfl := MdOperandAttr.constant.inj heq
      exact h

theorem forall_nodeRefs {node : MdNodeAttr (MdConstant A)} {P : MdNodeId → Prop} :
    (∀ id ∈ nodeRefs node, P id) ↔ ∀ operand ∈ node.operands, ∀ id, operand = .node id → P id := by
  constructor
  · rintro h operand hmem id rfl
    exact h id (List.mem_filterMap.mpr ⟨.node id, hmem, rfl⟩)
  · intro h id hmem
    obtain ⟨operand, hoperand, heq⟩ := List.mem_filterMap.mp hmem
    cases operand with
    | node id' =>
        obtain rfl := Option.some.inj heq
        exact h _ hoperand _ rfl
    | null => cases heq
    | string _ => cases heq
    | constant _ => cases heq

theorem forall_nodeConstants {node : MdNodeAttr (MdConstant A)} {P : MdConstant A → Prop} :
    (∀ attr ∈ nodeConstants node, P attr) ↔
      ∀ operand ∈ node.operands, ∀ attr, operand = .constant attr → P attr := by
  constructor
  · rintro h operand hmem attr rfl
    exact h attr (List.mem_filterMap.mpr ⟨.constant attr, hmem, rfl⟩)
  · intro h attr hmem
    obtain ⟨operand, hoperand, heq⟩ := List.mem_filterMap.mp hmem
    cases operand with
    | constant attr' =>
        obtain rfl := Option.some.inj heq
        exact h _ hoperand _ rfl
    | null => cases heq
    | string _ => cases heq
    | node _ => cases heq

/-- What is checked of a node of the table. -/
theorem checkOperands_decides (node : MdNodeAttr (MdConstant A)) :
    Checks (node.operands.forM (s.checkOperand verifyAttr moduleOp numNodes))
      ((∀ id ∈ nodeRefs node, id < numNodes) ∧ s.ConstantsFine verifyAttr moduleOp node) := by
  refine (Decides.forM (fun operand _ => checkOperand_decides operand)).congr ?_
  rw [ConstantsFine, forall_nodeRefs, forall_nodeConstants]
  exact ⟨fun h => ⟨fun x hx => (h x hx).1, fun x hx => (h x hx).2⟩,
    fun h x hx => ⟨h.1 x hx, h.2 x hx⟩⟩

/-- What is checked of an operation.  Without a table no reference is below its length. -/
theorem checkAttachments_decides (s : MdContext A) (moduleOp : OpPtr) (node : IRNode) :
    Checks (s.checkAttachments (asMdNodeId ((s.table moduleOp).getD []).length)
        (s.table moduleOp).isSome node)
      (∀ op, node = .operation op → ∀ id ∈ s.attachedRefs op, s.Below moduleOp id) := by
  cases node with
  | basicBlock _ => exact Decides.pure.congr (iff_of_true trivial nofun)
  | region _ => exact Decides.pure.congr (iff_of_true trivial nofun)
  | operation op =>
      have hop : (∀ op', IRNode.operation op = .operation op' → ∀ id ∈ s.attachedRefs op',
          s.Below moduleOp id) ↔ ∀ id ∈ s.attachedRefs op, s.Below moduleOp id := by
        refine ⟨fun h => h op rfl, fun h op' heq => ?_⟩
        obtain rfl := IRNode.operation.inj heq
        exact h
      rw [checkAttachments]
      cases hatt : s.attachments op with
      | none =>
          refine Decides.pure.congr (iff_of_true trivial (hop.mpr ?_))
          rw [attachedRefs, hatt]
          exact nofun
      | some attachments =>
          have hrefs : (∀ id ∈ s.attachedRefs op, s.Below moduleOp id) ↔
              ∀ e ∈ attachments, s.Below moduleOp e.2 := by
            rw [attachedRefs, hatt, Option.getD_some, List.forall_mem_map]
          have hall : Checks (attachments.forM (fun e => checkNode (A := A)
              (asMdNodeId ((s.table moduleOp).getD []).length) e.2))
              (∀ e ∈ attachments, s.Below moduleOp e.2) :=
            Decides.forM (fun e _ => checkNode_decides e.2)
          refine ((checkHasTable_decides _ attachments).seq hall).congr
            (Iff.trans ?_ (hrefs.symm.trans hop.symm))
          refine ⟨And.right, fun h => ⟨fun hne => ?_, h⟩⟩
          by_contra hnone
          obtain ⟨e, he⟩ := List.exists_mem_of_ne_nil attachments hne
          have hbelow := h e he
          rw [Below, Option.not_isSome_iff_eq_none.mp hnone] at hbelow
          exact absurd hbelow (Nat.not_lt_zero _)

/-- The verifier accepts exactly the modules whose constants are fine and in which no reference
    reaches beyond the one table. -/
theorem verifyMetadata_iff (hnest : s.ctx.WellNested) :
    s.verifyMetadata verifyAttr moduleOp = some (.ok ()) ↔
      s.TableConstantsFine verifyAttr moduleOp ∧ s.AllBelow moduleOp := by
  have htable : Checks (((s.table moduleOp).getD []).forM (fun node => node.operands.forM
      (s.checkOperand verifyAttr moduleOp (asMdNodeId ((s.table moduleOp).getD []).length)))) _ :=
    Decides.forM (fun node _ => checkOperands_decides node)
  have hnamed : Checks (((s.named moduleOp).getD []).forM (fun e => e.2.forM (checkNode (A := A)
      (asMdNodeId ((s.table moduleOp).getD []).length)))) _ :=
    Decides.forM (fun e _ => Decides.forM (fun id _ => checkNode_decides id))
  have hwalk := walkOp_decides hnest (checkAttachments_decides s moduleOp) moduleOp
  have hcheck := (htable.seq (hnamed.seq hwalk)) () trivial
  have hiff : s.verifyMetadata verifyAttr moduleOp = some (.ok ()) ↔
      ∃ u, (s.verifyMetadataCheck verifyAttr moduleOp).run.run () = some (.ok (), u) := by
    rw [verifyMetadata, Option.map_eq_some_iff]
    exact ⟨fun ⟨⟨_, u⟩, hrun, hok⟩ => ⟨u, by rw [hrun, ← hok]⟩, fun ⟨u, hrun⟩ => ⟨_, hrun, rfl⟩⟩
  have hmeaning : ((∀ node ∈ (s.table moduleOp).getD [],
      (∀ id ∈ nodeRefs node, s.Below moduleOp id) ∧
      s.ConstantsFine verifyAttr moduleOp node) ∧
      (∀ e ∈ (s.named moduleOp).getD [], ∀ id ∈ e.2, s.Below moduleOp id) ∧
      ∀ n, s.ctx.Inside (.operation moduleOp) n → ∀ op, n = .operation op →
        ∀ id ∈ s.attachedRefs op, s.Below moduleOp id) ↔
      s.TableConstantsFine verifyAttr moduleOp ∧ s.AllBelow moduleOp := by
    constructor
    · rintro ⟨htable, hnamed, hattached⟩
      refine ⟨fun node hnode => (htable node hnode).2, fun id hid => ?_, fun op hop id hid =>
        hattached (.operation op) hop op rfl id hid⟩
      rcases List.mem_append.mp hid with hid | hid
      · obtain ⟨node, hnode, hid⟩ := List.mem_flatMap.mp hid
        exact (htable node hnode).1 id hid
      · obtain ⟨e, he, hid⟩ := List.mem_flatMap.mp hid
        exact hnamed e he id hid
    · rintro ⟨hconstants, hown, hattached⟩
      refine ⟨fun node hnode => ⟨fun id hid => hown id ?_, hconstants node hnode⟩,
        fun e he id hid => hown id ?_, ?_⟩
      · exact List.mem_append_left _ (List.mem_flatMap.mpr ⟨node, hnode, hid⟩)
      · exact List.mem_append_right _ (List.mem_flatMap.mpr ⟨e, he, hid⟩)
      · rintro _ hop op rfl id hid
        exact hattached op hop id hid
  rw [hiff, ← hmeaning]
  constructor
  · rintro ⟨u, hrun⟩
    by_contra hnot
    exact hcheck.2 hnot u hrun
  · intro h
    obtain ⟨u, hrun, _⟩ := hcheck.1 h
    exact ⟨u, hrun⟩

/-! ## Lookup and verification -/

variable (s modules verifyAttr moduleOp)

/-- A reference held by an operation that belongs to a nested module. -/
def Nested (op : OpPtr) (id : MdNodeId) : Prop :=
  s.ctx.Inside (.operation moduleOp) (.operation op) ∧
    s.findEnclosingModule modules op ≠ some moduleOp ∧ id ∈ s.attachedRefs op

variable {s modules verifyAttr moduleOp}

/-- From a module on, its own table is found. -/
theorem findEnclosingModule_self (hmodule : s.ctx.isSymbolTable modules moduleOp = true) :
    s.findEnclosingModule modules moduleOp = some moduleOp := by
  rw [findEnclosingModule, nearestSymbolTable, if_pos hmodule]
  rfl

theorem resolves_iff {op : OpPtr} {id : MdNodeId}
    (hfind : s.findEnclosingModule modules op = some moduleOp) :
    s.Resolves modules op id ↔ id < ((s.table moduleOp).getD []).length := by
  rw [Resolves, findMetadataTable, hfind, Option.bind_some]
  cases s.table moduleOp with
  | none => exact iff_of_false (fun ⟨_, htable, _⟩ => nomatch htable) (Nat.not_lt_zero id)
  | some table =>
      rw [Option.getD_some]
      constructor
      · rintro ⟨_, htable, hid⟩
        rwa [Option.some.inj htable]
      · exact fun hid => ⟨table, rfl, hid⟩

/-- Without attachments in nested modules, every reference is looked up in the one table. -/
theorem verify_iff_resolves (hnest : s.ctx.WellNested)
    (hmodule : s.ctx.isSymbolTable modules moduleOp = true)
    (hdirect : ∀ op id, ¬ s.Nested modules moduleOp op id)
    (hfits : ((s.table moduleOp).getD []).length < 2 ^ 32) :
    s.verifyMetadata verifyAttr moduleOp = some (.ok ()) ↔
      s.MetadataResolves modules verifyAttr moduleOp := by
  have hself := findEnclosingModule_self hmodule
  have hbelow : ∀ id, s.Below moduleOp id ↔ id < ((s.table moduleOp).getD []).length := by
    intro id
    rw [Below, asMdNodeId, Nat.mod_eq_of_lt hfits]
  have hfind : ∀ op id, s.ctx.Inside (.operation moduleOp) (.operation op) →
      id ∈ s.attachedRefs op → s.findEnclosingModule modules op = some moduleOp := by
    intro op id hop hid
    by_contra hne
    exact hdirect op id ⟨hop, hne, hid⟩
  rw [verifyMetadata_iff hnest]
  constructor
  · rintro ⟨hconstants, hown, hattached⟩
    exact ⟨hconstants, fun id hid => (resolves_iff hself).mpr ((hbelow id).mp (hown id hid)),
      fun op hop id hid => (resolves_iff (hfind op id hop hid)).mpr
        ((hbelow id).mp (hattached op hop id hid))⟩
  · rintro ⟨hconstants, hown, hattached⟩
    exact ⟨hconstants, fun id hid => (hbelow id).mpr ((resolves_iff hself).mp (hown id hid)),
      fun op hop id hid => (hbelow id).mpr
        ((resolves_iff (hfind op id hop hid)).mp (hattached op hop id hid))⟩

variable (s moduleOp) in
/-- The same attachments, where the module has the largest table whose length is an id, and
    there is no other metadata. -/
def withFullTable : MdContext A :=
  ({ ctx := s.ctx, attachments := s.attachments } : MdContext A).setMetadataTable moduleOp
    (List.replicate (2 ^ 32 - 1) (.newTuple []))

theorem withFullTable_table (s : MdContext A) (moduleOp : OpPtr) :
    (s.withFullTable moduleOp).table moduleOp =
      some (List.replicate (2 ^ 32 - 1) (.newTuple [])) :=
  update_self _ _ _

theorem withFullTable_table_of_ne (s : MdContext A) {moduleOp module : OpPtr}
    (hne : module ≠ moduleOp) : (s.withFullTable moduleOp).table module = none :=
  update_of_ne hne _ _

/-- With the full table the verifier accepts every attachment, and those in nested modules do not
    resolve. -/
theorem withFullTable_disagrees (verifyAttr : MdConstant A → Bool) (hnest : s.ctx.WellNested)
    (hids : ∀ op, s.ctx.Inside (.operation moduleOp) (.operation op) →
      ∀ id ∈ s.attachedRefs op, id + 1 < 2 ^ 32)
    {op : OpPtr} {id : MdNodeId} (hnested : s.Nested modules moduleOp op id) :
    (s.withFullTable moduleOp).verifyMetadata verifyAttr moduleOp = some (.ok ()) ∧
      ¬ (s.withFullTable moduleOp).MetadataResolves modules verifyAttr moduleOp := by
  have htable : ((s.withFullTable moduleOp).table moduleOp).getD [] =
      List.replicate (2 ^ 32 - 1) (.newTuple []) := by
    rw [withFullTable_table, Option.getD_some]
  have hnode : ∀ node ∈ ((s.withFullTable moduleOp).table moduleOp).getD [],
      node = .newTuple [] := by
    rw [htable]
    exact fun node hnode => List.eq_of_mem_replicate hnode
  constructor
  · refine (verifyMetadata_iff (s := s.withFullTable moduleOp) hnest).mpr
      ⟨fun node hmem => ?_, fun id hid => ?_, fun op hop id hid => ?_⟩
    · obtain rfl := hnode node hmem
      exact nofun
    · rw [ownRefs] at hid
      rcases List.mem_append.mp hid with hid | hid
      · obtain ⟨node, hmem, hid⟩ := List.mem_flatMap.mp hid
        obtain rfl := hnode node hmem
        cases hid
      · cases hid
    · have hlt := hids op hop id hid
      rw [Below, htable, List.length_replicate, asMdNodeId, Nat.mod_eq_of_lt (by decide)]
      exact Nat.lt_sub_of_add_lt hlt
  · intro hresolves
    obtain ⟨hop, hne, hid⟩ := hnested
    obtain ⟨table, hfind, _⟩ := hresolves.attached op hop id hid
    obtain ⟨module, hmodule, htable⟩ := Option.bind_eq_some_iff.mp hfind
    have hother : module ≠ moduleOp := fun heq => hne (heq ▸ hmodule)
    rw [s.withFullTable_table_of_ne hother] at htable
    cases htable

/-- Verification agrees with lookup for all tables and all named metadata exactly if nothing is
    attached in nested modules. -/
theorem agrees_for_all_tables_iff (hnest : s.ctx.WellNested)
    (hmodule : s.ctx.isSymbolTable modules moduleOp = true)
    (hids : ∀ op, s.ctx.Inside (.operation moduleOp) (.operation op) →
      ∀ id ∈ s.attachedRefs op, id + 1 < 2 ^ 32) :
    (∀ s' : MdContext A, s'.ctx = s.ctx → s'.attachments = s.attachments →
        ((s'.table moduleOp).getD []).length < 2 ^ 32 →
        (s'.verifyMetadata verifyAttr moduleOp = some (.ok ()) ↔
          s'.MetadataResolves modules verifyAttr moduleOp)) ↔
      ∀ op id, ¬ s.Nested modules moduleOp op id := by
  constructor
  · intro hagrees op id hnested
    obtain ⟨hverify, hnot⟩ := withFullTable_disagrees verifyAttr hnest hids hnested
    have hfits : (((s.withFullTable moduleOp).table moduleOp).getD []).length < 2 ^ 32 := by
      rw [withFullTable_table, Option.getD_some, List.length_replicate]
      decide
    exact hnot ((hagrees (s.withFullTable moduleOp) rfl rfl hfits).mp hverify)
  · intro hdirect s' hctx hattachments hfits
    refine verify_iff_resolves (hctx ▸ hnest) (hctx ▸ hmodule) (fun op id hnested => ?_) hfits
    refine hdirect op id ?_
    rwa [Nested, attachedRefs, hattachments, hctx, findEnclosingModule, hctx] at hnested

/-! ## Attaching new metadata -/

/-- A call of `attachNewMetadata`. -/
structure AttachCall (A : Type) where
  op : OpPtr
  kind : String
  node : MdNodeAttr (MdConstant A)

variable [DecidableEq A]

/-- The IR after a call, whether it returned an error or not. -/
def attach (s : MdContext A) (modules : Nat → Bool) (c : AttachCall A) : MdContext A :=
  match s.attachNewMetadata modules c.op c.kind c.node with
  | .ok (_, s') => s'
  | .error _ => s

def attachAll (s : MdContext A) (modules : Nat → Bool) (calls : List (AttachCall A)) :
    MdContext A :=
  calls.foldl (fun s c => s.attach modules c) s

/-- A call that leaves the module verifiable: inside the module it is on an operation that belongs
    to no nested module, and a node for the module's table refers only to ids handed out for it,
    holds constants that are fine, and finds room for its id. -/
structure Clear (s : MdContext A) (modules : Nat → Bool) (verifyAttr : MdConstant A → Bool)
    (moduleOp : OpPtr) (c : AttachCall A) : Prop where
  direct : s.ctx.Inside (.operation moduleOp) (.operation c.op) →
    s.findEnclosingModule modules c.op = some moduleOp
  refs : s.findEnclosingModule modules c.op = some moduleOp →
    ∀ id ∈ nodeRefs c.node, id < ((s.table moduleOp).getD []).length
  constants : s.findEnclosingModule modules c.op = some moduleOp →
    s.ConstantsFine verifyAttr moduleOp c.node
  room : s.findEnclosingModule modules c.op = some moduleOp →
    (MdTableAttr.pushUniqued ((s.table moduleOp).getD []) c.node).2.length < 2 ^ 32

/-- Every call is clear in the state that it is made in. -/
def AllClear (modules : Nat → Bool) (verifyAttr : MdConstant A → Bool) (moduleOp : OpPtr) :
    MdContext A → List (AttachCall A) → Prop
  | _, [] => True
  | s, c :: calls => s.Clear modules verifyAttr moduleOp c ∧
      AllClear modules verifyAttr moduleOp (s.attach modules c) calls

/-- The table after a node is uniqued in it. -/
theorem pushUniqued_spec (table : MdTableAttr A) (node : MdNodeAttr A) :
    (∀ n ∈ (table.pushUniqued node).2, n ∈ table ∨ n = node) ∧
      table.length ≤ (table.pushUniqued node).2.length ∧
      ((table.pushUniqued node).2.length < 2 ^ 32 →
        (table.pushUniqued node).1 < (table.pushUniqued node).2.length) := by
  rw [MdTableAttr.pushUniqued]
  cases hidx : table.uniqueIdx node with
  | some idx =>
      obtain ⟨_, hget, _⟩ := MdTableAttr.uniqueIdx_eq_some_iff.mp hidx
      have hlt : idx < table.length := (List.getElem?_eq_some_iff.mp hget).1
      exact ⟨fun n hn => Or.inl hn, Nat.le_refl _, fun _ => (Nat.mod_le _ _).trans_lt hlt⟩
  | none =>
      have hlength : (table ++ [node]).length = table.length + 1 := List.length_append
      refine ⟨fun n hn => ?_, ?_, fun _ => ?_⟩
      · rcases List.mem_append.mp hn with hn | hn
        · exact Or.inl hn
        · exact Or.inr (List.mem_singleton.mp hn)
      · show table.length ≤ (table ++ [node]).length
        omega
      · show asMdNodeId table.length < (table ++ [node]).length
        rw [hlength]
        exact Nat.lt_succ_of_le (Nat.mod_le _ _)

/-- A call on an operation that is in no module changes nothing. -/
theorem attach_of_none {c : AttachCall A}
    (hfind : s.findEnclosingModule modules c.op = none) : s.attach modules c = s := by
  rw [attach, attachNewMetadata, addMetadataNode, hfind]

/-- The IR after a call. -/
theorem attach_of_some {c : AttachCall A} {module : OpPtr}
    (hfind : s.findEnclosingModule modules c.op = some module) :
    s.attach modules c = (s.setMetadataTable module
      (MdTableAttr.pushUniqued ((s.table module).getD []) c.node).2).attachMetadata c.op c.kind
        (MdTableAttr.pushUniqued ((s.table module).getD []) c.node).1 := by
  rw [attach, attachNewMetadata, addMetadataNode, hfind]

omit [DecidableEq A] in
/-- What is attached to operations after a call. -/
theorem attachedRefs_attachMetadata {op x : OpPtr} {kind : String} {node id : MdNodeId}
    (h : id ∈ (s.attachMetadata op kind node).attachedRefs x) :
    id ∈ s.attachedRefs x ∨ x = op ∧ id = node := by
  by_cases hx : x = op
  · subst hx
    simp only [attachedRefs, attachMetadata, setAttachments, update_self, Option.getD_some] at h
    obtain ⟨e, he, rfl⟩ := List.mem_map.mp h
    rcases MdAttachmentsAttr.mem_set he with he | rfl
    · exact Or.inl (List.mem_map_of_mem he)
    · exact Or.inr ⟨rfl, rfl⟩
  · simp only [attachedRefs, attachMetadata, setAttachments, update_of_ne hx] at h
    exact Or.inl h

/-- A clear call keeps the module verifiable. -/
theorem attach_verifies (hnest : s.ctx.WellNested) {c : AttachCall A}
    (hclear : s.Clear modules verifyAttr moduleOp c)
    (hverify : s.verifyMetadata verifyAttr moduleOp = some (.ok ())) :
    (s.attach modules c).ctx = s.ctx ∧
      (s.attach modules c).verifyMetadata verifyAttr moduleOp = some (.ok ()) := by
  cases hfind : s.findEnclosingModule modules c.op with
  | none =>
      rw [attach_of_none hfind]
      exact ⟨rfl, hverify⟩
  | some module =>
      obtain ⟨hconstants, hown, hattached⟩ := (verifyMetadata_iff hnest).mp hverify
      obtain ⟨hmem, hlength, hid⟩ := pushUniqued_spec ((s.table module).getD []) c.node
      have hroom : module = moduleOp → (MdTableAttr.pushUniqued ((s.table module).getD [])
          c.node).2.length < 2 ^ 32 := by
        rintro rfl
        exact hclear.room hfind
      rw [attach_of_some hfind]
      generalize MdTableAttr.pushUniqued ((s.table module).getD []) c.node = pushed at *
      refine ⟨rfl, (verifyMetadata_iff (s := (s.setMetadataTable module pushed.2).attachMetadata
        c.op c.kind pushed.1) hnest).mpr ?_⟩
      by_cases hself : module = moduleOp
      · subst hself
        -- with room in the table an id is not cut short, so what was below still is
        replace hroom := hroom rfl
        have htable : ((s.setMetadataTable module pushed.2).attachMetadata c.op c.kind
            pushed.1).table module = some pushed.2 := update_self _ _ _
        have hfits : asMdNodeId pushed.2.length = pushed.2.length := Nat.mod_eq_of_lt hroom
        have hnew : ∀ id, id < pushed.2.length → ((s.setMetadataTable module
            pushed.2).attachMetadata c.op c.kind pushed.1).Below module id := by
          intro id hlt
          rw [Below, htable, Option.getD_some, hfits]
          exact hlt
        have hgrow : ∀ id, s.Below module id → id < pushed.2.length :=
          fun id hbelow => (hbelow.trans_le (Nat.mod_le _ _)).trans_le hlength
        refine ⟨fun node hnode => ?_, fun id hmem' => hnew id ?_, fun x hx id hmem' => hnew id ?_⟩
        · rw [htable, Option.getD_some] at hnode
          rcases hmem node hnode with hnode | rfl
          · exact hconstants node hnode
          · exact hclear.constants hfind
        · rw [ownRefs, htable, Option.getD_some] at hmem'
          rcases List.mem_append.mp hmem' with hmem' | hmem'
          · obtain ⟨node, hnode, hmem'⟩ := List.mem_flatMap.mp hmem'
            rcases hmem node hnode with hnode | rfl
            · exact hgrow id (hown id (List.mem_append_left _
                (List.mem_flatMap.mpr ⟨node, hnode, hmem'⟩)))
            · exact (hclear.refs hfind id hmem').trans_le hlength
          · exact hgrow id (hown id (List.mem_append_right _ hmem'))
        · rcases attachedRefs_attachMetadata hmem' with hmem' | ⟨_, rfl⟩
          · exact hgrow id (hattached x hx id hmem')
          · exact hid hroom
      · -- neither the table nor anything inside the module changes
        have htable : ((s.setMetadataTable module pushed.2).attachMetadata c.op c.kind
            pushed.1).table moduleOp = s.table moduleOp := update_of_ne (Ne.symm hself) _ _
        have hsame : ∀ id, s.Below moduleOp id → ((s.setMetadataTable module
            pushed.2).attachMetadata c.op c.kind pushed.1).Below moduleOp id := by
          intro id hbelow
          rw [Below, htable]
          exact hbelow
        refine ⟨fun node hnode => ?_, fun id hmem' => hsame id ?_, fun x hx id hmem' => hsame id ?_⟩
        · rw [htable] at hnode
          exact hconstants node hnode
        · rw [ownRefs, htable] at hmem'
          exact hown id hmem'
        · rcases attachedRefs_attachMetadata hmem' with hmem' | ⟨rfl, _⟩
          · exact hattached x hx id hmem'
          · -- what is attached belongs to the other module
            have hdirect := hclear.direct hx
            rw [hfind] at hdirect
            exact absurd (Option.some.inj hdirect) hself

/-- Verification agrees with lookup if nothing is attached in nested modules, and for all tables
    and named metadata only then; and attaching new metadata keeps a module verifiable if the calls
    are clear. -/
theorem verifyMetadata_agrees (hnest : s.ctx.WellNested)
    (hmodule : s.ctx.isSymbolTable modules moduleOp = true) :
    ((∀ op id, ¬ s.Nested modules moduleOp op id) →
      ((s.table moduleOp).getD []).length < 2 ^ 32 →
      (s.verifyMetadata verifyAttr moduleOp = some (.ok ()) ↔
        s.MetadataResolves modules verifyAttr moduleOp)) ∧
    ((∀ op, s.ctx.Inside (.operation moduleOp) (.operation op) →
        ∀ id ∈ s.attachedRefs op, id + 1 < 2 ^ 32) →
      ((∀ s' : MdContext A, s'.ctx = s.ctx → s'.attachments = s.attachments →
          ((s'.table moduleOp).getD []).length < 2 ^ 32 →
          (s'.verifyMetadata verifyAttr moduleOp = some (.ok ()) ↔
            s'.MetadataResolves modules verifyAttr moduleOp)) ↔
        ∀ op id, ¬ s.Nested modules moduleOp op id)) ∧
    ∀ calls : List (AttachCall A), AllClear modules verifyAttr moduleOp s calls →
      s.verifyMetadata verifyAttr moduleOp = some (.ok ()) →
      (s.attachAll modules calls).verifyMetadata verifyAttr moduleOp = some (.ok ()) := by
  refine ⟨verify_iff_resolves hnest hmodule, agrees_for_all_tables_iff hnest hmodule,
    fun calls => ?_⟩
  clear hmodule
  -- the induction is on the calls; what the first one leaves verifies again
  induction calls generalizing s with
  | nil => exact fun _ hverify => hverify
  | cons c calls ih =>
      intro hclear hverify
      obtain ⟨hctx, hverify'⟩ := attach_verifies hnest hclear.1 hverify
      exact ih (hctx ▸ hnest) hclear.2 hverify'

/-! ## A module in a module -/

/-- Operation 0 is a module with operation 3 and the module of operation 1, which has
    operation 2. -/
def nestedModules : Context where
  operations := fun op => match op.idx with
    | 0 => some { concreteOp := { opId := 0 }, regions := [⟨0⟩] }
    | 1 => some { concreteOp := { opId := 0 }, regions := [⟨1⟩], parentBlock := some ⟨0⟩ }
    | 2 => some { concreteOp := { opId := 1 }, parentBlock := some ⟨1⟩ }
    | 3 => some { concreteOp := { opId := 1 }, parentBlock := some ⟨0⟩ }
    | _ => none
  basicBlocks := fun block => match block.idx with
    | 0 => some { ops := [⟨1⟩, ⟨3⟩], parentRegion := some ⟨0⟩ }
    | 1 => some { ops := [⟨2⟩], parentRegion := some ⟨1⟩ }
    | _ => none
  regions := fun region => match region.idx with
    | 0 => some { parentOp := ⟨0⟩, blocks := [⟨0⟩] }
    | 1 => some { parentOp := ⟨1⟩, blocks := [⟨1⟩] }
    | _ => none
  nextOp := 4
  nextBlock := 2
  nextRegion := 2

theorem nestedModules_wellNested : nestedModules.WellNested where
  op_mem := by
    rintro ⟨_ | _ | i⟩ ⟨_ | _ | _ | _ | j⟩ <;> simp [blockOps, opParentBlock, nestedModules]
  block_mem := by
    rintro ⟨_ | _ | i⟩ ⟨_ | _ | j⟩ <;> simp [regionBlocks, blockParentRegion, nestedModules]
  region_mem := by
    rintro ⟨_ | _ | _ | _ | i⟩ ⟨_ | _ | j⟩ <;> simp [opRegions, regionParentOp, nestedModules]
  ops_nodup := by
    rintro ⟨_ | _ | i⟩ <;> simp [blockOps, nestedModules]
  blocks_nodup := by
    rintro ⟨_ | _ | i⟩ <;> simp [regionBlocks, nestedModules]
  regions_nodup := by
    rintro ⟨_ | _ | _ | _ | i⟩ <;> simp [opRegions, nestedModules]
  op_lt := by
    rintro ⟨_ | _ | _ | _ | i⟩ <;> simp [nestedModules]
  block_lt := by
    rintro ⟨_ | _ | i⟩ <;> simp [nestedModules]
  region_lt := by
    rintro ⟨_ | _ | i⟩ <;> simp [nestedModules]
  acyclic := by
    refine ⟨fun op => if op.idx = 0 then 0 else if op.idx = 1 then 1 else 2, ?_⟩
    rintro ⟨_ | _ | _ | _ | i⟩ parent <;>
      simp [parentOp, opParentRegion, opParentBlock, blockParentRegion, regionParentOp,
        nestedModules] <;> rintro rfl <;> simp

/-- No metadata yet. -/
def bare : MdContext Nat := { ctx := nestedModules }

/-- The module has a node attached to an operation of the inner module. -/
def attachedInside : MdContext Nat :=
  bare.attach (fun id => id == 0) ⟨⟨2⟩, "nontemporal", .newTuple []⟩

/-- Both modules verify before the node is attached; afterwards every reference resolves where it
    is looked up, but the outer module is rejected for having no table. -/
theorem verifyMetadata_nested :
    nestedModules.WellNested ∧
    bare.verifyMetadata (fun _ => true) ⟨0⟩ = some (.ok ()) ∧
    bare.verifyMetadata (fun _ => true) ⟨1⟩ = some (.ok ()) ∧
    attachedInside.MetadataResolves (fun id => id == 0) (fun _ => true) ⟨0⟩ ∧
    attachedInside.verifyMetadata (fun _ => true) ⟨0⟩ = some (.error .noTable) := by
  refine ⟨nestedModules_wellNested, rfl, rfl, ⟨nofun, nofun, ?_⟩, rfl⟩
  rintro ⟨_ | _ | _ | i⟩ _ id hid
  · cases hid
  · cases hid
  · obtain rfl := List.mem_singleton.mp hid
    exact ⟨[.newTuple []], rfl, Nat.zero_lt_one⟩
  · cases hid

/-- Two nodes attached in the outer module, the second with a reference to the first. -/
def attachedOutside : MdContext Nat :=
  bare.attachAll (fun id => id == 0)
    [⟨⟨3⟩, "nontemporal", .newTuple [.null]⟩, ⟨⟨3⟩, "range", .newDistinctTuple [.node 0]⟩]

theorem attachedOutside_refs {op : OpPtr} {id : MdNodeId}
    (hid : id ∈ attachedOutside.attachedRefs op) : op = ⟨3⟩ ∧ id < 2 := by
  obtain ⟨_ | _ | _ | _ | i⟩ := op
  · cases hid
  · cases hid
  · cases hid
  · have hid' : id ∈ [0, 1] := hid
    exact ⟨rfl, by rcases List.mem_pair.mp hid' with rfl | rfl <;> decide⟩
  · cases hid

theorem verifyMetadata_agrees_outside :
    (∀ s' : MdContext Nat, s'.ctx = nestedModules → s'.attachments = attachedOutside.attachments →
      ((s'.table ⟨0⟩).getD []).length < 2 ^ 32 →
      (s'.verifyMetadata (fun _ => true) ⟨0⟩ = some (.ok ()) ↔
        s'.MetadataResolves (fun id => id == 0) (fun _ => true) ⟨0⟩)) ∧
    (attachedOutside.verifyMetadata (fun _ => true) ⟨0⟩ = some (.ok ()) ↔
      attachedOutside.MetadataResolves (fun id => id == 0) (fun _ => true) ⟨0⟩) ∧
    attachedOutside.attachments ⟨3⟩ = some [("nontemporal", 0), ("range", 1)] ∧
    attachedOutside.verifyMetadata (fun _ => true) ⟨0⟩ = some (.ok ()) := by
  have hagrees := @verifyMetadata_agrees Nat attachedOutside (fun id => id == 0) (fun _ => true)
    ⟨0⟩ _ nestedModules_wellNested rfl
  have hruns := (@verifyMetadata_agrees Nat bare (fun id => id == 0) (fun _ => true) ⟨0⟩ _
    nestedModules_wellNested rfl).2.2
  have hdirect : ∀ op id, ¬ attachedOutside.Nested (fun id => id == 0) ⟨0⟩ op id := by
    rintro op id ⟨_, hfind, hid⟩
    obtain ⟨rfl, _⟩ := attachedOutside_refs hid
    exact hfind rfl
  refine ⟨(hagrees.2.1 fun op _ id hid => ?_).mpr hdirect, hagrees.1 hdirect (by decide), rfl,
    hruns _ ⟨?_, ?_, trivial⟩ rfl⟩
  · exact (Nat.succ_lt_succ (attachedOutside_refs hid).2).trans (by decide)
  · exact ⟨fun _ => rfl, fun _ => nofun, fun _ => nofun, fun _ => by decide⟩
  · refine ⟨fun _ => rfl, fun _ id hid => ?_, fun _ => nofun, fun _ => by decide⟩
    obtain rfl := List.mem_singleton.mp hid
    exact Nat.zero_lt_one

end MdContext

end Pliron.Metadata
