/-
  Pliron.IR.DefUseErase

  Erasing keeps the def-use invariant, unless something that is left uses a
  definition that goes.

  Erasing drops the uses held by everything that is reached from the erased node
  through containers, checks that some of the definitions reached have no uses
  left, and deallocates what is reached.  A definition that is deallocated with
  uses left is the only way to leave an operand behind that refers to nothing.
-/

import Pliron.IR.DefUseCreate

namespace Pliron

open Pliron.Lib Function

namespace Context

/-- `node` is reached from `root` through containers, or is `root`. -/
def Contains (ctx : Context) (root node : IRNode) : Prop :=
  Reach (fun x y => y ∈ ctx.childNodes x) root node

variable {ctx ctx' ctx'' : Context} {refs : OpPtr → List (Nat × Def)} {op : OpPtr}
  {o : Operation} {node : IRNode}

/-! ## Dropping uses -/

section Operands

variable {δ : Type} {k : OperandKind δ}

theorem dropUses_spec {opds : List (Operand δ)} {rest : List (Nat × Def)} (h : ctx.DefUseOn refs)
    (hrest : (opds.map (Operand.ref k.toDef) ++ rest).Perm (refs op))
    (hdrop : opds.foldlM (fun ctx opd => ctx.dropUse k op opd) ctx = some ctx') :
    ctx'.DefUseOn (update refs op rest) ∧ SameIR ctx ctx' := by
  induction opds generalizing ctx refs with
  | nil =>
      obtain rfl := Option.some.inj hdrop
      refine ⟨h.perm (fun x => ?_), SameIR.refl ctx⟩
      by_cases hx : x = op
      · subst hx
        rw [update_self]
        exact hrest
      · rw [update_of_ne hx]
  | cons opd opds ih =>
      rw [List.foldlM_cons] at hdrop
      obtain ⟨ctx₁, hone, hdrop⟩ := Option.bind_eq_some_iff.mp hdrop
      obtain ⟨h₁, hsame₁⟩ := dropUse_spec h hone hrest
      obtain ⟨h₂, hsame₂⟩ := ih h₁ (by rw [update_self]; rfl) hdrop
      rw [update_idem] at h₂
      exact ⟨h₂, hsame₁.trans hsame₂⟩

/-- One of the two kinds of references of an operation is dropped. -/
theorem clearRefs_spec (hk : k.Lawful) (h : ctx.DefUse) (ho : ctx.operations op = some o)
    (hdrop : (k.get o).foldlM (fun ctx opd => ctx.dropUse k op opd)
      (ctx.setOp op (k.set o [])) = some ctx') :
    ctx'.DefUse ∧ SameIR (ctx.setOp op (k.set o [])) ctx' := by
  have hset : (ctx.setOp op (k.set o [])).DefUseOn ctx.refsOf :=
    DefUseOn.setOp h ho (hk.results_set o [])
  obtain ⟨h', hsame⟩ := dropUses_spec hset
    (by rw [refsOf_eq ho]; exact (hk.refs_perm o).symm) hdrop
  exact ⟨defUse_of_perm h' (fun x => by rw [hsame.refs, refsOf_setOp]), hsame⟩

end Operands

/-- Some operations drop their references; all of `S` do. -/
structure Dropped (ctx ctx' : Context) (S : OpPtr → Prop) : Prop where
  children : ctx'.childNodes = ctx.childNodes
  refs_or : ∀ op, ctx'.refsOf op = ctx.refsOf op ∨ ctx'.refsOf op = []
  refs_nil : ∀ op, S op → ctx'.refsOf op = []

namespace Dropped

variable {S S' : OpPtr → Prop}

theorem refl (ctx : Context) : Dropped ctx ctx (fun _ => False) :=
  ⟨rfl, fun _ => Or.inl rfl, fun _ h => h.elim⟩

theorem trans (h : Dropped ctx ctx' S) (h' : Dropped ctx' ctx'' S') :
    Dropped ctx ctx'' (fun op => S op ∨ S' op) where
  children := h'.children.trans h.children
  refs_or op := by
    rcases h'.refs_or op with heq | hnil
    · rw [heq]
      exact h.refs_or op
    · exact Or.inr hnil
  refs_nil op := by
    rintro (hop | hop)
    · rcases h'.refs_or op with heq | hnil
      · rw [heq, h.refs_nil op hop]
      · exact hnil
    · exact h'.refs_nil op hop

theorem mono (h : Dropped ctx ctx' S) (hS : ∀ op, S' op → S op) : Dropped ctx ctx' S' :=
  ⟨h.children, h.refs_or, fun op hop => h.refs_nil op (hS op hop)⟩

theorem contains (h : Dropped ctx ctx' S) : ctx'.Contains = ctx.Contains := by
  unfold Contains
  rw [h.children]

end Dropped

theorem dropOwnUses_spec (h : ctx.DefUse) (hdrop : ctx.dropOwnUses op = some ctx') :
    ctx'.DefUse ∧ Dropped ctx ctx' (fun x => x = op) := by
  obtain ⟨o, ho, hdrop⟩ := Option.bind_eq_some_iff.mp hdrop
  obtain ⟨ctx₁, hopds, hdrop⟩ := Option.bind_eq_some_iff.mp hdrop
  obtain ⟨o₁, ho₁, hsuccs⟩ := Option.bind_eq_some_iff.mp hdrop
  obtain ⟨h₁, hsame₁⟩ := clearRefs_spec operandKind_lawful h ho hopds
  obtain ⟨h₂, hsame₂⟩ := clearRefs_spec successorKind_lawful h₁ ho₁ hsuccs
  have hnil : o₁.operands = [] := by
    obtain ⟨o', ho', hopds', _⟩ := hsame₁.operation ho₁
    rw [setOp_operations, if_pos rfl] at ho'
    rw [hopds', ← Option.some.inj ho']
    rfl
  have hrefs : ctx'.refsOf = update ctx.refsOf op [] := by
    rw [hsame₂.refs, refsOf_setOp, hsame₁.refs, refsOf_setOp, update_idem]
    congr 1
    simp [successorKind, Operation.refs, hnil]
  refine ⟨h₂, ?_, fun x => ?_, ?_⟩
  · rw [hsame₂.children, childNodes_setOp ho₁ (successorKind_lawful.regions_set _ _),
      hsame₁.children, childNodes_setOp ho (operandKind_lawful.regions_set _ _)]
  · by_cases hx : x = op
    · exact Or.inr (by rw [hrefs, hx, update_self])
    · exact Or.inl (by rw [hrefs, update_of_ne hx])
  · rintro x rfl
    rw [hrefs, update_self]

theorem dropNodeUses_spec (h : ctx.DefUse) (hdrop : ctx.dropNodeUses node = some ctx') :
    ctx'.DefUse ∧ Dropped ctx ctx' (fun op => node = .operation op) := by
  cases node with
  | operation op =>
      obtain ⟨h', hd⟩ := dropOwnUses_spec h hdrop
      exact ⟨h', hd.mono (fun x hx => (IRNode.operation.inj hx).symm)⟩
  | basicBlock block =>
      obtain rfl := Option.some.inj hdrop
      exact ⟨h, (Dropped.refl ctx).mono (by simp)⟩
  | region region =>
      obtain rfl := Option.some.inj hdrop
      exact ⟨h, (Dropped.refl ctx).mono (by simp)⟩

/-- Everything that is reached has dropped its uses. -/
theorem dropAllUses_spec {fuel : Nat} (h : ctx.DefUse)
    (hdrop : dropAllUses fuel ctx node = some ctx') :
    ctx'.DefUse ∧ Dropped ctx ctx' (fun op => ctx.Contains node (.operation op)) := by
  induction fuel generalizing ctx ctx' node with
  | zero => cases hdrop
  | succ fuel ih =>
      have hfold : ∀ (l : List IRNode) (c c' : Context), c.DefUse →
          l.foldlM (dropAllUses fuel) c = some c' → c'.DefUse ∧
            Dropped c c' (fun op => ∃ x ∈ l, c.Contains x (.operation op)) := by
        intro l
        induction l with
        | nil =>
            intro c c' hc hl
            obtain rfl := Option.some.inj hl
            exact ⟨hc, (Dropped.refl c).mono (by simp)⟩
        | cons x l ihl =>
            intro c c' hc hl
            rw [List.foldlM_cons] at hl
            obtain ⟨c₁, hx, hl⟩ := Option.bind_eq_some_iff.mp hl
            obtain ⟨hc₁, hd₁⟩ := ih hc hx
            obtain ⟨hc', hd₂⟩ := ihl c₁ c' hc₁ hl
            refine ⟨hc', (hd₁.trans hd₂).mono ?_⟩
            rintro op ⟨y, hy, hop⟩
            rcases List.mem_cons.mp hy with rfl | hy
            · exact Or.inl hop
            · exact Or.inr ⟨y, hy, by rwa [hd₁.contains]⟩
      obtain ⟨_, _, hdrop⟩ := Option.bind_eq_some_iff.mp hdrop
      obtain ⟨ctx₁, hown, hdrop⟩ := Option.bind_eq_some_iff.mp hdrop
      obtain ⟨h₁, hd₁⟩ := dropNodeUses_spec h hown
      obtain ⟨h', hd₂⟩ := hfold _ _ _ h₁ hdrop
      refine ⟨h', (hd₁.trans hd₂).mono (fun op hop => ?_)⟩
      rcases Relation.ReflTransGen.cases_head hop with heq | ⟨x, hx, hop⟩
      · exact Or.inl heq
      · exact Or.inr ⟨x, by rwa [hd₁.children], by rw [hd₁.contains]; exact hop⟩

/-! ## Unlinking -/

theorem Contains.mono (hsub : ∀ x, ctx'.childNodes x ⊆ ctx.childNodes x) {root : IRNode}
    (h : ctx'.Contains root node) : ctx.Contains root node :=
  Reach.mono (fun x _ hxy => hsub x hxy) h

theorem childNodes_setBlock_subset {block : BlockPtr} {b : BasicBlock} (b' : BasicBlock)
    (hb : ctx.basicBlocks block = some b) (hops : b'.ops ⊆ b.ops) (x : IRNode) :
    (ctx.setBlock block b').childNodes x ⊆ ctx.childNodes x := by
  rcases x with _ | x | _
  · exact List.Subset.refl _
  · by_cases hx : x = block
    · subst hx
      simpa [childNodes, blockOps, setBlock_basicBlocks, hb] using List.map_subset _ hops
    · simp [childNodes, blockOps, setBlock_basicBlocks, hx]
  · exact List.Subset.refl _

theorem childNodes_setRegion_subset {region : RegionPtr} {r r' : Region}
    (hr : ctx.regions region = some r) (hblocks : r'.blocks ⊆ r.blocks) (x : IRNode) :
    (ctx.setRegion region r').childNodes x ⊆ ctx.childNodes x := by
  rcases x with _ | _ | x
  · exact List.Subset.refl _
  · exact List.Subset.refl _
  · by_cases hx : x = region
    · subst hx
      simpa [childNodes, regionBlocks, setRegion, hr] using List.map_subset _ hblocks
    · simp [childNodes, regionBlocks, setRegion, hx]

theorem unlinkOp_spec (hunlink : ctx.unlinkOp op = some ctx') :
    ctx'.usePairs = ctx.usePairs ∧ ctx'.refsOf = ctx.refsOf ∧
      ∀ x, ctx'.childNodes x ⊆ ctx.childNodes x := by
  obtain ⟨o, ho, hunlink⟩ := Option.bind_eq_some_iff.mp hunlink
  obtain ⟨block, _, hunlink⟩ := Option.bind_eq_some_iff.mp hunlink
  obtain ⟨b, hb, hunlink⟩ := Option.bind_eq_some_iff.mp hunlink
  obtain rfl := Option.some.inj hunlink
  refine ⟨?_, ?_, fun x => ?_⟩
  · exact (usePairs_setBlock hb (by rfl) (by rfl)).trans (usePairs_setOp ho (by rfl))
  · rw [show ∀ b', ((ctx.setOp op { o with parentBlock := none }).setBlock block b').refsOf =
      (ctx.setOp op { o with parentBlock := none }).refsOf from fun _ => rfl, refsOf_setOp]
    exact update_eq_self_iff.mpr (refsOf_eq ho).symm
  · have hsub := childNodes_setBlock_subset { b with ops := b.ops.erase op } hb
      List.erase_subset x
    rwa [childNodes_setOp ho (by rfl)] at hsub

theorem unlinkBlock_spec {block : BlockPtr} (hunlink : ctx.unlinkBlock block = some ctx') :
    ctx'.usePairs = ctx.usePairs ∧ ctx'.refsOf = ctx.refsOf ∧
      ∀ x, ctx'.childNodes x ⊆ ctx.childNodes x := by
  obtain ⟨b, hb, hunlink⟩ := Option.bind_eq_some_iff.mp hunlink
  obtain ⟨region, _, hunlink⟩ := Option.bind_eq_some_iff.mp hunlink
  obtain ⟨r, hr, hunlink⟩ := Option.bind_eq_some_iff.mp hunlink
  obtain rfl := Option.some.inj hunlink
  refine ⟨usePairs_setBlock hb (by rfl) (by rfl), rfl, fun x => ?_⟩
  exact List.Subset.trans (childNodes_setRegion_subset hr List.erase_subset x)
    (childNodes_setBlock_subset _ hb (by simp) x)

/-! ## Deallocating -/

/-- The nodes of `S`, and only these, may be gone. -/
structure Freed (ctx ctx' : Context) (S : IRNode → Prop) : Prop where
  op_eq : ∀ op, ctx'.operations op = ctx.operations op ∨
    (ctx'.operations op = none ∧ S (.operation op))
  block_eq : ∀ block, ctx'.basicBlocks block = ctx.basicBlocks block ∨
    (ctx'.basicBlocks block = none ∧ S (.basicBlock block))
  region_eq : ∀ region, ctx'.regions region = ctx.regions region ∨
    (ctx'.regions region = none ∧ S (.region region))
  useCounter : ctx'.useCounter = ctx.useCounter
  valueCounter : ctx'.valueCounter = ctx.valueCounter
  nextOp : ctx'.nextOp = ctx.nextOp
  nextBlock : ctx'.nextBlock = ctx.nextBlock

namespace Freed

variable {S S' : IRNode → Prop}

theorem refl (ctx : Context) : Freed ctx ctx (fun _ => False) :=
  ⟨fun _ => Or.inl rfl, fun _ => Or.inl rfl, fun _ => Or.inl rfl, rfl, rfl, rfl, rfl⟩

theorem mono (h : Freed ctx ctx' S) (hS : ∀ x, S x → S' x) : Freed ctx ctx' S' where
  op_eq op := (h.op_eq op).imp id (And.imp_right (hS _))
  block_eq block := (h.block_eq block).imp id (And.imp_right (hS _))
  region_eq region := (h.region_eq region).imp id (And.imp_right (hS _))
  useCounter := h.useCounter
  valueCounter := h.valueCounter
  nextOp := h.nextOp
  nextBlock := h.nextBlock

/-- An object that is gone or unchanged twice is gone or unchanged. -/
theorem trans_aux {α : Type} {a b c : Option α} {P Q : Prop} (h : b = a ∨ (b = none ∧ P))
    (h' : c = b ∨ (c = none ∧ Q)) : c = a ∨ (c = none ∧ (P ∨ Q)) := by
  rcases h' with rfl | ⟨hc, hq⟩
  · exact h.imp id (And.imp_right Or.inl)
  · exact Or.inr ⟨hc, Or.inr hq⟩

theorem trans (h : Freed ctx ctx' S) (h' : Freed ctx' ctx'' S') :
    Freed ctx ctx'' (fun x => S x ∨ S' x) where
  op_eq op := trans_aux (h.op_eq op) (h'.op_eq op)
  block_eq block := trans_aux (h.block_eq block) (h'.block_eq block)
  region_eq region := trans_aux (h.region_eq region) (h'.region_eq region)
  useCounter := h'.useCounter.trans h.useCounter
  valueCounter := h'.valueCounter.trans h.valueCounter
  nextOp := h'.nextOp.trans h.nextOp
  nextBlock := h'.nextBlock.trans h.nextBlock

theorem childNodes_subset (h : Freed ctx ctx' S) (x : IRNode) :
    ctx'.childNodes x ⊆ ctx.childNodes x := by
  rcases x with op | block | region
  · rcases h.op_eq op with heq | ⟨hnone, _⟩
    · simp [childNodes, opRegions, heq]
    · simp [childNodes, opRegions, hnone]
  · rcases h.block_eq block with heq | ⟨hnone, _⟩
    · simp [childNodes, blockOps, heq]
    · simp [childNodes, blockOps, hnone]
  · rcases h.region_eq region with heq | ⟨hnone, _⟩
    · simp [childNodes, regionBlocks, heq]
    · simp [childNodes, regionBlocks, hnone]

end Freed

theorem removeNode_freed (ctx : Context) (node : IRNode) :
    Freed ctx (ctx.removeNode node) (fun x => x = node) := by
  rcases node with op | block | region
  · refine ⟨fun x => ?_, fun _ => Or.inl rfl, fun _ => Or.inl rfl, rfl, rfl, rfl, rfl⟩
    by_cases hx : x = op
    · subst hx
      exact Or.inr ⟨by simp [removeNode], rfl⟩
    · exact Or.inl (by simp [removeNode, hx])
  · refine ⟨fun _ => Or.inl rfl, fun x => ?_, fun _ => Or.inl rfl, rfl, rfl, rfl, rfl⟩
    by_cases hx : x = block
    · subst hx
      exact Or.inr ⟨by simp [removeNode], rfl⟩
    · exact Or.inl (by simp [removeNode, hx])
  · refine ⟨fun _ => Or.inl rfl, fun _ => Or.inl rfl, fun x => ?_, rfl, rfl, rfl, rfl⟩
    by_cases hx : x = region
    · subst hx
      exact Or.inr ⟨by simp [removeNode], rfl⟩
    · exact Or.inl (by simp [removeNode, hx])

/-- Only what is reached is deallocated. -/
theorem dealloc_freed {fuel : Nat} (hdealloc : dealloc fuel ctx node = some ctx') :
    Freed ctx ctx' (ctx.Contains node) := by
  induction fuel generalizing ctx ctx' node with
  | zero => cases hdealloc
  | succ fuel ih =>
      have hfold : ∀ (l : List IRNode) (c c' : Context), l.foldlM (dealloc fuel) c = some c' →
          Freed c c' (fun y => ∃ x ∈ l, c.Contains x y) := by
        intro l
        induction l with
        | nil =>
            intro c c' hl
            obtain rfl := Option.some.inj hl
            exact (Freed.refl c).mono (by simp)
        | cons x l ihl =>
            intro c c' hl
            rw [List.foldlM_cons] at hl
            obtain ⟨c₁, hx, hl⟩ := Option.bind_eq_some_iff.mp hl
            have hf := ih hx
            refine (hf.trans (ihl c₁ c' hl)).mono ?_
            rintro y (hy | ⟨z, hz, hy⟩)
            · exact ⟨x, List.mem_cons_self, hy⟩
            · exact ⟨z, List.mem_cons_of_mem _ hz, hy.mono hf.childNodes_subset⟩
      obtain ⟨_, _, hdealloc⟩ := Option.bind_eq_some_iff.mp hdealloc
      obtain ⟨ctx₁, hl, hdealloc⟩ := Option.bind_eq_some_iff.mp hdealloc
      obtain rfl := Option.some.inj hdealloc
      refine ((hfold _ _ _ hl).trans (removeNode_freed ctx₁ node)).mono ?_
      rintro y (⟨x, hx, hy⟩ | rfl)
      · exact Reach.head hx hy
      · exact Reach.refl _

/-- What is gone held no uses and had none. -/
theorem freed_defUse {S : IRNode → Prop} (h : ctx.DefUse) (hf : Freed ctx ctx' S)
    (hrefs : ∀ op, S (.operation op) → ctx.refsOf op = [])
    (huses : ∀ d : Def, S d.definer → (ctx.usePairs d).getD [] = []) : ctx'.DefUse := by
  have hvals : ∀ entity, ctx'.valueDefs entity = ctx.valueDefs entity ∨
      (ctx'.valueDefs entity = none ∧ ∀ uid, S (Def.value ⟨uid, entity⟩).definer) := by
    rintro (op | block)
    · rcases hf.op_eq op with heq | ⟨hnone, hS⟩
      · exact Or.inl (by simp [valueDefs, heq])
      · exact Or.inr ⟨by simp [valueDefs, hnone], fun _ => hS⟩
    · rcases hf.block_eq block with heq | ⟨hnone, hS⟩
      · exact Or.inl (by simp [valueDefs, heq])
      · exact Or.inr ⟨by simp [valueDefs, hnone], fun _ => hS⟩
  have hsome : ∀ {entity l}, ctx'.valueDefs entity = some l → ctx.valueDefs entity = some l := by
    intro entity l hl
    rcases hvals entity with heq | ⟨hnone, _⟩
    · exact heq ▸ hl
    · rw [hnone] at hl
      cases hl
  have hrefsOf : ctx'.refsOf = ctx.refsOf := by
    funext op
    rcases hf.op_eq op with heq | ⟨hnone, hS⟩
    · simp [refsOf, heq]
    · rw [hrefs op hS]
      simp [refsOf, hnone]
  refine ⟨⟨fun entity l hl => h.vals_nodup entity l (hsome hl), fun entity l hl v hv => ?_,
    fun op hop => ?_, fun block hblock => ?_⟩, ?_, fun op r hr => ?_⟩
  · rw [hf.valueCounter]
    exact h.vals_lt entity l (hsome hl) v hv
  · rw [hf.nextOp]
    rcases hf.op_eq op with heq | ⟨hnone, _⟩
    · exact h.op_lt op (heq ▸ hop)
    · exact absurd hnone hop
  · rw [hf.nextBlock]
    rcases hf.block_eq block with heq | ⟨hnone, _⟩
    · exact h.block_lt block (heq ▸ hblock)
    · exact absurd hnone hblock
  · rw [hrefsOf]
    refine h.consistent.of_unused (fun d => ?_)
    rcases d with ⟨uid, entity⟩ | block
    · rcases hvals entity with heq | ⟨hnone, hS⟩
      · refine Or.inl ?_
        rw [usePairs, usePairs, usesOf_value, usesOf_value, heq]
      · refine Or.inr ⟨huses _ (hS uid), ?_⟩
        rw [usePairs, usesOf_value, hnone]
        rfl
    · rcases hf.block_eq block with heq | ⟨hnone, hS⟩
      · exact Or.inl (by simp [usePairs, usesOf, heq])
      · exact Or.inr ⟨huses _ hS, by simp [usePairs, usesOf, hnone]⟩
  · rw [hrefsOf] at hr
    rw [hf.useCounter]
    exact h.ids_lt op r hr

/-! ## Erasing -/

/-- Outside of `node`, no operand refers to a definition inside of it that satisfies `P`. -/
def Unreferenced (ctx : Context) (node : IRNode) (P : Def → Prop) : Prop :=
  ∀ op, ∀ r ∈ ctx.refsOf op, ctx.Contains node r.2.definer → P r.2 →
    ctx.Contains node (.operation op)

/-- What separates a node from its container: it is contained in less, and uses are not
    concerned. -/
structure Unlinked (ctx ctx' : Context) : Prop where
  defUse : ctx'.DefUse
  uses : ctx'.usePairs = ctx.usePairs
  refs : ctx'.refsOf = ctx.refsOf
  children : ∀ x, ctx'.childNodes x ⊆ ctx.childNodes x

theorem unlinkNode_unlinked (h : ctx.DefUse) (hunlink : ctx.unlinkNode node = some ctx') :
    Unlinked ctx ctx' := by
  have hsame : some ctx = some ctx' → Unlinked ctx ctx' := by
    rintro ⟨⟩
    exact ⟨h, rfl, rfl, fun _ => List.Subset.refl _⟩
  cases node with
  | operation op =>
      rw [unlinkNode] at hunlink
      split at hunlink
      · obtain ⟨huses, hrefs, hchildren⟩ := unlinkOp_spec hunlink
        exact ⟨unlinkOp_defUse h hunlink, huses, hrefs, hchildren⟩
      · exact hsame hunlink
  | basicBlock block =>
      rw [unlinkNode] at hunlink
      split at hunlink
      · obtain ⟨huses, hrefs, hchildren⟩ := unlinkBlock_spec hunlink
        exact ⟨unlinkBlock_defUse h hunlink, huses, hrefs, hchildren⟩
      · exact hsame hunlink
  | region region => exact hsame hunlink

/-- Erasing after the checks: what they leave open is referred to from inside only. -/
theorem erase_defUse {P : Def → Prop} {fuel fuel' : Nat} {ctx₁ ctx₂ : Context}
    (h : ctx.DefUse) (hopen : ctx.Unreferenced node (fun d => ¬ P d))
    (hdrop : dropAllUses fuel ctx node = some ctx₁)
    (hchecked : ∀ d, P d → (ctx₁.usePairs d).getD [] = [])
    (hunlink : ctx₁.DefUse → Unlinked ctx₁ ctx₂)
    (hdealloc : dealloc fuel' ctx₂ node = some ctx') : ctx'.DefUse := by
  obtain ⟨h₁, hdropped⟩ := dropAllUses_spec h hdrop
  obtain ⟨h₂, huses₂, hrefs₂, hchildren⟩ := hunlink h₁
  have hinside : ∀ {y}, ctx₂.Contains node y → ctx.Contains node y := by
    intro y hy
    have hy₁ := hy.mono hchildren
    rwa [hdropped.contains] at hy₁
  refine freed_defUse h₂ (dealloc_freed hdealloc) (fun op hop => ?_) (fun d hd => ?_)
  · rw [hrefs₂]
    exact hdropped.refs_nil op (hinside hop)
  · rw [huses₂]
    by_cases hd' : P d
    · exact hchecked d hd'
    · cases hus : ctx₁.usePairs d with
      | none => rfl
      | some us =>
          -- a use that is left is by an operation outside
          rw [Option.getD_some, List.eq_nil_iff_forall_not_mem]
          rintro ⟨op, uid⟩ huse
          have hr := h₁.consistent.refers d us hus (op, uid) huse
          rcases hdropped.refs_or op with heq | hnil
          · have hop := hopen op _ (heq ▸ hr) (hinside hd) hd'
            rw [hdropped.refs_nil op hop] at hr
            exact List.not_mem_nil hr
          · rw [hnil] at hr
            exact List.not_mem_nil hr

/-- The definitions that `eraseOp` checks: the results of the operation. -/
def CheckedByEraseOp (op : OpPtr) : Def → Prop
  | .value v => v.definingEntity = .op op
  | .block _ => False

/-- The definitions that `eraseBlock` checks: the block itself as a branch target, its
    arguments, and the results of the operations directly in it. -/
def CheckedByEraseBlock (ctx : Context) (block : BlockPtr) : Def → Prop
  | .value ⟨_, .op op⟩ => op ∈ ctx.blockOps block
  | .value ⟨_, .block b⟩ => b = block
  | .block b => b = block

theorem usePairs_eq_nil {d : Def} (hd : ∀ us, ctx.usesOf d = some us → us = []) :
    (ctx.usePairs d).getD [] = [] := by
  rw [usePairs]
  cases hus : ctx.usesOf d with
  | none => rfl
  | some us => simp [hd us hus]

/-- The value of an entity without uses has none. -/
theorem usesOf_value_eq_nil {v : Value} {l : List ValueDef}
    (hl : ctx.valueDefs v.definingEntity = some l) (hnil : ∀ e ∈ l, e.defNode.uses = [])
    {us : List Use} (hus : ctx.usesOf (.value v) = some us) : us = [] := by
  rw [usesOf_value, hl] at hus
  obtain ⟨e, he, rfl⟩ := Option.map_eq_some_iff.mp hus
  exact hnil e (List.mem_of_find?_eq_some he)

theorem not_hasUse_iff {o : Operation} : (!o.hasUse) = true ↔ ∀ e ∈ o.results, e.defNode.uses = [] := by
  simp [Operation.hasUse]

theorem mem_of_mapM {α β : Type} {f : α → Option β} {l : List α} {l' : List β} {a : α}
    (hl : l.mapM f = some l') (ha : a ∈ l) : ∃ b ∈ l', f a = some b := by
  induction l generalizing l' with
  | nil => exact absurd ha List.not_mem_nil
  | cons x l ih =>
      rw [List.mapM_cons] at hl
      obtain ⟨b, hb, hl⟩ := Option.bind_eq_some_iff.mp hl
      obtain ⟨bs, hbs, hl⟩ := Option.bind_eq_some_iff.mp hl
      obtain rfl := Option.some.inj hl
      rcases List.mem_cons.mp ha with rfl | ha
      · exact ⟨b, List.mem_cons_self, hb⟩
      · obtain ⟨b', hb', heq⟩ := ih hbs ha
        exact ⟨b', List.mem_cons_of_mem _ hb', heq⟩

theorem eraseOp_defUse (h : ctx.DefUse)
    (hopen : ctx.Unreferenced (.operation op) (fun d => ¬ CheckedByEraseOp op d))
    (herase : ctx.eraseOp op = some ctx') : ctx'.DefUse := by
  obtain ⟨ctx₁, hdrop, herase⟩ := Option.bind_eq_some_iff.mp herase
  obtain ⟨o, ho, herase⟩ := Option.bind_eq_some_iff.mp herase
  obtain ⟨_, hguard, herase⟩ := Option.bind_eq_some_iff.mp herase
  obtain ⟨ctx₂, hunlink, hdealloc⟩ := Option.bind_eq_some_iff.mp herase
  rw [Option.guard_eq_some', not_hasUse_iff] at hguard
  refine erase_defUse h hopen hdrop (fun d hd => ?_)
    (fun h₁ => unlinkNode_unlinked h₁ hunlink) hdealloc
  refine usePairs_eq_nil (fun us hus => ?_)
  rcases d with v | _
  · have hv : v.definingEntity = .op op := hd
    exact usesOf_value_eq_nil (l := o.results) (by simp [hv, valueDefs, ho]) hguard hus
  · exact hd.elim

theorem eraseBlock_defUse {block : BlockPtr} (h : ctx.DefUse)
    (hopen : ctx.Unreferenced (.basicBlock block) (fun d => ¬ ctx.CheckedByEraseBlock block d))
    (herase : ctx.eraseBlock block = some ctx') : ctx'.DefUse := by
  obtain ⟨ctx₁, hdrop, herase⟩ := Option.bind_eq_some_iff.mp herase
  obtain ⟨b, hb, herase⟩ := Option.bind_eq_some_iff.mp herase
  obtain ⟨_, hpreds, herase⟩ := Option.bind_eq_some_iff.mp herase
  obtain ⟨_, hargs, herase⟩ := Option.bind_eq_some_iff.mp herase
  obtain ⟨ops, hops, herase⟩ := Option.bind_eq_some_iff.mp herase
  obtain ⟨_, hresults, herase⟩ := Option.bind_eq_some_iff.mp herase
  obtain ⟨ctx₂, hunlink, hdealloc⟩ := Option.bind_eq_some_iff.mp herase
  rw [Option.guard_eq_some', List.isEmpty_iff] at hpreds
  rw [Option.guard_eq_some', List.all_eq_true] at hargs hresults
  refine erase_defUse h hopen hdrop (fun d hd => ?_)
    (fun h₁ => unlinkNode_unlinked h₁ hunlink) hdealloc
  refine usePairs_eq_nil (fun us hus => ?_)
  rcases d with ⟨uid, op | b'⟩ | b'
  · have hmem : op ∈ b.ops := by
      have hchild : IRNode.operation op ∈ ctx₁.childNodes (.basicBlock block) := by
        rw [(dropAllUses_spec h hdrop).2.children]
        exact List.mem_map_of_mem hd
      simpa [childNodes, blockOps, hb] using hchild
    obtain ⟨o, ho, hop⟩ := mem_of_mapM hops hmem
    exact usesOf_value_eq_nil (l := o.results) (by simp [valueDefs, hop])
      (not_hasUse_iff.mp (hresults o ho)) hus
  · obtain rfl : b' = block := hd
    refine usesOf_value_eq_nil (l := b.args) (by simp [valueDefs, hb]) (fun e he => ?_) hus
    exact List.isEmpty_iff.mp (hargs e he)
  · obtain rfl : b' = block := hd
    rw [usesOf, hb] at hus
    rw [← Option.some.inj hus]
    exact hpreds

/-- Erasing a region checks nothing. -/
theorem eraseRegion_defUse {regIdx : Nat} {reg : RegionPtr} (h : ctx.DefUse)
    (ho : ctx.operations op = some o) (hreg : o.regions[regIdx]? = some reg)
    (hopen : ctx.Unreferenced (.region reg) (fun _ => True))
    (herase : ctx.eraseRegion op regIdx = some ctx') : ctx'.DefUse := by
  simp only [eraseRegion, ho, hreg, Option.bind_eq_bind, Option.bind_some] at herase
  obtain ⟨ctx₁, hdrop, herase⟩ := Option.bind_eq_some_iff.mp herase
  obtain ⟨o₁, ho₁, hdealloc⟩ := Option.bind_eq_some_iff.mp herase
  refine erase_defUse (P := fun _ => False) h (fun x r hr hd _ => hopen x r hr hd trivial)
    hdrop (fun _ hd => hd.elim) (fun h₁ => ⟨h₁.setOp ho₁ (by rfl) (by rfl), ?_, ?_, fun x => ?_⟩)
    hdealloc
  · exact usePairs_setOp ho₁ (by rfl)
  · rw [refsOf_setOp]
    exact update_eq_self_iff.mpr (refsOf_eq ho₁).symm
  · rcases x with x | _ | _
    · by_cases hx : x = op
      · subst hx
        simpa [childNodes, opRegions, setOp_operations, ho₁] using
          List.map_subset _ (List.eraseIdx_sublist o₁.regions regIdx).subset
      · simp [childNodes, opRegions, setOp_operations, hx]
    · exact List.Subset.refl _
    · exact List.Subset.refl _

end Context

end Pliron
