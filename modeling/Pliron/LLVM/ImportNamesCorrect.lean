/-
  Pliron.LLVM.ImportNamesCorrect

  When the import of a module keeps its names apart.

  The module's legaliser never gives one identifier to two names, but global objects without a name
  share the empty one, and the value type of a global variable is converted with a legaliser of its
  own.
-/

import Pliron.LLVM.ImportNamesRun

namespace Pliron.ImportNames

variable {o : Type}

/-! ## Names of a module -/

namespace LLVMModule

/-- The global objects that become operations. -/
def objects (m : LLVMModule o) : List o :=
  m.globals.map Global.val ++ m.converted.map Function.val

/-- The names in the code that the module's legaliser gets, in order. -/
def codeNames (m : LLVMModule o) : List String :=
  m.globals.flatMap (fun global => global.mentions.flatMap (Mention.legalised m.toLLVMNames)) ++
    (m.converted.flatMap (fun function =>
        function.code.flatMap (Mention.legalised m.toLLVMNames)) ++
      m.metadata.flatMap (Mention.legalised m.toLLVMNames))

/-- The names that the module's legaliser gets, in order. -/
def names (m : LLVMModule o) : List String :=
  m.identifier :: m.objects.map m.valueName ++ m.codeNames

/-- The module's legaliser, after the import. -/
def legaliser (isAlphabetic : Char → Bool) (m : LLVMModule o) : Legaliser :=
  ({} : Legaliser).legaliseAll isAlphabetic m.names

/-- The structs whose names the module's legaliser gets. -/
def codeStructs (m : LLVMModule o) : List (String × LLVMType) :=
  m.globals.flatMap (fun global => global.mentions.flatMap Mention.structs) ++
    (m.converted.flatMap (fun function => function.code.flatMap Mention.structs) ++
      m.metadata.flatMap Mention.structs)

/-- The structs of the module. -/
def structs (m : LLVMModule o) : List (String × LLVMType) :=
  m.globals.flatMap (fun global => global.valueType.namedStructs) ++ m.codeStructs

/-- What the operations of the module become. -/
def ops [DecidableEq o] (m : LLVMModule o) (sym : o → String) (σ : String → String)
    (τ : Global o → String → String) : List (Converted o) :=
  m.globals.map (fun global => global.emit m.toLLVMNames m.objects sym σ (τ global)) ++
    m.converted.map (Function.emit m.toLLVMNames m.objects sym σ)

end LLVMModule

/-- The import keeps names apart: different global objects have different symbols, and references
    carry them; different structs have different names, the same ones everywhere, and their bodies. -/
def KeepsApart [DecidableEq o] (m : LLVMModule o) (imported : Imported o) : Prop :=
  ∃ (sym : o → String) (σ : String → String),
    (∀ v ∈ m.objects, ∀ w ∈ m.objects, sym v = sym w → v = w) ∧
    (∀ name ∈ m.structs.map Prod.fst, ∀ name' ∈ m.structs.map Prod.fst,
      σ name = σ name' → name = name') ∧
    imported.ops = m.ops sym σ (fun _ => σ) ∧
    imported.metadata = m.metadata.flatMap (Mention.emit m.toLLVMNames m.objects sym σ) ∧
    ∀ entry ∈ m.structs, Stored imported.structs σ entry.2

/-- The import succeeds and keeps names apart. -/
def ImportsApart [DecidableEq o] (isAlphabetic : Char → Bool) (m : LLVMModule o)
    (structs : TypeStore) : Prop :=
  ∃ imported, convertModule isAlphabetic m structs = .ok imported ∧ KeepsApart m imported

namespace LLVMModule

variable (m : LLVMModule o)

theorem objects_subset :
    m.objects ⊆ m.globals.map Global.val ++ m.functions.map Function.val := by
  intro v hv
  rcases List.mem_append.mp hv with hv | hv
  · exact List.mem_append_left _ hv
  · obtain ⟨function, hfunction, rfl⟩ := List.mem_map.mp hv
    exact List.mem_append_right _ (List.mem_map_of_mem (List.mem_filter.mp hfunction).1)

/-- LLVM has one struct of each name. -/
theorem structs_inj {name : String} {ty ty' : LLVMType} (h : (name, ty) ∈ m.structs)
    (h' : (name, ty') ∈ m.structs) : ty = ty' := by
  have hmem : ∀ entry ∈ m.structs,
      entry ∈ (m.globals.map Global.valueType ++ m.functions.map Function.functionType ++
        (m.globals.flatMap Global.mentions ++ m.functions.flatMap Function.mentions ++
          m.metadata).flatMap Mention.types).flatMap LLVMType.namedStructs := by
    intro entry hentry
    simp only [structs, codeStructs, List.mem_append, List.mem_flatMap, Mention.structs,
      Function.code, List.mem_cons, converted, List.mem_filter] at hentry
    simp only [List.mem_flatMap, List.mem_append, List.mem_map]
    rcases hentry with ⟨g, hg, hentry⟩ | ⟨g, hg, mention, hmention, ty, hty, hentry⟩ |
      ⟨f, ⟨hf, -⟩, mention, hmention, ty, hty, hentry⟩ | ⟨mention, hmention, ty, hty, hentry⟩
    · exact ⟨g.valueType, Or.inl (Or.inl ⟨g, hg, rfl⟩), hentry⟩
    · exact ⟨ty, Or.inr ⟨mention, Or.inl (Or.inl ⟨g, hg, hmention⟩), hty⟩, hentry⟩
    · rcases hmention with rfl | hmention
      · rw [List.mem_singleton.mp hty] at hentry
        exact ⟨f.functionType, Or.inl (Or.inr ⟨f, hf, rfl⟩), hentry⟩
      · exact ⟨ty, Or.inr ⟨mention, Or.inl (Or.inr ⟨f, hf, hmention⟩), hty⟩, hentry⟩
    · exact ⟨ty, Or.inr ⟨mention, Or.inr hmention, hty⟩, hentry⟩
  exact m.structs_unique name ty ty' (hmem _ h) (hmem _ h')

theorem legaliser_consistent (isAlphabetic : Char → Bool) : (m.legaliser isAlphabetic).Consistent :=
  (Legaliser.legaliseAll_spec isAlphabetic m.names Legaliser.consistent_default).1

theorem known_of_object (isAlphabetic : Char → Bool) {v : o} (hv : v ∈ m.objects) :
    Known (m.legaliser isAlphabetic) (m.valueName v) :=
  (Legaliser.legaliseAll_spec isAlphabetic m.names Legaliser.consistent_default).2.2 _
    (List.mem_append_left _ (List.mem_cons_of_mem _ (List.mem_map_of_mem hv)))

end LLVMModule

/-! ## The run of the import -/

section Run

variable [DecidableEq o] (isAlphabetic : Char → Bool) (m : LLVMModule o) (structs₀ : TypeStore)

/-- The state once all global objects have been noted down. -/
def LLVMModule.noted : State o :=
  noteSymbolNames isAlphabetic m.toLLVMNames (m.converted.map Function.val)
    (noteSymbolNames isAlphabetic m.toLLVMNames (m.globals.map Global.val)
      (legalise isAlphabetic m.identifier ({ structs := structs₀ } : State o)).2)

theorem LLVMModule.noted_spec :
    Noted m.toLLVMNames m.objects (m.noted isAlphabetic structs₀) ∧
      (m.noted isAlphabetic structs₀).idLegaliser =
        ({} : Legaliser).legaliseAll isAlphabetic (m.identifier :: m.objects.map m.valueName) ∧
      (m.noted isAlphabetic structs₀).structs = structs₀ := by
  have hfirst : Noted m.toLLVMNames []
      (legalise isAlphabetic m.identifier ({ structs := structs₀ } : State o)).2 :=
    ⟨legalise_inv isAlphabetic _ (cacheInv_fresh structs₀), nofun, nofun, fun _ _ => rfl⟩
  obtain ⟨hglobals, hleg, hstructs⟩ :=
    noteSymbolNames_noted isAlphabetic (m.globals.map Global.val) hfirst
  obtain ⟨hnoted, hleg', hstructs'⟩ :=
    noteSymbolNames_noted isAlphabetic (m.converted.map Function.val) hglobals
  refine ⟨hnoted, ?_, hstructs'.trans hstructs⟩
  rw [LLVMModule.noted, hleg', hleg, ← Legaliser.legaliseAll_append, ← List.map_append]
  rfl

/-- After the noting down, everything is converted in order. -/
theorem convertModule_eq : convertModule isAlphabetic m structs₀ = (do
    let (globals, s) ← convertAll (convertGlobal isAlphabetic m.toLLVMNames) m.globals
      (m.noted isAlphabetic structs₀)
    let (functions, s) ← convertAll (convertFunction isAlphabetic m.toLLVMNames) m.converted s
    let (metadata, s) ← convertMentions isAlphabetic m.toLLVMNames m.metadata s
    return ⟨(legalise isAlphabetic m.identifier ({ structs := structs₀ } : State o)).1,
      globals ++ functions, metadata, s.structs⟩) := rfl

variable {isAlphabetic m structs₀}

theorem convertGlobals_step {global : Global o} (hglobal : global ∈ m.globals) (s : State o)
    (op : Converted o) (s' : State o) (h : Noted m.toLLVMNames m.objects s)
    (hr : convertGlobal isAlphabetic m.toLLVMNames global s = .ok (op, s')) :
    Emits isAlphabetic (global.mentions.flatMap (Mention.legalised m.toLLVMNames))
      (global.mentions.flatMap Mention.structs)
      (global.Kept isAlphabetic)
      (fun l => global.emit m.toLLVMNames m.objects (symOf m.toLLVMNames l) (idOf l)
        (idOf (global.legaliser isAlphabetic))) s s' op := by
  have hval : global.val ∈ m.objects := List.mem_append_left _ (List.mem_map_of_mem hglobal)
  obtain ⟨hconverts, hkept, hemit⟩ := convertGlobal_ok h hval hr
  exact ⟨hconverts, hkept, hemit⟩

theorem convertFunctions_step {function : Function o} (hfunction : function ∈ m.converted)
    (s : State o) (op : Converted o) (s' : State o) (h : Noted m.toLLVMNames m.objects s)
    (hr : convertFunction isAlphabetic m.toLLVMNames function s = .ok (op, s')) :
    Emits isAlphabetic (function.code.flatMap (Mention.legalised m.toLLVMNames))
      (function.code.flatMap Mention.structs) (fun _ => True)
      (fun l => function.emit m.toLLVMNames m.objects (symOf m.toLLVMNames l) (idOf l)) s s' op := by
  have hval : function.val ∈ m.objects := List.mem_append_right _ (List.mem_map_of_mem hfunction)
  obtain ⟨hconverts, hemit⟩ := convertFunction_ok h hval hr
  exact ⟨hconverts, trivial, hemit⟩

theorem convertGlobals_ok {s s' : State o} {ops : List (Converted o)}
    (h : Noted m.toLLVMNames m.objects s)
    (hr : convertAll (convertGlobal isAlphabetic m.toLLVMNames) m.globals s = .ok (ops, s')) :
    Emits isAlphabetic
      (m.globals.flatMap fun global => global.mentions.flatMap (Mention.legalised m.toLLVMNames))
      (m.globals.flatMap fun global => global.mentions.flatMap Mention.structs)
      (fun store => ∀ global ∈ m.globals, global.Kept isAlphabetic store)
      (fun l => m.globals.map fun global => global.emit m.toLLVMNames m.objects
        (symOf m.toLLVMNames l) (idOf l) (idOf (global.legaliser isAlphabetic))) s s' ops :=
  convertAll_ok (fun _ => Closed.flatMap Mention.structs_closed _)
    (fun _ _ _ hgrows hkept entry hentry =>
      ⟨(hkept entry hentry).1, (hkept entry hentry).2.mono hgrows fun _ _ => rfl⟩)
    m.globals (fun _ => convertGlobals_step) h hr

theorem convertFunctions_ok {s s' : State o} {ops : List (Converted o)}
    (h : Noted m.toLLVMNames m.objects s)
    (hr : convertAll (convertFunction isAlphabetic m.toLLVMNames) m.converted s = .ok (ops, s')) :
    Emits isAlphabetic
      (m.converted.flatMap fun function => function.code.flatMap (Mention.legalised m.toLLVMNames))
      (m.converted.flatMap fun function => function.code.flatMap Mention.structs)
      (fun _ => ∀ function ∈ m.converted, True)
      (fun l => m.converted.map (Function.emit m.toLLVMNames m.objects (symOf m.toLLVMNames l)
        (idOf l))) s s' ops :=
  convertAll_ok (fun _ => Closed.flatMap Mention.structs_closed _) (fun _ _ _ _ _ => trivial)
    m.converted (fun _ => convertFunctions_step) h hr

/-- What a module becomes when its import ends. -/
structure ImportedAs (isAlphabetic : Char → Bool) (m : LLVMModule o) (structs₀ : TypeStore)
    (imported : Imported o) : Prop where
  ops : imported.ops = m.ops (symOf m.toLLVMNames (m.legaliser isAlphabetic))
    (idOf (m.legaliser isAlphabetic)) (fun global => idOf (global.legaliser isAlphabetic))
  metadata : imported.metadata = m.metadata.flatMap (Mention.emit m.toLLVMNames m.objects
    (symOf m.toLLVMNames (m.legaliser isAlphabetic)) (idOf (m.legaliser isAlphabetic)))
  grows : StoreGrows structs₀ imported.structs
  code : ∀ entry ∈ m.codeStructs, Known (m.legaliser isAlphabetic) entry.1 ∧
    Stored imported.structs (idOf (m.legaliser isAlphabetic)) entry.2
  own : ∀ global ∈ m.globals, global.Kept isAlphabetic imported.structs

theorem convertModule_ok {imported : Imported o}
    (hr : convertModule isAlphabetic m structs₀ = .ok imported) :
    ImportedAs isAlphabetic m structs₀ imported := by
  obtain ⟨hnoted, hleg, hstructs⟩ := m.noted_spec isAlphabetic structs₀
  rw [convertModule_eq] at hr
  obtain ⟨⟨globals, s₁⟩, hglobals, hr⟩ := bind_eq_ok hr
  obtain ⟨⟨functions, s₂⟩, hfunctions, hr⟩ := bind_eq_ok hr
  obtain ⟨⟨metadata, s₃⟩, hmetadata, hr⟩ := bind_eq_ok hr
  obtain rfl := Except.ok.inj hr
  have h₁ := convertGlobals_ok hnoted hglobals
  have h₂ := convertFunctions_ok (hnoted.mono h₁.converts) hfunctions
  obtain ⟨h₃, hemit⟩ := convertMentions_ok m.metadata
    ((hnoted.mono h₁.converts).mono h₂.converts) hmetadata
  have hclosed : ∀ mentions : List (Mention o), Closed (mentions.flatMap Mention.structs) :=
    Closed.flatMap Mention.structs_closed
  have hall := h₁.converts.trans (Closed.flatMap (fun _ => hclosed _) _)
    (h₂.converts.trans (Closed.flatMap (fun _ => hclosed _) _) h₃)
  have hl : s₃.idLegaliser = m.legaliser isAlphabetic := by
    rw [hall.legaliser, hleg, ← Legaliser.legaliseAll_append]
    rfl
  have hext₂ : s₂.idLegaliser.Extends (m.legaliser isAlphabetic) :=
    hl ▸ h₃.legaliser_extends h₂.converts.inv.consistent
  have hext₁ : s₁.idLegaliser.Extends (m.legaliser isAlphabetic) :=
    (h₂.converts.legaliser_extends h₁.converts.inv.consistent).trans hext₂
  refine ⟨?_, ?_, ?_, fun entry hentry => ?_, fun global hglobal entry hentry => ?_⟩
  · rw [LLVMModule.ops, ← h₁.result _ hext₁, ← h₂.result _ hext₂]
  · exact hemit _ (hl ▸ Legaliser.Extends.refl _)
  · rw [← hstructs]
    exact hall.grows
  · rw [← hl]
    exact ⟨hall.known.names entry hentry, hall.known.stored entry hentry⟩
  · have hkept := h₁.kept global hglobal entry hentry
    exact ⟨hkept.1, hkept.2.mono (h₂.converts.grows.trans h₃.grows) fun _ _ => rfl⟩

/-- The import does not fail when the structs agree, and all legalisers with them. -/
theorem convertModule_succeeds {σ : String → String} (ha : Agrees structs₀ m.structs σ)
    (hcode : ∀ name ∈ m.codeStructs.map Prod.fst,
      (m.legaliser isAlphabetic).strToId name = some (σ name))
    (hown : ∀ global ∈ m.globals, ∀ name ∈ global.valueType.structNames,
      (global.legaliser isAlphabetic).strToId name = some (σ name)) :
    ∃ imported, convertModule isAlphabetic m structs₀ = .ok imported := by
  obtain ⟨hnoted, hleg, hstructs⟩ := m.noted_spec isAlphabetic structs₀
  have hunique : ∀ name ty ty', (name, ty) ∈ m.structs → (name, ty') ∈ m.structs → ty = ty' :=
    fun _ _ _ => m.structs_inj
  have hcodeSub : m.codeStructs ⊆ m.structs := List.subset_append_right _ _
  have hlater : Later isAlphabetic (m.legaliser isAlphabetic) σ m.codeNames m.codeStructs
      (m.noted isAlphabetic structs₀) := by
    refine ⟨?_, hcode⟩
    rw [hleg, ← Legaliser.legaliseAll_append]
    exact Legaliser.Extends.refl _
  have hstore : StoreOf structs₀ m.structs σ (m.noted isAlphabetic structs₀).structs := by
    rw [hstructs]
    exact fun _ _ hid => Or.inl hid
  obtain ⟨globals, s₁, hglobals, hstore₁⟩ := convertAll_succeeds m.globals
    (fun global hglobal s op s' h hr => (convertGlobals_step hglobal s op s' h hr).converts)
    (fun global hglobal s h hlater hstore => convertGlobal_succeeds ha hunique h
      (List.mem_append_left _ (List.mem_map_of_mem hglobal))
      (fun entry hentry => List.mem_append_left _
        (List.mem_flatMap.mpr ⟨global, hglobal, hentry⟩)) (hown global hglobal)
      (fun entry hentry => hcodeSub (List.mem_append_left _
        (List.mem_flatMap.mpr ⟨global, hglobal, hentry⟩))) hlater hstore)
    hnoted (hlater.left hnoted.inv.consistent) hstore
  have h₁ := convertGlobals_ok hnoted hglobals
  have hlater₁ := hlater.right h₁.converts
  have hnoted₁ := hnoted.mono h₁.converts
  obtain ⟨functions, s₂, hfunctions, hstore₂⟩ := convertAll_succeeds m.converted
    (fun function hfunction s op s' h hr => (convertFunctions_step hfunction s op s' h hr).converts)
    (fun function hfunction s h hlater hstore => convertFunction_succeeds ha hunique h
      (List.mem_append_right _ (List.mem_map_of_mem hfunction))
      (fun entry hentry => hcodeSub (List.mem_append_right _ (List.mem_append_left _
        (List.mem_flatMap.mpr ⟨function, hfunction, hentry⟩)))) hlater hstore)
    hnoted₁ (hlater₁.left hnoted₁.inv.consistent) hstore₁
  have h₂ := convertFunctions_ok hnoted₁ hfunctions
  obtain ⟨metadata, s₃, hmetadata, -⟩ := convertMentions_succeeds ha hunique m.metadata
    (fun entry hentry => hcodeSub (List.mem_append_right _ (List.mem_append_right _ hentry)))
    (hnoted₁.mono h₂.converts) (hlater₁.right h₂.converts) hstore₂
  rw [convertModule_eq]
  exact ⟨_, (bind_of_ok hglobals).trans ((bind_of_ok hfunctions).trans (bind_of_ok hmetadata))⟩

end Run

/-! ## Names that are seen -/

mutual

/-- The names of a type's structs are seen in the renamed type and in the type store: induction on
    the type. -/
theorem LLVMType.rename_inj {structs : TypeStore} {σ τ : String → String} : (ty : LLVMType) →
    (∀ entry ∈ ty.namedStructs, Stored structs σ entry.2) →
    (∀ entry ∈ ty.namedStructs, Stored structs τ entry.2) → ty.rename σ = ty.rename τ →
    ∀ name ∈ ty.structNames, σ name = τ name
  | .scalar _, _, _, _ => nofun
  | .array elem _, hσ, hτ, heq => by
      rw [LLVMType.rename, LLVMType.rename] at heq
      exact elem.rename_inj hσ hτ (TypeHandle.array.inj heq).1
  | .vector elem _ _, hσ, hτ, heq => by
      rw [LLVMType.rename, LLVMType.rename] at heq
      exact elem.rename_inj hσ hτ (TypeHandle.vector.inj heq).1
  | .function ret params _, hσ, hτ, heq => by
      rw [LLVMType.rename, LLVMType.rename] at heq
      rw [LLVMType.namedStructs, List.forall_mem_append] at hσ hτ
      obtain ⟨hret, hparams, -⟩ := TypeHandle.func.inj heq
      rw [LLVMType.structNames, LLVMType.namedStructs, List.map_append, List.forall_mem_append]
      exact ⟨ret.rename_inj hσ.1 hτ.1 hret, params.rename_inj hσ.2 hτ.2 hparams⟩
  | .struct fields _, hσ, hτ, heq => by
      rw [LLVMType.rename, LLVMType.rename] at heq
      exact fields.rename_inj hσ hτ (TypeHandle.struct.inj heq).1
  | .namedStruct name fields isPacked, hσ, hτ, heq => by
      rw [LLVMType.rename, LLVMType.rename] at heq
      rw [LLVMType.namedStructs, List.forall_mem_cons] at hσ hτ
      have hname : σ name = τ name := TypeHandle.namedStruct.inj heq
      have hfields : structs (σ name) = some (some (fields.rename σ, isPacked)) := hσ.1
      have hfields' : structs (τ name) = some (some (fields.rename τ, isPacked)) := hτ.1
      rw [hname, hfields', Option.some.injEq, Option.some.injEq, Prod.mk.injEq] at hfields
      rw [LLVMType.structNames, LLVMType.namedStructs, List.map_cons, List.forall_mem_cons]
      exact ⟨hname, fields.rename_inj hσ.2 hτ.2 hfields.1.symm⟩
  | .bodiless name, _, _, heq => by
      rw [LLVMType.rename, LLVMType.rename] at heq
      intro name' hname'
      rw [List.mem_singleton.mp hname']
      exact TypeHandle.namedStruct.inj heq

theorem LLVMTypes.rename_inj {structs : TypeStore} {σ τ : String → String} : (tys : LLVMTypes) →
    (∀ entry ∈ tys.namedStructs, Stored structs σ entry.2) →
    (∀ entry ∈ tys.namedStructs, Stored structs τ entry.2) → tys.rename σ = tys.rename τ →
    ∀ name ∈ tys.structNames, σ name = τ name
  | .nil, _, _, _ => nofun
  | .cons ty rest, hσ, hτ, heq => by
      rw [LLVMTypes.rename, LLVMTypes.rename] at heq
      rw [LLVMTypes.namedStructs, List.forall_mem_append] at hσ hτ
      obtain ⟨hty, hrest⟩ := TypeHandles.cons.inj heq
      rw [LLVMTypes.structNames, LLVMTypes.namedStructs, List.map_append, List.forall_mem_append]
      exact ⟨ty.rename_inj hσ.1 hτ.1 hty, rest.rename_inj hσ.2 hτ.2 hrest⟩

end

section Emit

variable [DecidableEq o] {names : LLVMNames o} {objects : List o} {sym sym' : o → String}
  {σ τ : String → String}

theorem Mention.emit_length (mention : Mention o) :
    (mention.emit names objects sym σ).length = (mention.emit names objects sym' τ).length := by
  cases mention with
  | type ty => rfl
  | label name => rfl
  | symbolAddr val =>
      rw [Mention.emit, Mention.emit]
      split <;> rfl
  | addressOf val => rfl
  | call callee =>
      rw [Mention.emit, Mention.emit]
      split <;> rfl
  | blockAddress function => rfl

theorem Mention.emit_congr (mention : Mention o)
    (h : ∀ name ∈ mention.structs.map Prod.fst, σ name = τ name) :
    mention.emit names objects sym σ = mention.emit names objects sym τ := by
  cases mention with
  | type ty =>
      have heq : (Mention.type ty : Mention o).structs = ty.namedStructs := List.append_nil _
      rw [heq] at h
      rw [Mention.emit, Mention.emit, ty.rename_congr h]
  | label name => rfl
  | symbolAddr val => rfl
  | addressOf val => rfl
  | call callee => rfl
  | blockAddress function => rfl

theorem Mention.flatMap_emit_congr (mentions : List (Mention o))
    (h : ∀ name ∈ (mentions.flatMap Mention.structs).map Prod.fst, σ name = τ name) :
    mentions.flatMap (Mention.emit names objects sym σ) =
      mentions.flatMap (Mention.emit names objects sym τ) := by
  refine List.flatMap_congr fun mention hmention => mention.emit_congr fun name hname => ?_
  obtain ⟨entry, hentry, rfl⟩ := List.mem_map.mp hname
  exact h _ (List.mem_map_of_mem (List.mem_flatMap.mpr ⟨mention, hmention, hentry⟩))

/-- The names of the structs are seen in what a mention becomes. -/
theorem Mention.emit_inj {structs : TypeStore} (mention : Mention o)
    (hσ : ∀ entry ∈ mention.structs, Stored structs σ entry.2)
    (hτ : ∀ entry ∈ mention.structs, Stored structs τ entry.2)
    (heq : mention.emit names objects sym σ = mention.emit names objects sym' τ) :
    ∀ name ∈ mention.structs.map Prod.fst, σ name = τ name := by
  cases mention with
  | type ty =>
      have hstructs : (Mention.type ty : Mention o).structs = ty.namedStructs := List.append_nil _
      rw [hstructs] at hσ hτ ⊢
      rw [Mention.emit, Mention.emit] at heq
      exact ty.rename_inj hσ hτ (Emitted.type.inj (List.cons.inj heq).1).2
  | label _ | symbolAddr _ | addressOf _ | call _ | blockAddress _ =>
      intro name hname
      cases hname

theorem Mention.flatMap_emit_inj {structs : TypeStore} (mentions : List (Mention o))
    (hσ : ∀ entry ∈ mentions.flatMap Mention.structs, Stored structs σ entry.2)
    (hτ : ∀ entry ∈ mentions.flatMap Mention.structs, Stored structs τ entry.2)
    (heq : mentions.flatMap (Mention.emit names objects sym σ) =
      mentions.flatMap (Mention.emit names objects sym' τ)) :
    ∀ name ∈ (mentions.flatMap Mention.structs).map Prod.fst, σ name = τ name := by
  induction mentions with
  | nil => exact nofun
  | cons mention rest ih =>
      rw [List.flatMap_cons, List.forall_mem_append] at hσ hτ
      rw [List.flatMap_cons, List.flatMap_cons] at heq
      obtain ⟨hfirst, hrest⟩ := List.append_inj heq mention.emit_length
      rw [List.flatMap_cons, List.map_append, List.forall_mem_append]
      exact ⟨mention.emit_inj hσ.1 hτ.1 hfirst, ih hσ.2 hτ.2 hrest⟩

end Emit

/-! ## The import keeps names apart -/

section Apart

variable [DecidableEq o] {isAlphabetic : Char → Bool} {m : LLVMModule o} {structs₀ : TypeStore}
  {sym sym' : o → String} {σ σ' : String → String} {τ τ' : Global o → String → String}

theorem LLVMModule.ops_eq_iff : m.ops sym σ τ = m.ops sym' σ' τ' ↔
    (∀ global ∈ m.globals, global.emit m.toLLVMNames m.objects sym σ (τ global) =
      global.emit m.toLLVMNames m.objects sym' σ' (τ' global)) ∧
    ∀ function ∈ m.converted, function.emit m.toLLVMNames m.objects sym σ =
      function.emit m.toLLVMNames m.objects sym' σ' := by
  rw [LLVMModule.ops, LLVMModule.ops, ← List.map_inj_left, ← List.map_inj_left]
  constructor
  · intro heq
    exact List.append_inj heq (by rw [List.length_map, List.length_map])
  · rintro ⟨hglobals, hfunctions⟩
    rw [hglobals, hfunctions]

/-- The symbols and the struct names of an import that keeps names apart are those of the
    legalisers. -/
theorem names_of_keepsApart {imported : Imported o}
    (has : ImportedAs isAlphabetic m structs₀ imported)
    (hops : imported.ops = m.ops sym σ (fun _ => σ))
    (hmetadata : imported.metadata =
      m.metadata.flatMap (Mention.emit m.toLLVMNames m.objects sym σ))
    (hstored : ∀ entry ∈ m.structs, Stored imported.structs σ entry.2) :
    (∀ v ∈ m.objects, sym v = symOf m.toLLVMNames (m.legaliser isAlphabetic) v) ∧
      (∀ name ∈ m.codeStructs.map Prod.fst, σ name = idOf (m.legaliser isAlphabetic) name) ∧
      ∀ global ∈ m.globals, ∀ name ∈ global.valueType.structNames,
        σ name = idOf (global.legaliser isAlphabetic) name := by
  have hcode : ∀ entry ∈ m.codeStructs, Stored imported.structs σ entry.2 :=
    fun entry hentry => hstored entry (List.mem_append_right _ hentry)
  have hown : ∀ global ∈ m.globals, ∀ entry ∈ global.valueType.namedStructs,
      Stored imported.structs σ entry.2 := fun global hglobal entry hentry =>
    hstored entry (List.mem_append_left _ (List.mem_flatMap.mpr ⟨global, hglobal, hentry⟩))
  have hcode' := fun entry hentry => (has.code entry hentry).2
  rw [LLVMModule.codeStructs, List.forall_mem_append, List.forall_mem_append] at hcode hcode'
  obtain ⟨hglobals, hfunctions⟩ := LLVMModule.ops_eq_iff.mp (hops.symm.trans has.ops)
  refine ⟨fun v hv => ?_, ?_, fun global hglobal => ?_⟩
  · rcases List.mem_append.mp hv with hv | hv
    · obtain ⟨global, hglobal, rfl⟩ := List.mem_map.mp hv
      exact (Prod.mk.inj (Prod.mk.inj (hglobals global hglobal)).1).2
    · obtain ⟨function, hfunction, rfl⟩ := List.mem_map.mp hv
      exact (Prod.mk.inj (Prod.mk.inj (hfunctions function hfunction)).1).2
  · rw [LLVMModule.codeStructs, List.map_append, List.map_append, List.forall_mem_append,
      List.forall_mem_append]
    refine ⟨fun name hname => ?_, fun name hname => ?_, ?_⟩
    · obtain ⟨entry, hentry, rfl⟩ := List.mem_map.mp hname
      obtain ⟨global, hglobal, hentry⟩ := List.mem_flatMap.mp hentry
      have hmentions := (List.cons.inj (Prod.mk.inj (hglobals global hglobal)).2).2
      exact Mention.flatMap_emit_inj global.mentions
        (fun e he => hcode.1 e (List.mem_flatMap.mpr ⟨global, hglobal, he⟩))
        (fun e he => hcode'.1 e (List.mem_flatMap.mpr ⟨global, hglobal, he⟩)) hmentions _
        (List.mem_map_of_mem hentry)
    · obtain ⟨entry, hentry, rfl⟩ := List.mem_map.mp hname
      obtain ⟨function, hfunction, hentry⟩ := List.mem_flatMap.mp hentry
      have hmentions := (Prod.mk.inj (hfunctions function hfunction)).2
      exact Mention.flatMap_emit_inj function.code
        (fun e he => hcode.2.1 e (List.mem_flatMap.mpr ⟨function, hfunction, he⟩))
        (fun e he => hcode'.2.1 e (List.mem_flatMap.mpr ⟨function, hfunction, he⟩)) hmentions _
        (List.mem_map_of_mem hentry)
    · exact Mention.flatMap_emit_inj m.metadata hcode.2.2 hcode'.2.2
        (hmetadata.symm.trans has.metadata)
  · have htype := (Emitted.type.inj (List.cons.inj (Prod.mk.inj (hglobals global hglobal)).2).1).2
    exact global.valueType.rename_inj (hown global hglobal)
      (fun entry hentry => (has.own global hglobal entry hentry).2) htype

/-- When all legalisers give the structs the names `σ`, these are the names in the imported
    module. -/
theorem keepsApart_of_agrees {imported : Imported o}
    (has : ImportedAs isAlphabetic m structs₀ imported)
    (hunnamed : ∀ v ∈ m.objects, ∀ w ∈ m.objects, m.valueName v = "" → m.valueName w = "" → v = w)
    (ha : Agrees structs₀ m.structs σ)
    (hcode : ∀ name ∈ m.codeStructs.map Prod.fst,
      (m.legaliser isAlphabetic).strToId name = some (σ name))
    (hown : ∀ global ∈ m.globals, ∀ name ∈ global.valueType.structNames,
      (global.legaliser isAlphabetic).strToId name = some (σ name)) : KeepsApart m imported := by
  have hidOf : ∀ name ∈ m.codeStructs.map Prod.fst,
      idOf (m.legaliser isAlphabetic) name = σ name := fun name hname => by
    rw [idOf, hcode name hname, Option.getD_some]
  have hidOwn : ∀ global ∈ m.globals, ∀ name ∈ global.valueType.structNames,
      idOf (global.legaliser isAlphabetic) name = σ name := fun global hglobal name hname => by
    rw [idOf, hown global hglobal name hname, Option.getD_some]
  have hcongr : ∀ mentions : List (Mention o), mentions.flatMap Mention.structs ⊆ m.codeStructs →
      mentions.flatMap (Mention.emit m.toLLVMNames m.objects
        (symOf m.toLLVMNames (m.legaliser isAlphabetic)) (idOf (m.legaliser isAlphabetic))) =
      mentions.flatMap (Mention.emit m.toLLVMNames m.objects
        (symOf m.toLLVMNames (m.legaliser isAlphabetic)) σ) := fun mentions hsub =>
    Mention.flatMap_emit_congr mentions fun name hname => hidOf name (List.map_subset _ hsub hname)
  have hclosed : Closed m.codeStructs := by
    have hmentions : ∀ mentions : List (Mention o), Closed (mentions.flatMap Mention.structs) :=
      Closed.flatMap Mention.structs_closed
    intro entry hentry name hname
    rw [LLVMModule.codeStructs] at hentry ⊢
    rw [List.map_append, List.map_append]
    simp only [List.mem_append] at hentry ⊢
    rcases hentry with hentry | hentry | hentry
    · exact Or.inl (Closed.flatMap (fun _ => hmentions _) _ entry hentry name hname)
    · exact Or.inr (Or.inl (Closed.flatMap (fun _ => hmentions _) _ entry hentry name hname))
    · exact Or.inr (Or.inr (hmentions _ entry hentry name hname))
  refine ⟨symOf m.toLLVMNames (m.legaliser isAlphabetic), σ, fun v hv w hw heq => ?_, ha.inj, ?_,
    ?_, fun entry hentry => ?_⟩
  · obtain ⟨id, hid⟩ := m.known_of_object isAlphabetic hv
    obtain ⟨id', hid'⟩ := m.known_of_object isAlphabetic hw
    rw [symOf, symOf, idOf, idOf, hid, hid', Option.getD_some, Option.getD_some] at heq
    subst heq
    have hname := (m.legaliser_consistent isAlphabetic).inj hid hid'
    by_cases hempty : m.valueName v = ""
    · exact hunnamed v hv w hw hempty (hname ▸ hempty)
    · exact m.valueName_inj v (m.objects_subset hv) w (m.objects_subset hw) hname hempty
  · rw [has.ops]
    refine LLVMModule.ops_eq_iff.mpr ⟨fun global hglobal => ?_, fun function hfunction => ?_⟩
    · rw [Global.emit, Global.emit, global.valueType.rename_congr (hidOwn global hglobal),
        hcongr global.mentions fun entry hentry => List.mem_append_left _
          (List.mem_flatMap.mpr ⟨global, hglobal, hentry⟩)]
    · rw [Function.emit, Function.emit,
        hcongr function.code fun entry hentry => List.mem_append_right _ (List.mem_append_left _
          (List.mem_flatMap.mpr ⟨function, hfunction, hentry⟩))]
  · rw [has.metadata, hcongr m.metadata fun entry hentry => List.mem_append_right _
      (List.mem_append_right _ hentry)]
  · rcases List.mem_append.mp hentry with hentry | hentry
    · obtain ⟨global, hglobal, hentry⟩ := List.mem_flatMap.mp hentry
      refine ((has.own global hglobal) entry hentry).2.mono (StoreGrows.refl _) fun name hname => ?_
      exact (hidOwn global hglobal name
        (global.valueType.namedStructs_closed entry hentry name hname)).symm
    · refine (has.code entry hentry).2.mono (StoreGrows.refl _) fun name hname => ?_
      exact (hidOf name (hclosed entry hentry name hname)).symm

/-- The import keeps names apart exactly when at most one global object has no name, and the structs
    have names that do not clash, neither with each other nor with the context, and that the module's
    legaliser and those of the global variables agree on. -/
theorem importsApart_iff (isAlphabetic : Char → Bool) (m : LLVMModule o) (structs₀ : TypeStore) :
    ImportsApart isAlphabetic m structs₀ ↔
      (∀ v ∈ m.objects, ∀ w ∈ m.objects, m.valueName v = "" → m.valueName w = "" → v = w) ∧
      ∃ σ, Agrees structs₀ m.structs σ ∧
        (∀ name ∈ m.codeStructs.map Prod.fst,
          (m.legaliser isAlphabetic).strToId name = some (σ name)) ∧
        ∀ global ∈ m.globals, ∀ name ∈ global.valueType.structNames,
          (global.legaliser isAlphabetic).strToId name = some (σ name) := by
  constructor
  · rintro ⟨imported, hr, sym, σ, hsym, hσ, hops, hmetadata, hstored⟩
    have has := convertModule_ok hr
    obtain ⟨hobjects, hcode, hown⟩ := names_of_keepsApart has hops hmetadata hstored
    have hknown : ∀ {l : Legaliser} {name : String}, Known l name → σ name = idOf l name →
        l.strToId name = some (σ name) := by
      rintro l name ⟨id, hid⟩ heq
      rw [heq, idOf, hid, Option.getD_some]
    -- objects without a name all get the same symbol, so there is at most one
    refine ⟨fun v hv w hw hempty hempty' => hsym v hv w hw ?_, σ, ⟨hσ, ?_⟩, ?_, ?_⟩
    · rw [hobjects v hv, hobjects w hw, symOf, symOf, hempty, hempty']
    · -- a body that the context has stays, so the module must agree with it
      intro name fields isPacked body hmem hbody
      have hstored' : imported.structs (σ name) = some (some (fields.rename σ, isPacked)) :=
        hstored _ hmem
      rw [has.grows.2 _ _ hbody] at hstored'
      exact Option.some.inj (Option.some.inj hstored')
    · intro name hname
      obtain ⟨entry, hentry, rfl⟩ := List.mem_map.mp hname
      exact hknown (has.code entry hentry).1 (hcode _ hname)
    · intro global hglobal name hname
      obtain ⟨entry, hentry, rfl⟩ := List.mem_map.mp hname
      exact hknown (has.own global hglobal entry hentry).1 (hown global hglobal _ hname)
  · rintro ⟨hunnamed, σ, ha, hcode, hown⟩
    obtain ⟨imported, hr⟩ := convertModule_succeeds ha hcode hown
    exact ⟨imported, hr, keepsApart_of_agrees (convertModule_ok hr) hunnamed ha hcode hown⟩

end Apart

/-- Two global variables without a name: `@0 = global i32 0` and `@1 = global i32 1`. -/
def unnamedGlobals : LLVMModule Nat where
  valueName _ := ""
  isIntrinsic _ := false
  identifier := "m"
  globals := [⟨0, .scalar (.integer 32), []⟩, ⟨1, .scalar (.integer 32), []⟩]
  functions := []
  metadata := []
  nodup := by decide
  valueName_inj := fun _ _ _ _ _ hne => absurd rfl hne
  structs_unique := fun _ _ _ h => nomatch h

/-- A global variable of the type `%a.b = type { i32 }`, and one of `%a_b = type { i64 }`. -/
def clashingStructs : LLVMModule Nat where
  valueName v := if v = 0 then "f" else "g"
  isIntrinsic _ := false
  identifier := "m"
  globals :=
    [⟨0, .namedStruct "a.b" (.cons (.scalar (.integer 32)) .nil) false, []⟩,
      ⟨1, .namedStruct "a_b" (.cons (.scalar (.integer 64)) .nil) false, []⟩]
  functions := []
  metadata := []
  nodup := by decide
  valueName_inj := by decide
  structs_unique := by
    intro name ty ty' h h'
    have hmem : ∀ t, (name, t) ∈
        [("a.b", LLVMType.namedStruct "a.b" (.cons (.scalar (.integer 32)) .nil) false),
          ("a_b", LLVMType.namedStruct "a_b" (.cons (.scalar (.integer 64)) .nil) false)] →
        t = if name = "a.b" then .namedStruct "a.b" (.cons (.scalar (.integer 32)) .nil) false
          else .namedStruct "a_b" (.cons (.scalar (.integer 64)) .nil) false := by
      intro t ht
      rcases List.mem_cons.mp ht with ht | ht
      · obtain ⟨rfl, rfl⟩ := Prod.mk.inj ht
        rfl
      · obtain ⟨rfl, rfl⟩ := Prod.mk.inj (List.mem_singleton.mp ht)
        rfl
    rw [hmem ty h, hmem ty' h']

/-- Both unnamed global variables get the symbol of the empty name; the two struct types get the
    name `a_b`, from two legalisers, and the second is refused. -/
theorem not_importsApart_unnamed :
    ¬ ImportsApart Char.isAlpha unnamedGlobals (fun _ => none) ∧
      convertModule Char.isAlpha clashingStructs (fun _ => none) =
        .error (.existingMismatch "a_b") := by
  refine ⟨?_, rfl⟩
  rintro ⟨imported, hr, sym, σ, hsym, -, hops, hmetadata, hstored⟩
  obtain ⟨hobjects, -, -⟩ := names_of_keepsApart (convertModule_ok hr) hops hmetadata hstored
  have heq : sym 0 = sym 1 := by
    rw [hobjects 0 (by decide), hobjects 1 (by decide)]
    rfl
  exact absurd (hsym 0 (by decide) 1 (by decide) heq) (by decide)

end Pliron.ImportNames
