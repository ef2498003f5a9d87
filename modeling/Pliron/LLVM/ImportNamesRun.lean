/-
  Pliron.LLVM.ImportNamesRun

  Global objects, one after another: what their conversion makes of them, and when it does not fail.
-/

import Pliron.LLVM.ImportNamesSpec

namespace Pliron.ImportNames

variable {o : Type} [DecidableEq o] {isAlphabetic : Char → Bool} {names : LLVMNames o}
  {objects : List o} {s s' : State o}

/-! ## What a global object becomes -/

/-- The legaliser of a global variable's own conversion context. -/
def Global.legaliser (isAlphabetic : Char → Bool) (global : Global o) : Legaliser :=
  ({} : Legaliser).legaliseAll isAlphabetic global.valueType.structNames

/-- The structs of a global variable's value type are in the type store, under the names of its own
    legaliser. -/
def Global.Kept (isAlphabetic : Char → Bool) (global : Global o) (structs : TypeStore) : Prop :=
  ∀ entry ∈ global.valueType.namedStructs, Known (global.legaliser isAlphabetic) entry.1 ∧
    Stored structs (idOf (global.legaliser isAlphabetic)) entry.2

/-- What a global variable becomes.  The structs of its value type have the names `τ`. -/
def Global.emit (names : LLVMNames o) (objects : List o) (sym : o → String)
    (σ τ : String → String) (global : Global o) : Converted o :=
  ((global.val, sym global.val), .type global.valueType (global.valueType.rename τ) ::
    global.mentions.flatMap (Mention.emit names objects sym σ))

/-- The code of a function, with the function's type. -/
def Function.code (function : Function o) : List (Mention o) :=
  .type function.functionType :: function.mentions

/-- What a function becomes. -/
def Function.emit (names : LLVMNames o) (objects : List o) (sym : o → String)
    (σ : String → String) (function : Function o) : Converted o :=
  ((function.val, sym function.val), function.code.flatMap (Mention.emit names objects sym σ))

/-! ## Conversions that end -/

omit [DecidableEq o] in
theorem cacheInv_fresh (structs : TypeStore) : CacheInv ({ structs := structs } : State o) :=
  ⟨Legaliser.consistent_default, nofun, nofun⟩

/-- The symbol of an object that was noted down. -/
theorem legalizedSymbolName_of_noted {val : o} (h : Noted names objects s) (hval : val ∈ objects) :
    legalizedSymbolName isAlphabetic names val s = (symOf names s.idLegaliser val, s) := by
  rw [legalizedSymbolName, h.symbol val hval]

omit [DecidableEq o] in
theorem symOf_mono {val : o} (h : Noted names objects s) (hval : val ∈ objects) {l : Legaliser}
    (hext : s.idLegaliser.Extends l) : symOf names s.idLegaliser val = symOf names l val :=
  ((h.known val hval).mono hext).2.symm

omit [DecidableEq o] in
/-- Another conversion adds to the type store. -/
theorem Converts.of_grows {structs : TypeStore} (h : CacheInv s)
    (hgrows : StoreGrows s.structs structs) :
    Converts isAlphabetic [] [] s { s with structs := structs } :=
  ⟨rfl, rfl, hgrows, h.mono rfl h.consistent (Legaliser.Extends.refl _) hgrows, nofun, nofun⟩

/-- A global variable: its structs get the names of its own legaliser. -/
theorem convertGlobal_ok {global : Global o} {op : Converted o} (h : Noted names objects s)
    (hval : global.val ∈ objects)
    (hr : convertGlobal isAlphabetic names global s = .ok (op, s')) :
    Converts isAlphabetic (global.mentions.flatMap (Mention.legalised names))
        (global.mentions.flatMap Mention.structs) s s' ∧
      global.Kept isAlphabetic s'.structs ∧
      ∀ l, s'.idLegaliser.Extends l →
        op = global.emit names objects (symOf names l) (idOf l)
          (idOf (global.legaliser isAlphabetic)) := by
  rw [convertGlobal, legalizedSymbolName_of_noted h hval] at hr
  obtain ⟨⟨handle, fresh⟩, hty, hr⟩ := bind_eq_ok hr
  obtain ⟨⟨emitted, s₁⟩, hmentions, hr⟩ := bind_eq_ok hr
  obtain ⟨rfl, rfl⟩ := Prod.mk.inj (Except.ok.inj hr)
  obtain ⟨hfresh, rfl⟩ := convertType_ok isAlphabetic _ (cacheInv_fresh _) hty
  have hlegaliser : fresh.idLegaliser = global.legaliser isAlphabetic := hfresh.legaliser
  have hstore : Converts isAlphabetic [] [] s { s with structs := fresh.structs } :=
    Converts.of_grows h.inv hfresh.grows
  obtain ⟨hconverts, hemit⟩ := convertMentions_ok global.mentions (h.mono hstore) hmentions
  have hconverts' := hstore.trans nofun hconverts
  rw [Global.Kept, ← hlegaliser]
  refine ⟨hconverts', fun entry hentry => ⟨hfresh.known.names entry hentry, ?_⟩, fun l hext => ?_⟩
  · exact (hfresh.known.stored entry hentry).mono hconverts.grows fun _ _ => rfl
  · have hext' := (hconverts'.legaliser_extends h.inv.consistent).trans hext
    rw [Global.emit, hemit l hext, symOf_mono h hval hext']

/-- A function is a symbol and its code. -/
theorem convertFunction_eq {function : Function o} (h : Noted names objects s)
    (hval : function.val ∈ objects) :
    convertFunction isAlphabetic names function s =
      (do let converted ← convertMentions isAlphabetic names function.code s
          return (((function.val, symOf names s.idLegaliser function.val), converted.1),
            converted.2)) := by
  rw [convertFunction, legalizedSymbolName_of_noted h hval, Function.code, convertMentions,
    convertMention]
  dsimp only
  cases convertType isAlphabetic function.functionType s with
  | error _ => rfl
  | ok converted =>
      show (convertMentions isAlphabetic names function.mentions converted.2 >>= _) =
        ((convertMentions isAlphabetic names function.mentions converted.2 >>= _) >>= _)
      cases convertMentions isAlphabetic names function.mentions converted.2 <;> rfl

theorem convertFunction_ok {function : Function o} {op : Converted o} (h : Noted names objects s)
    (hval : function.val ∈ objects)
    (hr : convertFunction isAlphabetic names function s = .ok (op, s')) :
    Converts isAlphabetic (function.code.flatMap (Mention.legalised names))
        (function.code.flatMap Mention.structs) s s' ∧
      ∀ l, s'.idLegaliser.Extends l → op = function.emit names objects (symOf names l) (idOf l) := by
  rw [convertFunction_eq h hval] at hr
  obtain ⟨⟨emitted, s₁⟩, hmentions, hr⟩ := bind_eq_ok hr
  obtain ⟨rfl, rfl⟩ := Prod.mk.inj (Except.ok.inj hr)
  obtain ⟨hconverts, hemit⟩ := convertMentions_ok function.code h hmentions
  refine ⟨hconverts, fun l hext => ?_⟩
  have hext' := (hconverts.legaliser_extends h.inv.consistent).trans hext
  rw [Function.emit, hemit l hext, symOf_mono h hval hext']

/-- What the conversion of one global object does: its code legalises names and stores structs, it
    keeps more in the type store, and its result is known once the legaliser is. -/
structure Emits (isAlphabetic : Char → Bool) (legalised : List String)
    (structs : List (String × LLVMType)) (kept : TypeStore → Prop) {β : Type}
    (emit : Legaliser → β) (s s' : State o) (result : β) : Prop where
  converts : Converts isAlphabetic legalised structs s s'
  kept : kept s'.structs
  result : ∀ l, s'.idLegaliser.Extends l → result = emit l

omit [DecidableEq o] in
/-- Global objects in order: induction on the objects. -/
theorem convertAll_ok {α : Type} {convert : α → State o → Except StructErr (Converted o × State o)}
    {legalised : α → List String} {structs : α → List (String × LLVMType)}
    {kept : α → TypeStore → Prop} {emit : Legaliser → α → Converted o}
    (hclosed : ∀ a, Closed (structs a))
    (hkept : ∀ a store store', StoreGrows store store' → kept a store → kept a store')
    (as : List α)
    (hstep : ∀ a ∈ as, ∀ s op s', Noted names objects s → convert a s = .ok (op, s') →
      Emits isAlphabetic (legalised a) (structs a) (kept a) (fun l => emit l a) s s' op)
    {s : State o} {ops : List (Converted o)} (h : Noted names objects s)
    (hr : convertAll convert as s = .ok (ops, s')) :
    Emits isAlphabetic (as.flatMap legalised) (as.flatMap structs)
      (fun store => ∀ a ∈ as, kept a store) (fun l => as.map (emit l)) s s' ops := by
  induction as generalizing s ops with
  | nil =>
      obtain ⟨rfl, rfl⟩ := Prod.mk.inj (Except.ok.inj hr)
      exact ⟨Converts.refl h.inv nofun ⟨nofun, nofun⟩, nofun, fun _ _ => rfl⟩
  | cons a as ih =>
      obtain ⟨⟨op, s₁⟩, hop, hr⟩ := bind_eq_ok hr
      obtain ⟨⟨ops', s₂⟩, hops, hr⟩ := bind_eq_ok hr
      obtain ⟨rfl, rfl⟩ := Prod.mk.inj (Except.ok.inj hr)
      have hfirst := hstep a List.mem_cons_self s op s₁ h hop
      have hrest := ih (fun a ha => hstep a (List.mem_cons_of_mem _ ha))
        (h.mono hfirst.converts) hops
      refine ⟨hfirst.converts.trans (hclosed a) hrest.converts, fun a' ha' => ?_, fun l hext => ?_⟩
      · rcases List.mem_cons.mp ha' with rfl | ha'
        · exact hkept _ _ _ hrest.converts.grows hfirst.kept
        · exact hrest.kept a' ha'
      · have hext' :=
          (hrest.converts.legaliser_extends hfirst.converts.inv.consistent).trans hext
        rw [List.map_cons, hfirst.result l hext', hrest.result l hext]

/-! ## Conversions that do not fail -/

section Succeeds

variable {structs₀ : TypeStore} {all : List (String × LLVMType)} {σ : String → String}
  {l : Legaliser}

omit [DecidableEq o] in
/-- A mention of structs that agree: only a type can fail. -/
theorem convertMention_succeeds (ha : Agrees structs₀ all σ)
    (hunique : ∀ name ty ty', (name, ty) ∈ all → (name, ty') ∈ all → ty = ty')
    (mention : Mention o) (hsub : mention.structs ⊆ all) (h : CacheInv s)
    (hlater : Later isAlphabetic l σ (mention.legalised names) mention.structs s)
    (hstore : StoreOf structs₀ all σ s.structs) :
    ∃ emitted s', convertMention isAlphabetic names mention s = .ok (emitted, s') ∧
      StoreOf structs₀ all σ s'.structs := by
  cases mention with
  | type ty =>
      have heq : (Mention.type ty : Mention o).structs = ty.namedStructs := List.append_nil _
      rw [heq] at hsub hlater
      obtain ⟨handle, s', hr, hstore'⟩ := convertType_succeeds ha hunique ty hsub h hlater hstore
      exact ⟨_, s', bind_of_ok hr, hstore'⟩
  | label name => exact ⟨_, _, rfl, hstore⟩
  | symbolAddr val =>
      rw [convertMention]
      cases s.symbolNames val with
      | none => exact ⟨_, _, rfl, hstore⟩
      | some name => exact ⟨_, _, rfl, hstore⟩
  | addressOf val => exact ⟨_, _, rfl, hstore⟩
  | call callee =>
      rw [convertMention]
      by_cases hintrinsic : names.isIntrinsic (names.valueName callee) = true
      · rw [if_pos hintrinsic]
        exact ⟨_, _, rfl, hstore⟩
      · rw [if_neg hintrinsic]
        exact ⟨_, _, rfl, hstore⟩
  | blockAddress function => exact ⟨_, _, rfl, hstore⟩

/-- Code whose structs agree: induction on what it mentions. -/
theorem convertMentions_succeeds (ha : Agrees structs₀ all σ)
    (hunique : ∀ name ty ty', (name, ty) ∈ all → (name, ty') ∈ all → ty = ty')
    (mentions : List (Mention o)) {s : State o} (hsub : mentions.flatMap Mention.structs ⊆ all)
    (h : Noted names objects s)
    (hlater : Later isAlphabetic l σ (mentions.flatMap (Mention.legalised names))
      (mentions.flatMap Mention.structs) s)
    (hstore : StoreOf structs₀ all σ s.structs) :
    ∃ emitted s', convertMentions isAlphabetic names mentions s = .ok (emitted, s') ∧
      StoreOf structs₀ all σ s'.structs := by
  induction mentions generalizing s with
  | nil => exact ⟨[], s, rfl, hstore⟩
  | cons mention rest ih =>
      rw [List.flatMap_cons] at hsub
      rw [List.flatMap_cons, List.flatMap_cons] at hlater
      obtain ⟨hsub₁, hsub₂⟩ := List.append_subset.mp hsub
      obtain ⟨first, s₁, hfirst, hstore₁⟩ := convertMention_succeeds ha hunique mention hsub₁ h.inv
        (hlater.left h.inv.consistent) hstore
      obtain ⟨hconverts, -⟩ := convertMention_ok h hfirst
      obtain ⟨more, s₂, hrest, hstore₂⟩ := ih hsub₂ (h.mono hconverts)
        (hlater.right hconverts) hstore₁
      exact ⟨first ++ more, s₂, (bind_of_ok hfirst).trans (bind_of_ok hrest), hstore₂⟩

/-- A global variable, when its own legaliser gives the structs of its value type their names. -/
theorem convertGlobal_succeeds (ha : Agrees structs₀ all σ)
    (hunique : ∀ name ty ty', (name, ty) ∈ all → (name, ty') ∈ all → ty = ty')
    {global : Global o} (h : Noted names objects s) (hval : global.val ∈ objects)
    (hsub : global.valueType.namedStructs ⊆ all)
    (hown : ∀ name ∈ global.valueType.structNames,
      (global.legaliser isAlphabetic).strToId name = some (σ name))
    (hsub' : global.mentions.flatMap Mention.structs ⊆ all)
    (hlater : Later isAlphabetic l σ (global.mentions.flatMap (Mention.legalised names))
      (global.mentions.flatMap Mention.structs) s)
    (hstore : StoreOf structs₀ all σ s.structs) :
    ∃ op s', convertGlobal isAlphabetic names global s = .ok (op, s') ∧
      StoreOf structs₀ all σ s'.structs := by
  rw [convertGlobal, legalizedSymbolName_of_noted h hval]
  obtain ⟨handle, fresh, hty, hstore₁⟩ := convertType_succeeds ha hunique global.valueType hsub
    (cacheInv_fresh (o := o) s.structs) ⟨Legaliser.Extends.refl _, hown⟩ hstore
  obtain ⟨hfresh, -⟩ := convertType_ok isAlphabetic _ (cacheInv_fresh _) hty
  have hconverts : Converts isAlphabetic [] [] s { s with structs := fresh.structs } :=
    Converts.of_grows h.inv hfresh.grows
  obtain ⟨emitted, s', hmentions, hstore'⟩ := convertMentions_succeeds ha hunique global.mentions
    hsub' (h.mono hconverts) hlater hstore₁
  exact ⟨_, s', (bind_of_ok hty).trans (bind_of_ok hmentions), hstore'⟩

theorem convertFunction_succeeds (ha : Agrees structs₀ all σ)
    (hunique : ∀ name ty ty', (name, ty) ∈ all → (name, ty') ∈ all → ty = ty')
    {function : Function o} (h : Noted names objects s) (hval : function.val ∈ objects)
    (hsub : function.code.flatMap Mention.structs ⊆ all)
    (hlater : Later isAlphabetic l σ (function.code.flatMap (Mention.legalised names))
      (function.code.flatMap Mention.structs) s)
    (hstore : StoreOf structs₀ all σ s.structs) :
    ∃ op s', convertFunction isAlphabetic names function s = .ok (op, s') ∧
      StoreOf structs₀ all σ s'.structs := by
  rw [convertFunction_eq h hval]
  obtain ⟨emitted, s', hmentions, hstore'⟩ := convertMentions_succeeds ha hunique function.code
    hsub h hlater hstore
  exact ⟨_, s', bind_of_ok hmentions, hstore'⟩

omit [DecidableEq o] in
/-- Global objects in order: induction on the objects. -/
theorem convertAll_succeeds {α : Type}
    {convert : α → State o → Except StructErr (Converted o × State o)}
    {legalised : α → List String} {structs : α → List (String × LLVMType)} (as : List α)
    (hstep : ∀ a ∈ as, ∀ s op s', Noted names objects s → convert a s = .ok (op, s') →
      Converts isAlphabetic (legalised a) (structs a) s s')
    (hsucceeds : ∀ a ∈ as, ∀ s, Noted names objects s →
      Later isAlphabetic l σ (legalised a) (structs a) s → StoreOf structs₀ all σ s.structs →
      ∃ op s', convert a s = .ok (op, s') ∧ StoreOf structs₀ all σ s'.structs)
    {s : State o} (h : Noted names objects s)
    (hlater : Later isAlphabetic l σ (as.flatMap legalised) (as.flatMap structs) s)
    (hstore : StoreOf structs₀ all σ s.structs) :
    ∃ ops s', convertAll convert as s = .ok (ops, s') ∧ StoreOf structs₀ all σ s'.structs := by
  induction as generalizing s with
  | nil => exact ⟨[], s, rfl, hstore⟩
  | cons a as ih =>
      rw [List.flatMap_cons, List.flatMap_cons] at hlater
      obtain ⟨op, s₁, hop, hstore₁⟩ := hsucceeds a List.mem_cons_self s h
        (hlater.left h.inv.consistent) hstore
      have hconverts := hstep a List.mem_cons_self s op s₁ h hop
      obtain ⟨ops, s₂, hops, hstore₂⟩ := ih
        (fun a ha => hstep a (List.mem_cons_of_mem _ ha))
        (fun a ha => hsucceeds a (List.mem_cons_of_mem _ ha))
        (h.mono hconverts) (hlater.right hconverts) hstore₁
      exact ⟨op :: ops, s₂, (bind_of_ok hop).trans (bind_of_ok hops), hstore₂⟩

end Succeeds

end Pliron.ImportNames
