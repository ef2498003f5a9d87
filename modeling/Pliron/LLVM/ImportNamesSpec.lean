/-
  Pliron.LLVM.ImportNamesSpec

  What the import of a module does to names: the module's legaliser gets all names of the module, in
  one order, and the legaliser of a global variable the names of its value type.
-/

import Pliron.LLVM.ImportTypes

namespace Pliron.ImportNames

variable {o : Type} [DecidableEq o] {isAlphabetic : Char → Bool} {names : LLVMNames o}
  {objects : List o} {s s' : State o}

/-! ## Mentions -/

/-- The names that a mention has legalised. -/
def Mention.legalised (names : LLVMNames o) : Mention o → List String
  | .type ty => ty.structNames
  | .label name => [name]
  | .symbolAddr _ => []
  | .addressOf val => [names.valueName val]
  | .call callee =>
    if names.isIntrinsic (names.valueName callee) then [] else [names.valueName callee]
  | .blockAddress function => [names.valueName function]

/-- The structs that a mention mentions. -/
def Mention.structs (mention : Mention o) : List (String × LLVMType) :=
  mention.types.flatMap LLVMType.namedStructs

/-- What a mention becomes, when global objects have the symbols `sym` and structs the names `σ`. -/
def Mention.emit (names : LLVMNames o) (objects : List o) (sym : o → String)
    (σ : String → String) : Mention o → List (Emitted o)
  | .type ty => [.type ty (ty.rename σ)]
  | .label _ => []
  | .symbolAddr val => if val ∈ objects then [.symbol val (sym val)] else []
  | .addressOf val => [.symbol val (sym val)]
  | .call callee =>
    if names.isIntrinsic (names.valueName callee) then [] else [.symbol callee (sym callee)]
  | .blockAddress function => [.symbol function (sym function)]

/-- The symbols that a legaliser gives to global objects. -/
def symOf (names : LLVMNames o) (l : Legaliser) (val : o) : String := idOf l (names.valueName val)

/-- Of the module's conversion: the global objects, and no others, have been noted down. -/
structure Noted (names : LLVMNames o) (objects : List o) (s : State o) : Prop where
  inv : CacheInv s
  known : ∀ val ∈ objects, Known s.idLegaliser (names.valueName val)
  symbol : ∀ val ∈ objects, s.symbolNames val = some (symOf names s.idLegaliser val)
  other : ∀ val ∉ objects, s.symbolNames val = none

omit [DecidableEq o] in
theorem Noted.mono {symbolNames : List String} {structs : List (String × LLVMType)}
    (h : Noted names objects s) (hconverts : Converts isAlphabetic symbolNames structs s s') :
    Noted names objects s' := by
  have hext := hconverts.legaliser_extends h.inv.consistent
  refine ⟨hconverts.inv, fun val hval => ((h.known val hval).mono hext).1, fun val hval => ?_,
    fun val hval => ?_⟩
  · rw [hconverts.symbols, h.symbol val hval, symOf, symOf, ((h.known val hval).mono hext).2]
  · rw [hconverts.symbols, h.other val hval]

omit [DecidableEq o] in
theorem Mention.structs_closed (mention : Mention o) : Closed mention.structs := by
  match mention with
  | .type ty =>
      have heq : (Mention.type ty : Mention o).structs = ty.namedStructs := List.append_nil _
      rw [heq]
      exact ty.namedStructs_closed
  | .label _ | .symbolAddr _ | .addressOf _ | .call _ | .blockAddress _ => exact nofun

theorem Closed.flatMap {α : Type} {structsOf : α → List (String × LLVMType)}
    (h : ∀ a, Closed (structsOf a)) (as : List α) : Closed (as.flatMap structsOf) := by
  intro entry hentry name hname
  obtain ⟨a, ha, hentry⟩ := List.mem_flatMap.mp hentry
  obtain ⟨entry', hentry', rfl⟩ := List.mem_map.mp (h a entry hentry name hname)
  exact List.mem_map_of_mem (List.mem_flatMap.mpr ⟨a, ha, hentry'⟩)

omit [DecidableEq o] in
/-- A name legalised on its own. -/
theorem legalise_converts (isAlphabetic : Char → Bool) (name : String) (h : CacheInv s) :
    Converts isAlphabetic [name] [] s (legalise isAlphabetic name s).2 :=
  ⟨rfl, rfl, StoreGrows.refl _, legalise_inv isAlphabetic name h, nofun, nofun⟩

omit [DecidableEq o] in
theorem legalise_id (isAlphabetic : Char → Bool) (name : String) (h : CacheInv s) {l : Legaliser}
    (hext : (legalise isAlphabetic name s).2.idLegaliser.Extends l) :
    (legalise isAlphabetic name s).1 = idOf l name := by
  have hspec := Legaliser.legalise_spec isAlphabetic name h.consistent
  rw [idOf, hext _ _ hspec.2.2]
  rfl

omit [DecidableEq o] in
/-- A reference carries the symbol of its object. -/
theorem reference_ok (isAlphabetic : Char → Bool) (names : LLVMNames o) (val : o)
    (h : CacheInv s) :
    Converts isAlphabetic [names.valueName val] [] s (reference isAlphabetic names val s).2 ∧
      ∀ l, (reference isAlphabetic names val s).2.idLegaliser.Extends l →
        (reference isAlphabetic names val s).1 = [.symbol val (symOf names l val)] := by
  refine ⟨legalise_converts isAlphabetic _ h, fun l hext => ?_⟩
  have hid := legalise_id isAlphabetic (names.valueName val) h hext
  exact congrArg (fun name => [Emitted.symbol val name]) hid

/-- A mention that is converted: one case for each kind. -/
theorem convertMention_ok {mention : Mention o} {emitted : List (Emitted o)}
    (h : Noted names objects s)
    (hr : convertMention isAlphabetic names mention s = .ok (emitted, s')) :
    Converts isAlphabetic (mention.legalised names) mention.structs s s' ∧
      ∀ l, s'.idLegaliser.Extends l →
        emitted = mention.emit names objects (symOf names l) (idOf l) := by
  cases mention with
  | type ty =>
      obtain ⟨⟨handle, s₁⟩, hty, hr⟩ := bind_eq_ok hr
      obtain ⟨rfl, rfl⟩ := Prod.mk.inj (Except.ok.inj hr)
      obtain ⟨hconverts, rfl⟩ := convertType_ok isAlphabetic ty h.inv hty
      have heq : (Mention.type ty : Mention o).structs = ty.namedStructs := List.append_nil _
      rw [heq]
      refine ⟨hconverts, fun l hext => ?_⟩
      rw [Mention.emit, LLVMType.rename_of_known hconverts.known.names hext]
  | label name =>
      obtain ⟨rfl, rfl⟩ := Prod.mk.inj (Except.ok.inj hr)
      exact ⟨legalise_converts isAlphabetic name h.inv, fun l _ => rfl⟩
  | symbolAddr val =>
      have hrefl : Converts isAlphabetic [] [] s s := Converts.refl h.inv nofun ⟨nofun, nofun⟩
      rw [convertMention] at hr
      by_cases hval : val ∈ objects
      · rw [h.symbol val hval] at hr
        obtain ⟨rfl, rfl⟩ := Prod.mk.inj (Except.ok.inj hr)
        refine ⟨hrefl, fun l hext => ?_⟩
        rw [Mention.emit, if_pos hval, symOf, symOf, ((h.known val hval).mono hext).2]
      · rw [h.other val hval] at hr
        obtain ⟨rfl, rfl⟩ := Prod.mk.inj (Except.ok.inj hr)
        exact ⟨hrefl, fun l _ => (if_neg hval).symm⟩
  | addressOf val =>
      obtain ⟨rfl, rfl⟩ := Prod.mk.inj (Except.ok.inj hr)
      exact reference_ok isAlphabetic names val h.inv
  | call callee =>
      rw [convertMention] at hr
      by_cases hintrinsic : names.isIntrinsic (names.valueName callee) = true
      · rw [if_pos hintrinsic] at hr
        obtain ⟨rfl, rfl⟩ := Prod.mk.inj (Except.ok.inj hr)
        rw [Mention.legalised, if_pos hintrinsic]
        exact ⟨Converts.refl h.inv nofun ⟨nofun, nofun⟩, fun l _ => (if_pos hintrinsic).symm⟩
      · rw [if_neg hintrinsic] at hr
        obtain ⟨rfl, rfl⟩ := Prod.mk.inj (Except.ok.inj hr)
        obtain ⟨hconverts, hemit⟩ := reference_ok isAlphabetic names callee h.inv
        rw [Mention.legalised, if_neg hintrinsic]
        exact ⟨hconverts, fun l hext => (hemit l hext).trans (if_neg hintrinsic).symm⟩
  | blockAddress function =>
      obtain ⟨rfl, rfl⟩ := Prod.mk.inj (Except.ok.inj hr)
      exact reference_ok isAlphabetic names function h.inv

/-- Code that is converted: induction on what it mentions. -/
theorem convertMentions_ok (mentions : List (Mention o)) {emitted : List (Emitted o)}
    {s : State o} (h : Noted names objects s)
    (hr : convertMentions isAlphabetic names mentions s = .ok (emitted, s')) :
    Converts isAlphabetic (mentions.flatMap (Mention.legalised names))
        (mentions.flatMap Mention.structs) s s' ∧
      ∀ l, s'.idLegaliser.Extends l →
        emitted = mentions.flatMap (Mention.emit names objects (symOf names l) (idOf l)) := by
  induction mentions generalizing s emitted with
  | nil =>
      obtain ⟨rfl, rfl⟩ := Prod.mk.inj (Except.ok.inj hr)
      exact ⟨Converts.refl h.inv nofun ⟨nofun, nofun⟩, fun l _ => rfl⟩
  | cons mention rest ih =>
      obtain ⟨⟨first, s₁⟩, hfirst, hr⟩ := bind_eq_ok hr
      obtain ⟨⟨more, s₂⟩, hrest, hr⟩ := bind_eq_ok hr
      obtain ⟨rfl, rfl⟩ := Prod.mk.inj (Except.ok.inj hr)
      obtain ⟨hconverts, hemit⟩ := convertMention_ok h hfirst
      obtain ⟨hconverts', hemit'⟩ := ih (h.mono hconverts) hrest
      refine ⟨hconverts.trans mention.structs_closed hconverts', fun l hext => ?_⟩
      have hext' := (hconverts'.legaliser_extends hconverts.inv.consistent).trans hext
      rw [List.flatMap_cons, hemit l hext', hemit' l hext]

/-! ## Global objects -/

/-- Noting down an object: its name is legalised when it is seen first. -/
theorem legalizedSymbolName_noted (isAlphabetic : Char → Bool) (val : o)
    (h : Noted names objects s) :
    Noted names (objects ++ [val]) (legalizedSymbolName isAlphabetic names val s).2 ∧
      (legalizedSymbolName isAlphabetic names val s).2.idLegaliser =
        s.idLegaliser.legaliseAll isAlphabetic [names.valueName val] ∧
      (legalizedSymbolName isAlphabetic names val s).2.structs = s.structs := by
  by_cases hval : val ∈ objects
  · have heq : legalizedSymbolName isAlphabetic names val s =
        (symOf names s.idLegaliser val, s) := by
      rw [legalizedSymbolName, h.symbol val hval]
    have hmem : ∀ w, w ∈ objects ++ [val] ↔ w ∈ objects := by
      intro w
      rw [List.mem_append, List.mem_singleton]
      exact or_iff_left_of_imp fun heq => heq ▸ hval
    rw [heq]
    refine ⟨⟨h.inv, fun w hw => h.known w ((hmem w).mp hw),
      fun w hw => h.symbol w ((hmem w).mp hw), fun w hw => h.other w (mt (hmem w).mpr hw)⟩, ?_, rfl⟩
    exact (Legaliser.legaliseAll_of_known fun name hname =>
      List.mem_singleton.mp hname ▸ h.known val hval).symm
  · have heq : legalizedSymbolName isAlphabetic names val s =
        ((legalise isAlphabetic (names.valueName val) s).1,
          { (legalise isAlphabetic (names.valueName val) s).2 with
            symbolNames := s.symbolNames.insert val
              (legalise isAlphabetic (names.valueName val) s).1 }) := by
      rw [legalizedSymbolName, h.other val hval]
      rfl
    have hconverts := legalise_converts isAlphabetic (names.valueName val) h.inv
    have hnoted := h.mono hconverts
    have hspec := Legaliser.legalise_spec isAlphabetic (names.valueName val) h.inv.consistent
    rw [heq]
    refine ⟨⟨hnoted.inv.mono rfl hnoted.inv.consistent (Legaliser.Extends.refl _)
      (StoreGrows.refl _), fun w hw => ?_, fun w hw => ?_, fun w hw => ?_⟩, rfl, rfl⟩
    · rcases List.mem_append.mp hw with hw | hw
      · exact hnoted.known w hw
      · rw [List.mem_singleton.mp hw]
        exact ⟨_, hspec.2.2⟩
    · by_cases hwv : w = val
      · subst hwv
        refine HMap.insert_self.trans (congrArg some ?_)
        exact legalise_id isAlphabetic _ h.inv (Legaliser.Extends.refl _)
      · have hw' := (List.mem_append.mp hw).resolve_right fun h => hwv (List.mem_singleton.mp h)
        exact (HMap.insert_of_ne hwv).trans (hnoted.symbol w hw')
    · rw [List.mem_append, not_or, List.mem_singleton] at hw
      exact (HMap.insert_of_ne hw.2).trans (hnoted.other w hw.1)

/-- Noting down objects in order. -/
theorem noteSymbolNames_noted (isAlphabetic : Char → Bool) (vals : List o) {s : State o}
    {objects : List o} (h : Noted names objects s) :
    Noted names (objects ++ vals) (noteSymbolNames isAlphabetic names vals s) ∧
      (noteSymbolNames isAlphabetic names vals s).idLegaliser =
        s.idLegaliser.legaliseAll isAlphabetic (vals.map names.valueName) ∧
      (noteSymbolNames isAlphabetic names vals s).structs = s.structs := by
  induction vals generalizing s objects with
  | nil =>
      rw [List.append_nil]
      exact ⟨h, rfl, rfl⟩
  | cons val vals ih =>
      obtain ⟨hnoted, hleg, hstructs⟩ := legalizedSymbolName_noted isAlphabetic val h
      obtain ⟨hnoted', hleg', hstructs'⟩ := ih hnoted
      rw [List.append_assoc] at hnoted'
      refine ⟨hnoted', ?_, hstructs'.trans hstructs⟩
      show _ = s.idLegaliser.legaliseAll isAlphabetic ([names.valueName val] ++ _)
      rw [Legaliser.legaliseAll_append, ← hleg]
      exact hleg'

end Pliron.ImportNames
