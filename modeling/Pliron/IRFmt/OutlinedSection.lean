/-
  Pliron.IRFmt.OutlinedSection

  Printing the outlined section, parsing it back, and filling in its entries.
-/

import Pliron.IRFmt.OutlinedForest

namespace Pliron

variable {Attr : Type}

namespace Outlined

/-! ## Text -/

/-- Enough fuel for parsing the text of an entry. -/
def OutlineEntry.size : OutlineEntry Attr → Nat
  | .locAndOutlinedAttrs (some loc) _ => loc.size
  | _ => 0

/-- Enough fuel for parsing the text of the section. -/
def entriesSize : List (Nat × OutlineEntry Attr) → Nat
  | [] => 1
  | (_, entry) :: es => entry.size + entriesSize es + 1

variable {rest : List (Token Attr)} {fuel : Nat}

theorem parseNamedAttr_print (attr : Identifier × AttrOrOutlineEntryRef Attr)
    (rest : List (Token Attr)) :
    parseNamedAttr (printNamedAttr attr ++ rest) = .ok (attr, rest) := by
  obtain ⟨name, attr⟩ := attr
  cases attr <;> rfl

theorem parseNamedAttrs_print (attrs : List (Identifier × AttrOrOutlineEntryRef Attr)) :
    delimitedListParser "[" "]" parseNamedAttr
      (.sym "[" :: (iterWithSep printNamedAttr attrs ++ .sym "]" :: rest)) = .ok (attrs, rest) :=
  delimitedListParser_print (by decide) (fun attr _ => parseNamedAttr_print attr)
    (fun _ _ => ⟨_, _, rfl, nofun⟩)

theorem parseOptionalLoc_none : parseOptionalLoc fuel (.sym "[" :: rest) =
    .ok (none, .sym "[" :: rest) := rfl

theorem parseOptionalLoc_some {loc : Location Attr} (h : loc.size ≤ fuel) :
    parseOptionalLoc fuel (printLoc (some loc) ++ .sym "[" :: rest) =
      .ok (some loc, .sym "[" :: rest) := by
  have hloc := Location.parse_print loc fuel (.sym "]" :: .sym "," :: .sym "[" :: rest) h
  simp only [printLoc, List.cons_append, List.nil_append, List.append_assoc, parseOptionalLoc,
    hloc, bind, Except.bind]
  rfl

theorem parseEntry_print {entry : OutlineEntry Attr} (h : entry.size ≤ fuel) :
    parseEntry fuel (printEntry entry ++ rest) = .ok (entry, rest) := by
  cases entry with
  | printOnceAttr attr => rfl
  | locAndOutlinedAttrs loc attrs =>
      have hattrs := @parseNamedAttrs_print _ rest attrs
      cases loc with
      | none =>
          simp only [printEntry, printLoc, List.nil_append, List.cons_append, List.append_assoc,
            parseEntry]
          rw [parseOptionalLoc_none]
          simp only [hattrs, bind, Except.bind]
      | some loc =>
          have hloc := @parseOptionalLoc_some _
            (iterWithSep printNamedAttr attrs ++ .sym "]" :: rest) _ _ h
          simp only [printEntry, List.append_assoc, List.cons_append, List.nil_append]
          rw [parseEntry]
          · simp only [hloc, hattrs, bind, Except.bind]
          · intro attr toks heq
            simp [printLoc] at heq

theorem parseEntries_print {es : List (Nat × OutlineEntry Attr)} (h : entriesSize es ≤ fuel) :
    parseEntries fuel (printEntries es) = .ok (es, []) := by
  induction es generalizing fuel with
  | nil =>
      obtain ⟨fuel, rfl⟩ : ∃ n, fuel = n + 1 :=
        ⟨fuel - 1, by simp only [entriesSize] at h; omega⟩
      rfl
  | cons e es ih =>
      obtain ⟨outindex, entry⟩ := e
      simp only [entriesSize] at h
      obtain ⟨fuel, rfl⟩ : ∃ n, fuel = n + 1 := ⟨fuel - 1, by omega⟩
      have hentry := @parseEntry_print _ (printEntries es) _ _ (show entry.size ≤ fuel by omega)
      have hmore := ih (show entriesSize es ≤ fuel by omega)
      simp only [printEntries, List.cons_append, List.nil_append, parseEntries, hentry, hmore,
        bind, Except.bind]

/-! ## Attributes that are printed once -/

variable [DecidableEq Attr] {d : Dialects Attr} {ir : IR Attr}

/-- The attributes printed once have the indices from `start` on. -/
structure OnceState.Valid (start : Nat) (st : OnceState Attr) : Prop where
  indices : st.printOnceAttrs.map Prod.snd = List.range' start st.printOnceAttrs.length
  nextIndex : st.nextIndex = start + st.printOnceAttrs.length

/-- What is printed for an attribute refers to it. -/
def AttrOrOutlineEntryRef.Means (onceAttrs : IMap Attr Nat) (attr : Attr) :
    AttrOrOutlineEntryRef Attr → Prop
  | .attr attr' => attr' = attr
  | .outlineEntryRef outindex => (attr, outindex) ∈ onceAttrs

omit [DecidableEq Attr] in
theorem AttrOrOutlineEntryRef.Means.mono {onceAttrs onceAttrs' : IMap Attr Nat} {attr : Attr}
    {entry : AttrOrOutlineEntryRef Attr} (h : entry.Means onceAttrs attr)
    (hsub : onceAttrs <+: onceAttrs') : entry.Means onceAttrs' attr := by
  cases entry with
  | attr attr' => exact h
  | outlineEntryRef outindex => exact hsub.subset h

variable {start : Nat} {st : OnceState Attr}

/-- The entry of an item has the location and the outlined attributes of the item. -/
def OutlineEntry.Describes (d : Dialects Attr) (onceAttrs : IMap Attr Nat) (node : Node Attr) :
    OutlineEntry Attr → Prop
  | .printOnceAttr _ => False
  | .locAndOutlinedAttrs loc attrs =>
      loc = (if node.loc.isUnknown then none else some node.loc) ∧
        List.Forall₂ (fun e e' => e'.1 = e.1 ∧ e'.2.Means onceAttrs e.2)
          (node.attributes.outlined d.shouldOutline) attrs

omit [DecidableEq Attr] in
theorem OutlineEntry.Describes.mono {onceAttrs onceAttrs' : IMap Attr Nat} {node : Node Attr}
    {entry : OutlineEntry Attr} (h : entry.Describes d onceAttrs node)
    (hsub : onceAttrs <+: onceAttrs') : entry.Describes d onceAttrs' node := by
  cases entry with
  | printOnceAttr attr => exact h
  | locAndOutlinedAttrs loc attrs => exact ⟨h.1, h.2.imp (fun _ _ he => ⟨he.1, he.2.mono hsub⟩)⟩

variable {input : Input} {onceAttrs : IMap Attr Nat} {once : HMap Nat Attr}

/-- The indices noted down for these items, from `start` on. -/
structure RegisteredFrom (start : Nat) (outline : OutlineParseState) (items : List OutlinedItem) :
    Prop where
  op : ∀ n op, outline.outindexOpMap.get? (start + n) = some op ↔ items[n]? = some (.op op)
  block : ∀ n block,
    outline.outindexBlockMap.get? (start + n) = some block ↔ items[n]? = some (.block block)

theorem Registered.from {outline : OutlineParseState} {items : List OutlinedItem}
    (h : Registered (some outline) items) : RegisteredFrom 0 outline items := by
  constructor
  · intro n op
    rw [Nat.zero_add]
    exact h.op n op
  · intro n block
    rw [Nat.zero_add]
    exact h.block n block

end Outlined

end Pliron
