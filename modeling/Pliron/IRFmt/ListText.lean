/-
  Pliron.IRFmt.ListText

  Delimited lists as text: what the parser of lists reads of the text of one.

  What may follow an item is a predicate on the text, as it differs from list to list.
-/

import Pliron.IRFmt.LocationTextCorrect

namespace Pliron.Text

open Pliron.Lib.Combine Pliron.Lib.Combine.Parser

variable {A : Type}

/-! ## Printing -/

/-- The state of printing, as far as it concerns white space. -/
structure PrintState where
  indentWidth : Nat
  curIndent : Nat

/-- Increase the current indentation by the width of one. -/
def PrintState.indent (state : PrintState) : PrintState :=
  { state with curIndent := state.curIndent + state.indentWidth }

/-- A new line followed by indentation. -/
def indentedNl (state : PrintState) : List Char := '\n' :: List.replicate state.curIndent ' '

/-- Items with a separator between them. -/
def iterWithSep (sep : List Char) (f : A → List Char) : List A → List Char
  | [] => []
  | a :: as => f a ++ as.flatMap (fun b => sep ++ f b)

/-- The separator of `ListSeparator::CharSpace`. -/
def commaSpace : List Char := [',', ' ']

/-! ## White space -/

/-- The text consists of white space. -/
def AllSpace (s : List Char) : Prop := ∀ c ∈ s, isWhitespace c = true

theorem dropWhile_append_allSpace {ws s : List Char} (h : AllSpace ws) :
    (ws ++ s).dropWhile isWhitespace = s.dropWhile isWhitespace :=
  List.dropWhile_append_of_pos h

theorem allSpace_indentedNl (state : PrintState) : AllSpace (indentedNl state) := by
  intro c hc
  obtain rfl | hc := List.mem_cons.mp hc
  · decide
  · rw [List.eq_of_mem_replicate hc]
    decide

theorem allSpace_nil : AllSpace [] := fun _ h => absurd h List.not_mem_nil

theorem allSpace_space : AllSpace [' '] := by
  intro c hc
  rw [List.mem_singleton.mp hc]
  decide

/-! ## Reading a list -/

section Lists

variable {p : TextParser A} {f : A → List Char} {opening closing : Char}
  {ws₀ ws₁ ws₂ rest : List Char} {Follows : List Char → Prop} {l : List A}

/-- The text of an item does not begin with white space, and the parser reads the item, whatever
    follows it in a list, and stops there up to white space. -/
structure ReadsItem (p : TextParser A) (f : A → List Char) (Follows : List Char → Prop) (a : A) :
    Prop where
  noSpace : ∀ rest, NoSpace (f a ++ rest)
  reads : ∀ rest, Follows rest → ∃ rest', Reads p (f a ++ rest) a rest' ∧
    rest'.dropWhile isWhitespace = rest.dropWhile isWhitespace

/-- How the text of a list goes on after an item: `ws₁` is the white space after a separator, and
    `ws₂` that before the closing delimiter. -/
structure ListText (closing : Char) (ws₁ ws₂ : List Char) (Follows : List Char → Prop) :
    Prop where
  space_sep : AllSpace ws₁
  space_close : AllSpace ws₂
  noSpace : isWhitespace closing = false
  ne_comma : closing ≠ ','
  comma : ∀ rest, Follows (',' :: rest)
  close : ∀ rest, Follows (ws₂ ++ closing :: rest)

/-- The items after the first one, and the end of the list. -/
def tailText (f : A → List Char) (closing : Char) (ws₁ ws₂ : List Char) (as : List A)
    (rest : List Char) : List Char :=
  as.flatMap (fun b => ',' :: ws₁ ++ f b) ++ (ws₂ ++ closing :: rest)

namespace ListText

variable (h : ListText closing ws₁ ws₂ Follows)

include h

/-- What follows an item is a separator, or the end of the list. -/
theorem follows (as : List A) (rest : List Char) :
    Follows (tailText f closing ws₁ ws₂ as rest) := by
  cases as with
  | nil => exact h.close rest
  | cons a as =>
      rw [tailText, List.flatMap_cons, List.cons_append, List.cons_append]
      exact h.comma _

theorem dropWhile_close (rest : List Char) :
    (ws₂ ++ closing :: rest).dropWhile isWhitespace = closing :: rest := by
  rw [dropWhile_append_allSpace h.space_close]
  exact dropWhile_of_noSpace (noSpace_cons h.noSpace)

omit h in
theorem tailText_cons (a : A) (as : List A) (rest : List Char) :
    tailText f closing ws₁ ws₂ (a :: as) rest =
      ',' :: (ws₁ ++ (f a ++ tailText f closing ws₁ ws₂ as rest)) := by
  rw [tailText, tailText, List.flatMap_cons, List.append_assoc, List.append_assoc,
    List.cons_append]

omit h in
/-- There is no white space before a separator. -/
theorem dropWhile_tailText (a : A) (as : List A) (rest : List Char) :
    (tailText f closing ws₁ ws₂ (a :: as) rest).dropWhile isWhitespace =
      tailText f closing ws₁ ws₂ (a :: as) rest := by
  rw [tailText_cons]
  exact dropWhile_of_noSpace (noSpace_cons (by decide))

/-- The separator of the next item is read. -/
theorem reads_sep {s : List Char} (hs : NoSpace s) :
    Reads ((char ',').skip spaces) (',' :: (ws₁ ++ s)) ',' s := by
  have hspaces := reads_spaces (ws₁ ++ s)
  rw [dropWhile_append_allSpace h.space_sep, dropWhile_of_noSpace hs] at hspaces
  exact Reads.token.skip hspaces

/-- An item is read, with the white space after it. -/
theorem reads_item {a : A} (ha : ReadsItem p f Follows a) (as : List A) (rest : List Char) :
    Reads (p.skip spaces) (f a ++ tailText f closing ws₁ ws₂ as rest) a
      ((tailText f closing ws₁ ws₂ as rest).dropWhile isWhitespace) := by
  obtain ⟨rest', hread, hdrop⟩ := ha.reads _ (h.follows as rest)
  have hitem := hread.skip (reads_spaces rest')
  rwa [hdrop] at hitem

/-- The items after the first one. -/
theorem reads_tail (as : List A) (rest : List Char) (hall : ∀ a ∈ as, ReadsItem p f Follows a) :
    Reads (many (((char ',').skip spaces).withRight (p.skip spaces)))
      ((tailText f closing ws₁ ws₂ as rest).dropWhile isWhitespace) as (closing :: rest) := by
  induction as with
  | nil =>
      rw [tailText, List.flatMap_nil, List.nil_append, h.dropWhile_close]
      refine Reads.many_nil (Rejects.token (fun c hc => ?_)).skip.withRight
      rw [← Option.some.inj hc]
      exact h.ne_comma
  | cons a as ih =>
      have hitem := h.reads_item (hall a List.mem_cons_self) as rest
      have hsep := h.reads_sep ((hall a List.mem_cons_self).noSpace
        (tailText f closing ws₁ ws₂ as rest))
      rw [dropWhile_tailText, tailText_cons]
      refine Reads.many_cons (hsep.withRight hitem) ?_
        (ih (fun b hb => hall b (List.mem_cons_of_mem a hb)))
      have hle := (List.dropWhile_suffix (l := tailText f closing ws₁ ws₂ as rest)
        isWhitespace).length_le
      simp only [List.length_cons, List.length_append]
      omega

theorem reads_close (rest : List Char) :
    Reads (spaces.withRight (char closing)) (closing :: rest) closing rest := by
  have hspaces := reads_spaces (closing :: rest)
  rw [dropWhile_of_noSpace (noSpace_cons h.noSpace)] at hspaces
  exact hspaces.withRight Reads.token

omit h in
/-- The opening delimiter is read, with the white space after it. -/
theorem reads_open (opening : Char) (s : List Char) (hws₀ : AllSpace ws₀) :
    Reads ((char opening).skip spaces) (opening :: (ws₀ ++ s)) opening
      (s.dropWhile isWhitespace) := by
  have hspaces := reads_spaces (ws₀ ++ s)
  rw [dropWhile_append_allSpace hws₀] at hspaces
  exact Reads.token.skip hspaces

omit h in
theorem iterWithSep_append (l : List A) (rest : List Char) :
    iterWithSep (',' :: ws₁) f l ++ (ws₂ ++ closing :: rest) =
      match l with
      | [] => ws₂ ++ closing :: rest
      | a :: as => f a ++ tailText f closing ws₁ ws₂ as rest := by
  cases l with
  | nil => rfl
  | cons a as => exact List.append_assoc _ _ _

/-- A list is read back from its text, with white space `ws₀` before its items. -/
theorem reads (opening : Char) (hws₀ : AllSpace ws₀) (hall : ∀ a ∈ l, ReadsItem p f Follows a)
    (hreject : Rejects p (closing :: rest)) :
    Reads (delimitedListParser opening closing ',' p)
      (opening :: (ws₀ ++ (iterWithSep (',' :: ws₁) f l ++ (ws₂ ++ closing :: rest)))) l rest := by
  have hopen := reads_open opening (iterWithSep (',' :: ws₁) f l ++ (ws₂ ++ closing :: rest)) hws₀
  refine hopen.between ?_ (h.reads_close rest)
  rw [iterWithSep_append]
  cases l with
  | nil =>
      dsimp only
      rw [h.dropWhile_close]
      exact Reads.sepBy_nil hreject.skip
  | cons a as =>
      dsimp only
      rw [dropWhile_of_noSpace ((hall a List.mem_cons_self).noSpace _)]
      exact Reads.sepBy_cons (h.reads_item (hall a List.mem_cons_self) as rest)
        (h.reads_tail as rest (fun b hb => hall b (List.mem_cons_of_mem a hb)))

end ListText

/-! ## What has been read of a list -/

/-- Where the parser reads an item from the text of it, the item is a good one, and the parser
    stops where the text ends, up to white space. -/
structure ReadsOnly (p : TextParser A) (f : A → List Char) (Follows : List Char → Prop)
    (Good : A → Prop) (a : A) : Prop where
  noSpace : ∀ rest, NoSpace (f a ++ rest)
  reads : ∀ rest rest', Follows rest → Reads p (f a ++ rest) a rest' →
    Good a ∧ rest'.dropWhile isWhitespace = rest.dropWhile isWhitespace

/-- Every item of a list has been read. -/
theorem read_of_mem {s : List Char} {sep : Char}
    (h : Reads (delimitedListParser opening closing sep p) s l rest) :
    ∀ a ∈ l, ∃ s' rest', Reads p s' a rest' := by
  have hmany : ∀ {s as rest}, ManyReads (((char sep).skip spaces).withRight (p.skip spaces))
      s as rest → ∀ a ∈ as, ∃ s' rest', Reads p s' a rest' := by
    intro s as rest hmany
    induction hmany with
    | nil _ => exact fun a ha => absurd ha List.not_mem_nil
    | cons hfirst _ ih =>
        obtain ⟨_, _, _, hitem⟩ := hfirst.of_withRight
        obtain ⟨_, _, hread, _⟩ := hitem.of_skip
        intro b hb
        obtain rfl | hb := List.mem_cons.mp hb
        · exact ⟨_, _, hread⟩
        · exact ih b hb
  obtain ⟨_, _, _, _, _, hlist, _⟩ := h.of_between
  cases l with
  | nil => exact fun a ha => absurd ha List.not_mem_nil
  | cons a as =>
      obtain ⟨_, hitem, hmore⟩ := hlist.of_sepBy_cons
      obtain ⟨_, _, hread, _⟩ := hitem.of_skip
      intro b hb
      obtain rfl | hb := List.mem_cons.mp hb
      · exact ⟨_, _, hread⟩
      · exact hmany hmore b hb

namespace ListText

variable (h : ListText closing ws₁ ws₂ Follows) {Good : A → Prop}

include h

theorem good_of_tail {as : List A} {rest rest' : List Char}
    (hall : ∀ a ∈ as, ReadsOnly p f Follows Good a)
    (hread : ManyReads (((char ',').skip spaces).withRight (p.skip spaces))
      ((tailText f closing ws₁ ws₂ as rest).dropWhile isWhitespace) as rest') :
    ∀ a ∈ as, Good a := by
  induction as with
  | nil => exact fun a ha => absurd ha List.not_mem_nil
  | cons a as ih =>
      rw [dropWhile_tailText, tailText_cons] at hread
      cases hread with
      | cons hfirst hmore =>
          obtain ⟨c, rest₁, hsep, hitem⟩ := hfirst.of_withRight
          obtain ⟨_, rfl⟩ := (h.reads_sep ((hall a List.mem_cons_self).noSpace
            (tailText f closing ws₁ ws₂ as rest))).unique hsep
          obtain ⟨_, rest₂, hread, hspaces⟩ := hitem.of_skip
          obtain ⟨hgood, hdrop⟩ := (hall a List.mem_cons_self).reads _ _ (h.follows as rest) hread
          obtain ⟨_, rfl⟩ := (reads_spaces rest₂).unique hspaces
          rw [hdrop] at hmore
          intro b hb
          obtain rfl | hb := List.mem_cons.mp hb
          · exact hgood
          · exact ih (fun b hb => hall b (List.mem_cons_of_mem a hb)) hmore b hb

/-- If a list is read back from its text then all its items are good ones. -/
theorem good_of_reads {rest' : List Char} (hws₀ : AllSpace ws₀)
    (hall : ∀ a ∈ l, ReadsOnly p f Follows Good a)
    (hread : Reads (delimitedListParser opening closing ',' p)
      (opening :: (ws₀ ++ (iterWithSep (',' :: ws₁) f l ++ (ws₂ ++ closing :: rest)))) l rest') :
    ∀ a ∈ l, Good a := by
  have hopen := reads_open opening (iterWithSep (',' :: ws₁) f l ++ (ws₂ ++ closing :: rest)) hws₀
  obtain ⟨_, rest₁, rest₂, _, hopen', hlist, _⟩ := hread.of_between
  obtain ⟨_, rfl⟩ := hopen.unique hopen'
  rw [iterWithSep_append] at hlist
  cases l with
  | nil => exact fun a ha => absurd ha List.not_mem_nil
  | cons a as =>
      dsimp only at hlist
      rw [dropWhile_of_noSpace ((hall a List.mem_cons_self).noSpace _)] at hlist
      obtain ⟨rest₃, hitem, hmore⟩ := hlist.of_sepBy_cons
      obtain ⟨_, rest₄, hread, hspaces⟩ := hitem.of_skip
      obtain ⟨hgood, hdrop⟩ := (hall a List.mem_cons_self).reads _ _ (h.follows as rest) hread
      obtain ⟨_, rfl⟩ := (reads_spaces rest₄).unique hspaces
      rw [hdrop] at hmore
      intro b hb
      obtain rfl | hb := List.mem_cons.mp hb
      · exact hgood
      · exact h.good_of_tail (fun b hb => hall b (List.mem_cons_of_mem a hb)) hmore b hb

end ListText

end Lists

end Pliron.Text
