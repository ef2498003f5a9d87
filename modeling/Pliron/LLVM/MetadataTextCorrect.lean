/-
  Pliron.LLVM.MetadataTextCorrect

  Metadata attributes parse back from their text, but for constants whose dialect's name begins
  with the keyword of a null operand.
-/

import Pliron.LLVM.MetadataText

namespace Pliron.Metadata

open Pliron.Text Pliron.Lib.Combine Pliron.Lib.Combine.Parser

variable {A : Type}

/-! ## Strings and references -/

/-- Each character that is written is read. -/
theorem reads_escapeMd (c : Char) (rest : List Char) :
    Reads (escapedChar.or (satisfy .unexpected (· != quote))) (escapeMd c ++ rest) c rest := by
  rw [escapeMd]
  by_cases h : c = backslash ∨ c = quote
  · rw [if_pos h]
    obtain rfl | rfl := h
    · exact (reads_escaped (by decide) rfl).or_left
    · exact (reads_escaped (by decide) rfl).or_left
  · rw [if_neg h]
    rw [not_or] at h
    refine Reads.or_right (Rejects.token ?_).withRight.andThen (Reads.satisfy ?_)
    · intro c' hc'
      rw [← Option.some.inj hc']
      exact h.1
    · exact bne_iff_ne.mpr h.2

theorem escapeMd_ne_nil (c : Char) : escapeMd c ≠ [] := by
  rw [escapeMd]
  split_ifs <;> exact List.cons_ne_nil _ _

theorem reads_writeMdQuoted (s : String) (rest : List Char) :
    Reads quotedStringParse (writeMdQuoted s ++ rest) s rest :=
  reads_quotedWith reads_escapeMd escapeMd_ne_nil s rest

theorem reads_nodeRef {id : MdNodeId} {rest : List Char} (hid : id < 2 ^ 32)
    (hrest : NoDigit rest) : Reads nodeRefParse (nodeRef id ++ rest) id rest :=
  Reads.token.withRight (reads_u32 hid hrest)

/-- What stands before an equals sign is read, and the sign. -/
theorem reads_beforeEquals {B : Type} {p : TextParser B} {b : B} {s rest : List Char}
    (hp : Reads p (s ++ (equals ++ rest)) b (equals ++ rest)) (hrest : NoSpace rest) :
    Reads (beforeEquals p) (s ++ equals ++ rest) b rest := by
  have hbefore := hp.skip (reads_spaces (equals ++ rest))
  have hdrop : (equals ++ rest).dropWhile isWhitespace = '=' :: ' ' :: rest := rfl
  have hafter := reads_spaces (' ' :: rest)
  have hdrop' : (' ' :: rest).dropWhile isWhitespace = rest := dropWhile_of_noSpace hrest
  rw [hdrop] at hbefore
  rw [hdrop'] at hafter
  rw [List.append_assoc]
  exact (hbefore.skip Reads.token).skip hafter

/-! ## Constants -/

/-- Does the name of the dialect begin with the keyword of a null operand, up to its end or an
    underscore? -/
def AttrId.beginsWithNull (id : AttrId) : Bool :=
  nullKeyword.isPrefixOf id.dialect.toList &&
    (id.dialect.toList.drop nullKeyword.length).head?.all (· == '_')

/-- What may follow an operand of a node. -/
def FollowsOperand (rest : List Char) : Prop :=
  rest.head? = some ',' ∨ rest.head? = some closeBrace

/-- The attribute parses back from its own text, before a comma or a closing brace. -/
structure AttrSyntax.ParsesBack (u : UnicodeTables) (known : AttrSyntax A) (attr : A) : Prop where
  dialect : isValidIdentifier (known.attrId attr).dialect = true
  reads : ∀ state rest, FollowsOperand rest → ∃ rest',
    Reads (known.attrInterfaceObjParse u) (known.fmtAttrObj state attr ++ rest) attr rest' ∧
      rest'.dropWhile isWhitespace = rest.dropWhile isWhitespace

section Constants

variable {u : UnicodeTables} {known : AttrSyntax A} {attr : A} {state : PrintState}
  {id : AttrId} {s : List Char}

/-- A word without a dot that the name of a dialect and a dot begin with is a prefix of the name. -/
theorem prefix_of_prefix_dot {word dialect s : List Char} (hdot : '.' ∉ word)
    (h : word <+: dialect ++ '.' :: s) : word <+: dialect := by
  obtain hle | hge := List.prefix_or_prefix_of_prefix h (List.prefix_append dialect ('.' :: s))
  · exact hle
  · obtain ⟨more, rfl⟩ := hge
    rw [List.prefix_append_right_inj] at h
    cases more with
    | nil => rw [List.append_nil]
    | cons c more =>
        obtain rfl := (List.cons_prefix_cons.mp h).1
        exact absurd (List.mem_append_right dialect List.mem_cons_self) hdot

/-- A constant is read as a null operand when its dialect's name begins like one. -/
theorem reads_null_of_beginsWithNull (hnull : id.beginsWithNull = true) (s : List Char) :
    ∃ rest, Reads (MdOperandAttr.nullParse (A := A) u) (id.dialect.toList ++ '.' :: s)
      .null rest := by
  rw [AttrId.beginsWithNull, Bool.and_eq_true, List.isPrefixOf_iff_prefix] at hnull
  obtain ⟨⟨more, hmore⟩, hhead⟩ := hnull
  rw [← hmore, List.drop_left] at hhead
  refine ⟨more ++ '.' :: s, ?_⟩
  rw [← hmore, List.append_assoc]
  refine ((Reads.tokens nullKeyword).skip (Reads.notFollowedBy (Rejects.satisfy ?_))).attempt.map
  intro c hc
  cases more with
  | nil =>
      rw [← Option.some.inj hc]
      rfl
  | cons d more =>
      rw [← Option.some.inj hc, eq_of_beq hhead]
      rfl

/-- Any other constant is not mistaken for a null operand. -/
theorem rejects_null (hvalid : isValidIdentifier id.dialect = true)
    (hnull : id.beginsWithNull = false) (s : List Char) :
    Rejects (MdOperandAttr.nullParse (A := A) u) (id.dialect.toList ++ '.' :: s) := by
  by_cases hprefix : nullKeyword <+: id.dialect.toList ++ '.' :: s
  · have hdialect := prefix_of_prefix_dot (by decide) hprefix
    rw [AttrId.beginsWithNull, List.isPrefixOf_iff_prefix.mpr hdialect, Bool.true_and] at hnull
    obtain ⟨more, hmore⟩ := hdialect
    rw [← hmore, List.drop_left] at hnull
    cases more with
    | nil => exact absurd hnull (by decide)
    | cons d more =>
        -- the character after the keyword is a letter or a digit
        have hd : isIdentChar d = true := by
          obtain ⟨c, cs, hid⟩ := Legaliser.exists_of_isValidIdentifier hvalid
          rw [hid, isValidIdentifier_cons, Bool.and_eq_true, List.all_eq_true] at hvalid
          rw [hid, String.toList_ofList] at hmore
          have hmem : d ∈ cs := by
            obtain ⟨_, hcs⟩ := List.cons.inj hmore
            rw [← hcs]
            exact List.mem_append_right _ List.mem_cons_self
          exact hvalid.2 d hmem
        have halpha : u.isAlphanumeric d = true := by
          rw [isIdentChar, Bool.or_eq_true] at hd
          rw [UnicodeTables.isAlphanumeric, hd.resolve_right (fun h => ?_), Bool.true_or]
          exact absurd hnull (by simpa using eq_of_beq h)
        rw [← hmore, List.append_assoc]
        have htokens : Reads (Text.string nullKeyword)
            (nullKeyword ++ (d :: more ++ '.' :: s)) () (d :: more ++ '.' :: s) :=
          Reads.tokens nullKeyword
        have hnot : Rejects (notFollowedBy TextErr.unexpected
            (satisfy .unexpected u.isAlphanumeric)) (d :: more ++ '.' :: s) :=
          Rejects.notFollowedBy (Reads.satisfy halpha)
        obtain ⟨c, e, herr⟩ := htokens.err_skip hnot
        exact (Rejects.attempt herr).map
  · obtain ⟨c, e, herr⟩ := err_tokens TextErr.unexpected hprefix
    exact (Rejects.attempt (err_andThen herr)).map

theorem fmtAttrObj_append (state : PrintState) (attr : A) (rest : List Char) :
    known.fmtAttrObj state attr ++ rest = (known.attrId attr).dialect.toList ++
      '.' :: ((known.attrId attr).name.toList ++ ' ' :: (known.contents state attr ++ rest)) := by
  rw [AttrSyntax.fmtAttrObj, AttrId.display]
  simp only [List.append_assoc, List.cons_append]

/-- The text of a constant begins with a letter or an underscore. -/
theorem head_fmtAttrObj (h : known.ParsesBack u attr) (state : PrintState) (rest : List Char) :
    ∃ c s, known.fmtAttrObj state attr ++ rest = c :: s ∧ isIdentStart c = true := by
  have hvalid := h.dialect
  obtain ⟨c, cs, hid⟩ := Legaliser.exists_of_isValidIdentifier hvalid
  rw [hid, isValidIdentifier_cons, Bool.and_eq_true] at hvalid
  rw [fmtAttrObj_append, hid, String.toList_ofList]
  exact ⟨c, _, rfl, hvalid.1⟩

/-- The end of a node is no constant. -/
theorem rejects_attrInterfaceObj (rest : List Char) :
    Rejects (known.attrInterfaceObjParse u) (closeBrace :: rest) := by
  have hspaces : spaces (closeBrace :: rest) = some (.ok false [] (closeBrace :: rest)) :=
    many_eq_nil (Rejects.satisfy (fun c hc => by rw [← Option.some.inj hc]; decide))
  have hident : Rejects (identifierParse u) (closeBrace :: rest) :=
    rejects_identifier rfl (by decide)
  exact (Rejects.andThen_right hspaces hident.andThen.skip.andThen).skip.andThen.convert

end Constants

/-! ## Operands -/

namespace MdOperandAttr

/-- References are 32 bits wide, and constants parse back from their own text. -/
def Fits (u : UnicodeTables) (known : AttrSyntax A) : MdOperandAttr A → Prop
  | .null => True
  | .string _ => True
  | .node id => id < 2 ^ 32
  | .constant attr => known.ParsesBack u attr

/-- No constant whose dialect's name begins with the keyword of a null operand. -/
def NotLikeNull (known : AttrSyntax A) (operand : MdOperandAttr A) : Prop :=
  ∀ attr, operand = .constant attr → (known.attrId attr).beginsWithNull = false

variable {u : UnicodeTables} {known : AttrSyntax A} {operand : MdOperandAttr A}
  {state : PrintState}

theorem rejects_nullParse {c : Char} {s : List Char} (hc : c ≠ 'n') :
    Rejects (nullParse (A := A) u) (c :: s) := by
  have htokens : Rejects (Text.string nullKeyword) (c :: s) :=
    Rejects.tokens (fun c' hc' => by rwa [← Option.some.inj hc'])
  obtain ⟨e, herr⟩ := htokens
  exact (Rejects.attempt (err_andThen herr)).map

theorem noSpace_fmt (hfits : operand.Fits u known) (rest : List Char) :
    NoSpace (operand.fmt known state ++ rest) := by
  cases operand with
  | null => exact noSpace_cons (c := 'n') (by decide)
  | string s => exact noSpace_cons (c := '!') (by decide)
  | node id => exact noSpace_cons (c := '#') (by decide)
  | constant attr =>
      obtain ⟨c, s, htext, hstart⟩ := head_fmtAttrObj hfits state rest
      rw [fmt, htext]
      refine noSpace_cons ?_
      rw [isIdentStart, Bool.or_eq_true] at hstart
      obtain halpha | hunder := hstart
      · exact isWhitespace_of_isAlpha halpha
      · rw [eq_of_beq hunder]
        decide

/-- Each operand is read back, but for constants that look like a null operand. -/
theorem readsItem (hfits : operand.Fits u known) (hnull : operand.NotLikeNull known) :
    ReadsItem (parse u known) (fmt known state) FollowsOperand operand := by
  refine ⟨noSpace_fmt hfits, fun rest hrest => ?_⟩
  cases operand with
  | null =>
      refine ⟨rest, Reads.or_left (Reads.or_left (Reads.or_left ?_)), rfl⟩
      refine ((Reads.tokens nullKeyword).skip
        (Reads.notFollowedBy (Rejects.satisfy ?_))).attempt.map
      intro c hc
      obtain h | h := hrest
      · rw [h] at hc
        rw [← Option.some.inj hc]
        rfl
      · rw [h] at hc
        rw [← Option.some.inj hc]
        rfl
  | string s =>
      refine ⟨rest, Reads.or_left (Reads.or_left (Reads.or_right ?_ ?_)), rfl⟩
      · exact rejects_nullParse (by decide)
      · exact Reads.token.withRight (reads_writeMdQuoted s rest).map
  | node id =>
      have hdigit : NoDigit rest := by
        intro c hc
        obtain h | h := hrest
        · rw [h] at hc
          rw [← Option.some.inj hc]
          rfl
        · rw [h] at hc
          rw [← Option.some.inj hc]
          rfl
      refine ⟨rest, Reads.or_left (Reads.or_right (Rejects.or ?_ ?_) ?_), rfl⟩
      · exact rejects_nullParse (by decide)
      · exact (rejects_char (by decide)).withRight
      · exact (reads_nodeRef hfits hdigit).map
  | constant attr =>
      obtain ⟨rest', hread, hdrop⟩ := AttrSyntax.ParsesBack.reads hfits state rest hrest
      obtain ⟨c, s, htext, hstart⟩ := head_fmtAttrObj hfits state rest
      have hhash : c ≠ '#' := by
        rintro rfl
        exact absurd hstart (by decide)
      have hbang : c ≠ '!' := by
        rintro rfl
        exact absurd hstart (by decide)
      have hnullParse : Rejects (nullParse (A := A) u) (known.fmtAttrObj state attr ++ rest) := by
        rw [fmtAttrObj_append]
        exact rejects_null (AttrSyntax.ParsesBack.dialect hfits) (hnull attr rfl) _
      refine ⟨rest', Reads.or_right (Rejects.or (Rejects.or hnullParse ?_) ?_) hread.map, hdrop⟩
      · rw [fmt, htext]
        exact (rejects_char hbang).withRight
      · rw [fmt, htext]
        exact (rejects_char hhash).withRight.map

/-- Where an operand is read from its text, it does not look like a null operand. -/
theorem readsOnly (hfits : operand.Fits u known) :
    ReadsOnly (parse u known) (fmt known state) FollowsOperand (NotLikeNull known) operand := by
  refine ⟨noSpace_fmt hfits, fun rest rest' hrest hread => ?_⟩
  by_cases hnull : operand.NotLikeNull known
  · obtain ⟨rest₁, hread₁, hdrop⟩ := (readsItem hfits hnull).reads rest hrest
    obtain ⟨_, rfl⟩ := hread₁.unique hread
    exact ⟨hnull, hdrop⟩
  · exfalso
    obtain ⟨attr, rfl, hlike⟩ : ∃ attr, operand = .constant attr ∧
        (known.attrId attr).beginsWithNull = true := by
      by_contra hnone
      refine hnull (fun attr heq => ?_)
      by_contra hlike
      exact hnone ⟨attr, heq, Bool.eq_true_of_not_eq_false hlike⟩
    obtain ⟨rest₁, hread₁⟩ := reads_null_of_beginsWithNull (A := A) (u := u) hlike
      ((known.attrId attr).name.toList ++ ' ' :: (known.contents state attr ++ rest))
    rw [← fmtAttrObj_append] at hread₁
    have hparse : Reads (parse u known) (known.fmtAttrObj state attr ++ rest) .null rest₁ :=
      Reads.or_left (Reads.or_left (Reads.or_left hread₁))
    exact absurd (hparse.unique hread).1 (nofun)

theorem rejects_close (rest : List Char) : Rejects (parse u known) (closeBrace :: rest) :=
  (((rejects_nullParse (by decide)).or (rejects_char (by decide)).withRight).or
    (rejects_char (by decide)).withRight.map).or (rejects_attrInterfaceObj rest).map

end MdOperandAttr

/-! ## Nodes -/

namespace MdNodeAttr

variable {u : UnicodeTables} {known : AttrSyntax A} {node : MdNodeAttr A} {state : PrintState}

def Fits (u : UnicodeTables) (known : AttrSyntax A) (node : MdNodeAttr A) : Prop :=
  ∀ operand ∈ node.operands, operand.Fits u known

def NotLikeNull (known : AttrSyntax A) (node : MdNodeAttr A) : Prop :=
  ∀ operand ∈ node.operands, operand.NotLikeNull known

/-- Operands are separated by a comma and a space. -/
theorem operandsText : ListText closeBrace [' '] [] FollowsOperand where
  space_sep := allSpace_space
  space_close := allSpace_nil
  noSpace := by decide
  ne_comma := by decide
  comma _ := Or.inl rfl
  close _ := Or.inr rfl

/-- The text of the operands, in braces. -/
def braces (known : AttrSyntax A) (state : PrintState) (node : MdNodeAttr A) (rest : List Char) :
    List Char :=
  openBrace :: ([] ++ (iterWithSep (',' :: [' ']) (MdOperandAttr.fmt known state) node.operands ++
    ([] ++ closeBrace :: rest)))

theorem fmt_append (rest : List Char) : node.fmt known state ++ rest =
    (if node.distinct then distinctKeyword ++ [' '] else []) ++
      '!' :: node.braces known state rest := by
  rw [fmt, braces]
  simp only [List.append_assoc, List.cons_append, List.nil_append]
  rfl

/-- Whether a node is `distinct` is read. -/
theorem reads_distinct (node : MdNodeAttr A) (s : List Char) :
    ∃ distinct : Option Unit, distinct.isSome = node.distinct ∧
      Reads (optional (attempt ((Text.string distinctKeyword).skip spaces)))
        ((if node.distinct then distinctKeyword ++ [' '] else []) ++ '!' :: s) distinct
        ('!' :: s) := by
  cases node.distinct with
  | true =>
      refine ⟨some (), rfl, ?_⟩
      have hspaces := reads_spaces (' ' :: '!' :: s)
      have hdrop : (' ' :: '!' :: s).dropWhile isWhitespace = '!' :: s := rfl
      rw [hdrop] at hspaces
      rw [if_pos rfl, List.append_assoc]
      exact ((Reads.tokens distinctKeyword).skip hspaces).attempt.optional_some
  | false =>
      refine ⟨none, rfl, ?_⟩
      rw [if_neg Bool.false_ne_true, List.nil_append]
      have htokens : Rejects (Text.string distinctKeyword) ('!' :: s) :=
        Rejects.tokens (fun c hc => by rw [← Option.some.inj hc]; decide)
      obtain ⟨e, herr⟩ := htokens
      exact Reads.optional_none (Rejects.attempt (err_andThen herr))

/-- Each node is read back, if no constant looks like a null operand, whatever follows it. -/
theorem reads (hfits : node.Fits u known) (hnull : node.NotLikeNull known) (rest : List Char) :
    Reads (parse u known) (node.fmt known state ++ rest) node rest := by
  have hlist : Reads (delimitedListParser openBrace closeBrace ',' (MdOperandAttr.parse u known))
      (node.braces known state rest) node.operands rest :=
    operandsText.reads openBrace allSpace_nil
      (fun o ho => MdOperandAttr.readsItem (hfits o ho) (hnull o ho))
      (MdOperandAttr.rejects_close rest)
  obtain ⟨distinct, hsome, hread⟩ := reads_distinct node (node.braces known state rest)
  rw [fmt_append]
  have hnode : Reads (parse u known) ((if node.distinct then distinctKeyword ++ [' '] else []) ++
      '!' :: node.braces known state rest) ⟨distinct.isSome, node.operands⟩ rest :=
    hread.andThen (Reads.token.withRight hlist).map
  rwa [hsome] at hnode

/-- Where a node is read from its text, no constant looks like a null operand. -/
theorem notLikeNull_of_reads (hfits : node.Fits u known) {rest rest' : List Char}
    (hread : Reads (parse u known) (node.fmt known state ++ rest) node rest') :
    node.NotLikeNull known := by
  rw [fmt_append] at hread
  obtain ⟨distinct, _, hdistinct⟩ := reads_distinct node (node.braces known state rest)
  obtain ⟨_, _, hdistinct', hmore⟩ := hread.of_andThen
  obtain ⟨rfl, rfl⟩ := hdistinct.unique hdistinct'
  obtain ⟨operands, hmore, hnode⟩ := hmore.of_map
  obtain ⟨_, _, hbang, hlist⟩ := hmore.of_withRight
  obtain ⟨_, rfl⟩ := List.cons.inj hbang.of_token
  have hoperands : operands = node.operands := by rw [hnode]
  rw [hoperands] at hlist
  exact operandsText.good_of_reads allSpace_nil
    (fun o ho => MdOperandAttr.readsOnly (hfits o ho)) hlist

end MdNodeAttr

/-! ## Tables -/

namespace MdTableAttr

variable {u : UnicodeTables} {known : AttrSyntax A} {table : MdTableAttr A} {state : PrintState}
  {entries : List (MdNodeId × MdNodeAttr A)} {rest : List Char}

/-- Entries are added exactly if their ids go on where the table ends, one after the other. -/
theorem pushEntries_eq_ok_iff {acc : MdTableAttr A} : pushEntries acc entries = .ok table ↔
    entries.map Prod.fst = List.range' acc.length entries.length ∧
      table = acc ++ entries.map Prod.snd := by
  induction entries generalizing acc with
  | nil =>
      rw [pushEntries, List.map_nil, List.map_nil, List.append_nil, Except.ok.injEq]
      exact ⟨fun h => ⟨rfl, h.symm⟩, fun h => h.2.symm⟩
  | cons entry entries ih =>
      obtain ⟨id, node⟩ := entry
      rw [pushEntries, List.map_cons, List.map_cons, List.length_cons, List.range'_succ]
      by_cases hid : id = acc.length
      · rw [if_neg (not_not.mpr hid), ih]
        have hlen : (acc.push node).2.length = acc.length + 1 := List.length_append
        rw [hlen, List.cons.injEq, push, List.append_assoc]
        exact ⟨fun h => ⟨⟨hid, h.1⟩, h.2⟩, fun h => ⟨h.1.2, h.2⟩⟩
      · rw [if_pos hid]
        refine iff_of_false (fun h => by cases h) (fun h => hid ?_)
        exact (List.cons.inj h.1).1

/-- Entries that are not numbered in order are refused, by the id of one of them. -/
theorem pushEntries_error {acc : MdTableAttr A}
    (h : entries.map Prod.fst ≠ List.range' acc.length entries.length) :
    ∃ id ∈ entries.map Prod.fst, pushEntries acc entries = .error (outOfOrder id) := by
  induction entries generalizing acc with
  | nil => exact absurd rfl h
  | cons entry entries ih =>
      obtain ⟨id, node⟩ := entry
      rw [pushEntries]
      by_cases hid : id = acc.length
      · have hlen : (acc.push node).2.length = acc.length + 1 := List.length_append
        have hmore :
            entries.map Prod.fst ≠ List.range' (acc.push node).2.length entries.length := by
          intro heq
          refine h ?_
          rw [List.map_cons, List.length_cons, List.range'_succ, heq, hlen, hid]
        obtain ⟨id', hid', herr⟩ := ih hmore
        rw [if_neg (not_not.mpr hid)]
        exact ⟨id', List.mem_cons_of_mem _ hid', herr⟩
      · rw [if_pos hid]
        exact ⟨id, List.mem_cons_self, rfl⟩

theorem map_snd_iter (table : MdTableAttr A) : table.iter.map Prod.snd = table := by
  rw [iter, List.map_map]
  exact List.zipIdx_map_fst 0 table

/-- The ids of a table that fits into 32 bits are the positions in it. -/
theorem map_fst_iter (hlen : table.length ≤ 2 ^ 32) :
    table.iter.map Prod.fst = List.range' 0 table.length := by
  rw [iter, List.map_map, ← List.zipIdx_map_snd 0 table]
  refine List.map_congr_left (fun entry hentry => ?_)
  have hlt := List.snd_lt_of_mem_zipIdx hentry
  exact Nat.mod_eq_of_lt (by omega)

theorem lt_of_mem_iter {entry : MdNodeId × MdNodeAttr A} (h : entry ∈ table.iter) :
    entry.1 < 2 ^ 32 := by
  obtain ⟨_, _, rfl⟩ := List.mem_map.mp h
  exact Nat.mod_lt _ (Nat.two_pow_pos 32)

theorem length_iter (table : MdTableAttr A) : table.iter.length = table.length := by
  rw [iter, List.length_map, List.length_zipIdx]

/-- Adding the entries of a table gives the table, and no other entries do. -/
theorem pushEntries_eq_ok (hlen : table.length ≤ 2 ^ 32) :
    pushEntries [] entries = .ok table ↔ entries = table.iter := by
  rw [pushEntries_eq_ok_iff, List.nil_append, List.length_nil]
  constructor
  · rintro ⟨hfst, hsnd⟩
    have hlength : entries.length = table.length := by rw [hsnd, List.length_map]
    rw [hlength] at hfst
    have hentries : entries = (List.range' 0 table.length).zip table :=
      List.zip_of_prod hfst hsnd.symm
    rw [hentries]
    exact (List.zip_of_prod (map_fst_iter hlen) (map_snd_iter table)).symm
  · rintro rfl
    rw [map_fst_iter hlen, length_iter, map_snd_iter]
    exact ⟨rfl, rfl⟩

/-- An entry of a table whose references are 32 bits wide. -/
def EntryFits (u : UnicodeTables) (known : AttrSyntax A) (entry : MdNodeId × MdNodeAttr A) : Prop :=
  entry.1 < 2 ^ 32 ∧ entry.2.Fits u known

/-- Each entry is on a line of its own. -/
theorem entriesText (state : PrintState) :
    ListText ']' (indentedNl state.indent) (indentedNl state) (fun _ => True) where
  space_sep := allSpace_indentedNl state.indent
  space_close := allSpace_indentedNl state
  noSpace := by decide
  ne_comma := by decide
  comma _ := trivial
  close _ := trivial

theorem emptyText : ListText ']' [] [] (fun _ => True) where
  space_sep := allSpace_nil
  space_close := allSpace_nil
  noSpace := by decide
  ne_comma := by decide
  comma _ := trivial
  close _ := trivial

theorem reads_entryName {id : MdNodeId} {s : List Char} (hid : id < 2 ^ 32) (hs : NoSpace s) :
    Reads (beforeEquals nodeRefParse) (nodeRef id ++ equals ++ s) id s :=
  reads_beforeEquals (reads_nodeRef hid (noDigit_cons (by decide))) hs

theorem noSpace_fmt (node : MdNodeAttr A) (rest : List Char) :
    NoSpace (node.fmt known state ++ rest) := by
  rw [MdNodeAttr.fmt_append]
  cases node.distinct with
  | true => exact noSpace_cons (c := 'd') (by decide)
  | false => exact noSpace_cons (c := '!') (by decide)

theorem readsItem {entry : MdNodeId × MdNodeAttr A} (hfits : EntryFits u known entry)
    (hnull : entry.2.NotLikeNull known) :
    ReadsItem (entryParse u known) (fmtEntry known state) (fun _ => True) entry := by
  refine ⟨fun rest => noSpace_cons (c := '#') (by decide), fun rest _ => ⟨rest, ?_, rfl⟩⟩
  rw [fmtEntry, List.append_assoc]
  exact (reads_entryName hfits.1 (noSpace_fmt entry.2 rest)).andThen
    (MdNodeAttr.reads hfits.2 hnull rest).map

theorem readsOnly {entry : MdNodeId × MdNodeAttr A} (hfits : EntryFits u known entry) :
    ReadsOnly (entryParse u known) (fmtEntry known state) (fun _ => True)
      (fun entry => entry.2.NotLikeNull known) entry := by
  refine ⟨fun rest => noSpace_cons (c := '#') (by decide), fun rest rest' _ hread => ?_⟩
  have hnull : entry.2.NotLikeNull known := by
    rw [fmtEntry, List.append_assoc] at hread
    obtain ⟨id, _, hname, hmore⟩ := hread.of_andThen
    obtain ⟨rfl, rfl⟩ := (reads_entryName hfits.1 (noSpace_fmt entry.2 rest)).unique hname
    obtain ⟨node, hnode, heq⟩ := hmore.of_map
    have hnode_eq : node = entry.2 := by rw [heq]
    rw [hnode_eq] at hnode
    exact MdNodeAttr.notLikeNull_of_reads hfits.2 hnode
  have hitem := @readsItem _ u known state entry hfits hnull
  obtain ⟨rest₁, hread₁, hdrop⟩ := hitem.reads rest trivial
  obtain ⟨_, rfl⟩ := hread₁.unique hread
  exact ⟨hnull, hdrop⟩

theorem rejects_close (rest : List Char) : Rejects (entryParse u known) (']' :: rest) :=
  (rejects_char (by decide)).withRight.skip.skip.skip.andThen

/-- The text of a table as that of a list. -/
theorem fmt_append (hne : table ≠ []) (hlen : table.length ≤ 2 ^ 32) (rest : List Char) :
    table.fmt known state ++ rest = '[' :: (indentedNl state.indent ++
      (iterWithSep (',' :: indentedNl state.indent) (fmtEntry known state.indent) table.iter ++
        (indentedNl state ++ ']' :: rest))) := by
  obtain ⟨node, nodes, rfl⟩ := List.exists_cons_of_ne_nil hne
  obtain ⟨entries, hiter⟩ : ∃ entries, iter (node :: nodes) = (0, node) :: entries := ⟨_, rfl⟩
  have hfst := map_fst_iter hlen
  rw [hiter, List.map_cons, List.length_cons, List.range'_succ] at hfst
  have hnonzero : ∀ entry ∈ entries, entry.1 ≠ 0 := by
    intro entry hentry heq
    have hmem : entry.1 ∈ List.range' (0 + 1) nodes.length := by
      rw [← (List.cons.inj hfst).2]
      exact List.mem_map_of_mem hentry
    have hle := (List.mem_range'_1.mp hmem).1
    rw [heq] at hle
    exact absurd hle (Nat.not_succ_le_zero 0)
  have htail : entries.flatMap (fun entry => (if entry.1 = 0 then [] else [',']) ++
      indentedNl state.indent ++ fmtEntry known state.indent entry) =
      entries.flatMap (fun entry => ',' :: indentedNl state.indent ++
        fmtEntry known state.indent entry) := by
    refine List.flatMap_congr (fun entry hentry => ?_)
    rw [if_neg (hnonzero entry hentry), List.cons_append, List.nil_append]
  rw [fmt, hiter, List.flatMap_cons, htail, if_pos rfl, iterWithSep]
  simp only [List.isEmpty_cons, Bool.false_eq_true, if_false, List.append_assoc, List.cons_append,
    List.nil_append]

/-- Every table that fits into 32 bits is read back, if no constant looks like a null operand. -/
theorem reads (hlen : table.length ≤ 2 ^ 32) (hfits : ∀ node ∈ table, node.Fits u known)
    (hnull : ∀ node ∈ table, node.NotLikeNull known) (rest : List Char) :
    Reads (parse u known) (table.fmt known state ++ rest) table rest := by
  have hmem : ∀ entry ∈ table.iter, entry.1 < 2 ^ 32 ∧ entry.2 ∈ table := by
    intro entry hentry
    constructor
    · exact lt_of_mem_iter hentry
    · have hsnd : entry.2 ∈ table.iter.map Prod.snd := List.mem_map_of_mem hentry
      rwa [map_snd_iter] at hsnd
  have hentries : Reads (entriesParse u known) (table.fmt known state ++ rest) table.iter rest := by
    by_cases hne : table = []
    · subst hne
      exact emptyText.reads (f := fmtEntry known state) '[' allSpace_nil
        (fun _ h => absurd h List.not_mem_nil) (rejects_close rest)
    · rw [fmt_append hne hlen]
      refine (entriesText state).reads '[' (allSpace_indentedNl state.indent)
        (fun entry hentry => ?_) (rejects_close rest)
      obtain ⟨hid, hnode⟩ := hmem entry hentry
      exact readsItem ⟨hid, hfits _ hnode⟩ (hnull _ hnode)
  exact hentries.convert ((pushEntries_eq_ok hlen).mpr rfl)

/-- Ids are read as 32-bit numbers, so no table that does not fit is read. -/
theorem length_le_of_reads {s : List Char} (h : Reads (parse u known) s table rest) :
    table.length ≤ 2 ^ 32 := by
  obtain ⟨entries, hentries, hpush⟩ := h.of_convert
  obtain ⟨hfst, hsnd⟩ := pushEntries_eq_ok_iff.mp hpush
  by_contra hlen
  have hlength : table.length = entries.length := by
    rw [hsnd, List.nil_append, List.length_map]
  have hmem : 2 ^ 32 ∈ entries.map Prod.fst := by
    rw [hfst, List.length_nil, List.mem_range'_1]
    omega
  obtain ⟨entry, hentry, hid⟩ := List.mem_map.mp hmem
  obtain ⟨s', rest', hread⟩ := read_of_mem hentries entry hentry
  obtain ⟨id, _, hname, hmore⟩ := hread.of_andThen
  obtain ⟨node, _, rfl⟩ := hmore.of_map
  obtain ⟨_, _, hname, _⟩ := hname.of_skip
  obtain ⟨_, _, hname, _⟩ := hname.of_skip
  obtain ⟨_, _, hname, _⟩ := hname.of_skip
  obtain ⟨_, _, _, hname⟩ := hname.of_withRight
  have hlt : id < 2 ^ 32 := lt_of_u32 hname
  rw [show id = 2 ^ 32 from hid] at hlt
  exact absurd hlt (Nat.lt_irrefl _)

/-- Where a table is read from its text, no constant looks like a null operand. -/
theorem notLikeNull_of_reads (hfits : ∀ node ∈ table, node.Fits u known) {rest' : List Char}
    (h : Reads (parse u known) (table.fmt known state ++ rest) table rest') :
    ∀ node ∈ table, node.NotLikeNull known := by
  have hlen := length_le_of_reads h
  obtain ⟨entries, hentries, hpush⟩ := h.of_convert
  obtain rfl := (pushEntries_eq_ok hlen).mp hpush
  by_cases hne : table = []
  · subst hne
    exact fun _ h => absurd h List.not_mem_nil
  rw [fmt_append hne hlen] at hentries
  have hgood := (entriesText state).good_of_reads (allSpace_indentedNl state.indent)
    (fun entry hentry => readsOnly ⟨lt_of_mem_iter hentry, hfits _ ?_⟩) hentries
  · intro node hnode
    rw [← map_snd_iter table] at hnode
    obtain ⟨entry, hentry, rfl⟩ := List.mem_map.mp hnode
    exact hgood entry hentry
  · have hsnd : entry.2 ∈ table.iter.map Prod.snd := List.mem_map_of_mem hentry
    rwa [map_snd_iter] at hsnd

end MdTableAttr

/-! ## Attachments and named lists -/

/-- Items that end with a number are separated by a comma and a space, in brackets. -/
theorem bracketsText : ListText ']' [' '] [] NoDigit where
  space_sep := allSpace_space
  space_close := allSpace_nil
  noSpace := by decide
  ne_comma := by decide
  comma _ := noDigit_cons (by decide)
  close _ := noDigit_cons (by decide)

theorem noSpace_nodeRef (id : MdNodeId) (s : List Char) : NoSpace (nodeRef id ++ s) :=
  noSpace_cons (c := '#') (by decide)

theorem reads_name (name : String) {s : List Char} (hs : NoSpace s) :
    Reads (beforeEquals quotedStringParse) (writeMdQuoted name ++ equals ++ s) name s :=
  reads_beforeEquals (reads_writeMdQuoted name _) hs

theorem rejects_name (rest : List Char) :
    Rejects (beforeEquals quotedStringParse) (']' :: rest) :=
  (rejects_char (by decide)).between.map.skip.skip.skip

namespace MdAttachmentsAttr

theorem reads {attachments : MdAttachmentsAttr} (hids : ∀ entry ∈ attachments, entry.2 < 2 ^ 32)
    (rest : List Char) : Reads parse (attachments.fmt ++ rest) attachments rest := by
  have hitem : ∀ entry ∈ attachments, ReadsItem entryParse fmtEntry NoDigit entry := by
    intro entry hentry
    refine ⟨fun _ => noSpace_cons (c := quote) (by decide), fun s hs => ⟨s, ?_, rfl⟩⟩
    rw [fmtEntry, List.append_assoc]
    exact (reads_name entry.1 (noSpace_nodeRef entry.2 s)).andThen
      (reads_nodeRef (hids entry hentry) hs).map
  have hlist := bracketsText.reads '[' allSpace_nil hitem
    (rejects_name rest).andThen
  rw [fmt, List.cons_append, List.cons_append, List.append_assoc]
  exact hlist

end MdAttachmentsAttr

namespace NamedMdAttr

theorem reads_nodes {nodes : List MdNodeId} (hids : ∀ id ∈ nodes, id < 2 ^ 32) (rest : List Char) :
    Reads nodesParse (fmtNodes nodes ++ rest) nodes rest := by
  have hitem : ∀ id ∈ nodes, ReadsItem nodeRefParse nodeRef NoDigit id := fun id hid =>
    ⟨noSpace_nodeRef id, fun s hs => ⟨s, reads_nodeRef (hids id hid) hs, rfl⟩⟩
  have hreject : Rejects nodeRefParse (']' :: rest) := (rejects_char (by decide)).withRight
  have hlist := bracketsText.reads '[' allSpace_nil hitem hreject
  rw [fmtNodes, List.cons_append, List.cons_append, List.append_assoc]
  exact hlist

theorem reads {named : NamedMdAttr} (hids : ∀ entry ∈ named, ∀ id ∈ entry.2, id < 2 ^ 32)
    (rest : List Char) : Reads parse (named.fmt ++ rest) named rest := by
  have hitem : ∀ entry ∈ named, ReadsItem entryParse fmtEntry NoDigit entry := by
    intro entry hentry
    refine ⟨fun _ => noSpace_cons (c := quote) (by decide), fun s _ => ⟨s, ?_, rfl⟩⟩
    rw [fmtEntry, List.append_assoc]
    exact (reads_name entry.1 (noSpace_cons (c := '[') (by decide))).andThen
      (reads_nodes (hids entry hentry) s).map
  have hlist := bracketsText.reads '[' allSpace_nil hitem
    (rejects_name rest).andThen
  rw [fmt, List.cons_append, List.cons_append, List.append_assoc]
  exact hlist

end NamedMdAttr

/-! ## Metadata attributes -/

section RoundTrip

variable (u : UnicodeTables) (known : AttrSyntax A) (state : PrintState)

/-- A table parses back from its text exactly if its ids fit into 32 bits and no constant of it has
    a dialect whose name begins with the keyword of a null operand, up to its end or an underscore.
    Attachments and named lists always parse back, and a text whose entries are not numbered in
    order is rejected. -/
theorem metadata_roundTrip {table : MdTableAttr A} {attachments : MdAttachmentsAttr}
    {named : NamedMdAttr} (htable : ∀ node ∈ table, node.Fits u known)
    (hattachments : ∀ entry ∈ attachments, entry.2 < 2 ^ 32)
    (hnamed : ∀ entry ∈ named, ∀ id ∈ entry.2, id < 2 ^ 32) :
    ((∀ rest, ∃ c, MdTableAttr.parse u known (table.fmt known state ++ rest) =
        some (.ok c table rest)) ↔
      table.length ≤ 2 ^ 32 ∧ ∀ node ∈ table, ∀ attr, .constant attr ∈ node.operands →
        (known.attrId attr).beginsWithNull = false) ∧
    (∀ rest, ∃ c, MdAttachmentsAttr.parse (attachments.fmt ++ rest) =
      some (.ok c attachments rest)) ∧
    (∀ rest, ∃ c, NamedMdAttr.parse (named.fmt ++ rest) = some (.ok c named rest)) ∧
    (∀ s entries rest c, MdTableAttr.entriesParse u known s = some (.ok c entries rest) →
      entries.map Prod.fst ≠ List.range entries.length → ∃ c' id, id ∈ entries.map Prod.fst ∧
        MdTableAttr.parse u known s = some (.err c' (MdTableAttr.outOfOrder id))) := by
  have hnull : (∀ node ∈ table, node.NotLikeNull known) ↔
      ∀ node ∈ table, ∀ attr, .constant attr ∈ node.operands →
        (known.attrId attr).beginsWithNull = false := by
    constructor
    · exact fun h node hnode attr hattr => h node hnode _ hattr attr rfl
    · intro h node hnode operand hoperand attr heq
      rw [heq] at hoperand
      exact h node hnode attr hoperand
  refine ⟨?_, MdAttachmentsAttr.reads hattachments, NamedMdAttr.reads hnamed, ?_⟩
  · rw [← hnull]
    constructor
    · intro h
      have hread : Reads (MdTableAttr.parse u known) (table.fmt known state ++ []) table [] := h []
      exact ⟨MdTableAttr.length_le_of_reads hread, MdTableAttr.notLikeNull_of_reads htable hread⟩
    · exact fun h => MdTableAttr.reads h.1 htable h.2
  · -- the entries are pushed in order, so the first id that is not next is reported
    intro s entries rest c hentries horder
    rw [List.range_eq_range'] at horder
    obtain ⟨id, hid, herr⟩ := MdTableAttr.pushEntries_error (show entries.map Prod.fst ≠
      List.range' ([] : MdTableAttr A).length entries.length from horder)
    refine ⟨c, id, hid, ?_⟩
    simp only [MdTableAttr.parse, convert, hentries, herr, Option.bind_eq_bind, Option.bind_some]

end RoundTrip

section Example

/-- A context with a single attribute that has no contents, in the given dialect. -/
def unitSyntax (dialect : String) : AttrSyntax Unit where
  dialects name := name == dialect
  parsers id := if id = ⟨dialect, "u"⟩ then some (value ()) else none
  attrId _ := ⟨dialect, "u"⟩
  contents _ _ := []
  isTyped _ := true

theorem unitSyntax_parsesBack (u : UnicodeTables) {dialect : String}
    (hvalid : isValidIdentifier dialect = true) : (unitSyntax dialect).ParsesBack u () := by
  refine ⟨hvalid, fun state rest hrest => ⟨rest, ?_, rfl⟩⟩
  have hspace : NoSpace rest := by
    intro c hc
    obtain h | h := hrest
    · rw [h] at hc
      rw [← Option.some.inj hc]
      decide
    · rw [h] at hc
      rw [← Option.some.inj hc]
      decide
  have htext : (unitSyntax dialect).fmtAttrObj state () ++ rest =
      dialect.toList ++ '.' :: ("u".toList ++ ' ' :: rest) := fmtAttrObj_append state () rest
  have hname : Reads ((unitSyntax dialect).dialectNameParse u)
      (dialect.toList ++ '.' :: ("u".toList ++ ' ' :: rest)) dialect
      ('.' :: ("u".toList ++ ' ' :: rest)) := by
    refine (reads_identifier hvalid ?_).andThen ?_
    · intro c hc
      rw [← Option.some.inj hc]
      rfl
    · rw [if_pos (show (unitSyntax dialect).dialects dialect = true from beq_self_eq_true dialect)]
      exact Reads.result
  have hu : Reads (identifierParse u) ("u".toList ++ ' ' :: rest) "u" (' ' :: rest) := by
    refine reads_identifier (by decide +kernel) (fun c hc => ?_)
    rw [← Option.some.inj hc]
    rfl
  have hid : Reads ((unitSyntax dialect).attrIdParse u)
      (dialect.toList ++ '.' :: ("u".toList ++ ' ' :: rest)) ⟨dialect, "u"⟩ (' ' :: rest) :=
    (hname.skip Reads.token).andThen hu.map
  have hstart : NoSpace (dialect.toList ++ '.' :: ("u".toList ++ ' ' :: rest)) := by
    obtain ⟨c, cs, rfl⟩ := Legaliser.exists_of_isValidIdentifier hvalid
    rw [isValidIdentifier_cons, Bool.and_eq_true, isIdentStart, Bool.or_eq_true] at hvalid
    rw [String.toList_ofList]
    refine noSpace_cons ?_
    obtain halpha | hunder := hvalid.1
    · exact isWhitespace_of_isAlpha halpha
    · rw [eq_of_beq hunder]
      decide
  have hspaced := reads_spaced (p := (unitSyntax dialect).attrIdParse u)
    (s := dialect.toList ++ '.' :: ("u".toList ++ ' ' :: rest)) (by
      rw [dropWhile_of_noSpace hstart]
      exact hid)
  have hdrop : (' ' :: rest).dropWhile isWhitespace = rest := dropWhile_of_noSpace hspace
  rw [hdrop] at hspaced
  rw [htext]
  refine (hspaced.andThen ?_).convert rfl
  have hparser : (unitSyntax dialect).parsers ⟨dialect, "u"⟩ = some (value ()) := if_pos rfl
  rw [hparser]
  exact Reads.value

/-- A table of two nodes, one `distinct`, with a constant and a string that needs escapes. -/
theorem metadata_roundTrip_twoNodes :
    (∀ rest, ∃ c, MdTableAttr.parse ⟨fun _ => false, fun _ => false⟩ (unitSyntax "d")
        (MdTableAttr.fmt (unitSyntax "d") ⟨2, 0⟩
          [⟨false, [.constant (), .string "\x22\n", .null]⟩, ⟨true, [.node 0]⟩] ++ rest) =
        some (.ok c [⟨false, [.constant (), .string "\x22\n", .null]⟩, ⟨true, [.node 0]⟩]
          rest)) ∧
    (∀ rest, ∃ c, MdAttachmentsAttr.parse (MdAttachmentsAttr.fmt [("tbaa", 1)] ++ rest) =
      some (.ok c [("tbaa", 1)] rest)) := by
  have hconst : (unitSyntax "d").ParsesBack ⟨fun _ => false, fun _ => false⟩ () :=
    unitSyntax_parsesBack _ (by decide +kernel)
  have hfits : ∀ node ∈ ([⟨false, [.constant (), .string "\x22\n", .null]⟩, ⟨true, [.node 0]⟩] :
      MdTableAttr Unit), node.Fits ⟨fun _ => false, fun _ => false⟩ (unitSyntax "d") := by
    intro node hnode operand hoperand
    simp only [List.mem_cons, List.not_mem_nil, or_false] at hnode
    obtain rfl | rfl := hnode
    · simp only [List.mem_cons, List.not_mem_nil, or_false] at hoperand
      obtain rfl | rfl | rfl := hoperand
      · exact hconst
      · exact trivial
      · exact trivial
    · rw [List.mem_singleton.mp hoperand]
      exact Nat.two_pow_pos 32
  have hattachments : ∀ entry ∈ ([("tbaa", 1)] : MdAttachmentsAttr), entry.2 < 2 ^ 32 := by decide
  have hnamed : ∀ entry ∈ ([] : NamedMdAttr), ∀ id ∈ entry.2, id < 2 ^ 32 := by decide
  have hall := metadata_roundTrip ⟨fun _ => false, fun _ => false⟩ (unitSyntax "d") ⟨2, 0⟩ hfits
    hattachments hnamed
  refine ⟨hall.1.mpr ⟨by decide, fun node _ attr _ => ?_⟩, hall.2.1⟩
  show AttrId.beginsWithNull ⟨"d", "u"⟩ = false
  decide +kernel

/-- A constant of a dialect named `null` parses back from its own text, and not as an operand. -/
theorem metadata_null_dialect :
    (unitSyntax "null").ParsesBack ⟨fun _ => false, fun _ => false⟩ () ∧
    ¬ ∀ rest, ∃ c, MdTableAttr.parse ⟨fun _ => false, fun _ => false⟩ (unitSyntax "null")
      (MdTableAttr.fmt (unitSyntax "null") ⟨2, 0⟩ [⟨false, [.constant ()]⟩] ++ rest) =
        some (.ok c [⟨false, [.constant ()]⟩] rest) := by
  have hconst : (unitSyntax "null").ParsesBack ⟨fun _ => false, fun _ => false⟩ () :=
    unitSyntax_parsesBack _ (by decide +kernel)
  refine ⟨hconst, fun h => ?_⟩
  have hfits : ∀ node ∈ ([⟨false, [.constant ()]⟩] : MdTableAttr Unit),
      node.Fits ⟨fun _ => false, fun _ => false⟩ (unitSyntax "null") := by
    intro node hnode operand hoperand
    rw [List.mem_singleton.mp hnode] at hoperand
    rw [List.mem_singleton.mp hoperand]
    exact hconst
  have hread : Reads (MdTableAttr.parse ⟨fun _ => false, fun _ => false⟩ (unitSyntax "null"))
      (MdTableAttr.fmt (unitSyntax "null") ⟨2, 0⟩ [⟨false, [.constant ()]⟩] ++ [])
      [⟨false, [.constant ()]⟩] [] := h []
  have hnull := MdTableAttr.notLikeNull_of_reads hfits hread _ List.mem_cons_self _
    List.mem_cons_self () rfl
  have hlike : AttrId.beginsWithNull ⟨"null", "u"⟩ = true := by decide +kernel
  exact absurd (hnull.symm.trans hlike) Bool.false_ne_true

end Example

end Pliron.Metadata
