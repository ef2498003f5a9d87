/-
  Pliron.IRFmt.FormatStringCorrect

  The parser of format strings reads what the grammar describes, and drops what follows.
-/

import Pliron.IRFmt.FormatString

namespace Pliron.Derive

open Pliron.Text Pliron.Lib.Combine Pliron.Lib.Combine.Parser

/-! ## White space -/

theorem allSpace_takeWhile (s : List Char) : AllSpace (s.takeWhile isWhitespace) :=
  fun _ hc => List.mem_takeWhile_imp hc

/-- What `spaces` reads. -/
theorem of_spaces {s ws rest : List Char} (h : Reads spaces s ws rest) :
    s = ws ++ rest ∧ AllSpace ws ∧ NoSpace rest := by
  obtain ⟨rfl, rfl⟩ := (reads_spaces s).unique h
  exact ⟨List.takeWhile_append_dropWhile.symm, allSpace_takeWhile s, noSpace_dropWhile s⟩

/-- White space is read up to its end. -/
theorem reads_allSpace {ws rest : List Char} (hws : AllSpace ws) (hrest : NoSpace rest) :
    Reads spaces (ws ++ rest) ws rest :=
  Reads.many_satisfy ws hws hrest

theorem noSpace_left {s s' : List Char} (h : NoSpace (s ++ s')) (hne : s ≠ []) : NoSpace s := by
  obtain ⟨c, s, rfl⟩ := List.exists_cons_of_ne_nil hne
  exact h

theorem noSpace_append {s : List Char} (s' : List Char) (h : NoSpace s) (hne : s ≠ []) :
    NoSpace (s ++ s') := by
  obtain ⟨c, s, rfl⟩ := List.exists_cons_of_ne_nil hne
  exact h

/-! ## Literals -/

/-- One step of a literal: a character or an escape. -/
def litStep : TextParser (List Char) :=
  ((satisfy .unexpected isLitChar).map (fun c => [c])).or
    ((char backslash).withRight ((satisfy .unexpected isEscape).map (fun c => [backslash, c])))

theorem isLitBody_of_manyReads {s rest : List Char} {pieces : List (List Char)}
    (h : ManyReads litStep s pieces rest) :
    IsLitBody pieces.flatten ∧ s = pieces.flatten ++ rest := by
  induction h with
  | nil _ => exact ⟨.nil, rfl⟩
  | cons hfirst _ ih =>
      obtain ⟨hbody, rfl⟩ := ih
      obtain hplain | ⟨_, hescape⟩ := hfirst.of_or
      · obtain ⟨c, hc, rfl⟩ := hplain.of_map
        obtain ⟨rfl, hlit⟩ := hc.of_satisfy
        exact ⟨.plain hlit hbody, rfl⟩
      · obtain ⟨_, _, hback, hmore⟩ := hescape.of_withRight
        obtain ⟨c, hc, rfl⟩ := hmore.of_map
        obtain rfl := hback.of_token
        obtain ⟨rfl, hesc⟩ := hc.of_satisfy
        exact ⟨.escape hesc hbody, rfl⟩

/-- A literal is read up to the backtick after it. -/
theorem reads_litBody {body rest : List Char} (h : IsLitBody body) :
    Reads litBody (body ++ backtick :: rest) body (backtick :: rest) := by
  have hpieces : ∃ pieces : List (List Char), pieces.flatten = body ∧
      Reads (many litStep) (body ++ backtick :: rest) pieces (backtick :: rest) := by
    induction h with
    | nil =>
        refine ⟨[], rfl,
          Reads.many_nil (Rejects.or (Rejects.satisfy ?_).map (Rejects.token ?_).withRight)⟩
        · intro c hc
          rw [← Option.some.inj hc]
          decide
        · intro c hc
          rw [← Option.some.inj hc]
          decide
    | @plain c s hc _ ih =>
        obtain ⟨pieces, hflat, hread⟩ := ih
        refine ⟨[c] :: pieces, by rw [List.flatten_cons, hflat]; rfl, ?_⟩
        exact Reads.many_cons (Reads.satisfy hc).map.or_left (Nat.lt_succ_self _) hread
    | @escape c s hc _ ih =>
        obtain ⟨pieces, hflat, hread⟩ := ih
        refine ⟨[backslash, c] :: pieces, by rw [List.flatten_cons, hflat]; rfl, ?_⟩
        have hstep : Reads litStep (backslash :: c :: s ++ backtick :: rest) [backslash, c]
            (s ++ backtick :: rest) := by
          refine Reads.or_right (Rejects.satisfy ?_).map
            (Reads.token.withRight (Reads.satisfy hc).map)
          intro c' hc'
          rw [← Option.some.inj hc']
          decide
        refine Reads.many_cons hstep ?_ hread
        simp only [List.cons_append, List.length_cons, List.length_append]
        omega
  obtain ⟨pieces, rfl, hread⟩ := hpieces
  exact hread.map

theorem reads_lit {body s : List Char} (h : IsLitBody body) :
    Reads parseLit (backtick :: (body ++ backtick :: s)) (.lit (String.ofList body)) s :=
  (Reads.token.between (reads_litBody h) Reads.token).map

theorem of_lit {s rest : List Char} {e : Elem} (h : Reads parseLit s e rest) :
    ∃ body, IsLitBody body ∧ e = .lit (String.ofList body) ∧
      s = backtick :: (body ++ backtick :: rest) := by
  obtain ⟨body, hbetween, rfl⟩ := h.of_map
  obtain ⟨_, rest₁, rest₂, _, hopen, hbody, hclose⟩ := hbetween.of_between
  obtain ⟨pieces, hmany, rfl⟩ := hbody.of_map
  obtain ⟨hlit, rfl⟩ := isLitBody_of_manyReads hmany.of_many
  rw [hopen.of_token, hclose.of_token]
  exact ⟨_, hlit, rfl, rfl⟩

/-! ## Words -/

section Words

variable {u : UnicodeTables} {word s rest : List Char} {e : Elem}

theorem isWordChar_of_isDigit {c : Char} (h : c.isDigit = true) : isWordChar u c = true := by
  rw [isWordChar, UnicodeTables.isAlphanumeric, Char.isAlphanum, h, Bool.or_true, Bool.true_or,
    Bool.true_or]

/-- A word that is not empty is read up to its end. -/
theorem reads_word {f : Char → Bool} (hne : word ≠ []) (hword : ∀ c ∈ word, f c = true)
    (hend : ∀ c ∈ s.head?, f c = false) :
    Reads (many1 (satisfy TextErr.unexpected f)) (word ++ s) word s :=
  Reads.many1_satisfy hne hword hend

theorem of_word {f : Char → Bool} (h : Reads (many1 (satisfy TextErr.unexpected f)) s word rest) :
    word ≠ [] ∧ (∀ c ∈ word, f c = true) ∧ (∀ c ∈ rest.head?, f c = false) ∧
      s = word ++ rest := by
  obtain ⟨c, more, rest₁, rfl, hfirst, hmore⟩ := h.of_many1
  obtain ⟨rfl, hc⟩ := hfirst.of_satisfy
  obtain ⟨rfl, hall, hend⟩ := hmore.of_satisfy
  refine ⟨List.cons_ne_nil _ _, fun d hd => ?_, hend, rfl⟩
  obtain rfl | hd := List.mem_cons.mp hd
  · exact hc
  · exact hall d hd

theorem reads_var (hne : word ≠ []) (hword : ∀ c ∈ word, isWordChar u c = true)
    (hend : NoWord u s) : Reads (parseVar u) ('$' :: (word ++ s)) (varOf word) s :=
  (Reads.token.withRight (reads_word hne hword hend)).map

theorem of_var (h : Reads (parseVar u) s e rest) :
    ∃ word, word ≠ [] ∧ (∀ c ∈ word, isWordChar u c = true) ∧ NoWord u rest ∧ e = varOf word ∧
      s = '$' :: (word ++ rest) := by
  obtain ⟨word, hread, rfl⟩ := h.of_map
  obtain ⟨_, _, hdollar, hmany⟩ := hread.of_withRight
  obtain ⟨hne, hword, hend, rfl⟩ := of_word hmany
  rw [hdollar.of_token]
  exact ⟨word, hne, hword, hend, rfl, rfl⟩

theorem varOf_number (hword : ∀ c ∈ word, c.isDigit = true)
    (hlt : Nat.ofDigitChars 10 word 0 < 2 ^ 64) :
    varOf word = .unnamedVar (Nat.ofDigitChars 10 word 0) := by
  rw [varOf, usizeFromStr, if_pos ⟨List.all_eq_true.mpr hword, hlt⟩]

theorem varOf_identifier (h : ¬ ((∀ c ∈ word, c.isDigit = true) ∧
    Nat.ofDigitChars 10 word 0 < 2 ^ 64)) : varOf word = .var (String.ofList word) := by
  rw [varOf, usizeFromStr, if_neg (fun hn => h ⟨List.all_eq_true.mp hn.1, hn.2⟩)]

end Words

/-! ## The parser returns -/

section Returns

variable {u : UnicodeTables} {n : Nat}

theorem returnsBelow_spaces : ReturnsBelow n spaces := ReturnsBelow.many AdvancesBelow.satisfy

theorem advancesBelow_lit : AdvancesBelow n parseLit := by
  have hbody : ReturnsBelow n litBody :=
    (ReturnsBelow.many (AdvancesBelow.satisfy.map.or
      (AdvancesBelow.satisfy.withRight AdvancesBelow.satisfy.map.returns))).map
  exact ((AdvancesBelow.satisfy.withRight hbody).skip AdvancesBelow.satisfy.returns).map

theorem advancesBelow_var : AdvancesBelow n (parseVar u) :=
  (AdvancesBelow.satisfy.withRight AdvancesBelow.satisfy.many1.returns).map

/-- The arguments of a directive are shorter than its text. -/
theorem advancesBelow_directive {elem : TextParser Elem} (h : AdvancesBelow n elem) :
    AdvancesBelow (n + 1) (parseDirective u elem) := by
  refine (AdvancesBelow.satisfy.many1.skip returnsBelow_spaces).andThen_shorter (fun name => ?_)
  refine (ReturnsBelow.optional ?_).map
  exact ((AdvancesBelow.satisfy.withRight (ReturnsBelow.sepBy h AdvancesBelow.satisfy)).skip
    AdvancesBelow.satisfy.returns).returns

theorem advancesBelow_elem (n : Nat) : AdvancesBelow n (parseFmtElemFuel u n) := by
  induction n with
  | zero => exact fun s hs => absurd hs (Nat.not_lt_zero _)
  | succ n ih =>
      have hchoice : AdvancesBelow (n + 1)
          ((parseLit.or (parseVar u)).or (parseDirective u (parseFmtElemFuel u n))) :=
        (advancesBelow_lit.or advancesBelow_var).or (advancesBelow_directive ih)
      exact (returnsBelow_spaces.andThen_advances (fun _ => hchoice)).skip returnsBelow_spaces

theorem advances_elem : Advances (parseFmtElem u) :=
  fun s => advancesBelow_elem (s.length + 1) s (Nat.lt_succ_self _)

/-- The parser of format strings returns a format or an error. -/
theorem parse_returns (u : UnicodeTables) (input : String) : ∃ r, parse u input = some r := by
  obtain ⟨reply, hreply, _⟩ := Returns.many (advances_elem (u := u)) input.toList
  cases reply with
  | ok c elems rest =>
      exact ⟨.ok ⟨elems⟩, by simp only [parse, parseFmtElems, hreply, Option.bind_eq_bind,
        Option.bind_some]⟩
  | err c e =>
      exact ⟨.error e, by simp only [parse, parseFmtElems, hreply, Option.bind_eq_bind,
        Option.bind_some]⟩

end Returns

/-! ## Where no element begins -/

section Stops

variable {u : UnicodeTables} {n : Nat} {s : List Char}

theorem commits_elem (n : Nat) : Commits
    ((parseLit.or (parseVar u)).or (parseDirective u (parseFmtElemFuel u n))) := by
  have hlit : Commits parseLit := Commits.satisfy.andThen.andThen.andThen
  have hvar : Commits (parseVar u) := Commits.satisfy.andThen.andThen
  have hdirective : Commits (parseDirective u (parseFmtElemFuel u n)) :=
    Commits.satisfy.andThen.andThen.andThen
  exact (hlit.or hvar).or hdirective

/-- The parser of elements rejects a text, and consumes nothing of it, exactly if no element can
    begin there. -/
theorem rejects_elem_iff : Rejects (parseFmtElemFuel u (n + 1)) s ↔ Stops u s := by
  constructor
  · intro h
    have hafter := (Commits.andThen_right (fun _ => commits_elem n)).rejects h
    obtain hspaces | ⟨ws, rest, hspaces, hchoice⟩ := hafter.of_andThen
    · obtain ⟨e, hspaces⟩ := hspaces
      exact absurd hspaces (manyFuel_ne_err_false _ _ _)
    · obtain ⟨rfl, hrest, hspace⟩ := Commits.satisfy.of_many hspaces
      subst hrest
      obtain ⟨hlv, hdirective⟩ := hchoice.of_or
      obtain ⟨hlit, hvar⟩ := hlv.of_or
      -- each alternative commits with its first character
      have hback : Rejects (char backtick) rest := Commits.satisfy.rejects
        (Commits.satisfy.andThen.rejects (Commits.satisfy.andThen.andThen.rejects hlit))
      have hdollar : Rejects (char '$') rest :=
        Commits.satisfy.rejects (Commits.satisfy.andThen.rejects hvar)
      have hname : Rejects (satisfy TextErr.unexpected (isDirectiveChar u)) rest :=
        Commits.satisfy.rejects (Commits.satisfy.andThen.rejects
          (Commits.satisfy.andThen.andThen.rejects hdirective))
      intro c hc
      exact ⟨hspace.of_satisfy c hc, ne_of_beq_false (hback.of_satisfy c hc),
        ne_of_beq_false (hdollar.of_satisfy c hc), hname.of_satisfy c hc⟩
  · intro h
    have hspaces : spaces s = some (.ok false [] s) :=
      many_eq_nil (Rejects.satisfy (fun c hc => (h c hc).1))
    have hlit : Rejects parseLit s :=
      (Rejects.token (fun c hc => (h c hc).2.1)).between.map
    have hvar : Rejects (parseVar u) s :=
      (Rejects.token (fun c hc => (h c hc).2.2.1)).withRight.map
    have hname : Rejects (satisfy TextErr.unexpected (isDirectiveChar u)) s :=
      Rejects.satisfy (fun c hc => (h c hc).2.2.2)
    have hdirective : Rejects (parseDirective u (parseFmtElemFuel u n)) s :=
      hname.andThen.skip.andThen
    exact (Rejects.andThen_right hspaces ((hlit.or hvar).or hdirective)).skip

end Stops

/-! ## What is read is written -/

section Sound

variable {u : UnicodeTables} {n : Nat} {s rest : List Char} {e : Elem}

/-- The arguments of a directive, up to the closing parenthesis. -/
theorem written_args {elem : TextParser Elem} {args : List Elem}
    (helem : ∀ {s e rest}, Reads elem s e rest → Written u (loose u) .elem s [e] rest)
    (h : Reads (sepBy elem (char ',')) s args (')' :: rest)) :
    Written u (loose u) .args s args (')' :: rest) := by
  have hmore : ∀ {s es r}, ManyReads ((char ',').withRight elem) s es r → r = ')' :: rest →
      Written u (loose u) .moreArgs s es (')' :: rest) := by
    intro s es r hmany
    induction hmany with
    | nil _ =>
        rintro rfl
        exact .noMoreArgs
    | cons hfirst _ ih =>
        intro hr
        obtain ⟨_, _, hcomma, hread⟩ := hfirst.of_withRight
        rw [hcomma.of_token]
        exact .moreArgs (helem hread) (ih hr)
  obtain ⟨rfl, rfl, _⟩ | ⟨e, es, rest₁, rfl, hread, hmany⟩ := h.of_sepBy
  · exact .noArgs
  · exact .args (helem hread) (hmore hmany rfl)

/-- By induction on the fuel: the arguments of a directive are parsed with less of it. -/
theorem written_of_fuel (h : Reads (parseFmtElemFuel u n) s e rest) :
    Written u (loose u) .elem s [e] rest := by
  induction n generalizing s e rest with
  | zero => exact absurd h nofun
  | succ n ih =>
      obtain ⟨ws', rest₁, hleft, hafter⟩ := h.of_skip
      obtain ⟨ws, rest₂, hbefore, hchoice⟩ := hleft.of_withRight
      obtain ⟨rfl, hws, hspace⟩ := of_spaces hbefore
      obtain ⟨rfl, hws', hrest⟩ := of_spaces hafter
      obtain hlv | ⟨_, hdirective⟩ := hchoice.of_or
      · obtain hlit | ⟨_, hvar⟩ := hlv.of_or
        · obtain ⟨body, hbody, rfl, rfl⟩ := of_lit hlit
          exact .lit hws hbody hws' hrest
        · obtain ⟨word, hne, hword, hend, rfl, rfl⟩ := of_var hvar
          exact .var hws ⟨hne, hword, rfl⟩ hend hws' hrest
      · obtain ⟨name, rest₃, hname, hargs⟩ := hdirective.of_andThen
        obtain ⟨ws₁, rest₄, hname, hspaces⟩ := hname.of_skip
        obtain ⟨hne, hall, hend, rfl⟩ := of_word hname
        have hstart := noSpace_left hspace hne
        obtain ⟨rfl, hws₁, hrest₃⟩ := of_spaces hspaces
        obtain ⟨args, hoptional, rfl⟩ := hargs.of_map
        obtain hsome | ⟨hreject, hnone⟩ := hoptional.of_or
        · obtain ⟨args, hbetween, rfl⟩ := hsome.of_map
          obtain ⟨_, rest₅, rest₆, _, hopen, hlist, hclose⟩ := hbetween.of_between
          obtain rfl := hopen.of_token
          obtain rfl := hclose.of_token
          exact .directiveArgs hws ⟨hne, hall⟩ hstart hend hws₁ (written_args ih hlist) hws' hrest
        · obtain ⟨rfl, rfl⟩ := hnone.of_value
          -- no white space is left after the name, and no parenthesis
          have hws'nil : ws' = [] := by
            cases ws' with
            | nil => rfl
            | cons c ws' =>
                have hspace := hws' c List.mem_cons_self
                rw [hrest₃ c rfl] at hspace
                exact absurd hspace Bool.false_ne_true
          subst hws'nil
          have hparen : Rejects (char '(') rest := Commits.satisfy.rejects
            (Commits.satisfy.andThen.rejects (Commits.satisfy.andThen.andThen.rejects hreject))
          have hopen : rest.head? ≠ some '(' := by
            intro hc
            have hfalse := hparen.of_satisfy '(' hc
            exact absurd hfalse (by decide)
          exact .directive hws ⟨hne, hall⟩ hstart hend hws₁ hrest hopen

end Sound

/-! ## What is written is read -/

section Complete

variable {u : UnicodeTables} {n : Nat} {s rest : List Char} {e : Elem}

/-- What is read of an element, with the white space around it. -/
theorem reads_around {ws ws' s s' : List Char} (hws : AllSpace ws) (hs : NoSpace s)
    (hws' : AllSpace ws') (hrest : NoSpace rest) (hsplit : s' = ws' ++ rest)
    (h : Reads ((parseLit.or (parseVar u)).or (parseDirective u (parseFmtElemFuel u n))) s e s') :
    Reads (parseFmtElemFuel u (n + 1)) (ws ++ s) e rest := by
  subst hsplit
  exact ((reads_allSpace hws hs).withRight h).skip (reads_allSpace hws' hrest)

/-- What follows an element is shorter. -/
theorem length_lt_of_reads (h : Reads (parseFmtElemFuel u n) s e rest) (hs : s.length < n) :
    rest.length < s.length := by
  obtain ⟨reply, hreply, hlt⟩ := advancesBelow_elem n s hs
  obtain ⟨c, h⟩ := h
  exact hlt c e rest (Option.some.inj (hreply.symm.trans h))

theorem stops_paren (rest : List Char) : Stops u (')' :: rest) := by
  intro c hc
  rw [← Option.some.inj hc]
  exact ⟨rfl, by decide, by decide, rfl⟩

/-- The name of a directive is neither a literal nor a variable. -/
theorem rejects_before_name {name s : List Char} (hne : name ≠ [])
    (hname : ∀ c ∈ name, isDirectiveChar u c = true) :
    Rejects (parseLit.or (parseVar u)) (name ++ s) := by
  obtain ⟨c, more, rfl⟩ := List.exists_cons_of_ne_nil hne
  have hc := hname c List.mem_cons_self
  have hback : c ≠ backtick := by
    rintro rfl
    exact absurd hc Bool.false_ne_true
  have hdollar : c ≠ '$' := by
    rintro rfl
    exact absurd hc Bool.false_ne_true
  exact (rejects_char hback).between.map.or (rejects_char hdollar).withRight.map

/-- How the parser reads what each symbol of the grammar stands for. -/
def ReadAs (u : UnicodeTables) (n : Nat) (s : List Char) (es : List Elem) (rest : List Char) :
    Symbol → Prop
  | .elem => ∀ e, es = [e] → Reads (parseFmtElemFuel u n) s e rest
  | .elems => True
  | .args => Reads (sepBy (parseFmtElemFuel u n) (char ',')) s es rest
  | .moreArgs => Reads (many ((char ',').withRight (parseFmtElemFuel u n))) s es rest

/-- By induction on how the text is written, with enough fuel for its length. -/
theorem readAs_of_written {sym : Symbol} {es : List Elem} (h : Written u (loose u) sym s es rest) :
    ∀ n, s.length < n → ReadAs u n s es rest sym := by
  induction h with
  | @lit ws body ws' rest hws hbody hws' hrest =>
      intro n hn e he
      obtain rfl := (List.cons.inj he).1
      obtain ⟨n, rfl⟩ : ∃ m, n = m + 1 := ⟨n - 1, by omega⟩
      exact reads_around hws (noSpace_cons (by decide)) hws' hrest rfl
        (reads_lit hbody).or_left.or_left
  | @var ws word ws' rest _ hws hvar hend hws' hrest =>
      intro n hn e he
      obtain ⟨hne, hword, rfl⟩ := hvar
      obtain rfl := (List.cons.inj he).1
      obtain ⟨n, rfl⟩ : ∃ m, n = m + 1 := ⟨n - 1, by omega⟩
      exact reads_around hws (noSpace_cons (by decide)) hws' hrest rfl
        (Reads.or_right (rejects_char (by decide)).between.map
          (reads_var hne hword hend)).or_left
  | @directive ws name ws' rest hws hdirective hstart hend hws' hrest hopen =>
      intro n hn e he
      obtain ⟨hne, hname⟩ := hdirective
      obtain rfl := (List.cons.inj he).1
      obtain ⟨n, rfl⟩ : ∃ m, n = m + 1 := ⟨n - 1, by omega⟩
      -- what comes next is no `(`, so the directive ends without arguments
      have hparen : Rejects (char '(') rest := Rejects.token (fun c hc => by
        rintro rfl
        exact hopen hc)
      have hdirective : Reads (parseDirective u (parseFmtElemFuel u n)) (name ++ (ws' ++ rest))
          (.directive (String.ofList name) []) rest :=
        ((reads_word hne hname hend).skip (reads_allSpace hws' hrest)).andThen
          (Reads.optional_none hparen.between).map
      exact reads_around hws (noSpace_append _ hstart hne) allSpace_nil hrest rfl
        (Reads.or_right (rejects_before_name hne hname) hdirective)
  | @directiveArgs ws name ws₁ s ws' rest args hws hdirective hstart hend hws₁ _ hws' hrest ih =>
      intro n hn e he
      obtain ⟨hne, hname⟩ := hdirective
      obtain rfl := (List.cons.inj he).1
      obtain ⟨n, rfl⟩ : ∃ m, n = m + 1 := ⟨n - 1, by omega⟩
      -- the arguments are shorter than the directive, so the fuel is enough for them
      have hlen : s.length < n := by
        simp only [List.length_append, List.length_cons] at hn
        omega
      have hargs : Reads (sepBy (parseFmtElemFuel u n) (char ',')) s args
          (')' :: (ws' ++ rest)) := ih n hlen
      have hdirective : Reads (parseDirective u (parseFmtElemFuel u n))
          (name ++ (ws₁ ++ '(' :: s)) (.directive (String.ofList name) args) (ws' ++ rest) :=
        ((reads_word hne hname hend).skip (reads_allSpace hws₁ (noSpace_cons (by decide)))).andThen
          (Reads.token.between hargs Reads.token).optional_some.map
      exact reads_around hws (noSpace_append _ hstart hne) hws' hrest rfl
        (Reads.or_right (rejects_before_name hne hname) hdirective)
  | @noArgs rest =>
      intro n hn
      obtain ⟨n, rfl⟩ : ∃ m, n = m + 1 := ⟨n - 1, by omega⟩
      exact Reads.sepBy_nil (rejects_elem_iff.mpr (stops_paren rest))
  | args _ _ ihelem ihmore =>
      intro n hn
      have hread := ihelem n hn _ rfl
      -- an element takes at least one character
      have hlt := length_lt_of_reads hread hn
      exact Reads.sepBy_cons hread (ihmore n (by omega))
  | noMoreArgs =>
      intro n _
      exact Reads.many_nil (rejects_char (by decide)).withRight
  | moreArgs _ _ ihelem ihmore =>
      intro n hn
      rw [List.length_cons] at hn
      have hread := ihelem n (by omega) _ rfl
      have hlt := length_lt_of_reads hread (by omega)
      refine Reads.many_cons (Reads.token.withRight hread) ?_ (ihmore n (by omega))
      rw [List.length_cons]
      omega
  | noElems => exact fun _ _ => trivial
  | elems _ _ _ _ => exact fun _ _ => trivial

theorem reads_parseFmtElem :
    Reads (parseFmtElem u) s e rest ↔ Reads (parseFmtElemFuel u (s.length + 1)) s e rest := by
  rw [Reads, Reads, parseFmtElem]

theorem rejects_parseFmtElem : Rejects (parseFmtElem u) s ↔ Stops u s := by
  rw [← rejects_elem_iff (n := s.length), Rejects, Rejects, parseFmtElem]

/-- The parser of elements reads exactly what is written with loose words. -/
theorem reads_elem_iff : Reads (parseFmtElem u) s e rest ↔ Written u (loose u) .elem s [e] rest := by
  rw [reads_parseFmtElem]
  constructor
  · exact written_of_fuel
  · intro h
    have hread : ReadAs u (s.length + 1) s [e] rest .elem :=
      readAs_of_written h (s.length + 1) (Nat.lt_succ_self _)
    rw [ReadAs] at hread
    exact hread e rfl

theorem length_lt_of_written (h : Written u (loose u) .elem s [e] rest) : rest.length < s.length := by
  rw [← reads_elem_iff, reads_parseFmtElem] at h
  exact length_lt_of_reads h (Nat.lt_succ_self _)

end Complete

/-! ## Documented words -/

section Documented

variable {u : UnicodeTables} {word s rest : List Char} {e : Elem} {es : List Elem} {sym : Symbol}

theorem isWordChar_of_letter {c : Char} (h : u.isAlphabetic c = true ∨ c = '_') :
    isWordChar u c = true := by
  rw [isWordChar, Bool.or_eq_true]
  refine h.imp (fun halpha => ?_) (fun hc => by rw [hc]; rfl)
  rw [UnicodeTables.isAlphabetic, Bool.or_eq_true] at halpha
  rw [UnicodeTables.isAlphanumeric, Bool.or_eq_true]
  refine halpha.imp (fun hascii => ?_) (fun hbeyond => ?_)
  · rw [Char.isAlphanum, hascii, Bool.true_or]
  · rw [Bool.and_eq_true] at hbeyond ⊢
    exact ⟨hbeyond.1, by rw [hbeyond.2, Bool.true_or]⟩

theorem isDigit_of_letter {c : Char} (h : u.isAlphabetic c = true ∨ c = '_') :
    c.isDigit = false := by
  refine Bool.eq_false_iff.mpr (fun hdigit => ?_)
  have hrange : 48 ≤ c.toNat ∧ c.toNat ≤ 57 := by
    simpa [Char.isDigit, UInt32.le_iff_toNat_le] using hdigit
  rcases h with halpha | rfl
  · rw [UnicodeTables.isAlphabetic, Bool.or_eq_true, Bool.and_eq_true, decide_eq_true_eq] at halpha
    rcases halpha with hascii | ⟨hbeyond, _⟩
    · have hletter : 'A'.val ≤ c.val := by
        rcases (Bool.or_eq_true _ _).mp hascii with hupper | hlower
        · have hupper : 'A'.val ≤ c.val ∧ c.val ≤ 'Z'.val := of_decide_eq_true hupper
          exact hupper.1
        · have hlower := (Bool.and_eq_true _ _).mp hlower
          exact UInt32.le_trans (by decide) (of_decide_eq_true hlower.1)
      have hle : 65 ≤ c.toNat := UInt32.le_iff_toNat_le.mp hletter
      omega
    · omega
  · exact absurd hdigit (by decide)

theorem BeginsWithLetter.ne_nil {f : Char → Bool} (h : BeginsWithLetter u f word) : word ≠ [] := by
  obtain ⟨c, more, rfl, _⟩ := h
  exact List.cons_ne_nil _ _

theorem BeginsWithLetter.forall_mem {f : Char → Bool} (h : BeginsWithLetter u f word)
    (hf : ∀ c, isWordChar u c = true → f c = true) : ∀ c ∈ word, f c = true := by
  obtain ⟨c, more, rfl, hc, hmore⟩ := h
  exact List.forall_mem_cons.mpr ⟨hf c (isWordChar_of_letter hc), hmore⟩

theorem IsIdentifier.not_number (h : IsIdentifier u word) : ¬ ∀ c ∈ word, c.isDigit = true := by
  obtain ⟨c, more, rfl, hc, _⟩ := h
  intro hdigits
  exact Bool.false_ne_true ((isDigit_of_letter hc).symm.trans (hdigits c List.mem_cons_self))

theorem varOf_of_isIdentifier (h : IsIdentifier u word) : varOf word = .var (String.ofList word) :=
  varOf_identifier (fun hn => h.not_number hn.1)

/-- A documented variable can be written with loose words: as the same variable, or as one that is
    not documented, if the number is too large. -/
theorem loose_var_of_documented (h : (documented u).var word e) :
    ∃ e', (loose u).var word e' ∧ (Documented u e' → e' = e) := by
  rcases h with ⟨hident, rfl⟩ | ⟨⟨hne, hdigits⟩, rfl⟩
  · exact ⟨_, ⟨hident.ne_nil, hident.forall_mem (fun _ => id), (varOf_of_isIdentifier hident).symm⟩,
      fun _ => rfl⟩
  · refine ⟨_, ⟨hne, fun c hc => isWordChar_of_isDigit (hdigits c hc), rfl⟩, fun hdoc => ?_⟩
    by_cases hlt : Nat.ofDigitChars 10 word 0 < 2 ^ 64
    · exact varOf_number hdigits hlt
    · rw [varOf_identifier (fun hn => hlt hn.2)] at hdoc
      obtain _ | hname | _ | _ := hdoc
      rw [String.toList_ofList] at hname
      exact absurd hdigits hname.not_number

/-- A loose variable whose word is documented is a documented one. -/
theorem documented_var_of_loose (h : (loose u).var word e) (hdoc : Documented u e) :
    (documented u).var word e := by
  obtain ⟨hne, _, rfl⟩ := h
  by_cases hnumber : (∀ c ∈ word, c.isDigit = true) ∧ Nat.ofDigitChars 10 word 0 < 2 ^ 64
  · exact Or.inr ⟨⟨hne, hnumber.1⟩, varOf_number hnumber.1 hnumber.2⟩
  · rw [varOf_identifier hnumber] at hdoc ⊢
    obtain _ | hname | _ | _ := hdoc
    rw [String.toList_ofList] at hname
    exact Or.inl ⟨hname, rfl⟩

theorem loose_directive_of_documented (h : (documented u).directive word) :
    (loose u).directive word :=
  ⟨h.ne_nil, h.forall_mem (fun c hc => by rw [isDirectiveChar, hc, Bool.true_or])⟩

/-- An element is written as one element. -/
theorem Written.elem_eq {w : Words} (h : Written u w .elem s es rest) : ∃ e, es = [e] := by
  cases h <;> exact ⟨_, rfl⟩

/-- What is documented can be written with loose words, as the same elements if these have
    documented words. -/
theorem loose_of_documented (h : Written u (documented u) sym s es rest) :
    ∃ es', Written u (loose u) sym s es' rest ∧ ((∀ e ∈ es', Documented u e) → es' = es) := by
  have hcons : ∀ {e e' : Elem} {l l' : List Elem},
      ((∀ d ∈ [e'], Documented u d) → [e'] = [e]) → ((∀ d ∈ l', Documented u d) → l' = l) →
      (∀ d ∈ e' :: l', Documented u d) → e' :: l' = e :: l := by
    intro e e' l l' hhead htail hdoc
    obtain ⟨hfirst, hmore⟩ := List.forall_mem_cons.mp hdoc
    rw [(List.cons.inj (hhead (List.forall_mem_singleton.mpr hfirst))).1, htail hmore]
  induction h with
  | lit hws hbody hws' hrest => exact ⟨_, .lit hws hbody hws' hrest, fun _ => rfl⟩
  | var hws hvar hend hws' hrest =>
      obtain ⟨e', hloose, heq⟩ := loose_var_of_documented hvar
      refine ⟨_, .var hws hloose hend hws' hrest, fun hdoc => ?_⟩
      rw [heq (hdoc e' List.mem_cons_self)]
  | directive hws hname hstart hend hws' hrest hopen =>
      exact ⟨_, .directive hws (loose_directive_of_documented hname) hstart hend hws' hrest hopen,
        fun _ => rfl⟩
  | directiveArgs hws hname hstart hend hws₁ _ hws' hrest ih =>
      obtain ⟨args, hargs, heq⟩ := ih
      refine ⟨_, .directiveArgs hws (loose_directive_of_documented hname) hstart hend hws₁ hargs
        hws' hrest, fun hdoc => ?_⟩
      obtain _ | _ | _ | ⟨_, hall⟩ := hdoc _ List.mem_cons_self
      rw [heq hall]
  | noArgs => exact ⟨[], .noArgs, fun _ => rfl⟩
  | noMoreArgs => exact ⟨[], .noMoreArgs, fun _ => rfl⟩
  | noElems => exact ⟨[], .noElems, fun _ => rfl⟩
  | args _ _ ihelem ihmore =>
      obtain ⟨es₁, helem, heq₁⟩ := ihelem
      obtain ⟨e', rfl⟩ := helem.elem_eq
      obtain ⟨es₂, hmore, heq₂⟩ := ihmore
      exact ⟨_, .args helem hmore, hcons heq₁ heq₂⟩
  | moreArgs _ _ ihelem ihmore =>
      obtain ⟨es₁, helem, heq₁⟩ := ihelem
      obtain ⟨e', rfl⟩ := helem.elem_eq
      obtain ⟨es₂, hmore, heq₂⟩ := ihmore
      exact ⟨_, .moreArgs helem hmore, hcons heq₁ heq₂⟩
  | elems _ _ ihelem ihmore =>
      obtain ⟨es₁, helem, heq₁⟩ := ihelem
      obtain ⟨e', rfl⟩ := helem.elem_eq
      obtain ⟨es₂, hmore, heq₂⟩ := ihmore
      exact ⟨_, .elems helem hmore, hcons heq₁ heq₂⟩

/-- What is written with loose words that are documented ones is documented. -/
theorem documented_of_loose (h : Written u (loose u) sym s es rest)
    (hdoc : ∀ e ∈ es, Documented u e) : Written u (documented u) sym s es rest := by
  induction h with
  | lit hws hbody hws' hrest => exact .lit hws hbody hws' hrest
  | var hws hvar hend hws' hrest =>
      exact .var hws (documented_var_of_loose hvar (hdoc _ List.mem_cons_self)) hend hws' hrest
  | directive hws hname hstart hend hws' hrest hopen =>
      obtain _ | _ | _ | ⟨hdirective, _⟩ := hdoc _ List.mem_cons_self
      rw [String.toList_ofList] at hdirective
      exact .directive hws hdirective hstart hend hws' hrest hopen
  | directiveArgs hws hname hstart hend hws₁ _ hws' hrest ih =>
      obtain _ | _ | _ | ⟨hdirective, hall⟩ := hdoc _ List.mem_cons_self
      rw [String.toList_ofList] at hdirective
      exact .directiveArgs hws hdirective hstart hend hws₁ (ih hall) hws' hrest
  | noArgs => exact .noArgs
  | noMoreArgs => exact .noMoreArgs
  | noElems => exact .noElems
  | args _ _ ihelem ihmore =>
      obtain ⟨hfirst, hmore⟩ := List.forall_mem_cons.mp hdoc
      exact .args (ihelem (List.forall_mem_singleton.mpr hfirst)) (ihmore hmore)
  | moreArgs _ _ ihelem ihmore =>
      obtain ⟨hfirst, hmore⟩ := List.forall_mem_cons.mp hdoc
      exact .moreArgs (ihelem (List.forall_mem_singleton.mpr hfirst)) (ihmore hmore)
  | elems _ _ ihelem ihmore =>
      obtain ⟨hfirst, hmore⟩ := List.forall_mem_cons.mp hdoc
      exact .elems (ihelem (List.forall_mem_singleton.mpr hfirst)) (ihmore hmore)

theorem Written.forall_documented (h : Written u (documented u) sym s es rest) :
    ∀ e ∈ es, Documented u e := by
  induction h with
  | lit => exact List.forall_mem_singleton.mpr (.lit _)
  | var _ hvar _ _ _ =>
      refine List.forall_mem_singleton.mpr ?_
      rcases hvar with ⟨hident, rfl⟩ | ⟨_, rfl⟩
      · exact .var (by rwa [String.toList_ofList])
      · exact .unnamedVar _
  | directive _ hname _ _ _ _ _ =>
      exact List.forall_mem_singleton.mpr
        (.directive (by rwa [String.toList_ofList]) (fun _ hd => absurd hd List.not_mem_nil))
  | directiveArgs _ hname _ _ _ _ _ _ ih =>
      exact List.forall_mem_singleton.mpr (.directive (by rwa [String.toList_ofList]) ih)
  | noArgs => exact fun _ hd => absurd hd List.not_mem_nil
  | noMoreArgs => exact fun _ hd => absurd hd List.not_mem_nil
  | noElems => exact fun _ hd => absurd hd List.not_mem_nil
  | args _ _ ihelem ihmore =>
      exact List.forall_mem_cons.mpr ⟨List.forall_mem_singleton.mp ihelem, ihmore⟩
  | moreArgs _ _ ihelem ihmore =>
      exact List.forall_mem_cons.mpr ⟨List.forall_mem_singleton.mp ihelem, ihmore⟩
  | elems _ _ ihelem ihmore =>
      exact List.forall_mem_cons.mpr ⟨List.forall_mem_singleton.mp ihelem, ihmore⟩

end Documented

/-! ## Format strings -/

section Parse

variable {u : UnicodeTables} {s rest : List Char} {es : List Elem}

/-- The parser reads a sequence of elements, as long as one can begin. -/
theorem reads_elems_iff :
    Reads (parseFmtElems u) s es rest ↔ Written u (loose u) .elems s es rest ∧ Stops u rest := by
  constructor
  · intro h
    have hmany : ManyReads (parseFmtElem u) s es rest := h.of_many
    clear h
    induction hmany with
    | nil hreject => exact ⟨.noElems, rejects_parseFmtElem.mp hreject⟩
    | cons hfirst _ ih => exact ⟨.elems (reads_elem_iff.mp hfirst) ih.1, ih.2⟩
  · rintro ⟨hwritten, hstops⟩
    have hread : ∀ {sym}, Written u (loose u) sym s es rest → sym = .elems →
        Reads (parseFmtElems u) s es rest := by
      intro sym hsym
      induction hsym with
      | noElems => exact fun _ => Reads.many_nil (rejects_parseFmtElem.mpr hstops)
      | elems helem hmore _ ih =>
          intro _
          exact Reads.many_cons (reads_elem_iff.mpr helem) (length_lt_of_written helem)
            (ih hmore hstops rfl)
      | _ => exact nofun
    exact hread hwritten rfl

/-- The parser accepts a string that begins with a sequence of elements, up to a place where no
    element can begin. -/
theorem parse_eq_ok_iff {input : String} : parse u input = some (.ok ⟨es⟩) ↔
    ∃ rest, Written u (loose u) .elems input.toList es rest ∧ Stops u rest := by
  constructor
  · intro h
    obtain ⟨reply, hreply, h'⟩ := Option.bind_eq_some_iff.mp h
    cases reply with
    | err c e => exact absurd (Option.some.inj h') nofun
    | ok c elems rest =>
        obtain rfl := Format.mk.inj (Except.ok.inj (Option.some.inj h'))
        exact ⟨rest, reads_elems_iff.mp ⟨c, hreply⟩⟩
  · rintro ⟨rest, hrest⟩
    obtain ⟨c, hread⟩ := reads_elems_iff.mpr hrest
    simp only [parse, hread, Option.bind_eq_bind, Option.bind_some]

theorem stops_nil : Stops u [] := fun _ hc => absurd hc nofun

/-- Nothing is left of a text that is read as a whole. -/
theorem rest_eq_nil {elems elems' : List Elem} {rest : List Char}
    (h : Written u (loose u) .elems s elems rest) (hstop : Stops u rest)
    (hwhole : Written u (documented u) .elems s elems' []) : rest = [] := by
  obtain ⟨es', hloose, _⟩ := loose_of_documented hwhole
  exact ((reads_elems_iff.mpr ⟨h, hstop⟩).unique
    (reads_elems_iff.mpr ⟨hloose, stops_nil⟩)).2.symm

/-- The parser reads a format string as the documented grammar describes, and rejects it otherwise,
    exactly if the string is no sequence of elements with loose words that is followed by a
    character with which no element can begin, or that has a word which is not documented. -/
theorem parse_exact (u : UnicodeTables) (input : String) :
    ((∀ elems, parse u input = some (.ok ⟨elems⟩) ↔
        Written u (documented u) .elems input.toList elems []) ∧
      ((∀ elems, ¬ Written u (documented u) .elems input.toList elems []) →
        ∃ e, parse u input = some (.error e))) ↔
    ¬ ∃ elems rest, Written u (loose u) .elems input.toList elems rest ∧ Stops u rest ∧
      (rest ≠ [] ∨ ∃ e ∈ elems, ¬ Documented u e) := by
  constructor
  · -- the parser accepts such a string, which as a whole is not a documented one
    rintro ⟨hall, -⟩ ⟨elems, rest, hwritten, hstop, hbad⟩
    have hwhole := (hall elems).mp (parse_eq_ok_iff.mpr ⟨rest, hwritten, hstop⟩)
    rcases hbad with hne | ⟨e, he, hnot⟩
    · exact hne (rest_eq_nil hwritten hstop hwhole)
    · exact hnot (hwhole.forall_documented e he)
  · intro hnone
    -- otherwise the string is read to its end, and all its words are documented
    have hgood : ∀ elems rest, Written u (loose u) .elems input.toList elems rest →
        Stops u rest → rest = [] ∧ ∀ e ∈ elems, Documented u e := by
      intro elems rest hwritten hstop
      by_contra hbad
      refine hnone ⟨elems, rest, hwritten, hstop, ?_⟩
      by_contra hfine
      obtain ⟨hrest, hdoc⟩ := not_or.mp hfine
      exact hbad ⟨not_not.mp hrest, fun e he => by_contra (fun hnot => hdoc ⟨e, he, hnot⟩)⟩
    have hall : ∀ elems, parse u input = some (.ok ⟨elems⟩) ↔
        Written u (documented u) .elems input.toList elems [] := by
      intro elems
      rw [parse_eq_ok_iff]
      constructor
      · rintro ⟨rest, hwritten, hstop⟩
        obtain ⟨rfl, hdoc⟩ := hgood elems rest hwritten hstop
        exact documented_of_loose hwritten hdoc
      · intro hwritten
        obtain ⟨es', hloose, heq⟩ := loose_of_documented hwritten
        rw [← heq (hgood es' [] hloose stops_nil).2]
        exact ⟨[], hloose, stops_nil⟩
    refine ⟨hall, fun hnot => ?_⟩
    obtain ⟨r, hr⟩ := parse_returns u input
    cases r with
    | error e => exact ⟨e, hr⟩
    | ok format => exact absurd ((hall format.elems).mp hr) (hnot format.elems)

/-- A comma after a variable is dropped. -/
theorem parse_drops_rest :
    parse ⟨fun _ => false, fun _ => false⟩ "$a ," = some (.ok ⟨[.var "a"]⟩) ∧
      ∀ elems, ¬ Written ⟨fun _ => false, fun _ => false⟩
        (documented ⟨fun _ => false, fun _ => false⟩) .elems "$a ,".toList elems [] := by
  have htext : "$a ,".toList = [] ++ '$' :: (['a'] ++ ([' '] ++ [','])) := by decide +kernel
  have hstop : Stops ⟨fun _ => false, fun _ => false⟩ [','] := by
    intro c hc
    rw [← Option.some.inj hc]
    exact ⟨by decide, by decide, by decide, by decide⟩
  have hend : NoWord ⟨fun _ => false, fun _ => false⟩ ([' '] ++ [',']) := by
    intro c hc
    rw [← Option.some.inj hc]
    decide
  have hident : IsIdentifier ⟨fun _ => false, fun _ => false⟩ ['a'] :=
    ⟨'a', [], rfl, Or.inl (by decide), nofun⟩
  have hwritten : Written ⟨fun _ => false, fun _ => false⟩
      (loose ⟨fun _ => false, fun _ => false⟩) .elems "$a ,".toList [.var "a"] [','] := by
    rw [htext]
    exact .elems (.var allSpace_nil ⟨hident.ne_nil, hident.forall_mem (fun _ => id),
      (varOf_of_isIdentifier hident).symm⟩ hend allSpace_space (noSpace_cons (by decide))) .noElems
  exact ⟨parse_eq_ok_iff.mpr ⟨[','], hwritten, hstop⟩,
    fun _ hwhole => List.cons_ne_nil _ _ (rest_eq_nil hwritten hstop hwhole)⟩

end Parse

end Pliron.Derive
