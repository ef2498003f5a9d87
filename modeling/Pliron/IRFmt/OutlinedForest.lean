/-
  Pliron.IRFmt.OutlinedForest

  Printing operations, blocks and regions, and parsing the text back.
-/

import Pliron.IRFmt.OutlinedSpec

namespace Pliron

variable {Attr : Type} {k : Kind}

/-! ## What follows -/

/-- The text ends, or goes on with one of these symbols. -/
def Follows (ss : List String) : List (Token Attr) → Prop
  | [] => True
  | .sym s :: _ => s ∈ ss
  | _ :: _ => False

theorem Follows.mono {ss ss' : List String} {toks : List (Token Attr)} (h : Follows ss toks)
    (hss : ss ⊆ ss') : Follows ss' toks := by
  match toks, h with
  | [], _ => trivial
  | .sym s :: _, h => exact hss h

/-- What may follow the operations of a block, the blocks of a region, or the regions of an
    operation. -/
def Kind.follow : Kind → List String
  | .op => ["^", "\x7d"]
  | .block => ["\x7d"]
  | .region => ["!", ";", "^", "\x7d", "outlined_attributes:"]

/-- What may follow an operation and its outline index. -/
def opFollow : List String := [";", "^", "\x7d", "outlined_attributes:"]

/-- What the text of an operation says is what the operation has, but for the attributes that are
    printed elsewhere. -/
structure ParsedOp.Describes (d : AttrInterfaces Attr) (parsed : ParsedOp Attr)
    (node : Node Attr) : Prop where
  head : parsed.head = node.head
  type : parsed.type = node.type
  resultTypes : parsed.resultTypes = node.values.map TypedValue.ty
  attributes : ∀ name, parsed.attributes.get? name =
    (node.attributes.cloneSkipOutlined d.shouldOutline).get? name

/-- What is asked of the syntax of operations: it begins with the name of the operation, parsing
    inverts printing, and no operation starts where a block or a region ends. -/
structure Dialects.Lawful (d : Dialects Attr) : Prop extends d.toAttrInterfaces.Lawful where
  begins : ∀ node, ∃ s toks, d.printOp node = .text s :: toks
  parse_print : ∀ node rest, Follows ("\x7b" :: Kind.region.follow) rest →
    ∃ parsed, d.parseOp node.values.length (d.printOp node ++ rest) = some (parsed, rest) ∧
      parsed.Describes d.toAttrInterfaces node
  parse_stop : ∀ rest, Follows Kind.op.follow rest → d.parseOp 0 rest = none

namespace Outlined

variable (d : Dialects Attr) (ir : IR Attr) (input : Input)

/-! ## What parsing creates -/

/-- The items noted down, printed and parsed. -/
def outlinedPairs (items items' : List OutlinedItem) : List (OutlinedItem × OutlinedItem) :=
  (items.zip items').filter (fun pair => hasOutline d ir pair.1)

/-- Parsing the text of `items` has created `items'`, and noted down those of them that have an
    outline index, after `noted`. -/
structure Created (items items' noted : List OutlinedItem) (st st' : ParseState Attr) : Prop where
  ext : st.ir.Extends st'.ir
  fresh : ∀ item ∈ items', st.ir.Fresh item
  used : ∀ item ∈ items', ¬ st'.ir.Fresh item
  nodup : items'.Nodup
  nodes : List.Forall₂ (fun item item' => Parsed d input item (ir.node item) (st'.ir.node item'))
    items items'
  registered : Registered st'.outline (noted ++ (outlinedPairs d ir items items').map Prod.snd)

variable {d ir input}
variable {items items' noted : List OutlinedItem} {st st₁ st' : ParseState Attr}

theorem outlinedPairs_append {first first' : List OutlinedItem}
    (h : first.length = first'.length) :
    outlinedPairs d ir (first ++ items) (first' ++ items') =
      outlinedPairs d ir first first' ++ outlinedPairs d ir items items' := by
  rw [outlinedPairs, List.zip_append h, List.filter_append]
  rfl

theorem outlinedPairs_singleton {item item' : OutlinedItem} :
    (outlinedPairs d ir [item] [item']).map Prod.snd =
      if hasOutline d ir item then [item'] else [] := by
  by_cases h : hasOutline d ir item = true
  · simp [outlinedPairs, h]
  · simp [outlinedPairs, h]

/-- The items noted down by the printer. -/
theorem outlinedPairs_fst (h : items.length = items'.length) :
    (outlinedPairs d ir items items').map Prod.fst = items.filter (hasOutline d ir) := by
  have hfst : (items.zip items').map Prod.fst = items :=
    List.map_fst_zip (Nat.le_of_eq h)
  have hfilter := List.filter_map (f := Prod.fst) (p := hasOutline d ir) (l := items.zip items')
  rw [hfst] at hfilter
  exact hfilter.symm

theorem Created.nil (h : Registered st.outline noted) : Created d ir input [] [] noted st st :=
  ⟨.refl _, by simp, by simp, List.nodup_nil, .nil, by simpa [outlinedPairs] using h⟩

theorem Created.append {first first' : List OutlinedItem}
    (h : Created d ir input first first' noted st st₁)
    (h' : Created d ir input items items'
      (noted ++ (outlinedPairs d ir first first').map Prod.snd) st₁ st') :
    Created d ir input (first ++ items) (first' ++ items') noted st st' := by
  refine ⟨h.ext.trans h'.ext, fun item hitem => ?_, fun item hitem => ?_, ?_, ?_, ?_⟩
  · rcases List.mem_append.mp hitem with hitem | hitem
    · exact h.fresh item hitem
    · exact h.ext.fresh item (h'.fresh item hitem)
  · rcases List.mem_append.mp hitem with hitem | hitem
    · exact fun hf => h.used item hitem (h'.ext.fresh item hf)
    · exact h'.used item hitem
  · refine List.nodup_append.mpr ⟨h.nodup, h'.nodup, fun a ha b hb hab => ?_⟩
    exact h.used a ha (hab ▸ h'.fresh b hb)
  · refine List.rel_append ?_ h'.nodes
    refine List.forall₂_iff_get.mpr ⟨h.nodes.length_eq, fun i hi hi' => ?_⟩
    rw [h'.ext.node _ (h.used _ (List.get_mem _ _))]
    exact h.nodes.get hi hi'
  · rw [outlinedPairs_append h.nodes.length_eq, List.map_append, ← List.append_assoc]
    exact h'.registered

/-- One new node. -/
theorem Created.single {item item' : OutlinedItem} {node : Node Attr} {ir' : IR Attr}
    (h : st.ir.Creates ir' item' node) (hparsed : Parsed d input item (ir.node item) node)
    (hir : st'.ir = ir')
    (hreg : Registered st'.outline (noted ++ if hasOutline d ir item then [item'] else [])) :
    Created d ir input [item] [item'] noted st st' := by
  subst hir
  refine ⟨h.ext, ?_, ?_, List.nodup_singleton item', .cons (h.node ▸ hparsed) .nil, ?_⟩
  · intro x hx
    rw [List.mem_singleton.mp hx]
    exact h.fresh
  · intro x hx
    rw [List.mem_singleton.mp hx]
    exact h.used
  · rw [outlinedPairs_singleton]
    exact hreg

/-- An operation is created before its regions, and written to after them. -/
theorem Created.op {op op' : OpPtr} {node node' : Node Attr} {ir' : IR Attr}
    (hnew : st.ir.Creates ir' (.op op') node)
    (h : Created d ir input items items' noted { st with ir := ir' } st₁)
    (f : Node Attr → Node Attr) (hf : f node = node')
    (hparsed : Parsed d input (.op op) (ir.node (.op op)) node')
    (hir : st'.ir = st₁.ir.modify (.op op') f)
    (hreg : Registered st'.outline (noted ++ (outlinedPairs d ir items items').map Prod.snd ++
      if hasOutline d ir (.op op) then [.op op'] else [])) :
    Created d ir input (items ++ [.op op]) (items' ++ [.op op']) noted st st' := by
  have hused : ¬ st₁.ir.Fresh (.op op') := fun hfresh => hnew.used (h.ext.fresh _ hfresh)
  have hnode : st₁.ir.node (.op op') = node := (h.ext.node _ hnew.used).trans hnew.node
  have hne : ∀ item ∈ items', item ≠ .op op' := by
    rintro item hitem rfl
    exact hnew.used (h.fresh _ hitem)
  have hfresh : ∀ item, st'.ir.Fresh item ↔ st₁.ir.Fresh item := by
    intro item
    rw [hir]
    cases item <;> exact Iff.rfl
  refine ⟨⟨fun item hitem => ?_, fun item hitem => ?_⟩, fun item hitem => ?_,
    fun item hitem => ?_, ?_, List.rel_append ?_ (.cons ?_ .nil), ?_⟩
  · exact hnew.ext.fresh item (h.ext.fresh item ((hfresh item).mp hitem))
  · have hitem' : item ≠ .op op' := fun heq => hitem (heq ▸ hnew.fresh)
    rw [hir, IR.modify_node_of_ne f hitem']
    exact (hnew.ext.trans h.ext).node item hitem
  · rcases List.mem_append.mp hitem with hitem | hitem
    · exact hnew.ext.fresh item (h.fresh item hitem)
    · rw [List.mem_singleton.mp hitem]
      exact hnew.fresh
  · rw [hfresh]
    rcases List.mem_append.mp hitem with hitem | hitem
    · exact h.used item hitem
    · rw [List.mem_singleton.mp hitem]
      exact hused
  · refine List.nodup_append.mpr ⟨h.nodup, List.nodup_singleton _, fun a ha b hb => ?_⟩
    rw [List.mem_singleton.mp hb]
    exact hne a ha
  · refine List.forall₂_iff_get.mpr ⟨h.nodes.length_eq, fun i hi hi' => ?_⟩
    rw [hir, IR.modify_node_of_ne f (hne _ (List.get_mem _ _))]
    exact h.nodes.get hi hi'
  · rw [hir, IR.modify_node_self, hnode, hf]
    exact hparsed
  · rw [outlinedPairs_append h.nodes.length_eq, List.map_append, outlinedPairs_singleton,
      ← List.append_assoc]
    exact hreg

/-! ## Results and arguments -/

variable {rest : List (Token Attr)}

theorem parseResults_print {names : List Identifier} (hnames : names ≠ []) :
    parseResults (iterWithSep (fun name => [Token.ident name]) names ++ .sym "=" :: rest) =
      (names, rest) := by
  have hlist : listParser parseName
      (iterWithSep (fun name => [Token.ident name]) names ++ .sym "=" :: rest) =
        .ok (names, .sym "=" :: rest) :=
    listParser_print (fun _ _ _ => rfl) (fun _ _ => List.cons_ne_nil _ _) hnames
      (fun toks heq => absurd (Token.sym.inj (List.cons.inj heq).1) (by decide))
  simp only [parseResults, hlist]

/-- No results: the text begins with neither a name nor an equals sign. -/
theorem parseResults_none (hident : ∀ name toks, rest ≠ .ident name :: toks)
    (heq : ∀ toks, rest ≠ .sym "=" :: toks) : parseResults rest = ([], rest) := by
  have hlist : listParser parseName rest = .error .unexpected := by
    match rest with
    | [] => rfl
    | .ident name :: toks => exact absurd rfl (hident name toks)
    | .sym _ :: _ | .text _ :: _ | .str _ :: _ | .int _ :: _ | .index _ :: _ | .attr _ :: _ => rfl
  simp only [parseResults, hlist]

/-- The results and the own syntax of an operation. -/
theorem parseOpHead_print (hd : d.Lawful) (node : Node Attr)
    (h : Follows ("\x7b" :: Kind.region.follow) rest) :
    ∃ parsed, parseOpHead d (printOpHead d node ++ rest) = some (d.valueNames node, parsed, rest) ∧
      parsed.Describes d.toAttrInterfaces node := by
  obtain ⟨parsed, hparse, hparsed⟩ := hd.parse_print node rest h
  have hlen := AttrInterfaces.length_valueNames (d := d.toAttrInterfaces) node
  have hresults : parseResults (printOpHead d node ++ rest) =
      (d.valueNames node, d.printOp node ++ rest) := by
    by_cases hvalues : node.values = []
    · obtain ⟨s, toks, htext⟩ := hd.begins node
      have hnames : d.valueNames node = [] := by
        rw [← List.length_eq_zero_iff, hlen, hvalues]
        rfl
      rw [printOpHead, if_pos (by rw [hvalues]; rfl), List.nil_append, htext, hnames]
      exact parseResults_none (by simp) (by simp)
    · have hnames : d.valueNames node ≠ [] := by
        rw [← List.length_pos_iff, hlen, List.length_pos_iff]
        exact hvalues
      rw [printOpHead, if_neg (by simpa using hvalues), List.append_assoc, List.append_assoc]
      exact parseResults_print hnames
  refine ⟨parsed, ?_, hparsed⟩
  rw [parseOpHead, hresults]
  simp only [hlen, hparse, Option.map_some]

theorem parseOpHead_stop (hd : d.Lawful) (h : Follows Kind.op.follow rest) :
    parseOpHead d rest = none := by
  have hresults : parseResults rest = ([], rest) := by
    refine parseResults_none ?_ ?_
    · rintro name toks rfl
      exact h
    · rintro toks rfl
      simp [Follows, Kind.follow] at h
  rw [parseOpHead, hresults]
  simp only [List.length_nil, hd.parse_stop rest h, Option.map_none]

/-- The arguments of a block. -/
theorem parseArgs_print (node : Node Attr) :
    delimitedListParser "(" ")" parseArg (printArgs d node ++ rest) =
      .ok ((d.valueNames node).zip (node.values.map TypedValue.ty), rest) := by
  rw [printArgs, List.cons_append, List.append_assoc, List.singleton_append]
  exact delimitedListParser_print (by decide) (fun _ _ _ => rfl)
    (fun arg _ => ⟨_, _, rfl, nofun⟩)

/-! ## Marks and inline attributes -/

theorem parseOutindex_none (h : ∀ toks, rest ≠ .sym "!" :: toks) :
    parseOutindex rest = .ok (none, rest) := by
  rw [parseOutindex]
  · intro outindex toks heq
    exact h _ heq
  · intro toks heq
    exact h _ heq

theorem parseOutindex_mark {item : OutlinedItem} {n : Nat} (h : ∀ toks, rest ≠ .sym "!" :: toks) :
    parseOutindex (mark d ir item n ++ rest) =
      .ok (if hasOutline d ir item then some n else none, rest) := by
  unfold mark
  split
  · rfl
  · exact parseOutindex_none h

/-- The reference printed with an operation is noted down. -/
theorem postparseOutline_mark {op op' : OpPtr} (hreg : Registered st.outline noted)
    (h : Follows opFollow rest) :
    ∃ st', postparseOutline op' (mark d ir (.op op) noted.length ++ rest) st = .ok (rest, st') ∧
      st'.ir = st.ir ∧
      Registered st'.outline (noted ++ if hasOutline d ir (.op op) then [.op op'] else []) := by
  have hne : ∀ toks, rest ≠ .sym "!" :: toks := by
    rintro toks rfl
    simp [Follows, opFollow] at h
  have hindex := @parseOutindex_mark _ d ir _ (.op op) noted.length hne
  by_cases hout : hasOutline d ir (.op op) = true
  · rw [if_pos hout] at hindex ⊢
    obtain ⟨st', hst', hir, hreg'⟩ := registerOpForOutline_spec hreg op'
    refine ⟨st', ?_, hir, hreg'⟩
    simp only [postparseOutline, hindex, bind, Except.bind, hst']
  · rw [if_neg hout] at hindex ⊢
    refine ⟨st, ?_, rfl, by simpa using hreg⟩
    simp only [postparseOutline, hindex, bind, Except.bind]

theorem parseInlineAttrs_print (attributes : AttributeDict Attr)
    (h : ∀ toks, rest ≠ .sym "[" :: toks) :
    parseInlineAttrs (printInlineAttrs d attributes ++ rest) =
      .ok (attributes.cloneSkipOutlined d.shouldOutline, rest) := by
  by_cases hes : (attributes.cloneSkipOutlined d.shouldOutline).entries = []
  · have hd : ({} : AttributeDict Attr) = attributes.cloneSkipOutlined d.shouldOutline :=
      AttributeDict.ext hes.symm
    have hprint : printInlineAttrs d attributes = [] := by
      rw [printInlineAttrs, hes]
      rfl
    rw [hprint, List.nil_append, parseInlineAttrs]
    · rw [← hd]
    · intro toks heq
      exact h toks heq
  · have hprint : printInlineAttrs d attributes =
        (attributes.cloneSkipOutlined d.shouldOutline).print := by
      rw [printInlineAttrs, if_neg (by simpa using hes)]
    rw [hprint]
    exact AttributeDict.parse_print _ rest

/-- The header that is printed for a block. -/
def headerOf (d : Dialects Attr) (ir : IR Attr) (block : BlockPtr) (n : Nat) :
    BlockHeader Attr where
  head := (ir.node (.block block)).head
  args := (d.valueNames (ir.node (.block block))).zip
    ((ir.node (.block block)).values.map TypedValue.ty)
  attributes := (ir.node (.block block)).attributes.cloneSkipOutlined d.shouldOutline
  outindex := if hasOutline d ir (.block block) then some n else none

theorem parseBlockHeader_print {block : BlockPtr} {n : Nat} :
    parseBlockHeader ([.sym "^", .text (ir.node (.block block)).head] ++
      (printArgs d (ir.node (.block block)) ++
        (printInlineAttrs d (ir.node (.block block)).attributes ++
          (mark d ir (.block block) n ++ .sym ":" :: rest)))) =
      .ok (headerOf d ir block n, rest) := by
  have hmark : ∀ toks, mark d ir (.block block) n ++ .sym ":" :: rest ≠ .sym "[" :: toks := by
    intro toks
    unfold mark
    split <;> simp
  have hattrs := parseInlineAttrs_print (d := d) (ir.node (.block block)).attributes hmark
  have hindex := @parseOutindex_mark _ d ir (.sym ":" :: rest) (.block block) n (by simp)
  simp only [List.cons_append, List.nil_append, parseBlockHeader, bind, Except.bind,
    parseArgs_print, hattrs, hindex]
  rfl

/-- The reference printed with a block is noted down. -/
theorem registerBlock_mark {block block' : BlockPtr} (hreg : Registered st.outline noted) :
    ∃ st', (match (if hasOutline d ir (.block block) then some noted.length else none) with
        | some outindex => registerBlockForOutline st outindex block'
        | none => .ok st) = .ok st' ∧ st'.ir = st.ir ∧
      Registered st'.outline
        (noted ++ if hasOutline d ir (.block block) then [.block block'] else []) := by
  by_cases hout : hasOutline d ir (.block block) = true
  · rw [if_pos hout, if_pos hout]
    exact registerBlockForOutline_spec hreg block'
  · rw [if_neg hout, if_neg hout, List.append_nil]
    exact ⟨st, rfl, rfl, hreg⟩

/-! ## New operations and blocks -/

/-- A new operation and the names of its results, before its location is set. -/
theorem newOp_parsed (hd : d.Lawful) (hnames : ir.KeepsGivenNames d.toAttrInterfaces)
    (cur : IR Attr) {op : OpPtr} {parsed : ParsedOp Attr}
    (h : parsed.Describes d.toAttrInterfaces (ir.node (.op op))) (toks : List (Token Attr)) :
    ∃ op' cur₀ cur₁ node,
      cur.newOp { head := parsed.head, type := parsed.type, attributes := parsed.attributes }
        parsed.resultTypes = (op', cur₀) ∧
      processParsedSsaDefs d.toAttrInterfaces (d.valueNames (ir.node (.op op))) op' cur₀ =
        .ok cur₁ ∧
      cur.Creates cur₁ (.op op') node ∧
      Parsed d input (.op op) (ir.node (.op op)) { node with loc := input.loc toks } := by
  obtain ⟨op', cur₀, hop'⟩ : ∃ op' cur₀, cur.newOp
    { head := parsed.head, type := parsed.type, attributes := parsed.attributes }
    parsed.resultTypes = (op', cur₀) := ⟨_, _, rfl⟩
  have hnew := IR.creates_newOp cur
    { head := parsed.head, type := parsed.type, attributes := parsed.attributes } parsed.resultTypes
  rw [hop'] at hnew
  have hlength : (d.valueNames (ir.node (.op op))).length =
      (cur.newValues parsed.resultTypes).length := by
    rw [AttrInterfaces.length_valueNames, IR.length_newValues, h.resultTypes, List.length_map]
  obtain ⟨cur₁, attributes, hset, hcreates, hadded⟩ := setNames_new hd.toLawful
    "res_idx < num_results" (d.valueNames (ir.node (.op op))) hnew hlength
    ((h.attributes attrKeyGivenNames).trans
      (get?_cloneSkipOutlined_key hd.toLawful hnames (.op op)))
  refine ⟨op', cur₀, cur₁, _, hop', ?_, hcreates, h.head, fun _ => h.type,
    (IR.map_ty_newValues cur parsed.resultTypes).trans h.resultTypes, fun name => ?_,
    toks.length, rfl⟩
  · rw [processParsedSsaDefs, hnew.node, if_pos hlength]
    exact hset
  · rw [← h.attributes]
    exact hadded name

/-- A new block and the names of its arguments. -/
theorem newBlock_parsed (hd : d.Lawful) (hnames : ir.KeepsGivenNames d.toAttrInterfaces)
    (cur : IR Attr) {block : BlockPtr} {n : Nat} {header : BlockHeader Attr}
    (h : header = headerOf d ir block n) (toks : List (Token Attr)) :
    ∃ block' cur₀ cur₁ node,
      cur.newBlock { head := header.head, attributes := header.attributes, loc := input.loc toks }
        (header.args.map Prod.snd) = (block', cur₀) ∧
      setNames (setBlockArgName d.toAttrInterfaces block') 0 (header.args.map Prod.fst) cur₀ =
        .ok cur₁ ∧
      cur.Creates cur₁ (.block block') node ∧
      Parsed d input (.block block) (ir.node (.block block)) node := by
  obtain ⟨block', cur₀, hblock'⟩ : ∃ block' cur₀, cur.newBlock
    { head := header.head, attributes := header.attributes, loc := input.loc toks }
    (header.args.map Prod.snd) = (block', cur₀) := ⟨_, _, rfl⟩
  have hnew := IR.creates_newBlock cur
    { head := header.head, attributes := header.attributes, loc := input.loc toks }
    (header.args.map Prod.snd)
  rw [hblock'] at hnew
  have hlength : (d.valueNames (ir.node (.block block))).length =
      (ir.node (.block block)).values.length := AttrInterfaces.length_valueNames _
  have hfst : header.args.map Prod.fst = d.valueNames (ir.node (.block block)) := by
    rw [h]
    exact List.map_fst_zip (by rw [hlength, List.length_map])
  have hsnd : header.args.map Prod.snd = (ir.node (.block block)).values.map TypedValue.ty := by
    rw [h]
    exact List.map_snd_zip (by rw [hlength, List.length_map])
  have hattrs : header.attributes =
      (ir.node (.block block)).attributes.cloneSkipOutlined d.shouldOutline := by
    rw [h]
    rfl
  obtain ⟨cur₁, attributes, hset, hcreates, hadded⟩ := setNames_new hd.toLawful
    "arg_idx < num_args" (header.args.map Prod.fst) hnew
    (by rw [IR.length_newValues, List.length_map, List.length_map])
    (by
      rw [hattrs]
      exact get?_cloneSkipOutlined_key hd.toLawful hnames (.block block))
  refine ⟨block', cur₀, cur₁, _, hblock', hset, hcreates, ?_, by simp [OutlinedItem.isOp],
    (IR.map_ty_newValues cur (header.args.map Prod.snd)).trans hsnd, fun name => ?_,
    toks.length, rfl⟩
  · rw [h]
    rfl
  · rw [← hattrs, ← hfst]
    exact hadded name

/-! ## Trees -/

/-- No tree at all. -/
theorem parse_nil (hd : d.Lawful) {fuel : Nat} (h : Follows k.follow rest) :
    parse d input (fuel + 1) k false rest st = .ok (.nil, rest, st) := by
  cases k with
  | op =>
      rw [parse, parseOpHead_stop hd h]
      rfl
  | block =>
      rw [parse]
      · intro toks heq
        rw [heq] at h
        simp [Follows, Kind.follow] at h
  | region =>
      rw [parse]
      · intro toks heq
        rw [heq] at h
        simp [Follows, Kind.follow] at h

/-- The printer and the parser have noted down the same number of items. -/
theorem noted_length (f : Forest k) {items' : List OutlinedItem}
    (hitems : noted.length = items.length) (h : f.items.length = items'.length) :
    (noted ++ (outlinedPairs d ir f.items items').map Prod.snd).length =
      (print d ir f items).2.length := by
  rw [print_snd, ← outlinedPairs_fst h]
  simp only [List.length_append, List.length_map, hitems]

/-- An operation, when its regions are parsed. -/
theorem parseOp_print (hd : d.Lawful) (hnames : ir.KeepsGivenNames d.toAttrInterfaces)
    {op : OpPtr} {regions : Forest .region} {fuel : Nat}
    (hreg : Registered st.outline noted) (hitems : noted.length = items.length)
    (hrest : Follows opFollow rest)
    (hregions : ∀ st rest, Registered st.outline noted → Follows Kind.region.follow rest →
      ∃ regions' st', parse d input fuel .region false ((print d ir regions items).1 ++ rest) st =
        .ok (regions', rest, st') ∧ regions.SameShape regions' ∧
        Created d ir input regions.items regions'.items noted st st') :
    ∃ op' regions' st', parseOp d input (fuel + 1) (printOpHead d (ir.node (.op op)) ++
        ((print d ir regions items).1 ++
          (mark d ir (.op op) (print d ir regions items).2.length ++ rest))) st =
        .ok (op', regions', rest, st') ∧ regions.SameShape regions' ∧
      Created d ir input (regions.items ++ [.op op]) (regions'.items ++ [.op op']) noted st
        st' := by
  have hmark : Follows Kind.region.follow
      (mark d ir (.op op) (print d ir regions items).2.length ++ rest) := by
    unfold mark
    split
    · exact List.mem_cons_self
    · exact hrest.mono (List.subset_cons_self _ _)
  have htext : Follows ("\x7b" :: Kind.region.follow) ((print d ir regions items).1 ++
      (mark d ir (.op op) (print d ir regions items).2.length ++ rest)) := by
    cases regions with
    | nil => exact hmark.mono (List.subset_cons_self _ _)
    | region blocks next => exact List.mem_cons_self
  obtain ⟨parsed, hparse, hdescribes⟩ := parseOpHead_print hd (ir.node (.op op)) htext
  obtain ⟨toks, htoks⟩ : ∃ toks, printOpHead d (ir.node (.op op)) ++
    ((print d ir regions items).1 ++
      (mark d ir (.op op) (print d ir regions items).2.length ++ rest)) = toks := ⟨_, rfl⟩
  rw [htoks] at hparse
  obtain ⟨op', ir₀, ir₁, node, hop', hprocess, hnew, hparsed⟩ :=
    @newOp_parsed _ d ir input hd hnames st.ir op parsed hdescribes toks
  obtain ⟨regions', st₁, hregions', hshape, hcreated⟩ :=
    hregions { st with ir := ir₁ } _ hreg hmark
  have hlen := @noted_length _ _ d ir _ _ regions _ hitems hcreated.nodes.length_eq
  obtain ⟨st', hpost, hir, hreg'⟩ := @postparseOutline_mark _ d ir _
    { st₁ with ir := st₁.ir.setLoc (.op op') (input.loc toks) } _ op op' hcreated.registered hrest
  rw [hlen] at hpost
  refine ⟨op', regions', st', ?_, hshape,
    hcreated.op hnew (fun node => { node with loc := input.loc toks }) rfl hparsed hir hreg'⟩
  rw [htoks]
  simp only [parseOp, hparse, hop', hprocess, hregions', bind, Except.bind, hpost]

/-- Parsing inverts printing. -/
theorem parse_print (hd : d.Lawful) (hnames : ir.KeepsGivenNames d.toAttrInterfaces)
    (f : Forest k) {fuel : Nat} {required : Bool}
    (hfuel : f.size ≤ fuel) (hrequired : required = true → f.items ≠ [])
    (hreg : Registered st.outline noted) (hitems : noted.length = items.length)
    (hrest : Follows k.follow rest) :
    ∃ f' st', parse d input fuel k required ((print d ir f items).1 ++ rest) st =
      .ok (f', rest, st') ∧ f.SameShape f' ∧ Created d ir input f.items f'.items noted st st' := by
  induction f generalizing fuel required st noted items rest with
  | nil =>
      obtain ⟨fuel, rfl⟩ : ∃ n, fuel = n + 1 :=
        ⟨fuel - 1, by simp only [Forest.size] at hfuel; omega⟩
      cases required with
      | true => exact absurd rfl (hrequired rfl)
      | false => exact ⟨.nil, st, parse_nil hd hrest, .nil, .nil hreg⟩
  | op ptr regions next ihr ihn =>
      simp only [Forest.size] at hfuel
      obtain ⟨fuel, rfl⟩ : ∃ n, fuel = n + 2 := ⟨fuel - 2, by omega⟩
      -- the operation itself, whatever follows it
      have hop : ∀ rest, Follows opFollow rest → ∃ op' regions' st',
          parseOp d input (fuel + 1) (printOpHead d (ir.node (.op ptr)) ++
            ((print d ir regions items).1 ++
              (mark d ir (.op ptr) (print d ir regions items).2.length ++ rest))) st =
            .ok (op', regions', rest, st') ∧ regions.SameShape regions' ∧
          Created d ir input (regions.items ++ [.op ptr]) (regions'.items ++ [.op op']) noted st
            st' :=
        fun rest hrest => parseOp_print hd hnames hreg hitems hrest
          (fun st rest hreg hrest => ihr (by omega) (by simp) hreg hitems hrest)
      have hstart : ∀ toks result, parseOp d input (fuel + 1) toks st = .ok result →
          ((parseOpHead d toks).isNone && !required) = false := by
        intro toks result hparse
        cases hnone : parseOpHead d toks with
        | none =>
            simp only [parseOp, hnone] at hparse
            cases hparse
        | some _ => rfl
      -- the last operation of a block has no `;` behind it
      by_cases hnext : next.items = []
      · cases next with
        | op ptr' regions' next' => simp [Forest.items] at hnext
        | nil =>
            have hne : ∀ toks, rest ≠ .sym ";" :: toks := by
              rintro toks rfl
              simp [Follows, Kind.follow] at hrest
            obtain ⟨op', regions', st', hparse, hshape, hcreated⟩ := hop rest
              (hrest.mono (by simp [Kind.follow, opFollow]))
            refine ⟨.op op' regions' .nil, st', ?_, .op hshape .nil, hcreated⟩
            rw [print_op_last, List.append_assoc, List.append_assoc, parse, hstart _ _ hparse,
              if_neg Bool.false_ne_true]
            simp only [hparse, bind, Except.bind]
      · obtain ⟨op', regions', st₁, hparse, hshape, hcreated⟩ :=
          hop (.sym ";" ::
            ((print d ir next (print d ir (.op ptr regions .nil) items).2).1 ++ rest))
            List.mem_cons_self
        have hlen := @noted_length _ _ d ir _ _ (.op ptr regions .nil) _ hitems
          hcreated.nodes.length_eq
        obtain ⟨next', st', hnext', hshape', hcreated'⟩ := @ihn _ _ _ _ (fuel + 1) true
          (by omega) (fun _ => hnext) hcreated.registered hlen hrest
        refine ⟨.op op' regions' next', st', ?_, .op hshape hshape', ?_⟩
        · rw [print_op_more d ir ptr regions hnext, List.append_assoc, List.append_assoc,
            List.append_assoc, List.cons_append, parse, hstart _ _ hparse,
            if_neg Bool.false_ne_true]
          simp only [hparse, bind, Except.bind, hnext']
        · have happend := hcreated.append hcreated'
          rw [List.append_assoc, List.append_assoc] at happend
          exact happend
  | block ptr ops next iho ihn =>
      simp only [Forest.size] at hfuel
      obtain ⟨fuel, rfl⟩ : ∃ n, fuel = n + 1 := ⟨fuel - 1, by omega⟩
      -- the header, the new block and the names of its arguments
      have hheader := @parseBlockHeader_print _ d ir
        ((print d ir ops (preprintOutline d ir (.block ptr) items).2).1 ++
          ((print d ir next (print d ir ops (preprintOutline d ir (.block ptr) items).2).2).1 ++
            rest)) ptr noted.length
      generalize htoks : [Token.sym "^", Token.text (ir.node (.block ptr)).head] ++ _ = toks
        at hheader
      obtain ⟨header, hparts⟩ : ∃ header, header = headerOf d ir ptr noted.length := ⟨_, rfl⟩
      rw [← hparts] at hheader
      obtain ⟨block', ir₀, ir₁, node, hblock', hset, hnew, hparsed⟩ :=
        @newBlock_parsed _ d ir input hd hnames st.ir ptr _ header hparts toks
      obtain ⟨st₁, hst₁, hir, hreg₁⟩ :=
        @registerBlock_mark _ d ir _ { st with ir := ir₁ } ptr block' hreg
      have hsingle : Created d ir input [.block ptr] [.block block'] noted st st₁ :=
        Created.single hnew hparsed hir hreg₁
      have hlen : (noted ++ (outlinedPairs d ir [.block ptr] [.block block']).map Prod.snd).length =
          (preprintOutline d ir (.block ptr) items).2.length :=
        noted_length (.block ptr .nil .nil) hitems hsingle.nodes.length_eq
      -- the operations of the block end where the next block or the region ends
      have hopsRest : Follows Kind.op.follow
          ((print d ir next (print d ir ops (preprintOutline d ir (.block ptr) items).2).2).1 ++
            rest) := by
        cases next with
        | nil => exact hrest.mono (by simp [Kind.follow])
        | block ptr' ops' next' => exact List.mem_cons_self
      obtain ⟨ops', st₂, hops', hshape, hcreated⟩ := @iho _ _ _ _ fuel false
        (by omega) (by simp) hsingle.registered hlen hopsRest
      have hlen' := @noted_length _ _ d ir _ _ ops _ hlen hcreated.nodes.length_eq
      obtain ⟨next', st', hnext', hshape', hcreated'⟩ := @ihn _ _ _ _ fuel false
        (by omega) (by simp) hcreated.registered hlen' hrest
      refine ⟨.block block' ops' next', st', ?_, .block hshape hshape',
        hsingle.append (hcreated.append hcreated')⟩
      have htext : (print d ir (.block ptr ops next) items).1 ++ rest = toks := by
        rw [← htoks, print_block, hitems]
        simp only [List.cons_append, List.append_assoc, List.nil_append]
      obtain ⟨tail, rfl⟩ : ∃ tail, toks = .sym "^" :: tail := ⟨_, htoks.symm⟩
      have hindex : header.outindex =
          if hasOutline d ir (.block ptr) then some noted.length else none := by
        rw [hparts]
        rfl
      rw [htext, parse]
      simp only [hheader, hblock', bind, Except.bind, hset, hindex]
      -- only a block that has an outline is registered
      by_cases hout : hasOutline d ir (.block ptr) = true
      · simp only [if_pos hout] at hst₁ ⊢
        simp only [hst₁, hops', hnext']
      · simp only [if_neg hout] at hst₁ ⊢
        rw [Except.ok.inj hst₁]
        simp only [hops', hnext']
  | region blocks next ihb ihn =>
      simp only [Forest.size] at hfuel
      obtain ⟨fuel, rfl⟩ : ∃ n, fuel = n + 1 := ⟨fuel - 1, by omega⟩
      obtain ⟨blocks', st₁, hblocks', hshape, hcreated⟩ := @ihb items _ st
        (.sym "\x7d" :: ((print d ir next (print d ir blocks items).2).1 ++ rest)) fuel false
        (by omega) (by simp) hreg hitems List.mem_cons_self
      have hlen := @noted_length _ _ d ir _ _ blocks _ hitems hcreated.nodes.length_eq
      obtain ⟨next', st', hnext', hshape', hcreated'⟩ := @ihn _ _ _ _ fuel false
        (by omega) (by simp) hcreated.registered hlen hrest
      refine ⟨.region blocks' next', st', ?_, .region hshape hshape', hcreated.append hcreated'⟩
      have htext : (print d ir (.region blocks next) items).1 ++ rest = .sym "\x7b" ::
          ((print d ir blocks items).1 ++ .sym "\x7d" ::
            ((print d ir next (print d ir blocks items).2).1 ++ rest)) := by
        simp only [print, List.cons_append, List.append_assoc]
      rw [htext, parse]
      simp only [hblocks', bind, Except.bind, expect, if_pos, hnext']

end Outlined

end Pliron
