/-
  Pliron.IRFmt.OutlinedSpec

  Parsing the printed text of operations, blocks and regions.

  Up to the outlined section, parsing gives a tree of the same shape.  Its nodes
  are new, they have the text and the inline attributes that were printed, with the
  names of their values as given names, and the parser has noted down the new node of
  every item that the printer noted down, at the same index.
-/

import Pliron.IRFmt.OutlinedParser

namespace Pliron

variable {Attr : Type} {k : Kind}

/-! ## Trees -/

namespace Forest

/-- The operations and blocks, in the order in which they are noted down. -/
def items : {k : Kind} → Forest k → List OutlinedItem
  | _, .nil => []
  | _, .op ptr regions next => regions.items ++ .op ptr :: next.items
  | _, .block ptr ops next => .block ptr :: (ops.items ++ next.items)
  | _, .region blocks next => blocks.items ++ next.items

/-- The same tree, up to pointers. -/
inductive SameShape : {k : Kind} → Forest k → Forest k → Prop
  | nil {k : Kind} : SameShape (.nil : Forest k) .nil
  | op {ptr ptr' : OpPtr} {regions regions' : Forest .region} {next next' : Forest .op}
      (hregions : SameShape regions regions') (hnext : SameShape next next') :
      SameShape (.op ptr regions next) (.op ptr' regions' next')
  | block {ptr ptr' : BlockPtr} {ops ops' : Forest .op} {next next' : Forest .block}
      (hops : SameShape ops ops') (hnext : SameShape next next') :
      SameShape (.block ptr ops next) (.block ptr' ops' next')
  | region {blocks blocks' : Forest .block} {next next' : Forest .region}
      (hblocks : SameShape blocks blocks') (hnext : SameShape next next') :
      SameShape (.region blocks next) (.region blocks' next')

/-- Enough fuel for parsing the text of a tree. -/
def size : {k : Kind} → Forest k → Nat
  | _, .nil => 1
  | _, .op _ regions next => regions.size + next.size + 2
  | _, .block _ ops next => ops.size + next.size + 1
  | _, .region blocks next => blocks.size + next.size + 1

end Forest

/-! ## Lists -/

namespace Outlined

section Lists

variable {α : Type} {item : List (Token Attr) → Except ParseErr (α × List (Token Attr))}
  {text : α → List (Token Attr)} {xs : List α} {fuel : Nat} {rest : List (Token Attr)}

theorem iterWithSep_cons_cons (text : α → List (Token Attr)) (x y : α) (ys : List α) :
    iterWithSep text (x :: y :: ys) = text x ++ .sym "," :: iterWithSep text (y :: ys) := rfl

theorem listLoop_print (hitem : ∀ x ∈ xs, ∀ rest, item (text x ++ rest) = .ok (x, rest))
    (hxs : xs ≠ []) (hfuel : xs.length ≤ fuel) (hrest : ∀ toks, rest ≠ .sym "," :: toks) :
    listLoop item fuel (iterWithSep text xs ++ rest) = .ok (xs, rest) := by
  induction xs generalizing fuel with
  | nil => exact absurd rfl hxs
  | cons x xs ih =>
      obtain ⟨fuel, rfl⟩ : ∃ n, fuel = n + 1 :=
        ⟨fuel - 1, by simp only [List.length_cons] at hfuel; omega⟩
      have hx := hitem x List.mem_cons_self
      cases xs with
      | nil =>
          rw [iterWithSep, listLoop]
          simp only [hx, bind, Except.bind]
      | cons y ys =>
          have hmore := ih (fun z hz => hitem z (List.mem_cons_of_mem x hz)) (List.cons_ne_nil y ys)
            (Nat.le_of_succ_le_succ hfuel)
          rw [iterWithSep_cons_cons, List.append_assoc, List.cons_append, listLoop]
          simp only [hx, bind, Except.bind, hmore]

/-- Every item has a token of its own. -/
theorem length_le_iterWithSep (htext : ∀ x ∈ xs, text x ≠ []) :
    xs.length ≤ (iterWithSep text xs).length := by
  induction xs with
  | nil => exact Nat.le_refl 0
  | cons x xs ih =>
      have hx := List.length_pos_iff.mpr (htext x List.mem_cons_self)
      have hmore := ih (fun y hy => htext y (List.mem_cons_of_mem x hy))
      cases xs with
      | nil => exact hx
      | cons y ys =>
          rw [iterWithSep_cons_cons]
          simp only [List.length_append, List.length_cons] at hmore ⊢
          omega

theorem listParser_print (hitem : ∀ x ∈ xs, ∀ rest, item (text x ++ rest) = .ok (x, rest))
    (htext : ∀ x ∈ xs, text x ≠ []) (hxs : xs ≠ []) (hrest : ∀ toks, rest ≠ .sym "," :: toks) :
    listParser item (iterWithSep text xs ++ rest) = .ok (xs, rest) := by
  refine listLoop_print hitem hxs ?_ hrest
  have hlen := length_le_iterWithSep htext
  rw [List.length_append]
  omega

/-- Where no item begins with the closing delimiter, parsing inverts printing. -/
theorem delimitedListParser_print {opening closing : String} (hclosing : closing ≠ ",")
    (hitem : ∀ x ∈ xs, ∀ rest, item (text x ++ rest) = .ok (x, rest))
    (htext : ∀ x ∈ xs, ∃ tok toks, text x = tok :: toks ∧ tok ≠ .sym closing) :
    delimitedListParser opening closing item
      (.sym opening :: (iterWithSep text xs ++ .sym closing :: rest)) = .ok (xs, rest) := by
  have hexpect : ∀ toks : List (Token Attr), expect [closing] (.sym closing :: toks) = .ok toks :=
    fun toks => expect_append [closing] toks
  have hopening : expect [opening] (.sym opening :: (iterWithSep text xs ++ .sym closing :: rest)) =
      .ok (iterWithSep text xs ++ .sym closing :: rest) := expect_append [opening] _
  rw [delimitedListParser, hopening]
  cases xs with
  | nil => simp only [bind, Except.bind, iterWithSep, List.nil_append, hexpect]
  | cons x xs =>
      have hlist : listParser item (iterWithSep text (x :: xs) ++ .sym closing :: rest) =
          .ok (x :: xs, .sym closing :: rest) := by
        refine listParser_print hitem (fun y hy => ?_) (List.cons_ne_nil x xs)
          (fun toks heq => hclosing (Token.sym.inj (List.cons.inj heq).1))
        obtain ⟨tok, toks, heq, _⟩ := htext y hy
        rw [heq]
        exact List.cons_ne_nil tok toks
      obtain ⟨tok, toks, htok, hne⟩ := htext x List.mem_cons_self
      have hbegins : ∃ more, iterWithSep text (x :: xs) ++ .sym closing :: rest = tok :: more := by
        cases xs with
        | nil => exact ⟨_, by rw [iterWithSep, htok, List.cons_append]⟩
        | cons y ys =>
            exact ⟨_, by rw [iterWithSep_cons_cons, htok, List.cons_append, List.cons_append]⟩
      obtain ⟨more, hmore⟩ := hbegins
      have hnot : ∃ err, expect [closing] (tok :: more) = .error err := by
        cases tok with
        | sym s => exact ⟨.unexpected, if_neg (fun heq => hne (by rw [heq]))⟩
        | _ => exact ⟨.unexpected, rfl⟩
      obtain ⟨err, herr⟩ := hnot
      simp only [bind, Except.bind, hmore, herr]
      rw [← hmore, hlist]
      simp only [hexpect]

end Lists

end Outlined

/-! ## Attribute dictionaries -/

namespace AttributeDict

theorem ext {d d' : AttributeDict Attr} (h : d.entries = d'.entries) : d = d' := by
  cases d
  cases d'
  cases h
  rfl

/-- The entries printed are inserted in order. -/
theorem parseEntries_print {d d' : AttributeDict Attr} {es : IMap Identifier Attr} (hes : es ≠ [])
    (h : d'.entries = d.entries ++ es) (rest : List (Token Attr)) :
    parseEntries d (printEntries es ++ .sym "]" :: rest) = .ok (d', .sym "]" :: rest) := by
  induction es generalizing d with
  | nil => exact absurd rfl hes
  | cons e es ih =>
      obtain ⟨name, attr⟩ := e
      have hnot : name ∉ d.entries.keys := by
        have hnodup := d'.nodup
        rw [h, IMap.keys, List.map_append, List.nodup_append] at hnodup
        intro hmem
        exact hnodup.2.2 name hmem name (by simp) rfl
      have hinsert : (d.insert name attr).entries = d.entries ++ [(name, attr)] :=
        IMap.insert_of_not_mem hnot
      cases es with
      | nil =>
          have hd : d.insert name attr = d' := ext (by rw [hinsert, h])
          rw [← hd]
          rfl
      | cons e' es =>
          have hlast := ih (d := d.insert name attr) (by simp)
            (by rw [h, hinsert, List.append_assoc, List.singleton_append])
          exact hlast

theorem parse_print (d : AttributeDict Attr) (rest : List (Token Attr)) :
    parse (d.print ++ rest) = .ok (d, rest) := by
  by_cases hes : d.entries = []
  · have hd : ({} : AttributeDict Attr) = d := ext hes.symm
    rw [print, hes, ← hd]
    rfl
  · have hentries := @parseEntries_print _ {} d _ hes rfl rest
    rw [print, List.cons_append, List.append_assoc, List.singleton_append]
    cases hprint : printEntries d.entries ++ .sym "]" :: rest with
    | nil => simp at hprint
    | cons tok toks =>
        have htok : tok ≠ .sym "]" := by
          intro htok
          rw [htok] at hprint
          rw [hprint] at hentries
          cases hentries
        rw [parse]
        · rw [← hprint, hentries]
          rfl
        · intro toks' heq
          exact htok (List.cons.inj heq).1

theorem get?_insert (d : AttributeDict Attr) (name : Identifier) (attr : Attr)
    (name' : Identifier) :
    (d.insert name attr).get? name' = if name = name' then some attr else d.get? name' :=
  IMap.get?_insert

theorem get?_filter {es : IMap Identifier Attr} (h : es.keys.Nodup) (p : Attr → Bool)
    (name : Identifier) :
    IMap.get? (es.filter (fun e => p e.2)) name = (es.get? name).filter p := by
  induction es with
  | nil => rfl
  | cons e es ih =>
      obtain ⟨hnot, hnodup⟩ := List.nodup_cons.mp h
      rw [List.filter_cons, IMap.get?_cons]
      by_cases hname : e.1 = name
      · have hnone : IMap.get? es name = none := by
          rw [← Option.not_isSome_iff_eq_none, ← IMap.mem_keys_iff, ← hname]
          exact hnot
        rw [if_pos hname]
        by_cases hp : p e.2
        · rw [if_pos hp, IMap.get?_cons, if_pos hname, Option.filter_some, if_pos hp]
        · rw [if_neg hp, ih hnodup, hnone, Option.filter_some, if_neg hp]
          rfl
      · rw [if_neg hname, ← ih hnodup]
        split
        · rw [IMap.get?_cons, if_neg hname]
        · rfl

theorem get?_cloneSkipOutlined (d : AttributeDict Attr) (shouldOutline : Attr → Bool)
    (name : Identifier) : (d.cloneSkipOutlined shouldOutline).get? name =
      (d.get? name).filter (fun attr => !shouldOutline attr) :=
  get?_filter d.nodup (fun attr => !shouldOutline attr) name

end AttributeDict

/-! ## The printed text -/

namespace Outlined

variable (d : Dialects Attr) (ir : IR Attr)

/-- The reference that is printed with an item. -/
def mark (item : OutlinedItem) (outindex : Nat) : List (Token Attr) :=
  if hasOutline d ir item then [.sym "!", .index outindex] else []

/-- The items noted down. -/
theorem print_snd (f : Forest k) (items : List OutlinedItem) :
    (print d ir f items).2 = items ++ f.items.filter (hasOutline d ir) := by
  have hmark : ∀ item items, (preprintOutline d ir item items).2 =
      items ++ if hasOutline d ir item then [item] else [] := by
    intro item items
    unfold preprintOutline
    split
    · rfl
    · exact (List.append_nil items).symm
  have hcons : ∀ item items, (item :: items).filter (hasOutline d ir) =
      (if hasOutline d ir item then [item] else []) ++ items.filter (hasOutline d ir) := by
    intro item items
    rw [List.filter_cons]
    split <;> rfl
  induction f generalizing items with
  | nil => simp [print, Forest.items]
  | op ptr regions next ihr ihn =>
      simp only [print, preprintOutlineOperation, hmark, ihr, ihn, Forest.items]
      rw [List.filter_append, hcons, List.append_assoc, List.append_assoc]
  | block ptr ops next iho ihn =>
      simp only [print, preprintOutlineBlock, hmark, iho, ihn, Forest.items]
      rw [hcons, List.filter_append, List.append_assoc, List.append_assoc]
  | region blocks next ihb ihn =>
      simp only [print, ihb, ihn, Forest.items, List.filter_append, List.append_assoc]

theorem preprintOutline_fst (item : OutlinedItem) (items : List OutlinedItem) :
    (preprintOutline d ir item items).1 = mark d ir item items.length := by
  unfold preprintOutline mark
  split <;> rfl

/-- The text of an operation that is the last of its sequence. -/
theorem print_op_last (ptr : OpPtr) (regions : Forest .region) (items : List OutlinedItem) :
    (print d ir (.op ptr regions .nil) items).1 =
      printOpHead d (ir.node (.op ptr)) ++ ((print d ir regions items).1 ++
        mark d ir (.op ptr) (print d ir regions items).2.length) := by
  simp only [print, preprintOutlineOperation, preprintOutline_fst, List.append_nil]

/-- The text of an operation that others follow. -/
theorem print_op_more (ptr : OpPtr) (regions : Forest .region) {next : Forest .op}
    (hnext : next.items ≠ []) (items : List OutlinedItem) :
    (print d ir (.op ptr regions next) items).1 =
      printOpHead d (ir.node (.op ptr)) ++ ((print d ir regions items).1 ++
        (mark d ir (.op ptr) (print d ir regions items).2.length ++
          .sym ";" :: (print d ir next (print d ir (.op ptr regions .nil) items).2).1)) := by
  cases next with
  | nil => exact absurd rfl hnext
  | op ptr' regions' next' =>
      simp only [print, preprintOutlineOperation, preprintOutline_fst]
      rfl

theorem print_block (ptr : BlockPtr) (ops : Forest .op) (next : Forest .block)
    (items : List OutlinedItem) :
    (print d ir (.block ptr ops next) items).1 =
      [.sym "^", .text (ir.node (.block ptr)).head] ++
        (printArgs d (ir.node (.block ptr)) ++
          (printInlineAttrs d (ir.node (.block ptr)).attributes ++
            (mark d ir (.block ptr) items.length ++ .sym ":" ::
              ((print d ir ops (preprintOutline d ir (.block ptr) items).2).1 ++
                (print d ir next
                  (print d ir ops (preprintOutline d ir (.block ptr) items).2).2).1)))) := by
  simp only [print, preprintOutlineBlock, preprintOutline_fst]

end Outlined

/-! ## New nodes -/

namespace IR

/-- Has an operation or a block yet to be created? -/
def Fresh (ir : IR Attr) : OutlinedItem → Prop
  | .op op => ir.nextOp ≤ op.idx
  | .block block => ir.nextBlock ≤ block.idx

/-- `ir'` has more nodes than `ir`. -/
structure Extends (ir ir' : IR Attr) : Prop where
  fresh : ∀ item, ir'.Fresh item → ir.Fresh item
  node : ∀ item, ¬ ir.Fresh item → ir'.node item = ir.node item

variable {ir ir' ir'' : IR Attr} {item item' : OutlinedItem}

theorem Extends.refl (ir : IR Attr) : ir.Extends ir := ⟨fun _ h => h, fun _ _ => rfl⟩

theorem Extends.trans (h : ir.Extends ir') (h' : ir'.Extends ir'') : ir.Extends ir'' :=
  ⟨fun item hf => h.fresh item (h'.fresh item hf), fun item hf =>
    (h'.node item (fun hf' => hf (h.fresh item hf'))).trans (h.node item hf)⟩

@[simp] theorem modify_node_self (f : Node Attr → Node Attr) :
    (ir.modify item f).node item = f (ir.node item) := Function.update_self _ _ _

theorem modify_node_of_ne (f : Node Attr → Node Attr) (h : item' ≠ item) :
    (ir.modify item f).node item' = ir.node item' := Function.update_of_ne h _ _

/-- Writing to a node that is new. -/
theorem extends_modify (f : Node Attr → Node Attr) (h : ir.Fresh item) :
    ir.Extends (ir.modify item f) := by
  refine ⟨fun _ hf => hf, fun item' hitem' => modify_node_of_ne f ?_⟩
  rintro rfl
  exact hitem' h

/-- What creating a node does. -/
structure Creates (ir ir' : IR Attr) (item : OutlinedItem) (node : Node Attr) : Prop where
  ext : ir.Extends ir'
  fresh : ir.Fresh item
  used : ¬ ir'.Fresh item
  node : ir'.node item = node

theorem Creates.modify {node : Node Attr} (h : ir.Creates ir' item node)
    (f : Node Attr → Node Attr) : ir.Creates (ir'.modify item f) item (f node) where
  ext := ⟨h.ext.fresh, fun item' hitem' => by
    have hne : item' ≠ item := fun heq => hitem' (heq ▸ h.fresh)
    rw [modify_node_of_ne f hne]
    exact h.ext.node item' hitem'⟩
  fresh := h.fresh
  used := h.used
  node := by rw [modify_node_self, h.node]

theorem creates_newOp (ir : IR Attr) (node : Node Attr) (types : List String) :
    ir.Creates (ir.newOp node types).2 (.op (ir.newOp node types).1)
      { node with values := ir.newValues types } := by
  have hfresh : ir.Fresh (.op (ir.newOp node types).1) := Nat.le_refl ir.nextOp
  have hext := extends_modify (fun _ => { node with values := ir.newValues types }) hfresh
  refine ⟨⟨fun item hf => ?_, hext.node⟩, hfresh, ?_,
    modify_node_self (fun _ => { node with values := ir.newValues types })⟩
  · cases item with
    | op op =>
        have hf : ir.nextOp + 1 ≤ op.idx := hf
        show ir.nextOp ≤ op.idx
        omega
    | block block => exact hf
  · show ¬ ir.nextOp + 1 ≤ ir.nextOp
    omega

theorem creates_newBlock (ir : IR Attr) (node : Node Attr) (types : List String) :
    ir.Creates (ir.newBlock node types).2 (.block (ir.newBlock node types).1)
      { node with values := ir.newValues types } := by
  have hfresh : ir.Fresh (.block (ir.newBlock node types).1) := Nat.le_refl ir.nextBlock
  have hext := extends_modify (fun _ => { node with values := ir.newValues types }) hfresh
  refine ⟨⟨fun item hf => ?_, hext.node⟩, hfresh, ?_,
    modify_node_self (fun _ => { node with values := ir.newValues types })⟩
  · cases item with
    | op op => exact hf
    | block block =>
        have hf : ir.nextBlock + 1 ≤ block.idx := hf
        show ir.nextBlock ≤ block.idx
        omega
  · show ¬ ir.nextBlock + 1 ≤ ir.nextBlock
    omega

@[simp] theorem length_newValues (ir : IR Attr) (types : List String) :
    (ir.newValues types).length = types.length := by
  rw [newValues, List.length_map, List.length_zipIdx]

theorem map_ty_newValues (ir : IR Attr) (types : List String) :
    (ir.newValues types).map TypedValue.ty = types := by
  rw [newValues, List.map_map]
  exact List.zipIdx_map_fst ir.nextValue types

end IR

/-! ## Given names -/

/-- What is under the key of the given names are given names, as the functions that write them
    expect. -/
def IR.KeepsGivenNames (ir : IR Attr) (d : AttrInterfaces Attr) : Prop :=
  ∀ item attr, (ir.node item).attributes.get? attrKeyGivenNames = some attr →
    (d.givenNames attr).isSome

namespace AttrInterfaces

/-- What is asked of attributes: given names are attributes, and outlined. -/
structure Lawful (d : AttrInterfaces Attr) : Prop where
  givenNames_ofGivenNames : ∀ names, d.givenNames (d.ofGivenNames names) = some names
  outlined : ∀ attr, (d.givenNames attr).isSome → d.shouldOutline attr = true

variable (d : AttrInterfaces Attr)

/-- The attribute that holds these names, if there are any. -/
def namesAttr (names : List Identifier) : Option Attr :=
  if names = [] then none else some (d.ofGivenNames ⟨names.map some⟩)

/-- What parsing adds to attributes without given names: the names that were read. -/
def addedAttr (names : List Identifier) (name : Identifier) : Option Attr :=
  if name = attrKeyGivenNames then d.namesAttr names else none

variable {d}

@[simp] theorem length_valueNames (node : Node Attr) :
    (d.valueNames node).length = node.values.length := by
  rw [valueNames, List.length_map, List.length_zipIdx]

/-- Setting the next name. -/
theorem setName_next (hd : d.Lawful) {attributes : AttributeDict Attr} {names : List Identifier}
    (h : attributes.get? attrKeyGivenNames = d.namesAttr names) (name : Identifier) {attr : Attr}
    (hattr : d.namesAttr (names ++ [name]) = some attr) :
    d.setName attributes names.length (some name) =
      some (attributes.insert attrKeyGivenNames attr) := by
  obtain rfl := Option.some.inj ((if_neg (by simp)).symm.trans hattr)
  have hset : (GivenNamesAttr.mk (names.map some)).setName names.length (some name) =
      ⟨(names ++ [name]).map some⟩ := by
    have hlen : (names.map some).length = names.length := List.length_map some
    rw [GivenNamesAttr.setName, Lib.growTo, hlen, Nat.add_sub_cancel_left, List.map_append]
    congr 1
    rw [List.set_append_right _ _ (Nat.le_of_eq hlen), hlen, Nat.sub_self]
    rfl
  rw [setName, h]
  by_cases hnames : names = []
  · subst hnames
    rfl
  · rw [namesAttr, if_neg hnames]
    simp only [hd.givenNames_ofGivenNames, Option.map_some, Option.bind_eq_bind, Option.bind_some,
      setNameInAttrMap, writeNameInAttrMap, hset]
    rfl

end AttrInterfaces

namespace Outlined

open AttrInterfaces

variable {d : AttrInterfaces Attr} {ir ir' : IR Attr} {item : OutlinedItem} {node : Node Attr}

/-- The names that a new node has already been given, and those that follow. -/
theorem setNames_spec (hd : d.Lawful) (bound : String) (given names : List Identifier)
    (hcreates : ir.Creates ir' item node)
    (hlen : node.values.length = given.length + names.length)
    (hgiven : node.attributes.get? attrKeyGivenNames = d.namesAttr given) :
    ∃ ir'' attributes, setNames (setValueName d bound item) given.length names ir' = .ok ir'' ∧
      ir.Creates ir'' item { node with attributes := attributes } ∧
      attributes.get? attrKeyGivenNames = d.namesAttr (given ++ names) ∧
      ∀ name, name ≠ attrKeyGivenNames → attributes.get? name = node.attributes.get? name := by
  induction names generalizing given ir' node with
  | nil =>
      exact ⟨ir', node.attributes, rfl, hcreates, by rw [List.append_nil, hgiven], fun _ _ => rfl⟩
  | cons name names ih =>
      have hidx : given.length < node.values.length := by
        rw [hlen, List.length_cons]
        omega
      obtain ⟨attr, hattr⟩ : ∃ attr, d.namesAttr (given ++ [name]) = some attr :=
        ⟨_, if_neg (by simp)⟩
      have hset : setValueName d bound item given.length (some name) ir' = .ok (ir'.modify item
          (fun x => { x with attributes := node.attributes.insert attrKeyGivenNames attr })) := by
        rw [setValueName, hcreates.node, if_pos hidx, setName_next hd hgiven name hattr]
      obtain ⟨ir'', attributes, hnames, hcreates', hkey, hother⟩ := ih (given ++ [name])
        (hcreates.modify
          (fun x => { x with attributes := node.attributes.insert attrKeyGivenNames attr }))
        (by
          rw [List.length_append, List.length_singleton, hlen, List.length_cons]
          omega)
        (by rw [AttributeDict.get?_insert, if_pos rfl, hattr])
      rw [List.length_append, List.length_singleton] at hnames
      rw [List.append_assoc, List.singleton_append] at hkey
      refine ⟨ir'', attributes, ?_, hcreates', hkey, fun name' hname' => ?_⟩
      · simp only [setNames, hset, bind, Except.bind, hnames]
      · rw [hother name' hname', AttributeDict.get?_insert, if_neg (Ne.symm hname')]

/-- Setting the names of all values of a new node. -/
theorem setNames_new (hd : d.Lawful) (bound : String) (names : List Identifier)
    (hcreates : ir.Creates ir' item node) (hlen : names.length = node.values.length)
    (hnone : node.attributes.get? attrKeyGivenNames = none) :
    ∃ ir'' attributes, setNames (setValueName d bound item) 0 names ir' = .ok ir'' ∧
      ir.Creates ir'' item { node with attributes := attributes } ∧
      ∀ name, attributes.get? name =
        (node.attributes.get? name).or (d.addedAttr names name) := by
  obtain ⟨ir'', attributes, hset, hcreates', hkey, hother⟩ :=
    setNames_spec hd bound [] names hcreates (by rw [List.length_nil, Nat.zero_add, hlen]) hnone
  refine ⟨ir'', attributes, hset, hcreates', fun name => ?_⟩
  by_cases hname : name = attrKeyGivenNames
  · rw [hname, hkey, hnone, addedAttr, if_pos rfl]
    rfl
  · rw [hother name hname, addedAttr, if_neg hname, Option.or_none]

/-- Given names are outlined. -/
theorem get?_cloneSkipOutlined_key (hd : d.Lawful) (hnames : ir.KeepsGivenNames d)
    (item : OutlinedItem) : ((ir.node item).attributes.cloneSkipOutlined d.shouldOutline).get?
      attrKeyGivenNames = none := by
  rw [AttributeDict.get?_cloneSkipOutlined]
  cases hattr : (ir.node item).attributes.get? attrKeyGivenNames with
  | none => rfl
  | some attr =>
      rw [Option.filter_some, hd.outlined attr (hnames item attr hattr)]
      rfl

end Outlined

/-- Is it an operation? -/
def OutlinedItem.isOp : OutlinedItem → Bool
  | .op _ => true
  | .block _ => false

/-- The node of an item and a node that was parsed for it, before an entry of the outlined section
    is filled in.  A block has no text after its attributes. -/
structure Parsed (d : Dialects Attr) (input : Outlined.Input) (item : OutlinedItem)
    (node node' : Node Attr) : Prop where
  head : node'.head = node.head
  type : item.isOp = true → node'.type = node.type
  valueTypes : node'.values.map TypedValue.ty = node.values.map TypedValue.ty
  attributes : ∀ name, node'.attributes.get? name =
    ((node.attributes.cloneSkipOutlined d.shouldOutline).get? name).or
      (d.addedAttr (d.valueNames node) name)
  loc : ∃ left, node'.loc = .srcPos input.src (input.pos left)

namespace Outlined

/-! ## Outline indices -/

/-- The parser has noted down just these items, at their indices. -/
structure Registered (outline : Option OutlineParseState) (items : List OutlinedItem) : Prop where
  op : ∀ n op, (outline.getD {}).outindexOpMap.get? n = some op ↔ items[n]? = some (.op op)
  block : ∀ n block,
    (outline.getD {}).outindexBlockMap.get? n = some block ↔ items[n]? = some (.block block)

variable {items items' : List OutlinedItem} {st st' : ParseState Attr}

theorem getElem?_concat_iff {item item' : OutlinedItem} {n : Nat} :
    (items ++ [item])[n]? = some item' ↔
      if items.length = n then item = item' else items[n]? = some item' := by
  by_cases hn : items.length = n
  · subst hn
    simp
  · rw [if_neg hn]
    by_cases hlt : n < items.length
    · rw [List.getElem?_append_left hlt]
    · rw [List.getElem?_eq_none (by rw [List.length_append, List.length_singleton]; omega),
        List.getElem?_eq_none (by omega)]

theorem registerOpForOutline_spec (h : Registered st.outline items) (op : OpPtr) :
    ∃ st', registerOpForOutline st items.length op = .ok st' ∧ st'.ir = st.ir ∧
      Registered st'.outline (items ++ [.op op]) := by
  have hnone : (st.outline.getD {}).outindexOpMap.get? items.length = none := by
    rw [Option.eq_none_iff_forall_ne_some]
    intro op' hop'
    have hlast := (h.op _ op').mp hop'
    rw [List.getElem?_length] at hlast
    cases hlast
  refine ⟨{ st with outline := some { st.outline.getD {} with
    outindexOpMap := (st.outline.getD {}).outindexOpMap.insert items.length op } },
    by rw [registerOpForOutline, hnone]; rfl, rfl, fun n op' => ?_, fun n block => ?_⟩
  · show IMap.get? (IMap.insert _ _ _) n = some op' ↔ _
    rw [IMap.get?_insert, getElem?_concat_iff]
    split
    · simp
    · exact h.op n op'
  · rw [getElem?_concat_iff]
    split
    · next hn =>
        subst hn
        have hblock := h.block items.length block
        rw [List.getElem?_length] at hblock
        simpa using hblock
    · exact h.block n block

theorem registerBlockForOutline_spec (h : Registered st.outline items) (block : BlockPtr) :
    ∃ st', registerBlockForOutline st items.length block = .ok st' ∧ st'.ir = st.ir ∧
      Registered st'.outline (items ++ [.block block]) := by
  have hnone : (st.outline.getD {}).outindexBlockMap.get? items.length = none := by
    rw [Option.eq_none_iff_forall_ne_some]
    intro block' hblock'
    have hlast := (h.block _ block').mp hblock'
    rw [List.getElem?_length] at hlast
    cases hlast
  refine ⟨{ st with outline := some { st.outline.getD {} with
    outindexBlockMap := (st.outline.getD {}).outindexBlockMap.insert items.length block } },
    by rw [registerBlockForOutline, hnone]; rfl, rfl, fun n op => ?_, fun n block' => ?_⟩
  · rw [getElem?_concat_iff]
    split
    · next hn =>
        subst hn
        have hop := h.op items.length op
        rw [List.getElem?_length] at hop
        simpa using hop
    · exact h.op n op
  · show IMap.get? (IMap.insert _ _ _) n = some block' ↔ _
    rw [IMap.get?_insert, getElem?_concat_iff]
    split
    · simp
    · exact h.block n block'

end Outlined

end Pliron
