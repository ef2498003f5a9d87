/-
  Pliron.LLVM.AggregateFold

  Folding insertions into constant aggregates and vectors, and extractions from them.

  An aggregate that is written out is a tree node, and the folds read and replace a part of the
  tree; a splat is a leaf until an element of it is replaced.
-/

import Pliron.Lib.TreePath
import Pliron.LLVM.ConstFold

namespace Pliron.LLVM

open Pliron.Lib.TreePath

variable {F : Type}

/-! ## Types of aggregates -/

/-- What a type that has elements says about them, if it is not a vector. -/
inductive AggregateType where
  | array (elemType : Ty) (size : Nat)
  | struct (fields : List Ty)

/-- The array and struct types among the types that are given by name. -/
abbrev AggregateTypes := String → Option AggregateType

namespace AggregateTypes

variable (types : AggregateTypes)

/-- The number of elements of a constant of this type that is written out. -/
def numElements : Ty → Option Nat
  | .other name =>
      match types name with
      | some (.array _ size) => some size
      | some (.struct fields) => some fields.length
      | none => none
  | .vector _ numElements .fixed => some numElements
  | _ => none

/-- The type of an element. -/
def elementType : Ty → Nat → Option Ty
  | .other name, i =>
      match types name with
      | some (.array elemType _) => some elemType
      | some (.struct fields) => fields[i]?
      | none => none
  | .vector elemType _ _, _ => some elemType
  | _, _ => none

/-- The type that indices lead to; `none` if they are invalid. -/
def indexedType : Ty → List Nat → Option Ty
  | ty, [] => some ty
  | .other name, idx :: indices =>
      match types name with
      | some (.struct fields) => do indexedType (← fields[idx]?) indices
      | some (.array elemType size) => if idx < size then indexedType elemType indices else none
      | none => none
  | _, _ :: _ => none

end AggregateTypes

namespace Attr

variable (fl : APFloat F) (types : AggregateTypes)

mutual

/-- Verify a constant. -/
def verify : Attr F → Bool
  | integer attr => attr.val.bw == attr.ty.width
  | aggregate elements ty =>
      types.numElements ty == some elements.length && verifyElements ty 0 elements
  | splat element elemType _ _ => verify element && element.getType fl == some elemType
  | _ => true

/-- Verify the elements from index `i` on. -/
def verifyElements (ty : Ty) (i : Nat) : List (Attr F) → Bool
  | [] => true
  | element :: elements =>
      verify element && element.getType fl == types.elementType ty i &&
        verifyElements ty (i + 1) elements

end

/-- Is it a constant whose elements are written out? -/
def isWrittenOut : Attr F → Bool
  | aggregate _ _ => true
  | _ => false

/-- The constants that are written out are nodes, and their elements are children. -/
def nodes : Nodes (Attr F) where
  children
    | aggregate elements _ => some elements
    | _ => none
  rebuild
    | aggregate _ ty, elements => aggregate elements ty
    | attr, _ => attr
  children_rebuild := by
    intro n l l' h
    cases n with
    | aggregate elements ty => rfl
    | integer => exact absurd h nofun
    | float => exact absurd h nofun
    | undef => exact absurd h nofun
    | poison => exact absurd h nofun
    | splat => exact absurd h nofun
    | other => exact absurd h nofun

/-- Every aggregate on the way to the last index of a path is written out. -/
def WrittenOutAlong (attr : Attr F) (path : List Nat) : Prop :=
  ∀ p r, path = p ++ r → r ≠ [] → ∃ a, get nodes attr p = some a ∧ a.isWrittenOut = true

variable {fl types} {attr a v : Attr F} {ty : Ty} {p : List Nat}

theorem children_eq_some {elements : List (Attr F)} (h : nodes.children attr = some elements) :
    ∃ ty, attr = aggregate elements ty := by
  cases attr with
  | aggregate es ty => exact ⟨ty, by rw [← Option.some.inj h]⟩
  | integer => exact absurd h nofun
  | float => exact absurd h nofun
  | undef => exact absurd h nofun
  | poison => exact absurd h nofun
  | splat => exact absurd h nofun
  | other => exact absurd h nofun

theorem verifyElements_getElem? {elements : List (Attr F)} {i j : Nat} {element : Attr F}
    (h : verifyElements fl types ty i elements = true) (hj : elements[j]? = some element) :
    verify fl types element = true ∧ element.getType fl = types.elementType ty (i + j) := by
  induction elements generalizing i j with
  | nil => exact absurd hj nofun
  | cons e es ih =>
      rw [verifyElements, Bool.and_eq_true, Bool.and_eq_true, beq_iff_eq] at h
      obtain ⟨⟨hverify, htype⟩, hrest⟩ := h
      cases j with
      | zero =>
          obtain rfl := Option.some.inj hj
          exact ⟨hverify, htype⟩
      | succ j =>
          have hget := ih hrest hj
          rwa [Nat.add_right_comm, Nat.add_assoc] at hget

/-- A constant has the elements that its type says. -/
theorem verify_element {elements : List (Attr F)} {idx : Nat} {indices : List Nat}
    (h : verify fl types (aggregate elements ty) = true)
    (hpath : (types.indexedType ty (idx :: indices)).isSome = true) :
    ∃ element elemTy, elements[idx]? = some element ∧ verify fl types element = true ∧
      element.getType fl = some elemTy ∧ (types.indexedType elemTy indices).isSome = true := by
  rw [verify, Bool.and_eq_true, beq_iff_eq] at h
  obtain ⟨hnum, helements⟩ := h
  have hget : ∀ elemTy, idx < elements.length → types.elementType ty idx = some elemTy →
      (types.indexedType elemTy indices).isSome = true →
      ∃ element elemTy, elements[idx]? = some element ∧ verify fl types element = true ∧
        element.getType fl = some elemTy ∧
        (types.indexedType elemTy indices).isSome = true := by
    intro elemTy hidx htype hrest
    obtain ⟨hverify, hty⟩ := verifyElements_getElem? helements (List.getElem?_eq_getElem hidx)
    rw [Nat.zero_add] at hty
    exact ⟨elements[idx], elemTy, List.getElem?_eq_getElem hidx, hverify, hty.trans htype, hrest⟩
  cases ty with
  | other name =>
      cases htypes : types name with
      | none =>
          simp only [AggregateTypes.indexedType, htypes] at hpath
          exact absurd hpath Bool.false_ne_true
      | some aggr =>
          cases aggr with
          | array elemType size =>
              simp only [AggregateTypes.indexedType, htypes] at hpath
              simp only [AggregateTypes.numElements, htypes] at hnum
              have hsize : size = elements.length := Option.some.inj hnum
              by_cases hidx : idx < size
              · rw [if_pos hidx] at hpath
                exact hget elemType (hsize ▸ hidx)
                  (by simp only [AggregateTypes.elementType, htypes]) hpath
              · rw [if_neg hidx] at hpath
                exact absurd hpath Bool.false_ne_true
          | struct fields =>
              simp only [AggregateTypes.indexedType, htypes] at hpath
              simp only [AggregateTypes.numElements, htypes] at hnum
              have hsize : fields.length = elements.length := Option.some.inj hnum
              cases hfield : fields[idx]? with
              | none =>
                  rw [hfield] at hpath
                  exact absurd hpath Bool.false_ne_true
              | some elemTy =>
                  rw [hfield] at hpath
                  obtain ⟨hidx, _⟩ := List.getElem?_eq_some_iff.mp hfield
                  exact hget elemTy (hsize ▸ hidx)
                    (by simp only [AggregateTypes.elementType, htypes, hfield]) hpath
  | integer => exact absurd hpath Bool.false_ne_true
  | fp16 => exact absurd hpath Bool.false_ne_true
  | bf16 => exact absurd hpath Bool.false_ne_true
  | fp32 => exact absurd hpath Bool.false_ne_true
  | fp64 => exact absurd hpath Bool.false_ne_true
  | pointer => exact absurd hpath Bool.false_ne_true
  | vector => exact absurd hpath Bool.false_ne_true

/-- A path that is valid for the type leads to a part exactly if the aggregates on the way are
    written out. -/
theorem get_isSome_iff (h : verify fl types attr = true) (hty : attr.getType fl = some ty)
    (hpath : (types.indexedType ty p).isSome = true) :
    (get nodes attr p).isSome = true ↔ attr.WrittenOutAlong p := by
  constructor
  · rintro hsome q r rfl hr
    obtain ⟨a, ha⟩ := Option.isSome_iff_exists.mp hsome
    obtain ⟨m, hm⟩ : ∃ m, set nodes attr attr (q ++ r) = some m := set_isSome.mpr hsome
    obtain ⟨c, c', hc, hset, _⟩ := get_set_prefix hm
    obtain ⟨l, _, hl, _⟩ := children_set hset hr
    obtain ⟨ty', rfl⟩ := children_eq_some hl
    exact ⟨_, hc, rfl⟩
  · intro hout
    induction p generalizing attr ty with
    | nil => rfl
    | cons idx indices ih =>
        obtain ⟨a, ha, hwritten⟩ := hout [] (idx :: indices) rfl (List.cons_ne_nil _ _)
        obtain rfl := Option.some.inj ha
        cases attr with
        | aggregate elements ty' =>
            obtain rfl := Option.some.inj hty
            obtain ⟨element, elemTy, hget, hverify, htype, hrest⟩ := verify_element h hpath
            have hsome := ih hverify htype hrest (by
              rintro q r rfl hr
              obtain ⟨a, ha, hwritten⟩ := hout (idx :: q) r rfl hr
              obtain ⟨l, c, hl, hc, ha⟩ := get_cons_eq_some.mp ha
              obtain rfl := Option.some.inj hl
              rw [hget] at hc
              obtain rfl := Option.some.inj hc
              exact ⟨a, ha, hwritten⟩)
            obtain ⟨a, ha⟩ := Option.isSome_iff_exists.mp hsome
            rw [get_cons_eq_some.mpr ⟨elements, element, rfl, hget, ha⟩]
            rfl
        | integer => exact absurd hwritten nofun
        | float => exact absurd hwritten nofun
        | undef => exact absurd hwritten nofun
        | poison => exact absurd hwritten nofun
        | splat => exact absurd hwritten nofun
        | other => exact absurd hwritten nofun

/-- A replaced part keeps the type and the number of elements of the constant. -/
theorem shape_set (fl : APFloat F) {m : Attr F} (h : set nodes a v p = some m) (hp : p ≠ []) :
    m.getType fl = a.getType fl ∧
      (nodes.children m).map List.length = (nodes.children a).map List.length := by
  obtain ⟨l, l', hl, rfl, hl', hlen⟩ := children_set h hp
  refine ⟨?_, by rw [hl, hl', Option.map_some, Option.map_some, hlen]⟩
  obtain ⟨ty, rfl⟩ := children_eq_some hl
  rfl

end Attr

/-! ## Aggregates -/

open Attr

section Aggregates

variable {elements : List (Attr F)} {ty : Ty} {v : Attr F} {path : List Nat}

/-- Extraction reads the part at the path. -/
theorem extractFromAggregateAttr_eq (hpath : path ≠ []) :
    extractFromAggregateAttr elements path = get nodes (.aggregate elements ty) path := by
  induction path generalizing elements ty with
  | nil => exact absurd rfl hpath
  | cons idx rest ih =>
      have hchildren : nodes.children (aggregate elements ty) = some elements := rfl
      rw [extractFromAggregateAttr, get_cons, hchildren, Option.bind_some]
      cases elements[idx]? with
      | none => rfl
      | some element =>
          cases rest with
          | nil => rfl
          | cons idx' rest =>
              cases element with
              | aggregate nested ty' => exact ih (List.cons_ne_nil _ _)
              | integer => rfl
              | float => rfl
              | undef => rfl
              | poison => rfl
              | splat => rfl
              | other => rfl

/-- Insertion replaces the part at the path. -/
theorem insertIntoAggregateAttr_eq (hpath : path ≠ []) :
    (insertIntoAggregateAttr elements v path).map (.aggregate · ty) =
      set nodes (.aggregate elements ty) v path := by
  induction path generalizing elements ty with
  | nil => exact absurd rfl hpath
  | cons idx rest ih =>
      have hchildren : nodes.children (aggregate elements ty) = some elements := rfl
      rw [insertIntoAggregateAttr, set_cons, hchildren, Option.bind_some]
      cases elements[idx]? with
      | none => rfl
      | some element =>
          cases rest with
          | nil => rfl
          | cons idx' rest =>
              cases element with
              | aggregate nested ty' =>
                  have hrest : (insertIntoAggregateAttr nested v (idx' :: rest)).map
                      (aggregate · ty') = set nodes (aggregate nested ty') v (idx' :: rest) :=
                    ih (List.cons_ne_nil idx' rest)
                  simp only [List.isEmpty_cons, Bool.false_eq_true, if_false, Option.bind_some]
                  rw [← hrest]
                  cases insertIntoAggregateAttr nested v (idx' :: rest) with
                  | none => rfl
                  | some nested' => rfl
              | integer => rfl
              | float => rfl
              | undef => rfl
              | poison => rfl
              | splat => rfl
              | other => rfl

end Aggregates

section Folds

variable [DecidableEq F] {A : Awint} {fl : APFloat F} {a b v : Attr F} {path : List Nat}
  {op : Op F}

theorem checkFold_insertValue (hop : op.opcode = .insertValue path) (hpath : path ≠ [])
    (hv : v.isTyped = true) :
    op.checkFold A fl [some a, some v] = some [set nodes a v path] := by
  rw [Op.checkFold, hop]
  cases a with
  | aggregate elements ty =>
      rw [← insertIntoAggregateAttr_eq hpath]
      simp only [checkFoldInsertValue, hv, if_true]
  | integer => cases path with | nil => exact absurd rfl hpath | cons => rfl
  | float => cases path with | nil => exact absurd rfl hpath | cons => rfl
  | undef => cases path with | nil => exact absurd rfl hpath | cons => rfl
  | poison => cases path with | nil => exact absurd rfl hpath | cons => rfl
  | splat => cases path with | nil => exact absurd rfl hpath | cons => rfl
  | other => cases path with | nil => exact absurd rfl hpath | cons => rfl

/-- Extraction from a constant that is written out. -/
theorem checkFold_extractValue (hop : op.opcode = .extractValue path) (hpath : path ≠ [])
    (ha : a.isWrittenOut = true) :
    op.checkFold A fl [some a] = some [get nodes a path] := by
  cases a with
  | aggregate elements ty =>
      rw [Op.checkFold, hop, ← extractFromAggregateAttr_eq hpath]
      exact checkFoldPoisonPropagatingOp_eq rfl
  | integer => exact absurd ha nofun
  | float => exact absurd ha nofun
  | undef => exact absurd ha nofun
  | poison => exact absurd ha nofun
  | splat => exact absurd ha nofun
  | other => exact absurd ha nofun

/-- Extraction does not panic, whatever is known of its operand. -/
theorem checkFold_extractValue_ne_none (hop : op.opcode = .extractValue path)
    (known : Option (Attr F)) : op.checkFold A fl [known] ≠ none := by
  have hfold : ∃ r, checkFoldExtractValue path ([known].map forgetPoison) = some [r] := by
    cases hknown : forgetPoison known with
    | none => exact ⟨none, by rw [List.map_singleton, hknown]; rfl⟩
    | some attr =>
        rw [List.map_singleton, hknown]
        cases attr with
        | aggregate elements ty => exact ⟨_, rfl⟩
        | integer => exact ⟨none, rfl⟩
        | float => exact ⟨none, rfl⟩
        | undef => exact ⟨none, rfl⟩
        | poison => exact ⟨none, rfl⟩
        | splat => exact ⟨none, rfl⟩
        | other => exact ⟨none, rfl⟩
  obtain ⟨r, hr⟩ := hfold
  rw [Op.checkFold, hop]
  simp only [checkFoldPoisonPropagatingOp_eq hr]
  exact Option.some_ne_none _

/-- Insertion does not panic, whatever is known of its operands. -/
theorem checkFold_insertValue_ne_none (hop : op.opcode = .insertValue path)
    (known value : Option (Attr F)) (hv : ∀ v ∈ value, v.isTyped = true) :
    op.checkFold A fl [known, value] ≠ none := by
  rw [Op.checkFold, hop]
  show checkFoldInsertValue path [known, value] ≠ none
  cases known with
  | none => exact Option.some_ne_none _
  | some attr =>
      cases value with
      | none => cases attr <;> exact Option.some_ne_none _
      | some v =>
          cases attr with
          | aggregate elements ty =>
              simp only [checkFoldInsertValue, hv v rfl, if_true]
              exact Option.some_ne_none _
          | integer => exact Option.some_ne_none _
          | float => exact Option.some_ne_none _
          | undef => exact Option.some_ne_none _
          | poison => exact Option.some_ne_none _
          | splat => exact Option.some_ne_none _
          | other => exact Option.some_ne_none _

/-- Folding an insertion into an aggregate, and extractions from the result. -/
theorem insertValue_laws {types : AggregateTypes} {ty : Ty}
    (hverify : a.verify fl types = true) (hty : a.getType fl = some ty) (hv : v.isTyped = true)
    (hpath : (types.indexedType ty path).isSome = true) (hne : path ≠ [])
    (hop : op.opcode = .insertValue path) :
    ∃ r, op.checkFold A fl [some a, some v] = some [r] ∧
      (r.isSome = true ↔ a.WrittenOutAlong path) ∧ ∀ b, r = some b →
        (∀ extract : Op F, extract.opcode = .extractValue path →
          extract.checkFold A fl [some b] = some [some v]) ∧
        (∀ (extract : Op F) (q : List Nat), Diverge path q → extract.opcode = .extractValue q →
          extract.checkFold A fl [some b] = extract.checkFold A fl [some a]) ∧
        (∀ (extract insert : Op F) (q rest : List Nat), path = q ++ rest → q ≠ [] → rest ≠ [] →
          extract.opcode = .extractValue q → insert.opcode = .insertValue rest →
          ∃ c c', extract.checkFold A fl [some a] = some [some c] ∧
            insert.checkFold A fl [some c, some v] = some [some c'] ∧
            extract.checkFold A fl [some b] = some [some c']) ∧
        (∀ (q : List Nat) (c : Attr F), ¬ path <+: q → get nodes a q = some c →
          ∃ c', get nodes b q = some c' ∧ c'.getType fl = c.getType fl ∧
            (nodes.children c').map List.length = (nodes.children c).map List.length) := by
  refine ⟨set nodes a v path, checkFold_insertValue hop hne hv, ?_, ?_⟩
  · rw [← get_isSome_iff hverify hty hpath, ← set_isSome (v := v), Option.isSome_iff_exists]
  · intro b hb
    -- both constants are written out at the top
    obtain ⟨l, l', hl, hrebuild, hl', _⟩ := children_set hb hne
    obtain ⟨_, rfl⟩ := children_eq_some hl
    obtain ⟨_, rfl⟩ := children_eq_some hl'
    refine ⟨?_, ?_, ?_, ?_⟩
    · intro extract hextract
      rw [checkFold_extractValue hextract hne rfl, get_set_self hb]
    · intro extract q hq hextract
      have hq_ne : q ≠ [] := by
        obtain ⟨common, i, j, p', q', _, rfl, _⟩ := hq
        exact List.append_ne_nil_of_right_ne_nil _ (List.cons_ne_nil _ _)
      rw [checkFold_extractValue hextract hq_ne rfl, checkFold_extractValue hextract hq_ne rfl,
        get_set_of_diverge hb hq]
    · intro extract insert q rest hsplit hq hrest hextract hinsert
      rw [hsplit] at hb
      obtain ⟨c, c', hc, hset, hc'⟩ := get_set_prefix hb
      refine ⟨c, c', ?_, ?_, ?_⟩
      · rw [checkFold_extractValue hextract hq rfl, hc]
      · rw [checkFold_insertValue hinsert hrest hv, hset]
      · rw [checkFold_extractValue hextract hq rfl, hc']
    · intro q c hq hc
      obtain hpre | ⟨rest, hrest, rfl⟩ | hdiverge := prefix_or_diverge path q
      · exact absurd hpre hq
      · obtain ⟨d, c', hd, hset, hc'⟩ := get_set_prefix hb
        rw [hc] at hd
        obtain rfl := Option.some.inj hd
        obtain ⟨htype, hlen⟩ := shape_set fl hset hrest
        exact ⟨c', hc', htype, hlen⟩
      · exact ⟨c, (get_set_of_diverge hb hdiverge).trans hc, rfl, rfl⟩

end Folds

/-! ## Vectors -/

section Vectors

variable {vector b v : Attr F} {ty : Ty} {n i : Nat}

theorem fixedVectorElement_isSome (hshape : fixedVectorShape vector = some (ty, n)) (hi : i < n) :
    ∃ element, fixedVectorElement vector i = some element := by
  cases vector with
  | aggregate elements ty' =>
      have hn : elements.length = n := by
        cases ty' with
        | vector elemType num kind =>
            cases kind with
            | fixed => exact (Prod.mk.inj (Option.some.inj hshape)).2
            | scalable => exact absurd hshape nofun
        | integer => exact absurd hshape nofun
        | fp16 => exact absurd hshape nofun
        | bf16 => exact absurd hshape nofun
        | fp32 => exact absurd hshape nofun
        | fp64 => exact absurd hshape nofun
        | pointer => exact absurd hshape nofun
        | other => exact absurd hshape nofun
      exact ⟨elements[i], List.getElem?_eq_getElem (hn ▸ hi)⟩
  | splat element elemType num kind => exact ⟨element, rfl⟩
  | integer => exact absurd hshape nofun
  | float => exact absurd hshape nofun
  | undef => exact absurd hshape nofun
  | poison => exact absurd hshape nofun
  | other => exact absurd hshape nofun

theorem fixedVectorShape_type (fl : APFloat F) (hshape : fixedVectorShape vector = some (ty, n)) :
    vector.getType fl = some ty ∧ ∃ elemType num, ty = .vector elemType num .fixed := by
  cases vector with
  | aggregate elements ty' =>
      cases ty' with
      | vector elemType num kind =>
          cases kind with
          | fixed =>
              obtain ⟨rfl, _⟩ := Prod.mk.inj (Option.some.inj hshape)
              exact ⟨rfl, elemType, num, rfl⟩
          | scalable => exact absurd hshape nofun
      | integer => exact absurd hshape nofun
      | fp16 => exact absurd hshape nofun
      | bf16 => exact absurd hshape nofun
      | fp32 => exact absurd hshape nofun
      | fp64 => exact absurd hshape nofun
      | pointer => exact absurd hshape nofun
      | other => exact absurd hshape nofun
  | splat element elemType num kind =>
      cases kind with
      | fixed =>
          obtain ⟨rfl, _⟩ := Prod.mk.inj (Option.some.inj hshape)
          exact ⟨rfl, elemType, num, rfl⟩
      | scalable => exact absurd hshape nofun
  | integer => exact absurd hshape nofun
  | float => exact absurd hshape nofun
  | undef => exact absurd hshape nofun
  | poison => exact absurd hshape nofun
  | other => exact absurd hshape nofun

/-- Writing out the elements of a vector. -/
theorem fixedVectorElements_eq (hshape : fixedVectorShape vector = some (ty, n)) :
    ∃ elements, fixedVectorElements vector = some (some (elements, ty)) ∧ elements.length = n ∧
      ∀ i, i < n → elements[i]? = fixedVectorElement vector i := by
  have hmapM : ∀ l : List Nat, (∀ i ∈ l, i < n) → ∃ elements : List (Attr F),
      l.mapM (fixedVectorElement vector) = some elements ∧ elements.length = l.length ∧
        ∀ j i : Nat, l[j]? = some i → elements[j]? = fixedVectorElement vector i := by
    intro l hl
    induction l with
    | nil => exact ⟨[], rfl, rfl, fun j i h => absurd h nofun⟩
    | cons k l ih =>
        obtain ⟨element, helement⟩ :=
          fixedVectorElement_isSome hshape (hl k List.mem_cons_self)
        obtain ⟨elements, hmap, hlen, hget⟩ := ih (fun i hi => hl i (List.mem_cons_of_mem _ hi))
        refine ⟨element :: elements, ?_, congrArg Nat.succ hlen, ?_⟩
        · rw [List.mapM_cons, helement, hmap]
          rfl
        · intro j i hj
          cases j with
          | zero =>
              obtain rfl := Option.some.inj hj
              exact helement.symm
          | succ j => exact hget j i hj
  obtain ⟨elements, hmap, hlen, hget⟩ := hmapM (List.range n) (fun i hi => List.mem_range.mp hi)
  refine ⟨elements, ?_, by rw [hlen, List.length_range], fun i hi => ?_⟩
  · rw [fixedVectorElements, hshape]
    simp only [hmap, Option.bind_eq_bind, Option.bind_some]
  · exact hget i i (by rw [List.getElem?_range hi])

variable {A : Awint} {idx : IntegerAttr}

/-- Indices of up to 128 bits are read exactly. -/
theorem constantVectorIndex_eq
    (hU : ∀ {w : Nat} (x : BitVec w), w ≤ 128 → A.toU128 x = x.toNat)
    (hbw : idx.val.bw ≤ 128) (hn : n < 2 ^ 32) :
    constantVectorIndex A idx n =
      if idx.val.value.toNat < n then some idx.val.value.toNat else none := by
  have hread : idx.val.toU128 A = idx.val.value.toNat := hU idx.val.value hbw
  rw [constantVectorIndex, if_neg (Nat.not_lt.mpr hbw), hread]
  by_cases hlt : idx.val.value.toNat < n
  · rw [if_pos hlt, if_pos ⟨by omega, hlt⟩]
  · rw [if_neg hlt, if_neg (fun h => hlt h.2)]

theorem constantVectorIndex_lt (h : constantVectorIndex A idx n = some i) : i < n := by
  rw [constantVectorIndex] at h
  by_cases hbw : 128 < idx.val.bw
  · rw [if_pos hbw] at h
    exact absurd h nofun
  · rw [if_neg hbw] at h
    by_cases hlt : idx.val.toU128 A < 2 ^ 64 ∧ idx.val.toU128 A < n
    · rw [if_pos hlt] at h
      rw [← Option.some.inj h]
      exact hlt.2
    · rw [if_neg hlt] at h
      exact absurd h nofun

variable [DecidableEq F] {fl : APFloat F} {op : Op F}

omit [DecidableEq F] in
theorem isPoisonOperand_of_shape (hshape : fixedVectorShape vector = some (ty, n)) :
    isPoisonOperand (some vector) = false := by
  cases vector with
  | poison => exact absurd hshape nofun
  | aggregate => rfl
  | splat => rfl
  | integer => rfl
  | float => rfl
  | undef => rfl
  | other => rfl

theorem checkFold_extractElement (hop : op.opcode = .extractElement)
    (hshape : fixedVectorShape vector = some (ty, n)) :
    op.checkFold A fl [some vector, some (.integer idx)] =
      some [(constantVectorIndex A idx n).bind (fixedVectorElement vector)] := by
  have hfold : checkFoldExtractElement A ([some vector, some (.integer idx)].map forgetPoison) =
      some [(constantVectorIndex A idx n).bind (fixedVectorElement vector)] := by
    have hvector : forgetPoison (some vector) = some vector := by
      rw [forgetPoison, isPoisonOperand_of_shape hshape]
      rfl
    have hindex : forgetPoison (some (.integer idx : Attr F)) = some (.integer idx) := rfl
    rw [List.map_cons, List.map_singleton, hvector, hindex, checkFoldExtractElement]
    simp only [hshape]
    cases hi : constantVectorIndex A idx n with
    | none => rfl
    | some i =>
        obtain ⟨element, helement⟩ :=
          fixedVectorElement_isSome hshape (constantVectorIndex_lt hi)
        simp only [helement, Option.bind_eq_bind, Option.bind_some]
  have hany : [some vector, some (.integer idx : Attr F)].any isPoisonOperand = false := by
    rw [List.any_cons, isPoisonOperand_of_shape hshape]
    rfl
  rw [Op.checkFold, hop]
  show checkFoldPoisonPropagatingOp _ _ _ = _
  rw [checkFoldPoisonPropagatingOp_eq hfold, hany]
  rfl

theorem checkFold_insertElement {elements : List (Attr F)} (hop : op.opcode = .insertElement)
    (helements : fixedVectorElements vector = some (some (elements, ty)))
    (hv : v.isTyped = true) :
    op.checkFold A fl [some vector, some v, some (.integer idx)] =
      some [(constantVectorIndex A idx elements.length).map
        (fun i => .aggregate (elements.set i v) ty)] := by
  rw [Op.checkFold, hop]
  show checkFoldInsertElement A _ = _
  simp only [checkFoldInsertElement, hv, if_true, helements, Option.bind_eq_bind,
    Option.bind_some]
  cases constantVectorIndex A idx elements.length with
  | none => rfl
  | some i => rfl

/-- Folding an insertion into a vector, and extractions from the result. -/
theorem insertElement_laws
    (hU : ∀ {w : Nat} (x : BitVec w), w ≤ 128 → A.toU128 x = x.toNat)
    (hshape : fixedVectorShape vector = some (ty, n)) (hn : n < 2 ^ 32) (hv : v.isTyped = true)
    (hbw : idx.val.bw ≤ 128) (hop : op.opcode = .insertElement) :
    ∃ r, op.checkFold A fl [some vector, some v, some (.integer idx)] = some [r] ∧
      (r.isSome = true ↔ idx.val.value.toNat < n) ∧ ∀ b, r = some b →
        (∀ (extract : Op F) (idx' : IntegerAttr), extract.opcode = .extractElement →
          idx'.val.bw ≤ 128 → idx'.val.value.toNat = idx.val.value.toNat →
          extract.checkFold A fl [some b, some (.integer idx')] = some [some v]) ∧
        (∀ (extract : Op F) (idx' : IntegerAttr), extract.opcode = .extractElement →
          idx'.val.bw ≤ 128 → idx'.val.value.toNat ≠ idx.val.value.toNat →
          extract.checkFold A fl [some b, some (.integer idx')] =
            extract.checkFold A fl [some vector, some (.integer idx')]) ∧
        fixedVectorShape b = some (ty, n) ∧ b.getType fl = vector.getType fl := by
  obtain ⟨elements, helements, hlen, hget⟩ := fixedVectorElements_eq hshape
  have hindex : ∀ idx' : IntegerAttr, idx'.val.bw ≤ 128 → n < 2 ^ 32 →
      constantVectorIndex A idx' n =
        if idx'.val.value.toNat < n then some idx'.val.value.toNat else none :=
    fun _ => constantVectorIndex_eq hU
  refine ⟨_, checkFold_insertElement hop helements hv, ?_, ?_⟩
  · rw [Option.isSome_map, hlen, hindex idx hbw hn]
    by_cases hlt : idx.val.value.toNat < n
    · rw [if_pos hlt]
      exact ⟨fun _ => hlt, fun _ => rfl⟩
    · rw [if_neg hlt]
      exact ⟨fun h => absurd h Bool.false_ne_true, fun h => absurd h hlt⟩
  · intro b hb
    rw [hlen, hindex idx hbw hn] at hb
    by_cases hlt : idx.val.value.toNat < n
    · rw [if_pos hlt] at hb
      obtain rfl := Option.some.inj hb
      obtain ⟨htype, elemType, num, rfl⟩ := fixedVectorShape_type fl hshape
      have hshape' : fixedVectorShape
          (.aggregate (elements.set idx.val.value.toNat v) (.vector elemType num .fixed)) =
          some (.vector elemType num .fixed, n) := by
        rw [fixedVectorShape, List.length_set, hlen]
      refine ⟨?_, ?_, hshape', htype.symm⟩
      · intro extract idx' hextract hbw' heq
        rw [checkFold_extractElement hextract hshape', hindex idx' hbw' hn, heq, if_pos hlt,
          Option.bind_some, fixedVectorElement, List.getElem?_set_self (hlen ▸ hlt)]
      · intro extract idx' hextract hbw' hdiff
        rw [checkFold_extractElement hextract hshape', checkFold_extractElement hextract hshape,
          hindex idx' hbw' hn]
        by_cases hlt' : idx'.val.value.toNat < n
        · rw [if_pos hlt', Option.bind_some, Option.bind_some, fixedVectorElement,
            List.getElem?_set_ne (Ne.symm hdiff), hget _ hlt']
        · rw [if_neg hlt']
          rfl
    · rw [if_neg hlt] at hb
      exact absurd hb nofun

/-- Extraction does not panic, whatever is known of its operands. -/
theorem checkFold_extractElement_ne_none (hop : op.opcode = .extractElement)
    (known index : Option (Attr F)) : op.checkFold A fl [known, index] ≠ none := by
  have hfold : ∃ r, checkFoldExtractElement A ([known, index].map forgetPoison) = some [r] := by
    rw [List.map_cons, List.map_singleton]
    cases forgetPoison known with
    | none => exact ⟨none, rfl⟩
    | some vector =>
        cases forgetPoison index with
        | none => exact ⟨none, rfl⟩
        | some index =>
            cases index with
            | integer idx =>
                rw [checkFoldExtractElement]
                cases hshape : fixedVectorShape vector with
                | none => exact ⟨none, rfl⟩
                | some shape =>
                    simp only
                    cases hi : constantVectorIndex A idx shape.2 with
                    | none => exact ⟨none, rfl⟩
                    | some i =>
                        obtain ⟨element, helement⟩ :=
                          fixedVectorElement_isSome hshape (constantVectorIndex_lt hi)
                        refine ⟨some element, ?_⟩
                        simp only [helement, Option.bind_eq_bind, Option.bind_some]
            | float => exact ⟨none, rfl⟩
            | undef => exact ⟨none, rfl⟩
            | poison => exact ⟨none, rfl⟩
            | aggregate => exact ⟨none, rfl⟩
            | splat => exact ⟨none, rfl⟩
            | other => exact ⟨none, rfl⟩
  obtain ⟨r, hr⟩ := hfold
  rw [Op.checkFold, hop]
  show checkFoldPoisonPropagatingOp _ _ _ ≠ none
  rw [checkFoldPoisonPropagatingOp_eq hr]
  exact Option.some_ne_none _

/-- Insertion does not panic, whatever is known of its operands. -/
theorem checkFold_insertElement_ne_none (hop : op.opcode = .insertElement)
    (known value index : Option (Attr F)) (hv : ∀ v ∈ value, v.isTyped = true) :
    op.checkFold A fl [known, value, index] ≠ none := by
  rw [Op.checkFold, hop]
  show checkFoldInsertElement A _ ≠ none
  cases known with
  | none => exact Option.some_ne_none _
  | some vector =>
      cases value with
      | none => exact Option.some_ne_none _
      | some v =>
          cases index with
          | none => exact Option.some_ne_none _
          | some index =>
              simp only [checkFoldInsertElement, hv v rfl, if_true]
              cases index with
              | integer idx =>
                  cases hshape : fixedVectorShape vector with
                  | none =>
                      simp only [fixedVectorElements, hshape, Option.bind_eq_bind,
                        Option.bind_some]
                      exact Option.some_ne_none _
                  | some shape =>
                      obtain ⟨elements, helements, _⟩ := fixedVectorElements_eq hshape
                      simp only [helements, Option.bind_eq_bind, Option.bind_some]
                      cases constantVectorIndex A idx elements.length with
                      | none => exact Option.some_ne_none _
                      | some i => exact Option.some_ne_none _
              | float => exact Option.some_ne_none _
              | undef => exact Option.some_ne_none _
              | poison => exact Option.some_ne_none _
              | aggregate => exact Option.some_ne_none _
              | splat => exact Option.some_ne_none _
              | other => exact Option.some_ne_none _

end Vectors

/-! ## The array laws -/

/-- Constants fold like arrays: an insertion folds exactly if the aggregates on the way to the
    last index are written out, or for a vector the index is in range.  What was inserted is
    then extracted from the same place, other places are as before, and types and element
    counts are kept.  No fold panics. -/
theorem constantArrays_laws [DecidableEq F] {A : Awint} {fl : APFloat F}
    (hU : ∀ {w : Nat} (x : BitVec w), w ≤ 128 → A.toU128 x = x.toNat) :
    (∀ (types : AggregateTypes) (a v : Attr F) (ty : Ty) (path : List Nat) (op : Op F),
      a.verify fl types = true → a.getType fl = some ty → v.isTyped = true →
      (types.indexedType ty path).isSome = true → path ≠ [] → op.opcode = .insertValue path →
      ∃ r, op.checkFold A fl [some a, some v] = some [r] ∧
        (r.isSome = true ↔ a.WrittenOutAlong path) ∧ ∀ b, r = some b →
          (∀ extract : Op F, extract.opcode = .extractValue path →
            extract.checkFold A fl [some b] = some [some v]) ∧
          (∀ (extract : Op F) (q : List Nat), Diverge path q → extract.opcode = .extractValue q →
            extract.checkFold A fl [some b] = extract.checkFold A fl [some a]) ∧
          (∀ (extract insert : Op F) (q rest : List Nat), path = q ++ rest → q ≠ [] → rest ≠ [] →
            extract.opcode = .extractValue q → insert.opcode = .insertValue rest →
            ∃ c c', extract.checkFold A fl [some a] = some [some c] ∧
              insert.checkFold A fl [some c, some v] = some [some c'] ∧
              extract.checkFold A fl [some b] = some [some c']) ∧
          (∀ (q : List Nat) (c : Attr F), ¬ path <+: q → get nodes a q = some c →
            ∃ c', get nodes b q = some c' ∧ c'.getType fl = c.getType fl ∧
              (nodes.children c').map List.length = (nodes.children c).map List.length)) ∧
    (∀ (vector v : Attr F) (ty : Ty) (n : Nat) (idx : IntegerAttr) (op : Op F),
      fixedVectorShape vector = some (ty, n) → n < 2 ^ 32 → v.isTyped = true →
      idx.val.bw ≤ 128 → op.opcode = .insertElement →
      ∃ r, op.checkFold A fl [some vector, some v, some (.integer idx)] = some [r] ∧
        (r.isSome = true ↔ idx.val.value.toNat < n) ∧ ∀ b, r = some b →
          (∀ (extract : Op F) (idx' : IntegerAttr), extract.opcode = .extractElement →
            idx'.val.bw ≤ 128 → idx'.val.value.toNat = idx.val.value.toNat →
            extract.checkFold A fl [some b, some (.integer idx')] = some [some v]) ∧
          (∀ (extract : Op F) (idx' : IntegerAttr), extract.opcode = .extractElement →
            idx'.val.bw ≤ 128 → idx'.val.value.toNat ≠ idx.val.value.toNat →
            extract.checkFold A fl [some b, some (.integer idx')] =
              extract.checkFold A fl [some vector, some (.integer idx')]) ∧
          fixedVectorShape b = some (ty, n) ∧ b.getType fl = vector.getType fl) ∧
    (∀ (op : Op F) (path : List Nat) (known value index : Option (Attr F)),
      (∀ v ∈ value, v.isTyped = true) →
      (op.opcode = .insertValue path → op.checkFold A fl [known, value] ≠ none) ∧
      (op.opcode = .extractValue path → op.checkFold A fl [known] ≠ none) ∧
      (op.opcode = .insertElement → op.checkFold A fl [known, value, index] ≠ none) ∧
      (op.opcode = .extractElement → op.checkFold A fl [known, index] ≠ none)) := by
  refine ⟨?_, ?_, ?_⟩
  · intro types a v ty path op hverify hty hv hpath hne hop
    exact insertValue_laws hverify hty hv hpath hne hop
  · intro vector v ty n idx op hshape hn hv hbw hop
    exact insertElement_laws hU hshape hn hv hbw hop
  · intro op path known value index hv
    exact ⟨fun hop => checkFold_insertValue_ne_none hop known value hv,
      fun hop => checkFold_extractValue_ne_none hop known,
      fun hop => checkFold_insertElement_ne_none hop known value index hv,
      fun hop => checkFold_extractElement_ne_none hop known index⟩

/-- Indices of up to 128 bits are read exactly by the functions on bit vectors. -/
theorem toU128_bitVec {w : Nat} (x : BitVec w) (h : w ≤ 128) : Awint.bitVec.toU128 x = x.toNat :=
  Nat.mod_eq_of_lt (Nat.lt_of_lt_of_le x.isLt (Nat.pow_le_pow_right (by decide) h))

/-- A struct of two pointers in an array, and a splat of which one element is replaced. -/
theorem constantArrays_laws_nested :
    (∃ r, (⟨.insertValue [0, 1], [], .pointer⟩ : Op Unit).checkFold Awint.bitVec APFloat.unit
        [some (.aggregate [.aggregate [.undef .pointer, .poison .pointer] (.other "pair")]
          (.other "array")), some (.undef .pointer)] = some [r] ∧
      (r.isSome = true ↔ WrittenOutAlong (F := Unit) (.aggregate [.aggregate
        [.undef .pointer, .poison .pointer] (.other "pair")] (.other "array")) [0, 1])) ∧
    (∃ r, (⟨.insertElement, [], .pointer⟩ : Op Unit).checkFold Awint.bitVec APFloat.unit
        [some (.splat (.poison .pointer) .pointer 4 .fixed), some (.undef .pointer),
          some (.integer ⟨⟨8, .signless, by decide⟩, ⟨8, 3, by decide⟩⟩)] = some [r] ∧
      (r.isSome = true ↔ (3 : BitVec 8).toNat < 4)) := by
  obtain ⟨haggregates, hvectors, _⟩ :=
    @constantArrays_laws Unit _ Awint.bitVec APFloat.unit toU128_bitVec
  constructor
  · obtain ⟨r, hr, hiff, _⟩ := haggregates
      (fun name => if name = "array" then some (.array (.other "pair") 1)
        else some (.struct [.pointer, .pointer]))
      (.aggregate [.aggregate [.undef .pointer, .poison .pointer] (.other "pair")]
        (.other "array")) (.undef .pointer) (.other "array") [0, 1]
      ⟨.insertValue [0, 1], [], .pointer⟩ (by decide) rfl rfl (by decide) (by decide) rfl
    exact ⟨r, hr, hiff⟩
  · obtain ⟨r, hr, hiff, _⟩ := hvectors (.splat (.poison .pointer) .pointer 4 .fixed)
      (.undef .pointer) (.vector .pointer 4 .fixed) 4 ⟨⟨8, .signless, by decide⟩, ⟨8, 3, by decide⟩⟩
      ⟨.insertElement, [], .pointer⟩ rfl (by decide) rfl (by decide) rfl
    exact ⟨r, hr, hiff⟩

end Pliron.LLVM
