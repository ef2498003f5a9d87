/-
  Pliron.IR.GivenNamesCorrect

  A value keeps the name it was last given.

  `NamesOf m` says that the names kept by position are those of a map `m` from values to
  names.  Each mutation keeps it, with the same map when it only shifts values, and with the
  entry of one value changed when it names that value.
-/

import Pliron.IR.DefUseRuns
import Pliron.IR.GivenNames

namespace Pliron

open Pliron.Lib Function

/-! ## The names in an attribute dictionary -/

/-- The names kept in an attribute dictionary. -/
def entryNames (entry : Option GivenNamesAttr) : List (Option Identifier) :=
  (entry.map GivenNamesAttr.names).getD []

theorem getNameFromAttrMap_eq (entry : Option GivenNamesAttr) (idx : Nat) :
    getNameFromAttrMap entry idx = labelAt (entryNames entry) idx := by
  cases entry with
  | none => rfl
  | some givenNames => rfl

theorem labelAt_of_unset {givenNames : GivenNamesAttr} (h : givenNames.areAllNamesUnset = true)
    (i : Nat) : labelAt givenNames.names i = none := by
  rw [labelAt]
  cases hi : givenNames.names[i]? with
  | none => rfl
  | some name =>
      rw [GivenNamesAttr.areAllNamesUnset, List.all_eq_true] at h
      exact Option.isNone_iff_eq_none.mp (h name (List.mem_of_getElem? hi))

/-- The names after a write, when writing no name to no names writes nothing. -/
theorem entryNames_write (write : GivenNamesAttr → Nat → Option Identifier → GivenNamesAttr)
    (entry : Option GivenNamesAttr) (idx : Nat) (name : Option Identifier)
    (hwrite : ∀ i, labelAt (write {} idx none).names i = none) :
    (entryNames (writeNameInAttrMap write entry idx name)).length ≤
        (write (entry.getD {}) idx name).names.length ∧
      ∀ i, labelAt (entryNames (writeNameInAttrMap write entry idx name)) i =
        labelAt (write (entry.getD {}) idx name).names i := by
  cases entry with
  | none =>
      cases name with
      | none => exact ⟨Nat.zero_le _, fun i => (hwrite i).symm⟩
      | some name => exact ⟨le_rfl, fun _ => rfl⟩
  | some givenNames =>
      rw [writeNameInAttrMap]
      by_cases hunset : (name.isNone && (write givenNames idx name).areAllNamesUnset) = true
      · rw [if_pos hunset]
        rw [Bool.and_eq_true] at hunset
        exact ⟨Nat.zero_le _, fun i => (labelAt_of_unset hunset.2 i).symm⟩
      · rw [if_neg hunset]
        exact ⟨le_rfl, fun _ => rfl⟩

theorem entryNames_remove (entry : Option GivenNamesAttr) (idx : Nat) :
    (entryNames (removeNameFromAttrMap entry idx)).length ≤
        ((entryNames entry).eraseIdx idx).length ∧
      ∀ i, labelAt (entryNames (removeNameFromAttrMap entry idx)) i =
        labelAt ((entryNames entry).eraseIdx idx) i := by
  cases entry with
  | none => exact ⟨Nat.zero_le _, fun _ => rfl⟩
  | some givenNames =>
      have hnames : (givenNames.removeName idx).names = givenNames.names.eraseIdx idx := by
        rw [GivenNamesAttr.removeName]
        split
        · rfl
        · rename_i hidx
          rw [List.eraseIdx_of_length_le (not_lt.mp hidx)]
      rw [removeNameFromAttrMap]
      by_cases hunset : (givenNames.removeName idx).areAllNamesUnset = true
      · rw [if_pos hunset]
        refine ⟨Nat.zero_le _, fun i => ?_⟩
        show none = labelAt (givenNames.names.eraseIdx idx) i
        rw [← hnames, labelAt_of_unset hunset]
      · rw [if_neg hunset]
        show (givenNames.removeName idx).names.length ≤ (givenNames.names.eraseIdx idx).length ∧
          ∀ i, labelAt (givenNames.removeName idx).names i =
            labelAt (givenNames.names.eraseIdx idx) i
        rw [hnames]
        exact ⟨le_rfl, fun _ => rfl⟩

section Entries

variable {vals : List Value} {entry : Option GivenNamesAttr} {m : Value → Option Identifier}
  {v : Value} {idx : Nat}

theorem labels_setName (h : Labels vals (entryNames entry) m) (hnodup : vals.Nodup)
    (hv : vals[idx]? = some v) (name : Option Identifier) :
    Labels vals (entryNames (setNameInAttrMap entry idx name)) (update m v name) := by
  have hwrite : ∀ i, labelAt (GivenNamesAttr.setName {} idx none).names i = none := by
    intro i
    have hlt : idx < (growTo ([] : List (Option Identifier)) (idx + 1)).length := by
      rw [length_growTo]
      omega
    show labelAt ((growTo [] (idx + 1)).set idx none) i = none
    rw [labelAt_set hlt, labelAt_growTo, labelAt_nil, ite_self]
  have hnames : (GivenNamesAttr.setName (entry.getD {}) idx name).names =
      (growTo (entryNames entry) (idx + 1)).set idx name := by
    cases entry with
    | none => rfl
    | some givenNames => rfl
  obtain ⟨hlen, heq⟩ := entryNames_write GivenNamesAttr.setName entry idx name hwrite
  have hset := h.set hnodup hv name
  rw [hnames] at hlen heq
  exact hset.congr (hlen.trans hset.length_le) heq

theorem labels_insertName (h : Labels vals (entryNames entry) m) (hidx : idx ≤ vals.length)
    (hv : m v = none) :
    Labels (vals.insertIdx idx v) (entryNames (insertNameInAttrMap entry idx none)) m := by
  have hwrite : ∀ i, labelAt (GivenNamesAttr.insertName {} idx none).names i = none := by
    intro i
    have hle : idx ≤ (growTo ([] : List (Option Identifier)) idx).length := by
      rw [length_growTo]
      omega
    show labelAt ((growTo [] idx).insertIdx idx none) i = none
    rw [labelAt_insertIdx hle, labelAt_growTo, labelAt_growTo, labelAt_nil, labelAt_nil, ite_self,
      ite_self]
  have hnames : (GivenNamesAttr.insertName (entry.getD {}) idx none).names =
      (growTo (entryNames entry) idx).insertIdx idx none := by
    cases entry with
    | none => rfl
    | some givenNames => rfl
  obtain ⟨hlen, heq⟩ := entryNames_write GivenNamesAttr.insertName entry idx none hwrite
  have hinsert := h.insert hidx hv
  rw [hnames] at hlen heq
  exact hinsert.congr (hlen.trans hinsert.length_le) heq

theorem labels_removeName (h : Labels vals (entryNames entry) m) (idx : Nat) :
    Labels (vals.eraseIdx idx) (entryNames (removeNameFromAttrMap entry idx)) m := by
  obtain ⟨hlen, heq⟩ := entryNames_remove entry idx
  have herase := h.erase idx
  exact herase.congr (hlen.trans herase.length_le) heq

end Entries

/-! ## Mutations -/

/-- What changes or names the results of operations and the arguments of blocks. -/
inductive NameMutation where
  | pushResult (this : OpPtr) (ty : TypeHandle)
  | insertResult (this : OpPtr) (resIdx : Nat) (ty : TypeHandle)
  | removeResult (this : OpPtr) (resIdx : Nat)
  | popResult (this : OpPtr)
  | pushArgument (block : BlockPtr) (ty : TypeHandle)
  | insertArgument (block : BlockPtr) (argIdx : Nat) (ty : TypeHandle)
  | removeArgument (block : BlockPtr) (argIdx : Nat)
  | popArgument (block : BlockPtr)
  | setName (value : Value) (name : Option Identifier)
  | setOperationResultName (op : OpPtr) (resIdx : Nat) (name : Option Identifier)
  | setBlockArgName (block : BlockPtr) (argIdx : Nat) (name : Option Identifier)

namespace NamedContext

variable (s : NamedContext)

/-- The values of an entity. -/
def values (entity : DefiningEntity) : List Value :=
  ((s.ctx.valueDefs entity).getD []).map (fun d => ⟨d.valUid, entity⟩)

/-- Apply a mutation. -/
def apply : NameMutation → Option NamedContext
  | .pushResult this ty => s.pushResult this ty
  | .insertResult this resIdx ty => s.insertResult this resIdx ty
  | .removeResult this resIdx => s.removeResult this resIdx
  | .popResult this => s.popResult this
  | .pushArgument block ty => s.pushArgument block ty
  | .insertArgument block argIdx ty => s.insertArgument block argIdx ty
  | .removeArgument block argIdx => s.removeArgument block argIdx
  | .popArgument block => s.popArgument block
  | .setName value name => s.setName value name
  | .setOperationResultName op resIdx name => s.setOperationResultName op resIdx name
  | .setBlockArgName block argIdx name => s.setBlockArgName block argIdx name

/-- The value that a mutation names, with its name. -/
def gives : NameMutation → List (Value × Option Identifier)
  | .setName value name => [(value, name)]
  | .setOperationResultName op resIdx name =>
      ((s.values (.op op))[resIdx]?.map (fun value => (value, name))).toList
  | .setBlockArgName block argIdx name =>
      ((s.values (.block block))[argIdx]?.map (fun value => (value, name))).toList
  | _ => []

/-- Apply mutations one after the other, and list the names given. -/
def run : List NameMutation → NamedContext →
    Option (NamedContext × List (Value × Option Identifier))
  | [], s => some (s, [])
  | mutation :: rest, s => do
      let s' ← s.apply mutation
      let (last, given) ← run rest s'
      some (last, s.gives mutation ++ given)

/-- The name last given to a value. -/
def lastGiven (given : List (Value × Option Identifier)) (value : Value) :
    Option (Option Identifier) :=
  ((given.filter (fun g => g.1 = value)).getLast?).map Prod.snd

/-- No attribute names more values than there are. -/
def NamesFit : Prop :=
  ∀ entity l givenNames, s.ctx.valueDefs entity = some l →
    s.givenNames entity = some givenNames → givenNames.names.length ≤ l.length

/-- The names kept are those of `m`. -/
structure NamesOf (m : Value → Option Identifier) : Prop where
  defUse : s.ctx.DefUse
  labels : ∀ entity, s.ctx.valueDefs entity ≠ none →
    Labels (s.values entity) (entryNames (s.givenNames entity)) m
  new : ∀ v, s.ctx.valueCounter ≤ v.valUid → m v = none

/-- The names after the given ones. -/
def renamed (m : Value → Option Identifier) (given : List (Value × Option Identifier)) :
    Value → Option Identifier :=
  given.foldl (fun m g => update m g.1 g.2) m

variable {s} {s' : NamedContext} {m : Value → Option Identifier} {entity : DefiningEntity}
  {l l' : List ValueDef} {v : Value}

theorem values_eq (hl : s.ctx.valueDefs entity = some l) :
    s.values entity = l.map (fun d => ⟨d.valUid, entity⟩) := by
  rw [values, hl]
  rfl

theorem values_nodup (h : s.NamesOf m) (hl : s.ctx.valueDefs entity = some l) :
    (s.values entity).Nodup := by
  have hnodup := h.defUse.vals_nodup entity l hl
  have hmap : (s.values entity).map Value.valUid = l.map ValueDef.valUid := by
    rw [values_eq hl, List.map_map]
    rfl
  rw [← hmap] at hnodup
  exact hnodup.of_map

theorem definingEntity_of_mem (hv : v ∈ s.values entity) : v.definingEntity = entity := by
  obtain ⟨d, _, rfl⟩ := List.mem_map.mp hv
  rfl

/-- The index of a value is its position among the values of its entity. -/
theorem findIndex_eq_some {idx : Nat} (h : s.findIndex v = some idx) :
    (s.values v.definingEntity)[idx]? = some v := by
  obtain ⟨l, hl, hfind⟩ := Option.bind_eq_some_iff.mp h
  obtain ⟨hidx, hd, _⟩ := List.findIdx?_eq_some_iff_getElem.mp hfind
  rw [values_eq hl, List.getElem?_map, List.getElem?_eq_getElem hidx]
  rw [decide_eq_true_iff] at hd
  rw [Option.map_some, hd]

theorem givenName_eq {idx : Nat} (hidx : s.findIndex v = some idx) :
    s.givenName v = some (labelAt (entryNames (s.givenNames v.definingEntity)) idx) := by
  have hread : s.givenName v =
      some (getNameFromAttrMap (s.givenNames v.definingEntity) idx) := by
    rw [givenName, hidx, Option.bind_eq_bind, Option.bind_some]
    cases v.definingEntity with
    | op op => rfl
    | block block => rfl
  rw [hread, getNameFromAttrMap_eq]

/-- A value is reported under its name. -/
theorem NamesOf.givenName_eq (h : s.NamesOf m) (hv : s.findIndex v ≠ none) :
    s.givenName v = some (m v) := by
  obtain ⟨idx, hidx⟩ := Option.ne_none_iff_exists'.mp hv
  have hdefs : s.ctx.valueDefs v.definingEntity ≠ none := by
    obtain ⟨l, hl, _⟩ := Option.bind_eq_some_iff.mp hidx
    rw [hl]
    exact Option.some_ne_none l
  rw [NamedContext.givenName_eq hidx,
    (h.labels v.definingEntity hdefs).labelAt_eq idx v (findIndex_eq_some hidx)]

/-! ## One mutation -/

/-- What writing the values of an entity does to the values. -/
theorem valueDefs_of_set {ctx ctx' : Context} {n : Nat} (hl : ctx.valueDefs entity = some l)
    (hset : Context.setValueDefs { ctx with valueCounter := n } entity l' = some ctx') :
    ctx'.valueDefs = update ctx.valueDefs entity (some l') ∧ ctx'.valueCounter = n := by
  have hcounted : Context.valueDefs { ctx with valueCounter := n } entity = some l := hl
  obtain ⟨ctx₁, hctx₁, hvals, _, hsame⟩ := Context.setValueDefs_spec l' hcounted
  obtain rfl : ctx₁ = ctx' := Option.some.inj (hctx₁.symm.trans hset)
  exact ⟨hvals, hsame.valueCounter⟩

/-- The values and the names of one entity change, and the values keep their names. -/
theorem NamesOf.change (h : s.NamesOf m) (hdefUse : s'.ctx.DefUse)
    (hvals : s'.ctx.valueDefs = update s.ctx.valueDefs entity (some l'))
    (hcounter : s.ctx.valueCounter ≤ s'.ctx.valueCounter)
    (hnames : ∀ x, x ≠ entity → s'.givenNames x = s.givenNames x)
    (hlabels : Labels (l'.map (fun d => (⟨d.valUid, entity⟩ : Value)))
      (entryNames (s'.givenNames entity)) m) : s'.NamesOf m where
  defUse := hdefUse
  labels x hx := by
    by_cases heq : x = entity
    · subst heq
      have hl' : s'.ctx.valueDefs x = some l' := by rw [hvals, update_self]
      rw [values_eq hl']
      exact hlabels
    · have hsame : s'.ctx.valueDefs x = s.ctx.valueDefs x := by rw [hvals, update_of_ne heq]
      have hvalues : s'.values x = s.values x := by rw [values, values, hsame]
      rw [hvalues, hnames x heq]
      exact h.labels x (hsame ▸ hx)
  new v hv := h.new v (hcounter.trans hv)

theorem NamesOf.labels_of (h : s.NamesOf m) (hl : s.ctx.valueDefs entity = some l) :
    Labels (l.map (fun d => (⟨d.valUid, entity⟩ : Value))) (entryNames (s.givenNames entity)) m := by
  have hlabels := h.labels entity (by rw [hl]; exact Option.some_ne_none l)
  rwa [values_eq hl] at hlabels

theorem NamesOf.pushValue {ty : TypeHandle} (h : s.NamesOf m)
    (hpush : s.pushValue entity ty = some s') : s'.NamesOf m := by
  obtain ⟨ctx, hctx, hs'⟩ := Option.bind_eq_some_iff.mp hpush
  obtain rfl := Option.some.inj hs'
  obtain ⟨l, hl, hset⟩ := Option.bind_eq_some_iff.mp hctx
  obtain ⟨hvals, hcounter⟩ := valueDefs_of_set hl hset
  refine h.change (Context.pushValue_defUse h.defUse hctx) hvals ?_ (fun _ _ => rfl) ?_
  · show s.ctx.valueCounter ≤ ctx.valueCounter
    omega
  · rw [List.map_append]
    exact (h.labels_of hl).push (h.new _ le_rfl)

theorem NamesOf.insertValue {idx : Nat} {ty : TypeHandle} (h : s.NamesOf m)
    (hins : s.insertValue entity idx ty = some s') : s'.NamesOf m := by
  obtain ⟨ctx, hctx, hins⟩ := Option.bind_eq_some_iff.mp hins
  obtain ⟨_, _, hins⟩ := Option.bind_eq_some_iff.mp hins
  obtain ⟨_, _, hs'⟩ := Option.bind_eq_some_iff.mp hins
  obtain rfl := Option.some.inj hs'
  obtain ⟨l, hl, hset⟩ := Option.bind_eq_some_iff.mp hctx
  obtain ⟨_, hidx, hset⟩ := Option.bind_eq_some_iff.mp hset
  rw [Option.guard_eq_some'] at hidx
  obtain ⟨hvals, hcounter⟩ := valueDefs_of_set hl hset
  refine h.change (Context.insertValue_defUse h.defUse hctx) hvals ?_
    (fun x hx => update_of_ne hx _ _) ?_
  · show s.ctx.valueCounter ≤ ctx.valueCounter
    omega
  · have hle : idx ≤ (l.map (fun d => (⟨d.valUid, entity⟩ : Value))).length := by
      rwa [List.length_map]
    have hnames := labels_insertName (h.labels_of hl) hle
      (h.new ⟨s.ctx.valueCounter, entity⟩ le_rfl)
    rw [List.map_insertIdx]
    show Labels _ (entryNames (update s.givenNames entity _ entity)) m
    rw [update_self]
    exact hnames

theorem NamesOf.removeValue {idx : Nat} (h : s.NamesOf m)
    (hrem : s.removeValue entity idx = some s') : s'.NamesOf m := by
  obtain ⟨ctx, hctx, hrem⟩ := Option.bind_eq_some_iff.mp hrem
  obtain ⟨_, hnames, hs'⟩ := Option.bind_eq_some_iff.mp hrem
  obtain ⟨_, _, hnames⟩ := Option.bind_eq_some_iff.mp hnames
  obtain ⟨_, _, hnames⟩ := Option.bind_eq_some_iff.mp hnames
  obtain rfl := Option.some.inj hnames
  obtain rfl := Option.some.inj hs'
  have hdefUse := Context.removeValue_defUse h.defUse hctx
  obtain ⟨l, hl, hctx⟩ := Option.bind_eq_some_iff.mp hctx
  obtain ⟨_, _, hctx⟩ := Option.bind_eq_some_iff.mp hctx
  obtain ⟨_, _, hctx⟩ := Option.bind_eq_some_iff.mp hctx
  obtain ⟨_, _, hset⟩ := Option.bind_eq_some_iff.mp hctx
  obtain ⟨hvals, hcounter⟩ := valueDefs_of_set (n := s.ctx.valueCounter) hl hset
  refine h.change hdefUse hvals hcounter.ge (fun x hx => update_of_ne hx _ _) ?_
  have herase := labels_removeName (h.labels_of hl) idx
  rw [List.eraseIdx_map] at herase
  show Labels _ (entryNames (update s.givenNames entity _ entity)) m
  rw [update_self]
  exact herase

theorem NamesOf.popValue (h : s.NamesOf m) (hpop : s.popValue entity = some s') :
    s'.NamesOf m := by
  obtain ⟨_, _, hpop⟩ := Option.bind_eq_some_iff.mp hpop
  obtain ⟨_, _, hrem⟩ := Option.bind_eq_some_iff.mp hpop
  exact h.removeValue hrem

/-- Naming the value at an index. -/
theorem NamesOf.setEntityName {idx : Nat} {name : Option Identifier} (h : s.NamesOf m)
    (hv : (s.values entity)[idx]? = some v) (hset : s.setEntityName entity idx name = some s') :
    s'.NamesOf (update m v name) := by
  obtain ⟨l, hl, hset⟩ := Option.bind_eq_some_iff.mp hset
  obtain ⟨_, _, hs'⟩ := Option.bind_eq_some_iff.mp hset
  obtain rfl := Option.some.inj hs'
  have hmem : v ∈ s.values entity := List.mem_of_getElem? hv
  have hentity := definingEntity_of_mem hmem
  constructor
  · exact h.defUse
  · intro x hx
    show Labels (s.values x) (entryNames (update s.givenNames entity _ x)) _
    by_cases heq : x = entity
    · subst heq
      rw [update_self]
      exact labels_setName (h.labels x hx) (values_nodup h hl) hv name
    · rw [update_of_ne heq]
      refine (h.labels x hx).update_of_notMem (fun hmem' => heq ?_) name
      rw [← definingEntity_of_mem hmem', hentity]
  · intro u hu
    have hlt : v.valUid < s.ctx.valueCounter := by
      rw [values_eq hl] at hmem
      obtain ⟨d, hd, rfl⟩ := List.mem_map.mp hmem
      exact h.defUse.vals_lt entity l hl d hd
    have hne : u ≠ v := by
      rintro rfl
      exact absurd hu (not_le.mpr hlt)
    rw [update_of_ne hne]
    exact h.new u hu

/-- A value is named at its index. -/
theorem NamesOf.setName {name : Option Identifier} (h : s.NamesOf m)
    (hset : s.setName v name = some s') : s'.NamesOf (update m v name) := by
  obtain ⟨idx, hidx, hset⟩ := Option.bind_eq_some_iff.mp hset
  have hentity : s.setEntityName v.definingEntity idx name = some s' := by
    cases hdef : v.definingEntity with
    | op op =>
        rw [hdef] at hset
        exact hset
    | block block =>
        rw [hdef] at hset
        exact hset
  exact h.setEntityName (findIndex_eq_some hidx) hentity

/-- Naming by index names the value there. -/
theorem NamesOf.setEntityName_renamed {idx : Nat} {name : Option Identifier} (h : s.NamesOf m)
    (hset : s.setEntityName entity idx name = some s') :
    s'.NamesOf (renamed m (((s.values entity)[idx]?.map (fun v => (v, name))).toList)) := by
  obtain ⟨l, hl, hset'⟩ := Option.bind_eq_some_iff.mp hset
  obtain ⟨_, hidx, _⟩ := Option.bind_eq_some_iff.mp hset'
  rw [Option.guard_eq_some'] at hidx
  have hv : (s.values entity)[idx]? = some ⟨l[idx].valUid, entity⟩ := by
    rw [values_eq hl, List.getElem?_map, List.getElem?_eq_getElem hidx]
    rfl
  rw [hv]
  exact h.setEntityName hv hset

/-- Every mutation keeps the names with their values. -/
theorem NamesOf.apply {mutation : NameMutation} (h : s.NamesOf m)
    (happly : s.apply mutation = some s') : s'.NamesOf (renamed m (s.gives mutation)) := by
  cases mutation with
  | pushResult this ty => exact h.pushValue happly
  | insertResult this resIdx ty => exact h.insertValue happly
  | removeResult this resIdx => exact h.removeValue happly
  | popResult this => exact h.popValue happly
  | pushArgument block ty => exact h.pushValue happly
  | insertArgument block argIdx ty => exact h.insertValue happly
  | removeArgument block argIdx => exact h.removeValue happly
  | popArgument block => exact h.popValue happly
  | setName value name => exact h.setName happly
  | setOperationResultName op resIdx name => exact h.setEntityName_renamed happly
  | setBlockArgName block argIdx name => exact h.setEntityName_renamed happly

/-! ## Runs -/

variable {given : List (Value × Option Identifier)} {mutations : List NameMutation}

theorem NamesOf.run (h : s.NamesOf m) (hrun : run mutations s = some (s', given)) :
    s'.NamesOf (renamed m given) := by
  induction mutations generalizing s m given with
  | nil =>
      obtain ⟨rfl, rfl⟩ := Prod.mk.inj (Option.some.inj hrun)
      exact h
  | cons mutation rest ih =>
      obtain ⟨s₁, happly, hrun⟩ := Option.bind_eq_some_iff.mp hrun
      obtain ⟨⟨last, given'⟩, hrest, hrun⟩ := Option.bind_eq_some_iff.mp hrun
      obtain ⟨rfl, rfl⟩ := Prod.mk.inj (Option.some.inj hrun)
      rw [renamed, List.foldl_append]
      exact ih (h.apply happly) hrest

/-- After giving names, a value has the last name it was given, or its old one. -/
theorem renamed_eq (m : Value → Option Identifier) (given : List (Value × Option Identifier))
    (v : Value) : renamed m given v = (lastGiven given v).getD (m v) := by
  induction given using List.reverseRecOn with
  | nil => rfl
  | append_singleton given g ih =>
      rw [renamed, List.foldl_append, List.foldl_cons, List.foldl_nil, lastGiven,
        List.filter_append]
      by_cases hg : g.1 = v
      · subst hg
        rw [update_self, List.filter_singleton, decide_eq_true rfl, cond_true,
          List.getLast?_concat]
        rfl
      · rw [update_of_ne (Ne.symm hg), List.filter_singleton, decide_eq_false hg, cond_false,
          List.append_nil]
        exact ih

/-- The names that a context starts with. -/
theorem NamesFit.namesOf (hdefUse : s.ctx.DefUse) (hfit : s.NamesFit) :
    s.NamesOf (fun v => (s.givenName v).join) where
  defUse := hdefUse
  labels entity hdefs := by
    obtain ⟨l, hl⟩ := Option.ne_none_iff_exists'.mp hdefs
    constructor
    · rw [values_eq hl, List.length_map]
      cases hentry : s.givenNames entity with
      | none => exact Nat.zero_le _
      | some givenNames => exact hfit entity l givenNames hl hentry
    · intro i v hv
      have hnodup : (l.map ValueDef.valUid).Nodup := hdefUse.vals_nodup entity l hl
      rw [values_eq hl, List.getElem?_map] at hv
      obtain ⟨d, hd, rfl⟩ := Option.map_eq_some_iff.mp hv
      obtain ⟨hi, hget⟩ := List.getElem?_eq_some_iff.mp hd
      -- no earlier value has its identifier
      have hidx : s.findIndex ⟨d.valUid, entity⟩ = some i := by
        show (s.ctx.valueDefs entity).bind _ = _
        rw [hl, Option.bind_some, List.findIdx?_eq_some_iff_getElem]
        refine ⟨hi, by rw [hget]; exact decide_eq_true rfl, fun j hj hdj => ?_⟩
        rw [decide_eq_true_iff, ← hget] at hdj
        have huids : (l.map ValueDef.valUid)[i]? = (l.map ValueDef.valUid)[j]? := by
          rw [List.getElem?_map, List.getElem?_map, List.getElem?_eq_getElem hi,
            List.getElem?_eq_getElem (hj.trans hi), Option.map_some, Option.map_some, hdj]
        have hij : i = j := (List.getElem?_inj (by rwa [List.length_map]) hnodup).mp huids
        omega
      rw [NamedContext.givenName_eq hidx]
      rfl
  new v hv := by
    have hidx : s.findIndex v = none := by
      rw [Option.eq_none_iff_forall_not_mem]
      intro idx hidx
      have hmem := List.mem_of_getElem? (findIndex_eq_some hidx)
      obtain ⟨l, hl, _⟩ := Option.bind_eq_some_iff.mp hidx
      rw [values_eq hl] at hmem
      obtain ⟨d, hd, heq⟩ := List.mem_map.mp hmem
      have hlt := hdefUse.vals_lt _ l hl d hd
      rw [← heq] at hv
      exact absurd hv (not_le.mpr hlt)
    rw [givenName, hidx]
    rfl

/-- Every value that is left is reported under the name last given to it, and under the name it
    started with if none was: none for a new value. -/
theorem givenName_eq_lastGiven (hdefUse : s.ctx.DefUse) (hfit : s.NamesFit)
    (hrun : run mutations s = some (s', given)) (hv : s'.findIndex v ≠ none) :
    s'.givenName v = some ((lastGiven given v).getD (s.givenName v).join) := by
  rw [((NamesFit.namesOf hdefUse hfit).run hrun).givenName_eq hv, renamed_eq]

/-- A block with two arguments and no names. -/
def unnamedBlock : NamedContext :=
  ⟨(({} : Context).newBlock none [0, 0]).elim {} Prod.snd, fun _ => none⟩

/-- The second argument is named, and another one inserted before it. -/
theorem givenName_eq_lastGiven_block : ∃ s' given,
    run [.setName ⟨1, .block ⟨0⟩⟩ (some "x"), .insertArgument ⟨0⟩ 1 0] unnamedBlock =
      some (s', given) ∧
    s'.givenName ⟨1, .block ⟨0⟩⟩ = some ((lastGiven given ⟨1, .block ⟨0⟩⟩).getD
      (unnamedBlock.givenName ⟨1, .block ⟨0⟩⟩).join) := by
  have hnew : ({} : Context).newBlock none [0, 0] = some (⟨0⟩, unnamedBlock.ctx) := rfl
  have hsome : (run [.setName ⟨1, .block ⟨0⟩⟩ (some "x"), .insertArgument ⟨0⟩ 1 0]
      unnamedBlock).isSome := by decide
  obtain ⟨⟨s', given⟩, hrun⟩ := Option.isSome_iff_exists.mp hsome
  have hleft : ((run [.setName ⟨1, .block ⟨0⟩⟩ (some "x"), .insertArgument ⟨0⟩ 1 0]
      unnamedBlock).bind (fun r => r.1.findIndex ⟨1, .block ⟨0⟩⟩)) ≠ none := by decide
  rw [hrun] at hleft
  refine ⟨s', given, hrun, givenName_eq_lastGiven ?_ ?_ hrun hleft⟩
  · exact Context.newBlock_defUse Context.empty_defUse hnew
  · intro entity l givenNames _ hnames
    exact absurd hnames (Option.some_ne_none _).symm

end NamedContext

end Pliron
