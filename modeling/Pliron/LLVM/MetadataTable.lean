/-
  Pliron.LLVM.MetadataTable

  Adding nodes to a metadata table.

  A reserved id holds an empty tuple until its node is set.  Uniquing searches the table as it
  is, stand-ins included, so an id may come to denote another node than the one that was pushed,
  and equal nodes may get two ids.  `Clear` says of each call that it does neither.
-/

import Pliron.LLVM.Metadata

namespace Pliron.Metadata

variable {A : Type} [DecidableEq A]

/-! ## The table -/

/-- Ids are 32 bits wide. -/
def asMdNodeId (idx : Nat) : MdNodeId := idx % 2 ^ 32

namespace MdTableAttr

/-- Add a node to the table and get the id it can be referred to by. -/
def push (table : MdTableAttr A) (node : MdNodeAttr A) : MdNodeId × MdTableAttr A :=
  (asMdNodeId table.length, table ++ [node])

/-- The entry that `pushUniqued` finds: the first equal one, if the node is not `distinct`. -/
def uniqueIdx (table : MdTableAttr A) (node : MdNodeAttr A) : Option Nat :=
  if node.distinct then none else table.findIdx? (fun existing => existing = node)

/-- Add a node to the table, unless it is a non-`distinct` node that is structurally equal to one
    already in the table, and get the id to refer to it by. -/
def pushUniqued (table : MdTableAttr A) (node : MdNodeAttr A) : MdNodeId × MdTableAttr A :=
  match table.uniqueIdx node with
  | some idx => (asMdNodeId idx, table)
  | none => table.push node

/-- Reserve an id, as wide as the source has it. -/
def reserveId (table : MdTableAttr A) : MdNodeId × MdTableAttr A :=
  table.push (MdNodeAttr.newTuple [])

/-- Set the node at `id`; panics if it is not in the table. -/
def setNode (table : MdTableAttr A) (id : MdNodeId) (node : MdNodeAttr A) :
    Option (MdTableAttr A) :=
  if id < table.length then some (table.set id node) else none

variable {table : MdTableAttr A} {node : MdNodeAttr A} {idx : Nat}

/-- The entry found is the first that equals the node, which is not `distinct`. -/
theorem uniqueIdx_eq_some_iff : table.uniqueIdx node = some idx ↔
    node.distinct = false ∧ table[idx]? = some node ∧ ∀ i < idx, table[i]? ≠ some node := by
  rw [uniqueIdx]
  cases node.distinct with
  | true =>
      rw [if_pos rfl]
      exact ⟨nofun, fun h => absurd h.1 (Bool.noConfusion)⟩
  | false =>
      rw [if_neg Bool.noConfusion, List.findIdx?_eq_some_iff_getElem]
      constructor
      · rintro ⟨hidx, heq, hbefore⟩
        refine ⟨rfl, ?_, fun i hi hget => ?_⟩
        · rw [List.getElem?_eq_getElem hidx, of_decide_eq_true heq]
        · obtain ⟨hlt, hget⟩ := List.getElem?_eq_some_iff.mp hget
          exact hbefore i hi (decide_eq_true hget)
      · rintro ⟨-, hget, hbefore⟩
        obtain ⟨hidx, hget⟩ := List.getElem?_eq_some_iff.mp hget
        refine ⟨hidx, decide_eq_true hget, fun i hi heq => hbefore i hi ?_⟩
        rw [List.getElem?_eq_getElem (hi.trans hidx), of_decide_eq_true heq]

theorem uniqueIdx_eq_none (h : table.uniqueIdx node = none) (hnode : node.distinct = false) :
    ∀ idx : Nat, table[idx]? ≠ some node := by
  intro idx hget
  rw [uniqueIdx, hnode, if_neg Bool.noConfusion, List.findIdx?_eq_none_iff] at h
  exact absurd (h node (List.mem_of_getElem? hget)) (by simp)

end MdTableAttr

/-! ## Runs -/

/-- A call that changes a table. -/
inductive TableCall (A : Type) where
  | push (node : MdNodeAttr A)
  | pushUniqued (node : MdNodeAttr A)
  | reserve
  | set (id : MdNodeId) (node : MdNodeAttr A)
deriving DecidableEq, Repr

/-- A node that was pushed, or that a reserved id was set to, and its id. -/
structure Handed (A : Type) where
  id : MdNodeId
  node : MdNodeAttr A
  uniqued : Bool
deriving DecidableEq, Repr

/-- A table, the ids handed out for nodes so far, and those reserved and not set yet. -/
structure TableRun (A : Type) where
  table : MdTableAttr A
  handed : List (Handed A) := []
  pending : List MdNodeId := []
deriving DecidableEq, Repr

namespace TableRun

variable (r : TableRun A)

/-- A call.  Only a reserved id is set, and only once. -/
def call : TableCall A → Option (TableRun A)
  | .push node =>
      let (id, table) := r.table.push node
      some { r with table := table, handed := r.handed ++ [⟨id, node, false⟩] }
  | .pushUniqued node =>
      let (id, table) := r.table.pushUniqued node
      some { r with table := table, handed := r.handed ++ [⟨id, node, true⟩] }
  | .reserve =>
      let (id, table) := r.table.reserveId
      some { r with table := table, pending := r.pending ++ [id] }
  | .set id node => do
      guard (id ∈ r.pending)
      let table ← r.table.setNode id node
      some ⟨table, r.handed ++ [⟨id, node, false⟩], r.pending.erase id⟩

def runAll (calls : List (TableCall A)) : Option (TableRun A) := calls.foldlM call r

/-- The ids denote what was added: every node handed out is under its id, equal nodes that are
    uniqued have one id, and a `distinct` node shares its id with none. -/
structure Denotes : Prop where
  handed : ∀ h ∈ r.handed, r.table[h.id]? = some h.node
  one_id : ∀ h ∈ r.handed, ∀ h' ∈ r.handed, h.uniqued = true → h'.uniqued = true →
    h.node = h'.node → h.node.distinct = false → h.id = h'.id
  alone : r.handed.Pairwise
    (fun h h' => h.node.distinct = true ∨ h'.node.distinct = true → h.id ≠ h'.id)

/-- A call that keeps ids apart.  The index of the node fits in an id.  Uniquing a node again
    meets no entry that was set to an equal node and comes before the entry it found the first
    time; and if uniquing has answered a reserved id, then that id is set to the same node. -/
def Clear : TableCall A → Prop
  | .push _ => r.table.length < 2 ^ 32
  | .pushUniqued node =>
      (r.table.uniqueIdx node).getD r.table.length < 2 ^ 32 ∧
        (node.distinct = false → ∀ h ∈ r.handed, h.uniqued = true → h.node = node →
          ∀ idx < h.id, r.table[idx]? ≠ some node)
  | .reserve => r.table.length < 2 ^ 32
  | .set id node => ∀ h ∈ r.handed, h.id = id → h.node = node

/-- Every call is clear in the state that it is made in. -/
def AllClear : TableRun A → List (TableCall A) → Prop
  | _, [] => True
  | r, c :: calls => r.Clear c ∧ ∀ r' ∈ r.call c, AllClear r' calls

instance decidableClear (r : TableRun A) : (c : TableCall A) → Decidable (r.Clear c)
  | .push _ => inferInstanceAs (Decidable (r.table.length < 2 ^ 32))
  | .pushUniqued node => inferInstanceAs (Decidable
      ((r.table.uniqueIdx node).getD r.table.length < 2 ^ 32 ∧
        (node.distinct = false → ∀ h ∈ r.handed, h.uniqued = true → h.node = node →
          ∀ idx < h.id, r.table[idx]? ≠ some node)))
  | .reserve => inferInstanceAs (Decidable (r.table.length < 2 ^ 32))
  | .set id node => inferInstanceAs (Decidable (∀ h ∈ r.handed, h.id = id → h.node = node))

instance decidableAllClear : (r : TableRun A) → (calls : List (TableCall A)) →
    Decidable (AllClear r calls)
  | _, [] => isTrue trivial
  | r, c :: calls =>
      have : DecidablePred (fun r' => AllClear r' calls) := fun r' => decidableAllClear r' calls
      inferInstanceAs (Decidable (r.Clear c ∧ ∀ r' ∈ r.call c, AllClear r' calls))

/-! ## The invariant -/

/-- What every run of clear calls keeps: a reservation holds its stand-in until it is set. -/
structure Inv (r : TableRun A) : Prop extends r.Denotes where
  pending : ∀ id ∈ r.pending, r.table[id]? = some (MdNodeAttr.newTuple [])
  pending_nodup : r.pending.Nodup

variable {r} {r' : TableRun A} {node : MdNodeAttr A} {id : MdNodeId}

omit [DecidableEq A] in
theorem getElem?_concat_of_some {table : MdTableAttr A} {idx : Nat} {existing : MdNodeAttr A}
    (h : table[idx]? = some existing) : (table ++ [node])[idx]? = some existing := by
  obtain ⟨hidx, _⟩ := List.getElem?_eq_some_iff.mp h
  rw [List.getElem?_append_left hidx, h]

omit [DecidableEq A] in
theorem lt_length {table : MdTableAttr A} {idx : Nat} {existing : MdNodeAttr A}
    (h : table[idx]? = some existing) : idx < table.length :=
  (List.getElem?_eq_some_iff.mp h).1

omit [DecidableEq A] in
/-- A node at the end of the table, under an id of its own. -/
theorem Inv.append (h : r.Inv) (uniqued : Bool)
    (hnew : uniqued = true → node.distinct = false → ∀ idx : Nat, r.table[idx]? ≠ some node) :
    Inv { r with table := r.table ++ [node],
                 handed := r.handed ++ [⟨r.table.length, node, uniqued⟩] } := by
  have hfresh : ∀ e ∈ r.handed, e.id ≠ r.table.length :=
    fun e he => Nat.ne_of_lt (lt_length (h.handed e he))
  have hdiffer : ∀ e ∈ r.handed, uniqued = true → node.distinct = false → e.node ≠ node := by
    intro e he huniqued hnode heq
    exact hnew huniqued hnode e.id (heq ▸ h.handed e he)
  constructor
  · constructor
    · intro e he
      rcases List.mem_append.mp he with he | he
      · exact getElem?_concat_of_some (h.handed e he)
      · obtain rfl := List.mem_singleton.mp he
        exact List.getElem?_concat_length
    · intro e he e' he' huniqued huniqued' heq hnode
      rcases List.mem_append.mp he with he | he <;> rcases List.mem_append.mp he' with he' | he'
      · exact h.one_id e he e' he' huniqued huniqued' heq hnode
      · obtain rfl := List.mem_singleton.mp he'
        have hnode' : node.distinct = false := (congrArg MdNodeAttr.distinct heq).symm.trans hnode
        exact absurd heq (hdiffer e he huniqued' hnode')
      · obtain rfl := List.mem_singleton.mp he
        exact absurd heq.symm (hdiffer e' he' huniqued hnode)
      · rw [List.mem_singleton.mp he, List.mem_singleton.mp he']
    · refine List.pairwise_append.mpr ⟨h.alone, List.pairwise_singleton _ _, ?_⟩
      intro e he e' he' _
      obtain rfl := List.mem_singleton.mp he'
      exact hfresh e he
  · exact fun id hid => getElem?_concat_of_some (h.pending id hid)
  · exact h.pending_nodup

/-- Uniquing that finds an entry. -/
theorem Inv.found (h : r.Inv) {idx : Nat} (hidx : r.table.uniqueIdx node = some idx)
    (hclear : node.distinct = false → ∀ e ∈ r.handed, e.uniqued = true → e.node = node →
      ∀ i < e.id, r.table[i]? ≠ some node) :
    Inv { r with handed := r.handed ++ [⟨idx, node, true⟩] } := by
  obtain ⟨hnode, hget, hfirst⟩ := MdTableAttr.uniqueIdx_eq_some_iff.mp hidx
  have hsame : ∀ e ∈ r.handed, e.uniqued = true → e.node = node → e.id = idx := by
    intro e he huniqued heq
    have hget' := h.handed e he
    rw [heq] at hget'
    have hle : ¬ e.id < idx := fun hlt => hfirst e.id hlt hget'
    have hge : ¬ idx < e.id := fun hlt => hclear hnode e he huniqued heq idx hlt hget
    exact Nat.le_antisymm (Nat.le_of_not_lt hge) (Nat.le_of_not_lt hle)
  constructor
  · constructor
    · intro e he
      rcases List.mem_append.mp he with he | he
      · exact h.handed e he
      · obtain rfl := List.mem_singleton.mp he
        exact hget
    · intro e he e' he' huniqued huniqued' heq hdistinct
      rcases List.mem_append.mp he with he | he <;> rcases List.mem_append.mp he' with he' | he'
      · exact h.one_id e he e' he' huniqued huniqued' heq hdistinct
      · obtain rfl := List.mem_singleton.mp he'
        exact hsame e he huniqued heq
      · obtain rfl := List.mem_singleton.mp he
        exact (hsame e' he' huniqued' heq.symm).symm
      · rw [List.mem_singleton.mp he, List.mem_singleton.mp he']
    · refine List.pairwise_append.mpr ⟨h.alone, List.pairwise_singleton _ _, ?_⟩
      intro e he e' he' hdistinct hid
      obtain rfl := List.mem_singleton.mp he'
      -- the entry would be the node, which is not `distinct`
      have hget' := h.handed e he
      rw [hid, hget] at hget'
      obtain rfl := Option.some.inj hget'
      rcases hdistinct with hdistinct | hdistinct
      · exact Bool.noConfusion (hnode.symm.trans hdistinct)
      · exact Bool.noConfusion (hnode.symm.trans hdistinct)
  · exact h.pending
  · exact h.pending_nodup

omit [DecidableEq A] in
/-- A reserved id is set. -/
theorem Inv.settle (h : r.Inv) (hid : id ∈ r.pending)
    (hclear : ∀ e ∈ r.handed, e.id = id → e.node = node) :
    Inv ⟨r.table.set id node, r.handed ++ [⟨id, node, false⟩], r.pending.erase id⟩ := by
  have hlt : id < r.table.length := lt_length (h.pending id hid)
  have hself : (r.table.set id node)[id]? = some node := by
    rw [List.getElem?_set_self hlt]
  have hother : ∀ idx, idx ≠ id → (r.table.set id node)[idx]? = r.table[idx]? :=
    fun idx hne => List.getElem?_set_ne (Ne.symm hne)
  constructor
  · constructor
    · intro e he
      rcases List.mem_append.mp he with he | he
      · by_cases heq : e.id = id
        · rw [heq, hclear e he heq]
          exact hself
        · rw [hother _ heq]
          exact h.handed e he
      · obtain rfl := List.mem_singleton.mp he
        exact hself
    · intro e he e' he' huniqued huniqued' heq hnode
      rcases List.mem_append.mp he with he | he <;> rcases List.mem_append.mp he' with he' | he'
      · exact h.one_id e he e' he' huniqued huniqued' heq hnode
      · rw [List.mem_singleton.mp he'] at huniqued'
        cases huniqued'
      · rw [List.mem_singleton.mp he] at huniqued
        cases huniqued
      · rw [List.mem_singleton.mp he, List.mem_singleton.mp he']
    · refine List.pairwise_append.mpr ⟨h.alone, List.pairwise_singleton _ _, ?_⟩
      intro e he e' he' hdistinct heq
      obtain rfl := List.mem_singleton.mp he'
      -- the id was answered for the stand-in, which is not `distinct`
      have hstandIn := h.handed e he
      rw [heq, h.pending id hid] at hstandIn
      have hnode : MdNodeAttr.newTuple [] = node :=
        (Option.some.inj hstandIn).trans (hclear e he heq)
      rcases hdistinct with hdistinct | hdistinct
      · rw [← Option.some.inj hstandIn] at hdistinct
        cases hdistinct
      · rw [← hnode] at hdistinct
        cases hdistinct
  · intro other hmem
    obtain ⟨hne, hmem⟩ := (h.pending_nodup.mem_erase_iff).mp hmem
    rw [hother other hne]
    exact h.pending other hmem
  · exact h.pending_nodup.erase id

/-- A clear call keeps the invariant. -/
theorem Inv.call {c : TableCall A} (h : r.Inv) (hclear : r.Clear c) (hcall : r.call c = some r') :
    r'.Inv := by
  cases c with
  | push node =>
      obtain rfl := Option.some.inj hcall
      have hid : asMdNodeId r.table.length = r.table.length := Nat.mod_eq_of_lt hclear
      simp only [hid]
      exact h.append false nofun
  | pushUniqued node =>
      obtain rfl := Option.some.inj hcall
      obtain ⟨hfits, hfirst⟩ := hclear
      cases hidx : r.table.uniqueIdx node with
      | none =>
          rw [hidx] at hfits
          have hid : asMdNodeId r.table.length = r.table.length := Nat.mod_eq_of_lt hfits
          simp only [MdTableAttr.push, hid]
          exact h.append true (fun _ hnode => MdTableAttr.uniqueIdx_eq_none hidx hnode)
      | some idx =>
          rw [hidx] at hfits
          have hid : asMdNodeId idx = idx := Nat.mod_eq_of_lt hfits
          simp only [hid]
          exact h.found hidx hfirst
  | reserve =>
      obtain rfl := Option.some.inj hcall
      have hid : asMdNodeId r.table.length = r.table.length := Nat.mod_eq_of_lt hclear
      simp only [hid]
      constructor
      · exact ⟨fun e he => getElem?_concat_of_some (h.handed e he), h.one_id, h.alone⟩
      · intro id hmem
        rcases List.mem_append.mp hmem with hmem | hmem
        · exact getElem?_concat_of_some (h.pending id hmem)
        · rw [List.mem_singleton.mp hmem]
          exact List.getElem?_concat_length
      · refine List.nodup_append.mpr ⟨h.pending_nodup, List.nodup_singleton _, ?_⟩
        rintro id hmem _ hnew rfl
        have hlt := lt_length (h.pending id hmem)
        rw [List.mem_singleton.mp hnew] at hlt
        exact Nat.lt_irrefl _ hlt
  | set id node =>
      obtain ⟨_, hguard, hcall⟩ := Option.bind_eq_some_iff.mp hcall
      obtain ⟨table, htable, hcall⟩ := Option.bind_eq_some_iff.mp hcall
      obtain rfl := Option.some.inj hcall
      have hid : id ∈ r.pending := by
        by_contra hnot
        simp [guard, hnot] at hguard
      have hlt : id < r.table.length := lt_length (h.pending id hid)
      rw [MdTableAttr.setNode, if_pos hlt] at htable
      obtain rfl := Option.some.inj htable
      exact h.settle hid hclear

/-- In every run whose calls are clear, ids keep denoting what was added. -/
theorem ids_denote {table : MdTableAttr A} {calls : List (TableCall A)}
    (hclear : AllClear { table := table } calls)
    (hrun : runAll { table := table } calls = some r') : r'.Denotes := by
  have hstart : Inv { table := table : TableRun A } :=
    ⟨⟨nofun, nofun, List.Pairwise.nil⟩, nofun, List.nodup_nil⟩
  generalize { table := table : TableRun A } = r at hclear hrun hstart
  -- the induction is on the calls, with any state before them that the invariant holds of
  induction calls generalizing r with
  | nil =>
      obtain rfl := Option.some.inj hrun
      exact hstart.toDenotes
  | cons c calls ih =>
      obtain ⟨r₁, hcall, hrest⟩ := Option.bind_eq_some_iff.mp hrun
      exact ih r₁ (hclear.2 r₁ hcall) hrest (hstart.call hclear.1 hcall)

/-- Uniquing an empty tuple answers an id that is reserved for another node. -/
def standInShared : List (TableCall Nat) :=
  [.reserve, .pushUniqued (.newTuple []), .set 0 (.newTuple [.null])]

/-- A node that is uniqued again has been set meanwhile, at a lower id. -/
def uniquedTwice : List (TableCall Nat) :=
  [.reserve, .pushUniqued (.newTuple [.null]), .set 0 (.newTuple [.null]),
    .pushUniqued (.newTuple [.null])]

/-- All reservations are set in both runs, but after the first an id denotes another node, and
    after the second equal nodes have two ids. -/
theorem ids_change :
    (∃ r : TableRun Nat, runAll { table := [] } standInShared = some r ∧ r.pending = [] ∧
      (⟨0, .newTuple [], true⟩ : Handed Nat) ∈ r.handed ∧
      r.table[0]? = some (.newTuple [.null]) ∧ ¬ r.Denotes) ∧
    ∃ r : TableRun Nat, runAll { table := [] } uniquedTwice = some r ∧ r.pending = [] ∧
      (⟨1, .newTuple [.null], true⟩ : Handed Nat) ∈ r.handed ∧
      (⟨0, .newTuple [.null], true⟩ : Handed Nat) ∈ r.handed ∧ ¬ r.Denotes := by
  constructor
  · refine ⟨⟨[.newTuple [.null]], [⟨0, .newTuple [], true⟩, ⟨0, .newTuple [.null], false⟩], []⟩,
      rfl, rfl, by decide, rfl, fun h => ?_⟩
    have hget := h.handed ⟨0, .newTuple [], true⟩ (by decide)
    exact absurd hget (by decide)
  · refine ⟨⟨[.newTuple [.null], .newTuple [.null]], [⟨1, .newTuple [.null], true⟩,
      ⟨0, .newTuple [.null], false⟩, ⟨0, .newTuple [.null], true⟩], []⟩,
      rfl, rfl, by decide, by decide, fun h => ?_⟩
    have hid := h.one_id ⟨1, .newTuple [.null], true⟩ (by decide) ⟨0, .newTuple [.null], true⟩
      (by decide) rfl rfl rfl rfl
    exact absurd hid (by decide)

/-- Calls in which a reserved id is waited for by another node, and a node is uniqued twice. -/
def clearCalls : List (TableCall Nat) :=
  [.pushUniqued (.newTuple [.null]), .reserve, .push (.newDistinctTuple [.node 1]),
    .set 1 (.newTuple [.node 2]), .pushUniqued (.newTuple [.null])]

theorem ids_denote_clearCalls : ∃ r : TableRun Nat,
    runAll { table := [] } clearCalls = some r ∧ r.handed.map Handed.id = [0, 2, 1, 0] ∧
      r.Denotes := by
  have hrun : runAll { table := [] } clearCalls = some ⟨[.newTuple [.null],
      .newTuple [.node 2], .newDistinctTuple [.node 1]], [⟨0, .newTuple [.null], true⟩,
      ⟨2, .newDistinctTuple [.node 1], false⟩, ⟨1, .newTuple [.node 2], false⟩,
      ⟨0, .newTuple [.null], true⟩], []⟩ := rfl
  exact ⟨_, hrun, rfl, ids_denote (by decide) hrun⟩

end TableRun

end Pliron.Metadata
