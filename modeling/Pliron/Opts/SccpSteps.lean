/-
  Pliron.Opts.SccpSteps

  What each function of the analysis does to its state.

  A state is a store of values, reached operations and a queue, and every function makes moves
  of it: it lowers values and marks operations.  What it did it would do again to no effect, as
  long as the values that it read are the same.
-/

import Pliron.Opts.Sccp

namespace Pliron

open Pliron.Lib Relation

namespace Context

variable (ctx : Context)

/-- The values that an operation uses. -/
def opOperands (op : OpPtr) : List Value := ((ctx.operations op).map Operation.operandDefs).getD []

/-- The first operation of a block. -/
def firstOp (block : BlockPtr) : Option OpPtr := (ctx.blockOps block).head?

/-- The first operation of a region. -/
def entryOp (region : RegionPtr) : Option OpPtr := (ctx.entryBlock region).bind ctx.firstOp

/-- The operation after another one. -/
def nextOpOf (op : OpPtr) : Option OpPtr := (ctx.opsAfter op).head?

/-- The value is defined in a region of `root`, however deep. -/
def DefinedWithin (root : OpPtr) (val : Value) : Prop :=
  match val.definingEntity with
  | .op op => op ≠ root ∧ ctx.Inside (.operation root) (.operation op)
  | .block block => ctx.Inside (.operation root) (.basicBlock block)

end Context

namespace Sccp

/-! ## The lattice -/

namespace Constness

variable {A : Type} [DecidableEq A]

theorem meet_constant (va vb : A) :
    meet (constant va) (constant vb) = if va = vb then constant va else notAConstant := rfl

theorem meet_leq_left (a b : Constness A) : (a.meet b).leq a = true := by
  cases a with
  | undetermined => cases b <;> rfl
  | notAConstant => cases b <;> rfl
  | constant va =>
      cases b with
      | undetermined => exact decide_eq_true rfl
      | notAConstant => rfl
      | constant vb =>
          rw [meet_constant]
          by_cases h : va = vb
          · rw [if_pos h]
            exact decide_eq_true rfl
          · rw [if_neg h]
            rfl

theorem meet_leq_right (a b : Constness A) : (a.meet b).leq b = true := by
  cases a with
  | undetermined =>
      cases b with
      | constant vb => exact decide_eq_true rfl
      | undetermined => rfl
      | notAConstant => rfl
  | notAConstant => cases b <;> rfl
  | constant va =>
      cases b with
      | undetermined => rfl
      | notAConstant => rfl
      | constant vb =>
          rw [meet_constant]
          by_cases h : va = vb
          · rw [if_pos h]
            exact decide_eq_true h
          · rw [if_neg h]
            rfl

instance : SemilatticeInf (Constness A) where
  le a b := a.leq b = true
  inf := meet
  le_refl a := by cases a <;> simp [leq]
  le_trans a b c := by cases a <;> cases b <;> cases c <;> simp_all [leq]
  le_antisymm a b := by cases a <;> cases b <;> simp_all [leq]
  inf_le_left a b := meet_leq_left a b
  inf_le_right a b := meet_leq_right a b
  le_inf a b c := by cases a <;> cases b <;> cases c <;> simp_all [meet, leq]

instance : DecidableLE (Constness A) := fun a b => inferInstanceAs (Decidable (a.leq b = true))

theorem leq_meet_iff {a b : Constness A} : a.leq (a.meet b) = true ↔ a ≤ b := by
  show a ≤ a ⊓ b ↔ a ≤ b
  rw [le_inf_iff, and_iff_right (le_refl a)]

/-- How often a value can still be lowered. -/
def height : Constness A → Nat
  | .undetermined => 2
  | .constant _ => 1
  | .notAConstant => 0

theorem height_lt {a b : Constness A} (h : a < b) : a.height < b.height := by
  obtain ⟨hle, hnot⟩ := lt_iff_le_not_ge.mp h
  change a.leq b = true at hle
  change ¬ b.leq a = true at hnot
  cases a <;> cases b <;> simp_all [leq, height]

theorem bot_le (a : Constness A) : notAConstant ≤ a := by
  show leq notAConstant a = true
  cases a <;> rfl

theorem le_bot_iff {a : Constness A} : a ≤ notAConstant ↔ a = notAConstant := by
  show leq a notAConstant = true ↔ _
  cases a <;> simp [leq]

theorem constant_le_iff {a : A} {b : Constness A} :
    constant a ≤ b ↔ b = constant a ∨ b = undetermined := by
  show leq (constant a) b = true ↔ _
  cases b <;> simp [leq, eq_comm]

theorem undetermined_le_iff {a : Constness A} : undetermined ≤ a ↔ a = undetermined := by
  show leq undetermined a = true ↔ _
  cases a <;> simp [leq]

end Constness

/-! ## Moves -/

namespace SccpState

variable {A : Type}

/-- The state as a store. -/
def store (st : SccpState A) : Store Value OpPtr (Constness A) where
  val := st.getValState
  reached := st.reachableOps
  queue := st.opWorklist

variable {ctx : Context} {nodes : OpPtr → Prop} {st st' st'' : SccpState A}
  {val : Value} {x : Constness A} {op : OpPtr}

theorem markReachable_store (op : OpPtr) (st : SccpState A) :
    (st.markReachable op).store = Store.reach op st.store := by
  unfold markReachable Store.reach
  by_cases h : op ∈ st.reachableOps
  · rw [if_pos h, if_pos (show op ∈ st.store.reached from h)]
  · rw [if_neg h, if_neg (show op ∉ st.store.reached from h)]
    show _ = Store.mk st.getValState (st.reachableOps ++ [op]) (Store.enqueue st.opWorklist op)
    rw [← show st.reachableOps.insert op = st.reachableOps ++ [op] from if_neg h]
    rfl

theorem markReachable_rootOp (op : OpPtr) (st : SccpState A) :
    (st.markReachable op).rootOp = st.rootOp := by
  unfold markReachable
  by_cases h : op ∈ st.reachableOps
  · rw [if_pos h]
  · rw [if_neg h]

theorem getValState_insert (values : HMap Value (Constness A)) (v : Value) (y : Constness A)
    (hvalues : st.valStates = values.insert v y) :
    st.getValState = Function.update (fun w => (values w).getD .notAConstant) v y := by
  funext w
  unfold getValState
  rw [hvalues]
  by_cases hw : w = v
  · subst hw
    rw [HMap.insert_self, Function.update_self]
    rfl
  · rw [HMap.insert_of_ne hw, Function.update_of_ne hw]

theorem foldl_users (uses : List Use) (reached queue : List OpPtr) :
    (uses.map Use.userOp).foldl
      (fun (worklist : ISet OpPtr) user => if user ∈ reached then worklist.insert user else worklist)
      queue =
    ((uses.map Use.userOp).filter (fun n => decide (n ∈ reached))).foldl Store.enqueue queue := by
  rw [List.foldl_filter]
  congr 1
  funext worklist user
  by_cases h : user ∈ reached
  · rw [if_pos h, if_pos (decide_eq_true h)]
    rfl
  · rw [if_neg h, if_neg (by rwa [decide_eq_true_iff])]

variable [DecidableEq A]

theorem mergeValState_cases (h : st.mergeValState ctx val x = some st') :
    (st.getValState val ≤ x ∧ st' = st) ∨
    (¬ st.getValState val ≤ x ∧ ∃ uses, ctx.valueUses val = some uses ∧ st' = { st with
      valStates := st.valStates.insert val (st.getValState val ⊓ x)
      opWorklist := (uses.map Use.userOp).foldl
        (fun worklist user => if user ∈ st.reachableOps then worklist.insert user else worklist)
        st.opWorklist }) := by
  unfold mergeValState at h
  dsimp only at h
  by_cases hle : st.getValState val ≤ x
  · rw [if_pos (Constness.leq_meet_iff.mpr hle)] at h
    exact Or.inl ⟨hle, (Option.some.inj h).symm⟩
  · rw [if_neg (fun hleq => hle (Constness.leq_meet_iff.mp hleq))] at h
    obtain ⟨uses, huses, hst⟩ := Option.bind_eq_some_iff.mp h
    exact Or.inr ⟨hle, uses, huses, (Option.some.inj hst).symm⟩

theorem mergeValState_of_le (h : st.getValState val ≤ x) : st.mergeValState ctx val x = some st :=
  if_pos (Constness.leq_meet_iff.mpr h)

theorem mergeValState_store (h : st.mergeValState ctx val x = some st') :
    st'.store = Store.lower ctx.valueUsers val x st.store := by
  unfold Store.lower
  rcases mergeValState_cases h with ⟨hle, rfl⟩ | ⟨hle, uses, huses, rfl⟩
  · rw [if_pos (show st'.store.val val ≤ x from hle)]
  · rw [if_neg (show ¬ st.store.val val ≤ x from hle)]
    have husers : ctx.valueUsers val = uses.map Use.userOp := by
      unfold Context.valueUsers
      rw [huses]
      rfl
    rw [husers]
    show Store.mk _ _ _ = _
    rw [foldl_users, getValState_insert st.valStates val (st.getValState val ⊓ x) rfl]
    rfl

theorem mergeValState_le (h : st.mergeValState ctx val x = some st') :
    st'.getValState val ≤ x := by
  have hle : (Store.lower ctx.valueUsers val x st.store).val val ≤ x :=
    Store.val_lower_le val x st.store
  rw [← mergeValState_store h] at hle
  exact hle

theorem mergeValState_rootOp (h : st.mergeValState ctx val x = some st') :
    st'.rootOp = st.rootOp := by
  rcases mergeValState_cases h with ⟨_, rfl⟩ | ⟨_, _, _, rfl⟩
  · rfl
  · rfl

variable (ctx nodes) in
/-- What the analysis does to a state at a time: it merges something into what is known of a
    value, or marks one of `nodes`. -/
inductive Move (st : SccpState A) : SccpState A → Prop where
  | merge (val : Value) (x : Constness A) (st' : SccpState A)
      (h : st.mergeValState ctx val x = some st') : Move st st'
  | mark (op : OpPtr) (hop : nodes op) : Move st (st.markReachable op)

variable (ctx nodes) in
def Moves : SccpState A → SccpState A → Prop := ReflTransGen (Move ctx nodes)

/-- `st'` is below `st`: nothing is known better, and the same operations are reached. -/
def Descends (st st' : SccpState A) : Prop :=
  st'.store.Above st.store ∧ st'.rootOp = st.rootOp

/-- What is known of some values is the same. -/
def SameOn (vals : List Value) (st st' : SccpState A) : Prop :=
  ∀ val ∈ vals, st'.getValState val = st.getValState val

/-! ## What moves do -/

theorem Move.store (h : Move ctx nodes st st') :
    Store.Move ctx.valueUsers nodes st.store st'.store := by
  cases h with
  | merge val x _ h =>
      rw [mergeValState_store h]
      exact Store.Move.lower val x
  | mark op hop =>
      rw [markReachable_store]
      exact Store.Move.reach op hop

theorem Move.rootOp (h : Move ctx nodes st st') : st'.rootOp = st.rootOp := by
  cases h with
  | merge _ _ _ h => exact mergeValState_rootOp h
  | mark op _ => exact markReachable_rootOp op st

namespace Moves

theorem refl (st : SccpState A) : Moves ctx nodes st st := ReflTransGen.refl

theorem trans (h : Moves ctx nodes st st') (h' : Moves ctx nodes st' st'') :
    Moves ctx nodes st st'' :=
  ReflTransGen.trans h h'

theorem store (h : Moves ctx nodes st st') :
    Store.Moves ctx.valueUsers nodes st.store st'.store := by
  induction h with
  | refl => exact ReflTransGen.refl
  | tail _ hmove ih => exact ih.tail hmove.store

theorem rootOp (h : Moves ctx nodes st st') : st'.rootOp = st.rootOp := by
  induction h with
  | refl => rfl
  | tail _ hmove ih => exact hmove.rootOp.trans ih

theorem later (h : Moves ctx nodes st st') :
    Store.Later ctx.valueUsers st.store st'.store :=
  Store.Later.of_moves h.store

theorem descends (h : Moves ctx nodes st st') : Descends st st' :=
  ⟨⟨h.later.val_le, h.later.reached⟩, h.rootOp⟩

theorem mono {nodes' : OpPtr → Prop} (hnodes : ∀ op, nodes op → nodes' op)
    (h : Moves ctx nodes st st') : Moves ctx nodes' st st' := by
  induction h with
  | refl => exact refl st
  | tail _ hmove ih =>
      cases hmove with
      | merge val x _ h => exact ReflTransGen.tail ih (Move.merge val x _ h)
      | mark op hop => exact ReflTransGen.tail ih (Move.mark op (hnodes op hop))

/-- Only marked operations are new. -/
theorem reached (h : Moves ctx nodes st st') (hop : op ∈ st'.reachableOps) :
    op ∈ st.reachableOps ∨ nodes op := by
  induction h with
  | refl => exact Or.inl hop
  | @tail a b _ hmove ih =>
      cases hmove with
      | merge val x _ h =>
          rcases mergeValState_cases h with ⟨_, rfl⟩ | ⟨_, _, _, rfl⟩
          · exact ih hop
          · exact ih hop
      | mark n hn =>
          unfold markReachable at hop
          by_cases h : n ∈ a.reachableOps
          · rw [if_pos h] at hop
            exact ih hop
          · rw [if_neg h] at hop
            rcases ISet.mem_insert.mp hop with hop | rfl
            · exact ih hop
            · exact Or.inr hn

end Moves

namespace Descends

theorem refl (st : SccpState A) : Descends st st :=
  ⟨⟨fun _ => le_refl _, fun _ h => h⟩, rfl⟩

theorem trans (h : Descends st st') (h' : Descends st' st'') : Descends st st'' :=
  ⟨⟨fun v => (h'.1.1 v).trans (h.1.1 v), fun n hn => h'.1.2 n (h.1.2 n hn)⟩, h'.2.trans h.2⟩

theorem getValState_le (h : Descends st st') (val : Value) :
    st'.getValState val ≤ st.getValState val :=
  h.1.1 val

theorem mem_reachableOps (h : Descends st st') (hop : op ∈ st.reachableOps) :
    op ∈ st'.reachableOps :=
  h.1.2 op hop

/-- What is the same in the end was the same in between. -/
theorem sameOn {vals : List Value} (h : Descends st st') (h' : Descends st' st'')
    (hsame : SameOn vals st st'') : SameOn vals st' st'' := by
  intro val hval
  have hle := h.getValState_le val
  rw [← hsame val hval] at hle
  exact le_antisymm (h'.getValState_le val) hle

end Descends

omit [DecidableEq A] in
theorem SameOn.mono {vals vals' : List Value} (hsub : ∀ val ∈ vals', val ∈ vals)
    (h : SameOn vals st st') : SameOn vals' st st' :=
  fun val hval => h val (hsub val hval)

/-- Moves that lower no value and mark no other operation do nothing. -/
theorem Moves.eq_of_descends (h : Moves ctx nodes st st') (hback : Descends st' st) : st' = st := by
  induction h with
  | refl => rfl
  | @tail a b hmoves hmove ih =>
      have hab : Descends a b := Moves.descends (ReflTransGen.single hmove)
      obtain rfl := ih (hab.trans hback)
      cases hmove with
      | merge val x _ h =>
          rcases mergeValState_cases h with ⟨_, rfl⟩ | ⟨hle, _⟩
          · rfl
          · exact absurd ((hback.getValState_le val).trans (mergeValState_le h)) hle
      | mark op hop =>
          unfold markReachable at hback ⊢
          by_cases hmem : op ∈ a.reachableOps
          · rw [if_pos hmem]
          · rw [if_neg hmem] at hback
            exact absurd (hback.mem_reachableOps (ISet.mem_insert.mpr (Or.inr rfl))) hmem

/-! ## Marking -/

theorem markReachable_moves (hop : nodes op) : Moves ctx nodes st (st.markReachable op) :=
  ReflTransGen.single (Move.mark op hop)

omit [DecidableEq A] in
theorem mem_markReachable (op : OpPtr) (st : SccpState A) :
    op ∈ (st.markReachable op).reachableOps := by
  have hmem := Store.mem_reach op st.store
  rw [← markReachable_store] at hmem
  exact hmem

omit [DecidableEq A] in
theorem markReachable_of_mem (h : op ∈ st.reachableOps) : st.markReachable op = st := if_pos h

/-- What marking an optional operation does. -/
def markOption (st : SccpState A) : Option OpPtr → SccpState A
  | some op => st.markReachable op
  | none => st

theorem markOption_moves {first : Option OpPtr} (hfirst : ∀ op, first = some op → nodes op) :
    Moves ctx nodes st (st.markOption first) := by
  cases first with
  | none => exact Moves.refl st
  | some op => exact markReachable_moves (hfirst op rfl)

theorem markOption_replay {first : Option OpPtr} (h : Descends (st.markOption first) st'') :
    st''.markOption first = st'' := by
  cases first with
  | none => rfl
  | some op => exact markReachable_of_mem (h.mem_reachableOps (mem_markReachable op st))

omit [DecidableEq A] in
theorem markBlockReachable_eq (st : SccpState A) (block : BlockPtr) :
    st.markBlockReachable ctx block =
      (ctx.basicBlocks block).map (fun _ => st.markOption (ctx.firstOp block)) := by
  unfold markBlockReachable
  cases hblock : ctx.basicBlocks block with
  | none => rfl
  | some b =>
      have hfirst : ctx.firstOp block = b.ops.head? := by
        simp [Context.firstOp, Context.blockOps, hblock]
      rw [hfirst, Option.map_some, Option.bind_eq_bind, Option.bind_some]
      cases b.ops.head? <;> rfl

omit [DecidableEq A] in
theorem markNextReachable_eq (st : SccpState A) (op : OpPtr) :
    st.markNextReachable ctx op =
      if op = st.rootOp then some st
      else (ctx.operations op).map (fun _ => st.markOption (ctx.nextOpOf op)) := by
  unfold markNextReachable
  by_cases hroot : op = st.rootOp
  · rw [if_pos hroot, if_pos hroot]
  · rw [if_neg hroot, if_neg hroot]
    cases ctx.operations op with
    | none => rfl
    | some o =>
        rw [Option.map_some, Option.bind_eq_bind, Option.bind_some]
        unfold Context.nextOpOf
        cases (ctx.opsAfter op).head? <;> rfl

end SccpState

/-! ## Transfer functions -/

open SccpState

variable {A : Type} [DecidableEq A] {ctx : Context} {root : OpPtr} {nodes : OpPtr → Prop}
  {reads : List Value} {st st' : SccpState A}

/-- A function that moves the states of an analysis of `root` and marks only `nodes`.  Where it
    was applied it has no effect any more, until one of the values in `reads` changes. -/
structure Transfer (ctx : Context) (root : OpPtr) (nodes : OpPtr → Prop) (reads : List Value)
    (f : SccpState A → Option (SccpState A)) : Prop where
  moves : ∀ st st', st.rootOp = root → f st = some st' → Moves ctx nodes st st'
  replay : ∀ st st' st'', st.rootOp = root → f st = some st' → Descends st' st'' →
    SameOn reads st st'' → f st'' = some st''

namespace Transfer

variable {f g : SccpState A → Option (SccpState A)}

theorem same : Transfer (A := A) ctx root nodes reads some where
  moves st st' _ hf := by
    obtain rfl := Option.some.inj hf
    exact Moves.refl st
  replay _ _ _ _ _ _ _ := rfl

theorem merge (val : Value) (x : Constness A) :
    Transfer ctx root nodes reads (fun st => st.mergeValState ctx val x) where
  moves _ st' _ hf := ReflTransGen.single (Move.merge val x st' hf)
  replay _ _ _ _ hf hdesc _ :=
    mergeValState_of_le ((hdesc.getValState_le val).trans (mergeValState_le hf))

theorem mark {first : Option OpPtr} (hfirst : ∀ op, first = some op → nodes op) :
    Transfer (A := A) ctx root nodes reads (fun st => some (st.markOption first)) where
  moves st st' _ hf := by
    obtain rfl := Option.some.inj hf
    exact markOption_moves hfirst
  replay st st' st'' _ hf hdesc _ := by
    obtain rfl := Option.some.inj hf
    exact congrArg some (markOption_replay hdesc)

/-- One function after another. -/
theorem andThen (hf : Transfer ctx root nodes reads f) (hg : Transfer ctx root nodes reads g) :
    Transfer ctx root nodes reads (fun st => (f st).bind g) where
  moves st st' hroot h := by
    obtain ⟨s, hs, hst⟩ := Option.bind_eq_some_iff.mp h
    have hfirst := hf.moves st s hroot hs
    exact hfirst.trans (hg.moves s st' (hfirst.rootOp.trans hroot) hst)
  replay st st' st'' hroot h hdesc hsame := by
    obtain ⟨s, hs, hst⟩ := Option.bind_eq_some_iff.mp h
    have hfirst := hf.moves st s hroot hs
    have hroot' := hfirst.rootOp.trans hroot
    have hsecond := (hg.moves s st' hroot' hst).descends
    have hsame' := hfirst.descends.sameOn (hsecond.trans hdesc) hsame
    show (f st'').bind g = some st''
    rw [hf.replay st s st'' hroot hs (hsecond.trans hdesc) hsame]
    exact hg.replay s st' st'' hroot' hst hdesc hsame'

/-- A function of what was read. -/
theorem read {β : Type} {r : SccpState A → Option β} {f : β → SccpState A → Option (SccpState A)}
    (hr : ∀ st st', SameOn reads st st' → r st' = r st)
    (hf : ∀ st b, r st = some b → Transfer ctx root nodes reads (f b)) :
    Transfer ctx root nodes reads (fun st => (r st).bind (fun b => f b st)) where
  moves st st' hroot h := by
    obtain ⟨b, hb, hst⟩ := Option.bind_eq_some_iff.mp h
    exact (hf st b hb).moves st st' hroot hst
  replay st st' st'' hroot h hdesc hsame := by
    obtain ⟨b, hb, hst⟩ := Option.bind_eq_some_iff.mp h
    have hdesc' := ((hf st b hb).moves st st' hroot hst).descends
    show (r st'').bind _ = some st''
    rw [hr st st'' hsame, hb]
    exact (hf st b hb).replay st st' st'' hroot hst hdesc hsame

/-- A function of part of the IR. -/
theorem lookup {β : Type} {r : Option β} {f : β → SccpState A → Option (SccpState A)}
    (hf : ∀ b, r = some b → Transfer ctx root nodes reads (f b)) :
    Transfer ctx root nodes reads (fun st => r.bind (fun b => f b st)) :=
  read (r := fun _ => r) (fun _ _ _ => rfl) (fun _ b hb => hf b hb)

theorem loop {α : Type} {f : SccpState A → α → Option (SccpState A)} {l : List α}
    (hf : ∀ a ∈ l, Transfer ctx root nodes reads (fun st => f st a)) :
    Transfer ctx root nodes reads (fun st => l.foldlM f st) := by
  induction l with
  | nil => exact same
  | cons a l ih =>
      have hl := ih (fun b hb => hf b (List.mem_cons_of_mem _ hb))
      exact (hf a List.mem_cons_self).andThen hl

/-- Where one function after another has no effect, neither has. -/
theorem andThen_fixed (hf : Transfer ctx root nodes reads f) (hg : Transfer ctx root nodes reads g)
    (hroot : st.rootOp = root) (h : (f st).bind g = some st) : f st = some st ∧ g st = some st := by
  obtain ⟨s, hs, hst⟩ := Option.bind_eq_some_iff.mp h
  have hfirst := hf.moves st s hroot hs
  have hsecond := hg.moves s st (hfirst.rootOp.trans hroot) hst
  obtain rfl := hfirst.eq_of_descends hsecond.descends
  exact ⟨hs, hst⟩

theorem loop_fixed {α : Type} {f : SccpState A → α → Option (SccpState A)} {l : List α}
    (hf : ∀ a ∈ l, Transfer ctx root nodes reads (fun st => f st a)) (hroot : st.rootOp = root)
    (h : l.foldlM f st = some st) : ∀ a ∈ l, f st a = some st := by
  induction l with
  | nil => exact fun a ha => absurd ha List.not_mem_nil
  | cons a l ih =>
      have hl : ∀ b ∈ l, Transfer ctx root nodes reads (fun st => f st b) :=
        fun b hb => hf b (List.mem_cons_of_mem _ hb)
      obtain ⟨ha, hrest⟩ := (hf a List.mem_cons_self).andThen_fixed (loop hl) hroot h
      intro b hb
      rcases List.mem_cons.mp hb with rfl | hb
      · exact ha
      · exact ih hl hrest b hb

end Transfer

/-! ## What is read -/

omit [DecidableEq A] in
theorem operandState_congr {val : Value} (h : st'.getValState val = st.getValState val) :
    operandState ctx val st' = operandState ctx val st := by
  unfold operandState
  rw [h]

theorem mapM_congr {α β : Type} {f g : α → Option β} {l : List α} (h : ∀ a ∈ l, f a = g a) :
    l.mapM f = l.mapM g := by
  induction l with
  | nil => rfl
  | cons a l ih =>
      rw [List.mapM_cons, List.mapM_cons, h a List.mem_cons_self,
        ih (fun b hb => h b (List.mem_cons_of_mem _ hb))]

omit [DecidableEq A] in
theorem operandAttrs_congr {op : OpPtr} (h : SameOn (ctx.opOperands op) st st') :
    operandAttrs ctx op st' = operandAttrs ctx op st := by
  unfold operandAttrs
  cases hop : ctx.operations op with
  | none => rfl
  | some o =>
      have hoperands : ctx.opOperands op = o.operandDefs := by simp [Context.opOperands, hop]
      rw [hoperands] at h
      refine mapM_congr (fun val hval => ?_)
      rw [operandState_congr (h val hval)]

theorem useDef_mem {use : Use} {val : Value} (h : ctx.useDef use = some val) :
    val ∈ ctx.opOperands use.userOp := by
  unfold Context.useDef at h
  obtain ⟨user, huser, hval⟩ := Option.bind_eq_some_iff.mp h
  obtain ⟨opd, hopd, rfl⟩ := Option.map_eq_some_iff.mp hval
  unfold Context.opOperands
  rw [huser]
  exact List.mem_map_of_mem (List.mem_of_find?_eq_some hopd)

theorem mem_of_mapM {α β : Type} {f : α → Option β} {l : List α} {bs : List β} {b : β}
    (h : l.mapM f = some bs) (hb : b ∈ bs) : ∃ a ∈ l, f a = some b := by
  induction l generalizing bs with
  | nil =>
      rw [List.mapM_nil] at h
      obtain rfl := Option.some.inj h
      exact absurd hb List.not_mem_nil
  | cons a l ih =>
      rw [List.mapM_cons] at h
      obtain ⟨c, hc, hrest⟩ := Option.bind_eq_some_iff.mp h
      obtain ⟨cs, hcs, hbs⟩ := Option.bind_eq_some_iff.mp hrest
      obtain rfl := Option.some.inj hbs
      rcases List.mem_cons.mp hb with rfl | hb
      · exact ⟨a, List.mem_cons_self, hc⟩
      · obtain ⟨a', ha', hfa'⟩ := ih hcs hb
        exact ⟨a', List.mem_cons_of_mem _ ha', hfa'⟩

theorem exists_of_mapM {α β : Type} {f : α → Option β} {l : List α} {bs : List β} {a : α}
    (h : l.mapM f = some bs) (ha : a ∈ l) : ∃ b ∈ bs, f a = some b := by
  induction l generalizing bs with
  | nil => exact absurd ha List.not_mem_nil
  | cons x l ih =>
      rw [List.mapM_cons] at h
      obtain ⟨c, hc, hrest⟩ := Option.bind_eq_some_iff.mp h
      obtain ⟨cs, hcs, hbs⟩ := Option.bind_eq_some_iff.mp hrest
      obtain rfl := Option.some.inj hbs
      rcases List.mem_cons.mp ha with rfl | ha
      · exact ⟨c, List.mem_cons_self, hc⟩
      · obtain ⟨b, hb, hfa⟩ := ih hcs ha
        exact ⟨b, List.mem_cons_of_mem _ hb, hfa⟩

omit [DecidableEq A] in
theorem successorOperands_mem {branchOp : BranchOp A} {op : OpPtr} {i : Nat} {vals : List Value}
    {val : Value} (h : branchOp.successorOperands ctx op i = some vals) (hval : val ∈ vals) :
    val ∈ ctx.opOperands op := by
  unfold BranchOp.successorOperands at h
  obtain ⟨o, ho, h⟩ := Option.bind_eq_some_iff.mp h
  obtain ⟨range, _, h⟩ := Option.bind_eq_some_iff.mp h
  obtain ⟨idx, _, hidx⟩ := mem_of_mapM h hval
  unfold Context.opOperands
  rw [ho]
  exact List.mem_of_getElem? hidx

end Sccp

end Pliron
