/-
  Pliron.Opts.SccpTotal

  The analysis does not panic.

  A function is total from a property on: it succeeds in each sane state with the property, the
  state stays sane, and what it established lasts.  Each function that processes an operation is
  total where the operation was reached.
-/

import Pliron.Utils.Table
import Pliron.Opts.SccpFit

namespace Pliron

open Pliron.Lib Relation Walkers

namespace Sccp

open SccpState

variable {A : Type} [DecidableEq A]

/-! ## Functions that succeed -/

/-- The function succeeds in sane states with `P`, and establishes `Q`. -/
def Total (ctx : Context) (ifaces : OpInterfaces A) (root : OpPtr) (P : SccpState A → Prop)
    (f : SccpState A → Option (SccpState A)) (Q : SccpState A → Prop) : Prop :=
  ∀ st, Sane ctx ifaces root st → P st →
    ∃ st', f st = some st' ∧ Sane ctx ifaces root st' ∧ Descends st st' ∧ Q st'

/-- What holds of a state lasts. -/
def Lasts (P : SccpState A → Prop) : Prop := ∀ st st', Descends st st' → P st → P st'

variable {ctx : Context} {ifaces : OpInterfaces A} {root op : OpPtr}
  {P Q R : SccpState A → Prop} {st st' : SccpState A}

namespace Lasts

theorem trivially : Lasts (A := A) (fun _ => True) := fun _ _ _ h => h

theorem and (hP : Lasts P) (hQ : Lasts Q) : Lasts (fun st => P st ∧ Q st) :=
  fun st st' hdesc h => ⟨hP st st' hdesc h.1, hQ st st' hdesc h.2⟩

theorem all {α : Type} {l : List α} {Q : α → SccpState A → Prop} (hQ : ∀ a, Lasts (Q a)) :
    Lasts (fun st => ∀ a ∈ l, Q a st) :=
  fun st st' hdesc h a ha => hQ a st st' hdesc (h a ha)

theorem determined (val : Value) : Lasts (A := A) (fun st => Determined ctx st val) :=
  fun _ _ hdesc h => h.descends hdesc

end Lasts

namespace Total

variable {f g : SccpState A → Option (SccpState A)}

theorem conseq (h : Total ctx ifaces root P f Q)
    (hP : ∀ st, Sane ctx ifaces root st → R st → P st) : Total ctx ifaces root R f Q :=
  fun st hst hR => h st hst (hP st hst hR)

theorem weaken (h : Total ctx ifaces root P f Q) (hQ : ∀ st, Q st → R st) :
    Total ctx ifaces root P f R := by
  intro st hst hP
  obtain ⟨st', hf, hst', hdesc, hQ'⟩ := h st hst hP
  exact ⟨st', hf, hst', hdesc, hQ st' hQ'⟩

theorem same : Total ctx ifaces root P some (fun _ => True) :=
  fun st hst _ => ⟨st, rfl, hst, Descends.refl st, trivial⟩

theorem merge {val : Value} {x : Constness A} (hx : x ≠ .undetermined) :
    Total ctx ifaces root P (fun st => st.mergeValState ctx val x)
      (fun st => Determined ctx st val) := by
  intro st hst _
  have hsome : ∃ st', st.mergeValState ctx val x = some st' := by
    by_cases hbot : st.getValState val = .notAConstant
    · exact ⟨st, mergeValState_of_le (by rw [hbot]; exact Constness.bot_le x)⟩
    · obtain ⟨uses, huses⟩ := exists_valueUses (hst.known hbot).2
      unfold mergeValState
      simp only [huses, Option.bind_eq_bind, Option.bind_some]
      split
      · exact ⟨st, rfl⟩
      · exact ⟨_, rfl⟩
  obtain ⟨st', h⟩ := hsome
  have hmoves : Moves ctx (fun _ => False) st st' := ReflTransGen.single (Move.merge val x st' h)
  have hdesc : Descends st st' := hmoves.descends
  refine ⟨st', h, hst.descends hdesc (fun n hn => ?_), hdesc, Or.inl (fun hbad => ?_)⟩
  · left
    rcases mergeValState_cases h with ⟨_, rfl⟩ | ⟨_, _, _, rfl⟩
    · exact hn
    · exact hn
  · have hle := mergeValState_le h
    rw [hbad] at hle
    exact hx (Constness.undetermined_le_iff.mp hle)

theorem mark {first : Option OpPtr} (hfit : ∀ st, Sane ctx ifaces root st → P st →
    ∀ n, first = some n → Fit ctx ifaces root st n) :
    Total ctx ifaces root P (fun st => some (st.markOption first)) (fun _ => True) := by
  intro st hst hP
  have hmoves : Moves ctx (fun n => first = some n) st (st.markOption first) :=
    markOption_moves (fun n hn => hn)
  refine ⟨_, rfl, hst.descends hmoves.descends (fun n hn => ?_), hmoves.descends, trivial⟩
  exact (hmoves.reached hn).imp_right (hfit st hst hP n)

/-- One function after another. -/
theorem andThen (hP : Lasts P) (hQ : Lasts Q) (hf : Total ctx ifaces root P f Q)
    (hg : Total ctx ifaces root (fun st => P st ∧ Q st) g R) :
    Total ctx ifaces root P (fun st => (f st).bind g) (fun st => Q st ∧ R st) := by
  intro st hst h
  obtain ⟨s, hs, hs', hdesc, hQs⟩ := hf st hst h
  obtain ⟨st', hst', hsane, hdesc', hR⟩ := hg s hs' ⟨hP st s hdesc h, hQs⟩
  refine ⟨st', ?_, hsane, hdesc.trans hdesc', hQ s st' hdesc' hQs, hR⟩
  show (f st).bind g = some st'
  rw [hs]
  exact hst'

/-- A function of what was read. -/
theorem read {β : Type} {r : SccpState A → Option β} {f : β → SccpState A → Option (SccpState A)}
    (hr : ∀ st, Sane ctx ifaces root st → P st →
      ∃ b, r st = some b ∧ Total ctx ifaces root P (f b) Q) :
    Total ctx ifaces root P (fun st => (r st).bind (fun b => f b st)) Q := by
  intro st hst h
  obtain ⟨b, hb, hf⟩ := hr st hst h
  obtain ⟨st', hst', hrest⟩ := hf st hst h
  refine ⟨st', ?_, hrest⟩
  show (r st).bind _ = some st'
  rw [hb]
  exact hst'

/-- A function of part of the IR. -/
theorem lookup {β : Type} {r : Option β} {b : β} {f : β → SccpState A → Option (SccpState A)}
    (hb : r = some b) (hf : Total ctx ifaces root P (f b) Q) :
    Total ctx ifaces root P (fun st => r.bind (fun b => f b st)) Q :=
  read (r := fun _ => r) (fun _ _ _ => ⟨b, hb, hf⟩)

theorem loop {α : Type} {f : SccpState A → α → Option (SccpState A)} {l : List α}
    {Q : α → SccpState A → Prop} (hP : Lasts P) (hQ : ∀ a, Lasts (Q a))
    (hf : ∀ a ∈ l, Total ctx ifaces root P (fun st => f st a) (Q a)) :
    Total ctx ifaces root P (fun st => l.foldlM f st) (fun st => ∀ a ∈ l, Q a st) := by
  induction l with
  | nil =>
      intro st hst _
      exact ⟨st, rfl, hst, Descends.refl st, fun a ha => absurd ha List.not_mem_nil⟩
  | cons a l ih =>
      have hrest := ih (fun b hb => hf b (List.mem_cons_of_mem _ hb))
      have hboth := (hf a List.mem_cons_self).andThen hP (hQ a)
        (hrest.conseq (fun _ _ h => h.1))
      refine hboth.weaken (fun st h b hb => ?_)
      rcases List.mem_cons.mp hb with rfl | hb
      · exact h.1
      · exact h.2 b hb

end Total

/-! ## Values and marks -/

variable (ctx root) in
/-- The arguments of the entry blocks of the root are determined. -/
def RootArgs (st : SccpState A) : Prop :=
  ∀ region ∈ ctx.opRegions root, ∀ val ∈ ctx.entryArgs region, Determined ctx st val

variable (root) in
/-- The analysis has come to the operation. -/
def Here (op : OpPtr) (st : SccpState A) : Prop := op = root ∨ op ∈ st.reachableOps

theorem Lasts.rootArgs : Lasts (A := A) (RootArgs ctx root) :=
  fun _ _ hdesc h region hregion val hval => (h region hregion val hval).descends hdesc

theorem Lasts.here : Lasts (A := A) (Here root op) :=
  fun _ _ hdesc h => h.imp_right hdesc.mem_reachableOps

theorem mergeAll_total (hP : Lasts P) (vals : List Value) :
    Total ctx ifaces root P (fun st => st.mergeAll ctx vals)
      (fun st => ∀ val ∈ vals, Determined ctx st val) :=
  Total.loop hP Lasts.determined (fun _ _ => Total.merge (by simp))

theorem markBlock_total {block : BlockPtr} (hblock : ctx.basicBlocks block ≠ none)
    (hfit : ∀ st, Sane ctx ifaces root st → P st → ∀ n, ctx.firstOp block = some n →
      Fit ctx ifaces root st n) :
    Total ctx ifaces root P (fun st => st.markBlockReachable ctx block) (fun _ => True) := by
  obtain ⟨b, hb⟩ := Option.ne_none_iff_exists'.mp hblock
  have heq : (fun st : SccpState A => st.markBlockReachable ctx block) = fun st =>
      (ctx.basicBlocks block).bind (fun _ => some (st.markOption (ctx.firstOp block))) := by
    funext st
    rw [markBlockReachable_eq, Option.map_eq_bind]
    rfl
  rw [heq]
  exact Total.lookup hb (Total.mark hfit)

/-- Marking the next operation of an operation that was reached. -/
theorem markNext_total (hop : op ≠ root → ctx.operations op ≠ none)
    (hfit : ∀ st, Sane ctx ifaces root st → P st → op ≠ root → ∀ n, ctx.nextOpOf op = some n →
      Fit ctx ifaces root st n) :
    Total ctx ifaces root P (fun st => st.markNextReachable ctx op) (fun _ => True) := by
  intro st hst hP
  show ∃ st', st.markNextReachable ctx op = some st' ∧ _
  rw [markNextReachable_eq, hst.rootOp]
  by_cases hroot : op = root
  · rw [if_pos hroot]
    exact ⟨st, rfl, hst, Descends.refl st, trivial⟩
  · obtain ⟨o, ho⟩ := Option.ne_none_iff_exists'.mp (hop hroot)
    rw [if_neg hroot, ho]
    exact Total.mark (P := P) (fun st hst hP => hfit st hst hP hroot) st hst hP

theorem seedNestedRegions_total (hrun : Runnable ctx ifaces root)
    (hop : ctx.operations op ≠ none) (hslots : op ≠ root → ifaces.regionBranch op = none) :
    Total ctx ifaces root (Here root op) (fun st => st.seedNestedRegions ctx op)
      (fun st => ∀ region ∈ ctx.opRegions op, ∀ val ∈ ctx.entryArgs region,
        Determined ctx st val) := by
  obtain ⟨o, ho⟩ := Option.ne_none_iff_exists'.mp hop
  have hregions : ctx.opRegions op = o.regions := by simp [Context.opRegions, ho]
  rw [hregions]
  refine Total.lookup ho (Total.loop (f := seedRegion ctx) Lasts.here
    (fun _ => Lasts.all Lasts.determined) (fun region hregion => ?_))
  rw [← hregions] at hregion
  obtain ⟨r, hr⟩ := Option.ne_none_iff_exists'.mp
    (Context.regions_ne_none ((hrun.nested.region_mem op region).mp hregion))
  refine Total.lookup hr ?_
  cases hentry : r.blocks.head? with
  | none =>
      rw [entryArgs_none hr hentry]
      exact Total.same.weaken (fun st _ val hval => absurd hval List.not_mem_nil)
  | some entry =>
      have hblocks : ctx.regionBlocks region = r.blocks := by simp [Context.regionBlocks, hr]
      have hblock := Context.basicBlocks_ne_none ((hrun.nested.block_mem region entry).mp
        (hblocks ▸ List.mem_of_mem_head? hentry))
      obtain ⟨b, hb⟩ := Option.ne_none_iff_exists'.mp hblock
      have hargs := entryArgs_eq hr hentry hb
      rw [hargs]
      refine Total.lookup hb ?_
      have hmerge : Total ctx ifaces root (Here root op)
          (fun st => st.mergeAll ctx (b.argValues entry))
          (fun st => ∀ val ∈ b.argValues entry, Determined ctx st val) :=
        mergeAll_total Lasts.here (b.argValues entry)
      have hseed := hmerge.andThen Lasts.here (Lasts.all Lasts.determined)
        (markBlock_total hblock (fun st hst h n hn =>
          fit_entry hrun hst h.1 hregion (entryOp_eq hr hentry ▸ hn) (hargs.symm ▸ h.2)
            (fun hne regionBranch hsome => by
              rw [hslots hne] at hsome
              cases hsome)))
      exact hseed.weaken (fun _ h => h.1)

/-! ## Reading operands -/

section Reads

variable (hrun : Runnable ctx ifaces root)
include hrun

theorem operandAttrs_total (hop : ctx.operations op ≠ none) (hst : Sane ctx ifaces root st)
    (hhere : Here root op st) : ∃ attrs, operandAttrs ctx op st = some attrs := by
  obtain ⟨o, ho⟩ := Option.ne_none_iff_exists'.mp hop
  have hoperands : ctx.opOperands op = o.operandDefs := by simp [Context.opOperands, ho]
  have hall : ∀ val ∈ o.operandDefs,
      ((operandState ctx val st).map Constness.attr).isSome := by
    intro val hval
    obtain ⟨x, hx, _⟩ := operandState_of_determined
      (hst.operands hrun hhere (hoperands.symm ▸ hval))
    rw [hx]
    rfl
  refine Option.isSome_iff_exists.mp ?_
  unfold operandAttrs
  rw [ho, Option.bind_eq_bind, Option.bind_some, mapM_of_isSome hall]
  rfl

omit hrun in
/-- Passing on what is known of a determined value. -/
theorem forwardValue_total {flow : Value × Value}
    (hflow : ∀ st, Sane ctx ifaces root st → P st → Determined ctx st flow.1) :
    Total ctx ifaces root P (fun st => forwardValue ctx st flow)
      (fun st => Determined ctx st flow.2) := by
  refine Total.read (fun st hst hP => ?_)
  obtain ⟨x, hx, hne⟩ := operandState_of_determined (hflow st hst hP)
  exact ⟨x, hx, Total.merge hne⟩

/-! ## Operations without region edges -/

theorem processFoldOp_total {checkFold : List (Option A) → List (Option A)}
    (hfold : ifaces.fold op = some checkFold) (hop : ctx.operations op ≠ none) :
    Total ctx ifaces root (Here root op) (processFoldOp ctx checkFold op)
      (fun st => ∀ val ∈ ctx.opResults op, Determined ctx st val) := by
  obtain ⟨o, ho⟩ := Option.ne_none_iff_exists'.mp hop
  have hresults : ctx.opResults op = o.resultValues op := by simp [Context.opResults, ho]
  refine Total.read (fun st hst hhere => ?_)
  obtain ⟨attrs, hattrs⟩ := operandAttrs_total hrun hop hst hhere
  refine ⟨attrs, hattrs, Total.lookup ho ?_⟩
  have hmerge : ∀ entry ∈ (o.resultValues op).zip (checkFold attrs),
      Total ctx ifaces root (Here root op)
        (fun st => st.mergeValState ctx entry.1 (Constness.ofFold entry.2))
        (fun st => Determined ctx st entry.1) := by
    intro entry _
    apply Total.merge
    cases entry.2 <;> simp [Constness.ofFold]
  have hloop := Total.loop Lasts.here (fun entry => Lasts.determined (Prod.fst entry)) hmerge
  refine hloop.weaken (fun st h val hval => ?_)
  -- folding has an entry for each result
  have hlen := hrun.fold op checkFold hfold attrs
  rw [hresults] at hval hlen
  obtain ⟨i, hi, rfl⟩ := List.getElem_of_mem hval
  have hentry : ((o.resultValues op)[i], (checkFold attrs)[i]) ∈
      (o.resultValues op).zip (checkFold attrs) := by
    refine List.mem_iff_getElem?.mpr ⟨i, List.getElem?_zip_eq_some.mpr ⟨?_, ?_⟩⟩
    · exact List.getElem?_eq_getElem hi
    · exact List.getElem?_eq_getElem (hlen.symm ▸ hi)
  exact h _ hentry

omit hrun in
theorem processGenericOp_total (hop : ctx.operations op ≠ none) :
    Total ctx ifaces root (Here root op) (processGenericOp ctx op)
      (fun st => ∀ val ∈ ctx.opResults op, Determined ctx st val) := by
  obtain ⟨o, ho⟩ := Option.ne_none_iff_exists'.mp hop
  have hresults : ctx.opResults op = o.resultValues op := by simp [Context.opResults, ho]
  rw [hresults]
  exact Total.lookup ho (mergeAll_total Lasts.here (o.resultValues op))

theorem processSuccessor_total {branchOp : BranchOp A} {o : Operation} {succ : BlockPtr × Nat}
    (hbranch : ifaces.branch op = some branchOp) (ho : ctx.operations op = some o)
    (hterm : o.concreteOp.isTerminator = true) (hsucc : succ ∈ o.successorDefs.zipIdx) :
    Total ctx ifaces root (fun st => op ∈ st.reachableOps)
      (fun st => processSuccessor ctx branchOp op st succ) (fun _ => True) := by
  have hreached : Lasts (A := A) (fun st => op ∈ st.reachableOps) :=
    fun _ _ hdesc h => hdesc.mem_reachableOps h
  have hget := List.mk_mem_zipIdx_iff_getElem?.mp hsucc
  have hmem : succ.1 ∈ o.successorDefs := List.mem_of_getElem? hget
  obtain ⟨_, hnone, hforward⟩ := hrun.branch op branchOp hbranch
  have hsuccs : ctx.opSuccessors op = o.successorDefs := by simp [Context.opSuccessors, ho]
  obtain ⟨forwarded, hforwarded, hlen⟩ := hforward succ.2 succ.1 (hsuccs ▸ hget)
  -- the block of the successor exists, since it is in the region of the branch
  intro st hst hop
  obtain ⟨parent, hparent, _⟩ := hst.parent_around hop
  obtain ⟨region, hin, _⟩ := Option.bind_eq_some_iff.mp hparent
  have hblock := Context.basicBlocks_ne_none (hrun.succs op o ho succ.1 hmem region hin)
  obtain ⟨b, hb⟩ := Option.ne_none_iff_exists'.mp hblock
  have hargs : ctx.blockArgs succ.1 = b.argValues succ.1 := by
    simp only [Context.blockArgs, hb]
    rfl
  rw [hargs] at hlen
  have hflows : Total ctx ifaces root (fun st => op ∈ st.reachableOps)
      (fun st => (forwarded.zip (b.argValues succ.1)).foldlM (forwardValue ctx) st)
      (fun st => ∀ flow ∈ forwarded.zip (b.argValues succ.1), Determined ctx st flow.2) :=
    Total.loop hreached (fun flow => Lasts.determined flow.2) (fun flow hflow =>
      forwardValue_total (fun st hst hop => hst.operands hrun (Or.inr hop)
        (successorOperands_mem hforwarded (List.of_mem_zip hflow).1)))
  have hmark := hflows.andThen hreached
    (Lasts.all (fun flow => Lasts.determined (Prod.snd flow)))
    (markBlock_total hblock (fun st hst h n hn =>
      fit_succ hrun hst h.1 ho hterm hnone hmem hn (fun val hval => by
        rw [hargs] at hval
        obtain ⟨i, hi, rfl⟩ := List.getElem_of_mem hval
        have hi' : i < forwarded.length := hlen.symm ▸ hi
        have hflow : (forwarded[i], (b.argValues succ.1)[i]) ∈
            forwarded.zip (b.argValues succ.1) :=
          List.mem_iff_getElem?.mpr ⟨i, List.getElem?_zip_eq_some.mpr
            ⟨List.getElem?_eq_getElem hi', List.getElem?_eq_getElem hi⟩⟩
        exact h.2 _ hflow)))
  have htotal : Total ctx ifaces root (fun st => op ∈ st.reachableOps)
      (fun st => processSuccessor ctx branchOp op st succ) (fun _ => True) :=
    Total.lookup hforwarded (Total.lookup hb (hmark.weaken (fun _ _ => trivial)))
  exact htotal st hst hop

theorem processBranchOp_total {branchOp : BranchOp A} (hbranch : ifaces.branch op = some branchOp) :
    Total ctx ifaces root (fun st => op ∈ st.reachableOps) (processBranchOp ctx branchOp op)
      (fun st => ∀ val ∈ ctx.opResults op, Determined ctx st val) := by
  obtain ⟨⟨o, ho, hterm⟩, hnone, _⟩ := hrun.branch op branchOp hbranch
  have hop : ctx.operations op ≠ none := by simp [ho]
  rw [hnone]
  refine Total.read (fun st hst hreached => ?_)
  obtain ⟨attrs, hattrs⟩ := operandAttrs_total hrun hop hst (Or.inr hreached)
  refine ⟨attrs, hattrs, Total.lookup ho ?_⟩
  have hsuccs : ∀ succ ∈ o.successorDefs.zipIdx,
      Total ctx ifaces root (fun st => op ∈ st.reachableOps) (fun st =>
        if succ.1 ∈ branchOp.feasible o attrs then processSuccessor ctx branchOp op st succ
        else some st) (fun _ => True) := by
    intro succ hsucc
    by_cases hin : succ.1 ∈ branchOp.feasible o attrs
    · simp only [if_pos hin]
      exact processSuccessor_total hrun hbranch ho hterm hsucc
    · simp only [if_neg hin]
      exact Total.same
  have hloop := Total.loop (fun _ _ hdesc h => hdesc.mem_reachableOps h)
    (fun _ => Lasts.trivially) hsuccs
  exact hloop.weaken (fun _ _ val hval => absurd hval List.not_mem_nil)

/-! ## Region edges -/

omit [DecidableEq A] hrun in
theorem entity_of_mem_opResults {val : Value} (h : val ∈ ctx.opResults op) :
    val.definingEntity = .op op := by
  unfold Context.opResults at h
  cases ho : ctx.operations op with
  | none => simp [ho] at h
  | some o =>
      rw [ho] at h
      obtain ⟨r, _, rfl⟩ := List.mem_map.mp h
      rfl

omit [DecidableEq A] hrun in
theorem entity_of_mem_entryArgs {val : Value} {region : RegionPtr}
    (h : val ∈ ctx.entryArgs region) :
    ∃ entry, ctx.entryBlock region = some entry ∧ val.definingEntity = .block entry := by
  unfold Context.entryArgs at h
  cases hentry : ctx.entryBlock region with
  | none => simp [hentry] at h
  | some entry =>
      cases hb : ctx.basicBlocks entry with
      | none => simp [hentry, hb] at h
      | some b =>
          simp only [hentry, hb, Option.bind_eq_bind, Option.bind_some, Option.map_some,
            Option.getD_some] at h
          obtain ⟨a, _, rfl⟩ := List.mem_map.mp h
          exact ⟨entry, rfl, rfl⟩

/-- A value is received at one target only. -/
theorem target_unique {target target' : RegionSuccessor} {val : Value}
    (h : val ∈ (regionTarget ctx root op target).2)
    (h' : val ∈ (regionTarget ctx root op target').2) : target = target' := by
  cases target with
  | after =>
      cases target' with
      | after => rfl
      | region region =>
          obtain ⟨entry, _, hentity⟩ := entity_of_mem_entryArgs h'
          rw [entity_of_mem_opResults h] at hentity
          cases hentity
  | region region =>
      obtain ⟨entry, hentry, hentity⟩ := entity_of_mem_entryArgs h
      cases target' with
      | after =>
          rw [entity_of_mem_opResults h'] at hentity
          cases hentity
      | region region' =>
          obtain ⟨entry', hentry', hentity'⟩ := entity_of_mem_entryArgs h'
          rw [hentity] at hentity'
          obtain rfl := DefiningEntity.block.inj hentity'
          have hin := (hrun.nested.block_mem region entry).mp (List.mem_of_mem_head? hentry)
          have hin' := (hrun.nested.block_mem region' entry).mp (List.mem_of_mem_head? hentry')
          rw [hin] at hin'
          rw [Option.some.inj hin']

theorem exists_receiverSlots (hop : ctx.operations op ≠ none) :
    ∃ slots, RegionBranchOp.receiverSlots ctx op = some slots := by
  obtain ⟨o, ho⟩ := Option.ne_none_iff_exists'.mp hop
  have hregions : ctx.opRegions op = o.regions := by simp [Context.opRegions, ho]
  refine Option.isSome_iff_exists.mp ?_
  unfold RegionBranchOp.receiverSlots
  rw [ho, Option.bind_eq_bind, Option.bind_some, mapM_of_isSome (fun region hregion => ?_)]
  · rfl
  · rw [← hregions] at hregion
    obtain ⟨r, hr⟩ := Option.ne_none_iff_exists'.mp
      (Context.regions_ne_none ((hrun.nested.region_mem op region).mp hregion))
    rw [hr, Option.bind_eq_bind, Option.bind_some]
    cases hentry : r.blocks.head? with
    | none => rfl
    | some entry =>
        have hblocks : ctx.regionBlocks region = r.blocks := by simp [Context.regionBlocks, hr]
        obtain ⟨b, hb⟩ := Option.ne_none_iff_exists'.mp (Context.basicBlocks_ne_none
          ((hrun.nested.block_mem region entry).mp (hblocks ▸ List.mem_of_mem_head? hentry)))
        simp only [hb]
        rfl

end Reads

/-- What holds where an edge of `op` is processed that starts at `source`. -/
structure AtEdge (ctx : Context) (ifaces : OpInterfaces A) (root op source : OpPtr)
    (st : SccpState A) : Prop where
  here : Here root op st
  source : Here root source st
  rootArgs : RootArgs ctx root st
  slots : op ≠ root → SlotsDetermined ctx ifaces st op

omit [DecidableEq A] in
theorem SlotsDetermined.descends [DecidableEq A] (h : SlotsDetermined ctx ifaces st op)
    (hdesc : Descends st st') : SlotsDetermined ctx ifaces st' op :=
  fun rb hrb slots hslots val hval hnot => (h rb hrb slots hslots val hval hnot).descends hdesc

theorem Lasts.atEdge {source : OpPtr} : Lasts (A := A) (AtEdge ctx ifaces root op source) :=
  fun st st' hdesc h => ⟨Lasts.here st st' hdesc h.here, Lasts.here st st' hdesc h.source,
    Lasts.rootArgs st st' hdesc h.rootArgs, fun hne => (h.slots hne).descends hdesc⟩

section Edges

variable (hrun : Runnable ctx ifaces root) {regionBranch : RegionBranchOp A}
  (hregion : ifaces.regionBranch op = some regionBranch) (hop : ctx.operations op ≠ none)
include hrun

/-- Marking the target of an edge whose receivers are determined. -/
theorem markTarget_total (hop : ctx.operations op ≠ none) {source : OpPtr}
    {target : RegionSuccessor}
    (hregions : ∀ region, target = .region region → ctx.regionParentOp region = some op) :
    Total ctx ifaces root (fun st => AtEdge ctx ifaces root op source st ∧
        ∀ val ∈ (regionTarget ctx root op target).2, op ≠ root ∨ target ≠ .after →
          Determined ctx st val)
      (fun st => markTarget ctx op st target) (fun _ => True) := by
  cases target with
  | after =>
      refine markNext_total (fun _ => hop) (fun st hst h hne n hn => ?_)
      have hreached : op ∈ st.reachableOps := h.1.here.resolve_left hne
      exact fit_next hrun hst hreached hn (fun val hval => h.2 val hval (Or.inl hne))
  | region region =>
      have hparent := hregions region rfl
      have hmem := (hrun.nested.region_mem op region).mpr hparent
      obtain ⟨r, hr⟩ := Option.ne_none_iff_exists'.mp (Context.regions_ne_none hparent)
      refine Total.lookup hr ?_
      cases hentry : r.blocks.head? with
      | none => exact Total.same
      | some entry =>
          have hblocks : ctx.regionBlocks region = r.blocks := by simp [Context.regionBlocks, hr]
          have hblock := Context.basicBlocks_ne_none ((hrun.nested.block_mem region entry).mp
            (hblocks ▸ List.mem_of_mem_head? hentry))
          refine markBlock_total hblock (fun st hst h n hn => ?_)
          refine fit_entry hrun hst h.1.here hmem (entryOp_eq hr hentry ▸ hn) ?_ h.1.slots
          exact fun val hval => h.2 val hval (Or.inr (fun heq => by cases heq))

include hregion

/-- Where the flows of an edge were passed on, all values at its target are determined. -/
theorem target_determined (hop : ctx.operations op ≠ none) {source : OpPtr} {edge : RegionEdge}
    (hedge : edge ∈ regionBranch.regionEdges) (h : AtEdge ctx ifaces root op source st)
    (hflows : ∀ flow ∈ edge.flows, Determined ctx st flow.2) {val : Value}
    (hval : val ∈ (regionTarget ctx root op edge.target).2)
    (hcase : op ≠ root ∨ edge.target ≠ .after) : Determined ctx st val := by
  have hverified := hrun.verified op regionBranch hregion
  have hflowsVerified := hrun.flows op regionBranch hregion
  have hmem : ∀ region, edge.target = .region region → region ∈ ctx.opRegions op :=
    fun region heq => (hrun.nested.region_mem op region).mpr (hverified.region edge hedge region heq)
  by_cases hreceived : val ∈ regionBranch.receivers
  · obtain ⟨edge', hedge', hval'⟩ := List.mem_flatMap.mp hreceived
    obtain ⟨flow, hflow, rfl⟩ := List.mem_map.mp hval'
    have hat := hflowsVerified.receiver edge' hedge' flow hflow
    obtain ⟨flow', hflow', heq⟩ := hflowsVerified.same edge' hedge' edge hedge
      (target_unique hrun hat hval) flow hflow
    rw [← heq]
    exact hflows flow' hflow'
  · by_cases hroot : op = root
    · have hne := hcase.resolve_left (fun hne => hne hroot)
      cases htarget : edge.target with
      | after => exact absurd htarget hne
      | region region =>
          rw [htarget] at hval
          subst hroot
          exact h.rootArgs region (hmem region htarget) val hval
    · obtain ⟨slots, hslots⟩ := exists_receiverSlots hrun hop
      exact h.slots hroot regionBranch hregion slots hslots val
        (mem_receiverSlots hslots hmem hval) hreceived

include hop

theorem processRegionEdge_total {edge : RegionEdge} (hedge : edge ∈ regionBranch.regionEdges) :
    Total ctx ifaces root (AtEdge ctx ifaces root op (edge.source.op op))
      (fun st => processRegionEdge ctx op st edge) (fun _ => True) := by
  have hverified := hrun.verified op regionBranch hregion
  have hflowsVerified := hrun.flows op regionBranch hregion
  have hflow : ∀ flow ∈ edge.flows,
      Total ctx ifaces root (AtEdge ctx ifaces root op (edge.source.op op))
        (fun st => (ctx.useDef flow.1).bind (fun val => forwardValue ctx st (val, flow.2)))
        (fun st => Determined ctx st flow.2) := by
    intro flow hflow
    obtain ⟨val, hval⟩ := Option.ne_none_iff_exists'.mp
      (hflowsVerified.operand edge hedge flow hflow)
    have hmem := useDef_mem hval
    rw [hverified.flow edge hedge flow hflow] at hmem
    have hforward : Total ctx ifaces root (AtEdge ctx ifaces root op (edge.source.op op))
        (fun st => forwardValue ctx st (val, flow.2)) (fun st => Determined ctx st flow.2) :=
      forwardValue_total (fun st hst h => hst.operands hrun h.source hmem)
    exact Total.lookup hval hforward
  have hloop := Total.loop Lasts.atEdge (fun flow => Lasts.determined (Prod.snd flow)) hflow
  have hmark := @markTarget_total A _ ctx ifaces root op hrun hop (edge.source.op op) _
    (hverified.region edge hedge)
  have hboth := hloop.andThen Lasts.atEdge
    (Lasts.all (fun flow => Lasts.determined (Prod.snd flow)))
    (hmark.conseq (fun st _ h => ⟨h.1, fun val hval hcase =>
      target_determined hrun hregion hop hedge h.1 h.2 hval hcase⟩))
  exact hboth.weaken (fun _ _ => trivial)

theorem processRegionBranchEdges_total {point : RegionBranchPoint}
    {opAttrs terminatorAttrs : List (Option A)} :
    Total ctx ifaces root (AtEdge ctx ifaces root op (point.op op))
      (processRegionBranchEdges ctx regionBranch op point opAttrs terminatorAttrs)
      (fun _ => True) := by
  have hedges : ∀ edge ∈ (regionBranch.edgesFrom point).filter (fun edge =>
      edge.target ∈ regionBranch.feasible point opAttrs terminatorAttrs),
      Total ctx ifaces root (AtEdge ctx ifaces root op (point.op op))
        (fun st => processRegionEdge ctx op st edge) (fun _ => True) := by
    intro edge hedge
    obtain ⟨hmem, hsource⟩ := mem_edgesFrom.mp (List.mem_of_mem_filter hedge)
    rw [← hsource]
    exact processRegionEdge_total hrun hregion hop hmem
  exact (Total.loop Lasts.atEdge (fun _ => Lasts.trivially) hedges).weaken (fun _ _ => trivial)

theorem processParentEdges_total :
    Total ctx ifaces root (fun st => Here root op st ∧ RootArgs ctx root st)
      (processParentEdges ctx regionBranch op) (fun _ => True) := by
  have hlasts : Lasts (A := A) (fun st => Here root op st ∧ RootArgs ctx root st) :=
    Lasts.here.and Lasts.rootArgs
  refine Total.read (fun st hst h => ?_)
  obtain ⟨attrs, hattrs⟩ := operandAttrs_total hrun hop hst h.1
  obtain ⟨slots, hslots⟩ := exists_receiverSlots hrun hop
  refine ⟨attrs, hattrs, Total.lookup hslots ?_⟩
  have hmerge := @mergeAll_total A _ ctx ifaces root _ hlasts
    (slots.filter (fun value => value ∉ regionBranch.receivers))
  have hedges : Total ctx ifaces root (AtEdge ctx ifaces root op op)
      (processRegionBranchEdges ctx regionBranch op .parent attrs []) (fun _ => True) :=
    @processRegionBranchEdges_total A _ ctx ifaces root op hrun regionBranch hregion hop .parent
      attrs []
  have hboth := hmerge.andThen hlasts (Lasts.all Lasts.determined)
    (hedges.conseq (fun st _ h => ⟨h.1.1, h.1.1, h.1.2, fun _ rb hrb slots' hslots' val hval hnot => by
      obtain rfl := Option.some.inj (hregion.symm.trans hrb)
      obtain rfl := Option.some.inj (hslots.symm.trans hslots')
      exact h.2 val (List.mem_filter.mpr ⟨hval, decide_eq_true hnot⟩)⟩))
  exact hboth.weaken (fun _ _ => trivial)

end Edges

/-! ## Visits -/

/-- What holds where a reached operation is visited. -/
def AtVisit (ctx : Context) (root op : OpPtr) (st : SccpState A) : Prop :=
  op ∈ st.reachableOps ∧ RootArgs ctx root st

/-- The results are determined, unless region edges pass something to them, or nothing comes
    after the operation. -/
def ResultsKnown (ctx : Context) (ifaces : OpInterfaces A) (op : OpPtr) (st : SccpState A) : Prop :=
  ifaces.regionBranch op = none → regionBranchParent ctx ifaces op = some none →
    ∀ val ∈ ctx.opResults op, Determined ctx st val

theorem Lasts.atVisit : Lasts (A := A) (AtVisit ctx root op) :=
  fun st st' hdesc h => ⟨hdesc.mem_reachableOps h.1, Lasts.rootArgs st st' hdesc h.2⟩

omit [DecidableEq A] in
theorem exists_regionBranchParent (ifaces : OpInterfaces A) (hop : ctx.operations op ≠ none) :
    ∃ parent, regionBranchParent ctx ifaces op = some parent := by
  obtain ⟨o, ho⟩ := Option.ne_none_iff_exists'.mp hop
  unfold regionBranchParent
  rw [ho, Option.bind_eq_bind, Option.bind_some]
  split
  · exact ⟨none, rfl⟩
  · cases ctx.parentOp op with
    | none => exact ⟨none, rfl⟩
    | some parent =>
        dsimp only
        cases ifaces.regionBranch parent with
        | none => exact ⟨none, rfl⟩
        | some regionBranch => exact ⟨_, rfl⟩

section Visits

variable (hrun : Runnable ctx ifaces root)
include hrun

omit [DecidableEq A] hrun in
theorem operations_of_parentOp {parent : OpPtr} (h : ctx.parentOp op = some parent) :
    ctx.operations op ≠ none := by
  obtain ⟨region, hin, _⟩ := Option.bind_eq_some_iff.mp h
  obtain ⟨block, hblock, _⟩ := Option.bind_eq_some_iff.mp hin
  exact Context.operations_ne_none hblock

omit [DecidableEq A] hrun in
theorem parent_operations (hnest : ctx.WellNested) {parent : OpPtr}
    (h : ctx.parentOp op = some parent) : ctx.operations parent ≠ none := by
  obtain ⟨region, _, hparent⟩ := Option.bind_eq_some_iff.mp h
  have hmem := (hnest.region_mem parent region).mpr hparent
  intro hnone
  simp [Context.opRegions, hnone] at hmem

theorem processRegionTerminator_total {terminator parent : OpPtr} {regionBranch : RegionBranchOp A}
    (hregion : ifaces.regionBranch parent = some regionBranch)
    (hparent : ctx.parentOp terminator = some parent) :
    Total ctx ifaces root (AtVisit ctx root terminator)
      (processRegionTerminator ctx ifaces terminator parent) (fun _ => True) := by
  have hop := parent_operations hrun.nested hparent
  have hterm := operations_of_parentOp hparent
  have hat : ∀ st, Sane ctx ifaces root st → AtVisit ctx root terminator st →
      AtEdge ctx ifaces root parent terminator st := by
    intro st hst h
    obtain ⟨parent', hparent', hcase⟩ := hst.parent_around h.1
    obtain rfl := Option.some.inj (hparent.symm.trans hparent')
    exact ⟨hcase, Or.inr h.1, h.2, (hst.fit terminator h.1).slots parent hparent⟩
  refine Total.read (fun st hst h => ?_)
  obtain ⟨parentAttrs, hparentAttrs⟩ := operandAttrs_total hrun hop hst (hat st hst h).here
  refine ⟨parentAttrs, hparentAttrs, Total.read (fun st hst h => ?_)⟩
  obtain ⟨attrs, hattrs⟩ := operandAttrs_total hrun hterm hst (Or.inr h.1)
  refine ⟨attrs, hattrs, Total.lookup hregion ?_⟩
  have hedges : Total ctx ifaces root (AtEdge ctx ifaces root parent terminator)
      (processRegionBranchEdges ctx regionBranch parent (.terminator terminator) parentAttrs attrs)
      (fun _ => True) :=
    @processRegionBranchEdges_total A _ ctx ifaces root parent hrun regionBranch hregion hop
      (.terminator terminator) parentAttrs attrs
  exact hedges.conseq hat

theorem processTerminators_total (hop : ctx.operations op ≠ none) :
    Total ctx ifaces root (AtVisit ctx root op) (processTerminators ctx ifaces op)
      (fun _ => True) := by
  unfold processTerminators
  cases hregion : ifaces.regionBranch op with
  | some regionBranch =>
      have hverified := hrun.verified op regionBranch hregion
      have hloop : ∀ terminator ∈ regionBranch.terminators,
          Total ctx ifaces root (AtVisit ctx root op) (fun st =>
            if terminator ∈ st.reachableOps then
              processRegionTerminator ctx ifaces terminator op st
            else some st) (fun _ => True) := by
        intro terminator hmem st hst h
        obtain ⟨edge, hedge, hsource⟩ := mem_terminators.mp hmem
        have hparent := (hverified.terminator edge hedge terminator hsource).1
        by_cases hreached : terminator ∈ st.reachableOps
        · simp only [if_pos hreached]
          exact processRegionTerminator_total hrun hregion hparent st hst ⟨hreached, h.2⟩
        · simp only [if_neg hreached]
          exact ⟨st, rfl, hst, Descends.refl st, trivial⟩
      exact (Total.loop Lasts.atVisit (fun _ => Lasts.trivially) hloop).weaken (fun _ _ => trivial)
  | none =>
      obtain ⟨parent, hparent⟩ := exists_regionBranchParent ifaces hop
      refine Total.lookup hparent ?_
      cases parent with
      | none => exact Total.same
      | some p =>
          obtain ⟨hp, rb, hrb, _⟩ := regionBranchParent_eq hparent
          exact processRegionTerminator_total hrun hrb hp

theorem processLocal_total (hop : ctx.operations op ≠ none) :
    Total ctx ifaces root (AtVisit ctx root op) (processLocal ctx ifaces op)
      (ResultsKnown ctx ifaces op) := by
  unfold processLocal
  cases hregion : ifaces.regionBranch op with
  | some regionBranch =>
      have hedges := processParentEdges_total hrun hregion hop
      exact (hedges.conseq (fun st _ h => ⟨Or.inr h.1, h.2⟩)).weaken
        (fun _ _ hnone => by
          rw [hregion] at hnone
          cases hnone)
  | none =>
      obtain ⟨parent, hparent⟩ := exists_regionBranchParent ifaces hop
      refine Total.lookup hparent ?_
      have hseed := (seedNestedRegions_total hrun hop (fun _ => hregion)).conseq
        (fun st _ (h : AtVisit ctx root op st) => Or.inr h.1)
      have hkind : Total ctx ifaces root (AtVisit ctx root op) (processKind ctx ifaces parent op)
          (fun st => parent = none → ∀ val ∈ ctx.opResults op, Determined ctx st val) := by
        unfold processKind
        cases parent with
        | some p => exact Total.same.weaken (fun _ _ hnone => by cases hnone)
        | none =>
            cases hbranch : ifaces.branch op with
            | some branchOp =>
                exact ((processBranchOp_total hrun hbranch).conseq
                  (fun st _ h => h.1)).weaken (fun _ h _ => h)
            | none =>
                cases hfold : ifaces.fold op with
                | some checkFold =>
                    exact ((processFoldOp_total hrun hfold hop).conseq
                      (fun st _ h => Or.inr h.1)).weaken (fun _ h _ => h)
                | none =>
                    exact ((processGenericOp_total hop).conseq
                      (fun st _ h => Or.inr h.1)).weaken (fun _ h _ => h)
      have hboth := hseed.andThen Lasts.atVisit
        (Lasts.all (fun _ => Lasts.all Lasts.determined)) (hkind.conseq (fun _ _ h => h.1))
      refine hboth.weaken (fun st h _ hnone => h.2 ?_)
      exact Option.some.inj (hparent.symm.trans hnone)

theorem proceed_total (hop : ctx.operations op ≠ none) :
    Total ctx ifaces root (fun st => AtVisit ctx root op st ∧ ResultsKnown ctx ifaces op st)
      (proceed ctx ifaces op) (fun _ => True) := by
  intro st hst h
  obtain ⟨parent, hparent, _⟩ := hst.parent_around h.1.1
  obtain ⟨region, hin, _⟩ := Option.bind_eq_some_iff.mp hparent
  obtain ⟨block, hblock, hregion⟩ := Option.bind_eq_some_iff.mp hin
  obtain ⟨ssa, hssa⟩ := Context.exists_hasSsaDominance hrun.wellFormed hregion
  -- the results are determined wherever control continues with the next operation
  have hmark : (ifaces.regionBranch op ≠ none → ssa = false) →
      Total ctx ifaces root (fun st => AtVisit ctx root op st ∧ ResultsKnown ctx ifaces op st)
        (fun st => st.markNextReachable ctx op) (fun _ => True) := by
    intro hgraph
    refine markNext_total (fun _ => hop) (fun st hst h _ n hn => ?_)
    refine fit_next hrun hst h.1.1 hn (fun val hval => ?_)
    cases hbranch : ifaces.regionBranch op with
    | some regionBranch =>
        have hfalse := hgraph (by simp [hbranch])
        subst hfalse
        refine Or.inr ⟨region, ?_, hssa⟩
        unfold Context.valueParentRegion Context.valueParentBlock
        rw [entity_of_mem_opResults hval]
        show (ctx.opParentBlock op).bind ctx.blockParentRegion = some region
        rw [hblock]
        exact hregion
    | none =>
        obtain ⟨around, haround⟩ := exists_regionBranchParent ifaces hop
        cases around with
        | none => exact h.2 hbranch haround val hval
        | some p =>
            -- a terminator is the last operation of its block
            obtain ⟨_, rb, hrb, hmem⟩ := regionBranchParent_eq haround
            obtain ⟨edge, hedge, hsource⟩ := mem_terminators.mp hmem
            obtain ⟨_, o, ho, hterm⟩ := (hrun.verified p rb hrb).terminator edge hedge op hsource
            rw [hrun.last op o ho hterm] at hn
            cases hn
  have hin' : ctx.opParentRegion op = some region := hin
  unfold proceed
  cases hbranch : ifaces.regionBranch op with
  | none =>
      have hfalls : fallsThrough ctx ifaces op = some true := by simp [fallsThrough, hbranch]
      rw [hfalls]
      exact hmark (fun hne => absurd hbranch hne) st hst h
  | some regionBranch =>
      have hfalls : fallsThrough ctx ifaces op = some (!ssa) := by
        simp [fallsThrough, hbranch, hin', hssa]
      rw [hfalls]
      cases ssa with
      | false => exact hmark (fun _ => rfl) st hst h
      | true => exact ⟨st, rfl, hst, Descends.refl st, trivial⟩

omit hrun in
theorem Sane.popped (h : Sane ctx ifaces root st) : Sane ctx ifaces root (st.popped op) :=
  h.descends (popped_descends st op) (fun _ hn => Or.inl hn)

omit hrun in
/-- A visit from the parts it consists of. -/
theorem processOp_of_parts {parent : Option OpPtr} {s : SccpState A}
    (hparent : regionBranchParent ctx ifaces op = some parent)
    (hcount : kindCount ifaces op parent ≤ 1) (hlocal : processLocal ctx ifaces op st = some s)
    (hterm : processTerminators ctx ifaces op s = some st') :
    processOp ctx ifaces op st = some st' := by
  have hguard : (guard (kindCount ifaces op parent ≤ 1) : Option Unit) = some () := if_pos hcount
  unfold processOp
  rw [hparent, Option.bind_eq_bind, Option.bind_some, hguard, Option.bind_eq_bind,
    Option.bind_some]
  cases hregion : ifaces.regionBranch op with
  | some regionBranch =>
      simp only [processLocal, processTerminators, hregion] at hlocal hterm
      simp only [processRegionBranchOp, hlocal, Option.bind_eq_bind, Option.bind_some]
      exact hterm
  | none =>
      simp only [processLocal, processTerminators, hregion, hparent, Option.bind_eq_bind,
        Option.bind_some] at hlocal hterm
      obtain ⟨t, ht, hkind⟩ := Option.bind_eq_some_iff.mp hlocal
      simp only [ht, Option.bind_eq_bind, Option.bind_some]
      unfold processKind at hkind
      cases parent with
      | some p =>
          obtain rfl := Option.some.inj hkind
          exact hterm
      | none =>
          obtain rfl := Option.some.inj hterm
          cases hbranch : ifaces.branch op with
          | some branchOp =>
              simp only [hbranch] at hkind
              exact hkind
          | none =>
              simp only [hbranch] at hkind
              cases hfold : ifaces.fold op with
              | some checkFold =>
                  simp only [hfold] at hkind
                  exact hkind
              | none =>
                  simp only [hfold] at hkind
                  exact hkind

/-- A visit of a reached operation succeeds. -/
theorem visit_total (hst : Sane ctx ifaces root st) (h : AtVisit ctx root op st) :
    ∃ st', visit ctx ifaces op st = some st' ∧ Sane ctx ifaces root st' ∧ RootArgs ctx root st' := by
  obtain ⟨parent, hparent, _⟩ := hst.parent_around h.1
  have hop := operations_of_parentOp hparent
  obtain ⟨around, haround⟩ := exists_regionBranchParent ifaces hop
  have hresults : Lasts (A := A) (ResultsKnown ctx ifaces op) :=
    fun _ _ hdesc hknown hregion hnone val hval =>
      (hknown hregion hnone val hval).descends hdesc
  obtain ⟨s, hs, hs', hdesc₁, hknown⟩ := processLocal_total hrun hop (st.popped op) hst.popped h
  obtain ⟨t, ht, ht', hdesc₂, _⟩ := processTerminators_total hrun hop s hs'
    (Lasts.atVisit _ _ hdesc₁ h)
  have hat := Lasts.atVisit _ _ hdesc₂ (Lasts.atVisit _ _ hdesc₁ h)
  obtain ⟨st', hst', hsane, hdesc₃, _⟩ := proceed_total hrun hop t ht'
    ⟨hat, hresults _ _ hdesc₂ hknown⟩
  refine ⟨st', ?_, hsane, (Lasts.atVisit _ _ hdesc₃ hat).2⟩
  unfold visit
  have hprocess := processOp_of_parts haround (hrun.exclusive op around haround) hs ht
  rw [show { st with opWorklist := st.opWorklist.erase op } = st.popped op from rfl, hprocess]
  exact hst'

end Visits

/-! ## Walks that succeed -/

section Walks

variable {σ ε α : Type}

/-- From states with `P` the check succeeds, and keeps it. -/
def Succeeds (P : σ → Prop) (m : Check σ ε α) : Prop :=
  ∀ s, P s → ∃ a s', m s = some (.ok a, s') ∧ P s'

namespace Succeeds

variable {P : σ → Prop} {m : Check σ ε α} {β : Type} {k : α → Check σ ε β}

theorem pure (a : α) : Succeeds P (Pure.pure a : Check σ ε α) := fun s hs => ⟨a, s, rfl, hs⟩

theorem bind (hm : Succeeds P m) (hk : ∀ a, Succeeds P (k a)) : Succeeds P (m >>= k) := by
  intro s hs
  obtain ⟨a, t, hrun, ht⟩ := hm s hs
  obtain ⟨b, s', hrest, hs'⟩ := hk a t ht
  refine ⟨b, s', ?_, hs'⟩
  show (m s).bind _ = _
  rw [hrun]
  exact hrest

theorem forM {γ : Type} {f : γ → Check σ ε PUnit} {l : List γ} (hf : ∀ a ∈ l, Succeeds P (f a)) :
    Succeeds P (l.forM f) := by
  induction l with
  | nil => exact pure ()
  | cons a l ih =>
      exact (hf a List.mem_cons_self).bind (fun _ => ih (fun b hb =>
        hf b (List.mem_cons_of_mem _ hb)))

end Succeeds

theorem walkNode_succeeds {ctx : Context} (hnest : ctx.WellNested) {P : σ → Prop} {root : IRNode}
    {callback : IRNode → Check σ ε WalkContinue}
    (hcallback : ∀ node, ctx.Inside root node → Succeeds P (callback node)) (fuel : Nat) :
    ∀ node, ctx.Inside root node →
      (∀ n k, stepsUp ctx.parentNode k n = some node → k < fuel) →
      Succeeds P (walkNode ctx .preorderForward callback fuel node) := by
  induction fuel with
  | zero => exact fun node _ hfuel => absurd (hfuel node 0 rfl) (Nat.not_lt_zero 0)
  | succ fuel ih =>
      intro node hnode hfuel
      have hchildren : Succeeds P
          ((ctx.childNodes node).forM (walkNode ctx .preorderForward callback fuel)) := by
        refine Succeeds.forM (fun child hchild => ih child ?_ (fun n k hk => ?_))
        · exact ReflTransGen.head ((hnest.mem_childNodes node child).mp hchild) hnode
        · refine Nat.lt_of_succ_lt_succ (hfuel n (k + 1) ?_)
          rw [stepsUp_succ, hk]
          exact (hnest.mem_childNodes node child).mp hchild
      have hcall := hcallback node hnode
      cases node <;>
        exact hcall.bind (fun reply => by
          cases reply with
          | skip => exact Succeeds.pure ()
          | advance => exact hchildren)

/-- A walk whose callback succeeds at every node inside the root succeeds. -/
theorem walkOp_succeeds {ctx : Context} (hnest : ctx.WellNested) {P : σ → Prop} {root : OpPtr}
    {callback : IRNode → Check σ ε WalkContinue}
    (hcallback : ∀ node, ctx.Inside (.operation root) node → Succeeds P (callback node)) :
    Succeeds P (walkOp ctx .preorderForward callback root) :=
  walkNode_succeeds hnest hcallback _ _ ReflTransGen.refl
    (fun _ _ hk => Nat.lt_succ_of_le (hnest.isForest_node.steps_le hk))

end Walks

/-! ## Runs -/

section Runs

omit [DecidableEq A] in
/-- What lies inside an allocated operation is allocated. -/
theorem operations_of_inside (hroot : ctx.operations root ≠ none)
    (h : ctx.Inside (.operation root) (.operation op)) : ctx.operations op ≠ none := by
  rcases Above.cases_head h with heq | ⟨node, hnode, _⟩
  · rw [IRNode.operation.inj heq]
    exact hroot
  · obtain ⟨block, hblock, _⟩ := Option.map_eq_some_iff.mp hnode
    exact Context.operations_ne_none hblock

omit [DecidableEq A] in
theorem basicBlocks_of_inside {block : BlockPtr}
    (h : ctx.Inside (.operation root) (.basicBlock block)) : ctx.basicBlocks block ≠ none := by
  rcases Above.cases_head h with heq | ⟨node, hnode, _⟩
  · cases heq
  · obtain ⟨region, hregion, _⟩ := Option.map_eq_some_iff.mp hnode
    exact Context.basicBlocks_ne_none hregion

variable (hrun : Runnable ctx ifaces root)
include hrun

/-- The initial state of the analysis exists. -/
theorem new_total : ∃ st : SccpState A, SccpState.new ctx root = some st ∧
    Sane ctx ifaces root st ∧ RootArgs ctx root st := by
  have hwalk : Succeeds (fun _ => True) (SccpState.initialValues (A := A) ctx root) := by
    refine walkOp_succeeds hrun.nested (fun node hnode values _ => ?_)
    cases node with
    | region region => exact ⟨_, _, rfl, trivial⟩
    | operation op =>
        obtain ⟨o, ho⟩ := Option.ne_none_iff_exists'.mp
          (operations_of_inside hrun.exists_root hnode)
        by_cases hop : op = root
        · refine ⟨.advance, values, ?_, trivial⟩
          simp only [if_pos hop]
        · refine ⟨.advance, (o.resultValues op).foldl
            (fun values value => values.insert value .undetermined) values, ?_, trivial⟩
          simp only [if_neg hop, ho, Option.bind_eq_bind, Option.bind_some]
    | basicBlock block =>
        obtain ⟨b, hb⟩ := Option.ne_none_iff_exists'.mp (basicBlocks_of_inside hnode)
        refine ⟨.advance, (b.argValues block).foldl
          (fun values value => values.insert value .undetermined) values, ?_, trivial⟩
        simp only [hb, Option.bind_eq_bind, Option.bind_some]
  obtain ⟨r, values, hvalues, _⟩ := hwalk (fun _ => none) trivial
  have hlocal := initialValues_local hrun.nested hvalues
  have hsane : Sane ctx ifaces root (SccpState.mk (A := A) root values [] []) :=
    ⟨rfl, hlocal.unknown, fun n hn => absurd hn List.not_mem_nil⟩
  obtain ⟨st, hseed, hst, _, hargs⟩ := seedNestedRegions_total hrun hrun.exists_root
    (fun hne => absurd rfl hne) _ hsane (Or.inl rfl)
  refine ⟨st, ?_, hst, hargs⟩
  unfold SccpState.new
  rw [hvalues]
  exact hseed

/-- What holds in each state of a run. -/
theorem run_sane {F : SccpState A} (hroot : st.rootOp = root) (hs : Settled ctx ifaces st)
    (hst : Sane ctx ifaces root st) (hargs : RootArgs ctx root st)
    (hsteps : ReflTransGen (Step ctx ifaces) st F) :
    Sane ctx ifaces root F ∧ RootArgs ctx root F := by
  induction hsteps with
  | refl => exact ⟨hst, hargs⟩
  | @tail a b hpre hstep ih =>
      obtain ⟨hst', hargs'⟩ := ih
      obtain ⟨op, hop, hvisit⟩ := hstep
      have hqueue := (run_settled hrun.toReady hroot hs hpre).2.1.queue
      obtain ⟨s, hs', hrest⟩ := visit_total hrun hst' ⟨hqueue op hop, hargs'⟩
      obtain rfl := Option.some.inj (hvisit.symm.trans hs')
      exact hrest

theorem collect_total {F : SccpState A} (hF : Sane ctx ifaces root F) :
    ∃ found, collect ctx ifaces F {} = some (.ok (), found) := by
  have hwalk : Succeeds (fun _ => True) (collect ctx ifaces F) := by
    refine walkOp_succeeds hrun.nested (fun node hnode found _ => ?_)
    rw [hF.rootOp] at hnode
    cases node with
    | region region => exact ⟨_, _, rfl, trivial⟩
    | operation op =>
        have hop := operations_of_inside hrun.exists_root hnode
        by_cases hreached : op ∉ F.reachableOps
        · refine ⟨.advance, found, ?_, trivial⟩
          simp only [if_pos hreached]
        · rw [not_not] at hreached
          by_cases hfold : (ifaces.fold op).isSome = true
          · obtain ⟨attrs, hattrs⟩ := operandAttrs_total hrun hop hF (Or.inr hreached)
            refine ⟨.advance,
              { found with foldCandidates := found.foldCandidates ++ [(op, attrs)] }, ?_, trivial⟩
            simp only [hreached, not_true_eq_false, if_false, hfold, if_true, hattrs,
              Option.bind_eq_bind, Option.bind_some]
          · obtain ⟨o, ho⟩ := Option.ne_none_iff_exists'.mp hop
            refine ⟨.advance, found.addConstants F (o.resultValues op), ?_, trivial⟩
            simp only [hreached, not_true_eq_false, if_false, hfold, ho, Option.bind_eq_bind,
              Option.bind_some]
            rfl
    | basicBlock block =>
        obtain ⟨b, hb⟩ := Option.ne_none_iff_exists'.mp (basicBlocks_of_inside hnode)
        by_cases hfirst : b.ops.head?.all (fun first => first ∉ F.reachableOps) = true
        · refine ⟨.advance, found, ?_, trivial⟩
          simp only [hb, Option.bind_eq_bind, Option.bind_some, if_pos hfirst]
        · refine ⟨.advance, found.addConstants F (b.argValues block), ?_, trivial⟩
          simp only [hb, Option.bind_eq_bind, Option.bind_some, if_neg hfirst]
  obtain ⟨r, found, hfound, _⟩ := hwalk {} trivial
  exact ⟨found, hfound⟩

/-- On a verified program no step of the analysis panics, in whatever order operations are taken
    from the worklist: the assertion that a definition is processed before its uses never fails.
    The analysis of the source ends, and the candidates can be collected. -/
theorem analysis_never_panics : ∃ st : SccpState A, SccpState.new ctx root = some st ∧
    (∀ F op, ReflTransGen (Step ctx ifaces) st F → op ∈ F.opWorklist →
      ∃ F', visit ctx ifaces op F = some F') ∧
    ∃ F found, analyze ctx ifaces (visitBound ctx + 1) st = some F ∧
      collect ctx ifaces F {} = some (.ok (), found) := by
  obtain ⟨st, hnew, hst, hargs⟩ := new_total hrun
  obtain ⟨hroot, hs, hunknown⟩ := new_settled hrun.toReady hnew
  have hvisits : ∀ F op, ReflTransGen (Step ctx ifaces) st F → op ∈ F.opWorklist →
      ∃ F', visit ctx ifaces op F = some F' := by
    intro F op hsteps hop
    obtain ⟨hF, hargs'⟩ := run_sane hrun hroot hs hst hargs hsteps
    have hqueue := (run_settled hrun.toReady hroot hs hsteps).2.1.queue
    obtain ⟨F', hF', _⟩ := visit_total hrun hF ⟨hqueue op hop, hargs'⟩
    exact ⟨F', hF'⟩
  -- the bound is enough, so a loop that does not end well has met a panic
  have hwork := work_new hrun.toReady hnew
  rcases analyze_ends hrun.toReady hroot hs hunknown (Nat.lt_succ_of_le hwork) with
    ⟨F, hF⟩ | ⟨F, op, hsteps, hop, hpanic⟩
  · obtain ⟨hFsane, _⟩ := run_sane hrun hroot hs hst hargs (analyze_run hF).1
    obtain ⟨found, hfound⟩ := collect_total hrun hFsane
    exact ⟨st, hnew, hvisits, F, found, hF, hfound⟩
  · obtain ⟨F', hF'⟩ := hvisits F op hsteps hop
    rw [hpanic] at hF'
    cases hF'

end Runs

theorem crossBlock_runnable : Runnable Context.crossBlock crossBlockOps ⟨3⟩ where
  toReady := crossBlock_ready
  wellFormed := Context.crossBlock_wellFormed
  exists_root := by simp [Context.crossBlock]
  dominance := by decide
  exclusive op parent h := by
    have hparent : parent = none := by
      cases parent with
      | none => rfl
      | some p =>
          obtain ⟨_, rb, hrb, _⟩ := regionBranchParent_eq h
          cases hrb
    subst hparent
    unfold kindCount crossBlockOps
    by_cases hzero : op = ⟨0⟩
    · subst hzero
      decide
    · by_cases hone : op = ⟨1⟩
      · subst hone
        decide
      · simp only [if_neg hzero, if_neg hone]
        by_cases htwo : op = ⟨2⟩
        · rw [if_pos htwo]
          decide
        · rw [if_neg htwo]
          decide
  fold op checkFold h attrs := by
    unfold crossBlockOps at h
    simp only at h
    by_cases hzero : op = ⟨0⟩
    · subst hzero
      rw [if_pos rfl] at h
      obtain rfl := Option.some.inj h
      rfl
    · by_cases htwo : op = ⟨2⟩
      · subst htwo
        rw [if_neg hzero, if_pos rfl] at h
        obtain rfl := Option.some.inj h
        rfl
      · rw [if_neg hzero, if_neg htwo] at h
        cases h
  last := by
    rintro ⟨_ | _ | _ | _ | i⟩ o ho hterm <;> simp [Context.crossBlock] at ho <;> subst ho
    · cases hterm
    · decide
    · decide
    · cases hterm
  branch op branchOp h := by
    unfold crossBlockOps at h
    simp only at h
    by_cases hone : op = ⟨1⟩
    · subst hone
      rw [if_pos rfl] at h
      obtain rfl := Option.some.inj h
      refine ⟨⟨_, rfl, rfl⟩, rfl, fun i block hblock => ?_⟩
      have hmem : block ∈ Context.crossBlock.opSuccessors ⟨1⟩ := List.mem_of_getElem? hblock
      obtain rfl : block = ⟨1⟩ := List.mem_singleton.mp hmem
      exact ⟨[], rfl, rfl⟩
    · rw [if_neg hone] at h
      cases h
  flows op regionBranch h := by cases h

theorem crossBlock_never_panics : ∃ st : SccpState Nat,
    SccpState.new Context.crossBlock ⟨3⟩ = some st ∧
    (∀ F op, ReflTransGen (Step Context.crossBlock crossBlockOps) st F → op ∈ F.opWorklist →
      ∃ F', visit Context.crossBlock crossBlockOps op F = some F') ∧
    ∃ F found,
      analyze Context.crossBlock crossBlockOps (visitBound Context.crossBlock + 1) st = some F ∧
      collect Context.crossBlock crossBlockOps F {} = some (.ok (), found) :=
  analysis_never_panics crossBlock_runnable

end Sccp

end Pliron
