/-
  Pliron.IR.SymbolTableRuns

  A symbol table and the body of its operation agree.

  `insert` records the name before it checks anything, so an error can leave an
  entry behind that the body knows nothing of.  As long as no call runs into that,
  the table has just the symbols of the body after every call, and a call that
  returns an error changes neither of the two.
-/

import Pliron.IR.SameNesting
import Pliron.IR.SymbolTable

namespace Pliron

namespace Context

variable {ctx ctx' : Context} {op tableOp : OpPtr} {body : BlockPtr} {name : Identifier}

/-! ## The names of symbols -/

theorem SameFrame.getSymbolName_eq (h : SameFrame ctx ctx') (x : OpPtr) :
    ctx'.getSymbolName x = ctx.getSymbolName x := by
  have hx := h.op x
  rw [getSymbolName, getSymbolName]
  cases ho' : ctx'.operations x with
  | none =>
      rw [ho', Option.map_none, eq_comm, Option.map_eq_none_iff] at hx
      rw [hx]
  | some o' =>
      rw [ho', Option.map_some, eq_comm, Option.map_eq_some_iff] at hx
      obtain ⟨o, ho, heq⟩ := hx
      rw [Prod.mk.injEq, Prod.mk.injEq] at heq
      rw [ho, Option.bind_eq_bind, Option.bind_some, Option.bind_eq_bind, Option.bind_some, heq.1,
        heq.2.1]

theorem SameFrame.operations_ne_none (h : SameFrame ctx ctx') {x : OpPtr} :
    ctx'.operations x ≠ none ↔ ctx.operations x ≠ none := by
  have hx := congrArg Option.isSome (h.op x)
  simpa only [Option.isSome_map, ← Option.isSome_iff_ne_none, Bool.coe_iff_coe] using hx

/-! ## The body of a symbol table operation -/

/-- `body` is the one block of the one region of `tableOp`, and holds just the operations that
    point back to it. -/
structure HasBody (ctx : Context) (tableOp : OpPtr) (body : BlockPtr) : Prop where
  region : ∃ region, ctx.opRegions tableOp = [region] ∧ ctx.regionBlocks region = [body] ∧
    ctx.blockParentRegion body = some region ∧ ctx.regionParentOp region = some tableOp
  unique : ∀ block, ctx.blockParentOp block = some tableOp → block = body
  mem_body : ∀ x, x ∈ ctx.blockOps body ↔ ctx.opParentBlock x = some body
  nodup : (ctx.blockOps body).Nodup
  back : ∀ block x, x ∈ ctx.blockOps block → ctx.operations x ≠ none →
    ctx.opParentBlock x = some block

namespace HasBody

theorem of_wellNested (h : ctx.WellNested) {region : RegionPtr}
    (hregion : ctx.opRegions tableOp = [region]) (hbody : ctx.regionBlocks region = [body]) :
    ctx.HasBody tableOp body where
  region := ⟨region, hregion, hbody, (h.block_mem region body).mp (by simp [hbody]),
    (h.region_mem tableOp region).mp (by simp [hregion])⟩
  unique block hblock := by
    obtain ⟨region', hregion', hparent⟩ := Option.bind_eq_some_iff.mp hblock
    have hmem := (h.region_mem tableOp region').mpr hparent
    rw [hregion, List.mem_singleton] at hmem
    have hmem' := (h.block_mem region' block).mpr hregion'
    rwa [hmem, hbody, List.mem_singleton] at hmem'
  mem_body := h.op_mem body
  nodup := h.ops_nodup body
  back block x hx _ := (h.op_mem block x).mp hx

variable (h : ctx.HasBody tableOp body)

include h

theorem getBody : ctx.getBody tableOp 0 = some body := by
  obtain ⟨region, hregions, hblocks, _⟩ := h.region
  obtain ⟨o, ho, hregions⟩ : ∃ o, ctx.operations tableOp = some o ∧ o.regions = [region] := by
    cases ho : ctx.operations tableOp with
    | none => simp [opRegions, ho] at hregions
    | some o => exact ⟨o, rfl, by simpa [opRegions, ho] using hregions⟩
  obtain ⟨r, hr, hblocks⟩ : ∃ r, ctx.regions region = some r ∧ r.blocks = [body] := by
    cases hr : ctx.regions region with
    | none => simp [regionBlocks, hr] at hblocks
    | some r => exact ⟨r, rfl, by simpa [regionBlocks, hr] using hblocks⟩
  simp [Context.getBody, ho, hregions, hr, hblocks]

theorem blockParentOp : ctx.blockParentOp body = some tableOp := by
  obtain ⟨region, _, _, hparent, hop⟩ := h.region
  simp [Context.blockParentOp, hparent, hop]

/-- The operations of the body are those with `tableOp` as their parent. -/
theorem parentOp_iff {x : OpPtr} : ctx.parentOp x = some tableOp ↔ x ∈ ctx.blockOps body := by
  rw [h.mem_body, parentOp, opParentRegion_eq, Option.bind_assoc, Option.bind_eq_some_iff]
  constructor
  · rintro ⟨block, hblock, hparent⟩
    rw [hblock, h.unique block hparent]
  · intro hx
    exact ⟨body, hx, h.blockParentOp⟩

theorem sameFrame (hf : SameFrame ctx ctx')
    (hmem : ∀ x, x ∈ ctx'.blockOps body ↔ ctx'.opParentBlock x = some body)
    (hnodup : (ctx'.blockOps body).Nodup)
    (hback : ∀ block x, x ∈ ctx'.blockOps block → ctx'.operations x ≠ none →
      ctx'.opParentBlock x = some block) : ctx'.HasBody tableOp body where
  region := by
    obtain ⟨region, hregions, hblocks, hparent, hop⟩ := h.region
    exact ⟨region, (hf.opRegions_eq _).trans hregions, (hf.regionBlocks_eq _).trans hblocks,
      (hf.blockParentRegion_eq _).trans hparent, (hf.regionParentOp_eq _).trans hop⟩
  unique block hblock := h.unique block ((hf.blockParentOp_eq block).symm.trans hblock)
  mem_body := hmem
  nodup := hnodup
  back := hback

theorem sameNesting (hs : SameNesting ctx ctx') : ctx'.HasBody tableOp body := by
  refine h.sameFrame hs.sameFrame (fun x => ?_) ?_ (fun block x hx hne => ?_)
  · rw [hs.blockOps_eq, hs.opParentBlock_eq]
    exact h.mem_body x
  · rw [hs.blockOps_eq]
    exact h.nodup
  · rw [hs.blockOps_eq] at hx
    rw [hs.opParentBlock_eq]
    exact h.back block x hx (hs.sameFrame.operations_ne_none.mp hne)

theorem linked {point : InsertPoint OpPtr BlockPtr} (hl : Linked ctx ctx' op body point) :
    ctx'.HasBody tableOp body ∧
      ∀ x, x ∈ ctx'.blockOps body ↔ x = op ∨ x ∈ ctx.blockOps body := by
  have hmem : ∀ x, x ∈ ctx'.blockOps body ↔ x = op ∨ x ∈ ctx.blockOps body := by
    intro x
    rw [hl.blockOps, if_pos rfl]
    exact mem_insertNode hl.container (fun mark hmark => (h.mem_body mark).mpr hmark)
  have hnot : op ∉ ctx.blockOps body := by
    rw [h.mem_body, hl.unlinked]
    simp
  refine ⟨h.sameFrame hl.frame (fun x => ?_) ?_ (fun block x hx hne => ?_), hmem⟩
  · rw [hmem, hl.opParentBlock, h.mem_body]
    by_cases hx : x = op <;> simp [hx]
  · rw [hl.blockOps, if_pos rfl]
    exact nodup_insertNode point h.nodup hnot
  · have hback := fun hx => h.back block x hx (hl.frame.operations_ne_none.mp hne)
    rw [hl.opParentBlock]
    by_cases hblock : block = body
    · subst hblock
      rcases (hmem x).mp hx with rfl | hx
      · exact if_pos rfl
      · by_cases hxop : x = op
        · exact if_pos hxop
        · rw [if_neg hxop]
          exact hback hx
    · rw [hl.blockOps, if_neg hblock] at hx
      have hxop : x ≠ op := by
        rintro rfl
        have hparent := hback hx
        rw [hl.unlinked] at hparent
        cases hparent
      rw [if_neg hxop]
      exact hback hx

theorem unlinkedFrom (hu : UnlinkedFrom ctx ctx' op body) :
    ctx'.HasBody tableOp body ∧
      ∀ x, x ∈ ctx'.blockOps body ↔ x ≠ op ∧ x ∈ ctx.blockOps body := by
  have hmem : ∀ x, x ∈ ctx'.blockOps body ↔ x ≠ op ∧ x ∈ ctx.blockOps body := by
    intro x
    rw [hu.blockOps, if_pos rfl]
    exact h.nodup.mem_erase_iff
  refine ⟨h.sameFrame hu.frame (fun x => ?_) ?_ (fun block x hx hne => ?_), hmem⟩
  · rw [hmem, hu.opParentBlock, h.mem_body]
    by_cases hx : x = op <;> simp [hx]
  · rw [hu.blockOps, if_pos rfl]
    exact h.nodup.erase op
  · have hback := fun hx => h.back block x hx (hu.frame.operations_ne_none.mp hne)
    rw [hu.opParentBlock]
    by_cases hblock : block = body
    · subst hblock
      obtain ⟨hxop, hx⟩ := (hmem x).mp hx
      rw [if_neg hxop]
      exact hback hx
    · rw [hu.blockOps, if_neg hblock] at hx
      have hxop : x ≠ op := by
        rintro rfl
        have hparent := hback hx
        rw [hu.linked] at hparent
        exact hblock (Option.some.inj hparent).symm
      rw [if_neg hxop]
      exact hback hx

/-- Deallocating something that does not contain the body leaves the body alone. -/
theorem freed (hop : ctx.opParentBlock op = none)
    (hnot : ¬ ctx.Contains (.operation op) (.basicBlock body))
    (hf : Freed ctx ctx' (ctx.Contains (.operation op))) :
    ctx'.HasBody tableOp body ∧ ctx'.blockOps body = ctx.blockOps body ∧
      ∀ x ∈ ctx.blockOps body, ctx'.operations x = ctx.operations x := by
  obtain ⟨region, hregions, hblocks, hparent, hregionOp⟩ := h.region
  -- the body, its region and the table are not inside what is freed
  have hbody : ctx'.basicBlocks body = ctx.basicBlocks body :=
    (hf.block_eq body).resolve_right (fun hgone => hnot hgone.2)
  have hregion : ctx'.regions region = ctx.regions region := by
    refine (hf.region_eq region).resolve_right (fun hgone => hnot (hgone.2.tail ?_))
    simp [childNodes, hblocks]
  have htable : ctx'.operations tableOp = ctx.operations tableOp := by
    refine (hf.op_eq tableOp).resolve_right (fun hgone => hnot ?_)
    have hcontains : ctx.Contains (.operation op) (.region region) :=
      hgone.2.tail (by simp [childNodes, hregions])
    exact hcontains.tail (by simp [childNodes, hblocks])
  have hops : ctx'.blockOps body = ctx.blockOps body := by
    rw [Context.blockOps, Context.blockOps, hbody]
  -- what is contained in `op` but is not `op` has its parent contained in `op`
  have hkeep : ∀ x ∈ ctx.blockOps body, ctx'.operations x = ctx.operations x := by
    intro x hx
    refine (hf.op_eq x).elim id (fun hgone => ?_)
    obtain ⟨_, hcontains⟩ := hgone
    have hxbody := (h.mem_body x).mp hx
    rcases Relation.ReflTransGen.cases_tail hcontains with heq | ⟨y, hy, hyx⟩
    · rw [IRNode.operation.inj heq, hop] at hxbody
      cases hxbody
    · rcases y with y | y | y
      · simp [childNodes] at hyx
      · have hxy : x ∈ ctx.blockOps y := by simpa [childNodes] using hyx
        have hback := h.back y x hxy (operations_ne_none hxbody)
        rw [Option.some.inj (hxbody.symm.trans hback)] at hnot
        exact absurd hy hnot
      · simp [childNodes] at hyx
  -- what is left keeps its parent
  have hparentOp : ∀ x block, ctx'.opParentBlock x = some block →
      ctx.opParentBlock x = some block := by
    intro x block hx
    rcases hf.op_eq x with heq | ⟨hnone, _⟩
    · rwa [Context.opParentBlock, heq] at hx
    · simp [Context.opParentBlock, hnone] at hx
  refine ⟨⟨⟨region, ?_, ?_, ?_, ?_⟩, fun block hblock => ?_, fun x => ⟨fun hx => ?_, fun hx => ?_⟩,
    hops ▸ h.nodup, fun block x hx hne => ?_⟩, hops, hkeep⟩
  · rwa [opRegions, htable]
  · rwa [regionBlocks, hregion]
  · rwa [Context.blockParentRegion, hbody]
  · rwa [regionParentOp, hregion]
  · refine h.unique block ?_
    obtain ⟨region', hregion', hop'⟩ := Option.bind_eq_some_iff.mp hblock
    have hregion' : ctx.blockParentRegion block = some region' := by
      rcases hf.block_eq block with heq | ⟨hnone, _⟩
      · rwa [Context.blockParentRegion, heq] at hregion'
      · simp [Context.blockParentRegion, hnone] at hregion'
    have hop' : ctx.regionParentOp region' = some tableOp := by
      rcases hf.region_eq region' with heq | ⟨hnone, _⟩
      · rwa [regionParentOp, heq] at hop'
      · simp [regionParentOp, hnone] at hop'
    simp [Context.blockParentOp, hregion', hop']
  · rw [hops] at hx
    rw [Context.opParentBlock, hkeep x hx]
    exact (h.mem_body x).mp hx
  · rw [hops]
    exact (h.mem_body x).mpr (hparentOp x body hx)
  · have hx₀ : x ∈ ctx.blockOps block := by
      rcases hf.block_eq block with heq | ⟨hnone, _⟩
      · rwa [Context.blockOps, heq] at hx
      · simp [Context.blockOps, hnone] at hx
    have heq : ctx'.operations x = ctx.operations x :=
      (hf.op_eq x).resolve_right (fun hgone => hne hgone.1)
    rw [Context.opParentBlock, heq]
    exact h.back block x hx₀ (heq ▸ hne)

end HasBody

end Context

/-! ## The table and the body -/

namespace SymbolTable

variable {st st' : SymbolTable} {ctx ctx' : Context} {op : OpPtr} {body : BlockPtr}
  {name : Identifier} {result : Except SymbolTableErr Unit}

/-- The table maps the names of the symbols in the body of its operation, each to the operation
    that defines it. -/
def Agrees (st : SymbolTable) (ctx : Context) : Prop :=
  ∃ body, ctx.getBody st.symbolTableOp 0 = some body ∧
    ∀ name op, st.lookup name = some op ↔ op ∈ ctx.blockOps body ∧ ctx.getSymbolName op = some name

/-- What holds between calls. -/
structure Inv (st : SymbolTable) (ctx : Context) (body : BlockPtr) : Prop where
  hasBody : ctx.HasBody st.symbolTableOp body
  entries : ∀ name op, st.symbolTable name = some op ↔
    op ∈ ctx.blockOps body ∧ ctx.getSymbolName op = some name

theorem Inv.agrees (h : Inv st ctx body) : st.Agrees ctx :=
  ⟨body, h.hasBody.getBody, h.entries⟩

theorem newEntries_spec (ops done : List OpPtr) {table table' : HMap Identifier OpPtr}
    (h : ∀ name op, table name = some op ↔ op ∈ done ∧ ctx.getSymbolName op = some name)
    (hfold : ops.foldlM (newEntry ctx) table = some table') :
    ∀ name op, table' name = some op ↔ op ∈ done ++ ops ∧ ctx.getSymbolName op = some name := by
  induction ops generalizing table done with
  | nil =>
      obtain rfl := Option.some.inj hfold
      simpa using h
  | cons x ops ih =>
      rw [List.foldlM_cons] at hfold
      obtain ⟨table₁, hentry, hfold⟩ := Option.bind_eq_some_iff.mp hfold
      rw [← List.singleton_append, ← List.append_assoc]
      refine ih (done ++ [x]) (fun name op => ?_) hfold
      obtain ⟨o, ho, hentry⟩ := Option.bind_eq_some_iff.mp hentry
      rw [List.mem_append, List.mem_singleton]
      by_cases hsym : o.concreteOp.isSymbol = true
      · rw [if_pos hsym] at hentry
        obtain ⟨sym, hname, hentry⟩ := Option.bind_eq_some_iff.mp hentry
        split at hentry
        · cases hentry
        · next hfree =>
            obtain rfl := Option.some.inj hentry
            rw [Option.not_isSome_iff_eq_none] at hfree
            rw [HMap.insert_eq_some_iff, h]
            constructor
            · rintro (⟨rfl, rfl⟩ | ⟨_, hop, hname⟩)
              · exact ⟨Or.inr rfl, hname⟩
              · exact ⟨Or.inl hop, hname⟩
            · rintro ⟨hop | rfl, hname'⟩
              · refine Or.inr ⟨?_, hop, hname'⟩
                rintro rfl
                rw [(h name op).mpr ⟨hop, hname'⟩] at hfree
                cases hfree
              · exact Or.inl ⟨Option.some.inj (hname'.symm.trans hname), rfl⟩
      · rw [if_neg hsym] at hentry
        obtain rfl := Option.some.inj hentry
        rw [h]
        refine ⟨fun hop => ⟨Or.inl hop.1, hop.2⟩, ?_⟩
        rintro ⟨hop | rfl, hname⟩
        · exact ⟨hop, hname⟩
        · simp [Context.getSymbolName, ho, hsym, guard] at hname

/-- A new table has the symbols of the body. -/
theorem new_inv {tableOp : OpPtr} (h : ctx.HasBody tableOp body)
    (hnew : new ctx tableOp = some st) : Inv st ctx body := by
  obtain ⟨block, hblock, hnew⟩ := Option.bind_eq_some_iff.mp hnew
  obtain ⟨table, hfold, hnew⟩ := Option.bind_eq_some_iff.mp hnew
  obtain rfl := Option.some.inj hnew
  obtain rfl := Option.some.inj (hblock.symm.trans h.getBody)
  refine ⟨h, fun name op => ?_⟩
  rw [newEntries_spec (ctx.blockOps block) [] (by simp) hfold, List.nil_append]

/-! ## Calls -/

/-- Linking an unlinked symbol with an unused name into the body, and recording it. -/
theorem Inv.linked (h : Inv st ctx body) {point : Context.InsertPoint OpPtr BlockPtr}
    (hname : ctx.getSymbolName op = some name) (hfree : st.symbolTable name = none)
    (hl : Context.Linked ctx ctx' op body point) :
    Inv { st with symbolTable := st.symbolTable.insert name op } ctx' body := by
  obtain ⟨hbody, hmem⟩ := h.hasBody.linked hl
  refine ⟨hbody, fun name' x => ?_⟩
  rw [HMap.insert_eq_some_iff, hmem, hl.frame.getSymbolName_eq, h.entries]
  constructor
  · rintro (⟨rfl, rfl⟩ | ⟨_, hx, hname'⟩)
    · exact ⟨Or.inl rfl, hname⟩
    · exact ⟨Or.inr hx, hname'⟩
  · rintro ⟨rfl | hx, hname'⟩
    · exact Or.inl ⟨Option.some.inj (hname'.symm.trans hname), rfl⟩
    · refine Or.inr ⟨?_, hx, hname'⟩
      rintro rfl
      rw [(h.entries name' x).mpr ⟨hx, hname'⟩] at hfree
      cases hfree

/-- Where an insertion is not refused, it goes to the body. -/
theorem insertIR_ok (h : Inv st ctx body) (hparent : ctx.parentOp op = none)
    {insertPt : Option Context.OpInsertionPoint}
    (hpt : ∀ p ∈ insertPt, (ctx.getInsertionBlock p).bind ctx.blockParentOp =
      some st.symbolTableOp)
    (hinsert : st.insertIR ctx op name insertPt = some (result, ctx')) :
    result = .ok () ∧ ∃ point, Context.Linked ctx ctx' op body point := by
  have hlinked : ∀ {point}, Context.insertContainer ctx.opParentBlock point = some body →
      ctx.linkOp op point = some ctx' → Context.Linked ctx ctx' op body point := by
    intro point hpoint hlink
    obtain ⟨block, hl⟩ := Context.linkOp_linked hlink
    exact Option.some.inj (hpoint.symm.trans hl.container) ▸ hl
  simp only [insertIR, hparent] at hinsert
  cases insertPt with
  | some p =>
      obtain ⟨block, hblock, hinsert⟩ := Option.bind_eq_some_iff.mp hinsert
      obtain ⟨_, _, hinsert⟩ := Option.bind_eq_some_iff.mp hinsert
      have hin := hpt p rfl
      rw [hblock, Option.bind_some] at hin
      rw [if_pos hin] at hinsert
      obtain ⟨ctx₁, hlink, hinsert⟩ := Option.bind_eq_some_iff.mp hinsert
      obtain ⟨rfl, rfl⟩ := Prod.mk.inj (Option.some.inj hinsert)
      cases p with
      | unset => cases hlink
      | set point =>
          obtain rfl := h.hasBody.unique block hin
          exact ⟨rfl, point, hlinked hblock hlink⟩
  | none =>
      simp only [h.hasBody.getBody, Option.bind_eq_bind, Option.bind_some] at hinsert
      cases hterm : ctx.terminator body with
      | some terminator =>
          rw [hterm] at hinsert
          obtain ⟨ctx₁, hlink, hinsert⟩ := Option.bind_eq_some_iff.mp hinsert
          obtain ⟨rfl, rfl⟩ := Prod.mk.inj (Option.some.inj hinsert)
          obtain ⟨last, hlast, hterm⟩ := Option.bind_eq_some_iff.mp hterm
          obtain ⟨o, _, hterm⟩ := Option.bind_eq_some_iff.mp hterm
          obtain rfl : last = terminator := by
            split at hterm
            · exact Option.some.inj hterm
            · cases hterm
          have hmem := List.mem_of_getLast? hlast
          have hin : Context.insertContainer ctx.opParentBlock (.before last) = some body :=
            (h.hasBody.mem_body last).mp hmem
          exact ⟨rfl, _, hlinked hin hlink⟩
      | none =>
          rw [hterm] at hinsert
          obtain ⟨ctx₁, hlink, hinsert⟩ := Option.bind_eq_some_iff.mp hinsert
          obtain ⟨rfl, rfl⟩ := Prod.mk.inj (Option.some.inj hinsert)
          have hin : Context.insertContainer ctx.opParentBlock (.atBack body) = some body := rfl
          exact ⟨rfl, _, hlinked hin hlink⟩

/-- A call of one of the functions of a symbol table. -/
inductive Call where
  | insert (op : OpPtr) (insertPt : Option Context.OpInsertionPoint)
  | remove (op : OpPtr)
  | erase (op : OpPtr)
  | lookup (name : Identifier)

/-- What a call returns, and the state that it leaves behind. -/
def Call.apply (st : SymbolTable) (ctx : Context) :
    Call → Option (Except SymbolTableErr Unit × SymbolTable × Context)
  | .insert op insertPt => st.insert ctx op insertPt
  | .remove op => st.remove ctx op
  | .erase op => st.erase ctx op
  | .lookup _ => some (.ok (), st, ctx)

/-- An insertion is not refused, or refused as the operation is in the table already; an erased
    operation does not contain the body of the table's operation. -/
def Call.Safe (st : SymbolTable) (ctx : Context) : Call → Prop
  | .insert op insertPt => ∃ name, ctx.getSymbolName op = some name ∧
      (st.lookup name = some op ∨
        (st.lookup name = none ∧ ctx.parentOp op = none ∧
          ∀ p ∈ insertPt, (ctx.getInsertionBlock p).bind ctx.blockParentOp =
            some st.symbolTableOp))
  | .erase op => ∀ body, ctx.getBody st.symbolTableOp 0 = some body →
      ¬ ctx.Contains (.operation op) (.basicBlock body)
  | _ => True

/-- What a call does that runs into no disagreement. -/
structure Step (st : SymbolTable) (ctx : Context) (result : Except SymbolTableErr Unit)
    (st' : SymbolTable) (ctx' : Context) (body : BlockPtr) : Prop where
  inv : Inv st' ctx' body
  error : ∀ e, result = .error e → st' = st ∧ ctx' = ctx

theorem insert_step (h : Inv st ctx body) {insertPt : Option Context.OpInsertionPoint}
    (hsafe : (Call.insert op insertPt).Safe st ctx)
    (hinsert : st.insert ctx op insertPt = some (result, st', ctx')) :
    Step st ctx result st' ctx' body := by
  obtain ⟨name, hname, hsafe⟩ := hsafe
  obtain ⟨name', hname', hinsert⟩ := Option.bind_eq_some_iff.mp hinsert
  obtain rfl := Option.some.inj (hname.symm.trans hname')
  rcases hsafe with hsame | ⟨hfree, hparent, hpt⟩
  · have hsame : st.symbolTable name = some op := hsame
    simp only [hsame] at hinsert
    obtain ⟨rfl, hrest⟩ := Prod.mk.inj (Option.some.inj hinsert)
    obtain ⟨rfl, rfl⟩ := Prod.mk.inj hrest
    have hst : { st with symbolTable := st.symbolTable.insert name op } = st := by
      rw [HMap.insert_eq_self hsame]
    exact ⟨hst.symm ▸ h, fun _ _ => ⟨hst, rfl⟩⟩
  · have hfree : st.symbolTable name = none := hfree
    simp only [hfree] at hinsert
    obtain ⟨⟨result', ctx₁⟩, hir, hinsert⟩ := Option.bind_eq_some_iff.mp hinsert
    obtain ⟨rfl, hrest⟩ := Prod.mk.inj (Option.some.inj hinsert)
    obtain ⟨rfl, rfl⟩ := Prod.mk.inj hrest
    have hir : st.insertIR ctx op name insertPt = some (result', ctx₁) := hir
    obtain ⟨rfl, point, hl⟩ := insertIR_ok h hparent hpt hir
    exact ⟨h.linked hname hfree hl, fun e he => by cases he⟩

/-- A successful removal takes the operation out of the body. -/
theorem remove_step (h : Inv st ctx body) (hremove : st.remove ctx op = some (result, st', ctx')) :
    Step st ctx result st' ctx' body ∧
      (result = .ok () → ctx'.opParentBlock op = none ∧ st'.symbolTableOp = st.symbolTableOp ∧
        ∀ x, ctx'.childNodes x ⊆ ctx.childNodes x) := by
  obtain ⟨_, _, hremove⟩ := Option.bind_eq_some_iff.mp hremove
  by_cases hparent : ctx.parentOp op = some st.symbolTableOp
  · rw [if_pos hparent] at hremove
    obtain ⟨name, hname, hremove⟩ := Option.bind_eq_some_iff.mp hremove
    obtain ⟨ctx₁, hunlink, hremove⟩ := Option.bind_eq_some_iff.mp hremove
    obtain ⟨rfl, hrest⟩ := Prod.mk.inj (Option.some.inj hremove)
    obtain ⟨rfl, rfl⟩ := Prod.mk.inj hrest
    have hmem := h.hasBody.parentOp_iff.mp hparent
    obtain ⟨block, hu⟩ := Context.unlinkOp_unlinkedFrom hunlink
    obtain rfl := Option.some.inj (hu.linked.symm.trans ((h.hasBody.mem_body op).mp hmem))
    obtain ⟨hbody, hmem'⟩ := h.hasBody.unlinkedFrom hu
    refine ⟨⟨⟨hbody, fun name' x => ?_⟩, fun e he => by cases he⟩, fun _ =>
      ⟨by rw [hu.opParentBlock, if_pos rfl], rfl, (Context.unlinkOp_spec hunlink).2.2⟩⟩
    rw [HMap.remove_eq_some_iff, hmem', hu.frame.getSymbolName_eq, h.entries]
    constructor
    · rintro ⟨hne, hx, hname'⟩
      refine ⟨⟨?_, hx⟩, hname'⟩
      rintro rfl
      exact hne (Option.some.inj (hname'.symm.trans hname))
    · rintro ⟨⟨hne, hx⟩, hname'⟩
      refine ⟨?_, hx, hname'⟩
      rintro rfl
      -- two symbols of one name would be one entry
      have hentry := (h.entries name' x).mpr ⟨hx, hname'⟩
      rw [(h.entries name' op).mpr ⟨hmem, hname⟩] at hentry
      exact hne (Option.some.inj hentry).symm
  · rw [if_neg hparent] at hremove
    obtain ⟨rfl, hrest⟩ := Prod.mk.inj (Option.some.inj hremove)
    obtain ⟨rfl, rfl⟩ := Prod.mk.inj hrest
    exact ⟨⟨h, fun _ _ => ⟨rfl, rfl⟩⟩, fun hok => by cases hok⟩

theorem erase_step (h : Inv st ctx body) (hsafe : (Call.erase op).Safe st ctx)
    (herase : st.erase ctx op = some (result, st', ctx')) :
    Step st ctx result st' ctx' body := by
  obtain ⟨⟨result₁, st₁, ctx₁⟩, hremove, herase⟩ := Option.bind_eq_some_iff.mp herase
  obtain ⟨hstep, hok⟩ := remove_step h hremove
  cases result₁ with
  | error e =>
      obtain ⟨rfl, hrest⟩ := Prod.mk.inj (Option.some.inj herase)
      obtain ⟨rfl, rfl⟩ := Prod.mk.inj hrest
      exact ⟨hstep.inv, fun _ _ => hstep.error e rfl⟩
  | ok _ =>
      obtain ⟨ctx₃, hdelete, hreturn⟩ := Option.bind_eq_some_iff.mp herase
      obtain ⟨rfl, hrest⟩ := Prod.mk.inj (Option.some.inj hreturn)
      obtain ⟨rfl, rfl⟩ := Prod.mk.inj hrest
      obtain ⟨hunlinked, _, hsub⟩ := hok rfl
      have hnot : ¬ ctx₁.Contains (.operation op) (.basicBlock body) := fun hin =>
        hsafe body h.hasBody.getBody (hin.mono hsub)
      obtain ⟨ctx₂, hsame, hfreed⟩ := Context.eraseOp_freed hdelete hunlinked
      have hchildren : ctx₂.Contains = ctx₁.Contains := hsame.contains_eq
      obtain ⟨hbody, hops, hkeep⟩ := (hstep.inv.hasBody.sameNesting hsame).freed
        ((hsame.opParentBlock_eq op).trans hunlinked) (hchildren ▸ hnot) (hchildren ▸ hfreed)
      refine ⟨⟨hbody, fun name x => ?_⟩, fun e he => by cases he⟩
      rw [hstep.inv.entries, hops, hsame.blockOps_eq]
      refine and_congr_right (fun hx => ?_)
      have heq : ctx₃.getSymbolName x = ctx₂.getSymbolName x := by
        rw [Context.getSymbolName, Context.getSymbolName, hkeep x (by rwa [hsame.blockOps_eq])]
      rw [heq, hsame.sameFrame.getSymbolName_eq]

/-- One call keeps the table and the body in agreement, and an error changes nothing. -/
theorem Call.step {c : Call} (h : Inv st ctx body) (hsafe : c.Safe st ctx)
    (happly : c.apply st ctx = some (result, st', ctx')) : Step st ctx result st' ctx' body := by
  cases c with
  | insert op insertPt => exact insert_step h hsafe happly
  | remove op => exact (remove_step h happly).1
  | erase op => exact erase_step h hsafe happly
  | lookup name =>
      obtain ⟨rfl, hrest⟩ := Prod.mk.inj (Option.some.inj happly)
      obtain ⟨rfl, rfl⟩ := Prod.mk.inj hrest
      exact ⟨h, fun e he => by cases he⟩

/-! ## Runs -/

/-- The states that calls satisfying `P` reach from a new table for a symbol table operation, which
    has one region with one block. -/
inductive Run (P : SymbolTable → Context → Call → Prop) : SymbolTable → Context → Prop
  | new {st : SymbolTable} {ctx : Context} {tableOp : OpPtr} {region : RegionPtr}
      {body : BlockPtr} (hn : ctx.WellNested) (hregion : ctx.opRegions tableOp = [region])
      (hbody : ctx.regionBlocks region = [body]) (hnew : new ctx tableOp = some st) : Run P st ctx
  | call {st st' : SymbolTable} {ctx ctx' : Context} {c : Call}
      {result : Except SymbolTableErr Unit} (hrun : Run P st ctx) (hc : P st ctx c)
      (happly : c.apply st ctx = some (result, st', ctx')) : Run P st' ctx'

theorem Run.inv (h : Run (fun st ctx c => c.Safe st ctx) st ctx) : ∃ body, Inv st ctx body := by
  induction h with
  | new hn hregion hbody hnew =>
      exact ⟨_, new_inv (Context.HasBody.of_wellNested hn hregion hbody) hnew⟩
  | call _ hc happly ih =>
      obtain ⟨body, h⟩ := ih
      exact ⟨body, (Call.step h hc happly).inv⟩

/-- After any number of safe calls the table has just the symbols of the body, and a further safe
    call that returns an error leaves the table and the IR as they are. -/
theorem Run.agrees_of_safe (h : Run (fun st ctx c => c.Safe st ctx) st ctx) :
    st.Agrees ctx ∧ ∀ c : Call, c.Safe st ctx → ∀ e st' ctx',
      c.apply st ctx = some (.error e, st', ctx') → st' = st ∧ ctx' = ctx := by
  obtain ⟨body, h⟩ := h.inv
  exact ⟨h.agrees, fun c hc e st' ctx' happly => (Call.step h hc happly).error e rfl⟩

/-- A module with an empty body, and symbols with the given names that are in no block. -/
def moduleContext (names : List Identifier) : Context where
  operations op := match op.idx with
    | 0 => some { concreteOp := { opId := 0 }, regions := [⟨0⟩] }
    | k + 1 => (names[k]?).map (fun name =>
        { concreteOp := { opId := 1, isSymbol := true },
          attributes := [(Context.attrKeySymName, .identifier name)] })
  basicBlocks block := if block.idx = 0 then some { parentRegion := some ⟨0⟩ } else none
  regions region := if region.idx = 0 then some { parentOp := ⟨0⟩, blocks := [⟨0⟩] } else none
  nextOp := names.length + 1
  nextBlock := 1
  nextRegion := 1

section ModuleContext

variable (names : List Identifier)

theorem moduleContext_opParentBlock (op : OpPtr) :
    (moduleContext names).opParentBlock op = none := by
  obtain ⟨_ | k⟩ := op
  · rfl
  · cases hk : names[k]? <;> simp [Context.opParentBlock, moduleContext, hk]

theorem moduleContext_opRegions (op : OpPtr) :
    (moduleContext names).opRegions op = if op.idx = 0 then [⟨0⟩] else [] := by
  obtain ⟨_ | k⟩ := op
  · rfl
  · cases hk : names[k]? <;> simp [Context.opRegions, moduleContext, hk]

theorem moduleContext_blockOps (block : BlockPtr) : (moduleContext names).blockOps block = [] := by
  simp only [Context.blockOps, moduleContext]
  split <;> rfl

theorem moduleContext_regionBlocks (region : RegionPtr) :
    (moduleContext names).regionBlocks region = if region.idx = 0 then [⟨0⟩] else [] := by
  simp only [Context.regionBlocks, moduleContext]
  split <;> rfl

theorem moduleContext_wellNested : (moduleContext names).WellNested where
  op_mem block op := by
    rw [moduleContext_blockOps, moduleContext_opParentBlock]
    simp
  block_mem := by
    rintro ⟨region⟩ ⟨block⟩
    rw [moduleContext_regionBlocks]
    by_cases hregion : region = 0 <;> by_cases hblock : block = 0 <;>
      simp [Context.blockParentRegion, moduleContext, hregion, hblock, eq_comm]
  region_mem := by
    rintro ⟨op⟩ ⟨region⟩
    rw [moduleContext_opRegions]
    by_cases hop : op = 0 <;> by_cases hregion : region = 0 <;>
      simp [Context.regionParentOp, moduleContext, hop, hregion, eq_comm]
  ops_nodup block := by
    rw [moduleContext_blockOps]
    exact List.nodup_nil
  blocks_nodup region := by
    rw [moduleContext_regionBlocks]
    split <;> simp
  regions_nodup op := by
    rw [moduleContext_opRegions]
    split <;> simp
  op_lt := by
    rintro ⟨_ | k⟩ hop
    · exact Nat.succ_pos _
    · refine Nat.succ_lt_succ ?_
      by_contra hle
      exact hop (by simp [moduleContext, List.getElem?_eq_none (Nat.le_of_not_lt hle)])
  block_lt block hblock := by
    by_contra hle
    exact hblock (if_neg (by simp only [moduleContext] at hle; omega))
  region_lt region hregion := by
    by_contra hle
    exact hregion (if_neg (by simp only [moduleContext] at hle; omega))
  acyclic := by
    refine ⟨fun _ => 0, fun op parent hparent => ?_⟩
    rw [Context.parentOp, Context.opParentRegion_eq, moduleContext_opParentBlock] at hparent
    cases hparent

end ModuleContext

/-- The table of a module into which its first symbol was inserted, and what inserting a second
    one returns. -/
def insertTwo (names : List Identifier) : Option ((SymbolTable × Context) ×
    (Except SymbolTableErr Unit × SymbolTable × Context)) := do
  let st ← new (moduleContext names) ⟨0⟩
  let first ← (Call.insert ⟨1⟩ none).apply st (moduleContext names)
  let second ← (Call.insert ⟨2⟩ none).apply first.2.1 first.2.2
  some (first.2, second)

theorem insertTwo_run {P : SymbolTable → Context → Call → Prop} {names : List Identifier}
    {first : SymbolTable × Context} {second : Except SymbolTableErr Unit × SymbolTable × Context}
    (hP : ∀ st, new (moduleContext names) ⟨0⟩ = some st →
      P st (moduleContext names) (.insert ⟨1⟩ none))
    (h : insertTwo names = some (first, second)) :
    Run P first.1 first.2 ∧ (Call.insert ⟨2⟩ none).apply first.1 first.2 = some second := by
  simp only [insertTwo, Option.bind_eq_bind, Option.bind_eq_some_iff, Option.some.injEq,
    Prod.mk.injEq] at h
  obtain ⟨st, hnew, ⟨result, st₁, ctx₁⟩, hinsert, second', hsecond, rfl, rfl⟩ := h
  have hregion : (moduleContext names).opRegions ⟨0⟩ = [⟨0⟩] := rfl
  exact ⟨.call (.new (moduleContext_wellNested names) hregion rfl hnew) (hP st hnew)
    hinsert, hsecond⟩

theorem Run.agrees_of_safe_insertTwo :
    ∃ first second, insertTwo ["f", "g"] = some (first, second) ∧ first.1.Agrees first.2 := by
  obtain ⟨⟨first, second⟩, h⟩ : ∃ r, insertTwo ["f", "g"] = some r :=
    Option.isSome_iff_exists.mp (by decide +kernel)
  refine ⟨first, second, h, (Run.agrees_of_safe (insertTwo_run (fun st hnew => ?_) h).1).1⟩
  have hfree : (SymbolTable.new (moduleContext ["f", "g"]) ⟨0⟩).map (fun st => st.lookup "f") =
      some none := by
    decide +kernel
  rw [hnew, Option.map_some, Option.some.injEq] at hfree
  exact ⟨"f", by decide +kernel, Or.inr ⟨hfree, by decide +kernel, by simp⟩⟩

/-- The second symbol of one name is refused, and yet the table then maps the name to it. -/
theorem redefinition_changes_table : ∃ st ctx st' ctx',
    Run (fun _ _ _ => True) st ctx ∧
      (Call.insert ⟨2⟩ none).apply st ctx =
        some (.error (.symbolRedefined "f"), st', ctx') ∧
      st'.lookup "f" ≠ st.lookup "f" ∧ ¬ st'.Agrees ctx' := by
  have hquery : (insertTwo ["f", "f"]).map (fun r =>
      (r.1.1.lookup "f", r.2.1, r.2.2.1.lookup "f",
        (r.2.2.2.getBody r.2.2.1.symbolTableOp 0).map r.2.2.2.blockOps)) =
        some (some ⟨1⟩, .error (.symbolRedefined "f"), some ⟨2⟩, some [⟨1⟩]) := by
    decide +kernel
  obtain ⟨⟨⟨st, ctx⟩, result, st', ctx'⟩, h, hfields⟩ := Option.map_eq_some_iff.mp hquery
  simp only [Prod.mk.injEq] at hfields
  obtain ⟨hbefore, hresult, hafter, hbody⟩ := hfields
  obtain ⟨hrun, hinsert⟩ := insertTwo_run (P := fun _ _ _ => True) (fun _ _ => trivial) h
  refine ⟨st, ctx, st', ctx', hrun, hresult ▸ hinsert, ?_, ?_⟩
  · rw [hbefore, hafter]
    decide
  · rintro ⟨body, hgetBody, hentries⟩
    rw [hgetBody, Option.map_some, Option.some.injEq] at hbody
    have hmem := ((hentries "f" ⟨2⟩).mp hafter).1
    rw [hbody] at hmem
    exact absurd hmem (by decide)

end SymbolTable

end Pliron
