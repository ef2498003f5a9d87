/-
  Pliron.IR.SymbolTableWalk

  Walking a symbol table.

  The walk goes over the region of the symbol table operation and leaves out what is inside
  nested symbol tables.  It returns from a nested symbol table before the callback sees it.
-/

import Pliron.Graph.MutableWalkersCorrect

namespace Pliron

open Pliron.Lib TreeWalk Relation Walkers

namespace Context

variable {σ : Type} (ctx : Context) (tables : Nat → Bool)

/-- Does the operation implement `SymbolTableInterface`?  `tables` holds of the ids that do. -/
def isSymbolTable (op : OpPtr) : Bool :=
  (ctx.operations op).any (fun o => tables o.concreteOp.opId)

/-- The callback of the walk, around the one of the caller. -/
def skipNestedSymbolTablesCallback (callback : OpPtr → Check σ Unit WalkContinue) :
    IRNode → Check σ Unit WalkContinue
  | .operation opr => if ctx.isSymbolTable tables opr then pure .skip else callback opr
  | _ => pure .advance

/-- Walk the operations in the region of a symbol table operation, without traversing into
    nested symbol tables.  How the walk ended is not returned. -/
def walkSymbolTable (callback : OpPtr → Check σ Unit WalkContinue) (symbolTableOp : OpPtr) :
    StateT σ Option Unit := fun s => do
  let region ← (← ctx.operations symbolTableOp).regions[0]?
  let (_, s) ← walkNode ctx .preorderForward (ctx.skipNestedSymbolTablesCallback tables callback)
    (ctx.nodeCount + 1) (.region region) s
  some ((), s)

/-- The nearest symbol table from an operation on. -/
def nearestSymbolTable : Nat → OpPtr → Option (Option OpPtr)
  | 0, _ => none
  | fuel + 1, op =>
      if ctx.isSymbolTable tables op then some (some op)
      else match ctx.parentOp op with
        | none => some none
        | some parent => nearestSymbolTable fuel parent

/-! ## The operations of a symbol table -/

/-- The nearest symbol table that strictly encloses the operation is `table`. -/
inductive EnclosedBy (table : OpPtr) : OpPtr → Prop
  | child {op : OpPtr} (h : ctx.parentOp op = some table) : EnclosedBy table op
  | inner {op parent : OpPtr} (h : ctx.parentOp op = some parent)
      (hparent : ctx.isSymbolTable tables parent = false) (henclosed : EnclosedBy table parent) :
      EnclosedBy table op

variable {ctx tables} {table op parent : OpPtr} {region : RegionPtr}

/-- The way from an operation up to its parent. -/
theorem parentNode_of_parentOp (h : ctx.parentOp op = some parent) : ∃ block region,
    ctx.parentNode (.operation op) = some (.basicBlock block) ∧
    ctx.parentNode (.basicBlock block) = some (.region region) ∧
    ctx.regionParentOp region = some parent := by
  obtain ⟨region, hregion, hop⟩ := Option.bind_eq_some_iff.mp h
  obtain ⟨block, hblock, hparent⟩ := opParentRegion_eq_some.mp hregion
  refine ⟨block, region, ?_, ?_, hop⟩
  · rw [parentNode, hblock]
    rfl
  · rw [parentNode, hparent]
    rfl

/-- What a symbol table encloses lies inside its region. -/
theorem EnclosedBy.inside (hnest : ctx.WellNested) (hregions : ctx.opRegions table = [region])
    (h : ctx.EnclosedBy tables table op) : ctx.Inside (.region region) (.operation op) := by
  induction h with
  | child h =>
      obtain ⟨block, r, hop, hblock, hr⟩ := parentNode_of_parentOp h
      have hmem : r ∈ ctx.opRegions table := (hnest.region_mem table r).mpr hr
      rw [hregions, List.mem_singleton] at hmem
      subst hmem
      exact ((Above.refl _).tail hop).tail hblock
  | @inner op parent h _ _ ih =>
      obtain ⟨block, r, hop, hblock, hr⟩ := parentNode_of_parentOp h
      have hup : ctx.parentNode (.region r) = some (.operation parent) := by
        rw [parentNode, hr]
        rfl
      exact (((Above.refl _).tail hop).tail hblock |>.tail hup).trans ih

/-- The node belongs to the symbol table, with what is directly around it. -/
def Encloses (ctx : Context) (tables : Nat → Bool) (table : OpPtr) : IRNode → Prop
  | .operation op => ctx.EnclosedBy tables table op
  | .basicBlock block => ∃ p, ctx.blockParentOp block = some p ∧
      (p = table ∨ ctx.EnclosedBy tables table p)
  | .region region => ∃ p, ctx.regionParentOp region = some p ∧
      (p = table ∨ ctx.EnclosedBy tables table p)

/-- Without nested symbol tables, all that is inside the region is enclosed by its table. -/
theorem encloses_of_inside (hnest : ctx.WellNested) (hregions : ctx.opRegions table = [region])
    (hflat : ∀ op, ctx.EnclosedBy tables table op → ctx.isSymbolTable tables op = false)
    {node : IRNode} (h : ctx.Inside (.region region) node) : ctx.Encloses tables table node := by
  have hroot : ctx.Encloses tables table (.region region) := by
    refine ⟨table, (hnest.region_mem table region).mp ?_, .inl rfl⟩
    rw [hregions]
    exact List.mem_singleton_self region
  induction h using ReflTransGen.head_induction_on with
  | refl => exact hroot
  | @head node above hstep _ ih =>
      cases node with
      | operation op =>
          obtain ⟨block, hblock, rfl⟩ := Option.map_eq_some_iff.mp hstep
          obtain ⟨p, hp, henclosed⟩ := ih
          have hparent : ctx.parentOp op = some p := by
            rw [parentOp, opParentRegion_eq, hblock]
            exact hp
          rcases henclosed with rfl | henclosed
          · exact .child hparent
          · exact .inner hparent (hflat p henclosed) henclosed
      | basicBlock block =>
          obtain ⟨r, hr, rfl⟩ := Option.map_eq_some_iff.mp hstep
          obtain ⟨p, hp, henclosed⟩ := ih
          refine ⟨p, ?_, henclosed⟩
          rw [blockParentOp, hr]
          exact hp
      | region r =>
          obtain ⟨op, hop, rfl⟩ := Option.map_eq_some_iff.mp hstep
          exact ⟨op, hop, .inr ih⟩

/-! ## The calls of a walk -/

/-- A callback whose calls are recorded, with the answers. -/
def recordingOp (visit : OpPtr → σ → Reply Unit × σ) (op : OpPtr)
    (s : σ × List (OpPtr × Reply Unit)) : Reply Unit × (σ × List (OpPtr × Reply Unit)) :=
  let (reply, s') := visit op s.1
  (reply, (s', s.2 ++ [(op, reply)]))

/-- The operations inside a region, parents first and in order. -/
def opsInside (ctx : Context) (region : RegionPtr) : List OpPtr :=
  (preorder ctx.childNodes (ctx.nodeCount + 1) (.region region)).filterMap IRNode.asOp

/-- The callback is called once, in pre-order, for the operations that the table encloses. -/
structure SymbolWalkExact (ctx : Context) (tables : Nat → Bool) (table : OpPtr)
    (region : RegionPtr) (calls : List (OpPtr × Reply Unit)) : Prop where
  once : (calls.map Prod.fst).Nodup
  within : ∀ c ∈ calls, ctx.EnclosedBy tables table c.1
  inOrder : (calls.map Prod.fst).Sublist (ctx.opsInside region)
  /-- If no call breaks off the walk, only what was skipped is left out, -/
  complete : (∀ c ∈ calls, c.2.exit = none) → ∀ op, ctx.EnclosedBy tables table op →
    op ∈ calls.map Prod.fst ∨
      ∃ c ∈ calls, c.2 = .skip ∧ op ≠ c.1 ∧ ctx.Inside (.operation c.1) (.operation op)
  /-- and all of it. -/
  pruned : ∀ c ∈ calls, c.2 = .skip → ∀ op ∈ calls.map Prod.fst, op ≠ c.1 →
    ¬ ctx.Inside (.operation c.1) (.operation op)
  ends : ∀ front c back, calls = front ++ c :: back → c.2.exit ≠ none → back = []

/-- What the walk does at a node. -/
def visitNode (ctx : Context) (tables : Nat → Bool) (visit : OpPtr → σ → Reply Unit × σ)
    (node : IRNode) (s : σ) : Reply Unit × σ :=
  match node with
  | .operation op => if ctx.isSymbolTable tables op then (.skip, s) else visit op s
  | _ => (.advance, s)

theorem childrenOf_preorderForward : childrenOf .preorderForward ctx = ctx.childNodes := by
  funext node
  cases node with
  | operation op => rfl
  | basicBlock block => rfl
  | region region => rfl

theorem isPre_preorderForward : isPre .preorderForward = fun _ => true := by
  funext node
  cases node with
  | operation op => rfl
  | basicBlock block => rfl
  | region region => rfl

section Walk

variable {visit : OpPtr → σ → Reply Unit × σ} {s s' : σ × List (OpPtr × Reply Unit)}
  {log : List (Visit IRNode (σ × List (OpPtr × Reply Unit)) Unit)} {e : Option Unit}

theorem skipNestedSymbolTablesCallback_eq (visit : OpPtr → σ → Reply Unit × σ) :
    ctx.skipNestedSymbolTablesCallback tables (ofVisit visit) =
      ofVisit (visitNode ctx tables visit) := by
  funext node s
  cases node with
  | operation op =>
      rw [skipNestedSymbolTablesCallback, ofVisit, visitNode]
      by_cases htable : ctx.isSymbolTable tables op = true
      · rw [if_pos htable, if_pos htable]
        rfl
      · rw [if_neg htable, if_neg htable]
        rfl
  | basicBlock block => rfl
  | region region => rfl

/-- The call that a visit makes: none at blocks, regions and nested symbol tables. -/
def callAt (ctx : Context) (tables : Nat → Bool)
    (v : Visit IRNode (σ × List (OpPtr × Reply Unit)) Unit) : Option (OpPtr × Reply Unit) :=
  match v.node with
  | .operation op => if ctx.isSymbolTable tables op then none else some (op, v.reply)
  | _ => none

theorem callAt_eq_some {v : Visit IRNode (σ × List (OpPtr × Reply Unit)) Unit}
    {c : OpPtr × Reply Unit} : callAt ctx tables v = some c ↔
      v.node = .operation c.1 ∧ v.reply = c.2 ∧ ctx.isSymbolTable tables c.1 = false := by
  obtain ⟨node, before, reply, after⟩ := v
  obtain ⟨op, answer⟩ := c
  rw [callAt]
  cases node with
  | operation op' =>
      by_cases htable : ctx.isSymbolTable tables op' = true
      · simp only [htable, if_true]
        refine ⟨nofun, ?_⟩
        rintro ⟨hop, _, hnot⟩
        obtain rfl := IRNode.operation.inj hop
        exact absurd htable (Bool.eq_false_iff.mp hnot)
      · simp only [htable, if_false, Bool.false_eq_true]
        constructor
        · intro h
          obtain ⟨rfl, rfl⟩ := Prod.mk.inj (Option.some.inj h)
          exact ⟨rfl, rfl, Bool.eq_false_iff.mpr htable⟩
        · rintro ⟨hop, rfl, _⟩
          rw [IRNode.operation.inj hop]
  | basicBlock block => exact ⟨nofun, fun h => absurd h.1 nofun⟩
  | region region => exact ⟨nofun, fun h => absurd h.1 nofun⟩

/-- The operations called are operations visited. -/
theorem map_calls_eq : (log.filterMap (callAt ctx tables)).map Prod.fst =
    ((nodes log).filterMap IRNode.asOp).filter (fun op => !ctx.isSymbolTable tables op) := by
  rw [nodes, List.filterMap_map, List.filter_filterMap, List.map_filterMap]
  refine List.filterMap_congr (fun v _ => ?_)
  rw [callAt, Function.comp_apply]
  cases v.node with
  | operation op =>
      by_cases htable : ctx.isSymbolTable tables op = true
      · simp [IRNode.asOp, Option.filter, htable]
      · simp [IRNode.asOp, Option.filter, htable]
  | basicBlock block => rfl
  | region region => rfl

theorem mem_calls {op : OpPtr} : op ∈ (log.filterMap (callAt ctx tables)).map Prod.fst ↔
    .operation op ∈ nodes log ∧ ctx.isSymbolTable tables op = false := by
  rw [map_calls_eq, List.mem_filter, List.mem_filterMap, Bool.not_eq_true']
  refine and_congr_left (fun _ => ⟨?_, fun h => ⟨_, h, rfl⟩⟩)
  rintro ⟨node, hnode, hop⟩
  cases node with
  | operation op' => rwa [← Option.some.inj hop]
  | basicBlock block => exact absurd hop nofun
  | region region => exact absurd hop nofun

/-- Only the callback breaks off the walk. -/
theorem callAt_of_stop {v : Visit IRNode (σ × List (OpPtr × Reply Unit)) Unit}
    (hvisit : visitNode ctx tables (recordingOp visit) v.node v.before = (v.reply, v.after))
    (hstop : v.reply.exit ≠ none) : ∃ op, callAt ctx tables v = some (op, v.reply) := by
  obtain ⟨node, before, reply, after⟩ := v
  cases node with
  | basicBlock block =>
      obtain rfl : .advance = reply := congrArg Prod.fst hvisit
      exact absurd rfl hstop
  | region region =>
      obtain rfl : .advance = reply := congrArg Prod.fst hvisit
      exact absurd rfl hstop
  | operation op =>
      rw [visitNode] at hvisit
      by_cases htable : ctx.isSymbolTable tables op = true
      · simp only [htable, if_true] at hvisit
        obtain rfl : .skip = reply := congrArg Prod.fst hvisit
        exact absurd rfl hstop
      · exact ⟨op, callAt_eq_some.mpr ⟨rfl, rfl, Bool.eq_false_iff.mpr htable⟩⟩

/-- The calls recorded are those of the visits. -/
theorem calls_of_visits (hlinked : TreeWalk.Linked s log s') (hvisit : ∀ v ∈ log,
    visitNode ctx tables (recordingOp visit) v.node v.before = (v.reply, v.after)) :
    s'.2 = s.2 ++ log.filterMap (callAt ctx tables) := by
  induction log generalizing s with
  | nil =>
      obtain rfl : s = s' := hlinked
      rw [List.filterMap_nil, List.append_nil]
  | cons v log ih =>
      obtain ⟨rfl, hlinked⟩ := hlinked
      have hv := hvisit v List.mem_cons_self
      rw [ih hlinked (fun w hw => hvisit w (List.mem_cons_of_mem _ hw)), List.filterMap_cons]
      obtain ⟨node, before, reply, after⟩ := v
      cases node with
      | basicBlock block =>
          obtain rfl : before = after := congrArg Prod.snd hv
          rfl
      | region region =>
          obtain rfl : before = after := congrArg Prod.snd hv
          rfl
      | operation op =>
          rw [visitNode] at hv
          rw [callAt]
          by_cases htable : ctx.isSymbolTable tables op = true
          · simp only [htable, if_true] at hv ⊢
            obtain rfl : before = after := congrArg Prod.snd hv
            rfl
          · simp only [htable, Bool.false_eq_true, if_false] at hv ⊢
            have hreply : (visit op before.1).1 = reply := congrArg Prod.fst hv
            have hafter : before.2 ++ [(op, (visit op before.1).1)] = after.2 :=
              congrArg (fun p => p.2.2) hv
            rw [← hafter, hreply, List.append_assoc]
            rfl

/-- The walk of a symbol table walks its region. -/
theorem walkSymbolTable_walk (hnest : ctx.WellNested) (hregions : ctx.opRegions table = [region])
    (visit : OpPtr → σ → Reply Unit × σ) (s : σ) : ∃ log e s',
    ctx.walkSymbolTable tables (ofVisit (recordingOp visit)) table (s, []) =
        some ((), (s', log.filterMap (callAt ctx tables))) ∧
      Walk (fun _ => ctx.childNodes) (fun _ => true)
        (visitNode ctx tables (recordingOp visit)) [.region region] (s, []) log e
        (s', log.filterMap (callAt ctx tables)) := by
  have hroot : Level (childrenOf .preorderForward ctx) 0 (.region region) (.region region) := rfl
  have hwalk : WalksTo (fun _ => childrenOf .preorderForward ctx) .preorderForward
      (visitNode ctx tables (recordingOp visit)) (walkNode ctx .preorderForward
        (ofVisit (visitNode ctx tables (recordingOp visit))) (ctx.nodeCount + 1) (.region region))
      [.region region] (s, []) := walkNode_walksTo hnest hroot (by omega) (s, [])
  obtain ⟨log, e, ⟨s', calls⟩, hrun, hwalk⟩ := hwalk
  have hcalls : calls = log.filterMap (callAt ctx tables) :=
    calls_of_visits hwalk.linked hwalk.visit_eq
  subst hcalls
  rw [childrenOf_preorderForward, isPre_preorderForward] at hwalk
  refine ⟨log, e, s', ?_, hwalk⟩
  cases ho : ctx.operations table with
  | none =>
      rw [opRegions, ho] at hregions
      cases hregions
  | some o =>
      rw [opRegions, ho] at hregions
      have hregion : o.regions[0]? = some region := by
        rw [show o.regions = [region] from hregions]
        rfl
      rw [walkSymbolTable, skipNestedSymbolTablesCallback_eq, ho]
      simp only [Option.bind_eq_bind, Option.bind_some, hregion]
      rw [hrun]
      rfl

theorem below_childNodes (hnest : ctx.WellNested) {n x : IRNode} :
    Below ctx.childNodes n x ↔ ctx.Inside n x := by
  rw [← childrenOf_preorderForward]
  exact below_kidsOf (s := (ctx, ())) hnest

/-- The visits come in pre-order. -/
theorem calls_sublist (hnest : ctx.WellNested) (hnodup : (nodes log).Nodup)
    (hwalk : Walk (fun _ => ctx.childNodes) (fun _ => true)
      (visitNode ctx tables (recordingOp visit)) [.region region] s log e s') :
    ((log.filterMap (callAt ctx tables)).map Prod.fst).Sublist (ctx.opsInside region) := by
  have hlevel : Level (kidsOf .preorderForward (ctx, ())) 0 (.region region)
    (.region region) := rfl
  have hfits : ∀ n ∈ [IRNode.region region], Fits ctx.childNodes (ctx.nodeCount + 1) n := by
    intro n hn
    rw [List.mem_singleton.mp hn, ← childrenOf_preorderForward]
    exact fits_kidsOf (s := (ctx, ())) hnest hlevel (by simp)
  have horder := hwalk.inOrder (fun _ _ => rfl) hfits (fun v hv _ => skip_iff hnodup hv)
  rw [List.flatMap_singleton] at horder
  rw [map_calls_eq]
  refine List.filter_sublist.trans (List.Sublist.filterMap IRNode.asOp ?_)
  exact horder.1.sublist.trans (order_sublist_preorder (fun _ => rfl) _)

/-- Only the last call may break off the walk. -/
theorem calls_end (hends : EndsWith log s' e) {front back : List (OpPtr × Reply Unit)}
    {c : OpPtr × Reply Unit} (hcalls : log.filterMap (callAt ctx tables) = front ++ c :: back)
    (hstop : c.2.exit ≠ none) : back = [] := by
  have hnot : ∀ {log : List (Visit IRNode (σ × List (OpPtr × Reply Unit)) Unit)}, Unstopped log →
      c ∉ log.filterMap (callAt ctx tables) := by
    intro log hlog hc
    obtain ⟨v, hv, hcall⟩ := List.mem_filterMap.mp hc
    obtain ⟨_, hreply, _⟩ := callAt_eq_some.mp hcall
    rw [← hreply] at hstop
    exact hstop (hlog v hv)
  have hin : c ∈ log.filterMap (callAt ctx tables) := by
    rw [hcalls]
    exact List.mem_append_right _ List.mem_cons_self
  cases e with
  | none => exact absurd hin (hnot hends)
  | some b =>
      obtain ⟨first, v, rfl, _, _, hfirst⟩ := hends
      rw [List.filterMap_append] at hcalls
      rcases List.eq_nil_or_concat back with rfl | ⟨back, x, rfl⟩
      · rfl
      · -- then the call before the last one breaks off the walk
        exfalso
        cases hlast : callAt ctx tables v with
        | none =>
            rw [List.filterMap_append, List.filterMap_cons, hlast] at hin
            rw [List.filterMap_nil, List.append_nil] at hin
            exact hnot hfirst hin
        | some d =>
            have hone : [v].filterMap (callAt ctx tables) = [d] := by
              rw [List.filterMap_cons, hlast]
              rfl
            rw [hone, List.concat_eq_append, ← List.cons_append, ← List.append_assoc] at hcalls
            have hfront := List.append_inj_left' hcalls rfl
            refine hnot hfirst ?_
            rw [hfront]
            exact List.mem_append_right _ List.mem_cons_self

/-- Without nested symbol tables the walk is exact. -/
theorem symbolWalkExact_of_flat (hnest : ctx.WellNested)
    (hregions : ctx.opRegions table = [region])
    (hflat : ∀ op, ctx.EnclosedBy tables table op → ctx.isSymbolTable tables op = false)
    (hwalk : Walk (fun _ => ctx.childNodes) (fun _ => true)
      (visitNode ctx tables (recordingOp visit)) [.region region] s log e s') :
    ctx.SymbolWalkExact tables table region (log.filterMap (callAt ctx tables)) := by
  have htree : IsTree ctx.childNodes := by
    rw [← childrenOf_preorderForward]
    exact isTree_kidsOf (s := (ctx, ())) hnest
  have hready : Ready (fun _ => ctx.childNodes) (.region region) (fun _ => True)
      [.region region] s := {
    start := trivial
    below := by
      intro n hn
      rw [List.mem_singleton.mp hn]
      exact Below.refl _ _
    apart := List.pairwise_singleton _ _ }
  have hout := (Rules.const htree).outcome hwalk hready
  have hinside : ∀ v ∈ log, ctx.Inside (.region region) v.node := fun v hv =>
    (below_childNodes hnest).mp (hout.alive v hv).2
  exact {
    once := by
      rw [map_calls_eq]
      refine List.Nodup.filter _ (List.Nodup.filterMap ?_ hout.nodup)
      intro a b op ha hb
      cases a with
      | operation op' =>
          cases b with
          | operation op'' => exact congrArg _ (Option.some.inj (ha.trans hb.symm))
          | basicBlock block => exact absurd hb nofun
          | region region => exact absurd hb nofun
      | basicBlock block => exact absurd ha nofun
      | region region => exact absurd ha nofun
    within := by
      intro c hc
      obtain ⟨v, hv, hcall⟩ := List.mem_filterMap.mp hc
      have hin := hinside v hv
      rw [(callAt_eq_some.mp hcall).1] at hin
      exact encloses_of_inside hnest hregions hflat hin
    inOrder := calls_sublist hnest hout.nodup hwalk
    complete := by
      intro hunstopped op hop
      have hbelow : Below ctx.childNodes (.region region) (.operation op) :=
        (below_childNodes hnest).mpr (hop.inside hnest hregions)
      -- no callback stops the walk, so it ends by itself
      have he : e = none := by
        cases e with
        | none => rfl
        | some b =>
            obtain ⟨front, v, rfl, hreply, _, _⟩ := hwalk.endsWith
            have hv : v ∈ front ++ [v] := List.mem_append_right _ (List.mem_singleton_self v)
            obtain ⟨op', hcall⟩ := callAt_of_stop (hwalk.visit_eq v hv) (by
              rw [hreply]
              exact nofun)
            have hexit := hunstopped _ (List.mem_filterMap.mpr ⟨v, hv, hcall⟩)
            rw [hreply] at hexit
            exact absurd hexit nofun
      -- an operation is reached, or it is below one whose callback skips
      rcases hout.covered he (.operation op) (.inl ⟨_, List.mem_singleton_self _, hbelow⟩)
        with hmem | ⟨v, hv, hskip, _, hne, hx⟩
      · exact .inl (mem_calls.mpr ⟨hmem, hflat op hop⟩)
      · have henclosed := encloses_of_inside hnest hregions hflat (hinside v hv)
        have hvisit := hwalk.visit_eq v hv
        obtain ⟨node, before, reply, after⟩ := v
        obtain rfl : reply = .skip := hskip
        cases node with
        | operation op' =>
            refine .inr ⟨(op', .skip), List.mem_filterMap.mpr ⟨_, hv, ?_⟩, rfl, ?_, ?_⟩
            · exact callAt_eq_some.mpr ⟨rfl, rfl, hflat op' henclosed⟩
            · exact fun heq => hne (congrArg _ heq)
            · exact (below_childNodes hnest).mp hx
        | basicBlock block => exact absurd (congrArg Prod.fst hvisit) nofun
        | region r => exact absurd (congrArg Prod.fst hvisit) nofun
    pruned := by
      intro c hc hskip op hop hne hin
      obtain ⟨v, hv, hcall⟩ := List.mem_filterMap.mp hc
      obtain ⟨hnode, hreply, _⟩ := callAt_eq_some.mp hcall
      refine hout.pruned (.operation op) ⟨v, hv, hreply.trans hskip, rfl, ?_, ?_⟩
        (mem_calls.mp hop).1
      · rw [hnode]
        exact fun heq => hne (IRNode.operation.inj heq)
      · rw [hnode]
        exact (below_childNodes hnest).mpr hin
    ends := fun _ _ _ hcalls hstop => calls_end hwalk.endsWith hcalls hstop }

end Walk

/-- Every walk of a symbol table is exact if and only if no symbol table is nested in it without
    another one in between: the callback is not called for a nested symbol table. -/
theorem walkSymbolTable_exact_iff (hnest : ctx.WellNested)
    (hregions : ctx.opRegions table = [region]) :
    (∀ (σ : Type) (visit : OpPtr → σ → Reply Unit × σ) (s : σ), ∃ calls s',
      ctx.walkSymbolTable tables (ofVisit (recordingOp visit)) table (s, []) =
          some ((), (s', calls)) ∧
        ctx.SymbolWalkExact tables table region calls) ↔
      ∀ op, ctx.EnclosedBy tables table op → ctx.isSymbolTable tables op = false := by
  constructor
  · intro hexact op hop
    by_contra htable
    -- a callback that always goes on is called on everything but nested tables
    obtain ⟨calls, s', hrun, hcalls⟩ := hexact Unit (fun _ s => (.advance, s)) ()
    obtain ⟨log, e, s'', hrun', hwalk⟩ : ∃ log e s'', ctx.walkSymbolTable tables
          (ofVisit (recordingOp (fun _ s => (.advance, s)))) table ((), []) =
            some ((), (s'', log.filterMap (callAt ctx tables))) ∧
        Walk (fun _ => ctx.childNodes) (fun _ => true)
          (visitNode ctx tables (recordingOp (fun _ s => (.advance, s)))) [.region region] ((), [])
          log e (s'', log.filterMap (callAt ctx tables)) :=
      walkSymbolTable_walk hnest hregions (fun _ s => (.advance, s)) ()
    rw [hrun] at hrun'
    obtain rfl : calls = log.filterMap (callAt ctx tables) :=
      congrArg (fun p => p.2.2) (Option.some.inj hrun')
    have hadvance : ∀ c ∈ log.filterMap (callAt ctx tables), c.2 = .advance := by
      intro c hc
      obtain ⟨v, hv, hcall⟩ := List.mem_filterMap.mp hc
      obtain ⟨hnode, hreply, hnot⟩ := callAt_eq_some.mp hcall
      have hvisit := hwalk.visit_eq v hv
      rw [hnode, visitNode, hnot] at hvisit
      exact hreply.symm.trans (congrArg Prod.fst hvisit).symm
    rcases hcalls.complete (fun c hc => by rw [hadvance c hc]; rfl) op hop with hmem | hmem
    · exact htable (mem_calls.mp hmem).2
    · obtain ⟨c, hc, hskip, _⟩ := hmem
      rw [hadvance c hc] at hskip
      exact absurd hskip nofun
  · intro hflat σ visit s
    obtain ⟨log, e, s', hrun, hwalk⟩ := walkSymbolTable_walk hnest hregions visit s
    exact ⟨_, s', hrun, symbolWalkExact_of_flat hnest hregions hflat hwalk⟩

/-! ## A module with one operation -/

/-- Operation 0 is a module, with an operation of the given id in its body. -/
def moduleWith (opId : Nat) : Context where
  operations := fun op => match op.idx with
    | 0 => some { concreteOp := { opId := 0 }, regions := [⟨0⟩] }
    | 1 => some { concreteOp := { opId := opId }, parentBlock := some ⟨0⟩ }
    | _ => none
  basicBlocks := fun block => match block.idx with
    | 0 => some { ops := [⟨1⟩], parentRegion := some ⟨0⟩ }
    | _ => none
  regions := fun region => match region.idx with
    | 0 => some { parentOp := ⟨0⟩, blocks := [⟨0⟩] }
    | _ => none
  nextOp := 2
  nextBlock := 1
  nextRegion := 1

theorem moduleWith_wellNested (opId : Nat) : (moduleWith opId).WellNested where
  op_mem := by
    rintro ⟨_ | i⟩ ⟨_ | _ | j⟩ <;> simp [blockOps, opParentBlock, moduleWith]
  block_mem := by
    rintro ⟨_ | i⟩ ⟨_ | j⟩ <;> simp [regionBlocks, blockParentRegion, moduleWith]
  region_mem := by
    rintro ⟨_ | _ | i⟩ ⟨_ | j⟩ <;> simp [opRegions, regionParentOp, moduleWith]
  ops_nodup := by
    rintro ⟨_ | i⟩ <;> simp [blockOps, moduleWith]
  blocks_nodup := by
    rintro ⟨_ | i⟩ <;> simp [regionBlocks, moduleWith]
  regions_nodup := by
    rintro ⟨_ | _ | i⟩ <;> simp [opRegions, moduleWith]
  op_lt := by
    rintro ⟨_ | _ | i⟩ <;> simp [moduleWith]
  block_lt := by
    rintro ⟨_ | i⟩ <;> simp [moduleWith]
  region_lt := by
    rintro ⟨_ | i⟩ <;> simp [moduleWith]
  acyclic := by
    refine ⟨OpPtr.idx, ?_⟩
    rintro ⟨_ | _ | i⟩ parent <;>
      simp [parentOp, opParentRegion, opParentBlock, blockParentRegion, regionParentOp,
        moduleWith]
    rintro rfl
    rfl

theorem walkSymbolTable_exact_iff_module :
    (∀ (σ : Type) (visit : OpPtr → σ → Reply Unit × σ) (s : σ), ∃ calls s',
      (moduleWith 1).walkSymbolTable (fun id => id == 0) (ofVisit (recordingOp visit)) ⟨0⟩
          (s, []) = some ((), (s', calls)) ∧
        (moduleWith 1).SymbolWalkExact (fun id => id == 0) ⟨0⟩ ⟨0⟩ calls) ↔
      ∀ op, (moduleWith 1).EnclosedBy (fun id => id == 0) ⟨0⟩ op →
        (moduleWith 1).isSymbolTable (fun id => id == 0) op = false :=
  walkSymbolTable_exact_iff (moduleWith_wellNested 1) rfl

/-- A module inside a module: the callback is not called for it. -/
theorem walkSymbolTable_nested : (moduleWith 0).WellNested ∧
    ¬ ∀ (σ : Type) (visit : OpPtr → σ → Reply Unit × σ) (s : σ), ∃ calls s',
      (moduleWith 0).walkSymbolTable (fun id => id == 0) (ofVisit (recordingOp visit)) ⟨0⟩
          (s, []) = some ((), (s', calls)) ∧
        (moduleWith 0).SymbolWalkExact (fun id => id == 0) ⟨0⟩ ⟨0⟩ calls := by
  refine ⟨moduleWith_wellNested 0, fun hexact => ?_⟩
  obtain ⟨calls, s', hrun, hcalls⟩ := hexact Unit (fun _ s => (.advance, s)) ()
  have hnone : (moduleWith 0).walkSymbolTable (fun id => id == 0)
      (ofVisit (recordingOp (fun _ (s : Unit) => (.advance, s)))) ⟨0⟩ ((), []) =
        some ((), ((), [])) := rfl
  rw [hnone] at hrun
  obtain rfl : [] = calls := congrArg (fun p => p.2.2) (Option.some.inj hrun)
  have hchild : (moduleWith 0).EnclosedBy (fun id => id == 0) ⟨0⟩ ⟨1⟩ := .child rfl
  rcases hcalls.complete (fun c hc => absurd hc List.not_mem_nil) ⟨1⟩ hchild with hmem | hmem
  · exact absurd hmem List.not_mem_nil
  · obtain ⟨c, hc, _⟩ := hmem
    exact absurd hc List.not_mem_nil

end Context

end Pliron
