/-
  Pliron.LLVM.ImportTypes

  What the conversion of a type does to names: it legalises the names of the type's structs in
  order, and gives the type with each of these renamed.
-/

import Pliron.LLVM.ImportNames

namespace Pliron.ImportNames

variable {o : Type} {isAlphabetic : Char → Bool} {s s' s'' : State o}

/-! ## Renaming -/

mutual

/-- The type of the LLVM dialect with the structs' names changed. -/
def LLVMType.rename (σ : String → String) : LLVMType → TypeHandle
  | .scalar ty => .scalar ty
  | .array elem len => .array (elem.rename σ) len
  | .vector elem len scalable => .vector (elem.rename σ) len scalable
  | .function ret params isVarArg => .func (ret.rename σ) (params.rename σ) isVarArg
  | .struct fields isPacked => .struct (fields.rename σ) isPacked
  | .namedStruct name _ _ => .namedStruct (σ name)
  | .bodiless name => .namedStruct (σ name)

/-- The types of the LLVM dialect with the structs' names changed. -/
def LLVMTypes.rename (σ : String → String) : LLVMTypes → TypeHandles
  | .nil => .nil
  | .cons ty rest => .cons (ty.rename σ) (rest.rename σ)

end

/-- The names of the structs in a type, in the order in which they are legalised. -/
def LLVMType.structNames (ty : LLVMType) : List String := ty.namedStructs.map Prod.fst

/-- The names of the structs in types. -/
def LLVMTypes.structNames (tys : LLVMTypes) : List String := tys.namedStructs.map Prod.fst

mutual

theorem LLVMType.rename_congr {σ σ' : String → String} : (ty : LLVMType) →
    (∀ name ∈ ty.structNames, σ name = σ' name) → ty.rename σ = ty.rename σ'
  | .scalar _, _ => rfl
  | .array elem len, h => by
      rw [LLVMType.rename, LLVMType.rename, elem.rename_congr h]
  | .vector elem len scalable, h => by
      rw [LLVMType.rename, LLVMType.rename, elem.rename_congr h]
  | .function ret params isVarArg, h => by
      simp only [LLVMType.structNames, LLVMType.namedStructs, List.map_append, List.mem_append] at h
      rw [LLVMType.rename, LLVMType.rename, ret.rename_congr fun name hname => h name (Or.inl hname),
        params.rename_congr fun name hname => h name (Or.inr hname)]
  | .struct fields isPacked, h => by
      rw [LLVMType.rename, LLVMType.rename, fields.rename_congr h]
  | .namedStruct name fields isPacked, h => by
      rw [LLVMType.rename, LLVMType.rename, h name List.mem_cons_self]
  | .bodiless name, h => by
      rw [LLVMType.rename, LLVMType.rename, h name List.mem_cons_self]

theorem LLVMTypes.rename_congr {σ σ' : String → String} : (tys : LLVMTypes) →
    (∀ name ∈ tys.structNames, σ name = σ' name) → tys.rename σ = tys.rename σ'
  | .nil, _ => rfl
  | .cons ty rest, h => by
      simp only [LLVMTypes.structNames, LLVMTypes.namedStructs, List.map_append, List.mem_append] at h
      rw [LLVMTypes.rename, LLVMTypes.rename, ty.rename_congr fun name hname => h name (Or.inl hname),
        rest.rename_congr fun name hname => h name (Or.inr hname)]

end

mutual

/-- The structs within a struct of a type are structs of the type. -/
theorem LLVMType.namedStructs_subset : (ty : LLVMType) → ∀ entry ∈ ty.namedStructs,
    entry.2.namedStructs ⊆ ty.namedStructs
  | .scalar _ => nofun
  | .array elem _ => elem.namedStructs_subset
  | .vector elem _ _ => elem.namedStructs_subset
  | .function ret params _ => by
      intro entry hentry
      rw [LLVMType.namedStructs] at hentry ⊢
      rcases List.mem_append.mp hentry with hentry | hentry
      · exact List.subset_append_of_subset_left _ (ret.namedStructs_subset entry hentry)
      · exact List.subset_append_of_subset_right _ (params.namedStructs_subset entry hentry)
  | .struct fields _ => fields.namedStructs_subset
  | .namedStruct name fields isPacked => by
      intro entry hentry
      rw [LLVMType.namedStructs] at hentry
      rcases List.mem_cons.mp hentry with rfl | hentry
      · exact List.Subset.refl _
      · exact List.subset_cons_of_subset _ (fields.namedStructs_subset entry hentry)
  | .bodiless name => by
      intro entry hentry
      rw [List.mem_singleton.mp (show entry ∈ [(name, LLVMType.bodiless name)] from hentry)]
      exact List.Subset.refl _

theorem LLVMTypes.namedStructs_subset : (tys : LLVMTypes) → ∀ entry ∈ tys.namedStructs,
    entry.2.namedStructs ⊆ tys.namedStructs
  | .nil => nofun
  | .cons ty rest => by
      intro entry hentry
      rw [LLVMTypes.namedStructs] at hentry ⊢
      rcases List.mem_append.mp hentry with hentry | hentry
      · exact List.subset_append_of_subset_left _ (ty.namedStructs_subset entry hentry)
      · exact List.subset_append_of_subset_right _ (rest.namedStructs_subset entry hentry)

end

/-! ## The type store -/

/-- A struct is in the type store under its name, with its body if it has one. -/
def Stored (structs : TypeStore) (σ : String → String) (ty : LLVMType) : Prop :=
  match ty with
  | .namedStruct name fields isPacked =>
    structs (σ name) = some (some (fields.rename σ, isPacked))
  | .bodiless name => structs (σ name) ≠ none
  | _ => True

/-- Structs stay in the store, and bodies do not change. -/
def StoreGrows (structs structs' : TypeStore) : Prop :=
  (∀ id, structs id ≠ none → structs' id ≠ none) ∧
    ∀ id body, structs id = some (some body) → structs' id = some (some body)

theorem StoreGrows.refl (structs : TypeStore) : StoreGrows structs structs :=
  ⟨fun _ h => h, fun _ _ h => h⟩

theorem StoreGrows.trans {structs structs' structs'' : TypeStore} (h : StoreGrows structs structs')
    (h' : StoreGrows structs' structs'') : StoreGrows structs structs'' :=
  ⟨fun id hid => h'.1 id (h.1 id hid), fun id body hid => h'.2 id body (h.2 id body hid)⟩

theorem storeGrows_insert {structs : TypeStore} {id : String}
    {body : Option (TypeHandles × Bool)} (h : ∀ b, structs id ≠ some (some b)) :
    StoreGrows structs (structs.insert id body) := by
  constructor
  · intro id' hid'
    by_cases heq : id' = id
    · subst heq
      rw [HMap.insert_self]
      exact nofun
    · rwa [HMap.insert_of_ne heq]
  · intro id' b hid'
    have hne : id' ≠ id := by
      rintro rfl
      exact h b hid'
    rwa [HMap.insert_of_ne hne]

/-- A named struct that is got or created is in the store afterwards. -/
theorem getNamed_ok {structs structs' : TypeStore} {id : String}
    {body : Option (TypeHandles × Bool)} (hr : getNamed structs id body = .ok structs') :
    StoreGrows structs structs' ∧ structs' id ≠ none ∧
      ∀ b, body = some b → structs' id = some (some b) := by
  unfold getNamed at hr
  match body, hid : structs id with
  | none, none =>
      rw [hid] at hr
      obtain rfl := Except.ok.inj hr
      refine ⟨storeGrows_insert (by simp [hid]), ?_, nofun⟩
      rw [HMap.insert_self]
      exact nofun
  | none, some existing =>
      rw [hid] at hr
      obtain rfl := Except.ok.inj hr
      refine ⟨StoreGrows.refl _, ?_, nofun⟩
      rw [hid]
      exact nofun
  | some body, some (some existingBody) =>
      rw [hid] at hr
      dsimp only at hr
      by_cases heq : existingBody = body
      · rw [if_neg (not_not_intro heq)] at hr
        obtain rfl := Except.ok.inj hr
        refine ⟨StoreGrows.refl _, ?_, fun b hb => ?_⟩
        · rw [hid]
          exact nofun
        · rw [hid, heq, Option.some.inj hb]
      · rw [if_pos heq] at hr
        exact nomatch hr
  | some body, none =>
      rw [hid] at hr
      obtain rfl := Except.ok.inj hr
      refine ⟨storeGrows_insert (by simp [hid]), ?_, fun b hb => ?_⟩
      · rw [HMap.insert_self]
        exact nofun
      · rw [HMap.insert_self, hb]
  | some body, some none =>
      rw [hid] at hr
      obtain rfl := Except.ok.inj hr
      refine ⟨storeGrows_insert (by simp [hid]), ?_, fun b hb => ?_⟩
      · rw [HMap.insert_self]
        exact nofun
      · rw [HMap.insert_self, hb]

/-- It is refused only for the body that the store has. -/
theorem getNamed_succeeds (structs : TypeStore) (id : String) (body : Option (TypeHandles × Bool))
    (h : ∀ b existing, body = some b → structs id = some (some existing) → existing = b) :
    ∃ structs', getNamed structs id body = .ok structs' ∧
      ∀ id' b, structs' id' = some (some b) → structs id' = some (some b) ∨
        (id' = id ∧ body = some b) := by
  have hinsert : ∀ id' b, structs.insert id body id' = some (some b) →
      structs id' = some (some b) ∨ (id' = id ∧ body = some b) := by
    intro id' b hid'
    rcases HMap.insert_eq_some_iff.mp hid' with ⟨rfl, hb⟩ | ⟨-, hid'⟩
    · exact Or.inr ⟨rfl, hb.symm⟩
    · exact Or.inl hid'
  unfold getNamed
  match body, hid : structs id with
  | none, none => exact ⟨_, rfl, hinsert⟩
  | none, some existing => exact ⟨_, rfl, fun _ _ hid' => Or.inl hid'⟩
  | some body, some (some existingBody) =>
      have heq := h body existingBody rfl hid
      exact ⟨structs, if_neg (not_not_intro heq), fun _ _ hid' => Or.inl hid'⟩
  | some body, none => exact ⟨_, rfl, hinsert⟩
  | some body, some none => exact ⟨_, rfl, hinsert⟩

/-! ## Conversions that end -/

/-- The identifiers that a legaliser has given. -/
def idOf (l : Legaliser) (name : String) : String := (l.strToId name).getD ""

/-- Does the legaliser know a name? -/
def Known (l : Legaliser) (name : String) : Prop := ∃ id, l.strToId name = some id

theorem Known.mono {l l' : Legaliser} {name : String} (h : Known l name) (hext : l.Extends l') :
    Known l' name ∧ idOf l' name = idOf l name := by
  obtain ⟨id, hid⟩ := h
  refine ⟨⟨id, hext name id hid⟩, ?_⟩
  rw [idOf, idOf, hid, hext name id hid]

/-- The type is converted already: its names are known and its structs stored. -/
structure Known.Type (s : State o) (structs : List (String × LLVMType)) : Prop where
  names : ∀ entry ∈ structs, Known s.idLegaliser entry.1
  stored : ∀ entry ∈ structs, Stored s.structs (idOf s.idLegaliser) entry.2

/-- The cache has what the conversion of a type gives. -/
structure CacheInv (s : State o) : Prop where
  consistent : s.idLegaliser.Consistent
  handle : ∀ ty handle, s.typeCache ty = some handle → handle = ty.rename (idOf s.idLegaliser)
  known : ∀ ty handle, s.typeCache ty = some handle → Known.Type s ty.namedStructs

/-- What a conversion does to the state: it legalises names in order, and stores structs. -/
structure Converts (isAlphabetic : Char → Bool) (names : List String)
    (structs : List (String × LLVMType)) (s s' : State o) : Prop where
  legaliser : s'.idLegaliser = s.idLegaliser.legaliseAll isAlphabetic names
  symbols : s'.symbolNames = s.symbolNames
  grows : StoreGrows s.structs s'.structs
  inv : CacheInv s'
  known : Known.Type s' structs

/-- Structs within types, with all structs within these. -/
def Closed (structs : List (String × LLVMType)) : Prop :=
  ∀ entry ∈ structs, ∀ name ∈ entry.2.structNames, name ∈ structs.map Prod.fst

theorem LLVMType.namedStructs_closed (ty : LLVMType) : Closed ty.namedStructs := by
  intro entry hentry name hname
  obtain ⟨inner, hinner, rfl⟩ := List.mem_map.mp hname
  exact List.mem_map_of_mem (ty.namedStructs_subset entry hentry hinner)

theorem LLVMTypes.namedStructs_closed (tys : LLVMTypes) : Closed tys.namedStructs := by
  intro entry hentry name hname
  obtain ⟨inner, hinner, rfl⟩ := List.mem_map.mp hname
  exact List.mem_map_of_mem (tys.namedStructs_subset entry hentry hinner)

/-- A stored struct stays stored, when its names keep their identifiers. -/
theorem Stored.mono {structs structs' : TypeStore} {σ σ' : String → String} {ty : LLVMType}
    (h : Stored structs σ ty) (hgrows : StoreGrows structs structs')
    (hσ : ∀ name ∈ ty.structNames, σ' name = σ name) : Stored structs' σ' ty := by
  match ty with
  | .scalar _ | .array _ _ | .vector _ _ _ | .function _ _ _ | .struct _ _ => trivial
  | .bodiless name =>
      show structs' (σ' name) ≠ none
      rw [hσ name List.mem_cons_self]
      exact hgrows.1 _ h
  | .namedStruct name fields isPacked =>
      show structs' (σ' name) = some (some (fields.rename σ', isPacked))
      rw [hσ name List.mem_cons_self,
        fields.rename_congr fun n hn => hσ n (List.mem_cons_of_mem name hn)]
      exact hgrows.2 _ _ h

theorem Known.Type.mono {structs : List (String × LLVMType)} (h : Known.Type s structs)
    (hclosed : Closed structs) (hext : s.idLegaliser.Extends s'.idLegaliser)
    (hgrows : StoreGrows s.structs s'.structs) : Known.Type s' structs := by
  refine ⟨fun entry hentry => ((h.names entry hentry).mono hext).1, fun entry hentry => ?_⟩
  refine (h.stored entry hentry).mono hgrows fun name hname => ?_
  obtain ⟨entry', hentry', rfl⟩ := List.mem_map.mp (hclosed entry hentry name hname)
  exact ((h.names entry' hentry').mono hext).2

namespace Converts

variable {names names' : List String} {structs structs' : List (String × LLVMType)}

theorem legaliser_extends (h : Converts isAlphabetic names structs s s')
    (hs : s.idLegaliser.Consistent) : s.idLegaliser.Extends s'.idLegaliser := by
  rw [h.legaliser]
  exact (Legaliser.legaliseAll_spec isAlphabetic _ hs).2.1

/-- What is converted already is not converted again. -/
theorem refl (h : CacheInv s) (hnames : ∀ name ∈ names, Known s.idLegaliser name)
    (hknown : Known.Type s structs) : Converts isAlphabetic names structs s s :=
  ⟨(Legaliser.legaliseAll_of_known hnames).symm, rfl, StoreGrows.refl _, h, hknown⟩

theorem trans (h : Converts isAlphabetic names structs s s') (hclosed : Closed structs)
    (h' : Converts isAlphabetic names' structs' s' s'') :
    Converts isAlphabetic (names ++ names') (structs ++ structs') s s'' := by
  have hknown := h.known.mono hclosed (h'.legaliser_extends h.inv.consistent) h'.grows
  refine ⟨?_, h'.symbols.trans h.symbols, h.grows.trans h'.grows, h'.inv, ⟨?_, ?_⟩⟩
  · rw [h'.legaliser, h.legaliser, Legaliser.legaliseAll_append]
  · intro entry hentry
    exact (List.mem_append.mp hentry).elim (hknown.names entry) (h'.known.names entry)
  · intro entry hentry
    exact (List.mem_append.mp hentry).elim (hknown.stored entry) (h'.known.stored entry)

end Converts

/-- Peel one step of a computation that ends. -/
theorem bind_eq_ok {ε α β : Type} {x : Except ε α} {f : α → Except ε β} {b : β}
    (h : (x >>= f) = .ok b) : ∃ a, x = .ok a ∧ f a = .ok b := by
  cases x with
  | error e => exact nomatch h
  | ok a => exact ⟨a, rfl, h⟩

theorem bind_of_ok {ε α β : Type} {x : Except ε α} {f : α → Except ε β} {a : α} (h : x = .ok a) :
    (x >>= f) = f a := by
  rw [h]
  rfl

/-- The conversion of types legalises the names of their structs. -/
abbrev ConvertsTypes (isAlphabetic : Char → Bool) (structs : List (String × LLVMType))
    (s s' : State o) : Prop :=
  Converts isAlphabetic (structs.map Prod.fst) structs s s'

theorem ConvertsTypes.refl {structs : List (String × LLVMType)} (h : CacheInv s)
    (hknown : Known.Type s structs) : ConvertsTypes isAlphabetic structs s s :=
  Converts.refl h (fun _ hname => by
    obtain ⟨entry, hentry, rfl⟩ := List.mem_map.mp hname
    exact hknown.names entry hentry) hknown

theorem ConvertsTypes.trans {structs structs' : List (String × LLVMType)}
    (h : ConvertsTypes isAlphabetic structs s s') (hclosed : Closed structs)
    (h' : ConvertsTypes isAlphabetic structs' s' s'') :
    ConvertsTypes isAlphabetic (structs ++ structs') s s'' := by
  have htrans := Converts.trans h hclosed h'
  rwa [← List.map_append] at htrans

/-- A converted type is the type renamed, in the state after it. -/
def Gives (isAlphabetic : Char → Bool) (ty : LLVMType) (s : State o) (handle : TypeHandle)
    (s' : State o) : Prop :=
  ConvertsTypes isAlphabetic ty.namedStructs s s' ∧ handle = ty.rename (idOf s'.idLegaliser)

theorem cached_ok {ty : LLVMType} {handle : TypeHandle}
    {convert : State o → Except StructErr (TypeHandle × State o)} (h : CacheInv s)
    (hconvert : ∀ handle s', convert s = .ok (handle, s') → Gives isAlphabetic ty s handle s')
    (hr : cached ty s convert = .ok (handle, s')) : Gives isAlphabetic ty s handle s' := by
  unfold cached at hr
  match hcache : s.typeCache ty with
  | some handle' =>
      rw [hcache] at hr
      obtain ⟨rfl, rfl⟩ := Prod.mk.inj (Except.ok.inj hr)
      exact ⟨ConvertsTypes.refl h (h.known ty _ hcache), h.handle ty _ hcache⟩
  | none =>
      rw [hcache] at hr
      obtain ⟨⟨handle', s₁⟩, hr₁, hr⟩ := bind_eq_ok hr
      obtain ⟨rfl, rfl⟩ := Prod.mk.inj (Except.ok.inj hr)
      obtain ⟨hconverts, hhandle⟩ := hconvert handle' s₁ hr₁
      refine ⟨⟨hconverts.legaliser, hconverts.symbols, hconverts.grows, ⟨hconverts.inv.consistent,
        fun ty' h' hty' => ?_, fun ty' h' hty' => ?_⟩, hconverts.known.names,
        hconverts.known.stored⟩, hhandle⟩
      · rcases HMap.insert_eq_some_iff.mp hty' with ⟨rfl, rfl⟩ | ⟨-, hty'⟩
        · exact hhandle
        · exact hconverts.inv.handle ty' h' hty'
      · rcases HMap.insert_eq_some_iff.mp hty' with ⟨rfl, rfl⟩ | ⟨-, hty'⟩
        · exact ⟨hconverts.known.names, hconverts.known.stored⟩
        · exact ⟨(hconverts.inv.known ty' h' hty').names, (hconverts.inv.known ty' h' hty').stored⟩

/-- The renamed type stays the same while the legaliser grows. -/
theorem LLVMType.rename_of_known {ty : LLVMType} {l l' : Legaliser}
    (h : ∀ entry ∈ ty.namedStructs, Known l entry.1) (hext : l.Extends l') :
    ty.rename (idOf l) = ty.rename (idOf l') := by
  refine ty.rename_congr fun name hname => ?_
  obtain ⟨entry, hentry, rfl⟩ := List.mem_map.mp hname
  exact ((h entry hentry).mono hext).2.symm

/-- What is cached stays right while the legaliser and the type store grow. -/
theorem CacheInv.mono (h : CacheInv s) (hcache : s'.typeCache = s.typeCache)
    (hcons : s'.idLegaliser.Consistent) (hext : s.idLegaliser.Extends s'.idLegaliser)
    (hgrows : StoreGrows s.structs s'.structs) : CacheInv s' := by
  refine ⟨hcons, fun ty handle hty => ?_, fun ty handle hty => ?_⟩
  · rw [hcache] at hty
    rw [h.handle ty handle hty]
    exact LLVMType.rename_of_known (h.known ty handle hty).names hext
  · rw [hcache] at hty
    exact (h.known ty handle hty).mono ty.namedStructs_closed hext hgrows

theorem legalise_inv (isAlphabetic : Char → Bool) (name : String) (h : CacheInv s) :
    CacheInv (legalise isAlphabetic name s).2 :=
  have hspec := Legaliser.legalise_spec isAlphabetic name h.consistent
  h.mono rfl hspec.1 hspec.2.1 (StoreGrows.refl _)

/-- A named struct: its name, then its fields, then its place in the type store. -/
theorem namedStruct_gives {name : String} {fields : LLVMTypes} {isPacked : Bool}
    {structs : TypeStore} (h : CacheInv s)
    (hfields : ConvertsTypes isAlphabetic fields.namedStructs (legalise isAlphabetic name s).2 s')
    (hr : getNamed s'.structs (legalise isAlphabetic name s).1
      (some (fields.rename (idOf s'.idLegaliser), isPacked)) = .ok structs) :
    Gives isAlphabetic (.namedStruct name fields isPacked) s
      (.namedStruct (legalise isAlphabetic name s).1) { s' with structs := structs } := by
  have hspec := Legaliser.legalise_spec isAlphabetic name h.consistent
  have hext := hfields.legaliser_extends (legalise_inv isAlphabetic name h).consistent
  have hid : s'.idLegaliser.strToId name = some (legalise isAlphabetic name s).1 :=
    hext _ _ hspec.2.2
  have hidOf : idOf s'.idLegaliser name = (legalise isAlphabetic name s).1 := by
    rw [idOf, hid, Option.getD_some]
  obtain ⟨hgrows, -, hbody⟩ := getNamed_ok hr
  have hknown : Known.Type { s' with structs := structs } fields.namedStructs :=
    hfields.known.mono fields.namedStructs_closed (Legaliser.Extends.refl _) hgrows
  refine ⟨⟨hfields.legaliser, hfields.symbols, hfields.grows.trans hgrows, ?_, ?_, ?_⟩, ?_⟩
  · exact hfields.inv.mono rfl hfields.inv.consistent (Legaliser.Extends.refl _) hgrows
  · intro entry hentry
    rcases List.mem_cons.mp hentry with rfl | hentry
    · exact ⟨_, hid⟩
    · exact hknown.names entry hentry
  · intro entry hentry
    rcases List.mem_cons.mp hentry with rfl | hentry
    · show structs (idOf s'.idLegaliser name) = _
      rw [hidOf]
      exact hbody _ rfl
    · exact hknown.stored entry hentry
  · show _ = TypeHandle.namedStruct (idOf s'.idLegaliser name)
    rw [hidOf]

theorem bodiless_gives {name : String} {structs : TypeStore} (h : CacheInv s)
    (hr : getNamed s.structs (legalise isAlphabetic name s).1 none = .ok structs) :
    Gives isAlphabetic (.bodiless name) s (.namedStruct (legalise isAlphabetic name s).1)
      { (legalise isAlphabetic name s).2 with structs := structs } := by
  have hspec := Legaliser.legalise_spec isAlphabetic name h.consistent
  have hidOf : idOf (legalise isAlphabetic name s).2.idLegaliser name =
      (legalise isAlphabetic name s).1 := by
    rw [idOf, legalise, hspec.2.2, Option.getD_some]
  obtain ⟨hgrows, hsome, -⟩ := getNamed_ok hr
  refine ⟨⟨rfl, rfl, hgrows, ?_, ?_, ?_⟩, ?_⟩
  · exact (legalise_inv isAlphabetic name h).mono rfl hspec.1 (Legaliser.Extends.refl _) hgrows
  · intro entry hentry
    rw [List.mem_singleton.mp hentry]
    exact ⟨_, hspec.2.2⟩
  · intro entry hentry
    rw [List.mem_singleton.mp hentry]
    show structs (idOf (legalise isAlphabetic name s).2.idLegaliser name) ≠ none
    rw [hidOf]
    exact hsome
  · show _ = TypeHandle.namedStruct (idOf (legalise isAlphabetic name s).2.idLegaliser name)
    rw [hidOf]

mutual

/-- A conversion of a type that ends: induction on the type. -/
theorem convertType_ok (isAlphabetic : Char → Bool) {handle : TypeHandle} {s s' : State o} :
    (ty : LLVMType) → CacheInv s → convertType isAlphabetic ty s = .ok (handle, s') →
      Gives isAlphabetic ty s handle s'
  | .scalar ty, h, hr => by
      rw [convertType] at hr
      refine cached_ok h (fun handle s₁ hr₁ => ?_) hr
      obtain ⟨rfl, rfl⟩ := Prod.mk.inj (Except.ok.inj hr₁)
      exact ⟨ConvertsTypes.refl h ⟨nofun, nofun⟩, rfl⟩
  | .array elem len, h, hr => by
      rw [convertType] at hr
      refine cached_ok h (fun handle s₁ hr₁ => ?_) hr
      obtain ⟨⟨e, s₂⟩, he, hr₁⟩ := bind_eq_ok hr₁
      obtain ⟨rfl, rfl⟩ := Prod.mk.inj (Except.ok.inj hr₁)
      obtain ⟨hconverts, rfl⟩ := convertType_ok isAlphabetic elem h he
      exact ⟨hconverts, rfl⟩
  | .vector elem len scalable, h, hr => by
      rw [convertType] at hr
      refine cached_ok h (fun handle s₁ hr₁ => ?_) hr
      obtain ⟨⟨e, s₂⟩, he, hr₁⟩ := bind_eq_ok hr₁
      obtain ⟨rfl, rfl⟩ := Prod.mk.inj (Except.ok.inj hr₁)
      obtain ⟨hconverts, rfl⟩ := convertType_ok isAlphabetic elem h he
      exact ⟨hconverts, rfl⟩
  | .function ret params isVarArg, h, hr => by
      rw [convertType] at hr
      refine cached_ok h (fun handle s₁ hr₁ => ?_) hr
      obtain ⟨⟨r, s₂⟩, hret, hr₁⟩ := bind_eq_ok hr₁
      obtain ⟨⟨ps, s₃⟩, hparams, hr₁⟩ := bind_eq_ok hr₁
      obtain ⟨rfl, rfl⟩ := Prod.mk.inj (Except.ok.inj hr₁)
      obtain ⟨hconverts, rfl⟩ := convertType_ok isAlphabetic ret h hret
      obtain ⟨hconverts', rfl⟩ := convertTypes_ok isAlphabetic params hconverts.inv hparams
      refine ⟨ConvertsTypes.trans hconverts ret.namedStructs_closed hconverts', ?_⟩
      have hext := hconverts'.legaliser_extends hconverts.inv.consistent
      rw [LLVMType.rename, LLVMType.rename_of_known hconverts.known.names hext]
  | .struct fields isPacked, h, hr => by
      rw [convertType] at hr
      refine cached_ok h (fun handle s₁ hr₁ => ?_) hr
      obtain ⟨⟨fs, s₂⟩, hfields, hr₁⟩ := bind_eq_ok hr₁
      obtain ⟨rfl, rfl⟩ := Prod.mk.inj (Except.ok.inj hr₁)
      obtain ⟨hconverts, rfl⟩ := convertTypes_ok isAlphabetic fields h hfields
      exact ⟨hconverts, rfl⟩
  | .namedStruct name fields isPacked, h, hr => by
      rw [convertType] at hr
      refine cached_ok h (fun handle s₁ hr₁ => ?_) hr
      obtain ⟨⟨fs, s₂⟩, hfields, hr₁⟩ := bind_eq_ok hr₁
      obtain ⟨structs, hget, hr₁⟩ := bind_eq_ok hr₁
      obtain ⟨rfl, rfl⟩ := Prod.mk.inj (Except.ok.inj hr₁)
      obtain ⟨hconverts, rfl⟩ :=
        convertTypes_ok isAlphabetic fields (legalise_inv isAlphabetic name h) hfields
      exact namedStruct_gives h hconverts hget
  | .bodiless name, h, hr => by
      rw [convertType] at hr
      refine cached_ok h (fun handle s₁ hr₁ => ?_) hr
      obtain ⟨structs, hget, hr₁⟩ := bind_eq_ok hr₁
      obtain ⟨rfl, rfl⟩ := Prod.mk.inj (Except.ok.inj hr₁)
      exact bodiless_gives h hget

theorem convertTypes_ok (isAlphabetic : Char → Bool) {handles : TypeHandles} {s s' : State o} :
    (tys : LLVMTypes) → CacheInv s → convertTypes isAlphabetic tys s = .ok (handles, s') →
      ConvertsTypes isAlphabetic tys.namedStructs s s' ∧ handles = tys.rename (idOf s'.idLegaliser)
  | .nil, h, hr => by
      rw [convertTypes] at hr
      obtain ⟨rfl, rfl⟩ := Prod.mk.inj (Except.ok.inj hr)
      exact ⟨ConvertsTypes.refl h ⟨nofun, nofun⟩, rfl⟩
  | .cons ty rest, h, hr => by
      rw [convertTypes] at hr
      obtain ⟨⟨t, s₁⟩, hty, hr⟩ := bind_eq_ok hr
      obtain ⟨⟨ts, s₂⟩, hrest, hr⟩ := bind_eq_ok hr
      obtain ⟨rfl, rfl⟩ := Prod.mk.inj (Except.ok.inj hr)
      obtain ⟨hconverts, rfl⟩ := convertType_ok isAlphabetic ty h hty
      obtain ⟨hconverts', rfl⟩ := convertTypes_ok isAlphabetic rest hconverts.inv hrest
      refine ⟨ConvertsTypes.trans hconverts ty.namedStructs_closed hconverts', ?_⟩
      have hext := hconverts'.legaliser_extends hconverts.inv.consistent
      rw [LLVMTypes.rename, LLVMType.rename_of_known hconverts.known.names hext]

end

/-! ## Conversions that do not fail -/

/-- Under `σ`, no two of the structs are one, in a context with the structs `structs₀`. -/
structure Agrees (structs₀ : TypeStore) (all : List (String × LLVMType)) (σ : String → String) :
    Prop where
  inj : ∀ name ∈ all.map Prod.fst, ∀ name' ∈ all.map Prod.fst, σ name = σ name' → name = name'
  compatible : ∀ name fields isPacked body, (name, .namedStruct name fields isPacked) ∈ all →
    structs₀ (σ name) = some (some body) → body = (fields.rename σ, isPacked)

/-- The bodies in the store are those of the context and of the structs. -/
def StoreOf (structs₀ : TypeStore) (all : List (String × LLVMType)) (σ : String → String)
    (structs : TypeStore) : Prop :=
  ∀ id body, structs id = some (some body) → structs₀ id = some (some body) ∨
    ∃ name fields isPacked, (name, .namedStruct name fields isPacked) ∈ all ∧ σ name = id ∧
      body = (fields.rename σ, isPacked)

section Succeeds

variable {structs₀ : TypeStore} {all : List (String × LLVMType)} {σ : String → String}
  {l : Legaliser}

theorem cached_succeeds {ty : LLVMType}
    {convert : State o → Except StructErr (TypeHandle × State o)}
    (hstore : StoreOf structs₀ all σ s.structs)
    (hconvert : ∃ handle s', convert s = .ok (handle, s') ∧ StoreOf structs₀ all σ s'.structs) :
    ∃ handle s', cached ty s convert = .ok (handle, s') ∧ StoreOf structs₀ all σ s'.structs := by
  unfold cached
  match s.typeCache ty with
  | some handle => exact ⟨handle, s, rfl, hstore⟩
  | none =>
      obtain ⟨handle, s', hr, hstore'⟩ := hconvert
      refine ⟨handle, { s' with typeCache := s'.typeCache.insert ty handle }, ?_, hstore'⟩
      rw [hr]
      rfl

/-- A struct whose name has its identifier, and whose fields are renamed, is not refused. -/
theorem getNamed_of_agrees (ha : Agrees structs₀ all σ)
    (hunique : ∀ name ty ty', (name, ty) ∈ all → (name, ty') ∈ all → ty = ty')
    {structs : TypeStore} (hstore : StoreOf structs₀ all σ structs) {name : String}
    {fields : LLVMTypes} {isPacked : Bool}
    (hmem : (name, .namedStruct name fields isPacked) ∈ all) :
    ∃ structs', getNamed structs (σ name) (some (fields.rename σ, isPacked)) = .ok structs' ∧
      StoreOf structs₀ all σ structs' := by
  obtain ⟨structs', hr, hmems⟩ := getNamed_succeeds structs (σ name)
    (some (fields.rename σ, isPacked)) fun body existing hbody hexisting => by
      obtain rfl := Option.some.inj hbody
      rcases hstore _ _ hexisting with h₀ | ⟨name', fields', isPacked', hmem', hσ, rfl⟩
      · exact ha.compatible name fields isPacked existing hmem h₀
      · obtain rfl := ha.inj name' (List.mem_map_of_mem hmem') name (List.mem_map_of_mem hmem) hσ
        obtain ⟨-, rfl, rfl⟩ := LLVMType.namedStruct.inj (hunique _ _ _ hmem' hmem)
        rfl
  refine ⟨structs', hr, fun id body hid => ?_⟩
  rcases hmems id body hid with hid | ⟨rfl, hbody⟩
  · exact hstore id body hid
  · exact Or.inr ⟨name, fields, isPacked, hmem, rfl, (Option.some.inj hbody).symm⟩

/-- The legaliser `l`, which comes after these names, gives the structs' names as `σ` does. -/
def Later (isAlphabetic : Char → Bool) (l : Legaliser) (σ : String → String) (names : List String)
    (structs : List (String × LLVMType)) (s : State o) : Prop :=
  (s.idLegaliser.legaliseAll isAlphabetic names).Extends l ∧
    ∀ name ∈ structs.map Prod.fst, l.strToId name = some (σ name)

theorem Later.left {names names' : List String} {structs structs' : List (String × LLVMType)}
    (h : Later isAlphabetic l σ (names ++ names') (structs ++ structs') s)
    (hs : s.idLegaliser.Consistent) : Later isAlphabetic l σ names structs s := by
  have hspec := Legaliser.legaliseAll_spec isAlphabetic names hs
  have hspec' := Legaliser.legaliseAll_spec isAlphabetic names' hspec.1
  rw [Later, List.map_append, Legaliser.legaliseAll_append] at h
  exact ⟨hspec'.2.1.trans h.1, fun name hname => h.2 name (List.mem_append_left _ hname)⟩

theorem Later.right {names names' : List String} {structs structs' : List (String × LLVMType)}
    (h : Later isAlphabetic l σ (names ++ names') (structs ++ structs') s)
    (hconverts : Converts isAlphabetic names structs s s') :
    Later isAlphabetic l σ names' structs' s' := by
  rw [Later, List.map_append, Legaliser.legaliseAll_append] at h
  rw [Later, hconverts.legaliser]
  exact ⟨h.1, fun name hname => h.2 name (List.mem_append_right _ hname)⟩

/-- The same of the names of the structs themselves. -/
abbrev LaterTypes (isAlphabetic : Char → Bool) (l : Legaliser) (σ : String → String)
    (structs : List (String × LLVMType)) (s : State o) : Prop :=
  Later isAlphabetic l σ (structs.map Prod.fst) structs s

theorem LaterTypes.left {structs structs' : List (String × LLVMType)}
    (h : LaterTypes isAlphabetic l σ (structs ++ structs') s) (hs : s.idLegaliser.Consistent) :
    LaterTypes isAlphabetic l σ structs s := by
  rw [LaterTypes, List.map_append] at h
  exact Later.left h hs

theorem LaterTypes.right {structs structs' : List (String × LLVMType)}
    (h : LaterTypes isAlphabetic l σ (structs ++ structs') s)
    (hconverts : ConvertsTypes isAlphabetic structs s s') :
    LaterTypes isAlphabetic l σ structs' s' := by
  rw [LaterTypes, List.map_append] at h
  exact Later.right h hconverts

/-- After the conversion, the names are those of the later legaliser. -/
theorem LaterTypes.idOf_eq {structs : List (String × LLVMType)}
    (h : LaterTypes isAlphabetic l σ structs s) (hconverts : ConvertsTypes isAlphabetic structs s s') :
    ∀ name ∈ structs.map Prod.fst, idOf s'.idLegaliser name = σ name := by
  intro name hname
  obtain ⟨entry, hentry, rfl⟩ := List.mem_map.mp hname
  have hext : s'.idLegaliser.Extends l := hconverts.legaliser ▸ h.1
  rw [← ((hconverts.known.names entry hentry).mono hext).2, idOf, h.2 _ hname, Option.getD_some]

mutual

/-- The conversion of a type whose structs agree does not fail: induction on the type. -/
theorem convertType_succeeds (ha : Agrees structs₀ all σ)
    (hunique : ∀ name ty ty', (name, ty) ∈ all → (name, ty') ∈ all → ty = ty') {s : State o} :
    (ty : LLVMType) → ty.namedStructs ⊆ all → CacheInv s →
      LaterTypes isAlphabetic l σ ty.namedStructs s → StoreOf structs₀ all σ s.structs →
      ∃ handle s', convertType isAlphabetic ty s = .ok (handle, s') ∧
        StoreOf structs₀ all σ s'.structs
  | .scalar ty, _, _, _, hstore => by
      rw [convertType]
      exact cached_succeeds hstore ⟨_, s, rfl, hstore⟩
  | .array elem len, hsub, h, hlater, hstore => by
      rw [convertType]
      obtain ⟨e, s₁, he, hstore₁⟩ := convertType_succeeds ha hunique elem hsub h hlater hstore
      exact cached_succeeds hstore ⟨.array e len, s₁, bind_of_ok he, hstore₁⟩
  | .vector elem len scalable, hsub, h, hlater, hstore => by
      rw [convertType]
      obtain ⟨e, s₁, he, hstore₁⟩ := convertType_succeeds ha hunique elem hsub h hlater hstore
      exact cached_succeeds hstore ⟨.vector e len scalable, s₁, bind_of_ok he, hstore₁⟩
  | .function ret params isVarArg, hsub, h, hlater, hstore => by
      rw [convertType]
      rw [LLVMType.namedStructs] at hsub hlater
      obtain ⟨r, s₁, hret, hstore₁⟩ := convertType_succeeds ha hunique ret
        (List.append_subset.mp hsub).1 h (hlater.left h.consistent) hstore
      obtain ⟨hconverts, -⟩ := convertType_ok isAlphabetic ret h hret
      obtain ⟨ps, s₂, hparams, hstore₂⟩ := convertTypes_succeeds ha hunique params
        (List.append_subset.mp hsub).2 hconverts.inv (hlater.right hconverts) hstore₁
      exact cached_succeeds hstore
        ⟨.func r ps isVarArg, s₂, (bind_of_ok hret).trans (bind_of_ok hparams), hstore₂⟩
  | .struct fields isPacked, hsub, h, hlater, hstore => by
      rw [convertType]
      obtain ⟨fs, s₁, hfields, hstore₁⟩ :=
        convertTypes_succeeds ha hunique fields hsub h hlater hstore
      exact cached_succeeds hstore ⟨.struct fs isPacked, s₁, bind_of_ok hfields, hstore₁⟩
  | .namedStruct name fields isPacked, hsub, h, hlater, hstore => by
      rw [convertType]
      rw [LLVMType.namedStructs] at hsub hlater
      have hspec := Legaliser.legalise_spec isAlphabetic name h.consistent
      have hinv := legalise_inv isAlphabetic name h
      have hlater' : LaterTypes isAlphabetic l σ fields.namedStructs (legalise isAlphabetic name s).2 :=
        ⟨hlater.1, fun n hn => hlater.2 n (List.mem_cons_of_mem _ hn)⟩
      obtain ⟨fs, s₁, hfields, hstore₁⟩ := convertTypes_succeeds ha hunique fields
        (List.subset_of_cons_subset hsub) hinv hlater' hstore
      obtain ⟨hconverts, rfl⟩ := convertTypes_ok isAlphabetic fields hinv hfields
      -- the identifier does not change later, so it is the one the final legaliser gives
      have hid : (legalise isAlphabetic name s).1 = σ name := by
        have hext : s₁.idLegaliser.Extends l := hconverts.legaliser ▸ hlater'.1
        have hl := hext _ _ ((hconverts.legaliser_extends hinv.consistent) _ _ hspec.2.2)
        exact Option.some.inj (hl.symm.trans (hlater.2 name List.mem_cons_self))
      have hrename : fields.rename (idOf s₁.idLegaliser) = fields.rename σ :=
        fields.rename_congr (hlater'.idOf_eq hconverts)
      -- and the body is the one the context has under it, if it has one
      obtain ⟨structs, hget, hstore₂⟩ :=
        getNamed_of_agrees ha hunique hstore₁ (hsub List.mem_cons_self)
      rw [← hid, ← hrename] at hget
      exact cached_succeeds hstore
        ⟨.namedStruct (legalise isAlphabetic name s).1, { s₁ with structs := structs },
          (bind_of_ok hfields).trans (bind_of_ok hget), hstore₂⟩
  | .bodiless name, hsub, h, hlater, hstore => by
      rw [convertType]
      -- an opaque struct is entered without a body, and leaves the bodies that are there
      obtain ⟨structs, hget, hmems⟩ := getNamed_succeeds s.structs (legalise isAlphabetic name s).1
        none nofun
      refine cached_succeeds hstore ⟨.namedStruct (legalise isAlphabetic name s).1,
        { (legalise isAlphabetic name s).2 with structs := structs }, ?_, fun id body hid => ?_⟩
      · exact bind_of_ok hget
      · rcases hmems id body hid with hid | ⟨-, hbody⟩
        · exact hstore id body hid
        · exact nomatch hbody

theorem convertTypes_succeeds (ha : Agrees structs₀ all σ)
    (hunique : ∀ name ty ty', (name, ty) ∈ all → (name, ty') ∈ all → ty = ty') {s : State o} :
    (tys : LLVMTypes) → tys.namedStructs ⊆ all → CacheInv s →
      LaterTypes isAlphabetic l σ tys.namedStructs s → StoreOf structs₀ all σ s.structs →
      ∃ handles s', convertTypes isAlphabetic tys s = .ok (handles, s') ∧
        StoreOf structs₀ all σ s'.structs
  | .nil, _, _, _, hstore => by
      rw [convertTypes]
      exact ⟨_, s, rfl, hstore⟩
  | .cons ty rest, hsub, h, hlater, hstore => by
      rw [convertTypes]
      rw [LLVMTypes.namedStructs] at hsub hlater
      obtain ⟨t, s₁, hty, hstore₁⟩ := convertType_succeeds ha hunique ty
        (List.append_subset.mp hsub).1 h (hlater.left h.consistent) hstore
      obtain ⟨hconverts, -⟩ := convertType_ok isAlphabetic ty h hty
      obtain ⟨ts, s₂, hrest, hstore₂⟩ := convertTypes_succeeds ha hunique rest
        (List.append_subset.mp hsub).2 hconverts.inv (hlater.right hconverts) hstore₁
      exact ⟨.cons t ts, s₂, (bind_of_ok hty).trans (bind_of_ok hrest), hstore₂⟩

end

end Succeeds

end Pliron.ImportNames
