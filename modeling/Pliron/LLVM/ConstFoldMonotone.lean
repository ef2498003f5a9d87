/-
  Pliron.LLVM.ConstFoldMonotone

  What folding does when less is known of the operands.

  Most folds want all their operands.  The conjunction, the disjunction and the selection do with
  less, and there are operands where these contradict themselves.
-/

import Pliron.LLVM.ConstFoldStrict

namespace Pliron.LLVM

variable {F : Type} (A : Awint) (fl : APFloat F)

/-! ## Absorbing integers -/

/-- Is this the absorbing integer? -/
def isAbsorbing (absorbing : APInt → APInt) : Option (Attr F) → Bool
  | some (.integer int) => int.val = absorbing int.val
  | _ => false

/-- Is this known to be something else than an integer? -/
def isKnownNonInteger : Option (Attr F) → Bool
  | some (.integer _) => false
  | some _ => true
  | none => false

section Absorbing

variable {absorbing : APInt → APInt} {combine : APInt → APInt → Option APInt}
  {a b : Option (Attr F)}

/-- An absorbing operand is found after one that is unknown or another integer. -/
theorem absorbingOperand_cons (h : isAbsorbing absorbing a = true) (ops : Known F) :
    absorbingOperand absorbing (a :: ops) = some [a] := by
  cases a with
  | none => exact absurd h (by simp [isAbsorbing])
  | some c =>
      cases c with
      | integer int =>
          have hval : int.val = absorbing int.val := decide_eq_true_eq.mp h
          rw [absorbingOperand, if_pos hval, ← hval]
      | float _ | undef _ | poison _ | aggregate _ _ | splat _ _ _ _ | other _ _ =>
          exact absurd h (by simp [isAbsorbing])

theorem absorbingOperand_cons_of_not (h : isAbsorbing absorbing a = false)
    (hint : isKnownNonInteger a = false) (ops : Known F) :
    absorbingOperand absorbing (a :: ops) = absorbingOperand absorbing ops := by
  cases a with
  | none => rfl
  | some c =>
      cases c with
      | integer int =>
          have hval : ¬ int.val = absorbing int.val := decide_eq_false_iff_not.mp h
          rw [absorbingOperand, if_neg hval]
      | float _ | undef _ | poison _ | aggregate _ _ | splat _ _ _ _ | other _ _ =>
          exact absurd hint (by simp [isKnownNonInteger])

theorem absorbingOperand_of_nonInteger (h : isKnownNonInteger a = true) (ops : Known F) :
    absorbingOperand absorbing (a :: ops) = some [none] := by
  cases a with
  | none => exact absurd h (by simp [isKnownNonInteger])
  | some c =>
      cases c with
      | integer int => exact absurd h (by simp [isKnownNonInteger])
      | float _ | undef _ | poison _ | aggregate _ _ | splat _ _ _ _ | other _ _ => rfl

theorem isKnownNonInteger_of_isAbsorbing (h : isAbsorbing absorbing a = true) :
    isKnownNonInteger a = false := by
  cases a with
  | none => rfl
  | some c =>
      cases c with
      | integer int => rfl
      | float _ | undef _ | poison _ | aggregate _ _ | splat _ _ _ _ | other _ _ =>
          exact absurd h (by simp [isAbsorbing])

theorem checkFoldAbsorbing_left (h : isAbsorbing absorbing a = true) :
    checkFoldAbsorbing [a, b] absorbing combine = some [a] := by
  have hlength : [a, b].length = 2 := rfl
  rw [checkFoldAbsorbing, if_pos hlength, absorbingOperand_cons h]

theorem checkFoldAbsorbing_of_nonInteger (h : isKnownNonInteger a = true) :
    checkFoldAbsorbing [a, b] absorbing combine = some [none] := by
  have hlength : [a, b].length = 2 := rfl
  rw [checkFoldAbsorbing, if_pos hlength, absorbingOperand_of_nonInteger h]

theorem checkFoldAbsorbing_right (ha : isAbsorbing absorbing a = false)
    (hint : isKnownNonInteger a = false) (h : isAbsorbing absorbing b = true) :
    checkFoldAbsorbing [a, b] absorbing combine = some [b] := by
  have hlength : [a, b].length = 2 := rfl
  rw [checkFoldAbsorbing, if_pos hlength, absorbingOperand_cons_of_not ha hint,
    absorbingOperand_cons h]

/-- With one operand unknown and no absorbing one, nothing is folded. -/
theorem checkFoldAbsorbing_none (ha : isAbsorbing absorbing a = false)
    (hb : isAbsorbing absorbing b = false) (hmem : none ∈ [a, b]) :
    checkFoldAbsorbing [a, b] absorbing combine = some [none] := by
  have hlength : [a, b].length = 2 := rfl
  have hbin : checkFoldIntBinOp [a, b] combine = some [none] :=
    (strict_checkFoldIntBinOp combine).fold_none [a, b] hlength hmem
  rw [checkFoldAbsorbing, if_pos hlength]
  cases hint : isKnownNonInteger a with
  | true => rw [absorbingOperand_of_nonInteger hint]
  | false =>
      rw [absorbingOperand_cons_of_not ha hint]
      cases hint' : isKnownNonInteger b with
      | true => rw [absorbingOperand_of_nonInteger hint']
      | false =>
          rw [absorbingOperand_cons_of_not hb hint']
          exact hbin

theorem single_checkFoldAbsorbing :
    Single (checkFoldAbsorbing [a, b] absorbing combine) := by
  cases ha : isAbsorbing absorbing a with
  | true =>
      rw [checkFoldAbsorbing_left ha]
      exact single_some a
  | false =>
      cases hint : isKnownNonInteger a with
      | true =>
          rw [checkFoldAbsorbing_of_nonInteger hint]
          exact single_some none
      | false =>
          cases hb : isAbsorbing absorbing b with
          | true =>
              rw [checkFoldAbsorbing_right ha hint hb]
              exact single_some b
          | false =>
              have hlength : [a, b].length = 2 := rfl
              rw [checkFoldAbsorbing, if_pos hlength, absorbingOperand_cons_of_not ha hint]
              cases hint' : isKnownNonInteger b with
              | true =>
                  rw [absorbingOperand_of_nonInteger hint']
                  exact single_some none
              | false =>
                  rw [absorbingOperand_cons_of_not hb hint']
                  exact single_checkFoldIntBinOp [a, b] combine

/-- The fold of an operation with an absorbing integer. -/
def foldAbsorbing (absorbing : APInt → APInt) (combine : APInt → APInt → Option APInt) (ty : Ty)
    (ops : Known F) : Option (Known F) :=
  checkFoldPoisonPropagatingOp [ty] ops (fun ops => checkFoldAbsorbing ops absorbing combine)

variable {ty : Ty}

theorem foldAbsorbing_eq {r : Option (Attr F)}
    (h : checkFoldAbsorbing [forgetPoison a, forgetPoison b] absorbing combine = some [r]) :
    foldAbsorbing absorbing combine ty [a, b] =
      some [if [a, b].any isPoisonOperand then r.or (some (.poison ty)) else r] :=
  checkFoldPoisonPropagatingOp_eq h

theorem single_foldAbsorbing : Single (foldAbsorbing absorbing combine ty [a, b]) := by
  intro rs hrs
  cases hfold : checkFoldAbsorbing [forgetPoison a, forgetPoison b] absorbing combine with
  | none =>
      by_cases hany : [a, b].any isPoisonOperand = true
      · have hmap : [a, b].map (fun attr => if isPoisonOperand attr then none else attr) =
            [forgetPoison a, forgetPoison b] := rfl
        simp only [foldAbsorbing, checkFoldPoisonPropagatingOp, if_pos hany, hmap, hfold] at hrs
        cases hrs
      · rw [foldAbsorbing, checkFoldPoisonPropagatingOp_of_not_any hany] at hrs
        exact single_checkFoldAbsorbing rs hrs
  | some rs' =>
      obtain ⟨r, rfl⟩ := single_checkFoldAbsorbing rs' hfold
      exact single_some _ rs ((foldAbsorbing_eq hfold).symm.trans hrs)

theorem forgetPoison_of_isAbsorbing (h : isAbsorbing absorbing a = true) :
    forgetPoison a = a ∧ isPoisonOperand a = false := by
  cases a with
  | none => exact absurd h (by simp [isAbsorbing])
  | some c =>
      cases c with
      | integer int => exact ⟨rfl, rfl⟩
      | float _ | undef _ | poison _ | aggregate _ _ | splat _ _ _ _ | other _ _ =>
          exact absurd h (by simp [isAbsorbing])

/-- Forgetting poison does not make an absorbing integer. -/
theorem isAbsorbing_forgetPoison (h : isAbsorbing absorbing a = false) :
    isAbsorbing absorbing (forgetPoison a) = false := by
  unfold forgetPoison
  split
  · rfl
  · exact h

theorem forgetPoison_of_isPoisonOperand (h : isPoisonOperand a = true) :
    forgetPoison a = none :=
  if_pos h

/-- An absorbing integer on the left is the result. -/
theorem foldAbsorbing_left (h : isAbsorbing absorbing a = true) :
    foldAbsorbing absorbing combine ty [a, b] = some [a] := by
  obtain ⟨hforget, -⟩ := forgetPoison_of_isAbsorbing h
  have hfold : checkFoldAbsorbing [forgetPoison a, forgetPoison b] absorbing combine =
      some [a] := by
    rw [hforget]
    exact checkFoldAbsorbing_left h
  rw [foldAbsorbing_eq hfold]
  cases a with
  | none => exact absurd h (by simp [isAbsorbing])
  | some c => simp

/-- An absorbing integer on the right is the result beside an integer, poison or nothing known. -/
theorem foldAbsorbing_right (ha : isAbsorbing absorbing a = false)
    (hint : isKnownNonInteger (forgetPoison a) = false) (h : isAbsorbing absorbing b = true) :
    foldAbsorbing absorbing combine ty [a, b] = some [b] := by
  obtain ⟨hforget, -⟩ := forgetPoison_of_isAbsorbing h
  have hfold : checkFoldAbsorbing [forgetPoison a, forgetPoison b] absorbing combine =
      some [b] := by
    rw [hforget]
    exact checkFoldAbsorbing_right (isAbsorbing_forgetPoison ha) hint h
  rw [foldAbsorbing_eq hfold]
  cases b with
  | none => exact absurd h (by simp [isAbsorbing])
  | some c => simp

/-- Poison on one side, and no absorbing integer: the result is poison. -/
theorem foldAbsorbing_poison (ha : isAbsorbing absorbing a = false)
    (hb : isAbsorbing absorbing b = false) (h : [a, b].any isPoisonOperand = true) :
    foldAbsorbing absorbing combine ty [a, b] = some [some (.poison ty)] := by
  have hmem : none ∈ [forgetPoison a, forgetPoison b] := by
    obtain h | h : isPoisonOperand a = true ∨ isPoisonOperand b = true := by simpa using h
    · rw [forgetPoison_of_isPoisonOperand h]
      exact List.mem_cons_self
    · rw [forgetPoison_of_isPoisonOperand h]
      exact List.mem_cons_of_mem _ List.mem_cons_self
  have hfold : checkFoldAbsorbing [forgetPoison a, forgetPoison b] absorbing combine =
      some [none] :=
    checkFoldAbsorbing_none (isAbsorbing_forgetPoison ha) (isAbsorbing_forgetPoison hb) hmem
  rw [foldAbsorbing_eq hfold, if_pos h]
  rfl

/-- With one operand unknown, neither poison nor an absorbing integer: nothing is folded. -/
theorem foldAbsorbing_none (ha : isAbsorbing absorbing a = false)
    (hb : isAbsorbing absorbing b = false) (h : [a, b].any isPoisonOperand = false)
    (hmem : none ∈ [a, b]) :
    foldAbsorbing absorbing combine ty [a, b] = some [none] := by
  have hany : ¬ [a, b].any isPoisonOperand = true := by
    rw [h]
    exact Bool.false_ne_true
  rw [foldAbsorbing, checkFoldPoisonPropagatingOp_of_not_any hany]
  exact checkFoldAbsorbing_none ha hb hmem

/-- A constant of this type: an integer has as many bits as its type. -/
def Attr.HasType (fl : APFloat F) (ty : Ty) (c : Attr F) : Prop :=
  c.getType fl = some ty ∧
    match c with
    | .integer int => int.val.bw = int.ty.width
    | _ => True

/-- Is this the absorbing integer or poison, which are the result beside most operands? -/
def isDominant (absorbing : APInt → APInt) (known : Option (Attr F)) : Bool :=
  isAbsorbing absorbing known || isPoisonOperand known

/-- Do these operands contradict what folding gives without one of them? -/
def conflicts (absorbing : APInt → APInt) (a b : Option (Attr F)) : Bool :=
  (isKnownNonInteger a && isAbsorbing absorbing b) ||
    (isAbsorbing absorbing a && isPoisonOperand b)

variable {fl : APFloat F}

theorem eq_poison_of_hasType (ha : ∀ c ∈ a, c.HasType fl ty) (h : isPoisonOperand a = true) :
    a = some (.poison ty) := by
  cases a with
  | none => exact absurd h (by simp [isPoisonOperand])
  | some c =>
      cases c with
      | poison ty' => rw [Option.some.inj (ha _ rfl).1]
      | integer _ | float _ | undef _ | aggregate _ _ | splat _ _ _ _ | other _ _ =>
          exact absurd h (by simp [isPoisonOperand, Attr.isPoison])

/-- There is one absorbing integer of a type. -/
theorem eq_of_isAbsorbing (habsorbing : ∀ x y : APInt, x.bw = y.bw → absorbing x = absorbing y)
    (ha : ∀ c ∈ a, c.HasType fl ty) (hb : ∀ c ∈ b, c.HasType fl ty)
    (h : isAbsorbing absorbing a = true) (h' : isAbsorbing absorbing b = true) : a = b := by
  match a, b with
  | some (.integer x), some (.integer y) =>
      obtain ⟨hx, hxbw⟩ := ha _ rfl
      obtain ⟨hy, hybw⟩ := hb _ rfl
      have hty : x.ty = y.ty := Ty.integer.inj (Option.some.inj (hx.trans hy.symm))
      have hval : x.val = y.val := by
        have hbw : x.val.bw = y.val.bw := by
          simp only at hxbw hybw
          rw [hxbw, hybw, hty]
        have hxval : x.val = absorbing x.val := decide_eq_true_eq.mp h
        have hyval : y.val = absorbing y.val := decide_eq_true_eq.mp h'
        rw [hxval, hyval]
        exact habsorbing _ _ hbw
      obtain ⟨xty, xval⟩ := x
      obtain ⟨yty, yval⟩ := y
      simp only at hty hval
      rw [hty, hval]

/-- Poison alone, or an absorbing integer alone, is the result. -/
theorem foldAbsorbing_unknown_left (hb : ∀ c ∈ b, c.HasType fl ty) :
    foldAbsorbing absorbing combine ty [none, b] =
      some [if isDominant absorbing b then b else none] := by
  have hnone : isAbsorbing absorbing (none : Option (Attr F)) = false := rfl
  cases habs : isAbsorbing absorbing b with
  | true =>
      rw [foldAbsorbing_right hnone rfl habs, isDominant, habs]
      rfl
  | false =>
      rw [isDominant, habs]
      cases hpoison : isPoisonOperand b with
      | true =>
          have hany : [none, b].any isPoisonOperand = true := by simp [hpoison]
          rw [foldAbsorbing_poison hnone habs hany, eq_poison_of_hasType hb hpoison]
          rfl
      | false =>
          have hany : [none, b].any isPoisonOperand = false := by simp [hpoison]
          rw [foldAbsorbing_none hnone habs hany List.mem_cons_self]
          rfl

theorem foldAbsorbing_unknown_right (ha : ∀ c ∈ a, c.HasType fl ty) :
    foldAbsorbing absorbing combine ty [a, none] =
      some [if isDominant absorbing a then a else none] := by
  have hnone : isAbsorbing absorbing (none : Option (Attr F)) = false := rfl
  cases habs : isAbsorbing absorbing a with
  | true =>
      rw [foldAbsorbing_left habs, isDominant, habs]
      rfl
  | false =>
      rw [isDominant, habs]
      cases hpoison : isPoisonOperand a with
      | true =>
          have hany : [a, none].any isPoisonOperand = true := by simp [hpoison]
          rw [foldAbsorbing_poison habs hnone hany, eq_poison_of_hasType ha hpoison]
          rfl
      | false =>
          have hany : [a, none].any isPoisonOperand = false := by simp [hpoison]
          rw [foldAbsorbing_none habs hnone hany (by simp)]
          rfl

theorem isAbsorbing_of_isPoisonOperand (h : isPoisonOperand a = true) :
    isAbsorbing absorbing a = false := by
  cases habs : isAbsorbing absorbing a with
  | false => rfl
  | true => exact absurd h (by simp [(forgetPoison_of_isAbsorbing habs).2])

theorem isKnownNonInteger_of_isPoisonOperand (h : isPoisonOperand a = true) :
    isKnownNonInteger a = true := by
  cases a with
  | none => exact absurd h (by simp [isPoisonOperand])
  | some c =>
      cases c with
      | integer int => exact absurd h (by simp [isPoisonOperand, Attr.isPoison])
      | float _ | undef _ | poison _ | aggregate _ _ | splat _ _ _ _ | other _ _ => rfl

/-- Without a conflict, a dominant operand on the left is the result. -/
theorem foldAbsorbing_dominant_left (ha : ∀ c ∈ a, c.HasType fl ty)
    (hconflict : conflicts absorbing a b = false) (h : isDominant absorbing a = true) :
    foldAbsorbing absorbing combine ty [a, b] = some [a] := by
  rw [isDominant, Bool.or_eq_true] at h
  rw [conflicts, Bool.or_eq_false_iff, Bool.and_eq_false_iff] at hconflict
  obtain habs | hpoison := h
  · exact foldAbsorbing_left habs
  · have hb : isAbsorbing absorbing b = false := by
      obtain hint | hb := hconflict.1
      · exact absurd (isKnownNonInteger_of_isPoisonOperand hpoison) (by simp [hint])
      · exact hb
    have hany : [a, b].any isPoisonOperand = true := by simp [hpoison]
    rw [foldAbsorbing_poison (isAbsorbing_of_isPoisonOperand hpoison) hb hany,
      eq_poison_of_hasType ha hpoison]

theorem foldAbsorbing_dominant_right
    (habsorbing : ∀ x y : APInt, x.bw = y.bw → absorbing x = absorbing y)
    (ha : ∀ c ∈ a, c.HasType fl ty) (hb : ∀ c ∈ b, c.HasType fl ty)
    (hconflict : conflicts absorbing a b = false) (h : isDominant absorbing b = true) :
    foldAbsorbing absorbing combine ty [a, b] = some [b] := by
  rw [isDominant, Bool.or_eq_true] at h
  rw [conflicts, Bool.or_eq_false_iff, Bool.and_eq_false_iff, Bool.and_eq_false_iff] at hconflict
  obtain habs | hpoison := h
  · cases habs' : isAbsorbing absorbing a with
    | true =>
        rw [foldAbsorbing_left habs', eq_of_isAbsorbing habsorbing ha hb habs' habs]
    | false =>
        have hint : isKnownNonInteger a = false := by
          obtain hint | hb := hconflict.1
          · exact hint
          · exact absurd habs (by simp [hb])
        have hforget : isKnownNonInteger (forgetPoison a) = false := by
          unfold forgetPoison
          split
          · rfl
          · exact hint
        exact foldAbsorbing_right habs' hforget habs
  · have habs' : isAbsorbing absorbing a = false := by
      obtain habs' | hnot := hconflict.2
      · exact habs'
      · exact absurd hpoison (by simp [hnot])
    have hany : [a, b].any isPoisonOperand = true := by simp [hpoison]
    rw [foldAbsorbing_poison habs' (isAbsorbing_of_isPoisonOperand hpoison) hany,
      eq_poison_of_hasType hb hpoison]

/-- Without a conflict, knowing less gives less. -/
theorem monotoneAt_foldAbsorbing
    (habsorbing : ∀ x y : APInt, x.bw = y.bw → absorbing x = absorbing y)
    (ha : ∀ c ∈ a, c.HasType fl ty) (hb : ∀ c ∈ b, c.HasType fl ty)
    (hconflict : conflicts absorbing a b = false) :
    MonotoneAt (foldAbsorbing absorbing combine ty) [a, b] := by
  intro ops' rs hforgets hrs
  obtain ⟨r, rfl⟩ := single_foldAbsorbing rs hrs
  obtain rfl | rfl | rfl | rfl := forgets_pair hforgets
  · exact ⟨[r], hrs, .refl _⟩
  · refine ⟨_, foldAbsorbing_unknown_left hb, ?_⟩
    split
    · rename_i hdominant
      have hright : foldAbsorbing absorbing combine ty [a, b] = some [b] :=
        foldAbsorbing_dominant_right habsorbing ha hb hconflict hdominant
      rw [Option.some.inj (hright.symm.trans hrs)]
      exact .refl _
    · exact forgets_none r
  · refine ⟨_, foldAbsorbing_unknown_right ha, ?_⟩
    split
    · rename_i hdominant
      have hleft : foldAbsorbing absorbing combine ty [a, b] = some [a] :=
        foldAbsorbing_dominant_left ha hconflict hdominant
      rw [Option.some.inj (hleft.symm.trans hrs)]
      exact .refl _
    · exact forgets_none r
  · have hnone : foldAbsorbing absorbing combine ty [none, none] = some [(none : Option (Attr F))] :=
      foldAbsorbing_none rfl rfl rfl List.mem_cons_self
    exact ⟨[none], hnone, forgets_none r⟩

theorem forgets_left (a b : Option (Attr F)) : Forgets [a, b] [none, b] :=
  List.Forall₂.cons (Or.inl rfl) (Forgets.refl [b])

theorem forgets_right (a b : Option (Attr F)) : Forgets [a, b] [a, none] :=
  List.Forall₂.cons (Or.inr rfl) (forgets_none b)

/-- What is forgotten of one result. -/
theorem forgets_singleton {r r' : Option (Attr F)} (h : Forgets [r] [r']) : r' = none ∨ r' = r :=
  (List.forall₂_cons.mp h).1

/-- A conflict makes a result that appears, or changes, when less is known. -/
theorem not_monotoneAt_foldAbsorbing (ha : ∀ c ∈ a, c.HasType fl ty)
    (hb : ∀ c ∈ b, c.HasType fl ty) (hconflict : conflicts absorbing a b = true) :
    ¬ MonotoneAt (foldAbsorbing absorbing combine ty) [a, b] := by
  intro hmono
  rw [conflicts, Bool.or_eq_true, Bool.and_eq_true, Bool.and_eq_true] at hconflict
  obtain ⟨hint, habs⟩ | ⟨habs, hpoison⟩ := hconflict
  · have hb' : isKnownNonInteger b = false := isKnownNonInteger_of_isAbsorbing habs
    have ha' : isAbsorbing absorbing a = false := by
      cases h : isAbsorbing absorbing a with
      | false => rfl
      | true => exact absurd hint (by simp [isKnownNonInteger_of_isAbsorbing h])
    cases hpoison : isPoisonOperand a with
    | true =>
        -- `b` is the result, but without it `a` is.
        have hforget : isKnownNonInteger (forgetPoison a) = false := by
          rw [forgetPoison_of_isPoisonOperand hpoison]
          rfl
        obtain ⟨rs', hrs', hforgets⟩ := hmono [a, none] [b] (forgets_right a b)
          (foldAbsorbing_right ha' hforget habs)
        rw [foldAbsorbing_unknown_right ha, isDominant, hpoison, Bool.or_true, if_pos rfl] at hrs'
        obtain rfl := Option.some.inj hrs'
        obtain rfl | rfl := forgets_singleton hforgets
        · exact absurd hint (by simp [isKnownNonInteger])
        · exact absurd hint (by simp [hb'])
    | false =>
        -- Nothing is folded, but without `a` the result is `b`.
        have hany : ¬ [a, b].any isPoisonOperand = true := by
          simp [hpoison, (forgetPoison_of_isAbsorbing habs).2]
        have hnone : foldAbsorbing absorbing combine ty [a, b] = some [none] := by
          rw [foldAbsorbing, checkFoldPoisonPropagatingOp_of_not_any hany]
          exact checkFoldAbsorbing_of_nonInteger hint
        obtain ⟨rs', hrs', hforgets⟩ := hmono [none, b] [none] (forgets_left a b) hnone
        rw [foldAbsorbing_unknown_left hb, isDominant, habs, Bool.true_or, if_pos rfl] at hrs'
        obtain rfl := Option.some.inj hrs'
        obtain rfl | rfl := forgets_singleton hforgets
        · exact absurd habs (by simp [isAbsorbing])
        · exact absurd habs (by simp [isAbsorbing])
  · -- `a` is the result, but without it `b` is.
    obtain ⟨rs', hrs', hforgets⟩ := hmono [none, b] [a] (forgets_left a b)
      (foldAbsorbing_left habs)
    rw [foldAbsorbing_unknown_left hb, isDominant, hpoison, Bool.or_true, if_pos rfl] at hrs'
    obtain rfl := Option.some.inj hrs'
    obtain rfl | rfl := forgets_singleton hforgets
    · exact absurd hpoison (by simp)
    · exact absurd habs (by simp [isAbsorbing_of_isPoisonOperand hpoison])

end Absorbing

/-! ## Selection -/

section Select

variable [DecidableEq F] {cond t f : Option (Attr F)}

/-- Is the condition known, but not as an integer, and do both arms have one constant? -/
def selectConflicts (cond t f : Option (Attr F)) : Bool :=
  isKnownNonInteger cond && (t.isSome && decide (t = f))

/-- Without the condition, what both arms are is the result. -/
theorem checkFoldSelect_unknown :
    checkFoldSelect A [none, t, f] = some [if t = f then t else none] := by
  cases t with
  | none => cases f <;> rfl
  | some t =>
      cases f with
      | none => rfl
      | some f =>
          simp only [checkFoldSelect, Option.some.injEq]
          split
          · rfl
          · rfl

theorem checkFoldSelect_integer (int : IntegerAttr) :
    checkFoldSelect A [some (.integer int), t, f] =
      some [if int.val.isZero A then f else t] := rfl

theorem checkFoldSelect_nonInteger (h : isKnownNonInteger cond = true) :
    checkFoldSelect A [cond, t, f] = some [none] := by
  cases cond with
  | none => exact absurd h (by simp [isKnownNonInteger])
  | some c =>
      cases c with
      | integer int => exact absurd h (by simp [isKnownNonInteger])
      | float _ | undef _ | poison _ | aggregate _ _ | splat _ _ _ _ | other _ _ => rfl

/-- What is still the same of both arms was the same before. -/
theorem both_of_forgets {t' f' : Option (Attr F)} (ht : t' = none ∨ t' = t)
    (hf : f' = none ∨ f' = f) :
    (if t' = f' then t' else none) = none ∨ (t = f ∧ (if t' = f' then t' else none) = t) := by
  obtain rfl | rfl := ht
  · exact Or.inl (by split <;> rfl)
  · split
    · rename_i heq
      obtain rfl | rfl := hf
      · exact Or.inl heq
      · exact Or.inr ⟨heq, rfl⟩
    · exact Or.inl rfl

theorem monotoneAt_checkFoldSelect (hconflict : selectConflicts cond t f = false) :
    MonotoneAt (checkFoldSelect A) [cond, t, f] := by
  intro ops' rs hforgets hrs
  obtain ⟨cond', ops₁, hcond, h₁, rfl⟩ := List.forall₂_cons_left_iff.mp hforgets
  obtain ⟨t', ops₂, ht, h₂, rfl⟩ := List.forall₂_cons_left_iff.mp h₁
  obtain ⟨f', ops₃, hf, h₃, rfl⟩ := List.forall₂_cons_left_iff.mp h₂
  obtain rfl := List.forall₂_nil_left_iff.mp h₃
  -- Without the condition: both arms are the same constant, or nothing is folded.
  have hunknown : ∀ r, (t = f → t ≠ none → r = t) →
      ∃ rs', checkFoldSelect A [none, t', f'] = some rs' ∧ Forgets [r] rs' := by
    intro r hr
    refine ⟨_, checkFoldSelect_unknown A, ?_⟩
    obtain hnone | ⟨heq, hsame⟩ := both_of_forgets ht hf
    · rw [hnone]
      exact forgets_none r
    · rw [hsame]
      by_cases h : t = none
      · rw [h]
        exact forgets_none r
      · rw [hr heq h]
        exact .refl _
  cases hint : isKnownNonInteger cond with
  | true =>
      rw [checkFoldSelect_nonInteger A hint] at hrs
      obtain rfl := Option.some.inj hrs
      obtain rfl | rfl := hcond
      · apply hunknown
        intro heq hsome
        rw [selectConflicts, hint, Option.isSome_iff_ne_none.mpr hsome, decide_eq_true heq]
          at hconflict
        exact Bool.noConfusion hconflict
      · exact ⟨[none], checkFoldSelect_nonInteger A hint, .refl _⟩
  | false =>
      cases cond with
      | none =>
          rw [checkFoldSelect_unknown] at hrs
          obtain rfl := Option.some.inj hrs
          obtain rfl : cond' = none := by simpa using hcond
          apply hunknown
          intro heq _
          exact if_pos heq
      | some c =>
          cases c with
          | integer int =>
              rw [checkFoldSelect_integer] at hrs
              obtain rfl := Option.some.inj hrs
              obtain rfl | rfl := hcond
              · apply hunknown
                intro heq _
                rw [heq, ite_self]
              · refine ⟨_, checkFoldSelect_integer A int, ?_⟩
                apply List.Forall₂.cons _ List.Forall₂.nil
                split
                · exact hf
                · exact ht
          | float _ | undef _ | poison _ | aggregate _ _ | splat _ _ _ _ | other _ _ =>
              exact absurd hint (by simp [isKnownNonInteger])

theorem not_monotoneAt_checkFoldSelect (hconflict : selectConflicts cond t f = true) :
    ¬ MonotoneAt (checkFoldSelect A) [cond, t, f] := by
  intro hmono
  rw [selectConflicts, Bool.and_eq_true, Bool.and_eq_true, decide_eq_true_eq] at hconflict
  obtain ⟨hint, hsome, heq⟩ := hconflict
  have hforgets : Forgets [cond, t, f] [none, t, f] :=
    List.Forall₂.cons (Or.inl rfl) (Forgets.refl [t, f])
  obtain ⟨rs', hrs', hless⟩ := hmono _ _ hforgets (checkFoldSelect_nonInteger A hint)
  rw [checkFoldSelect_unknown, if_pos heq] at hrs'
  obtain rfl := Option.some.inj hrs'
  obtain rfl | rfl := forgets_singleton hless
  · exact absurd hsome (by simp)
  · exact absurd hsome (by simp)

end Select

/-! ## Operations -/

/-- The absorbing integer of an operation that has one. -/
def IntBinOp.absorbing? : IntBinOp → Option (APInt → APInt)
  | .and => some (fun int => APInt.zero int.bw int.pos)
  | .or => some (fun int => APInt.umax A int.bw int.pos)
  | _ => none

/-- Do the operands contradict what folding gives when less is known of them?  In a conjunction or
    a disjunction, an absorbing integer stands after another constant that is not an integer, or
    before poison; in a selection, the condition is known but no integer, and both arms are the same
    constant. -/
def Op.conflicts [DecidableEq F] (op : Op F) (ops : Known F) : Bool :=
  match op.opcode, ops with
  | .intBin binOp, [a, b] =>
      match binOp.absorbing? A with
      | some absorbing => LLVM.conflicts absorbing a b
      | none => false
  | .select, [cond, t, f] => selectConflicts cond t f
  | _, _ => false

variable {A}

theorem absorbing_congr {binOp : IntBinOp} {absorbing : APInt → APInt}
    (h : binOp.absorbing? A = some absorbing) (x y : APInt) (hbw : x.bw = y.bw) :
    absorbing x = absorbing y := by
  obtain ⟨bw, x, pos⟩ := x
  obtain ⟨bw', y, pos'⟩ := y
  simp only at hbw
  subst hbw
  cases binOp with
  | and =>
      obtain rfl := Option.some.inj h
      rfl
  | or =>
      obtain rfl := Option.some.inj h
      rfl
  | add _ | sub _ | mul _ | shl _ | udiv | sdiv | urem | srem | xor | lshr | ashr => exact nomatch h

/-- An operation with an absorbing integer folds as `foldAbsorbing` does. -/
theorem checkFold_eq_foldAbsorbing {binOp : IntBinOp} {absorbing : APInt → APInt}
    (h : binOp.absorbing? A = some absorbing) : ∃ combine, ∀ (ty : Ty) (ops : Known F),
      checkFoldPoisonPropagatingOp [ty] ops (binOp.checkFold A) =
        foldAbsorbing absorbing combine ty ops := by
  cases binOp with
  | and =>
      obtain rfl := Option.some.inj h
      exact ⟨APInt.and A, fun ty ops => rfl⟩
  | or =>
      obtain rfl := Option.some.inj h
      exact ⟨APInt.or A, fun ty ops => rfl⟩
  | add _ | sub _ | mul _ | shl _ | udiv | sdiv | urem | srem | xor | lshr | ashr => exact nomatch h

theorem IntBinOp.strict_of_absorbing? {binOp : IntBinOp} (h : binOp.absorbing? A = none) :
    Strict 2 (binOp.checkFold (F := F) A) := by
  apply binOp.strict A
  · rintro rfl
    exact nomatch h
  · rintro rfl
    exact nomatch h

theorem monotoneAt_const (rs : Known F) {ops : Known F} : MonotoneAt (fun _ => some rs) ops :=
  fun _ rs' _ h => ⟨rs', h, .refl rs'⟩

/-- Whatever constants are forgotten, folding gives the same or nothing, if and only if the
    operands are free of conflicts. -/
theorem Op.monotoneAt_iff [DecidableEq F] (fl : APFloat F) (op : Op F)
    (hverify : op.verify = true) (ops : Known F)
    (hops : List.Forall₂ (fun ty known => ∀ c ∈ known, c.HasType fl ty) op.operandTypes ops) :
    MonotoneAt (op.checkFold A fl) ops ↔ op.conflicts A ops = false := by
  obtain ⟨opcode, operandTypes, resultType⟩ := op
  have hoperands : operandTypes.length = opcode.numOperands := by
    simp only [Op.verify, Bool.and_eq_true, decide_eq_true_eq] at hverify
    exact hverify.1
  have hlength : ops.length = opcode.numOperands := hops.length_eq.symm.trans hoperands
  cases opcode with
  | intBin binOp =>
      obtain ⟨lhs, rhs, rfl⟩ := List.length_eq_two.mp hoperands
      have hty : lhs = rhs ∧ resultType = lhs := by
        simp only [Op.verify, Bool.and_eq_true, decide_eq_true_eq] at hverify
        exact hverify.2.1
      obtain ⟨rfl, rfl⟩ := hty
      obtain ⟨a, as, ha, has, rfl⟩ := List.forall₂_cons_left_iff.mp hops
      obtain ⟨b, bs, hb, hbs, rfl⟩ := List.forall₂_cons_left_iff.mp has
      obtain rfl := List.forall₂_nil_left_iff.mp hbs
      -- an integer operation with an absorbing constant is one of the two that can conflict
      cases habsorbing : binOp.absorbing? A with
      | none =>
          have hstrict := (IntBinOp.strict_of_absorbing? (F := F) habsorbing).monotoneAt_poison
            hlength resultType
          simp only [Op.conflicts, habsorbing, iff_true]
          exact hstrict
      | some absorbing =>
          obtain ⟨combine, hcombine⟩ := checkFold_eq_foldAbsorbing (F := F) habsorbing
          have hfold : MonotoneAt (Op.checkFold A fl ⟨.intBin binOp, [resultType, resultType],
              resultType⟩) [a, b] ↔ MonotoneAt (foldAbsorbing absorbing combine resultType) [a, b] := by
            have heq : Op.checkFold A fl ⟨.intBin binOp, [resultType, resultType], resultType⟩ =
                foldAbsorbing absorbing combine resultType :=
              funext fun ops => hcombine resultType ops
            rw [heq]
          rw [hfold]
          simp only [Op.conflicts, habsorbing]
          constructor
          · intro hmono
            rw [← Bool.not_eq_true]
            intro hconflict
            exact not_monotoneAt_foldAbsorbing ha hb hconflict hmono
          · exact monotoneAt_foldAbsorbing (absorbing_congr habsorbing) ha hb
  | select =>
      obtain ⟨cond, t, f, rfl⟩ := List.length_eq_three.mp hlength
      show MonotoneAt (checkFoldSelect A) [cond, t, f] ↔ selectConflicts cond t f = false
      constructor
      · intro hmono
        rw [← Bool.not_eq_true]
        intro hconflict
        exact not_monotoneAt_checkFoldSelect A hconflict hmono
      · exact monotoneAt_checkFoldSelect A
  -- the other folds are strict, or do not look at their operands
  | constant value => exact iff_of_true (monotoneAt_const [some value]) rfl
  | poison => exact iff_of_true (monotoneAt_const [some (.poison resultType)]) rfl
  | undef => exact iff_of_true (monotoneAt_const [some (.undef resultType)]) rfl
  | icmp pred =>
      exact iff_of_true ((strict_checkFoldICmp A pred).monotoneAt_poison hlength resultType) rfl
  | shuffleVector mask =>
      exact iff_of_true ((strict_checkFoldShuffleVector mask resultType).monotoneAt hlength) rfl
  | extractElement =>
      exact iff_of_true
        ((strict_checkFoldExtractElement A).monotoneAt_poison hlength resultType) rfl
  | insertElement =>
      exact iff_of_true ((strict_checkFoldInsertElement A).monotoneAt hlength) rfl
  | extractValue indices =>
      exact iff_of_true
        ((strict_checkFoldExtractValue indices).monotoneAt_poison hlength resultType) rfl
  | insertValue indices =>
      exact iff_of_true ((strict_checkFoldInsertValue indices).monotoneAt hlength) rfl
  | intCast castOp =>
      exact iff_of_true ((castOp.strict A resultType).monotoneAt_poison hlength resultType) rfl
  | fptosi =>
      exact iff_of_true
        ((strict_checkFoldFloatToInt A fl resultType true).monotoneAt_poison hlength resultType) rfl
  | fptoui =>
      exact iff_of_true
        ((strict_checkFoldFloatToInt A fl resultType false).monotoneAt_poison hlength resultType) rfl
  | sitofp =>
      exact iff_of_true
        ((strict_checkFoldIntToFloat A fl resultType true false).monotoneAt_poison hlength resultType) rfl
  | uitofp nneg =>
      exact iff_of_true
        ((strict_checkFoldIntToFloat A fl resultType false nneg).monotoneAt_poison hlength resultType) rfl
  | fpext flags =>
      exact iff_of_true
        ((strict_checkFoldFloatCast fl resultType flags).monotoneAt_poison hlength resultType) rfl
  | fptrunc flags =>
      exact iff_of_true
        ((strict_checkFoldFloatCast fl resultType flags).monotoneAt_poison hlength resultType) rfl
  | fneg flags =>
      exact iff_of_true ((strict_checkFoldFNeg fl flags).monotoneAt_poison hlength resultType) rfl
  | floatBin binOp flags =>
      exact iff_of_true
        ((strict_checkFoldFloatBinOp fl binOp flags).monotoneAt_poison hlength resultType) rfl
  | fcmp pred flags =>
      exact iff_of_true
        ((strict_checkFoldFCmp A fl pred flags).monotoneAt_poison hlength resultType) rfl
  | freeze =>
      exact iff_of_true (strict_checkFoldFreeze.monotoneAt hlength) rfl

/-! ## Branches -/

section Branch

variable {Block : Type}

/-- Only what is known of the first operand matters. -/
theorem BranchOp.checkFold_congr (op : BranchOp Block) (cond : Option (Attr F)) (ops ops' : Known F) :
    op.checkFold A (cond :: ops) = op.checkFold A (cond :: ops') := by
  obtain ⟨opcode, successors⟩ := op
  cases opcode with
  | br => rfl
  | condBr =>
      cases cond with
      | none => rfl
      | some c => cases c <;> rfl
  | switch caseValues =>
      cases cond with
      | none => rfl
      | some c => cases c <;> rfl

/-- With nothing known of the condition, every successor is possible. -/
theorem BranchOp.checkFold_unknown {op : BranchOp Block} (hverify : op.verify = true)
    (ops : Known F) : op.checkFold A (none :: ops) = some op.successors := by
  obtain ⟨opcode, successors⟩ := op
  cases opcode with
  | br => rfl
  | condBr =>
      obtain ⟨taken, other, rfl⟩ := List.length_eq_two.mp (decide_eq_true_eq.mp hverify)
      rfl
  | switch caseValues => rfl

theorem BranchOp.subset_successors {op : BranchOp Block} {ops : Known F}
    {succs : List Block} (h : op.checkFold A ops = some succs) (hverify : op.verify = true) :
    succs ⊆ op.successors := by
  obtain ⟨opcode, successors⟩ := op
  cases opcode with
  | br =>
      obtain rfl := Option.some.inj h
      exact List.Subset.refl _
  | condBr =>
      obtain ⟨taken, other, rfl⟩ := List.length_eq_two.mp (decide_eq_true_eq.mp hverify)
      obtain ⟨indices, hindices, hsuccs⟩ := Option.bind_eq_some_iff.mp h
      unfold possibleSuccessorIndices at hindices
      split at hindices
      · obtain rfl := Option.some.inj hindices
        obtain rfl := Option.some.inj hsuccs
        exact List.nil_subset _
      · split at hindices
        · exact nomatch hindices
        · split at hindices
          · obtain rfl := Option.some.inj hindices
            obtain rfl := Option.some.inj hsuccs
            exact List.Subset.refl _
          · obtain rfl := Option.some.inj hindices
            split at hsuccs
            · obtain rfl := Option.some.inj hsuccs
              simp
            · obtain rfl := Option.some.inj hsuccs
              simp
  | switch caseValues =>
      simp only [checkFold] at h
      split at h
      · obtain rfl := Option.some.inj h
        exact List.nil_subset _
      · split at h
        · obtain rfl := Option.some.inj h
          exact List.Subset.refl _
        · obtain ⟨succ, hsucc, h⟩ := Option.bind_eq_some_iff.mp h
          obtain rfl := Option.some.inj h
          exact List.cons_subset.mpr ⟨List.mem_of_getElem? hsucc, List.nil_subset _⟩

/-- Knowing less, no successor is ruled out. -/
theorem BranchOp.checkFold_mono {op : BranchOp Block} (hverify : op.verify = true)
    {ops ops' : Known F} (hforgets : Forgets ops ops') {succs : List Block}
    (h : op.checkFold A ops = some succs) :
    ∃ succs', op.checkFold A ops' = some succs' ∧ succs ⊆ succs' := by
  cases hforgets with
  | nil => exact ⟨succs, h, List.Subset.refl _⟩
  | @cons cond cond' ops ops' hcond _ =>
      obtain rfl | rfl := hcond
      · exact ⟨_, op.checkFold_unknown hverify ops', op.subset_successors h hverify⟩
      · rw [op.checkFold_congr cond' ops ops'] at h
        exact ⟨succs, h, List.Subset.refl _⟩

end Branch

/-- Forgetting constants: a fold forgets results or gives the same if and only if the operands are
    free of conflicts, and a branch rules out no successor. -/
theorem folds_monotone [DecidableEq F] (A : Awint) (fl : APFloat F) :
    (∀ (op : Op F) (ops : Known F), op.verify = true →
      List.Forall₂ (fun ty known => ∀ c ∈ known, c.HasType fl ty) op.operandTypes ops →
        (MonotoneAt (op.checkFold A fl) ops ↔ op.conflicts A ops = false)) ∧
      ∀ (Block : Type) (op : BranchOp Block) (ops ops' : Known F) (succs : List Block),
        op.verify = true → Forgets ops ops' → op.checkFold A ops = some succs →
          ∃ succs', op.checkFold A ops' = some succs' ∧ succs ⊆ succs' := by
  constructor
  · intro op ops hverify hops
    exact op.monotoneAt_iff fl hverify ops hops
  · intro Block op ops ops' succs hverify hforgets h
    exact op.checkFold_mono hverify hforgets h

def zero8 : Attr Unit :=
  .integer ⟨{ width := 8, signedness := .signless }, APInt.zero 8 (by decide)⟩

def poison8 : Attr Unit := .poison (.integer { width := 8, signedness := .signless })

def and8 : Op Unit :=
  ⟨.intBin .and, [.integer { width := 8, signedness := .signless },
    .integer { width := 8, signedness := .signless }],
    .integer { width := 8, signedness := .signless }⟩

/-- A conjunction with zero, and a branch on zero. -/
theorem folds_monotone_zero :
    MonotoneAt (and8.checkFold Awint.bitVec APFloat.unit) [some zero8, none] ∧
      ∃ succs', (⟨.condBr, [3, 5]⟩ : BranchOp Nat).checkFold (F := Unit) Awint.bitVec [none] =
        some succs' ∧ [5] ⊆ succs' := by
  have h := folds_monotone Awint.bitVec APFloat.unit
  constructor
  · apply (h.1 and8 [some zero8, none] rfl _).mpr rfl
    apply List.Forall₂.cons
    · rintro c ⟨⟩
      exact ⟨rfl, rfl⟩
    · exact List.Forall₂.cons (by simp) List.Forall₂.nil
  · exact h.2 Nat ⟨.condBr, [3, 5]⟩ [some zero8] [none] [5] rfl (forgets_none _) rfl

/-- The conjunction of poison and zero is folded to zero; without the zero it is poison. -/
theorem and_poison_zero :
    Forgets [some poison8, some zero8] [some poison8, none] ∧
      and8.checkFold Awint.bitVec APFloat.unit [some poison8, some zero8] = some [some zero8] ∧
      and8.checkFold Awint.bitVec APFloat.unit [some poison8, none] = some [some poison8] ∧
      zero8 ≠ poison8 := by
  refine ⟨forgets_right _ _, rfl, rfl, ?_⟩
  exact nofun

end Pliron.LLVM
