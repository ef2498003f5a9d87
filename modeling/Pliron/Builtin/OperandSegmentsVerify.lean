/-
  Pliron.Builtin.OperandSegmentsVerify

  What the verification of operand segments promises.

  If the sizes add up to less than `2 ^ 32`, the 32-bit sums are exact, and sizes that are
  accepted cut the operands into segments.  Larger sizes either panic or add up to a wrong
  total.
-/

import Pliron.Builtin.OperandSegments

namespace Pliron

open Pliron.Lib Segments

/-! ## 32-bit sums -/

/-- The sum of the sizes, without overflow. -/
def totalSize (sizes : List UInt32) : Nat := (sizes.map UInt32.toNat).sum

theorem totalSize_cons (size : UInt32) (sizes : List UInt32) :
    totalSize (size :: sizes) = size.toNat + totalSize sizes := by
  rw [totalSize, List.map_cons, List.sum_cons]
  rfl

/-- A sum in 32 bits: exact if it fits. -/
theorem foldlM_addU32 (mode : OverflowMode) (sizes : List UInt32) (acc : UInt32) :
    (acc.toNat + totalSize sizes < 2 ^ 32 →
      ∃ x, sizes.foldlM (addU32 mode) acc = some x ∧ x.toNat = acc.toNat + totalSize sizes) ∧
    (2 ^ 32 ≤ acc.toNat + totalSize sizes → match mode with
      | .checked => sizes.foldlM (addU32 mode) acc = none
      | .wrapping => ∃ x, sizes.foldlM (addU32 mode) acc = some x ∧
          x.toNat = (acc.toNat + totalSize sizes) % 2 ^ 32) := by
  induction sizes generalizing acc with
  | nil =>
      have hacc : acc.toNat < 2 ^ 32 := acc.toNat_lt
      constructor
      · exact fun _ => ⟨acc, rfl, rfl⟩
      · intro h
        exact absurd hacc (not_lt.mpr h)
  | cons size sizes ih =>
      rw [totalSize_cons, List.foldlM_cons, ← Nat.add_assoc]
      by_cases hadd : acc.toNat + size.toNat < 2 ^ 32
      · have hstep : addU32 mode acc size = some (acc + size) := if_pos hadd
        have hnat : (acc + size).toNat = acc.toNat + size.toNat := by
          rw [UInt32.toNat_add, Nat.mod_eq_of_lt hadd]
        have hrest := ih (acc + size)
        rw [hnat] at hrest
        rw [hstep]
        exact hrest
      · constructor
        · intro h
          omega
        · intro _
          cases mode with
          | checked =>
              have hstep : addU32 .checked acc size = none := if_neg hadd
              rw [hstep]
              rfl
          | wrapping =>
              have hstep : addU32 .wrapping acc size = some (acc + size) := if_neg hadd
              have hnat : (acc + size).toNat = (acc.toNat + size.toNat) % 2 ^ 32 :=
                UInt32.toNat_add acc size
              obtain ⟨hlt, hge⟩ := ih (acc + size)
              rw [hnat] at hlt hge
              rw [hstep]
              show ∃ x, sizes.foldlM (addU32 .wrapping) (acc + size) = some x ∧ _
              by_cases hsum : (acc.toNat + size.toNat) % 2 ^ 32 + totalSize sizes < 2 ^ 32
              · obtain ⟨x, hx, hxnat⟩ := hlt hsum
                exact ⟨x, hx, by omega⟩
              · obtain ⟨x, hx, hxnat⟩ := hge (not_lt.mp hsum)
                exact ⟨x, hx, by omega⟩

theorem sumU32_of_lt (mode : OverflowMode) {sizes : List UInt32} (h : totalSize sizes < 2 ^ 32) :
    ∃ x, sumU32 mode sizes = some x ∧ x.toNat = totalSize sizes := by
  have hzero : (0 : UInt32).toNat = 0 := rfl
  have hsum := (foldlM_addU32 mode sizes 0).1
  rw [hzero, Nat.zero_add] at hsum
  exact hsum h

theorem sumU32_checked_eq_none {sizes : List UInt32} (h : 2 ^ 32 ≤ totalSize sizes) :
    sumU32 .checked sizes = none := by
  have hzero : (0 : UInt32).toNat = 0 := rfl
  have hsum := (foldlM_addU32 .checked sizes 0).2
  rw [hzero, Nat.zero_add] at hsum
  exact hsum h

theorem sumU32_wrapping {sizes : List UInt32} (h : 2 ^ 32 ≤ totalSize sizes) :
    ∃ x, sumU32 .wrapping sizes = some x ∧ x.toNat = totalSize sizes % 2 ^ 32 := by
  have hzero : (0 : UInt32).toNat = 0 := rfl
  have hsum := (foldlM_addU32 .wrapping sizes 0).2
  rw [hzero, Nat.zero_add] at hsum
  exact hsum h

/-! ## Exact segments -/

namespace SegmentedContext

variable (mode : OverflowMode) (s : SegmentedContext) (op : OpPtr)

/-- The segments follow each other, and are the operands together. -/
def SegmentsExact : Prop :=
  ∃ sizes operands segs, s.segmentSizes op = some sizes ∧ s.operands op = some operands ∧
    segs.length = sizes.length ∧ segs.flatten = operands ∧
    ∀ i seg, segs[i]? = some seg →
      s.segmentRange mode op i = some (start segs i, start segs i + seg.length) ∧
      s.getSegment mode op i = some seg

/-- Every successor is forwarded its own segment. -/
def SuccessorsExact (kind : SegmentedBranch) : Prop :=
  ∀ n, s.numSuccessors op = some n → ∀ succIdx, succIdx < n →
    ∃ seg, s.getSegment mode op (succIdx + 1) = some seg ∧
      s.successorOperands mode kind op succIdx = some seg

/-- Verification does not panic, and what it accepts has exact segments, for each successor too
    if the operation is a branch with segments. -/
def VerificationSound (expectedNumSegments : Option Nat) : Prop :=
  s.verifySegments mode op expectedNumSegments ≠ none ∧
  (s.verifySegments mode op expectedNumSegments = some (.ok ()) →
    s.SegmentsExact mode op ∧
    ∀ kind, s.verifySuccessorOperandLayout mode kind op = some (.ok ()) →
      s.SuccessorsExact mode op kind)

variable {mode} {s} {op} {sizes : List UInt32} {operands : List Value}
  {expected : Option Nat} {segs : List (List Value)} {seg : List Value} {i : Nat}

theorem getElem?_sizes (hsizes : sizes.map UInt32.toNat = segs.map List.length)
    (hseg : segs[i]? = some seg) : ∃ size, sizes[i]? = some size ∧ size.toNat = seg.length := by
  have hmap : (segs.map List.length)[i]? = some seg.length := by
    rw [List.getElem?_map, hseg]
    rfl
  rw [← hsizes, List.getElem?_map] at hmap
  obtain ⟨size, hsize, hnat⟩ := Option.map_eq_some_iff.mp hmap
  exact ⟨size, hsize, hnat⟩

/-- The position of a segment is computed from the sizes. -/
theorem sumU32_take (mode : OverflowMode) (hsizes : sizes.map UInt32.toNat = segs.map List.length)
    (hfits : start segs i < 2 ^ 32) :
    ∃ x, sumU32 mode (sizes.take i) = some x ∧ x.toNat = start segs i := by
  have htotal : totalSize (sizes.take i) = start segs i := by
    rw [totalSize, start_eq_sum, ← hsizes, List.map_take]
  rw [← htotal] at hfits ⊢
  exact sumU32_of_lt mode hfits

theorem start_add_length_le (hseg : segs[i]? = some seg) :
    start segs i + seg.length ≤ segs.flatten.length := by
  rw [flatten_eq_cut hseg, List.length_append, List.length_append, start]
  omega

/-- What is read from operands that are segments one after the other. -/
theorem getSegment_eq (hsizes : s.segmentSizes op = some sizes)
    (hoperands : s.operands op = some segs.flatten)
    (hlengths : sizes.map UInt32.toNat = segs.map List.length) (hseg : segs[i]? = some seg)
    (hfits : start segs i < 2 ^ 32) :
    s.segmentRange mode op i = some (start segs i, start segs i + seg.length) ∧
    s.getSegment mode op i = some seg := by
  obtain ⟨size, hsize, hnat⟩ := getElem?_sizes hlengths hseg
  obtain ⟨x, hx, hxnat⟩ := sumU32_take mode hlengths hfits
  have hrange : s.segmentRange mode op i =
      some (start segs i, start segs i + seg.length) := by
    rw [← hxnat, ← hnat, segmentRange, getOperandSegmentSizes, hsizes]
    simp only [Option.bind_eq_bind, Option.bind_some, hsize, hx]
  refine ⟨hrange, ?_⟩
  rw [getSegment, hrange]
  simp only [Option.bind_eq_bind, Option.bind_some, operandsInRange, hoperands,
    Nat.add_sub_cancel_left]
  rw [mapM_range'_eq_some (start_add_length_le hseg), slice_flatten hseg]

/-- Sizes that add up to the number of operands cut these into segments. -/
theorem segmentsExact_of_total (hsizes : s.segmentSizes op = some sizes)
    (hoperands : s.operands op = some operands) (htotal : totalSize sizes = operands.length)
    (hlt : totalSize sizes < 2 ^ 32) : s.SegmentsExact mode op := by
  obtain ⟨segs, hlengths, rfl⟩ := exists_segments htotal
  have hlen : segs.length = sizes.length := by
    have := congrArg List.length hlengths
    rwa [List.length_map, List.length_map] at this
  refine ⟨sizes, segs.flatten, segs, hsizes, hoperands, hlen, rfl, ?_⟩
  intro i seg hseg
  have hfits : start segs i < 2 ^ 32 := by
    have := start_add_length_le hseg
    omega
  exact getSegment_eq hsizes hoperands hlengths.symm hseg hfits

/-- Exact segments have the sizes of the attribute. -/
theorem SegmentsExact.totalSize_eq (h : s.SegmentsExact mode op)
    (hsizes : s.segmentSizes op = some sizes) (hoperands : s.operands op = some operands) :
    totalSize sizes = operands.length := by
  obtain ⟨sizes', operands', segs, hsizes', hoperands', hlen, hflat, hsegs⟩ := h
  obtain rfl := Option.some.inj (hsizes.symm.trans hsizes')
  obtain rfl := Option.some.inj (hoperands.symm.trans hoperands')
  have hlengths : sizes.map UInt32.toNat = segs.map List.length := by
    apply List.ext_getElem?
    intro i
    rw [List.getElem?_map, List.getElem?_map]
    cases hseg : segs[i]? with
    | none =>
        have hnone : sizes[i]? = none := by
          rw [List.getElem?_eq_none_iff] at hseg ⊢
          omega
        rw [hnone]
        rfl
    | some seg =>
        obtain ⟨hrange, _⟩ := hsegs i seg hseg
        rw [segmentRange, getOperandSegmentSizes, hsizes, Option.bind_eq_bind,
          Option.bind_some] at hrange
        obtain ⟨size, hsize, hrange⟩ := Option.bind_eq_some_iff.mp hrange
        obtain ⟨x, _, hrange⟩ := Option.bind_eq_some_iff.mp hrange
        obtain ⟨hx, hend⟩ := Prod.mk.inj (Option.some.inj hrange)
        rw [hsize, Option.map_some, Option.map_some]
        congr 1
        omega
  rw [totalSize, hlengths, ← hflat, List.length_flatten]

/-! ## Verification -/

/-- What is accepted: sizes whose 32-bit sum is the number of operands, as many as expected. -/
theorem verifySegments_eq_ok_iff {total : UInt32} (hoperands : s.operands op = some operands)
    (hsizes : s.segmentSizes op = some sizes) (hlen : operands.length < 2 ^ 32)
    (htotal : sumU32 mode sizes = some total) :
    s.verifySegments mode op expected = some (.ok ()) ↔
      total.toNat = operands.length ∧ ∀ e, expected = some e → sizes.length = e := by
  have hnum : lengthU32 operands.length = some (UInt32.ofNat operands.length) := if_pos hlen
  have hnat : (UInt32.ofNat operands.length).toNat = operands.length :=
    UInt32.toNat_ofNat_of_lt' hlen
  have heq : total = UInt32.ofNat operands.length ↔ total.toNat = operands.length := by
    rw [← UInt32.toNat_inj, hnat]
  rw [verifySegments, hoperands]
  simp only [Option.bind_eq_bind, Option.bind_some, hsizes, htotal, hnum]
  by_cases htot : total = UInt32.ofNat operands.length
  · rw [if_neg (not_not.mpr htot)]
    cases expected with
    | none => exact ⟨fun _ => ⟨heq.mp htot, fun e he => absurd he nofun⟩, fun _ => rfl⟩
    | some e =>
        show (if sizes.length ≠ e then some (Except.error _) else some (Except.ok ())) = _ ↔ _
        by_cases hcount : sizes.length = e
        · rw [if_neg (not_not.mpr hcount)]
          exact ⟨fun _ => ⟨heq.mp htot, fun e' he' => hcount.trans (Option.some.inj he')⟩,
            fun _ => rfl⟩
        · rw [if_pos hcount]
          exact ⟨fun h => absurd (Option.some.inj h) nofun, fun h => absurd (h.2 e rfl) hcount⟩
  · rw [if_pos htot]
    exact ⟨fun h => absurd (Option.some.inj h) nofun, fun h => absurd (heq.mpr h.1) htot⟩

/-- Verification panics exactly if a sum or the number of operands does not fit. -/
theorem verifySegments_ne_none_iff (hoperands : s.operands op = some operands)
    (hsizes : s.segmentSizes op = some sizes) :
    s.verifySegments mode op expected ≠ none ↔
      operands.length < 2 ^ 32 ∧ sumU32 mode sizes ≠ none := by
  rw [verifySegments, hoperands]
  simp only [Option.bind_eq_bind, Option.bind_some, hsizes]
  cases htotal : sumU32 mode sizes with
  | none => exact ⟨fun h => absurd rfl h, fun h => absurd rfl h.2⟩
  | some total =>
      by_cases hlen : operands.length < 2 ^ 32
      · have hnum : lengthU32 operands.length = some (UInt32.ofNat operands.length) := if_pos hlen
        refine ⟨fun _ => ⟨hlen, nofun⟩, fun _ => ?_⟩
        rw [hnum]
        simp only [Option.bind_some]
        split
        · exact nofun
        · cases expected with
          | none => exact nofun
          | some e =>
              show (if sizes.length ≠ e then some _ else some _) ≠ none
              split
              · exact nofun
              · exact nofun
      · have hnum : lengthU32 operands.length = none := if_neg hlen
        rw [hnum]
        exact ⟨fun h => absurd rfl h, fun h => absurd h.1 hlen⟩

/-- A layout that is accepted has a segment for each successor, after the first one. -/
theorem layout_ok {kind : SegmentedBranch} {n : Nat} (hoperands : s.operands op = some operands)
    (hsizes : s.segmentSizes op = some sizes) (hn : s.numSuccessors op = some n)
    (hok : s.verifySuccessorOperandLayout mode kind op = some (.ok ())) :
    sizes.length = n + 1 ∧ (kind = .condBr → n = 2) := by
  rw [verifySuccessorOperandLayout, hn, Option.bind_eq_bind, Option.bind_some] at hok
  obtain ⟨res, hverify, hok⟩ := Option.bind_eq_some_iff.mp hok
  cases res with
  | error err => exact absurd (Option.some.inj hok) nofun
  | ok u =>
      have hnone : s.verifySegments mode op (kind.expectedNumSegments n) ≠ none := by
        rw [hverify]
        exact nofun
      obtain ⟨hlen, hsum⟩ := (verifySegments_ne_none_iff hoperands hsizes).mp hnone
      obtain ⟨total, htotal⟩ := Option.ne_none_iff_exists'.mp hsum
      obtain ⟨_, hcount⟩ := (verifySegments_eq_ok_iff hoperands hsizes hlen htotal).mp hverify
      cases kind with
      | condBr =>
          have hok : (if n ≠ 2 then some (Except.error (BranchLayoutErr.nSuccs 2 n))
              else some (.ok ())) = some (.ok ()) := hok
          have htwo : n = 2 := by
            by_contra htwo
            rw [if_pos htwo] at hok
            exact absurd (Option.some.inj hok) nofun
          exact ⟨by rw [hcount 3 rfl, htwo], fun _ => htwo⟩
      | switch => exact ⟨hcount (n + 1) rfl, nofun⟩
      | indirectBr => exact ⟨hcount (n + 1) rfl, nofun⟩

/-- The first segment is not forwarded. -/
theorem successorOperandRange_eq {kind : SegmentedBranch} {succIdx : Nat}
    (hkind : kind = .condBr → succIdx < 2) :
    s.successorOperandRange mode kind op succIdx = s.segmentRange mode op (succIdx + 1) := by
  cases kind with
  | condBr =>
      have hguard : succIdx = 0 ∨ succIdx = 1 := by
        have := hkind rfl
        omega
      rw [successorOperandRange, Option.bind_eq_bind, guard, if_pos hguard]
      rfl
  | switch => rfl
  | indirectBr => rfl

/-- Exact segments are what the successors are forwarded. -/
theorem SegmentsExact.successors {kind : SegmentedBranch} (h : s.SegmentsExact mode op)
    (hok : s.verifySuccessorOperandLayout mode kind op = some (.ok ())) :
    s.SuccessorsExact mode op kind := by
  intro n hn succIdx hsucc
  obtain ⟨sizes, operands, segs, hsizes, hoperands, hlen, _, hsegs⟩ := h
  obtain ⟨hcount, htwo⟩ := layout_ok hoperands hsizes hn hok
  have hlt : succIdx + 1 < segs.length := by omega
  obtain ⟨hrange, hget⟩ := hsegs (succIdx + 1) segs[succIdx + 1] (List.getElem?_eq_getElem hlt)
  refine ⟨segs[succIdx + 1], hget, ?_⟩
  have hkind : kind = .condBr → succIdx < 2 := by
    intro hkind
    have := htwo hkind
    omega
  rw [successorOperands, successorOperandRange_eq hkind]
  exact hget

/-- Verification is sound, except for sizes that overflow.  With overflow checks they panic, and
    without these they are accepted if the sum that has wrapped around is the number of
    operands. -/
theorem verificationSound_iff (hoperands : s.operands op = some operands) :
    s.VerificationSound mode op expected ↔
      ∀ sizes, s.segmentSizes op = some sizes → operands.length < 2 ^ 32 ∧
        (2 ^ 32 ≤ totalSize sizes → mode = .wrapping ∧
          (totalSize sizes % 2 ^ 32 ≠ operands.length ∨
            ∃ e, expected = some e ∧ sizes.length ≠ e)) := by
  constructor
  · rintro ⟨hpanic, hsound⟩ sizes hsizes
    obtain ⟨hlen, hsum⟩ := (verifySegments_ne_none_iff hoperands hsizes).mp hpanic
    refine ⟨hlen, fun hbig => ?_⟩
    cases mode with
    -- a checked sum panics when it is too large
    | checked => exact absurd (sumU32_checked_eq_none hbig) hsum
    | wrapping =>
        refine ⟨rfl, ?_⟩
        by_contra hcon
        obtain ⟨total, htotal, hnat⟩ := sumU32_wrapping hbig
        push Not at hcon
        have hok := (verifySegments_eq_ok_iff hoperands hsizes hlen htotal).mpr
          ⟨hnat.trans hcon.1, hcon.2⟩
        -- a wrapped sum that passes would have to be the real one
        have hexact := (hsound hok).1.totalSize_eq hsizes hoperands
        omega
  · intro hcond
    cases hsizes : s.segmentSizes op with
    | none =>
        have herr : s.verifySegments mode op expected =
            some (.error .operandSegmentSizesAttrErr) := by
          -- without the attribute the verifier reports an error and says nothing of segments
          rw [verifySegments, hoperands]
          simp only [Option.bind_eq_bind, Option.bind_some, hsizes]
        rw [VerificationSound, herr]
        exact ⟨nofun, fun h => absurd (Option.some.inj h) nofun⟩
    | some sizes =>
        obtain ⟨hlen, hbig⟩ := hcond sizes hsizes
        by_cases hlt : totalSize sizes < 2 ^ 32
        · obtain ⟨total, htotal, hnat⟩ := sumU32_of_lt mode hlt
          constructor
          · apply (verifySegments_ne_none_iff hoperands hsizes).mpr
            rw [htotal]
            exact ⟨hlen, nofun⟩
          · intro hok
            obtain ⟨heq, _⟩ := (verifySegments_eq_ok_iff hoperands hsizes hlen htotal).mp hok
            have hexact : s.SegmentsExact mode op :=
              segmentsExact_of_total hsizes hoperands (hnat.symm.trans heq) hlt
            exact ⟨hexact, fun kind hlayout => hexact.successors hlayout⟩
        · -- the wrapped sum is not the number of operands, or the count of segments is wrong
          obtain ⟨rfl, hbad⟩ := hbig (not_lt.mp hlt)
          obtain ⟨total, htotal, hnat⟩ := sumU32_wrapping (not_lt.mp hlt)
          constructor
          · apply (verifySegments_ne_none_iff hoperands hsizes).mpr
            rw [htotal]
            exact ⟨hlen, nofun⟩
          · intro hok
            obtain ⟨heq, hcount⟩ := (verifySegments_eq_ok_iff hoperands hsizes hlen htotal).mp hok
            rcases hbad with hne | ⟨e, he, hne⟩
            · exact absurd (hnat.symm.trans heq) hne
            · exact absurd (hcount e he) hne

/-- A context with one operation, that has these operands and segment sizes and no results. -/
def single (operands : List (Operand Value)) (sizes : List UInt32) : SegmentedContext where
  ctx := {
    operations op :=
      if op = ⟨0⟩ then some { concreteOp := { opId := 0 }, operands := operands } else none
    nextOp := 1 }
  segmentSizes op := if op = ⟨0⟩ then some sizes else none

/-- A branch with a condition and a segment for each successor. -/
theorem verificationSound_iff_single :
    (single [⟨0, ⟨0, .block ⟨0⟩⟩⟩, ⟨1, ⟨1, .block ⟨0⟩⟩⟩] [1, 0, 1]).VerificationSound
      .checked ⟨0⟩ (some 3) := by
  apply (verificationSound_iff rfl).mpr
  intro sizes hsizes
  have hsizes : [1, 0, 1] = sizes := Option.some.inj hsizes
  subst hsizes
  exact ⟨by decide, fun h => absurd h (by decide)⟩

/-- The sizes `2 ^ 32 - 1` and `1` for no operands: a panic with overflow checks, and accepted
    without these. -/
theorem verification_not_sound :
    (single [] [4294967295, 1]).verifySegments .checked ⟨0⟩ none = none ∧
    (single [] [4294967295, 1]).verifySegments .wrapping ⟨0⟩ none = some (.ok ()) ∧
    (single [] [4294967295, 1]).getSegment .wrapping ⟨0⟩ 1 = none ∧
    ∀ mode, ¬ (single [] [4294967295, 1]).VerificationSound mode ⟨0⟩ none := by
  have htotal : totalSize [4294967295, 1] = 2 ^ 32 := by decide
  have hsizes : (single [] [4294967295, 1]).segmentSizes ⟨0⟩ = some [4294967295, 1] := rfl
  have hoperands : (single [] [4294967295, 1]).operands ⟨0⟩ = some [] := rfl
  refine ⟨rfl, rfl, rfl, ?_⟩
  intro mode hsound
  obtain ⟨hpanic, hsound⟩ := hsound
  obtain ⟨hlen, hsum⟩ := (verifySegments_ne_none_iff hoperands hsizes).mp hpanic
  cases mode with
  | checked => exact hsum (sumU32_checked_eq_none htotal.ge)
  | wrapping =>
      have hexact := (hsound rfl).1.totalSize_eq hsizes hoperands
      rw [htotal] at hexact
      exact absurd hexact (by decide)

end SegmentedContext

end Pliron
