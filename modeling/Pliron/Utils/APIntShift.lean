/-
  Pliron.Utils.APIntShift

  Shifts, and the overflow flags, by an amount of any size.

  The amount is an integer of the width of the shifted value, and only its low 64 bits are
  compared with the width.  An amount that does not fit in a machine word can then pass for a
  small one.
-/

import Pliron.Utils.APIntSpec

namespace Pliron

open LLVMInt (UFits SFits)

namespace APInt

variable {A : Awint} {w : Nat} (hA : A.Documented) (hw : 0 < w) (x n : BitVec w)

/-! ## The mathematical shifts -/

/-- `x * 2 ^ n`, and zero from the width on. -/
def shlValue (n : Nat) : BitVec w := if n < w then BitVec.ofNat w (x.toNat * 2 ^ n) else 0

/-- `x / 2 ^ n` of the unsigned value, and zero from the width on. -/
def lshrValue (n : Nat) : BitVec w := if n < w then BitVec.ofNat w (x.toNat / 2 ^ n) else 0

/-- `x / 2 ^ n` of the signed value, and the sign bit in every position from the width on. -/
def ashrValue (n : Nat) : BitVec w :=
  if n < w then BitVec.ofInt w (x.toInt / 2 ^ n)
  else if x.msb then BitVec.allOnes w else 0

/-- The three shifts are the mathematical ones. -/
def ShiftsExact (A : Awint) : Prop :=
  shl A ⟨w, x, hw⟩ ⟨w, n, hw⟩ = some ⟨w, shlValue x n.toNat, hw⟩ ∧
  lshr A ⟨w, x, hw⟩ ⟨w, n, hw⟩ = some ⟨w, lshrValue x n.toNat, hw⟩ ∧
  ashr A ⟨w, x, hw⟩ ⟨w, n, hw⟩ = some ⟨w, ashrValue x n.toNat, hw⟩

/-! ## What the shifts compute -/

theorem ofNat_mul_pow (s : Nat) : BitVec.ofNat w (x.toNat * 2 ^ s) = x <<< s := by
  apply BitVec.eq_of_toNat_eq
  rw [BitVec.toNat_ofNat, BitVec.toNat_shiftLeft, Nat.shiftLeft_eq]

include hw in
/-- Shifting by all positions but one leaves the sign bit. -/
theorem sshiftRight_all : x.sshiftRight (w - 1) = if x.msb then BitVec.allOnes w else 0 := by
  obtain ⟨hlo, hhi⟩ := LLVMInt.sFits_toInt hw x
  have hpos : (0 : Int) < 2 ^ (w - 1) := by positivity
  have hdiv : (x.sshiftRight (w - 1)).toInt = x.toInt / 2 ^ (w - 1) := by
    rw [BitVec.toInt_sshiftRight, Int.shiftRight_eq_div_pow]
    push_cast
    rfl
  cases hmsb : x.msb with
  | true =>
      have hneg : x.toInt < 0 := BitVec.toInt_neg_of_msb_true hmsb
      have hquot : x.toInt / 2 ^ (w - 1) = -1 := by
        rw [Int.ediv_eq_iff_of_pos hpos]
        constructor
        · linarith
        · linarith
      rw [if_pos rfl, ← BitVec.toInt_inj, hdiv, hquot, BitVec.toInt_allOnes, if_pos hw]
  | false =>
      have hnonneg : 0 ≤ x.toInt := by
        rw [BitVec.toInt_eq_toNat_of_msb hmsb]
        exact Int.natCast_nonneg _
      rw [if_neg (by simp), ← BitVec.toInt_inj, hdiv, Int.ediv_eq_zero_of_lt hnonneg hhi]
      exact BitVec.toInt_zero.symm

include hA

theorem shl_eq : shl A ⟨w, x, hw⟩ ⟨w, n, hw⟩ =
    some ⟨w, if n.toNat % 2 ^ 64 < w then x <<< (n.toNat % 2 ^ 64) else 0, hw⟩ := by
  simp only [shl, sameBw_mk, toUsize, hA.toUsize, hA.shl, withValue]
  split
  · rfl
  · rfl

theorem lshr_eq : lshr A ⟨w, x, hw⟩ ⟨w, n, hw⟩ =
    some ⟨w, if n.toNat % 2 ^ 64 < w then x >>> (n.toNat % 2 ^ 64) else 0, hw⟩ := by
  simp only [lshr, sameBw_mk, toUsize, hA.toUsize, hA.lshr, withValue]
  split
  · rfl
  · rfl

theorem ashr_eq : ashr A ⟨w, x, hw⟩ ⟨w, n, hw⟩ =
    some ⟨w, x.sshiftRight (min (n.toNat % 2 ^ 64) (w - 1)), hw⟩ := by
  have hlt : min (n.toNat % 2 ^ 64) (w - 1) < w := by omega
  simp only [ashr, sameBw_mk, toUsize, hA.toUsize, hA.ashr, withValue, if_pos hlt,
    Option.bind_eq_bind, Option.bind_some]

omit hA in
theorem shiftLeft_eq_zero_iff {s : Nat} (hs : s < w) :
    x <<< s = 0 ↔ 2 ^ (w - s) ∣ x.toNat := by
  have hpow : 2 ^ w = 2 ^ (w - s) * 2 ^ s := by
    rw [← pow_add]
    congr 1
    omega
  have hzero : (0 : BitVec w).toNat = 0 := by simp
  rw [← BitVec.toNat_inj, BitVec.toNat_shiftLeft, Nat.shiftLeft_eq, hzero,
    ← Nat.dvd_iff_mod_eq_zero, hpow]
  exact Nat.mul_dvd_mul_iff_right (Nat.two_pow_pos s)

omit hA in
theorem ushiftRight_eq_zero_iff (s : Nat) : x >>> s = 0 ↔ x.toNat < 2 ^ s := by
  have hzero : (0 : BitVec w).toNat = 0 := by simp
  rw [← BitVec.toNat_inj, BitVec.toNat_ushiftRight, Nat.shiftRight_eq_div_pow, hzero]
  exact Nat.div_eq_zero_iff_lt (Nat.two_pow_pos s)

omit hA in
/-- A value below `2 ^ s` that is shifted by `s` as a signed integer leaves the sign bit, which
    is zero. -/
theorem sshiftRight_of_lt {s : Nat} (hs : s < w) (hx : x.toNat < 2 ^ s) :
    x.sshiftRight s = if x.msb then BitVec.allOnes w else 0 := by
  have hmsb : x.msb = false := by
    rw [BitVec.msb_eq_false_iff_two_mul_lt]
    calc 2 * x.toNat < 2 * 2 ^ s := by omega
      _ = 2 ^ (s + 1) := by rw [pow_succ, mul_comm]
      _ ≤ 2 ^ w := Nat.pow_le_pow_right (by omega) hs
  rw [hmsb, if_neg (by simp), BitVec.sshiftRight_eq_of_msb_false hmsb]
  exact (ushiftRight_eq_zero_iff x s).mpr hx

/-! ## Exactness -/

/-- The shifts are the mathematical ones unless the amount is out of range but its low 64 bits
    are in range, and the value is not shifted to zero by those in both directions. -/
theorem shifts_exact_iff (hmax : w < 2 ^ 64) : ShiftsExact hw x n A ↔
    n.toNat < w ∨ w ≤ n.toNat % 2 ^ 64 ∨
      (x.toNat < 2 ^ (n.toNat % 2 ^ 64) ∧ 2 ^ (w - n.toNat % 2 ^ 64) ∣ x.toNat) := by
  rw [ShiftsExact, shl_eq hA, lshr_eq hA, ashr_eq hA, shlValue, lshrValue, ashrValue]
  by_cases hn : n.toNat < w
  · -- the amount is in range
    have hs : n.toNat % 2 ^ 64 = n.toNat := Nat.mod_eq_of_lt (hn.trans hmax)
    refine iff_of_true ⟨?_, ?_, ?_⟩ (Or.inl hn)
    · rw [hs, if_pos hn, if_pos hn, ofNat_mul_pow]
    · have hspec := lshr_spec hA hw x n hn hmax
      rw [lshr_eq hA] at hspec
      rw [hspec, if_pos hn]
    · have hspec := ashr_spec hA hw x n hn hmax
      rw [ashr_eq hA] at hspec
      rw [hspec, if_pos hn]
  · simp only [if_neg hn, Option.some.injEq, mk_eq_mk_iff hw]
    by_cases hs : n.toNat % 2 ^ 64 < w
    · -- it passes for one in range
      simp only [if_pos hs, shiftLeft_eq_zero_iff x hs, ushiftRight_eq_zero_iff]
      have hmin : min (n.toNat % 2 ^ 64) (w - 1) = n.toNat % 2 ^ 64 := by omega
      rw [hmin]
      constructor
      · rintro ⟨hdvd, hlt, _⟩
        exact Or.inr (Or.inr ⟨hlt, hdvd⟩)
      · rintro (hlt | hge | ⟨hlt, hdvd⟩)
        · exact absurd hlt hn
        · omega
        · exact ⟨hdvd, hlt, sshiftRight_of_lt x hs hlt⟩
    · have hmin : min (n.toNat % 2 ^ 64) (w - 1) = w - 1 := by omega
      rw [if_neg hs, if_neg hs, hmin]
      exact iff_of_true ⟨rfl, rfl, sshiftRight_all hw x⟩ (Or.inr (Or.inl (not_lt.mp hs)))

omit hA in
theorem shifts_exact_iff_byte : ShiftsExact (by decide) (0x93 : BitVec 8) 3 Awint.bitVec ↔
    (3 : BitVec 8).toNat < 8 ∨ 8 ≤ (3 : BitVec 8).toNat % 2 ^ 64 ∨
      ((0x93 : BitVec 8).toNat < 2 ^ ((3 : BitVec 8).toNat % 2 ^ 64) ∧
        2 ^ (8 - (3 : BitVec 8).toNat % 2 ^ 64) ∣ (0x93 : BitVec 8).toNat) :=
  shifts_exact_iff Awint.bitVec_documented (by decide) 0x93 3 (by decide)

omit hA in
/-- `1` shifted by `2 ^ 64` positions stays `1`. -/
theorem shifts_not_exact : Awint.bitVec.Documented ∧
    shl Awint.bitVec ⟨128, 1, by decide⟩ ⟨128, BitVec.ofNat 128 (2 ^ 64), by decide⟩ =
      some ⟨128, 1, by decide⟩ ∧
    ¬ ShiftsExact (by decide) (1 : BitVec 128) (BitVec.ofNat 128 (2 ^ 64)) Awint.bitVec := by
  have hshl : shl Awint.bitVec ⟨128, 1, by decide⟩ ⟨128, BitVec.ofNat 128 (2 ^ 64), by decide⟩ =
      some ⟨128, 1, by decide⟩ := by decide +kernel
  refine ⟨Awint.bitVec_documented, hshl, ?_⟩
  rintro ⟨hexact, _⟩
  rw [hshl] at hexact
  exact absurd hexact (by decide +kernel)

/-! ## Overflow -/

omit hA in
/-- The sum, the difference, the product and the shifted value are exact, with their overflow
    flags, and exactly the amounts below the width can be shifted by. -/
def OverflowExact (A : Awint) : Prop :=
  addOverflow A ⟨w, x, hw⟩ ⟨w, n, hw⟩ =
    some (exact hw (x.toNat + n.toNat) (x.toInt + n.toInt)) ∧
  subOverflow A ⟨w, x, hw⟩ ⟨w, n, hw⟩ =
    some (exact hw (x.toNat - n.toNat) (x.toInt - n.toInt)) ∧
  mulOverflow A ⟨w, x, hw⟩ ⟨w, n, hw⟩ =
    some (exact hw (x.toNat * n.toNat) (x.toInt * n.toInt)) ∧
  (n.toNat < w → shlOverflow A ⟨w, x, hw⟩ ⟨w, n, hw⟩ =
    some (exact hw ((x.toNat * 2 ^ n.toNat : Nat)) (x.toInt * 2 ^ n.toNat))) ∧
  ((shlOverflow A ⟨w, x, hw⟩ ⟨w, n, hw⟩).isSome ↔ n.toNat < w)

/-- The range check of a shift looks at the low 64 bits of the amount. -/
theorem shlOverflow_isSome_iff :
    (shlOverflow A ⟨w, x, hw⟩ ⟨w, n, hw⟩).isSome ↔ n.toNat % 2 ^ 64 < w := by
  by_cases hs : n.toNat % 2 ^ 64 < w
  · refine iff_of_true ?_ hs
    simp only [shlOverflow, sameBw_mk, toUsize, hA.toUsize, if_pos hs, shl_eq hA, hA.lshr, hA.ashr,
      Option.bind_eq_bind, Option.bind_some, Option.isSome_some]
  · refine iff_of_false ?_ hs
    simp only [shlOverflow, sameBw_mk, toUsize, hA.toUsize, if_neg hs, Option.isSome_none,
      Bool.false_eq_true, not_false_eq_true]

theorem overflow_exact_iff (hmax : w < 2 ^ 64) : OverflowExact hw x n A ↔
    n.toNat < w ∨ w ≤ n.toNat % 2 ^ 64 := by
  -- the source compares the low 64 bits of the amount with the width
  have hrange : (n.toNat % 2 ^ 64 < w ↔ n.toNat < w) ↔ n.toNat < w ∨ w ≤ n.toNat % 2 ^ 64 := by
    constructor
    · intro hiff
      by_cases hs : n.toNat % 2 ^ 64 < w
      · exact Or.inl (hiff.mp hs)
      · exact Or.inr (not_lt.mp hs)
    · rintro (hn | hs)
      · rw [Nat.mod_eq_of_lt (hn.trans hmax)]
      · have hle : n.toNat % 2 ^ 64 ≤ n.toNat := Nat.mod_le _ _
        omega
  rw [← hrange, OverflowExact, shlOverflow_isSome_iff hA]
  constructor
  · exact fun h => h.2.2.2.2
  · intro hiff
    exact ⟨addOverflow_spec hA hw x n, subOverflow_spec hA hw x n, mulOverflow_spec hA hw x n,
      fun hn => shlOverflow_spec hA hw x n hn hmax, hiff⟩

omit hA in
theorem overflow_exact_iff_bit : OverflowExact (by decide) (1 : BitVec 1) 1 Awint.bitVec ↔
    (1 : BitVec 1).toNat < 1 ∨ 1 ≤ (1 : BitVec 1).toNat % 2 ^ 64 :=
  overflow_exact_iff Awint.bitVec_documented (by decide) 1 1 (by decide)

omit hA in
/-- An amount of `2 ^ 64` passes the range check. -/
theorem overflow_not_exact : Awint.bitVec.Documented ∧
    (shlOverflow Awint.bitVec ⟨128, 1, by decide⟩
      ⟨128, BitVec.ofNat 128 (2 ^ 64), by decide⟩).isSome ∧
    ¬ OverflowExact (by decide) (1 : BitVec 128) (BitVec.ofNat 128 (2 ^ 64)) Awint.bitVec := by
  have hsome : (shlOverflow Awint.bitVec ⟨128, 1, by decide⟩
      ⟨128, BitVec.ofNat 128 (2 ^ 64), by decide⟩).isSome := by decide +kernel
  refine ⟨Awint.bitVec_documented, hsome, ?_⟩
  rintro ⟨_, _, _, _, hrange⟩
  exact absurd (hrange.mp hsome) (by decide +kernel)

end APInt

end Pliron
