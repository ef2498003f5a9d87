/-
  Pliron.Utils.APIntSpec

  What the functions on arbitrary precision integers compute, when those of `awint` do what is
  documented.
-/

import Pliron.Lib.LLVMInt
import Pliron.Utils.APInt

namespace Pliron

open LLVMInt (UFits SFits)

namespace APInt

variable {A : Awint} {w : Nat} (hA : A.Documented) (hw : 0 < w) (x y : BitVec w)

theorem signedOverflow_eq (w : Nat) (i : Int) : signedOverflow w i = decide (¬ SFits w i) := by
  rw [signedOverflow, decide_not]
  rfl

/-- A result that is exact as the unsigned integer `u` and as the signed integer `s`, and whether
    these overflow. -/
def exact (u s : Int) : APInt × Bool × Bool :=
  (⟨w, BitVec.ofInt w s, hw⟩, decide (¬ UFits w u), decide (¬ SFits w s))

/-! ## Addition, subtraction and multiplication -/

include hA

theorem addOverflow_spec : addOverflow A ⟨w, x, hw⟩ ⟨w, y, hw⟩ =
    some (exact hw (x.toNat + y.toNat) (x.toInt + y.toInt)) := by
  have hvalue : BitVec.ofNat w (x.toNat + y.toNat) = BitVec.ofInt w (x.toInt + y.toInt) := by
    rw [BitVec.ofInt_add, BitVec.ofInt_toInt, BitVec.ofInt_toInt, BitVec.ofNat_add,
      BitVec.ofNat_toNat, BitVec.ofNat_toNat, BitVec.setWidth_eq, BitVec.setWidth_eq]
  have hunsigned : decide (2 ^ w ≤ x.toNat + y.toNat) =
      decide (¬ UFits w (x.toNat + y.toNat : Nat)) := by
    rw [decide_eq_decide]
    unfold UFits
    norm_cast
    omega
  simp only [addOverflow, sameBw_mk, hA.cinSum, Bool.toNat_false, Nat.add_zero, Int.ofNat_zero,
    Int.add_zero, hvalue, hunsigned, signedOverflow_eq, exact]
  rfl

omit hA in
include hw in
theorem toInt_not : (~~~y).toInt = -y.toInt - 1 := by
  have hlt := y.isLt
  have hpow : 2 ^ w = 2 * 2 ^ (w - 1) := by
    obtain ⟨n, rfl⟩ : ∃ n, w = n + 1 := ⟨w - 1, by omega⟩
    rw [Nat.add_sub_cancel, pow_succ, mul_comm]
  rw [BitVec.toInt_eq_toNat_cond, BitVec.toInt_eq_toNat_cond, BitVec.toNat_not]
  split <;> split <;> omega

theorem subOverflow_spec : subOverflow A ⟨w, x, hw⟩ ⟨w, y, hw⟩ =
    some (exact hw (x.toNat - y.toNat) (x.toInt - y.toInt)) := by
  have hvalue : BitVec.ofNat w (x.toNat + (~~~y).toNat + 1) =
      BitVec.ofInt w (x.toInt - y.toInt) := by
    rw [sub_eq_add_neg, BitVec.ofInt_add, BitVec.ofInt_neg, BitVec.ofInt_toInt, BitVec.ofInt_toInt,
      BitVec.ofNat_add, BitVec.ofNat_add, BitVec.ofNat_toNat, BitVec.ofNat_toNat,
      BitVec.setWidth_eq, BitVec.setWidth_eq, BitVec.neg_eq_not_add, BitVec.add_assoc]
  have hcarry : (!decide (2 ^ w ≤ x.toNat + (~~~y).toNat + 1)) =
      decide (¬ UFits w (x.toNat - y.toNat)) := by
    have hx := x.isLt
    have hy := y.isLt
    have hcast : ((2 ^ w : Nat) : Int) = 2 ^ w := by push_cast; rfl
    rw [← decide_not, decide_eq_decide, BitVec.toNat_not]
    unfold UFits
    rw [← hcast]
    omega
  have hsigned : x.toInt + (~~~y).toInt + (1 : Nat) = x.toInt - y.toInt := by
    rw [toInt_not hw y]
    push_cast
    ring
  simp only [subOverflow, sameBw_mk, hA.cinSum, hA.not, Bool.toNat_true, hvalue, hcarry, hsigned,
    signedOverflow_eq, exact]
  rfl

/-- The unsigned product of two integers fits in twice their width. -/
theorem zeroResize_mul :
    (A.arbUmulAdd 0#(w * 2) (A.zeroResize (w * 2) x).1 (A.zeroResize (w * 2) y).1).toNat =
      x.toNat * y.toNat := by
  have hx := x.isLt
  have hy := y.isLt
  have hpow : 2 ^ (w * 2) = 2 ^ w * 2 ^ w := by rw [pow_mul, sq]
  have hle : 2 ^ w ≤ 2 ^ (w * 2) := Nat.pow_le_pow_right (by omega) (by omega)
  have hlt : x.toNat * y.toNat < 2 ^ (w * 2) := by
    rw [hpow]
    exact Nat.mul_lt_mul'' hx hy
  rw [hA.arbUmulAdd, hA.zeroResize, hA.zeroResize, BitVec.zero_add, BitVec.toNat_mul,
    BitVec.toNat_setWidth, BitVec.toNat_setWidth, Nat.mod_eq_of_lt (hx.trans_le hle),
    Nat.mod_eq_of_lt (hy.trans_le hle), Nat.mod_eq_of_lt hlt]

/-- The signed product of two integers fits in twice their width. -/
theorem signResize_mul (hw : 0 < w) :
    (A.arbImulAdd 0#(w * 2) (A.signResize (w * 2) x).1 (A.signResize (w * 2) y).1).toInt =
      x.toInt * y.toInt := by
  have hvalue : A.arbImulAdd 0#(w * 2) (A.signResize (w * 2) x).1 (A.signResize (w * 2) y).1 =
      BitVec.ofInt (w * 2) (x.toInt * y.toInt) := by
    rw [hA.arbImulAdd, hA.signResize, hA.signResize, BitVec.zero_add, BitVec.ofInt_mul]
    rfl
  obtain ⟨hx, hx'⟩ := LLVMInt.sFits_toInt hw x
  obtain ⟨hy, hy'⟩ := LLVMInt.sFits_toInt hw y
  have hpow : (2 : Int) ^ (w * 2 - 1) = 2 * (2 ^ (w - 1) * 2 ^ (w - 1)) := by
    rw [← pow_add, ← pow_succ']
    congr 1
    omega
  have hpos : (0 : Int) < 2 ^ (w - 1) := by positivity
  have habs : |x.toInt * y.toInt| ≤ 2 ^ (w - 1) * 2 ^ (w - 1) := by
    rw [abs_mul]
    exact mul_le_mul (abs_le.mpr ⟨hx, hx'.le⟩) (abs_le.mpr ⟨hy, hy'.le⟩) (abs_nonneg _) hpos.le
  have hsq : (0 : Int) < 2 ^ (w - 1) * 2 ^ (w - 1) := mul_pos hpos hpos
  obtain ⟨hle, hge⟩ := abs_le.mp habs
  rw [hvalue, LLVMInt.toInt_ofInt_eq_iff (by omega)]
  constructor
  · rw [hpow]
    omega
  · rw [hpow]
    omega

theorem mulOverflow_spec : mulOverflow A ⟨w, x, hw⟩ ⟨w, y, hw⟩ =
    some (exact hw (x.toNat * y.toNat) (x.toInt * y.toInt)) := by
  have hvalue : A.mulAdd 0#w x y = BitVec.ofInt w (x.toInt * y.toInt) := by
    rw [hA.mulAdd, BitVec.zero_add, BitVec.ofInt_mul, BitVec.ofInt_toInt, BitVec.ofInt_toInt]
  have hunsigned : (A.zeroResize w
      (A.arbUmulAdd 0#(w * 2) (A.zeroResize (w * 2) x).1 (A.zeroResize (w * 2) y).1)).2 =
        decide (¬ UFits w (x.toNat * y.toNat)) := by
    have hprod := zeroResize_mul hA x y
    have hpos : 0 < 2 ^ w := Nat.two_pow_pos w
    rw [hA.zeroResize, decide_eq_decide, BitVec.toNat_setWidth, hprod, ne_eq,
      Nat.mod_eq_iff_lt (by omega)]
    unfold UFits
    norm_cast
    omega
  have hsigned : (A.signResize w
      (A.arbImulAdd 0#(w * 2) (A.signResize (w * 2) x).1 (A.signResize (w * 2) y).1)).2 =
        decide (¬ SFits w (x.toInt * y.toInt)) := by
    have hprod := signResize_mul hA x y hw
    rw [hA.signResize, decide_eq_decide, ← LLVMInt.toInt_ofInt_eq_iff hw, hprod]
    show ¬ (BitVec.ofInt w _).toInt = _ ↔ _
    rw [hprod]
  simp only [mulOverflow, mul, sameBw_mk, hunsigned, hsigned, hvalue, exact, Option.bind_eq_bind,
    Option.bind_some]
  rfl

/-! ## Shifts -/

omit hA in
theorem mk_eq_mk_iff {x y : BitVec w} : (⟨w, x, hw⟩ : APInt) = ⟨w, y, hw⟩ ↔ x = y := by
  simp

theorem toUsize_eq {y : BitVec w} (h : y.toNat < w) (hmax : w < 2 ^ 64) :
    A.toUsize y = y.toNat := by
  rw [hA.toUsize, Nat.mod_eq_of_lt (h.trans hmax)]

omit hA in
theorem shiftLeft_eq_ofInt (s : Nat) : x <<< s = BitVec.ofInt w (x.toInt * 2 ^ s) := by
  have htwo : BitVec.ofInt w (2 ^ s) = BitVec.twoPow w s := by
    rw [show (2 : Int) ^ s = ((2 ^ s : Nat) : Int) by push_cast; rfl, BitVec.ofInt_natCast]
    exact BitVec.eq_of_toNat_eq (by rw [BitVec.toNat_ofNat, BitVec.toNat_twoPow])
  rw [BitVec.ofInt_mul, BitVec.ofInt_toInt, htwo, BitVec.shiftLeft_eq_mul_twoPow]

omit hA in
/-- Shifting back as an unsigned integer recovers what did not overflow. -/
theorem ushiftRight_shiftLeft_eq_iff (s : Nat) :
    (x <<< s) >>> s = x ↔ UFits w (x.toNat * 2 ^ s : Nat) := by
  have hpos : 0 < 2 ^ s := Nat.two_pow_pos s
  have hpow : 0 < 2 ^ w := Nat.two_pow_pos w
  have hfits : UFits w (x.toNat * 2 ^ s : Nat) ↔ x.toNat * 2 ^ s < 2 ^ w := by
    unfold UFits
    norm_cast
    omega
  rw [hfits, ← BitVec.toNat_inj, BitVec.toNat_ushiftRight, BitVec.toNat_shiftLeft,
    Nat.shiftRight_eq_div_pow, Nat.shiftLeft_eq]
  constructor
  · intro h
    have hmul := Nat.div_mul_le_self (x.toNat * 2 ^ s % 2 ^ w) (2 ^ s)
    rw [h] at hmul
    exact hmul.trans_lt (Nat.mod_lt _ hpow)
  · intro h
    rw [Nat.mod_eq_of_lt h, Nat.mul_div_cancel _ hpos]

omit hA in
include hw in
/-- Shifting back as a signed integer recovers what did not overflow. -/
theorem sshiftRight_shiftLeft_eq_iff {s : Nat} (hs : s < w) :
    (x <<< s).sshiftRight s = x ↔ SFits w (x.toInt * 2 ^ s) := by
  have hpos : (0 : Int) < 2 ^ s := by positivity
  have hpow : (2 : Int) ^ w = 2 ^ s * 2 ^ (w - s) := by
    rw [← pow_add]
    congr 1
    omega
  rw [← BitVec.toInt_inj, BitVec.toInt_sshiftRight, Int.shiftRight_eq_div_pow,
    shiftLeft_eq_ofInt, ← LLVMInt.toInt_ofInt_eq_iff hw]
  push_cast
  constructor
  · intro h
    -- The shifted value differs from the exact one by a multiple of `2 ^ w`.
    obtain ⟨k, hk⟩ := Int.dvd_bmod_sub_self (x := x.toInt * 2 ^ s) (m := 2 ^ w)
    rw [← BitVec.toInt_ofInt] at hk
    push_cast at hk
    have hexact : (BitVec.ofInt w (x.toInt * 2 ^ s)).toInt =
        (x.toInt + 2 ^ (w - s) * k) * 2 ^ s := by
      rw [hpow] at hk
      linarith
    rw [hexact, Int.mul_ediv_cancel _ hpos.ne'] at h
    rw [hexact, h]
  · intro h
    rw [h, Int.mul_ediv_cancel _ hpos.ne']

theorem shlOverflow_spec (hy : y.toNat < w) (hmax : w < 2 ^ 64) :
    shlOverflow A ⟨w, x, hw⟩ ⟨w, y, hw⟩ =
      some (exact hw ((x.toNat * 2 ^ y.toNat : Nat)) (x.toInt * 2 ^ y.toNat)) := by
  have hshamt : A.toUsize y = y.toNat := toUsize_eq hA hy hmax
  have hunsigned : decide ((⟨w, (x <<< y.toNat) >>> y.toNat, hw⟩ : APInt) ≠ ⟨w, x, hw⟩) =
      decide (¬ UFits w (x.toNat * 2 ^ y.toNat : Nat)) := by
    rw [decide_eq_decide, ← ushiftRight_shiftLeft_eq_iff, ne_eq, mk_eq_mk_iff]
  have hsigned : decide ((⟨w, (x <<< y.toNat).sshiftRight y.toNat, hw⟩ : APInt) ≠ ⟨w, x, hw⟩) =
      decide (¬ SFits w (x.toInt * 2 ^ y.toNat)) := by
    rw [decide_eq_decide, ← sshiftRight_shiftLeft_eq_iff hw x hy, ne_eq, mk_eq_mk_iff]
  simp only [shlOverflow, shl, sameBw_mk, toUsize, hshamt, hy, hA.shl, hA.lshr, hA.ashr, if_true,
    withValue, Option.getD_some, Option.bind_eq_bind, Option.bind_some, exact, ← shiftLeft_eq_ofInt]
  exact congrArg some (Prod.ext rfl (Prod.ext hunsigned hsigned))

theorem lshr_spec (hy : y.toNat < w) (hmax : w < 2 ^ 64) : lshr A ⟨w, x, hw⟩ ⟨w, y, hw⟩ =
    some ⟨w, BitVec.ofNat w (x.toNat / 2 ^ y.toNat), hw⟩ := by
  have hshamt : A.toUsize y = y.toNat := toUsize_eq hA hy hmax
  have hvalue : x >>> y.toNat = BitVec.ofNat w (x.toNat / 2 ^ y.toNat) := by
    apply BitVec.eq_of_toNat_eq
    rw [BitVec.toNat_ushiftRight, BitVec.toNat_ofNat, Nat.shiftRight_eq_div_pow,
      Nat.mod_eq_of_lt ((Nat.div_le_self _ _).trans_lt x.isLt)]
  simp only [lshr, sameBw_mk, toUsize, hshamt, hA.lshr, hy, if_true, withValue, Option.getD_some,
    hvalue]

theorem ashr_spec (hy : y.toNat < w) (hmax : w < 2 ^ 64) : ashr A ⟨w, x, hw⟩ ⟨w, y, hw⟩ =
    some ⟨w, BitVec.ofInt w (x.toInt / 2 ^ y.toNat), hw⟩ := by
  have hshamt : min (A.toUsize y) (w - 1) = y.toNat := by
    rw [toUsize_eq hA hy hmax]
    omega
  have hvalue : x.sshiftRight y.toNat = BitVec.ofInt w (x.toInt / 2 ^ y.toNat) := by
    rw [← BitVec.ofInt_toInt (x := x.sshiftRight y.toNat), BitVec.toInt_sshiftRight,
      Int.shiftRight_eq_div_pow]
    push_cast
    rfl
  simp only [ashr, sameBw_mk, toUsize, hshamt, hA.ashr, hy, if_true, withValue,
    Option.bind_eq_bind, Option.bind_some, hvalue]

/-! ## Division -/

theorem isZero_eq : isZero A ⟨w, y, hw⟩ = decide (y = 0) := hA.isZero y

theorem udiv_spec (hy : y ≠ 0) : udiv A ⟨w, x, hw⟩ ⟨w, y, hw⟩ =
    some ⟨w, BitVec.ofNat w (x.toNat / y.toNat), hw⟩ := by
  simp only [udiv, sameBw_mk, isZero_eq hA, hA.udivide, hy, decide_false, Bool.false_eq_true,
    if_false, Option.map_some, withValue]

theorem urem_spec (hy : y ≠ 0) : urem A ⟨w, x, hw⟩ ⟨w, y, hw⟩ =
    some ⟨w, BitVec.ofNat w (x.toNat % y.toNat), hw⟩ := by
  simp only [urem, sameBw_mk, isZero_eq hA, hA.udivide, hy, decide_false, Bool.false_eq_true,
    if_false, Option.map_some, withValue]

theorem sdiv_spec (hy : y ≠ 0) : sdiv A ⟨w, x, hw⟩ ⟨w, y, hw⟩ =
    some ⟨w, BitVec.ofInt w (x.toInt.tdiv y.toInt), hw⟩ := by
  simp only [sdiv, sameBw_mk, isZero_eq hA, hA.idivide, hy, decide_false, Bool.false_eq_true,
    if_false, Option.map_some, withValue]

theorem srem_spec (hy : y ≠ 0) : srem A ⟨w, x, hw⟩ ⟨w, y, hw⟩ =
    some ⟨w, BitVec.ofInt w (x.toInt.tmod y.toInt), hw⟩ := by
  simp only [srem, sameBw_mk, isZero_eq hA, hA.idivide, hy, decide_false, Bool.false_eq_true,
    if_false, Option.map_some, withValue]

end APInt

end Pliron
