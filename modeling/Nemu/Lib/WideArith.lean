import Mathlib.Data.BitVec
import Mathlib.Data.Int.Basic
import Mathlib.Tactic.Ring

namespace WideArith

variable {w v : Nat}

theorem extractLsb'_ofInt (z : Int) :
    (BitVec.ofInt (w + w) z).extractLsb' w w = BitVec.ofInt w (z / 2 ^ w) := by
  have hpos : (0 : Int) < 2 ^ w := Int.pow_pos (by decide)
  have hsplit : z % (2 ^ w * 2 ^ w) / 2 ^ w = z / 2 ^ w % 2 ^ w := by
    have hassoc : (2 : Int) ^ w * 2 ^ w * (z / (2 ^ w * 2 ^ w)) =
        2 ^ w * (z / (2 ^ w * 2 ^ w)) * 2 ^ w := by ring
    rw [Int.emod_def, hassoc, Int.sub_mul_ediv_right _ _ hpos.ne', Int.emod_def,
      Int.ediv_ediv_of_nonneg hpos.le]
  have hnonneg : 0 ≤ z % (2 ^ w * 2 ^ w) := Int.emod_nonneg _ (Int.mul_pos hpos hpos).ne'
  apply BitVec.eq_of_toNat_eq
  apply Int.ofNat_inj.mp
  rw [BitVec.extractLsb'_toNat, BitVec.toNat_ofInt, BitVec.toNat_ofInt, Nat.shiftRight_eq_div_pow]
  push_cast
  rw [pow_add, Int.toNat_of_nonneg hnonneg, hsplit, Int.emod_emod,
    Int.toNat_of_nonneg (Int.emod_nonneg _ hpos.ne')]

theorem mul_signed (a b : BitVec w) :
    (a.signExtend (w + w) * b.signExtend (w + w)).extractLsb' w w =
      BitVec.ofInt w (a.toInt * b.toInt / 2 ^ w) := by
  rw [← extractLsb'_ofInt, BitVec.ofInt_mul]
  rfl

theorem setWidth_eq_ofInt (x : BitVec w) : x.setWidth v = BitVec.ofInt v x.toNat := by
  rw [BitVec.ofInt_natCast, BitVec.ofNat_toNat]

theorem mul_unsigned (a b : BitVec w) :
    (a.setWidth (w + w) * b.setWidth (w + w)).extractLsb' w w =
      BitVec.ofInt w (a.toNat * b.toNat / 2 ^ w) := by
  rw [← extractLsb'_ofInt, BitVec.ofInt_mul, setWidth_eq_ofInt, setWidth_eq_ofInt]

theorem sshiftRight_sign (a : BitVec w) :
    a.sshiftRight (w - 1) = if a.msb then BitVec.allOnes w else 0 := by
  apply BitVec.eq_of_getLsbD_eq
  intro i hi
  have hsign : w - 1 + i < w → a.getLsbD (w - 1 + i) = a.msb := by
    intro hlt
    have h0 : i = 0 := by omega
    rw [h0, Nat.add_zero, BitVec.msb_eq_getLsbD_last]
  rw [BitVec.getLsbD_sshiftRight]
  cases hm : a.msb <;> simp_all

/-- The product of a signed and an unsigned word is the unsigned product less `b`, if `a` is
negative. -/
theorem mul_mixed (a b : BitVec w) :
    (a.setWidth (w + w) * b.setWidth (w + w)).extractLsb' w w - (b &&& a.sshiftRight (w - 1)) =
      BitVec.ofInt w (a.toInt * b.toNat / 2 ^ w) := by
  have hpos : (0 : Int) < 2 ^ w := Int.pow_pos (by decide)
  rw [mul_unsigned, sshiftRight_sign, BitVec.toInt_eq_msb_cond]
  cases hm : a.msb with
  | false => simp
  | true =>
    have hprod : ((a.toNat : Int) - 2 ^ w) * b.toNat = a.toNat * b.toNat - b.toNat * 2 ^ w := by
      ring
    have hcast : ((2 ^ w : Nat) : Int) = 2 ^ w := by push_cast; rfl
    rw [if_pos rfl, if_pos rfl, BitVec.and_allOnes, hcast, hprod,
      Int.sub_mul_ediv_right _ _ hpos.ne', Int.sub_eq_add_neg, BitVec.ofInt_add, BitVec.ofInt_neg,
      ← setWidth_eq_ofInt b, BitVec.setWidth_eq, BitVec.sub_eq_add_neg]

theorem sdiv_eq_ofInt (a b : BitVec w) : a.sdiv b = BitVec.ofInt w (a.toInt.tdiv b.toInt) := by
  apply BitVec.eq_of_toInt_eq
  rw [BitVec.toInt_sdiv, BitVec.toInt_ofInt]

theorem srem_eq_ofInt (a b : BitVec w) : a.srem b = BitVec.ofInt w (a.toInt.tmod b.toInt) := by
  rw [← BitVec.toInt_srem, BitVec.ofInt_toInt]

theorem setWidth_ofInt (h : v ≤ w) (z : Int) : (BitVec.ofInt w z).setWidth v = BitVec.ofInt v z := by
  rw [← BitVec.signExtend_eq_setWidth_of_le _ h]
  apply BitVec.eq_of_toInt_eq
  rw [BitVec.toInt_signExtend, BitVec.toInt_ofInt, BitVec.toInt_ofInt, Nat.min_eq_left h,
    Int.bmod_bmod_of_dvd (Nat.pow_dvd_pow 2 h)]

theorem setWidth_signExtend (h : w ≤ v) (x : BitVec w) : (x.signExtend v).setWidth w = x := by
  unfold BitVec.signExtend
  rw [setWidth_ofInt h, BitVec.ofInt_toInt]

theorem signExtend_signExtend {u : Nat} (h : w ≤ v) (x : BitVec w) :
    (x.signExtend v).signExtend u = x.signExtend u :=
  congrArg (BitVec.ofInt u) (BitVec.toInt_signExtend_of_le h)

theorem shiftLeft_sshiftRight {k : Nat} (hk : k < w) (x : BitVec w) :
    (x <<< k).sshiftRight k = (x.setWidth (w - k)).signExtend w := by
  apply BitVec.eq_of_getLsbD_eq
  intro j hj
  rw [BitVec.getLsbD_sshiftRight, BitVec.getLsbD_signExtend, BitVec.msb_eq_getLsbD_last,
    BitVec.msb_eq_getLsbD_last]
  simp only [BitVec.getLsbD_shiftLeft, BitVec.getLsbD_setWidth]
  by_cases hlow : j < w - k
  · have h1 : k + j < w := by omega
    have h2 : k + j - k = j := by omega
    simp [hj, hlow, h1, h2, Nat.not_le.mpr hj]
  · have h1 : ¬ k + j < w := by omega
    have h2 : w - 1 - k = w - k - 1 := by omega
    have h3 : w - k - 1 < w - k := by omega
    have h4 : w - 1 < w := by omega
    have h5 : ¬ w - 1 < k := by omega
    simp [hj, hlow, h1, h2, h3, h4, h5, Nat.not_le.mpr hj]

end WideArith
