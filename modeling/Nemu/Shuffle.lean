import Nemu.Lib.Butterfly
import Nemu.Rvb

namespace Nemu

set_option autoImplicit true

open Butterfly (Submask)

section Rvintrin

/-- The masks of `_rv64_grev` and `_rv64_gorc`, one line each: the bits that go up by 1, 2, 4 and so on, and those that
go down. -/
def grevMasks : List (Word × Word) :=
  [(0x5555555555555555, 0xAAAAAAAAAAAAAAAA), (0x3333333333333333, 0xCCCCCCCCCCCCCCCC),
    (0x0F0F0F0F0F0F0F0F, 0xF0F0F0F0F0F0F0F0), (0x00FF00FF00FF00FF, 0xFF00FF00FF00FF00),
    (0x0000FFFF0000FFFF, 0xFFFF0000FFFF0000), (0x00000000FFFFFFFF, 0xFFFFFFFF00000000)]

def rv64Grev (rs1 rs2 : Word) : Word := Butterfly.route (rs2 &&& 63).toNat grevMasks rs1

def rv64Gorc (rs1 rs2 : Word) : Word := Butterfly.spread (rs2 &&& 63).toNat grevMasks rs1

def rvRev8 (rs1 : Word) : Word := rv64Grev rs1 56

def rvRevb (rs1 : Word) : Word := rv64Grev rs1 7

def rvOrcB (rs1 : Word) : Word := rv64Gorc rs1 7

end Rvintrin

/-- What the executors that shuffle the bits of `*dsrc1` write. -/
def rvbShuffle (dsrc1 : Word) : RvbOp → Option Word
  | .rev8 => some (rvRev8 dsrc1)
  | .revb => some (rvRevb dsrc1)
  | .orc_b => some (rvOrcB dsrc1)
  | _ => none

variable {i p : Nat} {x s : Word}

theorem grevMasks_network : Butterfly.Network grevMasks where
  masks j m h := by
    have hall : ∀ j : Fin 6, ∀ i < 64,
        grevMasks[j].1.getLsbD i = (!i.testBit j) ∧ grevMasks[j].2.getLsbD i = i.testBit j := by
      decide +kernel
    obtain ⟨hj, rfl⟩ := List.getElem?_eq_some_iff.mp h
    exact ⟨fun i hi => (hall ⟨j, hj⟩ i hi).1, fun i hi => (hall ⟨j, hj⟩ i hi).2⟩
  closed i hi j hj := by
    have hpow : 2 ^ j < 2 ^ 6 := Nat.pow_lt_pow_right (by decide) hj
    exact Nat.xor_lt_two_pow hi hpow

theorem grev_amount (s : Word) : (s &&& 63).toNat % 2 ^ grevMasks.length = s.toNat % 64 := by
  have hmask : (s &&& 63).toNat = s.toNat % 64 := by
    rw [BitVec.toNat_and]
    exact Nat.and_two_pow_sub_one_eq_mod s.toNat 6
  rw [hmask]
  exact Nat.mod_mod _ _

theorem rv64Grev_getLsbD (hi : i < 64) : (rv64Grev x s).getLsbD i = x.getLsbD (i ^^^ s.toNat % 64) := by
  unfold rv64Grev
  rw [Butterfly.route_getLsbD grevMasks_network hi, grev_amount]

theorem rv64Gorc_getLsbD (hi : i < 64) : (rv64Gorc x s).getLsbD i = true ↔
    ∃ t, Submask t (s.toNat % 64) ∧ x.getLsbD (i ^^^ t) = true := by
  unfold rv64Gorc
  rw [Butterfly.spread_getLsbD grevMasks_network hi, grev_amount]

/-- `_rv64_grev` moves the bit at each place to the place whose number differs by the amount, so amounts add up by
exclusive or, and the same amount again undoes it. -/
theorem grev_composes (x s t : Word) :
    (∀ i < 64, (rv64Grev x s).getLsbD (i ^^^ s.toNat % 64) = x.getLsbD i) ∧
      rv64Grev (rv64Grev x s) t = rv64Grev x (s ^^^ t) ∧ rv64Grev (rv64Grev x s) s = x := by
  have hlt : ∀ i < 64, ∀ s : Word, i ^^^ s.toNat % 64 < 64 := by
    intro i hi s
    have hs : s.toNat % 64 < 2 ^ 6 := Nat.mod_lt _ (by decide)
    exact Nat.xor_lt_two_pow hi hs
  refine ⟨fun i hi => ?_, ?_, ?_⟩
  · rw [rv64Grev_getLsbD (hlt i hi s), Nat.xor_assoc, Nat.xor_self, Nat.xor_zero]
  · apply BitVec.eq_of_getLsbD_eq
    intro i hi
    have hsum : (s ^^^ t).toNat % 64 = t.toNat % 64 ^^^ s.toNat % 64 := by
      rw [BitVec.toNat_xor, Nat.xor_comm]
      exact Nat.xor_mod_two_pow (n := 6)
    rw [rv64Grev_getLsbD hi, rv64Grev_getLsbD (hlt i hi t), rv64Grev_getLsbD hi, hsum, Nat.xor_assoc]
  · apply BitVec.eq_of_getLsbD_eq
    intro i hi
    rw [rv64Grev_getLsbD hi, rv64Grev_getLsbD (hlt i hi s), Nat.xor_assoc, Nat.xor_self, Nat.xor_zero]

section Byte

theorem eq_byte {a b : BitVec 8} (h : ∀ p < 8, a.getLsbD p = b.getLsbD p) : a = b := BitVec.eq_of_getLsbD_eq h

theorem byte_getLsbD (hp : p < 8) : (x.extractLsb' (8 * i) 8).getLsbD p = x.getLsbD (8 * i + p) := by
  rw [BitVec.getLsbD_extractLsb', decide_eq_true hp, Bool.true_and]

theorem submask_seven {t : Nat} : Submask t 7 ↔ t < 8 := by
  constructor
  · intro h
    have hself : t &&& 7 = t := by
      apply Nat.eq_of_testBit_eq
      intro k
      rw [Nat.testBit_and]
      by_cases hk : t.testBit k = true
      · rw [hk, h k hk]
        rfl
      · rw [Bool.eq_false_iff.mpr hk, Bool.false_and]
    have hle : t &&& 7 ≤ 7 := Nat.and_le_right
    omega
  · intro h k hk
    have hpow := Nat.ge_two_pow_of_testBit hk
    have hlt : k < 3 := (Nat.pow_lt_pow_iff_right (by decide : 1 < 2)).mp (show 2 ^ k < 2 ^ 3 by omega)
    have hall : ∀ k < 3, Nat.testBit 7 k = true := by decide
    exact hall k hlt

theorem orcB_getLsbD (hi : i < 8) (hp : p < 8) :
    (rvOrcB x).getLsbD (8 * i + p) = true ↔ ∃ q < 8, x.getLsbD (8 * i + q) = true := by
  have hplace : ∀ i < 8, ∀ p < 8, ∀ q < 8, (8 * i + p) ^^^ q = 8 * i + (p ^^^ q) ∧ p ^^^ q < 8 ∧
      (8 * i + p) ^^^ (p ^^^ q) = 8 * i + q := by
    decide +kernel
  unfold rvOrcB
  rw [rv64Gorc_getLsbD (by omega)]
  constructor
  · rintro ⟨t, ht, h⟩
    obtain ⟨hbyte, hin, _⟩ := hplace i hi p hp t (submask_seven.mp ht)
    rw [hbyte] at h
    exact ⟨p ^^^ t, hin, h⟩
  · rintro ⟨q, hq, h⟩
    obtain ⟨_, hin, hback⟩ := hplace i hi p hp q hq
    exact ⟨p ^^^ q, submask_seven.mpr hin, by rwa [hback]⟩

/-- The three amounts that have instructions, byte by byte: `rev8` reverses the bytes, `revb` the bits in each byte, and
`orc_b` fills the bytes that are not zero. -/
theorem bytes_shuffled (x : Word) : ∃ r b o,
    rvbShuffle x .rev8 = some r ∧ rvbShuffle x .revb = some b ∧ rvbShuffle x .orc_b = some o ∧ ∀ i < 8,
      r.extractLsb' (8 * i) 8 = x.extractLsb' (8 * (7 - i)) 8 ∧
      b.extractLsb' (8 * i) 8 = (x.extractLsb' (8 * i) 8).reverse ∧
      o.extractLsb' (8 * i) 8 = if x.extractLsb' (8 * i) 8 = 0 then 0 else 0xff := by
  refine ⟨_, _, _, rfl, rfl, rfl, fun i hi => ⟨eq_byte fun p hp => ?_, eq_byte fun p hp => ?_, eq_byte fun p hp => ?_⟩⟩
  · have hplace : ∀ i < 8, ∀ p < 8, (8 * i + p) ^^^ (56 : Word).toNat % 64 = 8 * (7 - i) + p := by decide +kernel
    unfold rvRev8
    rw [byte_getLsbD hp, byte_getLsbD hp, rv64Grev_getLsbD (by omega), hplace i hi p hp]
  · have hplace : ∀ i < 8, ∀ p < 8, (8 * i + p) ^^^ (7 : Word).toNat % 64 = 8 * i + (8 - 1 - p) := by decide +kernel
    unfold rvRevb
    rw [byte_getLsbD hp, BitVec.getLsbD_reverse, BitVec.getMsbD_eq_getLsbD, decide_eq_true hp, Bool.true_and,
      byte_getLsbD (by omega), rv64Grev_getLsbD (by omega), hplace i hi p hp]
  · rw [byte_getLsbD hp, Bool.eq_iff_iff, orcB_getLsbD hi hp]
    by_cases hzero : x.extractLsb' (8 * i) 8 = 0
    · rw [if_pos hzero]
      constructor
      · rintro ⟨q, hq, h⟩
        rw [← byte_getLsbD hq, hzero] at h
        cases (BitVec.getLsbD_zero.symm.trans h)
      · intro h
        cases (BitVec.getLsbD_zero.symm.trans h)
    · rw [if_neg hzero]
      have hones : ∀ p < 8, (0xff : BitVec 8).getLsbD p = true := by decide
      refine ⟨fun _ => hones p hp, fun _ => ?_⟩
      by_contra hnone
      apply hzero
      apply eq_byte
      intro q hq
      have hq' := not_exists.mp hnone q
      rw [byte_getLsbD hq, Bool.eq_false_iff.mpr fun h => hq' ⟨hq, h⟩]
      exact BitVec.getLsbD_zero.symm

end Byte

end Nemu
