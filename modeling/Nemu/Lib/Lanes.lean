import Nemu.Lib.Bytes
import Nemu.Lib.XorHom

namespace Lanes

set_option autoImplicit true

variable {v w n k : Nat}

def lane (x : BitVec v) (k : Nat) : BitVec 8 := x.extractLsb' (8 * k) 8

theorem lane_pack (f : Nat → BitVec 8) (hn : 8 * n ≤ v) (hk : k < n) : lane (Bytes.pack v f n) k = f k :=
  Bytes.extract_pack f n k hn hk

theorem getLsbD_lane (x : BitVec v) {p : Nat} (hp : p < 8) : (lane x k).getLsbD p = x.getLsbD (8 * k + p) := by
  unfold lane
  rw [BitVec.getLsbD_extractLsb', decide_eq_true hp, Bool.true_and]

theorem pack_lane (x : BitVec (8 * n)) : Bytes.pack (8 * n) (lane x) n = x := by
  apply BitVec.eq_of_getLsbD_eq
  intro i hi
  have hp : i % 8 < 8 := Nat.mod_lt i (by decide)
  have hk : i / 8 < n := Nat.div_lt_of_lt_mul hi
  have hbit := Bytes.getLsbD_pack (v := 8 * n) (lane x) n (i / 8) (i % 8) (Nat.le_refl _) hp
  rw [Nat.div_add_mod] at hbit
  rw [hbit, getLsbD_lane x hp, Nat.div_add_mod, decide_eq_true hk, Bool.true_and]

theorem pack_congr {f g : Nat → BitVec 8} (h : ∀ i < n, f i = g i) : Bytes.pack v f n = Bytes.pack v g n := by
  induction n with
  | zero => rfl
  | succ n ih =>
    rw [Bytes.pack_succ, Bytes.pack_succ, ih fun i hi => h i (Nat.lt_succ_of_lt hi), h n (Nat.lt_succ_self n)]

theorem getLsbD_byteMask (i : Nat) : (0xff : BitVec v).getLsbD i = (decide (i < v) && decide (i < 8)) := by
  have h : (0xff : BitVec v) = BitVec.ofNat v (2 ^ 8 - 1) := rfl
  rw [h, BitVec.getLsbD_ofNat, Nat.testBit_two_pow_sub_one]

theorem ushiftRight_mask (x : BitVec v) (k : Nat) : x >>> (8 * k) &&& 0xff = (lane x k).setWidth v := by
  apply BitVec.eq_of_getLsbD_eq
  intro i hi
  rw [BitVec.getLsbD_and, BitVec.getLsbD_ushiftRight, BitVec.getLsbD_setWidth, getLsbD_byteMask, decide_eq_true hi]
  rcases Nat.lt_or_ge i 8 with hp | hp
  · rw [getLsbD_lane x hp, decide_eq_true hp, Bool.true_and, Bool.true_and, Bool.and_true]
  · rw [BitVec.getLsbD_of_ge _ _ hp, decide_eq_false (Nat.not_lt.mpr hp), Bool.and_false, Bool.and_false]

theorem sshiftRight_mask (x : BitVec v) (h : 8 * k + 8 ≤ v) :
    x.sshiftRight (8 * k) &&& 0xff = (lane x k).setWidth v := by
  rw [← ushiftRight_mask]
  apply BitVec.eq_of_getLsbD_eq
  intro i hi
  rw [BitVec.getLsbD_and, BitVec.getLsbD_and, BitVec.getLsbD_ushiftRight, BitVec.getLsbD_sshiftRight, getLsbD_byteMask]
  rcases Nat.lt_or_ge i 8 with hp | hp
  · have hin : 8 * k + i < v := by omega
    have hout : ¬ v ≤ i := Nat.not_le.mpr hi
    rw [if_pos hin, decide_eq_false hout, Bool.not_false, Bool.true_and]
  · rw [decide_eq_false (Nat.not_lt.mpr hp), Bool.and_false, Bool.and_false, Bool.and_false]

theorem toNat_lane_setWidth (b : BitVec 8) (hv : 8 ≤ v) : (b.setWidth v).toNat = b.toNat := by
  rw [BitVec.toNat_setWidth]
  exact Nat.mod_eq_of_lt (Nat.lt_of_lt_of_le b.isLt (Nat.pow_le_pow_right (by decide) hv))

theorem hom_pack {f : Nat → BitVec w → BitVec 8} (hf : ∀ i, XorHom.Hom (f i)) (hn : 8 * n = v) :
    XorHom.Hom fun x => Bytes.pack v (fun i => f i x) n := by
  intro x y
  apply BitVec.eq_of_getLsbD_eq
  intro i _
  have hp : i % 8 < 8 := Nat.mod_lt i (by decide)
  have hbit : ∀ g, (Bytes.pack v g n).getLsbD i = (decide (i / 8 < n) && (g (i / 8)).getLsbD (i % 8)) := by
    intro g
    have h := Bytes.getLsbD_pack (v := v) g n (i / 8) (i % 8) (Nat.le_of_eq hn) hp
    rw [Nat.div_add_mod] at h
    exact h
  rw [BitVec.getLsbD_xor, hbit, hbit, hbit, hf, BitVec.getLsbD_xor, Bool.and_xor_distrib_left]

theorem hom_lane {f : BitVec w → BitVec v} (hf : XorHom.Hom f) (k : Nat) : XorHom.Hom fun x => lane (f x) k := by
  intro x y
  unfold lane
  dsimp only
  rw [hf, BitVec.extractLsb'_xor]

end Lanes
