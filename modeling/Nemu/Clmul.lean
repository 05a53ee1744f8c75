import Nemu.Lib.Gf2
import Nemu.Rvb

namespace Nemu

set_option autoImplicit true

open Polynomial Gf2

section Rvintrin

def rv64Clmul (rs1 rs2 : Word) : Word := accumulate (fun i => rs1 <<< i) rs2 (List.range 64)

/-- The loop starts at 1: a shift by 64 is not one of C. -/
def rv64Clmulh (rs1 rs2 : Word) : Word := accumulate (fun i => rs1 >>> (64 - i)) rs2 (List.range' 1 63)

def rv64Clmulr (rs1 rs2 : Word) : Word := accumulate (fun i => rs1 >>> (63 - i)) rs2 (List.range 64)

end Rvintrin

/-- What the executors of carry-less products write, from `*dsrc1` and `*dsrc2`. -/
def rvbClmul (dsrc1 dsrc2 : Word) : RvbOp → Option Word
  | .clmul => some (rv64Clmul dsrc1 dsrc2)
  | .clmulh => some (rv64Clmulh dsrc1 dsrc2)
  | .clmulr => some (rv64Clmulr dsrc1 dsrc2)
  | _ => none

variable {k : Nat}

theorem clmul_bit (a b : Word) (hk : k < 64) :
    bit ((rv64Clmul a b).getLsbD k) = (poly a * poly b).coeff k := by
  have hwindow : bit ((rv64Clmul a b).getLsbD k) = (poly a * poly b).coeff (0 + k) := by
    apply accumulate_window
    · intro i _ hi
      rw [BitVec.getLsbD_shiftLeft, decide_eq_true hk, decide_eq_false (by omega), zero_add]
      rfl
    · intro i _ hi
      rw [BitVec.getLsbD_shiftLeft, decide_eq_true (by omega : k < i), Bool.not_true, Bool.and_false, Bool.false_and]
  rwa [zero_add] at hwindow

/-- The loop of `_rv64_clmulh` could as well start at 0. -/
theorem clmulh_start (a b : Word) : rv64Clmulh a b = accumulate (fun i => a >>> (64 - i)) b (List.range 64) := by
  have hlist : List.range 64 = 0 :: List.range' 1 63 := by decide
  have hfirst : (if b.getLsbD 0 = true then (0 : Word) ^^^ a >>> 64 else 0) = 0 := by
    rw [BitVec.ushiftRight_eq_zero (Nat.le_refl 64), BitVec.ofNat_eq_ofNat, BitVec.xor_self, ite_self]
  unfold rv64Clmulh accumulate
  rw [hlist, List.foldl_cons]
  exact congrArg (fun x => (List.range' 1 63).foldl (fun x i => if b.getLsbD i then x ^^^ a >>> (64 - i) else x) x)
    hfirst.symm

theorem clmulh_bit (a b : Word) (k : Nat) : bit ((rv64Clmulh a b).getLsbD k) = (poly a * poly b).coeff (64 + k) := by
  rw [clmulh_start]
  apply accumulate_window
  · intro i hi _
    have hplace : 64 - i + k = 64 + k - i := by omega
    rw [BitVec.getLsbD_ushiftRight, hplace]
  · intro i hi hlt
    omega

theorem clmulr_bit (a b : Word) (k : Nat) : bit ((rv64Clmulr a b).getLsbD k) = (poly a * poly b).coeff (63 + k) := by
  apply accumulate_window
  · intro i hi _
    have hplace : 63 - i + k = 63 + k - i := by omega
    rw [BitVec.getLsbD_ushiftRight, hplace]
  · intro i hi hlt
    omega

theorem clmul_halves (a b : Word) : poly a * poly b = poly (rv64Clmul a b) + X ^ 64 * poly (rv64Clmulh a b) := by
  ext k
  rw [coeff_add, coeff_X_pow_mul', coeff_poly]
  by_cases hk : k < 64
  · rw [clmul_bit a b hk, if_neg (Nat.not_le.mpr hk), add_zero]
  · have hhigh : 64 + (k - 64) = k := by omega
    rw [if_pos (Nat.le_of_not_lt hk), coeff_poly, clmulh_bit, hhigh, BitVec.getLsbD_of_ge _ k (Nat.le_of_not_lt hk)]
    exact (zero_add _).symm

/-- `clmul` and `clmulh` are the halves of the product of the operands as polynomials over the field with two elements,
and `clmulr` is the product of the reversed operands, reversed. -/
theorem clmul_product (a b : Word) :
    (∃ lo hi, rvbClmul a b .clmul = some lo ∧ rvbClmul a b .clmulh = some hi ∧
      poly a * poly b = poly lo + X ^ 64 * poly hi) ∧
    ∃ r s, rvbClmul a b .clmulr = some r ∧ rvbClmul a.reverse b.reverse .clmul = some s ∧ r = s.reverse := by
  refine ⟨⟨_, _, rfl, rfl, clmul_halves a b⟩, _, _, rfl, rfl, ?_⟩
  apply eq_of_bit
  intro k hk
  have hplace : 64 - 1 + (64 - 1) - (64 - 1 - k) = 63 + k := by omega
  rw [clmulr_bit, BitVec.getLsbD_reverse, BitVec.getMsbD_eq_getLsbD, decide_eq_true hk, Bool.true_and,
    clmul_bit _ _ (by omega), coeff_mul_reverse a b (by omega), hplace]

end Nemu
