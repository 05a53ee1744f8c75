import Mathlib

namespace Gf2

set_option autoImplicit true

open Polynomial

/-- A bit in the field with two elements. -/
def bit (b : Bool) : ZMod 2 := if b then 1 else 0

/-- The polynomial whose coefficients are the bits of a word. -/
noncomputable def poly (x : BitVec n) : (ZMod 2)[X] := ∑ i ∈ Finset.range n, if x.getLsbD i then X ^ i else 0

/-- The exclusive or of the words at the places where a bit is set. -/
def accumulate (f : Nat → BitVec n) (b : BitVec m) (is : List Nat) : BitVec n :=
  is.foldl (fun x i => if b.getLsbD i then x ^^^ f i else x) 0

variable {n k s : Nat} {x y a b : BitVec n} {f : Nat → BitVec n}

theorem bit_injective : Function.Injective bit := by decide

theorem bit_xor (a b : Bool) : bit (a ^^ b) = bit a + bit b := by cases a <;> cases b <;> rfl

theorem coeff_poly (x : BitVec n) (k : Nat) : (poly x).coeff k = bit (x.getLsbD k) := by
  unfold poly
  rw [finsetSum_coeff]
  by_cases hk : k < n
  · rw [Finset.sum_eq_single_of_mem k (Finset.mem_range.mpr hk)]
    · unfold bit
      split
      · rw [coeff_X_pow, if_pos rfl]
      · exact coeff_zero k
    · intro i _ hne
      split
      · rw [coeff_X_pow, if_neg (Ne.symm hne)]
      · exact coeff_zero k
  · rw [BitVec.getLsbD_of_ge x k (Nat.le_of_not_lt hk)]
    refine Finset.sum_eq_zero fun i hi => ?_
    have hne : k ≠ i := by
      have := Finset.mem_range.mp hi
      omega
    split
    · rw [coeff_X_pow, if_neg hne]
    · exact coeff_zero k

theorem natDegree_poly (x : BitVec n) : (poly x).natDegree ≤ n - 1 := by
  rw [natDegree_le_iff_coeff_eq_zero]
  intro k hk
  rw [coeff_poly, BitVec.getLsbD_of_ge x k (by omega)]
  rfl

theorem eq_of_bit (h : ∀ k < n, bit (x.getLsbD k) = bit (y.getLsbD k)) : x = y :=
  BitVec.eq_of_getLsbD_eq fun k hk => bit_injective (h k hk)

theorem poly_reverse (x : BitVec n) : poly x.reverse = reflect (n - 1) (poly x) := by
  ext k
  rw [coeff_reflect, coeff_poly, BitVec.getLsbD_reverse, BitVec.getMsbD_eq_getLsbD, coeff_poly]
  by_cases hk : k < n
  · rw [revAt_le (by omega), decide_eq_true hk, Bool.true_and]
  · have hge : n ≤ revAt (n - 1) k := by
      by_cases hn : k ≤ n - 1
      · omega
      · rw [revAt_eq_self_of_lt (by omega)]
        exact Nat.le_of_not_lt hk
    rw [decide_eq_false hk, Bool.false_and, BitVec.getLsbD_of_ge x _ hge]

theorem coeff_mul_reverse (a b : BitVec n) (hk : k ≤ n - 1 + (n - 1)) :
    (poly a.reverse * poly b.reverse).coeff k = (poly a * poly b).coeff (n - 1 + (n - 1) - k) := by
  rw [poly_reverse, poly_reverse, ← reflect_mul _ _ (natDegree_poly a) (natDegree_poly b), coeff_reflect, revAt_le hk]

theorem coeff_mul (a b : BitVec n) (k : Nat) : (poly a * poly b).coeff k =
    ∑ i ∈ Finset.range n, if b.getLsbD i = true ∧ i ≤ k then bit (a.getLsbD (k - i)) else 0 := by
  rw [mul_comm]
  conv_lhs => rw [poly, Finset.sum_mul, finsetSum_coeff]
  refine Finset.sum_congr rfl fun i _ => ?_
  by_cases hb : b.getLsbD i = true
  · rw [if_pos hb, coeff_X_pow_mul', coeff_poly]
    exact if_congr (and_iff_right hb).symm rfl rfl
  · rw [if_neg hb, zero_mul, coeff_zero, if_neg fun h => hb h.1]

theorem bit_accumulate (f : Nat → BitVec n) (b : BitVec m) (l k : Nat) :
    bit ((accumulate f b (List.range l)).getLsbD k) =
      ∑ i ∈ Finset.range l, if b.getLsbD i = true then bit ((f i).getLsbD k) else 0 := by
  induction l with
  | zero =>
    change bit ((0 : BitVec n).getLsbD k) = 0
    rw [BitVec.ofNat_eq_ofNat, BitVec.getLsbD_zero]
    rfl
  | succ l ih =>
    have hstep : accumulate f b (List.range (l + 1)) =
        if b.getLsbD l = true then accumulate f b (List.range l) ^^^ f l else accumulate f b (List.range l) := by
      unfold accumulate
      rw [List.range_succ, List.foldl_append]
      rfl
    rw [Finset.sum_range_succ, ← ih, hstep]
    split
    · rw [BitVec.getLsbD_xor, bit_xor]
    · rw [add_zero]

/-- Shifted copies of a word accumulate to a window of the product: bit `k` to the coefficient `s + k`. -/
theorem accumulate_window (hin : ∀ i < n, i ≤ s + k → (f i).getLsbD k = a.getLsbD (s + k - i))
    (hout : ∀ i < n, s + k < i → (f i).getLsbD k = false) :
    bit ((accumulate f b (List.range n)).getLsbD k) = (poly a * poly b).coeff (s + k) := by
  rw [bit_accumulate, coeff_mul]
  refine Finset.sum_congr rfl fun i hi => ?_
  have hi' := Finset.mem_range.mp hi
  by_cases hb : b.getLsbD i = true
  · by_cases hle : i ≤ s + k
    · rw [if_pos hb, if_pos ⟨hb, hle⟩, hin i hi' hle]
    · rw [if_pos hb, if_neg fun h => hle h.2, hout i hi' (Nat.lt_of_not_le hle)]
      rfl
  · rw [if_neg hb, if_neg fun h => hb h.1]

end Gf2
