import Mathlib.Data.BitVec

namespace BitField

set_option autoImplicit true

/-- Overwrites the `n` bits of `x` that start at bit `start` with `v`. -/
def insert (start : Nat) (v : BitVec n) (x : BitVec w) : BitVec w :=
  (x &&& ~~~((BitVec.allOnes n).setWidth w <<< start)) ||| (v.setWidth w <<< start)

/-- Takes the bits of `mask` from `new` and the others from `old`. -/
def merge (mask old new : BitVec w) : BitVec w :=
  (old &&& ~~~mask) ||| (new &&& mask)

theorem getLsbD_insert (start : Nat) (v : BitVec n) (x : BitVec w) (i : Nat) :
    (insert start v x).getLsbD i =
      if start ≤ i ∧ i < start + n then (decide (i < w) && v.getLsbD (i - start))
      else x.getLsbD i := by
  unfold insert
  simp only [BitVec.getLsbD_or, BitVec.getLsbD_and, BitVec.getLsbD_not,
    BitVec.getLsbD_shiftLeft, BitVec.getLsbD_setWidth, BitVec.getLsbD_allOnes]
  by_cases hw : i < w
  · by_cases hs : start ≤ i
    · by_cases hn : i < start + n
      · have h1 : i - start < n := by omega
        have h2 : i - start < w := by omega
        simp [hw, hs, hn, h1, h2, Nat.not_lt.mpr hs]
      · have h1 : ¬ i - start < n := by omega
        simp [hw, hn, h1, BitVec.getLsbD_of_ge v (i - start) (by omega)]
    · simp [hw, hs, Nat.lt_of_not_le hs]
  · simp [hw, BitVec.getLsbD_of_ge x i (by omega)]

theorem extract_insert_same (start : Nat) (v : BitVec n) (x : BitVec w) (h : start + n ≤ w) :
    (insert start v x).extractLsb' start n = v := by
  ext i hi
  simp only [BitVec.getElem_extractLsb', getLsbD_insert]
  have h1 : start + i < w := by omega
  simp [hi, h1]

theorem extract_insert_disjoint (start : Nat) (v : BitVec n) (x : BitVec w) (s' n' : Nat)
    (h : s' + n' ≤ start ∨ start + n ≤ s') :
    (insert start v x).extractLsb' s' n' = x.extractLsb' s' n' := by
  ext i hi
  simp only [BitVec.getElem_extractLsb', getLsbD_insert]
  rw [if_neg (by omega)]

theorem getLsbD_insert_disjoint (start : Nat) (v : BitVec n) (x : BitVec w) (i : Nat)
    (h : i < start ∨ start + n ≤ i) :
    (insert start v x).getLsbD i = x.getLsbD i := by
  rw [getLsbD_insert, if_neg (by omega)]

theorem getLsbD_merge (mask old new : BitVec w) (i : Nat) :
    (merge mask old new).getLsbD i =
      if mask.getLsbD i then new.getLsbD i else old.getLsbD i := by
  unfold merge
  simp only [BitVec.getLsbD_or, BitVec.getLsbD_and, BitVec.getLsbD_not]
  cases hm : mask.getLsbD i
  · by_cases hw : i < w
    · simp [hw]
    · simp [hw, BitVec.getLsbD_of_ge old i (by omega)]
  · simp

theorem extract_merge_of_clear (mask old new : BitVec w) (s' n' : Nat)
    (h : mask.extractLsb' s' n' = 0) :
    (merge mask old new).extractLsb' s' n' = old.extractLsb' s' n' := by
  ext i hi
  have hb : mask.getLsbD (s' + i) = false := by
    have := congrArg (fun v => v.getLsbD i) h
    simpa [hi] using this
  simp [getLsbD_merge, hb]

theorem extract_merge_of_set (mask old new : BitVec w) (s' n' : Nat)
    (h : mask.extractLsb' s' n' = BitVec.allOnes n') :
    (merge mask old new).extractLsb' s' n' = new.extractLsb' s' n' := by
  ext i hi
  have hb : mask.getLsbD (s' + i) = true := by
    have := congrArg (fun v => v.getLsbD i) h
    simpa [hi] using this
  simp [getLsbD_merge, hb]

theorem getLsbD_and_not (mask x : BitVec w) (i : Nat) (h : mask.getLsbD i = false) :
    (x &&& ~~~mask).getLsbD i = x.getLsbD i := by
  rw [BitVec.getLsbD_and, BitVec.getLsbD_not, h]
  by_cases hi : i < w
  · simp [hi]
  · simp [BitVec.getLsbD_of_ge x i (by omega)]

theorem extract_and_not (mask x : BitVec w) (s' n' : Nat) (h : mask.extractLsb' s' n' = 0) :
    (x &&& ~~~mask).extractLsb' s' n' = x.extractLsb' s' n' := by
  ext i hi
  have hb : mask.getLsbD (s' + i) = false := by
    have := congrArg (fun v => v.getLsbD i) h
    simpa [hi] using this
  simp only [BitVec.getElem_extractLsb', getLsbD_and_not mask x _ hb]

theorem insert_and_not (start : Nat) (v : BitVec n) (mask x : BitVec w)
    (h : mask.extractLsb' start n = BitVec.allOnes n) :
    insert start v x &&& ~~~mask = x &&& ~~~mask := by
  ext i hi
  rw [← BitVec.getLsbD_eq_getElem hi, ← BitVec.getLsbD_eq_getElem hi]
  simp only [BitVec.getLsbD_and, BitVec.getLsbD_not, getLsbD_insert]
  split
  · next hr =>
    have hb : mask.getLsbD i = true := by
      have h1 := congrArg (fun v => v.getLsbD (i - start)) h
      have h2 : i - start < n := by omega
      have h3 : start + (i - start) = i := by omega
      simpa [h2, h3] using h1
    simp [hb]
  · rfl

theorem and_bit_ne_zero (x : BitVec w) (i : Nat) (hi : i < w) :
    decide (x &&& (1#w <<< i) ≠ 0) = x.getLsbD i := by
  rw [← BitVec.twoPow_eq, BitVec.and_twoPow]
  cases x.getLsbD i with
  | true =>
    have h : BitVec.twoPow w i ≠ 0 := by
      intro h
      have := congrArg (fun v => v.getLsbD i) h
      simp [hi] at this
    simpa using h
  | false => simp

theorem and_xor_eq_zero_iff (mask x : BitVec w) :
    (x &&& mask) ^^^ mask = 0 ↔ ∀ i, mask.getLsbD i = true → x.getLsbD i = true := by
  constructor
  · intro h i hi
    have h1 := congrArg (fun v => v.getLsbD i) h
    simpa [hi] using h1
  · intro h
    apply BitVec.eq_of_getLsbD_eq
    intro i hi
    cases hm : mask.getLsbD i with
    | true => simp [hm, h i hm]
    | false => simp [hm]

theorem getLsbD_and_not_succ (m : BitVec w) (i : Nat) (hi : i < w) :
    (m &&& ~~~(m + 1#w)).getLsbD i = true ↔ ∀ j ≤ i, m.getLsbD j = true := by
  have hsucc : m + 1#w = -(~~~m) := by
    rw [BitVec.neg_eq_not_add, BitVec.not_not]
  have hlow : (∃ j < i, (~~~m).getLsbD j = true) ↔ ∃ j < i, m.getLsbD j = false := by
    constructor
    · rintro ⟨j, hj, hm⟩
      rw [BitVec.getLsbD_not, Bool.and_eq_true, Bool.not_eq_true'] at hm
      exact ⟨j, hj, hm.2⟩
    · rintro ⟨j, hj, hm⟩
      refine ⟨j, hj, ?_⟩
      rw [BitVec.getLsbD_not, hm, decide_eq_true (by omega)]
      rfl
  rw [hsucc, BitVec.getLsbD_and, BitVec.getLsbD_not, BitVec.getLsbD_neg, BitVec.getLsbD_not,
    decide_eq_true hi, Bool.true_and, Bool.true_and, Bool.true_and, decide_eq_decide.mpr hlow]
  constructor
  · intro h j hj
    by_contra hjm
    obtain rfl | hlt := Nat.eq_or_lt_of_le hj
    · simp [hjm] at h
    · have hex : ∃ k < i, m.getLsbD k = false := ⟨j, hlt, by simpa using hjm⟩
      rw [decide_eq_true hex] at h
      revert h
      cases m.getLsbD i <;> decide
  · intro h
    have hnone : ¬ ∃ k < i, m.getLsbD k = false := by
      rintro ⟨k, hk, hkm⟩
      rw [h k (by omega)] at hkm
      cases hkm
    rw [decide_eq_false hnone, h i (Nat.le_refl i)]
    rfl

theorem signExtend_signExtend (x : BitVec w) (hv : w ≤ v) (hu : v ≤ u) :
    (x.signExtend v).signExtend u = x.signExtend u := by
  apply BitVec.eq_of_toInt_eq
  rw [BitVec.toInt_signExtend_of_le hu, BitVec.toInt_signExtend_of_le hv,
    BitVec.toInt_signExtend_of_le (Nat.le_trans hv hu)]

theorem signExtend_setWidth (x : BitVec w) (hv : w < v) :
    (x.setWidth v).signExtend u = x.setWidth u := by
  have hmsb : (x.setWidth v).msb = false := by
    rw [BitVec.msb_setWidth, BitVec.getLsbD_of_ge x (v - 1) (by omega), Bool.and_false]
  rw [BitVec.signExtend_eq_setWidth_of_msb_false hmsb, BitVec.setWidth_setWidth (by omega)]

theorem signExtend_append_zero (x : BitVec w) (hv : w ≤ v) (hu : v + n ≤ u) :
    (x.signExtend v ++ 0#n).signExtend u = (x ++ 0#n).signExtend u := by
  apply BitVec.eq_of_toInt_eq
  rw [BitVec.toInt_signExtend_of_le hu, BitVec.toInt_signExtend_of_le (by omega),
    BitVec.toInt_append_zero, BitVec.toInt_append_zero, BitVec.toInt_signExtend_of_le hv]

end BitField
