import Mathlib.Data.List.Induction
import Mathlib.Data.List.DropRight

set_option autoImplicit true

/-- The bits of a list, shifted into a word one after the other: the last one is the lowest. -/
def shiftIn (n : Nat) (f : α → Bool) (l : List α) : BitVec n := l.foldl (fun v c => v <<< 1 ||| if f c then 1 else 0) 0

/-- How many elements at the end of a list satisfy a predicate. -/
def trailing (p : α → Bool) (l : List α) : Nat := l.foldl (fun k c => if p c then k + 1 else 0) 0

section ShiftIn

variable {n k i : Nat} {f p : α → Bool} {l : List α} {c : α}

theorem shiftIn_append : shiftIn n f (l ++ [c]) = shiftIn n f l <<< 1 ||| if f c then 1 else 0 := by
  unfold shiftIn
  rw [List.foldl_append]
  rfl

theorem trailing_append : trailing p (l ++ [c]) = if p c then trailing p l + 1 else 0 := by
  unfold trailing
  rw [List.foldl_append]
  rfl

theorem flag_getLsbD (hi : i < n) (b : Bool) : (if b then 1 else 0 : BitVec n).getLsbD i = (b && decide (i = 0)) := by
  cases b
  · exact BitVec.getLsbD_zero
  · rw [if_pos rfl, Bool.true_and]
    have hn : 0 < n := by omega
    have hone : (1 : BitVec n).getLsbD i = (decide (0 < n) && decide (i = 0)) := BitVec.getLsbD_one
    rw [hone, decide_eq_true hn, Bool.true_and]

theorem shiftIn_getLsbD (hi : i < n) : (shiftIn n f l).getLsbD i = l.reverse[i]?.any f := by
  induction l using List.reverseRecOn generalizing i with
  | nil => exact BitVec.getLsbD_zero
  | append_singleton l c ih =>
    rw [shiftIn_append, BitVec.getLsbD_or, BitVec.getLsbD_shiftLeft, flag_getLsbD hi, List.reverse_append]
    cases i with
    | zero => simp
    | succ i =>
      have hi' : i < n := by omega
      rw [Nat.add_sub_cancel, ih hi']
      simp [hi]

theorem trailing_eq : trailing p l = (l.rtakeWhile p).length := by
  induction l using List.reverseRecOn with
  | nil => rfl
  | append_singleton l c ih =>
    rw [trailing_append, List.rtakeWhile_concat, ih]
    by_cases hc : p c = true
    · rw [if_pos hc, if_pos hc, List.length_append]
      rfl
    · rw [if_neg hc, if_neg hc]
      rfl

theorem trailing_le : trailing p l ≤ l.length := by
  rw [trailing_eq]
  exact (List.rtakeWhile_suffix p l).length_le

theorem trailing_eq_length : trailing p l = l.length ↔ ∀ c ∈ l, p c = true := by
  rw [trailing_eq]
  constructor
  · intro h
    have hself := (List.rtakeWhile_suffix p l).eq_of_length h
    exact List.rtakeWhile_eq_self_iff.mp hself
  · intro h
    rw [List.rtakeWhile_eq_self_iff.mpr h]

theorem trailing_get (hi : i < trailing p l) (hc : l.reverse[i]? = some c) : p c = true := by
  induction l using List.reverseRecOn generalizing i with
  | nil => exact absurd hi (Nat.not_lt_zero i)
  | append_singleton l d ih =>
    rw [trailing_append] at hi
    by_cases hd : p d = true
    · rw [if_pos hd] at hi
      rw [List.reverse_append, List.reverse_singleton, List.singleton_append] at hc
      cases i with
      | zero =>
        cases hc
        exact hd
      | succ i => exact ih (Nat.lt_of_succ_lt_succ hi) hc
    · rw [if_neg hd] at hi
      exact absurd hi (Nat.not_lt_zero i)

/-- The low bits that are in neither the mask nor the key can be shifted out of the comparison. -/
theorem masked_shift_iff {x mask key : BitVec n} (hmask : ∀ i < k, mask.getLsbD i = false)
    (hkey : ∀ i < k, key.getLsbD i = false) :
    (x >>> k) &&& (mask >>> k) = key >>> k ↔ ∀ i < n, (x.getLsbD i && mask.getLsbD i) = key.getLsbD i := by
  constructor
  · intro h i hi
    rcases Nat.lt_or_ge i k with hlow | hhigh
    · rw [hmask i hlow, hkey i hlow, Bool.and_false]
    · have hbit := congrArg (BitVec.getLsbD · (i - k)) h
      simp only [BitVec.getLsbD_and, BitVec.getLsbD_ushiftRight, Nat.add_sub_cancel' hhigh] at hbit
      exact hbit
  · intro h
    apply BitVec.eq_of_getLsbD_eq
    intro i hi
    rw [BitVec.getLsbD_and, BitVec.getLsbD_ushiftRight, BitVec.getLsbD_ushiftRight, BitVec.getLsbD_ushiftRight]
    rcases Nat.lt_or_ge (k + i) n with hlt | hge
    · exact h (k + i) hlt
    · rw [BitVec.getLsbD_of_ge x _ hge, BitVec.getLsbD_of_ge key _ hge, Bool.false_and]

end ShiftIn
