import Mathlib.Data.BitVec
import Mathlib.Data.List.Induction
import Mathlib.Data.Nat.Bitwise

namespace Butterfly

set_option autoImplicit true

/-- The bits of `lo` go up by `2 ^ j` places, and those of `hi` down. -/
def swap (lo hi : BitVec n) (j : Nat) (x : BitVec n) : BitVec n := ((x &&& lo) <<< 2 ^ j) ||| ((x &&& hi) >>> 2 ^ j)

/-- The masks of the places whose number has bit `j` clear, and set. -/
structure Masks (m : BitVec n × BitVec n) (j : Nat) : Prop where
  lo : ∀ i < n, m.1.getLsbD i = !i.testBit j
  hi : ∀ i < n, m.2.getLsbD i = i.testBit j

/-- Stages in order, on places that they keep to. -/
structure Network (ms : List (BitVec n × BitVec n)) : Prop where
  masks : ∀ j m, ms[j]? = some m → Masks m j
  closed : ∀ i < n, ∀ j < ms.length, i ^^^ 2 ^ j < n

/-- Stages that swap, each where its bit of `s` is set. -/
def route (s : Nat) (ms : List (BitVec n × BitVec n)) (x : BitVec n) : BitVec n :=
  ms.zipIdx.foldl (fun x m => if s.testBit m.2 then swap m.1.1 m.1.2 m.2 x else x) x

/-- Stages that add what they swap. -/
def spread (s : Nat) (ms : List (BitVec n × BitVec n)) (x : BitVec n) : BitVec n :=
  ms.zipIdx.foldl (fun x m => if s.testBit m.2 then x ||| swap m.1.1 m.1.2 m.2 x else x) x

/-- All bits of `t` are bits of `u`. -/
def Submask (t u : Nat) : Prop := ∀ k, t.testBit k = true → u.testBit k = true

variable {n i j s t u : Nat} {x : BitVec n} {m : BitVec n × BitVec n} {ms : List (BitVec n × BitVec n)}

section Number

theorem xor_one (q : Nat) : q ^^^ 1 = if q % 2 = 1 then q - 1 else q + 1 := by
  have hdiv : (q ^^^ 1) / 2 = q / 2 := by
    rw [Nat.xor_div_two]
    exact Nat.xor_zero _
  have hmod : (q ^^^ 1) % 2 = 1 ↔ ¬ (q % 2 = 1 ↔ 1 % 2 = 1) := Nat.xor_mod_two_eq_one
  split
  · have : ¬ (q ^^^ 1) % 2 = 1 := fun h => hmod.mp h (by omega)
    omega
  · have : (q ^^^ 1) % 2 = 1 := hmod.mpr (by omega)
    omega

theorem xor_two_pow (i j : Nat) : i ^^^ 2 ^ j = if i.testBit j = true then i - 2 ^ j else i + 2 ^ j := by
  have hdiv : (i ^^^ 2 ^ j) / 2 ^ j = i / 2 ^ j ^^^ 1 := by
    rw [Nat.xor_div_two_pow, Nat.div_self (Nat.two_pow_pos j)]
  have hmod : (i ^^^ 2 ^ j) % 2 ^ j = i % 2 ^ j := by
    rw [Nat.xor_mod_two_pow, Nat.mod_self, Nat.xor_zero]
  have hi := Nat.div_add_mod i (2 ^ j)
  have hx := Nat.div_add_mod (i ^^^ 2 ^ j) (2 ^ j)
  rw [hdiv, hmod, xor_one] at hx
  rw [Nat.testBit_eq_decide_div_mod_eq]
  by_cases hodd : i / 2 ^ j % 2 = 1
  · rw [if_pos hodd, Nat.mul_sub_one] at hx
    have hpos : 0 < i / 2 ^ j := by
      apply Nat.pos_of_ne_zero
      intro h
      rw [h] at hodd
      cases hodd
    have hle : 2 ^ j ≤ 2 ^ j * (i / 2 ^ j) := Nat.le_mul_of_pos_right _ hpos
    rw [if_pos (decide_eq_true hodd)]
    omega
  · rw [if_neg hodd, Nat.mul_add_one] at hx
    rw [if_neg fun h => hodd (of_decide_eq_true h)]
    omega

theorem testBit_mod_succ (s j : Nat) :
    s % 2 ^ (j + 1) = if s.testBit j = true then 2 ^ j ^^^ s % 2 ^ j else s % 2 ^ j := by
  apply Nat.eq_of_testBit_eq
  intro k
  rw [Nat.testBit_mod_two_pow]
  by_cases hs : s.testBit j = true
  · rw [if_pos hs, Nat.testBit_xor, Nat.testBit_mod_two_pow, Nat.testBit_two_pow]
    obtain h | rfl | h := Nat.lt_trichotomy k j
    · simp [h, Nat.lt_succ_of_lt h, Nat.ne_of_gt h]
    · simp [hs]
    · have h1 : ¬ k < j + 1 := by omega
      have h2 : ¬ k < j := by omega
      simp [h1, h2, Nat.ne_of_lt h]
  · rw [if_neg hs, Nat.testBit_mod_two_pow]
    by_cases hk : k = j
    · subst hk
      simp [hs]
    · have hlt : k < j + 1 ↔ k < j := by omega
      rw [decide_eq_decide.mpr hlt]

theorem submask_xor (hu : u.testBit j = false) : Submask t (2 ^ j ^^^ u) ↔ Submask t u ∨ Submask (2 ^ j ^^^ t) u := by
  have hbit : ∀ v k, k ≠ j → (2 ^ j ^^^ v).testBit k = v.testBit k := by
    intro v k hk
    rw [Nat.testBit_xor, Nat.testBit_two_pow_of_ne (Ne.symm hk), Bool.false_xor]
  have hset : ∀ v, (2 ^ j ^^^ v).testBit j = !v.testBit j := by
    intro v
    rw [Nat.testBit_xor, Nat.testBit_two_pow_self, Bool.true_xor]
  constructor
  · intro h
    by_cases ht : t.testBit j = true
    · refine .inr fun k hk => ?_
      by_cases hkj : k = j
      · subst hkj
        rw [hset, ht] at hk
        cases hk
      · rw [hbit t k hkj] at hk
        rw [← hbit u k hkj]
        exact h k hk
    · refine .inl fun k hk => ?_
      have hkj : k ≠ j := by
        rintro rfl
        exact ht hk
      rw [← hbit u k hkj]
      exact h k hk
  · rintro (h | h) k hk
    · have hkj : k ≠ j := by
        rintro rfl
        rw [h k hk] at hu
        cases hu
      rw [hbit u k hkj]
      exact h k hk
    · by_cases hkj : k = j
      · subst hkj
        rw [hset, hu]
        rfl
      · rw [hbit u k hkj]
        apply h k
        rwa [hbit t k hkj]

end Number

section Stage

theorem Masks.swap (h : Masks m j) (hi : i < n) : (swap m.1 m.2 j x).getLsbD i = x.getLsbD (i ^^^ 2 ^ j) := by
  unfold Butterfly.swap
  rw [BitVec.getLsbD_or, BitVec.getLsbD_shiftLeft, BitVec.getLsbD_ushiftRight, BitVec.getLsbD_and, BitVec.getLsbD_and,
    decide_eq_true hi, Bool.true_and, xor_two_pow]
  have hflip := Nat.testBit_two_pow_add_eq i j
  by_cases hb : i.testBit j = true
  · have hle := Nat.ge_two_pow_of_testBit hb
    have hdown := Nat.testBit_two_pow_add_eq (i - 2 ^ j) j
    rw [Nat.add_sub_of_le hle, hb] at hdown
    have hnone : m.2.getLsbD (2 ^ j + i) = false := by
      by_cases hin : 2 ^ j + i < n
      · rw [h.hi _ hin, hflip, hb]
        rfl
      · exact BitVec.getLsbD_of_ge _ _ (Nat.le_of_not_lt hin)
    rw [if_pos hb, decide_eq_false (Nat.not_lt.mpr hle), hnone, h.lo _ (Nat.lt_of_le_of_lt (Nat.sub_le i _) hi),
      ← hdown, Bool.and_true, Bool.and_false, Bool.or_false]
    rfl
  · have hclear : i.testBit j = false := Bool.eq_false_iff.mpr hb
    rw [hclear] at hflip
    have hnone : (!decide (i < 2 ^ j) && (x.getLsbD (i - 2 ^ j) && m.1.getLsbD (i - 2 ^ j))) = false := by
      by_cases hlt : i < 2 ^ j
      · rw [decide_eq_true hlt]
        rfl
      · have hdown := Nat.testBit_two_pow_add_eq (i - 2 ^ j) j
        rw [Nat.add_sub_of_le (Nat.le_of_not_lt hlt), hclear] at hdown
        rw [h.lo _ (Nat.lt_of_le_of_lt (Nat.sub_le i _) hi), ← hdown, Bool.and_false, Bool.and_false]
    rw [if_neg hb, hnone, Bool.false_or, Nat.add_comm (2 ^ j) i]
    by_cases hin : i + 2 ^ j < n
    · rw [h.hi _ hin, Nat.add_comm i, hflip]
      exact Bool.and_true _
    · rw [BitVec.getLsbD_of_ge x _ (Nat.le_of_not_lt hin), Bool.false_and]

theorem Network.init (h : Network (ms ++ [m])) : Network ms where
  masks j m' hj := by
    apply h.masks
    rw [List.getElem?_append_left (List.getElem?_eq_some_iff.mp hj).1]
    exact hj
  closed i hi j hj := by
    apply h.closed i hi
    rw [List.length_append]
    exact Nat.lt_add_right _ hj

theorem Network.last (h : Network (ms ++ [m])) : Masks m ms.length := h.masks _ _ List.getElem?_concat_length

theorem Network.last_closed (h : Network (ms ++ [m])) (hi : i < n) : i ^^^ 2 ^ ms.length < n := by
  apply h.closed i hi
  rw [List.length_append]
  exact Nat.lt_succ_self _

/-- The stages together: each place takes the bit of the place whose number differs from its own by `s`. -/
theorem route_getLsbD (h : Network ms) (hi : i < n) :
    (route s ms x).getLsbD i = x.getLsbD (i ^^^ s % 2 ^ ms.length) := by
  induction ms using List.reverseRecOn generalizing i with
  | nil =>
    rw [List.length_nil, Nat.pow_zero, Nat.mod_one, Nat.xor_zero]
    rfl
  | append_singleton ms m ih =>
    have hstep : route s (ms ++ [m]) x =
        if s.testBit ms.length = true then Butterfly.swap m.1 m.2 ms.length (route s ms x) else route s ms x := by
      unfold route
      rw [List.zipIdx_append, List.foldl_append, Nat.zero_add]
      rfl
    rw [hstep, List.length_append, List.length_singleton, testBit_mod_succ]
    split
    · rw [h.last.swap hi, ih h.init (h.last_closed hi), Nat.xor_assoc]
    · exact ih h.init hi

/-- A bit is set where a bit was set at a place whose number differs by some of the bits of `s`. -/
theorem spread_getLsbD (h : Network ms) (hi : i < n) : (spread s ms x).getLsbD i = true ↔
    ∃ t, Submask t (s % 2 ^ ms.length) ∧ x.getLsbD (i ^^^ t) = true := by
  induction ms using List.reverseRecOn generalizing i with
  | nil =>
    rw [List.length_nil, Nat.pow_zero, Nat.mod_one]
    constructor
    · intro hx
      exact ⟨0, fun _ hk => hk, by rwa [Nat.xor_zero]⟩
    · rintro ⟨t, ht, hx⟩
      have hzero : t = 0 := by
        apply Nat.eq_of_testBit_eq
        intro k
        rw [Nat.zero_testBit]
        exact Bool.eq_false_iff.mpr fun hk => by simpa using ht k hk
      rwa [hzero, Nat.xor_zero] at hx
  | append_singleton ms m ih =>
    have hstep : spread s (ms ++ [m]) x = if s.testBit ms.length = true then
        spread s ms x ||| Butterfly.swap m.1 m.2 ms.length (spread s ms x) else spread s ms x := by
      unfold spread
      rw [List.zipIdx_append, List.foldl_append, Nat.zero_add]
      rfl
    rw [hstep, List.length_append, List.length_singleton, testBit_mod_succ]
    split
    · have hclear : (s % 2 ^ ms.length).testBit ms.length = false := by
        rw [Nat.testBit_mod_two_pow, decide_eq_false (Nat.lt_irrefl _), Bool.false_and]
      rw [BitVec.getLsbD_or, Bool.or_eq_true, h.last.swap hi, ih h.init hi, ih h.init (h.last_closed hi)]
      simp only [submask_xor hclear]
      constructor
      · rintro (⟨t, ht, hx⟩ | ⟨t, ht, hx⟩)
        · exact ⟨t, .inl ht, hx⟩
        · refine ⟨2 ^ ms.length ^^^ t, .inr ?_, ?_⟩
          · rwa [← Nat.xor_assoc, Nat.xor_self, Nat.zero_xor]
          · rwa [← Nat.xor_assoc]
      · rintro ⟨t, ht | ht, hx⟩
        · exact .inl ⟨t, ht, hx⟩
        · refine .inr ⟨2 ^ ms.length ^^^ t, ht, ?_⟩
          rwa [Nat.xor_assoc, ← Nat.xor_assoc (2 ^ ms.length), Nat.xor_self, Nat.zero_xor]
    · exact ih h.init hi

end Stage

end Butterfly
