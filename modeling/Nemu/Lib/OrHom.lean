import Mathlib.Data.BitVec

namespace OrHom

set_option autoImplicit true

variable {u v w : Nat} {f g : BitVec v → BitVec w}

/-- A map that respects bitwise or: every bit of its result is an or of bits of the argument. -/
structure Hom (f : BitVec v → BitVec w) : Prop where
  zero : f 0 = 0
  or : ∀ x y, f (x ||| y) = f x ||| f y

section Maps

theorem hom_zero : Hom fun _ : BitVec v => (0 : BitVec w) := ⟨rfl, fun _ _ => (BitVec.or_self).symm⟩

theorem Hom.of_bits {f : BitVec v → BitVec w} (sel : Nat → Option Nat)
    (h : ∀ x, ∀ i < w, (f x).getLsbD i = (sel i).any fun j => x.getLsbD j) : Hom f := by
  constructor
  · apply BitVec.eq_of_getLsbD_eq
    intro i hi
    rw [h 0 i hi]
    refine Eq.trans ?_ BitVec.getLsbD_zero.symm
    cases sel i with
    | none => rfl
    | some j => exact BitVec.getLsbD_zero
  · intro x y
    apply BitVec.eq_of_getLsbD_eq
    intro i hi
    rw [BitVec.getLsbD_or, h (x ||| y) i hi, h x i hi, h y i hi]
    cases sel i with
    | none => rfl
    | some j => exact BitVec.getLsbD_or

theorem hom_id : Hom fun x : BitVec v => x := ⟨rfl, fun _ _ => rfl⟩

theorem hom_extract (start n : Nat) : Hom fun x : BitVec v => x.extractLsb' start n := by
  apply Hom.of_bits fun i => some (start + i)
  intro x i hi
  rw [BitVec.getLsbD_extractLsb', decide_eq_true hi, Bool.true_and]
  rfl

theorem hom_setWidth (n : Nat) : Hom fun x : BitVec v => x.setWidth n := by
  apply Hom.of_bits some
  intro x i hi
  rw [BitVec.getLsbD_setWidth, decide_eq_true hi, Bool.true_and]
  rfl

theorem hom_signExtend (n : Nat) : Hom fun x : BitVec v => x.signExtend n := by
  apply Hom.of_bits fun i => if i < v then some i else some (v - 1)
  intro x i hi
  rw [BitVec.getLsbD_signExtend, decide_eq_true hi, Bool.true_and]
  by_cases hv : i < v
  · rw [if_pos hv, if_pos hv]
    rfl
  · rw [if_neg hv, if_neg hv, BitVec.msb_eq_getLsbD_last]
    rfl

theorem hom_shiftLeft (n : Nat) : Hom fun x : BitVec v => x <<< n := by
  apply Hom.of_bits fun i => if i < n then none else some (i - n)
  intro x i hi
  rw [BitVec.getLsbD_shiftLeft, decide_eq_true hi, Bool.true_and]
  by_cases hn : i < n
  · rw [if_pos hn, decide_eq_true hn]
    rfl
  · rw [if_neg hn, decide_eq_false hn]
    rfl

theorem hom_ushiftRight (n : Nat) : Hom fun x : BitVec v => x >>> n := by
  apply Hom.of_bits fun i => some (n + i)
  intro x i hi
  exact BitVec.getLsbD_ushiftRight x n i

theorem hom_and (mask : BitVec v) : Hom fun x => x &&& mask := by
  apply Hom.of_bits fun i => if mask.getLsbD i then some i else none
  intro x i hi
  rw [BitVec.getLsbD_and]
  cases mask.getLsbD i with
  | true => exact Bool.and_true _
  | false => exact Bool.and_false _

end Maps

section Closure

theorem Hom.comp {f : BitVec v → BitVec w} {g : BitVec u → BitVec v} (hf : Hom f) (hg : Hom g) :
    Hom fun x => f (g x) := by
  constructor
  · rw [hg.zero, hf.zero]
  · intro x y
    rw [hg.or, hf.or]

theorem Hom.sup (hf : Hom f) (hg : Hom g) : Hom fun x => f x ||| g x := by
  constructor
  · rw [hf.zero, hg.zero]
    exact BitVec.or_self
  · intro x y
    rw [hf.or, hg.or]
    ac_rfl

theorem Hom.append {w' : Nat} {g : BitVec v → BitVec w'} (hf : Hom f) (hg : Hom g) : Hom fun x => f x ++ g x := by
  constructor
  · rw [hf.zero, hg.zero]
    exact BitVec.zero_append_zero
  · intro x y
    rw [hf.or, hg.or, BitVec.or_append]

end Closure

section Basis

theorem Hom.ext (hf : Hom f) (hg : Hom g) (h : ∀ i : Fin v, f (BitVec.twoPow v i) = g (BitVec.twoPow v i))
    (x : BitVec v) :
    f x = g x := by
  have hbelow : ∀ n x, (∀ i, n ≤ i → x.getLsbD i = false) → f x = g x := by
    intro n
    induction n with
    | zero =>
      intro x hx
      have hzero : x = 0 := by
        apply BitVec.eq_of_getLsbD_eq
        intro i _
        rw [hx i (Nat.zero_le i)]
        exact (BitVec.getLsbD_zero).symm
      rw [hzero, hf.zero, hg.zero]
    | succ n ih =>
      intro x hx
      -- the bits below `n`, and bit `n`
      have hsplit : x = x &&& ~~~BitVec.twoPow v n ||| x &&& BitVec.twoPow v n := by
        rw [← BitVec.and_or_distrib_left, BitVec.not_or_self, BitVec.and_allOnes]
      have hlow : f (x &&& ~~~BitVec.twoPow v n) = g (x &&& ~~~BitVec.twoPow v n) := by
        apply ih
        intro i hi
        rw [BitVec.getLsbD_and, BitVec.getLsbD_not, BitVec.getLsbD_twoPow]
        rcases Nat.eq_or_lt_of_le hi with rfl | hlt
        · rw [decide_eq_true rfl, Bool.and_true, Bool.and_not_self, Bool.and_false]
        · rw [hx i hlt, Bool.false_and]
      have hbit : f (x &&& BitVec.twoPow v n) = g (x &&& BitVec.twoPow v n) := by
        rw [BitVec.and_twoPow]
        cases hn : x.getLsbD n with
        | false => exact hf.zero.trans hg.zero.symm
        | true => exact h ⟨n, BitVec.lt_of_getLsbD hn⟩
      rw [hsplit, hf.or, hg.or, hlow, hbit]
  exact hbelow v x fun i hi => BitVec.getLsbD_of_ge x i hi

end Basis

end OrHom
