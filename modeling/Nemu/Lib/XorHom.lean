import Mathlib.Data.BitVec

namespace XorHom

set_option autoImplicit true

variable {u v w : Nat} {f g : BitVec v → BitVec w}

/-- A map that respects exclusive or: it is linear over the field with two elements. -/
def Hom (f : BitVec v → BitVec w) : Prop := ∀ x y, f (x ^^^ y) = f x ^^^ f y

theorem Hom.zero (hf : Hom f) : f 0 = 0 := by
  have h := hf 0 0
  rw [BitVec.xor_self, BitVec.xor_self] at h
  exact h

theorem hom_id : Hom (fun x : BitVec w => x) := fun _ _ => rfl

theorem Hom.comp {g : BitVec u → BitVec v} (hf : Hom f) (hg : Hom g) : Hom fun x => f (g x) := by
  intro x y
  dsimp only
  rw [hg, hf]

theorem Hom.xor (hf : Hom f) (hg : Hom g) : Hom fun x => f x ^^^ g x := by
  intro x y
  dsimp only
  rw [hf, hg]
  ac_rfl

theorem Hom.shiftLeft (hf : Hom f) (n : Nat) : Hom fun x => f x <<< n := by
  intro x y
  dsimp only
  rw [hf, BitVec.shiftLeft_xor_distrib]

theorem Hom.ushiftRight (hf : Hom f) (n : Nat) : Hom fun x => f x >>> n := by
  intro x y
  dsimp only
  rw [hf, BitVec.ushiftRight_xor_distrib]

theorem Hom.and (hf : Hom f) (mask : BitVec w) : Hom fun x => f x &&& mask := by
  intro x y
  apply BitVec.eq_of_getLsbD_eq
  intro i _
  dsimp only
  rw [hf, BitVec.getLsbD_and, BitVec.getLsbD_xor, BitVec.getLsbD_xor, BitVec.getLsbD_and, BitVec.getLsbD_and,
    Bool.and_xor_distrib_right]

theorem Hom.setWidth (hf : Hom f) (n : Nat) : Hom fun x => (f x).setWidth n := by
  intro x y
  dsimp only
  rw [hf]
  apply BitVec.eq_of_getLsbD_eq
  intro i hi
  rw [BitVec.getLsbD_setWidth, BitVec.getLsbD_xor, BitVec.getLsbD_xor, BitVec.getLsbD_setWidth,
    BitVec.getLsbD_setWidth, decide_eq_true hi, Bool.true_and, Bool.true_and, Bool.true_and]

theorem Hom.rotateLeft (hf : Hom f) (n : Nat) : Hom fun x => (f x).rotateLeft n := by
  intro x y
  apply BitVec.eq_of_getLsbD_eq
  intro i _
  dsimp only
  rw [hf, BitVec.getLsbD_xor, BitVec.getLsbD_rotateLeft, BitVec.getLsbD_rotateLeft, BitVec.getLsbD_rotateLeft,
    BitVec.getLsbD_xor, BitVec.getLsbD_xor]
  cases decide (i < n % w) with
  | true => rfl
  | false => exact Bool.and_xor_distrib_left _ _ _

theorem hom_bit (i : Nat) (c : BitVec w) : Hom fun x : BitVec v => if x.getLsbD i then c else 0 := by
  intro x y
  dsimp only
  rw [BitVec.getLsbD_xor]
  cases x.getLsbD i <;> cases y.getLsbD i <;> simp

theorem Hom.ext (hf : Hom f) (hg : Hom g) (h : ∀ i < v, f (BitVec.twoPow v i) = g (BitVec.twoPow v i)) :
    f = g := by
  have hbelow : ∀ n x, (∀ i, n ≤ i → x.getLsbD i = false) → f x = g x := by
    intro n
    induction n with
    | zero =>
      intro x hx
      have hzero : x = 0 := by
        apply BitVec.eq_of_getLsbD_eq
        intro i _
        rw [hx i (Nat.zero_le i)]
        exact (BitVec.getLsbD_zero).symm
      rw [hzero, hf.zero, hg.zero]
    | succ n ih =>
      intro x hx
      cases hbit : x.getLsbD n with
      | false =>
        apply ih
        intro i hi
        rcases Nat.eq_or_lt_of_le hi with rfl | hlt
        · exact hbit
        · exact hx i hlt
      | true =>
        have hn : n < v := BitVec.lt_of_getLsbD hbit
        have hsplit : x = BitVec.twoPow v n ^^^ (x ^^^ BitVec.twoPow v n) := by
          rw [BitVec.xor_comm x, ← BitVec.xor_assoc, BitVec.xor_self, BitVec.zero_xor]
        rw [hsplit, hf, hg, h n hn, ih]
        intro i hi
        rw [BitVec.getLsbD_xor, BitVec.getLsbD_twoPow]
        rcases Nat.eq_or_lt_of_le hi with rfl | hlt
        · rw [hbit, decide_eq_true hn, decide_eq_true rfl]
          rfl
        · rw [hx i hlt, decide_eq_false (Nat.ne_of_lt hlt), Bool.and_false]
          rfl
  funext x
  exact hbelow v x fun i hi => BitVec.getLsbD_of_ge x i hi

end XorHom
