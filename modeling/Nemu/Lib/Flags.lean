import Mathlib.Data.Nat.Bits
import Mathlib.Tactic.Linarith

set_option autoImplicit true

/-- The status flags of an operation on words. -/
structure Flags where
  cf : Bool
  zf : Bool
  sf : Bool
  of : Bool
  pf : Bool

namespace Flags

variable {n : Nat} {a b r : BitVec n} {c : Bool}

section Definitions

/-- An even number of the low eight bits are set. -/
def evenParity (r : BitVec n) : Bool := ((List.range 8).countP fun i => r.getLsbD i) % 2 == 0

/-- The flags that only depend on the result, and the two others. -/
def ofResult (r : BitVec n) (cf of : Bool) : Flags := ⟨cf, r == 0, r.msb, of, evenParity r⟩

/-- The carry as a word. -/
def carry (n : Nat) (c : Bool) : BitVec n := BitVec.ofNat n c.toNat

/-- A sum: the carry says that the unsigned result is not the exact one, the overflow says it of the signed result. -/
def ofAdd (a b : BitVec n) (c : Bool) : Flags :=
  let r := a + b + carry n c
  ofResult r (r.toNat != a.toNat + b.toNat + c.toNat) (r.toInt != a.toInt + b.toInt + c.toInt)

def ofSub (a b : BitVec n) (c : Bool) : Flags :=
  let r := a - b - carry n c
  ofResult r ((r.toNat : Int) != a.toNat - b.toNat - c.toInt) (r.toInt != a.toInt - b.toInt - c.toInt)

def ofLogic (r : BitVec n) : Flags := ofResult r false false

end Definitions

section Exact

theorem carry_toNat (hn : 0 < n) (c : Bool) : (carry n c).toNat = c.toNat := by
  have hpow : 2 ^ 1 ≤ 2 ^ n := Nat.pow_le_pow_right (by decide) hn
  have hc := Bool.toNat_le c
  unfold carry
  rw [BitVec.toNat_ofNat]
  exact Nat.mod_eq_of_lt (by omega)

theorem add_cases (hn : 0 < n) (a b : BitVec n) (c : Bool) :
    (a + b + carry n c).toNat = a.toNat + b.toNat + c.toNat ∨
      (a + b + carry n c).toNat + 2 ^ n = a.toNat + b.toNat + c.toNat := by
  have ha := a.isLt
  have hb := b.isLt
  have hc := Bool.toNat_le c
  have hr := (a + b + carry n c).isLt
  have hmod : (a + b + carry n c).toNat = (a.toNat + b.toNat + c.toNat) % 2 ^ n := by
    rw [BitVec.toNat_add, BitVec.toNat_add, carry_toNat hn, Nat.mod_add_mod]
  have hdiv := Nat.div_add_mod (a.toNat + b.toNat + c.toNat) (2 ^ n)
  have hq : (a.toNat + b.toNat + c.toNat) / 2 ^ n < 2 := Nat.div_lt_of_lt_mul (by omega)
  rw [← hmod] at hdiv
  rcases Nat.lt_or_ge 0 ((a.toNat + b.toNat + c.toNat) / 2 ^ n) with hpos | hzero
  · have hone : (a.toNat + b.toNat + c.toNat) / 2 ^ n = 1 := by omega
    rw [hone] at hdiv
    omega
  · rw [Nat.le_zero.mp hzero] at hdiv
    omega

theorem sub_cases (hn : 0 < n) (a b : BitVec n) (c : Bool) :
    a.toNat = (a - b - carry n c).toNat + b.toNat + c.toNat ∨
      a.toNat + 2 ^ n = (a - b - carry n c).toNat + b.toNat + c.toNat := by
  have hsum : a - b - carry n c + b + carry n c = a := by
    rw [BitVec.sub_sub, BitVec.add_assoc, BitVec.sub_add_cancel]
  have hcases := add_cases hn (a - b - carry n c) b c
  rw [hsum] at hcases
  exact hcases

theorem toInt_cases (a : BitVec n) : (a.msb = false ∧ a.toInt = a.toNat ∧ 2 * a.toNat < 2 ^ n) ∨
    (a.msb = true ∧ a.toInt = a.toNat - (2 ^ n : Nat) ∧ 2 ^ n ≤ 2 * a.toNat) := by
  rcases hm : a.msb with _ | _
  · have hlt := BitVec.msb_eq_false_iff_two_mul_lt.mp hm
    exact .inl ⟨rfl, BitVec.toInt_eq_toNat_of_msb hm, hlt⟩
  · have hle := BitVec.msb_eq_true_iff_two_mul_ge.mp hm
    refine .inr ⟨rfl, ?_, hle⟩
    rw [BitVec.toInt_eq_msb_cond, hm]
    simp

theorem carry_toInt (c : Bool) : c.toInt = (c.toNat : Int) := by cases c <;> rfl

theorem pow_even (hn : 0 < n) : 2 ^ n % 2 = 0 := by
  obtain ⟨m, rfl⟩ := Nat.exists_eq_add_of_lt hn
  rw [Nat.zero_add, Nat.pow_succ]
  exact Nat.mul_mod_left _ _

variable (hn : 0 < n)

include hn

theorem add_cf : (ofAdd a b c).cf = decide (2 ^ n ≤ a.toNat + b.toNat + c.toNat) := by
  have hr := (a + b + carry n c).isLt
  have hcases := add_cases hn a b c
  unfold ofAdd ofResult
  dsimp only
  rw [bne, Bool.eq_iff_iff, Bool.not_eq_true', beq_eq_false_iff_ne, decide_eq_true_iff]
  omega

theorem sub_cf : (ofSub a b c).cf = decide (a.toNat < b.toNat + c.toNat) := by
  have ha := a.isLt
  have hcases := sub_cases hn a b c
  have hc := carry_toInt c
  unfold ofSub ofResult
  dsimp only
  rw [bne, Bool.eq_iff_iff, Bool.not_eq_true', beq_eq_false_iff_ne, decide_eq_true_iff]
  omega

theorem add_of : (ofAdd a b c).of = (((a + b + carry n c).msb ^^ a.msb) && ((a + b + carry n c).msb ^^ b.msb)) := by
  have hr := (a + b + carry n c).isLt
  have hN := pow_even hn
  have hcases := add_cases hn a b c
  have hc := carry_toInt c
  have hc1 := Bool.toNat_le c
  unfold ofAdd ofResult
  dsimp only
  rw [bne, Bool.eq_iff_iff, Bool.not_eq_true', beq_eq_false_iff_ne]
  generalize a + b + carry n c = r at hr hcases ⊢
  rcases toInt_cases a with ⟨ha, hai, ha'⟩ | ⟨ha, hai, ha'⟩ <;>
    rcases toInt_cases b with ⟨hb, hbi, hb'⟩ | ⟨hb, hbi, hb'⟩ <;>
    rcases toInt_cases r with ⟨hm, hmi, hm'⟩ | ⟨hm, hmi, hm'⟩ <;> rw [ha, hb, hm] <;> simp <;> omega

theorem sub_of : (ofSub a b c).of = ((a.msb ^^ b.msb) && (a.msb ^^ (a - b - carry n c).msb)) := by
  have ha := a.isLt
  have hr := (a - b - carry n c).isLt
  have hN := pow_even hn
  have hcases := sub_cases hn a b c
  have hc := carry_toInt c
  have hc1 := Bool.toNat_le c
  unfold ofSub ofResult
  dsimp only
  rw [bne, Bool.eq_iff_iff, Bool.not_eq_true', beq_eq_false_iff_ne]
  generalize a - b - carry n c = r at hr hcases ⊢
  rcases toInt_cases a with ⟨ha, hai, ha'⟩ | ⟨ha, hai, ha'⟩ <;>
    rcases toInt_cases b with ⟨hb, hbi, hb'⟩ | ⟨hb, hbi, hb'⟩ <;>
    rcases toInt_cases r with ⟨hm, hmi, hm'⟩ | ⟨hm, hmi, hm'⟩ <;> rw [ha, hb, hm] <;> simp <;> omega

theorem add_less : ((ofAdd a b c).sf ^^ (ofAdd a b c).of) = decide (a.toInt + b.toInt + c.toInt < 0) := by
  have hr := (a + b + carry n c).isLt
  have hN := pow_even hn
  have hcases := add_cases hn a b c
  have hc := carry_toInt c
  have hc1 := Bool.toNat_le c
  rw [add_of hn, Bool.eq_iff_iff, decide_eq_true_iff]
  unfold ofAdd ofResult
  dsimp only
  generalize a + b + carry n c = r at hr hcases ⊢
  rcases toInt_cases a with ⟨ha, hai, ha'⟩ | ⟨ha, hai, ha'⟩ <;>
    rcases toInt_cases b with ⟨hb, hbi, hb'⟩ | ⟨hb, hbi, hb'⟩ <;>
    rcases toInt_cases r with ⟨hm, hmi, hm'⟩ | ⟨hm, hmi, hm'⟩ <;> rw [ha, hb, hm] <;> simp <;> omega

theorem sub_less : ((ofSub a b c).sf ^^ (ofSub a b c).of) = decide (a.toInt < b.toInt + c.toInt) := by
  have ha := a.isLt
  have hr := (a - b - carry n c).isLt
  have hN := pow_even hn
  have hcases := sub_cases hn a b c
  have hc := carry_toInt c
  have hc1 := Bool.toNat_le c
  rw [sub_of hn, Bool.eq_iff_iff, decide_eq_true_iff]
  unfold ofSub ofResult
  dsimp only
  generalize a - b - carry n c = r at hr hcases ⊢
  rcases toInt_cases a with ⟨ha, hai, ha'⟩ | ⟨ha, hai, ha'⟩ <;>
    rcases toInt_cases b with ⟨hb, hbi, hb'⟩ | ⟨hb, hbi, hb'⟩ <;>
    rcases toInt_cases r with ⟨hm, hmi, hm'⟩ | ⟨hm, hmi, hm'⟩ <;> rw [ha, hb, hm] <;> simp <;> omega

theorem add_zero_iff (h : a.toInt + b.toInt + c.toInt < 0) :
    (ofAdd a b c).zf = true ↔ a.toInt + b.toInt + c.toInt = -(2 ^ n : Nat) := by
  have hr := (a + b + carry n c).isLt
  have hcases := add_cases hn a b c
  have hc := carry_toInt c
  have hc1 := Bool.toNat_le c
  unfold ofAdd ofResult
  dsimp only
  rw [beq_iff_eq, ← BitVec.toNat_inj]
  have hzero : (0 : BitVec n).toNat = 0 := rfl
  rw [hzero]
  rcases toInt_cases a with ⟨-, ha, ha'⟩ | ⟨-, ha, ha'⟩ <;>
    rcases toInt_cases b with ⟨-, hb, hb'⟩ | ⟨-, hb, hb'⟩ <;> omega

theorem sub_zero_iff (h : a.toInt < b.toInt + c.toInt) :
    (ofSub a b c).zf = true ↔ a.toInt - b.toInt - c.toInt = -(2 ^ n : Nat) := by
  have ha := a.isLt
  have hr := (a - b - carry n c).isLt
  have hcases := sub_cases hn a b c
  have hc := carry_toInt c
  have hc1 := Bool.toNat_le c
  unfold ofSub ofResult
  dsimp only
  rw [beq_iff_eq, ← BitVec.toNat_inj]
  have hzero : (0 : BitVec n).toNat = 0 := rfl
  rw [hzero]
  rcases toInt_cases a with ⟨-, ha, ha'⟩ | ⟨-, ha, ha'⟩ <;>
    rcases toInt_cases b with ⟨-, hb, hb'⟩ | ⟨-, hb, hb'⟩ <;> omega

theorem neg_of : (ofSub 0 a false).of = decide (2 * a.toNat = 2 ^ n) := by
  have ha := a.isLt
  have hN := pow_even hn
  have hcases := sub_cases hn 0 a false
  have hzero : (0 : BitVec n).msb = false := BitVec.msb_zero
  have hnat : (0 : BitVec n).toNat = 0 := rfl
  rw [sub_of hn, hzero, Bool.eq_iff_iff, decide_eq_true_iff]
  rw [hnat] at hcases
  generalize (0 : BitVec n) - a - carry n false = r at hcases ⊢
  rcases toInt_cases a with ⟨hs, -, hs'⟩ | ⟨hs, -, hs'⟩ <;> rcases toInt_cases r with ⟨hm, -, hm'⟩ | ⟨hm, -, hm'⟩ <;>
    rw [hs, hm] <;> simp at hcases ⊢ <;> omega

end Exact

section Steps

variable (hn : 1 < n)

include hn

theorem one_facts : (1 : BitVec n).msb = false ∧ (1 : BitVec n).toNat = 1 := by
  have hpow : 2 ^ 2 ≤ 2 ^ n := Nat.pow_le_pow_right (by decide) hn
  have hnat : (1 : BitVec n).toNat = 1 := (BitVec.toNat_ofNat 1 n).trans (Nat.mod_eq_of_lt (by omega))
  refine ⟨BitVec.msb_eq_false_iff_two_mul_lt.mpr ?_, hnat⟩
  rw [hnat]
  omega

theorem inc_of : (ofAdd a 1 false).of = decide (2 * (a.toNat + 1) = 2 ^ n) := by
  have ha := a.isLt
  have hpos : 0 < n := by omega
  have hN := pow_even hpos
  obtain ⟨hmsb, hnat⟩ := one_facts hn
  have hcases := add_cases hpos a 1 false
  rw [add_of hpos, hmsb, Bool.eq_iff_iff, decide_eq_true_iff]
  rw [hnat] at hcases
  generalize a + 1 + carry n false = r at hcases ⊢
  rcases toInt_cases a with ⟨hs, -, hs'⟩ | ⟨hs, -, hs'⟩ <;> rcases toInt_cases r with ⟨hm, -, hm'⟩ | ⟨hm, -, hm'⟩ <;>
    rw [hs, hm] <;> simp at hcases ⊢ <;> omega

theorem dec_of : (ofSub a 1 false).of = decide (2 * a.toNat = 2 ^ n) := by
  have ha := a.isLt
  have hpos : 0 < n := by omega
  have hN := pow_even hpos
  obtain ⟨hmsb, hnat⟩ := one_facts hn
  have hcases := sub_cases hpos a 1 false
  rw [sub_of hpos, hmsb, Bool.eq_iff_iff, decide_eq_true_iff]
  rw [hnat] at hcases
  generalize a - 1 - carry n false = r at hcases ⊢
  rcases toInt_cases a with ⟨hs, -, hs'⟩ | ⟨hs, -, hs'⟩ <;> rcases toInt_cases r with ⟨hm, -, hm'⟩ | ⟨hm, -, hm'⟩ <;>
    rw [hs, hm] <;> simp at hcases ⊢ <;> omega

end Steps

end Flags
