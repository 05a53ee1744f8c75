import Nemu.Dispatch
import Nemu.Lib.WideArith

namespace Nemu

open WideArith

set_option autoImplicit true

/-- The operations of RV64M. -/
inductive MulOp where
  | mul | mulh | mulhsu | mulhu | div | divu | rem | remu
  deriving DecidableEq

/-- The operation on registers of `w` bits: products of integers, and truncating division. -/
def MulOp.value (o : MulOp) (a b : BitVec w) : BitVec w :=
  match o with
  | mul => BitVec.ofInt w (a.toInt * b.toInt)
  | mulh => BitVec.ofInt w (a.toInt * b.toInt / 2 ^ w)
  | mulhsu => BitVec.ofInt w (a.toInt * b.toNat / 2 ^ w)
  | mulhu => BitVec.ofInt w (a.toNat * b.toNat / 2 ^ w)
  | div =>
    if b.toInt = 0 then BitVec.allOnes w
    else if a.toInt = -2 ^ (w - 1) ∧ b.toInt = -1 then a
    else BitVec.ofInt w (a.toInt.tdiv b.toInt)
  | divu => if b.toNat = 0 then BitVec.allOnes w else BitVec.ofNat w (a.toNat / b.toNat)
  | rem =>
    if b.toInt = 0 then a
    else if a.toInt = -2 ^ (w - 1) ∧ b.toInt = -1 then 0
    else BitVec.ofInt w (a.toInt.tmod b.toInt)
  | remu => if b.toNat = 0 then a else BitVec.ofNat w (a.toNat % b.toNat)

/-- The operation on the low halves, with the result extended by its sign. -/
def MulOp.valueW (o : MulOp) (a b : Word) : Word :=
  (o.value (a.setWidth 32) (b.setWidth 32)).signExtend 64

/-- The operations of `funct3`. -/
def mulOp (f : Fetched) : MulOp :=
  match f.funct3.toNat with
  | 0 => .mul
  | 1 => .mulh
  | 2 => .mulhsu
  | 3 => .mulhu
  | 4 => .div
  | 5 => .divu
  | 6 => .rem
  | _ => .remu

/-- The operations that have a form on the low halves. -/
def MulOp.hasW : MulOp → Bool
  | mul | div | divu | rem | remu => true
  | _ => false

/-- The value that RV64M says an instruction writes, from those of its source registers. -/
def rv64mValue (f : Fetched) (a b : Word) : Option Word :=
  if f.funct7 = 1 ∧ f.opcode = 0b01100 then some ((mulOp f).value a b)
  else if f.funct7 = 1 ∧ f.opcode = 0b01110 ∧ (mulOp f).hasW then some ((mulOp f).valueW a b)
  else none

section Host

/-- The division of the host on `sword_t`. It is undefined for the divisor 0, and for the quotient
that does not fit. -/
def signedDivision (f : Word → Word → Word) (a b : Word) : Option Word :=
  if b = 0 ∨ (a = BitVec.intMin 64 ∧ b = -1) then none else some (f a b)

/-- The division of the host on `word_t`. -/
def unsignedDivision (f : Word → Word → Word) (a b : Word) : Option Word :=
  if b = 0 then none else some (f a b)

def rtlDivsQ : Word → Word → Option Word := signedDivision BitVec.sdiv

def rtlDivsR : Word → Word → Option Word := signedDivision BitVec.srem

def rtlDivuQ : Word → Word → Option Word := unsignedDivision (· / ·)

def rtlDivuR : Word → Word → Option Word := unsignedDivision (· % ·)

/-- The executors of RV64M, with the divisions that they leave to the host. -/
def execRvm : AluOp → Word → Word → Option Word
  | .div, a, b =>
    if b = 0 then some (-1)
    else if a = 0x8000000000000000 ∧ b = -1 then some a
    else rtlDivsQ a b
  | .divu, a, b => if b = 0 then some (-1) else rtlDivuQ a b
  | .rem, a, b =>
    if b = 0 then some a
    else if a = 0x8000000000000000 ∧ b = -1 then some 0
    else rtlDivsR a b
  | .remu, a, b => if b = 0 then some a else rtlDivuR a b
  | .divw, a, b => do
    let s0 := sext32 a
    let s1 := sext32 b
    let q ← if s1 = 0 then some (-1)
      else if s0 = 0x80000000 ∧ s1 = -1 then some s0
      else rtlDivsQ s0 s1
    pure (sext32 q)
  | .divuw, a, b => do
    let s0 := zext32 a
    let s1 := zext32 b
    let q ← if s1 = 0 then some (-1) else rtlDivuQ s0 s1
    pure (sext32 q)
  | .remw, a, b => do
    let s0 := sext32 a
    let s1 := sext32 b
    let r ← if s1 = 0 then some s0
      else if s0 = 0x80000000 ∧ s1 = -1 then some 0
      else rtlDivsR s0 s1
    pure (sext32 r)
  | .remuw, a, b => do
    let s0 := zext32 a
    let s1 := zext32 b
    let r ← if s1 = 0 then some s0 else rtlDivuR s0 s1
    pure (sext32 r)
  | o, a, b => some (aluValue o a b)

theorem unsignedDivision_eq {f : Word → Word → Word} (hb : b ≠ 0) :
    unsignedDivision f a b = some (f a b) := if_neg hb

theorem signedDivision_eq {f : Word → Word → Word} (hb : b ≠ 0)
    (hover : ¬ (a = BitVec.intMin 64 ∧ b = -1)) : signedDivision f a b = some (f a b) := by
  apply if_neg
  rintro (h | h)
  · exact hb h
  · exact hover h

end Host

section Values

/-- The AluOp of the executors for an operation of RV64M on whole registers. -/
def MulOp.alu : MulOp → AluOp
  | mul => .mul
  | mulh => .mulh
  | mulhsu => .mulhsu
  | mulhu => .mulhu
  | div => .div
  | divu => .divu
  | rem => .rem
  | remu => .remu

/-- The AluOp of the executors for an operation on the low halves. -/
def MulOp.aluW : MulOp → AluOp
  | div => .divw
  | divu => .divuw
  | rem => .remw
  | remu => .remuw
  | _ => .mulw

theorem toInt_eq_zero_iff (b : BitVec w) : b.toInt = 0 ↔ b = 0 := by
  rw [← BitVec.toInt_inj]
  simp

theorem toNat_eq_zero_iff (b : BitVec w) : b.toNat = 0 ↔ b = 0 := by
  rw [← BitVec.toNat_inj]
  simp

theorem overflow_iff (a b : Word) :
    a.toInt = -2 ^ (64 - 1) ∧ b.toInt = -1 ↔ a = 0x8000000000000000 ∧ b = -1 := by
  have hmin : (0x8000000000000000 : Word).toInt = -2 ^ (64 - 1) := by decide
  have hone : (-1 : Word).toInt = -1 := by decide
  rw [← hmin, ← hone, BitVec.toInt_inj, BitVec.toInt_inj]

theorem mul_eq_ofInt (a b : BitVec w) : a * b = BitVec.ofInt w (a.toInt * b.toInt) := by
  rw [BitVec.ofInt_mul, BitVec.ofInt_toInt, BitVec.ofInt_toInt]

theorem udiv_eq_ofNat (a b : BitVec w) : a / b = BitVec.ofNat w (a.toNat / b.toNat) := by
  rw [← BitVec.toNat_udiv, BitVec.ofNat_toNat, BitVec.setWidth_eq]

theorem umod_eq_ofNat (a b : BitVec w) : a % b = BitVec.ofNat w (a.toNat % b.toNat) := by
  rw [← BitVec.toNat_umod, BitVec.ofNat_toNat, BitVec.setWidth_eq]

theorem aluValue_mulOp (o : MulOp) (a b : Word) : aluValue o.alu a b = o.value a b := by
  cases o with
  | mul => exact mul_eq_ofInt a b
  | mulh => exact mul_signed a b
  | mulhsu => exact mul_mixed a b
  | mulhu => exact mul_unsigned a b
  | div =>
    simp only [MulOp.value, toInt_eq_zero_iff, overflow_iff, ← sdiv_eq_ofInt]
    rfl
  | divu =>
    simp only [MulOp.value, toNat_eq_zero_iff, ← udiv_eq_ofNat]
    rfl
  | rem =>
    simp only [MulOp.value, toInt_eq_zero_iff, overflow_iff, ← srem_eq_ofInt]
    rfl
  | remu =>
    simp only [MulOp.value, toNat_eq_zero_iff, ← umod_eq_ofNat]
    rfl

theorem sext32_eq (a : Word) : sext32 a = (a.setWidth 32).signExtend 64 := by
  rw [sext32, extract_low]

theorem zext32_eq (a : Word) : zext32 a = (a.setWidth 32).setWidth 64 := by
  rw [zext32, extract_low]

theorem toInt_sext32 (a : Word) : (sext32 a).toInt = (a.setWidth 32).toInt := by
  rw [sext32_eq, BitVec.toInt_signExtend_of_le (by decide)]

theorem toNat_zext32 (a : Word) : (zext32 a).toNat = (a.setWidth 32).toNat := by
  rw [zext32_eq, BitVec.toNat_setWidth_of_le (by decide)]

theorem sext32_ofInt (z : Int) : sext32 (BitVec.ofInt 64 z) = (BitVec.ofInt 32 z).signExtend 64 := by
  rw [sext32_eq, setWidth_ofInt (by decide)]

theorem sext32_ofNat (n : Nat) : sext32 (BitVec.ofNat 64 n) = (BitVec.ofNat 32 n).signExtend 64 := by
  rw [← BitVec.ofInt_natCast, sext32_ofInt, BitVec.ofInt_natCast]

/-- A value extended from 32 bits is below the constant that the executors compare it with. -/
theorem sext32_ne_min (a : Word) : sext32 a ≠ 0x80000000 := by
  intro h
  have hlt : (a.setWidth 32).toInt < 2 ^ 31 := BitVec.toInt_lt
  have hmin : (sext32 a).toInt = 2 ^ 31 := by
    rw [h]
    decide
  rw [toInt_sext32] at hmin
  omega

theorem sext32_eq_zero_iff (b : Word) : sext32 b = 0 ↔ (b.setWidth 32).toInt = 0 := by
  rw [← toInt_eq_zero_iff, toInt_sext32]

theorem zext32_eq_zero_iff (b : Word) : zext32 b = 0 ↔ (b.setWidth 32).toNat = 0 := by
  rw [← toNat_eq_zero_iff, toNat_zext32]

theorem sext32_neg_one : sext32 (-1) = (BitVec.allOnes 32).signExtend 64 := by decide

theorem aluValue_divw (a b : Word) : aluValue .divw a b = MulOp.valueW .div a b := by
  have hval : aluValue .divw a b =
      sext32 (if sext32 b = 0 then -1 else (sext32 a).sdiv (sext32 b)) := by
    simp only [aluValue, sext32_ne_min, false_and, if_false]
  simp only [hval, MulOp.valueW, MulOp.value, sext32_eq_zero_iff]
  by_cases hb : (b.setWidth 32).toInt = 0
  · rw [if_pos hb, if_pos hb]
    exact sext32_neg_one
  · rw [if_neg hb, if_neg hb, sdiv_eq_ofInt, sext32_ofInt, toInt_sext32, toInt_sext32]
    split
    · next h =>
      -- the quotient of the overflowing pair wraps around to the dividend
      have hdividend : a.setWidth 32 = BitVec.ofInt 32 (-2 ^ (32 - 1)) := by
        rw [← h.1, BitVec.ofInt_toInt]
      rw [h.1, h.2, hdividend]
      rfl
    · rfl

theorem aluValue_remw (a b : Word) : aluValue .remw a b = MulOp.valueW .rem a b := by
  have hval : aluValue .remw a b =
      sext32 (if sext32 b = 0 then sext32 a else (sext32 a).srem (sext32 b)) := by
    simp only [aluValue, sext32_ne_min, false_and, if_false]
  simp only [hval, MulOp.valueW, MulOp.value, sext32_eq_zero_iff]
  by_cases hb : (b.setWidth 32).toInt = 0
  · rw [if_pos hb, if_pos hb, ← BitVec.ofInt_toInt (x := sext32 a), sext32_ofInt, toInt_sext32, BitVec.ofInt_toInt]
  · rw [if_neg hb, if_neg hb, srem_eq_ofInt, sext32_ofInt, toInt_sext32, toInt_sext32]
    split
    · next h =>
      rw [h.1, h.2]
      rfl
    · rfl

theorem aluValue_divuw (a b : Word) : aluValue .divuw a b = MulOp.valueW .divu a b := by
  simp only [aluValue, MulOp.valueW, MulOp.value, zext32_eq_zero_iff]
  by_cases hb : (b.setWidth 32).toNat = 0
  · rw [if_pos hb, if_pos hb]
    exact sext32_neg_one
  · rw [if_neg hb, if_neg hb, udiv_eq_ofNat, sext32_ofNat, toNat_zext32, toNat_zext32]

theorem aluValue_remuw (a b : Word) : aluValue .remuw a b = MulOp.valueW .remu a b := by
  simp only [aluValue, MulOp.valueW, MulOp.value, zext32_eq_zero_iff]
  by_cases hb : (b.setWidth 32).toNat = 0
  · rw [if_pos hb, if_pos hb, sext32_eq, zext32_eq, BitVec.setWidth_setWidth_of_le _ (by decide), BitVec.setWidth_eq]
  · rw [if_neg hb, if_neg hb, umod_eq_ofNat, sext32_ofNat, toNat_zext32, toNat_zext32]

theorem aluValue_mulOpW (o : MulOp) (ho : o.hasW = true) (a b : Word) :
    aluValue o.aluW a b = o.valueW a b := by
  cases o with
  | mul =>
    have hlow : (a * b).setWidth 32 = a.setWidth 32 * b.setWidth 32 :=
      BitVec.setWidth_mul a b (by decide)
    rw [MulOp.valueW, MulOp.value, ← mul_eq_ofInt, ← hlow]
    exact sext32_eq (a * b)
  | div => exact aluValue_divw a b
  | divu => exact aluValue_divuw a b
  | rem => exact aluValue_remw a b
  | remu => exact aluValue_remuw a b
  | mulh | mulhsu | mulhu => cases ho

theorem sext32_ne_intMin (a : Word) : sext32 a ≠ BitVec.intMin 64 := by
  intro h
  have hle : -2 ^ 31 ≤ (a.setWidth 32).toInt := BitVec.le_toInt _
  have hmin : (sext32 a).toInt = -2 ^ 63 := by
    rw [h]
    decide
  rw [toInt_sext32] at hmin
  omega

section Guarded

variable {x y : Word} {f : Word → Word → Word}

theorem guarded_unsigned : (if b = 0 then some x else unsignedDivision f a b) =
    some (if b = 0 then x else f a b) := by
  by_cases hb : b = 0
  · rw [if_pos hb, if_pos hb]
  · rw [if_neg hb, if_neg hb]
    exact unsignedDivision_eq hb

theorem extended_unsigned :
    (if b = 0 then do
        let q ← some x
        pure (sext32 q)
      else do
        let q ← unsignedDivision f a b
        pure (sext32 q)) = some (sext32 (if b = 0 then x else f a b)) := by
  by_cases hb : b = 0
  · rw [if_pos hb, if_pos hb]
    rfl
  · rw [if_neg hb, if_neg hb, unsignedDivision_eq hb]
    rfl

theorem extended_signed (ha : a ≠ BitVec.intMin 64) :
    (if b = 0 then do
        let q ← some x
        pure (sext32 q)
      else do
        let q ← signedDivision f a b
        pure (sext32 q)) = some (sext32 (if b = 0 then x else f a b)) := by
  by_cases hb : b = 0
  · rw [if_pos hb, if_pos hb]
    rfl
  · rw [if_neg hb, if_neg hb, signedDivision_eq hb fun h => ha h.1]
    rfl

theorem guarded_signed :
    (if b = 0 then some x else if a = BitVec.intMin 64 ∧ b = -1 then some y else signedDivision f a b) =
      some (if b = 0 then x else if a = BitVec.intMin 64 ∧ b = -1 then y else f a b) := by
  by_cases hb : b = 0
  · rw [if_pos hb, if_pos hb]
  · rw [if_neg hb, if_neg hb]
    by_cases hover : a = BitVec.intMin 64 ∧ b = -1
    · rw [if_pos hover, if_pos hover]
    · rw [if_neg hover, if_neg hover]
      exact signedDivision_eq hb hover

end Guarded

/-- No executor leaves an undefined division to the host. -/
theorem execRvm_eq (o : AluOp) (a b : Word) : execRvm o a b = some (aluValue o a b) := by
  have hmin : (0x8000000000000000 : Word) = BitVec.intMin 64 := by decide
  cases o with
  | div =>
    simp only [execRvm, aluValue, rtlDivsQ, hmin]
    exact guarded_signed
  | rem =>
    simp only [execRvm, aluValue, rtlDivsR, hmin]
    exact guarded_signed
  | divu => exact guarded_unsigned
  | remu => exact guarded_unsigned
  | divw =>
    simp only [execRvm, aluValue, rtlDivsQ, sext32_ne_min, false_and, if_false]
    exact extended_signed (sext32_ne_intMin a)
  | remw =>
    simp only [execRvm, aluValue, rtlDivsR, sext32_ne_min, false_and, if_false]
    exact extended_signed (sext32_ne_intMin a)
  | divuw => exact extended_unsigned
  | remuw => exact extended_unsigned
  | _ => rfl

end Values

section Selection

theorem tableRvm_selects (f : Fetched) : tableRvm f = .computeReg (mulOp f).alu := by
  rcases bitVec3_cases f.funct3 with h3 | h3 | h3 | h3 | h3 | h3 | h3 | h3
  all_goals
    simp only [tableRvm, mulOp, h3]
    rfl

theorem tableRvm32_selects (f : Fetched) (h : (mulOp f).hasW = true) :
    tableRvm32 f = .computeReg (mulOp f).aluW := by
  rcases bitVec3_cases f.funct3 with h3 | h3 | h3 | h3 | h3 | h3 | h3 | h3
  all_goals
    simp only [mulOp, h3] at h
    simp only [tableRvm32, mulOp, h3]
  all_goals first | rfl | cases h

/-- The decoded instruction of RV64M: its executor computes the value defined, and leaves no
undefined division to the host. -/
theorem tableMain_rvm (P : Platform) (h : rv64mValue f a b = some v) :
    ∃ o, tableMain P f = decodeR f (.computeReg o) ∧ aluValue o a b = v ∧
      execRvm o a b = some v := by
  unfold rv64mValue at h
  split at h
  · next hf =>
    have hmain : tableMain P f = decodeR f (tableRvm f) := by simp [tableMain, hf.1, hf.2]
    have hv : aluValue (mulOp f).alu a b = v := (aluValue_mulOp _ a b).trans (Option.some.inj h)
    rw [tableRvm_selects] at hmain
    exact ⟨_, hmain, hv, (execRvm_eq _ a b).trans (congrArg some hv)⟩
  · split at h
    · next hf =>
      have hmain : tableMain P f = decodeR f (tableRvm32 f) := by simp [tableMain, hf.1, hf.2.1]
      have hv : aluValue (mulOp f).aluW a b = v :=
        (aluValue_mulOpW _ hf.2.2 a b).trans (Option.some.inj h)
      rw [tableRvm32_selects f hf.2.2] at hmain
      exact ⟨_, hmain, hv, (execRvm_eq _ a b).trans (congrArg some hv)⟩
    · cases h

/-- An instruction of RV64M writes the value defined for it to `x[rd]` and goes on behind it, and
every division that its executor leaves to the host is defined. -/
theorem dispatch_eq_rv64m (P : Platform) (s : Machine) (w : BitVec 32)
    (h : rv64mValue (s.word w) (s.gpr (s.word w).rs1) (s.gpr (s.word w).rs2) = some v) :
    ∃ o t, (tableMain P (s.word w)).id = .computeReg o ∧
      execRvm o (s.gpr (s.word w).rs1) (s.gpr (s.word w).rs2) = some v ∧
      executeDecoded P (tableMain P (s.word w)) s = .ok (tableMain P (s.word w)) t ∧
      t.gpr = Regs.set s.gpr (s.word w).rd v ∧ t.pc = s.pc + 4 ∧ t.fpr = s.fpr ∧
      t.pmem = s.pmem := by
  obtain ⟨o, hmain, hv, hdiv⟩ := tableMain_rvm P h
  have hset : SetsReg P (tableMain P (s.word w)) (s.started (tableMain P (s.word w)))
      (s.word w).rd v := by
    rw [hmain, ← hv]
    exact setsReg_computeReg rfl rfl rfl rfl
  obtain ⟨z, hz⟩ := hset
  obtain ⟨csr, hcsr⟩ := ticked_eq { s.started (tableMain P (s.word w)) with
    gpr := Regs.set (s.started (tableMain P (s.word w))).gpr (s.word w).rd v, zeroNull := z } P
  refine ⟨o, _, congrArg Decode.id hmain, hdiv, executeDecoded_run hz, ?_⟩
  rw [hcsr]
  exact ⟨rfl, tableMain_placed.snpc, rfl, rfl⟩

/-- `divw t0, t0, t1` divides the least 32-bit integer by -1. -/
def leastByMinusOne : Machine :=
  { oddTarget with gpr := fun r => if r = 5 then 0x80000000 else if r = 6 then -1 else 0 }

/-- The quotient is the dividend. -/
theorem dispatch_eq_rv64m_least :
    ∃ o t, (tableMain (Platform.bare .unguided) (leastByMinusOne.word 0x0262c2bb)).id =
        .computeReg o ∧
      execRvm o 0x80000000 (-1) = some 0xffffffff80000000 ∧
      executeDecoded (Platform.bare .unguided)
        (tableMain (Platform.bare .unguided) (leastByMinusOne.word 0x0262c2bb)) leastByMinusOne =
        .ok (tableMain (Platform.bare .unguided) (leastByMinusOne.word 0x0262c2bb)) t ∧
      t.gpr = Regs.set leastByMinusOne.gpr 5 0xffffffff80000000 ∧
      t.pc = leastByMinusOne.pc + 4 ∧ t.fpr = leastByMinusOne.fpr ∧
      t.pmem = leastByMinusOne.pmem :=
  dispatch_eq_rv64m (Platform.bare .unguided) leastByMinusOne 0x0262c2bb rfl

end Selection

end Nemu
