import Nemu.Decode
import Nemu.Formats

namespace Nemu

set_option autoImplicit true

section Rvintrin

def rv64Bset (rs1 rs2 : Word) : Word := rs1 ||| ((1 : Word) <<< (rs2 &&& 63).toNat)

def rv64Bclr (rs1 rs2 : Word) : Word := rs1 &&& ~~~((1 : Word) <<< (rs2 &&& 63).toNat)

def rv64Binv (rs1 rs2 : Word) : Word := rs1 ^^^ ((1 : Word) <<< (rs2 &&& 63).toNat)

def rv64Bext (rs1 rs2 : Word) : Word := 1 &&& rs1.sshiftRight (rs2 &&& 63).toNat

def rv64Sll (rs1 rs2 : Word) : Word := rs1 <<< (rs2 &&& 63).toNat

def rv64Srl (rs1 rs2 : Word) : Word := rs1 >>> (rs2 &&& 63).toNat

def rv64Rol (rs1 rs2 : Word) : Word := rv64Sll rs1 rs2 ||| rv64Srl rs1 (-rs2)

def rv64Ror (rs1 rs2 : Word) : Word := rv64Srl rs1 rs2 ||| rv64Sll rs1 (-rs2)

def rv32Sll (rs1 rs2 : BitVec 32) : BitVec 32 := rs1 <<< (rs2 &&& 31).toNat

def rv32Srl (rs1 rs2 : BitVec 32) : BitVec 32 := rs1 >>> (rs2 &&& 31).toNat

def rv32Rol (rs1 rs2 : BitVec 32) : BitVec 32 := rv32Sll rs1 rs2 ||| rv32Srl rs1 (-rs2)

def rv32Ror (rs1 rs2 : BitVec 32) : BitVec 32 := rv32Srl rs1 rs2 ||| rv32Sll rs1 (-rs2)

end Rvintrin

/-- What the executors of shifts, rotations and single bits write, from `*dsrc1` and, as `src2`,
`*dsrc2` or the immediate. -/
def rvbShift (dsrc1 src2 : Word) : RvbOp → Option Word
  | .rol => some (rv64Rol dsrc1 src2)
  | .rolw => some ((rv32Rol (dsrc1.setWidth 32) (src2.setWidth 32)).signExtend 64)
  | .ror | .rori => some (rv64Ror dsrc1 src2)
  | .rorw | .roriw => some ((rv32Ror (dsrc1.setWidth 32) (src2.setWidth 32)).signExtend 64)
  | .bclr | .bclri => some (rv64Bclr dsrc1 src2)
  | .bset | .bseti => some (rv64Bset dsrc1 src2)
  | .binv | .binvi => some (rv64Binv dsrc1 src2)
  | .bext | .bexti => some (rv64Bext dsrc1 src2)
  | .slliuw => some ((dsrc1.setWidth 32).setWidth 64 <<< (src2 &&& 0x1f).toNat)
  | _ => none

def RvbOp.registerForm : RvbOp → Option RvbOp
  | .rori => some .ror
  | .roriw => some .rorw
  | .bseti => some .bset
  | .bclri => some .bclr
  | .binvi => some .binv
  | .bexti => some .bext
  | _ => none

/-- The shift amount in the encoding of an immediate form. -/
def RvbOp.shamt (f : Fetched) : RvbOp → Nat
  | .roriw => (f.bits 24 20).toNat
  | _ => (f.bits 25 20).toNat

/-- What an immediate form has to write for a shift amount. -/
def RvbOp.immediateValue (rs1 : Word) (shamt : Nat) : RvbOp → Option Word
  | .slliuw => some ((rs1.setWidth 32).setWidth 64 <<< shamt)
  | o => o.registerForm.bind (rvbShift rs1 (BitVec.ofNat 64 shamt))

section Tables

variable {P : Platform} {f : Fetched}

/-- The executors of B and K that get an immediate. -/
def ExecId.isExtImm : ExecId → Bool
  | .rvbImm _ | .rvkImm _ => true
  | _ => false

def ExecId.notExt (id : ExecId) : Bool := !id.isExtImm && id ≠ .rvkReg .aes64ks1i

theorem ExecId.notExt_imm {id : ExecId} (h : id.notExt = true) : id.isExtImm = false := by
  unfold notExt at h
  rw [Bool.and_eq_true, Bool.not_eq_true'] at h
  exact h.1

theorem ExecId.notExt_reg {id : ExecId} (h : id.notExt = true) : id ≠ .rvkReg .aes64ks1i := by
  unfold notExt at h
  rw [Bool.and_eq_true, decide_eq_true_eq] at h
  exact h.2

/-- Only `op_imm` and `op_imm32` have executors of B and K that get an immediate, and those are decoded
in the format I. -/
structure ExtRow (P : Platform) (f : Fetched) (d : Decode) : Prop where
  reg : d.id ≠ .rvkReg .aes64ks1i
  imm : d.id.isExtImm = true → d.src2.imm = f.immI ∧
    (f.opcode = 0b00100 ∧ d.id = tableOpImm P f ∨ f.opcode = 0b00110 ∧ d.id = tableOpImm32 P f)

theorem ExtRow.of_notExt {d : Decode} (h : d.id.notExt = true) : ExtRow P f d := by
  constructor
  · exact ExecId.notExt_reg h
  · intro himm
    rw [ExecId.notExt_imm h] at himm
    cases himm

theorem ExtRow.skip {a b : Decode} [Decidable p] (ha : a.id.notExt = true) (hb : ExtRow P f b) :
    ExtRow P f (if p then a else b) := by
  split
  · exact .of_notExt ha
  · exact hb

theorem tableLoad_notExt : (tableLoad f).notExt = true := by
  unfold tableLoad
  split <;> rfl

theorem tableStore_notExt : (tableStore f).notExt = true := by
  unfold tableStore
  split <;> rfl

theorem tableOpExt_notExt : (tableOpExt P f).notExt = true := by
  unfold tableOpExt
  repeat' apply ExecId.fits_ite (p := ExecId.notExt)
  all_goals rfl

theorem tableOp_notExt : (tableOp P f).notExt = true := by
  unfold tableOp
  repeat' apply ExecId.fits_ite (p := ExecId.notExt)
  all_goals first | exact tableOpExt_notExt | rfl

theorem tableOp32_notExt : (tableOp32 P f).notExt = true := by
  unfold tableOp32
  repeat' apply ExecId.fits_ite (p := ExecId.notExt)
  all_goals rfl

theorem tableRvm_notExt : (tableRvm f).notExt = true := by
  unfold tableRvm
  split <;> rfl

theorem tableRvm32_notExt : (tableRvm32 f).notExt = true := by
  unfold tableRvm32
  split <;> rfl

theorem tableBranch_notExt : (tableBranch f).notExt = true := by
  unfold tableBranch
  repeat' apply ExecId.fits_ite (p := ExecId.notExt)
  all_goals rfl

theorem tableFldst_notExt (ha : a.notExt = true) (hb : b.notExt = true) : (tableFldst P f a b).notExt = true := by
  unfold tableFldst
  repeat' apply ExecId.fits_ite (p := ExecId.notExt)
  all_goals first | exact ha | exact hb | rfl

theorem tableFmaddDispatch_notExt : (tableFmaddDispatch f).notExt = true := by
  unfold tableFmaddDispatch
  dsimp only
  repeat' apply ExecId.fits_ite (p := ExecId.notExt)
  all_goals rfl

theorem tableOpFp_notExt : (tableOpFp f).id.notExt = true := by
  have hite : ∀ {p : Prop} [Decidable p] {a b : Decode}, a.id.notExt = true → b.id.notExt = true →
      (if p then a else b).id.notExt = true := by
    intro p _ a b ha hb
    split
    · exact ha
    · exact hb
  unfold tableOpFp tableOpFpD
  repeat' apply hite
  all_goals rfl

theorem tableOpImm_reg : tableOpImm P f ≠ .rvkReg .aes64ks1i := by
  have h := tableOpImm_fits (P := P) (f := f)
  intro he
  rw [he] at h
  cases h

theorem tableOpImm32_reg : tableOpImm32 P f ≠ .rvkReg .aes64ks1i := by
  have h := tableOpImm32_fits (P := P) (f := f)
  intro he
  rw [he] at h
  cases h

theorem ExtRow.opImm {b : Decode} (hb : ExtRow P f b) :
    ExtRow P f (if f.opcode = 0b00100 then decodeI f (tableOpImm P f) else b) := by
  split
  · next h => exact ⟨tableOpImm_reg, fun _ => ⟨rfl, .inl ⟨h, rfl⟩⟩⟩
  · exact hb

theorem ExtRow.opImm32 {b : Decode} (hb : ExtRow P f b) :
    ExtRow P f (if f.opcode = 0b00110 then decodeI f (tableOpImm32 P f) else b) := by
  split
  · next h => exact ⟨tableOpImm32_reg, fun _ => ⟨rfl, .inr ⟨h, rfl⟩⟩⟩
  · exact hb

theorem tableMain_extRow : ExtRow P f (tableMain P f) := by
  have hfence : (tableMemFence f).notExt = true := ExecId.fits_ite rfl (ExecId.fits_ite rfl rfl)
  have hatomic : (tableAtomic P f).notExt = true := ExecId.fits_ite (ExecId.fits_ite rfl rfl) rfl
  have hjal : (tableJalDispatch f).notExt = true := ExecId.fits_ite rfl (ExecId.fits_ite rfl rfl)
  have hjalr : (tableJalrDispatch f).notExt = true :=
    ExecId.fits_ite rfl (ExecId.fits_ite rfl (ExecId.fits_ite rfl rfl))
  have hsystem : (tableSystem P f).notExt = true := ExecId.fits_ite rfl rfl
  unfold tableMain
  exact .skip tableLoad_notExt <| .skip (tableFldst_notExt rfl rfl) <| .skip rfl <| .skip rfl <|
    .skip hfence <| .opImm <| .skip rfl <| .opImm32 <| .skip tableStore_notExt <|
    .skip (tableFldst_notExt rfl rfl) <| .skip hatomic <| .skip tableRvm_notExt <| .skip tableOp_notExt <|
    .skip rfl <| .skip tableRvm32_notExt <| .skip tableOp32_notExt <| .skip tableFmaddDispatch_notExt <|
    .skip tableOpFp_notExt <| .skip rfl <| .skip tableBranch_notExt <| .skip hjalr <| .skip rfl <|
    .skip hjal <| .skip hsystem <| .of_notExt rfl

end Tables

section Masks

variable {x y : Word} {n : Nat}

theorem and_mask (x : BitVec n) (k : Nat) : x &&& BitVec.ofNat n (2 ^ k - 1) = (x.setWidth k).setWidth n := by
  apply BitVec.eq_of_getLsbD_eq
  intro i hi
  rw [BitVec.getLsbD_and, BitVec.getLsbD_ofNat, Nat.testBit_two_pow_sub_one, BitVec.getLsbD_setWidth,
    BitVec.getLsbD_setWidth, decide_eq_true hi, Bool.true_and, Bool.true_and, Bool.and_comm]

theorem and_63_congr (h : x.setWidth 6 = y.setWidth 6) : x &&& 63 = y &&& 63 := by
  have hmask : ∀ z : Word, z &&& 63 = (z.setWidth 6).setWidth 64 := fun z => and_mask z 6
  rw [hmask, hmask, h]

theorem and_31_congr {x y : BitVec 32} (h : x.setWidth 5 = y.setWidth 5) : x &&& 31 = y &&& 31 := by
  have hmask : ∀ z : BitVec 32, z &&& 31 = (z.setWidth 5).setWidth 32 := fun z => and_mask z 5
  rw [hmask, hmask, h]

theorem rv64Ror_congr (rs1 : Word) (h : x.setWidth 6 = y.setWidth 6) : rv64Ror rs1 x = rv64Ror rs1 y := by
  have hneg : (-x).setWidth 6 = (-y).setWidth 6 := by
    rw [BitVec.setWidth_neg_of_le (by decide), BitVec.setWidth_neg_of_le (by decide), h]
  unfold rv64Ror rv64Srl rv64Sll
  rw [and_63_congr h, and_63_congr hneg]

theorem rv32Ror_congr (rs1 : BitVec 32) {x y : BitVec 32} (h : x.setWidth 5 = y.setWidth 5) :
    rv32Ror rs1 x = rv32Ror rs1 y := by
  have hneg : (-x).setWidth 5 = (-y).setWidth 5 := by
    rw [BitVec.setWidth_neg_of_le (by decide), BitVec.setWidth_neg_of_le (by decide), h]
  unfold rv32Ror rv32Srl rv32Sll
  rw [and_31_congr h, and_31_congr hneg]

theorem eq_zero_of_mul_mod {v : Nat} (h : v = v * 2 ^ 32 % 2 ^ 64) : v = 0 := by
  have hpow : 2 ^ 64 = 2 ^ 32 * 2 ^ 32 := rfl
  have hv : v = v % 2 ^ 32 * 2 ^ 32 := by
    rw [hpow, Nat.mul_mod_mul_right] at h
    exact h
  have hmod : v % 2 ^ 32 = 0 := by
    rw [hv, Nat.mul_mod_left]
  rw [hmod, Nat.zero_mul] at hv
  exact hv

/-- Shifting a 32-bit value by 32 less gives the same only for zero. -/
theorem shiftLeft_less_iff (a : BitVec 32) (h : n < 64) :
    a.setWidth 64 <<< (n % 32) = a.setWidth 64 <<< n ↔ n < 32 ∨ a = 0 := by
  rcases Nat.lt_or_ge n 32 with hlt | hge
  · rw [Nat.mod_eq_of_lt hlt]
    exact ⟨fun _ => .inl hlt, fun _ => rfl⟩
  · have hmod : n % 32 = n - 32 := by omega
    rw [hmod]
    constructor
    · intro heq
      have hnat := congrArg BitVec.toNat heq
      rw [BitVec.toNat_shiftLeft, BitVec.toNat_shiftLeft, BitVec.toNat_setWidth, Nat.shiftLeft_eq, Nat.shiftLeft_eq]
        at hnat
      have ha : a.toNat % 2 ^ 64 = a.toNat := Nat.mod_eq_of_lt (Nat.lt_trans a.isLt (by decide))
      have hpow : 2 ^ n = 2 ^ (n - 32) * 2 ^ 32 := by
        rw [← Nat.pow_add]
        congr 1
        omega
      rw [ha, hpow, ← Nat.mul_assoc] at hnat
      have hsmall : a.toNat * 2 ^ (n - 32) < 2 ^ 64 := by
        calc a.toNat * 2 ^ (n - 32) < 2 ^ 32 * 2 ^ (n - 32) :=
              Nat.mul_lt_mul_of_pos_right a.isLt (Nat.two_pow_pos _)
          _ = 2 ^ (32 + (n - 32)) := (Nat.pow_add 2 32 (n - 32)).symm
          _ ≤ 2 ^ 64 := Nat.pow_le_pow_right (by decide) (by omega)
      -- the left side has no bit from 2 ^ 64 on, the right side none below 2 ^ 32
      have hzero : a.toNat * 2 ^ (n - 32) = 0 := by
        rw [Nat.mod_eq_of_lt hsmall] at hnat
        exact eq_zero_of_mul_mod hnat
      rcases Nat.mul_eq_zero.mp hzero with h0 | h0
      · exact .inr (BitVec.eq_of_toNat_eq h0)
      · exact absurd h0 (Nat.ne_of_gt (Nat.two_pow_pos _))
    · intro hcase
      rcases hcase with hlt | rfl
      · exact absurd hlt (Nat.not_lt.mpr hge)
      · have hzero : (0 : BitVec 32).setWidth 64 = 0#64 := rfl
        rw [hzero, BitVec.zero_shiftLeft, BitVec.zero_shiftLeft]

end Masks

section Immediates

variable {P : Platform} {f : Fetched}

theorem immI_low {k : Nat} (hk : k ≤ 12) : f.immI.setWidth k = f.instr.extractLsb' 20 k := by
  apply BitVec.eq_of_getLsbD_eq
  intro i hi
  have h12 : i < 12 := Nat.lt_of_lt_of_le hi hk
  have h64 : i < 64 := by omega
  unfold Fetched.immI Fetched.bits
  rw [BitVec.getLsbD_setWidth, BitVec.getLsbD_signExtend, BitVec.getLsbD_extractLsb', BitVec.getLsbD_extractLsb',
    if_pos h12, decide_eq_true hi, decide_eq_true h64, decide_eq_true h12]
  rfl

theorem setWidth_ofNat_toNat {k : Nat} (b : BitVec k) (h : k ≤ 64) :
    (BitVec.ofNat 64 b.toNat).setWidth k = b := by
  rw [BitVec.ofNat_toNat, BitVec.setWidth_setWidth_of_le _ h, BitVec.setWidth_eq]

/-- The immediate and a register that holds the amount agree where the executors look. -/
theorem immI_shamt : f.immI.setWidth 6 = (BitVec.ofNat 64 (f.bits 25 20).toNat).setWidth 6 := by
  have h := setWidth_ofNat_toNat (f.bits 25 20) (by decide)
  exact (immI_low (by decide)).trans h.symm

theorem immI_shamtW :
    (f.immI.setWidth 32).setWidth 5 = ((BitVec.ofNat 64 (f.bits 24 20).toNat).setWidth 32).setWidth 5 := by
  have h := setWidth_ofNat_toNat (f.bits 24 20) (by decide)
  rw [BitVec.setWidth_setWidth_of_le _ (by decide), BitVec.setWidth_setWidth_of_le _ (by decide)]
  exact (immI_low (by decide)).trans h.symm

theorem slliuw_amount : (f.immI &&& 0x1f).toNat = (f.bits 25 20).toNat % 32 := by
  have hmask : f.immI &&& 0x1f = (f.immI.setWidth 5).setWidth 64 := and_mask f.immI 5
  have hlow : f.immI.setWidth 5 = (f.immI.setWidth 6).setWidth 5 :=
    (BitVec.setWidth_setWidth_of_le f.immI (by decide)).symm
  have h6 : f.immI.setWidth 6 = f.bits 25 20 := immI_low (by decide)
  rw [hmask, hlow, h6, BitVec.toNat_setWidth, BitVec.toNat_setWidth]
  omega

/-- The instructions on an immediate that the register forms, or `zext32`, describe. -/
def RvbOp.shiftsImmediate (o : RvbOp) : Bool := o.registerForm.isSome || o = .slliuw

theorem immediate_exact_iff (P : Platform) (f : Fetched) (rs1 : Word) (o : RvbOp)
    (ho : o.shiftsImmediate = true) (hd : (tableMain P f).id = .rvbImm o) :
    rvbShift rs1 (tableMain P f).src2.imm o = o.immediateValue rs1 (o.shamt f) ↔
      (o = .slliuw → o.shamt f < 32 ∨ rs1.setWidth 32 = 0) := by
  have himm : (tableMain P f).src2.imm = f.immI := by
    apply And.left
    apply tableMain_extRow.imm
    rw [hd]
    rfl
  rw [himm]
  have hlow := immI_shamt (f := f)
  cases o <;> try cases ho
  case rori =>
    have h : rvbShift rs1 f.immI .rori = RvbOp.immediateValue rs1 (RvbOp.shamt f .rori) .rori :=
      congrArg some (rv64Ror_congr rs1 hlow)
    exact ⟨fun _ => RvbOp.noConfusion, fun _ => h⟩
  case roriw =>
    have h : rvbShift rs1 f.immI .roriw = RvbOp.immediateValue rs1 (RvbOp.shamt f .roriw) .roriw :=
      congrArg (fun r => some (BitVec.signExtend 64 r)) (rv32Ror_congr _ immI_shamtW)
    exact ⟨fun _ => RvbOp.noConfusion, fun _ => h⟩
  case slliuw =>
    have hlt : (f.bits 25 20).toNat < 64 := (f.bits 25 20).isLt
    have hiff := shiftLeft_less_iff (rs1.setWidth 32) hlt
    unfold rvbShift RvbOp.immediateValue RvbOp.shamt
    dsimp only
    rw [slliuw_amount, Option.some_inj, hiff]
    exact ⟨fun h _ => h, fun h => h rfl⟩
  all_goals
    have hmask := and_63_congr hlow
    refine ⟨fun _ => RvbOp.noConfusion, fun _ => ?_⟩
    simp only [rvbShift, RvbOp.immediateValue, RvbOp.registerForm, RvbOp.shamt, Option.bind_some, rv64Bset, rv64Bclr,
      rv64Binv, rv64Bext, hmask]

/-- An instruction on an immediate, `rd` and `rs1` being `a0`. -/
def immediateWord (imm : BitVec 12) (funct3 : BitVec 3) (opcode : BitVec 7) : Fetched :=
  ⟨0x80000000, 0x80000004, imm ++ 10#5 ++ funct3 ++ 10#5 ++ opcode, .direct, false⟩

/-- `rori a0, a0, 40` and `ror` with 40 in `rs2`. -/
theorem immediate_exact_rori :
    rvbShift 0x123456789abcdef0
        (tableMain (.bare .standalone) (immediateWord 0b011000101000 5 0b0010011)).src2.imm .rori =
      rvbShift 0x123456789abcdef0 40 .ror :=
  (immediate_exact_iff (.bare .standalone) (immediateWord 0b011000101000 5 0b0010011) 0x123456789abcdef0 .rori
    rfl (by decide)).mpr RvbOp.noConfusion

/-- `slli.uw a0, a0, 32`, which the decoder accepts, leaves a 1 where it is. -/
theorem slliuw_narrow :
    let f := immediateWord 0b000010100000 1 0b0011011
    (tableMain (.bare .standalone) f).id = .rvbImm .slliuw ∧
      rvbShift 1 (tableMain (.bare .standalone) f).src2.imm .slliuw = some 1 ∧
      RvbOp.immediateValue 1 (RvbOp.shamt f .slliuw) .slliuw = some 0x100000000 := by
  decide

end Immediates

end Nemu
