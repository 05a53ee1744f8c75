import Nemu.Exec

namespace Nemu

set_option autoImplicit true

/-- What the decoder looks at: the instruction, its place, the MMU mode of data accesses and
whether the FPU is on. -/
structure Fetched where
  pc : Word
  snpc : Word
  instr : BitVec 32
  mmuMode : MmuMode
  fpEnable : Bool

namespace Fetched

def bits (f : Fetched) (hi lo : Nat) : BitVec (hi - lo + 1) := f.instr.extractLsb' lo (hi - lo + 1)

def opcode (f : Fetched) : BitVec 5 := f.bits 6 2

def rd (f : Fetched) : BitVec 5 := f.bits 11 7

def funct3 (f : Fetched) : BitVec 3 := f.bits 14 12

def rs1 (f : Fetched) : BitVec 5 := f.bits 19 15

def rs2 (f : Fetched) : BitVec 5 := f.bits 24 20

def funct7 (f : Fetched) : BitVec 7 := f.bits 31 25

/-- The upper six bits, for the shifts by a six-bit immediate. -/
def funct6 (f : Fetched) : BitVec 6 := f.bits 31 26

def immI (f : Fetched) : Word := (f.bits 31 20).signExtend 64

def immS (f : Fetched) : Word := (f.bits 31 25 ++ f.bits 11 7).signExtend 64

def immB (f : Fetched) : Word :=
  (f.bits 31 31 ++ f.bits 7 7 ++ f.bits 30 25 ++ f.bits 11 8 ++ 0#1).signExtend 64

def immU (f : Fetched) : Word := (f.bits 31 12 ++ 0#12).signExtend 64

def immJ (f : Fetched) : Word :=
  (f.bits 31 31 ++ f.bits 19 12 ++ f.bits 20 20 ++ f.bits 30 21 ++ 0#1).signExtend 64

def immDasicscall (f : Fetched) : Word :=
  (f.bits 31 31 ++ f.bits 7 7 ++ f.bits 20 15 ++ f.bits 11 8 ++ f.bits 30 21 ++ 0#1).signExtend 64

end Fetched

def decodeOpI (val : Word) : Operand := ⟨.zeroNull, val⟩

/-- `load_val` is set for sources; a destination `x0` is redirected to `zero_null`. -/
def decodeOpR (r : BitVec 5) (loadVal : Bool) : Operand :=
  ⟨if !loadVal && r = 0 then .zeroNull else .gpr r, 0⟩

def decodeOpFr (r : BitVec 5) : Operand := ⟨.fpr r, 0⟩

/-- An operand that the decode helper leaves alone. -/
def decodeOpEmpty : Operand := ⟨.zeroNull, 0⟩

section Helpers

variable (f : Fetched) (id : ExecId)

def decodeEmpty : Decode := ⟨f.pc, f.snpc, f.instr, id, decodeOpEmpty, decodeOpEmpty, decodeOpEmpty⟩

def decodeI : Decode :=
  ⟨f.pc, f.snpc, f.instr, id, decodeOpR f.rd false, decodeOpR f.rs1 true, decodeOpI f.immI⟩

def decodeR : Decode :=
  ⟨f.pc, f.snpc, f.instr, id, decodeOpR f.rd false, decodeOpR f.rs1 true, decodeOpR f.rs2 true⟩

def decodeU : Decode :=
  ⟨f.pc, f.snpc, f.instr, id, decodeOpR f.rd false, decodeOpI f.immU, decodeOpEmpty⟩

def decodeAuipc : Decode :=
  ⟨f.pc, f.snpc, f.instr, id, decodeOpR f.rd false, decodeOpI (f.immU + f.pc), decodeOpEmpty⟩

def decodeJ : Decode :=
  ⟨f.pc, f.snpc, f.instr, id, decodeOpR f.rd false, decodeOpI (f.pc + f.immJ), decodeOpI f.snpc⟩

def decodeB : Decode :=
  ⟨f.pc, f.snpc, f.instr, id, decodeOpI (f.pc + f.immB), decodeOpR f.rs1 true,
    decodeOpR f.rs2 true⟩

def decodeS : Decode :=
  ⟨f.pc, f.snpc, f.instr, id, decodeOpR f.rs2 true, decodeOpR f.rs1 true, decodeOpI f.immS⟩

def decodeDasicscallJ : Decode :=
  ⟨f.pc, f.snpc, f.instr, id, decodeOpR 1 false, decodeOpI (f.pc + f.immDasicscall),
    decodeOpI f.snpc⟩

def decodeCsr : Decode :=
  ⟨f.pc, f.snpc, f.instr, id, decodeOpR f.rd false, decodeOpR f.rs1 true,
    decodeOpI ((f.bits 31 20).setWidth 64)⟩

def decodeFr : Decode :=
  ⟨f.pc, f.snpc, f.instr, id, decodeOpFr f.rd, decodeOpFr f.rs1, decodeOpFr f.rs2⟩

def decodeFr2r : Decode :=
  ⟨f.pc, f.snpc, f.instr, id, decodeOpR f.rd false, decodeOpFr f.rs1, decodeOpFr f.rs2⟩

def decodeR2fr : Decode :=
  ⟨f.pc, f.snpc, f.instr, id, decodeOpFr f.rd, decodeOpR f.rs1 true, decodeOpR f.rs2 true⟩

def decodeFload : Decode :=
  ⟨f.pc, f.snpc, f.instr, id, decodeOpFr f.rd, decodeOpR f.rs1 true, decodeOpI f.immI⟩

def decodeFstore : Decode :=
  ⟨f.pc, f.snpc, f.instr, id, decodeOpFr f.rs2, decodeOpR f.rs1 true, decodeOpI f.immS⟩

end Helpers

section Tables

variable (P : Platform) (f : Fetched)

def tableLoad : ExecId :=
  match f.funct3.toNat with
  | 0 => .load true 1 f.mmuMode
  | 1 => .load true 2 f.mmuMode
  | 2 => .load true 4 f.mmuMode
  | 3 => .load true 8 f.mmuMode
  | 4 => .load false 1 f.mmuMode
  | 5 => .load false 2 f.mmuMode
  | 6 => .load false 4 f.mmuMode
  | _ => .inv

def tableStore : ExecId :=
  match f.funct3.toNat with
  | 0 => .store 1 f.mmuMode
  | 1 => .store 2 f.mmuMode
  | 2 => .store 4 f.mmuMode
  | 3 => .store 8 f.mmuMode
  | _ => .inv

/-- `c_addi_dispatch`, on the immediate. -/
def tableCAddiDispatch (imm : Word) : ExecId :=
  if imm = 1 then .p_inc else if imm = -1 then .p_dec else .compressedImm .add

def tableAddiDispatch : ExecId :=
  if f.bits 31 20 = 0 ∧ f.rs1 = 0 then .p_li_0
  else if f.bits 31 20 = 1 ∧ f.rs1 = 0 then .p_li_1
  else if f.rs1 = 0 then .c_li
  else if f.bits 31 20 = 0 then .c_mv
  else .computeImm .add

/-- The rows of `op_imm` for the extensions B and K. -/
def tableOpImmExt : ExecId :=
  if P.rvb ∧ f.funct6 = 0b001010 ∧ f.funct3 = 1 then .rvbImm .bseti
  else if P.rvb ∧ f.bits 31 20 = 0b001010000111 ∧ f.funct3 = 5 then .rvbImm .orc_b
  else if P.rvb ∧ f.funct6 = 0b010010 ∧ f.funct3 = 1 then .rvbImm .bclri
  else if P.rvb ∧ f.funct6 = 0b010010 ∧ f.funct3 = 5 then .rvbImm .bexti
  else if P.rvb ∧ f.bits 31 20 = 0b011000000000 ∧ f.funct3 = 1 then .rvbImm .clz
  else if P.rvb ∧ f.bits 31 20 = 0b011000000001 ∧ f.funct3 = 1 then .rvbImm .ctz
  else if P.rvb ∧ f.bits 31 20 = 0b011000000010 ∧ f.funct3 = 1 then .rvbImm .cpop
  else if P.rvb ∧ f.bits 31 20 = 0b011000000100 ∧ f.funct3 = 1 then .rvbImm .sext_b
  else if P.rvb ∧ f.bits 31 20 = 0b011000000101 ∧ f.funct3 = 1 then .rvbImm .sext_h
  else if P.rvb ∧ f.funct6 = 0b011000 ∧ f.funct3 = 5 then .rvbImm .rori
  else if P.rvb ∧ f.funct6 = 0b011010 ∧ f.funct3 = 1 then .rvbImm .binvi
  else if P.rvb ∧ f.bits 31 20 = 0b011010111000 ∧ f.funct3 = 5 then .rvbImm .rev8
  else if P.rvb ∧ f.bits 31 20 = 0b011010000111 ∧ f.funct3 = 5 then .rvbImm .revb
  else if P.rvk ∧ f.bits 31 20 = 0b001100000000 ∧ f.funct3 = 1 then .rvkImm .aes64im
  else if P.rvk ∧ f.bits 31 24 = 0b00110001 ∧ f.funct3 = 1 then .rvkImm .aes64ks1i
  else if P.rvk ∧ f.bits 31 20 = 0b000100000000 ∧ f.funct3 = 1 then .rvkImm .sha256sum0
  else if P.rvk ∧ f.bits 31 20 = 0b000100000001 ∧ f.funct3 = 1 then .rvkImm .sha256sum1
  else if P.rvk ∧ f.bits 31 20 = 0b000100000010 ∧ f.funct3 = 1 then .rvkImm .sha256sig0
  else if P.rvk ∧ f.bits 31 20 = 0b000100000011 ∧ f.funct3 = 1 then .rvkImm .sha256sig1
  else if P.rvk ∧ f.bits 31 20 = 0b000100000100 ∧ f.funct3 = 1 then .rvkImm .sha512sum0
  else if P.rvk ∧ f.bits 31 20 = 0b000100000101 ∧ f.funct3 = 1 then .rvkImm .sha512sum1
  else if P.rvk ∧ f.bits 31 20 = 0b000100000110 ∧ f.funct3 = 1 then .rvkImm .sha512sig0
  else if P.rvk ∧ f.bits 31 20 = 0b000100000111 ∧ f.funct3 = 1 then .rvkImm .sha512sig1
  else if P.rvk ∧ f.bits 31 20 = 0b000100001000 ∧ f.funct3 = 1 then .rvkImm .sm3p0
  else if P.rvk ∧ f.bits 31 20 = 0b000100001001 ∧ f.funct3 = 1 then .rvkImm .sm3p1
  else .inv

def tableOpImm : ExecId :=
  let same := f.rd = f.rs1
  if same ∧ f.funct3 = 0 then tableCAddiDispatch f.immI
  else if same ∧ f.funct3 = 7 then .compressedImm .and
  else if same ∧ f.funct6 = 0 ∧ f.funct3 = 1 then .compressedImm .shl
  else if same ∧ f.funct6 = 0b010000 ∧ f.funct3 = 5 then .compressedImm .sar
  else if same ∧ f.funct6 = 0 ∧ f.funct3 = 5 then .compressedImm .shr
  else if f.funct3 = 0 then tableAddiDispatch f
  else if f.funct3 = 2 then .computeImm .slt
  else if f.funct3 = 3 then .computeImm .sltu
  else if f.funct3 = 4 then .computeImm .xor
  else if f.funct3 = 6 then .computeImm .or
  else if f.funct3 = 7 then .computeImm .and
  else if f.funct6 = 0 ∧ f.funct3 = 1 then .computeImm .shl
  else if f.funct6 = 0 ∧ f.funct3 = 5 then .computeImm .shr
  else if f.funct6 = 0b010000 ∧ f.funct3 = 5 then .computeImm .sar
  else tableOpImmExt P f

def tableOpImm32 : ExecId :=
  if f.rd = f.rs1 ∧ f.rd ≠ 0 ∧ f.funct3 = 0 then .compressedImm .addw
  else if f.bits 31 20 = 0 ∧ f.funct3 = 0 then .p_sext_w
  else if f.funct3 = 0 then .computeImm .addw
  else if f.funct7 = 0 ∧ f.funct3 = 1 then .computeImm .shlw
  else if f.funct7 = 0 ∧ f.funct3 = 5 then .computeImm .shrw
  else if f.funct7 = 0b0100000 ∧ f.funct3 = 5 then .computeImm .sarw
  else if P.rvb ∧ f.funct6 = 0b000010 ∧ f.funct3 = 1 then .rvbImm .slliuw
  else if P.rvb ∧ f.bits 31 20 = 0b011000000000 ∧ f.funct3 = 1 then .rvbImm .clzw
  else if P.rvb ∧ f.bits 31 20 = 0b011000000001 ∧ f.funct3 = 1 then .rvbImm .ctzw
  else if P.rvb ∧ f.bits 31 20 = 0b011000000010 ∧ f.funct3 = 1 then .rvbImm .cpopw
  else if P.rvb ∧ f.funct7 = 0b0110000 ∧ f.funct3 = 5 then .rvbImm .roriw
  else .inv

/-- The rows of `op` for the extensions B and K. -/
def tableOpExt : ExecId :=
  let row (f7 : BitVec 7) (f3 : BitVec 3) : Prop := f.funct7 = f7 ∧ f.funct3 = f3
  if P.rvb ∧ row 0b0000101 1 then .rvbReg .clmul
  else if P.rvb ∧ row 0b0000101 2 then .rvbReg .clmulr
  else if P.rvb ∧ row 0b0000101 3 then .rvbReg .clmulh
  else if P.rvb ∧ row 0b0000101 4 then .rvbReg .min
  else if P.rvb ∧ row 0b0000101 5 then .rvbReg .minu
  else if P.rvb ∧ row 0b0000101 6 then .rvbReg .max
  else if P.rvb ∧ row 0b0000101 7 then .rvbReg .maxu
  else if P.rvb ∧ row 0b0010000 2 then .rvbReg .sh1add
  else if P.rvb ∧ row 0b0010000 4 then .rvbReg .sh2add
  else if P.rvb ∧ row 0b0010000 6 then .rvbReg .sh3add
  else if P.rvb ∧ row 0b0010100 1 then .rvbReg .bset
  else if P.rvb ∧ row 0b0100000 4 then .rvbReg .xnor
  else if P.rvb ∧ row 0b0100000 6 then .rvbReg .orn
  else if P.rvb ∧ row 0b0100000 7 then .rvbReg .andn
  else if P.rvb ∧ row 0b0100100 1 then .rvbReg .bclr
  else if P.rvb ∧ row 0b0100100 5 then .rvbReg .bext
  else if P.rvb ∧ row 0b0110000 1 then .rvbReg .rol
  else if P.rvb ∧ row 0b0110000 5 then .rvbReg .ror
  else if P.rvb ∧ row 0b0110100 1 then .rvbReg .binv
  else if P.rvb ∧ row 0b0000100 4 then .rvbReg .pack
  else if P.rvb ∧ row 0b0000100 7 then .rvbReg .packh
  else if P.rvb ∧ row 0b0010100 2 then .rvbReg .xpermn
  else if P.rvb ∧ row 0b0010100 4 then .rvbReg .xpermb
  else if P.rvk ∧ row 0b0011001 0 then .rvkReg .aes64es
  else if P.rvk ∧ row 0b0011011 0 then .rvkReg .aes64esm
  else if P.rvk ∧ row 0b0011101 0 then .rvkReg .aes64ds
  else if P.rvk ∧ row 0b0011111 0 then .rvkReg .aes64dsm
  else if P.rvk ∧ row 0b0111111 0 then .rvkReg .aes64ks2
  else if P.rvk ∧ f.bits 29 25 = 0b11000 ∧ f.funct3 = 0 then .rvkReg .sm4ed
  else if P.rvk ∧ f.bits 29 25 = 0b11010 ∧ f.funct3 = 0 then .rvkReg .sm4ks
  else .inv

def tableOp : ExecId :=
  let row (f7 : BitVec 7) (f3 : BitVec 3) : Prop := f.funct7 = f7 ∧ f.funct3 = f3
  let same := f.rd = f.rs1
  if same ∧ row 0 0 then .compressedReg .add
  else if same ∧ row 0b0100000 0 then .compressedReg .sub
  else if same ∧ row 0 4 then .compressedReg .xor
  else if same ∧ row 0 6 then .compressedReg .or
  else if same ∧ row 0 7 then .compressedReg .and
  else if row 0 0 then .computeReg .add
  else if row 0 1 then .computeReg .shl
  else if row 0 2 then .computeReg .slt
  else if row 0 3 then .computeReg .sltu
  else if row 0 4 then .computeReg .xor
  else if row 0 5 then .computeReg .shr
  else if row 0 6 then .computeReg .or
  else if row 0 7 then .computeReg .and
  else if row 0b0100000 0 then .computeReg .sub
  else if row 0b0100000 5 then .computeReg .sar
  else tableOpExt P f

def tableOp32 : ExecId :=
  let row (f7 : BitVec 7) (f3 : BitVec 3) : Prop := f.funct7 = f7 ∧ f.funct3 = f3
  let same := f.rd = f.rs1
  if same ∧ row 0 0 then .compressedReg .addw
  else if same ∧ row 0b0100000 0 then .compressedReg .subw
  else if row 0 0 then .computeReg .addw
  else if row 0b0100000 0 then .computeReg .subw
  else if row 0 1 then .computeReg .shlw
  else if row 0 5 then .computeReg .shrw
  else if row 0b0100000 5 then .computeReg .sarw
  else if P.rvb ∧ row 0b0000100 0 then .rvbReg .adduw
  else if P.rvb ∧ row 0b0010000 2 then .rvbReg .sh1adduw
  else if P.rvb ∧ row 0b0010000 4 then .rvbReg .sh2adduw
  else if P.rvb ∧ row 0b0010000 6 then .rvbReg .sh3adduw
  else if P.rvb ∧ row 0b0110000 1 then .rvbReg .rolw
  else if P.rvb ∧ row 0b0110000 5 then .rvbReg .rorw
  else if P.rvb ∧ row 0b0000100 4 then .rvbReg .packw
  else .inv

def tableRvm : ExecId :=
  match f.funct3.toNat with
  | 0 => .computeReg .mul
  | 1 => .computeReg .mulh
  | 2 => .computeReg .mulhsu
  | 3 => .computeReg .mulhu
  | 4 => .computeReg .div
  | 5 => .computeReg .divu
  | 6 => .computeReg .rem
  | _ => .computeReg .remu

def tableRvm32 : ExecId :=
  match f.funct3.toNat with
  | 0 => .computeReg .mulw
  | 4 => .computeReg .divw
  | 5 => .computeReg .divuw
  | 6 => .computeReg .remw
  | 7 => .computeReg .remuw
  | _ => .inv

def tableBranch : ExecId :=
  if f.rs2 = 0 ∧ f.funct3 = 0 then .c_beqz
  else if f.rs2 = 0 ∧ f.funct3 = 1 then .c_bnez
  else if f.rs2 = 0 ∧ f.funct3 = 4 then .p_bltz
  else if f.rs2 = 0 ∧ f.funct3 = 5 then .p_bgez
  else if f.rs1 = 0 ∧ f.funct3 = 4 then .p_bgtz
  else if f.rs1 = 0 ∧ f.funct3 = 5 then .p_blez
  else if f.funct3 = 0 then .branch .EQ
  else if f.funct3 = 1 then .branch .NE
  else if f.funct3 = 4 then .branch .LT
  else if f.funct3 = 5 then .branch .GE
  else if f.funct3 = 6 then .branch .LTU
  else if f.funct3 = 7 then .branch .GEU
  else .inv

def tableJalDispatch : ExecId :=
  if f.rd = 0 then .c_j else if f.rd = 1 then .p_jal else .jal

def tableJalrDispatch : ExecId :=
  if f.bits 31 20 = 0 ∧ f.rs1 = 1 ∧ f.rd = 0 then .p_ret
  else if f.bits 31 20 = 0 ∧ f.rd = 0 then .c_jr
  else if f.funct3 = 0 then .jalr
  else .inv

def tableMemFence : ExecId :=
  if f.funct3 = 0 then .fence else if f.funct3 = 1 then .fence_i else .inv

/-- Without DEBUG and SHARE every word of the major opcode is accepted. -/
def tableAtomic : ExecId :=
  let funct5 := f.bits 31 27
  let row := (funct5 = 0b00010 ∧ f.rs2 = 0) ∨ funct5 = 0b00011 ∨ funct5 = 0b00001 ∨
    funct5 = 0b00000 ∨ funct5 = 0b00100 ∨ funct5 = 0b01100 ∨ funct5 = 0b01000 ∨
    funct5 = 0b10000 ∨ funct5 = 0b10100 ∨ funct5 = 0b11000 ∨ funct5 = 0b11100
  if P.debug ∨ P.share then if row ∧ (f.funct3 = 2 ∨ f.funct3 = 3) then .atomic else .inv
  else .atomic

/-- Without DEBUG every word of the major opcode is accepted. -/
def tableSystem : ExecId :=
  let noRegs := f.rs1 = 0 ∧ f.funct3 = 0 ∧ f.rd = 0
  let csr : BitVec 12 := f.bits 31 20
  let plain := noRegs ∧ (csr = 0 ∨ (P.rvDebug ∧ csr = 1) ∨ csr = 0x102 ∨ csr = 0x105 ∨
    (P.rvn ∧ csr = 0x002) ∨ csr = 0x302 ∨ (P.svinval ∧ (csr = 0x180 ∨ csr = 0x181)))
  let fence := f.funct3 = 0 ∧ f.rd = 0 ∧
    (f.funct7 = 0b0001001 ∨ (P.svinval ∧ f.funct7 = 0b0001011))
  let csrOp := f.funct3 ≠ 0 ∧ f.funct3 ≠ 4
  if P.debug = false ∨ plain ∨ fence ∨ csrOp then .system else .inv

/-- Vector loads and stores share the major opcodes of the FP ones. `vp_enable` is always true. -/
def tableFldst (single double : ExecId) : ExecId :=
  if f.fpEnable ∧ f.funct3 = 2 then single
  else if f.fpEnable ∧ f.funct3 = 3 then double
  else if P.rvv ∧ (f.funct3 = 0 ∨ f.funct3 = 5 ∨ f.funct3 = 6 ∨ f.funct3 = 7) then .vector f.mmuMode
  else .inv

def tableFload : ExecId := tableFldst P f (.fload .W32 f.mmuMode) (.fload .W64 f.mmuMode)

def tableFstore : ExecId := tableFldst P f (.fstore .W32 f.mmuMode) (.fstore .W64 f.mmuMode)

def tableOpFpD : Decode :=
  let funct5 := f.bits 31 27
  if funct5 = 0b00000 then decodeFr f (.fop .ADD .W64)
  else if funct5 = 0b00001 then decodeFr f (.fop .SUB .W64)
  else if funct5 = 0b00010 then decodeFr f (.fop .MUL .W64)
  else if funct5 = 0b00011 then decodeFr f (.fop .DIV .W64)
  else if funct5 = 0b01011 ∧ f.rs2 = 0 then decodeFr f (.funary .SQRT .W64 .W64)
  else if funct5 = 0b00100 ∧ f.funct3 = 0 then decodeFr f (.fsgnj .W64)
  else if funct5 = 0b00100 ∧ f.funct3 = 1 then decodeFr f (.fsgnjn .W64)
  else if funct5 = 0b00100 ∧ f.funct3 = 2 then decodeFr f (.fsgnjx .W64)
  else if funct5 = 0b00101 ∧ f.funct3 = 0 then decodeFr f (.fop .MIN .W64)
  else if funct5 = 0b00101 ∧ f.funct3 = 1 then decodeFr f (.fop .MAX .W64)
  else if f.funct7 = 0b0100000 ∧ f.rs2 = 1 then decodeFr f (.funary .F64ToF32 .W64 .W32)
  else if f.funct7 = 0b0100001 ∧ f.rs2 = 0 then decodeFr f (.funary .F32ToF64 .W64 .W64)
  else if funct5 = 0b10100 ∧ f.funct3 = 2 then decodeFr2r f (.fcmp .EQ .W64)
  else if funct5 = 0b10100 ∧ f.funct3 = 1 then decodeFr2r f (.fcmp .LT .W64)
  else if funct5 = 0b10100 ∧ f.funct3 = 0 then decodeFr2r f (.fcmp .LE .W64)
  else if funct5 = 0b11100 ∧ f.rs2 = 0 ∧ f.funct3 = 1 then decodeFr2r f (.fclass .W64)
  else if funct5 = 0b11000 ∧ f.rs2 = 0 then decodeFr2r f (.fcvtToI .FToI32 .W64)
  else if funct5 = 0b11000 ∧ f.rs2 = 1 then decodeFr2r f (.fcvtToI .FToU32 .W64)
  else if funct5 = 0b11010 ∧ f.rs2 = 0 then decodeR2fr f (.funary .I32ToF .W64 .W64)
  else if funct5 = 0b11010 ∧ f.rs2 = 1 then decodeR2fr f (.funary .U32ToF .W64 .W64)
  else if funct5 = 0b11000 ∧ f.rs2 = 2 then decodeFr2r f (.fcvtToI .FToI64 .W64)
  else if funct5 = 0b11000 ∧ f.rs2 = 3 then decodeFr2r f (.fcvtToI .FToU64 .W64)
  else if funct5 = 0b11100 ∧ f.rs2 = 0 ∧ f.funct3 = 0 then decodeFr2r f .fmv_x_d
  else if funct5 = 0b11010 ∧ f.rs2 = 2 then decodeR2fr f (.funary .I64ToF .W64 .W64)
  else if funct5 = 0b11010 ∧ f.rs2 = 3 then decodeR2fr f (.funary .U64ToF .W64 .W64)
  else if funct5 = 0b11110 ∧ f.rs2 = 0 ∧ f.funct3 = 0 then decodeR2fr f .fmv_d_x
  else decodeEmpty f .inv

def tableOpFp : Decode :=
  let fmt := f.bits 26 25
  let funct5 := f.bits 31 27
  if f.fpEnable = false then decodeEmpty f .rt_inv
  else if (fmt = 0 ∧ funct5 = 0b01000) ∨ fmt = 1 then tableOpFpD f
  else if fmt ≠ 0 then decodeEmpty f .inv
  else if funct5 = 0b00000 then decodeFr f (.fop .ADD .W32)
  else if funct5 = 0b00001 then decodeFr f (.fop .SUB .W32)
  else if funct5 = 0b00010 then decodeFr f (.fop .MUL .W32)
  else if funct5 = 0b00011 then decodeFr f (.fop .DIV .W32)
  else if funct5 = 0b01011 ∧ f.rs2 = 0 then decodeFr f (.funary .SQRT .W32 .W32)
  else if funct5 = 0b00100 ∧ f.funct3 = 0 then decodeFr f (.fsgnj .W32)
  else if funct5 = 0b00100 ∧ f.funct3 = 1 then decodeFr f (.fsgnjn .W32)
  else if funct5 = 0b00100 ∧ f.funct3 = 2 then decodeFr f (.fsgnjx .W32)
  else if funct5 = 0b00101 ∧ f.funct3 = 0 then decodeFr f (.fop .MIN .W32)
  else if funct5 = 0b00101 ∧ f.funct3 = 1 then decodeFr f (.fop .MAX .W32)
  else if funct5 = 0b11000 ∧ f.rs2 = 0 then decodeFr2r f (.fcvtToI .FToI32 .W32)
  else if funct5 = 0b11000 ∧ f.rs2 = 1 then decodeFr2r f (.fcvtToI .FToU32 .W32)
  else if funct5 = 0b11100 ∧ f.rs2 = 0 ∧ f.funct3 = 0 then decodeFr2r f .fmv_x_w
  else if funct5 = 0b10100 ∧ f.funct3 = 2 then decodeFr2r f (.fcmp .EQ .W32)
  else if funct5 = 0b10100 ∧ f.funct3 = 1 then decodeFr2r f (.fcmp .LT .W32)
  else if funct5 = 0b10100 ∧ f.funct3 = 0 then decodeFr2r f (.fcmp .LE .W32)
  else if funct5 = 0b11100 ∧ f.rs2 = 0 ∧ f.funct3 = 1 then decodeFr2r f (.fclass .W32)
  else if funct5 = 0b11010 ∧ f.rs2 = 0 then decodeR2fr f (.funary .I32ToF .W32 .W32)
  else if funct5 = 0b11010 ∧ f.rs2 = 1 then decodeR2fr f (.funary .U32ToF .W32 .W32)
  else if funct5 = 0b11110 ∧ f.rs2 = 0 ∧ f.funct3 = 0 then decodeR2fr f .fmv_w_x
  else if funct5 = 0b11000 ∧ f.rs2 = 2 then decodeFr2r f (.fcvtToI .FToI64 .W32)
  else if funct5 = 0b11000 ∧ f.rs2 = 3 then decodeFr2r f (.fcvtToI .FToU64 .W32)
  else if funct5 = 0b11010 ∧ f.rs2 = 2 then decodeR2fr f (.funary .I64ToF .W32 .W32)
  else if funct5 = 0b11010 ∧ f.rs2 = 3 then decodeR2fr f (.funary .U64ToF .W32 .W32)
  else decodeEmpty f .inv

def tableFmaddDispatch : ExecId :=
  let fmt := f.bits 26 25
  let w : FpWidth := if fmt = 1 then .W64 else .W32
  if f.fpEnable = false then .rt_inv
  else if fmt ≠ 0 ∧ fmt ≠ 1 then .inv
  else if f.opcode = 0b10000 then .fmadd false false w
  else if f.opcode = 0b10001 then .fmadd false true w
  else if f.opcode = 0b10010 then .fmadd true false w
  else .fmadd true true w

def tableMain : Decode :=
  let fpu := P.fpuNone = false
  let op := f.opcode
  if op = 0b00000 then decodeI f (tableLoad f)
  else if fpu ∧ op = 0b00001 then decodeFload f (tableFload P f)
  else if P.dasics ∧ op = 0b00010 ∧ f.funct3 = 0 then decodeDasicscallJ f .dasicscall_j
  else if P.dasics ∧ op = 0b00010 ∧ f.funct3 = 1 then decodeI f .dasicscall_jr
  else if op = 0b00011 then decodeI f (tableMemFence f)
  else if op = 0b00100 then decodeI f (tableOpImm P f)
  else if op = 0b00101 then decodeAuipc f .auipc
  else if op = 0b00110 then decodeI f (tableOpImm32 P f)
  else if op = 0b01000 then decodeS f (tableStore f)
  else if fpu ∧ op = 0b01001 then decodeFstore f (tableFstore P f)
  else if op = 0b01011 then decodeR f (tableAtomic P f)
  else if f.funct7 = 1 ∧ op = 0b01100 then decodeR f (tableRvm f)
  else if op = 0b01100 then decodeR f (tableOp P f)
  else if op = 0b01101 then decodeU f .lui
  else if f.funct7 = 1 ∧ op = 0b01110 then decodeR f (tableRvm32 f)
  else if op = 0b01110 then decodeR f (tableOp32 P f)
  else if fpu ∧ (op = 0b10000 ∨ op = 0b10001 ∨ op = 0b10010 ∨ op = 0b10011) then
    decodeFr f (tableFmaddDispatch f)
  else if fpu ∧ op = 0b10100 then tableOpFp f
  else if P.rvv ∧ op = 0b10101 then decodeEmpty f (.vector f.mmuMode)
  else if op = 0b11000 then decodeB f (tableBranch f)
  else if op = 0b11001 ∧ f.funct3 = 0 then decodeI f (tableJalrDispatch f)
  else if op = 0b11010 then decodeEmpty f .nemu_trap
  else if op = 0b11011 then decodeJ f (tableJalDispatch f)
  else if op = 0b11100 then decodeCsr f (tableSystem P f)
  else decodeEmpty f .inv

end Tables

section Compressed

variable (P : Platform) (f : Fetched)

def creg2reg (b : BitVec 3) : BitVec 5 := 1#2 ++ b

/-- Rotation without shift. -/
def rorImm (imm : BitVec 32) (len r : Nat) : BitVec 32 :=
  if r = 0 then imm
  else (imm ||| (imm <<< len)) &&& (((1 <<< len) - 1) <<< r)

def imm6 : BitVec 6 := f.bits 12 12 ++ f.bits 6 2

/-- `CI` and `CB` formats: `rd` is also `rs1`. -/
def decodeCRdRs1 (r : BitVec 5) (imm : Word) (id : ExecId) : Decode :=
  ⟨f.pc, f.snpc, f.instr, id, decodeOpR r false, decodeOpR r true, decodeOpI imm⟩

def decodeCISimm (id : ExecId) : Decode := decodeCRdRs1 f (f.bits 11 7) ((imm6 f).signExtend 64) id

def decodeCISimmLui : Except Stop Decode :=
  let imm : Word := (imm6 f).signExtend 64
  if P.share ∧ imm = 0 then throw (.exception ⟨.II, none, .plain⟩)
  else pure ⟨f.pc, f.snpc, f.instr, .lui, decodeOpR (f.bits 11 7) false, decodeOpI (imm <<< 12),
    decodeOpI imm⟩

def decodeCIUimm (id : ExecId) : Decode := decodeCRdRs1 f (f.bits 11 7) ((imm6 f).setWidth 64) id

def decodeCLI (id : ExecId) : Decode :=
  ⟨f.pc, f.snpc, f.instr, id, decodeOpR (f.bits 11 7) false, decodeOpR 0 true,
    decodeOpI ((imm6 f).signExtend 64)⟩

def decodeCAddi16sp : Except Stop Decode :=
  let simm : Word := (f.bits 12 12 ++ f.bits 4 3 ++ f.bits 5 5 ++ f.bits 2 2 ++ f.bits 6 6 ++
    0#4).signExtend 64
  if simm = 0 then
    if P.share then throw (.exception ⟨.II, none, .plain⟩) else throw (.abort .decode)
  else pure (decodeCRdRs1 f 2 simm (.compressedImm .add))

def decodeCAddi4spn : Decode :=
  let imm := rorImm ((f.bits 12 7).setWidth 32) 6 4 ||| ((f.bits 5 5).setWidth 32 <<< 3) |||
    ((f.bits 6 6).setWidth 32 <<< 2)
  ⟨f.pc, f.snpc, f.instr, .computeImm .add, decodeOpR (creg2reg (f.bits 4 2)) false,
    decodeOpR 2 true, decodeOpI (imm.setWidth 64)⟩

/-- SP-relative loads and stores; `dest` is the register loaded or stored. -/
def decodeCxxSP (imm : BitVec 6) (rotate : Nat) (dest : Operand) (id : ExecId) : Decode :=
  ⟨f.pc, f.snpc, f.instr, id, dest, decodeOpR 2 true,
    decodeOpI ((rorImm (imm.setWidth 32) 6 rotate).setWidth 64)⟩

def decodeCLxSP (rotate : Nat) (isFp : Bool) (id : ExecId) : Except Stop Decode :=
  let rd := f.bits 11 7
  if P.share ∧ rd = 0 ∧ isFp = false then throw (.exception ⟨.II, none, .plain⟩)
  else pure (decodeCxxSP f (imm6 f) rotate (if isFp then decodeOpFr rd else decodeOpR rd false) id)

def decodeCSxSP (rotate : Nat) (isFp : Bool) (id : ExecId) : Decode :=
  let rs2 := f.bits 6 2
  decodeCxxSP f (f.bits 12 7) rotate (if isFp then decodeOpFr rs2 else decodeOpR rs2 true) id

def decodeCLdst (rotate : Nat) (isStore isFp : Bool) (id : ExecId) : Decode :=
  let r := creg2reg (f.bits 4 2)
  let imm5 := f.bits 12 10 ++ f.bits 6 5
  ⟨f.pc, f.snpc, f.instr, id, if isFp then decodeOpFr r else decodeOpR r isStore,
    decodeOpR (creg2reg (f.bits 9 7)) true,
    decodeOpI ((rorImm (imm5.setWidth 32) 5 rotate <<< 1).setWidth 64)⟩

def decodeCS (id : ExecId) : Decode :=
  let r := creg2reg (f.bits 9 7)
  ⟨f.pc, f.snpc, f.instr, id, decodeOpR r false, decodeOpR r true,
    decodeOpR (creg2reg (f.bits 4 2)) true⟩

def decodeCB (id : ExecId) : Decode :=
  let offset : Word := (f.bits 12 12 ++ f.bits 6 5 ++ f.bits 2 2 ++ f.bits 11 10 ++ f.bits 4 3 ++
    0#1).signExtend 64
  ⟨f.pc, f.snpc, f.instr, id, decodeOpI (f.pc + offset), decodeOpR (creg2reg (f.bits 9 7)) true,
    decodeOpR 0 true⟩

def decodeCJ (id : ExecId) : Decode :=
  let offset : Word := (f.bits 12 12 ++ f.bits 8 8 ++ f.bits 10 9 ++ f.bits 6 6 ++ f.bits 7 7 ++
    f.bits 2 2 ++ f.bits 11 11 ++ f.bits 5 3 ++ 0#1).signExtend 64
  ⟨f.pc, f.snpc, f.instr, id, decodeOpEmpty, decodeOpI (f.pc + offset), decodeOpEmpty⟩

def decodeCJR (id : ExecId) : Except Stop Decode :=
  if P.share ∧ f.bits 11 7 = 0 then throw (.exception ⟨.II, none, .plain⟩)
  else pure ⟨f.pc, f.snpc, f.instr, id, decodeOpEmpty, decodeOpR (f.bits 11 7) true, decodeOpEmpty⟩

def decodeCMov (id : ExecId) : Decode :=
  ⟨f.pc, f.snpc, f.instr, id, decodeOpR (f.bits 11 7) false, decodeOpR (f.bits 6 2) true,
    decodeOpR 0 true⟩

def decodeCAdd (id : ExecId) : Decode :=
  ⟨f.pc, f.snpc, f.instr, id, decodeOpR (f.bits 11 7) false, decodeOpR (f.bits 11 7) true,
    decodeOpR (f.bits 6 2) true⟩

def decodeCJalr (id : ExecId) : Decode :=
  ⟨f.pc, f.snpc, f.instr, id, decodeOpR 1 false, decodeOpR (f.bits 11 7) true, decodeOpI 0⟩

def tableCAddiwDispatch : ExecId :=
  if P.share ∧ f.bits 11 7 = 0 then .inv else .compressedImm .addw

def tableCLiDispatch : ExecId :=
  if f.bits 12 12 = 0 ∧ f.bits 6 2 = 0 then .p_li_0
  else if f.bits 12 12 = 0 ∧ f.bits 6 2 = 1 then .p_li_1
  else .c_li

def tableRvcQ1Compute : Decode :=
  let r := creg2reg (f.bits 9 7)
  let more := f.bits 6 5
  if f.bits 11 10 = 0 then decodeCRdRs1 f r ((imm6 f).setWidth 64) (.compressedImm .shr)
  else if f.bits 11 10 = 1 then decodeCRdRs1 f r ((imm6 f).setWidth 64) (.compressedImm .sar)
  else if f.bits 11 10 = 2 then decodeCRdRs1 f r ((imm6 f).signExtend 64) (.compressedImm .and)
  else if f.bits 12 12 = 0 then
    decodeCS f (.compressedReg
      (if more = 0 then .sub else if more = 1 then .xor else if more = 2 then .or else .and))
  else if more = 0 then decodeCS f (.compressedReg .subw)
  else if more = 1 then decodeCS f (.compressedReg .addw)
  else decodeCS f .inv

def tableRvcQ2Misc : Except Stop Decode :=
  let rd : BitVec 5 := f.bits 11 7
  let rs2 : BitVec 5 := f.bits 6 2
  if f.bits 12 12 = 0 then
    if rd = 1 ∧ rs2 = 0 then decodeCJR P f .p_ret
    else if rs2 = 0 then decodeCJR P f .c_jr
    else pure (decodeCMov f .c_mv)
  else if rd = 0 ∧ rs2 = 0 then pure (decodeEmpty f .inv)
  -- `c_jalr` cannot handle `rs1 = ra`
  else if rd = 1 ∧ rs2 = 0 then pure (decodeCJalr f .jalr)
  else if rs2 = 0 then pure (decodeCJalr f .c_jalr)
  else pure (decodeCAdd f (.compressedReg .add))

/-- The rows of the three quadrants. `c_fldst` does not test whether the FPU is on. -/
def tableRvcQ0 : Except Stop Decode :=
  let m := f.mmuMode
  let fpu := P.fpuNone = false
  let funct3 : BitVec 3 := f.bits 15 13
  if funct3 = 0 ∧ f.bits 12 5 = 0 then pure (decodeEmpty f .inv)
  else if funct3 = 0 then pure (decodeCAddi4spn f)
  else if fpu ∧ funct3 = 1 then pure (decodeCLdst f 2 false true (.fload .W64 m))
  else if funct3 = 2 then pure (decodeCLdst f 1 false false (.load true 4 m))
  else if funct3 = 3 then pure (decodeCLdst f 2 false false (.load true 8 m))
  else if fpu ∧ funct3 = 5 then pure (decodeCLdst f 2 true true (.fstore .W64 m))
  else if funct3 = 6 then pure (decodeCLdst f 1 true false (.store 4 m))
  else if funct3 = 7 then pure (decodeCLdst f 2 true false (.store 8 m))
  else pure (decodeEmpty f .inv)

def tableRvcQ1 : Except Stop Decode :=
  match (f.bits 15 13).toNat with
  | 0 => pure (decodeCISimm f (tableCAddiDispatch ((imm6 f).signExtend 64)))
  | 1 => pure (decodeCISimm f (tableCAddiwDispatch P f))
  | 2 => pure (decodeCLI f (tableCLiDispatch f))
  | 3 => if f.bits 11 7 = 2 then decodeCAddi16sp P f else decodeCISimmLui P f
  | 4 => pure (tableRvcQ1Compute f)
  | 5 => pure (decodeCJ f .c_j)
  | 6 => pure (decodeCB f .c_beqz)
  | _ => pure (decodeCB f .c_bnez)

def tableRvcQ2 : Except Stop Decode :=
  let m := f.mmuMode
  let fpu := P.fpuNone = false
  let funct3 : BitVec 3 := f.bits 15 13
  if funct3 = 0 then pure (decodeCIUimm f (.compressedImm .shl))
  else if fpu ∧ funct3 = 1 then decodeCLxSP P f 3 true (.fload .W64 m)
  else if funct3 = 2 then decodeCLxSP P f 2 false (.load true 4 m)
  else if funct3 = 3 then decodeCLxSP P f 3 false (.load true 8 m)
  else if funct3 = 4 then tableRvcQ2Misc P f
  else if fpu ∧ funct3 = 5 then pure (decodeCSxSP f 3 true (.fstore .W64 m))
  else if funct3 = 6 then pure (decodeCSxSP f 2 false (.store 4 m))
  else if funct3 = 7 then pure (decodeCSxSP f 3 false (.store 8 m))
  else pure (decodeEmpty f .inv)

def tableRvc : Except Stop Decode :=
  if f.bits 1 0 = 0 then tableRvcQ0 P f
  else if f.bits 1 0 = 1 then tableRvcQ1 P f
  else tableRvcQ2 P f

end Compressed

/-- The kind of control flow instruction that the decoder records for the check of the next
fetch. -/
def ExecId.cfiType : ExecId → CfiType
  | .c_j | .p_jal | .jal | .dasicscall_j => .jump
  | .branch _ | .c_beqz | .c_bnez | .p_bltz | .p_bgez | .p_blez | .p_bgtz => .branch
  | .p_ret | .c_jr | .c_jalr | .jalr | .dasicscall_jr => .jump
  | _ => .none

def Machine.fetched (s : Machine) (pc snpc : Word) (instr : BitVec 32) : Fetched :=
  ⟨pc, snpc, instr, if s.dataMmuState = .direct then .direct else .translate, s.fs ≠ 0⟩

def liftDecode : Except Stop Decode → Exec Decode
  | .ok d => pure d
  | .error e => throw e

/-- The check that the previous instruction has left pending. -/
def checkPending (P : Platform) (pc : Word) : Exec Unit := do
  let s ← get
  if P.dasics && s.prevIsCfi then dasicsFetchHelper P pc s.prevPc s.prevType else pure ()

/-- Fetches the rest of an instruction whose first half is `lo` and decodes it. -/
def decodeRest (P : Platform) (pc lo : Word) : Exec Decode :=
  if lo.extractLsb' 0 2 ≠ 3 then do
    let s ← get
    liftDecode (tableRvc P (s.fetched pc (pc + 2) (lo.setWidth 32)))
  else do
    let hi ← vaddrIfetch P (pc + 2) 2
    let s ← get
    pure (tableMain P (s.fetched pc (pc + 4) (lo.setWidth 32 ||| (hi.setWidth 32 <<< 16))))

/-- `fetch_decode` on the static `Decode` of `execute`. The pending check is consumed only when
the whole instruction has been fetched and decoded. -/
def fetchDecode (P : Platform) : Exec Decode := do
  let s ← get
  let pc := s.pc
  modify fun s => { s with decPc := pc }
  checkPending P pc
  let lo ← vaddrIfetch P pc 2
  let d ← decodeRest P pc lo
  modify fun s => { s with
    prevType := d.id.cfiType
    prevIsCfi := d.id.cfiType ≠ .none }
  pure d

end Nemu
