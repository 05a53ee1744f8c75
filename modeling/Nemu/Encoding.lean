import Nemu.Decode

namespace Nemu

set_option autoImplicit true

/-- An instruction from the fields that the formats R, I, S and B have in common. -/
def encodeR (rs1 rs2 rd opcode : BitVec 5) (funct3 : BitVec 3) (funct7 : BitVec 7) : BitVec 32 :=
  funct7 ++ rs2 ++ rs1 ++ funct3 ++ rd ++ opcode ++ 3#2

def encodeI (rs1 rd opcode : BitVec 5) (funct3 : BitVec 3) (imm : BitVec 12) : BitVec 32 :=
  encodeR rs1 (imm.extractLsb' 0 5) rd opcode funct3 (imm.extractLsb' 5 7)

def encodeS (rs1 rs2 opcode : BitVec 5) (funct3 : BitVec 3) (imm : BitVec 12) : BitVec 32 :=
  encodeR rs1 rs2 (imm.extractLsb' 0 5) opcode funct3 (imm.extractLsb' 5 7)

def encodeB (rs1 rs2 opcode : BitVec 5) (funct3 : BitVec 3) (offset : BitVec 12) : BitVec 32 :=
  encodeR rs1 rs2 (offset.extractLsb' 0 4 ++ offset.extractLsb' 10 1) opcode funct3
    (offset.extractLsb' 11 1 ++ offset.extractLsb' 4 6)

def encodeU (rd opcode : BitVec 5) (imm : BitVec 20) : BitVec 32 := imm ++ rd ++ opcode ++ 3#2

def encodeJ (rd opcode : BitVec 5) (offset : BitVec 20) : BitVec 32 :=
  encodeU rd opcode (offset.extractLsb' 19 1 ++ offset.extractLsb' 0 10 ++
    offset.extractLsb' 10 1 ++ offset.extractLsb' 11 8)

/-- The fields of an instruction in one of the formats R, I, S and B. -/
structure Fields (f : Fetched) (rs1 rs2 rd opcode : BitVec 5) (funct3 : BitVec 3)
    (funct7 : BitVec 7) : Prop where
  opcode : f.opcode = opcode
  rd : f.rd = rd
  funct3 : f.funct3 = funct3
  rs1 : f.rs1 = rs1
  rs2 : f.rs2 = rs2
  funct7 : f.funct7 = funct7

section Extract

theorem imm12_halves (imm : BitVec 12) : imm.extractLsb' 5 7 ++ imm.extractLsb' 0 5 = imm := by
  simp (disch := decide) only [BitVec.extractLsb'_append_extractLsb'_eq_extractLsb']
  exact BitVec.extractLsb'_eq_self

theorem immB_parts (offset : BitVec 12) :
    offset.extractLsb' 11 1 ++ offset.extractLsb' 10 1 ++ offset.extractLsb' 4 6 ++
      offset.extractLsb' 0 4 = offset := by
  simp (disch := decide) only [BitVec.extractLsb'_append_extractLsb'_eq_extractLsb']
  exact BitVec.extractLsb'_eq_self

theorem immJ_parts (offset : BitVec 20) :
    offset.extractLsb' 19 1 ++ offset.extractLsb' 11 8 ++ offset.extractLsb' 10 1 ++
      offset.extractLsb' 0 10 = offset := by
  simp (disch := decide) only [BitVec.extractLsb'_append_extractLsb'_eq_extractLsb']
  exact BitVec.extractLsb'_eq_self

end Extract

section Fields

variable {f : Fetched} {rs1 rs2 rd opcode : BitVec 5} {funct3 : BitVec 3} {funct7 : BitVec 7}

theorem encodeR_fields (h : f.instr = encodeR rs1 rs2 rd opcode funct3 funct7) :
    Fields f rs1 rs2 rd opcode funct3 funct7 := by
  constructor
  all_goals
    simp (disch := decide) only [Fetched.opcode, Fetched.rd, Fetched.funct3, Fetched.rs1,
      Fetched.rs2, Fetched.funct7, Fetched.bits, h, encodeR, BitVec.extractLsb'_append_eq_of_le,
      BitVec.extractLsb'_append_eq_of_add_le]
    exact BitVec.extractLsb'_eq_self

theorem Fetched.bits_imm (f : Fetched) : f.bits 31 20 = f.funct7 ++ f.rs2 :=
  (BitVec.extractLsb'_append_extractLsb'_eq_extractLsb' (by decide : 25 = 20 + 5)).symm

theorem encodeI_imm {imm : BitVec 12} (h : f.instr = encodeI rs1 rd opcode funct3 imm) :
    f.bits 31 20 = imm := by
  have hf := encodeR_fields h
  rw [f.bits_imm, hf.funct7, hf.rs2]
  exact imm12_halves imm

theorem encodeS_imm {imm : BitVec 12} (h : f.instr = encodeS rs1 rs2 opcode funct3 imm) :
    f.immS = imm.signExtend 64 := by
  have hf := encodeR_fields h
  change (f.funct7 ++ f.rd).signExtend 64 = _
  rw [hf.funct7, hf.rd]
  exact congrArg (BitVec.signExtend 64) (imm12_halves imm)

theorem encodeB_imm {offset : BitVec 12} (h : f.instr = encodeB rs1 rs2 opcode funct3 offset) :
    f.immB = (offset ++ 0#1).signExtend 64 := by
  unfold Fetched.immB Fetched.bits
  rw [h]
  simp (disch := decide) only [encodeB, encodeR, BitVec.extractLsb'_append_eq_of_le,
    BitVec.extractLsb'_append_eq_of_add_le]
  simp only [Nat.reduceSub, Nat.reduceAdd, BitVec.extractLsb'_eq_self]
  exact congrArg (fun o : BitVec 12 => (o ++ 0#1).signExtend 64) (immB_parts offset)

theorem encodeU_opcode (h : f.instr = encodeU rd opcode imm) : f.opcode = opcode := by
  unfold Fetched.opcode Fetched.bits
  rw [h]
  simp (disch := decide) only [encodeU, BitVec.extractLsb'_append_eq_of_le,
    BitVec.extractLsb'_append_eq_of_add_le]
  exact BitVec.extractLsb'_eq_self

theorem encodeU_rd (h : f.instr = encodeU rd opcode imm) : f.rd = rd := by
  unfold Fetched.rd Fetched.bits
  rw [h]
  simp (disch := decide) only [encodeU, BitVec.extractLsb'_append_eq_of_le,
    BitVec.extractLsb'_append_eq_of_add_le]
  exact BitVec.extractLsb'_eq_self

theorem encodeU_imm {imm : BitVec 20} (h : f.instr = encodeU rd opcode imm) :
    f.immU = (imm ++ 0#12).signExtend 64 := by
  unfold Fetched.immU Fetched.bits
  rw [h]
  simp (disch := decide) only [encodeU, BitVec.extractLsb'_append_eq_of_le]
  simp only [Nat.reduceSub, Nat.reduceAdd, BitVec.extractLsb'_eq_self]

theorem encodeJ_imm {offset : BitVec 20} (h : f.instr = encodeJ rd opcode offset) :
    f.immJ = (offset ++ 0#1).signExtend 64 := by
  unfold Fetched.immJ Fetched.bits
  rw [h]
  simp (disch := decide) only [encodeJ, encodeU, BitVec.extractLsb'_append_eq_of_le,
    BitVec.extractLsb'_append_eq_of_add_le]
  simp only [Nat.reduceSub, Nat.reduceAdd, BitVec.extractLsb'_eq_self]
  exact congrArg (fun o : BitVec 20 => (o ++ 0#1).signExtend 64) (immJ_parts offset)

end Fields

end Nemu
