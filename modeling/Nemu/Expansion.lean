import Nemu.Dispatch
import Nemu.Encoding

namespace Nemu

open Effect

set_option autoImplicit true

def cbits (c : BitVec 16) (hi lo : Nat) : BitVec (hi - lo + 1) := c.extractLsb' lo (hi - lo + 1)

section Expansion

variable (c : BitVec 16)

def cRd : BitVec 5 := cbits c 11 7

def cRs2 : BitVec 5 := cbits c 6 2

/-- The register fields of three bits name `x8` to `x15`. -/
def cRs1' : BitVec 5 := 1#2 ++ cbits c 9 7

def cRs2' : BitVec 5 := 1#2 ++ cbits c 4 2

def cImm6 : BitVec 6 := cbits c 12 12 ++ cbits c 6 2

/-- The offsets of C.LW and C.SW, and of C.LD and C.SD. -/
def cOffsetW : BitVec 7 := cbits c 5 5 ++ cbits c 12 10 ++ cbits c 6 6 ++ 0#2

def cOffsetD : BitVec 8 := cbits c 6 5 ++ cbits c 12 10 ++ 0#3

def cImm4spn : BitVec 10 :=
  cbits c 10 7 ++ cbits c 12 11 ++ cbits c 5 5 ++ cbits c 6 6 ++ 0#2

def cImm16sp : BitVec 10 :=
  cbits c 12 12 ++ cbits c 4 3 ++ cbits c 5 5 ++ cbits c 2 2 ++ cbits c 6 6 ++ 0#4

/-- The offsets of C.J and of C.BEQZ and C.BNEZ, in halfwords. -/
def cOffsetJ : BitVec 11 :=
  cbits c 12 12 ++ cbits c 8 8 ++ cbits c 10 9 ++ cbits c 6 6 ++ cbits c 7 7 ++ cbits c 2 2 ++
    cbits c 11 11 ++ cbits c 5 3

def cOffsetB : BitVec 8 :=
  cbits c 12 12 ++ cbits c 6 5 ++ cbits c 2 2 ++ cbits c 11 10 ++ cbits c 4 3

/-- The 32-bit instruction that an instruction of quadrant 0 stands for. -/
def expandQ0 : Option (BitVec 32) :=
  match (cbits c 15 13).toNat with
  | 0 => -- C.ADDI4SPN
    if cbits c 12 5 = 0 then none
    else some (encodeI 2 (cRs2' c) 0b00100 0 ((cImm4spn c).setWidth 12))
  | 2 => some (encodeI (cRs1' c) (cRs2' c) 0b00000 2 ((cOffsetW c).setWidth 12)) -- C.LW
  | 3 => some (encodeI (cRs1' c) (cRs2' c) 0b00000 3 ((cOffsetD c).setWidth 12)) -- C.LD
  | 6 => some (encodeS (cRs1' c) (cRs2' c) 0b01000 2 ((cOffsetW c).setWidth 12)) -- C.SW
  | 7 => some (encodeS (cRs1' c) (cRs2' c) 0b01000 3 ((cOffsetD c).setWidth 12)) -- C.SD
  | _ => none

/-- C.SRLI, C.SRAI, C.ANDI and the operations on two registers. -/
def expandArith : Option (BitVec 32) :=
  let r := cRs1' c
  match (cbits c 11 10).toNat with
  | 0 => some (encodeI r r 0b00100 5 (0b000000#6 ++ cImm6 c))
  | 1 => some (encodeI r r 0b00100 5 (0b010000#6 ++ cImm6 c))
  | 2 => some (encodeI r r 0b00100 7 ((cImm6 c).signExtend 12))
  | _ =>
    match (cbits c 12 12).toNat, (cbits c 6 5).toNat with
    | 0, 0 => some (encodeR r (cRs2' c) r 0b01100 0 0b0100000) -- C.SUB
    | 0, 1 => some (encodeR r (cRs2' c) r 0b01100 4 0) -- C.XOR
    | 0, 2 => some (encodeR r (cRs2' c) r 0b01100 6 0) -- C.OR
    | 0, 3 => some (encodeR r (cRs2' c) r 0b01100 7 0) -- C.AND
    | 1, 0 => some (encodeR r (cRs2' c) r 0b01110 0 0b0100000) -- C.SUBW
    | 1, 1 => some (encodeR r (cRs2' c) r 0b01110 0 0) -- C.ADDW
    | _, _ => none

def expandQ1 : Option (BitVec 32) :=
  match (cbits c 15 13).toNat with
  | 0 => some (encodeI (cRd c) (cRd c) 0b00100 0 ((cImm6 c).signExtend 12)) -- C.NOP, C.ADDI
  | 1 => -- C.ADDIW
    if cRd c = 0 then none
    else some (encodeI (cRd c) (cRd c) 0b00110 0 ((cImm6 c).signExtend 12))
  | 2 => some (encodeI 0 (cRd c) 0b00100 0 ((cImm6 c).signExtend 12)) -- C.LI
  | 3 =>
    if cRd c = 2 then -- C.ADDI16SP
      if cImm16sp c = 0 then none else some (encodeI 2 2 0b00100 0 ((cImm16sp c).signExtend 12))
    else -- C.LUI
      if cImm6 c = 0 then none else some (encodeU (cRd c) 0b01101 ((cImm6 c).signExtend 20))
  | 4 => expandArith c
  | 5 => some (encodeJ 0 0b11011 ((cOffsetJ c).signExtend 20)) -- C.J
  | 6 => some (encodeB (cRs1' c) 0 0b11000 0 ((cOffsetB c).signExtend 12)) -- C.BEQZ
  | _ => some (encodeB (cRs1' c) 0 0b11000 1 ((cOffsetB c).signExtend 12)) -- C.BNEZ

/-- C.JR, C.MV, C.JALR and C.ADD. Not C.EBREAK. -/
def expandJumpMove : Option (BitVec 32) :=
  if cbits c 12 12 = 0 then
    if cRs2 c = 0 then
      if cRd c = 0 then none else some (encodeI (cRd c) 0 0b11001 0 0)
    else some (encodeR 0 (cRs2 c) (cRd c) 0b01100 0 0)
  else if cRs2 c = 0 then
    if cRd c = 0 then none else some (encodeI (cRd c) 1 0b11001 0 0)
  else some (encodeR (cRd c) (cRs2 c) (cRd c) 0b01100 0 0)

def expandQ2 : Option (BitVec 32) :=
  match (cbits c 15 13).toNat with
  | 0 => some (encodeI (cRd c) (cRd c) 0b00100 1 (0b000000#6 ++ cImm6 c)) -- C.SLLI
  | 2 => -- C.LWSP
    if cRd c = 0 then none
    else some (encodeI 2 (cRd c) 0b00000 2
      ((cbits c 3 2 ++ cbits c 12 12 ++ cbits c 6 4 ++ 0#2).setWidth 12))
  | 3 => -- C.LDSP
    if cRd c = 0 then none
    else some (encodeI 2 (cRd c) 0b00000 3
      ((cbits c 4 2 ++ cbits c 12 12 ++ cbits c 6 5 ++ 0#3).setWidth 12))
  | 4 => expandJumpMove c
  | 6 => -- C.SWSP
    some (encodeS 2 (cRs2 c) 0b01000 2 ((cbits c 8 7 ++ cbits c 12 9 ++ 0#2).setWidth 12))
  | 7 => -- C.SDSP
    some (encodeS 2 (cRs2 c) 0b01000 3 ((cbits c 9 7 ++ cbits c 12 10 ++ 0#3).setWidth 12))
  | _ => none

/-- The expansions that the C extension defines for RV64, HINTs included, but for C.EBREAK and the
floating-point loads and stores. -/
def expandRvc : Option (BitVec 32) :=
  match (cbits c 1 0).toNat with
  | 0 => expandQ0 c
  | 1 => expandQ1 c
  | 2 => expandQ2 c
  | _ => none

/-- The reserved encodings of C.ADDI4SPN, C.ADDIW, C.LUI, C.ADDI16SP, C.LWSP, C.LDSP and C.JR. -/
def reservedRvc : Bool :=
  match (cbits c 1 0).toNat, (cbits c 15 13).toNat with
  | 0, 0 => cbits c 12 5 = 0
  | 1, 1 => cRd c = 0
  | 1, 3 => if cRd c = 2 then cImm16sp c = 0 else cImm6 c = 0
  | 2, 2 | 2, 3 => cRd c = 0
  | 2, 4 => cbits c 12 12 = 0 && cRs2 c = 0 && cRd c = 0
  | _, _ => false

end Expansion

/-- The state without the slot that stands for a destination `x0`. -/
def Machine.eraseNull (s : Machine) : Machine := { s with zeroNull := 0 }

/-- How a computation ends, as far as a guest can see. -/
def observe : EStateM.Result Stop Machine α → EStateM.Result Stop Machine α
  | .ok a t => .ok a t.eraseNull
  | .error e t => .error e t.eraseNull

/-- Two decoded instructions that a guest cannot tell apart. -/
structure Alike (P : Platform) (d d' : Decode) : Prop where
  pc : d.pc = d'.pc
  snpc : d.snpc = d'.snpc
  cfiType : d.id.cfiType = d'.id.cfiType
  run : ∀ s : Machine, s.gpr 0 = 0 → s.pc = d.snpc → observe (exec P d s) = observe (exec P d' s)

variable {P : Platform} {c : BitVec 16} {w : BitVec 32} {d d' : Decode} {pc snpc : Word}
  {m : MmuMode} {e : Bool}

theorem Reaches.observe_eq (h : Reaches P d s x pc) (h' : Reaches P d' s x pc) :
    observe (exec P d s) = observe (exec P d' s) := by
  obtain ⟨z, hz⟩ := h
  obtain ⟨z', hz'⟩ := h'
  rw [hz, hz']
  rfl

/-- Decodes of the same kind of executor that differ in the instruction word only. -/
theorem Alike.of_instr (hexec : ∀ i, exec P { d with instr := i } = exec P d)
    (h : d' = { d with instr := i }) : Alike P d d' := by
  subst h
  refine ⟨rfl, rfl, rfl, fun s _ _ => ?_⟩
  rw [hexec i]

/-- `tableRvc` gives a compressed instruction what `tableMain` gives its expansion `w`. -/
def Expands (P : Platform) (c : BitVec 16) (w : BitVec 32) : Prop :=
  ∀ pc snpc m e, ∃ d, tableRvc P ⟨pc, snpc, c.setWidth 32, m, e⟩ = .ok d ∧
    Alike P d (tableMain P ⟨pc, snpc, w, m, e⟩)

theorem Alike.of_row {f : Fetched} {y : Regs → Regs} {target : Regs → Word}
    (hrow : ∀ x, Row P f x k (y x) (target x)) (hshare : P.share = true)
    (hg : P.guidedExec = false) (hpc : d.pc = f.pc) (hsnpc : d.snpc = f.snpc)
    (hk : d.id.cfiType = k)
    (h : ∀ s : Machine, s.gpr 0 = 0 → s.pc = f.snpc → Reaches P d s (y s.gpr) (target s.gpr)) :
    Alike P d (tableMain P f) where
  pc := hpc.trans tableMain_placed.pc.symm
  snpc := hsnpc.trans tableMain_placed.snpc.symm
  cfiType := hk.trans (hrow fun _ => 0).cfiType_eq.symm
  run s h0 hs := by
    rw [hsnpc] at hs
    exact (h s h0 hs).observe_eq ((hrow s.gpr).reaches hshare hg h0 hs)

section Rows

variable {f : Fetched} {rs1 rs2 rd : BitVec 5} {funct3 : BitVec 3} {funct7 : BitVec 7}
  {imm : BitVec 12} {o : IntOp} {x : Regs}

theorem row_opImm (h : f.instr = encodeI rs1 rd 0b00100 funct3 imm) (ho : opImmOp f = some o) :
    Row P f x .none (x.set rd (o.value (x rs1) (imm.signExtend 64))) f.snpc := by
  have hf := encodeR_fields h
  have himm : f.immI = imm.signExtend 64 := congrArg (BitVec.signExtend 64) (encodeI_imm h)
  rw [← hf.rd, ← hf.rs1, ← himm]
  exact .opImm ho (by simp [tableMain, hf.opcode])

theorem row_addi (h : f.instr = encodeI rs1 rd 0b00100 0 imm) :
    Row P f x .none (x.set rd (x rs1 + imm.signExtend 64)) f.snpc :=
  row_opImm (o := .add) h (by simp [opImmOp, (encodeR_fields h).funct3])

theorem row_addiw (h : f.instr = encodeI rs1 rd 0b00110 0 imm) :
    Row P f x .none (x.set rd (IntOp.add.valueW ((x rs1).setWidth 32)
      ((imm.signExtend 64).setWidth 32))) f.snpc := by
  have hf := encodeR_fields h
  have himm : f.immI = imm.signExtend 64 := congrArg (BitVec.signExtend 64) (encodeI_imm h)
  rw [← hf.rd, ← hf.rs1, ← himm]
  exact .opImm32 (by simp [opImm32Op, hf.funct3]) (by simp [tableMain, hf.opcode])

theorem row_op (h : f.instr = encodeR rs1 rs2 rd 0b01100 funct3 funct7) (ho : opOp f = some o)
    (h7 : funct7 ≠ 1#7) : Row P f x .none (x.set rd (o.value (x rs1) (x rs2))) f.snpc := by
  have hf := encodeR_fields h
  have h7' : f.funct7 ≠ 1#7 := hf.funct7.trans_ne h7
  rw [← hf.rd, ← hf.rs1, ← hf.rs2]
  exact .op ho (by simp [tableMain, hf.opcode, h7'])

theorem row_op32 (h : f.instr = encodeR rs1 rs2 rd 0b01110 funct3 funct7) (ho : op32Op f = some o)
    (h7 : funct7 ≠ 1#7) : Row P f x .none
      (x.set rd (o.valueW ((x rs1).setWidth 32) ((x rs2).setWidth 32))) f.snpc := by
  have hf := encodeR_fields h
  have h7' : f.funct7 ≠ 1#7 := hf.funct7.trans_ne h7
  rw [← hf.rd, ← hf.rs1, ← hf.rs2]
  exact .op32 ho (by simp [tableMain, hf.opcode, h7'])

theorem row_branch {b : Cond} (h : f.instr = encodeB rs1 rs2 0b11000 funct3 offset)
    (hb : branchCond f = some b) :
    Row P f x .branch x (if b.holds (x rs1) (x rs2) then f.pc + (offset ++ 0#1).signExtend 64
      else f.snpc) := by
  have hf := encodeR_fields h
  rw [← hf.rs1, ← hf.rs2, ← encodeB_imm h]
  exact .branch hb (by simp [tableMain, hf.opcode])

theorem row_jal (h : f.instr = encodeJ rd 0b11011 offset) :
    Row P f x .jump (x.set rd f.snpc) (f.pc + (offset ++ 0#1).signExtend 64) := by
  rw [← encodeJ_imm h, ← encodeU_rd h]
  exact .jal (by simp [tableMain, encodeU_opcode h])

theorem row_jalr (h : f.instr = encodeI rs1 rd 0b11001 0 imm) :
    Row P f x .jump (x.set rd f.snpc) ((x rs1 + imm.signExtend 64) &&& ~~~1) := by
  have hf := encodeR_fields h
  have himm : f.immI = imm.signExtend 64 := congrArg (BitVec.signExtend 64) (encodeI_imm h)
  rw [← hf.rd, ← hf.rs1, ← himm]
  exact .jalr hf.funct3 (by simp [tableMain, hf.opcode, hf.funct3])

theorem tableMain_load (h : f.instr = encodeI rs1 rd 0b00000 funct3 imm) :
    tableMain P f = ⟨f.pc, f.snpc, f.instr, tableLoad f, decodeOpR rd false, decodeOpR rs1 true,
      decodeOpI (imm.signExtend 64)⟩ := by
  have hf := encodeR_fields h
  have himm : f.immI = imm.signExtend 64 := congrArg (BitVec.signExtend 64) (encodeI_imm h)
  rw [← hf.rd, ← hf.rs1, ← himm]
  simp [tableMain, hf.opcode, decodeI]

theorem tableMain_store (h : f.instr = encodeS rs1 rs2 0b01000 funct3 imm) :
    tableMain P f = ⟨f.pc, f.snpc, f.instr, tableStore f, decodeOpR rs2 true, decodeOpR rs1 true,
      decodeOpI (imm.signExtend 64)⟩ := by
  have hf := encodeR_fields h
  rw [← hf.rs2, ← hf.rs1, ← encodeS_imm h]
  simp [tableMain, hf.opcode, decodeS]

theorem tableMain_lui {imm : BitVec 20} (h : f.instr = encodeU rd 0b01101 imm) :
    tableMain P f = ⟨f.pc, f.snpc, f.instr, .lui, decodeOpR rd false,
      decodeOpI ((imm ++ 0#12).signExtend 64), decodeOpEmpty⟩ := by
  rw [← encodeU_rd h, ← encodeU_imm h]
  simp [tableMain, encodeU_opcode h, decodeU]

end Rows

section Bits

theorem bits_rvc (h : hi < 16) (hlo : lo ≤ hi) :
    (Fetched.mk pc snpc (c.setWidth 32) m e).bits hi lo = cbits c hi lo := by
  unfold Fetched.bits cbits
  ext i hi'
  simp only [BitVec.getElem_extractLsb', BitVec.getLsbD_setWidth]
  have h32 : lo + i < 32 := by omega
  simp [h32]

end Bits

section Immediates

variable (c : BitVec 16)

theorem rorImm_offsetW :
    (rorImm ((cbits c 12 10 ++ cbits c 6 5).setWidth 32) 5 1 <<< 1).setWidth 64 =
      ((cOffsetW c).setWidth 64 : Word) := by
  have hsplit : cbits c 6 5 = cbits c 6 6 ++ cbits c 5 5 :=
    (BitVec.extractLsb'_append_extractLsb'_eq_extractLsb' (by decide : 6 = 5 + 1)).symm
  have hall : ∀ (x : BitVec 3) (y z : BitVec 1),
      (rorImm ((x ++ (y ++ z)).setWidth 32) 5 1 <<< 1).setWidth 64 =
        ((z ++ x ++ y ++ 0#2).setWidth 64 : Word) := by decide
  rw [hsplit]
  exact hall _ _ _

theorem rorImm_offsetD :
    (rorImm ((cbits c 12 10 ++ cbits c 6 5).setWidth 32) 5 2 <<< 1).setWidth 64 =
      ((cOffsetD c).setWidth 64 : Word) := by
  have hall : ∀ (x : BitVec 3) (y : BitVec 2),
      (rorImm ((x ++ y).setWidth 32) 5 2 <<< 1).setWidth 64 =
        ((y ++ x ++ 0#3).setWidth 64 : Word) := by decide
  exact hall _ _

theorem rorImm_4spn :
    (rorImm ((cbits c 12 7).setWidth 32) 6 4 ||| ((cbits c 5 5).setWidth 32 <<< 3) |||
      ((cbits c 6 6).setWidth 32 <<< 2)).setWidth 64 = ((cImm4spn c).setWidth 64 : Word) := by
  have hsplit : cbits c 12 7 = cbits c 12 11 ++ cbits c 10 7 :=
    (BitVec.extractLsb'_append_extractLsb'_eq_extractLsb' (by decide : 11 = 7 + 4)).symm
  have hall : ∀ (x : BitVec 2) (y : BitVec 4) (z u : BitVec 1),
      (rorImm ((x ++ y).setWidth 32) 6 4 ||| (z.setWidth 32 <<< 3) |||
        (u.setWidth 32 <<< 2)).setWidth 64 = ((y ++ x ++ z ++ u ++ 0#2).setWidth 64 : Word) := by
    decide
  rw [hsplit]
  exact hall _ _ _ _

theorem rorImm_lwsp :
    (rorImm ((cImm6 c).setWidth 32) 6 2).setWidth 64 =
      ((cbits c 3 2 ++ cbits c 12 12 ++ cbits c 6 4 ++ 0#2).setWidth 64 : Word) := by
  have hsplit : cbits c 6 2 = cbits c 6 4 ++ cbits c 3 2 :=
    (BitVec.extractLsb'_append_extractLsb'_eq_extractLsb' (by decide : 4 = 2 + 2)).symm
  have hall : ∀ (x : BitVec 1) (y : BitVec 3) (z : BitVec 2),
      (rorImm ((x ++ (y ++ z)).setWidth 32) 6 2).setWidth 64 =
        ((z ++ x ++ y ++ 0#2).setWidth 64 : Word) := by decide
  unfold cImm6
  rw [hsplit]
  exact hall _ _ _

theorem rorImm_ldsp :
    (rorImm ((cImm6 c).setWidth 32) 6 3).setWidth 64 =
      ((cbits c 4 2 ++ cbits c 12 12 ++ cbits c 6 5 ++ 0#3).setWidth 64 : Word) := by
  have hsplit : cbits c 6 2 = cbits c 6 5 ++ cbits c 4 2 :=
    (BitVec.extractLsb'_append_extractLsb'_eq_extractLsb' (by decide : 5 = 2 + 3)).symm
  have hall : ∀ (x : BitVec 1) (y : BitVec 2) (z : BitVec 3),
      (rorImm ((x ++ (y ++ z)).setWidth 32) 6 3).setWidth 64 =
        ((z ++ x ++ y ++ 0#3).setWidth 64 : Word) := by decide
  unfold cImm6
  rw [hsplit]
  exact hall _ _ _

theorem rorImm_swsp :
    (rorImm ((cbits c 12 7).setWidth 32) 6 2).setWidth 64 =
      ((cbits c 8 7 ++ cbits c 12 9 ++ 0#2).setWidth 64 : Word) := by
  have hsplit : cbits c 12 7 = cbits c 12 9 ++ cbits c 8 7 :=
    (BitVec.extractLsb'_append_extractLsb'_eq_extractLsb' (by decide : 9 = 7 + 2)).symm
  have hall : ∀ (x : BitVec 4) (y : BitVec 2),
      (rorImm ((x ++ y).setWidth 32) 6 2).setWidth 64 =
        ((y ++ x ++ 0#2).setWidth 64 : Word) := by decide
  rw [hsplit]
  exact hall _ _

theorem rorImm_sdsp :
    (rorImm ((cbits c 12 7).setWidth 32) 6 3).setWidth 64 =
      ((cbits c 9 7 ++ cbits c 12 10 ++ 0#3).setWidth 64 : Word) := by
  have hsplit : cbits c 12 7 = cbits c 12 10 ++ cbits c 9 7 :=
    (BitVec.extractLsb'_append_extractLsb'_eq_extractLsb' (by decide : 10 = 7 + 3)).symm
  have hall : ∀ (x y : BitVec 3),
      (rorImm ((x ++ y).setWidth 32) 6 3).setWidth 64 =
        ((y ++ x ++ 0#3).setWidth 64 : Word) := by decide
  rw [hsplit]
  exact hall _ _

end Immediates

end Nemu
