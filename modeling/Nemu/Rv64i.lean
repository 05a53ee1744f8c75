import Nemu.Loop

namespace Nemu

set_option autoImplicit true

/-- The integer operations of RV64I. -/
inductive IntOp where
  | add | sub | sll | slt | sltu | xor | srl | sra | or | and
  deriving DecidableEq

def IntOp.value : IntOp → Word → Word → Word
  | add, a, b => a + b
  | sub, a, b => a - b
  | sll, a, b => a <<< (b.toNat % 64)
  | slt, a, b => if a.toInt < b.toInt then 1 else 0
  | sltu, a, b => if a.toNat < b.toNat then 1 else 0
  | xor, a, b => a ^^^ b
  | srl, a, b => a >>> (b.toNat % 64)
  | sra, a, b => a.sshiftRight (b.toNat % 64)
  | or, a, b => a ||| b
  | and, a, b => a &&& b

/-- The operation on the low halves, with the result extended by its sign. -/
def IntOp.valueW (o : IntOp) (a b : BitVec 32) : Word :=
  match o with
  | add => (a + b).signExtend 64
  | sub => (a - b).signExtend 64
  | sll => (a <<< (b.toNat % 32)).signExtend 64
  | srl => (a >>> (b.toNat % 32)).signExtend 64
  | sra => (a.sshiftRight (b.toNat % 32)).signExtend 64
  | _ => 0

/-- The conditions of the branches of RV64I. -/
inductive Cond where
  | eq | ne | lt | ge | ltu | geu
  deriving DecidableEq

def Cond.holds : Cond → Word → Word → Bool
  | eq, a, b => a = b
  | ne, a, b => a ≠ b
  | lt, a, b => a.toInt < b.toInt
  | ge, a, b => b.toInt ≤ a.toInt
  | ltu, a, b => a.toNat < b.toNat
  | geu, a, b => b.toNat ≤ a.toNat

abbrev Regs := BitVec 5 → Word

/-- A write to `x0` has no effect. -/
def Regs.set (x : Regs) (rd : BitVec 5) (v : Word) : Regs :=
  if rd = 0 then x else Function.update x rd v

section Instructions

variable (f : Fetched)

def opImmOp : Option IntOp :=
  match f.funct3.toNat with
  | 0 => some .add
  | 1 => if f.funct6 = 0 then some .sll else none
  | 2 => some .slt
  | 3 => some .sltu
  | 4 => some .xor
  | 5 => if f.funct6 = 0 then some .srl else if f.funct6 = 0b010000 then some .sra else none
  | 6 => some .or
  | _ => some .and

def opImm32Op : Option IntOp :=
  match f.funct3.toNat with
  | 0 => some .add
  | 1 => if f.funct7 = 0 then some .sll else none
  | 5 => if f.funct7 = 0 then some .srl else if f.funct7 = 0b0100000 then some .sra else none
  | _ => none

def opOp : Option IntOp :=
  if f.funct7 = 0 then
    match f.funct3.toNat with
    | 0 => some .add
    | 1 => some .sll
    | 2 => some .slt
    | 3 => some .sltu
    | 4 => some .xor
    | 5 => some .srl
    | 6 => some .or
    | _ => some .and
  else if f.funct7 = 0b0100000 then
    match f.funct3.toNat with
    | 0 => some .sub
    | 5 => some .sra
    | _ => none
  else none

def op32Op : Option IntOp :=
  if f.funct7 = 0 then
    match f.funct3.toNat with
    | 0 => some .add
    | 1 => some .sll
    | 5 => some .srl
    | _ => none
  else if f.funct7 = 0b0100000 then
    match f.funct3.toNat with
    | 0 => some .sub
    | 5 => some .sra
    | _ => none
  else none

def branchCond : Option Cond :=
  match f.funct3.toNat with
  | 0 => some .eq
  | 1 => some .ne
  | 4 => some .lt
  | 5 => some .ge
  | 6 => some .ltu
  | 7 => some .geu
  | _ => none

/-- What RV64I says an instruction of the major opcodes OP-IMM, OP-IMM-32, OP, OP-32, BRANCH, JAL
and JALR does to the registers, and where it goes on. -/
def rv64iStep (x : Regs) : Option (Regs × Word) :=
  let low (v : Word) : BitVec 32 := v.setWidth 32
  match f.opcode.toNat with
  | 0b00100 => do
    let o ← opImmOp f
    pure (x.set f.rd (o.value (x f.rs1) f.immI), f.snpc)
  | 0b00110 => do
    let o ← opImm32Op f
    pure (x.set f.rd (o.valueW (low (x f.rs1)) (low f.immI)), f.snpc)
  | 0b01100 => do
    let o ← opOp f
    pure (x.set f.rd (o.value (x f.rs1) (x f.rs2)), f.snpc)
  | 0b01110 => do
    let o ← op32Op f
    pure (x.set f.rd (o.valueW (low (x f.rs1)) (low (x f.rs2))), f.snpc)
  | 0b11000 => do
    let c ← branchCond f
    pure (x, if c.holds (x f.rs1) (x f.rs2) then f.pc + f.immB else f.snpc)
  | 0b11011 => some (x.set f.rd f.snpc, f.pc + f.immJ)
  | 0b11001 =>
    if f.funct3 = 0 then some (x.set f.rd f.snpc, (x f.rs1 + f.immI) &&& ~~~1) else none
  | _ => none

end Instructions

end Nemu
