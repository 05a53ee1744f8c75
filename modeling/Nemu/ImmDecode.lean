import Nemu.Decode
import Nemu.Lib.OrHom

namespace Nemu

set_option autoImplicit true

section BitFields

/-- An unsigned bit-field of `riscv64_ISADecodeInfo`, as it is promoted. -/
def uintField (instr : BitVec 32) (start len : Nat) : BitVec 32 := (instr.extractLsb' start len).setWidth 32

/-- A signed one. -/
def intField (instr : BitVec 32) (start len : Nat) : BitVec 32 := (instr.extractLsb' start len).signExtend 32

def bitsOf (x : BitVec 32) (hi lo : Nat) : BitVec 32 := (x >>> lo) &&& ((1 <<< (hi - lo + 1)) - 1)

def sextOf (x : BitVec 32) (len : Nat) : Word := (x.setWidth len).signExtend 64

end BitFields

section Values

variable (instr : BitVec 32)

def simmI : Word := (intField instr 20 12).signExtend 64

def simmU : Word := (intField instr 12 20).signExtend 64 <<< 12

def simmS : Word := (intField instr 25 7 <<< 5 ||| uintField instr 7 5).signExtend 64

def offsetB : Word :=
  (intField instr 31 1 <<< 12 ||| uintField instr 7 1 <<< 11 ||| uintField instr 25 6 <<< 5 |||
    uintField instr 8 4 <<< 1).signExtend 64

def offsetJ : Word :=
  (intField instr 31 1 <<< 20 ||| uintField instr 12 8 <<< 12 ||| uintField instr 20 1 <<< 11 |||
    uintField instr 21 10 <<< 1).signExtend 64

def offsetDasicscallJ : Word :=
  (intField instr 31 1 <<< 22 ||| uintField instr 7 1 <<< 21 ||| uintField instr 15 6 <<< 15 |||
    uintField instr 8 4 <<< 11 ||| uintField instr 21 10 <<< 1).signExtend 64

/-- `decode_op_C_imm6`, which is always called without a shift. -/
def cImm6Value (imm6 : BitVec 32) (sign : Bool) (rotate : Nat) : Word :=
  if sign then sextOf imm6 6 <<< 0 else (rorImm imm6 6 rotate).setWidth 64

def rdRs1Imm6 (sign : Bool) : Word := cImm6Value (bitsOf instr 12 12 <<< 5 ||| bitsOf instr 6 2) sign 0

def simmAddi16sp : Word :=
  sextOf (bitsOf instr 12 12) 1 <<< 9 ||| (bitsOf instr 4 3 <<< 7).setWidth 64 |||
  (bitsOf instr 5 5 <<< 6).setWidth 64 |||
    (bitsOf instr 2 2 <<< 5).setWidth 64 ||| (bitsOf instr 6 6 <<< 4).setWidth 64

def immLxSP (rotate : Nat) : Word := cImm6Value (bitsOf instr 12 12 <<< 5 ||| bitsOf instr 6 2) false rotate

def immSxSP (rotate : Nat) : Word := cImm6Value (bitsOf instr 12 7) false rotate

def immAddi4spn : Word :=
  (rorImm (bitsOf instr 12 7) 6 4 ||| bitsOf instr 5 5 <<< 3 ||| bitsOf instr 6 6 <<< 2).setWidth 64

def immLdst (rotate : Nat) : Word :=
  (rorImm (bitsOf instr 12 10 <<< 2 ||| bitsOf instr 6 5) 5 rotate <<< 1).setWidth 64

def offsetCB : Word :=
  sextOf (bitsOf instr 12 12) 1 <<< 8 ||| (bitsOf instr 6 5 <<< 6).setWidth 64 |||
  (bitsOf instr 2 2 <<< 5).setWidth 64 |||
    (bitsOf instr 11 10 <<< 3).setWidth 64 ||| (bitsOf instr 4 3 <<< 1).setWidth 64

def offsetCJ : Word :=
  sextOf (bitsOf instr 12 12) 1 <<< 11 ||| (bitsOf instr 8 8 <<< 10).setWidth 64 |||
  (bitsOf instr 10 9 <<< 8).setWidth 64 |||
    (bitsOf instr 6 6 <<< 7).setWidth 64 ||| (bitsOf instr 7 7 <<< 6).setWidth 64 |||
    (bitsOf instr 2 2 <<< 5).setWidth 64 |||
    (bitsOf instr 11 11 <<< 4).setWidth 64 ||| (bitsOf instr 5 3 <<< 1).setWidth 64

end Values

section Helpers

/-- The decode helpers with an immediate. -/
inductive ImmHelper where
  | I | S | B | J | U | auipc | dasicscallJ
  | CISimm | CISimmLui | CIUimm | CLI | CAddi16sp
  | CLWSP | CLDSP | CFLDSP | CSWSP | CSDSP | CFSDSP | CAddi4spn
  | CLW | CLD | CFLD | CSW | CSD | CFSD
  | CB | CBShift | CBAndi | CJ
  deriving DecidableEq

/-- The immediate or offset that a helper puts together. -/
def ImmHelper.value (instr : BitVec 32) : ImmHelper → Word
  | .I => simmI instr
  | .S => simmS instr
  | .B => offsetB instr
  | .J => offsetJ instr
  | .U | .auipc => simmU instr
  | .dasicscallJ => offsetDasicscallJ instr
  | .CISimm | .CLI | .CBAndi => rdRs1Imm6 instr true
  | .CISimmLui => rdRs1Imm6 instr true <<< 12
  | .CIUimm | .CBShift => rdRs1Imm6 instr false
  | .CAddi16sp => simmAddi16sp instr
  | .CLWSP => immLxSP instr 2
  | .CLDSP | .CFLDSP => immLxSP instr 3
  | .CSWSP => immSxSP instr 2
  | .CSDSP | .CFSDSP => immSxSP instr 3
  | .CAddi4spn => immAddi4spn instr
  | .CLW | .CSW => immLdst instr 1
  | .CLD | .CFLD | .CSD | .CFSD => immLdst instr 2
  | .CB => offsetCB instr
  | .CJ => offsetCJ instr

/-- What is added to it. -/
def ImmHelper.base (pc : Word) : ImmHelper → Word
  | .B | .J | .auipc | .dasicscallJ | .CB | .CJ => pc
  | _ => 0

/-- What a helper refuses: the reserved code points, and floating point in a build without. -/
def ImmHelper.refuses (cfg : Config) (instr : BitVec 32) : ImmHelper → Option Stop
  | .CISimmLui =>
    if cfg.share ∧ rdRs1Imm6 instr true = 0 then some (.exception ⟨.II, none, .plain⟩) else none
  | .CAddi16sp =>
    if simmAddi16sp instr = 0 then some (if cfg.share then .exception ⟨.II, none, .plain⟩ else .abort .decode) else none
  | .CAddi4spn => if immAddi4spn instr = 0 then some (.abort .decode) else none
  | .CLWSP | .CLDSP =>
    if cfg.share ∧ bitsOf instr 11 7 = 0 then some (.exception ⟨.II, none, .plain⟩) else none
  | .CFLDSP | .CFSDSP | .CFLD | .CFSD => if cfg.fpuNone then some (.abort .decode) else none
  | _ => none

/-- The immediate of the operand that the helper sets. -/
def ImmHelper.decode (cfg : Config) (pc : Word) (instr : BitVec 32) (h : ImmHelper) : Except Stop Word :=
  match h.refuses cfg instr with
  | some stop => .error stop
  | none => .ok (h.base pc + h.value instr)

end Helpers

end Nemu
