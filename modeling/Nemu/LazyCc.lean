import Nemu.Lib.Flags
import Mathlib.Logic.Function.Basic

namespace Nemu.X86

set_option autoImplicit true

section Registers

/-- What RTL instructions read and write: `rz`, the temporary registers, those of the lazy condition codes,
and what the decoded operands point to. -/
inductive RtlReg where
  | rz | s0 | s1 | s2 | t0 | ccDest | ccSrc1 | ccSrc2
  | operand (i : Nat)
  deriving DecidableEq

inductive LazyccOp where
  | add | sub | inc | dec | neg | adc | sbb | logic
  deriving DecidableEq

/-- The operand width in bytes. -/
inductive OpWidth where
  | w1 | w2 | w4
  deriving DecidableEq

def OpWidth.bytes : OpWidth → Nat
  | .w1 => 1
  | .w2 => 2
  | .w4 => 4

def OpWidth.bits (w : OpWidth) : Nat := w.bytes * 8

structure RtlState where
  regs : RtlReg → BitVec 32
  ccOp : LazyccOp
  ccWidth : OpWidth

def RtlState.get (s : RtlState) (r : RtlReg) : BitVec 32 := if r = .rz then 0 else s.regs r

def RtlState.set (s : RtlState) (r : RtlReg) (v : BitVec 32) : RtlState := { s with regs := Function.update s.regs r v }

/-- The value of a C comparison. -/
def ofBool (b : Bool) : BitVec 32 := if b then 1 else 0

inductive Relop where
  | FALSE | TRUE | EQ | NE | LT | LE | GT | GE | LTU | LEU | GTU | GEU
  deriving DecidableEq

def interpretRelop : Relop → BitVec 32 → BitVec 32 → Bool
  | .FALSE, _, _ => false
  | .TRUE, _, _ => true
  | .EQ, src1, src2 => src1 == src2
  | .NE, src1, src2 => src1 != src2
  | .LT, src1, src2 => src1.slt src2
  | .LE, src1, src2 => src1.sle src2
  | .GT, src1, src2 => src2.slt src1
  | .GE, src1, src2 => src2.sle src1
  | .LTU, src1, src2 => src1.ult src2
  | .LEU, src1, src2 => src1.ule src2
  | .GTU, src1, src2 => src2.ult src1
  | .GEU, src1, src2 => src2.ule src1

end Registers

section Rtl

variable (s : RtlState) (dest src1 src2 : RtlReg) (imm : BitVec 32)

def rtlAdd : RtlState := s.set dest (s.get src1 + s.get src2)
def rtlAddi : RtlState := s.set dest (s.get src1 + imm)
def rtlSub : RtlState := s.set dest (s.get src1 - s.get src2)
def rtlSubi : RtlState := s.set dest (s.get src1 - imm)
def rtlAnd : RtlState := s.set dest (s.get src1 &&& s.get src2)
def rtlAndi : RtlState := s.set dest (s.get src1 &&& imm)
def rtlOr : RtlState := s.set dest (s.get src1 ||| s.get src2)
def rtlXor : RtlState := s.set dest (s.get src1 ^^^ s.get src2)
def rtlXori : RtlState := s.set dest (s.get src1 ^^^ imm)
def rtlShli (imm : Nat) : RtlState := s.set dest (s.get src1 <<< (imm &&& 0x1f))
def rtlShri (imm : Nat) : RtlState := s.set dest (s.get src1 >>> (imm &&& 0x1f))
def rtlLi : RtlState := rtlAddi s dest .rz imm
def rtlMv : RtlState := rtlAddi s dest src1 0

def rtlMsb (width : OpWidth) : RtlState :=
  let s := rtlShri s dest src1 (width.bytes * 8 - 1)
  if width ≠ .w4 then rtlAndi s dest dest 1 else s

end Rtl

section Pseudo

variable (s : RtlState)

def rtlSetrelop (relop : Relop) (dest src1 src2 : RtlReg) : RtlState :=
  s.set dest (ofBool (interpretRelop relop (s.get src1) (s.get src2)))

def rtlSetrelopi (relop : Relop) (dest src1 : RtlReg) (imm : BitVec 32) : RtlState :=
  s.set dest (ofBool (interpretRelop relop (s.get src1) imm))

def rtlIsSubOverflow (dest res src1 src2 : RtlReg) (width : OpWidth) : RtlState :=
  let s := rtlXor s .t0 src1 src2
  let s := rtlXor s dest src1 res
  let s := rtlAnd s dest .t0 dest
  rtlMsb s dest dest width

def rtlIsSubCarry (dest src1 src2 : RtlReg) : RtlState := rtlSetrelop s .LTU dest src1 src2

def rtlIsAddOverflow (dest res src1 src2 : RtlReg) (width : OpWidth) : RtlState :=
  rtlIsSubOverflow s dest src1 res src2 width

def rtlIsAddCarry (dest res src1 : RtlReg) : RtlState := rtlIsSubCarry s dest res src1

end Pseudo

section Conditions

inductive CondCode where
  | O | NO | B | NB | E | NE | BE | NBE | S | NS | P | NP | L | NL | LE | NLE
  deriving DecidableEq

def CondCode.neg : CondCode → Bool
  | .O | .B | .E | .BE | .S | .P | .L | .LE => false
  | .NO | .NB | .NE | .NBE | .NS | .NP | .NL | .NLE => true

def CondCode.negRelop (cc : CondCode) : Relop := if cc.neg then .NE else .EQ

/-- An entry of `cc2relop`: whether `UNARY` is set in it, and the relation. -/
def cc2relop : CondCode → Bool × Relop
  | .O | .NO => (false, .FALSE)
  | .B => (false, .LTU)
  | .NB => (false, .GEU)
  | .E => (true, .EQ)
  | .NE => (true, .NE)
  | .BE => (false, .LEU)
  | .NBE => (false, .GTU)
  | .S => (true, .LT)
  | .NS => (true, .GE)
  | .P | .NP => (false, .FALSE)
  | .L => (false, .LT)
  | .NL => (false, .GE)
  | .LE => (false, .LE)
  | .NLE => (false, .GT)

def cc2relopLogic : CondCode → Relop
  | .O => .FALSE
  | .NO => .TRUE
  | .B => .LTU
  | .NB => .GEU
  | .E => .EQ
  | .NE => .NE
  | .BE => .LEU
  | .NBE => .GTU
  | .S => .LT
  | .NS => .GE
  | .P | .NP => .FALSE
  | .L => .LT
  | .NL => .GE
  | .LE => .LE
  | .NLE => .GT

/-- `MASKDEST`: the state, and the register that `p` points to. -/
def maskdest (s : RtlState) (reg : RtlReg) : RtlState × RtlReg :=
  if s.ccWidth ≠ .w4 then (rtlAndi s reg .ccDest (0xffffffff >>> ((4 - s.ccWidth.bytes) * 8)), reg) else (s, .ccDest)

def negccReverse (s : RtlState) (dest : RtlReg) (cc : CondCode) : RtlState :=
  if cc.neg then rtlXori s dest dest 1 else s

/-- `0x1u << (cpu.cc_width * 8 - 1)` -/
def OpWidth.signBit (w : OpWidth) : BitVec 32 := 1 <<< (w.bytes * 8 - 1)

end Conditions

section Setcc

variable (s : RtlState) (dest : RtlReg) (cc : CondCode)

/-- The conditions that compare with zero. -/
def lazyUnary : RtlState :=
  let relop := (cc2relop cc).2
  let (s, p) := if s.ccOp = .sub then (rtlSub s dest .ccDest .ccSrc1, dest) else (s, .ccDest)
  let exception := s.ccOp = .logic ∧ (cc = .E ∨ cc = .NE)
  let (s, p) := if s.ccWidth ≠ .w4 ∧ ¬ exception then (rtlShli s dest p (32 - s.ccWidth.bytes * 8), dest) else (s, p)
  rtlSetrelop s relop dest p .rz

def lazyAdd : Option RtlState :=
  match cc with
  | .O | .NO =>
    let s := rtlSub s dest .ccDest .ccSrc1
    let s := rtlIsAddOverflow s dest .ccDest .ccSrc1 dest s.ccWidth
    some (negccReverse s dest cc)
  | .LE | .NLE =>
    let s := rtlSub s dest .ccDest .ccSrc1
    let s := rtlIsAddOverflow s .s0 .ccDest .ccSrc1 dest s.ccWidth
    let s := rtlMsb s .s1 .ccDest s.ccWidth
    let s := rtlXor s dest .s0 .s1
    let (s, p) := maskdest s .s0
    let s := rtlSetrelopi s .EQ .s0 p 0
    let s := rtlOr s dest dest .s0
    some (negccReverse s dest cc)
  | .BE | .NBE =>
    let (s, p) := maskdest s .s0
    let s := rtlIsAddCarry s .s1 p .ccSrc1
    let s := rtlSetrelopi s .EQ .s0 p 0
    let s := rtlOr s dest .s0 .s1
    some (negccReverse s dest cc)
  | _ =>
    if cc2relop cc ≠ (false, .FALSE) then
      let (s, p) := maskdest s .s0
      some (rtlSetrelop s (cc2relop cc).2 dest p .ccSrc1)
    else none

def lazySub : Option RtlState :=
  match cc with
  | .O | .NO =>
    let s := rtlSub s dest .ccDest .ccSrc1
    let s := rtlIsSubOverflow s dest dest .ccDest .ccSrc1 s.ccWidth
    some (negccReverse s dest cc)
  | _ =>
    if cc2relop cc ≠ (false, .FALSE) then some (rtlSetrelop s (cc2relop cc).2 dest .ccDest .ccSrc1) else none

def lazyNeg : Option RtlState :=
  match cc with
  | .B | .NB =>
    let s := rtlSetrelopi s .NE dest .ccDest 0
    some (negccReverse s dest cc)
  | .O | .NO => some (rtlSetrelopi s cc.negRelop dest .ccDest (-s.ccWidth.signBit))
  | .L | .NL =>
    let s := rtlSetrelopi s cc.negRelop .s0 .ccDest (-s.ccWidth.signBit)
    let s := rtlMsb s .s1 .ccDest s.ccWidth
    some (rtlXor s dest .s0 .s1)
  | .LE | .NLE =>
    let s := rtlSetrelopi s .EQ .s0 .ccDest (-s.ccWidth.signBit)
    let s := rtlMsb s .s1 .ccDest s.ccWidth
    let s := rtlXor s dest .s0 .s1
    let s := rtlSetrelopi s .EQ .s0 .ccDest 0
    let s := rtlOr s dest dest .s0
    some (negccReverse s dest cc)
  | .BE => some (rtlLi s dest 1)
  | .NBE => some (rtlLi s dest 0)
  | _ => none

def lazyInc : Option RtlState :=
  match cc with
  | .O | .NO => some (rtlSetrelopi s cc.negRelop dest .ccDest s.ccWidth.signBit)
  | .L | .NL =>
    let s := rtlSetrelopi s cc.negRelop .s0 .ccDest s.ccWidth.signBit
    let s := rtlMsb s .s1 .ccDest s.ccWidth
    some (rtlXor s dest .s0 .s1)
  | .LE | .NLE =>
    let s := rtlSetrelopi s .EQ .s0 .ccDest s.ccWidth.signBit
    let s := rtlMsb s .s1 .ccDest s.ccWidth
    let s := rtlXor s dest .s0 .s1
    let (s, p) := maskdest s .s0
    let s := rtlSetrelopi s .EQ .s0 p 0
    let s := rtlOr s dest dest .s0
    some (negccReverse s dest cc)
  | _ => none

def lazyDec : Option RtlState :=
  match cc with
  | .O | .NO =>
    let s := rtlAddi s dest .ccDest 1
    some (rtlSetrelopi s cc.negRelop dest dest s.ccWidth.signBit)
  | .L | .NL =>
    let s := rtlAddi s .s0 .ccDest 1
    let s := rtlSetrelopi s cc.negRelop .s0 .s0 s.ccWidth.signBit
    let s := rtlMsb s .s1 .ccDest s.ccWidth
    some (rtlXor s dest .s0 .s1)
  | .LE | .NLE =>
    let s := rtlAddi s .s0 .ccDest 1
    let s := rtlSetrelopi s .EQ .s0 .s0 s.ccWidth.signBit
    let s := rtlMsb s .s1 .ccDest s.ccWidth
    let s := rtlXor s dest .s0 .s1
    let s := rtlSetrelopi s .EQ .s0 .ccDest 0
    let s := rtlOr s dest dest .s0
    some (negccReverse s dest cc)
  | _ => none

def lazyAdc : Option RtlState :=
  match cc with
  | .B | .NB =>
    let (s, p) := maskdest s .s0
    let s := rtlIsAddCarry s .s1 .ccSrc1 .ccSrc2
    let s := rtlIsAddCarry s dest p .ccSrc1
    let s := rtlOr s dest .s1 dest
    some (negccReverse s dest cc)
  | .O | .NO =>
    let s := rtlSub s dest .ccDest .ccSrc1
    let s := rtlIsAddOverflow s dest .ccDest dest .ccSrc2 s.ccWidth
    some (negccReverse s dest cc)
  | .L | .NL =>
    let s := rtlSub s dest .ccDest .ccSrc1
    let s := rtlIsAddOverflow s .s0 .ccDest dest .ccSrc2 s.ccWidth
    let s := rtlMsb s .s1 .ccDest s.ccWidth
    let s := rtlXor s dest .s0 .s1
    some (negccReverse s dest cc)
  | .LE | .NLE =>
    let s := rtlSub s dest .ccDest .ccSrc1
    let s := rtlIsAddOverflow s .s0 .ccDest dest .ccSrc2 s.ccWidth
    let s := rtlMsb s .s1 .ccDest s.ccWidth
    let s := rtlXor s dest .s0 .s1
    let (s, p) := maskdest s .s0
    let s := rtlSetrelopi s .EQ .s0 p 0
    let s := rtlOr s dest dest .s0
    some (negccReverse s dest cc)
  | .BE | .NBE =>
    let (s, p) := maskdest s .s0
    let s := rtlSetrelopi s .EQ .s1 p 0
    let s := rtlIsAddCarry s .t0 .ccSrc1 .ccSrc2
    let s := rtlIsAddCarry s .s0 p .ccSrc1
    let s := rtlOr s dest .t0 .s0
    let s := rtlOr s dest dest .s1
    some (negccReverse s dest cc)
  | _ => none

def lazySbb : Option RtlState :=
  match cc with
  | .B | .NB =>
    let s := rtlSub s .s0 .ccSrc1 .ccDest
    let s := rtlIsAddCarry s .s0 .s0 .ccSrc2
    let s := rtlIsSubCarry s .s1 .ccSrc1 .ccDest
    let s := rtlOr s dest .s0 .s1
    some (negccReverse s dest cc)
  | .O | .NO =>
    let s := rtlIsSubOverflow s dest .ccDest .ccSrc1 .ccSrc2 s.ccWidth
    some (negccReverse s dest cc)
  | .L | .NL =>
    let s := rtlIsSubOverflow s .s0 .ccDest .ccSrc1 .ccSrc2 s.ccWidth
    let s := rtlMsb s .s1 .ccDest s.ccWidth
    let s := rtlXor s dest .s0 .s1
    some (negccReverse s dest cc)
  | .LE | .NLE =>
    let s := rtlIsSubOverflow s .s0 .ccDest .ccSrc1 .ccSrc2 s.ccWidth
    let s := rtlMsb s .s1 .ccDest s.ccWidth
    let s := rtlXor s dest .s0 .s1
    let (s, p) := maskdest s .s0
    let s := rtlSetrelopi s .EQ .s0 p 0
    let s := rtlOr s dest dest .s0
    some (negccReverse s dest cc)
  | .BE | .NBE =>
    let s := rtlSub s .s0 .ccSrc1 .ccDest
    let s := rtlIsAddCarry s .s0 .s0 .ccSrc2
    let s := rtlIsSubCarry s .s1 .ccSrc1 .ccDest
    let s := rtlOr s dest .s0 .s1
    let s := rtlSetrelopi s .EQ .s0 .ccDest 0
    let s := rtlOr s dest dest .s0
    some (negccReverse s dest cc)
  | _ => none

def lazyLogic : RtlState :=
  let (s, p) := match cc with
    | .LE | .NLE | .L | .NL =>
      if s.ccWidth ≠ .w4 then (rtlShli s dest .ccDest (32 - s.ccWidth.bytes * 8), dest) else (s, .ccDest)
    | _ => (s, .ccDest)
  rtlSetrelop s (cc2relopLogic cc) dest p .rz

/-- `none` is the panic. -/
def lazySetccInternal : Option RtlState :=
  let exception := s.ccOp = .sub ∧ (cc = .E ∨ cc = .NE)
  if (cc2relop cc).1 ∧ ¬ exception then some (lazyUnary s dest cc)
  else match s.ccOp with
    | .add => lazyAdd s dest cc
    | .sub => lazySub s dest cc
    | .neg => lazyNeg s dest cc
    | .inc => lazyInc s dest cc
    | .dec => lazyDec s dest cc
    | .adc => lazyAdc s dest cc
    | .sbb => lazySbb s dest cc
    | .logic => some (lazyLogic s dest cc)

end Setcc

section Executors

variable (s : RtlState)

def setLazycc (dest : RtlReg) (src1 src2 : Option RtlReg) (op : LazyccOp) (width : OpWidth) : RtlState :=
  let s := rtlMv s .ccDest dest
  let s := match src1 with
    | some src1 => rtlMv s .ccSrc1 src1
    | none => s
  let s := match src2 with
    | some src2 => rtlMv s .ccSrc2 src2
    | none => s
  { s with ccOp := op, ccWidth := width }

variable (ddest dsrc1 : RtlReg) (width : OpWidth)

def execAdd : RtlState :=
  let s := rtlMv s .ccSrc1 dsrc1
  let s := rtlAdd s ddest ddest dsrc1
  setLazycc s ddest none none .add width

def execSub : RtlState :=
  let s := setLazycc s ddest (some dsrc1) none .sub width
  rtlSub s ddest ddest dsrc1

def execCmp : RtlState := setLazycc s ddest (some dsrc1) none .sub width

def execInc : RtlState :=
  let s := rtlAddi s ddest ddest 1
  setLazycc s ddest none none .inc width

def execDec : RtlState :=
  let s := rtlSubi s ddest ddest 1
  setLazycc s ddest none none .dec width

def execNeg : RtlState :=
  let s := rtlSub s ddest .rz ddest
  setLazycc s ddest none none .neg width

/-- The carry is read as the condition `B`. -/
def execAdc : Option RtlState := do
  let s ← lazySetccInternal s .s0 .B
  let s := rtlAdd s .s0 dsrc1 .s0
  let s := rtlMv s .ccSrc2 dsrc1
  let s := rtlAdd s ddest ddest .s0
  some (setLazycc s ddest (some .s0) none .adc width)

def execSbb : Option RtlState := do
  let s ← lazySetccInternal s .s0 .B
  let s := rtlAdd s .s0 dsrc1 .s0
  let s := rtlMv s .ccSrc2 dsrc1
  let s := rtlMv s .ccSrc1 ddest
  let s := rtlSub s ddest ddest .s0
  some (setLazycc s ddest none none .sbb width)

def execXadd : RtlState :=
  let s := rtlAdd s .s0 ddest dsrc1
  let s := rtlMv s .ccSrc1 dsrc1
  setLazycc s .s0 none none .add width

def execAnd : RtlState :=
  let s := rtlAnd s ddest ddest dsrc1
  setLazycc s ddest none none .logic width

def execOr : RtlState :=
  let s := rtlOr s ddest ddest dsrc1
  setLazycc s ddest none none .logic width

def execXor : RtlState :=
  let s := rtlXor s ddest ddest dsrc1
  setLazycc s ddest none none .logic width

def execTest : RtlState :=
  let s := rtlAnd s .s0 ddest dsrc1
  setLazycc s .s0 none none .logic width

/-- The instructions that record the operands of the condition codes. -/
inductive ArithInstr where
  | add | sub | cmp | inc | dec | neg | adc | sbb | xadd | and | or | xor | test
  deriving DecidableEq

/-- An instruction up to the write-back of its result, which leaves the records alone. -/
def exec : ArithInstr → Option RtlState
  | .add => some (execAdd s ddest dsrc1 width)
  | .sub => some (execSub s ddest dsrc1 width)
  | .cmp => some (execCmp s ddest dsrc1 width)
  | .inc => some (execInc s ddest width)
  | .dec => some (execDec s ddest width)
  | .neg => some (execNeg s ddest width)
  | .adc => execAdc s ddest dsrc1 width
  | .sbb => execSbb s ddest dsrc1 width
  | .xadd => some (execXadd s ddest dsrc1 width)
  | .and => some (execAnd s ddest dsrc1 width)
  | .or => some (execOr s ddest dsrc1 width)
  | .xor => some (execXor s ddest dsrc1 width)
  | .test => some (execTest s ddest dsrc1 width)

end Executors

section Spec

/-- Where `rtl_lazy_setcc` is asked to put its result. -/
inductive SetccDest where
  | s0 | s2
  | operand (i : Nat)

@[simp]
def SetccDest.reg : SetccDest → RtlReg
  | .s0 => .s0
  | .s2 => .s2
  | .operand i => .operand i

@[simp]
def CondCode.holds (f : Flags) : CondCode → Bool
  | .O => f.of
  | .NO => !f.of
  | .B => f.cf
  | .NB => !f.cf
  | .E => f.zf
  | .NE => !f.zf
  | .BE => f.cf || f.zf
  | .NBE => !(f.cf || f.zf)
  | .S => f.sf
  | .NS => !f.sf
  | .P => f.pf
  | .NP => !f.pf
  | .L => f.sf ^^ f.of
  | .NL => !(f.sf ^^ f.of)
  | .LE => (f.sf ^^ f.of) || f.zf
  | .NLE => !((f.sf ^^ f.of) || f.zf)

/-- The carry that `adc` and `sbb` read. -/
def RtlState.carryIn (s : RtlState) : Bool :=
  match lazySetccInternal s .s0 .B with
  | some t => t.get .s0 != 0
  | none => false

/-- The flags of an instruction, from its operands and the carry before it. -/
def ArithInstr.eagerFlags {n : Nat} (a b : BitVec n) (c : Bool) : ArithInstr → Flags
  | .add | .xadd => .ofAdd a b false
  | .sub | .cmp => .ofSub a b false
  | .inc => { Flags.ofAdd a 1 false with cf := c }
  | .dec => { Flags.ofSub a 1 false with cf := c }
  | .neg => .ofSub 0 a false
  | .adc => .ofAdd a b c
  | .sbb => .ofSub a b c
  | .and | .test => .ofLogic (a &&& b)
  | .or => .ofLogic (a ||| b)
  | .xor => .ofLogic (a ^^^ b)

end Spec

end Nemu.X86
