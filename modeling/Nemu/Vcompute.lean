import Nemu.Lib.Counted
import Nemu.Rvm
import Nemu.Vreg

namespace Nemu

open Effect WideArith

set_option autoImplicit true

/-- The operations that `arthimetic_instr` distinguishes. -/
inductive VOp where
  | add | sub | rsub | minu | min | maxu | max | and | or | xor | rgather | rgatherei16
  | slideup | slidedown | adc | madc | sbc | msbc | merge | mseq | msne | msltu | mslt | msleu | msle
  | msgtu | msgt | sll | srl | sra | slide1up | slide1down | divu | div | remu | rem
  | mulhu | mul | mulhsu | mulh | mulsu | madd | nmsub | macc | nmsac | maccsu | maccus | vext
  deriving DecidableEq

inductive SrcVmode where
  | vv | vi | vx
  deriving DecidableEq

/-- The part of `Decode` that a vector executor reads. The immediate of a `vi` form stands in the
field of the first source register. -/
structure VDecode where
  dest : BitVec 5
  src1 : BitVec 5
  src2 : BitVec 5
  vWidth : Nat
  vm : Bool
  srcVmode : SrcVmode

/-- How an executor calls `arthimetic_instr`, and the mode of operands that it asserts not to have. -/
structure Arthi where
  opcode : VOp
  isSigned : Bool
  widening : Nat
  narrow : Int
  destMask : Bool
  unsupported : Option SrcVmode
  deriving DecidableEq

section Rtl

/-- The shift amounts are taken modulo 64. -/
def rtlSext (x : Word) (width : Nat) : Word :=
  if width = 8 then x
  else
    let amount := ((8 - (width : Int)) * 8 % 64).toNat
    (x <<< amount).sshiftRight amount

def rtlShl (x y : Word) : Word := x <<< (y &&& 0x3f).toNat

def rtlShr (x y : Word) : Word := x >>> (y &&& 0x3f).toNat

def rtlSar (x y : Word) : Word := x.sshiftRight (y &&& 0x3f).toNat

/-- The sum of `int64_t`, to which the `rtlreg_t` mask is added. -/
def int64Add (x y mask : Word) : VExec Word :=
  if BitVec.saddOverflow x y then throw .undefined else pure (x + y + mask)

def int64Sub (x y mask : Word) : VExec Word :=
  if BitVec.ssubOverflow x y then throw .undefined else pure (x - y - mask)

def hostDivision : Option Word → VExec Word
  | none => throw .sigfpe
  | some x => pure x

def flag (p : Prop) [Decidable p] : Word := if p then 1 else 0

end Rtl

section Arthimetic

/-- `vtype->vsew+narrow`, as `get_vreg` and `set_vreg` take it. -/
def offsetSew (vsew : Nat) (offset : Int) : Nat := (BitVec.ofInt 64 (vsew + offset)).toNat

/-- Whether every element is computed, whatever the mask. -/
def VOp.unmasked : VOp → Bool
  | merge | adc | madc | sbc | msbc => true
  | _ => false

def vs2Operand (a : Arthi) (d : VDecode) (vsew vlmul idx : Nat) : VExec Word := do
  let width := offsetSew vsew a.narrow
  let x ← getVreg d.src2 idx width vlmul a.isSigned true
  pure (if a.isSigned then rtlSext x (2 ^ width) else x)

def srcOperand (a : Arthi) (d : VDecode) (vsew vlmul idx : Nat) : VExec Word :=
  match d.srcVmode with
  | .vv => do
    let x ← getVreg d.src1 idx vsew vlmul a.isSigned true
    pure (if a.isSigned then rtlSext x (2 ^ vsew) else x)
  | .vx => do
    let s ← get
    pure (if a.isSigned then rtlSext (s.cpu.gpr d.src1) (2 ^ vsew) else s.cpu.gpr d.src1)
  | .vi => pure (if a.isSigned then d.src1.signExtend 64 else d.src1.setWidth 64)

/-- The first `switch` over the opcode: the new `*s1`. -/
def vopValue (a : Arthi) (d : VDecode) (vsew vlmul vlmax idx : Nat) (vl mask s0 s1 : Word) : VExec Word :=
  let i : Word := BitVec.ofNat 64 idx
  let readDest (vsew : Nat) : VExec Word := getVreg d.dest idx vsew vlmul a.isSigned true
  let readSrc2 (idx : Word) : VExec Word := getVreg d.src2 (asInt idx) vsew vlmul false true
  match a.opcode with
  | .add => pure (s0 + s1)
  | .sub => pure (s0 - s1)
  | .rsub => pure (s1 - s0)
  | .and => pure (s0 &&& s1)
  | .or => pure (s0 ||| s1)
  | .xor => pure (s0 ^^^ s1)
  | .min => pure (if s0.toInt < s1.toInt then s0 else s1)
  | .max => pure (if s0.toInt > s1.toInt then s0 else s1)
  | .minu => pure (if s0 < s1 then s0 else s1)
  | .maxu => pure (if s0 > s1 then s0 else s1)
  | .vext => pure s0
  | .adc => pure (s0 + s1 + mask)
  | .sbc => pure (s0 - s1 - mask)
  | .madc => do
    let tmp ← int64Add s0 s1 mask
    if 0 ≤ s1.toInt ∧ 0 ≤ s0.toInt then pure (flag (tmp.toInt < 0)) else pure (flag (0 ≤ tmp.toInt))
  | .msbc => do
    let tmp ← int64Sub s0 s1 mask
    if 0 ≤ s0.toInt ∧ 0 ≤ s1.toInt then pure (flag (tmp.toInt < 0)) else pure (flag (0 ≤ tmp.toInt))
  | .sll => pure (rtlShl s0 (s1 &&& BitVec.ofInt 64 (d.vWidth * 8 - 1)))
  | .srl =>
    let scale : Int := if a.narrow = 0 then 8 else 16
    pure (rtlShr s0 (s1 &&& BitVec.ofInt 64 (d.vWidth * scale - 1)))
  | .sra =>
    let scale : Nat := if a.narrow = 0 then 1 else 2
    pure (rtlSar (rtlSext s0 (d.vWidth * scale)) (s1 &&& BitVec.ofInt 64 (d.vWidth * (scale * 8) - 1)))
  | .mulhu => pure (((s0.setWidth 128 * s1.setWidth 128) >>> (d.vWidth * 8)).setWidth 64)
  | .mul => pure (s0 * s1)
  | .mulsu => pure (rtlSext s0 (2 ^ vsew) * s1)
  | .mulhsu =>
    let t0 := s1 &&& rtlSar (rtlSext s0 d.vWidth) (BitVec.ofInt 64 (d.vWidth * 8 - 1))
    pure (((s0.setWidth 128 * s1.setWidth 128) >>> (d.vWidth * 8)).setWidth 64 - t0)
  | .mulh =>
    let x := rtlSext s0 d.vWidth
    let y := rtlSext s1 d.vWidth
    pure (((x.signExtend 128 * y.signExtend 128).sshiftRight (d.vWidth * 8)).setWidth 64)
  | .macc => do
    let z ← readDest (vsew + a.widening)
    pure (s0 * s1 + z)
  | .maccsu => do
    let z ← readDest (vsew + a.widening)
    pure (s0 * rtlSext s1 (2 ^ vsew) + z)
  | .maccus => do
    let z ← readDest (vsew + a.widening)
    pure (rtlSext s0 (2 ^ vsew) * s1 + z)
  | .nmsac => do
    let z ← readDest vsew
    pure (z - s0 * s1)
  | .madd => do
    let z ← readDest vsew
    pure (s1 * z + s0)
  | .nmsub => do
    let z ← readDest vsew
    pure (s0 - z * s1)
  | .divu => if s1 = 0 then pure (-1) else hostDivision (rtlDivuQ s0 s1)
  | .div =>
    let x := rtlSext s0 d.vWidth
    let y := rtlSext s1 d.vWidth
    if y = 0 then pure (-1)
    else if x = 0x8000000000000000 ∧ y = -1 then pure x
    else hostDivision (rtlDivsQ x y)
  | .remu => if s1 = 0 then pure s0 else hostDivision (rtlDivuR s0 s1)
  | .rem =>
    let x := rtlSext s0 d.vWidth
    let y := rtlSext s1 d.vWidth
    if y = 0 then pure x
    -- the divisor is tested twice
    else if y = 0x8000000000000000 ∧ y = -1 then pure 0
    else hostDivision (rtlDivsR x y)
  | .merge => pure (if mask = 0 then s0 else s1)
  | .mseq => pure (flag (s0 = s1))
  | .msne => pure (flag (s0 ≠ s1))
  | .msltu => pure (flag (s0 < s1))
  | .mslt => pure (flag (s0.toInt < s1.toInt))
  | .msleu => pure (flag (s0 ≤ s1))
  | .msle => pure (flag (s0.toInt ≤ s1.toInt))
  | .msgtu => pure (flag (s0 > s1))
  | .msgt => pure (flag (s0.toInt > s1.toInt))
  | .slideup => if i ≥ s1 then readSrc2 (i - s1) else getVreg d.dest idx vsew vlmul false true
  | .slidedown => if i + s1 < BitVec.ofNat 64 vlmax then readSrc2 (i + s1) else pure 0
  | .slide1up => if 0 < idx then getVreg d.src2 (idx - 1 : Nat) vsew vlmul false true else pure s1
  | .slide1down => if i < vl - 1 then getVreg d.src2 (idx + 1 : Nat) vsew vlmul false true else pure s1
  | .rgather => if s1 < BitVec.ofNat 64 vlmax then readSrc2 s1 else pure 0
  | .rgatherei16 => do
    let j ← getVreg d.src1 idx 1 vlmul false true
    if j < BitVec.ofNat 64 vlmax then readSrc2 j else pure 0

def vopStore (a : Arthi) (d : VDecode) (vsew vlmul idx : Nat) (s1 : Word) : VExec Unit :=
  if a.destMask then setMask d.dest idx s1
  else setVreg d.dest idx s1 (vsew + a.widening) vlmul true

def vopRound (a : Arthi) (d : VDecode) (vlmax idx : Nat) : VExec Unit := do
  let s ← get
  let vsew := s.cpu.vsew
  let vlmul := s.cpu.vlmul
  let mask ← getMask 0 idx
  if d.vm = false ∧ a.opcode.unmasked = false ∧ mask = 0 then pure ()
  else do
    let mask := if d.vm = true ∧ a.opcode = .merge then 1 else mask
    let s0 ← vs2Operand a d vsew vlmul idx
    let s1 ← srcOperand a d vsew vlmul idx
    let s1 ← vopValue a d vsew vlmul vlmax idx (s.cpu.csr .vl) mask s0 s1
    vopStore a d vsew vlmul idx s1

/-- The loop counter is an `int`, and is compared with `vl` as a `uint64_t`. A negative one is no
index of a mask bit. -/
def arthimeticInstr (a : Arthi) (d : VDecode) : VExec Unit := do
  let s ← get
  match getVlmax s.cpu.vsew s.cpu.vlmul with
  | none => throw .undefined
  | some vlmax => do
    let idx := asInt (s.cpu.csr .vstart)
    let vl := s.cpu.csr .vl
    if 0 ≤ idx then counted (vopRound a d vlmax) idx.toNat (vl.toNat - idx.toNat)
    else if BitVec.ofInt 64 idx < vl then throw .undefined
    else pure ()
    modify fun s => { s with cpu := s.cpu.setCsr .vstart 0 }

end Arthimetic

section Executors

def arthi (opcode : VOp) (isSigned : Bool) : Arthi := ⟨opcode, isSigned, 0, 0, false, none⟩

def arthiWide (opcode : VOp) (isSigned : Bool) : Arthi := ⟨opcode, isSigned, 1, 0, false, none⟩

def arthiMask (opcode : VOp) (isSigned : Bool) : Arthi := ⟨opcode, isSigned, 0, 0, true, none⟩

def arthiNarrow (opcode : VOp) (isSigned : Bool) (narrow : Int) : Arthi := ⟨opcode, isSigned, 0, narrow, false, none⟩

/-- The executor asserts that the mode of its operands is another one. -/
def Arthi.without (a : Arthi) (mode : SrcVmode) : Arthi := { a with unsupported := some mode }

def Arthi.vadd : Arthi := arthi .add true
def Arthi.vsub : Arthi := (arthi .sub true).without .vi
def Arthi.vrsub : Arthi := (arthi .rsub true).without .vv
def Arthi.vminu : Arthi := arthi .minu false
def Arthi.vmin : Arthi := arthi .min true
def Arthi.vmaxu : Arthi := arthi .maxu false
def Arthi.vmax : Arthi := arthi .max true
def Arthi.vand : Arthi := arthi .and true
def Arthi.vor : Arthi := arthi .or true
def Arthi.vxor : Arthi := arthi .xor true
def Arthi.vrgather : Arthi := arthi .rgather false
def Arthi.vrgatherei16 : Arthi := arthi .rgatherei16 false
def Arthi.vslideup : Arthi := arthi .slideup false
def Arthi.vslidedown : Arthi := arthi .slidedown false
def Arthi.vslide1up : Arthi := arthi .slide1up false
def Arthi.vslide1down : Arthi := arthi .slide1down false
def Arthi.vadc : Arthi := arthi .adc true
def Arthi.vmadc : Arthi := arthiMask .madc true
def Arthi.vsbc : Arthi := arthi .sbc true
def Arthi.vmsbc : Arthi := arthiMask .msbc true
def Arthi.vmerge : Arthi := arthi .merge true
def Arthi.vmseq : Arthi := arthiMask .mseq true
def Arthi.vmsne : Arthi := arthiMask .msne true
def Arthi.vmsltu : Arthi := (arthiMask .msltu false).without .vi
def Arthi.vmslt : Arthi := (arthiMask .mslt true).without .vi
def Arthi.vmsleu : Arthi := arthiMask .msleu false
def Arthi.vmsle : Arthi := arthiMask .msle true
def Arthi.vmsgtu : Arthi := (arthiMask .msgtu false).without .vv
def Arthi.vmsgt : Arthi := (arthiMask .msgt true).without .vv
def Arthi.vsll : Arthi := arthi .sll false
def Arthi.vsrl : Arthi := arthi .srl false
def Arthi.vsra : Arthi := arthi .sra false
def Arthi.vnsrl : Arthi := arthiNarrow .srl false 1
def Arthi.vnsra : Arthi := arthiNarrow .sra false 1
def Arthi.vzextvf8 : Arthi := arthiNarrow .vext false (-3)
def Arthi.vsextvf8 : Arthi := arthiNarrow .vext true (-3)
def Arthi.vzextvf4 : Arthi := arthiNarrow .vext false (-2)
def Arthi.vsextvf4 : Arthi := arthiNarrow .vext true (-2)
def Arthi.vzextvf2 : Arthi := arthiNarrow .vext false (-1)
def Arthi.vsextvf2 : Arthi := arthiNarrow .vext true (-1)
def Arthi.vdivu : Arthi := (arthi .divu false).without .vi
def Arthi.vdiv : Arthi := (arthi .div true).without .vi
def Arthi.vremu : Arthi := (arthi .remu false).without .vi
def Arthi.vrem : Arthi := (arthi .rem true).without .vi
def Arthi.vmulhu : Arthi := (arthi .mulhu false).without .vi
def Arthi.vmul : Arthi := (arthi .mul true).without .vi
def Arthi.vmulhsu : Arthi := (arthi .mulhsu false).without .vi
def Arthi.vmulh : Arthi := (arthi .mulh true).without .vi
def Arthi.vmadd : Arthi := arthi .madd true
def Arthi.vnmsub : Arthi := arthi .nmsub true
def Arthi.vmacc : Arthi := arthi .macc true
def Arthi.vnmsac : Arthi := arthi .nmsac true
def Arthi.vwaddu : Arthi := arthiWide .add false
def Arthi.vwadd : Arthi := arthiWide .add true
def Arthi.vwsubu : Arthi := arthiWide .sub false
def Arthi.vwsub : Arthi := arthiWide .sub true
def Arthi.vwadduW : Arthi := ⟨.add, false, 1, 1, false, none⟩
def Arthi.vwaddW : Arthi := ⟨.add, true, 1, 1, false, none⟩
def Arthi.vwsubuW : Arthi := ⟨.sub, false, 1, 1, false, none⟩
def Arthi.vwsubW : Arthi := ⟨.sub, true, 1, 1, false, none⟩
def Arthi.vwmulu : Arthi := arthiWide .mul false
def Arthi.vwmulsu : Arthi := arthiWide .mulsu false
def Arthi.vwmul : Arthi := arthiWide .mul true
def Arthi.vwmaccu : Arthi := arthiWide .macc false
def Arthi.vwmacc : Arthi := arthiWide .macc true
def Arthi.vwmaccsu : Arthi := arthiWide .maccsu false
def Arthi.vwmaccus : Arthi := arthiWide .maccus false

/-- The tables of the integer operations, with the executors that call `arthimetic_instr`. They differ
in one of these. -/
def vopi (e : Arthi) : List (BitVec 6 × Arthi) :=
  [(0b000000, .vadd), (0b000010, .vsub), (0b000011, .vrsub), (0b000100, .vminu), (0b000101, .vmin),
    (0b000110, .vmaxu), (0b000111, .vmax), (0b001001, .vand), (0b001010, .vor), (0b001011, .vxor),
    (0b001100, .vrgather), (0b001110, e), (0b001111, .vslidedown), (0b010000, .vadc), (0b010001, .vmadc),
    (0b010010, .vsbc), (0b010011, .vmsbc), (0b010111, .vmerge), (0b011000, .vmseq), (0b011001, .vmsne),
    (0b011010, .vmsltu), (0b011011, .vmslt), (0b011100, .vmsleu), (0b011101, .vmsle), (0b011110, .vmsgtu),
    (0b011111, .vmsgt), (0b100101, .vsll), (0b101000, .vsrl), (0b101001, .vsra), (0b101100, .vnsrl),
    (0b101101, .vnsra)]

def vopivv : List (BitVec 6 × Arthi) := vopi .vrgatherei16

def vopivx : List (BitVec 6 × Arthi) := vopi .vslideup

def vopivi : List (BitVec 6 × Arthi) := vopi .vslideup

def vopm : List (BitVec 6 × Arthi) :=
  [(0b001110, .vslide1up), (0b001111, .vslide1down), (0b100000, .vdivu), (0b100001, .vdiv),
    (0b100010, .vremu), (0b100011, .vrem), (0b100100, .vmulhu), (0b100101, .vmul),
    (0b100110, .vmulhsu), (0b100111, .vmulh), (0b101001, .vmadd), (0b101011, .vnmsub),
    (0b101101, .vmacc), (0b101111, .vnmsac), (0b110000, .vwaddu), (0b110001, .vwadd),
    (0b110010, .vwsubu), (0b110011, .vwsub), (0b110100, .vwadduW), (0b110101, .vwaddW),
    (0b110110, .vwsubuW), (0b110111, .vwsubW), (0b111000, .vwmulu), (0b111010, .vwmulsu),
    (0b111011, .vwmul), (0b111100, .vwmaccu), (0b111101, .vwmacc), (0b111110, .vwmaccus),
    (0b111111, .vwmaccsu)]

/-- The bits of the first source field select the executor. -/
def vxunary0Dispatch : List (BitVec 5 × Arthi) :=
  [(0b00010, .vzextvf8), (0b00011, .vsextvf8), (0b00100, .vzextvf4), (0b00101, .vsextvf4),
    (0b00110, .vzextvf2), (0b00111, .vsextvf2)]

def vFunct3 (instr : BitVec 32) : BitVec 3 := instr.extractLsb' 12 3

def vFunct6 (instr : BitVec 32) : BitVec 6 := instr.extractLsb' 26 6

/-- `OP_V`: the executor that an instruction selects. `none` where there is none, or one that does
not call `arthimetic_instr`. -/
def tableOpV (instr : BitVec 32) : Option Arthi :=
  match (vFunct3 instr).toNat with
  | 0 => vopivv.lookup (vFunct6 instr)
  | 3 => vopivi.lookup (vFunct6 instr)
  | 4 => vopivx.lookup (vFunct6 instr)
  | 2 | 6 =>
    if vFunct6 instr = 0b010010 then vxunary0Dispatch.lookup (instr.extractLsb' 15 5)
    else vopm.lookup (vFunct6 instr)
  | _ => none

def srcVmode (instr : BitVec 32) : SrcVmode :=
  match (vFunct3 instr).toNat with
  | 0 | 1 => .vv
  | 2 => if vFunct6 instr = 0b010010 then .vi else .vv
  | 3 => .vi
  | 6 => if vFunct6 instr = 0b010010 then .vi else .vx
  | _ => .vx

/-- The record as it is decoded in the state `s`. -/
def decodeOpV (s : Machine) (instr : BitVec 32) : VDecode where
  dest := instr.extractLsb' 7 5
  src1 := instr.extractLsb' 15 5
  src2 := instr.extractLsb' 20 5
  vWidth := 2 ^ s.vsew
  vm := instr.getLsbD 25
  srcVmode := srcVmode instr

/-- The executor that calls `arthimetic_instr`. -/
def Arthi.exec (a : Arthi) (d : VDecode) : VExec Unit :=
  if a.unsupported = some d.srcVmode then throw .assertion else arthimeticInstr a d

def execOpV (a : Arthi) (instr : BitVec 32) : VExec Unit := do
  let s ← get
  a.exec (decodeOpV s.cpu instr)

/-- An instruction that calls `arthimetic_instr` and ends. -/
def Executes (instr : BitVec 32) (s t : VState) : Prop :=
  ∃ a, tableOpV instr = some a ∧ execOpV a instr s = .ok () t

theorem executes_iff {a : Arthi} {instr : BitVec 32} {s t : VState} (h : tableOpV instr = some a)
    (hmode : a.unsupported ≠ some (srcVmode instr)) :
    Executes instr s t ↔ arthimeticInstr a (decodeOpV s.cpu instr) s = .ok () t := by
  have hexec : execOpV a instr s = arthimeticInstr a (decodeOpV s.cpu instr) s :=
    (get_bind _ s).trans (congrFun (if_neg hmode) s)
  constructor
  · rintro ⟨b, hb, hrun⟩
    obtain rfl : a = b := Option.some.inj (h.symm.trans hb)
    exact hexec.symm.trans hrun
  · exact fun hrun => ⟨a, h, hexec.trans hrun⟩

end Executors

/-- A state with a configuration and contents of the vector registers. -/
def configuredAs (vtype vl : Word) (vr : BitVec 5 → BitVec 128) : Machine :=
  { oddTarget with
    csr := fun c => if c = .vtype then vtype else if c = .vl then vl else oddTarget.csr c
    vr := vr }

section Operands

variable {a : Arthi} {d : VDecode} {vsew vlmul vlmax i : Nat} {s : VState} {reg : BitVec 5} {sg al : Bool}
  {idx : Int} {p : BitVec 5 × Nat}

theorem getVreg_eq (h : vregPlace reg idx vsew vlmul al = some p) :
    getVreg reg idx vsew vlmul sg al s =
      .ok (extendElem vsew sg (Packed.get (sew vsew) s.cpu.vr p)) { s with reads := s.reads ++ [idx] } := by
  unfold getVreg
  rw [h]
  rfl

theorem setVreg_eq {x : Word} (h : vregPlace reg idx vsew vlmul al = some p) :
    setVreg reg idx x vsew vlmul al s = .ok ()
      { s with cpu := { s.cpu with vr := Packed.set s.cpu.vr p (x.setWidth (sew vsew)) } } := by
  unfold setVreg
  rw [h]
  rfl

theorem rtlSext_eq (h : vsew ≤ 3) (x : Word) : rtlSext x (2 ^ vsew) = (x.setWidth (sew vsew)).signExtend 64 := by
  rcases le_three h with rfl | rfl | rfl | rfl
  · exact shiftLeft_sshiftRight (by decide) x
  · exact shiftLeft_sshiftRight (by decide) x
  · exact shiftLeft_sshiftRight (by decide) x
  · change x = (x.setWidth 64).signExtend 64
    rw [BitVec.setWidth_eq, BitVec.signExtend_eq]

/-- An element is extended again after it was read, so that it does not matter how. -/
theorem rtlSext_extendElem (h : vsew ≤ 3) (x : BitVec (sew vsew)) (sg : Bool) :
    rtlSext (extendElem vsew sg x) (2 ^ vsew) = x.signExtend 64 := by
  rw [rtlSext_eq h]
  unfold extendElem
  split
  · rw [setWidth_signExtend (sew_le h)]
  · rw [BitVec.setWidth_setWidth_of_le _ (sew_le h), BitVec.setWidth_eq]

/-- The element of `vs2` that a round reads. -/
def Machine.vs2Value (m : Machine) (d : VDecode) (sg : Bool) (i : Nat) : Word :=
  if sg then (m.elem m.vsew d.src2 i).signExtend 64 else (m.elem m.vsew d.src2 i).setWidth 64

/-- The other operand, as SEW bits. -/
def Machine.src (m : Machine) (d : VDecode) (sg : Bool) (i : Nat) : BitVec (sew m.vsew) :=
  match d.srcVmode with
  | .vv => m.elem m.vsew d.src1 i
  | .vx => (m.gpr d.src1).setWidth (sew m.vsew)
  | .vi => if sg then d.src1.signExtend (sew m.vsew) else d.src1.setWidth (sew m.vsew)

/-- The other operand, as a round reads it. An unsigned scalar is not cut to SEW bits. -/
def Machine.srcValue (m : Machine) (d : VDecode) (sg : Bool) (i : Nat) : Word :=
  if sg then (m.src d true i).signExtend 64
  else match d.srcVmode with
    | .vv => (m.elem m.vsew d.src1 i).setWidth 64
    | .vx => m.gpr d.src1
    | .vi => d.src1.setWidth 64

/-- The indices that the operands of a round pass to `get_vreg`. -/
def VDecode.fetches (d : VDecode) (i : Nat) : List Int :=
  if d.srcVmode = .vv then [(i : Int), i] else [(i : Int)]

def Machine.maskWord (m : Machine) (i : Nat) : Word := if m.maskBit 0 i then 1 else 0

/-- Whether a round leaves the destination alone. -/
def Machine.Skips (m : Machine) (a : Arthi) (d : VDecode) (i : Nat) : Prop :=
  d.vm = false ∧ a.opcode.unmasked = false ∧ m.maskBit 0 i = false

instance : Decidable (Machine.Skips m a d i) := inferInstanceAs (Decidable (_ ∧ _ ∧ _))

/-- The sources of an instruction are register groups. -/
structure Grouped (d : VDecode) (m : Machine) : Prop where
  sew : m.vsew ≤ 3
  lmul : m.vlmul ≤ 3
  src2 : Aligned m.vlmul d.src2
  src1 : d.srcVmode = .vv → Aligned m.vlmul d.src1

theorem offsetSew_zero (h : vsew ≤ 3) : offsetSew vsew 0 = vsew := by
  rcases le_three h with rfl | rfl | rfl | rfl <;> rfl

theorem vs2Operand_eq (hg : Grouped d s.cpu) (hn : a.narrow = 0) (hi : i < vlmaxOf s.cpu.vsew s.cpu.vlmul) :
    vs2Operand a d s.cpu.vsew s.cpu.vlmul i s =
      .ok (s.cpu.vs2Value d a.isSigned i) { s with reads := s.reads ++ [(i : Int)] } := by
  rw [vlmaxOf_eq hg.sew hg.lmul] at hi
  have hget : getVreg d.src2 i s.cpu.vsew s.cpu.vlmul a.isSigned true s = _ :=
    getVreg_eq (vregPlace_group hg.sew hg.lmul hg.src2 hi)
  unfold vs2Operand Machine.vs2Value
  rw [hn, offsetSew_zero hg.sew]
  refine (bind_ok hget).trans ?_
  cases a.isSigned with
  | true => exact congrArg (EStateM.Result.ok · _) (rtlSext_extendElem hg.sew _ true)
  | false => rfl

theorem srcOperand_eq (hg : Grouped d s.cpu) (hi : i < vlmaxOf s.cpu.vsew s.cpu.vlmul) :
    srcOperand a d s.cpu.vsew s.cpu.vlmul i s =
      .ok (s.cpu.srcValue d a.isSigned i)
        { s with reads := s.reads ++ if d.srcVmode = .vv then [(i : Int)] else [] } := by
  rw [vlmaxOf_eq hg.sew hg.lmul] at hi
  have hreads : { s with reads := s.reads ++ [] } = s := by rw [List.append_nil]
  unfold srcOperand Machine.srcValue Machine.src
  cases hm : d.srcVmode with
  | vv =>
    have hget : getVreg d.src1 i s.cpu.vsew s.cpu.vlmul a.isSigned true s = _ :=
      getVreg_eq (vregPlace_group hg.sew hg.lmul (hg.src1 hm) hi)
    refine (bind_ok hget).trans ?_
    cases a.isSigned with
    | true => exact congrArg (EStateM.Result.ok · _) (rtlSext_extendElem hg.sew _ true)
    | false => rfl
  | vx =>
    change _ = EStateM.Result.ok _ { s with reads := s.reads ++ [] }
    rw [hreads]
    cases a.isSigned with
    | true => exact congrArg (EStateM.Result.ok · _) (rtlSext_eq hg.sew _)
    | false => rfl
  | vi =>
    change _ = EStateM.Result.ok _ { s with reads := s.reads ++ [] }
    rw [hreads]
    cases a.isSigned with
    | true =>
      have hwide : (d.src1.signExtend (sew s.cpu.vsew)).signExtend 64 = d.src1.signExtend 64 :=
        signExtend_signExtend (Nat.le_trans (by decide) (eight_le_sew _)) d.src1
      exact congrArg (EStateM.Result.ok · _) hwide.symm
    | false => rfl

theorem fetches_bounds {n : Nat} (hi : i < n) : ∀ r ∈ d.fetches i, 0 ≤ r ∧ r < (n : Int) := by
  intro r hr
  have heq : r = i := by
    unfold VDecode.fetches at hr
    split at hr <;> simp at hr <;> exact hr
  rw [heq]
  exact ⟨Int.natCast_nonneg i, Int.ofNat_lt.mpr hi⟩

theorem vopRound_eq (hg : Grouped d s.cpu) (hn : a.narrow = 0) (ha : a.opcode ≠ .merge)
    (hi : i < vlmaxOf s.cpu.vsew s.cpu.vlmul) (hlen : i < vlen) :
    vopRound a d vlmax i s =
      if s.cpu.Skips a d i then .ok () s
      else (vopValue a d s.cpu.vsew s.cpu.vlmul vlmax i (s.cpu.csr .vl) (s.cpu.maskWord i)
          (s.cpu.vs2Value d a.isSigned i) (s.cpu.srcValue d a.isSigned i) >>=
            vopStore a d s.cpu.vsew s.cpu.vlmul i) { s with reads := s.reads ++ d.fetches i } := by
  have hmask : getMask 0 i s = .ok (s.cpu.maskWord i) s := by
    unfold getMask
    rw [get_bind, if_pos hlen]
    rfl
  have hzero : s.cpu.maskWord i = 0 ↔ s.cpu.maskBit 0 i = false := by
    unfold Machine.maskWord
    cases s.cpu.maskBit 0 i <;> decide
  unfold vopRound
  rw [get_bind]
  refine (bind_ok hmask).trans ?_
  by_cases hskip : s.cpu.Skips a d i
  · rw [if_pos hskip, if_pos ⟨hskip.1, hskip.2.1, hzero.mpr hskip.2.2⟩]
    rfl
  · rw [if_neg hskip, if_neg fun h => hskip ⟨h.1, h.2.1, hzero.mp h.2.2⟩]
    have hs0 : vs2Operand a d s.cpu.vsew s.cpu.vlmul i s = _ := vs2Operand_eq hg hn hi
    have hs1 := srcOperand_eq (a := a) (s := { s with reads := s.reads ++ [(i : Int)] }) hg hi
    have hreads : s.reads ++ [(i : Int)] ++ (if d.srcVmode = .vv then [(i : Int)] else []) =
        s.reads ++ d.fetches i := by
      unfold VDecode.fetches
      split
      · rw [List.append_assoc]
        rfl
      · rw [List.append_nil]
    refine (bind_ok hs0).trans ((bind_ok hs1).trans ?_)
    rw [if_neg (fun h => ha h.2)]
    dsimp only
    rw [hreads]

end Operands

section Instructions

/-- What the V extension lets an instruction presume: LMUL is not below SEW / 64, and `vl` and `vstart`
are not beyond the elements of a group. -/
structure Configured (m : Machine) : Prop where
  sew : m.vsew ≤ 3
  lmul : m.vlmul ≤ 3 ∨ m.vsew + 5 ≤ m.vlmul
  vl : (m.csr .vl).toNat ≤ vlmaxOf m.vsew m.vlmul
  vstart : (m.csr .vstart).toNat ≤ vlmaxOf m.vsew m.vlmul

/-- The indices from `vstart` on and below `vl`. -/
def Machine.Body (m : Machine) (i : Nat) : Prop := (m.csr .vstart).toNat ≤ i ∧ i < (m.csr .vl).toNat

/-- From `m` to `t` an instruction writes `spec i` to the element at `place i`, for the indices `i` of
the body that are active, and nothing else but `vstart`. -/
structure Writes {w : Nat} (m t : Machine) (place : Nat → BitVec 5 × Nat) (active : Nat → Prop)
    (spec : Nat → BitVec w) : Prop where
  value : ∀ i, m.Body i → active i → Packed.get w t.vr (place i) = spec i
  others : ∀ p, (∀ i, m.Body i → active i → place i ≠ p) → Packed.get w t.vr p = Packed.get w m.vr p
  rest : t = ({ m with vr := t.vr }).setCsr .vstart 0

/-- Only indices below `n` were passed to `get_vreg`. -/
def ReadsBelow (n : Nat) (s t : VState) : Prop := ∀ r ∈ t.reads, r ∈ s.reads ∨ (0 ≤ r ∧ r < n)

variable {w : Nat} {a : Arthi} {d : VDecode} {s t : VState} {place : Nat → BitVec 5 × Nat}
  {out : Nat → Option (BitVec w)} {active : Nat → Prop} {spec : Nat → BitVec w}

/-- What one round does with index `i`: `none` is written where it does not end. -/
structure RoundGives (a : Arthi) (d : VDecode) (n i : Nat) (u : VState) (p : BitVec 5 × Nat)
    (active : Prop) (out : Option (BitVec w)) : Prop where
  skip : ¬ active → vopRound a d n i u = .ok () u
  write : active → ∀ x, out = some x → ∃ reads, (∀ r ∈ reads, 0 ≤ r ∧ r < (n : Int)) ∧
    vopRound a d n i u =
      .ok () ⟨{ u.cpu with vr := Packed.set u.cpu.vr p x }, u.reads ++ reads⟩
  stop : active → out = none → ∀ u', vopRound a d n i u ≠ .ok () u'

variable [DecidablePred active]

/-- The registers before the round with index `i`. -/
def Machine.vrBefore (m : Machine) (place : Nat → BitVec 5 × Nat) (active : Nat → Prop) [DecidablePred active]
    (out : Nat → Option (BitVec w)) (i : Nat) : BitVec 5 → BitVec 128 :=
  Packed.setAll m.vr place (fun i => if active i then out i else none) (m.csr .vstart).toNat
    (i - (m.csr .vstart).toNat)

theorem vrBefore_step_skip {m : Machine} {i : Nat} (hi : (m.csr .vstart).toNat ≤ i) (h : ¬ active i) :
    m.vrBefore place active out (i + 1) = m.vrBefore place active out i := by
  unfold Machine.vrBefore
  rw [Nat.succ_sub hi]
  apply Packed.setAll_skip
  rw [Nat.add_sub_cancel' hi, if_neg h]

theorem vrBefore_step_write {m : Machine} {i : Nat} {x : BitVec w} (hi : (m.csr .vstart).toNat ≤ i)
    (h : active i) (hx : out i = some x) :
    m.vrBefore place active out (i + 1) = Packed.set (m.vrBefore place active out i) (place i) x := by
  have hval : (fun i => if active i then out i else none) ((m.csr .vstart).toNat + (i - (m.csr .vstart).toNat)) =
      some x := by
    rw [Nat.add_sub_cancel' hi]
    exact (if_pos h).trans hx
  unfold Machine.vrBefore
  rw [Nat.succ_sub hi, Packed.setAll_write hval, Nat.add_sub_cancel' hi]

/-- The state before the round with index `i`. -/
def Before (n : Nat) (s : VState) (place : Nat → BitVec 5 × Nat) (active : Nat → Prop) [DecidablePred active]
    (out : Nat → Option (BitVec w)) (i : Nat) (u : VState) : Prop :=
  u.cpu = { s.cpu with vr := s.cpu.vrBefore place active out i } ∧ ReadsBelow n s u

theorem before_start (n : Nat) : Before n s place active out (s.cpu.csr .vstart).toNat s := by
  constructor
  · unfold Machine.vrBefore
    rw [Nat.sub_self]
    rfl
  · exact fun r hr => .inl hr

variable {n : Nat}

theorem before_step {i : Nat} {u : VState} (hi : s.cpu.Body i)
    (hr : RoundGives a d n i u (place i) (active i) (out i)) (hu : Before n s place active out i u)
    (hgood : active i → out i ≠ none) :
    ∃ u', vopRound a d n i u = .ok () u' ∧ Before n s place active out (i + 1) u' := by
  obtain ⟨hcpu, hreads⟩ := hu
  by_cases hact : active i
  · obtain ⟨x, hx⟩ := Option.ne_none_iff_exists'.mp (hgood hact)
    obtain ⟨reads, hlow, hrun⟩ := hr.write hact x hx
    refine ⟨_, hrun, ?_, ?_⟩
    · rw [vrBefore_step_write hi.1 hact hx, hcpu]
    · intro r hr
      rcases List.mem_append.mp hr with hr | hr
      · exact hreads r hr
      · exact .inr (hlow r hr)
  · refine ⟨u, hr.skip hact, ?_, hreads⟩
    rw [vrBefore_step_skip hi.1 hact]
    exact hcpu

theorem asInt_of_lt {x : Word} (h : x.toNat < 2 ^ 31) : asInt x = x.toNat := by
  have hcut : (x.setWidth 32).toNat = x.toNat := by
    rw [BitVec.toNat_setWidth]
    exact Nat.mod_eq_of_lt (by omega)
  unfold asInt
  rw [BitVec.toInt_eq_toNat_of_lt (by omega), hcut]

theorem vlmaxOf_le {vsew vlmul : Nat} (hsew : vsew ≤ 3) (hmul : vlmul ≤ 3) : vlmaxOf vsew vlmul ≤ vlen := by
  rcases le_three hsew with rfl | rfl | rfl | rfl <;>
    rcases le_three hmul with rfl | rfl | rfl | rfl <;> decide

theorem arthimeticInstr_eq (hc : Configured s.cpu) (hmul : s.cpu.vlmul ≤ 3) :
    arthimeticInstr a d s =
      (counted (vopRound a d (vlmaxOf s.cpu.vsew s.cpu.vlmul)) (s.cpu.csr .vstart).toNat
          ((s.cpu.csr .vl).toNat - (s.cpu.csr .vstart).toNat) >>= fun _ =>
        modify fun s => { s with cpu := s.cpu.setCsr .vstart 0 }) s := by
  have hle := hc.vstart.trans (vlmaxOf_le hc.sew hmul)
  have hidx : asInt (s.cpu.csr .vstart) = (s.cpu.csr .vstart).toNat :=
    asInt_of_lt (Nat.lt_of_le_of_lt hle (by decide))
  unfold arthimeticInstr
  rw [get_bind, getVlmax_eq hc.sew hmul, ← vlmaxOf_eq hc.sew hmul]
  dsimp only
  rw [hidx, if_pos (Int.natCast_nonneg _), Int.toNat_natCast]

/-- A fraction of a register: the amount by which `get_vlmax` shifts is negative. -/
theorem arthimeticInstr_fraction (hc : Configured s.cpu) (hmul : ¬ s.cpu.vlmul ≤ 3) :
    arthimeticInstr a d s = .error .undefined s := by
  have hlt : ¬ s.cpu.vlmul ≤ 3 + s.cpu.vsew := by
    rcases hc.lmul with h | h
    · exact absurd h hmul
    · omega
  have hnone : getVlmax s.cpu.vsew s.cpu.vlmul = none := if_neg hlt
  unfold arthimeticInstr
  rw [get_bind, hnone]
  rfl

theorem Machine.Body.lt_vlmax {m : Machine} {i : Nat} (h : m.Body i) (hc : Configured m) :
    i < vlmaxOf m.vsew m.vlmul := Nat.lt_of_lt_of_le h.2 hc.vl

def Machine.rounds (m : Machine) : Nat := (m.csr .vl).toNat - (m.csr .vstart).toNat

theorem Machine.body_iff {m : Machine} {i : Nat} :
    m.Body i ↔ (m.csr .vstart).toNat ≤ i ∧ i < (m.csr .vstart).toNat + m.rounds := by
  unfold Machine.Body Machine.rounds
  constructor <;> rintro ⟨h1, h2⟩ <;> exact ⟨h1, by omega⟩

section Loop

variable (hround : ∀ i u, s.cpu.Body i → Before n s place active out i u →
  RoundGives a d n i u (place i) (active i) (out i))

include hround

theorem loop_ok_iff :
    (∃ t, counted (vopRound a d n) (s.cpu.csr .vstart).toNat s.cpu.rounds s = .ok () t) ↔
      ∀ i, s.cpu.Body i → active i → out i ≠ none := by
  have hgood : ∀ i u, (s.cpu.csr .vstart).toNat ≤ i → i < (s.cpu.csr .vstart).toNat + s.cpu.rounds →
      Before n s place active out i u → (active i → out i ≠ none) →
      ∃ u', vopRound a d n i u = .ok () u' ∧ Before n s place active out (i + 1) u' := by
    intro i u h1 h2 hu hgood
    have hb := Machine.body_iff.mpr ⟨h1, h2⟩
    exact before_step hb (hround i u hb hu) hu hgood
  have hbad : ∀ i u u', (s.cpu.csr .vstart).toNat ≤ i → i < (s.cpu.csr .vstart).toNat + s.cpu.rounds →
      Before n s place active out i u → ¬ (active i → out i ≠ none) → vopRound a d n i u ≠ .ok () u' := by
    intro i u u' h1 h2 hu hbad
    obtain ⟨hact, hnone⟩ := Classical.not_imp.mp hbad
    exact (hround i u (Machine.body_iff.mpr ⟨h1, h2⟩) hu).stop hact (not_not.mp hnone) u'
  rw [counted_ok_iff (before_start n) hgood hbad]
  exact ⟨fun h i hi => h i (Machine.body_iff.mp hi).1 (Machine.body_iff.mp hi).2,
    fun h i h1 h2 => h i (Machine.body_iff.mpr ⟨h1, h2⟩)⟩

theorem loop_end (ht : counted (vopRound a d n) (s.cpu.csr .vstart).toNat s.cpu.rounds s = .ok () t) :
    Before n s place active out ((s.cpu.csr .vstart).toNat + s.cpu.rounds) t := by
  have hgood := (loop_ok_iff hround).mp ⟨t, ht⟩
  apply counted_keeps (before_start n) ht
  intro i u u' h1 h2 hu hrun
  have hb := Machine.body_iff.mpr ⟨h1, h2⟩
  obtain ⟨u'', hrun', hI⟩ := before_step hb (hround i u hb hu) hu (hgood i hb)
  cases hrun.symm.trans hrun'
  exact hI

end Loop

theorem vrBefore_end {m : Machine} {vr : BitVec 5 → BitVec 128}
    (hvr : vr = m.vrBefore place active out ((m.csr .vstart).toNat + m.rounds))
    (hfit : ∀ i, m.Body i → (place i).2 * w + w ≤ 128)
    (hinj : ∀ i j, m.Body i → m.Body j → place i = place j → i = j) :
    (∀ i x, m.Body i → active i → out i = some x → Packed.get w vr (place i) = x) ∧
      ∀ p, (∀ i, m.Body i → active i → place i ≠ p) → Packed.get w vr p = Packed.get w m.vr p := by
  rw [hvr]
  unfold Machine.vrBefore
  rw [Nat.add_sub_cancel_left]
  constructor
  · intro i x hi hact hx
    have hval : (fun i => if active i then out i else none) i = some x := (if_pos hact).trans hx
    obtain ⟨h1, h2⟩ := Machine.body_iff.mp hi
    exact Packed.get_setAll h1 h2 hval (hfit i hi) fun j hj1 hj2 hj =>
      hinj j i (Machine.body_iff.mpr ⟨hj1, hj2⟩) hi hj
  · intro p hp
    apply Packed.get_setAll_apart
    intro i h1 h2 hval
    have hact : active i := by
      by_contra hn
      exact hval (if_neg hn)
    exact Packed.apart_of_ne (hp i (Machine.body_iff.mpr ⟨h1, h2⟩) hact).symm

/-- The rounds write `out i` to `place i`, which are elements apart, for the indices that are active. -/
structure Rounds (a : Arthi) (d : VDecode) (s : VState) (place : Nat → BitVec 5 × Nat) (active : Nat → Prop)
    [DecidablePred active] (out : Nat → Option (BitVec w)) : Prop where
  fit : ∀ i, s.cpu.Body i → (place i).2 * w + w ≤ 128
  inj : ∀ i j, s.cpu.Body i → s.cpu.Body j → place i = place j → i = j
  round : ∀ i u, s.cpu.Body i → Before (vlmaxOf s.cpu.vsew s.cpu.vlmul) s place active out i u →
    RoundGives a d (vlmaxOf s.cpu.vsew s.cpu.vlmul) i u (place i) (active i) (out i)

section Known

variable (hc : Configured s.cpu) (hmul : s.cpu.vlmul ≤ 3) (hr : Rounds a d s place active out)

include hc hmul hr

theorem arthimeticInstr_end (ht : arthimeticInstr a d s = .ok () t) :
    ∃ u, t.cpu = u.cpu.setCsr .vstart 0 ∧ t.reads = u.reads ∧ (∀ i, s.cpu.Body i → active i → out i ≠ none) ∧
      Before (vlmaxOf s.cpu.vsew s.cpu.vlmul) s place active out ((s.cpu.csr .vstart).toNat + s.cpu.rounds) u := by
  rw [arthimeticInstr_eq hc hmul] at ht
  obtain ⟨_, u, hu, hlast⟩ := ok_of_bind ht
  cases hlast
  exact ⟨u, rfl, rfl, (loop_ok_iff hr.round).mp ⟨u, hu⟩, loop_end hr.round hu⟩

theorem arthimeticInstr_ends (h : ∀ i, s.cpu.Body i → active i → out i ≠ none) :
    ∃ t, arthimeticInstr a d s = .ok () t := by
  obtain ⟨u, hu⟩ := (loop_ok_iff hr.round).mpr h
  rw [arthimeticInstr_eq hc hmul]
  exact ⟨_, bind_ok (k := fun _ => modify fun s : VState => { s with cpu := s.cpu.setCsr .vstart 0 }) hu⟩

theorem arthimeticInstr_readsBelow (ht : arthimeticInstr a d s = .ok () t) :
    ReadsBelow (vlmaxOf s.cpu.vsew s.cpu.vlmul) s t := by
  obtain ⟨u, -, hreads, -, hu⟩ := arthimeticInstr_end hc hmul hr ht
  intro r hr
  rw [hreads] at hr
  exact hu.2 r hr

theorem arthimeticInstr_writes_iff (ht : arthimeticInstr a d s = .ok () t) :
    Writes s.cpu t.cpu place active spec ↔ ∀ i, s.cpu.Body i → active i → out i = some (spec i) := by
  obtain ⟨u, hcpu, -, hgood, hu⟩ := arthimeticInstr_end hc hmul hr ht
  have hlast : t.cpu.vr = u.cpu.vr := by
    rw [hcpu]
    rfl
  have hvr := hlast.trans (congrArg Machine.vr hu.1)
  obtain ⟨hvalue, hothers⟩ := vrBefore_end hvr hr.fit hr.inj
  constructor
  · intro hw i hi hact
    obtain ⟨x, hx⟩ := Option.ne_none_iff_exists'.mp (hgood i hi hact)
    rw [hx, ← hw.value i hi hact]
    exact congrArg some (hvalue i x hi hact hx).symm
  · intro h
    constructor
    · exact fun i hi hact => hvalue i _ hi hact (h i hi hact)
    · exact hothers
    · rw [hlast, hcpu, hu.1]

end Known

/-- An instruction does what `spec` says if, and only if, each of its rounds does, and the groups of
registers are whole. -/
theorem executes_writes_iff {m : Machine} {instr : BitVec 32} (hsel : tableOpV instr = some a)
    (hmode : a.unsupported ≠ some (srcVmode instr))
    (hc : Configured m) (hr : m.vlmul ≤ 3 → Rounds a (decodeOpV m instr) ⟨m, []⟩ place active out) :
    (∃ t, Executes instr ⟨m, []⟩ t ∧ Writes m t.cpu place active spec) ↔
      m.vlmul ≤ 3 ∧ ∀ i, m.Body i → active i → out i = some (spec i) := by
  have hexec : ∀ t, Executes instr ⟨m, []⟩ t ↔ arthimeticInstr a (decodeOpV m instr) ⟨m, []⟩ = .ok () t :=
    fun t => executes_iff hsel hmode
  by_cases hmul : m.vlmul ≤ 3
  · constructor
    · rintro ⟨t, ht, hw⟩
      exact ⟨hmul, (arthimeticInstr_writes_iff hc hmul (hr hmul) ((hexec t).mp ht)).mp hw⟩
    · rintro ⟨-, h⟩
      have hgood : ∀ i, m.Body i → active i → out i ≠ none := by
        intro i hi hact
        rw [h i hi hact]
        exact Option.some_ne_none _
      obtain ⟨t, ht⟩ := arthimeticInstr_ends hc hmul (hr hmul) hgood
      exact ⟨t, (hexec t).mpr ht, (arthimeticInstr_writes_iff hc hmul (hr hmul) ht).mpr h⟩
  · constructor
    · rintro ⟨t, ht, -⟩
      have hrun := (hexec t).mp ht
      rw [arthimeticInstr_fraction hc hmul] at hrun
      cases hrun
    · exact fun h => absurd h.1 hmul

theorem executes_readsBelow {m : Machine} {instr : BitVec 32} (hsel : tableOpV instr = some a)
    (hmode : a.unsupported ≠ some (srcVmode instr))
    (hc : Configured m) (hmul : m.vlmul ≤ 3) (hr : Rounds a (decodeOpV m instr) ⟨m, []⟩ place active out)
    (ht : Executes instr ⟨m, []⟩ t) : ReadsBelow (vlmaxOf m.vsew m.vlmul) ⟨m, []⟩ t := by
  have hrun := (executes_iff (s := ⟨m, []⟩) hsel hmode).mp ht
  exact arthimeticInstr_readsBelow (s := ⟨m, []⟩) hc hmul hr hrun

theorem elem_before {u : VState} {vsew i j : Nat} {reg : BitVec 5} (hu : Before n s place active out i u)
    (h : ∀ k, (s.cpu.csr .vstart).toNat ≤ k → k < i → active k →
      Packed.Apart (sew vsew) (slot vsew reg j) w (place k)) :
    u.cpu.elem vsew reg j = s.cpu.elem vsew reg j := by
  unfold Machine.elem
  rw [hu.1]
  apply Packed.get_setAll_apart
  intro k h1 h2 hval
  have hact : active k := by
    by_contra hn
    exact hval (if_neg hn)
  exact h k h1 (by omega) hact

theorem maskBit_get (m : Machine) (reg : BitVec 5) (i : Nat) :
    m.maskBit reg i = (Packed.get 1 m.vr (reg, i)).getLsbD 0 := by
  unfold Machine.maskBit Packed.get
  rw [BitVec.getLsbD_extractLsb', Nat.mul_one, Nat.add_zero]
  rfl

theorem maskBit_before {u : VState} {i j : Nat} {reg : BitVec 5} (hu : Before n s place active out i u)
    (h : ∀ k, (s.cpu.csr .vstart).toNat ≤ k → k < i → active k → Packed.Apart 1 (reg, j) w (place k)) :
    u.cpu.maskBit reg j = s.cpu.maskBit reg j := by
  rw [maskBit_get, maskBit_get, hu.1]
  apply congrArg (fun x : BitVec 1 => x.getLsbD 0)
  apply Packed.get_setAll_apart
  intro k h1 h2 hval
  have hact : active k := by
    by_contra hn
    exact hval (if_neg hn)
  exact h k h1 (by omega) hact

/-- No earlier round has written to what the round with index `i` reads. -/
structure Undisturbed (m : Machine) (d : VDecode) (w : Nat) (place : Nat → BitVec 5 × Nat)
    (active : Nat → Prop) (i : Nat) : Prop where
  src2 : ∀ k, (m.csr .vstart).toNat ≤ k → k < i → active k →
    Packed.Apart (sew m.vsew) (slot m.vsew d.src2 i) w (place k)
  src1 : d.srcVmode = .vv → ∀ k, (m.csr .vstart).toNat ≤ k → k < i → active k →
    Packed.Apart (sew m.vsew) (slot m.vsew d.src1 i) w (place k)
  mask : d.vm = false → ∀ k, (m.csr .vstart).toNat ≤ k → k < i → active k → Packed.Apart 1 (0, i) w (place k)

/-- The rounds compute on the operands that the instruction started with. -/
theorem vopRound_before {i : Nat} {u : VState} (hc : Configured s.cpu) (hg : Grouped d s.cpu) (hn : a.narrow = 0)
    (ha : a.opcode ≠ .merge) (hi : s.cpu.Body i) (hu : Before n s place active out i u)
    (hd : Undisturbed s.cpu d w place active i) :
    vopRound a d n i u =
      if s.cpu.Skips a d i then .ok () u
      else (vopValue a d s.cpu.vsew s.cpu.vlmul n i (s.cpu.csr .vl) (u.cpu.maskWord i)
          (s.cpu.vs2Value d a.isSigned i) (s.cpu.srcValue d a.isSigned i) >>=
            vopStore a d s.cpu.vsew s.cpu.vlmul i) { u with reads := u.reads ++ d.fetches i } := by
  have hlt := hi.lt_vlmax hc
  have hskip : u.cpu.Skips a d i ↔ s.cpu.Skips a d i := by
    apply and_congr_right
    intro hvm
    rw [maskBit_before hu (hd.mask hvm)]
  have h2 : u.cpu.elem s.cpu.vsew d.src2 i = s.cpu.elem s.cpu.vsew d.src2 i := elem_before hu hd.src2
  have h1 : d.srcVmode = .vv → u.cpu.elem s.cpu.vsew d.src1 i = s.cpu.elem s.cpu.vsew d.src1 i :=
    fun hm => elem_before hu (hd.src1 hm)
  obtain ⟨cpu, reads⟩ := u
  obtain ⟨rfl, -⟩ := hu
  have hsrc : ({ s.cpu with vr := s.cpu.vrBefore place active out i } : Machine).srcValue d a.isSigned i =
      s.cpu.srcValue d a.isSigned i := by
    unfold Machine.srcValue Machine.src
    cases hm : d.srcVmode with
    | vv => exact congrArg (fun x : BitVec (sew s.cpu.vsew) =>
        if a.isSigned = true then x.signExtend 64 else x.setWidth 64) (h1 hm)
    | vx | vi => rfl
  have hround : vopRound a d n i ⟨{ s.cpu with vr := s.cpu.vrBefore place active out i }, reads⟩ = _ :=
    vopRound_eq ⟨hg.sew, hg.lmul, hg.src2, hg.src1⟩ hn ha hlt
      (Nat.lt_of_lt_of_le hlt (vlmaxOf_le hc.sew hg.lmul))
  have hvs2 : ({ s.cpu with vr := s.cpu.vrBefore place active out i } : Machine).vs2Value d a.isSigned i =
      s.cpu.vs2Value d a.isSigned i :=
    congrArg (fun x : BitVec (sew s.cpu.vsew) =>
      if a.isSigned = true then x.signExtend 64 else x.setWidth 64) h2
  rw [hround]
  dsimp only
  rw [hvs2, hsrc]
  exact if_congr hskip rfl rfl

end Instructions

end Nemu
