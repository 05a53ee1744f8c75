import Nemu.Priv

namespace Nemu

set_option autoImplicit true

namespace Machine

def readLoc (s : Machine) : Loc → Word
  | .gpr r => s.gpr r
  | .fpr r => s.fpr r
  | .zeroNull => s.zeroNull

def writeLoc (s : Machine) (l : Loc) (v : Word) : Machine :=
  match l with
  | .gpr r => { s with gpr := Function.update s.gpr r v }
  | .fpr r => { s with fpr := Function.update s.fpr r v }
  | .zeroNull => { s with zeroNull := v }

end Machine

def readReg (l : Loc) : Exec Word := do
  let s ← get
  pure (s.readLoc l)

def writeReg (l : Loc) (v : Word) : Exec Unit := modify fun s => s.writeLoc l v

def sext32 (x : Word) : Word := (x.extractLsb' 0 32).signExtend 64

def zext32 (x : Word) : Word := (x.extractLsb' 0 32).setWidth 64

/-- The values computed by the integer executors of RV64I and RV64M. -/
def aluValue : AluOp → Word → Word → Word
  | .add, a, b => a + b
  | .sub, a, b => a - b
  | .and, a, b => a &&& b
  | .or, a, b => a ||| b
  | .xor, a, b => a ^^^ b
  | .shl, a, b => a <<< (b &&& 0x3f)
  | .shr, a, b => a >>> (b &&& 0x3f)
  | .sar, a, b => a.sshiftRight (b &&& 0x3f).toNat
  | .slt, a, b => if a.slt b then 1 else 0
  | .sltu, a, b => if a < b then 1 else 0
  | .addw, a, b => sext32 (a + b)
  | .subw, a, b => sext32 (a - b)
  | .shlw, a, b => (a.extractLsb' 0 32 <<< (b &&& 0x1f)).signExtend 64
  | .shrw, a, b => (a.extractLsb' 0 32 >>> (b &&& 0x1f)).signExtend 64
  | .sarw, a, b => ((a.extractLsb' 0 32).sshiftRight (b &&& 0x1f).toNat).signExtend 64
  | .mul, a, b => a * b
  | .mulh, a, b => (a.signExtend 128 * b.signExtend 128).extractLsb' 64 64
  | .mulhu, a, b => (a.setWidth 128 * b.setWidth 128).extractLsb' 64 64
  | .mulhsu, a, b =>
    (a.setWidth 128 * b.setWidth 128).extractLsb' 64 64 - (b &&& a.sshiftRight 63)
  | .div, a, b =>
    if b = 0 then -1 else if a = 0x8000000000000000 ∧ b = -1 then a else a.sdiv b
  | .divu, a, b => if b = 0 then -1 else a / b
  | .rem, a, b =>
    if b = 0 then a else if a = 0x8000000000000000 ∧ b = -1 then 0 else a.srem b
  | .remu, a, b => if b = 0 then a else a % b
  | .mulw, a, b => sext32 (a * b)
  | .divw, a, b =>
    let x := sext32 a
    let y := sext32 b
    sext32 (if y = 0 then -1 else if x = 0x80000000 ∧ y = -1 then x else x.sdiv y)
  | .divuw, a, b => sext32 (if zext32 b = 0 then -1 else zext32 a / zext32 b)
  | .remw, a, b =>
    let x := sext32 a
    let y := sext32 b
    sext32 (if y = 0 then x else if x = 0x80000000 ∧ y = -1 then 0 else x.srem y)
  | .remuw, a, b => sext32 (if zext32 b = 0 then zext32 a else zext32 a % zext32 b)

def interpretRelop : RelOp → Word → Word → Bool
  | .EQ, a, b => a = b
  | .NE, a, b => a ≠ b
  | .LT, a, b => a.slt b
  | .GE, a, b => b.sle a
  | .LTU, a, b => a < b
  | .GEU, a, b => b ≤ a

/-- The record that a query for the last memory access returns. -/
def recordMemEvent (P : Platform) (isLoad : Bool) (vaddr : Word) : Exec Unit :=
  modify fun s => if P.queryRef then { s with memEvent := ⟨s.currentPc, true, isLoad, vaddr⟩ } else s

/-- The address is read again for the query, after `dest` has been written. -/
def rtlLm (P : Platform) (d : Decode) (dest addr : Loc) (offset : Word) (len : Nat)
    (mmuMode : MmuMode) : Exec Unit := do
  let a ← readReg addr
  let v ← vaddrRead P d.pc (a + offset) len mmuMode
  writeReg dest v
  let a ← readReg addr
  recordMemEvent P true (a + offset)

def rtlSm (P : Platform) (d : Decode) (data : Word) (addr : Loc) (offset : Word) (len : Nat)
    (mmuMode : MmuMode) : Exec Unit := do
  let a ← readReg addr
  vaddrWrite P d.pc (a + offset) len data mmuMode
  recordMemEvent P false (a + offset)

/-- Returns before the record for the query is made. -/
def rtlLms (P : Platform) (d : Decode) (addr : Loc) (offset : Word) (len : Nat)
    (mmuMode : MmuMode) : Exec Word := do
  let a ← readReg addr
  let v ← vaddrRead P d.pc (a + offset) len mmuMode
  assert (HostLength len) .hostLength
  pure ((v.setWidth (8 * len)).signExtend 64)

def rtlJ (P : Platform) (target : Word) : Exec Unit :=
  modify fun s =>
    if P.guidedExec ∧ s.guidedExec ∧ s.guide.forceSetJumpTarget ∧ s.guide.jumpTarget ≠ target then
      { s with pc := s.guide.jumpTarget }
    else { s with pc := target }

def linkValue (P : Platform) (s : Machine) (snpc : Word) : Word :=
  if P.guidedExec ∧ s.guidedExec ∧ s.guide.forceSetJumpTarget then s.guide.jumpTarget else snpc

def rtlSetDretpc (d : Decode) (value : Word) : Exec Unit := do
  dasicsCheckTrusted d.pc
  setCsr .dretpc value

def lrStep (P : Platform) (d : Decode) (width : Nat) : Exec Unit := do
  let s ← get
  assert (s.amo = false) .amo
  let v ← rtlLms P d d.src1.preg 0 width .dynamic
  writeReg d.dest.preg v
  -- read after the load, so that it is the loaded value when `rd` is `rs1`
  let a ← readReg d.src1.preg
  modify fun s => { s with lrAddr := a, lrValid := 1 }

def setAmo (b : Bool) : Exec Unit := modify fun s => { s with amo := b }

/-- `cpu.amo` around a store-conditional, which only the store commit queue needs. -/
def setScAmo (P : Platform) (b : Bool) : Exec Unit :=
  if P.storeCommit then setAmo b else pure ()

def scFailPaddr (P : Platform) (vaddr : Word) : MmuMode → Exec Word
  | .translate => isaMmuTranslate P vaddr .write
  | _ => pure vaddr

/-- A failing `sc` still reports the faults of the store. -/
def scFailCheck (P : Platform) (d : Decode) (width : Nat) : Exec Unit := do
  let a ← readReg d.src1.preg
  let m ← isaMmuCheck P a width .write
  let paddr ← scFailPaddr P a m
  let s ← get
  if !inPmem P (P.paddr paddr) ||
      !isaPmpCheckPermission P s (P.paddr paddr) width .write s.mode then
    faultAt P .SAF a
  else pure ()

def Machine.scSuccess (s : Machine) (d : Decode) : Bool :=
  s.lrAddr = s.readLoc d.src1.preg && s.lrValid ≠ 0

def scStore (P : Platform) (d : Decode) (width : Nat) : Exec Unit := do
  let data ← readReg d.src2.preg
  rtlSm P d data d.src1.preg 0 width .dynamic
  modify fun s => { s with lrValid := 0 }

def scStep (P : Platform) (d : Decode) (width : Nat) : Exec Unit := do
  setScAmo P true
  let s ← get
  if s.scSuccess d then do
    scStore P d width
    writeReg d.dest.preg 0
    setScAmo P false
  else do
    scFailCheck P d width
    writeReg d.dest.preg 1
    setScAmo P false

/-- The value an AMO stores, from the value loaded and the register operand. -/
def amoValue (funct5 : BitVec 5) (width : Nat) (x y : Word) : Option Word :=
  let lt := if width = 8 then x.slt y else (x.extractLsb' 0 32).slt (y.extractLsb' 0 32)
  let gt := if width = 8 then y.slt x else (y.extractLsb' 0 32).slt (x.extractLsb' 0 32)
  let ltu := if width = 8 then x.ult y else (x.extractLsb' 0 32).ult (y.extractLsb' 0 32)
  let gtu := if width = 8 then y.ult x else (y.extractLsb' 0 32).ult (x.extractLsb' 0 32)
  if funct5 = 0b00001 then some y
  else if funct5 = 0b00000 then some (x + y)
  else if funct5 = 0b01000 then some (x ||| y)
  else if funct5 = 0b01100 then some (x &&& y)
  else if funct5 = 0b00100 then some (x ^^^ y)
  else if funct5 = 0b10000 then some (if lt then x else y)
  else if funct5 = 0b10100 then some (if gt then x else y)
  else if funct5 = 0b11000 then some (if ltu then x else y)
  else if funct5 = 0b11100 then some (if gtu then x else y)
  else none

def amoStep (P : Platform) (d : Decode) (funct5 : BitVec 5) (width : Nat) : Exec Unit := do
  setAmo true
  let x ← rtlLms P d d.src1.preg 0 width .dynamic
  let y ← readReg d.src2.preg
  match amoValue funct5 width x y with
  | none => throw (.abort .amo)
  | some v => do
    rtlSm P d v d.src1.preg 0 width .dynamic
    writeReg d.dest.preg x
    setAmo false

def Decode.funct3 (d : Decode) : BitVec 3 := d.instr.extractLsb' 12 3

def Decode.amoWidth (d : Decode) : Nat := if d.funct3.getLsbD 0 then 8 else 4

def rtlAmoSlowPath (P : Platform) (d : Decode) : Exec Unit :=
  let funct5 := d.instr.extractLsb' 27 5
  if funct5 = 0b00010 then lrStep P d d.amoWidth
  else if funct5 = 0b00011 then scStep P d d.amoWidth
  else amoStep P d funct5 d.amoWidth

/-- `rtl_trap`: the trap is taken at once, without leaving the interpreter loop. -/
def rtlTrap (P : Platform) (d : Decode) (no : Word) : Exec Word := do
  let t ← hostcallTrap P d.pc no d.pc
  rtlJ P t
  pure t

/-- The low bits of the immediate, by which the privileged instructions are told apart. -/
def Decode.privId (d : Decode) : BitVec 32 := d.src2.imm.setWidth 32

def Decode.isEcall (P : Platform) (d : Decode) : Bool :=
  if P.share then d.instr = 0x73 else d.privId = 0

/-- The part of `rtl_sys_slow_path` with `funct3 = 0`, up to the jump that follows it. -/
def sysTarget (P : Platform) (d : Decode) : Exec Word := do
  let s ← get
  if d.isEcall P then rtlTrap P d (8 + BitVec.ofNat 64 s.mode.toNat)
  else if P.rvDebug ∧ d.privId = 1 then rtlTrap P d Exc.BP.code
  else privInstr P d.privId

/-- The privileged instructions that jump to what `isa_priv_hostcall` returned. -/
def Decode.privJumps (P : Platform) (d : Decode) : Bool :=
  d.privId = 0 || d.privId = 1 || d.privId = 0x102 || d.privId = 0x302 ||
    (P.rvn && d.privId = 0x002)

def sysPriv (P : Platform) (d : Decode) : Exec Unit := do
  let jpc ← sysTarget P d
  if d.privJumps P then rtlJ P jpc else pure ()

/-- The value that a CSR instruction writes, from the old value and its operand. -/
def csrOperand (d : Decode) (old src : Word) : Word :=
  let x := if d.funct3.getLsbD 2 then (d.instr.extractLsb' 15 5).setWidth 64 else src
  let op := d.funct3.extractLsb' 0 2
  if op = 2 then old ||| x else if op = 3 then old &&& ~~~x else x

/-- Whether a CSR instruction writes: `csrrw` always does, the others unless `rs1` is zero. -/
def Decode.csrWrites (d : Decode) : Bool :=
  d.funct3.getLsbD 1 = false || d.instr.extractLsb' 15 5 ≠ 0

def Decode.csrId (d : Decode) : BitVec 12 := d.src2.imm.setWidth 12

def sysCsr (P : Platform) (d : Decode) : Exec Unit := do
  let old ← csrrw P true none d.csrId d.pc
  if d.csrWrites then do
    let src ← readReg d.src1.preg
    let _ ← csrrw P false (some (csrOperand d old src)) d.csrId d.pc
    writeReg d.dest.preg old
  else writeReg d.dest.preg old

def rtlSysSlowPath (P : Platform) (d : Decode) : Exec Unit :=
  if d.funct3 = 0 then sysPriv P d else sysCsr P d

def fboxMask : Word := 0xffffffff00000000

def funbox (x : Word) : Word :=
  if x &&& fboxMask = fboxMask then x &&& ~~~fboxMask else 0x7fc00000

def fpSign : FpWidth → Word
  | .W32 => 1 <<< 31
  | .W64 => 1 <<< 63

def rtlFsr (P : Platform) (dest : Loc) (v : Word) (w : FpWidth) : Exec Unit := do
  writeReg dest (match w with
    | .W32 => v ||| fboxMask
    | .W64 => v)
  fpSetDirty P

def isaFpGetRm (d : Decode) : Exec (BitVec 32) := do
  let s ← get
  if d.funct3 = 7 then pure s.rmCache
  else if d.funct3 < 5 then pure (d.funct3.setWidth 32)
  else longjmpException .II

def isaFpSetEx (P : Platform) (ex : BitVec 32) : Exec Unit := do
  modify fun s =>
    let flags := (s.csr .fcsr).extractLsb' 0 5 ||| ex.extractLsb' 0 5
    (s.setCsr .fcsr (BitField.insert 0 flags (s.csr .fcsr))).setCsr .fflags (flags.setWidth 64)
  fpSetDirty P

def fpCheckFs : Exec Unit := do
  let s ← get
  if s.fs = 0 then longjmpException .II else pure ()

def fpcallRm (d : Decode) (op : FpCall) : Exec (Option (BitVec 32)) :=
  if op.needRm then do
    let rm ← isaFpGetRm d
    pure (some rm)
  else pure none

/-- Returns the new value of `dest`, whose old value only `MADD` uses. -/
def rtlFpcall (P : Platform) (d : Decode) (op : FpCall) (w : FpWidth) (src1 src2 dest : Word) :
    Exec Word := do
  fpCheckFs
  let rm ← fpcallRm d op
  let r := P.fpu op w rm src1 src2 dest
  if r.2 ≠ 0 then do
    isaFpSetEx P r.2
    pure r.1
  else pure r.1

def fpLen : FpWidth → Nat
  | .W32 => 4
  | .W64 => 8

def execFload (P : Platform) (d : Decode) (w : FpWidth) (mmuMode : MmuMode) : Exec Unit := do
  rtlLm P d d.dest.preg d.src1.preg d.src2.imm (fpLen w) mmuMode
  let v ← readReg d.dest.preg
  rtlFsr P d.dest.preg v w

/-- Only `fsw_mmu` unboxes the stored value. -/
def execFstore (P : Platform) (d : Decode) (w : FpWidth) (mmuMode : MmuMode) : Exec Unit := do
  let v ← readReg d.dest.preg
  let v := if w = .W32 ∧ mmuMode = .translate then funbox v else v
  rtlSm P d v d.src1.preg d.src2.imm (fpLen w) mmuMode

def execFmadd (P : Platform) (d : Decode) (negProduct negAddend : Bool) (w : FpWidth) :
    Exec Unit := do
  let rs3 ← readReg (.fpr (d.instr.extractLsb' 27 5))
  let x ← readReg d.src1.preg
  let y ← readReg d.src2.preg
  let v ← rtlFpcall P d .MADD w (if negProduct then x ^^^ fpSign w else x) y
    (if negAddend then rs3 ^^^ fpSign w else rs3)
  rtlFsr P d.dest.preg v w

/-- `flts` and `feqs` copy their first operand to the destination before the comparison. -/
def fcmpCopies (o : FpCall) (w : FpWidth) : Bool := w = .W32 && (o = .LT || o = .EQ)

def execFcmp (P : Platform) (d : Decode) (o : FpCall) (w : FpWidth) : Exec Unit := do
  let x ← readReg d.src1.preg
  let y ← readReg d.src2.preg
  modify fun s => if fcmpCopies o w then s.writeLoc d.dest.preg x else s
  let v ← rtlFpcall P d o w x y 0
  writeReg d.dest.preg v

def unboxOperand (w : FpWidth) (x : Word) : Word := if w = .W32 then funbox x else x

/-- The sign bit injected by `fsgnj`, `fsgnjn` and `fsgnjx`. -/
def execFsgnj (P : Platform) (d : Decode) (w : FpWidth) (sign : Word → Word → Word) :
    Exec Unit := do
  let x ← readReg d.src1.preg
  let y ← readReg d.src2.preg
  let a := unboxOperand w x
  let b := unboxOperand w y
  rtlFsr P d.dest.preg ((a &&& ~~~fpSign w) ||| (sign a b &&& fpSign w)) w

def execNemuTrap : Exec Unit := do
  let s ← get
  if s.gpr 10 = 0x100 then setCsr .mie (s.csr .mie &&& ~~~0x80)
  else if s.gpr 10 = 0x101 then pure ()
  else throw .execEnd

/-- `exec_inv`. The stand-alone emulator prints the instruction, for which it fetches it again. -/
def execInv (P : Platform) (d : Decode) : Exec Unit := do
  if P.reportIllegalInstr && !P.share then do
    let _ ← vaddrIfetch P d.pc 4
    let _ ← vaddrIfetch P (d.pc + 4) 4
    throw (.abort .invalidInstr)
  else longjmpException .II

def runVector (P : Platform) (d : Decode) (mmuMode : MmuMode) : VProg → Exec Unit
  | .done => pure ()
  | .inv => execInv P d
  | .stuck => throw (.abort .vector)
  | .get k => do
    let s ← get
    runVector P d mmuMode (k s)
  | .setVr r v k => do
    modify fun s => { s with vr := Function.update s.vr r v }
    runVector P d mmuMode k
  | .setGpr r v k => do
    modify fun s => if r ≠ 0 then s.writeLoc (.gpr r) v else s
    runVector P d mmuMode k
  | .setCsr c v k => do
    setCsr c.csr v
    runVector P d mmuMode k
  | .load addr len k => do
    let v ← vaddrRead P d.pc addr len mmuMode
    recordMemEvent P true addr
    runVector P d mmuMode (k v)
  | .store addr len data k => do
    vaddrWrite P d.pc addr len data mmuMode
    recordMemEvent P false addr
    runVector P d mmuMode k

/-- The jump target of `p_ret`, `c_jr` and `c_jalr`: only the reference clears bit 0. -/
def jumpTarget (P : Platform) (x : Word) : Word := if P.share then x &&& ~~~1 else x

def rtlJrelop (P : Platform) (d : Decode) (o : RelOp) (x y : Word) : Exec Unit :=
  rtlJ P (if interpretRelop o x y then d.dest.imm else d.snpc)

/-- `EHelper`. -/
def exec (P : Platform) (d : Decode) : Exec Unit :=
  match d.id with
  | .inv => execInv P d
  | .rt_inv => longjmpException .II
  | .nemu_trap => execNemuTrap
  | .fence_i => do
    let _ ← privInstr P (-1)
    pure ()
  | .fence => pure ()
  | .lui | .auipc => writeReg d.dest.preg d.src1.imm
  | .computeReg o => do
    let x ← readReg d.src1.preg
    let y ← readReg d.src2.preg
    writeReg d.dest.preg (aluValue o x y)
  | .computeImm o => do
    let x ← readReg d.src1.preg
    writeReg d.dest.preg (aluValue o x d.src2.imm)
  | .compressedReg o => do
    let x ← readReg d.dest.preg
    let y ← readReg d.src2.preg
    writeReg d.dest.preg (aluValue o x y)
  | .compressedImm o => do
    let x ← readReg d.dest.preg
    writeReg d.dest.preg (aluValue o x d.src2.imm)
  | .c_mv => do
    let x ← readReg d.src1.preg
    writeReg d.dest.preg x
  | .c_li => writeReg d.dest.preg d.src2.imm
  | .p_li_0 => writeReg d.dest.preg 0
  | .p_li_1 => writeReg d.dest.preg 1
  | .p_inc => do
    let x ← readReg d.dest.preg
    writeReg d.dest.preg (x + 1)
  | .p_dec => do
    let x ← readReg d.dest.preg
    writeReg d.dest.preg (x - 1)
  | .p_sext_w => do
    let x ← readReg d.src1.preg
    writeReg d.dest.preg (aluValue .addw x 0)
  | .rvbReg o => do
    let x ← readReg d.src1.preg
    let y ← readReg d.src2.preg
    writeReg d.dest.preg (P.rvbValue o x y)
  | .rvbImm o => do
    let x ← readReg d.src1.preg
    writeReg d.dest.preg (P.rvbValue o x d.src2.imm)
  | .rvkReg o => do
    let x ← readReg d.src1.preg
    let y ← readReg d.src2.preg
    writeReg d.dest.preg (P.rvkValue o d.instr x y)
  | .rvkImm o => do
    let x ← readReg d.src1.preg
    writeReg d.dest.preg (P.rvkValue o d.instr x d.src2.imm)
  | .load true len mmuMode => do
    let v ← rtlLms P d d.src1.preg d.src2.imm len mmuMode
    writeReg d.dest.preg v
  | .load false len mmuMode => rtlLm P d d.dest.preg d.src1.preg d.src2.imm len mmuMode
  | .store len mmuMode => do
    let v ← readReg d.dest.preg
    rtlSm P d v d.src1.preg d.src2.imm len mmuMode
  | .jal => do
    writeReg d.dest.preg d.src2.imm
    rtlJ P d.src1.imm
  | .p_jal => do
    writeReg (.gpr 1) d.src2.imm
    rtlJ P d.src1.imm
  | .c_j => rtlJ P d.src1.imm
  | .dasicscall_j => do
    rtlSetDretpc d d.src2.imm
    writeReg d.dest.preg d.src2.imm
    rtlJ P d.src1.imm
  | .jalr => do
    let x ← readReg d.src1.preg
    let s ← get
    writeReg d.dest.preg (linkValue P s d.snpc)
    rtlJ P ((x + d.src2.imm) &&& ~~~1)
  | .dasicscall_jr => do
    let x ← readReg d.src1.preg
    let s ← get
    rtlSetDretpc d (linkValue P s d.snpc)
    writeReg d.dest.preg (linkValue P s d.snpc)
    rtlJ P ((x + d.src2.imm) &&& ~~~1)
  | .p_ret => do
    let x ← readReg (.gpr 1)
    rtlJ P (jumpTarget P x)
  | .c_jr => do
    let x ← readReg d.src1.preg
    rtlJ P (jumpTarget P x)
  | .c_jalr => do
    let x ← readReg d.src1.preg
    writeReg (.gpr 1) d.snpc
    -- the stand-alone build reads the target after the link register has been written
    let y ← readReg d.src1.preg
    rtlJ P (if P.share then x &&& ~~~1 else y)
  | .branch o => do
    let x ← readReg d.src1.preg
    let y ← readReg d.src2.preg
    rtlJrelop P d o x y
  | .c_beqz => do
    let x ← readReg d.src1.preg
    rtlJrelop P d .EQ x 0
  | .c_bnez => do
    let x ← readReg d.src1.preg
    rtlJrelop P d .NE x 0
  | .p_blez => do
    let y ← readReg d.src2.preg
    rtlJrelop P d .GE 0 y
  | .p_bgtz => do
    let y ← readReg d.src2.preg
    rtlJrelop P d .LT 0 y
  | .p_bltz => do
    let x ← readReg d.src1.preg
    rtlJrelop P d .LT x 0
  | .p_bgez => do
    let x ← readReg d.src1.preg
    rtlJrelop P d .GE x 0
  | .atomic => rtlAmoSlowPath P d
  | .system => rtlSysSlowPath P d
  | .fload w mmuMode => execFload P d w mmuMode
  | .fstore w mmuMode => execFstore P d w mmuMode
  | .fop o w => do
    let x ← readReg d.src1.preg
    let y ← readReg d.src2.preg
    let v ← rtlFpcall P d o w x y 0
    rtlFsr P d.dest.preg v w
  | .funary o w wDest => do
    let x ← readReg d.src1.preg
    let v ← rtlFpcall P d o w x 0 0
    rtlFsr P d.dest.preg v wDest
  | .fcvtToI o w => do
    let x ← readReg d.src1.preg
    let v ← rtlFpcall P d o w x 0 0
    writeReg d.dest.preg (if o = .FToI32 ∨ o = .FToU32 then sext32 v else v)
  | .fcmp o w => execFcmp P d o w
  | .fmadd negProduct negAddend w => execFmadd P d negProduct negAddend w
  | .fsgnj w => execFsgnj P d w fun _ b => b
  | .fsgnjn w => execFsgnj P d w fun _ b => ~~~b
  | .fsgnjx w => execFsgnj P d w fun a b => a ^^^ b
  | .fmv_x_w => do
    let x ← readReg d.src1.preg
    writeReg d.dest.preg (sext32 x)
  | .fmv_x_d => do
    let x ← readReg d.src1.preg
    writeReg d.dest.preg x
  | .fmv_w_x => do
    let x ← readReg d.src1.preg
    rtlFsr P d.dest.preg x .W32
  | .fmv_d_x => do
    let x ← readReg d.src1.preg
    rtlFsr P d.dest.preg x .W64
  | .fclass w => do
    let x ← readReg d.src1.preg
    writeReg d.dest.preg (P.fpClassify w x)
  | .vector mmuMode => runVector P d mmuMode (P.vector d)

end Nemu
