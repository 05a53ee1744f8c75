import Nemu.Vaddr

namespace Nemu

set_option autoImplicit true

/-- `csr_is_legal` and `csr_decode`: the CSR that may be accessed, if any. -/
def csrIsLegal (P : Platform) (addr : BitVec 12) (needWrite : Bool) (pc : Word) :
    Exec (Option Csr) := do
  let s ← get
  match Csr.ofAddr P.toConfig addr with
  | none => do
    assert (P.panicOnUnimpCsr = false) .unimpCsr
    pure none
  | some c => do
    assert ((addr.extractLsb' 8 2).toNat ≤ s.mode.toNat ∧
      (P.dasics → dasicsInTrustedZone s pc)) .csrAccess
    if needWrite && addr.extractLsb' 10 2 = 3 then pure none else pure (some c)

def mstatusWmask : Word := 0x7e79bb ||| (1 <<< 63)

def sstatusWmask (P : Platform) : Word :=
  (1 <<< 19) ||| (1 <<< 18) ||| (3 <<< 13) ||| (if P.rvv then 3 <<< 9 else 0) |||
    (if P.rvn then (1 <<< 4) ||| 1 else 0) ||| (1 <<< 8) ||| (1 <<< 5) ||| (1 <<< 1)

def sstatusRmask (P : Platform) : Word :=
  sstatusWmask P ||| (3 <<< 15) ||| (1 <<< 63) ||| (3 <<< 32)

def ustatusWmask : Word := 0x11

def mipMask : Word := 0xbbb

def sieMask (s : Machine) : Word := 0x333 &&& s.csr .mideleg

def sipWmaskS : Word := 3

def uieMask (s : Machine) : Word := 0x111 &&& s.csr .sideleg

def uipWmaskU : Word := 1

def dumcfgMask : Word := 0x3e

def dsmcfgMask : Word := 0x3ff

def satpMask (P : Platform) : Word :=
  (8 <<< 60) ||| (0xffff <<< 44) ||| ((1 <<< (P.paddrBits - 12)) - 1)

/-- Reading `mstatus` or `sstatus` first brings SD up to date. -/
def csrReadPrepare (P : Platform) (c : Csr) : Exec Unit :=
  if c = .mstatus ∨ c = .sstatus then updateMstatusSd P else pure ()

def csrReadValue (P : Platform) (c : Csr) : Exec Word := do
  let s ← get
  match c with
  | .pmpaddr i =>
    if P.pmpNum ≤ i.val then longjmpException .II
    else if pmpNAPOT ≤ pmpcfgFromIndex s i &&& pmpA then
      pure (s.csr (.pmpaddr i) ||| (~~~pmpTorMask >>> 1))
    else pure (s.csr (.pmpaddr i) &&& pmpTorMask)
  | .sstatus => pure (s.csr .mstatus &&& sstatusRmask P)
  | .ustatus => pure (s.csr .mstatus &&& ustatusWmask)
  | .sie => pure (s.csr .mie &&& sieMask s)
  | .uie => pure (s.csr .mie &&& uieMask s)
  | .mtvec => pure (s.csr .mtvec &&& ~~~2)
  | .stvec => pure (s.csr .stvec &&& ~~~2)
  | .utvec => pure (s.csr .utvec &&& ~~~2)
  | .sip => pure (s.csr .mip &&& sieMask s)
  | .uip => pure (s.csr .mip &&& uieMask s)
  | .dsmcfg => pure (s.csr .dsmcfg &&& dsmcfgMask)
  | .dumcfg => pure (s.csr .dsmcfg &&& dumcfgMask)
  | .spkctl => pure (s.csr .spkctl &&& 3)
  | .vcsr => pure (((s.csr .vxrm &&& 3) <<< 1) ||| (s.csr .vxsat &&& 1))
  | .fcsr => if P.fpuNone then longjmpException .II else pure (s.csr .fcsr &&& 0xff)
  | .fflags => if P.fpuNone then longjmpException .II else pure (s.csr .fcsr &&& 0x1f)
  | .frm => if P.fpuNone then longjmpException .II else pure ((s.csr .fcsr >>> 5) &&& 7)
  | .mtime => do
    let r := P.clintUptime s.mmio
    modify fun s => setMtip (some r.2) { s with mmio := s.mmio ++ [.uptime] }
    pure r.1
  | .satp => if s.mode = .S ∧ s.tvm then longjmpException .II else pure (s.csr .satp)
  | c => pure (s.csr c)

def csrRead (P : Platform) (c : Csr) : Exec Word := do
  csrReadPrepare P c
  csrReadValue P c

/-- One byte of a value written to `pmpcfg`. -/
def pmpcfgLegal (b : BitVec 8) : BitVec 8 :=
  let cfg := b &&& (pmpR ||| pmpW ||| pmpX ||| pmpA ||| pmpL)
  let cfg := cfg &&& (~~~pmpW ||| (if cfg &&& pmpR ≠ 0 then pmpW else 0))
  if cfg &&& pmpA = pmpNA4 then cfg ||| pmpNAPOT else cfg

def pmpcfgData (src : Word) : Word :=
  (List.range 8).foldl
    (fun acc i => acc ||| ((pmpcfgLegal (src.extractLsb' (8 * i) 8)).setWidth 64 <<< (8 * i))) 0

/-- A lock on the entry, or on the next one when that is the top of a range. -/
def pmpaddrLocked (P : Platform) (s : Machine) (i : Fin 16) : Bool :=
  let next : Fin 16 := i + 1
  let nextCfg := pmpcfgFromIndex s next
  decide (pmpcfgFromIndex s i &&& pmpL ≠ 0) ||
    (decide (i.val + 1 ≠ P.pmpNum) && decide (nextCfg &&& pmpL ≠ 0) &&
      decide (nextCfg &&& pmpA = pmpTOR))

/-- The conditions under which `csr_write` raises an exception, all before it changes anything. -/
def csrWriteIllegal (P : Platform) (s : Machine) : Csr → Bool
  | .fflags | .frm | .fcsr => P.fpuNone
  | .pmpaddr i => decide (P.pmpNum ≠ 0) && decide (P.pmpNum ≤ i.val)
  | .satp => decide (s.mode = .S) && s.tvm
  | _ => false

/-- The chain of assignments of `csr_write`. `XTVEC_VECTORED_MODE` is never defined. -/
def csrStore (P : Platform) (s : Machine) (c : Csr) (src : Word) : Machine :=
  match c with
  | .mstatus => s.setCsr .mstatus (BitField.merge mstatusWmask (s.csr .mstatus) src)
  | .sstatus => s.setCsr .mstatus (BitField.merge (sstatusWmask P) (s.csr .mstatus) src)
  | .ustatus => s.setCsr .mstatus (BitField.merge ustatusWmask (s.csr .mstatus) src)
  | .sie => s.setCsr .mie (BitField.merge (sieMask s) (s.csr .mie) src)
  | .uie => s.setCsr .mie (BitField.merge (uieMask s) (s.csr .mie) src)
  | .mip => s.setCsr .mip (BitField.merge mipMask (s.csr .mip) src)
  | .sip => s.setCsr .mip
      (BitField.merge (if s.mode = .S then sipWmaskS else sieMask s) (s.csr .mip) src)
  | .uip => s.setCsr .mip
      (BitField.merge (if s.mode = .U then uipWmaskU else uieMask s) (s.csr .mip) src)
  | .mtvec => s.setCsr .mtvec (src &&& ~~~3)
  | .stvec => s.setCsr .stvec (src &&& ~~~3)
  | .utvec => s.setCsr .utvec (src &&& ~~~3)
  | .medeleg => s.setCsr .medeleg (src &&& (if P.dasics then 0xb3ff ||| 0x3000000 else 0xb3ff))
  | .mideleg => s.setCsr .mideleg (src &&& (if P.rvn then 0x333 else 0x222))
  | .sedeleg => s.setCsr .sedeleg (src &&& s.csr .medeleg)
  | .sideleg => s.setCsr .sideleg (src &&& s.csr .mideleg)
  | .vcsr => (s.setCsr .vxrm ((src >>> 1) &&& 3)).setCsr .vxsat (src &&& 1)
  | .misa => if P.misaUnchangeable then s else s.setCsr .misa src
  | .mepc => s.setCsr .mepc (src &&& ~~~1)
  | .sepc => s.setCsr .sepc (src &&& ~~~1)
  | .uepc => s.setCsr .uepc (src &&& ~~~1)
  | .fflags => (s.setCsr .fflags (src &&& 0x1f)).setCsr .fcsr
      ((s.csr .frm <<< 5) ||| (src &&& 0x1f))
  | .frm => (s.setCsr .frm (src &&& 7)).setCsr .fcsr (((src &&& 7) <<< 5) ||| s.csr .fflags)
  | .fcsr => ((s.setCsr .fcsr (src &&& 0xff)).setCsr .fflags (src &&& 0x1f)).setCsr .frm
      ((src >>> 5) &&& 7)
  | .spkctl => s.setCsr .spkctl (src &&& 3)
  | .pmpaddr i =>
    if P.pmpNum = 0 ∨ pmpaddrLocked P s i then s
    else s.setCsr (.pmpaddr i) (src &&& ((1 <<< (P.paddrBits - 2)) - 1))
  | .pmpcfg i => if P.pmpNum = 0 then s else s.setCsr (.pmpcfg i) (pmpcfgData src)
  | .dsmcfg => s.setCsr .dsmcfg (BitField.merge dsmcfgMask (s.csr .dsmcfg) src)
  | .dumcfg => s.setCsr .dsmcfg (BitField.merge dumcfgMask (s.csr .dsmcfg) src)
  | .dlbound i => s.setCsr (.dlbound i) (src &&& ~~~7)
  | .djbound i => s.setCsr (.djbound i) (src &&& ~~~7)
  | .satp =>
    if src.extractLsb' 60 4 = 8 ∨ src.extractLsb' 60 4 = 0 then
      s.setCsr .satp (satpMask P &&& src)
    else s
  | c => s.setCsr c src

def isFpCsr (c : Csr) : Bool := c = .fflags || c = .frm || c = .fcsr

def illegalIf (p : Prop) [Decidable p] : Exec Unit :=
  if p then longjmpException .II else pure ()

def csrWriteFp (P : Platform) (c : Csr) : Exec Unit :=
  if isFpCsr c then do
    fpSetDirty P
    let s ← get
    fpUpdateRmCache (((s.csr .fcsr).extractLsb' 5 3).setWidth 32)
  else pure ()

def csrWriteSd (P : Platform) (c : Csr) : Exec Unit :=
  if c = .sstatus ∨ c = .mstatus ∨ isFpCsr c then updateMstatusSd P else pure ()

def csrWriteMmu (c : Csr) : Exec Unit :=
  if c = .mstatus ∨ c = .satp then updateMmuState else pure ()

def csrWrite (P : Platform) (c : Csr) (src : Word) : Exec Unit := do
  let s ← get
  illegalIf (csrWriteIllegal P s c)
  modify fun s => csrStore P s c src
  csrWriteFp P c
  csrWriteSd P c
  csrWriteMmu c

/-- With `read` the old value is returned, with `src` a new one is written. -/
def csrrw (P : Platform) (read : Bool) (src : Option Word) (csrid : BitVec 12) (pc : Word) :
    Exec Word := do
  match ← csrIsLegal P csrid src.isSome pc with
  | none => longjmpException .II
  | some c =>
    match read, src with
    | true, some x => do
      let v ← csrRead P c
      csrWrite P c x
      pure v
    | true, none => csrRead P c
    | false, some x => do
      csrWrite P c x
      pure 0
    | false, none => pure 0

/-- `xIE := xPIE; xPIE := 1`, with the value that QEMU gives `xPIE` when it is the reference. -/
def popStatus (P : Platform) (l : Level) (x : Word) : Word :=
  setBit l.pie (!P.difftestRefQemu) (setBit l.ie (x.getLsbD l.pie) x)

def uret (P : Platform) : Exec Word := do
  modifyMstatus (popStatus P .U)
  modify fun s => { s with mode := .U }
  modifyMstatus (setBit 17 false)
  updateMmuState
  let s ← get
  pure (s.csr .uepc)

def sret (P : Platform) : Exec Word := do
  let s ← get
  illegalIf ((s.mode = .S ∧ s.tsr) ∨ s.mode < .S)
  modifyMstatus (popStatus P .S)
  modify fun s => { s with mode := s.spp }
  let s ← get
  modifyMstatus fun x => if s.spp ≠ .M then setBit 17 false x else x
  modifyMstatus (setBit 8 false)
  updateMmuState
  let s ← get
  pure (s.csr .sepc)

def mret (P : Platform) : Exec Word := do
  let s ← get
  illegalIf (s.mode < .M)
  modifyMstatus (popStatus P .M)
  modify fun s => { s with mode := s.mpp }
  let s ← get
  modifyMstatus fun x => if s.mpp ≠ .M then setBit 17 false x else x
  modifyMstatus (BitField.insert 11 Mode.U.bits)
  updateMmuState
  let s ← get
  pure (s.csr .mepc)

def illegalWhen (p : Prop) [Decidable p] : Exec Word := do
  illegalIf p
  pure 0

/-- The privileged instructions other than the returns. The fences only flush the translations
cached by the other engine. -/
def privFence (P : Platform) (op : BitVec 32) : Exec Word := do
  let s ← get
  let svinvalOff := (s.csr .srnctl).getLsbD 1 = false
  if P.svinval ∧ (op = 0x180 ∨ op = 0x181) then illegalWhen svinvalOff
  else if op = 0x105 then illegalWhen (s.mode < .M ∧ s.tw)
  else if op = -1 then pure 0
  else if op >>> 5 = 0x09 then illegalWhen (s.mode = .S ∧ s.tvm)
  else if P.svinval ∧ op >>> 5 = 0x0b then illegalWhen ((s.mode = .S ∧ s.tvm) ∨ svinvalOff)
  else if P.share then longjmpException .II
  else throw (.abort .privOp)

def privInstr (P : Platform) (op : BitVec 32) : Exec Word :=
  if P.rvn ∧ op = 0x002 then uret P
  else if op = 0x102 then sret P
  else if op = 0x302 then mret P
  else privFence P op

/-- `HOSTCALL_TRAP`: `ecall` and `ebreak`. -/
def hostcallTrap (P : Platform) (pc imm epc : Word) : Exec Word := do
  let s ← get
  let untrusted := P.dasics ∧ dasicsInTrustedZone s pc = false
  if untrusted ∧ s.mode = .U ∧ s.mcfgCloseEcall = false then do
    setCsr .dfreason FaultReason.DFR_EF.code
    raiseIntr P Exc.DUCF.code epc
  else if untrusted ∧ s.mode = .S ∧ s.mcfgCloseEcall = false then do
    setCsr .dfreason FaultReason.DFR_EF.code
    raiseIntr P Exc.DSCF.code epc
  else raiseIntr P imm epc

end Nemu
