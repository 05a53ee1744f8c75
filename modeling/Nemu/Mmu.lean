import Nemu.Paddr

namespace Nemu

set_option autoImplicit true

/-- The address of a page. The number of a page is a bit-field of 44 bits, and `PGBASE` shifts it
in these. -/
def pageBase (pn : BitVec 44) : Word := (pn <<< 12).setWidth 64

/-- The fields of a page table entry. -/
structure Pte where
  val : Word

namespace Pte

def v (p : Pte) : Bool := p.val.getLsbD 0

def r (p : Pte) : Bool := p.val.getLsbD 1

def w (p : Pte) : Bool := p.val.getLsbD 2

def x (p : Pte) : Bool := p.val.getLsbD 3

def u (p : Pte) : Bool := p.val.getLsbD 4

def a (p : Pte) : Bool := p.val.getLsbD 6

def d (p : Pte) : Bool := p.val.getLsbD 7

def base (p : Pte) : Word := pageBase (p.val.extractLsb' 10 44)

def pkey (p : Pte) : Nat := (p.val.extractLsb' 54 5).toNat

end Pte

/-- The two key bits of a page (`mpk_ad`, `mpk_wd`) for accesses made in `mode`. -/
def mpkBits (s : Machine) (pte : Pte) (mode : Mode) : Bool × Bool :=
  let enable := match mode with
    | .U => (s.csr .spkctl).getLsbD 0
    | .S => (s.csr .spkctl).getLsbD 1
    | _ => false
  let pkr := if mode = .U then s.csr .upkru else s.csr .spkrs
  (enable && pkr.getLsbD (2 * pte.pkey), enable && pkr.getLsbD (2 * pte.pkey + 1))

/-- The access rights of a page without the protection key and the A/D bits. -/
def pteAllows (s : Machine) (pte : Pte) (ok : Bool) (ifetch : Bool) (mode : Mode) : Bool :=
  ok && pte.v && !(decide (mode = .U) && !pte.u) &&
    !(pte.u && (decide (mode = .S) && (!s.sum || ifetch)))

/-- Returns only when the access is permitted. -/
def checkPermission (P : Platform) (pte : Pte) (ok : Bool) (vaddr : Word) (type : MemType) :
    Exec Unit := do
  let s ← get
  let mode := s.accessMode (type = .ifetch)
  assert (mode = .U ∨ mode = .S) .permissionMode
  let ok := pteAllows s pte ok (type = .ifetch) mode
  let (mpkAd, mpkWd) := mpkBits s pte mode
  match type with
  | .ifetch =>
    if !(ok && pte.x) || (P.share && !pte.a) then do
      assert (s.amo = false) .permissionAmo
      faultAt P .IPF vaddr
    else pure ()
  | .read =>
    if !(ok && (pte.r || (s.mxr && pte.x))) || (P.share && !pte.a) then do
      modify fun s => { s with amo := false }
      faultAt P (if s.amo then .SPF else .LPF) vaddr
    else if P.dasics && mpkAd then dasicsFault P (dasicsEx mode) .MFR_LF vaddr
    else pure ()
  | _ =>
    if !(ok && pte.w) || (P.share && (!pte.a || !pte.d)) then do
      modify fun s => { s with amo := false }
      faultAt P .SPF vaddr
    else if P.dasics && (mpkAd || (!mpkAd && mpkWd)) then
      dasicsFault P (dasicsEx mode) .MFR_SF vaddr
    else pure ()

def vpnShift (level : Nat) : Nat := 12 + 9 * level

def vpn (va : Word) (level : Nat) : Word := (va >>> vpnShift level) &&& 0x1ff

def memRetFail : Word := 1

/-- How the walk over the page table ends. -/
inductive Walk where
  | leaf (level : Nat) (pPte : Word) (pte : Pte)
  | bad (pte : Pte)

def ptwReadType (type : MemType) : MemType :=
  if type = .ifetch then .ifetchRead else if type = .write then .writeRead else .read

def ptwLoop (P : Platform) (vaddr : Word) (type : MemType) (level : Nat) (pgBase : Word) :
    Exec Walk := do
  let pPte := pgBase + vpn vaddr level * 8
  let val ← paddrRead P pPte 8 (ptwReadType type) .S vaddr
  let pte : Pte := ⟨val⟩
  if !pte.v || (!pte.r && pte.w) then pure (.bad pte)
  else if pte.r || pte.x then pure (.leaf level pPte pte)
  else match level with
    | 0 => pure (.bad pte)
    | level + 1 => ptwLoop P vaddr type level pte.base

/-- The A/D bits set by hardware. -/
def ptwUpdateAd (P : Platform) (pPte : Word) (pte : Pte) (vaddr : Word) (type : MemType) :
    Exec Unit := do
  let s ← get
  if !P.share && (!pte.a || (!pte.d && decide (type = .write))) then
    paddrWrite P pPte 8 (pte.val ||| 0x40 ||| (if type = .write then 0x80 else 0)) s.mode vaddr
  else pure ()

/-- The walk from `satp`. The entry is not initialised when the address is not canonical; it is
not looked at either. -/
def ptwWalk (P : Platform) (vaddr : Word) (type : MemType) : Exec Walk := do
  let s ← get
  let pgBase := pageBase ((s.csr .satp).extractLsb' 0 44)
  if (vaddr.extractLsb' 0 39).signExtend 64 = vaddr then ptwLoop P vaddr type 2 pgBase
  else pure (.bad ⟨0⟩)

/-- The part of an address below a leaf at `level`, none for the smallest pages. -/
def pgMask (level : Nat) : Word :=
  if level > 0 then ((1 : Word) <<< vpnShift level) - 1 else 0

/-- What `ptw` does with the entry found, from the label `bad` or the end of the loop on. -/
def ptwFinish (P : Platform) (vaddr : Word) (type : MemType) : Walk → Exec Word
  | .bad pte => do
    checkPermission P pte false vaddr type
    pure memRetFail
  | .leaf level pPte pte => do
    checkPermission P pte true vaddr type
    if pte.base &&& pgMask level ≠ 0 then do
      checkPermission P pte false vaddr type
      pure memRetFail
    else do
      ptwUpdateAd P pPte pte vaddr type
      pure (P.paddr ((pte.base &&& ~~~pgMask level) ||| (vaddr &&& pgMask level &&& ~~~0xfff)))

def ptw (P : Platform) (vaddr : Word) (type : MemType) : Exec Word := do
  let walk ← ptwWalk P vaddr type
  ptwFinish P vaddr type walk

def isaMmuCheck (P : Platform) (vaddr : Word) (len : Nat) (type : MemType) : Exec MmuMode := do
  let s ← get
  let ifetch := type = .ifetch
  let vmEnable := s.accessMode ifetch < .M ∧ s.satpMode = 8
  let vaMask : Word := ((1 : Word) <<< 26) - 1
  let vaMsbs := vaddr >>> 38
  if ¬ (vaMsbs = vaMask ∨ vaMsbs = 0 ∨ ¬ vmEnable) then
    match type with
    | .ifetch => do
      setCsr .stval vaddr
      setCsr (intrTvalReg P s .IPF) vaddr
      raise ⟨.IPF, some vaddr, .nonCanonicalFetch⟩
    | .read => faultAt P (if s.amo then .SPF else .LPF) vaddr
    | _ => faultAt P .SPF vaddr
  else if ifetch then pure s.ifetchMmuState
  else if P.acSoft ∧ vaddr &&& (BitVec.ofNat 64 len - 1) ≠ 0 then
    faultAt P (if s.amo ∨ type = .write then .SAM else .LAM) vaddr
  else pure s.dataMmuState

def isaMisalignDataAddrCheck (P : Platform) (vaddr : Word) (len : Nat) (type : MemType) :
    Exec Unit := do
  let s ← get
  if P.acSoft ∧ vaddr &&& (BitVec.ofNat 64 len - 1) ≠ 0 then
    faultAt P (if s.amo ∨ type = .write then .SAM else .LAM) vaddr
  else pure ()

/-- Counts the forced faults at one address; the fifth is let through. -/
def forceRaisePfRecord (vaddr : Word) (type : MemType) : Exec Bool := do
  let s ← get
  let count := (if vaddr ≠ s.forcePfAddr type then 0 else s.forcePfCount type) + 1
  modify fun s => { s with
    forcePfAddr := Function.update s.forcePfAddr type vaddr
    forcePfCount := Function.update s.forcePfCount type count }
  pure (count = 5)

def forceRaisePf (P : Platform) (vaddr : Word) (type : MemType) : Exec Unit := do
  let s ← get
  if s.guidedExec && s.guide.forceRaiseException then
    if type = .ifetch ∧ s.guide.exceptionNum = Exc.IPF.code then do
      if ← forceRaisePfRecord vaddr type then pure ()
      else if !intrDelegS s Exc.IPF.code then do
        setCsr .mtval s.guide.mtval
        raise ⟨.IPF, some vaddr, .forcedFetch⟩
      else do
        setCsr .stval s.guide.stval
        raise ⟨.IPF, some vaddr, .forcedFetch⟩
    else if type = .read ∧ s.guide.exceptionNum = Exc.LPF.code then do
      if ← forceRaisePfRecord vaddr type then pure () else faultAt P .LPF vaddr
    else if type = .write ∧ s.guide.exceptionNum = Exc.SPF.code then do
      if ← forceRaisePfRecord vaddr type then pure () else faultAt P .SPF vaddr
    else pure ()
  else pure ()

def isaMmuTranslate (P : Platform) (vaddr : Word) (type : MemType) : Exec Word := do
  let r ← ptw P vaddr type
  if r ≠ memRetFail then forceRaisePf P vaddr type else pure ()
  pure r

end Nemu
