import Nemu.Lib.Bytes
import Nemu.Dasics

namespace Nemu

set_option autoImplicit true

def pmpR : BitVec 8 := 0x01

def pmpW : BitVec 8 := 0x02

def pmpX : BitVec 8 := 0x04

def pmpA : BitVec 8 := 0x18

def pmpL : BitVec 8 := 0x80

def pmpTOR : BitVec 8 := 0x08

def pmpNA4 : BitVec 8 := 0x10

def pmpNAPOT : BitVec 8 := 0x18

/-- `-(1 << (PMP_PLATFORMGARIN - PMP_SHIFT))`. -/
def pmpTorMask : Word := -((1 : Word) <<< 10)

/-- Only called with an index below `CONFIG_RV_PMP_NUM`, so that its assertions hold. -/
def pmpcfgFromIndex (s : Machine) (i : Fin 16) : BitVec 8 :=
  (s.csr (.pmpcfg ⟨i.val / 8, by omega⟩)).extractLsb' (8 * (i.val % 8)) 8

def pmpaddrFromIndex (s : Machine) (i : Fin 16) : Word := s.csr (.pmpaddr i)

/-- Whether entry `i` matches the 4-byte sector at `curAddr`. -/
def pmpMatch (s : Machine) (i : Fin 16) (base curAddr : Word) : Bool :=
  let pmpaddr := pmpaddrFromIndex s i
  let tor := (pmpaddr &&& pmpTorMask) <<< 2
  let cfg := pmpcfgFromIndex s i
  let isTor := cfg &&& pmpA = pmpTOR
  let isNa4 := cfg &&& pmpA = pmpNA4
  let mask := (pmpaddr <<< 1) ||| (if isNa4 then 0 else 1) ||| ~~~pmpTorMask
  let mask := ~~~(mask &&& ~~~(mask + 1)) <<< 2
  if isTor then decide (base ≤ curAddr) && decide (curAddr < tor)
  else decide ((curAddr ^^^ tor) &&& mask = 0)

def pmpPermits (cfg : BitVec 8) (type : MemType) (mode : Mode) : Bool :=
  (decide (mode = .M) && decide (cfg &&& pmpL = 0)) ||
  (decide (type = .read ∨ type = .ifetchRead ∨ type = .writeRead) && decide (cfg &&& pmpR ≠ 0)) ||
  (decide (type = .write) && decide (cfg &&& pmpW ≠ 0)) ||
  (decide (type = .ifetch) && decide (cfg &&& pmpX ≠ 0))

/-- The loop over the entries; `base` is the top of the entry before. -/
def pmpLoop (s : Machine) (addr : Word) (len : Nat) (type : MemType) (mode : Mode) :
    List (Fin 16) → Word → Bool
  | [], _ => decide (mode = .M)
  | i :: is, base =>
    let tor := (pmpaddrFromIndex s i &&& pmpTorMask) <<< 2
    let cfg := pmpcfgFromIndex s i
    let sectors := (List.range ((len + 3) / 4)).map fun k => addr + BitVec.ofNat 64 (4 * k)
    if cfg &&& pmpA ≠ 0 ∧ sectors.any (pmpMatch s i base) then
      sectors.all (pmpMatch s i base) && pmpPermits cfg type mode
    else pmpLoop s addr len type mode is tor

def isaPmpCheckPermission (P : Platform) (s : Machine) (addr : Word) (len : Nat) (type : MemType)
    (outMode : Mode) : Bool :=
  let mode := if outMode = .M then s.accessMode (type = .ifetch) else outMode
  if P.pmpCheck then
    if P.pmpNum = 0 then true
    else pmpLoop s addr len type mode ((List.finRange 16).take P.pmpNum) 0
  else true

theorem pmpLoop_congr (hcfg : ∀ i, pmpcfgFromIndex t i = pmpcfgFromIndex s i)
    (htor : ∀ i, pmpaddrFromIndex t i &&& pmpTorMask = pmpaddrFromIndex s i &&& pmpTorMask)
    (hmatch : ∀ i base, pmpcfgFromIndex s i &&& pmpA ≠ 0 → pmpMatch t i base = pmpMatch s i base)
    (l : List (Fin 16)) (base : Word) :
    pmpLoop t addr len type mode l base = pmpLoop s addr len type mode l base := by
  induction l generalizing base with
  | nil => rfl
  | cons i l ih =>
    unfold pmpLoop
    dsimp only
    rw [hcfg, htor, ih]
    by_cases hA : pmpcfgFromIndex s i &&& pmpA ≠ 0
    · rw [hmatch i base hA]
    · rw [if_neg fun h => hA h.1, if_neg fun h => hA h.1]

def inPmem (P : Platform) (addr : Word) : Bool :=
  let mbaseMask := P.paddr (P.mbase - 1)
  let msizeMask := P.paddr (P.msize - 1)
  if P.mbase &&& mbaseMask = 0 ∧ P.msize &&& msizeMask = 0 ∧ msizeMask ≤ mbaseMask then
    decide (addr &&& P.paddr (~~~msizeMask) = P.mbase)
  else decide (P.mbase ≤ addr) && decide (addr < P.paddr P.mbase + P.msize)

/-- The lengths that `host_read` and `host_write` accept. -/
def HostLength (len : Nat) : Prop := len = 1 ∨ len = 2 ∨ len = 4 ∨ len = 8

instance (len : Nat) : Decidable (HostLength len) := inferInstanceAs (Decidable (_ ∨ _))

def pmemRead (addr : Word) (len : Nat) : Exec Word := do
  assert (HostLength len) .hostLength
  let s ← get
  pure (Bytes.readLE 64 s.pmem addr len)

def pmemWrite (addr : Word) (len : Nat) (data : Word) : Exec Unit := do
  assert (HostLength len) .hostLength
  modify fun s => { s with pmem := Bytes.writeLE s.pmem addr len data }

def setMtip (b : Option Bool) (s : Machine) : Machine :=
  match b with
  | some b => s.setCsr .mip (setBit 7 b (s.csr .mip))
  | none => s

def mmioRead (P : Platform) (addr : Word) (len : Nat) : Exec Word := do
  let s ← get
  match P.mmioAccess s.mmio ⟨addr, len, none⟩ with
  | none => throw (.abort .device)
  | some r =>
    modify fun s => setMtip r.mtip { s with mmio := s.mmio ++ [.access ⟨addr, len, none⟩] }
    pure r.data

def mmioWrite (P : Platform) (addr : Word) (len : Nat) (data : Word) : Exec Unit := do
  let s ← get
  match P.mmioAccess s.mmio ⟨addr, len, some data⟩ with
  | none => throw (.abort .device)
  | some r =>
    modify fun s => setMtip r.mtip { s with
      mmio := s.mmio ++ [.access ⟨addr, len, some data⟩]
      pmem := r.dma s.pmem }

def raiseAccessFault (P : Platform) (cause : Exc) (vaddr : Word) : Exec α := do
  modify fun s => { s with amo := false }
  faultAt P cause vaddr

def raiseReadAccessFault (P : Platform) (type : MemType) (vaddr : Word) : Exec α := do
  let s ← get
  if type = .ifetch ∨ type = .ifetchRead then raiseAccessFault P .IAF vaddr
  else if s.amo ∨ type = .writeRead then raiseAccessFault P .SAF vaddr
  else raiseAccessFault P .LAF vaddr

def paddrRead (P : Platform) (paddr : Word) (len : Nat) (type : MemType) (mode : Mode)
    (vaddr : Word) : Exec Word := do
  let addr := P.paddr paddr
  let s ← get
  if !isaPmpCheckPermission P s addr len type mode then raiseReadAccessFault P type vaddr
  else if inPmem P addr then pmemRead addr len
  else if (!P.share || P.hasFlash) && P.inMmio addr then mmioRead P addr len
  else if P.share && P.ignoreIllegalMemAccess then pure 0
  else raiseReadAccessFault P type vaddr

def paddrWrite (P : Platform) (paddr : Word) (len : Nat) (data : Word) (mode : Mode)
    (vaddr : Word) : Exec Unit := do
  let addr := P.paddr paddr
  let s ← get
  if !isaPmpCheckPermission P s addr len .write mode then raiseAccessFault P .SAF vaddr
  else if inPmem P addr then pmemWrite addr len data
  else if !P.share && P.inMmio addr then mmioWrite P addr len data
  else if P.share && P.ignoreIllegalMemAccess then pure ()
  else raiseAccessFault P .SAF vaddr

end Nemu
