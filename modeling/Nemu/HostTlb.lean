import Nemu.Lib.Run
import Nemu.Vaddr

namespace Nemu

set_option autoImplicit true

/-- The build with `CONFIG_PERF_OPT`, which excludes `CONFIG_SHARE` and the check of the PMP. -/
def Config.performance : Config := .unchecked

/-- `offset` leads from a guest virtual address to a guest physical one. The source adds the place
of guest memory in the host, a constant. -/
structure HostTLBEntry where
  offset : Word
  gvpn : Word

/-- The two tables, of `HOSTTLB_SIZE` entries each. -/
structure HostTlb where
  hostrtlb : Nat → HostTLBEntry
  hostwtlb : Nat → HostTLBEntry

/-- The machine of a build with `CONFIG_PERF_OPT`. -/
structure HostState where
  machine : Machine
  tlb : HostTlb

abbrev HostExec := EStateM Stop HostState

/-- Code that knows nothing of the tables. -/
def onMachine (x : Exec α) : HostExec α := fun s =>
  match x s.machine with
  | .ok a m => .ok a { s with machine := m }
  | .error e m => .error e { s with machine := m }

def hosttlbVpn (vaddr : Word) : Word := vaddr >>> 12

def hosttlbIdx (vaddr : Word) : Nat := (hosttlbVpn vaddr).toNat % 4096

def HostTLBEntry.drop (gvpn : Word) (e : HostTLBEntry) : HostTLBEntry :=
  if e.gvpn = gvpn then { e with gvpn := -1 } else e

def hosttlbFlush (vaddr : Word) (tlb : HostTlb) : HostTlb :=
  if vaddr = 0 then ⟨fun _ => ⟨-1, -1⟩, fun _ => ⟨-1, -1⟩⟩
  else
    let gvpn := hosttlbVpn vaddr
    let idx := hosttlbIdx vaddr
    ⟨Function.update tlb.hostrtlb idx ((tlb.hostrtlb idx).drop gvpn),
      Function.update tlb.hostwtlb idx ((tlb.hostwtlb idx).drop gvpn)⟩

section Paths

variable (P : Platform)

def va2pa (vaddr : Word) (len : Nat) (type : MemType) : Exec Word := do
  let ret ← isaMmuCheck P vaddr len type
  if ret = .direct then pure (P.paddr vaddr)
  else do
    let pgBase ← isaMmuTranslate P vaddr type
    assert (pgBase &&& pageMask = 0) .mmuState
    pure (P.paddr (pgBase ||| (vaddr &&& pageMask)))

def hostEntry (vaddr paddr : Word) : HostTLBEntry := ⟨paddr - vaddr, hosttlbVpn vaddr⟩

def HostTlb.fillRead (vaddr paddr : Word) (tlb : HostTlb) : HostTlb :=
  { tlb with hostrtlb := Function.update tlb.hostrtlb (hosttlbIdx vaddr) (hostEntry vaddr paddr) }

def HostTlb.fillWrite (vaddr paddr : Word) (tlb : HostTlb) : HostTlb :=
  { tlb with hostwtlb := Function.update tlb.hostwtlb (hosttlbIdx vaddr) (hostEntry vaddr paddr) }

/-- Whatever the access is, memory is read as by a load. -/
def hosttlbReadSlowpath (vaddr : Word) (len : Nat) (type : MemType) : HostExec Word := do
  let paddr ← onMachine (va2pa P vaddr len type)
  if inPmem P paddr then modify fun s => { s with tlb := s.tlb.fillRead vaddr paddr } else pure ()
  onMachine (paddrRead P paddr len .read .S vaddr)

def hosttlbWriteSlowpath (vaddr : Word) (len : Nat) (data : Word) : HostExec Unit := do
  let paddr ← onMachine (va2pa P vaddr len .write)
  if inPmem P paddr then modify fun s => { s with tlb := s.tlb.fillWrite vaddr paddr } else pure ()
  onMachine (paddrWrite P paddr len data .S vaddr)

def hosttlbRead (vaddr : Word) (len : Nat) (type : MemType) : HostExec Word := do
  let s ← get
  let e := s.tlb.hostrtlb (hosttlbIdx vaddr)
  if e.gvpn ≠ hosttlbVpn vaddr then hosttlbReadSlowpath P vaddr len type
  else onMachine (pmemRead (e.offset + vaddr) len)

def hosttlbWrite (vaddr : Word) (len : Nat) (data : Word) : HostExec Unit := do
  let s ← get
  let e := s.tlb.hostwtlb (hosttlbIdx vaddr)
  if e.gvpn ≠ hosttlbVpn vaddr then hosttlbWriteSlowpath P vaddr len data
  else onMachine (pmemWrite (e.offset + vaddr) len data)

end Paths

/-- An access that goes through the tables. -/
inductive HostAccess where
  | fetch (vaddr : Word) (len : Nat)
  | load (vaddr : Word) (len : Nat)
  | store (vaddr : Word) (len : Nat) (data : Word)

namespace HostAccess

def vaddr : HostAccess → Word
  | fetch vaddr _ => vaddr
  | load vaddr _ => vaddr
  | store vaddr _ _ => vaddr

def len : HostAccess → Nat
  | fetch _ len => len
  | load _ len => len
  | store _ len _ => len

def type : HostAccess → MemType
  | fetch _ _ => .ifetch
  | load _ _ => .read
  | store _ _ _ => .write

/-- The entry that the access looks at. -/
def entry (a : HostAccess) (tlb : HostTlb) : HostTLBEntry :=
  match a with
  | store vaddr _ _ => tlb.hostwtlb (hosttlbIdx vaddr)
  | fetch vaddr _ => tlb.hostrtlb (hosttlbIdx vaddr)
  | load vaddr _ => tlb.hostrtlb (hosttlbIdx vaddr)

def Hits (a : HostAccess) (tlb : HostTlb) : Prop := (a.entry tlb).gvpn = hosttlbVpn a.vaddr

instance (a : HostAccess) (tlb : HostTlb) : Decidable (a.Hits tlb) :=
  inferInstanceAs (Decidable (_ = _))

/-- The access through the tables. A store has no value. -/
def host (P : Platform) : HostAccess → HostExec Word
  | fetch vaddr len => hosttlbRead P vaddr len .ifetch
  | load vaddr len => hosttlbRead P vaddr len .read
  | store vaddr len data => do
    hosttlbWrite P vaddr len data
    pure 0

def physical (P : Platform) (paddr : Word) (a : HostAccess) : Exec Word := do
  let s ← get
  match a with
  | fetch vaddr len => paddrRead P paddr len .ifetch s.mode vaddr
  | load vaddr len => paddrRead P paddr len .read s.mode vaddr
  | store vaddr len data => do
    paddrWrite P paddr len data s.mode vaddr
    pure 0

/-- The access without the tables: `isa_mmu_check`, `isa_mmu_translate` and physical memory. -/
def fresh (P : Platform) (a : HostAccess) : Exec Word := do
  let m ← isaMmuCheck P a.vaddr a.len a.type
  if m = .direct then a.physical P a.vaddr
  else do
    let pgBase ← isaMmuTranslate P a.vaddr a.type
    a.physical P (pgBase ||| (a.vaddr &&& pageMask))

end HostAccess

/-- The machine makes an access through the tables, or it does anything else (an instruction
without such an access, a trap, a device), with `mmu_tlb_flush` at the end or without. -/
inductive HostEvent where
  | access (a : HostAccess)
  | other (m : Machine) (fence : Option Word)

def HostStep (P : Platform) (s : HostState) : HostEvent → HostState → Prop
  | .access a, s' => s' = Effect.final (a.host P) s
  | .other m none, s' => s' = { s with machine := m }
  | .other m (some v), s' => s' = ⟨m, hosttlbFlush v s.tlb⟩

/-- What an access does to the outside: its value or how it stops, and memory. -/
structure Outcome where
  result : Except Stop Word
  pmem : Word → BitVec 8

def outcome : EStateM.Result Stop Machine Word → Outcome
  | .ok a m => ⟨.ok a, m.pmem⟩
  | .error e m => ⟨.error e, m.pmem⟩

def hostOutcome : EStateM.Result Stop HostState Word → Outcome
  | .ok a s => ⟨.ok a, s.machine.pmem⟩
  | .error e s => ⟨.error e, s.machine.pmem⟩

end Nemu
