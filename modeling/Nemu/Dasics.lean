import Nemu.Intr

namespace Nemu

set_option autoImplicit true

namespace Machine

def mcfgSena (s : Machine) : Bool := (s.csr .dsmcfg).getLsbD 0

def mcfgUena (s : Machine) : Bool := (s.csr .dsmcfg).getLsbD 1

/-- The bits of `dsmcfg` that close the ecall, store, load and fetch checks of a mode. -/
def mcfgCloseEcall (s : Machine) : Bool := (s.csr .dsmcfg).getLsbD (if s.mode = .U then 2 else 6)

def mcfgCloseStore (s : Machine) : Bool := (s.csr .dsmcfg).getLsbD (if s.mode = .U then 3 else 7)

def mcfgCloseLoad (s : Machine) : Bool := (s.csr .dsmcfg).getLsbD (if s.mode = .U then 4 else 8)

def mcfgCloseFetch (s : Machine) : Bool := (s.csr .dsmcfg).getLsbD (if s.mode = .U then 5 else 9)

end Machine

def dasicsInTrustedZone (s : Machine) (pc : Word) : Bool :=
  let inSmainZone := decide (s.csr (.dsmbound 0) ≤ pc) && decide (pc < s.csr (.dsmbound 1)) &&
    decide (s.mode = .S) && s.mcfgSena
  let inUmainZone := decide (s.csr (.dumbound 0) ≤ pc) && decide (pc < s.csr (.dumbound 1)) &&
    decide (s.mode = .U) && s.mcfgUena
  let inSTrustedZone := inSmainZone || (decide (s.mode = .S) && !s.mcfgSena)
  let inUTrustedZone := inUmainZone || (decide (s.mode = .U) && !s.mcfgUena)
  decide (s.mode = .M) || inSTrustedZone || inUTrustedZone

def libcfgV : Word := 8

def libcfgR : Word := 2

def libcfgW : Word := 1

def jumpcfgV : Word := 1

def dasicsLibcfgFromIndex (s : Machine) (i : Fin 16) : Word :=
  (s.csr .dlcfg0 >>> (4 * i.val)) &&& 0xf

def dasicsLibboundLow (s : Machine) (i : Fin 16) : Word :=
  s.csr (.dlbound ⟨2 * i.val, by omega⟩)

def dasicsLibboundHigh (s : Machine) (i : Fin 16) : Word :=
  s.csr (.dlbound ⟨2 * i.val + 1, by omega⟩)

def dasicsJumpcfgFromIndex (s : Machine) (i : Fin 4) : Word :=
  (s.csr .djcfg >>> (16 * i.val)) &&& 0xffff

def dasicsJumpboundLow (s : Machine) (i : Fin 4) : Word :=
  s.csr (.djbound ⟨2 * i.val, by omega⟩)

def dasicsJumpboundHigh (s : Machine) (i : Fin 4) : Word :=
  s.csr (.djbound ⟨2 * i.val + 1, by omega⟩)

def dasicsMatchDlib (s : Machine) (addr cfg : Word) : Bool :=
  (List.finRange 16).any fun i =>
    decide ((dasicsLibcfgFromIndex s i &&& cfg) ^^^ cfg = 0) &&
      decide (dasicsLibboundLow s i ≤ addr) && decide (addr < dasicsLibboundHigh s i)

def dasicsMatchDjumpbound (s : Machine) (addr cfg : Word) : Bool :=
  (List.finRange 4).any fun i =>
    decide ((dasicsJumpcfgFromIndex s i &&& cfg) ^^^ cfg = 0) &&
      decide (dasicsJumpboundLow s i ≤ addr) && decide (addr < dasicsJumpboundHigh s i)

/-- The exception of a failed check, by the mode of the code. -/
def dasicsEx (mode : Mode) : Exc := if mode = .U then .DUCF else .DSCF

def dasicsFault (P : Platform) (ex : Exc) (reason : FaultReason) (vaddr : Word) : Exec α := do
  setCsr .dfreason reason.code
  faultAt P ex vaddr

/-- The loop over the bytes of an access: the first one without a bound faults. -/
def dasicsCheckBytes (P : Platform) (close : Bool) (cfg : Word) (reason : FaultReason)
    (vaddr : Word) (len : Nat) : Exec Unit := do
  let s ← get
  match (List.range len).find? fun i =>
      !close && !dasicsMatchDlib s (vaddr + BitVec.ofNat 64 i) cfg with
  | some i => dasicsFault P (dasicsEx s.mode) reason (vaddr + BitVec.ofNat 64 i)
  | none => pure ()

def dasicsLdstHelper (P : Platform) (pc vaddr : Word) (len : Nat) (type : MemType) :
    Exec Unit := do
  let s ← get
  if dasicsInTrustedZone s pc then pure ()
  else match type with
    | .write => dasicsCheckBytes P s.mcfgCloseStore (libcfgV ||| libcfgW) .DFR_SF vaddr len
    | .read => dasicsCheckBytes P s.mcfgCloseLoad (libcfgV ||| libcfgR) .DFR_LF vaddr len
    | _ => pure ()

def dasicsAllowCfi (s : Machine) (pc prevPc : Word) (cfiType : CfiType) : Bool :=
  let srcTrusted := dasicsInTrustedZone s prevPc
  let dstTrusted := dasicsInTrustedZone s pc
  let srcFreezone := dasicsMatchDjumpbound s prevPc jumpcfgV
  let dstFreezone := dasicsMatchDjumpbound s pc jumpcfgV
  let allowLibToMain := !srcTrusted && dstTrusted &&
    (decide (pc = s.csr .dretpc) || decide (pc = s.csr .dmaincall))
  let allowFreezoneToLib := srcFreezone && !dstTrusted && !dstFreezone &&
    decide (pc = s.csr .dretpcfz)
  let allowBr := srcTrusted || dstFreezone
  let allowJump := srcTrusted || allowLibToMain || dstFreezone || allowFreezoneToLib
  (decide (cfiType = .branch) && allowBr) || (decide (cfiType = .jump) && allowJump)

def dasicsFetchHelper (P : Platform) (pc prevPc : Word) (cfiType : CfiType) : Exec Unit := do
  let s ← get
  if !dasicsAllowCfi s pc prevPc cfiType && !s.mcfgCloseFetch then
    dasicsFault P (dasicsEx s.mode) .DFR_JF pc
  else pure ()

def dasicsCheckTrusted (pc : Word) : Exec Unit := do
  let s ← get
  if dasicsInTrustedZone s pc then pure () else longjmpException .II

end Nemu
