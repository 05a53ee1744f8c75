import Nemu.Reachable

namespace Nemu

set_option autoImplicit true

/-- The words at the head of `cpu`, which the processor under test can read and write: registers,
and shadows of CSRs. -/
inductive Slot where
  | gpr (r : BitVec 5)
  | fpr (r : BitVec 5)
  | pc
  | mode
  | shadow (c : Csr)
  | vr (r : BitVec 5) (half : Fin 2)
  deriving DecidableEq

namespace Slot

/-- The words that every configuration has. -/
def base : List Slot :=
  (List.finRange 32).map (fun i => gpr (BitVec.ofFin i)) ++
    (List.finRange 32).map (fun i => fpr (BitVec.ofFin i)) ++
    [pc, shadow .mstatus, shadow .mcause, shadow .mepc, shadow .sstatus, shadow .scause,
      shadow .sepc, shadow .satp, shadow .mip, shadow .mie, shadow .mscratch, shadow .sscratch,
      shadow .mideleg, shadow .medeleg, shadow .mtval, shadow .stval, shadow .mtvec, shadow .stvec,
      mode]

def rvnCsrs : List Csr :=
  [.ustatus, .ucause, .uepc, .uscratch, .utval, .utvec, .sedeleg, .sideleg]

def dasicsCsrs : List Csr :=
  [.dsmcfg, .dsmbound 0, .dsmbound 1, .dumbound 0, .dumbound 1, .dlcfg0] ++
    (List.finRange 32).map Csr.dlbound ++ [.dmaincall, .dretpc, .dretpcfz, .dfreason, .djcfg] ++
    (List.finRange 8).map Csr.djbound ++ [.upkru, .spkrs, .spkctl]

def vectorCsrs : List Csr := [.vstart, .vxsat, .vxrm, .vcsr, .vl, .vtype, .vlenb]

def vectorRegs : List Slot :=
  (List.finRange 32).flatMap fun i => [vr (BitVec.ofFin i) 0, vr (BitVec.ofFin i) 1]

/-- The order of the fields of `riscv64_CPU_state`. -/
def layout (P : Platform) : List Slot :=
  base ++ ((if P.rvn then rvnCsrs.map shadow else []) ++
    (if P.dasics then dasicsCsrs.map shadow else []) ++
    (if P.rvn then [shadow .utimer] else []) ++
    (if P.rvv then vectorRegs ++ vectorCsrs.map shadow else []))

/-- `DIFFTEST_REG_SIZE`, in words. The word of `utimer` is not counted. -/
def regSize (P : Platform) : Nat :=
  32 + 32 + 1 + 6 + 11 + 1 + (if P.rvv then 64 + 7 else 0) + (if P.rvn then 8 else 0) +
    (if P.dasics then 5 + 1 + 32 + 4 + 1 + 8 + 3 else 0)

/-- The words that a copy of registers reaches. -/
def copied (P : Platform) (w : Slot) : Bool := w ∈ (layout P).take (regSize P)

end Slot

/-- The reference model: the machine, and the shadows of CSRs in `cpu`. -/
structure Ref where
  m : Machine
  shadow : Csr → Word

/-- The mode in a word of a buffer that holds a legal one. -/
def dutMode (w : Word) : Mode := Mode.ofBits (w.extractLsb' 0 2)

/-- `memcpy(&cpu, dut, DIFFTEST_REG_SIZE)`, for a buffer given word by word. -/
def copyRegs (P : Platform) (dut : Slot → Word) (r : Ref) : Ref where
  m := { r.m with
    gpr := fun i => if Slot.copied P (.gpr i) then dut (.gpr i) else r.m.gpr i
    fpr := fun i => if Slot.copied P (.fpr i) then dut (.fpr i) else r.m.fpr i
    pc := if Slot.copied P .pc then dut .pc else r.m.pc
    mode := if Slot.copied P .mode then dutMode (dut .mode) else r.m.mode
    vr := fun i =>
      let half (h : Fin 2) : BitVec 64 :=
        if Slot.copied P (.vr i h) then dut (.vr i h) else (r.m.vr i).extractLsb' (64 * h.val) 64
      half 1 ++ half 0 }
  shadow := fun c => if Slot.copied P (.shadow c) then dut (.shadow c) else r.shadow c

/-- The CSRs that `csr_writeback` takes from their shadows. -/
def writesBack (P : Platform) : Csr → Bool
  | .mstatus | .mcause | .mepc | .scause | .sepc | .satp | .mip | .mie | .mscratch | .sscratch
  | .mideleg | .medeleg | .mtval | .stval | .mtvec | .stvec => true
  | .ucause | .uepc | .uscratch | .sideleg | .sedeleg | .utval | .utvec => P.rvn
  | .dsmcfg | .dsmbound _ | .dumbound _ | .dlcfg0 | .dlbound _ | .djcfg | .djbound _ | .dmaincall
  | .dretpc | .dretpcfz | .dfreason | .upkru | .spkrs | .spkctl => P.dasics
  | .vstart | .vxsat | .vxrm | .vcsr | .vl | .vtype | .vlenb => P.rvv
  | _ => false

def csrWriteback (P : Platform) (r : Ref) : Ref :=
  { r with m := { r.m with csr := fun c => if writesBack P c then r.shadow c else r.m.csr c } }

/-- `isa_difftest_regcpy` and `isa_difftest_csrcpy` with `DIFFTEST_TO_REF`. -/
def isaDifftestRegcpy (P : Platform) (dut : Slot → Word) (r : Ref) : Ref :=
  csrWriteback P (copyRegs P dut r)

def isaDifftestCsrcpy (dut : Csr → Word) (r : Ref) : Ref :=
  { r with m := { r.m with csr := dut } }

/-- What the processor under test writes: registers with shadows of CSRs, or all CSRs. -/
inductive Injection where
  | regs (dut : Slot → Word)
  | csrs (dut : Csr → Word)

namespace Injection

def apply (P : Platform) : Injection → Ref → Ref
  | regs dut, r => isaDifftestRegcpy P dut r
  | csrs dut, r => isaDifftestCsrcpy dut r

end Injection

variable {P : Platform} {r : Ref} {dut : Slot → Word}

section Layout

end Layout

end Nemu
