import Mathlib.Logic.Function.Basic
import Nemu.Lib.Effect
import Nemu.Csr

namespace Nemu

set_option autoImplicit true

/-- The values of `cpu.mode`. `H` is the reserved encoding. -/
inductive Mode where
  | U | S | H | M
  deriving DecidableEq

namespace Mode

def toNat : Mode → Nat
  | U => 0
  | S => 1
  | H => 2
  | M => 3

def bits (m : Mode) : BitVec 2 := BitVec.ofNat 2 m.toNat

def ofBits (b : BitVec 2) : Mode :=
  if b = 0 then U else if b = 1 then S else if b = 2 then H else M

@[simp] theorem ofBits_bits (m : Mode) : ofBits m.bits = m := by
  cases m <;> decide

instance : LT Mode := ⟨fun a b => a.toNat < b.toNat⟩

instance : LE Mode := ⟨fun a b => a.toNat ≤ b.toNat⟩

instance (a b : Mode) : Decidable (a < b) := inferInstanceAs (Decidable (a.toNat < b.toNat))

instance (a b : Mode) : Decidable (a ≤ b) := inferInstanceAs (Decidable (a.toNat ≤ b.toNat))

end Mode

/-- The exception codes that the code raises. -/
inductive Exc where
  | IAF | II | BP | LAM | LAF | SAM | SAF | ECU | ECS | ECM | IPF | LPF | SPF | DUCF | DSCF
  deriving DecidableEq

def Exc.code : Exc → Word
  | IAF => 1
  | II => 2
  | BP => 3
  | LAM => 4
  | LAF => 5
  | SAM => 6
  | SAF => 7
  | ECU => 8
  | ECS => 9
  | ECM => 11
  | IPF => 12
  | LPF => 13
  | SPF => 15
  | DUCF => 24
  | DSCF => 25

/-- The codes of `dfreason`. -/
inductive FaultReason where
  | DFR_EF | DFR_LF | DFR_SF | DFR_JF | MFR_LF | MFR_SF
  deriving DecidableEq

def FaultReason.code : FaultReason → Word
  | DFR_EF => 1
  | DFR_LF => 2
  | DFR_SF => 3
  | DFR_JF => 4
  | MFR_LF => 5
  | MFR_SF => 6

inductive MemType where
  | ifetch | read | write | ifetchRead | writeRead
  deriving DecidableEq

inductive MmuMode where
  | direct | translate | dynamic
  deriving DecidableEq

inductive CfiType where
  | none | branch | jump
  deriving DecidableEq

/-- Where an exception comes from, as far as this decides what is in the trap value register. -/
inductive RaiseSite where
  | plain | nonCanonicalFetch | forcedFetch
  deriving DecidableEq

/-- A pending exception. Only `cause` exists in the source (`g_ex_cause`); `vaddr`, the faulting
virtual address, and `site` are recorded for specifications and never read by the model. -/
structure Fault where
  cause : Exc
  vaddr : Option Word
  site : RaiseSite
  deriving DecidableEq

/-- The assertions and panics of the modelled code. -/
inductive Abort where
  | csrAccess | unimpCsr | privOp | mmuState | permissionMode | permissionAmo
  | roundingMode | hostLength | device | amo | vector | decode | invalidInstr
  deriving DecidableEq

/-- The ways in which an instruction does not complete: `longjmp_exception`, `longjmp_exec` and
the end of the emulator. -/
inductive Stop where
  | exception (f : Fault)
  | execEnd
  | abort (a : Abort)
  deriving DecidableEq

structure ExecutionGuide where
  forceRaiseException : Bool
  exceptionNum : Word
  mtval : Word
  stval : Word
  forceSetJumpTarget : Bool
  jumpTarget : Word

structure MmioReq where
  addr : Word
  len : Nat
  write : Option Word
  deriving DecidableEq

/-- The history of the devices: MMIO accesses and readings of the timer. -/
inductive DevEvent where
  | access (r : MmioReq)
  | uptime
  deriving DecidableEq

/-- What a device did on one access: the value read, the new `mip.mtip` when the timer was
updated, and what it wrote to memory. -/
structure MmioReply where
  data : Word
  mtip : Option Bool
  dma : (Word → BitVec 8) → Word → BitVec 8

structure MemEvent where
  pc : Word
  memAccess : Bool
  isLoad : Bool
  vaddr : Word

/-- The whole state: `cpu`, `csr_array`, guest memory, the devices' history and the static
variables of the interpreter. The `Decode` record of `execute` survives an instruction only
through the fields `decPc` to `prevIsCfi`. -/
structure Machine where
  gpr : BitVec 5 → Word
  fpr : BitVec 5 → Word
  zeroNull : Word
  vr : BitVec 5 → BitVec 128
  pc : Word
  mode : Mode
  csr : Csr → Word
  amo : Bool
  lrAddr : Word
  lrValid : Word
  pmem : Word → BitVec 8
  mmio : List DevEvent
  ifetchMmuState : MmuMode
  dataMmuState : MmuMode
  rmCache : BitVec 32
  guidedExec : Bool
  guide : ExecutionGuide
  forcePfAddr : MemType → Word
  forcePfCount : MemType → BitVec 32
  currentPc : Word
  memEvent : MemEvent
  decPc : Word
  prevPc : Word
  prevType : CfiType
  prevIsCfi : Bool

abbrev Exec := EStateM Stop Machine

def Machine.setCsr (s : Machine) (c : Csr) (v : Word) : Machine :=
  { s with csr := Function.update s.csr c v }

@[simp] theorem Machine.setCsr_csr_self (s : Machine) (c : Csr) (v : Word) :
    (s.setCsr c v).csr c = v := by
  simp [Machine.setCsr]

theorem Machine.setCsr_csr_ne (s : Machine) (v : Word) (h : c' ≠ c) :
    (s.setCsr c v).csr c' = s.csr c' := by
  simp [Machine.setCsr, h]

theorem Machine.setCsr_self (s : Machine) (c : Csr) : s.setCsr c (s.csr c) = s := by
  unfold Machine.setCsr
  rw [Function.update_eq_self]

theorem Machine.setCsr_setCsr (s : Machine) (c : Csr) (v w : Word) :
    (s.setCsr c v).setCsr c w = s.setCsr c w := by
  simp only [Machine.setCsr, Function.update_idem]

def raise (f : Fault) : Exec α := throw (.exception f)

def longjmpException (cause : Exc) : Exec α := raise ⟨cause, none, .plain⟩

/-- `longjmp_exception` after a faulting access to `vaddr`. -/
def longjmpAt (cause : Exc) (vaddr : Word) : Exec α := raise ⟨cause, some vaddr, .plain⟩

def setCsr (c : Csr) (v : Word) : Exec Unit := modify fun s => s.setCsr c v

def assert (p : Prop) [Decidable p] (a : Abort) : Exec Unit :=
  if p then pure () else throw (.abort a)

theorem assert_pos (p : Prop) [Decidable p] (hp : p) (a : Abort) (s : Machine) :
    assert p a s = .ok () s := by
  unfold assert
  rw [if_pos hp]
  rfl

theorem assert_neg (p : Prop) [Decidable p] (hp : ¬ p) (a : Abort) (s : Machine) :
    assert p a s = .error (.abort a) s := by
  unfold assert
  rw [if_neg hp]
  rfl

end Nemu
