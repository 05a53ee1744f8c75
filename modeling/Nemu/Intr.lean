import Nemu.Status

namespace Nemu

set_option autoImplicit true

/-- The privilege levels that a trap can enter. -/
inductive Level where
  | U | S | M
  deriving DecidableEq

namespace Level

def mode : Level → Mode
  | U => .U
  | S => .S
  | M => .M

def cause : Level → Csr
  | U => .ucause
  | S => .scause
  | M => .mcause

def epc : Level → Csr
  | U => .uepc
  | S => .sepc
  | M => .mepc

def tval : Level → Csr
  | U => .utval
  | S => .stval
  | M => .mtval

def tvec : Level → Csr
  | U => .utvec
  | S => .stvec
  | M => .mtvec

/-- The positions of `xIE` and `xPIE` in `mstatus`. -/
def ie : Level → Nat
  | U => 0
  | S => 1
  | M => 3

def pie : Level → Nat
  | U => 4
  | S => 5
  | M => 7

end Level

def intrBit : Word := 1 <<< 63

def intrEmpty : Word := -1

def intrDelegS (s : Machine) (no : Word) : Bool :=
  let deleg := if no &&& intrBit ≠ 0 then s.csr .mideleg else s.csr .medeleg
  decide (deleg &&& ((1 : Word) <<< (no &&& 0x3f)) ≠ 0) && decide (s.mode < .M)

/-- The shifted `1` is an `int`, so that bit 31 sign-extends. -/
def intrDelegU (P : Platform) (s : Machine) (no : Word) : Bool :=
  let deleg := if no &&& intrBit ≠ 0 then s.csr .sideleg else s.csr .sedeleg
  let mask : Word := if P.dasics then 0x1f else 0xf
  decide (deleg &&& ((1#32 <<< (no &&& mask)).signExtend 64) ≠ 0) && decide (s.mode = .U)

def intrTvalReg (P : Platform) (s : Machine) (ex : Exc) : Csr :=
  if P.rvn && intrDelegU P s ex.code then .utval
  else if intrDelegS s ex.code then .stval else .mtval

def trapLevel (P : Platform) (s : Machine) (no : Word) : Level :=
  if P.rvn && intrDelegU P s no then .U
  else if intrDelegS s no then .S else .M

theorem intrTvalReg_eq (P : Platform) (s : Machine) (ex : Exc) :
    intrTvalReg P s ex = (trapLevel P s ex.code).tval := by
  unfold intrTvalReg trapLevel
  split
  · rfl
  · split <;> rfl

/-- A faulting access: its address goes to the trap value register of the level that will be
entered. -/
def faultAt (P : Platform) (ex : Exc) (vaddr : Word) : Exec α := do
  let s ← get
  setCsr (intrTvalReg P s ex) vaddr
  longjmpAt ex vaddr

/-- The status bits saved and cleared on entry to a level. -/
def pushStatus (l : Level) (mode : Mode) (x : Word) : Word :=
  let y := match l with
    | .U => x
    | .S => BitField.insert 8 (mode.bits.setWidth 1) x
    | .M => BitField.insert 11 mode.bits x
  setBit l.ie false (setBit l.pie (y.getLsbD l.ie) y)

/-- The causes whose trap value register `raise_intr` leaves alone. -/
def keepsTval (P : Platform) (no : Word) : Bool :=
  no ∈ [Exc.IPF.code, Exc.LPF.code, Exc.SPF.code, Exc.LAM.code, Exc.SAM.code, Exc.IAF.code,
    Exc.LAF.code, Exc.SAF.code] ||
  (P.dasics && no ∈ [Exc.DUCF.code, Exc.DSCF.code])

def getTrapPc (xtvec xcause : Word) : Word :=
  let base := (xtvec >>> 2) <<< 2
  if xcause >>> 63 = 1 ∧ xtvec &&& 1 = 1 then base + ((xcause &&& 0x3f) <<< 2) else base

def raiseIntr (P : Platform) (no epc : Word) : Exec Word := do
  let s ← get
  let l := trapLevel P s no
  setCsr l.cause no
  setCsr l.epc epc
  modifyMstatus (pushStatus l s.mode)
  if keepsTval P no then pure () else setCsr l.tval 0
  modify fun s => { s with mode := l.mode }
  updateMmuState
  let s ← get
  pure (getTrapPc (s.csr l.tvec) (s.csr l.cause))

/-- The condition of `isa_query_intr` under which a pending and enabled interrupt is taken, with
the level it is meant for. -/
def queryLevel (P : Platform) (s : Machine) (irq : Nat) : Level :=
  if P.rvn && (s.csr .sideleg).getLsbD irq then .U
  else if (s.csr .mideleg).getLsbD irq then .S else .M

def globalEnable (s : Machine) : Level → Bool
  | .U => decide (s.mode = .U) && (s.csr .mstatus).getLsbD 0
  | .S => (decide (s.mode = .S) && (s.csr .mstatus).getLsbD 1) || decide (s.mode < .S)
  | .M => (decide (s.mode = .M) && (s.csr .mstatus).getLsbD 3) || decide (s.mode < .M)

/-- MEIP, MSIP, MTIP, SEIP, SSIP, STIP, UEIP, USIP, UTIP. -/
def irqPriority : List Nat := [11, 3, 7, 9, 1, 5, 8, 0, 4]

def Machine.pending (s : Machine) (irq : Nat) : Bool :=
  (s.csr .mie &&& s.csr .mip).getLsbD irq

def isaQueryIntr (P : Platform) (s : Machine) : Word :=
  if s.csr .mie &&& s.csr .mip = 0 then intrEmpty
  else match irqPriority.find? fun irq => s.pending irq && globalEnable s (queryLevel P s irq) with
    | some irq => BitVec.ofNat 64 irq ||| intrBit
    | none => intrEmpty

/-- The state that `raise_intr` passes to `update_mmu_state`. -/
def trapEntry (P : Platform) (no epc : Word) (s : Machine) : Machine :=
  let l := trapLevel P s no
  let t := (s.setCsr l.cause no).setCsr l.epc epc
  let t := t.setCsr .mstatus (pushStatus l s.mode (t.csr .mstatus))
  { (if keepsTval P no then t else t.setCsr l.tval 0) with mode := l.mode }

theorem raiseIntr_eq (P : Platform) (no epc : Word) (s : Machine) :
    raiseIntr P no epc s =
      (updateMmuState >>= fun _ => get >>= fun s' => pure (getTrapPc
        (s'.csr (trapLevel P s no).tvec) (s'.csr (trapLevel P s no).cause)))
        (trapEntry P no epc s) := by
  unfold raiseIntr trapEntry
  by_cases hk : keepsTval P no
  · simp only [hk, ↓reduceIte]
    rfl
  · simp only [hk, Bool.false_eq_true, ↓reduceIte]
    rfl

end Nemu
