import Nemu.Instr

namespace Nemu

set_option autoImplicit true

/-- `misa->extensions`, from the letters of the extensions. -/
def misaExtensions (P : Platform) : BitVec 26 :=
  let ext (c : Char) : BitVec 26 := 1 <<< (c.toNat - 'a'.toNat)
  ext 'i' ||| ext 'm' ||| ext 'a' ||| ext 'c' ||| ext 's' ||| ext 'u' |||
    (if P.fpuNone then 0 else ext 'd' ||| ext 'f') ||| (if P.rvn then ext 'n' else 0) |||
    (if P.rvv then ext 'v' else 0)

def resetCsr (P : Platform) : Csr → Word
  | .mstatus => 0xa <<< 32
  | .srnctl => if P.svinval then 3 else 0
  | .misa => (misaExtensions P).setWidth 64 ||| (2 <<< 62)
  | .mvendorid => if P.archCsrs then P.mvendorid else 0
  | .marchid => if P.archCsrs then P.marchid else 0
  | .mimpid => if P.archCsrs then P.mimpid else 0
  | _ => 0

/-- The state that `init_isa` leaves, with the static variables as they are initialised and any
contents of the memory. -/
def Machine.reset (P : Platform) (ram : Word → BitVec 8) : Machine where
  gpr := fun _ => 0
  fpr := fun _ => 0
  zeroNull := 0
  vr := fun _ => 0
  pc := P.resetVector
  mode := .M
  csr := resetCsr P
  amo := false
  lrAddr := 0
  lrValid := 0
  pmem := ram
  mmio := []
  ifetchMmuState := .direct
  dataMmuState := .direct
  rmCache := 0
  guidedExec := false
  guide := ⟨false, 0, 0, 0, false, 0⟩
  forcePfAddr := fun _ => 0
  forcePfCount := fun _ => 0
  currentPc := 0
  memEvent := ⟨0, false, false, 0⟩
  decPc := 0
  prevPc := 0
  prevType := .none
  prevIsCfi := false

def program (base : Word) (instrs : List (BitVec 32)) (a : Word) : BitVec 8 :=
  match instrs[(a - base).toNat / 4]? with
  | some i => i.extractLsb' (8 * ((a - base).toNat % 4)) 8
  | none => 0

/-- The state in which a program at the reset vector starts. -/
def booted (P : Platform) (instrs : List (BitVec 32)) : Machine :=
  Machine.reset P (program P.resetVector instrs)

end Nemu
