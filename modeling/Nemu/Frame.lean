import Nemu.DecodeSpec
import Nemu.Loop

namespace Nemu

open Effect

set_option autoImplicit true

/-- The CSRs that a memory access may change on its way. -/
def volatileCsr : Csr → Bool
  | .mip => true
  | _ => false

/-- The CSRs in which an exception leaves its data. -/
def faultCsr : Csr → Bool
  | .mtval | .stval | .utval | .dfreason => true
  | _ => false

/-- The CSRs, besides parts of `mstatus` and `fcsr`, that instructions change as data. -/
def dataCsr : Csr → Bool
  | .mip | .mie | .fflags | .vstart | .vl | .vtype => true
  | _ => false

/-- The bits FS and SD of `mstatus`. -/
def fpStatusMask : Word := 0x8000000000006000

def eraseBits : Csr → Word → Word
  | .mstatus, x => x &&& ~~~fpStatusMask
  | .fcsr, x => x &&& ~~~0x1f
  | _, x => x

namespace Machine

/-- The state without what a completed memory access may change. -/
def eraseAccess (s : Machine) : Machine :=
  { s with
    pmem := fun _ => 0
    mmio := []
    forcePfAddr := fun _ => 0
    forcePfCount := fun _ => 0
    csr := fun c => if volatileCsr c then 0 else s.csr c }

/-- The state without what an exception may change in addition. -/
def eraseFault (s : Machine) : Machine :=
  { s with
    amo := false
    csr := fun c => if faultCsr c then 0 else s.csr c }

/-- The state without what an instruction changes that is neither a jump nor a system one. -/
def eraseData (s : Machine) : Machine :=
  { s with
    gpr := fun _ => 0
    fpr := fun _ => 0
    zeroNull := 0
    vr := fun _ => 0
    amo := false
    lrAddr := 0
    lrValid := 0
    pmem := fun _ => 0
    mmio := []
    forcePfAddr := fun _ => 0
    forcePfCount := fun _ => 0
    memEvent := ⟨0, false, false, 0⟩
    csr := fun c => if dataCsr c then 0 else eraseBits c (s.csr c) }

def erasePc (s : Machine) : Machine := { s with pc := 0 }

def eraseDretpc (s : Machine) : Machine :=
  { s with csr := fun c => if c = .dretpc then 0 else s.csr c }

/-- The state without what a jump may change. -/
def eraseJump (s : Machine) : Machine := s.eraseData.erasePc

/-- The state without what any instruction outside SYSTEM may change. -/
def eraseFlow (s : Machine) : Machine := s.eraseJump.eraseDretpc

theorem eraseData_eraseAccess (s : Machine) : s.eraseAccess.eraseData = s.eraseData := by
  unfold eraseData eraseAccess
  congr 1
  funext c
  cases c <;> rfl

theorem eraseFault_eraseData (s : Machine) : s.eraseData.eraseFault = s.eraseFault.eraseData := by
  unfold eraseData eraseFault
  congr 1
  funext c
  cases c <;> rfl

theorem eraseFault_eraseAccess (s : Machine) :
    s.eraseAccess.eraseFault = s.eraseFault.eraseAccess := by
  unfold eraseAccess eraseFault
  congr 1
  funext c
  cases c <;> rfl

theorem eraseFault_eraseDretpc (s : Machine) :
    s.eraseDretpc.eraseFault = s.eraseFault.eraseDretpc := by
  unfold eraseDretpc eraseFault
  congr 1
  funext c
  cases c <;> rfl

end Machine

theorem keepsTval_of_dasics (hP : P.dasics = true) (hc : isDasicsCause ex = true) :
    keepsTval P ex.code = true := by
  unfold keepsTval
  rw [hP]
  revert hc
  cases ex <;> decide

/-- The trap value registers after an exception raised in a state that looks like `v`. -/
def tvalAfter (P : Platform) (v : Machine) (f : Fault) (l : Level) : Word :=
  match f.site, f.vaddr with
  | .plain, some va => if l = trapLevel P v f.cause.code then va else v.csr l.tval
  | .plain, none => v.csr l.tval
  | .nonCanonicalFetch, some va =>
    if l = trapLevel P v f.cause.code ∨ l = .S then va else v.csr l.tval
  | .nonCanonicalFetch, none => v.csr l.tval
  | .forcedFetch, _ =>
    if intrDelegS v f.cause.code then if l = .S then v.guide.stval else v.csr l.tval
    else if l = .M then v.guide.mtval else v.csr l.tval

/-- What holds when `f` is raised in the state `t` by code that started in a state that looks like
`v`. The DASICS checks of jumps are not part of such code. -/
structure Raised (P : Platform) (v : Machine) (f : Fault) (t : Machine) : Prop where
  tval : ∀ l : Level, t.csr l.tval = tvalAfter P v f l
  vaddr : f.vaddr.isSome = keepsTval P f.cause.code
  site : f.site ≠ .plain → f.cause = .IPF
  reason : isDasicsCause f.cause = true →
    P.dasics = true ∧ t.csr .dfreason ≠ FaultReason.DFR_JF.code

/-- What holds when code stops that keeps `erase` of the state otherwise. Only `q` allows the
assertion on the mode in the permission check to fail. -/
structure Stops (P : Platform) (erase : Machine → Machine) (q : Machine → Prop) (v : Machine)
    (e : Stop) (t : Machine) : Prop where
  frame : erase t.eraseFault = v.eraseFault
  raised : ∀ f, e = .exception f → Raised P v f t
  mmuState : e ≠ .abort .mmuState
  permissionMode : e = .abort .permissionMode → q v

/-- Code that keeps `erase` of the state when it ends, and stops only as `Stops` says. -/
def frameEffect (P : Platform) (erase : Machine → Machine) (q : Machine → Prop) :
    Effect Stop Machine :=
  through erase (Stops P erase q)

def accessEffect (P : Platform) (q : Machine → Prop) : Effect Stop Machine :=
  frameEffect P Machine.eraseAccess q

def dataEffect (P : Platform) (q : Machine → Prop) : Effect Stop Machine :=
  frameEffect P Machine.eraseData q

def jumpEffect (P : Platform) (q : Machine → Prop) : Effect Stop Machine :=
  frameEffect P Machine.eraseJump q

def flowEffect (P : Platform) (q : Machine → Prop) : Effect Stop Machine :=
  frameEffect P Machine.eraseFlow q

theorem tvalAfter_eraseAccess (P : Platform) (s : Machine) (f : Fault) (l : Level) :
    tvalAfter P s.eraseAccess f l = tvalAfter P s f l := by
  cases l <;> rfl

theorem tvalAfter_eraseData (P : Platform) (s : Machine) (f : Fault) (l : Level) :
    tvalAfter P s.eraseData f l = tvalAfter P s f l := by
  cases l <;> rfl

theorem tvalAfter_eraseDretpc (P : Platform) (s : Machine) (f : Fault) (l : Level) :
    tvalAfter P s.eraseDretpc f l = tvalAfter P s f l := by
  cases l <;> rfl

/-- `g` erases more of a state, but nothing that an exception depends on. -/
structure Coarsens (P : Platform) (g erase erase' : Machine → Machine) : Prop where
  comp : ∀ s, g (erase s) = erase' s
  fault : ∀ s, g s.eraseFault = (g s).eraseFault
  tval : ∀ s f l, tvalAfter P (g s) f l = tvalAfter P s f l

theorem coarsens_data (P : Platform) :
    Coarsens P Machine.eraseData Machine.eraseAccess Machine.eraseData :=
  ⟨Machine.eraseData_eraseAccess, fun s => (Machine.eraseFault_eraseData s).symm,
    tvalAfter_eraseData P⟩

theorem coarsens_jump (P : Platform) :
    Coarsens P Machine.erasePc Machine.eraseData Machine.eraseJump :=
  ⟨fun _ => rfl, fun _ => rfl, fun _ _ _ => rfl⟩

theorem coarsens_flow (P : Platform) :
    Coarsens P Machine.eraseDretpc Machine.eraseJump Machine.eraseFlow :=
  ⟨fun _ => rfl, fun s => (Machine.eraseFault_eraseDretpc s).symm, tvalAfter_eraseDretpc P⟩

section Coarser

variable {P : Platform} {g erase erase' : Machine → Machine} {q q' : Machine → Prop}
  {s t : Machine} {e : Stop} {m : Exec α}

theorem Stops.coarsen (hg : Coarsens P g erase erase') (h : Stops P erase q (erase s) e t)
    (hq : q (erase s) → q' (erase' s)) : Stops P erase' q' (erase' s) e t where
  frame := by
    rw [← hg.comp, h.frame, hg.fault, hg.comp]
  raised f hf := by
    have hr := h.raised f hf
    refine ⟨fun l => ?_, hr.vaddr, hr.site, hr.reason⟩
    rw [hr.tval, ← hg.comp, hg.tval]
  mmuState := h.mmuState
  permissionMode he := hq (h.permissionMode he)

theorem At.coarsen (hg : Coarsens P g erase erase') (h : (frameEffect P erase q).At s m)
    (hq : q (erase s) → q' (erase' s)) : (frameEffect P erase' q').At s m := by
  refine h.mono ?_ ?_
  · intro t ht
    change erase' t = erase' s
    rw [← hg.comp, ht, hg.comp]
  · intro e t ht
    exact Stops.coarsen hg ht hq

theorem At.weaken (h : (frameEffect P erase q).At s m) (hq : q (erase s) → q' (erase s)) :
    (frameEffect P erase q').At s m := by
  refine h.mono (fun _ ht => ht) ?_
  intro e t ht
  exact ⟨ht.frame, ht.raised, ht.mmuState, fun he => hq (ht.permissionMode he)⟩

end Coarser

end Nemu
