import Nemu.Decode

namespace Nemu

set_option autoImplicit true

/-- The user timer, advanced once per instruction. -/
def utimerTick (s : Machine) : Machine :=
  if 1 < s.csr .utimer ∧ s.mode = .U then s.setCsr .utimer (s.csr .utimer - 1)
  else if s.csr .utimer = 1 then s.setCsr .mip (s.csr .mip ||| 0x100)
  else s.setCsr .mip (s.csr .mip &&& ~~~0x100)

/-- What `execute` does with a decoded instruction. -/
def executeDecoded (P : Platform) (d : Decode) : Exec Decode := do
  modify fun s => { s with currentPc := d.pc, prevPc := s.pc, pc := d.snpc }
  exec P d
  modify fun s => if P.rvn then utimerTick s else s
  pure d

/-- `execute` on a decoded instruction, before and after its executor. -/
def Machine.started (s : Machine) (d : Decode) : Machine :=
  { s with currentPc := d.pc, prevPc := s.pc, pc := d.snpc }

def Machine.ticked (s : Machine) (P : Platform) : Machine := if P.rvn then utimerTick s else s

/-- One iteration of the loop of `execute`. -/
def executeStep (P : Platform) : Exec Decode := do
  let d ← fetchDecode P
  executeDecoded P d

def isDasicsCause (ex : Exc) : Bool := ex = .DUCF || ex = .DSCF

/-- The exception is a failed DASICS check of a jump. -/
def isJumpFault (P : Platform) (s : Machine) (f : Fault) : Bool :=
  P.dasics && isDasicsCause f.cause && s.csr .dfreason = FaultReason.DFR_JF.code

/-- How `cpu_exec` handles an exception: a DASICS jump fault is charged to the jump, whose check
is then no longer pending. -/
def handleException (P : Platform) (f : Fault) : Exec Unit := do
  let s ← get
  modify fun s => if isJumpFault P s f then { s with prevIsCfi := false, prevType := .none } else s
  let pc ← raiseIntr P f.cause.code (if isJumpFault P s f then s.prevPc else s.decPc)
  modify fun s => { s with pc := pc, amo := false }

def takeIntr (P : Platform) (no : Word) : Exec Unit := do
  let s ← get
  let pc ← raiseIntr P no s.pc
  modify fun s => { s with pc := pc }

/-- Where `cpu_exec` stands: at the head of its loop, inside `execute`, or back from it with an
exception. -/
inductive Phase where
  | top
  | run
  | exn (f : Fault)
  deriving DecidableEq

structure Cpu where
  phase : Phase
  m : Machine

inductive Event where
  | instr (d : Decode)
  | fault (f : Fault)
  | trap (f : Fault)
  | intr (no : Word)
  | quiet
  deriving DecidableEq

/-- Instructions that are attempted: they complete or raise an exception. -/
def Event.isAttempt : Event → Bool
  | .instr _ | .fault _ => true
  | _ => false

/-- The steps of `cpu_exec`. A batch of instructions may end anywhere, and the timer alarm may
change `mip.mtip` at any time. -/
inductive CpuStep (P : Platform) : Cpu → Event → Cpu → Prop where
  | instr : executeStep P s = .ok d t → CpuStep P ⟨.run, s⟩ (.instr d) ⟨.run, t⟩
  | fault : executeStep P s = .error (.exception f) t → CpuStep P ⟨.run, s⟩ (.fault f) ⟨.exn f, t⟩
  | batchEnd : CpuStep P ⟨.run, s⟩ .quiet ⟨.top, s⟩
  | trap : handleException P f s = .ok () t →
      CpuStep P ⟨.exn f, s⟩ (.trap f) ⟨if P.share then .top else .run, t⟩
  | intr : P.share = false → isaQueryIntr P s = no → no ≠ intrEmpty → takeIntr P no s = .ok () t →
      CpuStep P ⟨.top, s⟩ (.intr no) ⟨.run, t⟩
  | noIntr : P.share = true ∨ isaQueryIntr P s = intrEmpty → CpuStep P ⟨.top, s⟩ .quiet ⟨.run, s⟩
  | alarm : P.share = false → CpuStep P ⟨ph, s⟩ .quiet ⟨ph, setMtip (some b) s⟩

end Nemu
