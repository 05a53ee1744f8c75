import Nemu.Tcache

namespace Nemu

set_option autoImplicit true

/-- `CONFIG_DEBUG` and `CONFIG_DIFFTEST` besides the trace cache. -/
structure CountConfig extends TraceConfig where
  debug : Bool
  difftest : Bool

def CountConfig.standard : CountConfig := ⟨.standard, false, false⟩

/-- What `longjmp_exec` is called with: `NEMU_EXEC_END`, `NEMU_EXEC_AGAIN`, or
`NEMU_EXEC_EXCEPTION` with an exception whose handler is at `jpc`. -/
inductive ExecCause where
  | exit
  | again
  | exception (jpc : Word)
  deriving DecidableEq

/-- How `execute` has come to `end_of_loop`. -/
inductive LoopExit where
  | bb | privNext | privJr
  deriving DecidableEq

/-- Where control is. In `cpu_exec`: at the head of its loop when it has been called, when
`execute` has returned or when `longjmp_exec` has been called, and behind
`tcache_handle_exception`. In `execute`: at an instruction, at `end_of_bb` and at `end_of_loop`. -/
inductive ExecPhase where
  | idle
  | called
  | returned (exit : LoopExit)
  | caught (cause : ExecCause)
  | handled
  | run
  | blockEnd
  | loopEnd (exit : LoopExit)
  | ended
  deriving DecidableEq

/-- The counters beside the engine. `idx` holds the `idx_in_bb` of every `Decode`, and `idxInBb` is
the variable of that name in `tcache_decode`; `n` is the one of `execute`. `completed` counts the
completed instructions; it is recorded for specifications and never read by the model. -/
structure Counted (δ : Type) where
  engine : Engine δ
  phase : ExecPhase
  idx : Ptr → BitVec 16
  idxInBb : Nat
  prevS : Ptr
  n : Int
  nRemain : Int
  nRemainTotal : Nat
  nrGuestInstr : Word
  profilingStarted : Bool
  completed : Nat

/-- Where `tcache_decode` stands when it would come to `fetch_decode`: the block has been found,
there is no place for it, or the instruction at `thispc` goes to `s`. -/
inductive Decoding (δ : Type) where
  | hit (e : Engine δ)
  | full (thispc : Word) (t : Tcache δ)
  | place (s : Ptr) (thispc : Word) (t : Tcache δ)

section Decode

variable {δ : Type} (c : TraceConfig)

/-- `tcache_decode` up to `fetch_decode`. -/
def tcacheDecodeStart (s : Ptr) (t : Tcache δ) : Except TcacheAbort (Decoding δ) := do
  let x ← t.deref s
  match t.state with
  | .running =>
    match bbFind c x.pc t with
    | (some bb, t) => do
      let t ← tcachePatchAndFree c s bb t
      pure (.hit ⟨t, bb, true⟩)
    | (none, t) =>
      match tcacheNew c x.pc t with
      | none => pure (.full x.pc t)
      | some (n, t) =>
        pure (.place n x.pc { t with bbNow := n, bbNowRecord := s, state := .building })
  | .building => pure (.place s x.pc t)

def Decoding.finish (f : Fetch δ) : Decoding δ → Except TcacheAbort (Engine δ)
  | .hit e => .ok e
  | .full thispc t => tcacheFull c thispc t
  | .place s thispc t => tcacheDecodeAt c f s thispc t

theorem tcacheDecode_eq (f : Fetch δ) (s : Ptr) (t : Tcache δ) :
    tcacheDecode c f s t = tcacheDecodeStart c s t >>= Decoding.finish c f := by
  unfold tcacheDecode tcacheDecodeStart
  cases hx : t.deref s with
  | error a => rfl
  | ok x =>
    cases hst : t.state with
    | building => rfl
    | running =>
      simp only [bind, Except.bind]
      cases hf : bbFind c x.pc t with
      | mk o t₁ =>
        cases o with
        | some bb =>
          simp only [pure, Except.pure]
          cases tcachePatchAndFree c s bb t₁ with
          | error a => rfl
          | ok t₂ => rfl
        | none =>
          dsimp only
          cases tcacheNew c x.pc t₁ with
          | none => rfl
          | some y => rfl

end Decode

namespace Counted

variable {δ : Type}

def batchSize : Nat := 65536

def nBatch (m : Counted δ) : Nat :=
  if m.nRemainTotal ≥ batchSize then batchSize else m.nRemainTotal

/-- The `uint32_t n_executed`. -/
def nExecuted (m : Counted δ) : BitVec 32 := .ofInt 32 (m.nBatch - m.nRemain)

def getAbsInstrCount (m : Counted δ) : Word := m.nExecuted.setWidth 64 + m.nrGuestInstr

section Step

variable (c : CountConfig)

def updateInstrCnt (m : Counted δ) : Counted δ :=
  let total := m.nRemainTotal -
    if m.nRemainTotal > m.nExecuted.toNat then m.nExecuted.toNat else m.nRemainTotal
  { m with
    nRemainTotal := total
    nrGuestInstr :=
      if c.debug then m.nrGuestInstr else m.nrGuestInstr + m.nExecuted.setWidth 64
    nRemain := if m.nBatch > total then total else m.nBatch }

def saveGlobals (s : Ptr) (m : Counted δ) : Counted δ := { m with prevS := s }

/-- `save_globals(s)` by the instruction at hand, if it makes it. -/
def saveIf (saves : Bool) (m : Counted δ) : Counted δ :=
  if saves then m.saveGlobals m.engine.cur else m

/-- `debug_difftest`, which saves the next instruction. -/
def debugDifftest (m : Counted δ) : Counted δ :=
  if c.difftest then m.saveGlobals m.engine.cur else m

/-- `longjmp_exec` and what `cpu_exec` does before it comes back to its loop. -/
def longjmpExec (cause : ExecCause) (m : Counted δ) : Counted δ :=
  { updateInstrCnt c { m with nRemain := m.nRemain - ((m.idx m.prevS).toNat - 1) } with
    phase := .caught cause }

/-- The end of `tcache_decode` at the label `full`, once there is a record to go on with. -/
def execAgain (e : Engine δ) (m : Counted δ) : Counted δ :=
  longjmpExec c .again { m with
    engine := e
    idx := Function.update m.idx e.cur (.ofNat 16 m.idxInBb)
    prevS := e.cur }

def call (n : Word) (m : Counted δ) : Except TcacheAbort (Counted δ) :=
  if m.phase = .idle then .ok { m with phase := .called, nRemainTotal := n.toNat }
  else .error .stuck

def atLoop (m : Counted δ) : Bool :=
  match m.phase with
  | .called | .returned _ | .caught _ => true
  | _ => false

/-- `cpu_exec` leaves its loop, because nothing remains to be executed or `nemu_state` has changed,
and prints the statistics unless `nemu_state` is `NEMU_STOP`. An exception that has not been handled
is forgotten. -/
def leave (statistic : Bool) (m : Counted δ) : Except TcacheAbort (Counted δ) :=
  if m.atLoop then
    .ok { if statistic then m.updateInstrCnt c else m with
      phase := if m.phase = .caught .exit then .ended else .idle }
  else .error .stuck

/-- `tcache_handle_exception`, with the instruction that `execute` has been left at abandoned. -/
def handleException (jpc : Word) (m : Counted δ) : Except TcacheAbort (Counted δ) := do
  let e ← tcacheHandleException c.toTraceConfig jpc { m.engine.tc with
    abandoned := m.engine.tc.abandoned + if m.engine.unfinished then 1 else 0 }
  pure { m with engine := e, prevS := e.cur, phase := .handled }

/-- An interrupt that `isa_query_intr` reports, with its handler at `jpc`. -/
def interrupt (jpc : Word) (m : Counted δ) : Except TcacheAbort (Counted δ) :=
  if m.nRemainTotal > 0 then
    match m.phase with
    | .called | .returned _ | .caught .again => m.handleException c jpc
    | _ => .error .stuck
  else .error .stuck

/-- The exception that `longjmp_exec` has been called with. -/
def handle (m : Counted δ) : Except TcacheAbort (Counted δ) :=
  if m.nRemainTotal > 0 then
    match m.phase with
    | .caught (.exception jpc) => m.handleException c jpc
    | _ => .error .stuck
  else .error .stuck

/-- `cpu_exec` calls `execute`. -/
def execute (m : Counted δ) : Except TcacheAbort (Counted δ) :=
  if m.nRemainTotal > 0 then
    match m.phase with
    | .called | .returned _ | .caught .again | .handled =>
      .ok { m with engine := ⟨m.engine.tc, m.prevS, false⟩, n := m.nBatch, phase := .run }
    | _ => .error .stuck
  else .error .stuck

/-- `tcache_decode`, for an instruction that is not decoded. -/
def decode (f : Fetch δ) (m : Counted δ) : Except TcacheAbort (Counted δ) := do
  let x ← m.engine.tc.deref m.engine.cur
  if m.phase = .run ∧ x.body.isNone then
    match ← tcacheDecodeStart c.toTraceConfig m.engine.cur m.engine.tc with
    | .hit e => pure { m with engine := e }
    | .full thispc t => do
      let e ← tcacheFull c.toTraceConfig thispc t
      pure (execAgain c e { m with idxInBb := 1 })
    | .place s thispc t => do
      let k := if m.engine.tc.state = .running then 1 else m.idxInBb
      let m := { m with
        engine := ⟨t, s, false⟩
        idxInBb := k
        prevS := s
        idx := Function.update m.idx s (.ofNat 16 k) }
      match f with
      | .fault jpc => pure (m.longjmpExec c (.exception jpc))
      | .ok d => do
        let e ← tcacheDecodeAt c.toTraceConfig (.ok d) s thispc t
        pure (if e.decoded then { m with engine := e, idxInBb := k + 1 } else m.execAgain c e)
  else .error .stuck

/-- The instruction at hand is executed to its end, and control goes on at `phase`. -/
def complete (ev : TraceEvent δ) (phase : ExecPhase) (m : Counted δ) :
    Except TcacheAbort (Counted δ) :=
  if m.phase = .run then do
    let e ← m.engine.step c.toTraceConfig ev
    pure { m with engine := e, phase := phase, completed := m.completed + 1 }
  else .error .stuck

/-- An instruction that control falls through. -/
def next (saves : Bool) (m : Counted δ) : Except TcacheAbort (Counted δ) := do
  let m ← (m.saveIf saves).complete c .next .run
  pure (m.debugDifftest c)

/-- `nemu_trap` with `0x101` in `a0`. -/
def startProfiling (m : Counted δ) : Except TcacheAbort (Counted δ) :=
  next c true { m with
    nrGuestInstr := if m.profilingStarted then m.nrGuestInstr else 1
    profilingStarted := true }

/-- `tcache_handle_flush` saves the instruction that it returns. -/
def flushed (flush : Bool) (m : Counted δ) : Counted δ :=
  if flush then m.saveGlobals m.engine.cur else m

/-- `rtl_priv_next` with `g_sys_state_flag` set. -/
def privNext (flush saves : Bool) (m : Counted δ) : Except TcacheAbort (Counted δ) := do
  let m ← (m.saveIf saves).complete c (if flush then .flush else .next) (.loopEnd .privNext)
  pure (m.flushed flush)

/-- `n -= s->idx_in_bb`. -/
def charge (m : Counted δ) : Counted δ :=
  { m with n := m.n - (m.idx m.engine.cur).toNat }

/-- `rtl_j`, `rtl_jrelop` and `rtl_jr`, up to `n_remain = n` at `end_of_bb`. -/
def leaveBb (ev : TraceEvent δ) (m : Counted δ) : Except TcacheAbort (Counted δ) := do
  let m ← m.charge.complete c ev .blockEnd
  pure { m with nRemain := m.n }

def privJr (target : Word) (flush saves : Bool) (m : Counted δ) :
    Except TcacheAbort (Counted δ) := do
  let m ← (m.saveIf saves).charge.complete c (.indirect target flush) (.loopEnd .privJr)
  pure (m.flushed flush)

/-- The instruction at hand calls `longjmp_exec`, though not with `NEMU_EXEC_AGAIN`. -/
def raise (cause : ExecCause) (saves : Bool) (m : Counted δ) :
    Except TcacheAbort (Counted δ) := do
  let x ← m.engine.tc.deref m.engine.cur
  if m.phase = .run ∧ x.body.isSome ∧ cause ≠ .again then
    pure ((m.saveIf saves).longjmpExec c cause)
  else .error .stuck

/-- From `end_of_bb` on. -/
def resume (m : Counted δ) : Except TcacheAbort (Counted δ) :=
  if m.phase = .blockEnd then
    .ok (if m.n ≤ 0 then { m with phase := .loopEnd .bb }
      else debugDifftest c { m with phase := .run })
  else .error .stuck

/-- `execute` returns to `cpu_exec`. -/
def ret (m : Counted δ) : Except TcacheAbort (Counted δ) :=
  match m.phase with
  | .loopEnd exit => .ok { updateInstrCnt c { m with prevS := m.engine.cur, nRemain := m.n } with
      phase := .returned exit }
  | _ => .error .stuck

end Step

end Counted

/-- What happens next. An instruction that calls `save_globals` on itself `saves`. -/
inductive CountEvent (δ : Type) where
  | call (n : Word)
  | leave (statistic : Bool)
  | interrupt (jpc : Word)
  | handle
  | execute
  | decode (f : Fetch δ)
  | next (saves : Bool)
  | startProfiling
  | privNext (flush saves : Bool)
  | jump
  | branch (isJmp : Bool)
  | indirect (target : Word)
  | privJr (target : Word) (flush saves : Bool)
  | raise (cause : ExecCause) (saves : Bool)
  | resume
  | ret

namespace Counted

variable {δ : Type} (c : CountConfig)

def step (m : Counted δ) : CountEvent δ → Except TcacheAbort (Counted δ)
  | .call n => m.call n
  | .leave statistic => m.leave c statistic
  | .interrupt jpc => m.interrupt c jpc
  | .handle => m.handle c
  | .execute => m.execute
  | .decode f => m.decode c f
  | .next saves => m.next c saves
  | .startProfiling => m.startProfiling c
  | .privNext flush saves => m.privNext c flush saves
  | .jump => m.leaveBb c .jump
  | .branch isJmp => m.leaveBb c (.branch isJmp)
  | .indirect target => m.leaveBb c (.indirect target false)
  | .privJr target flush saves => m.privJr c target flush saves
  | .raise cause saves => m.raise c cause saves
  | .resume => m.resume c
  | .ret => m.ret c

/-- The static variables before the first `cpu_exec`, with `tcache_init` done. -/
def init (resetVector : Word) (profilingStarted : Bool) : Except TcacheAbort (Counted δ) := do
  let e ← Engine.init c.toTraceConfig resetVector
  pure ⟨e, .idle, fun _ => 0, 0, e.cur, 0, 0, 0, 0, profilingStarted, 0⟩

def Step (m : Counted δ) (ev : CountEvent δ) (m' : Counted δ) : Prop := m.step c ev = .ok m'

end Counted

end Nemu
