import Mathlib.Logic.Function.Basic
import Nemu.Config

namespace Nemu

set_option autoImplicit true

/-- The sizes of the trace cache, and `CONFIG_RT_CHECK`. -/
structure TraceConfig where
  tcacheSize : Nat
  bbListSize : Nat
  bbPoolSize : Nat
  rtCheck : Bool

/-- The defaults of Kconfig, without the run-time checks. -/
def TraceConfig.standard : TraceConfig := ⟨8192, 1024, 1024, false⟩

def TraceConfig.bbSize (c : TraceConfig) : Nat := c.tcacheSize / 4 + 2

/-- The values of a `Decode *`. `wild` is `(Decode *)-1`, which `memset` leaves in an unused
bucket. -/
inductive Ptr where
  | null
  | wild
  | pool (i : Nat)
  | record (i : Nat)
  | ex
  deriving DecidableEq

def Ptr.next : Ptr → Ptr
  | pool i => pool (i + 1)
  | record i => record (i + 1)
  | p => p

inductive InstrType where
  | N | J | B | I
  deriving DecidableEq

/-- `BB_RECORD_TYPE_*`, and the type 0 of a record that no link waits for. -/
inductive RecordType where
  | none | ntaken | taken
  deriving DecidableEq

/-- What `fetch_decode` fills in. -/
structure Decoded (δ : Type) where
  type : InstrType
  snpc : Word
  jnpc : Word
  data : δ

/-- A `Decode` as the trace cache uses it. The source keeps `list_next` in the place of `tnext`
and `bb_src` in that of `ntnext`, and one byte holds the type of a record and that of an
instruction. `body` is absent as long as `EHelper` is `exec_nemu_decode`. -/
structure Entry (δ : Type) where
  tnext : Ptr
  ntnext : Ptr
  pc : Word
  type : RecordType
  body : Option (Decoded δ)

/-- A used `bb_t`. -/
structure Bb where
  s : Ptr
  pc : Word
  deriving DecidableEq

inductive TcacheState where
  | building | running
  deriving DecidableEq

/-- The failed assertions of the trace cache (`s != NULL`, `next == s + 1`, `tcache_bb_check`,
the type of an instruction), a pointer that cannot be followed, and an event that the instruction
at hand does not have. -/
inductive TcacheAbort where
  | noRecord | notNext | rtCheck | instrType | wild | stuck
  deriving DecidableEq

/-- The static variables of the trace cache. A bucket of `bb_list` is given with the chain behind
it, head first. `built` and `abandoned` count, since the last flush, the blocks put into `bb_list`
and the records left by a trap before their block was built; they are recorded for specifications
and never read by the model. -/
structure Tcache (δ : Type) where
  pool : Nat → Entry δ
  tcIdx : Nat
  records : Nat → Entry δ
  freelist : Ptr
  bbList : Nat → List Bb
  bbIdx : Nat
  ex : Entry δ
  state : TcacheState
  bbNow : Ptr
  bbNowRecord : Ptr
  built : Nat
  abandoned : Nat

/-- `execute` with `s = cur`. `decoded` is set when `tcache_decode` has just returned `cur`, which
is then executed before `cpu_exec` can step in with an interrupt. -/
structure Engine (δ : Type) where
  tc : Tcache δ
  cur : Ptr
  decoded : Bool

section Entries

variable {δ : Type}

def tcacheEntryInit (pc : Word) : Entry δ := ⟨.null, .null, pc, .none, none⟩

def setLink (isTaken : Bool) (q : Ptr) (x : Entry δ) : Entry δ :=
  if isTaken then { x with tnext := q } else { x with ntnext := q }

namespace Tcache

def deref (t : Tcache δ) : Ptr → Except TcacheAbort (Entry δ)
  | .pool i => .ok (t.pool i)
  | .record i => .ok (t.records i)
  | .ex => .ok t.ex
  | _ => .error .wild

/-- Writes to `*p`, which has been read before. -/
def update (t : Tcache δ) (p : Ptr) (f : Entry δ → Entry δ) : Tcache δ :=
  match p with
  | .pool i => { t with pool := Function.update t.pool i (f (t.pool i)) }
  | .record i => { t with records := Function.update t.records i (f (t.records i)) }
  | .ex => { t with ex := f t.ex }
  | _ => t

end Tcache

end Entries

section Pools

variable {δ : Type} (c : TraceConfig)

def tcacheNew (pc : Word) (t : Tcache δ) : Option (Ptr × Tcache δ) :=
  if t.tcIdx = c.tcacheSize then none
  else some (.pool t.tcIdx,
    { t with pool := Function.update t.pool t.tcIdx (tcacheEntryInit pc), tcIdx := t.tcIdx + 1 })

def tcacheBbCheck (p : Ptr) : Except TcacheAbort Unit :=
  if c.rtCheck then
    match p with
    | .record i => if i < c.bbSize then .ok () else .error .rtCheck
    | _ => .error .rtCheck
  else .ok ()

/-- The checks of `tcache_bb_new`, where `s` is the record to be returned: the free list is left
with two records at least. -/
def tcacheBbNewCheck (s : Entry δ) (t : Tcache δ) : Except TcacheAbort Unit := do
  tcacheBbCheck c t.freelist
  tcacheBbCheck c s.tnext
  if c.rtCheck then do
    let head ← t.deref s.tnext
    tcacheBbCheck c head.tnext
  else pure ()

def tcacheBbNew (pc : Word) (t : Tcache δ) : Except TcacheAbort (Ptr × Tcache δ) :=
  if t.freelist = .null then .error .noRecord
  else do
    let s ← t.deref t.freelist
    tcacheBbNewCheck c s t
    let t' := { t with freelist := s.tnext }
    pure (t.freelist, t'.update t.freelist fun _ => tcacheEntryInit pc)

def tcacheBbFree (s : Ptr) (t : Tcache δ) : Except TcacheAbort (Tcache δ) := do
  tcacheBbCheck c s
  tcacheBbCheck c t.freelist
  pure { t.update s fun x => { x with tnext := t.freelist } with freelist := s }

def bbHash (pc : Word) : Nat := pc.toNat / 2 % c.bbListSize

/-- Whether the head of a bucket counts as unused: its `next` and its `pc` are `-1`. -/
def bbUnused : List Bb → Bool
  | [] => true
  | [h] => h.pc = -1
  | _ => false

/-- The copy of the old head is taken from `bb_pool`, which may be full. -/
def bbInsert (pc : Word) (fill : Ptr) (t : Tcache δ) : Option (Tcache δ) :=
  let i := bbHash c pc
  if bbUnused (t.bbList i) then
    some { t with bbList := Function.update t.bbList i [⟨fill, pc⟩], built := t.built + 1 }
  else if t.bbIdx = c.bbPoolSize then none
  else some { t with
    bbList := Function.update t.bbList i (⟨fill, pc⟩ :: t.bbList i)
    bbIdx := t.bbIdx + 1
    built := t.built + 1 }

/-- The entry for `pc` behind the head of a bucket, and what is there once `head` has taken its
place. -/
def bbSwap (head : Bb) (pc : Word) : List Bb → Option (Bb × List Bb)
  | [] => none
  | b :: l =>
    if b.pc = pc then some (b, head :: l)
    else (bbSwap head pc l).map fun (f, l) => (f, b :: l)

/-- An unused head has the `pc` `-1`, and is taken for the block at that address. -/
def bbFind (pc : Word) (t : Tcache δ) : Option Ptr × Tcache δ :=
  let i := bbHash c pc
  match t.bbList i with
  | [] => (if pc = -1 then some .wild else none, t)
  | head :: l =>
    if head.pc = pc then (some head.s, t)
    else match bbSwap head pc l with
      | none => (none, t)
      | some (b, l) => (some b.s, { t with bbList := Function.update t.bbList i (b :: l) })

def tcacheBbFetch (this : Ptr) (isTaken : Bool) (jpc : Word) (t : Tcache δ) :
    Except TcacheAbort (Tcache δ) :=
  match bbFind c jpc t with
  | (some bb, t) => .ok (t.update this (setLink isTaken bb))
  | (none, t) => do
    let (ret, t) ← tcacheBbNew c jpc t
    let t := t.update ret fun x =>
      { x with type := if isTaken then .taken else .ntaken, ntnext := this }
    pure (t.update this (setLink isTaken ret))

def tcacheFlush (t : Tcache δ) : Tcache δ :=
  { t with
    tcIdx := 0
    bbIdx := 0
    bbList := fun _ => []
    records := fun i =>
      { t.records i with tnext := if i + 1 < c.bbSize then .record (i + 1) else .null }
    freelist := .record 0
    built := 0
    abandoned := 0 }

def tcacheJrFetch (s : Ptr) (jpc : Word) (t : Tcache δ) :
    Except TcacheAbort (Tcache δ × Ptr) := do
  let t := t.update s fun x => { x with ntnext := x.tnext }
  let t ← tcacheBbFetch c s true jpc t
  let x ← t.deref s
  pure (t, x.tnext)

def jrFetch (s : Ptr) (target : Word) (t : Tcache δ) : Except TcacheAbort (Tcache δ × Ptr) := do
  let x ← t.deref s
  let y ← t.deref x.tnext
  if y.pc = target then pure (t, x.tnext)
  else do
    let z ← t.deref x.ntnext
    if z.pc = target then pure (t, x.ntnext) else tcacheJrFetch c s target t

def tcachePatchAndFree (bbRecord bb : Ptr) (t : Tcache δ) : Except TcacheAbort (Tcache δ) := do
  let x ← t.deref bbRecord
  let t := match x.type with
    | .taken => t.update x.ntnext (setLink true bb)
    | .ntaken => t.update x.ntnext (setLink false bb)
    | .none => t
  tcacheBbFree c bbRecord t

def tcacheHandleException (jpc : Word) (t : Tcache δ) : Except TcacheAbort (Engine δ) := do
  let t ← tcacheBbFetch c .ex true jpc t
  pure ⟨{ t with state := .running }, t.ex.tnext, false⟩

def tcacheHandleFlush (snpc : Word) (t : Tcache δ) : Except TcacheAbort (Engine δ) :=
  tcacheHandleException c snpc (tcacheFlush c t)

end Pools

section Decode

variable {δ : Type} (c : TraceConfig)

/-- What `fetch_decode` does when `tcache_decode` comes to it: it decodes an instruction, or
raises an exception whose handler is at `jpc`. -/
inductive Fetch (δ : Type) where
  | ok (d : Decoded δ)
  | fault (jpc : Word)

/-- The label `full`: back to `cpu_exec` with nothing but a record for `thispc`. -/
def tcacheFull (thispc : Word) (t : Tcache δ) : Except TcacheAbort (Engine δ) := do
  let (s, t) ← tcacheBbNew c thispc (tcacheFlush c t)
  pure ⟨{ t with bbNow := .null, bbNowRecord := .null, state := .running }, s, false⟩

/-- The links of an instruction that ends a basic block. -/
def tcacheLink (s : Ptr) (d : Decoded δ) (t : Tcache δ) : Except TcacheAbort (Tcache δ) :=
  match d.type with
  | .J => tcacheBbFetch c s true d.jnpc t
  | .B => do
    let t ← tcacheBbFetch c s true d.jnpc t
    tcacheBbFetch c s false d.snpc t
  | .I => .ok (t.update s fun x => { x with tnext := s, ntnext := s })
  | .N => .error .instrType

/-- The end of a basic block. -/
def tcacheEndOfBb (s : Ptr) (d : Decoded δ) (thispc : Word) (t : Tcache δ) :
    Except TcacheAbort (Engine δ) := do
  let now ← t.deref t.bbNow
  match bbInsert c now.pc t.bbNow t with
  | none => tcacheFull c thispc t
  | some t => do
    let t ← tcachePatchAndFree c t.bbNowRecord t.bbNow t
    let t ← tcacheLink c s d { t with bbNow := .null, bbNowRecord := .null }
    pure ⟨{ t with state := .running }, s, true⟩

/-- `tcache_decode` from `fetch_decode` on, an exception included. -/
def tcacheDecodeAt (f : Fetch δ) (s : Ptr) (thispc : Word) (t : Tcache δ) :
    Except TcacheAbort (Engine δ) :=
  match f with
  | .fault jpc => tcacheHandleException c jpc { t with abandoned := t.abandoned + 1 }
  | .ok d =>
    let t := t.update s fun x => { x with body := some d }
    if d.type = .N then
      match tcacheNew c d.snpc t with
      | none => tcacheFull c thispc t
      | some (next, t) => if next = s.next then .ok ⟨t, s, true⟩ else .error .notNext
    else tcacheEndOfBb c s d thispc t

def tcacheDecode (f : Fetch δ) (s : Ptr) (t : Tcache δ) : Except TcacheAbort (Engine δ) := do
  let x ← t.deref s
  match t.state with
  | .running =>
    match bbFind c x.pc t with
    | (some bb, t) => do
      let t ← tcachePatchAndFree c s bb t
      pure ⟨t, bb, true⟩
    | (none, t) =>
      match tcacheNew c x.pc t with
      | none => tcacheFull c x.pc t
      | some (n, t) =>
        tcacheDecodeAt c f n x.pc { t with bbNow := n, bbNowRecord := s, state := .building }
  | .building => tcacheDecodeAt c f s x.pc t

end Decode

/-- What the guest makes of the instruction at hand: it is fetched and decoded, it is executed and
followed by the next one, with or without `SYS_STATE_FLUSH_TCACHE`, it jumps, or it gives way to
the trap handler at `jpc`. -/
inductive TraceEvent (δ : Type) where
  | decode (f : Fetch δ)
  | next
  | flush
  | jump
  | branch (isJmp : Bool)
  | indirect (target : Word) (flush : Bool)
  | trap (jpc : Word)

namespace Engine

variable {δ : Type} (c : TraceConfig)

/-- A trap here leaves behind a record whose block is not built. -/
def unfinished (e : Engine δ) : Bool :=
  e.tc.state = .building || match e.cur with
    | .record _ => true
    | _ => false

/-- The instructions that can raise an exception or be the last before an interrupt is looked at:
a jump that has just been decoded is executed first. -/
def canTrap (e : Engine δ) (x : Entry δ) : Bool :=
  !e.decoded || match x.body with
    | some d => d.type = .N || d.type = .I
    | none => true

/-- `rtl_priv_jr`, and without `flush` also `rtl_jr`. -/
def privJr (e : Engine δ) (target : Word) (flush : Bool) : Except TcacheAbort (Engine δ) := do
  let (t, s) ← jrFetch c e.cur target e.tc
  if flush then do
    let x ← t.deref s
    tcacheHandleFlush c x.pc t
  else pure ⟨t, s, false⟩

/-- What an executed instruction does. `ebreak` jumps although its type is `INSTR_TYPE_N`. -/
def stepBody (e : Engine δ) (x : Entry δ) (d : Decoded δ) :
    TraceEvent δ → Except TcacheAbort (Engine δ)
  | .next => if d.type = .N then .ok ⟨e.tc, e.cur.next, false⟩ else .error .stuck
  | .flush => if d.type = .N then tcacheHandleFlush c d.snpc e.tc else .error .stuck
  | .jump => if d.type = .J then .ok ⟨e.tc, x.tnext, false⟩ else .error .stuck
  | .branch isJmp =>
    if d.type = .B then .ok ⟨e.tc, if isJmp then x.tnext else x.ntnext, false⟩
    else .error .stuck
  | .indirect target flush =>
    if d.type = .I ∨ d.type = .N then e.privJr c target flush else .error .stuck
  | _ => .error .stuck

def step (e : Engine δ) (ev : TraceEvent δ) : Except TcacheAbort (Engine δ) := do
  let x ← e.tc.deref e.cur
  match ev with
  | .trap jpc =>
    if e.canTrap x then
      tcacheHandleException c jpc
        { e.tc with abandoned := e.tc.abandoned + if e.unfinished then 1 else 0 }
    else .error .stuck
  | .decode f =>
    match x.body with
    | none => tcacheDecode c f e.cur e.tc
    | some _ => .error .stuck
  | ev =>
    match x.body with
    | none => .error .stuck
    | some d => e.stepBody c x d ev

/-- The static variables before `tcache_init`. -/
def zero : Tcache δ :=
  ⟨fun _ => tcacheEntryInit 0, 0, fun _ => tcacheEntryInit 0, .null, fun _ => [], 0,
    tcacheEntryInit 0, .running, .null, .null, 0, 0⟩

def init (resetVector : Word) : Except TcacheAbort (Engine δ) := do
  let (s, t) ← tcacheBbNew c resetVector (tcacheFlush c zero)
  pure ⟨t, s, false⟩

def Step (e : Engine δ) (ev : TraceEvent δ) (e' : Engine δ) : Prop := e.step c ev = .ok e'

end Engine

end Nemu
