import Mathlib.Data.List.Forall2
import Nemu.Lib.RingBuffer
import Nemu.Paddr

namespace Nemu

set_option autoImplicit true

/-- `store_commit_t`. -/
structure StoreCommit where
  addr : Word
  data : Word
  mask : BitVec 8
  valid : Bool
  deriving DecidableEq

/-- `store_commit_queue` with `head` and `tail`. -/
abbrev StoreCommitQueue := RingBuffer 64 StoreCommit

def StoreCommitQueue.init : StoreCommitQueue := ⟨fun _ => ⟨0, 0, 0, false⟩, 0, 0⟩

/-- The entry that a store of `len` bytes is given; none where the assertion on the length fails. -/
def storeCommit (addr data : Word) (len : Nat) : Option StoreCommit :=
  let offset := addr % 8
  let base := addr - offset
  if len = 1 then
    some ⟨base, (data &&& 0xff) <<< (offset <<< 3), (0x1#32 <<< offset).setWidth 8, true⟩
  else if len = 2 then
    some ⟨base, (data &&& 0xffff) <<< (offset <<< 3), (0x3#32 <<< offset).setWidth 8, true⟩
  else if len = 4 then
    some ⟨base, (data &&& 0xffffffff) <<< (offset <<< 3), (0xf#32 <<< offset).setWidth 8, true⟩
  else if len = 8 then some ⟨base, data, 0xff, true⟩
  else none

/-- A store that reaches `pmem_write`, with `cpu.amo`. -/
structure Store where
  amo : Bool
  addr : Word
  len : Nat
  data : Word

/-- Without `CONFIG_DIFFTEST_STORE_COMMIT_AMO` the stores of AMO instructions are not queued. -/
def Store.queued (commitAmo : Bool) (st : Store) : Bool := commitAmo || !st.amo

def storeCommitQueuePush (commitAmo : Bool) (st : Store) (q : StoreCommitQueue) :
    Option StoreCommitQueue :=
  if st.queued commitAmo then (storeCommit st.addr st.data st.len).map q.put else some q

/-- The entry returned is the one that is left in the queue, with `valid` cleared. -/
def storeCommitQueuePop (q : StoreCommitQueue) : Option StoreCommit × StoreCommitQueue :=
  let result := q.slot q.head
  if result.valid then (some { result with valid := false }, q.take { result with valid := false })
  else (none, q)

/-- What `check_store_commit` returns, with the three values behind its pointers. -/
structure CheckResult where
  result : Nat
  addr : Word
  data : Word
  mask : BitVec 8
  deriving DecidableEq

def compareCommit (addr data : Word) (mask : BitVec 8) : Option StoreCommit → CheckResult
  | none => ⟨1, addr - addr % 8, data, mask⟩
  | some c =>
    if addr - addr % 8 ≠ c.addr ∨ data ≠ c.data ∨ mask ≠ c.mask then ⟨1, c.addr, c.data, c.mask⟩
    else ⟨0, addr - addr % 8, data, mask⟩

def checkStoreCommit (addr data : Word) (mask : BitVec 8) (q : StoreCommitQueue) :
    CheckResult × StoreCommitQueue :=
  let commit := storeCommitQueuePop q
  (compareCommit addr data mask commit.1, commit.2)

/-- The guest memory and the queue. -/
structure StoreUnit where
  pmem : Word → BitVec 8
  queue : StoreCommitQueue

/-- `pmem_write` of a build with the store commit queue. -/
def pmemWriteCommit (commitAmo : Bool) (st : Store) (u : StoreUnit) : Option StoreUnit :=
  if HostLength st.len then
    (storeCommitQueuePush commitAmo st u.queue).map fun q =>
      ⟨Bytes.writeLE u.pmem st.addr st.len st.data, q⟩
  else none

inductive QueueOp where
  | store (st : Store)
  | pop
  | check (addr data : Word) (mask : BitVec 8)

/-- What an operation returns; `check_store_commit` with the entry that it took from the queue. -/
inductive QueueAnswer where
  | stored
  | popped (c : Option StoreCommit)
  | checked (c : Option StoreCommit) (r : CheckResult)
  deriving DecidableEq

def QueueOp.run (commitAmo : Bool) (u : StoreUnit) : QueueOp → Option (QueueAnswer × StoreUnit)
  | .store st => (pmemWriteCommit commitAmo st u).map fun u => (.stored, u)
  | .pop => some (.popped (storeCommitQueuePop u.queue).1, { u with queue := (storeCommitQueuePop u.queue).2 })
  | .check addr data mask =>
    some (.checked (storeCommitQueuePop u.queue).1 (checkStoreCommit addr data mask u.queue).1,
      { u with queue := (checkStoreCommit addr data mask u.queue).2 })

/-- Any interleaving of stores and pops. -/
def runQueue (commitAmo : Bool) : List QueueOp → StoreUnit → Option (List QueueAnswer × StoreUnit)
  | [], u => some ([], u)
  | op :: ops, u => do
    let (r, u) ← op.run commitAmo u
    let (rs, u) ← runQueue commitAmo ops u
    pure (r :: rs, u)

section Fifo

/-- The stores that an operation adds to the queue. -/
def QueueOp.pushes (commitAmo : Bool) : QueueOp → List Store
  | .store st => if st.queued commitAmo then [st] else []
  | _ => []

/-- The operation on a FIFO of stores. -/
def QueueOp.fifo (commitAmo : Bool) (l : List Store) : QueueOp → List Store
  | .store st => if st.queued commitAmo then l ++ [st] else l
  | .pop | .check _ _ _ => l.tail

/-- The stores that have been queued and not been popped. -/
def outstanding (commitAmo : Bool) (ops : List QueueOp) : List Store :=
  ops.foldl (fun l op => op.fifo commitAmo l) []

def QueueAnswer.commit : QueueAnswer → Option StoreCommit
  | .stored => none
  | .popped c | .checked c _ => c

/-- The effect of an entry on the memory, byte by byte. -/
def StoreCommit.apply (c : StoreCommit) (m : Word → BitVec 8) : Word → BitVec 8 :=
  Bytes.writeMask m c.addr 8 c.mask c.data

/-- The entry writes what the store wrote. -/
def StoreCommit.Writes (c : StoreCommit) (st : Store) : Prop :=
  ∀ m, c.apply m = Bytes.writeLE m st.addr st.len st.data

/-- The answer of an operation when `l` is outstanding. -/
inductive Answered (l : List Store) : QueueOp → QueueAnswer → Prop where
  | stored : Answered l (.store st) .stored
  | popped : (c = none ↔ l = []) → Answered l .pop (.popped c)
  | checked : (c = none ↔ l = []) →
      Answered l (.check addr data mask) (.checked c (compareCommit addr data mask c))

/-- A store of one of the four lengths to a multiple of its length. -/
structure Store.Aligned (st : Store) : Prop where
  len : HostLength st.len
  addr : st.addr.toNat % st.len = 0

end Fifo

section Lane

variable {st : Store} {c : StoreCommit}

theorem getLsbD_laneMask (h : o + len ≤ 8) (hk : k < 8) :
    ((BitVec.ofNat 32 (2 ^ len - 1) <<< o).setWidth 8).getLsbD k = decide (o ≤ k ∧ k < o + len) := by
  rw [BitVec.getLsbD_setWidth, BitVec.getLsbD_shiftLeft, BitVec.getLsbD_ofNat, Nat.testBit_two_pow_sub_one,
    Bool.eq_iff_iff]
  simp only [Bool.and_eq_true, decide_eq_true_eq, Bool.not_eq_true', decide_eq_false_iff_not]
  omega

theorem extract_laneData (data : Word) (h : o + len ≤ 8) (hlo : o ≤ k) (hhi : k < o + len) :
    ((data &&& BitVec.ofNat 64 (2 ^ (8 * len) - 1)) <<< (8 * o)).extractLsb' (8 * k) 8 =
      data.extractLsb' (8 * (k - o)) 8 := by
  apply BitVec.eq_of_getLsbD_eq
  intro p hp
  have h1 : ¬ 8 * k + p < 8 * o := by omega
  have h2 : 8 * k + p < 64 := by omega
  have h3 : 8 * k + p - 8 * o = 8 * (k - o) + p := by omega
  have h4 : 8 * (k - o) + p < 64 := by omega
  have h5 : 8 * (k - o) + p < 8 * len := by omega
  simp only [BitVec.getLsbD_extractLsb', BitVec.getLsbD_shiftLeft, BitVec.getLsbD_and, BitVec.getLsbD_ofNat,
    Nat.testBit_two_pow_sub_one, h1, h2, h3, h4, h5, decide_true, decide_false, Bool.not_false,
    Bool.true_and, Bool.and_true]

/-- What the entry of a store is: its double word, and its bytes in their lanes. -/
structure Lane (c : StoreCommit) (st : Store) : Prop where
  valid : c.valid = true
  addr : c.addr = st.addr - st.addr % 8
  mask : ∀ k < 8, c.mask.getLsbD k = decide (st.addr.toNat % 8 ≤ k ∧ k < st.addr.toNat % 8 + st.len)
  data : ∀ k, st.addr.toNat % 8 ≤ k → k < st.addr.toNat % 8 + st.len →
    c.data.extractLsb' (8 * k) 8 = st.data.extractLsb' (8 * (k - st.addr.toNat % 8)) 8

theorem Store.Aligned.fits (h : st.Aligned) : st.addr.toNat % 8 + st.len ≤ 8 := by
  have ha := h.addr
  obtain hl | hl | hl | hl := h.len <;> rw [hl] at ha ⊢ <;> omega

theorem storeCommit_lane (h : st.Aligned) : ∃ c, storeCommit st.addr st.data st.len = some c ∧ Lane c st := by
  have hfit := h.fits
  have ho : (st.addr % 8).toNat = st.addr.toNat % 8 := BitVec.toNat_umod
  have ho3 : ((st.addr % 8) <<< 3).toNat = 8 * (st.addr.toNat % 8) := by
    rw [BitVec.toNat_shiftLeft, ho, Nat.shiftLeft_eq]
    omega
  have hlane : ∀ m : BitVec 32, ∀ dm : Word, m = BitVec.ofNat 32 (2 ^ st.len - 1) →
      dm = BitVec.ofNat 64 (2 ^ (8 * st.len) - 1) →
      Lane ⟨st.addr - st.addr % 8, (st.data &&& dm) <<< ((st.addr % 8) <<< 3),
        (m <<< (st.addr % 8)).setWidth 8, true⟩ st := by
    rintro _ _ rfl rfl
    refine ⟨rfl, rfl, fun k hk => ?_, fun k hlo hhi => ?_⟩
    · have hmask := getLsbD_laneMask hfit hk
      rw [← ho, ← BitVec.shiftLeft_eq'] at hmask
      rw [← ho]
      exact hmask
    · have hdata := extract_laneData st.data hfit hlo hhi
      rw [← ho3, ← BitVec.shiftLeft_eq'] at hdata
      exact hdata
  unfold storeCommit
  dsimp only
  obtain hl | hl | hl | hl := h.len
  · exact ⟨_, if_pos hl, hlane _ _ (by rw [hl]; rfl) (by rw [hl]; rfl)⟩
  · rw [if_neg (by omega)]
    exact ⟨_, if_pos hl, hlane _ _ (by rw [hl]; rfl) (by rw [hl]; rfl)⟩
  · rw [if_neg (by omega), if_neg (by omega)]
    exact ⟨_, if_pos hl, hlane _ _ (by rw [hl]; rfl) (by rw [hl]; rfl)⟩
  · rw [if_neg (by omega), if_neg (by omega), if_neg (by omega)]
    have ho0 : st.addr.toNat % 8 = 0 := by omega
    refine ⟨_, if_pos hl, rfl, rfl, fun k hk => ?_, fun k _ _ => ?_⟩
    · have hmask : ∀ k < 8, (0xff : BitVec 8).getLsbD k = true := by decide
      rw [hmask k hk, ho0, hl]
      simp [hk]
    · rw [ho0]
      rfl

theorem Lane.writes (h : Lane c st) (hst : st.Aligned) : c.Writes st := by
  intro m
  funext x
  have hfit := hst.fits
  unfold StoreCommit.apply
  rw [Bytes.writeMask_apply _ _ _ _ _ _ (by decide)]
  unfold Bytes.writeLE
  have ho : (st.addr % 8).toNat = st.addr.toNat % 8 := BitVec.toNat_umod
  -- the place of `x` counted from the double word and from the store
  have hk : (x - c.addr).toNat = ((x - st.addr).toNat + st.addr.toNat % 8) % 2 ^ 64 := by
    have he : x - c.addr = (x - st.addr) + st.addr % 8 := by
      rw [h.addr]
      exact (sub_add x st.addr (st.addr % 8)).symm
    rw [he, BitVec.toNat_add, ho]
  have hlt := (x - st.addr).isLt
  by_cases hj : (x - st.addr).toNat < st.len
  · have hk' : (x - c.addr).toNat = (x - st.addr).toNat + st.addr.toNat % 8 := by
      rw [hk, Nat.mod_eq_of_lt (by omega)]
    have hk8 : (x - c.addr).toNat < 8 := by omega
    rw [if_pos hj, if_pos ⟨hk8, by rw [h.mask _ hk8]; exact decide_eq_true (by omega)⟩,
      h.data _ (by omega) (by omega), hk', Nat.add_sub_cancel]
  · rw [if_neg hj, if_neg]
    rintro ⟨hk8, hm⟩
    rw [h.mask _ hk8, decide_eq_true_eq] at hm
    omega

end Lane

section Simulation

variable {commitAmo : Bool} {st : Store} {l : List Store} {op : QueueOp} {ops : List QueueOp}
  {u : StoreUnit} {q : StoreCommitQueue}

/-- A queued entry of a store. -/
structure Carries (c : StoreCommit) (st : Store) : Prop where
  valid : c.valid = true
  writes : c.Writes st

def Free (c : StoreCommit) : Prop := c.valid = false

/-- The ring holds the entries of the stores `l`, in this order. -/
def Represents (q : StoreCommitQueue) (l : List Store) : Prop :=
  ∃ cs, q.Holds Free cs ∧ List.Forall₂ Carries cs l

theorem represents_init : Represents .init [] := by
  refine ⟨[], ⟨Nat.zero_le _, rfl, ?_, fun _ _ _ => rfl, ?_⟩, .nil⟩
  · intro i hi
    cases hi
  · intro c hc
    cases hc

theorem push_represents (h : Represents q l) (hst : st.Aligned) (hroom : l.length < 64) :
    ∃ c, storeCommit st.addr st.data st.len = some c ∧ Represents (q.put c) (l ++ [st]) := by
  obtain ⟨cs, hq, hcs⟩ := h
  obtain ⟨c, hc, hlane⟩ := storeCommit_lane hst
  have hfree : ¬ Free c := by
    unfold Free
    rw [hlane.valid]
    exact Bool.noConfusion
  rw [← hcs.length_eq] at hroom
  exact ⟨c, hc, cs ++ [c], hq.put hroom hfree,
    List.rel_append hcs (.cons ⟨hlane.valid, hlane.writes hst⟩ .nil)⟩

theorem pop_empty (h : Represents q []) : storeCommitQueuePop q = (none, q) := by
  obtain ⟨cs, hq, hcs⟩ := h
  cases hcs
  have hfree : Free (q.slot q.head) := hq.head_free.mpr rfl
  unfold storeCommitQueuePop
  dsimp only
  rw [show (q.slot q.head).valid = false from hfree]
  rfl

theorem pop_represents (h : Represents q (st :: l)) :
    ∃ c q', storeCommitQueuePop q = (some c, q') ∧ c.Writes st ∧ Represents q' l := by
  obtain ⟨cs, hq, hcs⟩ := h
  cases hcs with
  | @cons c _ cs _ hc hcs =>
    refine ⟨{ c with valid := false }, q.take { c with valid := false }, ?_, hc.writes, cs,
      hq.take (rfl : Free { c with valid := false }), hcs⟩
    unfold storeCommitQueuePop
    dsimp only
    rw [hq.head_cons, hc.valid]
    rfl

def QueueOp.Aligned : QueueOp → Prop
  | .store st => st.Aligned
  | _ => True

/-- The memory after an operation. -/
def QueueOp.memory (m : Word → BitVec 8) : QueueOp → Word → BitVec 8
  | .store st => Bytes.writeLE m st.addr st.len st.data
  | _ => m

/-- What one operation does when the ring holds `l`. -/
structure Serves (commitAmo : Bool) (l : List Store) (op : QueueOp) (u : StoreUnit) (r : QueueAnswer)
    (u' : StoreUnit) : Prop where
  run : op.run commitAmo u = some (r, u')
  queue : Represents u'.queue (op.fifo commitAmo l)
  memory : u'.pmem = op.memory u.pmem
  answered : Answered l op r
  order : ∃ taken, l ++ op.pushes commitAmo = taken ++ op.fifo commitAmo l ∧
    List.Forall₂ StoreCommit.Writes r.commit.toList taken

theorem store_serves (h : Represents u.queue l) (hst : st.Aligned)
    (hroom : ((QueueOp.store st).fifo commitAmo l).length ≤ 64) :
    ∃ r u', Serves commitAmo l (.store st) u r u' := by
  have hpmem : ∀ q', storeCommitQueuePush commitAmo st u.queue = some q' →
      (QueueOp.store st).run commitAmo u = some (.stored, ⟨Bytes.writeLE u.pmem st.addr st.len st.data, q'⟩) := by
    intro q' hq'
    unfold QueueOp.run pmemWriteCommit
    dsimp only
    rw [if_pos hst.len, hq']
    rfl
  unfold QueueOp.fifo at hroom
  dsimp only at hroom
  cases hc : st.queued commitAmo with
  | false =>
    refine ⟨_, _, hpmem u.queue ?_, ?_, rfl, .stored, [], ?_, .nil⟩
    · unfold storeCommitQueuePush
      rw [hc]
      rfl
    · simpa [QueueOp.fifo, hc] using h
    · simp [QueueOp.fifo, QueueOp.pushes, hc]
  | true =>
    rw [hc, if_pos rfl, List.length_append, List.length_singleton] at hroom
    obtain ⟨c, hcommit, hrep⟩ := push_represents h hst hroom
    refine ⟨_, _, hpmem (u.queue.put c) ?_, ?_, rfl, .stored, [], ?_, .nil⟩
    · unfold storeCommitQueuePush
      rw [hc, hcommit]
      rfl
    · simpa [QueueOp.fifo, hc] using hrep
    · simp [QueueOp.fifo, QueueOp.pushes, hc]

theorem pop_serves (h : Represents q l) :
    Represents (storeCommitQueuePop q).2 l.tail ∧ ((storeCommitQueuePop q).1 = none ↔ l = []) ∧
      ∃ taken, l = taken ++ l.tail ∧
        List.Forall₂ StoreCommit.Writes (storeCommitQueuePop q).1.toList taken := by
  cases l with
  | nil =>
    rw [pop_empty h]
    exact ⟨h, Iff.intro (fun _ => rfl) fun _ => rfl, [], rfl, .nil⟩
  | cons st l =>
    obtain ⟨c, q', hpop, hw, hrep⟩ := pop_represents h
    rw [hpop]
    refine ⟨hrep, ⟨fun hn => ?_, fun hn => ?_⟩, [st], rfl, .cons hw .nil⟩
    · cases hn
    · cases hn

theorem QueueOp.serves (h : Represents u.queue l) (hop : op.Aligned)
    (hroom : (op.fifo commitAmo l).length ≤ 64) : ∃ r u', Serves commitAmo l op u r u' := by
  cases op with
  | store st => exact store_serves h hop hroom
  | pop =>
    obtain ⟨hrep, hnone, taken, hl, hw⟩ := pop_serves h
    exact ⟨_, _, rfl, hrep, rfl, .popped hnone, taken, (List.append_nil l).trans hl, hw⟩
  | check addr data mask =>
    obtain ⟨hrep, hnone, taken, hl, hw⟩ := pop_serves h
    exact ⟨_, _, rfl, hrep, rfl, .checked hnone, taken, (List.append_nil l).trans hl, hw⟩

theorem runQueue_serves (h : Represents u.queue l) (hops : ∀ op ∈ ops, op.Aligned)
    (hroom : ∀ pre, pre <+: ops → (pre.foldl (QueueOp.fifo commitAmo) l).length ≤ 64) :
    ∃ rs u', runQueue commitAmo ops u = some (rs, u') ∧
      u'.pmem = ops.foldl QueueOp.memory u.pmem ∧ rs.length = ops.length ∧
      (∀ i op r, ops[i]? = some op → rs[i]? = some r →
        Answered ((ops.take i).foldl (QueueOp.fifo commitAmo) l) op r) ∧
      ∃ taken, l ++ ops.flatMap (QueueOp.pushes commitAmo) = taken ++ ops.foldl (QueueOp.fifo commitAmo) l ∧
        List.Forall₂ StoreCommit.Writes (rs.filterMap QueueAnswer.commit) taken := by
  induction ops generalizing u l with
  | nil =>
    refine ⟨[], u, rfl, rfl, rfl, ?_, [], ?_, .nil⟩
    · intro i op r hop
      simp at hop
    · simp
  | cons op ops ih =>
    obtain ⟨r, u₁, hs⟩ := op.serves h (hops op List.mem_cons_self)
      (hroom [op] (List.prefix_append [op] ops))
    obtain ⟨rs, u₂, hrun, hmem, hlen, hans, taken₂, horder, htaken₂⟩ := ih hs.queue
      (fun o ho => hops o (List.mem_cons_of_mem _ ho))
      (fun pre hpre => hroom (op :: pre) (List.cons_prefix_cons.mpr ⟨rfl, hpre⟩))
    obtain ⟨taken₁, horder₁, htaken₁⟩ := hs.order
    refine ⟨r :: rs, u₂, ?_, ?_, congrArg Nat.succ hlen, ?_, taken₁ ++ taken₂, ?_, ?_⟩
    · simp only [runQueue, hs.run, hrun, Option.bind_eq_bind, Option.bind_some, Option.pure_def]
    · rw [hmem, hs.memory]
      rfl
    · intro i op' r' hop hr
      cases i with
      | zero =>
        cases hop
        cases hr
        exact hs.answered
      | succ i => exact hans i op' r' hop hr
    · rw [List.flatMap_cons, ← List.append_assoc, horder₁, List.append_assoc, horder, List.append_assoc]
      rfl
    · have hcons : (r :: rs).filterMap QueueAnswer.commit =
          r.commit.toList ++ rs.filterMap QueueAnswer.commit := by
        rw [List.filterMap_cons]
        cases r.commit <;> rfl
      rw [hcons]
      exact List.rel_append htaken₁ htaken₂

/-- Stores and pops in any order, with room for the outstanding entries: nothing fails, a pop finds an
entry exactly when a store is outstanding, the entries popped are those of the stores queued first, in
their order, and each writes what its store wrote. -/
theorem store_queue_fifo (commitAmo : Bool) (ops : List QueueOp) (pmem : Word → BitVec 8)
    (hops : ∀ op ∈ ops, op.Aligned) (hroom : ∀ pre, pre <+: ops → (outstanding commitAmo pre).length ≤ 64) :
    ∃ rs u, runQueue commitAmo ops ⟨pmem, .init⟩ = some (rs, u) ∧
      u.pmem = ops.foldl QueueOp.memory pmem ∧ rs.length = ops.length ∧
      (∀ i op r, ops[i]? = some op → rs[i]? = some r →
        Answered (outstanding commitAmo (ops.take i)) op r) ∧
      ∃ taken, ops.flatMap (QueueOp.pushes commitAmo) = taken ++ outstanding commitAmo ops ∧
        List.Forall₂ StoreCommit.Writes (rs.filterMap QueueAnswer.commit) taken :=
  runQueue_serves (u := ⟨pmem, .init⟩) represents_init hops hroom

/-- A half word in the last lane of its double word, popped once. -/
theorem store_queue_fifo_half :
    ∃ rs u, runQueue false [.store ⟨false, 0x80000006, 2, 0x1234⟩, .pop, .pop]
        ⟨fun _ => 0, .init⟩ = some (rs, u) ∧
      rs[1]? = some (.popped (some ⟨0x80000000, 0x1234000000000000, 0xc0, false⟩)) ∧
      ∃ taken, [⟨false, 0x80000006, 2, 0x1234⟩] = taken ++ outstanding false
          [.store ⟨false, 0x80000006, 2, 0x1234⟩, .pop, .pop] ∧
        List.Forall₂ StoreCommit.Writes (rs.filterMap QueueAnswer.commit) taken := by
  have hroom : ∀ pre ∈ List.inits [QueueOp.store ⟨false, 0x80000006, 2, 0x1234⟩, .pop, .pop],
      (outstanding false pre).length ≤ 64 := by decide
  have hops : ∀ op ∈ [QueueOp.store ⟨false, 0x80000006, 2, 0x1234⟩, .pop, .pop], op.Aligned := by
    intro op hop
    simp only [List.mem_cons, List.not_mem_nil, or_false] at hop
    obtain rfl | rfl | rfl := hop
    · exact ⟨by decide, by decide⟩
    · trivial
    · trivial
  obtain ⟨rs, u, hrun, -, -, -, htaken⟩ := store_queue_fifo false _ (fun _ => 0) hops
    fun pre hpre => hroom pre ((List.mem_inits _ _).mpr hpre)
  refine ⟨rs, u, hrun, ?_, htaken⟩
  cases hrun
  decide

end Simulation

end Nemu
