import Nemu.VectorElement

namespace Nemu

open Effect

set_option autoImplicit true

/-- The instructions that scan a mask. -/
inductive ScanOp where
  | vcpop | vfirst | vmsbf | vmsof | vmsif | viota
  deriving DecidableEq

section Code

def vcpopRound (d : VDecode) (idx : Nat) (s1 : Word) : VExec Word := do
  let mask ← getMask 0 idx
  if d.vm = false ∧ mask = 0 then pure s1
  else do
    let s0 ← getMask d.src2 idx
    pure (if s0 &&& 1 = 1 then s1 + 1 else s1)

/-- The loop of `vfirst`, which does not read the mask. -/
def vfirstLoop (d : VDecode) : Nat → Nat → VExec Int
  | _, 0 => pure (-1)
  | idx, k + 1 => do
    let s0 ← getMask d.src2 idx
    if s0 &&& 1 = 1 then pure idx else vfirstLoop d (idx + 1) k

/-- The round of `vmsbf`, `vmsof` and `vmsif`, which differ in how they treat `first_one`: `set` gives
the new value and the bit that is written. -/
def maskScanRound (set : Bool → Bool → Bool × Word) (d : VDecode) (idx : Nat) (firstOne : Bool) :
    VExec Bool := do
  let mask ← getMask 0 idx
  if d.vm = false ∧ mask = 0 then pure firstOne
  else do
    let s0 ← getMask d.src2 idx
    let (firstOne, bit) := set firstOne (s0 &&& 1 = 1)
    setMask d.dest idx bit
    pure firstOne

def vmsbfSet (firstOne s0 : Bool) : Bool × Word :=
  let firstOne := if !firstOne && s0 then true else firstOne
  (firstOne, if firstOne then 0 else 1)

def vmsofSet (firstOne s0 : Bool) : Bool × Word :=
  if !firstOne && s0 then (true, 1) else (firstOne, 0)

def vmsifSet (firstOne s0 : Bool) : Bool × Word :=
  let bit : Word := if firstOne then 0 else 1
  (if !firstOne && s0 then true else firstOne, bit)

def viotaRound (d : VDecode) (idx : Nat) (s1 : Word) : VExec Word := do
  let s ← get
  let mask ← getMask 0 idx
  if d.vm = false ∧ mask = 0 then pure s1
  else do
    let s0 ← getMask d.src2 idx
    setVreg d.dest idx s1 s.cpu.vsew s.cpu.vlmul true
    pure (if s0 &&& 1 = 1 then s1 + 1 else s1)

def rtlSr (rd : BitVec 5) (x : Word) : VExec Unit :=
  modify fun s => { s with cpu := { s.cpu with gpr := Regs.set s.cpu.gpr rd x } }

/-- The loops of the executors, for `vl` elements. -/
def ScanOp.loop (o : ScanOp) (d : VDecode) (vl : Nat) : VExec Unit :=
  match o with
  | vcpop => do
    let s1 ← folded (vcpopRound d) 0 vl 0
    rtlSr d.dest s1
  | vfirst => do
    let pos ← vfirstLoop d 0 vl
    rtlSr d.dest (BitVec.ofInt 64 pos)
  | vmsbf => do
    let _ ← folded (maskScanRound vmsbfSet d) 0 vl false
  | vmsof => do
    let _ ← folded (maskScanRound vmsofSet d) 0 vl false
  | vmsif => do
    let _ ← folded (maskScanRound vmsifSet d) 0 vl false
  | viota => do
    let _ ← folded (viotaRound d) 0 vl 0

/-- `longjmp_raise_intr` is an assertion that fails. -/
def ScanOp.exec (o : ScanOp) (d : VDecode) : VExec Unit := do
  let s ← get
  if s.cpu.csr .vstart ≠ 0 then throw .assertion
  else o.loop d (s.cpu.csr .vl).toNat

/-- `vrwxunary0_dispatch`: a register field of zero is taken for `vmvsx` first. -/
def vrwxunary0Dispatch (instr : BitVec 32) : Option ScanOp :=
  if instr.extractLsb' 20 5 = 0 then none
  else [(0b10000, ScanOp.vcpop), (0b10001, .vfirst)].lookup (instr.extractLsb' 15 5)

def vmunary0Dispatch (instr : BitVec 32) : Option ScanOp :=
  [(0b00001, ScanOp.vmsbf), (0b00010, .vmsof), (0b00011, .vmsif), (0b10000, .viota)].lookup
    (instr.extractLsb' 15 5)

/-- The scan that an instruction selects. `none` where there is none. -/
def scanDispatch (instr : BitVec 32) : Option ScanOp :=
  if vFunct3 instr = 2 ∨ vFunct3 instr = 6 then
    if vFunct6 instr = 0b010000 then vrwxunary0Dispatch instr
    else if vFunct6 instr = 0b010100 then vmunary0Dispatch instr
    else none
  else none

/-- An instruction that is a scan and ends. -/
def Scans (instr : BitVec 32) (s t : VState) : Prop :=
  ∃ o, scanDispatch instr = some o ∧ o.exec (decodeOpV s.cpu instr) s = .ok () t

end Code

section Spec

variable (m : Machine) (d : VDecode)

def Machine.scanned (i : Nat) : Bool := d.vm || m.maskBit 0 i

/-- An active index with a bit in `vs2`. -/
def Machine.hit (i : Nat) : Bool := m.scanned d i && m.maskBit d.src2 i

def Machine.firstHit : Option Nat := (List.range (m.csr .vl).toNat).find? (m.hit d)

/-- The number of those below `n`. -/
def Machine.hits (n : Nat) : Nat := ((List.range n).filter (m.hit d)).length

/-- The encoding of the V extension. -/
structure ScanOp.Encodes (o : ScanOp) (instr : BitVec 32) : Prop where
  funct3 : vFunct3 instr = 2
  funct6 : vFunct6 instr = if o = .vcpop ∨ o = .vfirst then 0b010000 else 0b010100
  vs1 : instr.extractLsb' 15 5 =
    if o = .vcpop ∨ o = .viota then 0b10000 else if o = .vfirst then 0b10001
    else if o = .vmsbf then 0b00001 else if o = .vmsof then 0b00010 else 0b00011

/-- The bit that is written for the index `i`. -/
def ScanOp.bit (o : ScanOp) (i : Nat) : Bool :=
  match o with
  | vmsbf => (m.firstHit d).all fun f => decide (i < f)
  | vmsif => (m.firstHit d).all fun f => decide (i ≤ f)
  | _ => (m.firstHit d).any fun f => decide (i = f)

/-- What the V extension says that a scan does. -/
def ScanOp.Result (o : ScanOp) (t : Machine) : Prop :=
  match o with
  | vcpop => t = { m with gpr := Regs.set m.gpr d.dest (BitVec.ofNat 64 (m.hits d (m.csr .vl).toNat)) }
  | vfirst => t = { m with gpr := Regs.set m.gpr d.dest ((m.firstHit d).elim (-1) (BitVec.ofNat 64)) }
  | viota => Writes m t (slot m.vsew d.dest) (fun i => m.scanned d i = true) fun i =>
    BitVec.ofNat (sew m.vsew) (m.hits d i)
  | o => Writes m t (fun i => (d.dest, i)) (fun i => m.scanned d i = true) fun i =>
    BitVec.ofBool (o.bit m d i)

/-- What the V extension asks of a scan. -/
structure ScanLegal (o : ScanOp) : Prop where
  configured : Configured m
  vstart : m.csr .vstart = 0
  dest : o = .viota → m.vlmul ≤ 3 → Aligned m.vlmul d.dest
  apart : o = .viota → m.vlmul ≤ 3 →
    d.src2.toNat < d.dest.toNat ∨ d.dest.toNat + 2 ^ m.vlmul ≤ d.src2.toNat
  mask : o = .viota → d.vm = false → d.dest ≠ 0

/-- The condition: a scan of `v0` that returns a number is none to the decoder, `vfirst` does not look
whether the first bit is active, and `viota` has no group that is part of a register. -/
def ScanOp.Exact (o : ScanOp) : Prop :=
  match o with
  | vcpop => d.src2 ≠ 0
  | vfirst => d.src2 ≠ 0 ∧ (d.dest = 0 ∨
    ∀ i < (m.csr .vl).toNat, m.maskBit d.src2 i = true → (∀ j < i, m.maskBit d.src2 j = false) →
      m.scanned d i = true)
  | viota => m.vlmul ≤ 3 ∨ ∀ i < (m.csr .vl).toNat, m.scanned d i = false
  | _ => True

end Spec

section Spec

variable {m : Machine} {d : VDecode} {i n : Nat}

/-- Whether there is such an index below `i`. -/
def Machine.seen (m : Machine) (d : VDecode) (i : Nat) : Bool := (List.range i).any (m.hit d)

theorem seen_succ : m.seen d (i + 1) = (m.seen d i || m.hit d i) := by
  unfold Machine.seen
  rw [List.range_succ, List.any_append, List.any_cons, List.any_nil, Bool.or_false]

theorem seen_iff : m.seen d i = true ↔ ∃ j < i, m.hit d j = true := by
  unfold Machine.seen
  rw [List.any_eq_true]
  constructor
  · rintro ⟨j, hj, hhit⟩
    exact ⟨j, List.mem_range.mp hj, hhit⟩
  · rintro ⟨j, hj, hhit⟩
    exact ⟨j, List.mem_range.mpr hj, hhit⟩

theorem hits_succ : m.hits d (i + 1) = m.hits d i + (m.hit d i).toNat := by
  unfold Machine.hits
  rw [List.range_succ, List.filter_append, List.length_append]
  cases h : m.hit d i with
  | true => rw [List.filter_cons_of_pos h]; rfl
  | false => rw [List.filter_cons_of_neg (by rw [h]; exact Bool.false_ne_true)]; rfl

theorem hits_le : m.hits d i ≤ i :=
  (List.length_filter_le _ _).trans (Nat.le_of_eq List.length_range)

theorem firstHit_some {f : Nat} (h : m.firstHit d = some f) :
    f < (m.csr .vl).toNat ∧ m.hit d f = true ∧ ∀ j < f, m.hit d j = false := by
  obtain ⟨hhit, hmem, hbefore⟩ := List.find?_range_eq_some.mp h
  exact ⟨List.mem_range.mp hmem, hhit, fun j hj => by simpa using hbefore j hj⟩

theorem firstHit_none (h : m.firstHit d = none) : ∀ j < (m.csr .vl).toNat, m.hit d j = false :=
  fun j hj => by simpa using List.find?_range_eq_none.mp h j hj

/-- An index is above the first one when there is one below it. -/
theorem seen_of_some {f : Nat} (h : m.firstHit d = some f) : m.seen d i = true ↔ f < i := by
  obtain ⟨-, hhit, hbefore⟩ := firstHit_some h
  rw [seen_iff]
  constructor
  · rintro ⟨j, hj, hj'⟩
    by_contra hle
    rw [hbefore j (by omega)] at hj'
    cases hj'
  · exact fun hlt => ⟨f, hlt, hhit⟩

theorem seen_of_none (h : m.firstHit d = none) (hi : i ≤ (m.csr .vl).toNat) : m.seen d i = false := by
  by_contra hseen
  obtain ⟨j, hj, hhit⟩ := seen_iff.mp (Bool.not_eq_false _ ▸ hseen)
  rw [firstHit_none h j (by omega)] at hhit
  cases hhit

theorem bit_seen (hi : i < (m.csr .vl).toNat) :
    ScanOp.vmsbf.bit m d i = !m.seen d (i + 1) ∧ ScanOp.vmsif.bit m d i = !m.seen d i ∧
      ScanOp.vmsof.bit m d i = (!m.seen d i && m.hit d i) := by
  unfold ScanOp.bit
  cases h : m.firstHit d with
  | none =>
    have hhit := firstHit_none h i hi
    rw [seen_of_none h (Nat.le_of_lt hi), seen_of_none h (Nat.succ_le_of_lt hi), hhit]
    exact ⟨rfl, rfl, rfl⟩
  | some f =>
    obtain ⟨-, hhit, hbefore⟩ := firstHit_some h
    have h1 : m.seen d (i + 1) = decide (f < i + 1) :=
      Bool.eq_iff_iff.mpr ((seen_of_some h).trans decide_eq_true_iff.symm)
    have h2 : m.seen d i = decide (f < i) :=
      Bool.eq_iff_iff.mpr ((seen_of_some h).trans decide_eq_true_iff.symm)
    have h3 : f = i → m.hit d i = true := fun heq => heq ▸ hhit
    have h4 : i < f → m.hit d i = false := hbefore i
    rw [h1, h2]
    refine ⟨?_, ?_, ?_⟩
    · simp only [Option.all_some, ← decide_not, decide_eq_decide]
      omega
    · simp only [Option.all_some, ← decide_not, decide_eq_decide]
      omega
    · rcases Nat.lt_trichotomy i f with hlt | heq | hgt
      · rw [h4 hlt, Bool.and_false]
        simp [Nat.ne_of_lt hlt]
      · rw [h3 heq.symm, heq]
        simp
      · simp [hgt, Nat.ne_of_gt hgt]

theorem hits_eq_of_inactive {k : Nat} (h : ∀ j, i ≤ j → j < i + k → m.scanned d j = false) :
    m.hits d (i + k) = m.hits d i := by
  induction k with
  | zero => rfl
  | succ k ih =>
    have hlast : m.hit d (i + k) = false := by
      unfold Machine.hit
      rw [h (i + k) (Nat.le_add_right i k) (Nat.lt_succ_self _), Bool.false_and]
    rw [Nat.add_succ, hits_succ, hlast, ih fun j h1 h2 => h j h1 (Nat.lt_succ_of_lt h2)]
    rfl

end Spec

section Runs

variable {m : Machine} {d : VDecode} {s u : VState} {i n k : Nat}

/-- A bit as a word. -/
def ofBit (b : Bool) : Word := if b then 1 else 0

theorem ofBit_and (b : Bool) : ofBit b &&& 1 = 1 ↔ b = true := by
  cases b <;> decide

theorem ofBit_eq_zero (b : Bool) : ofBit b = 0 ↔ b = false := by
  cases b <;> decide

theorem getMask_bit {reg : BitVec 5} (hi : i < vlen) : getMask reg i u = .ok (ofBit (u.cpu.maskBit reg i)) u := by
  unfold getMask
  rw [get_bind, if_pos hi]
  rfl

theorem setMask_bit {reg : BitVec 5} (hi : i < vlen) (b : Bool) : setMask reg i (ofBit b) u =
    .ok () { u with cpu := { u.cpu with vr := Packed.set u.cpu.vr (reg, i) (BitVec.ofBool b) } } := by
  have hbit : decide (ofBit b ≠ 0) = b := by cases b <;> decide
  unfold setMask
  rw [if_pos hi, hbit]
  rfl

theorem inactive_iff : d.vm = false ∧ ofBit (m.maskBit 0 i) = 0 ↔ m.scanned d i = false := by
  unfold Machine.scanned
  rw [ofBit_eq_zero, Bool.or_eq_false_iff]

theorem hit_of_active (h : m.scanned d i = true) : m.hit d i = m.maskBit d.src2 i := by
  unfold Machine.hit
  rw [h, Bool.true_and]

theorem hit_of_inactive (h : m.scanned d i = false) : m.hit d i = false := by
  unfold Machine.hit
  rw [h, Bool.false_and]

section Counts

theorem vcpopRound_eq (hi : i < vlen) :
    vcpopRound d i (BitVec.ofNat 64 (m.hits d i)) ⟨m, []⟩ = .ok (BitVec.ofNat 64 (m.hits d (i + 1))) ⟨m, []⟩ := by
  unfold vcpopRound
  refine (bind_ok (getMask_bit hi)).trans ?_
  rw [hits_succ]
  cases hact : m.scanned d i with
  | false =>
    rw [if_pos (inactive_iff.mpr hact), hit_of_inactive hact]
    rfl
  | true =>
    rw [if_neg fun h => by rw [inactive_iff.mp h] at hact; cases hact]
    refine (bind_ok (getMask_bit hi)).trans ?_
    rw [hit_of_active hact]
    cases hbit : m.maskBit d.src2 i with
    | false =>
      rw [if_neg fun h => by cases (ofBit_and false).mp h]
      rfl
    | true =>
      rw [if_pos ((ofBit_and true).mpr rfl), Bool.toNat_true, BitVec.ofNat_add]
      rfl

theorem vcpop_loop (hn : n ≤ vlen) :
    ∃ y t, folded (vcpopRound d) 0 n 0 ⟨m, []⟩ = .ok y t ∧ y = BitVec.ofNat 64 (m.hits d n) ∧ t = ⟨m, []⟩ := by
  have hround : ∀ i x u, 0 ≤ i → i < 0 + n → x = BitVec.ofNat 64 (m.hits d i) ∧ u = ⟨m, []⟩ →
      ∃ y u', vcpopRound d i x u = .ok y u' ∧ y = BitVec.ofNat 64 (m.hits d (i + 1)) ∧ u' = ⟨m, []⟩ := by
    rintro i x u - hi ⟨rfl, rfl⟩
    exact ⟨_, _, vcpopRound_eq (by omega), rfl, rfl⟩
  have hrun := folded_runs
    (I := fun i x (u : VState) => x = BitVec.ofNat 64 (m.hits d i) ∧ u = ⟨m, []⟩) ⟨rfl, rfl⟩ hround
  rwa [Nat.zero_add] at hrun

/-- The first bit of `vs2`, active or not. -/
theorem vfirst_loop (hn : i + k ≤ vlen) : vfirstLoop d i k ⟨m, []⟩ =
    .ok (((List.range' i k).find? (m.maskBit d.src2)).elim (-1) Nat.cast) ⟨m, []⟩ := by
  induction k generalizing i with
  | zero => rfl
  | succ k ih =>
    rw [List.range'_succ, vfirstLoop]
    refine (bind_ok (getMask_bit (show i < vlen by omega))).trans ?_
    cases hbit : m.maskBit d.src2 i with
    | true =>
      rw [List.find?_cons_of_pos hbit, if_pos ((ofBit_and true).mpr rfl)]
      rfl
    | false =>
      rw [List.find?_cons_of_neg (by rw [hbit]; exact Bool.false_ne_true),
        if_neg fun h => by cases (ofBit_and false).mp h]
      exact ih (by omega)

end Counts

section Masks

variable {w : Nat} {place : Nat → BitVec 5 × Nat} {spec : Nat → BitVec w} {set : Bool → Bool → Bool × Word}
  {bit : Nat → Bool}

theorem writes_of_before (h0 : m.csr .vstart = 0) (hfit : ∀ i, m.Body i → (place i).2 * w + w ≤ 128)
    (hinj : ∀ i j, m.Body i → m.Body j → place i = place j → i = j)
    (hu : Before 0 ⟨m, []⟩ place (fun i => m.scanned d i = true) (fun i => some (spec i)) (m.csr .vl).toNat u) :
    Writes m u.cpu place (fun i => m.scanned d i = true) spec := by
  have hrounds : (m.csr .vstart).toNat + m.rounds = (m.csr .vl).toNat := by
    unfold Machine.rounds
    rw [h0]
    exact Nat.zero_add _
  have hvr : u.cpu.vr = m.vrBefore place (fun i => m.scanned d i = true) (fun i => some (spec i))
      ((m.csr .vstart).toNat + m.rounds) := by
    rw [hrounds]
    exact congrArg Machine.vr hu.1
  obtain ⟨hvalue, hothers⟩ := vrBefore_end hvr hfit hinj
  constructor
  · exact fun i hi hact => hvalue i _ hi hact rfl
  · exact hothers
  · have hsame : ({ m with vr := u.cpu.vr } : Machine).setCsr .vstart 0 = { m with vr := u.cpu.vr } := by
      rw [← h0]
      exact Machine.setCsr_self { m with vr := u.cpu.vr } .vstart
    rw [hsame, hu.1]

theorem before_zero (h0 : m.csr .vstart = 0) {active : Nat → Prop} [DecidablePred active]
    {out : Nat → Option (BitVec w)} : Before 0 ⟨m, []⟩ place active out 0 ⟨m, []⟩ := by
  have hstart : Before 0 ⟨m, []⟩ place active out (m.csr .vstart).toNat ⟨m, []⟩ := before_start 0
  rw [h0] at hstart
  exact hstart

theorem maskScanRound_eq (h0 : m.csr .vstart = 0) (hi : i < vlen)
    (hset : m.scanned d i = true → set (m.seen d i) (m.maskBit d.src2 i) = (m.seen d (i + 1), ofBit (bit i)))
    (hu : Before 0 ⟨m, []⟩ (fun i => (d.dest, i)) (fun i => m.scanned d i = true)
      (fun i => some (BitVec.ofBool (bit i))) i u) :
    ∃ u', maskScanRound set d i (m.seen d i) u = .ok (m.seen d (i + 1)) u' ∧
      Before 0 ⟨m, []⟩ (fun i => (d.dest, i)) (fun i => m.scanned d i = true)
        (fun i => some (BitVec.ofBool (bit i))) (i + 1) u' := by
  have hstart : (m.csr .vstart).toNat ≤ i := by
    rw [h0]
    exact Nat.zero_le i
  have hbits : ∀ reg, u.cpu.maskBit reg i = m.maskBit reg i := fun reg =>
    maskBit_before hu fun k _ hk _ => Packed.apart_of_ne fun h => Nat.ne_of_gt hk (congrArg Prod.snd h)
  have hmask : getMask 0 i u = .ok (ofBit (m.maskBit 0 i)) u := by
    rw [← hbits]
    exact getMask_bit hi
  have hsrc : getMask d.src2 i u = .ok (ofBit (m.maskBit d.src2 i)) u := by
    rw [← hbits]
    exact getMask_bit hi
  unfold maskScanRound
  cases hact : m.scanned d i with
  | false =>
    refine ⟨u, ?_, ?_, hu.2⟩
    · refine (bind_ok hmask).trans ?_
      rw [if_pos (inactive_iff.mpr hact), seen_succ, hit_of_inactive hact, Bool.or_false]
      rfl
    · rw [vrBefore_step_skip hstart (by rw [hact]; exact Bool.false_ne_true)]
      exact hu.1
  | true =>
    have hone : decide (ofBit (m.maskBit d.src2 i) &&& 1 = 1) = m.maskBit d.src2 i := by
      cases m.maskBit d.src2 i <;> decide
    refine ⟨{ u with cpu := { u.cpu with vr := Packed.set u.cpu.vr (d.dest, i) (BitVec.ofBool (bit i)) } },
      ?_, ?_, hu.2⟩
    · refine (bind_ok hmask).trans ?_
      rw [if_neg fun h => by rw [inactive_iff.mp h] at hact; cases hact]
      refine (bind_ok hsrc).trans ?_
      rw [hone, hset hact]
      exact bind_ok (setMask_bit hi (bit i))
    · rw [vrBefore_step_write hstart hact rfl, hu.1]

theorem maskScan_loop (hc : Configured m) (h0 : m.csr .vstart = 0)
    (hset : ∀ i < (m.csr .vl).toNat, m.scanned d i = true →
      set (m.seen d i) (m.maskBit d.src2 i) = (m.seen d (i + 1), ofBit (bit i))) :
    ∃ y t, folded (maskScanRound set d) 0 (m.csr .vl).toNat false ⟨m, []⟩ = .ok y t ∧
      Writes m t.cpu (fun i => (d.dest, i)) (fun i => m.scanned d i = true) fun i => BitVec.ofBool (bit i) := by
  have hvl := hc.vl_le
  have hround : ∀ i x u, 0 ≤ i → i < 0 + (m.csr .vl).toNat → x = m.seen d i ∧ Before 0 ⟨m, []⟩
        (fun i => (d.dest, i)) (fun i => m.scanned d i = true) (fun i => some (BitVec.ofBool (bit i))) i u →
      ∃ y u', maskScanRound set d i x u = .ok y u' ∧ y = m.seen d (i + 1) ∧ Before 0 ⟨m, []⟩
        (fun i => (d.dest, i)) (fun i => m.scanned d i = true) (fun i => some (BitVec.ofBool (bit i))) (i + 1) u' := by
    rintro i x u - hi ⟨rfl, hu⟩
    rw [Nat.zero_add] at hi
    obtain ⟨u', hrun, hu'⟩ := maskScanRound_eq h0 (by omega) (hset i hi) hu
    exact ⟨_, u', hrun, rfl, hu'⟩
  obtain ⟨y, t, hrun, -, ht⟩ := folded_runs
    (I := fun i x u => x = m.seen d i ∧ Before 0 ⟨m, []⟩ (fun i => (d.dest, i))
      (fun i => m.scanned d i = true) (fun i => some (BitVec.ofBool (bit i))) i u) ⟨rfl, before_zero h0⟩ hround
  rw [Nat.zero_add] at ht
  refine ⟨y, t, hrun, writes_of_before h0 ?_ ?_ ht⟩
  · intro i hi
    have hlt := hi.2
    change i * 1 + 1 ≤ 128
    change _ ≤ 128 at hvl
    omega
  · exact fun _ _ _ _ h => congrArg Prod.snd h

theorem vmsbf_set (hi : i < (m.csr .vl).toNat) (hact : m.scanned d i = true) :
    vmsbfSet (m.seen d i) (m.maskBit d.src2 i) = (m.seen d (i + 1), ofBit (ScanOp.vmsbf.bit m d i)) := by
  rw [(bit_seen hi).1, seen_succ, hit_of_active hact]
  cases m.seen d i <;> cases m.maskBit d.src2 i <;> rfl

theorem vmsif_set (hi : i < (m.csr .vl).toNat) (hact : m.scanned d i = true) :
    vmsifSet (m.seen d i) (m.maskBit d.src2 i) = (m.seen d (i + 1), ofBit (ScanOp.vmsif.bit m d i)) := by
  rw [(bit_seen hi).2.1, seen_succ, hit_of_active hact]
  cases m.seen d i <;> cases m.maskBit d.src2 i <;> rfl

theorem vmsof_set (hi : i < (m.csr .vl).toNat) (hact : m.scanned d i = true) :
    vmsofSet (m.seen d i) (m.maskBit d.src2 i) = (m.seen d (i + 1), ofBit (ScanOp.vmsof.bit m d i)) := by
  rw [(bit_seen hi).2.2, seen_succ, hit_of_active hact]
  cases m.seen d i <;> cases m.maskBit d.src2 i <;> rfl

end Masks

section Iota

theorem slot_ne_mask {vsew vlmul : Nat} {reg dest : BitVec 5} (hsew : vsew ≤ 3) (hmul : vlmul ≤ 3)
    (hd : Aligned vlmul dest) (hk : k < vlmaxOf vsew vlmul)
    (hne : reg.toNat < dest.toNat ∨ dest.toNat + 2 ^ vlmul ≤ reg.toNat) : reg ≠ (slot vsew dest k).1 := by
  rw [vlmaxOf_eq hsew hmul] at hk
  intro h
  have hplace := slot_group hsew hmul hd hk
  have hin := group_index hsew hk
  rw [← h] at hplace
  generalize k / elemNum vsew = q at hplace hin
  omega

theorem hits_cut {w : Nat} (hle : i ≤ vlen) :
    (BitVec.ofNat 64 (m.hits d i)).setWidth w = BitVec.ofNat w (m.hits d i) := by
  apply BitVec.eq_of_toNat_eq
  have hh : m.hits d i < 2 ^ 64 := Nat.lt_of_le_of_lt (hits_le.trans hle) (by decide)
  rw [BitVec.toNat_setWidth, BitVec.toNat_ofNat, BitVec.toNat_ofNat, Nat.mod_eq_of_lt hh]

theorem viotaRound_eq (hl : ScanLegal m d .viota) (hmul : m.vlmul ≤ 3) (hi : m.Body i)
    (hu : Before 0 ⟨m, []⟩ (slot m.vsew d.dest) (fun i => m.scanned d i = true)
      (fun i => some (BitVec.ofNat (sew m.vsew) (m.hits d i))) i u) :
    ∃ u', viotaRound d i (BitVec.ofNat 64 (m.hits d i)) u = .ok (BitVec.ofNat 64 (m.hits d (i + 1))) u' ∧
      Before 0 ⟨m, []⟩ (slot m.vsew d.dest) (fun i => m.scanned d i = true)
        (fun i => some (BitVec.ofNat (sew m.vsew) (m.hits d i))) (i + 1) u' := by
  have hsew := hl.configured.sew
  have hlt := hi.lt_vlmax hl.configured
  have hlen : i < vlen := Nat.lt_of_lt_of_le hi.2 hl.configured.vl_le
  have hgroup : i < 2 ^ m.vlmul * elemNum m.vsew := by
    rw [← vlmaxOf_eq hsew hmul]
    exact hlt
  have hvsew : u.cpu.vsew = m.vsew := by
    rw [hu.1]
    rfl
  have hvlmul : u.cpu.vlmul = m.vlmul := by
    rw [hu.1]
    rfl
  have hbits : ∀ reg : BitVec 5, (∀ k < i, reg ≠ (slot m.vsew d.dest k).1) →
      u.cpu.maskBit reg i = m.maskBit reg i :=
    fun reg hne => maskBit_before hu fun k _ hk _ heq => absurd heq (hne k hk)
  have hskip : d.vm = false ∧ ofBit (u.cpu.maskBit 0 i) = 0 ↔ m.scanned d i = false := by
    rw [← inactive_iff]
    apply and_congr_right
    intro hvm
    rw [hbits 0 fun k hk h => slot_ne_zero hsew hmul (hl.dest rfl hmul) (hk.trans hlt) (hl.mask rfl hvm) h.symm]
  have hsrc : getMask d.src2 i u = .ok (ofBit (m.maskBit d.src2 i)) u := by
    rw [← hbits d.src2 fun k hk => slot_ne_mask hsew hmul (hl.dest rfl hmul) (hk.trans hlt) (hl.apart rfl hmul)]
    exact getMask_bit hlen
  unfold viotaRound
  rw [get_bind, hits_succ]
  cases hact : m.scanned d i with
  | false =>
    refine ⟨u, ?_, ?_, hu.2⟩
    · refine (bind_ok (getMask_bit hlen)).trans ?_
      rw [if_pos (hskip.mpr hact), hit_of_inactive hact]
      rfl
    · rw [vrBefore_step_skip hi.1 (by rw [hact]; exact Bool.false_ne_true)]
      exact hu.1
  | true =>
    have hset := setVreg_eq (s := u) (x := BitVec.ofNat 64 (m.hits d i))
      (show vregPlace d.dest i m.vsew m.vlmul true = _ from vregPlace_group hsew hmul (hl.dest rfl hmul) hgroup)
    rw [hits_cut (Nat.le_of_lt hlen)] at hset
    have hvr : m.vrBefore (slot m.vsew d.dest) (fun i => m.scanned d i = true)
        (fun i => some (BitVec.ofNat (sew m.vsew) (m.hits d i))) (i + 1) = _ :=
      vrBefore_step_write hi.1 hact rfl
    obtain ⟨x, hx⟩ : ∃ x : BitVec (sew m.vsew), x = BitVec.ofNat (sew m.vsew) (m.hits d i) := ⟨_, rfl⟩
    rw [← hx] at hset hvr
    refine ⟨{ u with cpu := { u.cpu with vr := Packed.set u.cpu.vr (slot m.vsew d.dest i) x } }, ?_, ?_, hu.2⟩
    · refine (bind_ok (getMask_bit hlen)).trans ?_
      rw [if_neg fun h => by rw [hskip.mp h] at hact; cases hact]
      refine (bind_ok hsrc).trans ?_
      rw [hvsew, hvlmul]
      refine (bind_ok hset).trans ?_
      rw [hit_of_active hact]
      cases hbit : m.maskBit d.src2 i with
      | false =>
        rw [if_neg fun h => by cases (ofBit_and false).mp h]
        rfl
      | true =>
        rw [if_pos ((ofBit_and true).mpr rfl), Bool.toNat_true, BitVec.ofNat_add]
        rfl
    · rw [hvr, hu.1]

theorem viota_loop (hl : ScanLegal m d .viota) (hmul : m.vlmul ≤ 3) :
    ∃ y t, folded (viotaRound d) 0 (m.csr .vl).toNat 0 ⟨m, []⟩ = .ok y t ∧
      Writes m t.cpu (slot m.vsew d.dest) (fun i => m.scanned d i = true) fun i =>
        BitVec.ofNat (sew m.vsew) (m.hits d i) := by
  have hsew := hl.configured.sew
  have hround : ∀ i x u, 0 ≤ i → i < 0 + (m.csr .vl).toNat → x = BitVec.ofNat 64 (m.hits d i) ∧
        Before 0 ⟨m, []⟩ (slot m.vsew d.dest) (fun i => m.scanned d i = true)
          (fun i => some (BitVec.ofNat (sew m.vsew) (m.hits d i))) i u →
      ∃ y u', viotaRound d i x u = .ok y u' ∧ y = BitVec.ofNat 64 (m.hits d (i + 1)) ∧
        Before 0 ⟨m, []⟩ (slot m.vsew d.dest) (fun i => m.scanned d i = true)
          (fun i => some (BitVec.ofNat (sew m.vsew) (m.hits d i))) (i + 1) u' := by
    rintro i x u h1 h2 ⟨rfl, hu⟩
    have hi : m.Body i := by
      constructor
      · rw [hl.vstart]
        exact h1
      · omega
    obtain ⟨u', hrun, hu'⟩ := viotaRound_eq hl hmul hi hu
    exact ⟨_, u', hrun, rfl, hu'⟩
  obtain ⟨y, t, hrun, -, ht⟩ := folded_runs
    (I := fun i x u => x = BitVec.ofNat 64 (m.hits d i) ∧ Before 0 ⟨m, []⟩ (slot m.vsew d.dest)
      (fun i => m.scanned d i = true) (fun i => some (BitVec.ofNat (sew m.vsew) (m.hits d i))) i u)
    ⟨rfl, before_zero hl.vstart⟩ hround
  rw [Nat.zero_add] at ht
  refine ⟨y, t, hrun, writes_of_before hl.vstart (fun i _ => slot_fits hsew d.dest i) ?_ ht⟩
  intro i j hi hj heq
  have h1 := hi.lt_vlmax hl.configured
  have h2 := hj.lt_vlmax hl.configured
  rw [vlmaxOf_eq hsew hmul] at h1 h2
  exact slot_inj hsew hmul (hl.dest rfl hmul) h1 h2 heq

/-- A group that is part of a register. -/
theorem viotaRound_fraction {x y : Word} {t : VState} (hmul : ¬ m.vlmul ≤ 3) (hi : i < vlen)
    (hrun : viotaRound d i x ⟨m, []⟩ = .ok y t) : m.scanned d i = false ∧ y = x ∧ t = ⟨m, []⟩ := by
  unfold viotaRound at hrun
  rw [get_bind] at hrun
  obtain ⟨mask, u, hmask, hrest⟩ := ok_of_bind hrun
  cases (getMask_bit hi).symm.trans hmask
  by_cases hact : m.scanned d i = false
  · rw [if_pos (inactive_iff.mpr hact)] at hrest
    cases hrest
    exact ⟨hact, rfl, rfl⟩
  · rw [if_neg fun h => hact (inactive_iff.mp h)] at hrest
    obtain ⟨s0, u, hs0, hrest⟩ := ok_of_bind hrest
    cases (getMask_bit hi).symm.trans hs0
    obtain ⟨_, v, hset, _⟩ := ok_of_bind hrest
    have hplace : vregPlace d.dest i m.vsew m.vlmul true = none := if_neg fun hall => hmul hall.1
    unfold setVreg at hset
    rw [hplace] at hset
    cases hset

theorem viota_skips (hc : Configured m) (h : ∀ i < (m.csr .vl).toNat, m.scanned d i = false) :
    folded (viotaRound d) 0 (m.csr .vl).toNat 0 ⟨m, []⟩ = .ok 0 ⟨m, []⟩ := by
  have hvl := hc.vl_le
  have hround : ∀ i (x : Word) (u : VState), 0 ≤ i → i < 0 + (m.csr .vl).toNat → x = 0 ∧ u = ⟨m, []⟩ →
      ∃ y u', viotaRound d i x u = .ok y u' ∧ y = 0 ∧ u' = ⟨m, []⟩ := by
    rintro i x u - hi ⟨rfl, rfl⟩
    rw [Nat.zero_add] at hi
    refine ⟨0, ⟨m, []⟩, ?_, rfl, rfl⟩
    unfold viotaRound
    rw [get_bind]
    refine (bind_ok (getMask_bit (show i < vlen by omega))).trans ?_
    rw [if_pos (inactive_iff.mpr (h i hi))]
    rfl
  obtain ⟨y, t, hrun, rfl, rfl⟩ := folded_runs
    (I := fun _ (x : Word) (u : VState) => x = 0 ∧ u = ⟨m, []⟩) ⟨rfl, rfl⟩ hround
  exact hrun

end Iota

end Runs

section Claim

variable {m : Machine} {d : VDecode} {o : ScanOp} {instr : BitVec 32} {i : Nat}

theorem scanDispatch_eq (henc : o.Encodes instr) : scanDispatch instr =
    if (o = .vcpop ∨ o = .vfirst) ∧ instr.extractLsb' 20 5 = 0 then none else some o := by
  have h6 := henc.funct6
  have h1 := henc.vs1
  unfold scanDispatch vrwxunary0Dispatch vmunary0Dispatch
  rw [if_pos (.inl henc.funct3), h6, h1]
  have hplain : ∀ p : Prop, [Decidable p] → ¬ p → some o = if p then none else some o :=
    fun p _ h => (if_neg h).symm
  have hscalar : ∀ f : BitVec 5, (o = .vcpop ∨ o = .vfirst) →
      (if f = 0 then none else some o) = if (o = .vcpop ∨ o = .vfirst) ∧ f = 0 then none else some o := by
    intro f ho
    by_cases hf : f = 0
    · rw [if_pos hf, if_pos ⟨ho, hf⟩]
    · rw [if_neg hf, if_neg fun h => hf h.2]
  cases o with
  | vcpop => exact hscalar _ (.inl rfl)
  | vfirst => exact hscalar _ (.inr rfl)
  | vmsbf => exact hplain _ fun h => by rcases h.1 with h | h <;> cases h
  | vmsof => exact hplain _ fun h => by rcases h.1 with h | h <;> cases h
  | vmsif => exact hplain _ fun h => by rcases h.1 with h | h <;> cases h
  | viota => exact hplain _ fun h => by rcases h.1 with h | h <;> cases h

theorem scans_iff {t : VState} (henc : o.Encodes instr) (h0 : m.csr .vstart = 0) :
    Scans instr ⟨m, []⟩ t ↔ ¬ ((o = .vcpop ∨ o = .vfirst) ∧ (decodeOpV m instr).src2 = 0) ∧
      o.loop (decodeOpV m instr) (m.csr .vl).toNat ⟨m, []⟩ = .ok () t := by
  have hexec : ∀ o : ScanOp, o.exec (decodeOpV m instr) ⟨m, []⟩ =
      o.loop (decodeOpV m instr) (m.csr .vl).toNat ⟨m, []⟩ := by
    intro o
    unfold ScanOp.exec
    rw [get_bind, if_neg (not_not_intro h0)]
  unfold Scans
  rw [scanDispatch_eq henc]
  change _ ↔ ¬ (_ ∧ instr.extractLsb' 20 5 = 0) ∧ _
  by_cases hnone : (o = .vcpop ∨ o = .vfirst) ∧ instr.extractLsb' 20 5 = 0
  · rw [if_pos hnone]
    constructor
    · rintro ⟨_, h, _⟩
      cases h
    · exact fun h => absurd hnone h.1
  · rw [if_neg hnone]
    constructor
    · rintro ⟨o', h, hrun⟩
      cases h
      exact ⟨hnone, (hexec o).symm.trans hrun⟩
    · exact fun h => ⟨o, rfl, (hexec o).trans h.2⟩

theorem Regs.set_eq_iff {x : Regs} {rd : BitVec 5} {v w : Word} :
    Regs.set x rd v = Regs.set x rd w ↔ rd = 0 ∨ v = w := by
  constructor
  · intro h
    by_cases hrd : rd = 0
    · exact .inl hrd
    · have hat := congrFun h rd
      unfold Regs.set at hat
      rw [if_neg hrd, if_neg hrd, Function.update_self, Function.update_self] at hat
      exact .inr hat
  · rintro (rfl | rfl)
    · rw [Regs.set_zero, Regs.set_zero]
    · rfl

theorem first_eq_iff (hc : Configured m) :
    BitVec.ofInt 64 (((List.range (m.csr .vl).toNat).find? (m.maskBit d.src2)).elim (-1) Nat.cast) =
      (m.firstHit d).elim (-1) (BitVec.ofNat 64) ↔
    ∀ i < (m.csr .vl).toNat, m.maskBit d.src2 i = true → (∀ j < i, m.maskBit d.src2 j = false) →
      m.scanned d i = true := by
  have hvl := hc.vl_le
  have hhit : ∀ j, m.hit d j = (m.scanned d j && m.maskBit d.src2 j) := fun _ => rfl
  cases hfirst : (List.range (m.csr .vl).toNat).find? (m.maskBit d.src2) with
  | none =>
    have hno : ∀ j < (m.csr .vl).toNat, m.maskBit d.src2 j = false :=
      fun j hj => by simpa using List.find?_range_eq_none.mp hfirst j hj
    have hnone : m.firstHit d = none := by
      apply List.find?_range_eq_none.mpr
      intro j hj
      rw [hhit, hno j hj, Bool.and_false]
      rfl
    rw [hnone]
    constructor
    · intro _ i hi hbit
      rw [hno i hi] at hbit
      cases hbit
    · exact fun _ => rfl
  | some f =>
    obtain ⟨hbit, hmem, hno⟩ := List.find?_range_eq_some.mp hfirst
    have hlt := List.mem_range.mp hmem
    have hbefore : ∀ j < f, m.maskBit d.src2 j = false := fun j hj => by simpa using hno j hj
    constructor
    · intro heq i hi hbiti hbeforei
      have hif : i = f := by
        rcases Nat.lt_trichotomy i f with h | h | h
        · rw [hbefore i h] at hbiti
          cases hbiti
        · exact h
        · rw [hbeforei f h] at hbit
          cases hbit
      subst hif
      cases hm : m.firstHit d with
      | none =>
        rw [hm] at heq
        have hnat := congrArg BitVec.toInt heq
        change (BitVec.ofInt 64 (i : Int)).toInt = -1 at hnat
        rw [BitVec.toInt_ofInt, Int.bmod_eq_of_le (by omega) (by unfold vlen at hvl; omega)] at hnat
        omega
      | some g =>
        obtain ⟨hg, hhitg, -⟩ := firstHit_some hm
        rw [hm] at heq
        have hnat := congrArg BitVec.toNat heq
        change (BitVec.ofInt 64 (i : Int)).toNat = (BitVec.ofNat 64 g).toNat at hnat
        rw [BitVec.ofInt_natCast, BitVec.toNat_ofNat, BitVec.toNat_ofNat,
          Nat.mod_eq_of_lt (by unfold vlen at hvl; omega), Nat.mod_eq_of_lt (by unfold vlen at hvl; omega)] at hnat
        rw [hhit, ← hnat, Bool.and_eq_true] at hhitg
        exact hhitg.1
    · intro hall
      have hsome : m.firstHit d = some f := by
        apply List.find?_range_eq_some.mpr
        refine ⟨?_, hmem, ?_⟩
        · rw [hhit, hall f hlt hbit hbefore, hbit]
          rfl
        · intro j hj
          rw [hhit, hbefore j hj, Bool.and_false]
          rfl
      rw [hsome]
      exact BitVec.ofInt_natCast 64 f

theorem number_loop (hc : Configured m) :
    ScanOp.vcpop.loop d (m.csr .vl).toNat ⟨m, []⟩ = .ok () ⟨{ m with
      gpr := Regs.set m.gpr d.dest (BitVec.ofNat 64 (m.hits d (m.csr .vl).toNat)) }, []⟩ ∧
    ScanOp.vfirst.loop d (m.csr .vl).toNat ⟨m, []⟩ = .ok () ⟨{ m with
      gpr := Regs.set m.gpr d.dest (BitVec.ofInt 64
        (((List.range (m.csr .vl).toNat).find? (m.maskBit d.src2)).elim (-1) Nat.cast)) }, []⟩ := by
  constructor
  · obtain ⟨y, t, hrun, rfl, rfl⟩ := vcpop_loop (d := d) hc.vl_le
    exact bind_ok hrun
  · have hrun := vfirst_loop (m := m) (d := d) (i := 0) (k := (m.csr .vl).toNat) (by
      have := hc.vl_le
      omega)
    rw [← List.range_eq_range'] at hrun
    exact bind_ok hrun

theorem loop_of_folded {α : Type} {x : VExec α} {y : α} {t : VState} (h : x ⟨m, []⟩ = .ok y t) :
    (do let _ ← x : VExec Unit) ⟨m, []⟩ = .ok () t := bind_ok h

theorem mask_loop (hc : Configured m) (h0 : m.csr .vstart = 0)
    (ho : o = .vmsbf ∨ o = .vmsof ∨ o = .vmsif) :
    ∃ t, o.loop d (m.csr .vl).toNat ⟨m, []⟩ = .ok () t ∧ o.Result m d t.cpu := by
  rcases ho with rfl | rfl | rfl
  · obtain ⟨y, t, hrun, ht⟩ := maskScan_loop hc h0 fun i hi hact => vmsbf_set (d := d) hi hact
    exact ⟨t, loop_of_folded hrun, ht⟩
  · obtain ⟨y, t, hrun, ht⟩ := maskScan_loop hc h0 fun i hi hact => vmsof_set (d := d) hi hact
    exact ⟨t, loop_of_folded hrun, ht⟩
  · obtain ⟨y, t, hrun, ht⟩ := maskScan_loop hc h0 fun i hi hact => vmsif_set (d := d) hi hact
    exact ⟨t, loop_of_folded hrun, ht⟩

theorem viota_fraction {y : Word} {t : VState} (hc : Configured m) (hmul : ¬ m.vlmul ≤ 3)
    (hrun : folded (viotaRound d) 0 (m.csr .vl).toNat 0 ⟨m, []⟩ = .ok y t) :
    ∀ i < (m.csr .vl).toNat, m.scanned d i = false := by
  have hvl := hc.vl_le
  have hround : ∀ i x u y u', 0 ≤ i → i < 0 + (m.csr .vl).toNat → u = (⟨m, []⟩ : VState) →
      viotaRound d i x u = .ok y u' → m.scanned d i = false ∧ u' = (⟨m, []⟩ : VState) := by
    rintro i x u y t - hi rfl hround
    rw [Nat.zero_add] at hi
    obtain ⟨hact, -, ht⟩ := viotaRound_fraction hmul (by omega) hround
    exact ⟨hact, ht⟩
  intro i hi
  exact folded_good (I := fun _ _ u => u = ⟨m, []⟩) rfl hrun hround i (Nat.zero_le i) (by omega)

theorem viota_result_iff (hl : ScanLegal m d .viota) :
    (∃ t, ScanOp.viota.loop d (m.csr .vl).toNat ⟨m, []⟩ = .ok () t ∧ ScanOp.viota.Result m d t.cpu) ↔
      ScanOp.viota.Exact m d := by
  by_cases hmul : m.vlmul ≤ 3
  · obtain ⟨y, t, hrun, ht⟩ := viota_loop hl hmul
    exact ⟨fun _ => .inl hmul, fun _ => ⟨t, loop_of_folded hrun, ht⟩⟩
  · constructor
    · rintro ⟨t, hrun, -⟩
      obtain ⟨y, u, hfold, -⟩ := ok_of_bind hrun
      exact .inr (viota_fraction hl.configured hmul hfold)
    · rintro (h | h)
      · exact absurd h hmul
      · refine ⟨⟨m, []⟩, loop_of_folded (viota_skips hl.configured h), ?_, ?_, ?_⟩
        · intro i hi hact
          rw [h i hi.2] at hact
          cases hact
        · exact fun _ _ => rfl
        · rw [← hl.vstart]
          exact (Machine.setCsr_self m .vstart).symm

/-- The scans of a mask: an instruction ends with the result that the V extension names if and only if
the condition holds. Among the active indices `vmsif` is `vmsbf` or `vmsof`, and `vcpop` returns what
`viota` counts up to the last one. -/
theorem scan_exact_iff (henc : o.Encodes instr) (hl : ScanLegal m (decodeOpV m instr) o) :
    ((∃ t, Scans instr ⟨m, []⟩ t ∧ o.Result m (decodeOpV m instr) t.cpu) ↔
      o.Exact m (decodeOpV m instr)) ∧
    (∀ i < (m.csr .vl).toNat, m.scanned (decodeOpV m instr) i = true →
      ScanOp.vmsif.bit m (decodeOpV m instr) i =
        (ScanOp.vmsbf.bit m (decodeOpV m instr) i || ScanOp.vmsof.bit m (decodeOpV m instr) i)) ∧
    ∀ i < (m.csr .vl).toNat, (∀ j, i < j → j < (m.csr .vl).toNat → m.scanned (decodeOpV m instr) j = false) →
      m.hits (decodeOpV m instr) (m.csr .vl).toNat =
        m.hits (decodeOpV m instr) i + (m.hit (decodeOpV m instr) i).toNat := by
  generalize hd : decodeOpV m instr = d at hl ⊢
  refine ⟨?_, ?_, ?_⟩
  · have hscans : ∀ t, Scans instr ⟨m, []⟩ t ↔ ¬ ((o = .vcpop ∨ o = .vfirst) ∧ d.src2 = 0) ∧
        o.loop d (m.csr .vl).toNat ⟨m, []⟩ = .ok () t := fun t => hd ▸ scans_iff henc hl.vstart
    have hmask : o = .vmsbf ∨ o = .vmsof ∨ o = .vmsif →
        ¬ ((o = .vcpop ∨ o = .vfirst) ∧ d.src2 = 0) → ∃ t, Scans instr ⟨m, []⟩ t ∧ o.Result m d t.cpu := by
      intro ho hplain
      obtain ⟨t, hrun, ht⟩ := mask_loop hl.configured hl.vstart ho
      exact ⟨t, (hscans t).mpr ⟨hplain, hrun⟩, ht⟩
    obtain ⟨hpop, hfirst⟩ := number_loop (d := d) hl.configured
    cases o with
    | vcpop =>
      constructor
      · rintro ⟨t, ht, -⟩ hzero
        exact ((hscans t).mp ht).1 ⟨.inl rfl, hzero⟩
      · intro hne
        exact ⟨_, (hscans _).mpr ⟨fun h => hne h.2, hpop⟩, rfl⟩
    | vfirst =>
      have hresult : ScanOp.vfirst.Result m d { m with gpr := Regs.set m.gpr d.dest (BitVec.ofInt 64
          (((List.range (m.csr .vl).toNat).find? (m.maskBit d.src2)).elim (-1) Nat.cast)) } ↔
          d.dest = 0 ∨ ∀ i < (m.csr .vl).toNat, m.maskBit d.src2 i = true →
            (∀ j < i, m.maskBit d.src2 j = false) → m.scanned d i = true := by
        rw [← first_eq_iff hl.configured, ← Regs.set_eq_iff (x := m.gpr)]
        exact ⟨fun h => congrArg Machine.gpr h, fun h => congrArg (fun g : Regs => ({ m with gpr := g } : Machine)) h⟩
      constructor
      · rintro ⟨t, ht, hres⟩
        obtain ⟨hne, hrun⟩ := (hscans t).mp ht
        cases hfirst.symm.trans hrun
        exact ⟨fun hzero => hne ⟨.inr rfl, hzero⟩, hresult.mp hres⟩
      · rintro ⟨hne, hok⟩
        exact ⟨_, (hscans _).mpr ⟨fun h => hne h.2, hfirst⟩, hresult.mpr hok⟩
    | vmsbf => exact ⟨fun _ => trivial, fun _ => hmask (.inl rfl) fun h => by rcases h.1 with h | h <;> cases h⟩
    | vmsof => exact ⟨fun _ => trivial, fun _ => hmask (.inr (.inl rfl)) fun h => by rcases h.1 with h | h <;> cases h⟩
    | vmsif => exact ⟨fun _ => trivial, fun _ => hmask (.inr (.inr rfl)) fun h => by rcases h.1 with h | h <;> cases h⟩
    | viota =>
      rw [← viota_result_iff hl]
      apply exists_congr
      intro t
      rw [hscans t]
      exact and_congr_left fun _ => and_iff_right fun h => by rcases h.1 with h | h <;> cases h
  · intro i hi _
    obtain ⟨hbefore, hupto, hat⟩ := bit_seen (d := d) hi
    rw [hbefore, hupto, hat, seen_succ]
    cases m.seen d i <;> cases m.hit d i <;> rfl
  · intro i hi hlast
    obtain ⟨k, hk⟩ := Nat.exists_eq_add_of_lt hi
    rw [← hits_succ, hk, Nat.add_assoc, Nat.add_comm k 1, ← Nat.add_assoc]
    apply hits_eq_of_inactive
    intro j h1 h2
    exact hlast j h1 (by omega)

/-- Four indices, of which the mask excludes the first, with bits in `v2` for the first and the third. -/
def scanState : Machine := configuredAs 0 4 fun r => if r = 0 then 0xe else if r = 2 then 0x5 else 0

theorem scanState_legal (d : VDecode) : ScanLegal scanState d .vfirst := by
  constructor
  · exact ⟨by decide, .inl (by decide), by decide, by decide⟩
  · decide
  · intro h
    cases h
  · intro h
    cases h
  · intro h
    cases h

/-- `vfirst.m t0, v2`, which reads no mask. -/
theorem scan_exact_first : ∃ t, Scans 0x4228a2d7 ⟨scanState, []⟩ t ∧
    ScanOp.vfirst.Result scanState (decodeOpV scanState 0x4228a2d7) t.cpu := by
  have henc : ScanOp.vfirst.Encodes 0x4228a2d7 := ⟨by decide, by decide, by decide⟩
  apply (scan_exact_iff henc (scanState_legal _)).1.mpr
  exact ⟨by decide, .inr fun _ _ _ _ => rfl⟩

/-- `vfirst.m t0, v2, v0.t` returns 0, where the first active bit is the third. -/
theorem scan_first_masked :
    ScanLegal scanState (decodeOpV scanState 0x4028a2d7) .vfirst ∧
    ScanOp.vfirst.Encodes 0x4028a2d7 ∧
    scanState.firstHit (decodeOpV scanState 0x4028a2d7) = some 2 ∧
    (∃ t, Scans 0x4028a2d7 ⟨scanState, []⟩ t ∧ t.cpu.gpr 5 = 0) ∧
    ¬ ∃ t, Scans 0x4028a2d7 ⟨scanState, []⟩ t ∧
      ScanOp.vfirst.Result scanState (decodeOpV scanState 0x4028a2d7) t.cpu := by
  have hl := scanState_legal (decodeOpV scanState 0x4028a2d7)
  have henc : ScanOp.vfirst.Encodes 0x4028a2d7 := ⟨by decide, by decide, by decide⟩
  have hfirst : scanState.firstHit (decodeOpV scanState 0x4028a2d7) = some 2 := by decide
  have hrun := (number_loop (d := decodeOpV scanState 0x4028a2d7) hl.configured).2
  have hpos : ((List.range (scanState.csr .vl).toNat).find?
      (scanState.maskBit (decodeOpV scanState 0x4028a2d7).src2)) = some 0 := by decide
  rw [hpos] at hrun
  have hne : ¬ ((ScanOp.vfirst = .vcpop ∨ ScanOp.vfirst = .vfirst) ∧
      (decodeOpV scanState 0x4028a2d7).src2 = 0) := by decide
  refine ⟨hl, henc, hfirst, ⟨_, (scans_iff henc hl.vstart).mpr ⟨hne, hrun⟩, by decide⟩, ?_⟩
  rintro ⟨t, ht, hres⟩
  obtain ⟨-, hrun'⟩ := (scans_iff henc hl.vstart).mp ht
  cases hrun.symm.trans hrun'
  have hgpr := congrFun (congrArg Machine.gpr hres) 5
  rw [hfirst] at hgpr
  exact absurd hgpr (by decide)

end Claim

end Nemu
