import Nemu.VectorElement

namespace Nemu

open Effect

set_option autoImplicit true

inductive VMode where
  | unit | strided | indexed
  deriving DecidableEq

inductive VKind where
  | load (isSigned : Bool)
  | store
  deriving DecidableEq

/-- The memory behind `rtl_lm` and `rtl_sm`, for accesses that are not stopped by an exception: a store
changes no bytes other than its own. -/
structure Bus (μ : Type) where
  lm : Word → Nat → μ → Word
  sm : Word → Nat → Word → μ → μ
  byte : μ → Word → BitVec 8
  sm_other : ∀ addr len x m b, len ≤ (b - addr).toNat → byte (sm addr len x m) b = byte m b

/-- A state with memory, and the accesses in their order: the address, the length and what is stored. -/
structure VMemState (μ : Type) where
  v : VState
  mem : μ
  accesses : List (Word × Nat × Option Word)

abbrev VMemExec (μ : Type) := EStateM VStop (VMemState μ)

/-- What an executor takes from the `Decode` record. -/
structure VldstDecode where
  src1 : BitVec 5
  src2Reg : BitVec 5
  src2Val : Word
  dest : BitVec 5
  vWidth : Nat
  vm : Bool

section Code

variable {μ : Type} (B : Bus μ)

def onRegs (x : VExec α) : VMemExec μ α := fun s =>
  match x s.v with
  | .ok a v => .ok a { s with v := v }
  | .error e v => .error e { s with v := v }

def vectorLm (addr : Word) (len : Nat) : VMemExec μ Word := do
  modify fun s => { s with accesses := s.accesses ++ [(addr, len, none)] }
  let s ← get
  pure (B.lm addr len s.mem)

def vectorSm (addr : Word) (len : Nat) (x : Word) : VMemExec μ Unit :=
  modify fun s => { s with accesses := s.accesses ++ [(addr, len, some x)], mem := B.sm addr len x s.mem }

def VldstDecode.width (d : VldstDecode) (vsew : Nat) : Nat := if d.vWidth = 0 then 2 ^ vsew else d.vWidth

/-- `tmp_reg[0]` when the element is accessed: `src1` is the value that was read before the loop. -/
def indexAddr (mode : VMode) (d : VldstDecode) (src1 : Word) (idx : Nat) (addr : Word) : VMemExec μ Word := do
  let s ← get
  if mode = .indexed then do
    let x ← onRegs (getVreg d.src2Reg idx s.v.cpu.vsew s.v.cpu.vlmul true true)
    pure (src1 + x)
  else pure addr

def nextAddr (mode : VMode) (d : VldstDecode) (width : Nat) (addr : Word) : Word :=
  match mode with
  | .unit => addr + BitVec.ofNat 64 width
  | .strided => addr + d.src2Val
  | .indexed => addr

def vldRound (mode : VMode) (isSigned : Bool) (d : VldstDecode) (width : Nat) (src1 : Word) (idx : Nat)
    (addr : Word) : VMemExec μ Word := do
  let addr ← indexAddr mode d src1 idx addr
  let mask ← onRegs (getMask 0 idx)
  if d.vm ∨ mask ≠ 0 then do
    let x ← vectorLm B addr width
    let x := if isSigned then (x.setWidth (8 * width)).signExtend 64 else x
    let s ← get
    onRegs (setVreg d.dest idx x s.v.cpu.vsew s.v.cpu.vlmul true)
    pure (nextAddr mode d width addr)
  else pure (nextAddr mode d width addr)

def vstRound (mode : VMode) (d : VldstDecode) (width : Nat) (src1 : Word) (idx : Nat) (addr : Word) :
    VMemExec μ Word := do
  let addr ← indexAddr mode d src1 idx addr
  let mask ← onRegs (getMask 0 idx)
  if d.vm ∨ mask ≠ 0 then do
    let s ← get
    let x ← onRegs (getVreg d.dest idx s.v.cpu.vsew s.v.cpu.vlmul false true)
    vectorSm B addr width x
    pure (nextAddr mode d width addr)
  else pure (nextAddr mode d width addr)

def resetVstart : VMemExec μ Unit :=
  modify fun s => { s with v := { s.v with cpu := s.v.cpu.setCsr .vstart 0 } }

/-- An element that is wider than SEW is refused by an assertion. -/
def vld (mode : VMode) (isSigned : Bool) (d : VldstDecode) : VMemExec μ Unit := do
  let s ← get
  let m := s.v.cpu
  let width := d.width m.vsew
  if width * 8 > sew m.vsew then throw .assertion
  else do
    let _ ← folded (vldRound B mode isSigned d width (m.gpr d.src1)) (m.csr .vstart).toNat m.rounds (m.gpr d.src1)
    resetVstart

/-- An element that is narrower than SEW is refused by an assertion. -/
def vst (mode : VMode) (d : VldstDecode) : VMemExec μ Unit := do
  let s ← get
  let m := s.v.cpu
  let width := d.width m.vsew
  if width * 8 < sew m.vsew then throw .assertion
  else do
    let _ ← folded (vstRound B mode d width (m.gpr d.src1)) (m.csr .vstart).toNat m.rounds (m.gpr d.src1)
    resetVstart

def VKind.exec : VKind → VMode → VldstDecode → VMemExec μ Unit
  | .load isSigned, mode, d => vld B mode isSigned d
  | .store, mode, d => vst B mode d

/-- A record, and what is executed with it. -/
abbrev VldstEntry := VldstDecode × VKind × VMode

section Tables

variable (d : VldstDecode) (instr : BitVec 32)

/-- The second operand is decoded as an immediate: its register and value stay what they were in the
record. -/
def VldstDecode.decodeFload : VldstDecode :=
  { d with src1 := instr.extractLsb' 15 5, dest := instr.extractLsb' 7 5 }

def VldstDecode.decodeFstore : VldstDecode :=
  { d with src1 := instr.extractLsb' 15 5, dest := instr.extractLsb' 20 5 }

def vldstTable (rows : List (BitVec 3 × VKind × VMode)) : Option VldstEntry :=
  (rows.lookup (instr.extractLsb' 26 3)).map fun row => (d, row)

def vloadRows : List (BitVec 3 × VKind × VMode) :=
  [(0b000, .load false, .unit), (0b010, .load false, .strided), (0b011, .load false, .indexed),
    (0b100, .load true, .unit), (0b110, .load true, .strided), (0b111, .load true, .indexed)]

def vstoreRows : List (BitVec 3 × VKind × VMode) :=
  [(0b000, .store, .unit), (0b010, .store, .strided), (0b011, .store, .indexed), (0b111, .store, .indexed)]

def tableVload : Option VldstEntry := vldstTable d instr vloadRows

/-- The group is decoded anew, from where a load has it. -/
def tableVstore : Option VldstEntry := vldstTable { d with dest := instr.extractLsb' 7 5 } instr vstoreRows

def tableVloadMmu : Option VldstEntry := vldstTable d instr vloadRows

/-- The group stays the one of `decode_fstore`. -/
def tableVstoreMmu : Option VldstEntry := vldstTable d instr vstoreRows

def VldstDecode.fields : VldstDecode :=
  { d with
    vWidth := [1, 0, 0, 0, 0, 2, 4, 8].getD (instr.extractLsb' 12 3).toNat 0
    vm := instr.getLsbD 25 }

/-- The rows of `table_fload` and `table_fstore` that are reached with the vector unit on. -/
def vldstRows (mmu : MmuMode) (direct translate : VldstDecode → BitVec 32 → Option VldstEntry) :
    Option VldstEntry :=
  if vFunct3 instr = 0b000 ∨ vFunct3 instr = 0b101 ∨ vFunct3 instr = 0b110 ∨ vFunct3 instr = 0b111 then
    match mmu with
    | .direct => direct (d.fields instr) instr
    | .translate => translate (d.fields instr) instr
    | .dynamic => none
  else none

def VldstDecode.tableFload (mmu : MmuMode) : Option VldstEntry := vldstRows d instr mmu tableVload tableVloadMmu

def VldstDecode.tableFstore (mmu : MmuMode) : Option VldstEntry :=
  vldstRows d instr mmu tableVstore tableVstoreMmu

/-- The record and the access of a vector load or store, decoded over what an earlier instruction left in
the record. `none` where there is none. -/
def vldstDispatch (mmu : MmuMode) (old : VldstDecode) : Option VldstEntry :=
  if instr.extractLsb' 2 5 = 0b00001 then (old.decodeFload instr).tableFload instr mmu
  else if instr.extractLsb' 2 5 = 0b01001 then (old.decodeFstore instr).tableFstore instr mmu
  else none

/-- The record with the group that the instruction names. -/
def VldstDecode.named : VldstDecode := { d with dest := instr.extractLsb' 7 5 }

end Tables

/-- An instruction that is a vector load or store and ends. -/
def LoadsStores (mmu : MmuMode) (old : VldstDecode) (instr : BitVec 32) (s t : VMemState μ) : Prop :=
  ∃ d k mode, vldstDispatch instr mmu old = some (d, k, mode) ∧ k.exec B mode d s = .ok () t

end Code

section Spec

variable (m : Machine) (d : VldstDecode)

/-- An active index. -/
def Machine.accessed (i : Nat) : Bool := d.vm || m.maskBit 0 i

/-- The active ones among the `k` indices from `a` on. -/
def Machine.accessedIn (a k : Nat) : List Nat := (List.range' a k).filter (m.accessed d)

/-- The address of an element: `second` is the field of the instruction that names the register with the
stride, or the group with the indices. -/
def Machine.elemAddr (mode : VMode) (second : BitVec 5) (i : Nat) : Word :=
  match mode with
  | .unit => m.gpr d.src1 + BitVec.ofNat 64 (i * d.width m.vsew)
  | .strided => m.gpr d.src1 + BitVec.ofNat 64 i * m.gpr second
  | .indexed => m.gpr d.src1 + (m.elem m.vsew second i).setWidth 64

/-- The access for an element at its address, with the data of a store. -/
def Machine.access (k : VKind) (addr : Nat → Word) (i : Nat) : Word × Nat × Option Word :=
  (addr i, d.width m.vsew, match k with
    | .load _ => none
    | .store => some ((m.elem m.vsew d.dest i).setWidth 64))

/-- What is loaded to an element, from the value that was read. -/
def VldstDecode.loaded (isSigned : Bool) (x : Word) : BitVec (sew m.vsew) :=
  (if isSigned then (x.setWidth (8 * d.width m.vsew)).signExtend 64 else x).setWidth (sew m.vsew)

variable {μ : Type} (B : Bus μ)

/-- The active elements are moved from or to `addr`, each once and in their order, and nothing else
changes but `vstart`. -/
structure Moved (k : VKind) (d : VldstDecode) (addr : Nat → Word) (s t : VMemState μ) : Prop where
  accesses : t.accesses = s.accesses ++
    (s.v.cpu.accessedIn d (s.v.cpu.csr .vstart).toNat s.v.cpu.rounds).map (s.v.cpu.access d k addr)
  load : ∀ isSigned, k = .load isSigned → t.mem = s.mem ∧
    Writes s.v.cpu t.v.cpu (slot s.v.cpu.vsew d.dest) (fun i => s.v.cpu.accessed d i = true)
      fun i => d.loaded s.v.cpu isSigned (B.lm (addr i) (d.width s.v.cpu.vsew) s.mem)
  store : k = .store → t.v.cpu = s.v.cpu.setCsr .vstart 0 ∧
    t.mem = (s.v.cpu.accessedIn d (s.v.cpu.csr .vstart).toNat s.v.cpu.rounds).foldl (fun mem i =>
      B.sm (addr i) (d.width s.v.cpu.vsew) ((s.v.cpu.elem s.v.cpu.vsew d.dest i).setWidth 64) mem) s.mem
  bytes : ∀ b, (∀ i, s.v.cpu.Body i → s.v.cpu.accessed d i = true →
    d.width s.v.cpu.vsew ≤ (b - addr i).toNat) → B.byte t.mem b = B.byte s.mem b

/-- A width that is accepted, in a configuration that `vsetvl` gives, with the groups and the mask
register apart as the V extension asks. -/
structure VldstLegal (k : VKind) (mode : VMode) (second : BitVec 5) : Prop where
  configured : Configured m
  load : k ≠ .store → d.width m.vsew * 8 ≤ sew m.vsew
  store : k = .store → sew m.vsew ≤ d.width m.vsew * 8
  dest : k ≠ .store → m.vlmul ≤ 3 → Aligned m.vlmul d.dest
  index : mode = .indexed → m.vlmul ≤ 3 → Aligned m.vlmul second
  mask : k ≠ .store → d.vm = false → d.dest ≠ 0

/-- No assertion of `get_vreg` and `set_vreg` stops the access: an index is read for each element, active
or not. -/
def VldstDecode.Completes (mode : VMode) : Prop :=
  (mode = .indexed → (∃ i, m.Body i) → m.vlmul ≤ 3 ∧ Aligned m.vlmul d.src2Reg) ∧
    ((∃ i, m.Body i ∧ m.accessed d i = true) → m.vlmul ≤ 3 ∧ Aligned m.vlmul d.dest)

/-- The condition on the elements: the first one is taken to be at the base, whatever `vstart` is, and
stride and indices are what the record holds from before. -/
def VldstDecode.Addresses (mode : VMode) (second : BitVec 5) (i : Nat) : Prop :=
  match mode with
  | .unit => (m.csr .vstart).toNat = 0
  | .strided => BitVec.ofNat 64 (i - (m.csr .vstart).toNat) * d.src2Val = BitVec.ofNat 64 i * m.gpr second
  | .indexed => extendElem m.vsew true (m.elem m.vsew d.src2Reg i) = (m.elem m.vsew second i).setWidth 64

end Spec

section Groups

variable {vsew vlmul i j : Nat} {reg dest : BitVec 5}

/-- A group that is part of a register has its elements there. -/
theorem slot_fraction (hmul : ¬ vlmul ≤ 3) (hi : i < vlmaxOf vsew vlmul) (hsew : vsew ≤ 3) :
    slot vsew reg i = (reg, i) := by
  have hle : vlmaxOf vsew vlmul ≤ elemNum vsew := by
    unfold vlmaxOf
    rw [if_neg hmul, elemNum_eq hsew, ← Nat.div_div_eq_div_mul]
    exact Nat.div_le_self _ _
  unfold slot
  rw [Nat.div_eq_of_lt (hi.trans_le hle), Nat.mod_eq_of_lt (hi.trans_le hle)]
  exact Prod.ext (BitVec.add_zero reg) rfl

theorem element_ne (hsew : vsew ≤ 3) (hr : vlmul ≤ 3 → Aligned vlmul reg) (hd : vlmul ≤ 3 → Aligned vlmul dest)
    (hi : i < vlmaxOf vsew vlmul) (hj : j < vlmaxOf vsew vlmul) (hne : i ≠ j) :
    slot vsew reg i ≠ slot vsew dest j := by
  by_cases hmul : vlmul ≤ 3
  · rw [vlmaxOf_eq hsew hmul] at hi hj
    by_cases heq : reg = dest
    · rw [heq]
      exact fun h => hne (slot_inj hsew hmul (hd hmul) hi hj h)
    · exact slot_ne_of_ne hsew hmul (hr hmul) (hd hmul) heq hi hj
  · rw [slot_fraction hmul hi hsew, slot_fraction hmul hj hsew]
    exact fun h => hne (congrArg Prod.snd h)

theorem element_apart (hsew : vsew ≤ 3) (hr : vlmul ≤ 3 → Aligned vlmul reg)
    (hd : vlmul ≤ 3 → Aligned vlmul dest) (hi : i < vlmaxOf vsew vlmul) (hj : j < vlmaxOf vsew vlmul)
    (hne : i ≠ j) : Packed.Apart (sew vsew) (slot vsew reg i) (sew vsew) (slot vsew dest j) :=
  Packed.apart_of_ne (element_ne hsew hr hd hi hj hne)

theorem element_inj (hsew : vsew ≤ 3) (ha : vlmul ≤ 3 → Aligned vlmul reg) (hi : i < vlmaxOf vsew vlmul)
    (hj : j < vlmaxOf vsew vlmul) (h : slot vsew reg i = slot vsew reg j) : i = j := by
  by_contra hne
  exact element_ne hsew ha ha hi hj hne h

theorem element_ne_zero (hsew : vsew ≤ 3) (hd : vlmul ≤ 3 → Aligned vlmul dest) (hi : i < vlmaxOf vsew vlmul)
    (hne : dest ≠ 0) : (slot vsew dest i).1 ≠ 0 := by
  by_cases hmul : vlmul ≤ 3
  · exact slot_ne_zero hsew hmul (hd hmul) hi hne
  · rw [slot_fraction hmul hi hsew]
    exact hne

end Groups

section Rounds

variable {μ : Type} {B : Bus μ} {mode : VMode} {k : VKind} {d : VldstDecode} {s u : VMemState μ} {i n : Nat}
  {x : Word} {second : BitVec 5}

/-- The address that a loop reaches. -/
def Machine.loopAddr (m : Machine) (mode : VMode) (d : VldstDecode) (i : Nat) : Word :=
  match mode with
  | .unit => m.gpr d.src1 + BitVec.ofNat 64 ((i - (m.csr .vstart).toNat) * d.width m.vsew)
  | .strided => m.gpr d.src1 + BitVec.ofNat 64 (i - (m.csr .vstart).toNat) * d.src2Val
  | .indexed => m.gpr d.src1 + extendElem m.vsew true (m.elem m.vsew d.src2Reg i)

theorem onRegs_ok {f : VExec α} {a : α} {v : VState} (h : f u.v = .ok a v) :
    onRegs f u = .ok a { u with v := v } := by
  unfold onRegs
  rw [h]

theorem onRegs_of_ok {f : VExec α} {a : α} {t : VMemState μ} (h : onRegs f u = .ok a t) :
    ∃ v, f u.v = .ok a v ∧ t = { u with v := v } := by
  unfold onRegs at h
  cases hf : f u.v with
  | ok b v =>
    rw [hf] at h
    cases h
    exact ⟨v, rfl, rfl⟩
  | error e v =>
    rw [hf] at h
    cases h

theorem nextAddr_loop {m : Machine} (hi : (m.csr .vstart).toNat ≤ i) (hmode : mode ≠ .indexed) :
    nextAddr mode d (d.width m.vsew) (m.loopAddr mode d i) = m.loopAddr mode d (i + 1) := by
  cases mode with
  | unit =>
    unfold nextAddr Machine.loopAddr
    dsimp only
    rw [Nat.succ_sub hi, Nat.succ_mul, BitVec.ofNat_add, BitVec.add_assoc]
  | strided =>
    unfold nextAddr Machine.loopAddr
    dsimp only
    rw [Nat.succ_sub hi, Nat.succ_eq_add_one, BitVec.ofNat_add, BitVec.add_mul, BitVec.one_mul, BitVec.add_assoc]
  | indexed => exact absurd rfl hmode

/-- The elements that were moved before the index `i`. -/
def VMemState.movedBefore (s : VMemState μ) (d : VldstDecode) (i : Nat) : List Nat :=
  s.v.cpu.accessedIn d (s.v.cpu.csr .vstart).toNat (i - (s.v.cpu.csr .vstart).toNat)

theorem movedBefore_succ (hi : (s.v.cpu.csr .vstart).toNat ≤ i) : s.movedBefore d (i + 1) =
    s.movedBefore d i ++ if s.v.cpu.accessed d i then [i] else [] := by
  unfold VMemState.movedBefore Machine.accessedIn
  rw [Nat.succ_sub hi, List.range'_1_concat, List.filter_append, Nat.add_sub_cancel' hi]
  congr 1
  cases h : s.v.cpu.accessed d i with
  | true => rw [List.filter_cons_of_pos h]; rfl
  | false => rw [List.filter_cons_of_neg (by rw [h]; exact Bool.false_ne_true)]; rfl

/-- What a round reads is as it was at the start. -/
structure SameOperands (s u : VMemState μ) (d : VldstDecode) (i : Nat) : Prop where
  vsew : u.v.cpu.vsew = s.v.cpu.vsew
  vlmul : u.v.cpu.vlmul = s.v.cpu.vlmul
  mask : d.vm = false → u.v.cpu.maskBit 0 i = s.v.cpu.maskBit 0 i
  index : s.v.cpu.vlmul ≤ 3 → Aligned s.v.cpu.vlmul d.src2Reg →
    u.v.cpu.elem s.v.cpu.vsew d.src2Reg i = s.v.cpu.elem s.v.cpu.vsew d.src2Reg i

/-- The same state after more elements were read. -/
def VMemState.afterReads (u : VMemState μ) (reads : List Int) : VMemState μ :=
  { u with v := { u.v with reads := u.v.reads ++ reads } }

theorem SameOperands.afterReads (ho : SameOperands s u d i) (reads : List Int) :
    SameOperands s (u.afterReads reads) d i := ⟨ho.vsew, ho.vlmul, ho.mask, ho.index⟩

theorem sameOperands_of_cpu (h : u.v.cpu = s.v.cpu) : SameOperands s u d i := by
  constructor
  · rw [h]
  · rw [h]
  · exact fun _ => by rw [h]
  · exact fun _ _ => by rw [h]

/-- Two operands of `get_vreg` that its assertions accept. -/
def IndexReadable (m : Machine) (mode : VMode) (d : VldstDecode) : Prop :=
  mode = .indexed → m.vlmul ≤ 3 ∧ Aligned m.vlmul d.src2Reg

theorem indexAddr_ok (ho : SameOperands s u d i) (hc : Configured s.v.cpu) (hi : s.v.cpu.Body i)
    (hr : IndexReadable s.v.cpu mode d) (hx : mode ≠ .indexed → x = s.v.cpu.loopAddr mode d i) :
    ∃ reads, (∀ r ∈ reads, 0 ≤ r ∧ r < (vlmaxOf s.v.cpu.vsew s.v.cpu.vlmul : Int)) ∧
      indexAddr mode d (s.v.cpu.gpr d.src1) i x u = .ok (s.v.cpu.loopAddr mode d i) (u.afterReads reads) := by
  unfold indexAddr
  rw [get_bind]
  by_cases hmode : mode = .indexed
  · obtain ⟨hmul, ha⟩ := hr hmode
    have hlt := hi.lt_vlmax hc
    have hplace : vregPlace d.src2Reg i s.v.cpu.vsew s.v.cpu.vlmul true = some (slot s.v.cpu.vsew d.src2Reg i) := by
      rw [vlmaxOf_eq hc.sew hmul] at hlt
      exact vregPlace_group hc.sew hmul ha hlt
    refine ⟨[(i : Int)], ?_, ?_⟩
    · intro r hr
      cases List.mem_singleton.mp hr
      exact ⟨Int.natCast_nonneg i, Int.ofNat_lt.mpr hlt⟩
    · rw [if_pos hmode, ho.vsew, ho.vlmul]
      refine (bind_ok (onRegs_ok (getVreg_eq hplace))).trans ?_
      subst hmode
      have helem := ho.index hmul ha
      unfold Machine.elem at helem
      unfold Machine.loopAddr Machine.elem
      rw [helem]
      rfl
  · refine ⟨[], fun r hr => absurd hr List.not_mem_nil, ?_⟩
    rw [if_neg hmode, hx hmode]
    unfold VMemState.afterReads
    rw [List.append_nil]
    rfl

theorem indexAddr_readable {y : Word} {t : VMemState μ} (ho : SameOperands s u d i)
    (h : indexAddr mode d (s.v.cpu.gpr d.src1) i x u = .ok y t) : IndexReadable s.v.cpu mode d := by
  intro hmode
  unfold indexAddr at h
  rw [get_bind, if_pos hmode] at h
  obtain ⟨z, u', hget, -⟩ := ok_of_bind h
  obtain ⟨v, hv, -⟩ := onRegs_of_ok hget
  rw [ho.vsew, ho.vlmul] at hv
  by_contra hbad
  have hnone : vregPlace d.src2Reg i s.v.cpu.vsew s.v.cpu.vlmul true = none :=
    if_neg fun hall => hbad ⟨hall.1, hall.2.2.1 rfl⟩
  unfold getVreg at hv
  rw [hnone] at hv
  cases hv

theorem accessed_iff (ho : SameOperands s u d i) :
    (d.vm = true ∨ u.v.cpu.maskWord i ≠ 0) ↔ s.v.cpu.accessed d i = true := by
  unfold Machine.accessed
  cases hvm : d.vm with
  | true => simp
  | false =>
    rw [ne_eq, maskWord_eq_zero, ho.mask hvm]
    simp

theorem getMask_run (hc : Configured s.v.cpu) (hi : s.v.cpu.Body i) :
    onRegs (getMask 0 i) u = .ok (u.v.cpu.maskWord i) u :=
  onRegs_ok (getMask_eq (Nat.lt_of_lt_of_le hi.2 hc.vl_le))

def VMemState.loaded (u : VMemState μ) (B : Bus μ) (m : Machine) (d : VldstDecode) (isSigned : Bool)
    (addr : Word) (i : Nat) : VMemState μ :=
  { u with
    v := { u.v with
      cpu := { u.v.cpu with
        vr := Packed.set u.v.cpu.vr (slot m.vsew d.dest i)
          (d.loaded m isSigned (B.lm addr (d.width m.vsew) u.mem)) } }
    accesses := u.accesses ++ [(addr, d.width m.vsew, none)] }

theorem vldRound_ok {isSigned : Bool} (hl : VldstLegal s.v.cpu d (.load isSigned) mode second)
    (ho : SameOperands s u d i) (hi : s.v.cpu.Body i) (hr : IndexReadable s.v.cpu mode d)
    (hdest : s.v.cpu.accessed d i = true → s.v.cpu.vlmul ≤ 3 ∧ Aligned s.v.cpu.vlmul d.dest)
    (hx : mode ≠ .indexed → x = s.v.cpu.loopAddr mode d i) :
    ∃ reads, (∀ r ∈ reads, 0 ≤ r ∧ r < (vlmaxOf s.v.cpu.vsew s.v.cpu.vlmul : Int)) ∧
      vldRound B mode isSigned d (d.width s.v.cpu.vsew) (s.v.cpu.gpr d.src1) i x u =
        .ok (nextAddr mode d (d.width s.v.cpu.vsew) (s.v.cpu.loopAddr mode d i))
          (if s.v.cpu.accessed d i then
            (u.afterReads reads).loaded B s.v.cpu d isSigned (s.v.cpu.loopAddr mode d i) i
          else u.afterReads reads) := by
  have hc := hl.configured
  obtain ⟨reads, hbound, haddr⟩ := indexAddr_ok ho hc hi hr hx
  refine ⟨reads, hbound, ?_⟩
  unfold vldRound
  refine (bind_ok haddr).trans ((bind_ok (getMask_run hc hi)).trans ?_)
  have htest := accessed_iff (ho.afterReads reads)
  by_cases hact : s.v.cpu.accessed d i = true
  · have hlt := hi.lt_vlmax hc
    obtain ⟨hmul, ha⟩ := hdest hact
    rw [vlmaxOf_eq hc.sew hmul] at hlt
    have hplace : vregPlace d.dest i s.v.cpu.vsew s.v.cpu.vlmul true = some (slot s.v.cpu.vsew d.dest i) :=
      vregPlace_group hc.sew hmul ha hlt
    rw [if_pos (htest.mpr hact), if_pos hact]
    refine (bind_ok rfl).trans ?_
    rw [get_bind]
    change (onRegs (setVreg d.dest i _ u.v.cpu.vsew u.v.cpu.vlmul true) >>= _) _ = _
    rw [ho.vsew, ho.vlmul]
    exact bind_ok (onRegs_ok (setVreg_eq hplace))
  · rw [if_neg (mt htest.mp hact), if_neg hact]
    rfl

theorem vldRound_of_ok {isSigned : Bool} {y : Word} {t : VMemState μ} (hc : Configured s.v.cpu)
    (ho : SameOperands s u d i) (hi : s.v.cpu.Body i) (hx : mode ≠ .indexed → x = s.v.cpu.loopAddr mode d i)
    (h : vldRound B mode isSigned d (d.width s.v.cpu.vsew) (s.v.cpu.gpr d.src1) i x u = .ok y t) :
    IndexReadable s.v.cpu mode d ∧
      (s.v.cpu.accessed d i = true → s.v.cpu.vlmul ≤ 3 ∧ Aligned s.v.cpu.vlmul d.dest) := by
  unfold vldRound at h
  obtain ⟨addr, u', haddr, hrest⟩ := ok_of_bind h
  have hr := indexAddr_readable ho haddr
  refine ⟨hr, fun hact => ?_⟩
  obtain ⟨reads, -, haddr'⟩ := indexAddr_ok ho hc hi hr hx
  cases haddr.symm.trans haddr'
  obtain ⟨mask, w, hmask, hrest⟩ := ok_of_bind hrest
  cases (getMask_run hc hi).symm.trans hmask
  rw [if_pos ((accessed_iff (ho.afterReads reads)).mpr hact)] at hrest
  obtain ⟨z, v, hload, hrest⟩ := ok_of_bind hrest
  cases hload
  rw [get_bind] at hrest
  obtain ⟨_, v, hset, _⟩ := ok_of_bind hrest
  obtain ⟨v, hv, rfl⟩ := onRegs_of_ok hset
  change setVreg d.dest i _ u.v.cpu.vsew u.v.cpu.vlmul true _ = _ at hv
  rw [ho.vsew, ho.vlmul] at hv
  by_contra hdest
  have hnone : vregPlace d.dest i s.v.cpu.vsew s.v.cpu.vlmul true = none :=
    if_neg fun hall => hdest ⟨hall.1, hall.2.2.1 rfl⟩
  unfold setVreg at hv
  rw [hnone] at hv
  cases hv

def VMemState.stored (u : VMemState μ) (B : Bus μ) (m : Machine) (d : VldstDecode) (addr : Word) (i : Nat) :
    VMemState μ :=
  { u with
    accesses := u.accesses ++ [(addr, d.width m.vsew, some ((m.elem m.vsew d.dest i).setWidth 64))]
    mem := B.sm addr (d.width m.vsew) ((m.elem m.vsew d.dest i).setWidth 64) u.mem }

theorem vstRound_ok (hl : VldstLegal s.v.cpu d .store mode second) (hcpu : u.v.cpu = s.v.cpu)
    (hi : s.v.cpu.Body i) (hr : IndexReadable s.v.cpu mode d)
    (hdest : s.v.cpu.accessed d i = true → s.v.cpu.vlmul ≤ 3 ∧ Aligned s.v.cpu.vlmul d.dest)
    (hx : mode ≠ .indexed → x = s.v.cpu.loopAddr mode d i) :
    ∃ reads, vstRound B mode d (d.width s.v.cpu.vsew) (s.v.cpu.gpr d.src1) i x u =
      .ok (nextAddr mode d (d.width s.v.cpu.vsew) (s.v.cpu.loopAddr mode d i))
        (if s.v.cpu.accessed d i then (u.afterReads reads).stored B s.v.cpu d (s.v.cpu.loopAddr mode d i) i
        else u.afterReads reads) := by
  have hc := hl.configured
  have ho := sameOperands_of_cpu (d := d) (i := i) hcpu
  obtain ⟨reads, -, haddr⟩ := indexAddr_ok ho hc hi hr hx
  have htest := accessed_iff (ho.afterReads reads)
  obtain ⟨⟨cpu, earlier⟩, mem, accesses⟩ := u
  change cpu = s.v.cpu at hcpu
  subst hcpu
  unfold vstRound
  by_cases hact : s.v.cpu.accessed d i = true
  · have hlt := hi.lt_vlmax hc
    obtain ⟨hmul, ha⟩ := hdest hact
    rw [vlmaxOf_eq hc.sew hmul] at hlt
    have hplace : vregPlace d.dest i s.v.cpu.vsew s.v.cpu.vlmul true = some (slot s.v.cpu.vsew d.dest i) :=
      vregPlace_group hc.sew hmul ha hlt
    refine ⟨reads ++ [(i : Int)], ?_⟩
    refine (bind_ok haddr).trans ((bind_ok (getMask_run hc hi)).trans ?_)
    rw [if_pos (htest.mpr hact), if_pos hact, get_bind]
    refine (bind_ok (onRegs_ok (getVreg_eq hplace))).trans ?_
    have hplain : extendElem s.v.cpu.vsew false (s.v.cpu.elem s.v.cpu.vsew d.dest i) =
        (s.v.cpu.elem s.v.cpu.vsew d.dest i).setWidth 64 := if_neg fun h => Bool.false_ne_true h.1
    unfold Machine.elem at hplain
    unfold VMemState.stored VMemState.afterReads Machine.elem
    rw [← hplain, ← List.append_assoc]
    rfl
  · refine ⟨reads, ?_⟩
    refine (bind_ok haddr).trans ((bind_ok (getMask_run hc hi)).trans ?_)
    rw [if_neg (mt htest.mp hact), if_neg hact]
    rfl

theorem vstRound_of_ok {y : Word} {t : VMemState μ} (hc : Configured s.v.cpu) (hcpu : u.v.cpu = s.v.cpu)
    (hi : s.v.cpu.Body i) (hx : mode ≠ .indexed → x = s.v.cpu.loopAddr mode d i)
    (h : vstRound B mode d (d.width s.v.cpu.vsew) (s.v.cpu.gpr d.src1) i x u = .ok y t) :
    IndexReadable s.v.cpu mode d ∧
      (s.v.cpu.accessed d i = true → s.v.cpu.vlmul ≤ 3 ∧ Aligned s.v.cpu.vlmul d.dest) := by
  have ho := sameOperands_of_cpu (d := d) (i := i) hcpu
  unfold vstRound at h
  obtain ⟨addr, u', haddr, hrest⟩ := ok_of_bind h
  have hr := indexAddr_readable ho haddr
  refine ⟨hr, fun hact => ?_⟩
  obtain ⟨reads, -, haddr'⟩ := indexAddr_ok ho hc hi hr hx
  cases haddr.symm.trans haddr'
  obtain ⟨mask, w, hmask, hrest⟩ := ok_of_bind hrest
  cases (getMask_run hc hi).symm.trans hmask
  rw [if_pos ((accessed_iff (ho.afterReads reads)).mpr hact), get_bind] at hrest
  obtain ⟨_, v, hget, _⟩ := ok_of_bind hrest
  obtain ⟨v, hv, rfl⟩ := onRegs_of_ok hget
  change getVreg d.dest i u.v.cpu.vsew u.v.cpu.vlmul false true _ = _ at hv
  rw [hcpu] at hv
  by_contra hdest
  have hnone : vregPlace d.dest i s.v.cpu.vsew s.v.cpu.vlmul true = none :=
    if_neg fun hall => hdest ⟨hall.1, hall.2.2.1 rfl⟩
  unfold getVreg at hv
  rw [hnone] at hv
  cases hv

end Rounds

section Loops

variable {μ : Type} {B : Bus μ} {mode : VMode} {k : VKind} {d : VldstDecode} {s u t : VMemState μ} {i n : Nat}
  {x : Word} {second : BitVec 5} {addr : Nat → Word}

/-- What is known of the operands before the round with index `i`, and what was accessed. -/
structure LoopFacts (k : VKind) (mode : VMode) (d : VldstDecode) (s : VMemState μ) (i : Nat) (x : Word)
    (u : VMemState μ) : Prop where
  addr : mode ≠ .indexed → x = s.v.cpu.loopAddr mode d i
  accesses : u.accesses = s.accesses ++
    (s.movedBefore d i).map (s.v.cpu.access d k (s.v.cpu.loopAddr mode d))

theorem LoopFacts.start : LoopFacts k mode d s (s.v.cpu.csr .vstart).toNat (s.v.cpu.gpr d.src1) s := by
  constructor
  · intro hmode
    cases mode with
    | unit =>
      unfold Machine.loopAddr
      dsimp only
      rw [Nat.sub_self, Nat.zero_mul, BitVec.add_zero]
    | strided =>
      unfold Machine.loopAddr
      dsimp only
      rw [Nat.sub_self, BitVec.zero_mul, BitVec.add_zero]
    | indexed => exact absurd rfl hmode
  · unfold VMemState.movedBefore
    rw [Nat.sub_self]
    exact (List.append_nil s.accesses).symm

theorem LoopFacts.next {u' : VMemState μ} (h : LoopFacts k mode d s i x u) (hi : (s.v.cpu.csr .vstart).toNat ≤ i)
    (hu : u'.accesses = u.accesses ++ if s.v.cpu.accessed d i then
      [s.v.cpu.access d k (s.v.cpu.loopAddr mode d) i] else []) :
    LoopFacts k mode d s (i + 1) (nextAddr mode d (d.width s.v.cpu.vsew) (s.v.cpu.loopAddr mode d i)) u' := by
  constructor
  · exact fun hmode => nextAddr_loop hi hmode
  · rw [hu, h.accesses, movedBefore_succ hi, List.map_append, List.append_assoc]
    cases s.v.cpu.accessed d i <;> rfl

/-- Before the round with index `i` of a load. -/
structure LoadingFacts (B : Bus μ) (mode : VMode) (isSigned : Bool) (d : VldstDecode) (s : VMemState μ) (i : Nat)
    (x : Word) (u : VMemState μ) : Prop extends LoopFacts (.load isSigned) mode d s i x u where
  mem : u.mem = s.mem
  regs : Before (vlmaxOf s.v.cpu.vsew s.v.cpu.vlmul) s.v (slot s.v.cpu.vsew d.dest)
    (fun j => s.v.cpu.accessed d j = true) (fun j => some (d.loaded s.v.cpu isSigned
      (B.lm (s.v.cpu.loopAddr mode d j) (d.width s.v.cpu.vsew) s.mem))) i u.v

/-- Before the round with index `i` of a store. -/
structure StoringFacts (B : Bus μ) (mode : VMode) (d : VldstDecode) (s : VMemState μ) (i : Nat) (x : Word)
    (u : VMemState μ) : Prop extends LoopFacts .store mode d s i x u where
  cpu : u.v.cpu = s.v.cpu
  mem : u.mem = (s.movedBefore d i).foldl (fun mem j => B.sm (s.v.cpu.loopAddr mode d j)
    (d.width s.v.cpu.vsew) ((s.v.cpu.elem s.v.cpu.vsew d.dest j).setWidth 64) mem) s.mem

theorem LoadingFacts.operands {isSigned : Bool} (h : LoadingFacts B mode isSigned d s i x u)
    (hl : VldstLegal s.v.cpu d (.load isSigned) mode second) (hi : s.v.cpu.Body i) : SameOperands s u d i := by
  have hsew := hl.configured.sew
  have hlt := hi.lt_vlmax hl.configured
  have hcpu := h.regs.1
  constructor
  · rw [hcpu]
    rfl
  · rw [hcpu]
    rfl
  · intro hvm
    refine maskBit_before h.regs fun k _ hk _ hreg => ?_
    exact absurd hreg.symm (element_ne_zero hsew (hl.dest (by simp)) (hk.trans hlt) (hl.mask (by simp) hvm))
  · intro _ ha
    refine elem_before h.regs fun k _ hk _ => ?_
    exact element_apart hsew (fun _ => ha) (hl.dest (by simp)) hlt (hk.trans hlt) (Nat.ne_of_gt hk)

/-- A round ends if, and only if, its reads are allowed. -/
def RoundAllowed (m : Machine) (mode : VMode) (d : VldstDecode) (i : Nat) : Prop :=
  IndexReadable m mode d ∧ (m.accessed d i = true → m.vlmul ≤ 3 ∧ Aligned m.vlmul d.dest)

theorem loading_step {isSigned : Bool} (hl : VldstLegal s.v.cpu d (.load isSigned) mode second)
    (hi : s.v.cpu.Body i) (h : LoadingFacts B mode isSigned d s i x u) (hgood : RoundAllowed s.v.cpu mode d i) :
    ∃ y u', vldRound B mode isSigned d (d.width s.v.cpu.vsew) (s.v.cpu.gpr d.src1) i x u = .ok y u' ∧
      LoadingFacts B mode isSigned d s (i + 1) y u' := by
  obtain ⟨reads, hbound, hrun⟩ := vldRound_ok hl (h.operands hl hi) hi hgood.1 hgood.2 h.addr
  have hregs := h.regs.reads hbound
  refine ⟨_, _, hrun, ?_⟩
  by_cases hact : s.v.cpu.accessed d i = true
  · rw [if_pos hact]
    refine ⟨h.toLoopFacts.next hi.1 ?_, h.mem, ?_⟩
    · rw [if_pos hact]
      rfl
    · have hwrite := hregs.write hi.1 hact rfl
      rw [← h.mem] at hwrite ⊢
      exact hwrite
  · rw [if_neg hact]
    refine ⟨h.toLoopFacts.next hi.1 ?_, h.mem, hregs.skip hi.1 hact⟩
    rw [if_neg hact, List.append_nil]
    rfl

theorem storing_step (hl : VldstLegal s.v.cpu d .store mode second) (hi : s.v.cpu.Body i)
    (h : StoringFacts B mode d s i x u) (hgood : RoundAllowed s.v.cpu mode d i) :
    ∃ y u', vstRound B mode d (d.width s.v.cpu.vsew) (s.v.cpu.gpr d.src1) i x u = .ok y u' ∧
      StoringFacts B mode d s (i + 1) y u' := by
  obtain ⟨reads, hrun⟩ := vstRound_ok hl h.cpu hi hgood.1 hgood.2 h.addr
  refine ⟨_, _, hrun, ?_⟩
  by_cases hact : s.v.cpu.accessed d i = true
  · rw [if_pos hact]
    refine ⟨h.toLoopFacts.next hi.1 ?_, h.cpu, ?_⟩
    · rw [if_pos hact]
      rfl
    · rw [movedBefore_succ hi.1, if_pos hact, List.foldl_append, ← h.mem]
      rfl
  · rw [if_neg hact]
    refine ⟨h.toLoopFacts.next hi.1 ?_, h.cpu, ?_⟩
    · rw [if_neg hact, List.append_nil]
      rfl
    · rw [movedBefore_succ hi.1, if_neg hact, List.append_nil]
      exact h.mem

theorem allowed_iff {m : Machine} : (∀ i, m.Body i → RoundAllowed m mode d i) ↔ d.Completes m mode := by
  constructor
  · intro h
    constructor
    · rintro hmode ⟨i, hi⟩
      exact (h i hi).1 hmode
    · rintro ⟨i, hi, hact⟩
      exact (h i hi).2 hact
  · intro h i hi
    exact ⟨fun hmode => h.1 hmode ⟨i, hi⟩, fun hact => h.2 ⟨i, hi, hact⟩⟩

/-- A loop ends when no assertion stops it. -/
theorem access_loop {step : Nat → Word → VMemExec μ Word} {facts : Nat → Word → VMemState μ → Prop}
    (h0 : facts (s.v.cpu.csr .vstart).toNat (s.v.cpu.gpr d.src1) s)
    (hstep : ∀ i x u, s.v.cpu.Body i → facts i x u → RoundAllowed s.v.cpu mode d i →
      ∃ y u', step i x u = .ok y u' ∧ facts (i + 1) y u')
    (hback : ∀ i x u y u', s.v.cpu.Body i → facts i x u → step i x u = .ok y u' →
      RoundAllowed s.v.cpu mode d i) :
    ((∃ y u, folded step (s.v.cpu.csr .vstart).toNat s.v.cpu.rounds (s.v.cpu.gpr d.src1) s = .ok y u) ↔
      d.Completes s.v.cpu mode) ∧
    ∀ y u, folded step (s.v.cpu.csr .vstart).toNat s.v.cpu.rounds (s.v.cpu.gpr d.src1) s = .ok y u →
      facts ((s.v.cpu.csr .vstart).toNat + s.v.cpu.rounds) y u := by
  have hbody : ∀ i, (s.v.cpu.csr .vstart).toNat ≤ i → i < (s.v.cpu.csr .vstart).toNat + s.v.cpu.rounds →
      s.v.cpu.Body i := fun i h1 h2 => Machine.body_iff.mpr ⟨h1, h2⟩
  obtain ⟨hends, hfacts⟩ := folded_ok_iff h0 (fun i x u h1 h2 => hstep i x u (hbody i h1 h2))
    fun i x u y u' h1 h2 => hback i x u y u' (hbody i h1 h2)
  refine ⟨hends.trans ?_, hfacts⟩
  rw [← allowed_iff]
  constructor
  · intro h i hi
    obtain ⟨h1, h2⟩ := Machine.body_iff.mp hi
    exact h i h1 h2
  · exact fun h i h1 h2 => h i (hbody i h1 h2)

theorem LoopFacts.all (h : LoopFacts k mode d s ((s.v.cpu.csr .vstart).toNat + s.v.cpu.rounds) x u) :
    u.accesses = s.accesses ++ (s.v.cpu.accessedIn d (s.v.cpu.csr .vstart).toNat s.v.cpu.rounds).map
      (s.v.cpu.access d k (s.v.cpu.loopAddr mode d)) := by
  have hall := h.accesses
  unfold VMemState.movedBefore at hall
  rwa [Nat.add_sub_cancel_left] at hall

theorem mem_accessedIn {m : Machine} : i ∈ m.accessedIn d (m.csr .vstart).toNat m.rounds ↔
    m.Body i ∧ m.accessed d i = true := by
  unfold Machine.accessedIn
  rw [List.mem_filter, List.mem_range'_1, Machine.body_iff]

theorem foldl_sm_other {w : Nat} {value : Nat → Word} {b : Word} (l : List Nat) (mem : μ)
    (h : ∀ j ∈ l, w ≤ (b - addr j).toNat) :
    B.byte (l.foldl (fun mem j => B.sm (addr j) w (value j) mem) mem) b = B.byte mem b := by
  induction l generalizing mem with
  | nil => rfl
  | cons j l ih =>
    rw [List.foldl_cons, ih _ fun i hi => h i (List.mem_cons_of_mem j hi)]
    exact B.sm_other _ _ _ _ _ (h j List.mem_cons_self)

theorem LoadingFacts.moved {isSigned : Bool} (hl : VldstLegal s.v.cpu d (.load isSigned) mode second)
    (h : LoadingFacts B mode isSigned d s ((s.v.cpu.csr .vstart).toNat + s.v.cpu.rounds) x u) :
    Moved B (.load isSigned) d (s.v.cpu.loopAddr mode d) s
      { u with v := { u.v with cpu := u.v.cpu.setCsr .vstart 0 } } := by
  have hsew := hl.configured.sew
  constructor
  · exact h.toLoopFacts.all
  · intro sg heq
    cases heq
    have hinj : ∀ i j, s.v.cpu.Body i → s.v.cpu.Body j →
        slot s.v.cpu.vsew d.dest i = slot s.v.cpu.vsew d.dest j → i = j := fun i j hi hj =>
      element_inj hsew (hl.dest (by simp)) (hi.lt_vlmax hl.configured) (hj.lt_vlmax hl.configured)
    obtain ⟨hvalue, hothers⟩ := vrBefore_end (congrArg Machine.vr h.regs.1)
      (fun i _ => slot_fits hsew d.dest i) hinj
    refine ⟨h.mem, fun i hi hact => hvalue i _ hi hact rfl, hothers, ?_⟩
    rw [h.regs.1]
    rfl
  · intro heq
    cases heq
  · intro b _
    exact congrArg (fun mem => B.byte mem b) h.mem

theorem StoringFacts.moved
    (h : StoringFacts B mode d s ((s.v.cpu.csr .vstart).toNat + s.v.cpu.rounds) x u) :
    Moved B .store d (s.v.cpu.loopAddr mode d) s
      { u with v := { u.v with cpu := u.v.cpu.setCsr .vstart 0 } } := by
  have hmem := h.mem
  unfold VMemState.movedBefore at hmem
  rw [Nat.add_sub_cancel_left] at hmem
  constructor
  · exact h.toLoopFacts.all
  · intro sg heq
    cases heq
  · intro _
    refine ⟨?_, hmem⟩
    change u.v.cpu.setCsr .vstart 0 = _
    rw [h.cpu]
  · intro b hb
    change B.byte u.mem b = _
    rw [hmem]
    apply foldl_sm_other
    intro j hj
    obtain ⟨hbody, hact⟩ := mem_accessedIn.mp hj
    exact hb j hbody hact

theorem exec_of_loop {loop : VMemExec μ Word} {run : VMemExec μ Unit} {ends : Prop} {moved : VMemState μ → Prop}
    (hrun : run s = (do let _ ← loop; resetVstart : VMemExec μ Unit) s)
    (hends : (∃ y u, loop s = .ok y u) ↔ ends)
    (hmoved : ∀ y u, loop s = .ok y u → moved { u with v := { u.v with cpu := u.v.cpu.setCsr .vstart 0 } }) :
    ((∃ t, run s = .ok () t) ↔ ends) ∧ ∀ t, run s = .ok () t → moved t := by
  rw [hrun, ← hends]
  constructor
  · constructor
    · rintro ⟨t, ht⟩
      obtain ⟨y, u, hloop, -⟩ := ok_of_bind ht
      exact ⟨y, u, hloop⟩
    · rintro ⟨y, u, hloop⟩
      exact ⟨_, bind_ok hloop⟩
  · intro t ht
    obtain ⟨y, u, hloop, hlast⟩ := ok_of_bind ht
    cases hlast
    exact hmoved y u hloop

/-- The executors do with the addresses of the loop what they are to do with those of the elements. -/
theorem exec_moves (hl : VldstLegal s.v.cpu d k mode second) :
    ((∃ t, k.exec B mode d s = .ok () t) ↔ d.Completes s.v.cpu mode) ∧
      ∀ t, k.exec B mode d s = .ok () t → Moved B k d (s.v.cpu.loopAddr mode d) s t := by
  cases k with
  | load isSigned =>
    have h0 : LoadingFacts B mode isSigned d s (s.v.cpu.csr .vstart).toNat (s.v.cpu.gpr d.src1) s :=
      ⟨LoopFacts.start, rfl, before_start _⟩
    obtain ⟨hends, hfacts⟩ := access_loop h0 (fun i x u hi h hgood => loading_step hl hi h hgood)
      fun i x u y u' hi h hround => vldRound_of_ok hl.configured (h.operands hl hi) hi h.addr hround
    refine exec_of_loop ?_ hends fun y u h => (hfacts y u h).moved hl
    change vld B mode isSigned d s = _
    unfold vld
    rw [get_bind, if_neg (Nat.not_lt.mpr (hl.load (by simp)))]
  | store =>
    have h0 : StoringFacts B mode d s (s.v.cpu.csr .vstart).toNat (s.v.cpu.gpr d.src1) s := by
      refine ⟨LoopFacts.start, rfl, ?_⟩
      unfold VMemState.movedBefore
      rw [Nat.sub_self]
      rfl
    obtain ⟨hends, hfacts⟩ := access_loop h0 (fun i x u hi h hgood => storing_step hl hi h hgood)
      fun i x u y u' hi h hround => vstRound_of_ok hl.configured h.cpu hi h.addr hround
    refine exec_of_loop ?_ hends fun y u h => (hfacts y u h).moved
    change vst B mode d s = _
    unfold vst
    rw [get_bind, if_neg (Nat.not_lt.mpr (hl.store rfl))]

end Loops

section Claim

variable {μ : Type} {B : Bus μ} {mode : VMode} {k : VKind} {d : VldstDecode} {s t : VMemState μ} {i : Nat}
  {second : BitVec 5} {addr other : Nat → Word}

theorem Moved.congr (h : Moved B k d addr s t)
    (heq : ∀ i, s.v.cpu.Body i → s.v.cpu.accessed d i = true → addr i = other i) : Moved B k d other s t := by
  have hlist : ∀ i ∈ s.v.cpu.accessedIn d (s.v.cpu.csr .vstart).toNat s.v.cpu.rounds, addr i = other i := by
    intro i hi
    obtain ⟨hb, hact⟩ := mem_accessedIn.mp hi
    exact heq i hb hact
  constructor
  · rw [h.accesses]
    congr 1
    refine List.map_congr_left fun i hi => ?_
    unfold Machine.access
    rw [hlist i hi]
  · intro isSigned hk
    obtain ⟨hmem, hw⟩ := h.load isSigned hk
    refine ⟨hmem, ?_, hw.others, hw.rest⟩
    intro i hi hact
    rw [← heq i hi hact]
    exact hw.value i hi hact
  · intro hk
    obtain ⟨hcpu, hmem⟩ := h.store hk
    refine ⟨hcpu, hmem.trans ?_⟩
    exact List.foldl_ext _ _ _ fun mem i hi => by rw [hlist i hi]
  · intro b hb
    apply h.bytes
    intro i hi hact
    rw [heq i hi hact]
    exact hb i hi hact

theorem Moved.access_eq {d' : VldstDecode} (h : Moved B k d addr s t) (h' : Moved B k d' other s t)
    (hsame : ∀ i, s.v.cpu.accessed d' i = s.v.cpu.accessed d i) :
    ∀ i, s.v.cpu.Body i → s.v.cpu.accessed d i = true →
      s.v.cpu.access d k addr i = s.v.cpu.access d' k other i := by
  have hacc := h'.accesses
  unfold Machine.accessedIn at hacc
  rw [List.filter_congr fun i _ => hsame i] at hacc
  have hmap := List.append_cancel_left (h.accesses.symm.trans hacc)
  intro i hi hact
  exact List.map_inj_left.mp hmap i (mem_accessedIn.mpr ⟨hi, hact⟩)

section Dispatch

variable {instr : BitVec 32} {mmu : MmuMode} {old : VldstDecode} {e : VldstEntry}

theorem vldstTable_eq {rows : List (BitVec 3 × VKind × VMode)} {d' : VldstDecode}
    (h : vldstTable d' instr rows = some (d, k, mode)) : d = d' ∧ ∃ key, rows.lookup key = some (k, mode) := by
  obtain ⟨row, hrow, heq⟩ := Option.map_eq_some_iff.mp h
  cases heq
  exact ⟨rfl, _, hrow⟩

theorem vldstRows_eq {direct translate : VldstDecode → BitVec 32 → Option VldstEntry}
    (h : vldstRows d instr mmu direct translate = some e) :
    direct (d.fields instr) instr = some e ∨ translate (d.fields instr) instr = some e := by
  unfold vldstRows at h
  split at h
  · cases mmu with
    | direct => exact .inl h
    | translate => exact .inr h
    | dynamic => cases h
  · cases h

theorem vstoreRows_store {key : BitVec 3} (h : vstoreRows.lookup key = some (k, mode)) : k = .store := by
  have hall : ∀ key : BitVec 3, ((vstoreRows.lookup key).all fun r => r.1 = .store) = true := by decide
  have hk := hall key
  rw [h] at hk
  exact of_decide_eq_true hk

/-- What the record holds: only `table_vstore_mmu` leaves another group than the one that is named. -/
theorem vldstDispatch_record (h : vldstDispatch instr mmu old = some (d, k, mode)) :
    d.vWidth = [1, 0, 0, 0, 0, 2, 4, 8].getD (instr.extractLsb' 12 3).toNat 0 ∧
      (k ≠ .store → d.named instr = d) := by
  unfold vldstDispatch at h
  split at h
  · obtain h | h := vldstRows_eq h
    · obtain ⟨rfl, -⟩ := vldstTable_eq h
      exact ⟨rfl, fun _ => rfl⟩
    · obtain ⟨rfl, -⟩ := vldstTable_eq h
      exact ⟨rfl, fun _ => rfl⟩
  split at h
  · obtain h | h := vldstRows_eq h
    · obtain ⟨rfl, -⟩ := vldstTable_eq h
      exact ⟨rfl, fun _ => rfl⟩
    · obtain ⟨rfl, _, hrow⟩ := vldstTable_eq h
      exact ⟨rfl, fun hk => absurd (vstoreRows_store hrow) hk⟩
  · cases h

theorem VldstDecode.width_bounds {vsew : Nat} (hsew : vsew ≤ 3)
    (hd : d.vWidth = [1, 0, 0, 0, 0, 2, 4, 8].getD (instr.extractLsb' 12 3).toNat 0) :
    1 ≤ d.width vsew ∧ d.width vsew ≤ 8 := by
  have htable : ∀ n < 8, ∀ v ≤ 3, 1 ≤ (if [1, 0, 0, 0, 0, 2, 4, 8].getD n 0 = 0 then 2 ^ v
      else [1, 0, 0, 0, 0, 2, 4, 8].getD n 0) ∧ (if [1, 0, 0, 0, 0, 2, 4, 8].getD n 0 = 0 then 2 ^ v
      else [1, 0, 0, 0, 0, 2, 4, 8].getD n 0) ≤ 8 := by decide
  unfold VldstDecode.width
  rw [hd]
  exact htable _ (instr.extractLsb' 12 3).isLt vsew hsew

/-- A store from another group is the store from the named one when their elements are the same. -/
theorem Moved.named_iff (hsew : s.v.cpu.vsew ≤ 3) (hrec : k ≠ .store → d.named instr = d)
    (h : Moved B k d addr s t) :
    Moved B k (d.named instr) addr s t ↔ (k = .store → ∀ i, s.v.cpu.Body i → s.v.cpu.accessed d i = true →
      s.v.cpu.elem s.v.cpu.vsew d.dest i = s.v.cpu.elem s.v.cpu.vsew (instr.extractLsb' 7 5) i) := by
  cases k with
  | load isSigned =>
    rw [hrec (by simp)]
    exact iff_of_true h fun hk => by cases hk
  | store =>
    constructor
    · intro h' _ i hi hact
      have hdata := congrArg (fun a => a.2.2) (h.access_eq h' (fun _ => rfl) i hi hact)
      have hword := congrArg BitVec.toNat (Option.some.inj hdata)
      have hle : sew s.v.cpu.vsew ≤ 64 := sew_le hsew
      rw [BitVec.toNat_setWidth_of_le hle, BitVec.toNat_setWidth_of_le hle] at hword
      exact BitVec.eq_of_toNat_eq hword
    · intro hsame
      obtain ⟨hcpu, hmem⟩ := h.store rfl
      have helem : ∀ i ∈ s.v.cpu.accessedIn d (s.v.cpu.csr .vstart).toNat s.v.cpu.rounds,
          s.v.cpu.elem s.v.cpu.vsew d.dest i = s.v.cpu.elem s.v.cpu.vsew (instr.extractLsb' 7 5) i := by
        intro i hi
        obtain ⟨hb, hact⟩ := mem_accessedIn.mp hi
        exact hsame rfl i hb hact
      constructor
      · rw [h.accesses]
        congr 1
        refine List.map_congr_left fun i hi => ?_
        unfold Machine.access
        dsimp only
        rw [helem i hi]
        rfl
      · intro isSigned hk
        cases hk
      · intro _
        refine ⟨hcpu, hmem.trans ?_⟩
        exact List.foldl_ext _ _ _ fun mem i hi => by rw [helem i hi]; rfl
      · exact h.bytes

end Dispatch

/-- The address of the loop is that of the element when the condition holds. -/
theorem addresses_iff {m : Machine} (hc : Configured m) (hw : 1 ≤ d.width m.vsew ∧ d.width m.vsew ≤ 8)
    (hi : m.Body i) :
    m.loopAddr mode d i = m.elemAddr d mode second i ↔ d.Addresses m mode second i := by
  cases mode with
  | unit =>
    unfold Machine.loopAddr Machine.elemAddr VldstDecode.Addresses
    dsimp only
    rw [BitVec.add_right_inj]
    have hlt := Nat.lt_of_lt_of_le hi.2 hc.vl_le
    have hle := hi.1
    unfold vlen at hlt
    have h1 : (i - (m.csr .vstart).toNat) * d.width m.vsew ≤ i * d.width m.vsew :=
      Nat.mul_le_mul_right _ (Nat.sub_le i _)
    have h2 : i * d.width m.vsew ≤ 128 * 8 := Nat.mul_le_mul (Nat.le_of_lt hlt) hw.2
    constructor
    · intro heq
      have hnat := congrArg BitVec.toNat heq
      rw [BitVec.toNat_ofNat, BitVec.toNat_ofNat, Nat.mod_eq_of_lt (by omega), Nat.mod_eq_of_lt (by omega)] at hnat
      have hsub := Nat.eq_of_mul_eq_mul_right hw.1 hnat
      omega
    · intro hzero
      rw [hzero, Nat.sub_zero]
  | strided => exact BitVec.add_right_inj _
  | indexed => exact BitVec.add_right_inj _

/-- The state, set to access the elements from `a` on and below `b`. -/
def VMemState.between (s : VMemState μ) (a b : Nat) : VMemState μ :=
  { s with
    v := { s.v with cpu := (s.v.cpu.setCsr .vstart (BitVec.ofNat 64 a)).setCsr .vl (BitVec.ofNat 64 b) } }

theorem between_bounds {a b : Nat} (ha : a ≤ vlen) (hb : b ≤ vlen) :
    ((s.between a b).v.cpu.csr .vstart).toNat = a ∧ ((s.between a b).v.cpu.csr .vl).toNat = b := by
  unfold vlen at ha hb
  have h1 : (BitVec.ofNat 64 a).toNat = a := by
    rw [BitVec.toNat_ofNat, Nat.mod_eq_of_lt (by omega)]
  have h2 : (BitVec.ofNat 64 b).toNat = b := by
    rw [BitVec.toNat_ofNat, Nat.mod_eq_of_lt (by omega)]
  exact ⟨h1, h2⟩

theorem between_body {a b : Nat} (ha : a ≤ vlen) (hb : b ≤ vlen) :
    (s.between a b).v.cpu.Body i ↔ a ≤ i ∧ i < b := by
  obtain ⟨h1, h2⟩ := between_bounds (s := s) ha hb
  unfold Machine.Body
  rw [h1, h2]

theorem between_accessed {a b : Nat} (ha : a ≤ vlen) (hb : b ≤ vlen) :
    (s.between a b).v.cpu.accessedIn d ((s.between a b).v.cpu.csr .vstart).toNat (s.between a b).v.cpu.rounds =
      s.v.cpu.accessedIn d a (b - a) := by
  obtain ⟨h1, h2⟩ := between_bounds (s := s) ha hb
  unfold Machine.rounds
  rw [h1, h2]
  rfl

theorem packed_ext {w : Nat} {f g : BitVec 5 → BitVec 128} {r : BitVec 5} (hw : 0 < w)
    (h : ∀ q, Packed.get w f (r, q) = Packed.get w g (r, q)) : f r = g r := by
  apply BitVec.eq_of_getLsbD_eq
  intro b _
  have hbit := congrArg (fun x : BitVec w => x.getLsbD (b % w)) (h (b / w))
  unfold Packed.get at hbit
  dsimp only at hbit
  rw [BitVec.getLsbD_extractLsb', BitVec.getLsbD_extractLsb', decide_eq_true (Nat.mod_lt b hw), Bool.true_and,
    Bool.true_and, Nat.mul_comm, Nat.div_add_mod] at hbit
  exact hbit

theorem setCsr_comm (m : Machine) {a b : Csr} (h : a ≠ b) (v w : Word) :
    (m.setCsr a v).setCsr b w = (m.setCsr b w).setCsr a v := by
  unfold Machine.setCsr
  rw [Function.update_comm h.symm]

theorem resetVstart_between (s : VMemState μ) (a b : Nat) (vr : BitVec 5 → BitVec 128) :
    ({ (s.between a b).v.cpu with vr := vr } : Machine).setCsr .vstart 0 =
      (({ s.v.cpu with vr := vr } : Machine).setCsr .vstart 0).setCsr .vl (BitVec.ofNat 64 b) := by
  change ((({ s.v.cpu with vr := vr } : Machine).setCsr .vstart _).setCsr .vl _).setCsr .vstart 0 = _
  rw [setCsr_comm _ (by decide), Machine.setCsr_setCsr]

/-- What the first elements leave for the others. -/
structure Resumable (d : VldstDecode) (mode : VMode) (second : BitVec 5) (j : Nat) (s t : VMemState μ) : Prop where
  rest : t.v.cpu =
    (({ s.v.cpu with vr := t.v.cpu.vr } : Machine).setCsr .vstart 0).setCsr .vl (BitVec.ofNat 64 j)
  accessed : ∀ i, t.v.cpu.accessed d i = s.v.cpu.accessed d i
  index : mode = .indexed → ∀ i, j ≤ i → i < (s.v.cpu.csr .vl).toNat →
    t.v.cpu.elem s.v.cpu.vsew second i = s.v.cpu.elem s.v.cpu.vsew second i

variable {j : Nat} {t1 t2 : VMemState μ}

theorem resumable (hl : VldstLegal s.v.cpu d k mode second) (hj : j ≤ (s.v.cpu.csr .vl).toNat)
    (h : Moved B k d addr (s.between 0 j) t1) : Resumable d mode second j s t1 := by
  have hsew := hl.configured.sew
  have hvl := hl.configured.vl
  have hlen := hl.configured.vl_le
  have hbody : ∀ i, (s.between 0 j).v.cpu.Body i ↔ 0 ≤ i ∧ i < j := fun i =>
    between_body (Nat.zero_le _) (hj.trans hlen)
  cases k with
  | load isSigned =>
    obtain ⟨-, hw⟩ := h.load isSigned rfl
    constructor
    · exact hw.rest.trans (resetVstart_between s 0 j t1.v.cpu.vr)
    · intro i
      unfold Machine.accessed
      cases hvm : d.vm with
      | true => rfl
      | false =>
        have hreg : t1.v.cpu.vr 0 = s.v.cpu.vr 0 := by
          apply packed_ext (Nat.lt_of_lt_of_le (by decide) (eight_le_sew s.v.cpu.vsew))
          intro q
          apply hw.others
          intro i hi _ heq
          have hlt := ((hbody i).mp hi).2
          exact element_ne_zero hsew (hl.dest (by simp)) (by omega) (hl.mask (by simp) hvm) (congrArg Prod.fst heq)
        unfold Machine.maskBit
        rw [hreg]
    · intro hmode i h1 h2
      apply hw.others
      intro q hq _
      have hlt := ((hbody q).mp hq).2
      have hq' : q < vlmaxOf s.v.cpu.vsew s.v.cpu.vlmul := by omega
      have hi' : i < vlmaxOf s.v.cpu.vsew s.v.cpu.vlmul := by omega
      exact element_ne hsew (hl.dest (by simp)) (hl.index hmode) hq' hi' (by omega)
  | store =>
    obtain ⟨hcpu, -⟩ := h.store rfl
    have hvr : t1.v.cpu.vr = s.v.cpu.vr := by rw [hcpu]; rfl
    constructor
    · rw [hvr]
      exact hcpu.trans (resetVstart_between s 0 j s.v.cpu.vr)
    · intro i
      unfold Machine.accessed Machine.maskBit
      rw [hvr]
    · intro _ i _ _
      unfold Machine.elem
      rw [hvr]

theorem Resumable.elemAddr_eq (h : Resumable d mode second j s t1) (h1 : j ≤ i) (h2 : i < (s.v.cpu.csr .vl).toNat) :
    t1.v.cpu.elemAddr d mode second i = s.v.cpu.elemAddr d mode second i := by
  have hgpr : t1.v.cpu.gpr = s.v.cpu.gpr := by rw [h.rest]; rfl
  have hvsew : t1.v.cpu.vsew = s.v.cpu.vsew := by rw [h.rest]; rfl
  unfold Machine.elemAddr
  rw [hgpr]
  cases mode with
  | unit =>
    dsimp only
    rw [hvsew]
  | strided => rfl
  | indexed =>
    dsimp only
    rw [hvsew, h.index rfl i h1 h2]

theorem Resumable.accessedIn (h : Resumable d mode second j s t1) (a b : Nat) :
    t1.v.cpu.accessedIn d a b = s.v.cpu.accessedIn d a b :=
  List.filter_congr fun i _ => h.accessed i

theorem Resumable.between_cpu (h : Resumable d mode second j s t1) (n : Nat) (vr : BitVec 5 → BitVec 128) :
    ({ (t1.between j n).v.cpu with vr := vr } : Machine).setCsr .vstart 0 =
      ({ (s.between 0 n).v.cpu with vr := vr } : Machine).setCsr .vstart 0 := by
  have hcpu : ({ t1.v.cpu with vr := vr } : Machine) =
      (({ s.v.cpu with vr := vr } : Machine).setCsr .vstart 0).setCsr .vl (BitVec.ofNat 64 j) := by
    rw [h.rest]
    rfl
  rw [resetVstart_between t1, resetVstart_between s, hcpu, setCsr_comm _ (show Csr.vl ≠ .vstart by decide),
    Machine.setCsr_setCsr, Machine.setCsr_setCsr]

/-- The elements of the parts, when the whole ends at `n`. -/
structure Parts (d : VldstDecode) (mode : VMode) (second : BitVec 5) (j n : Nat) (s t1 : VMemState μ) : Prop where
  first : (s.between 0 j).v.cpu.accessedIn d ((s.between 0 j).v.cpu.csr .vstart).toNat (s.between 0 j).v.cpu.rounds =
    s.v.cpu.accessedIn d 0 j
  others : (t1.between j n).v.cpu.accessedIn d ((t1.between j n).v.cpu.csr .vstart).toNat
    (t1.between j n).v.cpu.rounds = s.v.cpu.accessedIn d j (n - j)
  whole : (s.between 0 n).v.cpu.accessedIn d ((s.between 0 n).v.cpu.csr .vstart).toNat (s.between 0 n).v.cpu.rounds =
    s.v.cpu.accessedIn d 0 j ++ s.v.cpu.accessedIn d j (n - j)
  addr : ∀ i ∈ s.v.cpu.accessedIn d j (n - j),
    (t1.between j n).v.cpu.elemAddr d mode second i = s.v.cpu.elemAddr d mode second i
  vsew : t1.v.cpu.vsew = s.v.cpu.vsew

theorem Resumable.parts {n : Nat} (hr : Resumable d mode second j s t1) (hj : j ≤ n) (hn : n ≤ vlen)
    (hvl : (s.v.cpu.csr .vl).toNat = n) : Parts d mode second j n s t1 := by
  constructor
  · exact between_accessed (Nat.zero_le vlen) (hj.trans hn)
  · rw [between_accessed (hj.trans hn) hn, hr.accessedIn]
  · rw [between_accessed (Nat.zero_le vlen) hn]
    unfold Machine.accessedIn
    rw [← List.filter_append]
    congr 1
    have happend := List.range'_append_1 (s := 0) (m := j) (n := n - j)
    rw [Nat.zero_add, Nat.add_sub_cancel' hj] at happend
    exact happend.symm
  · intro i hi
    obtain ⟨hmem, -⟩ := List.mem_filter.mp hi
    obtain ⟨hge, hlt⟩ := List.mem_range'_1.mp hmem
    exact hr.elemAddr_eq hge (by omega)
  · rw [hr.rest]
    rfl

theorem resume_mem {n : Nat} (hp : Parts d mode second j n s t1)
    (h1 : Moved B k d ((s.between 0 j).v.cpu.elemAddr d mode second) (s.between 0 j) t1)
    (h2 : Moved B k d ((t1.between j n).v.cpu.elemAddr d mode second) (t1.between j n) t2)
    (h : Moved B k d ((s.between 0 n).v.cpu.elemAddr d mode second) (s.between 0 n) t) : t2.mem = t.mem := by
  cases k with
  | load isSigned =>
    have e1 := (h1.load isSigned rfl).1
    have e2 := (h2.load isSigned rfl).1
    have e3 := (h.load isSigned rfl).1
    exact (e2.trans e1).trans e3.symm
  | store =>
    obtain ⟨hcpu, e1⟩ := h1.store rfl
    have e2 := (h2.store rfl).2
    have e3 := (h.store rfl).2
    rw [hp.first] at e1
    rw [hp.others] at e2
    rw [hp.whole, List.foldl_append] at e3
    rw [e2, e3]
    change List.foldl _ t1.mem _ = _
    rw [e1]
    apply List.foldl_ext
    intro mem i hi
    rw [hp.addr i hi]
    change B.sm _ (d.width t1.v.cpu.vsew) ((t1.v.cpu.elem t1.v.cpu.vsew d.dest i).setWidth 64) mem = _
    rw [hcpu]
    rfl

theorem resume_vr {n : Nat} {isSigned : Bool} (hl : VldstLegal s.v.cpu d (.load isSigned) mode second)
    (hr : Resumable d mode second j s t1) (hp : Parts d mode second j n s t1) (hj : j ≤ n) (hn : n ≤ vlen)
    (hmax : n ≤ vlmaxOf s.v.cpu.vsew s.v.cpu.vlmul)
    (h1 : Moved B (.load isSigned) d ((s.between 0 j).v.cpu.elemAddr d mode second) (s.between 0 j) t1)
    (h2 : Moved B (.load isSigned) d ((t1.between j n).v.cpu.elemAddr d mode second) (t1.between j n) t2)
    (h : Moved B (.load isSigned) d ((s.between 0 n).v.cpu.elemAddr d mode second) (s.between 0 n) t) :
    t2.v.cpu.vr = t.v.cpu.vr := by
  have hsew := hl.configured.sew
  have hmem : t1.mem = s.mem := (h1.load isSigned rfl).1
  have hw1 := (h1.load isSigned rfl).2
  have hw2 := (h2.load isSigned rfl).2
  have hw := (h.load isSigned rfl).2
  have hb1 : ∀ i, (s.between 0 j).v.cpu.Body i ↔ 0 ≤ i ∧ i < j := fun i => between_body (Nat.zero_le _) (hj.trans hn)
  have hb2 : ∀ i, (t1.between j n).v.cpu.Body i ↔ j ≤ i ∧ i < n := fun i => between_body (hj.trans hn) hn
  have hb : ∀ i, (s.between 0 n).v.cpu.Body i ↔ 0 ≤ i ∧ i < n := fun i => between_body (Nat.zero_le _) hn
  have hinj : ∀ i q, i < n → q < n → slot s.v.cpu.vsew d.dest i = slot s.v.cpu.vsew d.dest q → i = q :=
    fun i q hi hq => element_inj hsew (hl.dest (by simp)) (by omega) (by omega)
  -- the second part writes the elements from `j` on, with the values of the whole
  have hvalue : ∀ i, j ≤ i → i < n → s.v.cpu.accessed d i = true →
      Packed.get (sew s.v.cpu.vsew) t2.v.cpu.vr (slot s.v.cpu.vsew d.dest i) =
        d.loaded s.v.cpu isSigned (B.lm (s.v.cpu.elemAddr d mode second i) (d.width s.v.cpu.vsew) s.mem) := by
    intro i h1 h2 hact
    have hv := hw2.value i ((hb2 i).mpr ⟨h1, h2⟩) ((hr.accessed i).trans hact)
    have hin : i ∈ s.v.cpu.accessedIn d j (n - j) :=
      List.mem_filter.mpr ⟨List.mem_range'_1.mpr ⟨h1, by omega⟩, hact⟩
    rw [hp.addr i hin] at hv
    unfold VldstDecode.loaded at hv ⊢
    change Packed.get (sew t1.v.cpu.vsew) t2.v.cpu.vr (slot t1.v.cpu.vsew d.dest i) =
      (if isSigned then ((B.lm _ (d.width t1.v.cpu.vsew) t1.mem).setWidth (8 * d.width t1.v.cpu.vsew)).signExtend 64
      else B.lm _ (d.width t1.v.cpu.vsew) t1.mem).setWidth (sew t1.v.cpu.vsew) at hv
    rw [hp.vsew, hmem] at hv
    exact hv
  have hothers : ∀ p, (∀ i, j ≤ i → i < n → s.v.cpu.accessed d i = true → slot s.v.cpu.vsew d.dest i ≠ p) →
      Packed.get (sew s.v.cpu.vsew) t2.v.cpu.vr p = Packed.get (sew s.v.cpu.vsew) t1.v.cpu.vr p := by
    intro p hne
    have hv := hw2.others p
    change (∀ i, (t1.between j n).v.cpu.Body i → t1.v.cpu.accessed d i = true → slot t1.v.cpu.vsew d.dest i ≠ p) →
      Packed.get (sew t1.v.cpu.vsew) t2.v.cpu.vr p = Packed.get (sew t1.v.cpu.vsew) t1.v.cpu.vr p at hv
    rw [hp.vsew] at hv
    apply hv
    intro i hi hact
    obtain ⟨hge, hlt⟩ := (hb2 i).mp hi
    exact hne i hge hlt ((hr.accessed i).symm.trans hact)
  funext r
  apply packed_ext (Nat.lt_of_lt_of_le (by decide) (eight_le_sew s.v.cpu.vsew))
  intro q
  by_cases hex : ∃ i < n, s.v.cpu.accessed d i = true ∧ slot s.v.cpu.vsew d.dest i = (r, q)
  · obtain ⟨i, hi, hact, heq⟩ := hex
    have hwhole := hw.value i ((hb i).mpr ⟨Nat.zero_le i, hi⟩) hact
    rw [← heq]
    refine Eq.trans ?_ hwhole.symm
    by_cases hij : j ≤ i
    · exact hvalue i hij hi hact
    · rw [hothers]
      · exact hw1.value i ((hb1 i).mpr ⟨Nat.zero_le i, by omega⟩) hact
      · intro q hq hqn _ hslot
        have := hinj q i hqn hi hslot
        omega
  · have hnone : ∀ i, i < n → s.v.cpu.accessed d i = true → slot s.v.cpu.vsew d.dest i ≠ (r, q) :=
      fun i hi hact heq => hex ⟨i, hi, hact, heq⟩
    rw [hothers _ fun i _ hi => hnone i hi]
    have hfirst := hw1.others (r, q) fun i hi => hnone i (((hb1 i).mp hi).2.trans_le hj)
    have hwhole := hw.others (r, q) fun i hi => hnone i ((hb i).mp hi).2
    exact hfirst.trans hwhole.symm

theorem resume_access {n : Nat} (hp : Parts d mode second j n s t1) (h1 : Moved B k d addr (s.between 0 j) t1)
    (hi : i ∈ s.v.cpu.accessedIn d j (n - j)) :
    (t1.between j n).v.cpu.access d k ((t1.between j n).v.cpu.elemAddr d mode second) i =
      (s.between 0 n).v.cpu.access d k ((s.between 0 n).v.cpu.elemAddr d mode second) i := by
  unfold Machine.access
  rw [hp.addr i hi]
  cases k with
  | load isSigned =>
    change (_, d.width t1.v.cpu.vsew, none) = _
    rw [hp.vsew]
    rfl
  | store =>
    obtain ⟨hcpu, -⟩ := h1.store rfl
    change (_, d.width t1.v.cpu.vsew, some ((t1.v.cpu.elem t1.v.cpu.vsew d.dest i).setWidth 64)) = _
    rw [hcpu]
    rfl

/-- An access in two parts is the access as a whole. -/
theorem resume_whole (hl : VldstLegal s.v.cpu d k mode second) (hj : j ≤ (s.v.cpu.csr .vl).toNat)
    (h1 : Moved B k d ((s.between 0 j).v.cpu.elemAddr d mode second) (s.between 0 j) t1)
    (h2 : Moved B k d ((t1.between j (s.v.cpu.csr .vl).toNat).v.cpu.elemAddr d mode second)
      (t1.between j (s.v.cpu.csr .vl).toNat) t2)
    (h : Moved B k d ((s.between 0 (s.v.cpu.csr .vl).toNat).v.cpu.elemAddr d mode second)
      (s.between 0 (s.v.cpu.csr .vl).toNat) t) :
    t2.v.cpu = t.v.cpu ∧ t2.mem = t.mem ∧ t2.accesses = t.accesses := by
  have hr := resumable hl hj h1
  have hlen := hl.configured.vl_le
  have hmax := hl.configured.vl
  generalize hn : (s.v.cpu.csr .vl).toNat = n at *
  have hp := hr.parts hj hlen hn
  refine ⟨?_, resume_mem hp h1 h2 h, ?_⟩
  · cases k with
    | load isSigned =>
      have hvr := resume_vr hl hr hp hj hlen hmax h1 h2 h
      have hrest := (h2.load isSigned rfl).2.rest
      have hrest' := (h.load isSigned rfl).2.rest
      rw [hr.between_cpu] at hrest
      rw [hrest, hvr]
      exact hrest'.symm
    | store =>
      obtain ⟨hcpu, -⟩ := h1.store rfl
      obtain ⟨hcpu2, -⟩ := h2.store rfl
      obtain ⟨hcpu3, -⟩ := h.store rfl
      have hvr : t1.v.cpu.vr = s.v.cpu.vr := by rw [hcpu]; rfl
      have hsame : (t1.between j n).v.cpu.setCsr .vstart 0 = _ := hr.between_cpu n t1.v.cpu.vr
      rw [hcpu2, hcpu3, hsame, hvr]
      rfl
  · rw [h2.accesses, h.accesses, hp.others, hp.whole, List.map_append, ← List.append_assoc]
    congr 1
    · have hfirst := h1.accesses
      rw [hp.first] at hfirst
      exact hfirst
    · exact List.map_congr_left fun i hi => resume_access hp h1 hi

theorem loadsStores_iff {mmu : MmuMode} {old : VldstDecode} {instr : BitVec 32}
    (hsel : vldstDispatch instr mmu old = some (d, k, mode)) :
    LoadsStores B mmu old instr s t ↔ k.exec B mode d s = .ok () t := by
  constructor
  · rintro ⟨d', k', mode', h, hrun⟩
    cases hsel.symm.trans h
    exact hrun
  · exact fun h => ⟨d, k, mode, hsel, h⟩

/-- A vector load or store moves the active elements of the group that it names, each at its address, if,
and only if, no assertion stops it and, for each active element, the condition holds and a store finds the
same element in the group of the record. What it is to do for the elements below `j` and then, with `vstart`
at `j`, for the others is what it is to do for all of them. -/
theorem vldst_exact_iff {mmu : MmuMode} {old : VldstDecode} {instr : BitVec 32}
    (hsel : vldstDispatch instr mmu old = some (d, k, mode))
    (hl : VldstLegal s.v.cpu d k mode (instr.extractLsb' 20 5)) :
    ((∃ t, LoadsStores B mmu old instr s t ∧
        Moved B k (d.named instr) (s.v.cpu.elemAddr d mode (instr.extractLsb' 20 5)) s t) ↔
      d.Completes s.v.cpu mode ∧ ∀ i, s.v.cpu.Body i → s.v.cpu.accessed d i = true →
        d.Addresses s.v.cpu mode (instr.extractLsb' 20 5) i ∧
          (k = .store → s.v.cpu.elem s.v.cpu.vsew d.dest i =
            s.v.cpu.elem s.v.cpu.vsew (instr.extractLsb' 7 5) i)) ∧
    ∀ j ≤ (s.v.cpu.csr .vl).toNat, ∀ t1 t2 t,
      Moved B k (d.named instr) ((s.between 0 j).v.cpu.elemAddr d mode (instr.extractLsb' 20 5))
        (s.between 0 j) t1 →
      Moved B k (d.named instr) ((t1.between j (s.v.cpu.csr .vl).toNat).v.cpu.elemAddr d mode
        (instr.extractLsb' 20 5)) (t1.between j (s.v.cpu.csr .vl).toNat) t2 →
      Moved B k (d.named instr) ((s.between 0 (s.v.cpu.csr .vl).toNat).v.cpu.elemAddr d mode
        (instr.extractLsb' 20 5)) (s.between 0 (s.v.cpu.csr .vl).toNat) t →
      t2.v.cpu = t.v.cpu ∧ t2.mem = t.mem ∧ t2.accesses = t.accesses := by
  obtain ⟨hwidth, hrec⟩ := vldstDispatch_record hsel
  have hw := VldstDecode.width_bounds hl.configured.sew hwidth
  constructor
  · obtain ⟨hends, hmoved⟩ := exec_moves (B := B) hl
    constructor
    · rintro ⟨t, ht, hspec⟩
      have hrun := (loadsStores_iff hsel).mp ht
      have haccess := (hmoved t hrun).access_eq hspec fun _ => rfl
      have haddr : ∀ i, s.v.cpu.Body i → s.v.cpu.accessed d i = true →
          s.v.cpu.loopAddr mode d i = s.v.cpu.elemAddr d mode (instr.extractLsb' 20 5) i :=
        fun i hi hact => congrArg Prod.fst (haccess i hi hact)
      have hdata := (((hmoved t hrun).congr haddr).named_iff hl.configured.sew hrec).mp hspec
      refine ⟨hends.mp ⟨t, hrun⟩, fun i hi hact => ⟨?_, fun hk => hdata hk i hi hact⟩⟩
      exact (addresses_iff hl.configured hw hi).mp (haddr i hi hact)
    · rintro ⟨hcomp, hcond⟩
      obtain ⟨t, hrun⟩ := hends.mpr hcomp
      have haddr : ∀ i, s.v.cpu.Body i → s.v.cpu.accessed d i = true →
          s.v.cpu.loopAddr mode d i = s.v.cpu.elemAddr d mode (instr.extractLsb' 20 5) i :=
        fun i hi hact => (addresses_iff hl.configured hw hi).mpr (hcond i hi hact).1
      refine ⟨t, (loadsStores_iff hsel).mpr hrun, ?_⟩
      exact (((hmoved t hrun).congr haddr).named_iff hl.configured.sew hrec).mpr
        fun hk i hi hact => (hcond i hi hact).2 hk
  · have hlegal : VldstLegal s.v.cpu (d.named instr) k mode (instr.extractLsb' 20 5) := by
      refine ⟨hl.configured, hl.load, hl.store, fun hk => ?_, hl.index, fun hk => ?_⟩
      · rw [hrec hk]
        exact hl.dest hk
      · rw [hrec hk]
        exact hl.mask hk
    intro j hj t1 t2 t h1 h2 h
    exact resume_whole hlegal hj h1 h2 h

/-- A byte for each address. -/
def plainRam : Bus (Word → BitVec 8) where
  lm addr len m := (List.range len).foldr (fun i x => x <<< 8 ||| (m (addr + BitVec.ofNat 64 i)).setWidth 64) 0
  sm addr len x m b := if (b - addr).toNat < len then x.extractLsb' (8 * (b - addr).toNat) 8 else m b
  byte m b := m b
  sm_other _ _ _ _ _ h := if_neg (Nat.not_lt.mpr h)

/-- Two elements of eight bits, from `0x1000` on, of which the first is accessed already if `late`. -/
def twoBytes (late : Bool) : VMemState (Word → BitVec 8) where
  v := ⟨({ configuredAs 0 2 (fun r => if r = 1 then 0x2211 else 0) with
    gpr := fun r => if r = 5 then 0x1000 else 0 }).setCsr .vstart (if late then 1 else 0), []⟩
  mem b := b.setWidth 8
  accesses := []

def emptyDecode : VldstDecode := ⟨0, 0, 0, 0, 0, false⟩

/-- The record for two elements of `group`, with the base in `t0`. -/
def twoDecode (group : BitVec 5) : VldstDecode := ⟨5, 0, 0, group, 1, true⟩

theorem twoBytes_legal (late : Bool) (group : BitVec 5) :
    (group = 1 → VldstLegal (twoBytes late).v.cpu (twoDecode group) (.load false) .unit 0) ∧
      VldstLegal (twoBytes late).v.cpu (twoDecode group) .store .unit 0 := by
  have hc : Configured (twoBytes late).v.cpu := by
    cases late with
    | false => exact ⟨by decide, .inl (by decide), by decide, by decide⟩
    | true => exact ⟨by decide, .inl (by decide), by decide, by decide⟩
  have hwidth : (twoDecode group).width (twoBytes late).v.cpu.vsew = 1 := rfl
  have hsew : sew (twoBytes late).v.cpu.vsew = 8 := by cases late <;> decide
  have hmul : (twoBytes late).v.cpu.vlmul = 0 := by cases late <;> decide
  constructor
  · rintro rfl
    refine ⟨hc, fun _ => by rw [hwidth, hsew], (nomatch ·), fun _ _ => ?_, (nomatch ·),
      fun _ => (nomatch ·)⟩
    rw [hmul]
    exact aligned_zero _
  · exact ⟨hc, fun h => absurd rfl h, fun _ => by rw [hwidth, hsew], fun h => absurd rfl h,
      (nomatch ·), fun h => absurd rfl h⟩

theorem twoBytes_completes (late : Bool) (group : BitVec 5) :
    (twoDecode group).Completes (twoBytes late).v.cpu .unit := by
  have hmul : (twoBytes late).v.cpu.vlmul = 0 := by cases late <;> decide
  refine ⟨(nomatch ·), fun _ => ?_⟩
  rw [hmul]
  exact ⟨by decide, aligned_zero _⟩

/-- `vle8.v v1, (t0)` -/
theorem vldst_exact_unit : ∃ t, LoadsStores plainRam .translate emptyDecode 0x02028087 (twoBytes false) t ∧
    t.accesses = [(0x1000, 1, none), (0x1001, 1, none)] := by
  have hsel : vldstDispatch 0x02028087 .translate emptyDecode = some (twoDecode 1, .load false, .unit) := rfl
  obtain ⟨t, ht, hmoved⟩ := (vldst_exact_iff (B := plainRam) hsel ((twoBytes_legal false 1).1 rfl)).1.mpr
    ⟨twoBytes_completes false 1, fun _ _ _ => ⟨rfl, fun h => by cases h⟩⟩
  exact ⟨t, ht, hmoved.accesses.trans (by decide)⟩

/-- `vle8.v v1, (t0)` for the second element only reads the byte of the first one, and with translation on
`vse8.v v1, (t0)` stores the elements of `v0`. -/
theorem vldst_restarts :
    (vldstDispatch 0x02028087 .direct emptyDecode = some (twoDecode 1, .load false, .unit) ∧
      VldstLegal (twoBytes true).v.cpu (twoDecode 1) (.load false) .unit 0 ∧
      (∃ t, LoadsStores plainRam .direct emptyDecode 0x02028087 (twoBytes true) t ∧
        t.accesses = [(0x1000, 1, none)]) ∧
      (twoBytes true).v.cpu.elemAddr (twoDecode 1) .unit 0 1 = 0x1001 ∧
      ¬ ∃ t, LoadsStores plainRam .direct emptyDecode 0x02028087 (twoBytes true) t ∧
        Moved plainRam (.load false) ((twoDecode 1).named 0x02028087)
          ((twoBytes true).v.cpu.elemAddr (twoDecode 1) .unit 0) (twoBytes true) t) ∧
    vldstDispatch 0x020280a7 .translate emptyDecode = some (twoDecode 0, .store, .unit) ∧
      VldstLegal (twoBytes false).v.cpu (twoDecode 0) .store .unit 0 ∧
      (∃ t, LoadsStores plainRam .translate emptyDecode 0x020280a7 (twoBytes false) t ∧
        t.accesses = [(0x1000, 1, some 0), (0x1001, 1, some 0)]) ∧
      (twoBytes false).v.cpu.elem 0 1 0 = 0x11 ∧
      ¬ ∃ t, LoadsStores plainRam .translate emptyDecode 0x020280a7 (twoBytes false) t ∧
        Moved plainRam .store ((twoDecode 0).named 0x020280a7)
          ((twoBytes false).v.cpu.elemAddr (twoDecode 0) .unit 0) (twoBytes false) t := by
  have hload : vldstDispatch 0x02028087 .direct emptyDecode = some (twoDecode 1, .load false, .unit) := rfl
  have hstore : vldstDispatch 0x020280a7 .translate emptyDecode = some (twoDecode 0, .store, .unit) := rfl
  have hl := (twoBytes_legal true 1).1 rfl
  have hs := (twoBytes_legal false 0).2
  obtain ⟨hends, hmoved⟩ := exec_moves (B := plainRam) hl
  obtain ⟨hends', hmoved'⟩ := exec_moves (B := plainRam) hs
  obtain ⟨t, ht⟩ := hends.mpr (twoBytes_completes true 1)
  obtain ⟨t', ht'⟩ := hends'.mpr (twoBytes_completes false 0)
  refine ⟨⟨hload, hl, ⟨t, (loadsStores_iff hload).mpr ht, ?_⟩, by decide, ?_⟩, hstore, hs,
    ⟨t', (loadsStores_iff hstore).mpr ht', ?_⟩, by decide, ?_⟩
  · exact (hmoved t ht).accesses.trans (by decide)
  · rintro ⟨u, hu, hspec⟩
    have hrun := (loadsStores_iff hload).mp hu
    have haccess := (hmoved u hrun).access_eq hspec (fun _ => rfl) 1 ⟨by decide, by decide⟩ (by decide)
    exact absurd haccess (by decide)
  · exact (hmoved' t' ht').accesses.trans (by decide)
  · rintro ⟨u, hu, hspec⟩
    have hrun := (loadsStores_iff hstore).mp hu
    have haccess := (hmoved' u hrun).access_eq hspec (fun _ => rfl) 0 ⟨by decide, by decide⟩ (by decide)
    exact absurd haccess (by decide)

end Claim

end Nemu
