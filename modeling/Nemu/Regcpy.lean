import Nemu.Lib.Fields
import Nemu.Difftest

namespace Nemu

open Effect

set_option autoImplicit true

/-- The words of `cpu` and `csr_array`. -/
structure RefCpu where
  word : Slot → Word
  csr : BitVec 12 → Word

namespace Slot

/-- The fields of `riscv64_CPU_state` between its two marks. -/
def synced (P : Platform) : List Slot :=
  base ++ ((if P.rvn then rvnCsrs.map shadow else []) ++ if P.dasics then dasicsCsrs.map shadow else [])

/-- What follows the second mark, as far as it is modelled. -/
def unsynced (P : Platform) : List Slot :=
  (if P.rvn then [shadow .utimer] else []) ++ if P.rvv then vectorRegs ++ vectorCsrs.map shadow else []

theorem layout_eq (P : Platform) : layout P = synced P ++ unsynced P := by
  unfold layout synced unsynced
  simp only [List.append_assoc]

end Slot

/-- `csrid_read` of `sstatus` and `ustatus`. Reading `sstatus` brings SD up to date. -/
def csridRead (P : Platform) (c : Csr) (csr : BitVec 12 → Word) : Word × (BitVec 12 → Word) :=
  let mstatus := Csr.mstatus.addr
  if c = .sstatus then
    let csr := Function.update csr mstatus (updateMstatusSdVal P (csr mstatus))
    (csr mstatus &&& sstatusRmask P, csr)
  else (csr mstatus &&& ustatusWmask, csr)

/-- The right side of the line of `csr_prepare` that assigns to `cpu.c`. -/
def shadowSource (P : Platform) (c : Csr) (csr : BitVec 12 → Word) : Word × (BitVec 12 → Word) :=
  if c = .sstatus ∨ c = .ustatus then csridRead P c csr else (csr c.addr, csr)

/-- The lines of `csr_prepare` under `CONFIG_RV_DASICS`, and those of `csr_writeback`. -/
def dasicsLines : List Csr :=
  [.dsmcfg, .dsmbound 0, .dsmbound 1, .dumbound 0, .dumbound 1, .dlcfg0] ++
    (List.finRange 32).map Csr.dlbound ++ [.djcfg] ++ (List.finRange 8).map Csr.djbound ++
    [.dmaincall, .dretpc, .dretpcfz, .dfreason, .upkru, .spkrs, .spkctl]

def machineLines : List Csr :=
  [.satp, .mip, .mie, .mscratch, .sscratch, .mideleg, .medeleg, .mtval, .stval, .mtvec, .stvec]

def prepareLines (P : Platform) : List Csr :=
  [.mstatus, .mcause, .mepc, .sstatus, .scause, .sepc] ++ machineLines ++
    (if P.rvn then [.ustatus, .ucause, .uepc, .uscratch, .sedeleg, .sideleg, .utval, .utvec] else []) ++
    (if P.dasics then dasicsLines else []) ++ if P.rvv then Slot.vectorCsrs else []

def writebackLines (P : Platform) : List Csr :=
  [.mstatus, .mcause, .mepc, .scause, .sepc] ++ (if P.rvn then [.ucause, .uepc] else []) ++
    machineLines ++ (if P.rvn then [.uscratch, .sideleg, .sedeleg, .utval, .utvec] else []) ++
    (if P.dasics then dasicsLines else []) ++ if P.rvv then Slot.vectorCsrs else []

namespace RefCpu

def prepareLine (P : Platform) (st : RefCpu) (c : Csr) : RefCpu where
  word := Function.update st.word (.shadow c) (shadowSource P c st.csr).1
  csr := (shadowSource P c st.csr).2

def csrPrepare (P : Platform) (st : RefCpu) : RefCpu := (prepareLines P).foldl (prepareLine P) st

def csrWriteback (P : Platform) (st : RefCpu) : RefCpu :=
  { st with csr := Fields.assign Csr.addr (fun c => st.word (.shadow c)) (writebackLines P) st.csr }

/-- `isa_difftest_regcpy` with `DIFFTEST_TO_REF`, for a `DIFFTEST_REG_SIZE` that covers `fields`. -/
def regcpyToRef (P : Platform) (fields : List Slot) (dut : Fin fields.length → Word) (st : RefCpu) :
    RefCpu :=
  csrWriteback P { st with word := Fields.load fields dut st.word }

/-- `isa_difftest_regcpy` with `DIFFTEST_TO_DUT`: the buffer, and the state afterwards. -/
def regcpyToDut (P : Platform) (fields : List Slot) (st : RefCpu) :
    (Fin fields.length → Word) × RefCpu :=
  (Fields.store fields (csrPrepare P st).word, csrPrepare P st)

end RefCpu

/-- SD of a word of `mstatus` says whether FS is dirty. -/
def SdCurrent (mstatus : Word) : Prop := mstatus.getLsbD 63 = decide (mstatus.extractLsb' 13 2 = 3)

instance (mstatus : Word) : Decidable (SdCurrent mstatus) := inferInstanceAs (Decidable (_ = _))

variable {P : Platform} {st : RefCpu} {c : Csr}

section Csrs

theorem Csr.mem_all (c : Csr) : c ∈ Csr.all := by
  cases c with
  | pmpcfg i | pmpaddr i | dsmbound i | dumbound i | dlbound i | djbound i => simp [Csr.all]
  | _ => decide +kernel

theorem Csr.addr_nodup : (Csr.all.map fun c => c.addr.toNat).Nodup := by decide +kernel

theorem Csr.addr_injective : Function.Injective Csr.addr := fun c c' h =>
  List.inj_on_of_nodup_map Csr.addr_nodup c.mem_all c'.mem_all (congrArg BitVec.toNat h)

theorem updateSd_current (hq : P.difftestRefQemu = false) (h : SdCurrent x) :
    updateMstatusSdVal P x = x := by
  unfold updateMstatusSdVal
  simp only [hq, Bool.false_and, Bool.false_eq_true, ↓reduceIte]
  rw [← h]
  apply BitVec.eq_of_getLsbD_eq
  intro i hi
  by_cases he : i = 63
  · rw [he, setBit_self 63 _ _ (by decide)]
  · exact setBit_ne _ _ he

theorem csridRead_run (hc : c = .sstatus ∨ c = .ustatus) (hs : ∀ c, s.csr c = csr c.addr) :
    ∃ t, csrRead P c s = .ok (csridRead P c csr).1 t ∧ ∀ c', t.csr c' = (csridRead P c csr).2 c'.addr := by
  obtain rfl | rfl := hc
  · refine ⟨s.mapMstatus (updateMstatusSdVal P), ?_, fun c' => ?_⟩
    · have hv : (csridRead P .sstatus csr).1 = updateMstatusSdVal P (csr Csr.mstatus.addr) &&& sstatusRmask P := by
        unfold csridRead
        rw [if_pos rfl]
        dsimp only
        rw [Function.update_self]
      rw [hv, ← hs, ← Machine.mapMstatus_mstatus (updateMstatusSdVal P) s]
      rfl
    · change _ = Function.update csr Csr.mstatus.addr _ c'.addr
      by_cases he : c' = .mstatus
      · rw [he, Machine.mapMstatus_mstatus, Function.update_self, hs]
      · rw [Machine.mapMstatus_csr _ _ he, hs,
          Function.update_of_ne fun h => he (Csr.addr_injective h)]
  · refine ⟨s, ?_, hs⟩
    have hv : (csridRead P .ustatus csr).1 = s.csr .mstatus &&& ustatusWmask := by
      rw [hs]
      rfl
    rw [hv]
    rfl

end Csrs

section Lines

theorem shadowSource_csr (hq : P.difftestRefQemu = false) (h : SdCurrent (csr Csr.mstatus.addr)) (c : Csr) :
    (shadowSource P c csr).2 = csr := by
  unfold shadowSource
  split
  · unfold csridRead
    split
    · dsimp only
      rw [updateSd_current hq h, Function.update_eq_self]
    · rfl
  · rfl

theorem shadowSource_plain (h1 : c ≠ .sstatus) (h2 : c ≠ .ustatus) (csr : BitVec 12 → Word) :
    (shadowSource P c csr).1 = csr c.addr := by
  unfold shadowSource
  rw [if_neg (by simp [h1, h2])]

theorem shadowSource_sstatus (hq : P.difftestRefQemu = false) (h : SdCurrent (csr Csr.mstatus.addr)) :
    (shadowSource P .sstatus csr).1 = csr Csr.mstatus.addr &&& sstatusRmask P := by
  change Function.update csr Csr.mstatus.addr _ Csr.mstatus.addr &&& _ = _
  rw [Function.update_self, updateSd_current hq h]

theorem shadowSource_ustatus (csr : BitVec 12 → Word) :
    (shadowSource P .ustatus csr).1 = csr Csr.mstatus.addr &&& ustatusWmask := rfl

/-- With SD current the lines of `csr_prepare` change the shadows only. -/
theorem prepareLines_run (hq : P.difftestRefQemu = false) (ls : List Csr) (st : RefCpu)
    (h : SdCurrent (st.csr Csr.mstatus.addr)) :
    ls.foldl (RefCpu.prepareLine P) st =
      ⟨Fields.assign Slot.shadow (fun c => (shadowSource P c st.csr).1) ls st.word, st.csr⟩ := by
  induction ls generalizing st with
  | nil => rfl
  | cons c ls ih =>
    have hline : RefCpu.prepareLine P st c =
        ⟨Function.update st.word (.shadow c) (shadowSource P c st.csr).1, st.csr⟩ := by
      unfold RefCpu.prepareLine
      rw [shadowSource_csr hq h]
    rw [List.foldl_cons, hline]
    exact ih _ h

end Lines

/-- The word of a field in a buffer. -/
def bufferWord (P : Platform) (b : Fin (Slot.synced P).length → Word) (k : Slot) : Word :=
  Fields.load (Slot.synced P) b (fun _ => 0) k

/-- A buffer whose views of `mstatus` are projections of its word of `mstatus`, with SD current. -/
structure Mirrored (P : Platform) (b : Fin (Slot.synced P).length → Word) : Prop where
  sstatus : bufferWord P b (.shadow .sstatus) = bufferWord P b (.shadow .mstatus) &&& sstatusRmask P
  ustatus : P.rvn = true →
    bufferWord P b (.shadow .ustatus) = bufferWord P b (.shadow .mstatus) &&& ustatusWmask
  sd : SdCurrent (bufferWord P b (.shadow .mstatus))

section Synced

/-- A number for each field. -/
def Slot.number : Slot → Nat
  | gpr r => r.toNat
  | fpr r => 32 + r.toNat
  | pc => 64
  | mode => 65
  | vr r half => 66 + 2 * r.toNat + half.val
  | shadow c => 130 + c.addr.toNat

theorem Slot.synced_nodup (P : Platform) : (Slot.synced P).Nodup := by
  have hfull : (Slot.base ++ (Slot.rvnCsrs.map shadow ++ Slot.dasicsCsrs.map shadow)).Nodup := by
    apply List.Nodup.of_map Slot.number
    decide +kernel
  refine List.Nodup.sublist (List.Sublist.append (List.Sublist.refl _) (List.Sublist.append ?_ ?_)) hfull
  · split
    · exact List.Sublist.refl _
    · exact List.nil_sublist _
  · split
    · exact List.Sublist.refl _
    · exact List.nil_sublist _

theorem mem_map_shadow {cs : List Csr} : .shadow c ∈ cs.map Slot.shadow ↔ c ∈ cs :=
  List.mem_map_of_injective fun _ _ h => Slot.shadow.inj h

theorem prepareLines_of_synced (h : .shadow c ∈ Slot.synced P) : c ∈ prepareLines P := by
  have hbase : ∀ c ∈ Csr.all, .shadow c ∈ Slot.base →
      c ∈ [Csr.mstatus, .mcause, .mepc, .sstatus, .scause, .sepc] ++ machineLines := by decide +kernel
  have hrvn : ∀ c ∈ Slot.rvnCsrs,
      c ∈ [Csr.ustatus, .ucause, .uepc, .uscratch, .sedeleg, .sideleg, .utval, .utvec] := by decide
  have hdasics : ∀ c ∈ Slot.dasicsCsrs, c ∈ dasicsLines := by decide +kernel
  unfold Slot.synced at h
  unfold prepareLines
  simp only [List.mem_append, List.mem_ite_nil_right, mem_map_shadow] at h ⊢
  obtain h | ⟨hr, h⟩ | ⟨hd, h⟩ := h
  · exact .inl (.inl (.inl (List.mem_append.mp (hbase c c.mem_all h))))
  · exact .inl (.inl (.inr ⟨hr, hrvn c h⟩))
  · exact .inl (.inr ⟨hd, hdasics c h⟩)

theorem rvn_of_ustatus (h : .shadow .ustatus ∈ Slot.synced P) : P.rvn = true := by
  unfold Slot.synced at h
  simp only [List.mem_append, List.mem_ite_nil_right, mem_map_shadow] at h
  obtain h | ⟨hr, -⟩ | ⟨-, h⟩ := h
  · exact absurd h (by decide)
  · exact hr
  · exact absurd h (by decide)

theorem machineLines_plain : ∀ c ∈ machineLines, c ≠ .sstatus ∧ c ≠ .ustatus := by decide

theorem dasicsLines_plain : ∀ c ∈ dasicsLines, c ≠ .sstatus ∧ c ≠ .ustatus := by decide +kernel

theorem vectorCsrs_plain : ∀ c ∈ Slot.vectorCsrs, c ≠ .sstatus ∧ c ≠ .ustatus := by decide

/-- `csr_writeback` has the lines of `csr_prepare`, but for the views of `mstatus`. -/
theorem mem_writebackLines :
    c ∈ writebackLines P ↔ c ∈ prepareLines P ∧ c ≠ .sstatus ∧ c ≠ .ustatus := by
  have hm := machineLines_plain c
  have hd := dasicsLines_plain c
  have hv := vectorCsrs_plain c
  unfold writebackLines prepareLines
  simp only [List.mem_append, List.mem_ite_nil_right, List.mem_cons, List.not_mem_nil, or_false]
  grind

end Synced

section Copies

variable {fields : List Slot} {b : Fin fields.length → Word}

theorem prepare_shadow (hq : P.difftestRefQemu = false) (h : SdCurrent (st.csr Csr.mstatus.addr))
    (hc : c ∈ prepareLines P) :
    (st.csrPrepare P).word (.shadow c) = (shadowSource P c st.csr).1 := by
  unfold RefCpu.csrPrepare
  rw [prepareLines_run hq _ _ h]
  exact Fields.assign_mem (fun _ _ h => Slot.shadow.inj h) hc

theorem prepare_other (hq : P.difftestRefQemu = false) (h : SdCurrent (st.csr Csr.mstatus.addr))
    (hk : ∀ c, k ≠ .shadow c) : (st.csrPrepare P).word k = st.word k := by
  unfold RefCpu.csrPrepare
  rw [prepareLines_run hq _ _ h]
  exact Fields.assign_other fun c _ => (hk c).symm

theorem prepare_csr (hq : P.difftestRefQemu = false) (h : SdCurrent (st.csr Csr.mstatus.addr)) :
    (st.csrPrepare P).csr = st.csr := by
  unfold RefCpu.csrPrepare
  rw [prepareLines_run hq _ _ h]

theorem toRef_csr (hc : c ∈ writebackLines P) :
    (st.regcpyToRef P fields b).csr c.addr = Fields.load fields b st.word (.shadow c) :=
  Fields.assign_mem Csr.addr_injective hc

theorem mstatus_written : Csr.mstatus ∈ writebackLines P := by
  unfold writebackLines
  simp

theorem load_synced {b : Fin (Slot.synced P).length → Word} (hk : k ∈ Slot.synced P) (w : Slot → Word) :
    Fields.load (Slot.synced P) b w k = bufferWord P b k :=
  (Fields.load_mem hk b).trans (Fields.load_mem hk b).symm

theorem synced_base (h : k ∈ Slot.base) : k ∈ Slot.synced P := List.mem_append_left _ h

theorem dut_round_trip (hq : P.difftestRefQemu = false) (st : RefCpu)
    (b : Fin (Slot.synced P).length → Word) (hb : Mirrored P b) :
    ((st.regcpyToRef P (Slot.synced P) b).regcpyToDut P (Slot.synced P)).1 = b := by
  have hm : (st.regcpyToRef P (Slot.synced P) b).csr Csr.mstatus.addr = bufferWord P b (.shadow .mstatus) :=
    (toRef_csr mstatus_written).trans (load_synced (synced_base (by decide)) st.word)
  have hsd : SdCurrent ((st.regcpyToRef P (Slot.synced P) b).csr Csr.mstatus.addr) := by
    rw [hm]
    exact hb.sd
  refine Fields.store_eq (w := st.word) (Slot.synced_nodup P) fun k hk => ?_
  rw [load_synced hk]
  by_cases hs : ∃ c, k = .shadow c
  · obtain ⟨c, rfl⟩ := hs
    refine (prepare_shadow hq hsd (prepareLines_of_synced hk)).trans ?_
    by_cases h1 : c = .sstatus
    · rw [h1, shadowSource_sstatus hq hsd, hm]
      exact hb.sstatus.symm
    by_cases h2 : c = .ustatus
    · subst h2
      rw [shadowSource_ustatus, hm]
      exact (hb.ustatus (rvn_of_ustatus hk)).symm
    · rw [shadowSource_plain h1 h2, toRef_csr (mem_writebackLines.mpr ⟨prepareLines_of_synced hk, h1, h2⟩),
        load_synced hk]
  · refine (prepare_other hq hsd fun c hc => hs ⟨c, hc⟩).trans ?_
    exact load_synced hk st.word

theorem ref_round_trip (hq : P.difftestRefQemu = false) (fields : List Slot) (st : RefCpu)
    (h : SdCurrent (st.csr Csr.mstatus.addr)) :
    let r := st.regcpyToDut P fields
    (r.2.regcpyToRef P fields r.1).csr = st.csr ∧
      ∀ k, (∀ c, k ≠ .shadow c) → (r.2.regcpyToRef P fields r.1).word k = st.word k := by
  have hword : ∀ k, Fields.load fields (Fields.store fields (st.csrPrepare P).word)
      (st.csrPrepare P).word k = (st.csrPrepare P).word k := by
    intro k
    by_cases hk : k ∈ fields
    · exact Fields.load_store hk
    · exact Fields.load_not_mem hk _
  constructor
  · have hcsr := prepare_csr hq h
    refine (Fields.assign_same fun c hc => ?_).trans hcsr
    obtain ⟨hp, h1, h2⟩ := mem_writebackLines.mp hc
    refine (hword _).trans (Eq.trans ?_ (congrFun hcsr c.addr).symm)
    rw [prepare_shadow hq h hp, shadowSource_plain h1 h2]
  · intro k hk
    exact (hword k).trans (prepare_other hq h hk)

end Copies

section Refines

theorem writesBack_iff (P : Platform) (c : Csr) : writesBack P c = true ↔ c ∈ writebackLines P := by
  unfold writebackLines machineLines dasicsLines Slot.vectorCsrs
  cases c with
  | dsmbound i | dumbound i =>
    have hi : i = 0 ∨ i = 1 := by omega
    simp [writesBack, hi]
  | _ => simp [writesBack]

/-- The words of `cpu` as a part of the machine. -/
def RefCpu.toRef (st : RefCpu) (m : Machine) : Ref where
  m := { m with
    gpr := fun r => st.word (.gpr r)
    fpr := fun r => st.word (.fpr r)
    pc := st.word .pc
    mode := dutMode (st.word .mode)
    vr := fun r => st.word (.vr r 1) ++ st.word (.vr r 0)
    csr := fun c => st.csr c.addr }
  shadow := fun c => st.word (.shadow c)

/-- The fields that `DIFFTEST_REG_SIZE` covers. -/
def Slot.reached (P : Platform) : List Slot := (Slot.layout P).take (Slot.regSize P)

theorem load_reached (b : Fin (Slot.reached P).length → Word) (w : Slot → Word) (k : Slot) :
    Fields.load (Slot.reached P) b w k =
      if Slot.copied P k then Fields.load (Slot.reached P) b (fun _ => 0) k else w k := by
  have hcopied : Slot.copied P k = decide (k ∈ Slot.reached P) := rfl
  rw [hcopied]
  by_cases hk : k ∈ Slot.reached P
  · rw [if_pos (decide_eq_true hk), Fields.load_mem hk, Fields.load_mem hk]
  · rw [if_neg fun h => hk (of_decide_eq_true h), Fields.load_not_mem hk]

theorem append_word_high (x y : Word) : (x ++ y).extractLsb' (64 * (1 : Fin 2).val) 64 = x :=
  (BitVec.extractLsb'_append_eq_of_le (by decide)).trans BitVec.extractLsb'_eq_self

theorem append_word_low (x y : Word) : (x ++ y).extractLsb' (64 * (0 : Fin 2).val) 64 = y :=
  (BitVec.extractLsb'_append_eq_of_add_le (by decide)).trans BitVec.extractLsb'_eq_self

/-- The copy to the reference is the one that the injection of state is about. -/
theorem regcpyToRef_refines (b : Fin (Slot.reached P).length → Word) (st : RefCpu) (m : Machine) :
    (st.regcpyToRef P (Slot.reached P) b).toRef m =
      isaDifftestRegcpy P (Fields.load (Slot.reached P) b fun _ => 0) (st.toRef m) := by
  have hcsr : ∀ c : Csr, (st.regcpyToRef P (Slot.reached P) b).csr c.addr =
      if writesBack P c then Fields.load (Slot.reached P) b st.word (.shadow c) else st.csr c.addr := by
    intro c
    by_cases hc : c ∈ writebackLines P
    · rw [if_pos ((writesBack_iff P c).mpr hc)]
      exact toRef_csr hc
    · rw [if_neg fun h => hc ((writesBack_iff P c).mp h)]
      refine Fields.assign_other fun c' hc' h => hc ?_
      cases Csr.addr_injective h
      exact hc'
  have hword : ∀ k, (st.regcpyToRef P (Slot.reached P) b).word k = _ := load_reached b st.word
  have hmode : dutMode ((st.regcpyToRef P (Slot.reached P) b).word .mode) =
      if Slot.copied P .mode then dutMode (Fields.load (Slot.reached P) b (fun _ => 0) .mode)
      else dutMode (st.word .mode) := by
    rw [hword]
    split <;> rfl
  unfold RefCpu.toRef
  rw [hmode]
  simp only [hcsr, hword, load_reached b st.word]
  unfold isaDifftestRegcpy csrWriteback copyRegs
  simp only [append_word_high, append_word_low]

end Refines

/-- Copies of registers between the reference and the processor under test are inverse to each other,
when SD is current and the views of `mstatus` in the buffer agree with it. -/
theorem regcpy_round_trip (hq : P.difftestRefQemu = false) :
    (∀ (st : RefCpu) b, Mirrored P b →
      ((st.regcpyToRef P (Slot.synced P) b).regcpyToDut P (Slot.synced P)).1 = b) ∧
    ∀ st : RefCpu, SdCurrent (st.csr Csr.mstatus.addr) →
      let r := st.regcpyToDut P (Slot.synced P)
      (r.2.regcpyToRef P (Slot.synced P) r.1).csr = st.csr ∧
        ∀ k, (∀ c, k ≠ .shadow c) → (r.2.regcpyToRef P (Slot.synced P) r.1).word k = st.word k :=
  ⟨dut_round_trip hq, ref_round_trip hq (Slot.synced P)⟩

/-- Words with a given `mstatus`, of which the views are projections. -/
def mirrorWords (P : Platform) (mstatus : Word) : Slot → Word
  | .shadow .mstatus => mstatus
  | .shadow .sstatus => mstatus &&& sstatusRmask P
  | .shadow .ustatus => mstatus &&& ustatusWmask
  | .pc => 0x80100000
  | .mode => 3
  | _ => 7

theorem mirrored_store (h : SdCurrent mstatus) :
    Mirrored P (Fields.store (Slot.synced P) (mirrorWords P mstatus)) := by
  have hword : ∀ k, k ∈ Slot.synced P →
      bufferWord P (Fields.store (Slot.synced P) (mirrorWords P mstatus)) k = mirrorWords P mstatus k :=
    fun k hk => Fields.load_store hk
  have hm := hword (.shadow .mstatus) (synced_base (by decide))
  refine ⟨?_, fun hr => ?_, ?_⟩
  · rw [hword _ (synced_base (by decide)), hm]
    rfl
  · have hu : .shadow .ustatus ∈ Slot.synced P := by
      unfold Slot.synced
      rw [if_pos hr]
      exact List.mem_append_right _ (List.mem_append_left _ (by decide))
    rw [hword _ hu, hm]
    rfl
  · rw [hm]
    exact h

/-- A state of the reference with dirty FP registers. -/
def dirtyRef : RefCpu := ⟨fun _ => 0, fun _ => 0x8000000000006000⟩

theorem regcpy_round_trip_dirty :
    (∃ b, Mirrored (Platform.bare .reference) b ∧
      ((dirtyRef.regcpyToRef (.bare .reference) _ b).regcpyToDut (.bare .reference) _).1 = b) ∧
    ∃ r, dirtyRef.regcpyToDut (.bare .reference) (Slot.synced (.bare .reference)) = r ∧
      (r.2.regcpyToRef (.bare .reference) _ r.1).csr = dirtyRef.csr := by
  have hsd : SdCurrent 0x8000000000006000 := by decide
  obtain ⟨h1, h2⟩ := regcpy_round_trip (P := .bare .reference) rfl
  have hb := mirrored_store (P := .bare .reference) hsd
  exact ⟨⟨_, hb, h1 dirtyRef _ hb⟩, _, rfl, (h2 dirtyRef hsd).1⟩

end Nemu
