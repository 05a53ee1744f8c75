import Nemu.Coherence
import Nemu.CsrWrites
import Nemu.Reset

namespace Nemu

open Effect

set_option autoImplicit true

/-- An instruction `csrrw`, `csrrs`, `csrrc` or one of their immediate forms. -/
structure Decode.IsCsr (d : Decode) : Prop where
  id : d.id = .system
  priv : d.funct3 ≠ 0
  reserved : d.funct3 ≠ 4

/-- The CSRs that have an address but are not there: PMP entries beyond the configured ones, and
the FP registers of a build without FPU. -/
def csrMissing (P : Platform) : Csr → Bool
  | .pmpaddr i => P.pmpNum ≤ i.val
  | .fflags | .frm | .fcsr => P.fpuNone
  | _ => false

/-- The reasons for which a CSR instruction is illegal. -/
inductive CsrRefused (P : Platform) (s : Machine) (d : Decode) : Prop where
  | absent : Csr.ofAddr P.toConfig d.csrId = none → CsrRefused P s d
  | missing : Csr.ofAddr P.toConfig d.csrId = some c → csrMissing P c = true → CsrRefused P s d
  | level : Csr.ofAddr P.toConfig d.csrId = some c →
      s.mode.toNat < (d.csrId.extractLsb' 8 2).toNat → CsrRefused P s d
  | zone : Csr.ofAddr P.toConfig d.csrId = some c → P.dasics = true →
      dasicsInTrustedZone s d.pc = false → CsrRefused P s d
  | readOnly : Csr.ofAddr P.toConfig d.csrId = some c → d.csrWrites = true →
      d.csrId.extractLsb' 10 2 = 3 → CsrRefused P s d
  | satp : Csr.ofAddr P.toConfig d.csrId = some .satp → s.mode = .S → s.tvm = true →
      CsrRefused P s d

/-- The value that software sees in a CSR. -/
def csrVisible (P : Platform) (s : Machine) : Csr → Word
  | .mstatus => updateMstatusSdVal P (s.csr .mstatus)
  | .sstatus => updateMstatusSdVal P (s.csr .mstatus) &&& sstatusRmask P
  | .ustatus => s.csr .mstatus &&& ustatusWmask
  | .sie => s.csr .mie &&& sieMask s
  | .uie => s.csr .mie &&& uieMask s
  | .sip => s.csr .mip &&& sieMask s
  | .uip => s.csr .mip &&& uieMask s
  | .mtvec => s.csr .mtvec &&& ~~~2
  | .stvec => s.csr .stvec &&& ~~~2
  | .utvec => s.csr .utvec &&& ~~~2
  | .dsmcfg => s.csr .dsmcfg &&& dsmcfgMask
  | .dumcfg => s.csr .dsmcfg &&& dumcfgMask
  | .spkctl => s.csr .spkctl &&& 3
  | .vcsr => ((s.csr .vxrm &&& 3) <<< 1) ||| (s.csr .vxsat &&& 1)
  | .fcsr => s.csr .fcsr &&& 0xff
  | .fflags => s.csr .fcsr &&& 0x1f
  | .frm => (s.csr .fcsr >>> 5) &&& 7
  | .mtime => (P.clintUptime s.mmio).1
  | .pmpaddr i =>
    if pmpNAPOT ≤ pmpcfgFromIndex s i &&& pmpA then s.csr (.pmpaddr i) ||| (~~~pmpTorMask >>> 1)
    else s.csr (.pmpaddr i) &&& pmpTorMask
  | c => s.csr c

/-- The state in which a CSR is read: SD and the timer are brought up to date for it. -/
def csrPrepared (P : Platform) (s : Machine) : Csr → Machine
  | .mstatus | .sstatus => s.mapMstatus (updateMstatusSdVal P)
  | .mtime => setMtip (some (P.clintUptime s.mmio).2) { s with mmio := s.mmio ++ [.uptime] }
  | _ => s

/-- What follows from a written CSR: a used FPU, SD, the rounding mode and the MMU state. -/
def csrSettled (P : Platform) (s : Machine) : Csr → Machine
  | .fflags | .frm | .fcsr =>
    { s.mapMstatus (fun x => updateMstatusSdVal P (fpSetDirtyVal P x)) with
      rmCache := ((s.csr .fcsr).extractLsb' 5 3).setWidth 32 }
  | .mstatus => (s.mapMstatus (updateMstatusSdVal P)).refreshMmu
  | .sstatus => s.mapMstatus (updateMstatusSdVal P)
  | .satp => s.refreshMmu
  | _ => s

def Decode.csrOperand (d : Decode) (P : Platform) (s : Machine) (c : Csr) : Word :=
  Nemu.csrOperand d (csrVisible P s c) (s.readLoc d.src1.preg)

/-- The instruction raised an exception for an illegal instruction and changed nothing. -/
def CsrIllegal (P : Platform) (d : Decode) (s : Machine) : Prop :=
  ∃ f t, exec P d s = .error (.exception f) t ∧ f.cause = .II ∧ t.gpr = s.gpr ∧ t.csr = s.csr ∧
    t.pmem = s.pmem

/-- The instruction put the old value into `rd`, after it had made its one write. -/
def CsrCompleted (P : Platform) (d : Decode) (s : Machine) (c : Csr) : Prop :=
  exec P d s = .ok () ((if d.csrWrites then
      csrSettled P (csrStore P (csrPrepared P s c) c (d.csrOperand P s c)) c
    else csrPrepared P s c).writeLoc d.dest.preg (csrVisible P s c))

/-- A CSR instruction is either illegal, and then refused without effect, or legal and carried out. -/
def CsrAtomic (P : Platform) (d : Decode) (s : Machine) : Prop :=
  (CsrRefused P s d ∧ CsrIllegal P d s) ∨
  (¬ CsrRefused P s d ∧ ∃ c, Csr.ofAddr P.toConfig d.csrId = some c ∧ CsrCompleted P d s c)

/-- The rounding mode that a write leaves is one of the five. -/
def RmSafe (s : Machine) (x : Word) : Csr → Prop
  | .fcsr => x.extractLsb' 5 3 < 5
  | .frm => x.extractLsb' 0 3 ||| (s.csr .fflags).extractLsb' 5 3 < 5
  | .fflags => (s.csr .frm).extractLsb' 0 3 < 5
  | _ => True

/-- The translation mode in `satp` is one that `update_mmu_state` accepts, or is not looked at. -/
def MmuSafe (s : Machine) (x : Word) : Csr → Prop
  | .mstatus => s.SatpLegal ∨ x.getLsbD 17 = false ∨ x.extractLsb' 11 2 = 3
  | .satp => s.SatpLegal ∨ x.extractLsb' 60 4 = 8 ∨ x.extractLsb' 60 4 = 0 ∨
      ∀ ifetch, ¬ s.accessMode ifetch < .M
  | _ => True

/-- The CSR instructions on which `csr_is_legal` and `csr_write` do not end the emulator, and after
which a refused write of the time has not moved the timer interrupt. -/
structure CsrSafe (P : Platform) (s : Machine) (d : Decode) : Prop where
  absent : Csr.ofAddr P.toConfig d.csrId = none → P.panicOnUnimpCsr = false
  level : ∀ c, Csr.ofAddr P.toConfig d.csrId = some c →
    (d.csrId.extractLsb' 8 2).toNat ≤ s.mode.toNat
  zone : ∀ c, Csr.ofAddr P.toConfig d.csrId = some c → P.dasics = true →
    dasicsInTrustedZone s d.pc = true
  time : Csr.ofAddr P.toConfig d.csrId = some .mtime → d.csrWrites = true →
    (s.csr .mip).getLsbD 7 = (P.clintUptime s.mmio).2
  rm : ∀ c, Csr.ofAddr P.toConfig d.csrId = some c → ¬ CsrRefused P s d → d.csrWrites = true →
    RmSafe s (d.csrOperand P s c) c
  mmu : ∀ c, Csr.ofAddr P.toConfig d.csrId = some c → ¬ CsrRefused P s d → d.csrWrites = true →
    MmuSafe s (d.csrOperand P s c) c

variable {P : Platform} {s t : Machine} {d : Decode} {c : Csr} {x : Word}

/-- `EX_II`, as the CSR instructions raise it. -/
def illegalStop : Stop := .exception ⟨.II, none, .plain⟩

section Read

/-- The conditions under which `csr_read` raises an exception. -/
def csrReadIllegal (P : Platform) (s : Machine) (c : Csr) : Prop :=
  csrMissing P c = true ∨ (c = .satp ∧ s.mode = .S ∧ s.tvm = true)

theorem csrRead_visible (h : ¬ csrReadIllegal P s c) :
    csrRead P c s = .ok (csrVisible P s c) (csrPrepared P s c) := by
  unfold csrReadIllegal at h
  rw [not_or, Bool.not_eq_true] at h
  obtain ⟨hmiss, hsatp⟩ := h
  cases c with
  | pmpaddr i =>
    have hi : ¬ P.pmpNum ≤ i.val := of_decide_eq_false hmiss
    unfold csrRead csrReadValue csrVisible
    change (if P.pmpNum ≤ i.val then _ else _ : Exec Word) s = _
    rw [if_neg hi]
    dsimp only
    split <;> rfl
  | fflags | frm | fcsr =>
    unfold csrRead csrReadValue
    change (if P.fpuNone then _ else _ : Exec Word) s = _
    rw [show P.fpuNone = false from hmiss]
    rfl
  | satp =>
    have hs : ¬ (s.mode = .S ∧ s.tvm = true) := fun h => hsatp ⟨rfl, h⟩
    unfold csrRead csrReadValue
    change (if s.mode = .S ∧ s.tvm = true then _ else _ : Exec Word) s = _
    rw [if_neg hs]
    rfl
  | mstatus | sstatus =>
    have hm := s.mapMstatus_mstatus (updateMstatusSdVal P)
    unfold csrVisible
    rw [← hm]
    rfl
  | _ => rfl

theorem csrRead_illegal (h : csrReadIllegal P s c) : csrRead P c s = .error illegalStop s := by
  cases c with
  | pmpaddr i =>
    have hi : P.pmpNum ≤ i.val := of_decide_eq_true (h.resolve_right (by rintro ⟨h, -⟩; cases h))
    unfold csrRead csrReadValue
    change (if P.pmpNum ≤ i.val then _ else _ : Exec Word) s = _
    rw [if_pos hi]
    rfl
  | fflags | frm | fcsr =>
    have hf : P.fpuNone = true := h.resolve_right (by rintro ⟨h, -⟩; cases h)
    unfold csrRead csrReadValue
    change (if P.fpuNone then _ else _ : Exec Word) s = _
    rw [hf]
    rfl
  | satp =>
    have hs : s.mode = .S ∧ s.tvm = true := (h.resolve_left (by rintro ⟨⟩)).2
    unfold csrRead csrReadValue
    change (if s.mode = .S ∧ s.tvm = true then _ else _ : Exec Word) s = _
    rw [if_pos hs]
    rfl
  | _ => obtain ⟨⟨⟩⟩ | ⟨⟨⟩, -⟩ := h

end Read

section Prepared

theorem csrPrepared_mode (P : Platform) (s : Machine) (c : Csr) :
    (csrPrepared P s c).mode = s.mode := by
  cases c <;> rfl

theorem csrPrepared_readLoc (P : Platform) (s : Machine) (c : Csr) (l : Loc) :
    (csrPrepared P s c).readLoc l = s.readLoc l := by
  cases c <;> cases l <;> rfl

theorem csrPrepared_csr (P : Platform) (s : Machine) (c : Csr) (hm : c' ≠ .mstatus)
    (hp : c' ≠ .mip) : (csrPrepared P s c).csr c' = s.csr c' := by
  cases c with
  | mstatus | sstatus => exact Machine.mapMstatus_csr _ s hm
  | mtime => exact Machine.setCsr_csr_ne _ _ hp
  | _ => rfl

theorem csrPrepared_trusted (P : Platform) (s : Machine) (c : Csr) (pc : Word) :
    dasicsInTrustedZone (csrPrepared P s c) pc = dasicsInTrustedZone s pc := by
  unfold dasicsInTrustedZone Machine.mcfgSena Machine.mcfgUena
  rw [csrPrepared_mode, csrPrepared_csr P s c (by decide) (by decide),
    csrPrepared_csr P s c (by decide) (by decide), csrPrepared_csr P s c (by decide) (by decide),
    csrPrepared_csr P s c (by decide) (by decide), csrPrepared_csr P s c (by decide) (by decide)]

end Prepared

section Write

def MmuReady (s : Machine) : Prop := ∀ ifetch, s.accessMode ifetch < .M → s.SatpLegal

theorem updateMmuStateInternal_abort (hm : s.accessMode ifetch < .M) (hs : ¬ s.SatpLegal) :
    updateMmuStateInternal ifetch s = .error (.abort .mmuState) s := by
  unfold updateMmuStateInternal
  change (if s.accessMode ifetch < .M then _ else _ : Exec MmuMode) s = _
  rw [if_pos hm]
  exact bind_error (assert_neg _ hs _ s)

theorem updateMmuState_abort (h : ¬ MmuReady s) :
    ∃ t, updateMmuState s = .error (.abort .mmuState) t := by
  unfold MmuReady at h
  rw [not_forall] at h
  obtain ⟨ifetch, h⟩ := h
  rw [Classical.not_imp] at h
  obtain ⟨hm, hs⟩ := h
  by_cases hi : s.accessMode true < .M
  · exact ⟨s, bind_error (updateMmuStateInternal_abort hi hs)⟩
  · have hd : s.accessMode false < .M := by
      cases ifetch with
      | true => exact absurd hm hi
      | false => exact hm
    refine ⟨{ s with ifetchMmuState := s.mmuState true }, ?_⟩
    refine (bind_ok (updateMmuStateInternal_run true fun h => absurd h hi)).trans ?_
    refine (bind_ok rfl).trans ?_
    exact bind_error (updateMmuStateInternal_abort (s := { s with ifetchMmuState := _ }) hd hs)

theorem rm_lt (v : BitVec 3) : v.setWidth 32 < (5 : BitVec 32) ↔ v < 5 := by
  revert v
  decide

theorem extract_shl5 (a : Word) : (a <<< 5).extractLsb' 5 3 = a.extractLsb' 0 3 := by
  ext i hi
  rw [BitVec.getElem_extractLsb', BitVec.getElem_extractLsb', BitVec.getLsbD_shiftLeft,
    decide_eq_true (show 5 + i < 64 by omega), decide_eq_false (show ¬ 5 + i < 5 by omega)]
  simp

theorem extract_mask (a m : Word) (n : Nat) (hm : m.extractLsb' n 3 = 7) :
    (a &&& m).extractLsb' n 3 = a.extractLsb' n 3 := by
  rw [BitVec.extractLsb'_and, hm]
  exact BitVec.and_allOnes

theorem extract_mask_zero (a m : Word) (n : Nat) (hm : m.extractLsb' n 3 = 0) :
    (a &&& m).extractLsb' n 3 = 0 := by
  rw [BitVec.extractLsb'_and, hm]
  exact BitVec.and_zero

theorem csrStore_rm (P : Platform) (s : Machine) (x : Word) (hc : isFpCsr c = true) :
    RmSafe s x c ↔ ((csrStore P s c x).csr .fcsr).extractLsb' 5 3 < 5 := by
  cases c with
  | fcsr =>
    have hf : (csrStore P s .fcsr x).csr .fcsr = x &&& 0xff := by
      change (((s.setCsr .fcsr _).setCsr .fflags _).setCsr .frm _).csr .fcsr = _
      rw [Machine.setCsr_csr_ne _ _ (by decide), Machine.setCsr_csr_ne _ _ (by decide),
        Machine.setCsr_csr_self]
    rw [hf, extract_mask x 0xff 5 (by decide)]
    rfl
  | frm =>
    have hf : (csrStore P s .frm x).csr .fcsr = ((x &&& 7) <<< 5) ||| s.csr .fflags :=
      Machine.setCsr_csr_self _ _ _
    rw [hf, BitVec.extractLsb'_or, extract_shl5, extract_mask x 7 0 (by decide)]
    rfl
  | fflags =>
    have hf : (csrStore P s .fflags x).csr .fcsr = (s.csr .frm <<< 5) ||| (x &&& 0x1f) :=
      Machine.setCsr_csr_self _ _ _
    rw [hf, BitVec.extractLsb'_or, extract_shl5, extract_mask_zero x 0x1f 5 (by decide)]
    change _ ↔ (s.csr .frm).extractLsb' 0 3 ||| 0#3 < 5
    rw [BitVec.or_zero]
    rfl
  | _ => cases hc

theorem csrWrite_legal (x : Word) (h : csrWriteIllegal P s c = false) :
    csrWrite P c x s = csrWriteRefresh P c (csrStore P s c x) := by
  have hget : csrWrite P c x s =
      (illegalIf (csrWriteIllegal P s c) >>= fun _ => csrWriteTail P c x) s := rfl
  rw [hget, h]
  rfl

/-- The MMU state is derived in the state that the assignment and SD leave. -/
def mmuEntry (P : Platform) (s : Machine) : Csr → Machine
  | .mstatus => s.mapMstatus (updateMstatusSdVal P)
  | _ => s

theorem csrWriteRefresh_fp (hc : isFpCsr c = true)
    (h : ((s.csr .fcsr).extractLsb' 5 3) < 5) :
    csrWriteRefresh P c s = .ok () (csrSettled P s c) := by
  have hr : (((s.mapMstatus (fpSetDirtyVal P)).csr .fcsr).extractLsb' 5 3).setWidth 32 <
      (5 : BitVec 32) := by
    rw [Machine.mapMstatus_csr _ _ (by decide)]
    exact (rm_lt _).mpr h
  have hfp : csrWriteFp P c s = .ok () { s.mapMstatus (fpSetDirtyVal P) with
      rmCache := ((s.csr .fcsr).extractLsb' 5 3).setWidth 32 } := by
    unfold csrWriteFp
    rw [if_pos hc]
    refine (bind_ok rfl).trans ?_
    rw [get_bind]
    refine (bind_ok (assert_pos _ hr _ _)).trans ?_
    rw [Machine.mapMstatus_csr _ _ (by decide)]
    rfl
  refine (bind_ok hfp).trans ?_
  cases c with
  | fflags | frm | fcsr =>
    change EStateM.Result.ok () (Machine.setCsr _ .mstatus (updateMstatusSdVal P _)) = _
    unfold csrSettled
    dsimp only [Machine.mapMstatus, Machine.setCsr]
    rw [Function.update_idem, Function.update_self]
  | _ => cases hc

theorem csrWriteRefresh_rm (hc : isFpCsr c = true) (h : ¬ ((s.csr .fcsr).extractLsb' 5 3) < 5) :
    ∃ t, csrWriteRefresh P c s = .error (.abort .roundingMode) t := by
  have hr : ¬ (((s.mapMstatus (fpSetDirtyVal P)).csr .fcsr).extractLsb' 5 3).setWidth 32 <
      (5 : BitVec 32) := by
    rw [Machine.mapMstatus_csr _ _ (by decide)]
    exact fun hr => h ((rm_lt _).mp hr)
  refine ⟨s.mapMstatus (fpSetDirtyVal P), bind_error ?_⟩
  unfold csrWriteFp
  rw [if_pos hc]
  refine (bind_ok rfl).trans ?_
  rw [get_bind]
  exact bind_error (assert_neg _ hr _ _)

theorem csrWriteRefresh_mmu (hc : c = .mstatus ∨ c = .satp) :
    csrWriteRefresh P c s = updateMmuState (mmuEntry P s c) := by
  obtain rfl | rfl := hc
  · rfl
  · rfl

theorem csrWriteRefresh_other (hf : isFpCsr c = false) (hc : ¬ (c = .mstatus ∨ c = .satp)) :
    csrWriteRefresh P c s = .ok () (csrSettled P s c) := by
  cases c with
  | fflags | frm | fcsr => cases hf
  | mstatus | satp => simp at hc
  | _ => rfl

theorem mode_lt_iff (b : BitVec 2) : Mode.ofBits b < .M ↔ b ≠ 3 := by
  revert b
  decide

theorem mmuReady_mstatus (x : Word) (hmode : s.mode = .M) :
    MmuReady (mmuEntry P (csrStore P (csrPrepared P s .mstatus) .mstatus x) .mstatus) ↔
      MmuSafe s x .mstatus := by
  have hst : ∀ (y : Word), ((csrStore P (csrPrepared P s .mstatus) .mstatus y).mapMstatus
      (updateMstatusSdVal P)).csr .mstatus &&& ~~~fpStatusMask =
      BitField.merge mstatusWmask ((csrPrepared P s .mstatus).csr .mstatus) y &&& ~~~fpStatusMask := by
    intro y
    rw [Machine.mapMstatus_mstatus]
    refine (eraseBits_updateMstatusSdVal P _).trans ?_
    exact congrArg (· &&& ~~~fpStatusMask) (Machine.setCsr_csr_self _ _ _)
  generalize hu : mmuEntry P (csrStore P (csrPrepared P s .mstatus) .mstatus x) .mstatus = u
  have hust : u.csr .mstatus &&& ~~~fpStatusMask =
      BitField.merge mstatusWmask ((csrPrepared P s .mstatus).csr .mstatus) x &&& ~~~fpStatusMask := by
    rw [← hu]
    exact hst x
  have hprv : u.mprv = x.getLsbD 17 := by
    have h := congrArg (fun v => v.getLsbD 17) hust
    rw [BitField.getLsbD_and_not _ _ _ (by decide), BitField.getLsbD_and_not _ _ _ (by decide),
      BitField.getLsbD_merge, if_pos (by decide)] at h
    exact h
  have hpp : u.mpp = Mode.ofBits (x.extractLsb' 11 2) := by
    have h := congrArg (fun v => v.extractLsb' 11 2) hust
    rw [BitField.extract_and_not _ _ _ _ (by decide), BitField.extract_and_not _ _ _ _ (by decide),
      BitField.extract_merge_of_set _ _ _ 11 2 (by decide)] at h
    exact congrArg Mode.ofBits h
  have humode : u.mode = .M := by
    rw [← hu]
    exact hmode
  have hsatp : u.SatpLegal ↔ s.SatpLegal := by
    have h : u.csr .satp = s.csr .satp := by
      rw [← hu]
      exact ((Machine.mapMstatus_csr _ _ (by decide)).trans
        (Machine.setCsr_csr_ne _ _ (by decide))).trans (Machine.mapMstatus_csr _ _ (by decide))
    unfold Machine.SatpLegal Machine.satpMode
    rw [h]
  have hi : u.accessMode true = .M := by
    unfold Machine.accessMode
    rw [Bool.not_true, Bool.and_false]
    exact humode
  have hd : u.accessMode false < .M ↔ x.getLsbD 17 = true ∧ x.extractLsb' 11 2 ≠ 3 := by
    unfold Machine.accessMode
    rw [hprv, hpp, humode]
    cases x.getLsbD 17 with
    | true => simpa using mode_lt_iff _
    | false => simp only [Bool.false_and, Bool.false_eq_true, ↓reduceIte, false_and, iff_false]; decide
  unfold MmuReady MmuSafe
  rw [Bool.forall_bool, hsatp, hi, hd]
  constructor
  · rintro ⟨h, -⟩
    by_cases h17 : x.getLsbD 17 = true
    · by_cases h3 : x.extractLsb' 11 2 = 3
      · exact .inr (.inr h3)
      · exact .inl (h ⟨h17, h3⟩)
    · exact .inr (.inl (Bool.not_eq_true _ ▸ h17))
  · intro h
    refine ⟨fun ⟨h17, h3⟩ => ?_, fun h => absurd h (by decide)⟩
    obtain h | h | h := h
    · exact h
    · rw [h17] at h
      cases h
    · exact absurd h h3

theorem mmuReady_satp (x : Word) :
    MmuReady (mmuEntry P (csrStore P s .satp x) .satp) ↔ MmuSafe s x .satp := by
  unfold mmuEntry csrStore MmuSafe
  dsimp only
  split
  · next hx =>
    refine ⟨fun _ => .inr (hx.imp id .inl), fun _ _ _ => ?_⟩
    unfold Machine.SatpLegal Machine.satpMode
    rw [Machine.setCsr_csr_self]
    exact satp_and_legal x _ hx
  · next hx =>
    rw [not_or] at hx
    constructor
    · intro h
      by_cases hs : s.SatpLegal
      · exact .inl hs
      · exact .inr (.inr (.inr fun ifetch hm => hs (h ifetch hm)))
    · rintro (h | h | h | h)
      · exact fun _ _ => h
      · exact absurd h hx.1
      · exact absurd h hx.2
      · exact fun ifetch hm => absurd hm (h ifetch)

end Write

section Legal

theorem csrIsLegal_absent (h : Csr.ofAddr P.toConfig a = none) :
    csrIsLegal P a w pc s =
      (assert (P.panicOnUnimpCsr = false) .unimpCsr >>= fun _ => pure none : Exec (Option Csr)) s := by
  unfold csrIsLegal
  rw [get_bind, h]

theorem csrIsLegal_barred (h : Csr.ofAddr P.toConfig a = some c)
    (hl : ¬ ((a.extractLsb' 8 2).toNat ≤ s.mode.toNat ∧
      (P.dasics = true → dasicsInTrustedZone s pc = true))) :
    csrIsLegal P a w pc s = .error (.abort .csrAccess) s := by
  unfold csrIsLegal
  rw [get_bind, h]
  exact bind_error (assert_neg _ hl _ s)

theorem csrIsLegal_open (h : Csr.ofAddr P.toConfig a = some c)
    (hl : (a.extractLsb' 8 2).toNat ≤ s.mode.toNat ∧
      (P.dasics = true → dasicsInTrustedZone s pc = true)) :
    csrIsLegal P a w pc s =
      .ok (if w && a.extractLsb' 10 2 = 3 then none else some c) s := by
  unfold csrIsLegal
  rw [get_bind, h]
  refine (bind_ok (assert_pos _ hl _ s)).trans ?_
  split <;> rfl

/-- The access is let through by `csr_is_legal`, up to a write to a read-only register. -/
structure CsrOpen (P : Platform) (s : Machine) (d : Decode) (c : Csr) : Prop where
  addr : Csr.ofAddr P.toConfig d.csrId = some c
  level : (d.csrId.extractLsb' 8 2).toNat ≤ s.mode.toNat
  zone : P.dasics = true → dasicsInTrustedZone s d.pc = true

theorem CsrOpen.prepared (h : CsrOpen P s d c) : CsrOpen P (csrPrepared P s c) d c where
  addr := h.addr
  level := by
    rw [csrPrepared_mode]
    exact h.level
  zone hd := by
    rw [csrPrepared_trusted]
    exact h.zone hd

theorem CsrOpen.csrrw_read (h : CsrOpen P s d c) :
    csrrw P true none d.csrId d.pc s = csrRead P c s :=
  bind_ok (csrIsLegal_open h.addr ⟨h.level, h.zone⟩)

theorem CsrOpen.csrrw_readOnly (h : CsrOpen P s d c) (x : Word) (hr : d.csrId.extractLsb' 10 2 = 3) :
    csrrw P false (some x) d.csrId d.pc s = .error illegalStop s := by
  refine (bind_ok (csrIsLegal_open h.addr ⟨h.level, h.zone⟩)).trans ?_
  rw [decide_eq_true hr]
  rfl

theorem CsrOpen.csrrw_write (h : CsrOpen P s d c) (x : Word) (hr : d.csrId.extractLsb' 10 2 ≠ 3) :
    csrrw P false (some x) d.csrId d.pc s = (csrWrite P c x >>= fun _ => pure 0 : Exec Word) s := by
  refine (bind_ok (csrIsLegal_open h.addr ⟨h.level, h.zone⟩)).trans ?_
  rw [decide_eq_false hr]
  rfl

end Legal

section Instr

theorem exec_sysCsr (hid : d.id = .system) (hpriv : d.funct3 ≠ 0) (P : Platform) :
    exec P d = sysCsr P d := by
  have hs : exec P d = rtlSysSlowPath P d := by
    unfold exec
    rw [hid]
  rw [hs]
  exact if_neg hpriv

theorem Decode.IsCsr.exec_eq (h : d.IsCsr) (P : Platform) : exec P d = sysCsr P d :=
  exec_sysCsr h.id h.priv P

theorem sysCsr_read_error (h : csrrw P true none d.csrId d.pc s = .error e t) :
    sysCsr P d s = .error e t :=
  bind_error h

variable (ho : CsrOpen P s d c) (hr : ¬ csrReadIllegal P s c)

include ho hr

theorem CsrOpen.sysCsr_eq :
    sysCsr P d s =
      (if d.csrWrites then do
        let src ← readReg d.src1.preg
        let _ ← csrrw P false (some (Nemu.csrOperand d (csrVisible P s c) src)) d.csrId d.pc
        writeReg d.dest.preg (csrVisible P s c)
      else writeReg d.dest.preg (csrVisible P s c)) (csrPrepared P s c) :=
  bind_ok (ho.csrrw_read.trans (csrRead_visible hr))

theorem CsrOpen.sysCsr_noWrite (hw : d.csrWrites = false) :
    sysCsr P d s = .ok () ((csrPrepared P s c).writeLoc d.dest.preg (csrVisible P s c)) := by
  rw [ho.sysCsr_eq hr, hw]
  rfl

theorem CsrOpen.sysCsr_write (hw : d.csrWrites = true) :
    sysCsr P d s =
      (csrrw P false (some (d.csrOperand P s c)) d.csrId d.pc >>= fun _ =>
        writeReg d.dest.preg (csrVisible P s c)) (csrPrepared P s c) := by
  have hread : (csrPrepared P s c).readLoc d.src1.preg = s.readLoc d.src1.preg :=
    csrPrepared_readLoc P s c _
  rw [ho.sysCsr_eq hr, if_pos hw]
  refine (bind_ok (a := s.readLoc d.src1.preg) (t := csrPrepared P s c) ?_).trans rfl
  rw [← hread]
  rfl

end Instr

section Outcome

theorem csrWriteIllegal_prepared (hr : ¬ csrReadIllegal P s c) :
    csrWriteIllegal P (csrPrepared P s c) c = false := by
  unfold csrReadIllegal at hr
  rw [not_or, Bool.not_eq_true] at hr
  obtain ⟨hmiss, hsatp⟩ := hr
  cases c with
  | fflags | frm | fcsr => exact hmiss
  | pmpaddr i =>
    change (decide (P.pmpNum ≠ 0) && decide (P.pmpNum ≤ i.val)) = false
    rw [show decide (P.pmpNum ≤ i.val) = false from hmiss, Bool.and_false]
  | satp =>
    change (decide (s.mode = .S) && s.tvm) = false
    rw [Bool.and_eq_false_iff, decide_eq_false_iff_not]
    by_cases hm : s.mode = .S
    · exact .inr (Bool.eq_false_iff.mpr fun ht => hsatp ⟨rfl, hm, ht⟩)
    · exact .inl hm
  | _ => rfl

theorem csrPrepared_fp (P : Platform) (s : Machine) (hc : isFpCsr c = true) :
    csrPrepared P s c = s := by
  cases c with
  | fflags | frm | fcsr => rfl
  | _ => cases hc

theorem rmSafe_other (s : Machine) (x : Word) (hc : isFpCsr c = false) : RmSafe s x c := by
  cases c with
  | fflags | frm | fcsr => cases hc
  | _ => trivial

theorem mmuSafe_other (s : Machine) (x : Word) (hc : ¬ (c = .mstatus ∨ c = .satp)) :
    MmuSafe s x c := by
  cases c with
  | mstatus | satp => simp at hc
  | _ => trivial

theorem CsrOpen.machine (h : CsrOpen P s d .mstatus) : s.mode = .M := by
  have ha : d.csrId = 0x300 := (Csr.ofAddr_spec h.addr).1.symm
  have hl := h.level
  rw [ha] at hl
  cases hm : s.mode with
  | M => rfl
  | U | S | H =>
    rw [hm] at hl
    exact absurd hl (by decide)

theorem CsrOpen.mmuReady_iff (h : CsrOpen P s d c) (x : Word) (hc : c = .mstatus ∨ c = .satp) :
    MmuReady (mmuEntry P (csrStore P (csrPrepared P s c) c x) c) ↔ MmuSafe s x c := by
  obtain rfl | rfl := hc
  · exact mmuReady_mstatus x h.machine
  · exact mmuReady_satp x

theorem csrSettled_mmu (hc : c = .mstatus ∨ c = .satp) :
    csrSettled P s c = (mmuEntry P s c).refreshMmu := by
  obtain rfl | rfl := hc
  · rfl
  · rfl

theorem CsrOpen.csrWrite_run (h : CsrOpen P s d c) (hr : ¬ csrReadIllegal P s c)
    (hrm : RmSafe s x c) (hmmu : MmuSafe s x c) :
    csrWrite P c x (csrPrepared P s c) =
      .ok () (csrSettled P (csrStore P (csrPrepared P s c) c x) c) := by
  rw [csrWrite_legal x (csrWriteIllegal_prepared hr)]
  cases hf : isFpCsr c with
  | true =>
    rw [csrPrepared_fp P s hf]
    exact csrWriteRefresh_fp hf ((csrStore_rm P s x hf).mp hrm)
  | false =>
    by_cases hc : c = .mstatus ∨ c = .satp
    · rw [csrWriteRefresh_mmu hc, csrSettled_mmu hc]
      exact updateMmuState_run ((h.mmuReady_iff x hc).mpr hmmu)
    · exact csrWriteRefresh_other hf hc

theorem CsrOpen.csrWrite_abort (h : CsrOpen P s d c) (hr : ¬ csrReadIllegal P s c)
    (hbad : ¬ (RmSafe s x c ∧ MmuSafe s x c)) :
    ∃ a t, csrWrite P c x (csrPrepared P s c) = .error (.abort a) t := by
  rw [csrWrite_legal x (csrWriteIllegal_prepared hr)]
  cases hf : isFpCsr c with
  | true =>
    have hc : ¬ (c = .mstatus ∨ c = .satp) := by
      rintro (rfl | rfl) <;> cases hf
    have hrm : ¬ RmSafe s x c := fun hrm => hbad ⟨hrm, mmuSafe_other s x hc⟩
    rw [csrPrepared_fp P s hf]
    obtain ⟨t, ht⟩ := csrWriteRefresh_rm (P := P) hf fun h => hrm ((csrStore_rm P s x hf).mpr h)
    exact ⟨_, t, ht⟩
  | false =>
    have hmmu : ¬ MmuSafe s x c := fun hmmu => hbad ⟨rmSafe_other s x hf, hmmu⟩
    have hc : c = .mstatus ∨ c = .satp := by
      by_contra hc
      exact hmmu (mmuSafe_other s x hc)
    rw [csrWriteRefresh_mmu hc]
    obtain ⟨t, ht⟩ := updateMmuState_abort fun hready => hmmu ((h.mmuReady_iff x hc).mp hready)
    exact ⟨_, t, ht⟩

end Outcome

section Refused

theorem CsrOpen.refused_iff (h : CsrOpen P s d c) :
    CsrRefused P s d ↔
      csrReadIllegal P s c ∨ (d.csrWrites = true ∧ d.csrId.extractLsb' 10 2 = 3) := by
  constructor
  · rintro (ha | ⟨ha, hm⟩ | ⟨ha, hl⟩ | ⟨ha, hd, hz⟩ | ⟨ha, hw, hro⟩ | ⟨ha, hm, ht⟩)
    · rw [h.addr] at ha
      cases ha
    · rw [h.addr] at ha
      cases ha
      exact .inl (.inl hm)
    · exact absurd h.level (by omega)
    · rw [h.zone hd] at hz
      cases hz
    · exact .inr ⟨hw, hro⟩
    · rw [h.addr] at ha
      cases ha
      exact .inl (.inr ⟨rfl, hm, ht⟩)
  · rintro ((hm | ⟨rfl, hm, ht⟩) | ⟨hw, hro⟩)
    · exact .missing h.addr hm
    · exact .satp h.addr hm ht
    · exact .readOnly h.addr hw hro

theorem csrIllegal_of_error (hd : d.IsCsr) (h : sysCsr P d s = .error illegalStop s) :
    CsrIllegal P d s :=
  ⟨_, s, by rw [hd.exec_eq]; exact h, rfl, rfl, rfl, rfl⟩

theorem not_csrAtomic_of_abort (hd : d.IsCsr) (h : sysCsr P d s = .error (.abort a) t) :
    ¬ CsrAtomic P d s := by
  rw [← hd.exec_eq] at h
  rintro (⟨-, f, u, hf, -⟩ | ⟨-, c, -, hc⟩)
  · rw [h] at hf
    cases hf
  · unfold CsrCompleted at hc
    rw [h] at hc
    cases hc

theorem csrAtomic_absent (hd : d.IsCsr) (ha : Csr.ofAddr P.toConfig d.csrId = none) :
    CsrAtomic P d s ↔ P.panicOnUnimpCsr = false := by
  cases hp : P.panicOnUnimpCsr with
  | true =>
    have hlegal : csrIsLegal P d.csrId false d.pc s = .error (.abort .unimpCsr) s := by
      rw [csrIsLegal_absent ha]
      exact bind_error (assert_neg _ (by rw [hp]; decide) _ s)
    have habort : sysCsr P d s = .error (.abort .unimpCsr) s := sysCsr_read_error (bind_error hlegal)
    exact ⟨fun h => absurd h (not_csrAtomic_of_abort hd habort), fun h => by cases h⟩
  | false =>
    have hlegal : csrIsLegal P d.csrId false d.pc s = .ok none s := by
      rw [csrIsLegal_absent ha]
      exact bind_ok (assert_pos _ hp _ s)
    refine ⟨fun _ => rfl, fun _ => .inl ⟨.absent ha, csrIllegal_of_error hd (sysCsr_read_error ?_)⟩⟩
    exact bind_ok hlegal

theorem csrAtomic_barred (hd : d.IsCsr) (ha : Csr.ofAddr P.toConfig d.csrId = some c)
    (hl : ¬ ((d.csrId.extractLsb' 8 2).toNat ≤ s.mode.toNat ∧
      (P.dasics = true → dasicsInTrustedZone s d.pc = true))) : ¬ CsrAtomic P d s :=
  not_csrAtomic_of_abort hd (sysCsr_read_error (bind_error (csrIsLegal_barred ha hl)))

theorem CsrOpen.csrAtomic_refused (hd : d.IsCsr) (h : CsrOpen P s d c) (hr : csrReadIllegal P s c) :
    CsrAtomic P d s :=
  .inl ⟨h.refused_iff.mpr (.inl hr),
    csrIllegal_of_error hd (sysCsr_read_error (h.csrrw_read.trans (csrRead_illegal hr)))⟩

/-- The registers that cannot be written are read without a trace, except the time. -/
theorem csrPrepared_readOnly (hro : c.addr.extractLsb' 10 2 = 3) (hc : c ≠ .mtime) :
    csrPrepared P s c = s := by
  cases c with
  | mstatus | sstatus => exact absurd hro (by decide)
  | mtime => exact absurd rfl hc
  | _ => rfl

theorem setMtip_csr_iff (b : Bool) (s : Machine) :
    (setMtip (some b) s).csr = s.csr ↔ (s.csr .mip).getLsbD 7 = b := by
  constructor
  · intro h
    have h7 := congrArg (fun f => (f .mip).getLsbD 7) h
    change ((s.setCsr .mip _).csr .mip).getLsbD 7 = _ at h7
    rw [Machine.setCsr_csr_self] at h7
    unfold setBit at h7
    rw [BitField.getLsbD_insert, if_pos (by decide)] at h7
    rw [← h7]
    cases b <;> rfl
  · intro h
    have hsame : setBit 7 b (s.csr .mip) = s.csr .mip := by
      apply BitVec.eq_of_getLsbD_eq
      intro i hi
      unfold setBit
      rw [BitField.getLsbD_insert]
      split
      · next h7 =>
        obtain rfl : i = 7 := by omega
        rw [h]
        cases b <;> rfl
      · rfl
    change (s.setCsr .mip (setBit 7 b (s.csr .mip))).csr = s.csr
    rw [hsame, Machine.setCsr_self]

theorem CsrOpen.csrAtomic_readOnly (hd : d.IsCsr) (h : CsrOpen P s d c)
    (hr : ¬ csrReadIllegal P s c) (hw : d.csrWrites = true) (hro : d.csrId.extractLsb' 10 2 = 3) :
    CsrAtomic P d s ↔ (c = .mtime → (s.csr .mip).getLsbD 7 = (P.clintUptime s.mmio).2) := by
  have hrun : exec P d s = .error illegalStop (csrPrepared P s c) := by
    rw [hd.exec_eq, h.sysCsr_write hr hw]
    exact bind_error (h.prepared.csrrw_readOnly _ hro)
  have href : CsrRefused P s d := h.refused_iff.mpr (.inr ⟨hw, hro⟩)
  have hcsr : (csrPrepared P s c).csr = s.csr ↔
      (c = .mtime → (s.csr .mip).getLsbD 7 = (P.clintUptime s.mmio).2) := by
    by_cases hc : c = .mtime
    · subst hc
      rw [forall_prop_of_true rfl]
      exact setMtip_csr_iff _ { s with mmio := s.mmio ++ [.uptime] }
    · have haddr : c.addr = d.csrId := (Csr.ofAddr_spec h.addr).1
      rw [csrPrepared_readOnly (haddr ▸ hro) hc]
      exact ⟨fun _ h => absurd h hc, fun _ => rfl⟩
  rw [← hcsr]
  constructor
  · rintro (⟨-, f, t, hf, -, -, ht, -⟩ | ⟨hn, -⟩)
    · rw [hrun] at hf
      cases hf
      exact ht
    · exact absurd href hn
  · intro hsame
    refine .inl ⟨href, _, _, hrun, rfl, ?_, hsame, ?_⟩
    · cases c <;> rfl
    · cases c <;> rfl

theorem CsrOpen.csrAtomic_legal (hd : d.IsCsr) (h : CsrOpen P s d c) (hn : ¬ CsrRefused P s d) :
    CsrAtomic P d s ↔ (d.csrWrites = true →
      RmSafe s (d.csrOperand P s c) c ∧ MmuSafe s (d.csrOperand P s c) c) := by
  rw [h.refused_iff, not_or] at hn
  obtain ⟨hr, hro⟩ := hn
  have hn : ¬ CsrRefused P s d := by
    rw [h.refused_iff, not_or]
    exact ⟨hr, hro⟩
  cases hw : d.csrWrites with
  | false =>
    refine ⟨fun _ h => (by cases h), fun _ => .inr ⟨hn, c, h.addr, ?_⟩⟩
    unfold CsrCompleted
    rw [hd.exec_eq, h.sysCsr_noWrite hr hw, hw]
    rfl
  | true =>
    have hro : d.csrId.extractLsb' 10 2 ≠ 3 := fun h3 => hro ⟨hw, h3⟩
    rw [forall_prop_of_true rfl]
    have hrun := h.sysCsr_write hr hw
    constructor
    · intro ha
      by_contra hbad
      obtain ⟨a, t, ht⟩ := h.csrWrite_abort hr hbad
      refine not_csrAtomic_of_abort (a := a) (t := t) hd ?_ ha
      rw [hrun]
      refine bind_error ?_
      rw [h.prepared.csrrw_write _ hro]
      exact bind_error ht
    · rintro ⟨hrm, hmmu⟩
      refine .inr ⟨hn, c, h.addr, ?_⟩
      unfold CsrCompleted
      rw [hd.exec_eq, hrun, hw, if_pos rfl]
      refine (bind_ok (a := 0) (h.prepared.csrrw_write _ hro |>.trans ?_)).trans rfl
      exact bind_ok (h.csrWrite_run hr hrm hmmu)

end Refused

section Safe

theorem csrSafe_absent (ha : Csr.ofAddr P.toConfig d.csrId = none) :
    CsrSafe P s d ↔ P.panicOnUnimpCsr = false := by
  have hnone : ∀ c, Csr.ofAddr P.toConfig d.csrId ≠ some c := by
    intro c hc
    rw [ha] at hc
    cases hc
  constructor
  · intro h
    exact h.absent ha
  · intro h
    exact ⟨fun _ => h, fun c hc => absurd hc (hnone c), fun c hc => absurd hc (hnone c),
      fun hc => absurd hc (hnone _), fun c hc => absurd hc (hnone c), fun c hc => absurd hc (hnone c)⟩

theorem CsrOpen.csrSafe_refused (ho : CsrOpen P s d c) (hn : CsrRefused P s d) :
    CsrSafe P s d ↔ (c = .mtime → d.csrWrites = true →
      (s.csr .mip).getLsbD 7 = (P.clintUptime s.mmio).2) := by
  constructor
  · intro h hc
    exact h.time (ho.addr.trans (congrArg some hc))
  · intro h
    refine ⟨?_, fun _ _ => ho.level, fun _ _ => ho.zone, ?_, fun _ _ h => absurd hn h,
      fun _ _ h => absurd hn h⟩
    · intro hnone
      rw [ho.addr] at hnone
      cases hnone
    · intro hm
      rw [ho.addr] at hm
      cases hm
      exact h rfl

theorem CsrOpen.csrSafe_legal (ho : CsrOpen P s d c) (hn : ¬ CsrRefused P s d) :
    CsrSafe P s d ↔ (d.csrWrites = true →
      RmSafe s (d.csrOperand P s c) c ∧ MmuSafe s (d.csrOperand P s c) c) := by
  have huniq : ∀ c', Csr.ofAddr P.toConfig d.csrId = some c' → c' = c := by
    intro c' hc'
    rw [ho.addr] at hc'
    cases hc'
    rfl
  constructor
  · intro h hw
    exact ⟨h.rm c ho.addr hn hw, h.mmu c ho.addr hn hw⟩
  · intro h
    refine ⟨?_, fun _ _ => ho.level, fun _ _ => ho.zone, ?_, ?_, ?_⟩
    · intro hnone
      rw [ho.addr] at hnone
      cases hnone
    · intro hm hw
      have haddr : d.csrId = 0xc01 := (Csr.ofAddr_spec hm).1.symm
      exact absurd (.readOnly hm hw (by rw [haddr]; decide)) hn
    · intro c' hc' _ hw
      rw [huniq c' hc']
      exact (h hw).1
    · intro c' hc' _ hw
      rw [huniq c' hc']
      exact (h hw).2

end Safe

/-- A CSR instruction is refused without effect or carried out with one write, exactly when none of
the panics and assertions on its way is reached and a refused write of the time moves nothing. -/
theorem csr_instr_atomic_iff (P : Platform) (d : Decode) (s : Machine) (hd : d.IsCsr) :
    CsrAtomic P d s ↔ CsrSafe P s d := by
  cases ha : Csr.ofAddr P.toConfig d.csrId with
  | none => rw [csrAtomic_absent hd ha, csrSafe_absent ha]
  | some c =>
    by_cases hl : (d.csrId.extractLsb' 8 2).toNat ≤ s.mode.toNat ∧
        (P.dasics = true → dasicsInTrustedZone s d.pc = true)
    · have ho : CsrOpen P s d c := ⟨ha, hl.1, hl.2⟩
      by_cases hn : CsrRefused P s d
      · rw [ho.csrSafe_refused hn]
        by_cases hr : csrReadIllegal P s c
        · refine ⟨fun _ hc => ?_, fun _ => ho.csrAtomic_refused hd hr⟩
          subst hc
          obtain ⟨⟨⟩⟩ | ⟨⟨⟩, -⟩ := hr
        · obtain ⟨hw, hro⟩ := (ho.refused_iff.mp hn).resolve_left hr
          rw [ho.csrAtomic_readOnly hd hr hw hro]
          simp only [hw, true_implies]
      · rw [ho.csrAtomic_legal hd hn, ho.csrSafe_legal hn]
    · refine ⟨fun h => absurd h (csrAtomic_barred hd ha hl), fun h => absurd ?_ hl⟩
      exact ⟨h.level c ha, h.zone c ha⟩

def csrrwInstr (csr : BitVec 12) (rd rs1 : BitVec 5) : Decode :=
  decodeCsr ⟨0x80100000, 0x80100004, csr ++ rs1 ++ 1#3 ++ rd ++ 0x73#7, .direct, false⟩ .system

theorem csr_instr_atomic_mscratch :
    CsrAtomic (.bare .standalone) (csrrwInstr 0x340 5 6) (.reset (.bare .standalone) fun _ => 0) := by
  have ha : Csr.ofAddr (Platform.bare .standalone).toConfig (csrrwInstr 0x340 5 6).csrId =
      some .mscratch := by decide
  refine (csr_instr_atomic_iff _ _ _ ⟨rfl, by decide, by decide⟩).mpr ?_
  refine ⟨?_, ?_, ?_, ?_, ?_, ?_⟩
  · exact fun _ => rfl
  · exact fun _ _ => by decide
  · exact fun _ _ _ => by decide
  · intro h
    rw [ha] at h
    cases h
  · intro c h
    rw [ha] at h
    cases h
    exact fun _ _ => trivial
  · intro c h
    rw [ha] at h
    cases h
    exact fun _ _ => trivial

/-- A user program that touches `mstatus` ends the emulator. -/
theorem csr_instr_panics :
    (csrrwInstr 0x300 5 6).IsCsr ∧
      ¬ CsrAtomic (.bare .standalone) (csrrwInstr 0x300 5 6)
        { Machine.reset (.bare .standalone) (fun _ => 0) with mode := .U } := by
  have hd : (csrrwInstr 0x300 5 6).IsCsr := ⟨rfl, by decide, by decide⟩
  refine ⟨hd, csrAtomic_barred (c := .mstatus) hd (by decide) ?_⟩
  rintro ⟨hl, -⟩
  exact absurd hl (by decide)

end Nemu
