import Nemu.AccessStops
import Nemu.Coherence
import Nemu.Exceptions
import Nemu.Formats
import Nemu.Lib.Run

namespace Nemu

open Effect

set_option autoImplicit true

def decodeTable (P : Platform) (f : Fetched) : Except Stop Decode :=
  if f.bits 1 0 ≠ 3 then tableRvc P f else pure (tableMain P f)

namespace Decode

def isCompressed (d : Decode) : Bool := d.instr.extractLsb' 0 2 ≠ 3

def isFpMemory (d : Decode) : Bool :=
  d.instr.extractLsb' 2 5 = 0b00001 || d.instr.extractLsb' 2 5 = 0b01001

/-- An instruction of F and D: one that has an executor of theirs when the FPU is on. -/
def IsFpInstr (P : Platform) (d : Decode) : Prop :=
  ∃ m d', decodeTable P ⟨d.pc, d.snpc, d.instr, m, true⟩ = .ok d' ∧ d'.id.isFp = true

/-- A CSR instruction that names `fflags`, `frm` or `fcsr`. -/
structure NamesFpCsr (d : Decode) : Prop where
  id : d.id = .system
  priv : d.funct3 ≠ 0
  csr : d.csrId = 1 ∨ d.csrId = 2 ∨ d.csrId = 3

def FpUse (P : Platform) (d : Decode) : Prop := d.IsFpInstr P ∨ d.NamesFpCsr

/-- The executor started in `s` raises an illegal instruction and has changed no FP state, no CSR of the
FPU and no memory. -/
def RaisesIllegal (P : Platform) (d : Decode) (s : Machine) : Prop :=
  ∃ f t, exec P d s = .error (.exception f) t ∧ f.cause = .II ∧ t.fpr = s.fpr ∧
    (∀ c, isFpCsr c = true → t.csr c = s.csr c) ∧ t.pmem = s.pmem ∧ t.fs = s.fs

/-- The tests that the code makes: none for the compressed loads and stores, none for CSRs of an FPU
that exists, and for the other loads and stores one that ends a stand-alone emulator which reports
illegal instructions. -/
structure FpGuarded (P : Platform) (d : Decode) (s : Machine) : Prop where
  csr : d.NamesFpCsr → P.fpuNone = true ∧ (P.dasics = true → dasicsInTrustedZone s d.pc = true)
  wide : d.IsFpInstr P → d.isCompressed = false
  memory : d.IsFpInstr P → d.isFpMemory = true → P.reportIllegalInstr = false ∨ P.share = true

end Decode

variable {P : Platform} {d : Decode} {s t u : Machine} {f g : Fetched}

/-- Code that raises no illegal instruction. -/
def noIllegal : Effect Stop Machine :=
  inv (fun _ => True) fun e _ => ∀ f, e = .exception f → f.cause ≠ .II

section NoIllegal

theorem update_noIllegal {g : Machine → Machine} : noIllegal.Within (modify g : Exec PUnit) :=
  .update fun _ _ => trivial

theorem abort_noIllegal (a : Abort) : noIllegal.Within (throw (.abort a) : Exec α) :=
  .raise fun _ _ f h => by cases h

theorem noIllegal_of_access {m : Exec α} (h : accessStops.Within m) : noIllegal.Within m := by
  intro s
  refine (h s).mono (fun _ _ _ => trivial) ?_
  rintro e t he - f rfl
  exact of_decide_eq_true (he trivial)

theorem vaddrReadInternal_noIllegal (m : MmuMode) :
    noIllegal.Within (vaddrReadInternal P pc va len type m) :=
  noIllegal_of_access (vaddrReadInternal_fromAccess m)

theorem vaddrWrite_noIllegal (m : MmuMode) : noIllegal.Within (vaddrWrite P pc va len data m) :=
  noIllegal_of_access (vaddrWrite_fromAccess m)

theorem readReg_noIllegal : noIllegal.Within (readReg l) :=
  .bind (.read _) fun _ => .ret _ _

theorem rtlLm_noIllegal : noIllegal.Within (rtlLm P d dest addr off len m) :=
  .bind readReg_noIllegal fun _ => .bind (vaddrReadInternal_noIllegal m) fun _ =>
    .bind update_noIllegal fun _ => .bind readReg_noIllegal fun _ => update_noIllegal

theorem rtlSm_noIllegal : noIllegal.Within (rtlSm P d data addr off len m) :=
  .bind readReg_noIllegal fun _ => .bind (vaddrWrite_noIllegal m) fun _ => update_noIllegal

end NoIllegal

section Word

theorem instr_ite {a b : Decode} [Decidable p] (ha : a.instr = i) (hb : b.instr = i) :
    (if p then a else b).instr = i := by
  split
  · exact ha
  · exact hb

theorem tableOpFpD_instr : (tableOpFpD f).instr = f.instr := by
  unfold tableOpFpD
  repeat' apply instr_ite
  all_goals rfl

theorem tableOpFp_instr : (tableOpFp f).instr = f.instr := by
  unfold tableOpFp
  repeat' apply instr_ite
  all_goals first | exact tableOpFpD_instr | rfl

theorem tableMain_instr : (tableMain P f).instr = f.instr := by
  unfold tableMain
  repeat' apply instr_ite
  all_goals first | exact tableOpFp_instr | rfl

/-- `p` holds of what the decoder returns. -/
def OkAll (p : Decode → Prop) (r : Except Stop Decode) : Prop := ∀ d, r = .ok d → p d

section OkAll

variable {p : Decode → Prop} {a b : Except Stop Decode}

theorem OkAll.ite [Decidable c] (ha : c → OkAll p a) (hb : ¬ c → OkAll p b) :
    OkAll p (if c then a else b) := by
  split
  · next h => exact ha h
  · next h => exact hb h

theorem OkAll.ok (h : p d) : OkAll p (pure d) := by
  intro d' hd
  cases hd
  exact h

theorem OkAll.error (e : Stop) : OkAll p (throw e) := by
  intro d hd
  cases hd

end OkAll

theorem tableRvcQ1Compute_instr : (tableRvcQ1Compute f).instr = f.instr := by
  unfold tableRvcQ1Compute
  repeat' apply instr_ite
  all_goals rfl

theorem decodeCJR_instr {e : ExecId} : OkAll (fun d => d.instr = f.instr) (decodeCJR P f e) :=
  .ite (fun _ => .error _) fun _ => .ok rfl

theorem tableRvcQ2Misc_instr : OkAll (fun d => d.instr = f.instr) (tableRvcQ2Misc P f) := by
  refine .ite (fun _ => .ite (fun _ => decodeCJR_instr) fun _ => .ite (fun _ => decodeCJR_instr)
    fun _ => .ok rfl) fun _ => ?_
  exact .ite (fun _ => .ok rfl) fun _ => .ite (fun _ => .ok rfl) fun _ => .ite (fun _ => .ok rfl)
    fun _ => .ok rfl

theorem tableRvc_instr : OkAll (fun d => d.instr = f.instr) (tableRvc P f) := by
  refine .ite (fun _ => ?_) fun _ => .ite (fun _ => ?_) fun _ => ?_
  · unfold tableRvcQ0
    dsimp only
    repeat' refine OkAll.ite (fun _ => ?_) fun _ => ?_
    all_goals exact .ok rfl
  · unfold tableRvcQ1
    split
    · exact .ok rfl
    · exact .ok rfl
    · exact .ok rfl
    · exact .ite (fun _ => .ite (fun _ => .ite (fun _ => .error _) fun _ => .error _) fun _ => .ok rfl)
        fun _ => .ite (fun _ => .error _) fun _ => .ok rfl
    · exact .ok tableRvcQ1Compute_instr
    · exact .ok rfl
    · exact .ok rfl
    · exact .ok rfl
  · have hload : ∀ rotate isFp id, OkAll (fun d => d.instr = f.instr) (decodeCLxSP P f rotate isFp id) :=
      fun _ _ _ => .ite (fun _ => .error _) fun _ => .ok rfl
    unfold tableRvcQ2
    dsimp only
    refine .ite (fun _ => .ok rfl) fun _ => .ite (fun _ => hload _ _ _) fun _ =>
      .ite (fun _ => hload _ _ _) fun _ => .ite (fun _ => hload _ _ _) fun _ =>
      .ite (fun _ => tableRvcQ2Misc_instr) fun _ => ?_
    repeat' refine OkAll.ite (fun _ => ?_) fun _ => ?_
    all_goals exact .ok rfl

theorem decodeTable_instr : OkAll (fun d => d.instr = f.instr) (decodeTable P f) :=
  .ite (fun _ => tableRvc_instr) fun _ => .ok tableMain_instr

theorem low_bits (lo hi : Word) :
    (lo.setWidth 32 ||| (hi.setWidth 32 <<< 16) : BitVec 32).extractLsb' 0 2 = lo.extractLsb' 0 2 := by
  ext i h
  simp only [BitVec.getElem_extractLsb', BitVec.getLsbD_or, BitVec.getLsbD_setWidth,
    BitVec.getLsbD_shiftLeft, Nat.zero_add]
  have h1 : i < 32 := by omega
  have h2 : i < 16 := by omega
  simp [h1, h2]

theorem low_bits_half (lo : Word) : (lo.setWidth 32 : BitVec 32).extractLsb' 0 2 = lo.extractLsb' 0 2 := by
  ext i h
  simp only [BitVec.getElem_extractLsb', BitVec.getLsbD_setWidth, Nat.zero_add]
  have h1 : i < 32 := by omega
  simp [h1]

theorem fs_of_eraseAccess (h : t.eraseAccess = s.eraseAccess) : t.fs = s.fs := by
  have h1 := congrArg Machine.fs h
  exact h1

theorem fetchDecode_decoded (h : fetchDecode P s = .ok d t) :
    ∃ f : Fetched, decodeTable P f = .ok d ∧ f.fpEnable = decide (s.fs ≠ 0) := by
  obtain ⟨-, lo, v, w, hv, hd, -⟩ := fetchDecode_parts h
  obtain ⟨u, hu, ⟨hlow, htable⟩ | ⟨hlow, hi, rfl⟩⟩ := decodeRest_tables hd
  · refine ⟨u.fetched s.pc (s.pc + 2) (lo.setWidth 32), ?_, ?_⟩
    · have hbits : (u.fetched s.pc (s.pc + 2) (lo.setWidth 32)).bits 1 0 ≠ 3 := by
        change (lo.setWidth 32 : BitVec 32).extractLsb' 0 2 ≠ 3
        rw [low_bits_half]
        exact hlow
      unfold decodeTable
      rw [if_pos hbits]
      exact htable
    · exact congrArg (fun x => decide (x ≠ 0)) (fs_of_eraseAccess (hu.trans hv))
  · refine ⟨u.fetched s.pc (s.pc + 4) (lo.setWidth 32 ||| (hi.setWidth 32 <<< 16)), ?_, ?_⟩
    · have hbits : ¬ (u.fetched s.pc (s.pc + 4) (lo.setWidth 32 ||| (hi.setWidth 32 <<< 16))).bits 1 0 ≠
          3 := by
        change ¬ (lo.setWidth 32 ||| (hi.setWidth 32 <<< 16) : BitVec 32).extractLsb' 0 2 ≠ 3
        rw [low_bits]
        exact not_not.mpr hlow
      unfold decodeTable
      rw [if_neg hbits]
      rfl
    · exact congrArg (fun y => decide (y ≠ 0)) (fs_of_eraseAccess (hu.trans hv))

end Word

section Tables

section Fits

variable {e : ExecId}

theorem plain_not_fp (h : e.isPlain = true) : e.isFp = false := (ExecId.isPlain_spec h).2.2.1

theorem fitsI_not_fp (h : e.fitsI = true) : e.isFp = false := by
  simp only [ExecId.fitsI, Bool.and_eq_true] at h
  exact plain_not_fp h.1.1

theorem fitsR_not_fp (h : e.fitsR = true) : e.isFp = false := by
  simp only [ExecId.fitsR, Bool.and_eq_true] at h
  exact plain_not_fp h.1

theorem fitsS_not_fp (h : e.fitsS = true) : e.isFp = false := by
  simp only [ExecId.fitsS, Bool.and_eq_true] at h
  exact plain_not_fp h.1.1

theorem fitsB_not_fp (h : e.fitsB = true) : e.isFp = false := by
  simp only [ExecId.fitsB, Bool.and_eq_true, Bool.not_eq_true'] at h
  exact h.1.1.2

theorem fitsJ_not_fp (h : e.fitsJ = true) : e.isFp = false := by
  simp only [ExecId.fitsJ, Bool.and_eq_true, Bool.not_eq_true'] at h
  exact h.1.1.1.1.2

end Fits

/-- A row that has an executor of F and D only under `q`. -/
def FpOnly (q : Prop) (d : Decode) : Prop := d.id.isFp = true → q

section FpOnly

variable {q : Prop} {a b : Decode}

theorem FpOnly.ite [Decidable p] (ha : p → FpOnly q a) (hb : ¬ p → FpOnly q b) :
    FpOnly q (if p then a else b) := by
  split
  · next h => exact ha h
  · next h => exact hb h

theorem FpOnly.never (h : d.id.isFp = false) : FpOnly q d := fun h' =>
  absurd (h.symm.trans h') Bool.false_ne_true

end FpOnly

theorem tableFldst_funct3 {a b : ExecId} (h : (tableFldst P f a b).isFp = true) :
    f.funct3 = 2 ∨ f.funct3 = 3 := by
  unfold tableFldst at h
  by_cases h2 : f.funct3 = 2
  · exact .inl h2
  by_cases h3 : f.funct3 = 3
  · exact .inr h3
  rw [if_neg fun hc => h2 hc.2, if_neg fun hc => h3 hc.2] at h
  split at h <;> cases h

theorem tableFldst_off {a b : ExecId} (hoff : f.fpEnable = false) (h3 : f.funct3 = 2 ∨ f.funct3 = 3) :
    tableFldst P f a b = .inv := by
  unfold tableFldst
  rw [hoff]
  obtain h3 | h3 := h3
  · simp [h3]
  · simp [h3]

/-- The major opcodes of the FPU: loads and stores, and the others. -/
def Fetched.FpLdst (f : Fetched) : Prop :=
  (f.opcode = 0b00001 ∨ f.opcode = 0b01001) ∧ (f.funct3 = 2 ∨ f.funct3 = 3)

def Fetched.FpCompute (f : Fetched) : Prop :=
  (f.opcode = 0b10000 ∨ f.opcode = 0b10001 ∨ f.opcode = 0b10010 ∨ f.opcode = 0b10011) ∨
    f.opcode = 0b10100

theorem tableMain_fp : FpOnly (P.fpuNone = false ∧ (f.FpLdst ∨ f.FpCompute)) (tableMain P f) := by
  unfold tableMain
  refine .ite (fun _ => .never (fitsI_not_fp tableLoad_fits)) fun _ =>
    .ite (fun h h' => ⟨h.1, .inl ⟨.inl h.2, tableFldst_funct3 h'⟩⟩) fun _ =>
    .ite (fun _ => .never rfl) fun _ => .ite (fun _ => .never rfl) fun _ =>
    .ite (fun _ => .never (fitsI_not_fp tableMemFence_fits)) fun _ =>
    .ite (fun _ => .never (fitsI_not_fp tableOpImm_fits)) fun _ => .ite (fun _ => .never rfl) fun _ =>
    .ite (fun _ => .never (fitsI_not_fp tableOpImm32_fits)) fun _ =>
    .ite (fun _ => .never (fitsS_not_fp tableStore_fits)) fun _ =>
    .ite (fun h h' => ⟨h.1, .inl ⟨.inr h.2, tableFldst_funct3 h'⟩⟩) fun _ =>
    .ite (fun _ => .never (fitsR_not_fp tableAtomic_fits)) fun _ =>
    .ite (fun _ => .never (fitsR_not_fp tableRvm_fits)) fun _ =>
    .ite (fun _ => .never (fitsR_not_fp tableOp_fits)) fun _ => .ite (fun _ => .never rfl) fun _ =>
    .ite (fun _ => .never (fitsR_not_fp tableRvm32_fits)) fun _ =>
    .ite (fun _ => .never (fitsR_not_fp tableOp32_fits)) fun _ =>
    .ite (fun h _ => ⟨h.1, .inr (.inl h.2)⟩) fun _ => .ite (fun h _ => ⟨h.1, .inr (.inr h.2)⟩) fun _ =>
    .ite (fun _ => .never rfl) fun _ => .ite (fun _ => .never (fitsB_not_fp tableBranch_fits)) fun _ =>
    .ite (fun _ => .never (fitsI_not_fp tableJalrDispatch_fits)) fun _ =>
    .ite (fun _ => .never rfl) fun _ => .ite (fun _ => .never (fitsJ_not_fp tableJalDispatch_fits)) fun _ =>
    .ite (fun _ => .never (fitsI_not_fp tableSystem_fits)) fun _ => .never rfl

theorem tableMain_off (hp : P.fpuNone = false) (hoff : f.fpEnable = false)
    (hop : f.FpLdst) : (tableMain P f).id = .inv := by
  obtain ⟨hop | hop, h3⟩ := hop
  · have hrow : tableMain P f = decodeFload f (tableFload P f) := by
      unfold tableMain
      simp [hop, hp]
    rw [hrow]
    exact tableFldst_off hoff h3
  · have hrow : tableMain P f = decodeFstore f (tableFstore P f) := by
      unfold tableMain
      simp [hop, hp]
    rw [hrow]
    exact tableFldst_off hoff h3

theorem tableMain_rt_off (hp : P.fpuNone = false) (hoff : f.fpEnable = false)
    (hop : f.FpCompute) : (tableMain P f).id = .rt_inv := by
  have hmadd : (decodeFr f (tableFmaddDispatch f)).id = .rt_inv := if_pos hoff
  have hfp : (tableOpFp f).id = .rt_inv := congrArg Decode.id (if_pos hoff)
  have hrow : tableMain P f = decodeFr f (tableFmaddDispatch f) ∨ tableMain P f = tableOpFp f := by
    unfold tableMain
    obtain (hop | hop | hop | hop) | hop := hop <;> simp [hop, hp]
  obtain hrow | hrow := hrow
  · rw [hrow]
    exact hmadd
  · rw [hrow]
    exact hfp

/-- The compressed loads and stores of the FPU. -/
def Fetched.FpCompressed (f : Fetched) : Prop := f.bits 1 0 ≠ 1 ∧ (f.bits 15 13 = 1 ∨ f.bits 15 13 = 5)

theorem tableRvcQ1_not_fp : OkAll (FpOnly q) (tableRvcQ1 P f) := by
  unfold tableRvcQ1
  split
  · exact .ok (.never (fitsI_not_fp tableCAddiDispatch_fits))
  · exact .ok (.never (fitsI_not_fp (ExecId.fits_ite rfl rfl)))
  · exact .ok (.never (fitsI_not_fp (ExecId.fits_ite rfl (ExecId.fits_ite rfl rfl))))
  · exact .ite (fun _ => .ite (fun _ => .ite (fun _ => .error _) fun _ => .error _)
      fun _ => .ok (.never rfl)) fun _ => .ite (fun _ => .error _) fun _ => .ok (.never rfl)
  · refine .ok ?_
    unfold tableRvcQ1Compute
    dsimp only
    repeat' refine FpOnly.ite (fun _ => ?_) fun _ => ?_
    all_goals exact .never rfl
  · exact .ok (.never rfl)
  · exact .ok (.never rfl)
  · exact .ok (.never rfl)

theorem tableRvcQ2Misc_not_fp : OkAll (FpOnly q) (tableRvcQ2Misc P f) := by
  have hjr : ∀ {e : ExecId}, e.isFp = false → OkAll (FpOnly q) (decodeCJR P f e) := fun he =>
    .ite (fun _ => .error _) fun _ => .ok (.never he)
  refine .ite (fun _ => .ite (fun _ => hjr rfl) fun _ => .ite (fun _ => hjr rfl)
    fun _ => .ok (.never rfl)) fun _ => ?_
  exact .ite (fun _ => .ok (.never rfl)) fun _ => .ite (fun _ => .ok (.never rfl)) fun _ =>
    .ite (fun _ => .ok (.never rfl)) fun _ => .ok (.never rfl)

theorem tableRvc_fp : OkAll (FpOnly (P.fpuNone = false ∧ f.FpCompressed)) (tableRvc P f) := by
  have hsp : ∀ rotate {e : ExecId}, e.isFp = false →
      OkAll (FpOnly (P.fpuNone = false ∧ f.FpCompressed)) (decodeCLxSP P f rotate false e) :=
    fun _ _ he => .ite (fun _ => .error _) fun _ => .ok (.never he)
  refine .ite (fun h0 => ?_) fun _ => .ite (fun _ => tableRvcQ1_not_fp) fun h1 => ?_
  · have hq : f.bits 1 0 ≠ 1 := by
      rw [h0]
      decide
    refine .ite (fun _ => .ok (.never rfl)) fun _ => .ite (fun _ => .ok (.never rfl)) fun _ =>
      .ite (fun h => .ok fun _ => ⟨h.1, hq, .inl h.2⟩) fun _ => .ite (fun _ => .ok (.never rfl)) fun _ =>
      .ite (fun _ => .ok (.never rfl)) fun _ => .ite (fun h => .ok fun _ => ⟨h.1, hq, .inr h.2⟩) fun _ =>
      .ite (fun _ => .ok (.never rfl)) fun _ => .ite (fun _ => .ok (.never rfl)) fun _ => .ok (.never rfl)
  · refine .ite (fun _ => .ok (.never rfl)) fun _ =>
      .ite (fun h => .ite (fun _ => .error _) fun _ => .ok fun _ => ⟨h.1, h1, .inl h.2⟩) fun _ =>
      .ite (fun _ => hsp _ rfl) fun _ => .ite (fun _ => hsp _ rfl) fun _ =>
      .ite (fun _ => tableRvcQ2Misc_not_fp) fun _ => .ite (fun h => .ok fun _ => ⟨h.1, h1, .inr h.2⟩) fun _ =>
      .ite (fun _ => .ok (.never rfl)) fun _ => .ite (fun _ => .ok (.never rfl)) fun _ => .ok (.never rfl)

/-- The compressed loads and stores are decoded whether the FPU is on or off. -/
theorem tableRvc_row (hp : P.fpuNone = false) (hrow : f.FpCompressed) :
    OkAll (fun d => ∃ m, d.id = .fload .W64 m ∨ d.id = .fstore .W64 m) (tableRvc P f) := by
  obtain ⟨hq, h3 | h3⟩ := hrow
  · have h0 : tableRvcQ0 P f = pure (decodeCLdst f 2 false true (.fload .W64 f.mmuMode)) := by
      unfold tableRvcQ0
      simp [h3, hp]
    have h2 : tableRvcQ2 P f = decodeCLxSP P f 3 true (.fload .W64 f.mmuMode) := by
      unfold tableRvcQ2
      simp [h3, hp]
    unfold tableRvc
    rw [h0, h2]
    refine .ite (fun _ => .ok ⟨_, .inl rfl⟩) fun _ => .ite (fun h => absurd h hq) fun _ =>
      .ite (fun _ => .error _) fun _ => .ok ⟨_, .inl rfl⟩
  · have h0 : tableRvcQ0 P f = pure (decodeCLdst f 2 true true (.fstore .W64 f.mmuMode)) := by
      unfold tableRvcQ0
      simp [h3, hp]
    have h2 : tableRvcQ2 P f = pure (decodeCSxSP f 3 true (.fstore .W64 f.mmuMode)) := by
      unfold tableRvcQ2
      simp [h3, hp]
    unfold tableRvc
    rw [h0, h2]
    exact .ite (fun _ => .ok ⟨_, .inr rfl⟩) fun _ => .ite (fun h => absurd h hq) fun _ => .ok ⟨_, .inr rfl⟩

end Tables

section Off

theorem Fetched.bits_congr (h : g.instr = f.instr) (hi lo : Nat) : g.bits hi lo = f.bits hi lo := by
  unfold Fetched.bits
  rw [h]

theorem fp_off_decoded (hfs : s.fs = 0) (hf : fetchDecode P s = .ok d u) (h : d.IsFpInstr P) :
    (d.isCompressed = true ∧ ∃ m, d.id = .fload .W64 m ∨ d.id = .fstore .W64 m) ∨
      (d.isCompressed = false ∧ d.isFpMemory = true ∧ d.id = .inv) ∨
      (d.isCompressed = false ∧ d.isFpMemory = false ∧ d.id = .rt_inv) := by
  obtain ⟨f, hd, hen⟩ := fetchDecode_decoded hf
  obtain ⟨m, d', hd', hfp⟩ := h
  have hoff : f.fpEnable = false := by simp [hen, hfs]
  have hinstr : d.instr = f.instr := decodeTable_instr d hd
  have hb := Fetched.bits_congr (g := ⟨d.pc, d.snpc, d.instr, m, true⟩) hinstr
  have hcomp : d.isCompressed = decide (f.bits 1 0 ≠ 3) := by
    unfold Decode.isCompressed
    rw [hinstr]
    rfl
  have hmem : d.isFpMemory = (decide (f.opcode = 0b00001) || decide (f.opcode = 0b01001)) := by
    unfold Decode.isFpMemory
    rw [hinstr]
    rfl
  unfold decodeTable at hd hd'
  rw [hb] at hd'
  by_cases hw : f.bits 1 0 ≠ 3
  · rw [if_pos hw] at hd hd'
    obtain ⟨hp, hrow⟩ := tableRvc_fp d' hd' hfp
    unfold Fetched.FpCompressed at hrow
    rw [hb, hb] at hrow
    exact .inl ⟨hcomp.trans (decide_eq_true hw), tableRvc_row hp hrow d hd⟩
  · rw [if_neg hw] at hd hd'
    cases hd
    cases hd'
    obtain ⟨hp, hrow⟩ := tableMain_fp hfp
    unfold Fetched.FpLdst Fetched.FpCompute Fetched.opcode Fetched.funct3 at hrow
    rw [hb, hb] at hrow
    refine .inr ?_
    obtain hrow | hrow := hrow
    · refine .inl ⟨hcomp.trans (decide_eq_false hw), ?_, tableMain_off hp hoff hrow⟩
      rw [hmem]
      obtain ⟨hop | hop, -⟩ := hrow
      · exact (congrArg (fun x : BitVec 5 => decide (x = 0b00001) || decide (x = 0b01001)) hop).trans rfl
      · exact (congrArg (fun x : BitVec 5 => decide (x = 0b00001) || decide (x = 0b01001)) hop).trans rfl
    · refine .inr ⟨hcomp.trans (decide_eq_false hw), ?_, tableMain_rt_off hp hoff hrow⟩
      rw [hmem]
      obtain (hop | hop | hop | hop) | hop := hrow <;>
        exact (congrArg (fun x : BitVec 5 => decide (x = 0b00001) || decide (x = 0b01001)) hop).trans rfl

theorem fp_off_other (hfs : s.fs = 0) (hf : fetchDecode P s = .ok d u) (h : ¬ d.IsFpInstr P) :
    d.id.isFp = false := by
  obtain ⟨f, hd, hen⟩ := fetchDecode_decoded hf
  have hoff : f.fpEnable = false := by simp [hen, hfs]
  rw [← Bool.not_eq_true]
  intro hfp
  by_cases hw : f.bits 1 0 ≠ 3
  · apply h
    have hplaced : DecodesAt f (.ok d) := by
      unfold decodeTable at hd
      rw [if_pos hw] at hd
      rw [← hd]
      exact tableRvc_decodes
    have hg : (⟨d.pc, d.snpc, d.instr, f.mmuMode, true⟩ : Fetched) = { f with fpEnable := true } := by
      rw [hplaced.pc, hplaced.snpc, decodeTable_instr d hd]
    refine ⟨f.mmuMode, d, ?_, hfp⟩
    rw [hg]
    unfold decodeTable at hd ⊢
    rw [if_pos hw] at hd
    exact (if_pos hw).trans hd
  · unfold decodeTable at hd
    rw [if_neg hw] at hd
    cases hd
    obtain ⟨hp, hrow | hrow⟩ := tableMain_fp hfp
    · rw [tableMain_off hp hoff hrow] at hfp
      cases hfp
    · rw [tableMain_rt_off hp hoff hrow] at hfp
      cases hfp

end Off

section Illegal

theorem raisesIllegal_of (h : exec P d s = .error (.exception ⟨.II, none, .plain⟩) s) :
    d.RaisesIllegal P s :=
  ⟨_, s, h, rfl, rfl, fun _ _ => rfl, rfl, rfl⟩

theorem not_raisesIllegal (h : noIllegal.At s (exec P d)) : ¬ d.RaisesIllegal P s := by
  rintro ⟨f, t, he, hc, -⟩
  exact h.error he trivial f rfl hc

theorem raisesIllegal_inv (hid : d.id = .inv) :
    d.RaisesIllegal P s ↔ P.reportIllegalInstr = false ∨ P.share = true := by
  have hexec : exec P d = execInv P d := by
    unfold exec
    rw [hid]
  by_cases h : (P.reportIllegalInstr && !P.share) = true
  · have hreport : execInv P d = _ := if_pos h
    rw [Bool.and_eq_true, Bool.not_eq_true'] at h
    refine iff_of_false (not_raisesIllegal ?_) (by simp [h.1, h.2])
    rw [hexec, hreport]
    exact Within.bind (vaddrReadInternal_noIllegal _) (fun _ =>
      .bind (vaddrReadInternal_noIllegal _) fun _ => abort_noIllegal _) s
  · refine iff_of_true (raisesIllegal_of ?_) ?_
    · rw [hexec]
      exact congrFun (if_neg h) s
    · revert h
      cases P.reportIllegalInstr <;> cases P.share <;> simp

theorem raisesIllegal_rt_inv (hid : d.id = .rt_inv) : d.RaisesIllegal P s := by
  apply raisesIllegal_of
  unfold exec
  rw [hid]
  rfl

theorem execFload_noIllegal : noIllegal.Within (execFload P d w m) :=
  .bind rtlLm_noIllegal fun _ => .bind readReg_noIllegal fun _ => .bind update_noIllegal fun _ =>
    update_noIllegal

theorem execFstore_noIllegal : noIllegal.Within (execFstore P d w m) :=
  .bind readReg_noIllegal fun _ => rtlSm_noIllegal

theorem not_raisesIllegal_memory (hid : d.id = .fload w m ∨ d.id = .fstore w m) :
    ¬ d.RaisesIllegal P s := by
  apply not_raisesIllegal
  unfold exec
  obtain hid | hid := hid
  · rw [hid]
    exact execFload_noIllegal s
  · rw [hid]
    exact execFstore_noIllegal s

end Illegal

section FpCsrs

/-- Whether a CSR that any mode may access is accessed from a trusted zone. -/
def CsrTrusted (P : Platform) (s : Machine) (pc : Word) : Prop :=
  P.dasics = true → dasicsInTrustedZone s pc = true

instance : Decidable (CsrTrusted P s pc) := inferInstanceAs (Decidable (_ → _))

theorem csrIsLegal_user {c : Csr} (hc : Csr.ofAddr P.toConfig a = some c) (hm : a.extractLsb' 8 2 = 0)
    (hr : a.extractLsb' 10 2 ≠ 3) (w : Bool) (pc : Word) (s : Machine) :
    csrIsLegal P a w pc s =
      if CsrTrusted P s pc then .ok (some c) s else .error (.abort .csrAccess) s := by
  have hle : (a.extractLsb' 8 2).toNat ≤ s.mode.toNat := by
    rw [hm]
    exact Nat.zero_le _
  have hrun : csrIsLegal P a w pc s =
      (assert ((a.extractLsb' 8 2).toNat ≤ s.mode.toNat ∧ (P.dasics → dasicsInTrustedZone s pc)) .csrAccess
        >>= fun _ => pure (some c)) s := by
    unfold csrIsLegal
    rw [get_bind]
    simp only [hc, hr, decide_false, Bool.and_false, Bool.false_eq_true, ↓reduceIte]
  rw [hrun]
  by_cases ht : CsrTrusted P s pc
  · rw [if_pos ht, bind_ok (assert_pos _ ⟨hle, ht⟩ _ s)]
    rfl
  · rw [if_neg ht, bind_error (assert_neg _ (fun h => ht h.2) _ s)]

theorem fpCsr_legal (ha : a = 1 ∨ a = 2 ∨ a = 3) : ∃ c, isFpCsr c = true ∧ ∀ w pc s,
    csrIsLegal P a w pc s =
      if CsrTrusted P s pc then .ok (some c) s else .error (.abort .csrAccess) s := by
  obtain rfl | rfl | rfl := ha
  · exact ⟨.fflags, rfl, csrIsLegal_user rfl (by decide) (by decide)⟩
  · exact ⟨.frm, rfl, csrIsLegal_user rfl (by decide) (by decide)⟩
  · exact ⟨.fcsr, rfl, csrIsLegal_user rfl (by decide) (by decide)⟩

theorem csrRead_fp {c : Csr} (hc : isFpCsr c = true) (s : Machine) :
    if P.fpuNone then csrRead P c s = .error (.exception ⟨.II, none, .plain⟩) s
    else ∃ v, csrRead P c s = .ok v s := by
  have hval : ∀ v, csrRead P c s = (if P.fpuNone then longjmpException .II else pure v : Exec Word) s →
      if P.fpuNone then csrRead P c s = .error (.exception ⟨.II, none, .plain⟩) s
      else ∃ v, csrRead P c s = .ok v s := by
    intro v h
    split
    · next hp => rw [h, if_pos hp]; rfl
    · next hp => exact ⟨v, by rw [h, if_neg hp]; rfl⟩
  cases c with
  | fflags => exact hval _ rfl
  | frm => exact hval _ rfl
  | fcsr => exact hval _ rfl
  | _ => cases hc

theorem noIllegal_of_noException {m : Exec α} (h : noException.Within m) : noIllegal.Within m := by
  intro s
  refine (h s).mono (fun _ ht => ht) ?_
  intro e t he ht f hf
  exact absurd hf ((he ht).1 f)

theorem csrWrite_fp_noIllegal {c : Csr} (hp : P.fpuNone = false) (hc : isFpCsr c = true) :
    noIllegal.Within (csrWrite P c x) := by
  refine .bind (.read _) fun s => ?_
  have hlegal : csrWriteIllegal P s c = false := by
    cases c with
    | fflags | frm | fcsr => exact hp
    | _ => cases hc
  rw [hlegal]
  exact .bind (.ret _ _) fun _ => noIllegal_of_noException csrWriteTail_noException

/-- CSR instructions on the CSRs of the FPU test neither FS nor, where there is an FPU, anything else. -/
theorem raisesIllegal_csr (h : d.NamesFpCsr) :
    d.RaisesIllegal P s ↔ P.fpuNone = true ∧ CsrTrusted P s d.pc := by
  obtain ⟨c, hc, hlegal⟩ := fpCsr_legal (P := P) h.csr
  have hexec : exec P d = sysCsr P d := by
    unfold exec
    rw [h.id]
    exact if_neg h.priv
  have hread := csrRead_fp (P := P) hc s
  by_cases ht : CsrTrusted P s d.pc
  · have hl : csrIsLegal P d.csrId false d.pc s = .ok (some c) s := (hlegal _ _ _).trans (if_pos ht)
    have hrw : csrrw P true none d.csrId d.pc s = csrRead P c s := bind_ok hl
    by_cases hp : P.fpuNone = true
    · rw [if_pos hp] at hread
      refine iff_of_true (raisesIllegal_of ?_) ⟨hp, ht⟩
      rw [hexec]
      exact bind_error (hrw.trans hread)
    · rw [if_neg hp] at hread
      obtain ⟨v, hv⟩ := hread
      refine iff_of_false (not_raisesIllegal ?_) fun hn => hp hn.1
      rw [hexec]
      refine At.bind (At.of_ok (hrw.trans hv) fun _ => trivial) fun old t _ => ?_
      split
      · refine Within.bind readReg_noIllegal (fun src => .bind ?_ fun _ => update_noIllegal) t
        intro u
        have hl' := hlegal true d.pc u
        by_cases ht' : CsrTrusted P u d.pc
        · rw [if_pos ht'] at hl'
          refine At.bind (At.of_ok hl' fun _ => trivial) fun r w hr => ?_
          cases hl'.symm.trans hr
          exact Within.bind (csrWrite_fp_noIllegal (Bool.eq_false_of_not_eq_true hp) hc)
            (fun _ => .ret _ _) u
        · rw [if_neg ht'] at hl'
          refine At.of_error (bind_error hl') fun _ f hf => ?_
          cases hf
      · exact update_noIllegal t
  · refine iff_of_false (not_raisesIllegal ?_) fun hn => ht hn.2
    have hl : csrIsLegal P d.csrId false d.pc s = .error (.abort .csrAccess) s :=
      (hlegal _ _ _).trans (if_neg ht)
    rw [hexec]
    refine At.of_error (bind_error (bind_error hl)) fun _ f hf => ?_
    cases hf

/-- With the FPU off an FP instruction is illegal exactly when it is guarded. -/
theorem fp_off_iff (hfs : s.fs = 0) (hf : fetchDecode P s = .ok d u) (h : d.FpUse P) (v : Machine) :
    d.RaisesIllegal P v ↔ d.FpGuarded P v := by
  by_cases hfp : d.IsFpInstr P
  · have hcsr : ∀ {q : Prop}, d.id ≠ .system → d.NamesFpCsr → q := fun hne hn => absurd hn.id hne
    obtain ⟨hc, m, hid⟩ | ⟨hc, hm, hid⟩ | ⟨hc, hm, hid⟩ := fp_off_decoded hfs hf hfp
    · refine iff_of_false (not_raisesIllegal_memory hid) fun hg => ?_
      exact absurd (hc.symm.trans (hg.wide hfp)) Bool.noConfusion
    · rw [raisesIllegal_inv hid]
      constructor
      · intro hr
        exact ⟨hcsr (by rw [hid]; exact ExecId.noConfusion), fun _ => hc, fun _ _ => hr⟩
      · intro hg
        exact hg.memory hfp hm
    · refine iff_of_true (raisesIllegal_rt_inv hid) ⟨hcsr (by rw [hid]; exact ExecId.noConfusion),
        fun _ => hc, fun _ hm' => ?_⟩
      exact absurd (hm.symm.trans hm') Bool.noConfusion
  · have hn : d.NamesFpCsr := h.resolve_left hfp
    rw [raisesIllegal_csr hn]
    constructor
    · intro hr
      exact ⟨fun _ => hr, fun hfp' => absurd hfp' hfp, fun hfp' => absurd hfp' hfp⟩
    · intro hg
      exact hg.csr hn

end FpCsrs

section Status

/-- A change of `mstatus` that leaves FS alone. -/
def KeepsFs (g : Word → Word) : Prop := ∀ x, (g x).extractLsb' 13 2 = x.extractLsb' 13 2

theorem keepsFs_of_bits {g : Word → Word} (h : ∀ i, 13 ≤ i → i < 15 → ∀ x, (g x).getLsbD i = x.getLsbD i) :
    KeepsFs g := by
  intro x
  ext i hi
  simp only [BitVec.getElem_extractLsb']
  exact h (13 + i) (by omega) (by omega) x

theorem setBit_keepsFs (b : Bool) (h : j < 13 ∨ 15 ≤ j) : KeepsFs (setBit j b) :=
  keepsFs_of_bits fun i _ _ x => setBit_ne b x (by omega)

theorem pushStatus_keepsFs (l : Level) (mode : Mode) : KeepsFs (pushStatus l mode) := by
  refine keepsFs_of_bits fun i h1 h2 x => pushStatus_getLsbD l mode x ?_
  obtain rfl | rfl : i = 13 ∨ i = 14 := by omega
  · cases l <;> rfl
  · cases l <;> rfl

theorem popStatus_keepsFs (P : Platform) (l : Level) : KeepsFs (popStatus P l) := by
  refine keepsFs_of_bits fun i h1 h2 x => popStatus_getLsbD P l x ?_
  cases l with
  | U | S | M =>
    simp only [Level.ie, Level.pie]
    omega

theorem KeepsFs.fs {g : Word → Word} (h : KeepsFs g) (s : Machine) : (s.mapMstatus g).fs = s.fs := by
  unfold Machine.fs
  rw [Machine.mapMstatus_mstatus]
  exact h _

theorem fs_setCsr {c : Csr} (h : c ≠ .mstatus) (s : Machine) (v : Word) : (s.setCsr c v).fs = s.fs := by
  unfold Machine.fs
  rw [Machine.setCsr_csr_ne s v h.symm]

theorem fs_updateSd (P : Platform) (h : s.fs = 0) : (s.mapMstatus (updateMstatusSdVal P)).fs = 0 := by
  have hx : (s.csr .mstatus).extractLsb' 13 2 = 0 := h
  have hval : updateMstatusSdVal P (s.csr .mstatus) = setBit 63 false (s.csr .mstatus) := by
    unfold updateMstatusSdVal
    simp [hx]
  unfold Machine.fs
  rw [Machine.mapMstatus_mstatus, hval]
  exact (setBit_keepsFs false (.inr (by decide)) _).trans hx

theorem fs_writeLoc (s : Machine) (l : Loc) (v : Word) : (s.writeLoc l v).fs = s.fs := by
  cases l <;> rfl

theorem fs_csrStore {c : Csr} (h1 : c ≠ .mstatus) (h2 : c ≠ .sstatus) (s : Machine) (x : Word) :
    (csrStore P s c x).fs = s.fs := by
  unfold Machine.fs
  by_cases h3 : c = .ustatus
  · subst h3
    have hval : (csrStore P s .ustatus x).csr .mstatus =
        BitField.merge ustatusWmask (s.csr .mstatus) x := s.setCsr_csr_self .mstatus _
    rw [hval]
    exact BitField.extract_merge_of_clear _ _ _ 13 2 (by decide)
  · rw [csrStore_frame]
    cases c with
    | mstatus => exact absurd rfl h1
    | sstatus => exact absurd rfl h2
    | ustatus => exact absurd rfl h3
    | _ => simp [csrTargets]

theorem fs_trapEntry (P : Platform) (no epc : Word) (s : Machine) : (trapEntry P no epc s).fs = s.fs := by
  unfold Machine.fs
  rw [trapEntry_mstatus]
  exact pushStatus_keepsFs _ _ _

theorem fs_eraseMmu (h : t.eraseMmu = s.eraseMmu) : t.fs = s.fs := by
  have h1 := congrArg Machine.fs h
  exact h1

theorem clearMprv_keepsFs (p : Prop) [Decidable p] : KeepsFs fun x => if p then setBit 17 false x else x := by
  intro x
  dsimp only
  split
  · exact setBit_keepsFs false (.inr (by decide)) x
  · rfl

theorem fs_retEntry (P : Platform) (s : Machine) :
    (uretEntry P s).fs = s.fs ∧ (sretEntry P s).fs = s.fs ∧ (mretEntry P s).fs = s.fs := by
  have hpop := fun l => (popStatus_keepsFs P l).fs s
  refine ⟨?_, ?_, ?_⟩
  · exact ((setBit_keepsFs false (.inr (by decide))).fs _).trans (hpop .U)
  · exact ((setBit_keepsFs false (.inl (by decide))).fs _).trans
      (((clearMprv_keepsFs _).fs _).trans (hpop .S))
  · have hmpp : KeepsFs (BitField.insert 11 Mode.U.bits) := fun x =>
      BitField.extract_insert_disjoint 11 _ x 13 2 (by decide)
    exact (hmpp.fs _).trans (((clearMprv_keepsFs _).fs _).trans (hpop .M))

/-- FS stays off unless an FP executor or a write to the CSRs of the FPU or to the status turns it on. -/
theorem Change.fs_off (h : Change P d s t) (hs : s.fs = 0) (hfpu : d.id.usesFpu = false)
    (hcsr : ∀ c, d.StoresCsr P c → isFpCsr c = false ∧ c ≠ .mstatus ∧ c ≠ .sstatus) : t.fs = 0 := by
  cases h with
  | access h =>
    have h1 : t.fs = s.fs := by
      have h2 := congrArg Machine.fs h
      exact h2
    exact h1.trans hs
  | dest _ | link _ | vgpr _ _ => exact (fs_writeLoc s _ _).trans hs
  | reserve _ | release _ | record _ | vreg _ | jump _ | rm _ => exact hs
  | dirty h => exact absurd (hfpu.symm.trans h) Bool.false_ne_true
  | flags _ h => exact absurd (hfpu.symm.trans h) Bool.false_ne_true
  | vcsr c _ =>
    refine (fs_setCsr ?_ s _).trans hs
    cases c <;> exact Csr.noConfusion
  | mie _ | dretpc _ => exact (fs_setCsr Csr.noConfusion s _).trans hs
  | sd _ => exact fs_updateSd P hs
  | store hst _ => exact (fs_csrStore (hcsr _ hst).2.1 (hcsr _ hst).2.2 s _).trans hs
  | fpCsr hst hfp => exact absurd ((hcsr _ hst).1.symm.trans hfp) Bool.false_ne_true
  | mmu _ h => exact (fs_eraseMmu h).trans hs
  | trap no _ => exact (fs_trapEntry P no d.pc s).trans hs
  | uret _ => exact (fs_retEntry P s).1.trans hs
  | sret _ => exact (fs_retEntry P s).2.1.trans hs
  | mret _ => exact (fs_retEntry P s).2.2.trans hs

end Status

section Run

theorem fs_eraseFetch (h : t.eraseFetch = s.eraseFetch) : t.fs = s.fs := by
  have h1 := congrArg Machine.fs h
  exact h1

theorem usesFpu_isFp {e : ExecId} (h : e.usesFpu = true) : e.isFp = true := by
  revert h
  cases e <;> intro h <;> first | rfl | cases h

theorem namesFpCsr_of_stores {c : Csr} (h : d.StoresCsr P c) (hc : isFpCsr c = true) : d.NamesFpCsr := by
  refine ⟨h.id, h.priv, ?_⟩
  have ha := (Csr.ofAddr_spec h.addr).1
  cases c with
  | fflags => exact .inl ha.symm
  | frm => exact .inr (.inl ha.symm)
  | fcsr => exact .inr (.inr ha.symm)
  | _ => cases hc

def Decode.WritesStatus (P : Platform) (d : Decode) : Prop :=
  d.StoresCsr P .mstatus ∨ d.StoresCsr P .sstatus

/-- An executor started with the FPU off leaves it off, unless it writes the status. -/
theorem exec_fs_off (hfs : s.fs = 0) (hf : fetchDecode P s = .ok d u)
    (hg : d.FpGuarded P (u.started d)) (hw : ¬ d.WritesStatus P) :
    (final (exec P d) (u.started d)).fs = 0 := by
  have hu : (u.started d).fs = 0 := (fs_eraseFetch (fetchDecode_frame.ok hf)).trans hfs
  by_cases huse : d.FpUse P
  · obtain ⟨f, t, he, -, -, -, -, hsame⟩ := (fp_off_iff hfs hf huse _).mpr hg
    rw [final_error he, hsame, hu]
  · have hfpu : d.id.usesFpu = false := by
      rw [← Bool.not_eq_true]
      intro h
      have hno := fp_off_other hfs hf fun hfp => huse (.inl hfp)
      exact absurd (hno.symm.trans (usesFpu_isFp h)) Bool.false_ne_true
    refine reached_keeps (I := fun t => t.fs = 0) (exec_reached P d _) (fun t v hc ht => ?_) hu
    refine hc.fs_off ht hfpu fun c hst => ⟨?_, ?_, ?_⟩
    · rw [← Bool.not_eq_true]
      intro hfp
      exact huse (.inr (namesFpCsr_of_stores hst hfp))
    · rintro rfl
      exact hw (.inl hst)
    · rintro rfl
      exact hw (.inr hst)

theorem fs_ticked (P : Platform) (s : Machine) : (s.ticked P).fs = s.fs := by
  unfold Machine.ticked utimerTick
  split
  · split
    · exact fs_setCsr Csr.noConfusion s _
    split
    · exact fs_setCsr Csr.noConfusion s _
    · exact fs_setCsr Csr.noConfusion s _
  · rfl

theorem raiseIntr_fs : (keep Stop Machine.fs).Within (raiseIntr P no epc) := by
  intro s
  rw [keep_iff]
  exact (fs_eraseMmu (raiseIntr_final P no epc s)).trans (fs_trapEntry P no epc s)

theorem handleException_fs : (keep Stop Machine.fs).Within (handleException P x) := by
  refine .bind (.read _) fun s => .bind (.update fun s => ?_) fun _ => .bind raiseIntr_fs fun pc =>
    .update fun _ => rfl
  split <;> rfl

theorem takeIntr_fs : (keep Stop Machine.fs).Within (takeIntr P no) :=
  .bind (.read _) fun _ => .bind raiseIntr_fs fun _ => .update fun _ => rfl

theorem CpuStep.fs_on {a b : Cpu} (h : CpuStep P a e b)
    (hg : e.isAttempt → ∀ d u, a.m.fs = 0 → fetchDecode P a.m = .ok d u → d.FpGuarded P (u.started d))
    (hoff : a.m.fs = 0) (hon : b.m.fs ≠ 0) :
    ∃ d u, fetchDecode P a.m = .ok d u ∧ d.WritesStatus P := by
  cases h with
  | @instr s d t h =>
    obtain ⟨u, v, hf, he, rfl⟩ := executeStep_ok h
    refine ⟨d, u, hf, ?_⟩
    by_contra hw
    have hv := exec_fs_off hoff hf (hg rfl d u hoff hf) hw
    rw [final_ok he] at hv
    exact hon ((fs_ticked P v).trans hv)
  | @fault s f t h =>
    obtain hf | ⟨d, u, hf, he⟩ := executeStep_error h
    · exact absurd ((fs_eraseFetch (fetchDecode_frame.error hf)).trans hoff) hon
    · refine ⟨d, u, hf, ?_⟩
      by_contra hw
      have hv := exec_fs_off hoff hf (hg rfl d u hoff hf) hw
      rw [final_error he] at hv
      exact hon hv
  | batchEnd | noIntr _ => exact absurd hoff hon
  | trap h => exact absurd ((handleException_fs.ok h).trans hoff) hon
  | intr _ _ _ h => exact absurd ((takeIntr_fs.ok h).trans hoff) hon
  | alarm _ => exact absurd ((fs_setCsr Csr.noConfusion _ _).trans hoff) hon

/-- With FS off the instructions of F and D and those that name their CSRs are illegal exactly when they
are guarded, and in runs in which they are FS is turned on only by a write to `mstatus` or `sstatus`. -/
theorem fp_off (P : Platform) :
    (∀ s d u, s.fs = 0 → fetchDecode P s = .ok d u → d.FpUse P →
      (d.RaisesIllegal P (u.started d) ↔ d.FpGuarded P (u.started d))) ∧
    ∀ a tr c, Run (CpuStep P) a tr c →
      (∀ x ∈ tr, x.label.isAttempt → ∀ d u, x.source.m.fs = 0 → fetchDecode P x.source.m = .ok d u →
        d.FpGuarded P (u.started d)) →
      ∀ x ∈ tr, x.source.m.fs = 0 → x.target.m.fs ≠ 0 →
        ∃ d u, fetchDecode P x.source.m = .ok d u ∧ d.WritesStatus P := by
  refine ⟨fun s d u hfs hf h => fp_off_iff hfs hf h _, fun a tr c hr hg x hx hoff hon => ?_⟩
  exact (hr.step_of_mem hx).fs_on (hg x hx) hoff hon

/-- The stand-alone emulator after reset, with one instruction to execute and its own address in `a0`. -/
def fpOffSetup (instr : BitVec 32) : Machine :=
  (booted (.bare .standalone) [instr]).writeLoc (.gpr 10) 0x80100000

/-- The same with FS in `a0`. -/
def statusSetup (instr : BitVec 32) : Machine := (fpOffSetup instr).writeLoc (.gpr 10) 0x6000

/-- `fadd.d ft0, ft0, ft0` is illegal with FS off, and `csrw mstatus, a0` turns FS on. -/
theorem fp_off_guarded :
    (∃ d u, fetchDecode (.bare .standalone) (fpOffSetup 0x02000053) = .ok d u ∧
      d.IsFpInstr (.bare .standalone) ∧ d.RaisesIllegal (.bare .standalone) (u.started d)) ∧
    ∃ d u, fetchDecode (.bare .standalone) (statusSetup 0x30051073) = .ok d u ∧
      (final (executeStep (.bare .standalone)) (statusSetup 0x30051073)).fs = 3 ∧
      d.WritesStatus (.bare .standalone) := by
  have hadd : ∃ d u, fetchDecode (.bare .standalone) (fpOffSetup 0x02000053) = .ok d u ∧
      d.IsFpInstr (.bare .standalone) ∧ d.isCompressed = false ∧ d.isFpMemory = false ∧ d.id ≠ .system :=
    ⟨_, _, rfl, ⟨.direct, _, rfl, rfl⟩, rfl, rfl, by decide⟩
  obtain ⟨d, u, hf, hfp, hwide, hmem, hid⟩ := hadd
  refine ⟨⟨d, u, hf, hfp, ?_⟩, ?_⟩
  · refine ((fp_off _).1 _ d u rfl hf (.inl hfp)).mpr ⟨fun h => absurd h.id hid, fun _ => hwide, fun _ h => ?_⟩
    exact absurd (hmem.symm.trans h) Bool.false_ne_true
  have hcsr : ∃ d u t, fetchDecode (.bare .standalone) (statusSetup 0x30051073) = .ok d u ∧
      executeStep (.bare .standalone) (statusSetup 0x30051073) = .ok d t ∧ t.fs = 3 ∧ d.csrId = 0x300 ∧
      ∀ m, ∃ d', decodeTable (.bare .standalone) ⟨d.pc, d.snpc, d.instr, m, true⟩ = .ok d' ∧ d'.id = .system := by
    refine ⟨_, _, _, rfl, rfl, rfl, rfl, fun m => ?_⟩
    cases m <;> exact ⟨_, rfl, rfl⟩
  obtain ⟨d, u, t, hf, he, hfs, hid, htable⟩ := hcsr
  refine ⟨d, u, hf, (congrArg Machine.fs (final_ok he)).trans hfs, ?_⟩
  have hrun : Run (CpuStep (.bare .standalone)) ⟨.run, statusSetup 0x30051073⟩ _ _ := .cons (.instr he) .nil
  have hoff : (statusSetup 0x30051073).fs = 0 := rfl
  have hnot : ¬ d.IsFpInstr (.bare .standalone) := by
    rintro ⟨m, d', hd, hfp⟩
    obtain ⟨d₁, hd₁, hsys⟩ := htable m
    cases hd.symm.trans hd₁
    rw [hsys] at hfp
    cases hfp
  obtain ⟨d₂, u₂, hf₂, hw⟩ := (fp_off _).2 _ _ _ hrun (fun x hx _ d₁ u₁ _ h₁ => by
      cases List.mem_singleton.mp hx
      cases hf.symm.trans h₁
      refine ⟨fun h => ?_, fun h => absurd h hnot, fun h => absurd h hnot⟩
      exact absurd h.csr (by rw [hid]; decide)) _ (List.mem_singleton.mpr rfl) hoff (by rw [hfs]; decide)
  cases hf.symm.trans hf₂
  exact hw

/-- `c.fld fs0, 0(a0)` and `csrwi fcsr, 1` execute with FS off, and turn it on. -/
theorem fp_off_unguarded :
    (∃ d t, executeStep (.bare .standalone) (fpOffSetup 0x2100) = .ok d t ∧
      (fpOffSetup 0x2100).fs = 0 ∧ d.IsFpInstr (.bare .standalone) ∧ t.fs = 3) ∧
    ∃ d t, executeStep (.bare .standalone) (fpOffSetup 0x0030d073) = .ok d t ∧
      (fpOffSetup 0x0030d073).fs = 0 ∧ d.NamesFpCsr ∧ t.fs = 3 ∧ t.csr .fcsr = 1 := by
  refine ⟨⟨_, _, rfl, rfl, ⟨.direct, _, rfl, rfl⟩, rfl⟩, ⟨_, _, rfl, rfl, ⟨rfl, ?_, ?_⟩, rfl, rfl⟩⟩
  · decide
  · decide

end Run

end Nemu
