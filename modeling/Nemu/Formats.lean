import Nemu.DecodeSpec
import Nemu.Footprint

namespace Nemu

open Effect

set_option autoImplicit true

namespace ExecId

/-- The jumps to an address that the decoder has computed. -/
def isDirect : ExecId → Bool
  | .jal | .p_jal | .c_j | .dasicscall_j => true
  | _ => false

def isFp : ExecId → Bool
  | .fload _ _ | .fstore _ _ | .fop _ _ | .funary _ _ _ | .fcvtToI _ _ | .fcmp _ _ | .fmadd _ _ _
  | .fsgnj _ | .fsgnjn _ | .fsgnjx _ | .fmv_x_w | .fmv_x_d | .fmv_w_x | .fmv_d_x | .fclass _ => true
  | _ => false

def readsSrc1 : ExecId → Bool
  | .computeReg _ | .computeImm _ | .c_mv | .p_sext_w | .rvbReg _ | .rvbImm _ | .rvkReg _ | .rvkImm _
  | .load _ _ _ | .store _ _ | .jalr | .dasicscall_jr | .c_jr | .c_jalr | .branch _ | .c_beqz | .c_bnez
  | .p_bltz | .p_bgez | .atomic | .system | .fload _ _ | .fstore _ _ | .fop _ _ | .funary _ _ _
  | .fcvtToI _ _ | .fcmp _ _ | .fmadd _ _ _ | .fsgnj _ | .fsgnjn _ | .fsgnjx _ | .fmv_x_w | .fmv_x_d
  | .fmv_w_x | .fmv_d_x | .fclass _ => true
  | _ => false

def readsSrc2 : ExecId → Bool
  | .computeReg _ | .compressedReg _ | .rvbReg _ | .rvkReg _ | .branch _ | .p_blez | .p_bgtz | .atomic
  | .fop _ _ | .fcmp _ _ | .fmadd _ _ _ | .fsgnj _ | .fsgnjn _ | .fsgnjx _ => true
  | _ => false

/-- The executors that read `dest` other than to overwrite it with the result. -/
def readsDest : ExecId → Bool
  | .store _ _ | .fload _ _ | .fstore _ _ => true
  | _ => false

/-- No jump or branch that the decoder computes a target for, and not of F and D. -/
def isPlain (id : ExecId) : Bool :=
  !id.isDirect && id.cfiType ≠ .branch && !id.isFp && id ≠ .c_jalr

/-- The executors that the formats are good for. -/
def fitsI (id : ExecId) : Bool := id.isPlain && !id.readsSrc2 && !id.readsDest

def fitsR (id : ExecId) : Bool := id.isPlain && !id.readsDest

def fitsS (id : ExecId) : Bool := id.isPlain && !id.readsSrc2 && !id.writesDest

def fitsB (id : ExecId) : Bool :=
  !id.isDirect && !id.isFp && id ≠ .c_jalr && !id.readsDest

def fitsJ (id : ExecId) : Bool :=
  id.cfiType ≠ .branch && !id.isFp && id ≠ .c_jalr && !id.readsSrc1 && !id.readsSrc2 && !id.readsDest

def fitsEmpty (id : ExecId) : Bool := id.isPlain && !id.readsSrc1 && !id.readsSrc2 && !id.readsDest

theorem fits_ite {p : ExecId → Bool} {a b : ExecId} [Decidable c] (ha : p a = true) (hb : p b = true) :
    p (if c then a else b) = true := by
  split
  · exact ha
  · exact hb

end ExecId

/-- `a` lies an even number of bytes from `pc`. -/
def EvenOffset (pc a : Word) : Prop := ∃ o : Word, o.getLsbD 0 = false ∧ a = pc + o

/-- What every decoded instruction has in common: a written destination is not `x0` itself, a register
that is read is not the substitute of `x0`, and computed targets lie at even offsets. -/
structure Formed (f : Fetched) (d : Decode) : Prop where
  dest : d.id.writesDest = true → d.dest.preg ≠ .gpr 0
  src1 : d.id.readsSrc1 = true → d.src1.preg ≠ .zeroNull
  src2 : d.id.readsSrc2 = true → d.src2.preg ≠ .zeroNull
  data : d.id.readsDest = true → d.dest.preg ≠ .zeroNull
  direct : d.id.isDirect = true → EvenOffset f.pc d.src1.imm
  branch : d.id.cfiType = .branch → EvenOffset f.pc d.dest.imm
  link : d.id = .c_jalr → d.src1.preg ≠ .gpr 1
  fload : ∀ w m, d.id = .fload w m → d.dest.preg ≠ d.src1.preg

theorem Formed.ite {a b : Decode} [Decidable p] (ha : Formed f a) (hb : Formed f b) :
    Formed f (if p then a else b) := by
  split
  · exact ha
  · exact hb

section Immediates

theorem even_append (x : BitVec n) : ((x ++ 0#1).signExtend 64 : Word).getLsbD 0 = false := by
  rw [BitVec.getLsbD_signExtend, BitVec.getLsbD_append]
  simp

theorem decodeOpR_dest (r : BitVec 5) : (decodeOpR r false).preg ≠ .gpr 0 := by
  unfold decodeOpR
  dsimp only
  split
  · exact Loc.noConfusion
  · next h =>
    intro he
    apply h
    cases he
    rfl

theorem decodeOpR_src (r : BitVec 5) : (decodeOpR r true).preg ≠ .zeroNull := by
  unfold decodeOpR
  exact Loc.noConfusion

end Immediates

section Helpers

variable {f : Fetched} {id : ExecId}

theorem ExecId.isPlain_spec (h : id.isPlain = true) :
    id.isDirect = false ∧ id.cfiType ≠ .branch ∧ id.isFp = false ∧ id ≠ .c_jalr := by
  simp only [ExecId.isPlain, Bool.and_eq_true, Bool.not_eq_true', decide_eq_true_eq] at h
  exact ⟨h.1.1.1, h.1.1.2, h.1.2, h.2⟩

theorem Formed.plain {d : Decode} (h : d.id.isPlain = true)
    (hd : d.id.writesDest = true → d.dest.preg ≠ .gpr 0)
    (h1 : d.id.readsSrc1 = true → d.src1.preg ≠ .zeroNull)
    (h2 : d.id.readsSrc2 = true → d.src2.preg ≠ .zeroNull)
    (h3 : d.id.readsDest = true → d.dest.preg ≠ .zeroNull) : Formed f d where
  dest := hd
  src1 := h1
  src2 := h2
  data := h3
  direct hi := by
    exact absurd ((ExecId.isPlain_spec h).1.symm.trans hi) Bool.false_ne_true
  branch hb := absurd hb (ExecId.isPlain_spec h).2.1
  link hl := absurd hl (ExecId.isPlain_spec h).2.2.2
  fload w m hf := by
    have hfp := (ExecId.isPlain_spec h).2.2.1
    rw [hf] at hfp
    cases hfp

theorem formed_i (rd : BitVec 5) (rs1 : BitVec 5) (imm : Word) (h : id.fitsI = true) :
    Formed f ⟨f.pc, f.snpc, f.instr, id, decodeOpR rd false, decodeOpR rs1 true, decodeOpI imm⟩ := by
  simp only [ExecId.fitsI, Bool.and_eq_true, Bool.not_eq_true'] at h
  refine .plain h.1.1 (fun _ => decodeOpR_dest rd) (fun _ => decodeOpR_src rs1) (fun h2 => ?_)
    fun h3 => ?_
  · exact absurd (h.1.2.symm.trans h2) Bool.false_ne_true
  · exact absurd (h.2.symm.trans h3) Bool.false_ne_true

theorem formed_r (rd rs1 rs2 : BitVec 5) (h : id.fitsR = true) :
    Formed f ⟨f.pc, f.snpc, f.instr, id, decodeOpR rd false, decodeOpR rs1 true, decodeOpR rs2 true⟩ := by
  simp only [ExecId.fitsR, Bool.and_eq_true, Bool.not_eq_true'] at h
  refine .plain h.1 (fun _ => decodeOpR_dest rd) (fun _ => decodeOpR_src rs1)
    (fun _ => decodeOpR_src rs2) fun h3 => ?_
  exact absurd (h.2.symm.trans h3) Bool.false_ne_true

theorem formed_s (rs2 rs1 : BitVec 5) (imm : Word) (h : id.fitsS = true) :
    Formed f ⟨f.pc, f.snpc, f.instr, id, decodeOpR rs2 true, decodeOpR rs1 true, decodeOpI imm⟩ := by
  simp only [ExecId.fitsS, Bool.and_eq_true, Bool.not_eq_true'] at h
  refine .plain h.1.1 (fun hd => ?_) (fun _ => decodeOpR_src rs1) (fun h2 => ?_)
    fun _ => decodeOpR_src rs2
  · exact absurd (h.2.symm.trans hd) Bool.false_ne_true
  · exact absurd (h.1.2.symm.trans h2) Bool.false_ne_true

theorem formed_empty (h : id.fitsEmpty = true) : Formed f (decodeEmpty f id) := by
  simp only [ExecId.fitsEmpty, Bool.and_eq_true, Bool.not_eq_true'] at h
  refine .plain h.1.1.1 (fun _ => Loc.noConfusion) (fun h1 => ?_) (fun h2 => ?_) fun h3 => ?_
  · exact absurd (h.1.1.2.symm.trans h1) Bool.false_ne_true
  · exact absurd (h.1.2.symm.trans h2) Bool.false_ne_true
  · exact absurd (h.2.symm.trans h3) Bool.false_ne_true

theorem formed_b (x : BitVec n) (rs1 rs2 : BitVec 5) (h : id.fitsB = true) :
    Formed f ⟨f.pc, f.snpc, f.instr, id, decodeOpI (f.pc + (x ++ 0#1).signExtend 64), decodeOpR rs1 true,
      decodeOpR rs2 true⟩ := by
  simp only [ExecId.fitsB, Bool.and_eq_true, Bool.not_eq_true', decide_eq_true_eq] at h
  refine ⟨fun _ => Loc.noConfusion, fun _ => decodeOpR_src rs1, fun _ => decodeOpR_src rs2, fun h3 => ?_,
    fun h4 => ?_, fun _ => ⟨_, even_append x, rfl⟩, fun hl => absurd hl h.1.2, fun w m hf => ?_⟩
  · exact absurd (h.2.symm.trans h3) Bool.false_ne_true
  · exact absurd (h.1.1.1.symm.trans h4) Bool.false_ne_true
  · have hfp := h.1.1.2
    dsimp only at hf
    rw [hf] at hfp
    cases hfp

theorem formed_j (x : BitVec n) (dest link : Operand) (hd : dest.preg ≠ .gpr 0) (h : id.fitsJ = true) :
    Formed f ⟨f.pc, f.snpc, f.instr, id, dest, decodeOpI (f.pc + (x ++ 0#1).signExtend 64), link⟩ := by
  simp only [ExecId.fitsJ, Bool.and_eq_true, Bool.not_eq_true', decide_eq_true_eq] at h
  refine ⟨fun _ => hd, fun h1 => ?_, fun h2 => ?_, fun h3 => ?_, fun _ => ⟨_, even_append x, rfl⟩,
    fun hb => absurd hb h.1.1.1.1.1, fun hl => absurd hl h.1.1.1.2, fun w m hf => ?_⟩
  · exact absurd (h.1.1.2.symm.trans h1) Bool.false_ne_true
  · exact absurd (h.1.2.symm.trans h2) Bool.false_ne_true
  · exact absurd (h.2.symm.trans h3) Bool.false_ne_true
  · have hfp := h.1.1.1.1.2
    dsimp only at hf
    rw [hf] at hfp
    cases hfp

/-- An executor of F and D has FP registers, or integer registers as the helpers decode them. -/
theorem formed_fp {d : Decode} (h : d.id.isFp = true) (hd : d.dest.preg ≠ .gpr 0)
    (h1 : d.src1.preg ≠ .zeroNull) (h2 : d.id.readsSrc2 = true → d.src2.preg ≠ .zeroNull)
    (h3 : d.id.readsDest = true → d.dest.preg ≠ .zeroNull ∧ d.dest.preg ≠ d.src1.preg) :
    Formed f d := by
  have hplain : d.id.isDirect = false ∧ d.id.cfiType ≠ .branch ∧ d.id ≠ .c_jalr := by
    revert h
    cases d.id <;> intro h <;> first
      | exact ⟨rfl, fun hb => CfiType.noConfusion hb, fun hl => ExecId.noConfusion hl⟩
      | cases h
  refine ⟨fun _ => hd, fun _ => h1, h2, fun h5 => (h3 h5).1, fun h4 => ?_,
    fun hb => absurd hb hplain.2.1, fun hl => absurd hl hplain.2.2, fun w m hf => (h3 (by rw [hf]; rfl)).2⟩
  exact absurd (hplain.1.symm.trans h4) Bool.false_ne_true

end Helpers

section Tables

variable {P : Platform} {f : Fetched} {id : ExecId}

theorem tableLoad_fits : (tableLoad f).fitsI = true := by
  unfold tableLoad
  split <;> rfl

theorem tableStore_fits : (tableStore f).fitsS = true := by
  unfold tableStore
  split <;> rfl

theorem tableCAddiDispatch_fits : (tableCAddiDispatch imm).fitsI = true :=
  ExecId.fits_ite rfl (ExecId.fits_ite rfl rfl)

theorem tableAddiDispatch_fits : (tableAddiDispatch f).fitsI = true := by
  unfold tableAddiDispatch
  repeat' apply ExecId.fits_ite (p := ExecId.fitsI)
  all_goals rfl

theorem tableOpImmExt_fits : (tableOpImmExt P f).fitsI = true := by
  unfold tableOpImmExt
  repeat' apply ExecId.fits_ite (p := ExecId.fitsI)
  all_goals rfl

theorem tableOpImm_fits : (tableOpImm P f).fitsI = true := by
  unfold tableOpImm
  refine ExecId.fits_ite tableCAddiDispatch_fits (ExecId.fits_ite rfl (ExecId.fits_ite rfl
    (ExecId.fits_ite rfl (ExecId.fits_ite rfl (ExecId.fits_ite tableAddiDispatch_fits ?_)))))
  repeat' apply ExecId.fits_ite (p := ExecId.fitsI)
  all_goals first | exact tableOpImmExt_fits | rfl

theorem tableOpImm32_fits : (tableOpImm32 P f).fitsI = true := by
  unfold tableOpImm32
  repeat' apply ExecId.fits_ite (p := ExecId.fitsI)
  all_goals rfl

theorem tableOpExt_fits : (tableOpExt P f).fitsR = true := by
  unfold tableOpExt
  repeat' apply ExecId.fits_ite (p := ExecId.fitsR)
  all_goals rfl

theorem tableOp_fits : (tableOp P f).fitsR = true := by
  unfold tableOp
  repeat' apply ExecId.fits_ite (p := ExecId.fitsR)
  all_goals first | exact tableOpExt_fits | rfl

theorem tableOp32_fits : (tableOp32 P f).fitsR = true := by
  unfold tableOp32
  repeat' apply ExecId.fits_ite (p := ExecId.fitsR)
  all_goals rfl

theorem tableRvm_fits : (tableRvm f).fitsR = true := by
  unfold tableRvm
  split <;> rfl

theorem tableRvm32_fits : (tableRvm32 f).fitsR = true := by
  unfold tableRvm32
  split <;> rfl

theorem tableBranch_fits : (tableBranch f).fitsB = true := by
  unfold tableBranch
  repeat' apply ExecId.fits_ite (p := ExecId.fitsB)
  all_goals rfl

theorem tableJalDispatch_fits : (tableJalDispatch f).fitsJ = true :=
  ExecId.fits_ite rfl (ExecId.fits_ite rfl rfl)

theorem tableJalrDispatch_fits : (tableJalrDispatch f).fitsI = true :=
  ExecId.fits_ite rfl (ExecId.fits_ite rfl (ExecId.fits_ite rfl rfl))

theorem tableMemFence_fits : (tableMemFence f).fitsI = true :=
  ExecId.fits_ite rfl (ExecId.fits_ite rfl rfl)

theorem tableAtomic_fits : (tableAtomic P f).fitsR = true :=
  ExecId.fits_ite (ExecId.fits_ite rfl rfl) rfl

theorem tableSystem_fits : (tableSystem P f).fitsI = true := ExecId.fits_ite rfl rfl

theorem formed_fr (h : id.isFp = true) (hd : id.readsDest = false) : Formed f (decodeFr f id) :=
  formed_fp h Loc.noConfusion Loc.noConfusion (fun _ => Loc.noConfusion) fun h3 =>
    absurd (hd.symm.trans h3) Bool.false_ne_true

theorem formed_fr2r (h : id.isFp = true) (hd : id.readsDest = false) : Formed f (decodeFr2r f id) :=
  formed_fp h (decodeOpR_dest _) Loc.noConfusion (fun _ => Loc.noConfusion) fun h3 =>
    absurd (hd.symm.trans h3) Bool.false_ne_true

theorem formed_r2fr (h : id.isFp = true) : Formed f (decodeR2fr f id) :=
  formed_fp h Loc.noConfusion (decodeOpR_src _) (fun _ => decodeOpR_src _) fun _ =>
    ⟨Loc.noConfusion, Loc.noConfusion⟩

theorem tableOpFpD_formed : Formed f (tableOpFpD f) := by
  unfold tableOpFpD
  repeat' apply Formed.ite
  all_goals first
    | exact formed_fr rfl rfl
    | exact formed_fr2r rfl rfl
    | exact formed_r2fr rfl
    | exact formed_empty rfl

theorem tableOpFp_formed : Formed f (tableOpFp f) := by
  unfold tableOpFp
  repeat' apply Formed.ite
  all_goals first
    | exact tableOpFpD_formed
    | exact formed_fr rfl rfl
    | exact formed_fr2r rfl rfl
    | exact formed_r2fr rfl
    | exact formed_empty rfl

/-- The FP loads and stores share their major opcodes with those of the vector extension. -/
theorem tableFldst_formed {a b : ExecId} {d : ExecId → Decode}
    (hv : ∀ e, e.fitsEmpty = true → Formed f (d e)) (ha : Formed f (d a)) (hb : Formed f (d b)) :
    Formed f (d (tableFldst P f a b)) := by
  unfold tableFldst
  split
  · exact ha
  split
  · exact hb
  split
  · exact hv _ rfl
  · exact hv _ rfl

theorem tableFload_formed : Formed f (decodeFload f (tableFload P f)) := by
  have hload : ∀ w m, Formed f (decodeFload f (.fload w m)) := fun w m =>
    formed_fp rfl Loc.noConfusion (decodeOpR_src _) (fun h => absurd h Bool.false_ne_true)
      fun _ => ⟨Loc.noConfusion, Loc.noConfusion⟩
  refine tableFldst_formed (d := decodeFload f) (fun e he => ?_) (hload _ _) (hload _ _)
  simp only [ExecId.fitsEmpty, Bool.and_eq_true, Bool.not_eq_true'] at he
  exact .plain he.1.1.1 (fun _ => Loc.noConfusion) (fun _ => decodeOpR_src _)
    (fun h2 => absurd (he.1.2.symm.trans h2) Bool.false_ne_true) fun _ => Loc.noConfusion

theorem tableFstore_formed : Formed f (decodeFstore f (tableFstore P f)) := by
  have hstore : ∀ w m, Formed f (decodeFstore f (.fstore w m)) := fun w m =>
    formed_fp rfl Loc.noConfusion (decodeOpR_src _) (fun h => absurd h Bool.false_ne_true)
      fun _ => ⟨Loc.noConfusion, Loc.noConfusion⟩
  refine tableFldst_formed (d := decodeFstore f) (fun e he => ?_) (hstore _ _) (hstore _ _)
  simp only [ExecId.fitsEmpty, Bool.and_eq_true, Bool.not_eq_true'] at he
  exact .plain he.1.1.1 (fun _ => Loc.noConfusion) (fun _ => decodeOpR_src _)
    (fun h2 => absurd (he.1.2.symm.trans h2) Bool.false_ne_true) fun _ => Loc.noConfusion

theorem tableFmadd_formed : Formed f (decodeFr f (tableFmaddDispatch f)) := by
  have hfr : ∀ e : ExecId, (e.isFp = true ∧ e.readsDest = false) ∨ e.fitsEmpty = true →
      Formed f (decodeFr f e) := by
    rintro e (he | he)
    · exact formed_fr he.1 he.2
    · simp only [ExecId.fitsEmpty, Bool.and_eq_true] at he
      exact .plain he.1.1.1 (fun _ => Loc.noConfusion) (fun _ => Loc.noConfusion)
        (fun _ => Loc.noConfusion) fun _ => Loc.noConfusion
  apply hfr
  unfold tableFmaddDispatch
  dsimp only
  split
  · exact .inr rfl
  split
  · exact .inr rfl
  (repeat' split) <;> exact .inl ⟨rfl, rfl⟩

theorem tableMain_formed : Formed f (tableMain P f) := by
  unfold tableMain
  refine .ite (formed_i _ _ _ tableLoad_fits) <| .ite tableFload_formed <|
    .ite (formed_j _ _ _ (decodeOpR_dest _) rfl) <| .ite (formed_i _ _ _ rfl) <|
    .ite (formed_i _ _ _ tableMemFence_fits) <| .ite (formed_i _ _ _ tableOpImm_fits) <|
    .ite ?_ <| .ite (formed_i _ _ _ tableOpImm32_fits) <|
    .ite (formed_s _ _ _ tableStore_fits) <| .ite tableFstore_formed <|
    .ite (formed_r _ _ _ tableAtomic_fits) <| .ite (formed_r _ _ _ tableRvm_fits) <|
    .ite (formed_r _ _ _ tableOp_fits) <| .ite ?_ <|
    .ite (formed_r _ _ _ tableRvm32_fits) <| .ite (formed_r _ _ _ tableOp32_fits) <|
    .ite tableFmadd_formed <| .ite tableOpFp_formed <|
    .ite (formed_empty rfl) <| .ite (formed_b _ _ _ tableBranch_fits) <|
    .ite (formed_i _ _ _ tableJalrDispatch_fits) <| .ite (formed_empty rfl) <|
    .ite (formed_j _ _ _ (decodeOpR_dest _) tableJalDispatch_fits) <|
    .ite (formed_i _ _ _ tableSystem_fits) (formed_empty rfl)
  all_goals
    exact .plain rfl (fun _ => decodeOpR_dest _) (fun h => absurd h Bool.false_ne_true)
      (fun h => absurd h Bool.false_ne_true) fun h => absurd h Bool.false_ne_true

end Tables

section Compressed

variable {P : Platform} {f : Fetched}

/-- Every instruction that the decoder returns is formed. -/
def FormedOk (f : Fetched) (r : Except Stop Decode) : Prop := ∀ d, r = .ok d → Formed f d

theorem FormedOk.ite {a b : Except Stop Decode} [Decidable p] (ha : FormedOk f a)
    (hb : FormedOk f b) : FormedOk f (if p then a else b) := by
  split
  · exact ha
  · exact hb

theorem FormedOk.ok (h : Formed f d) : FormedOk f (pure d) := by
  intro d' hd
  cases hd
  exact h

theorem FormedOk.error (e : Stop) : FormedOk f (throw e) := by
  intro d hd
  cases hd

theorem formed_fpMemory {id : ExecId} (h : id.isFp = true) (h2 : id.readsSrc2 = false) (r rs1 : BitVec 5)
    (imm : Word) :
    Formed f ⟨f.pc, f.snpc, f.instr, id, decodeOpFr r, decodeOpR rs1 true, decodeOpI imm⟩ :=
  formed_fp h Loc.noConfusion (decodeOpR_src rs1)
    (fun h2' => absurd (h2.symm.trans h2') Bool.false_ne_true) fun _ => ⟨Loc.noConfusion, Loc.noConfusion⟩

theorem tableRvcQ0_formed : FormedOk f (tableRvcQ0 P f) := by
  unfold tableRvcQ0
  dsimp only
  refine .ite (.ok (formed_empty rfl)) <| .ite (.ok (formed_i _ _ _ rfl)) <|
    .ite (.ok (formed_fpMemory rfl rfl _ _ _)) <| .ite (.ok (formed_i _ _ _ rfl)) <|
    .ite (.ok (formed_i _ _ _ rfl)) <| .ite (.ok (formed_fpMemory rfl rfl _ _ _)) <|
    .ite (.ok (formed_s _ _ _ rfl)) <| .ite (.ok (formed_s _ _ _ rfl)) <| .ok (formed_empty rfl)

theorem tableRvcQ1Compute_formed : Formed f (tableRvcQ1Compute f) := by
  unfold tableRvcQ1Compute
  dsimp only
  refine .ite (formed_i _ _ _ rfl) <| .ite (formed_i _ _ _ rfl) <| .ite (formed_i _ _ _ rfl) <|
    .ite (formed_r _ _ _ ?_) <| .ite (formed_r _ _ _ rfl) <| .ite (formed_r _ _ _ rfl) (formed_r _ _ _ rfl)
  (repeat' split) <;> rfl

theorem tableRvcQ1_formed : FormedOk f (tableRvcQ1 P f) := by
  unfold tableRvcQ1
  split
  · exact .ok (formed_i _ _ _ tableCAddiDispatch_fits)
  · exact .ok (formed_i _ _ _ (ExecId.fits_ite rfl rfl))
  · exact .ok (formed_i _ _ _ (ExecId.fits_ite rfl (ExecId.fits_ite rfl rfl)))
  · refine .ite (.ite (.ite (.error _) (.error _)) (.ok (formed_i _ _ _ rfl))) (.ite (.error _) (.ok ?_))
    exact .plain rfl (fun _ => decodeOpR_dest _) (fun h => absurd h Bool.false_ne_true)
      (fun h => absurd h Bool.false_ne_true) fun h => absurd h Bool.false_ne_true
  · exact .ok tableRvcQ1Compute_formed
  · exact .ok (formed_j _ _ _ Loc.noConfusion rfl)
  · exact .ok (formed_b _ _ _ rfl)
  · exact .ok (formed_b _ _ _ rfl)

theorem decodeCJR_formed {id : ExecId} (h : id.fitsI = true) : FormedOk f (decodeCJR P f id) := by
  simp only [ExecId.fitsI, Bool.and_eq_true, Bool.not_eq_true'] at h
  refine .ite (.error _) (.ok ?_)
  exact .plain h.1.1 (fun _ => Loc.noConfusion) (fun _ => decodeOpR_src _)
    (fun h2 => absurd (h.1.2.symm.trans h2) Bool.false_ne_true)
    fun h3 => absurd (h.2.symm.trans h3) Bool.false_ne_true

/-- `c_jalr` is not decoded for `rs1 = ra`. -/
theorem c_jalr_formed (h : f.bits 11 7 ≠ 1) : Formed f (decodeCJalr f .c_jalr) := by
  refine ⟨fun h => absurd h Bool.false_ne_true, fun _ => decodeOpR_src _,
    fun h => absurd h Bool.false_ne_true, fun h => absurd h Bool.false_ne_true,
    fun h => absurd h Bool.false_ne_true, fun hb => CfiType.noConfusion hb, fun _ hl => h ?_,
    fun _ _ hf => ExecId.noConfusion hf⟩
  exact Loc.gpr.inj hl

theorem tableRvcQ2Misc_formed : FormedOk f (tableRvcQ2Misc P f) := by
  unfold tableRvcQ2Misc
  dsimp only
  split
  · refine .ite (decodeCJR_formed rfl) (.ite (decodeCJR_formed rfl) (.ok (formed_r _ _ _ rfl)))
  split
  · exact .ok (formed_empty rfl)
  split
  · exact .ok (formed_i _ _ _ rfl)
  · next hra =>
    split
    · next h0 => exact .ok (c_jalr_formed fun h1 => hra ⟨h1, h0⟩)
    · exact .ok (formed_r _ _ _ rfl)

theorem decodeCLxSP_formed {id : ExecId} (h : id.fitsI = true) :
    FormedOk f (decodeCLxSP P f rotate false id) :=
  .ite (.error _) (.ok (formed_i _ _ _ h))

theorem tableRvcQ2_formed : FormedOk f (tableRvcQ2 P f) := by
  unfold tableRvcQ2
  dsimp only
  refine .ite (.ok (formed_i _ _ _ rfl)) <|
    .ite (.ite (.error _) (.ok (formed_fpMemory rfl rfl _ _ _))) <| .ite (decodeCLxSP_formed rfl) <|
    .ite (decodeCLxSP_formed rfl) <| .ite tableRvcQ2Misc_formed <|
    .ite (.ok (formed_fpMemory rfl rfl _ _ _)) <| .ite (.ok (formed_s _ _ _ rfl)) <|
    .ite (.ok (formed_s _ _ _ rfl)) <| .ok (formed_empty rfl)

theorem tableRvc_formed : FormedOk f (tableRvc P f) :=
  .ite tableRvcQ0_formed (.ite tableRvcQ1_formed tableRvcQ2_formed)

end Compressed

theorem fetchDecode_formed (h : fetchDecode P s = .ok d t) : ∃ f : Fetched, f.pc = s.pc ∧ Formed f d := by
  obtain ⟨-, lo, v, w, -, hd, -⟩ := fetchDecode_parts h
  obtain ⟨u, -, ⟨-, htable⟩ | ⟨-, hi, rfl⟩⟩ := decodeRest_tables hd
  · exact ⟨_, rfl, tableRvc_formed _ htable⟩
  · exact ⟨_, rfl, tableMain_formed⟩

end Nemu
