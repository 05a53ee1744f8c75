import Nemu.Expansion

namespace Nemu

open Effect

set_option autoImplicit true

variable {P : Platform} {c : BitVec 16} {w : BitVec 32} {pc snpc : Word} {m : MmuMode} {e : Bool}
  {f : Fetched} {id : ExecId}

/-- The compressed instruction `c` as it is handed to `table_rvc`. -/
def rvcWord (c : BitVec 16) (pc snpc : Word) (m : MmuMode) (e : Bool) : Fetched :=
  ⟨pc, snpc, c.setWidth 32, m, e⟩

theorem rvcWord_bits (h : hi < 16) (hlo : lo ≤ hi) :
    (rvcWord c pc snpc m e).bits hi lo = cbits c hi lo := bits_rvc h hlo

section Memory

theorem expands_load {imm : BitVec 12}
    (hrvc : ∀ pc snpc m e, tableRvc P (rvcWord c pc snpc m e) =
      .ok ⟨pc, snpc, c.setWidth 32, .load true len m, decodeOpR rd false, decodeOpR rs1 true,
        decodeOpI (imm.signExtend 64)⟩)
    (hlen : ∀ f : Fetched, f.funct3 = funct3 → tableLoad f = .load true len f.mmuMode) :
    Expands P c (encodeI rs1 rd 0b00000 funct3 imm) := by
  intro pc snpc m e
  refine ⟨_, hrvc pc snpc m e, .of_instr (i := encodeI rs1 rd 0b00000 funct3 imm) (fun _ => rfl) ?_⟩
  rw [tableMain_load rfl, hlen _ (encodeR_fields rfl).funct3]

theorem expands_store {imm : BitVec 12}
    (hrvc : ∀ pc snpc m e, tableRvc P (rvcWord c pc snpc m e) =
      .ok ⟨pc, snpc, c.setWidth 32, .store len m, decodeOpR rs2 true, decodeOpR rs1 true,
        decodeOpI (imm.signExtend 64)⟩)
    (hlen : ∀ f : Fetched, f.funct3 = funct3 → tableStore f = .store len f.mmuMode) :
    Expands P c (encodeS rs1 rs2 0b01000 funct3 imm) := by
  intro pc snpc m e
  refine ⟨_, hrvc pc snpc m e,
    .of_instr (i := encodeS rs1 rs2 0b01000 funct3 imm) (fun _ => rfl) ?_⟩
  rw [tableMain_store rfl, hlen _ (encodeR_fields rfl).funct3]

theorem tableLoad_lw (f : Fetched) (h : f.funct3 = 2) : tableLoad f = .load true 4 f.mmuMode := by
  simp [tableLoad, h]

theorem tableLoad_ld (f : Fetched) (h : f.funct3 = 3) : tableLoad f = .load true 8 f.mmuMode := by
  simp [tableLoad, h]

theorem tableStore_sw (f : Fetched) (h : f.funct3 = 2) : tableStore f = .store 4 f.mmuMode := by
  simp [tableStore, h]

theorem tableStore_sd (f : Fetched) (h : f.funct3 = 3) : tableStore f = .store 8 f.mmuMode := by
  simp [tableStore, h]

theorem decodeCLdst_rvc {isStore : Bool} :
    decodeCLdst (rvcWord c pc snpc m e) rotate isStore false id =
      ⟨pc, snpc, c.setWidth 32, id, decodeOpR (cRs2' c) isStore, decodeOpR (cRs1' c) true,
        decodeOpI ((rorImm ((cbits c 12 10 ++ cbits c 6 5).setWidth 32) 5 rotate <<< 1).setWidth
          64)⟩ := by
  unfold decodeCLdst
  simp (disch := decide) only [rvcWord_bits]
  rfl

end Memory

section Quadrant0

theorem expands_addi4spn (hshare : P.share = true) (hg : P.guidedExec = false)
    (hq : cbits c 1 0 = 0#2) (h3 : cbits c 15 13 = 0#3) (hn : cbits c 12 5 ≠ 0#8) :
    Expands P c (encodeI 2 (cRs2' c) 0b00100 0 ((cImm4spn c).setWidth 12)) := by
  intro pc snpc m e
  refine ⟨⟨pc, snpc, c.setWidth 32, .computeImm .add, decodeOpR (cRs2' c) false, decodeOpR 2 true,
    decodeOpI ((cImm4spn c).setWidth 64)⟩, ?_, ?_⟩
  · have hrow : tableRvc P (rvcWord c pc snpc m e) =
        .ok (decodeCAddi4spn (rvcWord c pc snpc m e)) := by
      simp [tableRvc, tableRvcQ0, rvcWord_bits, hq, h3, hn]
      rfl
    refine hrow.trans (congrArg Except.ok ?_)
    unfold decodeCAddi4spn
    simp (disch := decide) only [rvcWord_bits, rorImm_4spn]
    rfl
  · refine .of_row (fun x => row_addi rfl) hshare hg rfl rfl rfl fun s _ hs => ?_
    rw [BitField.signExtend_setWidth _ (by decide), ← hs]
    exact SetsReg.reaches (setsReg_computeImm (a := .add) rfl rfl rfl)

theorem expands_lw (hq : cbits c 1 0 = 0#2) (h3 : cbits c 15 13 = 2#3) :
    Expands P c (encodeI (cRs1' c) (cRs2' c) 0b00000 2 ((cOffsetW c).setWidth 12)) := by
  apply expands_load _ tableLoad_lw
  intro pc snpc m e
  have hrow : tableRvc P (rvcWord c pc snpc m e) =
      .ok (decodeCLdst (rvcWord c pc snpc m e) 1 false false (.load true 4 m)) := by
    simp [tableRvc, tableRvcQ0, rvcWord_bits, hq, h3]
    rfl
  rw [hrow, decodeCLdst_rvc, rorImm_offsetW, BitField.signExtend_setWidth _ (by decide)]

theorem expands_ld (hq : cbits c 1 0 = 0#2) (h3 : cbits c 15 13 = 3#3) :
    Expands P c (encodeI (cRs1' c) (cRs2' c) 0b00000 3 ((cOffsetD c).setWidth 12)) := by
  apply expands_load _ tableLoad_ld
  intro pc snpc m e
  have hrow : tableRvc P (rvcWord c pc snpc m e) =
      .ok (decodeCLdst (rvcWord c pc snpc m e) 2 false false (.load true 8 m)) := by
    simp [tableRvc, tableRvcQ0, rvcWord_bits, hq, h3]
    rfl
  rw [hrow, decodeCLdst_rvc, rorImm_offsetD, BitField.signExtend_setWidth _ (by decide)]

theorem expands_sw (hq : cbits c 1 0 = 0#2) (h3 : cbits c 15 13 = 6#3) :
    Expands P c (encodeS (cRs1' c) (cRs2' c) 0b01000 2 ((cOffsetW c).setWidth 12)) := by
  apply expands_store _ tableStore_sw
  intro pc snpc m e
  have hrow : tableRvc P (rvcWord c pc snpc m e) =
      .ok (decodeCLdst (rvcWord c pc snpc m e) 1 true false (.store 4 m)) := by
    simp [tableRvc, tableRvcQ0, rvcWord_bits, hq, h3]
    rfl
  rw [hrow, decodeCLdst_rvc, rorImm_offsetW, BitField.signExtend_setWidth _ (by decide)]

theorem expands_sd (hq : cbits c 1 0 = 0#2) (h3 : cbits c 15 13 = 7#3) :
    Expands P c (encodeS (cRs1' c) (cRs2' c) 0b01000 3 ((cOffsetD c).setWidth 12)) := by
  apply expands_store _ tableStore_sd
  intro pc snpc m e
  have hrow : tableRvc P (rvcWord c pc snpc m e) =
      .ok (decodeCLdst (rvcWord c pc snpc m e) 2 true false (.store 8 m)) := by
    simp [tableRvc, tableRvcQ0, rvcWord_bits, hq, h3]
    rfl
  rw [hrow, decodeCLdst_rvc, rorImm_offsetD, BitField.signExtend_setWidth _ (by decide)]

theorem expandQ0_expands (hshare : P.share = true) (hg : P.guidedExec = false)
    (hq : cbits c 1 0 = 0#2) (h : expandQ0 c = some w) : Expands P c w := by
  unfold expandQ0 at h
  split at h
  · next h3 =>
    split at h
    · cases h
    · next hn =>
      cases h
      exact expands_addi4spn hshare hg hq (BitVec.eq_of_toNat_eq h3) hn
  · next h3 =>
    cases h
    exact expands_lw hq (BitVec.eq_of_toNat_eq h3)
  · next h3 =>
    cases h
    exact expands_ld hq (BitVec.eq_of_toNat_eq h3)
  · next h3 =>
    cases h
    exact expands_sw hq (BitVec.eq_of_toNat_eq h3)
  · next h3 =>
    cases h
    exact expands_sd hq (BitVec.eq_of_toNat_eq h3)
  · cases h

end Quadrant0

section Quadrant1

theorem imm6_rvc : imm6 (rvcWord c pc snpc m e) = cImm6 c := by
  unfold imm6 cImm6
  simp (disch := decide) only [rvcWord_bits]

theorem decodeCISimm_rvc :
    decodeCISimm (rvcWord c pc snpc m e) id = ⟨pc, snpc, c.setWidth 32, id, decodeOpR (cRd c) false,
      decodeOpR (cRd c) true, decodeOpI ((cImm6 c).signExtend 64)⟩ := by
  unfold decodeCISimm decodeCRdRs1
  rw [imm6_rvc, rvcWord_bits (by decide) (by decide)]
  rfl

theorem signExtend_imm6 (x : BitVec 6) : (x.signExtend 12).signExtend 64 = x.signExtend 64 :=
  BitField.signExtend_signExtend x (by decide) (by decide)

theorem expands_addi (hshare : P.share = true) (hg : P.guidedExec = false)
    (hq : cbits c 1 0 = 1#2) (h3 : cbits c 15 13 = 0#3) :
    Expands P c (encodeI (cRd c) (cRd c) 0b00100 0 ((cImm6 c).signExtend 12)) := by
  intro pc snpc m e
  have hrow : tableRvc P (rvcWord c pc snpc m e) = .ok (decodeCISimm (rvcWord c pc snpc m e)
      (tableCAddiDispatch ((cImm6 c).signExtend 64))) := by
    simp [tableRvc, tableRvcQ1, rvcWord_bits, hq, h3, imm6_rvc]
    rfl
  rw [decodeCISimm_rvc] at hrow
  refine ⟨_, hrow, .of_row (fun x => row_addi rfl) hshare hg rfl rfl
    (tableCAddiDispatch_cfiType _) fun s _ hs => ?_⟩
  rw [signExtend_imm6, ← hs]
  exact SetsReg.reaches (setsReg_cAddiDispatch rfl rfl)

theorem expands_addiw (hshare : P.share = true) (hg : P.guidedExec = false)
    (hq : cbits c 1 0 = 1#2) (h3 : cbits c 15 13 = 1#3) (hrd : cRd c ≠ 0#5) :
    Expands P c (encodeI (cRd c) (cRd c) 0b00110 0 ((cImm6 c).signExtend 12)) := by
  intro pc snpc m e
  have hrow : tableRvc P (rvcWord c pc snpc m e) = .ok (decodeCISimm (rvcWord c pc snpc m e)
      (.compressedImm .addw)) := by
    have hrd' : cbits c 11 7 ≠ 0#5 := hrd
    simp [tableRvc, tableRvcQ1, rvcWord_bits, hq, h3, tableCAddiwDispatch, hrd']
    rfl
  rw [decodeCISimm_rvc] at hrow
  refine ⟨_, hrow, .of_row (fun x => row_addiw rfl) hshare hg rfl rfl rfl fun s _ hs => ?_⟩
  rw [signExtend_imm6, ← aluValue_aluW (o := .add) rfl, ← hs]
  exact SetsReg.reaches (setsReg_compressedImm rfl rfl)

theorem expands_li (hshare : P.share = true) (hg : P.guidedExec = false)
    (hq : cbits c 1 0 = 1#2) (h3 : cbits c 15 13 = 2#3) :
    Expands P c (encodeI 0 (cRd c) 0b00100 0 ((cImm6 c).signExtend 12)) := by
  intro pc snpc m e
  have hrow : tableRvc P (rvcWord c pc snpc m e) = .ok ⟨pc, snpc, c.setWidth 32,
      tableCLiDispatch (rvcWord c pc snpc m e), decodeOpR (cRd c) false, decodeOpR 0 true,
      decodeOpI ((cImm6 c).signExtend 64)⟩ := by
    simp [tableRvc, tableRvcQ1, rvcWord_bits, hq, h3, decodeCLI, imm6_rvc]
    rfl
  have hid : (tableCLiDispatch (rvcWord c pc snpc m e) = .p_li_0 ∧
        ((cImm6 c).signExtend 64 : Word) = 0) ∨
      (tableCLiDispatch (rvcWord c pc snpc m e) = .p_li_1 ∧
        ((cImm6 c).signExtend 64 : Word) = 1) ∨
      tableCLiDispatch (rvcWord c pc snpc m e) = .c_li := by
    unfold tableCLiDispatch cImm6
    simp (disch := decide) only [rvcWord_bits]
    split
    · next h =>
      rw [h.1, h.2]
      exact .inl ⟨rfl, rfl⟩
    · split
      · next h =>
        rw [h.1, h.2]
        exact .inr (.inl ⟨rfl, rfl⟩)
      · exact .inr (.inr rfl)
  have hk : (tableCLiDispatch (rvcWord c pc snpc m e)).cfiType = .none := by
    obtain ⟨h, _⟩ | ⟨h, _⟩ | h := hid
    all_goals
      rw [h]
      rfl
  refine ⟨_, hrow, .of_row (fun x => row_addi rfl) hshare hg rfl rfl hk fun s h0 hs => ?_⟩
  have hzero : s.gpr 0 + (cImm6 c).signExtend 64 = (cImm6 c).signExtend 64 := by
    rw [h0]
    exact BitVec.zero_add _
  rw [signExtend_imm6, hzero, ← hs]
  exact SetsReg.reaches (setsReg_li hid rfl)

theorem expands_addi16sp (hshare : P.share = true) (hg : P.guidedExec = false)
    (hq : cbits c 1 0 = 1#2) (h3 : cbits c 15 13 = 3#3) (hrd : cRd c = 2#5)
    (hn : cImm16sp c ≠ 0#10) :
    Expands P c (encodeI 2 2 0b00100 0 ((cImm16sp c).signExtend 12)) := by
  intro pc snpc m e
  have hn' : (cImm16sp c).signExtend 64 ≠ (0 : Word) := by
    intro h
    apply hn
    apply BitVec.eq_of_toInt_eq
    rw [← BitVec.toInt_signExtend_of_le (by decide : 10 ≤ 64), h]
    rfl
  have hrow : tableRvc P (rvcWord c pc snpc m e) = .ok ⟨pc, snpc, c.setWidth 32,
      .compressedImm .add, decodeOpR 2 false, decodeOpR 2 true,
      decodeOpI ((cImm16sp c).signExtend 64)⟩ := by
    have hrd' : cbits c 11 7 = 2#5 := hrd
    have hsp : tableRvc P (rvcWord c pc snpc m e) = decodeCAddi16sp P (rvcWord c pc snpc m e) := by
      simp [tableRvc, tableRvcQ1, rvcWord_bits, hq, h3, hrd']
    rw [hsp]
    unfold decodeCAddi16sp
    simp (disch := decide) only [rvcWord_bits]
    exact if_neg hn'
  refine ⟨_, hrow, .of_row (fun x => row_addi rfl) hshare hg rfl rfl rfl fun s _ hs => ?_⟩
  rw [BitField.signExtend_signExtend _ (by decide) (by decide), ← hs]
  exact SetsReg.reaches (setsReg_compressedImm (a := .add) rfl rfl)

theorem expands_lui (hq : cbits c 1 0 = 1#2) (h3 : cbits c 15 13 = 3#3) (hrd : cRd c ≠ 2#5)
    (hn : cImm6 c ≠ 0#6) : Expands P c (encodeU (cRd c) 0b01101 ((cImm6 c).signExtend 20)) := by
  intro pc snpc m e
  have hn' : ∀ x : BitVec 6, x ≠ 0 → x.signExtend 64 ≠ (0 : Word) := by decide
  have himm : ∀ x : BitVec 6,
      (x.signExtend 64 <<< 12 : Word) = (x.signExtend 20 ++ 0#12).signExtend 64 := by decide
  have hrow : tableRvc P (rvcWord c pc snpc m e) = .ok ⟨pc, snpc, c.setWidth 32, .lui,
      decodeOpR (cRd c) false, decodeOpI ((cImm6 c).signExtend 64 <<< 12),
      decodeOpI ((cImm6 c).signExtend 64)⟩ := by
    have hrd' : cbits c 11 7 ≠ 2#5 := hrd
    have hlui : tableRvc P (rvcWord c pc snpc m e) = decodeCISimmLui P (rvcWord c pc snpc m e) := by
      simp [tableRvc, tableRvcQ1, rvcWord_bits, hq, h3, hrd']
    rw [hlui]
    unfold decodeCISimmLui
    rw [imm6_rvc, rvcWord_bits (by decide) (by decide)]
    exact if_neg fun h => hn' _ hn h.2
  refine ⟨_, hrow, ?_⟩
  rw [tableMain_lui rfl, ← himm]
  exact ⟨rfl, rfl, rfl, fun _ _ _ => rfl⟩

theorem expands_j (hshare : P.share = true) (hg : P.guidedExec = false)
    (hq : cbits c 1 0 = 1#2) (h3 : cbits c 15 13 = 5#3) :
    Expands P c (encodeJ 0 0b11011 ((cOffsetJ c).signExtend 20)) := by
  intro pc snpc m e
  have hrow : tableRvc P (rvcWord c pc snpc m e) = .ok ⟨pc, snpc, c.setWidth 32, .c_j,
      decodeOpEmpty, decodeOpI (pc + (cOffsetJ c ++ 0#1).signExtend 64), decodeOpEmpty⟩ := by
    have hj : tableRvc P (rvcWord c pc snpc m e) = .ok (decodeCJ (rvcWord c pc snpc m e) .c_j) := by
      simp [tableRvc, tableRvcQ1, rvcWord_bits, hq, h3]
      rfl
    rw [hj]
    unfold decodeCJ
    simp (disch := decide) only [rvcWord_bits]
    rfl
  refine ⟨_, hrow, .of_row (fun x => row_jal rfl) hshare hg rfl rfl rfl fun s _ _ => ?_⟩
  rw [BitField.signExtend_append_zero _ (by decide) (by decide), Regs.set_zero]
  exact ⟨s.zeroNull, rtlJ_run hg _ s⟩

theorem decodeCB_rvc :
    decodeCB (rvcWord c pc snpc m e) id = ⟨pc, snpc, c.setWidth 32, id,
      decodeOpI (pc + (cOffsetB c ++ 0#1).signExtend 64), decodeOpR (cRs1' c) true,
      decodeOpR 0 true⟩ := by
  unfold decodeCB
  simp (disch := decide) only [rvcWord_bits]
  rfl

theorem expands_branch {b : Cond} {i : ExecId} (hshare : P.share = true) (hg : P.guidedExec = false)
    (hrvc : ∀ pc snpc m e, tableRvc P (rvcWord c pc snpc m e) =
      .ok (decodeCB (rvcWord c pc snpc m e) i)) (hk : i.cfiType = .branch)
    (hcond : ∀ f : Fetched, f.funct3 = funct3 → branchCond f = some b)
    (hrun : ∀ (d : Decode) (s : Machine), d.id = i → d.src1 = decodeOpR (cRs1' c) true →
      exec P d s = rtlJrelop P d b.relop (s.gpr (cRs1' c)) 0 s) :
    Expands P c (encodeB (cRs1' c) 0 0b11000 funct3 ((cOffsetB c).signExtend 12)) := by
  intro pc snpc m e
  have hrow := hrvc pc snpc m e
  rw [decodeCB_rvc] at hrow
  refine ⟨_, hrow, .of_row (fun x => row_branch rfl (hcond _ (encodeR_fields rfl).funct3)) hshare hg
    rfl rfl hk fun s h0 _ => ⟨s.zeroNull, ?_⟩⟩
  rw [hrun _ s rfl rfl, BitField.signExtend_append_zero _ (by decide) (by decide), h0]
  unfold rtlJrelop
  rw [rtlJ_run hg, interpretRelop_relop]
  rfl

theorem expands_beqz (hshare : P.share = true) (hg : P.guidedExec = false)
    (hq : cbits c 1 0 = 1#2) (h3 : cbits c 15 13 = 6#3) :
    Expands P c (encodeB (cRs1' c) 0 0b11000 0 ((cOffsetB c).signExtend 12)) := by
  refine expands_branch (b := .eq) hshare hg (i := .c_beqz) (fun pc snpc m e => ?_) rfl
    (fun f h => by simp [branchCond, h]) fun d s hid h1 => ?_
  · simp [tableRvc, tableRvcQ1, rvcWord_bits, hq, h3]
    rfl
  · unfold exec
    rw [hid, h1]
    rfl

theorem expands_bnez (hshare : P.share = true) (hg : P.guidedExec = false)
    (hq : cbits c 1 0 = 1#2) (h3 : cbits c 15 13 = 7#3) :
    Expands P c (encodeB (cRs1' c) 0 0b11000 1 ((cOffsetB c).signExtend 12)) := by
  refine expands_branch (b := .ne) hshare hg (i := .c_bnez) (fun pc snpc m e => ?_) rfl
    (fun f h => by simp [branchCond, h]) fun d s hid h1 => ?_
  · simp [tableRvc, tableRvcQ1, rvcWord_bits, hq, h3]
    rfl
  · unfold exec
    rw [hid, h1]
    rfl

section Arith

theorem funct6_imm {imm : BitVec 12} (h : f.bits 31 20 = imm) :
    f.funct6 = imm.extractLsb' 6 6 := by
  have hsub : (f.instr.extractLsb' 20 12).extractLsb' 6 6 = f.instr.extractLsb' 26 6 := by
    ext k hk
    have hlt : 6 + k < 12 := by omega
    have hpos : 20 + (6 + k) = 26 + k := by omega
    simp only [BitVec.getElem_extractLsb', BitVec.getLsbD_extractLsb', hlt, hpos, decide_true,
      Bool.true_and]
  rw [← h]
  exact hsub.symm

/-- C.SRLI, C.SRAI and C.ANDI: the executor sees its immediate without the bits that select the
operation. -/
theorem expands_arithImm {o : IntOp} {imm : BitVec 12} (hshare : P.share = true)
    (hg : P.guidedExec = false)
    (hrvc : ∀ pc snpc m e, tableRvc P (rvcWord c pc snpc m e) =
      .ok ⟨pc, snpc, c.setWidth 32, .compressedImm o.alu, decodeOpR r false, decodeOpR r true,
        decodeOpI x⟩)
    (ho : ∀ f : Fetched, f.funct3 = funct3 → f.bits 31 20 = imm → opImmOp f = some o)
    (hx : ∀ a, o.value a (imm.signExtend 64) = o.value a x) :
    Expands P c (encodeI r r 0b00100 funct3 imm) := by
  intro pc snpc m e
  refine ⟨_, hrvc pc snpc m e, .of_row
    (fun x => row_opImm rfl (ho _ (encodeR_fields rfl).funct3 (encodeI_imm rfl))) hshare hg rfl rfl
    rfl fun s _ hs => ?_⟩
  rw [hx, ← aluValue_alu, ← hs]
  exact SetsReg.reaches (setsReg_compressedImm rfl rfl)

theorem shift_high_zero : ∀ x : BitVec 6,
    ((0b000000#6 ++ x).signExtend 64 : Word).toNat % 64 = (x.setWidth 64 : Word).toNat % 64 := by
  decide

theorem shift_high_sra : ∀ x : BitVec 6,
    ((0b010000#6 ++ x).signExtend 64 : Word).toNat % 64 = (x.setWidth 64 : Word).toNat % 64 := by
  decide

theorem expands_srli (hshare : P.share = true) (hg : P.guidedExec = false)
    (hq : cbits c 1 0 = 1#2) (h3 : cbits c 15 13 = 4#3) (h2 : cbits c 11 10 = 0#2) :
    Expands P c (encodeI (cRs1' c) (cRs1' c) 0b00100 5 (0b000000#6 ++ cImm6 c)) := by
  refine expands_arithImm (o := .srl) hshare hg (x := (cImm6 c).setWidth 64)
    (fun pc snpc m e => ?_) (fun f h5 himm => ?_) fun a => ?_
  · simp [tableRvc, tableRvcQ1, tableRvcQ1Compute, rvcWord_bits, hq, h3, h2, imm6_rvc]
    rfl
  · have h6 : f.funct6 = 0 := by
      rw [funct6_imm himm, BitVec.extractLsb'_append_eq_left]
      rfl
    simp [opImmOp, h5, h6]
  · exact congrArg (a >>> ·) (shift_high_zero _)

theorem expands_srai (hshare : P.share = true) (hg : P.guidedExec = false)
    (hq : cbits c 1 0 = 1#2) (h3 : cbits c 15 13 = 4#3) (h2 : cbits c 11 10 = 1#2) :
    Expands P c (encodeI (cRs1' c) (cRs1' c) 0b00100 5 (0b010000#6 ++ cImm6 c)) := by
  refine expands_arithImm (o := .sra) hshare hg (x := (cImm6 c).setWidth 64)
    (fun pc snpc m e => ?_) (fun f h5 himm => ?_) fun a => ?_
  · simp [tableRvc, tableRvcQ1, tableRvcQ1Compute, rvcWord_bits, hq, h3, h2, imm6_rvc]
    rfl
  · have h6 : f.funct6 = 0b010000 := by
      rw [funct6_imm himm, BitVec.extractLsb'_append_eq_left]
      rfl
    simp [opImmOp, h5, h6]
  · exact congrArg (a.sshiftRight ·) (shift_high_sra _)

theorem expands_andi (hshare : P.share = true) (hg : P.guidedExec = false)
    (hq : cbits c 1 0 = 1#2) (h3 : cbits c 15 13 = 4#3) (h2 : cbits c 11 10 = 2#2) :
    Expands P c (encodeI (cRs1' c) (cRs1' c) 0b00100 7 ((cImm6 c).signExtend 12)) := by
  refine expands_arithImm (o := .and) hshare hg (x := (cImm6 c).signExtend 64)
    (fun pc snpc m e => ?_) (fun f h7 himm => ?_) fun a => ?_
  · simp [tableRvc, tableRvcQ1, tableRvcQ1Compute, rvcWord_bits, hq, h3, h2, imm6_rvc]
    rfl
  · simp [opImmOp, h7]
  · rw [signExtend_imm6]

theorem decodeCS_rvc :
    decodeCS (rvcWord c pc snpc m e) id = ⟨pc, snpc, c.setWidth 32, id, decodeOpR (cRs1' c) false,
      decodeOpR (cRs1' c) true, decodeOpR (cRs2' c) true⟩ := by
  unfold decodeCS
  simp (disch := decide) only [rvcWord_bits]
  rfl

theorem expands_reg {o : IntOp} (hshare : P.share = true) (hg : P.guidedExec = false)
    (hrvc : ∀ pc snpc m e, tableRvc P (rvcWord c pc snpc m e) =
      .ok (decodeCS (rvcWord c pc snpc m e) (.compressedReg o.alu)))
    (ho : ∀ f : Fetched, f.funct3 = funct3 → f.funct7 = funct7 → opOp f = some o)
    (h7 : funct7 ≠ 1#7) :
    Expands P c (encodeR (cRs1' c) (cRs2' c) (cRs1' c) 0b01100 funct3 funct7) := by
  intro pc snpc m e
  have hrow := hrvc pc snpc m e
  rw [decodeCS_rvc] at hrow
  refine ⟨_, hrow, .of_row
    (fun x => row_op rfl (ho _ (encodeR_fields rfl).funct3 (encodeR_fields rfl).funct7) h7)
    hshare hg rfl rfl rfl fun s _ hs => ?_⟩
  rw [← aluValue_alu, ← hs]
  exact SetsReg.reaches (setsReg_compressedReg rfl rfl rfl)

theorem expands_regW {o : IntOp} (hshare : P.share = true) (hg : P.guidedExec = false)
    (hrvc : ∀ pc snpc m e, tableRvc P (rvcWord c pc snpc m e) =
      .ok (decodeCS (rvcWord c pc snpc m e) (.compressedReg o.aluW))) (hw : o.hasW = true)
    (ho : ∀ f : Fetched, f.funct3 = funct3 → f.funct7 = funct7 → op32Op f = some o)
    (h7 : funct7 ≠ 1#7) :
    Expands P c (encodeR (cRs1' c) (cRs2' c) (cRs1' c) 0b01110 funct3 funct7) := by
  intro pc snpc m e
  have hrow := hrvc pc snpc m e
  rw [decodeCS_rvc] at hrow
  refine ⟨_, hrow, .of_row
    (fun x => row_op32 rfl (ho _ (encodeR_fields rfl).funct3 (encodeR_fields rfl).funct7) h7)
    hshare hg rfl rfl rfl fun s _ hs => ?_⟩
  rw [← aluValue_aluW hw, ← hs]
  exact SetsReg.reaches (setsReg_compressedReg rfl rfl rfl)

theorem expandArith_expands (hshare : P.share = true) (hg : P.guidedExec = false)
    (hq : cbits c 1 0 = 1#2) (h3 : cbits c 15 13 = 4#3) (h : expandArith c = some w) :
    Expands P c w := by
  unfold expandArith at h
  split at h
  · next h2 =>
    cases h
    exact expands_srli hshare hg hq h3 (BitVec.eq_of_toNat_eq h2)
  · next h2 =>
    cases h
    exact expands_srai hshare hg hq h3 (BitVec.eq_of_toNat_eq h2)
  · next h2 =>
    cases h
    exact expands_andi hshare hg hq h3 (BitVec.eq_of_toNat_eq h2)
  · next h20 h21 h22 =>
    have h2 : cbits c 11 10 = 3#2 := by
      have hall : ∀ n < 4, n ≠ 0 → n ≠ 1 → n ≠ 2 → n = 3 := by decide
      exact BitVec.eq_of_toNat_eq (hall _ (cbits c 11 10).isLt h20 h21 h22)
    split at h
    · next h12 h65 =>
      cases h
      have h12 : cbits c 12 12 = 0#1 := BitVec.eq_of_toNat_eq h12
      have h65 : cbits c 6 5 = 0#2 := BitVec.eq_of_toNat_eq h65
      refine expands_reg (o := .sub) hshare hg (fun pc snpc m e => ?_) (fun f h h' => ?_) (by decide)
      · simp [tableRvc, tableRvcQ1, tableRvcQ1Compute, rvcWord_bits, hq, h3, h2, h12, h65]
        rfl
      · simp [opOp, h, h']
    · next h12 h65 =>
      cases h
      have h12 : cbits c 12 12 = 0#1 := BitVec.eq_of_toNat_eq h12
      have h65 : cbits c 6 5 = 1#2 := BitVec.eq_of_toNat_eq h65
      refine expands_reg (o := .xor) hshare hg (fun pc snpc m e => ?_) (fun f h h' => ?_) (by decide)
      · simp [tableRvc, tableRvcQ1, tableRvcQ1Compute, rvcWord_bits, hq, h3, h2, h12, h65]
        rfl
      · simp [opOp, h, h']
    · next h12 h65 =>
      cases h
      have h12 : cbits c 12 12 = 0#1 := BitVec.eq_of_toNat_eq h12
      have h65 : cbits c 6 5 = 2#2 := BitVec.eq_of_toNat_eq h65
      refine expands_reg (o := .or) hshare hg (fun pc snpc m e => ?_) (fun f h h' => ?_) (by decide)
      · simp [tableRvc, tableRvcQ1, tableRvcQ1Compute, rvcWord_bits, hq, h3, h2, h12, h65]
        rfl
      · simp [opOp, h, h']
    · next h12 h65 =>
      cases h
      have h12 : cbits c 12 12 = 0#1 := BitVec.eq_of_toNat_eq h12
      have h65 : cbits c 6 5 = 3#2 := BitVec.eq_of_toNat_eq h65
      refine expands_reg (o := .and) hshare hg (fun pc snpc m e => ?_) (fun f h h' => ?_) (by decide)
      · simp [tableRvc, tableRvcQ1, tableRvcQ1Compute, rvcWord_bits, hq, h3, h2, h12, h65]
        rfl
      · simp [opOp, h, h']
    · next h12 h65 =>
      cases h
      have h12 : cbits c 12 12 = 1#1 := BitVec.eq_of_toNat_eq h12
      have h65 : cbits c 6 5 = 0#2 := BitVec.eq_of_toNat_eq h65
      refine expands_regW (o := .sub) hshare hg (fun pc snpc m e => ?_) rfl (fun f h h' => ?_) (by decide)
      · simp [tableRvc, tableRvcQ1, tableRvcQ1Compute, rvcWord_bits, hq, h3, h2, h12, h65]
        rfl
      · simp [op32Op, h, h']
    · next h12 h65 =>
      cases h
      have h12 : cbits c 12 12 = 1#1 := BitVec.eq_of_toNat_eq h12
      have h65 : cbits c 6 5 = 1#2 := BitVec.eq_of_toNat_eq h65
      refine expands_regW (o := .add) hshare hg (fun pc snpc m e => ?_) rfl (fun f h h' => ?_) (by decide)
      · simp [tableRvc, tableRvcQ1, tableRvcQ1Compute, rvcWord_bits, hq, h3, h2, h12, h65]
        rfl
      · simp [op32Op, h, h']
    · cases h

end Arith

theorem expandQ1_expands (hshare : P.share = true) (hg : P.guidedExec = false)
    (hq : cbits c 1 0 = 1#2) (h : expandQ1 c = some w) : Expands P c w := by
  unfold expandQ1 at h
  split at h
  · next h3 =>
    cases h
    exact expands_addi hshare hg hq (BitVec.eq_of_toNat_eq h3)
  · next h3 =>
    split at h
    · cases h
    · next hrd =>
      cases h
      exact expands_addiw hshare hg hq (BitVec.eq_of_toNat_eq h3) hrd
  · next h3 =>
    cases h
    exact expands_li hshare hg hq (BitVec.eq_of_toNat_eq h3)
  · next h3 =>
    split at h
    · next hrd =>
      split at h
      · cases h
      · next hn =>
        cases h
        exact expands_addi16sp hshare hg hq (BitVec.eq_of_toNat_eq h3) hrd hn
    · next hrd =>
      split at h
      · cases h
      · next hn =>
        cases h
        exact expands_lui hq (BitVec.eq_of_toNat_eq h3) hrd hn
  · next h3 => exact expandArith_expands hshare hg hq (BitVec.eq_of_toNat_eq h3) h
  · next h3 =>
    cases h
    exact expands_j hshare hg hq (BitVec.eq_of_toNat_eq h3)
  · next h3 =>
    cases h
    exact expands_beqz hshare hg hq (BitVec.eq_of_toNat_eq h3)
  · next h30 h31 h32 h33 h34 h35 h36 =>
    cases h
    have hall : ∀ n < 8, n ≠ 0 → n ≠ 1 → n ≠ 2 → n ≠ 3 → n ≠ 4 → n ≠ 5 → n ≠ 6 → n = 7 := by
      omega
    have h3 := hall _ (cbits c 15 13).isLt h30 h31 h32 h33 h34 h35 h36
    exact expands_bnez hshare hg hq (BitVec.eq_of_toNat_eq h3)

end Quadrant1

section Quadrant2

theorem expands_slli (hshare : P.share = true) (hg : P.guidedExec = false)
    (hq : cbits c 1 0 = 2#2) (h3 : cbits c 15 13 = 0#3) :
    Expands P c (encodeI (cRd c) (cRd c) 0b00100 1 (0b000000#6 ++ cImm6 c)) := by
  refine expands_arithImm (o := .sll) hshare hg (x := (cImm6 c).setWidth 64)
    (fun pc snpc m e => ?_) (fun f h1 himm => ?_) fun a => ?_
  · simp [tableRvc, tableRvcQ2, rvcWord_bits, hq, h3, decodeCIUimm, decodeCRdRs1, imm6_rvc]
    rfl
  · have h6 : f.funct6 = 0 := by
      rw [funct6_imm himm, BitVec.extractLsb'_append_eq_left]
      rfl
    simp [opImmOp, h1, h6]
  · exact congrArg (a <<< ·) (shift_high_zero _)

theorem decodeCxxSP_rvc {dest : Operand} :
    decodeCxxSP (rvcWord c pc snpc m e) imm rotate dest id = ⟨pc, snpc, c.setWidth 32, id, dest,
      decodeOpR 2 true, decodeOpI ((rorImm (imm.setWidth 32) 6 rotate).setWidth 64)⟩ := rfl

theorem decodeCLxSP_rvc (hrd : cRd c ≠ 0#5) :
    decodeCLxSP P (rvcWord c pc snpc m e) rotate false id =
      .ok (decodeCxxSP (rvcWord c pc snpc m e) (cImm6 c) rotate (decodeOpR (cRd c) false) id) := by
  unfold decodeCLxSP
  rw [imm6_rvc, rvcWord_bits (by decide) (by decide)]
  exact if_neg fun h => hrd h.2.1

theorem expands_lwsp (hq : cbits c 1 0 = 2#2) (h3 : cbits c 15 13 = 2#3) (hrd : cRd c ≠ 0#5) :
    Expands P c (encodeI 2 (cRd c) 0b00000 2
      ((cbits c 3 2 ++ cbits c 12 12 ++ cbits c 6 4 ++ 0#2).setWidth 12)) := by
  apply expands_load _ tableLoad_lw
  intro pc snpc m e
  have hrow : tableRvc P (rvcWord c pc snpc m e) =
      decodeCLxSP P (rvcWord c pc snpc m e) 2 false (.load true 4 m) := by
    simp [tableRvc, tableRvcQ2, rvcWord_bits, hq, h3]
    rfl
  rw [hrow, decodeCLxSP_rvc hrd, decodeCxxSP_rvc, rorImm_lwsp,
    BitField.signExtend_setWidth _ (by decide)]

theorem expands_ldsp (hq : cbits c 1 0 = 2#2) (h3 : cbits c 15 13 = 3#3) (hrd : cRd c ≠ 0#5) :
    Expands P c (encodeI 2 (cRd c) 0b00000 3
      ((cbits c 4 2 ++ cbits c 12 12 ++ cbits c 6 5 ++ 0#3).setWidth 12)) := by
  apply expands_load _ tableLoad_ld
  intro pc snpc m e
  have hrow : tableRvc P (rvcWord c pc snpc m e) =
      decodeCLxSP P (rvcWord c pc snpc m e) 3 false (.load true 8 m) := by
    simp [tableRvc, tableRvcQ2, rvcWord_bits, hq, h3]
    rfl
  rw [hrow, decodeCLxSP_rvc hrd, decodeCxxSP_rvc, rorImm_ldsp,
    BitField.signExtend_setWidth _ (by decide)]

theorem decodeCSxSP_rvc :
    decodeCSxSP (rvcWord c pc snpc m e) rotate false id =
      decodeCxxSP (rvcWord c pc snpc m e) (cbits c 12 7) rotate (decodeOpR (cRs2 c) true) id := by
  unfold decodeCSxSP
  simp (disch := decide) only [rvcWord_bits]
  rfl

theorem expands_swsp (hq : cbits c 1 0 = 2#2) (h3 : cbits c 15 13 = 6#3) :
    Expands P c (encodeS 2 (cRs2 c) 0b01000 2
      ((cbits c 8 7 ++ cbits c 12 9 ++ 0#2).setWidth 12)) := by
  apply expands_store _ tableStore_sw
  intro pc snpc m e
  have hrow : tableRvc P (rvcWord c pc snpc m e) =
      .ok (decodeCSxSP (rvcWord c pc snpc m e) 2 false (.store 4 m)) := by
    simp [tableRvc, tableRvcQ2, rvcWord_bits, hq, h3]
    rfl
  rw [hrow, decodeCSxSP_rvc, decodeCxxSP_rvc, rorImm_swsp,
    BitField.signExtend_setWidth _ (by decide)]

theorem expands_sdsp (hq : cbits c 1 0 = 2#2) (h3 : cbits c 15 13 = 7#3) :
    Expands P c (encodeS 2 (cRs2 c) 0b01000 3
      ((cbits c 9 7 ++ cbits c 12 10 ++ 0#3).setWidth 12)) := by
  apply expands_store _ tableStore_sd
  intro pc snpc m e
  have hrow : tableRvc P (rvcWord c pc snpc m e) =
      .ok (decodeCSxSP (rvcWord c pc snpc m e) 3 false (.store 8 m)) := by
    simp [tableRvc, tableRvcQ2, rvcWord_bits, hq, h3]
    rfl
  rw [hrow, decodeCSxSP_rvc, decodeCxxSP_rvc, rorImm_sdsp,
    BitField.signExtend_setWidth _ (by decide)]

theorem jump_imm_zero (a : Word) : a + (0 : BitVec 12).signExtend 64 = a := BitVec.add_zero a

theorem expands_jr (hshare : P.share = true) (hg : P.guidedExec = false)
    (hq : cbits c 1 0 = 2#2) (h3 : cbits c 15 13 = 4#3) (h12 : cbits c 12 12 = 0#1)
    (hrs2 : cRs2 c = 0#5) (hrd : cRd c ≠ 0#5) :
    Expands P c (encodeI (cRd c) 0 0b11001 0 0) := by
  intro pc snpc m e
  have hrs2' : cbits c 6 2 = 0#5 := hrs2
  have hrd' : cbits c 11 7 ≠ 0#5 := hrd
  have hrow : tableRvc P (rvcWord c pc snpc m e) = .ok ⟨pc, snpc, c.setWidth 32,
      if cRd c = 1#5 then .p_ret else .c_jr, decodeOpEmpty, decodeOpR (cRd c) true,
      decodeOpEmpty⟩ := by
    by_cases h1 : cbits c 11 7 = 1#5
    · simp [tableRvc, tableRvcQ2, tableRvcQ2Misc, decodeCJR, rvcWord_bits, hq, h3, h12, hrs2', h1,
        cRd]
      rfl
    · simp [tableRvc, tableRvcQ2, tableRvcQ2Misc, decodeCJR, rvcWord_bits, hq, h3, h12, hrs2', h1,
        hrd', cRd]
      rfl
  refine ⟨_, hrow, .of_row (fun x => row_jalr rfl) hshare hg rfl rfl ?_ fun s _ _ => ?_⟩
  · dsimp only
    split
    all_goals rfl
  · rw [Regs.set_zero, jump_imm_zero]
    refine ⟨s.zeroNull, ?_⟩
    have htarget : jumpTarget P (s.gpr (cRd c)) = s.gpr (cRd c) &&& ~~~1 := if_pos hshare
    rw [← htarget, ← rtlJ_run hg]
    split
    · next h1 =>
      rw [h1]
      rfl
    · rfl

theorem expands_mv (hshare : P.share = true) (hg : P.guidedExec = false)
    (hq : cbits c 1 0 = 2#2) (h3 : cbits c 15 13 = 4#3) (h12 : cbits c 12 12 = 0#1)
    (hrs2 : cRs2 c ≠ 0#5) : Expands P c (encodeR 0 (cRs2 c) (cRd c) 0b01100 0 0) := by
  intro pc snpc m e
  have hrs2' : cbits c 6 2 ≠ 0#5 := hrs2
  have hrow : tableRvc P (rvcWord c pc snpc m e) = .ok ⟨pc, snpc, c.setWidth 32, .c_mv,
      decodeOpR (cRd c) false, decodeOpR (cRs2 c) true, decodeOpR 0 true⟩ := by
    simp [tableRvc, tableRvcQ2, tableRvcQ2Misc, decodeCMov, rvcWord_bits, hq, h3, h12, hrs2']
    rfl
  have ho : ∀ f : Fetched, f.instr = encodeR 0 (cRs2 c) (cRd c) 0b01100 0 0 →
      opOp f = some .add := by
    intro f h
    simp [opOp, (encodeR_fields h).funct7, (encodeR_fields h).funct3]
  refine ⟨_, hrow, .of_row (fun x => row_op rfl (ho _ rfl) (by decide)) hshare hg rfl rfl rfl
    fun s h0 hs => ?_⟩
  have hzero : IntOp.add.value (s.gpr 0) (s.gpr (cRs2 c)) = s.gpr (cRs2 c) := by
    rw [h0]
    exact BitVec.zero_add _
  rw [hzero, ← hs]
  exact SetsReg.reaches (setsReg_mv rfl rfl rfl)

theorem expands_add (hshare : P.share = true) (hg : P.guidedExec = false)
    (hq : cbits c 1 0 = 2#2) (h3 : cbits c 15 13 = 4#3) (h12 : cbits c 12 12 ≠ 0#1)
    (hrs2 : cRs2 c ≠ 0#5) : Expands P c (encodeR (cRd c) (cRs2 c) (cRd c) 0b01100 0 0) := by
  intro pc snpc m e
  have hrs2' : cbits c 6 2 ≠ 0#5 := hrs2
  have hrow : tableRvc P (rvcWord c pc snpc m e) = .ok ⟨pc, snpc, c.setWidth 32,
      .compressedReg .add, decodeOpR (cRd c) false, decodeOpR (cRd c) true,
      decodeOpR (cRs2 c) true⟩ := by
    simp [tableRvc, tableRvcQ2, tableRvcQ2Misc, decodeCAdd, rvcWord_bits, hq, h3, h12, hrs2']
    rfl
  have ho : ∀ f : Fetched, f.instr = encodeR (cRd c) (cRs2 c) (cRd c) 0b01100 0 0 →
      opOp f = some .add := by
    intro f h
    simp [opOp, (encodeR_fields h).funct7, (encodeR_fields h).funct3]
  refine ⟨_, hrow, .of_row (fun x => row_op rfl (ho _ rfl) (by decide)) hshare hg rfl rfl rfl
    fun s _ hs => ?_⟩
  rw [← hs]
  exact SetsReg.reaches (setsReg_compressedReg (a := .add) rfl rfl rfl)

/-- C.JALR runs `jalr` when its operand is the link register, and `c_jalr` otherwise. -/
theorem expands_jalr (hshare : P.share = true) (hg : P.guidedExec = false)
    (hq : cbits c 1 0 = 2#2) (h3 : cbits c 15 13 = 4#3) (h12 : cbits c 12 12 ≠ 0#1)
    (hrs2 : cRs2 c = 0#5) (hrd : cRd c ≠ 0#5) :
    Expands P c (encodeI (cRd c) 1 0b11001 0 0) := by
  intro pc snpc m e
  have hrs2' : cbits c 6 2 = 0#5 := hrs2
  have hrd' : cbits c 11 7 ≠ 0#5 := hrd
  have hrow : tableRvc P (rvcWord c pc snpc m e) = .ok ⟨pc, snpc, c.setWidth 32,
      if cRd c = 1#5 then .jalr else .c_jalr, decodeOpR 1 false, decodeOpR (cRd c) true,
      decodeOpI 0⟩ := by
    by_cases h1 : cbits c 11 7 = 1#5
    · simp [tableRvc, tableRvcQ2, tableRvcQ2Misc, decodeCJalr, rvcWord_bits, hq, h3, h12, hrs2', h1,
        cRd]
      rfl
    · simp [tableRvc, tableRvcQ2, tableRvcQ2Misc, decodeCJalr, rvcWord_bits, hq, h3, h12, hrs2', h1,
        hrd', cRd]
      rfl
  refine ⟨_, hrow, .of_row (fun x => row_jalr rfl) hshare hg rfl rfl ?_ fun s _ _ => ?_⟩
  · dsimp only
    split
    all_goals rfl
  · split
    · have hreach : Reaches P ⟨pc, snpc, c.setWidth 32, .jalr, decodeOpR 1 false,
          decodeOpR (cRd c) true, decodeOpI 0⟩ s (Regs.set s.gpr 1 (linkValue P s snpc))
          ((s.gpr (cRd c) + 0) &&& ~~~1) := .of_link hg rfl rfl
      rw [linkValue_plain hg] at hreach
      exact hreach
    · rw [jump_imm_zero]
      have hjump : ∀ t, rtlJ P (if P.share then s.gpr (cRd c) &&& ~~~1 else t.gpr (cRd c)) t =
          .ok () { t with pc := s.gpr (cRd c) &&& ~~~1 } := by
        intro t
        rw [if_pos hshare, rtlJ_run hg]
      exact ⟨s.zeroNull, hjump _⟩

theorem expandJumpMove_expands (hshare : P.share = true) (hg : P.guidedExec = false)
    (hq : cbits c 1 0 = 2#2) (h3 : cbits c 15 13 = 4#3) (h : expandJumpMove c = some w) :
    Expands P c w := by
  unfold expandJumpMove at h
  split at h
  · next h12 =>
    split at h
    · next hrs2 =>
      split at h
      · cases h
      · next hrd =>
        cases h
        exact expands_jr hshare hg hq h3 h12 hrs2 hrd
    · next hrs2 =>
      cases h
      exact expands_mv hshare hg hq h3 h12 hrs2
  · next h12 =>
    split at h
    · next hrs2 =>
      split at h
      · cases h
      · next hrd =>
        cases h
        exact expands_jalr hshare hg hq h3 h12 hrs2 hrd
    · next hrs2 =>
      cases h
      exact expands_add hshare hg hq h3 h12 hrs2

theorem expandQ2_expands (hshare : P.share = true) (hg : P.guidedExec = false)
    (hq : cbits c 1 0 = 2#2) (h : expandQ2 c = some w) : Expands P c w := by
  unfold expandQ2 at h
  split at h
  · next h3 =>
    cases h
    exact expands_slli hshare hg hq (BitVec.eq_of_toNat_eq h3)
  · next h3 =>
    split at h
    · cases h
    · next hrd =>
      cases h
      exact expands_lwsp hq (BitVec.eq_of_toNat_eq h3) hrd
  · next h3 =>
    split at h
    · cases h
    · next hrd =>
      cases h
      exact expands_ldsp hq (BitVec.eq_of_toNat_eq h3) hrd
  · next h3 => exact expandJumpMove_expands hshare hg hq (BitVec.eq_of_toNat_eq h3) h
  · next h3 =>
    cases h
    exact expands_swsp hq (BitVec.eq_of_toNat_eq h3)
  · next h3 =>
    cases h
    exact expands_sdsp hq (BitVec.eq_of_toNat_eq h3)
  · cases h

end Quadrant2

/-- Every compressed instruction decodes to what a guest cannot tell from its expansion. -/
theorem expandRvc_expands (hshare : P.share = true) (hg : P.guidedExec = false)
    (h : expandRvc c = some w) : Expands P c w := by
  unfold expandRvc at h
  split at h
  · next hq => exact expandQ0_expands hshare hg (BitVec.eq_of_toNat_eq hq) h
  · next hq => exact expandQ1_expands hshare hg (BitVec.eq_of_toNat_eq hq) h
  · next hq => exact expandQ2_expands hshare hg (BitVec.eq_of_toNat_eq hq) h
  · cases h

/-- What `isa_fetch_decode` and `execute` do with an instruction that `table_rvc` or `table_main`
has decoded. -/
def runDecoded (P : Platform) (d : Decode) : Exec Unit := do
  modify fun s => { s with prevType := d.id.cfiType, prevIsCfi := d.id.cfiType ≠ .none }
  let _ ← executeDecoded P d
  pure ()

/-- The compressed instruction `c` at the current pc, decoded and executed. -/
def runRvc (P : Platform) (c : BitVec 16) : Exec Unit := do
  let s ← get
  let d ← liftDecode (tableRvc P (s.fetched s.pc (s.pc + 2) (c.setWidth 32)))
  runDecoded P d

/-- The 32-bit instruction `w` at the current pc, followed by an instruction at pc + 2. -/
def runExpanded (P : Platform) (w : BitVec 32) : Exec Unit := do
  let s ← get
  runDecoded P (tableMain P (s.fetched s.pc (s.pc + 2) w))

section Run

variable {d d' : Decode} {s : Machine}

/-- The state in which `runDecoded` calls the executor. -/
def Machine.entered (s : Machine) (d : Decode) : Machine :=
  { s with
    prevType := d.id.cfiType
    prevIsCfi := d.id.cfiType ≠ .none
    currentPc := d.pc
    prevPc := s.pc
    pc := d.snpc }

theorem runDecoded_run (P : Platform) (d : Decode) (s : Machine) :
    runDecoded P d s = match exec P d (s.entered d) with
      | .ok _ t => .ok () (t.ticked P)
      | .error e t => .error e t := by
  have hstart : runDecoded P d s = (executeDecoded P d >>= fun _ => pure ())
      { s with prevType := d.id.cfiType, prevIsCfi := d.id.cfiType ≠ .none } := rfl
  rw [hstart]
  cases h : exec P d (s.entered d) with
  | ok a t => exact bind_ok (executeDecoded_run h)
  | error e t => exact bind_error (executeDecoded_stop h)

theorem eraseNull_ticked (P : Platform) (s : Machine) :
    (s.ticked P).eraseNull = s.eraseNull.ticked P := by
  unfold Machine.ticked utimerTick
  simp only [apply_ite Machine.eraseNull]
  rfl

theorem Alike.runDecoded_eq (h : Alike P d d') (h0 : s.gpr 0 = 0) :
    observe (runDecoded P d s) = observe (runDecoded P d' s) := by
  have hentered : s.entered d' = s.entered d := by
    unfold Machine.entered
    rw [h.pc, h.snpc, h.cfiType]
  have hexec := h.run (s.entered d) h0 rfl
  rw [runDecoded_run, runDecoded_run, hentered]
  -- both end the same way, in states that differ at most in the slot for `x0`
  cases hd : exec P d (s.entered d) with
  | ok a t =>
    rw [hd] at hexec
    cases hd' : exec P d' (s.entered d) with
    | ok a' t' =>
      rw [hd'] at hexec
      injection hexec with _ hst
      simp only [observe, eraseNull_ticked, hst]
    | error e' t' =>
      rw [hd'] at hexec
      cases hexec
  | error e t =>
    rw [hd] at hexec
    cases hd' : exec P d' (s.entered d) with
    | ok a' t' =>
      rw [hd'] at hexec
      cases hexec
    | error e' t' =>
      rw [hd'] at hexec
      exact hexec

theorem runRvc_ok (h : tableRvc P (s.fetched s.pc (s.pc + 2) (c.setWidth 32)) = .ok d) :
    runRvc P c s = runDecoded P d s := by
  have hrun : runRvc P c s = (liftDecode (tableRvc P (s.fetched s.pc (s.pc + 2) (c.setWidth 32)))
      >>= fun d => runDecoded P d) s := rfl
  rw [hrun, h]
  rfl

theorem runRvc_error (h : tableRvc P (s.fetched s.pc (s.pc + 2) (c.setWidth 32)) = .error stop) :
    runRvc P c s = .error stop s := by
  have hrun : runRvc P c s = (liftDecode (tableRvc P (s.fetched s.pc (s.pc + 2) (c.setWidth 32)))
      >>= fun d => runDecoded P d) s := rfl
  rw [hrun, h]
  rfl

end Run

section Reserved

/-- How `table_rvc` turns down a reserved encoding: at once, or by the executor `inv`. -/
def TurnsDown (P : Platform) (f : Fetched) : Prop :=
  tableRvc P f = .error (.exception ⟨.II, none, .plain⟩) ∨ ∃ d, tableRvc P f = .ok d ∧ d.id = .inv

theorem reserved_turnsDown (hshare : P.share = true) (h : reservedRvc c = true)
    (pc snpc : Word) (m : MmuMode) (e : Bool) : TurnsDown P (rvcWord c pc snpc m e) := by
  unfold reservedRvc at h
  split at h
  · next hq h3 => -- C.ADDI4SPN
    have hq : cbits c 1 0 = 0#2 := BitVec.eq_of_toNat_eq hq
    have h3 : cbits c 15 13 = 0#3 := BitVec.eq_of_toNat_eq h3
    have hn : cbits c 12 5 = 0#8 := of_decide_eq_true h
    refine .inr ⟨decodeEmpty (rvcWord c pc snpc m e) .inv, ?_, rfl⟩
    simp [tableRvc, tableRvcQ0, rvcWord_bits, hq, h3, hn]
    rfl
  · next hq h3 => -- C.ADDIW
    have hq : cbits c 1 0 = 1#2 := BitVec.eq_of_toNat_eq hq
    have h3 : cbits c 15 13 = 1#3 := BitVec.eq_of_toNat_eq h3
    have hrd : cbits c 11 7 = 0#5 := of_decide_eq_true h
    refine .inr ⟨decodeCISimm (rvcWord c pc snpc m e) .inv, ?_, rfl⟩
    simp [tableRvc, tableRvcQ1, tableCAddiwDispatch, rvcWord_bits, hq, h3, hrd, hshare]
    rfl
  · next hq h3 => -- C.ADDI16SP and C.LUI
    have hq : cbits c 1 0 = 1#2 := BitVec.eq_of_toNat_eq hq
    have h3 : cbits c 15 13 = 3#3 := BitVec.eq_of_toNat_eq h3
    left
    split at h
    · next hrd =>
      have hrd' : cbits c 11 7 = 2#5 := hrd
      have hn : cImm16sp c = 0 := of_decide_eq_true h
      have hsp : tableRvc P (rvcWord c pc snpc m e) =
          decodeCAddi16sp P (rvcWord c pc snpc m e) := by
        simp [tableRvc, tableRvcQ1, rvcWord_bits, hq, h3, hrd']
      rw [hsp]
      unfold decodeCAddi16sp
      simp (disch := decide) only [rvcWord_bits]
      have hzero : (cImm16sp c).signExtend 64 = (0 : Word) := by
        rw [hn]
        rfl
      exact (if_pos hzero).trans (if_pos hshare)
    · next hrd =>
      have hrd' : cbits c 11 7 ≠ 2#5 := hrd
      have hn : cImm6 c = 0 := of_decide_eq_true h
      have hlui : tableRvc P (rvcWord c pc snpc m e) =
          decodeCISimmLui P (rvcWord c pc snpc m e) := by
        simp [tableRvc, tableRvcQ1, rvcWord_bits, hq, h3, hrd']
      rw [hlui]
      unfold decodeCISimmLui
      rw [imm6_rvc, hn]
      exact if_pos ⟨hshare, rfl⟩
  · next hq h3 => -- C.LWSP
    have hq : cbits c 1 0 = 2#2 := BitVec.eq_of_toNat_eq hq
    have h3 : cbits c 15 13 = 2#3 := BitVec.eq_of_toNat_eq h3
    have hrd : cbits c 11 7 = 0#5 := of_decide_eq_true h
    left
    simp [tableRvc, tableRvcQ2, decodeCLxSP, rvcWord_bits, hq, h3, hrd, hshare]
    rfl
  · next hq h3 => -- C.LDSP
    have hq : cbits c 1 0 = 2#2 := BitVec.eq_of_toNat_eq hq
    have h3 : cbits c 15 13 = 3#3 := BitVec.eq_of_toNat_eq h3
    have hrd : cbits c 11 7 = 0#5 := of_decide_eq_true h
    left
    simp [tableRvc, tableRvcQ2, decodeCLxSP, rvcWord_bits, hq, h3, hrd, hshare]
    rfl
  · next hq h3 => -- C.JR
    have hq : cbits c 1 0 = 2#2 := BitVec.eq_of_toNat_eq hq
    have h3 : cbits c 15 13 = 4#3 := BitVec.eq_of_toNat_eq h3
    simp only [Bool.and_eq_true, decide_eq_true_eq] at h
    have h12 : cbits c 12 12 = 0#1 := h.1.1
    have hrs2 : cbits c 6 2 = 0#5 := h.1.2
    have hrd : cbits c 11 7 = 0#5 := h.2
    left
    simp [tableRvc, tableRvcQ2, tableRvcQ2Misc, decodeCJR, rvcWord_bits, hq, h3, h12, hrs2, hrd,
      hshare]
    rfl
  · cases h

theorem TurnsDown.raises (hshare : P.share = true)
    (h : TurnsDown P (s.fetched s.pc (s.pc + 2) (c.setWidth 32))) :
    ∃ t, runRvc P c s = .error (.exception ⟨.II, none, .plain⟩) t := by
  obtain h | ⟨d, h, hid⟩ := h
  · exact ⟨s, runRvc_error h⟩
  · have hinv : exec P d = longjmpException .II := by
      unfold exec execInv
      rw [hid, hshare, Bool.not_true, Bool.and_false]
      rfl
    rw [runRvc_ok h, runDecoded_run, hinv]
    exact ⟨_, rfl⟩

end Reserved

/-- A compressed instruction does what its expansion does, and the reserved encodings are illegal
instructions. -/
theorem rvc_eq_expansion (hshare : P.share = true) (hg : P.guidedExec = false) (c : BitVec 16)
    (s : Machine) (h0 : s.gpr 0 = 0) :
    (∀ w, expandRvc c = some w → observe (runRvc P c s) = observe (runExpanded P w s)) ∧
      (reservedRvc c = true →
        ∃ t, runRvc P c s = .error (.exception ⟨.II, none, .plain⟩) t) := by
  constructor
  · intro w h
    obtain ⟨d, hd, halike⟩ := expandRvc_expands (P := P) hshare hg h s.pc (s.pc + 2) _ _
    rw [runRvc_ok hd, halike.runDecoded_eq h0]
    rfl
  · intro h
    exact (reserved_turnsDown hshare h _ _ _ _).raises hshare

/-- `c.mv a0, a1` stands for `add a0, x0, a1`, and the all-zero halfword is illegal. -/
theorem rvc_eq_expansion_mv :
    observe (runRvc (Platform.bare .unguided) 0x852e oddTarget) =
        observe (runExpanded (Platform.bare .unguided) 0x00b00533 oddTarget) ∧
      ∃ t, runRvc (Platform.bare .unguided) 0 oddTarget =
        .error (.exception ⟨.II, none, .plain⟩) t :=
  ⟨(rvc_eq_expansion rfl rfl 0x852e oddTarget rfl).1 _ rfl,
    (rvc_eq_expansion rfl rfl 0 oddTarget rfl).2 rfl⟩

end Nemu
