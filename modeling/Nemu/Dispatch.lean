import Nemu.Rv64i
import Nemu.Sandbox

namespace Nemu

open Effect

set_option autoImplicit true

variable {P : Platform} {f : Fetched} {s : Machine} {rd rs1 rs2 : BitVec 5} {o : IntOp} {v : Word}

/-- The AluOp of the executors for an operation on whole registers. -/
def IntOp.alu : IntOp → AluOp
  | add => .add
  | sub => .sub
  | sll => .shl
  | slt => .slt
  | sltu => .sltu
  | xor => .xor
  | srl => .shr
  | sra => .sar
  | or => .or
  | and => .and

section Values

theorem toNat_and_mask (b : Word) (k : Nat) (hk : k < 64) :
    (b &&& BitVec.ofNat 64 (2 ^ k - 1)).toNat = b.toNat % 2 ^ k := by
  rw [BitVec.toNat_and, BitVec.toNat_ofNat, Nat.mod_eq_of_lt (a := 2 ^ k - 1),
    Nat.and_two_pow_sub_one_eq_mod]
  have := Nat.pow_lt_pow_right (by decide : 1 < 2) hk
  omega

theorem shamt64 (b : Word) : (b &&& 0x3f).toNat = b.toNat % 64 := toNat_and_mask b 6 (by decide)

theorem shamt32 (b : Word) : (b &&& 0x1f).toNat = b.toNat % 32 := toNat_and_mask b 5 (by decide)

theorem aluValue_alu (o : IntOp) (a b : Word) : aluValue o.alu a b = o.value a b := by
  cases o with
  | sll => exact congrArg (a <<< ·) (shamt64 b)
  | srl => exact congrArg (a >>> ·) (shamt64 b)
  | sra => exact congrArg (a.sshiftRight ·) (shamt64 b)
  | slt =>
    change (if a.slt b then 1 else 0) = if a.toInt < b.toInt then 1 else 0
    simp only [BitVec.slt_iff_toInt_lt]
  | _ => rfl

/-- The AluOp of the executors for an operation on the low halves. -/
def IntOp.aluW : IntOp → AluOp
  | sub => .subw
  | sll => .shlw
  | srl => .shrw
  | sra => .sarw
  | _ => .addw

/-- The operations that have a form on the low halves. -/
def IntOp.hasW : IntOp → Bool
  | add | sub | sll | srl | sra => true
  | _ => false

theorem extract_low (a : Word) : a.extractLsb' 0 32 = a.setWidth 32 := by
  rw [BitVec.setWidth_eq_extractLsb' (by decide)]

theorem low_mod (b : Word) : (b.setWidth 32).toNat % 32 = b.toNat % 32 := by
  rw [BitVec.toNat_setWidth]
  omega

theorem aluValue_aluW (h : o.hasW = true) (a b : Word) :
    aluValue o.aluW a b = o.valueW (a.setWidth 32) (b.setWidth 32) := by
  cases o with
  | add =>
    change (BitVec.extractLsb' 0 32 (a + b)).signExtend 64 = _
    rw [extract_low, BitVec.setWidth_add _ _ (by decide)]
    rfl
  | sub =>
    change (BitVec.extractLsb' 0 32 (a - b)).signExtend 64 = _
    rw [extract_low, BitVec.sub_eq_add_neg, BitVec.setWidth_add _ _ (by decide),
      BitVec.setWidth_neg_of_le (by decide), ← BitVec.sub_eq_add_neg]
    rfl
  | sll =>
    change (BitVec.extractLsb' 0 32 a <<< (b &&& 0x1f).toNat).signExtend 64 = _
    rw [extract_low, shamt32, ← low_mod]
    rfl
  | srl =>
    change (BitVec.extractLsb' 0 32 a >>> (b &&& 0x1f).toNat).signExtend 64 = _
    rw [extract_low, shamt32, ← low_mod]
    rfl
  | sra =>
    change ((BitVec.extractLsb' 0 32 a).sshiftRight (b &&& 0x1f).toNat).signExtend 64 = _
    rw [extract_low, shamt32, ← low_mod]
    rfl
  | slt | sltu | xor | or | and => cases h

def Cond.relop : Cond → RelOp
  | eq => .EQ
  | ne => .NE
  | lt => .LT
  | ge => .GE
  | ltu => .LTU
  | geu => .GEU

theorem interpretRelop_relop (c : Cond) (a b : Word) :
    interpretRelop c.relop a b = c.holds a b := by
  cases c with
  | lt => exact BitVec.slt_eq_decide
  | ge => exact BitVec.sle_eq_decide
  | _ => rfl

end Values

section Executors

/-- The executor ends with `v` in `x[rd]`, and changes nothing else but the slot for `x0`. -/
def SetsReg (P : Platform) (d : Decode) (s : Machine) (rd : BitVec 5) (v : Word) : Prop :=
  ∃ z, exec P d s = .ok () { s with gpr := Regs.set s.gpr rd v, zeroNull := z }

theorem writeLoc_dest (s : Machine) (rd : BitVec 5) (v : Word) :
    ∃ z, s.writeLoc (decodeOpR rd false).preg v =
      { s with gpr := Regs.set s.gpr rd v, zeroNull := z } := by
  unfold decodeOpR Regs.set
  by_cases hrd : rd = 0
  · simp only [hrd, Bool.not_false, Bool.true_and, decide_true, ↓reduceIte]
    exact ⟨v, rfl⟩
  · simp only [hrd, Bool.not_false, Bool.true_and, decide_false, Bool.false_eq_true, ↓reduceIte]
    exact ⟨s.zeroNull, rfl⟩

theorem SetsReg.of_write (hd : d.dest = decodeOpR rd false)
    (h : exec P d s = .ok () (s.writeLoc d.dest.preg u)) (hv : rd ≠ 0 → u = v) :
    SetsReg P d s rd v := by
  obtain ⟨z, hz⟩ := writeLoc_dest s rd u
  rw [hd, hz] at h
  refine ⟨z, h.trans ?_⟩
  unfold Regs.set
  by_cases hrd : rd = 0
  · rw [if_pos hrd, if_pos hrd]
  · rw [hv hrd]

theorem readLoc_dest (hrd : rd ≠ 0) : s.readLoc (decodeOpR rd false).preg = s.gpr rd := by
  unfold decodeOpR
  simp only [hrd, Bool.not_false, Bool.true_and, decide_false, Bool.false_eq_true, ↓reduceIte]
  rfl

section

variable {d : Decode} {a : AluOp}

theorem setsReg_computeImm (hid : d.id = .computeImm a) (hd : d.dest = decodeOpR rd false)
    (h1 : d.src1 = decodeOpR rs1 true) :
    SetsReg P d s rd (aluValue a (s.gpr rs1) d.src2.imm) := by
  refine .of_write hd ?_ fun _ => rfl
  unfold exec
  rw [hid, h1]
  rfl

theorem setsReg_computeReg (hid : d.id = .computeReg a) (hd : d.dest = decodeOpR rd false)
    (h1 : d.src1 = decodeOpR rs1 true) (h2 : d.src2 = decodeOpR rs2 true) :
    SetsReg P d s rd (aluValue a (s.gpr rs1) (s.gpr rs2)) := by
  refine .of_write hd ?_ fun _ => rfl
  unfold exec
  rw [hid, h1, h2]
  rfl

theorem setsReg_compressedImm (hid : d.id = .compressedImm a) (hd : d.dest = decodeOpR rd false) :
    SetsReg P d s rd (aluValue a (s.gpr rd) d.src2.imm) := by
  refine .of_write (u := aluValue a (s.readLoc d.dest.preg) d.src2.imm) hd ?_ fun hrd => ?_
  · unfold exec
    rw [hid]
    rfl
  · rw [hd, readLoc_dest hrd]

theorem setsReg_compressedReg (hid : d.id = .compressedReg a) (hd : d.dest = decodeOpR rd false)
    (h2 : d.src2 = decodeOpR rs2 true) :
    SetsReg P d s rd (aluValue a (s.gpr rd) (s.gpr rs2)) := by
  refine .of_write (u := aluValue a (s.readLoc d.dest.preg) (s.gpr rs2)) hd ?_ fun hrd => ?_
  · unfold exec
    rw [hid, h2]
    rfl
  · rw [hd, readLoc_dest hrd]

theorem setsReg_mv (hid : d.id = .c_mv) (hd : d.dest = decodeOpR rd false)
    (h1 : d.src1 = decodeOpR rs1 true) : SetsReg P d s rd (s.gpr rs1) := by
  refine .of_write hd ?_ fun _ => rfl
  unfold exec
  rw [hid, h1]
  rfl

/-- `p_inc` and `p_dec` add the immediate 1 or -1 to the destination. -/
theorem setsReg_cAddiDispatch (hid : d.id = tableCAddiDispatch d.src2.imm)
    (hd : d.dest = decodeOpR rd false) : SetsReg P d s rd (s.gpr rd + d.src2.imm) := by
  unfold tableCAddiDispatch at hid
  split at hid
  · next himm =>
    refine .of_write (u := s.readLoc d.dest.preg + 1) hd ?_ fun hrd => ?_
    · unfold exec
      rw [hid]
      rfl
    · rw [hd, readLoc_dest hrd, himm]
  · split at hid
    · next himm =>
      refine .of_write (u := s.readLoc d.dest.preg - 1) hd ?_ fun hrd => ?_
      · unfold exec
        rw [hid]
        rfl
      · rw [hd, readLoc_dest hrd, himm, BitVec.sub_eq_add_neg]
    · exact setsReg_compressedImm hid hd

theorem setsReg_li (hid : d.id = .p_li_0 ∧ d.src2.imm = 0 ∨ d.id = .p_li_1 ∧ d.src2.imm = 1 ∨
    d.id = .c_li) (hd : d.dest = decodeOpR rd false) : SetsReg P d s rd d.src2.imm := by
  refine .of_write hd ?_ fun _ => rfl
  unfold exec
  obtain ⟨hid, himm⟩ | ⟨hid, himm⟩ | hid := hid
  · rw [hid, himm]
    rfl
  · rw [hid, himm]
    rfl
  · rw [hid]
    rfl

end

theorem exec_addiDispatch (h0 : s.gpr 0 = 0) :
    SetsReg P (decodeI f (tableAddiDispatch f)) s f.rd (s.gpr f.rs1 + f.immI) := by
  have hli : f.rs1 = 0 → s.gpr f.rs1 + f.immI = f.immI := by
    intro h
    rw [h, h0]
    exact BitVec.zero_add _
  unfold tableAddiDispatch
  split
  · next h =>
    rw [hli h.2]
    exact setsReg_li (.inl ⟨rfl, congrArg (BitVec.signExtend 64) h.1⟩) rfl
  · split
    · next h =>
      rw [hli h.2]
      exact setsReg_li (.inr (.inl ⟨rfl, congrArg (BitVec.signExtend 64) h.1⟩)) rfl
    · split
      · next h =>
        rw [hli h]
        exact setsReg_li (.inr (.inr rfl)) rfl
      · split
        · next h =>
          have himm : f.immI = 0 := congrArg (BitVec.signExtend 64) h
          have hadd : s.gpr f.rs1 + 0 = s.gpr f.rs1 := BitVec.add_zero _
          rw [himm, hadd]
          exact setsReg_mv rfl rfl rfl
        · have h : SetsReg P (decodeI f (.computeImm .add)) s f.rd
            (aluValue .add (s.gpr f.rs1) f.immI) := setsReg_computeImm rfl rfl rfl
          exact h

end Executors

section Selection

theorem bitVec3_cases (x : BitVec 3) :
    x = 0 ∨ x = 1 ∨ x = 2 ∨ x = 3 ∨ x = 4 ∨ x = 5 ∨ x = 6 ∨ x = 7 := by
  revert x
  decide

theorem tableOpImm_selects (ho : opImmOp f = some o) :
    tableOpImm P f = .computeImm o.alu ∨
      (f.rd = f.rs1 ∧ tableOpImm P f = .compressedImm o.alu) ∨
      (o = .add ∧ f.rd = f.rs1 ∧ tableOpImm P f = tableCAddiDispatch f.immI) ∨
      (o = .add ∧ tableOpImm P f = tableAddiDispatch f) := by
  unfold opImmOp at ho
  rcases bitVec3_cases f.funct3 with h | h | h | h | h | h | h | h
  all_goals
    rw [h] at ho
    simp only [tableOpImm, h]
    simp at ho ⊢
  all_goals grind [IntOp.alu]

theorem exec_opImm (h0 : s.gpr 0 = 0) (ho : opImmOp f = some o) :
    SetsReg P (decodeI f (tableOpImm P f)) s f.rd (o.value (s.gpr f.rs1) f.immI) := by
  obtain h | ⟨hsame, h⟩ | ⟨rfl, hsame, h⟩ | ⟨rfl, h⟩ := tableOpImm_selects (P := P) ho
  · rw [h, ← aluValue_alu]
    exact setsReg_computeImm rfl rfl rfl
  · rw [h, ← aluValue_alu]
    rw [← hsame]
    exact setsReg_compressedImm rfl rfl
  · rw [h]
    rw [← hsame]
    exact setsReg_cAddiDispatch rfl rfl
  · rw [h]
    exact exec_addiDispatch h0

theorem opImm32Op_hasW (ho : opImm32Op f = some o) : o.hasW = true := by
  unfold opImm32Op at ho
  grind [IntOp.hasW]

theorem tableOpImm32_selects (ho : opImm32Op f = some o) :
    tableOpImm32 P f = .computeImm o.aluW ∨
      (f.rd = f.rs1 ∧ tableOpImm32 P f = .compressedImm o.aluW) ∨
      (o = .add ∧ f.bits 31 20 = 0 ∧ tableOpImm32 P f = .p_sext_w) := by
  unfold opImm32Op at ho
  rcases bitVec3_cases f.funct3 with h | h | h | h | h | h | h | h
  all_goals
    rw [h] at ho
    simp only [tableOpImm32, h]
    simp at ho ⊢
  all_goals grind [IntOp.aluW]

theorem exec_opImm32 (ho : opImm32Op f = some o) :
    SetsReg P (decodeI f (tableOpImm32 P f)) s f.rd
      (o.valueW ((s.gpr f.rs1).setWidth 32) (f.immI.setWidth 32)) := by
  rw [← aluValue_aluW (opImm32Op_hasW ho)]
  obtain h | ⟨hsame, h⟩ | ⟨rfl, himm, h⟩ := tableOpImm32_selects (P := P) ho
  · rw [h]
    exact setsReg_computeImm rfl rfl rfl
  · rw [h]
    rw [← hsame]
    exact setsReg_compressedImm rfl rfl
  · rw [h]
    refine .of_write (u := aluValue .addw (s.gpr f.rs1) 0) rfl rfl fun _ => ?_
    rw [Fetched.immI, himm]
    rfl

theorem tableOp_selects (ho : opOp f = some o) :
    tableOp P f = .computeReg o.alu ∨
      (f.rd = f.rs1 ∧ tableOp P f = .compressedReg o.alu) := by
  unfold opOp at ho
  rcases bitVec3_cases f.funct3 with h | h | h | h | h | h | h | h
  all_goals
    rw [h] at ho
    simp only [tableOp, h]
    simp at ho ⊢
  all_goals grind [IntOp.alu]

theorem exec_op (ho : opOp f = some o) :
    SetsReg P (decodeR f (tableOp P f)) s f.rd (o.value (s.gpr f.rs1) (s.gpr f.rs2)) := by
  rw [← aluValue_alu]
  obtain h | ⟨hsame, h⟩ := tableOp_selects (P := P) ho
  · rw [h]
    exact setsReg_computeReg rfl rfl rfl rfl
  · rw [h]
    rw [← hsame]
    exact setsReg_compressedReg rfl rfl rfl

theorem op32Op_hasW (ho : op32Op f = some o) : o.hasW = true := by
  unfold op32Op at ho
  grind [IntOp.hasW]

theorem tableOp32_selects (ho : op32Op f = some o) :
    tableOp32 P f = .computeReg o.aluW ∨
      (f.rd = f.rs1 ∧ tableOp32 P f = .compressedReg o.aluW) := by
  unfold op32Op at ho
  rcases bitVec3_cases f.funct3 with h | h | h | h | h | h | h | h
  all_goals
    rw [h] at ho
    simp only [tableOp32, h]
    simp at ho ⊢
  all_goals grind [IntOp.aluW]

theorem exec_op32 (ho : op32Op f = some o) :
    SetsReg P (decodeR f (tableOp32 P f)) s f.rd
      (o.valueW ((s.gpr f.rs1).setWidth 32) ((s.gpr f.rs2).setWidth 32)) := by
  rw [← aluValue_aluW (op32Op_hasW ho)]
  obtain h | ⟨hsame, h⟩ := tableOp32_selects (P := P) ho
  · rw [h]
    exact setsReg_computeReg rfl rfl rfl rfl
  · rw [h]
    rw [← hsame]
    exact setsReg_compressedReg rfl rfl rfl

end Selection

section ControlFlow

/-- The executor ends with the registers `x` and the next pc `pc`, and changes nothing else but the
slot for `x0`. -/
def Reaches (P : Platform) (d : Decode) (s : Machine) (x : Regs) (pc : Word) : Prop :=
  ∃ z, exec P d s = .ok () { s with gpr := x, pc := pc, zeroNull := z }

theorem SetsReg.reaches (h : SetsReg P d s rd v) : Reaches P d s (Regs.set s.gpr rd v) s.pc := h

theorem rtlJ_run (hg : P.guidedExec = false) (target : Word) (s : Machine) :
    rtlJ P target s = .ok () { s with pc := target } := by
  unfold rtlJ
  simp only [hg, Bool.false_eq_true, false_and, ↓reduceIte]
  rfl

theorem tableBranch_selects {c : Cond} (hc : branchCond f = some c) :
    tableBranch f = .branch c.relop ∨
      (f.rs2 = 0 ∧ ((c = .eq ∧ tableBranch f = .c_beqz) ∨ (c = .ne ∧ tableBranch f = .c_bnez) ∨
        (c = .lt ∧ tableBranch f = .p_bltz) ∨ (c = .ge ∧ tableBranch f = .p_bgez))) ∨
      (f.rs1 = 0 ∧ ((c = .lt ∧ tableBranch f = .p_bgtz) ∨
        (c = .ge ∧ tableBranch f = .p_blez))) := by
  unfold branchCond at hc
  rcases bitVec3_cases f.funct3 with h | h | h | h | h | h | h | h
  all_goals
    rw [h] at hc
    simp only [tableBranch, h]
    simp at hc ⊢
  all_goals grind [Cond.relop]

/-- Every executor of a branch compares the same two values: the missing operand is `x0`. -/
theorem exec_branch_relop {c : Cond} (h0 : s.gpr 0 = 0) (hc : branchCond f = some c) :
    exec P (decodeB f (tableBranch f)) s =
      rtlJrelop P (decodeB f (tableBranch f)) c.relop (s.gpr f.rs1) (s.gpr f.rs2) s := by
  obtain h | ⟨hz, h⟩ | ⟨hz, h⟩ := tableBranch_selects hc
  · rw [h]
    rfl
  · rw [hz, h0]
    obtain ⟨rfl, h⟩ | ⟨rfl, h⟩ | ⟨rfl, h⟩ | ⟨rfl, h⟩ := h
    all_goals
      rw [h]
      rfl
  · rw [hz, h0]
    obtain ⟨rfl, h⟩ | ⟨rfl, h⟩ := h
    all_goals
      rw [h]
      rfl

theorem exec_branch {c : Cond} (hg : P.guidedExec = false) (h0 : s.gpr 0 = 0)
    (hc : branchCond f = some c) :
    Reaches P (decodeB f (tableBranch f)) s s.gpr
      (if c.holds (s.gpr f.rs1) (s.gpr f.rs2) then f.pc + f.immB else f.snpc) := by
  refine ⟨s.zeroNull, ?_⟩
  rw [exec_branch_relop h0 hc]
  unfold rtlJrelop
  rw [rtlJ_run hg, interpretRelop_relop]
  rfl

theorem Reaches.of_link (hg : P.guidedExec = false) (hd : d.dest = decodeOpR rd false)
    (h : exec P d s = rtlJ P target (s.writeLoc d.dest.preg v)) :
    Reaches P d s (Regs.set s.gpr rd v) target := by
  obtain ⟨z, hz⟩ := writeLoc_dest s rd v
  rw [rtlJ_run hg, hd, hz] at h
  exact ⟨z, h⟩

theorem Regs.set_zero (x : Regs) (v : Word) : Regs.set x 0 v = x := if_pos rfl

theorem exec_jal (hg : P.guidedExec = false) :
    Reaches P (decodeJ f (tableJalDispatch f)) s (Regs.set s.gpr f.rd f.snpc)
      (f.pc + f.immJ) := by
  unfold tableJalDispatch
  split
  · next hrd =>
    rw [hrd, Regs.set_zero]
    exact ⟨s.zeroNull, rtlJ_run hg _ s⟩
  · split
    · next hrd =>
      rw [hrd]
      exact ⟨s.zeroNull, rtlJ_run hg _ _⟩
    · exact .of_link hg rfl rfl

theorem linkValue_plain (hg : P.guidedExec = false) (s : Machine) (snpc : Word) :
    linkValue P s snpc = snpc := by
  unfold linkValue
  rw [hg, if_neg]
  rintro ⟨h, -⟩
  cases h

theorem exec_jalr (hshare : P.share = true) (hg : P.guidedExec = false) (h3 : f.funct3 = 0) :
    Reaches P (decodeI f (tableJalrDispatch f)) s (Regs.set s.gpr f.rd f.snpc)
      ((s.gpr f.rs1 + f.immI) &&& ~~~1) := by
  have himm : f.bits 31 20 = 0 → s.gpr f.rs1 + f.immI = s.gpr f.rs1 := by
    intro h
    rw [Fetched.immI, h]
    exact BitVec.add_zero _
  unfold tableJalrDispatch
  split
  · next h =>
    rw [himm h.1, h.2.1, h.2.2, Regs.set_zero]
    refine ⟨s.zeroNull, ?_⟩
    have hrun : exec P (decodeI f .p_ret) s = rtlJ P (jumpTarget P (s.gpr 1)) s := rfl
    rw [hrun, rtlJ_run hg, jumpTarget, if_pos hshare]
  · split
    · next h =>
      rw [himm h.1, h.2, Regs.set_zero]
      refine ⟨s.zeroNull, ?_⟩
      have hrun : exec P (decodeI f .c_jr) s = rtlJ P (jumpTarget P (s.gpr f.rs1)) s := rfl
      rw [hrun, rtlJ_run hg, jumpTarget, if_pos hshare]
    · rw [← linkValue_plain hg s f.snpc]
      exact .of_link hg rfl rfl

/-- The rows of `table_main` for the instructions of `rv64iStep`, with the kind of control
flow the decoder records and what the instructions do. -/
inductive Row (P : Platform) (f : Fetched) (x : Regs) : CfiType → Regs → Word → Prop where
  | opImm : opImmOp f = some k → tableMain P f = decodeI f (tableOpImm P f) →
      Row P f x .none (x.set f.rd (k.value (x f.rs1) f.immI)) f.snpc
  | opImm32 : opImm32Op f = some k → tableMain P f = decodeI f (tableOpImm32 P f) →
      Row P f x .none (x.set f.rd (k.valueW ((x f.rs1).setWidth 32) (f.immI.setWidth 32))) f.snpc
  | op : opOp f = some k → tableMain P f = decodeR f (tableOp P f) →
      Row P f x .none (x.set f.rd (k.value (x f.rs1) (x f.rs2))) f.snpc
  | op32 : op32Op f = some k → tableMain P f = decodeR f (tableOp32 P f) →
      Row P f x .none (x.set f.rd (k.valueW ((x f.rs1).setWidth 32) ((x f.rs2).setWidth 32))) f.snpc
  | branch : branchCond f = some c → tableMain P f = decodeB f (tableBranch f) →
      Row P f x .branch x (if c.holds (x f.rs1) (x f.rs2) then f.pc + f.immB else f.snpc)
  | jal : tableMain P f = decodeJ f (tableJalDispatch f) →
      Row P f x .jump (x.set f.rd f.snpc) (f.pc + f.immJ)
  | jalr : f.funct3 = 0 → tableMain P f = decodeI f (tableJalrDispatch f) →
      Row P f x .jump (x.set f.rd f.snpc) ((x f.rs1 + f.immI) &&& ~~~1)

theorem row_of_step (hstep : rv64iStep f x = some (y, pc)) : ∃ k, Row P f x k y pc := by
  unfold rv64iStep at hstep
  split at hstep
  · next h =>
    have hop : f.opcode = 0b00100 := BitVec.eq_of_toNat_eq h
    obtain ⟨o, ho, hx⟩ := Option.bind_eq_some_iff.mp hstep
    cases hx
    exact ⟨_, .opImm ho (by simp [tableMain, hop])⟩
  · next h =>
    have hop : f.opcode = 0b00110 := BitVec.eq_of_toNat_eq h
    obtain ⟨o, ho, hx⟩ := Option.bind_eq_some_iff.mp hstep
    cases hx
    exact ⟨_, .opImm32 ho (by simp [tableMain, hop])⟩
  · next h =>
    have hop : f.opcode = 0b01100 := BitVec.eq_of_toNat_eq h
    obtain ⟨o, ho, hx⟩ := Option.bind_eq_some_iff.mp hstep
    have h7 : f.funct7 ≠ 1#7 := by
      intro h7
      simp [opOp, h7] at ho
    cases hx
    exact ⟨_, .op ho (by simp [tableMain, hop, h7])⟩
  · next h =>
    have hop : f.opcode = 0b01110 := BitVec.eq_of_toNat_eq h
    obtain ⟨o, ho, hx⟩ := Option.bind_eq_some_iff.mp hstep
    have h7 : f.funct7 ≠ 1#7 := by
      intro h7
      simp [op32Op, h7] at ho
    cases hx
    exact ⟨_, .op32 ho (by simp [tableMain, hop, h7])⟩
  · next h =>
    have hop : f.opcode = 0b11000 := BitVec.eq_of_toNat_eq h
    obtain ⟨c, hc, hx⟩ := Option.bind_eq_some_iff.mp hstep
    cases hx
    exact ⟨_, .branch hc (by simp [tableMain, hop])⟩
  · next h =>
    have hop : f.opcode = 0b11011 := BitVec.eq_of_toNat_eq h
    cases hstep
    exact ⟨_, .jal (by simp [tableMain, hop])⟩
  · next h =>
    have hop : f.opcode = 0b11001 := BitVec.eq_of_toNat_eq h
    split at hstep
    · next h3 =>
      cases hstep
      exact ⟨_, .jalr h3 (by simp [tableMain, hop, h3])⟩
    · cases hstep
  · cases hstep

theorem tableCAddiDispatch_cfiType (imm : Word) : (tableCAddiDispatch imm).cfiType = .none := by
  unfold tableCAddiDispatch
  repeat' split
  all_goals rfl

theorem Row.cfiType_eq (h : Row P f x k y pc) : (tableMain P f).id.cfiType = k := by
  cases h with
  | opImm ho hmain =>
    rw [hmain]
    obtain h | ⟨_, h⟩ | ⟨_, _, h⟩ | ⟨_, h⟩ := tableOpImm_selects (P := P) ho
    · exact congrArg ExecId.cfiType h
    · exact congrArg ExecId.cfiType h
    · exact (congrArg ExecId.cfiType h).trans (tableCAddiDispatch_cfiType _)
    · refine (congrArg ExecId.cfiType h).trans ?_
      unfold tableAddiDispatch
      repeat' split
      all_goals rfl
  | opImm32 ho hmain =>
    rw [hmain]
    obtain h | ⟨_, h⟩ | ⟨_, _, h⟩ := tableOpImm32_selects (P := P) ho
    all_goals exact congrArg ExecId.cfiType h
  | op ho hmain =>
    rw [hmain]
    obtain h | ⟨_, h⟩ := tableOp_selects (P := P) ho
    all_goals exact congrArg ExecId.cfiType h
  | op32 ho hmain =>
    rw [hmain]
    obtain h | ⟨_, h⟩ := tableOp32_selects (P := P) ho
    all_goals exact congrArg ExecId.cfiType h
  | branch hc hmain =>
    rw [hmain]
    obtain h | ⟨_, ⟨_, h⟩ | ⟨_, h⟩ | ⟨_, h⟩ | ⟨_, h⟩⟩ | ⟨_, ⟨_, h⟩ | ⟨_, h⟩⟩ :=
      tableBranch_selects hc
    all_goals exact congrArg ExecId.cfiType h
  | jal hmain =>
    rw [hmain]
    change (tableJalDispatch f).cfiType = _
    unfold tableJalDispatch
    repeat' split
    all_goals rfl
  | jalr h3 hmain =>
    rw [hmain]
    change (tableJalrDispatch f).cfiType = _
    unfold tableJalrDispatch
    rw [if_pos h3]
    repeat' split
    all_goals rfl

theorem Row.reaches (h : Row P f s.gpr k x pc) (hshare : P.share = true)
    (hg : P.guidedExec = false) (h0 : s.gpr 0 = 0) (hs : s.pc = f.snpc) :
    Reaches P (tableMain P f) s x pc := by
  cases h with
  | opImm ho hmain =>
    rw [hmain, ← hs]
    exact (exec_opImm h0 ho).reaches
  | opImm32 ho hmain =>
    rw [hmain, ← hs]
    exact (exec_opImm32 ho).reaches
  | op ho hmain =>
    rw [hmain, ← hs]
    exact (exec_op ho).reaches
  | op32 ho hmain =>
    rw [hmain, ← hs]
    exact (exec_op32 ho).reaches
  | branch hc hmain =>
    rw [hmain]
    exact exec_branch hg h0 hc
  | jal hmain =>
    rw [hmain]
    exact exec_jal hg
  | jalr h3 hmain =>
    rw [hmain]
    exact exec_jalr hshare hg h3

end ControlFlow

/-- The instruction in `w` at the pc of `s`, as `isa_fetch_decode` hands it to `table_main`. -/
def Machine.word (s : Machine) (w : BitVec 32) : Fetched := s.fetched s.pc (s.pc + 4) w

theorem executeDecoded_run (h : exec P d (s.started d) = .ok () u) :
    executeDecoded P d s = .ok d (u.ticked P) := by
  have hstart : executeDecoded P d s =
      (exec P d >>= fun _ => modify (fun s => if P.rvn then utimerTick s else s) >>= fun _ =>
        pure d) (s.started d) := rfl
  rw [hstart, bind_ok h]
  rfl

theorem executeDecoded_stop (h : exec P d (s.started d) = .error e u) :
    executeDecoded P d s = .error e u := by
  have hstart : executeDecoded P d s =
      (exec P d >>= fun _ => modify (fun s => if P.rvn then utimerTick s else s) >>= fun _ =>
        pure d) (s.started d) := rfl
  rw [hstart, bind_error h]

theorem ticked_eq (s : Machine) (P : Platform) : ∃ csr, s.ticked P = { s with csr := csr } := by
  unfold Machine.ticked utimerTick
  split
  · split
    · exact ⟨_, rfl⟩
    · split
      · exact ⟨_, rfl⟩
      · exact ⟨_, rfl⟩
  · exact ⟨s.csr, rfl⟩

/-- The executor that the dispatch tables select for a word computes the registers and the next pc
that RV64I defines for it. -/
theorem dispatch_eq_rv64i (hshare : P.share = true) (hg : P.guidedExec = false)
    (h0 : s.gpr 0 = 0) (w : BitVec 32) (hstep : rv64iStep (s.word w) s.gpr = some (x, pc)) :
    ∃ t, executeDecoded P (tableMain P (s.word w)) s = .ok (tableMain P (s.word w)) t ∧
      t.gpr = x ∧ t.pc = pc ∧ t.fpr = s.fpr ∧ t.pmem = s.pmem := by
  have hplaced : Placed (s.word w) (tableMain P (s.word w)) := tableMain_placed
  obtain ⟨k, hrow⟩ := row_of_step (P := P) hstep
  have hreach : Reaches P (tableMain P (s.word w)) (s.started (tableMain P (s.word w))) x pc :=
    Row.reaches (s := s.started _) hrow hshare hg h0 hplaced.snpc
  obtain ⟨z, hz⟩ := hreach
  obtain ⟨csr, hcsr⟩ := ticked_eq
    { s.started (tableMain P (s.word w)) with gpr := x, pc := pc, zeroNull := z } P
  refine ⟨_, executeDecoded_run hz, ?_⟩
  rw [hcsr]
  exact ⟨rfl, rfl, rfl, rfl⟩

/-- A state in which `jalr t0, 3(t1)` has an odd target sum. -/
def oddTarget : Machine :=
  { Machine.reset (Platform.bare .unguided) (fun _ => 0) with
    gpr := fun r => if r = 6 then 0x80000002 else 0 }

/-- Bit 0 of the target is cleared. -/
theorem dispatch_eq_rv64i_odd_target :
    ∃ t, executeDecoded (Platform.bare .unguided)
        (tableMain (Platform.bare .unguided) (oddTarget.word 0x003302e7)) oddTarget =
        .ok (tableMain (Platform.bare .unguided) (oddTarget.word 0x003302e7)) t ∧
      t.gpr = Regs.set oddTarget.gpr 5 0x80100004 ∧ t.pc = 0x80000004 ∧
      t.fpr = oddTarget.fpr ∧ t.pmem = oddTarget.pmem :=
  dispatch_eq_rv64i rfl rfl rfl _ rfl

end Nemu
