import Nemu.AccessStops
import Nemu.CsrAtomic
import Nemu.Exceptions
import Nemu.Reset
import Nemu.Tcache

namespace Nemu

open Effect

set_option autoImplicit true

/-- The 12 bits that name a CSR or a privileged instruction. -/
def Fetched.csr (f : Fetched) : BitVec 12 := f.bits 31 20

/-- The entries of `table_system`. -/
inductive SystemRow where
  | ecall | ebreak | sret | wfi | sfence_vma | sinval_vma | sfence_w_inval | sfence_inval_ir
  | uret | mret | csrrw | csrrs | csrrc | csrrwi | csrrsi | csrrci | inv
  deriving DecidableEq

/-- The entry of `table_system` that a word of the major opcode matches. -/
def systemRow (P : Platform) (f : Fetched) : SystemRow :=
  let noRegs := f.rs1 = 0 ∧ f.funct3 = 0 ∧ f.rd = 0
  if f.csr = 0 ∧ noRegs then .ecall
  else if P.rvDebug ∧ f.csr = 1 ∧ noRegs then .ebreak
  else if f.csr = 0x102 ∧ noRegs then .sret
  else if f.csr = 0x105 ∧ noRegs then .wfi
  else if f.funct7 = 0b0001001 ∧ f.funct3 = 0 ∧ f.rd = 0 then .sfence_vma
  else if P.svinval ∧ f.funct7 = 0b0001011 ∧ f.funct3 = 0 ∧ f.rd = 0 then .sinval_vma
  else if P.svinval ∧ f.csr = 0x180 ∧ noRegs then .sfence_w_inval
  else if P.svinval ∧ f.csr = 0x181 ∧ noRegs then .sfence_inval_ir
  else if P.rvn ∧ f.csr = 0x002 ∧ noRegs then .uret
  else if f.csr = 0x302 ∧ noRegs then .mret
  else if f.funct3 = 1 then .csrrw
  else if f.funct3 = 2 then .csrrs
  else if f.funct3 = 3 then .csrrc
  else if f.funct3 = 5 then .csrrwi
  else if f.funct3 = 6 then .csrrsi
  else if f.funct3 = 7 then .csrrci
  else .inv

/-- The type that `isa_fetch_decode` gives an entry in a DEBUG build. -/
def SystemRow.type (P : Platform) : SystemRow → InstrType
  | .mret | .sret | .ecall => .I
  | .uret => if P.rvn then .I else .N
  | _ => .N

/-- The type that `isa_fetch_decode` gives a word of the major opcode. -/
def systemType (P : Platform) (f : Fetched) : InstrType :=
  if P.debug then (systemRow P f).type P
  else if f.funct3 = 0 ∧
      (f.csr = 0 ∨ (P.rvn ∧ f.csr = 0x002) ∨ f.csr = 0x102 ∨ f.csr = 0x302) then .I
  else .N

/-- The same build with and without `CONFIG_DEBUG`. -/
def Platform.build (P : Platform) (debug : Bool) : Platform := { P with debug := debug }

/-- The instruction can complete with a program counter other than that of its successor. -/
def Decode.CanJump (P : Platform) (d : Decode) : Prop :=
  ∃ s t, s.pc = d.snpc ∧ exec P d s = .ok () t ∧ t.pc ≠ d.snpc

/-- Both builds do the same with a word in a state, and both end a basic block with it exactly when
it can jump. -/
structure DecodersAgree (P : Platform) (f : Fetched) (s : Machine) : Prop where
  outcome : exec (P.build true) (tableMain (P.build true) f) s =
    exec (P.build false) (tableMain (P.build false) f) s
  blockEnd : ∀ debug, systemType (P.build debug) f = .I ↔
    (tableMain (P.build debug) f).CanJump (P.build debug)

/-- The conditions under which `priv_instr` raises an illegal instruction, returns apart. -/
def FenceRejects (P : Platform) (s : Machine) (op : BitVec 32) : Prop :=
  let svinvalOff := (s.csr .srnctl).getLsbD 1 = false
  if P.svinval ∧ (op = 0x180 ∨ op = 0x181) then svinvalOff
  else if op = 0x105 then s.mode < .M ∧ s.tw
  else if op = -1 then False
  else if op >>> 5 = 0x09 then s.mode = .S ∧ s.tvm
  else if P.svinval ∧ op >>> 5 = 0x0b then (s.mode = .S ∧ s.tvm) ∨ svinvalOff
  else P.share = true

/-- The conditions under which `priv_instr` raises an illegal instruction. -/
def PrivRejects (P : Platform) (s : Machine) (op : BitVec 32) : Prop :=
  if P.rvn ∧ op = 0x002 then False
  else if op = 0x102 then (s.mode = .S ∧ s.tsr) ∨ s.mode < .S
  else if op = 0x302 then s.mode < .M
  else FenceRejects P s op

/-- The conditions under which a CSR instruction that writes raises an illegal instruction and has
changed nothing. Reading the time asks the CLINT for it. -/
def CsrRejects (P : Platform) (s : Machine) (pc : Word) (addr : BitVec 12) : Prop :=
  match Csr.ofAddr P.toConfig addr with
  | none => P.panicOnUnimpCsr = false
  | some c => (addr.extractLsb' 8 2).toNat ≤ s.mode.toNat ∧
      (P.dasics = true → dasicsInTrustedZone s pc = true) ∧
      (csrReadIllegal P s c ∨ (addr.extractLsb' 10 2 = 3 ∧ c ≠ .mtime))

/-- The conditions under which `rtl_sys_slow_path` raises an illegal instruction for a word that is
not in `table_system`. -/
def SystemRejects (P : Platform) (f : Fetched) (s : Machine) : Prop :=
  if f.funct3 = 0 then ¬ (P.rvDebug = true ∧ f.csr = 1) ∧ PrivRejects P s (f.csr.setWidth 32)
  else CsrRejects P s f.pc f.csr

/-- What must not happen for the two builds to agree. -/
structure DecodersSafe (P : Platform) (f : Fetched) (s : Machine) : Prop where
  reserved : systemRow P f = .inv →
    (P.share = true ∨ P.reportIllegalInstr = false) ∧ SystemRejects P f s
  ebreak : ¬ (P.rvDebug = true ∧ f.funct3 = 0 ∧ f.csr = 1)
  ecall : P.share = true → f.funct3 = 0 → f.csr = 0 → f.rs1 = 0 ∧ f.rd = 0

variable {P : Platform} {f : Fetched} {s t : Machine} {d : Decode}

section Decoded

/-- The major opcode SYSTEM, with the two bits of a wide instruction. -/
def Fetched.IsSystem (f : Fetched) : Prop := f.instr.extractLsb' 0 7 = 0x73#7

instance (f : Fetched) : Decidable f.IsSystem := inferInstanceAs (Decidable (_ = _))

theorem Fetched.IsSystem.opcode_eq (h : f.IsSystem) : f.opcode = 0b11100 := by
  have hsub : f.opcode = (f.instr.extractLsb' 0 7).extractLsb' 2 5 := by
    rw [BitVec.extractLsb'_extractLsb'_of_le (by decide)]
    rfl
  rw [hsub, h]
  rfl

theorem Fetched.IsSystem.tableMain_eq (h : f.IsSystem) (P : Platform) :
    tableMain P f = decodeCsr f (tableSystem P f) := by
  unfold tableMain
  rw [h.opcode_eq]
  simp

theorem tableSystem_release : tableSystem (P.build false) f = .system := by
  unfold tableSystem
  exact if_pos (.inl rfl)

theorem SystemRow.ite_inv [Decidable p] {a b : SystemRow} (h : a ≠ .inv) :
    (if p then a else b) = .inv ↔ ¬ p ∧ b = .inv := by
  split
  · next hp => exact ⟨fun ha => absurd ha h, fun hn => absurd hp hn.1⟩
  · next hp => exact ⟨fun hb => ⟨hp, hb⟩, fun hn => hn.2⟩

theorem funct3_cases :
    ∀ x : BitVec 3, x = 0 ∨ x = 1 ∨ x = 2 ∨ x = 3 ∨ x = 4 ∨ x = 5 ∨ x = 6 ∨ x = 7 := by
  decide

/-- The entries with `funct3 = 0`. -/
def PrivListed (P : Platform) (f : Fetched) : Prop :=
  f.rd = 0 ∧ (f.rs1 = 0 ∧ (f.csr = 0 ∨ (P.rvDebug ∧ f.csr = 1) ∨ f.csr = 0x102 ∨ f.csr = 0x105 ∨
    (P.rvn ∧ f.csr = 0x002) ∨ f.csr = 0x302 ∨ (P.svinval ∧ (f.csr = 0x180 ∨ f.csr = 0x181))) ∨
    f.funct7 = 0b0001001 ∨ (P.svinval ∧ f.funct7 = 0b0001011))

theorem systemRow_inv :
    systemRow P f = .inv ↔ f.funct3 = 4 ∨ (f.funct3 = 0 ∧ ¬ PrivListed P f) := by
  unfold systemRow
  dsimp only
  iterate 16 rw [SystemRow.ite_inv]
  any_goals decide
  constructor
  · rintro ⟨h1, h2, h3, h4, h5, h6, h7, h8, h9, h10, n1, n2, n3, n5, n6, n7, -⟩
    rcases funct3_cases f.funct3 with h | h | h | h | h | h | h | h
    · refine .inr ⟨h, ?_⟩
      rintro ⟨hd, ⟨hs, hc | ⟨hb, hc⟩ | hc | hc | ⟨hb, hc⟩ | hc | ⟨hb, hc | hc⟩⟩ | hc | ⟨hb, hc⟩⟩
      · exact h1 ⟨hc, hs, h, hd⟩
      · exact h2 ⟨hb, hc, hs, h, hd⟩
      · exact h3 ⟨hc, hs, h, hd⟩
      · exact h4 ⟨hc, hs, h, hd⟩
      · exact h9 ⟨hb, hc, hs, h, hd⟩
      · exact h10 ⟨hc, hs, h, hd⟩
      · exact h7 ⟨hb, hc, hs, h, hd⟩
      · exact h8 ⟨hb, hc, hs, h, hd⟩
      · exact h5 ⟨hc, h, hd⟩
      · exact h6 ⟨hb, hc, h, hd⟩
    · exact absurd h n1
    · exact absurd h n2
    · exact absurd h n3
    · exact .inl h
    · exact absurd h n5
    · exact absurd h n6
    · exact absurd h n7
  · rintro (h | ⟨h, hn⟩)
    · simp [h]
    · refine ⟨?_, ?_, ?_, ?_, ?_, ?_, ?_, ?_, ?_, ?_, by simp [h]⟩
      · exact fun ⟨hc, hs, _, hd⟩ => hn ⟨hd, .inl ⟨hs, .inl hc⟩⟩
      · exact fun ⟨hb, hc, hs, _, hd⟩ => hn ⟨hd, .inl ⟨hs, .inr (.inl ⟨hb, hc⟩)⟩⟩
      · exact fun ⟨hc, hs, _, hd⟩ => hn ⟨hd, .inl ⟨hs, .inr (.inr (.inl hc))⟩⟩
      · exact fun ⟨hc, hs, _, hd⟩ => hn ⟨hd, .inl ⟨hs, .inr (.inr (.inr (.inl hc)))⟩⟩
      · exact fun ⟨hc, _, hd⟩ => hn ⟨hd, .inr (.inl hc)⟩
      · exact fun ⟨hb, hc, _, hd⟩ => hn ⟨hd, .inr (.inr ⟨hb, hc⟩)⟩
      · exact fun ⟨hb, hc, hs, _, hd⟩ =>
          hn ⟨hd, .inl ⟨hs, .inr (.inr (.inr (.inr (.inr (.inr ⟨hb, .inl hc⟩)))))⟩⟩
      · exact fun ⟨hb, hc, hs, _, hd⟩ =>
          hn ⟨hd, .inl ⟨hs, .inr (.inr (.inr (.inr (.inr (.inr ⟨hb, .inr hc⟩)))))⟩⟩
      · exact fun ⟨hb, hc, hs, _, hd⟩ =>
          hn ⟨hd, .inl ⟨hs, .inr (.inr (.inr (.inr (.inl ⟨hb, hc⟩))))⟩⟩
      · exact fun ⟨hc, hs, _, hd⟩ =>
          hn ⟨hd, .inl ⟨hs, .inr (.inr (.inr (.inr (.inr (.inl hc)))))⟩⟩

/-- Without an entry the word is an invalid instruction. -/
theorem tableSystem_debug :
    tableSystem (P.build true) f = if systemRow P f = .inv then .inv else .system := by
  unfold tableSystem
  refine Eq.trans ?_ (ite_not (systemRow P f = .inv) ExecId.system ExecId.inv)
  refine if_congr ?_ rfl rfl
  rw [systemRow_inv]
  constructor
  · rintro (h | ⟨⟨hs, h0, hd⟩, hc⟩ | ⟨h0, hd, hc⟩ | ⟨h0, h4⟩) (hf | ⟨hf, hn⟩)
    · cases h
    · cases h
    · rw [h0] at hf
      exact absurd hf (by decide)
    · exact hn ⟨hd, .inl ⟨hs, hc⟩⟩
    · rw [h0] at hf
      exact absurd hf (by decide)
    · exact hn ⟨hd, .inr hc⟩
    · exact h4 hf
    · exact h0 hf
  · rw [not_or, not_and, not_not]
    rintro ⟨h4, h⟩
    by_cases h0 : f.funct3 = 0
    · obtain ⟨hd, ⟨hs, hc⟩ | hc⟩ := h h0
      · exact .inr (.inl ⟨⟨hs, h0, hd⟩, hc⟩)
      · exact .inr (.inr (.inl ⟨h0, hd, hc⟩))
    · exact .inr (.inr (.inr ⟨h0, h4⟩))

theorem privId_system (f : Fetched) (id : ExecId) :
    (decodeCsr f id).privId = f.csr.setWidth 32 := by
  change ((f.bits 31 20).setWidth 64).setWidth 32 = _
  rw [BitVec.setWidth_setWidth (by decide)]
  rfl

theorem csrId_system (f : Fetched) (id : ExecId) : (decodeCsr f id).csrId = f.csr := by
  change ((f.bits 31 20).setWidth 64).setWidth 12 = _
  rw [BitVec.setWidth_setWidth (by decide)]
  exact BitVec.setWidth_eq _

theorem rtlSysSlowPath_priv (h : f.funct3 = 0) :
    rtlSysSlowPath P (decodeCsr f .system) = sysPriv P (decodeCsr f .system) :=
  if_pos h

theorem rtlSysSlowPath_csr (h : f.funct3 ≠ 0) :
    rtlSysSlowPath P (decodeCsr f .system) = sysCsr P (decodeCsr f .system) :=
  if_neg h

end Decoded

section Rejects

theorem not_illegalStop {m : Exec α} (hm : noException.Within m) : m s ≠ .error illegalStop t := by
  intro h
  exact (hm.error h trivial).1 _ rfl

theorem illegalIf_then_iff {p : Prop} [Decidable p] {k : Unit → Exec α}
    (hk : noException.Within (k ())) : (illegalIf p >>= k) s = .error illegalStop s ↔ p := by
  unfold illegalIf
  by_cases hp : p
  · rw [if_pos hp]
    exact ⟨fun _ => hp, fun _ => rfl⟩
  · rw [if_neg hp]
    exact ⟨fun h => absurd h (not_illegalStop hk), fun h => absurd h hp⟩

theorem illegalWhen_iff (p : Prop) [Decidable p] : illegalWhen p s = .error illegalStop s ↔ p :=
  illegalIf_then_iff (.ret _ _)

theorem privFence_rejects (op : BitVec 32) :
    privFence P op s = .error illegalStop s ↔ FenceRejects P s op := by
  unfold FenceRejects
  unfold privFence
  rw [get_bind]
  dsimp only
  split
  · exact illegalWhen_iff _
  split
  · exact illegalWhen_iff _
  split
  · exact ⟨fun h => (by cases h), False.elim⟩
  split
  · exact illegalWhen_iff _
  split
  · exact illegalWhen_iff _
  split
  · next hs => exact ⟨fun _ => hs, fun _ => rfl⟩
  · next hs => exact ⟨fun h => (by cases h), fun h => absurd h hs⟩

theorem privInstr_rejects (op : BitVec 32) :
    privInstr P op s = .error illegalStop s ↔ PrivRejects P s op := by
  unfold privInstr PrivRejects
  split
  · rw [uret_eq]
    exact ⟨not_illegalStop retTail_noException, False.elim⟩
  split
  · rw [sret_eq]
    exact illegalIf_then_iff fun s => retTail_noException _
  split
  · rw [mret_eq]
    exact illegalIf_then_iff fun s => retTail_noException _
  · exact privFence_rejects op

theorem sysPriv_rejects (he : d.isEcall P = true → P.share = false ∧ d.privId = 0) :
    sysPriv P d s = .error illegalStop s ↔
      ¬ (P.rvDebug = true ∧ d.privId = 1) ∧ PrivRejects P s d.privId := by
  have hpriv : sysPriv P d s = .error illegalStop s ↔ sysTarget P d s = .error illegalStop s := by
    constructor
    · intro h
      rcases error_of_bind h with h1 | ⟨_, u, -, h1⟩
      · exact h1
      · exfalso
        split at h1
        · exact not_illegalStop update_noException h1
        · cases h1
    · intro h
      exact bind_error h
  rw [hpriv]
  unfold sysTarget
  rw [get_bind]
  split
  · next h =>
    obtain ⟨hs, h0⟩ := he h
    refine ⟨fun h1 => absurd h1 (not_illegalStop rtlTrap_noException), fun h1 => ?_⟩
    have hr := h1.2
    rw [h0] at hr
    simp [PrivRejects, FenceRejects, hs] at hr
  split
  · next h => exact ⟨fun h1 => absurd h1 (not_illegalStop rtlTrap_noException), fun h1 => absurd h h1.1⟩
  · next h =>
    rw [privInstr_rejects]
    exact ⟨fun h1 => ⟨h, h1⟩, fun h1 => h1.2⟩

theorem csrPrepared_mtime : csrPrepared P s .mtime ≠ s := by
  intro h
  have hlen := congrArg (fun t => t.mmio.length) h
  change (s.mmio ++ [DevEvent.uptime]).length = s.mmio.length at hlen
  simp at hlen

theorem CsrOpen.sysCsr_rejects (ho : CsrOpen P s d c) (hw : d.csrWrites = true) :
    sysCsr P d s = .error illegalStop s ↔
      csrReadIllegal P s c ∨ (d.csrId.extractLsb' 10 2 = 3 ∧ c ≠ .mtime) := by
  by_cases hr : csrReadIllegal P s c
  · have hrun := sysCsr_read_error (ho.csrrw_read.trans (csrRead_illegal hr))
    exact ⟨fun _ => .inl hr, fun _ => hrun⟩
  · rw [ho.sysCsr_write hr hw]
    by_cases hro : d.csrId.extractLsb' 10 2 = 3
    · rw [bind_error (ho.prepared.csrrw_readOnly _ hro)]
      have haddr : c.addr = d.csrId := (Csr.ofAddr_spec ho.addr).1
      constructor
      · intro h
        refine .inr ⟨hro, ?_⟩
        rintro rfl
        exact csrPrepared_mtime (EStateM.Result.error.inj h).2
      · rintro (h | ⟨-, hc⟩)
        · exact absurd h hr
        · rw [csrPrepared_readOnly (haddr ▸ hro) hc]
    · refine ⟨fun h => ?_, fun h => ?_⟩
      · exfalso
        rcases error_of_bind h with h1 | ⟨_, _, -, h1⟩
        · rw [ho.prepared.csrrw_write _ hro] at h1
          rcases error_of_bind h1 with h2 | ⟨_, _, -, h2⟩
          · rw [csrWrite_legal _ (csrWriteIllegal_prepared hr)] at h2
            have h3 : csrWriteTail P c (d.csrOperand P s c) (csrPrepared P s c) =
                .error illegalStop s := h2
            exact not_illegalStop csrWriteTail_noException h3
          · cases h2
        · exact not_illegalStop writeReg_noException h1
      · obtain h1 | ⟨h1, -⟩ := h
        · exact absurd h1 hr
        · exact absurd h1 hro

theorem sysCsr_rejects (hw : d.csrWrites = true) :
    sysCsr P d s = .error illegalStop s ↔ CsrRejects P s d.pc d.csrId := by
  unfold CsrRejects
  cases ha : Csr.ofAddr P.toConfig d.csrId with
  | none =>
    dsimp only
    cases hp : P.panicOnUnimpCsr with
    | true =>
      have hlegal : csrIsLegal P d.csrId false d.pc s = .error (.abort .unimpCsr) s := by
        rw [csrIsLegal_absent ha]
        exact bind_error (assert_neg _ (by rw [hp]; decide) _ s)
      rw [sysCsr_read_error (bind_error hlegal)]
      exact ⟨fun h => (by cases h), fun h => (by cases h)⟩
    | false =>
      have hlegal : csrIsLegal P d.csrId false d.pc s = .ok none s := by
        rw [csrIsLegal_absent ha]
        exact bind_ok (assert_pos _ hp _ s)
      exact ⟨fun _ => rfl, fun _ => sysCsr_read_error (bind_ok hlegal)⟩
  | some c =>
    dsimp only
    by_cases hl : (d.csrId.extractLsb' 8 2).toNat ≤ s.mode.toNat ∧
        (P.dasics = true → dasicsInTrustedZone s d.pc = true)
    · have ho : CsrOpen P s d c := ⟨ha, hl.1, hl.2⟩
      rw [ho.sysCsr_rejects hw]
      exact ⟨fun h => ⟨hl.1, hl.2, h⟩, fun h => h.2.2⟩
    · rw [sysCsr_read_error (bind_error (csrIsLegal_barred ha hl))]
      exact ⟨fun h => (by cases h), fun h => absurd ⟨h.1, h.2.1⟩ hl⟩

end Rejects

section Stops

/-- The ways in which a system instruction stops. -/
def Stop.fromSystem (e : Stop) : Prop := e.fromAccess = false ∧ e ≠ .abort .invalidInstr

def systemStops : Effect Stop Machine := inv (fun _ => True) fun e _ => e.fromSystem

theorem update_fromSystem {g : Machine → Machine} : systemStops.Within (modify g : Exec PUnit) :=
  .update fun _ _ => trivial

theorem abort_fromSystem (h : Stop.fromSystem (.abort a)) :
    systemStops.Within (throw (.abort a) : Exec α) :=
  .raise fun _ _ => h

theorem assert_fromSystem (p : Prop) [Decidable p] (h : Stop.fromSystem (.abort a)) :
    systemStops.Within (assert p a) := by
  unfold assert
  split
  · exact .ret _ _
  · exact abort_fromSystem h

theorem illegal_fromSystem : systemStops.Within (longjmpException .II : Exec α) :=
  .raise fun _ _ => ⟨rfl, Stop.noConfusion⟩

theorem illegalIf_fromSystem (p : Prop) [Decidable p] : systemStops.Within (illegalIf p) := by
  unfold illegalIf
  split
  · exact illegal_fromSystem
  · exact .ret _ _

theorem updateMmuStateInternal_fromSystem :
    systemStops.Within (updateMmuStateInternal ifetch) := by
  refine .bind (.read _) fun s => ?_
  split
  · refine .bind (assert_fromSystem _ ⟨rfl, by decide⟩) fun _ => ?_
    split
    · exact .ret _ _
    · exact .ret _ _
  · exact .ret _ _

theorem updateMmuState_fromSystem : systemStops.Within updateMmuState :=
  .bind updateMmuStateInternal_fromSystem fun _ => .bind update_fromSystem fun _ =>
    .bind updateMmuStateInternal_fromSystem fun _ => update_fromSystem

theorem rtlTrap_fromSystem : systemStops.Within (rtlTrap P d no) := by
  have hraise : ∀ no, systemStops.Within (raiseIntr P no d.pc) := by
    intro no s
    unfold At
    rw [raiseIntr_eq]
    exact Within.bind updateMmuState_fromSystem
      (fun _ => .bind (.read _) fun _ => .ret _ _) (trapEntry P no d.pc s)
  refine .bind (.bind (.read _) fun s => ?_) fun _ => .bind update_fromSystem fun _ => .ret _ _
  dsimp only
  split
  · exact .bind update_fromSystem fun _ => hraise _
  split
  · exact .bind update_fromSystem fun _ => hraise _
  · exact hraise _

theorem privFence_fromSystem : systemStops.Within (privFence P op) := by
  have hwhen : ∀ (p : Prop) [Decidable p], systemStops.Within (illegalWhen p) := fun p =>
    .bind (illegalIf_fromSystem p) fun _ => .ret _ _
  refine .bind (.read _) fun s => ?_
  dsimp only
  split
  · exact hwhen _
  split
  · exact hwhen _
  split
  · exact .ret _ _
  split
  · exact hwhen _
  split
  · exact hwhen _
  split
  · exact illegal_fromSystem
  · exact abort_fromSystem ⟨rfl, by decide⟩

theorem privInstr_fromSystem : systemStops.Within (privInstr P op) := by
  have htail : ∀ epc, systemStops.Within (retTail epc) := fun epc =>
    .bind updateMmuState_fromSystem fun _ => .bind (.read _) fun _ => .ret _ _
  unfold privInstr
  split
  · exact .bind update_fromSystem fun _ => .bind update_fromSystem fun _ =>
      .bind update_fromSystem fun _ => htail .uepc
  split
  · exact .bind (.read _) fun _ => .bind (illegalIf_fromSystem _) fun _ =>
      .bind update_fromSystem fun _ => .bind update_fromSystem fun _ => .bind (.read _) fun _ =>
        .bind update_fromSystem fun _ => .bind update_fromSystem fun _ => htail .sepc
  split
  · exact .bind (.read _) fun _ => .bind (illegalIf_fromSystem _) fun _ =>
      .bind update_fromSystem fun _ => .bind update_fromSystem fun _ => .bind (.read _) fun _ =>
        .bind update_fromSystem fun _ => .bind update_fromSystem fun _ => htail .mepc
  · exact privFence_fromSystem

theorem sysPriv_fromSystem : systemStops.Within (sysPriv P d) := by
  refine .bind (.bind (.read _) fun s => ?_) fun jpc => ?_
  · split
    · exact rtlTrap_fromSystem
    split
    · exact rtlTrap_fromSystem
    · exact privInstr_fromSystem
  · split
    · exact update_fromSystem
    · exact .ret _ _

theorem csrIsLegal_fromSystem : systemStops.Within (csrIsLegal P addr w pc) := by
  refine .bind (.read _) fun s => ?_
  split
  · exact .bind (assert_fromSystem _ ⟨rfl, by decide⟩) fun _ => .ret _ _
  · refine .bind (assert_fromSystem _ ⟨rfl, by decide⟩) fun _ => ?_
    split
    · exact .ret _ _
    · exact .ret _ _

theorem csrRead_fromSystem : systemStops.Within (csrRead P c) := by
  intro s
  by_cases hr : csrReadIllegal P s c
  · exact .of_error (csrRead_illegal hr) fun _ => ⟨rfl, Stop.noConfusion⟩
  · exact .of_ok (csrRead_visible hr) fun _ => trivial

theorem csrWrite_fromSystem : systemStops.Within (csrWrite P c x) := by
  refine .bind (.read _) fun s => .bind (illegalIf_fromSystem _) fun _ =>
    .bind update_fromSystem fun _ => .bind ?_ fun _ => .bind ?_ fun _ => ?_
  · unfold csrWriteFp
    split
    · exact .bind update_fromSystem fun _ => .bind (.read _) fun _ =>
        .bind (assert_fromSystem _ ⟨rfl, by decide⟩) fun _ => update_fromSystem
    · exact .ret _ _
  · unfold csrWriteSd
    split
    · exact update_fromSystem
    · exact .ret _ _
  · unfold csrWriteMmu
    split
    · exact updateMmuState_fromSystem
    · exact .ret _ _

theorem sysCsr_fromSystem : systemStops.Within (sysCsr P d) := by
  have hreg : ∀ l v, systemStops.Within (writeReg l v) := by
    intro l v
    cases l <;> exact update_fromSystem
  have hread : ∀ addr pc, systemStops.Within (csrrw P true none addr pc) := by
    intro addr pc
    refine .bind csrIsLegal_fromSystem fun r => ?_
    cases r with
    | none => exact illegal_fromSystem
    | some c => exact csrRead_fromSystem
  have hwrite : ∀ x addr pc, systemStops.Within (csrrw P false (some x) addr pc) := by
    intro x addr pc
    refine .bind csrIsLegal_fromSystem fun r => ?_
    cases r with
    | none => exact illegal_fromSystem
    | some c => exact .bind csrWrite_fromSystem fun _ => .ret _ _
  refine .bind (hread _ _) fun old => ?_
  split
  · exact .bind (.bind (.read _) fun _ => .ret _ _) fun src => .bind (hwrite _ _ _) fun _ => hreg _ _
  · exact hreg _ _

theorem rtlSysSlowPath_fromSystem (h : rtlSysSlowPath P d s = .error e t) : e.fromSystem := by
  unfold rtlSysSlowPath at h
  split at h
  · exact sysPriv_fromSystem.error h trivial
  · exact sysCsr_fromSystem.error h trivial

/-- A stand-alone emulator stops at an invalid instruction as no system instruction does. -/
def inspectStops : Effect Stop Machine := inv (fun _ => True) fun e _ => ¬ e.fromSystem

theorem inspects_of_access {m : Exec α} (h : accessStops.Within m) : inspectStops.Within m := by
  intro s
  refine (h s).mono (fun _ _ _ => trivial) fun e t he _ hs => ?_
  exact absurd (hs.1.symm.trans (he trivial)) Bool.false_ne_true

theorem execInv_report (hr : P.reportIllegalInstr = true) (hs : P.share = false) :
    ∃ e t, execInv P d s = .error e t ∧ ¬ e.fromSystem := by
  have hrun : execInv P d = (vaddrIfetch P d.pc 4 >>= fun _ => vaddrIfetch P (d.pc + 4) 4 >>= fun _ =>
      throw (.abort .invalidInstr) : Exec Unit) := by
    unfold execInv
    rw [hr, hs]
    rfl
  have hfetch : ∀ a, inspectStops.Within (vaddrIfetch P a 4) := fun a =>
    inspects_of_access (vaddrReadInternal_fromAccess _)
  have hstop : inspectStops.Within (execInv P d) := by
    rw [hrun]
    exact .bind (hfetch _) fun _ => .bind (hfetch _) fun _ => .raise fun _ _ h => h.2 rfl
  cases h : execInv P d s with
  | error e t => exact ⟨e, t, rfl, hstop.error h trivial⟩
  | ok a t =>
    rw [hrun] at h
    obtain ⟨_, _, -, h1⟩ := ok_of_bind h
    obtain ⟨_, _, -, h2⟩ := ok_of_bind h1
    cases h2

theorem execInv_illegal (h : P.share = true ∨ P.reportIllegalInstr = false) :
    execInv P d s = .error illegalStop s := by
  unfold execInv
  obtain h | h := h
  · rw [h, Bool.not_true, Bool.and_false]
    rfl
  · rw [h, Bool.false_and]
    rfl

end Stops

section Jumps

/-- The words with which `rtl_sys_slow_path` can jump. -/
def SystemJumps (P : Platform) (f : Fetched) : Prop :=
  f.funct3 = 0 ∧ ((f.csr = 0 ∧ (P.share = true → f.rs1 = 0 ∧ f.rd = 0)) ∨
    (P.rvDebug = true ∧ f.csr = 1) ∨ (P.rvn = true ∧ f.csr = 0x002) ∨ f.csr = 0x102 ∨ f.csr = 0x302)

theorem Fetched.IsSystem.ecall_iff (h : f.IsSystem) :
    f.instr = 0x73 ↔ f.csr = 0 ∧ f.rs1 = 0 ∧ f.funct3 = 0 ∧ f.rd = 0 := by
  constructor
  · intro hi
    unfold Fetched.csr Fetched.rs1 Fetched.funct3 Fetched.rd Fetched.bits
    rw [hi]
    decide
  · rintro ⟨hc, hs, h3, hd⟩
    have hn := f.instr.isLt
    have h7 := congrArg BitVec.toNat h
    have hc := congrArg BitVec.toNat hc
    have hs := congrArg BitVec.toNat hs
    have h3 := congrArg BitVec.toNat h3
    have hd := congrArg BitVec.toNat hd
    unfold Fetched.csr Fetched.bits at hc
    unfold Fetched.rs1 Fetched.bits at hs
    unfold Fetched.funct3 Fetched.bits at h3
    unfold Fetched.rd Fetched.bits at hd
    simp only [BitVec.extractLsb'_toNat, Nat.shiftRight_eq_div_pow] at h7 hc hs h3 hd
    apply BitVec.eq_of_toNat_eq
    change _ = 115
    simp at *
    omega

theorem privId_eq_iff (f : Fetched) (n : BitVec 12) :
    (f.csr.setWidth 32 : BitVec 32) = n.setWidth 32 ↔ f.csr = n := by
  constructor
  · intro h
    have h12 := congrArg (BitVec.setWidth 12) h
    rw [BitVec.setWidth_setWidth (by decide), BitVec.setWidth_setWidth (by decide),
      BitVec.setWidth_eq, BitVec.setWidth_eq] at h12
    exact h12
  · intro h
    rw [h]

theorem pc_csrBlind : CsrBlind Machine.pc :=
  ⟨fun _ _ => rfl, fun _ _ => rfl, fun _ => rfl, fun _ => rfl, fun _ => rfl⟩

/-- The operations 0 and 1 are not among those of `priv_instr`. -/
theorem privFence_absent (h : op = 0 ∨ op = 1) : privFence P op s ≠ .ok a t := by
  intro hok
  have hrun : privFence P op s = (if P.share then longjmpException .II else throw (.abort .privOp) :
      Exec Word) s := by
    unfold privFence
    rw [get_bind]
    obtain rfl | rfl := h
    · simp
    · simp
  rw [hrun] at hok
  split at hok
  · cases hok
  · cases hok

theorem isEcall_system (h : f.IsSystem) (he : (decodeCsr f .system).isEcall P = true) :
    f.csr = 0 ∧ (P.share = true → f.rs1 = 0 ∧ f.rd = 0) := by
  unfold Decode.isEcall at he
  split at he
  · obtain ⟨hc, hs, -, hd⟩ := h.ecall_iff.mp (of_decide_eq_true he)
    exact ⟨hc, fun _ => ⟨hs, hd⟩⟩
  · next hs =>
    have h0 := of_decide_eq_true he
    rw [privId_system] at h0
    exact ⟨(privId_eq_iff f 0).mp h0, fun hs' => absurd hs' hs⟩

theorem privFence_stays (h : privFence P op s = .ok a t) : t.pc = s.pc := by
  have hdata : (keep Stop Machine.pc).Within (privFence P op) :=
    pc_csrBlind.of_data (q := fun _ => False) privFence_data
  exact hdata.ok h

theorem rtlSysSlowPath_stays (h : f.IsSystem) (hn : ¬ SystemJumps P f)
    (hrun : rtlSysSlowPath P (decodeCsr f .system) s = .ok () t) : t.pc = s.pc := by
  unfold rtlSysSlowPath at hrun
  split at hrun
  · next h3 =>
    obtain ⟨jpc, u, ht, hj⟩ := ok_of_bind hrun
    unfold sysTarget at ht
    rw [get_bind] at ht
    split at ht
    · next he => exact absurd ⟨h3, .inl (isEcall_system h he)⟩ hn
    split at ht
    · next he =>
      rw [privId_system] at he
      exact absurd ⟨h3, .inr (.inl ⟨he.1, (privId_eq_iff f 1).mp he.2⟩)⟩ hn
    rw [privId_system] at ht
    have hno : ∀ n : BitVec 12, f.csr ≠ n → (f.csr.setWidth 32 : BitVec 32) ≠ n.setWidth 32 :=
      fun n hne heq => hne ((privId_eq_iff f n).mp heq)
    have huret : ¬ (P.rvn = true ∧ (f.csr.setWidth 32 : BitVec 32) = 0x002) := fun ⟨hr, he⟩ =>
      hn ⟨h3, .inr (.inr (.inl ⟨hr, (privId_eq_iff f 2).mp he⟩))⟩
    have hsret : (f.csr.setWidth 32 : BitVec 32) ≠ 0x102 :=
      hno 0x102 fun he => hn ⟨h3, .inr (.inr (.inr (.inl he)))⟩
    have hmret : (f.csr.setWidth 32 : BitVec 32) ≠ 0x302 :=
      hno 0x302 fun he => hn ⟨h3, .inr (.inr (.inr (.inr he)))⟩
    unfold privInstr at ht
    rw [if_neg huret, if_neg hsret, if_neg hmret] at ht
    have hid : (decodeCsr f .system).privJumps P = false := by
      have h01 : ¬ ((f.csr.setWidth 32 : BitVec 32) = 0 ∨ (f.csr.setWidth 32 : BitVec 32) = 1) :=
        fun h => privFence_absent h ht
      rw [not_or] at h01
      unfold Decode.privJumps
      rw [privId_system]
      simp only [Bool.or_eq_false_iff, Bool.and_eq_false_iff, decide_eq_false_iff_not]
      refine ⟨⟨⟨⟨h01.1, h01.2⟩, hsret⟩, hmret⟩, ?_⟩
      by_cases hr : P.rvn = true
      · exact .inr fun he => huret ⟨hr, he⟩
      · exact .inl (Bool.eq_false_of_not_eq_true hr)
    rw [hid] at hj
    cases hj
    exact privFence_stays ht
  · exact pc_csrBlind.sysCsr.ok hrun

/-- A multiple of four other than an address. -/
def elsewhere (a : Word) : Word := if a = 0 then 4 else 0

theorem elsewhere_ne (a : Word) : elsewhere a ≠ a := by
  unfold elsewhere
  split
  · next h =>
    rw [h]
    decide
  · next h => exact fun h' => h h'.symm

/-- Machine mode, with all that a jump may go to set to `a`. -/
def vectored (P : Platform) (pc a : Word) : Machine :=
  { ((((Machine.reset P fun _ => 0).setCsr .mtvec a).setCsr .uepc a).setCsr .sepc a).setCsr .mepc a with
    pc := pc }

theorem vectored_settled (P : Platform) (pc a : Word) : Settled (vectored P pc a) where
  mprv h := absurd rfl h
  satp := by
    have hcsr : (vectored P pc a).csr .satp = 0 := rfl
    left
    unfold Machine.satpMode
    rw [hcsr]
    rfl
  rm := by
    have hcsr : (vectored P pc a).csr .fcsr = 0 := rfl
    unfold Machine.frm
    rw [hcsr]
    rfl

theorem trapLevel_machine (h : s.mode = .M) (no : Word) : trapLevel P s no = .M := by
  by_contra hne
  have hm : (trapLevel P s no).mode ≠ .M := by
    cases hl : trapLevel P s no with
    | U | S => decide
    | M => exact absurd hl hne
  exact mode_ne_M_of_trapLevel hm h

theorem raiseIntr_vectored (no epc pc a : Word) (ha : (a >>> 2) <<< 2 = a) (hno : no >>> 63 ≠ 1) :
    ∃ u, raiseIntr P no epc (vectored P pc a) = .ok a u ∧ u.guidedExec = false := by
  have hl : trapLevel P (vectored P pc a) no = .M := trapLevel_machine rfl no
  have hvec : (trapEntry P no epc (vectored P pc a)).csr .mtvec = a := by
    rw [trapEntry_csr P no epc _ (by rw [hl]; decide)]
    rfl
  have hcause : (trapEntry P no epc (vectored P pc a)).csr .mcause = no := by
    have h := trapEntry_cause P no epc (vectored P pc a)
    rw [hl] at h
    exact h
  refine ⟨(trapEntry P no epc (vectored P pc a)).refreshMmu, ?_, ?_⟩
  · rw [raiseIntr_eq, bind_ok (updateMmuState_settled ((vectored_settled P pc a).trapEntry no epc)), hl]
    change EStateM.Result.ok (getTrapPc ((trapEntry P no epc (vectored P pc a)).csr .mtvec)
      ((trapEntry P no epc (vectored P pc a)).csr .mcause)) _ = _
    rw [hvec, hcause]
    unfold getTrapPc
    rw [if_neg fun h => hno h.1, ha]
  · unfold trapEntry
    dsimp only
    split <;> rfl

theorem elsewhere_aligned (a : Word) : (elsewhere a >>> 2) <<< 2 = elsewhere a := by
  unfold elsewhere
  split <;> decide

theorem rtlJ_unguided (hg : s.guidedExec = false) (a : Word) :
    rtlJ P a s = .ok () { s with pc := a } := by
  have hn : ¬ (P.guidedExec = true ∧ s.guidedExec = true ∧ s.guide.forceSetJumpTarget = true ∧
      s.guide.jumpTarget ≠ a) := by
    rintro ⟨-, h, -⟩
    rw [hg] at h
    cases h
  change EStateM.Result.ok () (if _ then _ else _) = _
  rw [if_neg hn]

theorem rtlTrap_vectored (no pc a : Word) (ha : (a >>> 2) <<< 2 = a) (hno : no >>> 63 ≠ 1) :
    ∃ u, rtlTrap P d no (vectored P pc a) = .ok a u ∧ u.guidedExec = false := by
  obtain ⟨u, hu, hg⟩ := raiseIntr_vectored (P := P) no d.pc pc a ha hno
  have htrap : hostcallTrap P d.pc no d.pc (vectored P pc a) = .ok a u := by
    unfold hostcallTrap
    rw [get_bind, if_neg (fun h => by cases h.2.1), if_neg (fun h => by cases h.2.1)]
    exact hu
  refine ⟨{ u with pc := a }, ?_, hg⟩
  refine (bind_ok htrap).trans ?_
  rw [bind_ok (rtlJ_unguided hg a)]
  rfl

theorem privInstr_vectored (op : BitVec 32) (pc a : Word)
    (h : (P.rvn = true ∧ op = 0x002) ∨ op = 0x102 ∨ op = 0x302) :
    ∃ u, privInstr P op (vectored P pc a) = .ok a u ∧ u.guidedExec = false := by
  have hs := vectored_settled P pc a
  unfold privInstr
  by_cases hu : P.rvn = true ∧ op = 0x002
  · refine ⟨(uretEntry P (vectored P pc a)).refreshMmu, ?_, rfl⟩
    rw [if_pos hu, uret_eq, retTail_run hs.uretEntry]
    rfl
  obtain rfl | rfl := h.resolve_left hu
  · refine ⟨(sretEntry P (vectored P pc a)).refreshMmu, ?_, rfl⟩
    have hrun : sret P (vectored P pc a) = retTail .sepc (sretEntry P (vectored P pc a)) := rfl
    rw [if_neg hu, if_pos rfl, hrun, retTail_run hs.sretEntry]
    rfl
  · refine ⟨(mretEntry P (vectored P pc a)).refreshMmu, ?_, rfl⟩
    have hrun : mret P (vectored P pc a) = retTail .mepc (mretEntry P (vectored P pc a)) := rfl
    rw [if_neg hu, if_neg (by decide), if_pos rfl, hrun, retTail_run hs.mretEntry]
    rfl

theorem sysTarget_vectored (h : f.IsSystem) (hj : SystemJumps P f) (pc a : Word)
    (ha : (a >>> 2) <<< 2 = a) :
    ∃ u, sysTarget P (decodeCsr f .system) (vectored P pc a) = .ok a u ∧ u.guidedExec = false := by
  obtain ⟨h3, hid⟩ := hj
  unfold sysTarget
  rw [get_bind]
  split
  · exact rtlTrap_vectored _ pc a ha (by change (8 + 3 : Word) >>> 63 ≠ 1; decide)
  split
  · exact rtlTrap_vectored _ pc a ha (by decide)
  · next he hb =>
    rw [privId_system] at hb ⊢
    apply privInstr_vectored
    obtain ⟨hc, hs⟩ | ⟨hr, hc⟩ | ⟨hr, hc⟩ | hc | hc := hid
    · exfalso
      apply he
      unfold Decode.isEcall
      split
      · next hshare =>
        obtain ⟨hs, hd⟩ := hs hshare
        exact decide_eq_true (h.ecall_iff.mpr ⟨hc, hs, h3, hd⟩)
      · rw [privId_system, hc]
        rfl
    · exact absurd ⟨hr, (privId_eq_iff f 1).mpr hc⟩ hb
    · exact .inl ⟨hr, (privId_eq_iff f 2).mpr hc⟩
    · exact .inr (.inl ((privId_eq_iff f 0x102).mpr hc))
    · exact .inr (.inr ((privId_eq_iff f 0x302).mpr hc))

theorem SystemJumps.privJumps (hj : SystemJumps P f) :
    (decodeCsr f .system).privJumps P = true := by
  obtain ⟨-, ⟨hc, -⟩ | ⟨-, hc⟩ | ⟨hr, hc⟩ | hc | hc⟩ := hj
  all_goals
    unfold Decode.privJumps
    rw [privId_system, hc]
  · rfl
  · rfl
  · rw [hr]
    rfl
  · rfl
  · rfl

theorem canJump_iff (h : f.IsSystem) :
    (decodeCsr f .system).CanJump P ↔ SystemJumps P f := by
  constructor
  · rintro ⟨s, t, hpc, hrun, hne⟩
    by_contra hn
    exact hne ((rtlSysSlowPath_stays h hn hrun).trans hpc)
  · intro hj
    obtain ⟨u, hu, hg⟩ := sysTarget_vectored h hj f.snpc _ (elsewhere_aligned f.snpc)
    refine ⟨vectored P f.snpc (elsewhere f.snpc), { u with pc := elsewhere f.snpc }, rfl, ?_,
      elsewhere_ne f.snpc⟩
    have hpriv : sysPriv P (decodeCsr f .system) (vectored P f.snpc (elsewhere f.snpc)) =
        .ok () { u with pc := elsewhere f.snpc } := by
      refine (bind_ok hu).trans ?_
      rw [hj.privJumps]
      exact rtlJ_unguided hg _
    change rtlSysSlowPath P (decodeCsr f .system) _ = _
    rw [rtlSysSlowPath_priv hj.1]
    exact hpriv

theorem not_canJump_inv : ¬ (decodeCsr f .inv).CanJump P := by
  rintro ⟨s, t, -, hrun, -⟩
  change execInv P (decodeCsr f .inv) s = _ at hrun
  by_cases h : P.share = true ∨ P.reportIllegalInstr = false
  · rw [execInv_illegal h] at hrun
    cases hrun
  · rw [not_or, Bool.not_eq_true, Bool.not_eq_false] at h
    obtain ⟨e, t', he, -⟩ := execInv_report (d := decodeCsr f .inv) (s := s) h.2 h.1
    rw [he] at hrun
    cases hrun

end Jumps

section Agreement

/-- The slow path does not look at `CONFIG_DEBUG`. -/
theorem exec_build (P : Platform) (debug : Bool) (f : Fetched) (id : ExecId)
    (h : id = .system ∨ id = .inv) :
    exec (P.build debug) (decodeCsr f id) = exec P (decodeCsr f id) := by
  obtain rfl | rfl := h
  · rfl
  · rfl

theorem canJump_build (P : Platform) (debug : Bool) (f : Fetched) (id : ExecId)
    (h : id = .system ∨ id = .inv) :
    (decodeCsr f id).CanJump (P.build debug) ↔ (decodeCsr f id).CanJump P := by
  unfold Decode.CanJump
  rw [exec_build P debug f id h]

/-- What is left of a release build's decoder when a word is not in the table. -/
theorem outcome_reserved (h : f.IsSystem) (hr : systemRow P f = .inv) :
    exec P (decodeCsr f .inv) s = exec P (decodeCsr f .system) s ↔
      (P.share = true ∨ P.reportIllegalInstr = false) ∧ SystemRejects P f s := by
  change execInv P (decodeCsr f .inv) s = rtlSysSlowPath P (decodeCsr f .system) s ↔ _
  have hslow : rtlSysSlowPath P (decodeCsr f .system) s = .error illegalStop s ↔
      SystemRejects P f s := by
    unfold SystemRejects
    by_cases h3 : f.funct3 = 0
    · have he : (decodeCsr f .system).isEcall P = true →
          P.share = false ∧ (decodeCsr f .system).privId = 0 := by
        intro he
        obtain ⟨hc, hs⟩ := isEcall_system h he
        refine ⟨?_, ?_⟩
        · rw [← Bool.not_eq_true]
          intro hshare
          obtain ⟨hs, hd⟩ := hs hshare
          obtain h4 | ⟨-, hn⟩ := systemRow_inv.mp hr
          · rw [h3] at h4
            cases h4
          · exact hn ⟨hd, .inl ⟨hs, .inl hc⟩⟩
        · rw [privId_system, hc]
          rfl
      rw [rtlSysSlowPath_priv h3, if_pos h3, sysPriv_rejects he, privId_system]
      have h1 : (f.csr.setWidth 32 : BitVec 32) = 1 ↔ f.csr = 1 := privId_eq_iff f 1
      rw [h1]
    · have h4 : f.funct3 = 4 := by
        obtain h4 | ⟨h0, -⟩ := systemRow_inv.mp hr
        · exact h4
        · exact absurd h0 h3
      have hw : (decodeCsr f .system).csrWrites = true := by
        have hd : (decodeCsr f .system).funct3 = 4 := h4
        unfold Decode.csrWrites
        rw [hd]
        rfl
      rw [rtlSysSlowPath_csr h3, if_neg h3, sysCsr_rejects hw, csrId_system]
      rfl
  by_cases hill : P.share = true ∨ P.reportIllegalInstr = false
  · rw [execInv_illegal hill, eq_comm, hslow]
    exact ⟨fun hs => ⟨hill, hs⟩, fun hs => hs.2⟩
  · refine ⟨fun heq => ?_, fun hs => absurd hs.1 hill⟩
    rw [not_or, Bool.not_eq_true, Bool.not_eq_false] at hill
    obtain ⟨e, t, he, hn⟩ := execInv_report (d := decodeCsr f .inv) (s := s) hill.2 hill.1
    rw [he] at heq
    exact absurd (rtlSysSlowPath_fromSystem heq.symm) hn

theorem Fetched.funct7_csr (f : Fetched) : f.funct7 = f.csr.extractLsb' 5 7 := by
  apply BitVec.eq_of_getLsbD_eq
  intro i hi
  unfold Fetched.funct7 Fetched.csr Fetched.bits
  simp only [BitVec.getLsbD_extractLsb']
  rw [decide_eq_true (show 5 + i < 12 by omega), Bool.true_and]
  exact congrArg (fun n => decide (i < 7) && f.instr.getLsbD n) (by omega)

theorem SystemRow.type_ite [Decidable p] {a b : SystemRow} (h : (if p then a else b).type P = .I) :
    (p ∧ a.type P = .I) ∨ b.type P = .I := by
  split at h
  · next hp => exact .inl ⟨hp, h⟩
  · exact .inr h

theorem systemType_debug :
    systemType (P.build true) f = .I ↔ f.rs1 = 0 ∧ f.funct3 = 0 ∧ f.rd = 0 ∧
      (f.csr = 0 ∨ (P.rvn = true ∧ f.csr = 0x002) ∨ f.csr = 0x102 ∨ f.csr = 0x302) := by
  change (systemRow P f).type P = .I ↔ _
  constructor
  · intro h
    unfold systemRow at h
    obtain ⟨hr, -⟩ | h := SystemRow.type_ite h
    · exact ⟨hr.2.1, hr.2.2.1, hr.2.2.2, .inl hr.1⟩
    obtain ⟨-, hN⟩ | h := SystemRow.type_ite h
    · cases hN
    obtain ⟨hr, -⟩ | h := SystemRow.type_ite h
    · exact ⟨hr.2.1, hr.2.2.1, hr.2.2.2, .inr (.inr (.inl hr.1))⟩
    iterate 5
      obtain ⟨-, hN⟩ | h := SystemRow.type_ite h
      · cases hN
    obtain ⟨hr, -⟩ | h := SystemRow.type_ite h
    · exact ⟨hr.2.2.1, hr.2.2.2.1, hr.2.2.2.2, .inr (.inl ⟨hr.1, hr.2.1⟩)⟩
    obtain ⟨hr, -⟩ | h := SystemRow.type_ite h
    · exact ⟨hr.2.1, hr.2.2.1, hr.2.2.2, .inr (.inr (.inr hr.1))⟩
    iterate 6
      obtain ⟨-, hN⟩ | h := SystemRow.type_ite h
      · cases hN
    cases h
  · rintro ⟨hs, h3, hd, hc⟩
    have h7 := f.funct7_csr
    obtain hc | ⟨hr, hc⟩ | hc | hc := hc
    all_goals rw [hc] at h7
    · have hrow : systemRow P f = .ecall := by simp [systemRow, hs, h3, hd, hc]
      rw [hrow]
      rfl
    · have hrow : systemRow P f = .uret := by simp [systemRow, hs, h3, hd, hc, h7, hr]
      rw [hrow]
      exact if_pos hr
    · have hrow : systemRow P f = .sret := by simp [systemRow, hs, h3, hd, hc]
      rw [hrow]
      rfl
    · have hrow : systemRow P f = .mret := by simp [systemRow, hs, h3, hd, hc, h7]
      rw [hrow]
      rfl

theorem systemType_release :
    systemType (P.build false) f = .I ↔ f.funct3 = 0 ∧
      (f.csr = 0 ∨ (P.rvn = true ∧ f.csr = 0x002) ∨ f.csr = 0x102 ∨ f.csr = 0x302) := by
  change (if _ then InstrType.I else .N) = .I ↔ _
  split
  · next h => exact ⟨fun _ => h, fun _ => rfl⟩
  · next h => exact ⟨fun h' => (by cases h'), fun h' => absurd h' h⟩

theorem outcome_iff (h : f.IsSystem) :
    exec (P.build true) (tableMain (P.build true) f) s =
        exec (P.build false) (tableMain (P.build false) f) s ↔
      (systemRow P f = .inv →
        (P.share = true ∨ P.reportIllegalInstr = false) ∧ SystemRejects P f s) := by
  rw [h.tableMain_eq, h.tableMain_eq, tableSystem_release, tableSystem_debug,
    exec_build P false f .system (.inl rfl)]
  by_cases hr : systemRow P f = .inv
  · rw [if_pos hr, exec_build P true f .inv (.inr rfl), outcome_reserved h hr]
    exact ⟨fun hs _ => hs, fun hs => hs hr⟩
  · rw [if_neg hr, exec_build P true f .system (.inl rfl)]
    exact ⟨fun _ hr' => absurd hr' hr, fun _ => rfl⟩

theorem release_blockEnd (h : f.IsSystem) :
    (systemType (P.build false) f = .I ↔
        (tableMain (P.build false) f).CanJump (P.build false)) ↔
      ¬ (P.rvDebug = true ∧ f.funct3 = 0 ∧ f.csr = 1) ∧
        (P.share = true → f.funct3 = 0 → f.csr = 0 → f.rs1 = 0 ∧ f.rd = 0) := by
  rw [h.tableMain_eq, tableSystem_release, canJump_build P false f .system (.inl rfl), canJump_iff h,
    systemType_release]
  constructor
  · intro hiff
    constructor
    · rintro ⟨hb, h3, hc⟩
      obtain ⟨-, hl⟩ := hiff.mpr ⟨h3, .inr (.inl ⟨hb, hc⟩)⟩
      rw [hc] at hl
      simp at hl
    · intro hs h3 hc
      obtain ⟨-, hl⟩ := hiff.mp ⟨h3, .inl hc⟩
      rw [hc] at hl
      obtain ⟨-, hl⟩ | hl := hl
      · exact hl hs
      · simp at hl
  · rintro ⟨hb, he⟩
    constructor
    · rintro ⟨h3, hc | hc⟩
      · exact ⟨h3, .inl ⟨hc, fun hs => he hs h3 hc⟩⟩
      · exact ⟨h3, .inr (.inr hc)⟩
    · rintro ⟨h3, ⟨hc, -⟩ | ⟨hr, hc⟩ | hc⟩
      · exact ⟨h3, .inl hc⟩
      · exact absurd ⟨hr, h3, hc⟩ hb
      · exact ⟨h3, .inr hc⟩

theorem SystemJumps.listed (hj : SystemJumps P f) (hb : ¬ (P.rvDebug = true ∧ f.csr = 1))
    (hr : systemRow P f ≠ .inv) : f.rs1 = 0 ∧ f.rd = 0 := by
  obtain ⟨h3, hc⟩ := hj
  have hl : PrivListed P f := by
    by_contra hn
    exact hr (systemRow_inv.mpr (.inr ⟨h3, hn⟩))
  have h7 := f.funct7_csr
  obtain ⟨hd, ⟨hs, -⟩ | hv | ⟨-, hv⟩⟩ := hl
  · exact ⟨hs, hd⟩
  all_goals
    rw [h7] at hv
    obtain ⟨hc, -⟩ | hb' | ⟨-, hc⟩ | hc | hc := hc
    · rw [hc] at hv
      exact absurd hv (by decide)
    · exact absurd hb' hb
    all_goals
      rw [hc] at hv
      exact absurd hv (by decide)

theorem debug_blockEnd (h : f.IsSystem) (hb : ¬ (P.rvDebug = true ∧ f.funct3 = 0 ∧ f.csr = 1)) :
    systemType (P.build true) f = .I ↔ (tableMain (P.build true) f).CanJump (P.build true) := by
  rw [h.tableMain_eq, tableSystem_debug, systemType_debug]
  by_cases hr : systemRow P f = .inv
  · rw [if_pos hr, canJump_build P true f .inv (.inr rfl)]
    refine ⟨?_, fun hj => absurd hj not_canJump_inv⟩
    rintro ⟨hs, h3, hd, hc⟩
    obtain h4 | ⟨-, hn⟩ := systemRow_inv.mp hr
    · rw [h3] at h4
      exact absurd h4 (by decide)
    · exfalso
      obtain hc | hc | hc | hc := hc
      · exact hn ⟨hd, .inl ⟨hs, .inl hc⟩⟩
      · exact hn ⟨hd, .inl ⟨hs, .inr (.inr (.inr (.inr (.inl hc))))⟩⟩
      · exact hn ⟨hd, .inl ⟨hs, .inr (.inr (.inl hc))⟩⟩
      · exact hn ⟨hd, .inl ⟨hs, .inr (.inr (.inr (.inr (.inr (.inl hc)))))⟩⟩
  · rw [if_neg hr, canJump_build P true f .system (.inl rfl), canJump_iff h]
    constructor
    · rintro ⟨hs, h3, hd, hc | hc⟩
      · exact ⟨h3, .inl ⟨hc, fun _ => ⟨hs, hd⟩⟩⟩
      · exact ⟨h3, .inr (.inr hc)⟩
    · intro hj
      have hb' : ¬ (P.rvDebug = true ∧ f.csr = 1) := fun ⟨hd, hc⟩ => hb ⟨hd, hj.1, hc⟩
      obtain ⟨hs, hd⟩ := hj.listed hb' hr
      obtain ⟨h3, ⟨hc, -⟩ | hc | hc⟩ := hj
      · exact ⟨hs, h3, hd, .inl hc⟩
      · exact absurd hc hb'
      · exact ⟨hs, h3, hd, .inr hc⟩

/-- Both decoders of the system instructions do the same in a state and end basic blocks at what can
jump, exactly if a word without an entry in the table is refused by the slow path as well, and the
word is neither an `ebreak` that traps nor an `ecall` with registers in a build that refuses it. -/
theorem system_decoders_agree_iff (P : Platform) (f : Fetched) (s : Machine) (h : f.IsSystem) :
    DecodersAgree P f s ↔ DecodersSafe P f s := by
  constructor
  · rintro ⟨hout, hend⟩
    obtain ⟨hb, he⟩ := (release_blockEnd h).mp (hend false)
    exact ⟨(outcome_iff h).mp hout, hb, he⟩
  · rintro ⟨hres, hb, he⟩
    refine ⟨(outcome_iff h).mpr hres, ?_⟩
    intro debug
    cases debug with
    | true => exact debug_blockEnd h hb
    | false => exact (release_blockEnd h).mpr ⟨hb, he⟩

/-- A word of the major opcode at the start of memory. -/
def systemWord (instr : BitVec 32) : Fetched := ⟨0x80000000, 0x80000004, instr, .direct, false⟩

theorem system_decoders_agree_mret :
    (systemWord 0x30200073).IsSystem ∧ DecodersAgree (Platform.bare .standalone)
      (systemWord 0x30200073) (Machine.reset (Platform.bare .standalone) fun _ => 0) := by
  have hf : (systemWord 0x30200073).IsSystem := by decide
  refine ⟨hf, (system_decoders_agree_iff _ _ _ hf).mpr ⟨?_, ?_, ?_⟩⟩
  · intro h
    exact absurd h (by decide)
  · decide
  · decide

/-- With the reserved `funct3 = 100` the release build writes the immediate to the CSR, where the
DEBUG build raises an illegal instruction. -/
theorem reserved_word_executed :
    (systemWord 0x3402c0f3).IsSystem ∧ (systemWord 0x3402c0f3).funct3 = 4 ∧
      exec ((Platform.bare .reference).build true)
        (tableMain ((Platform.bare .reference).build true) (systemWord 0x3402c0f3))
          (Machine.reset (Platform.bare .reference) fun _ => 0) =
        .error illegalStop (Machine.reset (Platform.bare .reference) fun _ => 0) ∧
      (∃ t, exec ((Platform.bare .reference).build false)
        (tableMain ((Platform.bare .reference).build false) (systemWord 0x3402c0f3))
          (Machine.reset (Platform.bare .reference) fun _ => 0) = .ok () t ∧ t.csr .mscratch = 5) ∧
      ¬ DecodersAgree (Platform.bare .reference) (systemWord 0x3402c0f3)
        (Machine.reset (Platform.bare .reference) fun _ => 0) := by
  have hdebug : exec ((Platform.bare .reference).build true)
      (tableMain ((Platform.bare .reference).build true) (systemWord 0x3402c0f3))
        (Machine.reset (Platform.bare .reference) fun _ => 0) =
      .error illegalStop (Machine.reset (Platform.bare .reference) fun _ => 0) := rfl
  have hrelease : ∃ t, exec ((Platform.bare .reference).build false)
      (tableMain ((Platform.bare .reference).build false) (systemWord 0x3402c0f3))
        (Machine.reset (Platform.bare .reference) fun _ => 0) = .ok () t ∧ t.csr .mscratch = 5 :=
    ⟨_, rfl, rfl⟩
  refine ⟨by decide, by decide, hdebug, hrelease, fun h => ?_⟩
  obtain ⟨t, ht, -⟩ := hrelease
  have hout := h.outcome
  rw [hdebug, ht] at hout
  cases hout

end Agreement

end Nemu
