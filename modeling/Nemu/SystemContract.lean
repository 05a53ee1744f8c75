import Nemu.InstrContract
import Nemu.TrapTarget

namespace Nemu

open Effect

set_option autoImplicit true

variable {P : Platform} {q : Machine → Prop} {s t : Machine}

/-- A CSR that `csr_is_legal` lets through. -/
structure LegalCsr (P : Platform) (s : Machine) (addr : BitVec 12) (pc : Word) (c : Csr) :
    Prop where
  exist : Csr.ofAddr P.toConfig addr = some c
  mode : (addr.extractLsb' 8 2).toNat ≤ s.mode.toNat
  trusted : P.dasics → dasicsInTrustedZone s pc

theorem csrIsLegal_ok (h : csrIsLegal P addr w pc s = .ok r t) :
    t = s ∧ ∀ c, r = some c → LegalCsr P s addr pc c := by
  unfold csrIsLegal at h
  obtain ⟨_, _, hget, h1⟩ := ok_of_bind h
  cases hget
  cases hc : Csr.ofAddr P.toConfig addr with
  | none =>
    simp only [hc] at h1
    obtain ⟨_, _, ha, h2⟩ := ok_of_bind h1
    obtain ⟨rfl, -⟩ := assert_ok ha
    cases h2
    exact ⟨rfl, fun c hc => by cases hc⟩
  | some c =>
    simp only [hc] at h1
    obtain ⟨_, _, ha, h2⟩ := ok_of_bind h1
    obtain ⟨rfl, hmode, htrusted⟩ := assert_ok ha
    split at h2
    · cases h2
      exact ⟨rfl, fun c hc => by cases hc⟩
    · cases h2
      refine ⟨rfl, fun c' hc' => ?_⟩
      cases hc'
      exact ⟨hc, hmode, htrusted⟩

theorem csrIsLegal_data : (dataEffect P q).Within (csrIsLegal P addr w pc) := by
  refine .bind (.read _) fun s => ?_
  split
  · exact .bind (assert_data _ rfl) fun _ => .ret _ _
  · refine .bind (assert_data _ rfl) fun _ => ?_
    split
    · exact .ret _ _
    · exact .ret _ _

theorem csrReadPrepare_data : (dataEffect P q).Within (csrReadPrepare P c) := by
  unfold csrReadPrepare
  split
  · exact updateMstatusSd_data
  · exact .ret _ _

theorem eraseData_setMtip (b : Option Bool) (s : Machine) :
    (setMtip b s).eraseData = s.eraseData := by
  rw [← Machine.eraseData_eraseAccess, eraseAccess_setMtip, Machine.eraseData_eraseAccess]

theorem fpu_or_illegal_data (v : Word) :
    (dataEffect P q).Within (if P.fpuNone then longjmpException .II else pure v) := by
  split
  · exact illegal_data
  · exact .ret _ _

theorem csrReadValue_data : (dataEffect P q).Within (csrReadValue P c) := by
  refine .bind (.read _) fun s => ?_
  cases c with
  | pmpaddr i =>
    dsimp only
    split
    · exact illegal_data
    · split
      · exact .ret _ _
      · exact .ret _ _
  | fcsr | fflags | frm => exact fpu_or_illegal_data _
  | mtime => exact .bind (.update fun s => eraseData_setMtip _ _) fun _ => .ret _ _
  | satp =>
    dsimp only
    split
    · exact illegal_data
    · exact .ret _ _
  | _ => exact .ret _ _

theorem csrRead_data : (dataEffect P q).Within (csrRead P c) :=
  .bind csrReadPrepare_data fun _ => csrReadValue_data

theorem csrrw_read_data : (dataEffect P q).Within (csrrw P true none addr pc) := by
  refine .bind csrIsLegal_data fun r => ?_
  cases r with
  | none => exact illegal_data
  | some c => exact csrRead_data

theorem illegalIf_ok [Decidable p] (h : illegalIf p s = .ok () t) : t = s ∧ ¬ p := by
  unfold illegalIf at h
  split at h
  · cases h
  · next hp =>
    cases h
    exact ⟨rfl, hp⟩

/-- What is left of `csr_write` when the conditions for an exception have been tested. -/
def csrWriteTail (P : Platform) (c : Csr) (x : Word) : Exec Unit := do
  modify fun s => csrStore P s c x
  csrWriteFp P c
  csrWriteSd P c
  csrWriteMmu c

/-- `ecall` and `ebreak`, which trap without leaving the interpreter loop. -/
def Decode.traps (P : Platform) (d : Decode) : Bool :=
  d.id = .system && d.funct3 = 0 && (d.isEcall P || (P.rvDebug && d.privId = 1))

section Returns

/-- The states that the three returns pass to `update_mmu_state`. -/
def uretEntry (P : Platform) (s : Machine) : Machine :=
  ({ s.mapMstatus (popStatus P .U) with mode := .U } : Machine).mapMstatus (setBit 17 false)

def sretEntry (P : Platform) (s : Machine) : Machine :=
  let t := s.mapMstatus (popStatus P .S)
  let u := ({ t with mode := t.spp } : Machine)
  (u.mapMstatus fun x => if u.spp ≠ .M then setBit 17 false x else x).mapMstatus (setBit 8 false)

def mretEntry (P : Platform) (s : Machine) : Machine :=
  let t := s.mapMstatus (popStatus P .M)
  let u := ({ t with mode := t.mpp } : Machine)
  (u.mapMstatus fun x => if u.mpp ≠ .M then setBit 17 false x else x).mapMstatus
    (BitField.insert 11 Mode.U.bits)

/-- The end of a return: the MMU state is refreshed and the saved program counter returned. -/
def retTail (epc : Csr) : Exec Word := do
  updateMmuState
  let s ← get
  pure (s.csr epc)

theorem uret_eq (P : Platform) (s : Machine) : uret P s = retTail .uepc (uretEntry P s) := rfl

theorem sret_eq (P : Platform) (s : Machine) :
    sret P s = (illegalIf ((s.mode = .S ∧ s.tsr) ∨ s.mode < .S) >>= fun _ => fun s =>
      retTail .sepc (sretEntry P s)) s := rfl

theorem mret_eq (P : Platform) (s : Machine) :
    mret P s = (illegalIf (s.mode < .M) >>= fun _ => fun s => retTail .mepc (mretEntry P s)) s :=
  rfl

end Returns

section Blind

/-- The CSRs that the privileged instructions write. -/
def trapCsr : Csr → Bool
  | .mstatus | .dfreason | .ucause | .scause | .mcause | .uepc | .sepc | .mepc | .utval | .stval
  | .mtval => true
  | _ => false

theorem Level.trapCsr_of (l : Level) :
    trapCsr l.cause = true ∧ trapCsr l.epc = true ∧ trapCsr l.tval = true := by
  cases l <;> exact ⟨rfl, rfl, rfl⟩

/-- A view of the state that shows nothing of what traps, returns and data accesses change. -/
structure TrapBlind (view : Machine → τ) : Prop where
  mode : ∀ (s : Machine) (m : Mode), view { s with mode := m } = view s
  csr : ∀ (s : Machine) (c : Csr) (x : Word), trapCsr c = true → view (s.setCsr c x) = view s
  mmu : ∀ s : Machine, view s.eraseMmu = view s
  jump : ∀ s : Machine, view s.eraseJump = view s
  fault : ∀ s : Machine, view s.eraseFault = view s

variable {view : Machine → τ} {d : Decode}

theorem TrapBlind.of_jump (hv : TrapBlind view) {m : Exec α} (h : (jumpEffect P q).Within m) :
    (keep Stop view).Within m := by
  intro s
  refine (h s).mono (fun t ht => ?_) fun e t ht => ?_
  · have h1 := congrArg view (show t.eraseJump = s.eraseJump from ht)
    rw [hv.jump, hv.jump] at h1
    exact h1
  · have h1 := congrArg view ht.frame
    rw [hv.jump, hv.fault, hv.fault, hv.jump] at h1
    exact h1

theorem TrapBlind.of_data (hv : TrapBlind view) {m : Exec α} (h : (dataEffect P q).Within m) :
    (keep Stop view).Within m := by
  have h1 : (jumpEffect P fun _ => True).Within m := Within.toJump h fun _ _ => trivial
  exact hv.of_jump h1

theorem TrapBlind.modifyMstatus (hv : TrapBlind view) :
    (keep Stop view).Within (modifyMstatus f) :=
  .update fun s => hv.csr s .mstatus _ rfl

theorem TrapBlind.updateMmuState (hv : TrapBlind view) :
    (keep Stop view).Within updateMmuState := by
  intro s
  rw [keep_iff]
  have h := congrArg view (updateMmuState_erase.final_eq s)
  rw [hv.mmu, hv.mmu] at h
  exact h

theorem TrapBlind.illegalIf (hv : TrapBlind view) (p : Prop) [Decidable p] :
    (keep Stop view).Within (illegalIf p) := by
  have h : (dataEffect (Platform.bare .standalone) fun _ => False).Within (Nemu.illegalIf p) :=
    illegalIf_data p
  exact hv.of_data h

theorem TrapBlind.trapEntry (hv : TrapBlind view) (P : Platform) (no epc : Word) (s : Machine) :
    view (trapEntry P no epc s) = view s := by
  unfold Nemu.trapEntry
  dsimp only
  rw [hv.mode]
  have hl := Level.trapCsr_of (trapLevel P s no)
  split
  · rw [hv.csr _ _ _ rfl, hv.csr _ _ _ hl.2.1, hv.csr _ _ _ hl.1]
  · rw [hv.csr _ _ _ hl.2.2, hv.csr _ _ _ rfl, hv.csr _ _ _ hl.2.1, hv.csr _ _ _ hl.1]

theorem TrapBlind.raiseIntr (hv : TrapBlind view) :
    (keep Stop view).Within (raiseIntr P no epc) := by
  intro s
  rw [keep_iff]
  have h := congrArg view (raiseIntr_final P no epc s)
  rw [hv.mmu, hv.mmu, hv.trapEntry] at h
  exact h

theorem TrapBlind.rtlJ (hv : TrapBlind view) : (keep Stop view).Within (rtlJ P target) := by
  have h : (jumpEffect P (BadExec .inv)).Within (Nemu.rtlJ P target) := rtlJ_jump
  exact hv.of_jump h

theorem TrapBlind.rtlTrap (hv : TrapBlind view) : (keep Stop view).Within (rtlTrap P d no) := by
  have hd : (keep Stop view).Within (setCsr .dfreason FaultReason.DFR_EF.code) :=
    .update fun s => hv.csr s _ _ rfl
  refine .bind (.bind (.read _) fun s => ?_) fun _ => .bind hv.rtlJ fun _ => .ret _ _
  dsimp only
  split
  · exact .bind hd fun _ => hv.raiseIntr
  split
  · exact .bind hd fun _ => hv.raiseIntr
  · exact hv.raiseIntr

theorem TrapBlind.privInstr (hv : TrapBlind view) : (keep Stop view).Within (privInstr P op) := by
  have hmode : ∀ g : Machine → Mode, (keep Stop view).Within
      (modify fun s => { s with mode := g s } : Exec Unit) := fun g => .update fun _ => hv.mode _ _
  unfold Nemu.privInstr
  split
  · exact .bind hv.modifyMstatus fun _ => .bind (hmode _) fun _ => .bind hv.modifyMstatus fun _ =>
      .bind hv.updateMmuState fun _ => .bind (.read _) fun _ => .ret _ _
  split
  · exact .bind (.read _) fun _ => .bind (hv.illegalIf _) fun _ =>
      .bind hv.modifyMstatus fun _ => .bind (hmode _) fun _ => .bind (.read _) fun _ =>
        .bind hv.modifyMstatus fun _ => .bind hv.modifyMstatus fun _ =>
          .bind hv.updateMmuState fun _ => .bind (.read _) fun _ => .ret _ _
  split
  · exact .bind (.read _) fun _ => .bind (hv.illegalIf _) fun _ =>
      .bind hv.modifyMstatus fun _ => .bind (hmode _) fun _ => .bind (.read _) fun _ =>
        .bind hv.modifyMstatus fun _ => .bind hv.modifyMstatus fun _ =>
          .bind hv.updateMmuState fun _ => .bind (.read _) fun _ => .ret _ _
  · exact hv.of_data (q := fun _ => False) privFence_data

theorem TrapBlind.sysPriv (hv : TrapBlind view) : (keep Stop view).Within (sysPriv P d) := by
  refine .bind (.bind (.read _) fun s => ?_) fun jpc => ?_
  · split
    · exact hv.rtlTrap
    split
    · exact hv.rtlTrap
    · exact hv.privInstr
  · split
    · exact hv.rtlJ
    · exact .ret _ _

/-- A view of the state that shows nothing of what the CSR instructions change. -/
structure CsrBlind (view : Machine → τ) : Prop where
  csr : ∀ (s : Machine) (f : Csr → Word), view { s with csr := f } = view s
  rm : ∀ (s : Machine) (r : BitVec 32), view { s with rmCache := r } = view s
  mmu : ∀ s : Machine, view s.eraseMmu = view s
  data : ∀ s : Machine, view s.eraseData = view s
  fault : ∀ s : Machine, view s.eraseFault = view s

theorem CsrBlind.of_data (hv : CsrBlind view) {m : Exec α} (h : (dataEffect P q).Within m) :
    (keep Stop view).Within m := by
  intro s
  refine (h s).mono (fun t ht => ?_) fun e t ht => ?_
  · have h1 := congrArg view (show t.eraseData = s.eraseData from ht)
    rw [hv.data, hv.data] at h1
    exact h1
  · have h1 := congrArg view ht.frame
    rw [hv.data, hv.fault, hv.fault, hv.data] at h1
    exact h1

theorem CsrBlind.modifyMstatus (hv : CsrBlind view) :
    (keep Stop view).Within (modifyMstatus f) :=
  .update fun s => hv.csr s _

theorem csrStore_only (P : Platform) (s : Machine) (c : Csr) (x : Word) :
    csrStore P s c x = { s with csr := (csrStore P s c x).csr } := by
  cases c with
  | misa | pmpaddr _ | pmpcfg _ | satp =>
    unfold csrStore
    dsimp only
    split <;> rfl
  | _ => rfl

theorem CsrBlind.csrWriteTail (hv : CsrBlind view) :
    (keep Stop view).Within (csrWriteTail P c x) := by
  have hstore : ∀ s, view (csrStore P s c x) = view s := by
    intro s
    rw [csrStore_only]
    exact hv.csr s _
  refine .bind (.update hstore) fun _ => .bind ?_ fun _ => .bind ?_ fun _ => ?_
  · unfold csrWriteFp
    split
    · exact .bind hv.modifyMstatus fun _ => .bind (.read _) fun _ =>
        .bind (hv.of_data (P := P) (q := fun _ => False) (assert_data _ rfl)) fun _ =>
          .update fun s => hv.rm s _
    · exact .ret _ _
  · unfold csrWriteSd
    split
    · exact hv.modifyMstatus
    · exact .ret _ _
  · unfold csrWriteMmu
    split
    · intro s
      rw [keep_iff]
      have h := congrArg view (updateMmuState_erase.final_eq s)
      rw [hv.mmu, hv.mmu] at h
      exact h
    · exact .ret _ _

theorem CsrBlind.csrrw_write (hv : CsrBlind view) :
    (keep Stop view).Within (csrrw P false (some x) addr pc) := by
  refine .bind (hv.of_data (q := fun _ => False) csrIsLegal_data) fun r => ?_
  cases r with
  | none => exact hv.of_data (P := P) (q := fun _ => False) illegal_data
  | some c =>
    exact .bind (.bind (.read _) fun s =>
      .bind (hv.of_data (P := P) (q := fun _ => False) (illegalIf_data _)) fun _ =>
        hv.csrWriteTail) fun _ => .ret _ _

theorem CsrBlind.sysCsr (hv : CsrBlind view) : (keep Stop view).Within (sysCsr P d) := by
  have hreg : ∀ v, (keep Stop view).Within (writeReg d.dest.preg v) := fun v =>
    hv.of_data (P := P) (q := fun _ => False) writeReg_data
  have hread : (keep Stop view).Within (readReg d.src1.preg) :=
    hv.of_data (P := P) (q := fun _ => False) readReg_data
  refine .bind (hv.of_data (q := fun _ => False) csrrw_read_data) fun old => ?_
  split
  · exact .bind hread fun src => .bind hv.csrrw_write fun _ => hreg old
  · exact hreg old

end Blind

end Nemu
