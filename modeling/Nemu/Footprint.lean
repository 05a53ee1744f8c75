import Nemu.CsrWrites
import Nemu.FetchContract

namespace Nemu

open Effect

set_option autoImplicit true

namespace ExecId

/-- The executors that write their destination operand. -/
def writesDest : ExecId → Bool
  | .lui | .auipc | .computeReg _ | .computeImm _ | .compressedReg _ | .compressedImm _ | .c_mv | .c_li
  | .p_li_0 | .p_li_1 | .p_inc | .p_dec | .p_sext_w | .rvbReg _ | .rvbImm _ | .rvkReg _ | .rvkImm _
  | .load _ _ _ | .jal | .dasicscall_j | .jalr | .dasicscall_jr | .atomic | .system | .fload _ _
  | .fop _ _ | .funary _ _ _ | .fcvtToI _ _ | .fcmp _ _ | .fmadd _ _ _ | .fsgnj _ | .fsgnjn _
  | .fsgnjx _ | .fmv_x_w | .fmv_x_d | .fmv_w_x | .fmv_d_x | .fclass _ => true
  | _ => false

/-- The executors that write an FP register or the exception flags. -/
def usesFpu : ExecId → Bool
  | .fload _ _ | .fop _ _ | .funary _ _ _ | .fcvtToI _ _ | .fcmp _ _ | .fmadd _ _ _ | .fsgnj _
  | .fsgnjn _ | .fsgnjx _ | .fmv_w_x | .fmv_d_x => true
  | _ => false

/-- The executors that record their access for the query. -/
def records : ExecId → Bool
  | .load false _ _ | .store _ _ | .atomic | .fload _ _ | .fstore _ _ | .vector _ => true
  | _ => false

def isVector : ExecId → Bool
  | .vector _ => true
  | _ => false

end ExecId

namespace Decode

def funct5 (d : Decode) : BitVec 5 := d.instr.extractLsb' 27 5

structure IsLr (d : Decode) : Prop where
  id : d.id = .atomic
  op : d.funct5 = 0b00010

structure IsSc (d : Decode) : Prop where
  id : d.id = .atomic
  op : d.funct5 = 0b00011

/-- A write of the CSR `c` by a CSR instruction. -/
structure StoresCsr (P : Platform) (d : Decode) (c : Csr) : Prop where
  id : d.id = .system
  priv : d.funct3 ≠ 0
  addr : Csr.ofAddr P.toConfig d.csrId = some c
  writes : d.csrWrites = true

end Decode

/-- Where an instruction may jump to from the state `s`. -/
inductive GoesTo (P : Platform) (d : Decode) (s : Machine) : Word → Prop where
  | direct : d.id = .jal ∨ d.id = .p_jal ∨ d.id = .c_j ∨ d.id = .dasicscall_j →
      GoesTo P d s d.src1.imm
  | branch : d.id.cfiType = .branch → GoesTo P d s d.dest.imm
  | next : d.id.cfiType = .branch → GoesTo P d s d.snpc
  | indirect (x : Word) : d.id = .jalr ∨ d.id = .dasicscall_jr ∨ (d.id = .c_jalr ∧ P.share = true) →
      GoesTo P d s (x &&& ~~~1)
  | ret : d.id = .p_ret → GoesTo P d s (jumpTarget P (s.gpr 1))
  | reg : d.id = .c_jr ∨ d.id = .c_jalr → GoesTo P d s (jumpTarget P (s.readLoc d.src1.preg))
  | trap (xtvec xcause : Word) : d.id = .system → GoesTo P d s (getTrapPc xtvec xcause)
  | epc (l : Level) : d.id = .system → GoesTo P d s (s.csr l.epc)
  | null : d.id = .system → GoesTo P d s 0
  | guided : s.guidedExec = true → GoesTo P d s s.guide.jumpTarget

/-- The elementary changes that the executor of an instruction makes. -/
inductive Change (P : Platform) (d : Decode) : Machine → Machine → Prop where
  /-- A memory access, a fault or a reading of the timer. -/
  | access : t.eraseFault.eraseAccess = s.eraseFault.eraseAccess → Change P d s t
  | dest : d.id.writesDest = true → Change P d s (s.writeLoc d.dest.preg v)
  | link : d.id = .p_jal ∨ d.id = .c_jalr → Change P d s (s.writeLoc (.gpr 1) v)
  | reserve : d.IsLr → Change P d s { s with lrAddr := a, lrValid := 1 }
  | release : d.IsSc → Change P d s { s with lrValid := 0 }
  | record : d.id.records = true →
      Change P d s { s with memEvent := ⟨s.currentPc, true, isLoad, va⟩ }
  | dirty : d.id.usesFpu = true → Change P d s (s.mapMstatus (fpSetDirtyVal P))
  | flags (f : BitVec 5) : d.id.usesFpu = true →
      Change P d s ((s.setCsr .fcsr (BitField.insert 0 f (s.csr .fcsr))).setCsr .fflags (f.setWidth 64))
  | vreg : d.id.isVector = true → Change P d s { s with vr := vr }
  | vgpr : d.id.isVector = true → r ≠ 0 → Change P d s (s.writeLoc (.gpr r) v)
  | vcsr (c : VCsr) : d.id.isVector = true → Change P d s (s.setCsr c.csr v)
  | mie : d.id = .nemu_trap → Change P d s (s.setCsr .mie v)
  | jump : GoesTo P d s a → Change P d s { s with pc := a }
  | dretpc : d.id.isDasicscall = true → Change P d s (s.setCsr .dretpc v)
  | sd : d.id = .system → Change P d s (s.mapMstatus (updateMstatusSdVal P))
  | store : d.StoresCsr P c → LegalCsr P s d.csrId d.pc c → Change P d s (csrStore P s c x)
  | fpCsr : d.StoresCsr P c → isFpCsr c = true → Change P d s (s.mapMstatus (fpSetDirtyVal P))
  | rm : d.id = .system → Change P d s { s with rmCache := rm }
  | mmu : d.id = .system → t.eraseMmu = s.eraseMmu → Change P d s t
  | trap (no : Word) : d.id = .system → Change P d s (trapEntry P no d.pc s)
  | uret : d.id = .system → Change P d s (uretEntry P s)
  | sret : d.id = .system → Change P d s (sretEntry P s)
  | mret : d.id = .system → Change P d s (mretEntry P s)

def changeEffect (P : Platform) (d : Decode) : Effect Stop Machine := closure Stop (Change P d)

variable {P : Platform} {d : Decode} {s t : Machine} {q : Machine → Prop}

theorem Within.changes {m : Exec α} (h : (accessEffect P q).Within m) :
    (changeEffect P d).Within m := by
  intro s
  refine (h s).mono ?_ ?_
  · intro t ht
    refine .single (.access ?_)
    change t.eraseAccess = s.eraseAccess at ht
    rw [← Machine.eraseFault_eraseAccess, ← Machine.eraseFault_eraseAccess, ht]
  · intro e t ht
    refine .single (.access ?_)
    rw [ht.frame, Machine.eraseFault_eraseAccess]

section Primitive

theorem readReg_changes : (changeEffect P d).Within (readReg l) :=
  .bind (.read _) fun _ => .ret _ _

theorem writeDest_changes (h : d.id.writesDest = true) :
    (changeEffect P d).Within (writeReg d.dest.preg v) :=
  .one fun _ => .dest h

theorem illegal_changes : (changeEffect P d).Within (longjmpException .II : Exec α) :=
  .raise fun _ => .refl

theorem throw_changes (e : Stop) : (changeEffect P d).Within (throw e : Exec α) :=
  .raise fun _ => .refl

theorem assert_changes (p : Prop) [Decidable p] : (changeEffect P d).Within (assert p a) := by
  unfold assert
  split
  · exact .ret _ _
  · exact throw_changes _

theorem recordMemEvent_changes (h : d.id.records = true) :
    (changeEffect P d).Within (recordMemEvent P isLoad va) := by
  intro s
  unfold recordMemEvent
  refine At.update ?_
  split
  · exact .single (.record h)
  · exact .refl

theorem setAmo_changes : (changeEffect P d).Within (setAmo b) :=
  .one fun _ => .access rfl

theorem fpSetDirty_changes (h : d.id.usesFpu = true) : (changeEffect P d).Within (fpSetDirty P) :=
  .one fun _ => .dirty h

theorem isaFpSetEx_changes (h : d.id.usesFpu = true) : (changeEffect P d).Within (isaFpSetEx P ex) :=
  .bind (.one fun _ => .flags _ h) fun _ => fpSetDirty_changes h

end Primitive

section Access

theorem rtlLm_changes (hw : d.id.writesDest = true) (hr : d.id.records = true) :
    (changeEffect P d).Within (rtlLm P d d.dest.preg addr off len m) :=
  .bind readReg_changes fun _ => .bind (Within.changes (vaddrRead_access m)) fun _ =>
    .bind (writeDest_changes hw) fun _ => .bind readReg_changes fun _ => recordMemEvent_changes hr

theorem rtlSm_changes (hr : d.id.records = true) :
    (changeEffect P d).Within (rtlSm P d data addr off len m) :=
  .bind readReg_changes fun _ => .bind (Within.changes (vaddrWrite_access m)) fun _ =>
    recordMemEvent_changes hr

theorem rtlLms_changes : (changeEffect P d).Within (rtlLms P d addr off len m) :=
  .bind readReg_changes fun _ => .bind (Within.changes (vaddrRead_access m)) fun _ =>
    .bind (assert_changes _) fun _ => .ret _ _

theorem lrStep_changes (h : d.IsLr) : (changeEffect P d).Within (lrStep P d width) :=
  .bind (.read _) fun _ => .bind (assert_changes _) fun _ => .bind rtlLms_changes fun _ =>
    .bind (writeDest_changes (by rw [h.id]; rfl)) fun _ => .bind readReg_changes fun _ =>
      .one fun _ => .reserve h

theorem setScAmo_changes : (changeEffect P d).Within (setScAmo P b) := by
  unfold setScAmo
  split
  · exact setAmo_changes
  · exact .ret _ _

theorem scFailPaddr_changes (va : Word) : (changeEffect P d).Within (scFailPaddr P va m) := by
  unfold scFailPaddr
  split
  · exact Within.changes (q := fun v => ¬ Permitted v false) (isaMmuTranslate_access fun _ h => h)
  · exact .ret _ _

theorem scFailCheck_changes : (changeEffect P d).Within (scFailCheck P d width) := by
  refine .bind readReg_changes fun a => .bind (Within.changes (q := fun _ => False) isaMmuCheck_access)
    fun m => .bind (scFailPaddr_changes a) fun paddr => .bind (.read _) fun s => ?_
  split
  · exact Within.changes (q := fun _ => False) (faultAt_access rfl rfl a)
  · exact .ret _ _

theorem scStep_changes (h : d.IsSc) : (changeEffect P d).Within (scStep P d width) := by
  have hw : d.id.writesDest = true := by rw [h.id]; rfl
  have hr : d.id.records = true := by rw [h.id]; rfl
  refine .bind setScAmo_changes fun _ => .bind (.read _) fun s => ?_
  split
  · refine .bind (.bind readReg_changes fun _ => .bind (rtlSm_changes hr) fun _ => ?_) fun _ =>
      .bind (writeDest_changes hw) fun _ => setScAmo_changes
    exact .one fun _ => .release h
  · exact .bind scFailCheck_changes fun _ => .bind (writeDest_changes hw) fun _ => setScAmo_changes

theorem amoStep_changes (h : d.id = .atomic) : (changeEffect P d).Within (amoStep P d f w) := by
  refine .bind setAmo_changes fun _ => .bind rtlLms_changes fun x => .bind readReg_changes fun y => ?_
  split
  · exact throw_changes _
  · exact .bind (rtlSm_changes (by rw [h]; rfl)) fun _ =>
      .bind (writeDest_changes (by rw [h]; rfl)) fun _ => setAmo_changes

theorem rtlAmoSlowPath_changes (h : d.id = .atomic) :
    (changeEffect P d).Within (rtlAmoSlowPath P d) := by
  unfold rtlAmoSlowPath
  dsimp only
  split
  · next hop => exact lrStep_changes ⟨h, hop⟩
  · split
    · next hop => exact scStep_changes ⟨h, hop⟩
    · exact amoStep_changes h

end Access

section Fpu

theorem rtlFsr_changes (h : d.id.usesFpu = true) (hw : d.id.writesDest = true) :
    (changeEffect P d).Within (rtlFsr P d.dest.preg v w) :=
  .bind (writeDest_changes hw) fun _ => fpSetDirty_changes h

theorem isaFpGetRm_changes : (changeEffect P d).Within (isaFpGetRm d) := by
  refine .bind (.read _) fun s => ?_
  split
  · exact .ret _ _
  · split
    · exact .ret _ _
    · exact illegal_changes

theorem fpCheckFs_changes : (changeEffect P d).Within fpCheckFs := by
  refine .bind (.read _) fun s => ?_
  split
  · exact illegal_changes
  · exact .ret _ _

theorem fpcallRm_changes : (changeEffect P d).Within (fpcallRm d o) := by
  unfold fpcallRm
  split
  · exact .bind isaFpGetRm_changes fun _ => .ret _ _
  · exact .ret _ _

theorem rtlFpcall_changes (h : d.id.usesFpu = true) :
    (changeEffect P d).Within (rtlFpcall P d o w x y z) := by
  refine .bind fpCheckFs_changes fun _ => .bind fpcallRm_changes fun rm => ?_
  dsimp only
  split
  · exact .bind (isaFpSetEx_changes h) fun _ => .ret _ _
  · exact .ret _ _

theorem execFload_changes (h : d.id = .fload w m) :
    (changeEffect P d).Within (execFload P d w m) := by
  have hw : d.id.writesDest = true := by rw [h]; rfl
  have hr : d.id.records = true := by rw [h]; rfl
  have hf : d.id.usesFpu = true := by rw [h]; rfl
  exact .bind (rtlLm_changes hw hr) fun _ => .bind readReg_changes fun _ => rtlFsr_changes hf hw

theorem execFmadd_changes (hf : d.id.usesFpu = true) (hw : d.id.writesDest = true) :
    (changeEffect P d).Within (execFmadd P d b b' w) :=
  .bind readReg_changes fun _ => .bind readReg_changes fun _ => .bind readReg_changes fun _ =>
    .bind (rtlFpcall_changes hf) fun _ => rtlFsr_changes hf hw

theorem execFcmp_changes (hf : d.id.usesFpu = true) (hw : d.id.writesDest = true) :
    (changeEffect P d).Within (execFcmp P d o w) := by
  refine .bind readReg_changes fun x => .bind readReg_changes fun y => .bind ?_ fun _ =>
    .bind (rtlFpcall_changes hf) fun _ => writeDest_changes hw
  intro s
  refine At.update ?_
  split
  · exact .single (.dest hw)
  · exact .refl

theorem execFsgnj_changes (hf : d.id.usesFpu = true) (hw : d.id.writesDest = true) :
    (changeEffect P d).Within (execFsgnj P d w sign) :=
  .bind readReg_changes fun _ => .bind readReg_changes fun _ => rtlFsr_changes hf hw

end Fpu

section Other

theorem execInv_changes : (changeEffect P d).Within (execInv P d) := by
  unfold execInv
  split
  · exact .bind (Within.changes vaddrIfetch_access) fun _ =>
      .bind (Within.changes vaddrIfetch_access) fun _ => throw_changes _
  · exact illegal_changes

theorem runVector_changes (h : d.id = .vector m) (k : VProg) :
    (changeEffect P d).Within (runVector P d m k) := by
  have hv : d.id.isVector = true := by rw [h]; rfl
  have hr : d.id.records = true := by rw [h]; rfl
  induction k with
  | done => exact .ret _ _
  | inv => exact execInv_changes
  | stuck => exact throw_changes _
  | get k ih => exact .bind (.read _) fun s => ih s
  | setVr r v k ih => exact .bind (.one fun _ => .vreg hv) fun _ => ih
  | setGpr r v k ih =>
    refine .bind ?_ fun _ => ih
    intro s
    refine At.update ?_
    split
    · next hne => exact .single (.vgpr hv hne)
    · exact .refl
  | setCsr c v k ih => exact .bind (.one fun _ => .vcsr c hv) fun _ => ih
  | load a len k ih =>
    exact .bind (Within.changes (vaddrRead_access m)) fun v =>
      .bind (recordMemEvent_changes hr) fun _ => ih v
  | store a len data k ih =>
    exact .bind (Within.changes (vaddrWrite_access m)) fun _ =>
      .bind (recordMemEvent_changes hr) fun _ => ih

theorem execNemuTrap_changes (h : d.id = .nemu_trap) : (changeEffect P d).Within execNemuTrap := by
  refine .bind (.read _) fun s => ?_
  split
  · exact .one fun _ => .mie h
  · split
    · exact .ret _ _
    · exact throw_changes _

theorem illegalIf_changes (p : Prop) [Decidable p] : (changeEffect P d).Within (illegalIf p) := by
  unfold illegalIf
  split
  · exact illegal_changes
  · exact .ret _ _

theorem privFence_changes : (changeEffect P d).Within (privFence P op) := by
  have hw : ∀ (p : Prop) [Decidable p], (changeEffect P d).Within (illegalWhen p) := fun p _ =>
    .bind (illegalIf_changes p) fun _ => .ret _ _
  refine .bind (.read _) fun s => ?_
  dsimp only
  repeat' split
  all_goals first | exact hw _ | exact .ret _ _ | exact illegal_changes | exact throw_changes _

end Other

section Jumps

theorem rtlJ_changes (h : GoesTo P d s a) : (changeEffect P d).At s (rtlJ P a) := by
  refine At.update ?_
  split
  · next hg => exact .single (.jump (.guided hg.2.1))
  · exact .single (.jump h)

theorem rtlJrelop_changes (h : d.id.cfiType = .branch) :
    (changeEffect P d).Within (rtlJrelop P d o x y) := by
  intro s
  refine rtlJ_changes ?_
  split
  · exact .branch h
  · exact .next h

theorem rtlSetDretpc_changes (h : d.id.isDasicscall = true) :
    (changeEffect P d).Within (rtlSetDretpc d v) := by
  refine .bind (.bind (.read _) fun s => ?_) fun _ => .one fun _ => .dretpc h
  split
  · exact .ret _ _
  · exact illegal_changes

end Jumps

section System

theorem csrIsLegal_changes : (changeEffect P d).Within (csrIsLegal P addr w pc) := by
  refine .bind (.read _) fun s => ?_
  split
  · exact .bind (assert_changes _) fun _ => .ret _ _
  · refine .bind (assert_changes _) fun _ => ?_
    split
    · exact .ret _ _
    · exact .ret _ _


variable (hid : d.id = .system)

include hid

theorem updateMmuState_changes : (changeEffect P d).Within updateMmuState := by
  intro s
  refine (updateMmuState_erase s).mono ?_ ?_
  · intro t ht
    exact .single (.mmu hid ht)
  · intro e t ht
    exact .single (.mmu hid ht)

theorem updateMstatusSd_changes : (changeEffect P d).Within (updateMstatusSd P) :=
  .one fun _ => .sd hid

theorem csrRead_changes : (changeEffect P d).Within (csrRead P c) := by
  have hfpu : ∀ v : Word, (changeEffect P d).Within
      (if P.fpuNone then longjmpException .II else pure v) := by
    intro v
    split
    · exact illegal_changes
    · exact .ret _ _
  refine .bind ?_ fun _ => .bind (.read _) fun s => ?_
  · unfold csrReadPrepare
    split
    · exact updateMstatusSd_changes hid
    · exact .ret _ _
  · cases c with
    | pmpaddr i =>
      dsimp only
      repeat' split
      all_goals first | exact illegal_changes | exact .ret _ _
    | fcsr | fflags | frm => exact hfpu _
    | mtime =>
      refine .bind (.one fun s => .access ?_) fun _ => .ret _ _
      rw [← Machine.eraseFault_eraseAccess, ← Machine.eraseFault_eraseAccess]
      exact congrArg Machine.eraseFault (eraseAccess_setMtip _ _)
    | satp =>
      dsimp only
      split
      · exact illegal_changes
      · exact .ret _ _
    | _ => exact .ret _ _

theorem csrWriteRefresh_changes (h : d.StoresCsr P c) :
    (changeEffect P d).Within (csrWriteRefresh P c) := by
  refine .bind ?_ fun _ => .bind ?_ fun _ => ?_
  · unfold csrWriteFp
    split
    · next hf =>
      refine .bind (.one fun _ => .fpCsr h hf) fun _ => .bind (.read _) fun s => ?_
      exact .bind (assert_changes _) fun _ => .one fun _ => .rm hid
    · exact .ret _ _
  · unfold csrWriteSd
    split
    · exact updateMstatusSd_changes hid
    · exact .ret _ _
  · unfold csrWriteMmu
    split
    · exact updateMmuState_changes hid
    · exact .ret _ _

theorem csrWrite_changes (h : d.StoresCsr P c) (hl : LegalCsr P s d.csrId d.pc c) :
    (changeEffect P d).At s (csrWrite P c x) := by
  refine At.bind_get (At.bind ?_ fun _ t ht => ?_)
  · exact illegalIf_changes _ s
  · obtain ⟨rfl, -⟩ := illegalIf_ok ht
    refine At.bind (At.one (.store h hl)) fun _ _ _ => ?_
    exact csrWriteRefresh_changes hid h _

theorem sysCsr_changes (hp : d.funct3 ≠ 0) : (changeEffect P d).Within (sysCsr P d) := by
  have hw : d.id.writesDest = true := by rw [hid]; rfl
  refine .bind ?_ fun old => ?_
  · refine .bind csrIsLegal_changes fun r => ?_
    cases r with
    | none => exact illegal_changes
    | some c => exact csrRead_changes hid
  · split
    · next hwr =>
      refine .bind readReg_changes fun src => .bind ?_ fun _ => writeDest_changes hw
      intro s
      refine At.bind (csrIsLegal_changes s) fun r t ht => ?_
      obtain ⟨rfl, hr⟩ := csrIsLegal_ok ht
      cases r with
      | none => exact illegal_changes _
      | some c =>
        have hl := hr c rfl
        exact At.bind (csrWrite_changes hid ⟨hid, hp, hl.exist, hwr⟩ hl) fun _ t _ => Within.ret _ _ t
    · exact writeDest_changes hw

theorem raiseIntr_changes : (changeEffect P d).Within (raiseIntr P no d.pc) := by
  intro s
  refine At.after (.trap no hid) (raiseIntr_eq P no d.pc s) ?_
  exact Within.bind (updateMmuState_changes hid) (fun _ => .bind (.read _) fun _ => .ret _ _) _

theorem hostcallTrap_changes : (changeEffect P d).Within (hostcallTrap P d.pc no d.pc) := by
  have hd : (changeEffect P d).Within (setCsr .dfreason FaultReason.DFR_EF.code) :=
    .one fun s => .access (congrArg Machine.eraseAccess (eraseFault_setCsr s _ rfl))
  refine .bind (.read _) fun s => ?_
  dsimp only
  split
  · exact .bind hd fun _ => raiseIntr_changes hid
  split
  · exact .bind hd fun _ => raiseIntr_changes hid
  · exact raiseIntr_changes hid

theorem retTail_changes (epc : Csr) : (changeEffect P d).Within (retTail epc) :=
  .bind (updateMmuState_changes hid) fun _ => .bind (.read _) fun _ => .ret _ _

theorem privInstr_changes : (changeEffect P d).Within (privInstr P op) := by
  intro s
  unfold privInstr
  split
  · exact At.after (.uret hid) (uret_eq P s) (retTail_changes hid _ _)
  split
  · refine At.congr (sret_eq P s) ?_
    exact At.bind (illegalIf_changes _ s) fun _ t _ =>
      At.after (.sret hid) rfl (retTail_changes hid .sepc _)
  split
  · refine At.congr (mret_eq P s) ?_
    exact At.bind (illegalIf_changes _ s) fun _ t _ =>
      At.after (.mret hid) rfl (retTail_changes hid .mepc _)
  · exact privFence_changes s

theorem raiseIntr_target (h : raiseIntr P no epc s = .ok v t) (u : Machine) : GoesTo P d u v := by
  rw [raiseIntr_eq] at h
  obtain ⟨_, t1, -, h1⟩ := ok_of_bind h
  cases h1
  exact .trap _ _ hid

theorem hostcallTrap_target (h : hostcallTrap P pc no epc s = .ok v t) (u : Machine) :
    GoesTo P d u v := by
  obtain ⟨_, s1, hget, h1⟩ := ok_of_bind h
  cases hget
  dsimp only at h1
  split at h1
  · obtain ⟨_, t1, -, h2⟩ := ok_of_bind h1
    exact raiseIntr_target hid h2 u
  split at h1
  · obtain ⟨_, t1, -, h2⟩ := ok_of_bind h1
    exact raiseIntr_target hid h2 u
  · exact raiseIntr_target hid h1 u

theorem retTail_target (l : Level) (h : retTail l.epc s = .ok v t) : GoesTo P d t v := by
  obtain ⟨_, t1, -, h1⟩ := ok_of_bind h
  cases h1
  exact .epc l hid

theorem privFence_target (h : privFence P op s = .ok v t) : GoesTo P d t v := by
  have hw : ∀ (p : Prop) [Decidable p], illegalWhen p s = .ok v t → v = 0 := by
    intro p _ h
    obtain ⟨_, t1, -, h1⟩ := ok_of_bind h
    cases h1
    rfl
  have hv : v = 0 := by
    obtain ⟨_, s1, hget, h1⟩ := ok_of_bind h
    cases hget
    dsimp only at h1
    repeat' split at h1
    all_goals first
      | exact hw _ h1
      | (cases h1; rfl)
      | cases h1
  rw [hv]
  exact .null hid

theorem privInstr_target (h : privInstr P op s = .ok v t) : GoesTo P d t v := by
  unfold privInstr at h
  split at h
  · rw [uret_eq] at h
    exact retTail_target hid .U h
  split at h
  · rw [sret_eq] at h
    obtain ⟨_, t1, -, h1⟩ := ok_of_bind h
    exact retTail_target hid .S h1
  split at h
  · rw [mret_eq] at h
    obtain ⟨_, t1, -, h1⟩ := ok_of_bind h
    exact retTail_target hid .M h1
  · exact privFence_target hid h

theorem rtlTrap_changes : (changeEffect P d).Within (rtlTrap P d no) := by
  intro s
  refine At.bind (hostcallTrap_changes hid s) fun v t ht => ?_
  exact At.bind (rtlJ_changes (hostcallTrap_target hid ht t)) fun _ u _ => Within.ret _ _ u

theorem rtlTrap_target (h : rtlTrap P d no s = .ok v t) : GoesTo P d t v := by
  obtain ⟨a, t1, h1, h2⟩ := ok_of_bind h
  obtain ⟨_, t2, -, h3⟩ := ok_of_bind h2
  cases h3
  exact hostcallTrap_target hid h1 t

theorem sysTarget_changes : (changeEffect P d).Within (sysTarget P d) := by
  refine .bind (.read _) fun s => ?_
  split
  · exact rtlTrap_changes hid
  split
  · exact rtlTrap_changes hid
  · exact privInstr_changes hid

theorem sysTarget_target (h : sysTarget P d s = .ok v t) : GoesTo P d t v := by
  obtain ⟨_, s1, hget, h1⟩ := ok_of_bind h
  cases hget
  split at h1
  · exact rtlTrap_target hid h1
  split at h1
  · exact rtlTrap_target hid h1
  · exact privInstr_target hid h1

theorem sysPriv_changes : (changeEffect P d).Within (sysPriv P d) := by
  intro s
  refine At.bind (sysTarget_changes hid s) fun v t ht => ?_
  split
  · exact rtlJ_changes (sysTarget_target hid ht)
  · exact Within.ret _ _ t

theorem rtlSysSlowPath_changes : (changeEffect P d).Within (rtlSysSlowPath P d) := by
  unfold rtlSysSlowPath
  split
  · exact sysPriv_changes hid
  · next hp => exact sysCsr_changes hid hp

end System

theorem compute_changes (hw : d.id.writesDest = true) (l : Loc) (f : Word → Word) :
    (changeEffect P d).Within (do
      let x ← readReg l
      writeReg d.dest.preg (f x)) :=
  .bind readReg_changes fun _ => writeDest_changes hw

theorem compute₂_changes (hw : d.id.writesDest = true) (l l' : Loc) (f : Word → Word → Word) :
    (changeEffect P d).Within (do
      let x ← readReg l
      let y ← readReg l'
      writeReg d.dest.preg (f x y)) :=
  .bind readReg_changes fun _ => .bind readReg_changes fun _ => writeDest_changes hw

theorem c_jalr_changes (h : d.id = .c_jalr) :
    (changeEffect P d).Within (do
      let x ← readReg d.src1.preg
      writeReg (.gpr 1) d.snpc
      let y ← readReg d.src1.preg
      rtlJ P (if P.share then x &&& ~~~1 else y)) := by
  refine .bind readReg_changes fun x => .bind (.one fun _ => .link (.inr h)) fun _ => ?_
  intro s
  refine At.bind (readReg_changes s) fun y t hy => rtlJ_changes ?_
  cases hy
  split
  · next hs => exact .indirect x (.inr (.inr ⟨h, hs⟩))
  · next hs =>
    have hy : jumpTarget P (s.readLoc d.src1.preg) = s.readLoc d.src1.preg := if_neg hs
    rw [← hy]
    exact .reg (.inr h)

theorem jumpReg_changes (h : d.id = .c_jr) :
    (changeEffect P d).Within (do
      let x ← readReg d.src1.preg
      rtlJ P (jumpTarget P x)) := by
  intro s
  refine At.bind (readReg_changes s) fun x t hx => rtlJ_changes ?_
  cases hx
  exact .reg (.inl h)

theorem ret_changes (h : d.id = .p_ret) :
    (changeEffect P d).Within (do
      let x ← readReg (.gpr 1)
      rtlJ P (jumpTarget P x)) := by
  intro s
  refine At.bind (readReg_changes s) fun x t hx => rtlJ_changes ?_
  cases hx
  exact .ret h

/-- Everything that an executor does is made of the elementary changes. -/
theorem exec_changes (P : Platform) (d : Decode) : (changeEffect P d).Within (exec P d) := by
  have hj : ∀ {a : Word}, (∀ s, GoesTo P d s a) → (changeEffect P d).Within (rtlJ P a) :=
    fun h s => rtlJ_changes (h s)
  unfold exec
  cases hid : d.id with
  | inv => exact execInv_changes
  | rt_inv => exact illegal_changes
  | nemu_trap => exact execNemuTrap_changes hid
  | fence_i =>
    dsimp only
    rw [privInstr_fence_i]
    exact .bind privFence_changes fun _ => .ret _ _
  | fence => exact .ret _ _
  | lui | auipc | c_li | p_li_0 | p_li_1 => exact writeDest_changes (by rw [hid]; rfl)
  | computeReg o | compressedReg o | rvbReg o | rvkReg o =>
    exact compute₂_changes (by rw [hid]; rfl) _ _ _
  | computeImm o | compressedImm o | rvbImm o | rvkImm o =>
    exact compute_changes (by rw [hid]; rfl) _ _
  | c_mv | p_inc | p_dec | p_sext_w | fmv_x_w | fmv_x_d =>
    exact compute_changes (by rw [hid]; rfl) _ _
  | fclass w => exact compute_changes (by rw [hid]; rfl) _ _
  | load signed len m =>
    have hw : d.id.writesDest = true := by rw [hid]; rfl
    cases signed with
    | true => exact .bind rtlLms_changes fun _ => writeDest_changes hw
    | false => exact rtlLm_changes hw (by rw [hid]; rfl)
  | store len m => exact .bind readReg_changes fun _ => rtlSm_changes (by rw [hid]; rfl)
  | atomic => exact rtlAmoSlowPath_changes hid
  | system => exact rtlSysSlowPath_changes hid
  | fload w m => exact execFload_changes hid
  | fstore w m => exact .bind readReg_changes fun _ => rtlSm_changes (by rw [hid]; rfl)
  | fop o w =>
    exact .bind readReg_changes fun _ => .bind readReg_changes fun _ =>
      .bind (rtlFpcall_changes (by rw [hid]; rfl)) fun _ =>
        rtlFsr_changes (by rw [hid]; rfl) (by rw [hid]; rfl)
  | funary o w w' =>
    exact .bind readReg_changes fun _ => .bind (rtlFpcall_changes (by rw [hid]; rfl)) fun _ =>
      rtlFsr_changes (by rw [hid]; rfl) (by rw [hid]; rfl)
  | fcvtToI o w =>
    exact .bind readReg_changes fun _ => .bind (rtlFpcall_changes (by rw [hid]; rfl)) fun _ =>
      writeDest_changes (by rw [hid]; rfl)
  | fcmp o w => exact execFcmp_changes (by rw [hid]; rfl) (by rw [hid]; rfl)
  | fmadd b b' w => exact execFmadd_changes (by rw [hid]; rfl) (by rw [hid]; rfl)
  | fsgnj w | fsgnjn w | fsgnjx w => exact execFsgnj_changes (by rw [hid]; rfl) (by rw [hid]; rfl)
  | fmv_w_x | fmv_d_x =>
    exact .bind readReg_changes fun _ => rtlFsr_changes (by rw [hid]; rfl) (by rw [hid]; rfl)
  | vector m => exact runVector_changes hid _
  | jal =>
    exact .bind (writeDest_changes (by rw [hid]; rfl)) fun _ => hj fun _ => .direct (.inl hid)
  | p_jal =>
    exact .bind (.one fun _ => .link (.inl hid)) fun _ => hj fun _ => .direct (.inr (.inl hid))
  | c_j => exact hj fun _ => .direct (.inr (.inr (.inl hid)))
  | dasicscall_j =>
    exact .bind (rtlSetDretpc_changes (by rw [hid]; rfl)) fun _ =>
      .bind (writeDest_changes (by rw [hid]; rfl)) fun _ =>
        hj fun _ => .direct (.inr (.inr (.inr hid)))
  | jalr =>
    exact .bind readReg_changes fun _ => .bind (.read _) fun _ =>
      .bind (writeDest_changes (by rw [hid]; rfl)) fun _ => hj fun _ => .indirect _ (.inl hid)
  | dasicscall_jr =>
    exact .bind readReg_changes fun _ => .bind (.read _) fun _ =>
      .bind (rtlSetDretpc_changes (by rw [hid]; rfl)) fun _ =>
        .bind (writeDest_changes (by rw [hid]; rfl)) fun _ =>
          hj fun _ => .indirect _ (.inr (.inl hid))
  | p_ret => exact ret_changes hid
  | c_jr => exact jumpReg_changes hid
  | c_jalr => exact c_jalr_changes hid
  | branch o =>
    exact .bind readReg_changes fun _ => .bind readReg_changes fun _ =>
      rtlJrelop_changes (by rw [hid]; rfl)
  | c_beqz | c_bnez | p_blez | p_bgez | p_bltz | p_bgtz =>
    exact .bind readReg_changes fun _ => rtlJrelop_changes (by rw [hid]; rfl)

section Registers

variable {l l' : Loc}

theorem readLoc_writeLoc_ne (s : Machine) (v : Word) (h : l ≠ l') :
    (s.writeLoc l v).readLoc l' = s.readLoc l' := by
  cases l with
  | gpr r =>
    cases l' with
    | gpr r' => exact Function.update_of_ne (fun he => h (congrArg Loc.gpr he.symm)) v s.gpr
    | fpr r' => rfl
    | zeroNull => rfl
  | fpr r =>
    cases l' with
    | gpr r' => rfl
    | fpr r' => exact Function.update_of_ne (fun he => h (congrArg Loc.fpr he.symm)) v s.fpr
    | zeroNull => rfl
  | zeroNull =>
    cases l' with
    | gpr r' => rfl
    | fpr r' => rfl
    | zeroNull => exact absurd rfl h

theorem readLoc_writeLoc_self (s : Machine) (l : Loc) (v : Word) : (s.writeLoc l v).readLoc l = v := by
  cases l with
  | gpr r => exact Function.update_self r v s.gpr
  | fpr r => exact Function.update_self r v s.fpr
  | zeroNull => rfl

end Registers

section Step

/-- The state without what fetching and decoding an instruction may change. -/
def Machine.eraseFetch (s : Machine) : Machine :=
  { s.eraseFault.eraseAccess with decPc := 0, prevType := .none, prevIsCfi := false }

theorem eraseFetch_of_access (h : t.eraseFault.eraseAccess = s.eraseFault.eraseAccess) :
    t.eraseFetch = s.eraseFetch :=
  congrArg (fun u : Machine =>
    ({ u with decPc := 0, prevType := .none, prevIsCfi := false } : Machine)) h

theorem fetchDecode_frame : (keep Stop Machine.eraseFetch).Within (fetchDecode P) := by
  intro s
  rw [keep_iff]
  cases h : fetchDecode P s with
  | ok d t =>
    rw [final_ok h]
    have hf := (fetchDecode_ok h).frame
    have h1 : t.eraseFetch = (s.decoded d).eraseFetch := by
      apply eraseFetch_of_access
      rw [← Machine.eraseFault_eraseAccess, hf, Machine.eraseFault_eraseAccess]
    exact h1
  | error e t =>
    rw [final_error h]
    obtain ⟨-, -, rfl⟩ | ⟨-, hstop⟩ := fetchDecode_error h
    · have h1 : (jumpFaulted P s).eraseFault = ({ s with decPc := s.pc } : Machine).eraseFault := by
        unfold jumpFaulted
        dsimp only
        rw [eraseFault_setCsr _ _ (Level.tval_fault _), eraseFault_setCsr _ _ rfl]
      exact eraseFetch_of_access (s := { s with decPc := s.pc })
        (congrArg Machine.eraseAccess h1)
    · have h1 := hstop.frame
      rw [Machine.eraseFault_eraseAccess] at h1
      exact eraseFetch_of_access (s := { s with decPc := s.pc }) h1

theorem executeStep_ok (h : executeStep P s = .ok d t) :
    ∃ u v, fetchDecode P s = .ok d u ∧ exec P d (u.started d) = .ok () v ∧ t = v.ticked P := by
  obtain ⟨d', u, hf, h1⟩ := ok_of_bind h
  obtain ⟨_, _, hm, h2⟩ := ok_of_bind h1
  cases hm
  obtain ⟨_, v, he, h3⟩ := ok_of_bind h2
  obtain ⟨_, _, hm, h4⟩ := ok_of_bind h3
  cases hm
  cases h4
  exact ⟨u, v, hf, he, rfl⟩

theorem executeStep_error (h : executeStep P s = .error e t) :
    fetchDecode P s = .error e t ∨
      ∃ d u, fetchDecode P s = .ok d u ∧ exec P d (u.started d) = .error e t := by
  obtain hf | ⟨d, u, hf, h1⟩ := error_of_bind h
  · exact .inl hf
  · obtain hm | ⟨_, _, hm, h2⟩ := error_of_bind h1
    · cases hm
    · cases hm
      obtain he | ⟨_, v, he, h3⟩ := error_of_bind h2
      · exact .inr ⟨d, u, hf, he⟩
      · obtain hm | ⟨_, _, hm, h4⟩ := error_of_bind h3
        · cases hm
        · cases hm
          cases h4

/-- The states of `executeStep`: after the fetch, and in and after the executor. -/
theorem exec_reached (P : Platform) (d : Decode) (s : Machine) :
    Relation.ReflTransGen (Change P d) s (final (exec P d) s) :=
  (exec_changes P d s).final_reached

end Step

section Blind

theorem trapEntry_only (P : Platform) (no epc : Word) (s : Machine) :
    trapEntry P no epc s =
      { s with csr := (trapEntry P no epc s).csr, mode := (trapEntry P no epc s).mode } := by
  have hset : ∀ (t : Machine) (c : Csr) (v : Word), t = { s with csr := t.csr } →
      t.setCsr c v = { s with csr := (t.setCsr c v).csr } := by
    intro t c v ht
    rw [ht]
    rfl
  have hframe : ∀ t : Machine, t = { s with csr := t.csr } → ∀ m : Mode,
      ({ t with mode := m } : Machine) = { s with csr := t.csr, mode := m } := by
    intro t ht m
    rw [ht]
  unfold trapEntry
  dsimp only
  refine hframe _ ?_ _
  have h1 := hset _ .mstatus (pushStatus (trapLevel P s no) s.mode
    (((s.setCsr (trapLevel P s no).cause no).setCsr (trapLevel P s no).epc epc).csr .mstatus))
    (hset _ (trapLevel P s no).epc epc (hset s (trapLevel P s no).cause no rfl))
  split
  · exact h1
  · exact hset _ _ _ h1

/-- A view that shows neither registers, CSRs and modes nor what an access changes. -/
structure DataBlind {τ : Type} (view : Machine → τ) : Prop where
  fetch : ∀ {s t : Machine}, t.eraseFetch = s.eraseFetch → view t = view s
  loc : ∀ (s : Machine) (l : Loc) (v : Word), view (s.writeLoc l v) = view s
  vreg : ∀ (s : Machine) (vr : BitVec 5 → BitVec 128), view { s with vr := vr } = view s
  csr : ∀ (s : Machine) (csr : Csr → Word), view { s with csr := csr } = view s
  mode : ∀ (s : Machine) (m : Mode), view { s with mode := m } = view s
  pc : ∀ (s : Machine) (a : Word), view { s with pc := a } = view s
  mmu : ∀ s : Machine, view s.eraseMmu = view s
  rm : ∀ (s : Machine) (r : BitVec 32), view { s with rmCache := r } = view s

variable {τ : Type} {view : Machine → τ}

theorem DataBlind.setCsr (hv : DataBlind view) (s : Machine) (c : Csr) (x : Word) :
    view (s.setCsr c x) = view s :=
  hv.csr s _

theorem DataBlind.entry (hv : DataBlind view)
    (h : t = { s with csr := t.csr, mode := t.mode }) : view t = view s := by
  rw [h]
  exact (hv.mode { s with csr := t.csr } t.mode).trans (hv.csr s t.csr)

theorem Change.blind (hv : DataBlind view) (h : Change P d s t) :
    view t = view s ∨ (d.IsLr ∧ ∃ a, t = { s with lrAddr := a, lrValid := 1 }) ∨
      (d.IsSc ∧ t = { s with lrValid := 0 }) ∨
      (d.id.records = true ∧ ∃ isLoad va,
        t = { s with memEvent := ⟨s.currentPc, true, isLoad, va⟩ }) := by
  cases h with
  | access h => exact .inl (hv.fetch (eraseFetch_of_access h))
  | dest _ | link _ | vgpr _ _ => exact .inl (hv.loc s _ _)
  | reserve h => exact .inr (.inl ⟨h, _, rfl⟩)
  | release h => exact .inr (.inr (.inl ⟨h, rfl⟩))
  | record h => exact .inr (.inr (.inr ⟨h, _, _, rfl⟩))
  | dirty _ | vcsr _ _ | mie _ | dretpc _ | sd _ | fpCsr _ _ => exact .inl (hv.setCsr s _ _)
  | flags f _ => exact .inl ((hv.setCsr _ _ _).trans (hv.setCsr s _ _))
  | vreg _ => exact .inl (hv.vreg s _)
  | jump _ => exact .inl (hv.pc s _)
  | store _ _ =>
    rw [csrStore_only]
    exact .inl (hv.csr s _)
  | rm _ => exact .inl (hv.rm s _)
  | mmu _ h =>
    rw [← hv.mmu t, h]
    exact .inl (hv.mmu s)
  | trap no _ => exact .inl (hv.entry (trapEntry_only P no d.pc s))
  | uret _ | sret _ | mret _ => exact .inl (hv.entry rfl)

theorem DataBlind.of_access (hv : DataBlind view) {m : Exec α} (h : (accessEffect P q).Within m) :
    (keep Stop view).Within m := by
  intro s
  have hr := (Within.changes (d := decodeEmpty ⟨0, 0, 0, .direct, false⟩ .inv) h s).final_reached
  rw [keep_iff]
  exact reached_keeps (I := fun t => view t = view s) hr (fun t u hc ht => by
    obtain h1 | ⟨h1, -⟩ | ⟨h1, -⟩ | ⟨h1, -⟩ := hc.blind hv
    · exact h1.trans ht
    · cases h1.id
    · cases h1.id
    · cases h1) rfl

theorem DataBlind.ticked (hv : DataBlind view) (P : Platform) (s : Machine) :
    view (s.ticked P) = view s := by
  unfold Machine.ticked utimerTick
  split
  · split
    · exact hv.setCsr s _ _
    split
    · exact hv.setCsr s _ _
    · exact hv.setCsr s _ _
  · rfl

theorem DataBlind.raiseIntr (hv : DataBlind view) :
    (keep Stop view).Within (raiseIntr P no epc) := by
  intro s
  rw [keep_iff]
  have h := congrArg view (raiseIntr_final P no epc s)
  rw [hv.mmu, hv.mmu, hv.entry (trapEntry_only P no epc s)] at h
  exact h

theorem DataBlind.handleException (hv : DataBlind view) (P : Platform) (f : Fault) :
    (keep Stop view).Within (handleException P f) := by
  refine .bind (.read _) fun s => .bind (.update fun s => ?_) fun _ => .bind hv.raiseIntr fun pc =>
    .update fun s => ?_
  · split
    · exact hv.fetch rfl
    · rfl
  · have h : view { s with pc := pc, amo := false } = view { s with pc := pc } := hv.fetch rfl
    exact h.trans (hv.pc s pc)

theorem DataBlind.takeIntr (hv : DataBlind view) (P : Platform) (no : Word) :
    (keep Stop view).Within (takeIntr P no) :=
  .bind (.read _) fun _ => .bind hv.raiseIntr fun pc => .update fun s => hv.pc s pc

/-- The steps of `cpu_exec` outside `execute` do not show. -/
theorem CpuStep.blind (hv : DataBlind view) (h : CpuStep P a e b) :
    view b.m = view a.m ∨ (∃ d, e = .instr d) ∨ (∃ f, e = .fault f) := by
  cases h with
  | instr _ => exact .inr (.inl ⟨_, rfl⟩)
  | fault _ => exact .inr (.inr ⟨_, rfl⟩)
  | batchEnd | noIntr _ => exact .inl rfl
  | trap h => exact .inl ((hv.handleException P _).ok h)
  | intr _ _ _ h => exact .inl ((hv.takeIntr P _).ok h)
  | alarm _ => exact .inl (hv.setCsr _ _ _)

end Blind

end Nemu
