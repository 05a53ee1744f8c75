import Nemu.Exceptions
import Nemu.Lib.Run
import Nemu.Reachable
import Nemu.Sandbox

namespace Nemu

open Effect

set_option autoImplicit true

/-- A CSR instruction that writes the reserved value to MPP. -/
def WritesReservedMpp (P : Platform) (d : Decode) (s : Machine) : Prop :=
  d.id = .system ∧ d.funct3 ≠ 0 ∧ d.csrWrites = true ∧
    Csr.ofAddr P.toConfig d.csrId = some .mstatus ∧
    (csrOperand d (s.csr .mstatus) (s.readLoc d.src1.preg)).extractLsb' 11 2 = 2

/-- `cpu.mode` and MPP are not the reserved mode. -/
structure RealModes (s : Machine) : Prop where
  mode : s.mode ≠ .H
  mpp : s.mpp ≠ .H

def modesEffect : Effect Stop Machine := inv RealModes fun _ _ => True

variable {P : Platform} {q : Machine → Prop} {s t : Machine} {d : Decode} {f : Fault}

theorem RealModes.of_control (hs : RealModes s) (h : t.control = s.control) : RealModes t where
  mode := by
    have h1 : t.mode = s.mode := congrArg Control.mode h
    rw [h1]
    exact hs.mode
  mpp := by
    have h1 : t.mpp = s.mpp := congrArg Control.mpp h
    rw [h1]
    exact hs.mpp

theorem RealModes.of_eraseMmu (hs : RealModes s) (h : t.eraseMmu = s.eraseMmu) : RealModes t where
  mode := by
    have h1 : t.mode = s.mode := (congrArg Machine.mode h :)
    rw [h1]
    exact hs.mode
  mpp := by
    have h1 : t.mpp = s.mpp := (congrArg Machine.mpp h :)
    rw [h1]
    exact hs.mpp

theorem RealModes.of_mpp (hs : RealModes s) (hm : t.mode ≠ .H)
    (h : (t.csr .mstatus).extractLsb' 11 2 = (s.csr .mstatus).extractLsb' 11 2) : RealModes t where
  mode := hm
  mpp := by
    unfold Machine.mpp
    rw [h]
    exact hs.mpp

section Entry

theorem Level.mode_ne_H (l : Level) : l.mode ≠ .H := by
  cases l <;> decide

theorem pushStatus_mpp (l : Level) (mode : Mode) (x : Word) :
    (pushStatus l mode x).extractLsb' 11 2 = if l = .M then mode.bits else x.extractLsb' 11 2 := by
  unfold pushStatus
  cases l with
  | U => exact (setBit_mpp _ _ (by decide)).trans (setBit_mpp _ _ (by decide))
  | S =>
    refine (setBit_mpp _ _ (by decide)).trans ((setBit_mpp _ _ (by decide)).trans ?_)
    exact BitField.extract_insert_disjoint 8 _ x 11 2 (by decide)
  | M =>
    refine (setBit_mpp _ _ (by decide)).trans ((setBit_mpp _ _ (by decide)).trans ?_)
    exact BitField.extract_insert_same 11 mode.bits x (by decide)

theorem popStatus_mpp (P : Platform) (l : Level) (x : Word) :
    (popStatus P l x).extractLsb' 11 2 = x.extractLsb' 11 2 := by
  unfold popStatus
  cases l <;> exact (setBit_mpp _ _ (by decide)).trans (setBit_mpp _ _ (by decide))

theorem RealModes.trapEntry (hs : RealModes s) (no epc : Word) :
    RealModes (trapEntry P no epc s) where
  mode := (trapLevel P s no).mode_ne_H
  mpp := by
    unfold Machine.mpp
    rw [trapEntry_mstatus, pushStatus_mpp]
    split
    · rw [Mode.ofBits_bits]
      exact hs.mode
    · exact hs.mpp

theorem RealModes.uretEntry (hs : RealModes s) : RealModes (uretEntry P s) := by
  refine hs.of_mpp (fun h => by cases h) ?_
  unfold Nemu.uretEntry
  rw [Machine.mapMstatus_mstatus, setBit_mpp _ _ (by decide)]
  exact popStatus_mpp P .U _

theorem RealModes.sretEntry (hs : RealModes s) : RealModes (sretEntry P s) := by
  refine hs.of_mpp ?_ ?_
  · change Machine.spp _ ≠ .H
    unfold Machine.spp
    split <;> decide
  · unfold Nemu.sretEntry
    dsimp only
    rw [Machine.mapMstatus_mstatus, Machine.mapMstatus_mstatus, setBit_mpp _ _ (by decide)]
    split
    · rw [setBit_mpp _ _ (by decide)]
      exact popStatus_mpp P .S _
    · exact popStatus_mpp P .S _

theorem RealModes.mretEntry (hs : RealModes s) : RealModes (mretEntry P s) where
  mode := by
    have h : (s.mapMstatus (popStatus P .M)).mpp = s.mpp := by
      unfold Machine.mpp
      rw [Machine.mapMstatus_mstatus, popStatus_mpp]
    change (s.mapMstatus (popStatus P .M)).mpp ≠ .H
    rw [h]
    exact hs.mpp
  mpp := by
    unfold Machine.mpp Nemu.mretEntry
    dsimp only
    rw [Machine.mapMstatus_mstatus, BitField.extract_insert_same 11 Mode.U.bits _ (by decide)]
    decide

end Entry

section Effects

theorem Within.modes_of_flow {m : Exec α} (h : (flowEffect P q).Within m) :
    modesEffect.Within m := by
  intro s
  refine (h s).mono (fun t ht hs => ?_) fun _ _ _ _ => trivial
  exact hs.of_control (control_of_eraseFlow ht)

theorem Within.modes_of_data {m : Exec α} (h : (dataEffect P q).Within m) :
    modesEffect.Within m := by
  have hjump : (jumpEffect P fun _ => True).Within m := Within.toJump h fun _ _ => trivial
  have hflow : (flowEffect P fun _ => True).Within m := Within.toFlow hjump fun _ _ => trivial
  exact Within.modes_of_flow hflow

theorem updateMmuState_modes : modesEffect.Within updateMmuState := by
  intro s
  have h := updateMmuState_erase.final_eq s
  cases hu : updateMmuState s with
  | ok a t =>
    rw [final_ok hu] at h
    exact .of_ok hu fun hs => hs.of_eraseMmu h
  | error e t => exact .of_error hu fun _ => trivial

theorem raiseIntr_modes : modesEffect.Within (raiseIntr P no epc) := by
  intro s
  have h := raiseIntr_final P no epc s
  cases hr : raiseIntr P no epc s with
  | ok a t =>
    rw [final_ok hr] at h
    exact .of_ok hr fun hs => (hs.trapEntry no epc).of_eraseMmu h
  | error e t => exact .of_error hr fun _ => trivial

theorem retTail_modes : modesEffect.Within (retTail epc) :=
  .bind updateMmuState_modes fun _ => .bind (.read _) fun _ => .ret _ _

theorem modes_of_entry {m : Exec α} {g : Machine → Machine}
    (hg : ∀ s, RealModes s → RealModes (g s)) (hm : modesEffect.Within m) :
    modesEffect.Within fun s => m (g s) := by
  intro s
  cases h : m (g s) with
  | ok a t => exact .of_ok h fun hs => hm.ok h (hg s hs)
  | error e t => exact .of_error h fun _ => trivial

theorem illegalIf_modes (p : Prop) [Decidable p] : modesEffect.Within (illegalIf p) := by
  have h : (dataEffect (Platform.bare .standalone) fun _ => False).Within (illegalIf p) :=
    illegalIf_data p
  exact Within.modes_of_data h

theorem privInstr_modes : modesEffect.Within (privInstr P op) := by
  unfold privInstr
  split
  · have h : modesEffect.Within fun s => retTail .uepc (uretEntry P s) :=
      modes_of_entry (fun _ hs => hs.uretEntry) retTail_modes
    exact h
  split
  · intro s
    refine At.congr (sret_eq P s) ?_
    exact Within.bind (illegalIf_modes _)
      (fun _ => modes_of_entry (fun _ hs => hs.sretEntry) retTail_modes) s
  split
  · intro s
    refine At.congr (mret_eq P s) ?_
    exact Within.bind (illegalIf_modes _)
      (fun _ => modes_of_entry (fun _ hs => hs.mretEntry) retTail_modes) s
  · exact Within.modes_of_data (q := fun _ => False) privFence_data

theorem rtlJ_modes : modesEffect.Within (rtlJ P target) := by
  have h : (jumpEffect P (BadExec .inv)).Within (rtlJ P target) := rtlJ_jump
  exact Within.modes_of_flow (Within.flow h)

theorem rtlTrap_modes : modesEffect.Within (rtlTrap P d no) := by
  have hd : modesEffect.Within (setCsr .dfreason FaultReason.DFR_EF.code) :=
    .update fun s hs => hs.of_control (control_setCsr s _ rfl)
  refine .bind (.bind (.read _) fun s => ?_) fun _ => .bind rtlJ_modes fun _ => .ret _ _
  dsimp only
  split
  · exact .bind hd fun _ => raiseIntr_modes
  split
  · exact .bind hd fun _ => raiseIntr_modes
  · exact raiseIntr_modes

theorem sysPriv_modes : modesEffect.Within (sysPriv P d) := by
  refine .bind (.bind (.read _) fun s => ?_) fun jpc => ?_
  · split
    · exact rtlTrap_modes
    split
    · exact rtlTrap_modes
    · exact privInstr_modes
  · split
    · exact rtlJ_modes
    · exact .ret _ _

theorem csrOperand_mpp (h : old.extractLsb' 11 2 = old'.extractLsb' 11 2) :
    (csrOperand d old src).extractLsb' 11 2 = (csrOperand d old' src).extractLsb' 11 2 := by
  unfold csrOperand
  dsimp only
  split
  · rw [BitVec.extractLsb'_or, BitVec.extractLsb'_or, h]
  split
  · rw [BitVec.extractLsb'_and, BitVec.extractLsb'_and, h]
  · rfl

theorem RealModes.csrStore (hs : RealModes s) (hx : c = .mstatus → x.extractLsb' 11 2 ≠ 2) :
    RealModes (csrStore P s c x) := by
  cases hfp : isFpCsr c with
  | true =>
    have h := csrStore_fp (P := P) (s := s) hfp x
    have hmode : (Nemu.csrStore P s c x).mode = s.mode := congrArg Control.mode h
    have hmpp : (Nemu.csrStore P s c x).mpp = s.mpp := congrArg Control.mpp h
    exact ⟨hmode ▸ hs.mode, hmpp ▸ hs.mpp⟩
  | false =>
    cases hc : controlCsr c with
    | false => exact hs.of_control (csrStore_control hc hfp x)
    | true =>
      cases c with
      | mstatus =>
        refine ⟨hs.mode, ?_⟩
        unfold Machine.mpp Nemu.csrStore
        dsimp only
        rw [Machine.setCsr_csr_self, BitField.extract_merge_of_set _ _ _ _ _ (by decide)]
        have h2 := hx rfl
        revert h2
        generalize x.extractLsb' 11 2 = b
        revert b
        decide
      | satp =>
        unfold Nemu.csrStore
        dsimp only
        split
        · exact ⟨hs.mode, hs.mpp⟩
        · exact hs
      | fcsr => cases hfp
      | _ => cases hc

theorem csrWrite_modes (hx : c = .mstatus → x.extractLsb' 11 2 ≠ 2) :
    modesEffect.Within (csrWrite P c x) := by
  refine .bind (.read _) fun s => .bind (illegalIf_modes _) fun _ =>
    .bind (.update fun s hs => hs.csrStore hx) fun _ => .bind ?_ fun _ => .bind ?_ fun _ => ?_
  · unfold csrWriteFp
    split
    · refine .bind (Within.modes_of_data (P := P) (q := fun _ => False) fpSetDirty_data) fun _ =>
        .bind (.read _) fun _ => .bind ?_ fun _ => .update fun s hs => ⟨hs.mode, hs.mpp⟩
      exact Within.modes_of_data (P := P) (q := fun _ => False) (assert_data _ rfl)
    · exact .ret _ _
  · unfold csrWriteSd
    split
    · exact Within.modes_of_data (P := P) (q := fun _ => False) updateMstatusSd_data
    · exact .ret _ _
  · unfold csrWriteMmu
    split
    · exact updateMmuState_modes
    · exact .ret _ _

theorem mpp_of_eraseBits (h : eraseBits .mstatus x = eraseBits .mstatus y) :
    x.extractLsb' 11 2 = y.extractLsb' 11 2 := by
  have hx : ∀ z : Word, (eraseBits .mstatus z).extractLsb' 11 2 = z.extractLsb' 11 2 :=
    fun z => BitField.extract_and_not fpStatusMask z 11 2 (by decide)
  rw [← hx x, h, hx]

theorem csrrw_read_mstatus (h : csrrw P true none addr pc s = .ok old u)
    (hc : Csr.ofAddr P.toConfig addr = some .mstatus) :
    old.extractLsb' 11 2 = (s.csr .mstatus).extractLsb' 11 2 ∧
      ∀ l, u.readLoc l = s.readLoc l := by
  obtain ⟨r, v, hl, h1⟩ := ok_of_bind h
  obtain ⟨rfl, hlegal⟩ := csrIsLegal_ok hl
  cases r with
  | none => cases h1
  | some c =>
    have hcc := (hlegal c rfl).exist
    rw [hc] at hcc
    cases hcc
    cases h1
    refine ⟨?_, fun l => by cases l <;> rfl⟩
    apply mpp_of_eraseBits
    rw [Machine.mapMstatus_mstatus]
    exact eraseBits_updateMstatusSdVal P _

theorem sysCsr_modes (hw : ¬ WritesReservedMpp P d s) (hsys : d.id = .system) (hf : d.funct3 ≠ 0) :
    modesEffect.At s (sysCsr P d) := by
  have hreg : ∀ v, modesEffect.Within (writeReg d.dest.preg v) := fun v =>
    Within.modes_of_data (P := P) (q := fun _ => False) writeReg_data
  have hread : modesEffect.Within (csrrw P true none d.csrId d.pc) :=
    Within.modes_of_data (q := fun _ => False) csrrw_read_data
  refine (hread s).bind fun old u hu => ?_
  split
  · next hcsr =>
    refine At.bind (Within.modes_of_data (P := P) (q := fun _ => False) readReg_data u)
      fun src v hv => ?_
    cases hv
    refine At.bind ?_ fun _ w _ => hreg old w
    refine At.bind (Within.modes_of_data (q := fun _ => False) csrIsLegal_data u) fun r w hr => ?_
    obtain ⟨rfl, hlegal⟩ := csrIsLegal_ok hr
    cases r with
    | none => exact Within.modes_of_data (P := P) (q := fun _ => False) illegal_data w
    | some c =>
      refine At.bind (csrWrite_modes (fun hc => ?_) w) fun _ w' _ => Within.ret _ _ w'
      subst hc
      have haddr := (hlegal _ rfl).exist
      obtain ⟨hold, hloc⟩ := csrrw_read_mstatus hu haddr
      intro hx
      apply hw
      refine ⟨hsys, hf, hcsr, haddr, ?_⟩
      rw [← csrOperand_mpp hold, ← hloc]
      exact hx
  · exact hreg old u

end Effects

theorem exec_modes (hw : ¬ WritesReservedMpp P d s) (h : exec P d s = .ok () t)
    (hs : RealModes s) : RealModes t := by
  by_cases hsys : d.id = .system
  · rw [exec_system hsys] at h
    unfold rtlSysSlowPath at h
    split at h
    · exact sysPriv_modes.ok h hs
    · next hf => exact (sysCsr_modes hw hsys hf).ok h hs
  · exact (Within.modes_of_flow (exec_flow hsys)).ok h hs

theorem WritesReservedMpp.of_fetches (hf : Fetches P s d u)
    (h : WritesReservedMpp P d (u.started d)) : WritesReservedMpp P d s := by
  obtain ⟨hsys, hf3, hcsr, haddr, hx⟩ := h
  have hm : (u.started d).csr .mstatus = s.csr .mstatus :=
    (congrFun (congrArg Machine.csr hf.frame) .mstatus :)
  have hg : u.gpr = s.gpr := (congrArg Machine.gpr hf.frame :)
  have hfp : u.fpr = s.fpr := (congrArg Machine.fpr hf.frame :)
  have hz : u.zeroNull = s.zeroNull := (congrArg Machine.zeroNull hf.frame :)
  have hloc : (u.started d).readLoc d.src1.preg = s.readLoc d.src1.preg := by
    cases d.src1.preg with
    | gpr r => exact congrFun hg r
    | fpr r => exact congrFun hfp r
    | zeroNull => exact hz
  rw [hm, hloc] at hx
  exact ⟨hsys, hf3, hcsr, haddr, hx⟩

theorem executeStep_modes (hw : ¬ WritesReservedMpp P d s) (h : executeStep P s = .ok d t)
    (hs : RealModes s) : RealModes t := by
  obtain ⟨_, u, hf, he⟩ := ok_of_bind h
  obtain ⟨rfl, v, hexec, rfl⟩ := executeDecoded_ok he
  have hfetch := fetchDecode_ok hf
  have hu : RealModes (u.started d) := (hs.of_control hfetch.control_eq).of_control rfl
  have hv := exec_modes (fun h1 => hw (h1.of_fetches hfetch)) hexec hu
  unfold Machine.ticked
  split
  · exact hv.of_control (utimerTick_control v)
  · exact hv

theorem Excepted.modes (h : Excepted P s f t) (hs : RealModes s) : RealModes t := by
  refine hs.of_mpp (h.mode ▸ hs.mode) ?_
  exact mpp_of_eraseBits (h.csr .mstatus rfl rfl (by decide))

theorem executeStep_fault_modes (h : executeStep P s = .error (.exception f) t)
    (hs : RealModes s) : RealModes t := by
  rcases executeStep_excepted h with ⟨-, -, rfl⟩ | ⟨-, he⟩
  · exact hs.of_control ((control_setTval _ _ _).trans (control_setCsr _ _ rfl))
  · exact he.modes ⟨hs.mode, hs.mpp⟩

theorem handleException_modes : modesEffect.Within (handleException P f) := by
  refine .bind (.read _) fun s => .bind (.update fun s hs => ?_) fun _ =>
    .bind raiseIntr_modes fun pc => .update fun s hs => hs.of_control rfl
  split
  · exact hs.of_control rfl
  · exact hs

theorem takeIntr_modes : modesEffect.Within (takeIntr P no) :=
  .bind (.read _) fun _ => .bind raiseIntr_modes fun _ => .update fun _ hs => hs.of_control rfl

/-- A transition that does not write the reserved mode to MPP. -/
def Warl (P : Platform) (x : Transition Cpu Event) : Prop :=
  ∀ d, x.label = .instr d → ¬ WritesReservedMpp P d x.source.m

theorem CpuStep.modes (h : CpuStep P x.source x.label x.target) (hx : Warl P x)
    (hs : RealModes x.source.m) : RealModes x.target.m := by
  obtain ⟨a, ev, b⟩ := x
  cases h with
  | instr h => exact executeStep_modes (hx _ rfl) h hs
  | fault h => exact executeStep_fault_modes h hs
  | batchEnd => exact hs
  | trap h => exact handleException_modes.ok h hs
  | intr _ _ _ h => exact takeIntr_modes.ok h hs
  | noIntr _ => exact hs
  | alarm _ => exact hs.of_control (control_setCsr _ _ rfl)

section Assertions

theorem permitted_of_cache (hc : Coherent s) (hm : RealModes s)
    (h : s.mmuCache ifetch ≠ .direct) : Permitted s ifetch := by
  have hcache : s.mmuCache ifetch = s.mmuState ifetch := by
    cases ifetch with
    | true => exact hc.ifetch
    | false => exact hc.data
  have hlt : s.accessMode ifetch < .M := by
    rw [hcache] at h
    unfold Machine.mmuState at h
    split at h
    · next h1 => exact h1.1
    · exact absurd rfl h
  have hne : s.accessMode ifetch ≠ .H := by
    unfold Machine.accessMode
    split
    · exact hm.mpp
    · exact hm.mode
  unfold Permitted
  revert hlt hne
  cases s.accessMode ifetch <;> decide

theorem permitted_eraseFlow (h : Permitted s ifetch) : Permitted s.eraseFlow ifetch := by
  have h1 : s.eraseFlow.accessMode ifetch = s.accessMode ifetch := accessMode_eraseData s ifetch
  unfold Permitted
  rw [h1]
  exact h

theorem not_badTranslation (hc : Coherent s) (hm : RealModes s) :
    ¬ BadTranslation ifetch .dynamic s.eraseFlow := by
  rintro ⟨hp, htr⟩
  rcases htr with h | ⟨-, h⟩
  · cases h
  · exact hp (permitted_eraseFlow (permitted_of_cache hc hm h))

theorem fetchDecode_permitted (hc : Coherent s) (hm : RealModes s) :
    fetchDecode P s ≠ .error (.abort .permissionMode) t := by
  intro h
  rcases fetchDecode_error h with ⟨-, he, -⟩ | ⟨-, hstop⟩
  · cases he
  · obtain ⟨hp, htr⟩ := hstop.permissionMode rfl
    rcases htr with h | ⟨-, h⟩
    · cases h
    · have hpermit : Permitted s true := permitted_of_cache hc hm h
      exact hp hpermit

theorem exec_permitted (hf : Fetches P s d u) (hc : Coherent s) (hm : RealModes s) :
    exec P d (u.started d) ≠ .error (.abort .permissionMode) t := by
  intro h
  have hcu : Coherent (u.started d) := (hc.of_control hf.control_eq).of_control rfl
  have hmu : RealModes (u.started d) := (hm.of_control hf.control_eq).of_control rfl
  obtain ⟨ifetch, m, huse, hbad⟩ := exec_permissionMode h
  rcases huse with rfl | ⟨rfl, hid⟩
  · exact not_badTranslation hcu hmu hbad
  · -- the decoder has chosen `m` from the current MMU mode
    have hmode : m = s.decodeMode := by
      rcases hf.at_pc.uses with hn | hn
      · rw [hn] at hid
        cases hid
      · rw [hn] at hid
        exact (Option.some.inj hid).symm
    obtain ⟨hp, htr⟩ := hbad
    have hdata : (u.started d).mmuCache false ≠ .direct := by
      have h1 : u.dataMmuState = s.dataMmuState := (congrArg Machine.dataMmuState hf.frame :)
      change u.dataMmuState ≠ .direct
      rw [h1]
      intro h2
      have h3 : s.decodeMode = .direct := if_pos h2
      rw [hmode, h3] at htr
      rcases htr with h | ⟨h, -⟩
      · cases h
      · cases h
    exact hp (permitted_eraseFlow (permitted_of_cache hcu hmu hdata))

theorem executeStep_permitted (hc : Coherent s) (hm : RealModes s) :
    executeStep P s ≠ .error (.abort .permissionMode) t := by
  intro h
  rcases error_of_bind h with h1 | ⟨d, u, hf, h1⟩
  · exact fetchDecode_permitted hc hm h1
  · have hfetch := fetchDecode_ok hf
    rcases error_of_bind h1 with h2 | ⟨_, _, hmod, h2⟩
    · cases h2
    · cases hmod
      rcases error_of_bind h2 with h3 | ⟨_, _, -, h3⟩
      · exact exec_permitted hfetch hc hm h3
      · rcases error_of_bind h3 with h4 | ⟨_, _, -, h4⟩
        · cases h4
        · cases h4

theorem handleException_noException : noException.Within (handleException P f) :=
  .bind (.read _) fun _ => .bind update_noException fun _ => .bind raiseIntr_noException fun _ =>
    update_noException

theorem takeIntr_noException : noException.Within (takeIntr P no) :=
  .bind (.read _) fun _ => .bind raiseIntr_noException fun _ => update_noException

/-- The assertions on `satp` and on the mode of an access hold, in the next instruction and in the
next trap. -/
structure Asserts (P : Platform) (s : Machine) : Prop where
  step : ∀ a t, executeStep P s = .error (.abort a) t → a ≠ .mmuState ∧ a ≠ .permissionMode
  trap : ∀ f a t, handleException P f s = .error (.abort a) t → a ≠ .mmuState ∧ a ≠ .permissionMode
  intr : ∀ no a t, takeIntr P no s = .error (.abort a) t → a ≠ .mmuState ∧ a ≠ .permissionMode

theorem asserts (hc : Coherent s) (hm : RealModes s) : Asserts P s where
  step a t h := by
    have h1 := (executeStep_coherent.error h hc).1
    exact ⟨fun ha => h1 (congrArg Stop.abort ha), fun ha => executeStep_permitted hc hm (ha ▸ h)⟩
  trap f a t h := by
    have h1 := (handleException_coherent.error h hc).1
    have h2 := (handleException_noException.error h trivial).2
    exact ⟨fun ha => h1 (congrArg Stop.abort ha), fun ha => h2 (congrArg Stop.abort ha)⟩
  intr no a t h := by
    have h1 := (takeIntr_coherent.error h hc).1
    have h2 := (takeIntr_noException.error h trivial).2
    exact ⟨fun ha => h1 (congrArg Stop.abort ha), fun ha => h2 (congrArg Stop.abort ha)⟩

end Assertions

theorem CpuStep.coherent (h : CpuStep P c ev c') (hc : Coherent c.m) : Coherent c'.m := by
  rcases h.guest with hg | hg
  · exact hg.coherent hc
  · rw [hg]
    exact hc

theorem realModes_reset (P : Platform) (ram : Word → BitVec 8) :
    RealModes (Machine.reset P ram) := by
  refine ⟨(fun h => by cases h), ?_⟩
  show Mode.ofBits ((0xa <<< 32 : Word).extractLsb' 11 2) ≠ .H
  decide

/-- In a run that never writes the reserved mode to MPP, the mode and `satp.mode` are legal, and
the assertions that rest on them hold. -/
theorem privilege_modes_valid (h : Run (CpuStep P) ⟨.top, Machine.reset P ram⟩ tr c)
    (hgood : ∀ x ∈ tr, Warl P x) :
    (c.m.mode = .U ∨ c.m.mode = .S ∨ c.m.mode = .M) ∧ (c.m.satpMode = 0 ∨ c.m.satpMode = 8) ∧
      Asserts P c.m := by
  have hinv : Coherent c.m ∧ RealModes c.m := by
    refine h.invariant (I := fun c => Coherent c.m ∧ RealModes c.m) hgood
      ⟨coherent_reset P ram, realModes_reset P ram⟩ ?_
    rintro x hx hs ⟨hc, hm⟩
    exact ⟨hs.coherent hc, hs.modes hx hm⟩
  refine ⟨?_, hinv.1.satp, asserts hinv.1 hinv.2⟩
  have hne := hinv.2.mode
  revert hne
  cases c.m.mode <;> decide

/-- An `mret` to user mode. -/
theorem privilege_modes_valid_mret :
    ∃ ram tr c, Run (CpuStep (Platform.bare .standalone))
        ⟨.top, Machine.reset (Platform.bare .standalone) ram⟩ tr c ∧ c.m.mode = .U ∧
      (c.m.satpMode = 0 ∨ c.m.satpMode = 8) ∧ Asserts (Platform.bare .standalone) c.m := by
  have hrun : ∃ ram tr c, Run (CpuStep (Platform.bare .standalone))
      ⟨.top, Machine.reset (Platform.bare .standalone) ram⟩ tr c ∧
      (∀ x ∈ tr, Warl (Platform.bare .standalone) x) ∧ c.m.mode = .U := by
    refine ⟨program 0x80100000 [0x30200073], _, _,
      .cons (.noIntr (.inr rfl)) (.cons (.instr rfl) .nil), ?_, rfl⟩
    intro x hx
    simp only [List.mem_cons, List.not_mem_nil, or_false] at hx
    rcases hx with rfl | rfl
    · intro d hd
      cases hd
    · intro d hd
      cases hd
      exact fun hw => hw.2.1 (by decide)
  obtain ⟨ram, tr, c, hr, hgood, hm⟩ := hrun
  obtain ⟨-, hsatp, ha⟩ := privilege_modes_valid hr hgood
  exact ⟨ram, tr, c, hr, hm, hsatp, ha⟩

/-- `lui x1, 1; csrw mstatus, x1; mret` enters the reserved mode. -/
theorem reserved_mode_reachable :
    ∃ ram tr c, Run (CpuStep (Platform.bare .standalone))
        ⟨.top, Machine.reset (Platform.bare .standalone) ram⟩ tr c ∧ c.m.mode = .H :=
  ⟨program 0x80100000 [0x000010b7, 0x30009073, 0x30200073], _, _,
    .cons (.noIntr (.inr rfl)) (.cons (.instr rfl) (.cons (.instr rfl) (.cons (.instr rfl) .nil))),
    rfl⟩

end Nemu
