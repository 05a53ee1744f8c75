import Nemu.SystemContract
import Nemu.TrapTarget

namespace Nemu

open Effect

set_option autoImplicit true

variable {P : Platform} {s t : Machine}

def Machine.frm (s : Machine) : BitVec 3 := (s.csr .fcsr).extractLsb' 5 3

/-- The part of the state that decides how accesses and roundings are made, with the caches
derived from it. -/
structure Control where
  mode : Mode
  mprv : Bool
  mpp : Mode
  satpMode : BitVec 4
  ifetchMmuState : MmuMode
  dataMmuState : MmuMode
  rmCache : BitVec 32
  frm : BitVec 3

def Machine.control (s : Machine) : Control :=
  ⟨s.mode, s.mprv, s.mpp, s.satpMode, s.ifetchMmuState, s.dataMmuState, s.rmCache, s.frm⟩

/-- What every path that changes the mode, `mstatus`, `satp` or `fcsr` has to establish before it
refreshes the MMU state. -/
structure Settled (s : Machine) : Prop where
  mprv : s.mode ≠ .M → s.mprv = false
  satp : s.SatpLegal
  rm : s.rmCache = s.frm.setWidth 32

/-- The derived state is current. -/
structure Coherent (s : Machine) : Prop extends Settled s where
  ifetch : s.ifetchMmuState = s.mmuState true
  data : s.dataMmuState = s.mmuState false

def Machine.mmuControl (s : Machine) : Control := { s.control with rmCache := 0, frm := 0 }

theorem Coherent.of_mmuControl (hs : Coherent s) (h : t.mmuControl = s.mmuControl)
    (hrm : t.rmCache = t.frm.setWidth 32) : Coherent t := by
  have hmode : t.mode = s.mode := congrArg Control.mode h
  have hmprv : t.mprv = s.mprv := congrArg Control.mprv h
  have hmpp : t.mpp = s.mpp := congrArg Control.mpp h
  have hsatp : t.satpMode = s.satpMode := congrArg Control.satpMode h
  have hi : t.ifetchMmuState = s.ifetchMmuState := congrArg Control.ifetchMmuState h
  have hd : t.dataMmuState = s.dataMmuState := congrArg Control.dataMmuState h
  have hacc : ∀ b, t.accessMode b = s.accessMode b := by
    intro b
    unfold Machine.accessMode
    rw [hmprv, hmpp, hmode]
  have hstate : ∀ b, t.mmuState b = s.mmuState b := by
    intro b
    unfold Machine.mmuState
    rw [hacc, hsatp]
  refine ⟨⟨?_, ?_, hrm⟩, ?_, ?_⟩
  · rw [hmode, hmprv]
    exact hs.mprv
  · unfold Machine.SatpLegal
    rw [hsatp]
    exact hs.satp
  · rw [hi, hs.ifetch, hstate]
  · rw [hd, hs.data, hstate]

theorem Coherent.of_control (hs : Coherent s) (h : t.control = s.control) : Coherent t := by
  have hr : t.rmCache = s.rmCache := congrArg Control.rmCache h
  have hf : t.frm = s.frm := congrArg Control.frm h
  apply hs.of_mmuControl
  · unfold Machine.mmuControl
    rw [h]
  · rw [hr, hf]
    exact hs.rm

theorem Settled.refreshMmu (hs : Settled s) : Coherent s.refreshMmu :=
  ⟨⟨hs.mprv, hs.satp, hs.rm⟩, rfl, rfl⟩

theorem control_eraseData (s : Machine) : s.eraseData.control = s.control := by
  have hprv : s.eraseData.mprv = s.mprv := BitField.getLsbD_and_not _ _ _ (by decide)
  have hpp : s.eraseData.mpp = s.mpp :=
    congrArg Mode.ofBits (BitField.extract_and_not _ _ _ _ (by decide))
  have hfrm : s.eraseData.frm = s.frm := BitField.extract_and_not 0x1f _ _ _ (by decide)
  unfold Machine.control
  rw [hprv, hpp, hfrm]
  rfl

theorem control_of_eraseData (h : t.eraseData = s.eraseData) : t.control = s.control := by
  rw [← control_eraseData t, h, control_eraseData]

theorem control_eraseFlow (s : Machine) : s.eraseFlow.control = s.control :=
  control_eraseData s

theorem control_of_eraseFlow (h : t.eraseFlow = s.eraseFlow) : t.control = s.control := by
  rw [← control_eraseFlow t, h, control_eraseFlow]

theorem control_of_stops (h : Stops P Machine.eraseFlow q s.eraseFlow e t) :
    t.control = s.control := by
  have h1 : t.eraseFault.eraseFlow.control = s.eraseFlow.eraseFault.control :=
    congrArg Machine.control h.frame
  rw [control_eraseFlow] at h1
  exact h1.trans (control_eraseFlow s)

/-- An exception leaves a coherent state, and the assertion on `satp` does not fail. -/
def CoherentStop (e : Stop) (t : Machine) : Prop :=
  e ≠ .abort .mmuState ∧ ∀ f, e = .exception f → Coherent t

def coherentEffect : Effect Stop Machine := inv Coherent CoherentStop

theorem Within.coherent {m : Exec α} (h : (flowEffect P q).Within m) :
    coherentEffect.Within m := by
  intro s
  refine (h s).mono ?_ ?_
  · exact fun t ht hs => hs.of_control (control_of_eraseFlow ht)
  · exact fun e t ht hs => ⟨ht.mmuState, fun _ _ => hs.of_control (control_of_stops ht)⟩

theorem Within.coherent_of_data {m : Exec α} (h : (dataEffect P q).Within m) :
    coherentEffect.Within m := by
  have hjump : (jumpEffect P fun _ => True).Within m := Within.toJump h fun _ _ => trivial
  have hflow : (flowEffect P fun _ => True).Within m := Within.toFlow hjump fun _ _ => trivial
  exact Within.coherent hflow

section Mstatus

/-- The bits of `mstatus` that entering or leaving a level changes. -/
def Level.pushes (l : Level) (i : Nat) : Bool :=
  i = l.ie || i = l.pie || (l = .S && i = 8) || (l = .M && (i = 11 || i = 12))

theorem setBit_ne (b : Bool) (x : Word) (h : i ≠ j) : (setBit j b x).getLsbD i = x.getLsbD i :=
  BitField.getLsbD_insert_disjoint j _ x i (by omega)

theorem setBit_mpp (b : Bool) (x : Word) (h : j ≠ 11 ∧ j ≠ 12) :
    (setBit j b x).extractLsb' 11 2 = x.extractLsb' 11 2 :=
  BitField.extract_insert_disjoint j _ x 11 2 (by omega)

theorem pushStatus_getLsbD (l : Level) (mode : Mode) (x : Word) (h : l.pushes i = false) :
    (pushStatus l mode x).getLsbD i = x.getLsbD i := by
  unfold pushStatus
  simp only [Level.pushes, Bool.or_eq_false_iff, decide_eq_false_iff_not] at h
  rw [setBit_ne _ _ h.1.1.1, setBit_ne _ _ h.1.1.2]
  cases l with
  | U => rfl
  | S => exact BitField.getLsbD_insert_disjoint 8 _ x i (by simp at h; omega)
  | M => exact BitField.getLsbD_insert_disjoint 11 _ x i (by simp at h; omega)

theorem popStatus_getLsbD (P : Platform) (l : Level) (x : Word) (h : i ≠ l.ie ∧ i ≠ l.pie) :
    (popStatus P l x).getLsbD i = x.getLsbD i := by
  unfold popStatus
  rw [setBit_ne _ _ h.2, setBit_ne _ _ h.1]

end Mstatus

section Entry

theorem mode_ne_M_of_trapLevel (h : (trapLevel P s no).mode ≠ .M) : s.mode ≠ .M := by
  cases hl : trapLevel P s no with
  | U =>
    rw [trapLevel_U hl]
    decide
  | S =>
    have := trapLevel_S hl
    intro hm
    rw [hm] at this
    exact absurd this (by decide)
  | M =>
    rw [hl] at h
    exact absurd rfl h

theorem Settled.trapEntry (hs : Settled s) (no epc : Word) : Settled (trapEntry P no epc s) where
  mprv hm := by
    have h17 : (Nemu.trapEntry P no epc s).mprv = s.mprv := by
      unfold Machine.mprv
      rw [trapEntry_mstatus]
      exact pushStatus_getLsbD _ _ _ (by cases trapLevel P s no <;> rfl)
    rw [h17]
    exact hs.mprv (mode_ne_M_of_trapLevel hm)
  satp := by
    unfold Machine.SatpLegal Machine.satpMode
    rw [trapEntry_csr P no epc s (by cases trapLevel P s no <;> rfl)]
    exact hs.satp
  rm := by
    have hf : (Nemu.trapEntry P no epc s).frm = s.frm := by
      unfold Machine.frm
      rw [trapEntry_csr P no epc s (by cases trapLevel P s no <;> rfl)]
    rw [hf, ← hs.rm]
    unfold Nemu.trapEntry
    cases keepsTval P no <;> rfl

theorem Settled.of_mstatus (hs : Settled s) (hcsr : ∀ c, c ≠ .mstatus → t.csr c = s.csr c)
    (hrm : t.rmCache = s.rmCache) (hm : t.mode ≠ .M → t.mprv = false) : Settled t where
  mprv := hm
  satp := by
    unfold Machine.SatpLegal Machine.satpMode
    rw [hcsr _ (by decide)]
    exact hs.satp
  rm := by
    unfold Machine.frm
    rw [hcsr _ (by decide), hrm]
    exact hs.rm

theorem setBit_self (i : Nat) (b : Bool) (x : Word) (h : i < 64) :
    (setBit i b x).getLsbD i = b := by
  unfold setBit
  rw [BitField.getLsbD_insert, if_pos (by omega)]
  simp [h]

theorem Settled.uretEntry (hs : Settled s) : Settled (uretEntry P s) := by
  refine hs.of_mstatus (fun c hc => ?_) rfl (fun _ => ?_)
  · unfold Nemu.uretEntry
    rw [Machine.mapMstatus_csr _ _ hc]
    exact Machine.mapMstatus_csr _ _ hc
  · unfold Machine.mprv Nemu.uretEntry
    rw [Machine.mapMstatus_mstatus]
    exact setBit_self 17 false _ (by decide)

theorem Settled.sretEntry (hs : Settled s) : Settled (sretEntry P s) := by
  refine hs.of_mstatus (fun c hc => ?_) rfl (fun _ => ?_)
  · unfold Nemu.sretEntry
    dsimp only
    rw [Machine.mapMstatus_csr _ _ hc, Machine.mapMstatus_csr _ _ hc]
    exact Machine.mapMstatus_csr _ _ hc
  · unfold Machine.mprv Nemu.sretEntry
    dsimp only
    rw [Machine.mapMstatus_mstatus, Machine.mapMstatus_mstatus, setBit_ne _ _ (by decide)]
    rw [if_pos]
    · exact setBit_self 17 false _ (by decide)
    · unfold Machine.spp
      split <;> decide

theorem Settled.mretEntry (hs : Settled s) : Settled (mretEntry P s) := by
  refine hs.of_mstatus (fun c hc => ?_) rfl (fun hm => ?_)
  · unfold Nemu.mretEntry
    dsimp only
    rw [Machine.mapMstatus_csr _ _ hc, Machine.mapMstatus_csr _ _ hc]
    exact Machine.mapMstatus_csr _ _ hc
  · unfold Machine.mprv Nemu.mretEntry
    dsimp only
    rw [Machine.mapMstatus_mstatus, Machine.mapMstatus_mstatus,
      BitField.getLsbD_insert_disjoint _ _ _ _ (by decide)]
    rw [if_pos]
    · exact setBit_self 17 false _ (by decide)
    · exact hm

end Entry

section Refresh

theorem updateMmuState_settled (hs : Settled s) : updateMmuState s = .ok () s.refreshMmu :=
  updateMmuState_legal hs.satp

theorem retTail_run (hs : Settled s) (epc : Csr) :
    retTail epc s = .ok (s.csr epc) s.refreshMmu := by
  unfold retTail
  rw [bind_ok (updateMmuState_settled hs)]
  rfl

theorem raiseIntr_run (hs : Settled s) (no epc : Word) :
    ∃ pc, raiseIntr P no epc s = .ok pc (trapEntry P no epc s).refreshMmu := by
  rw [raiseIntr_eq, bind_ok (updateMmuState_settled (hs.trapEntry no epc))]
  exact ⟨_, rfl⟩

theorem raiseIntr_coherent (no epc : Word) : coherentEffect.Within (raiseIntr P no epc) := by
  intro s
  apply At.assume
  intro hs
  obtain ⟨pc, hrun⟩ := raiseIntr_run hs.toSettled no epc
  exact .of_ok hrun fun _ => (hs.toSettled.trapEntry no epc).refreshMmu

theorem uret_coherent : coherentEffect.Within (uret P) := by
  intro s
  apply At.assume
  intro hs
  have hrun := retTail_run (hs.toSettled.uretEntry (P := P)) .uepc
  exact .of_ok ((uret_eq P s).trans hrun) fun _ => hs.toSettled.uretEntry.refreshMmu

theorem illegalIf_coherent (p : Prop) [Decidable p] : coherentEffect.Within (illegalIf p) := by
  unfold illegalIf
  split
  · exact .raise fun s hs => ⟨by decide, fun _ _ => hs⟩
  · exact .ret _ _

theorem sret_coherent : coherentEffect.Within (sret P) := by
  intro s
  apply At.congr (sret_eq P s)
  refine At.bind (illegalIf_coherent _ s) fun _ t ht => ?_
  obtain ⟨rfl, -⟩ := illegalIf_ok ht
  apply At.assume
  intro hs
  exact .of_ok (retTail_run hs.toSettled.sretEntry .sepc)
    fun _ => hs.toSettled.sretEntry.refreshMmu

theorem mret_coherent : coherentEffect.Within (mret P) := by
  intro s
  apply At.congr (mret_eq P s)
  refine At.bind (illegalIf_coherent _ s) fun _ t ht => ?_
  obtain ⟨rfl, -⟩ := illegalIf_ok ht
  apply At.assume
  intro hs
  exact .of_ok (retTail_run hs.toSettled.mretEntry .mepc)
    fun _ => hs.toSettled.mretEntry.refreshMmu

end Refresh

section System

variable {d : Decode}

theorem privInstr_coherent : coherentEffect.Within (privInstr P op) := by
  unfold privInstr
  split
  · exact uret_coherent
  split
  · exact sret_coherent
  split
  · exact mret_coherent
  · exact Within.coherent_of_data (q := fun _ => False) privFence_data

theorem rtlJ_coherent : coherentEffect.Within (rtlJ P target) := by
  have h : (flowEffect P (BadExec .inv)).Within (rtlJ P target) := Within.flow rtlJ_jump
  exact Within.coherent h

theorem hostcallTrap_coherent : coherentEffect.Within (hostcallTrap P pc imm epc) := by
  have hd : coherentEffect.Within (setCsr .dfreason FaultReason.DFR_EF.code) :=
    .update fun s hs => hs.of_control rfl
  refine .bind (.read _) fun s => ?_
  dsimp only
  split
  · exact .bind hd fun _ => raiseIntr_coherent _ _
  split
  · exact .bind hd fun _ => raiseIntr_coherent _ _
  · exact raiseIntr_coherent _ _

theorem rtlTrap_coherent : coherentEffect.Within (rtlTrap P d no) :=
  .bind hostcallTrap_coherent fun _ => .bind rtlJ_coherent fun _ => .ret _ _

theorem sysPriv_coherent : coherentEffect.Within (sysPriv P d) := by
  refine .bind (.bind (.read _) fun s => ?_) fun jpc => ?_
  · split
    · exact rtlTrap_coherent
    split
    · exact rtlTrap_coherent
    · exact privInstr_coherent
  · split
    · exact rtlJ_coherent
    · exact .ret _ _

end System

section CsrWrite

def controlCsr : Csr → Bool
  | .mstatus | .satp | .fcsr => true
  | _ => false

theorem control_setCsr (s : Machine) (v : Word) (h : controlCsr c = false) :
    (s.setCsr c v).control = s.control := by
  have hne : ∀ c', controlCsr c' = true → (s.setCsr c v).csr c' = s.csr c' := by
    intro c' hc'
    apply Machine.setCsr_csr_ne
    rintro rfl
    rw [h] at hc'
    cases hc'
  unfold Machine.control Machine.mprv Machine.mpp Machine.satpMode Machine.frm
  rw [hne .mstatus rfl, hne .satp rfl, hne .fcsr rfl]
  rfl

theorem control_mapMstatus (h17 : ∀ x, (f x).getLsbD 17 = x.getLsbD 17)
    (h11 : ∀ x, (f x).extractLsb' 11 2 = x.extractLsb' 11 2) (s : Machine) :
    (s.mapMstatus f).control = s.control := by
  unfold Machine.control Machine.mprv Machine.mpp Machine.satpMode Machine.frm
  rw [Machine.mapMstatus_mstatus, h17, h11, Machine.mapMstatus_csr _ _ (by decide),
    Machine.mapMstatus_csr _ _ (by decide)]
  rfl

theorem control_merge (mask x : Word) (s : Machine) (h17 : mask.getLsbD 17 = false)
    (h11 : mask.extractLsb' 11 2 = 0) :
    (s.setCsr .mstatus (BitField.merge mask (s.csr .mstatus) x)).control = s.control := by
  have h := control_mapMstatus (f := fun y => BitField.merge mask y x) (s := s)
  apply h
  · intro y
    rw [BitField.getLsbD_merge, h17]
    rfl
  · intro y
    exact BitField.extract_merge_of_clear mask y x 11 2 h11

theorem sstatusWmask_getLsbD (P : Platform) : (sstatusWmask P).getLsbD 17 = false := by
  unfold sstatusWmask
  cases P.rvv <;> cases P.rvn <;> decide

theorem sstatusWmask_mpp (P : Platform) : (sstatusWmask P).extractLsb' 11 2 = 0 := by
  unfold sstatusWmask
  cases P.rvv <;> cases P.rvn <;> decide

theorem csrStore_control (h : controlCsr c = false) (hfp : isFpCsr c = false) (x : Word) :
    (csrStore P s c x).control = s.control := by
  unfold csrStore
  cases c with
  | mstatus | satp => cases h
  | fcsr | fflags | frm => cases hfp
  | sstatus => exact control_merge _ x s (sstatusWmask_getLsbD P) (sstatusWmask_mpp P)
  | ustatus => exact control_merge _ x s (by decide) (by decide)
  | vcsr => exact (control_setCsr _ _ rfl).trans (control_setCsr s _ rfl)
  | misa =>
    dsimp only
    split
    · rfl
    · exact control_setCsr s _ rfl
  | pmpaddr i | pmpcfg i =>
    dsimp only
    split
    · rfl
    · exact control_setCsr s _ rfl
  | _ => exact control_setCsr s _ rfl

theorem control_updateMstatusSd (P : Platform) (s : Machine) :
    (s.mapMstatus (updateMstatusSdVal P)).control = s.control :=
  control_of_eraseData (eraseData_setCsr_bits s (eraseBits_updateMstatusSdVal P _))

theorem control_fpSetDirty (P : Platform) (s : Machine) :
    (s.mapMstatus (fpSetDirtyVal P)).control = s.control :=
  control_of_eraseData (eraseData_setCsr_bits s (eraseBits_fpSetDirtyVal P _))

theorem updateMstatusSd_coherent : coherentEffect.Within (updateMstatusSd P) :=
  .update fun s hs => hs.of_control (control_updateMstatusSd P s)

theorem csrWriteTail_mstatus (hs : Coherent s) (hm : s.mode = .M) (x : Word) :
    coherentEffect.At s (csrWriteTail P .mstatus x) := by
  let u := (csrStore P s .mstatus x).mapMstatus (updateMstatusSdVal P)
  have hrun : csrWriteTail P .mstatus x s = updateMmuState u := rfl
  have hu : Settled u := by
    refine hs.toSettled.of_mstatus (fun c hc => ?_) rfl (fun h => absurd hm h)
    exact (Machine.mapMstatus_csr _ _ hc).trans (Machine.setCsr_csr_ne s _ hc)
  exact .of_ok (hrun.trans (updateMmuState_settled hu)) fun _ => hu.refreshMmu

theorem satp_and_legal (x m : Word) (h : x.extractLsb' 60 4 = 8 ∨ x.extractLsb' 60 4 = 0) :
    (m &&& x).extractLsb' 60 4 = 0 ∨ (m &&& x).extractLsb' 60 4 = 8 := by
  rw [BitVec.extractLsb'_and]
  generalize m.extractLsb' 60 4 = a
  rcases h with h | h
  · rw [h]
    revert a
    decide
  · rw [h]
    exact .inl (BitVec.and_zero)

theorem Settled.csrStore_satp (hs : Settled s) (x : Word) : Settled (csrStore P s .satp x) := by
  unfold csrStore
  dsimp only
  split
  · next hx =>
    refine ⟨hs.mprv, ?_, hs.rm⟩
    unfold Machine.SatpLegal Machine.satpMode
    rw [Machine.setCsr_csr_self]
    exact satp_and_legal x _ hx
  · exact hs

theorem csrWriteTail_satp (hs : Coherent s) (x : Word) :
    coherentEffect.At s (csrWriteTail P .satp x) := by
  have hrun : csrWriteTail P .satp x s = updateMmuState (csrStore P s .satp x) := rfl
  have hu : Settled (csrStore P s .satp x) := hs.toSettled.csrStore_satp x
  exact .of_ok (hrun.trans (updateMmuState_settled hu)) fun _ => hu.refreshMmu

theorem fpUpdateRmCache_run (rm : BitVec 32) (s : Machine) :
    fpUpdateRmCache rm s =
      if rm < 5 then .ok () { s with rmCache := rm } else .error (.abort .roundingMode) s := by
  unfold fpUpdateRmCache assert
  split <;> rfl

theorem mmuControl_setCsr (s : Machine) (v : Word) (h : c ≠ .mstatus) (h' : c ≠ .satp) :
    (s.setCsr c v).mmuControl = s.mmuControl := by
  unfold Machine.mmuControl Machine.control Machine.mprv Machine.mpp Machine.satpMode
  rw [Machine.setCsr_csr_ne s v h.symm, Machine.setCsr_csr_ne s v h'.symm]
  rfl

theorem csrStore_fp (hc : isFpCsr c = true) (x : Word) :
    (csrStore P s c x).mmuControl = s.mmuControl := by
  unfold csrStore
  cases c with
  | fflags | frm =>
    dsimp only
    rw [mmuControl_setCsr _ _ (by decide) (by decide),
      mmuControl_setCsr _ _ (by decide) (by decide)]
  | fcsr =>
    dsimp only
    rw [mmuControl_setCsr _ _ (by decide) (by decide),
      mmuControl_setCsr _ _ (by decide) (by decide),
      mmuControl_setCsr _ _ (by decide) (by decide)]
  | _ => cases hc

theorem Coherent.csrStore_fp (hs : Coherent s) (hc : isFpCsr c = true) (x : Word) :
    Coherent { csrStore P s c x with
      rmCache := (csrStore P s c x).frm.setWidth 32 } :=
  hs.of_mmuControl (Nemu.csrStore_fp hc x) rfl

theorem csrWriteTail_fp (hs : Coherent s) (hc : isFpCsr c = true) (x : Word) :
    coherentEffect.At s (csrWriteTail P c x) := by
  let w := (csrStore P s c x).mapMstatus (fpSetDirtyVal P)
  have hmmu : csrWriteMmu c = pure () := by
    unfold csrWriteMmu
    rw [if_neg]
    rintro (rfl | rfl)
    · cases hc
    · cases hc
  have hsd : csrWriteSd P c = updateMstatusSd P := if_pos (.inr (.inr hc))
  have hrun : csrWriteTail P c x s = (fpUpdateRmCache (w.frm.setWidth 32) >>= fun _ =>
      csrWriteSd P c >>= fun _ => csrWriteMmu c) w := by
    unfold csrWriteTail csrWriteFp
    rw [if_pos hc]
    rfl
  rw [hmmu, hsd] at hrun
  by_cases hrm : (w.frm.setWidth 32 : BitVec 32) < 5
  · rw [bind_ok ((fpUpdateRmCache_run _ w).trans (if_pos hrm))] at hrun
    refine .of_ok hrun fun _ => ?_
    have hw : Coherent { w with rmCache := w.frm.setWidth 32 } :=
      (hs.csrStore_fp hc x).of_control (control_fpSetDirty P { csrStore P s c x with
        rmCache := (csrStore P s c x).frm.setWidth 32 })
    exact hw.of_control (control_updateMstatusSd P _)
  · rw [bind_error ((fpUpdateRmCache_run _ w).trans (if_neg hrm))] at hrun
    exact .of_error hrun fun _ => ⟨by decide, fun _ h => by cases h⟩

theorem csrWriteTail_other (h : controlCsr c = false) (hfp : isFpCsr c = false) (x : Word) :
    coherentEffect.Within (csrWriteTail P c x) := by
  refine .bind (.update fun s hs => hs.of_control (csrStore_control h hfp x)) fun _ => ?_
  refine .bind ?_ fun _ => .bind ?_ fun _ => ?_
  · unfold csrWriteFp
    rw [hfp]
    exact .ret _ _
  · unfold csrWriteSd
    split
    · exact updateMstatusSd_coherent
    · exact .ret _ _
  · unfold csrWriteMmu
    rw [if_neg]
    · exact .ret _ _
    · rintro (rfl | rfl)
      · cases h
      · cases h

theorem csrWrite_coherent (hm : c = .mstatus → s.mode = .M) (x : Word) :
    coherentEffect.At s (csrWrite P c x) := by
  refine At.bind_get (At.bind (illegalIf_coherent _ s) fun _ t ht => ?_)
  obtain ⟨rfl, -⟩ := illegalIf_ok ht
  change coherentEffect.At t (csrWriteTail P c x)
  apply At.assume
  intro hs
  cases hfp : isFpCsr c with
  | true => exact csrWriteTail_fp hs hfp x
  | false =>
    cases hc : controlCsr c with
    | false => exact csrWriteTail_other hc hfp x t
    | true =>
      cases c with
      | mstatus => exact csrWriteTail_mstatus hs (hm rfl) x
      | satp => exact csrWriteTail_satp hs x
      | fcsr => cases hfp
      | _ => cases hc

end CsrWrite

section Sys

variable {d : Decode}

theorem LegalCsr.mode_of_mstatus (h : LegalCsr P s addr pc .mstatus) : s.mode = .M := by
  have hm := h.mode
  rw [← (Csr.ofAddr_spec h.exist).1] at hm
  revert hm
  cases s.mode <;> decide

theorem csrrw_write_coherent : coherentEffect.Within (csrrw P false (some x) addr pc) := by
  intro s
  have hlegal : (dataEffect P fun _ => False).Within (csrIsLegal P addr true pc) := csrIsLegal_data
  refine At.bind (Within.coherent_of_data hlegal s) fun r t ht => ?_
  obtain ⟨rfl, hr⟩ := csrIsLegal_ok ht
  cases r with
  | none => exact Within.coherent_of_data (P := P) (q := fun _ => False) illegal_data t
  | some c =>
    refine At.bind (csrWrite_coherent (fun hc => ?_) x) fun _ u _ => Within.ret _ _ u
    subst hc
    exact (hr _ rfl).mode_of_mstatus

theorem sysCsr_coherent : coherentEffect.Within (sysCsr P d) := by
  have hwrite : ∀ v, coherentEffect.Within (writeReg d.dest.preg v) := fun v =>
    Within.coherent_of_data (P := P) (q := fun _ => False) writeReg_data
  have hread : coherentEffect.Within (readReg d.src1.preg) :=
    Within.coherent_of_data (P := P) (q := fun _ => False) readReg_data
  refine .bind (Within.coherent_of_data (q := fun _ => False) csrrw_read_data) fun old => ?_
  split
  · exact .bind hread fun src => .bind csrrw_write_coherent fun _ => hwrite old
  · exact hwrite old

theorem exec_coherent : coherentEffect.Within (exec P d) := by
  by_cases hs : d.id = .system
  · unfold exec
    rw [hs]
    change coherentEffect.Within (rtlSysSlowPath P d)
    unfold rtlSysSlowPath
    split
    · exact sysPriv_coherent
    · exact sysCsr_coherent
  · exact Within.coherent (exec_flow hs)

end Sys

end Nemu
