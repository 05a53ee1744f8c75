import Nemu.PrivMode

namespace Nemu

open Effect

set_option autoImplicit true

/-- The privileged operation that returns from a level. -/
def Level.retOp : Level → BitVec 32
  | .U => 0x002
  | .S => 0x102
  | .M => 0x302

/-- The positions of `xPP` in `mstatus`. -/
def Level.pp : Level → List Nat
  | .U => []
  | .S => [8]
  | .M => [11, 12]

/-- A trap, followed by the return from the level that it enters. -/
def trapAndReturn (P : Platform) (no epc : Word) : Exec Word := do
  let s ← get
  let _ ← raiseIntr P no epc
  privInstr P (trapLevel P s no).retOp

/-- What a trap to `l` and the return from it leave of the state: the mode, all registers and memory,
every CSR but those that hold the trap, and every bit of `mstatus` but `xPIE` and `xPP`. -/
structure Restores (l : Level) (s t : Machine) : Prop where
  mstatus : ∀ i, i ≠ l.pie → i ∉ l.pp → (t.csr .mstatus).getLsbD i = (s.csr .mstatus).getLsbD i
  csr : ∀ c, c ≠ .mstatus → c ≠ l.cause → c ≠ l.epc → c ≠ l.tval → t.csr c = s.csr c
  rest : t = { s with
    csr := t.csr
    ifetchMmuState := t.ifetchMmuState
    dataMmuState := t.dataMmuState }

/-- The status after the return from `l` to `mode`. -/
def returnStatus (P : Platform) (l : Level) (mode : Mode) (x : Word) : Word :=
  let y := if mode ≠ .M then setBit 17 false (popStatus P l x) else popStatus P l x
  match l with
  | .U => y
  | .S => setBit 8 false y
  | .M => BitField.insert 11 Mode.U.bits y

section Status

theorem Level.pushes_pp {l : Level} (h : l.pushes i = true) : i = l.ie ∨ i = l.pie ∨ i ∈ l.pp := by
  revert h
  cases l <;> simp [Level.pushes, Level.pp, or_assoc]

theorem pushStatus_pie (l : Level) (mode : Mode) (x : Word) :
    (pushStatus l mode x).getLsbD l.pie = x.getLsbD l.ie := by
  unfold pushStatus
  cases l with
  | U =>
    dsimp only [Level.ie, Level.pie]
    rw [setBit_ne _ _ (by decide), setBit_self _ _ _ (by decide)]
  | S =>
    dsimp only [Level.ie, Level.pie]
    rw [setBit_ne _ _ (by decide), setBit_self _ _ _ (by decide),
      BitField.getLsbD_insert_disjoint _ _ _ _ (by decide)]
  | M =>
    dsimp only [Level.ie, Level.pie]
    rw [setBit_ne _ _ (by decide), setBit_self _ _ _ (by decide),
      BitField.getLsbD_insert_disjoint _ _ _ _ (by decide)]

theorem Level.ie_lt (l : Level) : l.ie < 64 := by
  cases l <;> decide

theorem popStatus_pushStatus (hpie : i ≠ l.pie) (hpp : i ∉ l.pp) :
    (popStatus P l (pushStatus l mode x)).getLsbD i = x.getLsbD i := by
  unfold popStatus
  rw [setBit_ne _ _ hpie]
  by_cases hie : i = l.ie
  · rw [hie, setBit_self _ _ _ l.ie_lt, pushStatus_pie]
  · rw [setBit_ne _ _ hie]
    apply pushStatus_getLsbD
    by_contra hne
    have hbit := Level.pushes_pp (Bool.eq_true_of_not_eq_false hne)
    exact hbit.elim hie fun h => h.elim hpie hpp

theorem returnStatus_pushStatus (hprv : mode ≠ .M → x.getLsbD 17 = false) (hpie : i ≠ l.pie)
    (hpp : i ∉ l.pp) : (returnStatus P l mode (pushStatus l mode x)).getLsbD i = x.getLsbD i := by
  have hpop : (popStatus P l (pushStatus l mode x)).getLsbD i = x.getLsbD i :=
    popStatus_pushStatus hpie hpp
  have hmprv : (if mode ≠ .M then setBit 17 false (popStatus P l (pushStatus l mode x))
      else popStatus P l (pushStatus l mode x)).getLsbD i = x.getLsbD i := by
    split
    case isTrue hm =>
      by_cases h17 : i = 17
      · rw [h17, setBit_self _ _ _ (by decide), hprv hm]
      · rw [setBit_ne _ _ h17, hpop]
    case isFalse => exact hpop
  unfold returnStatus
  cases l with
  | U => exact hmprv
  | S =>
    dsimp only
    rw [setBit_ne _ _ (List.ne_of_not_mem_cons hpp)]
    exact hmprv
  | M =>
    have h11 : ¬ (11 ≤ i ∧ i < 11 + 2) := by
      intro hi
      apply hpp
      have hcases : i = 11 ∨ i = 12 := by omega
      obtain rfl | rfl := hcases <;> decide
    dsimp only
    rw [BitField.getLsbD_insert, if_neg h11]
    exact hmprv

end Status

section Return

/-- A change of the status and the mode. -/
def Machine.withStatus (s : Machine) (f : Word → Word) (mode : Mode) : Machine :=
  { s.mapMstatus f with mode := mode }

/-- The state in which a return from `l` to `mode` refreshes the MMU state. -/
def returned (P : Platform) (l : Level) (mode : Mode) (s : Machine) : Machine :=
  s.withStatus (returnStatus P l mode) mode

theorem retTail_legal (hs : s.SatpLegal) (epc : Csr) :
    retTail epc s = .ok (s.csr epc) s.refreshMmu := by
  unfold retTail
  rw [bind_ok (updateMmuState_legal hs)]
  rfl

theorem returned_csr (h : c ≠ .mstatus) : (returned P l mode s).csr c = s.csr c :=
  Machine.mapMstatus_csr (returnStatus P l mode) s h

theorem returned_mstatus (P : Platform) (l : Level) (mode : Mode) (s : Machine) :
    (returned P l mode s).csr .mstatus = returnStatus P l mode (s.csr .mstatus) :=
  s.mapMstatus_mstatus (returnStatus P l mode)

theorem returned_satp (h : s.SatpLegal) : (returned P l mode s).SatpLegal := by
  unfold Machine.SatpLegal Machine.satpMode
  rw [returned_csr (by decide)]
  exact h

theorem Machine.withStatus_mapMstatus (s : Machine) (f g : Word → Word) (mode : Mode) :
    (s.withStatus f mode).mapMstatus g = s.withStatus (g ∘ f) mode := by
  have hx : Function.update s.csr .mstatus (f (s.csr .mstatus)) .mstatus = f (s.csr .mstatus) :=
    Function.update_self _ _ _
  unfold Machine.withStatus Machine.mapMstatus Machine.setCsr
  dsimp only
  rw [hx, Function.update_idem]
  rfl

theorem uretEntry_returned (P : Platform) (s : Machine) :
    uretEntry P s = returned P .U .U s :=
  s.withStatus_mapMstatus (popStatus P .U) (setBit 17 false) .U

theorem sretEntry_returned (h : s.spp = mode) : sretEntry P s = returned P .S mode s := by
  have hspp : (s.mapMstatus (popStatus P .S)).spp = mode := by
    rw [← h]
    unfold Machine.spp popStatus
    rw [Machine.mapMstatus_mstatus, setBit_ne _ _ (by decide), setBit_ne _ _ (by decide)]
  change ((s.withStatus (popStatus P .S) (s.mapMstatus (popStatus P .S)).spp).mapMstatus fun x =>
    if (s.mapMstatus (popStatus P .S)).spp ≠ .M then setBit 17 false x else x).mapMstatus
      (setBit 8 false) = _
  rw [hspp, Machine.withStatus_mapMstatus, Machine.withStatus_mapMstatus]
  rfl

theorem mretEntry_returned (h : s.mpp = mode) : mretEntry P s = returned P .M mode s := by
  have hmpp : (s.mapMstatus (popStatus P .M)).mpp = mode := by
    rw [← h]
    unfold Machine.mpp
    rw [Machine.mapMstatus_mstatus, popStatus_mpp]
  change ((s.withStatus (popStatus P .M) (s.mapMstatus (popStatus P .M)).mpp).mapMstatus fun x =>
    if (s.mapMstatus (popStatus P .M)).mpp ≠ .M then setBit 17 false x else x).mapMstatus
      (BitField.insert 11 Mode.U.bits) = _
  rw [hmpp, Machine.withStatus_mapMstatus, Machine.withStatus_mapMstatus]
  rfl

theorem illegalIf_pass {p : Prop} [Decidable p] (h : ¬ p) (s : Machine) :
    illegalIf p s = .ok () s := by
  unfold illegalIf
  rw [if_neg h]
  rfl

theorem privInstr_U (h : P.rvn = true) : privInstr P Level.U.retOp = uret P := if_pos ⟨h, rfl⟩

theorem privInstr_S (P : Platform) : privInstr P Level.S.retOp = sret P :=
  (if_neg fun h => absurd h.2 (by decide)).trans (if_pos rfl)

theorem privInstr_M (P : Platform) : privInstr P Level.M.retOp = mret P :=
  (if_neg fun h => absurd h.2 (by decide)).trans ((if_neg (by decide)).trans (if_pos rfl))

theorem privInstr_ret (hmode : s.mode = l.mode) (hs : s.SatpLegal)
    (hu : l = .U → P.rvn = true ∧ mode = .U) (hsret : l = .S → s.tsr = false ∧ s.spp = mode)
    (hmret : l = .M → s.mpp = mode) :
    privInstr P l.retOp s = .ok (s.csr l.epc) (returned P l mode s).refreshMmu := by
  have hepc : (returned P l mode s).csr l.epc = s.csr l.epc :=
    returned_csr (by cases l <;> decide)
  have htail : retTail l.epc (returned P l mode s) =
      .ok (s.csr l.epc) (returned P l mode s).refreshMmu := by
    rw [retTail_legal (returned_satp hs), hepc]
  cases l with
  | U =>
    obtain ⟨hrvn, rfl⟩ := hu rfl
    rw [privInstr_U hrvn, uret_eq, uretEntry_returned]
    exact htail
  | S =>
    obtain ⟨htsr, hspp⟩ := hsret rfl
    have hlegal : ¬ ((s.mode = .S ∧ s.tsr = true) ∨ s.mode < .S) := by
      rw [hmode, htsr]
      decide
    have hret : sret P s = retTail .sepc (sretEntry P s) := bind_ok (illegalIf_pass hlegal s)
    rw [privInstr_S, hret, sretEntry_returned hspp]
    exact htail
  | M =>
    have hlegal : ¬ s.mode < .M := by
      rw [hmode]
      decide
    have hret : mret P s = retTail .mepc (mretEntry P s) := bind_ok (illegalIf_pass hlegal s)
    rw [privInstr_M, hret, mretEntry_returned (hmret rfl)]
    exact htail

end Return

section Inverse

variable {P : Platform} {s t : Machine} {no epc : Word}

theorem trapLevel_rvn (h : trapLevel P s no = .U) : P.rvn = true := by
  unfold trapLevel at h
  split at h
  case isTrue hu => exact (Bool.and_eq_true_iff.mp hu).1
  case isFalse => split at h <;> cases h

theorem pushStatus_spp (hmode : s.mode < .M) (hH : s.mode ≠ .H)
    (h : t.csr .mstatus = pushStatus .S s.mode (s.csr .mstatus)) : t.spp = s.mode := by
  have hbit : (t.csr .mstatus).getLsbD 8 = (s.mode.bits.setWidth 1).getLsbD 0 := by
    rw [h]
    unfold pushStatus
    dsimp only [Level.ie, Level.pie]
    rw [setBit_ne _ _ (by decide), setBit_ne _ _ (by decide), BitField.getLsbD_insert,
      if_pos (by decide)]
    rfl
  unfold Machine.spp
  rw [hbit]
  revert hmode hH
  cases s.mode <;> decide

theorem pushStatus_saves_mpp (h : t.csr .mstatus = pushStatus .M s.mode (s.csr .mstatus)) :
    t.mpp = s.mode := by
  unfold Machine.mpp
  rw [h, pushStatus_mpp, if_pos rfl, Mode.ofBits_bits]

theorem raiseIntr_legal (hs : (trapEntry P no epc s).SatpLegal) :
    ∃ pc, raiseIntr P no epc s = .ok pc (trapEntry P no epc s).refreshMmu := by
  rw [raiseIntr_eq, bind_ok (updateMmuState_legal hs)]
  exact ⟨_, rfl⟩

theorem trapEntry_satp (h : s.SatpLegal) : (trapEntry P no epc s).SatpLegal := by
  unfold Machine.SatpLegal Machine.satpMode
  rw [trapEntry_csr P no epc s (by cases trapLevel P s no <;> rfl)]
  exact h

theorem trapEntry_tsr : (trapEntry P no epc s).tsr = s.tsr := by
  unfold Machine.tsr
  rw [trapEntry_mstatus]
  exact pushStatus_getLsbD _ _ _ (by cases trapLevel P s no <;> rfl)

theorem trapEntry_rest (P : Platform) (no epc : Word) (s : Machine) :
    trapEntry P no epc s = { s with
      csr := (trapEntry P no epc s).csr
      mode := (trapEntry P no epc s).mode } := by
  have hcsr : ∀ t : Machine, (∃ f, t = { s with csr := f }) →
      ∃ f, (if keepsTval P no then t else t.setCsr (trapLevel P s no).tval 0) = { s with csr := f } := by
    rintro _ ⟨f, rfl⟩
    split
    · exact ⟨f, rfl⟩
    · exact ⟨_, rfl⟩
  unfold trapEntry
  dsimp only
  obtain ⟨f, hf⟩ := hcsr (((s.setCsr (trapLevel P s no).cause no).setCsr (trapLevel P s no).epc epc).setCsr
    .mstatus (pushStatus (trapLevel P s no) s.mode
      (((s.setCsr (trapLevel P s no).cause no).setCsr (trapLevel P s no).epc epc).csr .mstatus))) ⟨_, rfl⟩
  rw [hf]

theorem restores_returned (hprv : s.mode ≠ .M → s.mprv = false) :
    Restores (trapLevel P s no) s
      (returned P (trapLevel P s no) s.mode (trapEntry P no epc s).refreshMmu).refreshMmu where
  mstatus i hpie hpp := by
    have hstatus := returned_mstatus P (trapLevel P s no) s.mode (trapEntry P no epc s).refreshMmu
    have hpush : (trapEntry P no epc s).refreshMmu.csr .mstatus =
        pushStatus (trapLevel P s no) s.mode (s.csr .mstatus) := trapEntry_mstatus P no epc s
    rw [hpush] at hstatus
    have hbit := congrArg (fun x => x.getLsbD i) hstatus
    exact hbit.trans (returnStatus_pushStatus hprv hpie hpp)
  csr c hm hcause hepc htval := by
    have hret : (returned P (trapLevel P s no) s.mode (trapEntry P no epc s).refreshMmu).csr c =
        (trapEntry P no epc s).csr c := returned_csr hm
    have hwrites : (trapLevel P s no).writes c = false := by
      unfold Level.writes
      rw [decide_eq_false hcause, decide_eq_false hepc, decide_eq_false htval, decide_eq_false hm]
      rfl
    exact hret.trans (trapEntry_csr P no epc s hwrites)
  rest := by
    have htrap := trapEntry_rest P no epc s
    generalize trapEntry P no epc s = t at htrap
    rw [htrap]
    rfl

/-- The return from a trap undoes it. -/
theorem trapAndReturn_restores (hH : s.mode ≠ .H) (hprv : s.mode ≠ .M → s.mprv = false)
    (hsatp : s.SatpLegal) (htsr : trapLevel P s no = .S → s.tsr = false) :
    ∃ t, trapAndReturn P no epc s = .ok epc t ∧ Restores (trapLevel P s no) s t := by
  obtain ⟨pc, htrap⟩ := raiseIntr_legal (trapEntry_satp hsatp)
  have hstatus := trapEntry_mstatus P no epc s
  have hret : privInstr P (trapLevel P s no).retOp (trapEntry P no epc s).refreshMmu =
      .ok ((trapEntry P no epc s).csr (trapLevel P s no).epc)
        (returned P (trapLevel P s no) s.mode (trapEntry P no epc s).refreshMmu).refreshMmu := by
    apply privInstr_ret
    · rfl
    · exact trapEntry_satp hsatp
    · exact fun hl => ⟨trapLevel_rvn hl, trapLevel_U hl⟩
    · intro hl
      rw [hl] at hstatus
      exact ⟨trapEntry_tsr.trans (htsr hl), pushStatus_spp (trapLevel_S hl) hH hstatus⟩
    · intro hl
      rw [hl] at hstatus
      exact pushStatus_saves_mpp hstatus
  rw [trapEntry_epc] at hret
  exact ⟨_, (bind_ok htrap).trans hret, restores_returned hprv⟩

/-- User code whose calls go to the level S. -/
def callingUser : Machine :=
  { (Machine.reset (.bare .standalone) fun _ => 0).setCsr .medeleg 0x100 with mode := .U }

/-- A call of user code, and the return from it. -/
theorem trapAndReturn_restores_call :
    trapLevel (.bare .standalone) callingUser Exc.ECU.code = .S ∧
      ∃ t, trapAndReturn (.bare .standalone) Exc.ECU.code 0x80001000 callingUser =
        .ok 0x80001000 t ∧
          Restores (trapLevel (.bare .standalone) callingUser Exc.ECU.code) callingUser t :=
  ⟨by decide, trapAndReturn_restores (by decide) (by decide) (by decide) (by decide)⟩

end Inverse

end Nemu
