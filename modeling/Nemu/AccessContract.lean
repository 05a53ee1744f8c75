import Nemu.AccessEffect
import Nemu.Frame

namespace Nemu

open Effect

set_option autoImplicit true

variable {P : Platform} {q : Machine → Prop} {s t : Machine}

theorem eraseFault_setCsr (s : Machine) (v : Word) (h : faultCsr c = true) :
    (s.setCsr c v).eraseFault = s.eraseFault := by
  unfold Machine.eraseFault Machine.setCsr
  congr 1
  funext c'
  by_cases hc : c' = c
  · subst hc
    simp only [h, ↓reduceIte]
  · simp only [Function.update_of_ne hc]

theorem eraseAccess_setCsr (s : Machine) (v : Word) (h : volatileCsr c = true) :
    (s.setCsr c v).eraseAccess = s.eraseAccess := by
  unfold Machine.eraseAccess Machine.setCsr
  congr 1
  funext c'
  by_cases hc : c' = c
  · subst hc
    simp only [h, ↓reduceIte]
  · simp only [Function.update_of_ne hc]

theorem Level.tval_fault (l : Level) : faultCsr l.tval = true := by
  cases l <;> rfl

theorem Level.tval_injective : Function.Injective Level.tval := by
  intro a b h
  cases a <;> cases b <;> first | rfl | cases h

theorem setCsr_tval (s : Machine) (v : Word) (l l' : Level) :
    (s.setCsr l.tval v).csr l'.tval = if l' = l then v else s.csr l'.tval := by
  by_cases h : l' = l
  · subst h
    simp only [Machine.setCsr_csr_self, ↓reduceIte]
  · rw [if_neg h, Machine.setCsr_csr_ne]
    exact fun hc => h (Level.tval_injective hc)

theorem frame_of_eraseFault (h : t.eraseFault = s.eraseFault) :
    t.eraseFault.eraseAccess = s.eraseAccess.eraseFault := by
  rw [h, Machine.eraseFault_eraseAccess]

theorem faultAt_run (P : Platform) (ex : Exc) (va : Word) (s : Machine) :
    (faultAt P ex va : Exec α) s =
      .error (.exception ⟨ex, some va, .plain⟩) (s.setCsr (trapLevel P s ex.code).tval va) := by
  rw [← intrTvalReg_eq]
  rfl

theorem stops_plain (hk : keepsTval P ex.code = true)
    (hframe : t.eraseFault = s.eraseFault) (htval : ∀ l : Level, t.csr l.tval = s.csr l.tval)
    (hl : trapLevel P t ex.code = trapLevel P s ex.code)
    (hr : isDasicsCause ex = true →
      P.dasics = true ∧ t.csr .dfreason ≠ FaultReason.DFR_JF.code) :
    Stops P Machine.eraseAccess q s.eraseAccess (.exception ⟨ex, some va, .plain⟩)
      (t.setCsr (trapLevel P t ex.code).tval va) where
  frame := by
    apply frame_of_eraseFault
    rw [eraseFault_setCsr t va (Level.tval_fault _), hframe]
  raised f hf := by
    cases hf
    refine ⟨fun l => ?_, hk.symm, fun h => absurd rfl h, fun h => ?_⟩
    · rw [setCsr_tval, htval, hl, tvalAfter_eraseAccess]
      rfl
    · refine ⟨(hr h).1, ?_⟩
      rw [Machine.setCsr_csr_ne]
      · exact (hr h).2
      · cases trapLevel P t ex.code <;> decide
  mmuState h := by cases h
  permissionMode h := by cases h

theorem faultAt_access (hk : keepsTval P ex.code = true) (hd : isDasicsCause ex = false)
    (va : Word) : (accessEffect P q).Within (faultAt P ex va : Exec α) := by
  intro s
  unfold At
  rw [faultAt_run]
  exact stops_plain hk rfl (fun _ => rfl) rfl (fun h => by rw [hd] at h; cases h)

theorem dasicsFault_access (hP : P.dasics = true) (mode : Mode)
    (hr : reason ≠ .DFR_JF) (va : Word) :
    (accessEffect P q).Within (dasicsFault P (dasicsEx mode) reason va : Exec α) := by
  intro s
  have hrun : (dasicsFault P (dasicsEx mode) reason va : Exec α) s =
      (faultAt P (dasicsEx mode) va : Exec α) (s.setCsr .dfreason reason.code) := rfl
  unfold At
  rw [hrun, faultAt_run]
  refine stops_plain ?_ (eraseFault_setCsr s _ rfl) (fun l => ?_) rfl (fun _ => ?_)
  · unfold dasicsEx
    split <;> simp [keepsTval, hP]
  · rw [Machine.setCsr_csr_ne]
    cases l <;> decide
  · refine ⟨hP, ?_⟩
    rw [Machine.setCsr_csr_self]
    revert hr
    cases reason <;> decide

/-- The aborts that say nothing about the mode or the MMU state. -/
def Abort.other : Abort → Bool
  | mmuState | permissionMode => false
  | _ => true

theorem stops_abort (ha : a.other = true) (hframe : t.eraseFault = s.eraseFault) :
    Stops P Machine.eraseAccess q s.eraseAccess (.abort a) t where
  frame := frame_of_eraseFault hframe
  raised f hf := by cases hf
  mmuState h := by
    cases h
    cases ha
  permissionMode h := by
    cases h
    cases ha

theorem abort_access (ha : a.other = true) :
    (accessEffect P q).Within (throw (.abort a) : Exec α) :=
  .raise fun _ => stops_abort ha rfl

theorem assert_access (p : Prop) [Decidable p] (ha : a.other = true) :
    (accessEffect P q).Within (assert p a) := by
  unfold assert
  split
  · exact .ret _ _
  · exact abort_access ha

theorem stops_none (hk : keepsTval P ex.code = false) (hd : isDasicsCause ex = false) :
    Stops P Machine.eraseAccess q s.eraseAccess (.exception ⟨ex, none, .plain⟩) s where
  frame := frame_of_eraseFault rfl
  raised f hf := by
    cases hf
    refine ⟨fun l => ?_, hk.symm, fun h => absurd rfl h, fun h => ?_⟩
    · rw [tvalAfter_eraseAccess]
      rfl
    · rw [hd] at h
      cases h
  mmuState h := by cases h
  permissionMode h := by cases h

theorem illegal_access : (accessEffect P q).Within (longjmpException .II : Exec α) :=
  .raise fun _ => stops_none (by simp [keepsTval, Exc.code]) rfl

theorem pmemRead_access : (accessEffect P q).Within (pmemRead addr len) :=
  .bind (assert_access _ rfl) fun _ => .bind (.read _) fun _ => .ret _ _

theorem pmemWrite_access : (accessEffect P q).Within (pmemWrite addr len data) :=
  .bind (assert_access _ rfl) fun _ => .update fun _ => rfl

theorem eraseAccess_setMtip (b : Option Bool) (s : Machine) :
    (setMtip b s).eraseAccess = s.eraseAccess := by
  cases b with
  | none => rfl
  | some b => exact eraseAccess_setCsr s _ rfl

theorem mmioRead_access : (accessEffect P q).Within (mmioRead P addr len) := by
  refine .bind (.read _) fun s => ?_
  split
  · exact abort_access rfl
  · refine .bind (.update fun s => ?_) fun _ => .ret _ _
    exact eraseAccess_setMtip _ _

theorem mmioWrite_access : (accessEffect P q).Within (mmioWrite P addr len data) := by
  refine .bind (.read _) fun s => ?_
  split
  · exact abort_access rfl
  · exact .update fun s => eraseAccess_setMtip _ _

theorem raiseAccessFault_access (hk : keepsTval P ex.code = true)
    (hd : isDasicsCause ex = false) (va : Word) :
    (accessEffect P q).Within (raiseAccessFault P ex va : Exec α) := by
  intro s
  have hrun : (raiseAccessFault P ex va : Exec α) s =
      (faultAt P ex va : Exec α) { s with amo := false } := rfl
  unfold At
  rw [hrun, faultAt_run]
  exact stops_plain hk rfl (fun _ => rfl) rfl (fun h => by rw [hd] at h; cases h)

theorem raiseReadAccessFault_access :
    (accessEffect P q).Within (raiseReadAccessFault P type va : Exec α) := by
  refine .bind (.read _) fun s => ?_
  split
  · exact raiseAccessFault_access (by simp [keepsTval]) rfl va
  · split
    · exact raiseAccessFault_access (by simp [keepsTval]) rfl va
    · exact raiseAccessFault_access (by simp [keepsTval]) rfl va

theorem paddrRead_access : (accessEffect P q).Within (paddrRead P pa len type mode va) := by
  refine .bind (.read _) fun s => ?_
  split
  · exact raiseReadAccessFault_access
  · split
    · exact pmemRead_access
    · split
      · exact mmioRead_access
      · split
        · exact .ret _ _
        · exact raiseReadAccessFault_access

theorem paddrWrite_access : (accessEffect P q).Within (paddrWrite P pa len data mode va) := by
  have hsaf : keepsTval P Exc.SAF.code = true := by simp [keepsTval]
  refine .bind (.read _) fun s => ?_
  split
  · exact raiseAccessFault_access hsaf rfl va
  · split
    · exact pmemWrite_access
    · split
      · exact mmioWrite_access
      · split
        · exact .ret _ _
        · exact raiseAccessFault_access hsaf rfl va

/-- The assertion of `check_permission` holds. -/
def Permitted (v : Machine) (ifetch : Bool) : Prop :=
  v.accessMode ifetch = .U ∨ v.accessMode ifetch = .S

theorem assert_permissionMode (s : Machine) (ifetch : Bool)
    (hq : ¬ Permitted s.eraseAccess ifetch → q s.eraseAccess) :
    (accessEffect P q).At s
      (assert (s.accessMode ifetch = .U ∨ s.accessMode ifetch = .S) .permissionMode) := by
  unfold assert
  split
  · exact Within.ret _ _ s
  · next h =>
    apply At.raise
    refine ⟨frame_of_eraseFault rfl, fun f hf => ?_, fun h => ?_, fun _ => hq h⟩
    · cases hf
    · cases h

theorem assert_ok [Decidable p] (h : assert p a s = .ok () t) : t = s ∧ p := by
  unfold assert at h
  split at h
  · next hp =>
    cases h
    exact ⟨rfl, hp⟩
  · cases h

section Translation

theorem pageFault_keeps (b : Prop) [Decidable b] :
    keepsTval P (if b then Exc.SPF else .LPF).code = true := by
  split <;> simp [keepsTval]

theorem pageFault_plain (b : Prop) [Decidable b] :
    isDasicsCause (if b then Exc.SPF else .LPF) = false := by
  split <;> rfl

theorem checkPermission_access
    (hq : ∀ v, ¬ Permitted v (type = .ifetch) → q v) :
    (accessEffect P q).Within (checkPermission P pte b va type) := by
  apply Within.bind_get
  intro s
  refine At.bind (assert_permissionMode s _ (hq _)) fun _ t ht => ?_
  obtain ⟨rfl, -⟩ := assert_ok ht
  cases type with
  | ifetch =>
    dsimp only
    split
    · exact Within.bind (assert_access _ rfl) (fun _ => faultAt_access (by simp [keepsTval]) rfl va) _
    · exact Within.ret _ _ _
  | read =>
    dsimp only
    split
    · exact raiseAccessFault_access (pageFault_keeps _) (pageFault_plain _) va _
    · split
      · next h => exact dasicsFault_access (by simp_all) _ (by decide) va _
      · exact Within.ret _ _ _
  | write | ifetchRead | writeRead =>
    dsimp only
    split
    · exact raiseAccessFault_access (by simp [keepsTval]) rfl va _
    · split
      · next h => exact dasicsFault_access (by simp_all) _ (by decide) va _
      · exact Within.ret _ _ _

theorem ptw_access (hq : ∀ v, ¬ Permitted v (type = .ifetch) → q v) :
    (accessEffect P q).Within (ptw P va type) :=
  ptw_within (fun _ => paddrRead_access) (fun _ _ => checkPermission_access hq)
    (ptwUpdateAd_within fun _ _ _ => paddrWrite_access)

theorem misalign_access (b : Prop) [Decidable b] :
    (accessEffect P q).Within (faultAt P (if b then .SAM else .LAM) va : Exec α) := by
  split
  · exact faultAt_access (by simp [keepsTval]) rfl va
  · exact faultAt_access (by simp [keepsTval]) rfl va

theorem stops_nonCanonical (va : Word) :
    Stops P Machine.eraseAccess q s.eraseAccess (.exception ⟨.IPF, some va, .nonCanonicalFetch⟩)
      ((s.setCsr .stval va).setCsr (intrTvalReg P s .IPF) va) where
  frame := by
    apply frame_of_eraseFault
    rw [intrTvalReg_eq, eraseFault_setCsr _ _ (Level.tval_fault _), eraseFault_setCsr _ _ rfl]
  raised f hf := by
    cases hf
    refine ⟨fun l => ?_, by simp [keepsTval], fun _ => rfl, fun h => by cases h⟩
    have hs : s.setCsr .stval va = s.setCsr Level.S.tval va := rfl
    rw [intrTvalReg_eq, setCsr_tval, hs, setCsr_tval, tvalAfter_eraseAccess]
    simp only [tvalAfter]
    by_cases h1 : l = trapLevel P s Exc.IPF.code
    · simp only [h1, true_or, ↓reduceIte]
    · simp only [h1, false_or, ↓reduceIte]
  mmuState h := by cases h
  permissionMode h := by cases h

theorem isaMmuCheck_access : (accessEffect P q).Within (isaMmuCheck P va len type) := by
  apply Within.bind_get
  intro s
  dsimp only
  split
  · cases type with
    | ifetch =>
      exact stops_nonCanonical va
    | read => exact faultAt_access (pageFault_keeps _) (pageFault_plain _) va s
    | write | ifetchRead | writeRead => exact faultAt_access (by simp [keepsTval]) rfl va s
  · split
    · exact Within.ret _ _ s
    · split
      · exact misalign_access _ s
      · exact Within.ret _ _ s

theorem isaMisalignDataAddrCheck_access :
    (accessEffect P q).Within (isaMisalignDataAddrCheck P va len type) := by
  refine .bind (.read _) fun s => ?_
  split
  · exact misalign_access _
  · exact .ret _ _

theorem forceRaisePfRecord_access :
    (accessEffect P q).Within (forceRaisePfRecord va type) :=
  .bind (.read _) fun _ => .bind (.update fun _ => rfl) fun _ => .ret _ _

theorem forcedFetch_access (va : Word) (s : Machine) (l : Level)
    (hl : l = if intrDelegS s Exc.IPF.code then .S else .M) :
    Stops P Machine.eraseAccess q s.eraseAccess (.exception ⟨.IPF, some va, .forcedFetch⟩)
      (s.setCsr l.tval (if l = .S then s.guide.stval else s.guide.mtval)) where
  frame := by
    apply frame_of_eraseFault
    rw [eraseFault_setCsr _ _ (Level.tval_fault _)]
  raised f hf := by
    cases hf
    refine ⟨fun l' => ?_, by simp [keepsTval], fun _ => rfl, fun h => by cases h⟩
    rw [setCsr_tval, tvalAfter_eraseAccess]
    simp only [tvalAfter]
    cases hd : intrDelegS s Exc.IPF.code <;> simp [hl, hd]
  mmuState h := by cases h
  permissionMode h := by cases h

theorem forceRaisePf_access : (accessEffect P q).Within (forceRaisePf P va type) := by
  apply Within.bind_get
  intro s
  split
  · split
    · refine At.bind (forceRaisePfRecord_access s) fun b t ht => ?_
      have hs : s.guide = t.guide ∧ intrDelegS s Exc.IPF.code = intrDelegS t Exc.IPF.code := by
        cases ht
        exact ⟨rfl, rfl⟩
      rw [hs.1, hs.2]
      split
      · exact Within.ret _ _ _
      · split
        · next hd =>
          exact forcedFetch_access va _ .M (by simpa using hd)
        · next hd =>
          exact forcedFetch_access va _ .S (by simpa using hd)
    · split
      · refine Within.bind forceRaisePfRecord_access (fun b => ?_) s
        split
        · exact .ret _ _
        · exact faultAt_access (by simp [keepsTval]) rfl va
      · split
        · refine Within.bind forceRaisePfRecord_access (fun b => ?_) s
          split
          · exact .ret _ _
          · exact faultAt_access (by simp [keepsTval]) rfl va
        · exact Within.ret _ _ s
  · exact Within.ret _ _ s

theorem isaMmuTranslate_access (hq : ∀ v, ¬ Permitted v (type = .ifetch) → q v) :
    (accessEffect P q).Within (isaMmuTranslate P va type) :=
  isaMmuTranslate_within (ptw_access hq) forceRaisePf_access

theorem vaddrMmuRead_access (hq : ∀ v, ¬ Permitted v (type = .ifetch) → q v) :
    (accessEffect P q).Within (vaddrMmuRead P va len type) :=
  vaddrMmuRead_within (fun _ => isaMmuTranslate_access hq) fun _ _ _ => paddrRead_access

theorem vaddrMmuWrite_access (hq : ∀ v, ¬ Permitted v false → q v) :
    (accessEffect P q).Within (vaddrMmuWrite P va len data) :=
  vaddrMmuWrite_within (fun _ => isaMmuTranslate_access hq) fun _ _ _ _ => paddrWrite_access

theorem vaddrCheck_access : (accessEffect P q).Within (vaddrCheck P pc va len type) :=
  vaddrCheck_within (fun _ => isaMisalignDataAddrCheck_access) fun hdasics _ _ addr hreason =>
    dasicsFault_access hdasics _ hreason addr

end Translation

/-- The MMU mode cached for fetches or for data accesses. -/
def Machine.mmuCache (s : Machine) (ifetch : Bool) : MmuMode :=
  if ifetch then s.ifetchMmuState else s.dataMmuState

/-- An access with the given `mmu_mode` walks the page table. -/
def Translates (v : Machine) (ifetch : Bool) (m : MmuMode) : Prop :=
  m = .translate ∨ (m = .dynamic ∧ v.mmuCache ifetch ≠ .direct)

/-- The only way in which an access fails the assertion on its mode. -/
def BadTranslation (ifetch : Bool) (m : MmuMode) (v : Machine) : Prop :=
  ¬ Permitted v ifetch ∧ Translates v ifetch m

theorem faultAt_not_ok : (faultAt P ex va : Exec α) s ≠ .ok a t := by
  rw [faultAt_run]
  exact fun h => by cases h

theorem isaMmuCheck_ok (h : isaMmuCheck P va len type s = .ok m t) :
    t = s ∧ m = s.mmuCache (type = .ifetch) := by
  unfold isaMmuCheck at h
  obtain ⟨_, _, hget, h⟩ := ok_of_bind h
  cases hget
  dsimp only at h
  split at h
  · cases type with
    | ifetch => cases h
    | read | write | ifetchRead | writeRead => exact absurd h faultAt_not_ok
  · split at h
    · next hi =>
      cases h
      exact ⟨rfl, by simp [Machine.mmuCache, hi]⟩
    · next hi =>
      split at h
      · exact absurd h faultAt_not_ok
      · cases h
        exact ⟨rfl, by simp [Machine.mmuCache, hi]⟩

theorem resolveMmuMode_access : (accessEffect P q).Within (resolveMmuMode P va len type m) := by
  cases m with
  | dynamic => exact isaMmuCheck_access
  | direct => exact .ret _ _
  | translate => exact .ret _ _

theorem resolveMmuMode_ok (h : resolveMmuMode P va len type m s = .ok m' t) (hm : m' ≠ .direct) :
    t = s ∧ Translates s (type = .ifetch) m := by
  cases m with
  | dynamic =>
    obtain ⟨rfl, rfl⟩ := isaMmuCheck_ok h
    exact ⟨rfl, .inr ⟨rfl, hm⟩⟩
  | direct =>
    cases h
    exact absurd rfl hm
  | translate =>
    cases h
    exact ⟨rfl, .inl rfl⟩

theorem vaddrReadInternal_access (m : MmuMode) :
    (accessEffect P (BadTranslation (type = .ifetch) m)).Within
      (vaddrReadInternal P pc va len type m) := by
  refine .bind vaddrCheck_access fun _ => ?_
  intro s
  refine At.bind (resolveMmuMode_access s) fun m' t ht => ?_
  split
  · exact Within.bind (.read _) (fun _ => paddrRead_access) t
  · next hm =>
    obtain ⟨rfl, htr⟩ := resolveMmuMode_ok ht hm
    have hr : (accessEffect P fun v => ¬ Permitted v (type = .ifetch)).At t
        (vaddrMmuRead P va len type) := vaddrMmuRead_access (fun _ h => h) t
    exact At.weaken hr fun h => ⟨h, htr⟩

theorem vaddrIfetch_access :
    (accessEffect P (BadTranslation true .dynamic)).Within (vaddrIfetch P va len) :=
  vaddrReadInternal_access .dynamic

theorem vaddrRead_access (m : MmuMode) :
    (accessEffect P (BadTranslation false m)).Within (vaddrRead P pc va len m) :=
  vaddrReadInternal_access m

theorem vaddrWrite_access (m : MmuMode) :
    (accessEffect P (BadTranslation false m)).Within (vaddrWrite P pc va len data m) := by
  refine .bind vaddrCheck_access fun _ => ?_
  intro s
  refine At.bind (resolveMmuMode_access s) fun m' t ht => ?_
  split
  · exact Within.bind (.read _) (fun _ => paddrWrite_access) t
  · next hm =>
    obtain ⟨rfl, htr⟩ := resolveMmuMode_ok ht hm
    have hr : (accessEffect P fun v => ¬ Permitted v false).At t
        (vaddrMmuWrite P va len data) := vaddrMmuWrite_access (fun _ h => h) t
    exact At.weaken hr fun h => ⟨h, htr⟩

end Nemu
