import Nemu.Alignment
import Nemu.Isolation
import Nemu.Pmp
import Nemu.PrivilegeRun

namespace Nemu

open Effect

set_option autoImplicit true

/-- What the check of a write below machine mode depends on. -/
def Machine.pmpView (s : Machine) : Mode × (Fin 2 → Word) × (Fin 16 → Word) :=
  (s.mode, fun k => s.csr (.pmpcfg k), fun i => s.csr (.pmpaddr i))

def Csr.isPmp : Csr → Bool
  | .pmpcfg _ | .pmpaddr _ => true
  | _ => false

/-- Memory changes by aligned writes alone that the PMP check lets through. -/
inductive GuardedWrite (P : Platform) : Machine → Machine → Prop where
  | beside : t.pmem = s.pmem → t.pmpView = s.pmpView → GuardedWrite P s t
  | write : HostLength len → len ∣ addr.toNat → isaPmpCheckPermission P s addr len .write s.mode = true →
      GuardedWrite P s { s with pmem := Bytes.writeLE s.pmem addr len data }

def guardedEffect (P : Platform) : Effect Stop Machine := closure Stop (GuardedWrite P)

variable {P : Platform} {s t : Machine} {d : Decode} {va : Word} {type : MemType}

section Primitive

theorem change_guarded {f : Machine → Machine} (hm : ∀ s, (f s).pmem = s.pmem)
    (hv : ∀ s, (f s).pmpView = s.pmpView) : (guardedEffect P).Within (modify f : Exec PUnit) :=
  .one fun s => .beside (hm s) (hv s)

theorem raise_guarded (e : Stop) : (guardedEffect P).Within (throw e : Exec α) :=
  .raise fun _ => .refl

theorem assert_guarded (p : Prop) [Decidable p] : (guardedEffect P).Within (assert p a) :=
  .ite (fun _ => .ret _ _) fun _ => raise_guarded _

theorem pmpView_setCsr (s : Machine) (v : Word) (hc : c.isPmp = false) : (s.setCsr c v).pmpView = s.pmpView := by
  have hcfg : ∀ k, (s.setCsr c v).csr (.pmpcfg k) = s.csr (.pmpcfg k) := fun k =>
    s.setCsr_csr_ne v (by rintro rfl; cases hc)
  have haddr : ∀ i, (s.setCsr c v).csr (.pmpaddr i) = s.csr (.pmpaddr i) := fun i =>
    s.setCsr_csr_ne v (by rintro rfl; cases hc)
  unfold Machine.pmpView
  simp only [hcfg, haddr]
  rfl

theorem setCsr_guarded (v : Word) (hc : c.isPmp = false) : (guardedEffect P).Within (setCsr c v) :=
  change_guarded (fun _ => rfl) fun s => pmpView_setCsr s v hc

theorem modifyMstatus_guarded (f : Word → Word) : (guardedEffect P).Within (modifyMstatus f) :=
  change_guarded (fun _ => rfl) fun s => pmpView_setCsr s _ rfl

theorem faultAt_guarded : (guardedEffect P).Within (faultAt P ex va : Exec α) := by
  refine .bind (.read _) fun s => .bind ?_ fun _ => raise_guarded _
  rw [intrTvalReg_eq]
  exact setCsr_guarded _ (by cases trapLevel P s ex.code <;> rfl)

theorem dasicsFault_guarded : (guardedEffect P).Within (dasicsFault P ex reason va : Exec α) :=
  .bind (setCsr_guarded _ rfl) fun _ => faultAt_guarded

theorem setAmo_guarded (b : Bool) : (guardedEffect P).Within (setAmo b) :=
  change_guarded (fun _ => rfl) fun _ => rfl

theorem raiseAccessFault_guarded : (guardedEffect P).Within (raiseAccessFault P ex va : Exec α) :=
  .bind (setAmo_guarded false) fun _ => faultAt_guarded

theorem raiseReadAccessFault_guarded : (guardedEffect P).Within (raiseReadAccessFault P type va : Exec α) :=
  .bind (.read _) fun _ => .ite (fun _ => raiseAccessFault_guarded) fun _ =>
    .ite (fun _ => raiseAccessFault_guarded) fun _ => raiseAccessFault_guarded

theorem mmioRead_guarded : (guardedEffect P).Within (mmioRead P addr len) := by
  refine .bind (.read _) fun s => ?_
  split
  · exact raise_guarded _
  · next r _ =>
    refine .bind (change_guarded (fun s => pmem_setMtip _ _) fun s => ?_) fun _ => .ret _ _
    cases r.mtip with
    | none => rfl
    | some b => exact pmpView_setCsr _ _ rfl

end Primitive

section Memory

theorem pmemRead_guarded : (guardedEffect P).Within (pmemRead addr len) :=
  .bind (assert_guarded _) fun _ => .bind (.read _) fun _ => .ret _ _

theorem paddrRead_guarded : (guardedEffect P).Within (paddrRead P pa len type mode va) :=
  .bind (.read _) fun _ => .ite (fun _ => raiseReadAccessFault_guarded) fun _ =>
    .ite (fun _ => pmemRead_guarded) fun _ => .ite (fun _ => mmioRead_guarded) fun _ =>
      .ite (fun _ => .ret _ _) fun _ => raiseReadAccessFault_guarded

/-- The reference has no devices to write to. -/
theorem paddrWrite_guarded (hP : P.share = true) (hal : HostLength len → len ∣ (P.paddr pa).toNat) :
    (guardedEffect P).At s (paddrWrite P pa len data s.mode va) := by
  refine At.bind_get ?_
  split
  · exact raiseAccessFault_guarded s
  next hpass =>
  split
  · refine At.bind (assert_guarded _ s) fun _ t ht => ?_
    obtain ⟨rfl, hlen⟩ := assert_ok ht
    refine At.one (.write hlen (hal hlen) ?_)
    simpa using hpass
  split
  · next hn =>
    rw [hP] at hn
    cases hn
  split
  · exact Within.ret _ _ s
  · exact raiseAccessFault_guarded s

theorem checkPermission_guarded : (guardedEffect P).Within (checkPermission P pte b va type) := by
  refine .bind (.read _) fun s => .bind (assert_guarded _) fun _ => ?_
  dsimp only
  cases type with
  | ifetch =>
    dsimp only
    exact .ite (fun _ => .bind (assert_guarded _) fun _ => faultAt_guarded) fun _ => .ret _ _
  | read | write | ifetchRead | writeRead =>
    dsimp only
    exact .ite (fun _ => .bind (setAmo_guarded false) fun _ => faultAt_guarded) fun _ =>
      .ite (fun _ => dasicsFault_guarded) fun _ => .ret _ _

theorem ptwLoop_guarded : (guardedEffect P).Within (ptwLoop P va type level base) := by
  induction level generalizing base with
  | zero =>
    unfold ptwLoop
    exact .bind paddrRead_guarded fun _ => .ite (fun _ => .ret _ _) fun _ => .ite (fun _ => .ret _ _) fun _ => .ret _ _
  | succ level ih =>
    unfold ptwLoop
    exact .bind paddrRead_guarded fun _ => .ite (fun _ => .ret _ _) fun _ => .ite (fun _ => .ret _ _) fun _ => ih

theorem ptwWalk_guarded : (guardedEffect P).Within (ptwWalk P va type) :=
  .bind (.read _) fun _ => .ite (fun _ => ptwLoop_guarded) fun _ => .ret _ _

variable (hP : P.share = true)

include hP

/-- The reference leaves the bits A and D to software. -/
theorem ptwUpdateAd_guarded : (guardedEffect P).Within (ptwUpdateAd P pPte pte va type) := by
  refine .bind (.read _) fun s => .ite (fun hn => ?_) fun _ => .ret _ _
  rw [hP] at hn
  cases hn

theorem ptw_guarded : (guardedEffect P).Within (ptw P va type) := by
  refine .bind ptwWalk_guarded fun w => ?_
  cases w with
  | bad pte => exact .bind checkPermission_guarded fun _ => .ret _ _
  | leaf level pPte pte =>
    exact .bind checkPermission_guarded fun _ => .ite (fun _ => .bind checkPermission_guarded fun _ => .ret _ _)
      fun _ => .bind (ptwUpdateAd_guarded hP) fun _ => .ret _ _

omit hP in
theorem forceRaisePf_guarded : (guardedEffect P).Within (forceRaisePf P va type) := by
  have hcount : (guardedEffect P).Within (forceRaisePfRecord va type) :=
    .bind (.read _) fun _ => .bind (change_guarded (fun _ => rfl) fun _ => rfl) fun _ => .ret _ _
  have hcounted : ∀ {k : Exec Unit}, (guardedEffect P).Within k →
      (guardedEffect P).Within (forceRaisePfRecord va type >>= fun again => if again then pure () else k) := fun hk =>
    .bind hcount fun _ => .ite (fun _ => .ret _ _) fun _ => hk
  refine .bind (.read _) fun s => .ite (fun _ => ?_) fun _ => .ret _ _
  refine .ite (fun _ => hcounted (.ite (fun _ => ?_) fun _ => ?_)) fun _ =>
    .ite (fun _ => hcounted faultAt_guarded) fun _ => .ite (fun _ => hcounted faultAt_guarded) fun _ => .ret _ _
  · exact .bind (setCsr_guarded _ rfl) fun _ => raise_guarded _
  · exact .bind (setCsr_guarded _ rfl) fun _ => raise_guarded _

theorem isaMmuTranslate_guarded : (guardedEffect P).Within (isaMmuTranslate P va type) :=
  .bind (ptw_guarded hP) fun _ => .ite (fun _ => .bind forceRaisePf_guarded fun _ => .ret _ _) fun _ => .ret _ _

omit hP in
theorem isaMmuCheck_guarded : (guardedEffect P).Within (isaMmuCheck P va len type) := by
  refine .bind (.read _) fun s => ?_
  dsimp only
  refine .ite (fun _ => ?_) fun _ => .ite (fun _ => .ret _ _) fun _ => .ite (fun _ => faultAt_guarded) fun _ => .ret _ _
  cases type with
  | ifetch =>
    refine .bind (setCsr_guarded _ rfl) fun _ => .bind ?_ fun _ => raise_guarded _
    rw [intrTvalReg_eq]
    exact setCsr_guarded _ (by cases trapLevel P s Exc.IPF.code <;> rfl)
  | read | write | ifetchRead | writeRead => exact faultAt_guarded

omit hP in
theorem dasicsLdstHelper_guarded : (guardedEffect P).Within (dasicsLdstHelper P pc va len type) := by
  have hbytes : ∀ close cfg reason, (guardedEffect P).Within (dasicsCheckBytes P close cfg reason va len) := by
    intro close cfg reason
    refine .bind (.read _) fun s => ?_
    split
    · exact dasicsFault_guarded
    · exact .ret _ _
  refine .bind (.read _) fun s => .ite (fun _ => .ret _ _) fun _ => ?_
  cases type with
  | write => exact hbytes _ _ _
  | read => exact hbytes _ _ _
  | ifetch | ifetchRead | writeRead => exact .ret _ _

omit hP in
theorem vaddrCheck_guarded (pc : Option Word) : (guardedEffect P).Within (vaddrCheck P pc va len type) := by
  have hbounds : ∀ pc, (guardedEffect P).Within (if P.dasics then dasicsLdstHelper P pc va len type else pure ()) :=
    fun pc => .ite (fun _ => dasicsLdstHelper_guarded) fun _ => .ret _ _
  have hmis : (guardedEffect P).Within (isaMisalignDataAddrCheck P va len type) :=
    .bind (.read _) fun _ => .ite (fun _ => faultAt_guarded) fun _ => .ret _ _
  unfold vaddrCheck
  cases pc with
  | none => exact .ite (fun _ => .bind hmis fun _ => .ret _ _) fun _ => .ret _ _
  | some pc => exact .ite (fun _ => .bind hmis fun _ => hbounds pc) fun _ => hbounds pc

end Memory

section Access

variable (hP : P.share = true)

include hP

theorem vaddrMmuRead_guarded : (guardedEffect P).Within (vaddrMmuRead P va len type) := by
  have hcross : ∀ n i x, (guardedEffect P).Within (vaddrReadCrossPage P va type n i x) := by
    intro n
    induction n with
    | zero => exact fun _ _ => .ret _ _
    | succ n ih =>
      intro i x
      exact .bind (isaMmuTranslate_guarded hP) fun _ => .ite (fun _ => .ret _ _) fun _ =>
        .bind (.read _) fun _ => .bind paddrRead_guarded fun _ => ih _ _
  exact .bind (isaMmuTranslate_guarded hP) fun _ => .ite (fun _ => .bind (.read _) fun _ => paddrRead_guarded)
    fun _ => .ite (fun _ => hcross _ _ _) fun _ => .ret _ _

theorem aligned_of_page (hl : HostLength len) (hal : len ∣ va.toNat) (hf : f &&& pageMask = 0) :
    len ∣ (P.paddr (f ||| (va &&& pageMask))).toNat := by
  have hlow : (P.paddr (f ||| (va &&& pageMask))).toNat % 4096 = va.toNat % 4096 := by
    have h0 : (0 : Word) ||| (va &&& pageMask) = va &&& pageMask := BitVec.zero_or
    rw [paddr_share hP, ← toNat_low, ← toNat_low, BitVec.and_or_distrib_right, hf, BitVec.and_assoc, BitVec.and_self, h0]
  rcases hl with rfl | rfl | rfl | rfl <;> omega

theorem vaddrMmuWrite_guarded (hal : HostLength len → len ∣ va.toNat) :
    (guardedEffect P).Within (vaddrMmuWrite P va len data) := by
  have hcross : ∀ n i x, (guardedEffect P).Within (vaddrWriteCrossPage P va n i x) := by
    intro n
    induction n with
    | zero => exact fun _ _ => .ret _ _
    | succ n ih =>
      intro i x
      exact .bind (isaMmuTranslate_guarded hP) fun _ => .ite (fun _ => .ret _ _) fun _ => .bind_get fun s =>
        At.bind (paddrWrite_guarded hP fun _ => Nat.one_dvd _) fun _ t _ => ih _ _ t
  refine .bind (isaMmuTranslate_guarded hP) fun r => .ite (fun hpage => .bind_get fun s => ?_)
    fun _ => .ite (fun _ => hcross _ _ _) fun _ => .ret _ _
  exact paddrWrite_guarded hP fun hl => aligned_of_page hP hl (hal hl) hpage

theorem vaddrReadInternal_guarded : (guardedEffect P).Within (vaddrReadInternal P pc va len type m) := by
  have hmode : (guardedEffect P).Within (resolveMmuMode P va len type m) := by
    cases m with
    | dynamic => exact isaMmuCheck_guarded
    | direct | translate => exact .ret _ _
  exact .bind (vaddrCheck_guarded _) fun _ => .bind hmode fun _ =>
    .ite (fun _ => .bind (.read _) fun _ => paddrRead_guarded) fun _ => vaddrMmuRead_guarded hP

variable (hac : P.acSoft = true)

include hac

theorem vaddrCheck_dvd (ht : type ≠ .ifetch) (h : vaddrCheck P (some pc) va len type s = .ok () t)
    (hl : HostLength len) : len ∣ va.toNat := by
  rw [← low_bits_iff hl]
  by_contra hne
  rw [vaddrCheck_misaligned ⟨hP, hac, hne⟩ ht] at h
  cases h

theorem vaddrWrite_guarded : (guardedEffect P).Within (vaddrWrite P pc va len data m) := by
  intro s
  have hmode : (guardedEffect P).Within (resolveMmuMode P va len .write m) := by
    cases m with
    | dynamic => exact isaMmuCheck_guarded
    | direct | translate => exact .ret _ _
  refine At.bind (vaddrCheck_guarded _ s) fun _ t ht => ?_
  have hal : HostLength len → len ∣ va.toNat := vaddrCheck_dvd hP hac (by decide) ht
  refine Within.bind hmode (fun _ => .ite (fun _ => .bind_get fun u => paddrWrite_guarded hP fun hl => ?_) fun _ =>
    vaddrMmuWrite_guarded hP hal) t
  rw [paddr_share hP]
  exact hal hl

end Access

section Executors

theorem readReg_guarded : (guardedEffect P).Within (readReg l) :=
  .bind (.read _) fun _ => .ret _ _

theorem writeReg_guarded (l : Loc) (v : Word) : (guardedEffect P).Within (writeReg l v) := by
  cases l <;> exact change_guarded (fun _ => rfl) fun _ => rfl

theorem rtlJ_guarded (a : Word) : (guardedEffect P).Within (rtlJ P a) := by
  refine change_guarded (fun s => ?_) fun s => ?_
  · split <;> rfl
  · split <;> rfl

theorem recordMemEvent_guarded : (guardedEffect P).Within (recordMemEvent P isLoad va) := by
  refine change_guarded (fun s => ?_) fun s => ?_
  · split <;> rfl
  · split <;> rfl

theorem compute_guarded (l l' : Loc) (f : Word → Word) : (guardedEffect P).Within (do
    let x ← readReg l
    writeReg l' (f x)) :=
  .bind readReg_guarded fun _ => writeReg_guarded _ _

theorem compute₂_guarded (l₁ l₂ l : Loc) (f : Word → Word → Word) : (guardedEffect P).Within (do
    let x ← readReg l₁
    let y ← readReg l₂
    writeReg l (f x y)) :=
  .bind readReg_guarded fun _ => .bind readReg_guarded fun _ => writeReg_guarded _ _

theorem rtlFsr_guarded (l : Loc) (v : Word) (w : FpWidth) : (guardedEffect P).Within (rtlFsr P l v w) :=
  .bind (writeReg_guarded _ _) fun _ => modifyMstatus_guarded _

theorem rtlFpcall_guarded : (guardedEffect P).Within (rtlFpcall P d o w x y z) := by
  have hrm : (guardedEffect P).Within (isaFpGetRm d) :=
    .bind (.read _) fun _ => .ite (fun _ => .ret _ _) fun _ => .ite (fun _ => .ret _ _) fun _ => raise_guarded _
  have hcall : (guardedEffect P).Within (fpcallRm d o) :=
    .ite (fun _ => .bind hrm fun _ => .ret _ _) fun _ => .ret _ _
  have hfs : (guardedEffect P).Within fpCheckFs :=
    .bind (.read _) fun _ => .ite (fun _ => raise_guarded _) fun _ => .ret _ _
  have hex : ∀ ex, (guardedEffect P).Within (isaFpSetEx P ex) := fun ex =>
    .bind (change_guarded (fun _ => rfl) fun s => (pmpView_setCsr _ _ rfl).trans (pmpView_setCsr _ _ rfl)) fun _ =>
      modifyMstatus_guarded _
  exact .bind hfs fun _ => .bind hcall fun _ => .ite (fun _ => .bind (hex _) fun _ => .ret _ _) fun _ => .ret _ _

theorem rtlSetDretpc_guarded (v : Word) : (guardedEffect P).Within (rtlSetDretpc d v) :=
  .bind (.bind (.read _) fun _ => .ite (fun _ => .ret _ _) fun _ => raise_guarded _) fun _ => setCsr_guarded _ rfl

theorem privFence_guarded : (guardedEffect P).Within (privFence P op) := by
  have hw : ∀ (p : Prop) [Decidable p], (guardedEffect P).Within (illegalWhen p) := fun p _ =>
    .bind (.ite (fun _ => raise_guarded _) fun _ => .ret _ _) fun _ => .ret _ _
  exact .bind (.read _) fun s => .ite (fun _ => hw _) fun _ => .ite (fun _ => hw _) fun _ =>
    .ite (fun _ => .ret _ _) fun _ => .ite (fun _ => hw _) fun _ => .ite (fun _ => hw _) fun _ =>
      .ite (fun _ => raise_guarded _) fun _ => raise_guarded _

variable (hP : P.share = true) (hac : P.acSoft = true)

include hP hac

omit hac in
theorem rtlLm_guarded : (guardedEffect P).Within (rtlLm P d dest addr off len m) :=
  .bind readReg_guarded fun _ => .bind (vaddrReadInternal_guarded hP) fun _ => .bind (writeReg_guarded _ _) fun _ =>
    .bind readReg_guarded fun _ => recordMemEvent_guarded

theorem rtlSm_guarded : (guardedEffect P).Within (rtlSm P d data addr off len m) :=
  .bind readReg_guarded fun _ => .bind (vaddrWrite_guarded hP hac) fun _ => recordMemEvent_guarded

omit hac in
theorem rtlLms_guarded : (guardedEffect P).Within (rtlLms P d addr off len m) :=
  .bind readReg_guarded fun _ => .bind (vaddrReadInternal_guarded hP) fun _ => .bind (assert_guarded _) fun _ =>
    .ret _ _

omit hac in
theorem execInv_guarded : (guardedEffect P).Within (execInv P d) := by
  unfold execInv
  rw [hP, Bool.not_true, Bool.and_false]
  exact raise_guarded _

omit hac in
theorem lrStep_guarded : (guardedEffect P).Within (lrStep P d width) :=
  .bind (.read _) fun _ => .bind (assert_guarded _) fun _ => .bind (rtlLms_guarded hP) fun _ =>
    .bind (writeReg_guarded _ _) fun _ => .bind readReg_guarded fun _ => change_guarded (fun _ => rfl) fun _ => rfl

omit hac in
theorem scFailCheck_guarded : (guardedEffect P).Within (scFailCheck P d width) := by
  refine .bind readReg_guarded fun a => .bind isaMmuCheck_guarded fun m => .bind ?_ fun pa =>
    .bind (.read _) fun s => .ite (fun _ => faultAt_guarded) fun _ => .ret _ _
  cases m with
  | direct | dynamic => exact .ret _ _
  | translate => exact isaMmuTranslate_guarded hP

theorem scStep_guarded : (guardedEffect P).Within (scStep P d width) := by
  have hset : ∀ b, (guardedEffect P).Within (setScAmo P b) := fun b =>
    .ite (fun _ => setAmo_guarded b) fun _ => .ret _ _
  have hstore : (guardedEffect P).Within (scStore P d width) :=
    .bind readReg_guarded fun _ => .bind (rtlSm_guarded hP hac) fun _ => change_guarded (fun _ => rfl) fun _ => rfl
  have hend : ∀ v, (guardedEffect P).Within (writeReg d.dest.preg v >>= fun _ => setScAmo P false) := fun v =>
    .bind (writeReg_guarded _ _) fun _ => hset false
  exact .bind (hset true) fun _ => .bind (.read _) fun s => .ite (fun _ => .bind hstore fun _ => hend 0) fun _ =>
    .bind (scFailCheck_guarded hP) fun _ => hend 1

theorem amoStep_guarded : (guardedEffect P).Within (amoStep P d f w) := by
  refine .bind (setAmo_guarded _) fun _ => .bind (rtlLms_guarded hP) fun x => .bind readReg_guarded fun y => ?_
  split
  · exact raise_guarded _
  · exact .bind (rtlSm_guarded hP hac) fun _ => .bind (writeReg_guarded _ _) fun _ => setAmo_guarded _

theorem runVector_guarded (v : VProg) : (guardedEffect P).Within (runVector P d m v) := by
  induction v with
  | done => exact .ret _ _
  | inv => exact execInv_guarded hP
  | stuck => exact raise_guarded _
  | get k ih =>
    unfold runVector
    exact .bind (.read _) fun s => ih s
  | setVr r v k ih =>
    unfold runVector
    exact .bind (change_guarded (fun _ => rfl) fun _ => rfl) fun _ => ih
  | setGpr r v k ih =>
    unfold runVector
    refine .bind (change_guarded (fun s => ?_) fun s => ?_) fun _ => ih
    · split <;> rfl
    · split <;> rfl
  | setCsr c v k ih =>
    unfold runVector
    exact .bind (setCsr_guarded _ (by cases c <;> rfl)) fun _ => ih
  | load addr len k ih =>
    unfold runVector
    exact .bind (vaddrReadInternal_guarded hP) fun v => .bind recordMemEvent_guarded fun _ => ih v
  | store addr len data k ih =>
    unfold runVector
    exact .bind (vaddrWrite_guarded hP hac) fun v => .bind recordMemEvent_guarded fun _ => ih

theorem exec_guarded (hs : d.id ≠ .system) : (guardedEffect P).Within (exec P d) := by
  unfold exec
  cases hid : d.id with
  | system => exact absurd hid hs
  | inv => exact execInv_guarded hP
  | rt_inv => exact raise_guarded _
  | nemu_trap =>
    exact .bind (.read _) fun s => .ite (fun _ => setCsr_guarded _ rfl) fun _ => .ite (fun _ => .ret _ _) fun _ =>
      raise_guarded _
  | fence_i =>
    dsimp only
    rw [privInstr_fence_i]
    exact .bind privFence_guarded fun _ => .ret _ _
  | fence => exact .ret _ _
  | lui | auipc | c_li | p_li_0 | p_li_1 => exact writeReg_guarded _ _
  | computeReg o | compressedReg o | rvbReg o | rvkReg o => exact compute₂_guarded _ _ _ _
  | computeImm o | compressedImm o | rvbImm o | rvkImm o => exact compute_guarded _ _ _
  | c_mv | p_inc | p_dec | p_sext_w | fmv_x_w | fmv_x_d => exact compute_guarded _ _ _
  | fclass w => exact compute_guarded _ _ _
  | load signed len m =>
    cases signed with
    | true => exact .bind (rtlLms_guarded hP) fun _ => writeReg_guarded _ _
    | false => exact rtlLm_guarded hP
  | store len m => exact .bind readReg_guarded fun _ => rtlSm_guarded hP hac
  | atomic =>
    exact .ite (fun _ => lrStep_guarded hP) fun _ => .ite (fun _ => scStep_guarded hP hac) fun _ =>
      amoStep_guarded hP hac
  | fload w m =>
    exact .bind (rtlLm_guarded hP) fun _ => .bind readReg_guarded fun _ => rtlFsr_guarded _ _ _
  | fstore w m => exact .bind readReg_guarded fun _ => rtlSm_guarded hP hac
  | fop o w =>
    exact .bind readReg_guarded fun _ => .bind readReg_guarded fun _ => .bind rtlFpcall_guarded fun _ =>
      rtlFsr_guarded _ _ _
  | funary o w w' =>
    exact .bind readReg_guarded fun _ => .bind rtlFpcall_guarded fun _ => rtlFsr_guarded _ _ _
  | fcvtToI o w => exact .bind readReg_guarded fun _ => .bind rtlFpcall_guarded fun _ => writeReg_guarded _ _
  | fcmp o w =>
    refine .bind readReg_guarded fun x => .bind readReg_guarded fun y => .bind ?_ fun _ =>
      .bind rtlFpcall_guarded fun _ => writeReg_guarded _ _
    cases fcmpCopies o w with
    | true => exact writeReg_guarded _ _
    | false => exact change_guarded (fun _ => rfl) fun _ => rfl
  | fmadd b b' w =>
    exact .bind readReg_guarded fun _ => .bind readReg_guarded fun _ => .bind readReg_guarded fun _ =>
      .bind rtlFpcall_guarded fun _ => rtlFsr_guarded _ _ _
  | fsgnj w | fsgnjn w | fsgnjx w =>
    exact .bind readReg_guarded fun _ => .bind readReg_guarded fun _ => rtlFsr_guarded _ _ _
  | fmv_w_x | fmv_d_x => exact .bind readReg_guarded fun _ => rtlFsr_guarded _ _ _
  | vector m => exact runVector_guarded hP hac _
  | jal | p_jal => exact .bind (writeReg_guarded _ _) fun _ => rtlJ_guarded _
  | c_j => exact rtlJ_guarded _
  | dasicscall_j =>
    exact .bind (rtlSetDretpc_guarded _) fun _ => .bind (writeReg_guarded _ _) fun _ => rtlJ_guarded _
  | jalr =>
    exact .bind readReg_guarded fun _ => .bind (.read _) fun _ => .bind (writeReg_guarded _ _) fun _ => rtlJ_guarded _
  | dasicscall_jr =>
    exact .bind readReg_guarded fun _ => .bind (.read _) fun _ => .bind (rtlSetDretpc_guarded _) fun _ =>
      .bind (writeReg_guarded _ _) fun _ => rtlJ_guarded _
  | p_ret | c_jr => exact .bind readReg_guarded fun _ => rtlJ_guarded _
  | c_jalr =>
    exact .bind readReg_guarded fun _ => .bind (writeReg_guarded _ _) fun _ => .bind readReg_guarded fun _ =>
      rtlJ_guarded _
  | branch o => exact .bind readReg_guarded fun _ => .bind readReg_guarded fun _ => rtlJ_guarded _
  | c_beqz | c_bnez | p_blez | p_bgez | p_bltz | p_bgtz =>
    exact .bind readReg_guarded fun _ => rtlJ_guarded _

end Executors

section System

/-- What only calls what keeps memory. -/
def pmemEffect : Effect Stop Machine := keep Stop Machine.pmem

theorem assert_pmem (p : Prop) [Decidable p] : pmemEffect.Within (assert p a) :=
  .ite (fun _ => .ret _ _) fun _ => .raise fun _ => rfl

theorem change_pmem {f : Machine → Machine} (hf : ∀ s, (f s).pmem = s.pmem) :
    pmemEffect.Within (modify f : Exec PUnit) :=
  .update hf

theorem setCsr_pmem (c : Csr) (v : Word) : pmemEffect.Within (setCsr c v) := change_pmem fun _ => rfl

theorem modifyMstatus_pmem (f : Word → Word) : pmemEffect.Within (modifyMstatus f) := change_pmem fun _ => rfl

theorem writeReg_pmem (l : Loc) (v : Word) : pmemEffect.Within (writeReg l v) := by
  cases l <;> exact change_pmem fun _ => rfl

theorem rtlJ_pmem (a : Word) : pmemEffect.Within (rtlJ P a) := by
  refine change_pmem fun s => ?_
  split <;> rfl

theorem illegalIf_pmem (p : Prop) [Decidable p] : pmemEffect.Within (illegalIf p) :=
  .ite (fun _ => .raise fun _ => rfl) fun _ => .ret _ _

theorem updateMmuState_pmem : pmemEffect.Within updateMmuState := by
  have hint : ∀ b, pmemEffect.Within (updateMmuStateInternal b) := fun b =>
    .bind (.read _) fun _ => .ite (fun _ => .bind (assert_pmem _) fun _ => .ite (fun _ => .ret _ _) fun _ => .ret _ _)
      fun _ => .ret _ _
  exact .bind (hint true) fun _ => .bind (change_pmem fun _ => rfl) fun _ => .bind (hint false) fun _ =>
    change_pmem fun _ => rfl

theorem raiseIntr_pmem : pmemEffect.Within (raiseIntr P no epc) := by
  have htail : ∀ l : Level, pmemEffect.Within (do
      modify fun s => { s with mode := l.mode }
      updateMmuState
      let s ← get
      pure (getTrapPc (s.csr l.tvec) (s.csr l.cause)) : Exec Word) := fun l =>
    .bind (change_pmem fun _ => rfl) fun _ => .bind updateMmuState_pmem fun _ => .bind (.read _) fun _ => .ret _ _
  exact .bind (.read _) fun s => .bind (setCsr_pmem _ _) fun _ => .bind (setCsr_pmem _ _) fun _ =>
    .bind (modifyMstatus_pmem _) fun _ => .ite (fun _ => htail _) fun _ => .bind (setCsr_pmem _ _) fun _ => htail _

theorem retTail_pmem (epc : Csr) : pmemEffect.Within (retTail epc) :=
  .bind updateMmuState_pmem fun _ => .bind (.read _) fun _ => .ret _ _

theorem privInstr_pmem : pmemEffect.Within (privInstr P op) := by
  have hmode : ∀ g : Machine → Mode, pmemEffect.Within (modify fun s => { s with mode := g s } : Exec PUnit) :=
    fun g => change_pmem fun _ => rfl
  have huret : pmemEffect.Within (uret P) :=
    .bind (modifyMstatus_pmem _) fun _ => .bind (hmode fun _ => .U) fun _ => .bind (modifyMstatus_pmem _) fun _ =>
      retTail_pmem _
  have hret : ∀ (p : Machine → Prop) [∀ s, Decidable (p s)] (l : Level) (g : Machine → Mode) (f h : Machine → Word → Word),
      pmemEffect.Within (do
        let s ← get
        illegalIf (p s)
        modifyMstatus (popStatus P l)
        modify fun s => { s with mode := g s }
        let s ← get
        modifyMstatus (f s)
        modifyMstatus (h s)
        retTail l.epc : Exec Word) := fun p _ l g f h =>
    .bind (.read _) fun _ => .bind (illegalIf_pmem _) fun _ => .bind (modifyMstatus_pmem _) fun _ =>
      .bind (hmode _) fun _ => .bind (.read _) fun _ => .bind (modifyMstatus_pmem _) fun _ =>
        .bind (modifyMstatus_pmem _) fun _ => retTail_pmem _
  have hw : ∀ (p : Prop) [Decidable p], pmemEffect.Within (illegalWhen p) := fun p _ =>
    .bind (illegalIf_pmem p) fun _ => .ret _ _
  have hfence : pmemEffect.Within (privFence P op) :=
    .bind (.read _) fun s => .ite (fun _ => hw _) fun _ => .ite (fun _ => hw _) fun _ =>
      .ite (fun _ => .ret _ _) fun _ => .ite (fun _ => hw _) fun _ => .ite (fun _ => hw _) fun _ =>
        .ite (fun _ => .raise fun _ => rfl) fun _ => .raise fun _ => rfl
  exact .ite (fun _ => huret) fun _ => .ite (fun _ => hret _ .S _ _ _) fun _ => .ite (fun _ => hret _ .M _ _ _)
    fun _ => hfence

theorem sysPriv_pmem : pmemEffect.Within (sysPriv P d) := by
  have hcall : ∀ no, pmemEffect.Within (hostcallTrap P d.pc no d.pc) := fun no =>
    .bind (.read _) fun _ => .ite (fun _ => .bind (setCsr_pmem _ _) fun _ => raiseIntr_pmem) fun _ =>
      .ite (fun _ => .bind (setCsr_pmem _ _) fun _ => raiseIntr_pmem) fun _ => raiseIntr_pmem
  have htrap : ∀ no, pmemEffect.Within (rtlTrap P d no) := fun no =>
    .bind (hcall no) fun _ => .bind (rtlJ_pmem _) fun _ => .ret _ _
  exact .bind (.bind (.read _) fun _ => .ite (fun _ => htrap _) fun _ => .ite (fun _ => htrap _) fun _ =>
    privInstr_pmem) fun _ => .ite (fun _ => rtlJ_pmem _) fun _ => .ret _ _

theorem csrRead_pmem (c : Csr) : pmemEffect.Within (csrRead P c) := by
  refine .bind (.ite (fun _ => modifyMstatus_pmem _) fun _ => .ret _ _) fun _ => .bind (.read _) fun s => ?_
  cases c with
  | pmpaddr i => exact .ite (fun _ => .raise fun _ => rfl) fun _ => .ite (fun _ => .ret _ _) fun _ => .ret _ _
  | fcsr | fflags | frm | satp => exact .ite (fun _ => .raise fun _ => rfl) fun _ => .ret _ _
  | mtime => exact .bind (change_pmem fun _ => pmem_setMtip _ _) fun _ => .ret _ _
  | _ => exact .ret _ _

theorem csrWrite_pmem (c : Csr) (x : Word) : pmemEffect.Within (csrWrite P c x) := by
  have hfp : pmemEffect.Within (csrWriteFp P c) :=
    .ite (fun _ => .bind (modifyMstatus_pmem _) fun _ => .bind (.read _) fun _ => .bind (assert_pmem _) fun _ =>
      change_pmem fun _ => rfl) fun _ => .ret _ _
  refine .bind (.read _) fun _ => .bind (illegalIf_pmem _) fun _ => .bind (change_pmem fun s => ?_) fun _ =>
    .bind hfp fun _ => .bind (.ite (fun _ => modifyMstatus_pmem _) fun _ => .ret _ _) fun _ =>
      .ite (fun _ => updateMmuState_pmem) fun _ => .ret _ _
  rw [csrStore_only]

theorem sysCsr_pmem : pmemEffect.Within (sysCsr P d) := by
  have hlegal : ∀ w, pmemEffect.Within (csrIsLegal P d.csrId w d.pc) := by
    intro w
    refine .bind (.read _) fun s => ?_
    split
    · exact .bind (assert_pmem _) fun _ => .ret _ _
    · exact .bind (assert_pmem _) fun _ => .ite (fun _ => .ret _ _) fun _ => .ret _ _
  have hread : pmemEffect.Within (csrrw P true none d.csrId d.pc) := by
    refine .bind (hlegal _) fun c => ?_
    cases c with
    | none => exact .raise fun _ => rfl
    | some c => exact csrRead_pmem c
  have hwrite : ∀ x, pmemEffect.Within (csrrw P false (some x) d.csrId d.pc) := by
    intro x
    refine .bind (hlegal _) fun c => ?_
    cases c with
    | none => exact .raise fun _ => rfl
    | some c => exact .bind (csrWrite_pmem c x) fun _ => .ret _ _
  exact .bind hread fun _ => .ite (fun _ => .bind (.bind (.read _) fun _ => .ret _ _) fun _ =>
    .bind (hwrite _) fun _ => writeReg_pmem _ _) fun _ => writeReg_pmem _ _

theorem handleException_pmem (f : Fault) : pmemEffect.Within (handleException P f) := by
  refine .bind (.read _) fun s => .bind (change_pmem fun s => ?_) fun _ => .bind raiseIntr_pmem fun _ =>
    change_pmem fun _ => rfl
  split <;> rfl

theorem ticked_pmem (s : Machine) : (s.ticked P).pmem = s.pmem := by
  unfold Machine.ticked utimerTick
  split
  · split
    · rfl
    · split <;> rfl
  · rfl

end System

section Run

/-- The lowest entry that matches the byte does not let it be written, or no entry matches. -/
def PmpForbids (P : Platform) (s : Machine) (x : Word) : Prop :=
  ∀ i : Fin 16, i.val < P.pmpNum → PmpMatches s i x → (∀ i' : Fin 16, i'.val < i.val → ¬ PmpMatches s i' x) →
    (pmpcfgFromIndex s i).getLsbD 1 = false

/-- A byte that is protected, in a state that the registers can reach. -/
structure PmpProtects (P : Platform) (s : Machine) (x : Word) : Prop where
  producible : PmpProducible P s
  forbids : PmpForbids P s x

theorem PmpProtects.congr (h : PmpProtects P s x) (hcfg : ∀ k, t.csr (.pmpcfg k) = s.csr (.pmpcfg k))
    (haddr : ∀ i, t.csr (.pmpaddr i) = s.csr (.pmpaddr i)) : PmpProtects P t x := by
  have hindex : ∀ i, pmpcfgFromIndex t i = pmpcfgFromIndex s i := by
    intro i
    unfold pmpcfgFromIndex
    rw [hcfg]
  have hmatch : ∀ i, PmpMatches t i x ↔ PmpMatches s i x := by
    intro i
    unfold PmpMatches pmpBase pmpTop
    simp only [hindex, haddr]
  refine ⟨⟨fun i => ?_, fun i => ?_⟩, fun i hi hx hlow => ?_⟩
  · rw [hindex]
    exact h.producible.cfg i
  · rw [haddr]
    exact h.producible.addr i
  · rw [hindex]
    exact h.forbids i hi ((hmatch i).mp hx) fun i' hlt hx' => hlow i' hlt ((hmatch i').mpr hx')

/-- An access below machine mode that the check lets through does not reach a protected byte. -/
theorem PmpProtects.untouched (hpmp : P.pmpCheck = true) (hn : 0 < P.pmpNum) (h : PmpProtects P s x)
    (hm : s.mode ≠ .M) (hlen : HostLength len) (hal : len ∣ addr.toNat)
    (hpass : isaPmpCheckPermission P s addr len .write s.mode = true) (hj : j < len) :
    x ≠ addr + BitVec.ofNat 64 j := by
  rintro rfl
  rw [pmp_check_iff hpmp hn h.producible hlen (Nat.mod_eq_zero_of_dvd hal)] at hpass
  have hmode : pmpMode s .write s.mode = s.mode := if_neg hm
  rw [hmode] at hpass
  obtain ⟨hM, -⟩ | ⟨i, -, hi, hlow, -, hall, hgrant⟩ := hpass
  · exact hm hM
  · have hw := h.forbids i hi (hall j hj) fun i' hlt => hlow i' (Nat.zero_le _) hlt j hj
    obtain ⟨hM, -⟩ | hbit := hgrant
    · exact hm hM
    · exact Bool.false_ne_true (hw.symm.trans hbit)

theorem PmpProtects.of_view (h : PmpProtects P s x) (hv : t.pmpView = s.pmpView) : PmpProtects P t x :=
  h.congr (fun k => congrFun (congrArg (fun v => v.2.1) hv) k) fun i => congrFun (congrArg (fun v => v.2.2) hv) i

theorem PmpProtects.kept (hpmp : P.pmpCheck = true) (hn : 0 < P.pmpNum) (h : PmpProtects P s x) (hm : s.mode ≠ .M)
    (hr : Relation.ReflTransGen (GuardedWrite P) s t) : t.pmem x = s.pmem x ∧ t.pmpView = s.pmpView := by
  refine reached_keeps (I := fun t => t.pmem x = s.pmem x ∧ t.pmpView = s.pmpView) hr (fun u v hc hu => ?_) ⟨rfl, rfl⟩
  cases hc with
  | beside hmem hview => exact ⟨(congrFun hmem x).trans hu.1, hview.trans hu.2⟩
  | write hlen hal hpass =>
    have hmode : u.mode = s.mode := (congrArg Prod.fst hu.2 :)
    refine ⟨Eq.trans (Bytes.writeLE_off _ _ fun j hj => ?_) hu.1, hu.2⟩
    exact (h.of_view hu.2).untouched hpmp hn (hmode ▸ hm) hlen hal hpass hj

variable (hP : P.share = true) (hac : P.acSoft = true)

include hP

theorem fetchDecode_guarded : (guardedEffect P).Within (fetchDecode P) := by
  have hifetch : ∀ a len, (guardedEffect P).Within (vaddrIfetch P a len) := fun _ _ => vaddrReadInternal_guarded hP
  have hlift : ∀ r : Except Stop Decode, (guardedEffect P).Within (liftDecode r) := by
    intro r
    cases r with
    | ok d => exact .ret _ _
    | error e => exact raise_guarded _
  have hpending : ∀ pc, (guardedEffect P).Within (checkPending P pc) := fun pc =>
    .bind (.read _) fun s => .ite (fun _ => .bind (.read _) fun s => .ite (fun _ => dasicsFault_guarded) fun _ =>
      .ret _ _) fun _ => .ret _ _
  have hrest : ∀ pc lo, (guardedEffect P).Within (decodeRest P pc lo) := fun pc lo =>
    .ite (fun _ => .bind (.read _) fun _ => hlift _) fun _ => .bind (hifetch _ _) fun _ => .bind (.read _) fun _ =>
      .ret _ _
  exact .bind (.read _) fun s => .bind (change_guarded (fun _ => rfl) fun _ => rfl) fun _ => .bind (hpending _) fun _ =>
    .bind (hifetch _ _) fun lo => .bind (hrest _ _) fun d => .bind (change_guarded (fun _ => rfl) fun _ => rfl) fun _ =>
      .ret _ _

include hac

theorem exec_protected (hpmp : P.pmpCheck = true) (hn : 0 < P.pmpNum) (h : PmpProtects P s x) (hm : s.mode ≠ .M) :
    (∀ t, exec P d s = .ok () t → t.pmem x = s.pmem x) ∧
      ∀ e t, exec P d s = .error e t → t.pmem x = s.pmem x := by
  by_cases hid : d.id = .system
  · have hsys : pmemEffect.Within (rtlSysSlowPath P d) := .ite (fun _ => sysPriv_pmem) fun _ => sysCsr_pmem
    rw [exec_system hid]
    exact ⟨fun t ht => congrFun (hsys.ok ht) x, fun e t ht => congrFun (hsys.error ht) x⟩
  · have hexec := exec_guarded (P := P) hP hac hid
    exact ⟨fun t ht => (h.kept hpmp hn hm (hexec.ok ht)).1, fun e t ht => (h.kept hpmp hn hm (hexec.error ht)).1⟩

/-- A protected byte is the same after a step that starts below machine mode. -/
theorem CpuStep.protected (hpmp : P.pmpCheck = true) (hn : 0 < P.pmpNum) (hs : CpuStep P a e b)
    (h : PmpProtects P a.m x) (hm : a.m.mode ≠ .M) : b.m.pmem x = a.m.pmem x := by
  have hshare : ¬ P.share = false := by
    rw [hP]
    decide
  have hstarted : ∀ {d u}, fetchDecode P a.m = .ok d u →
      u.pmem x = a.m.pmem x ∧ PmpProtects P (u.started d) x ∧ (u.started d).mode ≠ .M := by
    intro d u hf
    have hkept := h.kept hpmp hn hm ((fetchDecode_guarded hP).ok hf)
    have hmode : u.mode = a.m.mode := (congrArg Prod.fst hkept.2 :)
    exact ⟨hkept.1, h.of_view hkept.2, hmode ▸ hm⟩
  cases hs with
  | instr h1 =>
    obtain ⟨u, v, hf, he, rfl⟩ := executeStep_ok h1
    obtain ⟨hu, hprot, hmu⟩ := hstarted hf
    have hv := (exec_protected hP hac hpmp hn hprot hmu).1 v he
    exact (congrFun (ticked_pmem v) x).trans (hv.trans hu)
  | fault h1 =>
    obtain hf | ⟨d, u, hf, he⟩ := executeStep_error h1
    · exact (h.kept hpmp hn hm ((fetchDecode_guarded hP).error hf)).1
    · obtain ⟨hu, hprot, hmu⟩ := hstarted hf
      exact ((exec_protected hP hac hpmp hn hprot hmu).2 _ _ he).trans hu
  | batchEnd | noIntr _ => rfl
  | trap h1 => exact congrFun ((handleException_pmem _).ok h1) x
  | intr hn _ _ _ => exact absurd hn hshare
  | alarm hn => exact absurd hn hshare

/-- A run below machine mode, to its first step in it: a byte whose lowest matching entry denies the write, or that
no entry matches, is not written. -/
theorem pmp_run_protects (hpmp : P.pmpCheck = true) (hn : 0 < P.pmpNum) (h : Run (CpuStep P) a tr b)
    (ha : PmpProtects P a.m x) (hlow : ∀ y ∈ tr, y.source.m.mode ≠ .M) :
    b.m.pmem x = a.m.pmem x ∧ PmpProtects P b.m x := by
  refine h.invariant (I := fun b => b.m.pmem x = a.m.pmem x ∧ PmpProtects P b.m x) hlow ⟨rfl, ha⟩ fun y hy hs hI => ?_
  have hlt : ∀ c : Csr, c.level = 3 → y.source.m.mode.toNat < c.level := by
    intro c hc
    rw [hc]
    revert hy
    cases y.source.m.mode <;> decide
  refine ⟨(hs.protected hP hac hpmp hn hI.2 hy).trans hI.1, hI.2.congr (fun k => hs.steady rfl (hlt _ ?_))
    fun i => hs.steady rfl (hlt _ ?_)⟩
  · revert k
    decide
  · revert i
    decide

end Run

section Example

/-- A user program in a page of its own, beside which memory is open for reading alone. -/
def readOnlyBeside (instrs : List (BitVec 32)) : Machine :=
  { ((((Machine.reset (.bare .reference) (program 0x80100000 instrs)).setCsr (.pmpcfg 0) 0x191f).setCsr
      (.pmpaddr 0) 0x200401ff).setCsr (.pmpaddr 1) 0x1ffffffff) with mode := .U }

theorem readOnlyBeside_protects (instrs : List (BitVec 32)) :
    PmpProtects (.bare .reference) (readOnlyBeside instrs) 0x80000000 where
  producible := by
    constructor
    · have hcfg : ∀ i, pmpcfgFromIndex (readOnlyBeside []) i = pmpcfgLegal (pmpcfgFromIndex (readOnlyBeside []) i) := by
        decide
      exact fun i => ⟨_, hcfg i⟩
    · have haddr : ∀ i, ((readOnlyBeside []).csr (.pmpaddr i)).toNat < 2 ^ 34 := by decide
      exact haddr
  forbids := by
    intro i _ hx _
    have hw : ∀ i : Fin 16, i ≠ 0 → (pmpcfgFromIndex (readOnlyBeside []) i).getLsbD 1 = false := by decide
    by_cases hi : i = 0
    · subst hi
      obtain ⟨htor, _⟩ | ⟨_, k, hk, hlow, _⟩ := hx
      · have hnapot : ¬ pmpcfgFromIndex (readOnlyBeside []) 0 &&& pmpA = pmpTOR := by decide
        exact absurd htor hnapot
      · have h9 : (0x200401ff : Word).getLsbD 9 = false := by decide
        have hlast : ¬ 9 < k := fun h => Bool.false_ne_true (h9.symm.trans (hk.ones 9 (Nat.le_refl 9) h))
        have hk9 : k = 9 := Nat.le_antisymm (Nat.not_lt.mp hlast) hk.ge
        subst hk9
        exact absurd hlow (show ¬ (0x200401ff : Word).toNat / 2 ^ 10 * 2 ^ 12 ≤ (0x80000000 : Word).toNat by decide)
    · exact hw i hi

/-- A store by the program into its own page. -/
theorem pmp_run_protects_store : ∃ tr b,
    Run (CpuStep (.bare .reference)) ⟨.run, readOnlyBeside [0x00000297, 0x0002b423]⟩ tr b ∧ b.m.pc = 0x80100008 ∧
      b.m.pmem 0x80000000 = (readOnlyBeside [0x00000297, 0x0002b423]).pmem 0x80000000 := by
  have hsteps : ∃ d t d' u, executeStep (.bare .reference) (readOnlyBeside [0x00000297, 0x0002b423]) = .ok d t ∧
      executeStep (.bare .reference) t = .ok d' u ∧ t.mode = .U ∧ u.pc = 0x80100008 :=
    ⟨_, _, _, _, rfl, rfl, rfl, rfl⟩
  obtain ⟨d, t, d', u, h1, h2, ht, hu⟩ := hsteps
  have hrun := Run.cons (CpuStep.instr h1) (.cons (.instr h2) .nil)
  have h := pmp_run_protects rfl rfl rfl (by decide) hrun (readOnlyBeside_protects _) fun y hy => by
    simp only [List.mem_cons, List.not_mem_nil, or_false] at hy
    rcases hy with rfl | rfl
    · exact show Mode.U ≠ .M by decide
    · exact fun h => absurd (ht.symm.trans h) (by decide)
  exact ⟨_, _, hrun, hu, h.1⟩

end Example

end Nemu
