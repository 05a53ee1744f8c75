import Nemu.AccessContract

namespace Nemu

open Effect

set_option autoImplicit true

variable {P : Platform} {q : Machine → Prop} {s t : Machine}

theorem accessMode_eraseData (s : Machine) (ifetch : Bool) :
    s.eraseData.accessMode ifetch = s.accessMode ifetch := by
  have hprv : s.eraseData.mprv = s.mprv := BitField.getLsbD_and_not _ _ _ (by decide)
  have hpp : s.eraseData.mpp = s.mpp := congrArg Mode.ofBits (BitField.extract_and_not _ _ _ _ (by decide))
  unfold Machine.accessMode
  rw [hprv, hpp]
  rfl

/-- The only way in which an instruction fails the assertion on the mode of an access. -/
def BadExec (id : ExecId) (v : Machine) : Prop :=
  ∃ ifetch m, (m = .dynamic ∨ (ifetch = false ∧ id.mmuMode = some m)) ∧ BadTranslation ifetch m v

theorem badTranslation_eraseData (h : BadTranslation ifetch m s.eraseAccess) :
    BadTranslation ifetch m s.eraseData := by
  refine ⟨fun hp => h.1 ?_, h.2⟩
  unfold Permitted at hp
  rw [accessMode_eraseData] at hp
  exact hp

theorem Within.toData {m : Exec α} (h : (accessEffect P q).Within m)
    (hq : ∀ s : Machine, q s.eraseAccess → q' s.eraseData) : (dataEffect P q').Within m :=
  fun s => At.coarsen (coarsens_data P) (h s) (hq s)

theorem Within.toJump {m : Exec α} (h : (dataEffect P q).Within m)
    (hq : ∀ s : Machine, q s.eraseData → q' s.eraseJump) : (jumpEffect P q').Within m :=
  fun s => At.coarsen (coarsens_jump P) (h s) (hq s)

theorem Within.toFlow {m : Exec α} (h : (jumpEffect P q).Within m)
    (hq : ∀ s : Machine, q s.eraseJump → q' s.eraseFlow) : (flowEffect P q').Within m :=
  fun s => At.coarsen (coarsens_flow P) (h s) (hq s)

section Primitive

theorem readReg_data : (dataEffect P q).Within (readReg l) :=
  .bind (.read _) fun _ => .ret _ _

theorem writeReg_data : (dataEffect P q).Within (writeReg l v) := by
  cases l with
  | gpr r => exact .update fun _ => rfl
  | fpr r => exact .update fun _ => rfl
  | zeroNull => exact .update fun _ => rfl

theorem eraseData_setCsr (s : Machine) (v : Word) (h : dataCsr c = true) :
    (s.setCsr c v).eraseData = s.eraseData := by
  unfold Machine.eraseData Machine.setCsr
  congr 1
  funext c'
  by_cases hc : c' = c
  · subst hc
    simp only [h, ↓reduceIte]
  · simp only [Function.update_of_ne hc]

theorem eraseData_setCsr_bits (s : Machine) (h : eraseBits c v = eraseBits c (s.csr c)) :
    (s.setCsr c v).eraseData = s.eraseData := by
  unfold Machine.eraseData Machine.setCsr
  congr 1
  funext c'
  by_cases hc : c' = c
  · subst hc
    simp only [Function.update_self, h]
  · simp only [Function.update_of_ne hc]

theorem setCsr_data (h : dataCsr c = true) : (dataEffect P q).Within (setCsr c v) :=
  .update fun s => eraseData_setCsr s v h

theorem illegal_data : (dataEffect P q).Within (longjmpException .II : Exec α) :=
  Within.toData (q := fun _ => False) illegal_access fun _ h => h.elim

theorem abort_data (ha : a.other = true) : (dataEffect P q).Within (throw (.abort a) : Exec α) :=
  Within.toData (q := fun _ => False) (abort_access ha) fun _ h => h.elim

theorem assert_data (p : Prop) [Decidable p] (ha : a.other = true) :
    (dataEffect P q).Within (assert p a) :=
  Within.toData (q := fun _ => False) (assert_access p ha) fun _ h => h.elim

theorem eraseBits_setBit_sd (b : Bool) (x : Word) :
    eraseBits .mstatus (setBit 63 b x) = eraseBits .mstatus x :=
  BitField.insert_and_not 63 _ fpStatusMask x (by decide)

theorem eraseBits_insert_fs (v : BitVec 2) (x : Word) :
    eraseBits .mstatus (BitField.insert 13 v x) = eraseBits .mstatus x :=
  BitField.insert_and_not 13 _ fpStatusMask x (by decide)

theorem eraseBits_fpSetDirtyVal (P : Platform) (x : Word) :
    eraseBits .mstatus (fpSetDirtyVal P x) = eraseBits .mstatus x := by
  unfold fpSetDirtyVal
  rw [eraseBits_insert_fs]
  split
  · exact eraseBits_setBit_sd true x
  · rfl

theorem eraseBits_updateMstatusSdVal (P : Platform) (x : Word) :
    eraseBits .mstatus (updateMstatusSdVal P x) = eraseBits .mstatus x := by
  unfold updateMstatusSdVal
  dsimp only
  rw [eraseBits_setBit_sd]
  split
  · exact eraseBits_insert_fs _ x
  · rfl

theorem modifyMstatus_data (h : ∀ x, eraseBits .mstatus (f x) = eraseBits .mstatus x) :
    (dataEffect P q).Within (modifyMstatus f) :=
  .update fun s => eraseData_setCsr_bits s (h (s.csr .mstatus))

theorem fpSetDirty_data : (dataEffect P q).Within (fpSetDirty P) :=
  modifyMstatus_data (eraseBits_fpSetDirtyVal P)

theorem updateMstatusSd_data : (dataEffect P q).Within (updateMstatusSd P) :=
  modifyMstatus_data (eraseBits_updateMstatusSdVal P)

theorem isaFpSetEx_data : (dataEffect P q).Within (isaFpSetEx P ex) := by
  refine .bind (.update fun s => ?_) fun _ => fpSetDirty_data
  dsimp only
  change (Machine.setCsr _ _ _).eraseData = _
  rw [eraseData_setCsr _ _ rfl]
  exact eraseData_setCsr_bits s (BitField.insert_and_not 0 _ 0x1f _ (by decide))

theorem recordMemEvent_data : (dataEffect P q).Within (recordMemEvent P isLoad va) := by
  refine .update fun s => ?_
  split <;> rfl

theorem setAmo_data : (dataEffect P q).Within (setAmo b) := .update fun _ => rfl

end Primitive

section Access

variable {d : Decode} {id : ExecId}

/-- The memory accesses of an instruction, with the `mmu_mode` it was decoded with or with the
one current at the access. -/
def MmuOf (id : ExecId) (m : MmuMode) : Prop := m = .dynamic ∨ id.mmuMode = some m

theorem badExec_of_data (hm : MmuOf id m) (s : Machine)
    (h : BadTranslation false m s.eraseAccess) : BadExec id s.eraseData :=
  ⟨false, m, hm.imp_right fun h => ⟨rfl, h⟩, badTranslation_eraseData h⟩

theorem vaddrRead_data (hm : MmuOf id m) :
    (dataEffect P (BadExec id)).Within (vaddrRead P pc va len m) :=
  Within.toData (vaddrRead_access m) (badExec_of_data hm)

theorem vaddrWrite_data (hm : MmuOf id m) :
    (dataEffect P (BadExec id)).Within (vaddrWrite P pc va len data m) :=
  Within.toData (vaddrWrite_access m) (badExec_of_data hm)

theorem vaddrIfetch_data : (dataEffect P (BadExec id)).Within (vaddrIfetch P va len) :=
  Within.toData vaddrIfetch_access fun _ h => ⟨true, .dynamic, .inl rfl, badTranslation_eraseData h⟩

theorem rtlLm_data (hm : MmuOf id m) :
    (dataEffect P (BadExec id)).Within (rtlLm P d dest addr off len m) :=
  .bind readReg_data fun _ => .bind (vaddrRead_data hm) fun _ => .bind writeReg_data fun _ =>
    .bind readReg_data fun _ => recordMemEvent_data

theorem rtlSm_data (hm : MmuOf id m) :
    (dataEffect P (BadExec id)).Within (rtlSm P d data addr off len m) :=
  .bind readReg_data fun _ => .bind (vaddrWrite_data hm) fun _ => recordMemEvent_data

theorem rtlLms_data (hm : MmuOf id m) :
    (dataEffect P (BadExec id)).Within (rtlLms P d addr off len m) :=
  .bind readReg_data fun _ => .bind (vaddrRead_data hm) fun _ =>
    .bind (assert_data _ rfl) fun _ => .ret _ _

theorem lrStep_data : (dataEffect P (BadExec id)).Within (lrStep P d width) :=
  .bind (.read _) fun _ => .bind (assert_data _ rfl) fun _ => .bind (rtlLms_data (.inl rfl)) fun _ =>
    .bind writeReg_data fun _ => .bind readReg_data fun _ => .update fun _ => rfl

theorem amoStep_data : (dataEffect P (BadExec id)).Within (amoStep P d funct5 width) := by
  refine .bind setAmo_data fun _ => .bind (rtlLms_data (.inl rfl)) fun x =>
    .bind readReg_data fun y => ?_
  split
  · exact abort_data rfl
  · exact .bind (rtlSm_data (.inl rfl)) fun _ => .bind writeReg_data fun _ => setAmo_data

theorem setScAmo_data : (dataEffect P q).Within (setScAmo P b) := by
  unfold setScAmo
  split
  · exact setAmo_data
  · exact .ret _ _

theorem scFailPaddr_data (va : Word) (s : Machine) :
    (dataEffect P (BadExec id)).At s (scFailPaddr P va (s.mmuCache false)) := by
  unfold scFailPaddr
  split
  · next hm =>
    have hq : (accessEffect P fun v => ¬ Permitted v false).At s (isaMmuTranslate P va .write) :=
      isaMmuTranslate_access (fun _ h => h) s
    refine At.coarsen (coarsens_data P) hq fun h => ?_
    refine badExec_of_data (.inl rfl) s ⟨h, .inr ⟨rfl, ?_⟩⟩
    rw [show s.eraseAccess.mmuCache false = .translate from hm]
    decide
  · exact Within.ret _ _ s

theorem scFailCheck_data : (dataEffect P (BadExec id)).Within (scFailCheck P d width) := by
  refine .bind readReg_data fun a => ?_
  intro s
  have hcheck : (accessEffect P fun _ => False).Within (isaMmuCheck P a width .write) :=
    isaMmuCheck_access
  refine At.bind (Within.toData hcheck (fun _ h => h.elim) s) fun m t ht => ?_
  obtain ⟨rfl, rfl⟩ := isaMmuCheck_ok ht
  refine At.bind (scFailPaddr_data a t) fun paddr u _ => ?_
  apply At.bind_get
  split
  · have hsaf : (accessEffect P fun _ => False).Within (faultAt P .SAF a : Exec Unit) :=
      faultAt_access (by simp [keepsTval]) rfl a
    exact Within.toData hsaf (fun _ h => h.elim) u
  · exact Within.ret _ _ u

theorem setScAmo_run (P : Platform) (s : Machine) :
    setScAmo P true s = .ok () { s with amo := P.storeCommit || s.amo } := by
  unfold setScAmo
  cases P.storeCommit <;> rfl

theorem scStep_data : (dataEffect P (BadExec id)).Within (scStep P d width) := by
  refine .bind setScAmo_data fun _ => .bind (.read _) fun s => ?_
  split
  · refine .bind ?_ fun _ => .bind writeReg_data fun _ => setScAmo_data
    exact .bind readReg_data fun _ => .bind (rtlSm_data (.inl rfl)) fun _ => .update fun _ => rfl
  · exact .bind scFailCheck_data fun _ => .bind writeReg_data fun _ => setScAmo_data

theorem rtlAmoSlowPath_data : (dataEffect P (BadExec id)).Within (rtlAmoSlowPath P d) := by
  unfold rtlAmoSlowPath
  dsimp only
  split
  · exact lrStep_data
  · split
    · exact scStep_data
    · exact amoStep_data

end Access

section Float

variable {d : Decode} {id : ExecId}

theorem rtlFsr_data : (dataEffect P q).Within (rtlFsr P dest v w) :=
  .bind writeReg_data fun _ => fpSetDirty_data

theorem isaFpGetRm_data : (dataEffect P q).Within (isaFpGetRm d) := by
  refine .bind (.read _) fun s => ?_
  split
  · exact .ret _ _
  · split
    · exact .ret _ _
    · exact illegal_data

theorem fpCheckFs_data : (dataEffect P q).Within fpCheckFs := by
  refine .bind (.read _) fun s => ?_
  split
  · exact illegal_data
  · exact .ret _ _

theorem fpcallRm_data : (dataEffect P q).Within (fpcallRm d o) := by
  unfold fpcallRm
  split
  · exact .bind isaFpGetRm_data fun _ => .ret _ _
  · exact .ret _ _

theorem rtlFpcall_data : (dataEffect P q).Within (rtlFpcall P d o w x y z) := by
  refine .bind fpCheckFs_data fun _ => .bind fpcallRm_data fun rm => ?_
  dsimp only
  split
  · exact .bind isaFpSetEx_data fun _ => .ret _ _
  · exact .ret _ _

theorem execFload_data (hm : MmuOf id m) :
    (dataEffect P (BadExec id)).Within (execFload P d w m) :=
  .bind (rtlLm_data hm) fun _ => .bind readReg_data fun _ => rtlFsr_data

theorem execFstore_data (hm : MmuOf id m) :
    (dataEffect P (BadExec id)).Within (execFstore P d w m) :=
  .bind readReg_data fun _ => rtlSm_data hm

theorem execFmadd_data : (dataEffect P q).Within (execFmadd P d b b' w) :=
  .bind readReg_data fun _ => .bind readReg_data fun _ => .bind readReg_data fun _ =>
    .bind rtlFpcall_data fun _ => rtlFsr_data

theorem eraseData_writeLoc (s : Machine) (l : Loc) (v : Word) :
    (s.writeLoc l v).eraseData = s.eraseData := by
  cases l <;> rfl

theorem execFcmp_data : (dataEffect P q).Within (execFcmp P d o w) := by
  refine .bind readReg_data fun x => .bind readReg_data fun y => .bind (.update fun s => ?_) fun _ =>
    .bind rtlFpcall_data fun _ => writeReg_data
  split
  · exact eraseData_writeLoc s _ _
  · rfl

theorem execFsgnj_data : (dataEffect P q).Within (execFsgnj P d w sign) :=
  .bind readReg_data fun _ => .bind readReg_data fun _ => rtlFsr_data

end Float

section Vector

variable {d : Decode} {id : ExecId}

theorem execInv_data : (dataEffect P (BadExec id)).Within (execInv P d) := by
  unfold execInv
  split
  · exact .bind vaddrIfetch_data fun _ => .bind vaddrIfetch_data fun _ => abort_data rfl
  · exact illegal_data

theorem runVector_data (hm : MmuOf id m) (k : VProg) :
    (dataEffect P (BadExec id)).Within (runVector P d m k) := by
  induction k with
  | done => exact .ret _ _
  | inv => exact execInv_data
  | stuck => exact abort_data rfl
  | get k ih => exact .bind (.read _) fun s => ih s
  | setVr r v k ih => exact .bind (.update fun _ => rfl) fun _ => ih
  | setGpr r v k ih =>
    refine .bind (.update fun s => ?_) fun _ => ih
    split
    · exact eraseData_writeLoc s _ _
    · rfl
  | setCsr c v k ih =>
    refine .bind (setCsr_data ?_) fun _ => ih
    cases c <;> rfl
  | load addr len k ih =>
    exact .bind (vaddrRead_data hm) fun v => .bind recordMemEvent_data fun _ => ih v
  | store addr len data k ih =>
    exact .bind (vaddrWrite_data hm) fun _ => .bind recordMemEvent_data fun _ => ih

end Vector

section Exec

variable {d : Decode}

theorem writeReg_read_data (f : Word → Word) :
    (dataEffect P q).Within (do
      let x ← readReg l
      writeReg l' (f x)) :=
  .bind readReg_data fun _ => writeReg_data

theorem writeReg_read₂_data (f : Word → Word → Word) :
    (dataEffect P q).Within (do
      let x ← readReg l
      let y ← readReg l'
      writeReg l'' (f x y)) :=
  .bind readReg_data fun _ => writeReg_read_data _

theorem execNemuTrap_data : (dataEffect P q).Within execNemuTrap := by
  refine .bind (.read _) fun s => ?_
  split
  · exact setCsr_data rfl
  · split
    · exact .ret _ _
    · refine .raise fun s => ⟨?_, ?_, ?_, ?_⟩
      · exact (Machine.eraseFault_eraseData s).symm
      · exact fun f hf => by cases hf
      · exact fun h => by cases h
      · exact fun h => by cases h

theorem illegalIf_data (p : Prop) [Decidable p] : (dataEffect P q).Within (illegalIf p) := by
  unfold illegalIf
  split
  · exact illegal_data
  · exact .ret _ _

theorem illegalWhen_data (p : Prop) [Decidable p] : (dataEffect P q).Within (illegalWhen p) :=
  .bind (illegalIf_data p) fun _ => .ret _ _

theorem privFence_data : (dataEffect P q).Within (privFence P op) := by
  refine .bind (.read _) fun s => ?_
  dsimp only
  split
  · exact illegalWhen_data _
  split
  · exact illegalWhen_data _
  split
  · exact .ret _ _
  split
  · exact illegalWhen_data _
  split
  · exact illegalWhen_data _
  split
  · exact illegal_data
  · exact abort_data rfl

theorem privInstr_fence_i : privInstr P (-1) = privFence P (-1) := by
  unfold privInstr
  rw [if_neg (fun h => absurd h.2 (by decide)), if_neg (by decide), if_neg (by decide)]

theorem exec_data (hc : d.id.cfiType = .none) (hs : d.id ≠ .system) :
    (dataEffect P (BadExec d.id)).Within (exec P d) := by
  obtain ⟨pc, snpc, instr, id, dest, src1, src2⟩ := d
  unfold exec
  cases id with
  | inv => exact execInv_data
  | rt_inv => exact illegal_data
  | nemu_trap => exact execNemuTrap_data
  | fence_i =>
    dsimp only
    rw [privInstr_fence_i]
    exact .bind privFence_data fun _ => .ret _ _
  | fence => exact .ret _ _
  | lui | auipc | c_li | p_li_0 | p_li_1 => exact writeReg_data
  | computeReg o | compressedReg o => exact writeReg_read₂_data _
  | rvbReg o | rvkReg o => exact writeReg_read₂_data _
  | computeImm o | compressedImm o => exact writeReg_read_data _
  | rvbImm o | rvkImm o => exact writeReg_read_data _
  | c_mv | p_inc | p_dec | p_sext_w => exact writeReg_read_data _
  | fmv_x_w | fmv_x_d => exact writeReg_read_data _
  | fclass w => exact writeReg_read_data _
  | load signed len m =>
    cases signed with
    | true => exact .bind (rtlLms_data (.inr rfl)) fun _ => writeReg_data
    | false => exact rtlLm_data (.inr rfl)
  | store len m => exact .bind readReg_data fun _ => rtlSm_data (.inr rfl)
  | atomic => exact rtlAmoSlowPath_data
  | system => exact absurd rfl hs
  | fload w m => exact execFload_data (.inr rfl)
  | fstore w m => exact execFstore_data (.inr rfl)
  | fop o w =>
    exact .bind readReg_data fun _ => .bind readReg_data fun _ => .bind rtlFpcall_data fun _ =>
      rtlFsr_data
  | funary o w w' => exact .bind readReg_data fun _ => .bind rtlFpcall_data fun _ => rtlFsr_data
  | fcvtToI o w => exact .bind readReg_data fun _ => .bind rtlFpcall_data fun _ => writeReg_data
  | fcmp o w => exact execFcmp_data
  | fmadd b b' w => exact execFmadd_data
  | fsgnj w | fsgnjn w | fsgnjx w => exact execFsgnj_data
  | fmv_w_x | fmv_d_x => exact .bind readReg_data fun _ => rtlFsr_data
  | vector m => exact runVector_data (.inr rfl) _
  | jal | p_jal | c_j | dasicscall_j | jalr | p_ret | c_jr | c_jalr | dasicscall_jr => cases hc
  | branch o | c_beqz | c_bnez | p_blez | p_bgez | p_bltz | p_bgtz => cases hc

end Exec

section Flow

variable {d : Decode} {id : ExecId}

theorem Within.jump {m : Exec α} (h : (dataEffect P (BadExec id)).Within m) :
    (jumpEffect P (BadExec id)).Within m :=
  Within.toJump h fun _ h => h

theorem Within.flow {m : Exec α} (h : (jumpEffect P (BadExec id)).Within m) :
    (flowEffect P (BadExec id)).Within m :=
  Within.toFlow h fun _ h => h

theorem readReg_jump : (jumpEffect P (BadExec id)).Within (readReg l) := Within.jump readReg_data

theorem writeReg_jump : (jumpEffect P (BadExec id)).Within (writeReg l v) :=
  Within.jump writeReg_data

theorem rtlJ_jump : (jumpEffect P (BadExec id)).Within (rtlJ P target) := by
  refine .update fun s => ?_
  split <;> rfl

theorem rtlJrelop_jump : (jumpEffect P (BadExec id)).Within (rtlJrelop P d o x y) := rtlJ_jump

/-- The two jumps that write `dretpc`. -/
def ExecId.isDasicscall : ExecId → Bool
  | .dasicscall_j | .dasicscall_jr => true
  | _ => false

theorem exec_jump (hs : d.id ≠ .system) (hd : d.id.isDasicscall = false) :
    (jumpEffect P (BadExec d.id)).Within (exec P d) := by
  by_cases hc : d.id.cfiType = .none
  · exact Within.jump (exec_data hc hs)
  obtain ⟨pc, snpc, instr, id, dest, src1, src2⟩ := d
  unfold exec
  cases id with
  | jal | p_jal => exact .bind writeReg_jump fun _ => rtlJ_jump
  | c_j => exact rtlJ_jump
  | jalr =>
    exact .bind readReg_jump fun _ => .bind (.read _) fun _ => .bind writeReg_jump fun _ => rtlJ_jump
  | p_ret | c_jr => exact .bind readReg_jump fun _ => rtlJ_jump
  | c_jalr =>
    exact .bind readReg_jump fun _ => .bind writeReg_jump fun _ => .bind readReg_jump fun _ =>
      rtlJ_jump
  | branch o => exact .bind readReg_jump fun _ => .bind readReg_jump fun _ => rtlJrelop_jump
  | c_beqz | c_bnez | p_blez | p_bgez | p_bltz | p_bgtz =>
    exact .bind readReg_jump fun _ => rtlJrelop_jump
  | dasicscall_j | dasicscall_jr => cases hd
  | _ => exact absurd rfl hc

theorem eraseFlow_setDretpc (s : Machine) (v : Word) :
    (s.setCsr .dretpc v).eraseFlow = s.eraseFlow := by
  unfold Machine.eraseFlow Machine.eraseDretpc Machine.eraseJump Machine.erasePc Machine.eraseData
    Machine.setCsr
  congr 1
  funext c
  by_cases hc : c = .dretpc
  · simp only [hc, ↓reduceIte]
  · simp only [hc, ↓reduceIte, Function.update_of_ne hc]

theorem rtlSetDretpc_flow : (flowEffect P (BadExec id)).Within (rtlSetDretpc d v) := by
  refine .bind (.bind (.read _) fun s => ?_) fun _ => .update fun s => eraseFlow_setDretpc s v
  split
  · exact .ret _ _
  · exact Within.flow (Within.jump illegal_data)

theorem exec_flow (hs : d.id ≠ .system) : (flowEffect P (BadExec d.id)).Within (exec P d) := by
  by_cases hd : d.id.isDasicscall = true
  · have hread : ∀ l, (flowEffect P (BadExec d.id)).Within (readReg l) :=
      fun l => Within.flow readReg_jump
    have hwrite : ∀ l v, (flowEffect P (BadExec d.id)).Within (writeReg l v) :=
      fun l v => Within.flow writeReg_jump
    have hj : ∀ a, (flowEffect P (BadExec d.id)).Within (rtlJ P a) :=
      fun a => Within.flow rtlJ_jump
    obtain ⟨pc, snpc, instr, id, dest, src1, src2⟩ := d
    unfold exec
    cases id with
    | dasicscall_j => exact .bind rtlSetDretpc_flow fun _ => .bind (hwrite _ _) fun _ => hj _
    | dasicscall_jr =>
      exact .bind (hread _) fun _ => .bind (.read _) fun _ => .bind rtlSetDretpc_flow fun _ =>
        .bind (hwrite _ _) fun _ => hj _
    | _ => cases hd
  · exact Within.flow (exec_jump hs (by simpa using hd))

end Flow

end Nemu
