import Nemu.Reservation
import Nemu.MmuPaths

namespace Nemu

open Effect

set_option autoImplicit true

/-- The access of a memory instruction. Unlike `Decode.access`, a store-conditional has one
whether it succeeds or not. -/
def Decode.memAccess (d : Decode) (s : Machine) : Option Access :=
  match d.id with
  | .load _ len _ => some ⟨s.readLoc d.src1.preg + d.src2.imm, len, .load⟩
  | .store len _ => some ⟨s.readLoc d.src1.preg + d.src2.imm, len, .store⟩
  | .fload w _ => some ⟨s.readLoc d.src1.preg + d.src2.imm, fpLen w, .load⟩
  | .fstore w _ => some ⟨s.readLoc d.src1.preg + d.src2.imm, fpLen w, .store⟩
  | .atomic =>
    if d.instr.extractLsb' 27 5 = 0b00010 then some ⟨s.readLoc d.src1.preg, d.amoWidth, .load⟩
    else if d.instr.extractLsb' 27 5 = 0b00011 then
      some ⟨s.readLoc d.src1.preg, d.amoWidth, .store⟩
    else some ⟨s.readLoc d.src1.preg, d.amoWidth, .amo⟩
  | _ => none

/-- The `mmu_mode` that the executor of an access passes. -/
def Decode.mmuMode (d : Decode) : MmuMode :=
  match d.id with
  | .load _ _ m | .store _ m | .fload _ m | .fstore _ m => m
  | _ => .dynamic

/-- A store-conditional without a reservation, which makes no access. -/
def Decode.ScFails (d : Decode) (s : Machine) : Prop := d.IsSc ∧ s.scSuccess d = false

theorem amoWidth_hostLength (d : Decode) : HostLength d.amoWidth := by
  unfold Decode.amoWidth
  split
  · exact .inr (.inr (.inr rfl))
  · exact .inr (.inr (.inl rfl))

/-- The exception of a misaligned access: loads and LR, or stores, SC and AMO. -/
def AccessKind.alignFault : AccessKind → Exc
  | load => .LAM
  | store | amo => .SAM

/-- A misaligned access is trapped before anything has happened. -/
structure TrapsMisaligned (P : Platform) (d : Decode) (s : Machine) (a : Access) (t : Machine) :
    Prop where
  raised : exec P d s = .error (.exception ⟨a.kind.alignFault, some a.addr, .plain⟩) t
  tval : t.csr (intrTvalReg P s a.kind.alignFault) = a.addr
  registers : SameRegisters s t
  pmem : t.pmem = s.pmem
  mmio : t.mmio = s.mmio

/-- The DASICS bounds let the first access of an instruction through. -/
def Granted (P : Platform) (s : Machine) (d : Decode) (a : Access) : Prop :=
  P.dasics = true → dasicsInTrustedZone s d.pc = false → s.closes a.kind.first = false →
    ∀ j < a.len, s.Grants a.kind.first (a.addr + BitVec.ofNat 64 j)

/-- The misalignment of an access is noticed, and nothing else first. -/
structure Caught (P : Platform) (d : Decode) (s : Machine) (a : Access) : Prop where
  amo : a.kind = .load → s.amo = false
  path : (P.share = true ∧ ¬ d.ScFails s) ∨
    (d.mmuMode = .dynamic ∧ (d.ScFails s ∨ Granted P s d a) ∧ ¬ NonCanonical s a.addr)

variable {P : Platform} {s t : Machine} {d : Decode} {a : Access} {type : MemType}

def isAlignFault (ex : Exc) : Prop := ex = .LAM ∨ ex = .SAM

instance (ex : Exc) : Decidable (isAlignFault ex) := inferInstanceAs (Decidable (_ ∨ _))

section Avoids

theorem isAlignFault_noAccess : NoAccessFault isAlignFault := ⟨by decide, by decide, by decide⟩

theorem isAlignFault_noPage : NoPageFault isAlignFault := ⟨by decide, by decide, by decide⟩

theorem dasicsFault_avoids (mode : Mode) :
    (avoids isAlignFault).Within (dasicsFault P (dasicsEx mode) reason va : Exec α) := by
  refine .bind avoids_update fun _ => avoids_fault ?_
  unfold dasicsEx
  split <;> decide

theorem checkPermission_avoids :
    (avoids isAlignFault).Within (checkPermission P pte b va type) := by
  refine .bind (.read _) fun s => ?_
  dsimp only
  refine .bind (avoids_assert _) fun _ => ?_
  cases type with
  | ifetch =>
    dsimp only
    split
    · exact .bind (avoids_assert _) fun _ => avoids_fault (by decide)
    · exact .ret _ _
  | read =>
    dsimp only
    split
    · refine .bind avoids_update fun _ => avoids_fault ?_
      cases s.amo <;> decide
    split
    · exact dasicsFault_avoids _
    · exact .ret _ _
  | write | ifetchRead | writeRead =>
    dsimp only
    split
    · exact .bind avoids_update fun _ => avoids_fault (by decide)
    split
    · exact dasicsFault_avoids _
    · exact .ret _ _

theorem ptw_avoids : (avoids isAlignFault).Within (ptw P va type) :=
  ptw_within (fun _ => paddrRead_avoids isAlignFault_noAccess) (fun _ _ => checkPermission_avoids)
    (ptwUpdateAd_within fun _ _ _ => paddrWrite_avoids isAlignFault_noAccess)

theorem isaMmuTranslate_avoids : (avoids isAlignFault).Within (isaMmuTranslate P va type) :=
  isaMmuTranslate_within ptw_avoids (forceRaisePf_avoids isAlignFault_noPage)

theorem vaddrMmuRead_avoids : (avoids isAlignFault).Within (vaddrMmuRead P va len type) :=
  vaddrMmuRead_within (fun _ => isaMmuTranslate_avoids) fun _ _ _ => paddrRead_avoids isAlignFault_noAccess

theorem vaddrMmuWrite_avoids : (avoids isAlignFault).Within (vaddrMmuWrite P va len data) :=
  vaddrMmuWrite_within (fun _ => isaMmuTranslate_avoids) fun _ _ _ _ => paddrWrite_avoids isAlignFault_noAccess

/-- Without the check of the reference, the checks before a translation find nothing wrong with
the alignment. -/
theorem vaddrCheck_avoids (hP : P.share = false) (pc : Word) :
    (avoids isAlignFault).Within (vaddrCheck P (some pc) va len type) :=
  vaddrCheck_within (fun hshare => absurd (hP.symm.trans hshare) Bool.false_ne_true)
    fun _ _ _ _ _ => dasicsFault_avoids _

theorem route_avoids {direct mapped : Exec α} (hP : P.share = false) (hm : m ≠ .dynamic)
    (hd : (avoids isAlignFault).Within direct) (hmap : (avoids isAlignFault).Within mapped) :
    (avoids isAlignFault).Within (route P pc va len type direct mapped m) := by
  refine .bind (vaddrCheck_avoids hP pc) fun _ => .bind ?_ fun m' => ?_
  · cases m with
    | dynamic => exact absurd rfl hm
    | direct | translate => exact .ret _ _
  · split
    · exact hd
    · exact hmap

end Avoids

section Torn

variable {va pc : Word} {len : Nat}

theorem low_bits_iff (h : HostLength len) (va : Word) :
    va &&& (BitVec.ofNat 64 len - 1) = 0 ↔ len ∣ va.toNat := by
  have hmask : ∀ k, (BitVec.ofNat 64 (2 ^ k) - 1).toNat = 2 ^ k - 1 →
      (va &&& (BitVec.ofNat 64 (2 ^ k) - 1) = 0 ↔ 2 ^ k ∣ va.toNat) := by
    intro k hk
    rw [← BitVec.toNat_inj, BitVec.toNat_and, hk, Nat.and_two_pow_sub_one_eq_mod]
    exact Nat.dvd_iff_mod_eq_zero.symm
  obtain rfl | rfl | rfl | rfl := h
  · exact hmask 0 rfl
  · exact hmask 1 rfl
  · exact hmask 2 rfl
  · exact hmask 3 rfl

/-- The exception that a misaligned access raises where it is checked. -/
def alignFaultOf (s : Machine) (type : MemType) : Exc :=
  if s.amo ∨ type = .write then .SAM else .LAM

def raised (P : Platform) (s : Machine) (ex : Exc) (va : Word) : EStateM.Result Stop Machine α :=
  .error (.exception ⟨ex, some va, .plain⟩) (s.faulted P ex va)

theorem isaMmuCheck_torn (ht : type = .read ∨ type = .write)
    (ha : P.acSoft = true ∧ va &&& (BitVec.ofNat 64 len - 1) ≠ 0) (h : ¬ NonCanonical s va) :
    isaMmuCheck P va len type s = raised P s (alignFaultOf s type) va := by
  have hmsb : MsbsOk s va type := (msbsOk_iff ht).mpr h
  have hne : ¬ type = .ifetch := by
    obtain rfl | rfl := ht <;> decide
  unfold MsbsOk at hmsb
  unfold isaMmuCheck
  rw [get_bind, if_neg (not_not.mpr hmsb), if_neg hne, if_pos ha]
  exact faultAt_run P _ va s

variable {direct mapped : Exec α}

theorem route_torn_share (hP : P.share = true) (ht : type = .read ∨ type = .write)
    (ha : P.acSoft = true ∧ va &&& (BitVec.ofNat 64 len - 1) ≠ 0) (m : MmuMode) :
    route P pc va len type direct mapped m s = raised P s (alignFaultOf s type) va := by
  have hne : type ≠ .ifetch := by
    obtain rfl | rfl := ht <;> decide
  exact bind_error (vaddrCheck_misaligned ⟨hP, ha⟩ hne)

/-- `MMU_DYNAMIC` in the stand-alone build: the bounds, the upper bits, then the alignment. -/
theorem route_torn_dynamic (hP : P.share = false) (ht : type = .read ∨ type = .write)
    (ha : P.acSoft = true ∧ va &&& (BitVec.ofNat 64 len - 1) ≠ 0) (pc : Word)
    (direct mapped : Exec α) :
    (¬ Checked P s pc va len type → ∃ e t, route P pc va len type direct mapped .dynamic s =
        .error e t ∧ ∀ f, e = .exception f → ¬ isAlignFault f.cause) ∧
      (Checked P s pc va len type → NonCanonical s va →
        route P pc va len type direct mapped .dynamic s = raised P s (pageFault s type) va) ∧
      (Checked P s pc va len type → ¬ NonCanonical s va →
        route P pc va len type direct mapped .dynamic s = raised P s (alignFaultOf s type) va) := by
  refine ⟨fun hc => ?_, fun hc hn => ?_, fun hc hn => ?_⟩
  · cases hv : vaddrCheck P (some pc) va len type s with
    | ok _ t => exact absurd (Checked.of_run hv ht) hc
    | error e t => exact ⟨e, t, bind_error hv, (vaddrCheck_avoids hP pc).error hv⟩
  · exact route_nonCanonical hc ht hn
  · have hr : resolveMmuMode P va len type .dynamic s = raised P s (alignFaultOf s type) va :=
      isaMmuCheck_torn ht ha hn
    unfold route
    rw [bind_ok (hc.run ht)]
    exact bind_error hr

end Torn

section First

/-- The first thing an instruction does is its access. -/
structure Begins (P : Platform) (d : Decode) (s : Machine) (a : Access) (b : Bool) : Prop where
  run : ∃ (α : Type) (direct mapped : Exec α) (k : α → Exec Unit),
    exec P d s = (route P d.pc a.addr a.len a.kind.first direct mapped d.mmuMode >>= k)
      { s with amo := b } ∧
    (d.mmuMode ≠ .dynamic → (avoids isAlignFault).Within direct ∧
      (avoids isAlignFault).Within mapped ∧ ∀ x, (avoids isAlignFault).Within (k x))
  load : a.kind = .load → b = s.amo
  amo : a.kind = .amo → b = true

theorem directRead_avoids : (avoids isAlignFault).Within (directRead P va len) :=
  .bind (.read _) fun _ => paddrRead_avoids isAlignFault_noAccess

theorem directWrite_avoids : (avoids isAlignFault).Within (directWrite P va len data) :=
  .bind (.read _) fun _ => paddrWrite_avoids isAlignFault_noAccess

theorem exec_fload_route (h : d.id = .fload w m) :
    exec P d s = (vaddrRead P d.pc (s.readLoc d.src1.preg + d.src2.imm) (fpLen w) m >>= fun v => do
      writeReg d.dest.preg v
      let a ← readReg d.src1.preg
      recordMemEvent P true (a + d.src2.imm)
      let v ← readReg d.dest.preg
      rtlFsr P d.dest.preg v w) s := by
  have hexec : exec P d s = (rtlLm P d d.dest.preg d.src1.preg d.src2.imm (fpLen w) m >>= fun _ => do
      let v ← readReg d.dest.preg
      rtlFsr P d.dest.preg v w) s := by
    unfold exec
    rw [h]
    rfl
  rw [hexec]
  unfold rtlLm
  simp only [bind_assoc]
  rfl

theorem rtlFsr_avoids : (avoids isAlignFault).Within (rtlFsr P l v w) :=
  .bind avoids_update fun _ => avoids_update

theorem Begins.of_read {k : Word → Exec Unit}
    (hrun : exec P d s = (vaddrRead P d.pc a.addr a.len d.mmuMode >>= k) { s with amo := b })
    (hk : d.mmuMode ≠ .dynamic → ∀ x, (avoids isAlignFault).Within (k x))
    (ha : a.kind = .load ∧ b = s.amo ∨ a.kind = .amo ∧ b = true) : Begins P d s a b where
  run := by
    have hfirst : a.kind.first = .read := by
      obtain ⟨h, -⟩ | ⟨h, -⟩ := ha <;> rw [h] <;> rfl
    rw [hfirst]
    exact ⟨Word, directRead P a.addr a.len, vaddrMmuRead P a.addr a.len .read, k, hrun,
      fun hm => ⟨directRead_avoids, vaddrMmuRead_avoids, hk hm⟩⟩
  load h := by
    obtain ⟨-, hb⟩ | ⟨h', -⟩ := ha
    · exact hb
    · cases h.symm.trans h'
  amo h := by
    obtain ⟨h', -⟩ | ⟨-, hb⟩ := ha
    · cases h.symm.trans h'
    · exact hb

theorem Begins.of_write {k : Unit → Exec Unit} {data : Word}
    (hrun : exec P d s = (vaddrWrite P d.pc a.addr a.len data d.mmuMode >>= k) { s with amo := b })
    (hk : d.mmuMode ≠ .dynamic → ∀ x, (avoids isAlignFault).Within (k x))
    (ha : a.kind = .store) : Begins P d s a b where
  run := by
    rw [ha]
    exact ⟨Unit, directWrite P a.addr a.len data, vaddrMmuWrite P a.addr a.len data, k, hrun,
      fun hm => ⟨directWrite_avoids, vaddrMmuWrite_avoids, hk hm⟩⟩
  load h := by cases h.symm.trans ha
  amo h := by cases h.symm.trans ha

theorem begins_load (h : d.id = .load signed len m) :
    Begins P d s ⟨s.readLoc d.src1.preg + d.src2.imm, len, .load⟩ s.amo := by
  have hd : d = { d with id := .load signed len m } := by rw [← h]
  have hm : m = d.mmuMode := by
    unfold Decode.mmuMode
    rw [h]
  have hrun : exec P d s = (vaddrRead P d.pc (s.readLoc d.src1.preg + d.src2.imm) len m >>=
      loadTail P d signed len) s :=
    (congrArg (fun d => exec P d s) hd).trans (exec_load_route d signed m)
  rw [hm] at hrun
  exact .of_read hrun (fun _ => loadTail_avoids d signed) (.inl ⟨rfl, rfl⟩)

theorem begins_store (h : d.id = .store len m) :
    Begins P d s ⟨s.readLoc d.src1.preg + d.src2.imm, len, .store⟩ s.amo := by
  have hd : d = { d with id := .store len m } := by rw [← h]
  have hm : m = d.mmuMode := by
    unfold Decode.mmuMode
    rw [h]
  have hrun := (congrArg (fun d => exec P d s) hd).trans (exec_store_route d m)
  rw [hm] at hrun
  exact .of_write hrun (fun _ _ => avoids_update) rfl

theorem begins_fload (h : d.id = .fload w m) :
    Begins P d s ⟨s.readLoc d.src1.preg + d.src2.imm, fpLen w, .load⟩ s.amo := by
  have hm : m = d.mmuMode := by
    unfold Decode.mmuMode
    rw [h]
  have hrun := exec_fload_route (P := P) (s := s) h
  rw [hm] at hrun
  refine .of_read hrun (fun _ _ => ?_) (.inl ⟨rfl, rfl⟩)
  exact .bind avoids_update fun _ => .bind avoids_readReg fun _ => .bind avoids_update fun _ =>
    .bind avoids_readReg fun _ => rtlFsr_avoids

theorem begins_fstore (h : d.id = .fstore w m) :
    Begins P d s ⟨s.readLoc d.src1.preg + d.src2.imm, fpLen w, .store⟩ s.amo := by
  have hm : m = d.mmuMode := by
    unfold Decode.mmuMode
    rw [h]
  have hexec : exec P d s = execFstore P d w m s := by
    unfold exec
    rw [h]
  have hrun : exec P d s = (vaddrWrite P d.pc (s.readLoc d.src1.preg + d.src2.imm)
      (fpLen w) (if w = .W32 ∧ m = .translate then funbox (s.readLoc d.dest.preg)
        else s.readLoc d.dest.preg) m >>= fun _ =>
      recordMemEvent P false (s.readLoc d.src1.preg + d.src2.imm)) s := hexec
  rw [hm] at hrun
  exact .of_write hrun (fun _ _ => avoids_update) rfl

theorem exec_atomic (h : d.id = .atomic) : exec P d = rtlAmoSlowPath P d := by
  unfold exec
  rw [h]

theorem mmuMode_atomic (h : d.id = .atomic) : d.mmuMode = .dynamic := by
  unfold Decode.mmuMode
  rw [h]

theorem rtlLms_bind (l : Loc) (m : MmuMode) (k : Word → Exec α) :
    (rtlLms P d l 0 len m >>= k) s = (vaddrRead P d.pc (s.readLoc l) len m >>= fun v =>
      assert (HostLength len) .hostLength >>= fun _ =>
        k ((v.setWidth (8 * len)).signExtend 64)) s := by
  have hzero : s.readLoc l + 0 = s.readLoc l := BitVec.add_zero _
  unfold rtlLms
  simp only [bind_assoc, pure_bind]
  rw [bind_ok (readReg_run l s), hzero]

theorem rtlSm_bind (v : Word) (l : Loc) (m : MmuMode) (k : Unit → Exec α) :
    (rtlSm P d v l 0 len m >>= k) s = (vaddrWrite P d.pc (s.readLoc l) len v m >>= fun _ =>
      recordMemEvent P false (s.readLoc l) >>= k) s := by
  have hzero : s.readLoc l + 0 = s.readLoc l := BitVec.add_zero _
  unfold rtlSm
  simp only [bind_assoc]
  rw [bind_ok (readReg_run l s), hzero]

theorem begins_lr (h : d.IsLr) (hamo : s.amo = false) :
    Begins P d s ⟨s.readLoc d.src1.preg, d.amoWidth, .load⟩ s.amo := by
  have hexec := congrFun (exec_lr (P := P) h) s
  have hdyn := mmuMode_atomic h.id
  unfold lrStep at hexec
  rw [get_bind, bind_ok (assert_pos _ hamo _ s), rtlLms_bind, ← hdyn] at hexec
  exact .of_read hexec (fun hm => absurd hdyn hm) (.inl ⟨rfl, rfl⟩)

theorem begins_amo (h : d.id = .atomic) (hlr : d.funct5 ≠ 0b00010) (hsc : d.funct5 ≠ 0b00011) :
    Begins P d s ⟨s.readLoc d.src1.preg, d.amoWidth, .amo⟩ true := by
  have hexec : exec P d s = amoStep P d d.funct5 d.amoWidth s := by
    rw [exec_atomic h]
    exact (congrFun (if_neg hlr) s).trans (congrFun (if_neg hsc) s)
  have hset : setAmo true s = .ok () { s with amo := true } := rfl
  have hdyn := mmuMode_atomic h
  unfold amoStep at hexec
  rw [bind_ok hset, rtlLms_bind, ← hdyn] at hexec
  exact .of_read hexec (fun hm => absurd hdyn hm) (.inr ⟨rfl, rfl⟩)

theorem begins_sc (h : d.IsSc) (hs : s.scSuccess d = true) :
    Begins P d s ⟨s.readLoc d.src1.preg, d.amoWidth, .store⟩ (P.storeCommit || s.amo) := by
  have hexec := congrFun (exec_sc (P := P) h) s
  have hdyn := mmuMode_atomic h.id
  have hs' : ({ s with amo := P.storeCommit || s.amo } : Machine).scSuccess d = true := hs
  unfold scStep at hexec
  rw [bind_ok (setScAmo_run P s), get_bind, if_pos hs'] at hexec
  unfold scStore at hexec
  simp only [bind_assoc] at hexec
  rw [bind_ok (readReg_run d.src2.preg _), rtlSm_bind, ← hdyn] at hexec
  exact .of_write hexec (fun hm => absurd hdyn hm) rfl

theorem exec_scFails (h : d.ScFails s) :
    ∃ k : MmuMode → Exec Unit, exec P d s =
      (isaMmuCheck P (s.readLoc d.src1.preg) d.amoWidth .write >>= k)
        { s with amo := P.storeCommit || s.amo } := by
  have hexec := congrFun (exec_sc (P := P) h.1) s
  have hs' : ¬ ({ s with amo := P.storeCommit || s.amo } : Machine).scSuccess d = true := by
    have hf : ({ s with amo := P.storeCommit || s.amo } : Machine).scSuccess d = false := h.2
    rw [hf]
    exact Bool.false_ne_true
  unfold scStep at hexec
  rw [bind_ok (setScAmo_run P s), get_bind, if_neg hs'] at hexec
  unfold scFailCheck at hexec
  simp only [bind_assoc] at hexec
  rw [bind_ok (readReg_run d.src1.preg _)] at hexec
  exact ⟨_, hexec⟩

end First

section Trapped

variable {b : Bool}

/-- `a.kind.alignFault` is what the check raises unless a plain load finds the flag `amo` set. -/
theorem alignFaultOf_first (hload : a.kind = .load → b = s.amo) (hamo : a.kind = .amo → b = true) :
    alignFaultOf { s with amo := b } a.kind.first = a.kind.alignFault ↔
      (a.kind = .load → s.amo = false) := by
  cases hk : a.kind with
  | load =>
    rw [hload hk]
    unfold alignFaultOf AccessKind.first AccessKind.alignFault
    cases s.amo <;> simp
  | store => simp [alignFaultOf, AccessKind.first, AccessKind.alignFault]
  | amo =>
    rw [hamo hk]
    simp [alignFaultOf, AccessKind.first, AccessKind.alignFault]

theorem AccessKind.first_data (k : AccessKind) : k.first = .read ∨ k.first = .write := by
  cases k with
  | load | amo => exact .inl rfl
  | store => exact .inr rfl

theorem AccessKind.alignFault_is (k : AccessKind) : isAlignFault k.alignFault := by
  cases k <;> decide

theorem pageFault_not_align (ht : type = .read ∨ type = .write) :
    ¬ isAlignFault (pageFault s type) := by
  obtain rfl | rfl := ht
  · unfold pageFault
    cases s.amo <;> decide
  · have hspf : ¬ isAlignFault .SPF := by decide
    exact hspf

theorem trapsMisaligned_of_raised
    (h : exec P d s = raised P { s with amo := b } a.kind.alignFault a.addr) :
    ∃ t, TrapsMisaligned P d s a t := by
  refine ⟨_, h, ?_, ⟨rfl, rfl⟩, rfl, rfl⟩
  rw [intrTvalReg_eq]
  exact if_pos rfl

theorem not_trapsMisaligned (h : exec P d s = .error e t)
    (he : ∀ f, e = .exception f → f.cause ≠ a.kind.alignFault) :
    ¬ ∃ t, TrapsMisaligned P d s a t := by
  rintro ⟨t', ht⟩
  obtain ⟨rfl, -⟩ := EStateM.Result.error.inj (h.symm.trans ht.raised)
  exact he _ rfl rfl

theorem not_trapsMisaligned_of_avoids (h : exec P d s = x t)
    (hx : (avoids isAlignFault).Within x) : ¬ ∃ t, TrapsMisaligned P d s a t := by
  rintro ⟨t', ht⟩
  exact hx.error (h.symm.trans ht.raised) _ rfl a.kind.alignFault_is

theorem trapsMisaligned_iff_of_raised (hload : a.kind = .load → b = s.amo)
    (hamo : a.kind = .amo → b = true)
    (h : exec P d s = raised P { s with amo := b } (alignFaultOf { s with amo := b } a.kind.first)
      a.addr) :
    (∃ t, TrapsMisaligned P d s a t) ↔ (a.kind = .load → s.amo = false) := by
  have hiff := alignFaultOf_first (a := a) hload hamo
  constructor
  · intro ht hk
    by_contra hne
    have hother : alignFaultOf { s with amo := b } a.kind.first ≠ a.kind.alignFault :=
      fun heq => hne (hiff.mp heq hk)
    refine not_trapsMisaligned h (fun f hf => ?_) ht
    cases hf
    exact hother
  · intro hk
    rw [hiff.mpr hk] at h
    exact trapsMisaligned_of_raised h

theorem bind_raised {x : Exec α} (h : x s = raised P t ex va) (k : α → Exec β) :
    (x >>= k) s = raised P t ex va := bind_error h

theorem Begins.trapped_iff (h : Begins P d s a b) (hsc : ¬ d.ScFails s)
    (htorn : P.acSoft = true ∧ a.addr &&& (BitVec.ofNat 64 a.len - 1) ≠ 0) :
    (∃ t, TrapsMisaligned P d s a t) ↔ Caught P d s a := by
  obtain ⟨α, direct, mapped, k, hexec, hquiet⟩ := h.run
  have ht := a.kind.first_data
  by_cases hshare : P.share = true
  · have hraised := hexec.trans (bind_raised (route_torn_share hshare ht htorn d.mmuMode) k)
    rw [trapsMisaligned_iff_of_raised h.load h.amo hraised]
    exact ⟨fun hamo => ⟨hamo, .inl ⟨hshare, hsc⟩⟩, Caught.amo⟩
  have hfalse : P.share = false := Bool.eq_false_of_not_eq_true hshare
  by_cases hm : d.mmuMode = .dynamic
  · rw [hm] at hexec
    obtain ⟨hopen, hbad, hgood⟩ := route_torn_dynamic (P := P) (s := { s with amo := b }) hfalse ht
      htorn d.pc direct mapped
    by_cases hg : Granted P s d a
    · have hc : Checked P { s with amo := b } d.pc a.addr a.len a.kind.first :=
        ⟨fun hmis => hshare hmis.1, hg⟩
      by_cases hn : NonCanonical s a.addr
      · have hraised := hexec.trans (bind_raised (hbad hc hn) k)
        refine iff_of_false (not_trapsMisaligned hraised fun f hf => ?_) fun hcaught => ?_
        · cases hf
          exact fun heq => pageFault_not_align ht (heq ▸ a.kind.alignFault_is)
        · obtain ⟨hs, -⟩ | ⟨-, -, hcan⟩ := hcaught.path
          · exact hshare hs
          · exact hcan hn
      · have hraised := hexec.trans (bind_raised (hgood hc hn) k)
        rw [trapsMisaligned_iff_of_raised h.load h.amo hraised]
        exact ⟨fun hamo => ⟨hamo, .inr ⟨hm, .inr hg, hn⟩⟩, Caught.amo⟩
    · have hc : ¬ Checked P { s with amo := b } d.pc a.addr a.len a.kind.first :=
        fun hc => hg hc.granted
      obtain ⟨e, t, hrun, he⟩ := hopen hc
      refine iff_of_false (not_trapsMisaligned (hexec.trans (bind_error hrun)) fun f hf => ?_)
        fun hcaught => ?_
      · exact fun heq => he f hf (heq ▸ a.kind.alignFault_is)
      · obtain ⟨hs, -⟩ | ⟨-, hgr, -⟩ := hcaught.path
        · exact hshare hs
        · exact hgr.elim hsc hg
  · obtain ⟨hdirect, hmapped, hk⟩ := hquiet hm
    have hav : (avoids isAlignFault).Within
        (route P d.pc a.addr a.len a.kind.first direct mapped d.mmuMode >>= k) :=
      .bind (route_avoids hfalse hm hdirect hmapped) hk
    refine iff_of_false (not_trapsMisaligned_of_avoids hexec hav) fun hcaught => ?_
    obtain ⟨hs, -⟩ | ⟨hdyn, -⟩ := hcaught.path
    · exact hshare hs
    · exact hm hdyn

/-- A failing store-conditional tests the upper bits of its address, then its alignment. -/
theorem scFails_trapped_iff (h : d.ScFails s)
    (ha : a = ⟨s.readLoc d.src1.preg, d.amoWidth, .store⟩)
    (htorn : P.acSoft = true ∧ a.addr &&& (BitVec.ofNat 64 a.len - 1) ≠ 0) :
    (∃ t, TrapsMisaligned P d s a t) ↔ Caught P d s a := by
  obtain ⟨k, hexec⟩ := exec_scFails (P := P) h
  have hstore : a.kind = .store := by rw [ha]
  have hnload : a.kind = .load → s.amo = false := fun hl => nomatch hl.symm.trans hstore
  have hcheck : exec P d s = (isaMmuCheck P a.addr a.len .write >>= k)
      { s with amo := P.storeCommit || s.amo } := by
    rw [ha]
    exact hexec
  by_cases hn : NonCanonical s a.addr
  · have hraised := hcheck.trans (bind_error (isaMmuCheck_nonCanonical (.inr rfl) hn))
    refine iff_of_false (not_trapsMisaligned hraised fun f hf => ?_) fun hcaught => ?_
    · cases hf
      rw [hstore]
      exact fun heq => nomatch heq
    · obtain ⟨-, hok⟩ | ⟨-, -, hcan⟩ := hcaught.path
      · exact hok h
      · exact hcan hn
  · have hmode : isaMmuCheck P a.addr a.len .write { s with amo := P.storeCommit || s.amo } =
        raised P { s with amo := P.storeCommit || s.amo } (alignFaultOf _ .write) a.addr :=
      isaMmuCheck_torn (.inr rfl) htorn hn
    have hraised := hcheck.trans (bind_raised hmode k)
    refine iff_of_true (trapsMisaligned_of_raised (b := P.storeCommit || s.amo) ?_)
      ⟨hnload, .inr ⟨mmuMode_atomic h.1.id, .inl h, hn⟩⟩
    rw [hraised, hstore]
    congr 1
    exact if_pos (.inr rfl)

/-- `lr` with the flag `amo` set stops the emulator. -/
theorem lr_not_trapped (h : d.IsLr) (hamo : s.amo = true) :
    ¬ ∃ t, TrapsMisaligned P d s a t := by
  have hexec := congrFun (exec_lr (P := P) h) s
  unfold lrStep at hexec
  have hne : ¬ s.amo = false := by
    rw [hamo]
    exact fun heq => Bool.false_ne_true heq.symm
  rw [get_bind, bind_error (assert_neg _ hne _ s)] at hexec
  exact not_trapsMisaligned hexec fun f hf => nomatch hf

/-- A misaligned memory instruction raises its alignment fault, with nothing else done, exactly
when its executor and the build take it to a check before anything else stops it. -/
theorem misaligned_trapped_iff (hac : P.acSoft = true) (ha : d.memAccess s = some a)
    (hlen : HostLength a.len) (hmis : ¬ a.len ∣ a.addr.toNat) :
    (∃ t, TrapsMisaligned P d s a t) ↔ Caught P d s a := by
  have htorn : P.acSoft = true ∧ a.addr &&& (BitVec.ofNat 64 a.len - 1) ≠ 0 :=
    ⟨hac, fun h => hmis ((low_bits_iff hlen a.addr).mp h)⟩
  unfold Decode.memAccess at ha
  cases hid : d.id <;> rw [hid] at ha <;> dsimp only at ha
  case load signed len m =>
    cases ha
    exact (begins_load hid).trapped_iff (fun h => nomatch hid.symm.trans h.1.id) htorn
  case store len m =>
    cases ha
    exact (begins_store hid).trapped_iff (fun h => nomatch hid.symm.trans h.1.id) htorn
  case fload w m =>
    cases ha
    exact (begins_fload hid).trapped_iff (fun h => nomatch hid.symm.trans h.1.id) htorn
  case fstore w m =>
    cases ha
    exact (begins_fstore hid).trapped_iff (fun h => nomatch hid.symm.trans h.1.id) htorn
  case atomic =>
    by_cases hlr : d.instr.extractLsb' 27 5 = 0b00010
    · rw [if_pos hlr] at ha
      cases ha
      have hsc : ¬ d.ScFails s := fun h => by
        have hop : d.instr.extractLsb' 27 5 = 0b00011 := h.1.op
        rw [hlr] at hop
        cases hop
      cases hamo : s.amo with
      | false => exact (begins_lr ⟨hid, hlr⟩ hamo).trapped_iff hsc htorn
      | true =>
        refine iff_of_false (lr_not_trapped ⟨hid, hlr⟩ hamo) fun h => ?_
        exact Bool.false_ne_true ((h.amo rfl).symm.trans hamo)
    · rw [if_neg hlr] at ha
      by_cases hop : d.instr.extractLsb' 27 5 = 0b00011
      · rw [if_pos hop] at ha
        cases ha
        have hsc : d.IsSc := ⟨hid, hop⟩
        cases hs : s.scSuccess d with
        | false => exact scFails_trapped_iff ⟨hsc, hs⟩ rfl htorn
        | true =>
          exact (begins_sc hsc hs).trapped_iff
            (fun h => Bool.false_ne_true (h.2.symm.trans hs)) htorn
      · rw [if_neg hop] at ha
        cases ha
        exact (begins_amo hid hlr hop).trapped_iff (fun h => hop h.1.op) htorn
  all_goals cases ha

/-- The stand-alone build with software alignment checks. -/
def acSoftPlatform : Platform := Platform.bare { Config.standalone with acSoft := true }

/-- `x1` holds an odd address. -/
def tornX1 : Machine :=
  { Machine.reset acSoftPlatform fun _ => 0 with gpr := fun r => if r = 1 then 0x80000001 else 0 }

/-- The load is decoded for `MMU_DIRECT` and completes. -/
theorem misaligned_ld_completes :
    getDataMmuState tornX1 = .direct ∧
      { loadX1 with id := .load true 8 .direct }.memAccess tornX1 = some ⟨0x80000001, 8, .load⟩ ∧
      ¬ 8 ∣ (0x80000001 : Word).toNat ∧
      ∃ t, exec acSoftPlatform { loadX1 with id := .load true 8 .direct } tornX1 = .ok () t :=
  ⟨rfl, rfl, by decide, _, rfl⟩

/-- With `MMU_DYNAMIC` the same load traps. -/
theorem misaligned_trapped_iff_ld :
    ∃ t, TrapsMisaligned acSoftPlatform { loadX1 with id := .load true 8 .dynamic } tornX1
      ⟨0x80000001, 8, .load⟩ t := by
  refine (misaligned_trapped_iff rfl rfl (by decide) (by decide)).mpr ⟨fun _ => rfl, .inr ?_⟩
  refine ⟨rfl, .inr fun _ hu => ?_, ?_⟩
  · cases hu
  · rintro ⟨⟨hm, -⟩, -⟩
    exact absurd hm (by decide)

end Trapped

end Nemu
