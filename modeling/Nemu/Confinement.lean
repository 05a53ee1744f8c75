import Nemu.Sandbox
import Nemu.WalkContract

namespace Nemu

open Effect

set_option autoImplicit true

/-- The scalar memory instructions, by the DASICS checks that they make. -/
inductive AccessKind where
  | load | store | amo
  deriving DecidableEq

def AccessKind.first : AccessKind → MemType
  | load => .read
  | store => .write
  | amo => .read

def AccessKind.checks : AccessKind → List MemType
  | load => [.read]
  | store => [.write]
  | amo => [.read, .write]

structure Access where
  addr : Word
  len : Nat
  kind : AccessKind
  deriving DecidableEq

/-- The access that an instruction makes. A store-conditional that fails makes none. -/
def Decode.access (d : Decode) (s : Machine) : Option Access :=
  match d.id with
  | .load _ len _ => some ⟨s.readLoc d.src1.preg + d.src2.imm, len, .load⟩
  | .store len _ => some ⟨s.readLoc d.src1.preg + d.src2.imm, len, .store⟩
  | .fload w _ => some ⟨s.readLoc d.src1.preg + d.src2.imm, fpLen w, .load⟩
  | .fstore w _ => some ⟨s.readLoc d.src1.preg + d.src2.imm, fpLen w, .store⟩
  | .atomic =>
    if d.instr.extractLsb' 27 5 = 0b00010 then some ⟨s.readLoc d.src1.preg, d.amoWidth, .load⟩
    else if d.instr.extractLsb' 27 5 = 0b00011 then
      if s.scSuccess d then some ⟨s.readLoc d.src1.preg, d.amoWidth, .store⟩ else none
    else some ⟨s.readLoc d.src1.preg, d.amoWidth, .amo⟩
  | _ => none

namespace Machine

/-- The check of accesses of this type is closed for the mode. -/
def closes (s : Machine) (type : MemType) : Bool :=
  if type = .write then s.mcfgCloseStore else s.mcfgCloseLoad

/-- Some bound pair holds the address and has V and R, or V and W for a write. -/
def Grants (s : Machine) (type : MemType) (a : Word) : Prop :=
  ∃ i : Fin 16, (s.csr .dlcfg0).getLsbD (4 * i.val + 3) = true ∧
    (s.csr .dlcfg0).getLsbD (4 * i.val + if type = .write then 0 else 1) = true ∧
    dasicsLibboundLow s i ≤ a ∧ a < dasicsLibboundHigh s i

/-- Byte `i` is the first one of an access that no bound pair grants. -/
structure Denies (s : Machine) (type : MemType) (addr : Word) (len i : Nat) : Prop where
  opened : s.closes type = false
  lt : i < len
  missing : ¬ s.Grants type (addr + BitVec.ofNat 64 i)
  least : ∀ j < i, s.Grants type (addr + BitVec.ofNat 64 j)

end Machine

def denialReason (type : MemType) : FaultReason := if type = .write then .DFR_SF else .DFR_LF

/-- The exception of a failed check of a load or a store. -/
structure Denial (P : Platform) (s : Machine) (type : MemType) (va : Word) (e : Stop)
    (t : Machine) : Prop where
  raised : e = .exception ⟨dasicsEx s.mode, some va, .plain⟩
  dfreason : t.csr .dfreason = (denialReason type).code
  tval : t.csr (intrTvalReg P s (dasicsEx s.mode)) = va

structure SameRegisters (s t : Machine) : Prop where
  gpr : t.gpr = s.gpr
  fpr : t.fpr = s.fpr

/-- The reference checks the alignment of an access before its bounds. -/
def Misaligned (P : Platform) (va : Word) (len : Nat) : Prop :=
  P.share = true ∧ P.acSoft = true ∧ va &&& (BitVec.ofNat 64 len - 1) ≠ 0

instance (P : Platform) (va : Word) (len : Nat) : Decidable (Misaligned P va len) :=
  inferInstanceAs (Decidable (_ ∧ _))

variable {P : Platform} {s t u : Machine} {d : Decode} {type : MemType} {len i : Nat}

theorem Machine.Grants.congr (h : t.sandbox = s.sandbox) (hg : Machine.Grants s type a) :
    t.Grants type a := by
  obtain ⟨i, h1, h2, h3, h4⟩ := hg
  unfold Machine.Grants dasicsLibboundLow dasicsLibboundHigh at *
  refine ⟨i, ?_, ?_, ?_, ?_⟩
  · rw [sandbox_csr h rfl]
    exact h1
  · rw [sandbox_csr h rfl]
    exact h2
  · rw [sandbox_csr h rfl]
    exact h3
  · rw [sandbox_csr h rfl]
    exact h4

theorem closes_congr (hm : t.mode = s.mode) (h : t.sandbox = s.sandbox) :
    t.closes type = s.closes type := by
  unfold Machine.closes Machine.mcfgCloseStore Machine.mcfgCloseLoad
  rw [hm, sandbox_csr h rfl]

theorem Machine.Denies.congr (hm : t.mode = s.mode) (h : t.sandbox = s.sandbox)
    (hd : Machine.Denies s type addr len i) : t.Denies type addr len i where
  opened := (closes_congr hm h).trans hd.opened
  lt := hd.lt
  missing hg := hd.missing (hg.congr h.symm)
  least j hj := (hd.least j hj).congr h

section Check

def libcfg (type : MemType) : Word := libcfgV ||| if type = .write then libcfgW else libcfgR

theorem libcfg_bit (type : MemType) (k : Nat) :
    (libcfg type).getLsbD k = true ↔ k = 3 ∨ k = if type = .write then 0 else 1 := by
  by_cases hk : k < 64
  · revert k
    cases type <;> decide
  · have hb : (libcfg type).getLsbD k = false := BitVec.getLsbD_of_ge _ _ (by omega)
    rw [hb]
    apply iff_of_false (by decide)
    split <;> omega

theorem libcfg_test (s : Machine) (type : MemType) (j : Fin 16) :
    (dasicsLibcfgFromIndex s j &&& libcfg type) ^^^ libcfg type = 0 ↔
      (s.csr .dlcfg0).getLsbD (4 * j.val + 3) = true ∧
        (s.csr .dlcfg0).getLsbD (4 * j.val + if type = .write then 0 else 1) = true := by
  have hfield : ∀ k < 4, (dasicsLibcfgFromIndex s j).getLsbD k =
      (s.csr .dlcfg0).getLsbD (4 * j.val + k) := by
    intro k hk
    have h15 : (15#64).getLsbD k = true := by
      revert k
      decide
    simp [dasicsLibcfgFromIndex, BitVec.getLsbD_and, BitVec.getLsbD_ushiftRight, h15]
  have hlt : (if type = .write then 0 else 1) < 4 := by split <;> omega
  rw [BitField.and_xor_eq_zero_iff]
  constructor
  · intro h
    have h3 := h 3 ((libcfg_bit type 3).mpr (.inl rfl))
    have hr := h _ ((libcfg_bit type _).mpr (.inr rfl))
    rw [hfield _ (by omega)] at h3
    rw [hfield _ hlt] at hr
    exact ⟨h3, hr⟩
  · rintro ⟨h3, hr⟩ k hk
    obtain rfl | rfl := (libcfg_bit type k).mp hk
    · rw [hfield _ (by omega), h3]
    · rw [hfield _ hlt, hr]

theorem dasicsMatchDlib_iff (s : Machine) (type : MemType) (a : Word) :
    dasicsMatchDlib s a (libcfg type) = true ↔ s.Grants type a := by
  simp only [dasicsMatchDlib, List.any_eq_true, List.mem_finRange, true_and, Bool.and_eq_true,
    decide_eq_true_eq, libcfg_test, Machine.Grants, and_assoc]

theorem dasicsLdstHelper_eq (hu : dasicsInTrustedZone s pc = false)
    (ht : type = .read ∨ type = .write) :
    dasicsLdstHelper P pc va len type s =
      dasicsCheckBytes P (s.closes type) (libcfg type) (denialReason type) va len s := by
  unfold dasicsLdstHelper
  rw [bind_ok (rfl : (get : Exec Machine) s = .ok s s), hu]
  obtain rfl | rfl := ht <;> rfl

def Machine.denied (s : Machine) (P : Platform) (type : MemType) (va : Word) : Machine :=
  (s.setCsr .dfreason (denialReason type).code).setCsr
    (trapLevel P s (dasicsEx s.mode).code).tval va

theorem dasicsLdstHelper_denied (hu : dasicsInTrustedZone s pc = false)
    (ht : type = .read ∨ type = .write) (h : s.Denies type va len i) :
    dasicsLdstHelper P pc va len type s =
      .error (.exception ⟨dasicsEx s.mode, some (va + BitVec.ofNat 64 i), .plain⟩)
        (s.denied P type (va + BitVec.ofNat 64 i)) := by
  have hfind : (List.range len).find? (fun j => !s.closes type &&
      !dasicsMatchDlib s (va + BitVec.ofNat 64 j) (libcfg type)) = some i := by
    have hm := mt (dasicsMatchDlib_iff s type _).mp h.missing
    rw [List.find?_range_eq_some]
    refine ⟨by simpa [h.opened] using hm, List.mem_range.mpr h.lt, fun j hj => ?_⟩
    simp [(dasicsMatchDlib_iff s type _).mpr (h.least j hj)]
  rw [dasicsLdstHelper_eq hu ht]
  unfold dasicsCheckBytes
  rw [bind_ok (rfl : (get : Exec Machine) s = .ok s s), hfind]
  exact faultAt_run P _ _ _

theorem dasicsLdstHelper_ok (hu : dasicsInTrustedZone s pc = false)
    (ht : type = .read ∨ type = .write) (h : dasicsLdstHelper P pc va len type s = .ok () t) :
    t = s ∧ (s.closes type = false → ∀ j < len, s.Grants type (va + BitVec.ofNat 64 j)) := by
  rw [dasicsLdstHelper_eq hu ht] at h
  unfold dasicsCheckBytes at h
  rw [bind_ok (rfl : (get : Exec Machine) s = .ok s s)] at h
  cases hnone : (List.range len).find? (fun j => !s.closes type &&
      !dasicsMatchDlib s (va + BitVec.ofNat 64 j) (libcfg type)) with
  | some j =>
    rw [hnone] at h
    exact absurd h faultAt_not_ok
  | none =>
    rw [hnone] at h
    cases h
    refine ⟨rfl, fun hopen j hj => ?_⟩
    rw [List.find?_range_eq_none] at hnone
    have h1 := hnone j hj
    rw [← dasicsMatchDlib_iff]
    simpa [hopen] using h1

theorem vaddrCheck_eq (hP : P.dasics = true) (ht : type = .read ∨ type = .write) :
    vaddrCheck P (some pc) va len type s =
      if Misaligned P va len then
        (faultAt P (if s.amo ∨ type = .write then .SAM else .LAM) va : Exec Unit) s
      else dasicsLdstHelper P pc va len type s := by
  have hne : type ≠ .ifetch := by
    obtain rfl | rfl := ht <;> decide
  unfold vaddrCheck
  simp only [hP, ↓reduceIte]
  by_cases hs : P.share = true
  · rw [if_pos (show P.share = true ∧ type ≠ .ifetch from ⟨hs, hne⟩)]
    by_cases hm : P.acSoft = true ∧ va &&& (BitVec.ofNat 64 len - 1) ≠ 0
    · have hrun : isaMisalignDataAddrCheck P va len type s =
          (faultAt P (if s.amo ∨ type = .write then .SAM else .LAM) va : Exec Unit) s := by
        unfold isaMisalignDataAddrCheck
        rw [bind_ok (rfl : (get : Exec Machine) s = .ok s s), if_pos hm]
      rw [if_pos (show Misaligned P va len from ⟨hs, hm⟩)]
      rw [faultAt_run] at hrun ⊢
      exact bind_error hrun
    · have hrun : isaMisalignDataAddrCheck P va len type s = .ok () s := by
        unfold isaMisalignDataAddrCheck
        rw [bind_ok (rfl : (get : Exec Machine) s = .ok s s), if_neg hm]
        rfl
      rw [if_neg (show ¬ Misaligned P va len from fun h => hm h.2)]
      exact bind_ok hrun
  · rw [if_neg (show ¬ (P.share = true ∧ type ≠ .ifetch) from fun h => hs h.1),
      if_neg (show ¬ Misaligned P va len from fun h => hs h.1)]

/-- An access that is not granted is refused before it does anything. -/
theorem vaddrCheck_denied (hP : P.dasics = true) (hu : dasicsInTrustedZone s pc = false)
    (ht : type = .read ∨ type = .write) (h : s.Denies type va len i) :
    ∃ e t, vaddrCheck P (some pc) va len type s = .error e t ∧ SameRegisters s t ∧
      t.pmem = s.pmem ∧
      (¬ Misaligned P va len → Denial P s type (va + BitVec.ofNat 64 i) e t) := by
  rw [vaddrCheck_eq hP ht]
  by_cases hm : Misaligned P va len
  · rw [if_pos hm, faultAt_run]
    exact ⟨_, _, rfl, ⟨rfl, rfl⟩, rfl, fun hn => absurd hm hn⟩
  · rw [if_neg hm, dasicsLdstHelper_denied hu ht h]
    refine ⟨_, _, rfl, ⟨rfl, rfl⟩, rfl, fun _ => ⟨rfl, ?_, ?_⟩⟩
    · unfold Machine.denied
      rw [Machine.setCsr_csr_ne, Machine.setCsr_csr_self]
      cases trapLevel P s (dasicsEx s.mode).code <;> decide
    · rw [intrTvalReg_eq]
      exact Machine.setCsr_csr_self _ _ _

theorem vaddrCheck_granted (hP : P.dasics = true) (hu : dasicsInTrustedZone s pc = false)
    (ht : type = .read ∨ type = .write) (h : vaddrCheck P (some pc) va len type s = .ok () t) :
    t = s ∧ ¬ Misaligned P va len ∧
      (s.closes type = false → ∀ j < len, s.Grants type (va + BitVec.ofNat 64 j)) := by
  rw [vaddrCheck_eq hP ht] at h
  split at h
  · exact absurd h faultAt_not_ok
  · next hm =>
    obtain ⟨rfl, hg⟩ := dasicsLdstHelper_ok hu ht h
    exact ⟨rfl, hm, hg⟩

end Check

section Executors

variable {e : Stop} {m : MmuMode}

theorem readReg_run (l : Loc) (s : Machine) : readReg l s = .ok (s.readLoc l) s := rfl

theorem rtlLm_refused
    (h : vaddrCheck P (some d.pc) (s.readLoc addr + offset) len .read s = .error e t) :
    rtlLm P d dest addr offset len m s = .error e t :=
  (bind_ok (readReg_run addr s)).trans (bind_error (bind_error h))

theorem rtlLms_refused
    (h : vaddrCheck P (some d.pc) (s.readLoc addr + offset) len .read s = .error e t) :
    rtlLms P d addr offset len m s = .error e t :=
  (bind_ok (readReg_run addr s)).trans (bind_error (bind_error h))

theorem rtlSm_refused
    (h : vaddrCheck P (some d.pc) (s.readLoc addr + offset) len .write s = .error e t) :
    rtlSm P d data addr offset len m s = .error e t :=
  (bind_ok (readReg_run addr s)).trans (bind_error (bind_error h))

theorem execFstore_refused
    (h : vaddrCheck P (some d.pc) (s.readLoc d.src1.preg + d.src2.imm) (fpLen w) .write s =
      .error e t) : execFstore P d w m s = .error e t :=
  (bind_ok (readReg_run d.dest.preg s)).trans (rtlSm_refused h)

theorem lrStep_refused (hamo : s.amo = false)
    (h : vaddrCheck P (some d.pc) (s.readLoc d.src1.preg + 0) len .read s = .error e t) :
    lrStep P d len s = .error e t := by
  have hassert : assert (s.amo = false) .amo s = .ok () s := by
    unfold assert
    rw [if_pos hamo]
    rfl
  exact (bind_ok hassert).trans (bind_error (rtlLms_refused h))

theorem scStep_refused (hsc : s.scSuccess d = true)
    (h : vaddrCheck P (some d.pc) (s.readLoc d.src1.preg + 0) len .write
      { s with amo := P.storeCommit || s.amo } = .error e t) :
    scStep P d len s = .error e t := by
  have hstore : scStore P d len { s with amo := P.storeCommit || s.amo } = .error e t :=
    (bind_ok (readReg_run _ _)).trans (bind_error (rtlSm_refused h))
  refine (bind_ok (setScAmo_run P s)).trans ?_
  refine (bind_ok (rfl : (get : Exec Machine) _ = .ok _ _)).trans ?_
  rw [if_pos (show Machine.scSuccess { s with amo := P.storeCommit || s.amo } d = true from hsc)]
  exact bind_error hstore

theorem amoStep_refused
    (h : vaddrCheck P (some d.pc) (s.readLoc d.src1.preg + 0) len .read { s with amo := true } =
      .error e t) : amoStep P d funct5 len s = .error e t :=
  (bind_ok (rfl : setAmo true s = .ok () { s with amo := true })).trans
    (bind_error (rtlLms_refused h))

def Decode.isLr (d : Decode) : Bool := d.id = .atomic && d.instr.extractLsb' 27 5 = 0b00010

theorem rtlAmoSlowPath_refused (hid : d.id = .atomic) (ha : d.access s = some a)
    (hlr : d.isLr = true → s.amo = false) :
    ∃ b, ∀ e t, vaddrCheck P (some d.pc) a.addr a.len a.kind.first { s with amo := b } =
      .error e t → rtlAmoSlowPath P d s = .error e t := by
  have h0 : s.readLoc d.src1.preg = s.readLoc d.src1.preg + 0 := (BitVec.add_zero _).symm
  unfold Decode.access at ha
  simp only [hid] at ha
  unfold rtlAmoSlowPath
  split at ha
  · next hf =>
    cases ha
    have hamo : s.amo = false := hlr (by simp [Decode.isLr, hid, hf])
    rw [if_pos hf]
    refine ⟨s.amo, fun e t h => lrStep_refused hamo ?_⟩
    rw [← h0]
    exact h
  · next hf =>
    rw [if_neg hf]
    split at ha
    · next hf' =>
      rw [if_pos hf']
      split at ha
      · next hsc =>
        cases ha
        refine ⟨P.storeCommit || s.amo, fun e t h => scStep_refused hsc ?_⟩
        rw [← h0]
        exact h
      · cases ha
    · next hf' =>
      cases ha
      rw [if_neg hf']
      refine ⟨true, fun e t h => amoStep_refused ?_⟩
      rw [← h0]
      exact h

theorem exec_refused (ha : d.access s = some a) (hlr : d.isLr = true → s.amo = false) :
    ∃ b, ∀ e t, vaddrCheck P (some d.pc) a.addr a.len a.kind.first { s with amo := b } =
      .error e t → exec P d s = .error e t := by
  obtain ⟨pc, snpc, instr, id, dest, src1, src2⟩ := d
  cases id with
  | load signed len m =>
    cases ha
    refine ⟨s.amo, fun e t h => ?_⟩
    cases signed with
    | true => exact bind_error (rtlLms_refused h)
    | false => exact rtlLm_refused h
  | store len m =>
    cases ha
    exact ⟨s.amo, fun e t h => (bind_ok (readReg_run dest.preg s)).trans (rtlSm_refused h)⟩
  | fload w m =>
    cases ha
    exact ⟨s.amo, fun e t h => bind_error (rtlLm_refused h)⟩
  | fstore w m =>
    cases ha
    exact ⟨s.amo, fun e t h => execFstore_refused h⟩
  | atomic => exact rtlAmoSlowPath_refused rfl ha hlr
  | _ => cases ha

theorem exec_lr_amo (hlr : d.isLr = true) (hamo : s.amo = true) :
    exec P d s = .error (.abort .amo) s := by
  simp only [Decode.isLr, Bool.and_eq_true, decide_eq_true_eq] at hlr
  have hassert : assert (s.amo = false) .amo s = .error (.abort .amo) s := by
    unfold assert
    rw [hamo, if_neg (by decide)]
    rfl
  unfold exec rtlAmoSlowPath
  rw [hlr.1, if_pos hlr.2]
  exact (bind_ok (rfl : (get : Exec Machine) s = .ok s s)).trans (bind_error hassert)

/-- The read of an AMO, once it has completed. -/
structure ReadDone (P : Platform) (va : Word) (len : Nat) (s u : Machine) : Prop where
  aligned : ¬ Misaligned P va len
  frame : u.eraseAccess = s.eraseAccess
  marked : Marked P va s u.pmem

theorem rtlLms_done (hP : P.dasics = true) (hu : dasicsInTrustedZone s d.pc = false)
    (h : rtlLms P d addr offset len m s = .ok x u) :
    ReadDone P (s.readLoc addr + offset) len s u := by
  obtain ⟨_, _, ha, h1⟩ := ok_of_bind h
  cases ha
  obtain ⟨v, w, hr, h2⟩ := ok_of_bind h1
  obtain ⟨_, _, hassert, h3⟩ := ok_of_bind h2
  obtain ⟨rfl, -⟩ := assert_ok hassert
  cases h3
  obtain ⟨_, _, hc, -⟩ := ok_of_bind hr
  exact ⟨(vaddrCheck_granted hP hu (.inl rfl) hc).2.1, (vaddrRead_access m).ok hr, vaddrRead_ok hr⟩

theorem amoStep_write_refused
    (hr : rtlLms P d d.src1.preg 0 len .dynamic { s with amo := true } = .ok x u)
    (hv : amoValue funct5 len x (u.readLoc d.src2.preg) = some w)
    (h : vaddrCheck P (some d.pc) (u.readLoc d.src1.preg + 0) len .write u = .error e t) :
    amoStep P d funct5 len s = .error e t := by
  refine (bind_ok (rfl : setAmo true s = .ok () { s with amo := true })).trans ?_
  refine (bind_ok hr).trans ?_
  refine (bind_ok (readReg_run _ _)).trans ?_
  rw [hv]
  exact bind_error (rtlSm_refused h)

end Executors

theorem AccessKind.first_type (k : AccessKind) : k.first = .read ∨ k.first = .write := by
  cases k
  · exact .inl rfl
  · exact .inr rfl
  · exact .inl rfl

/-- A denied access leaves registers and memory alone. The assertion of a load-reserved and the
alignment are tested before the bounds. -/
theorem exec_denied (hP : P.dasics = true) (hu : dasicsInTrustedZone s d.pc = false)
    (ha : d.access s = some a) (h : s.Denies a.kind.first a.addr a.len i) :
    ∃ e t, exec P d s = .error e t ∧ SameRegisters s t ∧ t.pmem = s.pmem ∧
      (¬ Misaligned P a.addr a.len → (d.isLr = true → s.amo = false) →
        Denial P s a.kind.first (a.addr + BitVec.ofNat 64 i) e t) := by
  by_cases hlr : d.isLr = true → s.amo = false
  · obtain ⟨b, hexec⟩ := exec_refused (P := P) ha hlr
    have hd : Machine.Denies { s with amo := b } a.kind.first a.addr a.len i :=
      Machine.Denies.congr (s := s) rfl rfl h
    have hz : dasicsInTrustedZone { s with amo := b } d.pc = false := hu
    obtain ⟨e, t, hc, hregs, hpmem, hdenial⟩ := vaddrCheck_denied hP hz a.kind.first_type hd
    refine ⟨e, t, hexec e t hc, ⟨hregs.gpr, hregs.fpr⟩, hpmem, fun hm _ => ?_⟩
    obtain ⟨h1, h2, h3⟩ := hdenial hm
    exact ⟨h1, h2, h3⟩
  · obtain ⟨hisLr, hamo⟩ := Classical.not_imp.mp hlr
    refine ⟨_, _, exec_lr_amo hisLr (by simpa using hamo), ⟨rfl, rfl⟩, rfl, ?_⟩
    exact fun _ h => absurd h hlr

theorem access_amo (ha : d.access s = some a) (hk : a.kind = .amo) :
    a.addr = s.readLoc d.src1.preg ∧ a.len = d.amoWidth ∧
      exec P d = amoStep P d (d.instr.extractLsb' 27 5) d.amoWidth := by
  obtain ⟨pc, snpc, instr, id, dest, src1, src2⟩ := d
  cases id with
  | atomic =>
    unfold exec rtlAmoSlowPath
    unfold Decode.access at ha
    dsimp only at ha ⊢
    split at ha
    · cases ha
      cases hk
    · next hf =>
      rw [if_neg hf]
      split at ha
      · split at ha
        · cases ha
          cases hk
        · cases ha
      · next hf' =>
        rw [if_neg hf']
        cases ha
        exact ⟨rfl, rfl, rfl⟩
  | load | store | fload | fstore =>
    cases ha
    cases hk
  | _ => cases ha

def Machine.reading (s : Machine) : Machine := { s with amo := true }

theorem ReadDone.registers (h : ReadDone P va len s u) : SameRegisters s u :=
  ⟨(congrArg Machine.gpr h.frame :), (congrArg Machine.fpr h.frame :)⟩

theorem ReadDone.readLoc_eq (h : ReadDone P va len s u) (l : Loc) :
    u.readLoc l = s.readLoc l := by
  have hz : u.zeroNull = s.zeroNull := (congrArg Machine.zeroNull h.frame :)
  cases l with
  | gpr r => exact congrFun h.registers.gpr r
  | fpr r => exact congrFun h.registers.fpr r
  | zeroNull => exact hz

theorem ReadDone.intrTvalReg_eq (h : ReadDone P va len s u) (ex : Exc) :
    intrTvalReg P u ex = intrTvalReg P s ex :=
  (congrArg (fun v => intrTvalReg P v ex) h.frame :)

theorem amoRead_done (hP : P.dasics = true) (hu : dasicsInTrustedZone s d.pc = false)
    (hr : rtlLms P d d.src1.preg 0 len .dynamic s.reading = .ok x u) :
    ReadDone P (s.readLoc d.src1.preg) len s.reading u := by
  have h1 := rtlLms_done hP (s := s.reading) hu hr
  have h0 : s.reading.readLoc d.src1.preg + 0 = s.readLoc d.src1.preg := BitVec.add_zero _
  rwa [h0] at h1

theorem ReadDone.mode_eq (h : ReadDone P va len s.reading u) : u.mode = s.mode :=
  (congrArg Machine.mode h.frame :)

theorem ReadDone.sandbox_eq (h : ReadDone P va len s.reading u) : u.sandbox = s.sandbox :=
  (sandbox_of_eraseAccess h.frame :)

theorem ReadDone.untrusted (h : ReadDone P va len s.reading u)
    (hu : dasicsInTrustedZone s pc = false) : dasicsInTrustedZone u pc = false :=
  (trusted_congr h.mode_eq h.sandbox_eq _).trans hu

theorem ReadDone.addr_eq (h : ReadDone P va len s.reading u) (l : Loc) :
    u.readLoc l + 0 = s.readLoc l := by
  rw [h.readLoc_eq]
  exact BitVec.add_zero _

/-- An AMO that may read but not write is refused after its read. -/
theorem amoStep_denied (hP : P.dasics = true) (hu : dasicsInTrustedZone s d.pc = false)
    (hr : rtlLms P d d.src1.preg 0 len .dynamic s.reading = .ok x u)
    (hv : amoValue funct5 len x (s.readLoc d.src2.preg) = some w)
    (h : s.Denies .write (s.readLoc d.src1.preg) len i) :
    ∃ e t, amoStep P d funct5 len s = .error e t ∧ SameRegisters s t ∧
      Marked P (s.readLoc d.src1.preg) s.reading t.pmem ∧
      Denial P s .write (s.readLoc d.src1.preg + BitVec.ofNat 64 i) e t := by
  have hdone := amoRead_done hP hu hr
  obtain ⟨e, t, hc, hregs, hpmem, hdenial⟩ :=
    vaddrCheck_denied hP (hdone.untrusted hu) (.inr rfl) (h.congr hdone.mode_eq hdone.sandbox_eq)
  rw [← hdone.addr_eq] at hc
  have hvalue : amoValue funct5 len x (u.readLoc d.src2.preg) = some w := by
    rw [hdone.readLoc_eq]
    exact hv
  refine ⟨e, t, amoStep_write_refused hr hvalue hc, ?_, ?_, ?_⟩
  · exact ⟨hregs.gpr.trans hdone.registers.gpr, hregs.fpr.trans hdone.registers.fpr⟩
  · rw [hpmem]
    exact hdone.marked
  · obtain ⟨h1, h2, h3⟩ := hdenial hdone.aligned
    rw [hdone.mode_eq] at h1 h3
    rw [hdone.intrTvalReg_eq] at h3
    exact ⟨h1, h2, h3⟩

theorem amoStep_granted (hP : P.dasics = true) (hu : dasicsInTrustedZone s d.pc = false)
    (h : amoStep P d funct5 len s = .ok () t) (hopen : s.closes .write = false) (hi : i < len) :
    s.Grants .write (s.readLoc d.src1.preg + BitVec.ofNat 64 i) := by
  obtain ⟨_, _, hset, h1⟩ := ok_of_bind h
  cases hset
  obtain ⟨x, u, hr, h2⟩ := ok_of_bind h1
  have hdone := amoRead_done hP hu hr
  obtain ⟨y, _, hy, h3⟩ := ok_of_bind h2
  cases hy
  cases hv : amoValue funct5 len x (u.readLoc d.src2.preg) with
  | none =>
    rw [hv] at h3
    cases h3
  | some w =>
    rw [hv] at h3
    obtain ⟨_, _, hsm, -⟩ := ok_of_bind h3
    obtain ⟨_, _, haddr, h4⟩ := ok_of_bind hsm
    cases haddr
    obtain ⟨_, _, hw, -⟩ := ok_of_bind h4
    obtain ⟨_, _, hc, -⟩ := ok_of_bind hw
    rw [hdone.addr_eq] at hc
    have hg := (vaddrCheck_granted hP (hdone.untrusted hu) (.inr rfl) hc).2.2
    have hopen' := (closes_congr hdone.mode_eq hdone.sandbox_eq).trans hopen
    exact (hg hopen' i hi).congr hdone.sandbox_eq.symm

/-- The confinement of one memory instruction. -/
structure Confined (P : Platform) (d : Decode) (s : Machine) (a : Access) : Prop where
  granted : ∀ d' t, executeDecoded P d s = .ok d' t → ∀ type ∈ a.kind.checks,
    s.closes type = false → ∀ i < a.len, s.Grants type (a.addr + BitVec.ofNat 64 i)
  refused : ∀ i, s.Denies a.kind.first a.addr a.len i →
    ∃ e t, executeDecoded P d s = .error e t ∧ SameRegisters s t ∧ t.pmem = s.pmem ∧
      (¬ Misaligned P a.addr a.len → (d.isLr = true → s.amo = false) →
        Denial P s a.kind.first (a.addr + BitVec.ofNat 64 i) e t)
  writeRefused : ∀ i x u w, a.kind = .amo → s.Denies .write a.addr a.len i →
    rtlLms P d d.src1.preg 0 a.len .dynamic (s.started d).reading = .ok x u →
    amoValue (d.instr.extractLsb' 27 5) a.len x (s.readLoc d.src2.preg) = some w →
    ∃ e t, executeDecoded P d s = .error e t ∧ SameRegisters s t ∧
      Marked P a.addr (s.started d).reading t.pmem ∧
      Denial P s .write (a.addr + BitVec.ofNat 64 i) e t

theorem executeDecoded_error (h : exec P d (s.started d) = .error e t) :
    executeDecoded P d s = .error e t :=
  (bind_ok (rfl : (modify fun s => s.started d : Exec PUnit) s = .ok _ (s.started d))).trans
    (bind_error h)

theorem exec_granted (hP : P.dasics = true) (hu : dasicsInTrustedZone s d.pc = false)
    (ha : d.access s = some a) (h : exec P d s = .ok () t)
    (hopen : s.closes a.kind.first = false) (hi : i < a.len) :
    s.Grants a.kind.first (a.addr + BitVec.ofNat 64 i) := by
  have hlr : d.isLr = true → s.amo = false := by
    intro hisLr
    cases hamo : s.amo with
    | false => rfl
    | true => cases (exec_lr_amo hisLr hamo).symm.trans h
  obtain ⟨b, hexec⟩ := exec_refused (P := P) ha hlr
  have hz : dasicsInTrustedZone { s with amo := b } d.pc = false := hu
  cases hc : vaddrCheck P (some d.pc) a.addr a.len a.kind.first { s with amo := b } with
  | error e u => cases (hexec e u hc).symm.trans h
  | ok _ u => exact (vaddrCheck_granted hP hz a.kind.first_type hc).2.2 hopen i hi

/-- Untrusted code reads and writes only what the bounds grant it, and a denied access has no
effect. Where an AMO is denied its write, its read has taken place. -/
theorem memory_access_confined (hP : P.dasics = true) (hu : dasicsInTrustedZone s d.pc = false)
    (ha : d.access s = some a) : Confined P d s a where
  granted d' t h type htype hopen i hi := by
    obtain ⟨-, u, he, -⟩ := executeDecoded_ok h
    have hfirst : s.closes a.kind.first = false →
        s.Grants a.kind.first (a.addr + BitVec.ofNat 64 i) :=
      fun ho => exec_granted (s := s.started d) hP hu ha he ho hi
    cases hk : a.kind with
    | load | store =>
      simp only [hk, AccessKind.checks, List.mem_singleton] at htype
      subst htype
      rw [hk] at hfirst
      exact hfirst hopen
    | amo =>
      obtain ⟨haddr, hlen, hexec⟩ := access_amo (P := P) ha hk
      simp only [hk, AccessKind.checks, List.mem_cons, List.not_mem_nil, or_false] at htype
      obtain rfl | rfl := htype
      · rw [hk] at hfirst
        exact hfirst hopen
      · rw [hexec] at he
        rw [hlen] at hi
        rw [haddr]
        exact amoStep_granted (s := s.started d) hP hu he hopen hi
  refused i h := by
    have hd : (s.started d).Denies a.kind.first a.addr a.len i :=
      Machine.Denies.congr (s := s) rfl rfl h
    obtain ⟨e, t, he, hregs, hpmem, hdenial⟩ := exec_denied (s := s.started d) hP hu ha hd
    refine ⟨e, t, executeDecoded_error he, ⟨hregs.gpr, hregs.fpr⟩, hpmem, fun hm hlr => ?_⟩
    obtain ⟨h1, h2, h3⟩ := hdenial hm hlr
    exact ⟨h1, h2, h3⟩
  writeRefused i x u w hk h hr hv := by
    obtain ⟨haddr, hlen, hexec⟩ := access_amo (P := P) ha hk
    rw [hlen] at h hr hv
    rw [haddr] at h ⊢
    have hd : (s.started d).Denies .write (s.readLoc d.src1.preg) d.amoWidth i :=
      Machine.Denies.congr (s := s) rfl rfl h
    obtain ⟨e, t, he, hregs, hmarked, hdenial⟩ :=
      amoStep_denied (s := s.started d) hP hu hr hv hd
    rw [← hexec] at he
    refine ⟨e, t, executeDecoded_error he, ⟨hregs.gpr, hregs.fpr⟩, hmarked, ?_⟩
    obtain ⟨h1, h2, h3⟩ := hdenial
    exact ⟨h1, h2, h3⟩

instance (s : Machine) (type : MemType) (a : Word) : Decidable (s.Grants type a) :=
  inferInstanceAs (Decidable (∃ _ : Fin 16, _))

/-- User code that may read two bytes loads a word. -/
def halfBounded (P : Platform) : Machine :=
  ((sandboxed P [0x00002083]).setCsr (.dlbound 1) 2).setCsr .dlcfg0 0xa

theorem memory_access_confined_word :
    ∃ d u t, fetchDecode (Platform.bare .standalone) (halfBounded (Platform.bare .standalone)) =
        .ok d u ∧
      executeDecoded (Platform.bare .standalone) d u =
        .error (.exception ⟨.DUCF, some 2, .plain⟩) t ∧
      t.csr .dfreason = FaultReason.DFR_LF.code ∧ t.csr .mtval = 2 ∧ t.pmem = u.pmem := by
  have hrun : ∃ d u, fetchDecode (Platform.bare .standalone)
      (halfBounded (Platform.bare .standalone)) = .ok d u ∧ d.access u = some ⟨0, 4, .load⟩ ∧
      dasicsInTrustedZone u d.pc = false ∧ d.isLr = false ∧ u.mode = .U ∧
      u.sandbox = (halfBounded (Platform.bare .standalone)).sandbox ∧
      intrTvalReg (Platform.bare .standalone) u .DUCF = .mtval :=
    ⟨_, _, rfl, rfl, rfl, rfl, rfl, rfl, rfl⟩
  obtain ⟨d, u, hf, ha, hu, hlr, hmode, hsand, htval⟩ := hrun
  have hs : (halfBounded (Platform.bare .standalone)).Denies .read 0 4 2 :=
    ⟨by decide, by decide, by decide, by decide⟩
  have hc : Confined (Platform.bare .standalone) d u ⟨0, 4, .load⟩ :=
    memory_access_confined rfl hu ha
  obtain ⟨e, t, he, -, hpmem, hdenial⟩ := hc.refused 2 (hs.congr hmode hsand)
  obtain ⟨h1, h2, h3⟩ := hdenial (by decide) (fun h => by rw [hlr] at h; cases h)
  rw [hmode] at h1 h3
  subst h1
  exact ⟨d, u, t, hf, he, h2, (congrArg t.csr htval).symm.trans h3, hpmem⟩

/-- User code behind a page table at `0x80200000`. It may read but not write the word at
`0xc0000000`, on a page whose accessed bit is clear, and does an AMO there. -/
def pagedAmo (P : Platform) : Machine :=
  { ((((sandboxed P [0x003120af]).setCsr .satp 0x8000000000080200).setCsr
      (.dlbound 0) 0xc0000000).setCsr (.dlbound 1) 0xc0000004).setCsr .dlcfg0 0xa with
    gpr := fun r => if r = 2 then 0xc0000000 else 0
    pmem := Bytes.writeLE (Bytes.writeLE (program 0x80100000 [0x003120af]) 0x80200010 8
      (0x2000005f : Word)) 0x80200018 8 (0x2000001f : Word)
    ifetchMmuState := .translate
    dataMmuState := .translate }

/-- The AMO is denied its write, but its read has set the accessed bit. -/
theorem amo_denied_marks_accessed :
    ∃ d u t, fetchDecode (Platform.bare .standalone) (pagedAmo (Platform.bare .standalone)) =
        .ok d u ∧
      d.access u = some ⟨0xc0000000, 4, .amo⟩ ∧ dasicsInTrustedZone u d.pc = false ∧
      u.mode = .U ∧ u.closes .read = false ∧ u.closes .write = false ∧
      executeDecoded (Platform.bare .standalone) d u =
        .error (.exception ⟨.DUCF, some 0xc0000000, .plain⟩) t ∧
      t.csr .dfreason = FaultReason.DFR_SF.code ∧ t.csr .mtval = 0xc0000000 ∧
      t.pmem ≠ u.pmem := by
  have hrun : ∃ d u t, fetchDecode (Platform.bare .standalone)
      (pagedAmo (Platform.bare .standalone)) = .ok d u ∧
      d.access u = some ⟨0xc0000000, 4, .amo⟩ ∧ dasicsInTrustedZone u d.pc = false ∧
      u.mode = .U ∧ u.closes .read = false ∧ u.closes .write = false ∧
      executeDecoded (Platform.bare .standalone) d u =
        .error (.exception ⟨.DUCF, some 0xc0000000, .plain⟩) t ∧
      t.csr .dfreason = FaultReason.DFR_SF.code ∧ t.csr .mtval = 0xc0000000 ∧
      u.pmem 0x80200018 = 0x1f ∧ t.pmem 0x80200018 = 0x5f :=
    ⟨_, _, _, rfl, rfl, rfl, rfl, rfl, rfl, rfl, rfl, rfl, rfl, rfl⟩
  obtain ⟨d, u, t, hf, ha, hu, hmode, hr, hw, he, hreason, htval, hbefore, hafter⟩ := hrun
  refine ⟨d, u, t, hf, ha, hu, hmode, hr, hw, he, hreason, htval, fun h => ?_⟩
  rw [h, hbefore] at hafter
  cases hafter

end Nemu
