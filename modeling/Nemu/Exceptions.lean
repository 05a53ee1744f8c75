import Nemu.FetchContract
import Nemu.SystemContract

namespace Nemu

open Effect

set_option autoImplicit true

variable {P : Platform} {q : Machine → Prop} {s t : Machine} {d : Decode} {f : Fault}

/-- Code that may end or abort, but raises no exception and checks no permission. -/
def noException : Effect Stop Machine :=
  inv (fun _ => True) fun e _ => (∀ f, e ≠ .exception f) ∧ e ≠ .abort .permissionMode

section NoException

theorem update_noException {g : Machine → Machine} :
    noException.Within (modify g : Exec PUnit) :=
  .update fun _ _ => trivial

theorem assert_noException (p : Prop) [Decidable p] (ha : a ≠ .permissionMode) :
    noException.Within (assert p a) := by
  unfold assert
  split
  · exact .ret _ _
  · exact .raise fun _ _ => ⟨(fun f h => by cases h), fun h => ha (Stop.abort.inj h)⟩

theorem updateMmuStateInternal_noException :
    noException.Within (updateMmuStateInternal ifetch) := by
  refine .bind (.read _) fun s => ?_
  split
  · refine .bind (assert_noException _ (by decide)) fun _ => ?_
    split
    · exact .ret _ _
    · exact .ret _ _
  · exact .ret _ _

theorem updateMmuState_noException : noException.Within updateMmuState :=
  .bind updateMmuStateInternal_noException fun _ => .bind update_noException fun _ =>
    .bind updateMmuStateInternal_noException fun _ => update_noException

theorem raiseIntr_noException : noException.Within (raiseIntr P no epc) := by
  intro s
  unfold At
  rw [raiseIntr_eq]
  exact Within.bind updateMmuState_noException
    (fun _ => .bind (.read _) fun _ => .ret _ _) (trapEntry P no epc s)

theorem retTail_noException : noException.Within (retTail epc) :=
  .bind updateMmuState_noException fun _ => .bind (.read _) fun _ => .ret _ _

theorem rtlTrap_noException : noException.Within (rtlTrap P d no) := by
  refine .bind (.bind (.read _) fun s => ?_) fun _ => .bind update_noException fun _ => .ret _ _
  dsimp only
  split
  · exact .bind update_noException fun _ => raiseIntr_noException
  split
  · exact .bind update_noException fun _ => raiseIntr_noException
  · exact raiseIntr_noException

theorem csrWriteTail_noException : noException.Within (csrWriteTail P c x) := by
  refine .bind update_noException fun _ => .bind ?_ fun _ => .bind ?_ fun _ => ?_
  · unfold csrWriteFp
    split
    · exact .bind update_noException fun _ => .bind (.read _) fun _ =>
        .bind (assert_noException _ (by decide)) fun _ => update_noException
    · exact .ret _ _
  · unfold csrWriteSd
    split
    · exact update_noException
    · exact .ret _ _
  · unfold csrWriteMmu
    split
    · exact updateMmuState_noException
    · exact .ret _ _

theorem writeReg_noException : noException.Within (writeReg l v) := by
  cases l <;> exact update_noException

end NoException

section System

/-- The exceptions of the system instructions come before anything but data has changed. -/
def illegalEffect (P : Platform) (s : Machine) (e : Stop) (t : Machine) : Prop :=
  (∀ f, e = .exception f → Stops P Machine.eraseData (fun _ => False) s.eraseData e t) ∧
    e ≠ .abort .permissionMode

theorem illegalEffect_of_noException {m : Exec α} (hm : noException.Within m)
    (h : m u = .error e t) : illegalEffect P s e t := by
  obtain ⟨hf, ha⟩ := hm.error h trivial
  exact ⟨fun f he => absurd he (hf f), ha⟩

theorem illegalEffect_of_data {m : Exec α} (hm : (dataEffect P fun _ => False).Within m)
    (h : m s = .error e t) : illegalEffect P s e t :=
  ⟨fun _ _ => hm.error h, (hm.error h).permissionMode⟩

theorem illegalEffect.absorb (h : illegalEffect P t e u) (ht : t.eraseData = s.eraseData) :
    illegalEffect P s e u :=
  ⟨fun f hf => ht ▸ h.1 f hf, h.2⟩

theorem illegalIf_then {p : Prop} [Decidable p] {k : Unit → Exec α}
    (hk : noException.Within (k ())) (h : (illegalIf p >>= k) s = .error e t) :
    illegalEffect P s e t := by
  rcases error_of_bind h with h1 | ⟨_, u, -, h1⟩
  · exact illegalEffect_of_data (illegalIf_data _) h1
  · exact illegalEffect_of_noException hk h1

theorem privInstr_illegal (h : privInstr P op s = .error e t) : illegalEffect P s e t := by
  unfold privInstr at h
  split at h
  · rw [uret_eq] at h
    exact illegalEffect_of_noException retTail_noException h
  split at h
  · rw [sret_eq] at h
    exact illegalIf_then (fun s => retTail_noException _) h
  split at h
  · rw [mret_eq] at h
    exact illegalIf_then (fun s => retTail_noException _) h
  · exact illegalEffect_of_data privFence_data h

theorem sysPriv_illegal (h : sysPriv P d s = .error e t) : illegalEffect P s e t := by
  rcases error_of_bind h with h1 | ⟨_, u, -, h1⟩
  · rcases error_of_bind h1 with h2 | ⟨_, _, hget, h2⟩
    · cases h2
    · cases hget
      split at h2
      · exact illegalEffect_of_noException rtlTrap_noException h2
      split at h2
      · exact illegalEffect_of_noException rtlTrap_noException h2
      · exact privInstr_illegal h2
  · split at h1
    · exact illegalEffect_of_noException update_noException h1
    · cases h1

theorem csrrw_write_illegal (h : csrrw P false (some x) addr pc s = .error e t) :
    illegalEffect P s e t := by
  rcases error_of_bind h with h1 | ⟨r, u, hl, h1⟩
  · exact illegalEffect_of_data csrIsLegal_data h1
  · obtain ⟨rfl, -⟩ := csrIsLegal_ok hl
    cases r with
    | none => exact illegalEffect_of_data illegal_data h1
    | some c =>
      rcases error_of_bind h1 with h2 | ⟨_, _, -, h2⟩
      · have h3 : (illegalIf (csrWriteIllegal P u c) >>= fun _ => csrWriteTail P c x) u =
            .error e t := h2
        exact illegalIf_then csrWriteTail_noException h3
      · cases h2

theorem sysCsr_illegal (h : sysCsr P d s = .error e t) : illegalEffect P s e t := by
  rcases error_of_bind h with h1 | ⟨old, u, hr, h1⟩
  · exact illegalEffect_of_data csrrw_read_data h1
  · have hread : (dataEffect P fun _ => False).Within (csrrw P true none d.csrId d.pc) :=
      csrrw_read_data
    have hu : u.eraseData = s.eraseData := hread.ok hr
    split at h1
    · rcases error_of_bind h1 with h2 | ⟨src, v, hv, h2⟩
      · exact (illegalEffect_of_data readReg_data h2).absorb hu
      · cases hv
        rcases error_of_bind h2 with h3 | ⟨_, _, -, h3⟩
        · exact (csrrw_write_illegal h3).absorb hu
        · exact illegalEffect_of_noException writeReg_noException h3
    · exact illegalEffect_of_noException writeReg_noException h1

end System

/-- What an exception leaves of the state in which its instruction began. -/
structure Excepted (P : Platform) (s : Machine) (f : Fault) (t : Machine) : Prop where
  mode : t.mode = s.mode
  decPc : t.decPc = s.decPc
  csr : ∀ c, faultCsr c = false → dataCsr c = false → c ≠ .dretpc →
    eraseBits c (t.csr c) = eraseBits c (s.csr c)
  raised : Raised P s f t

theorem Stops.excepted (h : Stops P Machine.eraseFlow q s.eraseFlow (.exception f) t) :
    Excepted P s f t where
  mode := (congrArg Machine.mode h.frame :)
  decPc := (congrArg Machine.decPc h.frame :)
  csr c hf hd hc := by
    have h1 := congrFun (congrArg Machine.csr h.frame) c
    simpa [Machine.eraseFlow, Machine.eraseJump, Machine.erasePc, Machine.eraseDretpc,
      Machine.eraseData, Machine.eraseFault, hf, hd, hc] using h1
  raised := by
    obtain ⟨htval, hva, hsite, hreason⟩ := h.raised f rfl
    refine ⟨fun l => ?_, hva, hsite, hreason⟩
    rw [htval]
    have h1 := tvalAfter_eraseData P s f l
    have h2 := tvalAfter_eraseDretpc P s.eraseJump f l
    exact h2.trans h1

theorem exec_system_illegal (hs : d.id = .system) (h : exec P d s = .error e t) :
    illegalEffect P s e t := by
  unfold exec at h
  rw [hs] at h
  change rtlSysSlowPath P d s = _ at h
  unfold rtlSysSlowPath at h
  split at h
  · exact sysPriv_illegal h
  · exact sysCsr_illegal h

theorem exec_excepted (h : exec P d s = .error (.exception f) t) : Excepted P s f t := by
  by_cases hs : d.id = .system
  · have hdata := (exec_system_illegal hs h).1 f rfl
    have hjump : Stops P Machine.eraseJump (fun _ => False) s.eraseJump (.exception f) t :=
      Stops.coarsen (coarsens_jump P) hdata fun h => h
    have hflow : Stops P Machine.eraseFlow (fun _ => False) s.eraseFlow (.exception f) t :=
      Stops.coarsen (coarsens_flow P) hjump fun h => h
    exact hflow.excepted
  · exact Stops.excepted ((exec_flow hs).error h)

/-- The assertion on the mode of an access fails in instructions that access memory only. -/
theorem exec_permissionMode (h : exec P d s = .error (.abort .permissionMode) t) :
    BadExec d.id s.eraseFlow := by
  by_cases hs : d.id = .system
  · exact absurd rfl (exec_system_illegal hs h).2
  · exact ((exec_flow hs).error h).permissionMode rfl

theorem Excepted.congr (h : Excepted P u f t) (hu : u.eraseAccess = s.eraseAccess) :
    Excepted P s f t where
  mode := h.mode.trans (congrArg Machine.mode hu :)
  decPc := h.decPc.trans (congrArg Machine.decPc hu :)
  csr c hf hd hc := by
    have hv : volatileCsr c = false := by
      cases c <;> first | rfl | cases hd
    have h1 := congrFun (congrArg Machine.csr hu) c
    have h2 : u.csr c = s.csr c := by
      simpa only [Machine.eraseAccess, hv, Bool.false_eq_true, ↓reduceIte] using h1
    rw [h.csr c hf hd hc, h2]
  raised := by
    obtain ⟨htval, hva, hsite, hreason⟩ := h.raised
    refine ⟨fun l => ?_, hva, hsite, hreason⟩
    rw [htval, ← tvalAfter_eraseAccess, hu, tvalAfter_eraseAccess]

theorem executeDecoded_excepted (h : executeDecoded P d s = .error (.exception f) t) :
    Excepted P s f t := by
  rcases error_of_bind h with h1 | ⟨_, u, hmod, h1⟩
  · cases h1
  · cases hmod
    rcases error_of_bind h1 with h2 | ⟨_, v, -, h2⟩
    · obtain ⟨hmode, hpc, hcsr, hr⟩ := exec_excepted h2
      exact ⟨hmode, hpc, hcsr, hr.tval, hr.vaddr, hr.site, hr.reason⟩
    · rcases error_of_bind h2 with h3 | ⟨_, _, -, h3⟩
      · cases h3
      · cases h3

/-- An exception is raised by the pending check, or by the fetch and the instruction itself. -/
theorem executeStep_excepted (h : executeStep P s = .error (.exception f) t) :
    (PendingFails P s ∧ f = ⟨dasicsEx s.mode, some s.pc, .plain⟩ ∧ t = jumpFaulted P s) ∨
      (¬ PendingFails P s ∧ Excepted P { s with decPc := s.pc } f t) := by
  rcases error_of_bind h with h1 | ⟨d, u, hf, h1⟩
  · rcases fetchDecode_error h1 with ⟨hp, he, ht⟩ | ⟨hp, hs⟩
    · cases he
      exact .inl ⟨hp, rfl, ht⟩
    · let v : Machine := { s with decPc := s.pc }
      have hdata : Stops P Machine.eraseData (fun _ => True) v.eraseData (.exception f) t :=
        Stops.coarsen (coarsens_data P) hs fun _ => trivial
      have hjump : Stops P Machine.eraseJump (fun _ => True) v.eraseJump (.exception f) t :=
        Stops.coarsen (coarsens_jump P) hdata fun _ => trivial
      have hflow : Stops P Machine.eraseFlow (fun _ => True) v.eraseFlow (.exception f) t :=
        Stops.coarsen (coarsens_flow P) hjump fun _ => trivial
      exact .inr ⟨hp, hflow.excepted⟩
  · have hfetch := fetchDecode_ok hf
    refine .inr ⟨hfetch.passed, ?_⟩
    obtain ⟨hmode, hpc, hcsr, hr⟩ := (executeDecoded_excepted h1).congr hfetch.frame
    exact ⟨hmode, hpc, hcsr, hr.tval, hr.vaddr, hr.site, hr.reason⟩

section Handle

theorem raiseIntr_ok (h : raiseIntr P no epc s = .ok a t) :
    t.csr = (trapEntry P no epc s).csr ∧ t.mode = (trapLevel P s no).mode := by
  rw [← raiseIntr_final_csr, ← raiseIntr_final_mode P no epc, final_ok h]
  exact ⟨rfl, rfl⟩

/-- The state in which `cpu_exec` takes the trap of an exception, and what it takes for the program
counter. -/
def faultHandled (P : Platform) (f : Fault) (s : Machine) : Machine :=
  if isJumpFault P s f then { s with prevIsCfi := false, prevType := .none } else s

def faultEpc (P : Platform) (f : Fault) (s : Machine) : Word :=
  if isJumpFault P s f then s.prevPc else s.decPc

theorem faultHandled_csr : (faultHandled P f s).csr = s.csr := by
  unfold faultHandled
  split <;> rfl

theorem faultHandled_mode : (faultHandled P f s).mode = s.mode := by
  unfold faultHandled
  split <;> rfl

theorem handleException_ok (h : handleException P f s = .ok () t) :
    ∃ pc u, raiseIntr P f.cause.code (faultEpc P f s) (faultHandled P f s) = .ok pc u ∧
      t = { u with pc := pc, amo := false } := by
  obtain ⟨_, _, hget, h1⟩ := ok_of_bind h
  cases hget
  obtain ⟨_, _, hmod, h2⟩ := ok_of_bind h1
  cases hmod
  obtain ⟨pc, u, hr, h3⟩ := ok_of_bind h2
  cases h3
  exact ⟨pc, u, hr, rfl⟩

end Handle

end Nemu
