import Nemu.Difftest
import Nemu.Hidden
import Nemu.JumpCheck

namespace Nemu

open Effect

set_option autoImplicit true

/-- The state without what the `Decode` record and `cpu.debug` keep of the instructions before. -/
def Machine.eraseRecord (s : Machine) : Machine :=
  { s with currentPc := 0, decPc := 0, prevPc := 0, prevType := .none, prevIsCfi := false }

/-- The state without what is derived from the rest, or kept of the instructions before. -/
def Machine.eraseDerived (s : Machine) : Machine :=
  { s.eraseRecord with ifetchMmuState := .direct, dataMmuState := .direct, rmCache := 0 }

/-- The next instruction ends alike: completed, in the same state, or with an exception that is charged
to the same address. -/
structure NextAlike (P : Platform) (s t : Machine) : Prop where
  result : Match (fun a b => b.eraseRecord = a.eraseRecord) (executeStep P s) (executeStep P t)
  ended : ∀ d a, executeStep P s = .ok d a → executeStep P t = .ok d a
  epc : ∀ f a b, executeStep P s = .error (.exception f) a → executeStep P t = .error (.exception f) b →
    faultEpc P f a = faultEpc P f b

variable {P : Platform} {d : Decode} {s t u : Machine} {r : Ref} {G : Machine → Prop}

section Step

/-- Other instructions before. -/
def LastOnly (h h' : Hidden) : Prop := h' = h.withLast h'.last

theorem lastOnly_force : SameForce LastOnly := by
  intro h h' hq
  rw [hq]
  rfl

theorem Hides.refl_last (s : Machine) : Hides LastOnly s s := ⟨s.hidden, rfl, rfl⟩

theorem Hides.eraseRecord (h : Hides LastOnly s t) : t.eraseRecord = s.eraseRecord ∧ t.decPc = s.decPc := by
  obtain ⟨h', rfl, hq⟩ := h
  rw [hq]
  exact ⟨rfl, rfl⟩

/-- What follows the fetch of the instruction. -/
def executeFetched (P : Platform) (d : Decode) : Exec Decode := do
  modify fun s => { s with
    prevType := d.id.cfiType
    prevIsCfi := d.id.cfiType ≠ .none }
  executeDecoded P d

/-- What follows a pending check that passes. -/
def executeRest (P : Platform) (pc : Word) : Exec Decode := do
  let lo ← vaddrIfetch P pc 2
  let d ← decodeRest P pc lo
  executeFetched P d

theorem fetchRest_execute (P : Platform) (pc : Word) :
    (fetchRest P pc >>= executeDecoded P) = executeRest P pc := by
  unfold fetchRest executeRest executeFetched
  simp only [bind_assoc, pure_bind]

theorem executeStep_passed (hp : ¬ PendingFails P s) :
    executeStep P s = executeRest P s.pc { s with decPc := s.pc } := by
  have hf : fetchDecode P s = fetchRest P s.pc { s with decPc := s.pc } := by
    rw [fetchDecode_eq, bind_ok ((fetchCheck_run P s).trans (if_neg hp))]
  rw [← fetchRest_execute]
  unfold executeStep
  cases h : fetchRest P s.pc { s with decPc := s.pc } with
  | ok d t => rw [bind_ok h, bind_ok (hf.trans h)]
  | error e t => rw [bind_error h, bind_error (hf.trans h)]

theorem executeStep_failed (hp : PendingFails P s) : executeStep P s =
    .error (.exception ⟨dasicsEx s.mode, some s.pc, .plain⟩) (jumpFaulted P s) := by
  have hc := (fetchCheck_run P s).trans (if_pos hp)
  exact bind_error ((fetchDecode_eq P s).trans (bind_error hc))

/-- The instruction before is forgotten when the next one has been fetched. -/
theorem executeFetched_eq (h : Hides LastOnly s t) : executeFetched P d s = executeFetched P d t := by
  obtain ⟨h', rfl, hq⟩ := h
  rw [hq]
  rfl

theorem executeRest_alike (pc : Word) : Effect.Alike (Hides LastOnly) (executeRest P pc) (executeRest P pc) := by
  refine Alike.bind (vaddrIfetch_oblivious lastOnly_force) fun lo =>
    Alike.bind (decodeRest_oblivious lastOnly_force pc lo) fun d s t h => ?_
  rw [executeFetched_eq h]
  cases executeFetched P d t with
  | ok a u => exact .ok a (.refl_last u)
  | error e u => exact .error e (.refl_last u)

theorem executeRest_ok (h : Hides LastOnly s t) (hs : executeRest P pc s = .ok d a) :
    executeRest P pc t = .ok d a := by
  obtain ⟨lo, s₁, hlo, h1⟩ := ok_of_bind hs
  obtain ⟨d', s₂, hd, h2⟩ := ok_of_bind h1
  obtain ⟨t₁, hlo', hr₁⟩ := (vaddrIfetch_oblivious lastOnly_force).ok h hlo
  obtain ⟨t₂, hd', hr₂⟩ := (decodeRest_oblivious lastOnly_force pc lo).ok hr₁ hd
  unfold executeRest
  rw [bind_ok hlo', bind_ok hd', ← executeFetched_eq hr₂]
  exact h2

theorem jumpFaulted_isJumpFault (hp : PendingFails P s) :
    isJumpFault P (jumpFaulted P s) ⟨dasicsEx s.mode, some s.pc, .plain⟩ = true := by
  have hcause : isDasicsCause (dasicsEx s.mode) = true := by
    unfold dasicsEx
    split <;> rfl
  have hreason : (jumpFaulted P s).csr .dfreason = FaultReason.DFR_JF.code := by
    unfold jumpFaulted
    rw [Machine.setCsr_csr_ne, Machine.setCsr_csr_self]
    cases trapLevel P s (dasicsEx s.mode).code <;> decide
  unfold isJumpFault
  rw [hp.1, hcause, hreason, decide_eq_true rfl]
  rfl

theorem isJumpFault_csr (h : t.csr = s.csr) : isJumpFault P t f = isJumpFault P s f := by
  unfold isJumpFault
  rw [h]

theorem NextAlike.symm (h : NextAlike P s t) : NextAlike P t s := by
  have hr := h.result
  refine ⟨?_, fun d b ht => ?_, fun f a b ha hb => (h.epc f b a hb ha).symm⟩
  · cases hs : executeStep P s with
    | ok d a =>
      rw [h.ended d a hs]
      exact .ok d rfl
    | error e a =>
      rw [hs] at hr
      obtain ⟨b, hb, hab⟩ := hr.of_error
      rw [hb]
      exact .error e hab.symm
  · rw [ht] at hr
    cases hs : executeStep P s with
    | ok d' a =>
      rw [← ht, h.ended d' a hs]
    | error e a =>
      rw [hs] at hr
      cases hr

theorem NextAlike.fails (h : NextAlike P s t) (hp : PendingFails P s) : PendingFails P t := by
  have hr := h.result
  rw [executeStep_failed hp] at hr
  obtain ⟨v, hv, he⟩ := hr.of_error
  have hcsr : v.csr = (jumpFaulted P s).csr := (congrArg Machine.csr he :)
  exact (jumpFault_pending hv ((isJumpFault_csr hcsr).trans (jumpFaulted_isJumpFault hp))).1

theorem NextAlike.passed (hs : ¬ PendingFails P s) (ht : ¬ PendingFails P t)
    (h : Hides LastOnly { s with decPc := s.pc } { t with decPc := t.pc }) (hpc : s.pc = t.pc) :
    NextAlike P s t := by
  have hrest := executeRest_alike (P := P) s.pc _ _ h
  rw [← executeStep_passed hs, hpc, ← executeStep_passed ht] at hrest
  refine ⟨hrest.mono fun a b hab => hab.eraseRecord.1, fun d a ha => ?_, fun f a b ha hb => ?_⟩
  · have hrun := executeRest_ok h ((executeStep_passed hs).symm.trans ha)
    rw [hpc] at hrun
    exact (executeStep_passed ht).trans hrun
  rw [ha, hb] at hrest
  cases hrest with
  | error _ hab =>
    have hja : ¬ isJumpFault P a f = true := fun hj => hs (jumpFault_pending ha hj).1
    have hjb : ¬ isJumpFault P b f = true := fun hj => ht (jumpFault_pending hb hj).1
    exact (if_neg hja).trans (hab.eraseRecord.2.symm.trans (if_neg hjb).symm)

end Step

section Refresh

theorem derived_eq (h : u.eraseDerived = t.eraseDerived)
    (hi : u.ifetchMmuState = t.ifetchMmuState) (hd : u.dataMmuState = t.dataMmuState)
    (hr : u.rmCache = t.rmCache) : u.eraseRecord = t.eraseRecord := by
  have hu : ∀ v : Machine, v.eraseRecord = { v.eraseDerived with
    ifetchMmuState := v.ifetchMmuState, dataMmuState := v.dataMmuState, rmCache := v.rmCache } :=
    fun _ => rfl
  rw [hu u, hu t, h, hi, hd, hr]

/-- A state with current derived state has that of every state with the same rest which guest instructions
can reach. -/
theorem Coherent.unique (hu : Coherent u) (hi : t.ifetchMmuState = t.mmuState true)
    (hd : t.dataMmuState = t.mmuState false) (hr : t.rmCache = t.frm.setWidth 32)
    (h : u.eraseDerived = t.eraseDerived) : u.eraseRecord = t.eraseRecord := by
  have hstate : ∀ b, u.mmuState b = t.mmuState b := fun b =>
    (congrArg (fun v : Machine => v.mmuState b) h :)
  have hfrm : u.frm = t.frm := (congrArg Machine.frm h :)
  apply derived_eq h
  · rw [hu.ifetch, hi, hstate]
  · rw [hu.data, hd, hstate]
  · rw [hu.rm, hr, hfrm]

end Refresh

/-- The reference as it starts. -/
def Ref.reset (P : Platform) : Ref := ⟨Machine.reset P fun _ => 0, fun _ => 0⟩

end Nemu
