import Nemu.Hidden
import Nemu.Lib.Run

namespace Nemu

open Effect

set_option autoImplicit true

variable {P : Platform} {d : Decode} {s t u : Machine}

def Machine.withNull (s : Machine) (z : Word) : Machine := { s with zeroNull := z }

def Cpu.withNull (a : Cpu) (z : Word) : Cpu := ⟨a.phase, a.m.withNull z⟩

/-- Another word in place of `x0`. -/
def NullOnly (h h' : Hidden) : Prop := ∃ z, h' = h.withNull z

theorem nullOnly_masks : Masks P NullOnly where
  forced := by
    rintro h _ ⟨z, rfl⟩
    rfl
  last := by
    rintro h _ ⟨z, rfl⟩
    rfl
  ended := by
    rintro h _ l ⟨z, rfl⟩
    exact ⟨z, rfl⟩
  null := by
    rintro h _ v v' ⟨z, rfl⟩
    exact ⟨v', rfl⟩
  pc := by
    rintro h _ a ⟨z, rfl⟩
    exact ⟨z, rfl⟩
  jump := by
    rintro h _ a ⟨z, rfl⟩
    exact ⟨z, rfl⟩

theorem nullOnly_sameLink (a : Word) : SameLink P NullOnly a := by
  rintro h _ ⟨z, rfl⟩
  rfl

theorem hides_withNull (s : Machine) (z : Word) : Hides (AtPc NullOnly) s (s.withNull z) :=
  ⟨s.hidden.withNull z, rfl, ⟨z, rfl⟩, rfl⟩

theorem withNull_of_hides (h : Hides NullOnly s t) : ∃ z, t = s.withNull z := by
  obtain ⟨_, rfl, z, rfl⟩ := h
  exact ⟨z, rfl⟩

/-- An executor of the base and of the extensions other than the vector one. -/
def Decode.Scalar (d : Decode) : Prop := d.id.isVector = false

section Step

theorem executeStep_withNull (s : Machine) (z : Word)
    (hv : ∀ d u, fetchDecode P s = .ok d u → d.Scalar) :
    Match (Hides NullOnly) (executeStep P s) (executeStep P (s.withNull z)) := by
  refine executeStep_match nullOnly_masks (hides_withNull s z) fun d u u' hf hu => ?_
  obtain ⟨f, -, hd⟩ := fetchDecode_formed hf
  refine exec_oblivious nullOnly_masks hd (fun _ => .inr (nullOnly_sameLink _))
    (fun _ => nullOnly_sameLink _) (fun m hid => ?_) _ _ hu
  have hs : d.id.isVector = false := hv d u hf
  rw [hid] at hs
  cases hs

/-- The word in place of `x0` shows in no step. -/
theorem CpuStep.withNull {a b : Cpu} (h : CpuStep P a e b) (z : Word)
    (hv : e.isAttempt → ∀ d u, fetchDecode P a.m = .ok d u → d.Scalar) :
    ∃ z', CpuStep P (a.withNull z) e (b.withNull z') := by
  cases h with
  | instr h =>
    have hm := executeStep_withNull _ z (hv rfl)
    rw [h] at hm
    obtain ⟨t, ht, hr⟩ := hm.of_ok
    obtain ⟨z', rfl⟩ := withNull_of_hides hr
    exact ⟨z', .instr ht⟩
  | fault h =>
    have hm := executeStep_withNull _ z (hv rfl)
    rw [h] at hm
    obtain ⟨t, ht, hr⟩ := hm.of_error
    obtain ⟨z', rfl⟩ := withNull_of_hides hr
    exact ⟨z', .fault ht⟩
  | batchEnd => exact ⟨z, .batchEnd⟩
  | @trap f s t h =>
    obtain ⟨t, ht, hr⟩ := (handleException_oblivious nullOnly_masks f).ok (hides_withNull s z).atPc h
    obtain ⟨z', rfl⟩ := withNull_of_hides hr
    exact ⟨z', .trap ht⟩
  | @intr s no t hs hq hn h =>
    obtain ⟨t, ht, hr⟩ := (takeIntr_oblivious nullOnly_masks no).ok (hides_withNull s z) h
    obtain ⟨z', rfl⟩ := withNull_of_hides hr.atPc
    exact ⟨z', .intr hs hq hn ht⟩
  | noIntr h => exact ⟨z, .noIntr h⟩
  | alarm h => exact ⟨z, .alarm h⟩

end Step

section Zero

theorem writeLoc_zero (h : l ≠ .gpr 0) (s : Machine) (v : Word) : (s.writeLoc l v).gpr 0 = s.gpr 0 := by
  cases l with
  | gpr r =>
    have hr : (0 : BitVec 5) ≠ r := by
      rintro rfl
      exact h rfl
    exact Function.update_of_ne hr _ _
  | fpr r | zeroNull => rfl

/-- No executor of a decoded instruction writes `gpr[0]`. -/
theorem Change.zero (h : Change P d s t) (hd : d.id.writesDest = true → d.dest.preg ≠ .gpr 0) :
    t.gpr 0 = s.gpr 0 := by
  cases h with
  | access h => exact congrFun (congrArg Machine.gpr h) 0
  | dest hw => exact writeLoc_zero (hd hw) s _
  | link _ => exact writeLoc_zero (by decide) s _
  | vgpr _ hr =>
    refine writeLoc_zero ?_ s _
    intro h
    cases h
    exact hr rfl
  | store _ _ =>
    rw [csrStore_only]
  | mmu _ h => exact congrFun (congrArg Machine.gpr h) 0
  | trap no _ =>
    rw [trapEntry_only]
  | reserve _ | release _ | record _ | dirty _ | flags _ _ | vreg _ | vcsr _ _ | mie _ | jump _
  | dretpc _ | sd _ | fpCsr _ _ | rm _ | uret _ | sret _ | mret _ => rfl

theorem fetched_gpr (h : t.eraseFetch = s.eraseFetch) : t.gpr = s.gpr := by
  have h1 := congrArg Machine.gpr h
  exact h1

theorem exec_zero (hf : fetchDecode P s = .ok d u) (hs : s.gpr 0 = 0) :
    (final (exec P d) (u.started d)).gpr 0 = 0 := by
  obtain ⟨f, -, hd⟩ := fetchDecode_formed hf
  have hu := fetched_gpr (fetchDecode_frame.ok hf)
  refine reached_keeps (I := fun t => t.gpr 0 = 0) (exec_reached P d _) (fun t v hc ht => ?_) ?_
  · exact (hc.zero hd.dest).trans ht
  · exact (congrFun hu 0).trans hs

theorem raiseIntr_gpr : (keep Stop Machine.gpr).Within (raiseIntr P no epc) := by
  intro s
  rw [keep_iff]
  have h := congrArg Machine.gpr (raiseIntr_final P no epc s)
  rw [trapEntry_only] at h
  exact h

theorem handleException_gpr (x : Fault) : (keep Stop Machine.gpr).Within (handleException P x) := by
  refine .bind (.read _) fun s => .bind (.update fun s => ?_) fun _ => .bind raiseIntr_gpr fun pc =>
    .update fun _ => rfl
  split <;> rfl

theorem takeIntr_gpr (no : Word) : (keep Stop Machine.gpr).Within (takeIntr P no) :=
  .bind (.read _) fun _ => .bind raiseIntr_gpr fun _ => .update fun _ => rfl

theorem ticked_gpr (P : Platform) (s : Machine) : (s.ticked P).gpr = s.gpr := by
  unfold Machine.ticked utimerTick
  split
  · split
    · rfl
    split
    · rfl
    · rfl
  · rfl

theorem CpuStep.zero {a b : Cpu} (h : CpuStep P a e b) (hs : a.m.gpr 0 = 0) : b.m.gpr 0 = 0 := by
  cases h with
  | instr h =>
    obtain ⟨u, v, hf, he, rfl⟩ := executeStep_ok h
    have hv := exec_zero hf hs
    rw [final_ok he] at hv
    exact (congrFun (ticked_gpr P v) 0).trans hv
  | @fault s f t h =>
    obtain hf | ⟨d, u, hf, he⟩ := executeStep_error h
    · exact (congrFun (fetched_gpr (fetchDecode_frame.error hf)) 0).trans hs
    · have hv := exec_zero hf hs
      rw [final_error he] at hv
      exact hv
  | batchEnd | noIntr _ => exact hs
  | trap h => exact (congrFun ((handleException_gpr _).ok h) 0).trans hs
  | intr _ _ _ h => exact (congrFun ((takeIntr_gpr _).ok h) 0).trans hs
  | alarm _ => exact hs

end Zero

/-- In every state reached from reset `x0` is zero; and whatever word is then put in place of `x0`, every
run without vector instructions goes on as before, with the same events and in states that differ in
that word only. -/
theorem x0_stays_zero (h : Run (CpuStep P) ⟨.top, Machine.reset P ram⟩ tr c) :
    c.m.gpr 0 = 0 ∧ ∀ z tr' e, Run (CpuStep P) c tr' e →
      (∀ x ∈ tr', x.label.isAttempt → ∀ d u, fetchDecode P x.source.m = .ok d u → d.Scalar) →
      ∃ z' tr'', Run (CpuStep P) (c.withNull z) tr'' (e.withNull z') ∧
        List.Forall₂ (Run.Twin fun a b => ∃ z, b = a.withNull z) tr' tr'' := by
  constructor
  · have hall : ∀ x ∈ tr, (fun _ : Transition Cpu Event => True) x := fun _ _ => trivial
    refine h.invariant (I := fun c => c.m.gpr 0 = 0) hall rfl ?_
    intro x _ hs hz
    exact hs.zero hz
  · intro z tr' e hr hv
    have hstep : ∀ x ∈ tr', CpuStep P x.source x.label x.target → ∀ s', (∃ z, s' = x.source.withNull z) →
        ∃ t', CpuStep P s' x.label t' ∧ ∃ z, t' = x.target.withNull z := by
      rintro x hx hs _ ⟨z, rfl⟩
      obtain ⟨z', hz'⟩ := hs.withNull z (hv x hx)
      exact ⟨_, hz', z', rfl⟩
    obtain ⟨tr'', _, hr', ⟨z', rfl⟩, htwin⟩ :=
      hr.simulate (R := fun a b => ∃ z, b = a.withNull z) ⟨z, rfl⟩ hstep
    exact ⟨z', tr'', hr', htwin⟩

/-- `addi x0, x0, 5; add a0, x0, x0` leaves a word in place of `x0` that the second instruction does not
see. -/
theorem x0_stays_zero_addi :
    ∃ tr c tr' e, Run (CpuStep (.bare .standalone))
        ⟨.top, Machine.reset (.bare .standalone) (program 0x80100000 [0x00500013, 0x00000533])⟩ tr c ∧
      Run (CpuStep (.bare .standalone)) c tr' e ∧ c.m.zeroNull = 5 ∧ e.m.gpr 10 = 0 ∧ c.m.gpr 0 = 0 ∧
      ∀ z, ∃ z' tr'', Run (CpuStep (.bare .standalone)) (c.withNull z) tr'' (e.withNull z') ∧
        List.Forall₂ (Run.Twin fun a b => ∃ z, b = a.withNull z) tr' tr'' := by
  have hrun : ∃ tr c tr' e, Run (CpuStep (.bare .standalone))
        ⟨.top, Machine.reset (.bare .standalone) (program 0x80100000 [0x00500013, 0x00000533])⟩ tr c ∧
      Run (CpuStep (.bare .standalone)) c tr' e ∧ c.m.zeroNull = 5 ∧ e.m.gpr 10 = 0 ∧
      ∀ x ∈ tr', x.label.isAttempt → ∀ d u, fetchDecode (.bare .standalone) x.source.m = .ok d u →
        d.Scalar := by
    refine ⟨_, _, _, _, .cons (.noIntr (.inr rfl)) (.cons (.instr rfl) .nil), .cons (.instr rfl) .nil,
      rfl, rfl, fun x hx _ d u hf => ?_⟩
    rw [List.mem_singleton] at hx
    subst hx
    cases hf
    rfl
  obtain ⟨tr, c, tr', e, hr, hr', hn, ha, hv⟩ := hrun
  obtain ⟨h0, htwin⟩ := x0_stays_zero hr
  exact ⟨tr, c, tr', e, hr, hr', hn, ha, h0, fun z => htwin z tr' e hr' hv⟩

end Nemu
