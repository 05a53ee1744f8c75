import Mathlib.Logic.Relation
import Nemu.Coherence
import Nemu.FetchContract

namespace Nemu

open Effect

set_option autoImplicit true

/-- One step of a guest: an instruction that completes or raises an exception, fetched or taken
from a decode cache, a trap or an interrupt with any cause, the timer, or a new execution guide. -/
inductive GuestStep (P : Platform) : Machine → Machine → Prop where
  | instr : executeStep P s = .ok d t → GuestStep P s t
  | fault : executeStep P s = .error (.exception f) t → GuestStep P s t
  | cached : executeDecoded P d s = .ok d' t → GuestStep P s t
  | cachedFault : executeDecoded P d s = .error (.exception f) t → GuestStep P s t
  | trap : handleException P f s = .ok () t → GuestStep P s t
  | intr : takeIntr P no s = .ok () t → GuestStep P s t
  | timer : GuestStep P s (setMtip (some b) s)
  | guide : P.guidedExec = true → GuestStep P s { s with guidedExec := b, guide := g }

/-- The states that a guest can reach from reset. -/
def Reachable (P : Platform) (s : Machine) : Prop :=
  ∃ ram, Relation.ReflTransGen (GuestStep P) (Machine.reset P ram) s

variable {P : Platform} {s t : Machine} {d : Decode}

/-- The loop of `cpu_exec` makes guest steps only. -/
theorem CpuStep.guest (h : CpuStep P c ev c') : GuestStep P c.m c'.m ∨ c'.m = c.m := by
  cases h with
  | instr h => exact .inl (.instr h)
  | fault h => exact .inl (.fault h)
  | batchEnd => exact .inr rfl
  | trap h => exact .inl (.trap h)
  | intr _ _ _ h => exact .inl (.intr h)
  | noIntr _ => exact .inr rfl
  | alarm _ => exact .inl .timer

theorem control_of_eraseAccess (h : t.eraseAccess = s.eraseAccess) : t.control = s.control := by
  apply control_of_eraseData
  rw [← Machine.eraseData_eraseAccess t, h, Machine.eraseData_eraseAccess]

theorem Fetches.control_eq (h : Fetches P s d t) : t.control = s.control := by
  have h1 : t.control = (s.decoded d).control := control_of_eraseAccess h.frame
  exact h1

theorem control_setTval (s : Machine) (l : Level) (v : Word) :
    (s.setCsr l.tval v).control = s.control :=
  control_setCsr s v (by cases l <;> rfl)

theorem fetchDecode_error_control (h : fetchDecode P s = .error e t) : t.control = s.control := by
  rcases fetchDecode_error h with ⟨-, -, rfl⟩ | ⟨-, hs⟩
  · exact (control_setTval _ _ _).trans (control_setCsr _ _ rfl)
  · have h1 : t.eraseFault.control = s.control := by
      apply (control_of_eraseAccess (s := ({ s with decPc := s.pc } : Machine).eraseFault) ?_)
      rw [hs.frame, Machine.eraseFault_eraseAccess]
    exact h1

theorem utimerTick_control (s : Machine) : (utimerTick s).control = s.control := by
  unfold utimerTick
  split
  · exact control_setCsr s _ rfl
  · split
    · exact control_setCsr s _ rfl
    · exact control_setCsr s _ rfl

theorem executeDecoded_coherent : coherentEffect.Within (executeDecoded P d) := by
  refine .bind (.update fun s hs => hs.of_control rfl) fun _ => .bind exec_coherent fun _ =>
    .bind (.update fun s hs => ?_) fun _ => .ret _ _
  split
  · exact hs.of_control (utimerTick_control s)
  · exact hs

theorem handleException_coherent : coherentEffect.Within (handleException P f) := by
  refine .bind (.read _) fun s => .bind (.update fun s hs => ?_) fun _ =>
    .bind (raiseIntr_coherent _ _) fun pc => .update fun s hs => hs.of_control rfl
  split
  · exact hs.of_control rfl
  · exact hs

theorem takeIntr_coherent : coherentEffect.Within (takeIntr P no) :=
  .bind (.read _) fun _ => .bind (raiseIntr_coherent _ _) fun _ => .update fun _ hs =>
    hs.of_control rfl

theorem executeStep_coherent : coherentEffect.Within (executeStep P) := by
  refine .bind (fun s => ?_) fun d => executeDecoded_coherent
  cases h : fetchDecode P s with
  | ok d t => exact .of_ok h fun hs => hs.of_control (fetchDecode_ok h).control_eq
  | error e t =>
    refine .of_error h fun hs => ⟨?_, fun _ _ => hs.of_control (fetchDecode_error_control h)⟩
    rcases fetchDecode_error h with ⟨-, rfl, -⟩ | ⟨-, hstop⟩
    · exact fun h => by cases h
    · exact hstop.mmuState

theorem GuestStep.coherent (h : GuestStep P s t) (hs : Coherent s) : Coherent t := by
  cases h with
  | instr h => exact executeStep_coherent.ok h hs
  | fault h => exact (executeStep_coherent.error h hs).2 _ rfl
  | cached h => exact executeDecoded_coherent.ok h hs
  | cachedFault h => exact (executeDecoded_coherent.error h hs).2 _ rfl
  | trap h => exact handleException_coherent.ok h hs
  | intr h => exact takeIntr_coherent.ok h hs
  | timer => exact hs.of_control (control_setCsr s _ rfl)
  | guide _ => exact hs.of_control rfl

theorem coherent_reset (P : Platform) (ram : Word → BitVec 8) :
    Coherent (Machine.reset P ram) := by
  have hprv : (Machine.reset P ram).mprv = false :=
    show (0xa <<< 32 : Word).getLsbD 17 = false by decide
  have hmode : ∀ b, (Machine.reset P ram).accessMode b = .M := by
    intro b
    unfold Machine.accessMode
    rw [hprv]
    rfl
  have hmmu : ∀ b, (Machine.reset P ram).mmuState b = .direct := by
    intro b
    unfold Machine.mmuState
    rw [hmode, if_neg (fun h => absurd h.1 (by decide))]
  refine ⟨⟨fun h => absurd rfl h, .inl ?_, ?_⟩, (hmmu true).symm, (hmmu false).symm⟩
  · show (0 : Word).extractLsb' 60 4 = 0
    decide
  · show (0 : BitVec 32) = ((0 : Word).extractLsb' 5 3).setWidth 32
    decide

theorem Reachable.coherent (h : Reachable P s) : Coherent s := by
  obtain ⟨ram, hsteps⟩ := h
  induction hsteps with
  | refl => exact coherent_reset P ram
  | tail _ hstep ih => exact hstep.coherent ih

/-- Outside machine mode MPRV is clear, and data accesses are made in the current mode. -/
theorem mprv_confined (h : Reachable P s) (hm : s.mode ≠ .M) :
    s.mprv = false ∧ s.accessMode false = s.mode := by
  have hprv := h.coherent.mprv hm
  refine ⟨hprv, ?_⟩
  unfold Machine.accessMode
  rw [hprv]
  rfl

theorem reachable_mret :
    ∃ s, Reachable (Platform.bare .standalone) s ∧ s.mode = .U := by
  refine ⟨_, ⟨program 0x80100000 [0x30200073], .tail .refl (.instr rfl)⟩, ?_⟩
  rfl

theorem mprv_confined_mret :
    ∃ s, Reachable (Platform.bare .standalone) s ∧ s.mode ≠ .M ∧ s.mprv = false ∧
      s.accessMode false = s.mode := by
  obtain ⟨s, hs, hm⟩ := reachable_mret
  have hne : s.mode ≠ .M := by
    rw [hm]
    decide
  exact ⟨s, hs, hne, mprv_confined hs hne⟩

/-- The cached MMU modes are what `update_mmu_state_internal` would compute anew. -/
theorem mmu_cache_current (h : Reachable P s) :
    updateMmuStateInternal true s = .ok s.ifetchMmuState s ∧
      updateMmuStateInternal false s = .ok s.dataMmuState s := by
  have hc := h.coherent
  rw [updateMmuStateInternal_legal hc.satp, updateMmuStateInternal_legal hc.satp, ← hc.ifetch,
    ← hc.data]
  exact ⟨rfl, rfl⟩

theorem mmu_cache_current_mret :
    ∃ s, Reachable (Platform.bare .standalone) s ∧ s.mode = .U ∧
      updateMmuStateInternal true s = .ok s.ifetchMmuState s ∧
      updateMmuStateInternal false s = .ok s.dataMmuState s := by
  obtain ⟨s, hs, hm⟩ := reachable_mret
  exact ⟨s, hs, hm, mmu_cache_current hs⟩

end Nemu
