import Nemu.Intr
import Nemu.Reset

namespace Nemu

open Effect

set_option autoImplicit true

/-- A state without its cached MMU modes. -/
def Machine.eraseMmu (s : Machine) : Machine :=
  { s with ifetchMmuState := .direct, dataMmuState := .direct }

theorem updateMmuStateInternal_state (ifetch : Bool) :
    (keep Stop (id : Machine → Machine)).Within (updateMmuStateInternal ifetch) := by
  apply Within.bind_get
  intro s
  split
  · refine At.bind ?_ fun _ t _ => ?_
    · unfold assert
      split
      · exact Within.ret _ _ s
      · exact At.raise rfl
    · split
      · exact Within.ret _ _ t
      · exact Within.ret _ _ t
  · exact Within.ret _ _ s

theorem updateMmuStateInternal_erase (ifetch : Bool) :
    (keep Stop Machine.eraseMmu).Within (updateMmuStateInternal ifetch) := by
  intro s
  rw [keep_iff]
  exact congrArg Machine.eraseMmu ((updateMmuStateInternal_state ifetch).final_eq s)

theorem updateMmuState_erase : (keep Stop Machine.eraseMmu).Within updateMmuState := by
  refine .bind (updateMmuStateInternal_erase true) fun i => ?_
  refine .bind (.update fun _ => rfl) fun _ => ?_
  refine .bind (updateMmuStateInternal_erase false) fun d => ?_
  exact .update fun _ => rfl

/-- Taking a trap leaves `trapEntry`, with refreshed MMU modes, also when the refresh asserts. -/
theorem raiseIntr_final (P : Platform) (no epc : Word) (s : Machine) :
    (final (raiseIntr P no epc) s).eraseMmu = (trapEntry P no epc s).eraseMmu := by
  have h : final (raiseIntr P no epc) s = final updateMmuState (trapEntry P no epc s) := by
    unfold final
    rw [raiseIntr_eq]
    cases hu : updateMmuState (trapEntry P no epc s) with
    | ok a t => simp only [bind_ok hu]; rfl
    | error e t => simp only [bind_error hu]
  rw [h]
  exact updateMmuState_erase.final_eq _

theorem raiseIntr_final_csr (P : Platform) (no epc : Word) (s : Machine) :
    (final (raiseIntr P no epc) s).csr = (trapEntry P no epc s).csr := by
  simpa only [Machine.eraseMmu] using congrArg Machine.csr (raiseIntr_final P no epc s)

theorem raiseIntr_final_mode (P : Platform) (no epc : Word) (s : Machine) :
    (final (raiseIntr P no epc) s).mode = (trapLevel P s no).mode := by
  have h := congrArg Machine.mode (raiseIntr_final P no epc s)
  simpa only [Machine.eraseMmu, trapEntry] using h

theorem trapEntry_cause (P : Platform) (no epc : Word) (s : Machine) :
    (trapEntry P no epc s).csr (trapLevel P s no).cause = no := by
  unfold trapEntry
  cases trapLevel P s no <;> cases keepsTval P no <;>
    simp [Machine.setCsr, Level.cause, Level.epc, Level.tval]

theorem trapEntry_epc (P : Platform) (no epc : Word) (s : Machine) :
    (trapEntry P no epc s).csr (trapLevel P s no).epc = epc := by
  unfold trapEntry
  cases trapLevel P s no <;> cases keepsTval P no <;>
    simp [Machine.setCsr, Level.cause, Level.epc, Level.tval]

theorem trapEntry_tval (P : Platform) (no epc : Word) (s : Machine) :
    (trapEntry P no epc s).csr (trapLevel P s no).tval =
      if keepsTval P no then s.csr (trapLevel P s no).tval else 0 := by
  unfold trapEntry
  cases trapLevel P s no <;> cases keepsTval P no <;>
    simp [Machine.setCsr, Level.cause, Level.epc, Level.tval]

theorem trapEntry_mstatus (P : Platform) (no epc : Word) (s : Machine) :
    (trapEntry P no epc s).csr .mstatus =
      pushStatus (trapLevel P s no) s.mode (s.csr .mstatus) := by
  unfold trapEntry
  cases trapLevel P s no <;> cases keepsTval P no <;>
    simp [Machine.setCsr, Level.cause, Level.epc, Level.tval]

/-- The CSRs that a trap to level `l` may write. -/
def Level.writes (l : Level) (c : Csr) : Bool :=
  c = l.cause || c = l.epc || c = l.tval || c = .mstatus

theorem trapEntry_csr (P : Platform) (no epc : Word) (s : Machine)
    (h : (trapLevel P s no).writes c = false) : (trapEntry P no epc s).csr c = s.csr c := by
  simp only [Level.writes, Bool.or_eq_false_iff, decide_eq_false_iff_not] at h
  unfold trapEntry
  cases keepsTval P no <;> simp [Machine.setCsr, h]

/-- The CSRs that decide which level a trap enters. -/
def delegCsr : Csr → Bool
  | .mideleg | .medeleg | .sideleg | .sedeleg => true
  | _ => false

theorem trapLevel_congr (hm : t.mode = s.mode) (hc : ∀ c, delegCsr c = true → t.csr c = s.csr c) :
    trapLevel P t no = trapLevel P s no := by
  unfold trapLevel intrDelegU intrDelegS
  rw [hm, hc .mideleg rfl, hc .medeleg rfl, hc .sideleg rfl, hc .sedeleg rfl]

/-- `raise_intr(no, epc)` enters the level `l`, whatever `epc` is. -/
def Enters (P : Platform) (s : Machine) (no : Word) (l : Level) : Prop :=
  ∀ epc, (final (raiseIntr P no epc) s).mode = l.mode ∧
    (final (raiseIntr P no epc) s).csr l.cause = no ∧
    (final (raiseIntr P no epc) s).csr l.epc = epc

theorem enters_trapLevel (P : Platform) (s : Machine) (no : Word) :
    Enters P s no (trapLevel P s no) := by
  intro epc
  rw [raiseIntr_final_csr]
  exact ⟨raiseIntr_final_mode P no epc s, trapEntry_cause P no epc s, trapEntry_epc P no epc s⟩

theorem Level.mode_injective : Function.Injective Level.mode := by
  intro a b h
  cases a <;> cases b <;> first | rfl | cases h

theorem Enters.eq_trapLevel (h : Enters P s no l) : l = trapLevel P s no :=
  Level.mode_injective ((h 0).1.symm.trans (raiseIntr_final_mode P no 0 s))

def intrNo (irq : Nat) : Word := BitVec.ofNat 64 irq ||| intrBit

theorem intrNo_ne_empty (h : irq ∈ irqPriority) : intrNo irq ≠ intrEmpty := by
  revert irq
  decide

/-- The interrupt is delegated to a level below the current mode, where it has to wait. -/
def HeldBelow (P : Platform) (s : Machine) (irq : Nat) : Prop :=
  (queryLevel P s irq).mode < s.mode

section Delegation

variable (P : Platform) (s : Machine)

theorem intrNo_isIntr (h : irq ∈ irqPriority) : intrNo irq &&& intrBit ≠ 0 := by
  revert irq
  decide

theorem intrNo_bitS (h : irq ∈ irqPriority) : (1 : Word) <<< (intrNo irq &&& 0x3f) = 1#64 <<< irq := by
  revert irq
  decide

theorem intrNo_bitU (h : irq ∈ irqPriority) (dasics : Bool) :
    (1#32 <<< (intrNo irq &&& (if dasics then 0x1f else 0xf : Word))).signExtend 64 =
      1#64 <<< irq := by
  revert irq dasics
  decide

theorem irq_lt (h : irq ∈ irqPriority) : irq < 64 := by
  revert irq
  decide

theorem intrDelegS_intrNo (h : irq ∈ irqPriority) :
    intrDelegS s (intrNo irq) = ((s.csr .mideleg).getLsbD irq && decide (s.mode < .M)) := by
  unfold intrDelegS
  simp only [if_pos (intrNo_isIntr h), intrNo_bitS h]
  rw [← BitField.and_bit_ne_zero _ irq (irq_lt h)]

theorem intrDelegU_intrNo (h : irq ∈ irqPriority) :
    intrDelegU P s (intrNo irq) = ((s.csr .sideleg).getLsbD irq && decide (s.mode = .U)) := by
  unfold intrDelegU
  simp only [if_pos (intrNo_isIntr h), intrNo_bitU h]
  rw [← BitField.and_bit_ne_zero _ irq (irq_lt h)]

theorem trapLevel_intrNo (h : irq ∈ irqPriority) :
    trapLevel P s (intrNo irq) =
      if (P.rvn && (s.csr .sideleg).getLsbD irq) ∧ s.mode = .U then .U
      else if (s.csr .mideleg).getLsbD irq ∧ s.mode < .M then .S else .M := by
  unfold trapLevel
  rw [intrDelegU_intrNo P s h, intrDelegS_intrNo s h]
  simp only [← Bool.and_assoc, Bool.and_eq_true, decide_eq_true_eq]

/-- The two computations of the target agree on interrupts that are not held. -/
theorem trapLevel_eq_queryLevel (h : irq ∈ irqPriority) (hh : ¬ HeldBelow P s irq) :
    trapLevel P s (intrNo irq) = queryLevel P s irq := by
  rw [trapLevel_intrNo P s h]
  unfold HeldBelow at hh
  unfold queryLevel at hh ⊢
  by_cases hu : (P.rvn && (s.csr .sideleg).getLsbD irq) = true
  · rw [if_pos hu] at hh ⊢
    have hmode : s.mode = .U := by
      revert hh
      cases s.mode <;> decide
    rw [if_pos ⟨hu, hmode⟩]
  · rw [if_neg hu] at hh ⊢
    rw [if_neg (fun h => hu h.1)]
    by_cases hd : (s.csr .mideleg).getLsbD irq = true
    · rw [if_pos hd] at hh ⊢
      have hmode : s.mode < .M := by
        revert hh
        cases s.mode <;> decide
      rw [if_pos ⟨hd, hmode⟩]
    · rw [if_neg hd, if_neg (fun h => hd h.1)]

/-- The level is above the current mode, or is the current mode with its interrupts on. -/
def Takes (s : Machine) (l : Level) : Prop :=
  s.mode < l.mode ∨ (l.mode = s.mode ∧ (s.csr .mstatus).getLsbD l.ie = true)

theorem takes_of_globalEnable (h : globalEnable s l = true) : Takes s l := by
  cases l with
  | U =>
    simp only [globalEnable, Bool.and_eq_true, decide_eq_true_eq] at h
    exact .inr ⟨h.1.symm, h.2⟩
  | S =>
    simp only [globalEnable, Bool.or_eq_true, Bool.and_eq_true, decide_eq_true_eq] at h
    rcases h with h | h
    · exact .inr ⟨h.1.symm, h.2⟩
    · exact .inl h
  | M =>
    simp only [globalEnable, Bool.or_eq_true, Bool.and_eq_true, decide_eq_true_eq] at h
    rcases h with h | h
    · exact .inr ⟨h.1.symm, h.2⟩
    · exact .inl h

theorem globalEnable_of_takes (h : Takes s l) : globalEnable s l = true := by
  cases l with
  | U =>
    rcases h with h | ⟨hm, hie⟩
    · exact absurd h (Nat.not_lt_zero _)
    · simpa only [globalEnable, Bool.and_eq_true, decide_eq_true_eq] using ⟨hm.symm, hie⟩
  | S =>
    simp only [globalEnable, Bool.or_eq_true, Bool.and_eq_true, decide_eq_true_eq]
    rcases h with h | ⟨hm, hie⟩
    · exact .inr h
    · exact .inl ⟨hm.symm, hie⟩
  | M =>
    simp only [globalEnable, Bool.or_eq_true, Bool.and_eq_true, decide_eq_true_eq]
    rcases h with h | ⟨hm, hie⟩
    · exact .inr h
    · exact .inl ⟨hm.symm, hie⟩

theorem not_heldBelow_of_takes (h : Takes s (queryLevel P s irq)) : ¬ HeldBelow P s irq := by
  intro hh
  rcases h with h | h
  · exact Nat.lt_asymm h hh
  · unfold HeldBelow at hh
    rw [h.1] at hh
    exact Nat.lt_irrefl _ hh

end Delegation

theorem trapLevel_U (h : trapLevel P s no = .U) : s.mode = .U := by
  unfold trapLevel at h
  split at h
  · next hu =>
    simp only [intrDelegU, Bool.and_eq_true, decide_eq_true_eq] at hu
    exact hu.2.2
  · split at h <;> cases h

theorem trapLevel_S (h : trapLevel P s no = .S) : s.mode < .M := by
  unfold trapLevel at h
  split at h
  · cases h
  · split at h
    · next hs =>
      simp only [intrDelegS, Bool.and_eq_true, decide_eq_true_eq] at hs
      exact hs.2
    · cases h

theorem trapLevel_mode_ge (P : Platform) (s : Machine) (hm : s.mode ≠ .H) (no : Word) :
    s.mode ≤ (trapLevel P s no).mode := by
  cases hl : trapLevel P s no with
  | U =>
    rw [trapLevel_U hl]
    decide
  | S =>
    have hlt := trapLevel_S hl
    revert hm hlt
    cases s.mode <;> decide
  | M =>
    cases s.mode <;> decide

theorem isaQueryIntr_eq (P : Platform) (s : Machine) :
    isaQueryIntr P s =
      match irqPriority.find? fun irq => s.pending irq && globalEnable s (queryLevel P s irq) with
      | some irq => intrNo irq
      | none => intrEmpty := by
  unfold isaQueryIntr
  split
  · next h =>
    have hn : (irqPriority.find? fun irq =>
        s.pending irq && globalEnable s (queryLevel P s irq)) = none := by
      rw [List.find?_eq_none]
      intro irq _
      simp [Machine.pending, h]
    rw [hn]
  · rfl

theorem isaQueryIntr_spec (h : isaQueryIntr P s ≠ intrEmpty) :
    ∃ irq ∈ irqPriority, isaQueryIntr P s = intrNo irq ∧ s.pending irq = true ∧
      globalEnable s (queryLevel P s irq) = true := by
  rw [isaQueryIntr_eq] at h ⊢
  split at h
  · next irq hf =>
    have hp := List.find?_some hf
    rw [Bool.and_eq_true] at hp
    exact ⟨irq, List.mem_of_find?_eq_some hf, rfl, hp.1, hp.2⟩
  · exact absurd rfl h

theorem isaQueryIntr_empty (P : Platform) (s : Machine) :
    isaQueryIntr P s = intrEmpty ↔
      ∀ irq ∈ irqPriority, s.pending irq = true → globalEnable s (queryLevel P s irq) = false := by
  rw [isaQueryIntr_eq]
  constructor
  · intro h irq hirq hp
    split at h
    · next i hf => exact absurd h (intrNo_ne_empty (List.mem_of_find?_eq_some hf))
    · next hf =>
      have := List.find?_eq_none.mp hf irq hirq
      simpa [hp] using this
  · intro h
    have hn : (irqPriority.find? fun irq =>
        s.pending irq && globalEnable s (queryLevel P s irq)) = none := by
      rw [List.find?_eq_none]
      intro irq hirq hb
      rw [Bool.and_eq_true] at hb
      rw [h irq hirq hb.1] at hb
      cases hb.2
    rw [hn]

/-- `isa_query_intr` and `raise_intr` agree on the target of an interrupt, no trap lowers the
privilege, and `isa_query_intr` answers that there is nothing to do exactly when every pending
interrupt is held for a lower level or has a target that is not enabled. -/
theorem trap_target_agreement (P : Platform) (s : Machine) (hm : s.mode ≠ .H) :
    (∀ c, isaQueryIntr P s = c → c ≠ intrEmpty →
      ∃ irq ∈ irqPriority, c = intrNo irq ∧ s.pending irq = true ∧
        globalEnable s (queryLevel P s irq) = true ∧ Enters P s c (queryLevel P s irq) ∧
        ((queryLevel P s irq).mode = s.mode →
          (s.csr .mstatus).getLsbD (queryLevel P s irq).ie = true)) ∧
    (∀ no epc, s.mode ≤ (final (raiseIntr P no epc) s).mode) ∧
    (isaQueryIntr P s = intrEmpty ↔
      ∀ irq ∈ irqPriority, s.pending irq = true → ¬ HeldBelow P s irq →
        ∀ l, Enters P s (intrNo irq) l → ¬ Takes s l) := by
  refine ⟨?_, ?_, ?_⟩
  · intro c hc hne
    subst hc
    obtain ⟨irq, hirq, hc, hp, hg⟩ := isaQueryIntr_spec hne
    have ht := takes_of_globalEnable s hg
    have hl := trapLevel_eq_queryLevel P s hirq (not_heldBelow_of_takes P s ht)
    have he : Enters P s (intrNo irq) (queryLevel P s irq) := hl ▸ enters_trapLevel P s _
    refine ⟨irq, hirq, hc, hp, hg, hc ▸ he, ?_⟩
    intro hmode
    rcases ht with ht | ht
    · exact absurd (hmode ▸ ht) (Nat.lt_irrefl _)
    · exact ht.2
  · intro no epc
    rw [raiseIntr_final_mode]
    exact trapLevel_mode_ge P s hm no
  · rw [isaQueryIntr_empty]
    constructor
    · intro h irq hirq hp hh l hl ht
      rw [hl.eq_trapLevel, trapLevel_eq_queryLevel P s hirq hh] at ht
      have := globalEnable_of_takes s ht
      rw [h irq hirq hp] at this
      cases this
    · intro h irq hirq hp
      by_contra hg
      have ht := takes_of_globalEnable s (Bool.eq_true_of_not_eq_false hg)
      have hh := not_heldBelow_of_takes P s ht
      rw [← trapLevel_eq_queryLevel P s hirq hh] at ht
      exact h irq hirq hp hh _ (enters_trapLevel P s _) ht

/-- Supervisor mode with a machine timer interrupt pending and enabled. -/
def timerPending (P : Platform) : Machine :=
  { (((Machine.reset P fun _ => 0).setCsr .mie 0x80).setCsr .mip 0x80) with mode := .S }

theorem trap_target_timer :
    let P := Platform.bare .standalone
    isaQueryIntr P (timerPending P) = intrNo 7 ∧ (timerPending P).mode ≠ .H ∧
      ∃ irq ∈ irqPriority, intrNo 7 = intrNo irq ∧
        Enters P (timerPending P) (intrNo 7) (queryLevel P (timerPending P) irq) := by
  intro P
  have hq : isaQueryIntr P (timerPending P) = intrNo 7 := by decide
  have hm : (timerPending P).mode ≠ .H := by decide
  obtain ⟨irq, hirq, hc, -, -, he, -⟩ :=
    (trap_target_agreement P (timerPending P) hm).1 _ hq (by decide)
  exact ⟨hq, hm, irq, hirq, hc, he⟩

/-- Machine mode with its interrupts on, and a delegated software interrupt pending and enabled:
it is not taken, although `raise_intr` would take it to machine mode. -/
def delegatedPending (P : Platform) : Machine :=
  ((((Machine.reset P fun _ => 0).setCsr .mie 2).setCsr .mip 2).setCsr .mideleg 2).setCsr .mstatus 8

theorem query_empty_with_enabled_target :
    let P := Platform.bare .standalone
    let s := delegatedPending P
    s.mode = .M ∧ isaQueryIntr P s = intrEmpty ∧ 1 ∈ irqPriority ∧ s.pending 1 = true ∧
      Enters P s (intrNo 1) .M ∧ Level.M.mode = s.mode ∧
      (s.csr .mstatus).getLsbD Level.M.ie = true := by
  intro P s
  have hl : trapLevel P s (intrNo 1) = .M := by decide
  exact ⟨rfl, by decide, by decide, by decide, hl ▸ enters_trapLevel P s _, rfl, by decide⟩

end Nemu
