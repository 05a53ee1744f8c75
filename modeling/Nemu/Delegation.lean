import Nemu.CsrWrites
import Nemu.Loop

namespace Nemu

open Effect

set_option autoImplicit true

def Included (a b : Word) : Prop := ∀ i, a.getLsbD i = true → b.getLsbD i = true

/-- What S-mode delegates to U-mode has been delegated to S-mode. -/
structure Nested (s : Machine) : Prop where
  exceptions : Included (s.csr .sedeleg) (s.csr .medeleg)
  interrupts : Included (s.csr .sideleg) (s.csr .mideleg)

/-- The causes of traps. -/
inductive Cause (P : Platform) : Word → Prop where
  | exception : (isDasicsCause ex = true → P.dasics = true) → Cause P ex.code
  | interrupt : irq ∈ irqPriority → Cause P (intrNo irq)

/-- M-mode has delegated the cause to S-mode. -/
def Delegated (s : Machine) (no : Word) : Prop :=
  (if no &&& intrBit ≠ 0 then s.csr .mideleg else s.csr .medeleg).getLsbD (no &&& 0x3f).toNat = true

/-- The delegation registers are nested, and no trap that a state takes with them reaches U-mode
without a delegation by M-mode. -/
structure DelegationSafe (P : Platform) (s : Machine) : Prop where
  nested : Nested s
  traps : ∀ t no, (∀ c, delegCsr c = true → t.csr c = s.csr c) → Cause P no →
    trapLevel P t no = .U → Delegated t no

/-- The write does not take back from S-mode what S-mode has delegated further. -/
structure KeepsDelegation (s : Machine) (w : CsrWrite) : Prop where
  exceptions : w.csr = .medeleg → Included (s.csr .sedeleg) w.value
  interrupts : w.csr = .mideleg → Included (s.csr .sideleg) w.value

variable {P : Platform} {s t : Machine} {w : CsrWrite} {ex : Exc}

section Traps

theorem exc_isExc (ex : Exc) : ex.code &&& intrBit = 0 := by
  cases ex <;> decide

theorem exc_bitU (ex : Exc) (h : isDasicsCause ex = true → P.dasics = true) :
    (1#32 <<< (ex.code &&& (if P.dasics then 0x1f else 0xf : Word))).signExtend 64 =
      1#64 <<< ex.code.toNat := by
  cases hP : P.dasics with
  | true => cases ex <;> decide
  | false =>
    rw [hP] at h
    revert h
    cases ex <;> decide

theorem intrDelegU_exc (h : isDasicsCause ex = true → P.dasics = true) :
    intrDelegU P s ex.code = ((s.csr .sedeleg).getLsbD ex.code.toNat && decide (s.mode = .U)) := by
  have hlt : ex.code.toNat < 64 := by cases ex <;> decide
  unfold intrDelegU
  dsimp only
  rw [if_neg (not_not.mpr (exc_isExc ex)), exc_bitU ex h, ← BitField.and_bit_ne_zero _ _ hlt]

theorem intrDelegU_of_trapLevel (h : trapLevel P s no = .U) : intrDelegU P s no = true := by
  unfold trapLevel at h
  split at h
  · next hu =>
    simp only [Bool.and_eq_true] at hu
    exact hu.2
  · split at h <;> cases h

theorem intrNo_low (h : irq ∈ irqPriority) : (intrNo irq &&& 0x3f).toNat = irq := by
  revert irq
  decide

theorem Nested.delegated (h : Nested s) (hc : Cause P no) (hl : trapLevel P s no = .U) :
    Delegated s no := by
  have hu := intrDelegU_of_trapLevel hl
  unfold Delegated
  cases hc with
  | @exception ex hd =>
    have hbit : (ex.code &&& 0x3f).toNat = ex.code.toNat := by cases ex <;> rfl
    rw [intrDelegU_exc hd, Bool.and_eq_true] at hu
    rw [if_neg (not_not.mpr (exc_isExc ex)), hbit]
    exact h.exceptions _ hu.1
  | @interrupt irq hi =>
    have hbit := intrNo_low hi
    rw [intrDelegU_intrNo P s hi, Bool.and_eq_true] at hu
    rw [if_pos (intrNo_isIntr hi), hbit]
    exact h.interrupts _ hu.1

theorem Nested.safe (h : Nested s) : DelegationSafe P s where
  nested := h
  traps t no hsame hc hl := by
    have ht : Nested t := by
      constructor
      · rw [hsame .sedeleg rfl, hsame .medeleg rfl]
        exact h.exceptions
      · rw [hsame .sideleg rfl, hsame .mideleg rfl]
        exact h.interrupts
    exact ht.delegated hc hl

end Traps

section Writes

/-- The causes that can be delegated to S-mode at all. -/
def medelegMask (P : Platform) : Word := if P.dasics then 0xb3ff ||| 0x3000000 else 0xb3ff

def midelegMask (P : Platform) : Word := if P.rvn then 0x333 else 0x222

/-- What writes that keep the delegations preserve. -/
structure DelegationInv (P : Platform) (s : Machine) : Prop where
  nested : Nested s
  medeleg : Included (s.csr .medeleg) (medelegMask P)
  mideleg : Included (s.csr .mideleg) (midelegMask P)

theorem included_and_left (a b : Word) : Included (a &&& b) a := by
  intro i h
  rw [BitVec.getLsbD_and, Bool.and_eq_true] at h
  exact h.1

theorem included_and_right (a b : Word) : Included (a &&& b) b := by
  intro i h
  rw [BitVec.getLsbD_and, Bool.and_eq_true] at h
  exact h.2

theorem included_and (h1 : Included c a) (h2 : Included c b) : Included c (a &&& b) := by
  intro i h
  rw [BitVec.getLsbD_and, h1 i h, h2 i h]
  rfl

theorem Included.trans (h1 : Included a b) (h2 : Included b c) : Included a c :=
  fun i h => h2 i (h1 i h)

def delegValue (P : Platform) (s : Machine) (x : Word) : Csr → Word
  | .medeleg => x &&& medelegMask P
  | .mideleg => x &&& midelegMask P
  | .sedeleg => x &&& s.csr .medeleg
  | .sideleg => x &&& s.csr .mideleg
  | _ => x

theorem deleg_target (hc : delegCsr c = true) (h : c ∈ csrTargets c') : c' = c := by
  revert hc
  cases c' <;> simp only [csrTargets, List.mem_cons, List.not_mem_nil, or_false] at h <;>
    rcases h with rfl | rfl | rfl <;> intro hc <;> first | rfl | cases hc

/-- A delegation register changes only by a write to it. -/
theorem csrAssigned_deleg (hc : delegCsr c = true) :
    (csrAssigned P s w).csr c = if w.csr = c then delegValue P s w.value c else s.csr c := by
  by_cases h : w.csr = c
  · subst h
    have hlegal : csrWriteIllegal P s w.csr = false := by
      revert hc
      cases w.csr <;> intro hc <;> first | rfl | cases hc
    have hstore : csrStore P s w.csr w.value =
        s.setCsr w.csr (delegValue P s w.value w.csr) := by
      revert hc
      cases w.csr <;> intro hc <;> first | rfl | cases hc
    unfold csrAssigned
    rw [hlegal, if_neg (by decide), if_pos rfl, hstore]
    exact Machine.setCsr_csr_self _ _ _
  · rw [if_neg h]
    exact csrAssigned_frame fun hmem => h (deleg_target hc hmem)

theorem WriteStep.deleg_eq (h : WriteStep P s w t) (hc : delegCsr c = true) :
    t.csr c = if w.csr = c then delegValue P s w.value c else s.csr c := by
  have hne : c ≠ .mstatus := by
    rintro rfl
    cases hc
  rw [h.csr_eq hne, csrAssigned_deleg hc]

theorem nested_write {m e mask v : Word} (p q : Prop) [Decidable p] [Decidable q]
    (hpq : p → ¬ q) (hkeep : p → Included e v) (he : Included e m) (hm : Included m mask) :
    Included (if q then v &&& m else e) (if p then v &&& mask else m) ∧
      Included (if p then v &&& mask else m) mask := by
  by_cases hp : p
  · rw [if_pos hp, if_neg (hpq hp)]
    exact ⟨included_and (hkeep hp) (he.trans hm), included_and_right v mask⟩
  · rw [if_neg hp]
    refine ⟨?_, hm⟩
    split
    · exact included_and_right v m
    · exact he

theorem WriteStep.delegation (h : WriteStep P s w t) (hk : KeepsDelegation s w)
    (hs : DelegationInv P s) : DelegationInv P t := by
  have he := nested_write (w.csr = .medeleg) (w.csr = .sedeleg)
    (fun h h' => by rw [h] at h'; cases h') hk.exceptions hs.nested.exceptions hs.medeleg
  have hi := nested_write (w.csr = .mideleg) (w.csr = .sideleg)
    (fun h h' => by rw [h] at h'; cases h') hk.interrupts hs.nested.interrupts hs.mideleg
  refine ⟨⟨?_, ?_⟩, ?_, ?_⟩
  · rw [h.deleg_eq (c := .sedeleg) rfl, h.deleg_eq (c := .medeleg) rfl]
    exact he.1
  · rw [h.deleg_eq (c := .sideleg) rfl, h.deleg_eq (c := .mideleg) rfl]
    exact hi.1
  · rw [h.deleg_eq (c := .medeleg) rfl]
    exact he.2
  · rw [h.deleg_eq (c := .mideleg) rfl]
    exact hi.2

/-- A write after which the registers are nested has kept the delegations. -/
theorem WriteStep.keeps (h : WriteStep P s w t) (ht : Nested t) : KeepsDelegation s w where
  exceptions hw := by
    have h1 := ht.exceptions
    rw [h.deleg_eq (c := .sedeleg) rfl, h.deleg_eq (c := .medeleg) rfl, hw] at h1
    exact h1.trans (included_and_left _ _)
  interrupts hw := by
    have h1 := ht.interrupts
    rw [h.deleg_eq (c := .sideleg) rfl, h.deleg_eq (c := .mideleg) rfl, hw] at h1
    exact h1.trans (included_and_left _ _)

theorem delegationInv_reset (P : Platform) (ram : Word → BitVec 8) :
    DelegationInv P (Machine.reset P ram) := by
  have h0 : ∀ b : Word, Included 0 b := fun b i h => by simp at h
  exact ⟨⟨h0 _, h0 _⟩, h0 _, h0 _⟩

end Writes

/-- From reset on, the delegation registers stay nested, and traps reach U-mode only by way of
S-mode, in just the runs of register writes that keep the delegations. -/
theorem delegation_nested_iff (P : Platform) (ram : Word → BitVec 8)
    (h : Run (WriteStep P) (Machine.reset P ram) tr t) :
    DelegationSafe P (Machine.reset P ram) ∧
      ((∀ x ∈ tr, DelegationSafe P x.target) ↔ ∀ x ∈ tr, KeepsDelegation x.source x.label) := by
  refine ⟨(delegationInv_reset P ram).nested.safe, ?_, ?_⟩
  · intro hsafe x hx
    exact (h.step_of_mem hx).keeps (hsafe x hx).nested
  · intro hkeep x hx
    have hinv := h.invariant_mem hkeep (delegationInv_reset P ram)
      fun x hk hstep hs => hstep.delegation hk hs
    exact (hinv x hx).2.nested.safe

/-- S-mode passes on the environment calls that it has been given. -/
theorem delegation_nested_ecall :
    ∃ tr t, Run (WriteStep (Platform.bare .standalone))
        (Machine.reset (Platform.bare .standalone) fun _ => 0) tr t ∧
      t.csr .sedeleg = 0x100 ∧ ∀ x ∈ tr, DelegationSafe (Platform.bare .standalone) x.target := by
  have hrun : ∃ s t, Run (WriteStep (Platform.bare .standalone))
      (Machine.reset (Platform.bare .standalone) fun _ => 0)
      [⟨_, ⟨.medeleg, 0x100⟩, s⟩, ⟨s, ⟨.sedeleg, 0x100⟩, t⟩] t ∧ t.csr .sedeleg = 0x100 :=
    ⟨_, _, .cons rfl (.cons rfl .nil), rfl⟩
  obtain ⟨s, t, hrun, ht⟩ := hrun
  refine ⟨_, t, hrun, ht, (delegation_nested_iff _ _ hrun).2.mpr ?_⟩
  intro x hx
  simp only [List.mem_cons, List.not_mem_nil, or_false] at hx
  obtain rfl | rfl := hx
  · refine ⟨fun _ i h => ?_, (fun h => by cases h)⟩
    exact absurd h (by simp [Machine.reset, resetCsr])
  · exact ⟨(fun h => by cases h), (fun h => by cases h)⟩

/-- M-mode takes back the environment calls, which still go to U-mode. -/
theorem delegation_outlives_medeleg :
    ∃ tr t u, Run (WriteStep (Platform.bare .standalone))
        (Machine.reset (Platform.bare .standalone) fun _ => 0) tr t ∧
      (∀ x ∈ tr, delegCsr x.label.csr = true) ∧ ¬ Nested t ∧ u.csr = t.csr ∧
      trapLevel (Platform.bare .standalone) u Exc.ECU.code = .U ∧ ¬ Delegated u Exc.ECU.code := by
  have hrun : ∃ s s' t, Run (WriteStep (Platform.bare .standalone))
      (Machine.reset (Platform.bare .standalone) fun _ => 0)
      [⟨_, ⟨.medeleg, 0x100⟩, s⟩, ⟨s, ⟨.sedeleg, 0x100⟩, s'⟩, ⟨s', ⟨.medeleg, 0⟩, t⟩] t ∧
      t.csr .sedeleg = 0x100 ∧ t.csr .medeleg = 0 ∧
      trapLevel (Platform.bare .standalone) { t with mode := .U } Exc.ECU.code = .U :=
    ⟨_, _, _, .cons rfl (.cons rfl (.cons rfl .nil)), rfl, rfl, rfl⟩
  obtain ⟨s, s', t, hrun, hsedeleg, hmedeleg, hlevel⟩ := hrun
  refine ⟨_, t, { t with mode := .U }, hrun, ?_, fun h => ?_, rfl, hlevel, fun h => ?_⟩
  · intro x hx
    simp only [List.mem_cons, List.not_mem_nil, or_false] at hx
    obtain rfl | rfl | rfl := hx <;> rfl
  · have h8 := h.exceptions 8 (by rw [hsedeleg]; decide)
    rw [hmedeleg] at h8
    exact absurd h8 (by decide)
  · change (t.csr .medeleg).getLsbD 8 = true at h
    rw [hmedeleg] at h
    exact absurd h (by decide)

end Nemu
