import Nemu.Formats
import Nemu.Reset

namespace Nemu

open Effect

set_option autoImplicit true

def IsEven (a : Word) : Prop := a.getLsbD 0 = false

instance (a : Word) : Decidable (IsEven a) := inferInstanceAs (Decidable (_ = _))

section Arithmetic

theorem isEven_iff (a : Word) : IsEven a ↔ a.toNat % 2 = 0 := by
  unfold IsEven BitVec.getLsbD
  rw [Nat.testBit_zero, decide_eq_false_iff_not]
  omega

theorem IsEven.add (ha : IsEven a) (hb : IsEven b) : IsEven (a + b) := by
  rw [isEven_iff] at ha hb ⊢
  rw [BitVec.toNat_add]
  omega

theorem isEven_clear (x : Word) : IsEven (x &&& ~~~1) := by
  unfold IsEven
  rw [BitVec.getLsbD_and, BitVec.getLsbD_not]
  simp

theorem isEven_shiftLeft (x : Word) (h : 0 < n) : IsEven (x <<< n) := by
  unfold IsEven
  rw [BitVec.getLsbD_shiftLeft, decide_eq_true h]
  simp

theorem getTrapPc_even (xtvec xcause : Word) : IsEven (getTrapPc xtvec xcause) := by
  unfold getTrapPc
  dsimp only
  split
  · exact (isEven_shiftLeft _ (by decide)).add (isEven_shiftLeft _ (by decide))
  · exact isEven_shiftLeft _ (by decide)

theorem EvenOffset.even (h : EvenOffset pc a) (hpc : IsEven pc) : IsEven a := by
  obtain ⟨o, ho, rfl⟩ := h
  exact hpc.add ho

end Arithmetic

/-- What the program counter is taken from. -/
structure EvenPc (s : Machine) : Prop where
  pc : IsEven s.pc
  decPc : IsEven s.decPc
  prevPc : IsEven s.prevPc
  epc : ∀ l : Level, IsEven (s.csr l.epc)
  unguided : s.guidedExec = false

/-- The register that a specialised indirect jump takes its target from is even; the reference clears
bit 0 by itself. -/
structure JumpEven (P : Platform) (d : Decode) (s : Machine) : Prop where
  ret : P.share = false → d.id = .p_ret → IsEven (s.gpr 1)
  reg : P.share = false → d.id = .c_jr ∨ d.id = .c_jalr → IsEven (s.readLoc d.src1.preg)

/-- The addresses in a decoded instruction. -/
structure EvenInstr (d : Decode) : Prop where
  pc : IsEven d.pc
  snpc : IsEven d.snpc
  direct : d.id.isDirect = true → IsEven d.src1.imm
  branch : d.id.cfiType = .branch → IsEven d.dest.imm
  link : d.id = .c_jalr → d.src1.preg ≠ .gpr 1

variable {P : Platform} {d : Decode} {s t : Machine}

section Views

theorem EvenPc.of_eq (h : EvenPc s) (hpc : t.pc = s.pc) (hdec : t.decPc = s.decPc)
    (hprev : t.prevPc = s.prevPc) (hepc : ∀ l : Level, t.csr l.epc = s.csr l.epc)
    (hg : t.guidedExec = s.guidedExec) : EvenPc t where
  pc := hpc ▸ h.pc
  decPc := hdec ▸ h.decPc
  prevPc := hprev ▸ h.prevPc
  epc l := (hepc l) ▸ h.epc l
  unguided := hg.trans h.unguided

theorem EvenPc.setCsr (h : EvenPc s) (c : Csr) (v : Word) (hc : ∀ l : Level, l.epc = c → IsEven v) :
    EvenPc (s.setCsr c v) where
  pc := h.pc
  decPc := h.decPc
  prevPc := h.prevPc
  epc l := by
    by_cases he : l.epc = c
    · rw [he, Machine.setCsr_csr_self]
      exact hc l he
    · rw [Machine.setCsr_csr_ne s v he]
      exact h.epc l
  unguided := h.unguided

theorem Level.epc_ne (l : Level) (hc : c ≠ .mepc ∧ c ≠ .sepc ∧ c ≠ .uepc) : l.epc ≠ c := by
  cases l with
  | U => exact hc.2.2.symm
  | S => exact hc.2.1.symm
  | M => exact hc.1.symm

theorem EvenPc.setOther (h : EvenPc s) (c : Csr) (v : Word) (hc : c ≠ .mepc ∧ c ≠ .sepc ∧ c ≠ .uepc) :
    EvenPc (s.setCsr c v) :=
  h.setCsr c v fun l he => absurd he (l.epc_ne hc)

theorem EvenPc.jump (h : EvenPc s) (ha : IsEven a) : EvenPc { s with pc := a } :=
  ⟨ha, h.decPc, h.prevPc, h.epc, h.unguided⟩

theorem EvenPc.mapMstatus (h : EvenPc s) (f : Word → Word) : EvenPc (s.mapMstatus f) :=
  h.setOther _ _ (by decide)

theorem EvenPc.withMode (h : EvenPc s) (m : Mode) : EvenPc { s with mode := m } :=
  ⟨h.pc, h.decPc, h.prevPc, h.epc, h.unguided⟩

theorem EvenPc.writeLoc (h : EvenPc s) (l : Loc) (v : Word) : EvenPc (s.writeLoc l v) := by
  cases l <;> exact ⟨h.pc, h.decPc, h.prevPc, h.epc, h.unguided⟩

theorem EvenPc.of_access (h : EvenPc s) (ha : t.eraseFault.eraseAccess = s.eraseFault.eraseAccess) :
    EvenPc t := by
  have hcsr := congrArg Machine.csr ha
  refine h.of_eq (congrArg Machine.pc ha :) (congrArg Machine.decPc ha :) (congrArg Machine.prevPc ha :)
    (fun l => ?_) (congrArg Machine.guidedExec ha :)
  cases l with
  | U => exact congrFun hcsr .uepc
  | S => exact congrFun hcsr .sepc
  | M => exact congrFun hcsr .mepc

theorem EvenPc.of_mmu (h : EvenPc s) (hm : t.eraseMmu = s.eraseMmu) : EvenPc t := by
  have hcsr := congrArg Machine.csr hm
  exact h.of_eq (congrArg Machine.pc hm :) (congrArg Machine.decPc hm :) (congrArg Machine.prevPc hm :)
    (fun l => congrFun hcsr l.epc) (congrArg Machine.guidedExec hm :)

theorem EvenPc.csrStore (h : EvenPc s) (c : Csr) (x : Word) : EvenPc (csrStore P s c x) := by
  by_cases hc : c = .mepc ∨ c = .sepc ∨ c = .uepc
  · obtain rfl | rfl | rfl := hc
    · exact h.setCsr _ _ fun _ _ => isEven_clear x
    · exact h.setCsr _ _ fun _ _ => isEven_clear x
    · exact h.setCsr _ _ fun _ _ => isEven_clear x
  · have hne : ∀ l : Level, l.epc ∉ csrTargets c := by
      intro l
      rw [not_or, not_or] at hc
      have hl := l.epc_ne hc
      cases c <;> cases l <;> simp_all [csrTargets, Level.epc]
    rw [csrStore_only]
    exact ⟨h.pc, h.decPc, h.prevPc, fun l => (csrStore_frame (hne l)).symm ▸ h.epc l, h.unguided⟩

theorem EvenPc.trapEntry (h : EvenPc s) (no : Word) (ha : IsEven a) :
    EvenPc (trapEntry P no a s) := by
  have hcsr : ∀ l : Level, IsEven ((Nemu.trapEntry P no a s).csr l.epc) := by
    intro l
    by_cases hl : l = trapLevel P s no
    · rw [hl, trapEntry_epc]
      exact ha
    · have hw : (trapLevel P s no).writes l.epc = false := by
        revert hl
        cases trapLevel P s no <;> cases l <;> decide
      rw [trapEntry_csr P no a s hw]
      exact h.epc l
  rw [trapEntry_only]
  exact ⟨h.pc, h.decPc, h.prevPc, hcsr, h.unguided⟩

theorem EvenPc.ticked (h : EvenPc s) : EvenPc (s.ticked P) := by
  unfold Machine.ticked utimerTick
  split
  · split
    · exact h.setOther _ _ (by decide)
    split
    · exact h.setOther _ _ (by decide)
    · exact h.setOther _ _ (by decide)
  · exact h

theorem JumpEven.of_regs (h : JumpEven P d s) (hr : ∀ l, t.readLoc l = s.readLoc l) : JumpEven P d t where
  ret hs hid := by
    have h1 : t.gpr 1 = s.gpr 1 := hr (.gpr 1)
    rw [h1]
    exact h.ret hs hid
  reg hs hid := by
    rw [hr]
    exact h.reg hs hid

theorem JumpEven.other (hret : d.id ≠ .p_ret) (hr : d.id ≠ .c_jr) (hl : d.id ≠ .c_jalr) : JumpEven P d s :=
  ⟨fun _ h => absurd h hret, fun _ h => (h.elim (absurd · hr) (absurd · hl))⟩

end Views

section Step

theorem GoesTo.even (h : GoesTo P d s a) (hd : EvenInstr d) (hs : EvenPc s) (hj : JumpEven P d s) :
    IsEven a := by
  have htarget : ∀ x : Word, (P.share = false → IsEven x) → IsEven (jumpTarget P x) := by
    intro x hx
    unfold jumpTarget
    split
    · exact isEven_clear x
    · next hshare => exact hx (Bool.eq_false_of_not_eq_true hshare)
  cases h with
  | direct hid =>
    apply hd.direct
    obtain h | h | h | h := hid <;> rw [h] <;> rfl
  | branch hid => exact hd.branch hid
  | next _ => exact hd.snpc
  | indirect x _ => exact isEven_clear x
  | ret hid => exact htarget _ fun hshare => hj.ret hshare hid
  | reg hid => exact htarget _ fun hshare => hj.reg hshare hid
  | trap xtvec xcause _ => exact getTrapPc_even xtvec xcause
  | epc l _ => exact hs.epc l
  | null _ => decide
  | guided hg =>
    rw [hs.unguided] at hg
    cases hg

theorem readLoc_setCsr (s : Machine) (c : Csr) (v : Word) (l : Loc) : (s.setCsr c v).readLoc l = s.readLoc l := by
  cases l <;> rfl

/-- Every change keeps the addresses even, and the registers that a jump depends on. -/
theorem Change.even (h : Change P d s t) (hd : EvenInstr d) (hs : EvenPc s) (hj : JumpEven P d s) :
    EvenPc t ∧ JumpEven P d t := by
  have hcsr : ∀ (u : Machine) (c : Csr) (v : Word), JumpEven P d u → JumpEven P d (u.setCsr c v) :=
    fun u c v hu => hu.of_regs fun l => readLoc_setCsr u c v l
  have hsys : ∀ {u : Machine}, d.id = .system → JumpEven P d u := fun hid =>
    .other (by rw [hid]; exact ExecId.noConfusion) (by rw [hid]; exact ExecId.noConfusion)
      (by rw [hid]; exact ExecId.noConfusion)
  cases h with
  | access h =>
    refine ⟨hs.of_access h, hj.of_regs fun l => ?_⟩
    cases l with
    | gpr r => exact congrFun (congrArg Machine.gpr h) r
    | fpr r => exact congrFun (congrArg Machine.fpr h) r
    | zeroNull => exact (congrArg Machine.zeroNull h :)
  | dest hw =>
    refine ⟨hs.writeLoc _ _, .other ?_ ?_ ?_⟩
    all_goals
      intro hid
      rw [hid] at hw
      cases hw
  | link hid =>
    refine ⟨hs.writeLoc _ _, ⟨fun _ h => ?_, fun hshare h => ?_⟩⟩
    · rw [h] at hid
      obtain hid | hid := hid <;> cases hid
    · have hlink : d.id = .c_jalr := by
        obtain h | h := h
        · rw [h] at hid
          obtain hid | hid := hid <;> cases hid
        · exact h
      rw [readLoc_writeLoc_ne s _ (hd.link hlink).symm]
      exact hj.reg hshare h
  | reserve h | release h | record h =>
    exact ⟨⟨hs.pc, hs.decPc, hs.prevPc, hs.epc, hs.unguided⟩, hj.of_regs fun l => by cases l <;> rfl⟩
  | dirty _ | mie _ | dretpc _ | sd _ | fpCsr _ _ =>
    exact ⟨hs.setOther _ _ (by decide), hcsr _ _ _ hj⟩
  | flags f _ =>
    exact ⟨(hs.setOther _ _ (by decide)).setOther _ _ (by decide), hcsr _ _ _ (hcsr _ _ _ hj)⟩
  | vreg _ => exact ⟨⟨hs.pc, hs.decPc, hs.prevPc, hs.epc, hs.unguided⟩, hj.of_regs fun l => by cases l <;> rfl⟩
  | vgpr hv _ =>
    refine ⟨hs.writeLoc _ _, .other ?_ ?_ ?_⟩
    all_goals
      intro hid
      rw [hid] at hv
      cases hv
  | vcsr c _ =>
    refine ⟨hs.setOther _ _ ?_, hcsr _ _ _ hj⟩
    cases c <;> decide
  | jump hg =>
    exact ⟨hs.jump (hg.even hd hs hj), hj.of_regs fun l => by cases l <;> rfl⟩
  | store hst _ => exact ⟨hs.csrStore _ _, hsys hst.id⟩
  | rm hid => exact ⟨⟨hs.pc, hs.decPc, hs.prevPc, hs.epc, hs.unguided⟩, hsys hid⟩
  | mmu hid h => exact ⟨hs.of_mmu h, hsys hid⟩
  | trap no hid => exact ⟨hs.trapEntry no hd.pc, hsys hid⟩
  | uret hid => exact ⟨((hs.mapMstatus _).withMode _).mapMstatus _, hsys hid⟩
  | sret hid => exact ⟨(((hs.mapMstatus _).withMode _).mapMstatus _).mapMstatus _, hsys hid⟩
  | mret hid => exact ⟨(((hs.mapMstatus _).withMode _).mapMstatus _).mapMstatus _, hsys hid⟩

theorem fetch_even (h : fetchDecode P s = .ok d u) (hs : EvenPc s) :
    EvenInstr d ∧ EvenPc (u.started d) := by
  have hf := fetchDecode_ok h
  obtain ⟨f, hpc, hform⟩ := fetchDecode_formed h
  have hd : IsEven d.pc := by
    rw [hf.at_pc.pc]
    exact hs.pc
  have hsnpc : IsEven d.snpc := by
    obtain hn | hn := hf.at_pc.snpc
    · rw [hn]
      exact hs.pc.add (by decide)
    · rw [hn]
      exact hs.pc.add (by decide)
  have hfpc : IsEven f.pc := by
    rw [hpc]
    exact hs.pc
  have hu : EvenPc u := by
    have hdec : EvenPc (s.decoded d) := ⟨hs.pc, hs.pc, hs.prevPc, hs.epc, hs.unguided⟩
    refine hdec.of_access ?_
    rw [← Machine.eraseFault_eraseAccess, hf.frame, Machine.eraseFault_eraseAccess]
  exact ⟨⟨hd, hsnpc, fun hi => (hform.direct hi).even hfpc, fun hb => (hform.branch hb).even hfpc,
    hform.link⟩, hsnpc, hu.decPc, hu.pc, hu.epc, hu.unguided⟩

theorem exec_even (hd : EvenInstr d) (hs : EvenPc s) (hj : JumpEven P d s) :
    EvenPc (final (exec P d) s) := by
  have h := reached_keeps (I := fun t => EvenPc t ∧ JumpEven P d t) (exec_reached P d s)
    (fun t u hc ht => hc.even hd ht.1 ht.2) ⟨hs, hj⟩
  exact h.1

theorem fetch_stop_even (h : fetchDecode P s = .error e t) (hs : EvenPc s) : EvenPc t := by
  have hdec : EvenPc { s with decPc := s.pc } := ⟨hs.pc, hs.pc, hs.prevPc, hs.epc, hs.unguided⟩
  obtain ⟨-, -, rfl⟩ | ⟨-, hstop⟩ := fetchDecode_error h
  · refine (hdec.setOther _ _ (by decide)).setOther _ _ ?_
    cases trapLevel P s (dasicsEx s.mode).code <;> decide
  · refine hdec.of_access ?_
    have h1 := hstop.frame
    rw [Machine.eraseFault_eraseAccess] at h1
    exact h1

theorem raiseIntr_even (h : raiseIntr P no a s = .ok pc t) (hs : EvenPc s) (ha : IsEven a) :
    EvenPc t ∧ IsEven pc := by
  have hfinal := raiseIntr_final P no a s
  rw [final_ok h] at hfinal
  refine ⟨(hs.trapEntry no ha).of_mmu hfinal, ?_⟩
  rw [raiseIntr_eq] at h
  obtain ⟨_, t1, -, h1⟩ := ok_of_bind h
  cases h1
  exact getTrapPc_even _ _

theorem handleException_even (h : handleException P f s = .ok () t) (hs : EvenPc s) : EvenPc t := by
  obtain ⟨_, _, hget, h1⟩ := ok_of_bind h
  cases hget
  obtain ⟨_, u, hm, h2⟩ := ok_of_bind h1
  cases hm
  obtain ⟨pc, v, hr, h3⟩ := ok_of_bind h2
  cases h3
  have hu : EvenPc (if isJumpFault P s f then { s with prevIsCfi := false, prevType := .none } else s) := by
    split
    · exact ⟨hs.pc, hs.decPc, hs.prevPc, hs.epc, hs.unguided⟩
    · exact hs
  obtain ⟨hv, hpc⟩ := raiseIntr_even hr hu (by split; exacts [hs.prevPc, hs.decPc])
  exact ⟨hpc, hv.decPc, hv.prevPc, hv.epc, hv.unguided⟩

theorem takeIntr_even (h : takeIntr P no s = .ok () t) (hs : EvenPc s) : EvenPc t := by
  obtain ⟨_, _, hget, h1⟩ := ok_of_bind h
  cases hget
  obtain ⟨pc, v, hr, h2⟩ := ok_of_bind h1
  cases h2
  obtain ⟨hv, hpc⟩ := raiseIntr_even hr hs hs.pc
  exact hv.jump hpc

theorem CpuStep.even {a b : Cpu} (h : CpuStep P a e b) (hs : EvenPc a.m)
    (hj : e.isAttempt → ∀ d u, fetchDecode P a.m = .ok d u → JumpEven P d (u.started d)) : EvenPc b.m := by
  cases h with
  | instr h =>
    obtain ⟨u, v, hf, he, rfl⟩ := executeStep_ok h
    obtain ⟨hd, hu⟩ := fetch_even hf hs
    have hv := exec_even hd hu (hj rfl _ _ hf)
    rw [final_ok he] at hv
    exact hv.ticked
  | fault h =>
    obtain hf | ⟨d, u, hf, he⟩ := executeStep_error h
    · exact fetch_stop_even hf hs
    · obtain ⟨hd, hu⟩ := fetch_even hf hs
      have hv := exec_even hd hu (hj rfl _ _ hf)
      rw [final_error he] at hv
      exact hv
  | batchEnd | noIntr _ => exact hs
  | trap h => exact handleException_even h hs
  | intr _ _ _ h => exact takeIntr_even h hs
  | alarm _ => exact hs.setOther _ _ (by decide)

end Step

theorem evenPc_reset (h : IsEven P.resetVector) (ram : Word → BitVec 8) : EvenPc (Machine.reset P ram) where
  pc := h
  decPc := (by decide : IsEven 0)
  prevPc := (by decide : IsEven 0)
  epc l := by
    have h0 : IsEven 0 := by decide
    cases l <;> exact h0
  unguided := rfl

/-- From an even reset vector every instruction is fetched at an even address, in every run in which
the specialised jumps of a stand-alone build find an even address in their register. -/
theorem pc_stays_even (hreset : IsEven P.resetVector)
    (h : Run (CpuStep P) ⟨.top, Machine.reset P ram⟩ tr c)
    (hj : ∀ x ∈ tr, x.label.isAttempt → ∀ d u, fetchDecode P x.source.m = .ok d u →
      JumpEven P d (u.started d)) :
    IsEven c.m.pc ∧ ∀ x ∈ tr, IsEven x.source.m.pc := by
  have hstep : ∀ x : Transition Cpu Event,
      (x.label.isAttempt → ∀ d u, fetchDecode P x.source.m = .ok d u → JumpEven P d (u.started d)) →
      CpuStep P x.source x.label x.target → EvenPc x.source.m → EvenPc x.target.m :=
    fun x hx hs hinv => hs.even hinv hx
  have h0 : EvenPc (Machine.reset P ram) := evenPc_reset hreset ram
  constructor
  · exact (h.invariant (I := fun c => EvenPc c.m) hj h0 hstep).pc
  · intro x hx
    exact (h.invariant_mem (I := fun c => EvenPc c.m) hj h0 hstep x hx).1.pc

/-- `jal ra, 4; ret`. -/
theorem pc_stays_even_ret :
    ∃ tr c, Run (CpuStep (.bare .standalone))
        ⟨.top, booted (.bare .standalone) [0x004000ef, 0x00008067]⟩ tr c ∧ tr.length = 3 ∧
      IsEven c.m.pc ∧ ∀ x ∈ tr, IsEven x.source.m.pc := by
  have hrun : ∃ tr c, Run (CpuStep (.bare .standalone))
        ⟨.top, booted (.bare .standalone) [0x004000ef, 0x00008067]⟩ tr c ∧ tr.length = 3 ∧
      ∀ x ∈ tr, x.label.isAttempt → ∀ d u, fetchDecode (.bare .standalone) x.source.m = .ok d u →
        JumpEven (.bare .standalone) d (u.started d) := by
    refine ⟨_, _, .cons (.noIntr (.inr rfl)) (.cons (.instr rfl) (.cons (.instr rfl) .nil)), rfl, ?_⟩
    intro x hx hatt d u hf
    simp only [List.mem_cons, List.not_mem_nil, or_false] at hx
    rcases hx with rfl | rfl | rfl
    · cases hatt
    · cases hf
      exact .other (by decide) (by decide) (by decide)
    · cases hf
      exact ⟨fun _ _ => by decide, fun _ h => absurd h (by decide)⟩
  obtain ⟨tr, c, hr, hlen, hj⟩ := hrun
  exact ⟨tr, c, hr, hlen, pc_stays_even (by decide) hr hj⟩

/-- `auipc a0, 0; addi a0, a0, 1; jr a0` fetches at an odd address. -/
theorem pc_odd_after_jr :
    IsEven (Platform.bare .standalone).resetVector ∧ ∃ tr c, Run (CpuStep (.bare .standalone))
        ⟨.top, booted (.bare .standalone) [0x00000517, 0x00150513, 0x00050067]⟩ tr c ∧
      ∃ x ∈ tr, (∃ d, x.label = .instr d) ∧ ¬ IsEven x.source.m.pc :=
  ⟨by decide, _, _, .cons (.noIntr (.inr rfl)) (.cons (.instr rfl) (.cons (.instr rfl) (.cons (.instr rfl)
    (.cons (.instr rfl) .nil)))), _, .tail _ (.tail _ (.tail _ (.tail _ (.head _)))), ⟨_, rfl⟩, by decide⟩

end Nemu
