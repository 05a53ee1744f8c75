import Nemu.Footprint
import Nemu.PrivMode
import Nemu.SystemDecode

namespace Nemu

open Effect

set_option autoImplicit true

/-- The lowest privilege that may access a CSR. -/
def Csr.level (c : Csr) : Nat := (c.addr.extractLsb' 8 2).toNat

/-- The CSRs that nothing but a CSR instruction changes, and only one that names them. -/
def Csr.steady : Csr → Bool
  | .mstatus | .mie | .mip | .fflags | .frm | .fcsr | .vxsat | .vxrm | .vcsr | .vstart | .vl | .vtype | .utimer
  | .dsmcfg | .dretpc | .dfreason | .ucause | .scause | .mcause | .uepc | .sepc | .mepc | .utval | .stval | .mtval =>
    false
  | _ => true

variable {P : Platform} {s t : Machine} {d : Decode} {f : Fault} {c : Csr} {l : Level} {a b : Cpu} {e : Event}

section Registers

theorem Csr.steady_trapCsr (hc : c.steady = true) : trapCsr c = false := by
  cases c <;> first | rfl | cases hc

theorem csr_trapBlind (hc : c.steady = true) : TrapBlind fun s => s.csr c where
  mode _ _ := rfl
  csr s c' x hc' := s.setCsr_csr_ne x (by
    rintro rfl
    rw [Csr.steady_trapCsr hc] at hc'
    cases hc')
  mmu _ := rfl
  jump _ := by cases c <;> first | rfl | cases hc
  fault _ := by cases c <;> first | rfl | cases hc

theorem eraseFlow_csr (hc : c.steady = true) (s : Machine) : s.eraseFlow.csr c = s.csr c := by
  cases c <;> first | rfl | cases hc

theorem eraseFetch_csr (hc : c.steady = true) (s : Machine) : s.eraseFetch.csr c = s.csr c := by
  cases c <;> first | rfl | cases hc

/-- A write to another register does not reach a steady one. -/
theorem csrTargets_steady (hc : c.steady = true) (hne : c' ≠ c) : c ∉ csrTargets c' := by
  have hown : c ∉ [c'] := fun h => hne (List.mem_singleton.mp h).symm
  cases c' with
  | sstatus | ustatus | sie | uie | sip | uip | vcsr | fflags | frm | fcsr | dumcfg =>
    intro h
    simp only [csrTargets, List.mem_cons, List.not_mem_nil, or_false] at h
    rcases h with rfl | rfl | rfl <;> cases hc
  | _ => exact hown

theorem csrWrite_steady (hc : c.steady = true) (hne : c' ≠ c) :
    (keep Stop fun s => s.csr c).Within (csrWrite P c' x) :=
  .bind (.read _) fun _ => .bind ((csr_trapBlind hc).illegalIf _) fun _ =>
    .bind (.update fun _ => csrStore_frame (csrTargets_steady hc hne)) fun _ =>
      (csr_blind (by rintro rfl; cases hc)).csrWriteRefresh

theorem LegalCsr.level_le (h : LegalCsr P s addr pc c) : c.level ≤ s.mode.toNat := by
  have h1 := h.mode
  rwa [← (Csr.ofAddr_spec h.exist).1] at h1

theorem sysCsr_steady (hc : c.steady = true) (hm : s.mode.toNat < c.level) :
    (keep Stop fun s => s.csr c).At s (sysCsr P d) := by
  have hv := csr_trapBlind hc
  have hreg : ∀ v, (keep Stop fun s => s.csr c).Within (writeReg d.dest.preg v) := fun v =>
    hv.of_data (P := P) (q := fun _ => False) writeReg_data
  refine At.bind (hv.of_data (q := fun _ => False) csrrw_read_data s) fun old t ht => ?_
  have hmt : t.mode = s.mode := by
    have h1 : t.eraseData = s.eraseData := (csrrw_read_data (q := fun _ => False)).ok ht
    exact (congrArg Machine.mode h1 :)
  split
  · refine At.bind (Within.bind (.read _) (fun _ => .ret _ _) t) fun src u hu => At.bind ?_ fun _ v _ => hreg _ v
    cases hu
    refine At.bind (hv.of_data (q := fun _ => False) csrIsLegal_data t) fun r u hr => ?_
    obtain ⟨rfl, hlegal⟩ := csrIsLegal_ok hr
    cases r with
    | none => exact hv.of_data (P := P) (q := fun _ => False) illegal_data u
    | some c' =>
      have hne : c' ≠ c := by
        rintro rfl
        have h1 := (hlegal c' rfl).level_le
        rw [hmt] at h1
        omega
      exact Within.bind (csrWrite_steady hc hne) (fun _ => .ret _ _) u
  · exact hreg _ t

theorem exec_steady (hc : c.steady = true) (hm : s.mode.toNat < c.level) :
    (keep Stop fun s => s.csr c).At s (exec P d) := by
  by_cases hid : d.id = .system
  · rw [exec_system hid]
    unfold rtlSysSlowPath
    split
    · exact (csr_trapBlind hc).sysPriv s
    · exact sysCsr_steady hc hm
  · refine (exec_flow hid s).mono (fun t ht => ?_) fun e t ht => ?_
    · have h1 : t.eraseFlow.csr c = s.eraseFlow.csr c := congrFun (congrArg Machine.csr ht) c
      rwa [eraseFlow_csr hc, eraseFlow_csr hc] at h1
    · have h1 := congrFun (congrArg Machine.csr ht.frame) c
      cases c <;> first | exact h1 | cases hc

theorem executeStep_steady (hc : c.steady = true) (hm : s.mode.toNat < c.level) :
    (keep Stop fun s => s.csr c).At s (executeStep P) := by
  have hfetch := fetchDecode_frame (P := P) s
  have hsame : ∀ t : Machine, t.eraseFetch = s.eraseFetch → t.csr c = s.csr c := by
    intro t ht
    have h1 := congrFun (congrArg Machine.csr ht) c
    rwa [eraseFetch_csr hc, eraseFetch_csr hc] at h1
  refine At.bind (m := fetchDecode P) (hfetch.mono hsame fun e t ht => hsame t ht) fun d t ht => ?_
  have hmt : t.mode = s.mode := (congrArg Machine.mode (hfetch.ok ht) :)
  have hstart : (keep Stop fun s => s.csr c).At (t.started d) (exec P d) := exec_steady hc (hmt ▸ hm)
  refine At.bind (At.update rfl) fun _ u hu => ?_
  cases hu
  refine At.bind hstart fun _ v _ => Within.bind (.update fun w => ?_) (fun _ => .ret _ _) v
  have htick : ∀ (w : Machine) {c' : Csr} (x : Word), c'.steady = false → (w.setCsr c' x).csr c = w.csr c := by
    intro w c' x hc'
    exact w.setCsr_csr_ne x (by rintro rfl; rw [hc] at hc'; cases hc')
  split
  · unfold utimerTick
    split
    · exact htick _ _ rfl
    · split <;> exact htick _ _ rfl
  · rfl

theorem handleException_steady (hc : c.steady = true) (f : Fault) :
    (keep Stop fun s => s.csr c).Within (handleException P f) := by
  refine .bind (.read _) fun s => .bind (.update fun s => ?_) fun _ => .bind (csr_trapBlind hc).raiseIntr fun _ =>
    .update fun _ => rfl
  split <;> rfl

theorem takeIntr_steady (hc : c.steady = true) : (keep Stop fun s => s.csr c).Within (takeIntr P no) :=
  .bind (.read _) fun _ => .bind (csr_trapBlind hc).raiseIntr fun _ => .update fun _ => rfl

/-- A step below the level of a steady register leaves it alone. -/
theorem CpuStep.steady (h : CpuStep P a e b) (hc : c.steady = true) (hm : a.m.mode.toNat < c.level) :
    b.m.csr c = a.m.csr c := by
  cases h with
  | instr h => exact (executeStep_steady hc hm).ok h
  | fault h => exact (executeStep_steady hc hm).error h
  | batchEnd | noIntr _ => rfl
  | trap h => exact (handleException_steady hc _).ok h
  | intr _ _ _ h => exact (takeIntr_steady hc).ok h
  | alarm _ => exact Machine.setCsr_csr_ne _ _ (by rintro rfl; cases hc)

end Registers

section Entry

/-- In the level `l` or a higher one, the machine stands at the trap vector of its level. -/
def AtVector (l : Level) (s : Machine) : Prop :=
  ∀ l' : Level, l.mode ≤ l'.mode → s.mode = l'.mode → s.pc = getTrapPc (s.csr l'.tvec) (s.csr l'.cause)

theorem AtVector.of_below (h : s.mode < l.mode) : AtVector l s := by
  intro l' hle hm
  rw [hm] at h
  exact absurd hle (Nat.not_le.mpr h)

theorem AtVector.of_eq (h : AtVector l s) (hm : t.mode = s.mode) (hpc : t.pc = s.pc)
    (hc : ∀ c, c = .mip ∨ c = .utimer ∨ t.csr c = s.csr c) : AtVector l t := by
  intro l' hle hl
  have htvec : t.csr l'.tvec = s.csr l'.tvec := by
    rcases hc l'.tvec with h1 | h1 | h1
    · cases l' <;> cases h1
    · cases l' <;> cases h1
    · exact h1
  have hcause : t.csr l'.cause = s.csr l'.cause := by
    rcases hc l'.cause with h1 | h1 | h1
    · cases l' <;> cases h1
    · cases l' <;> cases h1
    · exact h1
  rw [hpc, htvec, hcause]
  exact h l' hle (hm.symm.trans hl)

theorem raiseIntr_vector (h : raiseIntr P no epc s = .ok pc t) (hm : u.mode = t.mode) (hc : u.csr = t.csr)
    (hpc : u.pc = pc) : AtVector l u := by
  intro l' _ hl
  have hmode := (raiseIntr_ok h).2
  have hl' : trapLevel P s no = l' := Level.mode_injective (hmode.symm.trans (hm.symm.trans hl))
  rw [raiseIntr_eq] at h
  obtain ⟨_, v, _, h1⟩ := ok_of_bind h
  cases h1
  rw [hpc, hc, hl']

theorem hostcallTrap_vector (h : hostcallTrap P pc no epc s = .ok v t) :
    ∃ no' s', raiseIntr P no' epc s' = .ok v t ∧ s'.guidedExec = s.guidedExec := by
  obtain ⟨_, s1, hget, h1⟩ := ok_of_bind h
  cases hget
  dsimp only at h1
  split at h1
  · obtain ⟨_, t1, hset, h2⟩ := ok_of_bind h1
    cases hset
    exact ⟨_, _, h2, rfl⟩
  split at h1
  · obtain ⟨_, t1, hset, h2⟩ := ok_of_bind h1
    cases hset
    exact ⟨_, _, h2, rfl⟩
  · exact ⟨_, _, h1, rfl⟩

theorem guidedExec_blind : TrapBlind Machine.guidedExec where
  mode _ _ := rfl
  csr _ _ _ _ := rfl
  mmu _ := rfl
  jump _ := rfl
  fault _ := rfl

theorem rtlTrap_vector (hg : s.guidedExec = false) (h : rtlTrap P d no s = .ok v t) :
    AtVector l t ∧ t.pc = v ∧ t.guidedExec = false := by
  obtain ⟨pc, u, h1, h2⟩ := ok_of_bind h
  obtain ⟨no', s', hr, hs'⟩ := hostcallTrap_vector h1
  have hgu : u.guidedExec = false := (guidedExec_blind.raiseIntr.ok hr).trans (hs'.trans hg)
  rw [bind_ok (rtlJ_unguided hgu pc)] at h2
  cases h2
  exact ⟨raiseIntr_vector hr rfl rfl rfl, rfl, hgu⟩

theorem mode_mmuBlind (h : t.eraseMmu = s.eraseMmu) : t.mode = s.mode := (congrArg Machine.mode h :)

theorem retTail_mode (h : retTail epc s = .ok v t) : t.mode = s.mode := by
  obtain ⟨_, u, hu, h1⟩ := ok_of_bind h
  cases h1
  have herase := updateMmuState_erase.final_eq s
  rw [final_ok hu] at herase
  exact mode_mmuBlind herase

theorem privInstr_below (hm : s.mode < l.mode) (h : privInstr P op s = .ok v t) : t.mode < l.mode := by
  unfold privInstr at h
  split at h
  · rw [uret_eq] at h
    rw [retTail_mode h]
    exact Nat.lt_of_le_of_lt (Nat.zero_le _) hm
  split at h
  · rw [sret_eq] at h
    obtain ⟨_, u, hi, h1⟩ := ok_of_bind h
    obtain ⟨heq, hlow⟩ := illegalIf_ok hi
    rw [heq] at h1
    rw [retTail_mode h1]
    have hs : Mode.S.toNat ≤ s.mode.toNat := Nat.not_lt.mp fun hlt => hlow (.inr hlt)
    refine Nat.lt_of_le_of_lt ?_ hm
    refine Nat.le_trans ?_ hs
    change (Machine.spp _).toNat ≤ _
    unfold Machine.spp
    split <;> decide
  split at h
  · rw [mret_eq] at h
    obtain ⟨_, u, hi, _⟩ := ok_of_bind h
    obtain ⟨_, hlow⟩ := illegalIf_ok hi
    have hmax : l.mode.toNat ≤ Mode.M.toNat := by cases l <;> decide
    exact absurd (Nat.lt_of_lt_of_le hm hmax) hlow
  · have h1 : t.eraseData = s.eraseData := (privFence_data (q := fun _ => False)).ok h
    have hmode : t.mode = s.mode := (congrArg Machine.mode h1 :)
    rwa [hmode]

theorem exec_vector (hm : s.mode < l.mode) (hg : s.guidedExec = false) (h : exec P d s = .ok () t) :
    AtVector l t ∧ t.guidedExec = false := by
  by_cases hid : d.id = .system
  · rw [exec_system hid] at h
    unfold rtlSysSlowPath at h
    split at h
    · obtain ⟨jpc, u, h1, h2⟩ := ok_of_bind h
      obtain ⟨_, _, hget, h3⟩ := ok_of_bind h1
      cases hget
      have htrap : ∀ {no}, rtlTrap P d no s = .ok jpc u → AtVector l t ∧ t.guidedExec = false := by
        intro no hu
        obtain ⟨hv, hpc, hgu⟩ := rtlTrap_vector hg hu
        split at h2
        · rw [rtlJ_unguided hgu] at h2
          injection h2 with _ ht
          rw [← ht]
          exact ⟨hv.of_eq rfl hpc.symm fun _ => .inr (.inr rfl), hgu⟩
        · injection h2 with _ ht
          rw [← ht]
          exact ⟨hv, hgu⟩
      split at h3
      · exact htrap h3
      split at h3
      · exact htrap h3
      · have hgu : u.guidedExec = false := (guidedExec_blind.privInstr.ok h3).trans hg
        have hlow := privInstr_below hm h3
        split at h2
        · rw [rtlJ_unguided hgu] at h2
          cases h2
          exact ⟨.of_below hlow, hgu⟩
        · cases h2
          exact ⟨.of_below hlow, hgu⟩
    · have hview : CsrBlind fun s : Machine => (s.mode, s.guidedExec) :=
        ⟨fun _ _ => rfl, fun _ _ => rfl, fun _ => rfl, fun _ => rfl, fun _ => rfl⟩
      have h1 := hview.sysCsr.ok h
      have hmode : t.mode = s.mode := (congrArg Prod.fst h1 :)
      have hguide : t.guidedExec = s.guidedExec := (congrArg Prod.snd h1 :)
      exact ⟨.of_below (hmode ▸ hm), hguide.trans hg⟩
  · have h1 : t.eraseFlow = s.eraseFlow := (exec_flow hid).ok h
    have hmode : t.mode = s.mode := (congrArg Machine.mode h1 :)
    have hguide : t.guidedExec = s.guidedExec := (congrArg Machine.guidedExec h1 :)
    exact ⟨.of_below (hmode ▸ hm), hguide.trans hg⟩

theorem AtVector.ticked (h : AtVector l s) (P : Platform) : AtVector l (s.ticked P) := by
  have hset : ∀ {c : Csr} (x : Word), c = .mip ∨ c = .utimer → AtVector l (s.setCsr c x) := by
    intro c x hc
    refine h.of_eq rfl rfl fun c' => ?_
    by_cases hne : c' = c
    · rcases hc with rfl | rfl
      · exact .inl hne
      · exact .inr (.inl hne)
    · exact .inr (.inr (s.setCsr_csr_ne x hne))
  unfold Machine.ticked utimerTick
  split
  · split
    · exact hset _ (.inr rfl)
    · split <;> exact hset _ (.inl rfl)
  · exact h

theorem ticked_guidedExec (s : Machine) : (s.ticked P).guidedExec = s.guidedExec := by
  unfold Machine.ticked utimerTick
  split
  · split
    · rfl
    · split <;> rfl
  · rfl

theorem executeStep_vector (hm : s.mode < l.mode) (hg : s.guidedExec = false) (h : executeStep P s = .ok d t) :
    AtVector l t ∧ t.guidedExec = false := by
  obtain ⟨u, v, hf, he, rfl⟩ := executeStep_ok h
  have hfetch : u.eraseFetch = s.eraseFetch := fetchDecode_frame.ok hf
  have hmu : u.mode = s.mode := (congrArg Machine.mode hfetch :)
  have hgu : u.guidedExec = s.guidedExec := (congrArg Machine.guidedExec hfetch :)
  have hstart : (u.started d).mode < l.mode := by
    change u.mode < l.mode
    rwa [hmu]
  have hexec : AtVector l v ∧ v.guidedExec = false := exec_vector hstart (hgu.trans hg) he
  exact ⟨hexec.1.ticked P, (ticked_guidedExec v).trans hexec.2⟩

theorem executeStep_fault_mode (h : executeStep P s = .error (.exception f) t) :
    t.mode = s.mode ∧ t.guidedExec = s.guidedExec := by
  rcases executeStep_error h with hf | ⟨d, u, hf, he⟩
  · have h1 : t.eraseFetch = s.eraseFetch := fetchDecode_frame.error hf
    exact ⟨(congrArg Machine.mode h1 :), (congrArg Machine.guidedExec h1 :)⟩
  · have h1 : u.eraseFetch = s.eraseFetch := fetchDecode_frame.ok hf
    have hexec : t.mode = u.mode ∧ t.guidedExec = u.guidedExec := by
      by_cases hid : d.id = .system
      · have h2 := ((exec_system_illegal hid he).1 f rfl).frame
        exact ⟨(congrArg Machine.mode h2 :), (congrArg Machine.guidedExec h2 :)⟩
      · have h2 := ((exec_flow hid).error he).frame
        exact ⟨(congrArg Machine.mode h2 :), (congrArg Machine.guidedExec h2 :)⟩
    exact ⟨hexec.1.trans (congrArg Machine.mode h1 :), hexec.2.trans (congrArg Machine.guidedExec h1 :)⟩

/-- A step from below `l` that enters `l` or a higher level goes to the vector of the level that it enters. -/
theorem CpuStep.vector (h : CpuStep P a e b) (hm : a.m.mode < l.mode) (hg : a.m.guidedExec = false) :
    AtVector l b.m ∧ b.m.guidedExec = false := by
  cases h with
  | instr h => exact executeStep_vector hm hg h
  | fault h =>
    obtain ⟨hmode, hguide⟩ := executeStep_fault_mode h
    exact ⟨.of_below (hmode ▸ hm), hguide.trans hg⟩
  | batchEnd | noIntr _ => exact ⟨.of_below hm, hg⟩
  | trap h =>
    obtain ⟨pc, u, hr, rfl⟩ := handleException_ok h
    refine ⟨raiseIntr_vector hr rfl rfl rfl, (guidedExec_blind.raiseIntr.ok hr).trans ?_⟩
    unfold faultHandled
    split <;> exact hg
  | intr _ _ _ h =>
    obtain ⟨_, _, hget, h1⟩ := ok_of_bind h
    cases hget
    obtain ⟨pc, u, hr, h2⟩ := ok_of_bind h1
    cases h2
    exact ⟨raiseIntr_vector hr rfl rfl rfl, (guidedExec_blind.raiseIntr.ok hr).trans hg⟩
  | alarm _ => exact ⟨.of_below hm, hg⟩

end Entry

/-- A run whose steps all start below a level leaves the registers of that level alone, and enters the level only at
the trap vector that was installed at its start. -/
theorem level_entered_at_vector (l : Level) (h : Run (CpuStep P) a tr b) (ha : a.m.mode < l.mode)
    (hg : a.m.guidedExec = false) (hlow : ∀ x ∈ tr, x.source.m.mode < l.mode) :
    (∀ k : Csr, k.steady = true → l.mode.toNat ≤ k.level → b.m.csr k = a.m.csr k) ∧
      ∀ l' : Level, l.mode ≤ l'.mode → b.m.mode = l'.mode →
        b.m.pc = getTrapPc (a.m.csr l'.tvec) (b.m.csr l'.cause) := by
  have hinv := h.invariant (I := fun b => (AtVector l b.m ∧ b.m.guidedExec = false) ∧
      ∀ k : Csr, k.steady = true → l.mode.toNat ≤ k.level → b.m.csr k = a.m.csr k) hlow
    ⟨⟨.of_below ha, hg⟩, fun _ _ _ => rfl⟩ fun x hx hs hI =>
      ⟨hs.vector hx hI.1.2, fun k hk hl => (hs.steady hk (Nat.lt_of_lt_of_le hx hl)).trans (hI.2 k hk hl)⟩
  refine ⟨hinv.2, fun l' hle hm => ?_⟩
  have htvec : b.m.csr l'.tvec = a.m.csr l'.tvec :=
    hinv.2 _ (by cases l' <;> rfl) (Nat.le_trans hle (by cases l' <;> decide))
  rw [hinv.1.1 l' hle hm, htvec]

/-- A user program that calls the environment. -/
theorem level_entered_at_vector_ecall : ∃ tr b,
    Run (CpuStep (.bare .reference)) ⟨.run, sandboxed (.bare .reference) [0x00000073]⟩ tr b ∧ b.m.mode = .M ∧
      b.m.pc = getTrapPc 0 (b.m.csr .mcause) := by
  have hstep : ∃ d t, executeStep (.bare .reference) (sandboxed (.bare .reference) [0x00000073]) = .ok d t ∧
      t.mode = .M := ⟨_, _, rfl, rfl⟩
  obtain ⟨d, t, hok, hm⟩ := hstep
  have hrun := Run.cons (CpuStep.instr hok) .nil
  have h := level_entered_at_vector .M hrun (show Mode.U < .M by decide) rfl fun x hx => by
    cases List.mem_singleton.mp hx
    exact show Mode.U < .M by decide
  exact ⟨_, _, hrun, hm, h.2 .M (by decide) hm⟩

end Nemu
