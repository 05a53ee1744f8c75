import Nemu.Sandbox

namespace Nemu

open Effect

set_option autoImplicit true

/-- The privileged instructions that trap or return. -/
def Decode.switches (P : Platform) (d : Decode) : Bool :=
  d.id = .system && d.funct3 = 0 && (d.isEcall P || d.privJumps P)

/-- `cpu_exec` without an event: the end of a batch, a look for interrupts that finds none, or the
timer alarm. -/
def QuietStep (P : Platform) (c c' : Cpu) : Prop := CpuStep P c .quiet c'

variable {P : Platform} {s t t' : Machine} {d d1 d2 : Decode}

theorem sysTarget_fence (h : (d.isEcall P || d.privJumps P) = false) :
    sysTarget P d = privFence P d.privId := by
  simp only [Decode.privJumps, Bool.or_eq_false_iff, Bool.and_eq_false_imp,
    decide_eq_false_iff_not] at h
  obtain ⟨hecall, ⟨⟨⟨-, h1⟩, h102⟩, h302⟩, h2⟩ := h
  funext s
  change (if d.isEcall P then _ else _ : Exec Word) s = _
  rw [hecall, if_neg (by decide), if_neg (fun h => h1 h.2)]
  unfold privInstr
  rw [if_neg (fun h => h2 h.1 h.2), if_neg h102, if_neg h302]

theorem sysPriv_fence (h : (d.isEcall P || d.privJumps P) = false) :
    (dataEffect P fun _ => False).Within (sysPriv P d) := by
  have hj : d.privJumps P = false := by
    rw [Bool.or_eq_false_iff] at h
    exact h.2
  unfold sysPriv
  rw [sysTarget_fence h, hj]
  exact .bind privFence_data fun _ => .ret _ _

theorem Harmless.frame (h : Harmless P d s t) (he : exec P d s = .ok () t)
    (hx : d.switches P = false) :
    t.eraseJump = s.eraseJump ∧ (d.id.cfiType = .none → t.pc = s.pc) := by
  have hpc : t.eraseData = s.eraseData → t.pc = s.pc := fun h => by
    have h1 := congrArg Machine.pc h
    exact h1
  cases h with
  | plain hs hd hj => exact ⟨hj, fun hc => hpc ((exec_data hc hs).ok he)⟩
  | priv hs hf hp =>
    have hno : (d.isEcall P || d.privJumps P) = false := by
      simpa [Decode.switches, hs, hf] using hx
    have hdata : t.eraseData = s.eraseData := (sysPriv_fence hno).ok hp
    exact ⟨congrArg Machine.erasePc hdata, fun _ => hpc hdata⟩

/-- The check that is pending for the next fetch. -/
structure Cfi where
  prevPc : Word
  prevType : CfiType
  prevIsCfi : Bool

def Machine.cfi (s : Machine) : Cfi := ⟨s.prevPc, s.prevType, s.prevIsCfi⟩

/-- What a completed instruction leaves for the next fetch. -/
def Decode.cfi (d : Decode) : Cfi := ⟨d.pc, d.id.cfiType, d.id.cfiType ≠ .none⟩

/-- The state after an untrusted instruction that stays in its mode. -/
structure Untouched (s : Machine) (d : Decode) (t : Machine) : Prop where
  cfi : t.cfi = d.cfi
  mode : t.mode = s.mode
  sandbox : t.sandbox = s.sandbox
  pc : d.id.cfiType = .none → t.pc = d.snpc

theorem ticked_frame (s : Machine) (P : Platform) :
    (s.ticked P).cfi = s.cfi ∧ (s.ticked P).mode = s.mode ∧ (s.ticked P).pc = s.pc := by
  unfold Machine.ticked utimerTick
  split
  · split
    · exact ⟨rfl, rfl, rfl⟩
    · split <;> exact ⟨rfl, rfl, rfl⟩
  · exact ⟨rfl, rfl, rfl⟩

theorem Fetches.started_cfi (h : Fetches P s d t) : (t.started d).cfi = d.cfi := by
  have h1 : t.pc = d.pc := (congrArg Machine.pc h.frame).trans h.at_pc.pc.symm
  have h2 : t.prevType = d.id.cfiType := (congrArg Machine.prevType h.frame :)
  have h3 : t.prevIsCfi = decide (d.id.cfiType ≠ .none) := (congrArg Machine.prevIsCfi h.frame :)
  change Cfi.mk t.pc t.prevType t.prevIsCfi = _
  rw [h1, h2, h3]
  rfl

theorem executeStep_untrusted (hP : P.dasics = true) (h : executeStep P s = .ok d t)
    (hu : dasicsInTrustedZone s d.pc = false) (hx : d.switches P = false) : Untouched s d t := by
  obtain ⟨d', u, hf, he⟩ := ok_of_bind h
  have hfetch := fetchDecode_ok hf
  obtain ⟨rfl, v, hexec, rfl⟩ := executeDecoded_ok he
  have hz : dasicsInTrustedZone (u.started d) d.pc = false := by
    have h1 := trusted_congr hfetch.mode_eq hfetch.sandbox_eq d.pc
    exact h1.trans hu
  have hh := exec_untrusted hP hz hexec
  obtain ⟨hframe, hpc⟩ := hh.frame hexec hx
  obtain ⟨k1, k2, k3⟩ := ticked_frame v P
  have hcfi : v.cfi = (u.started d).cfi := (congrArg Machine.cfi hframe :)
  have hmode : v.mode = u.mode := (congrArg Machine.mode hframe :)
  have hsand : v.sandbox = u.sandbox := hh.sandbox_eq
  refine ⟨?_, ?_, ?_, ?_⟩
  · rw [k1, hcfi, hfetch.started_cfi]
  · rw [k2, hmode, hfetch.mode_eq]
  · rw [sandbox_ticked, hsand, hfetch.sandbox_eq]
  · intro hc
    rw [k3, hpc hc]
    rfl

theorem QuietStep.frame (h : QuietStep P c c') : c'.m.eraseAccess = c.m.eraseAccess := by
  unfold QuietStep at h
  cases h with
  | batchEnd => rfl
  | noIntr _ => rfl
  | alarm _ => exact eraseAccess_setMtip _ _

theorem quiet_frame (h : Relation.ReflTransGen (QuietStep P) c c') :
    c'.m.eraseAccess = c.m.eraseAccess := by
  induction h with
  | refl => rfl
  | tail _ hstep ih => exact hstep.frame.trans ih

/-- The jump check, for a source outside the trusted zone and a target in it that no jump bound
covers. -/
theorem allowCfi_entry (h : dasicsAllowCfi s pc prevPc k = true)
    (hsrc : dasicsInTrustedZone s prevPc = false) (hdst : dasicsInTrustedZone s pc = true)
    (hfree : dasicsMatchDjumpbound s pc jumpcfgV = false) :
    pc = s.csr .dretpc ∨ pc = s.csr .dmaincall := by
  unfold dasicsAllowCfi at h
  simp only [hsrc, hdst, hfree] at h
  have h1 : k = .jump ∧ (pc = s.csr .dretpc ∨ pc = s.csr .dmaincall) := by simpa using h
  exact h1.2

theorem djumpbound_congr (h : t.sandbox = s.sandbox) (a cfg : Word) :
    dasicsMatchDjumpbound t a cfg = dasicsMatchDjumpbound s a cfg := by
  have hb : ∀ i, t.csr (.djbound i) = s.csr (.djbound i) := fun i => sandbox_csr h rfl
  unfold dasicsMatchDjumpbound dasicsJumpcfgFromIndex dasicsJumpboundLow dasicsJumpboundHigh
  simp only [hb, sandbox_csr h (c := .djcfg) rfl]

theorem closeFetch_congr (hm : t.mode = s.mode) (h : t.sandbox = s.sandbox) :
    t.mcfgCloseFetch = s.mcfgCloseFetch := by
  unfold Machine.mcfgCloseFetch
  rw [hm, sandbox_csr h (c := .dsmcfg) rfl]

/-- Untrusted code enters the trusted zone at `dretpc` or `dmaincall` only, or by running on into
it from an instruction that is not a control flow one. -/
theorem trusted_zone_entry (hP : P.dasics = true)
    (h1 : CpuStep P ⟨.run, s⟩ (.instr d1) ⟨.run, t⟩)
    (hq : Relation.ReflTransGen (QuietStep P) ⟨.run, t⟩ ⟨.run, t'⟩)
    (h2 : CpuStep P ⟨.run, t'⟩ (.instr d2) c) (hx : d1.switches P = false)
    (hu : dasicsInTrustedZone s d1.pc = false) (hc : s.mcfgCloseFetch = false)
    (hj : ∀ a, dasicsInTrustedZone s a = true → dasicsMatchDjumpbound s a jumpcfgV = false)
    (hz : dasicsInTrustedZone t' d2.pc = true) :
    d2.pc = t'.csr .dretpc ∨ d2.pc = t'.csr .dmaincall ∨
      (d1.id.cfiType = .none ∧ d2.pc = d1.snpc) := by
  cases h1 with
  | instr h1 =>
  cases h2 with
  | instr h2 =>
  have hun := executeStep_untrusted hP h1 hu hx
  have hframe : t'.eraseAccess = t.eraseAccess := quiet_frame hq
  have hsand : t'.sandbox = s.sandbox := (sandbox_of_eraseAccess hframe).trans hun.sandbox
  have hmode : t'.mode = s.mode := (congrArg Machine.mode hframe :).trans hun.mode
  have hcfi : t'.cfi = d1.cfi := (congrArg Machine.cfi hframe :).trans hun.cfi
  obtain ⟨_, u, hf, he⟩ := ok_of_bind h2
  obtain ⟨rfl, -⟩ := executeDecoded_ok he
  have hfetch := fetchDecode_ok hf
  have hpc : t'.pc = d2.pc := hfetch.at_pc.pc.symm
  by_cases hk : d1.id.cfiType = .none
  · refine .inr (.inr ⟨hk, ?_⟩)
    rw [← hpc, ← hun.pc hk]
    exact (congrArg Machine.pc hframe :)
  · have hallow : dasicsAllowCfi t' d2.pc d1.pc d1.id.cfiType = true := by
      by_contra hno
      apply hfetch.passed
      refine ⟨hP, ?_, ?_, ?_⟩
      · have h3 : t'.prevIsCfi = d1.cfi.prevIsCfi := congrArg Cfi.prevIsCfi hcfi
        rw [h3]
        exact decide_eq_true hk
      · have h3 : t'.prevPc = d1.pc := congrArg Cfi.prevPc hcfi
        have h4 : t'.prevType = d1.id.cfiType := congrArg Cfi.prevType hcfi
        rw [h3, h4, hpc]
        simpa using hno
      · rw [closeFetch_congr hmode hsand]
        exact hc
    have hsrc : dasicsInTrustedZone t' d1.pc = false := by
      rw [trusted_congr hmode hsand]
      exact hu
    have hfree : dasicsMatchDjumpbound t' d2.pc jumpcfgV = false := by
      rw [djumpbound_congr hsand]
      apply hj
      rw [← trusted_congr hmode hsand]
      exact hz
    exact (allowCfi_entry hallow hsrc hz hfree).imp_right .inl

/-- User code whose second instruction is the whole trusted zone. -/
def zoned (P : Platform) (instrs : List (BitVec 32)) (dretpc : Word) : Machine :=
  (((sandboxed P instrs).setCsr (.dumbound 0) 0x80100004).setCsr
    (.dumbound 1) 0x80100008).setCsr .dretpc dretpc

theorem zoned_free (a : Word) :
    dasicsMatchDjumpbound (zoned P instrs dretpc) a jumpcfgV = false := by
  have hcfg : (zoned P instrs dretpc).csr .djcfg = 0 := rfl
  unfold dasicsMatchDjumpbound dasicsJumpcfgFromIndex
  simp [hcfg, jumpcfgV]

theorem trusted_zone_entry_dretpc :
    ∃ (t : Machine) (d2 : Decode), dasicsInTrustedZone t d2.pc = true ∧
      (d2.pc = t.csr .dretpc ∨ d2.pc = t.csr .dmaincall ∨
        (CfiType.jump = .none ∧ d2.pc = 0x80100004)) := by
  -- a jump to `dretpc`
  have hrun : ∃ (t : Machine) (d1 d2 : Decode) (c : Cpu),
      CpuStep (Platform.bare .standalone)
        ⟨.run, zoned (Platform.bare .standalone) [0x0040006f, 0x00100593] 0x80100004⟩ (.instr d1)
        ⟨.run, t⟩ ∧
      CpuStep (Platform.bare .standalone) ⟨.run, t⟩ (.instr d2) c ∧
      d1.switches (Platform.bare .standalone) = false ∧ d1.id.cfiType = .jump ∧
      d1.snpc = 0x80100004 ∧ d1.pc = 0x80100000 ∧ dasicsInTrustedZone t d2.pc = true :=
    ⟨_, _, _, _, .instr rfl, .instr rfl, by decide, by decide, by decide, by decide, by decide⟩
  obtain ⟨t, d1, d2, c, h1, h2, hx, hk, hn, hpc, hz⟩ := hrun
  refine ⟨t, d2, hz, ?_⟩
  rw [← hk, ← hn]
  refine trusted_zone_entry rfl h1 .refl h2 hx ?_ (by decide) (fun a _ => zoned_free a) hz
  rw [hpc]
  decide

/-- Untrusted code can run on into the trusted zone. -/
theorem trusted_zone_fall_through :
    ∃ (s t : Machine) (d1 d2 : Decode) (c : Cpu),
      CpuStep (Platform.bare .standalone) ⟨.run, s⟩ (.instr d1) ⟨.run, t⟩ ∧
      CpuStep (Platform.bare .standalone) ⟨.run, t⟩ (.instr d2) c ∧
      d1.switches (Platform.bare .standalone) = false ∧ t.mode = s.mode ∧ s.mode = .U ∧
      dasicsInTrustedZone s d1.pc = false ∧ s.mcfgCloseFetch = false ∧
      (∀ a, dasicsMatchDjumpbound s a jumpcfgV = false) ∧ dasicsInTrustedZone t d2.pc = true ∧
      d2.pc ≠ t.csr .dretpc ∧ d2.pc ≠ t.csr .dmaincall := by
  exact ⟨zoned (Platform.bare .standalone) [0x00100513, 0x00100593] 0, _, _, _, _, .instr rfl,
    .instr rfl, by decide, rfl, rfl, by decide, by decide, zoned_free, by decide, by decide,
    by decide⟩

end Nemu
