import Mathlib.Logic.Relation
import Nemu.FetchContract
import Nemu.SystemContract
import Nemu.TrapTarget

namespace Nemu

open Effect

set_option autoImplicit true

/-- The CSRs that configure DASICS and the protection keys. -/
def protectedCsr : Csr → Bool
  | .dsmcfg | .dsmbound _ | .dumbound _ | .dlcfg0 | .dlbound _ | .djcfg | .djbound _ | .dmaincall
  | .dretpc | .dretpcfz | .upkru | .spkrs | .spkctl => true
  | _ => false

/-- The configuration of the sandbox. -/
def Machine.sandbox (s : Machine) : Csr → Word := fun c => if protectedCsr c then s.csr c else 0

/-- One step of untrusted code: an instruction outside the trusted zone that completes, fetched or
taken from a decode cache, or the timer. -/
inductive UntrustedStep (P : Platform) : Machine → Machine → Prop where
  | instr : dasicsInTrustedZone s s.pc = false → executeStep P s = .ok d t → UntrustedStep P s t
  | cached : dasicsInTrustedZone s d.pc = false → executeDecoded P d s = .ok d' t →
      UntrustedStep P s t
  | timer : UntrustedStep P s (setMtip (some b) s)

variable {P : Platform} {s t : Machine} {d : Decode}

theorem sandbox_csr (h : t.sandbox = s.sandbox) (hc : protectedCsr c = true) :
    t.csr c = s.csr c := by
  have h1 := congrFun h c
  simpa only [Machine.sandbox, hc, ↓reduceIte] using h1

theorem sandbox_setCsr (s : Machine) (v : Word) (h : protectedCsr c = false) :
    (s.setCsr c v).sandbox = s.sandbox := by
  funext c'
  unfold Machine.sandbox
  split
  · next hc' =>
    apply Machine.setCsr_csr_ne
    rintro rfl
    rw [h] at hc'
    cases hc'
  · rfl

theorem sandbox_of_eraseAccess (h : t.eraseAccess = s.eraseAccess) : t.sandbox = s.sandbox := by
  have hs : ∀ u : Machine, u.eraseAccess.sandbox = u.sandbox := by
    intro u
    funext c
    cases c <;> rfl
  rw [← hs t, h, hs]

theorem trusted_congr (hm : t.mode = s.mode) (h : t.sandbox = s.sandbox) (pc : Word) :
    dasicsInTrustedZone t pc = dasicsInTrustedZone s pc := by
  unfold dasicsInTrustedZone Machine.mcfgSena Machine.mcfgUena
  rw [hm, sandbox_csr h (c := .dsmbound 0) rfl, sandbox_csr h (c := .dsmbound 1) rfl,
    sandbox_csr h (c := .dumbound 0) rfl, sandbox_csr h (c := .dumbound 1) rfl,
    sandbox_csr h (c := .dsmcfg) rfl]

theorem sandbox_blind : TrapBlind Machine.sandbox where
  mode _ _ := rfl
  csr s c x hc := sandbox_setCsr s x (by cases c <;> first | rfl | cases hc)
  mmu _ := rfl
  jump s := by
    funext c
    cases c <;> rfl
  fault s := by
    funext c
    cases c <;> rfl

section Untrusted

/-- Untrusted code cannot access a CSR. -/
theorem sysCsr_untrusted (hP : P.dasics = true) (hu : dasicsInTrustedZone s d.pc = false) :
    sysCsr P d s ≠ .ok () t := by
  intro h
  obtain ⟨old, u, hr, -⟩ := ok_of_bind h
  obtain ⟨r, v, hl, h1⟩ := ok_of_bind hr
  obtain ⟨rfl, hlegal⟩ := csrIsLegal_ok hl
  cases r with
  | none => cases h1
  | some c =>
    have ht := (hlegal c rfl).trusted hP
    rw [hu] at ht
    cases ht

/-- Untrusted code cannot write `dretpc` by a jump. -/
theorem rtlSetDretpc_untrusted (hu : dasicsInTrustedZone s d.pc = false) :
    rtlSetDretpc d v s ≠ .ok () t := by
  intro h
  obtain ⟨_, u, hc, -⟩ := ok_of_bind h
  obtain ⟨_, _, hget, h1⟩ := ok_of_bind hc
  cases hget
  rw [hu] at h1
  cases h1

theorem exec_dasicscall_untrusted (hd : d.id.isDasicscall = true)
    (hu : dasicsInTrustedZone s d.pc = false) : exec P d s ≠ .ok () t := by
  intro h
  obtain ⟨pc, snpc, instr, id, dest, src1, src2⟩ := d
  cases id with
  | dasicscall_j =>
    obtain ⟨_, _, h1, -⟩ := ok_of_bind h
    exact rtlSetDretpc_untrusted hu h1
  | dasicscall_jr =>
    obtain ⟨x, u, hx, h1⟩ := ok_of_bind h
    cases hx
    obtain ⟨_, _, hget, h2⟩ := ok_of_bind h1
    cases hget
    obtain ⟨_, _, h3, -⟩ := ok_of_bind h2
    exact rtlSetDretpc_untrusted hu h3
  | _ => cases hd

/-- What an untrusted instruction can be when it completes. -/
inductive Harmless (P : Platform) (d : Decode) (s t : Machine) : Prop where
  | plain : d.id ≠ .system → d.id.isDasicscall = false → t.eraseJump = s.eraseJump →
      Harmless P d s t
  | priv : d.id = .system → d.funct3 = 0 → sysPriv P d s = .ok () t → Harmless P d s t

theorem exec_system (h : d.id = .system) : exec P d = rtlSysSlowPath P d := by
  unfold exec
  rw [h]

theorem exec_untrusted (hP : P.dasics = true) (hu : dasicsInTrustedZone s d.pc = false)
    (h : exec P d s = .ok () t) : Harmless P d s t := by
  by_cases hs : d.id = .system
  · rw [exec_system hs] at h
    unfold rtlSysSlowPath at h
    split at h
    · next hf => exact .priv hs hf h
    · exact absurd h (sysCsr_untrusted hP hu)
  · have hd : d.id.isDasicscall = false := by
      by_contra hne
      exact exec_dasicscall_untrusted (by simpa using hne) hu h
    exact .plain hs hd ((exec_jump hs hd).ok h)

theorem Harmless.sandbox_eq (h : Harmless P d s t) : t.sandbox = s.sandbox := by
  cases h with
  | plain _ _ h =>
    rw [← sandbox_blind.jump t, h, sandbox_blind.jump]
  | priv _ _ h => exact sandbox_blind.sysPriv.ok h

theorem sandbox_utimerTick (s : Machine) : (utimerTick s).sandbox = s.sandbox := by
  unfold utimerTick
  split
  · exact sandbox_setCsr s _ rfl
  · split
    · exact sandbox_setCsr s _ rfl
    · exact sandbox_setCsr s _ rfl

theorem executeDecoded_ok (h : executeDecoded P d s = .ok d' t) :
    d' = d ∧ ∃ u, exec P d (s.started d) = .ok () u ∧ t = u.ticked P := by
  obtain ⟨_, v, hmod, h1⟩ := ok_of_bind h
  cases hmod
  obtain ⟨_, u, he, h2⟩ := ok_of_bind h1
  obtain ⟨_, w, htick, h3⟩ := ok_of_bind h2
  cases htick
  cases h3
  exact ⟨rfl, u, he, rfl⟩

theorem sandbox_ticked (s : Machine) (P : Platform) : (s.ticked P).sandbox = s.sandbox := by
  unfold Machine.ticked
  split
  · exact sandbox_utimerTick s
  · rfl

theorem executeDecoded_sandbox (hP : P.dasics = true) (hu : dasicsInTrustedZone s d.pc = false)
    (h : executeDecoded P d s = .ok d' t) : t.sandbox = s.sandbox := by
  obtain ⟨-, u, he, rfl⟩ := executeDecoded_ok h
  have hz : dasicsInTrustedZone (s.started d) d.pc = false := hu
  rw [sandbox_ticked, (exec_untrusted hP hz he).sandbox_eq]
  rfl

theorem Fetches.sandbox_eq (h : Fetches P s d t) : t.sandbox = s.sandbox := by
  have h1 : t.sandbox = (s.decoded d).sandbox := sandbox_of_eraseAccess h.frame
  exact h1

theorem Fetches.mode_eq (h : Fetches P s d t) : t.mode = s.mode := by
  have h1 := congrArg Machine.mode h.frame
  exact h1

theorem UntrustedStep.sandbox_eq (hP : P.dasics = true) (h : UntrustedStep P s t) :
    t.sandbox = s.sandbox := by
  cases h with
  | instr hu h =>
    obtain ⟨d, u, hf, he⟩ := ok_of_bind h
    have hfetch := fetchDecode_ok hf
    have hz : dasicsInTrustedZone u d.pc = false := by
      rw [trusted_congr hfetch.mode_eq hfetch.sandbox_eq, hfetch.at_pc.pc]
      exact hu
    exact (executeDecoded_sandbox hP hz he).trans hfetch.sandbox_eq
  | cached hu h => exact executeDecoded_sandbox hP hu h
  | timer => exact sandbox_setCsr s _ rfl

/-- No run of untrusted code changes the configuration of the sandbox. -/
theorem untrusted_run_keeps_sandbox (hP : P.dasics = true)
    (h : Relation.ReflTransGen (UntrustedStep P) s t) (hc : protectedCsr c = true) :
    t.csr c = s.csr c := by
  induction h with
  | refl => rfl
  | tail _ hstep ih => exact (sandbox_csr (hstep.sandbox_eq hP) hc).trans ih

/-- User code at the reset vector, with the memory open to it and no trusted zone. -/
def sandboxed (P : Platform) (instrs : List (BitVec 32)) : Machine :=
  { (((Machine.reset P (program 0x80100000 instrs)).setCsr (.pmpcfg 0) 0x1f).setCsr
      (.pmpaddr 0) 0x3fffffffff).setCsr .dsmcfg 2 with mode := .U }

theorem untrusted_run_addi :
    ∃ t, Relation.ReflTransGen (UntrustedStep (Platform.bare .standalone))
        (sandboxed (Platform.bare .standalone) [0x00100513]) t ∧ t.gpr 10 = 1 ∧
      t.csr .dlcfg0 = (sandboxed (Platform.bare .standalone) [0x00100513]).csr .dlcfg0 := by
  have hstep : ∃ t, UntrustedStep (Platform.bare .standalone)
      (sandboxed (Platform.bare .standalone) [0x00100513]) t ∧ t.gpr 10 = 1 :=
    ⟨_, .instr (by decide) rfl, by rfl⟩
  obtain ⟨t, ht, hg⟩ := hstep
  exact ⟨t, .single ht, hg, untrusted_run_keeps_sandbox rfl (.single ht) rfl⟩

end Untrusted

end Nemu
