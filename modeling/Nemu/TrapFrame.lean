import Nemu.Coherence
import Nemu.Exceptions
import Nemu.ZoneEntry

namespace Nemu

open Effect

set_option autoImplicit true

/-- The DASICS check of an `ecall` fails. -/
def ecallFaults (P : Platform) (s : Machine) (pc : Word) : Bool :=
  P.dasics && !dasicsInTrustedZone s pc && (s.mode = .U || s.mode = .S) && !s.mcfgCloseEcall

/-- What makes an instruction trap: an exception, or an `ecall` or `ebreak` that was decoded. -/
inductive TrapSource where
  | exception (f : Fault)
  | call (d : Decode)

/-- The cause number of a trap of an instruction that starts in `s`. -/
def TrapSource.cause (P : Platform) (s : Machine) : TrapSource → Word
  | .exception f => f.cause.code
  | .call d =>
    if ecallFaults P s d.pc then (dasicsEx s.mode).code
    else if d.isEcall P then 8 + BitVec.ofNat 64 s.mode.toNat else Exc.BP.code

/-- The level that the trap enters. -/
def TrapSource.level (P : Platform) (s : Machine) (src : TrapSource) : Level :=
  trapLevel P s (src.cause P s)

/-- An instruction that traps, up to the first state at the trap vector. -/
inductive InstrTrap (P : Platform) (s : Machine) : TrapSource → Machine → Prop where
  | exception : executeStep P s = .error (.exception f) t → handleException P f t = .ok () t' →
      InstrTrap P s (.exception f) t'
  | call : executeStep P s = .ok d t' → d.traps P = true → InstrTrap P s (.call d) t'

/-- The exceptions that have a faulting address. -/
def Exc.addressed : Exc → Bool
  | .IPF | .LPF | .SPF | .IAF | .LAF | .SAF | .LAM | .SAM | .DUCF | .DSCF => true
  | _ => false

/-- The trap value is the faulting address where the exception has one, and zero otherwise. -/
def TvalExact (v : Word) : TrapSource → Prop
  | .exception f => if f.cause.addressed then f.vaddr = some v else v = 0
  | .call _ => v = 0

/-- A trap writes to the registers and the status bits of one level, the one it enters, and leaves
the exact trap value there. -/
structure TrapConfined (P : Platform) (s : Machine) (src : TrapSource) (t : Machine) : Prop where
  entered : t.mode = (src.level P s).mode ∧ t.csr (src.level P s).cause = src.cause P s
  cause : ∀ l, l ≠ src.level P s → t.csr l.cause = s.csr l.cause
  epc : ∀ l, l ≠ src.level P s → t.csr l.epc = s.csr l.epc
  status : ∀ l, l ≠ src.level P s → ∀ i, l.pushes i = true →
    (t.csr .mstatus).getLsbD i = (s.csr .mstatus).getLsbD i
  tval : ∀ l, l ≠ src.level P s → t.csr l.tval = s.csr l.tval
  exact : TvalExact (t.csr (src.level P s).tval) src

/-- When the trap value is exact. A fetch at an address that is not canonical also writes `stval`,
a page fault forced on a fetch takes the values of the execution guide, and an `ecall` that fails
its DASICS check leaves the trap value alone. -/
def TvalSound (P : Platform) (s : Machine) : TrapSource → Prop
  | .exception f =>
    match f.site, TrapSource.level P s (.exception f) with
    | .plain, _ => True
    | .nonCanonicalFetch, l => l = .S ∨ f.vaddr = some (s.csr .stval)
    | .forcedFetch, .M => f.vaddr = some s.guide.mtval
    | .forcedFetch, .S => f.vaddr = some s.guide.stval
    | .forcedFetch, .U => f.vaddr = some (s.csr .utval) ∧
      if intrDelegS s f.cause.code then s.guide.stval = s.csr .stval
      else s.guide.mtval = s.csr .mtval
  | .call d => ecallFaults P s d.pc = false ∨ s.csr (TrapSource.level P s (.call d)).tval = 0

variable {P : Platform} {s t u v : Machine} {d : Decode} {f : Fault} {l l' : Level}
  {src : TrapSource}

section Entry

theorem Level.writes_ne (h : l ≠ l') :
    l'.writes l.cause = false ∧ l'.writes l.epc = false ∧ l'.writes l.tval = false := by
  revert h
  cases l <;> cases l' <;> decide

/-- The status bits of a level. -/
def Level.statusBits : Level → List Nat
  | .U => [0, 4]
  | .S => [1, 5, 8]
  | .M => [3, 7, 11, 12]

theorem Level.pushes_iff : l.pushes i = true ↔ i ∈ l.statusBits := by
  simp only [Level.pushes, Bool.or_eq_true, Bool.and_eq_true, decide_eq_true_eq]
  cases l <;> simp [Level.ie, Level.pie, Level.statusBits, or_assoc]

theorem Level.pushes_ne (h : l ≠ l') (hi : l.pushes i = true) : l'.pushes i = false := by
  by_contra hne
  rw [Bool.not_eq_false, Level.pushes_iff] at hne
  rw [Level.pushes_iff] at hi
  cases l <;> cases l' <;> simp [Level.statusBits] at h hi hne <;> omega

/-- A state that agrees with `s` on what a trap touches and on what decides where it goes. -/
structure SameFrame (s v : Machine) : Prop where
  mode : v.mode = s.mode
  deleg : ∀ c, delegCsr c = true → v.csr c = s.csr c
  cause : ∀ l : Level, v.csr l.cause = s.csr l.cause
  epc : ∀ l : Level, v.csr l.epc = s.csr l.epc
  status : ∀ (l : Level) i, l.pushes i = true →
    (v.csr .mstatus).getLsbD i = (s.csr .mstatus).getLsbD i

/-- The trap itself is confined; what is left is what the trap value registers held before it. -/
theorem SameFrame.confined {epc : Word} (h : SameFrame s v)
    (htrap : ∀ c, trapCsr c = true → t.csr c = (trapEntry P no epc v).csr c)
    (hmode : t.mode = (trapLevel P v no).mode) (hno : src.cause P s = no) :
    TrapConfined P s src t ↔
      (∀ l, l ≠ src.level P s → v.csr l.tval = s.csr l.tval) ∧
        TvalExact (if keepsTval P no then v.csr (src.level P s).tval else 0) src := by
  have hlevel : trapLevel P v no = src.level P s := by
    unfold TrapSource.level
    rw [hno]
    exact trapLevel_congr h.mode h.deleg
  have hcsr : ∀ c, trapCsr c = true → (src.level P s).writes c = false → t.csr c = v.csr c := by
    intro c ht hc
    rw [htrap c ht]
    apply trapEntry_csr
    rw [hlevel]
    exact hc
  have htval : t.csr (src.level P s).tval =
      if keepsTval P no then v.csr (src.level P s).tval else 0 := by
    rw [htrap _ (Level.trapCsr_of _).2.2, ← hlevel]
    exact trapEntry_tval P no epc v
  constructor
  · intro hc
    refine ⟨fun l hl => ?_, ?_⟩
    · rw [← hc.tval l hl, hcsr _ (Level.trapCsr_of l).2.2 (Level.writes_ne hl).2.2]
    · rw [← htval]
      exact hc.exact
  · rintro ⟨hothers, hexact⟩
    refine ⟨⟨?_, ?_⟩, fun l hl => ?_, fun l hl => ?_, fun l hl i hi => ?_, fun l hl => ?_, ?_⟩
    · rw [hmode, hlevel]
    · rw [htrap _ (Level.trapCsr_of _).1, ← hlevel, hno]
      exact trapEntry_cause P no epc v
    · rw [hcsr _ (Level.trapCsr_of l).1 (Level.writes_ne hl).1, h.cause]
    · rw [hcsr _ (Level.trapCsr_of l).2.1 (Level.writes_ne hl).2.1, h.epc]
    · rw [htrap _ rfl, trapEntry_mstatus, hlevel,
        pushStatus_getLsbD _ _ _ (Level.pushes_ne hl hi)]
      exact h.status l i hi
    · rw [hcsr _ (Level.trapCsr_of l).2.2 (Level.writes_ne hl).2.2]
      exact hothers l hl
    · rw [htval]
      exact hexact

end Entry

section Exception

theorem status_of_eraseBits (h : eraseBits .mstatus x = eraseBits .mstatus y)
    (hi : l.pushes i = true) : x.getLsbD i = y.getLsbD i := by
  have hmask : fpStatusMask.getLsbD i = false := by
    rw [Level.pushes_iff] at hi
    revert i
    cases l <;> decide
  have hx : ∀ z : Word, (eraseBits .mstatus z).getLsbD i = z.getLsbD i :=
    fun z => BitField.getLsbD_and_not fpStatusMask z i hmask
  rw [← hx x, h, hx]

theorem Excepted.sameFrame (h : Excepted P s f t) : SameFrame s t where
  mode := h.mode
  deleg c hc := by
    have h1 := h.csr c
    cases c <;> first | exact h1 rfl rfl (by decide) | cases hc
  cause l := by
    have h1 := h.csr l.cause
    cases l <;> exact h1 rfl rfl (by decide)
  epc l := by
    have h1 := h.csr l.epc
    cases l <;> exact h1 rfl rfl (by decide)
  status l i hi := status_of_eraseBits (h.csr .mstatus rfl rfl (by decide)) hi

theorem jumpFaulted_sameFrame (P : Platform) (s : Machine) : SameFrame s (jumpFaulted P s) := by
  have hcsr : ∀ c, faultCsr c = false → (jumpFaulted P s).csr c = s.csr c := by
    intro c hc
    unfold jumpFaulted
    rw [Machine.setCsr_csr_ne, Machine.setCsr_csr_ne]
    · rintro rfl
      cases hc
    · rintro rfl
      revert hc
      cases trapLevel P s (dasicsEx s.mode).code <;> decide
  refine ⟨rfl, fun c hc => hcsr c ?_, fun l => hcsr _ ?_, fun l => hcsr _ ?_, fun l i _ => ?_⟩
  · cases c <;> first | rfl | cases hc
  · cases l <;> rfl
  · cases l <;> rfl
  · rw [hcsr .mstatus rfl]

theorem SameFrame.congr (h : SameFrame s t) (hc : v.csr = t.csr) (hm : v.mode = t.mode) :
    SameFrame s v := by
  obtain ⟨h1, h2, h3, h4, h5⟩ := h
  refine ⟨hm.trans h1, ?_, ?_, ?_, ?_⟩
  all_goals
    rw [hc]
    assumption

theorem addressed_eq (h : isDasicsCause ex = true → P.dasics = true) :
    ex.addressed = keepsTval P ex.code := by
  unfold keepsTval
  cases hP : P.dasics with
  | true => cases ex <;> decide
  | false =>
    rw [hP] at h
    cases ex <;> first | decide | exact absurd (h rfl) (by decide)

/-- Writing to one register keeps the others outside `X` only if that is the one of `X`, or holds
the value already. -/
theorem others_kept_iff {g : Level → Word} {X Y : Level} :
    (∀ l, l ≠ X → (if l = Y then a else g l) = g l) ↔ (X = Y ∨ a = g Y) := by
  constructor
  · intro h
    by_cases hX : X = Y
    · exact .inl hX
    · have h1 := h Y (Ne.symm hX)
      rw [if_pos rfl] at h1
      exact .inr h1
  · intro h l hl
    by_cases hY : l = Y
    · subst hY
      rw [if_pos rfl]
      exact h.resolve_left (Ne.symm hl)
    · exact if_neg hY

theorem nonCanonicalFetch_exact :
    ((∀ l, l ≠ trapLevel P s Exc.IPF.code →
        tvalAfter P s ⟨.IPF, some a, .nonCanonicalFetch⟩ l = s.csr l.tval) ∧
      some a = some (tvalAfter P s ⟨.IPF, some a, .nonCanonicalFetch⟩
        (trapLevel P s Exc.IPF.code))) ↔
    (trapLevel P s Exc.IPF.code = .S ∨ some a = some (s.csr .stval)) := by
  unfold tvalAfter
  dsimp only
  generalize trapLevel P s Exc.IPF.code = X
  have hself : (if X = X ∨ X = .S then a else s.csr X.tval) = a := if_pos (.inl rfl)
  have hothers : (∀ l, l ≠ X → (if l = X ∨ l = .S then a else s.csr l.tval) = s.csr l.tval) ↔
      ∀ l, l ≠ X → (if l = .S then a else s.csr l.tval) = s.csr l.tval := by
    refine forall_congr' fun l => imp_congr_right fun hl => ?_
    simp only [hl, false_or]
  rw [hself, hothers, others_kept_iff]
  simp only [and_true, Option.some_inj]
  rfl

theorem intrDelegS_of_trapLevel (h : trapLevel P s no ≠ .U) :
    intrDelegS s no = decide (trapLevel P s no = .S) := by
  unfold trapLevel at h ⊢
  split at h
  · exact absurd rfl h
  · next hu =>
    rw [if_neg hu]
    cases intrDelegS s no <;> rfl

/-- Which of the two trap value registers that the execution guide knows is written. -/
theorem forcedFetch_exact :
    ((∀ l, l ≠ trapLevel P s Exc.IPF.code →
        tvalAfter P s ⟨.IPF, some a, .forcedFetch⟩ l = s.csr l.tval) ∧
      some a = some (tvalAfter P s ⟨.IPF, some a, .forcedFetch⟩ (trapLevel P s Exc.IPF.code))) ↔
    TvalSound P s (.exception ⟨.IPF, some a, .forcedFetch⟩) := by
  have hdeleg : trapLevel P s Exc.IPF.code ≠ .U → intrDelegS s Exc.IPF.code =
      decide (trapLevel P s Exc.IPF.code = .S) := intrDelegS_of_trapLevel
  unfold TvalSound TrapSource.level TrapSource.cause tvalAfter
  dsimp only
  cases hX : trapLevel P s Exc.IPF.code with
  | U =>
    cases hd : intrDelegS s Exc.IPF.code with
    | true =>
      simp only [↓reduceIte, others_kept_iff, reduceCtorEq, false_or]
      exact and_comm
    | false =>
      simp only [Bool.false_eq_true, ↓reduceIte, others_kept_iff, reduceCtorEq, false_or]
      exact and_comm
  | S =>
    have hd : intrDelegS s Exc.IPF.code = true := by
      rw [hdeleg (by rw [hX]; decide), hX]
      rfl
    simp only [hd, ↓reduceIte, others_kept_iff, true_or, true_and]
  | M =>
    have hd : intrDelegS s Exc.IPF.code = false := by
      rw [hdeleg (by rw [hX]; decide), hX]
      rfl
    simp only [hd, Bool.false_eq_true, ↓reduceIte, others_kept_iff, true_or, true_and]

/-- The trap value registers of an exception, against what they should be. -/
theorem tvalAfter_exact (hva : f.vaddr.isSome = f.cause.addressed)
    (hsite : f.site ≠ .plain → f.cause = .IPF) :
    ((∀ l, l ≠ trapLevel P s f.cause.code → tvalAfter P s f l = s.csr l.tval) ∧
      TvalExact (if f.cause.addressed then tvalAfter P s f (trapLevel P s f.cause.code) else 0)
        (.exception f)) ↔ TvalSound P s (.exception f) := by
  obtain ⟨ex, va, site⟩ := f
  cases site with
  | plain =>
    refine iff_of_true ⟨fun l hl => ?_, ?_⟩ trivial
    · cases va with
      | none => rfl
      | some a => exact if_neg hl
    · cases va with
      | none =>
        have h1 : ex.addressed = false := hva.symm
        simp only [TvalExact, h1]
        rfl
      | some a =>
        have h1 : ex.addressed = true := hva.symm
        simp only [TvalExact, h1, tvalAfter]
        rfl
  | nonCanonicalFetch =>
    obtain rfl : ex = .IPF := hsite fun h => by cases h
    obtain ⟨a, rfl⟩ : ∃ a, va = some a := Option.isSome_iff_exists.mp hva
    exact nonCanonicalFetch_exact
  | forcedFetch =>
    obtain rfl : ex = .IPF := hsite fun h => by cases h
    obtain ⟨a, rfl⟩ : ∃ a, va = some a := Option.isSome_iff_exists.mp hva
    exact forcedFetch_exact

/-- What an exception has left when its trap is taken. -/
structure LeftByFault (P : Platform) (s : Machine) (f : Fault) (t : Machine) : Prop where
  frame : SameFrame s t
  tval : ∀ l : Level, t.csr l.tval = tvalAfter P s f l
  keeps : f.cause.addressed = keepsTval P f.cause.code
  vaddr : f.vaddr.isSome = f.cause.addressed
  site : f.site ≠ .plain → f.cause = .IPF

theorem executeStep_left (h : executeStep P s = .error (.exception f) t) : LeftByFault P s f t := by
  rcases executeStep_excepted h with ⟨hp, rfl, rfl⟩ | ⟨-, he⟩
  · have hkeeps : (dasicsEx s.mode).addressed = true := by
      unfold dasicsEx
      split <;> rfl
    refine ⟨jumpFaulted_sameFrame P s, fun l => ?_, addressed_eq fun _ => hp.1, hkeeps.symm,
      fun h => absurd rfl h⟩
    unfold jumpFaulted
    rw [setCsr_tval]
    refine if_congr Iff.rfl rfl (Machine.setCsr_csr_ne _ _ ?_)
    cases l <;> decide
  · have hkeeps : f.cause.addressed = keepsTval P f.cause.code :=
      addressed_eq fun h1 => (he.raised.reason h1).1
    obtain ⟨hmode, hdeleg, hcause, hepc, hstatus⟩ := he.sameFrame
    exact ⟨⟨hmode, hdeleg, hcause, hepc, hstatus⟩, he.raised.tval, hkeeps,
      he.raised.vaddr.trans hkeeps.symm, he.raised.site⟩

theorem exception_confined (h : executeStep P s = .error (.exception f) t)
    (h' : handleException P f t = .ok () t') :
    TrapConfined P s (.exception f) t' ↔ TvalSound P s (.exception f) := by
  obtain ⟨pc, u, hr, rfl⟩ := handleException_ok h'
  obtain ⟨hcsr, hmode⟩ := raiseIntr_ok hr
  have hleft := executeStep_left h
  have hsame : SameFrame s (faultHandled P f t) :=
    hleft.frame.congr faultHandled_csr faultHandled_mode
  have hconf : TrapConfined P s (.exception f) { u with pc := pc, amo := false } ↔ _ :=
    hsame.confined (fun c _ => congrFun hcsr c) hmode rfl
  rw [hconf, ← tvalAfter_exact hleft.vaddr hleft.site, faultHandled_csr, hleft.keeps]
  simp only [hleft.tval]
  rfl

end Exception

section Call

theorem hostcallTrap_ok (h : hostcallTrap P pc imm epc s = .ok a t) :
    ∃ v, v.mode = s.mode ∧ (∀ c, c ≠ .dfreason → v.csr c = s.csr c) ∧
      raiseIntr P (if ecallFaults P s pc then (dasicsEx s.mode).code else imm) epc v = .ok a t := by
  obtain ⟨_, _, hget, h1⟩ := ok_of_bind h
  cases hget
  dsimp only at h1
  have hset : ∀ c, c ≠ .dfreason →
      (s.setCsr .dfreason FaultReason.DFR_EF.code).csr c = s.csr c :=
    fun c hc => Machine.setCsr_csr_ne s _ hc
  split at h1
  · next hu =>
    obtain ⟨_, _, hs, h2⟩ := ok_of_bind h1
    cases hs
    have hf : ecallFaults P s pc = true := by
      simp [ecallFaults, hu]
    have hex : dasicsEx s.mode = .DUCF := if_pos hu.2.1
    rw [hf, hex]
    exact ⟨s.setCsr .dfreason FaultReason.DFR_EF.code, rfl, hset, h2⟩
  split at h1
  · next hu =>
    obtain ⟨_, _, hs, h2⟩ := ok_of_bind h1
    cases hs
    have hf : ecallFaults P s pc = true := by
      simp [ecallFaults, hu]
    have hex : dasicsEx s.mode = .DSCF := if_neg fun h3 => by rw [hu.2.1] at h3; cases h3
    rw [hf, hex]
    exact ⟨s.setCsr .dfreason FaultReason.DFR_EF.code, rfl, hset, h2⟩
  · next hu hs =>
    have hf : ecallFaults P s pc = false := by
      by_contra hne
      simp only [ecallFaults, Bool.not_eq_false, Bool.and_eq_true, Bool.or_eq_true,
        Bool.not_eq_true', decide_eq_true_eq] at hne
      obtain ⟨⟨huntrusted, hm | hm⟩, hclose⟩ := hne
      · exact hu ⟨huntrusted, hm, hclose⟩
      · exact hs ⟨huntrusted, hm, hclose⟩
    rw [hf]
    exact ⟨s, rfl, fun _ _ => rfl, h1⟩

theorem rtlJ_ok (h : rtlJ P a s = .ok () t) : t.csr = s.csr ∧ t.mode = s.mode := by
  cases h
  dsimp only
  split <;> exact ⟨rfl, rfl⟩

theorem ticked_csr (s : Machine) (P : Platform) (hc : trapCsr c = true) :
    (s.ticked P).csr c = s.csr c := by
  have hmip : c ≠ .mip := by
    rintro rfl
    cases hc
  have hutimer : c ≠ .utimer := by
    rintro rfl
    cases hc
  unfold Machine.ticked utimerTick
  split
  · split
    · exact Machine.setCsr_csr_ne s _ hutimer
    · split
      · exact Machine.setCsr_csr_ne s _ hmip
      · exact Machine.setCsr_csr_ne s _ hmip
  · rfl

theorem sysPriv_traps (hd : d.traps P = true) (h : sysPriv P d s = .ok () t) :
    ∃ v, v.mode = s.mode ∧ (∀ c, c ≠ .dfreason → v.csr c = s.csr c) ∧
      t.csr = (trapEntry P (TrapSource.cause P s (.call d)) d.pc v).csr ∧
      t.mode = (trapLevel P v (TrapSource.cause P s (.call d))).mode := by
  simp only [Decode.traps, Bool.and_eq_true, Bool.or_eq_true, decide_eq_true_eq] at hd
  obtain ⟨a, u, ht, hj⟩ := ok_of_bind h
  have hjump : t.csr = u.csr ∧ t.mode = u.mode := by
    split at hj
    · exact rtlJ_ok hj
    · cases hj
      exact ⟨rfl, rfl⟩
  have hrun : rtlTrap P d (if d.isEcall P then 8 + BitVec.ofNat 64 s.mode.toNat
      else Exc.BP.code) s = .ok a u := by
    obtain ⟨_, _, hget, h1⟩ := ok_of_bind ht
    cases hget
    by_cases he : d.isEcall P = true
    · rw [if_pos he] at h1 ⊢
      exact h1
    · rw [if_neg he, if_pos (hd.2.resolve_left he)] at h1
      rw [if_neg he]
      exact h1
  obtain ⟨a', w, hcall, h1⟩ := ok_of_bind hrun
  obtain ⟨_, w', hj', h2⟩ := ok_of_bind h1
  cases h2
  obtain ⟨v, hm, hcsr, hraise⟩ := hostcallTrap_ok hcall
  obtain ⟨hc, hmode⟩ := raiseIntr_ok hraise
  have hw := rtlJ_ok hj'
  exact ⟨v, hm, hcsr, hjump.1.trans (hw.1.trans hc), hjump.2.trans (hw.2.trans hmode)⟩

theorem ecallFaults_congr (hm : t.mode = s.mode) (h : t.sandbox = s.sandbox) (pc : Word) :
    ecallFaults P t pc = ecallFaults P s pc := by
  unfold ecallFaults Machine.mcfgCloseEcall
  rw [trusted_congr hm h, hm, sandbox_csr h (c := .dsmcfg) rfl]

theorem TrapSource.cause_congr (hm : t.mode = s.mode) (h : t.sandbox = s.sandbox)
    (src : TrapSource) : src.cause P t = src.cause P s := by
  cases src with
  | exception f => rfl
  | call d =>
    unfold TrapSource.cause
    dsimp only
    rw [ecallFaults_congr hm h, hm]

/-- The trap value of a call is cleared, unless the call fails its DASICS check. -/
theorem call_keepsTval :
    keepsTval P (TrapSource.cause P s (.call d)) = ecallFaults P s d.pc := by
  unfold TrapSource.cause
  dsimp only
  cases hf : ecallFaults P s d.pc with
  | true =>
    have hP : P.dasics = true := by
      simp only [ecallFaults, Bool.and_eq_true] at hf
      exact hf.1.1.1
    apply keepsTval_of_dasics hP
    unfold dasicsEx
    split <;> rfl
  | false =>
    rw [if_neg Bool.false_ne_true]
    unfold keepsTval
    split
    · cases P.dasics <;> cases s.mode <;> decide
    · cases P.dasics <;> decide

theorem call_confined (h : executeStep P s = .ok d t) (hd : d.traps P = true) :
    TrapConfined P s (.call d) t ↔ TvalSound P s (.call d) := by
  obtain ⟨_, u, hf, he⟩ := ok_of_bind h
  obtain ⟨rfl, w, hexec, rfl⟩ := executeDecoded_ok he
  have hfetch := fetchDecode_ok hf
  have hd1 := hd
  simp only [Decode.traps, Bool.and_eq_true, decide_eq_true_eq] at hd1
  rw [exec_system hd1.1.1] at hexec
  unfold rtlSysSlowPath at hexec
  rw [if_pos hd1.1.2] at hexec
  obtain ⟨v, hm, hcsr, htrap, hmode⟩ := sysPriv_traps hd hexec
  have hsand : (u.started d).sandbox = s.sandbox := hfetch.sandbox_eq
  have hstart : (u.started d).mode = s.mode := hfetch.mode_eq
  rw [TrapSource.cause_congr hstart hsand] at htrap hmode
  have hsame : ∀ c, c ≠ .dfreason → c ≠ .mip → v.csr c = s.csr c := by
    intro c hdf hmip
    have h1 := congrFun (congrArg Machine.csr hfetch.frame) c
    have hvol : volatileCsr c = false := by
      cases c <;> first | rfl | exact absurd rfl hmip
    simp only [Machine.eraseAccess, hvol] at h1
    exact (hcsr c hdf).trans h1
  have hframe : SameFrame s v := by
    refine ⟨hm.trans hfetch.mode_eq, fun c hc => hsame c ?_ ?_, fun l => hsame _ ?_ ?_,
      fun l => hsame _ ?_ ?_, fun l i _ => ?_⟩
    · rintro rfl
      cases hc
    · rintro rfl
      cases hc
    · cases l <;> decide
    · cases l <;> decide
    · cases l <;> decide
    · cases l <;> decide
    · rw [hsame _ (by decide) (by decide)]
  have htval : ∀ l : Level, v.csr l.tval = s.csr l.tval := by
    intro l
    apply hsame <;> cases l <;> decide
  have hconf : TrapConfined P s (.call d) (w.ticked P) ↔ _ :=
    hframe.confined (fun c hc => (ticked_csr w P hc).trans (congrFun htrap c))
      ((ticked_frame w P).2.1.trans hmode) rfl
  rw [hconf, call_keepsTval, htval]
  unfold TvalExact TvalSound
  simp only [htval]
  cases ecallFaults P s d.pc with
  | true => simp
  | false => simp

end Call

/-- A trap keeps to the level it enters and reports the exact trap value, in just the cases that
`TvalSound` names. -/
theorem trap_frame_confined_iff (h : InstrTrap P s src t) :
    TrapConfined P s src t ↔ TvalSound P s src := by
  cases h with
  | exception h h' => exact exception_confined h h'
  | call h hd => exact call_confined h hd

/-- A load that fails its DASICS check. -/
theorem trap_frame_confined_load :
    ∃ f t, InstrTrap (Platform.bare .standalone)
        (sandboxed (Platform.bare .standalone) [0x00100083]) (.exception f) t ∧
      t.csr .mtval = 1 ∧ TrapConfined (Platform.bare .standalone)
        (sandboxed (Platform.bare .standalone) [0x00100083]) (.exception f) t := by
  have hrun : ∃ f t, InstrTrap (Platform.bare .standalone)
      (sandboxed (Platform.bare .standalone) [0x00100083]) (.exception f) t ∧
      t.csr .mtval = 1 ∧ f.site = .plain :=
    ⟨_, _, .exception rfl rfl, rfl, rfl⟩
  obtain ⟨⟨ex, va, site⟩, t, hrun, htval, hsite⟩ := hrun
  obtain rfl : site = .plain := hsite
  exact ⟨_, t, hrun, htval, (trap_frame_confined_iff hrun).mpr trivial⟩

/-- An `ecall` that fails its DASICS check, with a value left in `mtval`. -/
theorem ecall_fault_stale_tval :
    ∃ d t, InstrTrap (Platform.bare .standalone)
        ((sandboxed (Platform.bare .standalone) [0x00000073]).setCsr .mtval 5) (.call d) t ∧
      t.csr .mcause = Exc.DUCF.code ∧ t.csr .mtval = 5 ∧
      ¬ TrapConfined (Platform.bare .standalone)
        ((sandboxed (Platform.bare .standalone) [0x00000073]).setCsr .mtval 5) (.call d) t := by
  have hrun : ∃ d t, InstrTrap (Platform.bare .standalone)
      ((sandboxed (Platform.bare .standalone) [0x00000073]).setCsr .mtval 5) (.call d) t ∧
      t.csr .mcause = Exc.DUCF.code ∧ t.csr .mtval = 5 ∧
      TrapSource.level (Platform.bare .standalone)
        ((sandboxed (Platform.bare .standalone) [0x00000073]).setCsr .mtval 5) (.call d) = .M :=
    ⟨_, _, .call rfl rfl, rfl, rfl, rfl⟩
  obtain ⟨d, t, hrun, hcause, htval, hlevel⟩ := hrun
  refine ⟨d, t, hrun, hcause, htval, fun h => ?_⟩
  have h0 : t.csr (TrapSource.level _ _ _).tval = 0 := h.exact
  rw [hlevel] at h0
  exact absurd (htval.symm.trans h0) (by decide)

end Nemu
