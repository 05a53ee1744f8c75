import Nemu.Exceptions
import Nemu.Lib.Run
import Nemu.ZoneEntry

namespace Nemu

open Effect

set_option autoImplicit true

def IsTrap (P : Platform) (x : Transition Cpu Event) : Prop :=
  match x.label with
  | .trap _ | .intr _ => True
  | .instr d => d.traps P = true
  | _ => False

def Quiet (tr : List (Transition Cpu Event)) : Prop := ∀ x ∈ tr, x.label = .quiet

/-- No trap is taken while the check of a jump is pending, but the one that reports that it has
failed. -/
def Orderly (P : Platform) (x : Transition Cpu Event) : Prop :=
  match x.label with
  | .trap f => x.source.m.prevIsCfi = false ∨ isJumpFault P x.source.m f = true
  | .intr _ => x.source.m.prevIsCfi = false
  | _ => True

/-- The fetch in `c` applies `dasics_fetch_helper` to the target `t` of the instruction of kind
`k` at `j`, before it fetches anything. -/
structure Applies (P : Platform) (c : Cpu) (t j : Word) (k : CfiType) : Prop where
  phase : c.phase = .run
  target : c.m.pc = t
  pending : c.m.prevIsCfi = true
  fetch : fetchDecode P c.m =
    (dasicsFetchHelper P t j k >>= fun _ => fetchRest P t) { c.m with decPc := t }

/-- The first instruction after a jump, or the first attempt at one, applies the check of the
jump, in the mode of the jump. -/
def ChecksJumps (P : Platform) (tr : List (Transition Cpu Event)) : Prop :=
  ∀ tr₁ x d tr₂ y d', tr = tr₁ ++ x :: tr₂ → x.label = .instr d → d.id.cfiType ≠ .none →
    y ∈ tr₂ → y.label = .instr d' →
    ∃ mid z tr₃, tr₂ = mid ++ z :: tr₃ ∧ Quiet mid ∧ y ∈ z :: tr₃ ∧
      Applies P z.source x.target.m.pc d.pc d.id.cfiType ∧ z.source.m.mode = x.source.m.mode

/-- What is fetched first at a trap vector is not checked, and does not fail a check of a jump. -/
def TrapsUnjudged (P : Platform) (tr : List (Transition Cpu Event)) : Prop :=
  ∀ tr₁ x mid y tr₂, tr = tr₁ ++ x :: (mid ++ y :: tr₂) → IsTrap P x → Quiet mid →
    y.label ≠ .quiet →
    y.source.m.prevIsCfi = false ∧ ∀ f, y.label = .fault f → isJumpFault P y.target.m f = false

/-- A failed check of a jump is reported with the address of the jump and that of its target. -/
def JumpFaultsLocated (P : Platform) (tr : List (Transition Cpu Event)) : Prop :=
  ∀ tr₁ x f tr₂, tr = tr₁ ++ x :: tr₂ → x.label = .trap f →
    isJumpFault P x.source.m f = true →
    ∃ tr₀ w d mid z mid' l, tr₁ = tr₀ ++ w :: mid ++ z :: mid' ∧ w.label = .instr d ∧
      d.id.cfiType ≠ .none ∧ Quiet mid ∧ z.label = .fault f ∧ Quiet mid' ∧
      x.target.m.mode = Level.mode l ∧ x.target.m.csr l.epc = d.pc ∧
      x.target.m.csr l.tval = w.target.m.pc

variable {P : Platform} {s t : Machine} {d : Decode} {f : Fault}

section Step

theorem cfi_blind : TrapBlind Machine.cfi :=
  ⟨fun _ _ => rfl, fun _ _ _ _ => rfl, fun _ => rfl, fun _ => rfl, fun _ => rfl⟩

theorem cfi_csrBlind : CsrBlind Machine.cfi :=
  ⟨fun _ _ => rfl, fun _ _ => rfl, fun _ => rfl, fun _ => rfl, fun _ => rfl⟩

theorem exec_cfi (h : exec P d s = .ok () t) : t.cfi = s.cfi := by
  by_cases hs : d.id = .system
  · rw [exec_system hs] at h
    unfold rtlSysSlowPath at h
    split at h
    · exact cfi_blind.sysPriv.ok h
    · exact cfi_csrBlind.sysCsr.ok h
  · have h1 : t.eraseFlow = s.eraseFlow := (exec_flow hs).ok h
    exact (congrArg Machine.cfi h1 :)

theorem executeStep_cfi (h : executeStep P s = .ok d t) : t.cfi = d.cfi := by
  obtain ⟨_, u, hf, he⟩ := ok_of_bind h
  obtain ⟨rfl, v, hexec, rfl⟩ := executeDecoded_ok he
  rw [(ticked_frame v P).1, exec_cfi hexec, (fetchDecode_ok hf).started_cfi]

theorem executeStep_jump_mode (h : executeStep P s = .ok d t) (hd : d.id.cfiType ≠ .none) :
    t.mode = s.mode := by
  obtain ⟨_, u, hf, he⟩ := ok_of_bind h
  obtain ⟨rfl, v, hexec, rfl⟩ := executeDecoded_ok he
  have hs : d.id ≠ .system := by
    intro hs
    rw [hs] at hd
    exact hd rfl
  have hv : v.mode = u.mode := (congrArg Machine.mode ((exec_flow hs).ok hexec :) :)
  rw [(ticked_frame v P).2.1, hv, (fetchDecode_ok hf).mode_eq]

theorem handleException_cfi (h : handleException P f s = .ok () t)
    (hs : s.prevIsCfi = false ∨ isJumpFault P s f = true) : t.prevIsCfi = false := by
  obtain ⟨pc, u, hr, rfl⟩ := handleException_ok h
  have hu := congrArg Cfi.prevIsCfi (cfi_blind.raiseIntr.ok hr)
  refine hu.trans ?_
  change (faultHandled P f s).prevIsCfi = false
  unfold faultHandled
  split
  · rfl
  · next hne => exact hs.resolve_right hne

theorem takeIntr_cfi (h : takeIntr P no s = .ok () t) : t.prevIsCfi = s.prevIsCfi := by
  obtain ⟨_, _, hget, h1⟩ := ok_of_bind h
  cases hget
  obtain ⟨pc, u, hr, h2⟩ := ok_of_bind h1
  cases h2
  have hu := congrArg Cfi.prevIsCfi (cfi_blind.raiseIntr.ok hr)
  exact hu

theorem quiet_step (h : CpuStep P a .quiet b) :
    b.m.eraseAccess = a.m.eraseAccess ∧ ((∀ f, a.phase ≠ .exn f) → ∀ f, b.phase ≠ .exn f) := by
  cases h with
  | batchEnd => exact ⟨rfl, fun _ f h => by cases h⟩
  | noIntr _ => exact ⟨rfl, fun _ f h => by cases h⟩
  | alarm _ => exact ⟨eraseAccess_setMtip _ _, fun h => h⟩

theorem fetchDecode_pending (hP : P.dasics = true) (hs : s.prevIsCfi = true) :
    fetchDecode P s = (dasicsFetchHelper P s.pc s.prevPc s.prevType >>= fun _ =>
      fetchRest P s.pc) { s with decPc := s.pc } := by
  have hcheck : checkPending P s.pc { s with decPc := s.pc } =
      dasicsFetchHelper P s.pc s.prevPc s.prevType { s with decPc := s.pc } := by
    refine congrFun (if_pos ?_) _
    rw [hP]
    exact hs
  have h1 : fetchDecode P s =
      (checkPending P s.pc >>= fun _ => fetchRest P s.pc) { s with decPc := s.pc } := rfl
  rw [h1]
  cases hc : dasicsFetchHelper P s.pc s.prevPc s.prevType { s with decPc := s.pc } with
  | ok a t => rw [bind_ok hc, bind_ok (hcheck.trans hc)]
  | error e t => rw [bind_error hc, bind_error (hcheck.trans hc)]

end Step

/-- The check of the instruction `d`, which goes on to `t`, is pending outside a trap. -/
structure Pends (d : Decode) (target : Word) (mode : Mode) (c : Cpu) : Prop where
  phase : ∀ f, c.phase ≠ .exn f
  cfi : c.m.cfi = d.cfi
  pc : c.m.pc = target
  mode : c.m.mode = mode

theorem Pends.quiet (hp : Pends d a m c) (h : CpuStep P c .quiet c') : Pends d a m c' := by
  obtain ⟨hm, hph⟩ := quiet_step h
  exact ⟨hph hp.phase, (congrArg Machine.cfi hm :).trans hp.cfi,
    (congrArg Machine.pc hm :).trans hp.pc, (congrArg Machine.mode hm :).trans hp.mode⟩

theorem Pends.applies (hP : P.dasics = true) (hd : d.id.cfiType ≠ .none) (hp : Pends d a m c)
    (hc : c.phase = .run) : Applies P c a d.pc d.id.cfiType := by
  have hj : c.m.prevPc = d.pc := congrArg Cfi.prevPc hp.cfi
  have hk : c.m.prevType = d.id.cfiType := congrArg Cfi.prevType hp.cfi
  have hi : c.m.prevIsCfi = true := (congrArg Cfi.prevIsCfi hp.cfi).trans (decide_eq_true hd)
  obtain rfl := hp.pc
  refine ⟨hc, rfl, hi, ?_⟩
  rw [← hj, ← hk]
  exact fetchDecode_pending hP hi

/-- From a state in which a check is pending, an orderly run first applies it. -/
theorem Pends.run (hP : P.dasics = true) (hd : d.id.cfiType ≠ .none) (hp : Pends d a m c)
    (hr : Run (CpuStep P) c tr c') (hgood : ∀ x ∈ tr, Orderly P x) (hy : y ∈ tr)
    (hl : y.label = .instr d') :
    ∃ mid z tr₃, tr = mid ++ z :: tr₃ ∧ Quiet mid ∧ y ∈ z :: tr₃ ∧
      Applies P z.source a d.pc d.id.cfiType ∧ z.source.m.mode = m := by
  induction hr with
  | nil => cases hy
  | @cons c ev b tr c' hs hr ih =>
    have hnow : c.phase = .run → ∃ mid z tr₃, ⟨c, ev, b⟩ :: tr = mid ++ z :: tr₃ ∧ Quiet mid ∧
        y ∈ z :: tr₃ ∧ Applies P z.source a d.pc d.id.cfiType ∧ z.source.m.mode = m :=
      fun hc => ⟨[], _, tr, rfl, fun x hx => absurd hx List.not_mem_nil, hy,
        hp.applies hP hd hc, hp.mode⟩
    have hquiet : ev = .quiet → ∃ mid z tr₃, ⟨c, ev, b⟩ :: tr = mid ++ z :: tr₃ ∧ Quiet mid ∧
        y ∈ z :: tr₃ ∧ Applies P z.source a d.pc d.id.cfiType ∧ z.source.m.mode = m := by
      intro hev
      subst hev
      have hy' : y ∈ tr := by
        rcases List.mem_cons.mp hy with rfl | hy'
        · cases hl
        · exact hy'
      obtain ⟨mid, z, tr₃, rfl, hmid, hz, ha, hm⟩ :=
        ih (hp.quiet hs) (fun x hx => hgood x (List.mem_cons_of_mem _ hx)) hy'
      refine ⟨⟨c, .quiet, b⟩ :: mid, z, tr₃, rfl, fun x hx => ?_, hz, ha, hm⟩
      rcases List.mem_cons.mp hx with rfl | hx
      · rfl
      · exact hmid x hx
    cases hs with
    | instr _ => exact hnow rfl
    | fault _ => exact hnow rfl
    | batchEnd => exact hquiet rfl
    | noIntr _ => exact hquiet rfl
    | alarm _ => exact hquiet rfl
    | trap _ => exact absurd rfl (hp.phase _)
    | intr _ _ _ _ =>
      have h1 := hgood _ List.mem_cons_self
      change Machine.prevIsCfi _ = false at h1
      have h2 := (congrArg Cfi.prevIsCfi hp.cfi).trans (decide_eq_true hd)
      exact absurd (h1.symm.trans h2) Bool.false_ne_true

theorem checksJumps_of_orderly (hP : P.dasics = true) (hr : Run (CpuStep P) c tr c')
    (hgood : ∀ x ∈ tr, Orderly P x) : ChecksJumps P tr := by
  intro tr₁ x d tr₂ y d' htr hx hd hy hl
  subst htr
  obtain ⟨a, ev, b⟩ := x
  obtain rfl : ev = .instr d := hx
  obtain ⟨-, hstep, hrest⟩ := hr.split
  have hgood₂ : ∀ z ∈ tr₂, Orderly P z := fun z hz =>
    hgood z (List.mem_append_right _ (List.mem_cons_of_mem _ hz))
  cases hstep with
  | @instr s _ t h =>
    have hph : ∀ f, Phase.run ≠ .exn f := fun f h => by cases h
    have hp : Pends d t.pc s.mode ⟨.run, t⟩ :=
      ⟨hph, executeStep_cfi h, rfl, executeStep_jump_mode h hd⟩
    exact hp.run hP hd hrest hgood₂ hy hl

theorem IsTrap.unpends (hs : CpuStep P x.source x.label x.target) (hx : IsTrap P x)
    (ho : Orderly P x) : x.target.m.prevIsCfi = false := by
  obtain ⟨a, ev, b⟩ := x
  cases hs with
  | instr h =>
    have hd : Decode.traps P _ = true := hx
    have h1 := congrArg Cfi.prevIsCfi (executeStep_cfi h)
    refine h1.trans ?_
    simp only [Decode.traps, Bool.and_eq_true, decide_eq_true_eq] at hd
    simp only [Decode.cfi, hd.1.1]
    rfl
  | trap h => exact handleException_cfi h ho
  | intr _ _ _ h => exact (takeIntr_cfi h).trans ho
  | fault _ => exact hx.elim
  | batchEnd => exact hx.elim
  | noIntr _ => exact hx.elim
  | alarm _ => exact hx.elim

theorem quiet_run (hr : Run (CpuStep P) a tr b) (hq : Quiet tr) :
    b.m.eraseAccess = a.m.eraseAccess := by
  refine hr.invariant (I := fun u => u.m.eraseAccess = a.m.eraseAccess) hq rfl ?_
  intro x hx hs h
  rw [hx] at hs
  exact (quiet_step hs).1.trans h

/-- Only a pending check makes a jump fault. -/
theorem jumpFault_pending (h : executeStep P s = .error (.exception f) t)
    (hf : isJumpFault P t f = true) :
    PendingFails P s ∧ f = ⟨dasicsEx s.mode, some s.pc, .plain⟩ ∧ t = jumpFaulted P s := by
  rcases executeStep_excepted h with h1 | ⟨-, h1⟩
  · exact h1
  · unfold isJumpFault at hf
    rw [Bool.and_eq_true, Bool.and_eq_true, decide_eq_true_eq] at hf
    exact absurd hf.2 (h1.raised.reason hf.1.2).2

theorem trapsUnjudged_of_orderly (hr : Run (CpuStep P) c tr c')
    (hgood : ∀ x ∈ tr, Orderly P x) : TrapsUnjudged P tr := by
  intro tr₁ x mid y tr₂ htr hx hmid hy
  subst htr
  obtain ⟨-, hstep, hrest⟩ := hr.split
  obtain ⟨hquiet, hnext, -⟩ := hrest.split
  have h0 : x.target.m.prevIsCfi = false :=
    hx.unpends hstep (hgood x (List.mem_append_right _ List.mem_cons_self))
  have h1 : y.source.m.prevIsCfi = false :=
    (congrArg Machine.prevIsCfi (quiet_run hquiet hmid) :).trans h0
  refine ⟨h1, fun f hf => ?_⟩
  obtain ⟨a, ev, b⟩ := y
  obtain rfl : ev = .fault f := hf
  cases hnext with
  | fault h =>
    by_contra hne
    have hp := (jumpFault_pending h (by simpa using hne)).1
    exact absurd (h1.symm.trans hp.2.1) Bool.false_ne_true

section Located

/-- The last instruction of a run is a jump, with its check pending in `s`. -/
def Owes (tr : List (Transition Cpu Event)) (s : Machine) : Prop :=
  ∃ tr₀ w d mid, tr = tr₀ ++ w :: mid ∧ w.label = .instr d ∧ d.id.cfiType ≠ .none ∧ Quiet mid ∧
    s.prevPc = d.pc ∧ s.pc = w.target.m.pc

/-- Where a pending check and a jump fault come from. -/
structure Located (P : Platform) (tr : List (Transition Cpu Event)) (c : Cpu) : Prop where
  pending : (∀ f, c.phase ≠ .exn f) → c.m.prevIsCfi = true → Owes tr c.m
  fault : ∀ f, c.phase = .exn f → isJumpFault P c.m f = true →
    ∃ tr₀ z mid, tr = tr₀ ++ z :: mid ∧ z.label = .fault f ∧ Quiet mid ∧ Owes tr₀ z.source.m ∧
      c.m.prevPc = z.source.m.prevPc ∧
      c.m.csr (trapLevel P c.m f.cause.code).tval = z.source.m.pc

theorem quiet_append (h : Quiet tr) (hx : x.label = .quiet) : Quiet (tr ++ [x]) := by
  intro y hy
  rcases List.mem_append.mp hy with hy | hy
  · exact h y hy
  · rw [List.mem_singleton.mp hy]
    exact hx

theorem Owes.quiet (h : Owes tr s) (hx : x.label = .quiet) (hst : t.eraseAccess = s.eraseAccess) :
    Owes (tr ++ [x]) t := by
  obtain ⟨tr₀, w, d, mid, rfl, hw, hd, hmid, hj, ht⟩ := h
  refine ⟨tr₀, w, d, mid ++ [x], by simp, hw, hd, quiet_append hmid hx, ?_, ?_⟩
  · exact (congrArg Machine.prevPc hst :).trans hj
  · exact (congrArg Machine.pc hst :).trans ht

theorem tval_setMtip (b : Bool) (s : Machine) (l : Level) :
    (setMtip (some b) s).csr l.tval = s.csr l.tval := by
  cases l <;> rfl

theorem Located.quiet (h : Located P tr x.source) (hs : CpuStep P x.source x.label x.target)
    (hx : x.label = .quiet) : Located P (tr ++ [x]) x.target := by
  obtain ⟨a, ev, b⟩ := x
  obtain rfl : ev = .quiet := hx
  refine ⟨fun hph hb => ?_, fun f hph hf => ?_⟩
  · have ha : ∀ f, a.phase ≠ .exn f := by
      cases hs with
      | batchEnd => exact fun f h => by cases h
      | noIntr _ => exact fun f h => by cases h
      | alarm _ => exact hph
    have hm := (quiet_step hs).1
    exact (h.pending ha ((congrArg Machine.prevIsCfi hm :).symm.trans hb)).quiet rfl hm
  · cases hs with
    | batchEnd => cases hph
    | noIntr _ => cases hph
    | @alarm ph s b _ =>
      obtain ⟨tr₀, z, mid, htr, hz, hmid, ho, hj, ht⟩ := h.fault f hph hf
      refine ⟨tr₀, z, mid ++ [⟨⟨ph, s⟩, .quiet, ⟨ph, setMtip (some b) s⟩⟩], ?_, hz,
        quiet_append hmid rfl, ho, hj, ?_⟩
      · rw [htr, List.append_assoc, List.cons_append]
      · exact (tval_setMtip _ _ _).trans ht

theorem jumpFaulted_tval (P : Platform) (s : Machine) :
    (jumpFaulted P s).csr (trapLevel P (jumpFaulted P s) (dasicsEx s.mode).code).tval = s.pc := by
  have h1 : trapLevel P (jumpFaulted P s) (dasicsEx s.mode).code =
      trapLevel P s (dasicsEx s.mode).code := by
    refine trapLevel_congr rfl fun c hc => ?_
    unfold jumpFaulted
    rw [Machine.setCsr_csr_ne, Machine.setCsr_csr_ne]
    · rintro rfl
      cases hc
    · rintro rfl
      revert hc
      cases trapLevel P s (dasicsEx s.mode).code <;> decide
  rw [h1]
  exact Machine.setCsr_csr_self _ _ _

theorem Located.step (h : Located P tr x.source) (ho : Orderly P x)
    (hs : CpuStep P x.source x.label x.target) : Located P (tr ++ [x]) x.target := by
  obtain ⟨a, ev, b⟩ := x
  have hidle : b.m.prevIsCfi = false → (∀ f, b.phase ≠ .exn f) →
      Located P (tr ++ [⟨a, ev, b⟩]) b := fun h0 hph =>
    ⟨fun _ h1 => absurd (h0.symm.trans h1) Bool.false_ne_true, fun f hf => absurd hf (hph f)⟩
  cases hs with
  | @instr s d t he =>
    refine ⟨fun _ hp => ?_, fun f hf => by cases hf⟩
    have hcfi := executeStep_cfi he
    refine ⟨tr, _, d, [], rfl, rfl, ?_, fun x hx => absurd hx List.not_mem_nil, ?_, rfl⟩
    · have h1 : decide (d.id.cfiType ≠ .none) = true :=
        (congrArg Cfi.prevIsCfi hcfi).symm.trans hp
      exact of_decide_eq_true h1
    · exact congrArg Cfi.prevPc hcfi
  | @fault s f t he =>
    refine ⟨fun hph => absurd rfl (hph f), fun f' hph hf => ?_⟩
    cases hph
    obtain ⟨hp, rfl, rfl⟩ := jumpFault_pending he hf
    have howe := h.pending (fun f h => by cases h) hp.2.1
    refine ⟨tr, _, [], rfl, rfl, fun x hx => absurd hx List.not_mem_nil, howe, ?_, ?_⟩
    · rfl
    · exact jumpFaulted_tval P s
  | trap he =>
    refine hidle (handleException_cfi he ho) fun f => ?_
    dsimp only
    split
    · exact fun h => by cases h
    · exact fun h => by cases h
  | intr _ _ _ he => exact hidle ((takeIntr_cfi he).trans ho) fun f h => by cases h
  | batchEnd => exact h.quiet .batchEnd rfl
  | noIntr hq => exact h.quiet (.noIntr hq) rfl
  | alarm hq => exact h.quiet (.alarm hq) rfl

theorem handleException_jumpFault (h : handleException P f s = .ok () t)
    (hf : isJumpFault P s f = true) :
    t.mode = (trapLevel P s f.cause.code).mode ∧
      t.csr (trapLevel P s f.cause.code).epc = s.prevPc ∧
      t.csr (trapLevel P s f.cause.code).tval = s.csr (trapLevel P s f.cause.code).tval := by
  obtain ⟨pc, u, hr, rfl⟩ := handleException_ok h
  obtain ⟨hcsr, hmode⟩ := raiseIntr_ok hr
  have hlevel : trapLevel P (faultHandled P f s) f.cause.code = trapLevel P s f.cause.code :=
    trapLevel_congr faultHandled_mode fun c _ => congrFun faultHandled_csr c
  have hepc : faultEpc P f s = s.prevPc := if_pos hf
  have hkeeps : keepsTval P f.cause.code = true := by
    unfold isJumpFault at hf
    rw [Bool.and_eq_true, Bool.and_eq_true] at hf
    exact keepsTval_of_dasics hf.1.1 hf.1.2
  rw [← hlevel]
  refine ⟨hmode, ?_, ?_⟩
  · change u.csr _ = _
    rw [hcsr, trapEntry_epc, hepc]
  · change u.csr _ = _
    rw [hcsr, trapEntry_tval, if_pos hkeeps, faultHandled_csr]

theorem jumpFaultsLocated_of_orderly (hr : Run (CpuStep P) c tr c')
    (hgood : ∀ x ∈ tr, Orderly P x) (h0 : Located P [] c) : JumpFaultsLocated P tr := by
  intro tr₁ x f tr₂ htr hx hf
  subst htr
  obtain ⟨hrun, hstep, -⟩ := hr.split
  have hloc : Located P tr₁ x.source := by
    refine hrun.history (fun y hy => hgood y (List.mem_append_left _ hy)) h0 ?_
    intro tr y ho hs hI
    exact hI.step ho hs
  obtain ⟨a, ev, b⟩ := x
  obtain rfl : ev = .trap f := hx
  cases hstep with
  | @trap f s t he =>
    obtain ⟨tr₀, z, mid', rfl, hz, hmid', ⟨tr₀, w, d, mid, rfl, hw, hd, hmid, hj, ht⟩, hpc, htv⟩ :=
      hloc.fault f rfl hf
    obtain ⟨hmode, hepc, htval⟩ := handleException_jumpFault he hf
    refine ⟨tr₀, w, d, mid, z, mid', trapLevel P s f.cause.code, rfl, hw, hd, hmid, hz, hmid',
      hmode, ?_, ?_⟩
    · exact hepc.trans (hpc.trans hj)
    · exact htval.trans (htv.trans ht)

end Located

/-- In a run in which no trap is taken while the check of a jump is pending, every jump is checked,
no trap is charged to the code it interrupts, and a failed check is reported where it belongs. -/
theorem jump_check_survives_traps (hP : P.dasics = true) (hr : Run (CpuStep P) c tr c')
    (hph : ∀ f, c.phase ≠ .exn f) (h0 : c.m.prevIsCfi = false)
    (hgood : ∀ x ∈ tr, Orderly P x) :
    ChecksJumps P tr ∧ TrapsUnjudged P tr ∧ JumpFaultsLocated P tr := by
  have hloc : Located P [] c :=
    ⟨fun _ h1 => absurd (h0.symm.trans h1) Bool.false_ne_true, fun f hf => absurd hf (hph f)⟩
  exact ⟨checksJumps_of_orderly hP hr hgood, trapsUnjudged_of_orderly hr hgood,
    jumpFaultsLocated_of_orderly hr hgood hloc⟩

/-- User code whose fetch faults go to a supervisor that is under DASICS checks. -/
def delegated (P : Platform) (instrs : List (BitVec 32)) : Machine :=
  ((sandboxed P instrs).setCsr .medeleg 2).setCsr .dsmcfg 1

/-- A jump of an untrusted library to another place in it. -/
theorem jump_check_survives_jump_fault :
    ∃ tr c, Run (CpuStep (Platform.bare .standalone))
        ⟨.run, sandboxed (Platform.bare .standalone) [0x0040006f, 0x00100593]⟩ tr c ∧
      c.m.csr .mepc = 0x80100000 ∧ c.m.csr .mtval = 0x80100004 ∧
      ChecksJumps (Platform.bare .standalone) tr ∧ TrapsUnjudged (Platform.bare .standalone) tr ∧
      JumpFaultsLocated (Platform.bare .standalone) tr := by
  have hrun : ∃ tr c, Run (CpuStep (Platform.bare .standalone))
      ⟨.run, sandboxed (Platform.bare .standalone) [0x0040006f, 0x00100593]⟩ tr c ∧
      (∀ x ∈ tr, Orderly (Platform.bare .standalone) x) ∧
      c.m.csr .mepc = 0x80100000 ∧ c.m.csr .mtval = 0x80100004 := by
    refine ⟨_, _, .cons (.instr rfl) (.cons (.fault rfl) (.cons (.trap rfl) .nil)), ?_, rfl, rfl⟩
    intro x hx
    simp only [List.mem_cons, List.not_mem_nil, or_false] at hx
    rcases hx with rfl | rfl | rfl
    · trivial
    · trivial
    · exact .inr rfl
  obtain ⟨tr, c, hr, hgood, he, ht⟩ := hrun
  exact ⟨tr, c, hr, he, ht, jump_check_survives_traps rfl hr (fun f h => by cases h) rfl hgood⟩

/-- A jump to where nothing can be fetched: the check of the jump is made again at the trap vector,
in another mode, and fails there. -/
theorem trap_vector_judged :
    ∃ tr c, Run (CpuStep (Platform.bare .standalone))
        ⟨.run, delegated (Platform.bare .standalone) [0x00000067]⟩ tr c ∧
      (delegated (Platform.bare .standalone) [0x00000067]).prevIsCfi = false ∧
      c.phase = .exn ⟨.DSCF, some 0, .plain⟩ ∧ ¬ TrapsUnjudged (Platform.bare .standalone) tr := by
  refine ⟨_, _, .cons (.instr rfl) (.cons (.fault rfl) (.cons (.trap rfl) (.cons (.fault rfl) .nil))),
    rfl, rfl, fun h => ?_⟩
  obtain ⟨hpending, -⟩ :=
    h [_, _] _ [] _ [] rfl trivial (fun x hx => absurd hx List.not_mem_nil) (by decide)
  exact absurd hpending (by decide)

end Nemu
