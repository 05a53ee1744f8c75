import Nemu.Hidden

namespace Nemu

open Effect

set_option autoImplicit true

/-- `cpu_exec(1)` of the reference: an exception is handled before it returns, and it also returns when
the guest program has ended. -/
def cpuExecOne (P : Platform) : Exec Unit := fun s =>
  match executeStep P s with
  | .ok _ t => .ok () t
  | .error (.exception f) t => handleException P f t
  | .error .execEnd t => .ok () t
  | .error (.abort a) t => .error (.abort a) t

/-- `longjmp_exception` clears `guided_exec` too, which nothing reads before it is cleared here. -/
def isaDifftestGuidedExec (P : Platform) (g : ExecutionGuide) : Exec Unit := do
  modify fun s => { s with guide := g, guidedExec := true }
  cpuExecOne P
  modify fun s => { s with guidedExec := false }

def Machine.unguided (s : Machine) : Machine := { s with guidedExec := false }

/-- What a step is compared by. -/
structure SameArch (s t : Machine) : Prop where
  gpr : t.gpr = s.gpr
  fpr : t.fpr = s.fpr
  csr : t.csr = s.csr
  pmem : t.pmem = s.pmem
  pc : t.pc = s.pc

/-- The instruction is no indirect jump that writes a link register, or its link value is the address it
is guided to. -/
def LinkSafe (P : Platform) (s : Machine) (target : Word) : Prop :=
  ∀ d u, fetchDecode P s = .ok d u →
    (d.id = .jalr → d.dest.preg = .zeroNull ∨ d.snpc = target) ∧
    (d.id = .dasicscall_jr → dasicsInTrustedZone u d.pc = true → d.snpc = target)

/-- No vector executor looks at the guide, at the `pc` of the state or at the substitute of `x0`. -/
def Platform.VectorOblivious (P : Platform) : Prop := ∀ d, (P.vector d).Oblivious

/-- The first run is not guided, the second one is guided to `target` and may have gone there. -/
structure GuidedTo (target : Word) (h h' : Hidden) : Prop where
  unguided : h.guidedExec = false
  guided : h'.guidedExec = true
  calm : h'.guide.forceRaiseException = false
  jumps : h'.guide.forceSetJumpTarget = true
  leads : h'.guide.jumpTarget = target
  pc : h'.pc = h.pc ∨ h'.pc = target
  last : h'.last = h.last

variable {P : Platform} {d : Decode} {s t u v : Machine} {g : ExecutionGuide} {target : Word}

section Relation

theorem redirect_unguided {h : Hidden} (hu : h.guidedExec = false) (a : Word) : h.redirect P a = a := by
  unfold Hidden.redirect
  rw [if_neg]
  rintro ⟨-, hg, -⟩
  exact absurd (hu.symm.trans hg) Bool.false_ne_true

theorem GuidedTo.redirect (hP : P.guidedExec = true) (h : GuidedTo target x y) (a : Word) :
    y.redirect P a = target := by
  unfold Hidden.redirect
  rw [if_pos ⟨hP, h.guided, h.jumps⟩]
  exact h.leads

theorem guidedTo_masks (hP : P.guidedExec = true) : Masks P (GuidedTo target) where
  forced := by
    intro h h' hq
    unfold Hidden.forced
    rw [hq.unguided, hq.calm, Bool.false_and, Bool.and_false]
    rfl
  last h h' hq := hq.last
  ended h h' l hq := ⟨hq.unguided, hq.guided, hq.calm, hq.jumps, hq.leads, hq.pc, rfl⟩
  null h h' v v' hq := ⟨hq.unguided, hq.guided, hq.calm, hq.jumps, hq.leads, hq.pc, hq.last⟩
  pc h h' a hq := ⟨hq.unguided, hq.guided, hq.calm, hq.jumps, hq.leads, .inl rfl, hq.last⟩
  jump h h' a hq := ⟨hq.unguided, hq.guided, hq.calm, hq.jumps, hq.leads, .inr (hq.redirect hP a), hq.last⟩

theorem guidedTo_sameLink (hP : P.guidedExec = true) (ha : a = target) :
    SameLink P (GuidedTo target) a := by
  intro h h' hq
  rw [redirect_unguided hq.unguided, hq.redirect hP]
  exact ha

theorem hides_guided (s : Machine) (hset : g.forceSetJumpTarget = true)
    (hraise : g.forceRaiseException = false) :
    Hides (AtPc (GuidedTo g.jumpTarget)) s.unguided { s with guide := g, guidedExec := true } :=
  ⟨⟨s.pc, s.zeroNull, true, g, s.last⟩, rfl, ⟨rfl, rfl, hraise, hset, rfl, .inl rfl, rfl⟩, rfl⟩

end Relation

section Jumps

theorem readReg_ok (l : Loc) (s : Machine) : readReg l s = .ok (s.readLoc l) s := rfl

theorem rtlJ_loc (P : Platform) (a : Word) (s : Machine) : ∃ t, rtlJ P a s = .ok () t ∧
    t.gpr = s.gpr ∧ t.fpr = s.fpr ∧ t.csr = s.csr := by
  refine ⟨_, rfl, ?_⟩
  dsimp only
  split
  · exact ⟨rfl, rfl, rfl⟩
  · exact ⟨rfl, rfl, rfl⟩

theorem readLoc_congr (hl : l ≠ .zeroNull) (hg : t.gpr = s.gpr) (hf : t.fpr = s.fpr) :
    t.readLoc l = s.readLoc l := by
  cases l with
  | gpr r => exact congrFun hg r
  | fpr r => exact congrFun hf r
  | zeroNull => exact absurd rfl hl

theorem readLoc_writeLoc (s : Machine) (l : Loc) (x : Word) : (s.writeLoc l x).readLoc l = x := by
  cases l with
  | gpr r | fpr r => exact Function.update_self _ _ _
  | zeroNull => rfl

theorem exec_jalr_link (hid : d.id = .jalr) (hl : d.dest.preg ≠ .zeroNull) (s : Machine) :
    ∃ t, exec P d s = .ok () t ∧ t.readLoc d.dest.preg = linkValue P s d.snpc := by
  obtain ⟨t, ht, hg, hf, -⟩ := rtlJ_loc P ((s.readLoc d.src1.preg + d.src2.imm) &&& ~~~1)
    (s.writeLoc d.dest.preg (linkValue P s d.snpc))
  refine ⟨t, ?_, (readLoc_congr hl hg hf).trans (readLoc_writeLoc _ _ _)⟩
  unfold exec
  rw [hid]
  exact ht

theorem exec_dasicscallJr_link (hid : d.id = .dasicscall_jr) (s : Machine)
    (htr : dasicsInTrustedZone s d.pc = true) :
    ∃ t, exec P d s = .ok () t ∧ t.csr .dretpc = linkValue P s d.snpc := by
  obtain ⟨t, ht, -, -, hc⟩ := rtlJ_loc P ((s.readLoc d.src1.preg + d.src2.imm) &&& ~~~1)
    ((s.setCsr .dretpc (linkValue P s d.snpc)).writeLoc d.dest.preg (linkValue P s d.snpc))
  refine ⟨t, ?_, ?_⟩
  · have hcheck : dasicsCheckTrusted d.pc s = .ok () s := by
      unfold dasicsCheckTrusted
      rw [get_bind, if_pos htr]
      rfl
    have hset : rtlSetDretpc d (linkValue P s d.snpc) s =
        .ok () (s.setCsr .dretpc (linkValue P s d.snpc)) := bind_ok hcheck
    unfold exec
    rw [hid]
    exact (bind_ok (readReg_ok d.src1.preg s)).trans ((get_bind _ s).trans ((bind_ok hset).trans ht))
  · rw [hc]
    have hw : ∀ (l : Loc) (m : Machine) (x : Word), (m.writeLoc l x).csr = m.csr := by
      intro l m x
      cases l <;> rfl
    rw [hw]
    exact s.setCsr_csr_self _ _

/-- Untrusted code may not make a DASICS call. -/
theorem exec_dasicscallJr_untrusted (hid : d.id = .dasicscall_jr) (s : Machine)
    (htr : dasicsInTrustedZone s d.pc = false) :
    exec P d s = .error (.exception ⟨.II, none, .plain⟩) s := by
  have hcheck : dasicsCheckTrusted d.pc s = .error (.exception ⟨.II, none, .plain⟩) s := by
    unfold dasicsCheckTrusted
    rw [get_bind, if_neg (Bool.eq_false_iff.mp htr)]
    rfl
  have hset : rtlSetDretpc d (linkValue P s d.snpc) s = .error (.exception ⟨.II, none, .plain⟩) s :=
    bind_error hcheck
  unfold exec
  rw [hid]
  exact (bind_ok (readReg_ok d.src1.preg s)).trans ((get_bind _ s).trans (bind_error hset))

end Jumps

section Step

/-- A guided executor follows the unguided one, also where it has been led away already. -/
theorem exec_guided (hP : P.guidedExec = true) (hv : P.VectorOblivious)
    (hlink : LinkSafe P s target) (hf : fetchDecode P s = .ok d u)
    (hr : Hides (GuidedTo target) (u.started d) v) :
    Match (Hides (GuidedTo target)) (exec P d (u.started d)) (exec P d v) := by
  obtain ⟨f, -, hd⟩ := fetchDecode_formed hf
  obtain ⟨hjalr, hcall⟩ := hlink d u hf
  by_cases hun : d.id = .dasicscall_jr ∧ dasicsInTrustedZone u d.pc = false
  · obtain ⟨h, rfl, hq⟩ := hr
    have htr : dasicsInTrustedZone (u.started d) d.pc = false := hun.2
    have htr' : dasicsInTrustedZone ((u.started d).withHidden h) d.pc = false := hun.2
    rw [exec_dasicscallJr_untrusted hun.1 _ htr, exec_dasicscallJr_untrusted hun.1 _ htr']
    exact .error _ ⟨h, rfl, hq⟩
  · refine exec_oblivious (guidedTo_masks hP) hd (fun hid => ?_) (fun hid => ?_) (fun m _ => hv d) _ _ hr
    · exact (hjalr hid).imp_right (guidedTo_sameLink hP)
    · have htr : dasicsInTrustedZone u d.pc = true := by
        rw [← Bool.not_eq_false]
        exact fun h => hun ⟨hid, h⟩
      exact guidedTo_sameLink hP (hcall hid htr)

theorem cpuExecOne_guided (hP : P.guidedExec = true) (hv : P.VectorOblivious) (hlink : LinkSafe P s target)
    (hr : Hides (AtPc (GuidedTo target)) s t) :
    Match (Hides (GuidedTo target)) (cpuExecOne P s) (cpuExecOne P t) := by
  have hstep := executeStep_match (guidedTo_masks hP) hr fun d u v hf hu => exec_guided hP hv hlink hf hu
  unfold cpuExecOne
  cases hs : executeStep P s with
  | ok d u =>
    rw [hs] at hstep
    obtain ⟨v, ht, huv⟩ := hstep.of_ok
    rw [ht]
    exact .ok () huv
  | error e u =>
    rw [hs] at hstep
    obtain ⟨v, ht, huv⟩ := hstep.of_error
    rw [ht]
    cases e with
    | exception f => exact handleException_oblivious (guidedTo_masks hP) f u v huv
    | execEnd => exact .ok () huv
    | abort a => exact .error _ huv

theorem isaDifftestGuidedExec_ok
    (h : cpuExecOne P { s with guide := g, guidedExec := true } = .ok () t) :
    isaDifftestGuidedExec P g s = .ok () t.unguided :=
  bind_ok h

theorem SameArch.of_hides (h : Hides (GuidedTo target) s t) (hpc : s.pc = target) :
    SameArch s t.unguided := by
  obtain ⟨h', rfl, hq⟩ := h
  refine ⟨rfl, rfl, rfl, rfl, ?_⟩
  obtain h1 | h1 := hq.pc
  · exact h1
  · exact h1.trans hpc.symm

theorem SameArch.readLoc (h : SameArch s t) (hl : l ≠ .zeroNull) : t.readLoc l = s.readLoc l :=
  readLoc_congr hl h.gpr h.fpr

end Step

section Link

theorem cpuExecOne_ok (hf : fetchDecode P s = .ok d u) (he : exec P d (u.started d) = .ok () v) :
    cpuExecOne P s = .ok () (v.ticked P) := by
  have hd : executeDecoded P d u = .ok d (v.ticked P) := by
    have h1 : (exec P d >>= fun _ => do
        modify fun s => if P.rvn then utimerTick s else s
        pure d) (u.started d) = .ok d (v.ticked P) := bind_ok he
    exact h1
  have hs : executeStep P s = .ok d (v.ticked P) := (bind_ok hf).trans hd
  unfold cpuExecOne
  rw [hs]

theorem ticked_same (P : Platform) (s : Machine) : (s.ticked P).gpr = s.gpr ∧ (s.ticked P).fpr = s.fpr ∧
    (s.ticked P).csr .dretpc = s.csr .dretpc := by
  unfold Machine.ticked utimerTick
  split
  · split
    · exact ⟨rfl, rfl, s.setCsr_csr_ne _ Csr.noConfusion⟩
    split
    · exact ⟨rfl, rfl, s.setCsr_csr_ne _ Csr.noConfusion⟩
    · exact ⟨rfl, rfl, s.setCsr_csr_ne _ Csr.noConfusion⟩
  · exact ⟨rfl, rfl, rfl⟩

theorem linkValue_unguided (h : s.guidedExec = false) (a : Word) : linkValue P s a = a := by
  have h1 := redirect_unguided (P := P) (h := s.hidden) h a
  exact h1

theorem linkSafe_of_same (hP : P.guidedExec = true) (hset : g.forceSetJumpTarget = true)
    (hraise : g.forceRaiseException = false) (h : cpuExecOne P s.unguided = .ok () t)
    (hg : isaDifftestGuidedExec P g s = .ok () v) (hsame : SameArch t v) :
    LinkSafe P s.unguided g.jumpTarget := by
  intro d u hf
  obtain ⟨u', hf', h', rfl, hq, hpc⟩ := (fetchDecode_oblivious (guidedTo_masks hP)).ok
    (hides_guided s hset hraise) hf
  have hlink : linkValue P (u.started d) d.snpc = d.snpc := linkValue_unguided hq.unguided _
  have hlink' : linkValue P ((u.withHidden h').started d) d.snpc = g.jumpTarget := hq.redirect hP d.snpc
  constructor
  · intro hid
    by_cases hl : d.dest.preg = .zeroNull
    · exact .inl hl
    · obtain ⟨w, he, hw⟩ := exec_jalr_link (P := P) hid hl (u.started d)
      obtain ⟨w', he', hw'⟩ := exec_jalr_link (P := P) hid hl ((u.withHidden h').started d)
      cases (cpuExecOne_ok hf he).symm.trans h
      cases (isaDifftestGuidedExec_ok (cpuExecOne_ok hf' he')).symm.trans hg
      have h1 := hsame.readLoc hl
      have h2 : (w'.ticked P).unguided.readLoc d.dest.preg = w'.readLoc d.dest.preg :=
        readLoc_congr hl (ticked_same P w').1 (ticked_same P w').2.1
      have h3 : (w.ticked P).readLoc d.dest.preg = w.readLoc d.dest.preg :=
        readLoc_congr hl (ticked_same P w).1 (ticked_same P w).2.1
      rw [h2, h3, hw, hw', hlink, hlink'] at h1
      exact .inr h1.symm
  · intro hid htr
    obtain ⟨w, he, hw⟩ := exec_dasicscallJr_link (P := P) hid (u.started d) htr
    obtain ⟨w', he', hw'⟩ := exec_dasicscallJr_link (P := P) hid ((u.withHidden h').started d) htr
    cases (cpuExecOne_ok hf he).symm.trans h
    cases (isaDifftestGuidedExec_ok (cpuExecOne_ok hf' he')).symm.trans hg
    have h1 : (w'.ticked P).csr .dretpc = (w.ticked P).csr .dretpc := congrFun hsame.csr .dretpc
    rw [(ticked_same P w').2.2, (ticked_same P w).2.2, hw, hw', hlink, hlink'] at h1
    exact h1.symm

end Link

/-- A step guided to where the unguided step goes is the unguided step, exactly when no link value is
written that differs from that target. -/
theorem guided_exec_iff (hP : P.guidedExec = true) (hv : P.VectorOblivious)
    (hset : g.forceSetJumpTarget = true) (hraise : g.forceRaiseException = false)
    (h : cpuExecOne P s.unguided = .ok () t) (hpc : t.pc = g.jumpTarget) :
    (∃ v, isaDifftestGuidedExec P g s = .ok () v ∧ SameArch t v) ↔ LinkSafe P s.unguided g.jumpTarget := by
  constructor
  · rintro ⟨v, hg, hsame⟩
    exact linkSafe_of_same hP hset hraise h hg hsame
  · intro hlink
    have hm := cpuExecOne_guided hP hv hlink (hides_guided s hset hraise)
    rw [h] at hm
    obtain ⟨v, hg, hr⟩ := hm.of_ok
    exact ⟨_, isaDifftestGuidedExec_ok hg, .of_hides hr hpc⟩

/-- The guide that only names the jump target. -/
def guideTo (target : Word) : ExecutionGuide := ⟨false, 0, 0, 0, true, target⟩

def guidedSetup (instr : BitVec 32) : Machine :=
  (booted (.bare .reference) [instr]).writeLoc (.gpr 10) 0x80100010

/-- `jal ra, 8` guided to its own target. -/
theorem guided_exec_jal : ∃ t v, cpuExecOne (.bare .reference) (guidedSetup 0x008000ef).unguided = .ok () t ∧
    isaDifftestGuidedExec (.bare .reference) (guideTo 0x80100008) (guidedSetup 0x008000ef) = .ok () v ∧
    t.gpr 1 = 0x80100004 ∧ t.pc = 0x80100008 ∧ SameArch t v := by
  have hiff := guided_exec_iff (P := .bare .reference) (g := guideTo 0x80100008) (s := guidedSetup 0x008000ef)
    rfl (fun _ => trivial) rfl rfl rfl rfl
  obtain ⟨v, hv, hsame⟩ := hiff.mpr fun d u hf => by
    cases hf
    exact ⟨fun h => ExecId.noConfusion h, fun h => ExecId.noConfusion h⟩
  exact ⟨_, v, rfl, hv, rfl, rfl, hsame⟩

/-- `jalr ra, 0(a0)` guided to its own target links that target. -/
theorem guided_exec_jalr :
    ∃ t v, cpuExecOne (.bare .reference) (guidedSetup 0x000500e7).unguided = .ok () t ∧ t.pc = 0x80100010 ∧
      isaDifftestGuidedExec (.bare .reference) (guideTo 0x80100010) (guidedSetup 0x000500e7) = .ok () v ∧
      t.gpr 1 = 0x80100004 ∧ v.gpr 1 = 0x80100010 ∧ ¬ SameArch t v := by
  refine ⟨_, _, rfl, rfl, rfl, rfl, rfl, fun h => ?_⟩
  have h1 := congrFun h.gpr 1
  exact absurd h1 (by decide)

end Nemu
