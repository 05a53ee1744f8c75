import Nemu.TcacheRanks

namespace Nemu

set_option autoImplicit true

/-- Where the count is looked at: at the end of a block, at the end of `execute`, and once an
exception, an interrupt or a full trace cache has been dealt with. -/
def ExecPhase.looksAt : ExecPhase → Bool
  | .blockEnd | .loopEnd _ | .returned _ | .caught _ | .handled => true
  | _ => false

/-- A privileged instruction has left `execute` and the count is still to be taken. -/
def ExecPhase.isEarly : ExecPhase → Bool
  | .loopEnd .privNext | .loopEnd .privJr | .returned .privNext => true
  | _ => false

/-- A privileged instruction leaves `execute`. -/
def CountEvent.isEarly : CountEvent δ → Bool
  | .privNext _ _ | .privJr _ _ _ => true
  | _ => false

namespace Counted

variable {δ : Type}

/-- The `idx_in_bb` of the places of `tcache_pool`. -/
def rankOf (idx : Ptr → BitVec 16) (i : Nat) : Nat := (idx (.pool i)).toNat

/-- The number of instructions that its block has before the one at hand. -/
def before (m : Counted δ) : Nat := m.engine.before (rankOf m.idx) m.idxInBb

/-- A step that the counting is made for: the statistics are not printed and no interrupt is taken
before `n_remain` has been set in this call of `cpu_exec`; `n_remain` is up to date when
`longjmp_exec` is called, and `prev_s` is at the instruction that calls it; an exception is
handled unless it comes from the first instruction of a block; no interrupt is taken in the middle
of a block; `rtl_priv_next` does not flush; an indirect jump does not jump to itself by its own
link; and the count is not reset. -/
def Counts (c : CountConfig) (m : Counted δ) : CountEvent δ → Prop
  | .leave statistic => (statistic = true → m.nRemain = m.nBatch) ∧
      ∀ jpc, m.phase = .caught (.exception jpc) → m.prevS = m.engine.cur ∧ m.before = 0
  | .interrupt _ => m.nRemain = m.nBatch ∧ m.before = 0
  | .decode f => m.nRemain = m.n ∨ ∀ m', m.decode c f = .ok m' → m'.phase = .run
  | .startProfiling => m.profilingStarted = true
  | .privNext flush _ => flush = false
  | .indirect target => m.engine.Ends (rankOf m.idx) m.idxInBb (.indirect target false)
  | .privJr target flush _ => m.engine.Ends (rankOf m.idx) m.idxInBb (.indirect target flush)
  | .raise _ saves => m.nRemain = m.n ∧ (saves = true ∨ m.idx m.prevS = m.idx m.engine.cur)
  | _ => True

/-- `g_nr_guest_instr` is behind the completed instructions by `k`. -/
def Tallied (m : Counted δ) (k : Int) : Prop :=
  ∃ g : Nat, m.nrGuestInstr = BitVec.ofNat 64 g ∧ (m.completed : Int) = g + k

/-- How the counters stand, depending on where control is. -/
def Balanced (m : Counted δ) : Prop :=
  match m.phase with
  | .idle | .called => m.prevS = m.engine.cur ∧ m.Tallied m.before
  | .returned exit => m.prevS = m.engine.cur ∧ m.Tallied m.before ∧ m.nRemain = m.nBatch ∧
      (exit ≠ .privNext → m.before = 0)
  | .caught cause => m.Tallied 0 ∧ m.nRemain = m.nBatch ∧
      (cause = .again → m.prevS = m.engine.cur ∧ m.before = 0)
  | .handled => m.prevS = m.engine.cur ∧ m.before = 0 ∧ m.Tallied 0 ∧ m.nRemain = m.nBatch
  | .run => m.Tallied (m.nBatch - m.n + m.before) ∧ 0 < m.n ∧ m.n ≤ m.nBatch
  | .blockEnd => m.Tallied (m.nBatch - m.n) ∧ m.before = 0 ∧ m.nRemain = m.n ∧ -65536 < m.n ∧
      m.n ≤ m.nBatch
  | .loopEnd exit => m.Tallied (m.nBatch - m.n + m.before) ∧ -65536 < m.n ∧ m.n ≤ m.nBatch ∧
      (exit = .bb → m.nRemain = m.n) ∧ (exit ≠ .privNext → m.before = 0)
  | .ended => True

structure Kept (c : CountConfig) (m : Counted δ) : Prop where
  ranked : Ranked c.toTraceConfig m.engine.tc (rankOf m.idx)
  standing : m.engine.Standing (rankOf m.idx) m.idxInBb
  balanced : m.Balanced

section Counters

variable {c : CountConfig} {m m' : Counted δ}

theorem nBatch_eq (m : Counted δ) : m.nBatch = min m.nRemainTotal 65536 := by
  unfold nBatch batchSize
  split <;> omega

theorem nBatch_le (m : Counted δ) : m.nBatch ≤ 65536 := by
  rw [nBatch_eq]
  exact Nat.min_le_right ..

theorem toNat_nExecuted (h : m.nRemain ≤ m.nBatch) (h' : (m.nBatch : Int) - m.nRemain < 2 ^ 32) :
    (m.nExecuted.toNat : Int) = m.nBatch - m.nRemain := by
  unfold nExecuted
  rw [BitVec.toNat_ofInt]
  omega

/-- The count is behind by `k` when the tally is, apart from what `n_remain` says. -/
theorem count_of_tallied {k : Nat} (h : m.nRemain ≤ m.nBatch)
    (h' : (m.nBatch : Int) - m.nRemain < 2 ^ 32) (ht : m.Tallied (m.nBatch - m.nRemain + k)) :
    m.getAbsInstrCount + BitVec.ofNat 64 k = BitVec.ofNat 64 m.completed := by
  obtain ⟨g, hg, hcompleted⟩ := ht
  have hexec := toNat_nExecuted h h'
  have hsum : m.completed = m.nExecuted.toNat + g + k := by omega
  unfold getAbsInstrCount
  rw [hg, hsum, BitVec.ofNat_add, BitVec.ofNat_add, BitVec.ofNat_toNat]

theorem exact_of_tallied (h : m.nRemain ≤ m.nBatch) (h' : (m.nBatch : Int) - m.nRemain < 2 ^ 32)
    (ht : m.Tallied (m.nBatch - m.nRemain)) :
    m.getAbsInstrCount = BitVec.ofNat 64 m.completed := by
  have hcount := count_of_tallied (k := 0) h h' (ht.imp fun g hg => ⟨hg.1, by omega⟩)
  rwa [BitVec.add_zero] at hcount

theorem nBatch_updated (c : CountConfig) (m : Counted δ) :
    (m.updateInstrCnt c).nRemain = (m.updateInstrCnt c).nBatch := by
  have hle : (m.updateInstrCnt c).nRemainTotal ≤ m.nRemainTotal := Nat.sub_le ..
  have hn : (m.updateInstrCnt c).nRemain = if m.nBatch > (m.updateInstrCnt c).nRemainTotal
      then ((m.updateInstrCnt c).nRemainTotal : Int) else (m.nBatch : Int) := rfl
  have hbatch := m.nBatch_eq
  have hbatch' := (m.updateInstrCnt c).nBatch_eq
  rw [hn]
  split <;> omega

/-- `update_instr_cnt` moves what has been executed into the tally. -/
theorem Tallied.updated (hdebug : c.debug = false) (h : m.nRemain ≤ m.nBatch)
    (h' : (m.nBatch : Int) - m.nRemain < 2 ^ 32) (ht : m.Tallied (m.nBatch - m.nRemain + k)) :
    (m.updateInstrCnt c).Tallied k := by
  obtain ⟨g, hg, hcompleted⟩ := ht
  have hexec := toNat_nExecuted h h'
  refine ⟨g + m.nExecuted.toNat, ?_, ?_⟩
  · change (if c.debug then m.nrGuestInstr else m.nrGuestInstr + m.nExecuted.setWidth 64) = _
    rw [hdebug, if_neg (by simp), hg, BitVec.ofNat_add, BitVec.ofNat_toNat]
  · change (m.completed : Int) = _
    omega

end Counters

section Steps

variable {c : CountConfig} {m m' : Counted δ}

theorem rankOf_pool (idx : Ptr → BitVec 16) (i : Nat) (hk : k < 65536) :
    rankOf (Function.update idx (.pool i) (.ofNat 16 k)) = Function.update (rankOf idx) i k := by
  funext j
  unfold rankOf
  by_cases e : j = i
  · rw [e, Function.update_self, Function.update_self, BitVec.toNat_ofNat, Nat.mod_eq_of_lt hk]
  · rw [Function.update_of_ne e, Function.update_of_ne (by simp [e])]

theorem rankOf_record (idx : Ptr → BitVec 16) (r : Nat) (x : BitVec 16) :
    rankOf (Function.update idx (.record r) x) = rankOf idx := by
  funext j
  unfold rankOf
  rw [Function.update_of_ne (by simp)]

/-- `longjmp_exec` takes the instructions before the one that called it off `n_remain`. -/
theorem balanced_longjmpExec {k : Nat} (hdebug : c.debug = false)
    (ht : m.Tallied (m.nBatch - m.n + k)) (h0 : 0 < m.n) (hn : m.n ≤ m.nBatch)
    (hsync : m.nRemain = m.n) (hidx : (m.idx m.prevS).toNat = k + 1)
    (hagain : cause = .again → m.prevS = m.engine.cur ∧ m.before = 0) :
    (m.longjmpExec c cause).Balanced := by
  have hlt := (m.idx m.prevS).isLt
  have hbatch := m.nBatch_le
  have hremain : m.nRemain - (((m.idx m.prevS).toNat : Int) - 1) = m.n - k := by omega
  have ht' : Tallied { m with nRemain := m.nRemain - ((m.idx m.prevS).toNat - 1) }
      (m.nBatch - (m.nRemain - ((m.idx m.prevS).toNat - 1)) + 0) := by
    obtain ⟨g, hg, hcompleted⟩ := ht
    exact ⟨g, hg, by dsimp only; omega⟩
  refine ⟨ht'.updated hdebug ?_ ?_, nBatch_updated c _, hagain⟩
  · change m.nRemain - (((m.idx m.prevS).toNat : Int) - 1) ≤ m.nBatch
    omega
  · change (m.nBatch : Int) - (m.nRemain - (((m.idx m.prevS).toNat : Int) - 1)) < 2 ^ 32
    omega

theorem Tallied.of_eq (ht : m.Tallied k) (h : k = k') : m.Tallied k' := h ▸ ht

theorem kept_call {n : Word} (h : Kept c m) (he : m.call n = .ok m') : Kept c m' := by
  unfold call at he
  split at he
  · next hphase =>
    cases he
    have hb := h.balanced
    unfold Balanced at hb
    rw [hphase] at hb
    exact ⟨h.ranked, h.standing, hb⟩
  · cases he

/-- Whatever brought control to the head of the loop of `cpu_exec`, it can be left there, an
unhandled exception in the middle of a block apart. -/
theorem tallied_atLoop (h : Kept c m) (hloop : m.atLoop)
    (hexc : ∀ jpc, m.phase = .caught (.exception jpc) → m.prevS = m.engine.cur ∧ m.before = 0)
    (hexit : m.phase ≠ .caught .exit) : m.prevS = m.engine.cur ∧ m.Tallied m.before := by
  have hb := h.balanced
  unfold Balanced at hb
  unfold atLoop at hloop
  cases hphase : m.phase with
  | called =>
    rw [hphase] at hb
    exact hb
  | returned exit =>
    rw [hphase] at hb
    exact ⟨hb.1, hb.2.1⟩
  | caught cause =>
    rw [hphase] at hb
    obtain ⟨ht, _, hagain⟩ := hb
    have hpaid : m.prevS = m.engine.cur ∧ m.before = 0 := by
      cases cause with
      | exit => exact absurd hphase hexit
      | again => exact hagain rfl
      | exception jpc => exact hexc jpc hphase
    exact ⟨hpaid.1, ht.of_eq (by rw [hpaid.2]; rfl)⟩
  | _ =>
    rw [hphase] at hloop
    cases hloop

theorem kept_leave (hdebug : c.debug = false) (h : Kept c m) (hc : m.Counts c (.leave statistic))
    (he : m.leave c statistic = .ok m') : Kept c m' := by
  unfold leave at he
  split at he
  · next hloop =>
    obtain ⟨hsync, hexc⟩ := hc
    by_cases hexit : m.phase = .caught .exit
    · rw [if_pos hexit] at he
      cases he
      cases statistic with
      | false => exact ⟨h.ranked, h.standing, trivial⟩
      | true => exact ⟨h.ranked, h.standing, trivial⟩
    · rw [if_neg hexit] at he
      cases he
      obtain ⟨hprev, ht⟩ := tallied_atLoop h hloop hexc hexit
      cases statistic with
      | false => exact ⟨h.ranked, h.standing, hprev, ht⟩
      | true =>
        have hn := hsync rfl
        have ht' : m.Tallied (m.nBatch - m.nRemain + m.before) := ht.of_eq (by omega)
        exact ⟨h.ranked, h.standing, hprev, ht'.updated hdebug (by omega) (by omega)⟩
  · cases he

theorem kept_handleException (h : Kept c m) (ht : m.Tallied 0) (hsync : m.nRemain = m.nBatch)
    (he : m.handleException c jpc = .ok m') : Kept c m' := by
  obtain ⟨e, hexc, hm⟩ := Except.bind_eq_ok.mp he
  cases hm
  have hranked : Ranked c.toTraceConfig { m.engine.tc with
      abandoned := m.engine.tc.abandoned + if m.engine.unfinished then 1 else 0 }
      (rankOf m.idx) := h.ranked.of_eq rfl rfl rfl rfl rfl
  have hin := Engine.entering_handleException hranked h.standing.sealed hexc
  exact ⟨hin.ranked, hin.standing _, rfl, hin.before _, ht, hsync⟩

theorem kept_interrupt (h : Kept c m) (hc : m.Counts c (.interrupt jpc))
    (he : m.interrupt c jpc = .ok m') : Kept c m' := by
  obtain ⟨hsync, hbefore⟩ := hc
  have hb := h.balanced
  unfold Balanced at hb
  unfold interrupt at he
  split at he
  · split at he
    · next hphase =>
      rw [hphase] at hb
      exact kept_handleException h (hb.2.of_eq (by rw [hbefore]; rfl)) hsync he
    · next hphase =>
      rw [hphase] at hb
      exact kept_handleException h (hb.2.1.of_eq (by rw [hbefore]; rfl)) hsync he
    · next hphase =>
      rw [hphase] at hb
      exact kept_handleException h hb.1 hsync he
    · cases he
  · cases he

theorem kept_handle (h : Kept c m) (he : m.handle c = .ok m') : Kept c m' := by
  have hb := h.balanced
  unfold Balanced at hb
  unfold handle at he
  split at he
  · split at he
    · next jpc hphase =>
      rw [hphase] at hb
      exact kept_handleException h hb.1 hb.2.1 he
    · cases he
  · cases he

theorem kept_execute (h : Kept c m) (he : m.execute = .ok m') : Kept c m' := by
  have hready : ∀ {m' : Counted δ}, 0 < m.nRemainTotal →
      m.prevS = m.engine.cur ∧ m.Tallied m.before →
      .ok { m with engine := ⟨m.engine.tc, m.prevS, false⟩, n := m.nBatch, phase := .run } =
        (.ok m' : Except TcacheAbort (Counted δ)) → Kept c m' := by
    rintro m' htotal ⟨hprev, ht⟩ he
    cases he
    have hbatch := m.nBatch_eq
    have hstanding : Engine.Standing ⟨m.engine.tc, m.prevS, false⟩ (rankOf m.idx) m.idxInBb := by
      rw [hprev]
      exact h.standing
    have hbefore : Engine.before ⟨m.engine.tc, m.prevS, false⟩ (rankOf m.idx) m.idxInBb =
        m.before := by
      rw [hprev]
      rfl
    refine ⟨h.ranked, hstanding, ?_, ?_, Int.le_refl _⟩
    · change m.Tallied (m.nBatch - m.nBatch +
        Engine.before ⟨m.engine.tc, m.prevS, false⟩ (rankOf m.idx) m.idxInBb)
      rw [hbefore]
      exact ht.of_eq (by omega)
    · change (0 : Int) < m.nBatch
      omega
  have hb := h.balanced
  unfold Balanced at hb
  unfold execute at he
  split at he
  · next htotal =>
    split at he
    · next hphase =>
      rw [hphase] at hb
      exact hready htotal hb he
    · next hphase =>
      rw [hphase] at hb
      exact hready htotal ⟨hb.1, hb.2.1⟩ he
    · next hphase =>
      rw [hphase] at hb
      obtain ⟨ht, _, hagain⟩ := hb
      obtain ⟨hprev, hbefore⟩ := hagain rfl
      exact hready htotal ⟨hprev, ht.of_eq (by rw [hbefore]; rfl)⟩ he
    · next hphase =>
      rw [hphase] at hb
      obtain ⟨hprev, hbefore, ht, _⟩ := hb
      exact hready htotal ⟨hprev, ht.of_eq (by rw [hbefore]; rfl)⟩ he
    · cases he
  · cases he

theorem Kept.run (h : Kept c m) (hphase : m.phase = .run) :
    m.Tallied (m.nBatch - m.n + m.before) ∧ 0 < m.n ∧ m.n ≤ m.nBatch := by
  have hb := h.balanced
  unfold Balanced at hb
  rw [hphase] at hb
  exact hb

/-- As long as `execute` has not returned, `prev_s` is free. -/
theorem Kept.saved (h : Kept c m) (hphase : m.phase = .run ∨ ∃ exit, m.phase = .loopEnd exit)
    (p : Ptr) : Kept c (m.saveGlobals p) := by
  have hb := h.balanced
  refine ⟨h.ranked, h.standing, ?_⟩
  unfold Balanced at hb ⊢
  obtain hphase | ⟨exit, hphase⟩ := hphase
  · rw [hphase] at hb
    rw [show (m.saveGlobals p).phase = .run from hphase]
    exact hb
  · rw [hphase] at hb
    rw [show (m.saveGlobals p).phase = .loopEnd exit from hphase]
    exact hb

theorem Kept.saveIf (h : Kept c m) (hphase : m.phase = .run) (saves : Bool) :
    Kept c (m.saveIf saves) := by
  cases saves with
  | true => exact h.saved (.inl hphase) _
  | false => exact h

theorem Kept.debugDifftest (h : Kept c m) (hphase : m.phase = .run) :
    Kept c (m.debugDifftest c) := by
  unfold Counted.debugDifftest
  split
  · exact h.saved (.inl hphase) _
  · exact h

theorem Kept.flushed (h : Kept c m) (hphase : m.phase = .loopEnd exit) (flush : Bool) :
    Kept c (m.flushed flush) := by
  cases flush with
  | true => exact h.saved (.inr ⟨exit, hphase⟩) _
  | false => exact h

theorem phase_saveIf (m : Counted δ) (saves : Bool) : (m.saveIf saves).phase = m.phase := by
  cases saves <;> rfl

theorem complete_inv {ph : ExecPhase} (he : m.complete c ev ph = .ok m') :
    m.phase = .run ∧ ∃ e, m.engine.step c.toTraceConfig ev = .ok e ∧
      m' = { m with engine := e, phase := ph, completed := m.completed + 1 } := by
  unfold complete at he
  split at he
  · next hphase =>
    obtain ⟨e, hstep, he⟩ := Except.bind_eq_ok.mp he
    cases he
    exact ⟨hphase, e, hstep, rfl⟩
  · cases he

theorem completed_next {ph : ExecPhase} (h : Kept c m) (he : m.complete c .next ph = .ok m') :
    m'.phase = ph ∧ Ranked c.toTraceConfig m'.engine.tc (rankOf m'.idx) ∧
      m'.engine.Standing (rankOf m'.idx) m'.idxInBb ∧
      m'.Tallied (m'.nBatch - m'.n + m'.before) ∧ 0 < m'.n ∧ m'.n ≤ m'.nBatch := by
  obtain ⟨hphase, e, hstep, rfl⟩ := complete_inv he
  obtain ⟨⟨g, hg, hcompleted⟩, h0, hn⟩ := h.run hphase
  obtain ⟨hranked, hstanding, hbefore⟩ := Engine.standing_step h.ranked h.standing hstep
  refine ⟨rfl, hranked, hstanding, ⟨g, hg, ?_⟩, h0, hn⟩
  have hbefore' : e.before (rankOf m.idx) m.idxInBb = m.before + 1 := hbefore
  change ((m.completed + 1 : Nat) : Int) =
    g + (m.nBatch - m.n + (e.before (rankOf m.idx) m.idxInBb : Nat))
  omega

theorem kept_next (h : Kept c m) (he : m.next c saves = .ok m') : Kept c m' := by
  obtain ⟨m₁, hcomplete, he⟩ := Except.bind_eq_ok.mp he
  cases he
  obtain ⟨hphase, _⟩ := complete_inv hcomplete
  rw [phase_saveIf] at hphase
  obtain ⟨hphase₁, hranked, hstanding, hrun⟩ := completed_next (h.saveIf hphase saves) hcomplete
  refine Kept.debugDifftest ⟨hranked, hstanding, ?_⟩ hphase₁
  unfold Balanced
  rw [hphase₁]
  exact hrun

theorem kept_startProfiling (h : Kept c m) (hc : m.Counts c .startProfiling)
    (he : m.startProfiling c = .ok m') : Kept c m' := by
  have hsame : m = { m with
      nrGuestInstr := if m.profilingStarted then m.nrGuestInstr else 1
      profilingStarted := true } := by
    have hstarted : m.profilingStarted = true := hc
    cases m
    cases hstarted
    rfl
  unfold startProfiling at he
  rw [← hsame] at he
  exact kept_next h he

theorem kept_privNext (h : Kept c m) (hc : m.Counts c (.privNext flush saves))
    (he : m.privNext c flush saves = .ok m') : Kept c m' := by
  cases (show flush = false from hc)
  obtain ⟨m₁, hcomplete, he⟩ := Except.bind_eq_ok.mp he
  cases he
  obtain ⟨hphase, _⟩ := complete_inv hcomplete
  rw [phase_saveIf] at hphase
  obtain ⟨hphase₁, hranked, hstanding, ht, h0, hn⟩ :=
    completed_next (h.saveIf hphase saves) hcomplete
  refine Kept.flushed ⟨hranked, hstanding, ?_⟩ hphase₁ false
  unfold Balanced
  rw [hphase₁]
  exact ⟨ht, by omega, hn, (fun hne => by cases hne), (fun hne => absurd rfl hne)⟩

theorem completed_end {ph : ExecPhase} (h : Kept c m)
    (hev : m.engine.Ends (rankOf m.idx) m.idxInBb ev)
    (he : m.charge.complete c ev ph = .ok m') :
    m'.phase = ph ∧ Engine.Entering c.toTraceConfig m'.engine (rankOf m'.idx) ∧
      m'.Tallied (m'.nBatch - m'.n) ∧ -65536 < m'.n ∧ m'.n ≤ m'.nBatch := by
  obtain ⟨hphase, e, hstep, rfl⟩ := complete_inv he
  obtain ⟨⟨g, hg, hcompleted⟩, h0, hn⟩ := h.run hphase
  have hin := Engine.entering_step h.ranked h.standing hev hstep
  have hexec : Engine.executes ev := by
    cases ev with
    | decode f => exact hev.elim
    | trap jpc => exact hev.elim
    | _ => rfl
  obtain ⟨x, d, hx, hbody, _⟩ := Engine.stepBody_of_step hexec hstep
  obtain ⟨i, hcur, hrank, _⟩ := Engine.rank_of_body h.ranked h.standing hx hbody
  have hidx : (m.idx m.engine.cur).toNat = m.before + 1 := by
    rw [hcur]
    exact hrank
  have hlt := (m.idx m.engine.cur).isLt
  refine ⟨rfl, hin, ⟨g, hg, ?_⟩, ?_, ?_⟩
  · change ((m.completed + 1 : Nat) : Int) = g + (m.nBatch - (m.n - (m.idx m.engine.cur).toNat))
    omega
  · change -65536 < m.n - ((m.idx m.engine.cur).toNat : Int)
    omega
  · change m.n - ((m.idx m.engine.cur).toNat : Int) ≤ m.nBatch
    omega

theorem kept_leaveBb (h : Kept c m) (hev : m.engine.Ends (rankOf m.idx) m.idxInBb ev)
    (he : m.leaveBb c ev = .ok m') : Kept c m' := by
  obtain ⟨m₁, hcomplete, he⟩ := Except.bind_eq_ok.mp he
  cases he
  obtain ⟨hphase₁, hin, ht, hlow, hn⟩ := completed_end h hev hcomplete
  refine ⟨hin.ranked, hin.standing _, ?_⟩
  unfold Balanced
  dsimp only
  rw [hphase₁]
  exact ⟨ht, hin.before _, rfl, hlow, hn⟩

theorem kept_privJr (h : Kept c m) (hc : m.Counts c (.privJr target flush saves))
    (he : m.privJr c target flush saves = .ok m') : Kept c m' := by
  obtain ⟨m₁, hcomplete, he⟩ := Except.bind_eq_ok.mp he
  cases he
  obtain ⟨hphase, _⟩ := complete_inv hcomplete
  have hphase' : m.phase = .run := by
    rw [← phase_saveIf m saves]
    exact hphase
  have hev : (m.saveIf saves).engine.Ends (rankOf (m.saveIf saves).idx) (m.saveIf saves).idxInBb
      (.indirect target flush) := by
    cases saves with
    | true => exact hc
    | false => exact hc
  obtain ⟨hphase₁, hin, ht, hlow, hn⟩ := completed_end (h.saveIf hphase' saves) hev hcomplete
  have hbefore : m₁.before = 0 := hin.before _
  refine Kept.flushed ⟨hin.ranked, hin.standing _, ?_⟩ hphase₁ flush
  unfold Balanced
  rw [hphase₁]
  exact ⟨ht.of_eq (by omega), hlow, hn, (fun hne => by cases hne), fun _ => hbefore⟩

theorem kept_raise (hdebug : c.debug = false) (h : Kept c m) (hc : m.Counts c (.raise cause saves))
    (he : m.raise c cause saves = .ok m') : Kept c m' := by
  obtain ⟨x, hx, he⟩ := Except.bind_eq_ok.mp he
  split at he
  · next hguard =>
    obtain ⟨hphase, hbody, hagain⟩ := hguard
    cases he
    obtain ⟨d, hbody⟩ := Option.isSome_iff_exists.mp hbody
    obtain ⟨i, hcur, hrank, _⟩ := Engine.rank_of_body h.ranked h.standing hx hbody
    obtain ⟨ht, h0, hn⟩ := h.run hphase
    obtain ⟨hsync, hsaves⟩ := hc
    have hidx : (m.idx m.engine.cur).toNat = m.before + 1 := by
      rw [hcur]
      exact hrank
    cases saves with
    | true =>
      exact ⟨h.ranked, h.standing, balanced_longjmpExec hdebug ht h0 hn hsync hidx
        fun hc => absurd hc hagain⟩
    | false =>
      obtain hsaves | hsaves := hsaves
      · cases hsaves
      · exact ⟨h.ranked, h.standing, balanced_longjmpExec hdebug ht h0 hn hsync (hsaves ▸ hidx)
          fun hc => absurd hc hagain⟩
  · cases he

theorem kept_resume (h : Kept c m) (he : m.resume c = .ok m') : Kept c m' := by
  unfold resume at he
  split at he
  · next hphase =>
    have hb := h.balanced
    unfold Balanced at hb
    rw [hphase] at hb
    obtain ⟨ht, hbefore, hsync, hlow, hn⟩ := hb
    have ht' : m.Tallied (m.nBatch - m.n + m.before) := ht.of_eq (by omega)
    cases he
    split
    · exact ⟨h.ranked, h.standing, ht', hlow, hn, fun _ => hsync, fun _ => hbefore⟩
    · next hpos =>
      have h₁ : Kept c { m with phase := .run } :=
        ⟨h.ranked, h.standing, ht', Int.not_le.mp hpos, hn⟩
      exact h₁.debugDifftest rfl
  · cases he

theorem kept_ret (hdebug : c.debug = false) (h : Kept c m) (he : m.ret c = .ok m') :
    Kept c m' := by
  unfold ret at he
  split at he
  · next exit hphase =>
    have hb := h.balanced
    unfold Balanced at hb
    rw [hphase] at hb
    obtain ⟨ht, hlow, hn, _, hbefore⟩ := hb
    have hbatch := m.nBatch_le
    cases he
    have ht' : Tallied { m with prevS := m.engine.cur, nRemain := m.n }
        (m.nBatch - m.n + m.before) := ht
    have hlast := ht'.updated hdebug hn (by change (m.nBatch : Int) - m.n < 2 ^ 32; omega)
    exact ⟨h.ranked, h.standing, rfl, hlast, nBatch_updated c _, hbefore⟩
  · cases he

/-- The trace cache is full: the record for the instruction at hand counts what its block has
before it. -/
theorem kept_execAgain {k : Nat} (hdebug : c.debug = false)
    (ht : m.Tallied (m.nBatch - m.n + k)) (h0 : 0 < m.n) (hn : m.n ≤ m.nBatch)
    (hsync : m.nRemain = m.n) (hk : m.idxInBb = k + 1) (hlt : m.idxInBb < 65536)
    (hin : Engine.Entering c.toTraceConfig e (rankOf m.idx)) (hr : e.cur = .record r) :
    Kept c (m.execAgain c e) := by
  have hrank : rankOf (Function.update m.idx e.cur (.ofNat 16 m.idxInBb)) = rankOf m.idx := by
    rw [hr]
    exact rankOf_record m.idx r _
  rw [← hrank] at hin
  refine ⟨hin.ranked, hin.standing _, ?_⟩
  refine balanced_longjmpExec (m := { m with
    engine := e
    idx := Function.update m.idx e.cur (.ofNat 16 m.idxInBb)
    prevS := e.cur }) hdebug ht h0 hn hsync ?_ fun _ => ⟨rfl, hin.before _⟩
  change (Function.update m.idx e.cur (.ofNat 16 m.idxInBb) e.cur).toNat = k + 1
  rw [Function.update_self, BitVec.toNat_ofNat, Nat.mod_eq_of_lt hlt, hk]

theorem kept_decode (hdebug : c.debug = false) (hsize : c.tcacheSize < 65536) (h : Kept c m)
    (hc : m.Counts c (.decode f)) (he : m.decode c f = .ok m') : Kept c m' := by
  have hsync : m'.phase ≠ .run → m.nRemain = m.n := by
    intro hphase
    obtain hsync | hrun := hc
    · exact hsync
    · exact absurd (hrun m' he) hphase
  obtain ⟨x, hx, he⟩ := Except.bind_eq_ok.mp he
  split at he
  · next hguard =>
    obtain ⟨hphase, hbody⟩ := hguard
    obtain ⟨ht, h0, hn⟩ := h.run hphase
    obtain ⟨dec, hdec, he⟩ := Except.bind_eq_ok.mp he
    obtain ⟨hstart, hk⟩ := Engine.starts_decode h.ranked h.standing hx
      (Option.isNone_iff_eq_none.mp hbody) hdec
    have hbefore : m.before + 1 = if m.engine.tc.state = .running then 1 else m.idxInBb := hk
    generalize (if m.engine.tc.state = .running then 1 else m.idxInBb) = k at hstart hbefore he
    cases dec with
    | hit e =>
      cases he
      obtain ⟨hin, rfl⟩ := hstart
      refine ⟨hin.ranked, hin.standing _, ?_⟩
      unfold Balanced
      dsimp only
      rw [hphase]
      have hbefore' : e.before (rankOf m.idx) m.idxInBb = 0 := hin.before _
      refine ⟨ht.of_eq ?_, h0, hn⟩
      change (m.nBatch : Int) - m.n + m.before =
        m.nBatch - m.n + (e.before (rankOf m.idx) m.idxInBb : Nat)
      omega
    | full thispc t =>
      obtain ⟨e, hfull, he⟩ := Except.bind_eq_ok.mp he
      cases he
      obtain ⟨hranked, rfl⟩ := hstart
      obtain ⟨hin, ⟨r, hr⟩, _⟩ := Engine.entering_full hranked hfull
      have ht' : Tallied { m with idxInBb := 1 } (m.nBatch - m.n + m.before) := ht
      exact kept_execAgain hdebug ht' h0 hn (hsync (by simp [execAgain, longjmpExec])) hbefore.symm
        (Nat.one_lt_two_pow (n := 16) (by decide)) hin hr
    | place s thispc t =>
      obtain ⟨hst, hranked, b, r, i, start, pc, rfl, hg⟩ := hstart
      have hlt : k < 65536 := by
        have hhigh := hg.high
        have htc := hg.tcIdx
        have hle := hranked.size
        omega
      have hrank := rankOf_pool m.idx i hlt
      have hidx : (Function.update m.idx (.pool i) (.ofNat 16 k) (.pool i)).toNat =
          m.before + 1 := by
        rw [Function.update_self, BitVec.toNat_ofNat, Nat.mod_eq_of_lt hlt, hbefore]
      cases f with
      | fault jpc =>
        cases he
        obtain ⟨hranked', hstanding⟩ := Engine.standing_fault hranked hst hg
        rw [← hrank] at hranked' hstanding
        exact ⟨hranked', hstanding, balanced_longjmpExec (m := { m with
          engine := ⟨t, .pool i, false⟩
          idxInBb := k
          prevS := .pool i
          idx := Function.update m.idx (.pool i) (.ofNat 16 k) }) hdebug ht h0 hn
          (hsync (by simp [longjmpExec])) hidx fun hc => by cases hc⟩
      | ok d =>
        obtain ⟨e, hat, he⟩ := Except.bind_eq_ok.mp he
        cases he
        have hdecodes := Engine.decodes_decodeAt hranked hst hg hat
        rw [← hrank] at hdecodes
        obtain ⟨hd, _, hranked', hstanding, hbefore'⟩ | ⟨hd, ⟨r', hr'⟩, hin⟩ := hdecodes
        · rw [if_pos hd]
          refine ⟨hranked', hstanding, ?_⟩
          unfold Balanced
          dsimp only
          rw [hphase]
          refine ⟨ht.of_eq ?_, h0, hn⟩
          change (m.nBatch : Int) - m.n + m.before = m.nBatch - m.n +
            (e.before (rankOf (Function.update m.idx (.pool i) (.ofNat 16 k))) (k + 1) : Nat)
          omega
        · rw [if_neg (by simp [hd])] at hsync ⊢
          exact kept_execAgain (m := { m with
            engine := ⟨t, .pool i, false⟩
            idxInBb := k
            prevS := .pool i
            idx := Function.update m.idx (.pool i) (.ofNat 16 k) }) hdebug ht h0 hn
            (hsync (by simp [execAgain, longjmpExec])) hbefore.symm hlt hin hr'
  · cases he

theorem Kept.step (hdebug : c.debug = false) (hsize : c.tcacheSize < 65536) (h : Kept c m)
    (hc : m.Counts c ev) (he : m.step c ev = .ok m') : Kept c m' := by
  cases ev with
  | call n => exact kept_call h he
  | leave statistic => exact kept_leave hdebug h hc he
  | interrupt jpc => exact kept_interrupt h hc he
  | handle => exact kept_handle h he
  | execute => exact kept_execute h he
  | decode f => exact kept_decode hdebug hsize h hc he
  | next saves => exact kept_next h he
  | startProfiling => exact kept_startProfiling h hc he
  | privNext flush saves => exact kept_privNext h hc he
  | jump =>
    have hend : m.engine.Ends (rankOf m.idx) m.idxInBb .jump := trivial
    exact kept_leaveBb h hend he
  | branch isJmp =>
    have hend : m.engine.Ends (rankOf m.idx) m.idxInBb (.branch isJmp) := trivial
    exact kept_leaveBb h hend he
  | indirect target =>
    have hend : m.engine.Ends (rankOf m.idx) m.idxInBb (.indirect target false) := hc
    exact kept_leaveBb h hend he
  | privJr target flush saves => exact kept_privJr h hc he
  | raise cause saves => exact kept_raise hdebug h hc he
  | resume => exact kept_resume h he
  | ret => exact kept_ret hdebug h he

theorem kept_init (h : (init c resetVector started : Except TcacheAbort (Counted δ)) = .ok m) :
    Kept c m := by
  obtain ⟨e, he, h⟩ := Except.bind_eq_ok.mp h
  cases h
  have hin : Engine.Entering c.toTraceConfig e (rankOf fun _ => 0) := Engine.ranked_init he
  refine ⟨hin.ranked, hin.standing _, rfl, 0, rfl, ?_⟩
  change ((0 : Nat) : Int) = 0 + (e.before (rankOf fun _ => 0) 0 : Nat)
  rw [hin.before 0]
  rfl

theorem Kept.exact (h : Kept c m) (hlook : m.phase.looksAt) (hearly : m.phase.isEarly = false) :
    m.getAbsInstrCount = BitVec.ofNat 64 m.completed := by
  have hb := h.balanced
  have hbatch := m.nBatch_le
  unfold Balanced at hb
  cases hphase : m.phase with
  | blockEnd =>
    rw [hphase] at hb
    obtain ⟨ht, _, hsync, hlow, hn⟩ := hb
    exact exact_of_tallied (by omega) (by omega) (ht.of_eq (by omega))
  | loopEnd exit =>
    rw [hphase] at hb hearly
    cases exit with
    | bb =>
      obtain ⟨ht, hlow, hn, hsync, hbefore⟩ := hb
      have hsync := hsync rfl
      have hbefore := hbefore (by simp)
      exact exact_of_tallied (by omega) (by omega) (ht.of_eq (by omega))
    | privNext => cases hearly
    | privJr => cases hearly
  | returned exit =>
    rw [hphase] at hb hearly
    obtain ⟨_, ht, hsync, hbefore⟩ := hb
    have hbefore := hbefore (by
      rintro rfl
      cases hearly)
    exact exact_of_tallied (by omega) (by omega) (ht.of_eq (by omega))
  | caught cause =>
    rw [hphase] at hb
    obtain ⟨ht, hsync, _⟩ := hb
    exact exact_of_tallied (by omega) (by omega) (ht.of_eq (by omega))
  | handled =>
    rw [hphase] at hb
    obtain ⟨_, _, ht, hsync⟩ := hb
    exact exact_of_tallied (by omega) (by omega) (ht.of_eq (by omega))
  | _ =>
    rw [hphase] at hlook
    cases hlook

/-- After an early return the count is behind by the instructions of the block before the one to
go on with. -/
theorem Kept.returned (h : Kept c m) (hphase : m.phase = .returned exit) :
    m.getAbsInstrCount + BitVec.ofNat 64 m.before = BitVec.ofNat 64 m.completed := by
  have hb := h.balanced
  unfold Balanced at hb
  rw [hphase] at hb
  obtain ⟨_, ht, hsync, _⟩ := hb
  exact count_of_tallied (by omega) (by omega) (ht.of_eq (by omega))

/-- `tcache_decode` goes on in `execute` or calls `longjmp_exec`. -/
theorem phase_decode (he : m.decode c f = .ok m') :
    m'.phase = .run ∨ ∃ cause, m'.phase = .caught cause := by
  obtain ⟨x, hx, he⟩ := Except.bind_eq_ok.mp he
  split at he
  · next hguard =>
    obtain ⟨dec, hdec, he⟩ := Except.bind_eq_ok.mp he
    cases dec with
    | hit e =>
      cases he
      exact .inl hguard.1
    | full thispc t =>
      obtain ⟨e, _, he⟩ := Except.bind_eq_ok.mp he
      cases he
      exact .inr ⟨.again, rfl⟩
    | place s thispc t =>
      cases f with
      | fault jpc =>
        cases he
        exact .inr ⟨.exception jpc, rfl⟩
      | ok d =>
        obtain ⟨e, _, he⟩ := Except.bind_eq_ok.mp he
        cases he
        split
        · exact .inl hguard.1
        · exact .inr ⟨.again, rfl⟩
  · cases he

theorem phase_next (he : m.next c saves = .ok m') : m'.phase = .run := by
  obtain ⟨m₁, hcomplete, he⟩ := Except.bind_eq_ok.mp he
  cases he
  obtain ⟨_, e, _, rfl⟩ := complete_inv hcomplete
  unfold debugDifftest
  split <;> rfl

theorem phase_leaveBb (he : m.leaveBb c ev = .ok m') : m'.phase = .blockEnd := by
  obtain ⟨m₁, hcomplete, he⟩ := Except.bind_eq_ok.mp he
  cases he
  obtain ⟨_, e, _, rfl⟩ := complete_inv hcomplete
  rfl

theorem phase_handleException (he : m.handleException c jpc = .ok m') : m'.phase = .handled := by
  obtain ⟨e, _, he⟩ := Except.bind_eq_ok.mp he
  cases he
  rfl

/-- Only a privileged instruction makes `execute` end early. -/
theorem isEarly_step (h : m.phase.isEarly = false) (hev : ev.isEarly = false)
    (he : m.step c ev = .ok m') : m'.phase.isEarly = false := by
  cases ev with
  | call n =>
    simp only [step, call] at he
    split at he
    · cases he
      rfl
    · cases he
  | leave statistic =>
    simp only [step, leave] at he
    split at he
    · cases he
      dsimp only
      split <;> rfl
    · cases he
  | interrupt jpc =>
    simp only [step, interrupt] at he
    split at he
    · split at he
      · rw [phase_handleException he]; rfl
      · rw [phase_handleException he]; rfl
      · rw [phase_handleException he]; rfl
      · cases he
    · cases he
  | handle =>
    simp only [step, handle] at he
    split at he
    · split at he
      · rw [phase_handleException he]; rfl
      · cases he
    · cases he
  | execute =>
    simp only [step, execute] at he
    split at he
    · split at he
      · cases he; rfl
      · cases he; rfl
      · cases he; rfl
      · cases he; rfl
      · cases he
    · cases he
  | decode f =>
    obtain hphase | ⟨cause, hphase⟩ := phase_decode he
    · rw [hphase]; rfl
    · rw [hphase]; rfl
  | next saves => rw [phase_next he]; rfl
  | startProfiling => rw [phase_next he]; rfl
  | privNext flush saves => cases hev
  | jump => rw [phase_leaveBb he]; rfl
  | branch isJmp => rw [phase_leaveBb he]; rfl
  | indirect target => rw [phase_leaveBb he]; rfl
  | privJr target flush saves => cases hev
  | raise cause saves =>
    obtain ⟨x, _, he⟩ := Except.bind_eq_ok.mp he
    split at he
    · cases he
      rfl
    · cases he
  | resume =>
    simp only [step, resume] at he
    split at he
    · cases he
      split
      · rfl
      · unfold debugDifftest
        split <;> rfl
    · cases he
  | ret =>
    simp only [step, ret] at he
    split at he
    · next exit hphase =>
      cases he
      rw [hphase] at h
      cases exit with
      | bb => rfl
      | privNext => cases h
      | privJr => cases h
    · cases he

end Steps

variable {c : CountConfig} {m m' m₀ : Counted δ}

theorem kept_run (hdebug : c.debug = false) (hsize : c.tcacheSize < 65536)
    (h0 : init c resetVector started = .ok m₀) (h : Run (Step c) m₀ tr m)
    (hgood : ∀ x ∈ tr, x.source.Counts c x.label) : Kept c m := by
  refine h.invariant hgood (kept_init h0) ?_
  intro x hx hs hk
  exact hk.step hdebug hsize hx hs

/-- Without `CONFIG_DEBUG`, and with a trace cache whose blocks `idx_in_bb` can number, a run whose
steps the counting is made for keeps the count exact, but for the time from where a privileged
instruction leaves `execute` until the count is taken. -/
theorem count_exact (hdebug : c.debug = false) (hsize : c.tcacheSize < 65536)
    (h0 : init c resetVector started = .ok m₀) (h : Run (Step c) m₀ tr m)
    (hgood : ∀ x ∈ tr, x.source.Counts c x.label) (hlook : m.phase.looksAt) :
    (m.phase.isEarly = false → m.getAbsInstrCount = BitVec.ofNat 64 m.completed) ∧
      ((∀ x ∈ tr, x.label.isEarly = false) →
        m.getAbsInstrCount = BitVec.ofNat 64 m.completed) := by
  have hkept := kept_run hdebug hsize h0 h hgood
  refine ⟨hkept.exact hlook, fun hearly => hkept.exact hlook ?_⟩
  refine h.invariant (I := fun m => m.phase.isEarly = false) hearly ?_ ?_
  · obtain ⟨e, _, h0⟩ := Except.bind_eq_ok.mp h0
    cases h0
    rfl
  · intro x hx hs hi
    exact isEarly_step hi hx hs

/-- When `execute` has returned, the instructions of the block that it is in the middle of are
missing from the count. -/
theorem count_returned (hdebug : c.debug = false) (hsize : c.tcacheSize < 65536)
    (h0 : init c resetVector started = .ok m₀) (h : Run (Step c) m₀ tr m)
    (hgood : ∀ x ∈ tr, x.source.Counts c x.label) (hphase : m.phase = .returned exit) :
    m.getAbsInstrCount + BitVec.ofNat 64 m.before = BitVec.ofNat 64 m.completed :=
  (kept_run hdebug hsize h0 h hgood).returned hphase

def play (c : CountConfig) (m : Counted δ) :
    List (CountEvent δ) → Except TcacheAbort (Counted δ)
  | [] => .ok m
  | ev :: evs => do
    let m ← m.step c ev
    play c m evs

theorem counted_of_play (h : play c m evs = .ok m') : ∃ tr, Run (Step c) m tr m' := by
  induction evs generalizing m with
  | nil =>
    cases h
    exact ⟨[], .nil⟩
  | cons ev evs ih =>
    obtain ⟨m₁, h1, h2⟩ := Except.bind_eq_ok.mp h
    obtain ⟨tr, htr⟩ := ih h2
    exact ⟨_, .cons h1 htr⟩

/-- An instruction at `pc` with another after it in its block. -/
def plain (pc : Word) : CountEvent Unit := .decode (.ok ⟨.N, pc + 4, 0, ()⟩)

/-- A block of one instruction ends and the next fetch faults. -/
theorem count_exact_fault : ∃ (m₀ m : Counted Unit) (tr : _),
    init .standard 0x80100000 false = .ok m₀ ∧ Run (Step .standard) m₀ tr m ∧
      m.phase = .handled ∧ m.completed = 1 ∧ m.getAbsInstrCount = 1 := by
  have hplay : ∃ m₀ m₁ m₂ m₃ m₄ m₅ m₆ m₇ : Counted Unit,
      init .standard 0x80100000 false = .ok m₀ ∧
      Step .standard m₀ (.call (-1)) m₁ ∧ Step .standard m₁ .execute m₂ ∧
      Step .standard m₂ (.decode (.ok ⟨.J, 0x80100004, 0x80200000, ()⟩)) m₃ ∧
      Step .standard m₃ .jump m₄ ∧ Step .standard m₄ .resume m₅ ∧
      Step .standard m₅ (.decode (.fault 0x80300000)) m₆ ∧ Step .standard m₆ .handle m₇ ∧
      m₃.phase = .run ∧ m₅.nRemain = m₅.n ∧ m₇.phase = .handled ∧ m₇.completed = 1 :=
    ⟨_, _, _, _, _, _, _, _, rfl, rfl, rfl, rfl, rfl, rfl, rfl, rfl, rfl, rfl, rfl, rfl⟩
  obtain ⟨m₀, m₁, m₂, m₃, m₄, m₅, m₆, m₇, h0, h1, h2, h3, h4, h5, h6, h7, hrun, hsync, hphase,
    hcompleted⟩ := hplay
  have hplayed := Run.cons h1 (.cons h2 (.cons h3 (.cons h4 (.cons h5 (.cons h6 (.cons h7 .nil))))))
  refine ⟨m₀, m₇, _, h0, hplayed, hphase, hcompleted, ?_⟩
  have hcount := count_exact rfl (by decide) h0 hplayed ?_ (by rw [hphase]; rfl)
  · rw [hcount.1 (by rw [hphase]; rfl), hcompleted]
    rfl
  · intro x hx
    simp only [List.mem_cons, List.not_mem_nil, or_false] at hx
    obtain rfl | rfl | rfl | rfl | rfl | rfl | rfl := hx
    · trivial
    · trivial
    · refine .inr fun m' hm' => ?_
      cases h3.symm.trans hm'
      exact hrun
    · trivial
    · trivial
    · exact .inl hsync
    · trivial

/-- `fence.i` after another instruction, and then a jump: only the jump is counted. -/
theorem count_short : ∃ (m₀ m : Counted Unit) (tr : _),
    init .standard 0x80100000 false = .ok m₀ ∧ Run (Step .standard) m₀ tr m ∧
      m.phase = .blockEnd ∧ m.completed = 3 ∧ m.getAbsInstrCount = 1 ∧
      m.getAbsInstrCount ≠ BitVec.ofNat 64 m.completed := by
  have hplay : ∃ m₀ m : Counted Unit, init .standard 0x80100000 false = .ok m₀ ∧
      play .standard m₀ [.call (-1), .execute, plain 0x80100000, .next false, plain 0x80100004,
        .privNext true false, .ret, .execute,
        .decode (.ok ⟨.J, 0x8010000c, 0x80200000, ()⟩), .jump] = .ok m ∧
      m.phase = .blockEnd ∧ m.completed = 3 ∧ m.getAbsInstrCount = 1 :=
    ⟨_, _, rfl, rfl, rfl, rfl, rfl⟩
  obtain ⟨m₀, m, h0, hplay, hphase, hcompleted, hcount⟩ := hplay
  obtain ⟨tr, hrun⟩ := counted_of_play hplay
  refine ⟨m₀, m, tr, h0, hrun, hphase, hcompleted, hcount, ?_⟩
  rw [hcount, hcompleted]
  decide

end Counted

end Nemu
