import Nemu.Footprint
import Nemu.Reset
import Nemu.WalkContract

namespace Nemu

open Effect

set_option autoImplicit true

namespace Machine

/-- The reservation that `lr_addr` and `lr_valid` stand for. -/
def reservation (s : Machine) : Option Word := if s.lrValid ≠ 0 then some s.lrAddr else none

/-- The effective address of an atomic instruction. -/
def atomicAddr (s : Machine) (d : Decode) : Word := s.readLoc d.src1.preg

/-- The state in which a store-conditional stores. -/
def scEntry (s : Machine) (P : Platform) : Machine :=
  { s with amo := P.storeCommit || s.amo }

end Machine

instance (d : Decode) : Decidable d.IsLr :=
  decidable_of_iff (d.id = .atomic ∧ d.funct5 = 0b00010) ⟨fun h => ⟨h.1, h.2⟩, fun h => ⟨h.id, h.op⟩⟩

instance (d : Decode) : Decidable d.IsSc :=
  decidable_of_iff (d.id = .atomic ∧ d.funct5 = 0b00011) ⟨fun h => ⟨h.1, h.2⟩, fun h => ⟨h.id, h.op⟩⟩

/-- The reservation machine: a load-reserved makes a reservation, a store-conditional gives it up. -/
def reserveStep (r : Option Word) (x : Transition Cpu Event) : Option Word :=
  match x.label with
  | .instr d =>
    if d.IsLr then some (x.source.m.atomicAddr d) else if d.IsSc then none else r
  | _ => r

/-- The store of a store-conditional has been made. -/
def ScStored (P : Platform) (d : Decode) (s t : Machine) : Prop :=
  ∃ u v, fetchDecode P s = .ok d u ∧
    vaddrWrite P d.pc (s.atomicAddr d) d.amoWidth (s.readLoc d.src2.preg) .dynamic
      ((u.started d).scEntry P) = .ok () v ∧ t.pmem = v.pmem

/-- What holds for a store-conditional that led from `s` to `t`. -/
structure ScLaw (P : Platform) (d : Decode) (s t : Machine) : Prop where
  succeeds : t.readLoc d.dest.preg = 0 ∧ ScStored P d s t ↔ s.reservation = some (s.atomicAddr d)
  released : t.reservation = none
  fails : s.reservation ≠ some (s.atomicAddr d) →
    t.readLoc d.dest.preg = 1 ∧ ∃ u, fetchDecode P s = .ok d u ∧ t.pmem = u.pmem

/-- The laws of load-reserved and store-conditional for one completed instruction. -/
structure LrScLaw (P : Platform) (x : Transition Cpu Event) : Prop where
  lr : ∀ d, x.label = .instr d → d.IsLr → x.target.m.reservation = some (x.source.m.atomicAddr d)
  sc : ∀ d, x.label = .instr d → d.IsSc → ScLaw P d x.source.m x.target.m

/-- The page walk for the store of a failing store-conditional has no A/D bit to set. -/
def NoMark (P : Platform) (d : Decode) (s : Machine) : Prop :=
  P.share = true ∨ s.dataMmuState ≠ .translate ∨
    ∀ level pPte pte u, ptwWalk P (s.atomicAddr d) .write s = .ok (.leaf level pPte pte) u →
      pte.a = true ∧ pte.d = true

/-- The condition on the state `s` in which an executor starts: a load-reserved does not load into
its address register, a store-conditional does not fail on a reservation of another address, and one
that fails leaves the page table alone. -/
structure LrScSafe (P : Platform) (d : Decode) (s : Machine) : Prop where
  lr : d.IsLr → d.dest.preg ≠ d.src1.preg
  other : d.IsSc → s.reservation = none ∨ s.reservation = some (s.atomicAddr d)
  mark : d.IsSc → s.reservation = none → NoMark P d (s.scEntry P)

variable {P : Platform} {d : Decode} {s t : Machine}

section Frame

theorem reservation_eq (ha : t.lrAddr = s.lrAddr) (hv : t.lrValid = s.lrValid) :
    t.reservation = s.reservation := by
  unfold Machine.reservation
  rw [ha, hv]

theorem lr_blind : DataBlind fun s => (s.lrAddr, s.lrValid) where
  fetch h := by
    have h1 := congrArg (fun u : Machine => (u.lrAddr, u.lrValid)) h
    exact h1
  loc s l v := by cases l <;> rfl
  vreg _ _ := rfl
  csr _ _ := rfl
  mode _ _ := rfl
  pc _ _ := rfl
  mmu _ := rfl
  rm _ _ := rfl

theorem reservation_of_lr (h : (t.lrAddr, t.lrValid) = (s.lrAddr, s.lrValid)) :
    t.reservation = s.reservation := by
  obtain ⟨ha, hv⟩ := Prod.mk.injEq _ _ _ _ ▸ h
  exact reservation_eq ha hv

/-- Only the two instructions of the machine change the reservation. -/
theorem exec_reservation (hl : ¬ d.IsLr) (hs : ¬ d.IsSc) (s : Machine) :
    (final (exec P d) s).reservation = s.reservation := by
  apply reservation_of_lr
  refine reached_keeps (I := fun t => (t.lrAddr, t.lrValid) = (s.lrAddr, s.lrValid))
    (exec_reached P d s) (fun t u hc ht => ?_) rfl
  obtain h | ⟨h, -⟩ | ⟨h, -⟩ | ⟨-, _, _, rfl⟩ := hc.blind lr_blind
  · exact h.trans ht
  · exact absurd h hl
  · exact absurd h hs
  · exact ht

theorem fetch_reservation (h : fetchDecode P s = .ok d u) :
    (u.started d).reservation = s.reservation ∧ ∀ l, (u.started d).readLoc l = s.readLoc l := by
  have hf : u.eraseFetch = s.eraseFetch := fetchDecode_frame.ok h
  refine ⟨reservation_of_lr (DataBlind.fetch lr_blind hf :), fun l => ?_⟩
  have hg := congrArg Machine.gpr hf
  have hfp := congrArg Machine.fpr hf
  have hz := congrArg Machine.zeroNull hf
  cases l with
  | gpr r => exact congrFun hg r
  | fpr r => exact congrFun hfp r
  | zeroNull => exact hz

theorem readLoc_ticked (P : Platform) (s : Machine) (l : Loc) :
    (s.ticked P).readLoc l = s.readLoc l := by
  unfold Machine.ticked utimerTick
  cases l <;> (repeat' split) <;> rfl

theorem pmem_ticked (P : Platform) (s : Machine) : (s.ticked P).pmem = s.pmem := by
  unfold Machine.ticked utimerTick
  (repeat' split) <;> rfl

theorem reservation_ticked (P : Platform) (s : Machine) : (s.ticked P).reservation = s.reservation :=
  reservation_of_lr (DataBlind.ticked lr_blind P s)

end Frame

section LoadReserved

theorem readLoc_of_eraseAccess (h : t.eraseAccess = s.eraseAccess) (l : Loc) :
    t.readLoc l = s.readLoc l := by
  have hg := congrArg Machine.gpr h
  have hf := congrArg Machine.fpr h
  have hz := congrArg Machine.zeroNull h
  cases l with
  | gpr r => exact congrFun hg r
  | fpr r => exact congrFun hf r
  | zeroNull => exact hz

theorem rtlLms_access : (accessEffect P (BadTranslation false m)).Within (rtlLms P d addr off len m) :=
  .bind (.bind (.read _) fun _ => .ret _ _) fun _ => .bind (vaddrRead_access m) fun _ =>
    .bind (assert_access _ rfl) fun _ => .ret _ _

/-- A load-reserved reserves what its address register holds after the load. -/
theorem lrStep_ok (h : lrStep P d w s = .ok () t) :
    ∃ (u : Machine) (v : Word), u.eraseAccess = s.eraseAccess ∧
      t = { u.writeLoc d.dest.preg v with
        lrAddr := (u.writeLoc d.dest.preg v).readLoc d.src1.preg, lrValid := 1 } := by
  obtain ⟨_, _, hget, h1⟩ := ok_of_bind h
  cases hget
  obtain ⟨_, _, ha, h2⟩ := ok_of_bind h1
  obtain ⟨rfl, -⟩ := assert_ok ha
  obtain ⟨v, u, hl, h3⟩ := ok_of_bind h2
  cases h3
  exact ⟨u, v, rtlLms_access.ok hl, rfl⟩

theorem lrStep_reserves (hne : d.dest.preg ≠ d.src1.preg) (h : lrStep P d w s = .ok () t) :
    t.reservation = some (s.atomicAddr d) := by
  obtain ⟨u, v, hu, rfl⟩ := lrStep_ok h
  have ha : (u.writeLoc d.dest.preg v).readLoc d.src1.preg = s.atomicAddr d := by
    rw [readLoc_writeLoc_ne u v hne]
    exact readLoc_of_eraseAccess hu _
  change some ((u.writeLoc d.dest.preg v).readLoc d.src1.preg) = _
  rw [ha]

theorem lrStep_fault (h : lrStep P d w s = .error e t) : t.reservation = s.reservation := by
  obtain hget | ⟨_, _, hget, h1⟩ := error_of_bind h
  · cases hget
  · cases hget
    obtain ha | ⟨_, _, ha, h2⟩ := error_of_bind h1
    · have hkeep : (accessEffect P fun _ => False).Within (assert (s.amo = false) .amo) :=
        assert_access _ rfl
      exact reservation_of_lr ((DataBlind.of_access lr_blind hkeep).error ha)
    · obtain ⟨rfl, -⟩ := assert_ok ha
      obtain hl | ⟨v, u, -, h3⟩ := error_of_bind h2
      · exact reservation_of_lr ((DataBlind.of_access lr_blind rtlLms_access).error hl)
      · cases h3

end LoadReserved

section StoreConditional

theorem scEntry_run (P : Platform) (s : Machine) : setScAmo P true s = .ok () (s.scEntry P) :=
  setScAmo_run P s

theorem scSuccess_iff (P : Platform) (s : Machine) (d : Decode) :
    (s.scEntry P).scSuccess d = true ↔ s.reservation = some (s.atomicAddr d) := by
  have hread : ∀ l, (s.scEntry P).readLoc l = s.readLoc l := by
    intro l
    cases l <;> rfl
  unfold Machine.scSuccess Machine.reservation Machine.atomicAddr
  rw [hread, Bool.and_eq_true, decide_eq_true_eq, decide_eq_true_eq]
  change s.lrAddr = _ ∧ s.lrValid ≠ 0 ↔ _
  by_cases hv : s.lrValid = 0
  · rw [if_neg (not_not.mpr hv)]
    exact ⟨fun h => absurd hv h.2, fun h => by cases h⟩
  · rw [if_pos hv, Option.some.injEq]
    exact ⟨fun h => h.1, fun h => ⟨h, hv⟩⟩

theorem scEnd_run (P : Platform) (d : Decode) (v : Word) (s : Machine) :
    ∃ t, (writeReg d.dest.preg v >>= fun _ => setScAmo P false) s = .ok () t ∧
      t.readLoc d.dest.preg = v ∧ t.pmem = s.pmem ∧ t.reservation = s.reservation := by
  have hw : (writeReg d.dest.preg v : Exec Unit) s = .ok () (s.writeLoc d.dest.preg v) := rfl
  have hself := readLoc_writeLoc_self s d.dest.preg v
  have hres : (s.writeLoc d.dest.preg v).reservation = s.reservation :=
    reservation_of_lr (DataBlind.loc lr_blind s d.dest.preg v)
  have hmem : (s.writeLoc d.dest.preg v).pmem = s.pmem := by
    cases d.dest.preg <;> rfl
  have hamo : ∀ (u : Machine) (l : Loc), ({ u with amo := false } : Machine).readLoc l = u.readLoc l := by
    intro u l
    cases l <;> rfl
  unfold setScAmo
  split
  · exact ⟨{ s.writeLoc d.dest.preg v with amo := false }, bind_ok hw, (hamo _ _).trans hself, hmem, hres⟩
  · exact ⟨_, bind_ok hw, hself, hmem, hres⟩

theorem scStore_ok (h : scStore P d w s = .ok () t) :
    t.reservation = none ∧
      ∃ v, vaddrWrite P d.pc (s.atomicAddr d) w (s.readLoc d.src2.preg) .dynamic s = .ok () v ∧
        t.pmem = v.pmem := by
  obtain ⟨data, _, hd, h1⟩ := ok_of_bind h
  cases hd
  obtain ⟨_, u, hm, h2⟩ := ok_of_bind h1
  obtain ⟨a, _, ha, h3⟩ := ok_of_bind hm
  cases ha
  obtain ⟨_, v, hv, h4⟩ := ok_of_bind h3
  rw [show (0 : Word) = 0#64 from rfl, BitVec.add_zero] at hv
  have hu : u.pmem = v.pmem := by
    cases h4
    split <;> rfl
  cases h2
  exact ⟨rfl, v, hv, hu⟩

theorem scStore_fault (h : scStore P d w s = .error e t) : t.reservation = s.reservation := by
  obtain hd | ⟨data, _, hd, h1⟩ := error_of_bind h
  · cases hd
  · cases hd
    obtain hm | ⟨_, u, hm, h2⟩ := error_of_bind h1
    · obtain ha | ⟨a, _, ha, h3⟩ := error_of_bind hm
      · cases ha
      · cases ha
        obtain hv | ⟨_, v, -, h4⟩ := error_of_bind h3
        · exact reservation_of_lr ((DataBlind.of_access lr_blind (vaddrWrite_access _)).error hv)
        · cases h4
    · cases h2

theorem ptwUpdateAd_none (h : P.share = true ∨ (pte.a = true ∧ pte.d = true))
    (hu : ptwUpdateAd P pPte pte va type s = .ok () t) : t = s := by
  obtain ⟨_, _, hget, h1⟩ := ok_of_bind hu
  cases hget
  split at h1
  · next hc =>
    obtain h | ⟨ha, hd⟩ := h
    · rw [h] at hc
      cases hc
    · rw [ha, hd, Bool.and_eq_true] at hc
      cases hc.2
  · cases h1
    rfl

/-- A translation that has no A/D bit to set leaves memory alone. -/
theorem isaMmuTranslate_pmem (h : isaMmuTranslate P va .write s = .ok r t)
    (hm : P.share = true ∨ ∀ level pPte pte u, ptwWalk P va .write s = .ok (.leaf level pPte pte) u →
      pte.a = true ∧ pte.d = true) : t.pmem = s.pmem := by
  obtain ⟨r', u, hp, h1⟩ := ok_of_bind h
  have hu : u.pmem = s.pmem := by
    obtain ⟨walk, v, hw, h2⟩ := ok_of_bind hp
    rw [← (ptwWalk_ok hw).1]
    cases walk with
    | bad pte =>
      obtain ⟨_, _, hc, -⟩ := ok_of_bind h2
      cases (checkPermission_ok hc).2
    | leaf level pPte pte =>
      obtain ⟨_, _, hc, h3⟩ := ok_of_bind h2
      obtain ⟨rfl, -⟩ := checkPermission_ok hc
      split at h3
      · obtain ⟨_, _, hc, -⟩ := ok_of_bind h3
        cases (checkPermission_ok hc).2
      · obtain ⟨_, _, hup, h4⟩ := ok_of_bind h3
        cases h4
        rw [ptwUpdateAd_none (hm.imp_right fun hm => hm _ _ _ _ hw) hup]
  rw [← hu]
  split at h1
  · obtain ⟨_, _, hf, h2⟩ := ok_of_bind h1
    cases h2
    exact forceRaisePf_ok hf
  · cases h1
    rfl

theorem scFailCheck_pmem (h : scFailCheck P d w s = .ok () t) (hm : NoMark P d s) :
    t.pmem = s.pmem := by
  obtain ⟨a, _, ha, h1⟩ := ok_of_bind h
  cases ha
  obtain ⟨m, u, hc, h2⟩ := ok_of_bind h1
  obtain ⟨rfl, rfl⟩ := isaMmuCheck_ok hc
  obtain ⟨pa, v, hp, h3⟩ := ok_of_bind h2
  have hv : v.pmem = u.pmem := by
    cases hmode : u.mmuCache (decide (MemType.write = .ifetch)) with
    | translate =>
      rw [hmode] at hp
      have hdata : u.dataMmuState = .translate := hmode
      refine isaMmuTranslate_pmem hp ?_
      obtain h | h | h := hm
      · exact .inl h
      · exact absurd hdata h
      · exact .inr h
    | direct | dynamic =>
      rw [hmode] at hp
      cases hp
      rfl
  rw [← hv]
  obtain ⟨_, _, hget, h4⟩ := ok_of_bind h3
  cases hget
  split at h4
  · exact absurd h4 faultAt_not_ok
  · cases h4
    rfl

theorem scFailCheck_access : (accessEffect P fun _ => True).Within (scFailCheck P d w) := by
  refine .bind (.bind (.read _) fun _ => .ret _ _) fun a => .bind isaMmuCheck_access fun m =>
    .bind ?_ fun pa => .bind (.read _) fun s => ?_
  · unfold scFailPaddr
    split
    · exact isaMmuTranslate_access fun _ _ => trivial
    · exact .ret _ _
  · split
    · exact faultAt_access rfl rfl a
    · exact .ret _ _

theorem scStep_success (hr : s.reservation = some (s.atomicAddr d)) (h : scStep P d w s = .ok () t) :
    t.readLoc d.dest.preg = 0 ∧ t.reservation = none ∧
      ∃ v, vaddrWrite P d.pc (s.atomicAddr d) w (s.readLoc d.src2.preg) .dynamic (s.scEntry P) = .ok () v ∧
        t.pmem = v.pmem := by
  obtain ⟨_, _, ha, h1⟩ := ok_of_bind h
  cases (scEntry_run P s).symm.trans ha
  obtain ⟨_, _, hget, h2⟩ := ok_of_bind h1
  cases hget
  rw [if_pos ((scSuccess_iff P s d).mpr hr)] at h2
  obtain ⟨_, u, hs, h3⟩ := ok_of_bind h2
  obtain ⟨hnone, v, hv, hmem⟩ := scStore_ok hs
  obtain ⟨t', ht, hrd, hp, hres⟩ := scEnd_run P d 0 u
  cases ht.symm.trans h3
  have hread : ∀ l, (s.scEntry P).readLoc l = s.readLoc l := by
    intro l
    cases l <;> rfl
  refine ⟨hrd, hres.trans hnone, v, ?_, hp.trans hmem⟩
  rw [← hread, Machine.atomicAddr, ← hread]
  exact hv

theorem scStep_failure (hr : s.reservation = none) (hm : NoMark P d (s.scEntry P))
    (h : scStep P d w s = .ok () t) :
    t.readLoc d.dest.preg = 1 ∧ t.reservation = none ∧ t.pmem = s.pmem := by
  obtain ⟨_, _, ha, h1⟩ := ok_of_bind h
  cases (scEntry_run P s).symm.trans ha
  obtain ⟨_, _, hget, h2⟩ := ok_of_bind h1
  cases hget
  have hfail : ¬ (s.scEntry P).scSuccess d = true := by
    rw [scSuccess_iff, hr]
    exact nofun
  rw [if_neg hfail] at h2
  obtain ⟨_, u, hc, h3⟩ := ok_of_bind h2
  have hp : u.pmem = (s.scEntry P).pmem := scFailCheck_pmem hc hm
  have hu : u.reservation = (s.scEntry P).reservation :=
    reservation_of_lr ((DataBlind.of_access lr_blind scFailCheck_access).ok hc)
  obtain ⟨t', ht, hrd, hp', hres⟩ := scEnd_run P d 1 u
  cases ht.symm.trans h3
  exact ⟨hrd, hres.trans (hu.trans hr), hp'.trans hp⟩

theorem scStep_fault (h : scStep P d w s = .error e t) : t.reservation = s.reservation := by
  change t.reservation = (s.scEntry P).reservation
  obtain ha | ⟨_, _, ha, h1⟩ := error_of_bind h
  · cases (scEntry_run P s).symm.trans ha
  · cases (scEntry_run P s).symm.trans ha
    obtain hget | ⟨_, _, hget, h2⟩ := error_of_bind h1
    · cases hget
    · cases hget
      split at h2
      · obtain hs | ⟨_, u, -, h3⟩ := error_of_bind h2
        · exact scStore_fault hs
        · obtain ⟨t', ht, -⟩ := scEnd_run P d 0 u
          cases ht.symm.trans h3
      · obtain hc | ⟨_, u, -, h3⟩ := error_of_bind h2
        · exact reservation_of_lr ((DataBlind.of_access lr_blind scFailCheck_access).error hc)
        · obtain ⟨t', ht, -⟩ := scEnd_run P d 1 u
          cases ht.symm.trans h3

end StoreConditional

section Step

theorem exec_lr (h : d.IsLr) : exec P d = lrStep P d d.amoWidth := by
  unfold exec
  rw [h.id]
  exact if_pos h.op

theorem exec_sc (h : d.IsSc) : exec P d = scStep P d d.amoWidth := by
  unfold exec
  rw [h.id]
  have hlr : ¬ d.funct5 = 0b00010 := by
    rw [h.op]
    decide
  exact (if_neg hlr).trans (if_pos h.op)

theorem not_lr_of_sc (h : d.IsSc) : ¬ d.IsLr := fun hl => by
  cases hl.op.symm.trans h.op

theorem exec_fault_reservation (h : exec P d s = .error e t) : t.reservation = s.reservation := by
  by_cases hl : d.IsLr
  · rw [exec_lr hl] at h
    exact lrStep_fault h
  by_cases hs : d.IsSc
  · rw [exec_sc hs] at h
    exact scStep_fault h
  · have hr := exec_reservation (P := P) hl hs s
    rw [final_error h] at hr
    exact hr

theorem fault_reservation (h : executeStep P s = .error e t) : t.reservation = s.reservation := by
  obtain hf | ⟨d, u, hf, he⟩ := executeStep_error h
  · have hk : t.eraseFetch = s.eraseFetch := fetchDecode_frame.error hf
    exact reservation_of_lr (DataBlind.fetch lr_blind hk :)
  · exact (exec_fault_reservation he).trans (fetch_reservation hf).1

theorem lr_reserves (hlr : d.IsLr) (hf : fetchDecode P s = .ok d u) (hsafe : LrScSafe P d (u.started d))
    (he : exec P d (u.started d) = .ok () v) : v.reservation = some (s.atomicAddr d) := by
  rw [exec_lr hlr] at he
  rw [lrStep_reserves (hsafe.lr hlr) he]
  exact congrArg some ((fetch_reservation hf).2 _)

theorem sc_law (hsc : d.IsSc) (hf : fetchDecode P s = .ok d u) (hsafe : LrScSafe P d (u.started d))
    (he : exec P d (u.started d) = .ok () v) : ScLaw P d s (v.ticked P) := by
  rw [exec_sc hsc] at he
  obtain ⟨hres, hread⟩ := fetch_reservation hf
  have haddr : (u.started d).atomicAddr d = s.atomicAddr d := hread _
  obtain hnone | hsome := hsafe.other hsc
  · obtain ⟨hrd, hrel, hmem⟩ := scStep_failure hnone (hsafe.mark hsc hnone) he
    rw [hres] at hnone
    refine ⟨⟨fun hs => ?_, fun hs => ?_⟩, ?_, fun _ => ⟨?_, u, hf, ?_⟩⟩
    · rw [readLoc_ticked, hrd] at hs
      cases hs.1
    · rw [hnone] at hs
      cases hs
    · exact (reservation_ticked P v).trans hrel
    · exact (readLoc_ticked P v _).trans hrd
    · exact (pmem_ticked P v).trans hmem
  · obtain ⟨hrd, hrel, w, hw, hmem⟩ := scStep_success hsome he
    rw [haddr, hread] at hw
    rw [hres, haddr] at hsome
    refine ⟨⟨fun _ => hsome, fun _ => ⟨?_, u, w, hf, hw, ?_⟩⟩, ?_, fun hs => absurd hsome hs⟩
    · exact (readLoc_ticked P v _).trans hrd
    · exact (pmem_ticked P v).trans hmem
    · exact (reservation_ticked P v).trans hrel

/-- One step: the reservation moves as the reservation machine does, and the laws hold. -/
theorem CpuStep.reserves {a b : Cpu} (h : CpuStep P a e b)
    (hsafe : e.isAttempt → ∀ d u, fetchDecode P a.m = .ok d u → LrScSafe P d (u.started d)) :
    b.m.reservation = reserveStep a.m.reservation ⟨a, e, b⟩ ∧ LrScLaw P ⟨a, e, b⟩ := by
  have hother : (∀ d, e ≠ .instr d) → b.m.reservation = a.m.reservation →
      b.m.reservation = reserveStep a.m.reservation ⟨a, e, b⟩ ∧ LrScLaw P ⟨a, e, b⟩ := by
    intro hne hb
    refine ⟨?_, fun d hd => absurd hd (hne d), fun d hd => absurd hd (hne d)⟩
    cases e with
    | instr d => exact absurd rfl (hne d)
    | fault f | trap f | intr no | quiet => exact hb
  cases h with
  | @instr s d t h =>
    obtain ⟨u, v, hf, he, rfl⟩ := executeStep_ok h
    have hs := hsafe rfl d u hf
    have hlr : d.IsLr → (v.ticked P).reservation = some (s.atomicAddr d) := fun hlr =>
      (reservation_ticked P v).trans (lr_reserves hlr hf hs he)
    have hsc : d.IsSc → ScLaw P d s (v.ticked P) := fun hsc => sc_law hsc hf hs he
    refine ⟨?_, fun _ hd hl => ?_, fun _ hd hl => ?_⟩
    · unfold reserveStep
      dsimp only
      split
      · next hl => exact hlr hl
      split
      · next hl => exact (hsc hl).released
      · next hl hl' =>
        have hr := exec_reservation (P := P) hl hl' (u.started d)
        rw [final_ok he] at hr
        exact (reservation_ticked P v).trans (hr.trans (fetch_reservation hf).1)
    · cases hd
      exact hlr hl
    · cases hd
      exact hsc hl
  | fault h => exact hother (fun _ hd => by cases hd) (fault_reservation h)
  | batchEnd | noIntr _ => exact hother (fun _ hd => by cases hd) rfl
  | trap h => exact hother (fun _ hd => by cases hd) (reservation_of_lr ((DataBlind.handleException lr_blind P _).ok h))
  | intr _ _ _ h => exact hother (fun _ hd => by cases hd) (reservation_of_lr ((DataBlind.takeIntr lr_blind P _).ok h))
  | alarm _ => exact hother (fun _ hd => by cases hd) (reservation_of_lr (DataBlind.setCsr lr_blind _ _ _))

/-- Along every run whose load-reserved and store-conditional instructions are safe the reservation is
that of the reservation machine, and each of them obeys its laws. -/
theorem reservation_machine {a c : Cpu} (h : Run (CpuStep P) a tr c)
    (hsafe : ∀ x ∈ tr, x.label.isAttempt → ∀ d u, fetchDecode P x.source.m = .ok d u →
      LrScSafe P d (u.started d)) :
    c.m.reservation = tr.foldl reserveStep a.m.reservation ∧ ∀ x ∈ tr, LrScLaw P x := by
  induction h with
  | nil => exact ⟨rfl, fun x hx => by cases hx⟩
  | @cons a e b tr c hs _ ih =>
    obtain ⟨hb, hlaw⟩ := hs.reserves (hsafe ⟨a, e, b⟩ List.mem_cons_self)
    obtain ⟨hc, hlaws⟩ := ih fun x hx => hsafe x (List.mem_cons_of_mem _ hx)
    refine ⟨?_, fun x hx => ?_⟩
    · rw [hc, hb]
      rfl
    · obtain rfl | hx := List.mem_cons.mp hx
      · exact hlaw
      · exact hlaws x hx

theorem LrScSafe.other_op (h : d.id ≠ .atomic) (s : Machine) : LrScSafe P d s :=
  ⟨fun hl => absurd hl.id h, fun hl => absurd hl.id h, fun hl => absurd hl.id h⟩

/-- `auipc a0, 0; lr.d a1, (a0); sc.d a2, a1, (a0)`. -/
theorem reservation_machine_pair :
    ∃ tr c, Run (CpuStep (.bare .standalone))
        ⟨.top, booted (.bare .standalone) [0x00000517, 0x100535af, 0x18b5362f]⟩ tr c ∧
      c.m.gpr 12 = 0 ∧ c.m.reservation = tr.foldl reserveStep none ∧
      ∀ x ∈ tr, LrScLaw (.bare .standalone) x := by
  have hrun : ∃ tr c, Run (CpuStep (.bare .standalone))
        ⟨.top, booted (.bare .standalone) [0x00000517, 0x100535af, 0x18b5362f]⟩ tr c ∧
      (∀ x ∈ tr, x.label.isAttempt → ∀ d u, fetchDecode (.bare .standalone) x.source.m = .ok d u →
        LrScSafe (.bare .standalone) d (u.started d)) ∧ c.m.gpr 12 = 0 := by
    refine ⟨_, _, .cons (.noIntr (.inr rfl)) (.cons (.instr rfl) (.cons (.instr rfl) (.cons (.instr rfl)
      .nil))), ?_, rfl⟩
    intro x hx hatt d u hf
    simp only [List.mem_cons, List.not_mem_nil, or_false] at hx
    rcases hx with rfl | rfl | rfl | rfl
    · cases hatt
    · cases hf
      exact .other_op (by decide) _
    · cases hf
      exact ⟨fun _ => by decide, fun h => absurd h (by decide), fun h => absurd h (by decide)⟩
    · cases hf
      exact ⟨fun h => absurd h (by decide), fun _ => .inr rfl, fun _ h => by cases h⟩
  obtain ⟨tr, c, hr, hsafe, hrd⟩ := hrun
  obtain ⟨hres, hlaw⟩ := reservation_machine hr hsafe
  exact ⟨tr, c, hr, hrd, hres, hlaw⟩

/-- After `lr.d a0, (a0)` the loaded value is the address reserved, and an `sc.d` to another address
than the reserved one leaves the reservation. -/
theorem reservation_misplaced :
    (∃ tr c, Run (CpuStep (.bare .standalone))
        ⟨.top, booted (.bare .standalone) [0x00000517, 0x1005352f]⟩ tr c ∧
      ∃ x ∈ tr, ¬ LrScLaw (.bare .standalone) x) ∧
    ∃ tr c, Run (CpuStep (.bare .standalone))
        ⟨.top, booted (.bare .standalone) [0x00000517, 0x100535af, 0x00850513, 0x18b5362f]⟩ tr c ∧
      ∃ x ∈ tr, ¬ LrScLaw (.bare .standalone) x := by
  constructor
  · refine ⟨_, _, .cons (.noIntr (.inr rfl)) (.cons (.instr rfl) (.cons (.instr rfl) .nil)), _,
      .tail _ (.tail _ (.head _)), fun h => ?_⟩
    have hres : some (0x1005352f00000517 : Word) = some 0x80100000 := h.lr _ rfl (by decide)
    exact absurd hres (by decide)
  · refine ⟨_, _, .cons (.noIntr (.inr rfl)) (.cons (.instr rfl) (.cons (.instr rfl) (.cons (.instr rfl)
      (.cons (.instr rfl) .nil)))), _, .tail _ (.tail _ (.tail _ (.tail _ (.head _)))), fun h => ?_⟩
    have hres : some (0x80100000 : Word) = none := (h.sc _ rfl (by decide)).released
    cases hres

end Step

end Nemu
