import Nemu.Formats
import Nemu.Reservation

namespace Nemu

open Effect

set_option autoImplicit true

/-- `REF_QUERY_MEM_EVENT`, the only query. -/
def refQueryMemEvent : Word := 0

/-- `isa_difftest_query_ref`: the answer, and the state in which the record is cleared. Any other type
panics. -/
def isaDifftestQueryRef (type : Word) (s : Machine) : Option (MemEvent × Machine) :=
  if type = refQueryMemEvent then
    some ({ s.memEvent with pc := s.currentPc }, { s with memEvent := ⟨0, false, false, 0⟩ })
  else none

def AfterQuery (s : Machine) : Prop := ∃ s₀ r, isaDifftestQueryRef refQueryMemEvent s₀ = some (r, s)

/-- The last memory operation of a vector executor, with its address. -/
def VProg.lastAccess (P : Platform) (d : Decode) (m : MmuMode) : VProg → Machine → Option (Bool × Word)
  | .done, _ | .inv, _ | .stuck, _ => none
  | .get k, s => (k s).lastAccess P d m s
  | .setVr r v k, s => k.lastAccess P d m { s with vr := Function.update s.vr r v }
  | .setGpr r v k, s => k.lastAccess P d m (if r ≠ 0 then s.writeLoc (.gpr r) v else s)
  | .setCsr c v k, s => k.lastAccess P d m (s.setCsr c.csr v)
  | .load a len k, s =>
    match vaddrRead P d.pc a len m s with
    | .ok v t => ((k v).lastAccess P d m (final (recordMemEvent P true a) t)).or (some (true, a))
    | .error _ _ => none
  | .store a len data k, s =>
    match vaddrWrite P d.pc a len data m s with
    | .ok _ t => (k.lastAccess P d m (final (recordMemEvent P false a) t)).or (some (false, a))
    | .error _ _ => none

/-- The last memory operation of an instruction whose executor starts in `s`: whether it is a load, and
its address. -/
def Decode.lastAccess (P : Platform) (d : Decode) (s : Machine) : Option (Bool × Word) :=
  match d.id with
  | .load _ _ _ | .fload _ _ => some (true, s.readLoc d.src1.preg + d.src2.imm)
  | .store _ _ | .fstore _ _ => some (false, s.readLoc d.src1.preg + d.src2.imm)
  | .atomic =>
    if d.funct5 = 0b00010 then some (true, s.atomicAddr d)
    else if d.funct5 = 0b00011 then if s.scSuccess d then some (false, s.atomicAddr d) else none
    else some (false, s.atomicAddr d)
  | .vector m => (P.vector d).lastAccess P d m s
  | _ => none

/-- The state in which the executor of the instruction fetched in `s` starts. -/
def Machine.entry (s : Machine) (P : Platform) (d : Decode) : Machine :=
  (final (fetchDecode P) s).started d

/-- The loads that return before they are recorded. -/
def Decode.Unrecorded (d : Decode) : Prop := (∃ len m, d.id = .load true len m) ∨ d.IsLr

/-- What a query answers after an instruction that led from `s` to `t`. -/
structure QueryExact (P : Platform) (d : Decode) (s t : Machine) : Prop where
  reports : ∀ isLoad va, d.lastAccess P (s.entry P d) = some (isLoad, va) →
    (isaDifftestQueryRef refQueryMemEvent t).map Prod.fst = some ⟨d.pc, true, isLoad, va⟩
  idle : d.lastAccess P (s.entry P d) = none → AfterQuery s →
    (isaDifftestQueryRef refQueryMemEvent t).map (fun r => r.1.memAccess) = some false

/-- A load that returns before it is recorded finds its own record already there, and an unsigned load
into its address register loads the address itself. -/
structure RecordSafe (P : Platform) (d : Decode) (s : Machine) : Prop where
  signed : d.Unrecorded → ∀ va, d.lastAccess P (s.entry P d) = some (true, va) →
    s.memEvent.memAccess = true ∧ s.memEvent.isLoad = true ∧ s.memEvent.vaddr = va
  unsigned : ∀ len m, d.id = .load false len m → d.dest.preg = d.src1.preg → ∀ v u,
    vaddrRead P d.pc (s.readLoc d.src1.preg + d.src2.imm) len m (s.entry P d) = .ok v u →
      v = s.readLoc d.src1.preg

variable {P : Platform} {d : Decode} {s t : Machine}

/-- What of the state a query shows. -/
def Machine.queryView (s : Machine) : MemEvent × Word := (s.memEvent, s.currentPc)

theorem query_blind : DataBlind Machine.queryView where
  fetch h := by
    have h1 := congrArg Machine.queryView h
    exact h1
  loc s l v := by cases l <;> rfl
  vreg _ _ := rfl
  csr _ _ := rfl
  mode _ _ := rfl
  pc _ _ := rfl
  mmu _ := rfl
  rm _ _ := rfl

theorem recordMemEvent_run (hq : P.queryRef = true) (isLoad : Bool) (va : Word) (s : Machine) :
    recordMemEvent P isLoad va s = .ok () { s with memEvent := ⟨s.currentPc, true, isLoad, va⟩ } := by
  change EStateM.Result.ok () _ = EStateM.Result.ok () _
  exact congrArg _ (if_pos hq)

section Executors

theorem rtlSm_event (hq : P.queryRef = true) (h : rtlSm P d data addr off len m s = .ok () t) :
    t.queryView = (⟨s.currentPc, true, false, s.readLoc addr + off⟩, s.currentPc) := by
  obtain ⟨a, _, ha, h1⟩ := ok_of_bind h
  cases ha
  obtain ⟨_, u, hv, h2⟩ := ok_of_bind h1
  cases (recordMemEvent_run hq _ _ u).symm.trans h2
  have hu : u.queryView = s.queryView := (query_blind.of_access (vaddrWrite_access m)).ok hv
  have hpc : u.currentPc = s.currentPc := congrArg Prod.snd hu
  change (⟨u.currentPc, true, false, _⟩, u.currentPc) = ((⟨s.currentPc, _, _, _⟩ : MemEvent), s.currentPc)
  rw [hpc]

/-- The record of an unsigned load, with the address register as it is after the load. -/
theorem rtlLm_event (hq : P.queryRef = true) (h : rtlLm P d dest addr off len m s = .ok () t) :
    ∃ v u, vaddrRead P d.pc (s.readLoc addr + off) len m s = .ok v u ∧
      (∀ l, u.readLoc l = s.readLoc l) ∧
      t.queryView = (⟨s.currentPc, true, true, (u.writeLoc dest v).readLoc addr + off⟩, s.currentPc) := by
  obtain ⟨a, _, ha, h1⟩ := ok_of_bind h
  cases ha
  obtain ⟨v, u, hv, h2⟩ := ok_of_bind h1
  obtain ⟨_, _, hw, h3⟩ := ok_of_bind h2
  cases hw
  obtain ⟨_, _, ha, h4⟩ := ok_of_bind h3
  cases ha
  cases (recordMemEvent_run hq _ _ (u.writeLoc dest v)).symm.trans h4
  have hu : u.queryView = s.queryView := (query_blind.of_access (vaddrRead_access m)).ok hv
  have hpc : (u.writeLoc dest v).currentPc = s.currentPc := by
    have h5 := congrArg Prod.snd ((query_blind.loc u dest v).trans hu)
    exact h5
  refine ⟨v, u, hv, readLoc_of_eraseAccess ((vaddrRead_access m).ok hv), ?_⟩
  change (⟨(u.writeLoc dest v).currentPc, true, true, _⟩, (u.writeLoc dest v).currentPc) =
    ((⟨s.currentPc, _, _, _⟩ : MemEvent), s.currentPc)
  rw [hpc]

theorem exec_unrecorded (hr : d.id.records = false) (s : Machine) :
    (final (exec P d) s).queryView = s.queryView := by
  refine reached_keeps (I := fun t => t.queryView = s.queryView) (exec_reached P d s)
    (fun t u hc ht => ?_) rfl
  obtain h | ⟨-, _, rfl⟩ | ⟨-, rfl⟩ | ⟨h, -⟩ := hc.blind query_blind
  · exact h.trans ht
  · exact ht
  · exact ht
  · rw [hr] at h
    cases h

/-- The record after an executor that started in `s`. -/
inductive Recorded (P : Platform) (d : Decode) (s : Machine) : MemEvent → Prop where
  | made : d.lastAccess P s = some (isLoad, va) → ¬ d.Unrecorded →
      (∀ len m, d.id = .load false len m → d.dest.preg ≠ d.src1.preg) →
      Recorded P d s ⟨s.currentPc, true, isLoad, va⟩
  | missed : d.Unrecorded → d.lastAccess P s = some (true, va) → Recorded P d s s.memEvent
  | idle : d.lastAccess P s = none → Recorded P d s s.memEvent
  | aliased : d.id = .load false len m → d.dest.preg = d.src1.preg →
      vaddrRead P d.pc (s.readLoc d.src1.preg + d.src2.imm) len m s = .ok v u →
      Recorded P d s ⟨s.currentPc, true, true, v + d.src2.imm⟩

/-- The record after an executor, which does not change the place it is made for. -/
def RecordedView (P : Platform) (d : Decode) (s t : Machine) : Prop :=
  Recorded P d s t.memEvent ∧ t.currentPc = s.currentPc

theorem recorded_of_view (hv : t.queryView = (e, s.currentPc)) (h : Recorded P d s e) :
    RecordedView P d s t := by
  obtain ⟨rfl, hpc⟩ := Prod.mk.inj hv
  exact ⟨h, hpc⟩

theorem recorded_idle (ha : d.lastAccess P s = none) (hv : t.queryView = s.queryView) :
    RecordedView P d s t :=
  recorded_of_view hv (.idle ha)

theorem Recorded.plain (ha : d.lastAccess P s = some (isLoad, va)) (hl : ∀ b len m, d.id ≠ .load b len m)
    (hlr : ¬ d.IsLr) : Recorded P d s ⟨s.currentPc, true, isLoad, va⟩ := by
  refine .made ha ?_ fun len m h => absurd h (hl false len m)
  rintro (⟨len, m, h⟩ | h)
  · exact hl true len m h
  · exact hlr h

theorem store_recorded (hq : P.queryRef = true) (hid : d.id = .store len m)
    (h : exec P d s = .ok () t) : RecordedView P d s t := by
  unfold exec at h
  rw [hid] at h
  obtain ⟨v, _, hv, h1⟩ := ok_of_bind h
  cases hv
  refine recorded_of_view (rtlSm_event hq h1) (.plain ?_ (by simp [hid]) fun hl => ?_)
  · unfold Decode.lastAccess
    rw [hid]
  · cases hid.symm.trans hl.id

theorem fstore_recorded (hq : P.queryRef = true) (hid : d.id = .fstore w m)
    (h : exec P d s = .ok () t) : RecordedView P d s t := by
  unfold exec at h
  rw [hid] at h
  obtain ⟨v, _, hv, h1⟩ := ok_of_bind h
  cases hv
  refine recorded_of_view (rtlSm_event hq h1) (.plain ?_ (by simp [hid]) fun hl => ?_)
  · unfold Decode.lastAccess
    rw [hid]
  · cases hid.symm.trans hl.id

theorem fload_recorded (hq : P.queryRef = true) (hid : d.id = .fload w m)
    (hne : d.dest.preg ≠ d.src1.preg) (h : exec P d s = .ok () t) : RecordedView P d s t := by
  unfold exec at h
  rw [hid] at h
  obtain ⟨_, x, hlm, h1⟩ := ok_of_bind h
  obtain ⟨v, u, -, hregs, hx⟩ := rtlLm_event hq hlm
  obtain ⟨v', _, hv', h2⟩ := ok_of_bind h1
  cases hv'
  have ht : t.queryView = x.queryView := by
    obtain ⟨_, _, hw, h3⟩ := ok_of_bind h2
    cases hw
    cases h3
    exact (query_blind.setCsr _ _ _).trans (query_blind.loc _ _ _)
  rw [readLoc_writeLoc_ne u v hne, hregs] at hx
  refine recorded_of_view (ht.trans hx) (.plain ?_ (by simp [hid]) fun hl => ?_)
  · unfold Decode.lastAccess
    rw [hid]
  · cases hid.symm.trans hl.id

theorem load_recorded (hq : P.queryRef = true) (hid : d.id = .load false len m)
    (h : exec P d s = .ok () t) : RecordedView P d s t := by
  unfold exec at h
  rw [hid] at h
  obtain ⟨v, u, hread, hregs, ht⟩ := rtlLm_event hq h
  have haccess : d.lastAccess P s = some (true, s.readLoc d.src1.preg + d.src2.imm) := by
    unfold Decode.lastAccess
    rw [hid]
  by_cases he : d.dest.preg = d.src1.preg
  · rw [he, readLoc_writeLoc_self] at ht
    exact recorded_of_view ht (.aliased hid he hread)
  · rw [readLoc_writeLoc_ne u v he, hregs] at ht
    refine recorded_of_view ht (.made haccess ?_ fun _ _ _ => he)
    rintro (⟨len', m', h'⟩ | h')
    · cases hid.symm.trans h'
    · cases hid.symm.trans h'.id

theorem lr_recorded (hlr : d.IsLr) (h : exec P d s = .ok () t) : RecordedView P d s t := by
  rw [exec_lr hlr] at h
  obtain ⟨u, v, hu, rfl⟩ := lrStep_ok h
  have hv : u.queryView = s.queryView := by
    have h1 := congrArg Machine.queryView hu
    exact h1
  have haccess : d.lastAccess P s = some (true, s.atomicAddr d) := by
    unfold Decode.lastAccess
    rw [hlr.id]
    exact if_pos hlr.op
  exact recorded_of_view ((query_blind.loc u d.dest.preg v).trans hv) (.missed (.inr hlr) haccess)

theorem sc_recorded (hq : P.queryRef = true) (hsc : d.IsSc) (h : exec P d s = .ok () t) :
    RecordedView P d s t := by
  rw [exec_sc hsc] at h
  obtain ⟨_, _, ha, h1⟩ := ok_of_bind h
  cases (scEntry_run P s).symm.trans ha
  obtain ⟨_, _, hget, h2⟩ := ok_of_bind h1
  cases hget
  have hlr := not_lr_of_sc hsc
  have hread : (s.scEntry P).readLoc d.src1.preg = s.atomicAddr d := by
    unfold Machine.atomicAddr
    cases d.src1.preg <;> rfl
  have haccess : d.lastAccess P s = if s.scSuccess d then some (false, s.atomicAddr d) else none := by
    unfold Decode.lastAccess
    rw [hsc.id]
    dsimp only
    rw [if_neg (fun hop => hlr ⟨hsc.id, hop⟩), if_pos hsc.op]
  have hsame : (s.scEntry P).scSuccess d = s.scSuccess d := by
    unfold Machine.scSuccess
    rw [hread]
    rfl
  have hend : ∀ (x y : Machine) (v : Word),
      (writeReg d.dest.preg v >>= fun _ => setScAmo P false) x = .ok () y → y.queryView = x.queryView := by
    intro x y v hxy
    obtain ⟨_, _, hw, h3⟩ := ok_of_bind hxy
    cases hw
    unfold setScAmo at h3
    split at h3
    · cases h3
      exact query_blind.loc x d.dest.preg v
    · cases h3
      exact query_blind.loc x d.dest.preg v
  rw [hsame] at h2
  split at h2
  · next hs =>
    rw [if_pos hs] at haccess
    obtain ⟨_, x, hst, h3⟩ := ok_of_bind h2
    obtain ⟨data, _, hd, h4⟩ := ok_of_bind hst
    cases hd
    obtain ⟨_, y, hsm, h5⟩ := ok_of_bind h4
    cases h5
    have hy := rtlSm_event hq hsm
    rw [hread, show (0 : Word) = 0#64 from rfl, BitVec.add_zero] at hy
    refine recorded_of_view ((hend _ _ _ h3).trans hy) (.plain haccess (by simp [hsc.id]) hlr)
  · next hs =>
    rw [if_neg hs] at haccess
    obtain ⟨_, x, hc, h3⟩ := ok_of_bind h2
    have hx : x.queryView = (s.scEntry P).queryView := (query_blind.of_access scFailCheck_access).ok hc
    exact recorded_idle haccess ((hend _ _ _ h3).trans hx)

theorem amo_recorded (hq : P.queryRef = true) (hid : d.id = .atomic) (hl : ¬ d.IsLr) (hs : ¬ d.IsSc)
    (h : exec P d s = .ok () t) : RecordedView P d s t := by
  unfold exec at h
  rw [hid] at h
  have hop1 : ¬ d.funct5 = 0b00010 := fun hop => hl ⟨hid, hop⟩
  have hop2 : ¬ d.funct5 = 0b00011 := fun hop => hs ⟨hid, hop⟩
  have hamo : rtlAmoSlowPath P d = amoStep P d d.funct5 d.amoWidth :=
    (if_neg hop1).trans (if_neg hop2)
  dsimp only at h
  rw [hamo] at h
  obtain ⟨_, _, hset, h1⟩ := ok_of_bind h
  cases hset
  obtain ⟨x, u, hlms, h2⟩ := ok_of_bind h1
  obtain ⟨y, _, hy, h3⟩ := ok_of_bind h2
  cases hy
  have hu : u.eraseAccess = ({ s with amo := true } : Machine).eraseAccess := rtlLms_access.ok hlms
  have hpc : u.currentPc = s.currentPc := by
    have h4 := congrArg Machine.currentPc hu
    exact h4
  have hread : u.readLoc d.src1.preg = s.atomicAddr d := by
    rw [readLoc_of_eraseAccess hu]
    unfold Machine.atomicAddr
    cases d.src1.preg <;> rfl
  cases hval : amoValue d.funct5 d.amoWidth x (u.readLoc d.src2.preg) with
  | none =>
    rw [hval] at h3
    cases h3
  | some v =>
    rw [hval] at h3
    obtain ⟨_, z, hsm, h4⟩ := ok_of_bind h3
    obtain ⟨_, _, hw, h5⟩ := ok_of_bind h4
    cases hw
    cases h5
    have hz := rtlSm_event hq hsm
    rw [hread, hpc, show (0 : Word) = 0#64 from rfl, BitVec.add_zero] at hz
    refine recorded_of_view ((query_blind.loc z d.dest.preg x).trans hz) (.plain ?_ (by simp [hid]) hl)
    unfold Decode.lastAccess
    rw [hid]
    exact (if_neg hop1).trans (if_neg hop2)

/-- What a query shows after an access, if there was one. -/
def Machine.eventAfter (s : Machine) : Option (Bool × Word) → MemEvent × Word
  | some (isLoad, va) => (⟨s.currentPc, true, isLoad, va⟩, s.currentPc)
  | none => s.queryView

theorem eventAfter_congr (h : t.queryView = s.queryView) (a : Option (Bool × Word)) :
    t.eventAfter a = s.eventAfter a := by
  cases a with
  | none => exact h
  | some x =>
    have hpc : t.currentPc = s.currentPc := congrArg Prod.snd h
    unfold Machine.eventAfter
    rw [hpc]

theorem eventAfter_record {u : Machine} (hv : u.queryView = s.queryView) (isLoad : Bool) (va : Word)
    (rest : Option (Bool × Word)) :
    ({ u with memEvent := ⟨u.currentPc, true, isLoad, va⟩ } : Machine).eventAfter rest =
      s.eventAfter (rest.or (some (isLoad, va))) := by
  have hpc : u.currentPc = s.currentPc := congrArg Prod.snd hv
  cases rest with
  | none =>
    change ((⟨u.currentPc, true, isLoad, va⟩ : MemEvent), u.currentPc) = _
    rw [hpc]
    rfl
  | some x =>
    change ((⟨u.currentPc, true, x.1, x.2⟩ : MemEvent), u.currentPc) = _
    rw [hpc]
    rfl

theorem execInv_stops : execInv P d s ≠ .ok () t := by
  intro h
  unfold execInv at h
  split at h
  · obtain ⟨_, _, -, h1⟩ := ok_of_bind h
    obtain ⟨_, _, -, h2⟩ := ok_of_bind h1
    cases h2
  · cases h

theorem runVector_event (hq : P.queryRef = true) (k : VProg) (h : runVector P d m k s = .ok () t) :
    t.queryView = s.eventAfter (k.lastAccess P d m s) := by
  induction k generalizing s with
  | done =>
    cases h
    rfl
  | inv =>
    exact absurd h execInv_stops
  | stuck => cases h
  | get k ih => exact ih s h
  | setVr r v k ih =>
    obtain ⟨_, _, hm, h1⟩ := ok_of_bind h
    cases hm
    exact (ih h1).trans (eventAfter_congr rfl _)
  | setGpr r v k ih =>
    obtain ⟨_, _, hm, h1⟩ := ok_of_bind h
    cases hm
    refine (ih h1).trans (eventAfter_congr ?_ _)
    split
    · exact query_blind.loc s _ v
    · rfl
  | setCsr c v k ih =>
    obtain ⟨_, _, hm, h1⟩ := ok_of_bind h
    cases hm
    exact (ih h1).trans (eventAfter_congr (query_blind.setCsr s _ v) _)
  | load a len k ih =>
    obtain ⟨v, u, hv, h1⟩ := ok_of_bind h
    obtain ⟨_, _, hrec, h2⟩ := ok_of_bind h1
    cases (recordMemEvent_run hq _ _ u).symm.trans hrec
    have hu : u.queryView = s.queryView := (query_blind.of_access (vaddrRead_access m)).ok hv
    refine (ih v h2).trans ((eventAfter_record hu true a _).trans ?_)
    rw [VProg.lastAccess, hv]
    dsimp only
    rw [final_ok hrec]
  | store a len data k ih =>
    obtain ⟨_, u, hv, h1⟩ := ok_of_bind h
    obtain ⟨_, _, hrec, h2⟩ := ok_of_bind h1
    cases (recordMemEvent_run hq _ _ u).symm.trans hrec
    have hu : u.queryView = s.queryView := (query_blind.of_access (vaddrWrite_access m)).ok hv
    refine (ih h2).trans ((eventAfter_record hu false a _).trans ?_)
    rw [VProg.lastAccess, hv]
    dsimp only
    rw [final_ok hrec]

theorem vector_recorded (hq : P.queryRef = true) (hid : d.id = .vector m)
    (h : exec P d s = .ok () t) : RecordedView P d s t := by
  unfold exec at h
  rw [hid] at h
  have ht := runVector_event hq (P.vector d) h
  have haccess : d.lastAccess P s = (P.vector d).lastAccess P d m s := by
    unfold Decode.lastAccess
    rw [hid]
  rw [← haccess] at ht
  cases ha : d.lastAccess P s with
  | none =>
    rw [ha] at ht
    exact recorded_idle ha ht
  | some x =>
    rw [ha] at ht
    refine recorded_of_view ht (.plain ha (by simp [hid]) fun hl => ?_)
    cases hid.symm.trans hl.id

theorem other_recorded (hr : d.id.records = false) (hl : ∀ len m, d.id ≠ .load true len m)
    (h : exec P d s = .ok () t) : RecordedView P d s t := by
  have ht := exec_unrecorded (P := P) hr s
  rw [final_ok h] at ht
  refine recorded_idle ?_ ht
  unfold Decode.lastAccess
  cases hid : d.id with
  | load signed len m =>
    cases signed with
    | true => exact absurd hid (hl len m)
    | false =>
      rw [hid] at hr
      cases hr
  | fload _ _ | store _ _ | fstore _ _ | atomic | vector _ =>
    rw [hid] at hr
    cases hr
  | _ => rfl

theorem exec_recorded (hq : P.queryRef = true) (hd : Formed f d) (h : exec P d s = .ok () t) :
    RecordedView P d s t := by
  cases hid : d.id with
  | load signed len m =>
    cases signed with
    | true =>
      have ht := exec_unrecorded (P := P) (d := d) (by rw [hid]; rfl) s
      rw [final_ok h] at ht
      have haccess : d.lastAccess P s = some (true, s.readLoc d.src1.preg + d.src2.imm) := by
        unfold Decode.lastAccess
        rw [hid]
      exact recorded_of_view ht (.missed (.inl ⟨len, m, hid⟩) haccess)
    | false => exact load_recorded hq hid h
  | store len m => exact store_recorded hq hid h
  | fload w m => exact fload_recorded hq hid (hd.fload w m hid) h
  | fstore w m => exact fstore_recorded hq hid h
  | vector m => exact vector_recorded hq hid h
  | atomic =>
    by_cases hl : d.IsLr
    · exact lr_recorded hl h
    by_cases hs : d.IsSc
    · exact sc_recorded hq hs h
    · exact amo_recorded hq hid hl hs h
  | _ => exact other_recorded (by rw [hid]; rfl) (fun _ _ => by rw [hid]; exact ExecId.noConfusion) h

end Executors

theorem query_run (s : Machine) : isaDifftestQueryRef refQueryMemEvent s =
    some ({ s.memEvent with pc := s.currentPc }, { s with memEvent := ⟨0, false, false, 0⟩ }) :=
  if_pos rfl

theorem afterQuery_memAccess (h : AfterQuery s) : s.memEvent.memAccess = false := by
  obtain ⟨s₀, r, hs⟩ := h
  rw [query_run] at hs
  cases hs
  rfl

/-- What a query answers, given the record. -/
theorem queryExact_iff (ht : t.currentPc = d.pc) :
    QueryExact P d s t ↔
      (∀ isLoad va, d.lastAccess P (s.entry P d) = some (isLoad, va) →
        t.memEvent.memAccess = true ∧ t.memEvent.isLoad = isLoad ∧ t.memEvent.vaddr = va) ∧
      (d.lastAccess P (s.entry P d) = none → AfterQuery s → t.memEvent.memAccess = false) := by
  have hone : ∀ e : MemEvent, ∀ isLoad va, (some { e with pc := d.pc } = some ⟨d.pc, true, isLoad, va⟩) ↔
      e.memAccess = true ∧ e.isLoad = isLoad ∧ e.vaddr = va := by
    rintro ⟨pc, memAccess, isLoad, vaddr⟩ isLoad' va
    simp
  constructor
  · rintro ⟨hrep, hidle⟩
    rw [query_run, ht] at hrep hidle
    refine ⟨fun isLoad va ha => (hone _ _ _).mp (hrep isLoad va ha), fun ha hs => ?_⟩
    exact Option.some.inj (hidle ha hs)
  · rintro ⟨hrep, hidle⟩
    refine ⟨fun isLoad va ha => ?_, fun ha hs => ?_⟩
    · rw [query_run, ht]
      exact (hone _ _ _).mpr (hrep isLoad va ha)
    · rw [query_run]
      exact congrArg some (hidle ha hs)

theorem eq_of_add_offset {a b off : Word} (h : a + off = b + off) : a = b :=
  (BitVec.add_left_inj off).mp h

/-- A query after an instruction reports its last access, or none, exactly when a load that is not
recorded finds its record already made and one into its own address register loads the address. -/
theorem query_reports_iff (hq : P.queryRef = true) (h : executeStep P s = .ok d t) :
    QueryExact P d s t ↔ RecordSafe P d s := by
  obtain ⟨u, v, hf, he, rfl⟩ := executeStep_ok h
  obtain ⟨f, -, hform⟩ := fetchDecode_formed hf
  have hentry : s.entry P d = u.started d := by
    unfold Machine.entry
    rw [final_ok hf]
  have hkeep : u.eraseFetch = s.eraseFetch := fetchDecode_frame.ok hf
  have hevent : (u.started d).memEvent = s.memEvent := by
    have h1 := congrArg Machine.memEvent hkeep
    exact h1
  have hread : ∀ l, (u.started d).readLoc l = s.readLoc l := by
    intro l
    have h1 := (fetch_reservation hf).2 l
    cases l <;> exact h1
  obtain ⟨hrec, hpc⟩ := exec_recorded hq hform he
  have htick := query_blind.ticked P v
  have hmem : (v.ticked P).memEvent = v.memEvent := congrArg Prod.fst htick
  have hcur : (v.ticked P).currentPc = d.pc := (congrArg Prod.snd htick).trans hpc
  rw [queryExact_iff hcur, hmem, hentry]
  generalize v.memEvent = e at hrec ⊢
  constructor
  · rintro ⟨hrep, -⟩
    refine ⟨fun hun va ha => ?_, fun len m hid heq w x hw => ?_⟩
    · rw [hentry] at ha
      have h1 := hrep true va ha
      cases hrec with
      | made _ hno _ => exact absurd hun hno
      | missed _ _ =>
        rw [hevent] at h1
        exact h1
      | idle hnone => cases hnone.symm.trans ha
      | aliased hid _ _ =>
        obtain ⟨_, _, h'⟩ | h' := hun
        · cases hid.symm.trans h'
        · cases hid.symm.trans h'.id
    · have haccess : d.lastAccess P (u.started d) =
          some (true, (u.started d).readLoc d.src1.preg + d.src2.imm) := by
        unfold Decode.lastAccess
        rw [hid]
      have h1 := hrep _ _ haccess
      rw [hread] at haccess
      rw [hentry] at hw
      cases hrec with
      | made _ _ hne => exact absurd heq (hne len m hid)
      | missed hun _ =>
        obtain ⟨_, _, h'⟩ | h' := hun
        · cases hid.symm.trans h'
        · cases hid.symm.trans h'.id
      | idle hnone => cases hnone.symm.trans haccess
      | aliased hid' _ hv =>
        cases hid.symm.trans hid'
        rw [hread] at hv h1
        cases hv.symm.trans hw
        exact eq_of_add_offset h1.2.2
  · rintro ⟨hsigned, hunsigned⟩
    refine ⟨fun isLoad va ha => ?_, fun hnone hs => ?_⟩
    · cases hrec with
      | made ha' _ _ =>
        cases ha'.symm.trans ha
        exact ⟨rfl, rfl, rfl⟩
      | missed hun ha' =>
        cases ha'.symm.trans ha
        rw [hevent]
        exact hsigned hun va (hentry ▸ ha')
      | idle hnone => cases hnone.symm.trans ha
      | aliased hid heq hv =>
        have haccess : d.lastAccess P (u.started d) =
            some (true, (u.started d).readLoc d.src1.preg + d.src2.imm) := by
          unfold Decode.lastAccess
          rw [hid]
        cases haccess.symm.trans ha
        rw [hread] at hv ⊢
        have h1 := hunsigned _ _ hid heq _ _ (hentry ▸ hv)
        rw [h1]
        exact ⟨rfl, rfl, rfl⟩
    · have hoff := afterQuery_memAccess hs
      cases hrec with
      | made ha _ _ => cases hnone.symm.trans ha
      | missed _ ha => cases hnone.symm.trans ha
      | idle _ =>
        rw [hevent]
        exact hoff
      | aliased hid _ _ =>
        unfold Decode.lastAccess at hnone
        rw [hid] at hnone
        cases hnone

/-- The reference with one instruction to execute and its own address in `a0`. -/
def querySetup (instr : BitVec 32) : Machine :=
  (booted (.bare .reference) [instr]).writeLoc (.gpr 10) 0x80100000

/-- `lwu a1, 0(a0)`. -/
theorem query_reports_lwu : ∃ d t, executeStep (.bare .reference) (querySetup 0x00056583) = .ok d t ∧
    QueryExact (.bare .reference) d (querySetup 0x00056583) t := by
  refine ⟨_, _, rfl, (query_reports_iff rfl rfl).mpr ⟨?_, ?_⟩⟩
  · rintro (⟨_, _, h⟩ | h)
    · cases h
    · cases h.id
  · intro _ _ _ h
    exact absurd h (by decide)

/-- `lw a1, 0(a0)` is not reported, and `lwu a0, 0(a0)` with the loaded value as its address. -/
theorem query_misses_load :
    (∃ d t, executeStep (.bare .reference) (querySetup 0x00052583) = .ok d t ∧
      ¬ QueryExact (.bare .reference) d (querySetup 0x00052583) t) ∧
    ∃ d t, executeStep (.bare .reference) (querySetup 0x00056503) = .ok d t ∧
      ¬ QueryExact (.bare .reference) d (querySetup 0x00056503) t := by
  refine ⟨⟨_, _, rfl, fun h => ?_⟩, ⟨_, _, rfl, fun h => ?_⟩⟩
  · have h1 := congrArg (Option.map MemEvent.memAccess) (h.reports true 0x80100000 rfl)
    exact absurd (Option.some.inj h1) (by decide)
  · have h1 := congrArg (Option.map MemEvent.vaddr) (h.reports true 0x80100000 rfl)
    exact absurd (Option.some.inj h1) (by decide)

end Nemu
