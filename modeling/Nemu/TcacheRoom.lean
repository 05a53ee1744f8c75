import Nemu.TcacheRecords

namespace Nemu

set_option autoImplicit true

/-- Neither of the assertions `s != NULL` of `tcache_bb_new` and `next == s + 1` of
`tcache_decode` fails. -/
def Asserted (x : Except TcacheAbort α) : Prop :=
  x ≠ .error .noRecord ∧ x ≠ .error .notNext

namespace Asserted

variable {α β : Type} {x : Except TcacheAbort α} {k : α → Except TcacheAbort β}

theorem ok (a : α) : Asserted (.ok a : Except TcacheAbort α) :=
  ⟨(fun h => by cases h), (fun h => by cases h)⟩

theorem other (h1 : a ≠ .noRecord) (h2 : a ≠ .notNext) :
    Asserted (.error a : Except TcacheAbort α) :=
  ⟨(fun h => h1 (by cases h; rfl)), (fun h => h2 (by cases h; rfl))⟩

theorem bind (h : Asserted x) (hk : ∀ a, x = .ok a → Asserted (k a)) : Asserted (x >>= k) := by
  cases x with
  | ok a => exact hk a rfl
  | error e =>
    exact other (fun he => h.1 (he ▸ rfl)) (fun he => h.2 (he ▸ rfl))

end Asserted

section Operations

variable {δ : Type} {c : TraceConfig} {t : Tcache δ} {l : List Nat}

theorem asserted_deref (t : Tcache δ) (p : Ptr) : Asserted (t.deref p) := by
  cases p with
  | null => exact .other (by simp) (by simp)
  | wild => exact .other (by simp) (by simp)
  | _ => exact .ok _

theorem asserted_bbCheck (c : TraceConfig) (p : Ptr) : Asserted (tcacheBbCheck c p) := by
  unfold tcacheBbCheck
  split
  · split
    · split
      · exact .ok _
      · exact .other (by simp) (by simp)
    · exact .other (by simp) (by simp)
  · exact .ok _

theorem asserted_bbNewCheck (s : Entry δ) (t : Tcache δ) : Asserted (tcacheBbNewCheck c s t) := by
  apply (asserted_bbCheck c _).bind
  intro _ _
  apply (asserted_bbCheck c _).bind
  intro _ _
  split
  · exact (asserted_deref t _).bind fun _ _ => asserted_bbCheck c _
  · exact .ok _

theorem Tidy.freelist_ne (h : Tidy c t l) (hl : 0 < l.length) : t.freelist ≠ .null := by
  intro hnull
  rw [h.free.eq_nil hnull (by simp)] at hl
  cases hl

theorem asserted_bbNew (h : t.freelist ≠ .null) : Asserted (tcacheBbNew c pc t) := by
  unfold tcacheBbNew
  rw [if_neg h]
  apply (asserted_deref t _).bind
  intro _ _
  exact (asserted_bbNewCheck _ t).bind fun _ _ => .ok _

theorem asserted_bbFetch (h : t.freelist ≠ .null) : Asserted (tcacheBbFetch c p b jpc t) := by
  unfold tcacheBbFetch
  cases hfind : bbFind c jpc t with
  | mk o t' =>
    cases o with
    | some q => exact .ok _
    | none =>
      obtain ⟨he, _⟩ := bbFind_spec hfind
      have hfree : t'.freelist ≠ .null := by
        rw [he]
        exact h
      exact (asserted_bbNew hfree).bind fun _ _ => .ok _

theorem asserted_patchAndFree (p q : Ptr) (t : Tcache δ) :
    Asserted (tcachePatchAndFree c p q t) := by
  apply (asserted_deref t p).bind
  intro x _
  apply (asserted_bbCheck c p).bind
  intro _ _
  exact (asserted_bbCheck c _).bind fun _ _ => .ok _

theorem asserted_handleException (h : Tidy c t l) (hl : 0 < l.length) :
    Asserted (tcacheHandleException c jpc t) :=
  (asserted_bbFetch (h.freelist_ne hl)).bind fun _ _ => .ok _

theorem asserted_flushed (pc : Word) (t : Tcache δ) : Asserted (tcacheHandleFlush c pc t) := by
  have hflush : (tcacheFlush c t).freelist ≠ .null := by simp [tcacheFlush]
  exact (asserted_bbFetch hflush).bind fun _ _ => .ok _

theorem asserted_full (t : Tcache δ) : Asserted (tcacheFull c pc t) := by
  have hflush : (tcacheFlush c t).freelist ≠ .null := by simp [tcacheFlush]
  exact (asserted_bbNew hflush).bind fun _ _ => .ok _

/-- The links of a branch may take two records. -/
theorem asserted_link (h : Tidy c t l) (hi : t.code i = some (pc, d)) (hN : d.type ≠ .N)
    (hl : 1 < l.length) : Asserted (tcacheLink c (.pool i) d t) := by
  unfold tcacheLink
  cases hty : d.type with
  | N => exact absurd hty hN
  | J => exact asserted_bbFetch (h.freelist_ne (by omega))
  | B =>
    apply (asserted_bbFetch (h.freelist_ne (by omega))).bind
    intro t' ht'
    obtain ⟨q, l', _, h', _, hcase⟩ := h.fetch_pool ht' hi hN (by simp [Wanted, hty]) (by simp)
    apply asserted_bbFetch (h'.freelist_ne _)
    obtain ⟨rfl, _⟩ | ⟨r, rfl, _⟩ := hcase
    · omega
    · simpa using hl
  | I => exact .ok _

end Operations

namespace Engine

variable {δ : Type} {c : TraceConfig} {t : Tcache δ} {e e₀ : Engine δ} {l : List Nat}

theorem asserted_endOfBb (h : Tidy c t l) (hb : t.bbNow = .pool b) (hr : t.bbNowRecord = .record r)
    (hlive : Live c l r) (hpc : (t.pool b).pc = (t.records r).pc)
    (hdone : Done t.code b (t.records r).pc) (hi : t.code i = some (a, d)) (hN : d.type ≠ .N)
    (hl : 0 < l.length) : Asserted (tcacheEndOfBb c (.pool i) d pc t) := by
  unfold tcacheEndOfBb
  rw [hb]
  apply (asserted_deref t _).bind
  intro now hnow
  cases hnow
  cases hins : bbInsert c (t.pool b).pc (.pool b) t with
  | none => exact asserted_full t
  | some t₁ =>
    obtain ⟨h₁, ht₁⟩ := h.insert (s := .pool b) (hpc ▸ hdone) hins
    have hb₁ : t₁.bbNow = .pool b := by rw [ht₁, hb]
    have hr₁ : t₁.bbNowRecord = .record r := by rw [ht₁, hr]
    have hcode₁ : t₁.code = t.code := by
      rw [ht₁]
      rfl
    have hlead : Leads t₁.code (t₁.records r).pc (.pool b) := by
      have hrec₁ : t₁.records = t.records := by rw [ht₁]
      rw [hcode₁, hrec₁]
      exact hdone
    dsimp only
    rw [hb₁, hr₁]
    apply (asserted_patchAndFree _ _ t₁).bind
    intro t₂ hfree
    obtain ⟨h₂, hs₂⟩ := h₁.patchAndFree hlive hlead hfree
    have h₂' : Tidy c { t₂ with bbNow := .null, bbNowRecord := .null } (r :: l) :=
      h₂.of_eq rfl rfl rfl rfl rfl
    have hi₂ : Tcache.code { t₂ with bbNow := .null, bbNowRecord := .null } i = some (a, d) := by
      rw [← hi, ← hcode₁, ← hs₂.code]
      rfl
    apply (asserted_link h₂' hi₂ hN _).bind
    · exact fun _ _ => .ok _
    · simpa using hl

theorem asserted_decodeAt (h : Tidy c t l) (hc : Construction c t l b r i pc)
    (hl : 0 < l.length) : Asserted (tcacheDecodeAt c f (.pool i) pc' t) := by
  have hi : i < t.tcIdx := by
    rw [hc.tcIdx]
    exact Nat.lt_succ_self i
  cases f with
  | fault jpc =>
    have h' : Tidy c { t with abandoned := t.abandoned + 1 } l := h.of_eq rfl rfl rfl rfl rfl
    exact asserted_handleException h' hl
  | ok d =>
    have h₁ := h.filled hi hc.place d
    rw [decodeAt_ok]
    split
    · cases hnew : tcacheNew c d.snpc (filled i d t) with
      | none => exact asserted_full _
      | some x =>
        obtain ⟨next, t₂⟩ := x
        obtain ⟨rfl, rfl⟩ := tcacheNew_eq hnew
        have hnext : Ptr.pool (filled i d t).tcIdx = .pool (i + 1) := congrArg Ptr.pool hc.tcIdx
        dsimp only
        rw [if_pos hnext]
        exact .ok _
    · next hN =>
      obtain ⟨hstart, hdone, hi₁⟩ := hc.finish hN
      exact asserted_endOfBb h₁ hc.bbNow hc.bbNowRecord hc.live hstart hdone hi₁ hN hl

theorem asserted_decode (h : Sound c e l) (hx : e.tc.deref e.cur = .ok x) (hbody : x.body = none)
    (hl : 0 < l.length) : Asserted (tcacheDecode c f e.cur e.tc) := by
  unfold tcacheDecode
  apply (asserted_deref _ _).bind
  intro y hy
  rw [hx] at hy
  cases hy
  obtain ⟨h, hplaced, _⟩ := h
  unfold Placed at hplaced
  cases hst : e.tc.state with
  | building =>
    rw [hst] at hplaced
    obtain ⟨b, r, i, pc, hc, ⟨_, hcur⟩ | ⟨_, j, a, d, rfl, hcur, hj, _⟩⟩ := hplaced
    · rw [hcur]
      exact asserted_decodeAt h hc hl
    · rw [hcur] at hx
      cases hx
      rw [(Tcache.body_of_code hj).2] at hbody
      cases hbody
  | running =>
    rw [hst] at hplaced
    unfold Resting at hplaced
    cases hfind : bbFind c x.pc e.tc with
    | mk o t₁ =>
      obtain ⟨h₁, hs₁, hrec₁, _, _⟩ := h.find hfind
      cases o with
      | some bb => exact (asserted_patchAndFree _ _ t₁).bind fun _ _ => .ok _
      | none =>
        dsimp only
        cases hnew : tcacheNew c x.pc t₁ with
        | none => exact asserted_full _
        | some y =>
          obtain ⟨n, t₂⟩ := y
          obtain ⟨rfl, rfl⟩ := tcacheNew_eq hnew
          cases hcur : e.cur with
          | record r =>
            rw [hcur] at hplaced hx
            cases hx
            have h₂ : Tidy c { grown (e.tc.records r).pc t₁ with
                bbNow := .pool t₁.tcIdx, bbNowRecord := .record r, state := .building } l :=
              (h₁.grown _).of_eq rfl rfl rfl rfl rfl
            exact asserted_decodeAt h₂ (hrec₁ ▸ Construction.begin hplaced.1 _) hl
          | pool i =>
            rw [hcur] at hplaced hx
            cases hx
            obtain ⟨pc, hdone⟩ := hplaced
            obtain ⟨d, hd⟩ := hdone.exists_code
            rw [(Tcache.body_of_code hd).2] at hbody
            cases hbody
          | ex =>
            rw [hcur] at hplaced
            exact hplaced.elim
          | _ =>
            rw [hcur] at hx
            cases hx

theorem asserted_privJr (h : Sound c e l) (hl : 0 < l.length) (hcur : e.cur = .pool i) :
    Asserted (e.privJr c target flush) := by
  have hjr : Asserted (jrFetch c (.pool i) target e.tc) := by
    apply (asserted_deref _ _).bind
    intro x _
    apply (asserted_deref _ _).bind
    intro y _
    split
    · exact .ok _
    · apply (asserted_deref _ _).bind
      intro z _
      split
      · exact .ok _
      · have hfree : (e.tc.update (.pool i) fun x => { x with ntnext := x.tnext }).freelist ≠ .null :=
          h.tidy.freelist_ne hl
        apply (asserted_bbFetch hfree).bind
        intro t' _
        exact (asserted_deref t' _).bind fun _ _ => .ok _
  unfold privJr
  rw [hcur]
  apply hjr.bind
  rintro ⟨t, s⟩ _
  dsimp only
  split
  · apply (asserted_deref t s).bind
    intro x _
    exact asserted_flushed x.pc t
  · exact .ok _

theorem asserted_stepBody (h : Sound c e l) (hl : 0 < l.length) (hx : e.tc.deref e.cur = .ok x)
    (hbody : x.body = some d) (ev : TraceEvent δ) : Asserted (e.stepBody c x d ev) := by
  have hstuck : Asserted (.error .stuck : Except TcacheAbort (Engine δ)) :=
    .other (by simp) (by simp)
  obtain ⟨i, hcur, _⟩ := h.at_body hx hbody
  cases ev with
  | trap jpc => exact hstuck
  | decode f => exact hstuck
  | flush =>
    simp only [stepBody]
    split
    · exact asserted_flushed d.snpc e.tc
    · exact hstuck
  | indirect target flush =>
    simp only [stepBody]
    split
    · exact asserted_privJr h hl hcur
    · exact hstuck
  | _ =>
    simp only [stepBody]
    split
    · exact .ok _
    · exact hstuck

/-- The blocks built and the records abandoned since the last flush leave two records over. -/
def Roomy (c : TraceConfig) (e : Engine δ) : Prop :=
  e.tc.built + e.tc.abandoned ≤ c.tcacheSize / 4

theorem Sound.asserted_step (h : Sound c e l) (hroom : Roomy c e) (ev : TraceEvent δ) :
    Asserted (e.step c ev) := by
  have hl : 0 < l.length := by
    have hsize := h.room
    have hle := e.inHand_le
    unfold TraceConfig.bbSize at hsize
    unfold Roomy at hroom
    omega
  apply (asserted_deref _ _).bind
  intro x hx
  have hstuck : Asserted (.error .stuck : Except TcacheAbort (Engine δ)) :=
    .other (by simp) (by simp)
  cases ev with
  | trap jpc =>
    dsimp only
    split
    · have h' : Tidy c
          { e.tc with abandoned := e.tc.abandoned + if e.unfinished then 1 else 0 } l :=
        h.tidy.of_eq rfl rfl rfl rfl rfl
      exact asserted_handleException h' hl
    · exact hstuck
  | decode f =>
    dsimp only
    split
    · next hbody => exact asserted_decode h hx hbody hl
    · exact hstuck
  | _ =>
    dsimp only
    split
    · exact hstuck
    · next hbody => exact asserted_stepBody h hl hx hbody _

/-- The assertions hold in every run that moves no unresolved record, as long as the blocks built
and the records abandoned are few enough. -/
theorem pools_never_dry (h0 : (init c resetVector : Except TcacheAbort (Engine δ)) = .ok e₀)
    (h : Run (Step c) e₀ tr e) (hgood : ∀ x ∈ tr, ¬ x.source.shifts x.label) (hroom : Roomy c e)
    (ev : TraceEvent δ) :
    e.step c ev ≠ .error .noRecord ∧ e.step c ev ≠ .error .notNext := by
  obtain ⟨l, hl⟩ := sound_run h0 h hgood
  exact hl.asserted_step hroom ev

/-- After an indirect jump to a block that is not built yet, whose fetch then fails. -/
theorem pools_never_dry_jump : ∃ (e₀ e : Engine Unit) (tr : _),
    init .standard 0x80100000 = .ok e₀ ∧ Run (Step .standard) e₀ tr e ∧ tr.length = 2 ∧
      Roomy .standard e ∧ e.step .standard (.decode (.fault 0x10)) ≠ .error .noRecord ∧
      e.step .standard (.decode (.fault 0x10)) ≠ .error .notNext := by
  have hplay : ∃ e₀ e₁ e₂ : Engine Unit, init .standard 0x80100000 = .ok e₀ ∧
      Step .standard e₀ (jrAt 0x80100000) e₁ ∧
      Step .standard e₁ (.indirect 0x80100040 false) e₂ ∧ e₁.cur = .pool 0 ∧
      (e₁.tc.pool 0).tnext = .pool 0 ∧ e₂.tc.built = 1 ∧ e₂.tc.abandoned = 0 :=
    ⟨_, _, _, rfl, rfl, rfl, rfl, rfl, rfl, rfl⟩
  obtain ⟨e₀, e₁, e₂, h0, h1, h2, hcur, hlink, hbuilt, habandoned⟩ := hplay
  have hrun := Run.cons h1 (.cons h2 .nil)
  have hroom : Roomy .standard e₂ := by
    unfold Roomy
    rw [hbuilt, habandoned]
    decide
  refine ⟨e₀, e₂, _, h0, hrun, rfl, hroom, pools_never_dry h0 hrun ?_ hroom _⟩
  rintro x hx
  obtain rfl | hx := List.mem_cons.mp hx
  · exact id
  · obtain rfl := List.mem_singleton.mp hx
    rintro ⟨i, r, _, hi, hr, _⟩
    cases hcur.symm.trans hi
    cases hlink.symm.trans hr

section FaultLoop

variable {pc : Word} {k : Nat}

theorem handleException_ok (hfind : bbFind c pc t = (none, t)) (hrt : c.rtCheck = false)
    (hfree : t.freelist = .record r) :
    tcacheHandleException c pc t = .ok ⟨{ t with
      freelist := (t.records r).tnext
      records := Function.update t.records r (newRecord .ex true pc)
      ex := setLink true (.record r) t.ex
      state := .running }, .record r, false⟩ := by
  have hcheck : ∀ p, tcacheBbCheck c p = .ok () := by
    intro p
    simp only [tcacheBbCheck, hrt, Bool.false_eq_true, ↓reduceIte]
  have hnew : tcacheBbNew c pc t = .ok (.record r, { t with
      freelist := (t.records r).tnext
      records := Function.update t.records r (tcacheEntryInit pc) }) := by
    simp only [tcacheBbNew, hfree, Tcache.deref, tcacheBbNewCheck, hcheck, hrt, Tcache.update]
    rfl
  unfold tcacheHandleException tcacheBbFetch
  rw [hfind]
  dsimp only
  rw [hnew]
  change Except.ok _ = Except.ok _
  simp only [Tcache.update, Function.update_self, Function.update_idem]
  rfl

theorem handleException_dry (hfind : bbFind c pc t = (none, t)) (hfree : t.freelist = .null) :
    tcacheHandleException c pc t = .error .noRecord := by
  unfold tcacheHandleException tcacheBbFetch tcacheBbNew
  rw [hfind]
  dsimp only
  rw [if_pos hfree]
  rfl

/-- Execution is at record `k`, whose address is that of the trap handler, and the records before
it are gone. -/
structure Faulting (c : TraceConfig) (pc : Word) (k : Nat) (e : Engine δ) : Prop where
  cur : e.cur = .record k
  state : e.tc.state = .running
  address : (e.tc.records k).pc = pc
  body : (e.tc.records k).body = none
  freelist : e.tc.freelist = if k + 1 < c.bbSize then .record (k + 1) else .null
  rest : ∀ i, k < i →
    (e.tc.records i).tnext = if i + 1 < c.bbSize then .record (i + 1) else .null
  bucket : e.tc.bbList (bbHash c pc) = []
  room : e.tc.tcIdx + c.bbSize ≤ c.tcacheSize + k

/-- A block begun for record `k` and given up at once. -/
def given (k : Nat) (pc : Word) (t : Tcache δ) : Tcache δ :=
  { t with
    pool := Function.update t.pool t.tcIdx (tcacheEntryInit pc)
    tcIdx := t.tcIdx + 1
    bbNow := .pool t.tcIdx
    bbNowRecord := .record k
    state := .building
    abandoned := t.abandoned + 1 }

theorem bbFind_empty (h : t.bbList (bbHash c pc) = []) (hpc : pc ≠ -1) :
    bbFind c pc t = (none, t) := by
  simp only [bbFind, h, if_neg hpc]

/-- Nothing is built when the handler cannot be fetched: one more record is asked for. -/
theorem Faulting.step_eq (h : Faulting c pc k e) (hpc : pc ≠ -1) (hk : k < c.bbSize) :
    e.step c (.decode (.fault pc)) = tcacheHandleException c pc (given k pc e.tc) := by
  have hfind := bbFind_empty h.bucket hpc
  have hnew : tcacheNew c pc e.tc = some (.pool e.tc.tcIdx, grown pc e.tc) := by
    have hroom := h.room
    have hne : e.tc.tcIdx ≠ c.tcacheSize := by omega
    simp only [tcacheNew, if_neg hne, grown]
  have hderef : e.tc.deref e.cur = .ok (e.tc.records k) := by
    rw [h.cur]
    rfl
  have hdecode : tcacheDecode c (.fault pc) e.cur e.tc =
      tcacheHandleException c pc (given k pc e.tc) := by
    unfold tcacheDecode
    rw [hderef]
    simp only [h.state, h.cur, bind, Except.bind]
    rw [h.address, hfind]
    dsimp only
    rw [hnew]
    rfl
  unfold Engine.step
  rw [hderef]
  dsimp only [bind, Except.bind]
  rw [h.body]
  exact hdecode

theorem Faulting.step (h : Faulting c pc k e) (hpc : pc ≠ -1) (hrt : c.rtCheck = false)
    (hk : k + 1 < c.bbSize) :
    ∃ e', e.step c (.decode (.fault pc)) = .ok e' ∧ Faulting c pc (k + 1) e' := by
  have hfind : bbFind c pc (given k pc e.tc) = (none, given k pc e.tc) :=
    bbFind_empty h.bucket hpc
  have hfree : (given k pc e.tc).freelist = .record (k + 1) := h.freelist.trans (if_pos hk)
  rw [h.step_eq hpc (by omega), handleException_ok hfind hrt hfree]
  refine ⟨_, rfl, rfl, rfl, ?_, ?_, h.rest (k + 1) (Nat.lt_succ_self k), ?_, h.bucket, ?_⟩
  · simp only [Function.update_self, newRecord, tcacheEntryInit]
  · simp only [Function.update_self, newRecord, tcacheEntryInit]
  · intro i hi
    have hne : i ≠ k + 1 := by omega
    simp only [Function.update_of_ne hne]
    exact h.rest i (by omega)
  · have hroom := h.room
    simp only [given]
    omega

theorem Faulting.dry (h : Faulting c pc k e) (hpc : pc ≠ -1) (hk : k + 1 = c.bbSize) :
    e.step c (.decode (.fault pc)) = .error .noRecord := by
  have hfind : bbFind c pc (given k pc e.tc) = (none, given k pc e.tc) :=
    bbFind_empty h.bucket hpc
  have hfree : (given k pc e.tc).freelist = .null := h.freelist.trans (if_neg (by omega))
  rw [h.step_eq hpc (by omega), handleException_dry hfind hfree]

/-- A trap handler that cannot be fetched uses up the records, whatever their number. -/
theorem Faulting.runs_dry (h : Faulting c pc k e) (hpc : pc ≠ -1) (hrt : c.rtCheck = false)
    (hk : k < c.bbSize) :
    ∃ tr e', Run (Step c) e tr e' ∧ e'.step c (.decode (.fault pc)) = .error .noRecord := by
  obtain ⟨n, hn⟩ : ∃ n, k + 1 + n = c.bbSize := ⟨c.bbSize - (k + 1), by omega⟩
  induction n generalizing k e with
  | zero => exact ⟨[], e, .nil, h.dry hpc hn⟩
  | succ n ih =>
    obtain ⟨e', hs, h'⟩ := h.step hpc hrt (by omega)
    obtain ⟨tr, e'', hrun, hdry⟩ := ih h' (by omega) (by omega)
    exact ⟨_, e'', .cons hs hrun, hdry⟩

/-- A guest sets its trap vector to an address without memory and jumps there. -/
def vectorEvents : List (TraceEvent Unit) :=
  [plainAt 0x80100000, .next, plainAt 0x80100004, .next, jrAt 0x80100008, .indirect 0x10 false]

theorem pools_run_dry : ∃ (e₀ e : Engine Unit) (tr : _), init .standard 0x80100000 = .ok e₀ ∧
    Run (Step .standard) e₀ tr e ∧ e.step .standard (.decode (.fault 0x10)) = .error .noRecord := by
  have hplay : ∃ e₀ e : Engine Unit, init .standard 0x80100000 = .ok e₀ ∧
      play .standard e₀ vectorEvents = .ok e ∧ e.cur = .record 0 ∧ e.tc.state = .running ∧
      (e.tc.records 0).pc = 0x10 ∧ (e.tc.records 0).body = none ∧ e.tc.freelist = .record 1 ∧
      e.tc.bbList 8 = [] ∧ e.tc.tcIdx = 3 ∧
      ∀ i, (e.tc.records (i + 1)).tnext =
        if i + 1 + 1 < TraceConfig.standard.bbSize then .record (i + 1 + 1) else .null :=
    ⟨_, _, rfl, rfl, rfl, rfl, rfl, rfl, rfl, rfl, rfl, fun _ => rfl⟩
  obtain ⟨e₀, e₁, h0, hplay, hcur, hstate, hpc, hbody, hfree, hbucket, hidx, hrest⟩ := hplay
  have hfault : Faulting .standard 0x10 0 e₁ := by
    refine ⟨hcur, hstate, hpc, hbody, hfree, ?_, hbucket, ?_⟩
    · intro i hi
      obtain ⟨j, rfl⟩ : ∃ j, i = j + 1 := ⟨i - 1, by omega⟩
      exact hrest j
    · rw [hidx]
      decide
  obtain ⟨tr₁, hrun₁⟩ := run_of_play hplay
  obtain ⟨tr₂, e₂, hrun₂, hdry⟩ := hfault.runs_dry (by decide) rfl (by decide)
  exact ⟨e₀, e₂, tr₁ ++ tr₂, h0, hrun₁.append hrun₂, hdry⟩

end FaultLoop

end Engine

end Nemu
