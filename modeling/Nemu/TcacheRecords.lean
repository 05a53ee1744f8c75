import Nemu.TcachePools

namespace Nemu

set_option autoImplicit true

def Ptr.isRecord : Ptr → Bool
  | record _ => true
  | _ => false

namespace Engine

variable {δ : Type}

/-- A branch that has just been decoded, with neither of its targets built. -/
def forked (e : Engine δ) : Bool :=
  e.decoded && match e.cur with
    | .pool i => (e.tc.pool i).tnext.isRecord && (e.tc.pool i).ntnext.isRecord &&
      match (e.tc.pool i).body with
      | some d => d.type = .B
      | none => false
    | _ => false

/-- The record that execution is about to resolve is in hand. -/
def inHand (e : Engine δ) : Nat := if e.unfinished || e.forked then 1 else 0

/-- The block begun at place `b` is under construction, for the record `r`: its instructions lie
in the pool one after the other, and the last place, `i`, waits to be decoded. -/
structure Construction (c : TraceConfig) (t : Tcache δ) (l : List Nat) (b r i : Nat) (pc : Word) :
    Prop where
  bbNow : t.bbNow = .pool b
  bbNowRecord : t.bbNowRecord = .record r
  live : Live c l r
  start : (t.pool b).pc = (t.records r).pc
  tcIdx : t.tcIdx = i + 1
  code : Open t.code b (t.records r).pc i pc
  place : t.pool i = tcacheEntryInit pc

theorem Construction.undecoded (hc : Construction c t l b r i pc) :
    (t.pool i).pc = pc ∧ (t.pool i).body = none := by
  rw [hc.place]
  exact ⟨rfl, rfl⟩

/-- Execution stands at the place to be decoded, or at the instruction before it, which has just
been decoded. -/
def Building (c : TraceConfig) (e : Engine δ) (l : List Nat) : Prop :=
  ∃ b r i pc, Construction c e.tc l b r i pc ∧
    (e.decoded = false ∧ e.cur = .pool i ∨
      e.decoded = true ∧ ∃ j a d, i = j + 1 ∧ e.cur = .pool j ∧ e.tc.code j = some (a, d) ∧
        d.type = .N ∧ d.snpc = pc)

/-- No block is under construction: execution stands in a finished block or at a record in use. -/
def Resting (c : TraceConfig) (e : Engine δ) (l : List Nat) : Prop :=
  match e.cur with
  | .pool i => ∃ pc, Done e.tc.code i pc
  | .record r => Live c l r ∧ e.decoded = false
  | .ex => False
  | .null | .wild => True

def Placed (c : TraceConfig) (e : Engine δ) (l : List Nat) : Prop :=
  match e.tc.state with
  | .running => e.Resting c l
  | .building => e.Building c l

/-- The invariant of `execute`. Every finished block accounts for one record that is not free, and
so does every record left behind. -/
structure Sound (c : TraceConfig) (e : Engine δ) (l : List Nat) : Prop where
  tidy : Tidy c e.tc l
  placed : e.Placed c l
  room : c.bbSize ≤ l.length + e.tc.built + e.tc.abandoned + e.inHand

/-- An indirect jump is about to move a record that is not resolved from `tnext` to `ntnext`. -/
def shifts (e : Engine δ) : TraceEvent δ → Prop
  | .indirect target _ => ∃ i r x, e.cur = .pool i ∧ (e.tc.pool i).tnext = .record r ∧
      (e.tc.records r).pc ≠ target ∧ e.tc.deref (e.tc.pool i).ntnext = .ok x ∧ x.pc ≠ target
  | _ => False

section Handlers

variable {c : TraceConfig} {t : Tcache δ} {e e' : Engine δ} {l : List Nat}

/-- Execution goes on at the handler, in its block or with a record for it. -/
theorem sound_handleException (h : Tidy c t l)
    (hroom : c.bbSize ≤ l.length + t.built + t.abandoned)
    (he : tcacheHandleException c jpc t = .ok e') : ∃ l', Sound c e' l' := by
  obtain ⟨t', hf, he⟩ := Except.bind_eq_ok.mp he
  cases he
  obtain ⟨l', h', hs, hcur⟩ := h.fetch_ex hf
  refine ⟨l', h'.of_eq rfl rfl rfl rfl rfl, ?_, ?_⟩
  · dsimp only [Placed, Resting]
    obtain ⟨_, hlead⟩ | ⟨r, _, hr, _, hlive⟩ := hcur
    · rw [← hs.code] at hlead
      revert hlead
      cases t'.ex.tnext with
      | pool i => exact fun hlead => ⟨jpc, hlead⟩
      | record r => exact False.elim
      | ex => exact False.elim
      | _ => exact fun _ => trivial
    · rw [hr]
      exact ⟨hlive, rfl⟩
  · dsimp only
    rw [hs.built, hs.abandoned]
    obtain ⟨rfl, _⟩ | ⟨r, rfl, hr, _, _⟩ := hcur
    · omega
    · simp only [List.length_cons] at hroom
      simp only [inHand, unfinished, hr, Bool.or_true, Bool.true_or, ↓reduceIte]
      omega

theorem sound_handleFlush (h : Tidy c t l) (he : tcacheHandleFlush c pc t = .ok e') :
    ∃ l', Sound c e' l' := by
  apply sound_handleException (tidy_flush h.undecoded) _ he
  simp only [List.length_range', tcacheFlush]
  omega

theorem sound_full (h : Tidy c t l) (he : tcacheFull c pc t = .ok e') : ∃ l', Sound c e' l' := by
  obtain ⟨⟨s, t'⟩, hn, he⟩ := Except.bind_eq_ok.mp he
  cases he
  have h₀ := tidy_flush (c := c) h.undecoded
  obtain ⟨r, l', hl, rfl, rfl⟩ := h₀.pop hn
  rw [hl] at h₀
  obtain ⟨h', hlive⟩ := h₀.taken (x := tcacheEntryInit pc) rfl fun hne => absurd rfl hne
  refine ⟨l', h'.of_eq rfl rfl rfl rfl rfl, ⟨hlive, rfl⟩, ?_⟩
  have hlen := congrArg List.length hl
  simp only [List.length_range', List.length_cons] at hlen
  simp only [inHand, unfinished, tcacheFlush, Bool.or_true, Bool.true_or, ↓reduceIte]
  omega

/-- The two links of a branch take two records only when neither target is built. -/
theorem tidy_link (h : Tidy c t l) (hi : t.code i = some (pc, d)) (hN : d.type ≠ .N)
    (hl : tcacheLink c (.pool i) d t = .ok t') :
    ∃ l', Tidy c t' l' ∧ Same t t' ∧ (l.length ≤ l'.length + 1 ∨ l.length ≤ l'.length + 2 ∧
      d.type = .B ∧ (t'.pool i).tnext.isRecord ∧ (t'.pool i).ntnext.isRecord) := by
  unfold tcacheLink at hl
  have hlen : ∀ {l l' : List Nat} {P : Prop} {Q : Nat → Prop},
      (l' = l ∧ P ∨ ∃ r, l = r :: l' ∧ Q r) → l.length ≤ l'.length + 1 := by
    rintro l l' P Q (⟨rfl, _⟩ | ⟨r, rfl, _⟩)
    · omega
    · exact Nat.le_refl _
  cases hty : d.type with
  | N => exact absurd hty hN
  | J =>
    rw [hty] at hl
    obtain ⟨q, l', _, h', hs, hcase⟩ := h.fetch_pool hl hi hN (by simp [Wanted, hty]) (by simp)
    exact ⟨l', h', hs, .inl (hlen hcase)⟩
  | B =>
    rw [hty] at hl
    obtain ⟨t₁, h1, h2⟩ := Except.bind_eq_ok.mp hl
    obtain ⟨q₁, l₁, hp₁, ht₁, hs₁, hcase₁⟩ :=
      h.fetch_pool h1 hi hN (by simp [Wanted, hty]) (by simp)
    have hi₁ : t₁.code i = some (pc, d) := by rw [hs₁.code, hi]
    obtain ⟨q₂, l₂, hp₂, ht₂, hs₂, hcase₂⟩ :=
      ht₁.fetch_pool h2 hi₁ hN (by simp [Wanted, hty]) (by simp [hty])
    refine ⟨l₂, ht₂, hs₁.trans hs₂, ?_⟩
    have hq : t'.pool i = setLink false q₂ (setLink true q₁ (t.pool i)) := by
      rw [hp₂, Function.update_self, hp₁, Function.update_self]
    have hlen₁ := hlen hcase₁
    have hlen₂ := hlen hcase₂
    -- only when both fetches took a record are two records gone
    obtain ⟨rfl, _⟩ | ⟨r₁, rfl, rfl, _⟩ := hcase₁
    · exact .inl hlen₂
    · obtain ⟨rfl, _⟩ | ⟨r₂, rfl, rfl, _⟩ := hcase₂
      · exact .inl hlen₁
      · refine .inr ⟨Nat.le_refl _, rfl, ?_⟩
        rw [hq]
        exact ⟨rfl, rfl⟩
  | I =>
    rw [hty] at hl
    cases hl
    have hdone : Done t.code i pc := .last hi hN
    have hcode : ∀ {a d'}, t.code i = some (a, d') → d' = d := by
      intro a d' hi'
      rw [hi] at hi'
      cases hi'
      rfl
    have hself : LinksOnly fun x : Entry δ => { x with tnext := .pool i, ntnext := .pool i } :=
      fun x => ⟨rfl, rfl⟩
    refine ⟨l, ?_, .update _ _ hself, .inl (Nat.le_succ _)⟩
    apply h.update_pool hself fun a d' hi' => hcode hi' ▸ hN
    · intro a d' hi' _
      refine ⟨pc, hdone, ?_⟩
      rw [hcode hi']
      simp [Wanted, hty]
    · intro a d' hi' hB
      rw [hcode hi', hty] at hB
      cases hB
    · exact fun _ _ _ _ => ⟨pc, hdone⟩

theorem Tcache.body_of_code {t : Tcache δ} (h : t.code i = some (a, d)) :
    (t.pool i).pc = a ∧ (t.pool i).body = some d := by
  unfold Tcache.code at h
  split at h
  · obtain ⟨d', hd', e⟩ := Option.map_eq_some_iff.mp h
    cases e
    exact ⟨rfl, hd'⟩
  · cases h

theorem sound_endOfBb (h : Tidy c t l) (hb : t.bbNow = .pool b) (hr : t.bbNowRecord = .record r)
    (hlive : Live c l r) (hpc : (t.pool b).pc = (t.records r).pc)
    (hdone : Done t.code b (t.records r).pc) (hi : t.code i = some (a, d)) (hN : d.type ≠ .N)
    (hroom : c.bbSize ≤ l.length + t.built + t.abandoned + 1)
    (he : tcacheEndOfBb c (.pool i) d pc t = .ok e') : ∃ l', Sound c e' l' := by
  unfold tcacheEndOfBb at he
  rw [hb] at he
  obtain ⟨x, hx, he⟩ := Except.bind_eq_ok.mp he
  cases hx
  cases hins : bbInsert c (t.pool b).pc (.pool b) t with
  | none =>
    rw [hins] at he
    exact sound_full h he
  | some t₁ =>
    rw [hins] at he
    obtain ⟨h₁, ht₁⟩ := h.insert (s := .pool b) (hpc ▸ hdone) hins
    have hb₁ : t₁.bbNow = .pool b := by rw [ht₁, hb]
    have hr₁ : t₁.bbNowRecord = .record r := by rw [ht₁, hr]
    have hcode₁ : t₁.code = t.code := by
      rw [ht₁]
      rfl
    have hrec₁ : t₁.records = t.records := by rw [ht₁]
    have hbuilt₁ : t₁.built = t.built + 1 := by rw [ht₁]
    have hab₁ : t₁.abandoned = t.abandoned := by rw [ht₁]
    dsimp only at he
    rw [hb₁, hr₁] at he
    obtain ⟨t₂, hfree, he⟩ := Except.bind_eq_ok.mp he
    obtain ⟨t₃, hlink, he⟩ := Except.bind_eq_ok.mp he
    cases he
    have hlead : Leads t₁.code (t₁.records r).pc (.pool b) := by
      rw [hcode₁, hrec₁]
      exact hdone
    obtain ⟨h₂, hs₂⟩ := h₁.patchAndFree hlive hlead hfree
    have hi₂ : Tcache.code { t₂ with bbNow := .null, bbNowRecord := .null } i = some (a, d) := by
      rw [← hi, ← hcode₁, ← hs₂.code]
      rfl
    have h₂' : Tidy c { t₂ with bbNow := .null, bbNowRecord := .null } (r :: l) :=
      h₂.of_eq rfl rfl rfl rfl rfl
    obtain ⟨l₃, h₃, hs₃, hlen⟩ := tidy_link h₂' hi₂ hN hlink
    have hi₃ : t₃.code i = some (a, d) := by rw [hs₃.code, hi₂]
    refine ⟨l₃, h₃.of_eq rfl rfl rfl rfl rfl, ⟨a, .last hi₃ hN⟩, ?_⟩
    have hbuilt₃ : t₃.built = t.built + 1 := by rw [hs₃.built, ← hbuilt₁, ← hs₂.built]
    have hab₃ : t₃.abandoned = t.abandoned := by rw [hs₃.abandoned, ← hab₁, ← hs₂.abandoned]
    simp only [List.length_cons] at hlen
    dsimp only
    rw [hbuilt₃, hab₃]
    obtain hlen | ⟨hlen, hB, ht, hn⟩ := hlen
    · omega
    · simp only [inHand, forked, ht, hn, (Tcache.body_of_code hi₃).2, hB, decide_true,
        Bool.and_true, Bool.or_true, ↓reduceIte]
      omega

theorem Construction.begin (hlive : Live c l r) (t : Tcache δ) :
    Construction c { grown (t.records r).pc t with
      bbNow := .pool t.tcIdx, bbNowRecord := .record r, state := .building } l t.tcIdx r t.tcIdx
      (t.records r).pc := by
  have hpool : (grown (t.records r).pc t).pool t.tcIdx = tcacheEntryInit (t.records r).pc :=
    Function.update_self ..
  refine ⟨rfl, rfl, hlive, ?_, rfl, .nil, hpool⟩
  change ((grown (t.records r).pc t).pool t.tcIdx).pc = (t.records r).pc
  rw [hpool]
  rfl

theorem Construction.snoc (hc : Construction c t l b r i pc) (hN : d.type = .N) :
    Construction c (grown d.snpc (filled i d t)) l b r (i + 1) d.snpc := by
  have hi : i < t.tcIdx := by
    rw [hc.tcIdx]
    exact Nat.lt_succ_self i
  have hb : b ≠ i + 1 := by
    have := hc.code.le
    omega
  have hidx : (filled i d t).tcIdx = i + 1 := hc.tcIdx
  refine ⟨hc.bbNow, hc.bbNowRecord, hc.live, ?_, ?_, ?_, ?_⟩
  · have hpool : (grown d.snpc (filled i d t)).pool b = (filled i d t).pool b := by
      simp only [grown, hidx, Function.update_of_ne hb]
    rw [hpool, filled_pc]
    exact hc.start
  · simp only [grown, hidx]
  · rw [grown_code]
    apply Open.snoc (hc.code.mono (filled_grow hi hc.undecoded.2 d)) _ hN
    rw [filled_code hi hc.undecoded.1, Function.update_self]
  · simp only [grown, hidx, Function.update_self]

theorem Construction.finish (hc : Construction c t l b r i pc) (hN : d.type ≠ .N) :
    ((filled i d t).pool b).pc = (t.records r).pc ∧
      Done (filled i d t).code b (t.records r).pc ∧
      (filled i d t).code i = some (pc, d) := by
  have hi : i < t.tcIdx := by
    rw [hc.tcIdx]
    exact Nat.lt_succ_self i
  have hi₁ : (filled i d t).code i = some (pc, d) := by
    rw [filled_code hi hc.undecoded.1, Function.update_self]
  refine ⟨?_, (hc.code.mono (filled_grow hi hc.undecoded.2 d)).close (.last hi₁ hN), hi₁⟩
  rw [filled_pc]
  exact hc.start

theorem decodeAt_ok (d : Decoded δ) (i : Nat) (pc : Word) (t : Tcache δ) :
    tcacheDecodeAt c (.ok d) (.pool i) pc t =
      if d.type = .N then
        match tcacheNew c d.snpc (filled i d t) with
        | none => tcacheFull c pc (filled i d t)
        | some (next, t) =>
          if next = .pool (i + 1) then .ok ⟨t, .pool i, true⟩ else .error .notNext
      else tcacheEndOfBb c (.pool i) d pc (filled i d t) := rfl

theorem sound_decodeAt (h : Tidy c t l) (hst : t.state = .building)
    (hc : Construction c t l b r i pc)
    (hroom : c.bbSize ≤ l.length + t.built + t.abandoned + 1)
    (he : tcacheDecodeAt c f (.pool i) pc' t = .ok e') : ∃ l', Sound c e' l' := by
  have hi : i < t.tcIdx := by
    rw [hc.tcIdx]
    exact Nat.lt_succ_self i
  cases f with
  | fault jpc =>
    have h' : Tidy c { t with abandoned := t.abandoned + 1 } l := h.of_eq rfl rfl rfl rfl rfl
    apply sound_handleException h' _ he
    dsimp only
    omega
  | ok d =>
    have h₁ := h.filled hi hc.place d
    have hi₁ : (filled i d t).code i = some (pc, d) := by
      rw [filled_code hi hc.undecoded.1, Function.update_self]
    rw [decodeAt_ok] at he
    split at he
    · next hN =>
      have hc' := hc.snoc hN
      cases hnew : tcacheNew c d.snpc (filled i d t) with
      | none =>
        rw [hnew] at he
        exact sound_full h₁ he
      | some x =>
        rw [hnew] at he
        obtain ⟨next, t₂⟩ := x
        obtain ⟨rfl, rfl⟩ := tcacheNew_eq hnew
        dsimp only at he
        split at he
        · cases he
          have hst' : (grown d.snpc (filled i d t)).state = .building := hst
          refine ⟨l, h₁.grown _, ?_, ?_⟩
          · unfold Placed
            rw [hst']
            refine ⟨b, r, i + 1, d.snpc, hc', .inr ⟨rfl, i, pc, d, rfl, rfl, ?_, hN, rfl⟩⟩
            rw [grown_code]
            exact hi₁
          · simp only [inHand, unfinished, hst', decide_true, Bool.true_or, ↓reduceIte]
            exact hroom
        · cases he
    · next hN =>
      obtain ⟨hstart, hdone, hi₁⟩ := hc.finish hN
      exact sound_endOfBb h₁ hc.bbNow hc.bbNowRecord hc.live hstart hdone hi₁ hN hroom he

theorem inHand_le (e : Engine δ) : e.inHand ≤ 1 := by
  unfold inHand
  split <;> omega

theorem sound_decode (h : Sound c e l) (hx : e.tc.deref e.cur = .ok x) (hbody : x.body = none)
    (he : tcacheDecode c f e.cur e.tc = .ok e') : ∃ l', Sound c e' l' := by
  obtain ⟨h, hplaced, hroom⟩ := h
  have hroom' : c.bbSize ≤ l.length + e.tc.built + e.tc.abandoned + 1 := by
    have := e.inHand_le
    omega
  unfold tcacheDecode at he
  rw [hx] at he
  unfold Placed at hplaced
  cases hst : e.tc.state with
  | building =>
    rw [hst] at hplaced
    obtain ⟨b, r, i, pc, hc, ⟨_, hcur⟩ | ⟨_, j, a, d, rfl, hcur, hj, _⟩⟩ := hplaced
    · simp only [hst, hcur] at he
      exact sound_decodeAt h hst hc hroom' he
    · rw [hcur] at hx
      cases hx
      rw [(Tcache.body_of_code hj).2] at hbody
      cases hbody
  | running =>
    rw [hst] at hplaced
    unfold Resting at hplaced
    cases hcur : e.cur with
    | pool i =>
      rw [hcur] at hplaced hx
      cases hx
      obtain ⟨pc, hdone⟩ := hplaced
      obtain ⟨d, hd⟩ := hdone.exists_code
      rw [(Tcache.body_of_code hd).2] at hbody
      cases hbody
    | record r =>
      rw [hcur] at hplaced hx
      cases hx
      cases hfind : bbFind c (e.tc.records r).pc e.tc with
      | mk o t₁ =>
        obtain ⟨h₁, hs₁, hrec₁, _, hlead⟩ := h.find hfind
        simp only [hst, hcur, bind, Except.bind] at he
        rw [hfind] at he
        cases o with
        | some bb =>
          obtain ⟨t₂, hfree, he⟩ := Except.bind_eq_ok.mp he
          cases he
          have hbb : Leads t₁.code (t₁.records r).pc bb := by
            rw [hs₁.code, hrec₁]
            exact hlead bb rfl
          obtain ⟨h₂, hs₂⟩ := h₁.patchAndFree hplaced.1 hbb hfree
          refine ⟨r :: l, h₂, ?_, ?_⟩
          · have hst₂ : t₂.state = .running := by rw [hs₂.state, hs₁.state, hst]
            unfold Placed
            rw [hst₂]
            rw [← hs₂.code] at hbb
            cases bb with
            | pool i => exact ⟨_, hbb⟩
            | record r => exact hbb.elim
            | ex => exact hbb.elim
            | _ => trivial
          · dsimp only
            rw [hs₂.built, hs₂.abandoned, hs₁.built, hs₁.abandoned, List.length_cons]
            omega
        | none =>
          dsimp only at he
          cases hnew : tcacheNew c (e.tc.records r).pc t₁ with
          | none =>
            rw [hnew] at he
            exact sound_full h₁ he
          | some y =>
            rw [hnew] at he
            obtain ⟨n, t₂⟩ := y
            obtain ⟨rfl, rfl⟩ := tcacheNew_eq hnew
            dsimp only at he
            have h₂ : Tidy c { grown (e.tc.records r).pc t₁ with
                bbNow := .pool t₁.tcIdx, bbNowRecord := .record r, state := .building } l :=
              (h₁.grown _).of_eq rfl rfl rfl rfl rfl
            apply sound_decodeAt h₂ rfl (hrec₁ ▸ Construction.begin hplaced.1 _) _ he
            change c.bbSize ≤ l.length + t₁.built + t₁.abandoned + 1
            rw [hs₁.built, hs₁.abandoned]
            exact hroom'
    | ex =>
      rw [hcur] at hplaced
      exact hplaced.elim
    | _ =>
      rw [hcur] at hx
      cases hx

theorem target_of_deref (h : Target c t l src ty want p) (hx : t.deref p = .ok x)
    (hpc : x.pc = target) : Target c t l src ty (· = target) p := by
  cases p with
  | record r =>
    cases hx
    exact ⟨h.1, h.2.1, h.2.2.1, hpc⟩
  | pool i =>
    cases hx
    obtain ⟨pc, hlead, _⟩ := h
    obtain ⟨d, hd⟩ := hlead.exists_code
    exact ⟨pc, hlead, (Tcache.body_of_code hd).1.symm.trans hpc⟩
  | ex =>
    obtain ⟨_, hlead, _⟩ := h
    exact hlead.elim
  | _ => cases hx

/-- `jr_fetch` leads to the target, and takes a record only to point to it. -/
theorem tidy_jrFetch (h : Tidy c t l) (hi : t.code i = some (a, d)) (hI : d.type = .I)
    (hshift : ∀ r x, (t.pool i).tnext = .record r → (t.records r).pc ≠ target →
      t.deref (t.pool i).ntnext = .ok x → x.pc = target)
    (hj : jrFetch c (.pool i) target t = .ok (t', s)) :
    ∃ l', Tidy c t' l' ∧ Same t t' ∧ Target c t' l' (.pool i) .taken (· = target) s ∧
      l.length ≤ l'.length + if s.isRecord then 1 else 0 := by
  have hN : d.type ≠ .N := by simp [hI]
  have htnext := h.tnext i a d hi hN
  obtain ⟨x, hx, hj⟩ := Except.bind_eq_ok.mp hj
  cases hx
  obtain ⟨y, hy, hj⟩ := Except.bind_eq_ok.mp hj
  split at hj
  · next hpc =>
    cases hj
    exact ⟨l, h, .refl t, target_of_deref htnext hy hpc, Nat.le_add_right _ _⟩
  · next hpc =>
    obtain ⟨z, hz, hj⟩ := Except.bind_eq_ok.mp hj
    split at hj
    · next hpc' =>
      cases hj
      obtain ⟨b, hb⟩ := h.other i a d hi hI
      have hold : Target c t l (.pool i) .taken (fun _ => True) (t.pool i).ntnext :=
        .of_leads hb trivial
      exact ⟨l, h, .refl t, target_of_deref hold hz hpc', Nat.le_add_right _ _⟩
    · next hpc' =>
      -- the older target is dropped; the newer one is no record, so that none loses its link
      have hplain : ∃ b, Leads t.code b (t.pool i).tnext := by
        cases hp : (t.pool i).tnext with
        | record r =>
          rw [hp] at hy
          cases hy
          exact absurd (hshift r z hp hpc hz) hpc'
        | _ =>
          rw [hp] at htnext
          exact ⟨htnext.choose, htnext.choose_spec.1⟩
      have hcode : ∀ {a d'}, t.code i = some (a, d') → d' = d := by
        intro a d' hi'
        rw [hi] at hi'
        cases hi'
        rfl
      have hf : LinksOnly fun x : Entry δ => { x with ntnext := x.tnext } := fun x => ⟨rfl, rfl⟩
      have h₁ : Tidy c (t.update (.pool i) fun x => { x with ntnext := x.tnext }) l := by
        apply h.update_pool hf fun a d' hi' => hcode hi' ▸ hN
        · exact fun a d' hi' hd => h.tnext i a d' hi' hd
        · intro a d' hi' hB
          rw [hcode hi', hI] at hB
          cases hB
        · exact fun _ _ _ _ => hplain
      have hs₁ := Same.update t (.pool i) hf
      have hi₁ : (t.update (.pool i) fun x => { x with ntnext := x.tnext }).code i =
          some (a, d) := by rw [hs₁.code, hi]
      obtain ⟨t₂, hfetch, hj⟩ := Except.bind_eq_ok.mp hj
      obtain ⟨x, hx, hj⟩ := Except.bind_eq_ok.mp hj
      cases hx
      cases hj
      obtain ⟨q, l', hpool, h₂, hs₂, hcase⟩ :=
        h₁.fetch_pool hfetch hi₁ hN (by simp [Wanted, hI]) (by simp)
      have hq : (t'.pool i).tnext = q := by
        rw [hpool, Function.update_self]
        rfl
      refine ⟨l', h₂, hs₁.trans hs₂, ?_⟩
      rw [hq]
      obtain ⟨rfl, hlead⟩ | ⟨r, rfl, rfl, hlive, hr⟩ := hcase
      · refine ⟨.of_leads (hs₂.code ▸ hlead) rfl, Nat.le_add_right _ _⟩
      · refine ⟨⟨hlive, ?_⟩, Nat.le_refl _⟩
        rw [hr]
        exact ⟨rfl, rfl, rfl⟩

theorem resting_of_target (h : Target c t l src ty want p) : Resting c ⟨t, p, false⟩ l := by
  cases p with
  | record r => exact ⟨h.1, rfl⟩
  | pool i =>
    obtain ⟨pc, hlead, _⟩ := h
    exact ⟨pc, hlead⟩
  | ex =>
    obtain ⟨_, hlead, _⟩ := h
    exact hlead.elim
  | _ => trivial

/-- A decoded instruction is reached in a finished block, or in the one under construction right
after it has been decoded. -/
theorem Sound.at_body (h : Sound c e l) (hx : e.tc.deref e.cur = .ok x) (hbody : x.body = some d) :
    ∃ i, e.cur = .pool i ∧ x = e.tc.pool i ∧ e.tc.code i = some (x.pc, d) ∧
      (e.tc.state = .running ∧ Done e.tc.code i x.pc ∨
        e.tc.state = .building ∧ d.type = .N ∧ e.decoded = true ∧
          ∃ b r, Construction c e.tc l b r (i + 1) d.snpc) := by
  have hplaced := h.placed
  unfold Placed at hplaced
  cases hst : e.tc.state with
  | building =>
    rw [hst] at hplaced
    obtain ⟨b, r, i, pc, hc, ⟨_, hcur⟩ | ⟨hdec, j, a, d', rfl, hcur, hj, hN, rfl⟩⟩ := hplaced
    · rw [hcur] at hx
      cases hx
      rw [hc.place] at hbody
      cases hbody
    · rw [hcur] at hx
      cases hx
      obtain ⟨rfl, hd⟩ := Tcache.body_of_code hj
      rw [hd] at hbody
      cases hbody
      exact ⟨j, hcur, rfl, hj, .inr ⟨rfl, hN, hdec, b, r, hc⟩⟩
  | running =>
    rw [hst] at hplaced
    unfold Resting at hplaced
    cases hcur : e.cur with
    | pool i =>
      rw [hcur] at hplaced hx
      cases hx
      obtain ⟨pc, hdone⟩ := hplaced
      obtain ⟨d', hd'⟩ := hdone.exists_code
      obtain ⟨rfl, hd⟩ := Tcache.body_of_code hd'
      rw [hd] at hbody
      cases hbody
      exact ⟨i, rfl, rfl, hd', .inl ⟨rfl, hdone⟩⟩
    | record r =>
      rw [hcur] at hx
      cases hx
      rw [h.tidy.undecoded] at hbody
      cases hbody
    | ex =>
      rw [hcur] at hplaced
      exact hplaced.elim
    | _ =>
      rw [hcur] at hx
      cases hx

theorem inHand_of_pool (hcur : e.cur = .pool i) (hst : e.tc.state = .running)
    (hbody : (e.tc.pool i).body = some d) (hB : d.type ≠ .B) : e.inHand = 0 := by
  simp [inHand, unfinished, forked, hcur, hst, hbody, hB]

theorem inHand_of_isRecord (e : Engine δ) (h : e.cur.isRecord) : e.inHand = 1 := by
  cases hcur : e.cur with
  | record r => simp only [inHand, unfinished, hcur, Bool.or_true, Bool.true_or, ↓reduceIte]
  | _ =>
    rw [hcur] at h
    cases h

theorem sound_goto (h : Sound c e l) (hst : e.tc.state = .running)
    (hp : Target c e.tc l src ty want p) (hhand : e.inHand = 1 → p.isRecord) :
    Sound c ⟨e.tc, p, false⟩ l := by
  refine ⟨h.tidy, ?_, ?_⟩
  · unfold Placed
    rw [hst]
    exact resting_of_target hp
  · have hroom := h.room
    have hle := e.inHand_le
    by_cases h1 : e.inHand = 1
    · have := inHand_of_isRecord (⟨e.tc, p, false⟩ : Engine δ) (hhand h1)
      dsimp only
      omega
    · dsimp only
      omega

theorem sound_privJr (h : Sound c e l) (hst : e.tc.state = .running) (hcur : e.cur = .pool i)
    (hi : e.tc.code i = some (a, d)) (hI : d.type = .I)
    (hshift : ¬ e.shifts (.indirect target flush))
    (he : e.privJr c target flush = .ok e') : ∃ l', Sound c e' l' := by
  unfold privJr at he
  rw [hcur] at he
  obtain ⟨⟨t, s⟩, hj, he⟩ := Except.bind_eq_ok.mp he
  obtain ⟨l', h', hs, htarget, hlen⟩ := tidy_jrFetch h.tidy hi hI
    (fun r x hr hpc hx => by
      by_contra hne
      exact hshift ⟨i, r, x, hcur, hr, hpc, hx, hne⟩) hj
  cases flush with
  | true =>
    obtain ⟨x, _, he⟩ := Except.bind_eq_ok.mp he
    exact sound_handleFlush h' he
  | false =>
    cases he
    refine ⟨l', h', ?_, ?_⟩
    · have hst' : t.state = .running := by rw [hs.state, hst]
      unfold Placed
      rw [hst']
      exact resting_of_target htarget
    · have hroom := h.room
      have hhand := inHand_of_pool hcur hst (Tcache.body_of_code hi).2 (by simp [hI])
      dsimp only
      rw [hs.built, hs.abandoned]
      cases hrec : s.isRecord with
      | true =>
        rw [hrec] at hlen
        have := inHand_of_isRecord (⟨t, s, false⟩ : Engine δ) hrec
        simp only [↓reduceIte] at hlen
        omega
      | false =>
        rw [hrec] at hlen
        simp only [Bool.false_eq_true, ↓reduceIte] at hlen
        omega

theorem sound_next (h : Sound c e l) (hx : e.tc.deref e.cur = .ok x) (hbody : x.body = some d)
    (hN : d.type = .N) : Sound c ⟨e.tc, e.cur.next, false⟩ l := by
  obtain ⟨i, hcur, rfl, hi, ⟨hst, hdone⟩ | ⟨hst, _, _, b, r, hc⟩⟩ := h.at_body hx hbody
  · rw [hcur]
    have hnext : Target c e.tc l .null .none (fun _ => True) (.pool (i + 1)) := by
      cases hdone with
      | last hi' hN' =>
        rw [hi] at hi'
        cases hi'
        exact absurd hN hN'
      | next hi' _ hdone => exact ⟨_, hdone, trivial⟩
    apply sound_goto h hst hnext
    · intro h1
      rw [inHand_of_pool hcur hst hbody (by simp [hN])] at h1
      cases h1
  · rw [hcur]
    refine ⟨h.tidy, ?_, ?_⟩
    · unfold Placed
      rw [hst]
      exact ⟨b, r, i + 1, d.snpc, hc, .inl ⟨rfl, rfl⟩⟩
    · have hroom := h.room
      have hle := e.inHand_le
      have hhand : inHand (⟨e.tc, .pool (i + 1), false⟩ : Engine δ) = 1 := by
        simp [inHand, unfinished, hst]
      change c.bbSize ≤ _ + inHand (⟨e.tc, .pool (i + 1), false⟩ : Engine δ)
      dsimp only
      omega

theorem sound_branch (h : Sound c e l) (hx : e.tc.deref e.cur = .ok x) (hbody : x.body = some d)
    (hB : d.type = .B) (isJmp : Bool) : Sound c ⟨e.tc, if isJmp then x.tnext else x.ntnext, false⟩ l := by
  obtain ⟨i, hcur, rfl, hi, ⟨hst, _⟩ | ⟨_, hN, _⟩⟩ := h.at_body hx hbody
  · have hrec : e.inHand = 1 → (e.tc.pool i).tnext.isRecord ∧ (e.tc.pool i).ntnext.isRecord := by
      intro h1
      unfold inHand at h1
      split at h1
      · next h2 =>
        simp only [unfinished, forked, hst, hcur, hbody, reduceCtorEq, decide_false, Bool.or_false,
          Bool.false_or, Bool.and_eq_true] at h2
        exact h2.2.1
      · cases h1
    cases isJmp with
    | true => exact sound_goto h hst (h.tidy.tnext i _ d hi (by simp [hB])) fun h1 => (hrec h1).1
    | false => exact sound_goto h hst (h.tidy.ntnext i _ d hi hB) fun h1 => (hrec h1).2
  · rw [hB] at hN
    cases hN

theorem sound_trap (h : Sound c e l) (hx : e.tc.deref e.cur = .ok x) (hcan : e.canTrap x)
    (he : tcacheHandleException c jpc
      { e.tc with abandoned := e.tc.abandoned + if e.unfinished then 1 else 0 } = .ok e') :
    ∃ l', Sound c e' l' := by
  have h' : Tidy c
      { e.tc with abandoned := e.tc.abandoned + if e.unfinished then 1 else 0 } l :=
    h.tidy.of_eq rfl rfl rfl rfl rfl
  apply sound_handleException h' _ he
  have hroom := h.room
  dsimp only
  cases hun : e.unfinished with
  | true =>
    have := e.inHand_le
    simp only [↓reduceIte]
    omega
  | false =>
    -- a branch just decoded, which could hold two records, cannot trap
    have hhand : e.inHand = 0 := by
      unfold inHand
      rw [hun, Bool.false_or, if_neg]
      intro hfork
      simp only [canTrap, Bool.or_eq_true, Bool.not_eq_true'] at hcan
      unfold forked at hfork
      cases hcur : e.cur with
      | pool i =>
        rw [hcur] at hx hfork
        cases hx
        cases hb : (e.tc.pool i).body with
        | none => simp [hb] at hfork
        | some d => simp_all
      | _ => simp [hcur] at hfork
    simp only [Bool.false_eq_true, ↓reduceIte]
    omega

end Handlers

variable {c : TraceConfig} {e e' e₀ : Engine δ} {l : List Nat}

theorem Sound.stepBody (h : Sound c e l) (hx : e.tc.deref e.cur = .ok x) (hbody : x.body = some d)
    (hshift : ¬ e.shifts ev) (he : e.stepBody c x d ev = .ok e') : ∃ l', Sound c e' l' := by
  cases ev with
  | trap jpc => cases he
  | decode f => cases he
  | next =>
    simp only [Engine.stepBody] at he
    split at he
    · next hN =>
      cases he
      exact ⟨l, sound_next h hx hbody hN⟩
    · cases he
  | flush =>
    simp only [Engine.stepBody] at he
    split at he
    · exact sound_handleFlush h.tidy he
    · cases he
  | jump =>
    simp only [Engine.stepBody] at he
    split at he
    · next hJ =>
      cases he
      obtain ⟨i, hcur, rfl, hi, ⟨hst, _⟩ | ⟨_, hN, _⟩⟩ := h.at_body hx hbody
      · refine ⟨l, sound_goto h hst (h.tidy.tnext i _ d hi (by simp [hJ])) fun h1 => ?_⟩
        rw [inHand_of_pool hcur hst hbody (by simp [hJ])] at h1
        cases h1
      · rw [hJ] at hN
        cases hN
    · cases he
  | branch isJmp =>
    simp only [Engine.stepBody] at he
    split at he
    · next hB =>
      cases he
      exact ⟨l, sound_branch h hx hbody hB isJmp⟩
    · cases he
  | indirect target flush =>
    simp only [Engine.stepBody] at he
    split at he
    · next hty =>
      obtain ⟨i, hcur, rfl, hi, hplace⟩ := h.at_body hx hbody
      obtain hI | hN := hty
      · obtain ⟨hst, _⟩ | ⟨_, hN, _⟩ := hplace
        · exact sound_privJr h hst hcur hi hI hshift he
        · rw [hI] at hN
          cases hN
      · -- `ebreak` follows links that were never set
        unfold privJr jrFetch at he
        simp only [hcur, Tcache.deref, Except.bind_eq_ok] at he
        obtain ⟨_, ⟨_, hp, _, hd, _⟩, _⟩ := he
        cases hp
        rw [h.tidy.unlinked i _ d hi hN] at hd
        cases hd
    · cases he

/-- One step keeps the invariant, unless it moves a record from one link to another. -/
theorem Sound.step (h : Sound c e l) (hshift : ¬ e.shifts ev) (he : e.step c ev = .ok e') :
    ∃ l', Sound c e' l' := by
  obtain ⟨x, hx, he⟩ := Except.bind_eq_ok.mp he
  cases ev with
  | trap jpc =>
    dsimp only at he
    split at he
    · next hcan => exact sound_trap h hx hcan he
    · cases he
  | decode f =>
    dsimp only at he
    split at he
    · next hbody => exact sound_decode h hx hbody he
    · cases he
  | _ =>
    dsimp only at he
    split at he
    · cases he
    · next hbody => exact h.stepBody hx hbody hshift he

theorem sound_init (h : (init c resetVector : Except TcacheAbort (Engine δ)) = .ok e₀) :
    ∃ l, Sound c e₀ l := by
  obtain ⟨⟨s, t⟩, hn, h⟩ := Except.bind_eq_ok.mp h
  cases h
  have hz : Tidy c (tcacheFlush c (zero : Tcache δ)) (List.range' 0 c.bbSize) :=
    tidy_flush fun _ => rfl
  obtain ⟨r, l, hl, rfl, rfl⟩ := hz.pop hn
  rw [hl] at hz
  obtain ⟨h', hlive⟩ := hz.taken (x := tcacheEntryInit resetVector) rfl fun hne => absurd rfl hne
  refine ⟨l, h', ⟨hlive, rfl⟩, ?_⟩
  have hlen := congrArg List.length hl
  simp only [List.length_range', List.length_cons] at hlen
  simp only [inHand, unfinished, tcacheFlush, zero, Bool.or_true, Bool.true_or, ↓reduceIte]
  omega

theorem sound_run (h0 : (init c resetVector : Except TcacheAbort (Engine δ)) = .ok e₀)
    (h : Run (Step c) e₀ tr e) (hgood : ∀ x ∈ tr, ¬ x.source.shifts x.label) :
    ∃ l, Sound c e l := by
  refine h.invariant (I := fun e => ∃ l, Sound c e l) hgood (sound_init h0) ?_
  rintro x hx hs ⟨l, hl⟩
  exact hl.step hx hs

/-- `tcache_decode` of the instruction at hand may hand the record `r` to
`tcache_patch_and_free`. -/
def Patches (e : Engine δ) (r : Nat) : Prop :=
  ∃ x, e.tc.deref e.cur = .ok x ∧ x.body = none ∧
    match e.tc.state with
    | .running => e.cur = .record r
    | .building => e.tc.bbNowRecord = .record r

/-- Execution may go from the instruction at place `i` to `p`: by a jump, by a branch, or by an
indirect jump with the right target. -/
def Follows (e : Engine δ) (i : Nat) (p : Ptr) : Prop :=
  ∃ pc d, e.tc.code i = some (pc, d) ∧
    match d.type with
    | .N => False
    | .J => p = (e.tc.pool i).tnext
    | .B => p = (e.tc.pool i).tnext ∨ p = (e.tc.pool i).ntnext
    | .I => p = (e.tc.pool i).tnext ∨ p = (e.tc.pool i).ntnext ∧
        ∃ x y, e.tc.deref (e.tc.pool i).tnext = .ok x ∧ e.tc.deref p = .ok y ∧ x.pc ≠ y.pc

/-- The records are used linearly: the free list holds records of the pool, each once, and a
record on it is neither freed again nor reached. -/
def Linear (c : TraceConfig) (e : Engine δ) : Prop :=
  ∃ l, Chain .null .record (fun r => (e.tc.records r).tnext) e.tc.freelist l ∧ l.Nodup ∧
    (∀ r ∈ l, r < c.bbSize) ∧ (∀ r, Patches e r → r ∉ l) ∧ ∀ i r, Follows e i (.record r) → r ∉ l

theorem Sound.not_patched (h : Sound c e l) (hr : Patches e r) : r ∉ l := by
  obtain ⟨x, hx, hbody, hr⟩ := hr
  have hplaced := h.placed
  unfold Placed at hplaced
  cases hst : e.tc.state with
  | building =>
    rw [hst] at hplaced hr
    obtain ⟨b, r', i, pc, hc, _⟩ := hplaced
    cases hc.bbNowRecord.symm.trans hr
    exact hc.live.2
  | running =>
    rw [hst] at hplaced hr
    unfold Resting at hplaced
    dsimp only at hr
    rw [hr] at hplaced
    exact hplaced.1.2

theorem Sound.not_followed (h : Sound c e l) (hr : Follows e i (.record r)) : r ∉ l := by
  obtain ⟨pc, d, hi, hr⟩ := hr
  have htarget : d.type ≠ .N → .record r = (e.tc.pool i).tnext → r ∉ l := by
    intro hN hp
    have ht := h.tidy.tnext i pc d hi hN
    rw [← hp] at ht
    exact ht.1.2
  cases hty : d.type with
  | N =>
    rw [hty] at hr
    exact hr.elim
  | J =>
    rw [hty] at hr
    exact htarget (by simp [hty]) hr
  | B =>
    rw [hty] at hr
    obtain hp | hp := hr
    · exact htarget (by simp [hty]) hp
    · have ht := h.tidy.ntnext i pc d hi hty
      rw [← hp] at ht
      exact ht.1.2
  | I =>
    rw [hty] at hr
    obtain hp | ⟨hp, _⟩ := hr
    · exact htarget (by simp [hty]) hp
    · obtain ⟨a, ha⟩ := h.tidy.other i pc d hi hty
      exact (ha.not_record r hp.symm).elim

theorem Sound.linear (h : Sound c e l) : Linear c e :=
  ⟨l, h.tidy.free, h.tidy.nodup, h.tidy.bound, fun _ hr => h.not_patched hr,
    fun _ _ hr => h.not_followed hr⟩

/-- As long as no indirect jump moves an unresolved record from `tnext` to `ntnext`, the records
are used linearly. -/
theorem records_linear (h0 : (init c resetVector : Except TcacheAbort (Engine δ)) = .ok e₀)
    (h : Run (Step c) e₀ tr e) (hgood : ∀ x ∈ tr, ¬ x.source.shifts x.label) : Linear c e := by
  obtain ⟨l, hl⟩ := sound_run h0 h hgood
  exact hl.linear

/-- An instruction at `pc` that ends no block. -/
def plainAt (pc : Word) : TraceEvent Unit := .decode (.ok ⟨.N, pc + 4, 0, ()⟩)

def jrAt (pc : Word) : TraceEvent Unit := .decode (.ok ⟨.I, pc + 4, 0, ()⟩)

/-- An indirect jump to a block that is not built yet. -/
theorem records_linear_jump : ∃ (e₀ e : Engine Unit) (tr : _),
    init .standard 0x80100000 = .ok e₀ ∧ Run (Step .standard) e₀ tr e ∧ tr.length = 2 ∧
      Linear .standard e := by
  have hplay : ∃ e₀ e₁ e₂ : Engine Unit, init .standard 0x80100000 = .ok e₀ ∧
      Step .standard e₀ (jrAt 0x80100000) e₁ ∧
      Step .standard e₁ (.indirect 0x80100040 false) e₂ ∧ e₁.cur = .pool 0 ∧
      (e₁.tc.pool 0).tnext = .pool 0 := ⟨_, _, _, rfl, rfl, rfl, rfl, rfl⟩
  obtain ⟨e₀, e₁, e₂, h0, h1, h2, hcur, hlink⟩ := hplay
  have hrun := Run.cons h1 (.cons h2 .nil)
  refine ⟨e₀, e₂, _, h0, hrun, rfl, records_linear h0 hrun ?_⟩
  rintro x hx
  obtain rfl | hx := List.mem_cons.mp hx
  · exact id
  · obtain rfl := List.mem_singleton.mp hx
    rintro ⟨i, r, _, hi, hr, _⟩
    cases hcur.symm.trans hi
    cases hlink.symm.trans hr

/-- The engine driven by a list of events. -/
def play (c : TraceConfig) (e : Engine δ) : List (TraceEvent δ) → Except TcacheAbort (Engine δ)
  | [] => .ok e
  | ev :: evs => do
    let e ← e.step c ev
    play c e evs

theorem run_of_play (h : play c e evs = .ok e') : ∃ tr, Run (Step c) e tr e' := by
  induction evs generalizing e with
  | nil =>
    cases h
    exact ⟨[], .nil⟩
  | cons ev evs ih =>
    obtain ⟨e₁, h1, h2⟩ := Except.bind_eq_ok.mp h
    obtain ⟨tr, htr⟩ := ih h2
    exact ⟨_, .cons h1 htr⟩

section Relinked

/-- A loop at `0x80100000` loads a target and an address and jumps to the target; the blocks at
`0x80100040` and `0x80100080` load from the address and trap to `0x80100100` when it is not
mapped. All of them return to the loop by indirect jumps. -/
def relinkEvents : List (TraceEvent Unit) :=
  let loop := [.next, .next, .next]
  let back := [.indirect 0x80100000 false]
  [plainAt 0x80100000, .next, plainAt 0x80100004, .next, plainAt 0x80100008, .next,
    jrAt 0x8010000c] ++
  -- both targets trap, and their records stay in the two links of the loop's jump
  [.indirect 0x80100040 false, plainAt 0x80100040, .trap 0x80100100, jrAt 0x80100100] ++ back ++
  loop ++ [.indirect 0x80100080 false, plainAt 0x80100080, .trap 0x80100100] ++ back ++
  -- the first target is built: its record is freed and taken again for the branch in this block
  loop ++ [.indirect 0x80100040 false, plainAt 0x80100040, .next,
    .decode (.ok ⟨.B, 0x80100048, 0x801000c0, ()⟩), .branch false, jrAt 0x80100048] ++ back ++
  -- the loop reaches that record through its stale link, and once more after it is freed
  loop ++ [.indirect 0x801000c0 false, jrAt 0x801000c0] ++ back ++
  loop ++ [.indirect 0x801000c0 false]

/-- Such a guest makes `tcache_decode` free a record that is free. -/
theorem records_not_linear : ∃ (e₀ e : Engine Unit) (tr : _), init .standard 0x80100000 = .ok e₀ ∧
    Run (Step .standard) e₀ tr e ∧ ¬ Linear .standard e := by
  have hplay : ∃ e₀ e : Engine Unit, init .standard 0x80100000 = .ok e₀ ∧
      play .standard e₀ relinkEvents = .ok e ∧ e.cur = .record 0 ∧ e.tc.freelist = .record 0 ∧
      e.tc.state = .running ∧ (e.tc.records 0).body = none :=
    ⟨_, _, rfl, rfl, rfl, rfl, rfl, rfl⟩
  obtain ⟨e₀, e, h0, hplay, hcur, hfree, hst, hbody⟩ := hplay
  obtain ⟨tr, hrun⟩ := run_of_play hplay
  refine ⟨e₀, e, tr, h0, hrun, ?_⟩
  rintro ⟨l, hchain, _, _, hpatch, _⟩
  obtain ⟨l', rfl, _⟩ := hchain.pop hfree Ptr.record_injective (by simp)
  refine hpatch 0 ⟨e.tc.records 0, ?_, hbody, ?_⟩ List.mem_cons_self
  · rw [hcur]
    rfl
  · rw [hst]
    exact hcur

end Relinked

end Engine

end Nemu
