import Nemu.InstrCount
import Nemu.TcacheRecords

namespace Nemu

set_option autoImplicit true

/-- Where a jump may lead: to the first instruction of a block, to a record, or nowhere. -/
def Entrance (code : Nat → Option (Word × Decoded δ)) (rank : Nat → Nat) : Ptr → Prop
  | .pool i => (∃ pc, Done code i pc) ∧ rank i = 1
  | .ex => False
  | _ => True

/-- The links of place `i`. Those of an indirect jump lead to itself at first. -/
def Link (code : Nat → Option (Word × Decoded δ)) (rank : Nat → Nat) (i : Nat) (p : Ptr) : Prop :=
  Entrance code rank p ∨ p = .pool i ∧ ∃ a d, code i = some (a, d) ∧ d.type = .I

/-- A link of the free list. -/
def Loose : Ptr → Prop
  | .null | .record _ => True
  | _ => False

/-- With `rank` the `idx_in_bb` of the places: it counts on from one instruction of a block to the
next, and every link leads to a first one. -/
structure Ranked (c : TraceConfig) (t : Tcache δ) (rank : Nat → Nat) : Prop where
  size : t.tcIdx ≤ c.tcacheSize
  undecoded : ∀ r, (t.records r).body = none
  head : Loose t.freelist
  free : ∀ r, Loose (t.records r).tnext
  source : ∀ r, (t.records r).type ≠ .none → ∀ r', (t.records r).ntnext ≠ .record r'
  blocks : ∀ h, ∀ b ∈ t.bbList h, Entrance t.code rank b.s
  tnext : ∀ i, i < t.tcIdx → Link t.code rank i (t.pool i).tnext
  ntnext : ∀ i, i < t.tcIdx → Link t.code rank i (t.pool i).ntnext
  low : ∀ i x, t.code i = some x → 1 ≤ rank i
  high : ∀ i x, t.code i = some x → rank i ≤ i + 1
  succ : ∀ i a d x, t.code i = some (a, d) → d.type = .N → t.code (i + 1) = some x →
    rank (i + 1) = rank i + 1

/-- No block goes on after the last place in use. -/
def Sealed (t : Tcache δ) : Prop :=
  ∀ j a d, t.tcIdx = j + 1 → t.code j = some (a, d) → d.type ≠ .N

/-- The block begun at place `b` for the record `r` is under construction, and its next
instruction, the `k`-th, goes to place `i`. -/
structure Growing (t : Tcache δ) (rank : Nat → Nat) (k b r i : Nat) (start pc : Word) : Prop where
  bbNow : t.bbNow = .pool b
  bbNowRecord : t.bbNowRecord = .record r
  tcIdx : t.tcIdx = i + 1
  code : Open t.code b start i pc
  pc : (t.pool i).pc = pc
  body : (t.pool i).body = none
  first : (if b = i then k else rank b) = 1
  succ : ∀ j a d, i = j + 1 → t.code j = some (a, d) → d.type = .N → k = rank j + 1
  low : 1 ≤ k
  high : k ≤ i + 1

/-- Execution stands in a finished block or at a record, or in the block under construction, at
the place to be decoded or at the instruction before it. -/
def Engine.Standing (e : Engine δ) (rank : Nat → Nat) (k : Nat) : Prop :=
  match e.tc.state with
  | .running => Sealed e.tc ∧
    match e.cur with
    | .pool i => ∃ pc, Done e.tc.code i pc
    | .ex => False
    | _ => True
  | .building => ∃ b r i start pc, Growing e.tc rank k b r i start pc ∧
    (e.cur = .pool i ∨ ∃ j a d, i = j + 1 ∧ e.cur = .pool j ∧ e.tc.code j = some (a, d) ∧
      d.type = .N)

/-- The number of instructions that its block has before the one at hand. -/
def Engine.before (e : Engine δ) (rank : Nat → Nat) (k : Nat) : Nat :=
  match e.cur with
  | .pool i => (if (e.tc.pool i).body.isSome then rank i else k) - 1
  | _ => 0

section Links

variable {δ : Type} {c : TraceConfig} {t t' : Tcache δ} {rank rank' : Nat → Nat}
  {code code' : Nat → Option (Word × Decoded δ)} {p q : Ptr} {pc jpc : Word}

theorem Entrance.mono (h : Entrance code rank p)
    (hc : ∀ j x, code j = some x → code' j = some x ∧ rank' j = rank j) :
    Entrance code' rank' p := by
  cases p with
  | pool i =>
    obtain ⟨⟨pc, hdone⟩, h1⟩ := h
    obtain ⟨d, hd⟩ := hdone.exists_code
    exact ⟨⟨pc, hdone.mono fun j x hj => (hc j x hj).1⟩, (hc i _ hd).2.trans h1⟩
  | _ => exact h

theorem Link.mono (h : Link code rank i p)
    (hc : ∀ j x, code j = some x → code' j = some x ∧ rank' j = rank j) :
    Link code' rank' i p := by
  obtain h | ⟨rfl, a, d, hi, hI⟩ := h
  · exact .inl (h.mono hc)
  · exact .inr ⟨rfl, a, d, (hc i _ hi).1, hI⟩

theorem Ranked.of_eq (h : Ranked c t rank) (hp : t'.pool = t.pool) (hi : t'.tcIdx = t.tcIdx)
    (hr : t'.records = t.records) (hf : t'.freelist = t.freelist) (hb : t'.bbList = t.bbList) :
    Ranked c t' rank := by
  cases t
  cases t'
  cases hp
  cases hi
  cases hr
  cases hf
  cases hb
  exact ⟨h.size, h.undecoded, h.head, h.free, h.source, h.blocks, h.tnext, h.ntnext, h.low,
    h.high, h.succ⟩

theorem Sealed.congr (h : Sealed t) (hc : t'.code = t.code) (hi : t'.tcIdx = t.tcIdx) :
    Sealed t' := by
  intro j a d hj hd
  rw [hi] at hj
  rw [hc] at hd
  exact h j a d hj hd

/-- Only the ranks of decoded places matter. -/
theorem Ranked.rerank (h : Ranked c t rank)
    (hr : ∀ j x, t.code j = some x → rank' j = rank j) : Ranked c t rank' := by
  have hmono : ∀ j x, t.code j = some x → t.code j = some x ∧ rank' j = rank j :=
    fun j x hx => ⟨hx, hr j x hx⟩
  refine ⟨h.size, h.undecoded, h.head, h.free, h.source, fun l b hb => (h.blocks l b hb).mono hmono,
    fun i hi => (h.tnext i hi).mono hmono, fun i hi => (h.ntnext i hi).mono hmono, ?_, ?_, ?_⟩
  · intro i x hx
    rw [hr i x hx]
    exact h.low i x hx
  · intro i x hx
    rw [hr i x hx]
    exact h.high i x hx
  · intro i a d x hi hN hx
    rw [hr i _ hi, hr (i + 1) x hx]
    exact h.succ i a d x hi hN hx

theorem Ranked.update_pool (h : Ranked c t rank) (hf : LinksOnly f)
    (ht : i < t.tcIdx → Link t.code rank i (f (t.pool i)).tnext)
    (hn : i < t.tcIdx → Link t.code rank i (f (t.pool i)).ntnext) :
    Ranked c (t.update (.pool i) f) rank := by
  have hs := Same.update t (.pool i) hf
  have hpool : ∀ j, (t.update (.pool i) f).pool j = if j = i then f (t.pool i) else t.pool j := by
    intro j
    simp only [Tcache.update, Function.update_apply]
  refine ⟨h.size, h.undecoded, h.head, h.free, h.source, ?_, ?_, ?_, ?_, ?_, ?_⟩
  · rw [hs.code]
    exact h.blocks
  · intro j hj
    rw [hs.code, hpool]
    split
    · next e =>
      subst e
      exact ht hj
    · exact h.tnext j hj
  · intro j hj
    rw [hs.code, hpool]
    split
    · next e =>
      subst e
      exact hn hj
    · exact h.ntnext j hj
  · rw [hs.code]
    exact h.low
  · rw [hs.code]
    exact h.high
  · rw [hs.code]
    exact h.succ

/-- Anything but a record is linked to an entrance. -/
theorem Ranked.setLink (h : Ranked c t rank) (hp : ∀ r, p ≠ .record r)
    (hq : Entrance t.code rank q) : Ranked c (t.update p (Nemu.setLink b q)) rank := by
  cases p with
  | pool i =>
    apply h.update_pool (linksOnly_setLink b q)
    · intro hi
      cases b with
      | true => exact .inl hq
      | false => exact h.tnext i hi
    · intro hi
      cases b with
      | true => exact h.ntnext i hi
      | false => exact .inl hq
  | record r => exact absurd rfl (hp r)
  | _ => exact h.of_eq rfl rfl rfl rfl rfl

theorem Ranked.update_record (h : Ranked c t rank) (hbody : (f (t.records r)).body = none)
    (hfree : Loose (f (t.records r)).tnext)
    (hsrc : (f (t.records r)).type ≠ .none → ∀ r', (f (t.records r)).ntnext ≠ .record r') :
    Ranked c (t.update (.record r) f) rank := by
  have hrec : ∀ r', (t.update (.record r) f).records r' =
      if r' = r then f (t.records r) else t.records r' := by
    intro r'
    simp only [Tcache.update, Function.update_apply]
  refine ⟨h.size, ?_, h.head, ?_, ?_, h.blocks, h.tnext, h.ntnext, h.low, h.high, h.succ⟩
  · intro r'
    rw [hrec]
    split
    · exact hbody
    · exact h.undecoded r'
  · intro r'
    rw [hrec]
    split
    · exact hfree
    · exact h.free r'
  · intro r'
    rw [hrec]
    split
    · exact hsrc
    · exact h.source r'

theorem Ranked.relist (h : Ranked c t rank) (hp : Loose p) :
    Ranked c { t with freelist := p } rank :=
  ⟨h.size, h.undecoded, hp, h.free, h.source, h.blocks, h.tnext, h.ntnext, h.low, h.high, h.succ⟩

theorem Ranked.buckets (h : Ranked c t rank) (hb : ∀ i, ∀ b ∈ bl i, Entrance t.code rank b.s) :
    Ranked c { t with bbList := bl } rank :=
  ⟨h.size, h.undecoded, h.head, h.free, h.source, hb, h.tnext, h.ntnext, h.low, h.high, h.succ⟩

theorem Ranked.find (h : Ranked c t rank) (hf : bbFind c pc t = (o, t')) :
    Ranked c t' rank ∧ Same t t' ∧ t'.records = t.records ∧
      ∀ q, o = some q → Entrance t.code rank q := by
  obtain ⟨he, hmem, hq⟩ := bbFind_spec hf
  rw [he]
  refine ⟨h.buckets fun i b hb => h.blocks i b (hmem i b hb),
    ⟨rfl, fun _ => rfl, rfl, rfl, rfl, rfl, rfl, rfl⟩, rfl, fun q hq' => ?_⟩
  obtain ⟨rfl, _⟩ | ⟨b, hb, rfl, rfl⟩ := hq q hq'
  · trivial
  · exact h.blocks _ b hb

theorem Ranked.bbNew (h : Ranked c t rank) (hn : tcacheBbNew c pc t = .ok (p, t')) :
    ∃ r, p = .record r ∧ Ranked c t' rank ∧ Same t t' := by
  unfold tcacheBbNew at hn
  split at hn
  · cases hn
  · next hnull =>
    have hhead := h.head
    cases hl : t.freelist with
    | record r =>
      simp only [hl, Tcache.deref, Except.bind_eq_ok] at hn
      obtain ⟨s, hs, _, _, hn⟩ := hn
      cases hs
      cases hn
      refine ⟨r, rfl, ?_, ⟨rfl, fun _ => rfl, rfl, rfl, rfl, rfl, rfl, rfl⟩⟩
      exact (h.relist (h.free r)).update_record (f := fun _ => tcacheEntryInit pc) rfl trivial
        fun hne => absurd rfl hne
    | null => exact absurd hl hnull
    | _ =>
      rw [hl] at hhead
      exact hhead.elim

/-- `tcache_bb_fetch` links a block or a new record. -/
theorem Ranked.fetch (h : Ranked c t rank) (hp : ∀ r, p ≠ .record r)
    (hf : tcacheBbFetch c p b jpc t = .ok t') :
    ∃ (q : Ptr) (t₁ : Tcache δ), t' = t₁.update p (Nemu.setLink b q) ∧ Entrance t.code rank q ∧
      Ranked c t' rank ∧ Same t t' := by
  unfold tcacheBbFetch at hf
  cases hfind : bbFind c jpc t with
  | mk o t₁ =>
    obtain ⟨h₁, hs₁, _, hq⟩ := h.find hfind
    rw [hfind] at hf
    cases o with
    | some q =>
      cases hf
      have hq' : Entrance t₁.code rank q := by
        rw [hs₁.code]
        exact hq q rfl
      exact ⟨q, t₁, rfl, hq q rfl, h₁.setLink hp hq',
        hs₁.trans (.update _ _ (linksOnly_setLink b q))⟩
    | none =>
      obtain ⟨⟨s, t₂⟩, hn, hf⟩ := Except.bind_eq_ok.mp hf
      cases hf
      obtain ⟨r, rfl, h₂, hs₂⟩ := h₁.bbNew hn
      have hf : LinksOnly fun x : Entry δ =>
          { x with type := if b then .taken else .ntaken, ntnext := p } := fun x => ⟨rfl, rfl⟩
      have h₃ : Ranked c (t₂.update (.record r) fun x =>
          { x with type := if b then .taken else .ntaken, ntnext := p }) rank :=
        h₂.update_record (h₂.undecoded r) (h₂.free r) fun _ => hp
      exact ⟨.record r, _, rfl, trivial, h₃.setLink hp trivial, ((hs₁.trans hs₂).trans
        (.update _ _ hf)).trans (.update _ _ (linksOnly_setLink b _))⟩

theorem Ranked.patchAndFree (h : Ranked c t rank) (hq : Entrance t.code rank q)
    (hf : tcachePatchAndFree c (.record r) q t = .ok t') : Ranked c t' rank ∧ Same t t' := by
  have hpatched : Ranked c (patched r q t) rank ∧ Same t (patched r q t) := by
    unfold patched
    cases hty : (t.records r).type with
    | none => exact ⟨h, .refl t⟩
    | _ =>
      have hsrc := h.source r (by simp [hty])
      exact ⟨h.setLink hsrc hq, .update _ _ (linksOnly_setLink _ q)⟩
  obtain ⟨h', hs⟩ := hpatched
  obtain rfl := patchAndFree_eq hf
  refine ⟨(h'.update_record (h'.undecoded r) h'.head (h'.source r)).relist trivial, ?_⟩
  exact ⟨hs.code, hs.pc, hs.tcIdx, hs.state, hs.bbNow, hs.bbNowRecord, hs.built, hs.abandoned⟩

end Links

namespace Engine

variable {δ : Type} {c : TraceConfig} {t t' : Tcache δ} {e e' : Engine δ} {rank : Nat → Nat}
  {pc jpc start : Word}

/-- Execution is about to enter a block. -/
structure Entering (c : TraceConfig) (e : Engine δ) (rank : Nat → Nat) : Prop where
  ranked : Ranked c e.tc rank
  state : e.tc.state = .running
  sealed : Sealed e.tc
  entrance : Entrance e.tc.code rank e.cur

theorem Entering.standing (h : Entering c e rank) (k : Nat) : e.Standing rank k := by
  have hin := h.entrance
  unfold Standing
  rw [h.state]
  refine ⟨h.sealed, ?_⟩
  cases hcur : e.cur with
  | pool i =>
    rw [hcur] at hin
    exact hin.1
  | ex =>
    rw [hcur] at hin
    exact hin
  | _ => trivial

theorem Entering.before (h : Entering c e rank) (k : Nat) : e.before rank k = 0 := by
  have hin := h.entrance
  unfold Engine.before
  cases hcur : e.cur with
  | pool i =>
    rw [hcur] at hin
    obtain ⟨⟨pc, hdone⟩, h1⟩ := hin
    obtain ⟨d, hd⟩ := hdone.exists_code
    simp only [(Tcache.body_of_code hd).2, Option.isSome_some, ↓reduceIte, h1, Nat.sub_self]
  | _ => rfl

theorem Standing.sealed (h : e.Standing rank k) : Sealed e.tc := by
  unfold Standing at h
  cases hst : e.tc.state with
  | running =>
    rw [hst] at h
    exact h.1
  | building =>
    rw [hst] at h
    obtain ⟨b, r, i, start, pc, hg, _⟩ := h
    intro j a d hj hd
    obtain rfl : i = j := by
      have := hg.tcIdx
      omega
    rw [Tcache.code_eq_none hg.body] at hd
    cases hd

theorem ranked_flush (h : Ranked c t rank) :
    Ranked c (tcacheFlush c t) rank ∧ Sealed (tcacheFlush c t) := by
  have hcode : ∀ i, (tcacheFlush c t).code i = none := fun i => if_neg (Nat.not_lt_zero i)
  have hnone : ∀ {i x} {P : Prop}, (tcacheFlush c t).code i = some x → P := by
    intro i x P hx
    cases (hcode i).symm.trans hx
  refine ⟨⟨Nat.zero_le _, h.undecoded, trivial, ?_, h.source, ?_, ?_, ?_, ?_, ?_, ?_⟩, ?_⟩
  · intro r
    simp only [tcacheFlush]
    split
    · trivial
    · trivial
  · exact fun _ b hb => absurd hb List.not_mem_nil
  · exact fun i hi => absurd hi (Nat.not_lt_zero i)
  · exact fun i hi => absurd hi (Nat.not_lt_zero i)
  · exact fun i x hx => hnone hx
  · exact fun i x hx => hnone hx
  · exact fun i a d x hx => hnone hx
  · exact fun j a d hj => absurd hj.symm (Nat.succ_ne_zero j)

theorem entering_handleException (h : Ranked c t rank) (hs : Sealed t)
    (he : tcacheHandleException c jpc t = .ok e') : Entering c e' rank := by
  obtain ⟨t', hf, he⟩ := Except.bind_eq_ok.mp he
  cases he
  obtain ⟨q, t₁, rfl, hq, h', hs'⟩ := h.fetch (by simp) hf
  refine ⟨h'.of_eq rfl rfl rfl rfl rfl, rfl, hs.congr hs'.code hs'.tcIdx, ?_⟩
  change Entrance (t₁.update .ex (setLink true q)).code rank q
  rw [hs'.code]
  exact hq

theorem entering_handleFlush (h : Ranked c t rank) (he : tcacheHandleFlush c pc t = .ok e') :
    Entering c e' rank :=
  entering_handleException (ranked_flush h).1 (ranked_flush h).2 he

theorem entering_full (h : Ranked c t rank) (he : tcacheFull c pc t = .ok e') :
    Entering c e' rank ∧ (∃ r, e'.cur = .record r) ∧ e'.decoded = false := by
  obtain ⟨⟨s, t'⟩, hn, he⟩ := Except.bind_eq_ok.mp he
  cases he
  obtain ⟨h₁, hs₁⟩ := ranked_flush h
  obtain ⟨r, rfl, h₂, hs₂⟩ := h₁.bbNew hn
  exact ⟨⟨h₂.of_eq rfl rfl rfl rfl rfl, rfl, hs₁.congr hs₂.code hs₂.tcIdx, trivial⟩, ⟨r, rfl⟩, rfl⟩

end Engine

section Building

variable {δ : Type} {c : TraceConfig} {t t' : Tcache δ} {rank : Nat → Nat} {pc start : Word}

theorem Ranked.grown (h : Ranked c t rank) (hlt : t.tcIdx < c.tcacheSize) (pc : Word) :
    Ranked c (grown pc t) rank := by
  have hcode := grown_code pc t
  have hpool : ∀ i, (Nemu.grown pc t).pool i =
      if i = t.tcIdx then tcacheEntryInit pc else t.pool i := by
    intro i
    simp only [Nemu.grown, Function.update_apply]
  have hold : ∀ i, i < (Nemu.grown pc t).tcIdx → i ≠ t.tcIdx → i < t.tcIdx := by
    intro i hi hne
    have hidx : (Nemu.grown pc t).tcIdx = t.tcIdx + 1 := rfl
    omega
  refine ⟨hlt, h.undecoded, h.head, h.free, h.source, ?_, ?_, ?_, ?_, ?_, ?_⟩
  · rw [hcode]
    exact h.blocks
  · intro i hi
    rw [hcode, hpool]
    split
    · exact .inl trivial
    · next hne => exact h.tnext i (hold i hi hne)
  · intro i hi
    rw [hcode, hpool]
    split
    · exact .inl trivial
    · next hne => exact h.ntnext i (hold i hi hne)
  · rw [hcode]
    exact h.low
  · rw [hcode]
    exact h.high
  · rw [hcode]
    exact h.succ

theorem Ranked.filled (h : Ranked c t rank) (hg : Growing t rank k b r i start pc)
    (d : Decoded δ) : Ranked c (filled i d t) (Function.update rank i k) := by
  have hi : i < t.tcIdx := by
    rw [hg.tcIdx]
    exact Nat.lt_succ_self i
  have hcode := filled_code hi rfl d
  have hne : ∀ j x, t.code j = some x → j ≠ i := by
    rintro j x hj rfl
    rw [Tcache.code_eq_none hg.body] at hj
    cases hj
  have hold : ∀ j x, j ≠ i → (Nemu.filled i d t).code j = some x → t.code j = some x := by
    intro j x hj hx
    rwa [hcode, Function.update_of_ne hj] at hx
  have hgrow : ∀ j x, t.code j = some x → (Nemu.filled i d t).code j = some x ∧
      Function.update rank i k j = rank j := by
    intro j x hj
    refine ⟨filled_grow hi hg.body d j x hj, ?_⟩
    rw [Function.update_of_ne (hne j x hj)]
  have hpool : ∀ j, ((Nemu.filled i d t).pool j).tnext = (t.pool j).tnext ∧
      ((Nemu.filled i d t).pool j).ntnext = (t.pool j).ntnext := by
    intro j
    rw [filled_pool]
    split
    · next e =>
      subst e
      exact ⟨rfl, rfl⟩
    · exact ⟨rfl, rfl⟩
  refine ⟨h.size, h.undecoded, h.head, h.free, h.source, ?_, ?_, ?_, ?_, ?_, ?_⟩
  · exact fun l x hx => (h.blocks l x hx).mono hgrow
  · intro j hj
    rw [(hpool j).1]
    exact (h.tnext j hj).mono hgrow
  · intro j hj
    rw [(hpool j).2]
    exact (h.ntnext j hj).mono hgrow
  · intro j x hx
    by_cases e : j = i
    · rw [e, Function.update_self]
      exact hg.low
    · rw [Function.update_of_ne e]
      exact h.low j x (hold j x e hx)
  · intro j x hx
    by_cases e : j = i
    · rw [e, Function.update_self]
      exact hg.high
    · rw [Function.update_of_ne e]
      exact h.high j x (hold j x e hx)
  · intro j a d' x hj hN hx
    -- nothing is decoded after place `i`, which is the last one in use
    have hji : j ≠ i := by
      rintro rfl
      have hlt := Tcache.code_lt hx
      change j + 1 < t.tcIdx at hlt
      rw [hg.tcIdx] at hlt
      exact absurd hlt (Nat.lt_irrefl _)
    have hj' := hold j _ hji hj
    rw [Function.update_of_ne hji]
    by_cases e : j + 1 = i
    · rw [e, Function.update_self]
      exact hg.succ j a d' e.symm hj' hN
    · rw [Function.update_of_ne e]
      exact h.succ j a d' x hj' hN (hold _ x e hx)

theorem Ranked.insert (h : Ranked c t rank) (hs : Entrance t.code rank s)
    (hi : bbInsert c pc s t = some t') :
    Ranked c t' rank ∧ t' = { t with
      bbList := t'.bbList, bbIdx := t'.bbIdx, built := t.built + 1 } := by
  obtain ⟨he, hmem⟩ := bbInsert_spec hi
  have hb : ∀ k, ∀ b ∈ t'.bbList k, Entrance t.code rank b.s := by
    intro k b hb
    obtain hb | rfl := hmem k b hb
    · exact h.blocks k b hb
    · exact hs
  refine ⟨?_, he⟩
  rw [he]
  exact (h.buckets hb).of_eq rfl rfl rfl rfl rfl

theorem Ranked.link (h : Ranked c t rank) (hi : t.code i = some (pc, d))
    (hl : tcacheLink c (.pool i) d t = .ok t') : Ranked c t' rank ∧ Same t t' := by
  have hp : ∀ r, Ptr.pool i ≠ .record r := by simp
  unfold tcacheLink at hl
  cases hty : d.type with
  | N =>
    rw [hty] at hl
    cases hl
  | J =>
    rw [hty] at hl
    obtain ⟨_, _, _, _, h', hs⟩ := h.fetch hp hl
    exact ⟨h', hs⟩
  | B =>
    rw [hty] at hl
    obtain ⟨t₁, h1, h2⟩ := Except.bind_eq_ok.mp hl
    obtain ⟨_, _, _, _, h₁, hs₁⟩ := h.fetch hp h1
    obtain ⟨_, _, _, _, h₂, hs₂⟩ := h₁.fetch hp h2
    exact ⟨h₂, hs₁.trans hs₂⟩
  | I =>
    rw [hty] at hl
    cases hl
    have hself : LinksOnly fun x : Entry δ => { x with tnext := .pool i, ntnext := .pool i } :=
      fun x => ⟨rfl, rfl⟩
    have hlink : Link t.code rank i (.pool i) := .inr ⟨rfl, pc, d, hi, hty⟩
    exact ⟨h.update_pool hself (fun _ => hlink) (fun _ => hlink), .update _ _ hself⟩

theorem Ranked.new (h : Ranked c t rank) (hn : tcacheNew c pc t = some (p, t')) :
    p = .pool t.tcIdx ∧ t' = Nemu.grown pc t ∧ Ranked c t' rank := by
  obtain ⟨rfl, rfl⟩ := tcacheNew_eq hn
  refine ⟨rfl, rfl, h.grown ?_ pc⟩
  unfold tcacheNew at hn
  split at hn
  · cases hn
  · next hne => exact Nat.lt_of_le_of_ne h.size hne

/-- A block begins at the last place of the pool. -/
theorem Growing.begin (hs : Sealed t) (rank : Nat → Nat) (pc : Word) (r : Nat) :
    Growing { grown pc t with
      bbNow := .pool t.tcIdx, bbNowRecord := .record r, state := .building }
      rank 1 t.tcIdx r t.tcIdx pc pc := by
  have hpool : (grown pc t).pool t.tcIdx = tcacheEntryInit pc := Function.update_self ..
  refine ⟨rfl, rfl, rfl, .nil, ?_, ?_, ?_, ?_, Nat.le_refl 1, Nat.le_add_left 1 _⟩
  · exact congrArg Entry.pc hpool
  · exact congrArg Entry.body hpool
  · rw [if_pos rfl]
  · intro j a d hj hd hN
    have hd' : (grown pc t).code j = some (a, d) := hd
    rw [grown_code] at hd'
    exact absurd hN (hs j a d hj hd')

theorem Growing.snoc (hg : Growing t rank k b r i start pc) (hN : d.type = .N) :
    Growing (grown d.snpc (filled i d t)) (Function.update rank i k) (k + 1) b r (i + 1) start
      d.snpc := by
  have hi : i < t.tcIdx := by
    rw [hg.tcIdx]
    exact Nat.lt_succ_self i
  have hle := hg.code.le
  have hidx : (filled i d t).tcIdx = i + 1 := hg.tcIdx
  have hpool : (grown d.snpc (filled i d t)).pool (i + 1) = tcacheEntryInit d.snpc := by
    simp only [grown, hidx, Function.update_self]
  refine ⟨hg.bbNow, hg.bbNowRecord, ?_, ?_, ?_, ?_, ?_, ?_, ?_, ?_⟩
  · simp only [grown, hidx]
  · rw [grown_code]
    apply Open.snoc (hg.code.mono (filled_grow hi hg.body d)) _ hN
    rw [filled_code hi hg.pc, Function.update_self]
  · exact congrArg Entry.pc hpool
  · exact congrArg Entry.body hpool
  · rw [if_neg (by omega)]
    have hfirst := hg.first
    by_cases e : b = i
    · rw [e, Function.update_self]
      rwa [if_pos e] at hfirst
    · rw [Function.update_of_ne e]
      rwa [if_neg e] at hfirst
  · intro j a d' hj _ _
    obtain rfl : j = i := by omega
    rw [Function.update_self]
  · exact Nat.le_add_left 1 k
  · exact Nat.succ_le_succ hg.high

theorem Growing.finish (hg : Growing t rank k b r i start pc) (hN : d.type ≠ .N) :
    Entrance (filled i d t).code (Function.update rank i k) (.pool b) ∧
      (filled i d t).code i = some (pc, d) := by
  have hi : i < t.tcIdx := by
    rw [hg.tcIdx]
    exact Nat.lt_succ_self i
  have hcode : (filled i d t).code i = some (pc, d) := by
    rw [filled_code hi hg.pc, Function.update_self]
  have hdone := (hg.code.mono (filled_grow hi hg.body d)).close (.last hcode hN)
  have hfirst := hg.first
  refine ⟨⟨⟨start, hdone⟩, ?_⟩, hcode⟩
  by_cases e : b = i
  · rw [e, Function.update_self]
    rwa [if_pos e] at hfirst
  · rw [Function.update_of_ne e]
    rwa [if_neg e] at hfirst

end Building

namespace Engine

variable {δ : Type} {c : TraceConfig} {t t' : Tcache δ} {e e' : Engine δ} {rank : Nat → Nat}
  {pc jpc start : Word}

/-- `tcache_decode` ends with the instruction `cur` in hand, as the `k`-th of its block, or with
a record in an empty trace cache. -/
def Decodes (c : TraceConfig) (e : Engine δ) (rank : Nat → Nat) (k i : Nat) : Prop :=
  e.decoded = true ∧ e.cur = .pool i ∧ Ranked c e.tc rank ∧ e.Standing rank (k + 1) ∧
      e.before rank (k + 1) = k - 1 ∨
    e.decoded = false ∧ (∃ r, e.cur = .record r) ∧ Entering c e rank

theorem Decodes.of_full (h : Ranked c t rank) (he : tcacheFull c pc t = .ok e') :
    Decodes c e' rank k i := by
  obtain ⟨h', hr, hd⟩ := entering_full h he
  exact .inr ⟨hd, hr, h'⟩

theorem before_of_code (hcur : e.cur = .pool i) (hi : e.tc.code i = some (a, d)) :
    e.before rank k = rank i - 1 := by
  unfold Engine.before
  rw [hcur]
  simp only [(Tcache.body_of_code hi).2, Option.isSome_some, ↓reduceIte]

theorem decodes_endOfBb (h : Ranked c t rank) (hb : t.bbNow = .pool b)
    (hr : t.bbNowRecord = .record r) (hin : Entrance t.code rank (.pool b))
    (hi : t.code i = some (pc, d)) (hidx : t.tcIdx = i + 1) (hk : rank i = k)
    (hN : d.type ≠ .N) (he : tcacheEndOfBb c (.pool i) d thispc t = .ok e') :
    Decodes c e' rank k i := by
  unfold tcacheEndOfBb at he
  rw [hb] at he
  obtain ⟨x, hx, he⟩ := Except.bind_eq_ok.mp he
  cases hx
  cases hins : bbInsert c (t.pool b).pc (.pool b) t with
  | none =>
    rw [hins] at he
    exact .of_full h he
  | some t₁ =>
    rw [hins] at he
    obtain ⟨h₁, ht₁⟩ := h.insert hin hins
    have hb₁ : t₁.bbNow = .pool b := by rw [ht₁, hb]
    have hr₁ : t₁.bbNowRecord = .record r := by rw [ht₁, hr]
    have hidx₁ : t₁.tcIdx = i + 1 := by rw [ht₁, hidx]
    have hcode₁ : t₁.code = t.code := by
      rw [ht₁]
      rfl
    dsimp only at he
    rw [hb₁, hr₁] at he
    obtain ⟨t₂, hfree, he⟩ := Except.bind_eq_ok.mp he
    obtain ⟨t₃, hlink, he⟩ := Except.bind_eq_ok.mp he
    cases he
    rw [← hcode₁] at hin hi
    obtain ⟨h₂, hs₂⟩ := h₁.patchAndFree hin hfree
    have h₂' : Ranked c { t₂ with bbNow := .null, bbNowRecord := .null } rank :=
      h₂.of_eq rfl rfl rfl rfl rfl
    have hi₂ : Tcache.code { t₂ with bbNow := .null, bbNowRecord := .null } i = some (pc, d) := by
      rw [← hi, ← hs₂.code]
      rfl
    obtain ⟨h₃, hs₃⟩ := h₂'.link hi₂ hlink
    have hi₃ : t₃.code i = some (pc, d) := by rw [hs₃.code, hi₂]
    have hidx₃ : t₃.tcIdx = i + 1 := by rw [hs₃.tcIdx, ← hidx₁, ← hs₂.tcIdx]
    have hsealed : Sealed t₃ := by
      intro j a d' hj hd'
      obtain rfl : i = j := by omega
      rw [hi₃] at hd'
      cases hd'
      exact hN
    refine .inl ⟨rfl, rfl, h₃.of_eq rfl rfl rfl rfl rfl, ⟨hsealed, pc, .last hi₃ hN⟩, ?_⟩
    rw [before_of_code (i := i) rfl hi₃, hk]

theorem decodes_decodeAt (h : Ranked c t rank) (hst : t.state = .building)
    (hg : Growing t rank k b r i start pc)
    (he : tcacheDecodeAt c (.ok d) (.pool i) thispc t = .ok e') :
    Decodes c e' (Function.update rank i k) k i := by
  have hi : i < t.tcIdx := by
    rw [hg.tcIdx]
    exact Nat.lt_succ_self i
  have h₁ := h.filled hg d
  have hi₁ : (filled i d t).code i = some (pc, d) := by
    rw [filled_code hi hg.pc, Function.update_self]
  rw [decodeAt_ok] at he
  split at he
  · next hN =>
    cases hnew : tcacheNew c d.snpc (filled i d t) with
    | none =>
      rw [hnew] at he
      exact .of_full h₁ he
    | some x =>
      rw [hnew] at he
      obtain ⟨next, t₂⟩ := x
      obtain ⟨rfl, rfl, h₂⟩ := h₁.new hnew
      dsimp only at he
      split at he
      · cases he
        have hst' : (grown d.snpc (filled i d t)).state = .building := hst
        have hi₂ : (grown d.snpc (filled i d t)).code i = some (pc, d) := by
          rw [grown_code]
          exact hi₁
        refine .inl ⟨rfl, rfl, h₂, ?_, ?_⟩
        · unfold Standing
          rw [hst']
          exact ⟨b, r, i + 1, start, d.snpc, hg.snoc hN, .inr ⟨i, pc, d, rfl, rfl, hi₂, hN⟩⟩
        · rw [before_of_code (i := i) rfl hi₂, Function.update_self]
      · cases he
  · next hN =>
    obtain ⟨hin, _⟩ := hg.finish hN
    exact decodes_endOfBb h₁ hg.bbNow hg.bbNowRecord hin hi₁ hg.tcIdx (Function.update_self ..)
      hN he

/-- What `tcache_decode` has come to before `fetch_decode`, for the `k`-th instruction of a
block. -/
def Starts (c : TraceConfig) (rank : Nat → Nat) (k : Nat) : Decoding δ → Prop
  | .hit e => Entering c e rank ∧ k = 1
  | .full _ t => Ranked c t rank ∧ k = 1
  | .place s _ t => t.state = .building ∧ Ranked c t rank ∧
      ∃ b r i start pc, s = .pool i ∧ Growing t rank k b r i start pc

theorem before_of_record (hcur : e.cur = .record r) : e.before rank k = 0 := by
  unfold Engine.before
  rw [hcur]

theorem before_of_growing (hg : Growing e.tc rank k b r i start pc) (hcur : e.cur = .pool i) :
    e.before rank k = k - 1 := by
  unfold Engine.before
  rw [hcur]
  simp only [hg.body, Option.isSome_none, Bool.false_eq_true, ↓reduceIte]

theorem starts_decode (h : Ranked c e.tc rank) (hs : e.Standing rank k)
    (hx : e.tc.deref e.cur = .ok x) (hbody : x.body = none)
    (hd : tcacheDecodeStart c e.cur e.tc = .ok dec) :
    Starts c rank (if e.tc.state = .running then 1 else k) dec ∧
      e.before rank k + 1 = if e.tc.state = .running then 1 else k := by
  have hsealed := hs.sealed
  unfold tcacheDecodeStart at hd
  rw [hx] at hd
  unfold Standing at hs
  cases hst : e.tc.state with
  | building =>
    rw [hst] at hs
    rw [if_neg (by simp)]
    obtain ⟨b, r, i, start, pc, hg, hcur | ⟨j, a, d, _, hcur, hj, _⟩⟩ := hs
    · simp only [hst, bind, Except.bind, pure, Except.pure] at hd
      cases hd
      have hlow := hg.low
      refine ⟨⟨hst, h, b, r, i, start, pc, hcur, hg⟩, ?_⟩
      rw [before_of_growing hg hcur]
      omega
    · rw [hcur] at hx
      cases hx
      rw [(Tcache.body_of_code hj).2] at hbody
      cases hbody
  | running =>
    rw [hst] at hs
    rw [if_pos rfl]
    obtain ⟨_, hs⟩ := hs
    cases hcur : e.cur with
    | pool i =>
      rw [hcur] at hs hx
      cases hx
      obtain ⟨pc, hdone⟩ := hs
      obtain ⟨d, hd'⟩ := hdone.exists_code
      rw [(Tcache.body_of_code hd').2] at hbody
      cases hbody
    | record r =>
      rw [hcur] at hx hd
      cases hx
      refine ⟨?_, by rw [before_of_record hcur]⟩
      cases hfind : bbFind c (e.tc.records r).pc e.tc with
      | mk o t₁ =>
        obtain ⟨h₁, hs₁, _, hin⟩ := h.find hfind
        have hsealed₁ := hsealed.congr hs₁.code hs₁.tcIdx
        simp only [hst, bind, Except.bind] at hd
        rw [hfind] at hd
        cases o with
        | some bb =>
          obtain ⟨t₂, hfree, hd⟩ := Except.bind_eq_ok.mp hd
          cases hd
          have hin₁ := hin bb rfl
          rw [← hs₁.code] at hin₁
          obtain ⟨h₂, hs₂⟩ := h₁.patchAndFree hin₁ hfree
          rw [← hs₂.code] at hin₁
          exact ⟨⟨h₂, by rw [hs₂.state, hs₁.state, hst], hsealed₁.congr hs₂.code hs₂.tcIdx, hin₁⟩,
            rfl⟩
        | none =>
          dsimp only at hd
          cases hnew : tcacheNew c (e.tc.records r).pc t₁ with
          | none =>
            rw [hnew] at hd
            cases hd
            exact ⟨h₁, rfl⟩
          | some y =>
            rw [hnew] at hd
            obtain ⟨n, t₂⟩ := y
            obtain ⟨rfl, rfl, h₂⟩ := h₁.new hnew
            cases hd
            exact ⟨rfl, h₂.of_eq rfl rfl rfl rfl rfl, t₁.tcIdx, r, t₁.tcIdx, _, _, rfl,
              .begin hsealed₁ rank _ r⟩
    | ex =>
      rw [hcur] at hs
      exact hs.elim
    | _ =>
      rw [hcur] at hx
      cases hx

theorem standing_fault (h : Ranked c t rank) (hst : t.state = .building)
    (hg : Growing t rank k b r i start pc) :
    Ranked c t (Function.update rank i k) ∧
      Standing ⟨t, .pool i, false⟩ (Function.update rank i k) k := by
  have hg' : Growing t (Function.update rank i k) k b r i start pc := by
    refine ⟨hg.bbNow, hg.bbNowRecord, hg.tcIdx, hg.code, hg.pc, hg.body, ?_, ?_, hg.low, hg.high⟩
    · have hfirst := hg.first
      by_cases e : b = i
      · rwa [if_pos e] at hfirst ⊢
      · rw [if_neg e] at hfirst
        rwa [if_neg e, Function.update_of_ne e]
    · intro j a d hj hd hN
      rw [Function.update_of_ne (by omega)]
      exact hg.succ j a d hj hd hN
  refine ⟨h.rerank ?_, ?_⟩
  · intro j x hx
    apply Function.update_of_ne
    rintro rfl
    rw [Tcache.code_eq_none hg.body] at hx
    cases hx
  · unfold Standing
    dsimp only
    rw [hst]
    exact ⟨b, r, i, start, pc, hg', .inl rfl⟩

/-- A decoded instruction is reached in a finished block, or in the one under construction right
before the place to be decoded. -/
theorem Standing.at_body (h : Ranked c e.tc rank) (hs : e.Standing rank k)
    (hx : e.tc.deref e.cur = .ok x) (hbody : x.body = some d) :
    ∃ i, e.cur = .pool i ∧ x = e.tc.pool i ∧ e.tc.code i = some (x.pc, d) ∧
      (e.tc.state = .running ∧ Done e.tc.code i x.pc ∨ e.tc.state = .building ∧ d.type = .N ∧
        ∃ b r start pc, Growing e.tc rank k b r (i + 1) start pc) := by
  unfold Standing at hs
  cases hst : e.tc.state with
  | building =>
    rw [hst] at hs
    obtain ⟨b, r, i, start, pc, hg, hcur | ⟨j, a, d', rfl, hcur, hj, hN⟩⟩ := hs
    · rw [hcur] at hx
      cases hx
      rw [hg.body] at hbody
      cases hbody
    · rw [hcur] at hx
      cases hx
      obtain ⟨rfl, hd⟩ := Tcache.body_of_code hj
      rw [hd] at hbody
      cases hbody
      exact ⟨j, hcur, rfl, hj, .inr ⟨rfl, hN, b, r, start, pc, hg⟩⟩
  | running =>
    rw [hst] at hs
    obtain ⟨_, hs⟩ := hs
    cases hcur : e.cur with
    | pool i =>
      rw [hcur] at hs hx
      cases hx
      obtain ⟨pc, hdone⟩ := hs
      obtain ⟨d', hd'⟩ := hdone.exists_code
      obtain ⟨rfl, hd⟩ := Tcache.body_of_code hd'
      rw [hd] at hbody
      cases hbody
      exact ⟨i, rfl, rfl, hd', .inl ⟨rfl, hdone⟩⟩
    | record r =>
      rw [hcur] at hx
      cases hx
      rw [h.undecoded] at hbody
      cases hbody
    | ex =>
      rw [hcur] at hs
      exact hs.elim
    | _ =>
      rw [hcur] at hx
      cases hx

/-- An executed instruction is the one after those before it in its block. -/
theorem rank_of_body (h : Ranked c e.tc rank) (hs : e.Standing rank k)
    (hx : e.tc.deref e.cur = .ok x) (hbody : x.body = some d) :
    ∃ i, e.cur = .pool i ∧ rank i = e.before rank k + 1 ∧ rank i ≤ c.tcacheSize := by
  obtain ⟨i, hcur, rfl, hi, _⟩ := hs.at_body h hx hbody
  have hlow := h.low i _ hi
  have hhigh := h.high i _ hi
  have hlt := Tcache.code_lt hi
  have hsize := h.size
  refine ⟨i, hcur, ?_, by omega⟩
  rw [before_of_code hcur hi]
  omega

theorem standing_next (h : Ranked c e.tc rank) (hs : e.Standing rank k)
    (hx : e.tc.deref e.cur = .ok x) (hbody : x.body = some d) (hN : d.type = .N) :
    Standing ⟨e.tc, e.cur.next, false⟩ rank k ∧
      Engine.before ⟨e.tc, e.cur.next, false⟩ rank k = e.before rank k + 1 := by
  have hsealed := hs.sealed
  obtain ⟨i, hcur, rfl, hi, ⟨hst, hdone⟩ | ⟨hst, _, b, r, start, pc, hg⟩⟩ := hs.at_body h hx hbody
  · have hlow := h.low i _ hi
    have hnext : Done e.tc.code (i + 1) d.snpc := by
      cases hdone with
      | last hi' hN' =>
        rw [hi] at hi'
        cases hi'
        exact absurd hN hN'
      | next hi' _ hdone =>
        rw [hi] at hi'
        cases hi'
        exact hdone
    obtain ⟨d', hd'⟩ := hnext.exists_code
    have hsucc := h.succ i _ d _ hi hN hd'
    rw [before_of_code hcur hi, hcur]
    constructor
    · unfold Standing
      dsimp only
      rw [hst]
      exact ⟨hsealed, _, hnext⟩
    · have hbefore : Engine.before ⟨e.tc, .pool (i + 1), false⟩ rank k = rank (i + 1) - 1 :=
        before_of_code rfl hd'
      exact hbefore.trans (by omega)
  · have hlow := h.low i _ hi
    have hk := hg.succ i _ d rfl hi hN
    rw [before_of_code hcur hi, hcur]
    constructor
    · unfold Standing
      dsimp only
      rw [hst]
      exact ⟨b, r, i + 1, start, pc, hg, .inl rfl⟩
    · have hbefore : Engine.before ⟨e.tc, .pool (i + 1), false⟩ rank k = k - 1 :=
        before_of_growing hg rfl
      exact hbefore.trans (by omega)

theorem entering_goto (h : Ranked c e.tc rank) (hs : e.Standing rank k)
    (hst : e.tc.state = .running) (hin : Entrance e.tc.code rank p) :
    Entering c ⟨e.tc, p, false⟩ rank :=
  ⟨h, hst, hs.sealed, hin⟩

/-- An indirect jump is about to follow a link to itself, although it is not the first
instruction of its block. -/
def Circular (e : Engine δ) (rank : Nat → Nat) (k : Nat) (target : Word) : Prop :=
  ∃ i, e.cur = .pool i ∧ (e.tc.pool i).pc = target ∧
    ((e.tc.pool i).tnext = .pool i ∨ (e.tc.pool i).ntnext = .pool i) ∧ e.before rank k ≠ 0

/-- `jr_fetch` returns an entrance, unless it returns the jump itself. -/
theorem ranked_jrFetch (h : Ranked c t rank) (hi : t.code i = some (a, d))
    (hself : (t.pool i).pc = target →
      ((t.pool i).tnext = .pool i ∨ (t.pool i).ntnext = .pool i) → Entrance t.code rank (.pool i))
    (hj : jrFetch c (.pool i) target t = .ok (t', s)) :
    Ranked c t' rank ∧ Same t t' ∧ Entrance t.code rank s := by
  have hlt := Tcache.code_lt hi
  have hlink : ∀ {p y}, Link t.code rank i p → t.deref p = .ok y → y.pc = target →
      (p = .pool i → (t.pool i).tnext = .pool i ∨ (t.pool i).ntnext = .pool i) →
      Entrance t.code rank p := by
    rintro p y (hp | ⟨rfl, _⟩) hy hpc hown
    · exact hp
    · cases hy
      exact hself hpc (hown rfl)
  obtain ⟨x, hx, hj⟩ := Except.bind_eq_ok.mp hj
  cases hx
  obtain ⟨y, hy, hj⟩ := Except.bind_eq_ok.mp hj
  split at hj
  · next hpc =>
    cases hj
    exact ⟨h, .refl t, hlink (h.tnext i hlt) hy hpc .inl⟩
  · obtain ⟨z, hz, hj⟩ := Except.bind_eq_ok.mp hj
    split at hj
    · next hpc =>
      cases hj
      exact ⟨h, .refl t, hlink (h.ntnext i hlt) hz hpc .inr⟩
    · have hf : LinksOnly fun x : Entry δ => { x with ntnext := x.tnext } := fun x => ⟨rfl, rfl⟩
      have h₁ : Ranked c (t.update (.pool i) fun x => { x with ntnext := x.tnext }) rank :=
        h.update_pool hf (h.tnext i) (h.tnext i)
      have hs₁ := Same.update t (.pool i) hf
      obtain ⟨t₂, hfetch, hj⟩ := Except.bind_eq_ok.mp hj
      obtain ⟨x, hx, hj⟩ := Except.bind_eq_ok.mp hj
      cases hx
      cases hj
      obtain ⟨q, t₃, rfl, hq, h₂, hs₂⟩ := h₁.fetch (by simp) hfetch
      refine ⟨h₂, hs₁.trans hs₂, ?_⟩
      have hlast : ((t₃.update (.pool i) (setLink true q)).pool i).tnext = q := by
        simp only [Tcache.update, Function.update_self, setLink, ↓reduceIte]
      rw [hlast, ← hs₁.code]
      exact hq

/-- An instruction that has been decoded makes of the event what it is. -/
def executes : TraceEvent δ → Bool
  | .decode _ | .trap _ => false
  | _ => true

theorem stepBody_of_step (hev : executes ev) (he : e.step c ev = .ok e') :
    ∃ x d, e.tc.deref e.cur = .ok x ∧ x.body = some d ∧ e.stepBody c x d ev = .ok e' := by
  obtain ⟨x, hx, he⟩ := Except.bind_eq_ok.mp he
  cases ev with
  | decode f => cases hev
  | trap jpc => cases hev
  | _ =>
    dsimp only at he
    split at he
    · cases he
    · next d hbody => exact ⟨x, d, hx, hbody, he⟩

/-- The events that end a block, an indirect jump to itself and `ebreak` apart. -/
def Ends (e : Engine δ) (rank : Nat → Nat) (k : Nat) : TraceEvent δ → Prop
  | .jump | .branch _ => True
  | .indirect target _ => ¬ e.Circular rank k target ∧
      ∀ x d, e.tc.deref e.cur = .ok x → x.body = some d → d.type = .I
  | _ => False

theorem entering_step (h : Ranked c e.tc rank) (hs : e.Standing rank k)
    (hev : e.Ends rank k ev) (he : e.step c ev = .ok e') : Entering c e' rank := by
  have hexec : executes ev := by
    cases ev with
    | decode f => exact hev.elim
    | trap jpc => exact hev.elim
    | _ => rfl
  obtain ⟨x, d, hx, hbody, he⟩ := stepBody_of_step hexec he
  obtain ⟨i, hcur, rfl, hi, hplace⟩ := hs.at_body h hx hbody
  have hlt := Tcache.code_lt hi
  -- only a finished block ends, and a link of another instruction than an indirect jump is no
  -- link to itself
  have hrun : d.type ≠ .N → e.tc.state = .running ∧ Done e.tc.code i (e.tc.pool i).pc := by
    intro hN
    obtain hrun | ⟨_, hN', _⟩ := hplace
    · exact hrun
    · exact absurd hN' hN
  have hlink : ∀ {p}, d.type ≠ .I → Link e.tc.code rank i p → Entrance e.tc.code rank p := by
    rintro p hI (hp | ⟨rfl, a, d', hd', hI'⟩)
    · exact hp
    · rw [hi] at hd'
      cases hd'
      exact absurd hI' hI
  cases ev with
  | decode f => exact hev.elim
  | trap jpc => exact hev.elim
  | next => exact hev.elim
  | flush => exact hev.elim
  | jump =>
    simp only [stepBody] at he
    split at he
    · next hJ =>
      cases he
      exact entering_goto h hs (hrun (by simp [hJ])).1 (hlink (by simp [hJ]) (h.tnext i hlt))
    · cases he
  | branch isJmp =>
    simp only [stepBody] at he
    split at he
    · next hB =>
      cases he
      apply entering_goto h hs (hrun (by simp [hB])).1
      cases isJmp with
      | true => exact hlink (by simp [hB]) (h.tnext i hlt)
      | false => exact hlink (by simp [hB]) (h.ntnext i hlt)
    · cases he
  | indirect target flush =>
    obtain ⟨hcirc, hI⟩ := hev
    obtain ⟨hst, hdone⟩ := hrun (by simp [hI _ d hx hbody])
    simp only [stepBody] at he
    split at he
    · unfold privJr at he
      rw [hcur] at he
      obtain ⟨⟨t, s⟩, hj, he⟩ := Except.bind_eq_ok.mp he
      obtain ⟨h', hs', hin⟩ := ranked_jrFetch h hi (fun hpc hown => by
        have hbefore : e.before rank k = rank i - 1 := before_of_code hcur hi
        have hlow := h.low i _ hi
        refine ⟨⟨_, hdone⟩, ?_⟩
        by_contra hne
        exact hcirc ⟨i, hcur, hpc, hown, by omega⟩) hj
      cases flush with
      | true =>
        obtain ⟨x, _, he⟩ := Except.bind_eq_ok.mp he
        exact entering_handleFlush h' he
      | false =>
        cases he
        refine ⟨h', by rw [hs'.state, hst], hs.sealed.congr hs'.code hs'.tcIdx, ?_⟩
        rw [← hs'.code] at hin
        exact hin
    · cases he

theorem standing_step (h : Ranked c e.tc rank) (hs : e.Standing rank k)
    (he : e.step c .next = .ok e') :
    Ranked c e'.tc rank ∧ e'.Standing rank k ∧ e'.before rank k = e.before rank k + 1 := by
  obtain ⟨x, d, hx, hbody, he⟩ := stepBody_of_step rfl he
  simp only [stepBody] at he
  split at he
  · next hN =>
    cases he
    exact ⟨h, standing_next h hs hx hbody hN⟩
  · cases he

theorem ranked_init (h : (init c resetVector : Except TcacheAbort (Engine δ)) = .ok e) :
    Entering c e rank := by
  obtain ⟨⟨s, t⟩, hn, h⟩ := Except.bind_eq_ok.mp h
  cases h
  have hz : Ranked c (zero : Tcache δ) rank := by
    have hcode : ∀ i, (zero : Tcache δ).code i = none := fun i => if_neg (Nat.not_lt_zero i)
    refine ⟨Nat.zero_le _, fun _ => rfl, trivial, fun _ => trivial, fun _ h => absurd rfl h,
      fun _ b hb => absurd hb List.not_mem_nil, fun i hi => absurd hi (Nat.not_lt_zero i),
      fun i hi => absurd hi (Nat.not_lt_zero i), ?_, ?_, ?_⟩
    · exact fun i x hx => by cases (hcode i).symm.trans hx
    · exact fun i x hx => by cases (hcode i).symm.trans hx
    · exact fun i a d x hx => by cases (hcode i).symm.trans hx
  obtain ⟨h₁, hs₁⟩ := ranked_flush hz
  obtain ⟨r, rfl, h₂, hs₂⟩ := h₁.bbNew hn
  exact ⟨h₂, hs₂.state, hs₁.congr hs₂.code hs₂.tcIdx, trivial⟩

end Engine

end Nemu
