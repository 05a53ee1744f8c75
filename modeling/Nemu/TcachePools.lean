import Nemu.Lib.Chain
import Nemu.Lib.Effect
import Nemu.Lib.Run
import Nemu.Tcache

namespace Nemu

set_option autoImplicit true

/-- The decoded instructions with their addresses, by their place in `tcache_pool`. -/
def Tcache.code (t : Tcache δ) (i : Nat) : Option (Word × Decoded δ) :=
  if i < t.tcIdx then (t.pool i).body.map fun d => ((t.pool i).pc, d) else none

/-- From place `i` on lies the rest of a basic block, which begins at the address `pc`. -/
inductive Done (code : Nat → Option (Word × Decoded δ)) : Nat → Word → Prop where
  | last : code i = some (pc, d) → d.type ≠ .N → Done code i pc
  | next : code i = some (pc, d) → d.type = .N → Done code (i + 1) d.snpc → Done code i pc

/-- A block begun at place `b` and address `start` has come to place `i` and address `pc`. -/
inductive Open (code : Nat → Option (Word × Decoded δ)) (b : Nat) (start : Word) :
    Nat → Word → Prop where
  | nil : Open code b start b start
  | snoc : Open code b start i pc → code i = some (pc, d) → d.type = .N →
      Open code b start (i + 1) d.snpc

/-- `p` leads to the block at `pc`, unless it leads nowhere. -/
def Leads (code : Nat → Option (Word × Decoded δ)) (pc : Word) : Ptr → Prop
  | .pool i => Done code i pc
  | .record _ | .ex => False
  | .null | .wild => True

/-- A record of the pool that is not on the free list. -/
def Live (c : TraceConfig) (l : List Nat) (r : Nat) : Prop := r < c.bbSize ∧ r ∉ l

/-- The addresses that the link `ty` of an instruction may lead to. Those of an indirect jump are
compared with the target before they are followed. -/
def Wanted (d : Decoded δ) (ty : RecordType) (pc : Word) : Prop :=
  match d.type, ty with
  | .J, .taken | .B, .taken => pc = d.jnpc
  | .B, .ntaken => pc = d.snpc
  | _, _ => True

/-- Who a record for `pc` may wait for: an instruction with that target, or the trap handling. -/
def Source (t : Tcache δ) (ty : RecordType) (pc : Word) (src : Ptr) : Prop :=
  src = .ex ∨ ∃ i a d, src = .pool i ∧ t.code i = some (a, d) ∧ d.type ≠ .N ∧ Wanted d ty pc

/-- What the link `ty` of `src` may be: when it is a record, then one that is in use and waits to
be replaced in this very link. -/
def Target (c : TraceConfig) (t : Tcache δ) (l : List Nat) (src : Ptr) (ty : RecordType)
    (want : Word → Prop) : Ptr → Prop
  | .record r => Live c l r ∧ (t.records r).type = ty ∧ (t.records r).ntnext = src ∧
      want (t.records r).pc
  | p => ∃ pc, Leads t.code pc p ∧ want pc

/-- The invariant of the pools, with `l` the free list. -/
structure Tidy (c : TraceConfig) (t : Tcache δ) (l : List Nat) : Prop where
  free : Chain .null .record (fun r => (t.records r).tnext) t.freelist l
  nodup : l.Nodup
  bound : ∀ r ∈ l, r < c.bbSize
  undecoded : ∀ r, (t.records r).body = none
  source : ∀ r, Live c l r → (t.records r).type ≠ .none →
    Source t (t.records r).type (t.records r).pc (t.records r).ntnext
  blocks : ∀ h, ∀ b ∈ t.bbList h, Leads t.code b.pc b.s
  tnext : ∀ i pc d, t.code i = some (pc, d) → d.type ≠ .N →
    Target c t l (.pool i) .taken (Wanted d .taken) (t.pool i).tnext
  ntnext : ∀ i pc d, t.code i = some (pc, d) → d.type = .B →
    Target c t l (.pool i) .ntaken (Wanted d .ntaken) (t.pool i).ntnext
  other : ∀ i pc d, t.code i = some (pc, d) → d.type = .I →
    ∃ pc, Leads t.code pc (t.pool i).ntnext
  unlinked : ∀ i pc d, t.code i = some (pc, d) → d.type = .N → (t.pool i).tnext = .null

section Blocks

variable {δ : Type} {code code' : Nat → Option (Word × Decoded δ)}

theorem Done.mono (h : Done code i pc) (hc : ∀ j x, code j = some x → code' j = some x) :
    Done code' i pc := by
  induction h with
  | last h1 h2 => exact .last (hc _ _ h1) h2
  | next h1 h2 _ ih => exact .next (hc _ _ h1) h2 ih

theorem Open.mono (h : Open code b start i pc) (hc : ∀ j x, code j = some x → code' j = some x) :
    Open code' b start i pc := by
  induction h with
  | nil => exact .nil
  | snoc _ h1 h2 ih => exact .snoc ih (hc _ _ h1) h2

/-- The last instruction of a block makes all of it executable. -/
theorem Open.close (h : Open code b start i pc) (hi : Done code i pc) : Done code b start := by
  induction h with
  | nil => exact hi
  | snoc _ h1 h2 ih => exact ih (.next h1 h2 hi)

theorem Open.le (h : Open code b start i pc) : b ≤ i := by
  induction h with
  | nil => exact Nat.le_refl b
  | snoc _ _ _ ih => omega

theorem Done.exists_code (h : Done code i pc) : ∃ d, code i = some (pc, d) := by
  cases h with
  | last h _ => exact ⟨_, h⟩
  | next h _ _ => exact ⟨_, h⟩

theorem Leads.mono (h : Leads code pc p) (hc : ∀ j x, code j = some x → code' j = some x) :
    Leads code' pc p := by
  cases p with
  | pool i => exact Done.mono h hc
  | _ => exact h

end Blocks

section Frame

variable {δ : Type} {c : TraceConfig} {t t' t'' : Tcache δ} {l l' : List Nat} {p src : Ptr}
  {ty : RecordType} {want : Word → Prop}

/-- `t'` differs from `t` only in links, records and the order of the buckets. -/
structure Same (t t' : Tcache δ) : Prop where
  code : t'.code = t.code
  pc : ∀ i, (t'.pool i).pc = (t.pool i).pc
  tcIdx : t'.tcIdx = t.tcIdx
  state : t'.state = t.state
  bbNow : t'.bbNow = t.bbNow
  bbNowRecord : t'.bbNowRecord = t.bbNowRecord
  built : t'.built = t.built
  abandoned : t'.abandoned = t.abandoned

theorem Same.refl (t : Tcache δ) : Same t t := ⟨rfl, fun _ => rfl, rfl, rfl, rfl, rfl, rfl, rfl⟩

theorem Same.trans (h : Same t t') (h' : Same t' t'') : Same t t'' where
  code := h'.code.trans h.code
  pc i := (h'.pc i).trans (h.pc i)
  tcIdx := h'.tcIdx.trans h.tcIdx
  state := h'.state.trans h.state
  bbNow := h'.bbNow.trans h.bbNow
  bbNowRecord := h'.bbNowRecord.trans h.bbNowRecord
  built := h'.built.trans h.built
  abandoned := h'.abandoned.trans h.abandoned

/-- The function `f` changes links only. -/
def LinksOnly (f : Entry δ → Entry δ) : Prop := ∀ x, (f x).pc = x.pc ∧ (f x).body = x.body

theorem linksOnly_setLink (b : Bool) (q : Ptr) : LinksOnly (setLink b q : Entry δ → Entry δ) := by
  intro x
  cases b <;> exact ⟨rfl, rfl⟩

theorem Same.update (t : Tcache δ) (p : Ptr) (hf : LinksOnly f) : Same t (t.update p f) := by
  cases p with
  | pool i =>
    have hpool : ∀ j, ((t.update (.pool i) f).pool j).pc = (t.pool j).pc ∧
        ((t.update (.pool i) f).pool j).body = (t.pool j).body := by
      intro j
      by_cases hj : j = i
      · subst hj
        simpa only [Tcache.update, Function.update_self] using hf _
      · simp only [Tcache.update, Function.update_of_ne hj, and_self]
    refine ⟨?_, fun j => (hpool j).1, rfl, rfl, rfl, rfl, rfl, rfl⟩
    funext j
    unfold Tcache.code
    rw [(hpool j).1, (hpool j).2]
    rfl
  | _ => exact ⟨rfl, fun _ => rfl, rfl, rfl, rfl, rfl, rfl, rfl⟩

theorem Target.mono (h : Target c t l src ty want p)
    (hc : ∀ j x, t.code j = some x → t'.code j = some x)
    (hr : ∀ r, p = .record r → Live c l r → Live c l' r ∧ (t'.records r).type = (t.records r).type ∧
      (t'.records r).ntnext = (t.records r).ntnext ∧ (t'.records r).pc = (t.records r).pc) :
    Target c t' l' src ty want p := by
  cases p with
  | record r =>
    obtain ⟨hl, h1, h2, h3⟩ := h
    obtain ⟨hl', e1, e2, e3⟩ := hr r rfl hl
    exact ⟨hl', e1.trans h1, e2.trans h2, e3 ▸ h3⟩
  | _ =>
    obtain ⟨pc, h1, h2⟩ := h
    exact ⟨pc, h1.mono hc, h2⟩

theorem Target.same (h : Target c t l src ty want p) (hs : Same t t')
    (hr : t'.records = t.records) : Target c t' l src ty want p :=
  h.mono (fun _ _ hj => hs.code ▸ hj) fun r _ hl => ⟨hl, by rw [hr], by rw [hr], by rw [hr]⟩

theorem Target.of_leads (h : Leads t.code pc p) (hw : want pc) : Target c t l src ty want p := by
  cases p with
  | record r => exact h.elim
  | _ => exact ⟨pc, h, hw⟩

theorem Tidy.of_eq (h : Tidy c t l) (hp : t'.pool = t.pool) (hi : t'.tcIdx = t.tcIdx)
    (hr : t'.records = t.records) (hf : t'.freelist = t.freelist) (hb : t'.bbList = t.bbList) :
    Tidy c t' l := by
  cases t
  cases t'
  cases hp
  cases hi
  cases hr
  cases hf
  cases hb
  exact ⟨h.free, h.nodup, h.bound, h.undecoded, h.source, h.blocks, h.tnext, h.ntnext, h.other,
    h.unlinked⟩

end Frame

section Operations

variable {δ : Type} {c : TraceConfig} {t t' : Tcache δ} {l : List Nat} {i : Nat} {pc : Word}

theorem Tidy.update_pool (h : Tidy c t l) (hf : LinksOnly f)
    (hN : ∀ pc d, t.code i = some (pc, d) → d.type ≠ .N)
    (ht : ∀ pc d, t.code i = some (pc, d) → d.type ≠ .N →
      Target c t l (.pool i) .taken (Wanted d .taken) (f (t.pool i)).tnext)
    (hn : ∀ pc d, t.code i = some (pc, d) → d.type = .B →
      Target c t l (.pool i) .ntaken (Wanted d .ntaken) (f (t.pool i)).ntnext)
    (ho : ∀ pc d, t.code i = some (pc, d) → d.type = .I →
      ∃ pc, Leads t.code pc (f (t.pool i)).ntnext) : Tidy c (t.update (.pool i) f) l := by
  have hs := Same.update t (.pool i) hf
  have hpool : ∀ j, (t.update (.pool i) f).pool j = if j = i then f (t.pool i) else t.pool j := by
    intro j
    simp only [Tcache.update, Function.update_apply]
  refine ⟨h.free, h.nodup, h.bound, h.undecoded, ?_, ?_, ?_, ?_, ?_, ?_⟩
  · unfold Source
    rw [hs.code]
    exact h.source
  · rw [hs.code]
    exact h.blocks
  · intro j pc d hj hd
    rw [hs.code] at hj
    rw [hpool]
    split
    · next e =>
      subst e
      exact (ht pc d hj hd).same hs rfl
    · exact (h.tnext j pc d hj hd).same hs rfl
  · intro j pc d hj hd
    rw [hs.code] at hj
    rw [hpool]
    split
    · next e =>
      subst e
      exact (hn pc d hj hd).same hs rfl
    · exact (h.ntnext j pc d hj hd).same hs rfl
  · intro j pc d hj hd
    rw [hs.code] at hj ⊢
    rw [hpool]
    split
    · next e =>
      subst e
      exact ho pc d hj hd
    · exact h.other j pc d hj hd
  · intro j pc d hj hd
    rw [hs.code] at hj
    rw [hpool, if_neg]
    · exact h.unlinked j pc d hj hd
    · rintro rfl
      exact hN pc d hj hd

theorem Tidy.update_ex (h : Tidy c t l) (f : Entry δ → Entry δ) : Tidy c (t.update .ex f) l :=
  h.of_eq rfl rfl rfl rfl rfl

theorem bbSwap_spec (h : bbSwap head pc l₁ = some (b, l₂)) :
    b ∈ l₁ ∧ b.pc = pc ∧ ∀ x ∈ l₂, x = head ∨ x ∈ l₁ := by
  induction l₁ generalizing l₂ with
  | nil => cases h
  | cons a l₁ ih =>
    rw [bbSwap] at h
    split at h
    · next ha =>
      cases h
      exact ⟨List.mem_cons_self, ha, fun x hx => (List.mem_cons.mp hx).imp_right
        (List.mem_cons_of_mem _)⟩
    · obtain ⟨⟨f, l₃⟩, h1, h2⟩ := Option.map_eq_some_iff.mp h
      cases h2
      obtain ⟨hb, hpc, hl⟩ := ih h1
      refine ⟨List.mem_cons_of_mem _ hb, hpc, fun x hx => ?_⟩
      obtain rfl | hx := List.mem_cons.mp hx
      · exact .inr List.mem_cons_self
      · exact (hl x hx).imp_right (List.mem_cons_of_mem _)

/-- What `bb_find` returns is in its bucket, apart from the unused head that it finds for the
address `-1`, and no bucket gets a new entry. -/
theorem bbFind_spec (h : bbFind c pc t = (o, t')) :
    t' = { t with bbList := t'.bbList } ∧ (∀ i, ∀ b ∈ t'.bbList i, b ∈ t.bbList i) ∧
      ∀ q, o = some q → q = .wild ∧ pc = -1 ∨ ∃ b ∈ t.bbList (bbHash c pc), b.s = q ∧ b.pc = pc := by
  unfold bbFind at h
  dsimp only at h
  cases hl : t.bbList (bbHash c pc) with
  | nil =>
    rw [hl] at h
    cases h
    refine ⟨rfl, fun _ _ hb => hb, fun q hq => ?_⟩
    split at hq
    · next hpc =>
      cases hq
      exact .inl ⟨rfl, hpc⟩
    · cases hq
  | cons head tail =>
    rw [hl] at h
    dsimp only at h
    split at h
    · next hpc =>
      cases h
      refine ⟨rfl, fun _ _ hb => hb, fun q hq => ?_⟩
      cases hq
      exact .inr ⟨head, List.mem_cons_self, rfl, hpc⟩
    · cases hsw : bbSwap head pc tail with
      | none =>
        rw [hsw] at h
        cases h
        exact ⟨rfl, fun _ _ hb => hb, fun q hq => by cases hq⟩
      | some r =>
        obtain ⟨b, tail'⟩ := r
        rw [hsw] at h
        cases h
        obtain ⟨hb, hpc, hmem⟩ := bbSwap_spec hsw
        refine ⟨rfl, fun i x hx => ?_, fun q hq => ?_⟩
        · dsimp only at hx
          by_cases hi : i = bbHash c pc
          · subst hi
            rw [Function.update_self] at hx
            rw [hl]
            obtain rfl | hx := List.mem_cons.mp hx
            · exact List.mem_cons_of_mem _ hb
            · obtain rfl | hx := hmem x hx
              · exact List.mem_cons_self
              · exact List.mem_cons_of_mem _ hx
          · rwa [Function.update_of_ne hi] at hx
        · cases hq
          exact .inr ⟨b, List.mem_cons_of_mem _ hb, rfl, hpc⟩

theorem Tidy.buckets (h : Tidy c t l) (hb : ∀ i, ∀ b ∈ bl i, Leads t.code b.pc b.s) :
    Tidy c { t with bbList := bl } l :=
  ⟨h.free, h.nodup, h.bound, h.undecoded, h.source, hb, h.tnext, h.ntnext, h.other, h.unlinked⟩

theorem Tidy.find (h : Tidy c t l) (hf : bbFind c pc t = (o, t')) :
    Tidy c t' l ∧ Same t t' ∧ t'.records = t.records ∧ t'.ex = t.ex ∧
      ∀ q, o = some q → Leads t.code pc q := by
  obtain ⟨he, hmem, hq⟩ := bbFind_spec hf
  rw [he]
  refine ⟨h.buckets fun i b hb => h.blocks i b (hmem i b hb),
    ⟨rfl, fun _ => rfl, rfl, rfl, rfl, rfl, rfl, rfl⟩, rfl, rfl, fun q hq' => ?_⟩
  obtain ⟨rfl, _⟩ | ⟨b, hb, rfl, rfl⟩ := hq q hq'
  · trivial
  · exact h.blocks _ b hb

theorem Ptr.record_injective : Function.Injective Ptr.record := by
  intro a b h
  cases h
  rfl

theorem Tidy.pop (h : Tidy c t l) (hn : tcacheBbNew c pc t = .ok (p, t')) :
    ∃ r l', l = r :: l' ∧ p = .record r ∧ t' = { t with
      freelist := (t.records r).tnext
      records := Function.update t.records r (tcacheEntryInit pc) } := by
  unfold tcacheBbNew at hn
  split at hn
  · cases hn
  · next hnull =>
    have hfree := h.free
    cases hl : t.freelist with
    | record r =>
      obtain ⟨l', hl', _⟩ := hfree.pop hl Ptr.record_injective (by simp)
      refine ⟨r, l', hl', ?_⟩
      simp only [hl, Tcache.deref, Except.bind_eq_ok] at hn
      obtain ⟨s, hs, _, _, hn⟩ := hn
      cases hs
      cases hn
      exact ⟨rfl, rfl⟩
    | null => exact absurd hl hnull
    | _ =>
      rw [hl] at hfree
      cases hfree

/-- A record that has just been taken is in use, and nothing points to it. -/
theorem Tidy.taken (h : Tidy c t (r :: l)) (hx : x.body = none)
    (hsrc : x.type ≠ .none → Source t x.type x.pc x.ntnext) :
    Tidy c { t with
      freelist := (t.records r).tnext
      records := Function.update t.records r x } l ∧ Live c l r := by
  obtain ⟨hr, hnd⟩ := List.nodup_cons.mp h.nodup
  have hne : ∀ r', r' ∉ r :: l → r' ≠ r := fun r' hr' e => hr' (e ▸ List.mem_cons_self)
  have hlive : ∀ r', Live c (r :: l) r' → Live c l r' :=
    fun r' hl => ⟨hl.1, fun hm => hl.2 (List.mem_cons_of_mem r hm)⟩
  have htarget : ∀ {src ty want p}, Target c t (r :: l) src ty want p →
      Target c { t with
        freelist := (t.records r).tnext
        records := Function.update t.records r x } l src ty want p := by
    intro src ty want p hp
    refine hp.mono (fun _ _ hj => hj) fun r' _ hl => ⟨hlive r' hl, ?_⟩
    simp only [Function.update_of_ne (hne r' hl.2), and_self]
  obtain ⟨_, hchain⟩ := h.free.uncons
  refine ⟨⟨?_, hnd, fun r' hr' => h.bound r' (List.mem_cons_of_mem r hr'), ?_, ?_, h.blocks,
    fun i pc d hi hd => htarget (h.tnext i pc d hi hd),
    fun i pc d hi hd => htarget (h.ntnext i pc d hi hd), h.other, h.unlinked⟩,
    h.bound r List.mem_cons_self, hr⟩
  · apply hchain.congr
    intro r' hr'
    have e : r' ≠ r := fun e => hr (e ▸ hr')
    dsimp only
    rw [Function.update_of_ne e]
  · intro r'
    dsimp only
    by_cases e : r' = r
    · subst e
      rw [Function.update_self]
      exact hx
    · rw [Function.update_of_ne e]
      exact h.undecoded r'
  · intro r' hl hty
    dsimp only at hty ⊢
    by_cases e : r' = r
    · subst e
      rw [Function.update_self] at hty ⊢
      exact hsrc hty
    · rw [Function.update_of_ne e] at hty ⊢
      exact h.source r' ⟨hl.1, fun hm => (List.mem_cons.mp hm).elim e hl.2⟩ hty

/-- The record that `tcache_bb_fetch` makes for a target without a block. -/
def newRecord (this : Ptr) (isTaken : Bool) (jpc : Word) : Entry δ :=
  { tcacheEntryInit jpc with type := if isTaken then .taken else .ntaken, ntnext := this }

/-- `tcache_bb_fetch` finds the block of the target, or takes a record for it. -/
theorem Tidy.fetch (h : Tidy c t l) (hthis : Source t (if b then .taken else .ntaken) jpc this)
    (hf : tcacheBbFetch c this b jpc t = .ok t') :
    (∃ q t₁, t' = t₁.update this (setLink b q) ∧ Tidy c t₁ l ∧ Same t t₁ ∧ t₁.pool = t.pool ∧
      Leads t.code jpc q) ∨
    ∃ r l' t₁, l = r :: l' ∧ t' = t₁.update this (setLink b (.record r)) ∧ Tidy c t₁ l' ∧
      Same t t₁ ∧ t₁.pool = t.pool ∧ Live c l' r ∧ t₁.records r = newRecord this b jpc := by
  unfold tcacheBbFetch at hf
  cases hfind : bbFind c jpc t with
  | mk o t₀ =>
    rw [hfind] at hf
    obtain ⟨h₀, hs, _, _, hlead⟩ := h.find hfind
    obtain ⟨he, _⟩ := bbFind_spec hfind
    have hpool : t₀.pool = t.pool := by rw [he]
    cases o with
    | some q =>
      cases hf
      exact .inl ⟨q, t₀, rfl, h₀, hs, hpool, hlead q rfl⟩
    | none =>
      obtain ⟨⟨p, t₁⟩, hnew, hf⟩ := Except.bind_eq_ok.mp hf
      obtain ⟨r, l', rfl, rfl, rfl⟩ := h₀.pop hnew
      cases hf
      obtain ⟨htidy, hlive⟩ := h₀.taken (x := newRecord this b jpc) rfl fun _ => by
        unfold Source at hthis ⊢
        rw [hs.code]
        exact hthis
      refine .inr ⟨r, l', _, rfl, ?_, htidy, ⟨hs.code, hs.pc, hs.tcIdx, hs.state, hs.bbNow,
        hs.bbNowRecord, hs.built, hs.abandoned⟩, hpool, hlive, ?_⟩
      · simp only [Tcache.update, Function.update_self, Function.update_idem]
        rfl
      · exact Function.update_self ..

/-- The link that `tcache_bb_fetch` leaves in the instruction at place `i`. -/
theorem Tidy.fetch_pool (h : Tidy c t l) (hf : tcacheBbFetch c (.pool i) b jpc t = .ok t')
    (hi : t.code i = some (a, d)) (hN : d.type ≠ .N)
    (hw : Wanted d (if b then .taken else .ntaken) jpc)
    (hI : b = false → d.type ≠ .I) :
    ∃ q l', t'.pool = Function.update t.pool i (setLink b q (t.pool i)) ∧ Tidy c t' l' ∧
      Same t t' ∧ (l' = l ∧ Leads t.code jpc q ∨ ∃ r, l = r :: l' ∧ q = .record r ∧
        Live c l' r ∧ t'.records r = newRecord (.pool i) b jpc) := by
  have hlink : ∀ {t₁ : Tcache δ} {l' q}, Tidy c t₁ l' → Same t t₁ → t₁.pool = t.pool →
      (∀ want : Word → Prop, want jpc →
        Target c t₁ l' (.pool i) (if b then .taken else .ntaken) want q) →
      Tidy c (t₁.update (.pool i) (setLink b q)) l' := by
    intro t₁ l' q h₁ hs hp hq
    have hcode : ∀ {pc d'}, t₁.code i = some (pc, d') → d' = d := by
      intro pc d' hi'
      rw [hs.code, hi] at hi'
      cases hi'
      rfl
    apply h₁.update_pool (linksOnly_setLink b q) fun pc d' hi' => hcode hi' ▸ hN
    · intro pc d' hi' hd
      cases b with
      | true => exact hq _ (hcode hi' ▸ hw)
      | false => exact h₁.tnext i pc d' hi' hd
    · intro pc d' hi' hd
      cases b with
      | true => exact h₁.ntnext i pc d' hi' hd
      | false => exact hq _ (hcode hi' ▸ hw)
    · intro pc d' hi' hd
      cases b with
      | true => exact h₁.other i pc d' hi' hd
      | false => exact absurd hd (hcode hi' ▸ hI rfl)
  obtain ⟨q, t₁, rfl, h₁, hs, hp, hq⟩ | ⟨r, l', t₁, rfl, rfl, h₁, hs, hp, hlive, hr⟩ :=
    h.fetch (.inr ⟨i, a, d, rfl, hi, hN, hw⟩) hf
  · refine ⟨q, l, ?_, hlink h₁ hs hp fun want hw => .of_leads (hs.code ▸ hq) hw,
      hs.trans (.update _ _ (linksOnly_setLink b q)), .inl ⟨rfl, hq⟩⟩
    simp only [Tcache.update, hp]
  · refine ⟨.record r, l', ?_, hlink h₁ hs hp fun want hw => ?_,
      hs.trans (.update _ _ (linksOnly_setLink b _)), .inr ⟨r, rfl, rfl, hlive, hr⟩⟩
    · simp only [Tcache.update, hp]
    · refine ⟨hlive, ?_⟩
      rw [hr]
      exact ⟨rfl, rfl, hw⟩

theorem Tidy.fetch_ex (h : Tidy c t l) (hf : tcacheBbFetch c .ex true jpc t = .ok t') :
    ∃ l', Tidy c t' l' ∧ Same t t' ∧
      (l' = l ∧ Leads t.code jpc t'.ex.tnext ∨
        ∃ r, l = r :: l' ∧ t'.ex.tnext = .record r ∧ (t'.records r).pc = jpc ∧ Live c l' r) := by
  obtain ⟨q, t₁, rfl, h₁, hs, _, hq⟩ | ⟨r, l', t₁, rfl, rfl, h₁, hs, _, hlive, hr⟩ :=
    h.fetch (.inl rfl) hf
  · exact ⟨l, h₁.update_ex _, hs.trans (.update _ _ (linksOnly_setLink true q)), .inl ⟨rfl, hq⟩⟩
  · refine ⟨l', h₁.update_ex _, hs.trans (.update _ _ (linksOnly_setLink true _)),
      .inr ⟨r, rfl, rfl, ?_, hlive⟩⟩
    simp only [Tcache.update, hr]
    rfl

/-- The link that a record waits for is given the block, before the record is freed. -/
def patched (r : Nat) (bb : Ptr) (t : Tcache δ) : Tcache δ :=
  match (t.records r).type with
  | .taken => t.update (t.records r).ntnext (setLink true bb)
  | .ntaken => t.update (t.records r).ntnext (setLink false bb)
  | .none => t

theorem patchAndFree_eq (h : tcachePatchAndFree c (.record r) bb t = .ok t') :
    t' = { (patched r bb t).update (.record r) fun x =>
      { x with tnext := (patched r bb t).freelist } with freelist := .record r } := by
  unfold tcachePatchAndFree at h
  simp only [Tcache.deref, tcacheBbFree, Except.bind_eq_ok] at h
  obtain ⟨x, hx, _, _, _, _, h⟩ := h
  cases hx
  cases h
  rfl

/-- A link of the instruction at place `i` is given the block that its record stands for. -/
theorem Tidy.patch (h : Tidy c t l) (hr : Live c l r) (hbb : Leads t.code (t.records r).pc bb)
    (hty : (t.records r).type = if b then .taken else .ntaken) :
    Tidy c (t.update (t.records r).ntnext (setLink b bb)) l := by
  have hne : (t.records r).type ≠ .none := by
    rw [hty]
    cases b <;> simp
  obtain hex | ⟨i, a, d, hsrc, hi, hN, hw⟩ := h.source r hr hne
  · rw [hex]
    exact h.update_ex _
  · rw [hsrc]
    have hcode : ∀ {pc d'}, t.code i = some (pc, d') → d' = d := by
      intro pc d' hi'
      rw [hi] at hi'
      cases hi'
      rfl
    rw [hty] at hw
    apply h.update_pool (linksOnly_setLink b bb) fun pc d' hi' => hcode hi' ▸ hN
    · intro pc d' hi' hd
      cases b with
      | true => exact .of_leads hbb (hcode hi' ▸ hw)
      | false => exact h.tnext i pc d' hi' hd
    · intro pc d' hi' hd
      cases b with
      | true => exact h.ntnext i pc d' hi' hd
      | false => exact .of_leads hbb (hcode hi' ▸ hw)
    · intro pc d' hi' hd
      cases b with
      | true => exact h.other i pc d' hi' hd
      | false => exact ⟨_, hbb⟩

theorem patched_records (h : Tidy c t l) (hr : Live c l r) :
    (patched r bb t).records = t.records ∧ (patched r bb t).freelist = t.freelist := by
  have hupd : ∀ f, (t.records r).type ≠ .none →
      (t.update (t.records r).ntnext f).records = t.records ∧
        (t.update (t.records r).ntnext f).freelist = t.freelist := by
    intro f hne
    obtain hex | ⟨i, _, _, hsrc, _⟩ := h.source r hr hne
    · rw [hex]
      exact ⟨rfl, rfl⟩
    · rw [hsrc]
      exact ⟨rfl, rfl⟩
  unfold patched
  cases hty : (t.records r).type with
  | none => exact ⟨rfl, rfl⟩
  | _ => exact hupd _ (by simp [hty])

theorem Tidy.patched (h : Tidy c t l) (hr : Live c l r) (hbb : Leads t.code (t.records r).pc bb) :
    Tidy c (patched r bb t) l ∧ Same t (patched r bb t) := by
  unfold Nemu.patched
  cases hty : (t.records r).type with
  | none => exact ⟨h, .refl t⟩
  | ntaken => exact ⟨h.patch hr hbb hty, .update _ _ (linksOnly_setLink false bb)⟩
  | taken => exact ⟨h.patch hr hbb hty, .update _ _ (linksOnly_setLink true bb)⟩

theorem Leads.not_record (h : Leads code pc p) (r : Nat) : p ≠ .record r := by
  rintro rfl
  exact h

theorem Tidy.release (h : Tidy c t l) (hr : Live c l r)
    (ht : ∀ i pc d, t.code i = some (pc, d) → d.type ≠ .N → (t.pool i).tnext ≠ .record r)
    (hn : ∀ i pc d, t.code i = some (pc, d) → d.type = .B → (t.pool i).ntnext ≠ .record r) :
    Tidy c { t.update (.record r) fun x => { x with tnext := t.freelist } with
      freelist := .record r } (r :: l) := by
  have hrec : ∀ r', (Function.update t.records r { t.records r with tnext := t.freelist }) r' =
      { t.records r' with tnext := if r' = r then t.freelist else (t.records r').tnext } := by
    intro r'
    by_cases e : r' = r
    · subst e
      rw [Function.update_self, if_pos rfl]
    · rw [Function.update_of_ne e, if_neg e]
  have htarget : ∀ {src ty want p}, p ≠ .record r → Target c t l src ty want p →
      Target c { t.update (.record r) fun x => { x with tnext := t.freelist } with
        freelist := .record r } (r :: l) src ty want p := by
    intro src ty want p hp h'
    refine h'.mono (fun _ _ hj => hj) fun r' e hl => ?_
    have hne : r' ≠ r := fun e' => hp (by rw [e, e'])
    simp only [Tcache.update, hrec, and_self, and_true]
    exact ⟨hl.1, fun hm => (List.mem_cons.mp hm).elim hne hl.2⟩
  refine ⟨?_, List.nodup_cons.mpr ⟨hr.2, h.nodup⟩, ?_, ?_, ?_, h.blocks,
    fun i pc d hi hd => htarget (ht i pc d hi hd) (h.tnext i pc d hi hd),
    fun i pc d hi hd => htarget (hn i pc d hi hd) (h.ntnext i pc d hi hd), h.other, h.unlinked⟩
  · apply h.free.push _ hr.2
    · intro r' hne
      simp only [Tcache.update, hrec, if_neg hne]
    · simp only [Tcache.update, hrec, if_pos]
  · intro r' hm
    obtain rfl | hm := List.mem_cons.mp hm
    · exact hr.1
    · exact h.bound r' hm
  · intro r'
    simp only [Tcache.update, hrec]
    exact h.undecoded r'
  · intro r' hl hty
    simp only [Tcache.update, hrec] at hty ⊢
    exact h.source r' ⟨hl.1, fun hm => hl.2 (List.mem_cons_of_mem r hm)⟩ hty

/-- `tcache_patch_and_free` puts a record in use on the free list. -/
theorem Tidy.patchAndFree (h : Tidy c t l) (hr : Live c l r)
    (hbb : Leads t.code (t.records r).pc bb)
    (hf : tcachePatchAndFree c (.record r) bb t = .ok t') : Tidy c t' (r :: l) ∧ Same t t' := by
  obtain ⟨hp, hs⟩ := h.patched hr hbb
  have hrec : (Nemu.patched r bb t).records = t.records := (patched_records h hr).1
  have hlink : ∀ b, (t.records r).type = (if b then .taken else .ntaken) → ∀ i,
      (t.records r).ntnext = .pool i → (Nemu.patched r bb t).pool i = setLink b bb (t.pool i) := by
    intro b hty i hsrc
    unfold Nemu.patched
    rw [hty, hsrc]
    cases b <;> exact Function.update_self ..
  obtain rfl := patchAndFree_eq hf
  refine ⟨hp.release hr ?_ ?_, ⟨hs.code, hs.pc, hs.tcIdx, hs.state, hs.bbNow, hs.bbNowRecord,
    hs.built, hs.abandoned⟩⟩
  · intro i pc d hi hd e
    have htarget := hp.tnext i pc d hi hd
    rw [e] at htarget
    obtain ⟨_, hty, hsrc, _⟩ := htarget
    rw [hrec] at hty hsrc
    rw [hlink true hty i hsrc] at e
    exact hbb.not_record r e
  · intro i pc d hi hd e
    have htarget := hp.ntnext i pc d hi hd
    rw [e] at htarget
    obtain ⟨_, hty, hsrc, _⟩ := htarget
    rw [hrec] at hty hsrc
    rw [hlink false hty i hsrc] at e
    exact hbb.not_record r e

theorem Tcache.code_lt (h : t.code i = some x) : i < t.tcIdx := by
  unfold Tcache.code at h
  split at h
  · assumption
  · cases h

theorem Tcache.code_eq_none (h : (t.pool i).body = none) : t.code i = none := by
  simp only [Tcache.code, h, Option.map_none, ite_self]

/-- The pool with one more place in use. -/
def grown (pc : Word) (t : Tcache δ) : Tcache δ :=
  { t with pool := Function.update t.pool t.tcIdx (tcacheEntryInit pc), tcIdx := t.tcIdx + 1 }

theorem grown_code (pc : Word) (t : Tcache δ) : (grown pc t).code = t.code := by
  funext i
  by_cases hi : i = t.tcIdx
  · subst hi
    rw [Tcache.code_eq_none]
    · simp only [Tcache.code, Nat.lt_irrefl, ↓reduceIte]
    · simp only [grown, Function.update_self, tcacheEntryInit]
  · have hlt : i < t.tcIdx + 1 ↔ i < t.tcIdx := by omega
    simp only [Tcache.code, grown, Function.update_of_ne hi, hlt]

theorem Tidy.grown (h : Tidy c t l) (pc : Word) : Tidy c (grown pc t) l := by
  have hcode := grown_code pc t
  have hpool : ∀ i a d, t.code i = some (a, d) → (Nemu.grown pc t).pool i = t.pool i :=
    fun i a d hi => Function.update_of_ne (Nat.ne_of_lt (Tcache.code_lt hi)) _ _
  have htarget : ∀ {src ty want p}, Target c t l src ty want p →
      Target c (Nemu.grown pc t) l src ty want p :=
    fun h' => h'.mono (fun j x hj => hcode.symm ▸ hj) fun r _ hl => ⟨hl, rfl, rfl, rfl⟩
  refine ⟨h.free, h.nodup, h.bound, h.undecoded, ?_, ?_, ?_, ?_, ?_, ?_⟩
  · unfold Source
    rw [hcode]
    exact h.source
  · rw [hcode]
    exact h.blocks
  · intro i a d hi hd
    rw [hcode] at hi
    rw [hpool i a d hi]
    exact htarget (h.tnext i a d hi hd)
  · intro i a d hi hd
    rw [hcode] at hi
    rw [hpool i a d hi]
    exact htarget (h.ntnext i a d hi hd)
  · intro i a d hi hd
    rw [hcode] at hi ⊢
    rw [hpool i a d hi]
    exact h.other i a d hi hd
  · intro i a d hi hd
    rw [hcode] at hi
    rw [hpool i a d hi]
    exact h.unlinked i a d hi hd

theorem tcacheNew_eq (h : tcacheNew c pc t = some (p, t')) :
    p = .pool t.tcIdx ∧ t' = grown pc t := by
  unfold tcacheNew at h
  split at h
  · cases h
  · cases h
    exact ⟨rfl, rfl⟩

theorem Wanted.exists (d : Decoded δ) (ty : RecordType) : ∃ pc, Wanted d ty pc := by
  unfold Wanted
  split
  · exact ⟨_, rfl⟩
  · exact ⟨_, rfl⟩
  · exact ⟨_, rfl⟩
  · exact ⟨0, trivial⟩

/-- The pool once `fetch_decode` has filled place `i`. -/
def filled (i : Nat) (d : Decoded δ) (t : Tcache δ) : Tcache δ :=
  t.update (.pool i) fun x => { x with body := some d }

theorem filled_pool (d : Decoded δ) (j : Nat) :
    (filled i d t).pool j = if j = i then { t.pool i with body := some d } else t.pool j := by
  simp only [filled, Tcache.update, Function.update_apply]

theorem filled_pc (d : Decoded δ) (j : Nat) : ((filled i d t).pool j).pc = (t.pool j).pc := by
  rw [filled_pool]
  split
  · next e => rw [e]
  · rfl

theorem filled_code (hi : i < t.tcIdx) (hpc : (t.pool i).pc = pc) (d : Decoded δ) :
    (filled i d t).code = Function.update t.code i (some (pc, d)) := by
  funext j
  simp only [Tcache.code, filled_pool]
  by_cases e : j = i
  · subst e
    rw [Function.update_self]
    simp only [↓reduceIte, Option.map_some, hpc]
    exact if_pos hi
  · rw [Function.update_of_ne e]
    simp only [if_neg e]
    rfl

theorem filled_grow (hi : i < t.tcIdx) (hnew : (t.pool i).body = none) (d : Decoded δ) :
    ∀ j x, t.code j = some x → (filled i d t).code j = some x := by
  intro j x hj
  have e : j ≠ i := by
    rintro rfl
    rw [Tcache.code_eq_none hnew] at hj
    cases hj
  rw [filled_code hi rfl, Function.update_of_ne e]
  exact hj

theorem Tidy.filled (h : Tidy c t l) (hi : i < t.tcIdx) (hnew : t.pool i = tcacheEntryInit pc)
    (d : Decoded δ) : Tidy c (filled i d t) l := by
  have hpool : ∀ j, (Nemu.filled i d t).pool j =
      if j = i then ⟨.null, .null, pc, .none, some d⟩ else t.pool j := by
    intro j
    rw [filled_pool, hnew]
    rfl
  have hbody : (t.pool i).body = none := by
    rw [hnew]
    rfl
  have hgrow := filled_grow hi hbody d
  have htarget : ∀ {src ty want p}, Target c t l src ty want p →
      Target c (Nemu.filled i d t) l src ty want p :=
    fun h' => h'.mono hgrow fun r _ hl => ⟨hl, rfl, rfl, rfl⟩
  have hold : ∀ j pc d', (Nemu.filled i d t).code j = some (pc, d') → j ≠ i →
      t.code j = some (pc, d') := by
    intro j pc d' hj e
    rwa [filled_code hi rfl, Function.update_of_ne e] at hj
  refine ⟨h.free, h.nodup, h.bound, h.undecoded, ?_, ?_, ?_, ?_, ?_, ?_⟩
  · intro r hr hty
    obtain hex | ⟨j, a, d', h1, h2, h3⟩ := h.source r hr hty
    · exact .inl hex
    · exact .inr ⟨j, a, d', h1, hgrow _ _ h2, h3⟩
  · exact fun k b hb => (h.blocks k b hb).mono hgrow
  · intro j pc d' hj hd
    rw [hpool]
    split
    · obtain ⟨a, ha⟩ := Wanted.exists d' .taken
      exact ⟨a, trivial, ha⟩
    · next e => exact htarget (h.tnext j pc d' (hold j pc d' hj e) hd)
  · intro j pc d' hj hd
    rw [hpool]
    split
    · obtain ⟨a, ha⟩ := Wanted.exists d' .ntaken
      exact ⟨a, trivial, ha⟩
    · next e => exact htarget (h.ntnext j pc d' (hold j pc d' hj e) hd)
  · intro j pc d' hj hd
    rw [hpool]
    split
    · exact ⟨0, trivial⟩
    · next e =>
      obtain ⟨a, ha⟩ := h.other j pc d' (hold j pc d' hj e) hd
      exact ⟨a, ha.mono hgrow⟩
  · intro j pc d' hj hd
    rw [hpool]
    split
    · rfl
    · next e => exact h.unlinked j pc d' (hold j pc d' hj e) hd

theorem bbInsert_spec (h : bbInsert c pc s t = some t') :
    t' = { t with bbList := t'.bbList, bbIdx := t'.bbIdx, built := t.built + 1 } ∧
      ∀ k, ∀ b ∈ t'.bbList k, b ∈ t.bbList k ∨ b = ⟨s, pc⟩ := by
  have hmem : ∀ bl, (∀ b ∈ bl, b ∈ t.bbList (bbHash c pc) ∨ b = ⟨s, pc⟩) →
      ∀ k, ∀ b ∈ Function.update t.bbList (bbHash c pc) bl k, b ∈ t.bbList k ∨ b = ⟨s, pc⟩ := by
    intro bl hbl k b hb
    by_cases e : k = bbHash c pc
    · subst e
      rw [Function.update_self] at hb
      exact hbl b hb
    · rw [Function.update_of_ne e] at hb
      exact .inl hb
  unfold bbInsert at h
  dsimp only at h
  split at h
  · cases h
    exact ⟨rfl, hmem _ fun b hb => .inr (List.mem_singleton.mp hb)⟩
  · split at h
    · cases h
    · cases h
      exact ⟨rfl, hmem _ fun b hb => (List.mem_cons.mp hb).symm⟩

theorem Tidy.insert (h : Tidy c t l) (hs : Leads t.code pc s)
    (hi : bbInsert c pc s t = some t') :
    Tidy c t' l ∧ t' = { t with
      bbList := t'.bbList, bbIdx := t'.bbIdx, built := t.built + 1 } := by
  obtain ⟨he, hmem⟩ := bbInsert_spec hi
  have hb : ∀ k, ∀ b ∈ t'.bbList k, Leads t.code b.pc b.s := by
    intro k b hb
    obtain hb | rfl := hmem k b hb
    · exact h.blocks k b hb
    · exact hs
  refine ⟨?_, he⟩
  rw [he]
  exact (h.buckets hb).of_eq rfl rfl rfl rfl rfl

/-- After a flush every record is free and no place of the pool is in use. -/
theorem tidy_flush (hr : ∀ r, (t.records r).body = none) :
    Tidy c (tcacheFlush c t) (List.range' 0 c.bbSize) := by
  have hcode : ∀ i, (tcacheFlush c t).code i = none := fun i => if_neg (Nat.not_lt_zero i)
  refine ⟨?_, List.nodup_range', ?_, hr, ?_, ?_, ?_, ?_, ?_, ?_⟩
  · apply Chain.range
    · intro i
      simp only [tcacheFlush, Nat.zero_add]
    · exact Nat.succ_pos _
  · intro r hm
    simpa using hm
  · intro r hl
    exact absurd (by simpa using hl.1) hl.2
  · intro k b hb
    cases hb
  all_goals
    intro i pc d hi
    cases (hcode i).symm.trans hi

end Operations

end Nemu
