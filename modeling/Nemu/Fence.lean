import Nemu.TcacheRecords
import Nemu.TlbCoherence

namespace Nemu

open Effect

set_option autoImplicit true

/-- A leaf at `level` that maps `v` maps `va` too. -/
def Covers (level : Nat) (v va : Word) : Prop := va >>> vpnShift level = v >>> vpnShift level

/-- `sfence.vma` or `sinval.vma` with `v` in the register `rs1`: `mmu_tlb_flush`, and
`rtl_priv_next` at the end of the instruction. -/
def fenceVma (c : TraceConfig) (v : Word) (tlb : HostTlb) (e : Engine δ) :
    Except TcacheAbort (HostTlb × Engine δ) := do
  let e ← e.step c (if v = 0 then .flush else .next)
  pure (hosttlbFlush v tlb, e)

/-- The places that execution can come to from `cur`: the blocks in `bb_list`, the block under
construction, and what follows a decoded instruction. -/
inductive Tcache.Reachable (t : Tcache δ) (cur : Ptr) : Ptr → Prop where
  | start : t.Reachable cur cur
  | listed : b ∈ t.bbList k → t.Reachable cur b.s
  | building : t.state = .building → t.Reachable cur t.bbNow
  | next : t.Reachable cur (.pool i) → t.code i = some (pc, d) → d.type = .N →
      t.Reachable cur (.pool (i + 1))
  | taken : t.Reachable cur (.pool i) → t.code i = some (pc, d) → d.type ≠ .N →
      t.Reachable cur (t.pool i).tnext
  | ntaken : t.Reachable cur (.pool i) → t.code i = some (pc, d) → d.type ≠ .N →
      t.Reachable cur (t.pool i).ntnext

/-- The entry for the page of `va` is the one that was there with the tables `old`. -/
def StaleEntry (old tlb : HostTlb) (w : Bool) (va : Word) : Prop :=
  (tlb.table w (hosttlbIdx va)).gvpn = hosttlbVpn va ∧
    tlb.table w (hosttlbIdx va) = old.table w (hosttlbIdx va)

/-- The decoded instruction at place `i` is the one that was there with the trace cache `old`, and
execution can come to it from `cur`. -/
def StaleInstr (old t : Tcache δ) (cur : Ptr) (i : Nat) (pc : Word) : Prop :=
  ∃ d, old.code i = some (pc, d) ∧ t.code i = some (pc, d) ∧ t.Reachable cur (.pool i)

/-- Nothing is left of what the tables `tlb₁` and the trace cache `t₁` held, when a leaf at `level`
over `v` was changed, for the addresses that it covers. -/
structure Purged (level : Nat) (v : Word) (tlb₁ : HostTlb) (t₁ : Tcache δ) (tlb : HostTlb)
    (e : Engine δ) : Prop where
  entries : ∀ va w, Covers level v va → ¬ StaleEntry tlb₁ tlb w va
  instrs : ∀ i pc, Covers level v pc → ¬ StaleInstr t₁ e.tc e.cur i pc

section Flush

variable {δ : Type} {c : TraceConfig} {t t' : Tcache δ} {e e' : Engine δ} {tlb tlb₁ : HostTlb}
  {v va : Word} {w : Bool}

/-- Entries of other pages than that of `v` survive its fence. -/
theorem flush_other (hv : v ≠ 0) (hne : hosttlbVpn va ≠ hosttlbVpn v)
    (h : (tlb.table w (hosttlbIdx va)).gvpn = hosttlbVpn va) :
    (hosttlbFlush v tlb).table w (hosttlbIdx va) = tlb.table w (hosttlbIdx va) := by
  unfold hosttlbFlush
  rw [if_neg hv]
  have hupd : ∀ table : Nat → HostTLBEntry, (table (hosttlbIdx va)).gvpn = hosttlbVpn va →
      Function.update table (hosttlbIdx v) ((table (hosttlbIdx v)).drop (hosttlbVpn v))
        (hosttlbIdx va) = table (hosttlbIdx va) := by
    intro table ht
    by_cases hi : hosttlbIdx va = hosttlbIdx v
    · rw [hi, Function.update_self]
      unfold HostTLBEntry.drop
      rw [← hi, if_neg]
      rw [ht]
      exact hne
    · rw [Function.update_of_ne hi]
  cases w <;> exact hupd _ h

theorem staleEntry_flush (hv : v ≠ 0) :
    StaleEntry tlb₁ (hosttlbFlush v tlb) w va ↔
      hosttlbVpn va ≠ hosttlbVpn v ∧ StaleEntry tlb₁ tlb w va := by
  constructor
  · rintro ⟨hvalid, hold⟩
    have hsame := flush_keeps hvalid
    refine ⟨?_, ?_, ?_⟩
    · intro hpage
      exact flush_drops (.inr hpage.symm) hvalid
    · rw [← hsame]
      exact hvalid
    · rw [← hsame]
      exact hold
  · rintro ⟨hne, hvalid, hold⟩
    have hsame := flush_other hv hne hvalid
    refine ⟨?_, ?_⟩
    · rw [hsame]
      exact hvalid
    · rw [hsame]
      exact hold

theorem bbFind_tcIdx (c : TraceConfig) (pc : Word) (t : Tcache δ) :
    (bbFind c pc t).2.tcIdx = t.tcIdx := by
  unfold bbFind
  dsimp only
  split
  · rfl
  · split
    · rfl
    · split <;> rfl

theorem update_tcIdx (t : Tcache δ) (p : Ptr) (f : Entry δ → Entry δ) :
    (t.update p f).tcIdx = t.tcIdx := by
  cases p <;> rfl

theorem bbNew_tcIdx (h : tcacheBbNew c pc t = .ok (p, t')) : t'.tcIdx = t.tcIdx := by
  unfold tcacheBbNew at h
  split at h
  · cases h
  · obtain ⟨s, _, h1⟩ := Except.bind_eq_ok.mp h
    obtain ⟨_, _, h2⟩ := Except.bind_eq_ok.mp h1
    cases h2
    rw [update_tcIdx]

theorem bbFetch_tcIdx (h : tcacheBbFetch c this b jpc t = .ok t') : t'.tcIdx = t.tcIdx := by
  unfold tcacheBbFetch at h
  have hfind := bbFind_tcIdx c jpc t
  cases hf : bbFind c jpc t with
  | mk o t₁ =>
    rw [hf] at h hfind
    cases o with
    | some bb =>
      cases h
      rw [update_tcIdx]
      exact hfind
    | none =>
      obtain ⟨⟨ret, t₂⟩, hnew, h1⟩ := Except.bind_eq_ok.mp h
      cases h1
      rw [update_tcIdx, update_tcIdx, bbNew_tcIdx hnew]
      exact hfind

/-- No instruction is decoded after a flush. -/
theorem handleFlush_code (h : tcacheHandleFlush c pc t = .ok e') (i : Nat) :
    e'.tc.code i = none := by
  obtain ⟨t₁, hf, h1⟩ := Except.bind_eq_ok.mp h
  have hidx := bbFetch_tcIdx hf
  cases h1
  unfold Tcache.code
  rw [if_neg]
  rw [hidx]
  exact Nat.not_lt_zero i

theorem fenceVma_all (h : fenceVma c 0 tlb e = .ok (tlb', e')) :
    tlb' = hosttlbFlush 0 tlb ∧ ∀ i, e'.tc.code i = none := by
  obtain ⟨e₁, hs, h1⟩ := Except.bind_eq_ok.mp h
  cases h1
  refine ⟨rfl, ?_⟩
  obtain ⟨x, _, h2⟩ := Except.bind_eq_ok.mp hs
  simp only [↓reduceIte] at h2
  split at h2
  · cases h2
  · simp only [Engine.stepBody] at h2
    split at h2
    · exact handleFlush_code h2
    · cases h2

theorem fenceVma_one (hv : v ≠ 0) (h : fenceVma c v tlb e = .ok (tlb', e')) :
    tlb' = hosttlbFlush v tlb ∧ e' = ⟨e.tc, e.cur.next, false⟩ := by
  obtain ⟨e₁, hs, h1⟩ := Except.bind_eq_ok.mp h
  cases h1
  refine ⟨rfl, ?_⟩
  obtain ⟨x, _, h2⟩ := Except.bind_eq_ok.mp hs
  rw [if_neg hv] at h2
  dsimp only at h2
  split at h2
  · cases h2
  · simp only [Engine.stepBody] at h2
    split at h2
    · cases h2
      rfl
    · cases h2

end Flush

/-- A fence for an address removes all that a leaf over it has left behind exactly when the
address is 0, or nothing is left for the other pages of the leaf and nothing of it is decoded. -/
theorem fence_purges_iff {c : TraceConfig} {v : Word} {tlb tlb' : HostTlb} {e e' : Engine δ}
    (h : fenceVma c v tlb e = .ok (tlb', e')) (level : Nat) (tlb₁ : HostTlb) (t₁ : Tcache δ) :
    Purged level v tlb₁ t₁ tlb' e' ↔ v = 0 ∨
      (∀ va w, Covers level v va → hosttlbVpn va ≠ hosttlbVpn v → ¬ StaleEntry tlb₁ tlb w va) ∧
      ∀ i pc, Covers level v pc → ¬ StaleInstr t₁ e.tc e.cur.next i pc := by
  by_cases hv : v = 0
  · subst hv
    obtain ⟨rfl, hcode⟩ := fenceVma_all h
    refine ⟨fun _ => .inl rfl, fun _ => ⟨?_, ?_⟩⟩
    · rintro va w _ ⟨hvalid, _⟩
      exact flush_drops (.inl rfl) hvalid
    · rintro i pc _ ⟨d, _, hd, _⟩
      rw [hcode i] at hd
      cases hd
  · obtain ⟨rfl, rfl⟩ := fenceVma_one hv h
    constructor
    · intro hp
      refine .inr ⟨?_, hp.instrs⟩
      intro va w hc hne hs
      exact hp.entries va w hc ((staleEntry_flush hv).mpr ⟨hne, hs⟩)
    · rintro (h0 | ⟨hentries, hinstrs⟩)
      · exact absurd h0 hv
      · refine ⟨?_, hinstrs⟩
        intro va w hc hs
        obtain ⟨hne, hs⟩ := (staleEntry_flush hv).mp hs
        exact hentries va w hc hne hs

section Gigapage

open Engine

/-- The supervisor behind a page table at `0x80200000` whose entry for the gigabyte at
`0xc0000000` is `pte`. -/
def gigapage (pte : Word) : Machine :=
  { (Machine.reset (Platform.bare .performance)
      (Bytes.writeLE (fun _ => 0) 0x80200018 8 pte)).setCsr .satp 0x8000000000080200 with
    mode := .S
    ifetchMmuState := .translate
    dataMmuState := .translate }

def gigaStart : HostState :=
  ⟨gigapage 0x200000c7, hosttlbFlush 0 ⟨fun _ => ⟨0, 0⟩, fun _ => ⟨0, 0⟩⟩⟩

/-- Two pages of the gigabyte have been read. -/
def gigaRead : HostState :=
  final (HostAccess.host (Platform.bare .performance) (.load 0xc0001000 8))
    (final (HostAccess.host (Platform.bare .performance) (.load 0xc0000000 8)) gigaStart)

def gigaCleared : HostState := { gigaRead with machine := gigapage 0 }

/-- A fence for all addresses, and one for a page that is mapped by itself and that nothing has been decoded from. -/
theorem fence_purges_everything : ∃ (e₀ e e' e₁ : Engine Unit) (tlb' tlb₁ : HostTlb),
    init .standard 0x80100000 = .ok e₀ ∧ Step .standard e₀ (plainAt 0x80100000) e ∧
      fenceVma .standard 0 gigaCleared.tlb e = .ok (tlb', e') ∧
      Purged 2 0 gigaRead.tlb e.tc tlb' e' ∧
      (∃ va, StaleEntry gigaRead.tlb gigaRead.tlb false va ∧ Covers 0 0xc0000000 va) ∧
      fenceVma .standard 0xc0000000 gigaRead.tlb e = .ok (tlb₁, e₁) ∧
      Purged 0 0xc0000000 gigaRead.tlb e.tc tlb₁ e₁ := by
  have hplay : ∃ (e₀ e e' e₁ : Engine Unit) (tlb' tlb₁ : HostTlb), init .standard 0x80100000 = .ok e₀ ∧
      Step .standard e₀ (plainAt 0x80100000) e ∧
      fenceVma .standard 0 gigaCleared.tlb e = .ok (tlb', e') ∧
      fenceVma .standard 0xc0000000 gigaRead.tlb e = .ok (tlb₁, e₁) ∧
      e.tc.tcIdx = 2 ∧ (∃ d, e.tc.code 0 = some (0x80100000, d)) ∧ e.tc.code 1 = none :=
    ⟨_, _, _, _, _, _, rfl, rfl, rfl, rfl, rfl, ⟨_, rfl⟩, rfl⟩
  obtain ⟨e₀, e, e', e₁, tlb', tlb₁, h0, h1, h2, h3, hidx, ⟨d, hd⟩, hnone⟩ := hplay
  refine ⟨e₀, e, e', e₁, tlb', tlb₁, h0, h1, h2, (fence_purges_iff h2 2 gigaRead.tlb e.tc).mpr (.inl rfl),
    ⟨0xc0000000, ⟨rfl, rfl⟩, rfl⟩, h3, (fence_purges_iff h3 0 gigaRead.tlb e.tc).mpr (.inr ⟨?_, ?_⟩)⟩
  · intro va w hc hne
    exact absurd hc hne
  · rintro i pc hc ⟨d', hd', -⟩
    have hi : i < 2 := by
      rw [← hidx]
      by_contra hge
      cases (if_neg hge).symm.trans hd'
    obtain rfl | rfl : i = 0 ∨ i = 1 := by omega
    · cases hd.symm.trans hd'
      have hpage : (0x80100000 : Word) >>> vpnShift 0 ≠ 0xc0000000 >>> vpnShift 0 := by decide
      exact absurd hc hpage
    · cases hnone.symm.trans hd'

/-- After the entry is cleared, a fence for the first page leaves the translation of the second
one in the table. -/
theorem fence_misses_superpage : ∃ (tr₁ tr₂ : _) (e₀ e e' : Engine Unit) (tlb' : HostTlb),
    Run (HostStep (Platform.bare .performance)) gigaStart tr₁ gigaRead ∧
      memoryWalk (Platform.bare .performance) gigaRead.machine 0xc0000000 =
        some (.leaf 2 0x80200018 ⟨0x200000c7⟩) ∧
      Run (HostStep (Platform.bare .performance)) gigaRead tr₂ gigaCleared ∧
      memoryWalk (Platform.bare .performance) gigaCleared.machine 0xc0000000 = some (.bad ⟨0⟩) ∧
      init .standard 0x80100000 = .ok e₀ ∧ Step .standard e₀ (plainAt 0x80100000) e ∧
      fenceVma .standard 0xc0000000 gigaCleared.tlb e = .ok (tlb', e') ∧
      ¬ Purged 2 0xc0000000 gigaRead.tlb e.tc tlb' e' := by
  have hplay : ∃ (e₀ e e' : Engine Unit) (tlb' : HostTlb), init .standard 0x80100000 = .ok e₀ ∧
      Step .standard e₀ (plainAt 0x80100000) e ∧
      fenceVma .standard 0xc0000000 gigaCleared.tlb e = .ok (tlb', e') ∧
      tlb' = hosttlbFlush 0xc0000000 gigaCleared.tlb := ⟨_, _, _, _, rfl, rfl, rfl, rfl⟩
  obtain ⟨e₀, e, e', tlb', h0, h1, h2, htlb⟩ := hplay
  have hrun₁ : Run (HostStep (Platform.bare .performance)) gigaStart
      [⟨gigaStart, .access (.load 0xc0000000 8), _⟩, ⟨_, .access (.load 0xc0001000 8), gigaRead⟩]
      gigaRead := .cons rfl (.cons rfl .nil)
  have hrun₂ : Run (HostStep (Platform.bare .performance)) gigaRead
      [⟨gigaRead, .other (gigapage 0) none, gigaCleared⟩] gigaCleared := .cons rfl .nil
  refine ⟨_, _, e₀, e, e', tlb', hrun₁, rfl, hrun₂, rfl, h0, h1, h2, fun hp => ?_⟩
  have hvalid : (tlb'.table false (hosttlbIdx 0xc0001000)).gvpn = hosttlbVpn 0xc0001000 := by
    rw [htlb]
    rfl
  have hsame : tlb'.table false (hosttlbIdx 0xc0001000) =
      gigaRead.tlb.table false (hosttlbIdx 0xc0001000) := by
    rw [htlb]
    rfl
  exact hp.entries 0xc0001000 false rfl ⟨hvalid, hsame⟩

end Gigapage

end Nemu
