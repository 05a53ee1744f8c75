import Nemu.MmuPaths
import Nemu.Sv39Walk

namespace Nemu

open Effect

set_option autoImplicit true

/-- The two bits for the key of a page, of the register for `mode`. -/
def pkeyField (s : Machine) (mode : Mode) (e : Sv39.Entry) : BitVec 2 :=
  (if mode = .U then s.csr .upkru else s.csr .spkrs).extractLsb'
    (2 * (e.val.extractLsb' 54 5).toNat) 2

/-- The keys are in use for an access, and the one of its page has access disabled, or write
disabled for a store. -/
structure KeyDenied (P : Platform) (s : Machine) (k : Sv39.Kind) (e : Sv39.Entry) : Prop where
  dasics : P.dasics = true
  enabled : (s.csr .spkctl).getLsbD (if s.typeMode (memType k) = .U then 0 else 1) = true
  disabled : (pkeyField s (s.typeMode (memType k)) e).getLsbD 0 = true ∨
    k = .store ∧ (pkeyField s (s.typeMode (memType k)) e).getLsbD 1 = true

/-- An access ends with a protection-key fault. -/
structure KeyFaults (P : Platform) (s : Machine) (k : Sv39.Kind) (va : Word) (t : Machine) :
    Prop where
  raised : isaMmuTranslate P va (memType k) s =
    .error (.exception ⟨if s.typeMode (memType k) = .U then .DUCF else .DSCF, some va, .plain⟩) t
  reason : t.csr .dfreason = (if k = .store then FaultReason.MFR_SF else .MFR_LF).code

/-- The walk of the access without the keys, from the state `s`, ends at the leaf `l`. -/
def WalksTo (P : Platform) (s : Machine) (k : Sv39.Kind) (va : Word) (l : Sv39.Leaf) : Prop :=
  ∃ u, Sv39.walk (readEntry P k va) (s.sv39 P k) va s = .ok (some l) u

variable {P : Platform} {s t u : Machine} {k : Sv39.Kind} {va : Word} {e : Sv39.Entry}

section Key

theorem mpkBits_eq (hm : s.typeMode (memType k) = .U ∨ s.typeMode (memType k) = .S) :
    mpkBits s (pteOf e) (s.typeMode (memType k)) =
      ((s.csr .spkctl).getLsbD (if s.typeMode (memType k) = .U then 0 else 1) &&
          (pkeyField s (s.typeMode (memType k)) e).getLsbD 0,
        (s.csr .spkctl).getLsbD (if s.typeMode (memType k) = .U then 0 else 1) &&
          (pkeyField s (s.typeMode (memType k)) e).getLsbD 1) := by
  have hbits : ∀ x : Word, ∀ n i, i < 2 → (x.extractLsb' n 2).getLsbD i = x.getLsbD (n + i) := by
    intro x n i hi
    rw [BitVec.getLsbD_extractLsb', decide_eq_true hi, Bool.true_and]
  unfold mpkBits pkeyField
  rw [hbits _ _ 0 (by decide), hbits _ _ 1 (by decide)]
  obtain hu | hs := hm
  · rw [hu]
    rfl
  · rw [hs]
    rfl

theorem keyDenies_iff (hk : k ≠ .fetch) (h : Translating s k) :
    keyDenies P s (pteOf e) (memType k) = true ↔ KeyDenied P s k e := by
  have hbits := mpkBits_eq (e := e) h.permitted
  have hmem : KeyDenied P s k e ↔ P.dasics = true ∧
      (s.csr .spkctl).getLsbD (if s.typeMode (memType k) = .U then 0 else 1) = true ∧
      ((pkeyField s (s.typeMode (memType k)) e).getLsbD 0 = true ∨
        k = .store ∧ (pkeyField s (s.typeMode (memType k)) e).getLsbD 1 = true) :=
    ⟨fun h => ⟨h.dasics, h.enabled, h.disabled⟩, fun h => ⟨h.1, h.2.1, h.2.2⟩⟩
  rw [hmem]
  cases k with
  | fetch => exact absurd rfl hk
  | load =>
    have hdef : keyDenies P s (pteOf e) (memType .load) =
        (P.dasics && (mpkBits s (pteOf e) (s.typeMode (memType .load))).1) := rfl
    rw [hdef, hbits, Bool.and_eq_true, Bool.and_eq_true]
    simp
  | store =>
    have hdef : keyDenies P s (pteOf e) (memType .store) =
        (P.dasics && ((mpkBits s (pteOf e) (s.typeMode (memType .store))).1 ||
          (mpkBits s (pteOf e) (s.typeMode (memType .store))).2)) := rfl
    rw [hdef, hbits, ← Bool.and_or_distrib_left, Bool.and_eq_true, Bool.and_eq_true,
      Bool.or_eq_true]
    simp

theorem keyDenied_observed (h : Observed s t) : KeyDenied P t k e ↔ KeyDenied P s k e := by
  have hmode : t.typeMode (memType k) = s.typeMode (memType k) := h.accessMode _
  have hfield : pkeyField t (t.typeMode (memType k)) e =
      pkeyField s (s.typeMode (memType k)) e := by
    unfold pkeyField
    rw [hmode, h.csr .upkru (by decide), h.csr .spkrs (by decide)]
  have hctl : t.csr .spkctl = s.csr .spkctl := h.csr .spkctl (by decide)
  constructor
  · intro hd
    exact ⟨hd.dasics, by rw [← hctl, ← hmode]; exact hd.enabled, by rw [← hfield]; exact hd.disabled⟩
  · intro hd
    exact ⟨hd.dasics, by rw [hctl, hmode]; exact hd.enabled, by rw [hfield]; exact hd.disabled⟩

end Key

section Avoids

def isKeyFault (ex : Exc) : Prop := ex = .DUCF ∨ ex = .DSCF

instance (ex : Exc) : Decidable (isKeyFault ex) := inferInstanceAs (Decidable (_ ∨ _))

theorem isKeyFault_noAccess : NoAccessFault isKeyFault := ⟨by decide, by decide, by decide⟩

theorem isKeyFault_noPage : NoPageFault isKeyFault := ⟨by decide, by decide, by decide⟩

theorem dasicsEx_key (mode : Mode) : isKeyFault (dasicsEx mode) := by
  unfold dasicsEx
  split <;> decide

theorem pageFault_not_key (s : Machine) (k : Sv39.Kind) : ¬ isKeyFault (pageFault s (memType k)) := by
  have hlpf : ¬ isKeyFault .LPF := by decide
  have hspf : ¬ isKeyFault .SPF := by decide
  have hipf : ¬ isKeyFault .IPF := by decide
  cases k with
  | fetch => exact hipf
  | store => exact hspf
  | load =>
    unfold pageFault memType
    cases s.amo
    · exact hlpf
    · exact hspf

theorem accessFault_not_key (s : Machine) (k : Sv39.Kind) : ¬ isKeyFault (accessFault s k) := by
  have hlaf : ¬ isKeyFault .LAF := by decide
  have hsaf : ¬ isKeyFault .SAF := by decide
  have hiaf : ¬ isKeyFault .IAF := by decide
  cases k with
  | fetch => exact hiaf
  | store => exact hsaf
  | load =>
    unfold accessFault
    cases s.amo
    · exact hlaf
    · exact hsaf

theorem ptwUpdateAd_avoids (hb : NoAccessFault bad) :
    (avoids bad).Within (ptwUpdateAd P pPte pte va type) :=
  ptwUpdateAd_within (fun _ _ _ => paddrWrite_avoids hb) _ _

end Avoids

section Order

/-- A fault of the key is the last thing but the alignment of a superpage that can stop an access. -/
theorem leafFound_key {l : Sv39.Leaf} (h : leafFound P k va l s = .error (.exception f) t)
    (hf : isKeyFault f.cause) :
    l.entry.grants (s.sv39 P k) k = true ∧ keyDenies P s (pteOf l.entry) (memType k) = true := by
  unfold leafFound at h
  split at h
  · unfold pageFaulted at h
    cases h
    exact absurd hf (pageFault_not_key _ _)
  next hg =>
  split at h
  · next hk => exact ⟨Bool.eq_true_of_not_eq_false hg, hk⟩
  split at h
  · unfold pageFaulted at h
    cases h
    exact absurd hf (pageFault_not_key _ _)
  · have hav : (avoids isKeyFault).Within (do
        ptwUpdateAd P l.addr (pteOf l.entry) va (memType k)
        pure (P.paddr (leafPage l va)) : Exec Word) :=
      .bind (ptwUpdateAd_avoids isKeyFault_noAccess) fun _ => .ret _ _
    exact absurd hf (hav.error h f rfl)

/-- A key fault of `ptw` comes from a leaf that grants the access. -/
theorem ptw_key (h : Translating s k) (hlow : LowWalk P s k va)
    (hp : ptw P va (memType k) s = .error (.exception f) t) (hf : isKeyFault f.cause) :
    ∃ l u, Sv39.walk (readEntry P k va) (s.sv39 P k) va s = .ok (some l) u ∧
      l.entry.grants (s.sv39 P k) k = true ∧
      keyDenies P u (pteOf l.entry) (memType k) = true := by
  rw [ptw_walk h hlow] at hp
  obtain hread | ⟨found, u, hfound, hend⟩ := error_of_bind hp
  · obtain hdev | ⟨u, hu, hacc⟩ := (walk_effect _).error hread
    · cases hdev
    · unfold accessFaulted at hacc
      cases hacc
      exact absurd hf (accessFault_not_key _ _)
  have hu : Observed s u := (walk_effect _).ok hfound
  cases found with
  | none =>
    unfold walkEnd pageFaulted at hend
    cases hend
    exact absurd hf (pageFault_not_key _ _)
  | some l =>
    obtain ⟨hg, hkey⟩ := leafFound_key hend hf
    rw [hu.sv39] at hg
    exact ⟨l, u, hfound, hg, hkey⟩

theorem isaMmuTranslate_key
    (hp : isaMmuTranslate P va (memType k) s = .error (.exception f) t)
    (hf : isKeyFault f.cause) : ptw P va (memType k) s = .error (.exception f) t := by
  obtain hptw | ⟨r, u, -, hforce⟩ := error_of_bind hp
  · exact hptw
  · have hav : (avoids isKeyFault).Within (do
        if r ≠ memRetFail then forceRaisePf P va (memType k) else pure ()
        pure r : Exec Word) := by
      dsimp only
      split
      · exact .bind (forceRaisePf_avoids isKeyFault_noPage) fun _ => .ret _ _
      · exact .ret _ _
    exact absurd hf (hav.error hforce f rfl)

theorem keyFaulted_reason (P : Platform) (u : Machine) (k : Sv39.Kind) (hk : k ≠ .fetch) (va : Word)
    (ex : Exc) :
    ((u.setCsr .dfreason (keyReason (memType k)).code).faulted P ex va).csr .dfreason =
      (if k = .store then FaultReason.MFR_SF else .MFR_LF).code := by
  have htval : ∀ l : Level, Csr.dfreason ≠ l.tval := by
    intro l
    cases l <;> exact fun h => nomatch h
  unfold Machine.faulted
  rw [Machine.setCsr_csr_ne _ _ (htval _), Machine.setCsr_csr_self]
  cases k with
  | fetch => exact absurd rfl hk
  | load | store => rfl

/-- Enabled keys restrict accesses that the page tables allow, and page faults come first. The tables
are in low pages, and the leaf is no superpage out of place that the key would deny as well: there the
key is looked at first. -/
theorem key_fault_iff (h : Translating s k) (hk : k ≠ .fetch) (hlow : LowWalk P s k va)
    (hwhole : ∀ l, WalksTo P s k va l → l.entry.grants (s.sv39 P k) k = true →
      KeyDenied P s k l.entry → l.entry.whole l.level = true) :
    ((∃ t, KeyFaults P s k va t) ↔ ∃ l, WalksTo P s k va l ∧
        l.admits (s.sv39 P k) k = true ∧ KeyDenied P s k l.entry) ∧
      ∀ u, Sv39.translate (readEntry P k va) (s.sv39 P k) k va s = .ok none u →
        isaMmuTranslate P va (memType k) s = pageFaulted P u (memType k) va := by
  refine ⟨⟨?_, ?_⟩, ?_⟩
  · rintro ⟨t, hfault⟩
    have hkey : isKeyFault (if s.typeMode (memType k) = .U then Exc.DUCF else .DSCF) :=
      dasicsEx_key _
    obtain ⟨l, u, hwalk, hg, hden⟩ := ptw_key h hlow (isaMmuTranslate_key hfault.raised hkey) hkey
    have hu : Observed s u := (walk_effect _).ok hwalk
    have hden' : KeyDenied P s k l.entry :=
      (keyDenied_observed hu).mp ((keyDenies_iff hk (h.observed hu)).mp hden)
    refine ⟨l, ⟨u, hwalk⟩, ?_, hden'⟩
    unfold Sv39.Leaf.admits
    rw [hg, hwhole l ⟨u, hwalk⟩ hg hden']
    rfl
  · rintro ⟨l, ⟨u, hwalk⟩, hadmit, hden⟩
    have hu : Observed s u := (walk_effect _).ok hwalk
    obtain ⟨hg, -⟩ := Bool.and_eq_true_iff.mp hadmit
    have hmode : u.typeMode (memType k) = s.typeMode (memType k) := hu.accessMode _
    have hdenies : keyDenies P u (pteOf l.entry) (memType k) = true :=
      (keyDenies_iff hk (h.observed hu)).mpr ((keyDenied_observed hu).mpr hden)
    have hleaf : leafFound P k va l u = keyFaulted P u (memType k) va := by
      have hne : ¬ (true = false) := by decide
      unfold leafFound
      rw [hu.sv39, hg, if_neg hne, if_pos hdenies]
    have hptw : ptw P va (memType k) s = keyFaulted P u (memType k) va := by
      rw [ptw_walk h hlow, bind_ok hwalk]
      exact hleaf
    unfold keyFaulted at hptw
    rw [hmode] at hptw
    exact ⟨_, bind_error hptw, keyFaulted_reason P u k hk va _⟩
  · intro u htr
    obtain ⟨found, u', hwalk, hret⟩ := ok_of_bind htr
    obtain ⟨hnone, rfl⟩ := EStateM.Result.ok.inj hret
    have hu : Observed s u' := (walk_effect _).ok hwalk
    have hptw : ptw P va (memType k) s = walkEnd P k va found u' := by
      rw [ptw_walk h hlow, bind_ok hwalk]
    suffices hend : walkEnd P k va found u' = pageFaulted P u' (memType k) va from
      bind_error (hptw.trans hend)
    cases found with
    | none => rfl
    | some l =>
      have hrefused : l.admits (s.sv39 P k) k = false := by
        rw [Option.map_eq_none_iff, Option.filter_eq_none_iff] at hnone
        exact Bool.eq_false_of_not_eq_true (hnone l rfl)
      unfold walkEnd leafFound
      dsimp only
      rw [hu.sv39]
      cases hg : l.entry.grants (s.sv39 P k) k with
      | false => exact if_pos rfl
      | true =>
        have hbroken : l.entry.whole l.level = false := by
          unfold Sv39.Leaf.admits at hrefused
          rw [hg, Bool.true_and] at hrefused
          exact hrefused
        have hkey : ¬ keyDenies P u' (pteOf l.entry) (memType k) = true := by
          intro hd
          have hden := (keyDenied_observed hu).mp ((keyDenies_iff hk (h.observed hu)).mp hd)
          exact Bool.false_ne_true (hbroken.symm.trans (hwhole l ⟨u', hwalk⟩ hg hden))
        rw [if_neg hkey, if_pos hbroken, if_neg (by decide)]

/-- Supervisor mode with the root table at page `root` and the access of key 0 disabled. -/
def keyed (root spkctl : Word) : Machine :=
  ((supervisor root gigaTable).setCsr .spkrs 1).setCsr .spkctl spkctl

def gigaLeaf : Sv39.Leaf := ⟨2, 0x80000000, ⟨0x200000cf⟩⟩

/-- A gigapage that begins 4 KiB above the start of memory. -/
def brokenTable (a : Word) : BitVec 8 := if a = 0x80000001 then 0x04 else gigaTable a

/-- When the keys are not in use the load is translated. When they are, a load through a superpage out
of place, or one that misses its table and finds the one at the lower 32 bits, is denied by the key. -/
theorem key_fault_not_iff :
    ((walkPlatform false).dasics = true ∧
      WalksTo (walkPlatform false) (keyed 0x80000 0) .load 0 gigaLeaf ∧
      gigaLeaf.admits ((keyed 0x80000 0).sv39 (walkPlatform false) .load) .load = true ∧
      (pkeyField (keyed 0x80000 0) .S gigaLeaf.entry).getLsbD 0 = true ∧
      isaMmuTranslate (walkPlatform false) 0 .read (keyed 0x80000 0) =
        .ok 0x80000000 (keyed 0x80000 0)) ∧
    ((∃ u, Sv39.translate (readEntry (walkPlatform false) .load 0)
        (({ keyed 0x80000 2 with pmem := brokenTable } : Machine).sv39 (walkPlatform false) .load) .load 0
        { keyed 0x80000 2 with pmem := brokenTable } = .ok none u) ∧
      ∃ t, KeyFaults (walkPlatform false) { keyed 0x80000 2 with pmem := brokenTable } .load 0 t) ∧
    (∃ u, Sv39.translate (readEntry (walkPlatform false) .load 0)
        ((keyed 0x100080000 2).sv39 (walkPlatform false) .load) .load 0 (keyed 0x100080000 2) =
          .error (.exception ⟨.LAF, some 0, .plain⟩) u) ∧
      ∃ t, KeyFaults (walkPlatform false) (keyed 0x100080000 2) .load 0 t :=
  ⟨⟨rfl, ⟨_, rfl⟩, rfl, rfl, rfl⟩, ⟨⟨_, rfl⟩, _, rfl, rfl⟩, ⟨_, rfl⟩, _, rfl, rfl⟩

theorem key_fault_iff_gigapage : ∃ t, KeyFaults (walkPlatform false) (keyed 0x80000 2) .load 0 t := by
  have h : Translating (keyed 0x80000 2) .load := ⟨.inr rfl, fun hk => nomatch hk⟩
  have hread : readEntry (walkPlatform false) .load 0 (Sv39.entryAddr 0x80000 0 2) (keyed 0x80000 2) =
      .ok 0x200000cf (keyed 0x80000 2) := rfl
  have hwalk : Sv39.walk (readEntry (walkPlatform false) .load 0)
      ((keyed 0x80000 2).sv39 (walkPlatform false) .load) 0 (keyed 0x80000 2) =
        .ok (some gigaLeaf) (keyed 0x80000 2) := rfl
  have hlow := lowWalk_of_leaf (by decide) hread rfl
  have hwhole : ∀ l, WalksTo (walkPlatform false) (keyed 0x80000 2) .load 0 l →
      l.entry.grants ((keyed 0x80000 2).sv39 (walkPlatform false) .load) .load = true →
      KeyDenied (walkPlatform false) (keyed 0x80000 2) .load l.entry →
        l.entry.whole l.level = true := by
    rintro l ⟨u, hl⟩ _ _
    cases hwalk.symm.trans hl
    rfl
  refine (key_fault_iff h (fun hk => nomatch hk) hlow hwhole).1.mpr ⟨gigaLeaf, ⟨_, hwalk⟩, rfl, ?_⟩
  exact ⟨rfl, rfl, .inl rfl⟩

end Order

end Nemu
