import Nemu.WalkContract
import Nemu.HostTlb

namespace Nemu

open Effect

set_option autoImplicit true

/-- The loop of `ptw` over page tables in memory. There is no result when an entry lies outside
memory. -/
def walkLoop (P : Platform) (mem : Word → BitVec 8) (va : Word) (level : Nat) (pgBase : Word) :
    Option Walk :=
  let pPte := pgBase + vpn va level * 8
  let pte : Pte := ⟨Bytes.readLE 64 mem (P.paddr pPte) 8⟩
  if inPmem P (P.paddr pPte) then
    if !pte.v || (!pte.r && pte.w) then some (.bad pte)
    else if pte.r || pte.x then some (.leaf level pPte pte)
    else match level with
      | 0 => some (.bad pte)
      | level + 1 => walkLoop P mem va level pte.base
  else none

def rootBase (m : Machine) : Word := pageBase ((m.csr .satp).extractLsb' 0 44)

def Canonical (va : Word) : Prop := (va.extractLsb' 0 39).signExtend 64 = va

instance (va : Word) : Decidable (Canonical va) := inferInstanceAs (Decidable (_ = _))

/-- What `ptw` finds for an address when its page tables are in memory. -/
def memoryWalk (P : Platform) (m : Machine) (va : Word) : Option Walk :=
  if Canonical va then walkLoop P m.pmem va 2 (rootBase m) else some (.bad ⟨0⟩)

section Machine

variable {P : Platform} {s : Machine} {va va' : Word} {type : MemType}

/-- Without the PMP, memory is all that a read of memory looks at. -/
theorem paddrRead_pmem (hpmp : P.pmpCheck = false) (hin : inPmem P (P.paddr pa) = true)
    (mode : Mode) : paddrRead P pa len type mode va s = pmemRead (P.paddr pa) len s := by
  have hpass : isaPmpCheckPermission P s (P.paddr pa) len type mode = true := by
    simp [isaPmpCheckPermission, hpmp]
  unfold paddrRead
  rw [get_bind, hpass, hin]
  rfl

theorem paddrRead_entry (hpmp : P.pmpCheck = false) (hin : inPmem P (P.paddr pa) = true)
    (mode : Mode) :
    paddrRead P pa 8 type mode va s = .ok (Bytes.readLE 64 s.pmem (P.paddr pa) 8) s :=
  paddrRead_pmem hpmp hin mode

theorem walkLoop_run (hpmp : P.pmpCheck = false) (h : walkLoop P s.pmem va level base = some w) :
    ptwLoop P va type level base s = .ok w s := by
  induction level generalizing base with
  | zero =>
    unfold walkLoop at h
    dsimp only at h
    split at h
    · next hin =>
      unfold ptwLoop
      rw [bind_ok (paddrRead_entry hpmp hin .S)]
      dsimp only
      split at h
      · next hbad =>
        cases h
        rw [if_pos hbad]
        rfl
      · next hbad =>
        rw [if_neg hbad]
        split at h
        · next hleaf =>
          cases h
          rw [if_pos hleaf]
          rfl
        · next hleaf =>
          cases h
          rw [if_neg hleaf]
          rfl
    · cases h
  | succ level ih =>
    unfold walkLoop at h
    dsimp only at h
    split at h
    · next hin =>
      unfold ptwLoop
      rw [bind_ok (paddrRead_entry hpmp hin .S)]
      dsimp only
      split at h
      · next hbad =>
        cases h
        rw [if_pos hbad]
        rfl
      · next hbad =>
        rw [if_neg hbad]
        split at h
        · next hleaf =>
          cases h
          rw [if_pos hleaf]
          rfl
        · next hleaf =>
          rw [if_neg hleaf]
          exact ih h
    · cases h

/-- The machine finds what the walk in memory finds, and changes nothing. -/
theorem memoryWalk_run (hpmp : P.pmpCheck = false) (h : memoryWalk P s va = some w) :
    ptwWalk P va type s = .ok w s := by
  unfold memoryWalk at h
  change (if Canonical va then ptwLoop P va type 2 (rootBase s) else pure (.bad ⟨0⟩) : Exec Walk) s
    = _
  split at h
  · next hc =>
    rw [if_pos hc]
    exact walkLoop_run hpmp h
  · next hc =>
    cases h
    rw [if_neg hc]
    rfl

end Machine

section Pages

variable {P : Platform} {va va' a b : Word}

theorem getLsbD_of_vpn (h : hosttlbVpn va = hosttlbVpn va') {i : Nat} (hi : 12 ≤ i) :
    va.getLsbD i = va'.getLsbD i := by
  have hbit := congrArg (fun x => x.getLsbD (i - 12)) h
  simp only [hosttlbVpn, BitVec.getLsbD_ushiftRight] at hbit
  rwa [Nat.add_sub_cancel' hi] at hbit

theorem vpn_congr (h : hosttlbVpn va = hosttlbVpn va') (level : Nat) :
    vpn va level = vpn va' level := by
  unfold vpn vpnShift
  rw [BitVec.shiftRight_add, BitVec.shiftRight_add]
  unfold hosttlbVpn at h
  rw [h]

theorem canonical_iff : Canonical va ↔ ∀ i, 39 ≤ i → i < 64 → va.getLsbD i = va.getLsbD 38 := by
  have hext : ∀ i < 64, ((va.extractLsb' 0 39).signExtend 64).getLsbD i =
      if i < 39 then va.getLsbD i else va.getLsbD 38 := by
    intro i hi
    have hlast : (va.extractLsb' 0 39).msb = va.getLsbD 38 := by
      simp [BitVec.msb_eq_getLsbD_last]
    rw [BitVec.getLsbD_signExtend, hlast, decide_eq_true hi, Bool.true_and,
      BitVec.getLsbD_extractLsb', Nat.zero_add]
    by_cases h39 : i < 39 <;> simp [h39]
  unfold Canonical
  constructor
  · intro h i h1 h2
    have hbit := hext i h2
    rw [h, if_neg (by omega)] at hbit
    exact hbit
  · intro h
    apply BitVec.eq_of_getLsbD_eq
    intro i hi
    rw [hext i hi]
    split
    · rfl
    · exact (h i (by omega) hi).symm

theorem canonical_congr (h : hosttlbVpn va = hosttlbVpn va') : Canonical va ↔ Canonical va' := by
  simp only [canonical_iff]
  have h38 : va.getLsbD 38 = va'.getLsbD 38 := getLsbD_of_vpn h (by omega)
  constructor
  · intro hc i h1 h2
    rw [← h38, ← getLsbD_of_vpn h (by omega)]
    exact hc i h1 h2
  · intro hc i h1 h2
    rw [h38, getLsbD_of_vpn h (by omega)]
    exact hc i h1 h2

theorem walkLoop_congr (h : hosttlbVpn va = hosttlbVpn va') (mem : Word → BitVec 8) (level : Nat)
    (base : Word) : walkLoop P mem va level base = walkLoop P mem va' level base := by
  induction level generalizing base with
  | zero =>
    unfold walkLoop
    rw [vpn_congr h]
  | succ level ih =>
    unfold walkLoop
    rw [vpn_congr h]
    simp only [ih]

theorem memoryWalk_congr (h : hosttlbVpn va = hosttlbVpn va') (m : Machine) :
    memoryWalk P m va = memoryWalk P m va' := by
  unfold memoryWalk
  simp only [canonical_congr h, walkLoop_congr h]

theorem Canonical.msbs (h : Canonical va) :
    va >>> 38 = ((1 : Word) <<< 26) - 1 ∨ va >>> 38 = 0 := by
  have hbits := canonical_iff.mp h
  have hall : ∀ i, i < 26 → (va >>> 38).getLsbD i = va.getLsbD 38 := by
    intro i hi
    rw [BitVec.getLsbD_ushiftRight]
    by_cases h0 : i = 0
    · rw [h0]
    · exact hbits (38 + i) (by omega) (by omega)
  have hmask : ∀ i < 64, (((1 : Word) <<< 26) - 1).getLsbD i = decide (i < 26) := by decide
  cases hb : va.getLsbD 38 with
  | true =>
    left
    apply BitVec.eq_of_getLsbD_eq
    intro i hi
    rw [hmask i hi]
    by_cases h26 : i < 26
    · rw [hall i h26, hb, decide_eq_true h26]
    · rw [BitVec.getLsbD_ushiftRight, BitVec.getLsbD_of_ge va _ (by omega), decide_eq_false h26]
  | false =>
    right
    apply BitVec.eq_of_getLsbD_eq
    intro i hi
    have hzero : (0 : Word).getLsbD i = false := BitVec.getLsbD_zero
    rw [hzero]
    by_cases h26 : i < 26
    · rw [hall i h26, hb]
    · rw [BitVec.getLsbD_ushiftRight, BitVec.getLsbD_of_ge va _ (by omega)]

end Pages

section Marks

variable {P : Platform} {mem : Word → BitVec 8} {a : Word} {b : BitVec 8} {p q p' : Pte}

/-- `q` is `p` with more of the bits A and D set. -/
def Pte.Extends (p q : Pte) : Prop := ∃ b : BitVec 8, b &&& 0x3f = 0 ∧ q.val = p.val ||| b.setWidth 64

theorem Pte.Extends.refl (p : Pte) : p.Extends p := ⟨0, by decide, by simp⟩

theorem Pte.Extends.trans (h : p.Extends q) (h' : q.Extends p') : p.Extends p' := by
  obtain ⟨b, hb, hq⟩ := h
  obtain ⟨b', hb', hr⟩ := h'
  refine ⟨b ||| b', ?_, ?_⟩
  · rw [BitVec.and_or_distrib_right, hb, hb']
    rfl
  · rw [hr, hq, BitVec.setWidth_or, BitVec.or_assoc]

theorem getLsbD_of_mark (hb : b &&& 0x3f = 0) {i : Nat} (hi : i < 6) : b.getLsbD i = false := by
  have hbit := congrArg (fun x => x.getLsbD i) hb
  have hmask : ∀ i < 6, (0x3f : BitVec 8).getLsbD i = true := by decide
  have hzero : (0 : BitVec 8).getLsbD i = false := BitVec.getLsbD_zero
  rwa [BitVec.getLsbD_and, hmask i hi, Bool.and_true, hzero] at hbit

theorem Pte.Extends.bit (h : p.Extends q) {i : Nat} (hi : i < 6 ∨ 8 ≤ i) :
    q.val.getLsbD i = p.val.getLsbD i := by
  obtain ⟨b, hb, hq⟩ := h
  rw [hq, BitVec.getLsbD_or, BitVec.getLsbD_setWidth]
  have hbit : b.getLsbD i = false := by
    obtain hi | hi := hi
    · exact getLsbD_of_mark hb hi
    · exact BitVec.getLsbD_of_ge b i hi
  rw [hbit, Bool.and_false, Bool.or_false]

theorem Pte.Extends.set (h : p.Extends q) {i : Nat} (hp : p.val.getLsbD i = true) :
    q.val.getLsbD i = true := by
  obtain ⟨b, _, hq⟩ := h
  rw [hq, BitVec.getLsbD_or, hp, Bool.true_or]

theorem Pte.Extends.base (h : p.Extends q) : q.base = p.base := by
  unfold Pte.base
  congr 1
  apply BitVec.eq_of_getLsbD_eq
  intro i hi
  rw [BitVec.getLsbD_extractLsb', BitVec.getLsbD_extractLsb', h.bit (.inr (by omega))]

theorem Pte.Extends.pkey (h : p.Extends q) : q.pkey = p.pkey := by
  unfold Pte.pkey
  congr 1
  apply BitVec.eq_of_getLsbD_eq
  intro i hi
  rw [BitVec.getLsbD_extractLsb', BitVec.getLsbD_extractLsb', h.bit (.inr (by omega))]

/-- Memory after bits A and D have been set in the entry at `a`. -/
def markAt (a : Word) (b : BitVec 8) (mem : Word → BitVec 8) : Word → BitVec 8 :=
  Function.update mem a (mem a ||| b)

def Walk.mark (P : Platform) (a : Word) (b : BitVec 8) : Walk → Walk
  | .leaf level pPte pte =>
    .leaf level pPte (if P.paddr pPte = a then ⟨pte.val ||| b.setWidth 64⟩ else pte)
  | .bad pte => .bad pte

/-- An entry at which a walk ends well. -/
structure Pte.IsLeaf (p : Pte) : Prop where
  valid : (!p.v || (!p.r && p.w)) = false
  leaf : (p.r || p.x) = true

theorem Pte.Extends.bad (h : p.Extends q) :
    (!q.v || (!q.r && q.w)) = (!p.v || (!p.r && p.w)) := by
  unfold Pte.v Pte.r Pte.w
  rw [h.bit (.inl (by omega)), h.bit (.inl (by omega)), h.bit (.inl (by omega))]

theorem Pte.Extends.points (h : p.Extends q) : (q.r || q.x) = (p.r || p.x) := by
  unfold Pte.r Pte.x
  rw [h.bit (.inl (by omega)), h.bit (.inl (by omega))]

theorem paddr_mod (P : Platform) (x : Word) : (P.paddr x).toNat % 8 = x.toNat % 8 := by
  unfold Config.paddr
  split
  · rfl
  · have hmask : (0xffffffff : Word).toNat = 2 ^ 32 - 1 := by decide
    rw [BitVec.toNat_and, hmask, Nat.and_two_pow_sub_one_eq_mod]
    omega

theorem entry_mod (P : Platform) {base : Word} (hbase : base.toNat % 8 = 0) (i : Word) :
    (P.paddr (base + i * 8)).toNat % 8 = 0 := by
  have h8 : (8 : Word).toNat = 8 := by decide
  rw [paddr_mod, BitVec.toNat_add, BitVec.toNat_mul, h8]
  omega

theorem pageBase_toNat (pn : BitVec 44) : (pageBase pn).toNat = 2 ^ 12 * (pn.toNat % 2 ^ 32) := by
  unfold pageBase
  rw [BitVec.toNat_setWidth, BitVec.toNat_shiftLeft, Nat.shiftLeft_eq]
  omega

theorem pageBase_mod (pn : BitVec 44) : (pageBase pn).toNat % 8 = 0 := by
  rw [pageBase_toNat]
  omega

theorem read_markAt (ha : a.toNat % 8 = 0) {x : Word} (hx : x.toNat % 8 = 0) (hne : x ≠ a) :
    Bytes.readLE 64 (markAt a b mem) x 8 = Bytes.readLE 64 mem x 8 := by
  apply Bytes.readLE_update
  have hsub : (a - x).toNat % 8 = 0 := by
    rw [BitVec.toNat_sub]
    omega
  have hpos : (a - x).toNat ≠ 0 := by
    intro h0
    apply hne
    have hzero : a - x = 0#64 := BitVec.eq_of_toNat_eq h0
    rw [← BitVec.sub_add_cancel a x, hzero, BitVec.zero_add]
  omega

theorem read_markAt_self (a : Word) (b : BitVec 8) (mem : Word → BitVec 8) :
    Bytes.readLE 64 (markAt a b mem) a 8 = Bytes.readLE 64 mem a 8 ||| b.setWidth 64 :=
  Bytes.readLE_update_or mem a b (by decide)

/-- Setting A and D in one entry is all that a walk sees of it. -/
theorem walkLoop_mark (hb : b &&& 0x3f = 0) (ha : a.toNat % 8 = 0)
    (hleaf : Pte.IsLeaf ⟨Bytes.readLE 64 mem a 8⟩) {base : Word} (hbase : base.toNat % 8 = 0)
    (va : Word) (level : Nat) :
    walkLoop P (markAt a b mem) va level base =
      (walkLoop P mem va level base).map (Walk.mark P a b) := by
  have hext : (⟨Bytes.readLE 64 mem a 8⟩ : Pte).Extends
      ⟨Bytes.readLE 64 mem a 8 ||| b.setWidth 64⟩ := ⟨b, hb, rfl⟩
  -- an entry is another one than that at `a`, or it is the leaf at `a`
  have hentry : ∀ {base : Word} (level : Nat), base.toNat % 8 = 0 →
      P.paddr (base + vpn va level * 8) ≠ a → Bytes.readLE 64 (markAt a b mem)
        (P.paddr (base + vpn va level * 8)) 8 =
      Bytes.readLE 64 mem (P.paddr (base + vpn va level * 8)) 8 := fun level hbase hne =>
    read_markAt ha (entry_mod P hbase _) hne
  have hself : ∀ {base : Word} (level : Nat), P.paddr (base + vpn va level * 8) = a →
      walkLoop P (markAt a b mem) va level base =
        (walkLoop P mem va level base).map (Walk.mark P a b) := by
    intro base level heq
    unfold walkLoop
    dsimp only
    rw [heq, read_markAt_self, hext.bad, hext.points, hleaf.valid, hleaf.leaf]
    split
    · simp only [Bool.false_eq_true, ↓reduceIte, Option.map_some, Walk.mark, if_pos heq]
    · rfl
  induction level generalizing base with
  | zero =>
    by_cases heq : P.paddr (base + vpn va 0 * 8) = a
    · exact hself 0 heq
    · unfold walkLoop
      simp only [hentry 0 hbase heq]
      split
      · split
        · rfl
        · split
          · simp only [Option.map_some, Walk.mark, if_neg heq]
          · rfl
      · rfl
  | succ level ih =>
    by_cases heq : P.paddr (base + vpn va (level + 1) * 8) = a
    · exact hself (level + 1) heq
    · unfold walkLoop
      simp only [hentry (level + 1) hbase heq]
      split
      · split
        · rfl
        · split
          · simp only [Option.map_some, Walk.mark, if_neg heq]
          · exact ih (pageBase_mod _)
      · rfl

/-- What is known of the entry at which a walk ends well. -/
structure LeafAt (P : Platform) (mem : Word → BitVec 8) (pPte : Word) (pte : Pte) : Prop where
  inMemory : inPmem P (P.paddr pPte) = true
  val : pte.val = Bytes.readLE 64 mem (P.paddr pPte) 8
  isLeaf : pte.IsLeaf
  aligned : (P.paddr pPte).toNat % 8 = 0

theorem walkLoop_leaf {base : Word} (hbase : base.toNat % 8 = 0)
    (h : walkLoop P mem va level base = some (.leaf l pPte pte)) : LeafAt P mem pPte pte := by
  induction level generalizing base with
  | zero =>
    unfold walkLoop at h
    dsimp only at h
    split at h
    · next hin =>
      split at h
      · cases h
      · next hvalid =>
        split at h
        · next hleaf =>
          cases h
          exact ⟨hin, rfl, ⟨Bool.eq_false_iff.mpr hvalid, hleaf⟩, entry_mod P hbase _⟩
        · cases h
    · cases h
  | succ level ih =>
    unfold walkLoop at h
    dsimp only at h
    split at h
    · next hin =>
      split at h
      · cases h
      · next hvalid =>
        split at h
        · next hleaf =>
          cases h
          exact ⟨hin, rfl, ⟨Bool.eq_false_iff.mpr hvalid, hleaf⟩, entry_mod P hbase _⟩
        · exact ih (pageBase_mod _) h
    · cases h

theorem memoryWalk_leaf (h : memoryWalk P m va = some (.leaf level pPte pte)) :
    Canonical va ∧ LeafAt P m.pmem pPte pte := by
  unfold memoryWalk at h
  split at h
  · next hc => exact ⟨hc, walkLoop_leaf (pageBase_mod _) h⟩
  · cases h

/-- The translation of an address is kept, but for the bits A and D that may have been set. -/
def Kept (x y : Option Walk) : Prop :=
  ∀ level pPte pte, x = some (.leaf level pPte pte) →
    ∃ pPte' pte', y = some (.leaf level pPte' pte') ∧ pte.Extends pte'

theorem Kept.refl (x : Option Walk) : Kept x x :=
  fun _ pPte pte h => ⟨pPte, pte, h, .refl pte⟩

theorem Kept.trans (h : Kept x y) (h' : Kept y z) : Kept x z := by
  intro level pPte pte hx
  obtain ⟨pPte', pte', hy, he⟩ := h level pPte pte hx
  obtain ⟨pPte'', pte'', hz, he'⟩ := h' level pPte' pte' hy
  exact ⟨pPte'', pte'', hz, he.trans he'⟩

theorem kept_mark (hb : b &&& 0x3f = 0) (x : Option Walk) : Kept x (x.map (Walk.mark P a b)) := by
  rintro level pPte pte rfl
  refine ⟨pPte, _, rfl, ?_⟩
  split
  · exact ⟨b, hb, rfl⟩
  · exact .refl pte

/-- The walks of all addresses after A and D have been set where one of them ends. -/
theorem memoryWalk_mark (hb : b &&& 0x3f = 0) (hleaf : LeafAt P m.pmem pPte pte)
    (hpmem : m'.pmem = markAt (P.paddr pPte) b m.pmem) (hsatp : m'.csr .satp = m.csr .satp)
    (va : Word) :
    memoryWalk P m' va = (memoryWalk P m va).map (Walk.mark P (P.paddr pPte) b) := by
  have hisLeaf : Pte.IsLeaf ⟨Bytes.readLE 64 m.pmem (P.paddr pPte) 8⟩ := hleaf.val ▸ hleaf.isLeaf
  unfold memoryWalk rootBase
  rw [hpmem, hsatp]
  split
  · exact walkLoop_mark hb hleaf.aligned hisLeaf (pageBase_mod _) va 2
  · rfl

end Marks

end Nemu
