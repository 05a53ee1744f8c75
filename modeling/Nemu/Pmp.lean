import Nemu.CsrWrites
import Nemu.Paddr

namespace Nemu

open Effect

set_option autoImplicit true

/-- The byte address in `pmpaddr[i]`, truncated to 4 KiB. -/
def pmpTop (s : Machine) (i : Fin 16) : Nat := (s.csr (.pmpaddr i)).toNat * 4 / 4096 * 4096

/-- Where a range that ends at `pmpTop s i` starts. -/
def pmpBase (s : Machine) (i : Fin 16) : Nat :=
  if i.val = 0 then 0 else pmpTop s ⟨i.val - 1, by omega⟩

/-- The zero above the ones at the bottom of `x` is bit `k`. The granularity of 4 KiB makes the
bits below 9 count as ones. -/
structure NapotZero (x : Word) (k : Nat) : Prop where
  ge : 9 ≤ k
  zero : x.getLsbD k = false
  ones : ∀ j, 9 ≤ j → j < k → x.getLsbD j = true

/-- The naturally aligned region of `2 ^ (k + 3)` bytes that `x` encodes. -/
def InNapot (x b : Word) : Prop :=
  ∃ k, NapotZero x k ∧ x.toNat / 2 ^ (k + 1) * 2 ^ (k + 3) ≤ b.toNat ∧
    b.toNat < x.toNat / 2 ^ (k + 1) * 2 ^ (k + 3) + 2 ^ (k + 3)

/-- Entry `i` matches the byte at `b`. -/
def PmpMatches (s : Machine) (i : Fin 16) (b : Word) : Prop :=
  (pmpcfgFromIndex s i &&& pmpA = pmpTOR ∧ pmpBase s i ≤ b.toNat ∧ b.toNat < pmpTop s i) ∨
  (pmpcfgFromIndex s i &&& pmpA = pmpNAPOT ∧ InNapot (s.csr (.pmpaddr i)) b)

def pmpBit : MemType → Nat
  | .read | .ifetchRead | .writeRead => 0
  | .write => 1
  | .ifetch => 2

def PmpGrants (cfg : BitVec 8) (type : MemType) (mode : Mode) : Prop :=
  (mode = .M ∧ cfg.getLsbD 7 = false) ∨ cfg.getLsbD (pmpBit type) = true

/-- The lowest entry that matches a byte of the access matches all of them and grants it, or there
is no such entry and the mode is M. Only the entries from `k` on count. -/
def PmpAllows (n : Nat) (s : Machine) (k : Nat) (addr : Word) (len : Nat) (type : MemType)
    (mode : Mode) : Prop :=
  (mode = .M ∧ ∀ i : Fin 16, k ≤ i.val → i.val < n → ∀ j < len,
    ¬ PmpMatches s i (addr + BitVec.ofNat 64 j)) ∨
  ∃ i : Fin 16, k ≤ i.val ∧ i.val < n ∧
    (∀ i' : Fin 16, k ≤ i'.val → i'.val < i.val → ∀ j < len,
      ¬ PmpMatches s i' (addr + BitVec.ofNat 64 j)) ∧
    (∃ j < len, PmpMatches s i (addr + BitVec.ofNat 64 j)) ∧
    (∀ j < len, PmpMatches s i (addr + BitVec.ofNat 64 j)) ∧
    PmpGrants (pmpcfgFromIndex s i) type mode

def pmpMode (s : Machine) (type : MemType) (outMode : Mode) : Mode :=
  if outMode = .M then
    if s.mprv = true ∧ type ≠ .ifetch then s.mpp else s.mode
  else outMode

/-- The contents that `csr_write` can give the PMP registers. -/
structure PmpProducible (P : Platform) (s : Machine) : Prop where
  cfg : ∀ i, ∃ b, pmpcfgFromIndex s i = pmpcfgLegal b
  addr : ∀ i, (s.csr (.pmpaddr i)).toNat < 2 ^ (P.paddrBits - 2)

variable {P : Platform} {s t : Machine} {i : Fin 16} {w : CsrWrite} {a b x : Word}

section Match

theorem pmpcfgLegal_mode (b : BitVec 8) :
    pmpcfgLegal b &&& pmpA = 0 ∨ pmpcfgLegal b &&& pmpA = pmpTOR ∨
      pmpcfgLegal b &&& pmpA = pmpNAPOT := by
  revert b
  decide

theorem PmpProducible.mode (h : PmpProducible P s) (i : Fin 16) :
    pmpcfgFromIndex s i &&& pmpA = 0 ∨ pmpcfgFromIndex s i &&& pmpA = pmpTOR ∨
      pmpcfgFromIndex s i &&& pmpA = pmpNAPOT := by
  obtain ⟨b, hb⟩ := h.cfg i
  rw [hb]
  exact pmpcfgLegal_mode b

theorem PmpProducible.addr_lt (h : PmpProducible P s) (i : Fin 16) :
    (s.csr (.pmpaddr i)).toNat < 2 ^ 54 :=
  Nat.lt_of_lt_of_le (h.addr i) (Nat.pow_le_pow_right (by decide) (by have := P.paddrBits_le; omega))

theorem pmpTorMask_bit (hj : j < 64) : pmpTorMask.getLsbD j = decide (10 ≤ j) := by
  revert j
  decide

theorem pmpTor_eq (x : Word) : (x &&& pmpTorMask) <<< 2 = (x >>> 10) <<< 12 := by
  apply BitVec.eq_of_getLsbD_eq
  intro j hj
  rw [BitVec.getLsbD_shiftLeft, BitVec.getLsbD_shiftLeft, BitVec.getLsbD_and,
    BitVec.getLsbD_ushiftRight, pmpTorMask_bit (by omega), decide_eq_true hj]
  by_cases h12 : j < 12
  · have h10 : ¬ 10 ≤ j - 2 := by omega
    simp [h12, h10]
  · have h10 : 10 ≤ j - 2 := by omega
    have h2 : ¬ j < 2 := by omega
    have hsub : 10 + (j - 12) = j - 2 := by omega
    simp [h12, h10, h2, hsub]

theorem pmpTor_toNat (h : x.toNat < 2 ^ 54) :
    ((x &&& pmpTorMask) <<< 2).toNat = x.toNat * 4 / 4096 * 4096 := by
  rw [pmpTor_eq, BitVec.toNat_shiftLeft, BitVec.toNat_ushiftRight, Nat.shiftLeft_eq,
    Nat.shiftRight_eq_div_pow]
  omega

/-- The mask that gives the size of a region, before the ones at its bottom are taken out. -/
def napotOnes (x : Word) : Word := (x <<< 1) ||| 1 ||| ~~~pmpTorMask

theorem napotOnes_bit (x : Word) (hj : j < 64) :
    (napotOnes x).getLsbD j = (decide (j < 10) || x.getLsbD (j - 1)) := by
  unfold napotOnes
  rw [BitVec.getLsbD_or, BitVec.getLsbD_or, BitVec.getLsbD_shiftLeft, BitVec.getLsbD_not,
    pmpTorMask_bit hj]
  by_cases h10 : j < 10
  · have hge : ¬ 10 ≤ j := by omega
    simp [h10, hge, hj]
  · have hge : 10 ≤ j := by omega
    have h1 : ¬ j < 1 := by omega
    have h0 : j ≠ 0 := by omega
    simp [h10, hge, h0, hj]

theorem NapotZero.le (h : NapotZero x k) (hx : x.toNat < 2 ^ 54) : k ≤ 54 := by
  by_contra hk
  have h54 := h.ones 54 (by omega) (by omega)
  rw [← BitVec.testBit_toNat, Nat.testBit_lt_two_pow hx] at h54
  cases h54

/-- The ones at the bottom of the mask reach up to the zero of `x`. -/
theorem NapotZero.ones_iff (h : NapotZero x k) (hx : x.toNat < 2 ^ 54) (hp : p < 64) :
    (∀ j ≤ p, (napotOnes x).getLsbD j = true) ↔ p ≤ k := by
  have hk := h.le hx
  constructor
  · intro hall
    by_contra hpk
    have h1 := hall (k + 1) (by omega)
    have h10 : ¬ k + 1 < 10 := by have := h.ge; omega
    rw [napotOnes_bit x (by omega)] at h1
    simp [h10, h.zero] at h1
  · intro hpk j hj
    rw [napotOnes_bit x (by omega)]
    by_cases h10 : j < 10
    · simp [h10]
    · simp [h10, h.ones (j - 1) (by omega) (by omega)]

/-- The test of the code compares the bits above the region. -/
theorem NapotZero.test_iff (h : NapotZero x k) (hx : x.toNat < 2 ^ 54) (a : Word) :
    (a ^^^ ((x &&& pmpTorMask) <<< 2)) &&&
        (~~~(napotOnes x &&& ~~~(napotOnes x + 1)) <<< 2) = 0 ↔
      ∀ p, k + 3 ≤ p → p < 64 → a.getLsbD p = x.getLsbD (p - 2) := by
  have hk9 := h.ge
  have hbit : ∀ p < 64, ((a ^^^ ((x &&& pmpTorMask) <<< 2)) &&&
      (~~~(napotOnes x &&& ~~~(napotOnes x + 1)) <<< 2)).getLsbD p =
        ((a.getLsbD p ^^ (decide (12 ≤ p) && x.getLsbD (p - 2))) && decide (k + 3 ≤ p)) := by
    intro p hp
    have hones := h.ones_iff hx (p := p - 2) (by omega)
    rw [← BitField.getLsbD_and_not_succ _ _ (by omega)] at hones
    rw [BitVec.getLsbD_and, BitVec.getLsbD_xor, pmpTor_eq, BitVec.getLsbD_shiftLeft,
      BitVec.getLsbD_ushiftRight, BitVec.getLsbD_shiftLeft, BitVec.getLsbD_not]
    by_cases hkp : k + 3 ≤ p
    · have h12 : 12 ≤ p := by omega
      have hsub : 10 + (p - 12) = p - 2 := by omega
      have hf : (napotOnes x &&& ~~~(napotOnes x + 1#64)).getLsbD (p - 2) = false := by
        by_contra hne
        have := hones.mp (by simpa using hne)
        omega
      have h2 : ¬ p < 2 := by omega
      have h12' : ¬ p < 12 := by omega
      have h64 : p - 2 < 64 := by omega
      simp only [BitVec.ofNat_eq_ofNat, hf, hsub, hp, hkp, h12, h12', h2, h64, decide_true,
        decide_false, Bool.not_false, Bool.and_true, Bool.true_and]
    · by_cases h2 : p < 2
      · simp [hkp, h2]
      · have ht : (napotOnes x &&& ~~~(napotOnes x + 1#64)).getLsbD (p - 2) = true :=
          hones.mpr (by omega)
        simp only [BitVec.ofNat_eq_ofNat, ht, hkp, decide_false, Bool.not_true, Bool.and_false]
  constructor
  · intro hz p hkp hp
    have h1 := hbit p hp
    rw [hz] at h1
    have h12 : 12 ≤ p := by omega
    simpa [hkp, h12] using h1
  · intro hall
    apply BitVec.eq_of_getLsbD_eq
    intro p hp
    rw [hbit p hp]
    by_cases hkp : k + 3 ≤ p
    · have h12 : 12 ≤ p := by omega
      simp [hall p hkp hp, h12]
    · simp [hkp]

theorem napotZero_exists (hx : x.toNat < 2 ^ 54) : ∃ k, NapotZero x k := by
  have hex : ∃ k, 9 ≤ k ∧ x.getLsbD k = false :=
    ⟨54, by decide, by rw [← BitVec.testBit_toNat, Nat.testBit_lt_two_pow hx]⟩
  classical
  refine ⟨Nat.find hex, (Nat.find_spec hex).1, (Nat.find_spec hex).2, fun j hj hlt => ?_⟩
  have hmin := Nat.find_min hex hlt
  by_contra hne
  exact hmin ⟨hj, by simpa using hne⟩

theorem quotient_iff (hx : x.toNat < 2 ^ 54) (a : Word) (k : Nat) :
    (∀ p, k + 3 ≤ p → p < 64 → a.getLsbD p = x.getLsbD (p - 2)) ↔
      a.toNat / 2 ^ (k + 3) = x.toNat / 2 ^ (k + 1) := by
  constructor
  · intro hall
    apply Nat.eq_of_testBit_eq
    intro q
    rw [Nat.testBit_div_two_pow, Nat.testBit_div_two_pow, BitVec.testBit_toNat,
      BitVec.testBit_toNat]
    by_cases hq : q + (k + 3) < 64
    · rw [hall (q + (k + 3)) (by omega) hq]
      congr 1
    · rw [BitVec.getLsbD_of_ge a _ (by omega), ← BitVec.testBit_toNat]
      symm
      apply Nat.testBit_lt_two_pow
      exact Nat.lt_of_lt_of_le hx (Nat.pow_le_pow_right (by decide) (by omega))
  · intro heq p hkp hp
    have h1 := congrArg (fun n => n.testBit (p - (k + 3))) heq
    simp only [Nat.testBit_div_two_pow, BitVec.testBit_toNat] at h1
    have e1 : p - (k + 3) + (k + 3) = p := by omega
    have e2 : p - (k + 3) + (k + 1) = p - 2 := by omega
    rwa [e1, e2] at h1

theorem napot_iff (hx : x.toNat < 2 ^ 54) (a : Word) :
    (a ^^^ ((x &&& pmpTorMask) <<< 2)) &&&
        (~~~(napotOnes x &&& ~~~(napotOnes x + 1)) <<< 2) = 0 ↔ InNapot x a := by
  have hregion : ∀ k, a.toNat / 2 ^ (k + 3) = x.toNat / 2 ^ (k + 1) ↔
      x.toNat / 2 ^ (k + 1) * 2 ^ (k + 3) ≤ a.toNat ∧
        a.toNat < x.toNat / 2 ^ (k + 1) * 2 ^ (k + 3) + 2 ^ (k + 3) := by
    intro k
    rw [Nat.div_eq_iff (Nat.two_pow_pos _)]
    have hpos := Nat.two_pow_pos (k + 3)
    omega
  constructor
  · intro h
    obtain ⟨k, hk⟩ := napotZero_exists hx
    have h1 := (quotient_iff hx a k).mp ((hk.test_iff hx a).mp h)
    exact ⟨k, hk, (hregion k).mp h1⟩
  · rintro ⟨k, hk, hin⟩
    exact (hk.test_iff hx a).mpr ((quotient_iff hx a k).mpr ((hregion k).mpr hin))

theorem pmpMatch_iff (hs : PmpProducible P s) (hA : pmpcfgFromIndex s i &&& pmpA ≠ 0)
    (hbase : base.toNat = pmpBase s i) : pmpMatch s i base a = true ↔ PmpMatches s i a := by
  have hx := hs.addr_lt i
  unfold pmpMatch PmpMatches
  dsimp only
  obtain h0 | htor | hnapot := hs.mode i
  · exact absurd h0 hA
  · have htop : ((pmpaddrFromIndex s i &&& pmpTorMask) <<< 2).toNat = pmpTop s i := pmpTor_toNat hx
    have hne : pmpTOR ≠ pmpNAPOT := by decide
    simp only [htor, ↓reduceIte, Bool.and_eq_true, decide_eq_true_eq, BitVec.le_def, BitVec.lt_def,
      hbase, htop, true_and, hne, false_and, or_false]
  · have hne : pmpNAPOT ≠ pmpTOR := by decide
    have hna4 : pmpNAPOT ≠ pmpNA4 := by decide
    simp only [hnapot, hne, hna4, ↓reduceIte, decide_eq_true_eq, false_and, false_or, true_and]
    exact napot_iff hx a

theorem PmpMatches.congr (hpage : a.toNat / 4096 = b.toNat / 4096) (h : PmpMatches s i a) :
    PmpMatches s i b := by
  obtain ⟨hA, h1, h2⟩ | ⟨hA, k, hk, h1, h2⟩ := h
  · refine .inl ⟨hA, ?_⟩
    have hb : ∃ m, pmpBase s i = m * 4096 := by
      unfold pmpBase
      split
      · exact ⟨0, rfl⟩
      · exact ⟨_, rfl⟩
    obtain ⟨m, hm⟩ := hb
    unfold pmpTop at h2 ⊢
    omega
  · have hpow : 2 ^ (k + 3) = 2 ^ (k - 9) * 4096 := by
      have hge := hk.ge
      rw [show (4096 : Nat) = 2 ^ 12 from rfl, ← Nat.pow_add]
      congr 1
      omega
    refine .inr ⟨hA, k, hk, ?_⟩
    rw [hpow, ← Nat.mul_assoc] at h1 h2 ⊢
    omega

end Match

section Loop

variable {addr : Word} {len : Nat} {type : MemType} {mode : Mode} {f : Word → Bool}

theorem aligned_page (hlen : HostLength len) (hal : addr.toNat % len = 0) (hj : j < len) :
    (addr + BitVec.ofNat 64 j).toNat / 4096 = addr.toNat / 4096 := by
  have hlt := addr.isLt
  rw [BitVec.toNat_add, BitVec.toNat_ofNat]
  obtain rfl | rfl | rfl | rfl := hlen <;> omega

theorem matches_byte_iff (hlen : HostLength len) (hal : addr.toNat % len = 0) (hj : j < len) :
    PmpMatches s i (addr + BitVec.ofNat 64 j) ↔ PmpMatches s i addr :=
  ⟨PmpMatches.congr (aligned_page hlen hal hj), PmpMatches.congr (aligned_page hlen hal hj).symm⟩

/-- The sectors that the code samples. -/
def sectors (addr : Word) (len : Nat) : List Word :=
  (List.range ((len + 3) / 4)).map fun k => addr + BitVec.ofNat 64 (4 * k)

theorem sectors_match (hlen : HostLength len) (hal : addr.toNat % len = 0)
    (hm : ∀ a, f a = true ↔ PmpMatches s i a) (ha : a ∈ sectors addr len) :
    f a = true ↔ PmpMatches s i addr := by
  obtain ⟨k, hk, rfl⟩ := List.mem_map.mp ha
  rw [hm]
  apply matches_byte_iff hlen hal
  rw [List.mem_range] at hk
  omega

theorem sectors_any (hlen : HostLength len) (hal : addr.toNat % len = 0)
    (hm : ∀ a, f a = true ↔ PmpMatches s i a) :
    (sectors addr len).any f = true ↔ PmpMatches s i addr := by
  rw [List.any_eq_true]
  constructor
  · rintro ⟨a, ha, hf⟩
    exact (sectors_match hlen hal hm ha).mp hf
  · intro h
    have hpos : 0 < (len + 3) / 4 := by
      obtain rfl | rfl | rfl | rfl := hlen <;> decide
    have hmem : addr + BitVec.ofNat 64 (4 * 0) ∈ sectors addr len :=
      List.mem_map.mpr ⟨0, List.mem_range.mpr hpos, rfl⟩
    exact ⟨_, hmem, (sectors_match hlen hal hm hmem).mpr h⟩

theorem sectors_all (hlen : HostLength len) (hal : addr.toNat % len = 0)
    (hm : ∀ a, f a = true ↔ PmpMatches s i a) (h : PmpMatches s i addr) :
    (sectors addr len).all f = true := by
  rw [List.all_eq_true]
  intro a ha
  exact (sectors_match hlen hal hm ha).mpr h

theorem pmpPermits_iff (cfg : BitVec 8) (type : MemType) (mode : Mode) :
    pmpPermits cfg type mode = true ↔ PmpGrants cfg type mode := by
  have hbit : ∀ cfg : BitVec 8, (cfg &&& pmpL = 0 ↔ cfg.getLsbD 7 = false) ∧
      (cfg &&& pmpR ≠ 0 ↔ cfg.getLsbD 0 = true) ∧ (cfg &&& pmpW ≠ 0 ↔ cfg.getLsbD 1 = true) ∧
      (cfg &&& pmpX ≠ 0 ↔ cfg.getLsbD 2 = true) := by decide
  obtain ⟨hL, hR, hW, hX⟩ := hbit cfg
  unfold pmpPermits PmpGrants pmpBit
  simp only [Bool.or_eq_true, Bool.and_eq_true, decide_eq_true_eq, hL, hR, hW, hX]
  cases type <;> simp

theorem pmpAllows_match (hlen : HostLength len) (hal : addr.toNat % len = 0) (hn : i.val < n)
    (h : PmpMatches s i addr) :
    PmpAllows n s i.val addr len type mode ↔ PmpGrants (pmpcfgFromIndex s i) type mode := by
  have hpos : 0 < len := by
    obtain rfl | rfl | rfl | rfl := hlen <;> decide
  have hall : ∀ j < len, PmpMatches s i (addr + BitVec.ofNat 64 j) :=
    fun j hj => (matches_byte_iff hlen hal hj).mpr h
  constructor
  · rintro (⟨-, hnone⟩ | ⟨i', hi, -, hfirst, -, -, hg⟩)
    · exact absurd (hall 0 hpos) (hnone i (Nat.le_refl _) hn 0 hpos)
    · obtain heq | hlt := Nat.eq_or_lt_of_le hi
      · obtain rfl := Fin.ext heq
        exact hg
      · exact absurd (hall 0 hpos) (hfirst i (Nat.le_refl _) hlt 0 hpos)
  · intro hg
    refine .inr ⟨i, Nat.le_refl _, hn, ?_, ⟨0, hpos, hall 0 hpos⟩, hall, hg⟩
    intro i' h1 h2
    omega

theorem pmpAllows_skip (hlen : HostLength len) (hal : addr.toNat % len = 0)
    (h : ¬ PmpMatches s i addr) :
    PmpAllows n s i.val addr len type mode ↔ PmpAllows n s (i.val + 1) addr len type mode := by
  have hnone : ∀ j < len, ¬ PmpMatches s i (addr + BitVec.ofNat 64 j) :=
    fun j hj => mt (matches_byte_iff hlen hal hj).mp h
  have hstep : ∀ {p : Fin 16 → Prop}, p i → ((∀ i', i.val ≤ i'.val → p i') ↔
      ∀ i', i.val + 1 ≤ i'.val → p i') := by
    intro p hp
    constructor
    · exact fun hall i' hi => hall i' (by omega)
    · intro hall i' hi
      obtain heq | hlt := Nat.eq_or_lt_of_le hi
      · obtain rfl := Fin.ext heq
        exact hp
      · exact hall i' hlt
  constructor
  · rintro (⟨hM, hall⟩ | ⟨i', hi, hn, hfirst, hsome, hmatch, hg⟩)
    · exact .inl ⟨hM, fun i' hi => hall i' (by omega)⟩
    · have hlt : i.val < i'.val := by
        obtain heq | hlt := Nat.eq_or_lt_of_le hi
        · obtain rfl := Fin.ext heq
          obtain ⟨j, hj, hm⟩ := hsome
          exact absurd hm (hnone j hj)
        · exact hlt
      exact .inr ⟨i', hlt, hn, fun i'' h1 => hfirst i'' (by omega), hsome, hmatch, hg⟩
  · rintro (⟨hM, hall⟩ | ⟨i', hi, hn, hfirst, hsome, hmatch, hg⟩)
    · exact .inl ⟨hM, (hstep (p := fun i' => i'.val < n → ∀ j < len, _) fun _ => hnone).mpr hall⟩
    · refine .inr ⟨i', by omega, hn, ?_, hsome, hmatch, hg⟩
      exact (hstep (p := fun i'' => i''.val < i'.val → ∀ j < len, _) fun _ => hnone).mpr hfirst

theorem matches_enabled (h : PmpMatches s i a) : pmpcfgFromIndex s i &&& pmpA ≠ 0 := by
  obtain ⟨hA, -⟩ | ⟨hA, -⟩ := h
  · rw [hA]
    decide
  · rw [hA]
    decide

theorem pmpLoop_cons (s : Machine) (i : Fin 16) (is : List (Fin 16)) (base : Word) :
    pmpLoop s addr len type mode (i :: is) base =
      if pmpcfgFromIndex s i &&& pmpA ≠ 0 ∧ (sectors addr len).any (pmpMatch s i base) then
        (sectors addr len).all (pmpMatch s i base) && pmpPermits (pmpcfgFromIndex s i) type mode
      else pmpLoop s addr len type mode is ((pmpaddrFromIndex s i &&& pmpTorMask) <<< 2) :=
  rfl

/-- The loop over the entries from `k` on. -/
theorem pmpLoop_iff (hs : PmpProducible P s) (hlen : HostLength len) (hal : addr.toNat % len = 0)
    (hn : n ≤ 16) (hk : k ≤ n) (hbase : ∀ h : k < 16, base.toNat = pmpBase s ⟨k, h⟩) :
    pmpLoop s addr len type mode (((List.finRange 16).take n).drop k) base = true ↔
      PmpAllows n s k addr len type mode := by
  have hlength : ((List.finRange 16).take n).length = n := by
    rw [List.length_take, List.length_finRange]
    omega
  induction hm : n - k generalizing k base with
  | zero =>
    obtain rfl : k = n := by omega
    rw [List.drop_of_length_le (by omega)]
    change decide (mode = .M) = true ↔ _
    rw [decide_eq_true_eq]
    constructor
    · exact fun h => .inl ⟨h, fun i h1 h2 => by omega⟩
    · rintro (⟨h, -⟩ | ⟨i, h1, h2, -⟩)
      · exact h
      · omega
  | succ m ih =>
    have hk16 : k < 16 := by omega
    have hdrop : ((List.finRange 16).take n).drop k =
        ⟨k, hk16⟩ :: ((List.finRange 16).take n).drop (k + 1) := by
      rw [List.drop_eq_getElem_cons (by omega)]
      congr 1
      rw [List.getElem_take, List.getElem_finRange]
      rfl
    rw [hdrop, pmpLoop_cons]
    have hloop : pmpLoop s addr len type mode (((List.finRange 16).take n).drop (k + 1))
        ((pmpaddrFromIndex s ⟨k, hk16⟩ &&& pmpTorMask) <<< 2) = true ↔
          PmpAllows n s (k + 1) addr len type mode :=
      ih (by omega) (fun _ => pmpTor_toNat (hs.addr_lt ⟨k, hk16⟩)) (by omega)
    by_cases hmatch : PmpMatches s ⟨k, hk16⟩ addr
    · have hA := matches_enabled hmatch
      have hm := fun a => pmpMatch_iff (a := a) hs hA (hbase hk16)
      rw [if_pos ⟨hA, (sectors_any hlen hal hm).mpr hmatch⟩, sectors_all hlen hal hm hmatch,
        Bool.true_and, pmpPermits_iff]
      exact (pmpAllows_match hlen hal (by change k < n; omega) hmatch).symm
    · rw [if_neg]
      · exact hloop.trans (pmpAllows_skip hlen hal hmatch).symm
      · rintro ⟨hA, hany⟩
        have hm := fun a => pmpMatch_iff (a := a) hs hA (hbase hk16)
        exact hmatch ((sectors_any hlen hal hm).mp hany)

end Loop

/-- The check agrees with the definition by bytes. -/
theorem pmp_check_iff (hP : P.pmpCheck = true) (hn : 0 < P.pmpNum) (hs : PmpProducible P s)
    (hlen : HostLength len) (hal : addr.toNat % len = 0) (type : MemType) (outMode : Mode) :
    isaPmpCheckPermission P s addr len type outMode = true ↔
      PmpAllows P.pmpNum s 0 addr len type (pmpMode s type outMode) := by
  have hmode : (if outMode = .M then s.accessMode (type = .ifetch) else outMode) =
      pmpMode s type outMode := by
    unfold pmpMode Machine.accessMode
    simp only [Bool.and_eq_true, Bool.not_eq_true', decide_eq_false_iff_not, ne_eq]
  unfold isaPmpCheckPermission
  rw [hmode, if_pos hP, if_neg (by omega)]
  exact pmpLoop_iff hs hlen hal P.pmpNum_le (Nat.zero_le _) fun _ => rfl

section Writes

/-- The bytes of a value written to `pmpcfg` are made legal one by one. -/
theorem pmpcfgData_byte (src : Word) (hj : j < 8) :
    (pmpcfgData src).extractLsb' (8 * j) 8 = pmpcfgLegal (src.extractLsb' (8 * j) 8) :=
  Bytes.extract_pack (fun j => pmpcfgLegal (src.extractLsb' (8 * j) 8)) 8 j (by decide) hj

theorem pmpcfg_target (h : Csr.pmpcfg k ∈ csrTargets c) : c = .pmpcfg k := by
  cases c <;> simp only [csrTargets, List.mem_cons, List.not_mem_nil, or_false, reduceCtorEq] at h
  exact h.symm

theorem pmpaddr_target (h : Csr.pmpaddr i ∈ csrTargets c) : c = .pmpaddr i := by
  cases c <;> simp only [csrTargets, List.mem_cons, List.not_mem_nil, or_false, reduceCtorEq] at h
  exact h.symm

theorem WriteStep.pmpcfg_eq (h : WriteStep P s w t) (k : Fin 2) :
    t.csr (.pmpcfg k) =
      if w.csr = .pmpcfg k ∧ P.pmpNum ≠ 0 then pmpcfgData w.value else s.csr (.pmpcfg k) := by
  rw [h.csr_eq (fun h => by cases h)]
  by_cases hw : w.csr = .pmpcfg k
  · have hassigned : csrAssigned P s w =
        if P.pmpNum = 0 then s else s.setCsr (.pmpcfg k) (pmpcfgData w.value) := by
      unfold csrAssigned
      rw [hw]
      rfl
    rw [hassigned]
    by_cases hn : P.pmpNum = 0
    · rw [if_pos hn, if_neg (fun h => h.2 hn)]
    · rw [if_neg hn, if_pos ⟨hw, hn⟩]
      exact Machine.setCsr_csr_self _ _ _
  · rw [if_neg (fun h => hw h.1)]
    exact csrAssigned_frame fun hmem => hw (pmpcfg_target hmem)

theorem WriteStep.pmpaddr_eq (h : WriteStep P s w t) (i : Fin 16) :
    t.csr (.pmpaddr i) =
      if w.csr = .pmpaddr i ∧ i.val < P.pmpNum ∧ pmpaddrLocked P s i = false then
        w.value &&& ((1 <<< (P.paddrBits - 2)) - 1)
      else s.csr (.pmpaddr i) := by
  rw [h.csr_eq (fun h => by cases h)]
  by_cases hw : w.csr = .pmpaddr i
  · have hassigned : csrAssigned P s w =
        if decide (P.pmpNum ≠ 0) && decide (P.pmpNum ≤ i.val) then s
        else if P.pmpNum = 0 ∨ pmpaddrLocked P s i then s
        else s.setCsr (.pmpaddr i) (w.value &&& ((1 <<< (P.paddrBits - 2)) - 1)) := by
      unfold csrAssigned
      rw [hw]
      rfl
    rw [hassigned]
    simp only [hw, true_and]
    by_cases hwrite : i.val < P.pmpNum ∧ pmpaddrLocked P s i = false
    · have h1 : ¬ P.pmpNum ≤ i.val := by omega
      have h2 : P.pmpNum ≠ 0 := by omega
      simp only [h1, h2, hwrite, decide_false, Bool.and_false, Bool.false_eq_true, ↓reduceIte,
        or_self, and_self]
      exact Machine.setCsr_csr_self _ _ _
    · simp only [hwrite, ↓reduceIte]
      split
      · rfl
      · next hnum =>
        rw [if_pos]
        by_contra hor
        apply hwrite
        simp only [Bool.and_eq_true, decide_eq_true_eq, not_and, Nat.not_le] at hnum
        simp only [not_or, Bool.not_eq_true] at hor
        exact ⟨hnum hor.1, hor.2⟩
  · rw [if_neg (fun h => hw h.1)]
    exact csrAssigned_frame fun hmem => hw (pmpaddr_target hmem)

/-- The `pmpcfg` register that holds the byte of an entry. -/
def pmpcfgRegister (i : Fin 16) : Fin 2 := if i.val < 8 then 0 else 1

theorem pmpcfgRegister_eq (i : Fin 16) (h : i.val / 8 < 2) : ⟨i.val / 8, h⟩ = pmpcfgRegister i := by
  revert i
  decide

theorem WriteStep.pmpcfg_byte (h : WriteStep P s w t) (i : Fin 16) :
    pmpcfgFromIndex t i =
      if w.csr = .pmpcfg (pmpcfgRegister i) ∧ P.pmpNum ≠ 0 then
        pmpcfgLegal (w.value.extractLsb' (8 * (i.val % 8)) 8)
      else pmpcfgFromIndex s i := by
  unfold pmpcfgFromIndex
  rw [pmpcfgRegister_eq, h.pmpcfg_eq]
  split
  · exact pmpcfgData_byte w.value (by omega)
  · rfl

theorem pmpaddrMask_toNat (P : Platform) :
    (((1 <<< (P.paddrBits - 2)) - 1 : Word)).toNat = 2 ^ (P.paddrBits - 2) - 1 := by
  have hle := P.paddrBits_le
  have hlt : 2 ^ (P.paddrBits - 2) < 2 ^ 64 := Nat.pow_lt_pow_right (by decide) (by omega)
  have hpos := Nat.two_pow_pos (P.paddrBits - 2)
  rw [Nat.one_shiftLeft, BitVec.toNat_sub]
  change (2 ^ 64 - 1 + 2 ^ (P.paddrBits - 2) % 2 ^ 64) % 2 ^ 64 = _
  omega

/-- All that `csr_write` leaves in the PMP registers is as `pmp_check_iff` assumes. -/
theorem WriteStep.producible (h : WriteStep P s w t) (hs : PmpProducible P s) :
    PmpProducible P t where
  cfg i := by
    rw [h.pmpcfg_byte]
    split
    · exact ⟨_, rfl⟩
    · exact hs.cfg i
  addr i := by
    rw [h.pmpaddr_eq]
    split
    · have hand : (w.value &&& ((1 <<< (P.paddrBits - 2)) - 1)).toNat ≤ 2 ^ (P.paddrBits - 2) - 1 := by
        rw [BitVec.toNat_and, pmpaddrMask_toNat]
        exact Nat.and_le_right
      have hpos := Nat.two_pow_pos (P.paddrBits - 2)
      exact Nat.lt_of_le_of_lt hand (by omega)
    · exact hs.addr i

theorem pmpProducible_reset (P : Platform) (ram : Word → BitVec 8) :
    PmpProducible P (Machine.reset P ram) where
  cfg i := ⟨0, by
    have h0 : pmpcfgLegal 0 = 0 := by decide
    rw [h0]
    change (0 : Word).extractLsb' (8 * (i.val % 8)) 8 = 0
    simp⟩
  addr i := Nat.two_pow_pos _

theorem pmpProducible_run (h : Run (WriteStep P) (Machine.reset P ram) tr s) :
    PmpProducible P s :=
  h.invariant (fun _ _ => trivial : ∀ x ∈ tr, True) (pmpProducible_reset P ram)
    fun _ _ hstep hs => hstep.producible hs

end Writes

/-- A region that holds all of memory, open to user code. -/
theorem pmp_check_open :
    ∃ tr s, Run (WriteStep (Platform.bare .standalone))
        (Machine.reset (Platform.bare .standalone) fun _ => 0) tr s ∧
      PmpAllows 16 s 0 0x80000000 8 .read (pmpMode s .read .U) := by
  have hrun : ∃ tr s, Run (WriteStep (Platform.bare .standalone))
      (Machine.reset (Platform.bare .standalone) fun _ => 0) tr s ∧
      isaPmpCheckPermission (Platform.bare .standalone) s 0x80000000 8 .read .U = true :=
    ⟨[⟨_, ⟨.pmpaddr 0, 0x3fffffffff⟩, _⟩, ⟨_, ⟨.pmpcfg 0, 0x1f⟩, _⟩], _,
      .cons rfl (.cons rfl .nil), rfl⟩
  obtain ⟨tr, s, hrun, hcheck⟩ := hrun
  have hs : PmpProducible (Platform.bare .standalone) s := pmpProducible_run hrun
  exact ⟨tr, s, hrun, (pmp_check_iff rfl (by decide) hs (by decide) (by decide) _ _).mp hcheck⟩

end Nemu
