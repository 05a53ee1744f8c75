import Nemu.CsrAtomic
import Nemu.Pmp

namespace Nemu

open Effect

set_option autoImplicit true

def pmpReserved : BitVec 8 := 0x60

/-- The registers of an entry hold values that are legal for a granularity of 4 KiB. -/
structure PmpEntryLegal (P : Platform) (s : Machine) (i : Fin 16) : Prop where
  reserved : pmpcfgFromIndex s i &&& pmpReserved = 0
  readable : pmpcfgFromIndex s i &&& pmpW ≠ 0 → pmpcfgFromIndex s i &&& pmpR ≠ 0
  notNa4 : pmpcfgFromIndex s i &&& pmpA ≠ pmpNA4
  addr : (pmpaddrFromIndex s i).toNat < 2 ^ (P.paddrBits - 2)

/-- Reading `pmpaddr[i]` and writing the value back changes no check. -/
def WritesBack (P : Platform) (s : Machine) (i : Fin 16) : Prop :=
  ∃ v t, csrRead P (.pmpaddr i) s = .ok v s ∧ csrWrite P (.pmpaddr i) v s = .ok () t ∧
    ∀ addr len type mode, isaPmpCheckPermission P t addr len type mode =
      isaPmpCheckPermission P s addr len type mode

variable {P : Platform} {s t : Machine} {i : Fin 16} {x v : Word}

section Legal

theorem pmpcfgLegal_reserved (b : BitVec 8) : pmpcfgLegal b &&& pmpReserved = 0 := by
  revert b
  decide

theorem pmpcfgLegal_readable (b : BitVec 8) :
    pmpcfgLegal b &&& pmpW ≠ 0 → pmpcfgLegal b &&& pmpR ≠ 0 := by
  revert b
  decide

theorem PmpProducible.entryLegal (h : PmpProducible P s) (i : Fin 16) : PmpEntryLegal P s i := by
  obtain ⟨b, hb⟩ := h.cfg i
  constructor
  · rw [hb]
    exact pmpcfgLegal_reserved b
  · rw [hb]
    exact pmpcfgLegal_readable b
  · obtain h0 | htor | hnapot := h.mode i
    · rw [h0]
      decide
    · rw [htor]
      decide
    · rw [hnapot]
      decide
  · exact h.addr i

end Legal

section Bits

/-- What `csr_write` stores of a value for `pmpaddr`. -/
def pmpaddrStored (P : Platform) (v : Word) : Word := v &&& ((1 <<< (P.paddrBits - 2)) - 1)

theorem pmpaddrStored_bit (P : Platform) (v : Word) (j : Nat) :
    (pmpaddrStored P v).getLsbD j = (v.getLsbD j && decide (j < P.paddrBits - 2)) := by
  unfold pmpaddrStored
  rw [BitVec.getLsbD_and]
  congr 1
  unfold BitVec.getLsbD
  rw [pmpaddrMask_toNat, Nat.testBit_two_pow_sub_one]

theorem getLsbD_of_toNat_lt (h : x.toNat < 2 ^ n) (hj : n ≤ j) : x.getLsbD j = false :=
  Nat.testBit_lt_two_pow (Nat.lt_of_lt_of_le h (Nat.pow_le_pow_right (by decide) hj))

/-- The bits that the view leaves alone are stored again. -/
theorem pmpaddrStored_view (hx : x.toNat < 2 ^ (P.paddrBits - 2)) (h : v.getLsbD j = x.getLsbD j) :
    (pmpaddrStored P v).getLsbD j = x.getLsbD j := by
  rw [pmpaddrStored_bit, h]
  by_cases hj : j < P.paddrBits - 2
  · rw [decide_eq_true hj, Bool.and_true]
  · rw [decide_eq_false hj, Bool.and_false, getLsbD_of_toNat_lt hx (by omega)]

/-- The mask that `csr_read` sets for NAPOT, `~pmp_tor_mask() >> 1`. -/
theorem napotView_bit (hj : 9 ≤ j) : (x ||| (~~~pmpTorMask >>> 1)).getLsbD j = x.getLsbD j := by
  have hmask : (~~~pmpTorMask >>> 1 : Word).toNat < 2 ^ 9 := by decide
  rw [BitVec.getLsbD_or, getLsbD_of_toNat_lt hmask hj, Bool.or_false]

theorem torView_bit (hj : 10 ≤ j) : (x &&& pmpTorMask).getLsbD j = x.getLsbD j := by
  rw [BitVec.getLsbD_and]
  by_cases h64 : j < 64
  · rw [pmpTorMask_bit h64, decide_eq_true hj, Bool.and_true]
  · rw [BitVec.getLsbD_of_ge x j (by omega), Bool.false_and]

theorem and_torMask_of_bits {y : Word} (h : ∀ j, 10 ≤ j → y.getLsbD j = x.getLsbD j) :
    y &&& pmpTorMask = x &&& pmpTorMask := by
  apply BitVec.eq_of_getLsbD_eq
  intro j hj
  rw [BitVec.getLsbD_and, BitVec.getLsbD_and, pmpTorMask_bit hj]
  by_cases h10 : 10 ≤ j
  · rw [h j h10]
  · rw [decide_eq_false h10, Bool.and_false, Bool.and_false]

theorem napotOnes_of_bits {y : Word} (h : ∀ j, 9 ≤ j → y.getLsbD j = x.getLsbD j) :
    napotOnes y = napotOnes x := by
  apply BitVec.eq_of_getLsbD_eq
  intro j hj
  rw [napotOnes_bit _ hj, napotOnes_bit _ hj]
  by_cases h10 : j < 10
  · rw [decide_eq_true h10, Bool.true_or, Bool.true_or]
  · rw [h (j - 1) (by omega)]

end Bits

section Match

/-- An entry whose register differs in bits that the granularity hides matches as before. -/
theorem pmpMatch_congr (hcfg : pmpcfgFromIndex t i = pmpcfgFromIndex s i)
    (htor : ∀ j, 10 ≤ j → (pmpaddrFromIndex t i).getLsbD j = (pmpaddrFromIndex s i).getLsbD j)
    (hnapot : pmpcfgFromIndex s i &&& pmpA = pmpNAPOT → ∀ j, 9 ≤ j →
      (pmpaddrFromIndex t i).getLsbD j = (pmpaddrFromIndex s i).getLsbD j)
    (hA : pmpcfgFromIndex s i &&& pmpA = pmpTOR ∨ pmpcfgFromIndex s i &&& pmpA = pmpNAPOT)
    (base : Word) : pmpMatch t i base = pmpMatch s i base := by
  funext a
  have htop := and_torMask_of_bits htor
  unfold pmpMatch
  dsimp only
  rw [hcfg, htop]
  obtain hmode | hmode := hA
  · rw [if_pos hmode, if_pos hmode]
  · have hones : napotOnes (pmpaddrFromIndex t i) = napotOnes (pmpaddrFromIndex s i) :=
      napotOnes_of_bits (hnapot hmode)
    have hne : ¬ pmpcfgFromIndex s i &&& pmpA = pmpTOR := by
      rw [hmode]
      decide
    have hna4 : ¬ pmpcfgFromIndex s i &&& pmpA = pmpNA4 := by
      rw [hmode]
      decide
    unfold napotOnes at hones
    rw [if_neg hne, if_neg hne, if_neg hna4, hones]

theorem csrVisible_pmpaddr_bit (hj : 10 ≤ j) :
    (csrVisible P s (.pmpaddr i)).getLsbD j = (pmpaddrFromIndex s i).getLsbD j := by
  unfold csrVisible
  dsimp only
  split
  · exact napotView_bit (by omega)
  · exact torView_bit hj

theorem csrVisible_napot_bit (hA : pmpcfgFromIndex s i &&& pmpA = pmpNAPOT) (hj : 9 ≤ j) :
    (csrVisible P s (.pmpaddr i)).getLsbD j = (pmpaddrFromIndex s i).getLsbD j := by
  have hge : pmpNAPOT ≤ pmpcfgFromIndex s i &&& pmpA := by
    rw [hA]
    decide
  unfold csrVisible
  dsimp only
  rw [if_pos hge]
  exact napotView_bit hj

end Match

section Writeback

/-- The state after the value read from `pmpaddr[i]` has been written back. -/
def writtenBack (P : Platform) (s : Machine) (i : Fin 16) : Machine :=
  csrStore P s (.pmpaddr i) (csrVisible P s (.pmpaddr i))

theorem writtenBack_eq (P : Platform) (s : Machine) (i : Fin 16) :
    writtenBack P s i = s ∨ writtenBack P s i =
      s.setCsr (.pmpaddr i) (pmpaddrStored P (csrVisible P s (.pmpaddr i))) := by
  unfold writtenBack csrStore
  dsimp only
  split
  · exact .inl rfl
  · exact .inr rfl

theorem writtenBack_cfg (j : Fin 16) :
    pmpcfgFromIndex (writtenBack P s i) j = pmpcfgFromIndex s j := by
  obtain heq | heq := writtenBack_eq P s i
  · rw [heq]
  · rw [heq]
    unfold pmpcfgFromIndex
    rw [Machine.setCsr_csr_ne _ _ (by simp)]

theorem writtenBack_bit (hs : PmpProducible P s)
    (h : (csrVisible P s (.pmpaddr i)).getLsbD j = (pmpaddrFromIndex s i).getLsbD j) :
    (pmpaddrFromIndex (writtenBack P s i) i).getLsbD j = (pmpaddrFromIndex s i).getLsbD j := by
  obtain heq | heq := writtenBack_eq P s i
  · rw [heq]
  · rw [heq]
    unfold pmpaddrFromIndex
    rw [Machine.setCsr_csr_self]
    exact pmpaddrStored_view (hs.addr i) h

theorem writtenBack_other {k : Fin 16} (h : k ≠ i) :
    pmpaddrFromIndex (writtenBack P s i) k = pmpaddrFromIndex s k := by
  obtain heq | heq := writtenBack_eq P s i
  · rw [heq]
  · rw [heq]
    exact Machine.setCsr_csr_ne _ _ fun hk => h (Csr.pmpaddr.inj hk)

theorem writtenBack_tor (hs : PmpProducible P s) (k : Fin 16) (hj : 10 ≤ j) :
    (pmpaddrFromIndex (writtenBack P s i) k).getLsbD j = (pmpaddrFromIndex s k).getLsbD j := by
  by_cases hk : k = i
  · rw [hk]
    exact writtenBack_bit hs (csrVisible_pmpaddr_bit hj)
  · rw [writtenBack_other hk]

theorem writtenBack_napot (hs : PmpProducible P s) {k : Fin 16}
    (hA : pmpcfgFromIndex s k &&& pmpA = pmpNAPOT) (hj : 9 ≤ j) :
    (pmpaddrFromIndex (writtenBack P s i) k).getLsbD j = (pmpaddrFromIndex s k).getLsbD j := by
  by_cases hk : k = i
  · rw [hk] at hA ⊢
    exact writtenBack_bit hs (csrVisible_napot_bit hA hj)
  · rw [writtenBack_other hk]

theorem writtenBack_loop (hs : PmpProducible P s) (l : List (Fin 16)) (base : Word) :
    pmpLoop (writtenBack P s i) addr len type mode l base = pmpLoop s addr len type mode l base := by
  apply pmpLoop_congr
  · exact writtenBack_cfg
  · intro k
    exact and_torMask_of_bits fun j hj => writtenBack_tor hs k hj
  · intro k base hA
    apply pmpMatch_congr (writtenBack_cfg k)
    · exact fun j hj => writtenBack_tor hs k hj
    · exact fun hnapot j hj => writtenBack_napot hs hnapot hj
    · exact (hs.mode k).resolve_left hA

theorem writtenBack_check (hs : PmpProducible P s) (addr : Word) (len : Nat) (type : MemType)
    (mode : Mode) : isaPmpCheckPermission P (writtenBack P s i) addr len type mode =
      isaPmpCheckPermission P s addr len type mode := by
  have hmode : (writtenBack P s i).accessMode (type = .ifetch) = s.accessMode (type = .ifetch) := by
    obtain heq | heq := writtenBack_eq P s i
    · rw [heq]
    · rw [heq]
      unfold Machine.accessMode Machine.mprv Machine.mpp
      rw [Machine.setCsr_csr_ne _ _ (by simp)]
      rfl
  unfold isaPmpCheckPermission
  dsimp only
  rw [hmode, writtenBack_loop hs]

theorem csrWrite_pmpaddr (h : i.val < P.pmpNum) (v : Word) :
    csrWrite P (.pmpaddr i) v s = .ok () (csrStore P s (.pmpaddr i) v) := by
  have hlegal : csrWriteIllegal P s (.pmpaddr i) = false := by
    unfold csrWriteIllegal
    dsimp only
    rw [decide_eq_false (Nat.not_le.mpr h), Bool.and_false]
  rw [csrWrite_legal v hlegal]
  exact csrWriteRefresh_other rfl (by simp)

theorem csrRead_pmpaddr (h : i.val < P.pmpNum) :
    csrRead P (.pmpaddr i) s = .ok (csrVisible P s (.pmpaddr i)) s := by
  apply csrRead_visible
  rintro (hmiss | ⟨hc, -⟩)
  · exact absurd (of_decide_eq_true hmiss) (Nat.not_le.mpr h)
  · cases hc

/-- The PMP registers hold legal values after any sequence of writes, and a read of an address that
is written back changes nothing that is checked. -/
theorem pmp_registers_legal (h : Run (WriteStep P) (Machine.reset P ram) tr s) (i : Fin 16)
    (hi : i.val < P.pmpNum) : PmpEntryLegal P s i ∧ WritesBack P s i := by
  have hs : PmpProducible P s := pmpProducible_run h
  have hback : WritesBack P s i :=
    ⟨_, _, csrRead_pmpaddr hi, csrWrite_pmpaddr hi _, writtenBack_check hs⟩
  exact ⟨hs.entryLegal i, hback⟩

/-- An entry set to NA4 and to write only, which becomes a region of a page without permissions. -/
theorem pmp_registers_legal_page :
    ∃ tr s, Run (WriteStep (Platform.bare .standalone))
        (Machine.reset (Platform.bare .standalone) fun _ => 0) tr s ∧
      pmpcfgFromIndex s 0 = pmpNAPOT ∧ PmpEntryLegal (Platform.bare .standalone) s 0 ∧
        WritesBack (Platform.bare .standalone) s 0 := by
  have hrun : ∃ tr s, Run (WriteStep (Platform.bare .standalone))
      (Machine.reset (Platform.bare .standalone) fun _ => 0) tr s ∧
      pmpcfgFromIndex s 0 = pmpNAPOT :=
    ⟨[⟨_, ⟨.pmpaddr 0, 0x20000000⟩, _⟩, ⟨_, ⟨.pmpcfg 0, 0x72⟩, _⟩], _,
      .cons rfl (.cons rfl .nil), rfl⟩
  obtain ⟨tr, s, hrun, hcfg⟩ := hrun
  exact ⟨tr, s, hrun, hcfg, pmp_registers_legal hrun 0 (by decide)⟩

end Writeback

end Nemu
