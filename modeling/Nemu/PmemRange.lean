import Nemu.Regions

namespace Nemu

set_option autoImplicit true

def Config.setMemorySize (C : Config) (ramSize : Word) : Config := { C with msize := ramSize }

/-- `CONFIG_USE_MMAP` lets the size of memory be changed, to any other than zero. -/
def difftestSetRamsize (useMmap : Bool) (P : Platform) (ramSize : Word) : Platform :=
  if useMmap then if ramSize = 0 then P else { P with toConfig := P.toConfig.setMemorySize ramSize } else P

section Sizes

variable {useMmap : Bool} {P : Platform}

theorem difftestSetRamsize_base (size : Word) :
    (difftestSetRamsize useMmap P size).mbase = P.mbase ∧ (difftestSetRamsize useMmap P size).pmem64 = P.pmem64 := by
  unfold difftestSetRamsize
  split
  · split <;> exact ⟨rfl, rfl⟩
  · exact ⟨rfl, rfl⟩

theorem difftestSetRamsize_pos (h : P.msize ≠ 0) (size : Word) : (difftestSetRamsize useMmap P size).msize ≠ 0 := by
  unfold difftestSetRamsize
  split
  · split
    case isTrue => exact h
    case isFalse hset => exact hset
  · exact h

/-- The platform after some changes of the size. -/
def Platform.afterSizes (P : Platform) (useMmap : Bool) (sizes : List Word) : Platform :=
  sizes.foldl (difftestSetRamsize useMmap) P

theorem afterSizes_base (h : P.msize ≠ 0) (sizes : List Word) : (P.afterSizes useMmap sizes).mbase = P.mbase ∧
    (P.afterSizes useMmap sizes).pmem64 = P.pmem64 ∧ (P.afterSizes useMmap sizes).msize ≠ 0 := by
  induction sizes generalizing P with
  | nil => exact ⟨rfl, rfl, h⟩
  | cons size sizes ih =>
    obtain ⟨hbase, hwidth⟩ := @difftestSetRamsize_base useMmap P size
    obtain ⟨ihbase, ihwidth, ihpos⟩ := ih (difftestSetRamsize_pos h size)
    exact ⟨ihbase.trans hbase, ihwidth.trans hwidth, ihpos⟩

end Sizes

section Range

variable {P : Platform}

def Platform.memoryEnd (P : Platform) : Nat := P.mbase.toNat + P.msize.toNat

def Platform.InMemory (P : Platform) (addr : Word) : Prop := P.mbase.toNat ≤ addr.toNat ∧ addr.toNat < P.memoryEnd

/-- Two powers of two that fill the words: both are half of them. -/
theorem halves {j k : Nat} (hle : k ≤ j) (hsum : 2 ^ j + 2 ^ k = 2 ^ 64) : 2 ^ j = 2 ^ 63 ∧ 2 ^ k = 2 ^ 63 := by
  have hpos := Nat.two_pow_pos k
  have hj : j < 64 := (Nat.pow_lt_pow_iff_right Nat.one_lt_two).mp (by omega)
  have hj63 : 2 ^ j ≤ 2 ^ 63 := Nat.pow_le_pow_right (by decide) (by omega)
  have hk63 : 2 ^ k ≤ 2 ^ j := Nat.pow_le_pow_right (by decide) hle
  omega

/-- What the test by masks asks. -/
def Platform.MaskTest (P : Platform) : Prop :=
  P.mbase &&& P.paddr (P.mbase - 1) = 0 ∧ P.msize &&& P.paddr (P.msize - 1) = 0 ∧
    P.paddr (P.msize - 1) ≤ P.paddr (P.mbase - 1)

theorem paddrWidth_le (P : Platform) : P.paddrWidth ≤ 64 := by
  unfold Config.paddrWidth
  split <;> decide

/-- Where memory ends with the address space, the masks are used for its upper half only. -/
theorem maskTest_of_end (hpos : 0 < P.msize.toNat) (hend : P.memoryEnd = 2 ^ 64)
    (hfits : P.memoryEnd ≤ 2 ^ P.paddrWidth) :
    P.MaskTest ↔ P.mbase.toNat = 2 ^ 63 ∧ P.msize.toNat = 2 ^ 63 := by
  unfold Platform.memoryEnd at hend hfits
  constructor
  · intro h
    obtain ⟨k, hk, hzero | ⟨j, hle, hj⟩⟩ := mask_block hpos hfits h.1 h.2.1 h.2.2
    · have hlt := P.msize.isLt
      omega
    · rw [hj, hk] at hend ⊢
      exact halves hle hend
  · rintro ⟨hb, hs⟩
    have hbase : P.mbase = 0x8000000000000000 := BitVec.eq_of_toNat_eq hb
    have hsize : P.msize = 0x8000000000000000 := BitVec.eq_of_toNat_eq hs
    have hwide : P.pmem64 = true := by
      rw [hend] at hfits
      by_contra hnarrow
      unfold Config.paddrWidth at hfits
      rw [if_neg hnarrow] at hfits
      exact absurd hfits (by decide)
    have hpaddr : ∀ a, P.paddr a = a := fun a => if_pos hwide
    unfold Platform.MaskTest
    rw [hpaddr, hpaddr, hbase, hsize]
    decide

theorem inPmem_exact_iff (hpos : P.msize ≠ 0) (hfits : P.memoryEnd ≤ 2 ^ P.paddrWidth) (pa : Word) :
    (inPmem P (P.paddr pa) = true ↔ P.InMemory (P.paddr pa)) ↔ P.memoryEnd < 2 ^ 64 ∨
      (P.mbase.toNat = 2 ^ 63 ∧ P.msize.toNat = 2 ^ 63) ∨ (P.paddr pa).toNat < P.mbase.toNat := by
  have hsize : 0 < P.msize.toNat := Nat.pos_of_ne_zero fun h => hpos (BitVec.eq_of_toNat_eq h)
  have haddr := (P.paddr pa).isLt
  rcases Nat.lt_or_ge P.memoryEnd (2 ^ 64) with hlt | hge
  · refine iff_of_true ?_ (.inl hlt)
    by_cases hmask : P.MaskTest
    · exact inPmem_masks hsize hfits hmask pa
    · rw [inPmem_compare hsize hfits hmask pa]
      unfold Platform.InMemory Platform.memoryEnd at *
      rw [Nat.mod_eq_of_lt hlt]
  · have hpow := Nat.pow_le_pow_right (by decide : 0 < 2) (paddrWidth_le P)
    have hend : P.memoryEnd = 2 ^ 64 := by omega
    by_cases hmask : P.MaskTest
    · exact iff_of_true (inPmem_masks hsize hfits hmask pa) (.inr (.inl ((maskTest_of_end hsize hend hfits).mp hmask)))
    · have hhalf := fun h => hmask ((maskTest_of_end hsize hend hfits).mpr h)
      -- the end of memory is taken for 0
      rw [inPmem_compare hsize hfits hmask pa]
      unfold Platform.InMemory
      rw [hend]
      unfold Platform.memoryEnd at hend
      rw [hend, Nat.mod_self]
      constructor
      · intro h
        refine .inr (.inr ?_)
        by_contra hin
        exact Nat.not_lt_zero _ (h.mpr ⟨Nat.not_lt.mp hin, haddr⟩).2
      · rintro (h | h | h)
        · exact absurd h (Nat.lt_irrefl _)
        · exact absurd h hhalf
        · exact iff_of_false (fun hin => Nat.not_lt_zero _ hin.2) (fun hin => absurd hin.1 (Nat.not_le.mpr h))

/-- Whatever the base and the size, and however often the size is changed: the test is exact unless memory ends with the
64-bit address space, is not its upper half, and the address is not below memory. -/
theorem in_pmem_range_iff (useMmap : Bool) (sizes : List Word) (hpos : P.msize ≠ 0)
    (hfits : (P.afterSizes useMmap sizes).memoryEnd ≤ 2 ^ (P.afterSizes useMmap sizes).paddrWidth) (pa : Word) :
    (inPmem (P.afterSizes useMmap sizes) ((P.afterSizes useMmap sizes).paddr pa) = true ↔
      (P.afterSizes useMmap sizes).InMemory ((P.afterSizes useMmap sizes).paddr pa)) ↔
        (P.afterSizes useMmap sizes).memoryEnd < 2 ^ 64 ∨
          ((P.afterSizes useMmap sizes).mbase.toNat = 2 ^ 63 ∧ (P.afterSizes useMmap sizes).msize.toNat = 2 ^ 63) ∨
            ((P.afterSizes useMmap sizes).paddr pa).toNat < (P.afterSizes useMmap sizes).mbase.toNat :=
  inPmem_exact_iff (afterSizes_base hpos sizes).2.2 hfits pa

/-- Memory in the last page of the address space. -/
def topPlatform : Platform := Platform.bare { Config.reference with mbase := 0xfffffffffffff000, msize := 0x1000 }

theorem in_pmem_range_resized : inPmem ((Platform.bare Config.reference).afterSizes true [0x80000000, 0])
    0xffffffff = true ↔ ((Platform.bare Config.reference).afterSizes true [0x80000000, 0]).InMemory 0xffffffff :=
  (in_pmem_range_iff true [0x80000000, 0] (by decide) (by decide) 0xffffffff).mpr (.inl (by decide))

theorem in_pmem_top_wrong : topPlatform.msize ≠ 0 ∧ topPlatform.memoryEnd ≤ 2 ^ topPlatform.paddrWidth ∧
    topPlatform.InMemory 0xfffffffffffff800 ∧ inPmem topPlatform 0xfffffffffffff800 = false :=
  ⟨by decide, by decide, ⟨by decide, by decide⟩, by decide⟩

end Range

end Nemu
