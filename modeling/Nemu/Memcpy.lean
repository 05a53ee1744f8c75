import Nemu.Machine
import Nemu.Lib.Bytes
import Mathlib.Tactic.NormNum

namespace Nemu

open Bytes

set_option autoImplicit true

/-- `DIFFTEST_TO_DUT` and `DIFFTEST_TO_REF`. -/
inductive Direction where
  | toDut
  | toRef
  deriving DecidableEq

/-- The loop over the bytes that no whole word covers. -/
def copyBytes (src : Word → BitVec 8) : Nat → Word → Word → (Word → BitVec 8) → Word → BitVec 8
  | 0, _, _, dest => dest
  | n + 1, d, s, dest => copyBytes src n (d + 1) (s + 1) (Function.update dest d (src s))

/-- One word: zero is not stored. -/
def copyWord (src : Word → BitVec 8) (d s : Word) (dest : Word → BitVec 8) : Word → BitVec 8 :=
  let w : Word := readLE 64 src s 8
  if w ≠ 0 then writeLE dest d 8 w else dest

/-- `nemu_large_memcpy`: the destination memory after a copy of `n` bytes from `s` in `src` to `d`
in `dest`. -/
def nemuLargeMemcpy (src : Word → BitVec 8) (d s : Word) (n : Nat) (dest : Word → BitVec 8) :
    Word → BitVec 8 :=
  if 8 ≤ n then
    nemuLargeMemcpy src (d + 8) (s + 8) (n - 8) (copyWord src d s dest)
  else
    copyBytes src n d s dest
termination_by n

/-- `memcpy` between two objects. -/
def memcpy (src : Word → BitVec 8) (d s : Word) (n : Nat) (dest : Word → BitVec 8) :
    Word → BitVec 8 :=
  fun x => if (x - d).toNat < n then src (s + (x - d)) else dest x

/-- The memory of the reference by guest address, and that of the processor under test by host
address. -/
structure Memories where
  pmem : Word → BitVec 8
  dut : Word → BitVec 8

/-- `difftest_memcpy`, with `CONFIG_LARGE_COPY` if `largeCopy`. -/
def difftestMemcpy (largeCopy : Bool) (nemuAddr dutBuf n : Word) (direction : Direction)
    (m : Memories) : Memories :=
  let copy := if largeCopy then nemuLargeMemcpy else memcpy
  match direction with
  | .toRef => { m with pmem := copy m.dut nemuAddr dutBuf n.toNat m.pmem }
  | .toDut => { m with dut := copy m.pmem dutBuf nemuAddr n.toNat m.dut }

/-- `dest'` is `dest` with the `n` bytes at `d` taken from `s` in `src`. -/
def IsCopy (src : Word → BitVec 8) (d s : Word) (n : Nat) (dest dest' : Word → BitVec 8) : Prop :=
  (∀ i < n, dest' (d + BitVec.ofNat 64 i) = src (s + BitVec.ofNat 64 i)) ∧
    ∀ x, (∀ i < n, x ≠ d + BitVec.ofNat 64 i) → dest' x = dest x

/-- `IsCopy` in one direction, with the memory copied from as it was. -/
def Memories.IsCopy (nemuAddr dutBuf n : Word) (direction : Direction) (m m' : Memories) : Prop :=
  match direction with
  | .toRef => Nemu.IsCopy m.dut nemuAddr dutBuf n.toNat m.pmem m'.pmem ∧ m'.dut = m.dut
  | .toDut => Nemu.IsCopy m.pmem dutBuf nemuAddr n.toNat m.dut m'.dut ∧ m'.pmem = m.pmem

theorem memcpy_isCopy (src dest : Word → BitVec 8) (d s : Word) (hn : n ≤ 2 ^ 64) :
    IsCopy src d s n dest (memcpy src d s n dest) := by
  constructor
  · intro i hi
    have hoff : d + BitVec.ofNat 64 i - d = BitVec.ofNat 64 i := by
      rw [BitVec.add_comm, BitVec.add_sub_cancel]
    have hlt : (BitVec.ofNat 64 i).toNat = i := Nat.mod_eq_of_lt (by omega)
    simp only [memcpy, hoff, hlt, hi, if_true]
  · intro x hx
    apply if_neg
    intro hlt
    apply hx _ hlt
    rw [BitVec.ofNat_toNat, BitVec.setWidth_eq, BitVec.add_comm, BitVec.sub_add_cancel]

theorem add_ofNat_succ (a : Word) (i : Nat) :
    a + BitVec.ofNat 64 (i + 1) = a + 1 + BitVec.ofNat 64 i := by
  rw [Nat.add_comm, BitVec.ofNat_add, ← BitVec.add_assoc]
  rfl

theorem add_ofNat_eight (a : Word) (i : Nat) :
    a + BitVec.ofNat 64 (i + 8) = a + 8 + BitVec.ofNat 64 i := by
  rw [Nat.add_comm, BitVec.ofNat_add, ← BitVec.add_assoc]
  rfl

theorem add_ofNat_ne (a : Word) (hi : i < 2 ^ 64) (hj : j < 2 ^ 64) (h : i ≠ j) :
    a + BitVec.ofNat 64 i ≠ a + BitVec.ofNat 64 j := by
  intro he
  apply h
  have heq := congrArg BitVec.toNat (add_left_cancel he)
  rwa [BitVec.toNat_ofNat, BitVec.toNat_ofNat, Nat.mod_eq_of_lt hi, Nat.mod_eq_of_lt hj] at heq

theorem copyBytes_off (src : Word → BitVec 8) (n : Nat) (d s : Word) (dest : Word → BitVec 8)
    {x : Word} (hx : ∀ i < n, x ≠ d + BitVec.ofNat 64 i) : copyBytes src n d s dest x = dest x := by
  induction n generalizing d s dest with
  | zero => rfl
  | succ n ih =>
    have hrest : ∀ i < n, x ≠ d + 1 + BitVec.ofNat 64 i := by
      intro i hi
      rw [← add_ofNat_succ]
      exact hx (i + 1) (by omega)
    have hfirst : x ≠ d := by
      have h0 := hx 0 (by omega)
      rwa [BitVec.add_zero] at h0
    rw [copyBytes, ih _ _ _ hrest, Function.update_of_ne hfirst]

theorem copyBytes_at (src : Word → BitVec 8) (n : Nat) (d s : Word) (dest : Word → BitVec 8)
    (hn : n ≤ 2 ^ 64) (hi : i < n) :
    copyBytes src n d s dest (d + BitVec.ofNat 64 i) = src (s + BitVec.ofNat 64 i) := by
  induction n generalizing d s dest i with
  | zero => omega
  | succ n ih =>
    cases i with
    | zero =>
      have hkept : ∀ j < n, d + BitVec.ofNat 64 0 ≠ d + 1 + BitVec.ofNat 64 j := by
        intro j hj
        rw [← add_ofNat_succ]
        exact add_ofNat_ne d (by omega) (by omega) (by omega)
      rw [copyBytes, copyBytes_off src n _ _ _ hkept]
      simp
    | succ i =>
      rw [copyBytes, add_ofNat_succ d, add_ofNat_succ s]
      exact ih _ _ _ (by omega) (by omega)

theorem copyWord_off (src : Word → BitVec 8) (d s : Word) (dest : Word → BitVec 8) {x : Word}
    (hx : ∀ i < 8, x ≠ d + BitVec.ofNat 64 i) : copyWord src d s dest x = dest x := by
  unfold copyWord
  split
  · exact writeLE_off dest _ hx
  · rfl

theorem copyWord_zero (src : Word → BitVec 8) (d s : Word) (dest : Word → BitVec 8)
    (hz : readLE 64 src s 8 = 0#64) : copyWord src d s dest = dest :=
  if_neg (not_not_intro hz)

theorem copyWord_at (src : Word → BitVec 8) (d s : Word) (dest : Word → BitVec 8)
    (hz : readLE 64 src s 8 ≠ 0#64) (hi : i < 8) :
    copyWord src d s dest (d + BitVec.ofNat 64 i) = src (s + BitVec.ofNat 64 i) := by
  have hword : copyWord src d s dest = writeLE dest d 8 (readLE 64 src s 8) := if_pos hz
  rw [hword, writeLE_at dest d _ hi (by norm_num), extract_readLE src s 8 i hi (by norm_num)]

theorem nemuLargeMemcpy_off (src : Word → BitVec 8) (d s : Word) (n : Nat)
    (dest : Word → BitVec 8) {x : Word} (hx : ∀ i < n, x ≠ d + BitVec.ofNat 64 i) :
    nemuLargeMemcpy src d s n dest x = dest x := by
  fun_induction nemuLargeMemcpy src d s n dest with
  | case1 d s n dest hn ih =>
    have hrest : ∀ i < n - 8, x ≠ d + 8 + BitVec.ofNat 64 i := by
      intro i hi
      rw [← add_ofNat_eight]
      exact hx (i + 8) (by omega)
    rw [ih hrest]
    exact copyWord_off src d s dest fun i hi => hx i (by omega)
  | case2 d s n dest hn => exact copyBytes_off src n d s dest hx

/-- The word with byte `i` is copied whole and is zero. -/
def Skipped (src : Word → BitVec 8) (s : Word) (n i : Nat) : Prop :=
  8 * (i / 8) + 8 ≤ n ∧ readLE 64 src (s + BitVec.ofNat 64 (8 * (i / 8))) 8 = 0#64

theorem skipped_lt (src : Word → BitVec 8) (s : Word) (hn : 8 ≤ n) (hi : i < 8) :
    Skipped src s n i ↔ readLE 64 src s 8 = 0#64 := by
  have hq : i / 8 = 0 := by omega
  unfold Skipped
  simp [hq, hn]

theorem skipped_add (src : Word → BitVec 8) (s : Word) (hn : 8 ≤ n) (i : Nat) :
    Skipped src s n (i + 8) ↔ Skipped src (s + 8) (n - 8) i := by
  have hq : 8 * ((i + 8) / 8) = 8 * (i / 8) + 8 := by omega
  have hle : 8 * (i / 8) + 8 + 8 ≤ n ↔ 8 * (i / 8) + 8 ≤ n - 8 := by omega
  unfold Skipped
  rw [hq, add_ofNat_eight, hle]

theorem not_skipped_tail (src : Word → BitVec 8) (s : Word) (hn : ¬ 8 ≤ n) (i : Nat) :
    ¬ Skipped src s n i := by
  intro h
  have := h.1
  omega

theorem nemuLargeMemcpy_at (src : Word → BitVec 8) (d s : Word) (n : Nat) (dest : Word → BitVec 8)
    (hn : n ≤ 2 ^ 64) (i : Nat) (hi : i < n) :
    (Skipped src s n i →
      nemuLargeMemcpy src d s n dest (d + BitVec.ofNat 64 i) = dest (d + BitVec.ofNat 64 i)) ∧
    (¬ Skipped src s n i →
      nemuLargeMemcpy src d s n dest (d + BitVec.ofNat 64 i) = src (s + BitVec.ofNat 64 i)) := by
  fun_induction nemuLargeMemcpy src d s n dest generalizing i with
  | case1 d s n dest h8 ih =>
    by_cases hlt : i < 8
    · -- the first word is not stored to again
      have hkept : ∀ j < n - 8, d + BitVec.ofNat 64 i ≠ d + 8 + BitVec.ofNat 64 j := by
        intro j hj
        rw [← add_ofNat_eight]
        exact add_ofNat_ne d (by omega) (by omega) (by omega)
      rw [skipped_lt src s h8 hlt, nemuLargeMemcpy_off src _ _ _ _ hkept]
      constructor
      · intro hz
        rw [copyWord_zero src d s dest hz]
      · intro hz
        exact copyWord_at src d s dest hz hlt
    · obtain ⟨k, rfl⟩ : ∃ k, i = k + 8 := ⟨i - 8, by omega⟩
      have hfirst : copyWord src d s dest (d + 8 + BitVec.ofNat 64 k) =
          dest (d + 8 + BitVec.ofNat 64 k) := by
        apply copyWord_off
        intro j hj
        rw [← add_ofNat_eight]
        exact add_ofNat_ne d (by omega) (by omega) (by omega)
      rw [skipped_add src s h8, add_ofNat_eight, add_ofNat_eight, ← hfirst]
      exact ih (by omega) k (by omega)
  | case2 d s n dest h8 =>
    constructor
    · intro h
      exact absurd h (not_skipped_tail src s h8 i)
    · intro _
      exact copyBytes_at src n d s dest hn hi

theorem readLE_eq_zero_iff (m : Word → BitVec 8) (a : Word) :
    readLE 64 m a 8 = 0#64 ↔ ∀ i < 8, m (a + BitVec.ofNat 64 i) = 0#8 := by
  have hzero : (0#64 : BitVec 64) = pack 64 (fun _ => 0#8) 8 := by decide
  rw [readLE_eq_pack m a 8 (by norm_num), hzero]
  exact pack_inj _ _ 8 (by norm_num)

/-- Every whole word of zeros in the source is copied to a word of zeros. -/
def ZerosToZeros (src : Word → BitVec 8) (d s : Word) (n : Nat) (dest : Word → BitVec 8) : Prop :=
  ∀ k, 8 * k + 8 ≤ n → readLE 64 src (s + BitVec.ofNat 64 (8 * k)) 8 = 0#64 →
    readLE 64 dest (d + BitVec.ofNat 64 (8 * k)) 8 = 0#64

theorem nemuLargeMemcpy_isCopy_iff (src dest : Word → BitVec 8) (d s : Word) (hn : n ≤ 2 ^ 64) :
    IsCopy src d s n dest (nemuLargeMemcpy src d s n dest) ↔ ZerosToZeros src d s n dest := by
  constructor
  · intro h k hk hz
    rw [readLE_eq_zero_iff] at hz ⊢
    intro j hj
    have hq : 8 * ((8 * k + j) / 8) = 8 * k := by omega
    have hskip : Skipped src s n (8 * k + j) := by
      unfold Skipped
      rw [hq, readLE_eq_zero_iff]
      exact ⟨hk, hz⟩
    have hlt : 8 * k + j < n := by omega
    have hdest := (nemuLargeMemcpy_at src d s n dest hn _ hlt).1 hskip
    rw [BitVec.add_assoc, ← BitVec.ofNat_add, ← hdest, h.1 _ hlt, BitVec.ofNat_add,
      ← BitVec.add_assoc]
    exact hz j hj
  · intro h
    constructor
    · intro i hi
      have hat := nemuLargeMemcpy_at src d s n dest hn i hi
      by_cases hskip : Skipped src s n i
      · obtain ⟨hle, hz⟩ := hskip
        have hsplit (a : Word) : a + BitVec.ofNat 64 i =
            a + BitVec.ofNat 64 (8 * (i / 8)) + BitVec.ofNat 64 (i % 8) := by
          rw [BitVec.add_assoc, ← BitVec.ofNat_add, Nat.div_add_mod]
        have hsrc := (readLE_eq_zero_iff _ _).mp hz (i % 8) (by omega)
        have hdest := (readLE_eq_zero_iff _ _).mp (h (i / 8) hle hz) (i % 8) (by omega)
        rw [hat.1 ⟨hle, hz⟩, hsplit d, hsplit s, hsrc, hdest]
      · exact hat.2 hskip
    · intro x hx
      exact nemuLargeMemcpy_off src d s n dest hx

/-- `ZerosToZeros` in one direction. -/
def Memories.ZerosToZeros (nemuAddr dutBuf n : Word) (direction : Direction) (m : Memories) :
    Prop :=
  match direction with
  | .toRef => Nemu.ZerosToZeros m.dut nemuAddr dutBuf n.toNat m.pmem
  | .toDut => Nemu.ZerosToZeros m.pmem dutBuf nemuAddr n.toNat m.dut

/-- The large copy is a copy exactly if the words of zeros it skips were zero before. -/
theorem difftestMemcpy_isCopy_iff (nemuAddr dutBuf n : Word) (direction : Direction)
    (m : Memories) :
    m.IsCopy nemuAddr dutBuf n direction (difftestMemcpy true nemuAddr dutBuf n direction m) ↔
      m.ZerosToZeros nemuAddr dutBuf n direction := by
  cases direction with
  | toRef =>
    have h := nemuLargeMemcpy_isCopy_iff m.dut m.pmem nemuAddr dutBuf (Nat.le_of_lt n.isLt)
    exact Iff.trans (and_iff_left rfl) h
  | toDut =>
    have h := nemuLargeMemcpy_isCopy_iff m.pmem m.dut dutBuf nemuAddr (Nat.le_of_lt n.isLt)
    exact Iff.trans (and_iff_left rfl) h

/-- The plain copy always is one. -/
theorem difftestMemcpy_plain (nemuAddr dutBuf n : Word) (direction : Direction) (m : Memories) :
    m.IsCopy nemuAddr dutBuf n direction (difftestMemcpy false nemuAddr dutBuf n direction m) := by
  cases direction with
  | toRef => exact ⟨memcpy_isCopy m.dut m.pmem nemuAddr dutBuf (Nat.le_of_lt n.isLt), rfl⟩
  | toDut => exact ⟨memcpy_isCopy m.pmem m.dut dutBuf nemuAddr (Nat.le_of_lt n.isLt), rfl⟩

/-- Eight bytes of zeros from the processor under test, over bytes that are not zero. -/
def staleMemories : Memories where
  pmem := fun _ => 1
  dut := fun _ => 0

theorem difftestMemcpy_stale : ¬ staleMemories.IsCopy 0x80000000 0 8 .toRef
    (difftestMemcpy true 0x80000000 0 8 .toRef staleMemories) := by
  intro h
  have hzero : readLE 64 staleMemories.dut 0 8 = 0#64 := by decide
  have hskip : Skipped staleMemories.dut 0 8 0 := ⟨by norm_num, hzero⟩
  have hkept := (nemuLargeMemcpy_at staleMemories.dut 0x80000000 0 8 staleMemories.pmem
    (by norm_num) 0 (by norm_num)).1 hskip
  have hcopied := h.1.1 0 (by decide)
  have hbyte : (1 : BitVec 8) = 0 := hkept.symm.trans hcopied
  exact absurd hbyte (by decide)

end Nemu
