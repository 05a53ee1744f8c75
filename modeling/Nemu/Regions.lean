import Nemu.CrossPage
import Nemu.Sv39Walk

namespace Nemu

set_option autoImplicit true

/-- A range of physical addresses, `top` not included. -/
structure Region where
  low : Nat
  top : Nat

def Region.Holds (r : Region) (a len : Nat) : Prop := r.low ≤ a ∧ a + len ≤ r.top

/-- The addresses of an entry of `maps`. -/
structure IOMap where
  low : Word
  high : Word

def IOMap.region (m : IOMap) : Region := ⟨m.low.toNat, m.high.toNat + 1⟩

def mapInside (m : IOMap) (addr : Word) : Bool := decide (m.low ≤ addr) && decide (addr ≤ m.high)

def findMapidByAddr (maps : List IOMap) (addr : Word) : Option Nat :=
  maps.findIdx? fun m => mapInside m addr

def isInMmio (maps : List IOMap) (addr : Word) : Bool := (findMapidByAddr maps addr).isSome

def fetchMmioMap (maps : List IOMap) (addr : Word) : Option IOMap :=
  (findMapidByAddr maps addr).bind fun i => maps[i]?

/-- The number of bits of `paddr_t`. -/
def Config.paddrWidth (cfg : Config) : Nat := if cfg.pmem64 then 64 else 32

/-- A build with its devices. The end of memory is an address, and `paddr_t` has 64 bits unless
`CONFIG_MBASE + CONFIG_MSIZE` is at most `0x100000000`. -/
structure Board extends Platform where
  maps : List IOMap
  inMmio_eq : ∀ a, inMmio a = isInMmio maps a
  size_pos : 0 < msize.toNat
  end_lt : mbase.toNat + msize.toNat < 2 ^ 64
  end_le : mbase.toNat + msize.toNat ≤ 2 ^ toConfig.paddrWidth

def Board.memory (B : Board) : Region := ⟨B.mbase.toNat, B.mbase.toNat + B.msize.toNat⟩

def Board.regions (B : Board) : List Region := B.memory :: B.maps.map IOMap.region

/-- A call of `paddr_read` or of `paddr_write`. -/
inductive PhysAccess where
  | read (type : MemType)
  | write (data : Word)

namespace PhysAccess

def type : PhysAccess → MemType
  | read type => type
  | write _ => .write

def run (P : Platform) (pa : Word) (len : Nat) (mode : Mode) (va : Word) :
    PhysAccess → Exec Word
  | read type => paddrRead P pa len type mode va
  | write data => do
    paddrWrite P pa len data mode va
    pure 0

/-- Whether the function looks for a device that has the address. -/
def looksUp (P : Platform) : PhysAccess → Bool
  | read _ => !P.share || P.hasFlash
  | write _ => !P.share

/-- The first byte is neither in memory nor on a device that is looked for. -/
def Misses (P : Platform) (A : PhysAccess) (a : Word) : Prop :=
  inPmem P a = false ∧ (A.looksUp P && P.inMmio a) = false

/-- Nothing is done for an access that misses if illegal accesses are to be ignored. -/
def Ignored (P : Platform) (A : PhysAccess) (a : Word) : Prop :=
  A.Misses P a ∧ (P.share && P.ignoreIllegalMemAccess) = true

def Refused (P : Platform) (A : PhysAccess) (a : Word) (len : Nat) (mode : Mode) (s : Machine) :
    Prop :=
  isaPmpCheckPermission P s a len A.type mode = false ∨
    A.Misses P a ∧ (P.share && P.ignoreIllegalMemAccess) = false

end PhysAccess

/-- The call ends in an access fault, and has only recorded the address of the fault. -/
def AccessFault (P : Platform) (va : Word) (s : Machine) (r : EStateM.Result Stop Machine Word) :
    Prop :=
  ∃ ex ∈ [Exc.IAF, .LAF, .SAF], r = .error (.exception ⟨ex, some va, .plain⟩)
    ({ s with amo := false }.setCsr (trapLevel P s ex.code).tval va)

/-- An access that is performed has all of its bytes in one region, and one that runs past the end
of a region is an access fault. -/
structure StaysInside (B : Board) (A : PhysAccess) (pa : Word) (len : Nat) (mode : Mode) (va : Word)
    (s : Machine) : Prop where
  inside : (∀ f t, A.run B.toPlatform pa len mode va s ≠ .error (.exception f) t) →
    ¬ A.Ignored B.toPlatform (B.paddr pa) →
      B.memory.Holds (B.paddr pa).toNat len ∨
        ∃ m ∈ B.maps, m.region.Holds (B.paddr pa).toNat len
  past : ∀ r ∈ B.regions, r.Holds (B.paddr pa).toNat 1 → ¬ r.Holds (B.paddr pa).toNat len →
    AccessFault B.toPlatform va s (A.run B.toPlatform pa len mode va s)

section Memory

theorem toNat_and_not_low {a m : Word} (hm : m.toNat = 2 ^ k - 1) :
    (a &&& ~~~m).toNat = a.toNat / 2 ^ k * 2 ^ k := by
  have hdisjoint : (a &&& m) &&& (a &&& ~~~m) = 0#64 := by grind
  have hsum : (a &&& m) + (a &&& ~~~m) = a := by
    rw [BitVec.add_eq_or_of_and_eq_zero _ _ hdisjoint]
    grind
  have hlow : (a &&& m).toNat = a.toNat % 2 ^ k := by
    rw [BitVec.toNat_and, hm, Nat.and_two_pow_sub_one_eq_mod]
  have hsplit := BitVec.toNat_add_of_and_eq_zero hdisjoint
  rw [hsum, hlow] at hsplit
  have hdiv := Nat.div_add_mod a.toNat (2 ^ k)
  rw [Nat.mul_comm] at hdiv
  omega

theorem block_iff {a b : Nat} (h : 2 ^ k ∣ b) : a / 2 ^ k * 2 ^ k = b ↔ b ≤ a ∧ a < b + 2 ^ k := by
  obtain ⟨c, rfl⟩ := h
  have hpos : 0 < 2 ^ k := Nat.two_pow_pos k
  rw [Nat.mul_comm (2 ^ k) c, Nat.mul_left_inj hpos.ne', Nat.div_eq_iff hpos]
  omega

theorem powerOfTwo_of_and {n : Nat} (hn : n ≠ 0) (h : n &&& (n - 1) = 0) : ∃ k, n = 2 ^ k :=
  (Nat.and_sub_one_eq_zero_iff_isPowerOfTwo hn).mp h

theorem Config.toNat_paddr (cfg : Config) (a : Word) :
    (cfg.paddr a).toNat = a.toNat % 2 ^ cfg.paddrWidth := by
  unfold Config.paddr Config.paddrWidth
  split
  · exact (Nat.mod_eq_of_lt a.isLt).symm
  · have hmask : (0xffffffff : Word).toNat = 2 ^ 32 - 1 := by decide
    rw [BitVec.toNat_and, hmask, Nat.and_two_pow_sub_one_eq_mod]

theorem Config.and_paddr (cfg : Config) (a x : Word) :
    cfg.paddr a &&& cfg.paddr x = cfg.paddr a &&& x := by
  unfold Config.paddr
  split
  · rfl
  · grind

section Tests

variable {P : Platform} (hpos : 0 < P.msize.toNat) (hfits : P.mbase.toNat + P.msize.toNat ≤ 2 ^ P.paddrWidth)

include hpos hfits

theorem size_mask : (P.paddr (P.msize - 1)).toNat = P.msize.toNat - 1 := by
  have hone : (1 : Word).toNat = 1 := by decide
  have hle : 1 ≤ P.msize := BitVec.le_def.mpr (hone ▸ hpos)
  rw [Config.toNat_paddr, BitVec.toNat_sub_of_le hle, hone]
  exact Nat.mod_eq_of_lt (by omega)

theorem base_mask (h : P.mbase.toNat ≠ 0) : (P.paddr (P.mbase - 1)).toNat = P.mbase.toNat - 1 := by
  have hone : (1 : Word).toNat = 1 := by decide
  have hle : 1 ≤ P.mbase := BitVec.le_def.mpr (hone ▸ Nat.pos_of_ne_zero h)
  rw [Config.toNat_paddr, BitVec.toNat_sub_of_le hle, hone]
  exact Nat.mod_eq_of_lt (by omega)

/-- Under the conditions of the test by masks, memory is a block of a power of two, from zero or from a power of two
that is not less. -/
theorem mask_block (hbase : P.mbase &&& P.paddr (P.mbase - 1) = 0) (hsize : P.msize &&& P.paddr (P.msize - 1) = 0)
    (hle : P.paddr (P.msize - 1) ≤ P.paddr (P.mbase - 1)) :
    ∃ k, P.msize.toNat = 2 ^ k ∧ (P.mbase.toNat = 0 ∨ ∃ j, k ≤ j ∧ P.mbase.toNat = 2 ^ j) := by
  have hs := congrArg BitVec.toNat hsize
  rw [BitVec.toNat_and, size_mask hpos hfits] at hs
  obtain ⟨k, hk⟩ := powerOfTwo_of_and hpos.ne' hs
  refine ⟨k, hk, ?_⟩
  by_cases hzero : P.mbase.toNat = 0
  · exact .inl hzero
  · have hb := congrArg BitVec.toNat hbase
    rw [BitVec.toNat_and, base_mask hpos hfits hzero] at hb
    obtain ⟨j, hj⟩ := powerOfTwo_of_and hzero hb
    have hmask := BitVec.le_def.mp hle
    rw [size_mask hpos hfits, base_mask hpos hfits hzero] at hmask
    have hpow : 2 ^ k ≤ 2 ^ j := by omega
    exact .inr ⟨j, (Nat.pow_le_pow_iff_right Nat.one_lt_two).mp hpow, hj⟩

theorem inPmem_masks (h : P.mbase &&& P.paddr (P.mbase - 1) = 0 ∧ P.msize &&& P.paddr (P.msize - 1) = 0 ∧
    P.paddr (P.msize - 1) ≤ P.paddr (P.mbase - 1)) (pa : Word) : inPmem P (P.paddr pa) = true ↔
      P.mbase.toNat ≤ (P.paddr pa).toNat ∧ (P.paddr pa).toNat < P.mbase.toNat + P.msize.toNat := by
  obtain ⟨k, hk, hbase⟩ := mask_block hpos hfits h.1 h.2.1 h.2.2
  have hdvd : 2 ^ k ∣ P.mbase.toNat := by
    rcases hbase with hzero | ⟨j, hle, hj⟩
    · rw [hzero]
      exact Nat.dvd_zero _
    · rw [hj]
      exact Nat.pow_dvd_pow 2 hle
  unfold inPmem
  dsimp only
  rw [if_pos h, decide_eq_true_iff, P.and_paddr, ← BitVec.toNat_inj,
    toNat_and_not_low ((size_mask hpos hfits).trans (congrArg (· - 1) hk)), block_iff hdvd, ← hk]

/-- The test by comparisons takes the end of memory as a word. -/
theorem inPmem_compare (h : ¬ (P.mbase &&& P.paddr (P.mbase - 1) = 0 ∧ P.msize &&& P.paddr (P.msize - 1) = 0 ∧
    P.paddr (P.msize - 1) ≤ P.paddr (P.mbase - 1))) (pa : Word) : inPmem P (P.paddr pa) = true ↔
      P.mbase.toNat ≤ (P.paddr pa).toNat ∧ (P.paddr pa).toNat < (P.mbase.toNat + P.msize.toNat) % 2 ^ 64 := by
  have hbase : (P.paddr P.mbase).toNat = P.mbase.toNat := by
    rw [Config.toNat_paddr]
    exact Nat.mod_eq_of_lt (by omega)
  unfold inPmem
  dsimp only
  rw [if_neg h, Bool.and_eq_true, decide_eq_true_iff, decide_eq_true_iff, BitVec.le_def, BitVec.lt_def,
    BitVec.toNat_add, hbase]

end Tests

theorem Board.inPmem_iff (B : Board) (pa : Word) :
    inPmem B.toPlatform (B.paddr pa) = true ↔ B.memory.Holds (B.paddr pa).toNat 1 := by
  by_cases h : B.mbase &&& B.paddr (B.mbase - 1) = 0 ∧ B.msize &&& B.paddr (B.msize - 1) = 0 ∧
      B.paddr (B.msize - 1) ≤ B.paddr (B.mbase - 1)
  · exact inPmem_masks B.size_pos B.end_le h pa
  · rw [inPmem_compare B.size_pos B.end_le h pa, Nat.mod_eq_of_lt B.end_lt]
    exact Iff.rfl

end Memory

section Devices

theorem mapInside_iff (m : IOMap) (a : Word) :
    mapInside m a = true ↔ m.region.Holds a.toNat 1 := by
  unfold mapInside Region.Holds IOMap.region
  rw [Bool.and_eq_true, decide_eq_true_iff, decide_eq_true_iff, BitVec.le_def, BitVec.le_def]
  exact and_congr_right fun _ => Nat.lt_succ_iff.symm

/-- The map that an address is found in has it, so that `check_bound` never fails. -/
theorem fetchMmioMap_holds (h : isInMmio maps a = true) :
    ∃ m ∈ maps, fetchMmioMap maps a = some m ∧ m.region.Holds a.toNat 1 := by
  obtain ⟨i, hi⟩ := Option.isSome_iff_exists.mp h
  obtain ⟨hlt, hin, -⟩ := List.findIdx?_eq_some_iff_getElem.mp hi
  have hfetch : fetchMmioMap maps a = some maps[i] := by
    unfold fetchMmioMap
    rw [hi]
    exact List.getElem?_eq_getElem hlt
  exact ⟨maps[i], List.getElem_mem hlt, hfetch, (mapInside_iff _ _).mp hin⟩

end Devices

section Access

variable {P : Platform} {A : PhysAccess} {s : Machine} {va pa : Word}

open PhysAccess Effect

theorem raiseReadAccessFault_fault (type : MemType) (va : Word) (s : Machine) :
    AccessFault P va s (raiseReadAccessFault P type va s) := by
  unfold raiseReadAccessFault
  rw [get_bind]
  split
  · exact ⟨.IAF, by simp, raiseAccessFault_run _⟩
  split
  · exact ⟨.SAF, by simp, raiseAccessFault_run _⟩
  · exact ⟨.LAF, by simp, raiseAccessFault_run _⟩

theorem assert_stops {p : Prop} [Decidable p] {a : Abort} :
    assert p a s ≠ .error (.exception f) t := by
  intro h
  by_cases hp : p
  · cases (assert_pos p hp a s).symm.trans h
  · cases (assert_neg p hp a s).symm.trans h

theorem pmemRead_stops : pmemRead a len s ≠ .error (.exception f) t := by
  intro h
  obtain ha | ⟨_, _, -, hx⟩ := error_of_bind h
  · exact assert_stops ha
  · cases hx

theorem pmemWrite_stops : pmemWrite a len data s ≠ .error (.exception f) t := by
  intro h
  obtain ha | ⟨_, _, -, hx⟩ := error_of_bind h
  · exact assert_stops ha
  · cases hx

theorem accessFault_write (x : Exec Unit)
    (h : x s = (raiseAccessFault P .SAF va : Exec Unit) s) :
    AccessFault P va s ((do x; pure 0 : Exec Word) s) := by
  refine ⟨.SAF, by simp, ?_⟩
  exact bind_error (h.trans (raiseAccessFault_run .SAF))

theorem run_refused (h : A.Refused P (P.paddr pa) len mode s) :
    AccessFault P va s (A.run P pa len mode va s) := by
  cases A with
  | read type =>
    change AccessFault P va s (paddrRead P pa len type mode va s)
    unfold paddrRead
    rw [get_bind]
    obtain hpmp | ⟨⟨hmem, hdev⟩, hign⟩ := h
    · change isaPmpCheckPermission P s (P.paddr pa) len type mode = false at hpmp
      rw [hpmp, Bool.not_false, if_pos rfl]
      exact raiseReadAccessFault_fault type va s
    · change ((!P.share || P.hasFlash) && P.inMmio (P.paddr pa)) = false at hdev
      simp only [hmem, hdev, hign, Bool.false_eq_true, if_false]
      split
      · exact raiseReadAccessFault_fault type va s
      · exact raiseReadAccessFault_fault type va s
  | write data =>
    apply accessFault_write
    unfold paddrWrite
    rw [get_bind]
    obtain hpmp | ⟨⟨hmem, hdev⟩, hign⟩ := h
    · change isaPmpCheckPermission P s (P.paddr pa) len .write mode = false at hpmp
      rw [hpmp, Bool.not_false, if_pos rfl]
    · change (!P.share && P.inMmio (P.paddr pa)) = false at hdev
      simp only [hmem, hdev, hign, Bool.false_eq_true, if_false]
      split <;> rfl

/-- An access that is not refused is no exception: it is done, ignored, or stops the emulator. -/
theorem run_allowed (h : ¬ A.Refused P (P.paddr pa) len mode s) (f : Fault) (t : Machine) :
    A.run P pa len mode va s ≠ .error (.exception f) t := by
  obtain ⟨hpmp, hmiss⟩ := not_or.mp h
  have hpmp := Bool.eq_true_of_not_eq_false hpmp
  cases A with
  | read type =>
    change isaPmpCheckPermission P s (P.paddr pa) len type mode = true at hpmp
    change paddrRead P pa len type mode va s ≠ _
    unfold paddrRead
    rw [get_bind]
    simp only [hpmp, Bool.not_true, Bool.false_eq_true, if_false]
    split
    case isTrue => exact pmemRead_stops
    case isFalse hmem =>
    split
    case isTrue => exact mmioRead_stops _
    case isFalse hdev =>
    split
    case isTrue => exact fun hx => nomatch hx
    case isFalse hign =>
      exact absurd ⟨⟨Bool.eq_false_of_not_eq_true hmem, Bool.eq_false_of_not_eq_true hdev⟩,
        Bool.eq_false_of_not_eq_true hign⟩ hmiss
  | write data =>
    change isaPmpCheckPermission P s (P.paddr pa) len .write mode = true at hpmp
    intro hrun
    obtain hw | ⟨_, _, -, hx⟩ := error_of_bind hrun
    · revert hw
      unfold paddrWrite
      rw [get_bind]
      simp only [hpmp, Bool.not_true, Bool.false_eq_true, if_false]
      split
      case isTrue => exact pmemWrite_stops
      case isFalse hmem =>
      split
      case isTrue => exact mmioWrite_stops _
      case isFalse hdev =>
      split
      case isTrue => exact fun hx => nomatch hx
      case isFalse hign =>
        exact absurd ⟨⟨Bool.eq_false_of_not_eq_true hmem, Bool.eq_false_of_not_eq_true hdev⟩,
          Bool.eq_false_of_not_eq_true hign⟩ hmiss
    · cases hx

end Access

section Inside

variable {B : Board} {A : PhysAccess} {s : Machine} {va pa : Word}

theorem Board.holds_first (h : ¬ A.Misses B.toPlatform (B.paddr pa)) :
    ∃ r ∈ B.regions, r.Holds (B.paddr pa).toNat 1 := by
  cases hmem : inPmem B.toPlatform (B.paddr pa) with
  | true => exact ⟨B.memory, List.mem_cons_self, (B.inPmem_iff pa).mp hmem⟩
  | false =>
    have hdev := Bool.eq_true_of_not_eq_false fun hdev => h ⟨hmem, hdev⟩
    have hio := (Bool.and_eq_true_iff.mp hdev).2
    rw [B.inMmio_eq] at hio
    obtain ⟨m, hm, -, hholds⟩ := fetchMmioMap_holds hio
    exact ⟨m.region, List.mem_cons_of_mem _ (List.mem_map_of_mem hm), hholds⟩

theorem Board.mem_regions {r : Region} (h : r ∈ B.regions) (hholds : r.Holds a len) :
    B.memory.Holds a len ∨ ∃ m ∈ B.maps, m.region.Holds a len := by
  obtain rfl | hr := List.mem_cons.mp h
  · exact .inl hholds
  · obtain ⟨m, hm, rfl⟩ := List.mem_map.mp hr
    exact .inr ⟨m, hm, hholds⟩

/-- Only the first byte of an access is looked at once it is permitted. So accesses stay inside one
region exactly if they are refused or do not run past the end of a region. -/
theorem staysInside_iff (B : Board) (A : PhysAccess) (pa : Word) (len : Nat) (mode : Mode)
    (va : Word) (s : Machine) :
    StaysInside B A pa len mode va s ↔
      A.Refused B.toPlatform (B.paddr pa) len mode s ∨
        ∀ r ∈ B.regions, r.Holds (B.paddr pa).toNat 1 → r.Holds (B.paddr pa).toNat len := by
  by_cases href : A.Refused B.toPlatform (B.paddr pa) len mode s
  · have hfault : AccessFault B.toPlatform va s (A.run B.toPlatform pa len mode va s) :=
      run_refused href
    refine iff_of_true ⟨fun hrun => ?_, fun _ _ _ _ => hfault⟩ (.inl href)
    obtain ⟨ex, -, hex⟩ := hfault
    exact absurd hex (hrun _ _)
  · have hrun : ∀ f t, A.run B.toPlatform pa len mode va s ≠ .error (.exception f) t :=
      run_allowed href
    rw [or_iff_right href]
    constructor
    · intro h r hr hfirst
      by_contra hlen
      obtain ⟨ex, -, hex⟩ := h.past r hr hfirst hlen
      exact hrun _ _ hex
    · intro h
      refine ⟨fun _ hign => ?_, fun r hr hfirst hlen => absurd (h r hr hfirst) hlen⟩
      have hhit : ¬ A.Misses B.toPlatform (B.paddr pa) := by
        intro hmiss
        cases hopt : B.share && B.ignoreIllegalMemAccess with
        | true => exact hign ⟨hmiss, hopt⟩
        | false => exact href (.inr ⟨hmiss, hopt⟩)
      obtain ⟨r, hr, hfirst⟩ := Board.holds_first hhit
      exact Board.mem_regions hr (h r hr hfirst)

/-- The stand-alone build, without devices. -/
def memoryBoard : Board :=
  { Platform.bare .standalone with
    maps := []
    inMmio_eq := fun _ => rfl
    size_pos := by decide
    end_lt := by decide
    end_le := by decide }

/-- A load of eight bytes at the last byte of memory is performed. -/
theorem staysInside_lastByte : ¬ StaysInside memoryBoard (.read .read) 0x87ffffff 8 .M 0x87ffffff
    (Machine.reset memoryBoard.toPlatform fun _ => 0) := by
  intro h
  have hallowed : ¬ (PhysAccess.read .read).Refused memoryBoard.toPlatform
      (memoryBoard.paddr 0x87ffffff) 8 .M (Machine.reset memoryBoard.toPlatform fun _ => 0) := by
    rintro (hpmp | ⟨⟨hmem, -⟩, -⟩)
    · revert hpmp
      decide
    · revert hmem
      decide
  have hfirst : memoryBoard.memory.Holds (memoryBoard.paddr 0x87ffffff).toNat 1 := by
    constructor <;> decide
  have hpast : ¬ memoryBoard.memory.Holds (memoryBoard.paddr 0x87ffffff).toNat 8 := by
    rintro ⟨-, hle⟩
    revert hle
    decide
  obtain ⟨ex, -, hex⟩ := h.past memoryBoard.memory List.mem_cons_self hfirst hpast
  exact run_allowed hallowed _ _ hex

end Inside

end Nemu
