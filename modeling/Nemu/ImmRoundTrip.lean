import Nemu.ImmDecode

namespace Nemu

set_option autoImplicit true

section Formats

/-- The bits `hi` to `lo` of an immediate, in the instruction from bit `start`. -/
structure ImmField where
  hi : Nat
  lo : Nat
  start : Nat

/-- The places of an immediate in a word, by the tables of the instruction formats. -/
def ImmHelper.fields : ImmHelper → List ImmField
  | .I => [⟨11, 0, 20⟩]
  | .S => [⟨11, 5, 25⟩, ⟨4, 0, 7⟩]
  | .B => [⟨12, 12, 31⟩, ⟨10, 5, 25⟩, ⟨4, 1, 8⟩, ⟨11, 11, 7⟩]
  | .J => [⟨20, 20, 31⟩, ⟨10, 1, 21⟩, ⟨11, 11, 20⟩, ⟨19, 12, 12⟩]
  | .U | .auipc => [⟨31, 12, 12⟩]
  | .dasicscallJ => [⟨22, 22, 31⟩, ⟨10, 1, 21⟩, ⟨20, 15, 15⟩, ⟨14, 11, 8⟩, ⟨21, 21, 7⟩]
  | .CISimm | .CIUimm | .CLI | .CBShift | .CBAndi => [⟨5, 5, 12⟩, ⟨4, 0, 2⟩]
  | .CISimmLui => [⟨17, 17, 12⟩, ⟨16, 12, 2⟩]
  | .CAddi16sp => [⟨9, 9, 12⟩, ⟨4, 4, 6⟩, ⟨6, 6, 5⟩, ⟨8, 7, 3⟩, ⟨5, 5, 2⟩]
  | .CLWSP => [⟨5, 5, 12⟩, ⟨4, 2, 4⟩, ⟨7, 6, 2⟩]
  | .CLDSP | .CFLDSP => [⟨5, 5, 12⟩, ⟨4, 3, 5⟩, ⟨8, 6, 2⟩]
  | .CSWSP => [⟨5, 2, 9⟩, ⟨7, 6, 7⟩]
  | .CSDSP | .CFSDSP => [⟨5, 3, 10⟩, ⟨8, 6, 7⟩]
  | .CAddi4spn => [⟨5, 4, 11⟩, ⟨9, 6, 7⟩, ⟨2, 2, 6⟩, ⟨3, 3, 5⟩]
  | .CLW | .CSW => [⟨5, 3, 10⟩, ⟨2, 2, 6⟩, ⟨6, 6, 5⟩]
  | .CLD | .CFLD | .CSD | .CFSD => [⟨5, 3, 10⟩, ⟨7, 6, 5⟩]
  | .CB => [⟨8, 8, 12⟩, ⟨4, 3, 10⟩, ⟨7, 6, 5⟩, ⟨2, 1, 3⟩, ⟨5, 5, 2⟩]
  | .CJ => [⟨11, 11, 12⟩, ⟨4, 4, 11⟩, ⟨9, 8, 9⟩, ⟨10, 10, 8⟩, ⟨6, 6, 7⟩, ⟨7, 7, 6⟩, ⟨3, 1, 3⟩, ⟨5, 5, 2⟩]

/-- The number of bits of an immediate, the low ones that are always zero counted. -/
def ImmHelper.bits : ImmHelper → Nat
  | .I | .S => 12
  | .B => 13
  | .J => 21
  | .U | .auipc => 32
  | .dasicscallJ => 23
  | .CISimm | .CIUimm | .CLI | .CBShift | .CBAndi => 6
  | .CISimmLui => 18
  | .CAddi16sp | .CAddi4spn => 10
  | .CLWSP | .CSWSP | .CLD | .CFLD | .CSD | .CFSD => 8
  | .CLDSP | .CFLDSP | .CSDSP | .CFSDSP | .CB => 9
  | .CLW | .CSW => 7
  | .CJ => 12

/-- The number of low bits that are always zero. -/
def ImmHelper.scale : ImmHelper → Nat
  | .I | .S | .CISimm | .CIUimm | .CLI | .CBShift | .CBAndi => 0
  | .B | .J | .dasicscallJ | .CB | .CJ => 1
  | .CLWSP | .CSWSP | .CAddi4spn | .CLW | .CSW => 2
  | .CLDSP | .CFLDSP | .CSDSP | .CFSDSP | .CLD | .CFLD | .CSD | .CFSD => 3
  | .CAddi16sp => 4
  | .U | .auipc | .CISimmLui => 12

def ImmHelper.signed : ImmHelper → Bool
  | .CIUimm | .CBShift | .CLWSP | .CLDSP | .CFLDSP | .CSWSP | .CSDSP | .CFSDSP | .CAddi4spn | .CLW | .CLD | .CFLD | .CSW
  | .CSD | .CFSD => false
  | _ => true

/-- The immediates of a format, as they are extended to words. -/
def ImmHelper.InRange (h : ImmHelper) (imm : Word) : Prop :=
  2 ^ h.scale ∣ imm.toNat ∧
    if h.signed then -2 ^ (h.bits - 1) ≤ imm.toInt ∧ imm.toInt < 2 ^ (h.bits - 1) else imm.toNat < 2 ^ h.bits

/-- The bits of an immediate where a word has them. -/
def scatter (fields : List ImmField) (imm : Word) : BitVec 32 :=
  fields.foldr (fun f acc => (imm.extractLsb' f.lo (f.hi + 1 - f.lo)).setWidth 32 <<< f.start ||| acc) 0

/-- The bits of a word that hold the immediate. -/
def ImmHelper.mask (h : ImmHelper) : BitVec 32 := scatter h.fields (-1)

/-- An immediate is put into a word, whose other bits stay. -/
def ImmHelper.place (h : ImmHelper) (imm : Word) (instr : BitVec 32) : BitVec 32 :=
  instr &&& ~~~h.mask ||| scatter h.fields imm

/-- An immediate as it comes back: cut to its bits and extended. -/
def ImmHelper.normal (h : ImmHelper) (imm : Word) : Word :=
  (if h.signed then (imm.setWidth h.bits).signExtend 64 else (imm.setWidth h.bits).setWidth 64) &&&
    (BitVec.allOnes 64 <<< h.scale)

end Formats

section Homs

open OrHom

theorem hom_scatter (fields : List ImmField) : Hom (scatter fields) := by
  induction fields with
  | nil => exact hom_zero
  | cons f fields ih => exact (((hom_shiftLeft f.start).comp (hom_setWidth 32)).comp (hom_extract f.lo _)).sup ih

theorem hom_uintField (start len : Nat) : Hom fun instr => uintField instr start len :=
  (hom_setWidth 32).comp (hom_extract start len)

theorem hom_intField (start len : Nat) : Hom fun instr => intField instr start len :=
  (hom_signExtend 32).comp (hom_extract start len)

theorem hom_bitsOf (hi lo : Nat) : Hom fun instr => bitsOf instr hi lo :=
  (hom_and _).comp (hom_ushiftRight lo)

theorem hom_sextOf {f : BitVec 32 → BitVec 32} (hf : Hom f) (len : Nat) : Hom fun instr => sextOf (f instr) len :=
  ((hom_signExtend 64).comp (hom_setWidth len)).comp hf

theorem hom_rorImm {f : BitVec 32 → BitVec 32} (hf : Hom f) (len r : Nat) :
    Hom fun instr => rorImm (f instr) len r := by
  unfold rorImm
  by_cases hr : r = 0
  · simp only [if_pos hr]
    exact hf
  · simp only [if_neg hr]
    exact (hom_and _).comp (hf.sup ((hom_shiftLeft len).comp hf))

theorem hom_term {f : BitVec 32 → BitVec v} (hf : Hom f) (n : Nat) : Hom fun instr => f instr <<< n :=
  (hom_shiftLeft n).comp hf

theorem hom_wide {f : BitVec 32 → BitVec v} (hf : Hom f) : Hom fun instr => ((f instr).setWidth 64 : Word) :=
  (hom_setWidth 64).comp hf

theorem hom_extended {f : BitVec 32 → BitVec v} (hf : Hom f) : Hom fun instr => ((f instr).signExtend 64 : Word) :=
  (hom_signExtend 64).comp hf

theorem hom_imm6 : Hom fun instr => bitsOf instr 12 12 <<< 5 ||| bitsOf instr 6 2 :=
  (hom_term (hom_bitsOf 12 12) 5).sup (hom_bitsOf 6 2)

theorem hom_cImm6Value {f : BitVec 32 → BitVec 32} (hf : Hom f) (sign : Bool) (rotate : Nat) :
    Hom fun instr => cImm6Value (f instr) sign rotate := by
  cases sign
  · exact hom_wide (hom_rorImm hf 6 rotate)
  · exact hom_term (hom_sextOf hf 6) 0

theorem hom_value (h : ImmHelper) : Hom fun instr => h.value instr := by
  have hbit := fun hi lo n => hom_wide (hom_term (hom_bitsOf hi lo) n)
  have hsign := fun n => hom_term (hom_sextOf (hom_bitsOf 12 12) 1) n
  have hint := fun start len n => hom_term (hom_intField start len) n
  have huint := fun start len n => hom_term (hom_uintField start len) n
  cases h
  case I => exact hom_extended (hom_intField 20 12)
  case S => exact hom_extended ((hint 25 7 5).sup (hom_uintField 7 5))
  case B => exact hom_extended ((((hint 31 1 12).sup (huint 7 1 11)).sup (huint 25 6 5)).sup (huint 8 4 1))
  case J => exact hom_extended ((((hint 31 1 20).sup (huint 12 8 12)).sup (huint 20 1 11)).sup (huint 21 10 1))
  case U | auipc => exact hom_term (hom_extended (hom_intField 12 20)) 12
  case dasicscallJ =>
    exact hom_extended (((((hint 31 1 22).sup (huint 7 1 21)).sup (huint 15 6 15)).sup (huint 8 4 11)).sup (huint 21 10 1))
  case CISimm | CLI | CBAndi => exact hom_cImm6Value hom_imm6 true 0
  case CISimmLui => exact hom_term (hom_cImm6Value hom_imm6 true 0) 12
  case CIUimm | CBShift => exact hom_cImm6Value hom_imm6 false 0
  case CAddi16sp => exact ((((hsign 9).sup (hbit 4 3 7)).sup (hbit 5 5 6)).sup (hbit 2 2 5)).sup (hbit 6 6 4)
  case CLWSP => exact hom_cImm6Value hom_imm6 false 2
  case CLDSP | CFLDSP => exact hom_cImm6Value hom_imm6 false 3
  case CSWSP => exact hom_cImm6Value (hom_bitsOf 12 7) false 2
  case CSDSP | CFSDSP => exact hom_cImm6Value (hom_bitsOf 12 7) false 3
  case CAddi4spn =>
    exact hom_wide (((hom_rorImm (hom_bitsOf 12 7) 6 4).sup (hom_term (hom_bitsOf 5 5) 3)).sup (hom_term (hom_bitsOf 6 6) 2))
  case CLW | CSW => exact hom_wide (hom_term (hom_rorImm ((hom_term (hom_bitsOf 12 10) 2).sup (hom_bitsOf 6 5)) 5 1) 1)
  case CLD | CFLD | CSD | CFSD =>
    exact hom_wide (hom_term (hom_rorImm ((hom_term (hom_bitsOf 12 10) 2).sup (hom_bitsOf 6 5)) 5 2) 1)
  case CB => exact ((((hsign 8).sup (hbit 6 5 6)).sup (hbit 2 2 5)).sup (hbit 11 10 3)).sup (hbit 4 3 1)
  case CJ =>
    exact (((((((hsign 11).sup (hbit 8 8 10)).sup (hbit 10 9 8)).sup (hbit 6 6 7)).sup (hbit 7 7 6)).sup (hbit 2 2 5)).sup
      (hbit 11 11 4)).sup (hbit 5 3 1)

theorem hom_normal (h : ImmHelper) : Hom h.normal := by
  unfold ImmHelper.normal
  cases h.signed
  · exact (hom_and _).comp ((hom_setWidth 64).comp (hom_setWidth h.bits))
  · exact (hom_and _).comp ((hom_signExtend 64).comp (hom_setWidth h.bits))

end Homs

section Bits

open OrHom

/-- On single bits: what was placed is read back, nothing else is read, and what is read can be placed again. -/
theorem value_basis (h : ImmHelper) :
    (∀ i : Fin 64, h.value (scatter h.fields (BitVec.twoPow 64 i)) = h.normal (BitVec.twoPow 64 i)) ∧
      (∀ i : Fin 32, h.value (BitVec.twoPow 32 i &&& ~~~h.mask) = 0) ∧
        ∀ i : Fin 32, scatter h.fields (h.value (BitVec.twoPow 32 i)) = BitVec.twoPow 32 i &&& h.mask := by
  cases h <;> decide +kernel

theorem value_scatter (h : ImmHelper) (imm : Word) : h.value (scatter h.fields imm) = h.normal imm :=
  ((hom_value h).comp (hom_scatter h.fields)).ext (hom_normal h) (value_basis h).1 imm

theorem value_outside (h : ImmHelper) (instr : BitVec 32) : h.value (instr &&& ~~~h.mask) = 0 :=
  ((hom_value h).comp (hom_and (~~~h.mask))).ext hom_zero (value_basis h).2.1 instr

theorem scatter_value (h : ImmHelper) (instr : BitVec 32) : scatter h.fields (h.value instr) = instr &&& h.mask :=
  ((hom_scatter h.fields).comp (hom_value h)).ext (hom_and h.mask) (value_basis h).2.2 instr

theorem value_place (h : ImmHelper) (imm : Word) (instr : BitVec 32) : h.value (h.place imm instr) = h.normal imm := by
  unfold ImmHelper.place
  rw [(hom_value h).or, value_outside, value_scatter]
  exact BitVec.zero_or

theorem value_inj (h : ImmHelper) {instr instr' : BitVec 32} (heq : h.value instr = h.value instr') :
    instr &&& h.mask = instr' &&& h.mask := by
  rw [← scatter_value, ← scatter_value, heq]

end Bits

section Rotation

theorem bitmask_getLsbD {i : Nat} (hi : i < 32) (len r : Nat) :
    (((1 <<< len) - 1) <<< r : BitVec 32).getLsbD i = (decide (r ≤ i) && decide (i - r < len)) := by
  rw [BitVec.natCast_eq_ofNat, BitVec.getLsbD_ofNat, decide_eq_true hi, Bool.true_and, Nat.testBit_shiftLeft,
    Nat.one_shiftLeft, Nat.testBit_two_pow_sub_one]

/-- `ror_imm` leaves the rotation of `len` bits in place, at bit `r`. -/
theorem rorImm_eq {imm : BitVec 32} {len r : Nat} (hr : 0 < r) (hlen : r < len) (himm : imm.toNat < 2 ^ len) :
    rorImm imm len r = ((imm.setWidth len).rotateRight r).setWidth 32 <<< r := by
  have hhigh : ∀ j, len ≤ j → imm.getLsbD j = false := by
    intro j hj
    exact Nat.testBit_lt_two_pow (Nat.lt_of_lt_of_le himm (Nat.pow_le_pow_right (by decide) hj))
  unfold rorImm
  rw [if_neg (Nat.ne_of_gt hr)]
  apply BitVec.eq_of_getLsbD_eq
  intro i hi
  rw [BitVec.getLsbD_and, bitmask_getLsbD hi, BitVec.getLsbD_or, BitVec.getLsbD_shiftLeft, BitVec.getLsbD_shiftLeft,
    BitVec.getLsbD_setWidth, BitVec.getLsbD_rotateRight, Nat.mod_eq_of_lt hlen, decide_eq_true hi, Bool.true_and]
  rcases Nat.lt_or_ge i r with hlow | hge
  · rw [decide_eq_true hlow, decide_eq_false (Nat.not_le.mpr hlow), Bool.false_and, Bool.and_false]
    rfl
  · have hsub : i - r < 32 := by omega
    rw [decide_eq_false (Nat.not_lt.mpr hge), decide_eq_true hge, decide_eq_true hsub, Bool.true_and, Bool.not_false,
      Bool.true_and, Bool.true_and, Bool.true_and]
    rcases Nat.lt_or_ge i len with hbelow | habove
    · -- the bits that are only shifted
      have hfirst : i - r < len - r := by omega
      have hin : i - r < len := by omega
      have hidx : r + (i - r) = i := by omega
      rw [decide_eq_true hfirst, cond_true, hidx, BitVec.getLsbD_setWidth, decide_eq_true hbelow,
        decide_eq_true hin, Bool.not_true, Bool.false_and, Bool.or_false, Bool.and_true, Bool.true_and]
    · -- the bits that come from the other end
      have hlast : ¬ i - r < len - r := by omega
      have hidx : i - r - (len - r) = i - len := by omega
      rw [decide_eq_false hlast, cond_false, hidx, BitVec.getLsbD_setWidth, hhigh i habove,
        decide_eq_false (Nat.not_lt.mpr habove), Bool.not_false, Bool.true_and, Bool.false_or, Bool.and_comm]
      by_cases hin : i - r < len
      · have hcopy : i - len < len := by omega
        rw [decide_eq_true hin, decide_eq_true hcopy, Bool.true_and, Bool.true_and]
      · rw [decide_eq_false hin, Bool.false_and, Bool.false_and]

end Rotation

section Range

theorem low_zero_and {n : Nat} (x : BitVec 64) (hd : 2 ^ n ∣ x.toNat) : x &&& (BitVec.allOnes 64 <<< n) = x := by
  apply BitVec.eq_of_getLsbD_eq
  intro i hi
  obtain ⟨k, hk⟩ := hd
  rw [BitVec.getLsbD_and, BitVec.getLsbD_shiftLeft, BitVec.getLsbD_allOnes, decide_eq_true hi, Bool.true_and]
  by_cases hn : i < n
  · have hbit : x.getLsbD i = false := by
      rw [BitVec.getLsbD, hk, Nat.testBit_two_pow_mul, decide_eq_false (Nat.not_le.mpr hn), Bool.false_and]
    rw [hbit, Bool.false_and]
  · have hlt : i - n < 64 := by omega
    rw [decide_eq_false hn, decide_eq_true hlt]
    simp

theorem signExtend_cut {n : Nat} (x : BitVec 64) (hn : 0 < n) (hle : n ≤ 64) (hlow : -2 ^ (n - 1) ≤ x.toInt)
    (hhigh : x.toInt < 2 ^ (n - 1)) : (x.setWidth n).signExtend 64 = x := by
  apply BitVec.eq_of_toInt_eq
  have hdvd : 2 ^ n ∣ 2 ^ 64 := Nat.pow_dvd_pow 2 hle
  have hpow : (2 : Int) ^ n = 2 * 2 ^ (n - 1) := by
    obtain ⟨m, rfl⟩ := Nat.exists_eq_add_of_lt hn
    rw [Nat.zero_add, Nat.add_sub_cancel, Int.pow_succ, Int.mul_comm]
  have hcast : ((2 ^ n : Nat) : Int) = 2 ^ n := by norm_cast
  rw [BitVec.toInt_signExtend_of_le hle, BitVec.toInt_setWidth, ← Int.bmod_bmod_of_dvd hdvd,
    ← BitVec.toInt_eq_toNat_bmod]
  apply Int.bmod_eq_of_le_mul_two
  · omega
  · omega

theorem bits_bounds (h : ImmHelper) : 0 < h.bits ∧ h.bits ≤ 64 := by cases h <;> decide

theorem normal_inRange {h : ImmHelper} {imm : Word} (hin : h.InRange imm) : h.normal imm = imm := by
  obtain ⟨hscale, hrange⟩ := hin
  obtain ⟨hpos, hle⟩ := bits_bounds h
  unfold ImmHelper.normal
  cases hs : h.signed with
  | true =>
    rw [hs, if_pos rfl] at hrange
    rw [if_pos rfl, signExtend_cut imm hpos hle hrange.1 hrange.2]
    exact low_zero_and imm hscale
  | false =>
    rw [hs, if_neg Bool.false_ne_true] at hrange
    have hcut : (imm.setWidth h.bits).setWidth 64 = imm := by
      apply BitVec.eq_of_toNat_eq
      rw [BitVec.toNat_setWidth, BitVec.toNat_setWidth, Nat.mod_eq_of_lt hrange, Nat.mod_eq_of_lt imm.isLt]
    rw [if_neg Bool.false_ne_true, hcut]
    exact low_zero_and imm hscale

end Range

section Helpers

variable {cfg : Config} {pc imm v : Word} {instr instr' : BitVec 32}

/-- The reserved code points, and floating point in a build without. -/
def ImmHelper.Reserved (cfg : Config) (imm : Word) (instr : BitVec 32) : ImmHelper → Prop
  | .CISimmLui => cfg.share ∧ imm = 0
  | .CAddi16sp | .CAddi4spn => imm = 0
  | .CLWSP | .CLDSP => cfg.share ∧ bitsOf instr 11 7 = 0
  | .CFLDSP | .CFSDSP | .CFLD | .CFSD => cfg.fpuNone
  | _ => False

theorem rd_basis (h : ImmHelper) (hsp : h = .CLWSP ∨ h = .CLDSP) :
    (∀ i : Fin 32, bitsOf (BitVec.twoPow 32 i &&& ~~~h.mask) 11 7 = bitsOf (BitVec.twoPow 32 i) 11 7) ∧
      ∀ i : Fin 64, bitsOf (scatter h.fields (BitVec.twoPow 64 i)) 11 7 = 0 := by
  rcases hsp with rfl | rfl <;> decide +kernel

theorem rd_place (h : ImmHelper) (hsp : h = .CLWSP ∨ h = .CLDSP) (imm : Word) (instr : BitVec 32) :
    bitsOf (h.place imm instr) 11 7 = bitsOf instr 11 7 := by
  have hrd := hom_bitsOf 11 7
  have houtside : bitsOf (instr &&& ~~~h.mask) 11 7 = bitsOf instr 11 7 :=
    (hrd.comp (OrHom.hom_and (~~~h.mask))).ext hrd (rd_basis h hsp).1 instr
  have hscatter : bitsOf (scatter h.fields imm) 11 7 = 0 :=
    (hrd.comp (hom_scatter h.fields)).ext OrHom.hom_zero (rd_basis h hsp).2 imm
  unfold ImmHelper.place
  rw [hrd.or, houtside, hscatter]
  exact BitVec.or_zero

/-- Nothing but the reserved code points is refused. -/
theorem refuses_place {h : ImmHelper} (hin : h.InRange imm) (hres : ¬ h.Reserved cfg imm instr) :
    h.refuses cfg (h.place imm instr) = none := by
  have hvalue : h.value (h.place imm instr) = imm := (value_place h imm instr).trans (normal_inRange hin)
  cases h
  case CISimmLui =>
    refine if_neg fun hbad => hres ⟨hbad.1, ?_⟩
    have hzero : rdRs1Imm6 (ImmHelper.CISimmLui.place imm instr) true <<< 12 = 0 := by
      rw [hbad.2]
      rfl
    exact hvalue.symm.trans hzero
  case CAddi16sp => exact if_neg fun hbad => hres (hvalue.symm.trans hbad)
  case CAddi4spn => exact if_neg fun hbad => hres (hvalue.symm.trans hbad)
  case CLWSP => exact if_neg fun hbad => hres ⟨hbad.1, (rd_place .CLWSP (.inl rfl) imm instr).symm.trans hbad.2⟩
  case CLDSP => exact if_neg fun hbad => hres ⟨hbad.1, (rd_place .CLDSP (.inr rfl) imm instr).symm.trans hbad.2⟩
  case CFLDSP | CFSDSP | CFLD | CFSD => exact if_neg hres
  all_goals rfl

theorem decode_place {h : ImmHelper} (hin : h.InRange imm) (hres : ¬ h.Reserved cfg imm instr) :
    h.decode cfg pc (h.place imm instr) = .ok (h.base pc + imm) := by
  unfold ImmHelper.decode
  rw [refuses_place hin hres, value_place, normal_inRange hin]

theorem decode_inj {h : ImmHelper} (hv : h.decode cfg pc instr = .ok v) (hv' : h.decode cfg pc instr' = .ok v) :
    instr &&& h.mask = instr' &&& h.mask := by
  have hsum : ∀ {w : BitVec 32}, h.decode cfg pc w = .ok v → h.base pc + h.value w = v := by
    intro w hw
    unfold ImmHelper.decode at hw
    split at hw
    · cases hw
    · exact Except.ok.inj hw
  have heq : h.base pc + h.value instr = h.base pc + h.value instr' := (hsum hv).trans (hsum hv').symm
  exact value_inj h (BitVec.add_left_inj _ |>.mp (by rw [BitVec.add_comm, heq, BitVec.add_comm]))

/-- Immediates are placed and decoded to the same values, different ones to different values, and `ror_imm` rotates. -/
theorem imm_decode_exact :
    (∀ (h : ImmHelper) (cfg : Config) (pc imm : Word) (instr : BitVec 32), h.InRange imm → ¬ h.Reserved cfg imm instr →
      h.decode cfg pc (h.place imm instr) = .ok (h.base pc + imm)) ∧
    (∀ (h : ImmHelper) (cfg : Config) (pc v : Word) (instr instr' : BitVec 32), h.decode cfg pc instr = .ok v →
      h.decode cfg pc instr' = .ok v → instr &&& h.mask = instr' &&& h.mask) ∧
    ∀ (imm : BitVec 32) (len r : Nat), 0 < r → r < len → len < 32 → imm.toNat < 2 ^ len →
      rorImm imm len r = ((imm.setWidth len).rotateRight r).setWidth 32 <<< r :=
  ⟨fun _ _ _ _ _ => decode_place, fun _ _ _ _ _ _ => decode_inj, fun _ _ _ hr hlen _ => rorImm_eq hr hlen⟩

/-- A jump eight bytes back, a load of a doubleword and a rotation. -/
theorem imm_decode_exact_examples :
    ImmHelper.J.decode Config.standalone 0x80000010 (ImmHelper.J.place (-8) 0xef) = .ok (0x80000010 + -8) ∧
      ImmHelper.CLD.decode Config.reference 0 (ImmHelper.CLD.place 248 0x6000) = .ok (0 + 248) ∧
        rorImm 0b110101 6 2 = ((0b110101#32).setWidth 6 |>.rotateRight 2).setWidth 32 <<< 2 :=
  ⟨imm_decode_exact.1 .J _ _ _ _ ⟨by decide, by decide⟩ id, imm_decode_exact.1 .CLD _ _ _ _ ⟨by decide, by decide⟩ id,
    imm_decode_exact.2.2 0b110101 6 2 (by decide) (by decide) (by decide) (by decide)⟩

end Helpers

section Model

open OrHom

/-- The immediates and offsets as the decoder concatenates them. -/
def Fetched.immediate (f : Fetched) : ImmHelper → Word
  | .I => f.immI
  | .S => f.immS
  | .B => f.immB
  | .J => f.immJ
  | .U | .auipc => f.immU
  | .dasicscallJ => f.immDasicscall
  | .CISimm | .CLI | .CBAndi => (imm6 f).signExtend 64
  | .CISimmLui => (imm6 f).signExtend 64 <<< 12
  | .CIUimm | .CBShift => (imm6 f).setWidth 64
  | .CAddi16sp => (f.bits 12 12 ++ f.bits 4 3 ++ f.bits 5 5 ++ f.bits 2 2 ++ f.bits 6 6 ++ 0#4).signExtend 64
  | .CLWSP => (rorImm ((imm6 f).setWidth 32) 6 2).setWidth 64
  | .CLDSP | .CFLDSP => (rorImm ((imm6 f).setWidth 32) 6 3).setWidth 64
  | .CSWSP => (rorImm ((f.bits 12 7).setWidth 32) 6 2).setWidth 64
  | .CSDSP | .CFSDSP => (rorImm ((f.bits 12 7).setWidth 32) 6 3).setWidth 64
  | .CAddi4spn =>
    (rorImm ((f.bits 12 7).setWidth 32) 6 4 ||| ((f.bits 5 5).setWidth 32 <<< 3) |||
      ((f.bits 6 6).setWidth 32 <<< 2)).setWidth 64
  | .CLW | .CSW => (rorImm ((f.bits 12 10 ++ f.bits 6 5).setWidth 32) 5 1 <<< 1).setWidth 64
  | .CLD | .CFLD | .CSD | .CFSD => (rorImm ((f.bits 12 10 ++ f.bits 6 5).setWidth 32) 5 2 <<< 1).setWidth 64
  | .CB =>
    (f.bits 12 12 ++ f.bits 6 5 ++ f.bits 2 2 ++ f.bits 11 10 ++ f.bits 4 3 ++ 0#1).signExtend 64
  | .CJ =>
    (f.bits 12 12 ++ f.bits 8 8 ++ f.bits 10 9 ++ f.bits 6 6 ++ f.bits 7 7 ++ f.bits 2 2 ++ f.bits 11 11 ++ f.bits 5 3 ++
      0#1).signExtend 64

/-- An instruction word as it is fetched, for what does not look at anything else. -/
def fetchedWord (instr : BitVec 32) : Fetched := ⟨0, 0, instr, .direct, false⟩

theorem immediate_basis (h : ImmHelper) (i : Fin 32) :
    (fetchedWord (BitVec.twoPow 32 i)).immediate h = h.value (BitVec.twoPow 32 i) := by
  revert i
  cases h <;> decide +kernel

theorem hom_bits (hi lo : Nat) : Hom fun instr => (fetchedWord instr).bits hi lo := hom_extract lo _

theorem hom_immediate (h : ImmHelper) : Hom fun instr => (fetchedWord instr).immediate h := by
  have hfield := fun hi lo => (hom_setWidth 32).comp (hom_bits hi lo)
  have himm6 : Hom fun instr => imm6 (fetchedWord instr) := (hom_bits 12 12).append (hom_bits 6 2)
  have himm5 := (hom_setWidth 32).comp ((hom_bits 12 10).append (hom_bits 6 5))
  have hload := fun r => hom_wide (hom_rorImm ((hom_setWidth 32).comp himm6) 6 r)
  have hstore := fun r => hom_wide (hom_rorImm (hfield 12 7) 6 r)
  cases h
  case I => exact hom_extended (hom_bits 31 20)
  case S => exact hom_extended ((hom_bits 31 25).append (hom_bits 11 7))
  case B =>
    exact hom_extended (((((hom_bits 31 31).append (hom_bits 7 7)).append (hom_bits 30 25)).append (hom_bits 11 8)).append
      hom_zero)
  case J =>
    exact hom_extended (((((hom_bits 31 31).append (hom_bits 19 12)).append (hom_bits 20 20)).append (hom_bits 30 21)).append
      hom_zero)
  case U | auipc => exact hom_extended ((hom_bits 31 12).append hom_zero)
  case dasicscallJ =>
    exact hom_extended ((((((hom_bits 31 31).append (hom_bits 7 7)).append (hom_bits 20 15)).append (hom_bits 11 8)).append
      (hom_bits 30 21)).append hom_zero)
  case CISimm | CLI | CBAndi => exact hom_extended himm6
  case CISimmLui => exact hom_term (hom_extended himm6) 12
  case CIUimm | CBShift => exact hom_wide himm6
  case CAddi16sp =>
    exact hom_extended ((((((hom_bits 12 12).append (hom_bits 4 3)).append (hom_bits 5 5)).append (hom_bits 2 2)).append
      (hom_bits 6 6)).append hom_zero)
  case CLWSP => exact hload 2
  case CLDSP | CFLDSP => exact hload 3
  case CSWSP => exact hstore 2
  case CSDSP | CFSDSP => exact hstore 3
  case CAddi4spn => exact hom_wide (((hom_rorImm (hfield 12 7) 6 4).sup (hom_term (hfield 5 5) 3)).sup (hom_term (hfield 6 6) 2))
  case CLW | CSW => exact hom_wide (hom_term (hom_rorImm himm5 5 1) 1)
  case CLD | CFLD | CSD | CFSD => exact hom_wide (hom_term (hom_rorImm himm5 5 2) 1)
  case CB =>
    exact hom_extended ((((((hom_bits 12 12).append (hom_bits 6 5)).append (hom_bits 2 2)).append (hom_bits 11 10)).append
      (hom_bits 4 3)).append hom_zero)
  case CJ =>
    exact hom_extended (((((((((hom_bits 12 12).append (hom_bits 8 8)).append (hom_bits 10 9)).append (hom_bits 6 6)).append
      (hom_bits 7 7)).append (hom_bits 2 2)).append (hom_bits 11 11)).append (hom_bits 5 3)).append hom_zero)

/-- The concatenations are what the helpers compute with bit-fields and shifts. -/
theorem immediate_value (f : Fetched) (h : ImmHelper) : f.immediate h = h.value f.instr := by
  have hword : f.immediate h = (fetchedWord f.instr).immediate h := by cases h <;> rfl
  rw [hword]
  exact (hom_immediate h).ext (hom_value h) (immediate_basis h) f.instr

variable (f : Fetched) (id : ExecId) {P : Platform} {d : Decode}

theorem decode_immediates : (decodeI f id).src2.imm = ImmHelper.I.value f.instr ∧
    (decodeS f id).src2.imm = ImmHelper.S.value f.instr ∧
    (decodeU f id).src1.imm = ImmHelper.U.value f.instr ∧
    (decodeAuipc f id).src1.imm = ImmHelper.auipc.value f.instr + f.pc ∧
    (decodeB f id).dest.imm = f.pc + ImmHelper.B.value f.instr ∧
    (decodeJ f id).src1.imm = f.pc + ImmHelper.J.value f.instr ∧
    (decodeDasicscallJ f id).src1.imm = f.pc + ImmHelper.dasicscallJ.value f.instr ∧
    (decodeCB f id).dest.imm = f.pc + ImmHelper.CB.value f.instr ∧
    (decodeCJ f id).src1.imm = f.pc + ImmHelper.CJ.value f.instr := by
  simp only [← immediate_value]
  exact ⟨rfl, rfl, rfl, rfl, rfl, rfl, rfl, rfl, rfl⟩

theorem decodeCI_immediates : (decodeCISimm f id).src2.imm = ImmHelper.CISimm.value f.instr ∧
    (decodeCIUimm f id).src2.imm = ImmHelper.CIUimm.value f.instr ∧
    (decodeCLI f id).src2.imm = ImmHelper.CLI.value f.instr ∧
    (decodeCAddi4spn f).src2.imm = ImmHelper.CAddi4spn.value f.instr ∧
    (decodeCISimmLui P f = .ok d → d.src1.imm = ImmHelper.CISimmLui.value f.instr) ∧
    (decodeCAddi16sp P f = .ok d → d.src2.imm = ImmHelper.CAddi16sp.value f.instr) := by
  simp only [← immediate_value]
  refine ⟨rfl, rfl, rfl, rfl, fun h => ?_, fun h => ?_⟩
  · unfold decodeCISimmLui at h
    dsimp only at h
    split at h
    · cases h
    · cases h
      rfl
  · unfold decodeCAddi16sp at h
    dsimp only at h
    split at h
    · split at h <;> cases h
    · cases h
      rfl

theorem decodeCLxSP_immediate {rotate : Nat} {isFp : Bool} (h : decodeCLxSP P f rotate isFp id = .ok d) :
    d.src2.imm = (rorImm ((imm6 f).setWidth 32) 6 rotate).setWidth 64 := by
  unfold decodeCLxSP at h
  dsimp only at h
  split at h
  · cases h
  · cases h
    rfl

theorem decodeCxxSP_immediates :
    (decodeCLxSP P f 2 false id = .ok d → d.src2.imm = ImmHelper.CLWSP.value f.instr) ∧
    (decodeCLxSP P f 3 false id = .ok d → d.src2.imm = ImmHelper.CLDSP.value f.instr) ∧
    (decodeCLxSP P f 3 true id = .ok d → d.src2.imm = ImmHelper.CFLDSP.value f.instr) ∧
    (decodeCSxSP f 2 false id).src2.imm = ImmHelper.CSWSP.value f.instr ∧
    (decodeCSxSP f 3 false id).src2.imm = ImmHelper.CSDSP.value f.instr ∧
    (decodeCSxSP f 3 true id).src2.imm = ImmHelper.CFSDSP.value f.instr := by
  simp only [← immediate_value]
  exact ⟨decodeCLxSP_immediate f id, decodeCLxSP_immediate f id, decodeCLxSP_immediate f id, rfl, rfl, rfl⟩

theorem decodeCLdst_immediates : (decodeCLdst f 1 false false id).src2.imm = ImmHelper.CLW.value f.instr ∧
    (decodeCLdst f 2 false false id).src2.imm = ImmHelper.CLD.value f.instr ∧
    (decodeCLdst f 2 false true id).src2.imm = ImmHelper.CFLD.value f.instr ∧
    (decodeCLdst f 1 true false id).src2.imm = ImmHelper.CSW.value f.instr ∧
    (decodeCLdst f 2 true false id).src2.imm = ImmHelper.CSD.value f.instr ∧
    (decodeCLdst f 2 true true id).src2.imm = ImmHelper.CFSD.value f.instr := by
  simp only [← immediate_value]
  exact ⟨rfl, rfl, rfl, rfl, rfl, rfl⟩

theorem tableRvcQ1Compute_immediates :
    (f.bits 11 10 = 0 ∨ f.bits 11 10 = 1 → (tableRvcQ1Compute f).src2.imm = ImmHelper.CBShift.value f.instr) ∧
    (f.bits 11 10 = 2 → (tableRvcQ1Compute f).src2.imm = ImmHelper.CBAndi.value f.instr) := by
  simp only [← immediate_value]
  unfold tableRvcQ1Compute
  constructor
  · rintro (h | h)
    · rw [h]
      rfl
    · rw [h]
      rfl
  · intro h
    rw [h]
    rfl

end Model

end Nemu
