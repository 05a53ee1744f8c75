import Nemu.VectorElement

namespace Nemu

open WideArith

set_option autoImplicit true

/-- The instructions that divide. -/
inductive DivOp where
  | divu | div | remu | rem
  deriving DecidableEq

def DivOp.executor : DivOp → Arthi
  | divu => .vdivu
  | div => .vdiv
  | remu => .vremu
  | rem => .vrem

theorem lookup_absent [BEq α] [LawfulBEq α] {l : List (α × β)} {v : β} (h : v ∉ l.map Prod.snd) (key : α) :
    l.lookup key ≠ some v := by
  intro hv
  obtain ⟨l₁, l₂, rfl, -⟩ := List.lookup_eq_some_iff.mp hv
  apply h
  rw [List.map_append]
  exact List.mem_append_right _ List.mem_cons_self

/-- The divisions stand in no table for immediates, so that they are not asserted away. -/
theorem DivOp.supported {o : DivOp} (hsel : tableOpV instr = some o.executor) :
    o.executor.unsupported ≠ some (srcVmode instr) := by
  have hvv : o.executor ∉ vopivv.map Prod.snd := by cases o <;> decide
  have hvx : o.executor ∉ vopivx.map Prod.snd := by cases o <;> decide
  have hunary : o.executor ∉ vxunary0Dispatch.map Prod.snd := by cases o <;> decide
  have hmode : o.executor.unsupported = some .vi := by cases o <;> rfl
  have hvopm : ∀ mode : SrcVmode, mode ≠ .vi →
      (if vFunct6 instr = 0b010010 then vxunary0Dispatch.lookup (instr.extractLsb' 15 5)
        else vopm.lookup (vFunct6 instr)) = some o.executor →
      some .vi ≠ some (if vFunct6 instr = 0b010010 then SrcVmode.vi else mode) := by
    intro mode hne hsel
    split at hsel
    · exact absurd hsel (lookup_absent hunary _)
    · next hkey =>
      rw [if_neg hkey]
      exact fun h => hne (Option.some.inj h).symm
  rw [hmode]
  unfold tableOpV at hsel
  unfold srcVmode
  split at hsel
  · exact absurd hsel (lookup_absent hvv _)
  · exact absurd hsel (lookup_absent hvx _)
  · exact absurd hsel (lookup_absent hvx _)
  · next h =>
    rw [h]
    exact hvopm .vv (by decide) hsel
  · next h =>
    rw [h]
    exact hvopm .vx (by decide) hsel
  · cases hsel

/-- The operation on elements, which is that on registers at another width. -/
def DivOp.mulOp : DivOp → MulOp
  | divu => .divu
  | div => .div
  | remu => .remu
  | rem => .rem

/-- The quotient or remainder of two words. `none` where the host traps. -/
def DivOp.computed (o : DivOp) (x y : Word) : Option Word :=
  match o with
  | divu => some (if y = 0 then -1 else x / y)
  | div => some (if y = 0 then -1 else if x = BitVec.intMin 64 ∧ y = -1 then x else x.sdiv y)
  | remu => some (if y = 0 then x else x % y)
  | rem => if y = 0 then some x else if x = BitVec.intMin 64 ∧ y = -1 then none else some (x.srem y)

/-- The condition on an element `a` of `vs2` and the operand `y` as it is read. A scalar may have bits
above SEW, which are ignored where it does not divide anyway. -/
def DivOp.Exact (o : DivOp) (a : BitVec w) (y : Word) : Prop :=
  match o with
  | divu => y.toNat < 2 ^ w ∨ y.setWidth w ≠ 0 ∧ a < y.setWidth w
  | div => True
  | remu => y.toNat < 2 ^ w ∨ y.setWidth w = 0 ∨ a < y.setWidth w
  | rem => ¬ (a.signExtend 64 = BitVec.intMin 64 ∧ y = -1)

section Arithmetic

variable {w : Nat}

theorem wide_divisor (hle : w ≤ 64) (a : BitVec w) {y : Word} (hy : 2 ^ w ≤ y.toNat) :
    a.setWidth 64 / y = 0 ∧ a.setWidth 64 % y = a.setWidth 64 ∧ y ≠ 0 := by
  have ha : (a.setWidth 64).toNat = a.toNat := by
    rw [BitVec.toNat_setWidth]
    exact Nat.mod_eq_of_lt (Nat.lt_of_lt_of_le a.isLt (Nat.pow_le_pow_right (by decide) hle))
  have hlt : (a.setWidth 64).toNat < y.toNat := by
    rw [ha]
    exact Nat.lt_of_lt_of_le a.isLt hy
  refine ⟨?_, ?_, ?_⟩
  · apply BitVec.eq_of_toNat_eq
    rw [BitVec.toNat_udiv, Nat.div_eq_of_lt hlt]
    rfl
  · apply BitVec.eq_of_toNat_eq
    rw [BitVec.toNat_umod, Nat.mod_eq_of_lt hlt]
  · intro h0
    rw [h0] at hy
    exact absurd hy (Nat.not_le.mpr (Nat.two_pow_pos w))

theorem narrow_divisor {y : Word} (hy : y.toNat < 2 ^ w) :
    (y.setWidth w).setWidth 64 = y := by
  apply BitVec.eq_of_toNat_eq
  rw [BitVec.toNat_setWidth, BitVec.toNat_setWidth, Nat.mod_eq_of_lt hy]
  exact Nat.mod_eq_of_lt y.isLt

theorem setWidth_toNat (hle : w ≤ 64) (a : BitVec w) : (a.setWidth 64).toNat = a.toNat := by
  rw [BitVec.toNat_setWidth]
  exact Nat.mod_eq_of_lt (Nat.lt_of_lt_of_le a.isLt (Nat.pow_le_pow_right (by decide) hle))

theorem setWidth_inj (hle : w ≤ 64) {a b : BitVec w} (h : a.setWidth 64 = b.setWidth 64) : a = b := by
  apply BitVec.eq_of_toNat_eq
  rw [← setWidth_toNat hle a, ← setWidth_toNat hle b, h]

theorem setWidth_udiv (hle : w ≤ 64) (a b : BitVec w) : (a.setWidth 64 / b.setWidth 64).setWidth w = a / b := by
  apply BitVec.eq_of_toNat_eq
  rw [BitVec.toNat_setWidth, BitVec.toNat_udiv, BitVec.toNat_udiv, setWidth_toNat hle, setWidth_toNat hle]
  exact Nat.mod_eq_of_lt (Nat.lt_of_le_of_lt (Nat.div_le_self _ _) a.isLt)

theorem setWidth_umod (hle : w ≤ 64) (a b : BitVec w) : (a.setWidth 64 % b.setWidth 64).setWidth w = a % b := by
  apply BitVec.eq_of_toNat_eq
  rw [BitVec.toNat_setWidth, BitVec.toNat_umod, BitVec.toNat_umod, setWidth_toNat hle, setWidth_toNat hle]
  exact Nat.mod_eq_of_lt (Nat.lt_of_le_of_lt (Nat.mod_le _ _) a.isLt)

theorem div_value (hw : 0 < w) (a : BitVec w) {b : BitVec w} (hb : b ≠ 0) :
    MulOp.div.value a b = BitVec.ofInt w (a.toInt.tdiv b.toInt) := by
  unfold MulOp.value
  dsimp only
  rw [if_neg (fun h => hb ((toInt_eq_zero_iff b).mp h))]
  split
  · next h =>
    have hmin : a = BitVec.intMin w := by
      apply BitVec.eq_of_toInt_eq
      rw [h.1, BitVec.toInt_intMin_of_pos hw]
    rw [h.2, Int.tdiv_neg, Int.tdiv_one, BitVec.ofInt_neg, BitVec.ofInt_toInt, hmin, BitVec.neg_intMin]
  · rfl

theorem rem_value (a : BitVec w) {b : BitVec w} (hb : b ≠ 0) :
    MulOp.rem.value a b = BitVec.ofInt w (a.toInt.tmod b.toInt) := by
  unfold MulOp.value
  dsimp only
  rw [if_neg (fun h => hb ((toInt_eq_zero_iff b).mp h))]
  split
  · next h =>
    rw [h.2, Int.tmod_neg, Int.tmod_one]
    rfl
  · rfl

theorem div_computed (x : Word) {y : Word} (hy : y ≠ 0) : DivOp.div.computed x y = some (x.sdiv y) := by
  unfold DivOp.computed
  dsimp only
  rw [if_neg hy]
  split
  · next h =>
    rw [h.1, h.2]
    rfl
  · rfl

theorem signExtend_eq_zero (hle : w ≤ 64) (b : BitVec w) : b.signExtend 64 = 0 ↔ b = 0 := by
  rw [← toInt_eq_zero_iff, BitVec.toInt_signExtend_of_le hle, toInt_eq_zero_iff]

theorem setWidth_sdiv (hle : w ≤ 64) (a b : BitVec w) :
    ((a.signExtend 64).sdiv (b.signExtend 64)).setWidth w = BitVec.ofInt w (a.toInt.tdiv b.toInt) := by
  rw [sdiv_eq_ofInt, setWidth_ofInt hle, BitVec.toInt_signExtend_of_le hle, BitVec.toInt_signExtend_of_le hle]

theorem setWidth_srem (hle : w ≤ 64) (a b : BitVec w) :
    ((a.signExtend 64).srem (b.signExtend 64)).setWidth w = BitVec.ofInt w (a.toInt.tmod b.toInt) := by
  rw [srem_eq_ofInt, setWidth_ofInt hle, BitVec.toInt_signExtend_of_le hle, BitVec.toInt_signExtend_of_le hle]

theorem setWidth_ones (hle : w ≤ 64) : (-1 : Word).setWidth w = BitVec.allOnes w := by
  have hall : (-1 : Word) = BitVec.allOnes 64 := by decide
  apply BitVec.eq_of_getLsbD_eq
  intro i hi
  rw [hall, BitVec.getLsbD_setWidth, BitVec.getLsbD_allOnes, BitVec.getLsbD_allOnes]
  simp [hi, Nat.lt_of_lt_of_le hi hle]

theorem ones_ne_zero (hw : 0 < w) : BitVec.allOnes w ≠ 0 := by
  intro h
  have hbit : (BitVec.allOnes w).getLsbD 0 = true := BitVec.getLsbD_allOnes.trans (decide_eq_true hw)
  rw [h] at hbit
  exact Bool.false_ne_true ((BitVec.getLsbD_zero (i := 0)).symm.trans hbit)

theorem setWidth_eq_zero (hle : w ≤ 64) (b : BitVec w) : b.setWidth 64 = 0 ↔ b.toNat = 0 := by
  rw [← toNat_eq_zero_iff, setWidth_toNat hle]

theorem setWidth_cut (hle : w ≤ 64) (a : BitVec w) : (a.setWidth 64).setWidth w = a := by
  rw [BitVec.setWidth_setWidth_of_le _ hle, BitVec.setWidth_eq]

/-- An unsigned quotient, where the divisor may have bits above SEW. -/
theorem divu_exact (hw : 0 < w) (hle : w ≤ 64) (a : BitVec w) (y : Word) :
    (DivOp.divu.computed (a.setWidth 64) y).map (fun x => x.setWidth w) =
      some (MulOp.divu.value a (y.setWidth w)) ↔ DivOp.divu.Exact a y := by
  unfold DivOp.computed DivOp.Exact MulOp.value
  dsimp only
  rw [Option.map_some, Option.some_inj, ← udiv_eq_ofNat]
  by_cases hy : y.toNat < 2 ^ w
  · obtain ⟨b, rfl⟩ : ∃ b : BitVec w, y = b.setWidth 64 := ⟨_, (narrow_divisor hy).symm⟩
    rw [setWidth_cut hle b]
    apply iff_of_true _ (.inl hy)
    by_cases h0 : b.toNat = 0
    · rw [if_pos ((setWidth_eq_zero hle b).mpr h0), if_pos h0]
      exact setWidth_ones hle
    · rw [if_neg (fun h => h0 ((setWidth_eq_zero hle b).mp h)), if_neg h0]
      exact setWidth_udiv hle a b
  · obtain ⟨hdiv, -, hne⟩ := wide_divisor hle a (Nat.not_lt.mp hy)
    have hcut : (0 : Word).setWidth w = 0 := BitVec.setWidth_zero w 64
    rw [if_neg hne, hdiv, hcut]
    generalize y.setWidth w = b
    by_cases h0 : b.toNat = 0
    · rw [if_pos h0]
      apply iff_of_false (ones_ne_zero hw).symm
      rintro (h | h)
      · exact hy h
      · exact h.1 ((toNat_eq_zero_iff b).mp h0)
    · have hquot : 0 = a / b ↔ a < b := by
        rw [eq_comm, ← toNat_eq_zero_iff, BitVec.toNat_udiv, Nat.div_eq_zero_iff_lt (Nat.pos_of_ne_zero h0)]
        exact BitVec.lt_def.symm
      rw [if_neg h0, hquot]
      exact ⟨fun h => .inr ⟨fun hb => h0 ((toNat_eq_zero_iff b).mpr hb), h⟩, fun h => (h.resolve_left hy).2⟩

theorem remu_exact (hle : w ≤ 64) (a : BitVec w) (y : Word) :
    (DivOp.remu.computed (a.setWidth 64) y).map (fun x => x.setWidth w) =
      some (MulOp.remu.value a (y.setWidth w)) ↔ DivOp.remu.Exact a y := by
  unfold DivOp.computed DivOp.Exact MulOp.value
  dsimp only
  rw [Option.map_some, Option.some_inj, ← umod_eq_ofNat]
  by_cases hy : y.toNat < 2 ^ w
  · obtain ⟨b, rfl⟩ : ∃ b : BitVec w, y = b.setWidth 64 := ⟨_, (narrow_divisor hy).symm⟩
    rw [setWidth_cut hle b]
    apply iff_of_true _ (.inl hy)
    by_cases h0 : b.toNat = 0
    · rw [if_pos ((setWidth_eq_zero hle b).mpr h0), if_pos h0]
      exact setWidth_cut hle a
    · rw [if_neg (fun h => h0 ((setWidth_eq_zero hle b).mp h)), if_neg h0]
      exact setWidth_umod hle a b
  · obtain ⟨-, hmod, hne⟩ := wide_divisor hle a (Nat.not_lt.mp hy)
    rw [if_neg hne, hmod, setWidth_cut hle a]
    generalize y.setWidth w = b
    by_cases h0 : b.toNat = 0
    · rw [if_pos h0]
      exact iff_of_true rfl (.inr (.inl ((toNat_eq_zero_iff b).mp h0)))
    · have hrem : a = a % b ↔ a < b := by
        rw [eq_comm, ← BitVec.toNat_inj, BitVec.toNat_umod, Nat.mod_eq_iff_lt h0]
        exact BitVec.lt_def.symm
      rw [if_neg h0, hrem]
      constructor
      · exact fun h => .inr (.inr h)
      · exact fun h => (h.resolve_left hy).resolve_left fun hb => h0 ((toNat_eq_zero_iff b).mpr hb)

theorem div_exact (hw : 0 < w) (hle : w ≤ 64) (a b : BitVec w) :
    (DivOp.div.computed (a.signExtend 64) (b.signExtend 64)).map (fun x => x.setWidth w) =
      some (MulOp.div.value a b) := by
  by_cases h0 : b = 0
  · have hy := (signExtend_eq_zero hle b).mpr h0
    unfold DivOp.computed MulOp.value
    dsimp only
    rw [if_pos hy, if_pos ((toInt_eq_zero_iff b).mpr h0)]
    exact congrArg some (setWidth_ones hle)
  · have hy : b.signExtend 64 ≠ 0 := fun h => h0 ((signExtend_eq_zero hle b).mp h)
    rw [div_computed _ hy, div_value hw a h0, Option.map_some, setWidth_sdiv hle]

theorem rem_exact (hle : w ≤ 64) (a b : BitVec w) :
    (DivOp.rem.computed (a.signExtend 64) (b.signExtend 64)).map (fun x => x.setWidth w) =
      some (MulOp.rem.value a b) ↔ DivOp.rem.Exact a (b.signExtend 64) := by
  unfold DivOp.computed DivOp.Exact
  dsimp only
  by_cases h0 : b = 0
  · have hy := (signExtend_eq_zero hle b).mpr h0
    have hover : ¬ (a.signExtend 64 = BitVec.intMin 64 ∧ b.signExtend 64 = -1) := by
      rintro ⟨-, h⟩
      rw [hy] at h
      exact absurd h (by decide)
    unfold MulOp.value
    dsimp only
    rw [if_pos hy, if_pos ((toInt_eq_zero_iff b).mpr h0), Option.map_some, setWidth_signExtend hle]
    exact iff_of_true rfl hover
  · have hy : b.signExtend 64 ≠ 0 := fun h => h0 ((signExtend_eq_zero hle b).mp h)
    rw [if_neg hy]
    by_cases hover : a.signExtend 64 = BitVec.intMin 64 ∧ b.signExtend 64 = -1
    · rw [if_pos hover]
      exact iff_of_false (fun h => by cases h) (not_not.mpr hover)
    · rw [if_neg hover, rem_value a h0, Option.map_some, setWidth_srem hle]
      exact iff_of_true rfl hover

end Arithmetic

section Instructions

variable {o : DivOp} {d : VDecode} {m : Machine} {instr : BitVec 32} {vsew vlmul vlmax i : Nat}
  {vl mask x y : Word}

/-- What the executors compute. The operands of the signed ones are sign extensions already. -/
theorem vopValue_division (hwidth : d.vWidth = 2 ^ vsew)
    (hsigned : o.executor.isSigned = true → rtlSext x (2 ^ vsew) = x ∧ rtlSext y (2 ^ vsew) = y) :
    vopValue o.executor d vsew vlmul vlmax i vl mask x y = (o.computed x y).elim (throw .sigfpe) pure := by
  cases o with
  | divu =>
    have hcode : vopValue .vdivu d vsew vlmul vlmax i vl mask x y =
        if y = 0 then pure (-1) else hostDivision (rtlDivuQ x y) := rfl
    rw [DivOp.executor, hcode]
    unfold DivOp.computed
    dsimp only
    by_cases h0 : y = 0
    · rw [if_pos h0, if_pos h0]
      rfl
    · rw [if_neg h0, if_neg h0, rtlDivuQ, unsignedDivision_eq h0]
      rfl
  | remu =>
    have hcode : vopValue .vremu d vsew vlmul vlmax i vl mask x y =
        if y = 0 then pure x else hostDivision (rtlDivuR x y) := rfl
    rw [DivOp.executor, hcode]
    unfold DivOp.computed
    dsimp only
    by_cases h0 : y = 0
    · rw [if_pos h0, if_pos h0]
      rfl
    · rw [if_neg h0, if_neg h0, rtlDivuR, unsignedDivision_eq h0]
      rfl
  | div =>
    obtain ⟨hx, hy⟩ := hsigned rfl
    have hcode : vopValue .vdiv d vsew vlmul vlmax i vl mask x y =
        if rtlSext y d.vWidth = 0 then pure (-1)
        else if rtlSext x d.vWidth = 0x8000000000000000 ∧ rtlSext y d.vWidth = -1 then pure (rtlSext x d.vWidth)
        else hostDivision (rtlDivsQ (rtlSext x d.vWidth) (rtlSext y d.vWidth)) := rfl
    rw [DivOp.executor, hcode, hwidth, hx, hy]
    unfold DivOp.computed
    dsimp only
    by_cases h0 : y = 0
    · rw [if_pos h0, if_pos h0]
      rfl
    · rw [if_neg h0, if_neg h0]
      by_cases hover : x = BitVec.intMin 64 ∧ y = -1
      · rw [if_pos hover, if_pos (c := x = 0x8000000000000000 ∧ y = -1) hover]
        rfl
      · rw [if_neg hover, if_neg (c := x = 0x8000000000000000 ∧ y = -1) hover, rtlDivsQ, signedDivision_eq h0 hover]
        rfl
  | rem =>
    obtain ⟨hx, hy⟩ := hsigned rfl
    have hcode : vopValue .vrem d vsew vlmul vlmax i vl mask x y =
        if rtlSext y d.vWidth = 0 then pure (rtlSext x d.vWidth)
        else if rtlSext y d.vWidth = 0x8000000000000000 ∧ rtlSext y d.vWidth = -1 then pure 0
        else hostDivision (rtlDivsR (rtlSext x d.vWidth) (rtlSext y d.vWidth)) := rfl
    have htwice : ¬ (y = 0x8000000000000000 ∧ y = -1) := by
      rintro ⟨rfl, h⟩
      exact absurd h (by decide)
    rw [DivOp.executor, hcode, hwidth, hx, hy]
    unfold DivOp.computed
    dsimp only
    by_cases h0 : y = 0
    · rw [if_pos h0, if_pos h0]
      rfl
    · rw [if_neg h0, if_neg htwice, if_neg h0]
      by_cases hover : x = BitVec.intMin 64 ∧ y = -1
      · have hnone : rtlDivsR x y = none := if_pos (.inr hover)
        rw [if_pos hover, hnone]
        rfl
      · rw [if_neg hover, rtlDivsR, signedDivision_eq h0 hover]
        rfl

/-- The element that RV64M's operation at SEW bits gives. -/
def DivOp.spec (o : DivOp) (m : Machine) (d : VDecode) (i : Nat) : BitVec (sew m.vsew) :=
  o.mulOp.value (m.elem m.vsew d.src2 i) (m.src d o.executor.isSigned i)

theorem DivOp.plain (o : DivOp) : o.executor.Plain := by
  cases o <;> exact ⟨by decide, rfl, rfl, rfl⟩

theorem srcValue_cut (hsew : m.vsew ≤ 3) (sg : Bool) :
    (m.srcValue d sg i).setWidth (sew m.vsew) = m.src d sg i := by
  unfold Machine.srcValue
  cases sg with
  | true => exact setWidth_signExtend (sew_le hsew) _
  | false =>
    unfold Machine.src
    cases d.srcVmode with
    | vv => exact setWidth_cut (sew_le hsew) _
    | vx => rfl
    | vi => exact BitVec.setWidth_setWidth_of_le _ (sew_le hsew)

theorem DivOp.exact_iff (o : DivOp) (hsew : m.vsew ≤ 3) :
    (o.computed (m.vs2Value d o.executor.isSigned i) (m.srcValue d o.executor.isSigned i)).map
        (fun x => x.setWidth (sew m.vsew)) = some (o.spec m d i) ↔
      o.Exact (m.elem m.vsew d.src2 i) (m.srcValue d o.executor.isSigned i) := by
  have hpos : 0 < sew m.vsew := Nat.lt_of_lt_of_le (by decide) (eight_le_sew m.vsew)
  have hle := sew_le hsew
  unfold DivOp.spec
  rw [← srcValue_cut hsew]
  cases o with
  | divu => exact divu_exact hpos hle _ _
  | remu => exact remu_exact hle _ _
  | div =>
    have hcut : (m.srcValue d true i).setWidth (sew m.vsew) = m.src d true i := srcValue_cut hsew true
    apply iff_of_true _ trivial
    change _ = some (MulOp.div.value _ ((m.srcValue d true i).setWidth (sew m.vsew)))
    rw [hcut]
    exact div_exact hpos hle _ _
  | rem =>
    have hcut : (m.srcValue d true i).setWidth (sew m.vsew) = m.src d true i := srcValue_cut hsew true
    change _ = some (MulOp.rem.value _ ((m.srcValue d true i).setWidth (sew m.vsew))) ↔ _
    rw [hcut]
    exact rem_exact hle _ _

theorem division_rounds (o : DivOp) (hwidth : d.vWidth = 2 ^ m.vsew) (hl : Elementwise m d) (hmul : m.vlmul ≤ 3) :
    Rounds o.executor d ⟨m, []⟩ (slot m.vsew d.dest) (Active o.executor d m) fun i =>
      (o.computed (m.vs2Value d o.executor.isSigned i) (m.srcValue d o.executor.isSigned i)).map
        fun x => x.setWidth (sew m.vsew) := by
  apply element_rounds o.plain hl hmul
  intro i mask
  apply vopValue_division hwidth
  intro hsigned
  have hext : ∀ x : BitVec (sew m.vsew), rtlSext (x.signExtend 64) (2 ^ m.vsew) = x.signExtend 64 := by
    intro x
    rw [rtlSext_eq hl.configured.sew, setWidth_signExtend (sew_le hl.configured.sew)]
  rw [hsigned]
  exact ⟨hext _, hext _⟩

/-- The divisions end, with the elements that the V extension defines, if, and only if, the groups are
whole and no element meets a scalar with bits above SEW that matter, or the remainder that does not
fit the host. -/
theorem division_exact_iff (hsel : tableOpV instr = some o.executor) (hl : Elementwise m (decodeOpV m instr)) :
    (∃ t, Executes instr ⟨m, []⟩ t ∧
      Writes m t.cpu (slot m.vsew (decodeOpV m instr).dest) (Active o.executor (decodeOpV m instr) m)
        (o.spec m (decodeOpV m instr))) ↔
    m.vlmul ≤ 3 ∧ ∀ i, m.Body i → Active o.executor (decodeOpV m instr) m i →
      o.Exact (m.elem m.vsew (decodeOpV m instr).src2 i)
        (m.srcValue (decodeOpV m instr) o.executor.isSigned i) := by
  rw [executes_writes_iff hsel (DivOp.supported hsel) hl.configured (division_rounds o rfl hl)]
  apply and_congr_right
  intro _
  apply forall_congr'
  intro i
  apply forall_congr'
  intro hi
  apply forall_congr'
  intro _
  exact o.exact_iff hl.configured.sew

/-- Two elements of 64 bits: the least integer and 2 in `v2`, and -1 and 7 in `v3`. -/
def divisionState : Machine :=
  configuredAs (3 <<< 3) 2 fun r => if r = 2 then (2 <<< 64) ||| (1 <<< 63)
    else if r = 3 then (7 <<< 64) ||| 0xffffffffffffffff else 0

theorem divisionState_legal (d : VDecode) (h : d.vm = true) : Elementwise divisionState d :=
  elementwise_single (by decide) ⟨by decide, .inl (by decide), by decide, by decide⟩ h

theorem divisionState_body {i : Nat} (h : divisionState.Body i) : i < 2 := h.2

/-- `vrem.vv v1, v3, v2`: the remainder of -1 by the least integer is -1, that of 7 by 2 is 1. -/
theorem division_exact_least :
    (∃ t, Executes 0x8e3120d7 ⟨divisionState, []⟩ t ∧
      Writes divisionState t.cpu (slot 3 1) (Active .vrem (decodeOpV divisionState 0x8e3120d7) divisionState)
        (DivOp.rem.spec divisionState (decodeOpV divisionState 0x8e3120d7))) ∧
    (List.range 2).map (DivOp.rem.spec divisionState (decodeOpV divisionState 0x8e3120d7)) = [-1, 1] := by
  constructor
  · apply (division_exact_iff (o := .rem) (by decide) (divisionState_legal _ (by decide))).mpr
    refine ⟨by decide, fun i hi _ => ?_⟩
    have hall : ∀ i < 2, ¬ ((divisionState.elem 3 3 i).signExtend 64 = BitVec.intMin 64 ∧
        divisionState.srcValue (decodeOpV divisionState 0x8e3120d7) true i = -1) := by decide
    exact hall i (divisionState_body hi)
  · decide

/-- `vrem.vv v1, v2, v3`: the remainder of the least integer by -1 is left to the host, which traps. -/
theorem division_trapped :
    Elementwise divisionState (decodeOpV divisionState 0x8e21a0d7) ∧
    tableOpV 0x8e21a0d7 = some DivOp.rem.executor ∧
    DivOp.rem.spec divisionState (decodeOpV divisionState 0x8e21a0d7) 0 = 0 ∧
    ¬ ∃ t, Executes 0x8e21a0d7 ⟨divisionState, []⟩ t := by
  have hl := divisionState_legal (decodeOpV divisionState 0x8e21a0d7) (by decide)
  have hsel : tableOpV 0x8e21a0d7 = some DivOp.rem.executor := by decide
  refine ⟨hl, hsel, by decide, ?_⟩
  rintro ⟨t, ht⟩
  have hrun := (executes_iff (s := ⟨divisionState, []⟩) hsel (by decide)).mp ht
  obtain ⟨u, -, -, hgood, -⟩ := arthimeticInstr_end (s := ⟨divisionState, []⟩) hl.configured (by decide)
    (division_rounds .rem rfl hl (by decide)) hrun
  exact absurd (hgood 0 ⟨by decide, by decide⟩ (by decide)) (by decide)

end Instructions

end Nemu
