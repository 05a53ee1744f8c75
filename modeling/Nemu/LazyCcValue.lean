import Nemu.LazyCc

namespace Nemu.X86

set_option autoImplicit true

variable {w : OpWidth} {x y : BitVec 32}

section Words

def OpWidth.low (w : OpWidth) (x : BitVec 32) : BitVec w.bits := x.setWidth w.bits

theorem bits_pos (w : OpWidth) : 0 < w.bits := by cases w <;> decide

theorem bits_le (w : OpWidth) : w.bits ≤ 32 := by cases w <;> decide

theorem low_setWidth (a : BitVec w.bits) : w.low (a.setWidth 32) = a := by
  unfold OpWidth.low
  rw [BitVec.setWidth_setWidth_of_le _ (bits_le w), BitVec.setWidth_eq]

theorem low_add : w.low (x + y) = w.low x + w.low y := BitVec.setWidth_add _ _ (bits_le w)

theorem low_sub : w.low (x - y) = w.low x - w.low y := by
  have hadd : w.low (x - y) + w.low y = w.low x := by rw [← low_add, BitVec.sub_add_cancel]
  rw [← hadd, BitVec.add_sub_cancel]

theorem low_getLsbD {i : Nat} (hi : i < w.bits) : (w.low x).getLsbD i = x.getLsbD i := by
  unfold OpWidth.low
  rw [BitVec.getLsbD_setWidth, decide_eq_true hi, Bool.true_and]

theorem low_msb (w : OpWidth) (x : BitVec 32) : (w.low x).msb = x.getLsbD (w.bits - 1) := by
  have hpos := bits_pos w
  rw [BitVec.msb_eq_getLsbD_last, low_getLsbD (by omega)]

/-- `x & (0xffffffffu >> ((4 - width) * 8))` -/
def OpWidth.masked (w : OpWidth) (x : BitVec 32) : BitVec 32 := (w.low x).setWidth 32

def OpWidth.sign (w : OpWidth) (x : BitVec 32) : Bool := (w.low x).msb

theorem sign_xor : w.sign (x ^^^ y) = (w.sign x ^^ w.sign y) := by
  unfold OpWidth.sign
  rw [low_msb, low_msb, low_msb, BitVec.getLsbD_xor]

theorem sign_and : w.sign (x &&& y) = (w.sign x && w.sign y) := by
  unfold OpWidth.sign
  rw [low_msb, low_msb, low_msb, BitVec.getLsbD_and]

theorem mask_eq (hw : w ≠ .w4) (x : BitVec 32) : x &&& (0xffffffff >>> ((4 - w.bytes) * 8)) = w.masked x := by
  have hmask : (0xffffffff >>> ((4 - w.bytes) * 8) : BitVec 32) = BitVec.ofNat 32 (2 ^ w.bits - 1) := by
    cases w
    · rfl
    · rfl
    · exact absurd rfl hw
  rw [hmask]
  apply BitVec.eq_of_getLsbD_eq
  intro i hi
  unfold OpWidth.masked OpWidth.low
  rw [BitVec.getLsbD_and, BitVec.getLsbD_ofNat, Nat.testBit_two_pow_sub_one, BitVec.getLsbD_setWidth,
    BitVec.getLsbD_setWidth, decide_eq_true hi, Bool.true_and, Bool.true_and, Bool.and_comm]

@[simp]
theorem masked_w4 (x : BitVec 32) : OpWidth.w4.masked x = x := (BitVec.setWidth_eq _).trans (BitVec.setWidth_eq x)

theorem masked_eq_zero : (w.masked x == 0#32) = (w.low x == 0) := by
  unfold OpWidth.masked
  rw [Bool.eq_iff_iff, beq_iff_eq, beq_iff_eq]
  constructor
  · intro h
    rw [← low_setWidth (w.low x), h]
    exact BitVec.setWidth_zero _ _
  · intro h
    rw [h]
    exact BitVec.setWidth_zero _ _

theorem shl_getLsbD {i : Nat} (hi : i < w.bits) :
    (x <<< (32 - w.bits)).getLsbD (32 - w.bits + i) = (w.low x).getLsbD i := by
  have hle := bits_le w
  have hlt : 32 - w.bits + i < 32 := by omega
  have hge : ¬ 32 - w.bits + i < 32 - w.bits := by omega
  rw [BitVec.getLsbD_shiftLeft, decide_eq_true hlt, decide_eq_false hge, Nat.add_sub_cancel_left, low_getLsbD hi]
  rfl

theorem shl_slt_zero : (x <<< (32 - w.bits)).slt 0#32 = w.sign x := by
  have hpos := bits_pos w
  have hle := bits_le w
  have hi : 32 - 1 = 32 - w.bits + (w.bits - 1) := by omega
  have hslt : (x <<< (32 - w.bits)).slt 0#32 = (x <<< (32 - w.bits)).msb := by
    rw [BitVec.msb_eq_toInt]
    exact BitVec.slt_eq_decide
  unfold OpWidth.sign
  rw [hslt, BitVec.msb_eq_getLsbD_last, hi, shl_getLsbD (by omega), low_getLsbD (by omega), low_msb]

theorem shl_eq_zero : (x <<< (32 - w.bits) == 0#32) = (w.low x == 0) := by
  rw [Bool.eq_iff_iff, beq_iff_eq, beq_iff_eq]
  constructor
  · intro h
    apply BitVec.eq_of_getLsbD_eq
    intro i hi
    rw [← shl_getLsbD hi, h]
    exact BitVec.getLsbD_zero.trans BitVec.getLsbD_zero.symm
  · intro h
    apply BitVec.eq_of_getLsbD_eq
    intro i hi
    refine Eq.trans ?_ BitVec.getLsbD_zero.symm
    rw [BitVec.getLsbD_shiftLeft]
    by_cases hlt : i < 32 - w.bits
    · rw [decide_eq_true hlt]
      simp
    · have hlow : x.getLsbD (i - (32 - w.bits)) = (w.low x).getLsbD (i - (32 - w.bits)) := (low_getLsbD (by omega)).symm
      rw [hlow, h]
      simp

theorem shr_and_one (x : BitVec 32) (i : Nat) : (x >>> i) &&& 1 = ofBool (x.getLsbD i) := by
  apply BitVec.eq_of_getLsbD_eq
  intro j hj
  unfold ofBool
  rw [BitVec.getLsbD_and, BitVec.getLsbD_ushiftRight]
  cases j with
  | zero => cases x.getLsbD i <;> rfl
  | succ j =>
    have hone : (1 : BitVec 32).getLsbD (j + 1) = false := by simp
    rw [hone, Bool.and_false]
    cases x.getLsbD i <;> simp

theorem shr_last (x : BitVec 32) : x >>> 31 = ofBool (x.getLsbD 31) := by
  have hand : x >>> 31 = (x >>> 31) &&& 1 := by
    apply BitVec.eq_of_toNat_eq
    have hlt := x.isLt
    rw [BitVec.toNat_and, BitVec.toNat_ushiftRight, Nat.shiftRight_eq_div_pow]
    have hone : (1 : BitVec 32).toNat = 2 ^ 1 - 1 := rfl
    rw [hone, Nat.and_two_pow_sub_one_eq_mod]
    omega
  rw [hand, shr_and_one]

end Words

section Bools

@[simp]
theorem ofBool_or (b c : Bool) : ofBool b ||| ofBool c = ofBool (b || c) := by cases b <;> cases c <;> rfl

@[simp]
theorem ofBool_xor (b c : Bool) : ofBool b ^^^ ofBool c = ofBool (b ^^ c) := by cases b <;> cases c <;> rfl

@[simp]
theorem ofBool_xor_one (b : Bool) : ofBool b ^^^ 1#32 = ofBool (!b) := by cases b <;> rfl

@[simp]
theorem ofBool_inj {b c : Bool} : ofBool b = ofBool c ↔ b = c := by cases b <;> cases c <;> decide

theorem interpretRelop_EQ : interpretRelop .EQ x y = (x == y) := rfl

theorem interpretRelop_LT : interpretRelop .LT x y = x.slt y := rfl

theorem interpretRelop_LE : interpretRelop .LE x y = x.sle y := rfl

theorem interpretRelop_LTU : interpretRelop .LTU x y = x.ult y := rfl

theorem interpretRelop_LEU : interpretRelop .LEU x y = x.ule y := rfl

theorem interpretRelop_NE : interpretRelop .NE x y = !(x == y) := rfl

theorem interpretRelop_GT : interpretRelop .GT x y = !x.sle y := by
  rw [BitVec.sle_eq_not_slt, Bool.not_not]
  rfl

theorem interpretRelop_GE : interpretRelop .GE x y = !x.slt y := BitVec.sle_eq_not_slt

theorem interpretRelop_GTU : interpretRelop .GTU x y = !x.ule y := by
  rw [BitVec.ule_eq_not_ult, Bool.not_not]
  rfl

theorem interpretRelop_GEU : interpretRelop .GEU x y = !x.ult y := BitVec.ule_eq_not_ult _ _

end Bools

section States

variable {s t u : RtlState} {d r res src src1 src2 : RtlReg} {v v' : BitVec 32}

@[simp]
theorem ccOp_set : (s.set r v).ccOp = s.ccOp := rfl

@[simp]
theorem ccWidth_set : (s.set r v).ccWidth = s.ccWidth := rfl

theorem get_rz : s.get .rz = 0 := rfl

@[simp]
theorem get_set_self (h : r ≠ .rz) : (s.set r v).get r = v := by
  unfold RtlState.get RtlState.set
  rw [if_neg h]
  exact Function.update_self ..

@[simp]
theorem get_set_of_ne (h : r ≠ d) : (s.set d v).get r = s.get r := by
  unfold RtlState.get RtlState.set
  dsimp only
  rw [Function.update_of_ne h]

theorem set_set : (s.set r v).set r v' = s.set r v' := by
  unfold RtlState.set
  dsimp only
  rw [Function.update_idem]

@[simp]
theorem rtlMsb_eq (hd : d ≠ .rz) : rtlMsb s d src w = s.set d (ofBool (w.sign (s.get src))) := by
  have hbits : w.bytes * 8 = w.bits := rfl
  have hshift : (w.bits - 1) &&& 0x1f = w.bits - 1 := by cases w <;> rfl
  unfold rtlMsb rtlShri rtlAndi OpWidth.sign
  dsimp only
  rw [hbits, hshift, low_msb]
  by_cases hw : w = .w4
  · subst hw
    rw [if_neg (not_not.mpr rfl)]
    exact congrArg (s.set d) (shr_last _)
  · rw [if_pos hw, get_set_self hd, set_set, shr_and_one]

@[simp]
theorem rtlIsSubOverflow_eq (hd : d ≠ .rz) (hdt : d ≠ .t0) (h1 : src1 ≠ .t0) (hr : res ≠ .t0) :
    rtlIsSubOverflow s d res src1 src2 w = (s.set .t0 (s.get src1 ^^^ s.get src2)).set d
      (ofBool ((w.sign (s.get src1) ^^ w.sign (s.get src2)) && (w.sign (s.get src1) ^^ w.sign (s.get res)))) := by
  unfold rtlIsSubOverflow rtlXor rtlAnd
  dsimp only
  rw [rtlMsb_eq hd, get_set_self hd, set_set, set_set, get_set_self hd, get_set_of_ne hdt.symm,
    get_set_self (by decide), get_set_of_ne h1, get_set_of_ne hr, sign_and, sign_xor, sign_xor]

@[simp]
theorem maskdest_eq (hw : s.ccWidth ≠ .w4) :
    maskdest s r = (s.set r (s.ccWidth.masked (s.get .ccDest)), r) := by
  unfold maskdest rtlAndi
  rw [if_pos hw, mask_eq hw]

@[simp]
theorem maskdest_w4 (hw : s.ccWidth = .w4) : maskdest s r = (s, .ccDest) := if_neg (not_not.mpr hw)

end States

section Evaluation

variable {s u : RtlState} {dest : SetccDest} {r : RtlReg} {v : Bool} {cc : CondCode} {f : Flags} {d : BitVec 32}

/-- What there is in a register in the end, unless there is a panic. -/
def SetsTo (o : Option RtlState) (r : RtlReg) (v : Bool) : Prop := ∀ u, o = some u → u.get r = ofBool v

@[simp]
theorem setsTo_some : SetsTo (some u) r v ↔ u.get r = ofBool v := by
  constructor
  · exact fun h => h u rfl
  · intro h t ht
    cases ht
    exact h

@[simp]
theorem setsTo_none : SetsTo none r v := fun u h => by cases h

/-- The conditions that are computed from the flags, and what is put in place of the six others. -/
@[simp]
def CondCode.value (f : Flags) (be l le : Bool) : CondCode → Bool
  | .BE => be
  | .NBE => !be
  | .L => l
  | .NL => !l
  | .LE => le
  | .NLE => !le
  | cc => cc.holds f

/-- The condition `LE` where the first operand of the disjunction is lost if it is in `s0`. -/
def SetccDest.lessEq (dest : SetccDest) (f : Flags) : Bool := if dest.reg = .s0 then f.zf else (f.of ^^ f.sf) || f.zf

/-- The recorded operands. -/
structure Records (s : RtlState) (op : LazyccOp) (w : OpWidth) (d x y : BitVec 32) : Prop where
  op : s.ccOp = op
  width : s.ccWidth = w
  dest : s.get .ccDest = d
  src1 : s.get .ccSrc1 = x
  src2 : s.get .ccSrc2 = y

/-- The flags of the result, as the code computes them. -/
structure ResultFlags (w : OpWidth) (d : BitVec 32) (f : Flags) : Prop where
  zf : (w.masked d == 0#32) = f.zf
  sf : w.sign d = f.sf

attribute [local simp] rtlAdd rtlAddi rtlSub rtlXor rtlXori rtlOr rtlLi rtlShli rtlSetrelop rtlSetrelopi rtlIsSubCarry
  rtlIsAddCarry rtlIsAddOverflow negccReverse CondCode.neg CondCode.negRelop cc2relop cc2relopLogic interpretRelop_NE
  interpretRelop_GT interpretRelop_GE interpretRelop_GTU interpretRelop_GEU interpretRelop_LT interpretRelop_LE
  interpretRelop_LTU interpretRelop_LEU interpretRelop_EQ SetccDest.lessEq

theorem lazyAdd_setsTo (hr : Records s op w d x y) (hf : ResultFlags w d f)
    (ho : ((f.sf ^^ w.sign (d - x)) && (f.sf ^^ w.sign x)) = f.of) (hc : (w.masked d).ult x = f.cf)
    (hcc : (cc2relop cc).1 = false) :
    SetsTo (lazyAdd s dest.reg cc) dest.reg (cc.value f (f.zf || f.cf) ((w.masked d).slt x) (dest.lessEq f)) := by
  obtain ⟨_, hwidth, hd, hx, _⟩ := hr
  obtain ⟨hz, hs⟩ := hf
  by_cases hw : w = .w4
  · subst hw
    rw [masked_w4] at hz hc
    cases cc <;> cases dest <;> simp [lazyAdd, hwidth, hd, hx, hz, hs, ho, hc] at hcc ⊢
  · cases cc <;> cases dest <;> simp [lazyAdd, hwidth, hw, hd, hx, hz, hs, ho, hc] at hcc ⊢

theorem lazySub_setsTo (hr : Records s op w d x y) (hz : (d == x) = f.zf)
    (ho : ((w.sign d ^^ w.sign x) && (w.sign d ^^ w.sign (d - x))) = f.of) (hc : d.ult x = f.cf)
    (hcc : (cc2relop cc).1 = false ∨ cc = .E ∨ cc = .NE) :
    SetsTo (lazySub s dest.reg cc) dest.reg (cc.value f (d.ule x) (d.slt x) (d.sle x)) := by
  obtain ⟨_, hwidth, hd, hx, _⟩ := hr
  cases cc <;> cases dest <;> simp [lazySub, hwidth, hd, hx, hz, ho, hc] at hcc ⊢

theorem lazyNeg_setsTo (hr : Records s op w d x y) (hf : ResultFlags w d f) (hz : (d == 0#32) = f.zf)
    (ho : (d == -w.signBit) = f.of) (hc : (!f.zf) = f.cf) (hcc : (cc2relop cc).1 = false) :
    SetsTo (lazyNeg s dest.reg cc) dest.reg (cc.value f true (f.of ^^ f.sf) (dest.lessEq f)) := by
  obtain ⟨_, hwidth, hd, hx, _⟩ := hr
  obtain ⟨_, hs⟩ := hf
  have hrz : s.get .rz = 0#32 := rfl
  have htrue : 1#32 = ofBool true := rfl
  have hfalse : 0#32 = ofBool false := rfl
  cases cc <;> cases dest <;> simp [lazyNeg, hwidth, hd, hz, hs, ho, ← hc, hrz, ← htrue, ← hfalse] at hcc ⊢

theorem lazyInc_setsTo (hr : Records s op w d x y) (hf : ResultFlags w d f) (ho : (d == w.signBit) = f.of)
    (hcc : (cc2relop cc).1 = false) :
    SetsTo (lazyInc s dest.reg cc) dest.reg (cc.value f be (f.of ^^ f.sf) (dest.lessEq f)) := by
  obtain ⟨_, hwidth, hd, hx, _⟩ := hr
  obtain ⟨hz, hs⟩ := hf
  by_cases hw : w = .w4
  · subst hw
    rw [masked_w4] at hz
    cases cc <;> cases dest <;> simp [lazyInc, hwidth, hd, hz, hs, ho] at hcc ⊢
  · cases cc <;> cases dest <;> simp [lazyInc, hwidth, hw, hd, hz, hs, ho] at hcc ⊢

theorem lazyDec_setsTo (hr : Records s op w d x y) (hf : ResultFlags w d f) (hz : (d == 0#32) = f.zf)
    (ho : (d + 1#32 == w.signBit) = f.of) (hcc : (cc2relop cc).1 = false) :
    SetsTo (lazyDec s dest.reg cc) dest.reg (cc.value f be (f.of ^^ f.sf) (dest.lessEq f)) := by
  obtain ⟨_, hwidth, hd, hx, _⟩ := hr
  obtain ⟨_, hs⟩ := hf
  cases cc <;> cases dest <;> simp [lazyDec, hwidth, hd, hz, hs, ho] at hcc ⊢

theorem lazyAdc_setsTo (hr : Records s op w d x y) (hf : ResultFlags w d f)
    (ho : ((f.sf ^^ w.sign y) && (f.sf ^^ w.sign (d - x))) = f.of) (hc : (x.ult y || (w.masked d).ult x) = f.cf)
    (hcc : (cc2relop cc).1 = false) :
    SetsTo (lazyAdc s dest.reg cc) dest.reg (cc.value f (f.cf || f.zf) (f.of ^^ f.sf) (dest.lessEq f)) := by
  obtain ⟨_, hwidth, hd, hx, hy⟩ := hr
  obtain ⟨hz, hs⟩ := hf
  by_cases hw : w = .w4
  · subst hw
    rw [masked_w4] at hz hc
    cases cc <;> cases dest <;> simp [lazyAdc, hwidth, hd, hx, hy, hz, hs, ho, hc] at hcc ⊢
  · cases cc <;> cases dest <;> simp [lazyAdc, hwidth, hw, hd, hx, hy, hz, hs, ho, hc] at hcc ⊢

theorem lazySbb_setsTo (hr : Records s op w d x y) (hf : ResultFlags w d f)
    (ho : ((w.sign x ^^ w.sign y) && (w.sign x ^^ f.sf)) = f.of) (hc : ((x - d).ult y || x.ult d) = f.cf)
    (hcc : (cc2relop cc).1 = false) :
    SetsTo (lazySbb s dest.reg cc) dest.reg
      (cc.value f (if dest.reg = .s0 then d == 0#32 else f.cf || d == 0#32) (f.of ^^ f.sf) (dest.lessEq f)) := by
  obtain ⟨_, hwidth, hd, hx, hy⟩ := hr
  obtain ⟨hz, hs⟩ := hf
  by_cases hw : w = .w4
  · subst hw
    rw [masked_w4] at hz
    cases cc <;> cases dest <;> simp [lazySbb, hwidth, hd, hx, hy, hz, hs, ho, hc] at hcc ⊢
  · cases cc <;> cases dest <;> simp [lazySbb, hwidth, hw, hd, hx, hy, hz, hs, ho, hc] at hcc ⊢

theorem shift_amount (hw : w ≠ .w4) : (32 - w.bytes * 8) &&& 0x1f = 32 - w.bits := by
  cases w
  · rfl
  · rfl
  · exact absurd rfl hw

theorem rtlShli_eq {r : RtlReg} (hw : w ≠ .w4) :
    rtlShli s r src (32 - w.bytes * 8) = s.set r (s.get src <<< (32 - w.bits)) := by
  unfold rtlShli
  rw [shift_amount hw]

theorem slt_zero_w4 (d : BitVec 32) : d.slt 0#32 = OpWidth.w4.sign d := by
  rw [← shl_slt_zero]
  exact congrArg (BitVec.slt · 0#32) (BitVec.shiftLeft_zero d).symm

theorem compareZero {z : BitVec 32} (hz : (z == 0#32) = f.zf) (hs : z.slt 0#32 = f.sf ∨ cc = .E ∨ cc = .NE)
    (hcc : (cc2relop cc).1 = true) : interpretRelop (cc2relop cc).2 z 0#32 = cc.holds f := by
  cases cc <;> simp [hz] at hcc hs ⊢ <;> exact hs

/-- A word is compared with zero, shifted to the top before that unless an exception is made. -/
theorem shifted_setsTo {r p : RtlReg} {v : BitVec 32} {exc : Prop} [Decidable exc] (hrz : r ≠ .rz) (hv : s.get p = v)
    (hz : (s.ccWidth.low v == 0) = f.zf) (hs : s.ccWidth.sign v = f.sf)
    (hexc : exc → (v == 0#32) = f.zf ∧ (cc = .E ∨ cc = .NE)) (hcc : (cc2relop cc).1 = true) :
    (rtlSetrelop (if s.ccWidth ≠ .w4 ∧ ¬ exc then (rtlShli s r p (32 - s.ccWidth.bytes * 8), r) else (s, p)).1
      (cc2relop cc).2 r (if s.ccWidth ≠ .w4 ∧ ¬ exc then (rtlShli s r p (32 - s.ccWidth.bytes * 8), r) else (s, p)).2 .rz).get
        r = ofBool (cc.holds f) := by
  unfold rtlSetrelop
  rw [get_set_self hrz, get_rz]
  refine congrArg ofBool ?_
  by_cases hshift : s.ccWidth ≠ .w4 ∧ ¬ exc
  · rw [if_pos hshift, rtlShli_eq hshift.1, get_set_self hrz, hv]
    exact compareZero (shl_eq_zero.trans hz) (.inl (shl_slt_zero.trans hs)) hcc
  · rw [if_neg hshift]
    dsimp only
    rw [hv]
    by_cases he : exc
    · exact compareZero (hexc he).1 (.inr (hexc he).2) hcc
    · have hw : s.ccWidth = .w4 := not_not.mp fun hw => hshift ⟨hw, he⟩
      rw [hw] at hz hs
      rw [← masked_eq_zero, masked_w4] at hz
      exact compareZero hz (.inl ((slt_zero_w4 v).trans hs)) hcc

theorem lazyUnary_setsTo {r : RtlReg} (hr : Records s op w d x y) (hrz : r ≠ .rz)
    (hz : (w.low (if op = .sub then d - x else d) == 0) = f.zf) (hs : w.sign (if op = .sub then d - x else d) = f.sf)
    (hlogic : op = .logic → (d == 0#32) = f.zf) (hcc : (cc2relop cc).1 = true) :
    (lazyUnary s r cc).get r = ofBool (cc.holds f) := by
  obtain ⟨hop, hwidth, hd, hx, _⟩ := hr
  subst hop hwidth
  unfold lazyUnary
  by_cases hsub : s.ccOp = .sub
  · rw [if_pos hsub] at hz hs ⊢
    have hv : (rtlSub s r .ccDest .ccSrc1).get r = d - x := by
      rw [← hd, ← hx]
      exact get_set_self hrz
    refine shifted_setsTo hrz hv hz hs (fun hexc => ?_) hcc
    exact absurd (hsub.symm.trans hexc.1) (by decide)
  · rw [if_neg hsub] at hz hs ⊢
    exact shifted_setsTo hrz hd hz hs (fun hexc => ⟨hlogic hexc.1, hexc.2⟩) hcc

theorem ult_zero (x : BitVec 32) : x.ult 0#32 = false := decide_eq_false (Nat.not_lt_zero _)

theorem ule_zero (x : BitVec 32) : x.ule 0#32 = (x == 0#32) := by
  rw [Bool.eq_iff_iff, beq_iff_eq]
  exact BitVec.ule_iff_le.trans BitVec.le_zero_iff

theorem sle_zero (x : BitVec 32) : x.sle 0#32 = (x.slt 0#32 || x == 0#32) := by
  rw [Bool.eq_iff_iff, Bool.or_eq_true, beq_iff_eq, BitVec.sle_iff_toInt_le, BitVec.slt_iff_toInt_lt,
    Int.le_iff_lt_or_eq, BitVec.toInt_inj]

/-- The signed conditions shift the operand to the top of a word. -/
@[simp]
def CondCode.signed : CondCode → Bool
  | .L | .NL | .LE | .NLE => true
  | _ => false

/-- The conditions after a logic instruction, where `P` and `NP` are both false. -/
theorem compareLogic {z : BitVec 32} (hz : (z == 0#32) = f.zf) (hs : z.slt 0#32 = f.sf ∨ cc.signed = false)
    (hcf : f.cf = false) (hof : f.of = false) (hcc : (cc2relop cc).1 = false) :
    interpretRelop (cc2relopLogic cc) z 0#32 = (cc ≠ .P && cc ≠ .NP && cc.holds f) := by
  have hfalse : interpretRelop .FALSE z 0#32 = false := rfl
  have htrue : interpretRelop .TRUE z 0#32 = true := rfl
  cases cc <;> simp [hfalse, htrue, ult_zero, ule_zero, sle_zero, hz, hcf, hof] at hcc hs ⊢ <;> rw [hs]

theorem lazyLogic_setsTo {r : RtlReg} (hr : Records s op w d x y) (hrz : r ≠ .rz) (hlow : (w.low d == 0) = f.zf)
    (hz : (d == 0#32) = f.zf) (hs : w.sign d = f.sf) (hcf : f.cf = false) (hof : f.of = false)
    (hcc : (cc2relop cc).1 = false) : (lazyLogic s r cc).get r = ofBool (cc ≠ .P && cc ≠ .NP && cc.holds f) := by
  obtain ⟨_, hwidth, hd, _, _⟩ := hr
  subst hwidth
  unfold lazyLogic rtlSetrelop
  rw [get_set_self hrz, get_rz]
  refine congrArg ofBool ?_
  by_cases hshift : cc.signed = true ∧ s.ccWidth ≠ .w4
  · rw [← compareLogic (shl_eq_zero.trans hlow) (.inl (shl_slt_zero.trans hs)) hcf hof hcc]
    cases cc <;> simp [shift_amount, hshift.2, hrz, hd] at hshift ⊢
  · have hdirect : d.slt 0#32 = f.sf ∨ cc.signed = false := by
      rcases hsg : cc.signed with _ | _
      · exact .inr rfl
      · have hw : s.ccWidth = .w4 := not_not.mp fun hw => hshift ⟨hsg, hw⟩
        rw [hw] at hs
        exact .inl ((slt_zero_w4 d).trans hs)
    rw [← compareLogic hz hdirect hcf hof hcc]
    cases cc <;> simp [hd] at hshift ⊢ <;> simp [hshift, hd]

end Evaluation

end Nemu.X86
