import Nemu.LazyCcValue

namespace Nemu.X86

set_option autoImplicit true

section Recorded

variable {s t u : RtlState} {i j : Nat} {w : OpWidth} {A B : BitVec 32}

attribute [local simp] rtlAdd rtlAddi rtlSub rtlSubi rtlAnd rtlOr rtlXor rtlMv rtlXori rtlShli rtlSetrelop rtlSetrelopi
  rtlIsSubCarry rtlIsAddCarry negccReverse CondCode.neg cc2relop cc2relopLogic setLazycc

@[local simp]
theorem get_mk (r : RtlReg) : RtlState.get ⟨s.regs, op, w⟩ r = s.get r := rfl

theorem carryIn_eq (h : lazySetccInternal s .s0 .B = some t) :
    t.get .s0 = ofBool s.carryIn ∧ ∀ k, t.get (.operand k) = s.get (.operand k) := by
  have hvalue : (∃ v, t.get .s0 = ofBool v) ∧ ∀ k, t.get (.operand k) = s.get (.operand k) := by
    by_cases hw : s.ccWidth = .w4 <;> rcases hop : s.ccOp <;>
      simp [lazySetccInternal, lazyAdd, lazySub, lazyNeg, lazyInc, lazyDec, lazyAdc, lazySbb, lazyLogic, hop, hw] at h <;>
      subst h <;> simp
  obtain ⟨⟨v, hv⟩, hframe⟩ := hvalue
  refine ⟨?_, hframe⟩
  unfold RtlState.carryIn
  rw [h]
  dsimp only
  rw [hv]
  cases v <;> rfl

/-- The operation that an instruction records. -/
def ArithInstr.recordedOp : ArithInstr → LazyccOp
  | .add | .xadd => .add
  | .sub | .cmp => .sub
  | .inc => .inc
  | .dec => .dec
  | .neg => .neg
  | .adc => .adc
  | .sbb => .sbb
  | .and | .or | .xor | .test => .logic

/-- The word that is recorded as the destination. -/
def ArithInstr.recordedDest (A B : BitVec 32) (c : Bool) : ArithInstr → BitVec 32
  | .add | .xadd => A + B
  | .sub | .cmp => A
  | .inc => A + 1
  | .dec => A - 1
  | .neg => 0 - A
  | .adc => A + (B + ofBool c)
  | .sbb => A - (B + ofBool c)
  | .and | .test => A &&& B
  | .or => A ||| B
  | .xor => A ^^^ B

/-- The first source that is recorded, where there is one. -/
def ArithInstr.recordedSrc1 (A B : BitVec 32) (c : Bool) : ArithInstr → Option (BitVec 32)
  | .add | .xadd | .sub | .cmp => some B
  | .adc => some (B + ofBool c)
  | .sbb => some A
  | _ => none

/-- The second one. -/
def ArithInstr.recordedSrc2 (B : BitVec 32) : ArithInstr → Option (BitVec 32)
  | .adc | .sbb => some B
  | _ => none

theorem exec_records {instr : ArithInstr} (hA : s.get (.operand i) = A) (hB : s.get (.operand j) = B)
    (h : exec s (.operand i) (.operand j) w instr = some t) :
    Records t instr.recordedOp w (instr.recordedDest A B s.carryIn)
      ((instr.recordedSrc1 A B s.carryIn).getD (t.get .ccSrc1)) ((instr.recordedSrc2 B).getD (t.get .ccSrc2)) := by
  have hrz : ∀ s : RtlState, s.get .rz = 0#32 := fun s => rfl
  rcases hinstr : instr with _ | _ | _ | _ | _ | _ | _ | _ <;> subst hinstr
  case adc =>
    obtain ⟨s', hset, heq⟩ := Option.bind_eq_some_iff.mp h
    obtain ⟨hc, hframe⟩ := carryIn_eq hset
    cases heq
    constructor <;> simp [ArithInstr.recordedOp, ArithInstr.recordedDest, ArithInstr.recordedSrc1,
      ArithInstr.recordedSrc2, hframe, hc, hA, hB]
  case sbb =>
    obtain ⟨s', hset, heq⟩ := Option.bind_eq_some_iff.mp h
    obtain ⟨hc, hframe⟩ := carryIn_eq hset
    cases heq
    constructor <;> simp [ArithInstr.recordedOp, ArithInstr.recordedDest, ArithInstr.recordedSrc1,
      ArithInstr.recordedSrc2, hframe, hc, hA, hB]
  all_goals
    cases h
    constructor <;> simp [ArithInstr.recordedOp, ArithInstr.recordedDest, ArithInstr.recordedSrc1,
      ArithInstr.recordedSrc2, execAdd, execSub, execCmp, execInc, execDec, execNeg, execXadd, execAnd, execOr,
      execXor, execTest, hA, hB, hrz]

end Recorded

section Operands

variable {s : RtlState} {w : OpWidth} {a b : BitVec w.bits} {c : Bool} {x y d : BitVec 32} {f : Flags}
  {dest : SetccDest} {cc : CondCode} {be l le : Bool}

theorem resultFlags {r : BitVec w.bits} (hlow : w.low d = r) (hz : f.zf = (r == 0)) (hs : f.sf = r.msb) :
    ResultFlags w d f := by
  constructor
  · rw [masked_eq_zero, hlow, hz]
  · rw [OpWidth.sign, hlow, hs]

theorem sum_carry (a b : BitVec w.bits) : a + b + Flags.carry w.bits false = a + b := BitVec.add_zero _

theorem sub_carry (a b : BitVec w.bits) : a - b - Flags.carry w.bits false = a - b := BitVec.sub_zero _

theorem addResult (hlow : w.low d = a + b) : ResultFlags w d (.ofAdd a b false) := by
  apply resultFlags hlow
  · exact congrArg (· == 0) (sum_carry a b)
  · exact congrArg BitVec.msb (sum_carry a b)

theorem subResult (hlow : w.low d = a - b) : ResultFlags w d (.ofSub a b false) := by
  apply resultFlags hlow
  · exact congrArg (· == 0) (sub_carry a b)
  · exact congrArg BitVec.msb (sub_carry a b)

theorem dest_ne_rz (dest : SetccDest) : dest.reg ≠ .rz := by cases dest <;> exact RtlReg.noConfusion

theorem setcc_unary {op : LazyccOp} (hr : Records s op w d x y) (hop : op ≠ .sub) (hf : ResultFlags w d f)
    (hlogic : op = .logic → (d == 0#32) = f.zf) (hun : (cc2relop cc).1 = true) :
    SetsTo (lazySetccInternal s dest.reg cc) dest.reg (cc.holds f) := by
  have hsome : lazySetccInternal s dest.reg cc = some (lazyUnary s dest.reg cc) := by
    unfold lazySetccInternal
    exact if_pos ⟨hun, fun hexc => hop (hr.op.symm.trans hexc.1)⟩
  rw [hsome, setsTo_some]
  apply lazyUnary_setsTo hr (dest_ne_rz dest)
  · rw [if_neg hop, ← masked_eq_zero]
    exact hf.zf
  · rw [if_neg hop]
    exact hf.sf
  · exact hlogic
  · exact hun

theorem setcc_setsTo {op : LazyccOp} (hr : Records s op w d x y) (hop : op ≠ .sub) (hlogic : op ≠ .logic)
    (hf : ResultFlags w d f)
    (hrest : (cc2relop cc).1 = false → SetsTo (lazySetccInternal s dest.reg cc) dest.reg (cc.value f be l le)) :
    SetsTo (lazySetccInternal s dest.reg cc) dest.reg (cc.value f be l le) := by
  rcases hun : (cc2relop cc).1 with _ | _
  · exact hrest hun
  · have hvalue : cc.value f be l le = cc.holds f := by cases cc <;> first | rfl | cases hun
    rw [hvalue]
    exact setcc_unary hr hop hf (fun h => absurd h hlogic) hun

theorem setWidth_toNat (a : BitVec w.bits) : (a.setWidth 32).toNat = a.toNat :=
  BitVec.toNat_setWidth_of_le (bits_le w)

theorem setWidth_sign (a : BitVec w.bits) : w.sign (a.setWidth 32) = a.msb := by
  rw [OpWidth.sign, low_setWidth]

theorem setWidth_ult {x y : BitVec w.bits} : (x.setWidth 32).ult (y.setWidth 32) = decide (x.toNat < y.toNat) := by
  unfold BitVec.ult
  rw [setWidth_toNat, setWidth_toNat]

theorem setWidth_eq_zero (a : BitVec w.bits) : (a.setWidth 32 == 0#32) = (a == 0) := by
  have hmasked := masked_eq_zero (w := w) (x := a.setWidth 32)
  rw [OpWidth.masked, low_setWidth] at hmasked
  exact hmasked

theorem add_setsTo (hr : Records s .add w (a.setWidth 32 + b.setWidth 32) (b.setWidth 32) y) :
    SetsTo (lazySetccInternal s dest.reg cc) dest.reg (cc.value (.ofAdd a b false)
      ((Flags.ofAdd a b false).zf || (Flags.ofAdd a b false).cf) (((a + b).setWidth 32).slt (b.setWidth 32))
      (dest.lessEq (.ofAdd a b false))) := by
  have hlow : w.low (a.setWidth 32 + b.setWidth 32) = a + b := by rw [low_add, low_setWidth, low_setWidth]
  have hf : ResultFlags w (a.setWidth 32 + b.setWidth 32) (.ofAdd a b false) := addResult hlow
  apply setcc_setsTo hr (by decide) (by decide) hf
  intro hun
  have hset : lazySetccInternal s dest.reg cc = lazyAdd s dest.reg cc := by simp [lazySetccInternal, hun, hr.op]
  have hmasked : w.masked (a.setWidth 32 + b.setWidth 32) = (a + b).setWidth 32 := by rw [OpWidth.masked, hlow]
  rw [hset, ← hmasked]
  apply lazyAdd_setsTo hr hf _ _ hun
  · rw [BitVec.add_sub_cancel, setWidth_sign, setWidth_sign, ← hf.sf, OpWidth.sign, hlow, Flags.add_of (bits_pos w),
      sum_carry]
  · have hcases := Flags.add_cases (bits_pos w) a b false
    have hb := b.isLt
    have ha := a.isLt
    rw [sum_carry] at hcases
    rw [hmasked, setWidth_ult, Flags.add_cf (bits_pos w), decide_eq_decide]
    simp at hcases ⊢
    omega

theorem setWidth_inj {x y : BitVec w.bits} : x.setWidth 32 = y.setWidth 32 ↔ x = y := by
  constructor
  · intro h
    have heq := congrArg w.low h
    rwa [low_setWidth, low_setWidth] at heq
  · intro h
    rw [h]

theorem setWidth_beq {x y : BitVec w.bits} : (x.setWidth 32 == y.setWidth 32) = (x - y == 0) := by
  rw [Bool.eq_iff_iff, beq_iff_eq, beq_iff_eq, setWidth_inj, BitVec.sub_eq_iff_eq_add]
  exact Eq.congr_right (BitVec.zero_add y).symm

theorem setWidth_zf : (a.setWidth 32 == b.setWidth 32) = (Flags.ofSub a b false).zf :=
  setWidth_beq.trans (congrArg (· == 0) (sub_carry a b)).symm

theorem low_zero (w : OpWidth) : w.low 0 = 0 := BitVec.setWidth_zero _ _

theorem low_one (w : OpWidth) : w.low 1 = 1 := by cases w <;> rfl

theorem one_lt_bits (w : OpWidth) : 1 < w.bits := by cases w <;> decide

theorem sub_setsTo (hr : Records s .sub w (a.setWidth 32) (b.setWidth 32) y) :
    SetsTo (lazySetccInternal s dest.reg cc) dest.reg (cc.value (.ofSub a b false)
      ((a.setWidth 32).ule (b.setWidth 32)) ((a.setWidth 32).slt (b.setWidth 32)) ((a.setWidth 32).sle (b.setWidth 32))) := by
  have hlow : w.low (a.setWidth 32 - b.setWidth 32) = a - b := by rw [low_sub, low_setWidth, low_setWidth]
  have hf : ResultFlags w (a.setWidth 32 - b.setWidth 32) (.ofSub a b false) := subResult hlow
  by_cases hun : (cc2relop cc).1 = true ∧ ¬ (cc = .E ∨ cc = .NE)
  · have hsome : lazySetccInternal s dest.reg cc = some (lazyUnary s dest.reg cc) := by
      unfold lazySetccInternal
      exact if_pos ⟨hun.1, fun hexc => hun.2 hexc.2⟩
    have hzf : (w.low (a.setWidth 32 - b.setWidth 32) == 0) = (Flags.ofSub a b false).zf :=
      masked_eq_zero.symm.trans hf.zf
    have hget := lazyUnary_setsTo hr (dest_ne_rz dest) hzf hf.sf nofun hun.1
    rw [hsome, setsTo_some, hget]
    cases cc <;> first | rfl | cases hun.1
  · have hcc : (cc2relop cc).1 = false ∨ cc = .E ∨ cc = .NE := by
      rcases hrel : (cc2relop cc).1 with _ | _
      · exact .inl rfl
      · exact .inr (not_not.mp fun h => hun ⟨hrel, h⟩)
    have hset : lazySetccInternal s dest.reg cc = lazySub s dest.reg cc := by
      unfold lazySetccInternal
      rw [if_neg, hr.op]
      exact fun h => hun ⟨h.1, fun he => h.2 ⟨hr.op, he⟩⟩
    rw [hset]
    apply lazySub_setsTo hr setWidth_zf _ _ hcc
    · rw [setWidth_sign, setWidth_sign, OpWidth.sign, hlow, Flags.sub_of (bits_pos w), sub_carry]
    · rw [setWidth_ult, Flags.sub_cf (bits_pos w)]
      rfl

theorem signBit_toNat (w : OpWidth) : w.signBit.toNat = 2 ^ (w.bits - 1) := by cases w <;> rfl

theorem bits_half (w : OpWidth) : 2 * 2 ^ (w.bits - 1) = 2 ^ w.bits := by cases w <;> rfl

theorem neg_beq_zero {n : Nat} (v : BitVec n) : (0 - v == 0) = (v == 0) := by
  rw [Bool.eq_iff_iff, beq_iff_eq, beq_iff_eq]
  exact BitVec.neg_eq_zero_iff

theorem neg_zf (a : BitVec w.bits) : (Flags.ofSub 0 a false).zf = (a == 0) :=
  (congrArg (· == 0) (sub_carry 0 a)).trans (neg_beq_zero a)

theorem neg_setsTo (hr : Records s .neg w (0 - a.setWidth 32) x y) :
    SetsTo (lazySetccInternal s dest.reg cc) dest.reg (cc.value (.ofSub 0 a false) true
      ((Flags.ofSub 0 a false).of ^^ (Flags.ofSub 0 a false).sf) (dest.lessEq (.ofSub 0 a false))) := by
  have hlow : w.low (0 - a.setWidth 32) = 0 - a := by rw [low_sub, low_setWidth, low_zero]
  have hf : ResultFlags w (0 - a.setWidth 32) (.ofSub 0 a false) := subResult hlow
  apply setcc_setsTo hr (by decide) (by decide) hf
  intro hun
  have hset : lazySetccInternal s dest.reg cc = lazyNeg s dest.reg cc := by simp [lazySetccInternal, hun, hr.op]
  have hz := neg_zf a
  rw [hset]
  apply lazyNeg_setsTo hr hf _ _ _ hun
  · exact (neg_beq_zero _).trans ((setWidth_eq_zero a).trans hz.symm)
  · have hhalf := bits_half w
    have hneg : 0 - a.setWidth 32 = -w.signBit ↔ a.setWidth 32 = w.signBit := BitVec.neg_inj
    rw [Flags.neg_of (bits_pos w), Bool.eq_iff_iff, beq_iff_eq, decide_eq_true_iff, hneg, ← BitVec.toNat_inj,
      setWidth_toNat, signBit_toNat]
    omega
  · rw [hz, Flags.sub_cf (bits_pos w), Bool.eq_iff_iff, decide_eq_true_iff, Bool.not_eq_true', beq_eq_false_iff_ne,
      ne_eq, ← BitVec.toNat_inj]
    exact Nat.pos_iff_ne_zero.symm

theorem inc_setsTo (hr : Records s .inc w (a.setWidth 32 + 1) x y) :
    SetsTo (lazySetccInternal s dest.reg cc) dest.reg (cc.value { Flags.ofAdd a 1 false with cf := c } be
      ((Flags.ofAdd a 1 false).of ^^ (Flags.ofAdd a 1 false).sf) (dest.lessEq (.ofAdd a 1 false))) := by
  have hlow : w.low (a.setWidth 32 + 1) = a + 1 := by rw [low_add, low_setWidth, low_one]
  have hf : ResultFlags w (a.setWidth 32 + 1) { Flags.ofAdd a 1 false with cf := c } :=
    ⟨(addResult hlow).zf, (addResult hlow).sf⟩
  apply setcc_setsTo hr (by decide) (by decide) hf
  intro hun
  have hset : lazySetccInternal s dest.reg cc = lazyInc s dest.reg cc := by simp [lazySetccInternal, hun, hr.op]
  rw [hset]
  apply lazyInc_setsTo hr hf _ hun
  have hhalf := bits_half w
  have hle := Nat.pow_le_pow_right (by decide : 0 < 2) (bits_le w)
  have ha := a.isLt
  have hpos := Nat.two_pow_pos (w.bits - 1)
  dsimp only
  rw [Flags.inc_of (one_lt_bits w), Bool.eq_iff_iff, beq_iff_eq, decide_eq_true_iff, ← BitVec.toNat_inj,
    BitVec.toNat_add, setWidth_toNat, signBit_toNat]
  have hone : (1 : BitVec 32).toNat = 1 := rfl
  rw [hone]
  omega

theorem dec_setsTo (hr : Records s .dec w (a.setWidth 32 - 1) x y) :
    SetsTo (lazySetccInternal s dest.reg cc) dest.reg (cc.value { Flags.ofSub a 1 false with cf := c } be
      ((Flags.ofSub a 1 false).of ^^ (Flags.ofSub a 1 false).sf) (dest.lessEq (.ofSub a 1 false))) := by
  have hlow : w.low (a.setWidth 32 - 1) = a - 1 := by rw [low_sub, low_setWidth, low_one]
  have hf : ResultFlags w (a.setWidth 32 - 1) { Flags.ofSub a 1 false with cf := c } :=
    ⟨(subResult hlow).zf, (subResult hlow).sf⟩
  apply setcc_setsTo hr (by decide) (by decide) hf
  intro hun
  have hset : lazySetccInternal s dest.reg cc = lazyDec s dest.reg cc := by simp [lazySetccInternal, hun, hr.op]
  have hone : ((1 : BitVec w.bits).setWidth 32) = 1 := by cases w <;> rfl
  rw [hset]
  apply lazyDec_setsTo hr hf _ _ hun
  · have hz := setWidth_beq (x := a) (y := 1)
    rw [hone, ← hlow] at hz
    rw [← hf.zf, masked_eq_zero, ← hz, Bool.eq_iff_iff, beq_iff_eq, beq_iff_eq, BitVec.sub_eq_iff_eq_add]
    exact Eq.congr_right (BitVec.zero_add _)
  · have hhalf := bits_half w
    have hback : a.setWidth 32 - 1 + 1#32 = a.setWidth 32 := BitVec.sub_add_cancel _ _
    dsimp only
    rw [Flags.dec_of (one_lt_bits w), Bool.eq_iff_iff, beq_iff_eq, decide_eq_true_iff, hback, ← BitVec.toNat_inj,
      setWidth_toNat, signBit_toNat]
    omega

theorem ofBool_low (w : OpWidth) (c : Bool) : w.low (ofBool c) = Flags.carry w.bits c := by cases w <;> cases c <;> rfl

theorem ofBool_toNat (c : Bool) : (ofBool c).toNat = c.toNat := by cases c <;> rfl

/-- The second source and the carry are added in 32 bits. -/
theorem addend_toNat (b : BitVec w.bits) (c : Bool) :
    (b.setWidth 32 + ofBool c).toNat = (b.toNat + c.toNat) % 2 ^ 32 := by
  rw [BitVec.toNat_add, setWidth_toNat, ofBool_toNat]

theorem adc_setsTo (hr : Records s .adc w (a.setWidth 32 + (b.setWidth 32 + ofBool c)) (b.setWidth 32 + ofBool c)
    (b.setWidth 32)) :
    SetsTo (lazySetccInternal s dest.reg cc) dest.reg (cc.value (.ofAdd a b c)
      ((Flags.ofAdd a b c).cf || (Flags.ofAdd a b c).zf) ((Flags.ofAdd a b c).of ^^ (Flags.ofAdd a b c).sf)
      (dest.lessEq (.ofAdd a b c))) := by
  have hlow : w.low (a.setWidth 32 + (b.setWidth 32 + ofBool c)) = a + b + Flags.carry w.bits c := by
    rw [low_add, low_add, low_setWidth, low_setWidth, ofBool_low, BitVec.add_assoc]
  have hf : ResultFlags w (a.setWidth 32 + (b.setWidth 32 + ofBool c)) (.ofAdd a b c) := resultFlags hlow rfl rfl
  apply setcc_setsTo hr (by decide) (by decide) hf
  intro hun
  have hset : lazySetccInternal s dest.reg cc = lazyAdc s dest.reg cc := by simp [lazySetccInternal, hun, hr.op]
  rw [hset]
  apply lazyAdc_setsTo hr hf _ _ hun
  · rw [BitVec.add_sub_cancel, setWidth_sign, setWidth_sign, ← hf.sf, OpWidth.sign, hlow, Flags.add_of (bits_pos w),
      Bool.and_comm]
  · have hcases := Flags.add_cases (bits_pos w) a b c
    have ha := a.isLt
    have hb := b.isLt
    have hc := Bool.toNat_le c
    have hle := Nat.pow_le_pow_right (by decide : 0 < 2) (bits_le w)
    rw [Flags.add_cf (bits_pos w), Bool.eq_iff_iff, Bool.or_eq_true, decide_eq_true_iff, BitVec.ult_iff_lt,
      BitVec.ult_iff_lt, BitVec.lt_def, BitVec.lt_def, addend_toNat, setWidth_toNat, OpWidth.masked, hlow,
      setWidth_toNat]
    omega

theorem sbb_setsTo (hr : Records s .sbb w (a.setWidth 32 - (b.setWidth 32 + ofBool c)) (a.setWidth 32)
    (b.setWidth 32)) :
    SetsTo (lazySetccInternal s dest.reg cc) dest.reg (cc.value (.ofSub a b c)
      (if dest.reg = .s0 then a.setWidth 32 - (b.setWidth 32 + ofBool c) == 0#32
        else (Flags.ofSub a b c).cf || a.setWidth 32 - (b.setWidth 32 + ofBool c) == 0#32)
      ((Flags.ofSub a b c).of ^^ (Flags.ofSub a b c).sf) (dest.lessEq (.ofSub a b c))) := by
  have hlow : w.low (a.setWidth 32 - (b.setWidth 32 + ofBool c)) = a - b - Flags.carry w.bits c := by
    rw [low_sub, low_add, low_setWidth, low_setWidth, ofBool_low, BitVec.sub_sub]
  have hf : ResultFlags w (a.setWidth 32 - (b.setWidth 32 + ofBool c)) (.ofSub a b c) := resultFlags hlow rfl rfl
  apply setcc_setsTo hr (by decide) (by decide) hf
  intro hun
  have hset : lazySetccInternal s dest.reg cc = lazySbb s dest.reg cc := by simp [lazySetccInternal, hun, hr.op]
  rw [hset]
  apply lazySbb_setsTo hr hf _ _ hun
  · rw [setWidth_sign, setWidth_sign, ← hf.sf, OpWidth.sign, hlow, Flags.sub_of (bits_pos w)]
  · have ha := a.isLt
    have hb := b.isLt
    have hc := Bool.toNat_le c
    have hle := Nat.pow_le_pow_right (by decide : 0 < 2) (bits_le w)
    have hback : a.setWidth 32 - (a.setWidth 32 - (b.setWidth 32 + ofBool c)) = b.setWidth 32 + ofBool c := by
      rw [BitVec.sub_eq_iff_eq_add, BitVec.add_comm, BitVec.sub_add_cancel]
    rw [hback, Flags.sub_cf (bits_pos w), Bool.eq_iff_iff, Bool.or_eq_true, decide_eq_true_iff, BitVec.ult_iff_lt,
      BitVec.ult_iff_lt, BitVec.lt_def, BitVec.lt_def, BitVec.toNat_sub, addend_toNat, setWidth_toNat, setWidth_toNat]
    omega

theorem logic_setsTo {r : BitVec w.bits} (hr : Records s .logic w (r.setWidth 32) x y) :
    SetsTo (lazySetccInternal s dest.reg cc) dest.reg (cc ≠ .P && cc ≠ .NP && cc.holds (.ofLogic r)) := by
  have hlow := low_setWidth r
  have hf : ResultFlags w (r.setWidth 32) (.ofLogic r) := resultFlags hlow rfl rfl
  have hz := setWidth_eq_zero r
  rcases hun : (cc2relop cc).1 with _ | _
  · have hset : lazySetccInternal s dest.reg cc = some (lazyLogic s dest.reg cc) := by
      simp [lazySetccInternal, hun, hr.op]
    rw [hset, setsTo_some]
    exact lazyLogic_setsTo hr (dest_ne_rz dest) (congrArg (· == 0) hlow) hz hf.sf rfl rfl hun
  · have hvalue : (cc ≠ .P && cc ≠ .NP && cc.holds (.ofLogic r)) = cc.holds (.ofLogic r) := by
      cases cc <;> first | rfl | cases hun
    rw [hvalue]
    exact setcc_unary hr (by decide) hf (fun _ => hz) hun

end Operands

section Exactness

/-- The exact signed result of an arithmetic instruction. -/
def ArithInstr.exactValue {n : Nat} (a b : BitVec n) (c : Bool) : ArithInstr → Int
  | .add | .xadd => a.toInt + b.toInt
  | .sub | .cmp => a.toInt - b.toInt
  | .inc => a.toInt + 1
  | .dec => a.toInt - 1
  | .neg => -a.toInt
  | .adc => a.toInt + b.toInt + c.toInt
  | .sbb => a.toInt - b.toInt - c.toInt
  | .and | .test => (a &&& b).toInt
  | .or => (a ||| b).toInt
  | .xor => (a ^^^ b).toInt

/-- When the formulas for `BE` are right: `sbb` loses the carry where the result goes to `s0`. -/
def ArithInstr.BelowEqExact {n : Nat} (a b : BitVec n) (c : Bool) (dest : SetccDest) : ArithInstr → Prop
  | .sbb => dest.reg = .s0 → b.toNat + c.toNat ≤ a.toNat ∨ b.toNat + c.toNat = a.toNat + 2 ^ 32
  | _ => True

/-- When the formulas for `L` are right: narrow operands are compared as they are, without their sign, and
a sum is compared with its second operand. -/
def ArithInstr.LessExact {n : Nat} (a b : BitVec n) : ArithInstr → Prop
  | .add | .xadd =>
    if n < 32 then a.msb = b.msb
    else -(2 ^ n : Nat) ≤ 2 * (a.toInt + b.toInt) ∧ 2 * (a.toInt + b.toInt) < (2 ^ n : Nat) ∧
      (a.toInt < 0 ↔ a.toInt + b.toInt < 0)
  | .sub | .cmp => n < 32 → a.msb = b.msb
  | _ => True

/-- When the formulas for `LE` are right: a sum or a difference has lost the sign of its result where that
goes to `s0`. -/
def ArithInstr.LessEqExact {n : Nat} (a b : BitVec n) (c : Bool) (dest : SetccDest) : ArithInstr → Prop
  | .sub | .cmp => n < 32 → a.msb = b.msb
  | .and | .or | .xor | .test => True
  | i => dest.reg = .s0 → 0 ≤ i.exactValue a b c ∨ i.exactValue a b c = -(2 ^ n : Nat)

/-- After a logic instruction the parity is not looked at. -/
def ArithInstr.ParityExact {n : Nat} (a b : BitVec n) (parity : Bool) : ArithInstr → Prop
  | .and | .test => Flags.evenParity (a &&& b) = parity
  | .or => Flags.evenParity (a ||| b) = parity
  | .xor => Flags.evenParity (a ^^^ b) = parity
  | _ => True

/-- When the formulas are right, from the instruction, its operands, the carry before it, the destination and
the condition. -/
def SetccExact {n : Nat} (i : ArithInstr) (a b : BitVec n) (c : Bool) (dest : SetccDest) : CondCode → Prop
  | .BE | .NBE => i.BelowEqExact a b c dest
  | .L | .NL => i.LessExact a b
  | .LE | .NLE => i.LessEqExact a b c dest
  | .P => i.ParityExact a b false
  | .NP => i.ParityExact a b true
  | _ => True

variable {w : OpWidth} {a b : BitVec w.bits} {c be l le : Bool} {f : Flags} {dest : SetccDest} {cc : CondCode}
  {i : ArithInstr}

theorem value_eq_holds (hbe : be = (f.cf || f.zf) ↔ i.BelowEqExact a b c dest)
    (hl : l = (f.sf ^^ f.of) ↔ i.LessExact a b)
    (hle : le = ((f.sf ^^ f.of) || f.zf) ↔ i.LessEqExact a b c dest) (hp : ∀ p, i.ParityExact a b p) :
    cc.value f be l le = cc.holds f ↔ SetccExact i a b c dest cc := by
  have hneg : ∀ x y : Bool, (!x) = (!y) ↔ x = y := by decide
  cases cc <;> dsimp only [CondCode.value, CondCode.holds, SetccExact]
  case BE => exact hbe
  case NBE => exact (hneg _ _).trans hbe
  case L => exact hl
  case NL => exact (hneg _ _).trans hl
  case LE => exact hle
  case NLE => exact (hneg _ _).trans hle
  case P => exact iff_of_true rfl (hp _)
  case NP => exact iff_of_true rfl (hp _)
  all_goals exact iff_of_true rfl trivial

/-- The result that has lost the sign is right where the sign does not count. -/
theorem lessEq_iff {v : Int} {n : Nat} (hless : (f.sf ^^ f.of) = decide (v < 0))
    (hz : v < 0 → (f.zf = true ↔ v = -(2 ^ n : Nat))) :
    dest.lessEq f = ((f.sf ^^ f.of) || f.zf) ↔ (dest.reg = .s0 → 0 ≤ v ∨ v = -(2 ^ n : Nat)) := by
  unfold SetccDest.lessEq
  rw [Bool.xor_comm f.of, hless]
  by_cases hdest : dest.reg = .s0
  · rw [if_pos hdest, forall_prop_of_true hdest]
    rcases Int.lt_or_le v 0 with hv | hv
    · rw [decide_eq_true hv, Bool.true_or, hz hv]
      exact ⟨.inr, fun h => h.resolve_left (Int.not_le.mpr hv)⟩
    · rw [decide_eq_false (Int.not_lt.mpr hv), Bool.false_or]
      exact iff_of_true rfl (.inl hv)
  · rw [if_neg hdest]
    exact iff_of_true rfl fun h => absurd h hdest

/-- Operands that are narrower than a word are compared without their sign. -/
theorem slt_narrow (hw : w.bits < 32) {x y : BitVec w.bits} :
    (x.setWidth 32).slt (y.setWidth 32) = decide (x.toNat < y.toNat) := by
  have hsigned : ∀ z : BitVec w.bits, (z.setWidth 32).toInt = z.toNat := by
    intro z
    have hpow := Nat.pow_le_pow_right (by decide : 0 < 2) (by omega : w.bits + 1 ≤ 32)
    have hz := z.isLt
    rw [BitVec.toInt_eq_toNat_of_lt, setWidth_toNat]
    rw [setWidth_toNat]
    omega
  unfold BitVec.slt
  rw [hsigned, hsigned, decide_eq_decide, Int.ofNat_lt]

theorem slt_word (hw : ¬ w.bits < 32) {x y : BitVec w.bits} :
    (x.setWidth 32).slt (y.setWidth 32) = decide (x.toInt < y.toInt) := by
  have hsigned : ∀ z : BitVec w.bits, (z.setWidth 32).toInt = z.toInt := by
    cases w
    · exact absurd (by decide) hw
    · exact absurd (by decide) hw
    · exact fun z => congrArg BitVec.toInt (BitVec.setWidth_eq z)
  unfold BitVec.slt
  rw [hsigned, hsigned]

theorem carry_false : (false : Bool).toInt = 0 := rfl

theorem add_less_iff : ((a + b).setWidth 32).slt (b.setWidth 32) =
    ((Flags.ofAdd a b false).sf ^^ (Flags.ofAdd a b false).of) ↔
    ArithInstr.add.LessExact a b := by
  have hcases := Flags.add_cases (bits_pos w) a b false
  have ha := a.isLt
  have hb := b.isLt
  have hr := (a + b).isLt
  rw [sum_carry, Bool.toNat_false, Nat.add_zero] at hcases
  rw [Flags.add_less (bits_pos w), carry_false, Int.add_zero]
  unfold ArithInstr.LessExact
  generalize a + b = r at hcases hr ⊢
  by_cases hw : w.bits < 32
  · rw [if_pos hw, slt_narrow hw, decide_eq_decide]
    rcases Flags.toInt_cases a with ⟨hs, ha, ha'⟩ | ⟨hs, ha, ha'⟩ <;>
      rcases Flags.toInt_cases b with ⟨ht, hb, hb'⟩ | ⟨ht, hb, hb'⟩ <;> rw [hs, ht] <;> simp <;> omega
  · rw [if_neg hw, slt_word hw, decide_eq_decide]
    rcases Flags.toInt_cases a with ⟨hs, ha, ha'⟩ | ⟨hs, ha, ha'⟩ <;>
      rcases Flags.toInt_cases b with ⟨ht, hb, hb'⟩ | ⟨ht, hb, hb'⟩ <;>
      rcases Flags.toInt_cases r with ⟨hm, hr, hr'⟩ | ⟨hm, hr, hr'⟩ <;> omega

theorem sub_less_iff : (a.setWidth 32).slt (b.setWidth 32) =
    ((Flags.ofSub a b false).sf ^^ (Flags.ofSub a b false).of) ↔
    ArithInstr.sub.LessExact a b := by
  rw [Flags.sub_less (bits_pos w), carry_false, Int.add_zero]
  unfold ArithInstr.LessExact
  by_cases hw : w.bits < 32
  · have ha := a.isLt
    have hb := b.isLt
    rw [forall_prop_of_true hw, slt_narrow hw, decide_eq_decide]
    rcases Flags.toInt_cases a with ⟨hs, ha, ha'⟩ | ⟨hs, ha, ha'⟩ <;>
      rcases Flags.toInt_cases b with ⟨ht, hb, hb'⟩ | ⟨ht, hb, hb'⟩ <;> rw [hs, ht] <;> simp <;> omega
  · rw [slt_word hw]
    exact iff_of_true rfl fun h => absurd h hw

theorem sub_lessEq_iff : (a.setWidth 32).sle (b.setWidth 32) =
    (((Flags.ofSub a b false).sf ^^ (Flags.ofSub a b false).of) || (Flags.ofSub a b false).zf) ↔
      ArithInstr.sub.LessEqExact a b c dest := by
  have hor : (a.setWidth 32).sle (b.setWidth 32) =
    ((a.setWidth 32).slt (b.setWidth 32) || a.setWidth 32 == b.setWidth 32) := by
    rw [Bool.eq_iff_iff, Bool.or_eq_true, beq_iff_eq, BitVec.sle_iff_toInt_le, BitVec.slt_iff_toInt_lt,
      Int.le_iff_lt_or_eq, BitVec.toInt_inj]
  rw [hor, setWidth_zf]
  refine Iff.trans ?_ sub_less_iff
  constructor
  · intro h
    rcases hzf : (Flags.ofSub a b false).zf with _ | _
    · rwa [hzf, Bool.or_false, Bool.or_false] at h
    · -- equal operands: neither side of the comparison is less
      have heq : a.setWidth 32 = b.setWidth 32 := beq_iff_eq.mp (setWidth_zf.trans hzf)
      have hab : a = b := setWidth_inj.mp heq
      rw [Flags.sub_less (bits_pos w), carry_false, Int.add_zero, hab]
      exact (decide_eq_false (Int.lt_irrefl _)).trans (decide_eq_false (Int.lt_irrefl _)).symm
  · intro h
    rw [h]

theorem sbb_belowEq_iff : (if dest.reg = .s0 then a.setWidth 32 - (b.setWidth 32 + ofBool c) == 0#32
    else (Flags.ofSub a b c).cf || a.setWidth 32 - (b.setWidth 32 + ofBool c) == 0#32) =
      ((Flags.ofSub a b c).cf || (Flags.ofSub a b c).zf) ↔ ArithInstr.sbb.BelowEqExact a b c dest := by
  have ha := a.isLt
  have hb := b.isLt
  have hc := Bool.toNat_le c
  have hle := Nat.pow_le_pow_right (by decide : 0 < 2) (bits_le w)
  have hcases := Flags.sub_cases (bits_pos w) a b c
  have hzero : (a.setWidth 32 - (b.setWidth 32 + ofBool c) == 0#32) =
    decide (a.toNat = (b.toNat + c.toNat) % 2 ^ 32) := by
    rw [Bool.eq_iff_iff, beq_iff_eq, decide_eq_true_iff, BitVec.sub_eq_iff_eq_add, ← BitVec.toNat_inj, BitVec.zero_add,
      setWidth_toNat, addend_toNat]
  have hz : (Flags.ofSub a b c).zf = decide ((a - b - Flags.carry w.bits c).toNat = 0) := by
    rw [Bool.eq_iff_iff, decide_eq_true_iff]
    exact beq_iff_eq.trans BitVec.toNat_inj.symm
  rw [hzero, hz, Flags.sub_cf (bits_pos w)]
  unfold ArithInstr.BelowEqExact
  by_cases hdest : dest.reg = .s0
  · rw [if_pos hdest, forall_prop_of_true hdest, Bool.eq_iff_iff, Bool.or_eq_true, decide_eq_true_iff,
      decide_eq_true_iff, decide_eq_true_iff]
    omega
  · rw [if_neg hdest, Bool.eq_iff_iff, Bool.or_eq_true, Bool.or_eq_true, decide_eq_true_iff, decide_eq_true_iff,
      decide_eq_true_iff]
    refine iff_of_true ?_ fun h => absurd h hdest
    omega

theorem add_lessEq_iff {i : ArithInstr} {a b : BitVec w.bits}
    (hv : i.exactValue a b' c = a.toInt + b.toInt + c'.toInt) :
    dest.lessEq (.ofAdd a b c') = (((Flags.ofAdd a b c').sf ^^ (Flags.ofAdd a b c').of) || (Flags.ofAdd a b c').zf) ↔
      (dest.reg = .s0 → 0 ≤ i.exactValue a b' c ∨ i.exactValue a b' c = -(2 ^ w.bits : Nat)) := by
  rw [hv]
  exact lessEq_iff (Flags.add_less (bits_pos w)) (Flags.add_zero_iff (bits_pos w))

theorem sub_lost_iff {i : ArithInstr} {x y : BitVec w.bits} (hv : i.exactValue a b c = x.toInt - y.toInt - c'.toInt) :
    dest.lessEq (.ofSub x y c') = (((Flags.ofSub x y c').sf ^^ (Flags.ofSub x y c').of) || (Flags.ofSub x y c').zf) ↔
      (dest.reg = .s0 → 0 ≤ i.exactValue a b c ∨ i.exactValue a b c = -(2 ^ w.bits : Nat)) := by
  rw [hv]
  apply lessEq_iff
  · rw [Flags.sub_less (bits_pos w), decide_eq_decide]
    omega
  · intro h
    exact Flags.sub_zero_iff (bits_pos w) (by omega)

theorem sub_belowEq : (a.setWidth 32).ule (b.setWidth 32) = ((Flags.ofSub a b false).cf || (Flags.ofSub a b false).zf) := by
  rw [Flags.sub_cf (bits_pos w), ← setWidth_zf, Bool.eq_iff_iff, Bool.or_eq_true, beq_iff_eq, decide_eq_true_iff,
    BitVec.ule_iff_le, BitVec.le_def, setWidth_toNat, setWidth_toNat, setWidth_inj, ← BitVec.toNat_inj]
  exact Nat.le_iff_lt_or_eq

theorem neg_belowEq : true = ((Flags.ofSub 0 a false).cf || (Flags.ofSub 0 a false).zf) := by
  symm
  rw [Flags.sub_cf (bits_pos w), neg_zf, Bool.or_eq_true, beq_iff_eq, decide_eq_true_iff, ← BitVec.toNat_inj]
  exact (Nat.eq_zero_or_pos a.toNat).symm

theorem logic_exact {r : BitVec w.bits} (hp : ∀ p, i.ParityExact a b p ↔ Flags.evenParity r = p)
    (hbe : i.BelowEqExact a b c dest) (hl : i.LessExact a b) (hle : i.LessEqExact a b c dest) :
    (cc ≠ .P && cc ≠ .NP && cc.holds (.ofLogic r)) = cc.holds (.ofLogic r) ↔ SetccExact i a b c dest cc := by
  have hnot : ∀ parity : Bool, false = !parity ↔ parity = true := by decide
  cases cc <;> dsimp only [SetccExact]
  case P => exact Iff.trans eq_comm (hp false).symm
  case NP => exact (hnot (Flags.evenParity r)).trans (hp true).symm
  case BE | NBE => exact iff_of_true rfl hbe
  case L | NL => exact iff_of_true rfl hl
  case LE | NLE => exact iff_of_true rfl hle
  all_goals exact iff_of_true rfl trivial

theorem recorded_exact {t : RtlState} {x y : BitVec 32}
    (hr : Records t i.recordedOp w (i.recordedDest (a.setWidth 32) (b.setWidth 32) c)
      ((i.recordedSrc1 (a.setWidth 32) (b.setWidth 32) c).getD x) ((i.recordedSrc2 (b.setWidth 32)).getD y)) :
    ∃ v, SetsTo (lazySetccInternal t dest.reg cc) dest.reg v ∧
      (v = cc.holds (i.eagerFlags a b c) ↔ SetccExact i a b c dest cc) := by
  have hone : (1#w.bits).toInt = 1 := by cases w <;> rfl
  have hle : (a.setWidth 32).sle (b.setWidth 32) =
      (((Flags.ofSub a b false).sf ^^ (Flags.ofSub a b false).of) || (Flags.ofSub a b false).zf) ↔
        ArithInstr.sub.LessEqExact a b c dest := sub_lessEq_iff
  cases i
  case add | xadd =>
    refine ⟨_, add_setsTo hr, value_eq_holds ?_ ?_ ?_ fun _ => trivial⟩
    · exact iff_of_true (Bool.or_comm _ _) trivial
    · exact add_less_iff
    · exact add_lessEq_iff (by simp [ArithInstr.exactValue])
  case sub | cmp =>
    refine ⟨_, sub_setsTo hr, value_eq_holds ?_ ?_ ?_ fun _ => trivial⟩
    · exact iff_of_true sub_belowEq trivial
    · exact sub_less_iff
    · exact hle
  case inc =>
    refine ⟨_, inc_setsTo hr, value_eq_holds (iff_of_true rfl trivial) ?_ ?_ fun _ => trivial⟩
    · exact iff_of_true (Bool.xor_comm _ _) trivial
    · exact add_lessEq_iff (by simp [ArithInstr.exactValue, hone])
  case dec =>
    refine ⟨_, dec_setsTo hr, value_eq_holds (iff_of_true rfl trivial) ?_ ?_ fun _ => trivial⟩
    · exact iff_of_true (Bool.xor_comm _ _) trivial
    · exact sub_lost_iff (by simp [ArithInstr.exactValue, hone])
  case neg =>
    refine ⟨_, neg_setsTo hr, value_eq_holds ?_ ?_ ?_ fun _ => trivial⟩
    · exact iff_of_true neg_belowEq trivial
    · exact iff_of_true (Bool.xor_comm _ _) trivial
    · exact sub_lost_iff (by simp [ArithInstr.exactValue])
  case adc =>
    refine ⟨_, adc_setsTo hr, value_eq_holds ?_ ?_ ?_ fun _ => trivial⟩
    · exact iff_of_true rfl trivial
    · exact iff_of_true (Bool.xor_comm _ _) trivial
    · exact add_lessEq_iff rfl
  case sbb =>
    refine ⟨_, sbb_setsTo hr, value_eq_holds ?_ ?_ ?_ fun _ => trivial⟩
    · exact sbb_belowEq_iff
    · exact iff_of_true (Bool.xor_comm _ _) trivial
    · exact sub_lost_iff rfl
  case and | test =>
    have hd : a.setWidth 32 &&& b.setWidth 32 = (a &&& b).setWidth 32 := BitVec.setWidth_and.symm
    rw [ArithInstr.recordedDest, hd] at hr
    exact ⟨_, logic_setsTo hr, logic_exact (fun _ => Iff.rfl) trivial trivial trivial⟩
  case or =>
    have hd : a.setWidth 32 ||| b.setWidth 32 = (a ||| b).setWidth 32 := BitVec.setWidth_or.symm
    rw [ArithInstr.recordedDest, hd] at hr
    exact ⟨_, logic_setsTo hr, logic_exact (fun _ => Iff.rfl) trivial trivial trivial⟩
  case xor =>
    have hd : a.setWidth 32 ^^^ b.setWidth 32 = (a ^^^ b).setWidth 32 := BitVec.setWidth_xor.symm
    rw [ArithInstr.recordedDest, hd] at hr
    exact ⟨_, logic_setsTo hr, logic_exact (fun _ => Iff.rfl) trivial trivial trivial⟩

/-- The carry that the next `adc` or `sbb` reads is the carry flag. -/
theorem carryIn_eager {s t u : RtlState} {j k : Nat} (ha : s.get (.operand j) = a.setWidth 32)
    (hb : s.get (.operand k) = b.setWidth 32) (hexec : exec s (.operand j) (.operand k) w i = some t)
    (hset : lazySetccInternal t .s0 .B = some u) : t.carryIn = (i.eagerFlags a b s.carryIn).cf := by
  obtain ⟨v, hv, hexact⟩ : ∃ v, SetsTo (lazySetccInternal t SetccDest.s0.reg .B) SetccDest.s0.reg v ∧
      (v = CondCode.B.holds (i.eagerFlags a b s.carryIn) ↔ SetccExact i a b s.carryIn .s0 .B) :=
    recorded_exact (exec_records ha hb hexec)
  have hget : u.get .s0 = ofBool v := hv u hset
  rw [(carryIn_eq hset).1, ofBool_inj] at hget
  rw [hget]
  exact hexact.mpr trivial

/-- After any arithmetic instruction, on operands of its width, a condition that does not panic is set as the
flags have it exactly when the formula for it is right. -/
theorem setcc_eager_iff {s t u : RtlState} {j k : Nat} (ha : s.get (.operand j) = a.setWidth 32)
    (hb : s.get (.operand k) = b.setWidth 32) (hexec : exec s (.operand j) (.operand k) w i = some t)
    (hset : lazySetccInternal t dest.reg cc = some u) :
    u.get dest.reg = ofBool (cc.holds (i.eagerFlags a b s.carryIn)) ↔ SetccExact i a b s.carryIn dest cc := by
  obtain ⟨v, hv, hexact⟩ := recorded_exact (exec_records ha hb hexec)
  rw [hv u hset, ofBool_inj]
  exact hexact

/-- Operands to add whose sum is negative and not less than the second one. -/
def addOperands : RtlState :=
  ⟨fun r => if r = .operand 0 then 1 else if r = .operand 1 then 0xfffffffe else 0, .logic, .w4⟩

/-- 1 is not less than -2, and the sum of the two is not zero. -/
theorem setcc_eager_compare :
    (∃ t u, exec addOperands (.operand 0) (.operand 1) .w4 .cmp = some t ∧ lazySetccInternal t .s2 .L = some u ∧
      u.get .s2 = ofBool (CondCode.holds (ArithInstr.eagerFlags 1#32 0xfffffffe#32 addOperands.carryIn .cmp) .L) ∧
      u.get .s2 = 0) ∧
    ∃ t u, exec addOperands (.operand 0) (.operand 1) .w4 .add = some t ∧ lazySetccInternal t .s2 .NE = some u ∧
      u.get .s2 = ofBool (CondCode.holds (ArithInstr.eagerFlags 1#32 0xfffffffe#32 addOperands.carryIn .add) .NE) ∧
      u.get .s2 = 1 := by
  obtain ⟨t, u, hexec, hset, hval⟩ : ∃ t u, exec addOperands (.operand 0) (.operand 1) .w4 .cmp = some t ∧
      lazySetccInternal t SetccDest.s2.reg .L = some u ∧ u.get .s2 = 0 := ⟨_, _, rfl, rfl, rfl⟩
  obtain ⟨t', u', hexec', hset', hval'⟩ : ∃ t u, exec addOperands (.operand 0) (.operand 1) .w4 .add = some t ∧
      lazySetccInternal t SetccDest.s2.reg .NE = some u ∧ u.get .s2 = 1 := ⟨_, _, rfl, rfl, rfl⟩
  refine ⟨⟨t, u, hexec, hset, ?_, hval⟩, t', u', hexec', hset', ?_, hval'⟩
  · exact (setcc_eager_iff (by decide) (by decide) hexec hset).mpr fun h => absurd h (Nat.lt_irrefl 32)
  · exact (setcc_eager_iff (by decide) (by decide) hexec' hset').mpr trivial

/-- The sum is less than zero, which the code does not see. -/
theorem setcc_less_wrong : ∃ t u, exec addOperands (.operand 0) (.operand 1) .w4 .add = some t ∧
    lazySetccInternal t .s2 .L = some u ∧
      u.get .s2 ≠ ofBool (CondCode.holds (ArithInstr.eagerFlags 1#32 0xfffffffe#32 addOperands.carryIn .add) .L) :=
  ⟨_, _, rfl, rfl, by decide⟩

end Exactness

end Nemu.X86
