import Nemu.Vcompute

namespace Nemu

open Effect WideArith

set_option autoImplicit true

/-- The instructions that write carries or borrows. -/
inductive CarryOp where
  | madc | msbc

def CarryOp.executor : CarryOp → Arthi
  | madc => .vmadc
  | msbc => .vmsbc

theorem CarryOp.all_modes (o : CarryOp) {mode : SrcVmode} : o.executor.unsupported ≠ some mode := by
  cases o <;> exact (Option.some_ne_none mode).symm

/-- The carry or borrow of unsigned numbers. -/
def CarryOp.out (o : CarryOp) (x y : BitVec w) (cin : Bool) : Bool :=
  match o with
  | madc => decide (2 ^ w ≤ x.toNat + y.toNat + cin.toNat)
  | msbc => decide (x.toNat < y.toNat + cin.toNat)

/-- What the executor writes, from the signed values of the operands and the mask bit. `none` where the
sum or difference does not fit `int64_t`. -/
def CarryOp.computed (o : CarryOp) (a b mask : Int) : Option Bool :=
  match o with
  | madc =>
    if a + b < -2 ^ 63 ∨ 2 ^ 63 ≤ a + b then none
    else if 0 ≤ b ∧ 0 ≤ a then some (decide (2 ^ 63 ≤ a + b + mask)) else some (decide (0 ≤ a + b + mask))
  | msbc =>
    if a - b < -2 ^ 63 ∨ 2 ^ 63 ≤ a - b then none
    else if 0 ≤ a ∧ 0 ≤ b then some (decide (a - b - mask < 0))
    else some (decide (0 ≤ a - b - mask ∨ a - b - mask < -2 ^ 63))

/-- The condition on the signed values `a` of `vs2` and `b` of the other operand. The mask bit and the
carry differ where an unmasked instruction meets a mask bit that is set. -/
def CarryOp.Exact (o : CarryOp) (cin mask : Bool) (a b : Int) : Prop :=
  match o with
  | madc =>
    ¬ (a < 0 ∧ b < 0) ∧ (0 ≤ a ∧ 0 ≤ b → a + b + mask.toNat < 2 ^ 63) ∧ (cin ≠ mask → a + b ≠ -1)
  | msbc =>
    (0 ≤ a ∧ 0 ≤ b → cin ≠ mask → a ≠ b) ∧ (a < 0 ∧ b < 0 → cin ≠ mask ∧ a = b) ∧
      (a < 0 ∧ 0 ≤ b → -2 ^ 63 ≤ a - b - mask.toNat) ∧ (0 ≤ a ∧ b < 0 → a - b < 2 ^ 63)

instance (o : CarryOp) (cin mask : Bool) (a b : Int) : Decidable (o.Exact cin mask a b) :=
  match o with
  | .madc => inferInstanceAs (Decidable (_ ∧ _ ∧ _))
  | .msbc => inferInstanceAs (Decidable (_ ∧ _ ∧ _ ∧ _))

section Arithmetic

variable {w : Nat}

theorem signed_unsigned (hw : 0 < w) (hle : w ≤ 64) :
    ∃ half : Int, half ≤ 2 ^ 63 ∧ (2 : Int) ^ w = 2 * half ∧ ∀ x : BitVec w,
      -half ≤ x.toInt ∧ x.toInt < half ∧
        (x.toInt < 0 ∧ (x.toNat : Int) = x.toInt + 2 * half ∨ 0 ≤ x.toInt ∧ (x.toNat : Int) = x.toInt) := by
  obtain ⟨v, rfl⟩ := Nat.exists_eq_succ_of_ne_zero (Nat.ne_of_gt hw)
  have hpow : (2 : Int) ^ (v + 1) = 2 * 2 ^ v := by rw [Int.pow_succ, Int.mul_comm]
  have hcast : ((2 ^ (v + 1) : Nat) : Int) = 2 * 2 ^ v := by
    rw [← hpow]
    push_cast
    rfl
  refine ⟨2 ^ v, ?_, hpow, fun x => ?_⟩
  · exact_mod_cast Nat.pow_le_pow_right (by decide) (Nat.le_of_succ_le_succ hle)
  · have hlt := x.isLt
    rw [BitVec.toInt_eq_toNat_cond, hcast]
    split <;> omega

theorem computed_eq_iff (o : CarryOp) (hw : 0 < w) (hle : w ≤ 64) (x y : BitVec w) {cin mask : Bool}
    (hcin : cin = true → mask = true) :
    o.computed x.toInt y.toInt mask.toNat = some (o.out x y cin) ↔ o.Exact cin mask x.toInt y.toInt := by
  obtain ⟨half, hhalf, hpow, hread⟩ := signed_unsigned hw hle
  obtain ⟨hx1, hx2, hx⟩ := hread x
  obtain ⟨hy1, hy2, hy⟩ := hread y
  generalize x.toInt = a at *
  generalize y.toInt = b at *
  have hcarry : ∀ c : Nat, 2 ^ w ≤ x.toNat + y.toNat + c ↔ 2 * half ≤ (x.toNat : Int) + y.toNat + c := by
    intro c
    rw [← hpow]
    exact_mod_cast Iff.rfl
  -- the bits as numbers
  have hbits : (cin ≠ mask ↔ cin.toNat ≠ mask.toNat) ∧ cin.toNat ≤ mask.toNat ∧ mask.toNat ≤ 1 := by
    cases cin <;> cases mask <;> simp_all
  unfold CarryOp.computed CarryOp.out CarryOp.Exact
  rw [hbits.1]
  obtain ⟨-, hle, hone⟩ := hbits
  cases o with
  | madc =>
    dsimp only
    split
    · simp only [reduceCtorEq, false_iff]
      omega
    · split <;> simp only [Option.some.injEq, decide_eq_decide, hcarry] <;> omega
  | msbc =>
    dsimp only
    split
    · simp only [reduceCtorEq, false_iff]
      omega
    · split <;> simp only [Option.some.injEq, decide_eq_decide] <;> omega

end Arithmetic

section Rounds

variable {d : VDecode} {m : Machine} {u : VState} {vsew vlmul vlmax i : Nat} {vl : Word}

def bitWord (c : Bool) : Word := if c then 1 else 0

theorem flag_eq (p : Prop) [Decidable p] : flag p = bitWord (decide p) := by
  unfold flag bitWord
  by_cases h : p
  · rw [if_pos h, decide_eq_true h]
    rfl
  · rw [if_neg h, decide_eq_false h]
    rfl

theorem toInt_add_bit {z : Int} {x : Word} (hx : x.toInt = z) (hlow : -2 ^ 63 ≤ z) (hhigh : z < 2 ^ 63)
    (c : Bool) : (x + bitWord c).toInt = if z + c.toNat < 2 ^ 63 then z + c.toNat else -2 ^ 63 := by
  have hc : (bitWord c).toInt = c.toNat := by cases c <;> rfl
  have hbit : (c.toNat : Int) = 0 ∨ (c.toNat : Int) = 1 := by cases c <;> decide
  rw [BitVec.toInt_add, hx, hc, Int.bmod_def]
  omega

theorem toInt_sub_bit {z : Int} {x : Word} (hx : x.toInt = z) (hlow : -2 ^ 63 ≤ z) (hhigh : z < 2 ^ 63)
    (c : Bool) : (x - bitWord c).toInt = if -2 ^ 63 ≤ z - c.toNat then z - c.toNat else 2 ^ 63 - 1 := by
  have hc : (bitWord c).toInt = c.toNat := by cases c <;> rfl
  have hbit : (c.toNat : Int) = 0 ∨ (c.toNat : Int) = 1 := by cases c <;> decide
  rw [BitVec.toInt_sub, hx, hc, Int.bmod_def]
  omega

theorem vopValue_carry (o : CarryOp) (mask : Bool) (x y : Word) :
    vopValue o.executor d vsew vlmul vlmax i vl (bitWord mask) x y =
      (o.computed x.toInt y.toInt mask.toNat).elim (throw .undefined) fun c => pure (bitWord c) := by
  have hx := BitVec.toInt_lt (x := x)
  have hx' := BitVec.le_toInt x
  have hy := BitVec.toInt_lt (x := y)
  have hy' := BitVec.le_toInt y
  have hbit : (mask.toNat : Int) = 0 ∨ (mask.toNat : Int) = 1 := by cases mask <;> decide
  cases o with
  | madc =>
    have hcode : vopValue .vmadc d vsew vlmul vlmax i vl (bitWord mask) x y =
        (int64Add x y (bitWord mask) >>= fun tmp =>
          if 0 ≤ y.toInt ∧ 0 ≤ x.toInt then pure (flag (tmp.toInt < 0)) else pure (flag (0 ≤ tmp.toInt))) := rfl
    rw [CarryOp.executor, hcode]
    unfold int64Add CarryOp.computed
    by_cases hover : x.saddOverflow y = true
    · have hout : x.toInt + y.toInt < -2 ^ 63 ∨ 2 ^ 63 ≤ x.toInt + y.toInt := by
        simpa [BitVec.saddOverflow, or_comm] using hover
      rw [if_pos hover, if_pos hout]
      rfl
    · have hfit : ¬ (x.toInt + y.toInt < -2 ^ 63 ∨ 2 ^ 63 ≤ x.toInt + y.toInt) := by
        simpa [BitVec.saddOverflow, or_comm] using hover
      have hsum := toInt_add_bit (BitVec.toInt_add_of_not_saddOverflow hover) (by omega) (by omega) mask
      rw [if_neg hover, if_neg hfit, pure_bind, hsum]
      split
      · rw [flag_eq]
        refine congrArg (fun c => pure (bitWord c)) (decide_eq_decide.mpr ?_)
        omega
      · rw [flag_eq]
        refine congrArg (fun c => pure (bitWord c)) (decide_eq_decide.mpr ?_)
        omega
  | msbc =>
    have hcode : vopValue .vmsbc d vsew vlmul vlmax i vl (bitWord mask) x y =
        (int64Sub x y (bitWord mask) >>= fun tmp =>
          if 0 ≤ x.toInt ∧ 0 ≤ y.toInt then pure (flag (tmp.toInt < 0)) else pure (flag (0 ≤ tmp.toInt))) := rfl
    rw [CarryOp.executor, hcode]
    unfold int64Sub CarryOp.computed
    by_cases hover : x.ssubOverflow y = true
    · have hout : x.toInt - y.toInt < -2 ^ 63 ∨ 2 ^ 63 ≤ x.toInt - y.toInt := by
        simpa [BitVec.ssubOverflow, or_comm] using hover
      rw [if_pos hover, if_pos hout]
      rfl
    · have hfit : ¬ (x.toInt - y.toInt < -2 ^ 63 ∨ 2 ^ 63 ≤ x.toInt - y.toInt) := by
        simpa [BitVec.ssubOverflow, or_comm] using hover
      have hdiff := toInt_sub_bit (BitVec.toInt_sub_of_not_ssubOverflow hover) (by omega) (by omega) mask
      rw [if_neg hover, if_neg hfit, pure_bind, hdiff]
      split
      · rw [flag_eq]
        refine congrArg (fun c => pure (bitWord c)) (decide_eq_decide.mpr ?_)
        omega
      · rw [flag_eq]
        refine congrArg (fun c => pure (bitWord c)) (decide_eq_decide.mpr ?_)
        omega

/-- What the V extension asks of the operands: the sources are register groups, and the destination
lies in one only as its first register. -/
structure CarryLegal (m : Machine) (d : VDecode) : Prop where
  configured : Configured m
  src2 : m.vlmul ≤ 3 → Aligned m.vlmul d.src2
  src1 : m.vlmul ≤ 3 → d.srcVmode = .vv → Aligned m.vlmul d.src1
  overlap2 : d.dest.toNat ≤ d.src2.toNat ∨ d.src2.toNat + 2 ^ m.vlmul ≤ d.dest.toNat
  overlap1 : d.srcVmode = .vv → d.dest.toNat ≤ d.src1.toNat ∨ d.src1.toNat + 2 ^ m.vlmul ≤ d.dest.toNat

/-- The carry or borrow into element `i`. -/
def Machine.carryIn (m : Machine) (d : VDecode) (i : Nat) : Bool := !d.vm && m.maskBit 0 i

/-- The mask bit that is written for element `i`. -/
def CarryOp.spec (o : CarryOp) (m : Machine) (d : VDecode) (i : Nat) : BitVec 1 :=
  BitVec.ofBool (o.out (m.elem m.vsew d.src2 i) (m.src d true i) (m.carryIn d i))

/-- The bit that a round computes. -/
def CarryOp.bit (o : CarryOp) (m : Machine) (d : VDecode) (i : Nat) : Option (BitVec 1) :=
  (o.computed (m.elem m.vsew d.src2 i).toInt (m.src d true i).toInt (m.maskBit 0 i).toNat).map BitVec.ofBool

theorem CarryOp.bit_eq_iff (o : CarryOp) (hsew : m.vsew ≤ 3) :
    o.bit m d i = some (o.spec m d i) ↔
      o.Exact (m.carryIn d i) (m.maskBit 0 i) (m.elem m.vsew d.src2 i).toInt (m.src d true i).toInt := by
  have hcin : m.carryIn d i = true → m.maskBit 0 i = true := fun h => (Bool.and_eq_true_iff.mp h).2
  rw [← computed_eq_iff o (Nat.lt_of_lt_of_le (by decide) (eight_le_sew _)) (sew_le hsew) _ _ hcin]
  unfold CarryOp.bit CarryOp.spec
  rw [← Option.map_some]
  exact (Option.map_injective fun a b => by cases a <;> cases b <;> decide).eq_iff

/-- Element `i` of a source lies above the bits that the rounds before have written. -/
theorem apart_mask {reg dest : BitVec 5} {k : Nat} (hsew : vsew ≤ 3) (hmul : vlmul ≤ 3)
    (ha : Aligned vlmul reg) (hover : dest.toNat ≤ reg.toNat ∨ reg.toNat + 2 ^ vlmul ≤ dest.toNat)
    (hi : i < vlmaxOf vsew vlmul) (hk : k < i) : Packed.Apart (sew vsew) (slot vsew reg i) 1 (dest, k) := by
  rw [vlmaxOf_eq hsew hmul] at hi
  intro hreg
  have hplace := slot_group hsew hmul ha hi
  have hdiv := group_index hsew hi
  rw [hreg] at hplace
  have hzero : i / elemNum vsew = 0 := by
    generalize i / elemNum vsew = q at hplace hdiv ⊢
    dsimp only at hplace
    omega
  have hmod : i % elemNum vsew = i := by
    have h := Nat.div_add_mod i (elemNum vsew)
    rwa [hzero, Nat.mul_zero, Nat.zero_add] at h
  right
  change k * 1 + 1 ≤ i % elemNum vsew * sew vsew
  rw [hmod, Nat.mul_one]
  exact Nat.le_trans hk (Nat.le_mul_of_pos_right i (Nat.lt_of_lt_of_le (by decide) (eight_le_sew vsew)))

variable {s : VState}

theorem CarryOp.vopStore_eq (o : CarryOp) (hi : i < vlen) (c : Bool) (u : VState) :
    vopStore o.executor d vsew vlmul i (bitWord c) u =
      .ok () ⟨{ u.cpu with vr := Packed.set u.cpu.vr (d.dest, i) (BitVec.ofBool c) }, u.reads⟩ := by
  have hmask : o.executor.destMask = true := by cases o <;> rfl
  have hbit : decide (bitWord c ≠ 0) = c := by cases c <;> decide
  unfold vopStore
  rw [if_pos hmask]
  unfold setMask
  rw [if_pos hi, hbit]
  rfl

/-- A round writes the computed bit, whatever the mask. -/
theorem carry_round (o : CarryOp) (hl : CarryLegal s.cpu d) (hmul : s.cpu.vlmul ≤ 3) (hi : s.cpu.Body i)
    (hu : Before (vlmaxOf s.cpu.vsew s.cpu.vlmul) s (fun i => (d.dest, i)) (fun _ => True) (o.bit s.cpu d) i u) :
    RoundGives o.executor d (vlmaxOf s.cpu.vsew s.cpu.vlmul) i u (d.dest, i) True (o.bit s.cpu d i) := by
  have hsew := hl.configured.sew
  have hlt := hi.lt_vlmax hl.configured
  have hlen : i < vlen := Nat.lt_of_lt_of_le hlt (vlmaxOf_le hsew hmul)
  have hg : Grouped d s.cpu := ⟨hsew, hmul, hl.src2 hmul, hl.src1 hmul⟩
  have hmerge : o.executor.opcode ≠ .merge := by cases o <;> decide
  have hnarrow : o.executor.narrow = 0 := by cases o <;> rfl
  have hsigned : o.executor.isSigned = true := by cases o <;> rfl
  have hskip : ¬ s.cpu.Skips o.executor d i := by
    rintro ⟨-, h, -⟩
    cases o <;> cases h
  have hapart : ∀ k, (s.cpu.csr .vstart).toNat ≤ k → k < i → True → Packed.Apart 1 (0, i) 1 (d.dest, k) :=
    fun k _ hk _ => Packed.apart_of_ne fun h => Nat.ne_of_gt hk (congrArg Prod.snd h)
  have hd : Undisturbed s.cpu d 1 (fun i => (d.dest, i)) (fun _ => True) i := by
    constructor
    · intro k _ hk _
      exact apart_mask hsew hmul (hl.src2 hmul) hl.overlap2 hlt hk
    · intro hvv k _ hk _
      exact apart_mask hsew hmul (hl.src1 hmul hvv) (hl.overlap1 hvv) hlt hk
    · exact fun _ => hapart
  -- what the round computes on
  have hround := vopRound_before hl.configured hg hnarrow hmerge hi hu hd
  have h2 : ((s.cpu.elem s.cpu.vsew d.src2 i).signExtend 64).toInt = (s.cpu.elem s.cpu.vsew d.src2 i).toInt :=
    BitVec.toInt_signExtend_of_le (sew_le hsew)
  have h1 : ((s.cpu.src d true i).signExtend 64).toInt = (s.cpu.src d true i).toInt :=
    BitVec.toInt_signExtend_of_le (sew_le hsew)
  rw [if_neg hskip, hsigned] at hround
  change _ = (vopValue o.executor d _ _ _ i _ (bitWord (u.cpu.maskBit 0 i))
    ((s.cpu.elem s.cpu.vsew d.src2 i).signExtend 64) ((s.cpu.src d true i).signExtend 64) >>= _) _ at hround
  rw [maskBit_before hu hapart, vopValue_carry, h2, h1] at hround
  constructor
  · exact fun h => absurd trivial h
  · intro _ x hx
    obtain ⟨c, hc, rfl⟩ := Option.map_eq_some_iff.mp hx
    rw [hc] at hround
    exact ⟨d.fetches i, fetches_bounds hlt, hround.trans (o.vopStore_eq hlen c _)⟩
  · intro _ hnone u' hu'
    rw [Option.map_eq_none_iff.mp hnone] at hround
    cases hround.symm.trans hu'

theorem carry_rounds (o : CarryOp) (hl : CarryLegal m d) (hmul : m.vlmul ≤ 3) :
    Rounds o.executor d ⟨m, []⟩ (fun i => (d.dest, i)) (fun _ => True) (o.bit m d) := by
  constructor
  · intro i hi
    have hle : i < vlen := Nat.lt_of_lt_of_le (hi.lt_vlmax hl.configured) (vlmaxOf_le hl.configured.sew hmul)
    change i * 1 + 1 ≤ 128
    rwa [Nat.mul_one]
  · exact fun _ _ _ _ h => congrArg Prod.snd h
  · exact fun i u hi hu => carry_round (s := ⟨m, []⟩) o hl hmul hi hu

end Rounds

section Claim

variable {o : CarryOp} {m : Machine} {instr : BitVec 32}

/-- `vmadc` and `vmsbc` write the carry and the borrow if, and only if, the group is no fraction of a
register and the signed operands of every element are such that the sign of their sum or difference
tells it. -/
theorem carry_written_iff (hsel : tableOpV instr = some o.executor) (hl : CarryLegal m (decodeOpV m instr)) :
    (∃ t, Executes instr ⟨m, []⟩ t ∧
      Writes m t.cpu (fun i => ((decodeOpV m instr).dest, i)) (fun _ => True) (o.spec m (decodeOpV m instr))) ↔
    m.vlmul ≤ 3 ∧ ∀ i, m.Body i →
      o.Exact (m.carryIn (decodeOpV m instr) i) (m.maskBit 0 i)
        (m.elem m.vsew (decodeOpV m instr).src2 i).toInt (m.src (decodeOpV m instr) true i).toInt := by
  rw [executes_writes_iff hsel o.all_modes hl.configured (carry_rounds o hl)]
  apply and_congr_right
  intro _
  constructor
  · exact fun h i hi => (o.bit_eq_iff hl.configured.sew).mp (h i hi trivial)
  · exact fun h i hi _ => (o.bit_eq_iff hl.configured.sew).mpr (h i hi)

/-- Three elements of eight bits: 255, 1 and 1 in `v2`, and 1, 2 and 255 in `v3`. -/
def carryState : Machine := configuredAs 0 3 fun r => if r = 2 then 0x0101ff else if r = 3 then 0xff0201 else 0

theorem carryState_legal (d : VDecode) : CarryLegal carryState d := by
  have hmul : carryState.vlmul = 0 := by decide
  have hall : ∀ reg : BitVec 5, Aligned carryState.vlmul reg := by
    intro reg
    rw [hmul]
    exact aligned_zero reg
  constructor
  · exact ⟨by decide, .inl (by decide), by decide, by decide⟩
  · exact fun _ => hall d.src2
  · exact fun _ _ => hall d.src1
  · rw [hmul]
    exact le_or_gt _ _
  · intro _
    rw [hmul]
    exact le_or_gt _ _

theorem carryState_body {i : Nat} (h : carryState.Body i) : i < 3 := h.2

/-- `vmadc.vv v1, v2, v3`: 255 and 1 have a carry, in either order, 1 and 2 have none. -/
theorem carry_written_bytes :
    (∃ t, Executes 0x462180d7 ⟨carryState, []⟩ t ∧
      Writes carryState t.cpu (fun i => (1, i)) (fun _ => True)
        (CarryOp.madc.spec carryState (decodeOpV carryState 0x462180d7))) ∧
    (List.range 3).map (CarryOp.madc.spec carryState (decodeOpV carryState 0x462180d7)) = [1, 0, 1] := by
  constructor
  · apply (carry_written_iff (o := .madc) (by decide) (carryState_legal _)).mpr
    refine ⟨by decide, fun i hi => ?_⟩
    have hall : ∀ i < 3, CarryOp.madc.Exact (carryState.carryIn (decodeOpV carryState 0x462180d7) i)
        (carryState.maskBit 0 i) (carryState.elem 0 2 i).toInt
        (carryState.src (decodeOpV carryState 0x462180d7) true i).toInt := by decide
    exact hall i (carryState_body hi)
  · decide

/-- `vmadc.vv v1, v2, v2`: 255 and 255 have a carry, which is not written, since both are negative. -/
theorem carry_of_negatives :
    CarryLegal carryState (decodeOpV carryState 0x462100d7) ∧
    tableOpV 0x462100d7 = some CarryOp.madc.executor ∧
    ¬ ∃ t, Executes 0x462100d7 ⟨carryState, []⟩ t ∧
      Writes carryState t.cpu (fun i => (1, i)) (fun _ => True)
        (CarryOp.madc.spec carryState (decodeOpV carryState 0x462100d7)) := by
  have hl := carryState_legal (decodeOpV carryState 0x462100d7)
  have hsel : tableOpV 0x462100d7 = some CarryOp.madc.executor := by decide
  refine ⟨hl, hsel, fun h => ?_⟩
  obtain ⟨-, hall⟩ := (executes_writes_iff hsel CarryOp.madc.all_modes hl.configured (carry_rounds .madc hl)).mp h
  have hfirst := hall 0 ⟨by decide, by decide⟩ trivial
  revert hfirst
  decide

end Claim

end Nemu
