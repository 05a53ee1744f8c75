import Nemu.Lib.Packed
import Nemu.Machine

namespace Nemu

set_option autoImplicit true

/-- The ways in which a vector executor does not complete. -/
inductive VStop where
  | assertion
  /-- the host traps a division -/
  | sigfpe
  /-- the C standard does not define the outcome: a shift by a negative amount, a sum of `int64_t`
  that does not fit, an index outside of a register -/
  | undefined
  deriving DecidableEq

/-- The state of a vector executor, with the element indices that were passed to `get_vreg`. -/
structure VState where
  cpu : Machine
  reads : List Int

abbrev VExec := EStateM VStop VState

def vlen : Nat := 128

def Machine.vsew (s : Machine) : Nat := ((s.csr .vtype).extractLsb' 3 3).toNat

def Machine.vlmul (s : Machine) : Nat := ((s.csr .vtype).extractLsb' 0 3).toNat

def sew (vsew : Nat) : Nat := 8 * 2 ^ vsew

/-- A 64-bit value that is passed as an `int`. -/
def asInt (x : Word) : Int := (x.setWidth 32).toInt

section Registers

/-- `none` where the shift amount is negative. It is always below 32. -/
def getVlmax (vsew vlmul : Nat) : Option Nat :=
  if vlmul ≤ 3 + vsew then some (vlen >>> (3 + vsew - vlmul)) else none

def elemNum (vsew : Nat) : Nat := vlen >>> (3 + vsew)

def getReg (reg : BitVec 5) (idx : Int) (vsew : Nat) : Int := reg.toNat + idx.tdiv (elemNum vsew)

def getIdx (idx : Int) (vsew : Nat) : Int := idx.tmod (elemNum vsew)

/-- The register, and the element of it, that `get_vreg` and `set_vreg` access after their
assertions and those of `vreg_b` to `vreg_l`. -/
def vregPlace (reg : BitVec 5) (idx : Int) (vsew vlmul : Nat) (needAlign : Bool) :
    Option (BitVec 5 × Nat) :=
  let newReg := getReg reg idx vsew
  let newIdx := getIdx idx vsew
  if vlmul ≤ 3 ∧ vsew ≤ 3 ∧ (needAlign = true → reg.toNat % 2 ^ vlmul = 0) ∧
      (0 ≤ newReg ∧ newReg < 32) ∧ 0 ≤ newIdx ∧ newIdx < (vlen / sew vsew : Nat) then
    some (BitVec.ofInt 5 newReg, newIdx.toNat)
  else none

/-- The conditional expression of `get_vreg` extends an `int` and a `uint32_t` alike: for `vsew = 2`
it has the type `uint32_t`. -/
def extendElem (vsew : Nat) (isSigned : Bool) (x : BitVec (sew vsew)) : Word :=
  if isSigned = true ∧ vsew ≠ 2 then x.signExtend 64 else x.setWidth 64

def getVreg (reg : BitVec 5) (idx : Int) (vsew vlmul : Nat) (isSigned needAlign : Bool) :
    VExec Word := do
  modify fun s => { s with reads := s.reads ++ [idx] }
  match vregPlace reg idx vsew vlmul needAlign with
  | none => throw .assertion
  | some p => do
    let s ← get
    pure (extendElem vsew isSigned (Packed.get (sew vsew) s.cpu.vr p))

def setVreg (reg : BitVec 5) (idx : Int) (src : Word) (vsew vlmul : Nat) (needAlign : Bool) :
    VExec Unit :=
  match vregPlace reg idx vsew vlmul needAlign with
  | none => throw .assertion
  | some p => modify fun s =>
    { s with cpu := { s.cpu with vr := Packed.set s.cpu.vr p (src.setWidth (sew vsew)) } }

/-- The bit of a register; its two words are indexed without a check. -/
def getMask (reg : BitVec 5) (idx : Nat) : VExec Word := do
  let s ← get
  if idx < vlen then pure (if (s.cpu.vr reg).getLsbD idx then 1 else 0) else throw .undefined

def setMask (reg : BitVec 5) (idx : Nat) (mask : Word) : VExec Unit :=
  if idx < vlen then modify fun s =>
    { s with cpu := { s.cpu with vr := Packed.set s.cpu.vr (reg, idx) (BitVec.ofBool (mask ≠ 0)) } }
  else throw .undefined

end Registers

section Elements

/-- The place of element `i` of the register group that starts at `reg`. -/
def slot (vsew : Nat) (reg : BitVec 5) (i : Nat) : BitVec 5 × Nat :=
  (reg + BitVec.ofNat 5 (i / elemNum vsew), i % elemNum vsew)

def Machine.elem (s : Machine) (vsew : Nat) (reg : BitVec 5) (i : Nat) : BitVec (sew vsew) :=
  Packed.get (sew vsew) s.vr (slot vsew reg i)

def Machine.maskBit (s : Machine) (reg : BitVec 5) (i : Nat) : Bool := (s.vr reg).getLsbD i

variable {vsew vlmul i j : Nat} {reg reg' : BitVec 5}

theorem le_three (h : vsew ≤ 3) : vsew = 0 ∨ vsew = 1 ∨ vsew = 2 ∨ vsew = 3 := by
  omega

theorem elemNum_mul_sew (h : vsew ≤ 3) : elemNum vsew * sew vsew = vlen := by
  rcases le_three h with rfl | rfl | rfl | rfl <;> rfl

theorem elemNum_eq (h : vsew ≤ 3) : elemNum vsew = vlen / sew vsew := by
  rcases le_three h with rfl | rfl | rfl | rfl <;> rfl

theorem elemNum_pos (h : vsew ≤ 3) : 0 < elemNum vsew := by
  rcases le_three h with rfl | rfl | rfl | rfl <;> decide

theorem sew_le (h : vsew ≤ 3) : sew vsew ≤ 64 := by
  rcases le_three h with rfl | rfl | rfl | rfl <;> decide

theorem eight_le_sew (vsew : Nat) : 8 ≤ sew vsew := Nat.le_mul_of_pos_right 8 (Nat.two_pow_pos vsew)

def vlmaxOf (vsew vlmul : Nat) : Nat :=
  if vlmul ≤ 3 then vlen * 2 ^ vlmul / sew vsew else vlen / (sew vsew * 2 ^ (8 - vlmul))

theorem vlmaxOf_eq (hsew : vsew ≤ 3) (hmul : vlmul ≤ 3) :
    vlmaxOf vsew vlmul = 2 ^ vlmul * elemNum vsew := by
  rcases le_three hsew with rfl | rfl | rfl | rfl <;>
    rcases le_three hmul with rfl | rfl | rfl | rfl <;> rfl

theorem getVlmax_eq (hsew : vsew ≤ 3) (hmul : vlmul ≤ 3) :
    getVlmax vsew vlmul = some (2 ^ vlmul * elemNum vsew) := by
  rcases le_three hsew with rfl | rfl | rfl | rfl <;>
    rcases le_three hmul with rfl | rfl | rfl | rfl <;> rfl

/-- A group of `2 ^ vlmul` registers may start at `reg`. -/
def Aligned (vlmul : Nat) (reg : BitVec 5) : Prop := reg.toNat % 2 ^ vlmul = 0

theorem aligned_zero (reg : BitVec 5) : Aligned 0 reg := Nat.mod_one reg.toNat

theorem Aligned.le (h : Aligned vlmul reg) (hmul : vlmul ≤ 3) : reg.toNat + 2 ^ vlmul ≤ 32 := by
  have hlt := reg.isLt
  unfold Aligned at h
  rcases le_three hmul with rfl | rfl | rfl | rfl <;> simp only [Nat.reducePow] at h ⊢ <;> omega

theorem Aligned.disjoint (h : Aligned vlmul reg) (h' : Aligned vlmul reg') (hmul : vlmul ≤ 3)
    (hne : reg ≠ reg') : reg.toNat + 2 ^ vlmul ≤ reg'.toNat ∨ reg'.toNat + 2 ^ vlmul ≤ reg.toNat := by
  have hnat : reg.toNat ≠ reg'.toNat := fun heq => hne (BitVec.eq_of_toNat_eq heq)
  unfold Aligned at h h'
  rcases le_three hmul with rfl | rfl | rfl | rfl <;> simp only [Nat.reducePow] at h h' ⊢ <;> omega

theorem slot_fits (h : vsew ≤ 3) (reg : BitVec 5) (i : Nat) :
    (slot vsew reg i).2 * sew vsew + sew vsew ≤ vlen := by
  have hmod : i % elemNum vsew < elemNum vsew := Nat.mod_lt i (elemNum_pos h)
  have hmul := Nat.mul_le_mul_right (sew vsew) (Nat.succ_le_of_lt hmod)
  rw [Nat.succ_mul, elemNum_mul_sew h] at hmul
  exact hmul

theorem slot_reg (hreg : reg.toNat + i / elemNum vsew < 32) :
    (slot vsew reg i).1.toNat = reg.toNat + i / elemNum vsew := by
  unfold slot
  rw [BitVec.toNat_add, BitVec.toNat_ofNat, Nat.add_mod_mod, Nat.mod_eq_of_lt hreg]

theorem group_index (hsew : vsew ≤ 3) (hi : i < 2 ^ vlmul * elemNum vsew) : i / elemNum vsew < 2 ^ vlmul :=
  (Nat.div_lt_iff_lt_mul (elemNum_pos hsew)).mpr hi

theorem slot_group (hsew : vsew ≤ 3) (hmul : vlmul ≤ 3) (ha : Aligned vlmul reg)
    (hi : i < 2 ^ vlmul * elemNum vsew) : (slot vsew reg i).1.toNat = reg.toNat + i / elemNum vsew := by
  have hle := ha.le hmul
  have hdiv := group_index hsew hi
  exact slot_reg (by omega)

theorem slot_inj (hsew : vsew ≤ 3) (hmul : vlmul ≤ 3) (ha : Aligned vlmul reg)
    (hi : i < 2 ^ vlmul * elemNum vsew) (hj : j < 2 ^ vlmul * elemNum vsew)
    (h : slot vsew reg i = slot vsew reg j) : i = j := by
  have hreg : (slot vsew reg i).1.toNat = (slot vsew reg j).1.toNat := by rw [h]
  have hmod : i % elemNum vsew = j % elemNum vsew := congrArg Prod.snd h
  rw [slot_group hsew hmul ha hi, slot_group hsew hmul ha hj] at hreg
  have hdiv : i / elemNum vsew = j / elemNum vsew := Nat.add_left_cancel hreg
  rw [← Nat.div_add_mod i (elemNum vsew), hdiv, hmod, Nat.div_add_mod]

theorem slot_ne_of_ne (hsew : vsew ≤ 3) (hmul : vlmul ≤ 3) (ha : Aligned vlmul reg)
    (ha' : Aligned vlmul reg') (hne : reg ≠ reg') (hi : i < 2 ^ vlmul * elemNum vsew)
    (hj : j < 2 ^ vlmul * elemNum vsew) : slot vsew reg i ≠ slot vsew reg' j := by
  intro h
  have hreg : (slot vsew reg i).1.toNat = (slot vsew reg' j).1.toNat := by rw [h]
  rw [slot_group hsew hmul ha hi, slot_group hsew hmul ha' hj] at hreg
  have hi' := group_index hsew hi
  have hj' := group_index hsew hj
  generalize i / elemNum vsew = a at hreg hi'
  generalize j / elemNum vsew = b at hreg hj'
  rcases ha.disjoint ha' hmul hne with hd | hd <;> omega

theorem vregPlace_eq {needAlign : Bool} (hsew : vsew ≤ 3) (hmul : vlmul ≤ 3)
    (ha : needAlign = true → Aligned vlmul reg) (hreg : reg.toNat + i / elemNum vsew < 32) :
    vregPlace reg i vsew vlmul needAlign = some (slot vsew reg i) := by
  have hr : getReg reg i vsew = (reg.toNat + i / elemNum vsew : Nat) := by
    unfold getReg
    rw [← Int.ofNat_tdiv, Int.natCast_add]
  have hx : getIdx i vsew = (i % elemNum vsew : Nat) := (Int.ofNat_tmod i (elemNum vsew)).symm
  have hmod : i % elemNum vsew < elemNum vsew := Nat.mod_lt i (elemNum_pos hsew)
  unfold vregPlace
  dsimp only
  rw [hr, hx, ← elemNum_eq hsew, if_pos]
  · rw [BitVec.ofInt_natCast, BitVec.ofNat_add, BitVec.ofNat_toNat, BitVec.setWidth_eq]
    rfl
  · exact ⟨hmul, hsew, ha, ⟨Int.natCast_nonneg _, by omega⟩, Int.natCast_nonneg _, by omega⟩

theorem vregPlace_group {needAlign : Bool} (hsew : vsew ≤ 3) (hmul : vlmul ≤ 3) (ha : Aligned vlmul reg)
    (hi : i < 2 ^ vlmul * elemNum vsew) :
    vregPlace reg i vsew vlmul needAlign = some (slot vsew reg i) := by
  have hle := ha.le hmul
  have hdiv := group_index hsew hi
  exact vregPlace_eq hsew hmul (fun _ => ha) (by omega)

end Elements

end Nemu
