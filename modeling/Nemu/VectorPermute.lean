import Nemu.VectorDivision

namespace Nemu

open Effect WideArith

set_option autoImplicit true

/-- The instructions that move elements. -/
inductive PermuteOp where
  | slideup | slidedown | slide1up | slide1down | rgather | rgatherei16
  deriving DecidableEq

def PermuteOp.executor : PermuteOp → Arthi
  | slideup => .vslideup
  | slidedown => .vslidedown
  | slide1up => .vslide1up
  | slide1down => .vslide1down
  | rgather => .vrgather
  | rgatherei16 => .vrgatherei16

theorem PermuteOp.all_modes (o : PermuteOp) {mode : SrcVmode} : o.executor.unsupported ≠ some mode := by
  cases o <;> exact (Option.some_ne_none mode).symm

/-- The instructions whose second operand is a scalar. -/
def PermuteOp.slides : PermuteOp → Bool
  | rgather | rgatherei16 => false
  | _ => true

/-- The instructions that may not write to their source. -/
def PermuteOp.needsApart : PermuteOp → Bool
  | slidedown | slide1down => false
  | _ => true

/-- The registers of the group of 16-bit indices, as a power of two: EMUL is LMUL * 16 / SEW. -/
def indexMul (vsew vlmul : Nat) : Nat := vlmul + 1 - vsew

def Machine.vlmax (m : Machine) : Nat := vlmaxOf m.vsew m.vlmul

/-- What the V extension asks of the operands, for groups of whole registers. -/
structure PermuteLegal (o : PermuteOp) (m : Machine) (d : VDecode) : Prop where
  configured : Configured m
  scalar : o.slides = true → d.srcVmode ≠ .vv
  src2 : m.vlmul ≤ 3 → Aligned m.vlmul d.src2
  src1 : m.vlmul ≤ 3 → d.srcVmode = .vv → o ≠ .rgatherei16 → Aligned m.vlmul d.src1
  dest : m.vlmul ≤ 3 → Aligned m.vlmul d.dest
  mask : d.vm = false → d.dest ≠ 0
  apart2 : o.needsApart = true → d.dest ≠ d.src2
  apart1 : o = .rgather → d.srcVmode = .vv → d.dest ≠ d.src1
  index : m.vlmul ≤ 3 → o = .rgatherei16 → d.srcVmode = .vv ∧
    d.src1.toNat % 2 ^ indexMul m.vsew m.vlmul = 0 ∧ indexMul m.vsew m.vlmul ≤ 3 ∧
    (d.dest.toNat + 2 ^ m.vlmul ≤ d.src1.toNat ∨ d.src1.toNat + 2 ^ indexMul m.vsew m.vlmul ≤ d.dest.toNat)

/-- The offset or index for element `i`, not cut to SEW bits where it is a scalar. -/
def Machine.offset (m : Machine) (d : VDecode) (i : Nat) : Nat := (m.srcValue d false i).toNat

/-- The element of `vs2` with index `j`, or zero beyond the group. -/
def Machine.gather (m : Machine) (d : VDecode) (j : Nat) : BitVec (sew m.vsew) :=
  if j < m.vlmax then m.elem m.vsew d.src2 j else 0

/-- What the V extension defines for element `i`. -/
def PermuteOp.spec (o : PermuteOp) (m : Machine) (d : VDecode) (i : Nat) : BitVec (sew m.vsew) :=
  match o with
  | slideup => if i < m.offset d i then m.elem m.vsew d.dest i else m.elem m.vsew d.src2 (i - m.offset d i)
  | slidedown => m.gather d (i + m.offset d i)
  | slide1up => if i = 0 then m.src d false i else m.elem m.vsew d.src2 (i - 1)
  | slide1down => if i + 1 < (m.csr .vl).toNat then m.elem m.vsew d.src2 (i + 1) else m.src d false i
  | rgather => m.gather d (m.offset d i)
  | rgatherei16 => m.gather d (m.elem 1 d.src1 i).toNat

/-- Whether the round with index `j` has written to the source. -/
def Machine.Overwrites (m : Machine) (d : VDecode) (j : Nat) : Prop :=
  d.dest = d.src2 ∧ (m.csr .vstart).toNat ≤ j ∧ Active .vslidedown d m j

instance : Decidable (Machine.Overwrites m d j) := inferInstanceAs (Decidable (_ ∧ _ ∧ _))

/-- The condition on element `i`. The sum of index and offset wraps for offsets close to `2 ^ 64`; it
then designates an element below `i`, which is to be zero or has become zero. The group of indices has
to be aligned like one of the others. -/
def PermuteOp.Exact (o : PermuteOp) (m : Machine) (d : VDecode) (i : Nat) : Prop :=
  match o with
  | slidedown =>
    i + m.offset d i < 2 ^ 64 ∨ m.Overwrites d (i + m.offset d i - 2 ^ 64) ∨
      m.elem m.vsew d.src2 (i + m.offset d i - 2 ^ 64) = 0
  | rgatherei16 => Aligned m.vlmul d.src1
  | _ => True

section Slide

variable {m : Machine} {d : VDecode} {i : Nat}

/-- The value that `vslidedown` moves to element `i`. -/
def slideValue (m : Machine) (d : VDecode) (off : Word) (i : Nat) : BitVec (sew m.vsew) :=
  if i + off.toNat < 2 ^ 64 then m.gather d (i + off.toNat)
  else if m.Overwrites d (i + off.toNat - 2 ^ 64) then slideValue m d off (i + off.toNat - 2 ^ 64)
  else m.elem m.vsew d.src2 (i + off.toNat - 2 ^ 64)
termination_by i
decreasing_by
  have := off.isLt
  omega

theorem offset_scalar (h : d.srcVmode ≠ .vv) (i : Nat) : m.offset d i = m.offset d 0 := by
  unfold Machine.offset Machine.srcValue
  cases hm : d.srcVmode with
  | vv => exact absurd hm h
  | vx | vi => rfl

theorem gather_beyond {j : Nat} (h : m.vlmax ≤ j) : m.gather d j = 0 := if_neg (Nat.not_lt.mpr h)

/-- All elements are right if, and only if, those are for which the sum wraps. -/
theorem slideValue_iff (hmax : m.vlmax ≤ 128) (hbody : ∀ j, m.Body j → j < m.vlmax) {off : Word}
    (hoff : ∀ i, m.offset d i = off.toNat) :
    (∀ i, m.Body i → Active .vslidedown d m i → slideValue m d off i = PermuteOp.slidedown.spec m d i) ↔
      ∀ i, m.Body i → Active .vslidedown d m i → PermuteOp.slidedown.Exact m d i := by
  have hspec : ∀ i, PermuteOp.slidedown.spec m d i = m.gather d (i + off.toNat) := by
    intro i
    unfold PermuteOp.spec
    rw [hoff]
  have hexact : ∀ i, PermuteOp.slidedown.Exact m d i ↔ (i + off.toNat < 2 ^ 64 ∨
      m.Overwrites d (i + off.toNat - 2 ^ 64) ∨ m.elem m.vsew d.src2 (i + off.toNat - 2 ^ 64) = 0) := by
    intro i
    unfold PermuteOp.Exact
    rw [hoff]
  have hlt := off.isLt
  constructor
  · intro h i hi hact
    rw [hexact]
    by_cases hwrap : i + off.toNat < 2 ^ 64
    · exact .inl hwrap
    · by_cases hover : m.Overwrites d (i + off.toNat - 2 ^ 64)
      · exact .inr (.inl hover)
      · have hi' := h i hi hact
        rw [hspec, gather_beyond (by omega), slideValue, if_neg hwrap, if_neg hover] at hi'
        exact .inr (.inr hi')
  · intro h i hi hact
    induction i using Nat.strong_induction_on with
    | h i ih =>
      rw [hspec, slideValue]
      by_cases hwrap : i + off.toNat < 2 ^ 64
      · rw [if_pos hwrap]
      · have hi' := hbody i hi
        rw [if_neg hwrap, gather_beyond (by omega)]
        by_cases hover : m.Overwrites d (i + off.toNat - 2 ^ 64)
        · -- the element below has been given zero, since its own sum is beyond the group as well
          have hj : m.Body (i + off.toNat - 2 ^ 64) := ⟨hover.2.1, by have := hi.2; omega⟩
          rw [if_pos hover, ih _ (by omega) hj hover.2.2, hspec, gather_beyond (by omega)]
        · rw [if_neg hover]
          rcases (hexact i).mp (h i hi hact) with h | h | h
          · exact absurd h hwrap
          · exact absurd h hover
          · exact h

end Slide

section Rounds

variable {o : PermuteOp} {m : Machine} {d : VDecode} {i j : Nat} {u : VState}
  {out : Nat → Option (BitVec (sew m.vsew))}

theorem PermuteOp.plain (o : PermuteOp) : o.executor.Plain := by
  cases o <;> exact ⟨by decide, rfl, rfl, rfl⟩

theorem PermuteLegal.elementwise (h : PermuteLegal o m d)
    (hindex : m.vlmul ≤ 3 → o = .rgatherei16 → Aligned m.vlmul d.src1) : Elementwise m d := by
  constructor
  · exact h.configured
  · exact h.src2
  · intro hmul hvv
    by_cases ho : o = .rgatherei16
    · exact hindex hmul ho
    · exact h.src1 hmul hvv ho
  · exact h.dest
  · exact h.mask

theorem getVreg_elem {cpu : Machine} {vsew vlmul : Nat} {reg : BitVec 5} (hsew : vsew ≤ 3) (hmul : vlmul ≤ 3)
    (ha : Aligned vlmul reg) (hj : j < vlmaxOf vsew vlmul) (reads : List Int) :
    getVreg reg j vsew vlmul false true ⟨cpu, reads⟩ =
      .ok ((cpu.elem vsew reg j).setWidth 64) ⟨cpu, reads ++ [(j : Int)]⟩ := by
  rw [vlmaxOf_eq hsew hmul] at hj
  have hext : ∀ x : BitVec (sew vsew), extendElem vsew false x = x.setWidth 64 :=
    fun x => if_neg fun h => by cases h.1
  rw [getVreg_eq (vregPlace_group hsew hmul ha hj), hext]
  rfl

/-- An element that no earlier round has written to is read as it was. -/
theorem getVreg_before {reg : BitVec 5} (hl : Elementwise m d) (hmul : m.vlmul ≤ 3)
    (hu : Before m.vlmax ⟨m, []⟩ (slot m.vsew d.dest) (Active o.executor d m) out i u) (hi : m.Body i)
    (ha : Aligned m.vlmul reg) (hj : j < m.vlmax) (hne : reg = d.dest → i ≤ j) (reads : List Int) :
    getVreg reg j m.vsew m.vlmul false true ⟨u.cpu, reads⟩ =
      .ok ((m.elem m.vsew reg j).setWidth 64) ⟨u.cpu, reads ++ [(j : Int)]⟩ := by
  have hsew := hl.configured.sew
  have hlt := hi.lt_vlmax hl.configured
  have hsame : u.cpu.elem m.vsew reg j = m.elem m.vsew reg j := by
    apply elem_before hu
    intro k _ hk _
    apply slot_apart hsew hmul ha (hl.dest hmul) hj (hk.trans hlt)
    exact fun heq => Nat.ne_of_gt (Nat.lt_of_lt_of_le hk (hne heq))
  rw [getVreg_elem hsew hmul ha hj, hsame]

/-- What the `switch` makes of element `i`: the value `v`, from indices of the group. -/
def Moves (o : PermuteOp) (m : Machine) (d : VDecode) (i : Nat) (u : VState) (v : BitVec (sew m.vsew)) : Prop :=
  ∃ x : Word, x.setWidth (sew m.vsew) = v ∧ ∀ reads, ∃ more, (∀ r ∈ more, 0 ≤ r ∧ r < (m.vlmax : Int)) ∧
    vopValue o.executor d m.vsew m.vlmul m.vlmax i (m.csr .vl) (u.cpu.maskWord i)
      (m.vs2Value d o.executor.isSigned i) (m.srcValue d o.executor.isSigned i) ⟨u.cpu, reads⟩ =
        .ok x ⟨u.cpu, reads ++ more⟩

theorem index_bounds (hj : j < m.vlmax) : ∀ r ∈ [(j : Int)], 0 ≤ r ∧ r < (m.vlmax : Int) := by
  intro r hr
  rw [List.mem_singleton.mp hr]
  exact ⟨Int.natCast_nonneg j, Int.ofNat_lt.mpr hj⟩

theorem Moves.round {v : BitVec (sew m.vsew)} (h : Moves o m d i u v) (hl : Elementwise m d) (hmul : m.vlmul ≤ 3)
    (hi : m.Body i) (hu : Before m.vlmax ⟨m, []⟩ (slot m.vsew d.dest) (Active o.executor d m) out i u) :
    RoundGives o.executor d m.vlmax i u (slot m.vsew d.dest i) (Active o.executor d m i) (some v) := by
  obtain ⟨x, rfl, hrun⟩ := h
  apply element_round (s := ⟨m, []⟩) (c := some x) o.plain hl hmul hi hu (Nat.le_refl _)
  · intro y hy
    cases hy
    exact hrun
  · exact fun hnone => absurd hnone (Option.some_ne_none x)

theorem moves_read {reg : BitVec 5} {v : BitVec (sew m.vsew)} (hsew : m.vsew ≤ 3) (hj : j < m.vlmax)
    (hv : m.elem m.vsew reg j = v)
    (hread : ∀ reads, getVreg reg j m.vsew m.vlmul false true ⟨u.cpu, reads⟩ =
      .ok ((m.elem m.vsew reg j).setWidth 64) ⟨u.cpu, reads ++ [(j : Int)]⟩)
    (hcode : vopValue o.executor d m.vsew m.vlmul m.vlmax i (m.csr .vl) (u.cpu.maskWord i)
      (m.vs2Value d o.executor.isSigned i) (m.srcValue d o.executor.isSigned i) =
        getVreg reg j m.vsew m.vlmul false true) : Moves o m d i u v := by
  refine ⟨_, (setWidth_cut (sew_le hsew) _).trans hv, fun reads => ⟨[(j : Int)], index_bounds hj, ?_⟩⟩
  rw [hcode]
  exact hread reads

theorem moves_pure {v : BitVec (sew m.vsew)} {x : Word} (hv : x.setWidth (sew m.vsew) = v)
    (hcode : vopValue o.executor d m.vsew m.vlmul m.vlmax i (m.csr .vl) (u.cpu.maskWord i)
      (m.vs2Value d o.executor.isSigned i) (m.srcValue d o.executor.isSigned i) = pure x) :
    Moves o m d i u v := by
  refine ⟨x, hv, fun reads => ⟨[], fun r hr => absurd hr List.not_mem_nil, ?_⟩⟩
  rw [hcode, List.append_nil]
  rfl

section Moves

variable (hl : Elementwise m d) (hmul : m.vlmul ≤ 3) (hi : m.Body i)
  (hu : Before m.vlmax ⟨m, []⟩ (slot m.vsew d.dest) (Active o.executor d m) out i u)

include hl hmul in
theorem vlmax_le : m.vlmax ≤ 128 := vlmaxOf_le hl.configured.sew hmul

include hl hi in
theorem index_lt : i < m.vlmax := hi.lt_vlmax hl.configured

include hl hmul hi

theorem toNat_index : (BitVec.ofNat 64 i).toNat = i := by
  have h1 := index_lt hl hi
  have h2 := vlmax_le hl hmul
  rw [BitVec.toNat_ofNat]
  exact Nat.mod_eq_of_lt (by omega)

include hu

theorem gather_run {x : Word} (hne : x.toNat < m.vlmax → d.src2 = d.dest → i ≤ x.toNat) :
    ∃ y : Word, y.setWidth (sew m.vsew) = m.gather d x.toNat ∧ ∀ reads, ∃ more,
      (∀ r ∈ more, 0 ≤ r ∧ r < (m.vlmax : Int)) ∧
      (if x < BitVec.ofNat 64 m.vlmax then getVreg d.src2 (asInt x) m.vsew m.vlmul false true
        else pure 0 : VExec Word) ⟨u.cpu, reads⟩ = .ok y ⟨u.cpu, reads ++ more⟩ := by
  have hmax := vlmax_le hl hmul
  have hnat : (BitVec.ofNat 64 m.vlmax).toNat = m.vlmax := by
    rw [BitVec.toNat_ofNat]
    exact Nat.mod_eq_of_lt (by omega)
  have hcond : x < BitVec.ofNat 64 m.vlmax ↔ x.toNat < m.vlmax := by rw [BitVec.lt_def, hnat]
  by_cases hx : x.toNat < m.vlmax
  · have hidx : asInt x = x.toNat := asInt_of_lt (by omega)
    have hv : m.elem m.vsew d.src2 x.toNat = m.gather d x.toNat := (if_pos hx).symm
    refine ⟨_, (setWidth_cut (sew_le hl.configured.sew) _).trans hv, fun reads => ?_⟩
    refine ⟨[(x.toNat : Int)], index_bounds hx, ?_⟩
    rw [if_pos (hcond.mpr hx), hidx]
    exact getVreg_before hl hmul hu hi (hl.src2 hmul) hx (hne hx) reads
  · refine ⟨0, ?_, fun reads => ⟨[], fun r hr => absurd hr List.not_mem_nil, ?_⟩⟩
    · rw [gather_beyond (Nat.not_lt.mp hx)]
      exact BitVec.setWidth_zero (sew m.vsew) 64
    · rw [if_neg (fun h => hx (hcond.mp h)), List.append_nil]
      rfl

theorem moves_gather {x : Word} (hne : x.toNat < m.vlmax → d.src2 = d.dest → i ≤ x.toNat)
    (hcode : vopValue o.executor d m.vsew m.vlmul m.vlmax i (m.csr .vl) (u.cpu.maskWord i)
      (m.vs2Value d o.executor.isSigned i) (m.srcValue d o.executor.isSigned i) =
        if x < BitVec.ofNat 64 m.vlmax then getVreg d.src2 (asInt x) m.vsew m.vlmul false true else pure 0) :
    Moves o m d i u (m.gather d x.toNat) := by
  unfold Moves
  rw [hcode]
  exact gather_run hl hmul hi hu hne

end Moves

theorem slideup_moves (hl : Elementwise m d) (hmul : m.vlmul ≤ 3) (hi : m.Body i) (hne : d.dest ≠ d.src2)
    (hu : Before m.vlmax ⟨m, []⟩ (slot m.vsew d.dest) (Active PermuteOp.slideup.executor d m) out i u) :
    Moves .slideup m d i u (PermuteOp.slideup.spec m d i) := by
  have hmax := vlmax_le hl hmul
  have hlt := index_lt hl hi
  have hidx := toNat_index hl hmul hi
  have hcode : vopValue .vslideup d m.vsew m.vlmul m.vlmax i (m.csr .vl) (u.cpu.maskWord i)
      (m.vs2Value d false i) (m.srcValue d false i) =
        if BitVec.ofNat 64 i ≥ m.srcValue d false i then
          getVreg d.src2 (asInt (BitVec.ofNat 64 i - m.srcValue d false i)) m.vsew m.vlmul false true
        else getVreg d.dest i m.vsew m.vlmul false true := rfl
  unfold PermuteOp.spec
  dsimp only
  by_cases hoff : i < m.offset d i
  · have hge : ¬ BitVec.ofNat 64 i ≥ m.srcValue d false i := by
      intro h
      have hle := BitVec.le_def.mp h
      rw [hidx] at hle
      exact absurd hoff (Nat.not_lt.mpr hle)
    rw [if_neg hge] at hcode
    rw [if_pos hoff]
    exact moves_read hl.configured.sew hlt rfl
      (getVreg_before hl hmul hu hi (hl.dest hmul) hlt fun _ => Nat.le_refl i) hcode
  · have hle : m.srcValue d false i ≤ BitVec.ofNat 64 i := by
      rw [BitVec.le_def, hidx]
      exact Nat.not_lt.mp hoff
    have hsub : (BitVec.ofNat 64 i - m.srcValue d false i).toNat = i - m.offset d i := by
      rw [BitVec.toNat_sub_of_le hle, hidx]
      rfl
    have hj : i - m.offset d i < m.vlmax := Nat.lt_of_le_of_lt (Nat.sub_le i _) hlt
    have hint : asInt (BitVec.ofNat 64 i - m.srcValue d false i) = (i - m.offset d i : Nat) := by
      rw [asInt_of_lt (by omega), hsub]
    rw [if_pos hle, hint] at hcode
    rw [if_neg hoff]
    exact moves_read hl.configured.sew hj rfl
      (getVreg_before hl hmul hu hi (hl.src2 hmul) hj fun h => absurd h.symm hne) hcode

theorem slide1up_moves (hl : Elementwise m d) (hmul : m.vlmul ≤ 3) (hi : m.Body i) (hne : d.dest ≠ d.src2)
    (hu : Before m.vlmax ⟨m, []⟩ (slot m.vsew d.dest) (Active PermuteOp.slide1up.executor d m) out i u) :
    Moves .slide1up m d i u (PermuteOp.slide1up.spec m d i) := by
  have hlt := index_lt hl hi
  have hcode : vopValue .vslide1up d m.vsew m.vlmul m.vlmax i (m.csr .vl) (u.cpu.maskWord i)
      (m.vs2Value d false i) (m.srcValue d false i) =
        if 0 < i then getVreg d.src2 (i - 1 : Nat) m.vsew m.vlmul false true
        else pure (m.srcValue d false i) := rfl
  unfold PermuteOp.spec
  dsimp only
  by_cases h0 : i = 0
  · rw [if_neg (Nat.not_lt.mpr (Nat.le_of_eq h0))] at hcode
    rw [if_pos h0]
    exact moves_pure (srcValue_cut hl.configured.sew false) hcode
  · have hj : i - 1 < m.vlmax := Nat.lt_of_le_of_lt (Nat.sub_le i 1) hlt
    rw [if_pos (Nat.pos_of_ne_zero h0)] at hcode
    rw [if_neg h0]
    exact moves_read hl.configured.sew hj rfl
      (getVreg_before hl hmul hu hi (hl.src2 hmul) hj fun h => absurd h.symm hne) hcode

theorem slide1down_moves (hl : Elementwise m d) (hmul : m.vlmul ≤ 3) (hi : m.Body i)
    (hu : Before m.vlmax ⟨m, []⟩ (slot m.vsew d.dest) (Active PermuteOp.slide1down.executor d m) out i u) :
    Moves .slide1down m d i u (PermuteOp.slide1down.spec m d i) := by
  have hidx := toNat_index hl hmul hi
  have hvl : (m.csr .vl).toNat ≤ m.vlmax := hl.configured.vl
  have hbelow := hi.2
  have hcode : vopValue .vslide1down d m.vsew m.vlmul m.vlmax i (m.csr .vl) (u.cpu.maskWord i)
      (m.vs2Value d false i) (m.srcValue d false i) =
        if BitVec.ofNat 64 i < m.csr .vl - 1 then getVreg d.src2 (i + 1 : Nat) m.vsew m.vlmul false true
        else pure (m.srcValue d false i) := rfl
  have hone : (1 : Word) ≤ m.csr .vl := BitVec.le_def.mpr (Nat.succ_le_of_lt (Nat.zero_lt_of_lt hbelow))
  have hlast : BitVec.ofNat 64 i < m.csr .vl - 1 ↔ i + 1 < (m.csr .vl).toNat := by
    rw [BitVec.lt_def, BitVec.toNat_sub_of_le hone, hidx]
    exact Nat.lt_sub_iff_add_lt
  unfold PermuteOp.spec
  dsimp only
  by_cases h : i + 1 < (m.csr .vl).toNat
  · have hj : i + 1 < m.vlmax := Nat.lt_of_lt_of_le h hvl
    rw [if_pos (hlast.mpr h)] at hcode
    rw [if_pos h]
    exact moves_read hl.configured.sew hj rfl
      (getVreg_before hl hmul hu hi (hl.src2 hmul) hj fun _ => Nat.le_succ i) hcode
  · rw [if_neg (fun hc => h (hlast.mp hc))] at hcode
    rw [if_neg h]
    exact moves_pure (srcValue_cut hl.configured.sew false) hcode

theorem rgather_moves (hl : Elementwise m d) (hmul : m.vlmul ≤ 3) (hi : m.Body i) (hne : d.dest ≠ d.src2)
    (hu : Before m.vlmax ⟨m, []⟩ (slot m.vsew d.dest) (Active PermuteOp.rgather.executor d m) out i u) :
    Moves .rgather m d i u (PermuteOp.rgather.spec m d i) :=
  moves_gather hl hmul hi hu (fun _ h => absurd h.symm hne) rfl

theorem index_group {vsew vlmul : Nat} (hsew : vsew ≤ 3) (hmul : vlmul ≤ 3) (hi : i < vlmaxOf vsew vlmul) :
    i / elemNum 1 < 2 ^ indexMul vsew vlmul := by
  have hcount : vlmaxOf vsew vlmul ≤ 8 * 2 ^ indexMul vsew vlmul := by
    rcases le_three hsew with rfl | rfl | rfl | rfl <;>
      rcases le_three hmul with rfl | rfl | rfl | rfl <;> decide
  have h8 : elemNum 1 = 8 := rfl
  rw [h8]
  exact Nat.div_lt_of_lt_mul (Nat.lt_of_lt_of_le hi hcount)

theorem rgatherei16_moves (hlegal : PermuteLegal .rgatherei16 m d) (hl : Elementwise m d) (hmul : m.vlmul ≤ 3)
    (hi : m.Body i) (ha : Aligned m.vlmul d.src1)
    (hu : Before m.vlmax ⟨m, []⟩ (slot m.vsew d.dest) (Active PermuteOp.rgatherei16.executor d m) out i u) :
    Moves .rgatherei16 m d i u (PermuteOp.rgatherei16.spec m d i) := by
  have hsew := hl.configured.sew
  have hlt := index_lt hl hi
  obtain ⟨-, hgroup, hfits, hover⟩ := hlegal.index hmul rfl
  have hdiv := index_group hsew hmul hlt
  have hend : d.src1.toNat + 2 ^ indexMul m.vsew m.vlmul ≤ 32 := Aligned.le hgroup hfits
  -- the index is read as it was
  have hreg : d.src1.toNat + i / elemNum 1 < 32 := by omega
  have hsame : u.cpu.elem 1 d.src1 i = m.elem 1 d.src1 i := by
    apply elem_before hu
    intro k _ hk _ heq
    have hk' := hk.trans hlt
    rw [Machine.vlmax, vlmaxOf_eq hsew hmul] at hk'
    have hplace := slot_group hsew hmul (hl.dest hmul) hk'
    have hin := group_index hsew hk'
    rw [← heq, slot_reg hreg] at hplace
    generalize k / elemNum m.vsew = q at hplace hin
    generalize i / elemNum 1 = r at hplace hdiv
    omega
  have hread : ∀ reads, getVreg d.src1 i 1 m.vlmul false true ⟨u.cpu, reads⟩ =
      .ok ((m.elem 1 d.src1 i).setWidth 64) ⟨u.cpu, reads ++ [(i : Int)]⟩ := by
    intro reads
    have hext : ∀ x : BitVec (sew 1), extendElem 1 false x = x.setWidth 64 := fun x => if_neg fun h => by cases h.1
    rw [getVreg_eq (vregPlace_eq (by decide) hmul (fun _ => ha) hreg), hext, ← hsame]
    rfl
  have hcode : vopValue .vrgatherei16 d m.vsew m.vlmul m.vlmax i (m.csr .vl) (u.cpu.maskWord i)
      (m.vs2Value d false i) (m.srcValue d false i) =
        (getVreg d.src1 i 1 m.vlmul false true >>= fun j =>
          if j < BitVec.ofNat 64 m.vlmax then getVreg d.src2 (asInt j) m.vsew m.vlmul false true
          else pure 0) := rfl
  have hne : d.dest ≠ d.src2 := hlegal.apart2 rfl
  obtain ⟨y, hy, hrun⟩ := gather_run (x := (m.elem 1 d.src1 i).setWidth 64) hl hmul hi hu
    fun _ h => absurd h.symm hne
  rw [setWidth_toNat (by decide)] at hy
  refine ⟨y, hy, fun reads => ?_⟩
  obtain ⟨more, hlow, hmore⟩ := hrun (reads ++ [(i : Int)])
  refine ⟨[(i : Int)] ++ more, ?_, ?_⟩
  · intro r hr
    rcases List.mem_append.mp hr with hr | hr
    · exact index_bounds hlt r hr
    · exact hlow r hr
  · have hall : vopValue .vrgatherei16 d m.vsew m.vlmul m.vlmax i (m.csr .vl) (u.cpu.maskWord i)
        (m.vs2Value d false i) (m.srcValue d false i) ⟨u.cpu, reads⟩ =
          .ok y ⟨u.cpu, reads ++ [(i : Int)] ++ more⟩ := by
      rw [hcode]
      exact (bind_ok (hread reads)).trans hmore
    rw [List.append_assoc] at hall
    exact hall

theorem elem_written {a : Arthi} {n : Nat} {v : BitVec (sew m.vsew)} (hl : Elementwise m d) (hmul : m.vlmul ≤ 3)
    (hi : m.Body i) (hu : Before n ⟨m, []⟩ (slot m.vsew d.dest) (Active a d m) out i u)
    (hstart : (m.csr .vstart).toNat ≤ j) (hj : j < i) (hact : Active a d m j) (hv : out j = some v) :
    u.cpu.elem m.vsew d.dest j = v := by
  have hval : (fun i => if Active a d m i then out i else none) j = some v := (if_pos hact).trans hv
  have hcpu : u.cpu.vr = m.vrBefore (slot m.vsew d.dest) (Active a d m) out i := congrArg Machine.vr hu.1
  unfold Machine.elem
  rw [hcpu]
  apply Packed.get_setAll hstart (by omega) hval (hl.fits j)
  intro k hk1 hk2 heq
  have hb : ∀ k, (m.csr .vstart).toNat ≤ k → k < i → m.Body k := fun k h1 h2 => ⟨h1, h2.trans hi.2⟩
  exact hl.inj hmul (hb k hk1 (by omega)) (hb j hstart hj) heq

/-- The rounds of `vslidedown` write to the element, where the source is the destination. -/
theorem slidedown_moves (hl : Elementwise m d) (hmul : m.vlmul ≤ 3) (hi : m.Body i) {off : Word}
    (hoff : m.srcValue d false i = off)
    (hu : Before m.vlmax ⟨m, []⟩ (slot m.vsew d.dest) (Active PermuteOp.slidedown.executor d m)
      (fun i => some (slideValue m d off i)) i u) :
    Moves .slidedown m d i u (slideValue m d off i) := by
  have hsew := hl.configured.sew
  have hlt := index_lt hl hi
  have hmax := vlmax_le hl hmul
  have hidx := toNat_index hl hmul hi
  have hbound := off.isLt
  have hcode : vopValue .vslidedown d m.vsew m.vlmul m.vlmax i (m.csr .vl) (u.cpu.maskWord i)
      (m.vs2Value d false i) (m.srcValue d false i) =
        if BitVec.ofNat 64 i + m.srcValue d false i < BitVec.ofNat 64 m.vlmax then
          getVreg d.src2 (asInt (BitVec.ofNat 64 i + m.srcValue d false i)) m.vsew m.vlmul false true
        else pure 0 := rfl
  rw [hoff] at hcode
  have hsum : (BitVec.ofNat 64 i + off).toNat = (i + off.toNat) % 2 ^ 64 := by rw [BitVec.toNat_add, hidx]
  rw [slideValue]
  by_cases hwrap : i + off.toNat < 2 ^ 64
  · rw [Nat.mod_eq_of_lt hwrap] at hsum
    have hmoves : Moves .slidedown m d i u (m.gather d (BitVec.ofNat 64 i + off).toNat) := by
      apply moves_gather hl hmul hi hu
      · intro _ _
        rw [hsum]
        exact Nat.le_add_right i _
      · rw [← hcode, ← hoff]
        rfl
    rw [hsum] at hmoves
    rw [if_pos hwrap]
    exact hmoves
  · -- the sum wraps to an index below
    have hj : (BitVec.ofNat 64 i + off).toNat = i + off.toNat - 2 ^ 64 := by omega
    have hjlt : i + off.toNat - 2 ^ 64 < i := by omega
    rw [if_neg hwrap]
    generalize i + off.toNat - 2 ^ 64 = j at hj hjlt
    have hjmax : j < m.vlmax := hjlt.trans hlt
    have hcond : BitVec.ofNat 64 i + off < BitVec.ofNat 64 m.vlmax := by
      rw [BitVec.lt_def, hj, BitVec.toNat_ofNat, Nat.mod_eq_of_lt (by omega)]
      exact hjmax
    have hint : asInt (BitVec.ofNat 64 i + off) = j := by rw [asInt_of_lt (by omega), hj]
    rw [if_pos hcond, hint, ← hoff] at hcode
    have hv : u.cpu.elem m.vsew d.src2 j =
        if m.Overwrites d j then slideValue m d off j else m.elem m.vsew d.src2 j := by
      by_cases hover : m.Overwrites d j
      · rw [if_pos hover, ← hover.1]
        exact elem_written hl hmul hi hu hover.2.1 hjlt hover.2.2 rfl
      · rw [if_neg hover]
        apply elem_before hu
        intro k hk1 hk hact
        apply slot_apart hsew hmul (hl.src2 hmul) (hl.dest hmul) hjmax (hk.trans hlt)
        rintro heq rfl
        exact hover ⟨heq.symm, hk1, hact⟩
    refine ⟨_, (setWidth_cut (sew_le hsew) _).trans hv, fun reads => ⟨[(j : Int)], index_bounds hjmax, ?_⟩⟩
    exact (congrFun hcode _).trans (getVreg_elem hsew hmul (hl.src2 hmul) hjmax reads)

end Rounds

section Unaligned

variable {a : Arthi} {d : VDecode} {s t : VState} {n i : Nat}

theorem vopRound_skip (hi : i < vlen) (h : s.cpu.Skips a d i) : vopRound a d n i s = .ok () s := by
  unfold vopRound
  rw [get_bind]
  refine (bind_ok (getMask_eq hi)).trans ?_
  rw [if_pos ⟨h.1, h.2.1, maskWord_eq_zero.mpr h.2.2⟩]
  rfl

/-- The assertion of the first read of the group of indices. -/
theorem vopRound_unaligned (hi : i < vlen) (h : ¬ s.cpu.Skips a d i) (hvv : d.srcVmode = .vv)
    (ha : ¬ Aligned s.cpu.vlmul d.src1) : vopRound a d n i s ≠ .ok () t := by
  intro hrun
  have hplace : ∀ idx, vregPlace d.src1 idx s.cpu.vsew s.cpu.vlmul true = none :=
    fun idx => if_neg fun hall => ha (hall.2.2.1 rfl)
  have hsrc : ∀ u x t, srcOperand a d s.cpu.vsew s.cpu.vlmul i u ≠ .ok x t := by
    intro u x t hok
    unfold srcOperand at hok
    rw [hvv] at hok
    obtain ⟨y, v, hget, -⟩ := ok_of_bind hok
    unfold getVreg at hget
    rw [hplace] at hget
    cases hget
  unfold vopRound at hrun
  rw [get_bind] at hrun
  obtain ⟨mask, u, hmask, hrest⟩ := ok_of_bind hrun
  cases (getMask_eq hi).symm.trans hmask
  rw [if_neg fun hc => h ⟨hc.1, hc.2.1, maskWord_eq_zero.mp hc.2.2⟩] at hrest
  obtain ⟨s0, u, -, hrest⟩ := ok_of_bind hrest
  obtain ⟨s1, u', hs1, -⟩ := ok_of_bind hrest
  exact hsrc u s1 u' hs1

end Unaligned

section Claim

variable {o : PermuteOp} {m : Machine} {d : VDecode} {i : Nat} {instr : BitVec 32}

instance (vlmul : Nat) (reg : BitVec 5) : Decidable (Aligned vlmul reg) := inferInstanceAs (Decidable (_ = _))

/-- The element that a round writes. -/
def PermuteOp.out (o : PermuteOp) (m : Machine) (d : VDecode) (i : Nat) : Option (BitVec (sew m.vsew)) :=
  match o with
  | slidedown => some (slideValue m d (m.srcValue d false 0) i)
  | rgatherei16 => if Aligned m.vlmul d.src1 then some (PermuteOp.rgatherei16.spec m d i) else none
  | o => some (o.spec m d i)

theorem unaligned_round {u : VState} {out : Nat → Option (BitVec (sew m.vsew))}
    (hl : PermuteLegal .rgatherei16 m d) (hmul : m.vlmul ≤ 3) (ha : ¬ Aligned m.vlmul d.src1) (hi : m.Body i)
    (hu : Before m.vlmax ⟨m, []⟩ (slot m.vsew d.dest) (Active PermuteOp.rgatherei16.executor d m) out i u) :
    RoundGives PermuteOp.rgatherei16.executor d m.vlmax i u (slot m.vsew d.dest i)
      (Active PermuteOp.rgatherei16.executor d m i) (none : Option (BitVec (sew m.vsew))) := by
  have hlt := hi.lt_vlmax hl.configured
  have hlen : i < vlen := Nat.lt_of_lt_of_le hlt (vlmaxOf_le hl.configured.sew hmul)
  have hmulu : u.cpu.vlmul = m.vlmul := by
    rw [hu.1]
    rfl
  have hskip : u.cpu.Skips PermuteOp.rgatherei16.executor d i ↔ m.Skips PermuteOp.rgatherei16.executor d i := by
    apply and_congr_right
    intro hvm
    have hbit : u.cpu.maskBit 0 i = m.maskBit 0 i := by
      apply maskBit_before hu
      intro k _ hk _ hreg
      exact absurd hreg.symm
        (slot_ne_zero hl.configured.sew hmul (hl.dest hmul) (hk.trans hlt) (hl.mask hvm))
    rw [hbit]
  constructor
  · intro hact
    exact vopRound_skip hlen (hskip.mpr (not_not.mp hact))
  · intro _ x hx
    cases hx
  · intro hact _ u'
    exact vopRound_unaligned hlen (fun h => hact (hskip.mp h)) (hl.index hmul rfl).1 (by rwa [hmulu])

theorem permute_rounds (hl : PermuteLegal o m d) (hmul : m.vlmul ≤ 3) :
    Rounds o.executor d ⟨m, []⟩ (slot m.vsew d.dest) (Active o.executor d m) (o.out m d) := by
  have hcfg := hl.configured
  constructor
  · exact fun i _ => slot_fits hcfg.sew d.dest i
  · intro i k hi hk heq
    have h1 := hi.lt_vlmax hcfg
    have h2 := hk.lt_vlmax hcfg
    rw [vlmaxOf_eq hcfg.sew hmul] at h1 h2
    exact slot_inj hcfg.sew hmul (hl.dest hmul) h1 h2 heq
  · intro i u hi hu
    cases o with
    | slideup =>
      have he := hl.elementwise fun _ h => by cases h
      exact (slideup_moves he hmul hi (hl.apart2 rfl) hu).round he hmul hi hu
    | slidedown =>
      have he := hl.elementwise fun _ h => by cases h
      have hoff : m.srcValue d false i = m.srcValue d false 0 :=
        BitVec.eq_of_toNat_eq (offset_scalar (hl.scalar rfl) i)
      exact (slidedown_moves he hmul hi hoff hu).round he hmul hi hu
    | slide1up =>
      have he := hl.elementwise fun _ h => by cases h
      exact (slide1up_moves he hmul hi (hl.apart2 rfl) hu).round he hmul hi hu
    | slide1down =>
      have he := hl.elementwise fun _ h => by cases h
      exact (slide1down_moves he hmul hi hu).round he hmul hi hu
    | rgather =>
      have he := hl.elementwise fun _ h => by cases h
      exact (rgather_moves he hmul hi (hl.apart2 rfl) hu).round he hmul hi hu
    | rgatherei16 =>
      have hout : PermuteOp.rgatherei16.out m d i =
          if Aligned m.vlmul d.src1 then some (PermuteOp.rgatherei16.spec m d i) else none := rfl
      rw [hout]
      by_cases ha : Aligned m.vlmul d.src1
      · have he := hl.elementwise fun _ _ => ha
        rw [if_pos ha]
        exact (rgatherei16_moves hl he hmul hi ha hu).round he hmul hi hu
      · rw [if_neg ha]
        exact unaligned_round hl hmul ha hi hu

theorem PermuteOp.exact_iff (hl : PermuteLegal o m d) (hmul : m.vlmul ≤ 3) :
    (∀ i, m.Body i → Active o.executor d m i → o.out m d i = some (o.spec m d i)) ↔
      ∀ i, m.Body i → Active o.executor d m i → o.Exact m d i := by
  cases o with
  | slidedown =>
    have hoff : ∀ i, m.offset d i = (m.srcValue d false 0).toNat := offset_scalar (hl.scalar rfl)
    have hslide := slideValue_iff (vlmaxOf_le hl.configured.sew hmul) (fun j hj => hj.lt_vlmax hl.configured)
      hoff
    refine Iff.trans ?_ hslide
    exact ⟨fun h i hi hact => Option.some.inj (h i hi hact), fun h i hi hact => congrArg some (h i hi hact)⟩
  | rgatherei16 =>
    constructor
    · intro h i hi hact
      by_contra ha
      have hout := h i hi hact
      have hnone : PermuteOp.rgatherei16.out m d i = none := if_neg ha
      cases hnone.symm.trans hout
    · exact fun h i hi hact => if_pos (h i hi hact)
  | slideup | slide1up | slide1down | rgather => exact ⟨fun _ _ _ _ => trivial, fun _ _ _ _ => rfl⟩

/-- The slides and gathers move the elements that the V extension defines, and read no others, if, and
only if, the groups are whole, no sum of `vslidedown` wraps to an element other than zero, and
`vrgatherei16` finds its indices in a group as aligned as the others. -/
theorem permute_exact_iff (hsel : tableOpV instr = some o.executor) (hl : PermuteLegal o m (decodeOpV m instr)) :
    (∃ t, Executes instr ⟨m, []⟩ t ∧
      Writes m t.cpu (slot m.vsew (decodeOpV m instr).dest) (Active o.executor (decodeOpV m instr) m)
        (o.spec m (decodeOpV m instr)) ∧
      ReadsBelow m.vlmax ⟨m, []⟩ t) ↔
    m.vlmul ≤ 3 ∧ ∀ i, m.Body i → Active o.executor (decodeOpV m instr) m i →
      o.Exact m (decodeOpV m instr) i := by
  have hwrites : (∃ t, Executes instr ⟨m, []⟩ t ∧ Writes m t.cpu (slot m.vsew (decodeOpV m instr).dest)
      (Active o.executor (decodeOpV m instr) m) (o.spec m (decodeOpV m instr))) ↔ _ :=
    executes_writes_iff hsel o.all_modes hl.configured (permute_rounds hl)
  constructor
  · rintro ⟨t, ht, hw, -⟩
    obtain ⟨hmul, hall⟩ := hwrites.mp ⟨t, ht, hw⟩
    exact ⟨hmul, (PermuteOp.exact_iff hl hmul).mp hall⟩
  · rintro ⟨hmul, hexact⟩
    obtain ⟨t, ht, hw⟩ := hwrites.mpr ⟨hmul, (PermuteOp.exact_iff hl hmul).mpr hexact⟩
    exact ⟨t, ht, hw, executes_readsBelow hsel o.all_modes hl.configured hmul (permute_rounds hl hmul) ht⟩

/-- Two elements of eight bits, 5 and 7 in `v2`, with the offsets 1 and `2 ^ 64 - 1` in registers. -/
def slideState : Machine :=
  { configuredAs 0 2 fun r => if r = 2 then 0x0705 else 0 with
    gpr := fun r => if r = 5 then 1 else if r = 6 then -1 else 0 }

theorem slideState_legal (d : VDecode) (hvm : d.vm = true) (hvx : d.srcVmode = .vx) :
    PermuteLegal .slidedown slideState d := by
  have hcfg : Configured slideState := ⟨by decide, .inl (by decide), by decide, by decide⟩
  have he : Elementwise slideState d := elementwise_single (by decide) hcfg hvm
  constructor
  · exact hcfg
  · intro _ h
    cases hvx.symm.trans h
  · exact he.src2
  · intro hmul h
    cases hvx.symm.trans h
  · exact he.dest
  · exact he.mask
  · intro h
    cases h
  · intro h
    cases h
  · intro _ h
    cases h

/-- `vslidedown.vx v1, v2, t0` moves the second element to the first. -/
theorem permute_exact_one :
    (∃ t, Executes 0x3e22c0d7 ⟨slideState, []⟩ t ∧
      Writes slideState t.cpu (slot 0 1) (Active .vslidedown (decodeOpV slideState 0x3e22c0d7) slideState)
        (PermuteOp.slidedown.spec slideState (decodeOpV slideState 0x3e22c0d7)) ∧
      ReadsBelow 16 ⟨slideState, []⟩ t) ∧
    PermuteOp.slidedown.spec slideState (decodeOpV slideState 0x3e22c0d7) 0 = 7 := by
  constructor
  · apply (permute_exact_iff (o := .slidedown) (by decide) (slideState_legal _ (by decide) (by decide))).mpr
    refine ⟨by decide, fun i hi _ => .inl ?_⟩
    have hlt : i < 2 := hi.2
    have hoff : slideState.offset (decodeOpV slideState 0x3e22c0d7) i = 1 := rfl
    omega
  · decide

/-- `vslidedown.vx v1, v2, t1` moves the first element to the second, where zero is to be. -/
theorem permute_wraps :
    PermuteLegal .slidedown slideState (decodeOpV slideState 0x3e2340d7) ∧
    tableOpV 0x3e2340d7 = some PermuteOp.slidedown.executor ∧
    PermuteOp.slidedown.spec slideState (decodeOpV slideState 0x3e2340d7) 1 = 0 ∧
    ¬ ∃ t, Executes 0x3e2340d7 ⟨slideState, []⟩ t ∧
      Writes slideState t.cpu (slot 0 1) (Active .vslidedown (decodeOpV slideState 0x3e2340d7) slideState)
        (PermuteOp.slidedown.spec slideState (decodeOpV slideState 0x3e2340d7)) := by
  have hl := slideState_legal (decodeOpV slideState 0x3e2340d7) (by decide) (by decide)
  have hsel : tableOpV 0x3e2340d7 = some PermuteOp.slidedown.executor := by decide
  refine ⟨hl, hsel, by decide, fun h => ?_⟩
  obtain ⟨hmul, hall⟩ := (executes_writes_iff hsel PermuteOp.slidedown.all_modes hl.configured (permute_rounds hl)).mp h
  have hone := (PermuteOp.exact_iff hl hmul).mp hall 1 ⟨by decide, by decide⟩ (by decide)
  rcases hone with h | h | h
  · exact absurd h (by decide)
  · exact absurd h (by decide)
  · exact absurd h (by decide)

end Claim

end Nemu
