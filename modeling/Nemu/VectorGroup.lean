import Nemu.Vcompute

namespace Nemu

open Effect

set_option autoImplicit true

/-- Bit `k` of the registers from `reg` on, the first of them lowest. -/
def Machine.groupBit (m : Machine) (reg : BitVec 5) (k : Nat) : Bool :=
  (m.vr (reg + BitVec.ofNat 5 (k / vlen))).getLsbD (k % vlen)

/-- What `get_vreg` is to return for an element. -/
def widened (isSigned : Bool) (x : BitVec w) : Word := if isSigned then x.signExtend 64 else x.setWidth 64

/-- From `m` to `t` the bits of element `i` have changed to those of `x`, and nothing else. -/
structure ElementSet (m t : Machine) (vsew : Nat) (reg : BitVec 5) (i : Nat) (x : Word) : Prop where
  bits : ∀ k, reg.toNat * vlen + k < 32 * vlen → t.groupBit reg k =
    if i * sew vsew ≤ k ∧ k < i * sew vsew + sew vsew then x.getLsbD (k - i * sew vsew) else m.groupBit reg k
  before : ∀ r : BitVec 5, r.toNat < reg.toNat → t.vr r = m.vr r
  rest : t = { m with vr := t.vr }

variable {m t : Machine} {s : VState} {vsew vlmul i j k b : Nat} {reg : BitVec 5} {x : Word} {sg al : Bool}

section Bits

theorem slot_bit (hsew : vsew ≤ 3) (hb : b < sew vsew) :
    (i * sew vsew + b) / vlen = i / elemNum vsew ∧
      (i * sew vsew + b) % vlen = i % elemNum vsew * sew vsew + b := by
  have hpos : 0 < sew vsew := Nat.lt_of_le_of_lt (Nat.zero_le b) hb
  have hquot : (i * sew vsew + b) / sew vsew = i := by
    rw [Nat.mul_comm, Nat.mul_add_div hpos, Nat.div_eq_of_lt hb, Nat.add_zero]
  have hrem : (i * sew vsew + b) % sew vsew = b := by
    rw [Nat.mul_comm, Nat.mul_add_mod, Nat.mod_eq_of_lt hb]
  rw [← elemNum_mul_sew hsew, Nat.mul_comm (elemNum vsew)]
  constructor
  · rw [← Nat.div_div_eq_div_mul, hquot]
  · rw [Nat.mod_mul, hquot, hrem, Nat.mul_comm, Nat.add_comm]

theorem elem_bit (hsew : vsew ≤ 3) (hb : b < sew vsew) :
    (m.elem vsew reg i).getLsbD b = m.groupBit reg (i * sew vsew + b) := by
  obtain ⟨hdiv, hmod⟩ := slot_bit (i := i) hsew hb
  unfold Machine.groupBit Machine.elem Packed.get slot
  rw [hdiv, hmod, BitVec.getLsbD_extractLsb', decide_eq_true hb, Bool.true_and]

theorem reg_add_inj {p q : Nat} (hp : reg.toNat + p < 32) (hq : reg.toNat + q < 32) :
    reg + BitVec.ofNat 5 p = reg + BitVec.ofNat 5 q ↔ p = q := by
  constructor
  · intro h
    have hnat := congrArg BitVec.toNat h
    rw [BitVec.toNat_add, BitVec.toNat_add, BitVec.toNat_ofNat, BitVec.toNat_ofNat] at hnat
    omega
  · rintro rfl
    rfl

theorem groupBit_set (hsew : vsew ≤ 3) (hi : reg.toNat + i / elemNum vsew < 32)
    (hk : reg.toNat * vlen + k < 32 * vlen) (y : BitVec (sew vsew)) :
    ({ m with vr := Packed.set m.vr (slot vsew reg i) y } : Machine).groupBit reg k =
      if i * sew vsew ≤ k ∧ k < i * sew vsew + sew vsew then y.getLsbD (k - i * sew vsew)
      else m.groupBit reg k := by
  have hreg : reg.toNat + k / vlen < 32 := by
    unfold vlen at hk ⊢
    omega
  have hsplit := Nat.div_add_mod i (elemNum vsew)
  have hkdiv := Nat.div_add_mod k vlen
  have hkmod : k % vlen < vlen := Nat.mod_lt k (by decide)
  have hfits := slot_fits hsew reg i
  have hwhole : i * sew vsew = vlen * (i / elemNum vsew) + i % elemNum vsew * sew vsew := by
    rw [← elemNum_mul_sew hsew, Nat.mul_right_comm, ← Nat.add_mul, hsplit]
  unfold Machine.groupBit Packed.set
  change i % elemNum vsew * sew vsew + sew vsew ≤ vlen at hfits
  dsimp only [slot]
  generalize i % elemNum vsew * sew vsew = low at hfits hwhole ⊢
  generalize i / elemNum vsew = q at hi hwhole ⊢
  generalize k / vlen = r at hkdiv hreg ⊢
  generalize k % vlen = c at hkdiv hkmod ⊢
  unfold vlen at hfits hwhole hkdiv hkmod
  by_cases heq : r = q
  · subst heq
    rw [Function.update_self, BitField.getLsbD_insert, decide_eq_true hkmod, Bool.true_and]
    by_cases hin : low ≤ c ∧ c < low + sew vsew
    · rw [if_pos hin, if_pos (by omega)]
      congr 1
      omega
    · rw [if_neg hin, if_neg (by omega)]
  · rw [Function.update_of_ne fun h => heq ((reg_add_inj hreg hi).mp h), if_neg]
    omega

end Bits

section Access

theorem element_set (hsew : vsew ≤ 3) (hi : reg.toNat + i / elemNum vsew < 32) : ElementSet m
    { m with vr := Packed.set m.vr (slot vsew reg i) (x.setWidth (sew vsew)) } vsew reg i x := by
  constructor
  · intro k hk
    rw [groupBit_set hsew hi hk]
    by_cases hin : i * sew vsew ≤ k ∧ k < i * sew vsew + sew vsew
    · have hlt : k - i * sew vsew < sew vsew := by omega
      rw [if_pos hin, if_pos hin, BitVec.getLsbD_setWidth, decide_eq_true hlt, Bool.true_and]
    · rw [if_neg hin, if_neg hin]
  · intro r hr
    apply Function.update_of_ne
    intro h
    have hplace := slot_reg hi
    rw [← h] at hplace
    rw [hplace] at hr
    exact absurd hr (Nat.not_lt.mpr (Nat.le_add_right _ _))
  · rfl

theorem ElementSet.other (h : ElementSet m t vsew reg i x) (hsew : vsew ≤ 3)
    (hj : reg.toNat * vlen + (j + 1) * sew vsew ≤ 32 * vlen) (hne : j ≠ i) :
    t.elem vsew reg j = m.elem vsew reg j := by
  apply BitVec.eq_of_getLsbD_eq
  intro b hb
  rw [Nat.add_mul, Nat.one_mul] at hj
  rw [elem_bit hsew hb, elem_bit hsew hb, h.bits _ (by omega), if_neg]
  rcases Nat.lt_or_gt_of_ne hne with hlt | hgt
  · have hmul := Nat.mul_le_mul_right (sew vsew) (Nat.succ_le_of_lt hlt)
    rw [Nat.succ_mul] at hmul
    omega
  · have hmul := Nat.mul_le_mul_right (sew vsew) (Nat.succ_le_of_lt hgt)
    rw [Nat.succ_mul] at hmul
    omega

theorem extendElem_eq_iff {y : BitVec (sew vsew)} (hsew : vsew ≤ 3) :
    extendElem vsew sg y = widened sg y ↔ (sg = true → vsew = 2 → y.getLsbD 31 = false) := by
  unfold extendElem widened
  cases sg with
  | false => simp
  | true =>
    by_cases h2 : vsew = 2
    · subst h2
      have hmsb : y.msb = y.getLsbD 31 := BitVec.msb_eq_getLsbD_last y
      rw [if_neg fun h => h.2 rfl, if_pos rfl, ← hmsb]
      constructor
      · intro h _ _
        have hbit := congrArg (fun z : Word => z.getLsbD 63) h
        rw [BitVec.getLsbD_setWidth, BitVec.getLsbD_signExtend, BitVec.getLsbD_of_ge y 63 (by decide),
          if_neg (by decide)] at hbit
        exact hbit.symm
      · intro h
        rw [BitVec.signExtend_eq_setWidth_of_msb_false (h rfl rfl)]
    · rw [if_pos ⟨rfl, h2⟩, if_pos rfl]
      exact ⟨fun _ _ h => absurd h h2, fun _ => rfl⟩

theorem group_inside (hsew : vsew ≤ 3) (hmul : vlmul ≤ 3) (ha : Aligned vlmul reg)
    (hj : j < vlmaxOf vsew vlmul) : reg.toNat * vlen + (j + 1) * sew vsew ≤ 32 * vlen := by
  rw [vlmaxOf_eq hsew hmul] at hj
  have hle := ha.le hmul
  have hend := Nat.mul_le_mul_right (sew vsew) (Nat.succ_le_of_lt hj)
  rw [Nat.mul_assoc, elemNum_mul_sew hsew] at hend
  have hfile := Nat.mul_le_mul_right vlen hle
  rw [Nat.add_mul] at hfile
  exact (Nat.add_le_add_left hend _).trans hfile

/-- `set_vreg` changes the bits of the element and `get_vreg` returns them extended, if, and only if,
the group is made of whole registers and a signed element of 32 bits is not negative. Other elements
keep their value, and for each SEW an element is the bits of the group from its index times SEW on. -/
theorem element_exact_iff (hsew : vsew ≤ 3) (ha : vlmul ≤ 3 → Aligned vlmul reg)
    (hi : i < vlmaxOf vsew vlmul) :
    ((∃ t y u, setVreg reg i x vsew vlmul al s = .ok () t ∧
      getVreg reg i vsew vlmul sg al t = .ok y u ∧ y = widened sg (x.setWidth (sew vsew)) ∧
      ElementSet s.cpu t.cpu vsew reg i x) ↔
        vlmul ≤ 3 ∧ (sg = true → vsew = 2 → x.getLsbD 31 = false)) ∧
    (∀ t, setVreg reg i x vsew vlmul al s = .ok () t →
      ∀ j < vlmaxOf vsew vlmul, j ≠ i → t.cpu.elem vsew reg j = s.cpu.elem vsew reg j) ∧
    (vlmul ≤ 3 → ∀ vsew' ≤ 3, ∀ j < vlmaxOf vsew' vlmul, ∃ y u,
      getVreg reg j vsew' vlmul false al s = .ok y u ∧ u.cpu = s.cpu ∧
      ∀ b, y.getLsbD b = (decide (b < sew vsew') && s.cpu.groupBit reg (j * sew vsew' + b))) := by
  by_cases hmul : vlmul ≤ 3
  · have hgroup : ∀ vsew' ≤ 3, ∀ j < vlmaxOf vsew' vlmul,
        vregPlace reg j vsew' vlmul al = some (slot vsew' reg j) := by
      intro vsew' hsew' j hj
      rw [vlmaxOf_eq hsew' hmul] at hj
      exact vregPlace_group hsew' hmul (ha hmul) hj
    have hplace := hgroup vsew hsew i hi
    have hset := setVreg_eq (s := s) (x := x) hplace
    have hreg : reg.toNat + i / elemNum vsew < 32 := by
      rw [vlmaxOf_eq hsew hmul] at hi
      have hdiv := group_index hsew hi
      have hle := (ha hmul).le hmul
      omega
    have hchange : ElementSet s.cpu { s.cpu with vr := _ } vsew reg i x := element_set hsew hreg
    refine ⟨?_, ?_, ?_⟩
    · have hbit : vsew = 2 → (x.setWidth (sew vsew)).getLsbD 31 = x.getLsbD 31 := by
        rintro rfl
        rw [BitVec.getLsbD_setWidth]
        rfl
      have hread : Packed.get (sew vsew) (Packed.set s.cpu.vr (slot vsew reg i) (x.setWidth (sew vsew)))
          (slot vsew reg i) = x.setWidth (sew vsew) := Packed.get_set_self (slot_fits hsew reg i)
      have hext : extendElem vsew sg (x.setWidth (sew vsew)) = _ ↔ _ := extendElem_eq_iff hsew
      constructor
      · rintro ⟨t, y, u, ht, hy, hval, -⟩
        cases hset.symm.trans ht
        rw [getVreg_eq hplace, hread] at hy
        cases hy
        exact ⟨hmul, fun hsg h2 => hbit h2 ▸ hext.mp hval hsg h2⟩
      · rintro ⟨-, hcond⟩
        refine ⟨_, _, _, hset, getVreg_eq hplace, ?_, hchange⟩
        rw [hread]
        exact hext.mpr fun hsg h2 => (hbit h2).trans (hcond hsg h2)
    · intro t ht j hj hne
      cases hset.symm.trans ht
      exact hchange.other hsew (group_inside hsew hmul (ha hmul) hj) hne
    · intro _ vsew' hsew' j hj
      refine ⟨_, _, getVreg_eq (hgroup vsew' hsew' j hj), rfl, ?_⟩
      intro b
      have hplain : extendElem vsew' false (s.cpu.elem vsew' reg j) = (s.cpu.elem vsew' reg j).setWidth 64 :=
        if_neg fun h => Bool.false_ne_true h.1
      change (extendElem vsew' false (s.cpu.elem vsew' reg j)).getLsbD b = _
      rw [hplain, BitVec.getLsbD_setWidth]
      have hle := sew_le hsew'
      by_cases hb : b < sew vsew'
      · rw [elem_bit hsew' hb, decide_eq_true hb, decide_eq_true (Nat.lt_of_lt_of_le hb hle)]
      · rw [BitVec.getLsbD_of_ge _ _ (Nat.le_of_not_lt hb), decide_eq_false hb, Bool.and_false, Bool.false_and]
  · have hnone : vregPlace reg i vsew vlmul al = none := if_neg fun h => hmul h.1
    have hstop : ∀ t, setVreg reg i x vsew vlmul al s ≠ .ok () t := by
      intro t ht
      unfold setVreg at ht
      rw [hnone] at ht
      cases ht
    refine ⟨⟨?_, fun h => absurd h.1 hmul⟩, fun t ht => absurd ht (hstop t), fun h => absurd h hmul⟩
    rintro ⟨t, _, _, ht, _⟩
    exact absurd ht (hstop t)

/-- Element 5 of 32 bits is the second of `v3`, for the group `v2`, `v3`. -/
theorem element_exact_five : ∃ t y u, setVreg 2 5 0x123456789 2 1 true ⟨oddTarget, []⟩ = .ok () t ∧
    getVreg 2 5 2 1 true true t = .ok y u ∧ y = 0x23456789 ∧ t.cpu.groupBit 2 (5 * 32 + 29) = true := by
  have ha : Aligned 1 2 := rfl
  have hset : ∃ t y u, setVreg 2 5 0x123456789 2 1 true ⟨oddTarget, []⟩ = .ok () t ∧
      getVreg 2 5 2 1 true true t = .ok y u ∧ y = widened true (BitVec.setWidth (sew 2) (0x123456789 : Word)) ∧
      ElementSet oddTarget t.cpu 2 2 5 0x123456789 :=
    (element_exact_iff (by decide) (fun _ => ha) (by decide)).1.mpr ⟨by decide, fun _ _ => by decide⟩
  obtain ⟨t, y, u, ht, hy, hval, hchange⟩ := hset
  refine ⟨t, y, u, ht, hy, hval.trans (by decide), ?_⟩
  rw [hchange.bits _ (by decide)]
  decide

/-- A signed read of the 32 bits of `-2 ^ 31` gives `2 ^ 31`. -/
theorem element_signed_word :
    (∃ t y u, setVreg 2 5 0x80000000 2 1 true ⟨oddTarget, []⟩ = .ok () t ∧
      getVreg 2 5 2 1 true true t = .ok y u ∧ y = 0x80000000) ∧
    ¬ ∃ t y u, setVreg 2 5 0x80000000 2 1 true ⟨oddTarget, []⟩ = .ok () t ∧
      getVreg 2 5 2 1 true true t = .ok y u ∧ y = 0xffffffff80000000 := by
  have hplace : vregPlace 2 5 2 1 true = some (slot 2 2 5) := by decide
  have hset := setVreg_eq (s := ⟨oddTarget, []⟩) (x := 0x80000000) hplace
  constructor
  · refine ⟨_, _, _, hset, getVreg_eq hplace, ?_⟩
    rw [Packed.get_set_self (by decide)]
    decide
  · rintro ⟨t, y, u, ht, hy, hval⟩
    cases hset.symm.trans ht
    rw [getVreg_eq hplace, Packed.get_set_self (by decide)] at hy
    cases hy
    exact absurd hval (by decide)

end Access

end Nemu
