import Nemu.Lib.Run
import Nemu.Reset
import Nemu.Vreg

namespace Nemu

set_option autoImplicit true

inductive VsetvlId where
  | vsetvl | vsetvli | vsetivli

/-- The part of `Decode` that the configuration instructions use. `src1Val` is set for `vsetivli`. -/
structure VsetvlDecode where
  id : VsetvlId
  dest : BitVec 5
  src1 : BitVec 5
  src1Val : Word
  src2Val : Word

def vsewOf (v : Word) : Nat := (v.extractLsb' 3 3).toNat

def vlmulOf (v : Word) : Nat := (v.extractLsb' 0 3).toNat

section Code

def vsetvlDispatch (instr : BitVec 32) : Option VsetvlId :=
  if instr.getLsbD 31 = false then some .vsetvli
  else if instr.getLsbD 30 = true then some .vsetivli
  else if instr.extractLsb' 25 7 = 0b1000000 then some .vsetvl
  else none

/-- A register that holds `vtype` is read while the instruction is decoded, from `gpr`. -/
def decodeVsetvl (gpr : BitVec 5 → Word) (instr : BitVec 32) : Option VsetvlDecode :=
  (vsetvlDispatch instr).map fun id =>
    { id := id
      dest := instr.extractLsb' 7 5
      src1 := instr.extractLsb' 15 5
      src1Val := if instr.extractLsb' 30 2 = 0b11 then (instr.extractLsb' 15 5).setWidth 64 else 0
      src2Val :=
        if instr.extractLsb' 30 2 = 0b10 then gpr (instr.extractLsb' 20 5)
        else if instr.extractLsb' 30 2 = 0b11 then (instr.extractLsb' 20 10).setWidth 64
        else (instr.extractLsb' 20 11).setWidth 64 }

/-- The mode, with the value of the first source register loaded. -/
def getMode (d : VsetvlDecode) (s : Machine) : Nat × VsetvlDecode :=
  let d := { d with src1Val := s.gpr d.src1 }
  if d.src1 = 0 ∧ d.dest ≠ 0 then (1, d)
  else if d.src1 = 0 ∧ d.dest = 0 then (2, d)
  else (0, d)

/-- `none` where the shift amount is negative. -/
def checkVsetvl (vtypeReq vlReq oldVl : Word) (mode : Nat) : Option Word :=
  (getVlmax (vsewOf vtypeReq) (vlmulOf vtypeReq)).map fun n =>
    let vlmax : Word := BitVec.ofNat 64 n
    if mode = 1 then vlmax
    else if mode = 2 then oldVl
    else if 3 < vsewOf vtypeReq then -1
    else if vlReq ≤ vlmax then vlReq
    else if vlReq < 2 * vlmax then vlReq / 2 + 1
    else vlmax

def setVtypeVl (d : VsetvlDecode) (mode : Nat) (s : Machine) : Option Machine :=
  (checkVsetvl d.src2Val d.src1Val (s.csr .vl) mode).map fun vlNum : Word =>
    let s := s.setCsr .vtype (if vlNum = -1 then (1 : Word) <<< 63 else d.src2Val)
    let s := s.setCsr .vl vlNum
    let s := if d.dest ≠ 0 then { s with gpr := Function.update s.gpr d.dest vlNum } else s
    s.setCsr .vstart 0

def execVsetvl (d : VsetvlDecode) (s : Machine) : Option Machine :=
  match d.id with
  | .vsetvl | .vsetvli =>
    let (mode, d) := getMode d s
    setVtypeVl d mode s
  | .vsetivli => setVtypeVl d 0 s

end Code

section Steps

/-- A configuration instruction, with the registers as they are when it is decoded and when it is
executed. -/
structure Vsetvl where
  instr : BitVec 32
  decoding : BitVec 5 → Word
  gpr : BitVec 5 → Word

/-- Other instructions set the general registers in between. -/
def VsetvlStep (s : Machine) (e : Vsetvl) (t : Machine) : Prop :=
  ∃ d, decodeVsetvl e.decoding e.instr = some d ∧ execVsetvl d { s with gpr := e.gpr } = some t

def VsetvlDecode.mode (d : VsetvlDecode) : Nat :=
  match d.id with
  | .vsetivli => 0
  | _ => if d.src1 = 0 ∧ d.dest ≠ 0 then 1 else if d.src1 = 0 then 2 else 0

def VsetvlDecode.vlReq (d : VsetvlDecode) (gpr : BitVec 5 → Word) : Word :=
  match d.id with
  | .vsetivli => d.src1Val
  | _ => gpr d.src1

/-- AVL as the V extension defines it: without a source register, the greatest number, or the present
`vl` where there is no destination either. -/
def VsetvlDecode.avl (d : VsetvlDecode) (s : Machine) (gpr : BitVec 5 → Word) : Nat :=
  if d.mode = 1 then 2 ^ 64 - 1
  else if d.mode = 2 then (s.csr .vl).toNat
  else (d.vlReq gpr).toNat

def Machine.vill (s : Machine) : Bool := (s.csr .vtype).getLsbD 63

/-- Either `vill` is set and `vl` is zero, or `vl` is not beyond VLMAX. -/
def VlSafe (s : Machine) : Prop :=
  s.vill = true ∧ s.csr .vl = 0 ∨ s.vsew ≤ 3 ∧ (s.csr .vl).toNat ≤ vlmaxOf s.vsew s.vlmul

/-- The amount by which `check_vsetvl` shifts. -/
def VsetvlDecode.shift (d : VsetvlDecode) : Int := 3 + (vsewOf d.src2Val : Int) - vlmulOf d.src2Val

/-- What a configuration instruction from `s` to `t` is to do. -/
def Configures (s : Machine) (e : Vsetvl) (t : Machine) : Prop :=
  ∃ d, decodeVsetvl e.decoding e.instr = some d ∧ (0 ≤ d.shift ∧ d.shift < 32) ∧
    (t.vill = true ∧ t.csr .vl = 0 ∨
      t.vsew ≤ 3 ∧ (t.csr .vl).toNat ≤ vlmaxOf t.vsew t.vlmul ∧
        (d.avl s e.gpr ≤ vlmaxOf t.vsew t.vlmul → (t.csr .vl).toNat = d.avl s e.gpr) ∧
        (vlmaxOf t.vsew t.vlmul < d.avl s e.gpr → d.avl s e.gpr < 2 * vlmaxOf t.vsew t.vlmul →
          (d.avl s e.gpr + 1) / 2 ≤ (t.csr .vl).toNat))

/-- The requests that the code serves as it should. With a reserved SEW or LMUL these are requests for
no elements at all. -/
def VsetvlDecode.Served (d : VsetvlDecode) (s : Machine) (gpr : BitVec 5 → Word) : Prop :=
  vlmulOf d.src2Val ≤ 3 + vsewOf d.src2Val ∧
    (vsewOf d.src2Val ≤ 3 ∧ (vlmulOf d.src2Val ≤ 3 ∨ d.avl s gpr = 0) ∧
        (d.mode = 2 → (s.csr .vl).toNat ≤ vlmaxOf (vsewOf d.src2Val) (vlmulOf d.src2Val)) ∨
      3 < vsewOf d.src2Val ∧ d.src2Val.getLsbD 63 = true ∧
        (d.mode = 1 ∧ vlmulOf d.src2Val + 5 ≤ vsewOf d.src2Val ∨ d.mode = 2 ∧ s.csr .vl = 0))

def Served (s : Machine) (e : Vsetvl) : Prop :=
  ∃ d, decodeVsetvl e.decoding e.instr = some d ∧ d.Served s e.gpr

variable {d : VsetvlDecode} {s t : Machine} {v req old w : Word} {mode : Nat} {n : Nat}

theorem getMode_eq (d : VsetvlDecode) (s : Machine) :
    getMode d s = (if d.src1 = 0 ∧ d.dest ≠ 0 then 1 else if d.src1 = 0 then 2 else 0,
      { d with src1Val := s.gpr d.src1 }) := by
  unfold getMode
  dsimp only
  by_cases h : d.src1 = 0 ∧ d.dest ≠ 0
  · rw [if_pos h, if_pos h]
  · rw [if_neg h, if_neg h]
    by_cases h0 : d.src1 = 0
    · have hd : d.dest = 0 := not_not.mp fun hd => h ⟨h0, hd⟩
      rw [if_pos ⟨h0, hd⟩, if_pos h0]
    · rw [if_neg (fun h => h0 h.1), if_neg h0]

theorem execVsetvl_eq (d : VsetvlDecode) (s : Machine) :
    execVsetvl d s = setVtypeVl { d with src1Val := d.vlReq s.gpr } d.mode s := by
  obtain ⟨id, dest, src1, src1Val, src2Val⟩ := d
  cases id with
  | vsetivli => rfl
  | vsetvl | vsetvli =>
    unfold execVsetvl VsetvlDecode.mode
    dsimp only
    rw [getMode_eq]
    rfl

theorem setVtypeVl_fields (hw : checkVsetvl d.src2Val d.src1Val (s.csr .vl) mode = some w)
    (ht : setVtypeVl d mode s = some t) :
    t.csr .vl = w ∧ t.csr .vtype = if w = -1 then (1 : Word) <<< 63 else d.src2Val := by
  unfold setVtypeVl at ht
  rw [hw, Option.map_some] at ht
  cases ht
  dsimp only
  split <;> exact ⟨rfl, rfl⟩

theorem vsewOf_lt (v : Word) : vsewOf v < 8 := (v.extractLsb' 3 3).isLt

theorem vlmulOf_lt (v : Word) : vlmulOf v < 8 := (v.extractLsb' 0 3).isLt

/-- What the shift makes of VLMAX: it is right for the groups of whole registers, no less than 16 where
VLMAX is below one, and zero with some reserved SEW only. -/
theorem getVlmax_cases (hn : getVlmax (vsewOf v) (vlmulOf v) = some n) :
    n ≤ 128 ∧ vlmaxOf (vsewOf v) (vlmulOf v) ≤ 128 ∧
      (vsewOf v ≤ 3 → vlmulOf v ≤ 3 → n = vlmaxOf (vsewOf v) (vlmulOf v)) ∧
      (vsewOf v ≤ 3 → 3 < vlmulOf v → 16 ≤ n ∧ vlmaxOf (vsewOf v) (vlmulOf v) = 0) ∧
      (3 < vsewOf v → (n = 0 ↔ vlmulOf v + 5 ≤ vsewOf v)) := by
  have hbound : ∀ a < 8, ∀ b < 8, b ≤ 3 + a → vlen >>> (3 + a - b) ≤ 128 ∧ vlmaxOf a b ≤ 128 := by decide
  have hwhole : ∀ a < 4, ∀ b < 4, vlen >>> (3 + a - b) = vlmaxOf a b := by decide
  have hpart : ∀ a < 4, ∀ b < 8, b ≤ 3 + a → 3 < b → 16 ≤ vlen >>> (3 + a - b) ∧ vlmaxOf a b = 0 := by
    decide
  have hwide : ∀ a < 8, ∀ b < 8, 3 < a → (vlen >>> (3 + a - b) = 0 ↔ b + 5 ≤ a) := by decide
  have ha := vsewOf_lt v
  have hb := vlmulOf_lt v
  unfold getVlmax at hn
  obtain ⟨hle, hn⟩ := Option.ite_none_right_eq_some.mp hn
  cases hn
  obtain ⟨h1, h2⟩ := hbound _ ha _ hb hle
  exact ⟨h1, h2, fun h h' => hwhole _ (Nat.lt_succ_of_le h) _ (Nat.lt_succ_of_le h'),
    fun h h' => hpart _ (Nat.lt_succ_of_le h) _ hb hle h', hwide _ ha _ hb⟩

theorem checkVsetvl_toNat (hn : getVlmax (vsewOf v) (vlmulOf v) = some n) :
    ∃ w, checkVsetvl v req old mode = some w ∧
      w.toNat = if mode = 1 then n else if mode = 2 then old.toNat else if 3 < vsewOf v then 2 ^ 64 - 1
        else if req.toNat ≤ n then req.toNat else if req.toNat < 2 * n then req.toNat / 2 + 1 else n := by
  have hle := (getVlmax_cases hn).1
  have hreq := req.isLt
  have h1 : (BitVec.ofNat 64 n).toNat = n := by
    rw [BitVec.toNat_ofNat]
    exact Nat.mod_eq_of_lt (by omega)
  have h2 : (2 * BitVec.ofNat 64 n).toNat = 2 * n := by
    rw [BitVec.toNat_mul, h1]
    exact Nat.mod_eq_of_lt (show 2 * n < 2 ^ 64 by omega)
  have h3 : (req / 2 + 1).toNat = req.toNat / 2 + 1 := by
    rw [BitVec.toNat_add, BitVec.toNat_udiv]
    exact Nat.mod_eq_of_lt (show req.toNat / 2 + 1 < 2 ^ 64 by omega)
  unfold checkVsetvl
  rw [hn]
  refine ⟨_, rfl, ?_⟩
  simp only [BitVec.le_def, BitVec.lt_def, h1, h2, apply_ite BitVec.toNat, h3]
  rfl

/-- The numbers that `vl` may be given, where it is not the value of an error. -/
theorem served_numbers {a b n m old req avl w : Nat} (vill : Prop) (hn : n ≤ 128) (hmax : vlmaxOf a b ≤ 128)
    (hwhole : a ≤ 3 → b ≤ 3 → n = vlmaxOf a b) (hpart : a ≤ 3 → 3 < b → 16 ≤ n ∧ vlmaxOf a b = 0)
    (hwide : 3 < a → (n = 0 ↔ b + 5 ≤ a)) (hm : m ≤ 2)
    (havl : avl = if m = 1 then 2 ^ 64 - 1 else if m = 2 then old else req)
    (hw : w = if m = 1 then n else if m = 2 then old else if 3 < a then 2 ^ 64 - 1
      else if req ≤ n then req else if req < 2 * n then req / 2 + 1 else n) (herr : w ≠ 2 ^ 64 - 1) :
    (vill ∧ w = 0 ∨ a ≤ 3 ∧ w ≤ vlmaxOf a b ∧ (avl ≤ vlmaxOf a b → w = avl) ∧
        (vlmaxOf a b < avl → avl < 2 * vlmaxOf a b → (avl + 1) / 2 ≤ w)) ↔
      (a ≤ 3 ∧ (b ≤ 3 ∨ avl = 0) ∧ (m = 2 → old ≤ vlmaxOf a b) ∨
        3 < a ∧ vill ∧ (m = 1 ∧ b + 5 ≤ a ∨ m = 2 ∧ old = 0)) := by
  generalize vlmaxOf a b = vl at *
  have hmode : m = 0 ∨ m = 1 ∨ m = 2 := by omega
  by_cases hv : vill
  · simp only [hv, true_and]
    split_ifs at havl hw <;> omega
  · simp only [hv, false_and, and_false, or_false, false_or]
    split_ifs at havl hw <;> omega

theorem VsetvlDecode.mode_le (d : VsetvlDecode) : d.mode ≤ 2 := by
  unfold VsetvlDecode.mode
  split
  · decide
  · split
    · decide
    · split <;> decide

/-- A request is outside of the code where the shift amount is negative. -/
theorem execVsetvl_isSome (h : vlmulOf d.src2Val ≤ 3 + vsewOf d.src2Val) : ∃ t, execVsetvl d s = some t := by
  have hn : getVlmax (vsewOf d.src2Val) (vlmulOf d.src2Val) = some _ := if_pos h
  obtain ⟨w, hw, -⟩ : ∃ w, checkVsetvl d.src2Val (d.vlReq s.gpr) (s.csr .vl) d.mode = some w ∧ _ :=
    checkVsetvl_toNat hn
  rw [execVsetvl_eq]
  unfold setVtypeVl
  rw [hw]
  exact ⟨_, rfl⟩

theorem execVsetvl_shift (ht : execVsetvl d s = some t) : vlmulOf d.src2Val ≤ 3 + vsewOf d.src2Val := by
  by_contra hneg
  have hn : getVlmax (vsewOf d.src2Val) (vlmulOf d.src2Val) = none := if_neg hneg
  rw [execVsetvl_eq] at ht
  unfold setVtypeVl checkVsetvl at ht
  rw [hn] at ht
  cases ht

theorem execVsetvl_fields (hn : getVlmax (vsewOf d.src2Val) (vlmulOf d.src2Val) = some n)
    (ht : execVsetvl d s = some t) :
    t.csr .vtype = (if t.csr .vl = -1 then (1 : Word) <<< 63 else d.src2Val) ∧
      (t.csr .vl).toNat = if d.mode = 1 then n else if d.mode = 2 then (s.csr .vl).toNat
        else if 3 < vsewOf d.src2Val then 2 ^ 64 - 1
        else if (d.vlReq s.gpr).toNat ≤ n then (d.vlReq s.gpr).toNat
        else if (d.vlReq s.gpr).toNat < 2 * n then (d.vlReq s.gpr).toNat / 2 + 1 else n := by
  obtain ⟨w, hw, hnat⟩ : ∃ w, checkVsetvl d.src2Val (d.vlReq s.gpr) (s.csr .vl) d.mode = some w ∧ _ :=
    checkVsetvl_toNat hn
  rw [execVsetvl_eq] at ht
  obtain ⟨hvl, hvtype⟩ := setVtypeVl_fields hw ht
  rw [hvl]
  exact ⟨hvtype, hnat⟩

theorem execVsetvl_served {gpr : BitVec 5 → Word} (ht : execVsetvl d { s with gpr := gpr } = some t) :
    (t.vill = true ∧ t.csr .vl = 0 ∨
      t.vsew ≤ 3 ∧ (t.csr .vl).toNat ≤ vlmaxOf t.vsew t.vlmul ∧
        (d.avl s gpr ≤ vlmaxOf t.vsew t.vlmul → (t.csr .vl).toNat = d.avl s gpr) ∧
        (vlmaxOf t.vsew t.vlmul < d.avl s gpr → d.avl s gpr < 2 * vlmaxOf t.vsew t.vlmul →
          (d.avl s gpr + 1) / 2 ≤ (t.csr .vl).toNat)) ↔ d.Served s gpr := by
  have hshift := execVsetvl_shift ht
  have hn : getVlmax (vsewOf d.src2Val) (vlmulOf d.src2Val) = some _ := if_pos hshift
  obtain ⟨hvtype, hnat⟩ := execVsetvl_fields hn ht
  obtain ⟨h1, h2, h3, h4, h5⟩ := getVlmax_cases hn
  have hzero : ∀ x : Word, x = 0 ↔ x.toNat = 0 := fun x => BitVec.toNat_inj.symm
  have hones : t.csr .vl = -1 ↔ (t.csr .vl).toNat = 2 ^ 64 - 1 := BitVec.toNat_inj.symm
  unfold VsetvlDecode.Served
  rw [hzero (t.csr .vl), hzero (s.csr .vl)]
  by_cases herr : t.csr .vl = -1
  · rw [if_pos herr] at hvtype
    have hmax := hones.mp herr
    have hsew : t.vsew = 0 ∧ t.vlmul = 0 := by
      unfold Machine.vsew Machine.vlmul
      rw [hvtype]
      decide
    have hvl : vlmaxOf 0 0 = 16 := rfl
    rw [hsew.1, hsew.2, hmax, hvl]
    constructor
    · rintro (⟨-, h⟩ | ⟨-, h, -⟩) <;> omega
    · rintro ⟨-, ⟨hle, -, hold⟩ | ⟨-, -, ⟨hm, -⟩ | ⟨hm, hold⟩⟩⟩
      · exfalso
        rw [hmax] at hnat
        dsimp only at hnat
        split_ifs at hnat <;> omega
      · rw [if_pos hm] at hnat
        omega
      · rw [hm] at hnat
        dsimp only at hnat
        simp only [OfNat.ofNat_ne_one, reduceIte] at hnat
        omega
  · rw [if_neg herr] at hvtype
    have hsew : t.vsew = vsewOf d.src2Val := congrArg vsewOf hvtype
    have hmul : t.vlmul = vlmulOf d.src2Val := congrArg vlmulOf hvtype
    have hvill : t.vill = d.src2Val.getLsbD 63 := congrArg (fun x : Word => x.getLsbD 63) hvtype
    have havl : d.avl s gpr = _ := rfl
    have hmain := served_numbers (d.src2Val.getLsbD 63 = true) h1 h2 h3 h4 h5 d.mode_le havl hnat
      fun h => herr (hones.mpr h)
    rw [hsew, hmul, hvill]
    exact hmain.trans (and_iff_right hshift).symm

end Steps

section Runs

variable {s t : Machine} {e : Vsetvl}

theorem shift_bounds {d : VsetvlDecode} : (0 ≤ d.shift ∧ d.shift < 32) ↔ vlmulOf d.src2Val ≤ 3 + vsewOf d.src2Val := by
  have h1 := vsewOf_lt d.src2Val
  unfold VsetvlDecode.shift
  omega

theorem VsetvlStep.configures_iff (h : VsetvlStep s e t) : Configures s e t ↔ Served s e := by
  obtain ⟨d, hd, ht⟩ := h
  constructor
  · rintro ⟨d', hd', -, hc⟩
    obtain rfl : d = d' := Option.some.inj (hd.symm.trans hd')
    exact ⟨d, hd, (execVsetvl_served ht).mp hc⟩
  · rintro ⟨d', hd', hserved⟩
    obtain rfl : d = d' := Option.some.inj (hd.symm.trans hd')
    exact ⟨d, hd, shift_bounds.mpr (execVsetvl_shift ht), (execVsetvl_served ht).mpr hserved⟩

theorem Served.step (h : Served s e) : ∃ t, VsetvlStep s e t := by
  obtain ⟨d, hd, hshift, -⟩ := h
  obtain ⟨t, ht⟩ := execVsetvl_isSome (s := { s with gpr := e.gpr }) hshift
  exact ⟨t, d, hd, ht⟩

theorem Configures.vlSafe (h : Configures s e t) : VlSafe t := by
  obtain ⟨-, -, -, h | ⟨hsew, hle, -⟩⟩ := h
  · exact .inl h
  · exact .inr ⟨hsew, hle⟩

theorem vlSafe_reset (P : Platform) (ram : Word → BitVec 8) : VlSafe (Machine.reset P ram) := by
  have hvtype : (Machine.reset P ram).csr .vtype = 0 := rfl
  have hsew : (Machine.reset P ram).vsew = 0 := congrArg vsewOf hvtype
  right
  rw [hsew]
  exact ⟨Nat.zero_le 3, Nat.zero_le _⟩

/-- From reset on, `vl` is within VLMAX and what was asked for in just the runs whose requests are all
served, and the next instruction is executed and does so if, and only if, its request is. -/
theorem vl_configured_iff (P : Platform) (ram : Word → BitVec 8)
    (h : Run VsetvlStep (Machine.reset P ram) tr t) :
    ((∀ x ∈ tr, Configures x.source x.label x.target) ↔ ∀ x ∈ tr, Served x.source x.label) ∧
      ((∀ x ∈ tr, Served x.source x.label) → VlSafe t) ∧
      ∀ e, (∃ u, VsetvlStep t e u ∧ Configures t e u) ↔ Served t e := by
  refine ⟨?_, ?_, ?_⟩
  · constructor
    · exact fun hc x hx => (h.step_of_mem hx).configures_iff.mp (hc x hx)
    · exact fun hs x hx => (h.step_of_mem hx).configures_iff.mpr (hs x hx)
  · intro hs
    apply h.invariant hs (vlSafe_reset P ram)
    exact fun x hserved hstep _ => (hstep.configures_iff.mpr hserved).vlSafe
  · intro e
    constructor
    · rintro ⟨u, hstep, hc⟩
      exact hstep.configures_iff.mp hc
    · intro hserved
      obtain ⟨u, hu⟩ := hserved.step
      exact ⟨u, hu, hu.configures_iff.mpr hserved⟩

/-- An instruction with 20 in `a1`. -/
def askTwenty (instr : BitVec 32) : Vsetvl :=
  ⟨instr, fun r => if r = 11 then 20 else 0, fun r => if r = 11 then 20 else 0⟩

def unconfigured : Machine := Machine.reset (Platform.bare .standalone) fun _ => 0

/-- `vsetvli a0, a1, e8` asks for 20 elements where 16 fit, and `vsetvli x0, x0, e8, m2` keeps `vl`. -/
theorem vl_configured_twenty :
    ∃ s t, Run VsetvlStep unconfigured
        [⟨unconfigured, askTwenty 0x0005f557, s⟩, ⟨s, askTwenty 0x00107057, t⟩] t ∧
      (s.csr .vl).toNat = 11 ∧ (t.csr .vl).toNat = 11 ∧ VlSafe t := by
  have hrun : ∃ s t, Run VsetvlStep unconfigured
      [⟨unconfigured, askTwenty 0x0005f557, s⟩, ⟨s, askTwenty 0x00107057, t⟩] t ∧
      (s.csr .vl).toNat = 11 ∧ (t.csr .vl).toNat = 11 :=
    ⟨_, _, .cons ⟨_, rfl, rfl⟩ (.cons ⟨_, rfl, rfl⟩ .nil), rfl, rfl⟩
  obtain ⟨s, t, hrun, hs, ht⟩ := hrun
  refine ⟨s, t, hrun, hs, ht, (vl_configured_iff _ _ hrun).2.1 ?_⟩
  intro x hx
  simp only [List.mem_cons, List.not_mem_nil, or_false] at hx
  obtain rfl | rfl := hx
  · have hd : decodeVsetvl (askTwenty 0x0005f557).decoding 0x0005f557 = some ⟨.vsetvli, 10, 11, 0, 0⟩ := rfl
    exact ⟨_, hd, by decide, .inl ⟨by decide, .inl (by decide), fun h => absurd h (by decide)⟩⟩
  · have hd : decodeVsetvl (askTwenty 0x00107057).decoding 0x00107057 = some ⟨.vsetvli, 0, 0, 0, 1⟩ := rfl
    have hle : (s.csr .vl).toNat ≤ vlmaxOf 0 1 := by
      rw [hs]
      decide
    exact ⟨_, hd, by decide, .inl ⟨by decide, .inl (by decide), fun _ => hle⟩⟩

/-- `vsetvli a0, a1` with a reserved SEW sets `vill` and the greatest `vl`. -/
theorem vl_of_reserved_sew :
    ∃ t, Run VsetvlStep unconfigured
        [⟨unconfigured, askTwenty 0x0205f557, t⟩] t ∧
      t.vill = true ∧ (t.csr .vl).toNat = 2 ^ 64 - 1 ∧ ¬ VlSafe t := by
  have hrun : ∃ t, Run VsetvlStep unconfigured
      [⟨unconfigured, askTwenty 0x0205f557, t⟩] t ∧ t.vill = true ∧
      (t.csr .vl).toNat = 2 ^ 64 - 1 ∧ t.vsew = 0 ∧ t.vlmul = 0 :=
    ⟨_, .cons ⟨_, rfl, rfl⟩ .nil, rfl, rfl, rfl, rfl⟩
  obtain ⟨t, hrun, hvill, hvl, hsew, hmul⟩ := hrun
  refine ⟨t, hrun, hvill, hvl, ?_⟩
  rintro (⟨-, h0⟩ | ⟨-, hle⟩)
  · rw [h0] at hvl
    exact absurd hvl (by decide)
  · rw [hvl, hsew, hmul] at hle
    exact absurd hle (by decide)

end Runs

end Nemu
