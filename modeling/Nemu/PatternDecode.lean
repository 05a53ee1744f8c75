import Nemu.Lib.ShiftIn

namespace Nemu

set_option autoImplicit true

section Definitions

/-- What stops a decode: the assertion on the characters, or a shift of a word by its width, which C leaves undefined. -/
inductive PatternError where
  | invalidCharacter (c : Char)
  | undefinedShift (amount : Nat)
  deriving DecidableEq

/-- The three outputs of `pattern_decode`. -/
structure PatternBits where
  key : BitVec 32
  mask : BitVec 32
  shift : BitVec 32

/-- One character of the string. -/
def patternChar (p : PatternBits) (c : Char) : Except PatternError PatternBits :=
  if c ≠ ' ' then
    if c = '0' ∨ c = '1' ∨ c = '?' then
      .ok {
        key := p.key <<< 1 ||| (if c == '1' then 1 else 0)
        mask := p.mask <<< 1 ||| (if c == '?' then 0 else 1)
        shift := if c == '?' then p.shift + 1 else 0 }
    else .error (.invalidCharacter c)
  else .ok p

def shiftRight (x amount : BitVec 32) : Except PatternError (BitVec 32) :=
  if amount.toNat < 32 then .ok (x >>> amount.toNat) else .error (.undefinedShift amount.toNat)

/-- `macro64` looks at 64 characters at most. -/
def patternDecode (str : List Char) : Except PatternError PatternBits := do
  let p ← (str.take 64).foldlM patternChar ⟨0, 0, 0⟩
  let key ← shiftRight p.key p.shift
  let mask ← shiftRight p.mask p.shift
  return ⟨key, mask, p.shift⟩

/-- The test of `def_INSTR_raw`. -/
def instrTest (pattern : List Char) (instr : BitVec 32) : Except PatternError Bool := do
  let p ← patternDecode pattern
  let field ← shiftRight instr p.shift
  return field &&& p.mask == p.key

end Definitions

section Spec

def significant (pattern : List Char) : List Char := pattern.filter (· != ' ')

/-- The word has the bits that the pattern gives, the last character being bit 0. -/
def HasFixedBits (pattern : List Char) (instr : BitVec 32) : Prop :=
  ∀ i c, (significant pattern).reverse[i]? = some c → c ≠ '?' → instr.getLsbD i = (c == '1')

/-- The test does no undefined shift, and succeeds on the words that have the fixed bits. -/
def TestExact (pattern : List Char) (instr : BitVec 32) : Prop :=
  ∃ b, instrTest pattern instr = .ok b ∧ (b = true ↔ HasFixedBits pattern instr)

/-- Of the characters of patterns. -/
def WellFormed (pattern : List Char) : Prop := ∀ c ∈ pattern, c = '0' ∨ c = '1' ∨ c = '?' ∨ c = ' '

instance (pattern : List Char) : Decidable (WellFormed pattern) :=
  List.decidableBAll (fun c => c = '0' ∨ c = '1' ∨ c = '?' ∨ c = ' ') pattern

end Spec

section Fold

variable {pattern : List Char} {instr : BitVec 32} {c : Char}

/-- What the fold has after some characters. -/
def patternBits (l : List Char) : PatternBits :=
  ⟨shiftIn 32 (· == '1') l, shiftIn 32 (· != '?') l, BitVec.ofNat 32 (trailing (· == '?') l)⟩

theorem significant_append (l : List Char) (c : Char) :
    significant (l ++ [c]) = if c ≠ ' ' then significant l ++ [c] else significant l := by
  unfold significant
  rw [List.filter_append]
  by_cases hc : c = ' '
  · subst hc
    exact List.append_nil _
  · have hkeep : [c].filter (· != ' ') = [c] := List.filter_eq_self.mpr fun d hd => by
      rw [List.mem_singleton.mp hd]
      exact bne_iff_ne.mpr hc
    rw [if_pos hc, hkeep]

theorem patternChar_step (l : List Char) (hc : c = '0' ∨ c = '1' ∨ c = '?' ∨ c = ' ') :
    patternChar (patternBits (significant l)) c = .ok (patternBits (significant (l ++ [c]))) := by
  rw [significant_append]
  unfold patternChar
  by_cases hspace : c = ' '
  · rw [if_neg (not_not.mpr hspace), if_neg (not_not.mpr hspace)]
  · have hdigit : c = '0' ∨ c = '1' ∨ c = '?' := by tauto
    rw [if_pos hspace, if_pos hspace, if_pos hdigit]
    unfold patternBits
    rw [shiftIn_append, shiftIn_append, trailing_append]
    refine congrArg Except.ok ?_
    by_cases hq : c = '?'
    · subst hq
      congr 1
      exact (BitVec.ofNat_add ..).symm
    · have hne : (c == '?') = false := beq_eq_false_iff_ne.mpr hq
      have hbne : (c != '?') = true := bne_iff_ne.mpr hq
      rw [hne, hbne]
      rfl

/-- The invariant of the loop. -/
theorem foldlM_patternChar (l : List Char) (hl : WellFormed l) :
    l.foldlM patternChar ⟨0, 0, 0⟩ = .ok (patternBits (significant l)) := by
  induction l using List.reverseRecOn with
  | nil => rfl
  | append_singleton l c ih =>
    have hinit : WellFormed l := fun d hd => hl d (List.mem_append_left _ hd)
    have hc := hl c (List.mem_append_right _ (List.mem_singleton_self c))
    rw [List.foldlM_append, ih hinit]
    exact congrArg (· >>= pure) (patternChar_step l hc)

end Fold

section Test

variable {pattern : List Char} {instr : BitVec 32}

/-- How many bits the pattern leaves open at its end. -/
def wildcards (pattern : List Char) : Nat := trailing (· == '?') (significant pattern)

theorem wildcards_lt_or_eq (hlen : (significant pattern).length ≤ 32) :
    wildcards pattern < 32 ∨ wildcards pattern = 32 ∧ significant pattern = List.replicate 32 '?' := by
  have hle : wildcards pattern ≤ (significant pattern).length := trailing_le
  rcases Nat.lt_or_ge (wildcards pattern) 32 with hlt | hge
  · exact .inl hlt
  · have hlength : (significant pattern).length = 32 := by omega
    have hall := trailing_eq_length.mp (show wildcards pattern = _ by omega)
    have hrep : significant pattern = List.replicate 32 '?' :=
      List.eq_replicate_iff.mpr ⟨hlength, fun c hc => beq_iff_eq.mp (hall c hc)⟩
    exact .inr ⟨by omega, hrep⟩

theorem wildcards_replicate (h : significant pattern = List.replicate 32 '?') : wildcards pattern = 32 := by
  unfold wildcards
  rw [h]
  decide

theorem patternDecode_fold (hchars : WellFormed pattern) (hlen : pattern.length ≤ 64) :
    (pattern.take 64).foldlM patternChar ⟨0, 0, 0⟩ = .ok (patternBits (significant pattern)) := by
  rw [List.take_of_length_le hlen]
  exact foldlM_patternChar pattern hchars

theorem shift_toNat (h : wildcards pattern ≤ 32) :
    (patternBits (significant pattern)).shift.toNat = wildcards pattern := by
  have hlt : wildcards pattern < 2 ^ 32 := by omega
  exact (BitVec.toNat_ofNat _ _).trans (Nat.mod_eq_of_lt hlt)

/-- Every shift of the decode and of the test is by the number of open bits. -/
theorem instrTest_ok (hchars : WellFormed pattern) (hlen : pattern.length ≤ 64) (hlt : wildcards pattern < 32) :
    instrTest pattern instr = .ok ((instr >>> wildcards pattern) &&&
      (shiftIn 32 (· != '?') (significant pattern) >>> wildcards pattern) ==
        shiftIn 32 (· == '1') (significant pattern) >>> wildcards pattern) := by
  have hshift := shift_toNat (Nat.le_of_lt hlt)
  have hok : ∀ x, shiftRight x (patternBits (significant pattern)).shift = .ok (x >>> wildcards pattern) := by
    intro x
    unfold shiftRight
    rw [hshift, if_pos hlt]
  have hdecode : patternDecode pattern = .ok ⟨shiftIn 32 (· == '1') (significant pattern) >>> wildcards pattern,
      shiftIn 32 (· != '?') (significant pattern) >>> wildcards pattern,
      (patternBits (significant pattern)).shift⟩ := by
    unfold patternDecode
    rw [patternDecode_fold hchars hlen]
    simp only [bind, Except.bind, hok]
    rfl
  unfold instrTest
  rw [hdecode]
  simp only [bind, Except.bind, hok]
  rfl

theorem instrTest_undefined (hchars : WellFormed pattern) (hlen : pattern.length ≤ 64) (heq : wildcards pattern = 32) :
    instrTest pattern instr = .error (.undefinedShift 32) := by
  have hshift := shift_toNat (Nat.le_of_eq heq)
  have herror : ∀ x, shiftRight x (patternBits (significant pattern)).shift = .error (.undefinedShift 32) := by
    intro x
    unfold shiftRight
    rw [hshift, heq, if_neg (Nat.lt_irrefl 32)]
  unfold instrTest patternDecode
  rw [patternDecode_fold hchars hlen]
  simp only [bind, Except.bind, herror]

theorem hasFixedBits_iff (hlen : (significant pattern).length ≤ 32) :
    HasFixedBits pattern instr ↔ ∀ i < 32, (instr.getLsbD i && (shiftIn 32 (· != '?') (significant pattern)).getLsbD i) =
      (shiftIn 32 (· == '1') (significant pattern)).getLsbD i := by
  constructor
  · intro h i hi
    rw [shiftIn_getLsbD hi, shiftIn_getLsbD hi]
    rcases hget : (significant pattern).reverse[i]? with _ | c
    · exact Bool.and_false _
    · by_cases hq : c = '?'
      · subst hq
        exact Bool.and_false _
      · have hbit := h i c hget hq
        have hne : (c != '?') = true := bne_iff_ne.mpr hq
        simp only [Option.any_some, hbit, hne, Bool.and_true]
  · intro h i c hget hq
    have hi : i < 32 := by
      have hlt := (List.getElem?_eq_some_iff.mp hget).1
      rw [List.length_reverse] at hlt
      omega
    have hbit := h i hi
    have hne : (c != '?') = true := bne_iff_ne.mpr hq
    rw [shiftIn_getLsbD hi, shiftIn_getLsbD hi, hget] at hbit
    simpa only [Option.any_some, hne, Bool.and_true] using hbit

/-- The bits that are shifted out are open. -/
theorem open_bits {i : Nat} (hi : i < wildcards pattern) (hlt : i < 32) :
    (shiftIn 32 (· != '?') (significant pattern)).getLsbD i = false ∧
      (shiftIn 32 (· == '1') (significant pattern)).getLsbD i = false := by
  rw [shiftIn_getLsbD hlt, shiftIn_getLsbD hlt]
  rcases hget : (significant pattern).reverse[i]? with _ | c
  · exact ⟨rfl, rfl⟩
  · have hc : (c == '?') = true := trailing_get (p := (· == '?')) hi hget
    rw [beq_iff_eq] at hc
    subst hc
    exact ⟨rfl, rfl⟩

/-- The test is exact on every word unless the pattern is 32 open bits. -/
theorem instr_test_exact_iff (hchars : WellFormed pattern) (hlen : pattern.length ≤ 64)
    (hsig : (significant pattern).length ≤ 32) (instr : BitVec 32) :
    TestExact pattern instr ↔ significant pattern ≠ List.replicate 32 '?' := by
  constructor
  · rintro ⟨b, hok, -⟩ hrep
    rw [instrTest_undefined hchars hlen (wildcards_replicate hrep)] at hok
    cases hok
  · intro hrep
    rcases wildcards_lt_or_eq hsig with hlt | ⟨-, heq⟩
    · refine ⟨_, instrTest_ok hchars hlen hlt, ?_⟩
      have hopen : ∀ i < wildcards pattern, i < 32 := fun i hi => Nat.lt_trans hi hlt
      rw [beq_iff_eq, hasFixedBits_iff hsig]
      exact masked_shift_iff (fun i hi => (open_bits hi (hopen i hi)).1) (fun i hi => (open_bits hi (hopen i hi)).2)
    · exact absurd heq hrep

/-- The first pattern of `addi_dispatch`. -/
theorem instr_test_exact_li : TestExact "0000000 00000 00000 ??? ????? ????? ??".toList 0x00000013 :=
  (instr_test_exact_iff (by decide) (by decide) (by decide) _).mpr (by decide)

/-- Its last one, which is made of wildcards only. -/
def addiPattern : List Char := "??????? ????? ????? ??? ????? ????? ??".toList

theorem instr_test_addi_undefined : WellFormed addiPattern ∧ addiPattern.length ≤ 64 ∧
    (significant addiPattern).length ≤ 32 ∧ ¬ TestExact addiPattern 0x00150513 := by
  refine ⟨by decide, by decide, by decide, ?_⟩
  rintro ⟨b, hok, -⟩
  have herror : instrTest addiPattern 0x00150513 = .error (.undefinedShift 32) := by decide
  rw [herror] at hok
  cases hok

end Test

end Nemu
