import Mathlib.Data.BitVec

namespace Bytes

variable {w v : Nat}

/-- The little-endian value of the `n` bytes at `a`. -/
def readLE (v : Nat) (m : BitVec w → BitVec 8) (a : BitVec w) : Nat → BitVec v
  | 0 => 0
  | n + 1 => (m a).setWidth v ||| (readLE v m (a + 1) n <<< 8)

/-- Stores the low `n` bytes of `d` at `a`. -/
def writeLE (m : BitVec w → BitVec 8) (a : BitVec w) (n : Nat) (d : BitVec v) :
    BitVec w → BitVec 8 :=
  fun x => if (x - a).toNat < n then d.extractLsb' (8 * (x - a).toNat) 8 else m x

theorem writeLE_at (m : BitVec w → BitVec 8) (a : BitVec w) {n i : Nat} (d : BitVec v) (hi : i < n)
    (hn : n ≤ 2 ^ w) : writeLE m a n d (a + BitVec.ofNat w i) = d.extractLsb' (8 * i) 8 := by
  have hoff : (a + BitVec.ofNat w i - a).toNat = i := by
    rw [BitVec.add_comm, BitVec.add_sub_cancel, BitVec.toNat_ofNat, Nat.mod_eq_of_lt (by omega)]
  unfold writeLE
  rw [hoff, if_pos hi]

theorem writeLE_off (m : BitVec w → BitVec 8) {a x : BitVec w} {n : Nat} (d : BitVec v)
    (hx : ∀ i < n, x ≠ a + BitVec.ofNat w i) : writeLE m a n d x = m x := by
  unfold writeLE
  refine if_neg fun hlt => hx _ hlt ?_
  rw [BitVec.ofNat_toNat, BitVec.setWidth_eq, BitVec.add_comm, BitVec.sub_add_cancel]

theorem writeLE_setWidth (m : BitVec w → BitVec 8) (a : BitVec w) (n : Nat) (d : BitVec v) :
    writeLE m a n (d.setWidth (8 * n)) = writeLE m a n d := by
  funext x
  unfold writeLE
  split
  · next hlt => exact BitVec.extractLsb'_setWidth_of_le (by omega)
  · rfl

theorem extract_readLE (m : BitVec w → BitVec 8) (a : BitVec w) (n i : Nat) (hi : i < n)
    (hn : 8 * n ≤ v) : (readLE v m a n).extractLsb' (8 * i) 8 = m (a + BitVec.ofNat w i) := by
  induction n generalizing a i with
  | zero => omega
  | succ n ih =>
    ext j hj
    simp only [readLE, BitVec.getElem_extractLsb', BitVec.getLsbD_or, BitVec.getLsbD_setWidth,
      BitVec.getLsbD_shiftLeft]
    cases i with
    | zero =>
      have h1 : j < v := by omega
      simp [h1, hj]
    | succ i =>
      have h1 : ¬ 8 * (i + 1) + j < 8 := by omega
      have h2 : 8 * (i + 1) + j < v := by omega
      have h3 : 8 * (i + 1) + j - 8 = 8 * i + j := by omega
      have h4 := congrArg (fun b => b.getLsbD j) (ih (a + 1) i (by omega) (by omega))
      have h5 : a + 1 + BitVec.ofNat w i = a + BitVec.ofNat w (i + 1) := by
        rw [BitVec.add_assoc, BitVec.add_comm 1, BitVec.ofNat_add]
        rfl
      simp only [BitVec.getLsbD_extractLsb', hj, decide_true, Bool.true_and] at h4
      rw [BitVec.getLsbD_of_ge (m a) _ (by omega), h3, h4, h5]
      simp [h1, h2, BitVec.getLsbD_eq_getElem hj]

/-- Writing back a value read before, with some bits of its first byte set, changes that byte
only. -/
theorem writeLE_readLE_or (m : BitVec w → BitVec 8) (a : BitVec w) (n : Nat) (b : BitVec 8)
    (hn : 8 * n ≤ v) (x : BitVec w) :
    writeLE m a n (readLE v m a n ||| b.setWidth v) x =
      if x = a ∧ 0 < n then m x ||| b else m x := by
  unfold writeLE
  by_cases hx : (x - a).toNat < n
  · have hxa : a + BitVec.ofNat w (x - a).toNat = x := by
      rw [BitVec.ofNat_toNat, BitVec.setWidth_eq, BitVec.add_comm, BitVec.sub_add_cancel]
    rw [if_pos hx, BitVec.extractLsb'_or, extract_readLE m a n _ hx hn, hxa]
    by_cases h0 : x = a
    · subst h0
      have hb : (b.setWidth v).extractLsb' 0 8 = b := by
        ext j hj
        have : j < v := by omega
        simp [this, BitVec.getLsbD_eq_getElem hj]
      simp only [BitVec.sub_self, BitVec.toNat_ofNat, Nat.zero_mod, Nat.mul_zero, hb, true_and]
      rw [if_pos (by omega)]
    · have h1 : 0 < (x - a).toNat := by
        apply Nat.pos_of_ne_zero
        intro h
        apply h0
        rw [← hxa, h]
        exact BitVec.add_zero a
      have hb : (b.setWidth v).extractLsb' (8 * (x - a).toNat) 8 = 0#8 := by
        generalize (x - a).toNat = k at h1
        ext j hj
        simp [BitVec.getLsbD_of_ge b (8 * k + j) (by omega)]
      rw [hb, if_neg (fun h => h0 h.1), BitVec.or_zero]
  · rw [if_neg hx, if_neg]
    rintro ⟨rfl, h⟩
    apply hx
    simpa using h

theorem readLE_update (m : BitVec w → BitVec 8) {a x : BitVec w} (b : BitVec 8) {n : Nat}
    (h : n ≤ (a - x).toNat) : readLE v (Function.update m a b) x n = readLE v m x n := by
  induction n generalizing x with
  | zero => rfl
  | succ n ih =>
    have hne : x ≠ a := by
      rintro rfl
      simp at h
    have hone : (1 : BitVec w).toNat ≤ (a - x).toNat := by
      have hle : (1 : BitVec w).toNat ≤ 1 := Nat.mod_le 1 _
      omega
    have hrest : n ≤ (a - (x + 1)).toNat := by
      have hle : (1 : BitVec w).toNat ≤ 1 := Nat.mod_le 1 _
      rw [← BitVec.sub_sub, BitVec.toNat_sub_of_le (BitVec.le_def.mpr hone)]
      omega
    simp only [readLE, Function.update_of_ne hne, ih hrest]

theorem readLE_update_or (m : BitVec w → BitVec 8) (a : BitVec w) (b : BitVec 8) {n : Nat}
    (hn : n < 2 ^ w) : readLE v (Function.update m a (m a ||| b)) a (n + 1) =
      readLE v m a (n + 1) ||| b.setWidth v := by
  have hrest : n ≤ (a - (a + 1)).toNat := by
    have hlast : a - (a + 1) = BitVec.allOnes w := by
      rw [← BitVec.sub_sub, BitVec.sub_self, BitVec.zero_sub, BitVec.ofNat_eq_ofNat,
        BitVec.neg_one_eq_allOnes]
    rw [hlast, BitVec.toNat_allOnes]
    omega
  simp only [readLE, Function.update_self, readLE_update m (m a ||| b) hrest, BitVec.setWidth_or]
  rw [BitVec.or_assoc, BitVec.or_comm (b.setWidth v), ← BitVec.or_assoc]

/-- The value with the bytes `f 0` to `f (n - 1)`. -/
def pack (v : Nat) (f : Nat → BitVec 8) (n : Nat) : BitVec v :=
  (List.range n).foldl (fun acc i => acc ||| ((f i).setWidth v <<< (8 * i))) 0

theorem pack_succ (f : Nat → BitVec 8) (n : Nat) :
    pack v f (n + 1) = pack v f n ||| ((f n).setWidth v <<< (8 * n)) := by
  unfold pack
  rw [List.range_succ, List.foldl_append]
  rfl

theorem getLsbD_pack (f : Nat → BitVec 8) (n j p : Nat) (hn : 8 * n ≤ v) (hp : p < 8) :
    (pack v f n).getLsbD (8 * j + p) = (decide (j < n) && (f j).getLsbD p) := by
  induction n with
  | zero => simp [pack]
  | succ n ih =>
    rw [pack_succ, BitVec.getLsbD_or, ih (by omega), BitVec.getLsbD_shiftLeft,
      BitVec.getLsbD_setWidth]
    obtain hlt | rfl | hgt := Nat.lt_trichotomy j n
    · have h1 : 8 * j + p < 8 * n := by omega
      have h2 : j < n + 1 := by omega
      simp [hlt, h1, h2]
    · have h1 : ¬ 8 * j + p < 8 * j := by omega
      have h2 : 8 * j + p < v := by omega
      have h3 : 8 * j + p - 8 * j = p := by omega
      have h4 : p < v := by omega
      simp [h1, h2, h3, h4]
    · have h1 : ¬ j < n := by omega
      have h2 : ¬ j < n + 1 := by omega
      have h3 : (f n).getLsbD (8 * j + p - 8 * n) = false := BitVec.getLsbD_of_ge _ _ (by omega)
      simp [h1, h2, h3]

theorem extract_pack (f : Nat → BitVec 8) (n j : Nat) (hn : 8 * n ≤ v) (hj : j < n) :
    (pack v f n).extractLsb' (8 * j) 8 = f j := by
  apply BitVec.eq_of_getLsbD_eq
  intro p hp
  rw [BitVec.getLsbD_extractLsb', getLsbD_pack f n j p hn hp, decide_eq_true hp,
    decide_eq_true hj]
  rfl

theorem pack_inj (f g : Nat → BitVec 8) (n : Nat) (hn : 8 * n ≤ v) :
    pack v f n = pack v g n ↔ ∀ i < n, f i = g i := by
  constructor
  · intro h i hi
    rw [← extract_pack f n i hn hi, h, extract_pack g n i hn hi]
  · intro h
    induction n with
    | zero => rfl
    | succ n ih =>
      rw [pack_succ, pack_succ, ih (by omega) fun i hi => h i (by omega), h n (by omega)]

theorem pack_cons (f : Nat → BitVec 8) (n : Nat) (hn : 8 * (n + 1) ≤ v) :
    pack v f (n + 1) = (f 0).setWidth v ||| (pack v (fun i => f (i + 1)) n <<< 8) := by
  apply BitVec.eq_of_getLsbD_eq
  intro j hj
  obtain ⟨q, p, hp, rfl⟩ : ∃ q p, p < 8 ∧ j = 8 * q + p :=
    ⟨j / 8, j % 8, Nat.mod_lt _ (by decide), (Nat.div_add_mod j 8).symm⟩
  rw [getLsbD_pack f _ q p hn hp, BitVec.getLsbD_or, BitVec.getLsbD_setWidth,
    BitVec.getLsbD_shiftLeft, decide_eq_true hj, Bool.true_and]
  cases q with
  | zero => simp [hp]
  | succ q =>
    have hout : (f 0).getLsbD (8 * (q + 1) + p) = false := BitVec.getLsbD_of_ge _ _ (by omega)
    have hsub : 8 * (q + 1) + p - 8 = 8 * q + p := by omega
    have hge : ¬ 8 * (q + 1) + p < 8 := by omega
    rw [hout, hsub, getLsbD_pack _ n q p (by omega) hp, decide_eq_false hge]
    simp

theorem readLE_eq_pack (m : BitVec w → BitVec 8) (a : BitVec w) (n : Nat) (hn : 8 * n ≤ v) :
    readLE v m a n = pack v (fun i => m (a + BitVec.ofNat w i)) n := by
  induction n generalizing a with
  | zero => rfl
  | succ n ih =>
    have hnext : (fun i => m (a + BitVec.ofNat w (i + 1))) =
        fun i => m (a + 1 + BitVec.ofNat w i) := by
      funext i
      rw [BitVec.add_assoc, BitVec.add_comm 1, BitVec.ofNat_add]
      rfl
    have hzero : a + BitVec.ofNat w 0 = a := BitVec.add_zero a
    rw [readLE, ih (a + 1) (by omega), pack_cons _ n hn, hnext, hzero]

/-- Stores the bytes of `d` that `mask` selects among the first `n`. -/
def writeMask {k : Nat} (m : BitVec w → BitVec 8) (a : BitVec w) (n : Nat) (mask : BitVec k)
    (d : BitVec v) : BitVec w → BitVec 8 :=
  (List.range n).foldl (fun m i =>
    if mask.getLsbD i then Function.update m (a + BitVec.ofNat w i) (d.extractLsb' (8 * i) 8)
    else m) m

theorem writeMask_apply {k : Nat} (m : BitVec w → BitVec 8) (a : BitVec w) (n : Nat)
    (mask : BitVec k) (d : BitVec v) (x : BitVec w) (hn : n ≤ 2 ^ w) :
    writeMask m a n mask d x =
      if (x - a).toNat < n ∧ mask.getLsbD (x - a).toNat then d.extractLsb' (8 * (x - a).toNat) 8
      else m x := by
  induction n with
  | zero => rw [if_neg (by omega)]; rfl
  | succ n ih =>
    have hstep : writeMask m a (n + 1) mask d =
        if mask.getLsbD n then
          Function.update (writeMask m a n mask d) (a + BitVec.ofNat w n) (d.extractLsb' (8 * n) 8)
        else writeMask m a n mask d := by
      unfold writeMask
      rw [List.range_succ, List.foldl_append]
      rfl
    have hplace : x = a + BitVec.ofNat w n ↔ (x - a).toNat = n := by
      constructor
      · rintro rfl
        rw [BitVec.add_comm, BitVec.add_sub_cancel, BitVec.toNat_ofNat, Nat.mod_eq_of_lt (by omega)]
      · intro hx
        rw [← hx, BitVec.ofNat_toNat, BitVec.setWidth_eq, BitVec.add_comm, BitVec.sub_add_cancel]
    rw [hstep]
    by_cases hx : (x - a).toNat = n
    · by_cases hb : mask.getLsbD n = true
      · rw [if_pos hb, if_pos (by rw [hx]; exact ⟨Nat.lt_succ_self n, hb⟩), hplace.mpr hx,
          Function.update_self, ← hplace.mpr hx, hx]
      · rw [if_neg hb, ih (by omega), if_neg (by omega), if_neg (by rw [hx]; exact fun h => hb h.2)]
    · have hlt : (x - a).toNat < n + 1 ↔ (x - a).toNat < n := by omega
      simp only [hlt]
      rw [← ih (by omega)]
      split
      · rw [Function.update_of_ne (fun h => hx (hplace.mp h))]
      · rfl

theorem readLE_congr {m m' : BitVec w → BitVec 8} {a b : BitVec w} {n : Nat}
    (h : ∀ i < n, m (a + BitVec.ofNat w i) = m' (b + BitVec.ofNat w i)) : readLE v m a n = readLE v m' b n := by
  induction n generalizing a b with
  | zero => rfl
  | succ n ih =>
    have h0 : m a = m' b := by
      have h1 := h 0 (by omega)
      rwa [BitVec.add_zero, BitVec.add_zero] at h1
    have hnext : ∀ (x : BitVec w) (i : Nat), x + 1 + BitVec.ofNat w i = x + BitVec.ofNat w (i + 1) := by
      intro x i
      rw [BitVec.ofNat_add, BitVec.add_comm (BitVec.ofNat w i), BitVec.add_assoc]
      rfl
    have hrest : readLE v m (a + 1) n = readLE v m' (b + 1) n := by
      apply ih
      intro i hi
      rw [hnext, hnext]
      exact h (i + 1) (by omega)
    unfold readLE
    rw [h0, hrest]

theorem getLsbD_readLE (m : BitVec w → BitVec 8) (a : BitVec w) {n i : Nat} (hn : 8 * n ≤ v) :
    (readLE v m a n).getLsbD i = (decide (i < 8 * n) && (m (a + BitVec.ofNat w (i / 8))).getLsbD (i % 8)) := by
  by_cases hi : i < 8 * n
  · have hbyte := congrArg (fun b => b.getLsbD (i % 8)) (extract_readLE m a n (i / 8) (by omega) hn)
    simp only [BitVec.getLsbD_extractLsb'] at hbyte
    have h8 : i % 8 < 8 := Nat.mod_lt _ (by decide)
    rw [Nat.div_add_mod] at hbyte
    simpa [h8, hi] using hbyte
  · rw [decide_eq_false hi, Bool.false_and]
    induction n generalizing a i with
    | zero => simp [readLE]
    | succ n ih =>
      have h1 : (readLE v m (a + 1) n).getLsbD (i - 8) = false := ih (a + 1) (by omega) (by omega)
      have h2 : (m a).getLsbD i = false := BitVec.getLsbD_of_ge _ _ (by omega)
      simp only [readLE, BitVec.getLsbD_or, BitVec.getLsbD_setWidth, BitVec.getLsbD_shiftLeft, h1, h2, Bool.and_false,
        Bool.or_false]

theorem readLE_writeLE {u : Nat} (m : BitVec w → BitVec 8) (a : BitVec w) {n : Nat} (d : BitVec u) (hn : 8 * n ≤ v)
    (hw : n ≤ 2 ^ w) : readLE v (writeLE m a n d) a n = (d.setWidth (8 * n)).setWidth v := by
  apply BitVec.eq_of_getLsbD_eq
  intro i hi
  rw [getLsbD_readLE _ _ hn, BitVec.getLsbD_setWidth, BitVec.getLsbD_setWidth]
  by_cases h : i < 8 * n
  · have h8 : i % 8 < 8 := Nat.mod_lt _ (by decide)
    rw [writeLE_at m a d (by omega) hw, BitVec.getLsbD_extractLsb', Nat.div_add_mod]
    simp [h, hi, h8]
  · simp [h]
end Bytes
