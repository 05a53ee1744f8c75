import Nemu.Lib.Lanes
import Nemu.Rvk

namespace Nemu

open Lanes XorHom

set_option autoImplicit true

section Tables

variable {box : List (BitVec 8)}

/-- The entry of a table that has one for every byte. -/
def substitute (box : List (BitVec 8)) (b : BitVec 8) : BitVec 8 := (box[b.toNat]?).getD 0

theorem lookup_byte (hbox : box.length = 256) (b : BitVec 8) : box[b.toNat]? = some (substitute box b) := by
  have hlt : b.toNat < box.length := by
    rw [hbox]
    exact b.isLt
  unfold substitute
  rw [List.getElem?_eq_getElem hlt, Option.getD_some]

theorem lookup_lane (hbox : box.length = 256) (x : BitVec v) (k : Nat) (hv : 8 ≤ v) :
    box[(x >>> (8 * k) &&& 0xff).toNat]? = some (substitute box (lane x k)) := by
  rw [ushiftRight_mask, toNat_lane_setWidth _ hv]
  exact lookup_byte hbox _

theorem pack_four (f : Nat → BitVec 8) :
    Bytes.pack v f 4 = (f 0).setWidth v <<< 0 ||| (f 1).setWidth v <<< 8 ||| (f 2).setWidth v <<< 16 |||
      (f 3).setWidth v <<< 24 := by
  have hzero : Bytes.pack v f 0 = 0#v := rfl
  rw [Bytes.pack_succ, Bytes.pack_succ, Bytes.pack_succ, Bytes.pack_succ, hzero, BitVec.zero_or]

theorem pack_eight (f : Nat → BitVec 8) :
    Bytes.pack v f 8 = (f 0).setWidth v <<< 0 ||| (f 1).setWidth v <<< 8 ||| (f 2).setWidth v <<< 16 |||
      (f 3).setWidth v <<< 24 ||| (f 4).setWidth v <<< 32 ||| (f 5).setWidth v <<< 40 |||
      (f 6).setWidth v <<< 48 ||| (f 7).setWidth v <<< 56 := by
  rw [Bytes.pack_succ, Bytes.pack_succ, Bytes.pack_succ, Bytes.pack_succ, pack_four]

theorem aesSubBytes_eq (hbox : box.length = 256) (temp : Word) :
    aesSubBytes box temp = some (Bytes.pack 64 (fun k => substitute box (lane temp k)) 8) := by
  have h0 : box[(temp >>> 0 &&& 0xff).toNat]? = _ := lookup_lane hbox temp 0 (by decide)
  have h1 : box[(temp >>> 8 &&& 0xff).toNat]? = _ := lookup_lane hbox temp 1 (by decide)
  have h2 : box[(temp >>> 16 &&& 0xff).toNat]? = _ := lookup_lane hbox temp 2 (by decide)
  have h3 : box[(temp >>> 24 &&& 0xff).toNat]? = _ := lookup_lane hbox temp 3 (by decide)
  have h4 : box[(temp >>> 32 &&& 0xff).toNat]? = _ := lookup_lane hbox temp 4 (by decide)
  have h5 : box[(temp >>> 40 &&& 0xff).toNat]? = _ := lookup_lane hbox temp 5 (by decide)
  have h6 : box[(temp >>> 48 &&& 0xff).toNat]? = _ := lookup_lane hbox temp 6 (by decide)
  have h7 : box[(temp >>> 56 &&& 0xff).toNat]? = _ := lookup_lane hbox temp 7 (by decide)
  unfold aesSubBytes
  rw [h0, h1, h2, h3, h4, h5, h6, h7, pack_eight]
  rfl

end Tables

section Rows

theorem eight_bytes : 8 * 8 ≤ 64 := by decide

/-- The byte of the two halves that `AES_SHIFROWS_LO` puts at place `k`. -/
def shiftedRows (a b : Word) : Nat → BitVec 8
  | 0 => lane a 0
  | 1 => lane a 5
  | 2 => lane b 2
  | 3 => lane b 7
  | 4 => lane a 4
  | 5 => lane b 1
  | 6 => lane b 6
  | _ => lane a 3

def invShiftedRows (a b : Word) : Nat → BitVec 8
  | 0 => lane a 0
  | 1 => lane b 5
  | 2 => lane b 2
  | 3 => lane a 7
  | 4 => lane a 4
  | 5 => lane a 1
  | 6 => lane b 6
  | _ => lane b 3

theorem or_reverse_four (x0 x1 x2 x3 : BitVec v) : x0 ||| x1 ||| x2 ||| x3 = x3 ||| x2 ||| x1 ||| x0 := by
  ac_rfl

theorem or_reverse (x0 x1 x2 x3 x4 x5 x6 x7 : BitVec v) :
    x0 ||| x1 ||| x2 ||| x3 ||| x4 ||| x5 ||| x6 ||| x7 = x7 ||| x6 ||| x5 ||| x4 ||| x3 ||| x2 ||| x1 ||| x0 := by
  ac_rfl

theorem pack_eight_top (f : Nat → BitVec 8) :
    Bytes.pack 64 f 8 = (f 7).setWidth 64 <<< 56 ||| (f 6).setWidth 64 <<< 48 ||| (f 5).setWidth 64 <<< 40 |||
      (f 4).setWidth 64 <<< 32 ||| (f 3).setWidth 64 <<< 24 ||| (f 2).setWidth 64 <<< 16 |||
      (f 1).setWidth 64 <<< 8 ||| (f 0).setWidth 64 <<< 0 := by
  rw [pack_eight]
  exact or_reverse _ _ _ _ _ _ _ _

theorem aesShifrowsLo_eq (a b : Word) : aesShifrowsLo a b = Bytes.pack 64 (shiftedRows a b) 8 := by
  have h : ∀ (x : Word) k, k < 8 → x.sshiftRight (8 * k) &&& 0xff = (lane x k).setWidth 64 :=
    fun x k hk => sshiftRight_mask x (by omega)
  unfold aesShifrowsLo
  rw [pack_eight_top, h a 3 (by decide), h b 6 (by decide), h b 1 (by decide), h a 4 (by decide), h b 7 (by decide),
    h b 2 (by decide), h a 5 (by decide), h a 0 (by decide)]
  rfl

theorem aesInvshifrowsLo_eq (a b : Word) : aesInvshifrowsLo a b = Bytes.pack 64 (invShiftedRows a b) 8 := by
  have h : ∀ (x : Word) k, k < 8 → x.sshiftRight (8 * k) &&& 0xff = (lane x k).setWidth 64 :=
    fun x k hk => sshiftRight_mask x (by omega)
  unfold aesInvshifrowsLo
  rw [pack_eight_top, h b 3 (by decide), h b 6 (by decide), h a 1 (by decide), h a 4 (by decide), h a 7 (by decide),
    h b 2 (by decide), h b 5 (by decide), h a 0 (by decide)]
  rfl

theorem aesEncSbox_length : aesEncSbox.length = 256 := by decide +kernel

theorem aesDecSbox_length : aesDecSbox.length = 256 := by decide +kernel

/-- The half of a round's result that `aes64es` computes. -/
def encryptedHalf (a b : Word) : Word := Bytes.pack 64 (fun k => substitute aesEncSbox (shiftedRows a b k)) 8

theorem aes64es_eq (a b : Word) : aes64es a b = some (encryptedHalf a b) := by
  unfold aes64es encryptedHalf
  rw [aesSubBytes_eq aesEncSbox_length, aesShifrowsLo_eq]
  congr 1
  apply pack_congr
  intro k hk
  rw [lane_pack _ eight_bytes hk]

theorem aes64ds_eq (c d : Word) :
    aes64ds c d = some (Bytes.pack 64 (fun k => substitute aesDecSbox (invShiftedRows c d k)) 8) := by
  unfold aes64ds
  rw [aesSubBytes_eq aesDecSbox_length, aesInvshifrowsLo_eq]
  congr 1
  apply pack_congr
  intro k hk
  rw [lane_pack _ eight_bytes hk]

theorem decSbox_encSbox (b : BitVec 8) : substitute aesDecSbox (substitute aesEncSbox b) = b := by
  have hall : ∀ n < 256, substitute aesDecSbox (substitute aesEncSbox (BitVec.ofNat 8 n)) = BitVec.ofNat 8 n := by
    decide +kernel
  have h := hall b.toNat b.isLt
  rw [BitVec.ofNat_toNat, BitVec.setWidth_eq] at h
  exact h

theorem invShiftedRows_encrypted (a b : Word) (k : Nat) (hk : k < 8) :
    substitute aesDecSbox (invShiftedRows (encryptedHalf a b) (encryptedHalf b a) k) = lane a k := by
  have hlane : ∀ x y j, j < 8 → lane (encryptedHalf x y) j = substitute aesEncSbox (shiftedRows x y j) :=
    fun x y j hj => lane_pack _ eight_bytes hj
  have hback : ∀ x y j b, j < 8 → shiftedRows x y j = b → substitute aesDecSbox (lane (encryptedHalf x y) j) = b := by
    intro x y j b hj hb
    rw [hlane x y j hj, decSbox_encSbox, hb]
  rcases (by omega : k = 0 ∨ k = 1 ∨ k = 2 ∨ k = 3 ∨ k = 4 ∨ k = 5 ∨ k = 6 ∨ k = 7) with
    rfl | rfl | rfl | rfl | rfl | rfl | rfl | rfl
  · exact hback a b 0 _ (by decide) rfl
  · exact hback b a 5 _ (by decide) rfl
  · exact hback b a 2 _ (by decide) rfl
  · exact hback a b 7 _ (by decide) rfl
  · exact hback a b 4 _ (by decide) rfl
  · exact hback a b 1 _ (by decide) rfl
  · exact hback b a 6 _ (by decide) rfl
  · exact hback b a 3 _ (by decide) rfl

theorem aes64ds_encrypted (a b : Word) : aes64ds (encryptedHalf a b) (encryptedHalf b a) = some a := by
  rw [aes64ds_eq, pack_congr (invShiftedRows_encrypted a b)]
  exact congrArg some (pack_lane (n := 8) a)

end Rows

section Columns

theorem hom_ite {p : Prop} [Decidable p] {f g : BitVec v → BitVec w} (hf : Hom f) (hg : Hom g) :
    Hom fun x => if p then f x else g x := by
  intro x y
  dsimp only
  split
  · exact hf x y
  · exact hg x y

theorem hom_zero : Hom fun _ : BitVec v => (0 : BitVec w) := fun _ _ => BitVec.xor_self.symm

theorem aesXtime_hom : Hom aesXtime := by
  have htop : ∀ a : BitVec 32, (a &&& 0x80 ≠ 0) ↔ a.getLsbD 7 = true := by
    intro a
    have h : a &&& 0x80 = if a.getLsbD 7 then BitVec.twoPow 32 7 else 0 := BitVec.and_twoPow a 7
    rw [h]
    cases a.getLsbD 7 <;> decide
  have heq : aesXtime = fun a : BitVec 32 => a <<< 1 ^^^ if a.getLsbD 7 then 0x1b else 0 := by
    funext a
    unfold aesXtime
    simp only [htop]
  rw [heq]
  exact (hom_id.shiftLeft 1).xor (hom_bit 7 0x1b)

theorem aesGfmul_hom (b : BitVec 32) : Hom fun a => aesGfmul a b := by
  have h1 := aesXtime_hom
  have h2 := h1.comp h1
  have h3 := h1.comp h2
  exact ((((hom_ite hom_id hom_zero).xor (hom_ite h1 hom_zero)).xor (hom_ite h2 hom_zero)).xor
    (hom_ite h3 hom_zero)).and 0xff

theorem aesBy_hom (i : Nat) : Hom fun x => aesBy x i := (hom_id.ushiftRight (8 * i)).and 0xff

theorem aesMixbyte_hom (b0 b1 b2 b3 : Nat) : Hom fun col => aesMixbyte col b0 b1 b2 b3 :=
  (((aesBy_hom b3).xor (aesBy_hom b2)).xor ((aesGfmul_hom 3).comp (aesBy_hom b1))).xor
    ((aesGfmul_hom 2).comp (aesBy_hom b0))

theorem aesInvmixbyte_hom (b0 b1 b2 b3 : Nat) : Hom fun col => aesInvmixbyte col b0 b1 b2 b3 :=
  ((((aesGfmul_hom 0x9).comp (aesBy_hom b3)).xor ((aesGfmul_hom 0xd).comp (aesBy_hom b2))).xor
    ((aesGfmul_hom 0xb).comp (aesBy_hom b1))).xor ((aesGfmul_hom 0xe).comp (aesBy_hom b0))

theorem and_xor_byte (x y : BitVec 32) : (x &&& 0xff) ^^^ (y &&& 0xff) = (x ^^^ y) &&& 0xff :=
  (hom_id.and 0xff x y).symm

theorem setWidth_byte (x : BitVec 32) : ((x &&& 0xff).setWidth 8).setWidth 32 = x &&& 0xff := by
  have hmask : ∀ z : BitVec 32, z &&& 0xff = (z.setWidth 8).setWidth 32 := fun z => and_mask z 8
  have hbyte : ((x.setWidth 8).setWidth 32).setWidth 8 = x.setWidth 8 := by
    rw [BitVec.setWidth_setWidth_of_le _ (by decide), BitVec.setWidth_eq]
  rw [hmask, hbyte]

theorem aesMixbyte_byte (col : BitVec 32) (b0 b1 b2 b3 : Nat) :
    ((aesMixbyte col b0 b1 b2 b3).setWidth 8).setWidth 32 = aesMixbyte col b0 b1 b2 b3 := by
  unfold aesMixbyte aesBy aesGfmul
  rw [and_xor_byte, and_xor_byte, and_xor_byte, setWidth_byte]

theorem aesInvmixbyte_byte (col : BitVec 32) (b0 b1 b2 b3 : Nat) :
    ((aesInvmixbyte col b0 b1 b2 b3).setWidth 8).setWidth 32 = aesInvmixbyte col b0 b1 b2 b3 := by
  unfold aesInvmixbyte aesGfmul
  rw [and_xor_byte, and_xor_byte, and_xor_byte, setWidth_byte]

theorem column_hom {f : Nat → BitVec 32 → BitVec 32} (hf : ∀ k, Hom (f k))
    (hbyte : ∀ k x, ((f k x).setWidth 8).setWidth 32 = f k x) :
    Hom fun x => f 3 x <<< 24 ||| f 2 x <<< 16 ||| f 1 x <<< 8 ||| f 0 x <<< 0 := by
  have heq : (fun x => f 3 x <<< 24 ||| f 2 x <<< 16 ||| f 1 x <<< 8 ||| f 0 x <<< 0) =
      fun x => Bytes.pack 32 (fun k => (f k x).setWidth 8) 4 := by
    funext x
    rw [pack_four, hbyte, hbyte, hbyte, hbyte]
    exact (or_reverse_four _ _ _ _).symm
  rw [heq]
  exact hom_pack (fun k => (hf k).setWidth 8) rfl

theorem aesMixcolumn_hom : Hom aesMixcolumn :=
  column_hom (f := fun k col => aesMixbyte col k ((k + 1) % 4) ((k + 2) % 4) ((k + 3) % 4))
    (fun _ => aesMixbyte_hom _ _ _ _) fun _ col => aesMixbyte_byte col _ _ _ _

theorem aesInvmixcolumn_hom : Hom aesInvmixcolumn :=
  column_hom (f := fun k col => aesInvmixbyte col k ((k + 1) % 4) ((k + 2) % 4) ((k + 3) % 4))
    (fun _ => aesInvmixbyte_hom _ _ _ _) fun _ col => aesInvmixbyte_byte col _ _ _ _

theorem invmix_mix (col : BitVec 32) : aesInvmixcolumn (aesMixcolumn col) = col := by
  have hunits : ∀ i < 32, aesInvmixcolumn (aesMixcolumn (BitVec.twoPow 32 i)) = BitVec.twoPow 32 i := by
    decide +kernel
  exact congrFun (Hom.ext (aesInvmixcolumn_hom.comp aesMixcolumn_hom) hom_id hunits) col

theorem mix_invmix (col : BitVec 32) : aesMixcolumn (aesInvmixcolumn col) = col := by
  have hunits : ∀ i < 32, aesMixcolumn (aesInvmixcolumn (BitVec.twoPow 32 i)) = BitVec.twoPow 32 i := by
    decide +kernel
  exact congrFun (Hom.ext (aesMixcolumn_hom.comp aesInvmixcolumn_hom) hom_id hunits) col

end Columns

section Halves

variable (hi lo : BitVec 32) (x : Word)

theorem getLsbD_joinColumns (i : Nat) : (joinColumns hi lo).getLsbD i =
    if i < 32 then lo.getLsbD i else hi.getLsbD (i - 32) := by
  unfold joinColumns
  rw [BitVec.getLsbD_or, BitVec.getLsbD_shiftLeft, BitVec.getLsbD_setWidth, BitVec.getLsbD_setWidth]
  rcases Nat.lt_or_ge i 32 with h | h
  · have h64 : i < 64 := by omega
    rw [if_pos h, decide_eq_true h, decide_eq_true h64, Bool.not_true, Bool.and_false, Bool.false_and,
      Bool.false_or, Bool.true_and]
  · rw [if_neg (Nat.not_lt.mpr h), decide_eq_false (Nat.not_lt.mpr h), BitVec.getLsbD_of_ge lo i h, Bool.and_false,
      Bool.or_false, Bool.not_false, Bool.and_true]
    rcases Nat.lt_or_ge i 64 with h64 | h64
    · have hsub : i - 32 < 64 := by omega
      rw [decide_eq_true h64, decide_eq_true hsub, Bool.true_and, Bool.true_and]
    · rw [BitVec.getLsbD_of_ge hi (i - 32) (by omega), Bool.and_false, Bool.and_false]

theorem joinColumns_low : (joinColumns hi lo).setWidth 32 = lo := by
  apply BitVec.eq_of_getLsbD_eq
  intro i hi'
  rw [BitVec.getLsbD_setWidth, getLsbD_joinColumns, decide_eq_true hi', if_pos hi', Bool.true_and]

theorem joinColumns_high : (joinColumns hi lo >>> 32).setWidth 32 = hi := by
  apply BitVec.eq_of_getLsbD_eq
  intro i hi'
  have hge : ¬ 32 + i < 32 := by omega
  rw [BitVec.getLsbD_setWidth, BitVec.getLsbD_ushiftRight, getLsbD_joinColumns, decide_eq_true hi', if_neg hge,
    Nat.add_sub_cancel_left, Bool.true_and]

theorem high_signed : (x.sshiftRight 32).setWidth 32 = (x >>> 32).setWidth 32 := by
  apply BitVec.eq_of_getLsbD_eq
  intro i hi
  have h64 : ¬ 64 ≤ i := by omega
  have hin : 32 + i < 64 := by omega
  rw [BitVec.getLsbD_setWidth, BitVec.getLsbD_setWidth, BitVec.getLsbD_sshiftRight, BitVec.getLsbD_ushiftRight,
    if_pos hin, decide_eq_false h64, Bool.not_false, Bool.true_and]

theorem joinColumns_halves : joinColumns ((x >>> 32).setWidth 32) (x.setWidth 32) = x := by
  apply BitVec.eq_of_getLsbD_eq
  intro i hi
  rw [getLsbD_joinColumns, BitVec.getLsbD_setWidth, BitVec.getLsbD_setWidth, BitVec.getLsbD_ushiftRight]
  rcases Nat.lt_or_ge i 32 with h | h
  · rw [if_pos h, decide_eq_true h, Bool.true_and]
  · have hsub : i - 32 < 32 := by omega
    rw [if_neg (Nat.not_lt.mpr h), decide_eq_true hsub, Bool.true_and, Nat.add_sub_of_le h]

end Halves

section Rounds

/-- A half whose two columns are mixed. -/
def mixedHalf (x : Word) : Word :=
  joinColumns (aesMixcolumn ((x >>> 32).setWidth 32)) (aesMixcolumn (x.setWidth 32))

theorem aes64esm_eq (a b : Word) : aes64esm a b = some (mixedHalf (encryptedHalf a b)) := by
  unfold aes64esm
  rw [aes64es_eq]
  rfl

theorem aes64im_eq (x : Word) :
    aes64im x = joinColumns (aesInvmixcolumn ((x >>> 32).setWidth 32)) (aesInvmixcolumn (x.setWidth 32)) := by
  unfold aes64im
  dsimp only
  rw [high_signed]

theorem aes64im_mixed (x : Word) : aes64im (mixedHalf x) = x := by
  unfold mixedHalf
  rw [aes64im_eq, joinColumns_high, joinColumns_low, invmix_mix, invmix_mix, joinColumns_halves]

theorem aes64dsm_of_ds {c d a : Word} (h : aes64ds c d = some a) : aes64dsm c d = some (aes64im a) := by
  unfold aes64dsm
  rw [h, aes64im_eq]
  rfl

/-- The rounds of decryption undo those of encryption, on both halves of a state. A middle round is
undone up to `aes64im`, which the equivalent inverse cipher has on the state between its rounds. -/
theorem aes_rounds_invert (a b : Word) :
    ∃ c d c' d', aes64es a b = some c ∧ aes64es b a = some d ∧ aes64ds c d = some a ∧ aes64ds d c = some b ∧
      aes64esm a b = some c' ∧ aes64esm b a = some d' ∧ aes64im c' = c ∧ aes64im d' = d ∧
      aes64ds (aes64im c') (aes64im d') = some a ∧ aes64ds (aes64im d') (aes64im c') = some b ∧
      aes64dsm (aes64im c') (aes64im d') = some (aes64im a) ∧
      aes64dsm (aes64im d') (aes64im c') = some (aes64im b) ∧
      ∀ col, aesInvmixcolumn (aesMixcolumn col) = col ∧ aesMixcolumn (aesInvmixcolumn col) = col := by
  have hab := aes64ds_encrypted a b
  have hba := aes64ds_encrypted b a
  have hc := aes64im_mixed (encryptedHalf a b)
  have hd := aes64im_mixed (encryptedHalf b a)
  refine ⟨encryptedHalf a b, encryptedHalf b a, mixedHalf (encryptedHalf a b), mixedHalf (encryptedHalf b a),
    aes64es_eq a b, aes64es_eq b a, hab, hba, aes64esm_eq a b, aes64esm_eq b a, hc, hd, ?_⟩
  rw [hc, hd]
  exact ⟨hab, hba, aes64dsm_of_ds hab, aes64dsm_of_ds hba, fun col => ⟨invmix_mix col, mix_invmix col⟩⟩

end Rounds

end Nemu
