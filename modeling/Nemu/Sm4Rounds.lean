import Nemu.AesRounds

namespace Nemu

open Lanes XorHom

set_option autoImplicit true

section Spec

def bswap (x : BitVec 32) : BitVec 32 := Bytes.pack 32 (fun k => lane x (3 - k)) 4

/-- The S-box of SM4 on every byte. -/
def sm4Tau (x : BitVec 32) : BitVec 32 := Bytes.pack 32 (fun k => substitute sm4Sbox (lane x k)) 4

/-- The linear transform of the rounds. -/
def sm4L (b : BitVec 32) : BitVec 32 :=
  b ^^^ b.rotateLeft 2 ^^^ b.rotateLeft 10 ^^^ b.rotateLeft 18 ^^^ b.rotateLeft 24

/-- The linear transform of the key schedule. -/
def sm4LKey (b : BitVec 32) : BitVec 32 := b ^^^ b.rotateLeft 13 ^^^ b.rotateLeft 23

theorem four_bytes : 8 * 4 ≤ 32 := by decide

theorem lane_bswap {k : Nat} (x : BitVec 32) (hk : k < 4) : lane (bswap x) k = lane x (3 - k) :=
  lane_pack _ four_bytes hk

theorem sm4Tau_bswap (x : BitVec 32) : sm4Tau (bswap x) = bswap (sm4Tau x) := by
  unfold sm4Tau
  apply pack_congr
  intro k hk
  have h3 : 3 - k < 4 := by omega
  rw [lane_bswap x hk, lane_pack _ four_bytes h3]

theorem bswap_hom : Hom bswap := hom_pack (fun k => hom_lane hom_id (3 - k)) rfl

theorem sm4L_hom : Hom sm4L :=
  (((hom_id.xor (hom_id.rotateLeft 2)).xor (hom_id.rotateLeft 10)).xor (hom_id.rotateLeft 18)).xor
    (hom_id.rotateLeft 24)

theorem sm4LKey_hom : Hom sm4LKey := (hom_id.xor (hom_id.rotateLeft 13)).xor (hom_id.rotateLeft 23)

end Spec

section Linear

/-- `linear` in `sm4ed`, from the byte that the S-box gives. -/
def sm4edLinear (b : BitVec 8) : BitVec 32 :=
  b.setWidth 32 ^^^ b.setWidth 32 <<< 8 ^^^ b.setWidth 32 <<< 2 ^^^ b.setWidth 32 <<< 18 ^^^
    (b.setWidth 32 &&& 0x3f) <<< 26 ^^^ (b.setWidth 32 &&& 0xc0) <<< 10

def sm4ksLinear (b : BitVec 8) : BitVec 32 :=
  b.setWidth 32 ^^^ (b.setWidth 32 &&& 0x07) <<< 29 ^^^ (b.setWidth 32 &&& 0xfe) <<< 7 ^^^
    (b.setWidth 32 &&& 0x01) <<< 23 ^^^ (b.setWidth 32 &&& 0xf8) <<< 13

theorem sm4edLinear_hom : Hom sm4edLinear := by
  have h : Hom fun b : BitVec 8 => b.setWidth 32 := hom_id.setWidth 32
  exact ((((h.xor (h.shiftLeft 8)).xor (h.shiftLeft 2)).xor (h.shiftLeft 18)).xor
    ((h.and 0x3f).shiftLeft 26)).xor ((h.and 0xc0).shiftLeft 10)

theorem sm4ksLinear_hom : Hom sm4ksLinear := by
  have h : Hom fun b : BitVec 8 => b.setWidth 32 := hom_id.setWidth 32
  exact (((h.xor ((h.and 0x07).shiftLeft 29)).xor ((h.and 0xfe).shiftLeft 7)).xor
    ((h.and 0x01).shiftLeft 23)).xor ((h.and 0xf8).shiftLeft 13)

/-- What the four lanes contribute together. -/
def fourLanes (linear : BitVec 8 → BitVec 32) (z : BitVec 32) : BitVec 32 :=
  linear (lane z 0) ^^^ (linear (lane z 1)).rotateLeft 8 ^^^ (linear (lane z 2)).rotateLeft 16 ^^^
    (linear (lane z 3)).rotateLeft 24

theorem fourLanes_hom {linear : BitVec 8 → BitVec 32} (h : Hom linear) : Hom (fourLanes linear) := by
  have hk : ∀ k, Hom fun z : BitVec 32 => linear (lane z k) := fun k => h.comp (hom_lane hom_id k)
  exact (((hk 0).xor ((hk 1).rotateLeft 8)).xor ((hk 2).rotateLeft 16)).xor ((hk 3).rotateLeft 24)

theorem fourLanes_ed (z : BitVec 32) : fourLanes sm4edLinear z = bswap (sm4L (bswap z)) := by
  have hunits : ∀ i < 32, fourLanes sm4edLinear (BitVec.twoPow 32 i) =
      bswap (sm4L (bswap (BitVec.twoPow 32 i))) := by decide +kernel
  exact congrFun (Hom.ext (fourLanes_hom sm4edLinear_hom) (bswap_hom.comp (sm4L_hom.comp bswap_hom)) hunits) z

theorem fourLanes_ks (z : BitVec 32) : fourLanes sm4ksLinear z = bswap (sm4LKey (bswap z)) := by
  have hunits : ∀ i < 32, fourLanes sm4ksLinear (BitVec.twoPow 32 i) =
      bswap (sm4LKey (bswap (BitVec.twoPow 32 i))) := by decide +kernel
  exact congrFun (Hom.ext (fourLanes_hom sm4ksLinear_hom) (bswap_hom.comp (sm4LKey_hom.comp bswap_hom)) hunits) z

end Linear

section Steps

variable (H : HostShift) (log : List Nat)

theorem left_run (x : BitVec 32) {n : Nat} (hn : n < 32) :
    (H.left x n).run log = some (x <<< n, log ++ [n]) := by
  rw [← H.shl_lt x n hn]
  rfl

theorem right_run (x : BitVec 32) (n : Nat) : (H.right x n).run log = some (H.shr x n, log ++ [n]) := rfl

theorem lift_run (b : BitVec 8) : (StateT.lift (some b) : Shifts (BitVec 8)).run log = some (b, log) := rfl

theorem sm4Bs_eq (funct7 : BitVec 7) : ∃ k < 4, sm4Bs funct7 = 8 * k := by
  have hall : ∀ n < 128, ∃ k < 4, sm4Bs (BitVec.ofNat 7 n) = 8 * k := by decide
  have h := hall funct7.toNat funct7.isLt
  rw [BitVec.ofNat_toNat, BitVec.setWidth_eq] at h
  exact h

theorem sm4Bs_lt (funct7 : BitVec 7) : sm4Bs funct7 < 32 := by
  obtain ⟨k, hk, heq⟩ := sm4Bs_eq funct7
  omega

theorem sm4Sbox_length : sm4Sbox.length = 256 := by decide +kernel

/-- The byte of `rs2` that a step works on. -/
def sm4Byte (rs2 : BitVec 32) (bs : Nat) : BitVec 8 := substitute sm4Sbox (lane rs2 (bs / 8))

theorem sm4_lookup (rs2 : BitVec 32) (funct7 : BitVec 7) :
    sm4Sbox[(H.shr rs2 (sm4Bs funct7) &&& 0xff).toNat]? = some (sm4Byte rs2 (sm4Bs funct7)) := by
  obtain ⟨k, hk, heq⟩ := sm4Bs_eq funct7
  have hlt : 8 * k < 32 := by omega
  have hdiv : 8 * k / 8 = k := Nat.mul_div_cancel_left k (by decide)
  unfold sm4Byte
  rw [heq, hdiv, H.shr_lt _ _ hlt]
  exact lookup_lane sm4Sbox_length rs2 k (by decide)

/-- `(linear << bs) | (linear >> (32-bs))` -/
def HostShift.roll (linear : BitVec 32) (bs : Nat) : BitVec 32 := linear <<< bs ||| H.shr linear (32 - bs)

theorem sm4ed_run (rs1 rs2 : BitVec 32) (funct7 : BitVec 7) :
    (sm4ed H rs1 rs2 funct7).run log =
      some (H.roll (sm4edLinear (sm4Byte rs2 (sm4Bs funct7))) (sm4Bs funct7) ^^^ rs1,
        log ++ [sm4Bs funct7, 8, 2, 18, 26, 10, sm4Bs funct7, 32 - sm4Bs funct7]) := by
  have hbs := sm4Bs_lt funct7
  simp only [sm4ed, StateT.run_bind, right_run, sm4_lookup, lift_run, Option.bind_eq_bind, Option.bind_some,
    left_run H _ _ (by decide : 8 < 32), left_run H _ _ (by decide : 2 < 32), left_run H _ _ (by decide : 18 < 32),
    left_run H _ _ (by decide : 26 < 32), left_run H _ _ (by decide : 10 < 32), left_run H _ _ hbs,
    List.append_assoc]
  rfl

theorem sm4ks_run (rs1 rs2 : BitVec 32) (funct7 : BitVec 7) :
    (sm4ks H rs1 rs2 funct7).run log =
      some (H.roll (sm4ksLinear (sm4Byte rs2 (sm4Bs funct7))) (sm4Bs funct7) ^^^ rs1,
        log ++ [sm4Bs funct7, 29, 7, 23, 13, sm4Bs funct7, 32 - sm4Bs funct7]) := by
  have hbs := sm4Bs_lt funct7
  simp only [sm4ks, StateT.run_bind, right_run, sm4_lookup, lift_run, Option.bind_eq_bind, Option.bind_some,
    left_run H _ _ (by decide : 29 < 32), left_run H _ _ (by decide : 7 < 32), left_run H _ _ (by decide : 23 < 32),
    left_run H _ _ (by decide : 13 < 32), left_run H _ _ hbs, List.append_assoc]
  rfl

end Steps

section Rounds

/-- One step on each of the instructions that have these `funct7`, the result of one being `rs1` of the next. -/
def sm4Steps (step : BitVec 32 → BitVec 32 → BitVec 7 → Shifts (BitVec 32)) (w : BitVec 32) (fs : List (BitVec 7))
    (x : BitVec 32) : Shifts (BitVec 32) := fs.foldlM (fun x f => step x w f) x

variable {H : HostShift} {step : BitVec 32 → BitVec 32 → BitVec 7 → Shifts (BitVec 32)}
  {linear : BitVec 8 → BitVec 32} {amounts : Nat → List Nat} {x w : BitVec 32} {fs : List (BitVec 7)}

/-- A step adds the contribution of one lane, and shifts by the amounts that depend on the lane alone. -/
def IsLaneStep (H : HostShift) (step : BitVec 32 → BitVec 32 → BitVec 7 → Shifts (BitVec 32))
    (linear : BitVec 8 → BitVec 32) (amounts : Nat → List Nat) : Prop :=
  ∀ rs1 rs2 funct7 log, (step rs1 rs2 funct7).run log =
    some (H.roll (linear (sm4Byte rs2 (sm4Bs funct7))) (sm4Bs funct7) ^^^ rs1, log ++ amounts (sm4Bs funct7))

/-- The contribution of a lane. -/
def HostShift.laneTerm (H : HostShift) (linear : BitVec 8 → BitVec 32) (w : BitVec 32) (bs : Nat) : BitVec 32 :=
  H.roll (linear (sm4Byte w bs)) bs

theorem sm4Steps_run (hstep : IsLaneStep H step linear amounts) (log : List Nat) :
    (sm4Steps step w fs x).run log =
      some ((fs.map sm4Bs).foldl (fun x bs => H.laneTerm linear w bs ^^^ x) x,
        log ++ (fs.map sm4Bs).flatMap amounts) := by
  induction fs generalizing x log with
  | nil =>
    rw [List.map_nil, List.flatMap_nil, List.append_nil]
    rfl
  | cons f fs ih =>
    unfold sm4Steps at ih ⊢
    rw [List.foldlM_cons, StateT.run_bind, hstep]
    have hrest := ih (x := H.laneTerm linear w (sm4Bs f) ^^^ x) (log ++ amounts (sm4Bs f))
    rw [List.map_cons, List.foldl_cons, List.flatMap_cons, ← List.append_assoc]
    exact hrest

theorem roll_rotate (y : BitVec 32) {bs : Nat} (h0 : 0 < bs) (h : bs < 32) : H.roll y bs = y.rotateLeft bs := by
  have hsub : 32 - bs < 32 := by omega
  unfold HostShift.roll
  rw [H.shr_lt _ _ hsub, BitVec.rotateLeft_def, Nat.mod_eq_of_lt h]

theorem lane_sm4Tau {k : Nat} (hk : k < 4) : lane (sm4Tau w) k = sm4Byte w (8 * k) := by
  unfold sm4Byte
  rw [Nat.mul_div_cancel_left k (by decide)]
  exact lane_pack _ four_bytes hk

theorem xor_lanes (x l0 l1 l2 l3 t0 : BitVec 32) :
    l3 ^^^ (l2 ^^^ (l1 ^^^ (t0 ^^^ x))) = x ^^^ (l0 ^^^ l1 ^^^ l2 ^^^ l3) ^^^ (l0 ^^^ t0) := by
  have hzero : l0 ^^^ l0 = 0#32 := BitVec.xor_self
  calc l3 ^^^ (l2 ^^^ (l1 ^^^ (t0 ^^^ x))) = (0#32 ^^^ l3) ^^^ (l2 ^^^ (l1 ^^^ (t0 ^^^ x))) := by
        rw [BitVec.zero_xor]
    _ = ((l0 ^^^ l0) ^^^ l3) ^^^ (l2 ^^^ (l1 ^^^ (t0 ^^^ x))) := by rw [hzero]
    _ = x ^^^ (l0 ^^^ l1 ^^^ l2 ^^^ l3) ^^^ (l0 ^^^ t0) := by ac_rfl

/-- The four lanes in order, when the shift of the lane 0 by 32 is left to the host. -/
theorem lanes_foldl (linear : BitVec 8 → BitVec 32) :
    [0, 8, 16, 24].foldl (fun x bs => H.laneTerm linear w bs ^^^ x) x =
      x ^^^ fourLanes linear (sm4Tau w) ^^^ (linear (sm4Byte w 0) ^^^ H.roll (linear (sm4Byte w 0)) 0) := by
  have h1 : H.laneTerm linear w 8 = (linear (lane (sm4Tau w) 1)).rotateLeft 8 := by
    rw [lane_sm4Tau (by decide)]
    exact roll_rotate _ (by decide) (by decide)
  have h2 : H.laneTerm linear w 16 = (linear (lane (sm4Tau w) 2)).rotateLeft 16 := by
    rw [lane_sm4Tau (by decide)]
    exact roll_rotate _ (by decide) (by decide)
  have h3 : H.laneTerm linear w 24 = (linear (lane (sm4Tau w) 3)).rotateLeft 24 := by
    rw [lane_sm4Tau (by decide)]
    exact roll_rotate _ (by decide) (by decide)
  have h0 : linear (sm4Byte w 0) = linear (lane (sm4Tau w) 0) := by rw [lane_sm4Tau (by decide)]
  unfold fourLanes
  rw [← h1, ← h2, ← h3, ← h0]
  simp only [List.foldl_cons, List.foldl_nil]
  exact xor_lanes _ _ _ _ _ _

/-- The word that the four steps are meant to give. -/
def sm4Round (L : BitVec 32 → BitVec 32) (x w : BitVec 32) : BitVec 32 := x ^^^ bswap (L (sm4Tau (bswap w)))

/-- Four steps give the word of the round, with shifts that the language defines. -/
def Sm4Composes (step : BitVec 32 → BitVec 32 → BitVec 7 → Shifts (BitVec 32)) (L : BitVec 32 → BitVec 32)
    (x w : BitVec 32) (fs : List (BitVec 7)) : Prop :=
  ∃ r log, (sm4Steps step w fs x).run [] = some (r, log) ∧ r = sm4Round L x w ∧ ∀ n ∈ log, n < 32

/-- The bits that the host's shift by 32 adds to a word. -/
def HostShift.excess (H : HostShift) (y : BitVec 32) : BitVec 32 := y ^^^ (y ||| H.shr y 32)

/-- What four steps on the four lanes do, in any order. -/
theorem sm4Steps_lanes (hstep : IsLaneStep H step linear amounts) {L : BitVec 32 → BitVec 32}
    (hL : ∀ z, fourLanes linear z = bswap (L (bswap z))) (hfs : (fs.map sm4Bs).Perm [0, 8, 16, 24]) :
    ∃ log, (sm4Steps step w fs x).run [] = some (sm4Round L x w ^^^ H.excess (linear (sm4Byte w 0)), log) ∧
      ∀ n, n ∈ log ↔ n ∈ [0, 8, 16, 24].flatMap amounts := by
  have hcomm : ∀ bs ∈ fs.map sm4Bs, ∀ bs' ∈ fs.map sm4Bs, ∀ z,
      H.laneTerm linear w bs' ^^^ (H.laneTerm linear w bs ^^^ z) =
        H.laneTerm linear w bs ^^^ (H.laneTerm linear w bs' ^^^ z) := by
    intro bs _ bs' _ z
    ac_rfl
  have hroll : H.roll (linear (sm4Byte w 0)) 0 =
      linear (sm4Byte w 0) ||| H.shr (linear (sm4Byte w 0)) 32 := by
    unfold HostShift.roll
    rw [BitVec.shiftLeft_zero, Nat.sub_zero]
  have hrun : (sm4Steps step w fs x).run [] = _ := sm4Steps_run hstep []
  rw [hfs.foldl_eq' hcomm, lanes_foldl, hL, ← sm4Tau_bswap, List.nil_append, hroll] at hrun
  exact ⟨_, hrun, fun n => (hfs.flatMap_right amounts).mem_iff⟩

/-- The shift of the lane 0 by 32 is in every run, in whichever order, and what it gives is left to the host.
All other amounts are below 32, and but for what that shift adds the result is the one of the round. -/
theorem sm4_composes_never (H : HostShift) (x w : BitVec 32) (fs : List (BitVec 7))
    (hfs : (fs.map sm4Bs).Perm [0, 8, 16, 24]) :
    (¬ Sm4Composes (sm4ed H) sm4L x w fs ∧ ¬ Sm4Composes (sm4ks H) sm4LKey x w fs) ∧
    (∃ log, (sm4Steps (sm4ed H) w fs x).run [] =
        some (sm4Round sm4L x w ^^^ H.excess (sm4edLinear (sm4Byte w 0)), log) ∧ ∀ n ∈ log, n < 32 ∨ n = 32) ∧
    ∃ log, (sm4Steps (sm4ks H) w fs x).run [] =
        some (sm4Round sm4LKey x w ^^^ H.excess (sm4ksLinear (sm4Byte w 0)), log) ∧ ∀ n ∈ log, n < 32 ∨ n = 32 := by
  have hed : IsLaneStep H (sm4ed H) sm4edLinear fun bs => [bs, 8, 2, 18, 26, 10, bs, 32 - bs] :=
    fun rs1 rs2 funct7 log => sm4ed_run H log rs1 rs2 funct7
  have hks : IsLaneStep H (sm4ks H) sm4ksLinear fun bs => [bs, 29, 7, 23, 13, bs, 32 - bs] :=
    fun rs1 rs2 funct7 log => sm4ks_run H log rs1 rs2 funct7
  obtain ⟨log, hrun, hlog⟩ := sm4Steps_lanes (x := x) (w := w) hed fourLanes_ed hfs
  obtain ⟨log', hrun', hlog'⟩ := sm4Steps_lanes (x := x) (w := w) hks fourLanes_ks hfs
  have hnever : ∀ {step : BitVec 32 → BitVec 32 → BitVec 7 → Shifts (BitVec 32)} {L : BitVec 32 → BitVec 32}
      {r : BitVec 32} {log : List Nat}, (sm4Steps step w fs x).run [] = some (r, log) → 32 ∈ log →
      ¬ Sm4Composes step L x w fs := by
    intro step L r log hrun hmem hc
    obtain ⟨r1, log1, hrun1, _, hlt⟩ := hc
    rw [hrun] at hrun1
    cases hrun1
    exact absurd (hlt 32 hmem) (by decide)
  refine ⟨⟨hnever hrun ((hlog 32).mpr (by decide)), hnever hrun' ((hlog' 32).mpr (by decide))⟩,
    ⟨log, hrun, fun n hn => ?_⟩, ⟨log', hrun', fun n hn => ?_⟩⟩
  · have hall : ∀ m ∈ [0, 8, 16, 24].flatMap fun bs => [bs, 8, 2, 18, 26, 10, bs, 32 - bs], m < 32 ∨ m = 32 := by
      decide
    exact hall n ((hlog n).mp hn)
  · have hall : ∀ m ∈ [0, 8, 16, 24].flatMap fun bs => [bs, 29, 7, 23, 13, bs, 32 - bs], m < 32 ∨ m = 32 := by
      decide
    exact hall n ((hlog' n).mp hn)

/-- A host whose shifts only look at the lowest five bits of the amount, as most do. -/
def maskingHost : HostShift where
  shl x n := x <<< (n % 32)
  shr x n := x >>> (n % 32)
  shl_lt x n h := by rw [Nat.mod_eq_of_lt h]
  shr_lt x n h := by rw [Nat.mod_eq_of_lt h]

theorem maskingHost_excess (x y : BitVec 32) : x ^^^ maskingHost.excess y = x := by
  have h : maskingHost.excess y = 0#32 := by
    change y ^^^ (y ||| y >>> 0) = 0#32
    rw [BitVec.ushiftRight_zero, BitVec.or_self, BitVec.xor_self]
  rw [h, BitVec.xor_zero]

/-- Such a host gives the words of the rounds, here from the last lane to the first. -/
theorem sm4_composes_never_masking :
    ¬ Sm4Composes (sm4ks maskingHost) sm4LKey 0x12345678 0x89abcdef [0x7a, 0x5a, 0x3a, 0x1a] ∧
    (∃ log, (sm4Steps (sm4ed maskingHost) 0x89abcdef [0x78, 0x58, 0x38, 0x18] 0x12345678).run [] =
      some (sm4Round sm4L 0x12345678 0x89abcdef, log)) ∧
    ∃ log, (sm4Steps (sm4ks maskingHost) 0x89abcdef [0x7a, 0x5a, 0x3a, 0x1a] 0x12345678).run [] =
      some (sm4Round sm4LKey 0x12345678 0x89abcdef, log) := by
  obtain ⟨_, ⟨log, hed, _⟩, _⟩ :=
    sm4_composes_never maskingHost 0x12345678 0x89abcdef [0x78, 0x58, 0x38, 0x18] (by decide)
  obtain ⟨⟨_, hks⟩, _, log', hrun, _⟩ :=
    sm4_composes_never maskingHost 0x12345678 0x89abcdef [0x7a, 0x5a, 0x3a, 0x1a] (by decide)
  rw [maskingHost_excess] at hed hrun
  exact ⟨hks, ⟨log, hed⟩, log', hrun⟩

/-- The first step alone shifts a 32-bit value by 32. -/
theorem sm4ed_shift_by_width :
    ¬ Sm4Composes (sm4ed maskingHost) sm4L 0x12345678 0x89abcdef [0x18, 0x38, 0x58, 0x78] := by
  have hlog : ∃ r log, (sm4Steps (sm4ed maskingHost) 0x89abcdef [0x18, 0x38, 0x58, 0x78] 0x12345678).run [] =
      some (r, log) ∧ 32 ∈ log := ⟨_, _, rfl, by decide⟩
  obtain ⟨r, log, hrun, hmem⟩ := hlog
  intro hc
  obtain ⟨r', log', hrun', _, hlt⟩ := hc
  rw [hrun] at hrun'
  cases hrun'
  exact absurd (hlt 32 hmem) (by decide)

end Rounds

end Nemu
