import Nemu.Sm4Rounds

namespace Nemu

open Lanes

set_option autoImplicit true

section Lookups

variable {H : HostShift} {a b : Word}

theorem aesSubWord_isSome (temp : BitVec 32) : (aesSubWord temp).isSome = true := by
  have h : ∀ k, aesEncSbox[(temp >>> (8 * k) &&& 0xff).toNat]? = some (substitute aesEncSbox (lane temp k)) :=
    fun k => lookup_lane aesEncSbox_length temp k (by decide)
  have h0 : aesEncSbox[(temp >>> 0 &&& 0xff).toNat]? = _ := h 0
  have h1 : aesEncSbox[(temp >>> 8 &&& 0xff).toNat]? = _ := h 1
  have h2 : aesEncSbox[(temp >>> 16 &&& 0xff).toNat]? = _ := h 2
  have h3 : aesEncSbox[(temp >>> 24 &&& 0xff).toNat]? = _ := h 3
  unfold aesSubWord
  rw [h3, h2, h1, h0]
  rfl

/-- The table of round constants has ten entries, and the round number 10 does not use it. -/
theorem aes64ks1i_isSome : (aes64ks1i a b).isSome = true ↔ (b &&& 0xf).toNat ≤ 10 := by
  have hlt : (b &&& 0xf).toNat < 16 := by
    have hmask : b &&& 0xf = (b.setWidth 4).setWidth 64 := and_mask b 4
    have h4 : (b.setWidth 4).toNat < 16 := (b.setWidth 4).isLt
    rw [hmask, BitVec.toNat_setWidth]
    exact Nat.lt_of_le_of_lt (Nat.mod_le _ _) h4
  have hrcon : ((b &&& 0xf).setWidth 8).toNat = (b &&& 0xf).toNat := by
    rw [BitVec.toNat_setWidth]
    omega
  unfold aes64ks1i
  dsimp only
  by_cases hten : (b &&& 0xf).setWidth 8 = 0xa
  · have hnat : (b &&& 0xf).toNat = 10 := by
      rw [← hrcon, hten]
      rfl
    obtain ⟨t, ht⟩ := Option.isSome_iff_exists.mp
      (aesSubWord_isSome ((a.sshiftRight 32).setWidth 32))
    rw [if_neg (not_not.mpr hten), ht]
    exact ⟨fun _ => Nat.le_of_eq hnat, fun _ => rfl⟩
  · have hne : (b &&& 0xf).toNat ≠ 10 := by
      intro h
      apply hten
      apply BitVec.eq_of_toNat_eq
      rw [hrcon, h]
      rfl
    obtain ⟨t, ht⟩ := Option.isSome_iff_exists.mp
      (aesSubWord_isSome ((a.sshiftRight 32).setWidth 32 >>> 8 ||| (a.sshiftRight 32).setWidth 32 <<< 24))
    rw [if_pos hten, hrcon, ht]
    rcases Nat.lt_or_ge (b &&& 0xf).toNat 10 with h | h
    · have hlen : (b &&& 0xf).toNat < roundConsts.length := h
      rw [List.getElem?_eq_getElem hlen]
      exact ⟨fun _ => Nat.le_of_lt h, fun _ => rfl⟩
    · have hlen : roundConsts.length ≤ (b &&& 0xf).toNat := h
      rw [List.getElem?_eq_none hlen]
      refine ⟨fun hs => ?_, fun hle => absurd (Nat.le_antisymm hle h) hne⟩
      cases hs

/-- All other lookups have a byte as index. -/
theorem rvkExec_isSome (o : RvkOp) (funct7 : BitVec 7) (ho : o ≠ .aes64ks1i) :
    (rvkExec H funct7 a b o).isSome = true := by
  cases o
  case aes64es =>
    unfold rvkExec
    rw [aes64es_eq]
    rfl
  case aes64esm =>
    unfold rvkExec
    rw [aes64esm_eq]
    rfl
  case aes64ds =>
    unfold rvkExec
    rw [aes64ds_eq]
    rfl
  case aes64dsm =>
    unfold rvkExec
    rw [aes64dsm_of_ds (aes64ds_eq a b)]
    rfl
  case aes64ks1i => exact absurd rfl ho
  case sm4ed =>
    unfold rvkExec
    rw [sm4ed_run]
    rfl
  case sm4ks =>
    unfold rvkExec
    rw [sm4ks_run]
    rfl
  all_goals rfl

end Lookups

section Rows

variable {P : Platform} {f : Fetched}

/-- The encodings of `aes64ks1i`. -/
def Fetched.IsKs1i (f : Fetched) : Prop := f.opcode = 0b00100 ∧ f.funct3 = 1 ∧ f.bits 31 24 = 0b00110001

/-- The round numbers from 0xB on are reserved. -/
def Fetched.ReservedRnum (f : Fetched) : Prop := f.IsKs1i ∧ 10 < (f.bits 23 20).toNat

/-- Only one row of `op_imm` gives `aes64ks1i`. -/
def Ks1iRow (f : Fetched) (id : ExecId) : Prop :=
  id = .rvkImm .aes64ks1i → f.bits 31 24 = 0b00110001 ∧ f.funct3 = 1

theorem Ks1iRow.ite {x y : ExecId} [Decidable p] (hx : p → Ks1iRow f x) (hy : Ks1iRow f y) :
    Ks1iRow f (if p then x else y) := by
  split
  · next h => exact hx h
  · exact hy

theorem Ks1iRow.of_notExt {id : ExecId} (h : id.notExt = true) : Ks1iRow f id := by
  intro hid
  rw [hid] at h
  cases h

theorem tableOpImmExt_ks1i : Ks1iRow f (tableOpImmExt P f) := by
  unfold tableOpImmExt
  repeat' apply Ks1iRow.ite
  all_goals first
    | exact fun h _ => h.2
    | exact ExecId.noConfusion
    | exact fun _ => ExecId.noConfusion
    | exact fun _ hid => RvkOp.noConfusion (ExecId.rvkImm.inj hid)

theorem tableOpImm_ks1i : Ks1iRow f (tableOpImm P f) := by
  have hdispatch : (tableCAddiDispatch f.immI).notExt = true := ExecId.fits_ite rfl (ExecId.fits_ite rfl rfl)
  have haddi : (tableAddiDispatch f).notExt = true := by
    unfold tableAddiDispatch
    repeat' apply ExecId.fits_ite (p := ExecId.notExt)
    all_goals rfl
  unfold tableOpImm
  repeat' first | exact tableOpImmExt_ks1i | apply Ks1iRow.ite
  all_goals first
    | exact fun _ => .of_notExt hdispatch
    | exact fun _ => .of_notExt haddi
    | exact fun _ => .of_notExt rfl

theorem tableOpImm32_ks1i : tableOpImm32 P f ≠ .rvkImm .aes64ks1i := by
  have h : decide (tableOpImm32 P f ≠ .rvkImm .aes64ks1i) = true := by
    unfold tableOpImm32
    repeat' apply ExecId.fits_ite (p := fun id => decide (id ≠ .rvkImm .aes64ks1i))
    all_goals rfl
  exact of_decide_eq_true h

theorem isKs1i_of_id (hid : (tableMain P f).id = .rvkImm .aes64ks1i) :
    f.IsKs1i ∧ (tableMain P f).src2.imm = f.immI := by
  have himm : (tableMain P f).id.isExtImm = true := by
    rw [hid]
    rfl
  obtain ⟨hsrc2, hrow⟩ := tableMain_extRow.imm himm
  rcases hrow with ⟨hop, heq⟩ | ⟨_, heq⟩
  · obtain ⟨h8, h3⟩ := tableOpImm_ks1i (heq.symm.trans hid)
    exact ⟨⟨hop, h3, h8⟩, hsrc2⟩
  · exact absurd (heq.symm.trans hid) tableOpImm32_ks1i

theorem tableOpImm_isKs1i (hk : P.rvk = true) (h3 : f.funct3 = 1) (h8 : f.bits 31 24 = 0b00110001) :
    tableOpImm P f = .rvkImm .aes64ks1i := by
  have h6 : f.funct6 = 0b001100 := by
    have h : f.funct6 = (f.bits 31 24).extractLsb' 2 6 := by
      apply BitVec.eq_of_getLsbD_eq
      intro i hi
      unfold Fetched.funct6 Fetched.bits
      simp only [BitVec.getLsbD_extractLsb']
      grind
    rw [h, h8]
    rfl
  have h12 : ∀ c : BitVec 12, c.extractLsb' 4 8 ≠ 0b00110001 → f.bits 31 20 ≠ c := by
    intro c hc heq
    apply hc
    rw [← heq, ← h8]
    apply BitVec.eq_of_getLsbD_eq
    intro i hi
    unfold Fetched.bits
    simp only [BitVec.getLsbD_extractLsb']
    grind
  have hclz := h12 1536#12 (by decide)
  have hctz := h12 1537#12 (by decide)
  have hcpop := h12 1538#12 (by decide)
  have hsextb := h12 1540#12 (by decide)
  have hsexth := h12 1541#12 (by decide)
  have him := h12 768#12 (by decide)
  unfold tableOpImm tableOpImmExt
  simp [h6, h3, h8, hk, hclz, hctz, hcpop, hsextb, hsexth, him]

theorem tableMain_isKs1i (hk : P.rvk = true) (h : f.IsKs1i) :
    tableMain P f = decodeI f (.rvkImm .aes64ks1i) := by
  obtain ⟨hop, h3, h8⟩ := h
  rw [← tableOpImm_isKs1i hk h3 h8]
  unfold tableMain
  simp [hop]

theorem rnum_eq : (f.immI &&& 0xf).toNat = (f.bits 23 20).toNat := by
  have hmask : f.immI &&& 0xf = (f.immI.setWidth 4).setWidth 64 := and_mask f.immI 4
  have hlow : f.immI.setWidth 4 = f.bits 23 20 := immI_low (by decide)
  have hlt : (f.bits 23 20).toNat < 16 := (f.bits 23 20).isLt
  rw [hmask, hlow, BitVec.toNat_setWidth]
  exact Nat.mod_eq_of_lt (by omega)

end Rows

section Range

/-- Every lookup of the executor that the decoder selects is inside of its table. -/
def LookupsInRange (H : HostShift) (P : Platform) (f : Fetched) : Prop :=
  ∀ (s : Machine) (o : RvkOp),
    ((tableMain P f).id = .rvkReg o →
      (rvkExec H f.funct7 (s.readLoc (tableMain P f).src1.preg) (s.readLoc (tableMain P f).src2.preg) o).isSome) ∧
    ((tableMain P f).id = .rvkImm o →
      (rvkExec H f.funct7 (s.readLoc (tableMain P f).src1.preg) (tableMain P f).src2.imm o).isSome)

/-- A reserved round number is decoded as `aes64ks1i` all the same, and the table of round constants is
read beyond its end. -/
theorem lookups_in_range_iff (H : HostShift) (P : Platform) (f : Fetched) (hk : P.rvk = true) :
    (LookupsInRange H P f ∧ (f.ReservedRnum → (tableMain P f).id = .inv)) ↔ ¬ f.ReservedRnum := by
  constructor
  · intro h hres
    have hid := h.2 hres
    rw [tableMain_isKs1i hk hres.1] at hid
    cases hid
  · intro hres
    refine ⟨fun s o => ⟨fun hid => ?_, fun hid => ?_⟩, fun h => absurd h hres⟩
    · apply rvkExec_isSome
      intro ho
      rw [ho] at hid
      exact tableMain_extRow.reg hid
    · by_cases ho : o = .aes64ks1i
      · rw [ho] at hid ⊢
        obtain ⟨hks1i, himm⟩ := isKs1i_of_id hid
        rw [himm]
        apply aes64ks1i_isSome.mpr
        rw [rnum_eq]
        exact Nat.le_of_not_lt fun hgt => hres ⟨hks1i, hgt⟩
      · exact rvkExec_isSome o _ ho

/-- `aes64ks1i a0, a0, rnum` -/
def ks1iWord (rnum : BitVec 4) : Fetched := immediateWord (0b00110001#8 ++ rnum) 1 0b0010011

theorem lookups_in_range_last : LookupsInRange maskingHost (.bare .standalone) (ks1iWord 9) :=
  ((lookups_in_range_iff maskingHost (.bare .standalone) (ks1iWord 9) rfl).mpr
    fun h => absurd h.2 (by decide)).1

/-- Round number 11 is decoded, and the lookup fails. -/
theorem ks1i_out_of_range :
    (ks1iWord 11).ReservedRnum ∧ (tableMain (.bare .standalone) (ks1iWord 11)).id = .rvkImm .aes64ks1i ∧
      rvkExec maskingHost (ks1iWord 11).funct7 0x0123456789abcdef
        (tableMain (.bare .standalone) (ks1iWord 11)).src2.imm .aes64ks1i = none := by
  refine ⟨⟨⟨by decide, by decide, by decide⟩, by decide⟩, by decide, ?_⟩
  decide

end Range

end Nemu
