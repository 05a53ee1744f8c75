import Nemu.Footprint
import Nemu.Reachable

namespace Nemu

open Effect

set_option autoImplicit true

/-- The rounding modes `FPCALL_RM_*`. -/
inductive RoundingMode where
  | RNE | RTZ | RDN | RUP | RMM
  deriving DecidableEq

namespace RoundingMode

def code : RoundingMode → BitVec 32
  | RNE => 0
  | RTZ => 1
  | RDN => 2
  | RUP => 3
  | RMM => 4

/-- The `switch` of `fp_update_rm_cache`. -/
def ofFrm (frm : Word) : Option RoundingMode :=
  if frm = 0 then some RNE else if frm = 1 then some RTZ else if frm = 2 then some RDN
  else if frm = 3 then some RUP else if frm = 4 then some RMM else none

theorem exists_of_lt (r : BitVec 3) (h : (r.setWidth 32 : BitVec 32) < 5) :
    ∃ m, ofFrm (r.setWidth 64) = some m ∧ r.setWidth 32 = m.code := by
  have hall : ∀ r : BitVec 3, (r.setWidth 32 : BitVec 32) < 5 →
      ofFrm (r.setWidth 64) = some RNE ∧ r.setWidth 32 = RNE.code ∨
      ofFrm (r.setWidth 64) = some RTZ ∧ r.setWidth 32 = RTZ.code ∨
      ofFrm (r.setWidth 64) = some RDN ∧ r.setWidth 32 = RDN.code ∨
      ofFrm (r.setWidth 64) = some RUP ∧ r.setWidth 32 = RUP.code ∨
      ofFrm (r.setWidth 64) = some RMM ∧ r.setWidth 32 = RMM.code := by
    decide
  obtain h | h | h | h | h := hall r h
  all_goals exact ⟨_, h⟩

end RoundingMode

/-- `frm` and `fflags` hold a rounding mode and a set of flags, and `fcsr` holds both. -/
structure FpHolds (s : Machine) (r : BitVec 3) (f : BitVec 5) : Prop where
  frm : s.csr .frm = r.setWidth 64
  fflags : s.csr .fflags = f.setWidth 64
  fcsr : s.csr .fcsr = (r ++ f).setWidth 64

/-- The accrued flags only grow, and the rounding mode stays. -/
structure FlagsAccrue (s t : Machine) : Prop where
  frm : t.csr .frm = s.csr .frm
  fflags : s.csr .fflags &&& t.csr .fflags = s.csr .fflags
  fcsr : s.csr .fcsr &&& t.csr .fcsr = s.csr .fcsr
  rm : t.rmCache = s.rmCache

variable {P : Platform} {s t : Machine} {d : Decode} {r : BitVec 3} {f g : BitVec 5}

section Words

theorem and_low (x m : Word) (n : Nat) (hm : m.toNat = 2 ^ n - 1) (hn : n ≤ 64) :
    x &&& m = (x.extractLsb' 0 n).setWidth 64 := by
  rw [← BitVec.setWidth_eq_extractLsb' hn]
  apply BitVec.eq_of_toNat_eq
  rw [BitVec.toNat_and, hm, Nat.and_two_pow_sub_one_eq_mod, BitVec.toNat_setWidth,
    BitVec.toNat_setWidth, Nat.mod_eq_of_lt (b := 2 ^ 64)]
  exact Nat.lt_of_lt_of_le (Nat.mod_lt _ (Nat.two_pow_pos n)) (Nat.pow_le_pow_right (by decide) hn)

theorem join_fields (r : BitVec 3) (f : BitVec 5) :
    (r.setWidth 64 <<< 5) ||| f.setWidth 64 = ((r ++ f).setWidth 64 : Word) :=
  BitVec.setWidth_append_eq_shiftLeft_setWidth_or.symm

theorem insert_flags (r : BitVec 3) (f g : BitVec 5) :
    BitField.insert 0 g ((r ++ f).setWidth 64 : Word) = (r ++ g).setWidth 64 := by
  apply BitVec.eq_of_getLsbD_eq
  intro i hi
  rw [BitField.getLsbD_insert]
  simp only [BitVec.getLsbD_setWidth, BitVec.getLsbD_append]
  split <;> grind

theorem extract_fields (x : Word) :
    x.extractLsb' 0 8 = x.extractLsb' 5 3 ++ x.extractLsb' 0 5 := by
  have h : x.extractLsb' 5 3 ++ x.extractLsb' 0 5 = x.extractLsb' 0 (3 + 5) :=
    BitVec.extractLsb'_append_extractLsb'_eq_extractLsb' rfl
  exact h.symm

theorem extract_shiftRight (x : Word) : (x >>> 5).extractLsb' 0 3 = x.extractLsb' 5 3 := by
  ext i hi
  simp only [BitVec.getElem_extractLsb', BitVec.getLsbD_ushiftRight, Nat.zero_add]

theorem extract_flags (r : BitVec 3) (f : BitVec 5) :
    ((r ++ f).setWidth 64 : Word).extractLsb' 0 5 = f := by
  apply BitVec.eq_of_getLsbD_eq
  intro i hi
  simp only [BitVec.getLsbD_extractLsb', BitVec.getLsbD_setWidth, BitVec.getLsbD_append]
  grind

theorem extract_rounding (r : BitVec 3) (f : BitVec 5) :
    ((r ++ f).setWidth 64 : Word).extractLsb' 5 3 = r := by
  apply BitVec.eq_of_getLsbD_eq
  intro i hi
  simp only [BitVec.getLsbD_extractLsb', BitVec.getLsbD_setWidth, BitVec.getLsbD_append]
  grind

theorem setWidth_lt (x : BitVec n) (hn : n < 64) :
    (x.setWidth 64 : Word) < BitVec.ofNat 64 (2 ^ n) := by
  rw [BitVec.lt_def, BitVec.toNat_setWidth, BitVec.toNat_ofNat,
    Nat.mod_eq_of_lt (Nat.pow_lt_pow_right (by decide) hn)]
  exact Nat.lt_of_le_of_lt (Nat.mod_le _ _) x.isLt

end Words

section Holds

theorem FpHolds.of_csr (hs : FpHolds s r f) (h : ∀ c, isFpCsr c = true → t.csr c = s.csr c) :
    FpHolds t r f where
  frm := (h .frm rfl).trans hs.frm
  fflags := (h .fflags rfl).trans hs.fflags
  fcsr := (h .fcsr rfl).trans hs.fcsr

theorem FpHolds.frm_eq (hs : FpHolds s r f) : s.frm = r := by
  unfold Machine.frm
  rw [hs.fcsr, extract_rounding]

theorem FpHolds.setFlags (hs : FpHolds s r f) (g : BitVec 5) :
    FpHolds ((s.setCsr .fcsr (BitField.insert 0 g (s.csr .fcsr))).setCsr .fflags (g.setWidth 64))
      r g where
  frm := hs.frm
  fflags := Machine.setCsr_csr_self _ _ _
  fcsr := by
    rw [Machine.setCsr_csr_ne _ _ (by decide), Machine.setCsr_csr_self, hs.fcsr, insert_flags]

theorem csrTargets_fp (hc : isFpCsr c = false) (h : c' ∈ csrTargets c) : isFpCsr c' = false := by
  cases c with
  | fflags | frm | fcsr => cases hc
  | vcsr =>
    obtain rfl | h := List.mem_cons.mp h
    · rfl
    · rw [List.mem_singleton.mp h]
      rfl
  | _ =>
    rw [List.mem_singleton.mp h]
    rfl

theorem FpHolds.csrStore (hs : FpHolds s r f) (c : Csr) (x : Word) :
    ∃ r' f', FpHolds (csrStore P s c x) r' f' := by
  cases hc : isFpCsr c with
  | false =>
    refine ⟨r, f, hs.of_csr fun c' hc' => csrStore_frame fun hmem => ?_⟩
    exact absurd ((csrTargets_fp hc hmem).symm.trans hc') Bool.false_ne_true
  | true =>
    cases c with
    | fflags =>
      refine ⟨r, x.extractLsb' 0 5, hs.frm, ?_, ?_⟩
      · exact and_low x 0x1f 5 rfl (by decide)
      · refine (Machine.setCsr_csr_self _ _ _).trans ?_
        rw [hs.frm, and_low x 0x1f 5 rfl (by decide), join_fields]
    | frm =>
      refine ⟨x.extractLsb' 0 3, f, ?_, hs.fflags, ?_⟩
      · exact and_low x 7 3 rfl (by decide)
      · refine (Machine.setCsr_csr_self _ _ _).trans ?_
        rw [hs.fflags, and_low x 7 3 rfl (by decide), join_fields]
    | fcsr =>
      refine ⟨x.extractLsb' 5 3, x.extractLsb' 0 5, ?_, ?_, ?_⟩
      · refine (Machine.setCsr_csr_self _ _ _).trans ?_
        rw [and_low _ 7 3 rfl (by decide), extract_shiftRight]
      · exact and_low x 0x1f 5 rfl (by decide)
      · have h : (Nemu.csrStore P s .fcsr x).csr .fcsr = x &&& 0xff := rfl
        rw [h, and_low x 0xff 8 rfl (by decide), extract_fields]
    | _ => cases hc

end Holds

section Change

def Machine.fpCsrs (s : Machine) : Word × Word × Word := (s.csr .frm, s.csr .fflags, s.csr .fcsr)

theorem FpHolds.of_fpCsrs (hs : FpHolds s r f) (h : t.fpCsrs = s.fpCsrs) : FpHolds t r f where
  frm := (congrArg (fun p => p.1) h).trans hs.frm
  fflags := (congrArg (fun p => p.2.1) h).trans hs.fflags
  fcsr := (congrArg (fun p => p.2.2) h).trans hs.fcsr

theorem fpCsrs_setCsr (s : Machine) (x : Word) (hc : isFpCsr c = false) :
    (s.setCsr c x).fpCsrs = s.fpCsrs := by
  have hne : ∀ c', isFpCsr c' = true → (s.setCsr c x).csr c' = s.csr c' := by
    intro c' hc'
    apply Machine.setCsr_csr_ne
    rintro rfl
    exact absurd (hc.symm.trans hc') Bool.false_ne_true
  unfold Machine.fpCsrs
  rw [hne .frm rfl, hne .fflags rfl, hne .fcsr rfl]

theorem fpCsrs_writeLoc (s : Machine) (l : Loc) (v : Word) :
    (s.writeLoc l v).fpCsrs = s.fpCsrs := by
  cases l <;> rfl

theorem fpCsrs_of_access (h : t.eraseFault.eraseAccess = s.eraseFault.eraseAccess) :
    t.fpCsrs = s.fpCsrs := by
  have h1 : t.eraseFault.eraseAccess.fpCsrs = s.eraseFault.eraseAccess.fpCsrs :=
    congrArg Machine.fpCsrs h
  exact h1

theorem fpCsrs_trapEntry (P : Platform) (no epc : Word) (s : Machine) :
    (trapEntry P no epc s).fpCsrs = s.fpCsrs := by
  have hw : ∀ c, isFpCsr c = true → (trapLevel P s no).writes c = false := by
    intro c hc
    cases c with
    | fflags | frm | fcsr => cases trapLevel P s no <;> rfl
    | _ => cases hc
  unfold Machine.fpCsrs
  rw [trapEntry_csr P no epc s (hw .frm rfl), trapEntry_csr P no epc s (hw .fflags rfl),
    trapEntry_csr P no epc s (hw .fcsr rfl)]

theorem Change.fpCsrs (h : Change P d s t) :
    t.fpCsrs = s.fpCsrs ∨
      (d.id.usesFpu = true ∧ ∃ g : BitVec 5, t = (s.setCsr .fcsr
        (BitField.insert 0 g (s.csr .fcsr))).setCsr .fflags (g.setWidth 64)) ∨
      (d.id = .system ∧ ∃ c x, t = csrStore P s c x) := by
  cases h with
  | access h => exact .inl (fpCsrs_of_access h)
  | dest _ | link _ | vgpr _ _ => exact .inl (fpCsrs_writeLoc s _ _)
  | reserve _ | release _ | record _ | vreg _ | jump _ | rm _ => exact .inl rfl
  | dirty _ | sd _ | fpCsr _ _ => exact .inl (fpCsrs_setCsr s _ rfl)
  | flags g hf => exact .inr (.inl ⟨hf, g, rfl⟩)
  | vcsr c _ => exact .inl (fpCsrs_setCsr s _ (by cases c <;> rfl))
  | mie _ | dretpc _ => exact .inl (fpCsrs_setCsr s _ rfl)
  | store hc _ => exact .inr (.inr ⟨hc.1, _, _, rfl⟩)
  | mmu _ h =>
    have h1 : t.eraseMmu.fpCsrs = s.eraseMmu.fpCsrs := congrArg Machine.fpCsrs h
    exact .inl h1
  | trap no _ => exact .inl (fpCsrs_trapEntry P no d.pc s)
  | uret _ | sret _ | mret _ => exact .inl rfl

theorem Change.fpHolds (h : Change P d s t) (hs : ∃ r f, FpHolds s r f) :
    ∃ r f, FpHolds t r f := by
  obtain ⟨r, f, hs⟩ := hs
  obtain h | ⟨-, g, rfl⟩ | ⟨-, c, x, rfl⟩ := h.fpCsrs
  · exact ⟨r, f, hs.of_fpCsrs h⟩
  · exact ⟨r, g, hs.setFlags g⟩
  · exact hs.csrStore c x

end Change

section Accrue

/-- The flags of a state in which the registers agree only grow. -/
def Accrues (s t : Machine) : Prop := ∀ r f, FpHolds s r f → ∃ g, FpHolds t r (f ||| g)

theorem Accrues.of_fpCsrs (h : t.fpCsrs = s.fpCsrs) : Accrues s t := by
  intro r f hs
  refine ⟨0#5, ?_⟩
  rw [BitVec.or_zero]
  exact hs.of_fpCsrs h

theorem Accrues.trans (h : Accrues s t) (h' : Accrues t u) : Accrues s u := by
  intro r f hs
  obtain ⟨g, ht⟩ := h r f hs
  obtain ⟨g', hu⟩ := h' r (f ||| g) ht
  rw [BitVec.or_assoc] at hu
  exact ⟨g ||| g', hu⟩

def accrueEffect : Effect Stop Machine where
  ok := Accrues
  err s _ t := Accrues s t
  refl _ := .of_fpCsrs rfl
  trans := .trans
  absorb := .trans

theorem accrue_of_access {m : Exec α} (h : (accessEffect P q).Within m) :
    accrueEffect.Within m := by
  intro s
  refine (h s).mono ?_ ?_
  · intro t ht
    have h1 : t.eraseAccess.fpCsrs = s.eraseAccess.fpCsrs := congrArg Machine.fpCsrs ht
    exact .of_fpCsrs h1
  · intro e t ht
    have h1 : t.eraseFault.eraseAccess.fpCsrs = s.eraseAccess.eraseFault.fpCsrs :=
      congrArg Machine.fpCsrs ht.frame
    exact .of_fpCsrs h1

theorem readReg_accrues : accrueEffect.Within (readReg l) :=
  .bind (.read _) fun _ => .ret _ _

theorem writeReg_accrues : accrueEffect.Within (writeReg l v) :=
  .update fun s => .of_fpCsrs (fpCsrs_writeLoc s l v)

theorem illegal_accrues : accrueEffect.Within (longjmpException .II : Exec α) :=
  .raise fun _ => .of_fpCsrs rfl

theorem recordMemEvent_accrues : accrueEffect.Within (recordMemEvent P isLoad va) := by
  refine .update fun s => .of_fpCsrs ?_
  split <;> rfl

theorem fpSetDirty_accrues : accrueEffect.Within (fpSetDirty P) :=
  .update fun s => .of_fpCsrs (fpCsrs_setCsr s _ rfl)

theorem rtlFsr_accrues : accrueEffect.Within (rtlFsr P l v w) :=
  .bind writeReg_accrues fun _ => fpSetDirty_accrues

theorem isaFpSetEx_accrues : accrueEffect.Within (isaFpSetEx P ex) := by
  refine .bind (.update fun s r f hs => ⟨ex.extractLsb' 0 5, ?_⟩) fun _ => fpSetDirty_accrues
  have hf : (s.csr .fcsr).extractLsb' 0 5 = f := by
    rw [hs.fcsr, extract_flags]
  dsimp only
  rw [hf]
  exact hs.setFlags _

theorem isaFpGetRm_accrues : accrueEffect.Within (isaFpGetRm d) := by
  refine .bind (.read _) fun s => ?_
  split
  · exact .ret _ _
  · split
    · exact .ret _ _
    · exact illegal_accrues

theorem rtlFpcall_accrues : accrueEffect.Within (rtlFpcall P d o w x y z) := by
  refine .bind (.bind (.read _) fun s => ?_) fun _ => .bind ?_ fun rm => ?_
  · split
    · exact illegal_accrues
    · exact .ret _ _
  · unfold fpcallRm
    split
    · exact .bind isaFpGetRm_accrues fun _ => .ret _ _
    · exact .ret _ _
  · dsimp only
    split
    · exact .bind isaFpSetEx_accrues fun _ => .ret _ _
    · exact .ret _ _

theorem execFsgnj_accrues : accrueEffect.Within (execFsgnj P d w sign) :=
  .bind readReg_accrues fun _ => .bind readReg_accrues fun _ => rtlFsr_accrues

theorem exec_fpu_accrues (hf : d.id.usesFpu = true) : accrueEffect.Within (exec P d) := by
  unfold exec
  cases hid : d.id with
  | fload w m =>
    exact .bind (.bind readReg_accrues fun _ => .bind (accrue_of_access (vaddrRead_access m)) fun _ =>
      .bind writeReg_accrues fun _ => .bind readReg_accrues fun _ => recordMemEvent_accrues)
      fun _ => .bind readReg_accrues fun _ => rtlFsr_accrues
  | fop o w =>
    exact .bind readReg_accrues fun _ => .bind readReg_accrues fun _ =>
      .bind rtlFpcall_accrues fun _ => rtlFsr_accrues
  | funary o w w' =>
    exact .bind readReg_accrues fun _ => .bind rtlFpcall_accrues fun _ => rtlFsr_accrues
  | fcvtToI o w =>
    exact .bind readReg_accrues fun _ => .bind rtlFpcall_accrues fun _ => writeReg_accrues
  | fcmp o w =>
    refine .bind readReg_accrues fun x => .bind readReg_accrues fun y => .bind (.update ?_) fun _ =>
      .bind rtlFpcall_accrues fun _ => writeReg_accrues
    intro s
    split
    · exact .of_fpCsrs (fpCsrs_writeLoc s _ _)
    · exact .of_fpCsrs rfl
  | fmadd b b' w =>
    exact .bind readReg_accrues fun _ => .bind readReg_accrues fun _ => .bind readReg_accrues fun _ =>
      .bind rtlFpcall_accrues fun _ => rtlFsr_accrues
  | fsgnj w | fsgnjn w | fsgnjx w => exact execFsgnj_accrues
  | fmv_w_x | fmv_d_x => exact .bind readReg_accrues fun _ => rtlFsr_accrues
  | _ =>
    rw [hid] at hf
    cases hf

theorem exec_accrues (hs : d.id ≠ .system) : accrueEffect.Within (exec P d) := by
  cases hf : d.id.usesFpu with
  | true => exact exec_fpu_accrues hf
  | false =>
    have hkeep : ∀ s t, Relation.ReflTransGen (Change P d) s t → t.fpCsrs = s.fpCsrs := by
      intro s t h
      refine reached_keeps (I := fun t => t.fpCsrs = s.fpCsrs) h (fun u v hc hu => ?_) rfl
      obtain h1 | ⟨h1, -⟩ | ⟨h1, -⟩ := hc.fpCsrs
      · exact h1.trans hu
      · exact absurd (hf.symm.trans h1) Bool.false_ne_true
      · exact absurd h1 hs
    intro s
    refine (exec_changes P d s).mono ?_ ?_
    · exact fun t ht => .of_fpCsrs (hkeep s t ht)
    · exact fun e t ht => .of_fpCsrs (hkeep s t ht)

end Accrue

section Cache

theorem rmCache_blind : TrapBlind Machine.rmCache where
  mode _ _ := rfl
  csr _ _ _ _ := rfl
  mmu _ := rfl
  jump _ := rfl
  fault _ := rfl

theorem exec_rmCache (hs : d.id ≠ .system) : (keep Stop Machine.rmCache).Within (exec P d) := by
  intro s
  refine (exec_flow hs s).mono ?_ ?_
  · exact fun t ht => congrArg Control.rmCache (control_of_eraseFlow ht)
  · exact fun e t ht => congrArg Control.rmCache (control_of_stops ht)

/-- The cached rounding mode is a legal one. -/
def rmEffect : Effect Stop Machine := inv (fun s => s.rmCache < 5) fun _ t => t.rmCache < 5

theorem rm_of_keep {m : Exec α} (h : (keep Stop Machine.rmCache).Within m) :
    rmEffect.Within m := by
  have hlt : ∀ {s t : Machine}, t.rmCache = s.rmCache → s.rmCache < 5 → t.rmCache < 5 := by
    intro s t h hs
    rw [h]
    exact hs
  intro s
  exact (h s).mono (fun t ht => hlt ht) fun e t ht => hlt ht

theorem csrWriteFp_rm (P : Platform) (c : Csr) : rmEffect.Within (csrWriteFp P c) := by
  unfold csrWriteFp
  split
  · refine .bind (rm_of_keep rmCache_blind.modifyMstatus) fun _ => .bind (.read _) fun s => ?_
    intro t
    by_cases hrm : (((s.csr .fcsr).extractLsb' 5 3).setWidth 32 : BitVec 32) < 5
    · exact .of_ok ((fpUpdateRmCache_run _ t).trans (if_pos hrm)) fun _ => hrm
    · exact .of_error ((fpUpdateRmCache_run _ t).trans (if_neg hrm)) fun ht => ht
  · exact .ret _ _

theorem csrWrite_rm (P : Platform) (c : Csr) (x : Word) : rmEffect.Within (csrWrite P c x) := by
  refine .bind (.read _) fun s => .bind (rm_of_keep (rmCache_blind.illegalIf _)) fun _ =>
    .bind (rm_of_keep (.update fun s => ?_)) fun _ => .bind (csrWriteFp_rm P c) fun _ =>
      .bind (rm_of_keep ?_) fun _ => rm_of_keep ?_
  · change (csrStore P s c x).rmCache = s.rmCache
    rw [csrStore_only]
  · unfold csrWriteSd
    split
    · exact rmCache_blind.modifyMstatus
    · exact .ret _ _
  · unfold csrWriteMmu
    split
    · exact rmCache_blind.updateMmuState
    · exact .ret _ _

theorem sysCsr_rm (P : Platform) (d : Decode) : rmEffect.Within (sysCsr P d) := by
  have hdata : ∀ {α : Type} {m : Exec α}, (dataEffect P fun _ => False).Within m →
      rmEffect.Within m :=
    fun h => rm_of_keep (rmCache_blind.of_data h)
  refine .bind (hdata csrrw_read_data) fun old => ?_
  split
  · refine .bind (hdata readReg_data) fun src => .bind ?_ fun _ => hdata writeReg_data
    refine .bind (hdata csrIsLegal_data) fun c => ?_
    cases c with
    | none => exact hdata illegal_data
    | some c => exact .bind (csrWrite_rm P c _) fun _ => .ret _ _
  · exact hdata writeReg_data

theorem exec_rm (P : Platform) (d : Decode) : rmEffect.Within (exec P d) := by
  by_cases hs : d.id = .system
  · unfold exec
    rw [hs]
    change rmEffect.Within (rtlSysSlowPath P d)
    unfold rtlSysSlowPath
    split
    · exact rm_of_keep rmCache_blind.sysPriv
    · exact sysCsr_rm P d
  · exact rm_of_keep (exec_rmCache hs)

end Cache

section Run

/-- The registers agree and the cached rounding mode is a legal one. -/
structure FpSound (s : Machine) : Prop where
  holds : ∃ r f, FpHolds s r f
  rm : s.rmCache < 5

theorem FpSound.of_fpCsrs (hs : FpSound s) (h : t.fpCsrs = s.fpCsrs) (hrm : t.rmCache = s.rmCache) :
    FpSound t where
  holds := by
    obtain ⟨r, f, h1⟩ := hs.holds
    exact ⟨r, f, h1.of_fpCsrs h⟩
  rm := by
    rw [hrm]
    exact hs.rm

def soundEffect : Effect Stop Machine := inv FpSound fun _ t => FpSound t

theorem exec_sound (P : Platform) (d : Decode) : soundEffect.Within (exec P d) := by
  have hkeep : ∀ s t, Relation.ReflTransGen (Change P d) s t → FpSound s → ∃ r f, FpHolds t r f :=
    fun s t h hs => reached_keeps (I := fun t => ∃ r f, FpHolds t r f) h
      (fun _ _ hc => hc.fpHolds) hs.holds
  intro s
  cases h : exec P d s with
  | ok a t =>
    exact .of_ok h fun hs =>
      ⟨hkeep s t ((exec_changes P d).ok h) hs, (exec_rm P d).ok h hs.rm⟩
  | error e t =>
    exact .of_error h fun hs =>
      ⟨hkeep s t ((exec_changes P d).error h) hs, (exec_rm P d).error h hs.rm⟩

theorem fpCsrs_ticked (P : Platform) (s : Machine) : (s.ticked P).fpCsrs = s.fpCsrs := by
  unfold Machine.ticked utimerTick
  split
  · split
    · exact fpCsrs_setCsr s _ rfl
    split
    · exact fpCsrs_setCsr s _ rfl
    · exact fpCsrs_setCsr s _ rfl
  · rfl

theorem rmCache_ticked (P : Platform) (s : Machine) : (s.ticked P).rmCache = s.rmCache := by
  unfold Machine.ticked utimerTick
  repeat' split
  all_goals rfl

theorem executeDecoded_sound : soundEffect.Within (executeDecoded P d) :=
  .bind (.update fun _ hs => hs.of_fpCsrs rfl rfl) fun _ => .bind (exec_sound P d) fun _ =>
    .bind (.update fun s hs => hs.of_fpCsrs (fpCsrs_ticked P s) (rmCache_ticked P s)) fun _ =>
      .ret _ _

theorem fpCsrs_of_fetch (h : t.eraseFetch = s.eraseFetch) :
    t.fpCsrs = s.fpCsrs ∧ t.rmCache = s.rmCache := by
  have h1 : t.eraseFetch.fpCsrs = s.eraseFetch.fpCsrs := congrArg Machine.fpCsrs h
  have h2 : t.eraseFetch.rmCache = s.eraseFetch.rmCache := congrArg Machine.rmCache h
  exact ⟨h1, h2⟩

theorem executeStep_sound : soundEffect.Within (executeStep P) := by
  refine .bind (fun s => ?_) fun d => executeDecoded_sound
  refine (fetchDecode_frame s).mono ?_ ?_
  · exact fun t ht hs => hs.of_fpCsrs (fpCsrs_of_fetch ht).1 (fpCsrs_of_fetch ht).2
  · exact fun e t ht hs => hs.of_fpCsrs (fpCsrs_of_fetch ht).1 (fpCsrs_of_fetch ht).2

theorem raiseIntr_sound : soundEffect.Within (raiseIntr P no epc) := by
  intro s
  have hfinal : FpSound s → FpSound (final (raiseIntr P no epc) s) := by
    intro hs
    have h1 := congrArg Machine.fpCsrs (raiseIntr_final P no epc s)
    have h2 := congrArg Machine.rmCache (raiseIntr_final P no epc s)
    refine hs.of_fpCsrs (h1.trans (fpCsrs_trapEntry P no epc s)) (h2.trans ?_)
    exact rmCache_blind.trapEntry P no epc s
  cases h : raiseIntr P no epc s with
  | ok a t =>
    rw [final_ok h] at hfinal
    exact .of_ok h hfinal
  | error e t =>
    rw [final_error h] at hfinal
    exact .of_error h hfinal

theorem handleException_sound : soundEffect.Within (handleException P e) := by
  refine .bind (.read _) fun s => .bind (.update fun s hs => ?_) fun _ =>
    .bind raiseIntr_sound fun pc => .update fun s hs => hs.of_fpCsrs rfl rfl
  split
  · exact hs.of_fpCsrs rfl rfl
  · exact hs

theorem takeIntr_sound : soundEffect.Within (takeIntr P no) :=
  .bind (.read _) fun _ => .bind raiseIntr_sound fun _ => .update fun _ hs => hs.of_fpCsrs rfl rfl

theorem GuestStep.fpSound (h : GuestStep P s t) (hs : FpSound s) : FpSound t := by
  cases h with
  | instr h => exact executeStep_sound.ok h hs
  | fault h => exact executeStep_sound.error h hs
  | cached h => exact executeDecoded_sound.ok h hs
  | cachedFault h => exact executeDecoded_sound.error h hs
  | trap h => exact handleException_sound.ok h hs
  | intr h => exact takeIntr_sound.ok h hs
  | timer =>
    refine hs.of_fpCsrs ?_ rfl
    exact fpCsrs_setCsr (c := .mip) s _ rfl
  | guide _ => exact hs.of_fpCsrs rfl rfl

theorem Reachable.fpSound (h : Reachable P s) : FpSound s := by
  obtain ⟨ram, hsteps⟩ := h
  induction hsteps with
  | refl =>
    have hrm : (0 : BitVec 32) < 5 := by decide
    exact ⟨⟨0, 0, rfl, rfl, rfl⟩, hrm⟩
  | tail _ hstep ih => exact hstep.fpSound ih

theorem and_or_self (f g : BitVec n) : f &&& (f ||| g) = f := by
  apply BitVec.eq_of_getLsbD_eq
  intro i _
  rw [BitVec.getLsbD_and, BitVec.getLsbD_or]
  cases f.getLsbD i <;> rfl

theorem FpHolds.accrues (hs : FpHolds s r f) (ht : FpHolds t r (f ||| g))
    (hrm : t.rmCache = s.rmCache) : FlagsAccrue s t where
  frm := ht.frm.trans hs.frm.symm
  fflags := by
    rw [hs.fflags, ht.fflags, ← BitVec.setWidth_and, and_or_self]
  fcsr := by
    rw [hs.fcsr, ht.fcsr, ← BitVec.setWidth_and, BitVec.and_append, BitVec.and_self, and_or_self]
  rm := hrm

theorem Accrues.flags (h : Accrues s t) (hs : FpHolds s r f) (hrm : t.rmCache = s.rmCache) :
    FlagsAccrue s t := by
  obtain ⟨g, ht⟩ := h r f hs
  exact hs.accrues ht hrm

theorem exec_flagsAccrue (hs : FpHolds s r f) (hd : d.id ≠ .system) :
    FlagsAccrue s (final (exec P d) s) := by
  have hrm : (final (exec P d) s).rmCache = s.rmCache := (exec_rmCache hd).final_eq s
  cases h : exec P d s with
  | ok a t =>
    rw [final_ok h] at hrm ⊢
    exact ((exec_accrues hd).ok h).flags hs hrm
  | error e t =>
    rw [final_error h] at hrm ⊢
    exact ((exec_accrues hd).error h).flags hs hrm

/-- The copies of the FP control registers agree in every state that a guest reaches, and no
instruction outside SYSTEM, so no FP operation, clears a flag or changes the rounding mode. -/
theorem fp_csrs_coherent (h : Reachable P s) :
    s.csr .fcsr = (s.csr .frm <<< 5) ||| s.csr .fflags ∧ s.csr .frm < 8 ∧ s.csr .fflags < 32 ∧
      (∃ m, RoundingMode.ofFrm (s.csr .frm) = some m ∧ s.rmCache = m.code) ∧
      (∀ d, d.id ≠ .system → FlagsAccrue s (final (exec P d) s)) ∧
      ∀ d t, executeStep P s = .ok d t → d.id ≠ .system → FlagsAccrue s t := by
  obtain ⟨⟨r, f, hs⟩, hrm⟩ := h.fpSound
  have hcache : s.rmCache = r.setWidth 32 := by rw [h.coherent.rm, hs.frm_eq]
  refine ⟨?_, ?_, ?_, ?_, ?_, ?_⟩
  · rw [hs.fcsr, hs.frm, hs.fflags, join_fields]
  · rw [hs.frm]
    exact setWidth_lt r (by decide)
  · rw [hs.fflags]
    exact setWidth_lt f (by decide)
  · rw [hcache] at hrm ⊢
    rw [hs.frm]
    exact RoundingMode.exists_of_lt r hrm
  · exact fun d hd => exec_flagsAccrue hs hd
  · intro d t hstep hd
    obtain ⟨u, v, hf, he, rfl⟩ := executeStep_ok hstep
    obtain ⟨hcsr, hrmu⟩ := fpCsrs_of_fetch (fetchDecode_frame.ok hf)
    have hu : FpHolds (u.started d) r f := hs.of_fpCsrs hcsr
    obtain ⟨g, hv⟩ := (exec_accrues hd).ok he r f hu
    refine hs.accrues (hv.of_fpCsrs (fpCsrs_ticked P v)) ?_
    have hvu : v.rmCache = (u.started d).rmCache := (exec_rmCache hd).ok he
    rw [rmCache_ticked, hvu]
    exact hrmu

/-- After a write of 2 to `frm` at the reset vector. -/
theorem fp_csrs_coherent_frm :
    ∃ s, Reachable (Platform.bare .standalone) s ∧ s.csr .fcsr = 0x40 ∧
      s.csr .fcsr = (s.csr .frm <<< 5) ||| s.csr .fflags ∧
      ∃ m, RoundingMode.ofFrm (s.csr .frm) = some m ∧ s.rmCache = m.code := by
  obtain ⟨s, hs, hf⟩ : ∃ s, Reachable (Platform.bare .standalone) s ∧ s.csr .fcsr = 0x40 :=
    ⟨_, ⟨program 0x80100000 [0x00215073], .tail .refl (.instr rfl)⟩, rfl⟩
  have h := fp_csrs_coherent hs
  exact ⟨s, hs, hf, h.1, h.2.2.2.1⟩

end Run

end Nemu
