import Nemu.CsrWrites
import Nemu.Reset

namespace Nemu

open Effect

set_option autoImplicit true

/-- The CSRs that show a part of another register. -/
inductive View where
  | sstatus | ustatus | sie | uie | sip | uip | dumcfg
  deriving DecidableEq

namespace View

def csr : View → Csr
  | sstatus => .sstatus
  | ustatus => .ustatus
  | sie => .sie
  | uie => .uie
  | sip => .sip
  | uip => .uip
  | dumcfg => .dumcfg

def register : View → Csr
  | sstatus | ustatus => .mstatus
  | sie | uie => .mie
  | sip | uip => .mip
  | dumcfg => .dsmcfg

/-- The lowest privilege level that may access the view, which its address tells. -/
def level (v : View) : Mode := Mode.ofBits (v.csr.addr.extractLsb' 8 2)

/-- A read of the view can return bit `i`, for some contents of the register. -/
def Shows (P : Platform) (s : Machine) (v : View) (i : Nat) : Prop :=
  ∃ r w t, csrRead P v.csr (s.setCsr v.register r) = .ok w t ∧ w.getLsbD i = true

/-- Bit `i` of the register depends on bit `i` of the value written to the view. -/
def Writable (P : Platform) (s : Machine) (v : View) (i : Nat) : Prop :=
  ∃ x t u, csrWrite P v.csr x s = .ok () t ∧
    csrWrite P v.csr (x ^^^ BitVec.twoPow 64 i) s = .ok () u ∧
    (t.csr v.register).getLsbD i ≠ (u.csr v.register).getLsbD i

end View

/-- The write of `x` to a view, which led from `s` to `t`, went through an exact window. -/
structure ExactWindow (P : Platform) (s : Machine) (v : View) (x : Word) (t : Machine) : Prop where
  shown : ∀ i, (t.csr v.register).getLsbD i ≠ (s.csr v.register).getLsbD i → v.Shows P s i
  taken : ∀ i w u, v.Shows P s i → v.Writable P s i → csrRead P v.csr t = .ok w u →
    w.getLsbD i = x.getLsbD i
  frame : ∀ c, c ≠ v.register → t.csr c = s.csr c

/-- The write does not touch a pending bit that has not been delegated, nor ask for a state of the
FPU that QEMU does not have. -/
def WindowSafe (P : Platform) (s : Machine) (x : Word) : View → Prop
  | .sip => ∀ i < 2, (s.csr .mideleg).getLsbD i = true ∨ x.getLsbD i = (s.csr .mip).getLsbD i
  | .uip => (s.csr .sideleg).getLsbD 0 = true ∨ x.getLsbD 0 = (s.csr .mip).getLsbD 0
  | .sstatus => P.difftestRefQemu = true → x.extractLsb' 13 2 = 0 ∨ x.extractLsb' 13 2 = 3
  | _ => True

variable {P : Platform} {s t : Machine} {v : View} {x y : Word}

namespace View

def readMask (P : Platform) (s : Machine) : View → Word
  | sstatus => sstatusRmask P
  | ustatus => ustatusWmask
  | sie | sip => sieMask s
  | uie | uip => uieMask s
  | dumcfg => dumcfgMask

/-- The bits that a write at the lowest level takes. -/
def writeMask (P : Platform) (s : Machine) : View → Word
  | sstatus => sstatusWmask P
  | ustatus => ustatusWmask
  | sie => sieMask s
  | uie => uieMask s
  | sip => sipWmaskS
  | uip => uipWmaskU
  | dumcfg => dumcfgMask

/-- What is derived in the register when the view is read or written. -/
def settle (P : Platform) (v : View) (y : Word) : Word :=
  if v = sstatus then updateMstatusSdVal P y else y

/-- The register after `x` has been written to the view. -/
def written (P : Platform) (s : Machine) (v : View) (x : Word) : Word :=
  v.settle P (BitField.merge (v.writeMask P s) (s.csr v.register) x)

theorem csrRead_eq (P : Platform) (v : View) (s : Machine) :
    csrRead P v.csr s = .ok (v.settle P (s.csr v.register) &&& v.readMask P s)
      (s.setCsr v.register (v.settle P (s.csr v.register))) := by
  cases v with
  | sstatus =>
    have hm := s.setCsr_csr_self .mstatus (updateMstatusSdVal P (s.csr .mstatus))
    change EStateM.Result.ok ((s.setCsr .mstatus _).csr .mstatus &&& _) _ = _
    rw [hm]
    rfl
  | _ =>
    dsimp only [settle, register]
    rw [if_neg (by decide), Machine.setCsr_self]
    rfl

theorem csrWrite_eq (P : Platform) (x : Word) (h : s.mode = v.level) :
    csrWrite P v.csr x s = .ok () (s.setCsr v.register (v.written P s x)) := by
  cases v with
  | sstatus =>
    change EStateM.Result.ok () ((s.setCsr .mstatus _).mapMstatus (updateMstatusSdVal P)) = _
    rw [Machine.mapMstatus_setCsr]
    rfl
  | sip =>
    have hs : s.mode = .S := h
    unfold csrWrite
    rw [get_bind]
    change EStateM.Result.ok () (s.setCsr .mip _) = _
    rw [if_pos hs]
    rfl
  | uip =>
    have hs : s.mode = .U := h
    unfold csrWrite
    rw [get_bind]
    change EStateM.Result.ok () (s.setCsr .mip _) = _
    rw [if_pos hs]
    rfl
  | _ => rfl

theorem register_ne_deleg (v : View) : v.register ≠ .mideleg ∧ v.register ≠ .sideleg := by
  cases v <;> decide

theorem readMask_setCsr (P : Platform) (s : Machine) (v : View) (r : Word) :
    v.readMask P (s.setCsr v.register r) = v.readMask P s := by
  have hm := s.setCsr_csr_ne r v.register_ne_deleg.1.symm
  have hs := s.setCsr_csr_ne r v.register_ne_deleg.2.symm
  cases v with
  | sie | sip => exact congrArg (0x333 &&& ·) hm
  | uie | uip => exact congrArg (0x111 &&& ·) hs
  | sstatus | ustatus | dumcfg => rfl

theorem settle_allOnes (P : Platform) (v : View) : v.settle P (-1) = -1 := by
  unfold settle updateMstatusSdVal
  cases P.difftestRefQemu <;> cases v <;> decide

theorem shows_iff : v.Shows P s i ↔ (v.readMask P s).getLsbD i = true := by
  constructor
  · rintro ⟨r, w, t, h, hi⟩
    rw [csrRead_eq] at h
    cases h
    rw [BitVec.getLsbD_and, Bool.and_eq_true, readMask_setCsr] at hi
    exact hi.2
  · intro h
    refine ⟨-1, -1 &&& v.readMask P s, (s.setCsr v.register (-1)).setCsr v.register (-1), ?_, ?_⟩
    · rw [csrRead_eq, Machine.setCsr_csr_self, settle_allOnes, readMask_setCsr]
    · rw [show (-1 : Word) = BitVec.allOnes 64 from rfl, BitVec.allOnes_and]
      exact h

theorem writable_mask (h : s.mode = v.level) (hw : v.Writable P s i) :
    (v.writeMask P s).getLsbD i = true := by
  obtain ⟨x, t, u, ht, hu, hne⟩ := hw
  rw [csrWrite_eq P x h] at ht
  rw [csrWrite_eq P _ h] at hu
  cases ht
  cases hu
  cases hi : (v.writeMask P s).getLsbD i with
  | true => rfl
  | false =>
    have hsame : BitField.merge (v.writeMask P s) (s.csr v.register) (x ^^^ BitVec.twoPow 64 i) =
        BitField.merge (v.writeMask P s) (s.csr v.register) x := by
      apply BitVec.eq_of_getLsbD_eq
      intro j hj
      rw [BitField.getLsbD_merge, BitField.getLsbD_merge, BitVec.getLsbD_xor,
        BitVec.getLsbD_twoPow]
      by_cases hij : i = j
      · rw [← hij, hi]
        rfl
      · simp [hij]
    rw [Machine.setCsr_csr_self, Machine.setCsr_csr_self] at hne
    unfold written at hne
    rw [hsame] at hne
    exact absurd rfl hne

theorem settle_getLsbD (y : Word) (h63 : v = sstatus → i ≠ 63)
    (hfs : v = sstatus → P.difftestRefQemu = true →
      y.extractLsb' 13 2 = 0 ∨ y.extractLsb' 13 2 = 3) :
    (v.settle P y).getLsbD i = y.getLsbD i := by
  unfold settle
  split
  · next hv =>
    unfold updateMstatusSdVal setBit
    dsimp only
    rw [BitField.getLsbD_insert_disjoint 63 _ _ i (by have := h63 hv; omega)]
    split
    · next hq =>
      rw [Bool.and_eq_true, decide_eq_true_eq] at hq
      have h3 : y.extractLsb' 13 2 = 3 := (hfs hv hq.1).resolve_left hq.2
      rw [← h3]
      rw [BitField.getLsbD_insert]
      split
      · next hi =>
        rw [BitVec.getLsbD_extractLsb']
        have h1 : i < 64 := by omega
        have h2 : i - 13 < 2 := by omega
        have h4 : 13 + (i - 13) = i := by omega
        simp only [h1, h2, h4, decide_true, Bool.true_and]
      · rfl
    · rfl
  · rfl

end View

theorem sstatus_fs (P : Platform) (s : Machine) (x : Word) :
    (BitField.merge (View.sstatus.writeMask P s) (s.csr .mstatus) x).extractLsb' 13 2 =
      x.extractLsb' 13 2 := by
  have h : (sstatusWmask P).extractLsb' 13 2 = BitVec.allOnes 2 := by
    unfold sstatusWmask
    cases P.rvv <;> cases P.rvn <;> decide
  exact BitField.extract_merge_of_set _ _ _ 13 2 h

theorem sstatus_masks (P : Platform) :
    (sstatusWmask P).getLsbD 63 = false ∧ (sstatusRmask P).getLsbD 63 = true ∧
      ∀ i, (sstatusWmask P).getLsbD i = true → (sstatusRmask P).getLsbD i = true := by
  refine ⟨?_, ?_, fun i h => ?_⟩
  · unfold sstatusWmask
    cases P.rvv <;> cases P.rvn <;> decide
  · unfold sstatusRmask sstatusWmask
    cases P.rvv <;> cases P.rvn <;> decide
  · unfold sstatusRmask
    simp only [BitVec.getLsbD_or, h, Bool.true_or]

theorem low_bit (h : (3 : Word).getLsbD i = true) : i < 2 := by
  by_contra hi
  rw [show (3 : Word) = (3 : BitVec 2).setWidth 64 from rfl, BitVec.getLsbD_setWidth,
    BitVec.getLsbD_of_ge _ i (by omega), Bool.and_false] at h
  cases h

theorem sip_bits : ∀ i < 2, (0x333 : Word).getLsbD i = true ∧ sipWmaskS.getLsbD i = true := by
  decide

namespace WindowSafe

theorem shown (h : WindowSafe P s x v) (hi : (v.writeMask P s).getLsbD i = true)
    (hne : x.getLsbD i ≠ (s.csr v.register).getLsbD i) : (v.readMask P s).getLsbD i = true := by
  cases v with
  | sstatus => exact (sstatus_masks P).2.2 i hi
  | sip =>
    have hlt : i < 2 := low_bit hi
    have hd : (s.csr .mideleg).getLsbD i = true := (h i hlt).resolve_right hne
    change (0x333 &&& s.csr .mideleg).getLsbD i = true
    rw [BitVec.getLsbD_and, hd, Bool.and_true]
    exact (sip_bits i hlt).1
  | uip =>
    have h0 : i = 0 := by
      by_contra h0
      change (1 : Word).getLsbD i = true at hi
      rw [show (1 : Word) = BitVec.twoPow 64 0 from rfl, BitVec.getLsbD_twoPow] at hi
      simp [Ne.symm h0] at hi
    subst h0
    have hd : (s.csr .sideleg).getLsbD 0 = true := Or.resolve_right h hne
    change (0x111 &&& s.csr .sideleg).getLsbD 0 = true
    rw [BitVec.getLsbD_and, hd]
    rfl
  | ustatus | sie | uie | dumcfg => exact hi

theorem fs (h : WindowSafe P s x v) (hv : v = .sstatus) (hq : P.difftestRefQemu = true) :
    (BitField.merge (v.writeMask P s) (s.csr v.register) x).extractLsb' 13 2 = 0 ∨
      (BitField.merge (v.writeMask P s) (s.csr v.register) x).extractLsb' 13 2 = 3 := by
  subst hv
  rw [show View.sstatus.register = .mstatus from rfl, sstatus_fs]
  exact h hq

theorem written_getLsbD (h : WindowSafe P s x v) (hi : v = .sstatus → i ≠ 63) :
    (v.written P s x).getLsbD i =
      if (v.writeMask P s).getLsbD i then x.getLsbD i else (s.csr v.register).getLsbD i := by
  unfold View.written
  rw [View.settle_getLsbD _ hi fun hv hq => h.fs hv hq, BitField.getLsbD_merge]

/-- A second reading finds nothing more to derive. -/
theorem settle_written (h : WindowSafe P s x v) (hi : v = .sstatus → i ≠ 63) :
    (v.settle P (v.written P s x)).getLsbD i = (v.written P s x).getLsbD i := by
  refine View.settle_getLsbD _ hi fun hv hq => ?_
  have hfs := h.fs hv hq
  have hsame : (v.written P s x).extractLsb' 13 2 =
      (BitField.merge (v.writeMask P s) (s.csr v.register) x).extractLsb' 13 2 := by
    ext j hj
    rw [BitVec.getElem_extractLsb', BitVec.getElem_extractLsb']
    exact View.settle_getLsbD _ (fun _ => by omega) fun hv hq => h.fs hv hq
  rw [hsame]
  exact hfs

theorem exact (h : WindowSafe P s x v) (hm : s.mode = v.level) :
    ExactWindow P s v x (s.setCsr v.register (v.written P s x)) where
  shown i hne := by
    rw [Machine.setCsr_csr_self] at hne
    rw [View.shows_iff]
    by_cases hv : v = .sstatus ∧ i = 63
    · rw [hv.1, hv.2]
      exact (sstatus_masks P).2.1
    · rw [h.written_getLsbD fun h1 h2 => hv ⟨h1, h2⟩] at hne
      split at hne
      · next hi => exact h.shown hi hne
      · exact absurd rfl hne
  taken i w u hs hw hr := by
    have hi := View.writable_mask hm hw
    have h63 : v = .sstatus → i ≠ 63 := by
      rintro rfl rfl
      rw [show View.sstatus.writeMask P s = sstatusWmask P from rfl, (sstatus_masks P).1] at hi
      cases hi
    rw [View.csrRead_eq, Machine.setCsr_csr_self, View.readMask_setCsr] at hr
    cases hr
    rw [BitVec.getLsbD_and, h.settle_written h63, h.written_getLsbD h63, if_pos hi,
      View.shows_iff.mp hs, Bool.and_true]
  frame c hc := Machine.setCsr_csr_ne s _ hc

end WindowSafe

theorem ExactWindow.shows_or_keeps
    (h : ExactWindow P s v x (s.setCsr v.register (v.written P s x))) (hv : v ≠ .sstatus)
    (hi : (v.writeMask P s).getLsbD i = true) :
    (v.readMask P s).getLsbD i = true ∨ x.getLsbD i = (s.csr v.register).getLsbD i := by
  have hbit : (v.written P s x).getLsbD i = x.getLsbD i := by
    unfold View.written View.settle
    rw [if_neg hv, BitField.getLsbD_merge, if_pos hi]
  by_cases hx : x.getLsbD i = (s.csr v.register).getLsbD i
  · exact .inr hx
  · have hs := h.shown i (by
      rw [Machine.setCsr_csr_self]
      exact fun he => hx (hbit.symm.trans he))
    exact .inl (View.shows_iff.mp hs)

/-- QEMU knows the FPU as off or dirty, so that any other value written reads as dirty. -/
theorem qemu_fs (hq : P.difftestRefQemu = true) (y : Word) (hfs : y.extractLsb' 13 2 ≠ 0)
    (hi : i = 13 ∨ i = 14) : (updateMstatusSdVal P y).getLsbD i = true := by
  unfold updateMstatusSdVal setBit
  simp only [hq, hfs, ne_eq, not_false_eq_true, decide_true, Bool.and_self, ↓reduceIte]
  rw [BitField.getLsbD_insert_disjoint 63 _ _ i (by omega), BitField.getLsbD_insert,
    if_pos (by omega)]
  obtain rfl | rfl := hi <;> rfl

theorem fs_bit (x : Word) (hi : i < 2) : (x.extractLsb' 13 2).getLsbD i = x.getLsbD (13 + i) := by
  rw [BitVec.getLsbD_extractLsb', decide_eq_true hi, Bool.true_and]

theorem fs_ne_zero (h : x.getLsbD (13 + i) = true) (hi : i < 2) : x.extractLsb' 13 2 ≠ 0 := by
  intro h0
  have hb := fs_bit x hi
  rw [h0, h] at hb
  cases (BitVec.getLsbD_zero.symm.trans hb)

theorem exists_clear_of_fs (h : x.extractLsb' 13 2 ≠ 3) : ∃ i < 2, x.getLsbD (13 + i) = false := by
  by_contra hall
  apply h
  apply BitVec.eq_of_getLsbD_eq
  intro i hi
  have hx : x.getLsbD (13 + i) = true := by
    cases hx : x.getLsbD (13 + i) with
    | true => rfl
    | false => exact absurd ⟨i, hi, hx⟩ hall
  rw [fs_bit x hi, hx]
  obtain rfl | rfl : i = 0 ∨ i = 1 := by omega
  · rfl
  · rfl

section Qemu

variable (hq : P.difftestRefQemu = true)

include hq

theorem sstatus_written_fs (s : Machine) (hfs : x.extractLsb' 13 2 ≠ 0) (hi : i < 2) :
    (View.sstatus.written P s x).getLsbD (13 + i) = true := by
  apply qemu_fs hq
  · rw [show View.sstatus.register = .mstatus from rfl, sstatus_fs]
    exact hfs
  · omega

theorem sstatus_writable (hm : s.mode = View.sstatus.level) (hi : i < 2) :
    View.sstatus.Writable P s (13 + i) := by
  refine ⟨0, _, _, View.csrWrite_eq P 0 hm, View.csrWrite_eq P _ hm, ?_⟩
  have h1 : (View.sstatus.written P s (0 ^^^ BitVec.twoPow 64 (13 + i))).getLsbD (13 + i) = true := by
    refine sstatus_written_fs hq s ?_ hi
    refine fs_ne_zero (i := i) ?_ hi
    have hlt : 13 + i < 64 := by omega
    simp [hlt]
  have h0 : (View.sstatus.written P s 0).getLsbD (13 + i) = false := by
    have hsafe : WindowSafe P s 0 .sstatus := fun _ => .inl rfl
    rw [hsafe.written_getLsbD fun _ => by omega]
    have hw : (View.sstatus.writeMask P s).getLsbD (13 + i) = true := by
      change (sstatusWmask P).getLsbD (13 + i) = true
      unfold sstatusWmask
      obtain rfl | rfl : i = 0 ∨ i = 1 := by omega
      · cases P.rvv <;> cases P.rvn <;> decide
      · cases P.rvv <;> cases P.rvn <;> decide
    rw [if_pos hw]
    exact BitVec.getLsbD_zero
  rw [Machine.setCsr_csr_self, Machine.setCsr_csr_self, h0, h1]
  decide

theorem ExactWindow.sstatus (hm : s.mode = View.sstatus.level)
    (h : ExactWindow P s .sstatus x (s.setCsr .mstatus (View.sstatus.written P s x))) :
    x.extractLsb' 13 2 = 0 ∨ x.extractLsb' 13 2 = 3 := by
  by_contra hne
  rw [not_or] at hne
  obtain ⟨i, hi, hx⟩ := exists_clear_of_fs hne.2
  have hw := sstatus_writable hq hm hi
  have hs : View.sstatus.Shows P s (13 + i) := by
    rw [View.shows_iff]
    exact (sstatus_masks P).2.2 _ (View.writable_mask hm hw)
  have hbit := h.taken (13 + i) _ _ hs hw (View.csrRead_eq P _ _)
  have hset := sstatus_written_fs hq s hne.1 hi
  have hread : (updateMstatusSdVal P (View.sstatus.written P s x)).getLsbD (13 + i) = true :=
    qemu_fs hq _ (fs_ne_zero hset hi) (by omega)
  rw [BitVec.getLsbD_and, hx, Bool.and_eq_false_iff] at hbit
  obtain hbit | hbit := hbit
  · change (updateMstatusSdVal P ((s.setCsr .mstatus _).csr .mstatus)).getLsbD (13 + i) = false at hbit
    rw [Machine.setCsr_csr_self, hread] at hbit
    cases hbit
  · rw [View.shows_iff] at hs
    change (sstatusRmask P).getLsbD (13 + i) = false at hbit
    change (sstatusRmask P).getLsbD (13 + i) = true at hs
    rw [hs] at hbit
    cases hbit

end Qemu

/-- A write to a view, at the lowest level that may make it, goes through an exact window unless it
touches a pending bit that was not delegated, or the FPU state that QEMU rounds. -/
theorem view_write_exact_iff (P : Platform) (s : Machine) (v : View) (x : Word)
    (hv : v.csr.exist P.toConfig = true) (hm : s.mode = v.level) :
    (∃ t, csrWrite P v.csr x s = .ok () t ∧ ExactWindow P s v x t) ↔ WindowSafe P s x v := by
  constructor
  · rintro ⟨t, ht, h⟩
    rw [View.csrWrite_eq P x hm] at ht
    cases ht
    cases v with
    | sip =>
      intro i hi
      have hs := h.shows_or_keeps (by decide) (sip_bits i hi).2
      refine hs.imp (fun hs => ?_) id
      change (0x333 &&& s.csr .mideleg).getLsbD i = true at hs
      rw [BitVec.getLsbD_and, Bool.and_eq_true] at hs
      exact hs.2
    | uip =>
      have hw : uipWmaskU.getLsbD 0 = true := by decide
      have hs := h.shows_or_keeps (by decide) hw
      refine hs.imp (fun hs => ?_) id
      change (0x111 &&& s.csr .sideleg).getLsbD 0 = true at hs
      rw [BitVec.getLsbD_and, Bool.and_eq_true] at hs
      exact hs.2
    | sstatus => exact fun hq => h.sstatus hq hm
    | ustatus | sie | uie | dumcfg => trivial
  · intro h
    exact ⟨_, View.csrWrite_eq P x hm, h.exact hm⟩

/-- S-mode at the reset address, with nothing delegated to it. -/
def undelegated (P : Platform) : Machine := { Machine.reset P (fun _ => 0) with mode := .S }

theorem view_write_exact_sstatus :
    ∃ t, csrWrite (.bare .standalone) .sstatus 0x6002 (undelegated (.bare .standalone)) = .ok () t ∧
      ExactWindow (.bare .standalone) (undelegated (.bare .standalone)) .sstatus 0x6002 t :=
  (view_write_exact_iff (.bare .standalone) (undelegated (.bare .standalone)) .sstatus 0x6002 rfl rfl).mpr
    fun hq => by cases hq

/-- S-mode raises its software interrupt, although it does not see it. -/
theorem sip_write_undelegated :
    let P := Platform.bare .standalone
    let s := undelegated P
    s.mode = View.sip.level ∧ View.sip.csr.exist P.toConfig = true ∧
      ¬ ∃ t, csrWrite P .sip 2 s = .ok () t ∧ ExactWindow P s .sip 2 t := by
  refine ⟨rfl, rfl, ?_⟩
  rintro ⟨t, ht, h⟩
  cases ht
  have hs : View.sip.Shows (.bare .standalone) (undelegated (.bare .standalone)) 1 :=
    h.shown 1 (by decide)
  rw [View.shows_iff] at hs
  revert hs
  decide

end Nemu
