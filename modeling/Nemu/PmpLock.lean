import Nemu.Pmp

namespace Nemu

open Effect

set_option autoImplicit true

def Locked (s : Machine) (i : Fin 16) : Prop := pmpcfgFromIndex s i &&& pmpL ≠ 0

/-- What a lock is to keep of entry `i` until reset. -/
structure SameEntry (s t : Machine) (i : Fin 16) : Prop where
  cfg : pmpcfgFromIndex t i = pmpcfgFromIndex s i
  addr : t.csr (.pmpaddr i) = s.csr (.pmpaddr i)
  base : pmpcfgFromIndex s i &&& pmpA = pmpTOR → 0 < i.val →
    ∀ j : Fin 16, j.val + 1 = i.val → t.csr (.pmpaddr j) = s.csr (.pmpaddr j)
  covers : ∀ b, PmpMatches t i b ↔ PmpMatches s i b

/-- The write does not give entry `i` a new configuration byte. -/
def KeepsEntry (P : Platform) (i : Fin 16) (s : Machine) (w : CsrWrite) : Prop :=
  w.csr = .pmpcfg (pmpcfgRegister i) → P.pmpNum ≠ 0 →
    pmpcfgLegal (w.value.extractLsb' (8 * (i.val % 8)) 8) = pmpcfgFromIndex s i

variable {P : Platform} {s t u : Machine} {i j : Fin 16} {w : CsrWrite}
  {tr : List (Transition Machine CsrWrite)}

namespace SameEntry

theorem refl (s : Machine) (i : Fin 16) : SameEntry s s i :=
  ⟨rfl, rfl, fun _ _ _ _ => rfl, fun _ => .rfl⟩

theorem trans (h₁ : SameEntry s t i) (h₂ : SameEntry t u i) : SameEntry s u i where
  cfg := h₂.cfg.trans h₁.cfg
  addr := h₂.addr.trans h₁.addr
  base htor hi j hj := by
    have htor' : pmpcfgFromIndex t i &&& pmpA = pmpTOR := by rw [h₁.cfg, htor]
    rw [h₂.base htor' hi j hj, h₁.base htor hi j hj]
  covers b := (h₂.covers b).trans (h₁.covers b)

theorem symm (h : SameEntry s t i) : SameEntry t s i where
  cfg := h.cfg.symm
  addr := h.addr.symm
  base htor hi j hj := by
    rw [h.cfg] at htor
    exact (h.base htor hi j hj).symm
  covers b := (h.covers b).symm

theorem locked (h : SameEntry s t i) (hl : Locked s i) : Locked t i := by
  unfold Locked
  rw [h.cfg]
  exact hl

theorem of_registers (hcfg : pmpcfgFromIndex t i = pmpcfgFromIndex s i)
    (haddr : t.csr (.pmpaddr i) = s.csr (.pmpaddr i))
    (hbase : pmpcfgFromIndex s i &&& pmpA = pmpTOR → 0 < i.val →
      ∀ j : Fin 16, j.val + 1 = i.val → t.csr (.pmpaddr j) = s.csr (.pmpaddr j)) :
    SameEntry s t i where
  cfg := hcfg
  addr := haddr
  base := hbase
  covers b := by
    have htop : pmpTop t i = pmpTop s i := by
      unfold pmpTop
      rw [haddr]
    have hlow : pmpcfgFromIndex s i &&& pmpA = pmpTOR → pmpBase t i = pmpBase s i := by
      intro htor
      unfold pmpBase
      by_cases hi : i.val = 0
      · rw [if_pos hi, if_pos hi]
      · rw [if_neg hi, if_neg hi]
        unfold pmpTop
        rw [hbase htor (by omega) ⟨i.val - 1, by omega⟩ (by dsimp only; omega)]
    unfold PmpMatches
    rw [hcfg, haddr, htop]
    apply or_congr_left
    apply and_congr_right
    intro htor
    rw [hlow htor]

end SameEntry

theorem pmpaddrLocked_iff : pmpaddrLocked P s i = true ↔
    Locked s i ∨ (i.val + 1 ≠ P.pmpNum ∧ Locked s (i + 1)) ∧
      pmpcfgFromIndex s (i + 1) &&& pmpA = pmpTOR := by
  unfold pmpaddrLocked Locked
  simp only [Bool.or_eq_true, Bool.and_eq_true, decide_eq_true_eq]

theorem WriteStep.addr_kept (h : WriteStep P s w t) (hl : pmpaddrLocked P s i = true) :
    t.csr (.pmpaddr i) = s.csr (.pmpaddr i) := by
  rw [h.pmpaddr_eq, if_neg]
  rintro ⟨_, _, hfree⟩
  rw [hl] at hfree
  cases hfree

/-- The lock bit of the top of a range holds off a write to its base. -/
theorem WriteStep.base_kept (h : WriteStep P s w t) (hl : Locked s i)
    (htor : pmpcfgFromIndex s i &&& pmpA = pmpTOR) (hi : i.val < P.pmpNum)
    (hj : j.val + 1 = i.val) : t.csr (.pmpaddr j) = s.csr (.pmpaddr j) := by
  have hnext : j + 1 = i := by
    apply Fin.ext
    rw [Fin.val_add_one_of_lt' (by omega), hj]
  apply h.addr_kept
  rw [pmpaddrLocked_iff, hnext]
  exact .inr ⟨⟨by omega, hl⟩, htor⟩

/-- A write keeps a locked entry iff it keeps its configuration byte. -/
theorem WriteStep.sameEntry_iff (h : WriteStep P s w t) (hi : i.val < P.pmpNum)
    (hl : Locked s i) : SameEntry s t i ↔ KeepsEntry P i s w := by
  constructor
  · intro hsame hw hn
    have hcfg := h.pmpcfg_byte i
    rw [if_pos ⟨hw, hn⟩, hsame.cfg] at hcfg
    exact hcfg.symm
  · intro hkeep
    refine .of_registers ?_ (h.addr_kept (pmpaddrLocked_iff.mpr (.inl hl)))
      fun htor _ j hj => h.base_kept hl htor hi hj
    rw [h.pmpcfg_byte]
    split
    · next hw => exact hkeep hw.1 hw.2
    · rfl

/-- The lock of an entry is permanent in exactly the sequences of CSR writes that never assign its
configuration byte a new value. Only writes to `pmpaddr` look at the lock bit. -/
theorem pmp_lock_permanent_iff (hi : i.val < P.pmpNum) (hl : Locked s i)
    (hrun : Run (WriteStep P) s tr t) :
    (∀ x ∈ tr, SameEntry s x.target i) ↔ ∀ x ∈ tr, KeepsEntry P i x.source x.label := by
  constructor
  · intro hsame
    induction hrun with
    | nil =>
      intro x hx
      cases hx
    | @cons a w b tr c hs _ ih =>
      have hab : SameEntry a b i := hsame _ List.mem_cons_self
      intro x hx
      cases hx with
      | head => exact (hs.sameEntry_iff hi hl).mp hab
      | tail _ hx =>
        apply ih (hab.locked hl) _ x hx
        intro y hy
        exact hab.symm.trans (hsame y (List.mem_cons_of_mem _ hy))
  · intro hkeep x hx
    have hinv := hrun.invariant_mem (I := fun u => SameEntry s u i) hkeep (.refl s i)
    refine (hinv ?_ x hx).2
    intro y hy hs hsy
    exact hsy.trans ((hs.sameEntry_iff hi (hsy.locked hl)).mpr hy)

/-- A locked entry is opened by one write to `pmpcfg0`. -/
theorem pmp_lock_cleared :
    ∃ s t w, Run (WriteStep (Platform.bare .standalone)) (Machine.reset (Platform.bare .standalone)
        fun _ => 0) [⟨Machine.reset (Platform.bare .standalone) fun _ => 0, ⟨.pmpcfg 0, 0x9f⟩, s⟩] s ∧
      Locked s 0 ∧ WriteStep (Platform.bare .standalone) s w t ∧ w = ⟨.pmpcfg 0, 0⟩ ∧
      ¬ SameEntry s t 0 := by
  refine ⟨_, _, _, .cons rfl .nil, ?_, rfl, rfl, ?_⟩
  · unfold Locked
    decide
  · intro h
    have hcfg := h.cfg
    revert hcfg
    decide

/-- The owner of a locked entry may open another one in the same register. -/
theorem pmp_lock_permanent_neighbour :
    ∃ s t w, Locked s 0 ∧ WriteStep (Platform.bare .standalone) s w t ∧
      w = ⟨.pmpcfg 0, 0x1f9f⟩ ∧ SameEntry s t 0 := by
  have hstart : ∃ s, s = final (csrWrite (Platform.bare .standalone) (.pmpcfg 0) 0x9f)
      (Machine.reset (Platform.bare .standalone) fun _ => 0) := ⟨_, rfl⟩
  obtain ⟨s, hs⟩ := hstart
  have hcfg : pmpcfgFromIndex s 0 = 0x9f := by
    rw [hs]
    rfl
  have hl : Locked s 0 := by
    unfold Locked
    rw [hcfg]
    decide
  have hrun : Run (WriteStep (Platform.bare .standalone)) s
      [⟨s, ⟨.pmpcfg 0, 0x1f9f⟩, final (csrWrite (Platform.bare .standalone) (.pmpcfg 0) 0x1f9f) s⟩]
      (final (csrWrite (Platform.bare .standalone) (.pmpcfg 0) 0x1f9f) s) := .cons rfl .nil
  refine ⟨s, _, ⟨.pmpcfg 0, 0x1f9f⟩, hl, rfl, rfl, ?_⟩
  apply (pmp_lock_permanent_iff (by decide) hl hrun).mpr _ _ List.mem_cons_self
  intro x hx _ _
  obtain rfl := List.mem_singleton.mp hx
  have hbyte : pmpcfgLegal ((0x1f9f : Word).extractLsb' 0 8) = 0x9f := by decide
  exact hbyte.trans hcfg.symm

end Nemu
