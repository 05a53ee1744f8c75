import Mathlib.Data.Set.Piecewise
import Nemu.Translation

namespace Nemu

open Effect

set_option autoImplicit true

/-- The root table that a value of `satp` names. -/
def tableRoot (satp : Word) : Word := pageBase (satp.extractLsb' 0 44)

/-- The entries that the walk of `va` from `base` reads are in memory, with their bytes in `tables`. -/
def EntriesIn (P : Platform) (mem : Word → BitVec 8) (tables : Set Word) (va : Word) (level : Nat)
    (base : Word) : Prop :=
  let pPte := base + vpn va level * 8
  let pte : Pte := ⟨Bytes.readLE 64 mem (P.paddr pPte) 8⟩
  inPmem P (P.paddr pPte) = true ∧ (∀ i < 8, P.paddr pPte + BitVec.ofNat 64 i ∈ tables) ∧
    ((!pte.v || (!pte.r && pte.w)) = false → (pte.r || pte.x) = false → match level with
      | 0 => True
      | level + 1 => EntriesIn P mem tables va level pte.base)

/-- What page tables give to user mode: `tables` holds the bytes of the tables themselves, whose
contents are `image`, and `pages` what they map for the user. -/
structure AddressSpace (P : Platform) where
  satp : Word
  image : Word → BitVec 8
  tables : Set Word
  pages : Set Word
  translating : satp.extractLsb' 60 4 = 8
  entries : ∀ va, Canonical va → EntriesIn P image tables va 2 (tableRoot satp)
  mapped : ∀ va level pPte pte, walkLoop P image va 2 (tableRoot satp) = some (.leaf level pPte pte) →
    pte.u = true → frame P level pte va ||| (va &&& pageMask) ∈ pages
  /-- no page that the user may write holds a table -/
  guarded : ∀ va level pPte pte, walkLoop P image va 2 (tableRoot satp) = some (.leaf level pPte pte) →
    pte.u = true → pte.w = true → frame P level pte va ||| (va &&& pageMask) ∉ tables

variable {P : Platform}

/-- All that user mode can see of memory. -/
def AddressSpace.visible (A : AddressSpace P) : Set Word := A.tables ∪ A.pages

/-- The part of the state that decides how user mode accesses memory. -/
structure UserView where
  mode : Mode
  mprv : Bool
  satp : Word
  ifetchMmuState : MmuMode
  dataMmuState : MmuMode

def Machine.userView (s : Machine) : UserView :=
  ⟨s.mode, s.mprv, s.csr .satp, s.ifetchMmuState, s.dataMmuState⟩

/-- The machine runs in user mode on the page tables of `A`. -/
structure AddressSpace.Active (A : AddressSpace P) (s : Machine) : Prop where
  view : s.userView = ⟨.U, false, A.satp, .translate, .translate⟩
  image : ∀ a ∈ A.tables, s.pmem a = A.image a

variable {A : AddressSpace P} {s t : Machine} {va : Word} {type : MemType}

theorem AddressSpace.Active.mode (h : A.Active s) : s.mode = .U := congrArg UserView.mode h.view

theorem AddressSpace.Active.mprv (h : A.Active s) : s.mprv = false := congrArg UserView.mprv h.view

theorem AddressSpace.Active.satp (h : A.Active s) : s.csr .satp = A.satp :=
  congrArg UserView.satp h.view

theorem AddressSpace.Active.ifetch (h : A.Active s) : s.ifetchMmuState = .translate :=
  congrArg UserView.ifetchMmuState h.view

theorem AddressSpace.Active.data (h : A.Active s) : s.dataMmuState = .translate :=
  congrArg UserView.dataMmuState h.view

theorem AddressSpace.Active.root (h : A.Active s) : rootBase s = tableRoot A.satp := by
  unfold rootBase tableRoot
  rw [h.satp]

theorem AddressSpace.Active.accessMode (h : A.Active s) (ifetch : Bool) : s.accessMode ifetch = .U := by
  unfold Machine.accessMode
  rw [h.mprv, h.mode]
  rfl

section Walk

variable {m : Word → BitVec 8} {base : Word} {level : Nat}

theorem EntriesIn.inMemory (h : EntriesIn P m T va level base) :
    inPmem P (P.paddr (base + vpn va level * 8)) = true := by
  unfold EntriesIn at h
  exact h.1

theorem EntriesIn.bytes (h : EntriesIn P m T va level base) {i : Nat} (hi : i < 8) :
    P.paddr (base + vpn va level * 8) + BitVec.ofNat 64 i ∈ T := by
  unfold EntriesIn at h
  exact h.2.1 i hi

end Walk

section Translate

theorem paddrRead_inMemory (hin : inPmem P (P.paddr pa) = true)
    (h : paddrRead P pa len type mode va s = .ok x t) :
    t = s ∧ x = Bytes.readLE 64 s.pmem (P.paddr pa) len := by
  refine ⟨?_, (paddrRead_ok h).2 hin⟩
  obtain ⟨_, _, hget, h1⟩ := ok_of_bind h
  cases hget
  split at h1
  · exact absurd h1 raiseReadAccessFault_not_ok
  · obtain ⟨_, _, ha, h2⟩ := ok_of_bind h1
    obtain ⟨rfl, -⟩ := assert_ok ha
    cases h2
    rfl

theorem ptwLoop_image (hA : A.Active s) (he : EntriesIn P A.image A.tables va level base)
    (h : ptwLoop P va type level base s = .ok w t) :
    t = s ∧ walkLoop P A.image va level base = some w := by
  induction level generalizing base with
  | zero =>
    obtain ⟨val, u, hr, h1⟩ := ok_of_bind h
    obtain ⟨rfl, rfl⟩ := paddrRead_inMemory he.inMemory hr
    rw [Bytes.readLE_congr fun i hi => hA.image _ (he.bytes hi)] at h1
    unfold walkLoop
    dsimp only at h1 ⊢
    rw [if_pos he.inMemory]
    split at h1
    · next hbad =>
      cases h1
      exact ⟨rfl, if_pos hbad⟩
    · next hbad =>
      rw [if_neg hbad]
      split at h1
      · next hleaf =>
        cases h1
        exact ⟨rfl, if_pos hleaf⟩
      · next hleaf =>
        cases h1
        exact ⟨rfl, if_neg hleaf⟩
  | succ level ih =>
    obtain ⟨val, u, hr, h1⟩ := ok_of_bind h
    obtain ⟨rfl, rfl⟩ := paddrRead_inMemory he.inMemory hr
    rw [Bytes.readLE_congr fun i hi => hA.image _ (he.bytes hi)] at h1
    unfold walkLoop
    dsimp only at h1 ⊢
    rw [if_pos he.inMemory]
    split at h1
    · next hbad =>
      cases h1
      exact ⟨rfl, if_pos hbad⟩
    · next hbad =>
      rw [if_neg hbad]
      split at h1
      · next hleaf =>
        cases h1
        exact ⟨rfl, if_pos hleaf⟩
      · next hleaf =>
        rw [if_neg hleaf]
        unfold EntriesIn at he
        exact ih (he.2.2 (Bool.eq_false_iff.mpr hbad) (Bool.eq_false_iff.mpr hleaf)) h1

theorem checkPermission_user (hA : A.Active s) (h : checkPermission P pte b va type s = .ok () t) :
    t = s ∧ b = true ∧ pte.u = true ∧ (type = .write → pte.w = true) := by
  have hallows : ∀ {ok ifetch x}, (pteAllows s pte ok ifetch .U && x) = true → pte.u = true ∧ x = true := by
    intro ok ifetch x hx
    simp only [pteAllows, Bool.and_eq_true, decide_true, Bool.true_and, Bool.not_not] at hx
    exact ⟨hx.1.1.2, hx.2⟩
  obtain ⟨ht, hb⟩ := checkPermission_ok h
  refine ⟨ht, hb, ?_⟩
  obtain ⟨_, _, hget, h1⟩ := ok_of_bind h
  cases hget
  obtain ⟨_, _, ha, h2⟩ := ok_of_bind h1
  obtain ⟨rfl, -⟩ := assert_ok ha
  rw [hA.accessMode] at h2
  have hpass : ∀ {c x y : Bool}, ¬ (!(c && x) || y) = true → (c && x) = true := by
    intro c x y hn
    rw [Bool.or_eq_true, Bool.not_eq_true', not_or, Bool.not_eq_false] at hn
    exact hn.1
  cases type with
  | ifetch =>
    dsimp only at h2
    split at h2
    · obtain ⟨_, _, -, hf⟩ := ok_of_bind h2
      exact absurd hf faultAt_not_ok
    · next hn => exact ⟨(hallows (hpass hn)).1, fun he => by cases he⟩
  | read =>
    dsimp only at h2
    split at h2
    · exact absurd h2 raiseAccessFault_not_ok
    · next hn => exact ⟨(hallows (hpass hn)).1, fun he => by cases he⟩
  | write | ifetchRead | writeRead =>
    dsimp only at h2
    split at h2
    · exact absurd h2 raiseAccessFault_not_ok
    · next hn => exact ⟨(hallows (hpass hn)).1, fun _ => (hallows (hpass hn)).2⟩

/-- The page that a translation returns: one of the user's, and without tables for a write. -/
structure AddressSpace.Lands (A : AddressSpace P) (va : Word) (type : MemType) (pgBase : Word) : Prop where
  page : ∀ va', hosttlbVpn va' = hosttlbVpn va → pgBase ||| (va' &&& pageMask) ∈ A.pages
  writable : type = .write → ∀ va', hosttlbVpn va' = hosttlbVpn va →
    pgBase ||| (va' &&& pageMask) ∉ A.tables

theorem AddressSpace.lands (hw : walkLoop P A.image va 2 (tableRoot A.satp) = some (.leaf level pPte pte))
    (hu : pte.u = true) (hwr : type = .write → pte.w = true) : A.Lands va type (frame P level pte va) where
  page va' hva := by
    rw [frame_congr hva.symm]
    exact A.mapped va' level pPte pte ((walkLoop_congr hva ..).trans hw) hu
  writable ht va' hva := by
    rw [frame_congr hva.symm]
    exact A.guarded va' level pPte pte ((walkLoop_congr hva ..).trans hw) hu (hwr ht)

theorem ptw_lands (hA : A.Active s) (h : ptw P va type s = .ok r t) :
    A.Lands va type r ∧ r &&& pageMask = 0 := by
  obtain ⟨w, u, hwalk, h1⟩ := ok_of_bind h
  have hroot := hA.root
  have hw : u = s ∧ ((∃ pte, w = .bad pte) ∨ walkLoop P A.image va 2 (tableRoot A.satp) = some w) := by
    change (if Canonical va then ptwLoop P va type 2 (rootBase s) else pure (.bad ⟨0⟩) : Exec Walk) s = _
      at hwalk
    rw [hroot] at hwalk
    split at hwalk
    · next hc =>
      obtain ⟨hu, hw⟩ := ptwLoop_image hA (A.entries va hc) hwalk
      exact ⟨hu, .inr hw⟩
    · cases hwalk
      exact ⟨rfl, .inl ⟨_, rfl⟩⟩
  obtain ⟨rfl, hw⟩ := hw
  cases w with
  | bad pte =>
    obtain ⟨_, _, hc, -⟩ := ok_of_bind h1
    cases (checkPermission_user hA hc).2.1
  | leaf level pPte pte =>
    obtain ⟨_, h0⟩ | hw := hw
    · cases h0
    obtain ⟨_, _, hc, h2⟩ := ok_of_bind h1
    obtain ⟨rfl, -, hu, hwr⟩ := checkPermission_user hA hc
    split at h2
    · obtain ⟨_, _, hc, -⟩ := ok_of_bind h2
      cases (checkPermission_user hA hc).2.1
    · obtain ⟨_, _, -, h3⟩ := ok_of_bind h2
      cases h3
      exact ⟨AddressSpace.lands hw hu hwr, frame_page P level pte va⟩

theorem translate_lands (hA : A.Active s) (h : isaMmuTranslate P va type s = .ok r t) :
    A.Lands va type r ∧ r &&& pageMask = 0 := by
  obtain ⟨r', u, hptw, h1⟩ := ok_of_bind h
  have hr : r' = r := by
    split at h1
    · obtain ⟨_, _, -, h2⟩ := ok_of_bind h1
      cases h2
      rfl
    · cases h1
      rfl
  rw [← hr]
  exact ptw_lands hA hptw

end Translate

end Nemu
