import Nemu.Lib.Sv39
import Nemu.PageWalk
import Nemu.Permission
import Nemu.Reset

namespace Nemu

open Effect

set_option autoImplicit true

/-- The access types that are translated. -/
def memType : Sv39.Kind → MemType
  | .fetch => .ifetch
  | .load => .read
  | .store => .write

/-- The registers of a translation: the root table in `satp`, the effective mode, `mstatus`. -/
def Machine.sv39 (s : Machine) (P : Platform) (k : Sv39.Kind) : Sv39.Context where
  root := (s.csr .satp).extractLsb' 0 44
  user := s.typeMode (memType k) = .U
  sum := s.sum
  mxr := s.mxr
  svade := P.share

def accessFault (s : Machine) : Sv39.Kind → Exc
  | .fetch => .IAF
  | .load => if s.amo then .SAF else .LAF
  | .store => .SAF

def accessFaulted (P : Platform) (s : Machine) (k : Sv39.Kind) (va : Word) :
    EStateM.Result Stop Machine α :=
  .error (.exception ⟨accessFault s k, some va, .plain⟩)
    (({ s with amo := false } : Machine).faulted P (accessFault s k) va)

/-- A page table entry is read with supervisor privilege, from memory or from a device that is
not hidden from page tables. -/
def readEntry (P : Platform) (k : Sv39.Kind) (va : Word) (a : Word) : Exec Word := fun s =>
  if isaPmpCheckPermission P s (P.paddr a) 8 (ptwReadType (memType k)) .S = false then
    accessFaulted P s k va
  else if inPmem P (P.paddr a) = true then .ok (Bytes.readLE 64 s.pmem (P.paddr a) 8) s
  else if ((!P.share || P.hasFlash) && P.inMmio (P.paddr a)) = true then mmioRead P (P.paddr a) 8 s
  else if (P.share && P.ignoreIllegalMemAccess) = true then .ok 0 s
  else accessFaulted P s k va

/-- `PGBASE` keeps 32 bits of a page number, which is all of the number of a low page. -/
def LowPage (pn : BitVec 44) : Prop := pn.toNat < 2 ^ 32

instance (pn : BitVec 44) : Decidable (LowPage pn) := inferInstanceAs (Decidable (_ < _))

/-- The tables that a descent visits are in low pages. -/
def LowTables (P : Platform) (k : Sv39.Kind) (va : Word) (level : Nat) (pn : BitVec 44) (s : Machine) :
    Prop :=
  LowPage pn ∧ match level with
    | 0 => True
    | level + 1 => ∀ v t, readEntry P k va (Sv39.entryAddr pn va (level + 1)) s = .ok v t →
        (⟨v⟩ : Sv39.Entry).reserved = false → (⟨v⟩ : Sv39.Entry).leaf = false →
        LowTables P k va level (⟨v⟩ : Sv39.Entry).ppn t

def LowWalk (P : Platform) (s : Machine) (k : Sv39.Kind) (va : Word) : Prop :=
  Sv39.Canonical va → LowTables P k va 2 (s.sv39 P k).root s

/-- A page that the walk grants is a low one. -/
def LowLeaf (P : Platform) (s : Machine) (k : Sv39.Kind) (va : Word) : Prop :=
  ∀ l u, Sv39.walk (readEntry P k va) (s.sv39 P k) va s = .ok (some l) u →
    l.admits (s.sv39 P k) k = true → LowPage l.entry.ppn

def pteOf (e : Sv39.Entry) : Pte := ⟨e.val⟩

/-- The page of `va` behind a leaf, as `ptw` computes it. -/
def leafPage (l : Sv39.Leaf) (va : Word) : Word :=
  ((pteOf l.entry).base &&& ~~~pgMask l.level) ||| (va &&& pgMask l.level &&& ~~~0xfff)

/-- How an access ends when its leaf has been found. The protection key comes before the alignment
of a superpage. -/
def leafFound (P : Platform) (k : Sv39.Kind) (va : Word) (l : Sv39.Leaf) : Exec Word := fun s =>
  if l.entry.grants (s.sv39 P k) k = false then pageFaulted P s (memType k) va
  else if keyDenies P s (pteOf l.entry) (memType k) = true then keyFaulted P s (memType k) va
  else if l.entry.whole l.level = false then pageFaulted P s (memType k) va
  else (do
    ptwUpdateAd P l.addr (pteOf l.entry) va (memType k)
    pure (P.paddr (leafPage l va)) : Exec Word) s

/-- How an access ends after the walk. -/
def walkEnd (P : Platform) (k : Sv39.Kind) (va : Word) : Option Sv39.Leaf → Exec Word
  | none => fun s => pageFaulted P s (memType k) va
  | some l => leafFound P k va l

variable {P : Platform} {s t : Machine} {k : Sv39.Kind} {va : Word}

section Entry

variable {e : Sv39.Entry}

theorem vpn_toNat (va : Word) (level : Nat) : (vpn va level).toNat = Sv39.vpn va level := by
  unfold vpn vpnShift Sv39.vpn
  rw [BitVec.toNat_and, BitVec.toNat_ushiftRight, Nat.shiftRight_eq_div_pow]
  exact Nat.and_two_pow_sub_one_eq_mod _ 9

theorem LowPage.base {pn : BitVec 44} (h : LowPage pn) : (pageBase pn).toNat = 2 ^ 12 * pn.toNat := by
  rw [pageBase_toNat, Nat.mod_eq_of_lt h]

theorem LowPage.entryAddr {pn : BitVec 44} (h : LowPage pn) (va : Word) (level : Nat) :
    pageBase pn + vpn va level * 8 = Sv39.entryAddr pn va level := by
  have hv : Sv39.vpn va level < 512 := Nat.mod_lt _ (by decide)
  have h8 : (8 : Word).toNat = 8 := rfl
  apply BitVec.eq_of_toNat_eq
  unfold Sv39.entryAddr
  rw [BitVec.toNat_add, BitVec.toNat_mul, h.base, vpn_toNat, h8, BitVec.toNat_ofNat]
  omega

theorem pgMask_getLsbD {level : Nat} (hl : level ≤ 2) {i : Nat} (hi : i < 64) :
    (pgMask level).getLsbD i = decide (0 < level ∧ i < 12 + 9 * level) := by
  have hall : ∀ level < 3, ∀ i < 64,
      (pgMask level).getLsbD i = decide (0 < level ∧ i < 12 + 9 * level) := by decide
  exact hall level (by omega) i hi

theorem LowPage.base_getLsbD {pn : BitVec 44} (h : LowPage pn) (i : Nat) :
    (pageBase pn).getLsbD i = (decide (12 ≤ i) && pn.getLsbD (i - 12)) := by
  rw [BitVec.getLsbD, h.base, Nat.testBit_two_pow_mul]
  rfl

theorem leafPage_eq {l : Sv39.Leaf} (hl : l.level ≤ 2) (h : LowPage l.entry.ppn) (va : Word) :
    leafPage l va = l.page va := by
  obtain ⟨level, a, e⟩ := l
  change ((pteOf e).base &&& ~~~pgMask level) ||| (va &&& pgMask level &&& ~~~0xfff) = e.page level va
  have hbase : ∀ i, (pteOf e).base.getLsbD i = (decide (12 ≤ i) && e.ppn.getLsbD (i - 12)) :=
    h.base_getLsbD
  have hlow : ∀ i < 64, (~~~0xfff : Word).getLsbD i = decide (12 ≤ i) := by decide
  apply BitVec.eq_of_getLsbD_eq
  intro i hi
  rw [e.page_getLsbD level va i hi, BitVec.getLsbD_or, BitVec.getLsbD_and, BitVec.getLsbD_and,
    BitVec.getLsbD_and, BitVec.getLsbD_not, pgMask_getLsbD hl hi, hbase i, hlow i hi,
    decide_eq_true hi, Bool.true_and]
  by_cases h12 : i < 12
  · simp [h12, Nat.not_le.mpr h12]
  have hle : 12 ≤ i := Nat.le_of_not_lt h12
  by_cases hin : i < 12 + 9 * level
  · have hpos : 0 < level := by omega
    simp [h12, hin, hle, hpos]
  · simp [h12, hin, hle]

theorem whole_iff {level : Nat} (hl : level ≤ 2) (e : Sv39.Entry) :
    (pteOf e).base &&& pgMask level = 0 ↔ e.whole level = true := by
  have hbase : (pteOf e).base.toNat = 2 ^ 12 * (e.ppn.toNat % 2 ^ 32) := pageBase_toNat _
  unfold Sv39.Entry.whole
  rw [decide_eq_true_eq, ← BitVec.toNat_inj, BitVec.toNat_and, hbase]
  have hzero : (0 : Word).toNat = 0 := rfl
  obtain rfl | rfl | rfl : level = 0 ∨ level = 1 ∨ level = 2 := by omega
  · have hmask : (pgMask 0).toNat = 0 := by decide
    rw [hmask, Nat.and_zero]
    exact iff_of_true rfl (one_dvd _)
  · have hmask : (pgMask 1).toNat = 2 ^ 21 - 1 := by decide
    rw [hmask, Nat.and_two_pow_sub_one_eq_mod, hzero]
    omega
  · have hmask : (pgMask 2).toNat = 2 ^ 30 - 1 := by decide
    rw [hmask, Nat.and_two_pow_sub_one_eq_mod, hzero]
    omega

theorem pteGrants_eq (hm : Permitted s (memType k = .ifetch)) (hv : e.reserved = false) :
    pteGrants P s (pteOf e) (memType k) = e.grants (s.sv39 P k) k := by
  have hvalid : e.v = true := by
    unfold Sv39.Entry.reserved at hv
    cases hb : e.v with
    | true => rfl
    | false =>
      rw [hb] at hv
      cases hv
  have hpv : (pteOf e).v = true := hvalid
  have hmode : s.typeMode (memType k) = .U ∨ s.typeMode (memType k) = .S := hm
  unfold pteGrants pteAllows Sv39.Entry.grants Sv39.Entry.privileged Machine.sv39
  rw [hpv]
  have hpu : (pteOf e).u = e.u := rfl
  rw [hpu]
  have hkind : pteKind s (pteOf e) (memType k) =
      e.allows (s.sv39 P k) k := by
    cases k <;> rfl
  have haged : (!pteAged P (pteOf e) (memType k)) = (!P.share || e.aged k) := by
    have ha : (pteOf e).a = e.a := rfl
    have hd : (pteOf e).d = e.d := rfl
    cases k <;> simp [pteAged, memType, Sv39.Entry.aged, ha, hd]
  rw [hkind, haged]
  unfold Machine.sv39
  congr 2
  obtain hu | hs := hmode
  · rw [hu]
    cases e.u <;> simp
  · rw [hs]
    cases k <;> cases e.u <;> cases s.sum <;> simp [memType]

end Entry

section Read

/-- Nothing that a translation or its faults depend on has changed. -/
structure Observed (s t : Machine) : Prop where
  csr : ∀ r, r ≠ .mip → t.csr r = s.csr r
  mode : t.mode = s.mode
  amo : t.amo = s.amo
  pmem : t.pmem = s.pmem
  guidedExec : t.guidedExec = s.guidedExec
  guide : t.guide = s.guide

theorem Observed.refl (s : Machine) : Observed s s := ⟨fun _ _ => rfl, rfl, rfl, rfl, rfl, rfl⟩

theorem Observed.trans {u : Machine} (h : Observed s t) (h' : Observed t u) : Observed s u where
  csr r hr := (h'.csr r hr).trans (h.csr r hr)
  mode := h'.mode.trans h.mode
  amo := h'.amo.trans h.amo
  pmem := h'.pmem.trans h.pmem
  guidedExec := h'.guidedExec.trans h.guidedExec
  guide := h'.guide.trans h.guide

theorem Observed.mstatus (h : Observed s t) : t.csr .mstatus = s.csr .mstatus :=
  h.csr .mstatus (by decide)

theorem Observed.accessMode (h : Observed s t) (b : Bool) : t.accessMode b = s.accessMode b := by
  unfold Machine.accessMode Machine.mprv Machine.mpp
  rw [h.mstatus, h.mode]

theorem Observed.sv39 (h : Observed s t) (P : Platform) (k : Sv39.Kind) :
    t.sv39 P k = s.sv39 P k := by
  have hmode : t.typeMode (memType k) = s.typeMode (memType k) := h.accessMode _
  unfold Machine.sv39 Machine.sum Machine.mxr
  rw [hmode, h.mstatus, h.csr .satp (by decide)]

theorem observed_setMtip (b : Option Bool) (log : List DevEvent) :
    Observed s (setMtip b { s with mmio := log }) := by
  cases b with
  | none => exact ⟨fun _ _ => rfl, rfl, rfl, rfl, rfl, rfl⟩
  | some b => exact ⟨fun r hr => Function.update_of_ne hr _ _, rfl, rfl, rfl, rfl, rfl⟩

theorem mmioRead_observed (h : mmioRead P a len s = .ok v t) : Observed s t := by
  obtain ⟨_, _, hget, h1⟩ := ok_of_bind h
  cases hget
  cases hr : P.mmioAccess s.mmio ⟨a, len, none⟩ with
  | none =>
    rw [hr] at h1
    cases h1
  | some r =>
    rw [hr] at h1
    cases h1
    exact observed_setMtip _ _

theorem readEntry_observed (h : readEntry P k va a s = .ok v t) : Observed s t := by
  unfold readEntry accessFaulted at h
  split at h
  · cases h
  split at h
  · cases h
    exact .refl s
  split at h
  · exact mmioRead_observed h
  split at h
  · cases h
    exact .refl s
  · cases h

theorem raiseAccessFault_run (ex : Exc) :
    (raiseAccessFault P ex va : Exec α) s =
      .error (.exception ⟨ex, some va, .plain⟩)
        (({ s with amo := false } : Machine).faulted P ex va) :=
  faultAt_run P ex va { s with amo := false }

theorem raiseReadAccessFault_run (k : Sv39.Kind) :
    (raiseReadAccessFault P (ptwReadType (memType k)) va : Exec α) s = accessFaulted P s k va := by
  unfold raiseReadAccessFault
  rw [get_bind]
  cases k with
  | fetch => exact raiseAccessFault_run .IAF
  | store =>
    have hsaf : s.amo = true ∨ MemType.writeRead = .writeRead := .inr rfl
    refine (congrFun (if_neg (by decide)) s).trans ((congrFun (if_pos hsaf) s).trans ?_)
    exact raiseAccessFault_run .SAF
  | load =>
    unfold accessFaulted accessFault
    cases hamo : s.amo with
    | true =>
      refine (congrFun (if_neg (by decide)) s).trans ((congrFun (if_pos (.inl rfl)) s).trans ?_)
      exact raiseAccessFault_run .SAF
    | false =>
      refine (congrFun (if_neg (by decide)) s).trans ((congrFun (if_neg (by decide)) s).trans ?_)
      exact raiseAccessFault_run .LAF

theorem paddrRead_entryAt (a : Word) :
    paddrRead P a 8 (ptwReadType (memType k)) .S va s = readEntry P k va a s := by
  unfold paddrRead readEntry
  rw [get_bind]
  cases isaPmpCheckPermission P s (P.paddr a) 8 (ptwReadType (memType k)) .S with
  | false =>
    rw [Bool.not_false, if_pos rfl, if_pos rfl]
    exact raiseReadAccessFault_run k
  | true =>
    have hne : ¬ (true = false) := by decide
    rw [Bool.not_true, if_neg Bool.false_ne_true, if_neg hne]
    by_cases hin : inPmem P (P.paddr a) = true
    · rw [if_pos hin, if_pos hin]
      rfl
    rw [if_neg hin, if_neg hin]
    by_cases hio : ((!P.share || P.hasFlash) && P.inMmio (P.paddr a)) = true
    · rw [if_pos hio, if_pos hio]
    rw [if_neg hio, if_neg hio]
    by_cases hig : (P.share && P.ignoreIllegalMemAccess) = true
    · rw [if_pos hig, if_pos hig]
      rfl
    · rw [if_neg hig, if_neg hig]
      exact raiseReadAccessFault_run k

end Read

section Walk

/-- An access of kind `k` is one that can be translated. -/
structure Translating (s : Machine) (k : Sv39.Kind) : Prop where
  permitted : Permitted s (memType k = .ifetch)
  amo : k = .fetch → s.amo = false

theorem Translating.observed (h : Translating s k) (ho : Observed s t) : Translating t k where
  permitted := by
    unfold Permitted
    rw [ho.accessMode]
    exact h.permitted
  amo hk := ho.amo.trans (h.amo hk)

theorem Translating.fetch (h : Translating s k) (hk : memType k = .ifetch) : s.amo = false := by
  cases k with
  | fetch => exact h.amo rfl
  | load | store => cases hk

theorem ptwFinish_bad (h : Translating s k) (pte : Pte) :
    ptwFinish P va (memType k) (.bad pte) s = walkEnd P k va none s :=
  bind_error ((checkPermission_eq h.permitted h.fetch).trans (if_pos (Bool.false_and _)))

theorem ptwFinish_leaf (h : Translating s k) (l : Sv39.Leaf) (hl : l.level ≤ 2)
    (hv : l.entry.reserved = false) :
    ptwFinish P va (memType k) (.leaf l.level l.addr (pteOf l.entry)) s =
      walkEnd P k va (some l) s := by
  have hbad : checkPermission P (pteOf l.entry) false va (memType k) s =
      pageFaulted P s (memType k) va := by
    rw [checkPermission_eq h.permitted h.fetch, Bool.false_and, if_pos rfl]
  have hcheck : checkPermission P (pteOf l.entry) true va (memType k) s =
      if l.entry.grants (s.sv39 P k) k = false then pageFaulted P s (memType k) va
      else if keyDenies P s (pteOf l.entry) (memType k) = true then keyFaulted P s (memType k) va
      else .ok () s := by
    rw [checkPermission_eq h.permitted h.fetch, Bool.true_and, pteGrants_eq h.permitted hv]
  unfold ptwFinish walkEnd leafFound
  dsimp only
  by_cases hg : l.entry.grants (s.sv39 P k) k = false
  · rw [if_pos hg] at hcheck ⊢
    exact bind_error hcheck
  rw [if_neg hg] at hcheck ⊢
  by_cases hk : keyDenies P s (pteOf l.entry) (memType k) = true
  · rw [if_pos hk] at hcheck ⊢
    exact bind_error hcheck
  rw [if_neg hk] at hcheck ⊢
  rw [bind_ok hcheck]
  by_cases hw : l.entry.whole l.level = true
  · have hwhole := (whole_iff hl l.entry).mpr hw
    have hne : ¬ (true = false) := by decide
    rw [hw, if_neg hne, if_neg (not_not.mpr hwhole)]
    rfl
  · have hbroken : (pteOf l.entry).base &&& pgMask l.level ≠ 0 :=
      fun hz => hw ((whole_iff hl l.entry).mp hz)
    rw [if_pos (Bool.eq_false_of_not_eq_true hw), if_pos hbroken]
    exact bind_error hbad

/-- One round of the loop of `ptw` is one of the descent, if what follows an entry that points to
a table is. -/
theorem round_descend (hl : level ≤ 2) {n : BitVec 44} (hn : LowPage n) (h : Translating s k)
    (next : Pte → Exec Walk) (next' : Sv39.Entry → Exec (Option Sv39.Leaf))
    (hnext : ∀ v t, readEntry P k va (Sv39.entryAddr n va level) s = .ok v t →
      (⟨v⟩ : Sv39.Entry).reserved = false → (⟨v⟩ : Sv39.Entry).leaf = false → Translating t k →
      (next (pteOf ⟨v⟩) >>= ptwFinish P va (memType k)) t = (next' ⟨v⟩ >>= walkEnd P k va) t) :
    ((do
      let val ← paddrRead P (pageBase n + vpn va level * 8) 8 (ptwReadType (memType k)) .S va
      let pte : Pte := ⟨val⟩
      if !pte.v || (!pte.r && pte.w) then pure (.bad pte)
      else if pte.r || pte.x then pure (.leaf level (pageBase n + vpn va level * 8) pte)
      else next pte : Exec Walk) >>= ptwFinish P va (memType k)) s =
    ((do
      let val ← readEntry P k va (Sv39.entryAddr n va level)
      let e : Sv39.Entry := ⟨val⟩
      if e.reserved then pure none
      else if e.leaf then pure (some ⟨level, Sv39.entryAddr n va level, e⟩)
      else next' e : Exec (Option Sv39.Leaf)) >>= walkEnd P k va) s := by
  simp only [bind_assoc]
  rw [hn.entryAddr]
  have hread : paddrRead P (Sv39.entryAddr n va level) 8 (ptwReadType (memType k)) .S va s =
      readEntry P k va (Sv39.entryAddr n va level) s := paddrRead_entryAt _
  cases hv : readEntry P k va (Sv39.entryAddr n va level) s with
  | error e t => rw [bind_error (hread.trans hv), bind_error hv]
  | ok v t =>
    have ht := h.observed (readEntry_observed hv)
    rw [bind_ok (hread.trans hv), bind_ok hv]
    by_cases hr : (⟨v⟩ : Sv39.Entry).reserved = true
    · have hr' : (!(⟨v⟩ : Pte).v || (!(⟨v⟩ : Pte).r && (⟨v⟩ : Pte).w)) = true := hr
      rw [if_pos hr, if_pos hr']
      exact ptwFinish_bad ht _
    have hr' : ¬ (!(⟨v⟩ : Pte).v || (!(⟨v⟩ : Pte).r && (⟨v⟩ : Pte).w)) = true := hr
    rw [if_neg hr, if_neg hr']
    by_cases hf : (⟨v⟩ : Sv39.Entry).leaf = true
    · have hf' : ((⟨v⟩ : Pte).r || (⟨v⟩ : Pte).x) = true := hf
      rw [if_pos hf, if_pos hf']
      exact ptwFinish_leaf ht ⟨level, Sv39.entryAddr n va level, ⟨v⟩⟩ hl
        (Bool.eq_false_of_not_eq_true hr)
    · have hf' : ¬ ((⟨v⟩ : Pte).r || (⟨v⟩ : Pte).x) = true := hf
      rw [if_neg hf, if_neg hf']
      exact hnext v t hv (Bool.eq_false_of_not_eq_true hr) (Bool.eq_false_of_not_eq_true hf) ht

/-- The loop of `ptw`, by induction on the level. -/
theorem ptwLoop_descend (level : Nat) (hl : level ≤ 2) {n : BitVec 44} (hn : LowTables P k va level n s)
    (h : Translating s k) :
    (ptwLoop P va (memType k) level (pageBase n) >>= ptwFinish P va (memType k)) s
      = (Sv39.descend (readEntry P k va) va level n >>= walkEnd P k va) s := by
  induction level generalizing n s with
  | zero =>
    unfold ptwLoop Sv39.descend
    exact round_descend hl hn.1 h (fun pte => pure (.bad pte)) (fun _ => pure none)
      fun v t _ _ _ ht => ptwFinish_bad ht _
  | succ level ih =>
    unfold ptwLoop Sv39.descend
    exact round_descend hl hn.1 h (fun pte => ptwLoop P va (memType k) level pte.base)
      (fun e => Sv39.descend (readEntry P k va) va level e.ppn)
      fun v t hv hr hf ht => ih (Nat.le_of_succ_le hl) (hn.2 v t hv hr hf) ht

/-- `ptw` is the walk of the specification, and then the checks of its leaf. -/
theorem ptw_walk (h : Translating s k) (hlow : LowWalk P s k va) :
    ptw P va (memType k) s =
      (Sv39.walk (readEntry P k va) (s.sv39 P k) va >>= walkEnd P k va) s := by
  have hcan : Canonical va ↔ Sv39.Canonical va := canonical_iff
  unfold ptw ptwWalk Sv39.walk
  simp only [bind_assoc]
  rw [get_bind]
  by_cases hc : Sv39.Canonical va
  · have hc' : (va.extractLsb' 0 39).signExtend 64 = va := hcan.mpr hc
    rw [if_pos hc, if_pos hc']
    exact ptwLoop_descend 2 (Nat.le_refl 2) (hlow hc) h
  · have hc' : ¬ (va.extractLsb' 0 39).signExtend 64 = va := fun hx => hc (hcan.mp hx)
    rw [if_neg hc, if_neg hc']
    exact ptwFinish_bad h _

/-- What the reads of a walk can do. -/
def walkEffect (P : Platform) (k : Sv39.Kind) (va : Word) : Effect Stop Machine where
  ok := Observed
  err s e u := e = .abort .device ∨
    ∃ t, Observed s t ∧ (accessFaulted P t k va : EStateM.Result Stop Machine Word) = .error e u
  refl := Observed.refl
  trans := Observed.trans
  absorb h h' := by
    obtain he | ⟨t, ht, hf⟩ := h'
    · exact .inl he
    · exact .inr ⟨t, h.trans ht, hf⟩

theorem readEntry_effect (a : Word) : (walkEffect P k va).Within (readEntry P k va a) := by
  intro s
  unfold At
  cases hv : readEntry P k va a s with
  | ok v t => exact readEntry_observed hv
  | error e t =>
    unfold readEntry at hv
    split at hv
    · exact .inr ⟨s, .refl s, hv⟩
    split at hv
    · cases hv
    split at hv
    · obtain hget | ⟨_, _, hget, h1⟩ := error_of_bind hv
      · cases hget
      cases hget
      cases hr : P.mmioAccess s.mmio ⟨P.paddr a, 8, none⟩ with
      | none =>
        rw [hr] at h1
        cases h1
        exact .inl rfl
      | some r =>
        rw [hr] at h1
        cases h1
    split at hv
    · cases hv
    · exact .inr ⟨s, .refl s, hv⟩

theorem descend_effect (level : Nat) (n : BitVec 44) :
    (walkEffect P k va).Within (Sv39.descend (readEntry P k va) va level n) := by
  induction level generalizing n with
  | zero =>
    unfold Sv39.descend
    refine .bind (readEntry_effect _) fun v => ?_
    dsimp only
    repeat' split
    all_goals exact .ret _ _
  | succ level ih =>
    unfold Sv39.descend
    refine .bind (readEntry_effect _) fun v => ?_
    dsimp only
    split
    · exact .ret _ _
    split
    · exact .ret _ _
    · exact ih _

theorem walk_effect (c : Sv39.Context) :
    (walkEffect P k va).Within (Sv39.walk (readEntry P k va) c va) := by
  unfold Sv39.walk
  split
  · exact descend_effect 2 _
  · exact .ret _ _

theorem descend_level (level : Nat) {n : BitVec 44} {l : Sv39.Leaf}
    (h : Sv39.descend (readEntry P k va) va level n s = .ok (some l) t) : l.level ≤ level := by
  induction level generalizing n s with
  | zero =>
    obtain ⟨v, u, -, h1⟩ := ok_of_bind h
    dsimp only at h1
    split at h1
    · cases h1
    split at h1
    · cases h1
      exact Nat.le_refl 0
    · cases h1
  | succ level ih =>
    obtain ⟨v, u, -, h1⟩ := ok_of_bind h
    dsimp only at h1
    split at h1
    · cases h1
    split at h1
    · cases h1
      exact Nat.le_refl _
    · exact Nat.le_succ_of_le (ih h1)

theorem walk_level {c : Sv39.Context} {l : Sv39.Leaf}
    (h : Sv39.walk (readEntry P k va) c va s = .ok (some l) t) : l.level ≤ 2 := by
  unfold Sv39.walk at h
  split at h
  · exact descend_level 2 h
  · cases h

theorem lowWalk_of_leaf (hroot : LowPage (s.sv39 P k).root)
    (hread : readEntry P k va (Sv39.entryAddr (s.sv39 P k).root va 2) s = .ok v t)
    (hv : (⟨v⟩ : Sv39.Entry).leaf = true) : LowWalk P s k va := by
  refine fun _ => ⟨hroot, fun v' t' hread' _ hleaf => ?_⟩
  cases hread.symm.trans hread'
  rw [hv] at hleaf
  cases hleaf

end Walk

section Specification

/-- The protection keys are not enabled in the mode of an access. -/
def KeysOff (P : Platform) (s : Machine) (mode : Mode) : Prop :=
  P.dasics = true → (mode = .U → (s.csr .spkctl).getLsbD 0 = false) ∧
    (mode = .S → (s.csr .spkctl).getLsbD 1 = false)

/-- No fault is forced by the guided execution. -/
def Unguided (s : Machine) : Prop := (s.guidedExec && s.guide.forceRaiseException) = false

/-- What the result of the specification means for the machine. -/
def sv39End (P : Platform) (k : Sv39.Kind) (va : Word) : Option Word → Exec Word
  | some page => pure (P.paddr page)
  | none => fun s => pageFaulted P s (memType k) va

theorem KeysOff.denies (h : KeysOff P s (s.typeMode (memType k))) (pte : Pte) :
    keyDenies P s pte (memType k) = false := by
  have hbits : P.dasics = true → mpkBits s pte (s.typeMode (memType k)) = (false, false) := by
    intro hd
    obtain ⟨hu, hs⟩ := h hd
    unfold mpkBits
    cases hm : s.typeMode (memType k) with
    | U =>
      dsimp only
      rw [hu hm, Bool.false_and, Bool.false_and]
    | S =>
      dsimp only
      rw [hs hm, Bool.false_and, Bool.false_and]
    | M | H => rfl
  cases k with
  | fetch => rfl
  | load | store =>
    unfold keyDenies memType
    cases hd : P.dasics with
    | false => rfl
    | true =>
      have hb := hbits hd
      unfold memType at hb
      dsimp only
      rw [hb]
      rfl

theorem KeysOff.observed (h : KeysOff P s (s.typeMode (memType k))) (ho : Observed s t) :
    KeysOff P t (t.typeMode (memType k)) := by
  have hmode : t.typeMode (memType k) = s.typeMode (memType k) := ho.accessMode _
  unfold KeysOff
  rw [hmode, ho.csr .spkctl (by decide)]
  exact h

theorem forceRaisePf_unguided (h : Unguided s) : forceRaisePf P va type s = .ok () s := by
  unfold Unguided at h
  unfold forceRaisePf
  rw [get_bind, h]
  rfl

/-- The reference leaves the bits A and D to software, and the checks of the code are those of the
specification. -/
theorem walkEnd_share (hP : P.share = true) (hkey : KeysOff P s (s.typeMode (memType k)))
    (found : Option Sv39.Leaf)
    (hpage : ∀ l, found = some l → l.admits (s.sv39 P k) k = true → leafPage l va = l.page va) :
    walkEnd P k va found s =
      sv39End P k va ((found.filter fun l => l.admits (s.sv39 P k) k).map fun l => l.page va) s := by
  cases found with
  | none => rfl
  | some l =>
    unfold walkEnd leafFound
    dsimp only
    rw [hkey.denies, if_neg Bool.false_ne_true]
    cases hg : l.entry.grants (s.sv39 P k) k with
    | false => simp [Option.filter, Sv39.Leaf.admits, hg, sv39End]
    | true =>
      cases hw : l.entry.whole l.level with
      | false => simp [Option.filter, Sv39.Leaf.admits, hg, hw, sv39End]
      | true =>
        have hne : ¬ (true = false) := by decide
        have had : ptwUpdateAd P l.addr (pteOf l.entry) va (memType k) s = .ok () s := by
          unfold ptwUpdateAd
          rw [get_bind, hP]
          rfl
        have hadmit : l.admits (s.sv39 P k) k = true := Bool.and_eq_true_iff.mpr ⟨hg, hw⟩
        rw [if_neg hne, if_neg hne, bind_ok had, hpage l rfl hadmit]
        simp [Option.filter, hadmit, sv39End]

theorem Unguided.observed (h : Unguided s) (ho : Observed s t) : Unguided t := by
  unfold Unguided
  rw [ho.guidedExec, ho.guide]
  exact h

theorem ptw_sv39 (hP : P.share = true) (h : Translating s k)
    (hkey : KeysOff P s (s.typeMode (memType k))) (hlow : LowWalk P s k va) (hleaf : LowLeaf P s k va) :
    ptw P va (memType k) s =
      (Sv39.translate (readEntry P k va) (s.sv39 P k) k va >>= sv39End P k va) s := by
  rw [ptw_walk h hlow]
  unfold Sv39.translate
  simp only [bind_assoc, pure_bind]
  cases hw : Sv39.walk (readEntry P k va) (s.sv39 P k) va s with
  | error e t => rw [bind_error hw, bind_error hw]
  | ok found t =>
    have ho : Observed s t := (walk_effect _).ok hw
    have hpage : ∀ l, found = some l → l.admits (t.sv39 P k) k = true → leafPage l va = l.page va := by
      rintro l rfl hadmit
      rw [ho.sv39] at hadmit
      exact leafPage_eq (walk_level hw) (hleaf l t hw hadmit) va
    rw [bind_ok hw, bind_ok hw, walkEnd_share hP (hkey.observed ho) found hpage, ho.sv39]

theorem translate_end :
    (walkEffect P k va).Within (Sv39.translate (readEntry P k va) c k va) :=
  .bind (walk_effect c) fun _ => .ret _ _

theorem sv39End_ok (h : sv39End P k va found s = .ok x t) : t = s := by
  cases found with
  | none => cases h
  | some page =>
    cases h
    rfl

theorem Observed.intrTvalReg (h : Observed s t) (P : Platform) (ex : Exc) :
    intrTvalReg P t ex = intrTvalReg P s ex := by
  unfold Nemu.intrTvalReg intrDelegU intrDelegS
  rw [h.mode, h.csr .mideleg (by decide), h.csr .medeleg (by decide), h.csr .sideleg (by decide),
    h.csr .sedeleg (by decide)]

/-- In the reference a translation through low pages is that of the specification. A fault is the page
fault or the access fault of the access, and its address is reported. -/
theorem isaMmuTranslate_sv39 (hP : P.share = true) (h : Translating s k)
    (hkey : KeysOff P s (s.typeMode (memType k))) (hguide : Unguided s) (hlow : LowWalk P s k va)
    (hleaf : LowLeaf P s k va) :
    isaMmuTranslate P va (memType k) s =
        (Sv39.translate (readEntry P k va) (s.sv39 P k) k va >>= sv39End P k va) s ∧
      ∀ f t, isaMmuTranslate P va (memType k) s = .error (.exception f) t →
        (f.cause = pageFault s (memType k) ∨ f.cause = accessFault s k) ∧
          t.csr (intrTvalReg P s f.cause) = va := by
  have hptw : ptw P va (memType k) s =
      (Sv39.translate (readEntry P k va) (s.sv39 P k) k va >>= sv39End P k va) s :=
    ptw_sv39 hP h hkey hlow hleaf
  have hspec : isaMmuTranslate P va (memType k) s =
      (Sv39.translate (readEntry P k va) (s.sv39 P k) k va >>= sv39End P k va) s := by
    unfold isaMmuTranslate
    cases hr : ptw P va (memType k) s with
    | error e t => rw [bind_error hr, ← hptw, hr]
    | ok r t =>
      rw [← hptw, hr, bind_ok hr]
      obtain ⟨found, u, hfound, hend⟩ := ok_of_bind (hptw.symm.trans hr)
      cases sv39End_ok hend
      have hforce : forceRaisePf P va (memType k) t = .ok () t :=
        forceRaisePf_unguided (hguide.observed (translate_end.ok hfound))
      split
      · rw [bind_ok hforce]
        rfl
      · rfl
  refine ⟨hspec, fun f t hf => ?_⟩
  rw [hspec] at hf
  obtain hread | ⟨found, u, hfound, hend⟩ := error_of_bind hf
  · obtain hdev | ⟨u, hu, hacc⟩ := translate_end.error hread
    · cases hdev
    · unfold accessFaulted at hacc
      cases hacc
      have hcause : accessFault u k = accessFault s k := by
        unfold accessFault
        rw [hu.amo]
      refine ⟨.inr hcause, ?_⟩
      dsimp only
      rw [← hu.intrTvalReg, intrTvalReg_eq]
      exact Machine.setCsr_csr_self _ _ _
  · have hu : Observed s u := translate_end.ok hfound
    cases found with
    | some page => cases hend
    | none =>
      unfold sv39End pageFaulted at hend
      cases hend
      have hcause : pageFault u (memType k) = pageFault s (memType k) := by
        unfold pageFault
        rw [hu.amo]
      refine ⟨.inl hcause, ?_⟩
      dsimp only
      rw [← hu.intrTvalReg, intrTvalReg_eq]
      exact Machine.setCsr_csr_self _ _ _

/-- The reference without PMP checks, told to ignore accesses outside memory or not. -/
def walkPlatform (ignoring : Bool) : Platform :=
  Platform.bare { Config.reference with
    pmpCheck := false
    pmpCheck_dep := by decide
    ignoreIllegalMemAccess := ignoring
    ignoreIllegalMemAccess_dep := fun _ => rfl }

/-- Supervisor mode, with the root table at page `root`. -/
def supervisor (root : Word) (pmem : Word → BitVec 8) : Machine :=
  { (Machine.reset (walkPlatform false) pmem).setCsr .satp (8 <<< 60 ||| root) with
    mode := .S
    ifetchMmuState := .translate
    dataMmuState := .translate }

/-- A table that maps the gigapage at `0` to the start of memory. -/
def gigaTable (a : Word) : BitVec 8 :=
  if a = 0x80000000 then 0xcf else if a = 0x80000003 then 0x20 else 0

/-- A root table outside memory is read as zeros when that is to be ignored, and the load is a page
fault. A root table whose number has 33 bits is looked for where the lower 32 bits say, and found there
by a load that the specification lets fault. -/
theorem isaMmuTranslate_not_sv39 :
    (inPmem (walkPlatform true) ((walkPlatform true).paddr (Sv39.entryAddr 0 0 2)) = false ∧
      Unguided (supervisor 0 fun _ => 0) ∧ KeysOff (walkPlatform true) (supervisor 0 fun _ => 0) .S ∧
      ∃ t, isaMmuTranslate (walkPlatform true) 0 .read (supervisor 0 fun _ => 0) =
        .error (.exception ⟨.LPF, some 0, .plain⟩) t) ∧
    Unguided (supervisor 0x100080000 gigaTable) ∧
      KeysOff (walkPlatform false) (supervisor 0x100080000 gigaTable) .S ∧
      (∃ t, Sv39.translate (readEntry (walkPlatform false) .load 0x1234)
        ((supervisor 0x100080000 gigaTable).sv39 (walkPlatform false) .load) .load 0x1234
        (supervisor 0x100080000 gigaTable) = .error (.exception ⟨.LAF, some 0x1234, .plain⟩) t) ∧
      isaMmuTranslate (walkPlatform false) 0x1234 .read (supervisor 0x100080000 gigaTable) =
        .ok 0x80001000 (supervisor 0x100080000 gigaTable) :=
  ⟨⟨rfl, rfl, fun _ => ⟨fun _ => rfl, fun _ => rfl⟩, _, rfl⟩, rfl,
    fun _ => ⟨fun _ => rfl, fun _ => rfl⟩, ⟨_, rfl⟩, rfl⟩

theorem isaMmuTranslate_sv39_gigapage :
    isaMmuTranslate (walkPlatform false) 0x1234 .read (supervisor 0x80000 gigaTable) =
      .ok 0x80001000 (supervisor 0x80000 gigaTable) := by
  have h : Translating (supervisor 0x80000 gigaTable) .load := ⟨.inr rfl, fun hk => nomatch hk⟩
  have hkey : KeysOff (walkPlatform false) (supervisor 0x80000 gigaTable) .S :=
    fun _ => ⟨fun _ => rfl, fun _ => rfl⟩
  have hread : readEntry (walkPlatform false) .load 0x1234 (Sv39.entryAddr 0x80000 0x1234 2)
      (supervisor 0x80000 gigaTable) = .ok 0x200000cf (supervisor 0x80000 gigaTable) := rfl
  have hlow := lowWalk_of_leaf (by decide) hread rfl
  have hleaf : LowLeaf (walkPlatform false) (supervisor 0x80000 gigaTable) .load 0x1234 := by
    intro l u hw _
    have hwalk : Sv39.walk (readEntry (walkPlatform false) .load 0x1234)
        ((supervisor 0x80000 gigaTable).sv39 (walkPlatform false) .load) 0x1234
        (supervisor 0x80000 gigaTable) =
        .ok (some ⟨2, 0x80000000, ⟨0x200000cf⟩⟩) (supervisor 0x80000 gigaTable) := rfl
    cases hwalk.symm.trans hw
    decide
  obtain ⟨hspec, -⟩ := isaMmuTranslate_sv39 (P := walkPlatform false) rfl h hkey rfl hlow hleaf
  exact hspec.trans rfl

end Specification

end Nemu
