import Nemu.Alignment
import Nemu.CrossPage
import Nemu.Sv39Walk

namespace Nemu

open Effect

set_option autoImplicit true

/-- The loads and stores of the floating-point registers. -/
inductive FpAccess where
  | load (w : FpWidth)
  | store (w : FpWidth)
  deriving DecidableEq

namespace FpAccess

/-- `flw` and `flw_mmu`, and so on. -/
def id : FpAccess → MmuMode → ExecId
  | load w, m => .fload w m
  | store w, m => .fstore w m

def len : FpAccess → Nat
  | load w => fpLen w
  | store w => fpLen w

def type : FpAccess → MemType
  | load _ => .read
  | store _ => .write

end FpAccess

def Decode.fpAddr (d : Decode) (s : Machine) : Word := s.readLoc d.src1.preg + d.src2.imm

/-- Translation maps an address to itself; `t` is the state after the walk. -/
def MapsToItself (P : Platform) (s t : Machine) (va : Word) (type : MemType) : Prop :=
  isaMmuTranslate P va type s = .ok (va &&& ~~~pageMask) t

/-- The state in which the variant for `m` makes its access, at the address itself. -/
def Arrives (P : Platform) (m : MmuMode) (s t : Machine) (va : Word) (type : MemType) : Prop :=
  (m = .direct ∧ t = s) ∨ (m = .translate ∧ MapsToItself P s t va type)

/-- An access at `va` is one of memory. -/
structure InMemory (P : Platform) (t : Machine) (va : Word) (len : Nat) (type : MemType) :
    Prop where
  permitted : isaPmpCheckPermission P t (P.paddr va) len type t.mode = true
  inside : inPmem P (P.paddr va) = true

/-- A device gets the bytes of a value that a store of `len` bytes writes. -/
def StoresBytes (P : Platform) : Prop :=
  ∀ log a len v v', HostLength len → v.setWidth (8 * len) = v'.setWidth (8 * len) →
    P.mmioAccess log ⟨a, len, some v⟩ = P.mmioAccess log ⟨a, len, some v'⟩

/-- How an instruction ends, without the log of accesses to devices. -/
def withoutLog : EStateM.Result Stop Machine α → EStateM.Result Stop Machine α
  | .ok a t => .ok a { t with mmio := [] }
  | .error e t => .error e { t with mmio := [] }

/-- The upper half of a register that holds a single is set. -/
def NanBoxed (v : Word) : Prop := v &&& fboxMask = fboxMask

instance (v : Word) : Decidable (NanBoxed v) := inferInstanceAs (Decidable (_ = _))

/-- Unboxing leaves the low half of a register as it is. -/
def KeepsLow (v : Word) : Prop := NanBoxed v ∨ v.setWidth 32 = 0x7fc00000#32

instance (v : Word) : Decidable (KeepsLow v) := inferInstanceAs (Decidable (_ ∨ _))

/-- The value that a store takes from the register. -/
def storedValue (w : FpWidth) (m : MmuMode) (v : Word) : Word :=
  if w = .W32 ∧ m = .translate then funbox v else v

def loadedValue : FpWidth → Word → Word
  | .W32, v => v ||| fboxMask
  | .W64, v => v

variable {P : Platform} {s t u : Machine} {d : Decode} {w : FpWidth} {m : MmuMode} {va v : Word}
  {len : Nat} {type : MemType}

section Values

theorem setWidth_and_notMask (v : Word) : (v &&& ~~~fboxMask).setWidth 32 = v.setWidth 32 := by
  rw [BitVec.setWidth_and]
  have hmask : (~~~fboxMask).setWidth 32 = BitVec.allOnes 32 := by decide
  rw [hmask, BitVec.and_allOnes]

theorem setWidth_or_mask (v : Word) : (v ||| fboxMask).setWidth 32 = v.setWidth 32 := by
  rw [BitVec.setWidth_or]
  have hmask : fboxMask.setWidth 32 = 0#32 := by decide
  rw [hmask, BitVec.or_zero]

theorem funbox_low_iff (v : Word) : (funbox v).setWidth 32 = v.setWidth 32 ↔ KeepsLow v := by
  unfold funbox KeepsLow NanBoxed
  split
  · next h => exact iff_of_true (setWidth_and_notMask v) (.inl h)
  · next h =>
    constructor
    · intro hlow
      exact .inr hlow.symm
    · intro hlow
      exact (hlow.resolve_left h).symm

theorem nanBoxed_or_mask (v : Word) : NanBoxed (v ||| fboxMask) := by
  apply BitVec.eq_of_getLsbD_eq
  intro i hi
  rw [BitVec.getLsbD_and, BitVec.getLsbD_or]
  cases fboxMask.getLsbD i <;> simp

theorem storedValue_low (h : w = .W32 → m = .translate → KeepsLow v) :
    (storedValue w m v).setWidth (8 * fpLen w) = v.setWidth (8 * fpLen w) := by
  unfold storedValue
  split
  · next hw =>
    obtain ⟨rfl, hm⟩ := hw
    exact (funbox_low_iff v).mpr (h rfl hm)
  · rfl

theorem storedValue_loaded (v : Word) :
    (storedValue w m (loadedValue w v)).setWidth (8 * fpLen w) = v.setWidth (8 * fpLen w) := by
  cases w with
  | W32 =>
    have hlow := storedValue_low (w := .W32) (m := m) fun _ _ => .inl (nanBoxed_or_mask v)
    exact hlow.trans (setWidth_or_mask v)
  | W64 => exact storedValue_low (w := .W64) fun h => nomatch h

theorem writeLE_low (mem : Word → BitVec 8) (a : Word) {v v' : Word}
    (h : v.setWidth (8 * len) = v'.setWidth (8 * len)) :
    Bytes.writeLE mem a len v = Bytes.writeLE mem a len v' := by
  funext x
  unfold Bytes.writeLE
  split
  · next hx =>
    apply BitVec.eq_of_getLsbD_eq
    intro i hi
    have hbit := congrArg (fun b => b.getLsbD (8 * (x - a).toNat + i)) h
    have hlt : 8 * (x - a).toNat + i < 8 * len := by omega
    simp only [BitVec.getLsbD_setWidth, hlt, decide_true, Bool.true_and] at hbit
    rw [BitVec.getLsbD_extractLsb', BitVec.getLsbD_extractLsb', hbit]
  · rfl

end Values

section Runs

theorem hostLength_fp (w : FpWidth) : HostLength (fpLen w) := by
  cases w <;> decide

theorem fpLen_le (w : FpWidth) : 8 * fpLen w ≤ 64 := by
  cases w <;> decide

def floadTail (P : Platform) (d : Decode) (w : FpWidth) (v : Word) : Exec Unit := do
  writeReg d.dest.preg v
  let a ← readReg d.src1.preg
  recordMemEvent P true (a + d.src2.imm)
  let v ← readReg d.dest.preg
  rtlFsr P d.dest.preg v w

theorem exec_fload (d : Decode) (w : FpWidth) (m : MmuMode) (s : Machine) :
    exec P { d with id := .fload w m } s =
      (route P d.pc (d.fpAddr s) (fpLen w) .read (directRead P (d.fpAddr s) (fpLen w))
        (vaddrMmuRead P (d.fpAddr s) (fpLen w) .read) m >>= floadTail P d w) s :=
  exec_fload_route rfl

theorem exec_fstore (d : Decode) (w : FpWidth) (m : MmuMode) (s : Machine) :
    exec P { d with id := .fstore w m } s =
      (route P d.pc (d.fpAddr s) (fpLen w) .write
        (directWrite P (d.fpAddr s) (fpLen w) (storedValue w m (s.readLoc d.dest.preg)))
        (vaddrMmuWrite P (d.fpAddr s) (fpLen w) (storedValue w m (s.readLoc d.dest.preg))) m >>=
        fun _ => recordMemEvent P false (d.fpAddr s)) s := rfl

theorem page_or_offset (va : Word) : (va &&& ~~~pageMask) ||| (va &&& pageMask) = va := by
  rw [← BitVec.and_or_distrib_left, BitVec.or_comm, BitVec.or_not_self, BitVec.and_allOnes]

theorem page_and_mask (va : Word) : (va &&& ~~~pageMask) &&& pageMask = 0 := by
  rw [BitVec.and_assoc, BitVec.and_comm (~~~pageMask), BitVec.and_not_self]
  exact BitVec.and_zero

theorem MapsToItself.read (h : MapsToItself P s t va .read) :
    vaddrMmuRead P va len .read s = directRead P va len t := by
  rw [vaddrMmuRead_translated h (page_and_mask va), page_or_offset]
  rfl

theorem MapsToItself.write (h : MapsToItself P s t va .write) (data : Word) :
    vaddrMmuWrite P va len data s = directWrite P va len data t := by
  rw [vaddrMmuWrite_translated h (page_and_mask va), page_or_offset]
  rfl

theorem MapsToItself.erase (h : MapsToItself P s t va type) : t.eraseAccess = s.eraseAccess := by
  have hw : (accessEffect P fun _ => True).Within (isaMmuTranslate P va type) :=
    isaMmuTranslate_access fun _ _ => trivial
  exact hw.ok h

theorem checked_eraseAccess (pc : Word) :
    Checked P s.eraseAccess pc va len type ↔ Checked P s pc va len type := by
  constructor
  · rintro ⟨ha, hg⟩
    exact ⟨ha, hg⟩
  · rintro ⟨ha, hg⟩
    exact ⟨ha, hg⟩

variable {pc : Word} {direct mapped : Exec α}

theorem MapsToItself.checked (h : MapsToItself P s t va type) (hc : Checked P s pc va len type) :
    Checked P t pc va len type := by
  rw [← checked_eraseAccess, h.erase, checked_eraseAccess]
  exact hc

theorem MapsToItself.readLoc (h : MapsToItself P s t va type) (l : Loc) :
    t.readLoc l = s.readLoc l := by
  have hl : ∀ u : Machine, u.eraseAccess.readLoc l = u.readLoc l := by
    intro u
    cases l <;> rfl
  rw [← hl, h.erase, hl]

theorem route_direct (hc : Checked P s pc va len type) (ht : type = .read ∨ type = .write) :
    route P pc va len type direct mapped .direct s = direct s := by
  unfold route
  rw [bind_ok (hc.run ht)]
  rfl

theorem route_translate (hc : Checked P s pc va len type) (ht : type = .read ∨ type = .write) :
    route P pc va len type direct mapped .translate s = mapped s := by
  unfold route
  rw [bind_ok (hc.run ht)]
  rfl

theorem bind_eq_of_eq {x y : Exec α} {k : α → Exec β} (h : x s = y t) :
    (x >>= k) s = (y >>= k) t := by
  change EStateM.bind x k s = EStateM.bind y k t
  unfold EStateM.bind
  rw [h]

theorem exec_fload_arrives (hc : Checked P s d.pc (d.fpAddr s) (fpLen w) .read)
    (ha : Arrives P m s t (d.fpAddr s) .read) :
    exec P { d with id := .fload w m } s =
      (directRead P (d.fpAddr s) (fpLen w) >>= floadTail P d w) t := by
  rw [exec_fload]
  apply bind_eq_of_eq
  obtain ⟨rfl, rfl⟩ | ⟨rfl, hmap⟩ := ha
  · exact route_direct hc (.inl rfl)
  · exact (route_translate hc (.inl rfl)).trans hmap.read

theorem exec_fstore_arrives (hc : Checked P s d.pc (d.fpAddr s) (fpLen w) .write)
    (ha : Arrives P m s t (d.fpAddr s) .write) :
    exec P { d with id := .fstore w m } s =
      (directWrite P (d.fpAddr s) (fpLen w) (storedValue w m (s.readLoc d.dest.preg)) >>= fun _ =>
        recordMemEvent P false (d.fpAddr s)) t := by
  rw [exec_fstore]
  apply bind_eq_of_eq
  obtain ⟨rfl, rfl⟩ | ⟨rfl, hmap⟩ := ha
  · exact route_direct hc (.inr rfl)
  · exact (route_translate hc (.inr rfl)).trans (hmap.write _)

theorem directRead_inMemory (hlen : HostLength len) (h : InMemory P t va len .read) :
    directRead P va len t = .ok (Bytes.readLE 64 t.pmem (P.paddr va) len) t :=
  (paddrRead_fate hlen va va t).of_memory h.permitted h.inside

theorem directWrite_inMemory (hlen : HostLength len) (h : InMemory P t va len .write)
    (data : Word) : directWrite P va len data t =
      .ok () { t with pmem := Bytes.writeLE t.pmem (P.paddr va) len data } :=
  (paddrWrite_fate hlen va va t).of_memory h.permitted h.inside

/-- The state after a store to memory, but for the record of the access. -/
theorem exec_fstore_inMemory (hc : Checked P s d.pc (d.fpAddr s) (fpLen w) .write)
    (ha : Arrives P m s t (d.fpAddr s) .write)
    (hin : InMemory P t (d.fpAddr s) (fpLen w) .write) :
    ∃ u, exec P { d with id := .fstore w m } s = .ok () u ∧
      u.pmem = Bytes.writeLE t.pmem (P.paddr (d.fpAddr s)) (fpLen w)
        (storedValue w m (s.readLoc d.dest.preg)) := by
  have hrun := exec_fstore_arrives hc ha
  rw [bind_ok (directWrite_inMemory (hostLength_fp w) hin _)] at hrun
  refine ⟨_, hrun, ?_⟩
  split <;> rfl

theorem recordMemEvent_ok (b : Bool) (a : Word) (s : Machine) :
    ∃ e, recordMemEvent P b a s = .ok () { s with memEvent := e } := by
  cases hq : P.queryRef with
  | true => exact ⟨⟨s.currentPc, true, b, a⟩, by simp [recordMemEvent, hq]; rfl⟩
  | false => exact ⟨s.memEvent, by simp [recordMemEvent, hq]; rfl⟩

theorem floadTail_run (hr : d.dest.preg = .fpr r) (x : Word) (s : Machine) :
    ∃ u, floadTail P d w x s = .ok () u ∧ u.pmem = s.pmem ∧ u.gpr = s.gpr ∧
      u.fpr r = loadedValue w x := by
  obtain ⟨e, he⟩ := recordMemEvent_ok (P := P) true
    ((s.writeLoc (.fpr r) x).readLoc d.src1.preg + d.src2.imm) (s.writeLoc (.fpr r) x)
  unfold floadTail
  rw [hr]
  have hread : (readReg (.fpr r) : Exec Word) { s.writeLoc (.fpr r) x with memEvent := e } =
      .ok x { s.writeLoc (.fpr r) x with memEvent := e } := by
    have hself : (s.writeLoc (.fpr r) x).fpr r = x := by simp [Machine.writeLoc]
    exact congrArg (EStateM.Result.ok · _) hself
  rw [bind_ok (rfl : writeReg (.fpr r) x s = .ok () (s.writeLoc (.fpr r) x)),
    bind_ok (rfl : readReg d.src1.preg (s.writeLoc (.fpr r) x) = .ok _ _), bind_ok he,
    bind_ok hread]
  refine ⟨_, rfl, rfl, rfl, ?_⟩
  cases w with
  | W32 => exact Function.update_self r _ _
  | W64 => exact Function.update_self r _ _

theorem exec_fload_inMemory (hr : d.dest.preg = .fpr r)
    (hc : Checked P s d.pc (d.fpAddr s) (fpLen w) .read)
    (ha : Arrives P m s t (d.fpAddr s) .read)
    (hin : InMemory P t (d.fpAddr s) (fpLen w) .read) :
    ∃ u, exec P { d with id := .fload w m } s = .ok () u ∧ u.pmem = t.pmem ∧ u.gpr = t.gpr ∧
      u.fpr r = loadedValue w (Bytes.readLE 64 t.pmem (P.paddr (d.fpAddr s)) (fpLen w)) := by
  have hrun := exec_fload_arrives hc ha
  rw [bind_ok (directRead_inMemory (hostLength_fp w) hin)] at hrun
  obtain ⟨u, hu, hmem, hgpr, hreg⟩ := floadTail_run (P := P) (w := w) hr _ t
  exact ⟨u, hrun.trans hu, hmem, hgpr, hreg⟩

end Runs

section Pairs

theorem withoutLog_bind_record {x y : Exec Unit} (b : Bool) (a : Word)
    (h : withoutLog (x s) = withoutLog (y s)) :
    withoutLog ((x >>= fun _ => recordMemEvent P b a) s) =
      withoutLog ((y >>= fun _ => recordMemEvent P b a) s) := by
  have hrecord : ∀ t : Machine, withoutLog (recordMemEvent P b a t) =
      withoutLog (recordMemEvent P b a { t with mmio := [] }) := by
    intro t
    unfold recordMemEvent
    cases P.queryRef <;> rfl
  cases hx : x s with
  | ok _ t =>
    cases hy : y s with
    | ok _ t' =>
      rw [hx, hy] at h
      rw [bind_ok hx, bind_ok hy]
      rw [hrecord t, (EStateM.Result.ok.inj h).2, ← hrecord t']
    | error e t' =>
      rw [hx, hy] at h
      cases h
  | error e t =>
    cases hy : y s with
    | ok _ t' =>
      rw [hx, hy] at h
      cases h
    | error e' t' =>
      rw [hx, hy] at h
      rw [bind_error hx, bind_error hy]
      exact h

/-- Stores of values with the same low bytes differ in the log of accesses to devices only. -/
theorem directWrite_low (hdev : StoresBytes P) (hlen : HostLength len) {v v' : Word}
    (h : v.setWidth (8 * len) = v'.setWidth (8 * len)) :
    withoutLog (directWrite P va len v s) = withoutLog (directWrite P va len v' s) := by
  unfold directWrite paddrWrite
  rw [get_bind, get_bind]
  simp only [get_bind]
  split
  · rfl
  split
  · unfold pmemWrite
    rw [bind_ok (assert_pos _ hlen _ s), bind_ok (assert_pos _ hlen _ s)]
    exact congrArg (fun mem => EStateM.Result.ok () { s with pmem := mem, mmio := [] })
      (writeLE_low s.pmem _ h)
  split
  · unfold mmioWrite
    rw [get_bind, get_bind, hdev s.mmio _ len v v' hlen h]
    cases hr : P.mmioAccess s.mmio ⟨P.paddr va, len, some v'⟩ with
    | none => rfl
    | some r =>
      obtain ⟨data, b, dma⟩ := r
      cases b with
      | none => rfl
      | some b => rfl
  split
  · rfl
  · rfl

/-- The two variants of an access. If the checks let it through, the one of the direct variant
begins after the walk, whose only effects are those on the page table. -/
structure PairAgrees (P : Platform) (d : Decode) (a : FpAccess) (s t : Machine) : Prop where
  checked : Checked P s d.pc (d.fpAddr s) a.len a.type →
    withoutLog (exec P { d with id := a.id .translate } s) =
      withoutLog (exec P { d with id := a.id .direct } t)
  refused : ¬ Checked P s d.pc (d.fpAddr s) a.len a.type →
    exec P { d with id := a.id .translate } s = exec P { d with id := a.id .direct } s

/-- An access that the checks stop ends before its `mmu_mode` is looked at. -/
theorem refused_agrees (a : FpAccess) (h : ¬ Checked P s d.pc (d.fpAddr s) a.len a.type) :
    exec P { d with id := a.id .translate } s = exec P { d with id := a.id .direct } s := by
  cases a with
  | load w =>
    change exec P { d with id := .fload w .translate } s = exec P { d with id := .fload w .direct } s
    rw [exec_fload, exec_fload]
    apply bind_eq_of_eq
    cases hv : vaddrCheck P (some d.pc) (d.fpAddr s) (fpLen w) .read s with
    | ok _ t => exact absurd (Checked.of_run hv (.inl rfl)) h
    | error e t => exact (bind_error hv).trans (bind_error hv).symm
  | store w =>
    change exec P { d with id := .fstore w .translate } s =
      exec P { d with id := .fstore w .direct } s
    rw [exec_fstore, exec_fstore]
    apply bind_eq_of_eq
    cases hv : vaddrCheck P (some d.pc) (d.fpAddr s) (fpLen w) .write s with
    | ok _ t => exact absurd (Checked.of_run hv (.inr rfl)) h
    | error e t => exact (bind_error hv).trans (bind_error hv).symm

theorem MapsToItself.fpAddr (h : MapsToItself P s t va type) (d : Decode) :
    d.fpAddr t = d.fpAddr s := by
  unfold Decode.fpAddr
  rw [h.readLoc]

theorem pairAgrees_of (hdev : StoresBytes P) (a : FpAccess)
    (hmap : MapsToItself P s t (d.fpAddr s) a.type)
    (h : a = .store .W32 → KeepsLow (s.readLoc d.dest.preg)) : PairAgrees P d a s t where
  refused := refused_agrees a
  checked hc := by
    have haddr : d.fpAddr t = d.fpAddr s := hmap.fpAddr d
    have hct : Checked P t d.pc (d.fpAddr t) a.len a.type := haddr ▸ hmap.checked hc
    cases a with
    | load w =>
      have hmmu := exec_fload_arrives hc (.inr ⟨rfl, hmap⟩)
      have hdirect := exec_fload_arrives (P := P) (m := .direct) hct (.inl ⟨rfl, rfl⟩)
      rw [haddr] at hdirect
      exact congrArg withoutLog (hmmu.trans hdirect.symm)
    | store w =>
      have hmmu := exec_fstore_arrives hc (.inr ⟨rfl, hmap⟩)
      have hdirect := exec_fstore_arrives (P := P) (m := .direct) hct (.inl ⟨rfl, rfl⟩)
      have hlow : (storedValue w .translate (s.readLoc d.dest.preg)).setWidth (8 * fpLen w) =
          (storedValue w .direct (t.readLoc d.dest.preg)).setWidth (8 * fpLen w) := by
        rw [storedValue_low fun hw _ => h (congrArg _ hw), hmap.readLoc,
          storedValue_low (m := .direct) fun _ hm => nomatch hm]
      rw [haddr] at hdirect
      have hstore : withoutLog (directWrite P (d.fpAddr s) (fpLen w) _ t) =
          withoutLog (directWrite P (d.fpAddr s) (fpLen w) _ t) :=
        directWrite_low hdev (hostLength_fp w) hlow
      have hmem := withoutLog_bind_record (P := P) (s := t) false (d.fpAddr s) hstore
      exact (congrArg withoutLog hmmu).trans (hmem.trans (congrArg withoutLog hdirect.symm))

theorem setWidth_of_bytes {x y : Word}
    (h : ∀ i < len, x.extractLsb' (8 * i) 8 = y.extractLsb' (8 * i) 8) :
    x.setWidth (8 * len) = y.setWidth (8 * len) := by
  apply BitVec.eq_of_getLsbD_eq
  intro j hj
  have hbyte := congrArg (fun b => b.getLsbD (j % 8)) (h (j / 8) (by omega))
  have hsplit : 8 * (j / 8) + j % 8 = j := Nat.div_add_mod j 8
  simp only [BitVec.getLsbD_extractLsb', hsplit, Nat.mod_lt j (by decide : 8 > 0), decide_true,
    Bool.true_and] at hbyte
  rw [BitVec.getLsbD_setWidth, BitVec.getLsbD_setWidth, hbyte]

theorem extract_of_setWidth {x y : Word} (h : x.setWidth (8 * len) = y.setWidth (8 * len))
    (hi : i < len) : x.extractLsb' (8 * i) 8 = y.extractLsb' (8 * i) 8 := by
  have hlow : ∀ z : Word, (z.setWidth (8 * len)).extractLsb' (8 * i) 8 = z.extractLsb' (8 * i) 8 :=
    fun z => BitVec.extractLsb'_setWidth_of_le (by omega)
  rw [← hlow x, h, hlow y]

/-- A store to memory leaves the low bytes of the register exactly if the value stored has them. -/
theorem fstore_bytes_iff (hc : Checked P s d.pc (d.fpAddr s) (fpLen w) .write)
    (ha : Arrives P m s t (d.fpAddr s) .write)
    (hin : InMemory P t (d.fpAddr s) (fpLen w) .write) :
    (∃ u, exec P { d with id := .fstore w m } s = .ok () u ∧ ∀ i < fpLen w,
      u.pmem (P.paddr (d.fpAddr s) + BitVec.ofNat 64 i) =
        (s.readLoc d.dest.preg).extractLsb' (8 * i) 8) ↔
      (w = .W32 → m = .translate → KeepsLow (s.readLoc d.dest.preg)) := by
  obtain ⟨u, hu, hmem⟩ := exec_fstore_inMemory hc ha hin
  have hlen : fpLen w ≤ 2 ^ 64 := by cases w <;> decide
  have hbyte : ∀ i < fpLen w, u.pmem (P.paddr (d.fpAddr s) + BitVec.ofNat 64 i) =
      (storedValue w m (s.readLoc d.dest.preg)).extractLsb' (8 * i) 8 := by
    intro i hi
    rw [hmem]
    exact Bytes.writeLE_at _ _ _ hi hlen
  constructor
  · rintro ⟨u', hu', hlow⟩ rfl rfl
    obtain rfl : u = u' := (EStateM.Result.ok.inj (hu.symm.trans hu')).2
    have hsame : (funbox (s.readLoc d.dest.preg)).setWidth (8 * 4) =
        (s.readLoc d.dest.preg).setWidth (8 * 4) :=
      setWidth_of_bytes fun i hi => (hbyte i hi).symm.trans (hlow i hi)
    exact (funbox_low_iff _).mp hsame
  · intro h
    refine ⟨u, hu, fun i hi => ?_⟩
    rw [hbyte i hi]
    exact extract_of_setWidth (storedValue_low h) hi

theorem withoutLog_pmem (h : withoutLog (.ok a s) = withoutLog (.ok b t)) : s.pmem = t.pmem := by
  have hmem := congrArg Machine.pmem (EStateM.Result.ok.inj h).2
  exact hmem

theorem keepsLow_of_agrees (hmap : MapsToItself P s t (d.fpAddr s) .write)
    (hc : Checked P s d.pc (d.fpAddr s) 4 .write) (hin : InMemory P t (d.fpAddr s) 4 .write)
    (h : PairAgrees P d (.store .W32) s t) : KeepsLow (s.readLoc d.dest.preg) := by
  have haddr : d.fpAddr t = d.fpAddr s := hmap.fpAddr d
  have hct : Checked P t d.pc (d.fpAddr t) 4 .write := haddr ▸ hmap.checked hc
  have hint : InMemory P t (d.fpAddr t) 4 .write := haddr ▸ hin
  obtain ⟨u, hu, hlow⟩ := (fstore_bytes_iff (w := .W32) (m := .direct) hct (.inl ⟨rfl, rfl⟩) hint).mpr
    fun _ hm => nomatch hm
  have hmmu := (fstore_bytes_iff (w := .W32) (m := .translate) hc (.inr ⟨rfl, hmap⟩) hin).mp
  obtain ⟨v, hv, -⟩ := exec_fstore_inMemory (w := .W32) hc (.inr ⟨rfl, hmap⟩) hin
  have hagree : withoutLog (.ok () v) = withoutLog (.ok () u) := by
    rw [← hv, ← hu]
    exact h.checked hc
  refine hmmu ⟨v, hv, fun i hi => ?_⟩ rfl rfl
  rw [withoutLog_pmem hagree, ← haddr, hlow i hi, hmap.readLoc]

/-- A load and a store of the same width through one register copy the bytes. -/
theorem fp_copy {dl ds : Decode} {m₁ m₂ : MmuMode} (hl : dl.dest.preg = .fpr r)
    (hs : ds.dest.preg = .fpr r) (hc : Checked P s dl.pc (dl.fpAddr s) (fpLen w) .read)
    (ha : Arrives P m₁ s t (dl.fpAddr s) .read)
    (hin : InMemory P t (dl.fpAddr s) (fpLen w) .read) :
    ∃ u, exec P { dl with id := .fload w m₁ } s = .ok () u ∧
      ∀ t', Checked P u ds.pc (ds.fpAddr u) (fpLen w) .write →
        Arrives P m₂ u t' (ds.fpAddr u) .write → InMemory P t' (ds.fpAddr u) (fpLen w) .write →
        ∃ u', exec P { ds with id := .fstore w m₂ } u = .ok () u' ∧ ∀ i < fpLen w,
          u'.pmem (P.paddr (ds.fpAddr u) + BitVec.ofNat 64 i) =
            t.pmem (P.paddr (dl.fpAddr s) + BitVec.ofNat 64 i) := by
  obtain ⟨u, hu, hmem, -, hreg⟩ := exec_fload_inMemory hl hc ha hin
  refine ⟨u, hu, fun t' hc' ha' hin' => ?_⟩
  obtain ⟨u', hu', hmem'⟩ := exec_fstore_inMemory hc' ha' hin'
  refine ⟨u', hu', fun i hi => ?_⟩
  have hlen : fpLen w ≤ 2 ^ 64 := by cases w <;> decide
  have hval : u.readLoc ds.dest.preg =
      loadedValue w (Bytes.readLE 64 t.pmem (P.paddr (dl.fpAddr s)) (fpLen w)) := by
    rw [hs]
    exact hreg
  rw [hmem', Bytes.writeLE_at _ _ _ hi hlen, hval, extract_of_setWidth (storedValue_loaded _) hi]
  exact Bytes.extract_readLE _ _ _ _ hi (fpLen_le w)

/-- The pairs `flw`, `fsw`, `fld` and `fsd` with their variants for translation. -/
structure FpPairs (P : Platform) : Prop where
  /-- A pair agrees, but for `fsw` with a register whose low half unboxing changes. -/
  agree : ∀ (d : Decode) (a : FpAccess) (s t : Machine), MapsToItself P s t (d.fpAddr s) a.type →
    (a = .store .W32 → KeepsLow (s.readLoc d.dest.preg)) → PairAgrees P d a s t
  /-- The exception is one in every access of memory. -/
  agree_iff : ∀ (d : Decode) (a : FpAccess) (s t : Machine),
    MapsToItself P s t (d.fpAddr s) a.type →
    Checked P s d.pc (d.fpAddr s) a.len a.type → InMemory P t (d.fpAddr s) a.len a.type →
    (PairAgrees P d a s t ↔ (a = .store .W32 → KeepsLow (s.readLoc d.dest.preg)))
  /-- What a store leaves in memory. -/
  low_iff : ∀ (w : FpWidth) (m : MmuMode) (d : Decode) (s t : Machine),
    Arrives P m s t (d.fpAddr s) .write →
    Checked P s d.pc (d.fpAddr s) (fpLen w) .write →
    InMemory P t (d.fpAddr s) (fpLen w) .write →
    ((∃ u, exec P { d with id := .fstore w m } s = .ok () u ∧ ∀ i < fpLen w,
      u.pmem (P.paddr (d.fpAddr s) + BitVec.ofNat 64 i) =
        (s.readLoc d.dest.preg).extractLsb' (8 * i) 8) ↔
      (w = .W32 → m = .translate → KeepsLow (s.readLoc d.dest.preg)))
  /-- A load and a store of the same width. -/
  copy : ∀ (w : FpWidth) (m₁ m₂ : MmuMode) (r : BitVec 5) (dl ds : Decode) (s t : Machine),
    dl.dest.preg = .fpr r → ds.dest.preg = .fpr r →
    Checked P s dl.pc (dl.fpAddr s) (fpLen w) .read → Arrives P m₁ s t (dl.fpAddr s) .read →
    InMemory P t (dl.fpAddr s) (fpLen w) .read →
    ∃ u, exec P { dl with id := .fload w m₁ } s = .ok () u ∧
      ∀ t', Checked P u ds.pc (ds.fpAddr u) (fpLen w) .write →
        Arrives P m₂ u t' (ds.fpAddr u) .write → InMemory P t' (ds.fpAddr u) (fpLen w) .write →
        ∃ u', exec P { ds with id := .fstore w m₂ } u = .ok () u' ∧ ∀ i < fpLen w,
          u'.pmem (P.paddr (ds.fpAddr u) + BitVec.ofNat 64 i) =
            t.pmem (P.paddr (dl.fpAddr s) + BitVec.ofNat 64 i)

theorem fpPairs (hdev : StoresBytes P) : FpPairs P where
  agree _ a _ _ hmap h := pairAgrees_of hdev a hmap h
  agree_iff d a s t hmap hc hin := by
    constructor
    · rintro h rfl
      exact keepsLow_of_agrees hmap hc hin h
    · intro h
      exact pairAgrees_of hdev a hmap h
  low_iff _ _ _ _ _ ha hc hin := fstore_bytes_iff hc ha hin
  copy _ _ _ _ _ _ _ _ hl hs hc ha hin := fp_copy hl hs hc ha hin

/-- A table that maps the gigabyte with memory to itself. -/
def identityTable (a : Word) : BitVec 8 :=
  if a = 0x80000010 then 0xcf else if a = 0x80000013 then 0x20 else 0

/-- `fsw f1, 0(x5)` finds `v` in `f1`. -/
def fswState (v : Word) : Machine :=
  { supervisor 0x80000 identityTable with
    gpr := fun r => if r = 5 then 0x80001000 else 0
    fpr := fun r => if r = 1 then v else 0 }

def fswDecode : Decode :=
  decodeFstore ⟨0x80000100, 0x80000104, 0x0012a027, .translate, true⟩ (.fstore .W32 .translate)

theorem fswDecode_addr (v : Word) : fswDecode.fpAddr (fswState v) = 0x80001000 := by
  have hbase : (fswState v).readLoc fswDecode.src1.preg = 0x80001000 := by
    have hreg : fswDecode.src1.preg = .gpr 5 := by decide
    rw [hreg]
    rfl
  have himm : fswDecode.src2.imm = 0 := by decide
  unfold Decode.fpAddr
  rw [hbase, himm]
  rfl

theorem fswDecode_data (v : Word) : (fswState v).readLoc fswDecode.dest.preg = v := by
  have hreg : fswDecode.dest.preg = .fpr 1 := by decide
  rw [hreg]
  rfl

theorem fswState_maps (v : Word)
    (hptw : ptw (walkPlatform false) 0x80001000 .write (fswState v) = .ok 0x80001000 (fswState v)) :
    MapsToItself (walkPlatform false) (fswState v) (fswState v) (fswDecode.fpAddr (fswState v))
      .write := by
  rw [fswDecode_addr]
  unfold MapsToItself isaMmuTranslate
  rw [bind_ok hptw]
  rfl

theorem fswState_boxed_maps : MapsToItself (walkPlatform false) (fswState 0xffffffff00000001)
    (fswState 0xffffffff00000001) (fswDecode.fpAddr (fswState 0xffffffff00000001)) .write :=
  fswState_maps _ rfl

theorem fswState_unboxed_maps : MapsToItself (walkPlatform false) (fswState 1) (fswState 1)
    (fswDecode.fpAddr (fswState 1)) .write :=
  fswState_maps _ rfl

/-- The boxed value 1 is stored alike. -/
theorem fpPairs_boxed : PairAgrees (walkPlatform false) fswDecode (.store .W32)
    (fswState 0xffffffff00000001) (fswState 0xffffffff00000001) := by
  have hdev : StoresBytes (walkPlatform false) := fun _ _ _ _ _ _ _ => rfl
  have hlow : KeepsLow 0xffffffff00000001 := by decide
  apply (fpPairs hdev).agree fswDecode (.store .W32) _ _ fswState_boxed_maps
  intro _
  rw [fswDecode_data]
  exact hlow

/-- `fsw_mmu` stores the canonical NaN in place of a 1 that is not boxed. -/
theorem fsw_mmu_unboxed : MapsToItself (walkPlatform false) (fswState 1) (fswState 1)
      (fswDecode.fpAddr (fswState 1)) .write ∧
    ¬ PairAgrees (walkPlatform false) fswDecode (.store .W32) (fswState 1) (fswState 1) := by
  have haligned : ¬ Misaligned (walkPlatform false) 0x80001000 4 := by decide
  have htrusted : dasicsInTrustedZone (fswState 1) fswDecode.pc = true := rfl
  have hc : Checked (walkPlatform false) (fswState 1) fswDecode.pc
      (fswDecode.fpAddr (fswState 1)) 4 .write := by
    rw [fswDecode_addr]
    exact ⟨haligned, fun _ h => nomatch h.symm.trans htrusted⟩
  have hin : InMemory (walkPlatform false) (fswState 1) (fswDecode.fpAddr (fswState 1)) 4 .write := by
    rw [fswDecode_addr]
    exact ⟨rfl, rfl⟩
  refine ⟨fswState_unboxed_maps, fun h => ?_⟩
  have hlow := keepsLow_of_agrees fswState_unboxed_maps hc hin h
  rw [fswDecode_data] at hlow
  exact absurd hlow (by decide)

end Pairs

end Nemu
