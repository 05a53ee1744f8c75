import Nemu.AccessEffect
import Nemu.CsrWrites
import Nemu.Reset
import Nemu.Translation

namespace Nemu

open Effect

set_option autoImplicit true

/-- The A bit of the entry at `a` has been set in memory, with the D bit for a write. -/
structure SetsAd (mem mem' : Word → BitVec 8) (a : Word) (type : MemType) : Prop where
  entry : Bytes.readLE 64 mem' a 8 =
    Bytes.readLE 64 mem a 8 ||| 0x40 ||| (if type = .write then 0x80 else 0)
  rest : ∀ x, (∀ i < 8, x ≠ a + BitVec.ofNat 64 i) → mem' x = mem x

/-- What a walk that has ended well with the leaf at `pPte` has done to memory. -/
inductive Updates (P : Platform) (mem mem' : Word → BitVec 8) (pPte : Word) (type : MemType) :
    Prop where
  | entry : inPmem P (P.paddr pPte) = true → SetsAd mem mem' (P.paddr pPte) type →
      Updates P mem mem' pPte type
  | device : inPmem P (P.paddr pPte) = false → mem' = mem → Updates P mem mem' pPte type

/-- No device moves data to memory when it is written eight bytes at once: the only one that moves
data at all, the disk, does so on four bytes of its command register. -/
def NoWideDma (P : Platform) : Prop :=
  ∀ log a v r, P.mmioAccess log ⟨a, 8, some v⟩ = some r → ∀ mem, r.dma mem = mem

variable {P : Platform} {s t : Machine} {va pa : Word} {type : MemType} {pte pte' : Pte}

section Failure

theorem update_pmem {g : Machine → Machine} (h : ∀ s, (g s).pmem = s.pmem) :
    (keep Stop Machine.pmem).Within (modify g : Exec PUnit) := .update h

theorem faultAt_pmem (ex : Exc) : (keep Stop Machine.pmem).Within (faultAt P ex va : Exec α) :=
  fun s => .of_error (faultAt_run P ex va s) rfl

theorem raiseAccessFault_pmem (ex : Exc) :
    (keep Stop Machine.pmem).Within (raiseAccessFault P ex va : Exec α) :=
  .bind (update_pmem fun _ => rfl) fun _ => faultAt_pmem ex

theorem raiseReadAccessFault_pmem :
    (keep Stop Machine.pmem).Within (raiseReadAccessFault P type va : Exec α) := by
  refine .bind (.read _) fun s => ?_
  split
  · exact raiseAccessFault_pmem _
  split
  · exact raiseAccessFault_pmem _
  · exact raiseAccessFault_pmem _

theorem paddrRead_keeps : (keep Stop Machine.pmem).Within (paddrRead P pa len type mode va) := by
  refine .bind (.read _) fun s => ?_
  split
  · exact raiseReadAccessFault_pmem
  split
  · exact .bind (assert_keep _) fun _ => .bind (.read _) fun _ => .ret _ _
  split
  · refine .bind (.read _) fun s => ?_
    cases P.mmioAccess s.mmio ⟨P.paddr pa, len, none⟩ with
    | none => exact fun _ => rfl
    | some r => exact .bind (update_pmem fun _ => pmem_setMtip _ _) fun _ => .ret _ _
  split
  · exact .ret _ _
  · exact raiseReadAccessFault_pmem

theorem dasicsFault_pmem (ex : Exc) :
    (keep Stop Machine.pmem).Within (dasicsFault P ex reason va : Exec α) :=
  .bind (update_pmem fun _ => rfl) fun _ => faultAt_pmem ex

theorem checkPermission_keeps :
    (keep Stop Machine.pmem).Within (checkPermission P pte b va type) := by
  refine .bind (.read _) fun s => ?_
  dsimp only
  refine .bind (assert_keep _) fun _ => ?_
  cases type with
  | ifetch =>
    dsimp only
    split
    · exact .bind (assert_keep _) fun _ => faultAt_pmem _
    · exact .ret _ _
  | read | write | ifetchRead | writeRead =>
    dsimp only
    split
    · exact raiseAccessFault_pmem _
    split
    · exact dasicsFault_pmem _
    · exact .ret _ _

theorem ptwWalk_keeps : (keep Stop Machine.pmem).Within (ptwWalk P va type) :=
  ptwWalk_within fun _ => paddrRead_keeps

/-- `paddr_write` checks before it writes. -/
theorem paddrWrite_error (h : paddrWrite P pa len data mode va s = .error e t) :
    t.pmem = s.pmem := by
  obtain hget | ⟨_, _, hget, h1⟩ := error_of_bind h
  · cases hget
  cases hget
  split at h1
  · exact (raiseAccessFault_pmem .SAF).error h1
  split at h1
  · obtain ha | ⟨_, _, -, hw⟩ := error_of_bind h1
    · exact Within.error (F := keep Stop Machine.pmem) (assert_keep _) ha
    · cases hw
  split at h1
  · obtain hget | ⟨_, _, hget, h2⟩ := error_of_bind h1
    · cases hget
    cases hget
    cases hr : P.mmioAccess s.mmio ⟨P.paddr pa, len, some data⟩ with
    | none =>
      rw [hr] at h2
      cases h2
      rfl
    | some r =>
      rw [hr] at h2
      cases h2
  split at h1
  · cases h1
  · exact (raiseAccessFault_pmem .SAF).error h1

theorem ptw_error_pmem (h : ptw P va type s = .error e t) : t.pmem = s.pmem := by
  obtain hwalk | ⟨walk, u, hwalk, h1⟩ := error_of_bind h
  · exact ptwWalk_keeps.error hwalk
  have hu : u.pmem = s.pmem := ptwWalk_keeps.ok hwalk
  rw [← hu]
  have hbad : ∀ pte, (keep Stop Machine.pmem).Within (do
      checkPermission P pte false va type
      pure memRetFail : Exec Word) := fun pte => .bind checkPermission_keeps fun _ => .ret _ _
  cases walk with
  | bad pte => exact (hbad pte).error h1
  | leaf level pPte pte =>
    obtain hc | ⟨_, _, hc, h2⟩ := error_of_bind h1
    · exact checkPermission_keeps.error hc
    obtain ⟨rfl, -⟩ := checkPermission_ok hc
    split at h2
    · exact (hbad pte).error h2
    obtain hup | ⟨_, _, -, hret⟩ := error_of_bind h2
    · obtain hget | ⟨_, _, hget, h3⟩ := error_of_bind hup
      · cases hget
      cases hget
      split at h3
      · exact paddrWrite_error h3
      · cases h3
    · cases hret

end Failure

section Success

theorem or_of_bit {x : Word} {n : Nat} (h : x.getLsbD n = true) :
    x ||| BitVec.twoPow 64 n = x := by
  apply BitVec.eq_of_getLsbD_eq
  intro i hi
  rw [BitVec.getLsbD_or, BitVec.getLsbD_twoPow]
  by_cases hin : n = i
  · subst hin
    rw [h, Bool.true_or]
  · simp [hin]

theorem adBits_absorbed (h : needsMark pte type = false) :
    pte.val ||| (adBits type).setWidth 64 = pte.val := by
  obtain ⟨ha, hd⟩ := Bool.or_eq_false_iff.mp h
  have h40 : (0x40 : BitVec 8).setWidth 64 = BitVec.twoPow 64 6 := by decide
  have hc0 : (0xc0 : BitVec 8).setWidth 64 = BitVec.twoPow 64 6 ||| BitVec.twoPow 64 7 := by decide
  have ha' : pte.val.getLsbD 6 = true := by
    rw [Bool.not_eq_false'] at ha
    exact ha
  unfold adBits
  by_cases hw : type = .write
  · have hd' : pte.val.getLsbD 7 = true := by
      rw [hw, decide_eq_true rfl, Bool.and_true, Bool.not_eq_false'] at hd
      exact hd
    rw [if_pos hw, hc0, ← BitVec.or_assoc, or_of_bit ha', or_of_bit hd']
  · rw [if_neg hw, h40, or_of_bit ha']

theorem setsAd_markAt (mem : Word → BitVec 8) (a : Word) (type : MemType) :
    SetsAd mem (markAt a (adBits type) mem) a type where
  entry := by rw [read_markAt_self, adBits_val]
  rest x hx := by
    have hne : x ≠ a := by
      intro he
      apply hx 0 (by decide)
      rw [he]
      exact (BitVec.add_zero a).symm
    exact Function.update_of_ne hne _ _

theorem markAt_unneeded (h : needsMark pte type = false)
    (hval : pte.val = Bytes.readLE 64 mem a 8) : markAt a (adBits type) mem = mem := by
  have hsame : Bytes.readLE 64 mem a 8 ||| (adBits type).setWidth 64 =
      Bytes.readLE 64 mem a 8 ||| (0 : BitVec 8).setWidth 64 := by
    rw [← hval, adBits_absorbed h]
    exact BitVec.or_zero.symm
  have hzero : markAt a 0 mem = mem := by
    have hor : mem a ||| 0 = mem a := BitVec.or_zero
    unfold markAt
    rw [hor, Function.update_eq_self]
  rw [← writeLE_markAt, hsame, writeLE_markAt, hzero]

theorem ptwUpdateAd_pmem (hdev : NoWideDma P)
    (hval : inPmem P (P.paddr pPte) = true → pte.val = Bytes.readLE 64 s.pmem (P.paddr pPte) 8)
    (h : ptwUpdateAd P pPte pte va type s = .ok () t) :
    t.pmem = if P.share = false ∧ inPmem P (P.paddr pPte) = true then
      markAt (P.paddr pPte) (adBits type) s.pmem else s.pmem := by
  obtain ⟨_, _, hget, h1⟩ := ok_of_bind h
  cases hget
  cases hP : P.share with
  | true =>
    rw [hP] at h1
    cases h1
    exact (if_neg fun hn => Bool.false_ne_true hn.1.symm).symm
  | false =>
    rw [hP, Bool.not_false, Bool.true_and] at h1
    cases hin : inPmem P (P.paddr pPte) with
    | true =>
      rw [if_pos ⟨rfl, rfl⟩]
      split at h1
      · obtain ⟨_, _, hget, h2⟩ := ok_of_bind h1
        cases hget
        rw [hin] at h2
        split at h2
        · exact absurd h2 raiseAccessFault_not_ok
        · obtain ⟨_, _, ha, h3⟩ := ok_of_bind h2
          obtain ⟨rfl, -⟩ := assert_ok ha
          cases h3
          dsimp only
          rw [adBits_val, hval hin, writeLE_markAt]
      · next hset =>
        cases h1
        have hset' : needsMark pte type = false := Bool.eq_false_of_not_eq_true hset
        exact (markAt_unneeded hset' (hval hin)).symm
    | false =>
      rw [if_neg fun hn => Bool.false_ne_true hn.2]
      split at h1
      · obtain ⟨_, _, hget, h2⟩ := ok_of_bind h1
        cases hget
        rw [hin, if_neg Bool.false_ne_true] at h2
        split at h2
        · exact absurd h2 raiseAccessFault_not_ok
        split at h2
        · obtain ⟨r, hr, hpmem⟩ := mmioWrite_ok h2
          exact hpmem.trans (hdev _ _ _ r hr _)
        split at h2
        · cases h2
          rfl
        · exact absurd h2 raiseAccessFault_not_ok
      · cases h1
        rfl

theorem ptw_leaf (h : ptw P va type s = .ok r t) :
    ∃ level pPte pte u, ptwWalk P va type s = .ok (.leaf level pPte pte) u ∧
      checkPermission P pte true va type u = .ok () u ∧ pte.base &&& pgMask level = 0 ∧
      ptwUpdateAd P pPte pte va type u = .ok () t ∧ r = frame P level pte va := by
  obtain ⟨walk, u, hwalk, h1⟩ := ok_of_bind h
  cases walk with
  | bad pte =>
    obtain ⟨_, _, hc, -⟩ := ok_of_bind h1
    cases (checkPermission_ok hc).2
  | leaf level pPte pte =>
    obtain ⟨_, _, hc, h2⟩ := ok_of_bind h1
    obtain ⟨rfl, -⟩ := checkPermission_ok hc
    split at h2
    · obtain ⟨_, _, hc, -⟩ := ok_of_bind h2
      cases (checkPermission_ok hc).2
    · next hwhole =>
      obtain ⟨_, _, hup, h3⟩ := ok_of_bind h2
      cases h3
      exact ⟨level, pPte, pte, _, hwalk, hc, not_not.mp hwhole, hup, rfl⟩

theorem ptw_updates (hP : P.share = false) (hdev : NoWideDma P) (h : ptw P va type s = .ok r t) :
    ∃ level pPte pte u, ptwWalk P va type s = .ok (.leaf level pPte pte) u ∧
      Updates P s.pmem t.pmem pPte type := by
  obtain ⟨level, pPte, pte, u, hwalk, -, -, hup, -⟩ := ptw_leaf h
  obtain ⟨hu, hval⟩ := ptwWalk_ok hwalk
  refine ⟨level, pPte, pte, u, hwalk, ?_⟩
  rw [← hu] at hval ⊢
  have hpmem := ptwUpdateAd_pmem hdev hval hup
  cases hin : inPmem P (P.paddr pPte) with
  | true =>
    rw [if_pos ⟨hP, hin⟩] at hpmem
    rw [hpmem]
    exact .entry hin (setsAd_markAt _ _ type)
  | false =>
    rw [if_neg fun hn => Bool.false_ne_true (hin.symm.trans hn.2)] at hpmem
    exact .device hin hpmem

end Success

section Again

theorem paddrRead_passed (hin : inPmem P (P.paddr pa) = true)
    (h : paddrRead P pa 8 type mode va s = .ok v t) :
    isaPmpCheckPermission P s (P.paddr pa) 8 type mode = true ∧
      v = Bytes.readLE 64 s.pmem (P.paddr pa) 8 ∧ t = s := by
  obtain ⟨_, _, hget, h1⟩ := ok_of_bind h
  cases hget
  rw [hin] at h1
  split at h1
  · exact absurd h1 raiseReadAccessFault_not_ok
  · next hpass =>
    obtain ⟨_, _, ha, h2⟩ := ok_of_bind h1
    obtain ⟨rfl, -⟩ := assert_ok ha
    cases h2
    rw [Bool.not_eq_true, Bool.not_eq_false'] at hpass
    exact ⟨hpass, rfl, rfl⟩

theorem paddrRead_of_passed (hin : inPmem P (P.paddr pa) = true)
    (hpass : isaPmpCheckPermission P s (P.paddr pa) 8 type mode = true) :
    paddrRead P pa 8 type mode va s = .ok (Bytes.readLE 64 s.pmem (P.paddr pa) 8) s := by
  unfold paddrRead
  rw [get_bind, hpass, hin]
  rfl

/-- The state after the bits `b` have been set at `a`. -/
def Machine.markedAt (s : Machine) (a : Word) (b : BitVec 8) : Machine :=
  { s with pmem := markAt a b s.pmem }

variable {a : Word} {b : BitVec 8}

/-- `b` has bits A and D only, and there is a leaf at `a`. -/
structure Markable (s : Machine) (a : Word) (b : BitVec 8) : Prop where
  bits : b &&& 0x3f = 0
  aligned : a.toNat % 8 = 0
  leaf : Pte.IsLeaf ⟨Bytes.readLE 64 s.pmem a 8⟩

theorem pmpLoop_markedAt (l : List (Fin 16)) (base : Word) :
    pmpLoop (s.markedAt a b) addr len type mode l base = pmpLoop s addr len type mode l base := by
  apply pmpLoop_congr
  · exact fun _ => rfl
  · exact fun _ => rfl
  · exact fun _ _ _ => rfl

theorem isaPmpCheckPermission_markedAt :
    isaPmpCheckPermission P (s.markedAt a b) addr len type mode =
      isaPmpCheckPermission P s addr len type mode := by
  unfold isaPmpCheckPermission
  dsimp only
  rw [pmpLoop_markedAt]
  rfl

theorem round_marked (hpa : (P.paddr pa).toNat % 8 = 0)
    (next : Pte → Exec Walk) (found : Pte → Option Walk)
    (hnext : ∀ e w w' t, found e = some w → next e s = .ok w' t →
      w' = w ∧ t = s ∧
        (Markable s a b → next e (s.markedAt a b) = .ok (w.mark P a b) (s.markedAt a b)))
    (hw : (if inPmem P (P.paddr pa) then
        if !(⟨Bytes.readLE 64 s.pmem (P.paddr pa) 8⟩ : Pte).v ||
          (!(⟨Bytes.readLE 64 s.pmem (P.paddr pa) 8⟩ : Pte).r &&
            (⟨Bytes.readLE 64 s.pmem (P.paddr pa) 8⟩ : Pte).w) then
          some (.bad ⟨Bytes.readLE 64 s.pmem (P.paddr pa) 8⟩)
        else if (⟨Bytes.readLE 64 s.pmem (P.paddr pa) 8⟩ : Pte).r ||
          (⟨Bytes.readLE 64 s.pmem (P.paddr pa) 8⟩ : Pte).x then
          some (.leaf level pa ⟨Bytes.readLE 64 s.pmem (P.paddr pa) 8⟩)
        else found ⟨Bytes.readLE 64 s.pmem (P.paddr pa) 8⟩
      else none) = some w)
    (h : (do
      let val ← paddrRead P pa 8 type .S va
      let pte : Pte := ⟨val⟩
      if !pte.v || (!pte.r && pte.w) then pure (.bad pte)
      else if pte.r || pte.x then pure (.leaf level pa pte)
      else next pte : Exec Walk) s = .ok w' t) :
    w' = w ∧ t = s ∧ (Markable s a b → (do
      let val ← paddrRead P pa 8 type .S va
      let pte : Pte := ⟨val⟩
      if !pte.v || (!pte.r && pte.w) then pure (.bad pte)
      else if pte.r || pte.x then pure (.leaf level pa pte)
      else next pte : Exec Walk) (s.markedAt a b) = .ok (w.mark P a b) (s.markedAt a b)) := by
  split at hw
  · next hin =>
    obtain ⟨v, u, hread, h1⟩ := ok_of_bind h
    obtain ⟨hpass, hv, hu⟩ := paddrRead_passed hin hread
    rw [hv, hu] at h1
    have hagain : paddrRead P pa 8 type .S va (s.markedAt a b) =
        .ok (Bytes.readLE 64 (markAt a b s.pmem) (P.paddr pa) 8) (s.markedAt a b) :=
      paddrRead_of_passed hin (isaPmpCheckPermission_markedAt.trans hpass)
    have hmarked : Markable s a b → P.paddr pa = a →
        Bytes.readLE 64 (markAt a b s.pmem) (P.paddr pa) 8 =
          Bytes.readLE 64 s.pmem (P.paddr pa) 8 ||| b.setWidth 64 := by
      rintro - rfl
      exact read_markAt_self _ _ _
    have hother : Markable s a b → P.paddr pa ≠ a →
        Bytes.readLE 64 (markAt a b s.pmem) (P.paddr pa) 8 =
          Bytes.readLE 64 s.pmem (P.paddr pa) 8 := fun hm hne => read_markAt hm.aligned hpa hne
    rw [bind_ok hagain]
    dsimp only at h1 ⊢
    split at hw
    · next hbad =>
      rw [if_pos hbad] at h1
      cases hw
      cases h1
      refine ⟨rfl, rfl, fun hm => ?_⟩
      have hne : P.paddr pa ≠ a := by
        rintro rfl
        exact Bool.false_ne_true (hm.leaf.valid.symm.trans hbad)
      rw [hother hm hne, if_pos hbad]
      rfl
    next hbad =>
    rw [if_neg hbad] at h1
    split at hw
    · next hl =>
      rw [if_pos hl] at h1
      cases hw
      cases h1
      refine ⟨rfl, rfl, fun hm => ?_⟩
      unfold Walk.mark
      dsimp only
      by_cases heq : P.paddr pa = a
      · have hext : (⟨Bytes.readLE 64 s.pmem (P.paddr pa) 8⟩ : Pte).Extends
            ⟨Bytes.readLE 64 s.pmem (P.paddr pa) 8 ||| b.setWidth 64⟩ := ⟨b, hm.bits, rfl⟩
        rw [hmarked hm heq, hext.bad, hext.points, if_neg hbad, if_pos hl, if_pos heq]
        rfl
      · rw [hother hm heq, if_neg hbad, if_pos hl, if_neg heq]
        rfl
    · next hl =>
      rw [if_neg hl] at h1
      obtain ⟨hw', ht, hrun⟩ := hnext _ _ _ _ hw h1
      refine ⟨hw', ht, fun hm => ?_⟩
      have hne : P.paddr pa ≠ a := by
        rintro rfl
        exact hl hm.leaf.leaf
      rw [hother hm hne, if_neg hbad, if_neg hl]
      exact hrun hm
  · cases hw

theorem ptwLoop_marked (level : Nat) {base : Word} (hbase : base.toNat % 8 = 0)
    (hw : walkLoop P s.pmem va level base = some w)
    (h : ptwLoop P va type level base s = .ok w' t) :
    w' = w ∧ t = s ∧ (Markable s a b →
      ptwLoop P va type level base (s.markedAt a b) = .ok (w.mark P a b) (s.markedAt a b)) := by
  induction level generalizing base w w' t with
  | zero =>
    unfold walkLoop at hw
    unfold ptwLoop at h ⊢
    refine round_marked (entry_mod P hbase _) (fun e => pure (.bad e)) (fun e => some (.bad e))
      ?_ hw h
    intro e w w' t hw h
    cases hw
    cases h
    exact ⟨rfl, rfl, fun _ => rfl⟩
  | succ level ih =>
    unfold walkLoop at hw
    unfold ptwLoop at h ⊢
    exact round_marked (entry_mod P hbase _) (fun e => ptwLoop P va type level e.base)
      (fun e => walkLoop P s.pmem va level e.base) (fun e w w' t hw h => ih (pageBase_mod _) hw h)
      hw h

theorem ptwWalk_marked (hw : memoryWalk P s va = some w) (h : ptwWalk P va type s = .ok w' t) :
    w' = w ∧ t = s ∧ (Markable s a b →
      ptwWalk P va type (s.markedAt a b) = .ok (w.mark P a b) (s.markedAt a b)) := by
  unfold memoryWalk at hw
  unfold ptwWalk at h ⊢
  rw [get_bind] at h ⊢
  by_cases hc : Canonical va
  · have hc' : (va.extractLsb' 0 39).signExtend 64 = va := hc
    rw [if_pos hc] at hw
    rw [if_pos hc'] at h ⊢
    exact ptwLoop_marked 2 (pageBase_mod _) hw h
  · have hc' : ¬ (va.extractLsb' 0 39).signExtend 64 = va := hc
    rw [if_neg hc] at hw
    rw [if_neg hc'] at h ⊢
    cases hw
    cases h
    exact ⟨rfl, rfl, fun _ => rfl⟩

theorem Pte.Extends.permits (h : pte.Extends pte') (P : Platform) (s : Machine) (type : MemType) :
    Nemu.permits P s pte' true type = Nemu.permits P s pte true type := by
  have hv : pte'.v = pte.v := h.bit (.inl (by decide))
  have hr : pte'.r = pte.r := h.bit (.inl (by decide))
  have hw : pte'.w = pte.w := h.bit (.inl (by decide))
  have hx : pte'.x = pte.x := h.bit (.inl (by decide))
  have hu : pte'.u = pte.u := h.bit (.inl (by decide))
  unfold Nemu.permits mpkBits pteAllows
  rw [hv, hr, hw, hx, hu, h.pkey]

theorem checkPermission_again (hP : P.share = false) (h : pte.Extends pte')
    (hc : checkPermission P pte true va type s = .ok () s) :
    checkPermission P pte' true va type (s.markedAt a b) = .ok () (s.markedAt a b) := by
  cases hp : permits P s pte true type with
  | false =>
    obtain ⟨e, t, he, -⟩ := checkPermission_refused hP hp va
    cases hc.symm.trans he
  | true =>
    have hp' : permits P (s.markedAt a b) pte' true type = true := (h.permits P s type).trans hp
    exact checkPermission_permits hP hp' va

theorem needsMark_marked (x : Word) (type : MemType) :
    needsMark ⟨x ||| (adBits type).setWidth 64⟩ type = false := by
  have h6 : ((adBits type).setWidth 64 : Word).getLsbD 6 = true := by
    unfold adBits
    split <;> decide
  have h7 : type = .write → ((adBits type).setWidth 64 : Word).getLsbD 7 = true := by
    rintro rfl
    decide
  unfold needsMark Pte.a Pte.d
  dsimp only
  rw [BitVec.getLsbD_or, BitVec.getLsbD_or, h6, Bool.or_true, Bool.not_true, Bool.false_or]
  by_cases hw : type = .write
  · rw [h7 hw, Bool.or_true, Bool.not_true, Bool.false_and]
  · rw [decide_eq_false hw, Bool.and_false]

theorem ptwUpdateAd_unneeded (h : needsMark pte type = false) :
    ptwUpdateAd P pPte pte va type s = .ok () s := by
  unfold needsMark at h
  unfold ptwUpdateAd
  rw [get_bind, h, Bool.and_false]
  rfl

theorem ptwUpdateAd_leaf (hP : P.share = false) (hleaf : LeafAt P s.pmem pPte pte)
    (h : ptwUpdateAd P pPte pte va type s = .ok () t) (hneed : needsMark pte type = true) :
    t = s.markedAt (P.paddr pPte) (adBits type) := by
  unfold needsMark at hneed
  obtain ⟨_, _, hget, h1⟩ := ok_of_bind h
  cases hget
  rw [hP, hneed] at h1
  obtain ⟨_, _, hget, h2⟩ := ok_of_bind h1
  cases hget
  rw [hleaf.inMemory] at h2
  split at h2
  · exact absurd h2 raiseAccessFault_not_ok
  · obtain ⟨_, _, ha, h3⟩ := ok_of_bind h2
    obtain ⟨rfl, -⟩ := assert_ok ha
    cases h3
    dsimp only
    rw [adBits_val, hleaf.val, writeLE_markAt]
    rfl

/-- With its page tables in memory, a translation that has succeeded succeeds again, with the same
page and without a change. -/
theorem ptw_again (hP : P.share = false) (hw : memoryWalk P s va = some w)
    (h : ptw P va type s = .ok r t) : ptw P va type t = .ok r t := by
  obtain ⟨level, pPte, pte, u, hwalk, hc, hwhole, hup, rfl⟩ := ptw_leaf h
  obtain ⟨rfl, rfl, hmarked⟩ := ptwWalk_marked (a := P.paddr pPte) (b := adBits type) hw hwalk
  have hleaf := (memoryWalk_leaf hw).2
  cases hneed : needsMark pte type with
  | false =>
    cases (ptwUpdateAd_unneeded hneed).symm.trans hup
    exact h
  | true =>
    have hisLeaf : Pte.IsLeaf ⟨Bytes.readLE 64 u.pmem (P.paddr pPte) 8⟩ := hleaf.val ▸ hleaf.isLeaf
    have hext : pte.Extends ⟨pte.val ||| (adBits type).setWidth 64⟩ := ⟨_, adBits_mark type, rfl⟩
    have hframe : frame P level ⟨pte.val ||| (adBits type).setWidth 64⟩ va =
        frame P level pte va := by
      unfold frame
      rw [hext.base]
    have hwalk' := hmarked ⟨adBits_mark type, hleaf.aligned, hisLeaf⟩
    unfold Walk.mark at hwalk'
    dsimp only at hwalk'
    rw [if_pos rfl] at hwalk'
    rw [ptwUpdateAd_leaf hP hleaf hup hneed]
    unfold ptw
    rw [bind_ok hwalk']
    unfold ptwFinish
    dsimp only
    rw [bind_ok (checkPermission_again hP hext hc), hext.base, if_neg (not_not.mpr hwhole),
      bind_ok (ptwUpdateAd_unneeded (needsMark_marked pte.val type)), ← hframe]
    rw [← hext.base]
    rfl

end Again

/-- Hardware sets the bits A and D of the leaf that a walk ends at, and nothing else, and a walk
that fails sets nothing. Page tables in memory give the same page again. -/
theorem ad_update_minimal (hP : P.share = false) (hdev : NoWideDma P) :
    (∀ r t, ptw P va type s = .ok r t →
        (∃ level pPte pte u, ptwWalk P va type s = .ok (.leaf level pPte pte) u ∧
          Updates P s.pmem t.pmem pPte type) ∧
        ((memoryWalk P s va).isSome → ptw P va type t = .ok r t)) ∧
      ∀ f t, ptw P va type s = .error (.exception f) t → t.pmem = s.pmem := by
  refine ⟨fun r t h => ⟨ptw_updates hP hdev h, fun hmem => ?_⟩, fun f t h => ptw_error_pmem h⟩
  obtain ⟨w, hw⟩ := Option.isSome_iff_exists.mp hmem
  exact ptw_again hP hw h

section Clint

/-- `mtime` in a deterministic build: it grows on every access of the timer. -/
def clintMtime (log : List DevEvent) : Word :=
  log.foldl (fun m e => (match e with
    | .access ⟨a, _, some v⟩ => if a = 0x3800bff8 then v else m
    | _ => m) + 1000) 0

/-- A build with the timer as its only device. -/
def clintPlatform : Platform :=
  { Platform.bare Config.performance with
    inMmio := fun a => decide (0x38000000 ≤ a) && decide (a < 0x38010000)
    mmioAccess := fun log req => some
      { data := if req.addr = 0x3800bff8 then clintMtime log + 1000 else 0
        mtip := some true
        dma := fun mem => mem } }

/-- Supervisor mode, the root table at page `root`. -/
def rooted (root : Word) (pmem : Word → BitVec 8) : Machine :=
  { (Machine.reset clintPlatform pmem).setCsr .satp (8 <<< 60 ||| root) with
    mode := .S
    ifetchMmuState := .translate
    dataMmuState := .translate }

/-- The last entry of the root table is `mtime`, which has been set before. -/
def timed : Machine :=
  { rooted 0x3800b fun _ => 0 with
    mmio := [.access ⟨0x3800bff8, 8, some (0x200000cf - 2000)⟩] }

/-- The entry has changed when the same address is translated again. -/
theorem clint_entry_changes :
    clintPlatform.share = false ∧ NoWideDma clintPlatform ∧
      ∃ t u, ptw clintPlatform 0xffffffffc0000000 .read timed = .ok 0x80000000 t ∧
        ptw clintPlatform 0xffffffffc0000000 .read t =
          .error (.exception ⟨.LPF, some 0xffffffffc0000000, .plain⟩) u := by
  refine ⟨rfl, ?_, _, _, rfl, rfl⟩
  rintro log a v r hr mem
  cases hr
  rfl

/-- A gigapage whose A bit is clear. -/
def freshTable (a : Word) : BitVec 8 :=
  if a = 0x80000000 then 0x0f else if a = 0x80000003 then 0x20 else 0

theorem ad_update_minimal_gigapage :
    ∃ t, ptw clintPlatform 0x1234 .read (rooted 0x80000 freshTable) = .ok 0x80001000 t ∧
      ptw clintPlatform 0x1234 .read t = .ok 0x80001000 t := by
  have hdev : NoWideDma clintPlatform := by
    rintro log a v r hr mem
    cases hr
    rfl
  have hok : ∀ r t, ptw clintPlatform 0x1234 .read (rooted 0x80000 freshTable) = .ok r t → _ :=
    (ad_update_minimal rfl hdev).1
  exact ⟨_, rfl, (hok _ _ rfl).2 rfl⟩

end Clint

end Nemu
