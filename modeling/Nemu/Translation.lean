import Nemu.PageWalk

namespace Nemu

open Effect

set_option autoImplicit true

section Permission

variable {P : Platform} {s : Machine} {pte pte' : Pte} {type : MemType}

/-- `check_permission` returns in a build that sets the bits A and D itself. -/
def permits (P : Platform) (s : Machine) (pte : Pte) (ok : Bool) (type : MemType) : Bool :=
  let mode := s.accessMode (type = .ifetch)
  let ok := pteAllows s pte ok (type = .ifetch) mode
  let (mpkAd, mpkWd) := mpkBits s pte mode
  decide (mode = .U ∨ mode = .S) && match type with
    | .ifetch => ok && pte.x
    | .read => ok && (pte.r || (s.mxr && pte.x)) && !(P.dasics && mpkAd)
    | _ => ok && pte.w && !(P.dasics && (mpkAd || mpkWd))

/-- An access does not complete; the reason is not the length that it asks for. -/
def Refused (x : Exec α) (s : Machine) : Prop := ∃ e t, x s = .error e t ∧ e ≠ .abort .hostLength

theorem Refused.bind {x : Exec α} {k : α → Exec β} (h : Refused x s) : Refused (x >>= k) s := by
  obtain ⟨e, t, hx, he⟩ := h
  exact ⟨e, t, bind_error hx, he⟩

theorem Refused.of_bind {x : Exec α} {k : α → Exec β} (hx : x s = .ok a t) (h : Refused (k a) t) :
    Refused (x >>= k) s := by
  obtain ⟨e, u, hk, he⟩ := h
  exact ⟨e, u, (bind_ok hx).trans hk, he⟩

theorem refused_faultAt (ex : Exc) (va : Word) (s : Machine) :
    Refused (faultAt P ex va : Exec α) s :=
  ⟨_, _, faultAt_run P ex va s, by simp⟩

theorem checkPermission_permits (hshare : P.share = false)
    (h : permits P s pte b type = true) (va : Word) :
    checkPermission P pte b va type s = .ok () s := by
  unfold permits at h
  rw [Bool.and_eq_true, decide_eq_true_eq] at h
  obtain ⟨hmode, h⟩ := h
  unfold checkPermission
  rw [get_bind]
  dsimp only
  rw [bind_ok (assert_pos _ hmode _ s)]
  cases type with
  | ifetch =>
    dsimp only at h ⊢
    rw [h, hshare]
    rfl
  | read =>
    dsimp only at h ⊢
    rw [Bool.and_eq_true, Bool.not_eq_true'] at h
    rw [h.1, hshare, h.2]
    rfl
  | write | ifetchRead | writeRead =>
    dsimp only at h ⊢
    rw [Bool.and_eq_true, Bool.not_eq_true'] at h
    rw [h.1, hshare, if_neg (by simp), if_neg]
    · rfl
    · intro hkey
      simp only [Bool.and_eq_true, Bool.or_eq_true, Bool.and_eq_false_iff] at h hkey
      grind

theorem checkPermission_refused (hshare : P.share = false)
    (h : permits P s pte b type = false) (va : Word) :
    Refused (checkPermission P pte b va type) s := by
  unfold checkPermission
  apply Refused.of_bind (t := s) (a := s) rfl
  dsimp only
  by_cases hmode : s.accessMode (type = .ifetch) = .U ∨ s.accessMode (type = .ifetch) = .S
  · apply Refused.of_bind (assert_pos _ hmode _ s)
    unfold permits at h
    dsimp only at h
    rw [decide_eq_true hmode, Bool.true_and] at h
    cases type with
    | ifetch =>
      dsimp only at h ⊢
      rw [h, hshare, if_pos (by simp)]
      by_cases hamo : s.amo = false
      · exact .of_bind (assert_pos _ hamo _ s) (refused_faultAt _ _ _)
      · exact .bind ⟨_, _, assert_neg _ hamo _ s, by simp⟩
    | read =>
      dsimp only at h ⊢
      split
      · exact .of_bind rfl (refused_faultAt _ _ _)
      · next hpass =>
        rw [if_pos]
        · exact .of_bind rfl (refused_faultAt _ _ _)
        · simp only [hshare, Bool.false_and, Bool.or_false, Bool.not_eq_true, Bool.not_eq_false'] at hpass
          rw [hpass, Bool.true_and, Bool.not_eq_false'] at h
          exact h
    | write | ifetchRead | writeRead =>
      dsimp only at h ⊢
      split
      · exact .of_bind rfl (refused_faultAt _ _ _)
      · next hpass =>
        rw [if_pos]
        · exact .of_bind rfl (refused_faultAt _ _ _)
        · simp only [hshare, Bool.false_and, Bool.or_false, Bool.not_eq_true, Bool.not_eq_false'] at hpass
          rw [hpass, Bool.true_and, Bool.not_eq_false'] at h
          grind
  · exact .bind ⟨_, _, assert_neg _ hmode _ s, by simp⟩

theorem permits_ok (h : permits P s pte b type = true) : b = true := by
  cases b with
  | true => rfl
  | false =>
    unfold permits pteAllows at h
    cases type <;> simp at h

end Permission

section Translate

variable {P : Platform} {s t : Machine} {va : Word} {type : MemType} {pte : Pte}

/-- The bits that an access sets in its entry. -/
def adBits (type : MemType) : BitVec 8 := if type = .write then 0xc0 else 0x40

def needsMark (pte : Pte) (type : MemType) : Bool := !pte.a || (!pte.d && decide (type = .write))

/-- The state after the bits A and D have been set for an access. -/
def Machine.marked (P : Platform) (s : Machine) (pPte : Word) (pte : Pte) (type : MemType) :
    Machine :=
  if needsMark pte type then
    { s with pmem := markAt (P.paddr pPte) (adBits type) s.pmem }
  else s

theorem marked_csr (P : Platform) (s : Machine) (pPte : Word) (pte : Pte) (type : MemType) :
    (s.marked P pPte pte type).csr = s.csr := by
  unfold Machine.marked
  split <;> rfl

theorem adBits_mark (type : MemType) : adBits type &&& 0x3f = 0 := by
  unfold adBits
  split <;> decide

theorem adBits_val (x : Word) (type : MemType) :
    x ||| 0x40 ||| (if type = .write then 0x80 else 0) = x ||| (adBits type).setWidth 64 := by
  unfold adBits
  rw [BitVec.or_assoc]
  congr 1
  split <;> decide

theorem writeLE_markAt (mem : Word → BitVec 8) (a : Word) (b : BitVec 8) :
    Bytes.writeLE mem a 8 (Bytes.readLE 64 mem a 8 ||| b.setWidth 64) = markAt a b mem := by
  funext x
  rw [Bytes.writeLE_readLE_or mem a 8 b (by decide) x]
  unfold markAt
  by_cases hx : x = a
  · subst hx
    rw [if_pos ⟨rfl, by decide⟩, Function.update_self]
  · rw [if_neg (fun h => hx h.1), Function.update_of_ne hx]

theorem paddrWrite_memory (hpmp : P.pmpCheck = false) (hin : inPmem P (P.paddr pa) = true)
    (data : Word) (mode : Mode) :
    paddrWrite P pa len data mode va s = pmemWrite (P.paddr pa) len data s := by
  have hpass : isaPmpCheckPermission P s (P.paddr pa) len .write mode = true := by
    simp [isaPmpCheckPermission, hpmp]
  unfold paddrWrite
  rw [get_bind, hpass, hin]
  rfl

theorem ptwUpdateAd_memory (hshare : P.share = false) (hpmp : P.pmpCheck = false)
    (hleaf : LeafAt P s.pmem pPte pte) (va : Word) (type : MemType) :
    ptwUpdateAd P pPte pte va type s = .ok () (s.marked P pPte pte type) := by
  unfold ptwUpdateAd Machine.marked needsMark
  rw [get_bind, hshare, Bool.not_false, Bool.true_and]
  split
  · rw [paddrWrite_memory hpmp hleaf.inMemory, adBits_val, hleaf.val]
    unfold pmemWrite
    rw [bind_ok (assert_pos _ (by decide) _ s), ← writeLE_markAt]
    rfl
  · rfl

/-- What `ptw` returns: the page of `va` behind the entry `pte`. -/
def frame (P : Platform) (level : Nat) (pte : Pte) (va : Word) : Word :=
  P.paddr ((pte.base &&& ~~~pgMask level) ||| (va &&& pgMask level &&& ~~~0xfff))

theorem frame_page (P : Platform) (level : Nat) (pte : Pte) (va : Word) :
    frame P level pte va &&& pageMask = 0 :=
  paddr_page _ (leaf_page pte level va)

/-- The page tables, in memory, let the access through. -/
structure Mapped (P : Platform) (s : Machine) (va : Word) (type : MemType) (level : Nat)
    (pPte : Word) (pte : Pte) : Prop where
  walk : memoryWalk P s va = some (.leaf level pPte pte)
  permitted : permits P s pte true type = true
  whole : pte.base &&& pgMask level = 0

theorem Mapped.ptw_run (hshare : P.share = false) (hpmp : P.pmpCheck = false)
    (h : Mapped P s va type level pPte pte) :
    ptw P va type s = .ok (frame P level pte va) (s.marked P pPte pte type) := by
  unfold ptw
  rw [bind_ok (memoryWalk_run hpmp h.walk)]
  unfold ptwFinish
  dsimp only
  rw [bind_ok (checkPermission_permits hshare h.permitted va), if_neg (fun hne => hne h.whole),
    bind_ok (ptwUpdateAd_memory hshare hpmp (memoryWalk_leaf h.walk).2 va type)]
  rfl

theorem ptw_refused (hshare : P.share = false) (hpmp : P.pmpCheck = false)
    (hw : memoryWalk P s va = some w)
    (h : ∀ level pPte pte, ¬ Mapped P s va type level pPte pte) :
    Refused (ptw P va type) s := by
  have hnone : ∀ pte, permits P s pte false type = false := by
    intro pte
    rw [Bool.eq_false_iff]
    exact fun hp => Bool.false_ne_true (permits_ok hp)
  apply Refused.of_bind (memoryWalk_run hpmp hw)
  cases w with
  | bad pte => exact (checkPermission_refused hshare (hnone pte) va).bind
  | leaf level pPte pte =>
    cases hp : permits P s pte true type with
    | false => exact (checkPermission_refused hshare hp va).bind
    | true =>
      apply Refused.of_bind (checkPermission_permits hshare hp va)
      rw [if_pos (fun hwhole => h level pPte pte ⟨hw, hp, hwhole⟩)]
      exact (checkPermission_refused hshare (hnone pte) va).bind

theorem frame_ne_fail (P : Platform) (level : Nat) (pte : Pte) (va : Word) :
    frame P level pte va ≠ memRetFail := by
  intro h
  have hpage := frame_page P level pte va
  rw [h] at hpage
  exact absurd hpage (by decide)

theorem Mapped.run (hshare : P.share = false) (hpmp : P.pmpCheck = false)
    (h : Mapped P s va type level pPte pte) (hg : s.guidedExec = false) :
    isaMmuTranslate P va type s = .ok (frame P level pte va) (s.marked P pPte pte type) := by
  have hguide : (s.marked P pPte pte type).guidedExec = false := by
    unfold Machine.marked
    split <;> exact hg
  have hforce : forceRaisePf P va type (s.marked P pPte pte type) =
      .ok () (s.marked P pPte pte type) := by
    unfold forceRaisePf
    rw [get_bind, hguide]
    rfl
  unfold isaMmuTranslate
  rw [bind_ok (h.ptw_run hshare hpmp), if_pos (frame_ne_fail P level pte va), bind_ok hforce]
  rfl

theorem translate_refused (hshare : P.share = false) (hpmp : P.pmpCheck = false)
    (hw : memoryWalk P s va = some w)
    (h : ∀ level pPte pte, ¬ Mapped P s va type level pPte pte) :
    Refused (isaMmuTranslate P va type) s :=
  (ptw_refused hshare hpmp hw h).bind

theorem forceRaisePfRecord_frame (h : forceRaisePfRecord va type s = .ok b t) :
    t.pmem = s.pmem ∧ t.csr = s.csr := by
  cases h
  exact ⟨rfl, rfl⟩

theorem forceRaisePf_frame (h : forceRaisePf P va type s = .ok () t) :
    t.pmem = s.pmem ∧ t.csr = s.csr := by
  have hcount : ∀ {k : Exec Unit}, (∀ u, k u ≠ .ok () t) →
      (do if ← forceRaisePfRecord va type then pure () else k : Exec Unit) s = .ok () t →
      t.pmem = s.pmem ∧ t.csr = s.csr := by
    intro k hk hrun
    obtain ⟨b, u, hb, h1⟩ := ok_of_bind hrun
    split at h1
    · cases h1
      exact forceRaisePfRecord_frame hb
    · exact absurd h1 (hk u)
  unfold forceRaisePf at h
  rw [get_bind] at h
  split at h
  · split at h
    · apply hcount _ h
      intro u hu
      split at hu
      · cases hu
      · cases hu
    · split at h
      · exact hcount (fun u => faultAt_not_ok) h
      · split at h
        · exact hcount (fun u => faultAt_not_ok) h
        · cases h
          exact ⟨rfl, rfl⟩
  · cases h
    exact ⟨rfl, rfl⟩

theorem translate_inv (hshare : P.share = false) (hpmp : P.pmpCheck = false)
    (hw : memoryWalk P s va = some w) (h : isaMmuTranslate P va type s = .ok r t) :
    ∃ level pPte pte, Mapped P s va type level pPte pte ∧ r = frame P level pte va ∧
      t.pmem = (s.marked P pPte pte type).pmem ∧ t.csr = s.csr := by
  obtain ⟨r', u, hptw, h1⟩ := ok_of_bind h
  by_cases hmapped : ∃ level pPte pte, Mapped P s va type level pPte pte
  · obtain ⟨level, pPte, pte, hm⟩ := hmapped
    have hrun := hptw.symm.trans (hm.ptw_run hshare hpmp)
    cases hrun
    refine ⟨level, pPte, pte, hm, ?_⟩
    rw [if_pos (frame_ne_fail P level pte va)] at h1
    obtain ⟨_, v, hforce, h2⟩ := ok_of_bind h1
    obtain ⟨hpmem, hcsr⟩ := forceRaisePf_frame hforce
    cases h2
    exact ⟨rfl, hpmem, hcsr.trans (marked_csr ..)⟩
  · obtain ⟨e, v, he, _⟩ := ptw_refused hshare hpmp hw
      fun level pPte pte hm => hmapped ⟨level, pPte, pte, hm⟩
    cases hptw.symm.trans he

end Translate

section Frames

variable {P : Platform} {va va' f x y : Word}

theorem and_page_congr (h : hosttlbVpn va = hosttlbVpn va') :
    va &&& ~~~pageMask = va' &&& ~~~pageMask := by
  have hmask : ∀ i < 64, (~~~pageMask).getLsbD i = decide (12 ≤ i) := by decide
  apply BitVec.eq_of_getLsbD_eq
  intro i hi
  rw [BitVec.getLsbD_and, BitVec.getLsbD_and, hmask i hi]
  by_cases h12 : 12 ≤ i
  · rw [getLsbD_of_vpn h h12]
  · simp [h12]

theorem frame_congr (h : hosttlbVpn va = hosttlbVpn va') (level : Nat) (pte : Pte) :
    frame P level pte va = frame P level pte va' := by
  have hpage : ∀ x : Word, x &&& pgMask level &&& ~~~0xfff = x &&& ~~~pageMask &&& pgMask level := by
    intro x
    rw [BitVec.and_assoc, BitVec.and_comm (pgMask level), ← BitVec.and_assoc]
    rfl
  unfold frame
  rw [hpage, hpage, and_page_congr h]

theorem or_low (hf : f &&& pageMask = 0) (x : Word) : f ||| (x &&& pageMask) = f + (x &&& pageMask) := by
  symm
  apply BitVec.add_eq_or_of_and_eq_zero
  rw [BitVec.and_comm x, ← BitVec.and_assoc, hf]
  exact BitVec.zero_and

theorem sub_low (x : Word) : x - (x &&& pageMask) = x &&& ~~~pageMask := by
  have hsplit : x = (x &&& ~~~pageMask) + (x &&& pageMask) := by
    have hdisjoint : x &&& ~~~pageMask &&& pageMask = 0 := by
      rw [BitVec.and_assoc, BitVec.not_and_self]
      exact BitVec.and_zero
    rw [← or_low hdisjoint, ← BitVec.and_or_distrib_left, BitVec.not_or_self,
      BitVec.and_allOnes]
  rw [BitVec.sub_eq_iff_eq_add]
  exact hsplit

theorem offset_frame (h : hosttlbVpn va = hosttlbVpn va') (hf : f &&& pageMask = 0) :
    (hostEntry va (f ||| (va &&& pageMask))).offset + va' = f ||| (va' &&& pageMask) := by
  have hbase : va - (va &&& pageMask) = va' - (va' &&& pageMask) := by
    rw [sub_low, sub_low, and_page_congr h]
  unfold hostEntry
  rw [or_low hf, or_low hf]
  have hva : va' = va - (va &&& pageMask) + (va' &&& pageMask) := by
    rw [hbase, BitVec.sub_add_cancel]
  generalize va &&& pageMask = l at hva
  generalize va' &&& pageMask = l' at hva
  rw [hva]
  grind

theorem paddr_low (P : Platform) (x va : Word) :
    P.paddr (P.paddr x ||| (va &&& pageMask)) = P.paddr x ||| (va &&& pageMask) := by
  unfold Config.paddr
  split
  · rfl
  · have hmask : pageMask &&& 0xffffffff = pageMask := by decide
    rw [BitVec.and_or_distrib_right, BitVec.and_assoc, BitVec.and_self, BitVec.and_assoc, hmask]

/-- Guest memory begins and ends at the border of a page. -/
structure PageAligned (P : Platform) : Prop where
  mbase : P.mbase &&& pageMask = 0
  msize : P.msize &&& pageMask = 0

theorem toNat_low (x : Word) : (x &&& pageMask).toNat = x.toNat % 4096 := by
  have hmask : pageMask.toNat = 2 ^ 12 - 1 := by decide
  rw [BitVec.toNat_and, hmask, Nat.and_two_pow_sub_one_eq_mod]

theorem paddr_and_low (P : Platform) (x : Word) : P.paddr x &&& pageMask = x &&& pageMask := by
  unfold Config.paddr
  split
  · rfl
  · have hmask : (0xffffffff : Word) &&& pageMask = pageMask := by decide
    rw [BitVec.and_assoc, hmask]

theorem and_of_clear {m : Word} (hm : m &&& pageMask = 0) (z : Word) :
    z &&& m = z &&& ~~~pageMask &&& m := by
  apply BitVec.eq_of_getLsbD_eq
  intro i hi
  have hbit := congrArg (fun z => z.getLsbD i) hm
  have hzero : (0 : Word).getLsbD i = false := BitVec.getLsbD_zero
  simp only [BitVec.getLsbD_and, BitVec.getLsbD_not, hi, hzero] at hbit ⊢
  revert hbit
  cases m.getLsbD i <;> cases pageMask.getLsbD i <;> simp

theorem inPmem_congr (hP : PageAligned P) (h : hosttlbVpn x = hosttlbVpn y) :
    inPmem P x = inPmem P y := by
  have hmod : ∀ {a : Word}, a &&& pageMask = 0 → a.toNat % 4096 = 0 := by
    intro a ha
    rw [← toNat_low, ha]
    rfl
  have hdiv : x.toNat / 4096 = y.toNat / 4096 := by
    have hpage := congrArg BitVec.toNat h
    simpa only [hosttlbVpn, BitVec.toNat_ushiftRight, Nat.shiftRight_eq_div_pow] using hpage
  have hsize := hmod hP.msize
  unfold inPmem
  dsimp only
  split
  · -- memory is a naturally aligned block
    have hlast : (P.msize - 1) &&& pageMask = pageMask := by
      apply BitVec.eq_of_toNat_eq
      rw [toNat_low, BitVec.toNat_sub]
      have h1 : (1 : Word).toNat = 1 := by decide
      have hp : pageMask.toNat = 4095 := by decide
      omega
    have hmask : P.paddr (~~~P.paddr (P.msize - 1)) &&& pageMask = 0 := by
      rw [paddr_and_low]
      have hall := (paddr_and_low P (P.msize - 1)).trans hlast
      apply BitVec.eq_of_getLsbD_eq
      intro i hi
      have hbit := congrArg (fun z => z.getLsbD i) hall
      have hzero : (0 : Word).getLsbD i = false := BitVec.getLsbD_zero
      simp only [BitVec.getLsbD_and, BitVec.getLsbD_not, hzero] at hbit ⊢
      revert hbit
      cases (P.paddr (P.msize - 1)).getLsbD i <;> cases pageMask.getLsbD i <;> simp
    rw [and_of_clear hmask x, and_of_clear hmask y, and_page_congr h]
  · have hbase := hmod hP.mbase
    have htop : (P.paddr P.mbase + P.msize).toNat % 4096 = 0 := by
      have hpaddr := hmod ((paddr_and_low P P.mbase).trans hP.mbase)
      rw [BitVec.toNat_add]
      omega
    have hlow : P.mbase ≤ x ↔ P.mbase ≤ y := by
      rw [BitVec.le_def, BitVec.le_def]
      omega
    have hhigh : x < P.paddr P.mbase + P.msize ↔ y < P.paddr P.mbase + P.msize := by
      rw [BitVec.lt_def, BitVec.lt_def]
      omega
    simp only [hlow, hhigh]

end Frames

end Nemu
