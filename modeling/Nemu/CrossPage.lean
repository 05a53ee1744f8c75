import Nemu.AdUpdate
import Nemu.HostTlb

namespace Nemu

open Effect

set_option autoImplicit true

/-- What a translation of `v` may leave at `a`: the byte, or the byte with the bits A and D set if
it is where the flags of the leaf are. -/
def AdByte (P : Platform) (s : Machine) (type : MemType) (v a : Word) (x : BitVec 8) : Prop :=
  x = s.pmem a ∨ ∃ level pPte pte u, ptwWalk P v type s = .ok (.leaf level pPte pte) u ∧
    a = P.paddr pPte ∧ x = s.pmem a ||| adBits type

/-- Memory is unchanged but for the bits A and D of a page table entry. -/
def AdOnly (P : Platform) (s : Machine) (type : MemType) (v : Word) (t : Machine) : Prop :=
  ∀ a, AdByte P s type v a (t.pmem a)

/-- The physical address of `va` in the page `f`. -/
def byteAddr (P : Platform) (f va : Word) : Word := P.paddr (f ||| (va &&& pageMask))

/-- The devices that an access of the given type can reach. -/
def reachesDevice (P : Platform) (type : MemType) (a : Word) : Bool :=
  (!P.share || (P.hasFlash && decide (type ≠ .write))) && P.inMmio a

/-- An access of `len` bytes at the physical address `a` is an access fault. -/
def Refuses (P : Platform) (t : Machine) (type : MemType) (a : Word) (len : Nat) : Prop :=
  isaPmpCheckPermission P t a len type t.mode = false ∨
    inPmem P a = false ∧ reachesDevice P type a = false ∧
      (P.share && P.ignoreIllegalMemAccess) = false

def refusal (t : Machine) : MemType → Exc
  | .ifetch | .ifetchRead => .IAF
  | .read => if t.amo then .SAF else .LAF
  | .write | .writeRead => .SAF

/-- An access at `va`, translated as `va` is, raises the exception. -/
inductive AccessFaults (P : Platform) (s : Machine) (type : MemType) (va : Word) (len : Nat) :
    Exc → Prop where
  | translation : isaMmuTranslate P va type s = .error (.exception f) t →
      AccessFaults P s type va len f.cause
  | access : isaMmuTranslate P va type s = .ok f t → Refuses P t type (byteAddr P f va) len →
      AccessFaults P s type va len (refusal t type)

/-- The byte at `va` is in memory at `a`, and may be accessed. -/
structure LandsAt (P : Platform) (s : Machine) (type : MemType) (va a : Word) : Prop where
  translates : ∃ f t, isaMmuTranslate P va type s = .ok f t ∧ a = byteAddr P f va ∧
    isaPmpCheckPermission P t a 1 type t.mode = true
  inMemory : inPmem P a = true

def byteOf (v : Word) (i : Nat) : Word := v + BitVec.ofNat 64 i

/-- A byte of an access, accessed by itself, raises the exception. -/
def ByteFaults (P : Platform) (s : Machine) (type : MemType) (v : Word) (len : Nat) (ex : Exc) : Prop :=
  ∃ i < len, AccessFaults P s type (byteOf v i) 1 ex

/-- A load returns the bytes at the translations of their own addresses, and raises an exception of
one of them when there is one. -/
structure LoadRight (P : Platform) (s : Machine) (v : Word) (len : Nat) : Prop where
  bytes : ∀ own : Nat → Word, (∀ i < len, LandsAt P s .read (byteOf v i) (own i)) →
    ∃ t, vaddrMmuRead P v len .read s = .ok (Bytes.pack 64 (fun i => t.pmem (own i)) len) t
  faults : (∃ ex, ByteFaults P s .read v len ex) →
    ∃ f t, vaddrMmuRead P v len .read s = .error (.exception f) t ∧ ByteFaults P s .read v len f.cause ∧
      AdOnly P s .read v t

/-- A store changes the bytes at the translations of their own addresses and no other, and raises an
exception of one of them, without a change, when there is one. -/
structure StoreRight (P : Platform) (s : Machine) (v : Word) (len : Nat) (data : Word) : Prop where
  bytes : ∀ own : Nat → Word, (∀ i < len, LandsAt P s .write (byteOf v i) (own i)) →
    ∃ t, vaddrMmuWrite P v len data s = .ok () t ∧
      (∀ i < len, t.pmem (own i) = data.extractLsb' (8 * i) 8) ∧
      ∀ a, (∀ i < len, a ≠ own i) → AdByte P s .write v a (t.pmem a)
  faults : (∃ ex, ByteFaults P s .write v len ex) →
    ∃ f t, vaddrMmuWrite P v len data s = .error (.exception f) t ∧ ByteFaults P s .write v len f.cause ∧
      AdOnly P s .write v t

/-- The bytes that follow the translation of `v` may be read as a whole if each of its own may, and
are the same; no byte faults unless the access at the translation of `v` raises the exception of one. -/
structure LoadStraight (P : Platform) (s : Machine) (v : Word) (len : Nat) : Prop where
  bytes : ∀ own : Nat → Word, (∀ i < len, LandsAt P s .read (byteOf v i) (own i)) →
    ∀ f t, isaMmuTranslate P v .read s = .ok f t →
      isaPmpCheckPermission P t (byteAddr P f v) len .read t.mode = true ∧
        ∀ i < len, t.pmem (byteOf (byteAddr P f v) i) = t.pmem (own i)
  faults : (∃ ex, ByteFaults P s .read v len ex) →
    ∃ ex, AccessFaults P s .read v len ex ∧ ByteFaults P s .read v len ex

/-- As `LoadStraight`; a byte that follows the translation of `v` is that of its own translation,
or both hold the byte to be stored. -/
structure StoreStraight (P : Platform) (s : Machine) (v : Word) (len : Nat) (data : Word) :
    Prop where
  bytes : ∀ own : Nat → Word, (∀ i < len, LandsAt P s .write (byteOf v i) (own i)) →
    ∀ f t, isaMmuTranslate P v .write s = .ok f t →
      isaPmpCheckPermission P t (byteAddr P f v) len .write t.mode = true ∧
        ∀ i < len, byteOf (byteAddr P f v) i = own i ∨
          t.pmem (own i) = data.extractLsb' (8 * i) 8 ∧
            AdByte P s .write v (byteOf (byteAddr P f v) i) (data.extractLsb' (8 * i) 8)
  faults : (∃ ex, ByteFaults P s .write v len ex) →
    ∃ ex, AccessFaults P s .write v len ex ∧ ByteFaults P s .write v len ex

variable {P : Platform} {s t : Machine} {va pa v : Word} {len : Nat} {type : MemType}

section Translate

theorem adByte_markAt (hw : ptwWalk P v type s = .ok (.leaf level pPte pte) u) (a : Word) :
    AdByte P s type v a (markAt (P.paddr pPte) (adBits type) s.pmem a) := by
  unfold markAt
  by_cases ha : a = P.paddr pPte
  · subst ha
    rw [Function.update_self]
    exact .inr ⟨level, pPte, pte, u, hw, rfl, rfl⟩
  · rw [Function.update_of_ne ha]
    exact .inl rfl

theorem ptw_adOnly (hdev : NoWideDma P) (h : ptw P v type s = .ok r t) :
    r &&& pageMask = 0 ∧ AdOnly P s type v t := by
  obtain ⟨level, pPte, pte, u, hwalk, -, -, hup, rfl⟩ := ptw_leaf h
  obtain ⟨hu, hval⟩ := ptwWalk_ok hwalk
  rw [← hu] at hval
  have hpmem := ptwUpdateAd_pmem hdev hval hup
  refine ⟨frame_page P level pte v, fun a => ?_⟩
  rw [hpmem, hu]
  split
  · exact adByte_markAt hwalk a
  · exact .inl rfl

theorem forceRaisePf_keeps : (keep Stop Machine.pmem).Within (forceRaisePf P va type) :=
  forceRaisePf_within (.bind (.read _) fun _ => .bind (update_pmem fun _ => rfl) fun _ => .ret _ _)
    (fun _ _ => .bind (update_pmem fun _ => rfl) fun _ => .raise fun _ => rfl) (faultAt_pmem _) (faultAt_pmem _)

theorem translate_ok (hdev : NoWideDma P) (h : isaMmuTranslate P v type s = .ok r t) :
    r &&& pageMask = 0 ∧ AdOnly P s type v t := by
  obtain ⟨r', u, hptw, h1⟩ := ok_of_bind h
  obtain ⟨hpage, had⟩ := ptw_adOnly hdev hptw
  split at h1
  · obtain ⟨_, _, hf, h2⟩ := ok_of_bind h1
    cases h2
    refine ⟨hpage, fun a => ?_⟩
    rw [forceRaisePf_ok hf]
    exact had a
  · cases h1
    exact ⟨hpage, had⟩

theorem translate_error (hdev : NoWideDma P) (h : isaMmuTranslate P v type s = .error e t) :
    AdOnly P s type v t := by
  obtain hptw | ⟨r', u, hptw, h1⟩ := error_of_bind h
  · intro a
    rw [ptw_error_pmem hptw]
    exact .inl rfl
  · obtain ⟨-, had⟩ := ptw_adOnly hdev hptw
    split at h1
    · obtain hf | ⟨_, _, -, h2⟩ := error_of_bind h1
      · have hpmem : t.pmem = u.pmem := forceRaisePf_keeps.error hf
        intro a
        rw [hpmem]
        exact had a
      · cases h2
    · cases h1

end Translate

section Access

theorem raiseAccessFault_stops (ex : Exc) (t : Machine) :
    ∃ f u, (raiseAccessFault P ex va : Exec α) t = .error (.exception f) u ∧ f.cause = ex ∧
      u.pmem = t.pmem :=
  ⟨_, _, faultAt_run P ex va { t with amo := false }, rfl, rfl⟩

theorem raiseReadAccessFault_stops (t : Machine) :
    ∃ f u, (raiseReadAccessFault P .read va : Exec α) t = .error (.exception f) u ∧
      f.cause = refusal t .read ∧ u.pmem = t.pmem := by
  have hrun : (raiseReadAccessFault P .read va : Exec α) t =
      if t.amo then raiseAccessFault P .SAF va t else raiseAccessFault P .LAF va t := by
    unfold raiseReadAccessFault
    rw [get_bind]
    cases t.amo <;> rfl
  unfold refusal
  rw [hrun]
  split
  · exact raiseAccessFault_stops .SAF t
  · exact raiseAccessFault_stops .LAF t

theorem not_refuses (hp : isaPmpCheckPermission P t a len type t.mode = true)
    (hin : inPmem P a = true) : ¬ Refuses P t type a len := by
  rintro (hf | ⟨hout, -⟩)
  · exact Bool.false_ne_true (hf.symm.trans hp)
  · exact Bool.false_ne_true (hout.symm.trans hin)

/-- How an access of physical memory ends. `done` is its end when it is one of memory. -/
inductive Fate (P : Platform) (t : Machine) (type : MemType) (a : Word) (len : Nat)
    (done : EStateM.Result Stop Machine α) : EStateM.Result Stop Machine α → Prop where
  | refused : Refuses P t type a len → f.cause = refusal t type → u.pmem = t.pmem →
      Fate P t type a len done (.error (.exception f) u)
  | memory : isaPmpCheckPermission P t a len type t.mode = true → inPmem P a = true →
      Fate P t type a len done done
  | device : ¬ Refuses P t type a len → inPmem P a = false →
      (∀ f u, x ≠ .error (.exception f) u) → Fate P t type a len done x

section Fate

variable {done x : EStateM.Result Stop Machine α}

theorem Fate.of_memory (h : Fate P t type a len done x)
    (hp : isaPmpCheckPermission P t a len type t.mode = true) (hin : inPmem P a = true) :
    x = done := by
  cases h with
  | refused hd _ _ => exact absurd hd (not_refuses hp hin)
  | memory _ _ => rfl
  | device _ hout _ => exact absurd (hout.symm.trans hin) Bool.false_ne_true

theorem Fate.of_refuses (h : Fate P t type a len done x) (hd : Refuses P t type a len) :
    ∃ f u, x = .error (.exception f) u ∧ f.cause = refusal t type ∧ u.pmem = t.pmem := by
  cases h with
  | refused _ hc hu => exact ⟨_, _, rfl, hc, hu⟩
  | memory hp hin => exact absurd hd (not_refuses hp hin)
  | device hn _ _ => exact absurd hd hn

theorem Fate.of_ok (h : Fate P t type a len done (.ok y u)) (hin : inPmem P a = true) :
    isaPmpCheckPermission P t a len type t.mode = true ∧ done = .ok y u := by
  generalize hx : EStateM.Result.ok y u = x at h
  cases h with
  | refused => cases hx
  | memory hp _ => exact ⟨hp, rfl⟩
  | device _ hout _ => exact absurd (hout.symm.trans hin) Bool.false_ne_true

theorem Fate.of_exception (h : Fate P t type a len done x) (hx : x = .error (.exception f) u)
    (hdone : ∀ f u, done ≠ .error (.exception f) u) :
    Refuses P t type a len ∧ f.cause = refusal t type := by
  cases h with
  | refused hd hc _ =>
    cases hx
    exact ⟨hd, hc⟩
  | memory => exact absurd hx (hdone _ _)
  | device _ _ hne => exact absurd hx (hne _ _)

end Fate

theorem mmioRead_stops (a : Word) : mmioRead P a len t ≠ .error (.exception f) u := by
  intro h
  obtain hget | ⟨_, _, hget, h1⟩ := error_of_bind h
  · cases hget
  cases hget
  cases hr : P.mmioAccess t.mmio ⟨a, len, none⟩ with
  | none =>
    rw [hr] at h1
    cases h1
  | some r =>
    rw [hr] at h1
    cases h1

theorem paddrRead_fate (hlen : HostLength len) (pa va : Word) (t : Machine) :
    Fate P t .read (P.paddr pa) len (.ok (Bytes.readLE 64 t.pmem (P.paddr pa) len) t)
      (paddrRead P pa len .read t.mode va t) := by
  unfold paddrRead
  rw [get_bind]
  cases hp : isaPmpCheckPermission P t (P.paddr pa) len .read t.mode with
  | false =>
    obtain ⟨f, u, hf, hc, hu⟩ := raiseReadAccessFault_stops (P := P) (α := Word) t
    rw [Bool.not_false, if_pos rfl, hf]
    exact .refused (.inl hp) hc hu
  | true =>
    have hnot : ∀ {q : Prop}, (isaPmpCheckPermission P t (P.paddr pa) len .read t.mode = false ∨ q) →
        q := fun h => h.resolve_left fun hf => Bool.false_ne_true (hf.symm.trans hp)
    rw [Bool.not_true, if_neg Bool.false_ne_true]
    by_cases hin : inPmem P (P.paddr pa) = true
    · have hread : pmemRead (P.paddr pa) len t = .ok (Bytes.readLE 64 t.pmem (P.paddr pa) len) t := by
        unfold pmemRead
        rw [bind_ok (assert_pos _ hlen _ t)]
        rfl
      rw [if_pos hin, hread]
      exact .memory hp hin
    have hout : inPmem P (P.paddr pa) = false := Bool.eq_false_of_not_eq_true hin
    have hdev : reachesDevice P .read (P.paddr pa) =
        ((!P.share || P.hasFlash) && P.inMmio (P.paddr pa)) := by
      unfold reachesDevice
      rw [decide_eq_true (by decide), Bool.and_true]
    rw [if_neg hin]
    by_cases hio : ((!P.share || P.hasFlash) && P.inMmio (P.paddr pa)) = true
    · rw [if_pos hio]
      refine .device (fun hr => ?_) hout fun f u => mmioRead_stops _
      exact Bool.false_ne_true ((hnot hr).2.1.symm.trans (hdev.trans hio))
    rw [if_neg hio]
    by_cases hig : (P.share && P.ignoreIllegalMemAccess) = true
    · rw [if_pos hig]
      refine .device (fun hr => ?_) hout fun f u h => nomatch h
      exact Bool.false_ne_true ((hnot hr).2.2.symm.trans hig)
    · obtain ⟨f, u, hf, hc, hu⟩ := raiseReadAccessFault_stops (P := P) (α := Word) t
      rw [if_neg hig, hf]
      exact .refused (.inr ⟨hout, hdev.trans (Bool.eq_false_of_not_eq_true hio),
        Bool.eq_false_of_not_eq_true hig⟩) hc hu

end Access

section Load

theorem byteOf_zero (v : Word) : byteOf v 0 = v := BitVec.add_zero v

theorem HostLength.pos (h : HostLength len) : 0 < len := by
  obtain rfl | rfl | rfl | rfl := h <;> decide

theorem HostLength.le (h : HostLength len) : len ≤ 8 := by
  obtain rfl | rfl | rfl | rfl := h <;> decide

theorem LandsAt.first (h : LandsAt P s type (byteOf v 0) a)
    (ht : isaMmuTranslate P v type s = .ok f t) : inPmem P (byteAddr P f v) = true := by
  obtain ⟨f', t', htr, ha, -⟩ := h.translates
  rw [byteOf_zero] at htr ha
  cases htr.symm.trans ht
  rw [← ha]
  exact h.inMemory

theorem vaddrMmuRead_translated (h : isaMmuTranslate P v type s = .ok f t)
    (hf : f &&& pageMask = 0) :
    vaddrMmuRead P v len type s = paddrRead P (f ||| (v &&& pageMask)) len type t.mode v t := by
  unfold vaddrMmuRead
  rw [bind_ok h, if_pos hf]
  rfl

theorem not_lands (hlen : HostLength len) (h : isaMmuTranslate P v type s = .error e t)
    (own : Nat → Word) : ¬ ∀ i < len, LandsAt P s type (byteOf v i) (own i) := by
  intro hown
  obtain ⟨f', t', htr, -⟩ := (hown 0 hlen.pos).translates
  rw [byteOf_zero] at htr
  cases htr.symm.trans h

theorem refusals_untranslated (h : isaMmuTranslate P v type s = .error e t) :
    AccessFaults P s type v len ex ↔ ∃ f, e = .exception f ∧ f.cause = ex := by
  constructor
  · rintro (h' | ⟨h', -⟩)
    · cases h.symm.trans h'
      exact ⟨_, rfl, rfl⟩
    · cases h.symm.trans h'
  · rintro ⟨f, rfl, rfl⟩
    exact .translation h

/-- Where a load may read as a whole, it returns the bytes that follow. -/
theorem load_right_iff (hdev : NoWideDma P) (hlen : HostLength len) :
    LoadRight P s v len ↔ LoadStraight P s v len := by
  cases htr : isaMmuTranslate P v .read s with
  | error e t =>
    have hrun : vaddrMmuRead P v len .read s = .error e t := bind_error htr
    constructor
    · intro hr
      refine ⟨fun own hown => absurd hown (not_lands hlen htr own), fun hf => ?_⟩
      obtain ⟨f, u, hu, hbyte, -⟩ := hr.faults hf
      obtain ⟨rfl, rfl⟩ := EStateM.Result.error.inj (hrun.symm.trans hu)
      exact ⟨f.cause, .translation htr, hbyte⟩
    · intro hst
      refine ⟨fun own hown => absurd hown (not_lands hlen htr own), fun hf => ?_⟩
      obtain ⟨ex, hv, hbyte⟩ := hst.faults hf
      obtain ⟨f, rfl, rfl⟩ := (refusals_untranslated htr).mp hv
      exact ⟨f, t, hrun, hbyte, translate_error hdev htr⟩
  | ok f t =>
    obtain ⟨hpage, had⟩ := translate_ok hdev htr
    have hrun : vaddrMmuRead P v len .read s =
        paddrRead P (f ||| (v &&& pageMask)) len .read t.mode v t := vaddrMmuRead_translated htr hpage
    have h64 : 8 * len ≤ 64 := by
      have := hlen.le
      omega
    have hfate := paddrRead_fate (P := P) hlen (f ||| (v &&& pageMask)) v t
    constructor
    · intro hr
      refine ⟨fun own hown f' t' htr' => ?_, fun hf => ?_⟩
      · cases htr.symm.trans htr'
        obtain ⟨u, hu⟩ := hr.bytes own hown
        rw [hrun.symm.trans hu] at hfate
        obtain ⟨hp, hx⟩ := hfate.of_ok ((hown 0 hlen.pos).first htr)
        obtain ⟨hread, rfl⟩ := EStateM.Result.ok.inj hx
        rw [Bytes.readLE_eq_pack _ _ _ h64] at hread
        exact ⟨hp, (Bytes.pack_inj _ _ len h64).mp hread⟩
      · obtain ⟨g, u, hu, hbyte, -⟩ := hr.faults hf
        obtain ⟨hd, hc⟩ := hfate.of_exception (hrun.symm.trans hu) fun f u h => nomatch h
        rw [hc] at hbyte
        exact ⟨_, .access htr hd, hbyte⟩
    · intro hst
      refine ⟨fun own hown => ?_, fun hf => ?_⟩
      · obtain ⟨hp, hsame⟩ := hst.bytes own hown f t htr
        have hread := hfate.of_memory hp ((hown 0 hlen.pos).first htr)
        refine ⟨t, hrun.trans (hread.trans ?_)⟩
        rw [Bytes.readLE_eq_pack _ _ _ h64]
        congr 1
        exact (Bytes.pack_inj _ _ len h64).mpr hsame
      · obtain ⟨ex, hv, hbyte⟩ := hst.faults hf
        cases hv with
        | translation h' => cases h'.symm.trans htr
        | access h' hd =>
          cases htr.symm.trans h'
          obtain ⟨g, u, hu, hc, hpmem⟩ := hfate.of_refuses hd
          refine ⟨g, u, hrun.trans hu, hc ▸ hbyte, fun a => ?_⟩
          rw [hpmem]
          exact had a

end Load

section Store

variable {data : Word}

theorem mmioWrite_stops (a : Word) : mmioWrite P a len data t ≠ .error (.exception f) u := by
  intro h
  obtain hget | ⟨_, _, hget, h1⟩ := error_of_bind h
  · cases hget
  cases hget
  cases hr : P.mmioAccess t.mmio ⟨a, len, some data⟩ with
  | none =>
    rw [hr] at h1
    cases h1
  | some r =>
    rw [hr] at h1
    cases h1

theorem paddrWrite_fate (hlen : HostLength len) (pa va : Word) (t : Machine) :
    Fate P t .write (P.paddr pa) len
      (.ok () { t with pmem := Bytes.writeLE t.pmem (P.paddr pa) len data })
      (paddrWrite P pa len data t.mode va t) := by
  unfold paddrWrite
  rw [get_bind]
  cases hp : isaPmpCheckPermission P t (P.paddr pa) len .write t.mode with
  | false =>
    obtain ⟨f, u, hf, hc, hu⟩ := raiseAccessFault_stops (P := P) (α := Unit) .SAF t
    rw [Bool.not_false, if_pos rfl, hf]
    exact .refused (.inl hp) hc hu
  | true =>
    have hnot : ∀ {q : Prop}, (isaPmpCheckPermission P t (P.paddr pa) len .write t.mode = false ∨ q) →
        q := fun h => h.resolve_left fun hf => Bool.false_ne_true (hf.symm.trans hp)
    rw [Bool.not_true, if_neg Bool.false_ne_true]
    by_cases hin : inPmem P (P.paddr pa) = true
    · have hwrite : pmemWrite (P.paddr pa) len data t =
          .ok () { t with pmem := Bytes.writeLE t.pmem (P.paddr pa) len data } := by
        unfold pmemWrite
        rw [bind_ok (assert_pos _ hlen _ t)]
        rfl
      rw [if_pos hin, hwrite]
      exact .memory hp hin
    have hout : inPmem P (P.paddr pa) = false := Bool.eq_false_of_not_eq_true hin
    have hdev : reachesDevice P .write (P.paddr pa) = (!P.share && P.inMmio (P.paddr pa)) := by
      unfold reachesDevice
      rw [decide_eq_false (by decide), Bool.and_false, Bool.or_false]
    rw [if_neg hin]
    by_cases hio : (!P.share && P.inMmio (P.paddr pa)) = true
    · rw [if_pos hio]
      refine .device (fun hr => ?_) hout fun f u => mmioWrite_stops _
      exact Bool.false_ne_true ((hnot hr).2.1.symm.trans (hdev.trans hio))
    rw [if_neg hio]
    by_cases hig : (P.share && P.ignoreIllegalMemAccess) = true
    · rw [if_pos hig]
      refine .device (fun hr => ?_) hout fun f u h => nomatch h
      exact Bool.false_ne_true ((hnot hr).2.2.symm.trans hig)
    · obtain ⟨f, u, hf, hc, hu⟩ := raiseAccessFault_stops (P := P) (α := Unit) .SAF t
      rw [if_neg hig, hf]
      exact .refused (.inr ⟨hout, hdev.trans (Bool.eq_false_of_not_eq_true hio),
        Bool.eq_false_of_not_eq_true hig⟩) hc hu

theorem vaddrMmuWrite_translated (h : isaMmuTranslate P v .write s = .ok f t)
    (hf : f &&& pageMask = 0) :
    vaddrMmuWrite P v len data s = paddrWrite P (f ||| (v &&& pageMask)) len data t.mode v t := by
  unfold vaddrMmuWrite
  rw [bind_ok h, if_pos hf]
  rfl

theorem byteAddr_mod (hf : f &&& pageMask = 0) (va : Word) :
    (byteAddr P f va).toNat % 4096 = va.toNat % 4096 := by
  have hlow : byteAddr P f va &&& pageMask = va &&& pageMask := by
    unfold byteAddr
    rw [paddr_and_low, BitVec.and_or_distrib_right, hf, BitVec.and_assoc, BitVec.and_self]
    exact BitVec.zero_or
  rw [← toNat_low, hlow, toNat_low]

theorem byteOf_mod (v : Word) (i : Nat) : (byteOf v i).toNat % 4096 = (v.toNat + i) % 4096 := by
  unfold byteOf
  rw [BitVec.toNat_add, BitVec.toNat_ofNat]
  omega

theorem LandsAt.injective (hdev : NoWideDma P) (h : LandsAt P s type (byteOf v i) a)
    (hf : f &&& pageMask = 0) (ha : byteOf (byteAddr P f v) j = a) (hi : i < 4096) (hj : j < 4096) :
    j = i := by
  obtain ⟨g, u, htr, hown, -⟩ := h.translates
  have hmod := congrArg (fun x : Word => x.toNat % 4096) (ha.trans hown)
  have h1 := byteAddr_mod (P := P) (translate_ok hdev htr).1 (byteOf v i)
  have h2 := byteOf_mod (byteAddr P f v) j
  have h3 := byteAddr_mod (P := P) hf v
  have h4 := byteOf_mod v i
  omega

/-- Bytes stored one after the other are where `own` wants them, with the rest of memory as `Q`
wants it, exactly if each is there or is what both places hold. -/
theorem scatter_iff {Q : Word → BitVec 8 → Prop} {m : Word → BitVec 8} {own : Nat → Word}
    {base : Word} (data : Word) (hm : ∀ a, Q a (m a)) (hlen : len ≤ 8)
    (hinj : ∀ i < len, ∀ j < len, byteOf base j = own i → j = i) :
    ((∀ i < len, Bytes.writeLE m base len data (own i) = data.extractLsb' (8 * i) 8) ∧
        ∀ a, (∀ i < len, a ≠ own i) → Q a (Bytes.writeLE m base len data a)) ↔
      ∀ i < len, byteOf base i = own i ∨
        m (own i) = data.extractLsb' (8 * i) 8 ∧ Q (byteOf base i) (data.extractLsb' (8 * i) 8) := by
  have hat : ∀ i < len, Bytes.writeLE m base len data (byteOf base i) =
      data.extractLsb' (8 * i) 8 := fun i hi => Bytes.writeLE_at m _ data hi (by omega)
  have hoff : ∀ i < len, byteOf base i ≠ own i →
      Bytes.writeLE m base len data (own i) = m (own i) := by
    intro i hi hne
    refine Bytes.writeLE_off m data fun j hj he => hne ?_
    cases hinj i hi j hj he.symm
    exact he.symm
  constructor
  · rintro ⟨hown, hrest⟩ i hi
    by_cases he : byteOf base i = own i
    · exact .inl he
    · have hnone : ∀ j < len, byteOf base i ≠ own j := by
        intro j hj hij
        cases hinj j hj i hi hij
        exact he hij
      have hbyte := hrest _ hnone
      rw [hat i hi] at hbyte
      exact .inr ⟨(hoff i hi he).symm.trans (hown i hi), hbyte⟩
  · intro h
    refine ⟨fun i hi => ?_, fun a ha => ?_⟩
    · by_cases he : byteOf base i = own i
      · rw [← he]
        exact hat i hi
      · exact (hoff i hi he).trans ((h i hi).resolve_left he).1
    · by_cases hex : ∃ i < len, a = byteOf base i
      · obtain ⟨i, hi, rfl⟩ := hex
        rw [hat i hi]
        exact ((h i hi).resolve_left (ha i hi)).2
      · have hsame : Bytes.writeLE m base len data a = m a :=
          Bytes.writeLE_off m data fun i hi he => hex ⟨i, hi, he⟩
        rw [hsame]
        exact hm a

theorem store_right_iff (hdev : NoWideDma P) (hlen : HostLength len) :
    StoreRight P s v len data ↔ StoreStraight P s v len data := by
  cases htr : isaMmuTranslate P v .write s with
  | error e t =>
    have hrun : vaddrMmuWrite P v len data s = .error e t := bind_error htr
    constructor
    · intro hr
      refine ⟨fun own hown => absurd hown (not_lands hlen htr own), fun hf => ?_⟩
      obtain ⟨f, u, hu, hbyte, -⟩ := hr.faults hf
      obtain ⟨rfl, rfl⟩ := EStateM.Result.error.inj (hrun.symm.trans hu)
      exact ⟨f.cause, .translation htr, hbyte⟩
    · intro hst
      refine ⟨fun own hown => absurd hown (not_lands hlen htr own), fun hf => ?_⟩
      obtain ⟨ex, hv, hbyte⟩ := hst.faults hf
      obtain ⟨f, rfl, rfl⟩ := (refusals_untranslated htr).mp hv
      exact ⟨f, t, hrun, hbyte, translate_error hdev htr⟩
  | ok f t =>
    obtain ⟨hpage, had⟩ := translate_ok hdev htr
    have h8 := hlen.le
    have hrun : vaddrMmuWrite P v len data s =
        paddrWrite P (f ||| (v &&& pageMask)) len data t.mode v t :=
      vaddrMmuWrite_translated htr hpage
    have hfate : Fate P t .write (byteAddr P f v) len
        (.ok () { t with pmem := Bytes.writeLE t.pmem (byteAddr P f v) len data })
        (paddrWrite P (f ||| (v &&& pageMask)) len data t.mode v t) := paddrWrite_fate hlen _ v t
    have hplaces : ∀ {own : Nat → Word}, (∀ i < len, LandsAt P s .write (byteOf v i) (own i)) → _ :=
      fun {own} hown => scatter_iff data had h8 fun i hi j hj he =>
        (hown i hi).injective hdev hpage he (by omega) (by omega)
    constructor
    · intro hr
      refine ⟨fun own hown f' t' htr' => ?_, fun hf => ?_⟩
      · cases htr.symm.trans htr'
        obtain ⟨u, hu, hstored⟩ := hr.bytes own hown
        rw [hrun.symm.trans hu] at hfate
        obtain ⟨hp, hx⟩ := hfate.of_ok ((hown 0 hlen.pos).first htr)
        obtain ⟨-, rfl⟩ := EStateM.Result.ok.inj hx
        exact ⟨hp, (hplaces hown).mp hstored⟩
      · obtain ⟨g, u, hu, hbyte, -⟩ := hr.faults hf
        obtain ⟨hd, hc⟩ := hfate.of_exception (hrun.symm.trans hu) fun f u h => nomatch h
        rw [hc] at hbyte
        exact ⟨_, .access htr hd, hbyte⟩
    · intro hst
      refine ⟨fun own hown => ?_, fun hf => ?_⟩
      · obtain ⟨hp, hsame⟩ := hst.bytes own hown f t htr
        exact ⟨_, hrun.trans (hfate.of_memory hp ((hown 0 hlen.pos).first htr)),
          (hplaces hown).mpr hsame⟩
      · obtain ⟨ex, hv, hbyte⟩ := hst.faults hf
        cases hv with
        | translation h' => cases h'.symm.trans htr
        | access h' hd =>
          cases htr.symm.trans h'
          obtain ⟨g, u, hu, hc, hpmem⟩ := hfate.of_refuses hd
          refine ⟨g, u, hrun.trans hu, hc ▸ hbyte, fun a => ?_⟩
          rw [hpmem]
          exact had a

end Store

/-- Loads and stores use the translation of their first byte for all of them: when that is right. -/
theorem cross_page_iff (hdev : NoWideDma P) (hlen : HostLength len) :
    (LoadRight P s v len ↔ LoadStraight P s v len) ∧
      ∀ data, StoreRight P s v len data ↔ StoreStraight P s v len data :=
  ⟨load_right_iff hdev hlen, fun _ => store_right_iff hdev hlen⟩

section Examples

def crossPlatform : Platform := .bare .unchecked

theorem crossPlatform_noWideDma : NoWideDma crossPlatform := by
  intro log a v r h
  cases h

/-- Tables for two pages of 2 MiB; `second` is a byte of the entry of the second one. The byte at
`0x80600000` is set. -/
def twoPages (second : BitVec 8) (a : Word) : BitVec 8 :=
  if a = 0x80000000 then 0x01 else if a = 0x80000001 then 0x04 else if a = 0x80000003 then 0x20
  else if a = 0x80001000 then 0xcf else if a = 0x80001002 then 0x08
  else if a = 0x80001003 then 0x20
  else if a = 0x80001008 then 0xcf else if a = 0x8000100a then second
  else if a = 0x8000100b then 0x20
  else if a = 0x80600000 then 0x01 else 0

/-- The second page is not behind the first one in memory. -/
theorem cross_page_load_wrong :
    crossPlatform.acSoft = false ∧ NoWideDma crossPlatform ∧
      ¬ LoadRight crossPlatform (rooted 0x80000 (twoPages 0x18)) 0x1fffff 2 := by
  refine ⟨rfl, crossPlatform_noWideDma, fun h => ?_⟩
  have hown : ∀ i < 2, LandsAt crossPlatform (rooted 0x80000 (twoPages 0x18)) .read
      (byteOf 0x1fffff i) (if i = 0 then 0x803fffff else 0x80600000) := by
    intro i hi
    obtain rfl | rfl : i = 0 ∨ i = 1 := by omega
    · exact ⟨⟨_, _, rfl, rfl, rfl⟩, rfl⟩
    · exact ⟨⟨_, _, rfl, rfl, rfl⟩, rfl⟩
  obtain ⟨t, ht⟩ := h.bytes _ hown
  have hrun : vaddrMmuRead crossPlatform 0x1fffff 2 .read (rooted 0x80000 (twoPages 0x18)) =
      .ok 0 (rooted 0x80000 (twoPages 0x18)) := rfl
  obtain ⟨hval, rfl⟩ := EStateM.Result.ok.inj (hrun.symm.trans ht)
  exact absurd hval (by decide)

/-- The second page follows the first one. -/
theorem cross_page_iff_lh :
    LoadRight crossPlatform (rooted 0x80000 (twoPages 0x10)) 0x1fffff 2 := by
  refine (cross_page_iff crossPlatform_noWideDma (.inr (.inl rfl))).1.mpr ⟨?_, ?_⟩
  · intro own hown f t htr
    cases htr
    refine ⟨rfl, fun i hi => ?_⟩
    obtain ⟨f, t, hf, ha, -⟩ := (hown i hi).translates
    rw [ha]
    obtain rfl | rfl : i = 0 ∨ i = 1 := by omega
    · cases hf
      rfl
    · cases hf
      rfl
  · rintro ⟨ex, i, hi, hf⟩
    obtain rfl | rfl : i = 0 ∨ i = 1 := by omega
    · obtain h | ⟨h, hr⟩ := hf
      · cases h
      · cases h
        exact absurd hr (not_refuses rfl rfl)
    · obtain h | ⟨h, hr⟩ := hf
      · cases h
      · cases h
        exact absurd hr (not_refuses rfl rfl)

end Examples

end Nemu
