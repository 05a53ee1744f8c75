import Nemu.AccessContract

namespace Nemu

open Effect

set_option autoImplicit true

variable {P : Platform} {s t : Machine} {type : MemType} {va : Word} {len : Nat}

theorem raiseAccessFault_not_ok : (raiseAccessFault P ex va : Exec α) s ≠ .ok a t := by
  intro h
  obtain ⟨_, _, -, hf⟩ := ok_of_bind h
  exact faultAt_not_ok hf

theorem raiseReadAccessFault_not_ok :
    (raiseReadAccessFault P type va : Exec α) s ≠ .ok a t := by
  intro h
  obtain ⟨_, _, hget, h1⟩ := ok_of_bind h
  cases hget
  split at h1
  · exact raiseAccessFault_not_ok h1
  · split at h1
    · exact raiseAccessFault_not_ok h1
    · exact raiseAccessFault_not_ok h1

theorem pmem_setMtip (b : Option Bool) (s : Machine) : (setMtip b s).pmem = s.pmem := by
  cases b <;> rfl

theorem mmioRead_ok (h : mmioRead P addr len s = .ok x t) : t.pmem = s.pmem := by
  obtain ⟨_, _, hget, h1⟩ := ok_of_bind h
  cases hget
  cases hr : P.mmioAccess s.mmio ⟨addr, len, none⟩ with
  | none =>
    rw [hr] at h1
    cases h1
  | some r =>
    rw [hr] at h1
    cases h1
    exact pmem_setMtip _ _

theorem paddrRead_ok (h : paddrRead P pa len type mode va s = .ok x t) :
    t.pmem = s.pmem ∧
      (inPmem P (P.paddr pa) = true → x = Bytes.readLE 64 s.pmem (P.paddr pa) len) := by
  obtain ⟨_, _, hget, h1⟩ := ok_of_bind h
  cases hget
  split at h1
  · exact absurd h1 raiseReadAccessFault_not_ok
  · split at h1
    · obtain ⟨_, _, ha, h2⟩ := ok_of_bind h1
      obtain ⟨rfl, -⟩ := assert_ok ha
      cases h2
      exact ⟨rfl, fun _ => rfl⟩
    · next hin =>
      refine ⟨?_, fun hp => absurd hp hin⟩
      split at h1
      · exact mmioRead_ok h1
      · split at h1
        · cases h1
          rfl
        · exact absurd h1 raiseReadAccessFault_not_ok

theorem dasicsFault_not_ok : (dasicsFault P ex reason va : Exec α) s ≠ .ok a t := by
  intro h
  obtain ⟨_, _, -, hf⟩ := ok_of_bind h
  exact faultAt_not_ok hf

theorem pteAllows_ok (h : pteAllows s pte b ifetch mode = true) : b = true := by
  simp only [pteAllows, Bool.and_eq_true] at h
  exact h.1.1.1

/-- The permission check only returns when it was asked about a valid entry. -/
theorem checkPermission_ok (h : checkPermission P pte b va type s = .ok () t) :
    t = s ∧ b = true := by
  obtain ⟨_, _, hget, h1⟩ := ok_of_bind h
  cases hget
  obtain ⟨_, _, ha, h2⟩ := ok_of_bind h1
  obtain ⟨hs, -⟩ := assert_ok ha
  subst hs
  have hallowed : ∀ {x y c : Bool} {m : Mode},
      ¬ (!(pteAllows t pte b c m && x) || y) = true → b = true := by
    intro x y c m hn
    simp only [Bool.or_eq_true, Bool.not_eq_true', not_or, Bool.not_eq_false,
      Bool.and_eq_true] at hn
    exact pteAllows_ok hn.1.1
  cases type with
  | ifetch =>
    dsimp only at h2
    split at h2
    · obtain ⟨_, _, -, hf⟩ := ok_of_bind h2
      exact absurd hf faultAt_not_ok
    · next hn =>
      cases h2
      exact ⟨rfl, hallowed hn⟩
  | read =>
    dsimp only at h2
    split at h2
    · exact absurd h2 raiseAccessFault_not_ok
    · next hn =>
      split at h2
      · exact absurd h2 dasicsFault_not_ok
      · cases h2
        exact ⟨rfl, hallowed hn⟩
  | write | ifetchRead | writeRead =>
    dsimp only at h2
    split at h2
    · exact absurd h2 raiseAccessFault_not_ok
    · next hn =>
      split at h2
      · exact absurd h2 dasicsFault_not_ok
      · cases h2
        exact ⟨rfl, hallowed hn⟩

/-- The entry that a walk ends with is the one in memory. -/
def Walk.InMemory (P : Platform) (m : Word → BitVec 8) : Walk → Prop
  | .leaf _ pPte pte =>
    inPmem P (P.paddr pPte) = true → pte.val = Bytes.readLE 64 m (P.paddr pPte) 8
  | .bad _ => True

theorem ptwLoop_ok (h : ptwLoop P va type level base s = .ok walk t) :
    t.pmem = s.pmem ∧ walk.InMemory P s.pmem := by
  induction level generalizing base s with
  | zero =>
    obtain ⟨val, u, hr, h1⟩ := ok_of_bind h
    obtain ⟨hu, hval⟩ := paddrRead_ok hr
    dsimp only at h1
    split at h1
    · cases h1
      exact ⟨hu, trivial⟩
    · split at h1
      · cases h1
        exact ⟨hu, hval⟩
      · cases h1
        exact ⟨hu, trivial⟩
  | succ level ih =>
    obtain ⟨val, u, hr, h1⟩ := ok_of_bind h
    obtain ⟨hu, hval⟩ := paddrRead_ok hr
    dsimp only at h1
    split at h1
    · cases h1
      exact ⟨hu, trivial⟩
    · split at h1
      · cases h1
        exact ⟨hu, hval⟩
      · obtain ⟨h2, h3⟩ := ih h1
        rw [hu] at h2 h3
        exact ⟨h2, h3⟩

theorem ptwWalk_ok (h : ptwWalk P va type s = .ok walk t) :
    t.pmem = s.pmem ∧ walk.InMemory P s.pmem := by
  obtain ⟨_, _, hget, h1⟩ := ok_of_bind h
  cases hget
  dsimp only at h1
  split at h1
  · exact ptwLoop_ok h1
  · cases h1
    exact ⟨rfl, trivial⟩

/-- What the walk of a read leaves in memory: nothing, or the accessed bit of the entry that it
found. An entry outside memory is written to its device. -/
inductive Marked (P : Platform) (va : Word) (s : Machine) : (Word → BitVec 8) → Prop where
  | same : Marked P va s s.pmem
  | entry : P.share = false → ptwWalk P va .read s = .ok (.leaf level pPte pte) u →
      inPmem P (P.paddr pPte) = true →
      Marked P va s
        (Function.update s.pmem (P.paddr pPte) (s.pmem (P.paddr pPte) ||| 0x40))
  | device : P.share = false → ptwWalk P va .read s = .ok (.leaf level pPte pte) u →
      inPmem P (P.paddr pPte) = false → P.inMmio (P.paddr pPte) = true →
      P.mmioAccess u.mmio ⟨P.paddr pPte, 8, some (pte.val ||| 0x40)⟩ = some r →
      Marked P va s (r.dma s.pmem)

/-- Writing back an entry with its accessed bit set changes one byte. -/
theorem writeLE_accessed (m : Word → BitVec 8) (a : Word) :
    Bytes.writeLE m a 8 (Bytes.readLE 64 m a 8 ||| 0x40) = Function.update m a (m a ||| 0x40) := by
  funext x
  have h := Bytes.writeLE_readLE_or (v := 64) m a 8 0x40 (by decide) x
  have h40 : (0x40 : BitVec 8).setWidth 64 = 0x40 := by decide
  rw [h40] at h
  rw [h]
  by_cases hx : x = a
  · subst hx
    simp
  · simp [hx]

theorem mmioWrite_ok (h : mmioWrite P addr len data s = .ok () t) :
    ∃ r, P.mmioAccess s.mmio ⟨addr, len, some data⟩ = some r ∧ t.pmem = r.dma s.pmem := by
  obtain ⟨_, _, hget, h1⟩ := ok_of_bind h
  cases hget
  cases hr : P.mmioAccess s.mmio ⟨addr, len, some data⟩ with
  | none =>
    rw [hr] at h1
    cases h1
  | some r =>
    rw [hr] at h1
    cases h1
    exact ⟨r, rfl, pmem_setMtip _ _⟩

theorem ptwUpdateAd_marked (hw : ptwWalk P va .read s = .ok (.leaf level pPte pte) u)
    (h : ptwUpdateAd P pPte pte va .read u = .ok () t) : Marked P va s t.pmem := by
  obtain ⟨hu, hval⟩ := ptwWalk_ok hw
  obtain ⟨_, _, hget, h1⟩ := ok_of_bind h
  cases hget
  split at h1
  · next hset =>
    have hshare : P.share = false := by
      simp only [Bool.and_eq_true, Bool.not_eq_true'] at hset
      exact hset.1
    have hdata : pte.val ||| 0x40 ||| (if MemType.read = .write then 0x80 else 0) =
        pte.val ||| 0x40 := by
      rw [if_neg (by decide)]
      exact BitVec.or_zero
    rw [hdata] at h1
    obtain ⟨_, _, hget, h2⟩ := ok_of_bind h1
    cases hget
    split at h2
    · exact absurd h2 raiseAccessFault_not_ok
    · split at h2
      · next hin =>
        obtain ⟨_, _, ha, h3⟩ := ok_of_bind h2
        obtain ⟨rfl, -⟩ := assert_ok ha
        cases h3
        dsimp only
        rw [hu, hval hin, writeLE_accessed]
        exact .entry hshare hw hin
      · next hin =>
        split at h2
        · next hmmio =>
          obtain ⟨r, hr, hpmem⟩ := mmioWrite_ok h2
          rw [hpmem, hu]
          simp only [Bool.and_eq_true] at hmmio
          exact .device hshare hw (by simpa using hin) hmmio.2 hr
        · split at h2
          · cases h2
            rw [hu]
            exact .same
          · exact absurd h2 raiseAccessFault_not_ok
  · cases h1
    rw [hu]
    exact .same

theorem paddr_page (cfg : Config) (h : x &&& pageMask = 0) : cfg.paddr x &&& pageMask = 0 := by
  unfold Config.paddr
  split
  · exact h
  · rw [BitVec.and_assoc, BitVec.and_comm _ pageMask, ← BitVec.and_assoc, h]
    exact BitVec.zero_and

theorem leaf_page (pte : Pte) (level : Nat) (va : Word) :
    ((pte.base &&& ~~~pgMask level) ||| (va &&& pgMask level &&& ~~~0xfff)) &&& pageMask = 0 := by
  have hbase : pte.base &&& pageMask = 0 := by
    have hmask : ∀ i < 64, pageMask.getLsbD i = decide (i < 12) := by decide
    apply BitVec.eq_of_getLsbD_eq
    intro i hi
    by_cases h12 : i < 12
    · simp [Pte.base, pageBase, h12]
    · simp [hmask i hi, h12]
  have hpage : (~~~0xfff : Word) &&& pageMask = 0 := by decide
  rw [BitVec.and_or_distrib_right, BitVec.and_assoc (va &&& _), hpage, BitVec.and_assoc pte.base,
    BitVec.and_comm (~~~pgMask level), ← BitVec.and_assoc, hbase]
  simp only [BitVec.ofNat_eq_ofNat, BitVec.zero_and, BitVec.and_zero, BitVec.or_zero]

theorem ptw_ok (h : ptw P va .read s = .ok r t) :
    Marked P va s t.pmem ∧ r &&& pageMask = 0 := by
  obtain ⟨walk, u, hw, h1⟩ := ok_of_bind h
  cases walk with
  | bad pte =>
    obtain ⟨_, _, hc, -⟩ := ok_of_bind h1
    cases (checkPermission_ok hc).2
  | leaf level pPte pte =>
    obtain ⟨_, _, hc, h2⟩ := ok_of_bind h1
    obtain ⟨rfl, -⟩ := checkPermission_ok hc
    split at h2
    · obtain ⟨_, _, hc, -⟩ := ok_of_bind h2
      cases (checkPermission_ok hc).2
    · obtain ⟨_, _, hup, h3⟩ := ok_of_bind h2
      cases h3
      exact ⟨ptwUpdateAd_marked hw hup, paddr_page _ (leaf_page pte level va)⟩

theorem forceRaisePfRecord_ok (h : forceRaisePfRecord va type s = .ok b t) :
    t.pmem = s.pmem := by
  cases h
  rfl

theorem forceRaisePf_ok (h : forceRaisePf P va type s = .ok () t) : t.pmem = s.pmem := by
  obtain ⟨_, _, hget, h1⟩ := ok_of_bind h
  cases hget
  have hfault : ∀ {ex : Exc}, (forceRaisePfRecord va type >>= fun b =>
      if b then pure () else faultAt P ex va) s = .ok () t → t.pmem = s.pmem := by
    intro ex h2
    obtain ⟨b, u, hb, h3⟩ := ok_of_bind h2
    rw [← forceRaisePfRecord_ok hb]
    split at h3
    · cases h3
      rfl
    · exact absurd h3 faultAt_not_ok
  split at h1
  · split at h1
    · obtain ⟨b, u, hb, h2⟩ := ok_of_bind h1
      rw [← forceRaisePfRecord_ok hb]
      split at h2
      · cases h2
        rfl
      · split at h2
        · obtain ⟨_, _, -, h3⟩ := ok_of_bind h2
          cases h3
        · obtain ⟨_, _, -, h3⟩ := ok_of_bind h2
          cases h3
    split at h1
    · exact hfault h1
    split at h1
    · exact hfault h1
    · cases h1
      rfl
  · cases h1
    rfl

theorem isaMmuTranslate_ok (h : isaMmuTranslate P va .read s = .ok r t) :
    Marked P va s t.pmem ∧ r &&& pageMask = 0 := by
  obtain ⟨r', u, hp, h1⟩ := ok_of_bind h
  obtain ⟨hm, hr⟩ := ptw_ok hp
  split at h1
  · obtain ⟨_, _, hf, h2⟩ := ok_of_bind h1
    cases h2
    rw [forceRaisePf_ok hf]
    exact ⟨hm, hr⟩
  · cases h1
    exact ⟨hm, hr⟩

theorem vaddrMmuRead_ok (h : vaddrMmuRead P va len .read s = .ok x t) : Marked P va s t.pmem := by
  obtain ⟨r, u, ht, h1⟩ := ok_of_bind h
  obtain ⟨hm, hr⟩ := isaMmuTranslate_ok ht
  rw [if_pos hr] at h1
  obtain ⟨_, _, hget, h2⟩ := ok_of_bind h1
  cases hget
  rw [(paddrRead_ok h2).1]
  exact hm

theorem resolveMmuMode_same (h : resolveMmuMode P va len type m s = .ok m' t) : t = s := by
  cases m with
  | dynamic => exact (isaMmuCheck_ok h).1
  | direct | translate =>
    cases h
    rfl

theorem dasicsCheckBytes_same (h : dasicsCheckBytes P close cfg reason va len s = .ok () t) :
    t = s := by
  obtain ⟨_, _, hget, h1⟩ := ok_of_bind h
  cases hget
  cases hfind : (List.range len).find? (fun i =>
      !close && !dasicsMatchDlib s (va + BitVec.ofNat 64 i) cfg) with
  | some i =>
    rw [hfind] at h1
    exact absurd h1 dasicsFault_not_ok
  | none =>
    rw [hfind] at h1
    cases h1
    rfl

theorem dasicsLdstHelper_same (h : dasicsLdstHelper P pc va len type s = .ok () t) : t = s := by
  obtain ⟨_, _, hget, h1⟩ := ok_of_bind h
  cases hget
  split at h1
  · cases h1
    rfl
  · cases type with
    | read | write => exact dasicsCheckBytes_same h1
    | ifetch | ifetchRead | writeRead =>
      cases h1
      rfl

theorem isaMisalignDataAddrCheck_same (h : isaMisalignDataAddrCheck P va len type s = .ok () t) :
    t = s := by
  obtain ⟨_, _, hget, h1⟩ := ok_of_bind h
  cases hget
  split at h1
  · exact absurd h1 faultAt_not_ok
  · cases h1
    rfl

theorem vaddrCheck_same (h : vaddrCheck P (some pc) va len type s = .ok () t) : t = s := by
  have htail : ∀ {u}, (if P.dasics then dasicsLdstHelper P pc va len type else pure ()) u =
      .ok () t → t = u := by
    intro u hu
    split at hu
    · exact dasicsLdstHelper_same hu
    · cases hu
      rfl
  unfold vaddrCheck at h
  split at h
  · obtain ⟨_, _, hm, h1⟩ := ok_of_bind h
    obtain rfl := isaMisalignDataAddrCheck_same hm
    exact htail h1
  · exact htail h

/-- A completed read leaves memory as it is, but for the accessed bit of its page. -/
theorem vaddrRead_ok (h : vaddrRead P pc va len m s = .ok x t) : Marked P va s t.pmem := by
  obtain ⟨_, _, hc, h1⟩ := ok_of_bind h
  obtain rfl := vaddrCheck_same hc
  obtain ⟨m', _, hm, h2⟩ := ok_of_bind h1
  obtain rfl := resolveMmuMode_same hm
  split at h2
  · obtain ⟨_, _, hget, h3⟩ := ok_of_bind h2
    cases hget
    rw [(paddrRead_ok h3).1]
    exact .same
  · exact vaddrMmuRead_ok h2

end Nemu
