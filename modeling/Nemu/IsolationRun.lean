import Nemu.Isolation
import Nemu.PmemRange
import Nemu.PrivilegeRun

namespace Nemu

open Effect

set_option autoImplicit true

variable {P : Platform} {A : AddressSpace P} {rest : Word → BitVec 8} {s t : Machine} {d : Decode}

section Run

/-- The machine, in user mode or not, with the page tables of `A` in use. -/
structure AddressSpace.Installed (A : AddressSpace P) (s : Machine) : Prop where
  coherent : Coherent s
  even : EvenPc s
  satp : s.csr .satp = A.satp
  loaded : A.Loaded s

theorem AddressSpace.Installed.active (h : A.Installed s) (hm : s.mode = .U) : A.Active s where
  view := by
    have hprv : s.mprv = false := h.coherent.mprv (by rw [hm]; decide)
    have hsatp := h.satp
    have hmode : ∀ b, s.accessMode b = .U := by
      intro b
      unfold Machine.accessMode
      rw [hprv, hm]
      rfl
    have hstate : ∀ b, s.mmuState b = .translate := by
      intro b
      unfold Machine.mmuState Machine.satpMode
      rw [hmode, hsatp, if_pos ⟨by decide, A.translating⟩]
    unfold Machine.userView
    rw [hm, hprv, hsatp, h.coherent.ifetch, h.coherent.data, hstate, hstate]
  image := h.loaded

noncomputable def Cpu.beyond (vis : Set Word) (rest : Word → BitVec 8) (c : Cpu) : Cpu := ⟨c.phase, c.m.beyond vis rest⟩

open Classical in
theorem beyond_self (s : Machine) (vis : Set Word) : s.beyond vis s.pmem = s :=
  congrArg (fun m => ({ s with pmem := m } : Machine)) (Set.piecewise_same vis s.pmem)

open Classical in
/-- With the old memory put back outside `vis` nothing has changed there. -/
theorem pmem_of_beyond {vis : Set Word} {m : Word → BitVec 8} (h : t = t.beyond vis m) (hx : x ∉ vis) :
    t.pmem x = m x := by
  rw [h]
  exact Set.piecewise_eq_of_notMem _ _ _ hx

/-- What a step of user mode leaves behind, and what the step is with other memory. -/
structure AddressSpace.Stays (A : AddressSpace P) (s t : Machine) (twin : (Word → BitVec 8) → Prop) : Prop where
  loaded : A.Loaded t
  outside : ∀ x, x ∉ A.visible → t.pmem x = s.pmem x
  twin : ∀ rest, twin rest

theorem stays_ok {m : Exec α} (h : m s = .ok v t)
    (hm : ∀ rest, Match (fun s t => A.Loaded s ∧ t = s.beyond A.visible rest) (m s) (m (s.beyond A.visible rest))) :
    A.Stays s t fun rest => m (s.beyond A.visible rest) = .ok v (t.beyond A.visible rest) := by
  have hall : ∀ rest, A.Loaded t ∧ m (s.beyond A.visible rest) = .ok v (t.beyond A.visible rest) := by
    intro rest
    have hr := hm rest
    rw [h] at hr
    obtain ⟨_, hrun, hl, rfl⟩ := hr.of_ok
    exact ⟨hl, hrun⟩
  refine ⟨(hall s.pmem).1, fun x hx => ?_, fun rest => (hall rest).2⟩
  have hself := (hall s.pmem).2
  rw [beyond_self, h] at hself
  injection hself with _ ht
  exact pmem_of_beyond ht hx

theorem stays_error {m : Exec α} (h : m s = .error e t)
    (hm : ∀ rest, Match (fun s t => A.Loaded s ∧ t = s.beyond A.visible rest) (m s) (m (s.beyond A.visible rest))) :
    A.Stays s t fun rest => m (s.beyond A.visible rest) = .error e (t.beyond A.visible rest) := by
  have hall : ∀ rest, A.Loaded t ∧ m (s.beyond A.visible rest) = .error e (t.beyond A.visible rest) := by
    intro rest
    have hr := hm rest
    rw [h] at hr
    obtain ⟨_, hrun, hl, rfl⟩ := hr.of_error
    exact ⟨hl, hrun⟩
  refine ⟨(hall s.pmem).1, fun x hx => ?_, fun rest => (hall rest).2⟩
  have hself := (hall s.pmem).2
  rw [beyond_self, h] at hself
  injection hself with _ ht
  exact pmem_of_beyond ht hx

/-- A step of user mode, and the same step with other memory outside the address space. -/
theorem CpuStep.stays (hP : P.share = true) (hac : P.acSoft = true) (hv : ∀ d, (P.vector d).MemoryBlind)
    (h : CpuStep P a e b) (hm : a.m.mode = .U) (ha : A.Installed a.m) :
    A.Stays a.m b.m fun rest => CpuStep P (a.beyond A.visible rest) e (b.beyond A.visible rest) := by
  have hshare : ¬ P.share = false := by
    rw [hP]
    decide
  cases h with
  | instr h =>
    have hs := stays_ok h fun rest => executeStep_local hP hac hv (ha.active hm) ha.even.pc
    exact ⟨hs.loaded, hs.outside, fun rest => .instr (hs.twin rest)⟩
  | fault h =>
    have hs := stays_error h fun rest => executeStep_local hP hac hv (ha.active hm) ha.even.pc
    exact ⟨hs.loaded, hs.outside, fun rest => .fault (hs.twin rest)⟩
  | batchEnd => exact ⟨ha.loaded, fun _ _ => rfl, fun _ => .batchEnd⟩
  | @trap f s t h =>
    have hs := stays_ok h fun rest => handleException_local f s _ ⟨ha.loaded, rfl⟩
    exact ⟨hs.loaded, hs.outside, fun rest => .trap (hs.twin rest)⟩
  | intr hn _ _ _ => exact absurd hn hshare
  | noIntr hn => exact ⟨ha.loaded, fun _ _ => rfl, fun _ => .noIntr (.inl hP)⟩
  | alarm hn => exact absurd hn hshare

theorem CpuStep.installed (hP : P.share = true) (hac : P.acSoft = true) (hv : ∀ d, (P.vector d).MemoryBlind)
    (h : CpuStep P a e b) (hm : a.m.mode = .U) (ha : A.Installed a.m) : A.Installed b.m where
  coherent := by
    obtain hg | hg := h.guest
    · exact hg.coherent ha.coherent
    · rw [hg]
      exact ha.coherent
  even := by
    have hshare : ¬ P.share = false := by
      rw [hP]
      decide
    exact h.even ha.even fun _ _ _ _ => ⟨fun hn => absurd hn hshare, fun hn => absurd hn hshare⟩
  satp := by
    have hlow : a.m.mode.toNat < Csr.satp.level := by
      rw [hm]
      decide
    exact (h.steady rfl hlow).trans ha.satp
  loaded := (h.stays hP hac hv hm ha).loaded

/-- A run of user mode, to its first step outside: memory beyond the pages and page tables of the
address space is not changed, and it is not seen either, in that the same run takes place whatever
this memory holds. -/
theorem user_run_isolated (hP : P.share = true) (hac : P.acSoft = true) (hv : ∀ d, (P.vector d).MemoryBlind)
    (A : AddressSpace P) (h : Run (CpuStep P) a tr c) (ha : A.Installed a.m)
    (hmode : ∀ x ∈ tr, x.source.m.mode = .U) :
    (∀ x ∉ A.visible, c.m.pmem x = a.m.pmem x) ∧
      ∀ rest, ∃ tr', Run (CpuStep P) (a.beyond A.visible rest) tr' (c.beyond A.visible rest) ∧
        List.Forall₂ (Run.Twin fun c c' => c' = c.beyond A.visible rest) tr tr' := by
  constructor
  · have hinv := h.invariant (I := fun c => A.Installed c.m ∧ ∀ x ∉ A.visible, c.m.pmem x = a.m.pmem x)
      hmode ⟨ha, fun _ _ => rfl⟩ fun x hx hs hI =>
        ⟨hs.installed hP hac hv hx hI.1, fun y hy => ((hs.stays hP hac hv hx hI.1).outside y hy).trans (hI.2 y hy)⟩
    exact hinv.2
  · intro rest
    have hinst := h.invariant_mem (I := fun c => A.Installed c.m) hmode ha fun x hx hs hI =>
      hs.installed hP hac hv hx hI
    obtain ⟨tr', c', hr, rfl, htwin⟩ := h.simulate (R := fun c c' => c' = c.beyond A.visible rest) rfl
      fun x hx hs s' hs' => by
        rw [hs']
        exact ⟨_, (hs.stays hP hac hv (hmode x hx) (hinst x hx).1).twin rest, rfl⟩
    exact ⟨tr', hr, htwin⟩

end Run

section Example

/-- The byte of an entry, by its place in the entry. -/
def entryByte (e : Word) (a : Word) : BitVec 8 := e.extractLsb' (8 * (a.toNat % 8)) 8

/-- A root table all of whose entries lead to a second table, all of whose entries map one 2 MiB page
for the user, with a program at its start. -/
def onePage (instrs : List (BitVec 32)) (a : Word) : BitVec 8 :=
  if a.toNat / 4096 = 0x80000 then entryByte 0x20000401 a
  else if a.toNat / 4096 = 0x80001 then entryByte 0x200800df a
  else program 0x80200000 instrs a

theorem vpn_lt (va : Word) (level : Nat) : (vpn va level).toNat < 512 := by
  unfold vpn
  rw [BitVec.toNat_and]
  exact Nat.lt_of_le_of_lt Nat.and_le_right (by decide)

theorem entry_place {base : Word} (hb : base.toNat % 4096 = 0) (hmax : base.toNat < 2 ^ 40) (va : Word) (level : Nat)
    (hi : i < 8) :
    (base + vpn va level * 8 + BitVec.ofNat 64 i).toNat / 4096 = base.toNat / 4096 ∧
      (base + vpn va level * 8 + BitVec.ofNat 64 i).toNat % 8 = i := by
  have hv := vpn_lt va level
  have h8 : (8 : Word).toNat = 8 := rfl
  rw [BitVec.toNat_add, BitVec.toNat_add, BitVec.toNat_mul, BitVec.toNat_ofNat, h8]
  omega

theorem entry_value {base e : Word} {m : Word → BitVec 8} (hb : base.toNat % 4096 = 0) (hmax : base.toNat < 2 ^ 40)
    (hm : ∀ a : Word, a.toNat / 4096 = base.toNat / 4096 → m a = entryByte e a) (va : Word) (level : Nat) :
    Bytes.readLE 64 m (base + vpn va level * 8) 8 = Bytes.readLE 64 (entryByte e) 0 8 := by
  apply Bytes.readLE_congr
  intro i hi
  obtain ⟨hpage, hmod⟩ := entry_place hb hmax va level hi
  have hplace : (0 + BitVec.ofNat 64 i : Word).toNat % 8 = i := by
    rw [BitVec.toNat_add, BitVec.toNat_ofNat]
    change (0 + i % 2 ^ 64) % 2 ^ 64 % 8 = i
    omega
  rw [hm _ hpage]
  unfold entryByte
  rw [hmod, hplace]

theorem onePage_root (instrs : List (BitVec 32)) (va : Word) :
    Bytes.readLE 64 (onePage instrs) (0x80000000 + vpn va 2 * 8) 8 = 0x20000401 := by
  rw [entry_value (e := 0x20000401) (by decide) (by decide) (fun a ha => ?_) va 2]
  · decide
  · exact if_pos (ha.trans (by decide))

theorem onePage_next (instrs : List (BitVec 32)) (va : Word) :
    Bytes.readLE 64 (onePage instrs) (0x80001000 + vpn va 1 * 8) 8 = 0x200800df := by
  rw [entry_value (e := 0x200800df) (by decide) (by decide) (fun a ha => ?_) va 1]
  · decide
  · have hpage : a.toNat / 4096 = 0x80001 := ha.trans (by decide)
    unfold onePage
    rw [hpage]
    rfl

/-- The two pages of the tables. -/
def tablePages : Set Word := {a | a.toNat / 4096 = 0x80000 ∨ a.toNat / 4096 = 0x80001}

theorem tablePages_inPmem {a : Word} (h : a ∈ tablePages) : inPmem (.bare .reference) a = true := by
  have hiff := (inPmem_exact_iff (P := Platform.bare .reference) (by decide) (by decide) a).mpr (.inl (by decide))
  refine hiff.mpr ⟨?_, ?_⟩
  · change 0x80000000 ≤ a.toNat
    rcases h with h | h <;> omega
  · change a.toNat < 0x88000000
    rcases h with h | h <;> omega

theorem entry_tablePages {base : Word} (hb : base.toNat % 4096 = 0) (hmax : base.toNat < 2 ^ 40)
    (hbase : base ∈ tablePages) (va : Word) (level : Nat) (hi : i < 8) :
    base + vpn va level * 8 + BitVec.ofNat 64 i ∈ tablePages := by
  have hpage := (entry_place hb hmax va level hi).1
  rcases hbase with h | h
  · exact .inl (hpage.trans h)
  · exact .inr (hpage.trans h)

theorem entry_inPmem (base : Word) (hb : base.toNat % 4096 = 0) (hmax : base.toNat < 2 ^ 40)
    (hbase : base ∈ tablePages) (va : Word) (level : Nat) :
    inPmem (.bare .reference) ((Platform.bare .reference).paddr (base + vpn va level * 8)) = true := by
  have hmem := entry_tablePages hb hmax hbase va level (by decide : 0 < 8)
  rw [BitVec.add_zero] at hmem
  exact tablePages_inPmem hmem

theorem onePage_walk (instrs : List (BitVec 32)) (va : Word) :
    walkLoop (.bare .reference) (onePage instrs) va 2 0x80000000 =
      some (.leaf 1 (0x80001000 + vpn va 1 * 8) ⟨0x200800df⟩) := by
  have hp : ∀ a : Word, (Platform.bare .reference).paddr a = a := fun _ => rfl
  have hin0 := entry_inPmem 0x80000000 (by decide) (by decide) (.inl (by decide)) va 2
  have hin1 := entry_inPmem 0x80001000 (by decide) (by decide) (.inr (by decide)) va 1
  unfold walkLoop
  dsimp only
  rw [if_pos hin0, hp, onePage_root]
  change walkLoop (.bare .reference) (onePage instrs) va 1 0x80001000 = _
  unfold walkLoop
  dsimp only
  rw [if_pos hin1, hp, onePage_next]
  rfl

theorem onePage_entries (instrs : List (BitVec 32)) (va : Word) :
    EntriesIn (.bare .reference) (onePage instrs) tablePages va 2 0x80000000 := by
  have hp : ∀ a : Word, (Platform.bare .reference).paddr a = a := fun _ => rfl
  have hroot : (0x80000000 : Word) ∈ tablePages := .inl (by decide)
  have hnext : (0x80001000 : Word) ∈ tablePages := .inr (by decide)
  unfold EntriesIn
  refine ⟨entry_inPmem _ (by decide) (by decide) hroot va 2,
    fun i hi => entry_tablePages (by decide) (by decide) hroot va 2 hi, ?_⟩
  rw [hp, onePage_root]
  intro _ _
  change EntriesIn (.bare .reference) (onePage instrs) tablePages va 1 0x80001000
  unfold EntriesIn
  refine ⟨entry_inPmem _ (by decide) (by decide) hnext va 1,
    fun i hi => entry_tablePages (by decide) (by decide) hnext va 1 hi, ?_⟩
  rw [hp, onePage_next]
  intro _ hleaf
  exact absurd hleaf (by decide)

theorem onePage_frame (va : Word) :
    (frame (.bare .reference) 1 ⟨0x200800df⟩ va ||| (va &&& pageMask)).toNat / 2 ^ 21 = 0x401 := by
  have hshift : (frame (.bare .reference) 1 ⟨0x200800df⟩ va ||| (va &&& pageMask)) >>> 21 = (0x401 : Word) := by
    have hframe : frame (.bare .reference) 1 ⟨0x200800df⟩ va =
        0x80200000 ||| (va &&& 0x1fffff &&& ~~~0xfff) := rfl
    have h0 : (0x1fffff : Word) >>> 21 = 0#64 := by decide
    have h1 : pageMask >>> 21 = 0#64 := by decide
    rw [hframe, BitVec.ushiftRight_or_distrib, BitVec.ushiftRight_or_distrib, BitVec.ushiftRight_and_distrib,
      BitVec.ushiftRight_and_distrib, BitVec.ushiftRight_and_distrib, h0, h1, BitVec.and_zero, BitVec.zero_and]
    decide
  have hnat := congrArg BitVec.toNat hshift
  rwa [BitVec.toNat_ushiftRight, Nat.shiftRight_eq_div_pow] at hnat

/-- The address space of the one page. -/
def onePageSpace (instrs : List (BitVec 32)) : AddressSpace (.bare .reference) where
  satp := 0x8000000000080000
  image := onePage instrs
  tables := tablePages
  pages := {a | a.toNat / 2 ^ 21 = 0x401}
  translating := by decide
  entries va _ := onePage_entries instrs va
  mapped va level pPte pte hwalk _ := by
    cases (onePage_walk instrs va).symm.trans hwalk
    exact onePage_frame va
  guarded va level pPte pte hwalk _ _ := by
    cases (onePage_walk instrs va).symm.trans hwalk
    have hplace := onePage_frame va
    rintro (h | h) <;> omega

/-- The program in user mode, at the start of its page. -/
def onePageUser (instrs : List (BitVec 32)) : Machine :=
  { ((((Machine.reset (.bare .reference) (onePage instrs)).setCsr (.pmpcfg 0) 0x1f).setCsr (.pmpaddr 0)
      0x3fffffffff).setCsr .satp 0x8000000000080000) with
    mode := .U, pc := 0, ifetchMmuState := .translate, dataMmuState := .translate }

theorem onePageUser_installed (instrs : List (BitVec 32)) :
    (onePageSpace instrs).Installed (onePageUser instrs) where
  coherent := by
    have hprv : (onePageUser instrs).mprv = false :=
      show (0xa <<< 32 : Word).getLsbD 17 = false by decide
    have hsatp : (onePageUser instrs).satpMode = 8 :=
      show (0x8000000000080000 : Word).extractLsb' 60 4 = 8 by decide
    have hmode : ∀ b, (onePageUser instrs).mmuState b = .translate := by
      intro b
      unfold Machine.mmuState Machine.accessMode
      rw [hprv]
      exact if_pos ⟨show Mode.U < .M by decide, hsatp⟩
    refine ⟨⟨fun _ => hprv, .inr hsatp, ?_⟩, (hmode true).symm, (hmode false).symm⟩
    show (0 : BitVec 32) = ((0 : Word).extractLsb' 5 3).setWidth 32
    decide
  even := by
    have h0 : IsEven 0 := by decide
    exact ⟨h0, h0, h0, fun l => by cases l <;> exact h0, rfl⟩
  satp := rfl
  loaded _ _ := rfl

/-- A store by the user. -/
theorem user_run_isolated_store : ∃ tr t,
    Run (CpuStep (.bare .reference)) ⟨.run, onePageUser [0x00003423]⟩ tr t ∧ t.m.pc = 4 ∧
      (∀ x ∉ (onePageSpace [0x00003423]).visible, t.m.pmem x = onePage [0x00003423] x) ∧
      ∀ rest, ∃ tr', Run (CpuStep (.bare .reference))
        (Cpu.beyond (onePageSpace [0x00003423]).visible rest ⟨.run, onePageUser [0x00003423]⟩) tr'
        (t.beyond (onePageSpace [0x00003423]).visible rest) := by
  have hstep : ∃ d t, executeStep (.bare .reference) (onePageUser [0x00003423]) = .ok d t ∧ t.pc = 4 :=
    ⟨_, _, rfl, rfl⟩
  obtain ⟨d, t, hok, hpc⟩ := hstep
  have hrun : Run (CpuStep (.bare .reference)) ⟨.run, onePageUser [0x00003423]⟩ _ ⟨.run, t⟩ :=
    .cons (.instr hok) .nil
  have h := user_run_isolated (P := .bare .reference) rfl rfl (fun _ => trivial) (onePageSpace [0x00003423]) hrun
    (onePageUser_installed _) fun x hx => by
      cases List.mem_singleton.mp hx
      rfl
  exact ⟨_, _, hrun, hpc, h.1, fun rest => (h.2 rest).imp fun _ h => h.1⟩

end Example

end Nemu
