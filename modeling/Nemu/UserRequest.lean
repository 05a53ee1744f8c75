import Nemu.UserRun

namespace Nemu

open Ring

set_option autoImplicit true

variable {σ : Type} {H : Host σ} {s t : UserState σ} {ps : List VmaPtr} {p q : VmaPtr} {addr length a n : Word}
  {prot flags fd : BitVec 32} {offset : Word}

section Spec

/-- A page-aligned, nonempty range between address 0 and the kernel. -/
structure FixedRange (addr length : Word) : Prop where
  aligned : addr.toNat % 4096 = 0 ∧ length.toNat % 4096 = 0
  nonempty : length ≠ 0
  low : addr ≠ 0
  high : addr.toNat + length.toNat ≤ 0xc0000000

/-- The host has memory for a node, and maps what it is asked for. -/
structure Host.Grants (H : Host σ) (s : UserState σ) (v : Vma) : Prop where
  malloc : ∃ p, H.malloc s.os s.live = some p
  mmap : (H.mmap s.os s.mem v).1 = v.addr

/-- The mapping at `a` is what a call for `n` bytes there finds, and `user_munmap` takes exactly its pages away. -/
def ReleaseExact (H : Host σ) (s : UserState σ) (a n : Word) : Prop :=
  ∃ p ∈ s.entries, (s.vma p).addr = a ∧ (s.vma p).length ≠ 0 ∧ vmaListFindFixArea s a n = .ok (some p) ∧
    ((H.munmap s.os s.mem a n).1 = 0 → ∃ t, userMunmap H s a n = .ok (0, t) ∧
      (∀ x, (∃ q ∈ t.entries, t.Covers q x) ↔ (∃ q ∈ s.entries, s.Covers q x) ∧ ¬ s.Covers p x) ∧
      ∀ x : Word, ¬ s.Covers p x.toNat → t.mem x = s.mem x)

end Spec

section Fixed

/-- `dyn_start` lies in the range. -/
def AroundDyn (addr length : Word) : Prop := addr.toNat ≤ 0x80000000 ∧ 0x80000000 < addr.toNat + length.toNat

theorem FixedRange.end_word (hr : FixedRange addr length) : (addr + length).toNat = addr.toNat + length.toNat := by
  have hb := hr.high
  rw [BitVec.toNat_add]
  exact Nat.mod_eq_of_lt (by omega)

theorem toNat_pos {x : Word} (h : x ≠ 0) : 0 < x.toNat := Nat.pos_of_ne_zero fun h0 => h (BitVec.eq_of_toNat_eq h0)

theorem Listed.toNat_dyn (h : Listed s ps) : (s.vma s.dynStart).addr.toNat = 0x80000000 := by
  rw [h.dyn.2.1]
  rfl

/-- A node at an address of the range is `dyn_start`, and no other node overlaps the range. -/
theorem Listed.overlaps_iff (h : Listed s ps) (hr : FixedRange addr length) (hclear : s.Clear addr length) :
    (∃ p ∈ ps, s.Overlaps addr length p) ↔ addr.toNat < 0x80000000 ∧ 0x80000000 < addr.toNat + length.toNat := by
  have hdyn := h.toNat_dyn
  have hover : ∀ p ∈ ps, s.Overlaps addr length p ↔ (s.vma p).addr.toNat < addr.toNat + length.toNat ∧
      addr.toNat < s.endOf p := by
    intro p hp
    unfold UserState.Overlaps
    rw [BitVec.le_def, BitVec.le_def, hr.end_word, h.end_word hp, not_or, not_le, not_le]
  constructor
  · intro ⟨p, hp, hov⟩
    rw [hover p hp] at hov
    by_cases hp0 : (s.vma p).length = 0
    · have hend : s.endOf p = (s.vma p).addr.toNat := by
        unfold UserState.endOf
        rw [hp0]
        rfl
      rw [hend] at hov
      obtain ⟨z, _, hz, _, hempty⟩ := h.first
      rcases hempty p hp hp0 with rfl | rfl
      · rw [hz] at hov
        exact absurd hov.2 (Nat.not_lt_zero _)
      · rw [hdyn] at hov
        exact ⟨hov.2, hov.1⟩
    · -- the first common address is in both
      have hpos := toNat_pos hp0
      have hcov : s.Covers p (max addr.toNat (s.vma p).addr.toNat) := by
        unfold UserState.Covers UserState.endOf at *
        omega
      have hpos' := toNat_pos hr.nonempty
      exact absurd ⟨Nat.le_max_left _ _, by omega⟩ (hclear p (h.entries_eq.symm ▸ hp) _ hcov)
  · intro ⟨hlow, hhigh⟩
    refine ⟨s.dynStart, h.dyn.1, ?_⟩
    rw [hover _ h.dyn.1, h.endOf_dyn, hdyn]
    exact ⟨hhigh, hlow⟩

theorem Listed.of_precedes (h : Listed s ps) (hp : p ∈ ps) (hprec : s.Precedes addr p) :
    addr.toNat ≠ 0x80000000 ∧ ∃ q ∈ ps, addr < (s.vma q).addr := by
  obtain ⟨hlt, hnext⟩ := hprec
  have hdyn := h.toNat_dyn
  rw [BitVec.lt_def] at hlt
  obtain ⟨l₁, l₂, rfl⟩ := List.append_of_mem hp
  cases l₂ with
  | nil =>
    rw [h.next_last, h.head] at hnext
    exact absurd hnext BitVec.not_lt_zero
  | cons q l₂ =>
    rw [h.next_cons] at hnext
    refine ⟨fun heq => ?_, q, by simp, hnext⟩
    rw [BitVec.lt_def] at hnext
    have hassoc : l₁ ++ p :: q :: l₂ = (l₁ ++ [p]) ++ q :: l₂ := by simp
    have hmem := h.dyn.1
    have h' := h
    rw [hassoc] at h' hmem
    -- up to `p` the nodes are below the address, from `q` on they are above it
    rcases List.mem_append.mp hmem with hmem | hmem
    · rcases List.mem_append.mp hmem with hmem | hmem
      · have hle := h.around.1 _ hmem
        rw [h.endOf_dyn] at hle
        omega
      · rw [List.mem_singleton.mp hmem] at hdyn
        omega
    · rcases List.mem_cons.mp hmem with hmem | hmem
      · rw [hmem] at hdyn
        omega
      · have hle := (addr_le_endOf s q).trans (h'.around.2 _ hmem)
        omega

/-- Two neighbours around an address. -/
theorem Listed.bracket (h : Listed s ps) (hex : ∃ q ∈ ps, addr < (s.vma q).addr) :
    ∃ l₁ p q l₂, ps = l₁ ++ p :: q :: l₂ ∧ (s.vma p).addr ≤ addr ∧ addr < (s.vma q).addr := by
  obtain ⟨q, hq, hlt⟩ := hex
  obtain ⟨z, hz, hz0, _⟩ := h.first
  have hsome : (ps.find? fun q => decide (addr < (s.vma q).addr)).isSome = true :=
    List.find?_isSome.mpr ⟨q, hq, decide_eq_true hlt⟩
  obtain ⟨q, hfind⟩ := Option.isSome_iff_exists.mp hsome
  obtain ⟨hlt, l₁, l₂, rfl, hfirst⟩ := List.find?_eq_some_iff_append.mp hfind
  have hlt := of_decide_eq_true hlt
  have hzmem : z ∈ l₁ := by
    have hz0' : (s.vma z).addr.toNat = 0 := by
      rw [hz0]
      rfl
    rw [BitVec.lt_def] at hlt
    rcases List.mem_append.mp hz with hz | hz
    · exact hz
    rcases List.mem_cons.mp hz with rfl | hz
    · omega
    · have hle := (addr_le_endOf s q).trans (h.around.2 z hz)
      omega
  rcases List.eq_nil_or_concat' l₁ with rfl | ⟨l₁, p, rfl⟩
  · exact absurd hzmem List.not_mem_nil
  · have hnot := hfirst p (by simp)
    rw [Bool.not_eq_true', decide_eq_false_iff_not, BitVec.not_lt] at hnot
    exact ⟨l₁, p, q, l₂, by simp, hnot, hlt⟩

theorem Listed.precedes_iff (h : Listed s ps) (hr : FixedRange addr length) (hclear : s.Clear addr length) :
    (∃ p ∈ ps, s.Precedes addr p) ↔ addr.toNat ≠ 0x80000000 ∧ ∃ q ∈ ps, addr < (s.vma q).addr := by
  constructor
  · intro ⟨p, hp, hprec⟩
    exact h.of_precedes hp hprec
  · intro ⟨hne, hex⟩
    obtain ⟨l₁, p, q, l₂, rfl, hle, hlt⟩ := h.bracket hex
    have hmem : p ∈ l₁ ++ p :: q :: l₂ := by simp
    obtain ⟨z, _, hz0, _, hempty⟩ := h.first
    refine ⟨p, hmem, ?_, h.next_cons.symm ▸ hlt⟩
    rw [BitVec.lt_def]
    apply lt_of_le_of_ne (BitVec.le_def.mp hle)
    intro heq
    by_cases hp0 : (s.vma p).length = 0
    · rcases hempty p hmem hp0 with rfl | rfl
      · rw [hz0] at heq
        exact absurd heq (toNat_pos hr.low).ne
      · exact hne (heq.symm.trans h.toNat_dyn)
    · have hpos := toNat_pos hp0
      have hpos' := toNat_pos hr.nonempty
      have hcov : s.Covers p addr.toNat := by
        unfold UserState.Covers UserState.endOf
        omega
      exact hclear p (h.entries_eq.symm ▸ hmem) _ hcov ⟨Nat.le_refl _, by omega⟩

theorem Listed.newFix_iff (h : Listed s ps) (hr : FixedRange addr length) (hclear : s.Clear addr length) :
    (∃ left, vmaListNewFixArea s addr length = .ok (some left)) ↔
      ¬ AroundDyn addr length ∧ ∃ q ∈ ps, addr < (s.vma q).addr := by
  have hpos := toNat_pos hr.nonempty
  have hover := h.overlaps_iff hr hclear
  have hprec := h.precedes_iff hr hclear
  rw [h.newFix]
  by_cases hex : ∃ p ∈ ps, s.Overlaps addr length p
  · rw [if_pos hex]
    constructor
    · intro ⟨left, hleft⟩
      cases hleft
    · intro ⟨hnot, _⟩
      have hin := hover.mp hex
      exact absurd ⟨hin.1.le, hin.2⟩ hnot
  · rw [if_neg hex]
    rw [hover] at hex
    have hcond : (¬ AroundDyn addr length ∧ ∃ q ∈ ps, addr < (s.vma q).addr) ↔ ∃ p ∈ ps, s.Precedes addr p := by
      rw [hprec]
      unfold AroundDyn
      exact and_congr_left fun _ => by omega
    rw [hcond]
    cases hfind : ps.reverse.find? fun p => decide (s.Precedes addr p) with
    | none =>
      constructor
      · intro ⟨left, hleft⟩
        cases hleft
      · intro ⟨p, hp, hpp⟩
        have hnone := List.find?_eq_none.mp hfind p (List.mem_reverse.mpr hp)
        exact absurd (decide_eq_true hpp) hnone
    | some left =>
      constructor
      · intro _
        have hpp : s.Precedes addr left := of_decide_eq_true (List.find?_some (p := fun p => decide (s.Precedes addr p)) hfind)
        exact ⟨left, List.mem_reverse.mp (List.mem_of_find?_eq_some hfind), hpp⟩
      · exact fun _ => ⟨left, rfl⟩

theorem userMmap_fixed_iff (hflags : flags &&& mapFixed ≠ 0) (hr : FixedRange addr length)
    (hgrants : H.Grants s ⟨addr, length, prot, flags, fd, offset⟩) :
    (∃ t, userMmap H s addr length prot flags fd offset = .ok (addr, t)) ↔
      ∃ left, vmaListNewFixArea s addr length = .ok (some left) := by
  obtain ⟨⟨new, hnew⟩, hmmap⟩ := hgrants
  unfold userMmap userPlace
  rw [roundup4096_of_mod hr.aligned.2, if_pos hflags]
  cases hfix : vmaListNewFixArea s addr length with
  | error e =>
    constructor
    · intro ⟨t, ht⟩
      cases ht
    · intro ⟨left, hleft⟩
      cases hleft
  | ok o =>
    cases o with
    | none =>
      constructor
      · intro ⟨t, ht⟩
        cases ht
      · intro ⟨left, hleft⟩
        cases hleft
    | some left =>
      refine ⟨fun _ => ⟨left, rfl⟩, fun _ => ?_⟩
      dsimp only [bind, Except.bind, pure, Except.pure]
      unfold userInsert vmaNew
      rw [hnew]
      dsimp only [bind, Except.bind, pure, Except.pure, vmaListAddAfter]
      rw [if_neg fun hc => hc.2 hmmap, hmmap]
      exact ⟨_, rfl⟩

end Fixed

section Release

theorem Listed.find_self (h : Listed s ps) (hp : p ∈ ps) (hp0 : (s.vma p).length ≠ 0) :
    vmaListFindFixArea s (s.vma p).addr (s.vma p).length = .ok (some p) := by
  cases hfind : ps.find? fun q => decide ((s.vma q).addr = (s.vma p).addr ∧ (s.vma q).length = (s.vma p).length) with
  | none =>
    have hnone := List.find?_eq_none.mp hfind p hp
    exact absurd (decide_eq_true ⟨rfl, rfl⟩) hnone
  | some q =>
    have hok : vmaListFindFixArea s (s.vma p).addr (s.vma p).length = .ok (some q) := by rw [h.find, hfind]
    obtain ⟨hq, haddr, hlen⟩ := h.find_some hok
    have hqp : q = p := h.eq_of_addr hq hp (hlen ▸ hp0) hp0 haddr
    rw [hok, hqp]

theorem Unmapped.pages (hu : Unmapped s t ps a n p) (h : Listed s ps) (x : Nat) :
    (∃ q ∈ t.entries, t.Covers q x) ↔ (∃ q ∈ s.entries, s.Covers q x) ∧ ¬ s.Covers p x := by
  obtain ⟨l₁, l₂, rfl, hlisted⟩ := hu.removed
  have hcov : ∀ q, t.Covers q x ↔ s.Covers q x := by
    intro q
    unfold UserState.Covers UserState.endOf
    rw [hu.data]
  have hnodup := (List.nodup_cons.mp h.nodup).2
  have hmem : ∀ q, q ∈ l₁ ++ l₂ ↔ q ∈ l₁ ++ p :: l₂ ∧ q ≠ p := by
    intro q
    rw [List.nodup_append, List.nodup_cons] at hnodup
    obtain ⟨_, ⟨hp2, _⟩, hdisj⟩ := hnodup
    have h1 : q ∈ l₁ → q ≠ p := fun hq hqp => hdisj q hq p List.mem_cons_self hqp
    have h2 : q ∈ l₂ → q ≠ p := fun hq hqp => hp2 (hqp ▸ hq)
    simp only [List.mem_append, List.mem_cons]
    tauto
  rw [hlisted.entries_eq, h.entries_eq]
  constructor
  · intro ⟨q, hq, hx⟩
    rw [hcov] at hx
    obtain ⟨hq, hne⟩ := (hmem q).mp hq
    refine ⟨⟨q, hq, hx⟩, fun hpx => ?_⟩
    have hd := h.disjoint hq (by simp) hne
    unfold UserState.Covers at hx hpx
    omega
  · intro ⟨⟨q, hq, hx⟩, hpx⟩
    have hne : q ≠ p := fun hqp => hpx (hqp ▸ hx)
    exact ⟨q, (hmem q).mpr ⟨hq, hne⟩, (hcov q).mpr hx⟩

/-- A release asks for the length that `user_mmap` was called with, the node has the rounded one. -/
theorem releaseExact_iff (hH : H.Lawful) (h : Listed s s.entries) (hp : p ∈ s.entries) (haddr : (s.vma p).addr = a)
    (hlen : (s.vma p).length = roundup4096 n) (hp0 : (s.vma p).length ≠ 0) :
      ReleaseExact H s a n ↔ n.toNat % 4096 = 0 := by
  constructor
  · intro ⟨q, hq, _, _, hfind, _⟩
    obtain ⟨_, _, hqlen⟩ := h.find_some hfind
    rw [← hqlen]
    exact (h.aligned q hq).2
  · intro hmod
    rw [roundup4096_of_mod hmod] at hlen
    have hfind := h.find_self hp hp0
    rw [haddr, hlen] at hfind
    refine ⟨p, hp, haddr, hp0, hfind, fun hret => ?_⟩
    have hok : ∃ t, userMunmap H s a n = .ok (0, t) := by
      unfold userMunmap
      rw [hfind]
      dsimp only [bind, Except.bind, pure, Except.pure]
      rw [if_neg (not_not.mpr hret), hret]
      exact ⟨_, rfl⟩
    obtain ⟨t, ht⟩ := hok
    obtain ⟨q, hu⟩ := userMunmap_spec hH h ht
    have hqp : q = p := by
      obtain ⟨l₁, l₂, hcut, _⟩ := hu.removed
      have hq : q ∈ s.entries := by
        rw [hcut]
        simp
      exact h.eq_of_addr hq hp (hu.range.2 ▸ hu.nonempty) hp0 (hu.range.1.trans haddr.symm)
    rw [hqp] at hu
    refine ⟨t, ht, hu.pages h, fun x hx => hu.frame x fun hin => hx ?_⟩
    have hb := h.bounded p hp
    unfold UserState.Covers UserState.endOf at *
    rw [haddr, hlen] at *
    by_contra hout
    exact not_in_range hb (by omega) hin

end Release

section Runs

variable {r r' : UserRun σ} {tr : List (Transition (UserRun σ) UserCall)}

/-- A run keeps the list, and a mapping that no call names. -/
theorem UserRun.run_keeps (hH : H.Lawful) (hrun : Run (UserRun.step H) r tr r') (h : Listed r.state r.state.entries) :
    Listed r'.state r'.state.entries ∧ ∀ p ∈ r.state.entries,
      (∀ x ∈ tr, ¬ x.label.Names (r.state.vma p).addr) → p ∈ r'.state.entries ∧ r'.state.vma p = r.state.vma p := by
  induction hrun with
  | nil => exact ⟨h, fun p hp _ => ⟨hp, rfl⟩⟩
  | cons hs _ ih =>
    obtain ⟨hl, hkeeps⟩ := UserRun.step_keeps hH h hs
    obtain ⟨hl', hkeeps'⟩ := ih hl
    refine ⟨hl', fun p hp hnames => ?_⟩
    obtain ⟨hp', hvma⟩ := hkeeps p hp (hnames _ List.mem_cons_self)
    obtain ⟨hp'', hvma'⟩ := hkeeps' p hp' fun x hx => hvma ▸ hnames x (List.mem_cons_of_mem _ hx)
    exact ⟨hp'', hvma'.trans hvma⟩

/-- Requests and releases in a state that a run from `init_mem` reaches. -/
theorem user_requests_iff (H : Host σ) (hH : H.Lawful) (os : σ) (mem : UserMem) (s : UserState σ)
    (hinit : initMem H os mem = .ok s) (tr : List (Transition (UserRun σ) UserCall)) (r : UserRun σ)
    (hrun : Run (UserRun.step H) ⟨s, []⟩ tr r) :
    (∀ addr length prot flags fd offset, flags &&& mapFixed ≠ 0 → FixedRange addr length → r.state.Clear addr length →
      H.Grants r.state ⟨addr, length, prot, flags, fd, offset⟩ →
      ((∃ t, userMmap H r.state addr length prot flags fd offset = .ok (addr, t)) ↔
        ¬ AroundDyn addr length ∧ ∃ q ∈ r.state.entries, addr < (r.state.vma q).addr)) ∧
    ∀ tr₁ x tr₂ addr n prot flags fd offset a, tr = tr₁ ++ x :: tr₂ → x.label = .mmap addr n prot flags fd offset →
      x.label.run H x.source.state = .ok (a, x.target.state) → (∀ y ∈ tr₂, ¬ y.label.Names a) →
      (ReleaseExact H r.state a n ↔ n.toNat % 4096 = 0) := by
  obtain ⟨z, k, hlisted⟩ := initMem_listed hinit
  constructor
  · intro addr length prot flags fd offset hflags hr hclear hgrants
    obtain ⟨hl, _⟩ := UserRun.run_keeps hH hrun hlisted.to_entries
    rw [userMmap_fixed_iff hflags hr hgrants]
    exact hl.newFix_iff hr hclear
  · intro tr₁ x tr₂ addr n prot flags fd offset a htr hlabel hok hnames
    rw [htr] at hrun
    obtain ⟨hrun₁, _, hrun₂⟩ := hrun.split
    obtain ⟨hl, _⟩ := UserRun.run_keeps hH hrun₁ hlisted.to_entries
    rw [hlabel] at hok
    obtain ⟨l₁, left, l₂, new, v, heq, hins, rfl, hlen, _⟩ := (userMmap_spec hH hl hok).inserted
    have hnew : new ∈ x.target.state.entries := by
      rw [hins.listed.entries_eq]
      simp
    obtain ⟨hl', hkeeps⟩ := UserRun.run_keeps hH hrun₂ hins.listed.to_entries
    obtain ⟨hmem, hvma⟩ := hkeeps new hnew fun y hy => hins.data.symm ▸ hnames y hy
    rw [hins.data] at hvma
    apply releaseExact_iff hH hl' hmem
    · rw [hvma]
    · rw [hvma]
      exact hlen
    · rw [hvma]
      exact hins.nonempty

theorem UserState.Clear.of_apart (h : ∀ p ∈ s.entries, s.endOf p ≤ addr.toNat ∨
    addr.toNat + length.toNat ≤ (s.vma p).addr.toNat) : s.Clear addr length := by
  intro p hp x hx hin
  have hd := h p hp
  unfold UserState.Covers at hx
  omega

/-- A mapping of one page is made and found, and a page is granted at an address asked for. -/
theorem user_requests_iff_page : ∃ s r, initMem plainHost () (fun _ => 0) = .ok s ∧
    Run (UserRun.step plainHost) ⟨s, []⟩ [⟨⟨s, []⟩, .mmap 0 0x1000 3 0x22 (-1) 0, r⟩] r ∧
      ReleaseExact plainHost r.state 0x80000000 0x1000 ∧
      ∃ t, userMmap plainHost r.state 0x10000 0x1000 3 0x32 (-1) 0 = .ok (0x10000, t) := by
  let r : UserRun Unit := UserRun.after ⟨plainInit, []⟩ (.mmap 0 0x1000 3 0x22 (-1) 0)
  have hstep := UserRun.after_run (r := ⟨plainInit, []⟩) (c := .mmap 0 0x1000 3 0x22 (-1) 0) 0x80000000 (by decide +kernel)
  have hrun : Run (UserRun.step plainHost) ⟨plainInit, []⟩ [⟨⟨plainInit, []⟩, .mmap 0 0x1000 3 0x22 (-1) 0, r⟩] r :=
    .cons hstep.2 .nil
  obtain ⟨hfixed, hrelease⟩ := user_requests_iff plainHost plainHost_lawful () (fun _ => 0) plainInit rfl _ r hrun
  refine ⟨plainInit, r, rfl, hrun, ?_, ?_⟩
  · have hiff := hrelease [] _ [] 0 0x1000 3 0x22 (-1) 0 0x80000000 rfl rfl hstep.1 fun y hy => absurd hy List.not_mem_nil
    exact hiff.mpr (by decide)
  · have hiff := hfixed 0x10000 0x1000 3 0x32 (-1) 0 (by decide) ⟨by decide, by decide, by decide, by decide⟩
      (.of_apart (by decide +kernel)) ⟨⟨5, rfl⟩, rfl⟩
    have hcond : ¬ AroundDyn 0x10000 0x1000 := by
      unfold AroundDyn
      decide
    exact hiff.mpr ⟨hcond, by decide +kernel⟩

/-- A mapping of 100 bytes is not found, and the page at `dyn_start` is refused. -/
theorem user_requests_fail : ∃ s r, initMem plainHost () (fun _ => 0) = .ok s ∧
    Run (UserRun.step plainHost) ⟨s, []⟩ [⟨⟨s, []⟩, .mmap 0 100 3 0x22 (-1) 0, r⟩] r ∧
      userMmap plainHost s 0 100 3 0x22 (-1) 0 = .ok (0x80000000, r.state) ∧
      userMunmap plainHost r.state 0x80000000 100 = .error .notFound ∧ ¬ ReleaseExact plainHost r.state 0x80000000 100 ∧
      FixedRange 0x80000000 0x1000 ∧ s.Clear 0x80000000 0x1000 ∧
      plainHost.Grants s ⟨0x80000000, 0x1000, 3, 0x32, -1, 0⟩ ∧
      userMmap plainHost s 0x80000000 0x1000 3 0x32 (-1) 0 = .error .noCandidate := by
  let r : UserRun Unit := UserRun.after ⟨plainInit, []⟩ (.mmap 0 100 3 0x22 (-1) 0)
  have hstep := UserRun.after_run (r := ⟨plainInit, []⟩) (c := .mmap 0 100 3 0x22 (-1) 0) 0x80000000 (by decide +kernel)
  have hfind : vmaListFindFixArea r.state 0x80000000 100 = .ok none :=
    eq_ok_of_toOption (by decide +kernel)
  refine ⟨plainInit, r, rfl, .cons hstep.2 .nil, hstep.1, ?_, ?_,
    ⟨by decide, by decide, by decide, by decide⟩, .of_apart (by decide +kernel), ⟨⟨4, rfl⟩, rfl⟩, rfl⟩
  · unfold userMunmap
    rw [hfind]
    rfl
  · intro ⟨p, _, _, _, hsome, _⟩
    rw [hfind] at hsome
    cases hsome

end Runs

end Nemu
