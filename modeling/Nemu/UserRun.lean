import Nemu.UserList

namespace Nemu

open Ring

set_option autoImplicit true

variable {σ : Type} {H : Host σ} {s t : UserState σ} {ps l₁ l₂ : List VmaPtr} {p q left new : VmaPtr}

section Model

/-- The calls, and what the guest stores between them. -/
inductive UserCall where
  | mmap (addr length : Word) (prot flags fd : BitVec 32) (offset : Word)
  | munmap (addr length : Word)
  | mremap (oldAddr oldSize newSize : Word) (flags : BitVec 32)
  | guest (mem : UserMem)

def UserCall.run (H : Host σ) (s : UserState σ) : UserCall → Except UserFault (Word × UserState σ)
  | .mmap addr length prot flags fd offset => userMmap H s addr length prot flags fd offset
  | .munmap addr length => do
    let (ret, s) ← userMunmap H s addr length
    pure (ret.signExtend 64, s)
  | .mremap oldAddr oldSize newSize flags => userMremap H s oldAddr oldSize newSize flags
  | .guest mem => pure (0, { s with mem := mem })

/-- A state, and the addresses of the mappings in it that were not requested at a fixed address. -/
structure UserRun (σ : Type) where
  state : UserState σ
  nonFixed : List Word

/-- The mappings that were not requested at a fixed address, after a call that has returned `ret`. -/
def UserCall.track (nonFixed : List Word) (ret : Word) : UserCall → List Word
  | .mmap _ _ _ flags _ _ => if flags &&& mapFixed = 0 then ret :: nonFixed else nonFixed
  | .munmap addr _ => nonFixed.filter (· ≠ addr)
  | .mremap oldAddr _ _ _ => if ret = oldAddr then nonFixed else ret :: nonFixed.filter (· ≠ oldAddr)
  | .guest _ => nonFixed

/-- A call whose assertions hold. -/
def UserRun.step (H : Host σ) (r : UserRun σ) (c : UserCall) (r' : UserRun σ) : Prop :=
  ∃ ret, c.run H r.state = .ok (ret, r'.state) ∧ r'.nonFixed = c.track r.nonFixed ret

end Model

section Spec

/-- The addresses of a mapping. -/
def UserState.Covers (s : UserState σ) (p : VmaPtr) (x : Nat) : Prop := (s.vma p).addr.toNat ≤ x ∧ x < s.endOf p

structure ListSound (s : UserState σ) : Prop where
  linked : Circular s.next s.prev 0 s.entries
  increasing : s.entries.Pairwise fun p q => (s.vma p).addr ≤ (s.vma q).addr
  disjoint : s.entries.Pairwise fun p q => ∀ x, ¬ (s.Covers p x ∧ s.Covers q x)
  pages : ∀ p ∈ s.entries, 4096 ∣ (s.vma p).length.toNat

/-- The mapping at `a` is this node, and lies in the area for mappings without a fixed address. -/
structure UserState.InsideAt (s : UserState σ) (p : VmaPtr) (a : Word) : Prop where
  addr : (s.vma p).addr = a
  nonempty : (s.vma p).length ≠ 0
  low : 0x80000000 ≤ a.toNat
  high : s.endOf p ≤ 0xc0000000

/-- Every mapping that was not requested at a fixed address lies in the area for these. -/
def NonFixedInside (r : UserRun σ) : Prop := ∀ a ∈ r.nonFixed, ∃ p ∈ r.state.entries, r.state.InsideAt p a

/-- The range overlaps no mapping. -/
def UserState.Clear (s : UserState σ) (addr length : Word) : Prop :=
  ∀ p ∈ s.entries, ∀ x, s.Covers p x → ¬ (addr.toNat ≤ x ∧ x < addr.toNat + length.toNat)

/-- A range in the area that overlaps no mapping. -/
def UserState.Placed (s : UserState σ) (addr length : Word) : Prop :=
  0x80000000 ≤ addr.toNat ∧ addr.toNat + length.toNat ≤ 0xc0000000 ∧ s.Clear addr length

/-- What a call has to do. -/
def UserCall.StepSound (s t : UserState σ) (ret : Word) : UserCall → Prop
  | .mmap _ length _ flags _ _ => flags &&& mapFixed = 0 → s.Placed ret (roundup4096 length)
  | .mremap oldAddr oldSize newSize _ => (ret ≠ oldAddr → s.Placed ret (roundup4096 newSize)) ∧
      ∀ i, i < oldSize → i < newSize → t.mem (ret + i) = s.mem (oldAddr + i)
  | _ => True

/-- There is a free range of this length in the area. -/
def UserState.Room (s : UserState σ) (length : Word) : Prop :=
  ∃ a, 0x80000000 ≤ a ∧ a + length.toNat ≤ 0xc0000000 ∧
    ∀ p ∈ s.entries, s.endOf p ≤ a ∨ a + length.toNat ≤ (s.vma p).addr.toNat

/-- The area has room for what the call puts there. -/
def UserCall.Fits (r : UserRun σ) : UserCall → Prop
  | .mmap _ length _ flags _ _ => flags &&& mapFixed = 0 → r.state.Room (roundup4096 length)
  | .mremap oldAddr oldSize newSize _ => ∀ p, vmaListFindFixArea r.state oldAddr oldSize = .ok (some p) →
      (¬ roundup4096 newSize ≤ r.state.freeToExpand p → r.state.Room (roundup4096 newSize)) ∧
      (roundup4096 newSize ≤ r.state.freeToExpand p → oldAddr ∈ r.nonFixed →
        oldAddr.toNat + (roundup4096 newSize).toNat ≤ 0xc0000000)
  | _ => True

end Spec

section Area

variable {length : Word}

/-- The first node before `a` leads to the first gap before `a`. -/
theorem end_le_of_small {small : List VmaPtr} {a : Nat} (h : Listed s (l₁ ++ (small ++ left :: l₂)))
    (hfree : ∀ p ∈ l₁ ++ (small ++ left :: l₂), s.endOf p ≤ a ∨ a + length.toNat ≤ (s.vma p).addr.toNat)
    (hsmall : ∀ p ∈ small, ¬ length ≤ s.freeAfter p)
    (hfirst : ∀ x l, small ++ left :: l₂ = x :: l → s.endOf x ≤ a) : s.endOf left ≤ a := by
  induction small generalizing l₁ with
  | nil => exact hfirst left l₂ rfl
  | cons x small ih =>
    have hx : s.endOf x ≤ a := hfirst x _ rfl
    have hassoc : l₁ ++ (x :: small ++ left :: l₂) = (l₁ ++ [x]) ++ (small ++ left :: l₂) := by simp
    have hnext : ∀ y l, small ++ left :: l₂ = y :: l → s.endOf y ≤ a := by
      intro y l hy
      have hyl : l₁ ++ (x :: small ++ left :: l₂) = l₁ ++ x :: y :: l := by simp [hy]
      rw [hyl] at h hfree
      have hnot := hsmall x List.mem_cons_self
      rw [BitVec.le_def, h.free_cons] at hnot
      rcases hfree y (by simp) with hle | hle
      · exact hle
      · omega
    rw [hassoc] at h hfree
    exact ih h hfree (fun p hp => hsmall p (List.mem_cons_of_mem _ hp)) hnext

theorem FirstFit.inside (hf : FirstFit s ps length left) (h : Listed s ps) (hroom : s.Room length) :
    s.endOf left + length.toNat ≤ 0xc0000000 := by
  obtain ⟨⟨l₁, small, l₂, rfl, ⟨l, hl⟩, hsmall⟩, _⟩ := hf
  obtain ⟨a, ha, hfit, hfree⟩ := hroom
  rw [h.entries_eq] at hfree
  have hle : s.endOf left ≤ a := by
    apply end_le_of_small h hfree hsmall
    intro x l' hx
    rw [hl] at hx
    cases hx
    have hdyn := h.dyn.2
    unfold UserState.endOf
    rw [hdyn.1, hdyn.2]
    exact ha
  omega

theorem Listed.endOf_dyn (h : Listed s ps) : s.endOf s.dynStart = 0x80000000 := by
  unfold UserState.endOf
  rw [h.dyn.2.1, h.dyn.2.2]
  rfl

theorem FirstFit.above (hf : FirstFit s ps length left) (h : Listed s ps) : 0x80000000 ≤ s.endOf left := by
  obtain ⟨⟨l₁, small, l₂, rfl, ⟨l, hl⟩, _⟩, _⟩ := hf
  have hstart := h.endOf_dyn
  cases small with
  | nil =>
    cases hl
    exact Nat.le_of_eq hstart.symm
  | cons x small =>
    cases hl
    have hle := h.around.2 left (by simp)
    rw [hstart] at hle
    exact hle.trans (addr_le_endOf s left)

theorem FirstFit.placed {ret : Word} (hf : FirstFit s ps length left) (h : Listed s ps) (hroom : s.Room length)
    (hret : ret.toNat = s.endOf left) : s.Placed ret length := by
  have hinside := hf.inside h hroom
  have habove := hf.above h
  obtain ⟨l₁, l₂, rfl, hgap, _⟩ := hf.gap h
  have hend := h.end_word (p := left) (by simp)
  have hb : ((s.vma left).addr + (s.vma left).length).toNat + length.toNat < 2 ^ 64 := by omega
  obtain ⟨_, hhigh⟩ := hgap hb
  rw [hend] at hhigh
  refine ⟨by omega, by omega, fun p hp x hx hin => ?_⟩
  rw [h.entries_eq] at hp
  unfold UserState.Covers at hx
  rcases List.mem_append.mp hp with hp | hp
  · have hle := h.around.1 p hp
    have hlow := addr_le_endOf s left
    omega
  rcases List.mem_cons.mp hp with rfl | hp
  · omega
  · have hle := hhigh p hp
    omega

end Area

section Steps

variable {addr length ret oldAddr oldSize newSize : Word} {prot flags fd : BitVec 32} {offset : Word}
  {nonFixed : List Word}

theorem Listed.sound (h : Listed s ps) : ListSound s := by
  have hentries := h.entries_eq
  refine ⟨hentries ▸ h.ring, ?_, ?_, ?_⟩
  · rw [hentries]
    exact h.sorted.imp fun {p q} hpq => (addr_le_endOf s p).trans hpq
  · rw [hentries]
    apply h.sorted.imp
    intro p q hpq x ⟨hp, hq⟩
    exact absurd (hp.2.trans_le (hpq.trans hq.1)) (Nat.lt_irrefl x)
  · rw [hentries]
    exact fun p hp => Nat.dvd_of_mod_eq_zero (h.aligned p hp).2

theorem UserState.InsideAt.congr {a : Word} (h : s.InsideAt p a) (hp : t.vma p = s.vma p) : t.InsideAt p a := by
  obtain ⟨haddr, hne, hlow, hhigh⟩ := h
  refine ⟨?_, ?_, hlow, ?_⟩
  · rw [hp]
    exact haddr
  · rw [hp]
    exact hne
  · rw [endOf_congr hp]
    exact hhigh

theorem Listed.to_entries (h : Listed s ps) : Listed s s.entries := by
  rw [h.entries_eq]
  exact h

theorem Inserted.keeps {v : Vma} (hins : Inserted s t l₁ left l₂ new v) (hp : p ∈ l₁ ++ left :: l₂) :
    p ∈ t.entries ∧ t.vma p = s.vma p := by
  refine ⟨?_, hins.others p fun hpn => hins.fresh (hpn ▸ hp)⟩
  rw [hins.listed.entries_eq]
  simp only [List.mem_append, List.mem_cons] at hp ⊢
  tauto

theorem Unmapped.keeps (hu : Unmapped s t ps addr length p) (hq : q ∈ ps) (hne : (s.vma q).addr ≠ addr) :
    q ∈ t.entries ∧ t.vma q = s.vma q := by
  obtain ⟨l₁, l₂, rfl, hlisted⟩ := hu.removed
  have hqp : q ≠ p := fun hqp => hne (hqp ▸ hu.range.1)
  refine ⟨?_, congrFun hu.data q⟩
  rw [hlisted.entries_eq]
  simp only [List.mem_append, List.mem_cons] at hq ⊢
  tauto

theorem Resized.keeps (hr : Resized s t ps oldAddr oldSize newSize ret p) (hq : q ∈ ps)
    (hne : (s.vma q).addr ≠ oldAddr) :
    q ∈ t.entries ∧ t.vma q = s.vma q := by
  have hqp : q ≠ p := fun hqp => hne (hqp ▸ hr.range.1)
  refine ⟨?_, hr.others q hqp⟩
  rw [hr.listed.entries_eq]
  exact hq

theorem Relocated.entries (hr : Relocated s t ps oldAddr oldSize newSize ret p) : ∃ l₁ left l₂ new v u,
    ps = l₁ ++ left :: l₂ ∧ Inserted s u l₁ left l₂ new v ∧ v.addr = ret ∧ v.length = newSize ∧
      FirstFit s ps newSize left ∧ ret.toNat = s.endOf left ∧ p ∈ ps ∧ Listed t t.entries ∧
      (∀ q ∈ l₁ ++ left :: new :: l₂, q ≠ p → q ∈ t.entries) ∧ t.vma = u.vma := by
  obtain ⟨l₁, left, l₂, new, v, u, r₁, r₂, hps, hins, hv, hlen, hfirst, hend, hcut, hp, hlisted, hdata, _⟩ := hr.moved
  refine ⟨l₁, left, l₂, new, v, u, hps, hins, hv, hlen, hfirst, hend, hp, hlisted.to_entries, fun q hq hqp => ?_, hdata⟩
  rw [hcut] at hq
  rw [hlisted.entries_eq]
  simp only [List.mem_append, List.mem_cons] at hq ⊢
  tauto

theorem Relocated.keeps (hr : Relocated s t ps oldAddr oldSize newSize ret p) (hq : q ∈ ps)
    (hne : (s.vma q).addr ≠ oldAddr) : q ∈ t.entries ∧ t.vma q = s.vma q := by
  obtain ⟨l₁, left, l₂, new, v, u, rfl, hins, _, _, _, _, _, _, hkeep, hdata⟩ := hr.entries
  have hqp : q ≠ p := fun hqp => hne (hqp ▸ hr.range.1)
  obtain ⟨hmem, hvma⟩ := hins.keeps hq
  rw [hins.listed.entries_eq] at hmem
  exact ⟨hkeep q hmem hqp, (congrFun hdata q).trans hvma⟩

theorem FirstFit.insideAt {v : Vma} (hf : FirstFit s (l₁ ++ left :: l₂) length left) (h : Listed s (l₁ ++ left :: l₂))
    (hins : Inserted s t l₁ left l₂ new v) (hroom : s.Room length) (hlen : v.length = length)
    (haddr : v.addr.toNat = s.endOf left) : t.InsideAt new v.addr := by
  have hinside := hf.inside h hroom
  have habove := hf.above h
  refine ⟨?_, ?_, by omega, ?_⟩
  · rw [hins.data]
  · rw [hins.data]
    exact hins.nonempty
  · unfold UserState.endOf
    rw [hins.data, hlen]
    omega

theorem Resized.insideAt (hr : Resized s t ps oldAddr oldSize newSize ret p) (hlow : 0x80000000 ≤ oldAddr.toNat)
    (hfits : oldAddr.toNat + newSize.toNat ≤ 0xc0000000) : t.InsideAt p oldAddr := by
  refine ⟨?_, ?_, hlow, ?_⟩
  · rw [hr.data]
    exact hr.range.1
  · rw [hr.data]
    exact hr.nonempty.2
  · unfold UserState.endOf
    rw [hr.data, hr.range.1]
    exact hfits

theorem Relocated.insideAt (hr : Relocated s t ps oldAddr oldSize newSize ret p) (h : Listed s ps)
    (hroom : s.Room newSize) :
    newSize ≠ 0 ∧ ret ≠ oldAddr ∧ s.Placed ret newSize ∧ ∃ q ∈ t.entries, t.InsideAt q ret := by
  obtain ⟨l₁, left, l₂, new, v, u, rfl, hins, rfl, hlen, hfirst, hend, hp, _, hkeep, hdata⟩ := hr.entries
  have hplaced := hfirst.placed h hroom hend
  have hpn : new ≠ p := fun hnp => hins.fresh (hnp ▸ hp)
  have hin := hfirst.insideAt h hins hroom hlen hend
  refine ⟨hlen ▸ hins.nonempty, fun heq => ?_, hplaced, new, hkeep new (by simp) hpn, hin.congr (congrFun hdata new)⟩
  -- the first address of the old range would be in both
  have hcov : s.Covers p oldAddr.toNat := by
    have hpos := Nat.pos_of_ne_zero fun h0 => hr.nonempty (BitVec.eq_of_toNat_eq h0)
    unfold UserState.Covers UserState.endOf
    rw [hr.range.1, hr.range.2]
    omega
  have hpos := Nat.pos_of_ne_zero fun h0 => hins.nonempty (BitVec.eq_of_toNat_eq h0)
  apply hplaced.2.2 p (h.entries_eq.symm ▸ hp) _ hcov
  rw [heq, ← hlen]
  omega

end Steps

section Initial

theorem Listed.empty (os : σ) (mem : UserMem) {z d : VmaPtr} (vma : VmaPtr → Vma) (hz : z ≠ 0) (hd : d ≠ 0)
    (hzd : z ≠ d)
    (hhead : (vma 0).addr = 0) (hvz : (vma z).addr = 0 ∧ (vma z).length = 0)
    (hvd : (vma d).addr = 0x80000000 ∧ (vma d).length = 0) :
    Listed ⟨vma, nextInsert (nextInsert (fun _ => 0) 0 z) z d,
      prevInsert (nextInsert (fun _ => 0) 0 z) (prevInsert (fun _ => 0) (fun _ => 0) 0 z) z d, d, [d, z], os, mem⟩ [z, d] := by
  have hring : Circular (fun _ => 0) (fun _ => 0) (0 : VmaPtr) [] := .cons_cons ⟨rfl, rfl⟩ (.singleton 0)
  have hz' : z ∉ [(0 : VmaPtr)] := by simpa using hz
  have hnodup : [0, z].Nodup := by simpa using hz.symm
  have hd' : d ∉ [0, z] := by
    rw [List.mem_cons, List.mem_singleton, not_or]
    exact ⟨hd, hzd.symm⟩
  have hring1 := hring.insert_head (List.nodup_singleton 0) hz'
  have hring1' : Circular (nextInsert (fun _ => 0) 0 z) (prevInsert (fun _ => 0) (fun _ => 0) 0 z) 0 ([] ++ z :: []) := hring1
  have hring2 := hring1'.insert hnodup hd'
  have hall : ∀ {Q : VmaPtr → Prop}, Q z → Q d → ∀ p ∈ [z, d], Q p := by
    intro Q h1 h2 p hp
    rcases List.mem_cons.mp hp with rfl | hp
    · exact h1
    · rcases List.mem_singleton.mp hp with rfl
      exact h2
  refine ⟨hring2, ?_, ?_, ?_, ?_, ?_, hhead, ⟨z, List.mem_cons_self, hvz.1, hvz.2, ?_⟩, ⟨by simp, hvd.1, hvd.2⟩⟩
  · rw [List.nodup_cons, List.mem_cons, List.mem_singleton, not_or]
    exact ⟨⟨hz.symm, hd.symm⟩, by simpa using hzd⟩
  · exact hall (by simp) (by simp)
  · rw [List.pairwise_pair]
    unfold UserState.endOf
    dsimp only
    rw [hvz.1, hvz.2]
    exact Nat.zero_le _
  · apply hall
    · unfold UserState.endOf
      dsimp only
      rw [hvz.1, hvz.2]
      decide
    · unfold UserState.endOf
      dsimp only
      rw [hvd.1, hvd.2]
      decide
  · apply hall
    · rw [hvz.1, hvz.2]
      decide
    · rw [hvd.1, hvd.2]
      decide
  · exact hall (fun _ => .inl rfl) (fun _ => .inr rfl)

theorem initMem_listed {os : σ} {mem : UserMem} (hok : initMem H os mem = .ok s) :
    ∃ z k, Listed s [z, s.dynStart, k] := by
  unfold initMem vmaNew at hok
  dsimp only [bind, Except.bind, pure, Except.pure] at hok
  cases hz : H.malloc os [] with
  | none =>
    rw [hz] at hok
    cases hok
  | some z =>
  rw [hz] at hok
  dsimp only [vmaListAddAfter] at hok
  cases hd : H.malloc os [z] with
  | none =>
    rw [hd] at hok
    cases hok
  | some d =>
  rw [hd] at hok
  dsimp only [vmaListAddAfter] at hok
  cases hk : H.malloc os [d, z] with
  | none =>
    rw [hk] at hok
    cases hok
  | some k =>
  rw [hk] at hok
  cases hok
  obtain ⟨hz0, _⟩ := H.malloc_fresh _ _ _ hz
  obtain ⟨hd0, hdz⟩ := H.malloc_fresh _ _ _ hd
  obtain ⟨hk0, hkz⟩ := H.malloc_fresh _ _ _ hk
  have hzd : z ≠ d := fun hzd => hdz (hzd ▸ List.mem_cons_self)
  have hlisted : Listed _ ([z] ++ d :: []) := Listed.empty os mem (Function.update (Function.update
    (fun _ => (⟨0, 0, 0, 0, 0, 0⟩ : Vma)) z ⟨0, 0, 0, 0, -1, 0⟩) d ⟨0x80000000, 0, 0, 0, -1, 0⟩) hz0 hd0 hzd ?_ ?_ ?_
  · have hinsert := hlisted.insert hk0 hkz (v := ⟨0xc0000000, 0x40000000, 0, 0, -1, 0⟩)
      (by decide) (by decide) (by decide) (hlisted.endOf_dyn.trans_le (by decide))
      (fun q hq => absurd hq List.not_mem_nil) (by decide)
    exact ⟨z, k, hinsert⟩
  · rw [Function.update_of_ne hd0.symm, Function.update_of_ne hz0.symm]
  · rw [Function.update_of_ne hzd, Function.update_self]
    exact ⟨rfl, rfl⟩
  · rw [Function.update_self]
    exact ⟨rfl, rfl⟩

end Initial

section Runs

variable {r r' : UserRun σ} {c : UserCall}

theorem le_roundup4096 {n : Word} (h : roundup4096 n ≠ 0) : n.toNat ≤ (roundup4096 n).toNat := by
  have hround : (roundup4096 n).toNat = (n.toNat + 4095) % 2 ^ 64 / 4096 * 4096 := by
    have hassoc : n + 4096 - 1 = n + 4095#64 := by
      rw [BitVec.sub_eq_add_neg, BitVec.add_assoc]
      rfl
    unfold roundup4096
    rw [low_mask, hassoc, BitVec.toNat_add]
    rfl
  have hpos := Nat.pos_of_ne_zero fun h0 => h (BitVec.eq_of_toNat_eq h0)
  have hlt := n.isLt
  omega

/-- The call is about the mapping at this address. -/
def UserCall.Names (a : Word) : UserCall → Prop
  | .munmap addr _ => addr = a
  | .mremap oldAddr _ _ _ => oldAddr = a
  | _ => False

/-- A call keeps the list, and every mapping that it does not name. -/
theorem UserRun.step_keeps (hH : H.Lawful) (h : Listed r.state r.state.entries) (hstep : UserRun.step H r c r') :
    Listed r'.state r'.state.entries ∧ ∀ p ∈ r.state.entries, ¬ c.Names (r.state.vma p).addr →
      p ∈ r'.state.entries ∧ r'.state.vma p = r.state.vma p := by
  obtain ⟨ret, hok, _⟩ := hstep
  cases c with
  | mmap addr length prot flags fd offset =>
    obtain ⟨l₁, left, l₂, new, v, heq, hins, _⟩ := (userMmap_spec hH h hok).inserted
    exact ⟨hins.listed.to_entries, fun p hp _ => hins.keeps (heq ▸ hp)⟩
  | munmap addr length =>
    obtain ⟨⟨ret', t⟩, hunmap, hpure⟩ := Except.bind_eq_ok.mp hok
    cases hpure
    obtain ⟨p, hu⟩ := userMunmap_spec hH h hunmap
    obtain ⟨_, _, _, hlisted⟩ := hu.removed
    exact ⟨hlisted.to_entries, fun q hq hne => hu.keeps hq (Ne.symm hne)⟩
  | mremap oldAddr oldSize newSize flags =>
    obtain ⟨p, _, ⟨_, hr⟩ | ⟨_, hr⟩⟩ := userMremap_spec hH h hok
    · exact ⟨hr.listed.to_entries, fun q hq hne => hr.keeps hq (Ne.symm hne)⟩
    · obtain ⟨_, _, _, _, _, _, _, _, _, _, _, _, _, hlisted, _⟩ := hr.entries
      exact ⟨hlisted, fun q hq hne => hr.keeps hq (Ne.symm hne)⟩
  | guest mem =>
    have hstate : r'.state = { r.state with mem := mem } := (congrArg Prod.snd (Except.ok.inj hok)).symm
    rw [hstate]
    exact ⟨h.host _ _, fun p hp _ => ⟨hp, rfl⟩⟩

/-- The invariant of a run. -/
structure UserRun.Inv (r : UserRun σ) : Prop where
  listed : Listed r.state r.state.entries
  inside : NonFixedInside r

/-- A call keeps the invariant, and does what it has to do. -/
theorem UserRun.step_sound (hH : H.Lawful) (hinv : r.Inv) (hfits : c.Fits r) (hstep : UserRun.step H r c r') :
    r'.Inv ∧ ∃ ret, c.run H r.state = .ok (ret, r'.state) ∧ c.StepSound r.state r'.state ret := by
  obtain ⟨hlisted, hkeeps⟩ := UserRun.step_keeps hH hinv.listed hstep
  have hkept : ∀ a ∈ r.nonFixed, ¬ c.Names a → ∃ p ∈ r'.state.entries, r'.state.InsideAt p a := by
    intro a ha hne
    obtain ⟨p, hp, hin⟩ := hinv.inside a ha
    obtain ⟨hmem, hvma⟩ := hkeeps p hp (hin.addr.symm ▸ hne)
    exact ⟨p, hmem, hin.congr hvma⟩
  obtain ⟨ret, hok, hnf⟩ := hstep
  cases c with
  | mmap addr length prot flags fd offset =>
    obtain ⟨l₁, left, l₂, new, v, heq, hins, rfl, hlen, hfit⟩ := (userMmap_spec hH hinv.listed hok).inserted
    have hl := hinv.listed
    rw [heq] at hl hfit
    refine ⟨⟨hlisted, fun a ha => ?_⟩, v.addr, hok, fun h0 => (hfit h0).1.placed hl (hfits h0) (hfit h0).2⟩
    rw [hnf] at ha
    by_cases h0 : flags &&& mapFixed = 0
    · rw [UserCall.track, if_pos h0] at ha
      rcases List.mem_cons.mp ha with rfl | ha
      · refine ⟨new, ?_, (hfit h0).1.insideAt hl hins (hfits h0) hlen (hfit h0).2⟩
        rw [hins.listed.entries_eq]
        simp
      · exact hkept a ha id
    · rw [UserCall.track, if_neg h0] at ha
      exact hkept a ha id
  | munmap addr length =>
    refine ⟨⟨hlisted, fun a ha => ?_⟩, ret, hok, trivial⟩
    rw [hnf] at ha
    obtain ⟨ha, hne⟩ := List.mem_filter.mp ha
    exact hkept a ha (Ne.symm (of_decide_eq_true hne))
  | mremap oldAddr oldSize newSize flags =>
    obtain ⟨p, hfind, ⟨hfree, hr⟩ | ⟨hfree, hr⟩⟩ := userMremap_spec hH hinv.listed hok
    · refine ⟨⟨hlisted, fun a ha => ?_⟩, ret, hok, fun hne => absurd hr.ret hne, fun i hi hi' => ?_⟩
      · rw [hnf, UserCall.track, if_pos hr.ret] at ha
        by_cases hname : oldAddr = a
        · rw [← hname] at ha ⊢
          obtain ⟨_, _, hin⟩ := hinv.inside oldAddr ha
          refine ⟨p, ?_, hr.insideAt hin.low ((hfits p hfind).2 hfree ha)⟩
          rw [hr.listed.entries_eq]
          exact hr.mem
        · exact hkept a ha hname
      · have hsub : oldAddr + i - oldAddr = i := by rw [BitVec.add_comm, BitVec.add_sub_cancel]
        rw [hr.ret]
        apply hr.contents
        · rw [hsub]
          exact hi
        · rw [hsub]
          exact BitVec.lt_def.mpr ((BitVec.lt_def.mp hi').trans_le (le_roundup4096 hr.nonempty.2))
    · obtain ⟨hne0, hne, hplaced, hin⟩ := hr.insideAt hinv.listed ((hfits p hfind).1 hfree)
      refine ⟨⟨hlisted, fun a ha => ?_⟩, ret, hok, fun _ => hplaced, fun i hi hi' => ?_⟩
      · rw [hnf, UserCall.track, if_neg hne] at ha
        rcases List.mem_cons.mp ha with rfl | ha
        · exact hin
        · obtain ⟨ha, hname⟩ := List.mem_filter.mp ha
          exact hkept a ha (Ne.symm (of_decide_eq_true hname))
      · exact hr.contents i hi (BitVec.lt_def.mpr ((BitVec.lt_def.mp hi').trans_le (le_roundup4096 hne0)))
  | guest mem =>
    refine ⟨⟨hlisted, fun a ha => ?_⟩, ret, hok, trivial⟩
    rw [hnf] at ha
    exact hkept a ha id

/-- The mapping list along a run from `init_mem`. -/
theorem user_list_sound (H : Host σ) (hH : H.Lawful) (os : σ) (mem : UserMem) (s : UserState σ)
    (hinit : initMem H os mem = .ok s) (tr : List (Transition (UserRun σ) UserCall)) (r : UserRun σ)
    (hrun : Run (UserRun.step H) ⟨s, []⟩ tr r) (hfits : ∀ x ∈ tr, x.label.Fits x.source) :
    ListSound r.state ∧ NonFixedInside r ∧ ∀ x ∈ tr, ∃ ret, x.label.run H x.source.state = .ok (ret, x.target.state) ∧
      x.label.StepSound x.source.state x.target.state ret := by
  obtain ⟨z, k, hlisted⟩ := initMem_listed hinit
  have h0 : UserRun.Inv ⟨s, []⟩ := ⟨hlisted.to_entries, fun a ha => absurd ha List.not_mem_nil⟩
  have hstep : ∀ x : Transition (UserRun σ) UserCall, x.label.Fits x.source →
      UserRun.step H x.source x.label x.target → x.source.Inv → x.target.Inv :=
    fun x hx hs hinv => (UserRun.step_sound hH hinv hx hs).1
  have hinv := hrun.invariant hfits h0 hstep
  refine ⟨hinv.listed.sound, hinv.inside, fun x hx => ?_⟩
  obtain ⟨hsource, _⟩ := hrun.invariant_mem hfits h0 hstep x hx
  exact (UserRun.step_sound hH hsource (hfits x hx) (hrun.step_of_mem hx)).2

end Runs

section Plain

def plainRange (addr length : Word) : Prop :=
  addr.toNat % 4096 = 0 ∧ length ≠ 0 ∧ addr.toNat + length.toNat ≤ 2 ^ 47

instance : Decidable (plainRange addr length) :=
  inferInstanceAs (Decidable (addr.toNat % 4096 = 0 ∧ length ≠ 0 ∧ addr.toNat + length.toNat ≤ 2 ^ 47))

theorem lt_of_mem_max {live : List Nat} {x : Nat} (h : x ∈ live) : x < live.foldr max 0 + 1 := by
  induction live with
  | nil => cases h
  | cons y live ih =>
    rw [List.foldr_cons]
    rcases List.mem_cons.mp h with rfl | h
    · omega
    · have hx := ih h
      omega

/-- A host with nothing but this process, and memory that is zero where it has been mapped anew. -/
def plainHost : Host Unit where
  malloc _ live := some (live.foldr max 0 + 1)
  mmap _ mem v :=
    if plainRange v.addr v.length then (v.addr, (), fun x => if x - v.addr < roundup4096 v.length then 0 else mem x)
    else (mapFailed, (), mem)
  munmap _ mem addr length := (if plainRange addr length then 0 else -1, (), mem)
  mremap _ mem oldAddr oldSize newSize :=
    (if plainRange oldAddr oldSize ∧ plainRange oldAddr newSize then oldAddr else mapFailed, (), mem)
  malloc_fresh _ live p h := by
    cases h
    refine ⟨Nat.succ_ne_zero _, fun hmem => ?_⟩
    exact absurd (lt_of_mem_max hmem) (Nat.lt_irrefl _)

theorem plainHost_lawful : plainHost.Lawful := by
  refine ⟨fun o mem v _ => ?_, fun o mem addr length h => ?_, fun o mem oldAddr oldSize newSize => ?_⟩
  · by_cases hr : plainRange v.addr v.length
    · have hval : plainHost.mmap o mem v =
          (v.addr, (), fun x => if x - v.addr < roundup4096 v.length then 0 else mem x) := if_pos hr
      rw [hval]
      obtain ⟨haddr, hlen, hb⟩ := hr
      exact .inr ⟨rfl, haddr, hlen, by omega, fun x hx => if_neg hx⟩
    · exact .inl (congrArg Prod.fst (if_neg hr))
  · by_cases hr : plainRange addr length
    · exact ⟨hr.2.1, fun _ _ => rfl⟩
    · have hval : (plainHost.munmap o mem addr length).1 = -1 := if_neg hr
      rw [hval] at h
      exact absurd h (by decide)
  · by_cases hr : plainRange oldAddr oldSize ∧ plainRange oldAddr newSize
    · obtain ⟨_, hlen, hb⟩ := hr.2
      exact .inr ⟨if_pos hr, hr.1.2.1, hlen, by omega, fun _ _ _ => rfl⟩
    · exact .inl (if_neg hr)

/-- The state of a host without memory contents after `init_mem`. -/
def plainInit : UserState Unit :=
  match initMem plainHost () fun _ => 0 with
  | .ok s => s
  | .error _ => ⟨fun _ => ⟨0, 0, 0, 0, 0, 0⟩, fun _ => 0, fun _ => 0, 0, [], (), fun _ => 0⟩

def UserRun.after (r : UserRun Unit) (c : UserCall) : UserRun Unit :=
  match c.run plainHost r.state with
  | .ok (ret, s) => ⟨s, c.track r.nonFixed ret⟩
  | .error _ => r

theorem eq_ok_of_toOption {α : Type} {x : Except UserFault α} {y : α} (h : x.toOption = some y) : x = .ok y := by
  cases x with
  | ok x =>
    cases h
    rfl
  | error e => cases h

theorem UserRun.after_run {r : UserRun Unit} {c : UserCall} (ret : Word)
    (h : (c.run plainHost r.state).toOption.map Prod.fst = some ret) :
    c.run plainHost r.state = .ok (ret, (r.after c).state) ∧ UserRun.step plainHost r c (r.after c) := by
  obtain ⟨⟨ret', s⟩, hrun, rfl⟩ := Option.map_eq_some_iff.mp h
  unfold UserRun.step UserRun.after
  rw [eq_ok_of_toOption hrun]
  exact ⟨rfl, ret', rfl, rfl⟩

/-- A mapping of one page is made and gets a second one, another mapping follows behind it, and the first one is
removed. -/
theorem user_list_sound_moves : ∃ s r₁ r₂ r₃ r, initMem plainHost () (fun _ => 0) = .ok s ∧
    Run (UserRun.step plainHost) ⟨s, []⟩ [⟨⟨s, []⟩, .mmap 0 100 3 0x22 (-1) 0, r₁⟩,
      ⟨r₁, .mremap 0x80000000 0x1000 0x2000 0, r₂⟩, ⟨r₂, .mmap 0 0x3000 3 0x22 (-1) 0, r₃⟩,
      ⟨r₃, .munmap 0x80000000 0x2000, r⟩] r ∧ ListSound r.state ∧ NonFixedInside r ∧
    r.nonFixed = [0x80002000] := by
  let r₁ : UserRun Unit := UserRun.after ⟨plainInit, []⟩ (.mmap 0 100 3 0x22 (-1) 0)
  let r₂ : UserRun Unit := r₁.after (.mremap 0x80000000 0x1000 0x2000 0)
  let r₃ : UserRun Unit := r₂.after (.mmap 0 0x3000 3 0x22 (-1) 0)
  let r : UserRun Unit := r₃.after (.munmap 0x80000000 0x2000)
  have hrun : Run (UserRun.step plainHost) ⟨plainInit, []⟩ [⟨⟨plainInit, []⟩, .mmap 0 100 3 0x22 (-1) 0, r₁⟩,
      ⟨r₁, .mremap 0x80000000 0x1000 0x2000 0, r₂⟩, ⟨r₂, .mmap 0 0x3000 3 0x22 (-1) 0, r₃⟩,
      ⟨r₃, .munmap 0x80000000 0x2000, r⟩] r :=
    .cons (UserRun.after_run 0x80000000 (by decide +kernel)).2 <|
    .cons (UserRun.after_run 0x80000000 (by decide +kernel)).2 <|
    .cons (UserRun.after_run 0x80002000 (by decide +kernel)).2 <|
    .cons (UserRun.after_run 0 (by decide +kernel)).2 .nil
  have hsound := user_list_sound plainHost plainHost_lawful () (fun _ => 0) plainInit rfl _ r hrun ?_
  · exact ⟨plainInit, r₁, r₂, r₃, r, rfl, hrun, hsound.1, hsound.2.1, by decide +kernel⟩
  · simp only [List.forall_mem_cons]
    refine ⟨fun _ => ⟨0x80000000, by decide, by decide, by decide⟩, ?_,
      fun _ => ⟨0x80002000, by decide, by decide, by decide +kernel⟩, trivial, List.forall_mem_nil _⟩
    intro p hp
    have hp4 : (Except.ok (some 4) : Except UserFault (Option VmaPtr)) = .ok (some p) := hp
    cases hp4
    exact ⟨fun hfree => absurd (by decide) hfree, fun _ _ => by decide⟩

/-- With the area full up to the kernel, a mapping goes behind the kernel. -/
theorem user_mmap_behind_kernel : ∃ s r, initMem plainHost () (fun _ => 0) = .ok s ∧
    Run (UserRun.step plainHost) ⟨s, []⟩ [⟨⟨s, []⟩, .mmap 0 0x40001000 3 0x22 (-1) 0, r⟩] r ∧ ¬ NonFixedInside r := by
  refine ⟨plainInit, UserRun.after ⟨plainInit, []⟩ (.mmap 0 0x40001000 3 0x22 (-1) 0), rfl,
    .cons ⟨0x100000000, rfl, rfl⟩ .nil, fun hin => ?_⟩
  obtain ⟨p, _, haddr, _, _, hhigh⟩ := hin 0x100000000 List.mem_cons_self
  have hle := (addr_le_endOf _ p).trans hhigh
  rw [haddr] at hle
  exact absurd hle (by decide)

end Plain

end Nemu
