import Nemu.UserMemory

namespace Nemu

open Ring

set_option autoImplicit true

variable {σ : Type} {s : UserState σ} {ps l₁ l₂ : List VmaPtr} {p q left new : VmaPtr}

section Pages

theorem low_mask (x : Word) : (x &&& ~~~(4096 - 1 : Word)).toNat = x.toNat / 4096 * 4096 := by
  have hshift : x &&& ~~~(4096 - 1 : Word) = (x >>> 12) <<< 12 := by
    apply BitVec.eq_of_getLsbD_eq
    intro i hi
    have hmask : (4096 - 1 : Word) = BitVec.ofNat 64 (2 ^ 12 - 1) := rfl
    rw [BitVec.getLsbD_and, BitVec.getLsbD_not, hmask, BitVec.getLsbD_ofNat, Nat.testBit_two_pow_sub_one,
      BitVec.getLsbD_shiftLeft, BitVec.getLsbD_ushiftRight, decide_eq_true hi]
    rcases Nat.lt_or_ge i 12 with h | h
    · rw [decide_eq_true h]
      simp
    · rw [decide_eq_false (Nat.not_lt.mpr h), Nat.add_sub_of_le h]
      simp
  rw [hshift, BitVec.toNat_shiftLeft, BitVec.toNat_ushiftRight, Nat.shiftLeft_eq, Nat.shiftRight_eq_div_pow]
  have hlt := x.isLt
  exact Nat.mod_eq_of_lt (by omega)

theorem roundup4096_mod (a : Word) : (roundup4096 a).toNat % 4096 = 0 := by
  unfold roundup4096
  rw [low_mask]
  exact Nat.mul_mod_left _ _

end Pages

section Invariant

def UserState.endOf (s : UserState σ) (p : VmaPtr) : Nat := (s.vma p).addr.toNat + (s.vma p).length.toNat

/-- The list is linked in both directions and sorted, its ranges are whole pages and have nothing in
common, and the two empty nodes are those of `init_mem`. -/
structure Listed (s : UserState σ) (ps : List VmaPtr) : Prop where
  ring : Circular s.next s.prev 0 ps
  nodup : (0 :: ps).Nodup
  live : ∀ p ∈ ps, p ∈ s.live
  sorted : ps.Pairwise fun p q => s.endOf p ≤ (s.vma q).addr.toNat
  bounded : ∀ p ∈ ps, s.endOf p < 2 ^ 64
  aligned : ∀ p ∈ ps, (s.vma p).addr.toNat % 4096 = 0 ∧ (s.vma p).length.toNat % 4096 = 0
  head : (s.vma 0).addr = 0
  first : ∃ z ∈ ps, (s.vma z).addr = 0 ∧ (s.vma z).length = 0 ∧
    ∀ p ∈ ps, (s.vma p).length = 0 → p = z ∨ p = s.dynStart
  dyn : s.dynStart ∈ ps ∧ (s.vma s.dynStart).addr = 0x80000000 ∧ (s.vma s.dynStart).length = 0

theorem Listed.host (h : Listed s ps) (os : σ) (mem : UserMem) : Listed { s with os := os, mem := mem } ps :=
  ⟨h.ring, h.nodup, h.live, h.sorted, h.bounded, h.aligned, h.head, h.first, h.dyn⟩

theorem Listed.head_not_mem (h : Listed s ps) : 0 ∉ ps := (List.nodup_cons.mp h.nodup).1

theorem Listed.fuel (h : Listed s ps) : ps.length < s.live.length + 1 := by
  have hnodup := (List.nodup_cons.mp h.nodup).2
  have hsub : ps ⊆ s.live := h.live
  exact Nat.lt_succ_of_le (hnodup.subperm hsub).length_le

/-- The word that the code computes for the end of a range. -/
theorem Listed.end_word (h : Listed s ps) (hp : p ∈ ps) : ((s.vma p).addr + (s.vma p).length).toNat = s.endOf p := by
  rw [BitVec.toNat_add]
  exact Nat.mod_eq_of_lt (h.bounded p hp)

/-- Everything before a node ends where it begins at the latest, and everything behind begins where it ends at the earliest. -/
theorem Listed.around (h : Listed s (l₁ ++ p :: l₂)) :
    (∀ q ∈ l₁, s.endOf q ≤ (s.vma p).addr.toNat) ∧ ∀ q ∈ l₂, s.endOf p ≤ (s.vma q).addr.toNat := by
  have hs := h.sorted
  rw [List.pairwise_append, List.pairwise_cons] at hs
  exact ⟨fun q hq => hs.2.2 q hq p List.mem_cons_self, hs.2.1.1⟩

theorem addr_le_endOf (s : UserState σ) (p : VmaPtr) : (s.vma p).addr.toNat ≤ s.endOf p := Nat.le_add_right _ _

theorem Listed.disjoint (h : Listed s ps) (hp : p ∈ ps) (hq : q ∈ ps) (hne : p ≠ q) :
    s.endOf p ≤ (s.vma q).addr.toNat ∨ s.endOf q ≤ (s.vma p).addr.toNat := by
  obtain ⟨l₁, l₂, rfl⟩ := List.append_of_mem hp
  rcases List.mem_append.mp hq with hq | hq
  · exact .inr (h.around.1 q hq)
  · rcases List.mem_cons.mp hq with rfl | hq
    · exact absurd rfl hne
    · exact .inl (h.around.2 q hq)

theorem Listed.eq_of_addr (h : Listed s ps) (hp : p ∈ ps) (hq : q ∈ ps) (hp0 : (s.vma p).length ≠ 0)
    (hq0 : (s.vma q).length ≠ 0) (haddr : (s.vma p).addr = (s.vma q).addr) : p = q := by
  by_contra hne
  have hpos : ∀ {x : Word}, x ≠ 0 → 0 < x.toNat := fun hx =>
    Nat.pos_of_ne_zero fun h0 => hx (BitVec.eq_of_toNat_eq h0)
  have hp1 := hpos hp0
  have hq1 := hpos hq0
  have hd := h.disjoint hp hq hne
  unfold UserState.endOf at hd
  rw [haddr] at hd
  omega

end Invariant

section Operations

theorem endOf_congr {t : UserState σ} (h : t.vma p = s.vma p) : t.endOf p = s.endOf p := by
  unfold UserState.endOf
  rw [h]

theorem Listed.insert (h : Listed s (l₁ ++ left :: l₂)) (hnew0 : new ≠ 0) (hnew : new ∉ s.live) {v : Vma}
    (haddr : v.addr.toNat % 4096 = 0) (hlength : v.length.toNat % 4096 = 0) (hv0 : v.length ≠ 0)
    (hlow : s.endOf left ≤ v.addr.toNat) (hhigh : ∀ q ∈ l₂, v.addr.toNat + v.length.toNat ≤ (s.vma q).addr.toNat)
    (hb : v.addr.toNat + v.length.toNat < 2 ^ 64) :
    Listed (vmaListAddAfter { s with vma := Function.update s.vma new v, live := new :: s.live } left new)
      (l₁ ++ left :: new :: l₂) := by
  have hmem : new ∉ l₁ ++ left :: l₂ := fun hmem => hnew (h.live new hmem)
  have hne : ∀ p ∈ l₁ ++ left :: l₂, p ≠ new := fun p hp hpn => hmem (hpn ▸ hp)
  have hold : ∀ p ∈ l₁ ++ left :: l₂, Function.update s.vma new v p = s.vma p :=
    fun p hp => Function.update_of_ne (hne p hp) v s.vma
  have hall : ∀ {Q : VmaPtr → Prop}, Q new → (∀ p ∈ l₁ ++ left :: l₂, Q p) → ∀ p ∈ l₁ ++ left :: new :: l₂, Q p := by
    intro Q hQ hQs p hp
    rw [List.mem_append, List.mem_cons, List.mem_cons] at hp
    rcases hp with hp | rfl | rfl | hp
    · exact hQs p (List.mem_append_left _ hp)
    · exact hQs p (by simp)
    · exact hQ
    · exact hQs p (by simp [hp])
  have hsub : ∀ p ∈ l₁ ++ left :: l₂, p ∈ l₁ ++ left :: new :: l₂ := by
    intro p hp
    simp only [List.mem_append, List.mem_cons] at hp ⊢
    tauto
  obtain ⟨hbefore, hbehind⟩ := h.around
  have hend : ∀ p ∈ l₁ ++ left :: l₂,
      (Function.update s.vma new v p).addr.toNat + (Function.update s.vma new v p).length.toNat = s.endOf p := by
    intro p hp
    rw [hold p hp]
    rfl
  refine ⟨?_, ?_, ?_, ?_, ?_, ?_, ?_, ?_, ?_⟩
  · have hnot : new ∉ (0 : VmaPtr) :: (l₁ ++ left :: l₂) := by
      rw [List.mem_cons, not_or]
      exact ⟨hnew0, hmem⟩
    exact h.ring.insert h.nodup hnot
  · have hperm : (0 :: (l₁ ++ left :: new :: l₂)).Perm (new :: 0 :: (l₁ ++ left :: l₂)) := by
      have h1 : (l₁ ++ left :: new :: l₂).Perm (new :: (l₁ ++ left :: l₂)) := by
        have hm : (l₁ ++ [left] ++ new :: l₂).Perm (new :: (l₁ ++ [left] ++ l₂)) := List.perm_middle
        simpa using hm
      exact (h1.cons 0).trans (List.Perm.swap new 0 _)
    rw [hperm.nodup_iff, List.nodup_cons, List.mem_cons, not_or]
    exact ⟨⟨hnew0, hmem⟩, h.nodup⟩
  · exact hall List.mem_cons_self fun p hp => List.mem_cons_of_mem _ (h.live p hp)
  · have hs := h.sorted
    show List.Pairwise (fun p q => (Function.update s.vma new v p).addr.toNat +
      (Function.update s.vma new v p).length.toNat ≤ (Function.update s.vma new v q).addr.toNat) _
    have hs' : (l₁ ++ left :: l₂).Pairwise fun p q => (Function.update s.vma new v p).addr.toNat +
        (Function.update s.vma new v p).length.toNat ≤ (Function.update s.vma new v q).addr.toNat := by
      refine hs.imp_of_mem fun {p q} hp hq hpq => ?_
      rw [hend p hp, hold q hq]
      exact hpq
    rw [List.pairwise_append, List.pairwise_cons] at hs' ⊢
    obtain ⟨hs1, ⟨hs2, hs3⟩, hs4⟩ := hs'
    refine ⟨hs1, ⟨fun q hq => ?_, List.pairwise_cons.mpr ⟨fun q hq => ?_, hs3⟩⟩, fun p hp q hq => ?_⟩
    · rcases List.mem_cons.mp hq with rfl | hq
      · rw [hend left (by simp), Function.update_self]
        exact hlow
      · exact hs2 q hq
    · rw [Function.update_self, hold q (by simp [hq])]
      exact hhigh q hq
    · rcases List.mem_cons.mp hq with rfl | hq
      · exact hs4 p hp q List.mem_cons_self
      rcases List.mem_cons.mp hq with rfl | hq
      · rw [hend p (by simp [hp]), Function.update_self]
        exact (hbefore p hp).trans ((addr_le_endOf s left).trans hlow)
      · exact hs4 p hp q (List.mem_cons_of_mem _ hq)
  · refine hall ?_ fun p hp => ?_
    · unfold UserState.endOf vmaListAddAfter
      dsimp only
      rw [Function.update_self]
      exact hb
    · exact (hend p hp).trans_lt (h.bounded p hp)
  · refine hall ?_ fun p hp => ?_
    · show (Function.update s.vma new v new).addr.toNat % 4096 = 0 ∧
        (Function.update s.vma new v new).length.toNat % 4096 = 0
      rw [Function.update_self]
      exact ⟨haddr, hlength⟩
    · show (Function.update s.vma new v p).addr.toNat % 4096 = 0 ∧
        (Function.update s.vma new v p).length.toNat % 4096 = 0
      rw [hold p hp]
      exact h.aligned p hp
  · show (Function.update s.vma new v 0).addr = 0
    rw [Function.update_of_ne hnew0.symm]
    exact h.head
  · obtain ⟨z, hz, hz0, hz1, hempty⟩ := h.first
    refine ⟨z, hsub z hz, ?_, ?_, hall ?_ fun p hp hp0 => ?_⟩
    · show (Function.update s.vma new v z).addr = 0
      rw [hold z hz]
      exact hz0
    · show (Function.update s.vma new v z).length = 0
      rw [hold z hz]
      exact hz1
    · intro hn0
      change (Function.update s.vma new v new).length = 0 at hn0
      rw [Function.update_self] at hn0
      exact absurd hn0 hv0
    · change (Function.update s.vma new v p).length = 0 at hp0
      rw [hold p hp] at hp0
      exact hempty p hp hp0
  · obtain ⟨hd, hd0, hd1⟩ := h.dyn
    refine ⟨hsub _ hd, ?_, ?_⟩
    · show (Function.update s.vma new v s.dynStart).addr = 0x80000000
      rw [hold _ hd]
      exact hd0
    · show (Function.update s.vma new v s.dynStart).length = 0
      rw [hold _ hd]
      exact hd1

theorem Listed.remove (h : Listed s (l₁ ++ p :: l₂)) (hp : (s.vma p).length ≠ 0) :
    Listed { s with next := nextRemove s.next s.prev p, prev := prevRemove s.next s.prev p, live := s.live.erase p }
      (l₁ ++ l₂) := by
  have hsub : (l₁ ++ l₂).Sublist (l₁ ++ p :: l₂) := (List.sublist_cons_self p l₂).append_left l₁
  have hmem : ∀ q ∈ l₁ ++ l₂, q ∈ l₁ ++ p :: l₂ := fun q hq => hsub.subset hq
  have hnodup := (List.nodup_cons.mp h.nodup).2
  have hnot : p ∉ l₁ ++ l₂ := by
    have hperm : (l₁ ++ p :: l₂).Perm (p :: (l₁ ++ l₂)) := List.perm_middle
    exact (List.nodup_cons.mp (hperm.nodup_iff.mp hnodup)).1
  have hkeep : ∀ q ∈ l₁ ++ p :: l₂, (s.vma q).length = 0 → q ∈ l₁ ++ l₂ := by
    intro q hq hq0
    have hqp : q ≠ p := fun hqp => hp (hqp ▸ hq0)
    rw [List.mem_append, List.mem_cons] at hq
    rw [List.mem_append]
    tauto
  obtain ⟨z, hz, hz0, hz1, hempty⟩ := h.first
  refine ⟨h.ring.remove h.nodup, h.nodup.sublist (hsub.cons_cons 0), fun q hq => ?_, h.sorted.sublist hsub,
    fun q hq => h.bounded q (hmem q hq), fun q hq => h.aligned q (hmem q hq), h.head,
    ⟨z, hkeep z hz hz1, hz0, hz1, fun q hq => hempty q (hmem q hq)⟩, hkeep _ h.dyn.1 h.dyn.2.2, h.dyn.2⟩
  have hqp : q ≠ p := fun hqp => hnot (hqp ▸ hq)
  exact (List.mem_erase_of_ne hqp).mpr (h.live q (hmem q hq))

theorem Listed.resize (h : Listed s (l₁ ++ p :: l₂)) (hp : (s.vma p).length ≠ 0) {n : Word} (hn0 : n ≠ 0)
    (hn : n.toNat % 4096 = 0) (hhigh : ∀ q ∈ l₂, (s.vma p).addr.toNat + n.toNat ≤ (s.vma q).addr.toNat)
    (hb : (s.vma p).addr.toNat + n.toNat < 2 ^ 64) :
    Listed { s with vma := Function.update s.vma p { s.vma p with length := n } } (l₁ ++ p :: l₂) := by
  have hpmem : p ∈ l₁ ++ p :: l₂ := by simp
  have hp0 : p ≠ 0 := fun hp0 => h.head_not_mem (hp0 ▸ hpmem)
  have haddr : ∀ q, (Function.update s.vma p { s.vma p with length := n } q).addr = (s.vma q).addr := by
    intro q
    by_cases hq : q = p
    · rw [hq, Function.update_self]
    · rw [Function.update_of_ne hq]
  have hself : Function.update s.vma p { s.vma p with length := n } p = { s.vma p with length := n } :=
    Function.update_self ..
  have hother : ∀ q, q ≠ p → Function.update s.vma p { s.vma p with length := n } q = s.vma q :=
    fun q hq => Function.update_of_ne hq ..
  have hempty : ∀ q, (s.vma q).length = 0 → Function.update s.vma p { s.vma p with length := n } q = s.vma q :=
    fun q hq => hother q fun hqp => hp (hqp ▸ hq)
  refine ⟨h.ring, h.nodup, h.live, ?_, fun q hq => ?_, fun q hq => ?_, ?_, ?_, h.dyn.1, ?_, ?_⟩
  · have hs := h.sorted
    rw [List.pairwise_append, List.pairwise_cons] at hs ⊢
    obtain ⟨hs1, ⟨hs2, hs3⟩, hs4⟩ := hs
    have hnodup := (List.nodup_cons.mp h.nodup).2
    rw [List.nodup_append, List.nodup_cons] at hnodup
    obtain ⟨_, ⟨hnp2, _⟩, hdisj⟩ := hnodup
    have hend : ∀ q, q ≠ p → UserState.endOf { s with vma := Function.update s.vma p { s.vma p with length := n } } q =
        s.endOf q := fun q hq => endOf_congr (hother q hq)
    have hne1 : ∀ q ∈ l₁, q ≠ p := fun q hq hqp => hdisj q hq p List.mem_cons_self hqp
    have hne2 : ∀ q ∈ l₂, q ≠ p := fun q hq hqp => hnp2 (hqp ▸ hq)
    refine ⟨hs1.imp_of_mem fun {q r} hq _ hqr => ?_, ⟨fun q hq => ?_, hs3.imp_of_mem fun {q r} hq _ hqr => ?_⟩,
      fun q hq r hr => ?_⟩
    · rw [hend q (hne1 q hq), haddr]
      exact hqr
    · unfold UserState.endOf
      dsimp only
      rw [hself, haddr]
      exact hhigh q hq
    · rw [hend q (hne2 q hq), haddr]
      exact hqr
    · rw [hend q (hne1 q hq), haddr]
      exact hs4 q hq r hr
  · unfold UserState.endOf
    dsimp only
    by_cases hqp : q = p
    · rw [hqp, hself]
      exact hb
    · rw [hother q hqp]
      exact h.bounded q hq
  · dsimp only
    by_cases hqp : q = p
    · rw [hqp, hself]
      exact ⟨(h.aligned p hpmem).1, hn⟩
    · rw [hother q hqp]
      exact h.aligned q hq
  · dsimp only
    rw [haddr]
    exact h.head
  · obtain ⟨z, hz, hz0, hz1, hz2⟩ := h.first
    refine ⟨z, hz, ?_, ?_, fun q hq hq0 => ?_⟩
    · dsimp only
      rw [haddr]
      exact hz0
    · dsimp only
      rw [hempty z hz1]
      exact hz1
    · dsimp only at hq0
      by_cases hqp : q = p
      · rw [hqp, hself] at hq0
        exact absurd hq0 hn0
      · rw [hother q hqp] at hq0
        exact hz2 q hq hq0
  · dsimp only
    rw [haddr]
    exact h.dyn.2.1
  · dsimp only
    rw [hempty _ h.dyn.2.2]
    exact h.dyn.2.2

end Operations

section Searches

theorem Listed.find (h : Listed s ps) (addr length : Word) :
    vmaListFindFixArea s addr length =
      .ok (ps.find? fun p => decide ((s.vma p).addr = addr ∧ (s.vma p).length = length)) := by
  unfold vmaListFindFixArea vmaForeach
  rw [h.ring.walk_all h.head_not_mem h.fuel, scan_find fun p => (s.vma p).addr = addr ∧ (s.vma p).length = length]
  cases ps.find? _ <;> rfl

/-- The test of `vma_list_new_fix_area`. -/
def UserState.Overlaps (s : UserState σ) (addr length : Word) (p : VmaPtr) : Prop :=
  ¬ (addr + length ≤ (s.vma p).addr ∨ (s.vma p).addr + (s.vma p).length ≤ addr)

/-- `p->addr < addr && addr < right->addr` -/
def UserState.Precedes (s : UserState σ) (addr : Word) (p : VmaPtr) : Prop :=
  (s.vma p).addr < addr ∧ addr < (s.vma (s.next p)).addr

instance : DecidablePred (s.Overlaps addr length) := fun p =>
  inferInstanceAs (Decidable (¬ (addr + length ≤ (s.vma p).addr ∨ (s.vma p).addr + (s.vma p).length ≤ addr)))

instance : DecidablePred (s.Precedes addr) := fun p =>
  inferInstanceAs (Decidable ((s.vma p).addr < addr ∧ addr < (s.vma (s.next p)).addr))

/-- The loop of `vma_list_new_fix_area` returns the last node that precedes, unless a node overlaps. -/
theorem Listed.newFix (h : Listed s ps) (addr length : Word) :
    vmaListNewFixArea s addr length =
      if ∃ p ∈ ps, s.Overlaps addr length p then .ok none
      else match ps.reverse.find? fun p => decide (s.Precedes addr p) with
        | none => .error .noCandidate
        | some p => .ok (some p) := by
  unfold vmaListNewFixArea vmaForeach
  rw [h.ring.walk_all h.head_not_mem h.fuel]
  have hscan := scan_last (s.Overlaps addr length) (s.Precedes addr) none ps
  rw [Option.or_none] at hscan
  have hbody : scan (fun (candidate : Option VmaPtr) p =>
      if ¬ (addr + length ≤ (s.vma p).addr ∨ (s.vma p).addr + (s.vma p).length ≤ addr) then .inl ()
      else .inr (if (s.vma p).addr < addr ∧ addr < (s.vma (s.next p)).addr then some p else candidate)) none ps = _ := hscan
  rw [hbody]
  by_cases hex : ∃ p ∈ ps, s.Overlaps addr length p
  · rw [if_pos hex, if_pos hex]
    rfl
  · rw [if_neg hex, if_neg hex]
    cases ps.reverse.find? _ <;> rfl

theorem Listed.newDyn (h : Listed s (l₁ ++ s.dynStart :: l₂)) (length : Word) :
    vmaListNewDynArea s length =
      match (s.dynStart :: l₂).find? fun p => decide (length ≤ s.freeAfter p) with
      | some p => .ok p
      | none => .error .noDynArea := by
  have hfuel : (s.dynStart :: l₂).length < s.live.length + 1 := by
    have hf := h.fuel
    rw [List.length_append] at hf
    omega
  unfold vmaListNewDynArea vmaForeach
  rw [h.ring.walk_from h.head_not_mem hfuel, scan_find fun p => length ≤ s.freeAfter p]
  cases (s.dynStart :: l₂).find? _ <;> rfl

end Searches

section Placement

variable {H : Host σ} {addr length : Word} {flags : BitVec 32}

theorem Listed.entries_eq (h : Listed s ps) : s.entries = ps := by
  have hscan : ∀ acc (l : List VmaPtr), scan (fun (acc : List VmaPtr) p => (.inr (acc ++ [p]) : Empty ⊕ List VmaPtr)) acc l =
      .inr (acc ++ l) := by
    intro acc l
    induction l generalizing acc with
    | nil => rw [List.append_nil]; rfl
    | cons p l ih =>
      have happ : acc ++ p :: l = acc ++ [p] ++ l := by simp
      rw [happ]
      exact ih (acc ++ [p])
  unfold UserState.entries
  rw [h.ring.walk_all h.head_not_mem h.fuel, hscan]
  rfl

theorem Listed.next_last (h : Listed s (l₁ ++ [p])) : s.next p = 0 := h.ring.next_eq

theorem Listed.next_cons (h : Listed s (l₁ ++ p :: q :: l₂)) : s.next p = q := h.ring.next_eq

/-- The gap behind a node that another one follows. -/
theorem Listed.free_cons (h : Listed s (l₁ ++ p :: q :: l₂)) :
    (s.freeAfter p).toNat = (s.vma q).addr.toNat - s.endOf p := by
  have hpmem : p ∈ l₁ ++ p :: q :: l₂ := by simp
  have hle : s.endOf p ≤ (s.vma q).addr.toNat := h.around.2 q List.mem_cons_self
  have hend := h.end_word hpmem
  unfold UserState.freeAfter
  rw [h.next_cons, BitVec.toNat_sub_of_le, hend]
  rw [BitVec.le_def, hend]
  exact hle

/-- A range of this length at `addr` goes between `left` and the nodes behind it. -/
def UserState.Gap (s : UserState σ) (left : VmaPtr) (l₂ : List VmaPtr) (addr length : Word) : Prop :=
  addr.toNat + length.toNat < 2 ^ 64 → s.endOf left ≤ addr.toNat ∧
    ∀ q ∈ l₂, addr.toNat + length.toNat ≤ (s.vma q).addr.toNat

theorem Listed.gap_of_next (h : Listed s (l₁ ++ left :: q :: l₂)) {n : Nat} (hq : n ≤ (s.vma q).addr.toNat) :
    ∀ r ∈ q :: l₂, n ≤ (s.vma r).addr.toNat := by
  have hassoc : l₁ ++ left :: q :: l₂ = (l₁ ++ [left]) ++ q :: l₂ := by simp
  rw [hassoc] at h
  intro r hr
  rcases List.mem_cons.mp hr with rfl | hr
  · exact hq
  · exact hq.trans ((addr_le_endOf s q).trans (h.around.2 r hr))

theorem Listed.newFix_spec (h : Listed s ps) (hok : vmaListNewFixArea s addr length = .ok (some left)) :
    ∃ l₁ l₂, ps = l₁ ++ left :: l₂ ∧ s.Gap left l₂ addr length ∧ addr ≠ mapFailed := by
  rw [h.newFix] at hok
  split at hok
  · cases hok
  next hno =>
  cases hfind : ps.reverse.find? (fun p => decide (s.Precedes addr p)) with
  | none =>
    rw [hfind] at hok
    cases hok
  | some p =>
    rw [hfind] at hok
    cases hok
    have hmem : left ∈ ps := List.mem_reverse.mp (List.mem_of_find?_eq_some hfind)
    have hprec : s.Precedes addr left :=
      of_decide_eq_true (List.find?_some (p := fun p => decide (s.Precedes addr p)) hfind)
    have hfree : ∀ p ∈ ps, addr + length ≤ (s.vma p).addr ∨ (s.vma p).addr + (s.vma p).length ≤ addr := by
      intro p hp
      by_contra hover
      exact hno ⟨p, hp, hover⟩
    obtain ⟨l₁, l₂, rfl⟩ := List.append_of_mem hmem
    obtain ⟨hlow, hhigh⟩ := hprec
    cases l₂ with
    | nil =>
      rw [h.next_last, h.head] at hhigh
      exact absurd hhigh (BitVec.not_lt_zero)
    | cons q l₂ =>
      rw [h.next_cons] at hhigh
      refine ⟨l₁, q :: l₂, rfl, fun hb => ⟨?_, h.gap_of_next ?_⟩, fun hmax => ?_⟩
      · rcases hfree left hmem with hle | hle
        · rw [BitVec.le_def, BitVec.toNat_add, Nat.mod_eq_of_lt hb] at hle
          rw [BitVec.lt_def] at hlow
          omega
        · rw [BitVec.le_def, h.end_word hmem] at hle
          exact hle
      · have hqmem : q ∈ l₁ ++ left :: q :: l₂ := by simp
        rcases hfree q hqmem with hle | hle
        · rw [BitVec.le_def, BitVec.toNat_add, Nat.mod_eq_of_lt hb] at hle
          exact hle
        · rw [BitVec.le_def, h.end_word hqmem] at hle
          rw [BitVec.lt_def] at hhigh
          have hq := addr_le_endOf s q
          omega
      · rw [hmax, BitVec.lt_def] at hhigh
        have hq := (s.vma q).addr.isLt
        have hval : mapFailed.toNat = 2 ^ 64 - 1 := rfl
        omega

/-- The nodes from `dyn_start` on, up to the first gap of this size. -/
structure FirstFit (s : UserState σ) (ps : List VmaPtr) (length : Word) (left : VmaPtr) : Prop where
  split : ∃ l₁ small l₂, ps = l₁ ++ (small ++ left :: l₂) ∧ (∃ l, small ++ left :: l₂ = s.dynStart :: l) ∧
    ∀ p ∈ small, ¬ length ≤ s.freeAfter p
  large : length ≤ s.freeAfter left

theorem Listed.newDyn_spec (h : Listed s ps) (hok : vmaListNewDynArea s length = .ok left) :
    FirstFit s ps length left := by
  obtain ⟨l₁, l₂, rfl⟩ := List.append_of_mem h.dyn.1
  rw [h.newDyn] at hok
  cases hfind : (s.dynStart :: l₂).find? (fun p => decide (length ≤ s.freeAfter p)) with
  | none =>
    rw [hfind] at hok
    cases hok
  | some p =>
    rw [hfind] at hok
    cases hok
    obtain ⟨hlarge, small, rest, heq, hsmall⟩ := List.find?_eq_some_iff_append.mp hfind
    refine ⟨⟨l₁, small, rest, ?_, ⟨l₂, heq.symm⟩, fun p hp => ?_⟩, of_decide_eq_true hlarge⟩
    · rw [heq]
    · have hp' := hsmall p hp
      rw [Bool.not_eq_true', decide_eq_false_iff_not] at hp'
      exact hp'

theorem FirstFit.gap (hf : FirstFit s ps length left) (h : Listed s ps) :
    ∃ l₁ l₂, ps = l₁ ++ left :: l₂ ∧ s.Gap left l₂ ((s.vma left).addr + (s.vma left).length) length ∧
      (s.vma left).addr + (s.vma left).length ≠ mapFailed := by
  obtain ⟨⟨l₁, small, l₂, rfl, _, _⟩, hlarge⟩ := hf
  have hassoc : l₁ ++ (small ++ left :: l₂) = (l₁ ++ small) ++ left :: l₂ := by simp
  rw [hassoc] at h ⊢
  have hmem : left ∈ (l₁ ++ small) ++ left :: l₂ := by simp
  have hend := h.end_word hmem
  refine ⟨l₁ ++ small, l₂, rfl, fun _ => ⟨Nat.le_of_eq hend.symm, ?_⟩, fun hmax => ?_⟩
  · rw [hend]
    cases l₂ with
    | nil => exact fun q hq => absurd hq List.not_mem_nil
    | cons q l₂ =>
      apply h.gap_of_next
      have hle : s.endOf left ≤ (s.vma q).addr.toNat := h.around.2 q List.mem_cons_self
      rw [BitVec.le_def, h.free_cons] at hlarge
      omega
  · have hval : mapFailed.toNat = 2 ^ 64 - 1 := rfl
    obtain ⟨ha, hl⟩ := h.aligned left hmem
    rw [hmax, hval] at hend
    unfold UserState.endOf at hend
    omega

end Placement

section Calls

variable {H : Host σ} {addr length : Word} {prot flags fd : BitVec 32} {offset : Word} {t : UserState σ} {ret : Word}

theorem roundup4096_of_mod (h : length.toNat % 4096 = 0) : roundup4096 length = length := by
  apply BitVec.eq_of_toNat_eq
  unfold roundup4096
  rw [low_mask]
  have hlt := length.isLt
  have hsum : (length + 4096 - 1).toNat = length.toNat + 4095 := by
    have hassoc : length + 4096 - 1 = length + 4095#64 := by
      rw [BitVec.sub_eq_add_neg, BitVec.add_assoc]
      rfl
    have hlit : (4095#64).toNat = 4095 := rfl
    rw [hassoc, BitVec.toNat_add, hlit]
    exact Nat.mod_eq_of_lt (by omega)
  rw [hsum]
  omega

/-- What a mapping that has been put behind `left` changes. -/
structure Inserted (s t : UserState σ) (l₁ : List VmaPtr) (left : VmaPtr) (l₂ : List VmaPtr) (new : VmaPtr)
    (v : Vma) : Prop where
  listed : Listed t (l₁ ++ left :: new :: l₂)
  fresh : new ∉ l₁ ++ left :: l₂
  data : t.vma new = v
  others : ∀ p, p ≠ new → t.vma p = s.vma p
  dynStart : t.dynStart = s.dynStart
  nonempty : v.length ≠ 0
  bounded : v.addr.toNat + v.length.toNat < 2 ^ 64
  frame : ∀ x, ¬ x - v.addr < v.length → t.mem x = s.mem x

theorem userInsert_spec (hH : H.Lawful) (h : Listed s (l₁ ++ left :: l₂)) {v : Vma}
    (hgap : s.Gap left l₂ v.addr v.length) (hfixed : v.flags &&& mapFixed ≠ 0) (hmod : v.length.toNat % 4096 = 0)
    (hne : v.addr ≠ mapFailed) (hok : userInsert H s left v = .ok (ret, t)) :
    ret = v.addr ∧ ∃ new, Inserted s t l₁ left l₂ new v := by
  unfold userInsert vmaNew at hok
  cases hm : H.malloc s.os s.live with
  | none =>
    rw [hm] at hok
    cases hok
  | some new =>
    rw [hm] at hok
    obtain ⟨hnew0, hnew⟩ := H.malloc_fresh _ _ _ hm
    by_cases hret : (H.mmap s.os s.mem v).1 = v.addr
    · rcases hH.mmap s.os s.mem v hfixed with hfail | ⟨_, haddr, hlen, hb, hframe⟩
      · exact absurd (hret.symm.trans hfail) hne
      · have hres : (ret, t) = ((H.mmap s.os s.mem v).1,
          { vmaListAddAfter { s with vma := Function.update s.vma new v, live := new :: s.live } left new with
            os := (H.mmap s.os s.mem v).2.1
            mem := (H.mmap s.os s.mem v).2.2 }) := by
          have hcond : ¬ (v.flags &&& mapFixed ≠ 0 ∧ (H.mmap s.os s.mem v).1 ≠ v.addr) := fun hc => hc.2 hret
          have hrun := hok
          dsimp only [bind, Except.bind, pure, Except.pure, vmaListAddAfter] at hrun
          rw [if_neg hcond] at hrun
          cases hrun
          rfl
        cases hres
        obtain ⟨hlow, hhigh⟩ := hgap hb
        refine ⟨hret, new, ⟨(h.insert hnew0 hnew haddr hmod hlen hlow hhigh hb).host _ _, fun hmem => ?_, ?_,
          fun p hp => ?_, rfl, hlen, hb, fun x hx => ?_⟩⟩
        · exact hnew (h.live new hmem)
        · exact Function.update_self ..
        · exact Function.update_of_ne hp ..
        · apply hframe
          rw [roundup4096_of_mod hmod]
          exact hx
    · have hcond : v.flags &&& mapFixed ≠ 0 ∧ (H.mmap s.os s.mem v).1 ≠ v.addr := ⟨hfixed, hret⟩
      dsimp only [bind, Except.bind, pure, Except.pure, vmaListAddAfter] at hok
      rw [if_pos hcond] at hok
      cases hok

/-- What `user_mmap` does when it returns. -/
structure UserMapped (s t : UserState σ) (ps : List VmaPtr) (addr length : Word) (flags : BitVec 32) (ret : Word) : Prop where
  inserted : ∃ l₁ left l₂ new v, ps = l₁ ++ left :: l₂ ∧ Inserted s t l₁ left l₂ new v ∧ v.addr = ret ∧
    v.length = roundup4096 length ∧
    (flags &&& mapFixed = 0 → FirstFit s ps (roundup4096 length) left ∧ ret.toNat = s.endOf left)
  fixed : flags &&& mapFixed ≠ 0 → ret = addr

theorem userMmap_spec (hH : H.Lawful) (h : Listed s ps)
    (hok : userMmap H s addr length prot flags fd offset = .ok (ret, t)) : UserMapped s t ps addr length flags ret := by
  unfold userMmap at hok
  obtain ⟨⟨left, addr', flags'⟩, hplace, hins⟩ := Except.bind_eq_ok.mp hok
  dsimp only at hins
  unfold userPlace at hplace
  by_cases hflags : flags &&& mapFixed ≠ 0
  · rw [if_pos hflags] at hplace
    obtain ⟨r, hr, hplace⟩ := Except.bind_eq_ok.mp hplace
    cases r with
    | none => cases hplace
    | some left' =>
      cases hplace
      obtain ⟨l₁, l₂, rfl, hgap, hne⟩ := h.newFix_spec hr
      obtain ⟨hret, new, hnew⟩ := userInsert_spec hH h (v := ⟨_, _, _, _, _, _⟩) hgap hflags (roundup4096_mod length) hne hins
      exact ⟨⟨l₁, left, l₂, new, _, rfl, hnew, hret.symm, rfl, fun h0 => absurd h0 hflags⟩, fun _ => hret⟩
  · rw [if_neg hflags] at hplace
    obtain ⟨left', hr, hplace⟩ := Except.bind_eq_ok.mp hplace
    cases hplace
    have hfit := h.newDyn_spec hr
    obtain ⟨l₁, l₂, hps, hgap, hne⟩ := hfit.gap h
    have hfixed : (flags ||| mapFixed) &&& mapFixed ≠ 0 := by
      have habs : (flags ||| mapFixed) &&& mapFixed = mapFixed := by
        apply BitVec.eq_of_getLsbD_eq
        intro i _
        rw [BitVec.getLsbD_and, BitVec.getLsbD_or]
        cases flags.getLsbD i <;> cases mapFixed.getLsbD i <;> rfl
      rw [habs]
      decide
    have h' := h
    rw [hps] at h'
    obtain ⟨hret, new, hnew⟩ := userInsert_spec hH h' (v := ⟨_, _, _, _, _, _⟩) hgap hfixed (roundup4096_mod length) hne hins
    refine ⟨⟨l₁, left, l₂, new, _, hps, hnew, hret.symm, rfl, fun _ => ⟨hfit, ?_⟩⟩, fun h0 => absurd h0 hflags⟩
    rw [hret]
    exact h'.end_word (by simp)

theorem Listed.find_some (h : Listed s ps) (hok : vmaListFindFixArea s addr length = .ok (some p)) :
    p ∈ ps ∧ (s.vma p).addr = addr ∧ (s.vma p).length = length := by
  rw [h.find] at hok
  have hfind : ps.find? (fun p => decide ((s.vma p).addr = addr ∧ (s.vma p).length = length)) = some p :=
    Except.ok.inj hok
  have hdec := List.find?_some (p := fun p => decide ((s.vma p).addr = addr ∧ (s.vma p).length = length)) hfind
  exact ⟨List.mem_of_find?_eq_some hfind, of_decide_eq_true hdec⟩

/-- What `user_munmap` does when it returns. -/
structure Unmapped (s t : UserState σ) (ps : List VmaPtr) (addr length : Word) (p : VmaPtr) : Prop where
  removed : ∃ l₁ l₂, ps = l₁ ++ p :: l₂ ∧ Listed t (l₁ ++ l₂)
  range : (s.vma p).addr = addr ∧ (s.vma p).length = length
  nonempty : length ≠ 0
  data : t.vma = s.vma
  dynStart : t.dynStart = s.dynStart
  frame : ∀ x, ¬ x - addr < length → t.mem x = s.mem x

theorem userMunmap_spec {r : BitVec 32} (hH : H.Lawful) (h : Listed s ps)
    (hok : userMunmap H s addr length = .ok (r, t)) :
    ∃ p, Unmapped s t ps addr length p := by
  unfold userMunmap at hok
  obtain ⟨o, ho, hok⟩ := Except.bind_eq_ok.mp hok
  cases o with
  | none => cases hok
  | some p =>
    obtain ⟨hmem, haddr, hlen⟩ := h.find_some ho
    by_cases hret : (H.munmap s.os s.mem addr length).1 = 0
    · obtain ⟨hne, hframe⟩ := hH.munmap _ _ _ _ hret
      obtain ⟨l₁, l₂, rfl⟩ := List.append_of_mem hmem
      have hp0 : (s.vma p).length ≠ 0 := by
        rw [hlen]
        exact hne
      have hmod := (h.aligned p hmem).2
      dsimp only [bind, Except.bind, pure, Except.pure] at hok
      rw [if_neg (not_not.mpr hret)] at hok
      cases hok
      refine ⟨p, ⟨l₁, l₂, rfl, (h.remove hp0).host _ _⟩, ⟨haddr, hlen⟩, hne, rfl, rfl, fun x hx => ?_⟩
      apply hframe
      rw [← hlen, roundup4096_of_mod hmod, hlen]
      exact hx
    · dsimp only [bind, Except.bind, pure, Except.pure] at hok
      rw [if_pos hret] at hok
      cases hok

/-- What `user_mremap` does when the mapping stays. -/
structure Resized (s t : UserState σ) (ps : List VmaPtr) (oldAddr oldSize newSize ret : Word) (p : VmaPtr) : Prop where
  mem : p ∈ ps
  range : (s.vma p).addr = oldAddr ∧ (s.vma p).length = oldSize
  listed : Listed t ps
  data : t.vma p = { s.vma p with length := newSize }
  others : ∀ q, q ≠ p → t.vma q = s.vma q
  dynStart : t.dynStart = s.dynStart
  nonempty : oldSize ≠ 0 ∧ newSize ≠ 0
  ret : ret = oldAddr
  contents : ∀ x, x - oldAddr < oldSize → x - oldAddr < newSize → t.mem x = s.mem x

theorem userResize_spec {oldAddr oldSize newSize : Word} (hH : H.Lawful) (h : Listed s ps) (hp : p ∈ ps)
    (hrange : (s.vma p).addr = oldAddr ∧ (s.vma p).length = oldSize) (hmod : newSize.toNat % 4096 = 0)
    (hfree : newSize ≤ s.freeToExpand p) (hok : userResize H s p oldAddr oldSize newSize = .ok (ret, t)) :
    Resized s t ps oldAddr oldSize newSize ret p := by
  obtain ⟨haddr, hlen⟩ := hrange
  unfold userResize at hok
  by_cases hret : (H.mremap s.os s.mem oldAddr oldSize newSize).1 = oldAddr
  · have hne : oldAddr ≠ mapFailed := by
      intro hmax
      have hval : mapFailed.toNat = 2 ^ 64 - 1 := rfl
      have ha := (h.aligned p hp).1
      rw [haddr, hmax, hval] at ha
      omega
    rcases hH.mremap s.os s.mem oldAddr oldSize newSize with hfail | ⟨_, ho, hn, hb, hcontents⟩
    · exact absurd (hret.symm.trans hfail) hne
    · dsimp only [bind, Except.bind, pure, Except.pure] at hok
      rw [if_neg (not_not.mpr hret)] at hok
      cases hok
      have hp0 : (s.vma p).length ≠ 0 := by
        rw [hlen]
        exact ho
      have hb' : (s.vma p).addr.toNat + newSize.toNat < 2 ^ 64 := by
        rw [haddr]
        exact hb
      obtain ⟨l₁, l₂, rfl⟩ := List.append_of_mem hp
      have hhigh : ∀ q ∈ l₂, (s.vma p).addr.toNat + newSize.toNat ≤ (s.vma q).addr.toNat := by
        cases l₂ with
        | nil => exact fun q hq => absurd hq List.not_mem_nil
        | cons q l₂ =>
          apply h.gap_of_next
          have hle := h.around.2 q List.mem_cons_self
          have hlow := addr_le_endOf s p
          unfold UserState.freeToExpand at hfree
          rw [h.next_cons, BitVec.le_def, BitVec.toNat_sub_of_le (BitVec.le_def.mpr (hlow.trans hle))] at hfree
          omega
      refine ⟨hp, ⟨haddr, hlen⟩, (h.resize hp0 hn hmod hhigh hb').host _ _, ?_, fun q hq => ?_, rfl, ⟨ho, hn⟩, rfl,
        hcontents⟩
      · exact Function.update_self ..
      · exact Function.update_of_ne hq ..
  · dsimp only [bind, Except.bind, pure, Except.pure] at hok
    rw [if_pos hret] at hok
    cases hok

/-- What `user_mremap` does when the mapping moves: a new one is made, and the old one, which is `p`, goes. -/
structure Relocated (s t : UserState σ) (ps : List VmaPtr) (oldAddr oldSize newSize ret : Word) (p : VmaPtr) : Prop where
  range : (s.vma p).addr = oldAddr ∧ (s.vma p).length = oldSize
  nonempty : oldSize ≠ 0
  moved : ∃ l₁ left l₂ new v u r₁ r₂, ps = l₁ ++ left :: l₂ ∧ Inserted s u l₁ left l₂ new v ∧ v.addr = ret ∧
    v.length = newSize ∧ FirstFit s ps newSize left ∧ ret.toNat = s.endOf left ∧
    l₁ ++ left :: new :: l₂ = r₁ ++ p :: r₂ ∧ p ∈ ps ∧ Listed t (r₁ ++ r₂) ∧ t.vma = u.vma ∧ t.dynStart = s.dynStart
  contents : ∀ i, i < oldSize → i < newSize → t.mem (ret + i) = s.mem (oldAddr + i)

theorem not_in_range {a n x : Word} (hn : a.toNat + n.toNat < 2 ^ 64)
    (h : x.toNat < a.toNat ∨ a.toNat + n.toNat ≤ x.toNat) : ¬ x - a < n := by
  rw [BitVec.lt_def, BitVec.toNat_sub]
  have hx := x.isLt
  omega

theorem userMove_spec {oldAddr oldSize newSize : Word} (hH : H.Lawful) (h : Listed s ps) (hp : p ∈ ps)
    (hrange : (s.vma p).addr = oldAddr ∧ (s.vma p).length = oldSize) (hmod : newSize.toNat % 4096 = 0)
    (hok : userMove H s p oldAddr oldSize newSize = .ok (ret, t)) :
    Relocated s t ps oldAddr oldSize newSize ret p := by
  obtain ⟨haddr, hlen⟩ := hrange
  unfold userMove at hok
  obtain ⟨⟨newAddr, u⟩, hmap, hok⟩ := Except.bind_eq_ok.mp hok
  dsimp only at hok
  obtain ⟨⟨r, t'⟩, hunmap, hok⟩ := Except.bind_eq_ok.mp hok
  cases hok
  have hflags : (s.vma p).flags &&& ~~~mapFixed &&& mapFixed = 0 := by
    rw [BitVec.and_assoc]
    exact BitVec.and_zero
  obtain ⟨⟨l₁, left, l₂, new, v, rfl, hins, hv, hvlen, hfit⟩, _⟩ := userMmap_spec hH h hmap
  obtain ⟨hfirst, hend⟩ := hfit hflags
  rw [roundup4096_of_mod hmod] at hvlen hfirst
  have hpn : p ≠ new := fun hpn => hins.fresh (hpn ▸ hp)
  have hup : u.vma p = s.vma p := hins.others p hpn
  have hul : Listed { u with mem := userMemcpy u.mem ret oldAddr oldSize } (l₁ ++ left :: new :: l₂) :=
    hins.listed.host u.os _
  rw [hup, hlen] at hunmap
  obtain ⟨p', ⟨⟨r₁, r₂, hr, hlisted⟩, hrange', hne, hdata, hdyn, hframe⟩⟩ := userMunmap_spec hH hul hunmap
  have hpmem : p ∈ l₁ ++ left :: new :: l₂ := by
    simp only [List.mem_append, List.mem_cons] at hp ⊢
    tauto
  have hnmem : new ∈ l₁ ++ left :: new :: l₂ := by simp
  have hpp : p' = p := by
    have hp'mem : p' ∈ l₁ ++ left :: new :: l₂ := by
      rw [hr]
      simp
    apply hins.listed.eq_of_addr hp'mem hpmem
    · rw [hrange'.2]
      exact hne
    · rw [hup, hlen]
      exact hne
    · rw [hrange'.1, hup, haddr]
  rw [hpp] at hr hrange'
  -- the two mappings have nothing in common while both are there
  have hdisj := hins.listed.disjoint hnmem hpmem hpn.symm
  have hpb := hins.listed.bounded p hpmem
  unfold UserState.endOf at hdisj hpb
  rw [hins.data, hup, haddr, hlen, hv, hvlen] at hdisj
  rw [hup, haddr, hlen] at hpb
  have hvb := hins.bounded
  rw [hv, hvlen] at hvb
  refine ⟨⟨haddr, hlen⟩, hne, ⟨l₁, left, l₂, new, v, u, r₁, r₂, rfl, hins, hv, hvlen, hfirst, hend, hr, hp, hlisted, hdata,
    hdyn.trans hins.dynStart⟩, fun i hi hi' => ?_⟩
  rw [BitVec.lt_def] at hi hi'
  have hnew : (ret + i).toNat = ret.toNat + i.toNat := by
    rw [BitVec.toNat_add]
    exact Nat.mod_eq_of_lt (by omega)
  have hold : (oldAddr + i).toNat = oldAddr.toNat + i.toNat := by
    rw [BitVec.toNat_add]
    exact Nat.mod_eq_of_lt (by omega)
  have hsub : ret + i - ret = i := by
    rw [BitVec.add_comm, BitVec.add_sub_cancel]
  calc t'.mem (ret + i) = userMemcpy u.mem ret oldAddr oldSize (ret + i) := hframe _ (not_in_range hpb (by omega))
    _ = u.mem (oldAddr + i) := by
      unfold userMemcpy
      rw [hsub, if_pos (BitVec.lt_def.mpr hi)]
    _ = s.mem (oldAddr + i) := by
      apply hins.frame
      rw [hv, hvlen]
      exact not_in_range hvb (by omega)

theorem userMremap_spec {oldAddr oldSize newSize : Word} (hH : H.Lawful) (h : Listed s ps)
    (hok : userMremap H s oldAddr oldSize newSize flags = .ok (ret, t)) :
    ∃ p, vmaListFindFixArea s oldAddr oldSize = .ok (some p) ∧
      (roundup4096 newSize ≤ s.freeToExpand p ∧ Resized s t ps oldAddr oldSize (roundup4096 newSize) ret p ∨
        ¬ roundup4096 newSize ≤ s.freeToExpand p ∧ Relocated s t ps oldAddr oldSize (roundup4096 newSize) ret p) := by
  unfold userMremap at hok
  obtain ⟨o, ho, hok⟩ := Except.bind_eq_ok.mp hok
  cases o with
  | none => cases hok
  | some p =>
    obtain ⟨hp, hrange⟩ := h.find_some ho
    dsimp only [bind, Except.bind, pure, Except.pure] at hok
    split at hok
    · cases hok
    refine ⟨p, ho, ?_⟩
    by_cases hfree : roundup4096 newSize ≤ s.freeToExpand p
    · rw [if_pos hfree] at hok
      exact .inl ⟨hfree, userResize_spec hH h hp hrange (roundup4096_mod newSize) hfree hok⟩
    · rw [if_neg hfree] at hok
      exact .inr ⟨hfree, userMove_spec hH h hp hrange (roundup4096_mod newSize) hok⟩

end Calls

end Nemu
