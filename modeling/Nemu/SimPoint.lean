import Nemu.Config
import Mathlib.Algebra.BigOperators.Group.List.Basic
import Mathlib.Data.List.Chain
import Mathlib.Data.Fintype.Card

namespace Nemu

set_option autoImplicit true

structure BBInfo where
  id : Word
  insts : Word
  count : Word

/-- The first and the last `pc` of a basic block. -/
abbrev BasicBlockRange := Word × Word

/-- The entries of `bbMap` are kept in the order in which they were inserted. `stream` holds the lines
that were written, each with its pairs of an id and a count. -/
structure SimPoint where
  lastICount : Word
  intervalSize : Word
  intervalCount : Word
  intervalDrift : Word
  stream : List (List (Word × Word))
  bbMap : List (BasicBlockRange × BBInfo)
  currentBBV : BasicBlockRange
  currentBBVInstCount : Word

/-- Counts `n` instructions for a basic block, which gets the next id when it is new. -/
def countBlock (n : Word) (bbv : BasicBlockRange) (m : List (BasicBlockRange × BBInfo)) :
    List (BasicBlockRange × BBInfo) :=
  if m.any fun e => e.1 == bbv then
    m.map fun e => if e.1 = bbv then (e.1, { e.2 with count := e.2.count + n }) else e
  else m ++ [(bbv, ⟨BitVec.ofNat 64 (m.length + 1), n, n⟩)]

/-- The order of pairs that `std::sort` uses. -/
def pairLe (a b : Word × Word) : Bool := decide (a.1 < b.1) || (a.1 == b.1 && decide (a.2 ≤ b.2))

/-- The line that is written at the end of an interval. -/
def bbvLine (m : List (BasicBlockRange × BBInfo)) : List (Word × Word) :=
  ((m.map fun e => (e.2.id, e.2.count)).filter fun c => c.2 != 0).mergeSort pairLe

def clearCounts (m : List (BasicBlockRange × BBInfo)) : List (BasicBlockRange × BBInfo) :=
  m.map fun e => (e.1, { e.2 with count := 0 })

namespace SimPoint

/-- The end of a basic block. -/
def endBlock (pc : Word) (sp : SimPoint) : SimPoint :=
  let bbv := (sp.currentBBV.1, pc)
  let sp := { sp with
    currentBBV := bbv
    bbMap := countBlock sp.currentBBVInstCount bbv sp.bbMap
    currentBBVInstCount := 0 }
  if sp.intervalSize ≤ sp.intervalCount + sp.intervalDrift then
    { sp with
      stream := sp.stream ++ [bbvLine sp.bbMap]
      bbMap := clearCounts sp.bbMap
      intervalDrift := sp.intervalCount + sp.intervalDrift - sp.intervalSize
      intervalCount := 0 }
  else sp

def profile (pc : Word) (isControl isLastUop : Bool) (instrCount : BitVec 32) (sp : SimPoint) : SimPoint :=
  if isLastUop then
    let first := if sp.currentBBVInstCount = 0 then pc else sp.currentBBV.1
    let sp := { sp with
      currentBBV := (first, sp.currentBBV.2)
      intervalCount := sp.intervalCount + instrCount.setWidth 64
      currentBBVInstCount := sp.currentBBVInstCount + instrCount.setWidth 64 }
    if isControl then sp.endBlock pc else sp
  else sp

/-- `exec_count` is an `unsigned`. -/
def profileWithAbsIcount (pc : Word) (isControl isLastUop : Bool) (absIcount : Word) (sp : SimPoint) : SimPoint :=
  let execCount := (absIcount - sp.lastICount).setWidth 32
  { sp.profile pc isControl isLastUop execCount with lastICount := absIcount }

end SimPoint

/-- A profile together with what is to be counted: the instructions since the last line, and those
before each line since the one before it. -/
structure SimLedger where
  sp : SimPoint
  since : Nat
  lines : List Nat

namespace SimLedger

/-- The start of a profile: as the constructor and `init` leave it, except that counting may start
with any `lastICount`. -/
def start (intervalSize lastICount : Word) : SimLedger :=
  ⟨⟨lastICount, intervalSize, 0, 0, [], [], (0, 0), 0⟩, 0, []⟩

/-- `simpoint_profiling` at the end of a basic block. -/
def call (l : SimLedger) (c : Word × Word) : SimLedger :=
  let sp := l.sp.profileWithAbsIcount c.1 true true c.2
  let since := l.since + (c.2.toNat - l.sp.lastICount.toNat)
  if sp.stream.length = l.sp.stream.length then ⟨sp, since, l.lines⟩ else ⟨sp, 0, l.lines ++ [since]⟩

def run (l : SimLedger) (calls : List (Word × Word)) : SimLedger := calls.foldl call l

end SimLedger

def lineSum (line : List (Word × Word)) : Nat := (line.map fun c => c.2.toNat).sum

/-- No instruction is lost or counted twice since `start`, and an id stands for one basic block. -/
structure SimLedger.Conserves (l : SimLedger) (start : Word) : Prop where
  balance : l.sp.stream.length * l.sp.intervalSize.toNat + l.sp.intervalDrift.toNat +
    l.sp.intervalCount.toNat + start.toNat = l.sp.lastICount.toNat
  lines : l.sp.stream.map lineSum = l.lines
  unique : ∀ e₁ ∈ l.sp.bbMap, ∀ e₂ ∈ l.sp.bbMap, e₁.2.id = e₂.2.id ↔ e₁.1 = e₂.1
  known : ∀ line ∈ l.sp.stream, ∀ x ∈ line, ∃ e ∈ l.sp.bbMap, e.2.id = x.1

variable {sp : SimPoint} {l : SimLedger} {m : List (BasicBlockRange × BBInfo)} {n pc icount S : Word}
  {bbv : BasicBlockRange} {g : BitVec 32} {first : Word} {base short : Nat} {calls : List (Word × Word)} {c : Word × Word}

section Map

/-- The instructions that are counted and not written yet. -/
def pending (m : List (BasicBlockRange × BBInfo)) : Nat := (m.map fun e => e.2.count.toNat).sum

theorem pending_cons (e : BasicBlockRange × BBInfo) (m : List (BasicBlockRange × BBInfo)) :
    pending (e :: m) = e.2.count.toNat + pending m := by
  unfold pending
  rw [List.map_cons, List.sum_cons]

theorem pending_append (m m' : List (BasicBlockRange × BBInfo)) : pending (m ++ m') = pending m + pending m' := by
  unfold pending
  rw [List.map_append, List.sum_append]

theorem pending_update (hkeys : (m.map Prod.fst).Nodup) (hmem : bbv ∈ m.map Prod.fst)
    (hroom : pending m + n.toNat < 2 ^ 64) :
    pending (m.map fun e => if e.1 = bbv then (e.1, { e.2 with count := e.2.count + n }) else e) =
      pending m + n.toNat := by
  induction m with
  | nil => exact absurd hmem List.not_mem_nil
  | cons e m ih =>
    rw [List.map_cons, List.nodup_cons] at hkeys
    rw [pending_cons] at hroom
    rw [List.map_cons, pending_cons, pending_cons]
    by_cases he : e.1 = bbv
    · have hrest : m.map (fun e => if e.1 = bbv then (e.1, { e.2 with count := e.2.count + n }) else e) = m := by
        refine (List.map_congr_left fun e' he' => if_neg ?_).trans (List.map_id' m)
        intro hsame
        exact hkeys.1 (List.mem_map.mpr ⟨e', he', hsame.trans he.symm⟩)
      have hsum : (e.2.count + n).toNat = e.2.count.toNat + n.toNat := by
        rw [BitVec.toNat_add, Nat.mod_eq_of_lt]
        omega
      rw [if_pos he, hrest]
      dsimp only
      rw [hsum]
      omega
    · have hmem' : bbv ∈ m.map Prod.fst := by
        rw [List.map_cons, List.mem_cons] at hmem
        rcases hmem with hmem | hmem
        · exact absurd hmem.symm he
        · exact hmem
      rw [if_neg he, ih hkeys.2 hmem' (by omega)]
      omega

/-- What the map keeps: one entry for a block, and ids in the order of the entries. The blocks have
one instruction that counts, the one at their end. -/
structure Numbered (m : List (BasicBlockRange × BBInfo)) : Prop where
  keys : (m.map Prod.fst).Nodup
  ids : m.map (fun e => e.2.id) = (List.range m.length).map fun i => BitVec.ofNat 64 (i + 1)
  ends : ∀ e ∈ m, e.1.1 = e.1.2

theorem numbered_nil : Numbered [] where
  keys := List.nodup_nil
  ids := rfl
  ends _ he := absurd he List.not_mem_nil

theorem Numbered.same (h : Numbered m) {f : BasicBlockRange × BBInfo → BasicBlockRange × BBInfo}
    (hf : ∀ e, (f e).1 = e.1 ∧ (f e).2.id = e.2.id) : Numbered (m.map f) := by
  constructor
  · rw [List.map_map, show Prod.fst ∘ f = Prod.fst from funext fun e => (hf e).1]
    exact h.keys
  · rw [List.map_map, List.length_map, ← h.ids]
    exact List.map_congr_left fun e _ => (hf e).2
  · intro e he
    obtain ⟨e', he', rfl⟩ := List.mem_map.mp he
    rw [(hf e').1]
    exact h.ends e' he'

theorem clearCounts_pending (m : List (BasicBlockRange × BBInfo)) : pending (clearCounts m) = 0 := by
  induction m with
  | nil => rfl
  | cons e m ih =>
    have hcons : clearCounts (e :: m) = (e.1, { e.2 with count := 0 }) :: clearCounts m := rfl
    rw [hcons, pending_cons, ih]
    rfl

theorem Numbered.clear (h : Numbered m) : Numbered (clearCounts m) := h.same fun _ => ⟨rfl, rfl⟩

theorem Numbered.length_le (h : Numbered m) : m.length ≤ 2 ^ 64 := by
  have hnodup : (m.map fun e => e.1.1.toFin).Nodup := by
    have hinj : ∀ e₁ ∈ m, ∀ e₂ ∈ m, e₁.1.1.toFin = e₂.1.1.toFin → e₁.1 = e₂.1 := by
      intro e₁ h₁ e₂ h₂ heq
      have hfirst : e₁.1.1 = e₂.1.1 := BitVec.toFin_inj.mp heq
      refine Prod.ext hfirst ?_
      rw [← h.ends e₁ h₁, ← h.ends e₂ h₂]
      exact hfirst
    have hpair : m.Pairwise fun e₁ e₂ => e₁.1 ≠ e₂.1 := List.pairwise_map.mp h.keys
    apply List.pairwise_map.mpr
    apply hpair.imp_of_mem
    intro e₁ e₂ h₁ h₂ hne heq
    exact hne (hinj e₁ h₁ e₂ h₂ heq)
  have hlen := hnodup.length_le_card
  rw [List.length_map, Fintype.card_fin] at hlen
  exact hlen

/-- Every id belongs to one block, and every block to one id. -/
theorem Numbered.unique (h : Numbered m) :
    ∀ e₁ ∈ m, ∀ e₂ ∈ m, e₁.2.id = e₂.2.id ↔ e₁.1 = e₂.1 := by
  have hid : ∀ i (hi : i < m.length), m[i].2.id = BitVec.ofNat 64 (i + 1) := by
    intro i hi
    have hget := congrArg (fun l => l[i]?) h.ids
    simpa [hi] using hget
  have hlen := h.length_le
  intro e₁ h₁ e₂ h₂
  obtain ⟨i, hi, rfl⟩ := List.getElem_of_mem h₁
  obtain ⟨j, hj, rfl⟩ := List.getElem_of_mem h₂
  constructor
  · intro heq
    rw [hid i hi, hid j hj] at heq
    have hmod : (i + 1) % 2 ^ 64 = (j + 1) % 2 ^ 64 := by
      simpa only [BitVec.toNat_ofNat] using congrArg BitVec.toNat heq
    obtain rfl : i = j := by omega
    rfl
  · intro heq
    have hi' : i < (m.map Prod.fst).length := by
      rw [List.length_map]
      exact hi
    have hj' : j < (m.map Prod.fst).length := by
      rw [List.length_map]
      exact hj
    have hget : (m.map Prod.fst)[i] = (m.map Prod.fst)[j] := by
      rw [List.getElem_map, List.getElem_map]
      exact heq
    obtain rfl : i = j := (h.keys.getElem_inj_iff).mp hget
    rfl

theorem any_block : (m.any fun e => e.1 == bbv) = true ↔ bbv ∈ m.map Prod.fst := by
  rw [List.any_eq_true, List.mem_map]
  constructor
  · rintro ⟨e, he, heq⟩
    exact ⟨e, he, beq_iff_eq.mp heq⟩
  · rintro ⟨e, he, heq⟩
    exact ⟨e, he, beq_iff_eq.mpr heq⟩

theorem countBlock_known (n : Word) (bbv : BasicBlockRange) {e : BasicBlockRange × BBInfo} (he : e ∈ m) :
    ∃ e' ∈ countBlock n bbv m, e'.2.id = e.2.id := by
  unfold countBlock
  split
  · refine ⟨_, List.mem_map_of_mem he, ?_⟩
    split
    · rfl
    · rfl
  · exact ⟨e, List.mem_append_left _ he, rfl⟩

theorem countBlock_spec (h : Numbered m) (pc : Word) (hroom : pending m + n.toNat < 2 ^ 64) :
    Numbered (countBlock n (pc, pc) m) ∧ pending (countBlock n (pc, pc) m) = pending m + n.toNat := by
  unfold countBlock
  split
  next hany =>
    refine ⟨h.same fun e => ?_, pending_update h.keys (any_block.mp hany) hroom⟩
    split
    · exact ⟨rfl, rfl⟩
    · exact ⟨rfl, rfl⟩
  next hany =>
    have hnew : (pc, pc) ∉ m.map Prod.fst := fun hmem => hany (any_block.mpr hmem)
    constructor
    · constructor
      · rw [List.map_append]
        apply List.nodup_append'.mpr
        refine ⟨h.keys, List.nodup_singleton _, ?_⟩
        intro key hkey hlast
        rw [List.map_singleton, List.mem_singleton] at hlast
        rw [hlast] at hkey
        exact hnew hkey
      · rw [List.map_append, h.ids, List.length_append, List.length_singleton, List.range_succ, List.map_append]
        rfl
      · intro e he
        rcases List.mem_append.mp he with he | he
        · exact h.ends e he
        · rw [List.mem_singleton.mp he]
    · rw [pending_append, pending_cons]
      rfl

theorem lineSum_bbvLine (m : List (BasicBlockRange × BBInfo)) : lineSum (bbvLine m) = pending m := by
  have hperm := List.mergeSort_perm ((m.map fun e => (e.2.id, e.2.count)).filter fun c => c.2 != 0) pairLe
  unfold lineSum bbvLine
  rw [(hperm.map fun c => c.2.toNat).sum_eq]
  induction m with
  | nil => rfl
  | cons e m ih =>
    rw [pending_cons, ← ih (List.mergeSort_perm _ _), List.map_cons]
    by_cases hz : e.2.count = 0
    · have hskip : ¬ (e.2.count != 0) = true := fun hne => bne_iff_ne.mp hne hz
      rw [List.filter_cons_of_neg (by exact hskip), hz]
      exact (Nat.zero_add _).symm
    · have hkeep : (e.2.count != 0) = true := bne_iff_ne.mpr hz
      rw [List.filter_cons_of_pos (by exact hkeep), List.map_cons, List.sum_cons]

theorem bbvLine_known {x : Word × Word} (hx : x ∈ bbvLine m) : ∃ e ∈ m, e.2.id = x.1 := by
  have hmem := (List.mergeSort_perm _ _).mem_iff.mp hx
  obtain ⟨e, he, rfl⟩ := List.mem_map.mp (List.mem_of_mem_filter hmem)
  exact ⟨e, he, rfl⟩

end Map

section Run

/-- What one call does after a call that ended a block. -/
theorem profile_end (h : sp.currentBBVInstCount = 0) (pc icount : Word) :
    sp.profileWithAbsIcount pc true true icount =
      let n := ((icount - sp.lastICount).setWidth 32).setWidth 64
      let m := countBlock n (pc, pc) sp.bbMap
      if sp.intervalSize ≤ sp.intervalCount + n + sp.intervalDrift then
        { sp with
          lastICount := icount
          intervalCount := 0
          intervalDrift := sp.intervalCount + n + sp.intervalDrift - sp.intervalSize
          stream := sp.stream ++ [bbvLine m]
          bbMap := clearCounts m
          currentBBV := (pc, pc)
          currentBBVInstCount := 0 }
      else
        { sp with
          lastICount := icount
          intervalCount := sp.intervalCount + n
          bbMap := m
          currentBBV := (pc, pc)
          currentBBVInstCount := 0 } := by
  have hzero : ∀ x : Word, 0 + x = x := BitVec.zero_add
  unfold SimPoint.profileWithAbsIcount SimPoint.profile SimPoint.endBlock
  dsimp only
  rw [if_pos rfl, if_pos rfl, h, if_pos rfl, hzero]
  split
  · rfl
  · rfl

/-- The state of a profile after calls in which `short` instructions got lost. -/
structure SimLedger.Sound (l : SimLedger) (S : Word) (start short : Nat) : Prop where
  size : l.sp.intervalSize = S
  between : l.sp.currentBBVInstCount = 0
  numbered : Numbered l.sp.bbMap
  known : ∀ line ∈ l.sp.stream, ∀ x ∈ line, ∃ e ∈ l.sp.bbMap, e.2.id = x.1
  counted : pending l.sp.bbMap = l.sp.intervalCount.toNat
  balance : l.sp.stream.length * S.toNat + l.sp.intervalDrift.toNat + l.sp.intervalCount.toNat + start + short =
    l.sp.lastICount.toNat
  exact : short = 0 → l.sp.stream.map lineSum = l.lines ∧ l.since = l.sp.intervalCount.toNat

theorem sound_start (S last : Word) : (SimLedger.start S last).Sound S last.toNat 0 where
  size := rfl
  between := rfl
  numbered := numbered_nil
  known _ hline := absurd hline List.not_mem_nil
  counted := rfl
  balance := by
    have hzero : (SimLedger.start S last).sp.stream.length * S.toNat = 0 := Nat.zero_mul _
    rw [hzero]
    exact (Nat.add_zero _).trans (Nat.zero_add _)
  exact _ := ⟨rfl, rfl⟩

theorem sound_call (h : l.Sound S base short) (hle : l.sp.lastICount ≤ c.2) :
    (l.call c).Sound S base (short + (c.2.toNat - l.sp.lastICount.toNat) / 2 ^ 32 * 2 ^ 32) ∧
      (l.call c).sp.lastICount = c.2 := by
  have hbalance := h.balance
  have hgap : (c.2 - l.sp.lastICount).toNat = c.2.toNat - l.sp.lastICount.toNat := BitVec.toNat_sub_of_le hle
  have hlast : l.sp.lastICount.toNat ≤ c.2.toNat := hle
  have hlt := c.2.isLt
  have hdiv := Nat.div_add_mod (c.2.toNat - l.sp.lastICount.toNat) (2 ^ 32)
  have hn : (((c.2 - l.sp.lastICount).setWidth 32).setWidth 64 : Word).toNat =
      (c.2.toNat - l.sp.lastICount.toNat) % 2 ^ 32 := by
    rw [BitVec.toNat_setWidth, BitVec.toNat_setWidth, hgap]
    omega
  have hprofile := profile_end h.between c.1 c.2
  unfold SimLedger.call
  rw [hprofile]
  dsimp only
  generalize ((c.2 - l.sp.lastICount).setWidth 32).setWidth 64 = n at hn ⊢
  generalize (c.2.toNat - l.sp.lastICount.toNat) / 2 ^ 32 = q at hdiv ⊢
  have hcount : (l.sp.intervalCount + n).toNat = l.sp.intervalCount.toNat + n.toNat := by
    rw [BitVec.toNat_add, Nat.mod_eq_of_lt]
    omega
  have hsum : (l.sp.intervalCount + n + l.sp.intervalDrift).toNat =
      l.sp.intervalCount.toNat + n.toNat + l.sp.intervalDrift.toNat := by
    rw [BitVec.toNat_add, hcount, Nat.mod_eq_of_lt]
    omega
  obtain ⟨hnumbered, hpending⟩ := countBlock_spec (n := n) h.numbered c.1 (by rw [h.counted]; omega)
  have hknown : ∀ line ∈ l.sp.stream, ∀ x ∈ line, ∃ e ∈ countBlock n (c.1, c.1) l.sp.bbMap, e.2.id = x.1 := by
    intro line hline x hx
    obtain ⟨e, he, hid⟩ := h.known line hline x hx
    obtain ⟨e', he', hid'⟩ := countBlock_known n (c.1, c.1) he
    exact ⟨e', he', hid'.trans hid⟩
  by_cases hend : l.sp.intervalSize ≤ l.sp.intervalCount + n + l.sp.intervalDrift
  · have hle' : S.toNat ≤ (l.sp.intervalCount + n + l.sp.intervalDrift).toNat := by
      rw [← h.size]
      exact hend
    have hgrown : ¬ (l.sp.stream ++ [bbvLine (countBlock n (c.1, c.1) l.sp.bbMap)]).length =
        l.sp.stream.length := by
      rw [List.length_append, List.length_singleton]
      omega
    have hclear : ∀ x : Word, (∃ e ∈ countBlock n (c.1, c.1) l.sp.bbMap, e.2.id = x) →
        ∃ e ∈ clearCounts (countBlock n (c.1, c.1) l.sp.bbMap), e.2.id = x := by
      rintro x ⟨e, he, hid⟩
      exact ⟨_, List.mem_map_of_mem he, hid⟩
    rw [if_pos hend]
    dsimp only
    rw [if_neg hgrown]
    refine ⟨⟨h.size, rfl, hnumbered.clear, ?_, clearCounts_pending _, ?_, ?_⟩, rfl⟩
    · intro line hline x hx
      apply hclear
      rcases List.mem_append.mp hline with hline | hline
      · exact hknown line hline x hx
      · rw [List.mem_singleton.mp hline] at hx
        exact bbvLine_known hx
    · have hdrift : (l.sp.intervalCount + n + l.sp.intervalDrift - l.sp.intervalSize).toNat =
          l.sp.intervalCount.toNat + n.toNat + l.sp.intervalDrift.toNat - S.toNat := by
        rw [BitVec.toNat_sub_of_le hend, hsum, h.size]
      have hzero : (0 : Word).toNat = 0 := rfl
      dsimp only
      rw [hdrift, hzero, List.length_append, List.length_singleton, Nat.add_mul, Nat.one_mul]
      omega
    · intro hshort
      obtain ⟨hlines, hsince⟩ := h.exact (by omega)
      refine ⟨?_, rfl⟩
      dsimp only
      rw [List.map_append, hlines, List.map_singleton, lineSum_bbvLine, hpending, h.counted, hsince]
      congr 2
      omega
  · rw [if_neg hend]
    dsimp only
    rw [if_pos rfl]
    refine ⟨⟨h.size, rfl, hnumbered, hknown, ?_, ?_, ?_⟩, rfl⟩
    · dsimp only
      rw [hpending, hcount, h.counted]
    · dsimp only
      rw [hcount]
      omega
    · intro hshort
      obtain ⟨hlines, hsince⟩ := h.exact (by omega)
      refine ⟨hlines, ?_⟩
      dsimp only
      rw [hcount, hsince]
      omega

/-- A gap between two calls fits into the `unsigned` that it passes through. -/
def Fitting (m n : Word) : Prop := n.toNat - m.toNat < 2 ^ 32

instance (m n : Word) : Decidable (Fitting m n) := inferInstanceAs (Decidable (_ < _))

theorem sound_run (h : l.Sound S base short) (hmono : (l.sp.lastICount :: calls.map Prod.snd).IsChain (· ≤ ·)) :
    ∃ short', (l.run calls).Sound S base short' ∧
      (short' = 0 ↔ short = 0 ∧ (l.sp.lastICount :: calls.map Prod.snd).IsChain Fitting) := by
  induction calls generalizing l short with
  | nil => exact ⟨short, h, (and_iff_left (List.isChain_singleton _)).symm⟩
  | cons c calls ih =>
    rw [List.map_cons, List.isChain_cons_cons] at hmono ⊢
    obtain ⟨hsound, hlast⟩ := sound_call h hmono.1
    rw [← hlast] at hmono
    obtain ⟨short', hrun, hshort⟩ := ih hsound hmono.2
    refine ⟨short', hrun, ?_⟩
    rw [hshort, hlast]
    unfold Fitting
    constructor
    · rintro ⟨hzero, hrest⟩
      exact ⟨by omega, by omega, hrest⟩
    · rintro ⟨hzero, hfirst, hrest⟩
      exact ⟨by omega, hrest⟩

/-- The profile conserves the instructions exactly if no two calls are 2 ^ 32 instructions apart, nor
the first call from the start. -/
theorem simpoint_conserves_iff (hmono : (first :: calls.map Prod.snd).IsChain (· ≤ ·)) :
    ((SimLedger.start S first).run calls).Conserves first ↔ (first :: calls.map Prod.snd).IsChain Fitting := by
  obtain ⟨short, hsound, hshort⟩ := sound_run (sound_start S first) hmono
  have hfits : short = 0 ↔ (first :: calls.map Prod.snd).IsChain Fitting := hshort.trans (and_iff_right rfl)
  have hbalance := hsound.balance
  rw [← hfits]
  constructor
  · intro h
    have hconserved := h.balance
    rw [hsound.size] at hconserved
    omega
  · rintro rfl
    constructor
    · rw [hsound.size]
      exact hbalance
    · exact (hsound.exact rfl).1
    · exact hsound.numbered.unique
    · exact hsound.known

theorem simpoint_conserves_two :
    ((SimLedger.start 100 0).run [(0x80000000, 60), (0x80000010, 130)]).Conserves 0 := by
  apply (simpoint_conserves_iff _).mpr
  · exact List.isChain_cons_cons.mpr ⟨by decide, List.isChain_cons_cons.mpr ⟨by decide, List.isChain_singleton _⟩⟩
  · exact List.isChain_cons_cons.mpr ⟨by decide, List.isChain_cons_cons.mpr ⟨by decide, List.isChain_singleton _⟩⟩

/-- A first call after 2 ^ 32 instructions, none of which are counted. -/
theorem simpoint_drops_boot :
    ([0, 0x100000000] : List Word).IsChain (· ≤ ·) ∧
      ¬ ((SimLedger.start 100 0).run [(0x80000000, 0x100000000)]).Conserves 0 := by
  constructor
  · exact List.isChain_cons_cons.mpr ⟨by decide, List.isChain_singleton _⟩
  · intro h
    have hbalance := h.balance
    cases hbalance

end Run

end Nemu
