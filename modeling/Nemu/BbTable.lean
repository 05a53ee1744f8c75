import Nemu.Tcache
import Nemu.Lib.Chain
import Mathlib.Data.List.Basic

namespace Nemu

set_option autoImplicit true

/-- A `bb_t *` in the field `next`: `(void *)-1`, or an entry of `bb_pool`. -/
inductive BbPtr where
  | sentinel
  | pool (i : Nat)
  deriving DecidableEq

/-- `bb_t` -/
structure BbNode where
  s : Ptr
  pc : Word
  next : BbPtr

def BbNode.bb (x : BbNode) : Bb := ⟨x.s, x.pc⟩

/-- The list of basic blocks with its pointers: `bb_list`, `bb_pool` and `bb_idx`. -/
structure BbTable where
  bbList : Nat → BbNode
  bbPool : Nat → BbNode
  bbIdx : Nat

inductive BbStop where
  | assert
  /-- a chain does not end -/
  | hang

namespace BbTable

/-- What `tcache_flush` does to the list. -/
def flush (t : BbTable) : BbTable := { t with bbList := fun _ => ⟨.wild, -1, .sentinel⟩, bbIdx := 0 }

def next (t : BbTable) (j : Nat) : BbPtr := (t.bbPool j).next

/-- `none` where the pool is full. -/
def bbNew (c : TraceConfig) (s : Ptr) (pc : Word) (next : BbPtr) (t : BbTable) :
    Except BbStop (Option (BbPtr × BbTable)) :=
  if t.bbIdx = c.bbPoolSize then .ok none
  else if t.bbIdx < c.bbPoolSize then
    .ok (some (.pool t.bbIdx,
      { t with bbPool := Function.update t.bbPool t.bbIdx ⟨s, pc, next⟩, bbIdx := t.bbIdx + 1 }))
  else .error .assert

/-- Whether the pointer that is returned is not `NULL`. -/
def bbInsert (c : TraceConfig) (pc : Word) (fill : Ptr) (t : BbTable) : Except BbStop (Bool × BbTable) :=
  let i := bbHash c pc
  let head := t.bbList i
  if head.next = .sentinel ∧ head.pc = -1 then
    .ok (true, { t with bbList := Function.update t.bbList i { head with s := fill, pc := pc } })
  else
    match t.bbNew c head.s head.pc head.next with
    | .error stop => .error stop
    | .ok none => .ok (false, t)
    | .ok (some (bb, t)) => .ok (true, { t with bbList := Function.update t.bbList i ⟨fill, pc, bb⟩ })

/-- The loop of `bb_find`: the entry of the pool that it stops at, if any; an error where there are
more rounds than entries. -/
def seek (t : BbTable) (pc : Word) : Nat → BbPtr → Except BbStop (Option Nat)
  | _, .sentinel => .ok none
  | 0, .pool _ => .error .hang
  | fuel + 1, .pool j => if (t.bbPool j).pc = pc then .ok (some j) else seek t pc fuel (t.next j)

/-- The head of a bucket and an entry of the pool exchange what they hold, apart from their links. -/
def swap (i j : Nat) (t : BbTable) : BbTable :=
  { t with
    bbPool := Function.update t.bbPool j { t.bbPool j with s := (t.bbList i).s, pc := (t.bbList i).pc }
    bbList := Function.update t.bbList i { t.bbList i with s := (t.bbPool j).s, pc := (t.bbPool j).pc } }

/-- The `Decode` of the `bb_t` that is returned. -/
def bbFind (c : TraceConfig) (pc : Word) (t : BbTable) : Except BbStop (Option Ptr × BbTable) :=
  let i := bbHash c pc
  if (t.bbList i).pc = pc then .ok (some (t.bbList i).s, t)
  else
    match t.seek pc c.bbPoolSize (t.bbList i).next with
    | .error stop => .error stop
    | .ok none => .ok (none, t)
    | .ok (some j) => .ok (some ((t.swap i j).bbList i).s, t.swap i j)

end BbTable

/-- A bucket, head first, whose chain holds `l`. A head that is not used holds what `memset` left. -/
def Bucket (head : BbNode) (l b : List Bb) : Prop :=
  b = head.bb :: l ∨ b = [] ∧ l = [] ∧ head.bb = ⟨.wild, -1⟩

/-- The buckets of a table, with the entries of the pool that are linked behind their heads. -/
structure Linked (c : TraceConfig) (t : BbTable) (nodes : Nat → List Nat) (b : Nat → List Bb) : Prop where
  chain : ∀ i, Chain .sentinel .pool t.next (t.bbList i).next (nodes i)
  bucket : ∀ i, Bucket (t.bbList i) ((nodes i).map fun j => (t.bbPool j).bb) (b i)
  nodup : ∀ i, (nodes i).Nodup
  apart : ∀ i i' j, j ∈ nodes i → j ∈ nodes i' → i = i'
  bound : ∀ i, ∀ j ∈ nodes i, j < t.bbIdx
  room : t.bbIdx ≤ c.bbPoolSize

/-- A table after a history of operations since a flush, and the insertions that were successful, the
most recent one first. -/
inductive BbHistory (c : TraceConfig) : BbTable → List Bb → Prop where
  | flush (t : BbTable) : BbHistory c t.flush []
  | insert : BbHistory c t log → pc ≠ -1 → t.bbInsert c pc fill = .ok (true, t') →
      BbHistory c t' (⟨fill, pc⟩ :: log)
  | full : BbHistory c t log → pc ≠ -1 → t.bbInsert c pc fill = .ok (false, t') → BbHistory c t' log
  | find : BbHistory c t log → pc ≠ -1 → t.bbFind c pc = .ok (r, t') → BbHistory c t' log

/-- The insertions into a bucket. -/
def bucketLog (c : TraceConfig) (i : Nat) (log : List Bb) : List Bb := log.filter fun b => bbHash c b.pc == i

def Once (pc : Word) (log : List Bb) : Prop := (log.filter fun b => b.pc == pc).length ≤ 1

variable {δ : Type} {c : TraceConfig} {t t' : BbTable} {tc tc' : Tcache δ} {nodes : Nat → List Nat}
  {b : Nat → List Bb} {l : List Nat} {pc : Word} {fill : Ptr} {i j fuel : Nat} {link : BbPtr}
  {head : BbNode} {ls bs : List Bb}

section Insert

theorem linked_flush (c : TraceConfig) (t : BbTable) : Linked c t.flush (fun _ => []) fun _ => [] where
  chain _ := .nil
  bucket _ := .inr ⟨rfl, rfl, rfl⟩
  nodup _ := List.nodup_nil
  apart _ _ _ hj := absurd hj List.not_mem_nil
  bound _ _ hj := absurd hj List.not_mem_nil
  room := Nat.zero_le _

/-- A head without a chain whose `pc` is `-1` is that of an unused bucket. -/
theorem bucket_unused (h : Chain .sentinel .pool t.next head.next l)
    (hb : Bucket head (l.map fun j => (t.bbPool j).bb) bs) :
    bbUnused bs = true ↔ head.next = .sentinel ∧ head.pc = -1 := by
  rcases hb with rfl | ⟨rfl, hl, hhead⟩
  · cases l with
    | nil =>
      have hnext : head.next = .sentinel := h.of_nil
      have hunused : bbUnused [head.bb] = decide (head.pc = -1) := rfl
      rw [List.map_nil, hunused, decide_eq_true_iff]
      exact (and_iff_right hnext).symm
    | cons j l =>
      have hnext : head.next = .pool j := h.uncons.1
      have hunused : bbUnused (head.bb :: (t.bbPool j).bb :: l.map fun j => (t.bbPool j).bb) = false := rfl
      rw [List.map_cons, hunused, hnext]
      apply iff_of_false Bool.false_ne_true
      rintro ⟨h, -⟩
      cases h
  · obtain rfl : l = [] := List.map_eq_nil_iff.mp hl
    have hpc : head.pc = -1 := congrArg Bb.pc hhead
    exact iff_of_true rfl ⟨h.of_nil, hpc⟩

theorem insert_refines_none (h : Linked c t nodes tc.bbList) (hidx : t.bbIdx = tc.bbIdx)
    (hi : bbInsert c pc fill tc = none) : t.bbInsert c pc fill = .ok (false, t) := by
  have hunused := bucket_unused (h.chain (bbHash c pc)) (h.bucket (bbHash c pc))
  unfold bbInsert at hi
  dsimp only at hi
  split at hi
  · cases hi
  next hused =>
  split at hi
  next hfull =>
    have hnew : t.bbNew c (t.bbList (bbHash c pc)).s (t.bbList (bbHash c pc)).pc (t.bbList (bbHash c pc)).next =
        .ok none := if_pos (hidx.trans hfull)
    unfold BbTable.bbInsert
    dsimp only
    rw [if_neg fun hhead => hused (hunused.mpr hhead), hnew]
  next => cases hi

/-- The bucket that an entry is put into; `extra` is the node that holds the old head. -/
theorem linked_insert (h : Linked c t nodes b) (i : Nat) (x : Bb)
    (hused : ¬ ((t.bbList i).next = .sentinel ∧ (t.bbList i).pc = -1)) (hroom : t.bbIdx < c.bbPoolSize) :
    Linked c
      { bbList := Function.update t.bbList i ⟨x.s, x.pc, .pool t.bbIdx⟩
        bbPool := Function.update t.bbPool t.bbIdx (t.bbList i)
        bbIdx := t.bbIdx + 1 }
      (Function.update nodes i (t.bbIdx :: nodes i)) (Function.update b i (x :: b i)) := by
  have hfresh : ∀ i', t.bbIdx ∉ nodes i' := fun i' hmem => Nat.lt_irrefl _ (h.bound i' _ hmem)
  have hpool : ∀ i', ∀ j ∈ nodes i', Function.update t.bbPool t.bbIdx (t.bbList i) j = t.bbPool j := by
    intro i' j hj
    apply Function.update_of_ne
    rintro rfl
    exact hfresh i' hj
  have hcontent : ∀ i', (nodes i').map (fun j => (Function.update t.bbPool t.bbIdx (t.bbList i) j).bb) =
      (nodes i').map fun j => (t.bbPool j).bb :=
    fun i' => List.map_congr_left fun j hj => congrArg BbNode.bb (hpool i' j hj)
  have hcase : ∀ i', i' ≠ i → Function.update nodes i (t.bbIdx :: nodes i) i' = nodes i' :=
    fun i' hi' => Function.update_of_ne hi' _ _
  have hself : Function.update nodes i (t.bbIdx :: nodes i) i = t.bbIdx :: nodes i := Function.update_self _ _ _
  constructor
  · intro i'
    dsimp only
    by_cases hi' : i' = i
    · rw [hi', hself, Function.update_self]
      apply Chain.cons
      dsimp only [BbTable.next]
      rw [Function.update_self]
      exact (h.chain i).congr fun j hj => congrArg BbNode.next (hpool i j hj)
    · rw [hcase i' hi', Function.update_of_ne hi']
      exact (h.chain i').congr fun j hj => congrArg BbNode.next (hpool i' j hj)
  · intro i'
    dsimp only
    by_cases hi' : i' = i
    · rw [hi', hself, Function.update_self, Function.update_self, List.map_cons, hcontent, Function.update_self]
      left
      rcases h.bucket i with hb | ⟨-, hl, hhead⟩
      · rw [hb]
        rfl
      · have hchain := h.chain i
        rw [List.map_eq_nil_iff.mp hl] at hchain
        exact absurd ⟨hchain.of_nil, congrArg Bb.pc hhead⟩ hused
    · rw [hcase i' hi', Function.update_of_ne hi', Function.update_of_ne hi', hcontent]
      exact h.bucket i'
  · intro i'
    by_cases hi' : i' = i
    · rw [hi', hself]
      exact List.nodup_cons.mpr ⟨hfresh i, h.nodup i⟩
    · rw [hcase i' hi']
      exact h.nodup i'
  · intro i₁ i₂ j h₁ h₂
    have hmem : ∀ i', j ∈ Function.update nodes i (t.bbIdx :: nodes i) i' →
        j ∈ nodes i' ∨ j = t.bbIdx ∧ i' = i := by
      intro i' hj
      by_cases hi' : i' = i
      · rw [hi', hself] at hj
        rw [hi']
        rcases List.mem_cons.mp hj with hj | hj
        · exact .inr ⟨hj, rfl⟩
        · exact .inl hj
      · rw [hcase i' hi'] at hj
        exact .inl hj
    rcases hmem i₁ h₁ with hold₁ | ⟨hnew₁, hi₁⟩
    · rcases hmem i₂ h₂ with hold₂ | ⟨hnew₂, -⟩
      · exact h.apart i₁ i₂ j hold₁ hold₂
      · exact absurd (hnew₂ ▸ hold₁) (hfresh i₁)
    · rcases hmem i₂ h₂ with hold₂ | ⟨-, hi₂⟩
      · exact absurd (hnew₁ ▸ hold₂) (hfresh i₂)
      · exact hi₁.trans hi₂.symm
  · intro i' j hj
    by_cases hi' : i' = i
    · rw [hi', hself] at hj
      rcases List.mem_cons.mp hj with rfl | hj
      · exact Nat.lt_succ_self _
      · exact Nat.lt_succ_of_lt (h.bound i j hj)
    · rw [hcase i' hi'] at hj
      exact Nat.lt_succ_of_lt (h.bound i' j hj)
  · exact hroom

theorem linked_fill (h : Linked c t nodes b) (i : Nat) (x : Bb) (hnext : (t.bbList i).next = .sentinel) :
    Linked c { t with bbList := Function.update t.bbList i { t.bbList i with s := x.s, pc := x.pc } } nodes
      (Function.update b i [x]) := by
  have hnil : nodes i = [] := by
    have hchain := h.chain i
    rw [hnext] at hchain
    exact hchain.eq_nil rfl fun j hj => by cases hj
  constructor
  · intro i'
    dsimp only
    by_cases hi' : i' = i
    · rw [hi', Function.update_self]
      exact h.chain i
    · rw [Function.update_of_ne hi']
      exact h.chain i'
  · intro i'
    dsimp only
    by_cases hi' : i' = i
    · rw [hi', Function.update_self, Function.update_self, hnil]
      exact .inl rfl
    · rw [Function.update_of_ne hi', Function.update_of_ne hi']
      exact h.bucket i'
  · exact h.nodup
  · exact h.apart
  · exact h.bound
  · exact h.room

theorem insert_refines_some (h : Linked c t nodes tc.bbList) (hidx : t.bbIdx = tc.bbIdx)
    (hi : bbInsert c pc fill tc = some tc') : ∃ t' nodes', t.bbInsert c pc fill = .ok (true, t') ∧
      Linked c t' nodes' tc'.bbList ∧ t'.bbIdx = tc'.bbIdx := by
  have hunused := bucket_unused (h.chain (bbHash c pc)) (h.bucket (bbHash c pc))
  unfold bbInsert at hi
  dsimp only at hi
  unfold BbTable.bbInsert
  dsimp only
  split at hi
  next hempty =>
    cases hi
    have hhead := hunused.mp hempty
    rw [if_pos hhead]
    exact ⟨_, nodes, rfl, linked_fill h (bbHash c pc) ⟨fill, pc⟩ hhead.1, hidx⟩
  next hused =>
  split at hi
  · cases hi
  next hfull =>
  cases hi
  have hhead : ¬ ((t.bbList (bbHash c pc)).next = .sentinel ∧ (t.bbList (bbHash c pc)).pc = -1) :=
    fun hhead => hused (hunused.mpr hhead)
  have hne : t.bbIdx ≠ c.bbPoolSize := fun he => hfull (hidx.symm.trans he)
  have hroom : t.bbIdx < c.bbPoolSize := Nat.lt_of_le_of_ne h.room hne
  have hnew : t.bbNew c (t.bbList (bbHash c pc)).s (t.bbList (bbHash c pc)).pc (t.bbList (bbHash c pc)).next =
      .ok (some (.pool t.bbIdx, { t with
        bbPool := Function.update t.bbPool t.bbIdx (t.bbList (bbHash c pc)), bbIdx := t.bbIdx + 1 })) := by
    unfold BbTable.bbNew
    rw [if_neg hne, if_pos hroom]
  rw [if_neg hhead, hnew]
  exact ⟨_, _, rfl, linked_insert h (bbHash c pc) ⟨fill, pc⟩ hhead hroom, congrArg (· + 1) hidx⟩

end Insert

section Find

theorem seek_chain (h : Chain .sentinel .pool t.next link l) (hfuel : l.length ≤ fuel) (pc : Word) (x : Bb) :
    (t.seek pc fuel link = .ok none ∧ bbSwap x pc (l.map fun j => (t.bbPool j).bb) = none) ∨
      ∃ l₁ j l₂, l = l₁ ++ j :: l₂ ∧ t.seek pc fuel link = .ok (some j) ∧
        bbSwap x pc (l.map fun j => (t.bbPool j).bb) = some ((t.bbPool j).bb,
          l₁.map (fun j => (t.bbPool j).bb) ++ x :: l₂.map fun j => (t.bbPool j).bb) := by
  induction h generalizing fuel with
  | nil =>
    left
    cases fuel <;> exact ⟨rfl, rfl⟩
  | @cons j l hl ih =>
    cases fuel with
    | zero => cases hfuel
    | succ fuel =>
      rw [List.length_cons] at hfuel
      rw [BbTable.seek, List.map_cons, bbSwap]
      by_cases hpc : (t.bbPool j).pc = pc
      · right
        refine ⟨[], j, l, rfl, if_pos hpc, ?_⟩
        exact if_pos hpc
      · have hpc' : ¬ (t.bbPool j).bb.pc = pc := hpc
        rw [if_neg hpc, if_neg hpc']
        have hle : l.length ≤ fuel := by omega
        rcases ih hle with ⟨hseek, hswap⟩ | ⟨l₁, k, l₂, rfl, hseek, hswap⟩
        · left
          rw [hswap]
          exact ⟨hseek, rfl⟩
        · right
          refine ⟨j :: l₁, k, l₂, rfl, hseek, ?_⟩
          rw [hswap]
          rfl

theorem linked_length (h : Linked c t nodes b) (i : Nat) : (nodes i).length ≤ c.bbPoolSize := by
  have hsub : nodes i ⊆ List.range t.bbIdx := fun j hj => List.mem_range.mpr (h.bound i j hj)
  have hlen := ((h.nodup i).subperm hsub).length_le
  rw [List.length_range] at hlen
  exact hlen.trans h.room

theorem linked_swap {l₁ l₂ : List Nat} (h : Linked c t nodes b) (hi : nodes i = l₁ ++ j :: l₂) :
    Linked c (t.swap i j) nodes (Function.update b i ((t.bbPool j).bb ::
      (l₁.map (fun j => (t.bbPool j).bb) ++ (t.bbList i).bb :: l₂.map fun j => (t.bbPool j).bb))) := by
  have hmem : j ∈ nodes i := by
    rw [hi]
    exact List.mem_append_right l₁ List.mem_cons_self
  have hnext : ∀ k, (t.swap i j).next k = t.next k := by
    intro k
    dsimp only [BbTable.next, BbTable.swap]
    by_cases hk : k = j
    · rw [hk, Function.update_self]
    · rw [Function.update_of_ne hk]
  have hother : ∀ k, k ≠ j → ((t.swap i j).bbPool k).bb = (t.bbPool k).bb := by
    intro k hk
    dsimp only [BbTable.swap]
    rw [Function.update_of_ne hk]
  have hself : ((t.swap i j).bbPool j).bb = (t.bbList i).bb := by
    dsimp only [BbTable.swap]
    rw [Function.update_self]
    rfl
  constructor
  · intro i'
    have hhead : ((t.swap i j).bbList i').next = (t.bbList i').next := by
      dsimp only [BbTable.swap]
      by_cases hi' : i' = i
      · rw [hi', Function.update_self]
      · rw [Function.update_of_ne hi']
    rw [hhead]
    exact (h.chain i').congr fun k _ => hnext k
  · intro i'
    by_cases hi' : i' = i
    · have hnodup := h.nodup i
      rw [hi] at hnodup
      have hj : j ∉ l₁ ++ l₂ := (List.nodup_cons.mp (List.perm_middle.nodup_iff.mp hnodup)).1
      have hleft : l₁.map (fun k => ((t.swap i j).bbPool k).bb) = l₁.map fun k => (t.bbPool k).bb := by
        apply List.map_congr_left
        intro k hk
        apply hother
        rintro rfl
        exact hj (List.mem_append_left l₂ hk)
      have hright : l₂.map (fun k => ((t.swap i j).bbPool k).bb) = l₂.map fun k => (t.bbPool k).bb := by
        apply List.map_congr_left
        intro k hk
        apply hother
        rintro rfl
        exact hj (List.mem_append_right l₁ hk)
      left
      rw [hi', hi, List.map_append, List.map_cons, hleft, hright, hself, Function.update_self]
      dsimp only [BbTable.swap]
      rw [Function.update_self]
      rfl
    · have hsame : (nodes i').map (fun k => ((t.swap i j).bbPool k).bb) = (nodes i').map fun k => (t.bbPool k).bb := by
        apply List.map_congr_left
        intro k hk
        apply hother
        rintro rfl
        exact hi' (h.apart i' i k hk hmem)
      rw [hsame, Function.update_of_ne hi']
      dsimp only [BbTable.swap]
      rw [Function.update_of_ne hi']
      exact h.bucket i'
  · exact h.nodup
  · exact h.apart
  · exact h.bound
  · exact h.room

theorem find_refines (h : Linked c t nodes tc.bbList) (hidx : t.bbIdx = tc.bbIdx) (pc : Word) :
    ∃ t', t.bbFind c pc = .ok ((bbFind c pc tc).1, t') ∧ Linked c t' nodes (bbFind c pc tc).2.bbList ∧
      t'.bbIdx = (bbFind c pc tc).2.bbIdx := by
  have hseek := seek_chain (h.chain (bbHash c pc)) (linked_length h (bbHash c pc)) pc
    (t.bbList (bbHash c pc)).bb
  unfold bbFind BbTable.bbFind
  dsimp only
  rcases h.bucket (bbHash c pc) with hb | ⟨hb, hl, hhead⟩
  · rw [hb]
    dsimp only
    by_cases hpc : (t.bbList (bbHash c pc)).pc = pc
    · have hpc' : (t.bbList (bbHash c pc)).bb.pc = pc := hpc
      rw [if_pos hpc, if_pos hpc']
      exact ⟨t, rfl, h, hidx⟩
    · have hpc' : ¬ (t.bbList (bbHash c pc)).bb.pc = pc := hpc
      rw [if_neg hpc, if_neg hpc']
      rcases hseek with ⟨hend, hswap⟩ | ⟨l₁, j, l₂, hnodes, hend, hswap⟩
      · rw [hend, hswap]
        exact ⟨t, rfl, h, hidx⟩
      · rw [hend, hswap]
        refine ⟨_, ?_, linked_swap h hnodes, hidx⟩
        dsimp only [BbTable.swap]
        rw [Function.update_self]
        rfl
  · have hs : (t.bbList (bbHash c pc)).s = .wild := congrArg Bb.s hhead
    have hhpc : (t.bbList (bbHash c pc)).pc = -1 := congrArg Bb.pc hhead
    rw [hb, hhpc, hs]
    dsimp only
    by_cases hpc : pc = -1
    · rw [if_pos hpc, if_pos hpc.symm]
      exact ⟨t, rfl, h, hidx⟩
    · rw [if_neg hpc, if_neg fun he => hpc he.symm]
      rcases hseek with ⟨hend, -⟩ | ⟨l₁, j, l₂, hnodes, -, -⟩
      · rw [hend]
        exact ⟨t, rfl, h, hidx⟩
      · rw [List.map_eq_nil_iff] at hl
        rw [hl] at hnodes
        exact absurd hnodes.symm (List.append_ne_nil_of_right_ne_nil l₁ (List.cons_ne_nil j l₂))

end Find

section Lists

variable {log : List Bb} {r : Option Ptr} {d : Ptr} {x y : Bb}

theorem bbSwap_none (h : bbSwap x pc bs = none) : ∀ b ∈ bs, b.pc ≠ pc := by
  induction bs with
  | nil => exact fun b hb => absurd hb List.not_mem_nil
  | cons y bs ih =>
    rw [bbSwap] at h
    split at h
    · cases h
    next hpc =>
      intro b hb
      rcases List.mem_cons.mp hb with rfl | hb
      · exact hpc
      · exact ih (Option.map_eq_none_iff.mp h) b hb

theorem bbSwap_some (h : bbSwap x pc bs = some (y, ls)) : y.pc = pc ∧ (y :: ls).Perm (x :: bs) := by
  induction bs generalizing ls with
  | nil => cases h
  | cons z bs ih =>
    rw [bbSwap] at h
    split at h
    next hpc =>
      cases h
      exact ⟨hpc, .swap x y bs⟩
    next =>
      obtain ⟨⟨y', ls'⟩, hswap, heq⟩ := Option.map_eq_some_iff.mp h
      cases heq
      obtain ⟨hpc, hperm⟩ := ih hswap
      refine ⟨hpc, ?_⟩
      calc y :: z :: ls'
          |>.Perm (z :: y :: ls') := .swap z y ls'
        _ |>.Perm (z :: x :: bs) := hperm.cons z
        _ |>.Perm (x :: z :: bs) := .swap x z bs

theorem find_perm (c : TraceConfig) (pc : Word) (tc : Tcache δ) (i : Nat) :
    ((bbFind c pc tc).2.bbList i).Perm (tc.bbList i) := by
  unfold bbFind
  dsimp only
  cases hb : tc.bbList (bbHash c pc) with
  | nil => exact .refl _
  | cons x bs =>
    dsimp only
    by_cases hpc : x.pc = pc
    · rw [if_pos hpc]
    · rw [if_neg hpc]
      cases hswap : bbSwap x pc bs with
      | none => exact .refl _
      | some found =>
        obtain ⟨y, ls⟩ := found
        dsimp only
        by_cases hi : i = bbHash c pc
        · rw [hi, Function.update_self, hb]
          exact (bbSwap_some hswap).2
        · rw [Function.update_of_ne hi]

theorem find_result (c : TraceConfig) (tc : Tcache δ) (hpc : pc ≠ -1) :
    ((bbFind c pc tc).1 = none ∧ ∀ b ∈ tc.bbList (bbHash c pc), b.pc ≠ pc) ∨
      ∃ d, (bbFind c pc tc).1 = some d ∧ ⟨d, pc⟩ ∈ tc.bbList (bbHash c pc) := by
  unfold bbFind
  dsimp only
  cases hb : tc.bbList (bbHash c pc) with
  | nil =>
    left
    exact ⟨if_neg hpc, fun b hb => absurd hb List.not_mem_nil⟩
  | cons x bs =>
    dsimp only
    by_cases hx : x.pc = pc
    · right
      rw [if_pos hx, ← hx]
      exact ⟨x.s, rfl, List.mem_cons_self⟩
    · rw [if_neg hx]
      cases hswap : bbSwap x pc bs with
      | none =>
        left
        refine ⟨rfl, fun b hb => ?_⟩
        rcases List.mem_cons.mp hb with rfl | hb
        · exact hx
        · exact bbSwap_none hswap b hb
      | some found =>
        right
        obtain ⟨y, ls⟩ := found
        obtain ⟨hy, hperm⟩ := bbSwap_some hswap
        refine ⟨y.s, rfl, ?_⟩
        rw [← hy]
        exact hperm.mem_iff.mp List.mem_cons_self

theorem insert_bucket (hi : bbInsert c pc fill tc = some tc')
    (hused : ∀ b ∈ tc.bbList (bbHash c pc), b.pc ≠ -1) :
    tc'.bbList = Function.update tc.bbList (bbHash c pc) (⟨fill, pc⟩ :: tc.bbList (bbHash c pc)) := by
  unfold bbInsert at hi
  dsimp only at hi
  split at hi
  next hempty =>
    cases hi
    have hnil : tc.bbList (bbHash c pc) = [] := by
      cases hb : tc.bbList (bbHash c pc) with
      | nil => rfl
      | cons x bs =>
        rw [hb] at hempty hused
        cases bs with
        | nil => exact absurd (of_decide_eq_true hempty) (hused x List.mem_cons_self)
        | cons y bs => cases hempty
    rw [hnil]
  next =>
    split at hi
    · cases hi
    · cases hi
      rfl

end Lists

section History

variable {log : List Bb} {r : Option Ptr}

theorem bucketLog_cons (c : TraceConfig) (i : Nat) (x : Bb) (log : List Bb) :
    bucketLog c i (x :: log) = if bbHash c x.pc = i then x :: bucketLog c i log else bucketLog c i log := by
  unfold bucketLog
  simp only [List.filter_cons, beq_iff_eq]

theorem history_linked (h : BbHistory c t log) : ∃ (tc : Tcache Unit) (nodes : Nat → List Nat),
    Linked c t nodes tc.bbList ∧ t.bbIdx = tc.bbIdx ∧ (∀ i, (tc.bbList i).Perm (bucketLog c i log)) ∧
      ∀ b ∈ log, b.pc ≠ -1 := by
  have hused : ∀ {tc : Tcache Unit} {log : List Bb} {i : Nat}, (tc.bbList i).Perm (bucketLog c i log) →
      (∀ b ∈ log, b.pc ≠ -1) → ∀ b ∈ tc.bbList i, b.pc ≠ -1 :=
    fun hperm hlog b hb => hlog b (List.mem_of_mem_filter (hperm.mem_iff.mp hb))
  induction h with
  | flush t =>
    refine ⟨⟨fun _ => tcacheEntryInit 0, 0, fun _ => tcacheEntryInit 0, .null, fun _ => [], 0,
      tcacheEntryInit 0, .running, .null, .null, 0, 0⟩, _, linked_flush c t, rfl, fun i => .refl _, ?_⟩
    exact fun b hb => absurd hb List.not_mem_nil
  | @insert t log pc fill t' _ hpc hins ih =>
    obtain ⟨tc, nodes, hlinked, hidx, hperm, hlog⟩ := ih
    cases hi : bbInsert c pc fill tc with
    | none => cases (insert_refines_none hlinked hidx hi).symm.trans hins
    | some tc' =>
      obtain ⟨t'', nodes', hok, hlinked', hidx'⟩ := insert_refines_some hlinked hidx hi
      cases hok.symm.trans hins
      refine ⟨tc', nodes', hlinked', hidx', fun i => ?_, fun b hb => ?_⟩
      · rw [insert_bucket hi (hused (hperm _) hlog)]
        rw [bucketLog_cons]
        by_cases hi : i = bbHash c pc
        · rw [hi, Function.update_self, if_pos rfl]
          exact (hperm _).cons _
        · rw [Function.update_of_ne hi, if_neg fun he => hi he.symm]
          exact hperm i
      · rcases List.mem_cons.mp hb with rfl | hb
        · exact hpc
        · exact hlog b hb
  | @full t log pc fill t' _ hpc hins ih =>
    obtain ⟨tc, nodes, hlinked, hidx, hperm, hlog⟩ := ih
    cases hi : bbInsert c pc fill tc with
    | none =>
      cases (insert_refines_none hlinked hidx hi).symm.trans hins
      exact ⟨tc, nodes, hlinked, hidx, hperm, hlog⟩
    | some tc' =>
      obtain ⟨t'', nodes', hok, -⟩ := insert_refines_some hlinked hidx hi
      cases hok.symm.trans hins
  | @find t log pc r t' _ hpc hfind ih =>
    obtain ⟨tc, nodes, hlinked, hidx, hperm, hlog⟩ := ih
    obtain ⟨t'', hok, hlinked', hidx'⟩ := find_refines hlinked hidx pc
    cases hok.symm.trans hfind
    exact ⟨_, nodes, hlinked', hidx', fun i => (find_perm c pc tc i).trans (hperm i), hlog⟩

theorem history_find (h : BbHistory c t log) (hpc : pc ≠ -1) : ∃ r t', t.bbFind c pc = .ok (r, t') ∧
    (r = none ↔ ∀ b ∈ log, b.pc ≠ pc) ∧ (∀ d, r = some d → ⟨d, pc⟩ ∈ log) ∧
      (Once pc log → r = (log.find? fun b => b.pc == pc).map Bb.s) := by
  obtain ⟨tc, nodes, hlinked, hidx, hperm, hlog⟩ := history_linked h
  obtain ⟨t', hok, -⟩ := find_refines hlinked hidx pc
  have hmem : ∀ b : Bb, b.pc = pc → (b ∈ tc.bbList (bbHash c pc) ↔ b ∈ log) := by
    intro b hb
    rw [(hperm _).mem_iff]
    unfold bucketLog
    rw [List.mem_filter, hb, beq_self_eq_true]
    exact and_iff_left rfl
  refine ⟨_, t', hok, ?_⟩
  rcases find_result c tc hpc with ⟨hnone, habsent⟩ | ⟨d, hsome, hd⟩
  · have hlack : ∀ b ∈ log, b.pc ≠ pc := fun b hb he => habsent b ((hmem b he).mpr hb) he
    have hfind : (log.find? fun b => b.pc == pc) = none :=
      List.find?_eq_none.mpr fun b hb he => hlack b hb (beq_iff_eq.mp he)
    rw [hnone, hfind]
    refine ⟨iff_of_true rfl hlack, fun d hd => ?_, fun _ => rfl⟩
    cases hd
  · have hin : (⟨d, pc⟩ : Bb) ∈ log := (hmem ⟨d, pc⟩ rfl).mp hd
    rw [hsome]
    refine ⟨iff_of_false (fun he => by cases he) fun hlack => hlack _ hin rfl, fun d' hd' => ?_, fun honce => ?_⟩
    · cases hd'
      exact hin
    · have hisSome : (log.find? fun b => b.pc == pc).isSome = true :=
        List.find?_isSome.mpr ⟨_, hin, beq_self_eq_true pc⟩
      obtain ⟨y, hy⟩ := Option.isSome_iff_exists.mp hisSome
      have hboth : ∀ b ∈ log, b.pc = pc → b ∈ log.filter fun b => b.pc == pc :=
        fun b hb he => List.mem_filter.mpr ⟨hb, beq_iff_eq.mpr he⟩
      have hypc : (y.pc == pc) = true := by simpa using List.find?_some hy
      have hymem := hboth y (List.mem_of_find?_eq_some hy) (beq_iff_eq.mp hypc)
      have hdmem := hboth ⟨d, pc⟩ hin rfl
      have hone : ∀ l : List Bb, l.length ≤ 1 → y ∈ l → ⟨d, pc⟩ ∈ l → y = ⟨d, pc⟩ := by
        intro l hl hy hd
        cases l with
        | nil => cases hy
        | cons z l =>
          obtain rfl : l = [] := List.length_eq_zero_iff.mp (by rw [List.length_cons] at hl; omega)
          rw [List.mem_singleton.mp hy, List.mem_singleton.mp hd]
      rw [hy, hone _ honce hymem hdmem]
      rfl

/-- After every history of operations every chain ends in the sentinel; `bb_find` finds a block exactly
if one was inserted, one of those inserted with this `pc`, and so the most recent one where `pc` was
inserted only once; it changes nothing that is found for such a `pc`; and an insertion that finds the
pool full changes nothing. -/
theorem bbHistory_finds (h : BbHistory c t log) :
    (∀ i, ∃ nodes : List Nat, Chain .sentinel .pool t.next (t.bbList i).next nodes ∧ nodes.Nodup ∧
        ∀ j ∈ nodes, j < c.bbPoolSize) ∧
      (∀ pc, pc ≠ -1 → ∃ r t', t.bbFind c pc = .ok (r, t') ∧
        (r = none ↔ ∀ b ∈ log, b.pc ≠ pc) ∧ (∀ d, r = some d → ⟨d, pc⟩ ∈ log) ∧
        (Once pc log → r = (log.find? fun b => b.pc == pc).map Bb.s) ∧
        ∀ pc', pc' ≠ -1 → Once pc' log → ∃ r' t₁ t₂, t.bbFind c pc' = .ok (r', t₁) ∧
          t'.bbFind c pc' = .ok (r', t₂)) ∧
      ∀ pc fill, (∃ t', t.bbInsert c pc fill = .ok (true, t')) ∨ t.bbInsert c pc fill = .ok (false, t) := by
  obtain ⟨tc, nodes, hlinked, hidx, -⟩ := history_linked h
  refine ⟨fun i => ⟨nodes i, hlinked.chain i, hlinked.nodup i, fun j hj =>
    (hlinked.bound i j hj).trans_le hlinked.room⟩, fun pc hpc => ?_, fun pc fill => ?_⟩
  · obtain ⟨r, t', hok, hnone, hsome, honce⟩ := history_find h hpc
    refine ⟨r, t', hok, hnone, hsome, honce, fun pc' hpc' honce' => ?_⟩
    obtain ⟨r₁, t₁, hok₁, -, -, hr₁⟩ := history_find h hpc'
    obtain ⟨r₂, t₂, hok₂, -, -, hr₂⟩ := history_find (h.find hpc hok) hpc'
    have heq : r₂ = r₁ := (hr₂ honce').trans (hr₁ honce').symm
    rw [heq] at hok₂
    exact ⟨r₁, t₁, t₂, hok₁, hok₂⟩
  · cases hi : bbInsert c pc fill tc with
    | none => exact .inr (insert_refines_none hlinked hidx hi)
    | some tc' =>
      obtain ⟨t', -, hok, -⟩ := insert_refines_some hlinked hidx hi
      exact .inl ⟨t', hok⟩

/-- The list before the first flush. -/
def BbTable.zero : BbTable := ⟨fun _ => ⟨.null, 0, .sentinel⟩, fun _ => ⟨.null, 0, .sentinel⟩, 0⟩

/-- Two blocks in one bucket are found, and a third one is not. -/
theorem bbHistory_finds_two : ∃ t t₀ t₁ t₂ : BbTable,
    BbHistory .standard t [⟨.pool 1, 0⟩, ⟨.pool 0, 2048⟩] ∧ bbHash .standard 0 = bbHash .standard 2048 ∧
      t.bbFind .standard 2048 = .ok (some (.pool 0), t₀) ∧ t.bbFind .standard 0 = .ok (some (.pool 1), t₁) ∧
      t.bbFind .standard 4096 = .ok (none, t₂) := by
  have h₀ : BbHistory .standard _ [⟨.pool 0, 2048⟩] :=
    .insert (.flush .zero) (by decide) (rfl : BbTable.zero.flush.bbInsert .standard 2048 (.pool 0) = .ok (true, _))
  have h₁ : BbHistory .standard _ [⟨.pool 1, 0⟩, ⟨.pool 0, 2048⟩] :=
    .insert h₀ (by decide) (rfl : BbTable.bbInsert .standard 0 (.pool 1) _ = .ok (true, _))
  obtain ⟨-, hfind, -⟩ := bbHistory_finds h₁
  obtain ⟨r₀, t₀, hok₀, -, -, honce₀, -⟩ := hfind 2048 (by decide)
  obtain ⟨r₁, t₁, hok₁, -, -, honce₁, -⟩ := hfind 0 (by decide)
  obtain ⟨r₂, t₂, hok₂, -, -, honce₂, -⟩ := hfind 4096 (by decide)
  rw [honce₀ (Nat.le_refl 1)] at hok₀
  rw [honce₁ (Nat.le_refl 1)] at hok₁
  rw [honce₂ (Nat.zero_le 1)] at hok₂
  exact ⟨_, t₀, t₁, t₂, h₁, rfl, hok₀, hok₁, hok₂⟩

/-- Where a `pc` was inserted twice, a search for another one in the bucket may bring the older block
back to the front. -/
theorem bbHistory_older : ∃ t t' : BbTable,
    BbHistory .standard t [⟨.pool 2, 0⟩, ⟨.pool 1, 0⟩, ⟨.pool 0, 2048⟩] ∧
      t.bbFind .standard 0 = .ok (some (.pool 1), t') := by
  have h₀ : BbHistory .standard _ [⟨.pool 0, 2048⟩] :=
    .insert (.flush .zero) (by decide) (rfl : BbTable.zero.flush.bbInsert .standard 2048 (.pool 0) = .ok (true, _))
  have h₁ : BbHistory .standard _ [⟨.pool 1, 0⟩, ⟨.pool 0, 2048⟩] :=
    .insert h₀ (by decide) (rfl : BbTable.bbInsert .standard 0 (.pool 1) _ = .ok (true, _))
  have h₂ : BbHistory .standard _ [⟨.pool 2, 0⟩, ⟨.pool 1, 0⟩, ⟨.pool 0, 2048⟩] :=
    .insert h₁ (by decide) (rfl : BbTable.bbInsert .standard 0 (.pool 2) _ = .ok (true, _))
  have h₃ : BbHistory .standard _ [⟨.pool 2, 0⟩, ⟨.pool 1, 0⟩, ⟨.pool 0, 2048⟩] :=
    .find h₂ (by decide) (rfl : BbTable.bbFind .standard 2048 _ = .ok (_, _))
  exact ⟨_, _, h₃, rfl⟩

end History

end Nemu
