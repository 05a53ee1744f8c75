import Mathlib.Data.List.Chain
import Mathlib.Data.List.Nodup

namespace Ring

set_option autoImplicit true

variable {P α β : Type} {next prev next' prev' : P → P} {head left new p x : P} {l l₁ l₂ : List P}

/-- `y` follows `x`, and both know it. -/
def Linked (next prev : P → P) (x y : P) : Prop := next x = y ∧ prev y = x

/-- The elements `l` and the head are linked to a ring. -/
def Circular (next prev : P → P) (head : P) (l : List P) : Prop :=
  List.IsChain (Linked next prev) (head :: l ++ [head])

section Links

theorem chain_congr {l : List P} (h : l.IsChain (Linked next prev)) (hn : ∀ x ∈ l.dropLast, next' x = next x)
    (hp : ∀ x ∈ l.tail, prev' x = prev x) : l.IsChain (Linked next' prev') := by
  induction l with
  | nil => exact .nil
  | cons x l ih =>
    cases l with
    | nil => exact .singleton x
    | cons y l =>
      rw [List.isChain_cons_cons] at h ⊢
      have hx : next' x = next x := hn x List.mem_cons_self
      have hy : prev' y = prev y := hp y List.mem_cons_self
      refine ⟨⟨hx.trans h.1.1, hy.trans h.1.2⟩, ih h.2 (fun z hz => ?_) fun z hz => ?_⟩
      · exact hn z (List.mem_cons_of_mem x hz)
      · exact hp z (List.mem_cons_of_mem y hz)

theorem nodup_round (h : (head :: l).Nodup) :
    (head :: l ++ [head]).dropLast.Nodup ∧ (head :: l ++ [head]).tail.Nodup := by
  rw [List.dropLast_concat]
  refine ⟨h, ?_⟩
  have hperm : (l ++ [head]).Perm (head :: l) := List.perm_append_singleton head l
  exact hperm.nodup_iff.mpr h

theorem Circular.cut {xs ys : List P} {y : P} (h : Circular next prev head l)
    (hl : head :: l ++ [head] = xs ++ x :: y :: ys) :
    (xs ++ [x]).IsChain (Linked next prev) ∧ Linked next prev x y ∧ (y :: ys).IsChain (Linked next prev) := by
  unfold Circular at h
  rw [hl, List.isChain_append_cons_cons] at h
  exact h

theorem nodup_cut {xs ys : List P} {y : P} (h : (head :: l).Nodup) (hl : head :: l ++ [head] = xs ++ x :: y :: ys) :
    (x ∉ xs ∧ x ∉ (y :: ys).dropLast) ∧ y ∉ (xs ++ [x]).tail ∧ y ∉ ys := by
  obtain ⟨h1, h2⟩ := nodup_round h
  rw [hl] at h1 h2
  constructor
  · have hdrop : (xs ++ x :: y :: ys).dropLast = xs ++ x :: (y :: ys).dropLast := by
      rw [List.dropLast_append_of_ne_nil (List.cons_ne_nil _ _), List.dropLast_cons_of_ne_nil (List.cons_ne_nil _ _)]
    rw [hdrop, List.nodup_append] at h1
    obtain ⟨_, hx, hdisj⟩ := h1
    exact ⟨fun hmem => hdisj x hmem x List.mem_cons_self rfl, (List.nodup_cons.mp hx).1⟩
  · have htail : (xs ++ x :: y :: ys).tail = (xs ++ [x]).tail ++ y :: ys := by
      cases xs with
      | nil => rfl
      | cons a xs => simp
    rw [htail, List.nodup_append] at h2
    obtain ⟨_, hy, hdisj⟩ := h2
    exact ⟨fun hmem => hdisj y hmem y List.mem_cons_self rfl, (List.nodup_cons.mp hy).1⟩

theorem exists_cons (l : List P) (head : P) : ∃ y ys, l ++ [head] = y :: ys := by
  cases l with
  | nil => exact ⟨head, [], rfl⟩
  | cons y l => exact ⟨y, l ++ [head], rfl⟩

end Links

section Update

variable [DecidableEq P]

/-- The links after `new` has been put behind `left`. -/
def nextInsert (next : P → P) (left new : P) : P → P :=
  Function.update (Function.update next new (next left)) left new

def prevInsert (next prev : P → P) (left new : P) : P → P :=
  Function.update (Function.update prev new left) (next left) new

/-- The links after `p` has been taken out. -/
def nextRemove (next prev : P → P) (p : P) : P → P := Function.update next (prev p) (next p)

def prevRemove (next prev : P → P) (p : P) : P → P := Function.update prev (next p) (prev p)

theorem insert_chain {xs ys : List P} {y : P} (h : Circular next prev head l) (hnodup : (head :: l).Nodup)
    (hl : head :: l ++ [head] = xs ++ x :: y :: ys) (hnew : new ∉ head :: l) :
    List.IsChain (Linked (nextInsert next x new) (prevInsert next prev x new)) (xs ++ x :: new :: y :: ys) := by
  obtain ⟨hxs, hxy, hys⟩ := h.cut hl
  obtain ⟨⟨hx1, hx2⟩, hy1, hy2⟩ := nodup_cut hnodup hl
  have hmem : ∀ z ∈ xs ++ x :: y :: ys, z ≠ new := by
    intro z hz hzn
    rw [← hl, hzn] at hz
    rcases List.mem_append.mp hz with hz | hz
    · exact hnew hz
    · rw [List.mem_singleton.mp hz] at hnew
      exact hnew List.mem_cons_self
  have hxn : x ≠ new := hmem x (by simp)
  have hyn : y ≠ new := hmem y (by simp)
  have hnext : ∀ z, z ≠ x → z ≠ new → nextInsert next x new z = next z := by
    intro z hzx hzn
    unfold nextInsert
    rw [Function.update_of_ne hzx, Function.update_of_ne hzn]
  have hprev : ∀ z, z ≠ y → z ≠ new → prevInsert next prev x new z = prev z := by
    intro z hzy hzn
    unfold prevInsert
    rw [hxy.1, Function.update_of_ne hzy, Function.update_of_ne hzn]
  rw [List.isChain_append_cons_cons, List.isChain_cons_cons]
  refine ⟨chain_congr hxs (fun z hz => ?_) fun z hz => ?_, ⟨?_, ?_⟩, ⟨?_, ?_⟩,
    chain_congr hys (fun z hz => ?_) fun z hz => ?_⟩
  · rw [List.dropLast_concat] at hz
    exact hnext z (fun hzx => hx1 (hzx ▸ hz)) (hmem z (List.mem_append_left _ hz))
  · refine hprev z (fun hzy => hy1 (hzy ▸ hz)) (hmem z ?_)
    have hz' := List.mem_of_mem_tail hz
    rw [List.mem_append, List.mem_singleton] at hz'
    rcases hz' with hz' | hz'
    · exact List.mem_append_left _ hz'
    · rw [hz']
      simp
  · exact Function.update_self ..
  · unfold prevInsert
    rw [hxy.1, Function.update_of_ne hyn.symm, Function.update_self]
  · unfold nextInsert
    rw [Function.update_of_ne hxn.symm, Function.update_self, hxy.1]
  · unfold prevInsert
    rw [hxy.1, Function.update_self]
  · refine hnext z (fun hzx => hx2 (hzx ▸ hz)) (hmem z ?_)
    have hz' := List.dropLast_subset _ hz
    exact List.mem_append_right _ (List.mem_cons_of_mem _ hz')
  · have hz' : z ∈ ys := hz
    refine hprev z (fun hzy => hy2 (hzy ▸ hz')) (hmem z ?_)
    exact List.mem_append_right _ (List.mem_cons_of_mem _ (List.mem_cons_of_mem _ hz'))

theorem remove_chain {xs ys : List P} {y : P} (h : Circular next prev head l) (hnodup : (head :: l).Nodup)
    (hl : head :: l ++ [head] = xs ++ x :: p :: y :: ys) :
    List.IsChain (Linked (nextRemove next prev p) (prevRemove next prev p)) (xs ++ x :: y :: ys) := by
  obtain ⟨hxs, hxp, hpy⟩ := h.cut hl
  rw [List.isChain_cons_cons] at hpy
  have hl' : head :: l ++ [head] = (xs ++ [x]) ++ p :: y :: ys := by rw [hl]; simp
  obtain ⟨⟨hx1, hx2⟩, hp1, hp2⟩ := nodup_cut hnodup hl
  obtain ⟨_, hy1, hy2⟩ := nodup_cut hnodup hl'
  have hnext : ∀ z, z ≠ x → nextRemove next prev p z = next z := by
    intro z hz
    unfold nextRemove
    rw [hxp.2, Function.update_of_ne hz]
  have hprev : ∀ z, z ≠ y → prevRemove next prev p z = prev z := by
    intro z hz
    unfold prevRemove
    rw [hpy.1.1, Function.update_of_ne hz]
  rw [List.isChain_append_cons_cons]
  refine ⟨chain_congr hxs (fun z hz => ?_) fun z hz => ?_, ⟨?_, ?_⟩, chain_congr hpy.2 (fun z hz => ?_) fun z hz => ?_⟩
  · rw [List.dropLast_concat] at hz
    exact hnext z fun hzx => hx1 (hzx ▸ hz)
  · refine hprev z fun hzy => hy1 ?_
    rw [← hzy]
    cases xs with
    | nil => cases hz
    | cons a xs =>
      exact List.mem_append_left _ hz
  · unfold nextRemove
    rw [hxp.2, Function.update_self]
    exact hpy.1.1
  · unfold prevRemove
    rw [hpy.1.1, Function.update_self]
    exact hxp.2
  · refine hnext z fun hzx => hx2 ?_
    rw [← hzx, List.dropLast_cons_of_ne_nil (List.cons_ne_nil _ _)]
    exact List.mem_cons_of_mem _ hz
  · exact hprev z fun hzy => hy2 (hzy ▸ hz)

theorem Circular.insert (h : Circular next prev head (l₁ ++ left :: l₂)) (hnodup : (head :: (l₁ ++ left :: l₂)).Nodup)
    (hnew : new ∉ head :: (l₁ ++ left :: l₂)) :
    Circular (nextInsert next left new) (prevInsert next prev left new) head (l₁ ++ left :: new :: l₂) := by
  obtain ⟨y, ys, hy⟩ := exists_cons l₂ head
  have hl : head :: (l₁ ++ left :: l₂) ++ [head] = (head :: l₁) ++ left :: y :: ys := by
    rw [← hy]
    simp
  have hc := insert_chain h hnodup hl hnew
  rw [← hy] at hc
  unfold Circular
  have hr : head :: (l₁ ++ left :: new :: l₂) ++ [head] = head :: l₁ ++ left :: new :: (l₂ ++ [head]) := by simp
  rw [hr]
  exact hc

theorem Circular.insert_head (h : Circular next prev head l) (hnodup : (head :: l).Nodup) (hnew : new ∉ head :: l) :
    Circular (nextInsert next head new) (prevInsert next prev head new) head (new :: l) := by
  obtain ⟨y, ys, hy⟩ := exists_cons l head
  have hl : head :: l ++ [head] = [] ++ head :: y :: ys := by
    rw [← hy]
    rfl
  have hc := insert_chain h hnodup hl hnew
  rw [← hy] at hc
  exact hc

theorem Circular.remove (h : Circular next prev head (l₁ ++ p :: l₂)) (hnodup : (head :: (l₁ ++ p :: l₂)).Nodup) :
    Circular (nextRemove next prev p) (prevRemove next prev p) head (l₁ ++ l₂) := by
  obtain ⟨y, ys, hy⟩ := exists_cons l₂ head
  rcases List.eq_nil_or_concat (head :: l₁) with hnil | ⟨xs, x, hx⟩
  · cases hnil
  · have hl : head :: (l₁ ++ p :: l₂) ++ [head] = xs ++ x :: p :: y :: ys := by
      have hassoc : head :: (l₁ ++ p :: l₂) ++ [head] = (head :: l₁) ++ p :: (l₂ ++ [head]) := by simp
      rw [hassoc, hx, hy]
      simp
    have hc := remove_chain h hnodup hl
    have hr : head :: (l₁ ++ l₂) ++ [head] = xs ++ x :: y :: ys := by
      have hassoc : head :: (l₁ ++ l₂) ++ [head] = (head :: l₁) ++ (l₂ ++ [head]) := by simp
      rw [hassoc, hx, hy]
      simp
    unfold Circular
    rw [hr]
    exact hc

end Update

section Walk

theorem Circular.next_eq (h : Circular next prev head (l₁ ++ x :: l₂)) : next x = (l₂ ++ [head]).head (by simp) := by
  obtain ⟨y, ys, hy⟩ := exists_cons l₂ head
  have hl : head :: (l₁ ++ x :: l₂) ++ [head] = (head :: l₁) ++ x :: y :: ys := by
    rw [← hy]
    simp
  have hxy := (h.cut hl).2.1.1
  simp only [hy]
  exact hxy

variable [DecidableEq P]

/-- A loop over the elements that can be left early, from `p` on. -/
def walk (next : P → P) (head : P) (body : β → P → α ⊕ β) : Nat → β → P → Option (α ⊕ β)
  | 0, _, _ => none
  | k + 1, acc, p =>
    if p = head then some (.inr acc)
    else
      match body acc p with
      | .inl a => some (.inl a)
      | .inr acc => walk next head body k acc (next p)

/-- The same loop over a list. -/
def scan (body : β → P → α ⊕ β) : β → List P → α ⊕ β
  | acc, [] => .inr acc
  | acc, p :: l =>
    match body acc p with
    | .inl a => .inl a
    | .inr acc => scan body acc l

theorem walk_eq {body : β → P → α ⊕ β} {fuel : Nat} {acc : β} (hchain : List.IsChain (Linked next prev) (l ++ [head]))
    (hhead : head ∉ l) (hfuel : l.length < fuel) :
    walk next head body fuel acc ((l ++ [head]).head (by simp)) = some (scan body acc l) := by
  induction l generalizing fuel acc with
  | nil =>
    obtain ⟨k, rfl⟩ := Nat.exists_eq_add_one_of_ne_zero (Nat.ne_of_gt hfuel)
    exact if_pos rfl
  | cons p l ih =>
    obtain ⟨k, rfl⟩ := Nat.exists_eq_add_one_of_ne_zero (Nat.ne_of_gt (Nat.zero_lt_of_lt hfuel))
    have hp : p ≠ head := fun hp => hhead (hp ▸ List.mem_cons_self)
    have htail : List.IsChain (Linked next prev) (l ++ [head]) := hchain.tail
    have hnext : next p = (l ++ [head]).head (by simp) := by
      cases l with
      | nil => exact hchain.rel.1
      | cons q l => exact hchain.rel.1
    have hwalk : walk next head body (k + 1) acc p = match body acc p with
        | .inl a => some (.inl a)
        | .inr acc => walk next head body k acc (next p) := if_neg hp
    dsimp only [List.cons_append, List.head_cons, scan]
    rw [hwalk]
    cases body acc p with
    | inl a => rfl
    | inr acc =>
      dsimp only
      rw [hnext]
      exact ih htail (fun hmem => hhead (List.mem_cons_of_mem p hmem)) (Nat.lt_of_succ_lt_succ hfuel)

theorem Circular.walk_all {body : β → P → α ⊕ β} {fuel : Nat} {acc : β} (h : Circular next prev head l)
    (hhead : head ∉ l) (hfuel : l.length < fuel) :
      walk next head body fuel acc (next head) = some (scan body acc l) := by
  have htail : List.IsChain (Linked next prev) (l ++ [head]) := List.IsChain.tail h
  have hnext : next head = (l ++ [head]).head (by simp) := by
    cases l with
    | nil => exact (List.IsChain.rel h).1
    | cons q l => exact (List.IsChain.rel h).1
  rw [hnext]
  exact walk_eq htail hhead hfuel

theorem Circular.walk_from {body : β → P → α ⊕ β} {fuel : Nat} {acc : β} (h : Circular next prev head (l₁ ++ x :: l₂))
    (hhead : head ∉ l₁ ++ x :: l₂) (hfuel : (x :: l₂).length < fuel) :
    walk next head body fuel acc x = some (scan body acc (x :: l₂)) := by
  have hsuffix : List.IsChain (Linked next prev) (x :: l₂ ++ [head]) := by
    have hassoc : head :: (l₁ ++ x :: l₂) ++ [head] = (head :: l₁) ++ (x :: l₂ ++ [head]) := by simp
    unfold Circular at h
    rw [hassoc] at h
    exact h.right_of_append
  exact walk_eq hsuffix (fun hmem => hhead (List.mem_append_right l₁ hmem)) hfuel

omit [DecidableEq P] in
theorem scan_find (c : P → Prop) [DecidablePred c] (l : List P) :
    scan (fun (_ : Unit) p => if c p then .inl p else .inr ()) () l =
      match l.find? (fun p => decide (c p)) with
      | some p => .inl p
      | none => .inr () := by
  induction l with
  | nil => rfl
  | cons p l ih =>
    by_cases hp : c p
    · have hfind : (p :: l).find? (fun p => decide (c p)) = some p := List.find?_cons_of_pos (decide_eq_true hp)
      rw [hfind]
      simp only [scan, if_pos hp]
    · have hfind : (p :: l).find? (fun p => decide (c p)) = l.find? (fun p => decide (c p)) :=
        List.find?_cons_of_neg (by simp [hp])
      rw [hfind]
      simp only [scan, if_neg hp]
      exact ih

omit [DecidableEq P] in
theorem scan_last (bad good : P → Prop) [DecidablePred bad] [DecidablePred good] (acc : Option P) (l : List P) :
    scan (fun acc p => if bad p then .inl () else .inr (if good p then some p else acc)) acc l =
      if ∃ p ∈ l, bad p then .inl () else .inr ((l.reverse.find? fun p => decide (good p)).or acc) := by
  induction l generalizing acc with
  | nil => simp [scan]
  | cons p l ih =>
    by_cases hbad : bad p
    · have hex : ∃ q ∈ p :: l, bad q := ⟨p, List.mem_cons_self, hbad⟩
      simp only [scan, if_pos hbad, if_pos hex]
    · have hiff : (∃ q ∈ p :: l, bad q) ↔ ∃ q ∈ l, bad q := by simp [hbad]
      have hfind : ((p :: l).reverse.find? fun p => decide (good p)).or acc =
          (l.reverse.find? fun p => decide (good p)).or (if good p then some p else acc) := by
        rw [List.reverse_cons, List.find?_append, Option.or_assoc]
        congr 1
        by_cases hgood : good p <;> simp [hgood]
      simp only [scan, if_neg hbad, hiff, hfind]
      exact ih _

end Walk

end Ring
