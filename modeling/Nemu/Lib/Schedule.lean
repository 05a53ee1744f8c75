import Mathlib.Order.Bounds.Basic
import Mathlib.Data.List.Basic

set_option autoImplicit true

/-- At each of a sequence of times at most one event is served: the next one, once its time has come.
The result tells at which times one is served; `j` events were served before. -/
def serve {α : Type} [LE α] [DecidableLE α] (due : Nat → α) : Nat → List α → List Bool
  | _, [] => []
  | j, t :: ts => if due j ≤ t then true :: serve due (j + 1) ts else false :: serve due j ts

def servedBefore (served : List Bool) (k : Nat) : Nat := (served.take k).count true

/-- Event `j` is served at the time with index `k`. -/
def ServedAt (served : List Bool) (j k : Nat) : Prop := served[k]? = some true ∧ servedBefore served k = j

variable {α : Type} {served : List Bool} {i j k k' : Nat}

section Count

theorem servedBefore_succ (h : served[k]? = some b) :
    servedBefore served (k + 1) = servedBefore served k + if b then 1 else 0 := by
  unfold servedBefore
  rw [List.take_add_one, h, List.count_append]
  cases b <;> rfl

theorem servedBefore_mono (h : k ≤ k') : servedBefore served k ≤ servedBefore served k' := by
  apply List.Sublist.count_le
  exact List.take_sublist_take_left h

theorem exists_servedAt (h : j < servedBefore served k) : ∃ k' < k, ServedAt served j k' := by
  induction k with
  | zero => exact absurd h (Nat.not_lt_zero j)
  | succ k ih =>
    by_cases hlt : j < servedBefore served k
    · obtain ⟨k', hk', hserved⟩ := ih hlt
      exact ⟨k', Nat.lt_succ_of_lt hk', hserved⟩
    · cases hget : served[k]? with
      | none =>
        have hsame : servedBefore served (k + 1) = servedBefore served k := by
          unfold servedBefore
          rw [List.take_add_one, hget, Option.toList_none, List.append_nil]
        rw [hsame] at h
        exact absurd h hlt
      | some b =>
        have hsucc := servedBefore_succ hget
        cases b with
        | false =>
          rw [hsucc] at h
          exact absurd h hlt
        | true =>
          rw [if_pos rfl] at hsucc
          exact ⟨k, Nat.lt_succ_self k, hget, by omega⟩

end Count

section Serve

variable [LE α] [DecidableLE α] {due : Nat → α} {times : List α} {t : α}

theorem serve_length (due : Nat → α) (j : Nat) (times : List α) : (serve due j times).length = times.length := by
  induction times generalizing j with
  | nil => rfl
  | cons t ts ih =>
    rw [serve]
    split
    · rw [List.length_cons, List.length_cons, ih]
    · rw [List.length_cons, List.length_cons, ih]

theorem serve_iff (h : times[k]? = some t) :
    (serve due j times)[k]? = some true ↔ due (j + servedBefore (serve due j times) k) ≤ t := by
  induction times generalizing j k with
  | nil => cases h
  | cons t' ts ih =>
    rw [serve]
    cases k with
    | zero =>
      cases h
      have hzero : ∀ l : List Bool, servedBefore l 0 = 0 := fun _ => rfl
      rw [hzero, Nat.add_zero]
      split
      next hdue => exact iff_of_true rfl hdue
      next hdue => exact iff_of_false (fun heq => Bool.false_ne_true (Option.some.inj heq)) hdue
    | succ k =>
      have hget : ts[k]? = some t := h
      split
      · rw [List.getElem?_cons_succ, ih hget]
        have hcount : servedBefore (true :: serve due (j + 1) ts) (k + 1) =
            servedBefore (serve due (j + 1) ts) k + 1 := List.count_cons_self
        rw [hcount, Nat.add_assoc, Nat.add_comm 1]
      · rw [List.getElem?_cons_succ, ih hget]
        rfl

theorem servedAt_get (h : ServedAt (serve due 0 times) j k) : ∃ t, times[k]? = some t ∧ due j ≤ t := by
  obtain ⟨hserved, hcount⟩ := h
  have hlt : k < times.length := by
    rw [← serve_length due 0 times]
    exact (List.getElem?_eq_some_iff.mp hserved).1
  refine ⟨times[k], List.getElem?_eq_getElem hlt, ?_⟩
  have hdue := (serve_iff (List.getElem?_eq_getElem hlt)).mp hserved
  rw [Nat.zero_add, hcount] at hdue
  exact hdue

theorem servedAt_iff_isLeast :
    ServedAt (serve due 0 times) j k ↔
      IsLeast {k | j ≤ servedBefore (serve due 0 times) k ∧ ∃ t, times[k]? = some t ∧ due j ≤ t} k := by
  constructor
  · intro h
    refine ⟨⟨h.2.ge, servedAt_get h⟩, ?_⟩
    rintro k' ⟨hcount, t, hget, hdue⟩
    by_contra hlt
    have hk : k' < k := Nat.lt_of_not_le hlt
    have hle : servedBefore (serve due 0 times) (k' + 1) ≤ servedBefore (serve due 0 times) k :=
      servedBefore_mono hk
    have hmono : servedBefore (serve due 0 times) k' ≤ servedBefore (serve due 0 times) k :=
      servedBefore_mono hk.le
    rw [h.2] at hle hmono
    have heq : servedBefore (serve due 0 times) k' = j := by omega
    have hserved : (serve due 0 times)[k']? = some true := by
      rw [serve_iff hget, Nat.zero_add, heq]
      exact hdue
    rw [servedBefore_succ hserved, if_pos rfl] at hle
    omega
  · rintro ⟨⟨hcount, t, hget, hdue⟩, hleast⟩
    by_cases heq : servedBefore (serve due 0 times) k = j
    · refine ⟨?_, heq⟩
      rw [serve_iff hget, Nat.zero_add, heq]
      exact hdue
    · obtain ⟨k', hlt, hserved⟩ := exists_servedAt (show j < servedBefore (serve due 0 times) k by omega)
      have hle := hleast ⟨hserved.2.ge, servedAt_get hserved⟩
      omega

/-- At times that do not decrease, an event is late only when it was due already when the event
before it was served, and then by one. -/
theorem servedAt_prompt [IsTrans α (· ≤ ·)] (hmono : times.Pairwise (· ≤ ·)) (h : ServedAt (serve due 0 times) j k) :
    (∀ k' < k, ∀ t, times[k']? = some t → ¬ due j ≤ t) ∨
      ∃ i k₁ t, j = i + 1 ∧ k = k₁ + 1 ∧ ServedAt (serve due 0 times) i k₁ ∧ times[k₁]? = some t ∧ due j ≤ t := by
  by_cases hfirst : ∀ k' < k, ∀ t, times[k']? = some t → ¬ due j ≤ t
  · exact .inl hfirst
  right
  have hleast := servedAt_iff_isLeast.mp h
  push Not at hfirst
  obtain ⟨k', hk', t', hget', hdue'⟩ := hfirst
  have hbefore : servedBefore (serve due 0 times) k' < j := by
    by_contra hle
    have hmin := hleast.2 ⟨Nat.le_of_not_lt hle, t', hget', hdue'⟩
    omega
  obtain ⟨i, rfl⟩ : ∃ i, j = i + 1 := ⟨j - 1, by omega⟩
  obtain ⟨k₁, hk₁, hserved⟩ := exists_servedAt (show i < servedBefore (serve due 0 times) k by rw [h.2]; omega)
  have hcount : servedBefore (serve due 0 times) (k₁ + 1) = i + 1 := by
    rw [servedBefore_succ hserved.1, hserved.2, if_pos rfl]
  have hle : k' ≤ k₁ := by
    by_contra hlt
    have hmono' : servedBefore (serve due 0 times) (k₁ + 1) ≤ servedBefore (serve due 0 times) k' :=
      servedBefore_mono (by omega)
    omega
  have hlen : k < times.length := by
    rw [← serve_length due 0 times]
    exact (List.getElem?_eq_some_iff.mp h.1).1
  have hreached : ∀ m (hm : m < times.length), k' ≤ m → due (i + 1) ≤ times[m] := by
    intro m hm hkm
    obtain ⟨hlt', hval'⟩ := List.getElem?_eq_some_iff.mp hget'
    rw [← hval'] at hdue'
    rcases Nat.lt_or_eq_of_le hkm with hkm | rfl
    · exact IsTrans.trans _ _ _ hdue' (List.pairwise_iff_getElem.mp hmono k' m hlt' hm hkm)
    · exact hdue'
  have hk₁len : k₁ < times.length := by omega
  have hnext : k₁ + 1 < times.length := by omega
  have hmin := hleast.2 ⟨hcount.ge, _, List.getElem?_eq_getElem hnext, hreached _ hnext (by omega)⟩
  refine ⟨i, k₁, times[k₁], rfl, by omega, hserved, List.getElem?_eq_getElem hk₁len, hreached k₁ hk₁len hle⟩

end Serve
