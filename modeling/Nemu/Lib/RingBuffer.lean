import Mathlib.Data.List.Basic
import Mathlib.Data.Int.ModEq
import Mathlib.Logic.Function.Basic

set_option autoImplicit true

/-- `n` slots in a circle, with the slot that is emptied next and the one that is filled next. -/
structure RingBuffer (n : Nat) (σ : Type) where
  slot : Fin n → σ
  head : Fin n
  tail : Fin n

namespace RingBuffer

variable {n : Nat} [NeZero n] {σ : Type} {free : σ → Prop} {r : RingBuffer n σ} {l : List σ} {x y : σ}

def put (r : RingBuffer n σ) (x : σ) : RingBuffer n σ :=
  { r with slot := Function.update r.slot r.tail x, tail := r.tail + 1 }

def take (r : RingBuffer n σ) (x : σ) : RingBuffer n σ :=
  { r with slot := Function.update r.slot r.head x, head := r.head + 1 }

def after (h : Fin n) (i : Nat) : Fin n := h + Fin.ofNat n i

theorem after_zero (h : Fin n) : after h 0 = h := by
  apply Fin.ext
  simp [after]

theorem after_succ (h : Fin n) (i : Nat) : after h i + 1 = after h (i + 1) := by
  change after h i + Fin.ofNat n 1 = _
  apply Fin.ext
  simp [after, Fin.val_add, Nat.add_assoc]

theorem succ_after (h : Fin n) (i : Nat) : after (h + 1) i = after h (i + 1) := by
  change after (h + Fin.ofNat n 1) i = _
  apply Fin.ext
  simp [after, Fin.val_add, Nat.add_assoc, Nat.add_comm i]

theorem after_inj {h : Fin n} (hi : i < n) (hj : j < n) (he : after h i = after h j) : i = j := by
  have hmod : h.val + i ≡ h.val + j [MOD n] := by
    have hval := congrArg Fin.val he
    simpa [after, Fin.val_add, Nat.ModEq] using hval
  exact Nat.ModEq.eq_of_lt_of_lt hmod.add_left_cancel' hi hj

/-- The slots from the head on hold `l`, and the others are free. -/
structure Holds (free : σ → Prop) (r : RingBuffer n σ) (l : List σ) : Prop where
  room : l.length ≤ n
  tail : r.tail = after r.head l.length
  held : ∀ i (h : i < l.length), r.slot (after r.head i) = l[i]
  rest : ∀ i, l.length ≤ i → i < n → free (r.slot (after r.head i))
  used : ∀ x ∈ l, ¬ free x

theorem Holds.put (h : Holds free r l) (hroom : l.length < n) (hx : ¬ free x) :
    Holds free (r.put x) (l ++ [x]) where
  room := by
    rw [List.length_append]
    exact hroom
  tail := by
    rw [List.length_append]
    change r.tail + 1 = _
    rw [h.tail, after_succ]
    rfl
  held i hi := by
    rw [List.length_append, List.length_singleton] at hi
    change Function.update r.slot r.tail x (after r.head i) = _
    obtain hlt | rfl := Nat.lt_succ_iff_lt_or_eq.mp hi
    · have hne : after r.head i ≠ r.tail := by
        rw [h.tail]
        intro he
        exact absurd (after_inj (by omega) hroom he) (by omega)
      rw [Function.update_of_ne hne, h.held i hlt, List.getElem_append_left]
    · rw [← h.tail, Function.update_self, List.getElem_append_right (Nat.le_refl _)]
      simp
  rest i hi hin := by
    rw [List.length_append, List.length_singleton] at hi
    change free (Function.update r.slot r.tail x (after r.head i))
    have hne : after r.head i ≠ r.tail := by
      rw [h.tail]
      intro he
      exact absurd (after_inj hin hroom he) (by omega)
    rw [Function.update_of_ne hne]
    exact h.rest i (by omega) hin
  used z hz := by
    obtain hz | hz := List.mem_append.mp hz
    · exact h.used z hz
    · rw [List.mem_singleton.mp hz]
      exact hx

theorem Holds.take (h : Holds free r (y :: l)) (hx : free x) : Holds free (r.take x) l where
  room := Nat.le_of_succ_le h.room
  tail := by
    change r.tail = after (r.head + 1) l.length
    rw [h.tail, succ_after]
    rfl
  held i hi := by
    change Function.update r.slot r.head x (after (r.head + 1) i) = _
    have hroom := h.room
    rw [List.length_cons] at hroom
    have hne : after r.head (i + 1) ≠ r.head := by
      intro he
      exact absurd (after_inj (by omega) (by omega) (he.trans (after_zero _).symm)) (by omega)
    rw [succ_after, Function.update_of_ne hne, h.held (i + 1) (Nat.succ_lt_succ hi)]
    rfl
  rest i hi hin := by
    change free (Function.update r.slot r.head x (after (r.head + 1) i))
    rw [succ_after]
    by_cases he : after r.head (i + 1) = r.head
    · rw [he, Function.update_self]
      exact hx
    · rw [Function.update_of_ne he]
      have hlt : i + 1 < n := by
        -- one more step from the last slot leads back to the head
        apply Nat.lt_of_le_of_ne hin
        rintro rfl
        apply he
        apply Fin.ext
        simp [after]
      exact h.rest (i + 1) (Nat.succ_le_succ hi) hlt
  used z hz := h.used z (List.mem_cons_of_mem _ hz)

theorem Holds.head_cons (h : Holds free r (y :: l)) : r.slot r.head = y := by
  have h0 := h.held 0 (Nat.succ_pos _)
  rw [after_zero] at h0
  exact h0

/-- The head is free only in an empty ring, also when all slots are in use. -/
theorem Holds.head_free (h : Holds free r l) : free (r.slot r.head) ↔ l = [] := by
  cases l with
  | nil =>
    have h0 := h.rest 0 (Nat.le_refl _) (Nat.pos_of_ne_zero (NeZero.ne n))
    rw [after_zero] at h0
    exact ⟨fun _ => rfl, fun _ => h0⟩
  | cons y l =>
    rw [h.head_cons]
    exact ⟨fun hf => absurd hf (h.used y List.mem_cons_self), fun hl => by cases hl⟩

def drop (r : RingBuffer n σ) : RingBuffer n σ := { r with head := r.head + 1 }

/-- The slots from the head on to the tail hold `l`. One slot is never used, so that a full ring is not taken for an
empty one. -/
structure Window (r : RingBuffer n σ) (l : List σ) : Prop where
  room : l.length < n
  tail : r.tail = after r.head l.length
  held : ∀ i (h : i < l.length), r.slot (after r.head i) = l[i]

theorem Window.put (h : Window r l) (hroom : l.length + 1 < n) : Window (r.put x) (l ++ [x]) where
  room := by
    rw [List.length_append]
    exact hroom
  tail := by
    rw [List.length_append]
    change r.tail + 1 = _
    rw [h.tail, after_succ]
    rfl
  held i hi := by
    rw [List.length_append, List.length_singleton] at hi
    change Function.update r.slot r.tail x (after r.head i) = _
    obtain hlt | rfl := Nat.lt_succ_iff_lt_or_eq.mp hi
    · have hne : after r.head i ≠ r.tail := by
        rw [h.tail]
        intro he
        exact absurd (after_inj (by omega) h.room he) (by omega)
      rw [Function.update_of_ne hne, h.held i hlt, List.getElem_append_left]
    · rw [← h.tail, Function.update_self, List.getElem_append_right (Nat.le_refl _)]
      simp

theorem Window.drop (h : Window r (y :: l)) : Window r.drop l where
  room := Nat.lt_of_succ_lt h.room
  tail := by
    change r.tail = after (r.head + 1) l.length
    rw [h.tail, succ_after]
    rfl
  held i hi := by
    change r.slot (after (r.head + 1) i) = _
    rw [succ_after, h.held (i + 1) (Nat.succ_lt_succ hi)]
    rfl

theorem Window.head_cons (h : Window r (y :: l)) : r.slot r.head = y := by
  have h0 := h.held 0 (Nat.succ_pos _)
  rwa [after_zero] at h0

theorem Window.head_eq_tail (h : Window r l) : r.head = r.tail ↔ l = [] := by
  rw [h.tail, ← List.length_eq_zero_iff]
  constructor
  · intro he
    exact after_inj h.room (Nat.pos_of_ne_zero (NeZero.ne n)) (he.symm.trans (after_zero _).symm)
  · intro h0
    rw [h0, after_zero]

/-- The test for a full ring. -/
theorem Window.next_eq_head (h : Window r l) : r.tail + 1 = r.head ↔ l.length + 1 = n := by
  rw [h.tail, after_succ]
  constructor
  · intro he
    by_contra hne
    have hlt : l.length + 1 < n := Nat.lt_of_le_of_ne h.room hne
    exact absurd (after_inj hlt (Nat.pos_of_ne_zero (NeZero.ne n)) (he.trans (after_zero _).symm)) (Nat.succ_ne_zero _)
  · intro hn
    rw [hn]
    apply Fin.ext
    simp [after]

theorem Window.nil (r : RingBuffer n σ) (h : r.head = r.tail) : Window r [] where
  room := Nat.pos_of_ne_zero (NeZero.ne n)
  tail := (after_zero r.head).symm ▸ h.symm
  held _ hi := absurd hi (Nat.not_lt_zero _)

end RingBuffer

/-- What was given to a queue in the course of time, of which the first `taken` were taken. -/
structure Feed (σ : Type) where
  given : List σ
  taken : Nat
  le : taken ≤ given.length

namespace Feed

variable {σ : Type} {l : List σ} {y : σ}

def rest (f : Feed σ) : List σ := f.given.drop f.taken

def next (f : Feed σ) : Option σ := f.rest.head?

def give (f : Feed σ) (xs : List σ) : Feed σ where
  given := f.given ++ xs
  taken := f.taken
  le := by
    rw [List.length_append]
    exact Nat.le_add_right_of_le f.le

def take (f : Feed σ) : Feed σ where
  given := f.given
  taken := min (f.taken + 1) f.given.length
  le := Nat.min_le_right _ _

theorem rest_give (f : Feed σ) (xs : List σ) : (f.give xs).rest = f.rest ++ xs :=
  List.drop_append_of_le_length f.le

theorem rest_take (f : Feed σ) : f.take.rest = f.rest.tail := by
  change f.given.drop (min (f.taken + 1) f.given.length) = (f.given.drop f.taken).tail
  rw [List.tail_drop]
  by_cases h : f.taken + 1 ≤ f.given.length
  · rw [Nat.min_eq_left h]
  · rw [Nat.min_eq_right (by omega), List.drop_length, List.drop_of_length_le (by omega)]

end Feed
