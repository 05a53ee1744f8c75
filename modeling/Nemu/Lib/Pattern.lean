import Mathlib.Data.List.TakeWhile

/-- A pattern of a lexer: fixed characters, and after them a run of characters of one class, of
bounded length. -/
structure Pattern (α : Type) where
  lead : List α
  rest : α → Bool
  least : Nat
  most : Option Nat

namespace Pattern

variable {α : Type} [DecidableEq α] {p : Pattern α} {w s t : List α} {a : α} {n : Nat}

/-- The pattern of fixed characters only. -/
def fixed (lead : List α) : Pattern α := ⟨lead, fun _ => false, 0, none⟩

def bounded (most : Option Nat) (n : Nat) : Nat :=
  match most with
  | none => n
  | some m => min n m

/-- How many characters of `s` the pattern matches from its start on, as many as possible. -/
def matchLen (p : Pattern α) (s : List α) : Option Nat :=
  if p.lead.isPrefixOf s then
    let n := bounded p.most ((s.drop p.lead.length).takeWhile p.rest).length
    if p.least ≤ n then some (p.lead.length + n) else none
  else none

omit [DecidableEq α] in
theorem takeWhile_run {q : α → Bool} (hw : ∀ a ∈ w, q a = true)
    (hs : ∀ a, s.head? = some a → q a = false) : (w ++ s).takeWhile q = w := by
  have hrest : s.takeWhile q = [] := by
    cases s with
    | nil => rfl
    | cons a s => exact List.takeWhile_cons_of_neg (by rw [hs a rfl]; exact Bool.false_ne_true)
  rw [List.takeWhile_append_of_pos hw, hrest, List.append_nil]

/-- A match may begin with `a`. -/
def begins (p : Pattern α) (a : α) : Bool :=
  match p.lead with
  | [] => p.rest a
  | b :: _ => b == a

theorem matchLen_lead (h : p.lead.isPrefixOf s = false) : p.matchLen s = none := by
  unfold matchLen
  rw [h, if_neg Bool.false_ne_true]

theorem matchLen_begins (hp : p.lead ≠ [] ∨ 1 ≤ p.least) (h : p.begins a = false) :
    p.matchLen (a :: s) = none := by
  unfold begins at h
  cases hlead : p.lead with
  | cons b l =>
    rw [hlead] at h
    have hb : (b == a) = false := h
    apply matchLen_lead
    rw [hlead, List.isPrefixOf_cons_cons, hb, Bool.false_and]
  | nil =>
    rw [hlead] at h
    have hleast : 1 ≤ p.least := by
      obtain hne | hleast := hp
      · exact absurd hlead hne
      · exact hleast
    have hrun : (a :: s).takeWhile p.rest = [] := List.takeWhile_cons_of_neg (Bool.eq_false_iff.mp h)
    have hzero : bounded p.most 0 = 0 := by
      unfold bounded
      cases p.most
      · rfl
      · exact Nat.zero_min _
    unfold matchLen
    rw [hlead]
    simp only [List.isPrefixOf, if_true, List.length_nil, List.drop_zero, hrun, hzero]
    rw [if_neg (by omega)]

theorem matchLen_run (hw : ∀ a ∈ w, p.rest a = true) (hs : ∀ a, s.head? = some a → p.rest a = false)
    (hleast : p.least ≤ bounded p.most w.length) :
    p.matchLen (p.lead ++ w ++ s) = some (p.lead.length + bounded p.most w.length) := by
  have hlead : p.lead.isPrefixOf (p.lead ++ w ++ s) = true := by
    rw [List.isPrefixOf_iff_prefix, List.append_assoc]
    exact List.prefix_append _ _
  have hdrop : (p.lead ++ w ++ s).drop p.lead.length = w ++ s := by
    rw [List.append_assoc, List.drop_left]
  unfold matchLen
  rw [if_pos hlead, hdrop, takeWhile_run hw hs, if_pos hleast]

theorem matchLen_pos (hp : p.lead ≠ [] ∨ 1 ≤ p.least) (h : p.matchLen s = some n) : 0 < n := by
  unfold matchLen at h
  split at h
  · dsimp only at h
    split at h
    · next hleast =>
      cases h
      obtain hlead | hone := hp
      · have := List.length_pos_iff.mpr hlead
        omega
      · omega
    · cases h
  · cases h

end Pattern
