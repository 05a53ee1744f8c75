import Mathlib.Logic.Function.Basic
import Nemu.Lib.BitField

namespace Packed

set_option autoImplicit true

variable {ρ : Type} {n w v a k i : Nat} {file : ρ → BitVec n} {p q : ρ × Nat} {place : Nat → ρ × Nat}
  {x : BitVec w} {val : Nat → Option (BitVec w)}

/-- Element `p.2` of register `p.1`, in a file of registers that hold elements of `w` bits. -/
def get (w : Nat) (file : ρ → BitVec n) (p : ρ × Nat) : BitVec w :=
  (file p.1).extractLsb' (p.2 * w) w

/-- The elements have no bit in common. -/
def Apart (w : Nat) (p : ρ × Nat) (v : Nat) (q : ρ × Nat) : Prop :=
  p.1 = q.1 → p.2 * w + w ≤ q.2 * v ∨ q.2 * v + v ≤ p.2 * w

theorem apart_of_ne (h : p ≠ q) : Apart w p w q := by
  intro hr
  have hj : p.2 ≠ q.2 := fun hj => h (Prod.ext hr hj)
  rcases Nat.lt_or_gt_of_ne hj with hlt | hlt
  · have hmul := Nat.mul_le_mul_right w (Nat.succ_le_of_lt hlt)
    rw [Nat.succ_mul] at hmul
    exact .inl hmul
  · have hmul := Nat.mul_le_mul_right w (Nat.succ_le_of_lt hlt)
    rw [Nat.succ_mul] at hmul
    exact .inr hmul

variable [DecidableEq ρ]

def set (file : ρ → BitVec n) (q : ρ × Nat) (x : BitVec w) : ρ → BitVec n :=
  Function.update file q.1 (BitField.insert (q.2 * w) x (file q.1))

theorem get_set_self (h : p.2 * w + w ≤ n) : get w (set file p x) p = x := by
  unfold get set
  rw [Function.update_self]
  exact BitField.extract_insert_same _ x _ h

theorem get_set_apart {x : BitVec v} (h : Apart w p v q) : get w (set file q x) p = get w file p := by
  unfold get set
  by_cases hr : p.1 = q.1
  · rw [hr, Function.update_self]
    exact BitField.extract_insert_disjoint _ x _ _ _ (h hr)
  · rw [Function.update_of_ne hr]

/-- Writes, in order, the elements at `place i` for the `k` indices `i` from `a` on that have a
value. -/
def setAll (file : ρ → BitVec n) (place : Nat → ρ × Nat) (val : Nat → Option (BitVec w)) (a : Nat) :
    Nat → ρ → BitVec n
  | 0 => file
  | k + 1 =>
    match val (a + k) with
    | none => setAll file place val a k
    | some x => set (setAll file place val a k) (place (a + k)) x

theorem setAll_skip (h : val (a + k) = none) :
    setAll file place val a (k + 1) = setAll file place val a k := by
  simp only [setAll, h]

theorem setAll_write (h : val (a + k) = some x) :
    setAll file place val a (k + 1) = set (setAll file place val a k) (place (a + k)) x := by
  simp only [setAll, h]

theorem get_setAll_apart {val : Nat → Option (BitVec v)}
    (h : ∀ i, a ≤ i → i < a + k → val i ≠ none → Apart w p v (place i)) :
    get w (setAll file place val a k) p = get w file p := by
  induction k with
  | zero => rfl
  | succ k ih =>
    have hrest := ih fun i ha hi => h i ha (Nat.lt_succ_of_lt hi)
    cases hval : val (a + k) with
    | none => rw [setAll_skip hval, hrest]
    | some x =>
      have hne : val (a + k) ≠ none := by
        rw [hval]
        exact Option.some_ne_none x
      rw [setAll_write hval, get_set_apart (h _ (Nat.le_add_right a k) (Nat.lt_succ_self _) hne), hrest]

theorem get_setAll (ha : a ≤ i) (hi : i < a + k) (hval : val i = some x)
    (hfit : (place i).2 * w + w ≤ n)
    (hinj : ∀ j, a ≤ j → j < a + k → place j = place i → j = i) :
    get w (setAll file place val a k) (place i) = x := by
  induction k with
  | zero => exact absurd hi (Nat.not_lt.mpr ha)
  | succ k ih =>
    rcases Nat.lt_succ_iff_lt_or_eq.mp hi with hlt | heq
    · have hrest := ih hlt fun j haj hj => hinj j haj (Nat.lt_succ_of_lt hj)
      cases hlast : val (a + k) with
      | none => rw [setAll_skip hlast, hrest]
      | some y =>
        have hne : place i ≠ place (a + k) := by
          intro h
          have heq := hinj (a + k) (Nat.le_add_right a k) (Nat.lt_succ_self _) h.symm
          exact absurd heq (Nat.ne_of_gt hlt)
        rw [setAll_write hlast, get_set_apart (apart_of_ne hne), hrest]
    · rw [heq] at hval hfit ⊢
      rw [setAll_write hval]
      exact get_set_self hfit

end Packed
