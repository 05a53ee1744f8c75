import Mathlib.Logic.Function.Basic

set_option autoImplicit true

/-- A list linked through its elements: `l` is met from the pointer `p` on, when `ptr a` points to
`a` and `a` holds the link `next a`. -/
inductive Chain {ρ α : Type} (null : ρ) (ptr next : α → ρ) : ρ → List α → Prop where
  | nil : Chain null ptr next null []
  | cons : Chain null ptr next (next a) l → Chain null ptr next (ptr a) (a :: l)

namespace Chain

variable {ρ α : Type} {null p : ρ} {ptr next next' : α → ρ} {a : α} {l : List α}

theorem congr (h : Chain null ptr next p l) (hn : ∀ a ∈ l, next' a = next a) :
    Chain null ptr next' p l := by
  induction h with
  | nil => exact .nil
  | @cons a l _ ih =>
    have ha := hn a List.mem_cons_self
    apply cons
    rw [ha]
    exact ih fun b hb => hn b (List.mem_cons_of_mem a hb)

theorem push (h : Chain null ptr next p l) (ha : next' a = p) (hl : a ∉ l)
    (hn : ∀ b, b ≠ a → next' b = next b) : Chain null ptr next' (ptr a) (a :: l) := by
  apply cons
  rw [ha]
  exact h.congr fun b hb => hn b fun hba => hl (hba ▸ hb)

theorem uncons (h : Chain null ptr next p (a :: l)) :
    p = ptr a ∧ Chain null ptr next (next a) l := by
  cases h with
  | cons h => exact ⟨rfl, h⟩

theorem of_nil (h : Chain null ptr next p []) : p = null := by
  cases h
  rfl

theorem pop (h : Chain null ptr next p l) (hp : p = ptr a) (hinj : Function.Injective ptr)
    (hnull : ptr a ≠ null) : ∃ l', l = a :: l' ∧ Chain null ptr next (next a) l' := by
  cases h with
  | nil => exact absurd hp.symm hnull
  | @cons b l h =>
    cases hinj hp
    exact ⟨l, rfl, h⟩

theorem eq_nil (h : Chain null ptr next p l) (hp : p = null) (hnull : ∀ a, ptr a ≠ null) :
    l = [] := by
  cases h with
  | nil => rfl
  | cons => exact absurd hp (hnull _)

theorem unlink {b : α} {l' : List α} (h : Chain null ptr next p (l ++ a :: b :: l'))
    (hnodup : (l ++ a :: b :: l').Nodup) (ha : next' a = next b) (hn : ∀ c, c ≠ a → next' c = next c) :
    Chain null ptr next' p (l ++ a :: l') := by
  induction l generalizing p with
  | nil =>
    obtain ⟨rfl, htail⟩ := h.uncons
    have hrest := htail.uncons.2
    apply cons
    rw [ha]
    apply hrest.congr
    intro c hc
    apply hn
    rintro rfl
    exact (List.nodup_cons.mp hnodup).1 (List.mem_cons_of_mem b hc)
  | cons c l ih =>
    obtain ⟨rfl, htail⟩ := h.uncons
    obtain ⟨hc, hnodup⟩ := List.nodup_cons.mp hnodup
    apply cons
    rw [hn c fun hca => hc (List.mem_append_right l (hca ▸ List.mem_cons_self))]
    exact ih htail hnodup

theorem range {ptr next : Nat → ρ} (m k : Nat)
    (hnext : ∀ i, next i = if i + 1 < k + m then ptr (i + 1) else null) (hm : 0 < m) :
    Chain null ptr next (ptr k) (List.range' k m) := by
  induction m generalizing k with
  | zero => omega
  | succ m ih =>
    rw [List.range'_succ]
    apply cons
    rw [hnext]
    by_cases hm' : 0 < m
    · rw [if_pos (by omega)]
      exact ih (k + 1) (fun i => by rw [hnext, Nat.add_right_comm, Nat.add_assoc]) hm'
    · obtain rfl : m = 0 := by omega
      rw [if_neg (by omega)]
      exact nil

end Chain
