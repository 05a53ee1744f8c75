import Nemu.Lib.Effect

namespace Effect

set_option autoImplicit true

variable {ε σ : Type} {body : Nat → EStateM ε σ Unit} {a k : Nat} {s t : σ}

/-- `for (i = a; i < a + k; i++)` -/
def counted (body : Nat → EStateM ε σ Unit) : Nat → Nat → EStateM ε σ Unit
  | _, 0 => pure ()
  | a, k + 1 => do
    body a
    counted body (a + 1) k

section

variable {I : Nat → σ → Prop} {good : Nat → Prop}

/-- A loop whose rounds end, and keep the invariant, if they are good, and do not end otherwise: it
ends if all its rounds are good. -/
theorem counted_ok_iff (h0 : I a s)
    (hgood : ∀ i u, a ≤ i → i < a + k → I i u → good i → ∃ u', body i u = .ok () u' ∧ I (i + 1) u')
    (hbad : ∀ i u u', a ≤ i → i < a + k → I i u → ¬ good i → body i u ≠ .ok () u') :
    (∃ t, counted body a k s = .ok () t) ↔ ∀ i, a ≤ i → i < a + k → good i := by
  induction k generalizing a s with
  | zero => exact ⟨fun _ i ha hi => absurd hi (Nat.not_lt.mpr ha), fun _ => ⟨s, rfl⟩⟩
  | succ k ih =>
    have hlt : a < a + (k + 1) := Nat.lt_add_of_pos_right (Nat.succ_pos k)
    have hshift : ∀ i, i < a + 1 + k → i < a + (k + 1) := fun i hi => by omega
    by_cases hfirst : good a
    · obtain ⟨u, hu, hI⟩ := hgood a s (Nat.le_refl a) hlt h0 hfirst
      have hrest := ih hI (fun i u ha hi => hgood i u (Nat.le_of_succ_le ha) (hshift i hi))
        (fun i u u' ha hi => hbad i u u' (Nat.le_of_succ_le ha) (hshift i hi))
      have hunfold : counted body a (k + 1) s = counted body (a + 1) k u := bind_ok hu
      rw [hunfold, hrest]
      constructor
      · intro h i ha hi
        rcases Nat.eq_or_lt_of_le ha with rfl | hlt
        · exact hfirst
        · exact h i hlt (by omega)
      · exact fun h i ha hi => h i (Nat.le_of_succ_le ha) (hshift i hi)
    · constructor
      · rintro ⟨t, ht⟩
        obtain ⟨_, u, hu, -⟩ := ok_of_bind ht
        exact absurd hu (hbad a s u (Nat.le_refl a) hlt h0 hfirst)
      · exact fun h => absurd (h a (Nat.le_refl a) hlt) hfirst

theorem counted_keeps (h0 : I a s) (ht : counted body a k s = .ok () t)
    (hstep : ∀ i u u', a ≤ i → i < a + k → I i u → body i u = .ok () u' → I (i + 1) u') :
    I (a + k) t := by
  induction k generalizing a s with
  | zero =>
    cases ht
    exact h0
  | succ k ih =>
    obtain ⟨_, u, hu, hrest⟩ := ok_of_bind ht
    have hI := hstep a s u (Nat.le_refl a) (Nat.lt_add_of_pos_right (Nat.succ_pos k)) h0 hu
    have hend := ih hI hrest fun i u u' ha hi => hstep i u u' (Nat.le_of_succ_le ha) (by omega)
    rw [Nat.succ_add_eq_add_succ] at hend
    exact hend

end

section Folded

variable {α : Type} {step : Nat → α → EStateM ε σ α} {x y : α} {I : Nat → α → σ → Prop} {good : Nat → Prop}

/-- The same loop, with a value that each round passes on to the next. -/
def folded (step : Nat → α → EStateM ε σ α) : Nat → Nat → α → EStateM ε σ α
  | _, 0, x => pure x
  | a, k + 1, x => do
    let y ← step a x
    folded step (a + 1) k y

theorem folded_runs (h0 : I a x s)
    (hstep : ∀ i x u, a ≤ i → i < a + k → I i x u → ∃ y u', step i x u = .ok y u' ∧ I (i + 1) y u') :
    ∃ y t, folded step a k x s = .ok y t ∧ I (a + k) y t := by
  induction k generalizing a x s with
  | zero => exact ⟨x, s, rfl, h0⟩
  | succ k ih =>
    obtain ⟨y, u, hu, hI⟩ := hstep a x s (Nat.le_refl a) (Nat.lt_add_of_pos_right (Nat.succ_pos k)) h0
    obtain ⟨z, t, ht, hend⟩ := ih hI fun i x u ha hi => hstep i x u (Nat.le_of_succ_le ha) (by omega)
    rw [Nat.succ_add_eq_add_succ] at hend
    exact ⟨z, t, (bind_ok hu).trans ht, hend⟩

theorem folded_good (h0 : I a x s) (ht : folded step a k x s = .ok y t)
    (hgood : ∀ i x u y u', a ≤ i → i < a + k → I i x u → step i x u = .ok y u' → good i ∧ I (i + 1) y u') :
    ∀ i, a ≤ i → i < a + k → good i := by
  induction k generalizing a x s with
  | zero => exact fun i ha hi => absurd hi (Nat.not_lt.mpr ha)
  | succ k ih =>
    obtain ⟨z, u, hu, hrest⟩ := ok_of_bind ht
    obtain ⟨hfirst, hI⟩ :=
      hgood a x s z u (Nat.le_refl a) (Nat.lt_add_of_pos_right (Nat.succ_pos k)) h0 hu
    have hlater := ih hI hrest fun i x u y u' ha hi => hgood i x u y u' (Nat.le_of_succ_le ha) (by omega)
    intro i ha hi
    rcases Nat.eq_or_lt_of_le ha with rfl | hlt
    · exact hfirst
    · exact hlater i hlt (by omega)

/-- A loop whose rounds end exactly if they are good. -/
theorem folded_ok_iff (h0 : I a x s)
    (hstep : ∀ i x u, a ≤ i → i < a + k → I i x u → good i → ∃ y u', step i x u = .ok y u' ∧ I (i + 1) y u')
    (hback : ∀ i x u y u', a ≤ i → i < a + k → I i x u → step i x u = .ok y u' → good i) :
    ((∃ y t, folded step a k x s = .ok y t) ↔ ∀ i, a ≤ i → i < a + k → good i) ∧
      ∀ y t, folded step a k x s = .ok y t → I (a + k) y t := by
  have hall : ∀ y t, folded step a k x s = .ok y t → ∀ i, a ≤ i → i < a + k → good i := by
    intro y t ht
    refine folded_good h0 ht ?_
    intro i x u y u' h1 h2 hI hround
    have hi := hback i x u y u' h1 h2 hI hround
    obtain ⟨z, w, hrun, hnext⟩ := hstep i x u h1 h2 hI hi
    cases hround.symm.trans hrun
    exact ⟨hi, hnext⟩
  have hends : (∀ i, a ≤ i → i < a + k → good i) → ∃ y t, folded step a k x s = .ok y t ∧ I (a + k) y t :=
    fun h => folded_runs h0 fun i x u h1 h2 hI => hstep i x u h1 h2 hI (h i h1 h2)
  constructor
  · constructor
    · rintro ⟨y, t, ht⟩
      exact hall y t ht
    · intro h
      obtain ⟨y, t, ht, -⟩ := hends h
      exact ⟨y, t, ht⟩
  · intro y t ht
    obtain ⟨z, w, hrun, hI⟩ := hends (hall y t ht)
    cases ht.symm.trans hrun
    exact hI

end Folded

end Effect
