import Nemu.Lib.Effect

namespace Effect

set_option autoImplicit true

variable {ε σ α β : Type} {R : σ → σ → Prop}

/-- The same value or the same error, in states that `R` relates. -/
inductive Match (R : σ → σ → Prop) : EStateM.Result ε σ α → EStateM.Result ε σ α → Prop where
  | ok (a : α) : R s t → Match R (.ok a s) (.ok a t)
  | error (e : ε) : R s t → Match R (.error e s) (.error e t)

/-- Two computations that end alike whenever they start in related states. -/
def Alike (R : σ → σ → Prop) (m n : EStateM ε σ α) : Prop := ∀ s t, R s t → Match R (m s) (n t)

section Results

variable {a : α} {e : ε} {m n : EStateM ε σ α} {s t u : σ}

theorem Match.of_ok {r : EStateM.Result ε σ α} (h : Match R (.ok a u) r) :
    ∃ t, r = .ok a t ∧ R u t := by
  cases h with
  | ok _ h => exact ⟨_, rfl, h⟩

theorem Match.of_error {r : EStateM.Result ε σ α} (h : Match R (.error e u) r) :
    ∃ t, r = .error e t ∧ R u t := by
  cases h with
  | error _ h => exact ⟨_, rfl, h⟩

theorem Match.mono {r r' : EStateM.Result ε σ α} (h : Match R r r') (hR : ∀ s t, R s t → R' s t) :
    Match R' r r' := by
  cases h with
  | ok a h => exact .ok a (hR _ _ h)
  | error e h => exact .error e (hR _ _ h)

theorem Alike.ok (h : Alike R m n) (hst : R s t) (hm : m s = .ok a u) :
    ∃ v, n t = .ok a v ∧ R u v := by
  have h1 := h s t hst
  rw [hm] at h1
  exact h1.of_ok

theorem Alike.error (h : Alike R m n) (hst : R s t) (hm : m s = .error e u) :
    ∃ v, n t = .error e v ∧ R u v := by
  have h1 := h s t hst
  rw [hm] at h1
  exact h1.of_error

end Results

theorem Alike.ret (a : α) : Alike R (pure a : EStateM ε σ α) (pure a) := fun _ _ h => .ok a h

theorem Alike.raise (e : ε) : Alike R (throw e : EStateM ε σ α) (throw e) := fun _ _ h => .error e h

theorem Alike.update {f g : σ → σ} (h : ∀ s t, R s t → R (f s) (g t)) :
    Alike R (modify f : EStateM ε σ PUnit) (modify g) := by
  intro s t hst
  have h1 : Match R (.ok PUnit.unit (f s) : EStateM.Result ε σ PUnit) (.ok PUnit.unit (g t)) :=
    .ok _ (h s t hst)
  exact h1

theorem Alike.bind {m n : EStateM ε σ α} {k l : α → EStateM ε σ β} (hm : Alike R m n)
    (hk : ∀ a, Alike R (k a) (l a)) : Alike R (m >>= k) (n >>= l) := by
  intro s t hst
  cases h : m s with
  | ok a u =>
    obtain ⟨v, hn, huv⟩ := hm.ok hst h
    rw [bind_ok h, bind_ok hn]
    exact hk a u v huv
  | error e u =>
    obtain ⟨v, hn, huv⟩ := hm.error hst h
    rw [bind_error h, bind_error hn]
    exact .error e huv

theorem Alike.bind_of {m n : EStateM ε σ α} {k l : α → EStateM ε σ β} {Q : α → Prop} (hm : Alike R m n)
    (hq : ∀ s t a u, R s t → m s = .ok a u → Q a) (hk : ∀ a, Q a → Alike R (k a) (l a)) :
    Alike R (m >>= k) (n >>= l) := by
  intro s t hst
  cases h : m s with
  | ok a u =>
    obtain ⟨v, hn, huv⟩ := hm.ok hst h
    rw [bind_ok h, bind_ok hn]
    exact hk a (hq s t a u hst h) u v huv
  | error e u =>
    obtain ⟨v, hn, huv⟩ := hm.error hst h
    rw [bind_error h, bind_error hn]
    exact .error e huv

theorem Alike.bind_get {k l : σ → EStateM ε σ β} (h : ∀ s t, R s t → Alike R (k s) (l t)) :
    Alike R (get >>= k) (get >>= l) :=
  fun s t hst => h s t hst s t hst

end Effect
