import Mathlib.Logic.Relation

/-- What a computation over `σ` may do: how a normal end relates to the start, and which errors
may be thrown in which state. The laws are what sequencing needs. -/
structure Effect (ε σ : Type) where
  ok : σ → σ → Prop
  err : σ → ε → σ → Prop
  refl : ∀ s, ok s s
  trans : ∀ {s t u}, ok s t → ok t u → ok s u
  absorb : ∀ {s t e u}, ok s t → err t e u → err s e u

namespace Effect

variable {ε σ τ α β : Type} {F G : Effect ε σ} {s t u : σ} {e : ε} {a : α} {m n : EStateM ε σ α}

section Run

variable {k : α → EStateM ε σ β} {b : β}

theorem bind_ok (h : m s = .ok a t) : (m >>= k) s = k a t := by
  change EStateM.bind m k s = _
  simp only [EStateM.bind, h]

theorem bind_error (h : m s = .error e t) : (m >>= k) s = .error e t := by
  change EStateM.bind m k s = _
  simp only [EStateM.bind, h]

theorem get_bind (k : σ → EStateM ε σ β) (s : σ) : (get >>= k) s = k s s := rfl

theorem ok_of_bind (h : (m >>= k) s = .ok b u) : ∃ a t, m s = .ok a t ∧ k a t = .ok b u := by
  cases hm : m s with
  | ok a t => exact ⟨a, t, rfl, (bind_ok hm).symm.trans h⟩
  | error e t => cases (bind_error hm).symm.trans h

theorem error_of_bind (h : (m >>= k) s = .error e u) :
    m s = .error e u ∨ ∃ a t, m s = .ok a t ∧ k a t = .error e u := by
  cases hm : m s with
  | ok a t => exact .inr ⟨a, t, rfl, (bind_ok hm).symm.trans h⟩
  | error e' t =>
    cases (bind_error hm).symm.trans h
    exact .inl rfl

end Run

/-- The state that a computation ends in, with a value or with an error. -/
def final (m : EStateM ε σ α) (s : σ) : σ :=
  match m s with
  | .ok _ t => t
  | .error _ t => t

theorem final_ok (h : m s = .ok a t) : final m s = t := by
  simp only [final, h]

theorem final_error (h : m s = .error e t) : final m s = t := by
  simp only [final, h]

/-- `m` started in `s` stays within the effect `F`. -/
def At (F : Effect ε σ) (s : σ) (m : EStateM ε σ α) : Prop :=
  match m s with
  | .ok _ t => F.ok s t
  | .error e t => F.err s e t

def Within (F : Effect ε σ) (m : EStateM ε σ α) : Prop := ∀ s, F.At s m

/-- A normal end keeps `view`, and what an error may leave depends on the `view` of the start. -/
def through (view : σ → τ) (err : τ → ε → σ → Prop) : Effect ε σ where
  ok s t := view t = view s
  err s := err (view s)
  refl _ := rfl
  trans h k := k.trans h
  absorb h k := h ▸ k

/-- Nothing that `f` observes changes, whether the computation ends or throws. -/
def keep (ε : Type) (f : σ → τ) : Effect ε σ := through f fun v _ t => f t = v

/-- `I` is kept by a normal end, and leads to `J` when an error is thrown. -/
def inv (I : σ → Prop) (J : ε → σ → Prop) : Effect ε σ where
  ok s t := I s → I t
  err s e t := I s → J e t
  refl _ := id
  trans h k hs := k (h hs)
  absorb h k hs := k (h hs)

/-- Any number of changes, whether the computation ends or throws. -/
def closure (ε : Type) (change : σ → σ → Prop) : Effect ε σ where
  ok := Relation.ReflTransGen change
  err s _ t := Relation.ReflTransGen change s t
  refl _ := .refl
  trans := Relation.ReflTransGen.trans
  absorb := Relation.ReflTransGen.trans

theorem At.ok (h : F.At s m) (hm : m s = .ok a t) : F.ok s t := by
  simpa only [At, hm] using h

theorem At.error (h : F.At s m) (hm : m s = .error e t) : F.err s e t := by
  simpa only [At, hm] using h

theorem At.mono (h : F.At s m) (hok : ∀ t, F.ok s t → G.ok s t)
    (herr : ∀ e t, F.err s e t → G.err s e t) : G.At s m := by
  unfold At at h ⊢
  cases hm : m s with
  | ok a t =>
    rw [hm] at h
    exact hok t h
  | error e t =>
    rw [hm] at h
    exact herr e t h

theorem At.congr (h : m s = n s) (hn : F.At s n) : F.At s m := by
  simpa only [At, h] using hn

theorem Within.ok (h : F.Within m) (hm : m s = .ok a t) : F.ok s t :=
  (h s).ok hm

theorem Within.error (h : F.Within m) (hm : m s = .error e t) : F.err s e t :=
  (h s).error hm

theorem Within.ret (F : Effect ε σ) (a : α) : F.Within (pure a : EStateM ε σ α) :=
  F.refl

theorem At.raise (h : F.err s e s) : F.At s (throw e : EStateM ε σ α) := h

theorem Within.raise (h : ∀ s, F.err s e s) : F.Within (throw e : EStateM ε σ α) := h

theorem Within.read (F : Effect ε σ) : F.Within (get : EStateM ε σ σ) := F.refl

theorem Within.update {f : σ → σ} (h : ∀ s, F.ok s (f s)) :
    F.Within (modify f : EStateM ε σ PUnit) := h

theorem At.update {f : σ → σ} (h : F.ok s (f s)) : F.At s (modify f : EStateM ε σ PUnit) := h

theorem At.bind {k : α → EStateM ε σ β} (hm : F.At s m)
    (hk : ∀ a t, m s = .ok a t → F.At t (k a)) : F.At s (m >>= k) := by
  cases h : m s with
  | error e t =>
    have hst := hm.error h
    simpa only [At, bind_error h] using hst
  | ok a t =>
    have hst := hm.ok h
    have hta := hk a t h
    simp only [At, bind_ok h] at hta ⊢
    cases h' : k a t with
    | ok b u =>
      rw [h'] at hta
      exact F.trans hst hta
    | error e u =>
      rw [h'] at hta
      exact F.absorb hst hta

theorem Within.bind {k : α → EStateM ε σ β} (hm : F.Within m) (hk : ∀ a, F.Within (k a)) :
    F.Within (m >>= k) :=
  fun s => (hm s).bind fun a t _ => hk a t

theorem Within.ite {p : Prop} [Decidable p] (hm : p → F.Within m) (hn : ¬ p → F.Within n) :
    F.Within (if p then m else n) := by
  split
  · next hp => exact hm hp
  · next hp => exact hn hp

theorem At.bind_get {k : σ → EStateM ε σ β} (hk : F.At s (k s)) : F.At s (get >>= k) := hk

theorem Within.bind_get {k : σ → EStateM ε σ β} (hk : ∀ s, F.At s (k s)) :
    F.Within (get >>= k) :=
  fun s => hk s

theorem At.of_ok (hm : m s = .ok a t) (h : F.ok s t) : F.At s m := by
  simpa only [At, hm] using h

theorem At.of_error (hm : m s = .error e t) (h : F.err s e t) : F.At s m := by
  simpa only [At, hm] using h

theorem At.assume {I : σ → Prop} {J : ε → σ → Prop} (h : I s → (inv I J).At s m) :
    (inv I J).At s m := by
  unfold At
  cases hm : m s with
  | ok a t => exact fun hs => (h hs).ok hm hs
  | error e t => exact fun hs => (h hs).error hm hs

theorem keep_iff {f : σ → τ} : (keep ε f).At s m ↔ f (final m s) = f s := by
  unfold At final
  cases m s <;> rfl

section Closure

variable {change : σ → σ → Prop}

theorem Within.one {f : σ → σ} (h : ∀ s, change s (f s)) :
    (closure ε change).Within (modify f : EStateM ε σ PUnit) :=
  .update fun s => .single (h s)

theorem At.one {f : σ → σ} (h : change s (f s)) :
    (closure ε change).At s (modify f : EStateM ε σ PUnit) :=
  At.update (.single h)

theorem At.after (hc : change s t) (hm : m s = n t) (hn : (closure ε change).At t n) :
    (closure ε change).At s m := by
  unfold At at hn ⊢
  rw [hm]
  cases hr : n t with
  | ok a u =>
    rw [hr] at hn
    exact .head hc hn
  | error e u =>
    rw [hr] at hn
    exact .head hc hn

theorem At.final_reached (h : (closure ε change).At s m) :
    Relation.ReflTransGen change s (final m s) := by
  unfold At at h
  unfold final
  cases hm : m s with
  | ok a t =>
    rw [hm] at h
    exact h
  | error e t =>
    rw [hm] at h
    exact h

theorem reached_keeps {I : σ → Prop} (h : Relation.ReflTransGen change s t)
    (hI : ∀ s t, change s t → I s → I t) (hs : I s) : I t := by
  induction h with
  | refl => exact hs
  | tail _ hc ih => exact hI _ _ hc ih

end Closure

theorem Within.final_eq {f : σ → τ} (h : (keep ε f).Within m) (s : σ) : f (final m s) = f s :=
  keep_iff.mp (h s)

end Effect

namespace Except

variable {ε α β : Type} {x : Except ε α} {k : α → Except ε β} {b : β} {e : ε}

theorem bind_eq_ok : (x >>= k) = .ok b ↔ ∃ a, x = .ok a ∧ k a = .ok b := by
  cases x with
  | error e => exact ⟨fun h => (by cases h), fun ⟨_, h, _⟩ => by cases h⟩
  | ok a => exact ⟨fun h => ⟨a, rfl, h⟩, fun ⟨_, h, hk⟩ => by cases h; exact hk⟩

end Except
