import Mathlib.Data.List.Basic

set_option autoImplicit true

/-- One transition of a labelled system. -/
structure Transition (σ ε : Type) where
  source : σ
  label : ε
  target : σ

/-- The runs of a labelled system, with the transitions they make. -/
inductive Run {σ ε : Type} (step : σ → ε → σ → Prop) : σ → List (Transition σ ε) → σ → Prop where
  | nil : Run step a [] a
  | cons : step a e b → Run step b tr c → Run step a (⟨a, e, b⟩ :: tr) c

namespace Run

variable {σ ε : Type} {step : σ → ε → σ → Prop} {a c : σ} {x : Transition σ ε}
  {tr : List (Transition σ ε)}

theorem uncons (h : Run step a (x :: tr) c) :
    x.source = a ∧ step x.source x.label x.target ∧ Run step x.target tr c := by
  cases h with
  | cons hs hr => exact ⟨rfl, hs, hr⟩

theorem append_inv (h : Run step a (tr₁ ++ tr₂) c) : ∃ b, Run step a tr₁ b ∧ Run step b tr₂ c := by
  induction tr₁ generalizing a with
  | nil => exact ⟨a, .nil, h⟩
  | cons x tr₁ ih =>
    obtain ⟨rfl, hs, hr⟩ := h.uncons
    obtain ⟨b, h1, h2⟩ := ih hr
    exact ⟨b, .cons hs h1, h2⟩

theorem append (h : Run step a tr₁ b) (h' : Run step b tr₂ c) : Run step a (tr₁ ++ tr₂) c := by
  induction h with
  | nil => exact h'
  | cons hs _ ih => exact .cons hs (ih h')

theorem split (h : Run step a (tr₁ ++ x :: tr₂) c) :
    Run step a tr₁ x.source ∧ step x.source x.label x.target ∧ Run step x.target tr₂ c := by
  obtain ⟨b, h1, h2⟩ := h.append_inv
  obtain ⟨rfl, hs, hr⟩ := h2.uncons
  exact ⟨h1, hs, hr⟩

theorem history_from {I : List (Transition σ ε) → σ → Prop} {good : Transition σ ε → Prop}
    (h : Run step a tr c) (hgood : ∀ x ∈ tr, good x)
    (hstep : ∀ tr x, good x → step x.source x.label x.target → I tr x.source →
      I (tr ++ [x]) x.target) : ∀ pre, I pre a → I (pre ++ tr) c := by
  induction h with
  | nil =>
    intro pre hpre
    rw [List.append_nil]
    exact hpre
  | @cons a e b tr c hs _ ih =>
    intro pre hpre
    have h1 := hstep pre ⟨a, e, b⟩ (hgood _ List.mem_cons_self) hs hpre
    have h2 := ih (fun x hx => hgood x (List.mem_cons_of_mem _ hx)) _ h1
    rw [List.append_assoc] at h2
    exact h2

/-- What holds at the start, and is kept by every good transition, holds at the end of a run of
good ones. `I` may speak of the transitions made so far. -/
theorem history {I : List (Transition σ ε) → σ → Prop} {good : Transition σ ε → Prop}
    (h : Run step a tr c) (hgood : ∀ x ∈ tr, good x) (h0 : I [] a)
    (hstep : ∀ tr x, good x → step x.source x.label x.target → I tr x.source →
      I (tr ++ [x]) x.target) : I tr c :=
  h.history_from hgood hstep [] h0

theorem step_of_mem (h : Run step a tr c) (hx : x ∈ tr) : step x.source x.label x.target := by
  induction h with
  | nil => cases hx
  | cons hs _ ih =>
    cases hx with
    | head => exact hs
    | tail _ hx => exact ih hx

theorem invariant_mem {I : σ → Prop} {good : Transition σ ε → Prop} (h : Run step a tr c)
    (hgood : ∀ x ∈ tr, good x) (h0 : I a)
    (hstep : ∀ x, good x → step x.source x.label x.target → I x.source → I x.target) :
    ∀ x ∈ tr, I x.source ∧ I x.target := by
  induction h with
  | nil =>
    intro x hx
    cases hx
  | @cons a e b tr c hs _ ih =>
    intro x hx
    have hb : I b := hstep ⟨a, e, b⟩ (hgood _ List.mem_cons_self) hs h0
    cases hx with
    | head => exact ⟨h0, hb⟩
    | tail _ hx => exact ih (fun y hy => hgood y (List.mem_cons_of_mem _ hy)) hb x hx

theorem invariant {I : σ → Prop} {good : Transition σ ε → Prop} (h : Run step a tr c)
    (hgood : ∀ x ∈ tr, good x) (h0 : I a)
    (hstep : ∀ x, good x → step x.source x.label x.target → I x.source → I x.target) : I c :=
  h.history (I := fun _ => I) hgood h0 fun _ => hstep

/-- The transitions `x` and `y` have one label, and `R` relates their ends. -/
structure Twin {τ : Type} (R : σ → τ → Prop) (x : Transition σ ε) (y : Transition τ ε) : Prop where
  source : R x.source y.source
  label : y.label = x.label
  target : R x.target y.target

/-- A run whose transitions a second system can follow has a twin there. -/
theorem simulate {τ : Type} {step' : τ → ε → τ → Prop} {R : σ → τ → Prop} {a' : τ}
    (h : Run step a tr c) (hR : R a a')
    (hstep : ∀ x ∈ tr, step x.source x.label x.target → ∀ s', R x.source s' →
      ∃ t', step' s' x.label t' ∧ R x.target t') :
    ∃ tr' c', Run step' a' tr' c' ∧ R c c' ∧ List.Forall₂ (Twin R) tr tr' := by
  induction h generalizing a' with
  | nil => exact ⟨[], a', .nil, hR, .nil⟩
  | @cons a e b tr c hs _ ih =>
    obtain ⟨b', hs', hb⟩ := hstep ⟨a, e, b⟩ List.mem_cons_self hs a' hR
    obtain ⟨tr', c', hr, hc, htwin⟩ := ih hb fun x hx => hstep x (List.mem_cons_of_mem _ hx)
    exact ⟨⟨a', e, b'⟩ :: tr', c', .cons hs' hr, hc, .cons ⟨hR, rfl, hb⟩ htwin⟩

end Run
