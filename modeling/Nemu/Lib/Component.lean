import Nemu.Lib.Effect
import Nemu.Lib.Run
import Mathlib.Data.Set.Function

set_option autoImplicit true

/-- A computation that reads and writes a shared heap within `R` alone: it takes place also with other contents
elsewhere, and leaves these in place. -/
def ConfinedTo {ε κ β σ α : Type} (R : Set κ) (m : EStateM ε ((κ → β) × σ) α) : Prop :=
  ∀ h s a h' s', m (h, s) = .ok a (h', s') → ∀ k, Set.EqOn h k R →
    ∃ k', m (k, s) = .ok a (k', s') ∧ Set.EqOn h' k' R ∧ Set.EqOn k k' (Set.compl R)

namespace ConfinedTo

variable {ε κ β σ α γ : Type} {R S : Set κ} {m : EStateM ε ((κ → β) × σ) α} {f : α → EStateM ε ((κ → β) × σ) γ}

theorem pure (a : α) : ConfinedTo R (pure a : EStateM ε ((κ → β) × σ) α) := by
  intro h s a h' s' hm k hk
  cases hm
  exact ⟨k, rfl, hk, fun _ _ => rfl⟩

theorem throw (e : ε) : ConfinedTo R (throw e : EStateM ε ((κ → β) × σ) α) := by
  intro h s a h' s' hm
  cases hm

theorem bind (hm : ConfinedTo R m) (hf : ∀ a, ConfinedTo R (f a)) : ConfinedTo R (m >>= f) := by
  intro h s c h' s' hrun k hk
  obtain ⟨a, ⟨h1, s1⟩, hm1, hf1⟩ := Effect.ok_of_bind hrun
  obtain ⟨k1, hkm, hk1, hoff1⟩ := hm _ _ _ _ _ hm1 k hk
  obtain ⟨k2, hkf, hk2, hoff2⟩ := hf a _ _ _ _ _ hf1 k1 hk1
  exact ⟨k2, (Effect.bind_ok hkm).trans hkf, hk2, fun x hx => (hoff1 hx).trans (hoff2 hx)⟩

theorem ite {p : Prop} [Decidable p] {n : EStateM ε ((κ → β) × σ) α} (hm : p → ConfinedTo R m)
    (hn : ¬ p → ConfinedTo R n) :
    ConfinedTo R (if p then m else n) := by
  split
  · exact hm ‹_›
  · exact hn ‹_›

theorem load {f : (κ → β) → α} (hf : ∀ h k, Set.EqOn h k R → f h = f k) :
    ConfinedTo R (do let x ← get; Pure.pure (f x.1) : EStateM ε ((κ → β) × σ) α) := by
  intro h s a h' s' hrun k hk
  cases hrun
  exact ⟨k, congrArg (fun a => EStateM.Result.ok a (k, s)) (hf h k hk).symm, hk, fun _ _ => rfl⟩

theorem store {f : (κ → β) → κ → β} (hin : ∀ h k, Set.EqOn h k R → Set.EqOn (f h) (f k) R)
    (hout : ∀ h, Set.EqOn h (f h) (Set.compl R)) :
    ConfinedTo R (modify fun x => (f x.1, x.2) : EStateM ε ((κ → β) × σ) PUnit) := by
  intro h s a h' s' hrun k hk
  cases hrun
  exact ⟨f k, rfl, hin h k hk, hout k⟩

theorem beside (f : σ → Except ε (α × σ)) :
    ConfinedTo R (fun x => match f x.2 with
      | .ok r => .ok r.1 (x.1, r.2)
      | .error e => .error e x : EStateM ε ((κ → β) × σ) α) := by
  intro h s a h' s' hrun k hk
  dsimp only at hrun ⊢
  cases hf : f s with
  | error e =>
    rw [hf] at hrun
    cases hrun
  | ok r =>
    rw [hf] at hrun
    cases hrun
    exact ⟨k, rfl, hk, fun _ _ => rfl⟩

theorem mono (hRS : R ⊆ S) (hm : ConfinedTo R m) : ConfinedTo S m := by
  intro h s a h' s' hrun k hk
  obtain ⟨k', hk', hin, hout⟩ := hm _ _ _ _ _ hrun k (hk.mono hRS)
  obtain ⟨h2, hh2, _, hhout⟩ := hm _ _ _ _ _ hrun h fun _ _ => rfl
  cases hrun.symm.trans hh2
  refine ⟨k', hk', fun x hx => ?_, fun x hx => hout fun hR => hx (hRS hR)⟩
  by_cases hR : x ∈ R
  · exact hin hR
  · exact (hhout hR).symm.trans ((hk hx).trans (hout hR))

theorem outside (hm : ConfinedTo R m) (hrun : m (h, s) = .ok a (h', s')) (hx : x ∉ R) : h' x = h x := by
  obtain ⟨k', hk', _, hout⟩ := hm _ _ _ _ _ hrun h fun _ _ => rfl
  cases hrun.symm.trans hk'
  exact (hout hx).symm

end ConfinedTo

namespace Run

variable {σ ε ι : Type} {step : σ → ε → σ → Prop} {owner : ε → ι} {good : ε → Prop}

/-- Where a step does to its owner what it does in each state that is alike for the owner, and is not noticed by
others, each owner goes through a run of all as through a run of its own steps. -/
theorem alone [DecidableEq ι] (Alike : ι → σ → σ → Prop)
    (hown : ∀ a e b a', good e → step a e b → Alike (owner e) a a' → ∃ b', step a' e b' ∧ Alike (owner e) b b')
    (hother : ∀ a e b i a', good e → step a e b → i ≠ owner e → Alike i a a' → Alike i b a')
    (h : Run step a tr c) (hgood : ∀ x ∈ tr, good x.label) (i : ι) (ha : Alike i a a') :
    ∃ tr' c', Run step a' tr' c' ∧ tr'.map Transition.label = (tr.map Transition.label).filter (fun e => owner e = i) ∧
      Alike i c c' := by
  induction h generalizing a' with
  | nil => exact ⟨[], a', .nil, rfl, ha⟩
  | @cons a e b tr c hs _ ih =>
    have he : good e := hgood _ List.mem_cons_self
    have hrest : ∀ x ∈ tr, good x.label := fun x hx => hgood x (List.mem_cons_of_mem _ hx)
    by_cases hi : owner e = i
    · subst hi
      obtain ⟨b', hs', hb⟩ := hown a e b a' he hs ha
      obtain ⟨tr', c', hr, hl, hc⟩ := ih hrest hb
      refine ⟨⟨a', e, b'⟩ :: tr', c', .cons hs' hr, ?_, hc⟩
      rw [List.map_cons, List.map_cons, List.filter_cons_of_pos (by simp), hl]
    · obtain ⟨tr', c', hr, hl, hc⟩ := ih hrest (hother a e b i a' he hs (Ne.symm hi) ha)
      refine ⟨tr', c', hr, ?_, hc⟩
      rw [List.map_cons, List.filter_cons_of_neg (by simpa using hi), hl]

theorem eq_of_nil (h : Run step a [] c) : c = a := by
  cases h
  rfl

/-- The other way round: runs of the owners can be interleaved in any order. -/
theorem interleave [DecidableEq ι] (Alike : ι → σ → σ → Prop) (hsymm : ∀ i a b, Alike i a b → Alike i b a)
    (hown : ∀ a e b a', good e → step a e b → Alike (owner e) a a' → ∃ b', step a' e b' ∧ Alike (owner e) b b')
    (hother : ∀ a e b i a', good e → step a e b → i ≠ owner e → Alike i a a' → Alike i b a')
    (es : List ε) (hgood : ∀ e ∈ es, good e) {s c : ι → σ} {t : ι → List (Transition σ ε)}
    (hruns : ∀ i, Run step (s i) (t i) (c i)) (hlabels : ∀ i, (t i).map Transition.label = es.filter fun e => owner e = i)
    (ha : ∀ i, Alike i (s i) a) :
    ∃ tr d, Run step a tr d ∧ tr.map Transition.label = es ∧ ∀ i, Alike i (c i) d := by
  induction es generalizing a s t with
  | nil =>
    refine ⟨[], a, .nil, rfl, fun i => ?_⟩
    have hnil := List.map_eq_nil_iff.mp (hlabels i)
    have hrun := hruns i
    rw [hnil] at hrun
    rw [hrun.eq_of_nil]
    exact ha i
  | cons e es ih =>
    have hfirst := hlabels (owner e)
    rw [List.filter_cons_of_pos (by simp)] at hfirst
    obtain ⟨x, tr, htr, rfl, hrest⟩ := List.map_eq_cons_iff.mp hfirst
    have hrun := hruns (owner x.label)
    rw [htr] at hrun
    obtain ⟨hsource, hstep, hrun⟩ := hrun.uncons
    rw [hsource] at hstep
    obtain ⟨b, hb, halike⟩ := hown _ _ _ _ (hgood _ List.mem_cons_self) hstep (ha _)
    have hruns' : ∀ i, Run step (Function.update s (owner x.label) x.target i)
        (Function.update t (owner x.label) tr i) (c i) := by
      intro i
      by_cases hi : i = owner x.label
      · subst hi
        rwa [Function.update_self, Function.update_self]
      · rw [Function.update_of_ne hi, Function.update_of_ne hi]
        exact hruns i
    have hlabels' : ∀ i, (Function.update t (owner x.label) tr i).map Transition.label =
        es.filter fun e => owner e = i := by
      intro i
      by_cases hi : i = owner x.label
      · subst hi
        rw [Function.update_self, hrest]
      · rw [Function.update_of_ne hi, hlabels i, List.filter_cons_of_neg (by simpa using Ne.symm hi)]
    have ha' : ∀ i, Alike i (Function.update s (owner x.label) x.target i) b := by
      intro i
      by_cases hi : i = owner x.label
      · subst hi
        rwa [Function.update_self]
      · rw [Function.update_of_ne hi]
        exact hsymm _ _ _ (hother _ _ _ _ _ (hgood _ List.mem_cons_self) hb hi (hsymm _ _ _ (ha i)))
    obtain ⟨tr', d, hr, hl, hd⟩ := ih (fun e he => hgood e (List.mem_cons_of_mem _ he)) hruns' hlabels' ha'
    exact ⟨⟨a, x.label, b⟩ :: tr', d, .cons hb hr, congrArg _ hl, hd⟩

end Run
