import Nemu.Lib.Run
import Nemu.Loop
import Nemu.Reset

namespace Nemu

set_option autoImplicit true

def batchSize : Nat := 65536

/-- `cpu_exec` of the stand-alone build without the trace cache, with its counters. `n` is what is
left of the batch inside `execute`. -/
structure Budget where
  phase : Phase
  m : Machine
  nRemainTotal : Nat
  nBatch : Nat
  n : Nat

namespace Budget

/-- `cpu_exec(n)` at the head of its loop. -/
def start (n : Nat) (m : Machine) : Budget := ⟨.top, m, n, 0, 0⟩

def enter (c : Budget) (m : Machine) : Budget :=
  let nBatch := if batchSize ≤ c.nRemainTotal then batchSize else c.nRemainTotal
  ⟨.run, m, c.nRemainTotal, nBatch, nBatch⟩

def Returned (c : Budget) : Prop := c.phase = .top ∧ c.nRemainTotal = 0

end Budget

/-- The steps of `cpu_exec`. An exception leaves `execute` by `longjmp`, past the subtraction. -/
inductive BudgetStep (P : Platform) : Budget → Event → Budget → Prop where
  | instr : c.phase = .run → 0 < c.n → executeStep P c.m = .ok d t →
      BudgetStep P c (.instr d) { c with m := t, n := c.n - 1 }
  | fault : c.phase = .run → 0 < c.n → executeStep P c.m = .error (.exception f) t →
      BudgetStep P c (.fault f) { c with phase := .exn f, m := t }
  | batchEnd : c.phase = .run → c.n = 0 →
      BudgetStep P c .quiet { c with phase := .top, nRemainTotal := c.nRemainTotal - c.nBatch }
  | trap : c.phase = .exn f → 0 < c.nRemainTotal → handleException P f c.m = .ok () t →
      BudgetStep P c (.trap f) (c.enter t)
  | intr : c.phase = .top → 0 < c.nRemainTotal → isaQueryIntr P c.m = no → no ≠ intrEmpty →
      takeIntr P no c.m = .ok () t → BudgetStep P c (.intr no) (c.enter t)
  | noIntr : c.phase = .top → 0 < c.nRemainTotal → isaQueryIntr P c.m = intrEmpty →
      BudgetStep P c .quiet (c.enter c.m)

/-- A step of `cpu_exec`, or the alarm of the timer between two of them. -/
inductive TimedStep (P : Platform) : Budget → Option Event → Budget → Prop where
  | act : BudgetStep P c e c' → TimedStep P c (some e) c'
  | alarm : TimedStep P c none { c with m := setMtip (some b) c.m }

theorem BudgetStep.cpu (hp : P.share = false) (h : BudgetStep P c e c') :
    CpuStep P ⟨c.phase, c.m⟩ e ⟨c'.phase, c'.m⟩ := by
  cases h with
  | instr hc _ h =>
    rw [hc]
    exact .instr h
  | fault hc _ h =>
    rw [hc]
    exact .fault h
  | batchEnd hc _ =>
    rw [hc]
    exact .batchEnd
  | trap hc _ h =>
    have h1 := CpuStep.trap h
    rw [hp] at h1
    rw [hc]
    exact h1
  | intr hc _ hq hne h =>
    rw [hc]
    exact .intr hp hq hne h
  | noIntr hc _ hq =>
    rw [hc]
    exact .noIntr (.inr hq)

abbrev BudgetTrace := List (Transition Budget (Option Event))

def attempts (tr : BudgetTrace) : Nat := tr.countP fun x => x.label.any Event.isAttempt

/-- The steps of `cpu_exec` itself. -/
def acts (tr : BudgetTrace) : Nat := tr.countP fun x => x.label.isSome

def Smooth (tr : BudgetTrace) : Prop := ∀ x ∈ tr, ∀ f, x.label ≠ some (.fault f)

/-- What an exception makes `cpu_exec` forget: the attempts of its batch. -/
def lostAt (x : Transition Budget (Option Event)) : Nat :=
  match x.label with
  | some (.fault _) => x.source.nBatch - x.source.n + 1
  | _ => 0

def lost (tr : BudgetTrace) : Nat := (tr.map lostAt).sum

namespace Budget

def left (c : Budget) : Nat :=
  match c.phase with
  | .run => c.nRemainTotal - c.nBatch + c.n
  | _ => c.nRemainTotal

/-- Bounds the steps until the end of the loop. -/
def rank (c : Budget) : Nat :=
  match c.phase with
  | .run => 3 * c.left + (if c.n = 0 then 2 else 0)
  | _ => 3 * c.left + 1

/-- The counters fit together. -/
structure Fits (c : Budget) : Prop where
  batch : c.phase = .run → c.n ≤ c.nBatch ∧ c.nBatch ≤ c.nRemainTotal ∧ 0 < c.nBatch
  pending : ∀ f, c.phase = .exn f → 0 < c.nRemainTotal

end Budget

variable {P : Platform} {c c' : Budget} {e : Event} {tr : BudgetTrace}

theorem Budget.left_run (h : c.phase = .run) : c.left = c.nRemainTotal - c.nBatch + c.n := by
  simp only [Budget.left, h]

theorem Budget.rank_run (h : c.phase = .run) :
    c.rank = 3 * c.left + (if c.n = 0 then 2 else 0) := by
  simp only [Budget.rank, h]

theorem Budget.left_top (h : c.phase = .top) : c.left = c.nRemainTotal := by
  simp only [Budget.left, h]

theorem Budget.rank_top (h : c.phase = .top) : c.rank = 3 * c.left + 1 := by
  simp only [Budget.rank, h]

theorem Budget.left_exn (h : c.phase = .exn f) : c.left = c.nRemainTotal := by
  simp only [Budget.left, h]

theorem Budget.rank_exn (h : c.phase = .exn f) : c.rank = 3 * c.left + 1 := by
  simp only [Budget.rank, h]

/-- What calling `execute` does to the counters. -/
structure Entered (c c' : Budget) : Prop where
  fits : c'.Fits
  left : c'.left = c.nRemainTotal
  rank : c'.rank = 3 * c.nRemainTotal

theorem Budget.enter_entered (h : 0 < c.nRemainTotal) (m : Machine) : Entered c (c.enter m) := by
  have hn : 0 < (c.enter m).n ∧ (c.enter m).n = (c.enter m).nBatch ∧
      (c.enter m).nBatch ≤ c.nRemainTotal := by
    unfold Budget.enter batchSize
    dsimp only
    split
    · exact ⟨Nat.succ_pos _, rfl, by assumption⟩
    · exact ⟨h, rfl, le_refl _⟩
  have hl : (c.enter m).left = c.nRemainTotal := by
    have h1 : (c.enter m).left = c.nRemainTotal - (c.enter m).nBatch + (c.enter m).n := rfl
    omega
  refine ⟨⟨fun _ => ⟨hn.2.1.le, hn.2.2, by omega⟩, fun _ h => by cases h⟩, hl, ?_⟩
  rw [Budget.rank_run rfl, hl, if_neg (by omega)]
  rfl

/-- How one step of `cpu_exec` accounts for itself. -/
structure Accounts (c : Budget) (e : Event) (c' : Budget) : Prop where
  fits : c'.Fits
  total : (if e.isAttempt then 1 else 0) + c'.left = c.left + lostAt ⟨c, some e, c'⟩
  rank : (∀ f, e ≠ .fault f) → c'.rank + 1 ≤ c.rank

theorem BudgetStep.accounts (h : BudgetStep P c e c') (hc : c.Fits) : Accounts c e c' := by
  cases h with
  | @instr d t _ hp hn _ =>
    obtain ⟨h1, h2, h3⟩ := hc.batch hp
    have hl : ({ c with m := t, n := c.n - 1 } : Budget).left =
        c.nRemainTotal - c.nBatch + (c.n - 1) := Budget.left_run hp
    have hr : ({ c with m := t, n := c.n - 1 } : Budget).rank =
        3 * ({ c with m := t, n := c.n - 1 } : Budget).left + (if c.n - 1 = 0 then 2 else 0) :=
      Budget.rank_run hp
    refine ⟨⟨fun _ => ⟨?_, h2, h3⟩, hc.pending⟩, ?_, fun _ => ?_⟩
    · exact le_trans (Nat.sub_le _ _) h1
    · rw [hl, Budget.left_run hp]
      change 1 + _ = _ + 0
      omega
    · rw [hr, hl, Budget.rank_run hp, Budget.left_run hp, if_neg (Nat.ne_of_gt hn)]
      split <;> omega
  | @fault f t _ hp hn _ =>
    obtain ⟨h1, h2, h3⟩ := hc.batch hp
    refine ⟨⟨fun h => by (cases h), fun _ _ => ?_⟩, ?_, fun h => absurd rfl (h f)⟩
    · exact lt_of_lt_of_le h3 h2
    · rw [Budget.left_exn rfl, Budget.left_run hp]
      change 1 + c.nRemainTotal = _ + (c.nBatch - c.n + 1)
      omega
  | batchEnd hp hn =>
    have hl : ({ c with phase := .top, nRemainTotal := c.nRemainTotal - c.nBatch } : Budget).left =
        c.nRemainTotal - c.nBatch := rfl
    refine ⟨⟨fun h => by (cases h), fun _ h => by cases h⟩, ?_, fun _ => ?_⟩
    · rw [hl, Budget.left_run hp]
      change 0 + _ = _ + 0
      omega
    · rw [Budget.rank_top rfl, Budget.rank_run hp, hl, Budget.left_run hp, if_pos hn]
      omega
  | @trap f t _ hp ht _ =>
    have h := Budget.enter_entered ht t
    refine ⟨h.fits, ?_, fun _ => ?_⟩
    · rw [h.left, Budget.left_exn hp]
      exact Nat.zero_add _
    · rw [h.rank, Budget.rank_exn hp, Budget.left_exn hp]
  | @intr no t _ hp ht _ _ _ =>
    have h := Budget.enter_entered ht t
    refine ⟨h.fits, ?_, fun _ => ?_⟩
    · rw [h.left, Budget.left_top hp]
      exact Nat.zero_add _
    · rw [h.rank, Budget.rank_top hp, Budget.left_top hp]
  | noIntr hp ht _ =>
    have h := Budget.enter_entered ht c.m
    refine ⟨h.fits, ?_, fun _ => ?_⟩
    · rw [h.left, Budget.left_top hp]
      exact Nat.zero_add _
    · rw [h.rank, Budget.rank_top hp, Budget.left_top hp]

/-- The account of a whole run of `cpu_exec(n)`. -/
structure Balanced (n : Nat) (tr : BudgetTrace) (c : Budget) : Prop where
  fits : c.Fits
  total : attempts tr + c.left = n + lost tr
  rank : Smooth tr → acts tr + c.rank ≤ 3 * n + 1

theorem attempts_concat (tr : BudgetTrace) (x : Transition Budget (Option Event)) :
    attempts (tr ++ [x]) = attempts tr + (if x.label.any Event.isAttempt then 1 else 0) := by
  unfold attempts
  rw [List.countP_append, List.countP_singleton]

theorem acts_concat (tr : BudgetTrace) (x : Transition Budget (Option Event)) :
    acts (tr ++ [x]) = acts tr + (if x.label.isSome then 1 else 0) := by
  unfold acts
  rw [List.countP_append, List.countP_singleton]

theorem lost_concat (tr : BudgetTrace) (x : Transition Budget (Option Event)) :
    lost (tr ++ [x]) = lost tr + lostAt x := by
  unfold lost
  rw [List.map_append, List.sum_append, List.map_singleton, List.sum_singleton]

theorem Smooth.of_concat {x : Transition Budget (Option Event)} (h : Smooth (tr ++ [x])) :
    Smooth tr ∧ ∀ f, x.label ≠ some (.fault f) :=
  ⟨fun y hy => h y (List.mem_append_left _ hy), h x (List.mem_append_right _ List.mem_cons_self)⟩

theorem Balanced.step {x : Transition Budget (Option Event)} (h : Balanced n tr x.source)
    (hx : TimedStep P x.source x.label x.target) : Balanced n (tr ++ [x]) x.target := by
  obtain ⟨a, l, b⟩ := x
  dsimp only at hx h
  cases hx with
  | alarm =>
    refine ⟨⟨h.fits.batch, h.fits.pending⟩, ?_, fun hs => ?_⟩
    · rw [attempts_concat, lost_concat]
      exact h.total
    · rw [acts_concat]
      exact h.rank hs.of_concat.1
  | @act e _ hstep =>
    have ha := hstep.accounts h.fits
    refine ⟨ha.fits, ?_, fun hs => ?_⟩
    · have h1 := h.total
      have h2 := ha.total
      rw [attempts_concat, lost_concat]
      dsimp only [Option.any_some] at h1 h2 ⊢
      omega
    · have h1 := h.rank hs.of_concat.1
      have h2 := ha.rank fun f he => hs.of_concat.2 f (congrArg some he)
      rw [acts_concat]
      dsimp only [Option.isSome_some] at h1 h2 ⊢
      rw [if_pos rfl]
      omega

theorem balanced_of_run (h : Run (TimedStep P) (.start n s) tr c) : Balanced n tr c := by
  have hgood : ∀ x ∈ tr, (fun _ => True) x := fun _ _ => trivial
  refine h.history hgood ?_ fun tr x _ hx ih => ih.step hx
  refine ⟨⟨fun h => by (cases h), fun _ h => by cases h⟩, ?_, fun _ => ?_⟩
  · exact Nat.zero_add n
  · exact Nat.le_of_eq (Nat.zero_add _)

/-- Exceptions are what makes `cpu_exec` forget attempts. -/
theorem lost_eq_zero (tr : BudgetTrace) : lost tr = 0 ↔ Smooth tr := by
  unfold lost Smooth
  rw [List.sum_eq_zero_iff_forall_eq_nat]
  constructor
  · intro h x hx f hf
    have h0 := h (lostAt x) (List.mem_map_of_mem hx)
    unfold lostAt at h0
    rw [hf] at h0
    cases h0
  · intro h k hk
    obtain ⟨x, hx, rfl⟩ := List.mem_map.mp hk
    unfold lostAt
    split
    · next f hf => exact absurd hf (h x hx f)
    · rfl

/-- The emulator ends: the next instruction stops it or an assertion fails. -/
def Budget.Stops (P : Platform) (c : Budget) : Prop :=
  (∃ e t, executeStep P c.m = .error e t ∧ ∀ f, e ≠ .exception f) ∨
    (∃ no e t, takeIntr P no c.m = .error e t) ∨ ∃ f e t, handleException P f c.m = .error e t

/-- As long as the budget is not used up, the loop goes on. -/
theorem Budget.Fits.progress (hc : c.Fits) (hr : ¬ c.Returned) :
    (∃ e c', BudgetStep P c e c') ∨ c.Stops P := by
  cases hp : c.phase with
  | run =>
    obtain hn | hn := Nat.eq_zero_or_pos c.n
    · exact .inl ⟨_, _, .batchEnd hp hn⟩
    · cases he : executeStep P c.m with
      | ok d t => exact .inl ⟨_, _, .instr hp hn he⟩
      | error e t =>
        cases e with
        | exception f => exact .inl ⟨_, _, .fault hp hn he⟩
        | execEnd => exact .inr (.inl ⟨_, _, he, fun f h => by cases h⟩)
        | abort a => exact .inr (.inl ⟨_, _, he, fun f h => by cases h⟩)
  | exn f =>
    cases he : handleException P f c.m with
    | ok _ t => exact .inl ⟨_, _, .trap hp (hc.pending f hp) he⟩
    | error e t => exact .inr (.inr (.inr ⟨f, e, t, he⟩))
  | top =>
    have ht : 0 < c.nRemainTotal := Nat.pos_of_ne_zero fun h => hr ⟨hp, h⟩
    by_cases hq : isaQueryIntr P c.m = intrEmpty
    · exact .inl ⟨_, _, .noIntr hp ht hq⟩
    · cases he : takeIntr P (isaQueryIntr P c.m) c.m with
      | ok _ t => exact .inl ⟨_, _, .intr hp ht rfl hq he⟩
      | error e t => exact .inr (.inr (.inl ⟨_, e, t, he⟩))

/-- `cpu_exec(n)` returns after exactly `n` attempts if and only if none of them raises an
exception. Then it does return: it makes a bounded number of steps, and can always make one
more until the budget is used up, unless the emulator stops. -/
theorem budget_spent_iff (h : Run (TimedStep P) (.start n s) tr c) :
    (c.Returned → (attempts tr = n ↔ Smooth tr)) ∧
      (Smooth tr → attempts tr ≤ n ∧ acts tr ≤ 3 * n + 1) ∧
      (¬ c.Returned → (∃ e c', BudgetStep P c e c') ∨ c.Stops P) := by
  have hb := balanced_of_run h
  refine ⟨?_, ?_, hb.fits.progress⟩
  · rintro ⟨hp, h0⟩
    have ht := hb.total
    rw [Budget.left_top hp, h0] at ht
    rw [← lost_eq_zero]
    omega
  · intro hs
    have ht := hb.total
    have hr := hb.rank hs
    rw [(lost_eq_zero tr).mpr hs] at ht
    omega

/-- A trap vector that holds an `addi`, and a CSR instruction that is illegal. -/
def illegalThenNop : Machine :=
  (booted (Platform.bare .standalone) [0x7ff01073, 0x00000013]).setCsr .mtvec 0x80100004

/-- A single step over an instruction that raises an exception attempts two. -/
theorem budget_overrun :
    ∃ tr c, Run (TimedStep (Platform.bare .standalone)) (.start 1 illegalThenNop) tr c ∧
      c.Returned ∧ attempts tr = 2 :=
  ⟨_, _, .cons (.act (.noIntr rfl (by decide) rfl)) (.cons (.act (.fault rfl (by decide) rfl))
    (.cons (.act (.trap rfl (by decide) rfl)) (.cons (.act (.instr rfl (by decide) rfl))
      (.cons (.act (.batchEnd rfl rfl)) .nil)))), ⟨rfl, rfl⟩, rfl⟩

/-- The same program started at the `addi` uses one attempt. -/
theorem budget_spent_iff_nop :
    ∃ tr c, Run (TimedStep (Platform.bare .standalone))
      (.start 1 { illegalThenNop with pc := 0x80100004 }) tr c ∧ c.Returned ∧ attempts tr = 1 := by
  have hrun : ∃ tr c, Run (TimedStep (Platform.bare .standalone))
      (.start 1 { illegalThenNop with pc := 0x80100004 }) tr c ∧ c.Returned ∧ Smooth tr := by
    refine ⟨_, _, .cons (.act (.noIntr rfl (by decide) rfl)) (.cons
      (.act (.instr rfl (by decide) rfl)) (.cons (.act (.batchEnd rfl rfl)) .nil)), ⟨rfl, rfl⟩, ?_⟩
    simp [Smooth]
  obtain ⟨tr, c, h, hr, hs⟩ := hrun
  exact ⟨tr, c, h, hr, ((budget_spent_iff h).1 hr).mpr hs⟩

end Nemu
