import Nemu.Config
import Nemu.Lib.Schedule
import Mathlib.Order.RelClasses

namespace Nemu

set_option autoImplicit true

inductive ProfilingState where
  | noProfiling | simpointProfiling | simpointCheckpointing
  deriving DecidableEq

/-- The global variables that the options of the command line set. -/
structure CptOptions where
  profilingState : ProfilingState
  checkpointTaking : Bool
  checkpointInterval : Word

/-- Option `-S`; `none` where the assertion fails. -/
def CptOptions.optS (o : CptOptions) : Option CptOptions :=
  if o.profilingState = .noProfiling then
    some { o with profilingState := .simpointCheckpointing, checkpointTaking := true }
  else none

def CptOptions.optU (o : CptOptions) : CptOptions := { o with checkpointTaking := true }

/-- The entries of `simpoint2Weights` are in the order of their locations; the weights are of any
type. `cptID` is that of the path manager. -/
structure Serializer (ω : Type) where
  intervalSize : Word
  simpoint2Weights : List (Word × ω)
  nextUniformPoint : Word
  cptID : Nat

inductive CptStop where
  | assert
  /-- the first element of an empty map is read -/
  | emptyRead

section Serializer

variable {ω : Type}

/-- `simpoint2Weights[location] = weight` -/
def mapAssign (location : Word) (weight : ω) : List (Word × ω) → List (Word × ω)
  | [] => [(location, weight)]
  | e :: m =>
    if location < e.1 then (location, weight) :: e :: m
    else if location = e.1 then (location, weight) :: m
    else e :: mapAssign location weight m

/-- The loop over the two files, given by the pairs that are read from them. -/
def readSimpoints : List (Word × Word) → List (ω × Word) → List (Word × ω) → Except CptStop (List (Word × ω))
  | [], _, m => .ok m
  | _ :: _, [], _ => .error .assert
  | (location, simpointId) :: simpoints, (weight, weightId) :: weights, m =>
    if weightId = simpointId then readSimpoints simpoints weights (mapAssign location weight m)
    else .error .assert

namespace Serializer

/-- As it is constructed; the next uniform point and the id are not set then. -/
def new (nextUniformPoint : Word) (cptID : Nat) : Serializer ω := ⟨10000000, [], nextUniformPoint, cptID⟩

def init (o : CptOptions) (simpoints : List (Word × Word)) (weights : List (ω × Word)) (sz : Serializer ω) :
    Except CptStop (Serializer ω) :=
  if o.profilingState = .simpointCheckpointing then
    if o.checkpointInterval = 0 then .error .assert
    else
      match readSimpoints simpoints weights sz.simpoint2Weights with
      | .error stop => .error stop
      | .ok m => .ok { sz with intervalSize := o.checkpointInterval, simpoint2Weights := m }
  else if o.checkpointTaking then
    if o.checkpointInterval = 0 then .error .assert
    else .ok { sz with intervalSize := o.checkpointInterval, nextUniformPoint := o.checkpointInterval }
  else .ok sz

def shouldTakeCpt (o : CptOptions) (profilingStarted : Bool) (numInsts : Word) (sz : Serializer ω) :
    Except CptStop Bool :=
  if (o.profilingState ≠ .simpointCheckpointing ∨ sz.simpoint2Weights.isEmpty) ∧ ¬ o.checkpointTaking then
    .ok false
  else if o.profilingState = .simpointCheckpointing then
    match sz.simpoint2Weights with
    | [] => .error .emptyRead
    | (location, _) :: _ => .ok (decide (location * sz.intervalSize + 100000 ≤ numInsts))
  else if o.checkpointTaking ∧ profilingStarted then .ok (decide (sz.nextUniformPoint ≤ numInsts))
  else .ok false

def notifyTaken (o : CptOptions) (sz : Serializer ω) : Serializer ω :=
  if o.profilingState = .simpointCheckpointing then
    let rest := sz.simpoint2Weights.tail
    { sz with simpoint2Weights := rest, cptID := if rest.isEmpty then sz.cptID else sz.cptID + 1 }
  else if o.checkpointTaking then
    { sz with nextUniformPoint := sz.nextUniformPoint + sz.intervalSize, cptID := sz.cptID + 1 }
  else sz

/-- Whether a checkpoint is written, and the serializer after it. -/
def tryTakeCpt (o : CptOptions) (profilingStarted : Bool) (icount : Word) (sz : Serializer ω) :
    Except CptStop (Bool × Serializer ω) :=
  match sz.shouldTakeCpt o profilingStarted icount with
  | .error stop => .error stop
  | .ok true => .ok (true, sz.notifyTaken o)
  | .ok false => .ok (false, sz)

/-- A sequence of calls, which `per_bb_profile` makes after profiling has been started. -/
def takeCpts (o : CptOptions) : List Word → Serializer ω → Except CptStop (List Bool × Serializer ω)
  | [], sz => .ok ([], sz)
  | icount :: icounts, sz =>
    match sz.tryTakeCpt o true icount with
    | .error stop => .error stop
    | .ok (taken, sz) =>
      match takeCpts o icounts sz with
      | .error stop => .error stop
      | .ok (results, sz) => .ok (taken :: results, sz)

end Serializer

end Serializer

/-- Checkpoint `j` is taken at the first call, after those of the checkpoints before it, whose count
reaches its point; this is the first call of all that does, or the one right after the call that took
the checkpoint before it, which had reached the point already. -/
def TakenWhenDue (icounts : List Word) (results : List Bool) (point : Word) (j : Nat) : Prop :=
  ∀ k, (ServedAt results j k ↔
      IsLeast {k | j ≤ servedBefore results k ∧ ∃ n, icounts[k]? = some n ∧ point ≤ n} k) ∧
    (ServedAt results j k → (∀ k' < k, ∀ n, icounts[k']? = some n → ¬ point ≤ n) ∨
      ∃ i k₁ n, j = i + 1 ∧ k = k₁ + 1 ∧ ServedAt results i k₁ ∧ icounts[k₁]? = some n ∧ point ≤ n)

/-- Of `num` simpoints, which are taken as they are due, one is left at each of the calls; `j` were taken
before. -/
def SimpointsLeft (due : Nat → Word) (num j : Nat) (icounts : List Word) : Prop :=
  ∀ k < icounts.length, j + servedBefore (serve due j icounts) k < num

variable {ω : Type} {o : CptOptions} {sz sz' : Serializer ω} {icount : Word} {icounts : List Word}
  {results : List Bool} {m m' : List (Word × ω)} {simpoints : List (Word × Word)} {weights : List (ω × Word)}

section Map

def InOrder (m : List (Word × ω)) : Prop := m.Pairwise fun a b => a.1 < b.1

theorem mem_mapAssign {location : Word} {weight : ω} {e : Word × ω} (h : e ∈ mapAssign location weight m) :
    e = (location, weight) ∨ e ∈ m := by
  induction m with
  | nil => exact .inl (List.mem_singleton.mp h)
  | cons x m ih =>
    rw [mapAssign] at h
    split at h
    · exact (List.mem_cons.mp h).imp_right id
    · split at h
      · rcases List.mem_cons.mp h with h | h
        · exact .inl h
        · exact .inr (List.mem_cons_of_mem x h)
      · rcases List.mem_cons.mp h with rfl | h
        · exact .inr List.mem_cons_self
        · rcases ih h with h | h
          · exact .inl h
          · exact .inr (List.mem_cons_of_mem x h)

theorem mapAssign_inOrder (location : Word) (weight : ω) (h : InOrder m) :
    InOrder (mapAssign location weight m) := by
  induction m with
  | nil => exact List.pairwise_singleton _ _
  | cons x m ih =>
    obtain ⟨hx, hm⟩ := List.pairwise_cons.mp h
    rw [mapAssign]
    split
    next hlt =>
      apply List.pairwise_cons.mpr
      refine ⟨fun e he => ?_, h⟩
      rcases List.mem_cons.mp he with rfl | he
      · exact hlt
      · exact BitVec.lt_trans hlt (hx e he)
    next hge =>
      split
      next heq =>
        apply List.pairwise_cons.mpr
        refine ⟨fun e he => ?_, hm⟩
        have hlt := hx e he
        rw [← heq] at hlt
        exact hlt
      next hne =>
        apply List.pairwise_cons.mpr
        refine ⟨fun e he => ?_, ih hm⟩
        rcases mem_mapAssign he with rfl | he
        · have hlt : x.1.toNat < location.toNat := by
            have h1 : ¬ location.toNat < x.1.toNat := hge
            have h2 : location.toNat ≠ x.1.toNat := fun h => hne (BitVec.eq_of_toNat_eq h)
            omega
          exact hlt
        · exact hx e he

theorem readSimpoints_inOrder (h : InOrder m) (hread : readSimpoints simpoints weights m = .ok m') :
    InOrder m' := by
  induction simpoints generalizing weights m with
  | nil =>
    cases hread
    exact h
  | cons s simpoints ih =>
    cases weights with
    | nil => cases hread
    | cons w weights =>
      rw [readSimpoints] at hread
      split at hread
      · exact ih (mapAssign_inOrder s.1 w.1 h) hread
      · cases hread

theorem mapAssign_locations (location : Word) (weight : ω) (x : Word) :
    x ∈ (mapAssign location weight m).map Prod.fst ↔ x = location ∨ x ∈ m.map Prod.fst := by
  induction m with
  | nil => exact List.mem_cons
  | cons e m ih =>
    rw [mapAssign]
    split
    · exact List.mem_cons
    · split
      next heq =>
        rw [List.map_cons, List.map_cons, List.mem_cons, List.mem_cons, heq, ← or_assoc, or_self]
      next =>
        rw [List.map_cons, List.map_cons, List.mem_cons, List.mem_cons, ih, or_left_comm]

theorem readSimpoints_locations (hread : readSimpoints simpoints weights m = .ok m') (x : Word) :
    x ∈ m'.map Prod.fst ↔ x ∈ simpoints.map Prod.fst ∨ x ∈ m.map Prod.fst := by
  induction simpoints generalizing weights m with
  | nil =>
    cases hread
    exact (or_iff_right List.not_mem_nil).symm
  | cons s simpoints ih =>
    cases weights with
    | nil => cases hread
    | cons w weights =>
      rw [readSimpoints] at hread
      split at hread
      · rw [ih hread, mapAssign_locations, List.map_cons, List.mem_cons, or_left_comm, or_assoc]
      · cases hread

end Map

section Runs

def cptPoint (S : Word) (m : List (Word × ω)) (j : Nat) : Word := (m[j]?).elim 0 fun e => e.1 * S + 100000

theorem optS_sets {o' : CptOptions} (h : o.optS = some o') :
    o'.profilingState = .simpointCheckpointing ∧ o'.checkpointTaking = true := by
  unfold CptOptions.optS at h
  split at h
  · cases h
    exact ⟨rfl, rfl⟩
  · cases h

/-- The options that `-S` sets let a call through that finds no simpoint left. -/
theorem tryTakeCpt_empty (ho : o.profilingState = .simpointCheckpointing) (ht : o.checkpointTaking = true)
    (hm : sz.simpoint2Weights = []) (started : Bool) (n : Word) :
    sz.tryTakeCpt o started n = .error .emptyRead := by
  have hshould : sz.shouldTakeCpt o started n = .error .emptyRead := by
    unfold Serializer.shouldTakeCpt
    rw [if_neg fun hgate => hgate.2 ht, if_pos ho, hm]
  unfold Serializer.tryTakeCpt
  rw [hshould]

theorem simpointsLeft_cons {due : Nat → Word} {num j : Nat} {n : Word} :
    SimpointsLeft due num j (n :: icounts) ↔
      j < num ∧ SimpointsLeft due num (if due j ≤ n then j + 1 else j) icounts := by
  have hcons : ∀ (x : Bool) (l : List Bool) (k : Nat),
      servedBefore (x :: l) (k + 1) = servedBefore l k + if x then 1 else 0 := by
    intro x l k
    unfold servedBefore
    rw [List.take_succ_cons, List.count_cons]
    cases x <;> rfl
  have hstep : ∀ k, j + servedBefore (serve due j (n :: icounts)) (k + 1) =
      (if due j ≤ n then j + 1 else j) +
        servedBefore (serve due (if due j ≤ n then j + 1 else j) icounts) k := by
    intro k
    rw [serve]
    by_cases hdue : due j ≤ n
    · simp only [if_pos hdue, hcons, if_true]
      omega
    · simp only [if_neg hdue, hcons]
      rfl
  constructor
  · intro h
    refine ⟨h 0 (Nat.succ_pos _), fun k hk => ?_⟩
    rw [← hstep k]
    exact h (k + 1) (Nat.succ_lt_succ hk)
  · rintro ⟨hnow, hlater⟩ k hk
    cases k with
    | zero => exact hnow
    | succ k =>
      rw [hstep k]
      exact hlater k (Nat.lt_of_succ_lt_succ hk)

theorem tryTakeCpt_simpoint {S n : Word} {j : Nat} (ho : o.profilingState = .simpointCheckpointing)
    (ht : o.checkpointTaking = true) (hS : sz.intervalSize = S) (hm : sz.simpoint2Weights = m.drop j)
    (hlt : j < m.length) : ∃ sz', sz.tryTakeCpt o true n = .ok (decide (cptPoint S m j ≤ n), sz') ∧
      sz'.intervalSize = S ∧ sz'.simpoint2Weights = m.drop (if cptPoint S m j ≤ n then j + 1 else j) := by
  have hdrop : m.drop j = m[j] :: m.drop (j + 1) := List.drop_eq_getElem_cons hlt
  have hpoint : cptPoint S m j = m[j].1 * S + 100000 := by
    unfold cptPoint
    rw [List.getElem?_eq_getElem hlt]
    rfl
  have hshould : sz.shouldTakeCpt o true n = .ok (decide (cptPoint S m j ≤ n)) := by
    unfold Serializer.shouldTakeCpt
    rw [if_neg fun hgate => hgate.2 ht, if_pos ho, hm, hdrop, hpoint, hS]
  unfold Serializer.tryTakeCpt
  rw [hshould]
  by_cases hdue : cptPoint S m j ≤ n
  · rw [decide_eq_true hdue, if_pos hdue]
    refine ⟨_, rfl, ?_⟩
    unfold Serializer.notifyTaken
    rw [if_pos ho]
    exact ⟨hS, by rw [hm, List.tail_drop]⟩
  · rw [decide_eq_false hdue, if_neg hdue]
    exact ⟨_, rfl, hS, hm⟩

theorem takeCpts_simpoints {S : Word} (ho : o.profilingState = .simpointCheckpointing)
    (ht : o.checkpointTaking = true) (j : Nat) (hS : sz.intervalSize = S) (hm : sz.simpoint2Weights = m.drop j)
    (icounts : List Word) :
    (SimpointsLeft (cptPoint S m) m.length j icounts →
      ∃ sz', sz.takeCpts o icounts = .ok (serve (cptPoint S m) j icounts, sz') ∧
        sz'.simpoint2Weights = m.drop (j + (serve (cptPoint S m) j icounts).count true)) ∧
    (¬ SimpointsLeft (cptPoint S m) m.length j icounts → sz.takeCpts o icounts = .error .emptyRead) := by
  induction icounts generalizing j sz with
  | nil => exact ⟨fun _ => ⟨sz, rfl, hm⟩, fun h => absurd (fun k hk => absurd hk (Nat.not_lt_zero k)) h⟩
  | cons n icounts ih =>
    rw [simpointsLeft_cons, Serializer.takeCpts]
    by_cases hlt : j < m.length
    · obtain ⟨sz₁, htry, hS₁, hm₁⟩ := tryTakeCpt_simpoint (n := n) ho ht hS hm hlt
      obtain ⟨hleft, hempty⟩ := ih _ hS₁ hm₁
      rw [htry]
      dsimp only
      constructor
      · rintro ⟨_, h⟩
        obtain ⟨sz', hrun, hrest⟩ := hleft h
        rw [hrun, serve]
        refine ⟨sz', ?_⟩
        by_cases hdue : cptPoint S m j ≤ n
        · simp only [if_pos hdue, decide_eq_true hdue] at hrest ⊢
          rw [List.count_cons_self, hrest]
          exact ⟨trivial, congrArg (List.drop · m) (by omega)⟩
        · simp only [if_neg hdue, decide_eq_false hdue] at hrest ⊢
          rw [List.count_cons_of_ne Bool.false_ne_true, hrest]
          exact ⟨trivial, rfl⟩
      · intro h
        rw [hempty fun hrest => h ⟨hlt, hrest⟩]
    · refine ⟨fun h => absurd h.1 hlt, fun _ => ?_⟩
      rw [tryTakeCpt_empty ho ht (hm.trans (List.drop_of_length_le (Nat.le_of_not_lt hlt)))]

theorem takeCpts_uniform (ho : o.profilingState ≠ .simpointCheckpointing) (ht : o.checkpointTaking = true)
    (S : Word) (j : Nat) (hS : sz.intervalSize = S) (hnext : sz.nextUniformPoint = BitVec.ofNat 64 (j + 1) * S)
    (icounts : List Word) :
    ∃ sz', sz.takeCpts o icounts = .ok (serve (fun i => BitVec.ofNat 64 (i + 1) * S) j icounts, sz') := by
  induction icounts generalizing j sz with
  | nil => exact ⟨sz, rfl⟩
  | cons n icounts ih =>
    have hshould : sz.shouldTakeCpt o true n = .ok (decide (BitVec.ofNat 64 (j + 1) * S ≤ n)) := by
      unfold Serializer.shouldTakeCpt
      rw [if_neg fun hgate => hgate.2 ht, if_neg ho, if_pos ⟨ht, rfl⟩, hnext]
    rw [Serializer.takeCpts, serve]
    by_cases hdue : BitVec.ofNat 64 (j + 1) * S ≤ n
    · have htry : sz.tryTakeCpt o true n = .ok (true, sz.notifyTaken o) := by
        unfold Serializer.tryTakeCpt
        rw [hshould, decide_eq_true hdue]
      have hnotify : (sz.notifyTaken o).intervalSize = S ∧
          (sz.notifyTaken o).nextUniformPoint = BitVec.ofNat 64 (j + 1 + 1) * S := by
        have hsucc : BitVec.ofNat 64 (j + 1 + 1) = BitVec.ofNat 64 (j + 1) + 1 := BitVec.ofNat_add _ _
        unfold Serializer.notifyTaken
        rw [if_neg ho, if_pos ht]
        refine ⟨hS, ?_⟩
        dsimp only
        rw [hnext, hS, hsucc, add_mul, one_mul]
      obtain ⟨sz', hrun⟩ := ih (j + 1) hnotify.1 hnotify.2
      rw [htry]
      dsimp only
      rw [hrun, if_pos hdue]
      exact ⟨sz', rfl⟩
    · have htry : sz.tryTakeCpt o true n = .ok (false, sz) := by
        unfold Serializer.tryTakeCpt
        rw [hshould, decide_eq_false hdue]
      obtain ⟨sz', hrun⟩ := ih j hS hnext
      rw [htry]
      dsimp only
      rw [hrun, if_neg hdue]
      exact ⟨sz', rfl⟩

instance : IsTrans Word (· ≤ ·) := ⟨fun _ _ _ h h' => BitVec.le_trans h h'⟩

theorem takenWhenDue_serve {due : Nat → Word} (hmono : icounts.Pairwise (· ≤ ·)) (j : Nat) :
    TakenWhenDue icounts (serve due 0 icounts) (due j) j := by
  intro k
  constructor
  · exact servedAt_iff_isLeast
  · intro h
    exact servedAt_prompt hmono h

theorem init_simpoints {nextPoint : Word} {cptID : Nat} (ho : o.profilingState = .simpointCheckpointing)
    (h : (Serializer.new nextPoint cptID : Serializer ω).init o simpoints weights = .ok sz) :
    sz.intervalSize = o.checkpointInterval ∧ InOrder sz.simpoint2Weights ∧
      ∀ x, x ∈ sz.simpoint2Weights.map Prod.fst ↔ x ∈ simpoints.map Prod.fst := by
  unfold Serializer.init at h
  rw [if_pos ho] at h
  split at h
  · cases h
  split at h
  · cases h
  next m hread =>
  cases h
  refine ⟨rfl, readSimpoints_inOrder List.Pairwise.nil hread, fun x => ?_⟩
  exact (readSimpoints_locations hread x).trans (or_iff_left List.not_mem_nil)

theorem init_uniform {nextPoint : Word} {cptID : Nat} (ho : o.profilingState ≠ .simpointCheckpointing)
    (ht : o.checkpointTaking = true)
    (h : (Serializer.new nextPoint cptID : Serializer ω).init o simpoints weights = .ok sz) :
    sz.intervalSize = o.checkpointInterval ∧ sz.nextUniformPoint = o.checkpointInterval := by
  unfold Serializer.init at h
  rw [if_neg ho, if_pos ht] at h
  split at h
  · cases h
  · cases h
    exact ⟨rfl, rfl⟩

/-- The schedule of the checkpoints in both modes, over calls with counts that do not decrease, in the mode with
simpoints as long as one is left at each call. -/
theorem takeCpts_schedule (hmono : icounts.Pairwise (· ≤ ·)) {nextPoint : Word} {cptID : Nat}
    (ht : o.checkpointTaking = true)
    (hinit : (Serializer.new nextPoint cptID : Serializer ω).init o simpoints weights = .ok sz) :
    (o.profilingState = .simpointCheckpointing →
      InOrder sz.simpoint2Weights ∧
        (∀ x, x ∈ sz.simpoint2Weights.map Prod.fst ↔ x ∈ simpoints.map Prod.fst) ∧
        (SimpointsLeft (cptPoint o.checkpointInterval sz.simpoint2Weights) sz.simpoint2Weights.length 0 icounts →
          ∃ results sz', sz.takeCpts o icounts = .ok (results, sz') ∧
            sz'.simpoint2Weights = sz.simpoint2Weights.drop (results.count true) ∧
            ∀ j e, sz.simpoint2Weights[j]? = some e →
              TakenWhenDue icounts results (e.1 * o.checkpointInterval + 100000) j) ∧
        ∀ results sz', sz.takeCpts o icounts = .ok (results, sz') →
          SimpointsLeft (cptPoint o.checkpointInterval sz.simpoint2Weights) sz.simpoint2Weights.length 0 icounts) ∧
      (o.profilingState ≠ .simpointCheckpointing → ∃ results sz', sz.takeCpts o icounts = .ok (results, sz') ∧
        ∀ j, TakenWhenDue icounts results (BitVec.ofNat 64 (j + 1) * o.checkpointInterval) j) := by
  constructor
  · intro ho
    obtain ⟨hS, horder, hlocations⟩ := init_simpoints ho hinit
    obtain ⟨hleft, hempty⟩ := takeCpts_simpoints (m := sz.simpoint2Weights) ho ht 0 hS rfl icounts
    refine ⟨horder, hlocations, fun h => ?_, fun results sz' hrun => ?_⟩
    · obtain ⟨sz', hrun, hrest⟩ := hleft h
      rw [Nat.zero_add] at hrest
      refine ⟨_, sz', hrun, hrest, fun j e he => ?_⟩
      have hpoint : cptPoint o.checkpointInterval sz.simpoint2Weights j = e.1 * o.checkpointInterval + 100000 := by
        unfold cptPoint
        rw [he]
        rfl
      rw [← hpoint]
      exact takenWhenDue_serve hmono j
    · by_contra h
      cases (hempty h).symm.trans hrun
  · intro ho
    obtain ⟨hS, hnext⟩ := init_uniform ho ht hinit
    have hfirst : sz.nextUniformPoint = BitVec.ofNat 64 (0 + 1) * o.checkpointInterval := by
      rw [hnext]
      exact (one_mul _).symm
    obtain ⟨sz', hrun⟩ := takeCpts_uniform ho ht o.checkpointInterval 0 hS hfirst icounts
    exact ⟨_, sz', hrun, takenWhenDue_serve hmono⟩

/-- Two simpoints at a distance of 20 counts, the second one taken by the third call. -/
theorem takeCpts_schedule_two : ∃ sz',
    (⟨10, [(0, 2), (3, 7)], 0, 0⟩ : Serializer Nat).takeCpts ⟨.simpointCheckpointing, true, 10⟩
      [100000, 100010, 100040] = .ok ([true, false, true], sz') ∧
    TakenWhenDue [100000, 100010, 100040] [true, false, true] (3 * 10 + 100000) 1 := by
  have hinit : (Serializer.new 0 0 : Serializer Nat).init ⟨.simpointCheckpointing, true, 10⟩ [(3, 1), (0, 0)]
      [(7, 1), (2, 0)] = .ok ⟨10, [(0, 2), (3, 7)], 0, 0⟩ := rfl
  have hserve : serve (cptPoint 10 [((0 : Word), 2), (3, 7)]) 0 [100000, 100010, 100040] = [true, false, true] := rfl
  have hleft : SimpointsLeft (cptPoint 10 [((0 : Word), 2), (3, 7)]) 2 0 [100000, 100010, 100040] := by
    unfold SimpointsLeft
    rw [hserve]
    decide
  have hmono : [(100000 : Word), 100010, 100040].Pairwise (· ≤ ·) := by decide
  obtain ⟨_, _, hruns, _⟩ := (takeCpts_schedule hmono rfl hinit).1 rfl
  obtain ⟨results, sz', hrun, _, htaken⟩ := hruns hleft
  have hresults : results = [true, false, true] := by
    cases hrun
    rfl
  subst hresults
  exact ⟨sz', hrun, htaken 1 (3, 7) rfl⟩

/-- A call that reaches the points of two simpoints takes one checkpoint only. -/
theorem takeCpts_one_per_call :
    (Serializer.new 0 0 : Serializer Nat).init ⟨.simpointCheckpointing, true, 10⟩ [(0, 0), (1, 1)]
        [(2, 0), (7, 1)] = .ok ⟨10, [(0, 2), (1, 7)], 0, 0⟩ ∧
      (⟨10, [(0, 2), (1, 7)], 0, 0⟩ : Serializer Nat).takeCpts ⟨.simpointCheckpointing, true, 10⟩
        [200000, 200001] = .ok ([true, true], ⟨10, [], 0, 1⟩) ∧
      ((1 : Word) * 10 + 100000 ≤ 200000) ∧ ServedAt [true, true] 1 1 ∧ ¬ ServedAt [true, true] 1 0 := by
  refine ⟨rfl, rfl, by decide, ⟨rfl, rfl⟩, fun h => ?_⟩
  cases h.2

end Runs

end Nemu
