import Nemu.Expr
import Nemu.Reset
import Nemu.Lib.Chain
import Mathlib.Data.List.Range

namespace Nemu

set_option autoImplicit true

/-- `WP`. A pointer to an entry of `wp_pool` is its index; `expr` is `none` where it points to no
text. -/
structure WP where
  NO : Int
  next : Option Nat
  expr : Option (List Char)
  oldVal : Word

/-- The static variables of `watchpoint.c`. -/
structure WatchPool where
  wpPool : Nat → WP
  head : Option Nat
  free : Option Nat

/-- The debugger together with the machine that it looks at. -/
structure Monitor where
  machine : Machine
  watch : WatchPool

/-- How a call ends without a result. -/
inductive WatchStop where
  /-- `expr` does not return -/
  | expr (stop : ExprStop)
  | assert
  /-- a loop over a list does not end -/
  | hang

abbrev WatchResult (α : Type) := EStateM.Result WatchStop Monitor α

namespace WatchPool

def next (w : WatchPool) (p : Nat) : Option Nat := (w.wpPool p).next

def modify (w : WatchPool) (p : Nat) (f : WP → WP) : WatchPool :=
  { w with wpPool := Function.update w.wpPool p (f (w.wpPool p)) }

end WatchPool

/-- The loop of `init_wp_pool` over the first `k` entries. -/
def numberEntries (k : Nat) (w : WatchPool) : WatchPool :=
  (List.range k).foldl (fun w i => w.modify i fun p => { p with NO := i, next := some (i + 1) }) w

def initWpPool (w : WatchPool) : WatchPool :=
  { (numberEntries 32 w).modify 31 fun p => { p with next := none } with head := none, free := some 0 }

/-- `none` where the assertion fails. -/
def newWP (w : WatchPool) : Option (Nat × WatchPool) :=
  match w.free with
  | none => none
  | some p => some (p, { w with free := w.next p })

def freeWP (p : Nat) (w : WatchPool) : Option WatchPool :=
  if p < 32 then
    some { w.modify p fun x => { x with expr := none, next := w.free } with free := some p }
  else none

def setWatchpoint (P : Platform) (e : List Char) (m : Monitor) : WatchResult Int :=
  match expr P e m.machine with
  | .error .fail s => .ok (-1) { m with machine := s }
  | .error stop s => .error (.expr stop) { m with machine := s }
  | .ok val s =>
    match newWP m.watch with
    | none => .error .assert { m with machine := s }
    | some (p, w) =>
      let w := w.modify p fun x => { x with expr := some e, oldVal := val }
      let w := { w.modify p fun x => { x with next := w.head } with head := some p }
      .ok (w.wpPool p).NO ⟨s, w⟩

/-- The loop of `delete_watchpoint`: where it stops, and the entry before; `none` where there are
more rounds than entries. -/
def findWP (w : WatchPool) (NO : Int) : Nat → Option Nat → Option Nat → Option (Option Nat × Option Nat)
  | _, none, prev => some (none, prev)
  | 0, some _, _ => none
  | fuel + 1, some p, prev =>
    if (w.wpPool p).NO = NO then some (some p, prev) else findWP w NO fuel (w.next p) (some p)

/-- Takes the entry `p`, which comes after `prev`, out of the active list. -/
def unlinkWP (p : Nat) (prev : Option Nat) (w : WatchPool) : WatchPool :=
  match prev with
  | none => { w with head := w.next p }
  | some q => w.modify q fun x => { x with next := w.next p }

def deleteWatchpoint (NO : Int) (m : Monitor) : WatchResult Bool :=
  match findWP m.watch NO 32 m.watch.head none with
  | none => .error .hang m
  | some (none, _) => .ok false m
  | some (some p, prev) =>
    match freeWP p (unlinkWP p prev m.watch) with
    | none => .error .assert m
    | some w => .ok true { m with watch := w }

/-- The active and the free entries, in the order in which they are linked. -/
structure WatchPool.Lists (w : WatchPool) (active free : List Nat) : Prop where
  fromHead : Chain none some w.next w.head active
  fromFree : Chain none some w.next w.free free
  all : (active ++ free).Perm (List.range 32)
  number : ∀ p < 32, (w.wpPool p).NO = p

/-- The pool after a history of calls, each made with any machine, and the numbers that are active
then: those that a call returned and no later call deleted. A call that would have to set a 33rd
watchpoint is not made. -/
inductive WatchHistory (P : Platform) : WatchPool → List Int → Prop where
  | init (w : WatchPool) : WatchHistory P (initWpPool w) []
  | set : WatchHistory P w act → setWatchpoint P e ⟨s, w⟩ = .ok n ⟨s', w'⟩ → n ≠ -1 → act.length < 32 →
      WatchHistory P w' (n :: act)
  | fails : WatchHistory P w act → setWatchpoint P e ⟨s, w⟩ = .ok (-1) ⟨s', w'⟩ → WatchHistory P w' act
  | stops : WatchHistory P w act → setWatchpoint P e ⟨s, w⟩ = .error (.expr stop) ⟨s', w'⟩ →
      WatchHistory P w' act
  | delete : WatchHistory P w act → deleteWatchpoint NO ⟨s, w⟩ = .ok true ⟨s', w'⟩ →
      WatchHistory P w' (act.erase NO)
  | misses : WatchHistory P w act → deleteWatchpoint NO ⟨s, w⟩ = .ok false ⟨s', w'⟩ → WatchHistory P w' act

variable {P : Platform} {w w' : WatchPool} {active free l : List Nat} {act : List Int} {e : List Char}
  {s s' : Machine} {m : Monitor} {n NO : Int} {val : Word} {p q fuel : Nat} {link prev : Option Nat}

section Pool

@[simp] theorem modify_same (f : WP → WP) : (w.modify p f).wpPool p = f (w.wpPool p) :=
  Function.update_self p _ _

theorem modify_other (f : WP → WP) (h : q ≠ p) : (w.modify p f).wpPool q = w.wpPool q :=
  Function.update_of_ne h _ _

theorem next_same (f : WP → WP) : (w.modify p f).next p = (f (w.wpPool p)).next :=
  congrArg WP.next (modify_same f)

theorem next_other (f : WP → WP) (h : q ≠ p) : (w.modify p f).next q = w.next q :=
  congrArg WP.next (modify_other f h)

theorem number_modify {f : WP → WP} (hf : ∀ x, (f x).NO = x.NO) (q : Nat) :
    ((w.modify p f).wpPool q).NO = (w.wpPool q).NO := by
  by_cases hq : q = p
  · rw [hq, modify_same, hf]
  · rw [modify_other f hq]

theorem numberEntries_succ (k : Nat) (w : WatchPool) :
    numberEntries (k + 1) w =
      (numberEntries k w).modify k fun p => { p with NO := k, next := some (k + 1) } := by
  unfold numberEntries
  rw [List.range_succ, List.foldl_append, List.foldl_cons, List.foldl_nil]

theorem numberEntries_entry (k : Nat) (w : WatchPool) : ∀ i < k,
    ((numberEntries k w).wpPool i).NO = i ∧ (numberEntries k w).next i = some (i + 1) := by
  induction k with
  | zero => exact fun i hi => absurd hi (Nat.not_lt_zero i)
  | succ k ih =>
    intro i hi
    rw [numberEntries_succ]
    rcases Nat.lt_succ_iff_lt_or_eq.mp hi with hi | rfl
    · have hother := Nat.ne_of_lt hi
      rw [modify_other _ hother, next_other _ hother]
      exact ih i hi
    · unfold WatchPool.next
      rw [modify_same]
      exact ⟨rfl, rfl⟩

theorem init_lists (w : WatchPool) : (initWpPool w).Lists [] (List.range 32) := by
  have hentry := numberEntries_entry 32 w
  have hnext : ∀ p ∈ List.range 32, (initWpPool w).next p = if p + 1 < 32 then some (p + 1) else none := by
    intro p hp
    have hlt := List.mem_range.mp hp
    by_cases hlast : p = 31
    · rw [hlast]
      exact next_same (w := numberEntries 32 w) fun p => { p with next := none }
    · rw [if_pos (by omega), ← (hentry p hlt).2]
      exact next_other (w := numberEntries 32 w) (fun p => { p with next := none }) hlast
  have hchain : Chain none some (fun p => if p + 1 < 32 then some (p + 1) else none) (some 0)
      (List.range' 0 32) :=
    @Chain.range (Option Nat) none some _ 32 0 (fun p => by rw [Nat.zero_add]) (by omega)
  constructor
  · exact .nil
  · rw [List.range_eq_range'] at hnext ⊢
    exact hchain.congr hnext
  · exact List.Perm.refl _
  · intro p hp
    rw [← (hentry p hp).1]
    exact number_modify (w := numberEntries 32 w) (f := fun p => { p with next := none }) (fun _ => rfl) p

namespace WatchPool.Lists

theorem nodup (h : w.Lists active free) : (active ++ free).Nodup :=
  h.all.nodup_iff.mpr List.nodup_range

theorem lt (h : w.Lists active free) (hp : p ∈ active ++ free) : p < 32 :=
  List.mem_range.mp (h.all.mem_iff.mp hp)

theorem numbers (h : w.Lists active free) :
    active.map (fun p => (w.wpPool p).NO) = active.map Nat.cast := by
  apply List.map_congr_left
  intro p hp
  exact h.number p (h.lt (List.mem_append_left free hp))

theorem exists_free (h : w.Lists active free) (hlt : active.length < 32) : ∃ p l, free = p :: l := by
  cases free with
  | nil =>
    have hlen := h.all.length_eq
    rw [List.append_nil, List.length_range] at hlen
    omega
  | cons p l => exact ⟨p, l, rfl⟩

end WatchPool.Lists

end Pool

section Calls

theorem set_lists (h : w.Lists active (p :: free)) (hexpr : expr P e s = .ok val s') :
    ∃ w', setWatchpoint P e ⟨s, w⟩ = .ok (p : Int) ⟨s', w'⟩ ∧ w'.Lists (p :: active) free := by
  obtain ⟨hfree, hrest⟩ := h.fromFree.uncons
  have hnodup := h.nodup
  have hperm : (p :: active ++ free).Perm (active ++ p :: free) := List.perm_middle.symm
  have hp : p ∉ active ++ free := (List.nodup_cons.mp (hperm.nodup_iff.mpr hnodup)).1
  have hlt : p < 32 := h.lt (List.mem_append_right active List.mem_cons_self)
  let w₁ : WatchPool := { w with free := w.next p }
  let w₂ := w₁.modify p fun x => { x with expr := some e, oldVal := val }
  let w₃ : WatchPool := { w₂.modify p fun x => { x with next := w₂.head } with head := some p }
  have hnext : ∀ q, q ≠ p → w₃.next q = w.next q := by
    intro q hq
    have h₃ : w₃.next q = w₂.next q := next_other (w := w₂) (fun x => { x with next := w₂.head }) hq
    have h₂ : w₂.next q = w₁.next q := next_other (w := w₁) (fun x => { x with expr := some e, oldVal := val }) hq
    exact h₃.trans h₂
  have hnumber : ∀ q, (w₃.wpPool q).NO = (w.wpPool q).NO := by
    intro q
    have h₃ : (w₃.wpPool q).NO = (w₂.wpPool q).NO :=
      number_modify (w := w₂) (f := fun x => { x with next := w₂.head }) (fun _ => rfl) q
    have h₂ : (w₂.wpPool q).NO = (w₁.wpPool q).NO :=
      number_modify (w := w₁) (f := fun x => { x with expr := some e, oldVal := val }) (fun _ => rfl) q
    exact h₃.trans h₂
  have hset : setWatchpoint P e ⟨s, w⟩ = .ok (w₃.wpPool p).NO ⟨s', w₃⟩ := by
    have hnew : newWP w = some (p, w₁) := by
      unfold newWP
      rw [hfree]
    unfold setWatchpoint
    rw [hexpr]
    dsimp only
    rw [hnew]
  refine ⟨w₃, ?_, ?_, ?_, hperm.trans h.all, fun q hq => (hnumber q).trans (h.number q hq)⟩
  · rw [hset, hnumber, h.number p hlt]
  · apply h.fromHead.push
    · exact next_same (w := w₂) fun x => { x with next := w₂.head }
    · exact fun hmem => hp (List.mem_append_left free hmem)
    · exact hnext
  · apply hrest.congr
    intro q hq
    apply hnext
    rintro rfl
    exact hp (List.mem_append_right active hq)

theorem set_fails (hexpr : expr P e s = .error .fail s') : setWatchpoint P e ⟨s, w⟩ = .ok (-1) ⟨s', w⟩ := by
  unfold setWatchpoint
  rw [hexpr]

theorem set_stops {stop : ExprStop} (hexpr : expr P e s = .error stop s') (hne : stop ≠ .fail) :
    setWatchpoint P e ⟨s, w⟩ = .error (.expr stop) ⟨s', w⟩ := by
  unfold setWatchpoint
  rw [hexpr]
  cases stop with
  | fail => exact absurd rfl hne
  | assert | divide | overflow | access => rfl

theorem set_cases (h : w.Lists active free) (P : Platform) (e : List Char) (s : Machine) :
    (∃ s', expr P e s = .error .fail s' ∧ setWatchpoint P e ⟨s, w⟩ = .ok (-1) ⟨s', w⟩) ∨
      (∃ stop s', stop ≠ .fail ∧ setWatchpoint P e ⟨s, w⟩ = .error (.expr stop) ⟨s', w⟩) ∨
      (∃ val s' p rest w', free = p :: rest ∧ expr P e s = .ok val s' ∧
        setWatchpoint P e ⟨s, w⟩ = .ok (p : Int) ⟨s', w'⟩ ∧ w'.Lists (p :: active) rest) ∨
      ∃ s', free = [] ∧ setWatchpoint P e ⟨s, w⟩ = .error .assert ⟨s', w⟩ := by
  cases hexpr : expr P e s with
  | error stop s' =>
    by_cases hfail : stop = .fail
    · subst hfail
      exact .inl ⟨s', rfl, set_fails hexpr⟩
    · exact .inr (.inl ⟨stop, s', hfail, set_stops hexpr hfail⟩)
  | ok val s' =>
    right
    right
    cases free with
    | cons p rest =>
      obtain ⟨w', hset, hlists⟩ := set_lists h hexpr
      exact .inl ⟨val, s', p, rest, w', rfl, rfl, hset, hlists⟩
    | nil =>
      right
      refine ⟨s', rfl, ?_⟩
      have hfree : w.free = none := h.fromFree.of_nil
      have hnew : newWP w = none := by
        unfold newWP
        rw [hfree]
      unfold setWatchpoint
      rw [hexpr]
      dsimp only
      rw [hnew]

theorem findWP_chain (h : Chain none some w.next link l) (hfuel : l.length ≤ fuel) (NO : Int)
    (prev : Option Nat) :
    (NO ∉ l.map (fun p => (w.wpPool p).NO) ∧ ∃ q, findWP w NO fuel link prev = some (none, q)) ∨
      ∃ l₁ p l₂, l = l₁ ++ p :: l₂ ∧ (w.wpPool p).NO = NO ∧
        findWP w NO fuel link prev = some (some p, l₁.getLast?.or prev) := by
  induction h generalizing fuel prev with
  | nil =>
    left
    refine ⟨List.not_mem_nil, prev, ?_⟩
    cases fuel <;> rfl
  | @cons p l hl ih =>
    cases fuel with
    | zero => cases hfuel
    | succ fuel =>
      rw [List.length_cons] at hfuel
      rw [findWP]
      by_cases hNO : (w.wpPool p).NO = NO
      · right
        exact ⟨[], p, l, rfl, hNO, if_pos hNO⟩
      · rw [if_neg hNO]
        have hle : l.length ≤ fuel := by omega
        rcases ih hle (some p) with ⟨hmem, hfind⟩ | ⟨l₁, q, l₂, rfl, hq, hfind⟩
        · left
          refine ⟨?_, hfind⟩
          rw [List.map_cons, List.mem_cons, not_or]
          exact ⟨fun h => hNO h.symm, hmem⟩
        · right
          refine ⟨p :: l₁, q, l₂, rfl, hq, ?_⟩
          rw [hfind, List.getLast?_cons]
          cases l₁.getLast? <;> rfl

theorem unlinkWP_number (p : Nat) (prev : Option Nat) (w : WatchPool) (q : Nat) :
    ((unlinkWP p prev w).wpPool q).NO = (w.wpPool q).NO := by
  cases prev with
  | none => rfl
  | some r => exact number_modify (f := fun x => { x with next := w.next p }) (fun _ => rfl) q

theorem unlinkWP_chains {l₁ l₂ : List Nat} (h : w.Lists (l₁ ++ p :: l₂) free) :
    Chain none some (unlinkWP p (l₁.getLast?.or none) w).next (unlinkWP p (l₁.getLast?.or none) w).head (l₁ ++ l₂) ∧
      Chain none some (unlinkWP p (l₁.getLast?.or none) w).next (unlinkWP p (l₁.getLast?.or none) w).free free := by
  have hchain := h.fromHead
  have hnodup := h.nodup
  rcases List.eq_nil_or_concat l₁ with rfl | ⟨l₀, r, rfl⟩
  · obtain ⟨-, htail⟩ := hchain.uncons
    exact ⟨htail, h.fromFree⟩
  · rw [List.concat_eq_append] at hchain hnodup ⊢
    rw [List.getLast?_concat]
    have hother : ∀ q, q ≠ r → (w.modify r fun x => { x with next := w.next p }).next q = w.next q :=
      fun q hq => next_other _ hq
    have hself : (w.modify r fun x => { x with next := w.next p }).next r = w.next p :=
      next_same _
    have hr : r ∉ free := by
      have hmem : r ∈ (l₀ ++ [r]) ++ p :: l₂ :=
        List.mem_append_left _ (List.mem_append_right l₀ List.mem_cons_self)
      exact List.disjoint_of_nodup_append hnodup hmem
    constructor
    · rw [List.append_assoc, List.singleton_append] at hchain ⊢
      have hactive := (List.nodup_append.mp hnodup).1
      rw [List.append_assoc, List.singleton_append] at hactive
      exact hchain.unlink hactive hself hother
    · apply h.fromFree.congr
      intro q hq
      apply hother
      rintro rfl
      exact hr hq

theorem freeWP_lists (hhead : Chain none some w.next w.head active) (hfree : Chain none some w.next w.free free)
    (hall : (active ++ p :: free).Perm (List.range 32)) (hnumber : ∀ q < 32, (w.wpPool q).NO = q) :
    ∃ w', freeWP p w = some w' ∧ w'.Lists active (p :: free) := by
  have hlt : p < 32 := List.mem_range.mp (hall.mem_iff.mp (List.mem_append_right active List.mem_cons_self))
  have hp : p ∉ active ++ free :=
    (List.nodup_cons.mp ((List.perm_middle.symm.trans hall).nodup_iff.mpr List.nodup_range)).1
  have hother : ∀ q, q ≠ p → (w.modify p fun x => { x with expr := none, next := w.free }).next q = w.next q :=
    fun q hq => next_other _ hq
  have hkeep : ∀ q, ((w.modify p fun x => { x with expr := none, next := w.free }).wpPool q).NO = (w.wpPool q).NO :=
    number_modify fun _ => rfl
  refine ⟨_, if_pos hlt, ?_, ?_, hall, fun q hq => (hkeep q).trans (hnumber q hq)⟩
  · apply hhead.congr
    intro q hq
    apply hother
    rintro rfl
    exact hp (List.mem_append_left free hq)
  · apply hfree.push
    · exact next_same fun x => { x with expr := none, next := w.free }
    · exact fun hmem => hp (List.mem_append_right active hmem)
    · exact hother

theorem delete_lists (h : w.Lists active free) (NO : Int) (s : Machine) :
    ∃ w' active' free', deleteWatchpoint NO ⟨s, w⟩ = .ok (decide (NO ∈ active.map Nat.cast)) ⟨s, w'⟩ ∧
      w'.Lists active' free' ∧ active'.map Nat.cast = (active.map Nat.cast).erase NO ∧
      (NO ∉ active.map Nat.cast → w' = w) := by
  have hlen : active.length ≤ 32 := by
    have hall := h.all.length_eq
    rw [List.length_append, List.length_range] at hall
    omega
  have hnumbers := h.numbers
  unfold deleteWatchpoint
  rcases findWP_chain h.fromHead hlen NO none with ⟨hmem, q, hfind⟩ | ⟨l₁, p, l₂, rfl, hp, hfind⟩
  · rw [hnumbers] at hmem
    refine ⟨w, active, free, ?_, h, (List.erase_of_not_mem hmem).symm, fun _ => rfl⟩
    rw [hfind, decide_eq_false hmem]
  · have hlt : p < 32 := h.lt (List.mem_append_left free (List.mem_append_right l₁ List.mem_cons_self))
    obtain rfl : (p : Int) = NO := (h.number p hlt).symm.trans hp
    have hmem : (p : Int) ∈ (l₁ ++ p :: l₂).map Nat.cast :=
      List.mem_map_of_mem (List.mem_append_right l₁ List.mem_cons_self)
    obtain ⟨hhead, hfree⟩ := unlinkWP_chains h
    have hall : (l₁ ++ l₂ ++ p :: free).Perm (List.range 32) := by
      have hmid : (l₁ ++ l₂ ++ p :: free).Perm (l₁ ++ p :: l₂ ++ free) := by
        rw [List.append_assoc, List.append_assoc, List.cons_append]
        exact List.perm_middle.append_left l₁
      exact hmid.trans h.all
    have hnumber : ∀ q < 32, ((unlinkWP p (l₁.getLast?.or none) w).wpPool q).NO = q :=
      fun q hq => (unlinkWP_number p _ w q).trans (h.number q hq)
    obtain ⟨w', hw', hlists⟩ := freeWP_lists hhead hfree hall hnumber
    refine ⟨w', l₁ ++ l₂, p :: free, ?_, hlists, ?_, fun hn => absurd hmem hn⟩
    · rw [hfind, decide_eq_true hmem]
      dsimp only
      rw [hw']
    · have hfresh : p ∉ l₁ := fun hp₁ =>
        List.disjoint_of_nodup_append (List.nodup_append.mp h.nodup).1 hp₁ List.mem_cons_self
      rw [← List.map_erase Nat.cast_injective, List.erase_append_right _ hfresh, List.erase_cons_head]

end Calls

section History

/-- Every call leaves the two lists as they were or moves one entry. -/
theorem history_lists (h : WatchHistory P w act) : ∃ active free, w.Lists active free ∧ active.map Nat.cast = act := by
  induction h with
  | init w => exact ⟨[], _, init_lists w, rfl⟩
  | @set w act e s n s' w' _ hset hn hlt ih =>
    obtain ⟨active, free, hlists, rfl⟩ := ih
    rcases set_cases hlists P e s with ⟨s'', -, hfail⟩ | ⟨stop, s'', -, hstop⟩ |
        ⟨val, s'', p, rest, w'', -, -, hok, hlists'⟩ | ⟨s'', -, hassert⟩
    · cases hfail.symm.trans hset
      exact absurd rfl hn
    · cases hstop.symm.trans hset
    · cases hok.symm.trans hset
      exact ⟨_, _, hlists', rfl⟩
    · cases hassert.symm.trans hset
  | @fails w act e s s' w' _ hset ih =>
    obtain ⟨active, free, hlists, rfl⟩ := ih
    rcases set_cases hlists P e s with ⟨s'', -, hfail⟩ | ⟨stop, s'', -, hstop⟩ |
        ⟨val, s'', p, rest, w'', -, -, hok, hlists'⟩ | ⟨s'', -, hassert⟩
    · cases hfail.symm.trans hset
      exact ⟨_, _, hlists, rfl⟩
    · cases hstop.symm.trans hset
    · cases hok.symm.trans hset
    · cases hassert.symm.trans hset
  | @stops w act e s stop s' w' _ hset ih =>
    obtain ⟨active, free, hlists, rfl⟩ := ih
    rcases set_cases hlists P e s with ⟨s'', -, hfail⟩ | ⟨stop, s'', -, hstop⟩ |
        ⟨val, s'', p, rest, w'', -, -, hok, hlists'⟩ | ⟨s'', -, hassert⟩
    · cases hfail.symm.trans hset
    · cases hstop.symm.trans hset
      exact ⟨_, _, hlists, rfl⟩
    · cases hok.symm.trans hset
    · cases hassert.symm.trans hset
  | @delete w act NO s s' w' _ hdel ih =>
    obtain ⟨active, free, hlists, rfl⟩ := ih
    obtain ⟨w'', active', free', hw, hlists', herase, -⟩ := delete_lists hlists NO s
    have heq := hw.symm.trans hdel
    rw [EStateM.Result.ok.injEq, Monitor.mk.injEq] at heq
    obtain ⟨-, -, rfl⟩ := heq
    exact ⟨active', free', hlists', herase⟩
  | @misses w act NO s s' w' _ hdel ih =>
    obtain ⟨active, free, hlists, rfl⟩ := ih
    obtain ⟨w'', active', free', hw, -, -, hkeep⟩ := delete_lists hlists NO s
    have heq := hw.symm.trans hdel
    rw [EStateM.Result.ok.injEq, Monitor.mk.injEq] at heq
    obtain ⟨hmem, -, rfl⟩ := heq
    rw [hkeep (of_decide_eq_false hmem)]
    exact ⟨active, free, hlists, rfl⟩

/-- After every history of calls the active and the free list are a partition of the pool, the active
numbers are those that were returned and not deleted since, and what the next call does. -/
theorem watchpoint_history (h : WatchHistory P w act) :
    ∃ active free, w.Lists active free ∧ active.map Nat.cast = act ∧
      (∀ e s s', expr P e s = .error .fail s' → setWatchpoint P e ⟨s, w⟩ = .ok (-1) ⟨s', w⟩) ∧
      (∀ e s stop s', expr P e s = .error stop s' → stop ≠ .fail →
        setWatchpoint P e ⟨s, w⟩ = .error (.expr stop) ⟨s', w⟩) ∧
      (∀ e s val s', expr P e s = .ok val s' → act.length < 32 → ∃ (p : Nat) (w' : WatchPool) (free' : List Nat),
        setWatchpoint P e ⟨s, w⟩ = .ok (p : Int) ⟨s', w'⟩ ∧ (p : Int) ∉ act ∧ w'.Lists (p :: active) free') ∧
      ∀ NO s, ∃ w' active' free', deleteWatchpoint NO ⟨s, w⟩ = .ok (decide (NO ∈ act)) ⟨s, w'⟩ ∧
        w'.Lists active' free' ∧ active'.map Nat.cast = act.erase NO ∧ (NO ∉ act → w' = w) := by
  obtain ⟨active, free, hlists, rfl⟩ := history_lists h
  refine ⟨active, free, hlists, rfl, fun e s s' => set_fails, fun e s stop s' => set_stops, ?_,
    fun NO s => delete_lists hlists NO s⟩
  intro e s val s' hexpr hlt
  rw [List.length_map] at hlt
  obtain ⟨p, rest, rfl⟩ := hlists.exists_free hlt
  obtain ⟨w', hset, hlists'⟩ := set_lists hlists hexpr
  refine ⟨p, w', rest, hset, ?_, hlists'⟩
  intro hmem
  obtain ⟨q, hq, hcast⟩ := List.mem_map.mp hmem
  obtain rfl : q = p := Nat.cast_injective hcast
  exact (List.nodup_cons.mp (List.nodup_append.mp hlists'.nodup).1).1 hq

def WatchPool.zero : WatchPool := ⟨fun _ => ⟨0, none, none, 0⟩, none, none⟩

/-- Two watchpoints are set, the first one is deleted, and cannot be deleted again. -/
theorem watchpoint_history_deleted : ∃ (w : WatchPool) (p q : Nat) (active free : List Nat),
    WatchHistory (Platform.bare .standalone) w [(q : Int)] ∧ p ≠ q ∧ w.Lists active free ∧
      active.map Nat.cast = [(q : Int)] ∧ ∀ s, deleteWatchpoint p ⟨s, w⟩ = .ok false ⟨s, w⟩ := by
  have hexpr : expr (Platform.bare .standalone) ['1'] (Machine.reset (Platform.bare .standalone) fun _ => 0) =
      .ok 1 (Machine.reset (Platform.bare .standalone) fun _ => 0) := rfl
  obtain ⟨_, _, _, _, _, _, hset, _⟩ := watchpoint_history (.init (P := Platform.bare .standalone) .zero)
  obtain ⟨p, _, _, hp, _⟩ := hset _ _ _ _ hexpr (by decide)
  have h1 : WatchHistory (Platform.bare .standalone) _ [(p : Int)] :=
    .set (.init .zero) hp (by omega) (by decide)
  obtain ⟨_, _, _, _, _, _, hset, _⟩ := watchpoint_history h1
  obtain ⟨q, w, _, hq, hfresh, _⟩ := hset _ _ _ _ hexpr (by simp)
  have h2 : WatchHistory (Platform.bare .standalone) w [(q : Int), p] := .set h1 hq (by omega) (by simp)
  have hne : (q : Int) ≠ p := fun h => hfresh (List.mem_singleton.mpr h)
  obtain ⟨_, _, _, _, _, _, _, hdelete⟩ := watchpoint_history h2
  obtain ⟨w', _, _, hd, _⟩ := hdelete p (Machine.reset (Platform.bare .standalone) fun _ => 0)
  rw [decide_eq_true (by simp)] at hd
  have h3 := WatchHistory.delete h2 hd
  have herase : [(q : Int), p].erase p = [(q : Int)] := by simp [hne]
  rw [herase] at h3
  obtain ⟨active, free, hlists, hact, _, _, _, hdelete⟩ := watchpoint_history h3
  refine ⟨w', p, q, active, free, h3, fun h => hne (by rw [h]), hlists, hact, fun s => ?_⟩
  obtain ⟨w₄, _, _, hd, _, _, hsame⟩ := hdelete p s
  have hgone : (p : Int) ∉ [(q : Int)] := fun h => hne (List.mem_singleton.mp h).symm
  rw [hsame hgone, decide_eq_false hgone] at hd
  exact hd

end History

end Nemu
