import Nemu.ExprTokens

namespace Nemu

open Effect

set_option autoImplicit true

/-- The evaluation ends with a value or with `*success` set to `false`. -/
def Settles (m : Evaluation Word) (s : Machine) : Prop := (∃ v t, m s = .ok v t) ∨ ∃ t, m s = .error .fail t

/-- Every single token that is evaluated is a number or a register, no divisor is zero and no read
is refused. -/
def Outline.Safe (P : Platform) : Outline → Machine → Prop
  | single t, _ => t.isOperand = true
  | missing, _ => True
  | un o e, s => e.Safe P s ∧
      ∀ v t, e.run P s = .ok v t → o = .ref → ∃ w u, vaddrReadSafe P v 4 t = .ok w u
  | bin o l r, s => l.Safe P s ∧
      ∀ v t, l.run P s = .ok v t → r.Safe P t ∧
        ∀ v' t', r.run P t = .ok v' t' → o = .div ∨ o = .mod → v' ≠ 0

/-- `expr`, with a bound on the rounds of its loop and on the depth of its recursion. -/
def exprRounds (P : Platform) (n : Nat) (e : List Char) : Evaluation Word :=
  match makeToken n e [] with
  | .error stop => throw stop
  | .ok tokens => eval P n (detectUnary none tokens)

variable {P : Platform} {e cs : List Char} {acc ts : List Token} {fuel n len : Nat} {out : Outline}
  {s t : Machine} {v : Word} {stop : ExprStop} {type : TokenType}

section Tokenize

theorem rule_of_firstRule (h : firstRule e = some (len, type)) : ∃ r ∈ rules, r.tokenType = type := by
  obtain ⟨r, hr, hm⟩ := List.exists_of_findSome?_eq_some h
  cases hlen : r.regex.matchLen e with
  | none =>
    rw [hlen] at hm
    cases hm
  | some n =>
    rw [hlen] at hm
    cases hm
    exact ⟨r, hr, rfl⟩

def TokenType.made : TokenType → Bool
  | op o => o.raw == o
  | _ => true

theorem token_made (hmade : type.made = true) {str : List Char} {t : Token} (h : type.token str = some t) :
    t.made = t := by
  cases type with
  | notype => cases h
  | num | reg | lparen | rparen =>
    cases h
    rfl
  | op o =>
    cases h
    exact congrArg Token.op (beq_iff_eq.mp hmade)

/-- No rule gives `TK_NEG` or `TK_REF`. -/
theorem tokenize_made : ∀ t ∈ (tokenize fuel e).1, t.made = t := by
  have hrules : rules.all (fun r => r.tokenType.made) = true := rfl
  induction fuel generalizing e with
  | zero =>
    intro t ht
    cases e <;> cases ht
  | succ fuel ih =>
    intro t ht
    cases e with
    | nil => cases ht
    | cons c e =>
      rw [tokenize] at ht
      cases hrule : firstRule (c :: e) with
      | none =>
        rw [hrule] at ht
        cases ht
      | some r =>
        obtain ⟨len, type⟩ := r
        rw [hrule] at ht
        rcases List.mem_append.mp ht with ht | ht
        · obtain ⟨r, hr, rfl⟩ := rule_of_firstRule hrule
          exact token_made (List.all_eq_true.mp hrules r hr) (Option.mem_toList.mp ht)
        · exact ih t ht

theorem tokenize_length : (tokenize fuel e).1.length ≤ e.length := by
  induction fuel generalizing e with
  | zero => cases e <;> exact Nat.zero_le _
  | succ fuel ih =>
    cases e with
    | nil => exact Nat.zero_le _
    | cons c e =>
      rw [tokenize]
      cases hrule : firstRule (c :: e) with
      | none => exact Nat.zero_le _
      | some r =>
        obtain ⟨len, type⟩ := r
        have hlen := firstRule_pos hrule
        have hrest := ih (e := (c :: e).drop len)
        have hone : (type.token ((c :: e).take len)).toList.length ≤ 1 := by
          cases type.token ((c :: e).take len)
          · exact Nat.zero_le 1
          · exact Nat.le_refl 1
        dsimp only
        rw [List.length_drop, List.length_cons] at hrest
        rw [List.length_append, List.length_cons]
        omega

theorem makeToken_fits (hroom : acc.length + (tokenize fuel e).1.length ≤ 32)
    (hstr : ∀ t ∈ (tokenize fuel e).1, t.str.length < 32) :
    makeToken fuel e acc =
      if (tokenize fuel e).2 = true then .ok (acc ++ (tokenize fuel e).1) else .error .fail := by
  induction fuel generalizing e acc with
  | zero =>
    cases e with
    | nil => exact congrArg Except.ok (List.append_nil acc).symm
    | cons c e => rfl
  | succ fuel ih =>
    cases e with
    | nil => exact congrArg Except.ok (List.append_nil acc).symm
    | cons c e =>
      rw [tokenize] at hroom hstr ⊢
      rw [makeToken]
      cases hrule : firstRule (c :: e) with
      | none => rfl
      | some r =>
        obtain ⟨len, type⟩ := r
        rw [hrule] at hroom hstr
        dsimp only at hroom hstr ⊢
        cases htok : type.token ((c :: e).take len) with
        | none =>
          rw [htok] at hroom hstr
          exact ih hroom hstr
        | some t =>
          rw [htok] at hroom hstr
          rw [Option.toList_some, List.singleton_append, List.length_cons] at hroom
          have hpush : pushToken acc t = .ok (acc ++ [t]) :=
            pushToken_room (by omega) (hstr t List.mem_cons_self)
          have hrest : makeToken fuel ((c :: e).drop len) (acc ++ [t]) = _ :=
            ih (by rw [List.length_append, List.length_singleton]; omega)
              fun t' ht' => hstr t' (List.mem_cons_of_mem t ht')
          rw [List.append_assoc] at hrest
          dsimp only
          rw [hpush]
          exact hrest

theorem makeToken_overflow (hacc : acc.length ≤ 32)
    (h : ¬ (acc.length + (tokenize fuel e).1.length ≤ 32 ∧ ∀ t ∈ (tokenize fuel e).1, t.str.length < 32)) :
    makeToken fuel e acc = .error .overflow := by
  have hnone : ¬ (acc.length + ([] : List Token).length ≤ 32 ∧ ∀ t ∈ ([] : List Token), t.str.length < 32) →
      False := fun h => h ⟨hacc, fun t ht => absurd ht List.not_mem_nil⟩
  induction fuel generalizing e acc with
  | zero => cases e <;> exact (hnone h).elim
  | succ fuel ih =>
    cases e with
    | nil => exact (hnone h).elim
    | cons c e =>
      rw [tokenize] at h
      rw [makeToken]
      cases hrule : firstRule (c :: e) with
      | none =>
        rw [hrule] at h
        exact (hnone h).elim
      | some r =>
        obtain ⟨len, type⟩ := r
        rw [hrule] at h
        dsimp only at h ⊢
        cases htok : type.token ((c :: e).take len) with
        | none =>
          rw [htok] at h
          exact ih hacc h hnone
        | some t =>
          rw [htok] at h
          dsimp only
          by_cases hpush : acc.length < 32 ∧ t.str.length < 32
          · rw [pushToken_room hpush.1 hpush.2]
            have hlen : (acc ++ [t]).length = acc.length + 1 := List.length_append
            change makeToken fuel ((c :: e).drop len) (acc ++ [t]) = .error .overflow
            apply ih
            · omega
            · rintro ⟨hroom, hstr⟩
              apply h
              constructor
              · rw [Option.toList_some, List.singleton_append, List.length_cons]
                omega
              · intro t' ht'
                rcases List.mem_cons.mp ht' with rfl | ht'
                · exact hpush.2
                · exact hstr t' ht'
            · exact fun h => h ⟨by rw [List.length_nil]; omega, fun t ht => absurd ht List.not_mem_nil⟩
          · have hstop : pushToken acc t = .error .overflow := if_neg hpush
            rw [hstop]
            rfl

theorem makeToken_ok (h : makeToken fuel e [] = .ok ts) : ts = (tokenize fuel e).1 := by
  by_cases hfits : ([] : List Token).length + (tokenize fuel e).1.length ≤ 32 ∧
      ∀ t ∈ (tokenize fuel e).1, t.str.length < 32
  · rw [makeToken_fits hfits.1 hfits.2] at h
    split at h
    · cases h
      rfl
    · cases h
  · have hlex : makeToken fuel e [] = .error .overflow := makeToken_overflow (Nat.zero_le 32) hfits
    cases hlex.symm.trans h

end Tokenize

section Ends

theorem outline_fuel (hf : ts.length ≤ fuel) : outline fuel ts = outline ts.length ts := by
  have hany : ∀ {fuel fuel' : Nat} {ts : List Token}, ts.length ≤ fuel → ts.length ≤ fuel' →
      outline fuel ts = outline fuel' ts := by
    intro fuel
    induction fuel with
    | zero =>
      intro fuel' ts hf hf'
      cases ts with
      | nil => cases fuel' <;> rfl
      | cons t ts => cases hf
    | succ fuel ih =>
      intro fuel' ts hf hf'
      cases fuel' with
      | zero =>
        cases ts with
        | nil => rfl
        | cons t ts => cases hf'
      | succ fuel' =>
        match ts, hf, hf' with
        | [], _, _ => rfl
        | [t], _, _ => rfl
        | t :: t' :: ts, hf, hf' =>
          have hshort : ∀ us : List Token, us.length < (t :: t' :: ts).length →
              outline fuel us = outline fuel' us := fun us hus => ih (by omega) (by omega)
          rw [outline, outline]
          split
          · apply hshort
            simp only [List.length_dropLast, List.length_cons]
            omega
          · cases hdom : findDominatedOp (t :: t' :: ts) with
            | none => rfl
            | some d =>
              obtain ⟨i, o⟩ := d
              obtain ⟨hltake, hldrop⟩ := split_shorter hdom
              have hright : outline fuel ((t :: t' :: ts).drop (i + 1)) =
                  outline fuel' ((t :: t' :: ts).drop (i + 1)) := hshort _ hldrop
              have hleft : outline fuel ((t :: t' :: ts).take i) =
                  outline fuel' ((t :: t' :: ts).take i) := hshort _ hltake
              cases o with
              | un o => exact congrArg (Outline.un o) hright
              | bin o => exact congrArg₂ (Outline.bin o) hleft hright
  exact hany hf (Nat.le_refl _)

theorem exprRounds_enough (P : Platform) (hn : cs.length ≤ n) : exprRounds P n cs = expr P cs := by
  unfold exprRounds expr
  rw [makeToken_fuel hn (Nat.le_refl _)]
  cases hmake : makeToken cs.length cs [] with
  | error stop => rfl
  | ok tokens =>
    have hlen : (detectUnary none tokens).length ≤ n := by
      rw [detect_length, makeToken_ok hmake]
      exact tokenize_length.trans hn
    dsimp only
    rw [eval_outline, eval_outline, outline_fuel hlen, detect_length]

end Ends

section Settles

variable {m : Evaluation Word} {k : Word → Evaluation Word}

theorem settles_bind : Settles (m >>= k) s ↔ Settles m s ∧ ∀ v t, m s = .ok v t → Settles (k v) t := by
  cases hm : m s with
  | ok v t =>
    have hrun : Settles (m >>= k) s ↔ Settles (k v) t := by
      unfold Settles
      rw [bind_ok hm]
    rw [hrun]
    constructor
    · intro h
      refine ⟨.inl ⟨v, t, hm⟩, fun v' t' heq => ?_⟩
      cases heq
      exact h
    · intro h
      exact h.2 v t rfl
  | error e t =>
    have hrun : Settles (m >>= k) s ↔ Settles m s := by
      unfold Settles
      rw [bind_error hm, hm]
    rw [hrun]
    constructor
    · intro h
      refine ⟨h, fun v' t' heq => ?_⟩
      cases heq
    · exact fun h => h.1

theorem settles_un (o : UnOp) :
    Settles (applyUn P o v) s ↔ (o = .ref → ∃ w t, vaddrReadSafe P v 4 s = .ok w t) := by
  cases o with
  | bang | neg =>
    apply iff_of_true (.inl ⟨_, _, rfl⟩)
    intro h
    cases h
  | ref =>
    constructor
    · rintro (h | ⟨t, h⟩) -
      · exact h
      · exact absurd h (applyUn_no_fail .ref)
    · exact fun h => .inl (h rfl)

theorem settles_bin (o : BinOp) {v1 v2 : Word} :
    Settles (applyBin o v1 v2) s ↔ (o = .div ∨ o = .mod → v2 ≠ 0) := by
  unfold Settles
  rcases applyBin_ends o v1 v2 s with ⟨ho, hz, hend⟩ | ⟨ho, v, hend⟩
  · rw [hend]
    constructor
    · rintro (⟨v, t, h⟩ | ⟨t, h⟩)
      · cases h
      · cases h
    · exact fun h => absurd hz (h ho)
  · exact iff_of_true (.inl ⟨v, s, hend⟩) ho

theorem run_settles_iff : Settles (out.run P) s ↔ out.Safe P s := by
  induction out generalizing s with
  | single t =>
    have hrun : (Outline.single t).run P s = evalToken t s := rfl
    unfold Settles
    rw [hrun]
    rcases evalToken_cases t s with ⟨hknown, v, hval⟩ | ⟨hop, -, hval⟩ | ⟨hop, hval⟩
    · exact iff_of_true (.inl ⟨v, s, hval⟩) (known_operand hknown)
    · exact iff_of_true (.inr ⟨s, hval⟩) hop
    · rw [hval]
      constructor
      · rintro (⟨v, t, h⟩ | ⟨t, h⟩)
        · cases h
        · cases h
      · intro h
        exact absurd (hop.symm.trans h) Bool.false_ne_true
  | missing => exact iff_of_true (.inr ⟨s, rfl⟩) trivial
  | un o e ih =>
    rw [Outline.run, settles_bind, Outline.Safe, ih]
    exact and_congr_right fun _ => forall₃_congr fun v t _ => settles_un o
  | bin o l r ihl ihr =>
    rw [Outline.run, settles_bind, Outline.Safe, ihl]
    apply and_congr_right
    intro _
    apply forall₃_congr
    intro v t _
    rw [settles_bind, ihr]
    exact and_congr_right fun _ => forall₃_congr fun v' t' _ => settles_bin o

theorem run_complete (h : out.run P s = .ok v t) : out.Complete := by
  induction out generalizing s v t with
  | single u =>
    have hrun : evalToken u s = .ok v t := h
    rcases evalToken_cases u s with ⟨hknown, -⟩ | ⟨-, -, hval⟩ | ⟨-, hval⟩
    · exact hknown
    · cases hval.symm.trans hrun
    · cases hval.symm.trans hrun
  | missing => cases h
  | un o e ih =>
    obtain ⟨_, _, he, -⟩ := ok_of_bind h
    exact ih he
  | bin o l r ihl ihr =>
    obtain ⟨_, _, hl, h⟩ := ok_of_bind h
    obtain ⟨_, _, hr, -⟩ := ok_of_bind h
    exact ⟨ihl hl, ihr hr⟩

theorem safe_lacks (h : out.Safe P s) (hc : ¬ out.Complete) : out.Lacks P s := by
  rcases run_settles_iff.mpr h with ⟨v, t, hrun⟩ | hfail
  · exact absurd (run_complete hrun) hc
  · exact run_fail_iff.mp hfail

theorem tame_safe (h : Tame ts) : (outline fuel ts).Safe P s := by
  induction fuel generalizing ts s with
  | zero =>
    match ts with
    | [] => trivial
    | [u] => exact h.single
    | u :: u' :: us => trivial
  | succ fuel ih =>
    match ts with
    | [] => trivial
    | [u] => exact h.single
    | u :: u' :: us =>
      rw [outline]
      split
      next hpair =>
        obtain ⟨rfl, hlast⟩ := hpair
        exact ih (h.stripped hlast)
      next =>
        cases hdom : findDominatedOp (u :: u' :: us) with
        | none => trivial
        | some d =>
          obtain ⟨i, o⟩ := d
          cases o with
          | un o =>
            refine ⟨ih (h.right hdom), fun v t _ href => ?_⟩
            obtain ⟨-, rfl⟩ := un_leads hdom h.unary
            cases href
            exact absurd List.mem_cons_self h.noRef
          | bin o =>
            refine ⟨ih (h.left hdom), fun v t _ => ⟨ih (h.right hdom), fun v' t' hrun ho => ?_⟩⟩
            exact h.divisor_ne_zero hdom ho hrun

end Settles

section Expr

theorem expr_splitting (hscan : tokenize cs.length cs = (ts, true)) (hfits : Fits ts) :
    expr P cs = (splitting ts).run P := by
  have hfirst : (tokenize cs.length cs).1 = ts := congrArg Prod.fst hscan
  have hall : (tokenize cs.length cs).2 = true := congrArg Prod.snd hscan
  have hroom : ([] : List Token).length + (tokenize cs.length cs).1.length ≤ 32 := by
    rw [hfirst, List.length_nil, Nat.zero_add]
    exact hfits.1
  have hlex := makeToken_fits hroom (by rw [hfirst]; exact hfits.2)
  rw [if_pos hall, hfirst, List.nil_append] at hlex
  rw [expr_lexed hlex, eval_outline]
  rfl

theorem expr_unmatched (hall : (tokenize cs.length cs).2 = false) (hfits : Fits (tokenize cs.length cs).1) :
    expr P cs s = .error .fail s := by
  have hroom : ([] : List Token).length + (tokenize cs.length cs).1.length ≤ 32 := by
    rw [List.length_nil, Nat.zero_add]
    exact hfits.1
  have hlex := makeToken_fits hroom hfits.2
  rw [hall, if_neg Bool.false_ne_true] at hlex
  unfold expr
  rw [hlex]
  rfl

theorem expr_overflow (hfits : ¬ Fits (tokenize cs.length cs).1) : expr P cs s = .error .overflow s := by
  have hlex : makeToken cs.length cs [] = .error .overflow := by
    have hroom : ¬ (([] : List Token).length + (tokenize cs.length cs).1.length ≤ 32 ∧
        ∀ t ∈ (tokenize cs.length cs).1, t.str.length < 32) := by
      rw [List.length_nil, Nat.zero_add]
      exact hfits
    exact makeToken_overflow (Nat.zero_le 32) hroom
  unfold expr
  rw [hlex]
  rfl

/-- Tokens that are no expression are rejected exactly if there is room for them, no `!` behind an
operand lets what stands before it be ignored, and the first thing in the way of a value is a missing
operand or an unknown register. So they are where the tokens are tame. -/
theorem expr_rejects_iff (hscan : tokenize cs.length cs = (ts, true)) :
    ((¬ Derivable ts → ∃ t, expr P cs s = .error .fail t) ↔
      (¬ Derivable ts → Fits ts) ∧ ((splitting ts).Complete → UnaryFirst ts) ∧
        (¬ Derivable ts → ¬ (splitting ts).Complete → (splitting ts).Lacks P s)) ∧
      (Fits ts → Tame (detectUnary none ts) → ¬ Derivable ts → ∃ t, expr P cs s = .error .fail t) := by
  have hfirst : (tokenize cs.length cs).1 = ts := congrArg Prod.fst hscan
  have hmade : ∀ t ∈ ts, t.made = t := by
    rw [← hfirst]
    exact tokenize_made
  refine ⟨⟨?_, ?_⟩, fun hfits htame hd => ?_⟩
  · intro h
    by_cases hd : Derivable ts
    · exact ⟨fun hn => absurd hd hn, fun _ => derivable_unaryFirst hd, fun hn => absurd hd hn⟩
    · obtain ⟨t, hfail⟩ := h hd
      have hfits : Fits ts := by
        by_contra hfits
        rw [expr_overflow (by rw [hfirst]; exact hfits)] at hfail
        cases hfail
      rw [expr_splitting hscan hfits] at hfail
      have hlacks := run_fail_iff.mp ⟨t, hfail⟩
      exact ⟨fun _ => hfits, fun hc => absurd hc (lacks_not_complete hlacks), fun _ _ => hlacks⟩
  · rintro ⟨hfits, hunary, hlacks⟩ hd
    have hincomplete : ¬ (splitting ts).Complete := fun hc => hd (derivable_of_complete hmade (hunary hc) hc)
    rw [expr_splitting hscan (hfits hd)]
    exact run_fail_iff.mpr (hlacks hd hincomplete)
  · have hincomplete : ¬ (splitting ts).Complete := fun hc => hd (derivable_of_detected hmade htame.unary hc)
    rw [expr_splitting hscan hfits]
    exact run_fail_iff.mpr (safe_lacks (tame_safe htame) hincomplete)

theorem expr_rejects_trailing :
    ¬ Derivable [.num ['1'], .op (.un .bang)] ∧ ∃ t, expr (Platform.bare .standalone) ['1', '!']
      (Machine.reset (Platform.bare .standalone) fun _ => 0) = .error .fail t := by
  have hscan : tokenize ['1', '!'].length ['1', '!'] = ([.num ['1'], .op (.un .bang)], true) := rfl
  have hnot : ¬ Derivable [.num ['1'], .op (.un .bang)] := by
    intro h
    cases (List.isChain_cons_cons.mp (derivable_unaryFirst h)).1
  refine ⟨hnot, (expr_rejects_iff hscan).1.mpr ?_ hnot⟩
  exact ⟨fun _ => ⟨by decide, by decide⟩, fun hc => hc.elim, fun _ _ => trivial⟩

/-- `1 ! 2` is taken for `! 2`. -/
theorem expr_accepts_bang :
    tokenize 5 ['1', ' ', '!', ' ', '2'] = ([.num ['1'], .op (.un .bang), .num ['2']], true) ∧
      ¬ Derivable [.num ['1'], .op (.un .bang), .num ['2']] ∧
      Gives (expr (Platform.bare .standalone) ['1', ' ', '!', ' ', '2'])
        (Machine.reset (Platform.bare .standalone) fun _ => 0) 0 := by
  have hplace : ¬ UnaryFirst [.num ['1'], .op (.un .bang), .num ['2']] := by
    intro h
    cases (List.isChain_cons_cons.mp h).1
  exact ⟨rfl, fun h => hplace (derivable_unaryFirst h), _, rfl⟩

/-- `expr` needs no more rounds than there are characters, and it ends with a value or with a failure
exactly if there is room for the tokens and, where a rule matches everywhere, nothing that is
evaluated is no operand, divides by zero or reads where it may not. So it does where the tokens are
tame. -/
theorem expr_settles_iff :
    (∀ n, cs.length ≤ n → exprRounds P n cs = expr P cs) ∧
      (Settles (expr P cs) s ↔ Fits (tokenize cs.length cs).1 ∧
        ((tokenize cs.length cs).2 = true → (splitting (tokenize cs.length cs).1).Safe P s)) ∧
      (Fits (tokenize cs.length cs).1 → Tame (detectUnary none (tokenize cs.length cs).1) → Settles (expr P cs) s) := by
  have hiff : Settles (expr P cs) s ↔ Fits (tokenize cs.length cs).1 ∧
      ((tokenize cs.length cs).2 = true → (splitting (tokenize cs.length cs).1).Safe P s) := by
    by_cases hfits : Fits (tokenize cs.length cs).1
    · cases hall : (tokenize cs.length cs).2 with
      | false =>
        have hend : Settles (expr P cs) s := .inr ⟨s, expr_unmatched hall hfits⟩
        exact iff_of_true hend ⟨hfits, fun h => absurd h Bool.false_ne_true⟩
      | true =>
        have hscan : tokenize cs.length cs = ((tokenize cs.length cs).1, true) := Prod.ext rfl hall
        rw [expr_splitting hscan hfits, run_settles_iff]
        constructor
        · exact fun h => ⟨hfits, fun _ => h⟩
        · exact fun h => h.2 rfl
    · apply iff_of_false
      · intro h
        unfold Settles at h
        rw [expr_overflow hfits] at h
        rcases h with ⟨v, t, h⟩ | ⟨t, h⟩
        · cases h
        · cases h
      · exact fun h => hfits h.1
  exact ⟨fun n hn => exprRounds_enough P hn, hiff, fun hfits htame => hiff.mpr ⟨hfits, fun _ => tame_safe htame⟩⟩

def ExprStop.isFail : ExprStop → Bool
  | fail => true
  | _ => false

theorem not_settles (h : expr P cs s = .error stop t) (hne : stop.isFail = false) :
    ¬ Settles (expr P cs) s := by
  rintro (⟨v, t', hok⟩ | ⟨t', hfail⟩)
  · cases h.symm.trans hok
  · cases h.symm.trans hfail
    cases hne

/-- A single operator, a division by zero, 33 tokens, and a register with a name of 31 characters. -/
theorem expr_settles_not :
    ¬ Settles (expr (Platform.bare .standalone) ['+']) (Machine.reset (Platform.bare .standalone) fun _ => 0) ∧
      ¬ Settles (expr (Platform.bare .standalone) ['1', '/', '0'])
        (Machine.reset (Platform.bare .standalone) fun _ => 0) ∧
      ¬ Settles (expr (Platform.bare .standalone) (List.replicate 33 '+'))
        (Machine.reset (Platform.bare .standalone) fun _ => 0) ∧
      ¬ Settles (expr (Platform.bare .standalone) ('$' :: List.replicate 31 'a'))
        (Machine.reset (Platform.bare .standalone) fun _ => 0) := by
  have hassert : ∀ P s, expr P ['+'] s = .error .assert s := fun _ _ => rfl
  have hdivide : ∀ P s, expr P ['1', '/', '0'] s = .error .divide s := fun _ _ => rfl
  have htokens : ∀ P s, expr P (List.replicate 33 '+') s = .error .overflow s := fun _ _ => rfl
  have hname : ∀ P s, expr P ('$' :: List.replicate 31 'a') s = .error .overflow s := fun _ _ => rfl
  exact ⟨not_settles (hassert _ _) rfl, not_settles (hdivide _ _) rfl, not_settles (htokens _ _) rfl,
    not_settles (hname _ _) rfl⟩

end Expr

end Nemu
