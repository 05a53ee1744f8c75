import Nemu.ExprOutline

namespace Nemu

set_option autoImplicit true

/-- A range of tokens may begin behind it. -/
def Token.opens : Token → Bool
  | op _ | lparen => true
  | _ => false

/-- A range of tokens may end before it. -/
def Token.closes : Token → Bool
  | op o => !o.isUnary
  | rparen => true
  | _ => false

/-- Tokens, with `TK_NEG` and `TK_REF` detected, that may be split anywhere without harm. -/
structure Tame (ts : List Token) : Prop where
  /-- where a range may begin before a token and end behind it, the token is an operand -/
  operand : ∀ p t q, ts = p ++ t :: q → p.getLast?.all Token.opens = true → q.head?.all Token.closes = true →
    t.isOperand = true
  /-- a divisor is written as a number -/
  divisor : ∀ p o q, ts = p ++ .op (.bin o) :: q → o = .div ∨ o = .mod →
    ∃ str, q.head? = some (.num str) ∧ strtoul str ≠ 0
  unary : UnaryFirst ts
  noRef : Token.op (.un .ref) ∉ ts

variable {P : Platform} {ts l r p q : List Token} {dom dom' : Option (Nat × Op)} {i i' j level fuel : Nat}
  {s t : Machine} {v : Word}

theorem Tame.inner (h : Tame (p ++ ts ++ q)) (hp : p.getLast?.all Token.opens = true)
    (hq : q.head?.all Token.closes = true) : Tame ts where
  operand p' t q' hts hp' hq' := by
    have hwhole : p ++ ts ++ q = (p ++ p') ++ t :: (q' ++ q) := by
      rw [hts, List.append_assoc, List.append_assoc, List.append_assoc]
      rfl
    apply h.operand (p ++ p') t (q' ++ q) hwhole
    · rw [List.getLast?_append]
      cases hlast : p'.getLast? with
      | none => exact hp
      | some t' =>
        rw [hlast] at hp'
        exact hp'
    · cases q' with
      | nil => exact hq
      | cons t' q' => exact hq'
  divisor p' o q' hts ho := by
    have hwhole : p ++ ts ++ q = (p ++ p') ++ .op (.bin o) :: (q' ++ q) := by
      rw [hts, List.append_assoc, List.append_assoc, List.append_assoc]
      rfl
    obtain ⟨str, hhead, hstr⟩ := h.divisor (p ++ p') o (q' ++ q) hwhole ho
    cases q' with
    | nil =>
      have hq : (some (Token.num str)).all Token.closes = true := by
        rw [← hhead]
        exact hq
      cases hq
    | cons t' q' => exact ⟨str, hhead, hstr⟩
  unary := h.unary.left_of_append.right_of_append
  noRef hmem := h.noRef (List.mem_append_left _ (List.mem_append_right _ hmem))

section Scan

/-- Once the dominant operator is found, nothing behind it takes its place. -/
theorem scan_behind {o : Op} (h : findDominatedOpFrom (l ++ .op o :: r) i level dom = some (i + l.length, o))
    (hdom : ∀ d ∈ dom, d.1 < i) :
    findDominatedOpFrom r (i + l.length + 1) 0 (some (i + l.length, o)) = some (i + l.length, o) := by
  induction l generalizing i level dom with
  | nil =>
    have hscan : findDominatedOpFrom (.op o :: r) i level dom = some (i, o) := h
    rw [findDominatedOpFrom] at hscan
    split at hscan
    next hset =>
      rw [hset.1] at hscan
      exact hscan
    next =>
      rcases dominated_at hscan with hd | ⟨p, q, -, hi⟩
      · exact absurd (hdom _ hd) (Nat.lt_irrefl i)
      · omega
  | cons t l ih =>
    have hlen : i + (t :: l).length = i + 1 + l.length := by
      rw [List.length_cons]
      omega
    rw [hlen] at h ⊢
    have hlater : ∀ d ∈ dom, d.1 < i + 1 := fun d hd => Nat.lt_succ_of_lt (hdom d hd)
    cases t with
    | num str | reg str => exact ih h hlater
    | lparen => exact ih h hlater
    | rparen =>
      cases level with
      | zero => cases h
      | succ level => exact ih h hlater
    | op o' =>
      rw [List.cons_append, findDominatedOpFrom] at h
      split at h
      next =>
        apply ih h
        intro d hd
        cases hd
        exact Nat.lt_succ_self i
      next => exact ih h hlater

/-- Behind a dominant operator of the first level there is no binary operator to split at. -/
theorem scan_unary {k : Nat} {o : BinOp} (h : findDominatedOpFrom r i level (some (k, .bin o)) = some (k, .bin o))
    (hk : k < i) (ho : o.prec = 1) (hdom : ∀ d ∈ dom, d.2.isUnary = true) {o' : BinOp} :
    findDominatedOpFrom r i' level dom ≠ some (j, .bin o') := by
  induction r generalizing i i' level dom with
  | nil =>
    intro hd
    cases hdom _ hd
  | cons t r ih =>
    have hlater : k < i + 1 := Nat.lt_succ_of_lt hk
    cases t with
    | num str | reg str => exact ih h hlater hdom
    | lparen => exact ih h hlater hdom
    | rparen =>
      cases level with
      | zero => cases h
      | succ level => exact ih h hlater hdom
    | op op =>
      rw [findDominatedOpFrom] at h ⊢
      by_cases hlevel : level = 0
      · have hkept : dominates op (.bin o) = false := by
          by_contra hset
          rw [if_pos ⟨hlevel, Bool.eq_true_of_not_eq_false hset⟩] at h
          rcases dominated_at h with hd | ⟨p, q, -, hi⟩
          · cases hd
            exact Nat.lt_irrefl _ hk
          · omega
        have hunary : op.isUnary = true := by
          cases op with
          | un u => rfl
          | bin b =>
            have hprec : o.prec < b.prec ∨ o.prec = b.prec := by
              rw [ho]
              cases b <;> decide
            have hset : dominates (.bin b) (.bin o) = true := by
              rcases hprec with hlt | heq
              · exact Bool.or_eq_true_iff.mpr (.inl (decide_eq_true hlt))
              · exact Bool.or_eq_true_iff.mpr (.inr (Bool.and_eq_true_iff.mpr ⟨decide_eq_true heq, rfl⟩))
            cases hkept.symm.trans hset
        rw [if_neg fun hset => absurd (hkept.symm.trans hset.2) Bool.false_ne_true] at h
        split
        · apply ih h hlater
          intro d hd
          cases hd
          exact hunary
        · exact ih h hlater hdom
      · rw [if_neg fun hset => hlevel hset.1] at h ⊢
        exact ih h hlater hdom

theorem divisor_whole {o o' : BinOp} (h : findDominatedOp ts = some (i, .bin o)) (ho : o.prec = 1) :
    findDominatedOp (ts.drop (i + 1)) ≠ some (j, .bin o') := by
  have hlen : (ts.take i).length = i := by
    have hshort := (split_shorter h).1
    rw [List.length_take] at hshort ⊢
    omega
  have hscan : findDominatedOpFrom (ts.take i ++ .op (.bin o) :: ts.drop (i + 1)) 0 0 none =
      some (0 + (ts.take i).length, .bin o) := by
    rw [← split_at h, hlen, Nat.zero_add]
    exact h
  have hbehind := scan_behind hscan fun d hd => by cases hd
  exact scan_unary hbehind (Nat.lt_succ_self _) ho fun d hd => by cases hd

end Scan

section Ranges

theorem Tame.single {u : Token} (h : Tame [u]) : u.isOperand = true := h.operand [] u [] rfl rfl rfl

theorem Tame.stripped (h : Tame (.lparen :: ts)) (hlast : ts.getLast? = some .rparen) : Tame ts.dropLast := by
  apply Tame.inner (p := [.lparen]) (q := [.rparen])
  · rw [List.append_assoc, List.dropLast_append_getLast? _ hlast]
    exact h
  · rfl
  · rfl

theorem Tame.left {o : BinOp} (h : Tame ts) (hdom : findDominatedOp ts = some (i, .bin o)) : Tame (ts.take i) := by
  apply Tame.inner (p := []) (q := .op (.bin o) :: ts.drop (i + 1))
  · rw [List.nil_append, ← split_at hdom]
    exact h
  · rfl
  · rfl

theorem Tame.right {o : Op} (h : Tame ts) (hdom : findDominatedOp ts = some (i, o)) : Tame (ts.drop (i + 1)) := by
  apply Tame.inner (p := ts.take i ++ [.op o]) (q := [])
  · rw [List.append_nil, List.append_assoc, List.singleton_append, ← split_at hdom]
    exact h
  · rw [List.getLast?_concat]
    rfl
  · rfl

/-- A divisor that has a value is the number that it begins with. -/
theorem Tame.divisor_ne_zero {o : BinOp} (h : Tame ts) (hdom : findDominatedOp ts = some (i, .bin o))
    (ho : o = .div ∨ o = .mod) (hrun : (outline fuel (ts.drop (i + 1))).run P s = .ok v t) : v ≠ 0 := by
  obtain ⟨str, hhead, hstr⟩ := h.divisor _ _ _ (split_at hdom) ho
  have hprec : o.prec = 1 := by
    rcases ho with rfl | rfl
    · rfl
    · rfl
  have hwhole : ∀ j o', findDominatedOp (ts.drop (i + 1)) ≠ some (j, .bin o') := fun j o' => divisor_whole hdom hprec
  have hunary := (h.right hdom).unary
  obtain ⟨r, hr⟩ := List.head?_eq_some_iff.mp hhead
  rw [hr] at hrun hwhole hunary
  cases r with
  | nil =>
    have hval : (pure (strtoul str) : Evaluation Word) s = .ok v t := by
      cases fuel <;> exact hrun
    cases hval
    exact hstr
  | cons u r =>
    cases fuel with
    | zero => cases hrun
    | succ fuel =>
      rw [outline, if_neg fun hpair => by cases hpair.1] at hrun
      cases hsplit : findDominatedOp (.num str :: u :: r) with
      | none =>
        rw [hsplit] at hrun
        cases hrun
      | some d =>
        obtain ⟨j, o'⟩ := d
        cases o' with
        | un u' => cases (un_leads hsplit hunary).2
        | bin b => exact absurd hsplit (hwhole j b)

end Ranges

end Nemu
