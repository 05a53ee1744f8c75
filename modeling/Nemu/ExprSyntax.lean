import Nemu.Expr
import Nemu.Lib.Effect
import Mathlib.Algebra.BigOperators.Group.List.Basic

namespace Nemu

open Effect

set_option autoImplicit true

/-- Expressions over operands of type `α`, with the parentheses that they are written with. -/
inductive Ast (α : Type) where
  | leaf (a : α)
  | paren (e : Ast α)
  | un (o : UnOp) (e : Ast α)
  | bin (o : BinOp) (l r : Ast α)

/-- An element of the text of an expression. -/
inductive Tok (α : Type) where
  | operand (a : α)
  | lparen
  | rparen
  | op (o : Op)

/-- The tokens that are made of an element, which are several where the text of an operand is torn
apart. -/
def Tok.expand (leaf : α → List Token) : Tok α → List Token
  | operand a => leaf a
  | lparen => [.lparen]
  | rparen => [.rparen]
  | op o => [.op o]

namespace Ast

def level : Ast α → Nat
  | bin o _ _ => o.prec
  | _ => 0

/-- The usual grouping: by precedence, binary operators to the left. -/
def Grouped : Ast α → Prop
  | leaf _ => True
  | paren e => e.Grouped
  | un _ e => e.Grouped ∧ e.level = 0
  | bin o l r => l.Grouped ∧ r.Grouped ∧ l.level ≤ o.prec ∧ r.level < o.prec

def toks : Ast α → List (Tok α)
  | leaf a => [.operand a]
  | paren e => .lparen :: (e.toks ++ [.rparen])
  | un o e => .op (.un o) :: e.toks
  | bin o l r => l.toks ++ .op (.bin o) :: r.toks

def tokens (leaf : α → List Token) (e : Ast α) : List Token := e.toks.flatMap (Tok.expand leaf)

def leaves : Ast α → List α
  | leaf a => [a]
  | paren e => e.leaves
  | un _ e => e.leaves
  | bin _ l r => l.leaves ++ r.leaves

def opens : Ast α → Bool
  | leaf _ => false
  | paren _ => true
  | un _ _ => false
  | bin _ l _ => l.opens

def closes : Ast α → Bool
  | leaf _ => false
  | paren _ => true
  | un _ e => e.closes
  | bin _ _ r => r.closes

/-- The operators that stand outside all parentheses. -/
def topOps : Ast α → List Op
  | leaf _ => []
  | paren _ => []
  | un o e => .un o :: e.topOps
  | bin o l r => l.topOps ++ .bin o :: r.topOps

/-- No operation begins and ends with parentheses that are not a pair. -/
def Unsplit : Ast α → Prop
  | leaf _ => True
  | paren e => e.Unsplit
  | un _ e => e.Unsplit
  | bin _ l r => l.Unsplit ∧ r.Unsplit ∧ (l.opens && r.closes) = false

/-- What an expression means: its operands are read and its operators applied from left to right. -/
def denote (P : Platform) (operand : α → Evaluation Word) : Ast α → Evaluation Word
  | leaf a => operand a
  | paren e => e.denote P operand
  | un o e => do
    let val ← e.denote P operand
    applyUn P o val
  | bin o l r => do
    let val1 ← l.denote P operand
    let val2 ← r.denote P operand
    applyBin o val1 val2

def run (P : Platform) (operand : α → Evaluation Word) : Ast α → Evaluation Word
  | leaf a => operand a
  | paren e => e.run P operand
  | un o e => do
    let val ← e.run P operand
    applyUn P o val
  | bin o l r =>
    if l.opens && r.closes then throw .fail
    else do
      let val1 ← l.run P operand
      let val2 ← r.run P operand
      applyBin o val1 val2

end Ast

def Token.isOperand : Token → Bool
  | num _ | reg _ => true
  | _ => false

/-- Every operand is made into tokens of operands, at least one. -/
structure OperandTokens (leaf : α → List Token) : Prop where
  nonempty : ∀ a, leaf a ≠ []
  operands : ∀ a, ∀ t ∈ leaf a, t.isOperand = true

/-- What `eval` does with the tokens of an operand. -/
def evalOperand : List Token → Evaluation Word
  | [t] => evalToken t
  | _ => throw .fail

variable {α : Type} {P : Platform} {leaf : α → List Token} {e l r : Ast α} {ts rest : List Token}
  {dom : Option (Nat × Op)} {i level fuel : Nat}

section Tokens

@[simp] theorem tokens_leaf (a : α) : (Ast.leaf a).tokens leaf = leaf a := by
  simp [Ast.tokens, Ast.toks, Tok.expand]

@[simp] theorem tokens_paren : (Ast.paren e).tokens leaf = .lparen :: (e.tokens leaf ++ [.rparen]) := by
  simp [Ast.tokens, Ast.toks, Tok.expand]

@[simp] theorem tokens_un (o : UnOp) : (Ast.un o e).tokens leaf = .op (.un o) :: e.tokens leaf := by
  simp [Ast.tokens, Ast.toks, Tok.expand]

@[simp] theorem tokens_bin (o : BinOp) :
    (Ast.bin o l r).tokens leaf = l.tokens leaf ++ .op (.bin o) :: r.tokens leaf := by
  simp [Ast.tokens, Ast.toks, Tok.expand]

theorem tokens_ne_nil (hl : OperandTokens leaf) (e : Ast α) : e.tokens leaf ≠ [] := by
  cases e with
  | leaf a =>
    rw [tokens_leaf]
    exact hl.nonempty a
  | paren e => simp
  | un o e => simp
  | bin o l r => simp

theorem tokens_head (hl : OperandTokens leaf) (e : Ast α) :
    (e.tokens leaf).head? = some .lparen ↔ e.opens = true := by
  induction e with
  | leaf a =>
    rw [tokens_leaf]
    refine ⟨fun h => ?_, fun h => nomatch h⟩
    have hmem := hl.operands a _ (List.mem_of_mem_head? h)
    cases hmem
  | paren e => simp [Ast.opens]
  | un o e => simp [Ast.opens]
  | bin o l r ihl ihr =>
    rw [tokens_bin, List.head?_append_of_ne_nil _ (tokens_ne_nil hl l)]
    exact ihl

theorem tokens_last (hl : OperandTokens leaf) (e : Ast α) :
    (e.tokens leaf).getLast? = some .rparen ↔ e.closes = true := by
  induction e with
  | leaf a =>
    rw [tokens_leaf]
    refine ⟨fun h => ?_, fun h => nomatch h⟩
    have hmem := hl.operands a _ (List.mem_of_mem_getLast? h)
    cases hmem
  | paren e =>
    rw [tokens_paren, ← List.cons_append, List.getLast?_concat]
    exact iff_of_true rfl rfl
  | un o e ih =>
    rw [tokens_un, List.getLast?_cons_of_ne_nil (tokens_ne_nil hl e)]
    exact ih
  | bin o l r ihl ihr =>
    rw [tokens_bin, List.getLast?_append_cons, List.getLast?_cons_of_ne_nil (tokens_ne_nil hl r)]
    exact ihr

end Tokens

section Scan

theorem scan_operands (h : ∀ t ∈ ts, t.isOperand = true) :
    findDominatedOpFrom (ts ++ rest) i level dom = findDominatedOpFrom rest (i + ts.length) level dom := by
  induction ts generalizing i with
  | nil => rfl
  | cons t ts ih =>
    have ht := h t List.mem_cons_self
    have hrest : findDominatedOpFrom (ts ++ rest) (i + 1) level dom = _ :=
      ih fun t' ht' => h t' (List.mem_cons_of_mem t ht')
    have hlen : i + (t :: ts).length = i + 1 + ts.length := by
      rw [List.length_cons]
      omega
    rw [List.cons_append, hlen, ← hrest]
    cases t with
    | num s | reg s => rfl
    | lparen | rparen | op => cases ht

theorem scan_inner (hl : OperandTokens leaf) (e : Ast α) :
    findDominatedOpFrom (e.tokens leaf ++ rest) i (level + 1) dom =
      findDominatedOpFrom rest (i + (e.tokens leaf).length) (level + 1) dom := by
  induction e generalizing rest i level with
  | leaf a =>
    rw [tokens_leaf]
    exact scan_operands (hl.operands a)
  | paren e ih =>
    rw [tokens_paren, List.cons_append, List.append_assoc]
    have hinner : findDominatedOpFrom (e.tokens leaf ++ ([.rparen] ++ rest)) (i + 1) (level + 1 + 1) dom = _ := ih
    refine hinner.trans ?_
    have hlen : i + (Token.lparen :: (e.tokens leaf ++ [.rparen])).length =
        i + 1 + (e.tokens leaf).length + 1 := by
      rw [List.length_cons, List.length_append, List.length_singleton]
      omega
    rw [hlen]
    rfl
  | un o e ih =>
    rw [tokens_un, List.cons_append]
    have hstep : findDominatedOpFrom (.op (.un o) :: (e.tokens leaf ++ rest)) i (level + 1) dom =
        findDominatedOpFrom (e.tokens leaf ++ rest) (i + 1) (level + 1) dom :=
      if_neg fun h => nomatch h.1
    rw [hstep, ih, List.length_cons]
    congr 1
    omega
  | bin o l r ihl ihr =>
    rw [tokens_bin, List.append_assoc, ihl, List.cons_append]
    have hstep : ∀ j, findDominatedOpFrom (.op (.bin o) :: (r.tokens leaf ++ rest)) j (level + 1) dom =
        findDominatedOpFrom (r.tokens leaf ++ rest) (j + 1) (level + 1) dom :=
      fun j => if_neg fun h => nomatch h.1
    rw [hstep, ihr, List.length_append, List.length_cons]
    congr 1
    omega

theorem scan_paren (hl : OperandTokens leaf) (e : Ast α) :
    findDominatedOpFrom ((Ast.paren e).tokens leaf ++ rest) i 0 dom =
      findDominatedOpFrom rest (i + ((Ast.paren e).tokens leaf).length) 0 dom := by
  rw [tokens_paren, List.cons_append, List.append_assoc]
  have hinner : findDominatedOpFrom (e.tokens leaf ++ ([.rparen] ++ rest)) (i + 1) (0 + 1) dom = _ :=
    scan_inner hl e
  refine hinner.trans ?_
  have hlen : i + (Token.lparen :: (e.tokens leaf ++ [.rparen])).length =
      i + 1 + (e.tokens leaf).length + 1 := by
    rw [List.length_cons, List.length_append, List.length_singleton]
    omega
  rw [hlen]
  rfl

theorem scan_kept (hl : OperandTokens leaf) (e : Ast α) (o : Op)
    (hk : ∀ o' ∈ e.topOps, dominates o' o = false) :
    findDominatedOpFrom (e.tokens leaf ++ rest) i 0 (some (j, o)) =
      findDominatedOpFrom rest (i + (e.tokens leaf).length) 0 (some (j, o)) := by
  have hstep : ∀ (o' : Op) (ts : List Token) (k : Nat), dominates o' o = false →
      findDominatedOpFrom (.op o' :: ts) k 0 (some (j, o)) =
        findDominatedOpFrom ts (k + 1) 0 (some (j, o)) := by
    intro o' ts k ho'
    refine if_neg fun h => ?_
    have hdom : dominates o' o = true := h.2
    exact Bool.false_ne_true (ho'.symm.trans hdom)
  induction e generalizing rest i with
  | leaf a =>
    rw [tokens_leaf]
    exact scan_operands (hl.operands a)
  | paren e => exact scan_paren hl e
  | un u e ih =>
    rw [tokens_un, List.cons_append, hstep _ _ _ (hk _ List.mem_cons_self),
      ih fun o' ho' => hk o' (List.mem_cons_of_mem _ ho'), List.length_cons]
    congr 1
    omega
  | bin b l r ihl ihr =>
    rw [tokens_bin, List.append_assoc, ihl fun o' ho' => hk o' (List.mem_append_left _ ho'),
      List.cons_append, hstep _ _ _ (hk _ (List.mem_append_right _ List.mem_cons_self)),
      ihr fun o' ho' => hk o' (List.mem_append_right _ (List.mem_cons_of_mem _ ho')),
      List.length_append, List.length_cons]
    congr 1
    omega

/-- After an expression the dominant operator is the one before or one of its own. -/
theorem scan_top (hl : OperandTokens leaf) (e : Ast α) (dom : Option (Nat × Op)) :
    ∃ dom', (∀ rest, findDominatedOpFrom (e.tokens leaf ++ rest) i 0 dom =
        findDominatedOpFrom rest (i + (e.tokens leaf).length) 0 dom') ∧
      (dom' = dom ∨ ∃ j, ∃ o ∈ e.topOps, dom' = some (j, o)) := by
  have hstep : ∀ (o : Op) (k : Nat) (d : Option (Nat × Op)), ∃ d' : Option (Nat × Op),
      (∀ ts, findDominatedOpFrom (.op o :: ts) k 0 d = findDominatedOpFrom ts (k + 1) 0 d') ∧
        (d' = d ∨ d' = some (k, o)) := by
    intro o k d
    by_cases h : d.all fun d => dominates o d.2
    · exact ⟨some (k, o), fun ts => if_pos ⟨rfl, h⟩, .inr rfl⟩
    · exact ⟨d, fun ts => if_neg fun h' => h h'.2, .inl rfl⟩
  induction e generalizing i dom with
  | leaf a =>
    refine ⟨dom, fun rest => ?_, .inl rfl⟩
    rw [tokens_leaf]
    exact scan_operands (hl.operands a)
  | paren e => exact ⟨dom, fun rest => scan_paren hl e, .inl rfl⟩
  | un o e ih =>
    obtain ⟨d, hd, hwhich⟩ := hstep (.un o) i dom
    obtain ⟨d', hd', hwhich'⟩ := ih (i := i + 1) d
    refine ⟨d', fun rest => ?_, ?_⟩
    · rw [tokens_un, List.cons_append, hd, hd', List.length_cons]
      congr 1
      omega
    · obtain rfl | ⟨j, o', ho', rfl⟩ := hwhich'
      · obtain rfl | rfl := hwhich
        · exact .inl rfl
        · exact .inr ⟨i, _, List.mem_cons_self, rfl⟩
      · exact .inr ⟨j, o', List.mem_cons_of_mem _ ho', rfl⟩
  | bin o l r ihl ihr =>
    obtain ⟨d₁, hd₁, hwhich₁⟩ := ihl (i := i) dom
    obtain ⟨d₂, hd₂, hwhich₂⟩ := hstep (.bin o) (i + (l.tokens leaf).length) d₁
    obtain ⟨d₃, hd₃, hwhich₃⟩ := ihr (i := i + (l.tokens leaf).length + 1) d₂
    refine ⟨d₃, fun rest => ?_, ?_⟩
    · rw [tokens_bin, List.append_assoc, hd₁, List.cons_append, hd₂, hd₃, List.length_append,
        List.length_cons]
      congr 1
      omega
    · obtain rfl | ⟨j, o', ho', rfl⟩ := hwhich₃
      · obtain rfl | rfl := hwhich₂
        · obtain rfl | ⟨j, o', ho', rfl⟩ := hwhich₁
          · exact .inl rfl
          · exact .inr ⟨j, o', List.mem_append_left _ ho', rfl⟩
        · exact .inr ⟨_, _, List.mem_append_right _ List.mem_cons_self, rfl⟩
      · exact .inr ⟨j, o', List.mem_append_right _ (List.mem_cons_of_mem _ ho'), rfl⟩

theorem topOps_prec (hg : e.Grouped) : ∀ o ∈ e.topOps, opPrec o ≤ e.level := by
  induction e with
  | leaf | paren =>
    intro o ho
    cases ho
  | un u e ih =>
    intro o ho
    obtain rfl | ho := List.mem_cons.mp ho
    · exact Nat.le_refl 0
    · exact (ih hg.1 o ho).trans (Nat.le_of_eq hg.2)
  | bin b l r ihl ihr =>
    obtain ⟨hgl, hgr, hl, hr⟩ := hg
    intro o ho
    obtain ho | ho := List.mem_append.mp ho
    · exact (ihl hgl o ho).trans hl
    obtain rfl | ho := List.mem_cons.mp ho
    · exact Nat.le_refl _
    · exact (ihr hgr o ho).trans hr.le

theorem dominated_un (hl : OperandTokens leaf) (u : UnOp) (hg : (Ast.un u e).Grouped) :
    findDominatedOp ((Ast.un u e).tokens leaf) = some (0, .un u) := by
  have hk : ∀ o ∈ e.topOps, dominates o (.un u) = false := by
    intro o ho
    have hprec := topOps_prec hg.1 o ho
    rw [hg.2] at hprec
    cases o with
    | un => rfl
    | bin b => cases b <;> exact absurd hprec (by decide)
  have hfirst : findDominatedOp (.op (.un u) :: e.tokens leaf) =
      findDominatedOpFrom (e.tokens leaf ++ []) (0 + 1) 0 (some (0, .un u)) := by
    have hnone : 0 = 0 ∧ (none : Option (Nat × Op)).all (fun d => dominates (.un u) d.2) = true :=
      ⟨rfl, rfl⟩
    unfold findDominatedOp
    rw [List.append_nil, findDominatedOpFrom, if_pos hnone]
  rw [tokens_un, hfirst, scan_kept hl e _ hk]
  rfl

theorem dominated_bin (hl : OperandTokens leaf) (b : BinOp) (hg : (Ast.bin b l r).Grouped) :
    findDominatedOp ((Ast.bin b l r).tokens leaf) = some ((l.tokens leaf).length, .bin b) := by
  obtain ⟨hgl, hgr, hleft, hright⟩ := hg
  obtain ⟨d, hd, hwhich⟩ := scan_top (i := 0) hl l none
  have hall : d.all (fun d => dominates (.bin b) d.2) = true := by
    obtain rfl | ⟨j, o, ho, rfl⟩ := hwhich
    · rfl
    · have hprec : opPrec o ≤ b.prec := (topOps_prec hgl o ho).trans hleft
      change dominates (.bin b) o = true
      unfold dominates
      rw [Bool.or_eq_true, Bool.and_eq_true, decide_eq_true_iff, decide_eq_true_iff]
      obtain hlt | heq := Nat.lt_or_eq_of_le hprec
      · exact .inl hlt
      · exact .inr ⟨heq, rfl⟩
  have hk : ∀ o ∈ r.topOps, dominates o (.bin b) = false := by
    intro o ho
    have hprec : opPrec o < b.prec := (topOps_prec hgr o ho).trans_lt hright
    have hle : opPrec (.bin b) = b.prec := rfl
    unfold dominates
    rw [hle, decide_eq_false (by omega), decide_eq_false (by omega)]
    rfl
  have hop : ∀ k ts, findDominatedOpFrom (.op (.bin b) :: ts) k 0 d =
      findDominatedOpFrom ts (k + 1) 0 (some (k, .bin b)) := fun k ts => if_pos ⟨rfl, hall⟩
  have hscan : findDominatedOpFrom (r.tokens leaf ++ []) (0 + (l.tokens leaf).length + 1) 0
      (some (0 + (l.tokens leaf).length, .bin b)) = _ := scan_kept hl r _ hk
  unfold findDominatedOp
  rw [tokens_bin, hd, hop]
  rw [List.append_nil] at hscan
  rw [hscan, Nat.zero_add]
  rfl

end Scan

section Split

def Token.depth : Token → Int
  | lparen => 1
  | rparen => -1
  | _ => 0

/-- How many more parentheses are opened than closed. -/
def depth (ts : List Token) : Int := (ts.map Token.depth).sum

theorem depth_append (ts ts' : List Token) : depth (ts ++ ts') = depth ts + depth ts' := by
  unfold depth
  rw [List.map_append, List.sum_append]

theorem depth_cons (t : Token) (ts : List Token) : depth (t :: ts) = t.depth + depth ts := by
  unfold depth
  rw [List.map_cons, List.sum_cons]

theorem depth_operands (h : ∀ t ∈ ts, t.isOperand = true) : depth ts = 0 := by
  induction ts with
  | nil => rfl
  | cons t ts ih =>
    have ht := h t List.mem_cons_self
    have hzero : t.depth = 0 := by
      cases t with
      | num | reg => rfl
      | lparen | rparen | op => cases ht
    rw [depth_cons, hzero, ih fun t' ht' => h t' (List.mem_cons_of_mem t ht')]
    rfl

theorem depth_tokens (hl : OperandTokens leaf) (e : Ast α) : depth (e.tokens leaf) = 0 := by
  have hop : ∀ o, (Token.op o).depth = 0 := fun _ => rfl
  induction e with
  | leaf a =>
    rw [tokens_leaf]
    exact depth_operands (hl.operands a)
  | paren e ih =>
    rw [tokens_paren, depth_cons, depth_append, ih]
    rfl
  | un o e ih => rw [tokens_un, depth_cons, hop, ih, zero_add]
  | bin o l r ihl ihr => rw [tokens_bin, depth_append, depth_cons, hop, ihl, ihr, zero_add, add_zero]

theorem scan_negative (h : level + depth ts < 0) :
    findDominatedOpFrom (ts ++ rest) i level dom = none := by
  induction ts generalizing i level dom with
  | nil =>
    have hzero : depth [] = 0 := rfl
    omega
  | cons t ts ih =>
    rw [depth_cons] at h
    cases t with
    | num s | reg s =>
      have hd : depth ts = 0 + depth ts := (zero_add _).symm
      exact ih (by rw [hd]; exact h)
    | lparen =>
      refine ih ?_
      have hd : Token.lparen.depth = 1 := rfl
      rw [hd] at h
      push_cast
      omega
    | rparen =>
      have hd : Token.rparen.depth = -1 := rfl
      rw [hd] at h
      cases level with
      | zero => rfl
      | succ level =>
        refine ih ?_
        push_cast at h
        omega
    | op o =>
      have hrest : level + depth ts < 0 := by
        have hd : (Token.op o).depth = 0 := rfl
        rw [hd] at h
        omega
      rw [List.cons_append, findDominatedOpFrom]
      split
      · next htop =>
        obtain ⟨rfl, -⟩ := htop
        exact ih hrest
      · exact ih hrest

/-- A range of tokens in which more parentheses are closed than opened before some operator. -/
def Broken (ts : List Token) : Prop := ∃ p o q, ts = p ++ .op o :: q ∧ depth p < 0

theorem eval_strip (P : Platform) (fuel : Nat) (ts : List Token) :
    eval P (fuel + 1) (.lparen :: (ts ++ [.rparen])) = eval P fuel ts := by
  cases ts with
  | nil => exact if_pos ⟨rfl, rfl⟩
  | cons t ts =>
    have hlast : (t :: (ts ++ [Token.rparen])).getLast? = some .rparen := by
      rw [← List.cons_append, List.getLast?_concat]
    have hinit : (t :: (ts ++ [Token.rparen])).dropLast = t :: ts := by
      rw [← List.cons_append, List.dropLast_concat]
    rw [List.cons_append, eval, if_pos ⟨rfl, hlast⟩, hinit]

theorem two_tokens (h : 2 ≤ ts.length) : ∃ t t' us, ts = t :: t' :: us := by
  match ts, h with
  | t :: t' :: us, _ => exact ⟨t, t', us, rfl⟩

theorem not_parens {t t' : Token}
    (hp : ¬ ((t :: t' :: ts).head? = some .lparen ∧ (t :: t' :: ts).getLast? = some .rparen)) :
    ¬ (t = .lparen ∧ (t' :: ts).getLast? = some .rparen) := by
  rintro ⟨rfl, hlast⟩
  exact hp ⟨rfl, List.getLast?_cons_cons.trans hlast⟩

theorem eval_undominated (h2 : 2 ≤ ts.length)
    (hp : ¬ (ts.head? = some .lparen ∧ ts.getLast? = some .rparen)) (hn : findDominatedOp ts = none) :
    eval P (fuel + 1) ts = throw .fail := by
  obtain ⟨t, t', ts, rfl⟩ := two_tokens h2
  rw [eval, if_neg (not_parens hp), hn]

theorem broken_strip {p q : List Token} (hd : depth p ≤ 0)
    (hhead : (p ++ .op o :: q).head? = some .lparen)
    (hlast : (p ++ .op o :: q).getLast? = some .rparen) :
    ∃ us, p ++ .op o :: q = .lparen :: (us ++ [.rparen]) ∧ Broken us := by
  obtain ⟨p', rfl⟩ : ∃ p', p = .lparen :: p' := by
    cases p with
    | nil => cases hhead
    | cons t p' =>
      cases hhead
      exact ⟨p', rfl⟩
  have hqne : q ≠ [] := by
    rintro rfl
    rw [List.getLast?_concat] at hlast
    cases hlast
  obtain ⟨q', rfl⟩ : ∃ q', q = q' ++ [.rparen] := by
    rw [List.getLast?_append_cons, List.getLast?_cons_of_ne_nil hqne] at hlast
    exact ⟨q.dropLast, (List.dropLast_append_getLast? _ hlast).symm⟩
  refine ⟨p' ++ .op o :: q', by simp, p', o, q', rfl, ?_⟩
  rw [depth_cons] at hd
  have hone : Token.lparen.depth = 1 := rfl
  omega

/-- Stripping goes on until the range is found to be no expression. -/
theorem eval_broken (h : Broken ts) (hf : ts.length ≤ fuel) : eval P fuel ts = throw .fail := by
  induction fuel generalizing ts with
  | zero =>
    obtain ⟨p, o, q, rfl, -⟩ := h
    rw [List.length_append, List.length_cons] at hf
    omega
  | succ fuel ih =>
    obtain ⟨p, o, q, rfl, hdepth⟩ := h
    have h2 : 2 ≤ (p ++ .op o :: q).length := by
      have hpos : 0 < p.length := by
        apply List.length_pos_iff.mpr
        rintro rfl
        exact absurd hdepth (by decide)
      rw [List.length_append, List.length_cons]
      omega
    by_cases hp : (p ++ .op o :: q).head? = some .lparen ∧ (p ++ .op o :: q).getLast? = some .rparen
    · obtain ⟨us, hus, hbroken⟩ := broken_strip hdepth.le hp.1 hp.2
      rw [hus, eval_strip]
      rw [hus, List.length_cons, List.length_append, List.length_singleton] at hf
      exact ih hbroken (by omega)
    · exact eval_undominated h2 hp (scan_negative (by simpa using hdepth))

end Split

section Evaluate

theorem eval_un (h2 : 2 ≤ ts.length)
    (hp : ¬ (ts.head? = some .lparen ∧ ts.getLast? = some .rparen))
    (hn : findDominatedOp ts = some (i, .un o)) :
    eval P (fuel + 1) ts = (do
      let val ← eval P fuel (ts.drop (i + 1))
      applyUn P o val) := by
  obtain ⟨t, t', ts, rfl⟩ := two_tokens h2
  rw [eval, if_neg (not_parens hp), hn]

theorem eval_bin (h2 : 2 ≤ ts.length)
    (hp : ¬ (ts.head? = some .lparen ∧ ts.getLast? = some .rparen))
    (hn : findDominatedOp ts = some (i, .bin o)) :
    eval P (fuel + 1) ts = (do
      let val1 ← eval P fuel (ts.take i)
      let val2 ← eval P fuel (ts.drop (i + 1))
      applyBin o val1 val2) := by
  obtain ⟨t, t', ts, rfl⟩ := two_tokens h2
  rw [eval, if_neg (not_parens hp), hn]

theorem eval_leaf (hl : OperandTokens leaf) (a : α) (hf : (leaf a).length ≤ fuel) :
    eval P fuel (leaf a) = evalOperand (leaf a) := by
  have hne := hl.nonempty a
  have hops := hl.operands a
  generalize leaf a = ts at hf hne hops
  match ts, hf with
  | [t], _ => cases fuel <;> rfl
  | t :: t' :: us, hf =>
    cases fuel with
    | zero => cases hf
    | succ fuel =>
      have hscan : findDominatedOpFrom ((t :: t' :: us) ++ []) 0 0 none = _ := scan_operands hops
      rw [List.append_nil] at hscan
      refine eval_undominated (by simp) (fun hp => ?_) hscan
      cases hp.1
      cases hops _ List.mem_cons_self

theorem eval_tokens (P : Platform) (hl : OperandTokens leaf) (hg : e.Grouped)
    (hf : (e.tokens leaf).length ≤ fuel) :
    eval P fuel (e.tokens leaf) = e.run P fun a => evalOperand (leaf a) := by
  induction e generalizing fuel with
  | leaf a =>
    rw [tokens_leaf] at hf ⊢
    exact eval_leaf hl a hf
  | paren e ih =>
    rw [tokens_paren] at hf ⊢
    rw [List.length_cons, List.length_append, List.length_singleton] at hf
    cases fuel with
    | zero => cases hf
    | succ fuel =>
      rw [eval_strip]
      exact ih hg (by omega)
  | un o e ih =>
    have hdom := dominated_un hl o hg
    have hopen : ¬ ((Ast.un o e).opens = true) := Bool.false_ne_true
    have hpos := List.length_pos_iff.mpr (tokens_ne_nil hl e)
    cases fuel with
    | zero =>
      rw [tokens_un, List.length_cons] at hf
      omega
    | succ fuel =>
      have h2 : 2 ≤ ((Ast.un o e).tokens leaf).length := by
        rw [tokens_un, List.length_cons]
        omega
      rw [eval_un h2 (fun hp => hopen ((tokens_head hl _).mp hp.1)) hdom]
      rw [tokens_un] at hf ⊢
      rw [List.length_cons] at hf
      have hrest : eval P fuel ((.op (.un o) :: e.tokens leaf).drop (0 + 1)) = _ := ih hg.1 (by omega)
      rw [hrest]
      rfl
  | bin o l r ihl ihr =>
    have hdom := dominated_bin hl o hg
    have hlpos := List.length_pos_iff.mpr (tokens_ne_nil hl l)
    have hlen : ((Ast.bin o l r).tokens leaf).length =
        (l.tokens leaf).length + (r.tokens leaf).length + 1 := by
      rw [tokens_bin, List.length_append, List.length_cons]
      omega
    cases fuel with
    | zero => omega
    | succ fuel =>
      by_cases hsplit : (l.opens && r.closes) = true
      · have hboth : (Ast.bin o l r).opens = true ∧ (Ast.bin o l r).closes = true :=
          Bool.and_eq_true_iff.mp hsplit
        have hhead := (tokens_head hl _).mpr hboth.1
        have hlast := (tokens_last hl _).mpr hboth.2
        have hrun : (Ast.bin o l r).run P (fun a => evalOperand (leaf a)) = throw .fail := if_pos hsplit
        rw [tokens_bin] at hhead hlast hlen ⊢
        obtain ⟨us, hus, hbroken⟩ := broken_strip (depth_tokens hl l).le hhead hlast
        rw [hrun, hus, eval_strip]
        rw [hus, List.length_cons, List.length_append, List.length_singleton] at hlen
        rw [tokens_bin, hus, List.length_cons, List.length_append, List.length_singleton] at hf
        exact eval_broken hbroken (by omega)
      · have hpair : ¬ (((Ast.bin o l r).tokens leaf).head? = some .lparen ∧
            ((Ast.bin o l r).tokens leaf).getLast? = some .rparen) := by
          rintro ⟨hhead, hlast⟩
          have hopens : l.opens = true := (tokens_head hl (.bin o l r)).mp hhead
          have hcloses : r.closes = true := (tokens_last hl (.bin o l r)).mp hlast
          exact hsplit (Bool.and_eq_true_iff.mpr ⟨hopens, hcloses⟩)
        have hrun : (Ast.bin o l r).run P (fun a => evalOperand (leaf a)) = _ := if_neg hsplit
        have hleft : ((Ast.bin o l r).tokens leaf).take (l.tokens leaf).length = l.tokens leaf := by
          rw [tokens_bin, List.take_left]
        have hright : ((Ast.bin o l r).tokens leaf).drop ((l.tokens leaf).length + 1) = r.tokens leaf := by
          rw [tokens_bin, ← List.drop_drop, List.drop_left]
          rfl
        rw [eval_bin (by omega) hpair hdom, hleft, hright, ihl hg.1 (by omega),
          ihr hg.2.1 (by omega), hrun]

end Evaluate

section Denote

variable {f g : α → Evaluation Word} {s t : Machine} {v : Word}

theorem run_unsplit (h : e.Unsplit) : e.run P f = e.denote P f := by
  induction e with
  | leaf a => rfl
  | paren e ih => exact ih h
  | un o e ih => rw [Ast.run, Ast.denote, ih h]
  | bin o l r ihl ihr =>
    have hpair : ¬ (l.opens && r.closes) = true := by
      rw [h.2.2]
      exact Bool.false_ne_true
    rw [Ast.run, Ast.denote, if_neg hpair, ihl h.1, ihr h.2.1]

theorem unsplit_of_run (h : e.run P f s = .ok v t) : e.Unsplit := by
  induction e generalizing s v t with
  | leaf a => trivial
  | paren e ih => exact ih h
  | un o e ih =>
    obtain ⟨_, _, he, -⟩ := ok_of_bind h
    exact ih he
  | bin o l r ihl ihr =>
    rw [Ast.run] at h
    split at h
    · cases h
    next hpair =>
    obtain ⟨_, _, hleft, h1⟩ := ok_of_bind h
    obtain ⟨_, _, hright, -⟩ := ok_of_bind h1
    exact ⟨ihl hleft, ihr hright, Bool.eq_false_of_not_eq_true hpair⟩

theorem run_ok_iff : e.run P f s = .ok v t ↔ e.Unsplit ∧ e.denote P f s = .ok v t := by
  constructor
  · intro h
    have hu := unsplit_of_run h
    rw [run_unsplit hu] at h
    exact ⟨hu, h⟩
  · rintro ⟨hu, h⟩
    rw [run_unsplit hu]
    exact h

theorem denote_congr (h : ∀ a ∈ e.leaves, f a = g a) : e.denote P f = e.denote P g := by
  induction e with
  | leaf a => exact h a List.mem_cons_self
  | paren e ih => exact ih h
  | un o e ih => rw [Ast.denote, Ast.denote, ih h]
  | bin o l r ihl ihr =>
    rw [Ast.denote, Ast.denote, ihl fun a ha => h a (List.mem_append_left _ ha),
      ihr fun a ha => h a (List.mem_append_right _ ha)]

theorem denote_leaf_ok (h : e.denote P f s = .ok v t) :
    ∀ a ∈ e.leaves, ∃ s' v' t', f a s' = .ok v' t' := by
  induction e generalizing s v t with
  | leaf a =>
    intro b hb
    cases List.mem_singleton.mp hb
    exact ⟨_, _, _, h⟩
  | paren e ih => exact ih h
  | un o e ih =>
    obtain ⟨_, _, he, -⟩ := ok_of_bind h
    exact ih he
  | bin o l r ihl ihr =>
    obtain ⟨_, _, hleft, h1⟩ := ok_of_bind h
    obtain ⟨_, _, hright, -⟩ := ok_of_bind h1
    intro a ha
    obtain ha | ha := List.mem_append.mp ha
    · exact ihl hleft a ha
    · exact ihr hright a ha

end Denote

end Nemu
