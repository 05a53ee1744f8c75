import Nemu.ExprContract
import Mathlib.Data.List.Chain

namespace Nemu

open Effect

set_option autoImplicit true

/-- A number or a register, whatever its text. -/
abbrev OperandToken := { t : Token // t.isOperand = true }

/-- The tokens, before `TK_NEG` and `TK_REF` are detected, are those of an expression. -/
def Derivable (ts : List Token) : Prop :=
  ∃ e : Ast OperandToken, ts = e.toks.flatMap (Tok.written fun t => [t.val])

/-- How `eval` splits a range of tokens, whether or not it is an expression. What stands before a
unary operator that is dominant has no place in it. -/
inductive Outline where
  | single (t : Token)
  /-- no token, or no operator to split at -/
  | missing
  | un (o : UnOp) (e : Outline)
  | bin (o : BinOp) (l r : Outline)

def outline : Nat → List Token → Outline
  | _, [] => .missing
  | _, [t] => .single t
  | 0, _ :: _ :: _ => .missing
  | fuel + 1, t :: t' :: ts =>
    if t = .lparen ∧ (t' :: ts).getLast? = some .rparen then outline fuel (t' :: ts).dropLast
    else
      match findDominatedOp (t :: t' :: ts) with
      | none => .missing
      | some (i, .un o) => .un o (outline fuel ((t :: t' :: ts).drop (i + 1)))
      | some (i, .bin o) =>
        .bin o (outline fuel ((t :: t' :: ts).take i)) (outline fuel ((t :: t' :: ts).drop (i + 1)))

/-- A number, or a register whose name is known. -/
def Token.isKnown : Token → Bool
  | num _ => true
  | reg str => regsl.any (· == str.drop 1) || str.drop 1 == ['p', 'c']
  | _ => false

namespace Outline

/-- The splitting ends everywhere with an operand that has a value. -/
def Complete : Outline → Prop
  | single t => t.isKnown = true
  | missing => False
  | un _ e => e.Complete
  | bin _ l r => l.Complete ∧ r.Complete

def run (P : Platform) : Outline → Evaluation Word
  | single t => evalToken t
  | missing => throw .fail
  | un o e => do
    let val ← e.run P
    applyUn P o val
  | bin o l r => do
    let val1 ← l.run P
    let val2 ← r.run P
    applyBin o val1 val2

/-- From left to right everything has a value up to a range that is no operand, or to a register
that is not known. -/
def Lacks (P : Platform) : Outline → Machine → Prop
  | single t, _ => t.isOperand = true ∧ t.isKnown = false
  | missing, _ => True
  | un _ e, s => e.Lacks P s
  | bin _ l r, s => l.Lacks P s ∨ ∃ v t, l.run P s = .ok v t ∧ r.Lacks P t

end Outline

def Token.isUnary : Token → Bool
  | op o => o.isUnary
  | _ => false

/-- No unary operator stands where a binary one is expected. -/
def UnaryFirst (ts : List Token) : Prop := ts.IsChain fun t t' => (t.endsOperand && t'.isUnary) = false

/-- A token before `TK_NEG` and `TK_REF` are detected. -/
def Token.made : Token → Token
  | op o => op o.raw
  | t => t

/-- The tokens that the rules make of a text, as if there were room for all of them, up to the first
place where none of the rules matches; and whether there is no such place. -/
def tokenize : Nat → List Char → List Token × Bool
  | _, [] => ([], true)
  | 0, _ :: _ => ([], false)
  | fuel + 1, c :: e =>
    match firstRule (c :: e) with
    | none => ([], false)
    | some (len, type) =>
      let rest := tokenize fuel ((c :: e).drop len)
      ((type.token ((c :: e).take len)).toList ++ rest.1, rest.2)

/-- There is room for the tokens and their texts. -/
def Fits (ts : List Token) : Prop := ts.length ≤ 32 ∧ ∀ t ∈ ts, t.str.length < 32

/-- How `eval` splits the tokens of a text. -/
def splitting (ts : List Token) : Outline := outline ts.length (detectUnary none ts)

variable {P : Platform} {ts us rest : List Token} {dom : Option (Nat × Op)} {i j level fuel : Nat}
  {out : Outline} {t prev : Token} {s s' : Machine} {v : Word} {after : Bool}

section Run

theorem eval_outline (P : Platform) (fuel : Nat) (ts : List Token) :
    eval P fuel ts = (outline fuel ts).run P := by
  induction fuel generalizing ts with
  | zero =>
    match ts with
    | [] => rfl
    | [t] => rfl
    | t :: t' :: ts => rfl
  | succ fuel ih =>
    match ts with
    | [] => rfl
    | [t] => rfl
    | t :: t' :: ts =>
      rw [eval, outline]
      split
      · exact ih _
      · cases findDominatedOp (t :: t' :: ts) with
        | none => rfl
        | some d =>
          obtain ⟨i, o⟩ := d
          cases o with
          | un o =>
            dsimp only
            rw [ih]
            rfl
          | bin o =>
            dsimp only
            rw [ih, ih]
            rfl

theorem str2val_eq (name : List Char) (s : Machine) :
    isaRegStr2val name s = (regsl.findIdx? (· == name)).elim
      (if name = ['p', 'c'] then .ok s.pc s else .error .fail s)
      fun i => .ok (s.gpr (BitVec.ofNat 5 i)) s := by
  unfold isaRegStr2val
  rw [get_bind]
  cases regsl.findIdx? (· == name) with
  | some i => rfl
  | none =>
    dsimp only
    rw [Option.elim_none]
    split
    · rfl
    · rfl

theorem str2val_known (name : List Char) (s : Machine)
    (h : (regsl.any (· == name) || name == ['p', 'c']) = true) : ∃ v, isaRegStr2val name s = .ok v s := by
  rw [str2val_eq]
  cases hfind : regsl.findIdx? (· == name) with
  | some i => exact ⟨_, rfl⟩
  | none =>
    have hany : regsl.any (· == name) = false := by
      rw [← List.findIdx?_isSome, hfind]
      rfl
    rw [hany, Bool.false_or, beq_iff_eq] at h
    rw [Option.elim_none, if_pos h]
    exact ⟨_, rfl⟩

theorem str2val_unknown (name : List Char) (s : Machine)
    (h : (regsl.any (· == name) || name == ['p', 'c']) = false) : isaRegStr2val name s = .error .fail s := by
  obtain ⟨hany, hpc⟩ := Bool.or_eq_false_iff.mp h
  have hfind : regsl.findIdx? (· == name) = none := by
    rw [← Option.not_isSome_iff_eq_none, List.findIdx?_isSome, hany]
    exact Bool.false_ne_true
  rw [str2val_eq, hfind, Option.elim_none, if_neg (beq_eq_false_iff_ne.mp hpc)]

theorem known_operand (h : t.isKnown = true) : t.isOperand = true := by
  cases t with
  | num | reg => rfl
  | lparen | rparen | op => cases h

theorem evalToken_cases (t : Token) (s : Machine) :
    (t.isKnown = true ∧ ∃ v, evalToken t s = .ok v s) ∨
      (t.isOperand = true ∧ t.isKnown = false ∧ evalToken t s = .error .fail s) ∨
      (t.isOperand = false ∧ evalToken t s = .error .assert s) := by
  cases t with
  | num str => exact .inl ⟨rfl, _, rfl⟩
  | reg str =>
    cases hknown : (Token.reg str).isKnown with
    | true => exact .inl ⟨rfl, str2val_known (str.drop 1) s hknown⟩
    | false => exact .inr (.inl ⟨rfl, rfl, str2val_unknown (str.drop 1) s hknown⟩)
  | lparen | rparen | op => exact .inr (.inr ⟨rfl, rfl⟩)

theorem applyUn_no_fail (o : UnOp) : applyUn P o v s ≠ .error .fail s' := by
  intro h
  cases o with
  | bang | neg => cases h
  | ref =>
    have hread : EStateM.adaptExcept ExprStop.access (vaddrReadInternal P none v 4 .read .dynamic) s =
        .error .fail s' := h
    unfold EStateM.adaptExcept at hread
    split at hread
    · cases hread
    · cases hread

theorem applyBin_ends (o : BinOp) (v1 v2 : Word) (s : Machine) :
    ((o = .div ∨ o = .mod) ∧ v2 = 0 ∧ applyBin o v1 v2 s = .error .divide s) ∨
      (((o = .div ∨ o = .mod) → v2 ≠ 0) ∧ ∃ v, applyBin o v1 v2 s = .ok v s) := by
  have hdivide : ∀ w : Word, v2 = 0 →
      (if v2 = 0 then throw .divide else pure w : Evaluation Word) s = .error .divide s := by
    intro w hz
    rw [if_pos hz]
    rfl
  have hvalue : ∀ w : Word, v2 ≠ 0 →
      (if v2 = 0 then throw .divide else pure w : Evaluation Word) s = .ok w s := by
    intro w hz
    rw [if_neg hz]
    rfl
  cases o with
  | div =>
    by_cases hz : v2 = 0
    · exact .inl ⟨.inl rfl, hz, hdivide _ hz⟩
    · exact .inr ⟨fun _ => hz, _, hvalue _ hz⟩
  | mod =>
    by_cases hz : v2 = 0
    · exact .inl ⟨.inr rfl, hz, hdivide _ hz⟩
    · exact .inr ⟨fun _ => hz, _, hvalue _ hz⟩
  | mul | add | sub | eq | neq | and | or =>
    refine .inr ⟨fun h => ?_, _, rfl⟩
    rcases h with h | h
    · cases h
    · cases h

theorem applyBin_no_fail (o : BinOp) {v1 v2 : Word} : applyBin o v1 v2 s ≠ .error .fail s' := by
  intro h
  rcases applyBin_ends o v1 v2 s with ⟨-, -, hend⟩ | ⟨-, w, hend⟩
  · cases hend.symm.trans h
  · cases hend.symm.trans h

/-- A failure is reported exactly if the first thing in the way of a value is that an operand
is missing or a register unknown. -/
theorem run_fail_iff : (∃ s', out.run P s = .error .fail s') ↔ out.Lacks P s := by
  induction out generalizing s with
  | single t =>
    have hrun : (Outline.single t).run P s = evalToken t s := rfl
    rw [hrun]
    rcases evalToken_cases t s with ⟨hknown, v, hval⟩ | ⟨hop, hknown, hval⟩ | ⟨hop, hval⟩
    · rw [hval]
      constructor
      · rintro ⟨s', h⟩
        cases h
      · rintro ⟨-, h⟩
        exact absurd (h.symm.trans hknown) Bool.false_ne_true
    · exact iff_of_true ⟨s, hval⟩ ⟨hop, hknown⟩
    · rw [hval]
      constructor
      · rintro ⟨s', h⟩
        cases h
      · rintro ⟨h, -⟩
        exact absurd (hop.symm.trans h) Bool.false_ne_true
  | missing => exact iff_of_true ⟨s, rfl⟩ trivial
  | un o e ih =>
    rw [Outline.Lacks, ← ih]
    constructor
    · rintro ⟨s', h⟩
      rcases error_of_bind h with he | ⟨v, t, -, ho⟩
      · exact ⟨s', he⟩
      · exact absurd ho (applyUn_no_fail o)
    · rintro ⟨s', he⟩
      exact ⟨s', bind_error he⟩
  | bin o l r ihl ihr =>
    rw [Outline.Lacks, ← ihl]
    constructor
    · rintro ⟨s', h⟩
      rcases error_of_bind h with hl | ⟨v, t, hl, h⟩
      · exact .inl ⟨s', hl⟩
      · rcases error_of_bind h with hr | ⟨v', t', -, ho⟩
        · exact .inr ⟨v, t, hl, ihr.mp ⟨s', hr⟩⟩
        · exact absurd ho (applyBin_no_fail o)
    · rintro (⟨s', hl⟩ | ⟨v, t, hl, hlacks⟩)
      · exact ⟨s', bind_error hl⟩
      · obtain ⟨s', hr⟩ := ihr.mpr hlacks
        exact ⟨s', (bind_ok hl).trans (bind_error hr)⟩

theorem lacks_not_complete (h : out.Lacks P s) : ¬ out.Complete := by
  induction out generalizing s with
  | single t =>
    intro hknown
    exact absurd (h.2.symm.trans hknown) Bool.false_ne_true
  | missing => exact fun hc => hc
  | un o e ih => exact ih h
  | bin o l r ihl ihr =>
    intro hc
    rcases h with hl | ⟨v, t, -, hr⟩
    · exact ihl hl hc.1
    · exact ihr hr hc.2

end Run

section Grammar

/-- A unary operator that is dominant was so from the start. -/
theorem un_stays {d : Nat × Op} {u : UnOp}
    (h : findDominatedOpFrom ts i level (some d) = some (j, .un u)) : d = (j, .un u) := by
  induction ts generalizing i level d with
  | nil => exact Option.some.inj h
  | cons t ts ih =>
    cases t with
    | num str | reg str => exact ih h
    | lparen => exact ih h
    | rparen =>
      cases level with
      | zero => cases h
      | succ level => exact ih h
    | op o =>
      rw [findDominatedOpFrom] at h
      split at h
      next hdom =>
        have hd : dominates o d.2 = true := hdom.2
        have ho : o = .un u := congrArg Prod.snd (ih h)
        have hle : dominates (.un u) d.2 = false :=
          Bool.or_eq_false_iff.mpr ⟨decide_eq_false (Nat.not_lt_zero _), Bool.and_false _⟩
        rw [ho, hle] at hd
        exact absurd hd Bool.false_ne_true
      next => exact ih h

theorem un_follows {u : UnOp} (h : findDominatedOpFrom ts i level none = some (j, .un u))
    (hprev : level = 0 → prev.endsOperand = true) : ¬ UnaryFirst (prev :: ts) := by
  induction ts generalizing i level prev with
  | nil => cases h
  | cons t ts ih =>
    intro hchain
    obtain ⟨hhead, htail⟩ := List.isChain_cons_cons.mp hchain
    cases t with
    | num str | reg str => exact ih h (fun _ => rfl) htail
    | lparen => exact ih h (fun hlevel => absurd hlevel (Nat.succ_ne_zero level)) htail
    | rparen =>
      cases level with
      | zero => cases h
      | succ level => exact ih h (fun _ => rfl) htail
    | op o =>
      rw [findDominatedOpFrom] at h
      split at h
      next hdom =>
        have ho : o = .un u := congrArg Prod.snd (un_stays h)
        rw [ho, hprev hdom.1] at hhead
        cases hhead
      next hdom => exact ih h (fun hlevel => absurd ⟨hlevel, rfl⟩ hdom) htail

theorem un_leads {u : UnOp} (h : findDominatedOp (t :: ts) = some (i, .un u)) (hu : UnaryFirst (t :: ts)) :
    i = 0 ∧ t = .op (.un u) := by
  cases t with
  | num str | reg str => exact absurd hu (un_follows h fun _ => rfl)
  | lparen => exact absurd hu (un_follows h fun hlevel => absurd hlevel (Nat.succ_ne_zero 0))
  | rparen => cases h
  | op o =>
    have hfirst : findDominatedOpFrom ts 1 0 (some (0, o)) = some (i, .un u) := h
    cases un_stays hfirst
    exact ⟨rfl, rfl⟩

theorem dominated_at {o : Op} (h : findDominatedOpFrom ts i level dom = some (j, o)) :
    dom = some (j, o) ∨ ∃ p q, ts = p ++ .op o :: q ∧ j = i + p.length := by
  induction ts generalizing i level dom with
  | nil => exact .inl h
  | cons t ts ih =>
    have hlater : (∃ p q, ts = p ++ .op o :: q ∧ j = i + 1 + p.length) →
        ∃ p q, t :: ts = p ++ .op o :: q ∧ j = i + p.length := by
      rintro ⟨p, q, rfl, rfl⟩
      refine ⟨t :: p, q, rfl, ?_⟩
      rw [List.length_cons]
      omega
    cases t with
    | num str | reg str => exact (ih h).imp_right hlater
    | lparen => exact (ih h).imp_right hlater
    | rparen =>
      cases level with
      | zero => cases h
      | succ level => exact (ih h).imp_right hlater
    | op o' =>
      rw [findDominatedOpFrom] at h
      split at h
      · rcases ih h with hd | hd
        · cases hd
          exact .inr ⟨[], ts, rfl, rfl⟩
        · exact .inr (hlater hd)
      · exact (ih h).imp_right hlater

theorem split_at {o : Op} (h : findDominatedOp ts = some (i, o)) : ts = ts.take i ++ .op o :: ts.drop (i + 1) := by
  rcases dominated_at h with hd | ⟨p, q, rfl, rfl⟩
  · cases hd
  · rw [Nat.zero_add, List.take_left, ← List.drop_drop, List.drop_left]
    rfl

theorem split_shorter {o : Op} (h : findDominatedOp ts = some (i, o)) :
    (ts.take i).length < ts.length ∧ (ts.drop (i + 1)).length < ts.length := by
  have hlen : ts.length = (ts.take i).length + ((ts.drop (i + 1)).length + 1) := by
    rw [← List.length_cons, ← List.length_append, ← split_at h]
  omega

/-- Tokens that are split completely, and whose unary operators stand where they may, are those of
an expression. -/
theorem complete_derives (hc : (outline fuel ts).Complete) (hu : UnaryFirst ts) :
    ∃ e : Ast OperandToken, ts = e.tokens fun t => [t.val] := by
  induction fuel generalizing ts with
  | zero =>
    match ts with
    | [] => exact hc.elim
    | [t] => exact ⟨.leaf ⟨t, known_operand hc⟩, rfl⟩
    | t :: t' :: ts => exact hc.elim
  | succ fuel ih =>
    match ts with
    | [] => exact hc.elim
    | [t] => exact ⟨.leaf ⟨t, known_operand hc⟩, rfl⟩
    | t :: t' :: ts =>
      rw [outline] at hc
      split at hc
      next hpair =>
        obtain ⟨rfl, hlast⟩ := hpair
        obtain ⟨e, he⟩ := ih hc hu.tail.dropLast
        refine ⟨.paren e, ?_⟩
        rw [tokens_paren, ← he, List.dropLast_append_getLast? _ hlast]
      next =>
        cases hdom : findDominatedOp (t :: t' :: ts) with
        | none =>
          rw [hdom] at hc
          exact hc.elim
        | some d =>
          obtain ⟨i, o⟩ := d
          rw [hdom] at hc
          cases o with
          | un o =>
            obtain ⟨rfl, rfl⟩ := un_leads hdom hu
            have hrest : (outline fuel (t' :: ts)).Complete := hc
            obtain ⟨e, he⟩ := ih hrest hu.tail
            refine ⟨.un o e, ?_⟩
            rw [tokens_un, ← he]
          | bin o =>
            obtain ⟨l, hl⟩ := ih hc.1 (hu.take i)
            obtain ⟨r, hr⟩ := ih hc.2 (hu.drop (i + 1))
            refine ⟨.bin o l r, ?_⟩
            rw [tokens_bin, ← hl, ← hr]
            exact split_at hdom

end Grammar

section Made

theorem detect_step (prev : Option Token) (t : Token) :
    ∃ d : Token, (∀ ts, detectUnary prev (t :: ts) = d :: detectUnary (some d) ts) ∧
      d.endsOperand = t.endsOperand ∧ (prev.any Token.endsOperand = true → d = t) ∧ d.made = t.made := by
  have hsame : (∀ ts, detectUnary prev (t :: ts) = t :: detectUnary (some t) ts) →
      ∃ d : Token, (∀ ts, detectUnary prev (t :: ts) = d :: detectUnary (some d) ts) ∧
        d.endsOperand = t.endsOperand ∧ (prev.any Token.endsOperand = true → d = t) ∧ d.made = t.made :=
    fun h => ⟨t, h, rfl, fun _ => rfl, rfl⟩
  have hother : ∀ b u, prev.any Token.endsOperand = false → t = .op (.bin b) →
      (Token.op (.un u)).made = t.made →
      (∀ ts, detectUnary prev (t :: ts) = .op (.un u) :: detectUnary (some (.op (.un u))) ts) →
      ∃ d : Token, (∀ ts, detectUnary prev (t :: ts) = d :: detectUnary (some d) ts) ∧
        d.endsOperand = t.endsOperand ∧ (prev.any Token.endsOperand = true → d = t) ∧ d.made = t.made := by
    intro b u hprev ht hmade h
    refine ⟨.op (.un u), h, ?_, fun hany => absurd (hprev.symm.trans hany) Bool.false_ne_true, hmade⟩
    rw [ht]
    rfl
  cases t with
  | num | reg | lparen | rparen => exact hsame fun _ => rfl
  | op o =>
    cases o with
    | un u => exact hsame fun _ => rfl
    | bin b =>
      by_cases hprev : prev.any Token.endsOperand = true
      · cases b with
        | sub => exact hsame fun ts => detect_op (.bin .sub) hprev
        | mul => exact hsame fun ts => detect_op (.bin .mul) hprev
        | div | mod | add | eq | neq | and | or => exact hsame fun _ => rfl
      · have hprev : prev.any Token.endsOperand = false := Bool.eq_false_of_not_eq_true hprev
        cases b with
        | sub => exact hother .sub .neg hprev rfl rfl fun ts => detect_op (.un .neg) hprev
        | mul => exact hother .mul .ref hprev rfl rfl fun ts => detect_op (.un .ref) hprev
        | div | mod | add | eq | neq | and | or => exact hsame fun _ => rfl

theorem detect_made (prev : Option Token) (ts : List Token) :
    (detectUnary prev ts).map Token.made = ts.map Token.made := by
  induction ts generalizing prev with
  | nil => rfl
  | cons t ts ih =>
    obtain ⟨d, hd, -, -, hmade⟩ := detect_step prev t
    rw [hd, List.map_cons, List.map_cons, hmade, ih]

/-- The detection puts no unary operator behind an operand. -/
theorem detect_unaryFirst {d : Token} (hd : d.endsOperand = prev.endsOperand) (h : UnaryFirst (prev :: ts)) :
    UnaryFirst (d :: detectUnary (some d) ts) := by
  induction ts generalizing prev d with
  | nil => exact List.isChain_singleton d
  | cons t ts ih =>
    obtain ⟨hhead, htail⟩ := List.isChain_cons_cons.mp h
    obtain ⟨d', hstep, hends, hkeep, -⟩ := detect_step (some d) t
    rw [hstep]
    apply List.isChain_cons_cons.mpr
    constructor
    · cases hop : d.endsOperand with
      | false => rfl
      | true =>
        have hprev : prev.endsOperand = true := hd.symm.trans hop
        rw [hprev] at hhead
        rw [hkeep hop]
        exact hhead
    · exact ih hends htail

theorem detect_none (ts : List Token) : detectUnary none ts = detectUnary (some .lparen) ts := by
  cases ts <;> rfl

theorem unaryFirst_lparen (h : UnaryFirst ts) : UnaryFirst (.lparen :: ts) := by
  cases ts with
  | nil => exact List.isChain_singleton _
  | cons t ts => exact List.isChain_cons_cons.mpr ⟨rfl, h⟩

theorem inTurn_unaryFirst {toks : List (Tok OperandToken)} (hp : InTurn after toks)
    (hprev : prev.endsOperand = after) :
    UnaryFirst (prev :: toks.flatMap (Tok.written fun t => [t.val])) := by
  induction toks generalizing after prev with
  | nil => exact List.isChain_singleton prev
  | cons t ts ih =>
    obtain ⟨hstart, hrest⟩ := hp
    rw [List.flatMap_cons]
    have hnext : ∀ t' : Token, (prev.endsOperand && t'.isUnary) = false → t'.endsOperand = t.ends →
        UnaryFirst (prev :: ([t'] ++ ts.flatMap (Tok.written fun t => [t.val]))) :=
      fun t' hpair hends => List.isChain_cons_cons.mpr ⟨hpair, ih hrest hends⟩
    cases t with
    | operand a =>
      obtain ⟨t', hop⟩ := a
      cases t' with
      | num | reg => exact hnext _ (Bool.and_false _) rfl
      | lparen | rparen | op => cases hop
    | lparen => exact hnext _ (Bool.and_false _) rfl
    | rparen => exact hnext _ (Bool.and_false _) rfl
    | op o =>
      apply hnext
      · cases o with
        | bin b => cases b <;> exact Bool.and_false _
        | un u =>
          have hafter : after = false := by
            cases after with
            | false => rfl
            | true => cases hstart
          rw [hprev, hafter]
          rfl
      · rfl

theorem derivable_unaryFirst (h : Derivable ts) : UnaryFirst ts := by
  obtain ⟨e, rfl⟩ := h
  have hopened : UnaryFirst (.lparen :: e.toks.flatMap (Tok.written fun t => [t.val])) :=
    inTurn_unaryFirst (toks_inTurn e) rfl
  exact hopened.tail

theorem expand_made (t : Tok OperandToken) :
    (Tok.expand (fun t : OperandToken => [t.val]) t).map Token.made = Tok.written (fun t => [t.val]) t := by
  cases t with
  | operand a =>
    obtain ⟨t, hop⟩ := a
    cases t with
    | num | reg => rfl
    | lparen | rparen | op => cases hop
  | lparen | rparen | op => rfl

theorem derivable_of_detected (hmade : ∀ t ∈ ts, t.made = t) (hdetect : UnaryFirst (detectUnary none ts))
    (hc : (splitting ts).Complete) : Derivable ts := by
  obtain ⟨e, he⟩ := complete_derives hc hdetect
  have hts : ts.map Token.made = ts := (List.map_congr_left hmade).trans (List.map_id' ts)
  refine ⟨e, ?_⟩
  rw [← hts, ← detect_made none ts, he, Ast.tokens, List.map_flatMap, funext expand_made]

/-- What is split completely is an expression, apart from unary operators that stand behind an
operand. -/
theorem derivable_of_complete (hmade : ∀ t ∈ ts, t.made = t) (hu : UnaryFirst ts)
    (hc : (splitting ts).Complete) : Derivable ts := by
  apply derivable_of_detected hmade ?_ hc
  rw [detect_none]
  exact (detect_unaryFirst (d := .lparen) rfl (unaryFirst_lparen hu)).tail

end Made

end Nemu
