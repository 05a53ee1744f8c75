import Nemu.ExprLex
import Nemu.Reset

namespace Nemu

open Effect

set_option autoImplicit true

/-- An element that stands where an operand is expected. -/
def Tok.starts : Tok α → Bool
  | operand _ | lparen => true
  | rparen => false
  | op o => o.isUnary

/-- An element with which an operand ends. -/
def Tok.ends : Tok α → Bool
  | operand _ | rparen => true
  | lparen | op _ => false

/-- Operands and binary operators take turns; `after` tells whether an operand comes before. -/
def InTurn : Bool → List (Tok α) → Prop
  | _, [] => True
  | after, t :: ts => t.starts = !after ∧ InTurn t.ends ts

/-- The tokens of an element before `TK_NEG` and `TK_REF` are detected, for operands of any kind. -/
def Tok.written (leaf : α → List Token) : Tok α → List Token
  | operand a => leaf a
  | lparen => [.lparen]
  | rparen => [.rparen]
  | op o => [.op o.raw]

def Tok.Whole : Tok Atom → Prop
  | operand a => a.Whole
  | _ => True

variable {P : Platform} {e : Ast Atom} {a : Atom} {cs : List Char} {acc out : List Token}
  {toks : List (Tok Atom)} {after : Bool} {prev : Option Token} {s t : Machine} {v : Word}

theorem inTurn_toks {ts : List (Tok α)} (e : Ast α) (h : InTurn true ts) : InTurn false (e.toks ++ ts) := by
  induction e generalizing ts with
  | leaf a => exact ⟨rfl, h⟩
  | paren e ih =>
    rw [Ast.toks, List.cons_append, List.append_assoc]
    exact ⟨rfl, ih ⟨rfl, h⟩⟩
  | un o e ih => exact ⟨rfl, ih h⟩
  | bin o l r ihl ihr =>
    rw [Ast.toks, List.append_assoc]
    exact ihl ⟨rfl, ihr h⟩

theorem toks_inTurn (e : Ast α) : InTurn false e.toks := by
  rw [← List.append_nil e.toks]
  exact inTurn_toks e trivial

section Detect

theorem detect_operands {ts : List Token} (hne : ts ≠ []) (h : ∀ t ∈ ts, t.isOperand = true) :
    ∃ t : Token, t.endsOperand = true ∧
      ∀ prev rest, detectUnary prev (ts ++ rest) = ts ++ detectUnary (some t) rest := by
  induction ts with
  | nil => exact absurd rfl hne
  | cons t ts ih =>
    have ht : t.endsOperand = true ∧ ∀ prev rest, detectUnary prev (t :: rest) = t :: detectUnary (some t) rest := by
      have hop := h t List.mem_cons_self
      cases t with
      | num str | reg str => exact ⟨rfl, fun _ _ => rfl⟩
      | lparen | rparen | op => cases hop
    cases ts with
    | nil => exact ⟨t, ht⟩
    | cons t' ts =>
      obtain ⟨u, hu, hrest⟩ := ih (List.cons_ne_nil _ _) fun t'' ht'' => h t'' (List.mem_cons_of_mem _ ht'')
      refine ⟨u, hu, fun prev rest => ?_⟩
      rw [List.cons_append, ht.2, hrest]
      rfl

theorem detect_op {rest : List Token} (o : Op) (hprev : prev.any Token.endsOperand = !o.isUnary) :
    detectUnary prev (.op o.raw :: rest) = .op o :: detectUnary (some (.op o)) rest := by
  cases o with
  | bin b =>
    have htrue : prev.any Token.endsOperand = true := hprev
    cases b with
    | sub | mul => simp only [Op.raw, detectUnary, htrue, if_true]
    | div | mod | add | eq | neq | and | or => rfl
  | un u =>
    have hfalse : prev.any Token.endsOperand = false := hprev
    cases u with
    | neg | ref => simp only [Op.raw, detectUnary, hfalse, Bool.false_eq_true, if_false]
    | bang => rfl

theorem digitTokens_operand (ds : List Char) : ∀ t ∈ digitTokens ds, t.isOperand = true := by
  induction ds using digitTokens.induct with
  | case1 ds hempty =>
    rw [List.isEmpty_iff.mp hempty, digitTokens_nil]
    exact fun t ht => absurd ht List.not_mem_nil
  | case2 ds hempty ih =>
    rw [digitTokens_cons fun hnil => hempty (List.isEmpty_iff.mpr hnil)]
    intro t ht
    rcases List.mem_cons.mp ht with rfl | ht
    · rfl
    · exact ih t ht

theorem atom_tokens : OperandTokens Atom.tokens := by
  constructor
  · intro a
    cases a with
    | num l => exact List.cons_ne_nil _ _
    | reg r => exact List.cons_ne_nil _ _
  · intro a t ht
    cases a with
    | num l =>
      rcases List.mem_cons.mp ht with rfl | ht
      · rfl
      · exact digitTokens_operand _ t ht
    | reg r =>
      rw [List.mem_singleton.mp ht]
      rfl

/-- The operators of an expression are told apart by what stands before them. -/
theorem detect_written {leaf : α → List Token} {toks : List (Tok α)} (hl : OperandTokens leaf)
    (hp : InTurn after toks) (hprev : prev.any Token.endsOperand = after) :
    detectUnary prev (toks.flatMap (Tok.written leaf)) = toks.flatMap (Tok.expand leaf) := by
  induction toks generalizing after prev with
  | nil => rfl
  | cons t ts ih =>
    obtain ⟨hstart, hrest⟩ := hp
    rw [List.flatMap_cons, List.flatMap_cons]
    cases t with
    | operand a =>
      obtain ⟨u, hu, hops⟩ := detect_operands (hl.nonempty a) (hl.operands a)
      have hdetect : detectUnary (some u) (ts.flatMap (Tok.written leaf)) = _ := ih hrest hu
      rw [Tok.written, Tok.expand, hops, hdetect]
    | lparen => exact congrArg (Token.lparen :: ·) (ih hrest rfl)
    | rparen => exact congrArg (Token.rparen :: ·) (ih hrest rfl)
    | op o =>
      have hop : prev.any Token.endsOperand = !o.isUnary := by
        rw [hprev, show o.isUnary = !after from hstart, Bool.not_not]
      exact (detect_op o hop).trans (congrArg (Token.op o :: ·) (ih hrest rfl))

theorem raw_written (t : Tok Atom) : t.raw = t.written Atom.tokens := by
  cases t <;> rfl

theorem detect_toks (hp : InTurn after toks) (hprev : prev.any Token.endsOperand = after) :
    detectUnary prev (toks.flatMap Tok.raw) = toks.flatMap (Tok.expand Atom.tokens) := by
  rw [funext raw_written]
  exact detect_written atom_tokens hp hprev

theorem detect_length (prev : Option Token) (ts : List Token) : (detectUnary prev ts).length = ts.length := by
  induction ts generalizing prev with
  | nil => rfl
  | cons t ts ih =>
    unfold detectUnary
    rw [List.length_cons, List.length_cons, ih]

end Detect

section Lex

theorem atom_head (a : Atom) : ∃ c w, a.chars = c :: w ∧ c ≠ ' ' ∧ c ≠ '=' := by
  cases a with
  | reg r =>
    obtain ⟨w, hr, -⟩ := reg_chars r
    exact ⟨'$', w, hr, by decide, by decide⟩
  | num l =>
    obtain ⟨radix, ds, hne, hvalid⟩ := l
    cases radix with
    | hex => exact ⟨'0', 'x' :: ds, rfl, by decide, by decide⟩
    | dec =>
      cases ds with
      | nil => exact absurd rfl hne
      | cons c ds =>
        have hc : c.isDigit = true := hvalid c List.mem_cons_self
        refine ⟨c, ds, rfl, ?_, ?_⟩
        · rintro rfl
          exact absurd hc (by decide)
        · rintro rfl
          exact absurd hc (by decide)

theorem tok_head (t : Tok Atom) : ∃ c w, t.chars = c :: w ∧ c ≠ ' ' ∧ (t.starts = true → c ≠ '=') ∧
    (t.starts = false → isWord c = false) := by
  cases t with
  | operand a =>
    obtain ⟨c, w, ha, hspace, heq⟩ := atom_head a
    exact ⟨c, w, ha, hspace, fun _ => heq, nofun⟩
  | lparen => exact ⟨'(', [], rfl, by decide, fun _ => by decide, nofun⟩
  | rparen => exact ⟨')', [], rfl, by decide, nofun, fun _ => by decide⟩
  | op o =>
    cases o with
    | un u => cases u <;> exact ⟨_, _, rfl, by decide, fun _ => by decide, nofun⟩
    | bin b => cases b <;> exact ⟨_, _, rfl, by decide, nofun, fun _ => by decide⟩

/-- What a text may begin with, after what comes before. -/
theorem text_head (h : Text toks cs) (hp : InTurn after toks) {c : Char} (hc : cs.head? = some c) :
    (after = true → isWord c = false) ∧ (after = false → c ≠ '=') := by
  have hspace : ∀ {n : Nat} {rest : List Char}, (List.replicate (n + 1) ' ' ++ rest).head? = some c →
      (after = true → isWord c = false) ∧ (after = false → c ≠ '=') := by
    intro n rest hc
    cases hc
    exact ⟨fun _ => by decide, fun _ => by decide⟩
  cases h with
  | nil n =>
    cases n with
    | zero => cases hc
    | succ n =>
      rw [← List.append_nil (List.replicate (n + 1) ' ')] at hc
      exact hspace hc
  | @cons _ _ t n htext =>
    cases n with
    | succ n => exact hspace hc
    | zero =>
      obtain ⟨c', w, ht, -, heq, hword⟩ := tok_head t
      rw [ht] at hc
      cases hc
      have hstart := hp.1
      constructor
      · rintro rfl
        exact hword hstart
      · rintro rfl
        exact heq hstart

theorem lex_spaces (n : Nat) (h : cs.head? ≠ some ' ') : lex (List.replicate n ' ' ++ cs) acc = lex cs acc := by
  cases n with
  | zero => rfl
  | succ n =>
    have hrule : firstRule (List.replicate (n + 1) ' ' ++ cs) =
        some ((List.replicate (n + 1) ' ').length, .notype) := by
      apply firstRule_spaces n
      intro c hc hspace
      rw [hspace] at hc
      exact h hc
    exact lex_step (List.cons_ne_nil _ _) hrule

theorem lex_whole (t : Tok Atom) (hw : t.Whole) (htext : Text toks cs) (hp : InTurn t.ends toks) :
    ∃ tok, t.raw = [tok] ∧ tok.str.length < 32 ∧
      ∀ acc, lex (t.chars ++ cs) acc = pushToken acc tok >>= lex cs := by
  have hsymbol : (∀ a, t ≠ .operand a) → ∃ tok, t.raw = [tok] ∧ tok.str.length < 32 ∧
      ∀ acc, lex (t.chars ++ cs) acc = pushToken acc tok >>= lex cs := by
    intro ht
    obtain ⟨type, tok, hrule, htok, hraw⟩ := firstRule_symbol t ht fun hbang c hc => by
      rw [hbang] at hp
      exact (text_head htext hp hc).2 rfl
    obtain ⟨c, w, hchars, -⟩ := tok_head t
    refine ⟨tok, hraw, ?_, fun acc => lex_token ?_ hrule htok⟩
    · cases t with
      | operand a => exact absurd rfl (ht a)
      | lparen | rparen | op =>
        cases hraw
        exact Nat.zero_lt_succ 31
    · rw [hchars]
      exact List.cons_ne_nil c w
  cases t with
  | operand a =>
    have hnext : Ends isWord cs := fun c hc => (text_head htext hp hc).1 rfl
    cases a with
    | reg r =>
      obtain ⟨w, hr, -, -, hlen⟩ := reg_chars r
      refine ⟨.reg r.chars, rfl, ?_, fun acc => lex_reg r hnext⟩
      rw [Token.str, hr, List.length_cons]
      omega
    | num l =>
      refine ⟨.num l.chars, ?_, ?_, fun acc => ?_⟩
      · rw [Tok.raw, Atom.tokens, literal_tokens l hw]
      · have hradix : l.radix.lead.length + l.radix.most < 32 := by cases l.radix <;> decide
        have hlen : l.digits.length ≤ l.radix.most := hw
        rw [Token.str, Literal.chars, List.length_append]
        omega
      · have hlex : lex (l.chars ++ cs) acc = _ := lex_literal l hnext
        rw [List.take_of_length_le hw, List.drop_of_length_le hw] at hlex
        exact hlex
  | lparen | rparen | op =>
    apply hsymbol
    intro a ha
    cases ha

theorem lex_tok (t : Tok Atom) (htext : Text toks cs) (hp : InTurn t.ends toks)
    (h : lex (t.chars ++ cs) acc = .ok out) : lex cs (acc ++ t.raw) = .ok out := by
  have hwhole : t.Whole → lex cs (acc ++ t.raw) = .ok out := by
    intro hw
    obtain ⟨tok, hraw, -, hlex⟩ := lex_whole t hw htext hp
    rw [hraw]
    exact lex_pushed ((hlex acc).symm.trans h)
  cases t with
  | operand a => exact lex_atom a (fun c hc => (text_head htext hp hc).1 rfl) h
  | lparen => exact hwhole trivial
  | rparen => exact hwhole trivial
  | op o => exact hwhole trivial

theorem chars_no_space (t : Tok Atom) (cs : List Char) : (t.chars ++ cs).head? ≠ some ' ' := by
  obtain ⟨c, w, ht, hspace, -⟩ := tok_head t
  rw [ht]
  exact fun hc => hspace (Option.some.inj hc)

theorem lex_text (h : Text toks cs) (hp : InTurn after toks) (hlex : lex cs acc = .ok out) :
    out = acc ++ toks.flatMap Tok.raw := by
  induction h generalizing after acc with
  | nil n =>
    have hspaces : lex (List.replicate n ' ' ++ []) acc = lex [] acc := lex_spaces n nofun
    rw [List.append_nil, hlex] at hspaces
    cases hspaces
    exact (List.append_nil _).symm
  | @cons _ _ t n htext ih =>
    rw [lex_spaces n (chars_no_space t _)] at hlex
    have hrest := ih hp.2 (lex_tok t htext hp.2 hlex)
    rw [hrest, List.append_assoc]
    rfl

theorem lex_text_whole (h : Text toks cs) (hp : InTurn after toks) (hw : ∀ t ∈ toks, t.Whole)
    (hroom : acc.length + toks.length ≤ 32) : lex cs acc = .ok (acc ++ toks.flatMap Tok.raw) := by
  induction h generalizing after acc with
  | nil n =>
    have hspaces : lex (List.replicate n ' ' ++ []) acc = lex [] acc := lex_spaces n nofun
    rw [List.append_nil] at hspaces
    rw [hspaces, List.flatMap_nil, List.append_nil]
    rfl
  | @cons _ _ t n htext ih =>
    rw [List.length_cons] at hroom
    obtain ⟨tok, hraw, hlen, hlex⟩ := lex_whole t (hw t List.mem_cons_self) htext hp.2
    have hrest : lex _ (acc ++ [tok]) = _ := ih hp.2 (fun t' ht' => hw t' (List.mem_cons_of_mem t ht')) (by
      rw [List.length_append, List.length_singleton]
      omega)
    rw [lex_spaces n (chars_no_space t _), hlex, pushToken_room (by omega) hlen, List.flatMap_cons, hraw,
      ← List.append_assoc]
    exact hrest

end Lex

section Operands

theorem str2val_gpr {i : Fin 32} (hi : i ≠ 0) :
    isaRegStr2val ((Reg.gpr i).chars.drop 1) = (Atom.reg (.gpr i)).value := by
  have hfind : ∀ i : Fin 32, i ≠ 0 → regsl.findIdx? (· == (Reg.gpr i).chars.drop 1) = some i.val := by
    decide
  unfold isaRegStr2val
  rw [hfind i hi]
  rfl

theorem evalOperand_read (h : a.Readable) : evalOperand a.tokens = a.read := by
  cases a with
  | num l =>
    rw [Atom.tokens, literal_tokens l h]
    rfl
  | reg r =>
    cases r with
    | pc => rfl
    | gpr i => exact str2val_gpr fun hi => h (congrArg Reg.gpr hi)

theorem readable_of_evalOperand (h : evalOperand a.tokens s = .ok v t) : a.Readable := by
  cases a with
  | num l =>
    by_contra hlen
    have hrest : l.digits.drop l.radix.most ≠ [] := fun hnil => hlen (List.drop_eq_nil_iff.mp hnil)
    rw [Atom.tokens, Literal.tokens, digitTokens_cons hrest] at h
    cases h
  | reg r =>
    rintro rfl
    cases h

theorem readable_whole (h : a.Readable) : a.Whole := by
  cases a with
  | num l => exact h
  | reg r => trivial

theorem mem_toks {t : Tok Atom} {a : Atom} (h : t ∈ e.toks) (ht : t = .operand a) : a ∈ e.leaves := by
  induction e with
  | leaf b =>
    rw [List.mem_singleton.mp h] at ht
    cases ht
    exact List.mem_cons_self
  | paren e ih =>
    rcases List.mem_cons.mp h with rfl | h
    · cases ht
    · rcases List.mem_append.mp h with h | h
      · exact ih h
      · rw [List.mem_singleton.mp h] at ht
        cases ht
  | un o e ih =>
    rcases List.mem_cons.mp h with rfl | h
    · cases ht
    · exact ih h
  | bin o l r ihl ihr =>
    rcases List.mem_append.mp h with h | h
    · exact List.mem_append_left _ (ihl h)
    · rcases List.mem_cons.mp h with rfl | h
      · cases ht
      · exact List.mem_append_right _ (ihr h)

end Operands

section Numbers

theorem digitValue_digit {c : Char} (h : c.isDigit = true) : digitValue c < 10 := by
  have hrange : 48 ≤ c.toNat ∧ c.toNat ≤ 57 := Char.isDigit_iff_toNat.mp h
  unfold digitValue
  rw [if_pos h]
  omega

theorem digitValue_hex {c : Char} (h : isHexDigit c = true) : digitValue c < 16 := by
  have hle : ∀ a b : Char, a ≤ b → a.toNat ≤ b.toNat := fun _ _ => id
  have hdigit := digitValue_digit (c := c)
  unfold digitValue at hdigit ⊢
  unfold isHexDigit at h
  simp only [Bool.or_eq_true, Bool.and_eq_true, decide_eq_true_eq] at h
  split
  next hd =>
    rw [if_pos hd] at hdigit
    exact (hdigit hd).trans (by decide)
  next hd =>
  split
  next hlower =>
    have hup : c.toNat ≤ 102 := hle c 'f' hlower.2
    omega
  next hlower =>
  have hupper : 'A' ≤ c ∧ c ≤ 'F' := by
    rcases h with (h | h) | h
    · exact absurd h hd
    · exact absurd h hlower
    · exact h
  have hup : c.toNat ≤ 70 := hle c 'F' hupper.2
  rw [if_pos hupper]
  omega

theorem digitValue_accepted (radix : Radix) {c : Char} (h : radix.accepts c = true) :
    digitValue c < radix.base := by
  cases radix with
  | dec => exact digitValue_digit h
  | hex => exact digitValue_hex h

theorem digitsValue_lt {base : Nat} {ds : List Char} (h : ∀ c ∈ ds, digitValue c < base) :
    digitsValue base ds < base ^ ds.length := by
  have hfold : ∀ n, ds.foldl (fun n c => n * base + digitValue c) n < (n + 1) * base ^ ds.length := by
    induction ds with
    | nil =>
      intro n
      rw [List.length_nil, pow_zero, mul_one]
      exact Nat.lt_succ_self n
    | cons c ds ih =>
      intro n
      have hc := h c List.mem_cons_self
      rw [List.foldl_cons, List.length_cons, pow_succ']
      calc ds.foldl (fun n c => n * base + digitValue c) (n * base + digitValue c)
          < (n * base + digitValue c + 1) * base ^ ds.length :=
            ih (fun c' hc' => h c' (List.mem_cons_of_mem c hc')) _
        _ ≤ (n + 1) * base * base ^ ds.length := by
            apply Nat.mul_le_mul_right
            rw [Nat.add_mul, Nat.one_mul]
            omega
        _ = (n + 1) * (base * base ^ ds.length) := Nat.mul_assoc _ _ _
  have hzero := hfold 0
  rw [Nat.zero_add, Nat.one_mul] at hzero
  exact hzero

theorem strtoulBase_all {base : Nat} {ds : List Char} (h : ∀ c ∈ ds, digitValue c < base)
    (hlt : digitsValue base ds < 2 ^ 64) : strtoulBase base ds = BitVec.ofNat 64 (digitsValue base ds) := by
  have hall : ds.takeWhile (fun c => digitValue c < base) = ds :=
    List.takeWhile_eq_self_iff.mpr fun c hc => decide_eq_true (h c hc)
  unfold strtoulBase
  rw [hall]
  exact if_pos hlt

/-- A number without a leading zero, or a hexadecimal one. -/
def Literal.Plain (l : Literal) : Prop := l.radix = .hex ∨ l.digits.head? ≠ some '0' ∨ l.digits = ['0']

def Atom.Plain : Atom → Prop
  | num l => l.Plain
  | reg _ => True

theorem strtoul_plain (l : Literal) (hlen : l.digits.length ≤ l.radix.most) (hp : l.Plain) :
    strtoul l.chars = l.value := by
  have hvalid : ∀ c ∈ l.digits, digitValue c < l.radix.base :=
    fun c hc => digitValue_accepted l.radix (l.valid c hc)
  have hradix : 0 < l.radix.base ∧ l.radix.base ^ l.radix.most ≤ 2 ^ 64 := by
    cases l.radix <;> decide
  have hbound : digitsValue l.radix.base l.digits < 2 ^ 64 :=
    calc digitsValue l.radix.base l.digits
        < l.radix.base ^ l.digits.length := digitsValue_lt hvalid
      _ ≤ l.radix.base ^ l.radix.most := Nat.pow_le_pow_right hradix.1 hlen
      _ ≤ 2 ^ 64 := hradix.2
  have hall := strtoulBase_all hvalid hbound
  obtain ⟨radix, ds, hne, haccepts⟩ := l
  cases ds with
  | nil => exact absurd rfl hne
  | cons c ds =>
    cases radix with
    | hex =>
      have hfirst : (c :: ds).head?.any isHexDigit = true := haccepts c List.mem_cons_self
      exact (if_pos hfirst).trans hall
    | dec =>
      have hzero : c ≠ '0' ∨ c :: ds = ['0'] := by
        rcases hp with h | h | h
        · cases h
        · exact .inl fun hc => h (congrArg some hc)
        · exact .inr h
      rcases hzero with hzero | hzero
      · have hdec : strtoul (c :: ds) = strtoulBase 10 (c :: ds) := by
          rw [strtoul]
          · rintro rest h
            cases h
            exact hzero rfl
          · rintro rest h
            cases h
            exact hzero rfl
        exact hdec.trans hall
      · cases hzero
        rfl

/-- Without leading zeros every number is read as it is written. -/
theorem denote_plain (hread : ∀ a ∈ e.leaves, a.Readable) (hplain : ∀ a ∈ e.leaves, a.Plain) :
    e.denote P Atom.read = e.denote P Atom.value := by
  apply denote_congr
  intro a ha
  cases a with
  | num l => exact congrArg pure (strtoul_plain l (hread _ ha) (hplain _ ha))
  | reg r => rfl

end Numbers

section Expr

theorem expr_lexed (hlex : lex cs [] = .ok out) :
    expr P cs = eval P out.length (detectUnary none out) := by
  unfold expr
  rw [show makeToken cs.length cs [] = .ok out from hlex]

theorem lexed_of_expr (h : expr P cs s = .ok v t) : ∃ out, lex cs [] = .ok out := by
  unfold expr at h
  cases hlex : makeToken cs.length cs [] with
  | error stop =>
    rw [hlex] at h
    cases h
  | ok out => exact ⟨out, hlex⟩

theorem expr_run (htext : Text e.toks cs) (hg : e.Grouped) (hlex : lex cs [] = .ok out) :
    expr P cs = e.run P fun a => evalOperand a.tokens := by
  have hturn := toks_inTurn e
  have hout : out = e.toks.flatMap Tok.raw := lex_text htext hturn hlex
  have htokens : detectUnary none out = e.tokens Atom.tokens := by
    rw [hout]
    exact detect_toks hturn rfl
  have hlen : (e.tokens Atom.tokens).length = out.length := by
    rw [← htokens, detect_length]
  rw [expr_lexed hlex, htokens]
  exact eval_tokens P atom_tokens hg hlen.le

theorem expr_ok_iff (htext : Text e.toks cs) (hg : e.Grouped) (hroom : e.toks.length ≤ 32) :
    expr P cs s = .ok v t ↔
      e.Unsplit ∧ (∀ a ∈ e.leaves, a.Readable) ∧ e.denote P Atom.read s = .ok v t := by
  constructor
  · intro h
    obtain ⟨out, hlex⟩ := lexed_of_expr h
    rw [expr_run htext hg hlex, run_ok_iff] at h
    obtain ⟨hunsplit, hdenote⟩ := h
    have hread : ∀ a ∈ e.leaves, a.Readable := by
      intro a ha
      obtain ⟨s', v', t', hval⟩ := denote_leaf_ok hdenote a ha
      exact readable_of_evalOperand hval
    rw [denote_congr fun a ha => evalOperand_read (hread a ha)] at hdenote
    exact ⟨hunsplit, hread, hdenote⟩
  · rintro ⟨hunsplit, hread, hdenote⟩
    have hwhole : ∀ t ∈ e.toks, t.Whole := by
      intro t ht
      cases t with
      | operand a => exact readable_whole (hread a (mem_toks ht rfl))
      | lparen | rparen | op => trivial
    have hlex := lex_text_whole htext (toks_inTurn e) hwhole (by
      rw [List.length_nil, Nat.zero_add]
      exact hroom)
    rw [expr_run htext hg hlex, run_ok_iff, denote_congr fun a ha => evalOperand_read (hread a ha)]
    exact ⟨hunsplit, hdenote⟩

def Gives (m : Evaluation Word) (s : Machine) (v : Word) : Prop := ∃ t, m s = .ok v t

/-- `expr` returns the value of an expression exactly if no operation begins and ends with
parentheses, every operand is readable, and numbers with a leading zero do not matter. -/
theorem expr_gives_iff (htext : Text e.toks cs) (hg : e.Grouped) (hroom : e.toks.length ≤ 32) :
    (∃ v, Gives (e.denote P Atom.value) s v ∧ Gives (expr P cs) s v) ↔
      e.Unsplit ∧ (∀ a ∈ e.leaves, a.Readable) ∧
        ∃ v, Gives (e.denote P Atom.value) s v ∧ Gives (e.denote P Atom.read) s v := by
  constructor
  · rintro ⟨v, hvalue, t, h⟩
    obtain ⟨hunsplit, hread, hdenote⟩ := (expr_ok_iff htext hg hroom).mp h
    exact ⟨hunsplit, hread, v, hvalue, t, hdenote⟩
  · rintro ⟨hunsplit, hread, v, hvalue, t, hdenote⟩
    exact ⟨v, hvalue, t, (expr_ok_iff htext hg hroom).mpr ⟨hunsplit, hread, hdenote⟩⟩

def Literal.digit (c : Char) (h : c.isDigit = true) : Literal :=
  ⟨.dec, [c], List.cons_ne_nil c [], List.forall_mem_singleton.mpr h⟩

/-- `2*(3+$pc)- -1` -/
def pcSum : Ast Atom :=
  .bin .sub
    (.bin .mul (.leaf (.num (.digit '2' rfl)))
      (.paren (.bin .add (.leaf (.num (.digit '3' rfl))) (.leaf (.reg .pc)))))
    (.un .neg (.leaf (.num (.digit '1' rfl))))

theorem expr_gives_pcSum :
    Gives (pcSum.denote (Platform.bare .standalone) Atom.value)
        (Machine.reset (Platform.bare .standalone) fun _ => 0) 0x100200007 ∧
      Gives (expr (Platform.bare .standalone) ['2', '*', '(', '3', '+', '$', 'p', 'c', ')', '-', ' ', '-', '1'])
        (Machine.reset (Platform.bare .standalone) fun _ => 0) 0x100200007 := by
  have htext : Text pcSum.toks ['2', '*', '(', '3', '+', '$', 'p', 'c', ')', '-', ' ', '-', '1'] :=
    .cons 0 (.cons 0 (.cons 0 (.cons 0 (.cons 0 (.cons 0 (.cons 0 (.cons 0 (.cons 1 (.cons 0 (.nil 0))))))))))
  have hgrouped : pcSum.Grouped :=
    ⟨⟨trivial, ⟨trivial, trivial, by decide, by decide⟩, by decide, by decide⟩, ⟨trivial, rfl⟩, by decide, by decide⟩
  have hread : ∀ a ∈ pcSum.leaves, a.Readable := by
    have hall : pcSum.leaves =
        [.num (.digit '2' rfl), .num (.digit '3' rfl), .reg .pc, .num (.digit '1' rfl)] := rfl
    rw [hall]
    simp only [List.forall_mem_cons]
    exact ⟨Nat.le_of_ble_eq_true rfl, Nat.le_of_ble_eq_true rfl, Reg.noConfusion, Nat.le_of_ble_eq_true rfl,
      List.forall_mem_nil _⟩
  have hvalue : Gives (pcSum.denote (Platform.bare .standalone) Atom.value)
      (Machine.reset (Platform.bare .standalone) fun _ => 0) 0x100200007 := ⟨_, rfl⟩
  obtain ⟨v, ⟨t, hv⟩, hexpr⟩ := (expr_gives_iff (P := Platform.bare .standalone) htext hgrouped (by decide)).mpr
    ⟨⟨⟨trivial, ⟨trivial, trivial, rfl⟩, rfl⟩, trivial, rfl⟩, hread, 0x100200007, hvalue, _, rfl⟩
  obtain ⟨t', hv'⟩ := hvalue
  cases hv.symm.trans hv'
  exact ⟨⟨_, hv⟩, hexpr⟩

/-- `(1)+(2)` -/
def pairPlusPair : Ast Atom :=
  .bin .add (.paren (.leaf (.num (.digit '1' rfl)))) (.paren (.leaf (.num (.digit '2' rfl))))

theorem expr_splits_pairs :
    Text pairPlusPair.toks ['(', '1', ')', '+', '(', '2', ')'] ∧ pairPlusPair.Grouped ∧
      pairPlusPair.toks.length ≤ 32 ∧
      Gives (pairPlusPair.denote (Platform.bare .standalone) Atom.value)
        (Machine.reset (Platform.bare .standalone) fun _ => 0) 3 ∧
      ∀ v, ¬ Gives (expr (Platform.bare .standalone) ['(', '1', ')', '+', '(', '2', ')'])
        (Machine.reset (Platform.bare .standalone) fun _ => 0) v := by
  have htext : Text pairPlusPair.toks ['(', '1', ')', '+', '(', '2', ')'] :=
    .cons 0 (.cons 0 (.cons 0 (.cons 0 (.cons 0 (.cons 0 (.cons 0 (.nil 0)))))))
  have hgrouped : pairPlusPair.Grouped := ⟨trivial, trivial, by decide, by decide⟩
  refine ⟨htext, hgrouped, by decide, ⟨_, rfl⟩, ?_⟩
  rintro v ⟨t, h⟩
  obtain ⟨hunsplit, -⟩ := (expr_ok_iff htext hgrouped (by decide)).mp h
  exact Bool.false_ne_true hunsplit.2.2.symm

end Expr

end Nemu
