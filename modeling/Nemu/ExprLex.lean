import Nemu.ExprSyntax

namespace Nemu

open Effect

set_option autoImplicit true

inductive Radix where
  | dec | hex

namespace Radix

def accepts : Radix → Char → Bool
  | dec => Char.isDigit
  | hex => isHexDigit

def base : Radix → Nat
  | dec => 10
  | hex => 16

def lead : Radix → List Char
  | dec => []
  | hex => ['0', 'x']

def most : Radix → Nat
  | dec => 10
  | hex => 16

end Radix

/-- A number in the text of an expression. -/
structure Literal where
  radix : Radix
  digits : List Char
  nonempty : digits ≠ []
  valid : ∀ c ∈ digits, radix.accepts c = true

def Literal.chars (l : Literal) : List Char := l.radix.lead ++ l.digits

def Literal.value (l : Literal) : Word := BitVec.ofNat 64 (digitsValue l.radix.base l.digits)

inductive Reg where
  | gpr (i : Fin 32)
  | pc

/-- The name of `x0` has its dollar sign already. -/
def Reg.chars : Reg → List Char
  | gpr i => if i = 0 then ['$', '0'] else '$' :: regsl.getD i.val []
  | pc => ['$', 'p', 'c']

def Reg.value (s : Machine) : Reg → Word
  | gpr i => s.gpr (BitVec.ofNat 5 i.val)
  | pc => s.pc

inductive Atom where
  | num (l : Literal)
  | reg (r : Reg)

namespace Atom

def chars : Atom → List Char
  | num l => l.chars
  | reg r => r.chars

def value : Atom → Evaluation Word
  | num l => pure l.value
  | reg r => do
    let s ← get
    pure (r.value s)

/-- What an operand is read as: a decimal number with a leading zero is read as an octal one. -/
def read : Atom → Evaluation Word
  | num l => pure (strtoul l.chars)
  | reg r => (reg r).value

/-- The operand makes one token, and a register is one that is found by its name. -/
def Readable : Atom → Prop
  | num l => l.digits.length ≤ l.radix.most
  | reg r => r ≠ .gpr 0

end Atom

def BinOp.chars : BinOp → List Char
  | mul => ['*']
  | div => ['/']
  | mod => ['%']
  | add => ['+']
  | sub => ['-']
  | eq => ['=', '=']
  | neq => ['!', '=']
  | and => ['&', '&']
  | or => ['|', '|']

def UnOp.chars : UnOp → List Char
  | bang => ['!']
  | neg => ['-']
  | ref => ['*']

def Tok.chars : Tok Atom → List Char
  | operand a => a.chars
  | lparen => ['(']
  | rparen => [')']
  | op (.un o) => o.chars
  | op (.bin o) => o.chars

/-- The operator that a rule gives. -/
def Op.raw : Op → Op
  | un .neg => .bin .sub
  | un .ref => .bin .mul
  | o => o

/-- A run of decimal digits is torn into tokens of at most 10. -/
def digitTokens (ds : List Char) : List Token :=
  if ds.isEmpty then [] else .num (ds.take 10) :: digitTokens (ds.drop 10)
termination_by ds.length
decreasing_by
  have hpos := List.length_pos_iff.mpr (List.isEmpty_eq_false_iff.mp (Bool.eq_false_of_not_eq_true ‹_›))
  rw [List.length_drop]
  omega

/-- The tokens of a number; what does not fit into the first is torn off. -/
def Literal.tokens (l : Literal) : List Token :=
  .num (l.radix.lead ++ l.digits.take l.radix.most) :: digitTokens (l.digits.drop l.radix.most)

def Atom.tokens : Atom → List Token
  | num l => l.tokens
  | reg r => [.reg r.chars]

/-- The tokens of an element before `TK_NEG` and `TK_REF` are detected. -/
def Tok.raw : Tok Atom → List Token
  | operand a => a.tokens
  | lparen => [.lparen]
  | rparen => [.rparen]
  | op o => [.op o.raw]

/-- The text of an expression, with any number of spaces between its elements. -/
inductive Text : List (Tok Atom) → List Char → Prop where
  | nil (n : Nat) : Text [] (List.replicate n ' ')
  | cons (n : Nat) : Text toks cs → Text (t :: toks) (List.replicate n ' ' ++ (t.chars ++ cs))

variable {P : Platform} {cs ds e lead w : List Char} {acc out : List Token} {toks : List (Tok Atom)}
  {fuel : Nat} {s : Machine}

section Loop

theorem rules_consume : ∀ r ∈ rules, r.regex.lead ≠ [] ∨ 1 ≤ r.regex.least := by decide

theorem firstRule_pos (h : firstRule e = some (len, type)) : 0 < len := by
  obtain ⟨r, hr, hm⟩ := List.exists_of_findSome?_eq_some h
  cases hlen : r.regex.matchLen e with
  | none =>
    rw [hlen] at hm
    cases hm
  | some n =>
    rw [hlen] at hm
    cases hm
    exact Pattern.matchLen_pos (rules_consume r hr) hlen

/-- The loop needs no more rounds than there are characters. -/
theorem makeToken_fuel (hf : e.length ≤ fuel) (hf' : e.length ≤ fuel') :
    makeToken fuel e acc = makeToken fuel' e acc := by
  induction fuel generalizing fuel' e acc with
  | zero =>
    cases e with
    | nil => cases fuel' <;> rfl
    | cons c e => cases hf
  | succ fuel ih =>
    cases e with
    | nil => cases fuel' <;> rfl
    | cons c e =>
      cases fuel' with
      | zero => cases hf'
      | succ fuel' =>
        rw [List.length_cons] at hf hf'
        rw [makeToken, makeToken]
        cases hrule : firstRule (c :: e) with
        | none => rfl
        | some r =>
          obtain ⟨len, type⟩ := r
          have hlen := firstRule_pos hrule
          have hdrop : ((c :: e).drop len).length ≤ e.length := by
            rw [List.length_drop, List.length_cons]
            omega
          have hrest : ∀ acc, makeToken fuel ((c :: e).drop len) acc =
              makeToken fuel' ((c :: e).drop len) acc := fun acc => ih (by omega) (by omega)
          dsimp only
          cases type.token ((c :: e).take len) with
          | none => exact hrest acc
          | some t => exact congrArg (pushToken acc t >>= ·) (funext hrest)

/-- The tokens of a text, after those that are made already. -/
def lex (e : List Char) (acc : List Token) : Except ExprStop (List Token) := makeToken e.length e acc

theorem lex_rule (hrule : firstRule (c :: e) = some (len, type)) :
    lex (c :: e) acc = (type.token ((c :: e).take len)).elim (lex ((c :: e).drop len) acc)
      fun t => pushToken acc t >>= lex ((c :: e).drop len) := by
  have hlen := firstRule_pos hrule
  have hrest : ∀ acc, makeToken e.length ((c :: e).drop len) acc = lex ((c :: e).drop len) acc := by
    intro acc
    apply makeToken_fuel
    · rw [List.length_drop, List.length_cons]
      omega
    · exact Nat.le_refl _
  unfold lex
  rw [List.length_cons, makeToken, hrule]
  dsimp only
  cases type.token ((c :: e).take len) with
  | none => exact hrest acc
  | some t => exact congrArg (pushToken acc t >>= ·) (funext hrest)

theorem lex_step (hw : w ≠ []) (hrule : firstRule (w ++ cs) = some (w.length, type)) :
    lex (w ++ cs) acc = (type.token w).elim (lex cs acc) fun t => pushToken acc t >>= lex cs := by
  have hdrop : (w ++ cs).drop w.length = cs := List.drop_left
  have htake : (w ++ cs).take w.length = w := List.take_left
  cases w with
  | nil => exact absurd rfl hw
  | cons c w =>
    have hstep : lex ((c :: w) ++ cs) acc =
        (type.token (((c :: w) ++ cs).take (c :: w).length)).elim
          (lex (((c :: w) ++ cs).drop (c :: w).length) acc)
          fun t => pushToken acc t >>= lex (((c :: w) ++ cs).drop (c :: w).length) :=
      lex_rule hrule
    rw [hdrop, htake] at hstep
    exact hstep

theorem lex_token (hw : w ≠ []) (hrule : firstRule (w ++ cs) = some (w.length, type))
    (ht : type.token w = some t) : lex (w ++ cs) acc = pushToken acc t >>= lex cs := by
  rw [lex_step hw hrule, ht]
  rfl

theorem pushToken_room (hr : acc.length < 32) (ht : t.str.length < 32) :
    pushToken acc t = .ok (acc ++ [t]) :=
  if_pos ⟨hr, ht⟩

theorem lex_pushed (h : (pushToken acc t >>= lex cs) = .ok out) : lex cs (acc ++ [t]) = .ok out := by
  unfold pushToken at h
  split at h
  · exact h
  · cases h

end Loop

section Rules

/-- A character that may belong to a number or to the name of a register. -/
def isWord (c : Char) : Bool := isRegChar c || isHexDigit c

theorem firstRule_at (k : Nat) {r : Rule} (hk : rules[k]? = some r)
    (hpre : ∀ r' ∈ rules.take k, r'.regex.matchLen e = none) (hr : r.regex.matchLen e = some len) :
    firstRule e = some (len, r.tokenType) := by
  obtain ⟨hlt, hget⟩ := List.getElem?_eq_some_iff.mp hk
  have hnone : (rules.take k).findSome? (fun r => (r.regex.matchLen e).map fun len => (len, r.tokenType)) =
      none := by
    apply List.findSome?_eq_none_iff.mpr
    intro r' hr'
    rw [hpre r' hr']
    rfl
  unfold firstRule
  rw [← List.take_append_drop k rules, List.findSome?_append, hnone, List.drop_eq_getElem_cons hlt, hget,
    List.findSome?_cons, hr]
  rfl

theorem matchLen_rule {r : Rule} (hr : r ∈ rules) (h : r.regex.begins c = false) :
    r.regex.matchLen (c :: e) = none :=
  Pattern.matchLen_begins (rules_consume r hr) h

theorem matchLen_before {k : Nat} (h : ∀ r ∈ rules.take k, r.regex.begins c = false) :
    ∀ r ∈ rules.take k, r.regex.matchLen (c :: e) = none :=
  fun r hr => matchLen_rule (List.mem_of_mem_take hr) (h r hr)

theorem firstRule_none (h : ∀ r ∈ rules, r.regex.begins c = false) : firstRule (c :: e) = none := by
  apply List.findSome?_eq_none_iff.mpr
  intro r hr
  rw [matchLen_rule hr (h r hr)]
  rfl

theorem matchLen_fixed (w : List Char) : (Pattern.fixed w).matchLen (w ++ cs) = some w.length := by
  have hrun := Pattern.matchLen_run (p := .fixed w) (w := []) (s := cs) (fun c hc => nomatch hc)
    (fun c hc => rfl) (Nat.le_refl 0)
  rw [show (Pattern.fixed w).lead = w from rfl, List.append_nil] at hrun
  exact hrun

theorem firstRule_fixed (k : Nat) (hk : rules[k]? = some ⟨.fixed (c :: w), type⟩)
    (hpre : ∀ r ∈ rules.take k, r.regex.begins c = false) :
    firstRule ((c :: w) ++ cs) = some ((c :: w).length, type) :=
  firstRule_at k hk (matchLen_before hpre) (matchLen_fixed (c :: w))

theorem firstRule_spaces (n : Nat) (h : ∀ c, cs.head? = some c → c ≠ ' ') :
    firstRule (List.replicate (n + 1) ' ' ++ cs) = some ((List.replicate (n + 1) ' ').length, .notype) := by
  have hrun := Pattern.matchLen_run (p := ⟨[], fun c => c == ' ', 1, none⟩) (s := cs)
    (w := List.replicate (n + 1) ' ') (fun c hc => by simp [List.eq_of_mem_replicate hc])
    (fun c hc => beq_eq_false_iff_ne.mpr (h c hc)) (by simp [Pattern.bounded])
  simp only [List.nil_append, List.length_nil, Nat.zero_add, Pattern.bounded] at hrun
  exact firstRule_at 0 rfl (fun r hr => nomatch hr) hrun

theorem firstRule_symbol (t : Tok Atom) (ht : ∀ a, t ≠ .operand a)
    (h : t = .op (.un .bang) → ∀ c, cs.head? = some c → c ≠ '=') :
    ∃ type tok, firstRule (t.chars ++ cs) = some (t.chars.length, type) ∧
      type.token t.chars = some tok ∧ t.raw = [tok] := by
  cases t with
  | operand a => exact absurd rfl (ht a)
  | lparen => exact ⟨.lparen, _, firstRule_fixed 16 rfl (by decide), rfl, rfl⟩
  | rparen => exact ⟨.rparen, _, firstRule_fixed 17 rfl (by decide), rfl, rfl⟩
  | op o =>
    cases o with
    | bin o =>
      refine ⟨.op (.bin o), _, ?_, rfl, rfl⟩
      cases o with
      | mul => exact firstRule_fixed 8 rfl (by decide)
      | div => exact firstRule_fixed 9 rfl (by decide)
      | mod => exact firstRule_fixed 10 rfl (by decide)
      | add => exact firstRule_fixed 1 rfl (by decide)
      | sub => exact firstRule_fixed 7 rfl (by decide)
      | eq => exact firstRule_fixed 2 rfl (by decide)
      | neq => exact firstRule_fixed 12 rfl (by decide)
      | and => exact firstRule_fixed 13 rfl (by decide)
      | or => exact firstRule_fixed 14 rfl (by decide)
    | un o =>
      refine ⟨.op (Op.raw (.un o)), _, ?_, rfl, rfl⟩
      cases o with
      | neg => exact firstRule_fixed 7 rfl (by decide)
      | ref => exact firstRule_fixed 8 rfl (by decide)
      | bang =>
        -- the rule for `!=` is tried before
        have hpre : ∀ r ∈ rules.take 15, r.regex.begins '!' = false ∨ r.regex.lead = ['!', '='] := by
          decide
        apply firstRule_at 15 rfl _ (matchLen_fixed ['!'])
        intro r hr
        obtain hb | hlead := hpre r hr
        · exact matchLen_rule (List.mem_of_mem_take hr) hb
        · apply Pattern.matchLen_lead
          rw [hlead]
          cases cs with
          | nil => rfl
          | cons c cs =>
            have hc : ('=' == c) = false := beq_eq_false_iff_ne.mpr fun hc => h rfl c rfl hc.symm
            exact (Bool.and_eq_false_iff.mpr (.inr (Bool.and_eq_false_iff.mpr (.inl hc))))

/-- The text begins with no character of a class. -/
def Ends (q : Char → Bool) (cs : List Char) : Prop := ∀ c, cs.head? = some c → q c = false

/-- A digit or the second character of a hexadecimal number. -/
def isDigitOrX (c : Char) : Bool := c.isDigit || c == 'x'

theorem firstRule_digits (hw : w ≠ []) (hd : ∀ c ∈ w, c.isDigit = true) (hnext : Ends isDigitOrX cs) :
    firstRule (w ++ cs) = some (min w.length 10, .num) := by
  have hends : ∀ c, cs.head? = some c → c.isDigit = false :=
    fun c hc => (Bool.or_eq_false_iff.mp (hnext c hc)).1
  have hpos := List.length_pos_iff.mpr hw
  have hrun := Pattern.matchLen_run (p := ⟨[], Char.isDigit, 1, some 10⟩) hd hends
    (le_min hpos (by decide))
  cases w with
  | nil => exact absurd rfl hw
  | cons c w =>
    have hc := hd c List.mem_cons_self
    have hne : ∀ b : Char, b.isDigit = false → (b == c) = false := by
      intro b hb
      apply beq_eq_false_iff_ne.mpr
      rintro rfl
      exact absurd hc (by rw [hb]; exact Bool.false_ne_true)
    have hx : ∀ d, (w ++ cs).head? = some d → ('x' == d) = false := by
      intro d hd'
      apply beq_eq_false_iff_ne.mpr
      rintro rfl
      cases w with
      | nil => exact absurd (hnext _ hd') (by decide)
      | cons d w =>
        cases hd'
        exact absurd (hd 'x' (by simp)) (by decide)
    have hpre : ∀ r ∈ rules.take 4, r.regex.matchLen (c :: (w ++ cs)) = none := by
      intro r hr
      have hmem := List.mem_of_mem_take hr
      simp only [rules, List.take_succ_cons, List.take_zero, List.mem_cons, List.not_mem_nil,
        or_false] at hr
      obtain rfl | rfl | rfl | rfl := hr
      · apply matchLen_rule hmem
        exact (Bool.beq_comm (a := c) (b := ' ')).trans (hne ' ' rfl)
      · exact matchLen_rule hmem (hne '+' rfl)
      · exact matchLen_rule hmem (hne '=' rfl)
      · apply Pattern.matchLen_lead
        cases hrest : w ++ cs with
        | nil => exact Bool.and_false _
        | cons d e =>
          have hd' := hx d (by rw [hrest]; rfl)
          exact Bool.and_eq_false_iff.mpr (.inr (Bool.and_eq_false_iff.mpr (.inl hd')))
    rw [List.nil_append, List.length_nil, Nat.zero_add] at hrun
    exact firstRule_at 4 rfl hpre hrun

theorem firstRule_hex (hw : w ≠ []) (hd : ∀ c ∈ w, isHexDigit c = true) (hnext : Ends isHexDigit cs) :
    firstRule (['0', 'x'] ++ w ++ cs) = some (2 + min w.length 16, .num) := by
  have hpos := List.length_pos_iff.mpr hw
  have hrun := Pattern.matchLen_run (p := ⟨['0', 'x'], isHexDigit, 1, some 16⟩) hd hnext
    (le_min hpos (by decide))
  exact firstRule_at 3 rfl (matchLen_before (by decide)) hrun

theorem firstRule_reg (hw : w ≠ []) (hd : ∀ c ∈ w, isRegChar c = true) (hnext : Ends isRegChar cs) :
    firstRule (['$'] ++ w ++ cs) = some (1 + min w.length 31, .reg) := by
  have hpos := List.length_pos_iff.mpr hw
  have hrun := Pattern.matchLen_run (p := ⟨['$'], isRegChar, 1, some 31⟩) hd hnext
    (le_min hpos (by decide))
  exact firstRule_at 5 rfl (matchLen_before (by decide)) hrun

/-- No token begins with a hexadecimal digit that is no decimal one. -/
theorem firstRule_letter (hc : isHexDigit c = true) (hd : c.isDigit = false) :
    firstRule (c :: e) = none := by
  have hne : ∀ b : Char, isHexDigit b = false ∨ b.isDigit = true → (b == c) = false := by
    intro b hb
    apply beq_eq_false_iff_ne.mpr
    rintro rfl
    obtain hb | hb := hb
    · exact Bool.false_ne_true (hb.symm.trans hc)
    · exact Bool.false_ne_true (hd.symm.trans hb)
  have hspace : (c == ' ') = false := (Bool.beq_comm (a := c) (b := ' ')).trans (hne ' ' (.inl rfl))
  have hlead : ∀ r ∈ rules, r.regex.lead.head?.all (fun b => !isHexDigit b || b.isDigit) = true := by
    decide
  have hrest : ∀ r ∈ rules, r.regex.lead = [] → r.regex.rest c = false := by
    unfold rules
    simp [Pattern.fixed, hspace, hd]
  apply firstRule_none
  intro r hr
  unfold Pattern.begins
  cases hl : r.regex.lead with
  | nil => exact hrest r hr hl
  | cons b l =>
    have hb := hlead r hr
    rw [hl, List.head?_cons, Option.all_some, Bool.or_eq_true, Bool.not_eq_true'] at hb
    exact hne b hb

end Rules

section Words

theorem digitTokens_nil : digitTokens [] = [] := by
  rw [digitTokens]
  rfl

theorem digitTokens_cons (hne : ds ≠ []) :
    digitTokens ds = .num (ds.take 10) :: digitTokens (ds.drop 10) := by
  rw [digitTokens, List.isEmpty_eq_false_iff.mpr hne]
  rfl

theorem literal_tokens (l : Literal) (h : l.digits.length ≤ l.radix.most) : l.tokens = [.num l.chars] := by
  have htake : l.digits.take l.radix.most = l.digits := List.take_of_length_le h
  have hdrop : l.digits.drop l.radix.most = [] := List.drop_of_length_le h
  rw [Literal.tokens, htake, hdrop, digitTokens_nil]
  rfl

/-- A token that is cut off a longer run. -/
theorem lex_cut {n : Nat} (hne : lead ++ ds.take n ≠ [])
    (hrule : firstRule (lead ++ ds ++ cs) = some (lead.length + min ds.length n, .num)) :
    lex (lead ++ ds ++ cs) acc =
      pushToken acc (.num (lead ++ ds.take n)) >>= lex (ds.drop n ++ cs) := by
  have hsplit : lead ++ ds ++ cs = lead ++ ds.take n ++ (ds.drop n ++ cs) := by
    rw [List.append_assoc, List.append_assoc, ← List.append_assoc (ds.take n), List.take_append_drop]
  have hlen : (lead ++ ds.take n).length = lead.length + min ds.length n := by
    rw [List.length_append, List.length_take, Nat.min_comm]
  rw [hsplit] at hrule ⊢
  rw [← hlen] at hrule
  exact lex_token hne hrule rfl

theorem lex_digits (hd : ∀ c ∈ ds, c.isDigit = true) (hnext : Ends isDigitOrX cs)
    (h : lex (ds ++ cs) acc = .ok out) : lex cs (acc ++ digitTokens ds) = .ok out := by
  induction ds using digitTokens.induct generalizing acc with
  | case1 ds hempty =>
    have hnil := List.isEmpty_iff.mp hempty
    rw [hnil] at h ⊢
    rw [digitTokens_nil, List.append_nil]
    exact h
  | case2 ds hempty ih =>
    have hne : ds ≠ [] := fun hnil => hempty (List.isEmpty_iff.mpr hnil)
    have htake : ds.take 10 ≠ [] := fun hnil => hne ((List.take_eq_nil_iff.mp hnil).resolve_left (by decide))
    have hcut : lex ([] ++ ds ++ cs) acc =
        pushToken acc (.num ([] ++ ds.take 10)) >>= lex (ds.drop 10 ++ cs) := by
      apply lex_cut htake
      rw [List.length_nil, Nat.zero_add]
      exact firstRule_digits hne hd hnext
    rw [digitTokens_cons hne, List.append_cons]
    apply ih fun c hc => hd c (List.mem_of_mem_drop hc)
    exact lex_pushed (hcut.symm.trans h)

theorem isHexDigit_of_isDigit (h : c.isDigit = true) : isHexDigit c = true := by
  unfold isHexDigit
  rw [h]
  rfl

theorem Ends.mono {q q' : Char → Bool} (h : Ends q cs) (hq : ∀ c, q c = false → q' c = false) :
    Ends q' cs := fun c hc => hq c (h c hc)

theorem notWord_hex (h : isWord c = false) : isHexDigit c = false := (Bool.or_eq_false_iff.mp h).2

theorem notWord_reg (h : isWord c = false) : isRegChar c = false := (Bool.or_eq_false_iff.mp h).1

theorem notWord_digitOrX (h : isWord c = false) : isDigitOrX c = false := by
  unfold isDigitOrX
  cases hd : c.isDigit with
  | true => exact (Bool.false_ne_true ((notWord_hex h).symm.trans (isHexDigit_of_isDigit hd))).elim
  | false =>
    apply beq_eq_false_iff_ne.mpr
    rintro rfl
    exact absurd h (by decide)

/-- What is torn off a number is made of decimal digits only. -/
theorem lex_torn (hd : ∀ c ∈ ds, isHexDigit c = true) (hnext : Ends isWord cs)
    (h : lex (ds ++ cs) acc = .ok out) : lex cs (acc ++ digitTokens ds) = .ok out := by
  have hsplit := List.takeWhile_append_dropWhile (p := Char.isDigit) (l := ds)
  have hdigits : ∀ c ∈ ds.takeWhile Char.isDigit, c.isDigit = true := fun c hc => List.mem_takeWhile_imp hc
  cases hu : ds.dropWhile Char.isDigit with
  | nil =>
    rw [hu, List.append_nil] at hsplit
    rw [hsplit] at hdigits
    exact lex_digits hdigits (hnext.mono fun c => notWord_digitOrX) h
  | cons c u =>
    have hc : c.isDigit = false := by
      have hhead := List.head?_dropWhile_not Char.isDigit ds
      rw [hu] at hhead
      exact Bool.eq_false_iff.mpr (by simpa using hhead)
    have hmem : c ∈ ds := by
      rw [← hsplit, hu]
      exact List.mem_append_right _ List.mem_cons_self
    have hcx : c ≠ 'x' := by
      rintro rfl
      exact absurd (hd _ hmem) (by decide)
    rw [← hsplit, hu, List.append_assoc] at h
    have hletter := lex_digits hdigits (by
      intro d hd'
      cases hd'
      exact Bool.or_eq_false_iff.mpr ⟨hc, beq_eq_false_iff_ne.mpr hcx⟩) h
    unfold lex at hletter
    rw [List.cons_append, List.length_cons, makeToken, firstRule_letter (hd c hmem) hc] at hletter
    cases hletter

theorem lex_literal (l : Literal) (hnext : Ends isWord cs) :
    lex (l.chars ++ cs) acc = pushToken acc (.num (l.radix.lead ++ l.digits.take l.radix.most)) >>=
      lex (l.digits.drop l.radix.most ++ cs) := by
  obtain ⟨radix, ds, hne, hvalid⟩ := l
  cases radix with
  | dec =>
    apply lex_cut (n := 10)
    · exact fun hnil => hne ((List.take_eq_nil_iff.mp hnil).resolve_left (by decide))
    · rw [Radix.lead, List.nil_append, List.length_nil, Nat.zero_add]
      exact firstRule_digits hne hvalid (hnext.mono fun c => notWord_digitOrX)
  | hex =>
    apply lex_cut (n := 16)
    · exact List.cons_ne_nil '0' _
    · exact firstRule_hex hne hvalid (hnext.mono fun c => notWord_hex)

theorem reg_chars (r : Reg) : ∃ w, r.chars = '$' :: w ∧ w ≠ [] ∧ (∀ c ∈ w, isRegChar c = true) ∧
    w.length < 31 := by
  cases r with
  | pc => exact ⟨['p', 'c'], rfl, by decide, List.all_eq_true.mp rfl, by decide⟩
  | gpr i =>
    have hall : ∀ i, (Reg.gpr i).chars = '$' :: (Reg.gpr i).chars.tail ∧ (Reg.gpr i).chars.tail ≠ [] ∧
        (Reg.gpr i).chars.tail.all isRegChar = true ∧ (Reg.gpr i).chars.tail.length < 31 := by
      decide
    obtain ⟨hchars, hne, hreg, hlen⟩ := hall i
    exact ⟨_, hchars, hne, List.all_eq_true.mp hreg, hlen⟩

theorem lex_reg (r : Reg) (hnext : Ends isWord cs) :
    lex (r.chars ++ cs) acc = pushToken acc (.reg r.chars) >>= lex cs := by
  obtain ⟨w, hr, hne, hw, hlen⟩ := reg_chars r
  rw [hr]
  have hrule : firstRule (('$' :: w) ++ cs) = _ := firstRule_reg hne hw (hnext.mono fun c => notWord_reg)
  rw [Nat.min_eq_left (by omega), Nat.add_comm, ← List.length_cons] at hrule
  exact lex_token (List.cons_ne_nil _ _) hrule rfl

theorem lex_atom (a : Atom) (hnext : Ends isWord cs) (h : lex (a.chars ++ cs) acc = .ok out) :
    lex cs (acc ++ a.tokens) = .ok out := by
  cases a with
  | reg r => exact lex_pushed ((lex_reg r hnext).symm.trans h)
  | num l =>
    have hhex : ∀ c ∈ l.digits, isHexDigit c = true := by
      intro c hc
      have hc := l.valid c hc
      cases hradix : l.radix with
      | dec =>
        rw [hradix] at hc
        exact isHexDigit_of_isDigit hc
      | hex =>
        rw [hradix] at hc
        exact hc
    have hrest := lex_pushed ((lex_literal l hnext).symm.trans h)
    rw [Atom.tokens, Literal.tokens, List.append_cons]
    exact lex_torn (fun c hc => hhex c (List.mem_of_mem_drop hc)) hnext hrest

/-- The text of an operand that makes one token. -/
def Atom.Whole : Atom → Prop
  | num l => l.digits.length ≤ l.radix.most
  | reg _ => True

end Words

end Nemu
