import Nemu.Lib.Pattern
import Nemu.Vaddr

namespace Nemu

set_option autoImplicit true

/-- `TK_NEG` and `TK_REF` are told apart from `-` and `*` after the tokens are made. -/
inductive UnOp where
  | bang | neg | ref
  deriving DecidableEq

inductive BinOp where
  | mul | div | mod | add | sub | eq | neq | and | or
  deriving DecidableEq

inductive Op where
  | un (o : UnOp)
  | bin (o : BinOp)
  deriving DecidableEq

/-- A token of `expr.c`. Only numbers and registers keep their text. -/
inductive Token where
  | num (str : List Char)
  | reg (str : List Char)
  | lparen
  | rparen
  | op (o : Op)
  deriving DecidableEq

/-- The token types that the rules give. -/
inductive TokenType where
  | notype | num | reg | lparen | rparen
  | op (o : Op)

structure Rule where
  regex : Pattern Char
  tokenType : TokenType

def isHexDigit (c : Char) : Bool :=
  c.isDigit || (decide ('a' ≤ c) && decide (c ≤ 'f')) || (decide ('A' ≤ c) && decide (c ≤ 'F'))

def isRegChar (c : Char) : Bool := (decide ('a' ≤ c) && decide (c ≤ 'z')) || c.isDigit

/-- In the order in which they are tried. -/
def rules : List Rule :=
  [ ⟨⟨[], fun c => c == ' ', 1, none⟩, .notype⟩,
    ⟨.fixed ['+'], .op (.bin .add)⟩,
    ⟨.fixed ['=', '='], .op (.bin .eq)⟩,
    ⟨⟨['0', 'x'], isHexDigit, 1, some 16⟩, .num⟩,
    ⟨⟨[], Char.isDigit, 1, some 10⟩, .num⟩,
    ⟨⟨['$'], isRegChar, 1, some 31⟩, .reg⟩,
    ⟨.fixed ['+'], .op (.bin .add)⟩,
    ⟨.fixed ['-'], .op (.bin .sub)⟩,
    ⟨.fixed ['*'], .op (.bin .mul)⟩,
    ⟨.fixed ['/'], .op (.bin .div)⟩,
    ⟨.fixed ['%'], .op (.bin .mod)⟩,
    ⟨.fixed ['=', '='], .op (.bin .eq)⟩,
    ⟨.fixed ['!', '='], .op (.bin .neq)⟩,
    ⟨.fixed ['&', '&'], .op (.bin .and)⟩,
    ⟨.fixed ['|', '|'], .op (.bin .or)⟩,
    ⟨.fixed ['!'], .op (.un .bang)⟩,
    ⟨.fixed ['('], .lparen⟩,
    ⟨.fixed [')'], .rparen⟩ ]

/-- How the evaluation of an expression ends without a value. -/
inductive ExprStop where
  /-- `*success` is `false` -/
  | fail
  /-- `assert(0)` -/
  | assert
  /-- a division by zero -/
  | divide
  /-- `tokens` or the text of a token is written beyond its end -/
  | overflow
  /-- what a read of memory raises, in spite of the name of `vaddr_read_safe` -/
  | access (e : Stop)

/-- The first rule that matches at the start of `e`, and the length of its match. -/
def firstRule (e : List Char) : Option (Nat × TokenType) :=
  rules.findSome? fun r => (r.regex.matchLen e).map fun len => (len, r.tokenType)

def TokenType.token (str : List Char) : TokenType → Option Token
  | notype => none
  | num => some (.num str)
  | reg => some (.reg str)
  | lparen => some .lparen
  | rparen => some .rparen
  | op o => some (.op o)

def Token.str : Token → List Char
  | num str | reg str => str
  | _ => []

/-- There are 32 tokens with 32 characters each, of which one ends the text. -/
def pushToken (tokens : List Token) (t : Token) : Except ExprStop (List Token) :=
  if tokens.length < 32 ∧ t.str.length < 32 then .ok (tokens ++ [t]) else .error .overflow

/-- The loop over the text, which takes at most as many rounds as there are characters. -/
def makeToken : Nat → List Char → List Token → Except ExprStop (List Token)
  | _, [], tokens => .ok tokens
  | 0, _ :: _, _ => .error .fail
  | fuel + 1, c :: e, tokens =>
    match firstRule (c :: e) with
    | none => .error .fail
    | some (len, type) =>
      match type.token ((c :: e).take len) with
      | none => makeToken fuel ((c :: e).drop len) tokens
      | some t => do
        let tokens ← pushToken tokens t
        makeToken fuel ((c :: e).drop len) tokens

/-- A binary operator may follow. -/
def Token.endsOperand : Token → Bool
  | num _ | reg _ | rparen => true
  | _ => false

/-- The loop of `expr` that detects `TK_NEG` and `TK_REF`; `prev` is what comes before, if anything
does. -/
def detectUnary (prev : Option Token) : List Token → List Token
  | [] => []
  | t :: ts =>
    let binary := prev.any Token.endsOperand
    let t := match t with
      | .op (.bin .sub) => if binary then t else .op (.un .neg)
      | .op (.bin .mul) => if binary then t else .op (.un .ref)
      | _ => t
    t :: detectUnary (some t) ts

def BinOp.prec : BinOp → Nat
  | mul | div | mod => 1
  | add | sub => 2
  | eq | neq => 4
  | and => 8
  | or => 9

def opPrec : Op → Nat
  | .un _ => 0
  | .bin o => o.prec

def Op.isUnary : Op → Bool
  | un _ => true
  | bin _ => false

/-- The operator `o` takes the place of the dominant one found so far. -/
def dominates (o dom : Op) : Bool :=
  decide (opPrec dom < opPrec o) || (decide (opPrec dom = opPrec o) && !o.isUnary)

/-- The loop over the tokens from index `i` on, at some bracket level. -/
def findDominatedOpFrom : List Token → Nat → Nat → Option (Nat × Op) → Option (Nat × Op)
  | [], _, _, dom => dom
  | .num _ :: ts, i, level, dom | .reg _ :: ts, i, level, dom =>
    findDominatedOpFrom ts (i + 1) level dom
  | .lparen :: ts, i, level, dom => findDominatedOpFrom ts (i + 1) (level + 1) dom
  | .rparen :: ts, i, level, dom =>
    match level with
    | 0 => none
    | level + 1 => findDominatedOpFrom ts (i + 1) level dom
  | .op o :: ts, i, level, dom =>
    if level = 0 ∧ dom.all fun d => dominates o d.2 then
      findDominatedOpFrom ts (i + 1) level (some (i, o))
    else findDominatedOpFrom ts (i + 1) level dom

def findDominatedOp (tokens : List Token) : Option (Nat × Op) := findDominatedOpFrom tokens 0 0 none

def digitValue (c : Char) : Nat :=
  if c.isDigit then c.toNat - 48
  else if 'a' ≤ c ∧ c ≤ 'f' then c.toNat - 87
  else if 'A' ≤ c ∧ c ≤ 'F' then c.toNat - 55
  else 16

def digitsValue (base : Nat) (cs : List Char) : Nat :=
  cs.foldl (fun n c => n * base + digitValue c) 0

/-- The digits of a number at the start of the text, saturated. -/
def strtoulBase (base : Nat) (cs : List Char) : Word :=
  let n := digitsValue base (cs.takeWhile fun c => digitValue c < base)
  if n < 2 ^ 64 then BitVec.ofNat 64 n else BitVec.allOnes 64

/-- `strtoul(str, NULL, 0)` of the text of a number: a leading zero that does not belong to `0x`
makes the number octal. -/
def strtoul : List Char → Word
  | '0' :: 'x' :: cs => if cs.head?.any isHexDigit then strtoulBase 16 cs else 0
  | '0' :: cs => strtoulBase 8 cs
  | cs => strtoulBase 10 cs

def regsl : List (List Char) :=
  [['$', '0'], ['r', 'a'], ['s', 'p'], ['g', 'p'], ['t', 'p'], ['t', '0'], ['t', '1'], ['t', '2'],
    ['s', '0'], ['s', '1'], ['a', '0'], ['a', '1'], ['a', '2'], ['a', '3'], ['a', '4'], ['a', '5'],
    ['a', '6'], ['a', '7'], ['s', '2'], ['s', '3'], ['s', '4'], ['s', '5'], ['s', '6'], ['s', '7'],
    ['s', '8'], ['s', '9'], ['s', '1', '0'], ['s', '1', '1'], ['t', '3'], ['t', '4'], ['t', '5'],
    ['t', '6']]

abbrev Evaluation := EStateM ExprStop Machine

def isaRegStr2val (s : List Char) : Evaluation Word := do
  let m ← get
  match regsl.findIdx? (· == s) with
  | some i => pure (m.gpr (BitVec.ofNat 5 i))
  | none => if s = ['p', 'c'] then pure m.pc else throw .fail

def vaddrReadSafe (P : Platform) (addr : Word) (len : Nat) : Evaluation Word :=
  EStateM.adaptExcept .access (vaddrReadInternal P none addr len .read .dynamic)

def applyUn (P : Platform) (o : UnOp) (val : Word) : Evaluation Word :=
  match o with
  | .bang => pure (if val = 0 then 1 else 0)
  | .neg => pure (-val)
  | .ref => vaddrReadSafe P val 4

def applyBin (o : BinOp) (val1 val2 : Word) : Evaluation Word :=
  match o with
  | .add => pure (val1 + val2)
  | .sub => pure (val1 - val2)
  | .mul => pure (val1 * val2)
  | .div => if val2 = 0 then throw .divide else pure (val1 / val2)
  | .mod => if val2 = 0 then throw .divide else pure (val1 % val2)
  | .eq => pure (if val1 = val2 then 1 else 0)
  | .neq => pure (if val1 ≠ val2 then 1 else 0)
  | .and => pure (if val1 ≠ 0 ∧ val2 ≠ 0 then 1 else 0)
  | .or => pure (if val1 ≠ 0 ∨ val2 ≠ 0 then 1 else 0)

def evalToken : Token → Evaluation Word
  | .reg str => isaRegStr2val (str.drop 1)
  | .num str => pure (strtoul str)
  | _ => throw .assert

/-- The tokens `s` to `e` are given as a list, so that none are left where `s > e`. A call takes
fewer tokens than its caller. -/
def eval (P : Platform) : Nat → List Token → Evaluation Word
  | _, [] => throw .fail
  | _, [t] => evalToken t
  | 0, _ :: _ :: _ => throw .fail
  | fuel + 1, t :: t' :: ts =>
    if t = .lparen ∧ (t' :: ts).getLast? = some .rparen then eval P fuel (t' :: ts).dropLast
    else
      match findDominatedOp (t :: t' :: ts) with
      | none => throw .fail
      | some (i, .un o) => do
        let val ← eval P fuel ((t :: t' :: ts).drop (i + 1))
        applyUn P o val
      | some (i, .bin o) => do
        let val1 ← eval P fuel ((t :: t' :: ts).take i)
        let val2 ← eval P fuel ((t :: t' :: ts).drop (i + 1))
        applyBin o val1 val2

/-- The value, where `*success` is `true` at the end. -/
def expr (P : Platform) (e : List Char) : Evaluation Word := do
  match makeToken e.length e [] with
  | .error stop => throw stop
  | .ok tokens => eval P tokens.length (detectUnary none tokens)

end Nemu
