import Calculator.Proofs.Lexemes
import Calculator.Proofs.Outcome

/-!
# The grammar of expressions

The stratified grammar
```
Sum ::= Product | Sum ('+' | '-') Product
Product ::= Power | Product ('*' | '/' | '%') Power
Power ::= ('+' | '-') Power | Atom '^' Power | Atom
Atom ::= number | identifier | identifier '(' [Arguments] ')' | '(' Sum ')'
Arguments ::= Sum | Sum ',' Arguments
```
as types of derivations, with the tokens that a derivation derives (`tokens`) and its evaluation from left to right in
a scope (`value`).  `Ends level ts` says that an expression at the level ends before the tokens `ts`.
-/

namespace Calculator

def Operator.token : Operator → Token
  | add => ⟨.plus, "+"⟩
  | subtract => ⟨.minus, "-"⟩
  | multiply => ⟨.star, "*"⟩
  | divide => ⟨.slash, "/"⟩
  | modulo => ⟨.percent, "%"⟩
  | power => ⟨.caret, "^"⟩

/-- How tightly an operator binds. -/
def Operator.precedence (op : Operator) : Precedence :=
  op.token.kind.precedence

theorem Operator.ofKind?_token (op : Operator) : ofKind? op.token.kind = some op := by
  cases op <;> rfl

/-- An operator that is not a power reads its right operand at its own level. -/
theorem Operator.rightPrecedence_eq (op : Operator) {level : Precedence} (h : op.precedence = level)
    (hne : level ≠ .exponential) : op.rightPrecedence = level := by
  subst h
  cases op <;> first | rfl | exact absurd rfl hne

theorem Operator.token_injective {op op' : Operator} (h : op.token = op'.token) : op = op' := by
  have hk := ofKind?_token op
  rw [h, ofKind?_token] at hk
  exact (Option.some.inj hk).symm

/-- The signs that may stand before an operand. -/
inductive Sign where
  | plus
  | minus
deriving DecidableEq, Repr

namespace Sign

def token : Sign → Token
  | plus => ⟨.plus, "+"⟩
  | minus => ⟨.minus, "-"⟩

/-- What a sign does to its operand. -/
def apply : Sign → Float → Float
  | plus, a => a
  | minus, a => -a

theorem token_injective {s s' : Sign} (h : s.token = s'.token) : s = s' := by
  cases s <;> cases s' <;> first | rfl | exact absurd h (by decide)

end Sign

namespace Token

def leftParen : Token := ⟨.leftParen, "("⟩

def rightParen : Token := ⟨.rightParen, ")"⟩

def comma : Token := ⟨.comma, ","⟩

theorem valid_leftParen : leftParen.Valid := .symbol (c := '(') rfl

theorem valid_rightParen : rightParen.Valid := .symbol (c := ')') rfl

theorem valid_comma : comma.Valid := .symbol (c := ',') rfl

/-- A valid token that is a symbol is determined by its kind. -/
theorem Valid.eq_of_kind {t u : Token} (ht : t.Valid) (hu : u.Valid) {c : Char} (hc : u.kind.symbol? = some c)
    (hk : t.kind = u.kind) : t = u := by
  rw [ht.eq_symbol (hk ▸ hc), hu.eq_symbol hc, hk]

/-- Where the next token has the kind of a symbol, the tokens start with the symbol. -/
theorem eq_cons_of_next {ts : List Token} (hv : ∀ t ∈ ts, t.Valid) {u : Token} (hu : u.Valid) {c : Char}
    (hc : u.kind.symbol? = some c) (hk : (next ts).kind = u.kind) : ts = u :: ts.tail := by
  cases ts with
  | nil =>
    rw [← hk] at hc
    cases hc
  | cons t ts =>
    have ht : t.Valid := hv t List.mem_cons_self
    rw [ht.eq_of_kind hu hc hk, List.tail_cons]

end Token

theorem Operator.exists_symbol (op : Operator) : ∃ c, op.token.kind.symbol? = some c := by
  cases op <;> exact ⟨_, rfl⟩

theorem Sign.exists_symbol (s : Sign) : ∃ c, s.token.kind.symbol? = some c := by
  cases s <;> exact ⟨_, rfl⟩

theorem Operator.valid_token (op : Operator) : op.token.Valid := by
  cases op <;> exact .symbol rfl

theorem Sign.valid_token (s : Sign) : s.token.Valid := by
  cases s <;> exact .symbol rfl

/-- A valid token that stands for an operator is the token of the operator. -/
theorem Token.Valid.eq_operator {t : Token} (ht : t.Valid) {op : Operator} (h : Operator.ofKind? t.kind = some op) :
    t = op.token := by
  have hk : t.kind = op.token.kind := by
    cases ht' : t.kind <;> rw [ht'] at h <;> cases h <;> rfl
  obtain ⟨c, hc⟩ := op.exists_symbol
  exact ht.eq_of_kind op.valid_token hc hk

/-- No operator at the front of the tokens binds tighter than the level. -/
def Ends (level : Precedence) (ts : List Token) : Prop :=
  ¬ level < (Token.next ts).kind.precedence

theorem ends_nil (level : Precedence) : Ends level [] :=
  Nat.not_lt_zero level.rank

theorem ends_rightParen (level : Precedence) (ts : List Token) : Ends level (Token.rightParen :: ts) :=
  Nat.not_lt_zero level.rank

theorem ends_comma (level : Precedence) (ts : List Token) : Ends level (Token.comma :: ts) :=
  Nat.not_lt_zero level.rank

/-- An operator ends the expressions at its own level. -/
theorem ends_operator (op : Operator) {level : Precedence} (h : op.precedence = level) (ts : List Token) :
    Ends level (op.token :: ts) := by
  rw [← h]
  exact Nat.lt_irrefl op.precedence.rank

theorem Ends.of_le {level level' : Precedence} {ts : List Token} (h : Ends level ts)
    (hle : level.rank ≤ level'.rank) : Ends level' ts := by
  intro hlt
  exact h (Nat.lt_of_le_of_lt hle hlt)

theorem Ends.next_ne_leftParen {ts : List Token} (h : Ends .exponential ts) : (Token.next ts).kind ≠ .leftParen := by
  intro hk
  rw [Ends, hk] at h
  exact h (by decide)

namespace Grammar

mutual

/-- Sums of products, grouped to the left. -/
inductive Sum where
  | product (p : Product)
  | binary (l : Sum) (op : Operator) (h : op.precedence = .additive) (r : Product)

/-- Products of powers, grouped to the left. -/
inductive Product where
  | power (p : Power)
  | binary (l : Product) (op : Operator) (h : op.precedence = .multiplicative) (r : Power)

/-- Signed operands and powers, grouped to the right. -/
inductive Power where
  | signed (s : Sign) (p : Power)
  | power (a : Atom) (p : Power)
  | atom (a : Atom)

/-- Operands without a sign. -/
inductive Atom where
  | number (text : String)
  | constant (name : String)
  | callNone (name : String)
  | call (name : String) (args : Arguments)
  | group (s : Sum)

/-- One argument or more. -/
inductive Arguments where
  | one (s : Sum)
  | more (s : Sum) (args : Arguments)

end

mutual

/-- The tokens of a sum. -/
def Sum.tokens : Sum → List Token
  | .product p => p.tokens
  | .binary l op _ r => l.tokens ++ op.token :: r.tokens

def Product.tokens : Product → List Token
  | .power p => p.tokens
  | .binary l op _ r => l.tokens ++ op.token :: r.tokens

def Power.tokens : Power → List Token
  | .signed s p => s.token :: p.tokens
  | .power a p => a.tokens ++ Operator.power.token :: p.tokens
  | .atom a => a.tokens

def Atom.tokens : Atom → List Token
  | .number text => [⟨.number, text⟩]
  | .constant name => [⟨.identifier, name⟩]
  | .callNone name => [⟨.identifier, name⟩, Token.leftParen, Token.rightParen]
  | .call name args => ⟨.identifier, name⟩ :: Token.leftParen :: (args.tokens ++ [Token.rightParen])
  | .group s => Token.leftParen :: (s.tokens ++ [Token.rightParen])

/-- The tokens of arguments, without the parentheses around them. -/
def Arguments.tokens : Arguments → List Token
  | .one s => s.tokens
  | .more s args => s.tokens ++ Token.comma :: args.tokens

end

/-! ### The first token of a derivation -/

theorem Atom.tokens_eq_cons (a : Atom) :
    ∃ t ts, a.tokens = t :: ts ∧ (t.kind = .number ∨ t.kind = .identifier ∨ t.kind = .leftParen) := by
  cases a with
  | number text => exact ⟨_, _, rfl, Or.inl rfl⟩
  | constant name => exact ⟨_, _, rfl, Or.inr (Or.inl rfl)⟩
  | callNone name => exact ⟨_, _, rfl, Or.inr (Or.inl rfl)⟩
  | call name args => exact ⟨_, _, rfl, Or.inr (Or.inl rfl)⟩
  | group s => exact ⟨_, _, rfl, Or.inr (Or.inr rfl)⟩

theorem Power.tokens_eq_cons (p : Power) : ∃ t ts, p.tokens = t :: ts ∧ t.kind ≠ .rightParen := by
  have hatom : ∀ a : Atom, ∃ t ts, a.tokens = t :: ts ∧ t.kind ≠ .rightParen := by
    intro a
    obtain ⟨t, ts, ha, ht⟩ := a.tokens_eq_cons
    refine ⟨t, ts, ha, ?_⟩
    rcases ht with h | h | h <;> simp [h]
  cases p with
  | signed s p => exact ⟨s.token, p.tokens, rfl, by cases s <;> decide⟩
  | power a p =>
    obtain ⟨t, ts, ha, ht⟩ := hatom a
    exact ⟨t, ts ++ Operator.power.token :: p.tokens, by rw [Power.tokens, ha, List.cons_append], ht⟩
  | atom a => exact hatom a

theorem Product.tokens_eq_cons : ∀ p : Product, ∃ t ts, p.tokens = t :: ts ∧ t.kind ≠ .rightParen
  | .power p => p.tokens_eq_cons
  | .binary l op _ r => by
    obtain ⟨t, ts, hl, ht⟩ := l.tokens_eq_cons
    exact ⟨t, ts ++ op.token :: r.tokens, by rw [Product.tokens, hl, List.cons_append], ht⟩

theorem Sum.tokens_eq_cons : ∀ s : Sum, ∃ t ts, s.tokens = t :: ts ∧ t.kind ≠ .rightParen
  | .product p => p.tokens_eq_cons
  | .binary l op _ r => by
    obtain ⟨t, ts, hl, ht⟩ := l.tokens_eq_cons
    exact ⟨t, ts ++ op.token :: r.tokens, by rw [Sum.tokens, hl, List.cons_append], ht⟩

theorem Arguments.next_tokens_ne (args : Arguments) (ts : List Token) :
    (Token.next (args.tokens ++ ts)).kind ≠ .rightParen := by
  cases args with
  | one s =>
    obtain ⟨t, us, hs, ht⟩ := s.tokens_eq_cons
    rw [Arguments.tokens, hs]
    exact ht
  | more s args =>
    obtain ⟨t, us, hs, ht⟩ := s.tokens_eq_cons
    rw [Arguments.tokens, hs]
    exact ht

section

variable (scope : Scope)

mutual

/-- The value of a sum: the operands from left to right, then the operator. -/
def Sum.value : Sum → Except EvalError Float
  | .product p => p.value
  | .binary l op _ r => do
    let a ← l.value
    let b ← r.value
    return op.apply a b

def Product.value : Product → Except EvalError Float
  | .power p => p.value
  | .binary l op _ r => do
    let a ← l.value
    let b ← r.value
    return op.apply a b

def Power.value : Power → Except EvalError Float
  | .signed s p => do
    let a ← p.value
    return s.apply a
  | .power a p => do
    let x ← a.value
    let y ← p.value
    return Operator.power.apply x y
  | .atom a => a.value

/-- The value of an atom.  A function is looked up before its arguments are evaluated. -/
def Atom.value : Atom → Except EvalError Float
  | .number text => Numeral.read text
  | .constant name => scope.constant name
  | .callNone name => do
    let f ← scope.function name
    f []
  | .call name args => do
    let f ← scope.function name
    let values ← args.values
    f values
  | .group s => s.value

/-- The values of arguments, from left to right. -/
def Arguments.values : Arguments → Except EvalError (List Float)
  | .one s => do
    let a ← s.value
    return [a]
  | .more s args => do
    let a ← s.value
    let values ← args.values
    return a :: values

end

end

end Grammar

end Calculator
