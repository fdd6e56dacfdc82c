import Calculator.Proofs.Cursor
import Calculator.Proofs.Outcome

/-!
# Watching where a parser looks

The functions here read a stream of tokens at a cursor, as those of `Scope` read a list of tokens, and record where they
look: the position of each token that they peek at or take, in this order.  There is no other way to a token than
`Watched.peek`.  A cursor moves on by taking a token, and never past the end marker.
-/

namespace Calculator

namespace TokenStream

variable (s : TokenStream)

/-- The token at a position, or the end marker if the position is behind all tokens. -/
def token (p : Nat) : Token :=
  s.tokens.getD p Token.endMarker

/-- The tokens from a position on, without the end marker. -/
def rest (p : Nat) : List Token :=
  s.lexemes.drop p

/-- The positions from `p` on, up to that of the end marker. -/
abbrev From (p : Nat) := { q : Nat // p ≤ q ∧ q ≤ s.lexemes.length }

theorem token_eq (p : Nat) : s.token p = Token.next (s.rest p) :=
  Parser.peek_eq ⟨s, ∅, 0⟩ p

theorem tail_rest (p : Nat) : (s.rest p).tail = s.rest (p + 1) :=
  List.tail_drop

/-- Only the end marker has no token behind it. -/
theorem lt_length_of_kind_ne {p : Nat} (h : (s.token p).kind ≠ .endOfExpression) : p < s.lexemes.length := by
  refine Nat.lt_of_not_le fun hle => h ?_
  rw [token_eq, rest, List.drop_eq_nil_of_le hle]
  rfl

theorem lt_length_of_kind {p : Nat} {kind : Token.Kind} (h : (s.token p).kind = kind)
    (hkind : kind ≠ .endOfExpression) : p < s.lexemes.length :=
  s.lt_length_of_kind_ne fun hend => hkind (h.symm.trans hend)

/-- The end marker is no operator. -/
theorem lt_length_of_ofKind? {p : Nat} {op : Operator} (h : Operator.ofKind? (s.token p).kind = some op) :
    p < s.lexemes.length := by
  refine s.lt_length_of_kind_ne fun hend => ?_
  rw [hend] at h
  cases h

variable {s}

/-- A cursor that has come this far has come from before. -/
def From.since {p q : Nat} (h : p ≤ q) (r : s.From q) : s.From p :=
  ⟨r.val, Nat.le_trans h r.property.1, r.property.2⟩

end TokenStream

/-- The positions that were looked at, and what was found. -/
structure Watched (α : Type) where
  looked : List Nat
  outcome : Except EvalError α

namespace Watched

variable {α β : Type}

def fail (error : EvalError) : Watched α :=
  ⟨[], .error error⟩

def ofExcept (x : Except EvalError α) : Watched α :=
  ⟨[], x⟩

/-- Goes on with what was found, unless there was an error. -/
def andThen (m : Watched α) (f : α → Watched β) : Watched β :=
  match m.outcome with
  | .ok a => ⟨m.looked ++ (f a).looked, (f a).outcome⟩
  | .error error => ⟨m.looked, .error error⟩

instance : Monad Watched where
  pure a := ⟨[], .ok a⟩
  bind := andThen

/-- What is looked at first is looked at, whatever follows. -/
theorem looked_bind_subset (m : Watched α) (f : α → Watched β) : m.looked ⊆ (m >>= f).looked := by
  obtain ⟨looked, x⟩ := m
  cases x with
  | ok a => exact List.subset_append_left looked (f a).looked
  | error e => exact List.Subset.refl looked

variable (scope : Scope) (s : TokenStream)

/-- Looks at the token at a position. -/
def peek (p : Nat) : Watched { t : Token // t = s.token p } :=
  ⟨[p], .ok ⟨s.token p, rfl⟩⟩

/-- Takes a closing parenthesis. -/
def closingParen (p : Nat) : Watched (s.From (p + 1)) := do
  let ⟨t, ht⟩ ← peek s p
  if h : t.kind = .rightParen then
    have hp : p < s.lexemes.length := s.lt_length_of_kind_ne (by rw [← ht, h]; decide)
    return ⟨p + 1, Nat.le_refl _, hp⟩
  else fail (.unexpectedToken .closingParen t)

mutual

/-- Reads an expression: an operand and the operators after it that bind tighter than `level`. -/
def expression (level : Precedence) (p : Nat) : Watched (Float × s.From (p + 1)) := do
  let (left, q) ← operand p
  have := q.property
  let (value, r) ← operators level left q.val q.property.2
  return (value, r.since q.property.1)
termination_by (s.lexemes.length - p, 2)

/-- Extends the value `left` by the operators that bind tighter than `level`, each with its right operand. -/
def operators (level : Precedence) (left : Float) (p : Nat) (hp : p ≤ s.lexemes.length) :
    Watched (Float × s.From p) := do
  let ⟨t, ht⟩ ← peek s p
  if hlt : level < t.kind.precedence then
    have : p < s.lexemes.length := by
      refine s.lt_length_of_kind_ne fun hend => ?_
      rw [ht, hend] at hlt
      exact absurd hlt (Nat.not_lt_zero _)
    match Operator.ofKind? t.kind with
    | none => fail (.unexpectedToken .operator t)
    | some op => do
      let (right, q) ← expression op.rightPrecedence (p + 1)
      have := q.property
      let (value, r) ← operators level (op.apply left right) q.val q.property.2
      return (value, r.since (Nat.le_of_succ_le (Nat.le_of_succ_le q.property.1)))
  else return (left, ⟨p, Nat.le_refl p, hp⟩)
termination_by (s.lexemes.length - p, 0)

/-- Reads one operand, beginning with its first token. -/
def operand (p : Nat) : Watched (Float × s.From (p + 1)) := do
  let ⟨t, ht⟩ ← peek s p
  if hend : t.kind = .endOfExpression then fail (.expectedValue t)
  else
    have hp : p < s.lexemes.length := s.lt_length_of_kind_ne (by rwa [← ht])
    operandFrom t (p + 1) hp
termination_by (s.lexemes.length - p, 1)

/-- Reads what follows the first token of an operand: a number or a constant is complete, a function has its arguments,
a sign its operand, and an opening parenthesis an expression and the closing one. -/
def operandFrom (t : Token) (p : Nat) (hp : p ≤ s.lexemes.length) : Watched (Float × s.From p) :=
  match t.kind with
  | .number => do
    let value ← ofExcept (Numeral.read t.text)
    return (value, ⟨p, Nat.le_refl p, hp⟩)
  | .identifier => do
    let ⟨u, hu⟩ ← peek s p
    if h : u.kind = .leftParen then
      have : p < s.lexemes.length := s.lt_length_of_kind_ne (by rw [← hu, h]; decide)
      let f ← ofExcept (scope.function t.text)
      let (args, q) ← arguments (p + 1)
      let value ← ofExcept (f args)
      return (value, q.since (Nat.le_add_right p 2))
    else do
      let value ← ofExcept (scope.constant t.text)
      return (value, ⟨p, Nat.le_refl p, hp⟩)
  | .plus => do
    let (value, q) ← expression Scope.signPrecedence p
    return (value, q.since (Nat.le_succ p))
  | .minus => do
    let (value, q) ← expression Scope.signPrecedence p
    return (-value, q.since (Nat.le_succ p))
  | .leftParen => do
    let (value, q) ← expression .minimum p
    let r ← closingParen s q.val
    return (value, r.since (Nat.le_of_succ_le (Nat.le_succ_of_le q.property.1)))
  | .comma | .star | .slash | .percent | .caret | .rightParen | .endOfExpression => fail (.expectedValue t)
termination_by (s.lexemes.length - p, 3)

/-- Reads the arguments of a call and the closing parenthesis after them. -/
def arguments (p : Nat) : Watched (List Float × s.From (p + 1)) := do
  let ⟨t, _⟩ ← peek s p
  if t.kind = .rightParen then
    let q ← closingParen s p
    return ([], q)
  else argumentList p
termination_by (s.lexemes.length - p, 4)

/-- Reads one argument or more, separated by commas, and the closing parenthesis after them. -/
def argumentList (p : Nat) : Watched (List Float × s.From (p + 1)) := do
  let (value, q) ← expression .minimum p
  have := q.property
  let ⟨t, ht⟩ ← peek s q.val
  if h : t.kind = .comma then
    have : q.val < s.lexemes.length := s.lt_length_of_kind_ne (by rw [← ht, h]; decide)
    let (values, r) ← argumentList (q.val + 1)
    return (value :: values, r.since (Nat.le_succ_of_le (Nat.le_succ_of_le q.property.1)))
  else
    let r ← closingParen s q.val
    return ([value], r.since (Nat.le_succ_of_le q.property.1))
termination_by (s.lexemes.length - p, 3)

end

end Watched

end Calculator
