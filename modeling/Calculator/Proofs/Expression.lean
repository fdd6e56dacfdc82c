import Calculator.Proofs.Derivation
import Calculator.Proofs.Spacing

/-!
# Expressions as trees

An `Expression` is a tree without parentheses.  Its tokens have them only where a tree stands that binds less tightly
than its place requires (`Expression.tokens`), and its value is computed from left to right (`Expression.value`).
-/

namespace Calculator

/-- The level that an operator requires of its left operand. -/
def Operator.leftLevel : Operator → Precedence
  | add | subtract => .additive
  | multiply | divide | modulo => .multiplicative
  | power => .maximum

/-- The level that an operator requires of its right operand. -/
def Operator.rightLevel : Operator → Precedence
  | add | subtract => .multiplicative
  | multiply | divide | modulo | power => .exponential

/-- The tokens of something of the level `own` in a place that requires a level: in parentheses if it is too weak. -/
def Token.enclose (required own : Precedence) (ts : List Token) : List Token :=
  if own < required then leftParen :: (ts ++ [rightParen]) else ts

/-- Expressions: numerals, constants, calls, signs and operators. -/
inductive Expression where
  | number (text : String) (h : IsNumeral text.toList)
  | constant (name : String) (h : IsName name.toList)
  | call (name : String) (h : IsName name.toList) (args : List Expression)
  | signed (s : Sign) (e : Expression)
  | binary (op : Operator) (l r : Expression)

namespace Expression

/-- How tightly an expression holds together. -/
def level : Expression → Precedence
  | number _ _ | constant _ _ | call _ _ _ => .maximum
  | signed _ _ => .exponential
  | binary op _ _ => op.precedence

mutual

/-- The tokens of an expression, with parentheses where they are needed. -/
def tokens : Expression → List Token
  | number text _ => [⟨.number, text⟩]
  | constant name _ => [⟨.identifier, name⟩]
  | call name _ args => ⟨.identifier, name⟩ :: Token.leftParen :: (argumentTokens args ++ [Token.rightParen])
  | signed s e => s.token :: Token.enclose .exponential e.level e.tokens
  | binary op l r =>
    Token.enclose op.leftLevel l.level l.tokens ++ op.token :: Token.enclose op.rightLevel r.level r.tokens

def argumentTokens : List Expression → List Token
  | [] => []
  | [e] => e.tokens
  | e :: e' :: es => e.tokens ++ Token.comma :: argumentTokens (e' :: es)

end

mutual

/-- The functions that an expression calls, in the order of their names. -/
def calls : Expression → List String
  | number _ _ => []
  | constant _ _ => []
  | call name _ args => name :: argumentCalls args
  | signed _ e => e.calls
  | binary _ l r => l.calls ++ r.calls

def argumentCalls : List Expression → List String
  | [] => []
  | e :: es => e.calls ++ argumentCalls es

end

section

variable (scope : Scope)

mutual

/-- The value of an expression: operands from left to right, then the operator; for a call the function is looked up
first, then the arguments are evaluated in their order, and then it is called. -/
def value : Expression → Except EvalError Float
  | number text _ => Numeral.read text
  | constant name _ => scope.constant name
  | call name _ args => do
    let f ← scope.function name
    let values ← argumentValues args
    f values
  | signed s e => do
    let a ← e.value
    return s.apply a
  | binary op l r => do
    let a ← l.value
    let b ← r.value
    return op.apply a b

def argumentValues : List Expression → Except EvalError (List Float)
  | [] => .ok []
  | e :: es => do
    let a ← e.value
    let values ← argumentValues es
    return a :: values

end

end

/-! ### Valid tokens -/

theorem valid_enclose {required own : Precedence} {ts : List Token} (h : ∀ t ∈ ts, t.Valid) :
    ∀ t ∈ Token.enclose required own ts, t.Valid := by
  intro t ht
  rw [Token.enclose] at ht
  by_cases hlt : own < required
  · rw [if_pos hlt, List.mem_cons, List.mem_append, List.mem_singleton] at ht
    rcases ht with rfl | ht | rfl
    · exact Token.valid_leftParen
    · exact h t ht
    · exact Token.valid_rightParen
  · rw [if_neg hlt] at ht
    exact h t ht

mutual

theorem valid_tokens (e : Expression) : ∀ t ∈ e.tokens, t.Valid := by
  intro t ht
  cases e with
  | number text h =>
    obtain rfl := List.mem_singleton.1 ht
    exact .number h
  | constant name h =>
    obtain rfl := List.mem_singleton.1 ht
    exact .identifier h
  | call name h args =>
    rw [tokens, List.mem_cons, List.mem_cons, List.mem_append, List.mem_singleton] at ht
    rcases ht with rfl | rfl | ht | rfl
    · exact .identifier h
    · exact Token.valid_leftParen
    · exact valid_argumentTokens args t ht
    · exact Token.valid_rightParen
  | signed s e =>
    rw [tokens, List.mem_cons] at ht
    rcases ht with rfl | ht
    · exact s.valid_token
    · exact valid_enclose e.valid_tokens t ht
  | binary op l r =>
    rw [tokens, List.mem_append, List.mem_cons] at ht
    rcases ht with ht | rfl | ht
    · exact valid_enclose l.valid_tokens t ht
    · exact op.valid_token
    · exact valid_enclose r.valid_tokens t ht

theorem valid_argumentTokens (es : List Expression) : ∀ t ∈ argumentTokens es, t.Valid := by
  intro t ht
  cases es with
  | nil => cases ht
  | cons e es =>
    cases es with
    | nil => exact e.valid_tokens t ht
    | cons e' es =>
      rw [argumentTokens, List.mem_append, List.mem_cons] at ht
      rcases ht with ht | rfl | ht
      · exact e.valid_tokens t ht
      · exact Token.valid_comma
      · exact valid_argumentTokens (e' :: es) t ht

end

end Expression

end Calculator
