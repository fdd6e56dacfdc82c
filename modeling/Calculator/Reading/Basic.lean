import Calculator.Error
import Calculator.Operator

/-!
# Evaluating tokens while they are read

An expression is evaluated as its tokens are read, from left to right and without building a tree.  What names mean is
given by a `Scope`.  `Scope.expression` reads an operand and then every operator that binds tighter than the current
level; an operator reads its right operand at a level of its own, which yields precedence and grouping.

Each function returns a value together with the tokens that are left.  The type of the result says that there are
fewer of them than before, and that is why reading ends; `Reading.Equations` restates the functions without it.
-/

namespace Calculator

/-- The meaning of names: the value of each constant, and for each function its value at a list of arguments. -/
structure Scope where
  constant? : String → Option Float
  function? : String → Option (List Float → Except EvalError Float)

namespace Scope

/-- What is left of the tokens after at least one of them was read. -/
abbrev Shorter (ts : List Token) := { rest : List Token // rest.length < ts.length }

/-- What is left of the tokens after any number of them was read. -/
abbrev NotLonger (ts : List Token) := { rest : List Token // rest.length ≤ ts.length }

theorem length_tail_le (ts : List Token) : ts.tail.length ≤ ts.length := by
  simp

/-- Reads a closing parenthesis. -/
def closingParen : (ts : List Token) → Except EvalError (Shorter ts)
  | [] => .error (.unexpectedToken .closingParen Token.endMarker)
  | t :: ts =>
    if t.kind = .rightParen then .ok ⟨ts, by simp⟩ else .error (.unexpectedToken .closingParen t)

/-- The level at which the operand of a sign is read: it takes a following power into the operand and nothing weaker. -/
def signPrecedence : Precedence := Precedence.exponential.below

mutual

/-- Reads an expression: an operand and the operators after it that bind tighter than `level`. -/
def expression (scope : Scope) (level : Precedence) (ts : List Token) :
    Except EvalError (Float × Shorter ts) := do
  let (left, rest) ← scope.operand ts
  let (value, rest') ← scope.operators level left rest.val
  return (value, ⟨rest'.val, Nat.lt_of_le_of_lt rest'.property rest.property⟩)
termination_by (ts.length, 1)

/-- Extends the value `left` by the operators that bind tighter than `level`, each with its right operand. -/
def operators (scope : Scope) (level : Precedence) (left : Float) (ts : List Token) :
    Except EvalError (Float × NotLonger ts) :=
  match ts with
  | [] => return (left, ⟨[], Nat.le_refl _⟩)
  | t :: ts =>
    if level < t.kind.precedence then
      match Operator.ofKind? t.kind with
      | none => throw (.unexpectedToken .operator t)
      | some op => do
        let (right, rest) ← scope.expression op.rightPrecedence ts
        let (value, rest') ← scope.operators level (op.apply left right) rest.val
        return (value, ⟨rest'.val, Nat.le_trans rest'.property (Nat.le_of_lt (Nat.lt_succ_of_lt rest.property))⟩)
    else return (left, ⟨t :: ts, Nat.le_refl _⟩)
termination_by (ts.length, 0)

/-- Reads one operand: a number, a constant, a call, a signed operand, or an expression in parentheses. -/
def operand (scope : Scope) (ts : List Token) : Except EvalError (Float × Shorter ts) :=
  match ts with
  | [] => throw (.expectedValue Token.endMarker)
  | t :: ts =>
    match t.kind with
    | .number =>
      match Numeral.value? t.text with
      | some value => return (value, ⟨ts, Nat.lt_succ_self _⟩)
      | none => throw (.invalidNumber t.text)
    | .identifier =>
      if (Token.next ts).kind = .leftParen then
        match scope.function? t.text with
        | none => throw (.unknownFunction t.text)
        | some f => do
          let (args, rest) ← scope.arguments ts.tail
          return (← f args, ⟨rest.val, Nat.lt_succ_of_lt (Nat.lt_of_lt_of_le rest.property (length_tail_le ts))⟩)
      else
        match scope.constant? t.text with
        | some value => return (value, ⟨ts, Nat.lt_succ_self _⟩)
        | none => throw (.unknownConstant t.text)
    | .plus => do
      let (value, rest) ← scope.expression signPrecedence ts
      return (value, ⟨rest.val, Nat.lt_succ_of_lt rest.property⟩)
    | .minus => do
      let (value, rest) ← scope.expression signPrecedence ts
      return (-value, ⟨rest.val, Nat.lt_succ_of_lt rest.property⟩)
    | .leftParen => do
      let (value, rest) ← scope.expression .minimum ts
      let rest' ← closingParen rest.val
      return (value, ⟨rest'.val, Nat.lt_succ_of_lt (Nat.lt_trans rest'.property rest.property)⟩)
    | .comma | .star | .slash | .percent | .caret | .rightParen | .endOfExpression => throw (.expectedValue t)
termination_by (ts.length, 0)

/-- Reads the arguments of a call and the closing parenthesis after them. -/
def arguments (scope : Scope) (ts : List Token) : Except EvalError (List Float × Shorter ts) :=
  if (Token.next ts).kind = .rightParen then do return ([], ← closingParen ts)
  else scope.argumentList ts
termination_by (ts.length, 3)

/-- Reads one argument or more, separated by commas, and the closing parenthesis after them. -/
def argumentList (scope : Scope) (ts : List Token) : Except EvalError (List Float × Shorter ts) := do
  let (value, rest) ← scope.expression .minimum ts
  if (Token.next rest.val).kind = .comma then
    let (values, rest') ← scope.argumentList rest.val.tail
    return (value :: values,
      ⟨rest'.val, Nat.lt_trans (Nat.lt_of_lt_of_le rest'.property (length_tail_le _)) rest.property⟩)
  else
    let rest' ← closingParen rest.val
    return ([value], ⟨rest'.val, Nat.lt_trans rest'.property rest.property⟩)
termination_by (ts.length, 2)

end

/-- The value of an expression that takes up all the tokens. -/
def evaluate (scope : Scope) (ts : List Token) : Except EvalError Float := do
  let (value, rest) ← scope.expression .minimum ts
  if (Token.next rest.val).kind = .endOfExpression then return value
  else throw (.trailingInput (Token.next rest.val))

end Scope

end Calculator
