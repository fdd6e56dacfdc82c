import Calculator.Binary64.Operations
import Calculator.Token.Basic

/-!
# The infix operators

Each operator has a token, a level at which its right operand is read, and a meaning on binary64 numbers.
-/

namespace Calculator

/-- The infix operators. -/
inductive Operator where
  | add
  | subtract
  | multiply
  | divide
  | modulo
  | power
deriving DecidableEq, Repr

namespace Operator

/-- The operator that a token of the given class stands for between two operands. -/
def ofKind? : Token.Kind → Option Operator
  | .plus => some add
  | .minus => some subtract
  | .star => some multiply
  | .slash => some divide
  | .percent => some modulo
  | .caret => some power
  | .comma | .number | .identifier | .leftParen | .rightParen | .endOfExpression => none

/-- The level at which the right operand is read.  An operator that reads it at its own level leaves an equal operator
to its right for later and so groups to the left; the power reads it one level below and groups to the right. -/
def rightPrecedence : Operator → Precedence
  | add | subtract => .additive
  | multiply | divide | modulo => .multiplicative
  | power => Precedence.exponential.below

/-- The meaning of an operator.  Division and remainder by zero give an infinity or NaN, never an error. -/
def apply : Operator → Float → Float → Float
  | add, a, b => a + b
  | subtract, a, b => a - b
  | multiply, a, b => a * b
  | divide, a, b => a / b
  | modulo, a, b => Binary64.remainder a b
  | power, a, b => a.pow b

end Operator

end Calculator
