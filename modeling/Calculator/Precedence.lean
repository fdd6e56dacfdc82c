/-!
# Precedence levels

The levels are ordered from the weakest binding to the strongest.  While an expression is read at a level, an operator
extends it only if the operator binds strictly tighter than that level.
-/

namespace Calculator

/-- How tightly something binds, weakest first. -/
inductive Precedence where
  | minimum
  | identifier
  | number
  | additive
  | multiplicative
  | exponential
  | unary
  | parenthesis
  | maximum
deriving DecidableEq, Repr

namespace Precedence

/-- The levels from the weakest to the strongest. -/
def all : List Precedence :=
  [minimum, identifier, number, additive, multiplicative, exponential, unary, parenthesis, maximum]

/-- The position of a level in the order. -/
def rank : Precedence → Nat
  | minimum => 0
  | identifier => 1
  | number => 2
  | additive => 3
  | multiplicative => 4
  | exponential => 5
  | unary => 6
  | parenthesis => 7
  | maximum => 8

instance : LT Precedence := ⟨fun a b => a.rank < b.rank⟩

instance (a b : Precedence) : Decidable (a < b) := Nat.decLt a.rank b.rank

/-- The level directly beneath; the weakest level has none and stays where it is. -/
def below : Precedence → Precedence
  | minimum => minimum
  | identifier => minimum
  | number => identifier
  | additive => number
  | multiplicative => additive
  | exponential => multiplicative
  | unary => exponential
  | parenthesis => unary
  | maximum => parenthesis

/-- The levels that bind more weakly, weakest first. -/
def weaker (p : Precedence) : List Precedence :=
  all.filter fun q => decide (q < p)

theorem rank_below (p : Precedence) : p.below.rank = p.rank - 1 := by
  cases p <;> rfl

end Precedence

end Calculator
