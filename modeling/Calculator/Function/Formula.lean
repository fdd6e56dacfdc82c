import Calculator.Error
import Calculator.Text.Cut

/-!
# Functions defined by an expression

A formula is a list of parameters and the text of an expression over them.  `Formula.make` checks the parameters one
by one in their order: each must differ from the earlier ones, be an identifier, and occur in the body.  The last
check searches the text, so a parameter `x` also occurs in the body `max`.
-/

namespace Calculator

/-- A function given by parameters and the text of its value.  `Formula.make` builds it from valid parts. -/
structure Formula where
  params : List String
  body : String
deriving DecidableEq, Repr

namespace Formula

/-- Checks the parameters that follow the ones already `seen`, and gives the first defect. -/
def check (body : String) : (seen params : List String) → Except DefinitionError Unit
  | _, [] => .ok ()
  | seen, name :: params =>
    if seen.contains name then .error (.duplicateParameter name)
    else if !isIdentifier name then .error (.invalidParameter name)
    else if !Text.occursIn name.toList body.toList then .error (.unusedParameter name)
    else check body (name :: seen) params

/-- The formula with the given parameters and body, if they fit together. -/
def make (params : List String) (body : String) : Except DefinitionError Formula :=
  (check body [] params).map fun _ => ⟨params, body⟩

/-- The number of parameters. -/
def arity (f : Formula) : Nat :=
  f.params.length

/-- The parameters and the body, as shown to the user. -/
def display (f : Formula) : String :=
  "(" ++ ", ".intercalate f.params ++ ") -> " ++ f.body

end Formula

/-- A named function definition as the user writes it, not yet checked. -/
structure Definition where
  name : String
  params : List String
  body : String
deriving DecidableEq, Repr

end Calculator
