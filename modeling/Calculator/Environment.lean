import Calculator.Evaluation

/-!
# Environments

An environment holds the two tables and the limits that a series of evaluations shares.  Names are entered one at a
time; a definition that is rejected enters nothing.
-/

namespace Calculator

/-- The names that can be used and the limits that hold. -/
structure Environment where
  constants : ConstantTable := ∅
  functions : FunctionTable := ∅
  limits : Limits := {}

namespace Environment

/-- Gives a constant a value, in place of any earlier one. -/
def setConstant (env : Environment) (name : String) (value : Float) : Environment :=
  { env with constants := env.constants.insert name value }

/-- Enters a function under a name, in place of any earlier one. -/
def setFunction (env : Environment) (name : String) (f : Callable) : Environment :=
  { env with functions := env.functions.insert name f }

/-- Checks a definition and enters the formula under its name. -/
def define (env : Environment) (d : Definition) : Except DefinitionError Environment :=
  (Formula.make d.params d.body).map fun f => env.setFunction d.name (.formula f)

/-- The value of a text. -/
def evaluate (env : Environment) (text : String) : Except EvalError Float :=
  Calculator.evaluate env.constants env.functions text env.limits

/-- The values of several texts. -/
def evaluateBatch (env : Environment) (texts : List String) : List (Except EvalError Float) :=
  Calculator.evaluateBatch env.constants env.functions texts env.limits

end Environment

end Calculator
