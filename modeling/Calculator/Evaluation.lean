import Calculator.Function.Table
import Calculator.Reading.Basic

/-!
# Evaluating texts

A text is split into tokens and read in the scope of two tables.  Calling a formula evaluates its body as a text of its
own, in which the parameters are the only constants and all functions can be called.  The nesting of such calls is
limited, so evaluation ends even where formulas call each other in a circle.
-/

namespace Calculator

/-- The limits on an evaluation. -/
structure Limits where
  /-- How deeply calls of formulas may be nested. -/
  callDepth : Nat := 64
deriving DecidableEq, Repr

namespace Scope

/-- The value of a text. -/
def evaluateText (scope : Scope) (text : String) : Except EvalError Float :=
  if text = "" then throw .emptyExpression
  else do
    let stream ← (tokenize text).mapError .lexical
    scope.evaluate stream.lexemes

/-- The scope of two tables, where `callFormula` evaluates the call of a formula. -/
def ofTables (constants : ConstantTable) (functions : FunctionTable)
    (callFormula : Formula → List Float → Except EvalError Float) : Scope where
  constant? name := constants[name]?
  function? name := functions[name]?.map fun
    | .formula f => callFormula f
    | .native f => f.call name

/-- The scope of two tables in which calls of formulas may be nested `remaining` deep.  A call is refused first for its
depth and then for the number of its arguments; `limits` is what the refusal reports. -/
def nested (functions : FunctionTable) (limits : Limits) : (remaining : Nat) → (constants : ConstantTable) → Scope
  | 0, constants => ofTables constants functions fun _ _ => throw (.callDepthExceeded limits.callDepth)
  | remaining + 1, constants =>
    ofTables constants functions fun f args => do
      let params ← f.bind args
      (nested functions limits remaining params).evaluateText f.body

/-- The scope inside `depth` calls of formulas that are under way. -/
def atDepth (functions : FunctionTable) (limits : Limits) (depth : Nat) (constants : ConstantTable) : Scope :=
  nested functions limits (limits.callDepth - depth) constants

end Scope

/-- The value of a text in the scope of two tables. -/
def evaluate (constants : ConstantTable) (functions : FunctionTable) (text : String) (limits : Limits := {}) :
    Except EvalError Float :=
  (Scope.atDepth functions limits 0 constants).evaluateText text

/-- The values of several texts, each independent of the others, in their order. -/
def evaluateBatch (constants : ConstantTable) (functions : FunctionTable) (texts : List String)
    (limits : Limits := {}) : List (Except EvalError Float) :=
  texts.map fun text => evaluate constants functions text limits

/-- Calls a formula whose body may call the given functions, under the default limits. -/
def Formula.callWith (f : Formula) (args : List Float) (functions : FunctionTable) : Except EvalError Float := do
  let params ← f.bind args
  (Scope.atDepth functions {} 1 params).evaluateText f.body

/-- Calls a formula whose body can call no function. -/
def Formula.call (f : Formula) (args : List Float) : Except EvalError Float :=
  f.callWith args ∅

end Calculator
