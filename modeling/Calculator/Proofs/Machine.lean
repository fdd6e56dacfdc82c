import Calculator.Proofs.Invocation

/-!
# A stack machine

The steps of the machine push the value of a numeral or of a constant, look up a function, call it with the topmost
values as its arguments, and negate or combine what is on top of the stack.  A program is a list of steps and
failures, executed from the left until something fails; `Scope.execute_append` puts two programs one after another.
-/

namespace Calculator

/-- The failures that the tokens of an expression alone decide. -/
inductive SyntaxError where
  | expectedValue (found : Token)
  | unexpectedToken (expected : Expectation) (found : Token)
  | trailingInput (found : Token)
deriving DecidableEq, Repr

/-- A syntax error as the failure of an evaluation. -/
def SyntaxError.toEvalError : SyntaxError → EvalError
  | expectedValue found => .expectedValue found
  | unexpectedToken expected found => .unexpectedToken expected found
  | trailingInput found => .trailingInput found

/-- The steps of the machine. -/
inductive Step where
  | number (text : String)
  | constant (name : String)
  | lookup (name : String)
  | call (name : String) (count : Nat)
  | negate
  | binary (op : Operator)
deriving DecidableEq, Repr

/-- The instructions of a program. -/
inductive Instruction where
  | step (s : Step)
  | fail (error : SyntaxError)
deriving DecidableEq, Repr

namespace Scope

/-- What a step does to the stack, whose top is the head of the list.  A sign or an operator that finds too few values
leaves the stack as it is. -/
def step (scope : Scope) : Step → List Float → Except EvalError (List Float)
  | .number text, stack => (Numeral.read text).map (· :: stack)
  | .constant name, stack => (scope.constant name).map (· :: stack)
  | .lookup name, stack => (scope.function name).map fun _ => stack
  | .call name count, stack => do
    let f ← scope.function name
    (f (stack.take count).reverse).map (· :: stack.drop count)
  | .negate, a :: stack => .ok (-a :: stack)
  | .binary op, b :: a :: stack => .ok (op.apply a b :: stack)
  | .negate, stack | .binary _, stack => .ok stack

/-- Executes a program from the left until an instruction fails. -/
def execute (scope : Scope) : List Instruction → List Float → Except EvalError (List Float)
  | [], stack => .ok stack
  | .step s :: code, stack => do
    let stack ← scope.step s stack
    scope.execute code stack
  | .fail error :: _, _ => .error error.toEvalError

variable (scope : Scope)

theorem execute_append (code code' : List Instruction) (stack : List Float) :
    scope.execute (code ++ code') stack = scope.execute code stack >>= scope.execute code' := by
  induction code generalizing stack with
  | nil => rfl
  | cons i code ih =>
    cases i with
    | step s =>
      show (scope.step s stack >>= scope.execute (code ++ code')) =
        (scope.step s stack >>= scope.execute code) >>= scope.execute code'
      rw [bind_assoc]
      apply bind_congr
      intro stack'
      exact ih stack'
    | fail error => rfl

theorem execute_step (s : Step) (stack : List Float) : scope.execute [.step s] stack = scope.step s stack := by
  show (scope.step s stack >>= fun stack' => .ok stack') = _
  exact bind_ok _

/-- A call takes as its arguments the topmost values, the last argument on top. -/
theorem step_call (name : String) (args stack : List Float) :
    scope.step (.call name args.length) (args.reverse ++ stack) =
      scope.function name >>= fun f => (f args).map (· :: stack) := by
  have hlen : args.length = args.reverse.length := by simp
  rw [step, hlen, List.take_left, List.drop_left, List.reverse_reverse]

end Scope

end Calculator
