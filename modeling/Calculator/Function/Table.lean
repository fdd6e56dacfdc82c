import Calculator.Function.Formula
import Calculator.Function.Native
import Std.Data.TreeMap

/-!
# Tables of names

Constants and functions live in two tables of their own, so one name may stand for both.  A table keeps its names in
order, and a later entry replaces an earlier one of the same name.
-/

namespace Calculator

/-- What a function name stands for. -/
inductive Callable where
  | formula (f : Formula)
  | native (f : Native)

/-- How a function is shown in a listing; nothing is known of a native one. -/
def Callable.display : Callable → String
  | formula f => f.display
  | native _ => "NativeFunction"

/-- The values of the constants. -/
abbrev ConstantTable := Std.TreeMap String Float

/-- The functions that can be called. -/
abbrev FunctionTable := Std.TreeMap String Callable

/-- The constants that the body of a formula sees: its parameters, each with its argument. -/
def Formula.bind (f : Formula) (args : List Float) : Except EvalError ConstantTable :=
  if args.length = f.arity then .ok (Std.TreeMap.ofList (f.params.zip args))
  else .error (.argumentCount f.arity args.length)

end Calculator
