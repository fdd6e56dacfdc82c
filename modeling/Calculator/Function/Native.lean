import Calculator.Error

/-!
# Native functions

A native function is given by the host program.  It checks its own arguments and reports a problem as a message; the
caller adds the name it was called by.
-/

namespace Calculator

/-- A function of the host program. -/
structure Native where
  run : List Float → Except String Float

namespace Native

/-- A function of exactly `n` arguments, which may fail. -/
def ofArity? (n : Nat) (f : Vector Float n → Except String Float) : Native where
  run args :=
    if h : args.length = n then f ⟨args.toArray, by simpa using h⟩
    else .error (argumentCountMessage n args.length)

/-- A function of exactly `n` arguments. -/
def ofArity (n : Nat) (f : Vector Float n → Float) : Native :=
  ofArity? n fun args => .ok (f args)

/-- A function of one argument. -/
def unary (f : Float → Float) : Native :=
  ofArity 1 fun args => f args[0]

/-- A function of two arguments. -/
def binary (f : Float → Float → Float) : Native :=
  ofArity 2 fun args => f args[0] args[1]

/-- Combines all arguments from the left, and fails with the message if there are none. -/
def reduce (f : Float → Float → Float) (onEmpty : String) : Native where
  run
    | [] => .error onEmpty
    | x :: xs => .ok (xs.foldl f x)

/-- Calls the function under a name. -/
def call (f : Native) (name : String) (args : List Float) : Except EvalError Float :=
  (f.run args).mapError (.nativeFailure name)

end Native

end Calculator
