import Calculator.Binary64.Operations
import Calculator.Environment

/-!
# Built-in names

Three constants, nineteen native functions, and four functions defined by an expression.  `registerBuiltins` enters
them all; other names are left alone.
-/

namespace Calculator

namespace Builtins

/-- The value of each built-in constant. -/
def constants : List (String × Float) :=
  [("pi", 3.141592653589793), ("e", 2.718281828459045), ("tau", 6.283185307179586)]

/-- The whole number next to a number on the side of zero. -/
def truncate (x : Float) : Float :=
  if x < 0 then x.ceil else x.floor

/-- The logarithm to a base. -/
def logarithm (x base : Float) : Float :=
  x.log / base.log

/-- The functions of the elementary analysis of numbers. -/
def natives : List (String × Native) :=
  [("sqrt", .unary Float.sqrt),
   ("abs", .unary Float.abs),
   ("exp", .unary Float.exp),
   ("ln", .unary Float.log),
   ("log10", .unary Float.log10),
   ("log2", .unary Float.log2),
   ("log", .binary logarithm),
   ("sin", .unary Float.sin),
   ("cos", .unary Float.cos),
   ("tan", .unary Float.tan),
   ("asin", .unary Float.asin),
   ("acos", .unary Float.acos),
   ("atan", .unary Float.atan),
   ("floor", .unary Float.floor),
   ("ceil", .unary Float.ceil),
   ("round", .unary Float.round),
   ("trunc", .unary truncate),
   ("min", .reduce Binary64.minimum "min needs at least one argument"),
   ("max", .reduce Binary64.maximum "max needs at least one argument")]

/-- The functions that are defined by an expression. -/
def definitions : List Definition :=
  [⟨"sq", ["x"], "x * x"⟩,
   ⟨"cube", ["x"], "x * x * x"⟩,
   ⟨"hypot", ["x", "y"], "(x^2 + y^2) ^ 0.5"⟩,
   ⟨"avg", ["a", "b"], "(a + b) / 2"⟩]

end Builtins

namespace Environment

/-- Enters the built-in names: the constants, then the native functions, then the definitions. -/
def registerBuiltins (env : Environment) : Except DefinitionError Environment :=
  let env := Builtins.constants.foldl (fun env (name, value) => env.setConstant name value) env
  let env := Builtins.natives.foldl (fun env (name, f) => env.setFunction name (.native f)) env
  Builtins.definitions.foldlM define env

end Environment

end Calculator
