import Calculator.Builtins
import Calculator.Console.Definition
import Calculator.Numeral.Shortest

/-!
# The console

The console reads lines.  It prompts before every line and once more at the end, and it answers each line that is not
blank: a definition is entered for the lines after it, and anything else is an expression to evaluate.
-/

namespace Calculator.Console

/-- What is written before each line. -/
def prompt : String := "> "

/-- The environment that a console starts with. -/
def initial : Environment :=
  match Environment.registerBuiltins {} with
  | .ok env => env
  | .error _ => {}

/-- How the value of an expression is shown. -/
def showResult : Except EvalError Float → String
  | .ok value => Numeral.write value
  | .error e => "Error: " ++ e.message

/-- The environment after a line, and the answer to the line if it is not blank. -/
def answer (env : Environment) (line : List Char) : Environment × Option String :=
  let line := Text.trim line
  match Definition.parse? line with
  | some d =>
    match env.define d with
    | .ok env => (env, some ("defined " ++ d.name))
    | .error e => (env, some ("Error: " ++ e.message))
  | none =>
    if line = [] then (env, none)
    else (env, some (showResult (env.evaluate (String.ofList line))))

/-- The answers to the lines, in order. -/
def answers (env : Environment) : List (List Char) → List (Option String)
  | [] => []
  | line :: lines =>
    let (env, reply) := answer env line
    reply :: answers env lines

/-- What is written in answer to a line: the answer on a line of its own, and the next prompt. -/
def showAnswer : Option String → String
  | some reply => reply ++ "\n" ++ prompt
  | none => prompt

/-- Everything the console writes for an input. -/
def transcript (input : String) : String :=
  prompt ++ String.join ((answers initial (Text.lines input.toList)).map showAnswer)

end Calculator.Console
