import Calculator.Console.Transcript

/-!
# The program

Runs the console on standard input and output until the input ends.
-/

namespace Calculator

/-- Answers one line after another. -/
partial def interact (stdin stdout : IO.FS.Stream) (env : Environment) : IO Unit := do
  let line ← stdin.getLine
  if line.isEmpty then return
  let (env, reply) := Console.answer env line.toList
  stdout.putStr (Console.showAnswer reply)
  stdout.flush
  interact stdin stdout env

end Calculator

def main : IO Unit := do
  let stdin ← IO.getStdin
  let stdout ← IO.getStdout
  stdout.putStr Calculator.Console.prompt
  stdout.flush
  Calculator.interact stdin stdout Calculator.Console.initial
