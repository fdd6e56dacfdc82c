import Calculator.Builtins

/-!
# Sessions

A session performs one command after another on a current environment.  Environments can be put aside and taken back,
last in first out.  A command that fails changes nothing.
-/

namespace Calculator

/-- What a session can be asked to do. -/
inductive Session.Command where
  | setConstant (name : String) (value : Float)
  | setNative (name : String) (f : Native)
  | define (d : Definition)
  | registerBuiltins
  | evaluate (text : String)
  | evaluateBatch (texts : List String)
  /-- List both tables. -/
  | list
  /-- Show the limit on nested calls. -/
  | showLimit
  /-- Put a copy of the environment aside. -/
  | save
  /-- Take back the environment that was put aside last. -/
  | restore

/-- The answer to a command. -/
inductive Session.Reply where
  | done
  | rejected (error : DefinitionError)
  | result (r : Except EvalError Float)
  | results (rs : List (Except EvalError Float))
  /-- The constants with their values and the functions as they are shown, both in the order of their names. -/
  | listing (constants : List (String × Float)) (functions : List (String × String))
  | limit (callDepth : Nat)
  /-- How many environments are put aside now. -/
  | saved (count : Nat)
  /-- There is no environment to take back. -/
  | nothingSaved

/-- The current environment and those put aside, the last one first. -/
structure Session where
  current : Environment := {}
  saved : List Environment := []

namespace Session

/-- Makes the outcome of a change the current environment, unless the change was rejected. -/
def update (s : Session) : Except DefinitionError Environment → Session × Reply
  | .ok env => ({ s with current := env }, .done)
  | .error e => (s, .rejected e)

/-- Performs one command. -/
def perform (s : Session) : Command → Session × Reply
  | .setConstant name value => s.update (.ok (s.current.setConstant name value))
  | .setNative name f => s.update (.ok (s.current.setFunction name (.native f)))
  | .define d => s.update (s.current.define d)
  | .registerBuiltins => s.update s.current.registerBuiltins
  | .evaluate text => (s, .result (s.current.evaluate text))
  | .evaluateBatch texts => (s, .results (s.current.evaluateBatch texts))
  | .list =>
    (s, .listing s.current.constants.toList (s.current.functions.toList.map fun (name, f) => (name, f.display)))
  | .showLimit => (s, .limit s.current.limits.callDepth)
  | .save => ({ s with saved := s.current :: s.saved }, .saved (s.saved.length + 1))
  | .restore =>
    match s.saved with
    | [] => (s, .nothingSaved)
    | env :: saved => (⟨env, saved⟩, .saved saved.length)

/-- Performs a list of commands in order. -/
def run (s : Session) : List Command → Session × List Reply
  | [] => (s, [])
  | c :: cs =>
    let (s, reply) := s.perform c
    let (s, replies) := s.run cs
    (s, reply :: replies)

end Session

end Calculator
