import Calculator.Token.Lexer

/-!
# Errors

Why a definition is rejected and why an evaluation fails, each with the message that is shown for it.
-/

namespace Calculator

/-- The message of a lexical error. -/
def LexicalError.message (e : LexicalError) : String :=
  "Unrecognized input at offset " ++ toString e.offset ++ ": '" ++ e.remaining ++ "'"

/-- Why the definition of a function is rejected; each names the parameter at fault. -/
inductive DefinitionError where
  /-- The parameter has the name of an earlier one. -/
  | duplicateParameter (name : String)
  /-- The name is not an identifier. -/
  | invalidParameter (name : String)
  /-- The name does not occur in the body. -/
  | unusedParameter (name : String)
deriving DecidableEq, Repr

/-- The message of a definition error. -/
def DefinitionError.message : DefinitionError → String
  | duplicateParameter name => "Parameter '" ++ name ++ "' is declared more than once"
  | invalidParameter name => "Parameter '" ++ name ++ "' is not a valid identifier"
  | unusedParameter name => "Parameter '" ++ name ++ "' is never used in the function body"

/-- What was expected in place of an unexpected token. -/
inductive Expectation where
  | operator
  | closingParen
deriving DecidableEq, Repr

/-- How an expectation is named in messages. -/
def Expectation.display : Expectation → String
  | operator => "an operator"
  | closingParen => "')'"

/-- Why an evaluation fails. -/
inductive EvalError where
  /-- The text does not split into tokens. -/
  | lexical (error : LexicalError)
  /-- The text is empty. -/
  | emptyExpression
  /-- The text of a number token is not a numeral. -/
  | invalidNumber (text : String)
  /-- A complete expression is followed by something that cannot extend it. -/
  | trailingInput (found : Token)
  /-- An operand was due. -/
  | expectedValue (found : Token)
  /-- Something else was due. -/
  | unexpectedToken (expected : Expectation) (found : Token)
  | unknownConstant (name : String)
  | unknownFunction (name : String)
  /-- A function was called with the wrong number of arguments. -/
  | argumentCount (expected found : Nat)
  /-- The calls of defined functions are nested deeper than allowed. -/
  | callDepthExceeded (limit : Nat)
  /-- A native function reported a failure. -/
  | nativeFailure (name message : String)
deriving DecidableEq, Repr

/-- The message about a wrong number of arguments. -/
def argumentCountMessage (expected found : Nat) : String :=
  "Expected " ++ toString expected ++ " arguments, but got " ++ toString found

/-- The message of an evaluation error. -/
def EvalError.message : EvalError → String
  | lexical error => error.message
  | emptyExpression => "Expression is empty"
  | invalidNumber text => "Invalid number literal '" ++ text ++ "'"
  | trailingInput found => "Unexpected trailing input, found " ++ found.display
  | expectedValue found => "Expected value, found " ++ found.display
  | unexpectedToken expected found => "Expected " ++ expected.display ++ ", found " ++ found.display
  | unknownConstant name => "Unknown constant '" ++ name ++ "'"
  | unknownFunction name => "Unknown function '" ++ name ++ "'"
  | argumentCount expected found => argumentCountMessage expected found
  | callDepthExceeded limit => "Function calls nested deeper than " ++ toString limit ++ " levels"
  | nativeFailure name message => "Function '" ++ name ++ "' failed: " ++ message

end Calculator
