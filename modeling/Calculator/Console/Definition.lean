import Calculator.Function.Formula
import Calculator.Text.Blank
import Calculator.Text.Cut

/-!
# Definitions on one line

A function is defined by a line of the form `def name(p1, p2) = body`.  The first `=` ends the head and the first `(`
ends the name, so a body may hold both characters.
-/

namespace Calculator

namespace Definition

/-- The parameters between the parentheses: separated by commas, with blanks around them and empty ones left out. -/
def parseParams (s : List Char) : List String :=
  (((Text.pieces ',' s).map Text.trim).filter fun p => !p.isEmpty).map String.ofList

/-- The definition that follows the word `def` and a space. -/
def parseAfterDef? (s : List Char) : Option Definition := do
  let (head, body) ← Text.cut '=' s
  let (name, params) ← Text.cut '(' (Text.trim head)
  let params ← Text.dropLast? ')' (Text.trim params)
  some ⟨String.ofList (Text.trim name), parseParams params, String.ofList (Text.trim body)⟩

/-- The definition on a line, or `none` if the line does not have the form of one. -/
def parse? : List Char → Option Definition
  | 'd' :: 'e' :: 'f' :: ' ' :: s => parseAfterDef? s
  | _ => none

end Definition

end Calculator
