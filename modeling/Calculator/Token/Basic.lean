import Calculator.Precedence

/-!
# Tokens

A token is a lexical class together with the text it was read from.  The end of an expression is a token too: it has a
class of its own, an empty text, and closes every `TokenStream`.
-/

namespace Calculator

/-- The lexical classes. -/
inductive Token.Kind where
  | comma
  | number
  | identifier
  | plus
  | minus
  | star
  | slash
  | percent
  | caret
  | leftParen
  | rightParen
  | endOfExpression
deriving DecidableEq, Repr

/-- A lexical class and the text it was read from. -/
structure Token where
  kind : Token.Kind
  text : String
deriving DecidableEq, Repr

namespace Token

/-- All lexical classes. -/
def Kind.all : List Kind :=
  [comma, number, identifier, plus, minus, star, slash, percent, caret, leftParen, rightParen, endOfExpression]

/-- How tightly a token of this class binds when it follows a complete operand. -/
def Kind.precedence : Kind → Precedence
  | comma | rightParen | endOfExpression => .minimum
  | identifier => .identifier
  | number => .number
  | plus | minus => .additive
  | star | slash | percent => .multiplicative
  | caret => .exponential
  | leftParen => .parenthesis

/-- The class of a token that is a single symbol. -/
def Kind.ofSymbol? : Char → Option Kind
  | ',' => some comma
  | '+' => some plus
  | '-' => some minus
  | '*' => some star
  | '/' => some slash
  | '%' => some percent
  | '^' => some caret
  | '(' => some leftParen
  | ')' => some rightParen
  | _ => none

/-- The token that stands for the end of the expression. -/
def endMarker : Token := ⟨.endOfExpression, ""⟩

/-- How a token is named in messages. -/
def display (t : Token) : String :=
  match t.kind with
  | .endOfExpression => "end of expression"
  | .number => "number '" ++ t.text ++ "'"
  | .identifier => "identifier '" ++ t.text ++ "'"
  | _ => "'" ++ t.text ++ "'"

/-- The first token, or the end marker if there is none. -/
def next (ts : List Token) : Token :=
  ts.headD endMarker

end Token

/-- The tokens of a text.  The end marker is not among the `lexemes`; it follows them in `tokens`. -/
structure TokenStream where
  lexemes : List Token
deriving DecidableEq, Repr

namespace TokenStream

/-- All tokens, closed by the end marker. -/
def tokens (s : TokenStream) : List Token :=
  s.lexemes ++ [Token.endMarker]

/-- The number of tokens, the end marker included. -/
def size (s : TokenStream) : Nat :=
  s.tokens.length

/-- Whether there is no token at all, which the end marker rules out. -/
def isEmpty (s : TokenStream) : Bool :=
  s.tokens.isEmpty

/-- Whether the text held nothing but blanks. -/
def isBlank (s : TokenStream) : Bool :=
  s.size == 1

end TokenStream

end Calculator
