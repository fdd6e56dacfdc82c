import Calculator.Evaluation

/-!
# Parsing with a cursor

The parser of a text keeps all the tokens of the text, the end marker included, and the position of its cursor.  The
calls of formulas that are under way are counted in a machine word, which is compared with the limit before each call.

Each function of the parser is given fuel and passes on one unit less, so a `Run` may run out of it.  It records every
position that a cursor takes and every call of a formula, also where it ends in an error or runs out of fuel.

The cursor stands before a list of tokens, `Parser.rest`; `Parser.rest_cases` says when it can move.
-/

namespace Calculator

/-- What the parser of one text works with. -/
structure Parser where
  stream : TokenStream
  constants : ConstantTable
  /-- How many calls of formulas are under way. -/
  depth : UInt64

/-- What a run records. -/
inductive Event where
  /-- The cursor of a parser takes a position. -/
  | cursor (p : Parser) (position : Nat)
  /-- A formula is called at a depth. -/
  | invoke (f : Formula) (args : List Float) (depth : UInt64)

/-- What was recorded, and how the run ended, unless it ran out of fuel. -/
structure Run (α : Type) where
  events : List Event
  outcome : Option (Except EvalError α)

namespace Run

variable {α β : Type}

def record (e : Event) : Run Unit :=
  ⟨[e], some (.ok ())⟩

def fail (error : EvalError) : Run α :=
  ⟨[], some (.error error)⟩

def outOfFuel : Run α :=
  ⟨[], none⟩

def ofExcept (x : Except EvalError α) : Run α :=
  ⟨[], some x⟩

/-- Goes on with what was found, unless the run ended or ran out of fuel. -/
def andThen (m : Run α) (f : α → Run β) : Run β :=
  match m.outcome with
  | some (.ok a) => ⟨m.events ++ (f a).events, (f a).outcome⟩
  | some (.error error) => ⟨m.events, some (.error error)⟩
  | none => ⟨m.events, none⟩

instance : Monad Run where
  pure a := ⟨[], some (.ok a)⟩
  bind := andThen

theorem pure_bind (a : α) (f : α → Run β) : (pure a >>= f) = f a := rfl

end Run

namespace Parser

/-- The token at a position, or the end marker if the position is behind all tokens. -/
def peek (p : Parser) (position : Nat) : Token :=
  p.stream.tokens.getD position Token.endMarker

/-- Takes the token at a position and moves on, but never past the end marker. -/
def advance (p : Parser) (position : Nat) : Run (Token × Nat) :=
  let token := p.peek position
  if token.kind = .endOfExpression then pure (token, position)
  else do
    Run.record (.cursor p (position + 1))
    return (token, position + 1)

/-- Takes a closing parenthesis. -/
def closingParen (p : Parser) (position : Nat) : Run (Unit × Nat) := do
  let (token, position) ← p.advance position
  if token.kind = .rightParen then return ((), position)
  else Run.fail (.unexpectedToken .closingParen token)

variable (functions : FunctionTable) (limit : UInt64)

mutual

/-- Parses an expression: an operand and the operators after it that bind tighter than `level`. -/
def expression (fuel : Nat) (p : Parser) (level : Precedence) (position : Nat) : Run (Float × Nat) :=
  match fuel with
  | 0 => Run.outOfFuel
  | fuel + 1 => do
    let (left, position) ← operand fuel p position
    operators fuel p level left position

/-- Goes on with the operators that bind tighter than `level`, each with its right operand. -/
def operators (fuel : Nat) (p : Parser) (level : Precedence) (left : Float) (position : Nat) : Run (Float × Nat) :=
  match fuel with
  | 0 => Run.outOfFuel
  | fuel + 1 =>
    if level < (p.peek position).kind.precedence then do
      let (token, position) ← p.advance position
      match Operator.ofKind? token.kind with
      | none => Run.fail (.unexpectedToken .operator token)
      | some op =>
        let (right, position) ← expression fuel p op.rightPrecedence position
        operators fuel p level (op.apply left right) position
    else return (left, position)

/-- Parses one operand: a number, a constant, a call, a signed operand, or an expression in parentheses. -/
def operand (fuel : Nat) (p : Parser) (position : Nat) : Run (Float × Nat) :=
  match fuel with
  | 0 => Run.outOfFuel
  | fuel + 1 => do
    let (token, position) ← p.advance position
    match token.kind with
    | .number =>
      match Numeral.value? token.text with
      | some value => return (value, position)
      | none => Run.fail (.invalidNumber token.text)
    | .identifier =>
      if (p.peek position).kind = .leftParen then
        let (_, position) ← p.advance position
        call fuel p token.text position
      else
        match p.constants[token.text]? with
        | some value => return (value, position)
        | none => Run.fail (.unknownConstant token.text)
    | .plus => expression fuel p Scope.signPrecedence position
    | .minus =>
      let (value, position) ← expression fuel p Scope.signPrecedence position
      return (-value, position)
    | .leftParen =>
      let (value, position) ← expression fuel p .minimum position
      let (_, position) ← p.closingParen position
      return (value, position)
    | .comma | .star | .slash | .percent | .caret | .rightParen | .endOfExpression =>
      Run.fail (.expectedValue token)

/-- Parses the arguments of a call and calls the function.  The call of a formula is refused for its depth first. -/
def call (fuel : Nat) (p : Parser) (name : String) (position : Nat) : Run (Float × Nat) :=
  match fuel with
  | 0 => Run.outOfFuel
  | fuel + 1 =>
    match functions[name]? with
    | none => Run.fail (.unknownFunction name)
    | some callable => do
      let (args, position) ← arguments fuel p position
      match callable with
      | .formula f =>
        if limit < p.depth + 1 then Run.fail (.callDepthExceeded limit.toNat)
        else
          let value ← invoke fuel f args (p.depth + 1)
          return (value, position)
      | .native f =>
        let value ← Run.ofExcept (f.call name args)
        return (value, position)

/-- Parses the arguments of a call and the closing parenthesis after them. -/
def arguments (fuel : Nat) (p : Parser) (position : Nat) : Run (List Float × Nat) :=
  match fuel with
  | 0 => Run.outOfFuel
  | fuel + 1 =>
    if (p.peek position).kind = .rightParen then do
      let (_, position) ← p.closingParen position
      return ([], position)
    else argumentList fuel p position

/-- Parses one argument or more, separated by commas, and the closing parenthesis after them. -/
def argumentList (fuel : Nat) (p : Parser) (position : Nat) : Run (List Float × Nat) :=
  match fuel with
  | 0 => Run.outOfFuel
  | fuel + 1 => do
    let (value, position) ← expression fuel p .minimum position
    if (p.peek position).kind = .comma then
      let (_, position) ← p.advance position
      let (values, position) ← argumentList fuel p position
      return (value :: values, position)
    else
      let (_, position) ← p.closingParen position
      return ([value], position)

/-- Calls a formula: its body is evaluated with the arguments as the only constants. -/
def invoke (fuel : Nat) (f : Formula) (args : List Float) (depth : UInt64) : Run Float :=
  match fuel with
  | 0 => Run.outOfFuel
  | fuel + 1 => do
    Run.record (.invoke f args depth)
    if args.length ≠ f.arity then Run.fail (.argumentCount f.arity args.length)
    else evaluateText fuel (Std.TreeMap.ofList (f.params.zip args)) depth f.body

/-- Evaluates a text inside `depth` calls with a parser of its own, whose cursor starts at the first token. -/
def evaluateText (fuel : Nat) (constants : ConstantTable) (depth : UInt64) (text : String) : Run Float :=
  match fuel with
  | 0 => Run.outOfFuel
  | fuel + 1 =>
    if text = "" then Run.fail .emptyExpression
    else
      match tokenize text with
      | .error error => Run.fail (.lexical error)
      | .ok stream => do
        let p : Parser := ⟨stream, constants, depth⟩
        Run.record (.cursor p 0)
        let (value, position) ← expression fuel p .minimum 0
        if (p.peek position).kind = .endOfExpression then return value
        else Run.fail (.trailingInput (p.peek position))

end

/-! ### The tokens at the cursor -/

/-- The tokens from a position on, without the end marker. -/
def rest (p : Parser) (position : Nat) : List Token :=
  p.stream.lexemes.drop position

theorem peek_eq (p : Parser) (position : Nat) : p.peek position = Token.next (p.rest position) := by
  rw [peek, rest, TokenStream.tokens, List.getD_eq_getElem?_getD, List.getElem?_append, Token.next,
    List.headD_eq_head?_getD, List.head?_drop]
  by_cases h : position < p.stream.lexemes.length
  · rw [if_pos h]
  · rw [if_neg h, List.getElem?_eq_none (Nat.le_of_not_lt h), List.getElem?_singleton]
    split <;> rfl

/-- Either the cursor has reached the end, or there is a token to move past. -/
theorem rest_cases (p : Parser) {position : Nat} (h : position ≤ p.stream.lexemes.length) :
    (Token.next (p.rest position)).kind = .endOfExpression ∨
      ∃ t, p.rest position = t :: p.rest (position + 1) ∧ position + 1 ≤ p.stream.lexemes.length ∧
        t.kind ≠ .endOfExpression := by
  by_cases hk : (Token.next (p.rest position)).kind = .endOfExpression
  · exact Or.inl hk
  · rcases Nat.lt_or_eq_of_le h with hlt | rfl
    · have hcons : p.rest position = p.stream.lexemes[position] :: p.rest (position + 1) :=
        List.drop_eq_getElem_cons hlt
      rw [hcons] at hk
      exact Or.inr ⟨_, hcons, hlt, hk⟩
    · rw [rest, List.drop_length] at hk
      exact absurd rfl hk

/-- The cursor reaches the end behind all tokens and not before. -/
theorem eq_length_of_end {p : Parser} (hp : ∀ t ∈ p.stream.lexemes, t.kind ≠ .endOfExpression) {position : Nat}
    (h : position ≤ p.stream.lexemes.length) (hend : (Token.next (p.rest position)).kind = .endOfExpression) :
    position = p.stream.lexemes.length := by
  rcases Nat.lt_or_eq_of_le h with hlt | heq
  · have hcons : p.rest position = p.stream.lexemes[position] :: p.rest (position + 1) :=
      List.drop_eq_getElem_cons hlt
    rw [hcons] at hend
    exact absurd hend (hp _ (List.getElem_mem hlt))
  · exact heq

theorem advance_of_end {p : Parser} {position : Nat} (h : (Token.next (p.rest position)).kind = .endOfExpression) :
    p.advance position = pure (Token.next (p.rest position), position) := by
  rw [← peek_eq] at h ⊢
  exact if_pos h

theorem advance_of_cons {p : Parser} {position : Nat} {t : Token} {ts : List Token} (h : p.rest position = t :: ts)
    (ht : t.kind ≠ .endOfExpression) :
    p.advance position = Run.record (.cursor p (position + 1)) >>= fun _ => pure (t, position + 1) := by
  have hpeek : p.peek position = t := by
    rw [peek_eq, h]
    rfl
  rw [advance, hpeek]
  exact if_neg ht

end Parser

end Calculator
