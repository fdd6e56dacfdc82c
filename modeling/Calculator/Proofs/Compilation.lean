import Calculator.Proofs.Machine

/-!
# Compiling tokens

`compile` turns a list of tokens into a program, from the tokens alone.  It follows the levels of the operators as
reading does, and where the tokens cannot be read on it ends the program with one failure.  An `Emission` is the steps
of a part of the program together with what is left to compile, or with the syntax error that ends it.

Like the functions that read tokens, those of the namespace `Emission` return the tokens that are left with a proof
that there are fewer of them than before.
-/

namespace Calculator

/-- The steps that were emitted, and what was found behind them. -/
structure Emission (α : Type) where
  steps : List Step
  result : Except SyntaxError α

namespace Emission

variable {α β : Type}

def emit (s : Step) : Emission Unit :=
  ⟨[s], .ok ()⟩

def fail (error : SyntaxError) : Emission α :=
  ⟨[], .error error⟩

/-- Emits the steps of `m` and, unless the program ended there, those of what follows. -/
def andThen (m : Emission α) (f : α → Emission β) : Emission β :=
  match m.result with
  | .ok a => ⟨m.steps ++ (f a).steps, (f a).result⟩
  | .error error => ⟨m.steps, .error error⟩

instance : Monad Emission where
  pure a := ⟨[], .ok a⟩
  bind := andThen

def closingParen : (ts : List Token) → Emission (Scope.Shorter ts)
  | [] => fail (.unexpectedToken .closingParen Token.endMarker)
  | t :: ts =>
    if t.kind = .rightParen then pure ⟨ts, Nat.lt_add_one ts.length⟩ else fail (.unexpectedToken .closingParen t)

mutual

/-- Compiles an expression: an operand and the operators after it that bind tighter than `level`. -/
def expression (level : Precedence) (ts : List Token) : Emission (Scope.Shorter ts) := do
  let rest ← operand ts
  let rest' ← operators level rest.val
  return ⟨rest'.val, Nat.lt_of_le_of_lt rest'.property rest.property⟩
termination_by (ts.length, 1)

/-- Compiles the operators that bind tighter than `level`, each after its right operand. -/
def operators (level : Precedence) (ts : List Token) : Emission (Scope.NotLonger ts) :=
  match ts with
  | [] => return ⟨[], Nat.le_refl _⟩
  | t :: ts =>
    if level < t.kind.precedence then
      match Operator.ofKind? t.kind with
      | none => fail (.unexpectedToken .operator t)
      | some op => do
        let rest ← expression op.rightPrecedence ts
        emit (.binary op)
        let rest' ← operators level rest.val
        return ⟨rest'.val, Nat.le_trans rest'.property (Nat.le_of_lt (Nat.lt_succ_of_lt rest.property))⟩
    else return ⟨t :: ts, Nat.le_refl _⟩
termination_by (ts.length, 0)

/-- Compiles one operand: a number, a constant, a call, a signed operand, or an expression in parentheses. -/
def operand (ts : List Token) : Emission (Scope.Shorter ts) :=
  match ts with
  | [] => fail (.expectedValue Token.endMarker)
  | t :: ts =>
    match t.kind with
    | .number => do
      emit (.number t.text)
      return ⟨ts, Nat.lt_succ_self _⟩
    | .identifier =>
      if (Token.next ts).kind = .leftParen then do
        emit (.lookup t.text)
        let (count, rest) ← arguments ts.tail
        emit (.call t.text count)
        return ⟨rest.val, Nat.lt_succ_of_lt (Nat.lt_of_lt_of_le rest.property (Scope.length_tail_le ts))⟩
      else do
        emit (.constant t.text)
        return ⟨ts, Nat.lt_succ_self _⟩
    -- a positive sign leaves no trace in the program
    | .plus => do
      let rest ← expression Scope.signPrecedence ts
      return ⟨rest.val, Nat.lt_succ_of_lt rest.property⟩
    | .minus => do
      let rest ← expression Scope.signPrecedence ts
      emit .negate
      return ⟨rest.val, Nat.lt_succ_of_lt rest.property⟩
    | .leftParen => do
      let rest ← expression .minimum ts
      let rest' ← closingParen rest.val
      return ⟨rest'.val, Nat.lt_succ_of_lt (Nat.lt_trans rest'.property rest.property)⟩
    | .comma | .star | .slash | .percent | .caret | .rightParen | .endOfExpression => fail (.expectedValue t)
termination_by (ts.length, 0)

/-- Compiles the arguments of a call and the closing parenthesis after them, and counts the arguments. -/
def arguments (ts : List Token) : Emission (Nat × Scope.Shorter ts) :=
  if (Token.next ts).kind = .rightParen then do return (0, ← closingParen ts)
  else argumentList ts
termination_by (ts.length, 3)

/-- Compiles one argument or more, separated by commas, and the closing parenthesis after them. -/
def argumentList (ts : List Token) : Emission (Nat × Scope.Shorter ts) := do
  let rest ← expression .minimum ts
  if (Token.next rest.val).kind = .comma then
    let (count, rest') ← argumentList rest.val.tail
    return (count + 1,
      ⟨rest'.val, Nat.lt_trans (Nat.lt_of_lt_of_le rest'.property (Scope.length_tail_le _)) rest.property⟩)
  else
    let rest' ← closingParen rest.val
    return (1, ⟨rest'.val, Nat.lt_trans rest'.property rest.property⟩)
termination_by (ts.length, 2)

end

/-- Compiles an expression that takes up all the tokens. -/
def whole (ts : List Token) : Emission Unit := do
  let rest ← expression .minimum ts
  if (Token.next rest.val).kind = .endOfExpression then return ()
  else fail (.trailingInput (Token.next rest.val))

/-- The program of an emission: its steps, and the failure if it ended in one. -/
def program (m : Emission α) : List Instruction :=
  m.steps.map .step ++
    match m.result with
    | .ok _ => []
    | .error error => [.fail error]

end Emission

/-- The program of a list of tokens. -/
def compile (ts : List Token) : List Instruction :=
  (Emission.whole ts).program

end Calculator
