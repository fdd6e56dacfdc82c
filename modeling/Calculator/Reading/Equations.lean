import Calculator.Reading.Basic

/-!
# The equations of reading

`Scope.expression` and its companions return the tokens that are left with a proof that there are fewer of them.  The
functions here forget that proof, and each has one equation for each shape of its input:

* `readExpression_eq`, `readOperators_nil`, `readOperators_cons`, `readOperand_nil`, `readOperand_cons`,
  `readArguments_eq`, `readArgumentList_eq`;
* `evaluate_eq`: the value of a whole list of tokens.
-/

namespace Calculator.Scope

/-- Reads a closing parenthesis. -/
def readClosingParen (ts : List Token) : Except EvalError (List Token) :=
  (closingParen ts).map fun rest => rest.val

/-- Reads an expression at a level. -/
def readExpression (scope : Scope) (level : Precedence) (ts : List Token) : Except EvalError (Float × List Token) :=
  (scope.expression level ts).map fun r => (r.1, r.2.val)

/-- Extends a value by the operators at a level. -/
def readOperators (scope : Scope) (level : Precedence) (left : Float) (ts : List Token) :
    Except EvalError (Float × List Token) :=
  (scope.operators level left ts).map fun r => (r.1, r.2.val)

/-- Reads one operand. -/
def readOperand (scope : Scope) (ts : List Token) : Except EvalError (Float × List Token) :=
  (scope.operand ts).map fun r => (r.1, r.2.val)

/-- Reads the arguments of a call. -/
def readArguments (scope : Scope) (ts : List Token) : Except EvalError (List Float × List Token) :=
  (scope.arguments ts).map fun r => (r.1, r.2.val)

/-- Reads one argument or more. -/
def readArgumentList (scope : Scope) (ts : List Token) : Except EvalError (List Float × List Token) :=
  (scope.argumentList ts).map fun r => (r.1, r.2.val)

theorem readClosingParen_cons (t : Token) (ts : List Token) :
    readClosingParen (t :: ts) =
      if t.kind = .rightParen then .ok ts else .error (.unexpectedToken .closingParen t) := by
  rw [readClosingParen, closingParen]
  split <;> rfl

theorem readExpression_eq (scope : Scope) (level : Precedence) (ts : List Token) :
    scope.readExpression level ts =
      scope.readOperand ts >>= fun r => scope.readOperators level r.1 r.2 := by
  unfold readExpression readOperand readOperators
  rw [expression]
  rcases scope.operand ts with e | ⟨left, rest⟩
  · rfl
  · simp only [bind, Except.bind, Except.map]
    cases scope.operators level left rest.val <;> rfl

theorem readOperators_nil (scope : Scope) (level : Precedence) (left : Float) :
    scope.readOperators level left [] = .ok (left, []) := by
  rw [readOperators, operators]
  rfl

theorem readOperators_cons (scope : Scope) (level : Precedence) (left : Float) (t : Token) (ts : List Token) :
    scope.readOperators level left (t :: ts) =
      if level < t.kind.precedence then
        match Operator.ofKind? t.kind with
        | none => .error (.unexpectedToken .operator t)
        | some op =>
          scope.readExpression op.rightPrecedence ts >>= fun r =>
            scope.readOperators level (op.apply left r.1) r.2
      else .ok (left, t :: ts) := by
  unfold readOperators readExpression
  rw [operators]
  by_cases h : level < t.kind.precedence
  · simp only [h, if_true]
    cases Operator.ofKind? t.kind with
    | none => rfl
    | some op =>
      simp only [bind, Except.bind, Except.map]
      rcases scope.expression op.rightPrecedence ts with e | ⟨right, rest⟩
      · rfl
      · simp only
        cases scope.operators level (op.apply left right) rest.val <;> rfl
  · simp only [h, if_false]
    rfl

theorem readArguments_eq (scope : Scope) (ts : List Token) :
    scope.readArguments ts =
      if (Token.next ts).kind = .rightParen then .ok ([], ts.tail) else scope.readArgumentList ts := by
  unfold readArguments readArgumentList
  rw [arguments]
  by_cases h : (Token.next ts).kind = .rightParen
  · simp only [h, if_true]
    cases ts with
    | nil => exact absurd h (by decide)
    | cons t ts =>
      have ht : t.kind = .rightParen := h
      simp [closingParen, ht, bind, Except.bind, Except.map, pure, Except.pure]
  · simp only [h, if_false]

theorem readArgumentList_eq (scope : Scope) (ts : List Token) :
    scope.readArgumentList ts =
      scope.readExpression .minimum ts >>= fun r =>
        if (Token.next r.2).kind = .comma then
          (scope.readArgumentList r.2.tail).map fun r' => (r.1 :: r'.1, r'.2)
        else (readClosingParen r.2).map fun rest => ([r.1], rest) := by
  unfold readArgumentList readExpression readClosingParen
  rw [argumentList]
  rcases scope.expression .minimum ts with e | ⟨value, rest⟩
  · rfl
  · simp only [bind, Except.bind, Except.map]
    by_cases h : (Token.next rest.val).kind = .comma
    · simp only [h, if_true]
      cases scope.argumentList rest.val.tail <;> rfl
    · simp only [h, if_false]
      cases closingParen rest.val <;> rfl

theorem readOperand_nil (scope : Scope) : scope.readOperand [] = .error (.expectedValue Token.endMarker) := by
  rw [readOperand, operand]
  rfl

theorem readOperand_cons (scope : Scope) (t : Token) (ts : List Token) :
    scope.readOperand (t :: ts) =
      match t.kind with
      | .number =>
        match Numeral.value? t.text with
        | some value => .ok (value, ts)
        | none => .error (.invalidNumber t.text)
      | .identifier =>
        if (Token.next ts).kind = .leftParen then
          match scope.function? t.text with
          | none => .error (.unknownFunction t.text)
          | some f => scope.readArguments ts.tail >>= fun r => (f r.1).map fun value => (value, r.2)
        else
          match scope.constant? t.text with
          | some value => .ok (value, ts)
          | none => .error (.unknownConstant t.text)
      | .plus => scope.readExpression signPrecedence ts
      | .minus => (scope.readExpression signPrecedence ts).map fun r => (-r.1, r.2)
      | .leftParen =>
        scope.readExpression .minimum ts >>= fun r => (readClosingParen r.2).map fun rest => (r.1, rest)
      | _ => .error (.expectedValue t) := by
  unfold readOperand readExpression readArguments readClosingParen
  rw [operand]
  cases t.kind with
  | number => cases Numeral.value? t.text <;> rfl
  | identifier =>
    by_cases h : (Token.next ts).kind = .leftParen
    · simp only [h, if_true]
      cases scope.function? t.text with
      | none => rfl
      | some f =>
        simp only [bind, Except.bind, Except.map]
        rcases scope.arguments ts.tail with e | ⟨args, rest⟩
        · rfl
        · simp only
          cases f args <;> rfl
    · simp only [h, if_false]
      cases scope.constant? t.text <;> rfl
  | plus => cases scope.expression signPrecedence ts <;> rfl
  | minus => cases scope.expression signPrecedence ts <;> rfl
  | leftParen =>
    rcases scope.expression .minimum ts with e | ⟨value, rest⟩
    · rfl
    · simp only [bind, Except.bind, Except.map]
      cases closingParen rest.val <;> rfl
  | comma | star | slash | percent | caret | rightParen | endOfExpression => rfl

theorem evaluate_eq (scope : Scope) (ts : List Token) :
    scope.evaluate ts =
      scope.readExpression .minimum ts >>= fun r =>
        if (Token.next r.2).kind = .endOfExpression then .ok r.1 else .error (.trailingInput (Token.next r.2)) := by
  rw [evaluate, readExpression]
  rcases scope.expression .minimum ts with e | ⟨value, rest⟩ <;> rfl

end Calculator.Scope
