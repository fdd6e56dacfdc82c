import Calculator.Proofs.Compilation
import Mathlib

/-!
# Executing compiled tokens

Reading tokens, which evaluates them on the way, agrees with compiling them and executing the program, whether the
tokens are well formed or not.  `Emission.run` executes the steps of an emission and then yields what it found, or its
syntax error; it turns the composition of emissions into the composition of their runs (`run_bind`), so each function
of the reader is compared with the one of the compiler that has the same shape.
-/

namespace Calculator

namespace Emission

variable {α β : Type} (scope : Scope)

/-- Executes the steps of an emission and passes on what it found. -/
def run (m : Emission α) (stack : List Float) : Except EvalError (List Float × α) := do
  let stack ← scope.execute (m.steps.map .step) stack
  match m.result with
  | .ok a => .ok (stack, a)
  | .error error => .error error.toEvalError

theorem run_pure (a : α) (stack : List Float) : (pure a : Emission α).run scope stack = .ok (stack, a) := rfl

theorem run_emit (s : Step) (stack : List Float) :
    (emit s).run scope stack = scope.step s stack >>= fun stack => .ok (stack, ()) := by
  rw [run, emit, List.map_singleton, Scope.execute_step]

theorem run_bind (m : Emission α) (f : α → Emission β) (stack : List Float) :
    (m >>= f).run scope stack = m.run scope stack >>= fun r => (f r.2).run scope r.1 := by
  obtain ⟨steps, result⟩ := m
  cases result with
  | ok a =>
    show (scope.execute ((steps ++ (f a).steps).map .step) stack >>= _) = _
    rw [List.map_append, Scope.execute_append, bind_assoc, run, bind_assoc]
    rfl
  | error error =>
    show (scope.execute (steps.map .step) stack >>= _) = _
    rw [run, bind_assoc]
    rfl

/-- Executing the program of an emission is running the emission. -/
theorem execute_program (m : Emission α) (stack : List Float) :
    scope.execute m.program stack = m.run scope stack >>= fun r => .ok r.1 := by
  obtain ⟨steps, result⟩ := m
  cases result with
  | ok a =>
    show scope.execute (steps.map .step ++ []) stack = _
    rw [List.append_nil, run, bind_assoc]
    exact (bind_ok _).symm
  | error error =>
    show scope.execute (steps.map .step ++ [.fail error]) stack = _
    rw [Scope.execute_append, run, bind_assoc]
    rfl

theorem run_closingParen (ts : List Token) (stack : List Float) :
    (closingParen ts).run scope stack = Scope.closingParen ts >>= fun rest => .ok (stack, rest) := by
  cases ts with
  | nil => rfl
  | cons t ts =>
    rw [closingParen, Scope.closingParen]
    split <;> rfl

mutual

theorem run_expression (level : Precedence) (ts : List Token) (stack : List Float) :
    (expression level ts).run scope stack =
      scope.expression level ts >>= fun r => .ok (r.1 :: stack, r.2) := by
  rw [expression, Scope.expression, run_bind, run_operand ts stack, bind_assoc, bind_assoc]
  apply bind_congr
  rintro ⟨left, rest⟩
  rw [ok_bind, run_bind, run_operators level left rest.val stack, bind_assoc, bind_assoc]
  rfl
termination_by (ts.length, 1)

theorem run_operators (level : Precedence) (left : Float) (ts : List Token) (stack : List Float) :
    (operators level ts).run scope (left :: stack) =
      scope.operators level left ts >>= fun r => .ok (r.1 :: stack, r.2) := by
  cases ts with
  | nil =>
    rw [operators, Scope.operators]
    rfl
  | cons t ts =>
    rw [operators, Scope.operators]
    by_cases h : level < t.kind.precedence
    · rw [if_pos h, if_pos h]
      cases Operator.ofKind? t.kind with
      | none => rfl
      | some op =>
        rw [run_bind, run_expression op.rightPrecedence ts (left :: stack), bind_assoc, bind_assoc]
        apply bind_congr
        rintro ⟨right, rest⟩
        rw [ok_bind, run_bind, run_emit]
        show ((operators level rest.val >>= _ : Emission _).run scope (op.apply left right :: stack)) = _
        rw [run_bind, run_operators level (op.apply left right) rest.val stack, bind_assoc, bind_assoc]
        rfl
    · rw [if_neg h, if_neg h]
      rfl
termination_by (ts.length, 0)

theorem run_operand (ts : List Token) (stack : List Float) :
    (operand ts).run scope stack = scope.operand ts >>= fun r => .ok (r.1 :: stack, r.2) := by
  cases ts with
  | nil =>
    rw [operand, Scope.operand]
    rfl
  | cons t ts =>
    rw [operand, Scope.operand]
    cases t.kind with
    | number =>
      show ((emit (.number t.text) >>= _ : Emission _).run scope stack) = _
      rw [run_bind, run_emit, Scope.step, Numeral.read]
      cases Numeral.value? t.text <;> rfl
    | identifier =>
      by_cases h : (Token.next ts).kind = .leftParen
      · simp only [if_pos h]
        rw [run_bind, run_emit, Scope.step, Scope.function]
        cases hf : scope.function? t.text with
        | none => rfl
        | some f =>
          show ((arguments ts.tail >>= _ : Emission _).run scope stack) = _
          rw [run_bind, run_arguments ts.tail stack, bind_assoc, bind_assoc]
          apply bind_congr
          rintro ⟨args, rest⟩
          rw [ok_bind, run_bind, run_emit, Scope.step_call, Scope.function, hf]
          simp only [ok_bind]
          cases f args <;> rfl
      · simp only [if_neg h]
        rw [run_bind, run_emit, Scope.step, Scope.constant]
        cases scope.constant? t.text <;> rfl
    | plus =>
      show ((expression Scope.signPrecedence ts >>= _ : Emission _).run scope stack) = _
      rw [run_bind, run_expression Scope.signPrecedence ts stack, bind_assoc, bind_assoc]
      rfl
    | minus =>
      show ((expression Scope.signPrecedence ts >>= _ : Emission _).run scope stack) = _
      rw [run_bind, run_expression Scope.signPrecedence ts stack, bind_assoc, bind_assoc]
      rfl
    | leftParen =>
      show ((expression .minimum ts >>= _ : Emission _).run scope stack) = _
      rw [run_bind, run_expression .minimum ts stack, bind_assoc, bind_assoc]
      apply bind_congr
      rintro ⟨value, rest⟩
      rw [ok_bind, run_bind, run_closingParen, bind_assoc, bind_assoc]
      rfl
    | comma | star | slash | percent | caret | rightParen | endOfExpression => rfl
termination_by (ts.length, 0)

theorem run_arguments (ts : List Token) (stack : List Float) :
    (arguments ts).run scope stack =
      scope.arguments ts >>= fun r => .ok (r.1.reverse ++ stack, (r.1.length, r.2)) := by
  rw [arguments, Scope.arguments]
  by_cases h : (Token.next ts).kind = .rightParen
  · rw [if_pos h, if_pos h, run_bind, run_closingParen, bind_assoc, bind_assoc]
    rfl
  · rw [if_neg h, if_neg h]
    exact run_argumentList ts stack
termination_by (ts.length, 3)

theorem run_argumentList (ts : List Token) (stack : List Float) :
    (argumentList ts).run scope stack =
      scope.argumentList ts >>= fun r => .ok (r.1.reverse ++ stack, (r.1.length, r.2)) := by
  rw [argumentList, Scope.argumentList, run_bind, run_expression .minimum ts stack, bind_assoc, bind_assoc]
  apply bind_congr
  rintro ⟨value, rest⟩
  simp only [ok_bind]
  by_cases h : (Token.next rest.val).kind = .comma
  · rw [if_pos h, if_pos h, run_bind, run_argumentList rest.val.tail (value :: stack), bind_assoc, bind_assoc]
    apply bind_congr
    rintro ⟨values, rest'⟩
    simp [run_pure]
  · rw [if_neg h, if_neg h, run_bind, run_closingParen, bind_assoc, bind_assoc]
    rfl
termination_by (ts.length, 2)

end

theorem run_whole (ts : List Token) (stack : List Float) :
    (whole ts).run scope stack = scope.evaluate ts >>= fun value => .ok (value :: stack, ()) := by
  rw [whole, Scope.evaluate, run_bind, run_expression, bind_assoc, bind_assoc]
  apply bind_congr
  rintro ⟨value, rest⟩
  simp only [ok_bind]
  by_cases h : (Token.next rest.val).kind = .endOfExpression
  · rw [if_pos h, if_pos h]
    rfl
  · rw [if_neg h, if_neg h]
    rfl

end Emission

/-- The program of a list of tokens pushes the value of the tokens, or fails as reading them does. -/
theorem execute_compile (scope : Scope) (ts : List Token) (stack : List Float) :
    scope.execute (compile ts) stack = (scope.evaluate ts).map (· :: stack) := by
  rw [compile, Emission.execute_program, Emission.run_whole, bind_assoc, map_eq_bind]
  rfl

/-- The call of a formula on the machine, inside `depth` calls that are under way: the body is compiled and executed
with the parameters as its only constants. -/
def Formula.execute (functions : FunctionTable) (limits : Limits) (depth : Nat) (f : Formula) (args : List Float) :
    Except EvalError Float :=
  if limits.callDepth < depth + 1 then .error (.callDepthExceeded limits.callDepth)
  else if args.length ≠ f.arity then .error (.argumentCount f.arity args.length)
  else if f.body = "" then .error .emptyExpression
  else
    match tokenize f.body with
    | .error error => .error (.lexical error)
    | .ok stream =>
      let scope := Scope.ofTables (Std.TreeMap.ofList (f.params.zip args)) functions fun g values =>
        Formula.execute functions limits (depth + 1) g values
      (scope.execute (compile stream.lexemes) []).map (·.headD 0)
termination_by limits.callDepth - depth

/-- Calls mean the same on the machine as in an evaluation. -/
theorem Formula.execute_eq_invoke (functions : FunctionTable) (limits : Limits) (depth : Nat) :
    Formula.execute functions limits depth = Formula.invoke functions limits depth := by
  funext f args
  rw [Formula.execute, Formula.invoke]
  by_cases hd : limits.callDepth < depth + 1
  · rw [if_pos hd, if_pos hd]
  · -- the calls in the body are one level deeper
    have ih := Formula.execute_eq_invoke functions limits (depth + 1)
    rw [if_neg hd, if_neg hd, ih, ← Scope.atDepth_eq, Scope.evaluateText]
    congr 2
    cases tokenize f.body with
    | error error => rfl
    | ok stream =>
      show ((Scope.execute _ (compile stream.lexemes) []).map (·.headD 0)) = Scope.evaluate _ stream.lexemes
      rw [execute_compile]
      cases Scope.evaluate _ stream.lexemes <;> rfl
termination_by limits.callDepth - depth

/-- A program is a list of steps, with at most one failure behind them. -/
theorem compile_eq_steps (ts : List Token) :
    ∃ steps : List Step, compile ts = steps.map .step ∨ ∃ error, compile ts = steps.map .step ++ [.fail error] := by
  refine ⟨(Emission.whole ts).steps, ?_⟩
  rw [compile, Emission.program]
  cases (Emission.whole ts).result with
  | ok a => exact Or.inl (List.append_nil _)
  | error error => exact Or.inr ⟨error, rfl⟩

/-- Evaluating while reading agrees with compiling first and executing afterwards, in the value and in the error.
The program is made from the tokens alone and ends at its first syntax error; whatever the tokens are, it pushes their
value on the stack or fails as their evaluation does, and so it evaluates every text with these tokens. -/
theorem evaluateText_eq_execute_compile (functions : FunctionTable) (limits : Limits) (depth : Nat)
    (constants : ConstantTable) (ts : List Token) (stack : List Float) :
    (∃ steps : List Step, compile ts = steps.map .step ∨ ∃ error, compile ts = steps.map .step ++ [.fail error]) ∧
    (Scope.ofTables constants functions (Formula.execute functions limits depth)).execute (compile ts) stack =
      ((Scope.atDepth functions limits depth constants).evaluate ts).map (· :: stack) ∧
    ∀ text : String, text ≠ "" → tokenize text = .ok ⟨ts⟩ →
      (Scope.ofTables constants functions (Formula.execute functions limits depth)).execute (compile ts) stack =
        ((Scope.atDepth functions limits depth constants).evaluateText text).map (· :: stack) := by
  have hexecute : (Scope.ofTables constants functions (Formula.execute functions limits depth)).execute (compile ts)
      stack = ((Scope.atDepth functions limits depth constants).evaluate ts).map (· :: stack) := by
    rw [Formula.execute_eq_invoke, ← Scope.atDepth_eq, execute_compile]
  refine ⟨compile_eq_steps ts, hexecute, fun text hne ht => ?_⟩
  rw [hexecute, Scope.evaluateText_of_tokenize _ hne ht]

/-- The program of a call that is never closed looks the function up, evaluates the argument, and then fails. -/
theorem evaluateText_eq_execute_compile_unclosed :
    "-f(x" ≠ "" ∧ tokenize "-f(x" = .ok ⟨[⟨.minus, "-"⟩, ⟨.identifier, "f"⟩, ⟨.leftParen, "("⟩, ⟨.identifier, "x"⟩]⟩ ∧
    compile [⟨.minus, "-"⟩, ⟨.identifier, "f"⟩, ⟨.leftParen, "("⟩, ⟨.identifier, "x"⟩] =
      [.step (.lookup "f"), .step (.constant "x"), .fail (.unexpectedToken .closingParen Token.endMarker)] ∧
    (Scope.ofTables ∅ ∅ (Formula.execute ∅ {} 0)).execute
        (compile [⟨.minus, "-"⟩, ⟨.identifier, "f"⟩, ⟨.leftParen, "("⟩, ⟨.identifier, "x"⟩]) [] =
      ((Scope.atDepth ∅ {} 0 ∅).evaluateText "-f(x").map (· :: []) := by
  have ht : tokenize "-f(x" =
      .ok ⟨[⟨.minus, "-"⟩, ⟨.identifier, "f"⟩, ⟨.leftParen, "("⟩, ⟨.identifier, "x"⟩]⟩ := by cbv
  have hne : "-f(x" ≠ "" := by decide
  exact ⟨hne, ht, by cbv, (evaluateText_eq_execute_compile ∅ {} 0 ∅ _ []).2.2 "-f(x" hne ht⟩

end Calculator
