import Calculator.Proofs.Outcome

/-!
# Calls of formulas

`Formula.invoke` is the call of a formula from inside `depth` other calls, as one step: a refusal for the depth, a
refusal for the number of arguments, and then the value of the body one call deeper, where the parameters are the only
constants.  `Scope.atDepth_eq` says that it is what calls mean at that depth.
-/

namespace Calculator

/-- The call of a formula inside `depth` calls that are under way. -/
def Formula.invoke (functions : FunctionTable) (limits : Limits) (depth : Nat) (f : Formula) (args : List Float) :
    Except EvalError Float :=
  if limits.callDepth < depth + 1 then .error (.callDepthExceeded limits.callDepth)
  else if args.length ≠ f.arity then .error (.argumentCount f.arity args.length)
  else
    (Scope.atDepth functions limits (depth + 1) (Std.TreeMap.ofList (f.params.zip args))).evaluateText f.body

theorem Formula.invoke_eq_ok {functions : FunctionTable} {limits : Limits} {depth : Nat} {f : Formula}
    {args : List Float} {value : Float} :
    Formula.invoke functions limits depth f args = .ok value ↔ depth < limits.callDepth ∧ args.length = f.arity ∧
      (Scope.atDepth functions limits (depth + 1) (Std.TreeMap.ofList (f.params.zip args))).evaluateText f.body =
        .ok value := by
  rw [Formula.invoke]
  by_cases hd : limits.callDepth < depth + 1
  · have hd' : ¬ depth < limits.callDepth := by omega
    simp [hd, hd']
  · have hd' : depth < limits.callDepth := by omega
    by_cases ha : args.length = f.arity <;> simp [hd, hd', ha]

theorem Formula.invoke_eq_error {functions : FunctionTable} {limits : Limits} {depth : Nat} {f : Formula}
    {args : List Float} {e : EvalError} :
    Formula.invoke functions limits depth f args = .error e ↔
      (limits.callDepth ≤ depth ∧ e = .callDepthExceeded limits.callDepth) ∨
      (depth < limits.callDepth ∧ f.arity ≠ args.length ∧ e = .argumentCount f.arity args.length) ∨
      (depth < limits.callDepth ∧ args.length = f.arity ∧
        (Scope.atDepth functions limits (depth + 1) (Std.TreeMap.ofList (f.params.zip args))).evaluateText f.body =
          .error e) := by
  rw [Formula.invoke]
  by_cases hd : limits.callDepth < depth + 1
  · have hle : limits.callDepth ≤ depth := by omega
    have hlt : ¬ depth < limits.callDepth := by omega
    simp [hd, hle, hlt, eq_comm]
  · have hle : ¬ limits.callDepth ≤ depth := by omega
    have hlt : depth < limits.callDepth := by omega
    by_cases ha : args.length = f.arity
    · simp [hd, hle, hlt, ha]
    · have hne : f.arity ≠ args.length := fun he => ha he.symm
      simp [hd, hle, hlt, ha, hne, eq_comm]

theorem Native.call_eq_error {f : Native} {name : String} {args : List Float} {e : EvalError} :
    f.call name args = .error e ↔ ∃ message, f.run args = .error message ∧ e = .nativeFailure name message := by
  rw [Native.call]
  cases f.run args with
  | ok value =>
    constructor
    · intro h
      cases h
    · rintro ⟨message, h, -⟩
      cases h
  | error message =>
    constructor
    · intro h
      cases h
      exact ⟨message, rfl, rfl⟩
    · rintro ⟨message', h, rfl⟩
      cases h
      rfl

theorem Formula.bind_bind (f : Formula) (args : List Float) (k : ConstantTable → Except EvalError Float) :
    (f.bind args >>= k) =
      if args.length ≠ f.arity then .error (.argumentCount f.arity args.length)
      else k (Std.TreeMap.ofList (f.params.zip args)) := by
  rw [Formula.bind]
  by_cases h : args.length = f.arity
  · rw [if_pos h, if_neg (fun hn => hn h), ok_bind]
  · rw [if_neg h, if_pos h, error_bind]

/-- A text with tokens is not empty. -/
theorem ne_empty_of_tokenize {text : String} {ts : List Token} (ht : tokenize text = .ok ⟨ts⟩) (hts : ts ≠ []) :
    text ≠ "" := by
  rintro rfl
  have hempty : tokenize "" = .ok ⟨[]⟩ := by cbv
  rw [hempty] at ht
  cases ht
  exact hts rfl

namespace Scope

/-- What the names mean inside `depth` calls: a formula is invoked one level deeper, a native function is run. -/
theorem atDepth_eq (functions : FunctionTable) (limits : Limits) (depth : Nat) (constants : ConstantTable) :
    atDepth functions limits depth constants =
      ofTables constants functions (Formula.invoke functions limits depth) := by
  rw [atDepth]
  cases hr : limits.callDepth - depth with
  | zero =>
    rw [nested]
    congr 1
    funext f args
    have hlt : limits.callDepth < depth + 1 := by omega
    rw [Formula.invoke, if_pos hlt]
    rfl
  | succ remaining =>
    rw [nested]
    congr 1
    funext f args
    have hle : ¬ limits.callDepth < depth + 1 := by omega
    have hr' : limits.callDepth - (depth + 1) = remaining := by omega
    rw [Formula.invoke, if_neg hle, Formula.bind_bind, atDepth, hr']

theorem constant?_atDepth (functions : FunctionTable) (limits : Limits) (depth : Nat) (constants : ConstantTable)
    (name : String) : (atDepth functions limits depth constants).constant? name = constants[name]? := by
  rw [atDepth_eq]
  rfl

theorem function?_atDepth (functions : FunctionTable) (limits : Limits) (depth : Nat) (constants : ConstantTable)
    (name : String) :
    (atDepth functions limits depth constants).function? name = functions[name]?.map fun
      | .formula f => Formula.invoke functions limits depth f
      | .native f => f.call name := by
  rw [atDepth_eq]
  rfl

theorem evaluateText_of_tokenize (scope : Scope) {text : String} {stream : TokenStream} (hne : text ≠ "")
    (ht : tokenize text = .ok stream) : scope.evaluateText text = scope.evaluate stream.lexemes := by
  rw [evaluateText, if_neg hne, ht]
  rfl

end Scope

end Calculator
