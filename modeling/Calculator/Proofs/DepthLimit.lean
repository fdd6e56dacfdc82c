import Calculator.Proofs.Comparison

/-!
# Raising the limit on nested calls

An evaluation consults the limit only where it refuses a call.  So a run that does not exceed its limit ends in the
same way under every higher limit, and a run that does exceed it reports this limit and no other.
-/

namespace Calculator

/-- The comparison of a run with one in which calls may be nested more deeply: the same values and the same errors,
unless the first run exceeds its limit. -/
def Comparison.deeper (limit : Nat) : Comparison :=
  ofEqual (fun e e' => e = e' ∧ ∀ l, e ≠ .callDepthExceeded l) (fun e => e = .callDepthExceeded limit) fun h => ⟨rfl, h⟩

/-- With more calls remaining a text has the same outcome, unless the calls that remained before did not suffice. -/
theorem Scope.evaluateText_nested_of_le (functions : FunctionTable) (limits limits' : Limits)
    {remaining remaining' : Nat} (h : remaining ≤ remaining') (constants : ConstantTable) (text : String) :
    (nested functions limits remaining constants).evaluateText text =
        .error (.callDepthExceeded limits.callDepth) ∨
      (nested functions limits' remaining' constants).evaluateText text =
          (nested functions limits remaining constants).evaluateText text ∧
        ∀ l, (nested functions limits remaining constants).evaluateText text ≠ .error (.callDepthExceeded l) := by
  have houtcomes : (Comparison.deeper limits.callDepth).Outcomes (fun a b => a = b)
      ((nested functions limits remaining constants).evaluateText text)
      ((nested functions limits' remaining' constants).evaluateText text) :=
    Comparison.evaluateText_nested_self id (Or.inr ⟨h, rfl⟩) functions constants text
  generalize (nested functions limits remaining constants).evaluateText text = x at houtcomes ⊢
  generalize (nested functions limits' remaining' constants).evaluateText text = y at houtcomes ⊢
  cases houtcomes with
  | value hab => exact Or.inr ⟨congrArg _ hab.symm, fun _ he => nomatch he⟩
  | error he => exact Or.inr ⟨congrArg _ he.1.symm, fun l hl => he.2 l (Except.error.inj hl)⟩
  | excused he => exact Or.inl (congrArg _ he)

/-- Under a higher limit an evaluation ends in the same value or the same error, unless it exceeded its limit; and the
limit that it then reports is its own. -/
theorem evaluate_eq_of_limit_le {n m : Nat} (h : n ≤ m) (constants : ConstantTable) (functions : FunctionTable)
    (text : String) :
    ((∀ l, evaluate constants functions text ⟨n⟩ ≠ .error (.callDepthExceeded l)) →
      evaluate constants functions text ⟨m⟩ = evaluate constants functions text ⟨n⟩) ∧
    ∀ l, evaluate constants functions text ⟨n⟩ = .error (.callDepthExceeded l) → l = n := by
  rcases Scope.evaluateText_nested_of_le functions ⟨n⟩ ⟨m⟩ h constants text with hexceeded | ⟨heq, hne⟩
  · have hn : evaluate constants functions text ⟨n⟩ = .error (.callDepthExceeded n) := hexceeded
    refine ⟨fun hne => absurd hn (hne n), fun l hl => ?_⟩
    rw [hn] at hl
    cases hl
    rfl
  · exact ⟨fun _ => heq, fun l hl => absurd hl (hne l)⟩

/-- A formula that calls an unknown function fails in the same way under all limits that admit the formula. -/
theorem evaluate_eq_of_limit_le_unknown :
    1 ≤ 5 ∧
    (∀ l, evaluate ∅ (Std.TreeMap.ofList [("f", Callable.formula ⟨[], "g(f())"⟩)]) "f()" ⟨1⟩ ≠
      .error (.callDepthExceeded l)) ∧
    evaluate ∅ (Std.TreeMap.ofList [("f", Callable.formula ⟨[], "g(f())"⟩)]) "f()" ⟨5⟩ =
      .error (.unknownFunction "g") := by
  have hle : 1 ≤ 5 := by decide
  have hrun : evaluate ∅ (Std.TreeMap.ofList [("f", Callable.formula ⟨[], "g(f())"⟩)]) "f()" ⟨1⟩ =
      .error (.unknownFunction "g") := by cbv
  have hne : ∀ l, evaluate ∅ (Std.TreeMap.ofList [("f", Callable.formula ⟨[], "g(f())"⟩)]) "f()" ⟨1⟩ ≠
      .error (.callDepthExceeded l) := by
    intro l hl
    rw [hrun] at hl
    cases hl
  exact ⟨hle, hne, ((evaluate_eq_of_limit_le hle ∅ _ _).1 hne).trans hrun⟩

end Calculator
