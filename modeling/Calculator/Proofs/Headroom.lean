import Calculator.Proofs.DepthLimit
import Calculator.Proofs.Frames

/-!
# How many calls are left

A call of a formula is refused for its depth only if no call is left up to the limit.  So of the depth and the limit
only the distance matters, apart from the limit that a refusal reports (`evaluateText_atDepth_add`).

A rank of the functions that falls along every call bounds the calls that a text needs: in every frame that the text
leads to, the ranks of what is called there stay within the calls that are left (`Frame.RankedWithin.reaches`).  So under
a limit that is at least the rank of what the text calls, no call is refused for its depth, whatever else may fail.
-/

namespace Calculator

/-! ### The distance to the limit -/

/-- The same error, with another limit in place of the one that was exceeded. -/
def EvalError.withLimit (limit : Nat) : EvalError → EvalError
  | callDepthExceeded _ => callDepthExceeded limit
  | e => e

theorem EvalError.withLimit_of_ne {e : EvalError} (h : ∀ l, e ≠ callDepthExceeded l) (limit : Nat) :
    e.withLimit limit = e := by
  cases e with
  | callDepthExceeded l => exact absurd rfl (h l)
  | lexical | emptyExpression | invalidNumber | trailingInput | expectedValue | unexpectedToken | unknownConstant
  | unknownFunction | argumentCount | nativeFailure => rfl

/-- The comparison with a run that reports another limit. -/
def Comparison.reportsLimit (limit : Nat) : Comparison :=
  ofEqual (fun e e' => e.withLimit limit = e') (fun _ => False) fun h => EvalError.withLimit_of_ne h limit

namespace Scope

variable {functions : FunctionTable} {constants : ConstantTable} {text : String}

/-- Where equally many calls remain, two limits differ only in what is reported. -/
theorem evaluateText_nested_withLimit (functions : FunctionTable) (limits limits' : Limits) (remaining : Nat)
    (constants : ConstantTable) (text : String) :
    (nested functions limits' remaining constants).evaluateText text =
      ((nested functions limits remaining constants).evaluateText text).mapError
        (EvalError.withLimit limits'.callDepth) := by
  have houtcomes : (Comparison.reportsLimit limits'.callDepth).Outcomes (fun a b => a = b)
      ((nested functions limits remaining constants).evaluateText text)
      ((nested functions limits' remaining constants).evaluateText text) :=
    Comparison.evaluateText_nested_self id (Or.inl ⟨rfl, rfl⟩) functions constants text
  generalize (nested functions limits remaining constants).evaluateText text = x at houtcomes ⊢
  generalize (nested functions limits' remaining constants).evaluateText text = y at houtcomes ⊢
  cases houtcomes with
  | value hab => exact congrArg Except.ok hab.symm
  | error he => exact congrArg Except.error he.symm
  | excused he => exact he.elim

/-- The limit that is reported is that of the evaluation. -/
theorem eq_of_evaluateText_atDepth {limits : Limits} {depth l : Nat}
    (h : (atDepth functions limits depth constants).evaluateText text = .error (.callDepthExceeded l)) :
    l = limits.callDepth := by
  rcases evaluateText_nested_of_le functions limits limits (Nat.le_refl _) constants text with he | ⟨-, hne⟩
  · rw [atDepth, he] at h
    cases h
    rfl
  · exact absurd h (hne l)

/-- Where there are no functions, it makes no difference how many calls remain. -/
theorem nested_empty (limits limits' : Limits) (remaining remaining' : Nat) (constants : ConstantTable) :
    nested ∅ limits remaining constants = nested ∅ limits' remaining' constants := by
  have hempty : ∀ call call', ofTables constants ∅ call = ofTables constants ∅ call' := by
    intro call call'
    simp [ofTables]
  cases remaining <;> cases remaining' <;> exact hempty _ _

end Scope

/-- Only the distance to the limit matters.  If the limit and the depth are raised by the same number, then the outcome
is the same, except that a refusal for the depth reports the raised limit.  So a formula that is called directly with
the right number of arguments has the outcome of its body under a limit that is lower by one, and if its body can call no
functions, it has the outcome of its body alone. -/
theorem evaluateText_atDepth_add (functions : FunctionTable) (n d k : Nat) (constants : ConstantTable)
    (text : String) :
    (Scope.atDepth functions ⟨n + k⟩ (d + k) constants).evaluateText text =
        ((Scope.atDepth functions ⟨n⟩ d constants).evaluateText text).mapError (EvalError.withLimit (n + k)) ∧
    (∀ l, (Scope.atDepth functions ⟨n⟩ d constants).evaluateText text = .error (.callDepthExceeded l) → l = n) ∧
    ∀ (f : Formula) (args : List Float), args.length = f.arity →
      f.callWith args functions =
          (evaluate (Std.TreeMap.ofList (f.params.zip args)) functions f.body ⟨63⟩).mapError
            (EvalError.withLimit 64) ∧
      f.call args = evaluate (Std.TreeMap.ofList (f.params.zip args)) ∅ f.body := by
  have hcallWith : ∀ (functions : FunctionTable) (f : Formula) (args : List Float), args.length = f.arity →
      f.callWith args functions =
        (Scope.nested functions {} 63 (Std.TreeMap.ofList (f.params.zip args))).evaluateText f.body := by
    intro functions f args hargs
    rw [Formula.callWith, Formula.bind_bind, if_neg (fun hne => hne hargs)]
    rfl
  refine ⟨?_, fun l => Scope.eq_of_evaluateText_atDepth, fun f args hargs => ⟨?_, ?_⟩⟩
  · rw [Scope.atDepth, Nat.add_sub_add_right]
    exact Scope.evaluateText_nested_withLimit functions ⟨n⟩ ⟨n + k⟩ (n - d) constants text
  · rw [hcallWith functions f args hargs]
    exact Scope.evaluateText_nested_withLimit functions ⟨63⟩ {} 63 _ f.body
  · rw [Formula.call, hcallWith ∅ f args hargs, Scope.nested_empty {} {} 63 64]
    rfl

set_option maxRecDepth 8000 in
/-- A formula that calls itself without end exceeds the limit 64 when it is called, and 63 when its body is evaluated;
without functions its body has no meaning. -/
theorem evaluateText_atDepth_add_endless :
    [(1 : Float)].length = Formula.arity ⟨["x"], "f(x)"⟩ ∧
    evaluate (Std.TreeMap.ofList (["x"].zip [(1 : Float)])) (Std.TreeMap.ofList [("f", Callable.formula ⟨["x"], "f(x)"⟩)])
      "f(x)" ⟨63⟩ = .error (.callDepthExceeded 63) ∧
    Formula.callWith ⟨["x"], "f(x)"⟩ [1] (Std.TreeMap.ofList [("f", Callable.formula ⟨["x"], "f(x)"⟩)]) =
      .error (.callDepthExceeded 64) ∧
    Formula.call ⟨["x"], "f(x)"⟩ [1] = .error (.unknownFunction "f") := by
  have hbody : ∀ x : Float, evaluate (Std.TreeMap.ofList (["x"].zip [x]))
      (Std.TreeMap.ofList [("f", Callable.formula ⟨["x"], "f(x)"⟩)]) "f(x)" ⟨63⟩ = .error (.callDepthExceeded 63) := by
    intro x
    cbv
  have halone : ∀ x : Float, evaluate (Std.TreeMap.ofList (["x"].zip [x])) ∅ "f(x)" =
      .error (.unknownFunction "f") := by
    intro x
    cbv
  have hlength : [(1 : Float)].length = Formula.arity ⟨["x"], "f(x)"⟩ := rfl
  obtain ⟨-, -, hcall⟩ := evaluateText_atDepth_add
    (Std.TreeMap.ofList [("f", Callable.formula ⟨["x"], "f(x)"⟩)]) 1 0 2 ∅ "f(1)"
  obtain ⟨hcallWith, halone'⟩ := hcall ⟨["x"], "f(x)"⟩ [1] hlength
  exact ⟨hlength, hbody 1, hcallWith.trans (congrArg _ (hbody 1)), halone'.trans (halone 1)⟩

/-! ### Ranks -/

/-- A rank of the names of functions that falls from each formula to whatever its body calls. -/
structure FunctionTable.Ranked (functions : FunctionTable) (rank : String → Nat) : Prop where
  pos : ∀ {name : String} {f : Formula}, functions[name]? = some (.formula f) → 1 ≤ rank name
  lt : ∀ {name : String} {f : Formula}, functions[name]? = some (.formula f) →
    ∀ callee ∈ callees f.body, rank callee < rank name

namespace Frame

variable {functions : FunctionTable} {rank : String → Nat} {limit : Nat} {frame frame' : Frame}

/-- The formulas that the text of a frame calls have no higher rank than calls are left. -/
def RankedWithin (functions : FunctionTable) (rank : String → Nat) (limit : Nat) (frame : Frame) : Prop :=
  ∀ name ∈ callees frame.text, ∀ f : Formula, functions[name]? = some (.formula f) →
    rank name + frame.depth ≤ limit

theorem RankedWithin.calls (hrank : FunctionTable.Ranked functions rank)
    (h : frame.RankedWithin functions rank limit) (hcalls : Calls functions frame frame') :
    frame'.RankedWithin functions rank limit := by
  obtain ⟨name, hname, f, hf, rfl⟩ := hcalls
  intro callee hcallee g _
  have hle : rank name + frame.depth ≤ limit := h name hname f hf
  have hlt : rank callee < rank name := hrank.lt hf callee hcallee
  show rank callee + (frame.depth + 1) ≤ limit
  omega

theorem RankedWithin.reaches (hrank : FunctionTable.Ranked functions rank)
    (h : frame.RankedWithin functions rank limit) (hpath : Relation.ReflTransGen (Calls functions) frame frame') :
    frame'.RankedWithin functions rank limit := by
  induction hpath with
  | refl => exact h
  | tail _ hcalls ih => exact ih.calls hrank hcalls

/-- A frame is refused a call for its depth only if it stands at the limit and calls a formula. -/
theorem Fails.of_callDepthExceeded {limits : Limits} {l : Nat}
    (h : frame.Fails functions limits (.callDepthExceeded l)) :
    frame.depth = limits.callDepth ∧ ∃ name ∈ callees frame.text, ∃ f : Formula,
      functions[name]? = some (.formula f) := by
  generalize he : EvalError.callDepthExceeded l = e at h
  cases h with
  | callDepthExceeded hname hf hdepth => exact ⟨hdepth, _, hname, _, hf⟩
  | @syntactic _ _ error _ _ => cases error <;> cases he
  | lexical | emptyExpression | unknownConstant | unknownFunction | argumentCount | nativeFailure => cases he

theorem RankedWithin.not_fails (hrank : FunctionTable.Ranked functions rank)
    (h : frame.RankedWithin functions rank limit) (l : Nat) :
    ¬ frame.Fails functions ⟨limit⟩ (.callDepthExceeded l) := by
  intro hfails
  obtain ⟨hdepth, name, hname, f, hf⟩ := hfails.of_callDepthExceeded
  have hle : rank name + frame.depth ≤ limit := h name hname f hf
  have hpos : 1 ≤ rank name := hrank.pos hf
  have hlimit : frame.depth = limit := hdepth
  omega

end Frame

/-- A rank that falls along every call bounds the depth of calls.  If the formulas that a text calls have a rank of at
most the limit, then no call is refused for its depth, whatever the constants are, and also where the evaluation fails
for another reason. -/
theorem evaluate_ne_callDepthExceeded {functions : FunctionTable} {rank : String → Nat}
    (hrank : FunctionTable.Ranked functions rank) {text : String} {n : Nat}
    (h : ∀ name ∈ callees text, ∀ f : Formula, functions[name]? = some (.formula f) → rank name ≤ n)
    (constants : ConstantTable) (l : Nat) :
    evaluate constants functions text ⟨n⟩ ≠ .error (.callDepthExceeded l) := by
  intro he
  obtain ⟨frame, hpath, hfails⟩ := exists_frame_of_evaluateText ⟨text, (· ∈ constants), 0⟩ (fun _ => Iff.rfl)
    (Nat.zero_le n) he
  have hstart : Frame.RankedWithin functions rank n ⟨text, (· ∈ constants), 0⟩ := h
  exact (hstart.reaches hrank hpath).not_fails hrank l hfails

/-- Here `f` calls `g`, so it has the rank two, and its calls in an argument of its own do not add up: under the limit two
the text fails at its end, and for no depth. -/
theorem evaluate_ne_callDepthExceeded_argument :
    FunctionTable.Ranked (((∅ : FunctionTable).insert "g" (.formula ⟨["x"], "x"⟩)).insert "f" (.formula ⟨["x"], "g(x)"⟩))
      (fun name => if name = "f" then 2 else 1) ∧
    callees "f(f(f(c))) )" = ["f", "f", "f"] ∧
    evaluate (Std.TreeMap.ofList [("c", (1 : Float))])
      (((∅ : FunctionTable).insert "g" (.formula ⟨["x"], "x"⟩)).insert "f" (.formula ⟨["x"], "g(x)"⟩))
      "f(f(f(c))) )" ⟨2⟩ ≠ .error (.callDepthExceeded 2) := by
  have hentry : ∀ {name : String} {f : Formula},
      (((∅ : FunctionTable).insert "g" (.formula ⟨["x"], "x"⟩)).insert "f" (.formula ⟨["x"], "g(x)"⟩))[name]? =
        some (.formula f) → (name = "f" ∧ callees f.body = ["g"]) ∨ (name = "g" ∧ callees f.body = []) := by
    intro name f hf
    rw [Std.TreeMap.getElem?_insert] at hf
    split at hf
    next hname =>
      cases hf
      exact Or.inl ⟨(Std.LawfulEqCmp.eq_of_compare hname).symm, by cbv⟩
    rw [Std.TreeMap.getElem?_insert] at hf
    split at hf
    next hname =>
      cases hf
      exact Or.inr ⟨(Std.LawfulEqCmp.eq_of_compare hname).symm, by cbv⟩
    · cases hf
  have hranked : FunctionTable.Ranked
      (((∅ : FunctionTable).insert "g" (.formula ⟨["x"], "x"⟩)).insert "f" (.formula ⟨["x"], "g(x)"⟩))
      (fun name => if name = "f" then 2 else 1) := by
    refine ⟨fun hf => ?_, fun hf callee hcallee => ?_⟩
    · rcases hentry hf with ⟨rfl, -⟩ | ⟨rfl, -⟩ <;> decide
    · rcases hentry hf with ⟨rfl, hbody⟩ | ⟨rfl, hbody⟩
      · rw [hbody, List.mem_singleton] at hcallee
        subst hcallee
        decide
      · rw [hbody] at hcallee
        cases hcallee
  have hcallees : callees "f(f(f(c))) )" = ["f", "f", "f"] := by cbv
  refine ⟨hranked, hcallees, evaluate_ne_callDepthExceeded hranked (fun name hname _ _ => ?_) _ 2⟩
  have hle : ∀ name ∈ ["f", "f", "f"], (if name = "f" then 2 else 1) ≤ 2 := by decide
  exact hle name (hcallees ▸ hname)

end Calculator
