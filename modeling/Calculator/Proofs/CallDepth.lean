import Calculator.Proofs.CallGraph
import Calculator.Proofs.Derivable

/-!
# How deeply calls are nested

A successful evaluation executes every call of its text, so it goes through the call graph completely.  An
evaluation under another limit replays it up to the first call that the limit does not admit
(`Grammar.Sum.value_of_replays`), and whether there is such a call is a matter of the call graph alone
(`Scope.evaluateText_atDepth_of_ok`).
-/

namespace Calculator

/-- A value under a condition: the error takes its place where the condition fails. -/
def valueIf {α : Type} (condition : Bool) (value : α) (error : EvalError) : Except EvalError α :=
  if condition then .ok value else .error error

section

variable {α β : Type} {error : EvalError}

theorem valueIf_map (c : Bool) (a : α) (g : α → β) :
    (valueIf c a error >>= fun x => .ok (g x)) = valueIf c (g a) error := by
  cases c <;> rfl

theorem valueIf_eq_ok {c : Bool} {a b : α} : valueIf c a error = .ok b ↔ c = true ∧ a = b := by
  cases c <;> simp [valueIf]

theorem valueIf_bind (c : Bool) {c' : Bool} (a : α) {b : β} {k : α → Except EvalError β}
    (h : k a = valueIf c' b error) : (valueIf c a error >>= k) = valueIf (c && c') b error := by
  cases c with
  | false => rfl
  | true => exact h

end

/-- Where `scope` gives a value, `scope'` gives the same, except that it fails with the error when it calls a function
that is not admitted. -/
structure Scope.Replays (scope scope' : Scope) (admitted : String → Bool) (error : EvalError) : Prop where
  constant? : scope'.constant? = scope.constant?
  function? : ∀ {name : String} {f : List Float → Except EvalError Float} {args : List Float} {value : Float},
    scope.function? name = some f → f args = .ok value →
      ∃ f', scope'.function? name = some f' ∧ f' args = valueIf (admitted name) value error

theorem Scope.Replays.exists_function {scope scope' : Scope} {admitted : String → Bool} {error : EvalError}
    (hr : scope.Replays scope' admitted error) {name : String} {f : List Float → Except EvalError Float}
    {args : List Float} {value : Float} (hf : scope.function name = .ok f) (hvalue : f args = .ok value) :
    ∃ f', scope'.function name = .ok f' ∧ f' args = valueIf (admitted name) value error := by
  obtain ⟨f', hf', hvalue'⟩ := hr.function? (function_eq_ok.1 hf) hvalue
  exact ⟨f', function_eq_ok.2 hf', hvalue'⟩

namespace Grammar

variable {scope scope' : Scope} {admitted : String → Bool} {error : EvalError}

mutual

/-- A sum has its value if all its calls are admitted, and fails with the error if one is not. -/
theorem Sum.value_of_replays (hr : scope.Replays scope' admitted error) (s : Sum) {value : Float}
    (h : s.value scope = .ok value) : s.value scope' = valueIf (s.calls.all admitted) value error := by
  cases s with
  | product p => exact p.value_of_replays hr h
  | binary l op hop r =>
    obtain ⟨a, ha, h⟩ := bind_eq_ok.1 h
    obtain ⟨b, hb, h⟩ := bind_eq_ok.1 h
    cases h
    have hl := l.value_of_replays hr ha
    have hr' := r.value_of_replays hr hb
    rw [Sum.value, Sum.calls, List.all_append, hl]
    refine valueIf_bind _ a ?_
    rw [hr']
    exact valueIf_map _ b (op.apply a)

theorem Product.value_of_replays (hr : scope.Replays scope' admitted error) (p : Product) {value : Float}
    (h : p.value scope = .ok value) : p.value scope' = valueIf (p.calls.all admitted) value error := by
  cases p with
  | power p => exact p.value_of_replays hr h
  | binary l op hop r =>
    obtain ⟨a, ha, h⟩ := bind_eq_ok.1 h
    obtain ⟨b, hb, h⟩ := bind_eq_ok.1 h
    cases h
    have hl := l.value_of_replays hr ha
    have hr' := r.value_of_replays hr hb
    rw [Product.value, Product.calls, List.all_append, hl]
    refine valueIf_bind _ a ?_
    rw [hr']
    exact valueIf_map _ b (op.apply a)

theorem Power.value_of_replays (hr : scope.Replays scope' admitted error) (p : Power) {value : Float}
    (h : p.value scope = .ok value) : p.value scope' = valueIf (p.calls.all admitted) value error := by
  cases p with
  | signed s p =>
    obtain ⟨a, ha, h⟩ := bind_eq_ok.1 h
    cases h
    have hp := p.value_of_replays hr ha
    rw [Power.value, Power.calls, hp]
    exact valueIf_map _ a s.apply
  | power a p =>
    obtain ⟨x, hx, h⟩ := bind_eq_ok.1 h
    obtain ⟨y, hy, h⟩ := bind_eq_ok.1 h
    cases h
    have ha := a.value_of_replays hr hx
    have hp := p.value_of_replays hr hy
    rw [Power.value, Power.calls, List.all_append, ha]
    refine valueIf_bind _ x ?_
    rw [hp]
    exact valueIf_map _ y (Operator.power.apply x)
  | atom a => exact a.value_of_replays hr h

theorem Atom.value_of_replays (hr : scope.Replays scope' admitted error) (a : Atom) {value : Float}
    (h : a.value scope = .ok value) : a.value scope' = valueIf (a.calls.all admitted) value error := by
  cases a with
  | number text => exact h
  | constant name =>
    rw [Atom.value, Scope.constant] at h ⊢
    rw [hr.constant?]
    exact h
  | callNone name =>
    obtain ⟨f, hf, hvalue⟩ := bind_eq_ok.1 h
    obtain ⟨f', hf', hvalue'⟩ := hr.exists_function hf hvalue
    rw [Atom.value, Atom.calls, hf', ok_bind, hvalue', List.all_cons, List.all_nil, Bool.and_true]
  | call name args =>
    obtain ⟨f, hf, h⟩ := bind_eq_ok.1 h
    obtain ⟨values, hvalues, hvalue⟩ := bind_eq_ok.1 h
    obtain ⟨f', hf', hvalue'⟩ := hr.exists_function hf hvalue
    have hargs := args.values_of_replays hr hvalues
    rw [Atom.value, Atom.calls, hf', ok_bind, hargs, List.all_cons, Bool.and_comm]
    exact valueIf_bind _ values hvalue'
  | group s => exact s.value_of_replays hr h

theorem Arguments.values_of_replays (hr : scope.Replays scope' admitted error) (args : Arguments)
    {values : List Float} (h : args.values scope = .ok values) :
    args.values scope' = valueIf (args.calls.all admitted) values error := by
  cases args with
  | one s =>
    obtain ⟨a, ha, h⟩ := bind_eq_ok.1 h
    cases h
    have hs := s.value_of_replays hr ha
    rw [Arguments.values, Arguments.calls, hs]
    exact valueIf_map _ a fun x => [x]
  | more s args =>
    obtain ⟨a, ha, h⟩ := bind_eq_ok.1 h
    obtain ⟨as, has, h⟩ := bind_eq_ok.1 h
    cases h
    have hs := s.value_of_replays hr ha
    have hargs := args.values_of_replays hr has
    rw [Arguments.values, Arguments.calls, List.all_append, hs]
    refine valueIf_bind _ a ?_
    rw [hargs]
    exact valueIf_map _ as (a :: ·)

end

end Grammar

namespace Scope

/-- A text that has a value in one scope has it in the other if all functions that it calls are admitted. -/
theorem Replays.evaluateText {scope scope' : Scope} {admitted : String → Bool} {error : EvalError}
    (hr : scope.Replays scope' admitted error) {text : String} {value : Float}
    (h : scope.evaluateText text = .ok value) :
    scope'.evaluateText text = valueIf ((callees text).all admitted) value error := by
  obtain ⟨s, ht, hvalue⟩ := Grammar.exists_sum_of_evaluateText h
  rw [s.evaluateText_of_tokenize scope' ht, callees_of_tokenize ht, s.callNames_tokens]
  exact s.value_of_replays hr hvalue

/-- Under another limit a text that has a value keeps it exactly if its call graph is admitted by the levels that are
left; otherwise the limit is exceeded. -/
theorem evaluateText_atDepth_of_ok {functions : FunctionTable} {limits : Limits} {depth : Nat}
    {constants : ConstantTable} {text : String} {value : Float}
    (h : (atDepth functions limits depth constants).evaluateText text = .ok value) (limits' : Limits) :
    (atDepth functions limits' depth constants).evaluateText text =
      valueIf ((callees text).all (CallGraph.admits functions (limits'.callDepth - depth))) value
        (.callDepthExceeded limits'.callDepth) := by
  refine Replays.evaluateText ⟨?_, ?_⟩ h
  · rw [atDepth_eq, atDepth_eq]
    rfl
  · intro name f args value hf hvalue
    rw [atDepth_eq] at hf ⊢
    simp only [ofTables] at hf ⊢
    cases hcallable : functions[name]? with
    | none => simp [hcallable] at hf
    | some callable =>
      rw [hcallable] at hf
      cases callable with
      | native g =>
        cases hf
        refine ⟨g.call name, rfl, ?_⟩
        rw [CallGraph.admits_native hcallable]
        exact hvalue
      | formula g =>
        cases hf
        obtain ⟨hlt, harity, hbody⟩ := Formula.invoke_eq_ok.1 hvalue
        refine ⟨Formula.invoke functions limits' depth g, rfl, ?_⟩
        -- the body was evaluated one call deeper, where fewer calls are left
        have ih := evaluateText_atDepth_of_ok hbody limits'
        rw [Formula.invoke]
        cases hlevels : limits'.callDepth - depth with
        | zero =>
          rw [if_pos (show limits'.callDepth < depth + 1 by omega), CallGraph.admits_formula_zero hcallable]
          rfl
        | succ levels =>
          have hsucc : limits'.callDepth - (depth + 1) = levels := by omega
          rw [if_neg (show ¬ limits'.callDepth < depth + 1 by omega), if_neg (fun hn => hn harity), ih, hsucc,
            CallGraph.admits_formula_succ hcallable]
termination_by limits.callDepth - depth

end Scope

/-- The depth of calls that an evaluation needs is a property of its call graph.  Where a text has a value under the
limit `n`, all functions that it reaches are defined, none of them calls itself on any way, and the longest chain of
formulas is within the limit; and under any limit the text has the same value if that chain is within it, and exceeds
it otherwise. -/
theorem exists_callDepth_of_evaluate_eq_ok (constants : ConstantTable) (functions : FunctionTable) {text : String}
    {n : Nat} {value : Float} (h : evaluate constants functions text ⟨n⟩ = .ok value) :
    (∀ name, CallGraph.Reaches functions text name →
      (∃ callable, functions[name]? = some callable) ∧
        ¬ Relation.TransGen (CallGraph.Calls functions) name name) ∧
    ∃ height ≤ n, IsGreatest (CallGraph.lengths functions text) height ∧
      ∀ m, (height ≤ m → evaluate constants functions text ⟨m⟩ = .ok value) ∧
        (m < height → evaluate constants functions text ⟨m⟩ = .error (.callDepthExceeded m)) := by
  have hlimit : ∀ m, evaluate constants functions text ⟨m⟩ =
      valueIf ((callees text).all (CallGraph.admits functions m)) value (.callDepthExceeded m) :=
    fun m => Scope.evaluateText_atDepth_of_ok h ⟨m⟩
  have hn : (callees text).all (CallGraph.admits functions n) = true :=
    (valueIf_eq_ok.1 ((hlimit n).symm.trans h)).1
  have hdef : ∀ name, CallGraph.Reaches functions text name → ∃ callable, functions[name]? = some callable :=
    fun name hr => CallGraph.defined_of_admits hn hr
  obtain ⟨height, hle, hheight⟩ := CallGraph.exists_isGreatest_lengths hn
  refine ⟨fun name hr => ⟨hdef name hr, CallGraph.not_transGen_of_admits hn hr⟩, height, hle, hheight, fun m => ?_⟩
  rw [hlimit m, CallGraph.all_admits_eq hdef hheight m]
  constructor
  · intro hm
    rw [decide_eq_true hm]
    rfl
  · intro hm
    rw [decide_eq_false (Nat.not_le_of_lt hm)]
    rfl

/-- A formula that is called in its own argument is nested only once: `f(f(c))` needs a depth of one. -/
theorem exists_callDepth_of_evaluate_eq_ok_argument :
    evaluate (Std.TreeMap.ofList [("c", (2 : Float))]) (Std.TreeMap.ofList [("f", Callable.formula ⟨["x"], "x"⟩)])
      "f(f(c))" ⟨1⟩ = .ok 2 ∧
    evaluate (Std.TreeMap.ofList [("c", (2 : Float))]) (Std.TreeMap.ofList [("f", Callable.formula ⟨["x"], "x"⟩)])
      "f(f(c))" ⟨0⟩ = .error (.callDepthExceeded 0) := by
  have hok : ∀ x : Float,
      evaluate (Std.TreeMap.ofList [("c", x)]) (Std.TreeMap.ofList [("f", Callable.formula ⟨["x"], "x"⟩)])
        "f(f(c))" ⟨1⟩ = .ok x := by
    intro x
    cbv
  have hmem : "f" ∈ callees "f(f(c))" := by
    have hcallees : callees "f(f(c))" = ["f", "f"] := by cbv
    rw [hcallees]
    exact List.mem_cons_self
  obtain ⟨-, height, -, hheight, hlimit⟩ := exists_callDepth_of_evaluate_eq_ok _ _ (hok 2)
  have hpos : 1 ≤ height := hheight.2 ⟨["f"], .cons hmem (by cbv) (.nil _), rfl⟩
  exact ⟨hok 2, (hlimit 0).2 hpos⟩

end Calculator
