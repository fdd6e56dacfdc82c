import Calculator.Proofs.Brackets
import Calculator.Proofs.Execution
import Calculator.Proofs.Numerals

/-!
# Where failures come from

An evaluation works on a stack of texts: the given one, and behind it the bodies of the formulas whose calls are under
way.  A `Frame` is one of these texts, with the names that are constants in it and with the number of calls around it.

`Scope.Fault` collects what can go wrong with the tokens of one text, and `Frame.Fails` what can go wrong in one frame.
An error crosses any number of calls unchanged, so every failure of an evaluation is one of a frame that the given text
leads to: `exists_frame_of_evaluate_eq_error`.
-/

namespace Calculator

/-! ### Failures of one text -/

namespace Scope

/-- What can go wrong with the tokens of a text: they cannot be read on at some token, a number or a name has no value,
or a call fails. -/
inductive Fault (scope : Scope) (ts : List Token) : EvalError → Prop where
  | syntactic {before after : List Token} {error : SyntaxError} (hts : ts = before ++ after)
      (hat : error.At (Token.enclosing before) (Token.next after)) : Fault scope ts error.toEvalError
  | number {text : String} (htext : ⟨.number, text⟩ ∈ ts) (h : Numeral.value? text = none) :
      Fault scope ts (.invalidNumber text)
  | constant {name : String} (hname : name ∈ Token.constantNames ts) (h : scope.constant? name = none) :
      Fault scope ts (.unknownConstant name)
  | function {name : String} (hname : name ∈ Token.callNames ts) (h : scope.function? name = none) :
      Fault scope ts (.unknownFunction name)
  | call {name : String} {f : List Float → Except EvalError Float} {args : List Float} {e : EvalError}
      (hname : name ∈ Token.callNames ts) (hf : scope.function? name = some f) (h : f args = .error e) :
      Fault scope ts e

variable {scope : Scope}

/-- A program fails at a failure, or at a step that fails. -/
theorem execute_eq_error {code : List Instruction} {stack : List Float} {e : EvalError}
    (h : scope.execute code stack = .error e) :
    (∃ error, .fail error ∈ code ∧ error.toEvalError = e) ∨
      ∃ s stack', .step s ∈ code ∧ scope.step s stack' = .error e := by
  induction code generalizing stack with
  | nil => cases h
  | cons i code ih =>
    cases i with
    | fail error =>
      cases h
      exact Or.inl ⟨error, List.mem_cons_self, rfl⟩
    | step s =>
      rcases bind_eq_error.1 h with hs | ⟨stack', -, hcode⟩
      · exact Or.inr ⟨s, stack, List.mem_cons_self, hs⟩
      · rcases ih hcode with ⟨error, hmem, he⟩ | ⟨s', stack'', hmem, he⟩
        · exact Or.inl ⟨error, List.mem_cons_of_mem _ hmem, he⟩
        · exact Or.inr ⟨s', stack'', List.mem_cons_of_mem _ hmem, he⟩

/-- A step that is compiled from tokens fails with a fault of the tokens. -/
theorem fault_of_step {ts : List Token} {s : Step} {stack : List Float} {e : EvalError}
    (hmem : .step s ∈ compile ts) (h : scope.step s stack = .error e) : scope.Fault ts e := by
  have hnamed := compile_named ts s hmem
  cases s with
  | number text =>
    obtain ⟨hnone, rfl⟩ := Numeral.read_eq_error.1 (map_eq_error.1 h)
    exact .number (number_mem_of_step_mem_compile hmem) hnone
  | constant name =>
    obtain ⟨hnone, rfl⟩ := constant_eq_error.1 (map_eq_error.1 h)
    exact .constant hnamed hnone
  | lookup name =>
    obtain ⟨hnone, rfl⟩ := function_eq_error.1 (map_eq_error.1 h)
    exact .function hnamed hnone
  | call name count =>
    rcases bind_eq_error.1 h with hf | ⟨f, hf, hcall⟩
    · obtain ⟨hnone, rfl⟩ := function_eq_error.1 hf
      exact .function hnamed hnone
    · exact .call hnamed (function_eq_ok.1 hf) (map_eq_error.1 hcall)
  | negate => cases stack <;> cases h
  | binary op =>
    -- an operator fails on no stack, however short
    rcases stack with _ | ⟨b, _ | ⟨a, stack⟩⟩ <;> cases h

theorem fault_of_evaluate {ts : List Token} {e : EvalError} (h : scope.evaluate ts = .error e) :
    scope.Fault ts e := by
  have hexecute : scope.execute (compile ts) [] = .error e := by
    rw [execute_compile, h]
    rfl
  rcases execute_eq_error hexecute with ⟨error, hmem, rfl⟩ | ⟨s, stack, hmem, hs⟩
  · obtain ⟨before, after, hts, hat⟩ := exists_at_of_fail_mem_compile hmem
    exact .syntactic hts hat
  · exact fault_of_step hmem hs

end Scope

/-! ### Failures of a frame -/

/-- A text that is evaluated, the names that are constants in it, and how many calls of formulas it stands in. -/
structure Frame where
  text : String
  known : String → Prop
  depth : Nat

namespace Frame

/-- The text of the frame calls a formula, and the callee is the body of the formula, which knows its parameters. -/
def Calls (functions : FunctionTable) (frame callee : Frame) : Prop :=
  ∃ name ∈ callees frame.text, ∃ f, functions[name]? = some (.formula f) ∧
    callee = ⟨f.body, (· ∈ f.params), frame.depth + 1⟩

/-- What can go wrong in a frame. -/
inductive Fails (functions : FunctionTable) (limits : Limits) (frame : Frame) : EvalError → Prop where
  | lexical {error : LexicalError} (h : tokenize frame.text = .error error) :
      Fails functions limits frame (.lexical error)
  | emptyExpression (h : frame.text = "") : Fails functions limits frame .emptyExpression
  /-- The tokens `before` were read, and the next one does not go on with them. -/
  | syntactic {before after : List Token} {error : SyntaxError} (h : tokenize frame.text = .ok ⟨before ++ after⟩)
      (hat : error.At (Token.enclosing before) (Token.next after)) :
      Fails functions limits frame error.toEvalError
  | unknownConstant {name : String} (hname : name ∈ mentions frame.text) (h : ¬ frame.known name) :
      Fails functions limits frame (.unknownConstant name)
  | unknownFunction {name : String} (hname : name ∈ callees frame.text) (h : name ∉ functions) :
      Fails functions limits frame (.unknownFunction name)
  /-- A formula is called in a frame that stands in as many calls as are allowed. -/
  | callDepthExceeded {name : String} {f : Formula} (hname : name ∈ callees frame.text)
      (hf : functions[name]? = some (.formula f)) (h : frame.depth = limits.callDepth) :
      Fails functions limits frame (.callDepthExceeded limits.callDepth)
  | argumentCount {name : String} {f : Formula} {count : Nat} (hname : name ∈ callees frame.text)
      (hf : functions[name]? = some (.formula f)) (hdepth : frame.depth < limits.callDepth) (h : f.arity ≠ count) :
      Fails functions limits frame (.argumentCount f.arity count)
  | nativeFailure {name : String} {f : Native} {args : List Float} {message : String}
      (hname : name ∈ callees frame.text) (hf : functions[name]? = some (.native f))
      (h : f.run args = .error message) : Fails functions limits frame (.nativeFailure name message)

end Frame

theorem not_mem_of_getElem? {β : Type} {t : Std.TreeMap String β} {name : String} (h : t[name]? = none) : name ∉ t := by
  rw [Std.TreeMap.mem_iff_isSome_getElem?, h]
  exact Bool.false_ne_true

theorem Formula.mem_constants_iff {f : Formula} {args : List Float} (h : args.length = f.arity) {name : String} :
    name ∈ Std.TreeMap.ofList (f.params.zip args) ↔ name ∈ f.params := by
  have hmap : (f.params.zip args).map Prod.fst = f.params := List.map_fst_zip (Nat.le_of_eq h.symm)
  rw [Std.TreeMap.mem_ofList, hmap, List.contains_iff_mem]

variable {functions : FunctionTable} {limits : Limits}

/-- A text that fails leads to a frame that fails, through calls of formulas alone. -/
theorem exists_frame_of_evaluateText (frame : Frame) {constants : ConstantTable}
    (hknown : ∀ name : String, name ∈ constants ↔ frame.known name) (hdepth : frame.depth ≤ limits.callDepth)
    {e : EvalError} (h : (Scope.atDepth functions limits frame.depth constants).evaluateText frame.text = .error e) :
    ∃ frame', Relation.ReflTransGen (Frame.Calls functions) frame frame' ∧ frame'.Fails functions limits e := by
  by_cases hempty : frame.text = ""
  · rw [Scope.evaluateText, if_pos hempty] at h
    cases h
    exact ⟨frame, .refl, .emptyExpression hempty⟩
  cases ht : tokenize frame.text with
  | error error =>
    rw [Scope.evaluateText, if_neg hempty, ht] at h
    cases h
    exact ⟨frame, .refl, .lexical ht⟩
  | ok stream =>
    have hmentions := mentions_of_tokenize ht
    have hcallees := callees_of_tokenize ht
    rw [Scope.evaluateText_of_tokenize _ hempty ht, Scope.atDepth_eq] at h
    cases Scope.fault_of_evaluate h with
    | syntactic hts hat =>
      obtain ⟨ts⟩ := stream
      subst hts
      exact ⟨frame, .refl, .syntactic ht hat⟩
    | number htext hnone =>
      obtain ⟨value, hvalue⟩ := Numeral.exists_value? (valid_of_tokenize ht _ htext).isNumeral
      rw [hnone] at hvalue
      cases hvalue
    | constant hname hnone =>
      refine ⟨frame, .refl, .unknownConstant (hmentions ▸ hname) fun hk => ?_⟩
      exact not_mem_of_getElem? hnone ((hknown _).2 hk)
    | function hname hnone =>
      exact ⟨frame, .refl, .unknownFunction (hcallees ▸ hname) (not_mem_of_getElem? (Option.map_eq_none_iff.1 hnone))⟩
    | @call name f args _ hname hf hcall =>
      rw [← hcallees] at hname
      obtain ⟨callable, hcallable, rfl⟩ := Option.map_eq_some_iff.1 hf
      cases callable with
      | native f =>
        obtain ⟨message, hrun, rfl⟩ := Native.call_eq_error.1 hcall
        exact ⟨frame, .refl, .nativeFailure hname hcallable hrun⟩
      | formula f =>
        rcases Formula.invoke_eq_error.1 hcall with ⟨hle, rfl⟩ | ⟨hlt, hne, rfl⟩ | ⟨hlt, hlen, hbody⟩
        · exact ⟨frame, .refl, .callDepthExceeded hname hcallable (Nat.le_antisymm hdepth hle)⟩
        · exact ⟨frame, .refl, .argumentCount hname hcallable hlt hne⟩
        · -- the failure crosses the call
          have hcalls : Frame.Calls functions frame ⟨f.body, (· ∈ f.params), frame.depth + 1⟩ :=
            ⟨name, hname, f, hcallable, rfl⟩
          obtain ⟨frame', hpath, hfails⟩ := exists_frame_of_evaluateText ⟨f.body, (· ∈ f.params), frame.depth + 1⟩
            (fun name => Formula.mem_constants_iff hlen) hlt hbody
          exact ⟨frame', .head hcalls hpath, hfails⟩
termination_by limits.callDepth - frame.depth

theorem Frame.Fails.ne_invalidNumber {frame : Frame} {e : EvalError} (h : frame.Fails functions limits e)
    (text : String) : e ≠ .invalidNumber text := by
  intro he
  subst he
  generalize he : EvalError.invalidNumber text = e at h
  cases h with
  | @syntactic _ _ error _ _ => cases error <;> cases he
  | lexical | emptyExpression | unknownConstant | unknownFunction | callDepthExceeded | argumentCount | nativeFailure =>
    cases he

theorem head?_toList_append {s : String} {c : Char} (h : s.toList.head? = some c) (t : String) :
    (s ++ t).toList.head? = some c := by
  rw [String.toList_append, List.head?_append, h, Option.some_or]

theorem DefinitionError.head?_message (d : DefinitionError) : d.message.toList.head? = some 'P' := by
  have hparameter : "Parameter '".toList.head? = some 'P' := rfl
  cases d <;> exact head?_toList_append (head?_toList_append hparameter _) _

theorem EvalError.exists_head?_message (e : EvalError) : ∃ c, e.message.toList.head? = some c ∧ c ≠ 'P' := by
  cases e with
  | lexical error =>
    exact ⟨'U', head?_toList_append (head?_toList_append (head?_toList_append (head?_toList_append rfl _) _) _) _,
      by decide⟩
  | emptyExpression => exact ⟨'E', rfl, by decide⟩
  | invalidNumber text => exact ⟨'I', head?_toList_append (head?_toList_append rfl _) _, by decide⟩
  | trailingInput found => exact ⟨'U', head?_toList_append rfl _, by decide⟩
  | expectedValue found => exact ⟨'E', head?_toList_append rfl _, by decide⟩
  | unexpectedToken expected found =>
    exact ⟨'E', head?_toList_append (head?_toList_append (head?_toList_append rfl _) _) _, by decide⟩
  | unknownConstant name => exact ⟨'U', head?_toList_append (head?_toList_append rfl _) _, by decide⟩
  | unknownFunction name => exact ⟨'U', head?_toList_append (head?_toList_append rfl _) _, by decide⟩
  | argumentCount expected found =>
    exact ⟨'E', head?_toList_append (head?_toList_append (head?_toList_append rfl _) _) _, by decide⟩
  | callDepthExceeded limit => exact ⟨'F', head?_toList_append (head?_toList_append rfl _) _, by decide⟩
  | nativeFailure name message =>
    exact ⟨'F', head?_toList_append (head?_toList_append (head?_toList_append rfl _) _) _, by decide⟩

/-- The messages of evaluation errors are not those of definition errors. -/
theorem EvalError.message_ne (e : EvalError) (d : DefinitionError) : e.message ≠ d.message := by
  intro he
  obtain ⟨c, hc, hne⟩ := e.exists_head?_message
  rw [he, d.head?_message] at hc
  exact hne (Option.some.inj hc).symm

/-- Every reported error is true.  A failure is one of a frame that the given text leads to, where it can only arise as
`Frame.Fails` says: before such a token and inside such parentheses, for a name that the text of the frame mentions and
that means nothing there, for a wrong number of arguments, or at the limit on nested calls.  No numeral is ever refused,
and no failure shows the message of a rejected definition. -/
theorem exists_frame_of_evaluate_eq_error {constants : ConstantTable} {text : String} {e : EvalError}
    (h : evaluate constants functions text limits = .error e) :
    (∃ frame, Relation.ReflTransGen (Frame.Calls functions) ⟨text, (· ∈ constants), 0⟩ frame ∧
      frame.Fails functions limits e) ∧
    (∀ numeral, e ≠ .invalidNumber numeral) ∧ ∀ d : DefinitionError, e.message ≠ d.message := by
  obtain ⟨frame, hpath, hfails⟩ := exists_frame_of_evaluateText ⟨text, (· ∈ constants), 0⟩ (fun _ => Iff.rfl)
    (Nat.zero_le limits.callDepth) h
  exact ⟨⟨frame, hpath, hfails⟩, hfails.ne_invalidNumber, e.message_ne⟩

/-- In the body of `f` a group is not closed before a comma, although the group is itself an argument of a call. -/
theorem exists_frame_of_evaluate_eq_error_group :
    evaluate (Std.TreeMap.ofList [("y", (1 : Float))])
      (Std.TreeMap.ofList [("f", Callable.formula ⟨["x"], "f((x, x))"⟩)]) "f(y)" =
        .error (.unexpectedToken .closingParen ⟨.comma, ","⟩) ∧
    ∃ frame, Relation.ReflTransGen (Frame.Calls (Std.TreeMap.ofList [("f", Callable.formula ⟨["x"], "f((x, x))"⟩)]))
        ⟨"f(y)", (· ∈ Std.TreeMap.ofList [("y", (1 : Float))]), 0⟩ frame ∧
      frame.Fails (Std.TreeMap.ofList [("f", Callable.formula ⟨["x"], "f((x, x))"⟩)]) {}
        (.unexpectedToken .closingParen ⟨.comma, ","⟩) := by
  have hrun : ∀ y : Float, evaluate (Std.TreeMap.ofList [("y", y)])
      (Std.TreeMap.ofList [("f", Callable.formula ⟨["x"], "f((x, x))"⟩)]) "f(y)" =
        .error (.unexpectedToken .closingParen ⟨.comma, ","⟩) := by
    intro y
    cbv
  exact ⟨hrun 1, (exists_frame_of_evaluate_eq_error (hrun 1)).1⟩

end Calculator
