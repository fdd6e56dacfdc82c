import Calculator.Proofs.Comparison
import Calculator.Session

/-!
# Failures do not depend on numbers

If the native functions fail or not by the number of their arguments alone (`Native.Uniform`), then an evaluation
fails or not, and with the same error, whatever the values of the constants are.  The built-in functions are of this
kind (`Builtins.failure?_run`), and so are the functions of every session that enters no other native ones
(`Session.Uniform.run`).
-/

namespace Calculator

/-- The error of an outcome that is no value. -/
def failure? {ε α : Type} : Except ε α → Option ε
  | .ok _ => none
  | .error e => some e

/-- The comparison of failures alone. -/
def Comparison.failures : Comparison where
  values _ _ := True
  errors e e' := e = e'
  excused _ := False
  values_refl _ := trivial
  values_neg _ := trivial
  values_apply _ _ _ _ _ _ _ := trivial
  errors_refl _ := rfl

theorem Comparison.failures_outcomes_iff {x y : Except EvalError Float} :
    Comparison.failures.Outcomes (fun _ _ => True) x y ↔ failure? x = failure? y := by
  constructor
  · intro h
    cases h with
    | value _ => rfl
    | error he => exact congrArg some he
    | excused he => exact he.elim
  · intro h
    cases x with
    | ok a =>
      cases y with
      | ok b => exact .value trivial
      | error e' => cases h
    | error e =>
      cases y with
      | ok b => cases h
      | error e' => exact .error (Option.some.inj h)

/-! ### Native functions -/

/-- Whether and how the function fails depends only on the number of its arguments. -/
def Native.Uniform (f : Native) : Prop :=
  ∀ args args' : List Float, args.length = args'.length → failure? (f.run args) = failure? (f.run args')

theorem Native.Uniform.functions_call {f : Native} (hf : f.Uniform) (name : String) :
    Comparison.failures.Functions (f.call name) (f.call name) := by
  intro args args' hargs
  refine Comparison.failures_outcomes_iff.2 ?_
  have hrun := hf args args' hargs.length_eq
  rw [Native.call, Native.call]
  cases hx : f.run args <;> cases hy : f.run args' <;> simp_all [failure?, Except.mapError]

namespace Builtins

/-- The number of arguments that a built-in native function takes; the others take any positive number. -/
def arity? : String → Option Nat
  | "min" | "max" => none
  | "log" => some 2
  | _ => some 1

/-- How a built-in native function refuses a number of arguments. -/
def refusal? (name : String) (count : Nat) : Option String :=
  match arity? name with
  | some n => if count = n then none else some (argumentCountMessage n count)
  | none => if count = 0 then some (name ++ " needs at least one argument") else none

end Builtins

theorem Native.failure?_ofArity (n : Nat) (f : Vector Float n → Float) (args : List Float) :
    failure? ((ofArity n f).run args) =
      if args.length = n then none else some (argumentCountMessage n args.length) := by
  rw [ofArity, ofArity?]
  by_cases h : args.length = n
  · simp only [dif_pos h, if_pos h]
    rfl
  · simp only [dif_neg h, if_neg h]
    rfl

theorem Native.failure?_reduce (f : Float → Float → Float) (onEmpty : String) (args : List Float) :
    failure? ((reduce f onEmpty).run args) = if args.length = 0 then some onEmpty else none := by
  cases args <;> rfl

/-- A built-in native function fails exactly if it is given a wrong number of arguments. -/
theorem Builtins.failure?_run {name : String} {f : Native} (h : (name, f) ∈ natives) (args : List Float) :
    failure? (f.run args) = refusal? name args.length := by
  simp only [natives, List.mem_cons, Prod.mk.injEq, List.not_mem_nil, or_false] at h
  rcases h with ⟨rfl, rfl⟩ | ⟨rfl, rfl⟩ | ⟨rfl, rfl⟩ | ⟨rfl, rfl⟩ | ⟨rfl, rfl⟩ | ⟨rfl, rfl⟩ | ⟨rfl, rfl⟩ |
    ⟨rfl, rfl⟩ | ⟨rfl, rfl⟩ | ⟨rfl, rfl⟩ | ⟨rfl, rfl⟩ | ⟨rfl, rfl⟩ | ⟨rfl, rfl⟩ | ⟨rfl, rfl⟩ | ⟨rfl, rfl⟩ |
    ⟨rfl, rfl⟩ | ⟨rfl, rfl⟩ | ⟨rfl, rfl⟩ | ⟨rfl, rfl⟩
  all_goals first | exact Native.failure?_ofArity _ _ args | exact Native.failure?_reduce _ _ args

theorem Builtins.uniform {name : String} {f : Native} (h : (name, f) ∈ natives) : f.Uniform := by
  intro args args' hlen
  rw [failure?_run h, failure?_run h, hlen]

/-! ### Environments and sessions -/

/-- All native functions in the table are uniform. -/
def FunctionTable.Uniform (functions : FunctionTable) : Prop :=
  ∀ (name : String) (f : Native), functions[name]? = some (Callable.native f) → f.Uniform

/-- All native functions of the environment are uniform. -/
def Environment.Uniform (env : Environment) : Prop :=
  FunctionTable.Uniform env.functions

namespace Environment

variable {env : Environment}

theorem uniform_empty (limits : Limits) : Uniform ⟨∅, ∅, limits⟩ := by
  intro name f hf
  simp at hf

theorem Uniform.setConstant (h : env.Uniform) (name : String) (value : Float) : (env.setConstant name value).Uniform :=
  h

theorem Uniform.setFunction (h : env.Uniform) (name : String) {callable : Callable}
    (hcallable : ∀ f, callable = Callable.native f → f.Uniform) : (env.setFunction name callable).Uniform := by
  intro other f hf
  rw [Environment.setFunction, Std.TreeMap.getElem?_insert] at hf
  split at hf
  · exact hcallable f (Option.some.inj hf)
  · exact h other f hf

theorem Uniform.define (h : env.Uniform) {d : Definition} {env' : Environment} (hd : env.define d = .ok env') :
    env'.Uniform := by
  obtain ⟨f, -, rfl⟩ := map_eq_ok.1 hd
  exact h.setFunction d.name fun _ hf => nomatch hf

theorem Uniform.foldlM_define (h : env.Uniform) {ds : List Definition} {env' : Environment}
    (hd : ds.foldlM Environment.define env = .ok env') : env'.Uniform := by
  induction ds generalizing env with
  | nil =>
    cases hd
    exact h
  | cons d ds ih =>
    rw [List.foldlM_cons] at hd
    obtain ⟨env₁, hd₁, hds⟩ := bind_eq_ok.1 hd
    exact ih (h.define hd₁) hds

theorem Uniform.registerBuiltins (h : env.Uniform) {env' : Environment} (hb : env.registerBuiltins = .ok env') :
    env'.Uniform := by
  refine Uniform.foldlM_define ?_ hb
  refine List.foldlRecOn _ _ ?_ fun env₁ h₁ p hp => ?_
  · exact List.foldlRecOn _ _ h fun env₁ h₁ p _ => h₁.setConstant p.1 p.2
  · refine h₁.setFunction p.1 fun f hf => ?_
    cases hf
    exact Builtins.uniform hp

end Environment

namespace Session

/-- The command enters no native function that is not uniform. -/
def Command.Uniform : Command → Prop
  | .setNative _ f => f.Uniform
  | _ => True

/-- The current environment and those put aside are uniform. -/
structure Uniform (s : Session) : Prop where
  current : s.current.Uniform
  saved : ∀ env ∈ s.saved, env.Uniform

theorem Uniform.update {s : Session} (h : s.Uniform) {r : Except DefinitionError Environment}
    (hr : ∀ env, r = .ok env → env.Uniform) : (s.update r).1.Uniform := by
  cases r with
  | ok env => exact ⟨hr env rfl, h.saved⟩
  | error e => exact h

theorem Uniform.perform {s : Session} (h : s.Uniform) {c : Command} (hc : c.Uniform) : (s.perform c).1.Uniform := by
  cases c with
  | setConstant name value =>
    refine h.update fun env he => ?_
    cases he
    exact h.current.setConstant name value
  | setNative name f =>
    refine h.update fun env he => ?_
    cases he
    refine h.current.setFunction name fun g hg => ?_
    cases hg
    exact hc
  | define d => exact h.update fun env he => h.current.define he
  | registerBuiltins => exact h.update fun env he => h.current.registerBuiltins he
  | evaluate text => exact h
  | evaluateBatch texts => exact h
  | list => exact h
  | showLimit => exact h
  | save => exact ⟨h.current, List.forall_mem_cons.2 ⟨h.current, h.saved⟩⟩
  | restore =>
    obtain ⟨current, saved⟩ := s
    cases saved with
    | nil => exact h
    | cons env saved => exact ⟨h.saved env List.mem_cons_self, fun e he => h.saved e (List.mem_cons_of_mem env he)⟩

theorem Uniform.run {s : Session} (h : s.Uniform) {cs : List Command} (hcs : ∀ c ∈ cs, c.Uniform) :
    (s.run cs).1.Uniform := by
  induction cs generalizing s with
  | nil => exact h
  | cons c cs ih =>
    exact ih (h.perform (hcs c List.mem_cons_self)) fun c' hc' => hcs c' (List.mem_cons_of_mem c hc')

end Session

/-! ### Evaluations -/

/-- Where the native functions are uniform, two tables of constants with the same names give the same failure. -/
theorem Scope.failure?_evaluateText_nested {functions : FunctionTable}
    (hnative : FunctionTable.Uniform functions) {constants constants' : ConstantTable}
    (hnames : ∀ name : String, name ∈ constants ↔ name ∈ constants') (limits : Limits) (remaining : Nat)
    (text : String) :
    failure? ((nested functions limits remaining constants).evaluateText text) =
      failure? ((nested functions limits remaining constants').evaluateText text) := by
  have hconstants : ∀ name : String, Option.Rel (fun _ _ => True) constants[name]? constants'[name]? := by
    intro name
    have hsome := hnames name
    rw [Std.TreeMap.mem_iff_isSome_getElem?, Std.TreeMap.mem_iff_isSome_getElem?] at hsome
    generalize constants[name]? = x at hsome ⊢
    generalize constants'[name]? = y at hsome ⊢
    cases x <;> cases y <;> simp at hsome
    · exact .none
    · exact .some trivial
  have ht : Comparison.failures.Tables functions functions fun _ => True := by
    refine ⟨fun name _ => ?_, fun _ _ _ _ => trivial⟩
    cases hf : functions[name]? with
    | none => exact .none
    | some callable =>
      cases callable with
      | formula f => exact .some (.formula f)
      | native f => exact .some (.native ((hnative name f hf).functions_call name))
  exact Comparison.failures_outcomes_iff.1 (Comparison.evaluateText_nested ht (Or.inl ⟨rfl, rfl⟩)
    (fun name _ => hconstants name) fun _ _ => trivial)

/-- Numbers decide neither whether an evaluation fails nor with what error.  Where the native functions are uniform, the
values of the constants make no difference to the failure; the built-in native functions are uniform and fail exactly
on a wrong number of arguments; and so it is in every environment that was built from the built-in names, definitions,
constants and other uniform functions. -/
theorem failure?_evaluate_eq (limits : Limits) (text : String) :
    (∀ (functions : FunctionTable) (constants constants' : ConstantTable), FunctionTable.Uniform functions →
      (∀ name : String, name ∈ constants ↔ name ∈ constants') →
      failure? (evaluate constants functions text limits) = failure? (evaluate constants' functions text limits)) ∧
    (∀ name f, (name, f) ∈ Builtins.natives →
      f.Uniform ∧ ∀ args, failure? (f.run args) = Builtins.refusal? name args.length) ∧
    ∀ commands : List Session.Command, (∀ c ∈ commands, c.Uniform) →
      ∀ env, env = (Session.run ⟨⟨∅, ∅, limits⟩, []⟩ commands).1.current →
        ∀ constants : ConstantTable, (∀ name : String, name ∈ env.constants ↔ name ∈ constants) →
          failure? (env.evaluate text) = failure? (Environment.evaluate { env with constants } text) := by
  refine ⟨?_, ?_, ?_⟩
  · intro functions constants constants' hf hnames
    exact Scope.failure?_evaluateText_nested hf hnames limits limits.callDepth text
  · intro name f h
    exact ⟨Builtins.uniform h, Builtins.failure?_run h⟩
  · intro commands hc env he constants hn
    have hstart : Session.Uniform ⟨⟨∅, ∅, limits⟩, []⟩ :=
      ⟨Environment.uniform_empty limits, List.forall_mem_nil _⟩
    have hrun := (hstart.run hc).current
    rw [← he] at hrun
    exact Scope.failure?_evaluateText_nested hrun hn env.limits env.limits.callDepth text

/-- A call with one argument too many fails in the same way for a number and for NaN, also in a session. -/
theorem failure?_evaluate_eq_nan :
    FunctionTable.Uniform (Std.TreeMap.ofList [("sqrt", Callable.native (.unary Float.sqrt))]) ∧
    (∀ name : String, name ∈ Std.TreeMap.ofList [("x", (0 / 0 : Float))] ↔
      name ∈ Std.TreeMap.ofList [("x", (1 : Float))]) ∧
    failure? (evaluate (Std.TreeMap.ofList [("x", (0 / 0 : Float))])
      (Std.TreeMap.ofList [("sqrt", Callable.native (.unary Float.sqrt))]) "sqrt(x, x)") =
        some (.nativeFailure "sqrt" "Expected 1 arguments, but got 2") ∧
    failure? (Environment.evaluate
      { (Session.run ⟨⟨∅, ∅, {}⟩, []⟩ [.setConstant "x" 1, .setNative "sqrt" (.unary Float.sqrt)]).1.current with
        constants := Std.TreeMap.ofList [("x", (0 / 0 : Float))] } "sqrt(x, x)") =
      some (.nativeFailure "sqrt" "Expected 1 arguments, but got 2") := by
  have hsqrt : (Native.unary Float.sqrt).Uniform := by
    have hmem : ("sqrt", Native.unary Float.sqrt) ∈ Builtins.natives := List.mem_cons_self
    exact Builtins.uniform hmem
  have huniform : FunctionTable.Uniform (Std.TreeMap.ofList [("sqrt", Callable.native (.unary Float.sqrt))]) := by
    intro name f hf
    rw [Std.TreeMap.ofList_singleton, Std.TreeMap.getElem?_insert] at hf
    split at hf
    · cases hf
      exact hsqrt
    · simp at hf
  have hnames : ∀ name : String, name ∈ Std.TreeMap.ofList [("x", (0 / 0 : Float))] ↔
      name ∈ Std.TreeMap.ofList [("x", (1 : Float))] := by
    intro name
    rw [Std.TreeMap.ofList_singleton, Std.TreeMap.ofList_singleton, Std.TreeMap.mem_insert, Std.TreeMap.mem_insert]
  have hcommands : ∀ c ∈ [Session.Command.setConstant "x" 1, .setNative "sqrt" (.unary Float.sqrt)], c.Uniform :=
    List.forall_mem_cons.2 ⟨trivial, List.forall_mem_singleton.2 hsqrt⟩
  have hrun : ∀ x : Float, failure? (evaluate (Std.TreeMap.ofList [("x", x)])
      (Std.TreeMap.ofList [("sqrt", Callable.native (.unary Float.sqrt))]) "sqrt(x, x)") =
        some (.nativeFailure "sqrt" "Expected 1 arguments, but got 2") := by
    intro x
    cbv
  obtain ⟨htables, -, hsession⟩ := failure?_evaluate_eq {} "sqrt(x, x)"
  refine ⟨huniform, hnames, (htables _ _ _ huniform hnames).trans (hrun 1), ?_⟩
  exact (hsession _ hcommands _ rfl _ fun name => (hnames name).symm).symm.trans (hrun 1)

end Calculator
