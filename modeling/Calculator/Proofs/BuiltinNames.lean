import Calculator.Proofs.Application
import Calculator.Proofs.Reordering
import Mathlib

/-!
# The built-in names

Entering the built-in names gives each of them its value, whatever it stood for before, and leaves every other name
alone (`Environment.withBuiltins_enter`).  The order of the constants makes no difference, and to enter the names once
more changes nothing (`Environment.WithBuiltins.alike`).

The body of a formula sees its parameters and no other constant, and the built-in ones call no function.  So what they
compute, `Builtins.values`, does not depend on any other name (`Builtins.function_of_mem_values`).
-/

namespace Calculator

/-! ### Formulas of one and of two parameters -/

namespace Builtins

/-- A function of one number, as it is called with any number of arguments. -/
def unary (f : Float → Float) : List Float → Except EvalError Float
  | [u] => .ok (f u)
  | args => .error (.argumentCount 1 args.length)

/-- A function of two numbers, as it is called with any number of arguments. -/
def binary (f : Float → Float → Float) : List Float → Except EvalError Float
  | [u, v] => .ok (f u v)
  | args => .error (.argumentCount 2 args.length)

end Builtins

namespace Formula

variable {functions : FunctionTable} {limits : Limits} {depth : Nat} {f : Formula} {args : List Float}

theorem invoke_of_length_ne (hdepth : depth < limits.callDepth) (h : args.length ≠ f.arity) :
    invoke functions limits depth f args = .error (.argumentCount f.arity args.length) :=
  invoke_eq_error.2 (.inr (.inl ⟨hdepth, h.symm, rfl⟩))

/-- A call has the value that the body has wherever the parameters stand for the arguments. -/
theorem invoke_of_body {value : Float} (hdepth : depth < limits.callDepth) (hnodup : f.params.Nodup)
    (hargs : args.length = f.arity)
    (hbody : ∀ scope : Scope,
      (∀ (i : Nat) (name : String) (u : Float), f.params[i]? = some name → args[i]? = some u →
        scope.constant name = .ok u) → scope.evaluateText f.body = .ok value) :
    invoke functions limits depth f args = .ok value := by
  refine invoke_eq_ok.2 ⟨hdepth, hargs, hbody _ fun i name u hname hu => ?_⟩
  rw [Scope.constant_eq_ok, Scope.constant?_atDepth]
  exact (getElem?_constants hnodup hargs).2 ⟨i, hname, hu⟩

variable {x y body : String}

theorem invoke_unary {g : Float → Float} (hdepth : depth < limits.callDepth)
    (hbody : ∀ (scope : Scope) (u : Float), scope.constant x = .ok u → scope.evaluateText body = .ok (g u)) :
    invoke functions limits depth ⟨[x], body⟩ = Builtins.unary g := by
  funext args
  match args with
  | [u] => exact invoke_of_body hdepth (List.nodup_singleton x) rfl fun scope h => hbody scope u (h 0 x u rfl rfl)
  | [] => exact invoke_of_length_ne hdepth (Nat.zero_ne_one)
  | u :: v :: args => exact invoke_of_length_ne hdepth (by simp [arity])

theorem invoke_binary {g : Float → Float → Float} (hdepth : depth < limits.callDepth) (hne : x ≠ y)
    (hbody : ∀ (scope : Scope) (u v : Float), scope.constant x = .ok u → scope.constant y = .ok v →
      scope.evaluateText body = .ok (g u v)) :
    invoke functions limits depth ⟨[x, y], body⟩ = Builtins.binary g := by
  funext args
  match args with
  | [u, v] =>
    exact invoke_of_body hdepth (by simpa using hne) rfl
      fun scope h => hbody scope u v (h 0 x u rfl rfl) (h 1 y v rfl rfl)
  | [] => exact invoke_of_length_ne hdepth (by simp [arity])
  | [u] => exact invoke_of_length_ne hdepth (by simp [arity])
  | u :: v :: w :: args => exact invoke_of_length_ne hdepth (by simp [arity])

end Formula

/-! ### The bodies of the definitions -/

namespace Builtins

section Bodies

open Grammar

variable {scope : Scope} {u v : Float}

theorem evaluateText_sq (hx : scope.constant "x" = .ok u) : scope.evaluateText "x * x" = .ok (u * u) := by
  let x : Power := .atom (.constant "x")
  let s : Sum := .product (.binary (.power x) .multiply rfl x)
  have ht : tokenize "x * x" = .ok ⟨s.tokens⟩ := by cbv
  rw [s.evaluateText_of_tokenize scope ht]
  simp only [s, x, Sum.value, Product.value, Power.value, Atom.value, hx, ok_bind]
  rfl

/-- Products are grouped to the left. -/
theorem evaluateText_cube (hx : scope.constant "x" = .ok u) : scope.evaluateText "x * x * x" = .ok (u * u * u) := by
  let x : Power := .atom (.constant "x")
  let s : Sum := .product (.binary (.binary (.power x) .multiply rfl x) .multiply rfl x)
  have ht : tokenize "x * x * x" = .ok ⟨s.tokens⟩ := by cbv
  rw [s.evaluateText_of_tokenize scope ht]
  simp only [s, x, Sum.value, Product.value, Power.value, Atom.value, hx, ok_bind]
  rfl

theorem evaluateText_hypot (hx : scope.constant "x" = .ok u) (hy : scope.constant "y" = .ok v) :
    scope.evaluateText "(x^2 + y^2) ^ 0.5" = .ok ((u.pow 2 + v.pow 2).pow 0.5) := by
  let square (name : String) : Product := .power (.power (.constant name) (.atom (.number "2")))
  let squares : Sum := .binary (.product (square "x")) .add rfl (square "y")
  let s : Sum := .product (.power (.power (.group squares) (.atom (.number "0.5"))))
  have ht : tokenize "(x^2 + y^2) ^ 0.5" = .ok ⟨s.tokens⟩ := by cbv
  have htwo : Numeral.read "2" = .ok 2 := rfl
  have hhalf : Numeral.read "0.5" = .ok 0.5 := rfl
  rw [s.evaluateText_of_tokenize scope ht]
  simp only [s, squares, square, Sum.value, Product.value, Power.value, Atom.value, hx, hy, htwo, hhalf, ok_bind]
  rfl

theorem evaluateText_avg (ha : scope.constant "a" = .ok u) (hb : scope.constant "b" = .ok v) :
    scope.evaluateText "(a + b) / 2" = .ok ((u + v) / 2) := by
  let sum : Sum := .binary (.product (.power (.atom (.constant "a")))) .add rfl (.power (.atom (.constant "b")))
  let s : Sum := .product (.binary (.power (.atom (.group sum))) .divide rfl (.atom (.number "2")))
  have ht : tokenize "(a + b) / 2" = .ok ⟨s.tokens⟩ := by cbv
  have htwo : Numeral.read "2" = .ok 2 := rfl
  rw [s.evaluateText_of_tokenize scope ht]
  simp only [s, sum, Sum.value, Product.value, Power.value, Atom.value, ha, hb, htwo, ok_bind]
  rfl

end Bodies

/-- What the definitions compute; every operation rounds its result. -/
def values : List (String × (List Float → Except EvalError Float)) :=
  [("sq", unary fun u => u * u),
   ("cube", unary fun u => (u * u) * u),
   ("hypot", binary fun u v => (u.pow 2 + v.pow 2).pow 0.5),
   ("avg", binary fun u v => (u + v) / 2)]

/-- Where the names of the definitions stand for the definitions, calls inside any number of other calls compute their
values. -/
theorem function_of_mem_values {functions : FunctionTable}
    (h : ∀ d ∈ definitions, functions[d.name]? = some (.formula ⟨d.params, d.body⟩)) {limits : Limits} {depth : Nat}
    (hdepth : depth < limits.callDepth) (constants : ConstantTable)
    {entry : String × (List Float → Except EvalError Float)} (hentry : entry ∈ values) :
    (Scope.atDepth functions limits depth constants).function entry.1 = .ok entry.2 := by
  simp only [definitions, List.forall_mem_cons] at h
  obtain ⟨hsq, hcube, hhypot, havg, -⟩ := h
  simp only [values, List.mem_cons, List.not_mem_nil, or_false] at hentry
  rcases hentry with rfl | rfl | rfl | rfl
  · rw [Scope.function_atDepth hsq, Formula.invoke_unary hdepth fun _ _ => evaluateText_sq]
  · rw [Scope.function_atDepth hcube, Formula.invoke_unary hdepth fun _ _ => evaluateText_cube]
  · rw [Scope.function_atDepth hhypot, Formula.invoke_binary hdepth (by decide) fun _ _ _ => evaluateText_hypot]
  · rw [Scope.function_atDepth havg, Formula.invoke_binary hdepth (by decide) fun _ _ _ => evaluateText_avg]

theorem isName_of_mem_values : ∀ entry ∈ values, IsName entry.1.toList := by
  have hidentifier : ∀ name ∈ ["sq", "cube", "hypot", "avg"], isIdentifier name = true := by
    rw [List.forall_mem_cons, List.forall_mem_cons, List.forall_mem_cons, List.forall_mem_singleton]
    refine ⟨?_, ?_, ?_, ?_⟩ <;> cbv
  intro entry hentry
  exact isIdentifier_iff.1 (hidentifier entry.1 (List.mem_map_of_mem (f := Prod.fst) hentry))

end Builtins

/-! ### Entering the names -/

namespace Environment

/-- Enters the built-in names, where the constants come in the given order. -/
def registerBuiltinsFrom (order : List (String × Float)) (env : Environment) : Except DefinitionError Environment :=
  let env := order.foldl (fun env (name, value) => env.setConstant name value) env
  let env := Builtins.natives.foldl (fun env (name, f) => env.setFunction name (.native f)) env
  Builtins.definitions.foldlM define env

/-- Exactly the built-in names have been entered, each with its value. -/
structure WithBuiltins (env env' : Environment) : Prop where
  constants : ∀ entry ∈ Builtins.constants, env'.constants[entry.1]? = some entry.2
  functions : ∀ entry ∈ Builtins.functions, env'.functions[entry.1]? = some entry.2
  other_constants : ∀ name ∉ ["pi", "e", "tau"], env'.constants[name]? = env.constants[name]?
  other_functions : ∀ name ∉ ["sqrt", "abs", "exp", "ln", "log10", "log2", "log", "sin", "cos", "tan", "asin", "acos",
    "atan", "floor", "ceil", "round", "trunc", "min", "max", "sq", "cube", "hypot", "avg"],
    env'.functions[name]? = env.functions[name]?
  limits : env'.limits = env.limits

variable {env env' env'' : Environment}

theorem registerBuiltinsFrom_constants (env : Environment) :
    env.registerBuiltinsFrom Builtins.constants = env.registerBuiltins :=
  rfl

theorem foldl_setConstant (constants : List (String × Float)) (env : Environment) :
    constants.foldl (fun env (name, value) => env.setConstant name value) env = env.enter constants [] := by
  rw [foldl_eq_enter (fun env entry => env.setConstant_eq_enter entry.1 entry.2), List.flatMap_singleton',
    List.flatMap_eq_nil_iff.2 fun _ _ => rfl]

theorem registerBuiltinsFrom_eq (order : List (String × Float)) (env : Environment) :
    env.registerBuiltinsFrom order = .ok (env.enter order Builtins.functions) := by
  rw [registerBuiltinsFrom, foldl_setConstant, foldlM_define Builtins.make_definition,
    foldl_eq_enter (fun env d => env.setFunction_eq_enter d.name (.formula ⟨d.params, d.body⟩)),
    foldl_eq_enter (fun env entry => env.setFunction_eq_enter entry.1 (.native entry.2)), enter_enter, enter_enter]
  -- neither the native functions nor the definitions enter a constant
  exact congrArg (fun constants => Except.ok (env.enter constants Builtins.functions)) (List.append_nil order)

/-- In whatever order the constants come, exactly the built-in names are entered. -/
theorem withBuiltins_enter {order : List (String × Float)} (horder : order.Perm Builtins.constants)
    (env : Environment) : env.WithBuiltins (env.enter order Builtins.functions) := by
  have hconstants : (Builtins.constants.map Prod.fst).Nodup := by decide
  have hfunctions : (Builtins.functions.map Prod.fst).Nodup := by decide
  have hnames : (order.map Prod.fst).Perm ["pi", "e", "tau"] := horder.map Prod.fst
  have horder' : (order.map Prod.fst).Nodup := hnames.nodup_iff.2 hconstants
  exact
    { constants := fun entry hentry => getElem?_insertMany_of_mem horder' env.constants (horder.mem_iff.2 hentry)
      functions := fun entry hentry => getElem?_insertMany_of_mem hfunctions env.functions hentry
      other_constants := fun name hname => getElem?_insertMany_of_not_mem env.constants (hnames.mem_iff.not.2 hname)
      other_functions := fun name hname => getElem?_insertMany_of_not_mem env.functions hname
      limits := rfl }

/-- To enter the names once more makes no difference. -/
theorem WithBuiltins.alike (h : env.WithBuiltins env') (h' : env'.WithBuiltins env'') : env''.Alike env' where
  constants name := by
    by_cases hname : name ∈ Builtins.constants.map Prod.fst
    · obtain ⟨entry, hentry, rfl⟩ := List.mem_map.1 hname
      rw [h'.constants entry hentry, h.constants entry hentry]
    · exact h'.other_constants name hname
  functions name := by
    by_cases hname : name ∈ Builtins.functions.map Prod.fst
    · obtain ⟨entry, hentry, rfl⟩ := List.mem_map.1 hname
      rw [h'.functions entry hentry, h.functions entry hentry]
    · exact h'.other_functions name hname
  limits := h'.limits

theorem WithBuiltins.getElem?_definition (h : env.WithBuiltins env') :
    ∀ d ∈ Builtins.definitions, env'.functions[d.name]? = some (.formula ⟨d.params, d.body⟩) := by
  intro d hd
  exact h.functions (d.name, .formula ⟨d.params, d.body⟩) (List.mem_append_right _ (List.mem_map_of_mem hd))

/-- Where the definitions are entered, their calls compute their values. -/
theorem evaluate_callText_of_mem_values
    (h : ∀ d ∈ Builtins.definitions, env.functions[d.name]? = some (.formula ⟨d.params, d.body⟩))
    (hdepth : 0 < env.limits.callDepth) {entry : String × (List Float → Except EvalError Float)}
    (hentry : entry ∈ Builtins.values) {texts : List String} {values : List Float}
    (htexts : List.Forall₂ (fun text value => env.evaluate text = .ok value) texts values) :
    env.evaluate (callText entry.1 texts) = entry.2 values := by
  have hcall := Scope.evaluateText_callText _ (Builtins.isName_of_mem_values entry hentry) htexts
  rwa [Builtins.function_of_mem_values h hdepth env.constants hentry, ok_bind] at hcall

end Environment

namespace Session

/-- A function that no command enters stays what it was. -/
theorem getElem?_functions_run {s : Session} {commands : List Command} (hrestore : .restore ∉ commands) {name : String}
    (h : name ∉ (commands.flatMap Command.functions).map Prod.fst) :
    (s.run commands).1.current.functions[name]? = s.current.functions[name]? := by
  rw [run_current hrestore]
  exact getElem?_insertMany_of_not_mem s.current.functions h

end Session

namespace Environment

/-- The built-in names can be entered into every environment, in whatever order the constants come: exactly these names
are entered, with their values, and to enter them once more makes no difference.  Whatever constants, and whatever
functions of other names, are entered after them, the four functions that are defined by an expression compute the
values `Builtins.values` of all arguments, or refuse the number of arguments, in every call that the limit on nested
calls permits. -/
theorem exists_registerBuiltinsFrom (env : Environment) :
    env.registerBuiltinsFrom Builtins.constants = env.registerBuiltins ∧
    ∀ order : List (String × Float), order.Perm Builtins.constants →
      ∃ env', env.registerBuiltinsFrom order = .ok env' ∧ env.WithBuiltins env' ∧
        (∀ order' : List (String × Float), order'.Perm Builtins.constants →
          ∃ env'', env'.registerBuiltinsFrom order' = .ok env'' ∧ env''.Alike env') ∧
        ∀ commands : List Session.Command, .restore ∉ commands →
          (∀ name ∈ ["sq", "cube", "hypot", "avg"],
            name ∉ (commands.flatMap Session.Command.functions).map Prod.fst) →
          ∀ later, later = (Session.run ⟨env', []⟩ commands).1.current →
            ∀ entry ∈ Builtins.values,
              (∀ depth < env.limits.callDepth, ∀ constants,
                (Scope.atDepth later.functions later.limits depth constants).function entry.1 = .ok entry.2) ∧
              ∀ (texts : List String) (values : List Float), 0 < env.limits.callDepth →
                List.Forall₂ (fun text value => later.evaluate text = .ok value) texts values →
                later.evaluate (callText entry.1 texts) = entry.2 values := by
  refine ⟨env.registerBuiltinsFrom_constants, fun order horder => ?_⟩
  have henv' : env.WithBuiltins (env.enter order Builtins.functions) := withBuiltins_enter horder env
  refine ⟨_, registerBuiltinsFrom_eq order env, henv', fun order' horder' => ?_, ?_⟩
  · exact ⟨_, registerBuiltinsFrom_eq order' _, henv'.alike (withBuiltins_enter horder' _)⟩
  · intro commands hrestore hnames later hlater entry hentry
    have hlimits : later.limits = env.limits := by
      rw [hlater, Session.run_current hrestore]
      rfl
    have hdefinitions : ∀ d ∈ Builtins.definitions, later.functions[d.name]? = some (.formula ⟨d.params, d.body⟩) := by
      intro d hd
      have hname : d.name ∈ ["sq", "cube", "hypot", "avg"] := List.mem_map_of_mem (f := Definition.name) hd
      rw [hlater, Session.getElem?_functions_run hrestore (hnames d.name hname)]
      exact henv'.getElem?_definition d hd
    rw [← hlimits]
    exact ⟨fun depth hdepth constants => Builtins.function_of_mem_values hdefinitions hdepth constants hentry,
      fun texts values hdepth htexts => evaluate_callText_of_mem_values hdefinitions hdepth hentry htexts⟩

/-- Constants called as the parameters are, and a function called as a constant is, make no difference to `hypot` and
`cube`; calls may not be nested at all. -/
theorem exists_registerBuiltinsFrom_shadowed :
    Builtins.constants.reverse.Perm Builtins.constants ∧
    ∃ env', registerBuiltinsFrom Builtins.constants.reverse ⟨∅, ∅, ⟨1⟩⟩ = .ok env' ∧
      ∃ later, later = (Session.run ⟨env', []⟩
          [.setConstant "y" 2, .setConstant "x" 7, .define ⟨"e", ["x"], "x"⟩]).1.current ∧
        later.evaluate "x" = .ok 7 ∧ later.evaluate "y" = .ok 2 ∧
        later.evaluate "hypot(y,x)" = .ok (((2 : Float).pow 2 + (7 : Float).pow 2).pow 0.5) ∧
        later.evaluate "cube(y,x)" = .error (.argumentCount 1 2) := by
  let commands : List Session.Command := [.setConstant "y" 2, .setConstant "x" 7, .define ⟨"e", ["x"], "x"⟩]
  have hperm : Builtins.constants.reverse.Perm Builtins.constants := List.reverse_perm _
  have hrestore : .restore ∉ commands := by simp [commands]
  have hfunctions : commands.flatMap Session.Command.functions = [("e", .formula ⟨["x"], "x"⟩)] := by cbv
  have hnames : ∀ name ∈ ["sq", "cube", "hypot", "avg"],
      name ∉ (commands.flatMap Session.Command.functions).map Prod.fst := by
    rw [hfunctions]
    decide
  obtain ⟨-, hregister⟩ := exists_registerBuiltinsFrom ⟨∅, ∅, ⟨1⟩⟩
  obtain ⟨env', henv', -, -, hcalls⟩ := hregister _ hperm
  let later : Environment := (Session.run ⟨env', []⟩ commands).1.current
  have hvalue : ∀ (name : String) (value : Float), IsName name.toList →
      (name, value) ∈ [("y", (2 : Float)), ("x", 7)] → later.evaluate name = .ok value := by
    intro name value hname hmem
    rw [evaluate, Calculator.evaluate, Scope.evaluateText_name _ hname, Scope.constant_eq_ok, Scope.constant?_atDepth]
    show (Session.run ⟨env', []⟩ commands).1.current.constants[name]? = some value
    rw [Session.run_current hrestore]
    exact getElem?_insertMany_of_mem (by decide) env'.constants hmem
  have hx : later.evaluate "x" = .ok 7 := hvalue "x" 7 (isIdentifier_iff.1 (by cbv)) (by simp)
  have hy : later.evaluate "y" = .ok 2 := hvalue "y" 2 (isIdentifier_iff.1 (by cbv)) (by simp)
  have hcall := hcalls commands hrestore hnames later rfl
  have htexts : List.Forall₂ (fun text value => later.evaluate text = .ok value) ["y", "x"] [2, 7] :=
    .cons hy (.cons hx .nil)
  obtain ⟨-, hcube⟩ := hcall ("cube", _) (.tail _ (.head _))
  obtain ⟨-, hhypot⟩ := hcall ("hypot", _) (.tail _ (.tail _ (.head _)))
  have hcubeText : callText "cube" ["y", "x"] = "cube(y,x)" := by decide
  have hhypotText : callText "hypot" ["y", "x"] = "hypot(y,x)" := by decide
  refine ⟨hperm, env', henv', later, rfl, hx, hy, ?_, ?_⟩
  · rw [← hhypotText]
    exact hhypot _ _ Nat.one_pos htexts
  · rw [← hcubeText]
    exact hcube _ _ Nat.one_pos htexts

end Environment

end Calculator
