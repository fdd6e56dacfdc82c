import Calculator.Proofs.Invocation
import Calculator.Proofs.Parameters
import Calculator.Session
import Mathlib

/-!
# What a session enters

Every command enters some constants and some functions, in a known order, and changes nothing else about the current
environment; only taking back an environment that was put aside does more than that.  So the environment after any
commands is that of all their entries (`Session.run_current`): a name stands for the last value that was entered under
it, and whatever holds of each entry holds of the tables.  In particular all formulas in the table are well formed, since
a formula enters by its definition alone, and calling one gives each parameter its own argument.
-/

namespace Calculator

/-! ### Entering names -/

namespace Environment

/-- The environment with constants and functions entered, each in their order. -/
def enter (env : Environment) (constants : List (String × Float)) (functions : List (String × Callable)) :
    Environment :=
  { env with constants := env.constants.insertMany constants, functions := env.functions.insertMany functions }

variable (env : Environment)

theorem enter_nil : env.enter [] [] = env := by
  rw [enter, Std.TreeMap.insertMany_nil, Std.TreeMap.insertMany_nil]

theorem enter_enter (constants constants' : List (String × Float)) (functions functions' : List (String × Callable)) :
    (env.enter constants functions).enter constants' functions' =
      env.enter (constants ++ constants') (functions ++ functions') := by
  simp only [enter, Std.TreeMap.insertMany_append]

theorem setConstant_eq_enter (name : String) (value : Float) :
    env.setConstant name value = env.enter [(name, value)] [] := by
  rw [enter, Std.TreeMap.insertMany_list_singleton, Std.TreeMap.insertMany_nil]
  rfl

theorem setFunction_eq_enter (name : String) (f : Callable) : env.setFunction name f = env.enter [] [(name, f)] := by
  rw [enter, Std.TreeMap.insertMany_list_singleton, Std.TreeMap.insertMany_nil]
  rfl

end Environment

/-- What a definition enters: the formula, if it is accepted. -/
def Definition.functions (d : Definition) : List (String × Callable) :=
  match Formula.make d.params d.body with
  | .ok f => [(d.name, .formula f)]
  | .error _ => []

namespace Builtins

/-- All built-in functions: the native ones, and the formulas behind them. -/
def functions : List (String × Callable) :=
  natives.map (fun entry => (entry.1, .native entry.2)) ++
    definitions.map fun d => (d.name, .formula ⟨d.params, d.body⟩)

/-- The built-in definitions are accepted. -/
theorem make_definition : ∀ d ∈ definitions, Formula.make d.params d.body = .ok ⟨d.params, d.body⟩ := by
  have hletter : ∀ c : Char, Token.isNameStart c = true → IsName (String.singleton c).toList := by
    intro c hc
    exact ⟨c, [], String.toList_singleton c, hc, List.forall_mem_nil _⟩
  have hwell : ∀ d ∈ definitions, Formula.WellFormed ⟨d.params, d.body⟩ := by
    rw [definitions, List.forall_mem_cons, List.forall_mem_cons, List.forall_mem_cons, List.forall_mem_singleton]
    refine ⟨⟨by decide, ?_, by decide⟩, ⟨by decide, ?_, by decide⟩, ⟨by decide, ?_, by decide⟩,
      ⟨by decide, ?_, by decide⟩⟩
    · exact List.forall_mem_singleton.2 (hletter 'x' rfl)
    · exact List.forall_mem_singleton.2 (hletter 'x' rfl)
    · exact List.forall_mem_cons.2 ⟨hletter 'x' rfl, List.forall_mem_singleton.2 (hletter 'y' rfl)⟩
    · exact List.forall_mem_cons.2 ⟨hletter 'a' rfl, List.forall_mem_singleton.2 (hletter 'b' rfl)⟩
  exact fun d hd => Formula.make_eq_ok.2 ⟨rfl, hwell d hd⟩

end Builtins

namespace Environment

/-- If each step enters something, then all steps together enter all of it. -/
theorem foldl_eq_enter {α : Type} {step : Environment → α → Environment} {constants : α → List (String × Float)}
    {functions : α → List (String × Callable)} (h : ∀ env a, step env a = env.enter (constants a) (functions a))
    (entries : List α) (env : Environment) :
    entries.foldl step env = env.enter (entries.flatMap constants) (entries.flatMap functions) := by
  induction entries generalizing env with
  | nil => exact env.enter_nil.symm
  | cons a entries ih => rw [List.foldl_cons, ih, h, enter_enter, List.flatMap_cons, List.flatMap_cons]

theorem foldlM_define {ds : List Definition}
    (h : ∀ d ∈ ds, Formula.make d.params d.body = .ok ⟨d.params, d.body⟩) (env : Environment) :
    ds.foldlM define env =
      .ok (ds.foldl (fun env d => env.setFunction d.name (.formula ⟨d.params, d.body⟩)) env) := by
  induction ds generalizing env with
  | nil => rfl
  | cons d ds ih =>
    obtain ⟨hd, hds⟩ := List.forall_mem_cons.1 h
    rw [List.foldlM_cons, define, hd, Except.map, ok_bind, ih hds, List.foldl_cons]

/-- Entering the built-in names is never refused. -/
theorem registerBuiltins_eq (env : Environment) :
    env.registerBuiltins = .ok (env.enter Builtins.constants Builtins.functions) := by
  rw [registerBuiltins, foldlM_define Builtins.make_definition,
    foldl_eq_enter (fun env d => env.setFunction_eq_enter d.name (.formula ⟨d.params, d.body⟩)),
    foldl_eq_enter (fun env entry => env.setFunction_eq_enter entry.1 (.native entry.2)),
    foldl_eq_enter (fun env entry => env.setConstant_eq_enter entry.1 entry.2), enter_enter, enter_enter]
  rfl

end Environment

/-! ### Sessions -/

namespace Session

/-- The constants that a command enters. -/
def Command.constants : Command → List (String × Float)
  | .setConstant name value => [(name, value)]
  | .registerBuiltins => Builtins.constants
  | _ => []

/-- The functions that a command enters. -/
def Command.functions : Command → List (String × Callable)
  | .setNative name f => [(name, .native f)]
  | .define d => d.functions
  | .registerBuiltins => Builtins.functions
  | _ => []

variable {s : Session} {c : Command}

/-- One command enters its names into the current environment. -/
theorem perform_current (h : c ≠ .restore) :
    (s.perform c).1.current = s.current.enter c.constants c.functions := by
  cases c with
  | setConstant name value => exact s.current.setConstant_eq_enter name value
  | setNative name f => exact s.current.setFunction_eq_enter name (.native f)
  | define d =>
    rw [perform, Environment.define, Command.functions, Definition.functions]
    cases Formula.make d.params d.body with
    | ok f => exact s.current.setFunction_eq_enter d.name (.formula f)
    | error e => exact s.current.enter_nil.symm
  | registerBuiltins =>
    rw [perform, Environment.registerBuiltins_eq]
    rfl
  | evaluate | evaluateBatch | list | showLimit | save => exact s.current.enter_nil.symm
  | restore => exact absurd rfl h

/-- A list of commands enters all their names. -/
theorem run_current {commands : List Command} (h : .restore ∉ commands) :
    (s.run commands).1.current =
      s.current.enter (commands.flatMap Command.constants) (commands.flatMap Command.functions) := by
  induction commands generalizing s with
  | nil => exact s.current.enter_nil.symm
  | cons c commands ih =>
    obtain ⟨hc, hcommands⟩ := List.ne_and_not_mem_of_not_mem_cons h
    show ((s.perform c).1.run commands).1.current = _
    rw [ih hcommands, perform_current (Ne.symm hc), Environment.enter_enter, List.flatMap_cons, List.flatMap_cons]

/-- A formula that is entered is well formed. -/
theorem Command.wellFormed_of_mem_functions {name : String} {f : Formula}
    (h : (name, Callable.formula f) ∈ c.functions) : f.WellFormed := by
  cases c with
  | define d =>
    rw [Command.functions, Definition.functions] at h
    cases hmake : Formula.make d.params d.body with
    | ok g =>
      simp only [hmake, List.mem_singleton, Prod.mk.injEq, Callable.formula.injEq] at h
      rw [h.2]
      exact (Formula.make_eq_ok.1 hmake).2
    | error e =>
      rw [hmake] at h
      cases h
  | registerBuiltins =>
    rcases List.mem_append.1 h with h | h
    · obtain ⟨entry, -, heq⟩ := List.mem_map.1 h
      cases heq
    · obtain ⟨d, hd, heq⟩ := List.mem_map.1 h
      cases heq
      exact (Formula.make_eq_ok.1 (Builtins.make_definition d hd)).2
  | setNative name f =>
    obtain ⟨⟩ := List.mem_singleton.1 h
  | setConstant | evaluate | evaluateBatch | list | showLimit | save | restore => cases h

/-- A command that is rejected or that evaluates leaves the session as it was. -/
theorem perform_eq_self
    (h : (∃ e, (s.perform c).2 = .rejected e) ∨ (∃ r, (s.perform c).2 = .result r) ∨
      ∃ rs, (s.perform c).2 = .results rs) : (s.perform c).1 = s := by
  have hupdate : ∀ r : Except DefinitionError Environment, (∃ e, (s.update r).2 = .rejected e) ∨
      (∃ x, (s.update r).2 = .result x) ∨ (∃ xs, (s.update r).2 = .results xs) → (s.update r).1 = s := by
    rintro (e | env) h
    · rfl
    · rcases h with ⟨_, h⟩ | ⟨_, h⟩ | ⟨_, h⟩ <;> cases h
  cases c with
  | setConstant | setNative | define | registerBuiltins => exact hupdate _ h
  | evaluate | evaluateBatch | list | showLimit => rfl
  | save => rcases h with ⟨_, h⟩ | ⟨_, h⟩ | ⟨_, h⟩ <;> cases h
  | restore =>
    obtain ⟨current, saved⟩ := s
    cases saved with
    | nil => rfl
    | cons => rcases h with ⟨_, h⟩ | ⟨_, h⟩ | ⟨_, h⟩ <;> cases h

/-- What an environment has become after any commands.  Every formula in its table has pairwise different parameters that
are identifiers and occur in its body; so a call with as many arguments evaluates the body where the constants are
exactly the parameters, each with the argument at its position.  In each table a name stands for the last value that
was entered under it, where a definition enters its formula only if it is accepted.  The limits are those of the start,
and neither a rejected definition nor an evaluation or a batch, failed or not, makes any change. -/
theorem tables_after_run (limits : Limits) {commands : List Command} (h : .restore ∉ commands) {session : Session}
    (hs : session = (run ⟨⟨∅, ∅, limits⟩, []⟩ commands).1) :
    (∀ (name : String) (f : Formula), session.current.functions[name]? = some (.formula f) →
      f.WellFormed ∧ ∀ args, args.length = f.arity → ∃ params, f.bind args = .ok params ∧
        (∀ (name : String) (value : Float), params[name]? = some value ↔
          ∃ i : Nat, f.params[i]? = some name ∧ args[i]? = some value) ∧
        ∀ depth < limits.callDepth, Formula.invoke session.current.functions limits depth f args =
          (Scope.atDepth session.current.functions limits (depth + 1) params).evaluateText f.body) ∧
    (∀ name : String, session.current.constants[name]? = (commands.flatMap Command.constants).reverse.lookup name) ∧
    (∀ name : String, session.current.functions[name]? = (commands.flatMap Command.functions).reverse.lookup name) ∧
    session.current.limits = limits ∧
    ∀ c, (∃ e, (session.perform c).2 = .rejected e) ∨ (∃ r, (session.perform c).2 = .result r) ∨
      (∃ rs, (session.perform c).2 = .results rs) → (session.perform c).1 = session := by
  have hcurrent : session.current = Environment.enter ⟨∅, ∅, limits⟩ (commands.flatMap Command.constants)
      (commands.flatMap Command.functions) := by
    rw [hs]
    exact run_current h
  have hconstants : ∀ name : String,
      session.current.constants[name]? = (commands.flatMap Command.constants).reverse.lookup name := by
    intro name
    rw [hcurrent, Environment.enter, getElem?_insertMany_eq_lookup, Std.TreeMap.getElem?_emptyc, Option.or_none]
  have hfunctions : ∀ name : String,
      session.current.functions[name]? = (commands.flatMap Command.functions).reverse.lookup name := by
    intro name
    rw [hcurrent, Environment.enter, getElem?_insertMany_eq_lookup, Std.TreeMap.getElem?_emptyc, Option.or_none]
  refine ⟨fun name f hf => ?_, hconstants, hfunctions, congrArg Environment.limits hcurrent, fun _ => perform_eq_self⟩
  rw [hfunctions] at hf
  -- the formula is the entry of some command
  obtain ⟨before, after, heq, -⟩ := List.lookup_eq_some_iff.1 hf
  have hmem : (name, Callable.formula f) ∈ commands.flatMap Command.functions := by
    rw [← List.mem_reverse, heq]
    exact List.mem_append_right before List.mem_cons_self
  obtain ⟨c, -, hc⟩ := List.mem_flatMap.1 hmem
  have hwell : f.WellFormed := Command.wellFormed_of_mem_functions hc
  refine ⟨hwell, fun args hargs => ⟨_, if_pos hargs, fun _ _ => Formula.getElem?_constants hwell.nodup hargs, ?_⟩⟩
  intro depth hdepth
  rw [Formula.invoke, if_neg (Nat.not_lt.2 hdepth), if_neg (fun hne => hne hargs)]

/-- A definition that repeats a parameter does not replace the formula that was defined before, and a constant that is
set again has its last value. -/
theorem tables_after_run_redefined :
    Command.restore ∉ [Command.setConstant "x" 1, .define ⟨"f", ["x", "y"], "x-y"⟩, .define ⟨"f", ["z", "z"], "z"⟩,
      .evaluate "f(x)", .setConstant "x" 2] ∧
    ∃ session : Session, session = (run ⟨⟨∅, ∅, ⟨3⟩⟩, []⟩ [Command.setConstant "x" 1,
        .define ⟨"f", ["x", "y"], "x-y"⟩, .define ⟨"f", ["z", "z"], "z"⟩, .evaluate "f(x)", .setConstant "x" 2]).1 ∧
      session.current.constants["x"]? = some 2 ∧
      session.current.functions["f"]? = some (.formula ⟨["x", "y"], "x-y"⟩) ∧
      (∃ params, Formula.bind ⟨["x", "y"], "x-y"⟩ [5, 7] = .ok params ∧
        params["x"]? = some 5 ∧ params["y"]? = some 7) ∧
      session.current.limits = ⟨3⟩ ∧
      (session.perform (.define ⟨"g", ["u", "u"], "u"⟩)).2 = .rejected (.duplicateParameter "u") ∧
      (session.perform (.define ⟨"g", ["u", "u"], "u"⟩)).1 = session := by
  have hcommands : Command.restore ∉ [Command.setConstant "x" 1, .define ⟨"f", ["x", "y"], "x-y"⟩,
      .define ⟨"f", ["z", "z"], "z"⟩, .evaluate "f(x)", .setConstant "x" 2] := by simp
  obtain ⟨hformula, hconstants, hfunctions, hlimits, hsame⟩ := tables_after_run ⟨3⟩ hcommands rfl
  have hf := (hfunctions "f").trans (c := some (Callable.formula ⟨["x", "y"], "x-y"⟩)) (by cbv)
  obtain ⟨-, hbind⟩ := hformula "f" _ hf
  obtain ⟨params, hparams, hvalue, -⟩ := hbind [5, 7] rfl
  have hbad : Formula.make ["u", "u"] "u" = .error (.duplicateParameter "u") := by cbv
  have hrejected : ∀ session : Session,
      (session.perform (.define ⟨"g", ["u", "u"], "u"⟩)).2 = .rejected (.duplicateParameter "u") := by
    intro session
    rw [perform, Environment.define, hbad]
    rfl
  refine ⟨hcommands, _, rfl, (hconstants "x").trans rfl, hf, ⟨params, hparams, ?_, ?_⟩, hlimits, hrejected _,
    hsame _ (Or.inl ⟨_, hrejected _⟩)⟩
  · exact (hvalue "x" 5).2 ⟨0, rfl, rfl⟩
  · exact (hvalue "y" 7).2 ⟨1, rfl, rfl⟩

end Session

end Calculator
