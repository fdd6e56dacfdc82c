import Calculator.Proofs.Execution
import Calculator.Proofs.Mentions
import Mathlib

/-!
# Comparing two evaluations

A `Comparison` says which values and which errors correspond to one another in two evaluations of the same text.
Evaluating looks at values only through signs, operators and calls, and at names only through the scope.  So two
evaluations correspond if the names that the text mentions have corresponding meanings:

* `Comparison.evaluate`: for the tokens of a text in two scopes, by executing the one program that both compile to;
* `Comparison.evaluateText_nested`: for a text under two pairs of tables and limits, by induction on the depth of calls.
-/

namespace Calculator

/-- A way to compare two evaluations.  A run that fails with an `excused` error is not compared with the other one. -/
structure Comparison where
  values : Float → Float → Prop
  errors : EvalError → EvalError → Prop
  excused : EvalError → Prop
  values_refl : ∀ a, values a a
  values_neg : ∀ {a b : Float}, values a b → values (-a) (-b)
  values_apply : ∀ (op : Operator) {a a' b b' : Float}, values a a' → values b b' →
    values (op.apply a b) (op.apply a' b')
  /-- A limit is the only thing that an error may take from elsewhere than the text. -/
  errors_refl : ∀ {e : EvalError}, (∀ limit, e ≠ .callDepthExceeded limit) → errors e e

namespace Comparison

/-- A comparison in which only equal values correspond. -/
def ofEqual (errors : EvalError → EvalError → Prop) (excused : EvalError → Prop)
    (errors_refl : ∀ {e : EvalError}, (∀ limit, e ≠ .callDepthExceeded limit) → errors e e) : Comparison where
  values a b := a = b
  errors := errors
  excused := excused
  values_refl _ := rfl
  values_neg h := congrArg _ h
  values_apply op _ _ _ _ h h' := congrArg₂ op.apply h h'
  errors_refl := errors_refl

variable (c : Comparison) {α β γ δ : Type}

/-- Two outcomes correspond: values by `related`, errors as the comparison says. -/
inductive Outcomes (related : α → β → Prop) : Except EvalError α → Except EvalError β → Prop where
  | value {a : α} {b : β} (h : related a b) : Outcomes related (.ok a) (.ok b)
  | error {e e' : EvalError} (h : c.errors e e') : Outcomes related (.error e) (.error e')
  | excused {e : EvalError} (h : c.excused e) (y : Except EvalError β) : Outcomes related (.error e) y

/-- Two functions correspond: they have corresponding outcomes at corresponding arguments. -/
def Functions (f f' : List Float → Except EvalError Float) : Prop :=
  ∀ args args', List.Forall₂ c.values args args' → c.Outcomes c.values (f args) (f' args')

variable {c}

/-- Only what the first two evaluations found goes into what follows. -/
theorem Outcomes.bind_of_eq {related : α → β → Prop} {related' : γ → δ → Prop} {x : Except EvalError α}
    {y : Except EvalError β} {f : α → Except EvalError γ} {g : β → Except EvalError δ} (h : c.Outcomes related x y)
    (hf : ∀ a b, x = .ok a → y = .ok b → related a b → c.Outcomes related' (f a) (g b)) :
    c.Outcomes related' (x >>= f) (y >>= g) := by
  cases h with
  | value hab => exact hf _ _ rfl rfl hab
  | error he => exact .error he
  | excused he y => exact .excused he _

theorem Outcomes.bind {related : α → β → Prop} {related' : γ → δ → Prop} {x : Except EvalError α}
    {y : Except EvalError β} {f : α → Except EvalError γ} {g : β → Except EvalError δ} (h : c.Outcomes related x y)
    (hf : ∀ a b, related a b → c.Outcomes related' (f a) (g b)) : c.Outcomes related' (x >>= f) (y >>= g) :=
  h.bind_of_eq fun a b _ _ => hf a b

theorem Outcomes.map {related : α → β → Prop} {related' : γ → δ → Prop} {x : Except EvalError α}
    {y : Except EvalError β} {f : α → γ} {g : β → δ} (h : c.Outcomes related x y)
    (hf : ∀ a b, related a b → related' (f a) (g b)) : c.Outcomes related' (x.map f) (y.map g) := by
  rw [map_eq_bind, map_eq_bind]
  exact h.bind fun a b hab => .value (hf a b hab)

theorem Outcomes.of_map {related : α → β → Prop} {related' : γ → δ → Prop} {x : Except EvalError α}
    {y : Except EvalError β} {f : α → γ} {g : β → δ} (h : c.Outcomes related' (x.map f) (y.map g))
    (hf : ∀ a b, related' (f a) (g b) → related a b) : c.Outcomes related x y := by
  cases x with
  | ok a =>
    cases y with
    | ok b =>
      cases h with
      | value hab => exact .value (hf a b hab)
    | error e' => cases h
  | error e =>
    cases y with
    | ok b =>
      cases h with
      | excused he => exact .excused he _
    | error e' =>
      cases h with
      | error he => exact .error he
      | excused he => exact .excused he _

/-- The same error in both runs, unless it reports a limit. -/
theorem Outcomes.same {related : α → β → Prop} {e : EvalError} (h : ∀ limit, e ≠ .callDepthExceeded limit) :
    c.Outcomes related (.error e) (.error e) :=
  .error (c.errors_refl h)

/-! ### One program in two scopes -/

/-- The names that the tokens mention have corresponding meanings in the two scopes. -/
structure ScopesOn (c : Comparison) (ts : List Token) (scope scope' : Scope) : Prop where
  constant : ∀ name ∈ Token.constantNames ts, c.Outcomes c.values (scope.constant name) (scope'.constant name)
  function : ∀ name ∈ Token.callNames ts, c.Outcomes c.Functions (scope.function name) (scope'.function name)

variable {ts : List Token} {scope scope' : Scope}

theorem outcomes_read (text : String) : c.Outcomes c.values (Numeral.read text) (Numeral.read text) := by
  rw [Numeral.read]
  cases Numeral.value? text with
  | some value => exact .value (c.values_refl value)
  | none => exact .same fun _ he => by cases he

theorem outcomes_step (h : c.ScopesOn ts scope scope') {s : Step} (hs : s.NamedIn ts) {stack stack' : List Float}
    (hstack : List.Forall₂ c.values stack stack') :
    c.Outcomes (List.Forall₂ c.values) (scope.step s stack) (scope'.step s stack') := by
  have hpush : ∀ {us us' : List Float}, List.Forall₂ c.values us us' →
      ∀ a b, c.values a b → List.Forall₂ c.values (a :: us) (b :: us') := fun hus a b hab => .cons hab hus
  cases s with
  | number text => exact (outcomes_read text).map (hpush hstack)
  | constant name => exact (h.constant name hs).map (hpush hstack)
  | lookup name => exact (h.function name hs).map fun _ _ _ => hstack
  | call name count =>
    refine (h.function name hs).bind fun f f' hf => ?_
    have hargs : List.Forall₂ c.values (stack.take count).reverse (stack'.take count).reverse :=
      List.rel_reverse (List.forall₂_take count hstack)
    exact (hf _ _ hargs).map (hpush (List.forall₂_drop count hstack))
  | negate =>
    cases hstack with
    | nil => exact .value .nil
    | cons ha hrest => exact .value (.cons (c.values_neg ha) hrest)
  | binary op =>
    cases hstack with
    | nil => exact .value .nil
    | cons hb hrest =>
      cases hrest with
      | nil => exact .value (.cons hb .nil)
      | cons ha hrest => exact .value (.cons (c.values_apply op ha hb) hrest)

theorem outcomes_execute (h : c.ScopesOn ts scope scope') {code : List Instruction}
    (hcode : ∀ s, Instruction.step s ∈ code → s.NamedIn ts) {stack stack' : List Float}
    (hstack : List.Forall₂ c.values stack stack') :
    c.Outcomes (List.Forall₂ c.values) (scope.execute code stack) (scope'.execute code stack') := by
  induction code generalizing stack stack' with
  | nil => exact .value hstack
  | cons i code ih =>
    have hrest : ∀ s, Instruction.step s ∈ code → s.NamedIn ts := fun s hs => hcode s (List.mem_cons_of_mem i hs)
    cases i with
    | step s => exact (outcomes_step h (hcode s List.mem_cons_self) hstack).bind fun _ _ => ih hrest
    | fail error => exact .same fun _ he => by cases error <;> cases he

/-- In scopes that give corresponding meanings to the names of the tokens, the values of the tokens correspond. -/
theorem evaluate (h : c.ScopesOn ts scope scope') :
    c.Outcomes c.values (scope.evaluate ts) (scope'.evaluate ts) := by
  have hexecute := outcomes_execute h (compile_named ts) .nil
  rw [execute_compile, execute_compile] at hexecute
  -- the stack holds nothing but the value in the end
  exact hexecute.of_map fun a b hab => (List.forall₂_cons.1 hab).1

theorem evaluateText {text : String}
    (h : ∀ stream, tokenize text = .ok stream → c.ScopesOn stream.lexemes scope scope') :
    c.Outcomes c.values (scope.evaluateText text) (scope'.evaluateText text) := by
  by_cases hne : text = ""
  · rw [Scope.evaluateText, Scope.evaluateText, if_pos hne, if_pos hne]
    exact .same fun _ he => by cases he
  · cases ht : tokenize text with
    | error error =>
      rw [Scope.evaluateText, Scope.evaluateText, if_neg hne, if_neg hne, ht]
      exact .same fun _ he => by cases he
    | ok stream =>
      rw [Scope.evaluateText_of_tokenize scope hne ht, Scope.evaluateText_of_tokenize scope' hne ht]
      exact evaluate (h stream ht)

/-! ### One text under two pairs of tables -/

/-- What a name stands for in two tables: the same formula, or native functions that correspond. -/
inductive Callables (c : Comparison) (name : String) : Callable → Callable → Prop where
  | formula (f : Formula) : Callables c name (.formula f) (.formula f)
  | native {f f' : Native} (h : c.Functions (f.call name) (f'.call name)) :
      Callables c name (.native f) (.native f')

/-- The names that are reached stand for corresponding functions, and the formulas among them call only such names. -/
structure Tables (c : Comparison) (functions functions' : FunctionTable) (reached : String → Prop) : Prop where
  callable : ∀ name, reached name → Option.Rel (c.Callables name) functions[name]? functions'[name]?
  closed : ∀ {name : String} {f : Formula}, reached name → functions[name]? = some (.formula f) →
    ∀ callee ∈ callees f.body, reached callee

/-- How deeply calls may be nested in two evaluations: equally deeply, or more deeply in the second one if it is
excused that the first one is refused for its depth. -/
def Depths (c : Comparison) (limits limits' : Limits) (remaining remaining' : Nat) : Prop :=
  (remaining = remaining' ∧ c.errors (.callDepthExceeded limits.callDepth) (.callDepthExceeded limits'.callDepth)) ∨
    (remaining ≤ remaining' ∧ c.excused (.callDepthExceeded limits.callDepth))

variable {functions functions' : FunctionTable} {reached : String → Prop} {constants constants' : ConstantTable}

theorem evaluateText_ofTables (ht : c.Tables functions functions' reached) {text : String}
    (hconstants : ∀ name ∈ mentions text, Option.Rel c.values constants[name]? constants'[name]?)
    (hfunctions : ∀ name ∈ callees text, reached name) {call call' : Formula → List Float → Except EvalError Float}
    (hcall : ∀ f, (∀ callee ∈ callees f.body, reached callee) → c.Functions (call f) (call' f)) :
    c.Outcomes c.values ((Scope.ofTables constants functions call).evaluateText text)
      ((Scope.ofTables constants' functions' call').evaluateText text) := by
  refine evaluateText fun stream hstream => ⟨fun name hname => ?_, fun name hname => ?_⟩
  · rw [← mentions_of_tokenize hstream] at hname
    have hrel := hconstants name hname
    simp only [Scope.constant, Scope.ofTables]
    generalize constants[name]? = x at hrel ⊢
    generalize constants'[name]? = y at hrel ⊢
    cases hrel with
    | some hab => exact .value hab
    | none => exact .same fun _ he => by cases he
  · rw [← callees_of_tokenize hstream] at hname
    have hreached := hfunctions name hname
    have hrel := ht.callable name hreached
    simp only [Scope.function, Scope.ofTables]
    generalize hf : functions[name]? = x at hrel ⊢
    generalize functions'[name]? = y at hrel ⊢
    cases hrel with
    | none => exact .same fun _ he => by cases he
    | some hcallable =>
      cases hcallable with
      | formula f => exact .value (hcall f (ht.closed hreached hf))
      | native h => exact .value h

theorem rel_of_eq {x y : Option Float} (h : x = y) : Option.Rel c.values x y := by
  subst h
  cases x with
  | none => exact .none
  | some value => exact .some (c.values_refl value)

theorem rel_insert {t t' : ConstantTable} (ht : ∀ name : String, Option.Rel c.values t[name]? t'[name]?) {a b : Float}
    (hab : c.values a b) (key name : String) :
    Option.Rel c.values (t.insert key a)[name]? (t'.insert key b)[name]? := by
  rw [Std.TreeMap.getElem?_insert, Std.TreeMap.getElem?_insert]
  split
  · exact .some hab
  · exact ht name

theorem rel_insertMany_zip {args args' : List Float} (h : List.Forall₂ c.values args args') (params : List String)
    {t t' : ConstantTable} (ht : ∀ name : String, Option.Rel c.values t[name]? t'[name]?) (name : String) :
    Option.Rel c.values (t.insertMany (params.zip args))[name]? (t'.insertMany (params.zip args'))[name]? := by
  induction h generalizing params t t' with
  | nil =>
    rw [List.zip_nil_right]
    exact ht name
  | cons hab _ ih =>
    cases params with
    | nil => exact ht name
    | cons key params =>
      rw [List.zip_cons_cons, List.zip_cons_cons, Std.TreeMap.insertMany_cons, Std.TreeMap.insertMany_cons]
      exact ih params (rel_insert ht hab key)

/-- The parameters of a formula are bound to corresponding arguments. -/
theorem rel_ofList_zip {args args' : List Float} (h : List.Forall₂ c.values args args') (params : List String)
    (name : String) :
    Option.Rel c.values (Std.TreeMap.ofList (params.zip args))[name]?
      (Std.TreeMap.ofList (params.zip args'))[name]? := by
  rw [Std.TreeMap.ofList_eq_insertMany_empty, Std.TreeMap.ofList_eq_insertMany_empty]
  exact rel_insertMany_zip h params (fun _ => .none) name

/-- Under corresponding tables and limits the values of a text correspond. -/
theorem evaluateText_nested (ht : c.Tables functions functions' reached) {limits limits' : Limits}
    {remaining remaining' : Nat} (hd : c.Depths limits limits' remaining remaining') {text : String}
    (hconstants : ∀ name ∈ mentions text, Option.Rel c.values constants[name]? constants'[name]?)
    (hfunctions : ∀ name ∈ callees text, reached name) :
    c.Outcomes c.values ((Scope.nested functions limits remaining constants).evaluateText text)
      ((Scope.nested functions' limits' remaining' constants').evaluateText text) := by
  induction remaining generalizing remaining' constants constants' text with
  | zero =>
    rcases hd with ⟨rfl, herror⟩ | ⟨-, hexcused⟩
    · exact evaluateText_ofTables ht hconstants hfunctions fun _ _ _ _ _ => .error herror
    · cases remaining' with
      | zero | succ _ => exact evaluateText_ofTables ht hconstants hfunctions fun _ _ _ _ _ => .excused hexcused _
  | succ remaining ih =>
    obtain ⟨rest, rfl, hrest⟩ : ∃ rest, remaining' = rest + 1 ∧ c.Depths limits limits' remaining rest := by
      rcases hd with ⟨rfl, herror⟩ | ⟨hle, hexcused⟩
      · exact ⟨remaining, rfl, Or.inl ⟨rfl, herror⟩⟩
      · exact ⟨remaining' - 1, by omega, Or.inr ⟨by omega, hexcused⟩⟩
    refine evaluateText_ofTables ht hconstants hfunctions fun f hf args args' hargs => ?_
    -- the body is evaluated with fewer calls remaining, and its constants are the arguments
    rw [Formula.bind_bind, Formula.bind_bind, hargs.length_eq]
    split
    · exact .same fun _ he => by cases he
    · exact ih hrest (fun name _ => rel_ofList_zip hargs f.params name) hf

/-- Where corresponding values are equal, tables correspond if they agree on the names that are reached. -/
theorem tables_of_agree (hvalues : ∀ {a b : Float}, c.values a b → a = b)
    (hagree : ∀ name : String, reached name → functions[name]? = functions'[name]?)
    (hclosed : ∀ {name : String} {f : Formula}, reached name → functions[name]? = some (.formula f) →
      ∀ callee ∈ callees f.body, reached callee) : c.Tables functions functions' reached where
  closed := hclosed
  callable name hname := by
    rw [← hagree name hname]
    cases functions[name]? with
    | none => exact .none
    | some callable =>
      cases callable with
      | formula f => exact .some (.formula f)
      | native f =>
        refine .some (.native fun args args' hargs => ?_)
        obtain rfl := List.forall₂_eq_eq_eq ▸ hargs.imp fun _ _ => hvalues
        rw [Native.call]
        cases f.run args with
        | ok value => exact .value (c.values_refl value)
        | error message => exact .same fun _ he => by cases he

/-- Where corresponding values are equal, a text may be compared with itself under two limits. -/
theorem evaluateText_nested_self (hvalues : ∀ {a b : Float}, c.values a b → a = b) {limits limits' : Limits}
    {remaining remaining' : Nat} (hd : c.Depths limits limits' remaining remaining') (functions : FunctionTable)
    (constants : ConstantTable) (text : String) :
    c.Outcomes c.values ((Scope.nested functions limits remaining constants).evaluateText text)
      ((Scope.nested functions limits' remaining' constants).evaluateText text) := by
  have ht : c.Tables functions functions fun _ => True :=
    tables_of_agree hvalues (fun _ _ => rfl) fun _ _ _ _ => trivial
  exact evaluateText_nested ht hd (fun _ _ => rel_of_eq rfl) fun _ _ => trivial

end Comparison

end Calculator
