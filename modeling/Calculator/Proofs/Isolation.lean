import Calculator.Environment
import Calculator.Proofs.Comparison

/-!
# Which names matter

The outcome of an evaluation depends on the constants that the text itself mentions and on the functions that it
reaches through its calls, and on no other entry of the two tables.  In particular the body of a formula sees none of
the constants around the call, and an entry whose name is not an identifier is never looked up.
-/

namespace Calculator

/-- The comparison of equal outcomes. -/
def Comparison.equal : Comparison :=
  ofEqual (fun e e' => e = e') (fun _ => False) fun _ => rfl

theorem Comparison.Outcomes.eq {α : Type} {x y : Except EvalError α}
    (h : Comparison.equal.Outcomes (fun a b => a = b) x y) : x = y := by
  cases h with
  | value hab => exact congrArg _ hab
  | error he => exact congrArg _ he
  | excused he => exact he.elim

/-- Tables that agree on the constants that a text mentions and on the functions that it reaches give it the same
value or the same error. -/
theorem Scope.evaluateText_nested_congr {constants constants' : ConstantTable} {functions functions' : FunctionTable}
    (limits : Limits) (remaining : Nat) {text : String}
    (hconstants : ∀ name ∈ mentions text, constants[name]? = constants'[name]?)
    (hfunctions : ∀ name, CallGraph.Reaches functions text name → functions[name]? = functions'[name]?) :
    (nested functions limits remaining constants).evaluateText text =
      (nested functions' limits remaining constants').evaluateText text := by
  have hclosed : ∀ {name : String} {f : Formula}, CallGraph.Reaches functions text name →
      functions[name]? = some (.formula f) → ∀ callee ∈ callees f.body, CallGraph.Reaches functions text callee := by
    rintro name f ⟨first, hfirst, hpath⟩ hf callee hcallee
    exact ⟨first, hfirst, hpath.tail ⟨f, hf, hcallee⟩⟩
  have ht : Comparison.equal.Tables functions functions' (CallGraph.Reaches functions text) :=
    Comparison.tables_of_agree id hfunctions hclosed
  have houtcomes : Comparison.equal.Outcomes (fun a b => a = b)
      ((nested functions limits remaining constants).evaluateText text)
      ((nested functions' limits remaining constants').evaluateText text) :=
    Comparison.evaluateText_nested ht (Or.inl ⟨rfl, rfl⟩)
      (fun name hname => Comparison.rel_of_eq (hconstants name hname)) fun name hname => ⟨name, hname, .refl⟩
  exact houtcomes.eq

theorem isName_of_mem_mentions {text name : String} (h : name ∈ mentions text) : IsName name.toList := by
  cases ht : tokenize text with
  | error error =>
    rw [mentions, ht] at h
    cases h
  | ok stream =>
    rw [mentions_of_tokenize ht] at h
    exact Token.isName_of_mem_namesBefore (valid_of_tokenize ht) h

theorem isName_of_mem_callees {text name : String} (h : name ∈ callees text) : IsName name.toList := by
  cases ht : tokenize text with
  | error error =>
    rw [callees, ht] at h
    cases h
  | ok stream =>
    rw [callees_of_tokenize ht, Token.callNames_eq_namesBefore] at h
    exact Token.isName_of_mem_namesBefore (valid_of_tokenize ht) h

theorem isName_of_reaches {functions : FunctionTable} {text name : String}
    (h : CallGraph.Reaches functions text name) : IsName name.toList := by
  obtain ⟨first, hfirst, hpath⟩ := h
  induction hpath with
  | refl => exact isName_of_mem_callees hfirst
  | tail _ hcall _ =>
    obtain ⟨f, -, hcallee⟩ := hcall
    exact isName_of_mem_callees hcallee

theorem getElem?_insert_of_ne {β : Type} (t : Std.TreeMap String β) {key name : String} (h : name ≠ key) (value : β) :
    t[name]? = (t.insert key value)[name]? := by
  have hne : compare key name ≠ .eq := fun he => h (Std.LawfulEqCmp.eq_of_compare he).symm
  rw [Std.TreeMap.getElem?_insert, if_neg hne]

/-- Only the constants that a text mentions and the functions that it reaches matter.  So it makes no difference to an
evaluation to enter a constant that only the bodies of functions mention, a function that is not reached, also under
the name of a constant, or anything under a name that is not an identifier. -/
theorem Environment.evaluate_eq_of_agree (env : Environment) (text : String) :
    (∀ (constants : ConstantTable) (functions : FunctionTable),
      (∀ name ∈ mentions text, env.constants[name]? = constants[name]?) →
      (∀ name, CallGraph.Reaches env.functions text name → env.functions[name]? = functions[name]?) →
      env.evaluate text = Environment.evaluate ⟨constants, functions, env.limits⟩ text) ∧
    (∀ name value, name ∉ mentions text → (env.setConstant name value).evaluate text = env.evaluate text) ∧
    (∀ name f, ¬ CallGraph.Reaches env.functions text name →
      (env.setFunction name f).evaluate text = env.evaluate text) ∧
    (∀ name value f, ¬ IsName name.toList →
      ((env.setConstant name value).setFunction name f).evaluate text = env.evaluate text) := by
  have hagree : ∀ (constants : ConstantTable) (functions : FunctionTable),
      (∀ name ∈ mentions text, env.constants[name]? = constants[name]?) →
      (∀ name, CallGraph.Reaches env.functions text name → env.functions[name]? = functions[name]?) →
      env.evaluate text = Environment.evaluate ⟨constants, functions, env.limits⟩ text :=
    fun constants functions hc hf => Scope.evaluateText_nested_congr env.limits env.limits.callDepth hc hf
  refine ⟨hagree, fun name value hname => ?_, fun name f hname => ?_, fun name value f hname => ?_⟩
  · refine (hagree (env.constants.insert name value) env.functions (fun other hother => ?_) fun _ _ => rfl).symm
    have hne : other ≠ name := fun he => hname (he ▸ hother)
    exact getElem?_insert_of_ne env.constants hne value
  · refine (hagree env.constants (env.functions.insert name f) (fun _ _ => rfl) fun other hother => ?_).symm
    have hne : other ≠ name := fun he => hname (he ▸ hother)
    exact getElem?_insert_of_ne env.functions hne f
  · refine (hagree (env.constants.insert name value) (env.functions.insert name f) (fun other hother => ?_)
      fun other hother => ?_).symm
    · have hne : other ≠ name := fun he => hname (he ▸ isName_of_mem_mentions hother)
      exact getElem?_insert_of_ne env.constants hne value
    · have hne : other ≠ name := fun he => hname (he ▸ isName_of_reaches hother)
      exact getElem?_insert_of_ne env.functions hne f

/-- The body of a formula does not see a constant of the caller: `f(y)` fails whether or not there is a constant `z`,
and whether or not there is a function `g` that is not reached. -/
theorem Environment.evaluate_eq_of_agree_body :
    "z" ∉ mentions "f(y)" ∧
    ¬ CallGraph.Reaches (Std.TreeMap.ofList [("f", Callable.formula ⟨["x"], "x+z"⟩)]) "f(y)" "g" ∧
    Environment.evaluate ⟨(Std.TreeMap.ofList [("y", (1 : Float))]).insert "z" 2,
      (Std.TreeMap.ofList [("f", Callable.formula ⟨["x"], "x+z"⟩)]).insert "g" (.formula ⟨[], "z"⟩), {}⟩ "f(y)" =
        .error (.unknownConstant "z") := by
  have hmentions : mentions "f(y)" = ["y"] := by cbv
  have hcallees : callees "f(y)" = ["f"] := by cbv
  have hbody : ∀ f : Formula, (Std.TreeMap.ofList [("f", Callable.formula ⟨["x"], "x+z"⟩)])["f"]? = some (.formula f) →
      callees f.body = [] := by
    intro f hf
    cases hf
    cbv
  have hreaches : ∀ name, CallGraph.Reaches (Std.TreeMap.ofList [("f", Callable.formula ⟨["x"], "x+z"⟩)]) "f(y)" name →
      name = "f" := by
    rintro name ⟨first, hfirst, hpath⟩
    rw [hcallees, List.mem_singleton] at hfirst
    induction hpath with
    | refl => exact hfirst
    | tail _ hcall ih =>
      obtain ⟨f, hf, hcallee⟩ := hcall
      rw [ih] at hf
      rw [hbody f hf] at hcallee
      cases hcallee
  have hz : "z" ∉ mentions "f(y)" := by
    rw [hmentions]
    decide
  have hg : ¬ CallGraph.Reaches (Std.TreeMap.ofList [("f", Callable.formula ⟨["x"], "x+z"⟩)]) "f(y)" "g" :=
    fun h => absurd (hreaches "g" h) (by decide)
  have hrun : ∀ y : Float, Environment.evaluate ⟨Std.TreeMap.ofList [("y", y)],
      Std.TreeMap.ofList [("f", Callable.formula ⟨["x"], "x+z"⟩)], {}⟩ "f(y)" = .error (.unknownConstant "z") := by
    intro y
    cbv
  have hconstants : ∀ name ∈ mentions "f(y)", name ≠ "z" := fun name hname he => hz (he ▸ hname)
  have hfunctions : ∀ name, CallGraph.Reaches (Std.TreeMap.ofList [("f", Callable.formula ⟨["x"], "x+z"⟩)]) "f(y)"
      name → name ≠ "g" := fun name hname he => hg (he ▸ hname)
  have hagree := (Environment.evaluate_eq_of_agree ⟨Std.TreeMap.ofList [("y", (1 : Float))], _, {}⟩ "f(y)").1 _ _
    (fun name hname => getElem?_insert_of_ne _ (hconstants name hname) 2)
    (fun name hname => getElem?_insert_of_ne _ (hfunctions name hname) (Callable.formula ⟨[], "z"⟩))
  exact ⟨hz, hg, hagree.symm.trans (hrun 1)⟩

end Calculator
