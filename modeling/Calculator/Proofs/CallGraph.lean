import Calculator.Function.Table
import Calculator.Proofs.Calls
import Mathlib.Data.Nat.SuccPred
import Mathlib.Logic.Relation
import Mathlib.Order.SuccPred.Archimedean

/-!
# The call graph of a text

The functions that a text calls, and those that the bodies of called formulas call, form a graph that depends on the
table of functions alone.  `admits functions levels name` tests whether every function that a call of `name` leads to
is in the table, with no more than `levels` formulas one inside the other.

* `defined_of_admits`, `not_transGen_of_admits`: then the graph is defined everywhere and has no cycle;
* `all_admits_eq`: the levels that are enough are those from the length of the longest chain of formulas on.
-/

namespace Calculator

/-- The functions that a text calls. -/
def callees (text : String) : List String :=
  match tokenize text with
  | .ok stream => Token.callNames stream.lexemes
  | .error _ => []

theorem callees_of_tokenize {text : String} {stream : TokenStream} (h : tokenize text = .ok stream) :
    callees text = Token.callNames stream.lexemes := by
  rw [callees, h]

namespace CallGraph

/-- `Calls functions name callee`: the body of the formula `name` calls `callee`. -/
def Calls (functions : FunctionTable) (name callee : String) : Prop :=
  ∃ f, functions[name]? = some (.formula f) ∧ callee ∈ callees f.body

/-- `Reaches functions text name`: the text calls `name`, itself or through the bodies of formulas. -/
def Reaches (functions : FunctionTable) (text name : String) : Prop :=
  ∃ callee ∈ callees text, Relation.ReflTransGen (Calls functions) callee name

/-- `Chain functions text names`: the text calls the first of the formulas `names`, and each calls the next. -/
inductive Chain (functions : FunctionTable) : (text : String) → (names : List String) → Prop where
  | nil (text : String) : Chain functions text []
  | cons {text name : String} {f : Formula} {names : List String} (hname : name ∈ callees text)
      (hf : functions[name]? = some (.formula f)) (hnames : Chain functions f.body names) :
      Chain functions text (name :: names)

/-- Whether all functions that a call of `name` leads to are defined, with at most `levels` formulas in a chain. -/
def admits (functions : FunctionTable) : (levels : Nat) → (name : String) → Bool
  | 0, name =>
    match functions[name]? with
    | some (.native _) => true
    | _ => false
  | levels + 1, name =>
    match functions[name]? with
    | some (.native _) => true
    | some (.formula f) => (callees f.body).all (admits functions levels)
    | none => false

variable {functions : FunctionTable}

theorem admits_native {name : String} {f : Native} (h : functions[name]? = some (.native f)) (levels : Nat) :
    admits functions levels name = true := by
  cases levels with
  | zero => rw [admits, h]
  | succ levels => rw [admits, h]

theorem admits_formula_zero {name : String} {f : Formula} (h : functions[name]? = some (.formula f)) :
    admits functions 0 name = false := by
  rw [admits, h]

theorem admits_formula_succ {name : String} {f : Formula} (h : functions[name]? = some (.formula f)) (levels : Nat) :
    admits functions (levels + 1) name = (callees f.body).all (admits functions levels) := by
  rw [admits, h]

/-! ### Following calls -/

theorem exists_of_admits {levels : Nat} {name : String} (h : admits functions levels name = true) :
    ∃ callable, functions[name]? = some callable := by
  cases hf : functions[name]? with
  | some callable => exact ⟨callable, rfl⟩
  | none => cases levels <;> simp [admits, hf] at h

theorem admits_lt_of_calls {levels : Nat} {name callee : String} (hc : Calls functions name callee)
    (h : admits functions levels name = true) : ∃ levels' < levels, admits functions levels' callee = true := by
  obtain ⟨f, hf, hmem⟩ := hc
  cases levels with
  | zero =>
    rw [admits_formula_zero hf] at h
    cases h
  | succ levels =>
    rw [admits_formula_succ hf] at h
    exact ⟨levels, Nat.lt_succ_self levels, List.all_eq_true.1 h callee hmem⟩

theorem admits_lt_of_transGen {levels : Nat} {name callee : String}
    (hc : Relation.TransGen (Calls functions) name callee) (h : admits functions levels name = true) :
    ∃ levels' < levels, admits functions levels' callee = true := by
  induction hc with
  | single hc => exact admits_lt_of_calls hc h
  | tail _ hc ih =>
    obtain ⟨levels', hlt, h'⟩ := ih
    obtain ⟨levels'', hlt', h''⟩ := admits_lt_of_calls hc h'
    exact ⟨levels'', Nat.lt_trans hlt' hlt, h''⟩

/-- A function that calls itself, directly or not, is admitted at no number of levels. -/
theorem not_admits_of_transGen {name : String} (hc : Relation.TransGen (Calls functions) name name) (levels : Nat) :
    admits functions levels name = false := by
  -- once around the cycle, fewer levels are left
  induction levels using Nat.strong_induction_on with
  | _ levels ih =>
    by_contra h
    obtain ⟨levels', hlt, h'⟩ := admits_lt_of_transGen hc (Bool.not_eq_false _ ▸ h)
    rw [ih levels' hlt] at h'
    cases h'

theorem exists_admits_of_reaches {levels : Nat} {text name : String}
    (h : (callees text).all (admits functions levels) = true) (hr : Reaches functions text name) :
    ∃ levels', admits functions levels' name = true := by
  obtain ⟨callee, hmem, hpath⟩ := hr
  have hcallee : admits functions levels callee = true := List.all_eq_true.1 h callee hmem
  rcases Relation.reflTransGen_iff_eq_or_transGen.1 hpath with rfl | hpath
  · exact ⟨levels, hcallee⟩
  · obtain ⟨levels', -, hname⟩ := admits_lt_of_transGen hpath hcallee
    exact ⟨levels', hname⟩

/-- All functions that an admitted text reaches are defined. -/
theorem defined_of_admits {levels : Nat} {text name : String}
    (h : (callees text).all (admits functions levels) = true) (hr : Reaches functions text name) :
    ∃ callable, functions[name]? = some callable := by
  obtain ⟨levels', hname⟩ := exists_admits_of_reaches h hr
  exact exists_of_admits hname

/-- No function that an admitted text reaches lies on a cycle. -/
theorem not_transGen_of_admits {levels : Nat} {text name : String}
    (h : (callees text).all (admits functions levels) = true) (hr : Reaches functions text name) :
    ¬ Relation.TransGen (Calls functions) name name := by
  intro hcycle
  obtain ⟨levels', hname⟩ := exists_admits_of_reaches h hr
  rw [not_admits_of_transGen hcycle levels'] at hname
  cases hname

/-! ### The lengths of chains -/

theorem length_le_of_admits {text : String} {names : List String} (hc : Chain functions text names) :
    ∀ {levels : Nat}, (callees text).all (admits functions levels) = true → names.length ≤ levels := by
  induction hc with
  | nil text =>
    intro levels _
    exact Nat.zero_le levels
  | cons hname hf _ ih =>
    intro levels h
    have hadmits := List.all_eq_true.1 h _ hname
    cases levels with
    | zero =>
      rw [admits_formula_zero hf] at hadmits
      cases hadmits
    | succ levels =>
      rw [admits_formula_succ hf] at hadmits
      exact Nat.succ_le_succ (ih hadmits)

/-- Where all functions are defined, the length of the longest chain is enough. -/
theorem admits_of_length_le {levels : Nat} {text : String}
    (hdef : ∀ name, Reaches functions text name → ∃ callable, functions[name]? = some callable)
    (hlen : ∀ names, Chain functions text names → names.length ≤ levels) :
    (callees text).all (admits functions levels) = true := by
  rw [List.all_eq_true]
  intro name hmem
  obtain ⟨callable, hf⟩ := hdef name ⟨name, hmem, .refl⟩
  cases callable with
  | native f => exact admits_native hf levels
  | formula f =>
    have hpos : 1 ≤ levels := hlen [name] (.cons hmem hf (.nil f.body))
    cases levels with
    | zero => omega
    | succ levels =>
      -- behind `name` the chains are shorter by one
      rw [admits_formula_succ hf]
      refine admits_of_length_le ?_ ?_
      · rintro name' ⟨callee, hcallee, hpath⟩
        exact hdef name' ⟨name, hmem, .head ⟨f, hf, hcallee⟩ hpath⟩
      · intro names hnames
        exact Nat.le_of_succ_le_succ (hlen (name :: names) (.cons hmem hf hnames))

/-- The lengths of the chains that start at a text. -/
def lengths (functions : FunctionTable) (text : String) : Set Nat :=
  {k | ∃ names, Chain functions text names ∧ names.length = k}

theorem exists_isGreatest_lengths {levels : Nat} {text : String}
    (h : (callees text).all (admits functions levels) = true) :
    ∃ height ≤ levels, IsGreatest (lengths functions text) height := by
  have hbound : ∀ k ∈ lengths functions text, k ≤ levels := by
    rintro k ⟨names, hnames, rfl⟩
    exact length_le_of_admits hnames h
  have hne : (lengths functions text).Nonempty := ⟨0, [], .nil text, rfl⟩
  obtain ⟨height, hheight⟩ := BddAbove.exists_isGreatest_of_nonempty ⟨levels, hbound⟩ hne
  exact ⟨height, hbound height hheight.1, hheight⟩

/-- Where all functions are defined, a text is admitted exactly at the levels from its height on. -/
theorem all_admits_eq {text : String} {height : Nat}
    (hdef : ∀ name, Reaches functions text name → ∃ callable, functions[name]? = some callable)
    (hheight : IsGreatest (lengths functions text) height) (levels : Nat) :
    (callees text).all (admits functions levels) = decide (height ≤ levels) := by
  obtain ⟨⟨names, hnames, rfl⟩, hupper⟩ := hheight
  rw [Bool.eq_iff_iff, decide_eq_true_iff]
  constructor
  · intro h
    exact length_le_of_admits hnames h
  · intro hle
    refine admits_of_length_le hdef fun names' hnames' => ?_
    exact Nat.le_trans (hupper ⟨names', hnames', rfl⟩) hle

end CallGraph

end Calculator
