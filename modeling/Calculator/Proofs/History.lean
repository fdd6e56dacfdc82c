import Calculator.Proofs.ReadBack

/-!
# What an answer depends on

Of the lines before it, the answer to a line depends on the accepted definitions alone: each of them enters a formula,
and every other line leaves the environment as it was (`Console.definition?_cases`).  So the environment after some
lines is that of their accepted definitions (`Console.foldlM_define_filterMap`), and lines that were not answered as
accepted definitions can be taken out of a dialogue (`Console.answers_of_sublist`).

Whether a line is an accepted definition can be told from its answer, for neither an error nor a value is shown by a
text that begins in the same way (`Console.isSome_definition?`).
-/

namespace Calculator.Console

/-- The definition that a line enters: the line has the form of one, and its parameters fit its body. -/
def definition? (line : List Char) : Option Definition :=
  (Definition.parse? (Text.trim line)).filter fun d => (Formula.make d.params d.body).isOk

/-- Whether an answer says that a function was defined. -/
def accepts : Option String → Bool
  | some reply => "defined ".toList.isPrefixOf reply.toList
  | none => false

/-- The lines with their answers. -/
def dialogue (env : Environment) (lines : List (List Char)) : List (List Char × Option String) :=
  lines.zip (answers env lines)

variable {env : Environment}

/-! ### One line -/

theorem not_accepts_error (message : String) : accepts (some ("Error: " ++ message)) = false := by
  rw [accepts, String.toList_append]
  rfl

/-- A number is written without blanks, and so not as the answer to a definition. -/
theorem not_accepts_showResult (r : Except EvalError Float) : accepts (some (showResult r)) = false := by
  cases r with
  | error e => exact not_accepts_error e.message
  | ok value =>
    rw [Bool.eq_false_iff]
    intro h
    have hprefix : "defined ".toList <+: (Numeral.write value).toList := List.isPrefixOf_iff_prefix.1 h
    have hmem : ' ' ∈ (Numeral.write value).toList := hprefix.subset (by decide)
    have hunblank := (Numeral.unblank_write value).2 ' ' hmem
    exact absurd hunblank (by decide)

theorem accepts_defined (name : String) : accepts (some ("defined " ++ name)) = true := by
  rw [accepts, String.toList_append]
  exact List.isPrefixOf_iff_prefix.2 (List.prefix_append _ _)

/-- The formula of a definition decides whether it is accepted. -/
theorem isOk_define (env : Environment) (d : Definition) :
    (env.define d).isOk = (Formula.make d.params d.body).isOk := by
  rw [Environment.define]
  cases Formula.make d.params d.body <;> rfl

/-- A line enters its definition, if it is an accepted one, or else nothing; and its answer tells which. -/
theorem definition?_cases (env : Environment) (line : List Char) :
    (∃ d env', definition? line = some d ∧ env.define d = .ok env' ∧ (answer env line).1 = env' ∧
      accepts (answer env line).2 = true) ∨
    (definition? line = none ∧ (answer env line).1 = env ∧ accepts (answer env line).2 = false) := by
  have hok : ∀ d, Definition.parse? (Text.trim line) = some d →
      definition? line = if (env.define d).isOk = true then some d else none := by
    intro d hd
    rw [definition?, hd, isOk_define]
    rfl
  rcases answer_cases env line with ⟨d, env', hd, hdefine, h⟩ | ⟨d, e, hd, hdefine, h⟩ | ⟨hblank, h⟩ | ⟨hd, -, h⟩
  · refine Or.inl ⟨d, env', ?_, hdefine, by rw [h], by rw [h, accepts_defined]⟩
    rw [hok d hd, hdefine]
    rfl
  · refine Or.inr ⟨?_, by rw [h], by rw [h, not_accepts_error]⟩
    rw [hok d hd, hdefine]
    rfl
  · refine Or.inr ⟨?_, by rw [h], by rw [h, accepts]⟩
    rw [definition?, hblank]
    rfl
  · refine Or.inr ⟨?_, by rw [h], by rw [h, not_accepts_showResult]⟩
    rw [definition?, hd]
    rfl

/-- The answer tells whether the line is an accepted definition, in every environment. -/
theorem isSome_definition? (env : Environment) (line : List Char) :
    (definition? line).isSome = accepts (answer env line).2 := by
  rcases definition?_cases env line with ⟨d, env', hd, -, -, h⟩ | ⟨hd, -, h⟩
  · rw [hd, h]
    rfl
  · rw [hd, h]
    rfl

/-! ### Many lines -/

/-- The environment after some lines is the one that their accepted definitions make, in their order. -/
theorem foldlM_define_filterMap (env : Environment) (lines : List (List Char)) :
    (lines.filterMap definition?).foldlM Environment.define env = .ok (after env lines) := by
  induction lines generalizing env with
  | nil => rfl
  | cons line lines ih =>
    show _ = Except.ok (after (answer env line).1 lines)
    rcases definition?_cases env line with ⟨d, env', hd, hdefine, henv, -⟩ | ⟨hd, henv, -⟩
    · rw [List.filterMap_cons_some hd, List.foldlM_cons, hdefine, ok_bind, ih, henv]
    · rw [List.filterMap_cons_none hd, ih, henv]

theorem length_answers (env : Environment) (lines : List (List Char)) :
    (answers env lines).length = lines.length := by
  induction lines generalizing env with
  | nil => rfl
  | cons line lines ih => exact congrArg (· + 1) (ih _)

theorem getElem?_answers (env : Environment) (before later : List (List Char)) (line : List Char) :
    (answers env (before ++ line :: later))[before.length]? = some (answer (after env before) line).2 := by
  rw [answers_append, List.getElem?_append_right (Nat.le_of_eq (length_answers env before)), length_answers,
    Nat.sub_self]
  rfl

/-- What is left of a dialogue, if no accepted definition was taken out of it, is again a dialogue. -/
theorem answers_of_sublist {lines : List (List Char)} {rest : List (List Char × Option String)}
    (hsub : rest.Sublist (dialogue env lines))
    (hkept : rest.filter (accepts ·.2) = (dialogue env lines).filter (accepts ·.2)) :
    answers env (rest.map Prod.fst) = rest.map Prod.snd := by
  induction lines generalizing env rest with
  | nil =>
    rw [List.sublist_nil.1 hsub]
    rfl
  | cons line lines ih =>
    have hdialogue : dialogue env (line :: lines) =
        (line, (answer env line).2) :: dialogue (answer env line).1 lines := rfl
    rw [hdialogue] at hsub hkept
    cases hsub with
    | cons _ hsub =>
      -- the line is taken out, so it was no accepted definition
      have hnot : ¬ accepts (answer env line).2 = true := by
        intro haccepts
        have hlength := (hsub.filter (accepts ·.2)).length_le
        simp only [hkept, List.filter_cons, haccepts, if_true, List.length_cons] at hlength
        omega
      have hsame : (answer env line).1 = env := by
        rcases definition?_cases env line with ⟨d, env', -, -, -, h⟩ | ⟨-, henv, -⟩
        · exact absurd h hnot
        · exact henv
      simp only [List.filter_cons, hnot] at hkept
      rw [hsame] at hsub hkept
      exact ih hsub hkept
    | cons_cons _ hsub =>
      rename_i rest
      have hkept' : rest.filter (accepts ·.2) = (dialogue (answer env line).1 lines).filter (accepts ·.2) := by
        simp only [List.filter_cons] at hkept
        split at hkept
        · exact (List.cons.inj hkept).2
        · exact hkept
      show (answer env line).2 :: answers (answer env line).1 (rest.map Prod.fst) = _
      rw [ih hsub hkept']
      rfl

/-- Sessions depend on the accepted definitions alone.  The answer to a line is the answer that it gets where only the
built-in names and the accepted definitions before it were entered, in their order; and which lines these are shows in
their answers.  Lines that were not answered as accepted definitions can be taken out, and all other lines keep their
answers.  The answers to the first lines do not depend on what follows. -/
theorem answers_eq_of_definitions :
    (∀ (before later : List (List Char)) (line : List Char), ∃ env,
      (Environment.registerBuiltins {} >>= fun env => (before.filterMap definition?).foldlM Environment.define env) =
        .ok env ∧
      (answers initial (before ++ line :: later))[before.length]? = some (answer env line).2) ∧
    (∀ (env : Environment) (line : List Char), (definition? line).isSome = accepts (answer env line).2) ∧
    (∀ (lines : List (List Char)) (rest : List (List Char × Option String)), rest.Sublist (dialogue initial lines) →
      rest.filter (accepts ·.2) = (dialogue initial lines).filter (accepts ·.2) →
      answers initial (rest.map Prod.fst) = rest.map Prod.snd) ∧
    ∀ before later : List (List Char),
      (answers initial (before ++ later)).take before.length = answers initial before := by
  refine ⟨fun before later line => ⟨after initial before, ?_, getElem?_answers initial before later line⟩,
    isSome_definition?, fun lines rest hsub hkept => answers_of_sublist hsub hkept, fun before later => ?_⟩
  · rw [Environment.registerBuiltins_eq, ok_bind, ← initial_eq, foldlM_define_filterMap]
  · rw [answers_append, ← length_answers initial before, List.take_left]

/-- A definition of `f` that is rejected and a blank line are taken out, and `f` still has one parameter. -/
theorem answers_eq_of_definitions_rejected :
    dialogue initial ["def f(x) = x".toList, "def f(y, y) = y".toList, " ".toList, "f()".toList] =
      [("def f(x) = x".toList, some "defined f"),
        ("def f(y, y) = y".toList, some "Error: Parameter 'y' is declared more than once"), (" ".toList, none),
        ("f()".toList, some "Error: Expected 1 arguments, but got 0")] ∧
    answers initial ["def f(x) = x".toList, "f()".toList] =
      [some "defined f", some "Error: Expected 1 arguments, but got 0"] := by
  let env : Environment := initial.setFunction "f" (.formula ⟨["x"], "x"⟩)
  have hmake : Formula.make ["x"] "x" = .ok ⟨["x"], "x"⟩ := by cbv
  have hmake' : Formula.make ["y", "y"] "y" = .error (.duplicateParameter "y") := by cbv
  have hparse : Definition.parse? (Text.trim "def f(x) = x".toList) = some ⟨"f", ["x"], "x"⟩ := by decide
  have hparse' : Definition.parse? (Text.trim "def f(y, y) = y".toList) = some ⟨"f", ["y", "y"], "y"⟩ := by decide
  have hdefine : answer initial "def f(x) = x".toList = (env, some "defined f") := by
    simp only [answer, hparse, Environment.define, hmake]
    rfl
  have hreject : answer env "def f(y, y) = y".toList =
      (env, some "Error: Parameter 'y' is declared more than once") := by
    simp only [answer, hparse', Environment.define, hmake']
    rfl
  have hblank : answer env " ".toList = (env, none) := rfl
  have hcall : env.evaluate "f()" = .error (.argumentCount 1 0) := by
    have hname : IsName "f".toList := ⟨'f', [], rfl, rfl, List.forall_mem_nil _⟩
    have hf : env.functions["f"]? = some (.formula ⟨["x"], "x"⟩) := Std.TreeMap.getElem?_insert_self
    have hlimits : env.limits = {} := by
      show initial.limits = {}
      rw [initial_eq]
      rfl
    have hvalue : env.evaluate (callText "f" []) = _ := Scope.evaluateText_callText _ hname .nil
    rw [Scope.function_atDepth hf, ok_bind, hlimits] at hvalue
    exact hvalue
  have hevaluate : answer env "f()".toList = (env, some "Error: Expected 1 arguments, but got 0") := by
    have htext : String.ofList (Text.trim "f()".toList) = "f()" := rfl
    have hparse'' : Definition.parse? (Text.trim "f()".toList) = none := rfl
    simp only [answer, hparse'', htext, hcall]
    rfl
  have hdialogue : dialogue initial ["def f(x) = x".toList, "def f(y, y) = y".toList, " ".toList, "f()".toList] =
      [("def f(x) = x".toList, some "defined f"),
        ("def f(y, y) = y".toList, some "Error: Parameter 'y' is declared more than once"), (" ".toList, none),
        ("f()".toList, some "Error: Expected 1 arguments, but got 0")] := by
    simp only [dialogue, answers, hdefine, hreject, hblank, hevaluate]
    rfl
  have hsub : [("def f(x) = x".toList, some "defined f"),
      ("f()".toList, some "Error: Expected 1 arguments, but got 0")].Sublist
        (dialogue initial ["def f(x) = x".toList, "def f(y, y) = y".toList, " ".toList, "f()".toList]) := by
    rw [hdialogue]
    exact .cons_cons _ (.cons _ (.cons _ (.cons_cons _ .slnil)))
  have hkept : [("def f(x) = x".toList, some "defined f"),
      ("f()".toList, some "Error: Expected 1 arguments, but got 0")].filter (accepts ·.2) =
        (dialogue initial ["def f(x) = x".toList, "def f(y, y) = y".toList, " ".toList, "f()".toList]).filter
          (accepts ·.2) := by
    rw [hdialogue]
    rfl
  obtain ⟨-, -, hrest, -⟩ := answers_eq_of_definitions
  exact ⟨hdialogue, hrest _ _ hsub hkept⟩

end Calculator.Console
