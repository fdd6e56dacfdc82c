import Calculator.Console.Transcript
import Calculator.Proofs.Registration

/-!
# Lines one after another

The console answers lines in the environment that the lines before them left (`Console.answers_append`).  A line may
define a function but never a constant, so the constants stay the built-in ones (`Console.getElem?_constants_after`).
A line without any blank is no definition, and it is evaluated as it stands (`Console.answer_of_unblank`).
-/

namespace Calculator

theorem Text.trim_of_unblank {s : List Char} (h : ∀ c ∈ s, isBlank c = false) : trim s = s := by
  have hdrop : ∀ {t : List Char}, (∀ c ∈ t, isBlank c = false) → dropBlanks t = t := by
    intro t ht
    cases t with
    | nil => rfl
    | cons c t =>
      have hc : ¬ isBlank c = true := Bool.eq_false_iff.1 (ht c List.mem_cons_self)
      exact List.dropWhile_cons_of_neg hc
  rw [trim, hdrop h, hdrop fun c hc => h c (List.mem_reverse.1 hc), List.reverse_reverse]

theorem Definition.parse?_of_unblank {s : List Char} (h : ∀ c ∈ s, Text.isBlank c = false) : parse? s = none := by
  unfold parse?
  split
  · -- the word `def` ends with a space
    exact absurd (h ' ' (by simp)) (by decide)
  · rfl

namespace Console

/-- The environment after some lines. -/
def after (env : Environment) (lines : List (List Char)) : Environment :=
  lines.foldl (fun env line => (answer env line).1) env

variable (env : Environment)

/-- All that can happen to a line: its definition is accepted or rejected, it is blank, or it is evaluated. -/
theorem answer_cases (line : List Char) :
    (∃ d env', Definition.parse? (Text.trim line) = some d ∧ env.define d = .ok env' ∧
      answer env line = (env', some ("defined " ++ d.name))) ∨
    (∃ d e, Definition.parse? (Text.trim line) = some d ∧ env.define d = .error e ∧
      answer env line = (env, some ("Error: " ++ e.message))) ∨
    (Text.trim line = [] ∧ answer env line = (env, none)) ∨
    (Definition.parse? (Text.trim line) = none ∧ Text.trim line ≠ [] ∧
      answer env line = (env, some (showResult (env.evaluate (String.ofList (Text.trim line)))))) := by
  unfold answer
  dsimp only
  cases hparse : Definition.parse? (Text.trim line) with
  | some d =>
    cases hdefine : env.define d with
    | ok env' => exact Or.inl ⟨d, env', rfl, hdefine, by simp only [hdefine]⟩
    | error e => exact Or.inr (Or.inl ⟨d, e, rfl, hdefine, by simp only [hdefine]⟩)
  | none =>
    by_cases hblank : Text.trim line = []
    · exact Or.inr (Or.inr (Or.inl ⟨hblank, if_pos hblank⟩))
    · exact Or.inr (Or.inr (Or.inr ⟨rfl, hblank, if_neg hblank⟩))

theorem answers_append (lines lines' : List (List Char)) :
    answers env (lines ++ lines') = answers env lines ++ answers (after env lines) lines' := by
  induction lines generalizing env with
  | nil => rfl
  | cons line lines ih =>
    show (answer env line).2 :: answers (answer env line).1 (lines ++ lines') = _
    rw [ih]
    rfl

theorem answer_of_unblank {line : List Char} (hne : line ≠ []) (h : ∀ c ∈ line, Text.isBlank c = false) :
    answer env line = (env, some (showResult (env.evaluate (String.ofList line)))) := by
  simp only [answer, Text.trim_of_unblank h, Definition.parse?_of_unblank h, if_neg hne]

theorem constants_answer (line : List Char) : (answer env line).1.constants = env.constants := by
  unfold answer
  dsimp only
  split
  · rename_i d _
    rw [Environment.define]
    cases Formula.make d.params d.body <;> rfl
  · split <;> rfl

theorem constants_after (lines : List (List Char)) : (after env lines).constants = env.constants := by
  induction lines generalizing env with
  | nil => rfl
  | cons line lines ih => exact (ih _).trans (constants_answer env line)

theorem initial_eq : initial = Environment.enter {} Builtins.constants Builtins.functions := by
  rw [initial, Environment.registerBuiltins_eq]

/-- No line gives a value to a name that is not built in. -/
theorem getElem?_constants_after (lines : List (List Char)) {name : String}
    (h : ∀ entry ∈ Builtins.constants, entry.1 ≠ name) : (after initial lines).constants[name]? = none := by
  rw [constants_after, initial_eq]
  show ((∅ : ConstantTable).insertMany Builtins.constants)[name]? = none
  rw [getElem?_insertMany_eq_lookup, Std.TreeMap.getElem?_emptyc, Option.or_none, List.lookup_eq_none_iff]
  intro entry hentry
  exact bne_iff_ne.2 (Ne.symm (h entry (List.mem_reverse.1 hentry)))

end Console

end Calculator
