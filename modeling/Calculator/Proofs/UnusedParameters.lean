import Calculator.Proofs.Isolation
import Calculator.Proofs.Parameters

/-!
# Unused parameters

Whether a parameter is used is decided by a search in the body that takes no notice of tokens.  Every token is a part
of its text, so the search never misses a use: a parameter that is not found is no token of the body, and the outcome
of the body does not depend on a constant of that name (`Formula.evaluateText_eq_of_unusedParameter`).
-/

namespace Calculator

/-! ### Tokens are parts of their text -/

/-- The text of a token in a layout is a part of the text of the layout. -/
theorem Layout.infix_of_mem_tokens {l : Layout} {t : Token} (h : t ∈ l.tokens) : t.text.toList <:+: l.text := by
  obtain ⟨items, final⟩ := l
  show t.text.toList <:+: render final items
  have h' : t ∈ items.map fun item => item.2.val := h
  clear h
  induction items with
  | nil => cases h'
  | cons item items ih =>
    obtain ⟨blanks, u⟩ := item
    rw [render]
    rcases List.mem_cons.1 h' with rfl | h'
    · exact ⟨blanks.val, render final items, List.append_assoc _ _ _⟩
    · -- what follows the blanks and the first token is a suffix
      rw [← List.append_assoc]
      exact (ih h').trans (List.suffix_append _ _).isInfix

/-- The text of a token is a part of the text that was split. -/
theorem infix_of_mem_lexemes {text : String} {stream : TokenStream} (ht : tokenize text = .ok stream) {t : Token}
    (h : t ∈ stream.lexemes) : t.text.toList <:+: text.toList := by
  obtain ⟨ts⟩ := stream
  obtain ⟨l, htext, rfl, -⟩ := exists_layout_of_lexemes (tokenize_eq_ok_iff.1 ht)
  rw [← htext]
  exact Layout.infix_of_mem_tokens h

/-- A constant that a text mentions is a part of the text. -/
theorem infix_of_mem_mentions {text name : String} (h : name ∈ mentions text) : name.toList <:+: text.toList := by
  cases ht : tokenize text with
  | error e =>
    rw [mentions, ht] at h
    cases h
  | ok stream =>
    rw [mentions_of_tokenize ht] at h
    obtain ⟨us, hus, -⟩ := Token.mem_namesBefore.1 h
    have hmem : ⟨.identifier, name⟩ ∈ stream.lexemes := hus.mem List.mem_cons_self
    exact infix_of_mem_lexemes (t := ⟨.identifier, name⟩) ht hmem

/-! ### Definitions rejected for an unused parameter -/

namespace Formula

variable {params : List String} {body name : String}

theorem not_infix_of_unusedParameter (h : make params body = .error (.unusedParameter name)) :
    ¬ name.toList <:+: body.toList := by
  obtain ⟨i, other, -, -, hdefect⟩ := exists_isLeast_of_make h
  cases hdefect with
  | unused _ _ hoccurs => exact hoccurs

/-- If a definition is rejected for an unused parameter, then its body cannot read the parameter.  No token of the body
is that identifier, neither if the body splits into tokens nor before a place where none begins; and whatever the
tables, the limits and the depth are, the body has the same value or the same error with any two values of that name, or
with none. -/
theorem evaluateText_eq_of_unusedParameter (h : make params body = .error (.unusedParameter name)) :
    (∀ stream, tokenize body = .ok stream → ⟨.identifier, name⟩ ∉ stream.lexemes) ∧
    (∀ (l : Layout) (rest : List Char), body.toList = l.text ++ rest → ⟨.identifier, name⟩ ∉ l.tokens) ∧
    ∀ (functions : FunctionTable) (limits : Limits) (depth : Nat) (constants constants' : ConstantTable),
      (∀ other, other ≠ name → constants[other]? = constants'[other]?) →
      (Scope.atDepth functions limits depth constants).evaluateText body =
        (Scope.atDepth functions limits depth constants').evaluateText body := by
  have hnot : ¬ name.toList <:+: body.toList := not_infix_of_unusedParameter h
  refine ⟨fun stream ht hmem => ?_, fun l rest hbody hmem => ?_, ?_⟩
  · exact hnot (infix_of_mem_lexemes (t := ⟨.identifier, name⟩) ht hmem)
  · have hpart : name.toList <:+: l.text := Layout.infix_of_mem_tokens (t := ⟨.identifier, name⟩) hmem
    rw [hbody] at hnot
    exact hnot (hpart.trans (List.prefix_append l.text rest).isInfix)
  · intro functions limits depth constants constants' hagree
    refine Scope.evaluateText_nested_congr limits (limits.callDepth - depth) (fun other hother => ?_) fun _ _ => rfl
    have hne : other ≠ name := fun he => hnot (he ▸ infix_of_mem_mentions hother)
    exact hagree other hne

/-- The parameter `xy` is unused in `f(x)`.  A constant `xy` makes no difference there, although the body of `f` reads a
parameter of that name. -/
theorem evaluateText_eq_of_unusedParameter_callee :
    make ["x", "xy"] "f(x)" = .error (.unusedParameter "xy") ∧
    (∀ other, other ≠ "xy" →
      (Std.TreeMap.ofList [("x", (2 : Float))])[other]? =
        ((Std.TreeMap.ofList [("x", (2 : Float))]).insert "xy" 5)[other]?) ∧
    (Scope.atDepth (Std.TreeMap.ofList [("f", Callable.formula ⟨["xy"], "xy"⟩)]) {} 0
      ((Std.TreeMap.ofList [("x", (2 : Float))]).insert "xy" 5)).evaluateText "f(x)" = .ok 2 := by
  have hmake : make ["x", "xy"] "f(x)" = .error (.unusedParameter "xy") := by cbv
  have hwithout : ∀ x : Float,
      (Scope.atDepth (Std.TreeMap.ofList [("f", Callable.formula ⟨["xy"], "xy"⟩)]) {} 0
        (Std.TreeMap.ofList [("x", x)])).evaluateText "f(x)" = .ok x := by
    intro x
    cbv
  have hagree : ∀ other, other ≠ "xy" → (Std.TreeMap.ofList [("x", (2 : Float))])[other]? =
      ((Std.TreeMap.ofList [("x", (2 : Float))]).insert "xy" 5)[other]? :=
    fun other hother => getElem?_insert_of_ne _ hother 5
  obtain ⟨-, -, hsame⟩ := evaluateText_eq_of_unusedParameter hmake
  exact ⟨hmake, hagree, (hsame _ {} 0 _ _ hagree).symm.trans (hwithout 2)⟩

end Formula

end Calculator
