import Calculator.Proofs.Inlining
import Calculator.Proofs.Juxtaposition

/-!
# Calling a formula in a text

The text of a call is the name of a function and, in parentheses, the texts of the arguments with commas between them.
A comma and a parenthesis separate, so the tokens of the call are put together from those of the arguments
(`tokenize_callText`).  The evaluation of the call of a formula then invokes the formula inside no other call, which is
what `Formula.callWith` does directly: `evaluate_callText_eq_callWith`.
-/

namespace Calculator

/-- The text of a call. -/
def callText (name : String) (args : List String) : String :=
  name ++ "(" ++ ",".intercalate args ++ ")"

theorem toList_callText (name : String) (args : List String) :
    (callText name args).toList = name.toList ++ '(' :: ([','].intercalate (args.map String.toList) ++ [')']) := by
  rw [callText, String.toList_append, String.toList_append, String.toList_append, String.toList_intercalate]
  simp only [List.append_assoc]
  rfl

/-! ### The tokens of a call -/

namespace Token

theorem lexemes_symbol_cons (kind : Kind) {c : Char} (h : kind.symbol? = some c) (s : List Char) :
    lexemes (c :: s) = (lexemes s).map (⟨kind, String.ofList [c]⟩ :: ·) := by
  have hends : EndsBefore ⟨kind, String.ofList [c]⟩ s := by
    cases kind <;> cases h <;> trivial
  have hlexemes := lexemes_token_append ⟨⟨kind, String.ofList [c]⟩, .symbol h⟩ hends
  rwa [String.toList_ofList] at hlexemes

/-- An identifier before a symbol is split off. -/
theorem lexemes_name_append {name : String} (hname : IsName name.toList) {c : Char} (hc : Separates c)
    (s : List Char) : lexemes (name.toList ++ c :: s) = (lexemes (c :: s)).map (⟨.identifier, name⟩ :: ·) := by
  refine lexemes_token_append ⟨⟨.identifier, name⟩, .identifier hname⟩ fun d hd => ?_
  cases hd
  exact hc.1

/-- Texts with commas between them are split one after another. -/
theorem lexemes_intercalate {texts : List (List Char)} {tss : List (List Token)}
    (h : List.Forall₂ (fun s ts => lexemes s = .ok ts) texts tss) {c : Char} (hc : Separates c) (r : List Char) :
    lexemes ([','].intercalate texts ++ c :: r) = (lexemes (c :: r)).map ([comma].intercalate tss ++ ·) := by
  have hcomma : Separates ',' := separates_of_symbol? (show Kind.comma.symbol? = some ',' from rfl)
  induction h with
  | nil =>
    show lexemes (c :: r) = (lexemes (c :: r)).map fun ts => ts
    cases lexemes (c :: r) <;> rfl
  | cons hs hrest ih =>
    cases hrest with
    | nil =>
      rw [List.intercalate_singleton, List.intercalate_singleton]
      exact lexemes_append_of_ok hc hs r
    | cons hs' hrest' =>
      rw [List.intercalate_cons_cons, List.intercalate_cons_cons, List.append_assoc, List.append_assoc,
        List.singleton_append, lexemes_append_of_ok hcomma hs, lexemes_symbol_cons .comma rfl, ih]
      cases lexemes (c :: r) with
      | error e => rfl
      | ok ts =>
        simp only [Except.map, List.append_assoc, List.singleton_append]
        rfl

end Token

/-- The tokens of a call are those of its arguments, with commas and parentheses. -/
theorem tokenize_callText {name : String} (hname : IsName name.toList) {texts : List String}
    {tss : List (List Token)} (h : List.Forall₂ (fun text ts => tokenize text = .ok ⟨ts⟩) texts tss) :
    tokenize (callText name texts) = .ok ⟨Token.call name tss⟩ := by
  have hopen : Token.Separates '(' :=
    Token.separates_of_symbol? (show Token.Kind.leftParen.symbol? = some '(' from rfl)
  have hclose : Token.Separates ')' :=
    Token.separates_of_symbol? (show Token.Kind.rightParen.symbol? = some ')' from rfl)
  have hargs : List.Forall₂ (fun s ts => Token.lexemes s = .ok ts) (texts.map String.toList) tss :=
    List.forall₂_map_left_iff.2 (h.imp fun _ _ ht => tokenize_eq_ok_iff.1 ht)
  rw [tokenize_eq_ok_iff, toList_callText, Token.lexemes_name_append hname hopen,
    Token.lexemes_symbol_cons .leftParen rfl, Token.lexemes_intercalate hargs hclose,
    Token.lexemes_symbol_cons .rightParen rfl, Token.lexemes_nil]
  rfl

/-! ### The derivation of a call -/

namespace Grammar

/-- The call of a function with any number of arguments. -/
def Atom.ofCall (name : String) : List Sum → Atom
  | [] => .callNone name
  | s :: sums => .call name (.ofSums s sums)

theorem Atom.tokens_ofCall (name : String) (sums : List Sum) :
    (ofCall name sums).tokens = Token.call name (sums.map Sum.tokens) := by
  cases sums with
  | nil => rfl
  | cons s sums => rw [ofCall, Atom.tokens, Arguments.tokens_ofSums, Token.call]

theorem Atom.value_ofCall {scope : Scope} (name : String) {sums : List Sum} {values : List Float}
    (h : List.Forall₂ (fun s value => s.value scope = .ok value) sums values) :
    (ofCall name sums).value scope = scope.function name >>= fun f => f values := by
  cases sums with
  | nil =>
    cases h
    rfl
  | cons s sums =>
    rw [ofCall, Atom.value, Arguments.values_ofSums.2 h]
    rfl

end Grammar

/-! ### The call of a formula -/

/-- A formula that is called directly is invoked inside no other call, under the default limits. -/
theorem Formula.callWith_eq_invoke (f : Formula) (args : List Float) (functions : FunctionTable) :
    f.callWith args functions = Formula.invoke functions {} 0 f args := by
  have hdepth : ¬ ({} : Limits).callDepth < 0 + 1 := by decide
  rw [callWith, bind_bind, invoke, if_neg hdepth]

theorem Scope.function_atDepth {functions : FunctionTable} {name : String} {f : Formula}
    (hf : functions[name]? = some (.formula f)) (limits : Limits) (depth : Nat) (constants : ConstantTable) :
    (atDepth functions limits depth constants).function name = .ok (Formula.invoke functions limits depth f) := by
  rw [function_eq_ok, function?_atDepth, hf]
  rfl

/-- The texts of values have derivations with these values. -/
theorem Grammar.exists_sums_of_evaluateText {scope : Scope} {texts : List String} {values : List Float}
    (h : List.Forall₂ (fun text value => scope.evaluateText text = .ok value) texts values) :
    ∃ sums : List Sum, List.Forall₂ (fun text ts => tokenize text = .ok ⟨ts⟩) texts (sums.map Sum.tokens) ∧
      List.Forall₂ (fun s value => s.value scope = .ok value) sums values := by
  induction h with
  | nil => exact ⟨[], .nil, .nil⟩
  | cons hvalue _ ih =>
    obtain ⟨sums, htokens, hvalues⟩ := ih
    obtain ⟨s, ht, hs⟩ := exists_sum_of_evaluateText hvalue
    exact ⟨s :: sums, .cons ht htokens, .cons hs hvalues⟩

/-- A name alone has the value of the constant. -/
theorem Scope.evaluateText_name (scope : Scope) {name : String} (hname : IsName name.toList) :
    scope.evaluateText name = scope.constant name := by
  have ht : tokenize name = .ok ⟨(Grammar.Atom.constant name).tokens⟩ :=
    tokenize_eq_ok_iff.2 (Token.lexemes_text ⟨⟨.identifier, name⟩, .identifier hname⟩)
  exact Grammar.Sum.evaluateText_of_tokenize scope (.product (.power (.atom (.constant name)))) ht

/-- A call whose arguments have values has the value of the function at these values, in every scope. -/
theorem Scope.evaluateText_callText (scope : Scope) {name : String} (hname : IsName name.toList)
    {texts : List String} {values : List Float}
    (h : List.Forall₂ (fun text value => scope.evaluateText text = .ok value) texts values) :
    scope.evaluateText (callText name texts) = scope.function name >>= fun f => f values := by
  obtain ⟨sums, htokens, hvalues⟩ := Grammar.exists_sums_of_evaluateText h
  let s : Grammar.Sum := .product (.power (.atom (.ofCall name sums)))
  have hs : s.tokens = Token.call name (sums.map Grammar.Sum.tokens) := Grammar.Atom.tokens_ofCall name sums
  have ht : tokenize (callText name texts) = .ok ⟨s.tokens⟩ := hs ▸ tokenize_callText hname htokens
  rw [s.evaluateText_of_tokenize scope ht]
  exact Grammar.Atom.value_ofCall name hvalues

/-- Evaluating the call of a formula is calling the formula.  If the arguments have values, then the text of the call
ends in the same value or the same error as the direct call with these values, whether the number of arguments is right
and however deeply the calls in the body are nested. -/
theorem evaluate_callText_eq_callWith {functions : FunctionTable} {name : String} {f : Formula}
    (hname : IsName name.toList) (hf : functions[name]? = some (.formula f)) {constants : ConstantTable}
    {texts : List String} {values : List Float}
    (h : List.Forall₂ (fun text value => evaluate constants functions text = .ok value) texts values) :
    evaluate constants functions (callText name texts) = f.callWith values functions := by
  obtain ⟨sums, htokens, hvalues⟩ := Grammar.exists_sums_of_evaluateText h
  let s : Grammar.Sum := .product (.power (.atom (.ofCall name sums)))
  have hs : s.tokens = Token.call name (sums.map Grammar.Sum.tokens) := Grammar.Atom.tokens_ofCall name sums
  have ht : tokenize (callText name texts) = .ok ⟨s.tokens⟩ := hs ▸ tokenize_callText hname htokens
  calc evaluate constants functions (callText name texts)
      = s.value (Scope.atDepth functions {} 0 constants) := s.evaluateText_of_tokenize _ ht
    _ = (Scope.atDepth functions {} 0 constants).function name >>= fun g => g values :=
        Grammar.Atom.value_ofCall name hvalues
    _ = Formula.invoke functions {} 0 f values := by rw [Scope.function_atDepth hf, ok_bind]
    _ = f.callWith values functions := (f.callWith_eq_invoke values functions).symm

set_option maxRecDepth 8000 in
/-- A formula that calls itself without end exceeds the same limit in both ways, and a second argument is refused before
its body is evaluated. -/
theorem evaluate_callText_eq_callWith_endless :
    IsName "f".toList ∧
    (Std.TreeMap.ofList [("f", Callable.formula ⟨["x"], "f(x)"⟩)])["f"]? = some (.formula ⟨["x"], "f(x)"⟩) ∧
    evaluate (Std.TreeMap.ofList [("c", (2 : Float))]) (Std.TreeMap.ofList [("f", Callable.formula ⟨["x"], "f(x)"⟩)])
      "c" = .ok 2 ∧
    evaluate (Std.TreeMap.ofList [("c", (2 : Float))]) (Std.TreeMap.ofList [("f", Callable.formula ⟨["x"], "f(x)"⟩)])
      "f(c)" = .error (.callDepthExceeded 64) ∧
    evaluate (Std.TreeMap.ofList [("c", (2 : Float))]) (Std.TreeMap.ofList [("f", Callable.formula ⟨["x"], "f(x)"⟩)])
      "f(c,c)" = .error (.argumentCount 1 2) := by
  have hname : IsName "f".toList := ⟨'f', [], rfl, rfl, List.forall_mem_nil _⟩
  have hf : (Std.TreeMap.ofList [("f", Callable.formula ⟨["x"], "f(x)"⟩)])["f"]? =
      some (.formula ⟨["x"], "f(x)"⟩) := by cbv
  have hc : ∀ x : Float, evaluate (Std.TreeMap.ofList [("c", x)])
      (Std.TreeMap.ofList [("f", Callable.formula ⟨["x"], "f(x)"⟩)]) "c" = .ok x := by
    intro x
    cbv
  have hone : ∀ x : Float, Formula.callWith ⟨["x"], "f(x)"⟩ [x]
      (Std.TreeMap.ofList [("f", Callable.formula ⟨["x"], "f(x)"⟩)]) = .error (.callDepthExceeded 64) := by
    intro x
    cbv
  have htwo : ∀ x : Float, Formula.callWith ⟨["x"], "f(x)"⟩ [x, x]
      (Std.TreeMap.ofList [("f", Callable.formula ⟨["x"], "f(x)"⟩)]) = .error (.argumentCount 1 2) := by
    intro x
    cbv
  have hcall : callText "f" ["c"] = "f(c)" := by decide
  have hcall' : callText "f" ["c", "c"] = "f(c,c)" := by decide
  refine ⟨hname, hf, hc 2, ?_, ?_⟩
  · rw [← hcall, evaluate_callText_eq_callWith hname hf (.cons (hc 2) .nil), hone 2]
  · rw [← hcall', evaluate_callText_eq_callWith hname hf (.cons (hc 2) (.cons (hc 2) .nil)), htwo 2]

end Calculator
