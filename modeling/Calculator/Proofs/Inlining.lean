import Calculator.Proofs.Derivable
import Calculator.Proofs.DepthLimit
import Calculator.Proofs.Parameters
import Calculator.Proofs.Replacement
import Calculator.Proofs.Spacing

/-!
# Inlining calls of formulas

A call may be replaced by the body of the formula in parentheses, with each parameter replaced by its argument in
parentheses (`Token.substitute`).  Where the call had a value, the text keeps its value: `evaluate_inline`.

This is a replacement of operands on two levels.  In the surrounding tokens the call is replaced by the body, and in
the body the parameters, which are constants there, are replaced by the arguments, which are evaluated outside of it.
The body is then evaluated less deeply nested, and that changes no value (`Scope.refines_atDepth`).
-/

namespace Calculator

namespace Token

/-- The tokens of a call. -/
def call (name : String) (args : List (List Token)) : List Token :=
  ⟨.identifier, name⟩ :: leftParen :: ([comma].intercalate args ++ [rightParen])

/-- The tokens in parentheses. -/
def group (ts : List Token) : List Token :=
  leftParen :: (ts ++ [rightParen])

theorem call_append (name : String) (args : List (List Token)) (ts : List Token) :
    call name args ++ ts =
      ⟨.identifier, name⟩ :: leftParen :: ([comma].intercalate args ++ rightParen :: ts) := by
  rw [call, List.cons_append, List.cons_append, List.append_assoc, List.singleton_append]

theorem group_append (us ts : List Token) : group us ++ ts = leftParen :: (us ++ rightParen :: ts) := by
  rw [group, List.cons_append, List.append_assoc, List.singleton_append]

/-- The tokens with tokens in parentheses in the place of each identifier for which `σ` gives some.  An identifier
directly before `(` is the name of a function and stays. -/
def substitute (σ : String → Option (List Token)) : List Token → List Token
  | [] => []
  | t :: ts =>
    if t.kind = .identifier ∧ (next ts).kind ≠ .leftParen then
      match σ t.text with
      | some us => group us ++ substitute σ ts
      | none => t :: substitute σ ts
    else t :: substitute σ ts

/-- The body of a formula in parentheses, with arguments in the place of its parameters. -/
def inline (params : List String) (args : List Grammar.Sum) (body : List Token) : List Token :=
  group (substitute (fun name => ((params.zip args).lookup name).map Grammar.Sum.tokens) body)

/-! ### The tokens remain valid -/

theorem valid_group {ts : List Token} (hv : ∀ t ∈ ts, t.Valid) : ∀ t ∈ group ts, t.Valid := by
  intro t ht
  rw [group, List.mem_cons, List.mem_append, List.mem_singleton] at ht
  rcases ht with rfl | ht | rfl
  · exact valid_leftParen
  · exact hv t ht
  · exact valid_rightParen

theorem valid_substitute {σ : String → Option (List Token)}
    (hσ : ∀ name us, σ name = some us → ∀ t ∈ us, t.Valid) {ts : List Token} (hv : ∀ t ∈ ts, t.Valid) :
    ∀ t ∈ substitute σ ts, t.Valid := by
  induction ts with
  | nil => exact hv
  | cons t ts ih =>
    have ht : t.Valid := hv t List.mem_cons_self
    have hts : ∀ u ∈ substitute σ ts, u.Valid := ih fun u hu => hv u (List.mem_cons_of_mem _ hu)
    rw [substitute]
    split
    · cases hname : σ t.text with
      | none => exact List.forall_mem_cons.2 ⟨ht, hts⟩
      | some us => exact List.forall_mem_append.2 ⟨valid_group (hσ _ us hname), hts⟩
    · exact List.forall_mem_cons.2 ⟨ht, hts⟩

theorem mem_intercalate {tss : List (List Token)} {ts : List Token} (h : ts ∈ tss) {t : Token} (ht : t ∈ ts) :
    t ∈ [comma].intercalate tss := by
  induction tss with
  | nil => cases h
  | cons us tss ih =>
    cases tss with
    | nil =>
      rw [List.intercalate_singleton]
      rwa [List.mem_singleton.1 h] at ht
    | cons vs tss =>
      rw [List.intercalate_cons_cons, List.mem_append, List.mem_append]
      rcases List.mem_cons.1 h with rfl | h
      · exact Or.inl (Or.inl ht)
      · exact Or.inr (ih h)

theorem valid_inline (params : List String) {args : List Grammar.Sum} {body : List Token}
    (hargs : ∀ s ∈ args, ∀ t ∈ s.tokens, t.Valid) (hbody : ∀ t ∈ body, t.Valid) :
    ∀ t ∈ inline params args body, t.Valid := by
  refine valid_group (valid_substitute (fun name us hus => ?_) hbody)
  obtain ⟨s, hs, rfl⟩ := Option.map_eq_some_iff.1 hus
  obtain ⟨l₁, l₂, hzip, -⟩ := List.lookup_eq_some_iff.1 hs
  have hmem : (name, s) ∈ params.zip args := hzip ▸ List.mem_append_right _ List.mem_cons_self
  exact hargs s (List.of_mem_zip hmem).2

end Token

/-! ### The arguments of a call -/

namespace Grammar

/-- Arguments from a list of sums that is not empty. -/
def Arguments.ofSums (s : Sum) : List Sum → Arguments
  | [] => .one s
  | s' :: sums => .more s (ofSums s' sums)

theorem Arguments.tokens_ofSums (s : Sum) (sums : List Sum) :
    (ofSums s sums).tokens = [Token.comma].intercalate ((s :: sums).map Sum.tokens) := by
  induction sums generalizing s with
  | nil => rw [ofSums, tokens, List.map_singleton, List.intercalate_singleton]
  | cons s' sums ih =>
    rw [ofSums, tokens, ih, List.map_cons, List.map_cons, List.map_cons, List.intercalate_cons_cons,
      List.append_assoc]
    rfl

/-- Arguments have values exactly if each of them has its own. -/
theorem Arguments.values_ofSums {scope : Scope} {s : Sum} {sums : List Sum} {values : List Float} :
    (ofSums s sums).values scope = .ok values ↔
      List.Forall₂ (fun s value => s.value scope = .ok value) (s :: sums) values := by
  induction sums generalizing s values with
  | nil =>
    rw [ofSums, Arguments.values, List.forall₂_cons_left_iff]
    constructor
    · intro h
      obtain ⟨value, hvalue, heq⟩ := bind_eq_ok.1 h
      cases heq
      exact ⟨value, [], hvalue, .nil, rfl⟩
    · rintro ⟨value, values', hvalue, hnil, rfl⟩
      cases hnil
      exact bind_eq_ok.2 ⟨value, hvalue, rfl⟩
  | cons s' sums ih =>
    rw [ofSums, Arguments.values, List.forall₂_cons_left_iff]
    constructor
    · intro h
      obtain ⟨value, hvalue, h⟩ := bind_eq_ok.1 h
      obtain ⟨values', hvalues, heq⟩ := bind_eq_ok.1 h
      cases heq
      exact ⟨value, values', hvalue, ih.1 hvalues, rfl⟩
    · rintro ⟨value, values', hvalue, hvalues, rfl⟩
      exact bind_eq_ok.2 ⟨value, hvalue, bind_eq_ok.2 ⟨values', ih.2 hvalues, rfl⟩⟩

/-- What is read as the arguments of a call are the values of its arguments. -/
theorem readArguments_intercalate {scope : Scope} (sums : List Sum) {post rest : List Token} {values : List Float}
    (h : scope.readArguments ([Token.comma].intercalate (sums.map Sum.tokens) ++ Token.rightParen :: post) =
      .ok (values, rest)) :
    List.Forall₂ (fun s value => s.value scope = .ok value) sums values ∧ rest = post := by
  cases sums with
  | nil =>
    rw [Scope.readArguments_eq] at h
    cases h
    exact ⟨.nil, rfl⟩
  | cons s sums =>
    rw [← Arguments.tokens_ofSums, Scope.readArguments_eq, if_neg (Arguments.next_tokens_ne _ _),
      Arguments.read] at h
    obtain ⟨values', hvalues, heq⟩ := bind_eq_ok.1 h
    cases heq
    exact ⟨Arguments.values_ofSums.1 hvalues, rfl⟩

end Grammar

/-! ### Parameters -/

/-- The parameters of a formula are pairwise different. -/
theorem Formula.eq_of_make {params : List String} {body : String} {f : Formula} (h : make params body = .ok f) :
    f = ⟨params, body⟩ ∧ params.Nodup := by
  obtain ⟨rfl, hwell⟩ := make_eq_ok.1 h
  exact ⟨rfl, hwell.nodup⟩

theorem getElem?_ofList_eq_lookup {β : Type} {l : List (String × β)} (h : (l.map Prod.fst).Nodup) (name : String) :
    (Std.TreeMap.ofList l)[name]? = l.lookup name := by
  cases hl : l.lookup name with
  | none =>
    apply Std.TreeMap.getElem?_ofList_of_contains_eq_false
    rw [List.contains_eq_mem, decide_eq_false_iff_not]
    intro hmem
    obtain ⟨entry, hentry, rfl⟩ := List.mem_map.1 hmem
    exact bne_iff_ne.1 (List.lookup_eq_none_iff.1 hl entry hentry) rfl
  | some value =>
    obtain ⟨l₁, l₂, rfl, -⟩ := List.lookup_eq_some_iff.1 hl
    exact (getElem?_ofList_eq_some_iff h).2 (List.mem_append_right l₁ List.mem_cons_self)

theorem exists_lookup_zip {α β : Type} {r : α → β → Prop} {as : List α} {bs : List β} (h : List.Forall₂ r as bs)
    {names : List String} {name : String} {b : β} (hb : (names.zip bs).lookup name = some b) :
    ∃ a, (names.zip as).lookup name = some a ∧ r a b := by
  induction h generalizing names with
  | nil =>
    rw [List.zip_nil_right] at hb
    cases hb
  | cons hab _ ih =>
    cases names with
    | nil => cases hb
    | cons first names =>
      rw [List.zip_cons_cons, List.lookup_cons] at hb ⊢
      cases hfirst : name == first with
      | true =>
        rw [hfirst] at hb
        cases hb
        exact ⟨_, rfl, hab⟩
      | false =>
        rw [hfirst] at hb
        exact ih hb

/-! ### Less deeply nested -/

/-- A call that has a value has it also inside fewer calls. -/
theorem Formula.invoke_of_le {functions : FunctionTable} {limits : Limits} {depth depth' : Nat} (h : depth ≤ depth')
    {f : Formula} {args : List Float} {value : Float}
    (hvalue : Formula.invoke functions limits depth' f args = .ok value) :
    Formula.invoke functions limits depth f args = .ok value := by
  obtain ⟨hdepth, harity, hbody⟩ := Formula.invoke_eq_ok.1 hvalue
  refine Formula.invoke_eq_ok.2 ⟨by omega, harity, ?_⟩
  have hle : limits.callDepth - (depth' + 1) ≤ limits.callDepth - (depth + 1) := by omega
  rcases Scope.evaluateText_nested_of_le functions limits limits hle _ f.body with he | ⟨heq, -⟩
  · rw [Scope.atDepth, he] at hbody
    cases hbody
  · exact heq.trans hbody

theorem Scope.refines_atDepth (functions : FunctionTable) (limits : Limits) {depth depth' : Nat} (h : depth ≤ depth')
    (constants constants' : ConstantTable) :
    (atDepth functions limits depth' constants').Refines (atDepth functions limits depth constants) := by
  rw [atDepth_eq, atDepth_eq]
  refine ⟨fun {name f args value} hf hvalue => ?_⟩
  have hf' : functions[name]?.map _ = some f := hf
  obtain ⟨callable, hcallable, rfl⟩ := Option.map_eq_some_iff.1 hf'
  refine ⟨_, congrArg (Option.map _) hcallable, ?_⟩
  cases callable with
  | formula f => exact Formula.invoke_of_le h hvalue
  | native f => exact hvalue

/-! ### The replacement -/

namespace Scope

theorem readExpression_of_value {scope : Scope} {s : Grammar.Sum} {value : Float} (h : s.value scope = .ok value)
    {rest : List Token} (he : Ends .minimum rest) :
    scope.readExpression .minimum (s.tokens ++ rest) = .ok (value, rest) := by
  rw [s.read scope (he.of_le (Nat.zero_le _)), h, ok_bind, readOperators_of_ends he]

theorem readOperand_group_of_read {scope : Scope} {ts post : List Token} {value : Float}
    (h : scope.readExpression .minimum (ts ++ Token.rightParen :: post) = .ok (value, Token.rightParen :: post)) :
    scope.readOperand (Token.group ts ++ post) = .ok (value, post) := by
  rw [Token.group_append, readOperand_group, h, ok_bind, readClosingParen_rightParen]
  rfl

/-- For each constant of `scope` there are tokens whose value in `scope'` is the constant. -/
def Provides (scope scope' : Scope) (σ : String → Option (List Token)) : Prop :=
  ∀ name value, scope.constant? name = some value →
    ∃ s : Grammar.Sum, σ name = some s.tokens ∧ s.value scope' = .ok value

theorem replaced_substitute {scope scope' : Scope} {σ : String → Option (List Token)}
    (hσ : scope.Provides scope' σ) (tail ts : List Token) :
    Replaced scope scope' tail ts (Token.substitute σ ts ++ tail) := by
  match ts with
  | [] => exact .tail
  | t :: ts =>
    have ih := replaced_substitute hσ tail ts
    by_cases hconstant : t.kind = .identifier ∧ (Token.next ts).kind ≠ .leftParen
    · rw [Token.substitute, if_pos hconstant]
      obtain ⟨ht, hnext⟩ := hconstant
      cases hus : σ t.text with
      | none =>
        refine .token t ih fun _ => ⟨hnext, fun value hvalue => ?_⟩
        obtain ⟨s, hs, -⟩ := hσ t.text value hvalue
        rw [hus] at hs
        cases hs
      | some us =>
        rw [List.append_assoc]
        refine .operand (congrArg Token.Kind.startsOperand ht) rfl ih fun value rest hr => ?_
        obtain ⟨kind, name⟩ := t
        cases ht
        rw [readOperand_constant scope name hnext] at hr
        obtain ⟨result, hresult, heq⟩ := map_eq_ok.1 hr
        cases heq
        obtain ⟨s, hs, hvalue⟩ := hσ name value (constant_eq_ok.1 hresult)
        rw [hus] at hs
        cases hs
        exact ⟨rfl, readOperand_group_of_read (readExpression_of_value hvalue (ends_rightParen _ _))⟩
    · rw [Token.substitute, if_neg hconstant]
      cases ts with
      | nil => exact .token t ih fun ht => absurd ⟨ht, by decide⟩ hconstant
      | cons p ts =>
        by_cases hcall : t.kind = .identifier ∧ p.kind = .leftParen
        · -- the parenthesis behind the name of a function is not replaced either
          have hp : ¬ (p.kind = .identifier ∧ (Token.next ts).kind ≠ .leftParen) := by
            rw [hcall.2]
            exact fun h => nomatch h.1
          rw [Token.substitute, if_neg hp]
          exact .call t p hcall.1 hcall.2 (replaced_substitute hσ tail ts)
        · exact .token t ih fun ht => absurd ⟨ht, fun hp => hcall ⟨ht, hp⟩⟩ hconstant

/-- The tokens of a body have its value also after the replacement, in front of a closing parenthesis. -/
theorem readExpression_substitute {scope scope' : Scope} (hf : scope.Refines scope')
    {σ : String → Option (List Token)} (hσ : scope.Provides scope' σ) {s : Grammar.Sum}
    {value : Float} (h : s.value scope = .ok value) (post : List Token) :
    scope'.readExpression .minimum (Token.substitute σ s.tokens ++ Token.rightParen :: post) =
      .ok (value, Token.rightParen :: post) := by
  have hr : scope.readExpression .minimum s.tokens = .ok (value, []) := by
    have hread := readExpression_of_value h (ends_nil .minimum)
    rwa [List.append_nil] at hread
  exact (replaced_substitute hσ _ s.tokens).readExpression_of_nil hf (ends_rightParen .minimum post) hr

/-- In the body of a formula, the arguments provide the parameters that are bound to their values. -/
theorem provides_arguments {scope : Scope} {args : List Grammar.Sum} {values : List Float}
    (hvalues : List.Forall₂ (fun s value => s.value scope = .ok value) args values) {params : List String}
    (hnodup : params.Nodup) (hlen : values.length = params.length) (functions : FunctionTable)
    (call : Formula → List Float → Except EvalError Float) :
    (ofTables (Std.TreeMap.ofList (params.zip values)) functions call).Provides scope
      fun name => ((params.zip args).lookup name).map Grammar.Sum.tokens := by
  intro name value hname
  have hkeys : ((params.zip values).map Prod.fst).Nodup := by
    rwa [List.map_fst_zip (Nat.le_of_eq hlen.symm)]
  have hlookup : (params.zip values).lookup name = some value := getElem?_ofList_eq_lookup hkeys name ▸ hname
  obtain ⟨s, hs, hvalue⟩ := exists_lookup_zip hvalues hlookup
  exact ⟨s, congrArg (Option.map _) hs, hvalue⟩

/-- Where a call of a formula can be read, its body can be read in its place. -/
theorem readOperand_inline {functions : FunctionTable} {limits : Limits} {depth : Nat} {constants : ConstantTable}
    {g : String} {f : Formula} (hg : functions[g]? = some (Callable.formula f)) (hnodup : f.params.Nodup)
    {body : List Token} (hbody : tokenize f.body = .ok ⟨body⟩) (args : List Grammar.Sum) {post rest : List Token}
    {value : Float}
    (h : (atDepth functions limits depth constants).readOperand
      (Token.call g (args.map Grammar.Sum.tokens) ++ post) = .ok (value, rest)) :
    rest = post ∧ (atDepth functions limits depth constants).readOperand
      (Token.inline f.params args body ++ post) = .ok (value, post) := by
  rw [Token.call_append, readOperand_call] at h
  obtain ⟨k, hk, h⟩ := bind_eq_ok.1 h
  obtain ⟨⟨values, us⟩, hargs, h⟩ := bind_eq_ok.1 h
  obtain ⟨result, hresult, heq⟩ := map_eq_ok.1 h
  cases heq
  obtain ⟨hvalues, rfl⟩ := Grammar.readArguments_intercalate args hargs
  have hinvoke : Formula.invoke functions limits depth f values = .ok value := by
    rw [function_eq_ok, atDepth_eq] at hk
    have hformula : some (Formula.invoke functions limits depth f) = some k :=
      (congrArg (Option.map _) hg).symm.trans hk
    cases hformula
    exact hresult
  obtain ⟨-, harity, hvalue⟩ := Formula.invoke_eq_ok.1 hinvoke
  obtain ⟨s, hs, hvalue⟩ := Grammar.exists_sum_of_evaluateText hvalue
  rw [hbody] at hs
  cases hs
  have hrefines := refines_atDepth functions limits (Nat.le_succ depth) constants
    (Std.TreeMap.ofList (f.params.zip values))
  rw [atDepth_eq functions limits (depth + 1)] at hrefines hvalue
  have hσ := provides_arguments hvalues hnodup harity functions (Formula.invoke functions limits (depth + 1))
  exact ⟨rfl, readOperand_group_of_read (readExpression_substitute hrefines hσ hvalue _)⟩

/-- Where tokens with a call of a formula have a value, they have it with the body in the place of the call. -/
theorem evaluate_inline {functions : FunctionTable} {limits : Limits} {depth : Nat} {constants : ConstantTable}
    {g : String} {f : Formula} (hg : functions[g]? = some (Callable.formula f)) (hnodup : f.params.Nodup)
    {body : List Token} (hbody : tokenize f.body = .ok ⟨body⟩) (pre post : List Token) (args : List Grammar.Sum)
    {value : Float}
    (h : (atDepth functions limits depth constants).evaluate
      (pre ++ Token.call g (args.map Grammar.Sum.tokens) ++ post) = .ok value) :
    (atDepth functions limits depth constants).evaluate (pre ++ Token.inline f.params args body ++ post) =
      .ok value := by
  have hnil : Replaced (atDepth functions limits depth constants) (atDepth functions limits depth constants) [] [] [] :=
    .tail
  have hpost := hnil.append post (by decide)
  rw [List.append_nil] at hpost
  have hcall : Replaced (atDepth functions limits depth constants) (atDepth functions limits depth constants) []
      (Token.call g (args.map Grammar.Sum.tokens) ++ post) (Token.inline f.params args body ++ post) :=
    .operand rfl rfl hpost fun _ _ hr => readOperand_inline hg hnodup hbody args hr
  rw [List.append_assoc] at h ⊢
  have hnext : (Token.next (Token.call g (args.map Grammar.Sum.tokens) ++ post)).kind ≠ .leftParen := by
    show Token.Kind.identifier ≠ .leftParen
    decide
  exact (hcall.append pre hnext).evaluate (Refines.refl _) h

end Scope

/-- A call of a formula may be replaced by the body of the formula, whatever stands around it: if the tokens have a
value, they have the same value with the body in the place of the call, at every depth; and if the tokens are those of
a text, there is a text with the body in the place of the call, and every such text has the value.  The arguments are
given as sums, since the tokens of sums are what is read as an argument (`Grammar.exists_arguments_of_read`). -/
theorem evaluate_eq_ok_of_inline {functions : FunctionTable} {g : String} {params : List String} {body : String}
    {f : Formula} (hf : Formula.make params body = .ok f) (hg : functions[g]? = some (Callable.formula f))
    {bodyTokens : List Token} (hbody : tokenize body = .ok ⟨bodyTokens⟩) (constants : ConstantTable)
    (limits : Limits) (pre post : List Token) (args : List Grammar.Sum) (value : Float) :
    (∀ depth, (Scope.atDepth functions limits depth constants).evaluate
        (pre ++ Token.call g (args.map Grammar.Sum.tokens) ++ post) = .ok value →
      (Scope.atDepth functions limits depth constants).evaluate (pre ++ Token.inline params args bodyTokens ++ post) =
        .ok value) ∧
    ∀ text, tokenize text = .ok ⟨pre ++ Token.call g (args.map Grammar.Sum.tokens) ++ post⟩ →
      evaluate constants functions text limits = .ok value →
      (∃ text', tokenize text' = .ok ⟨pre ++ Token.inline params args bodyTokens ++ post⟩) ∧
      ∀ text', tokenize text' = .ok ⟨pre ++ Token.inline params args bodyTokens ++ post⟩ →
        evaluate constants functions text' limits = .ok value := by
  obtain ⟨rfl, hnodup⟩ := Formula.eq_of_make hf
  have hinline : ∀ depth, (Scope.atDepth functions limits depth constants).evaluate
      (pre ++ Token.call g (args.map Grammar.Sum.tokens) ++ post) = .ok value →
      (Scope.atDepth functions limits depth constants).evaluate (pre ++ Token.inline params args bodyTokens ++ post) =
        .ok value := fun _ => Scope.evaluate_inline hg hnodup hbody pre post args
  refine ⟨hinline, fun text ht hvalue => ⟨exists_tokenize_eq ?_, fun text' ht' => ?_⟩⟩
  · have hv := valid_of_tokenize ht
    rw [List.forall_mem_append, List.forall_mem_append] at hv
    obtain ⟨⟨hpre, hcall⟩, hpost⟩ := hv
    have hargs : ∀ s ∈ args, ∀ t ∈ s.tokens, t.Valid := by
      intro s hs t ht
      have hmem := Token.mem_intercalate (List.mem_map_of_mem hs) ht
      exact hcall t (List.mem_cons_of_mem _ (List.mem_cons_of_mem _ (List.mem_append_left _ hmem)))
    have hinline := Token.valid_inline params hargs (valid_of_tokenize hbody)
    exact List.forall_mem_append.2 ⟨List.forall_mem_append.2 ⟨hpre, hinline⟩, hpost⟩
  · have hne : text ≠ "" := ne_empty_of_tokenize ht (by simp [Token.call])
    have hne' : text' ≠ "" := ne_empty_of_tokenize ht' (by simp [Token.inline, Token.group])
    rw [evaluate, Scope.evaluateText_of_tokenize _ hne ht] at hvalue
    rw [evaluate, Scope.evaluateText_of_tokenize _ hne' ht']
    exact hinline 0 hvalue

/-- The parentheses around the body and the arguments keep the powers in `f(a^b)^a` apart. -/
theorem evaluate_eq_ok_of_inline_power :
    Formula.make ["x"] "x^x" = .ok ⟨["x"], "x^x"⟩ ∧
    evaluate (Std.TreeMap.ofList [("a", (2 : Float)), ("b", 3)])
        (Std.TreeMap.ofList [("f", Callable.formula ⟨["x"], "x^x"⟩)]) "f(a^b)^a" =
      .ok (((Float.pow 2 3).pow (Float.pow 2 3)).pow 2) ∧
    evaluate (Std.TreeMap.ofList [("a", (2 : Float)), ("b", 3)])
        (Std.TreeMap.ofList [("f", Callable.formula ⟨["x"], "x^x"⟩)]) "((a^b)^(a^b))^a" =
      .ok (((Float.pow 2 3).pow (Float.pow 2 3)).pow 2) := by
  let arg : Grammar.Sum := .product (.power (.power (.constant "a") (.atom (.constant "b"))))
  let bodyTokens : List Token := [⟨.identifier, "x"⟩, ⟨.caret, "^"⟩, ⟨.identifier, "x"⟩]
  let post : List Token := [⟨.caret, "^"⟩, ⟨.identifier, "a"⟩]
  have hmake : Formula.make ["x"] "x^x" = .ok ⟨["x"], "x^x"⟩ := by cbv
  have hf : (Std.TreeMap.ofList [("f", Callable.formula ⟨["x"], "x^x"⟩)])["f"]? =
      some (Callable.formula ⟨["x"], "x^x"⟩) := by cbv
  have hbody : tokenize "x^x" = .ok ⟨bodyTokens⟩ := by cbv
  have ht : tokenize "f(a^b)^a" = .ok ⟨[] ++ Token.call "f" [arg.tokens] ++ post⟩ := by cbv
  have ht' : tokenize "((a^b)^(a^b))^a" = .ok ⟨[] ++ Token.inline ["x"] [arg] bodyTokens ++ post⟩ := by cbv
  have hrun : ∀ a b : Float, evaluate (Std.TreeMap.ofList [("a", a), ("b", b)])
      (Std.TreeMap.ofList [("f", Callable.formula ⟨["x"], "x^x"⟩)]) "f(a^b)^a" =
        .ok (((a.pow b).pow (a.pow b)).pow a) := by
    intro a b
    cbv
  exact ⟨hmake, hrun 2 3, ((evaluate_eq_ok_of_inline hmake hf hbody _ {} [] post [arg] _).2 _ ht (hrun 2 3)).2 _ ht'⟩

end Calculator
