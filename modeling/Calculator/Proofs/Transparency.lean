import Calculator.Proofs.Inlining
import Calculator.Proofs.Isolation

/-!
# Referential transparency

An expression in parentheses and a constant with its value can stand for each other, whatever tokens stand around them:
the tokens before need not begin an expression, and the tokens behind need not end one.

* `Scope.suffix_of_readExpression`: what reading leaves is a suffix of the tokens.
* `Scope.readOperand_group_of_evaluate`: tokens that have a value on their own are read as one operand in parentheses.
* `Scope.evaluate_of_readOperand`: an operand may be replaced by another one with the same value.
-/

namespace Calculator

namespace Scope

variable {scope scope' : Scope}

/-- What is left after an expression is a suffix of the tokens. -/
theorem suffix_of_readExpression {level : Precedence} {ts rest : List Token} {value : Float}
    (h : scope.readExpression level ts = .ok (value, rest)) : rest <:+ ts := by
  obtain ⟨r, hr, heq⟩ := map_eq_ok.1 h
  cases heq
  -- compiling the tokens leaves the same, and says where it comes from
  have hrun := Emission.run_expression scope level ts []
  rw [hr, ok_bind, Emission.run] at hrun
  obtain ⟨stack, -, hresult⟩ := bind_eq_ok.1 hrun
  cases hm : (Emission.expression level ts).result with
  | error e =>
    rw [hm] at hresult
    cases hresult
  | ok rest =>
    rw [hm] at hresult
    cases hresult
    exact (Emission.expression_named level ts).result _ hm

/-- Tokens that have a value are read up to a token that ends every expression. -/
theorem readExpression_append_of_evaluate {ts : List Token} (hts : ∀ t ∈ ts, t.kind ≠ .endOfExpression)
    {value : Float} (h : scope.evaluate ts = .ok value) {post : List Token} (hpost : Ends .minimum post) :
    scope.readExpression .minimum (ts ++ post) = .ok (value, post) := by
  rw [evaluate_eq] at h
  obtain ⟨⟨result, rest⟩, hr, hend⟩ := bind_eq_ok.1 h
  have hnil : rest = [] := by
    cases rest with
    | nil => rfl
    | cons t rest =>
      have ht : t.kind ≠ .endOfExpression := hts t ((suffix_of_readExpression hr).subset List.mem_cons_self)
      cases (if_neg ht).symm.trans hend
  cases hnil
  cases hend
  have hreplaced : Replaced scope scope post (ts ++ []) (ts ++ post) := Replaced.tail.append ts (by decide)
  rw [List.append_nil] at hreplaced
  exact hreplaced.readExpression_of_nil (.refl scope) hpost hr

/-- Tokens that have a value have it as an operand in parentheses. -/
theorem readOperand_group_of_evaluate {ts : List Token} (hts : ∀ t ∈ ts, t.kind ≠ .endOfExpression)
    {value : Float} (h : scope.evaluate ts = .ok value) (post : List Token) :
    scope.readOperand (Token.group ts ++ post) = .ok (value, post) :=
  readOperand_group_of_read (readExpression_append_of_evaluate hts h (ends_rightParen .minimum post))

/-- An operand may be replaced by another one with the same value, between tokens whose constants keep their values. -/
theorem evaluate_of_readOperand (hf : scope.Refines scope') {pre us us' post : List Token}
    (hus : Token.Stuck us) (hus' : Token.Stuck us') (hpre : ∀ t, pre.getLast? = some t → t.kind ≠ .identifier)
    (hconstants : ∀ t ∈ pre ++ post, t.kind = .identifier →
      ∀ value, scope.constant? t.text = some value → scope'.constant? t.text = some value)
    {value : Float} (hr : scope.readOperand us = .ok (value, post)) (hr' : scope'.readOperand us' = .ok (value, post))
    {result : Float} (h : scope.evaluate (pre ++ us) = .ok result) : scope'.evaluate (pre ++ us') = .ok result := by
  have hpost : Replaced scope scope' [] (post ++ []) (post ++ []) :=
    Replaced.tail.append_of_agree post (fun _ _ _ => by decide) fun t ht => hconstants t (List.mem_append_right pre ht)
  rw [List.append_nil] at hpost
  have hoperand : Replaced scope scope' [] us us' := by
    refine .operand hus hus' hpost fun value' rest hvalue => ?_
    rw [hr] at hvalue
    cases hvalue
    exact ⟨rfl, hr'⟩
  have hall := hoperand.append_of_agree pre (fun t ht hk => absurd hk (hpre t ht)) fun t ht =>
    hconstants t (List.mem_append_left post ht)
  exact hall.evaluate hf h

end Scope

/-- An expression in parentheses may be replaced by a constant with its value, and the constant by the expression.  The
name of the constant must be new to the tokens around it, and the parentheses must not be those of a call: no name
stands before them, and no parenthesis opens behind the constant.  The end marker closes a list of tokens and is not one
of them, so the expression does not contain it. -/
theorem evaluate_group_iff_evaluate_insert {functions : FunctionTable} {limits : Limits} {depth : Nat}
    {constants : ConstantTable} {pre mid post : List Token} {name : String} {value : Float}
    (hmid : ∀ t ∈ mid, t.kind ≠ .endOfExpression)
    (hvalue : (Scope.atDepth functions limits depth constants).evaluate mid = .ok value)
    (hpre : ∀ t, pre.getLast? = some t → t.kind ≠ .identifier) (hpost : (Token.next post).kind ≠ .leftParen)
    (hname : ⟨.identifier, name⟩ ∉ pre ++ post) (result : Float) :
    (Scope.atDepth functions limits depth constants).evaluate (pre ++ Token.group mid ++ post) = .ok result ↔
      (Scope.atDepth functions limits depth (constants.insert name value)).evaluate
        (pre ++ ⟨.identifier, name⟩ :: post) = .ok result := by
  rw [List.append_assoc]
  let scope := Scope.atDepth functions limits depth constants
  let scope' := Scope.atDepth functions limits depth (constants.insert name value)
  have hrefines : scope.Refines scope' := Scope.refines_atDepth functions limits (Nat.le_refl depth) _ _
  have hrefines' : scope'.Refines scope := Scope.refines_atDepth functions limits (Nat.le_refl depth) _ _
  have hconstant : scope'.constant? name = some value :=
    (Scope.constant?_atDepth functions limits depth _ name).trans Std.TreeMap.getElem?_insert_self
  have hagree : ∀ t ∈ pre ++ post, t.kind = .identifier → scope.constant? t.text = scope'.constant? t.text := by
    rintro ⟨kind, text⟩ ht rfl
    have hne : text ≠ name := by
      rintro rfl
      exact hname ht
    exact (Scope.constant?_atDepth functions limits depth _ text).trans
      ((getElem?_insert_of_ne constants hne value).trans (Scope.constant?_atDepth functions limits depth _ text).symm)
  have hgroup : scope.readOperand (Token.group mid ++ post) = .ok (value, post) :=
    Scope.readOperand_group_of_evaluate hmid hvalue post
  have hidentifier : scope'.readOperand (⟨.identifier, name⟩ :: post) = .ok (value, post) := by
    rw [Scope.readOperand_constant scope' name hpost, Scope.constant_eq_ok.2 hconstant]
    rfl
  have hstuck : Token.Stuck (Token.group mid ++ post) := rfl
  have hstuck' : Token.Stuck (⟨.identifier, name⟩ :: post) := rfl
  constructor
  · exact Scope.evaluate_of_readOperand hrefines hstuck hstuck' hpre
      (fun t ht hk _ hv => (hagree t ht hk).symm.trans hv) hgroup hidentifier
  · exact Scope.evaluate_of_readOperand hrefines' hstuck' hstuck hpre
      (fun t ht hk _ hv => (hagree t ht hk).trans hv) hidentifier hgroup

/-- The value of `a^(a^b)^b` is that of `a^k^b`, where the parentheses decide and where powers group from the right. -/
theorem evaluate_group_iff_evaluate_insert_power :
    (∀ t ∈ [⟨.identifier, "a"⟩, ⟨.caret, "^"⟩, ⟨.identifier, "b"⟩], Token.kind t ≠ .endOfExpression) ∧
    (Scope.atDepth ∅ {} 0 (Std.TreeMap.ofList [("a", (2 : Float)), ("b", 3)])).evaluate
      [⟨.identifier, "a"⟩, ⟨.caret, "^"⟩, ⟨.identifier, "b"⟩] = .ok (Float.pow 2 3) ∧
    (∀ t, [⟨.identifier, "a"⟩, ⟨.caret, "^"⟩].getLast? = some t → Token.kind t ≠ .identifier) ∧
    (Token.next [⟨.caret, "^"⟩, ⟨.identifier, "b"⟩]).kind ≠ .leftParen ∧
    ⟨.identifier, "k"⟩ ∉ ([⟨.identifier, "a"⟩, ⟨.caret, "^"⟩] ++ [⟨.caret, "^"⟩, ⟨.identifier, "b"⟩] : List Token) ∧
    (Scope.atDepth ∅ {} 0
        ((Std.TreeMap.ofList [("a", (2 : Float)), ("b", 3)]).insert "k" (Float.pow 2 3))).evaluate
      [⟨.identifier, "a"⟩, ⟨.caret, "^"⟩, ⟨.identifier, "k"⟩, ⟨.caret, "^"⟩, ⟨.identifier, "b"⟩] =
        .ok (Float.pow 2 ((Float.pow 2 3).pow 3)) := by
  let pre : List Token := [⟨.identifier, "a"⟩, ⟨.caret, "^"⟩]
  let mid : List Token := [⟨.identifier, "a"⟩, ⟨.caret, "^"⟩, ⟨.identifier, "b"⟩]
  let post : List Token := [⟨.caret, "^"⟩, ⟨.identifier, "b"⟩]
  have hmid : ∀ t ∈ mid, t.kind ≠ .endOfExpression := by decide
  have hvalue : ∀ a b : Float,
      (Scope.atDepth ∅ {} 0 (Std.TreeMap.ofList [("a", a), ("b", b)])).evaluate mid = .ok (a.pow b) := by
    intro a b
    cbv
  have hpre : ∀ t, pre.getLast? = some t → t.kind ≠ .identifier := by
    rintro t ⟨⟩
    decide
  have hpost : (Token.next post).kind ≠ .leftParen := by decide
  have hname : ⟨.identifier, "k"⟩ ∉ pre ++ post := by decide
  have hrun : ∀ a b : Float,
      (Scope.atDepth ∅ {} 0 (Std.TreeMap.ofList [("a", a), ("b", b)])).evaluate (pre ++ Token.group mid ++ post) =
        .ok (a.pow ((a.pow b).pow b)) := by
    intro a b
    cbv
  exact ⟨hmid, hvalue 2 3, hpre, hpost, hname,
    (evaluate_group_iff_evaluate_insert hmid (hvalue 2 3) hpre hpost hname _).1 (hrun 2 3)⟩

end Calculator
