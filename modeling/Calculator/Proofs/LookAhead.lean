import Calculator.Proofs.Consumption
import Calculator.Proofs.Isolation

/-!
# One token of look-ahead

A parser depends on the tokens that it looks at and on no other: where another stream has the same tokens there, a parser
of that stream ends alike (`Watched.Local`, closed under composition; `Watched.local_expression` and its companions, by
induction on the number of tokens from the cursor on).  Together with `Watched.reads_expression`, which says how far a
parser looks, this is the one token of look-ahead of `expressionAt_eq_of_agree`.
-/

namespace Calculator

namespace Watched

variable {α β γ δ : Type} {s s' : TokenStream}

/-- If the second stream has the tokens of the first one where the first parser looks, then the second parser ends
alike. -/
def Local (s s' : TokenStream) (related : α → β → Prop) (m : Watched α) (m' : Watched β) : Prop :=
  (∀ i ∈ m.looked, s'.token i = s.token i) → Comparison.equal.Outcomes related m.outcome m'.outcome

namespace Local

variable {related : α → β → Prop} {related' : γ → δ → Prop} {m : Watched α} {m' : Watched β}

theorem pure {a : α} {b : β} (h : related a b) : Local s s' related (Pure.pure a) (Pure.pure b) :=
  fun _ => .value h

theorem fail (error : EvalError) : Local s s' related (Watched.fail error) (Watched.fail error) :=
  fun _ => .error rfl

theorem ofExcept (x : Except EvalError α) : Local s s' (fun a b => a = b) (Watched.ofExcept x) (Watched.ofExcept x) := by
  intro _
  cases x with
  | ok a => exact .value rfl
  | error e => exact .error rfl

theorem bind {f : α → Watched γ} {f' : β → Watched δ} (h : Local s s' related m m')
    (hf : ∀ a b, related a b → Local s s' related' (f a) (f' b)) : Local s s' related' (m >>= f) (m' >>= f') := by
  obtain ⟨looked, x⟩ := m
  obtain ⟨looked', x'⟩ := m'
  intro hagree
  cases x with
  | error e =>
    have hm := h hagree
    cases hm with
    | error he => exact .error he
    | excused he => exact he.elim
  | ok a =>
    change ∀ i ∈ looked ++ (f a).looked, _ at hagree
    obtain ⟨hlooked, hnext⟩ := List.forall_mem_append.1 hagree
    have hm := h hlooked
    cases hm with
    | value hab => exact hf _ _ hab hnext

/-- A look at a token. -/
theorem peek {p : Nat} {f : { t : Token // t = s.token p } → Watched α}
    {f' : { t : Token // t = s'.token p } → Watched β}
    (h : s'.token p = s.token p → Local s s' related (f ⟨s.token p, rfl⟩) (f' ⟨s'.token p, rfl⟩)) :
    Local s s' related (Watched.peek s p >>= f) (Watched.peek s' p >>= f') := by
  intro hagree
  change ∀ i ∈ p :: (f ⟨s.token p, rfl⟩).looked, _ at hagree
  obtain ⟨hp, hnext⟩ := List.forall_mem_cons.1 hagree
  exact h hp hnext

end Local

/-- The same was found, and the cursors have come to the same position. -/
abbrev Same {p : Nat} (r : α × s.From p) (r' : α × s'.From p) : Prop :=
  r.1 = r'.1 ∧ r.2.val = r'.2.val

section

variable {scope : Scope}

theorem local_closingParen (p : Nat) :
    Local s s' (fun r r' => r.val = r'.val) (closingParen s p) (closingParen s' p) := by
  rw [closingParen, closingParen]
  refine .peek fun heq => ?_
  by_cases hk : (s.token p).kind = .rightParen
  · simp only [heq, dif_pos hk]
    exact .pure rfl
  · simp only [heq, dif_neg hk]
    exact .fail _

mutual

theorem local_expression (level : Precedence) (p : Nat) :
    Local s s' Same (expression scope s level p) (expression scope s' level p) := by
  rw [expression, expression]
  refine (local_operand p).bind ?_
  rintro ⟨left, q, hq⟩ ⟨_, _, hq'⟩ ⟨rfl, rfl⟩
  refine (local_operators level left q hq.2 hq'.2).bind ?_
  rintro ⟨value, r⟩ ⟨_, r'⟩ ⟨rfl, hr⟩
  exact .pure ⟨rfl, hr⟩
termination_by (s.lexemes.length - p, 2)

theorem local_operators (level : Precedence) (left : Float) (p : Nat) (hp : p ≤ s.lexemes.length)
    (hp' : p ≤ s'.lexemes.length) :
    Local s s' Same (operators scope s level left p hp) (operators scope s' level left p hp') := by
  rw [operators, operators]
  refine .peek fun heq => ?_
  by_cases hlt : level < (s.token p).kind.precedence
  · simp only [heq, dif_pos hlt]
    cases hop : Operator.ofKind? (s.token p).kind with
    | none => exact .fail _
    | some op =>
      have hp : p < s.lexemes.length := s.lt_length_of_ofKind? hop
      refine (local_expression op.rightPrecedence (p + 1)).bind ?_
      rintro ⟨right, q, hq⟩ ⟨_, _, hq'⟩ ⟨rfl, rfl⟩
      refine (local_operators level (op.apply left right) q hq.2 hq'.2).bind ?_
      rintro ⟨value, r⟩ ⟨_, r'⟩ ⟨rfl, hr⟩
      exact .pure ⟨rfl, hr⟩
  · simp only [heq, dif_neg hlt]
    exact .pure ⟨rfl, rfl⟩
termination_by (s.lexemes.length - p, 0)

theorem local_operand (p : Nat) :
    Local s s' Same (operand scope s p) (operand scope s' p) := by
  rw [operand, operand]
  refine .peek fun heq => ?_
  by_cases hend : (s.token p).kind = .endOfExpression
  · simp only [heq, dif_pos hend]
    exact .fail _
  · have hp : p < s.lexemes.length := s.lt_length_of_kind_ne hend
    simp only [heq, dif_neg hend]
    exact local_operandFrom (s.token p) (p + 1) _ _
termination_by (s.lexemes.length - p, 1)

theorem local_operandFrom (t : Token) (p : Nat) (hp : p ≤ s.lexemes.length) (hp' : p ≤ s'.lexemes.length) :
    Local s s' Same (operandFrom scope s t p hp) (operandFrom scope s' t p hp') := by
  rw [operandFrom, operandFrom]
  cases t.kind with
  | number =>
    refine (Local.ofExcept _).bind ?_
    rintro value _ rfl
    exact .pure ⟨rfl, rfl⟩
  | identifier =>
    refine .peek fun heq => ?_
    by_cases hnext : (s.token p).kind = .leftParen
    · have hlt : p < s.lexemes.length := s.lt_length_of_kind hnext (by decide)
      simp only [heq, dif_pos hnext]
      refine (Local.ofExcept _).bind ?_
      rintro f _ rfl
      refine (local_arguments (p + 1)).bind ?_
      rintro ⟨args, q⟩ ⟨_, q'⟩ ⟨rfl, hq⟩
      refine (Local.ofExcept _).bind ?_
      rintro value _ rfl
      exact .pure ⟨rfl, hq⟩
    · simp only [heq, dif_neg hnext]
      refine (Local.ofExcept _).bind ?_
      rintro value _ rfl
      exact .pure ⟨rfl, rfl⟩
  | plus =>
    refine (local_expression Scope.signPrecedence p).bind ?_
    rintro ⟨value, q⟩ ⟨_, q'⟩ ⟨rfl, hq⟩
    exact .pure ⟨rfl, hq⟩
  | minus =>
    refine (local_expression Scope.signPrecedence p).bind ?_
    rintro ⟨value, q⟩ ⟨_, q'⟩ ⟨rfl, hq⟩
    exact .pure ⟨rfl, hq⟩
  | leftParen =>
    refine (local_expression .minimum p).bind ?_
    rintro ⟨value, q, hq⟩ ⟨_, _, hq'⟩ ⟨rfl, rfl⟩
    refine (local_closingParen q).bind ?_
    rintro r r' hr
    exact .pure ⟨rfl, hr⟩
  | comma | star | slash | percent | caret | rightParen | endOfExpression => exact .fail _
termination_by (s.lexemes.length - p, 3)

theorem local_arguments (p : Nat) : Local s s' Same (arguments scope s p) (arguments scope s' p) := by
  rw [arguments, arguments]
  refine .peek fun heq => ?_
  by_cases hk : (s.token p).kind = .rightParen
  · simp only [heq, if_pos hk]
    refine (local_closingParen p).bind ?_
    rintro q q' hq
    exact .pure ⟨rfl, hq⟩
  · simp only [heq, if_neg hk]
    exact local_argumentList p
termination_by (s.lexemes.length - p, 4)

theorem local_argumentList (p : Nat) : Local s s' Same (argumentList scope s p) (argumentList scope s' p) := by
  rw [argumentList, argumentList]
  refine (local_expression .minimum p).bind ?_
  rintro ⟨value, q, hq⟩ ⟨_, _, hq'⟩ ⟨rfl, rfl⟩
  refine .peek fun heq => ?_
  by_cases hk : (s.token q).kind = .comma
  · have hlt : q < s.lexemes.length := s.lt_length_of_kind hk (by decide)
    simp only [heq, dif_pos hk]
    refine (local_argumentList (q + 1)).bind ?_
    rintro ⟨values, r⟩ ⟨_, r'⟩ ⟨rfl, hr⟩
    exact .pure ⟨rfl, hr⟩
  · simp only [heq, dif_neg hk]
    refine (local_closingParen q).bind ?_
    rintro r r' hr
    exact .pure ⟨rfl, hr⟩
termination_by (s.lexemes.length - p, 3)

end

end

end Watched

/-! ### An expression at a cursor -/

/-- Reads an expression at a cursor: its value, and where the cursor is left. -/
def Scope.expressionAt (scope : Scope) (s : TokenStream) (level : Precedence) (p : Nat) : Watched (Float × Nat) := do
  let (value, q) ← Watched.expression scope s level p
  return (value, q.val)

namespace Watched

variable (scope : Scope) (s s' : TokenStream) (level : Precedence) (p : Nat)

theorem reads_expressionAt :
    Reads p (fun q r b => r = (b.1, q) ∧ b.2 = s.rest q ∧ p < q ∧ q ≤ s.lexemes.length ∧ s.Nests p q 0 0)
      (scope.expressionAt s level p) (scope.readExpression level (s.rest p)) := by
  refine (reads_expression level p).bindLeft ?_
  rintro q ⟨value, r, hr⟩ _ _ ⟨rfl, rfl, hnests⟩
  exact .pure ⟨rfl, rfl, hr.1, hr.2, hnests⟩

theorem local_expressionAt :
    Local s s' (fun r r' => r = r') (scope.expressionAt s level p) (scope.expressionAt s' level p) := by
  refine (local_expression level p).bind ?_
  rintro ⟨value, q⟩ ⟨_, q'⟩ ⟨rfl, hq⟩
  exact .pure (congrArg (Prod.mk value) hq)

/-- A parser looks at the token at its cursor first. -/
theorem mem_looked_expressionAt : p ∈ (scope.expressionAt s level p).looked := by
  refine looked_bind_subset _ _ ?_
  rw [expression]
  refine looked_bind_subset _ _ ?_
  rw [operand]
  exact looked_bind_subset (peek s p) _ List.mem_cons_self

end Watched

/-- An expression is read exactly as far as it goes, with one token of look-ahead.  If there is one at the cursor, then
the cursor moves on, at most to the end marker and before a token that binds no tighter than the level.  The parentheses
among the tokens in between are balanced, and every stream with the same tokens up to where the cursor is left, that one
included, has the same expression there.  If there is an error, then it is that of every stream with the same tokens
from the cursor up to the last one that is looked at.  The value, the error and the tokens that are left are those of
the reader. -/
theorem expressionAt_eq_of_agree (scope : Scope) (s : TokenStream) (level : Precedence) (p : Nat) :
    (scope.expressionAt s level p).outcome.map (fun r => (r.1, s.rest r.2)) = scope.readExpression level (s.rest p) ∧
    (∀ value q, (scope.expressionAt s level p).outcome = .ok (value, q) →
      p < q ∧ q ≤ s.lexemes.length ∧ ¬ level < (s.token q).kind.precedence ∧ Token.Balanced (s.between p q) ∧
      (∀ i ∈ (scope.expressionAt s level p).looked, i ≤ q) ∧
      ∀ s' : TokenStream, (∀ i, p ≤ i → i ≤ q → s'.token i = s.token i) →
        (scope.expressionAt s' level p).outcome = .ok (value, q)) ∧
    ∀ error, (scope.expressionAt s level p).outcome = .error error →
      ∃ last ∈ (scope.expressionAt s level p).looked, (∀ i ∈ (scope.expressionAt s level p).looked, i ≤ last) ∧
        ∀ s' : TokenStream, (∀ i, p ≤ i → i ≤ last → s'.token i = s.token i) →
          (scope.expressionAt s' level p).outcome = .error error := by
  have hreads := Watched.reads_expressionAt scope s level p
  have hlocal := fun s' => Watched.local_expressionAt scope s s' level p
  refine ⟨?_, fun value q hq => ?_, fun error he => ?_⟩
  · cases ho : (scope.expressionAt s level p).outcome with
    | error e => exact (hreads.of_error ho).1.symm
    | ok r =>
      obtain ⟨q, b, hb, ⟨rfl, hrest, -⟩, -⟩ := hreads.of_ok ho
      rw [hb]
      exact congrArg (fun rest => Except.ok (b.1, rest)) hrest.symm
  · obtain ⟨q', b, hb, ⟨heq, hrest, hpq, hlen, hnests⟩, hlooked⟩ := hreads.of_ok hq
    cases heq
    refine ⟨hpq, hlen, ?_, hnests 0, fun i hi => (hlooked i hi).2, fun s' hagree => ?_⟩
    · rw [s.token_eq, ← hrest]
      exact Scope.ends_of_readExpression hb
    · rw [← (hlocal s' fun i hi => hagree i (hlooked i hi).1 (hlooked i hi).2).eq, hq]
  · obtain ⟨-, hlooked⟩ := hreads.of_error he
    -- the token at the cursor is looked at, so there is a last one
    obtain ⟨last, hlast, hmax⟩ : ∃ last ∈ (scope.expressionAt s level p).looked,
        ∀ i ∈ (scope.expressionAt s level p).looked, i ≤ last := by
      have hmem : p ∈ (scope.expressionAt s level p).looked.toFinset :=
        List.mem_toFinset.2 (Watched.mem_looked_expressionAt scope s level p)
      obtain ⟨last, hlast, hmax⟩ := Finset.exists_max_image _ id ⟨p, hmem⟩
      exact ⟨last, List.mem_toFinset.1 hlast, fun i hi => hmax i (List.mem_toFinset.2 hi)⟩
    refine ⟨last, hlast, hmax, fun s' hagree => ?_⟩
    rw [← (hlocal s' fun i hi => hagree i (hlooked i hi) (hmax i hi)).eq, he]

/-- The expression `a^b` ends before a `*` inside of a product, and whatever follows the `*` plays no part; a missing
parenthesis is missed at the comma, and whatever follows the comma plays no part. -/
theorem expressionAt_eq_of_agree_ending :
    (Scope.expressionAt ⟨fun _ => some 2, fun _ => none⟩
      ⟨[⟨.minus, "-"⟩, ⟨.identifier, "a"⟩, ⟨.caret, "^"⟩, ⟨.identifier, "b"⟩, ⟨.star, "*"⟩, ⟨.rightParen, ")"⟩]⟩
      .multiplicative 1).outcome = .ok (Float.pow 2 2, 4) ∧
    (Scope.expressionAt ⟨fun _ => some 2, fun _ => none⟩
      ⟨[⟨.comma, ","⟩, ⟨.identifier, "a"⟩, ⟨.caret, "^"⟩, ⟨.identifier, "b"⟩, ⟨.star, "*"⟩]⟩
      .multiplicative 1).outcome = .ok (Float.pow 2 2, 4) ∧
    (Scope.expressionAt ⟨fun _ => some 2, fun _ => none⟩
      ⟨[⟨.leftParen, "("⟩, ⟨.identifier, "a"⟩, ⟨.comma, ","⟩, ⟨.identifier, "b"⟩]⟩
      .minimum 0).outcome = .error (.unexpectedToken .closingParen ⟨.comma, ","⟩) ∧
    (Scope.expressionAt ⟨fun _ => some 2, fun _ => none⟩
      ⟨[⟨.leftParen, "("⟩, ⟨.identifier, "a"⟩, ⟨.comma, ","⟩, ⟨.rightParen, ")"⟩, ⟨.rightParen, ")"⟩]⟩
      .minimum 0).outcome = .error (.unexpectedToken .closingParen ⟨.comma, ","⟩) := by
  have hvalue : ∀ x : Float, (Scope.expressionAt ⟨fun _ => some x, fun _ => none⟩
      ⟨[⟨.minus, "-"⟩, ⟨.identifier, "a"⟩, ⟨.caret, "^"⟩, ⟨.identifier, "b"⟩, ⟨.star, "*"⟩, ⟨.rightParen, ")"⟩]⟩
      .multiplicative 1).outcome = .ok (x.pow x, 4) := by
    intro x
    cbv
  have herror : ∀ x : Float, (Scope.expressionAt ⟨fun _ => some x, fun _ => none⟩
      ⟨[⟨.leftParen, "("⟩, ⟨.identifier, "a"⟩, ⟨.comma, ","⟩, ⟨.identifier, "b"⟩]⟩
      .minimum 0) = ⟨[0, 1, 2, 2, 2], .error (.unexpectedToken .closingParen ⟨.comma, ","⟩)⟩ := by
    intro x
    cbv
  have hfailed := congrArg Watched.outcome (herror 2)
  obtain ⟨-, hfound, -⟩ := expressionAt_eq_of_agree ⟨fun _ => some 2, fun _ => none⟩
    ⟨[⟨.minus, "-"⟩, ⟨.identifier, "a"⟩, ⟨.caret, "^"⟩, ⟨.identifier, "b"⟩, ⟨.star, "*"⟩, ⟨.rightParen, ")"⟩]⟩
    .multiplicative 1
  obtain ⟨-, -, -, -, -, hsame⟩ := hfound _ _ (hvalue 2)
  obtain ⟨-, -, hstopped⟩ := expressionAt_eq_of_agree ⟨fun _ => some 2, fun _ => none⟩
    ⟨[⟨.leftParen, "("⟩, ⟨.identifier, "a"⟩, ⟨.comma, ","⟩, ⟨.identifier, "b"⟩]⟩ .minimum 0
  obtain ⟨last, hlast, -, hsame'⟩ := hstopped _ hfailed
  have hle : last ≤ 2 := by
    rw [herror] at hlast
    have hmem : ∀ i ∈ [0, 1, 2, 2, 2], i ≤ 2 := by decide
    exact hmem last hlast
  refine ⟨hvalue 2, hsame _ fun i hp hq => ?_, hfailed, hsame' _ fun i hp hq => ?_⟩
  · interval_cases i <;> rfl
  · have hi : i ≤ 2 := hq.trans hle
    interval_cases i <;> rfl

end Calculator
