import Calculator.Proofs.Grammar
import Calculator.Reading.Equations

/-!
# Reading at different levels

An expression ends where no operator binds tighter than its level.  Reading at a weak level is reading at a stronger
one first and then going on with the operators in between (`readOperators_of_le`, `readExpression_of_le`); this is
where the levels turn into a stratified grammar.
-/

namespace Calculator.Scope

variable {scope : Scope}

/-! ### Fewer tokens are left -/

theorem length_lt_of_readExpression {level : Precedence} {ts rest : List Token} {value : Float}
    (h : scope.readExpression level ts = .ok (value, rest)) : rest.length < ts.length := by
  obtain ⟨r, -, hr⟩ := map_eq_ok.1 h
  have hrest : r.2.val = rest := congrArg Prod.snd hr
  have := r.2.property
  rwa [hrest] at this

theorem length_lt_of_readOperand {ts rest : List Token} {value : Float}
    (h : scope.readOperand ts = .ok (value, rest)) : rest.length < ts.length := by
  obtain ⟨r, -, hr⟩ := map_eq_ok.1 h
  have hrest : r.2.val = rest := congrArg Prod.snd hr
  have := r.2.property
  rwa [hrest] at this

/-! ### Where an expression ends -/

theorem readOperators_of_ends {level : Precedence} {ts : List Token} (h : Ends level ts) (left : Float) :
    scope.readOperators level left ts = .ok (left, ts) := by
  cases ts with
  | nil => exact readOperators_nil scope level left
  | cons t ts =>
    rw [readOperators_cons]
    exact if_neg h

theorem readOperators_token {level : Precedence} {op : Operator} (h : level < op.precedence) (left : Float)
    (ts : List Token) :
    scope.readOperators level left (op.token :: ts) =
      scope.readExpression op.rightPrecedence ts >>= fun r =>
        scope.readOperators level (op.apply left r.1) r.2 := by
  rw [readOperators_cons, op.ofKind?_token]
  exact if_pos h

/-- Reading operators stops at once, or takes an operator with its right operand and goes on. -/
theorem readOperators_cases {level : Precedence} {left value : Float} {ts rest : List Token}
    (h : scope.readOperators level left ts = .ok (value, rest)) :
    (Ends level ts ∧ value = left ∧ rest = ts) ∨
      ∃ t op us right vs, ts = t :: us ∧ Operator.ofKind? t.kind = some op ∧ level < t.kind.precedence ∧
        scope.readExpression op.rightPrecedence us = .ok (right, vs) ∧
        scope.readOperators level (op.apply left right) vs = .ok (value, rest) := by
  by_cases he : Ends level ts
  · rw [readOperators_of_ends he] at h
    cases h
    exact Or.inl ⟨he, rfl, rfl⟩
  · cases ts with
    | nil => exact absurd (ends_nil level) he
    | cons t us =>
      have hlt : level < t.kind.precedence := Classical.not_not.1 he
      rw [readOperators_cons, if_pos hlt] at h
      cases hop : Operator.ofKind? t.kind with
      | none => simp [hop] at h
      | some op =>
        simp only [hop] at h
        obtain ⟨⟨right, vs⟩, hr, hrest⟩ := bind_eq_ok.1 h
        exact Or.inr ⟨t, op, us, right, vs, rfl, hop, hlt, hr, hrest⟩

theorem ends_of_readOperators {level : Precedence} {left value : Float} {ts rest : List Token}
    (h : scope.readOperators level left ts = .ok (value, rest)) : Ends level rest := by
  rcases readOperators_cases h with ⟨he, -, rfl⟩ | ⟨t, op, us, right, vs, hts, -, -, hr, hrest⟩
  · exact he
  · have hlen : vs.length < ts.length := by
      rw [hts]
      exact Nat.lt_succ_of_lt (length_lt_of_readExpression hr)
    exact ends_of_readOperators hrest
termination_by ts.length

theorem ends_of_readExpression {level : Precedence} {value : Float} {ts rest : List Token}
    (h : scope.readExpression level ts = .ok (value, rest)) : Ends level rest := by
  rw [readExpression_eq] at h
  obtain ⟨r, -, hr⟩ := bind_eq_ok.1 h
  exact ends_of_readOperators hr

/-! ### Weak levels and strong levels -/

/-- The operators of a weak level are those of a stronger level and then the ones in between. -/
theorem readOperators_of_le {level level' : Precedence} (hle : level.rank ≤ level'.rank) (left : Float)
    (ts : List Token) :
    scope.readOperators level left ts =
      scope.readOperators level' left ts >>= fun r => scope.readOperators level r.1 r.2 := by
  by_cases he : Ends level' ts
  · rw [readOperators_of_ends he]
    rfl
  · cases ts with
    | nil => rw [readOperators_nil, readOperators_nil, ok_bind, readOperators_nil]
    | cons t ts =>
      have hlt' : level' < t.kind.precedence := Classical.not_not.1 he
      have hlt : level < t.kind.precedence := Nat.lt_of_le_of_lt hle hlt'
      -- both take the operator, and go on with the tokens behind its right operand
      rw [readOperators_cons, readOperators_cons, if_pos hlt, if_pos hlt']
      cases Operator.ofKind? t.kind with
      | none => rfl
      | some op =>
        simp only [bind_assoc]
        cases hr : scope.readExpression op.rightPrecedence ts with
        | error e => rfl
        | ok r =>
          have := length_lt_of_readExpression hr
          exact readOperators_of_le hle (op.apply left r.1) r.2
termination_by ts.length

/-- An expression at a weak level is one at a stronger level, followed by the operators in between. -/
theorem readExpression_of_le {level : Precedence} (level' : Precedence) (hle : level.rank ≤ level'.rank)
    (ts : List Token) :
    scope.readExpression level ts =
      scope.readExpression level' ts >>= fun r => scope.readOperators level r.1 r.2 := by
  rw [readExpression_eq, readExpression_eq, bind_assoc]
  apply bind_congr
  intro r
  exact readOperators_of_le hle r.1 r.2

end Calculator.Scope
