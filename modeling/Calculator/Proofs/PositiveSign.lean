import Calculator.Proofs.Isolation
import Calculator.Proofs.Levels

/-!
# Positive signs

A plus sign before an operand changes nothing: not the value, not the error, and not what is left behind the operand.
An expression at a level that is no stronger than that of the signs is read with the sign as it is read without it
(`Scope.readExpression_plus`), since the operand of the sign and the operators that the level adds make up the whole.

`Signed due ts ts'` says that `ts'` is `ts` with plus signs put in where operands are due.  Such lists are read in
step (`Signed.readExpression` and its companions, by induction on the number of tokens), and where reading stops in
one list it stops at the same token of the other.
-/

namespace Calculator

/-- Whether an operand or the end of an empty list of arguments is due behind a token of this kind. -/
def Token.Kind.precedesOperand : Kind → Bool
  | comma | plus | minus | star | slash | percent | caret | leftParen => true
  | number | identifier | rightParen | endOfExpression => false

theorem Token.Kind.precedesOperand_of_ofKind? {kind : Kind} {op : Operator} (h : Operator.ofKind? kind = some op) :
    kind.precedesOperand = true := by
  cases kind <;> first | rfl | cases h

/-- Whatever follows an operator is read at a level that is no stronger than that of the signs. -/
theorem Operator.rank_rightPrecedence_le (op : Operator) : op.rightPrecedence.rank ≤ Scope.signPrecedence.rank := by
  cases op <;> decide

namespace Scope

variable {scope : Scope}

/-- A plus sign makes no difference at the beginning of an expression. -/
theorem readExpression_plus {level : Precedence} (hlevel : level.rank ≤ signPrecedence.rank) {s : Token}
    (hs : s.kind = .plus) (ts : List Token) : scope.readExpression level (s :: ts) = scope.readExpression level ts := by
  have hsign : scope.readOperand (s :: ts) = scope.readExpression signPrecedence ts := by
    rw [readOperand_cons]
    simp only [hs]
  rw [readExpression_eq, hsign, ← readExpression_of_le signPrecedence hlevel]

/-- The tokens on the right are those on the left with plus signs put in where operands are due; `due` says whether one
is due at the front.  A sign does not come between the parentheses of a call without arguments. -/
inductive Signed : Bool → List Token → List Token → Prop where
  | nil (due : Bool) : Signed due [] []
  | token (due : Bool) (t : Token) {ts ts' : List Token} (h : Signed t.kind.precedesOperand ts ts') :
      Signed due (t :: ts) (t :: ts')
  | sign {s : Token} {ts ts' : List Token} (hs : s.kind = .plus) (hts : (Token.next ts).kind ≠ .rightParen)
      (h : Signed true ts ts') : Signed true ts (s :: ts')

namespace Signed

theorem refl (due : Bool) (ts : List Token) : Signed due ts ts := by
  induction ts generalizing due with
  | nil => exact .nil due
  | cons t ts ih => exact .token due t (ih t.kind.precedesOperand)

/-- One sign is put in behind some tokens, the last of which an operand follows. -/
theorem insert {due : Bool} {s t : Token} (hs : s.kind = .plus) (ht : t.kind ≠ .rightParen) (pre post : List Token)
    (hdue : pre = [] → due = true) (hpre : ∀ u, pre.getLast? = some u → u.kind.precedesOperand = true) :
    Signed due (pre ++ t :: post) (pre ++ s :: t :: post) := by
  induction pre generalizing due with
  | nil =>
    rw [hdue rfl]
    exact .sign hs ht (refl true (t :: post))
  | cons u pre ih =>
    refine .token due u (ih (fun hnil => ?_) fun v hv => ?_)
    · subst hnil
      exact hpre u rfl
    · refine hpre v ?_
      rw [List.getLast?_cons, hv, Option.getD_some]

variable {ts ts' : List Token}

/-- Where no operand is due, the next token is the same. -/
theorem next (h : Signed false ts ts') : Token.next ts' = Token.next ts := by
  cases h <;> rfl

theorem ends {level : Precedence} (h : Signed false ts ts') (he : Ends level ts) : Ends level ts' := by
  rwa [Ends, h.next]

/-- One is an empty list of arguments if the other is. -/
theorem next_eq_rightParen_iff (h : Signed true ts ts') :
    (Token.next ts').kind = .rightParen ↔ (Token.next ts).kind = .rightParen := by
  cases h with
  | nil => exact Iff.rfl
  | token => exact Iff.rfl
  | @sign s _ _ hs hts h =>
    refine iff_of_false (fun hk : s.kind = .rightParen => ?_) hts
    rw [hs] at hk
    cases hk

/-! ### Reading in step -/

/-- What was found is the same, and behind it the lists are signed. -/
abbrev Found {α : Type} (r r' : α × List Token) : Prop :=
  r.1 = r'.1 ∧ Signed false r.2 r'.2

theorem closingParen (h : Signed false ts ts') :
    Comparison.equal.Outcomes (Signed false) (readClosingParen ts) (readClosingParen ts') := by
  cases h with
  | nil => exact .error rfl
  | token due t h =>
    rw [readClosingParen_cons, readClosingParen_cons]
    by_cases hk : t.kind = .rightParen
    · rw [hk] at h
      rw [if_pos hk, if_pos hk]
      exact .value h
    · rw [if_neg hk, if_neg hk]
      exact .error rfl

mutual

theorem readExpression {level : Precedence} (hlevel : level.rank ≤ signPrecedence.rank) {ts ts' : List Token}
    (h : Signed true ts ts') :
    Comparison.equal.Outcomes Found (scope.readExpression level ts) (scope.readExpression level ts') := by
  cases h with
  | sign hs hts h =>
    -- only the second list gets shorter, so the induction is on that one
    rw [readExpression_plus hlevel hs]
    exact readExpression hlevel h
  | nil =>
    rw [readExpression_eq, readOperand_nil]
    exact .error rfl
  | token due t h =>
    rw [readExpression_eq, readExpression_eq]
    refine (readOperand t h).bind_of_eq ?_
    rintro ⟨left, rest⟩ ⟨_, rest'⟩ - hr ⟨rfl, hrest⟩
    have hlen := length_lt_of_readOperand hr
    exact readOperators level left hrest
termination_by (ts'.length, 1)

theorem readOperators (level : Precedence) (left : Float) {ts ts' : List Token} (h : Signed false ts ts') :
    Comparison.equal.Outcomes Found (scope.readOperators level left ts) (scope.readOperators level left ts') := by
  by_cases he : Ends level ts
  · rw [readOperators_of_ends he, readOperators_of_ends (h.ends he)]
    exact .value ⟨rfl, h⟩
  · cases h with
    | nil => exact absurd (ends_nil level) he
    | @token due t us us' h =>
      have hlt : level < t.kind.precedence := Classical.not_not.1 he
      rw [readOperators_cons, readOperators_cons, if_pos hlt, if_pos hlt]
      cases hop : Operator.ofKind? t.kind with
      | none => exact .error rfl
      | some op =>
        rw [Token.Kind.precedesOperand_of_ofKind? hop] at h
        refine (readExpression op.rank_rightPrecedence_le h).bind_of_eq ?_
        rintro ⟨right, rest⟩ ⟨_, rest'⟩ - hr ⟨rfl, hrest⟩
        have hlen := length_lt_of_readExpression hr
        have hlen' : us'.length < (t :: us').length := Nat.lt_succ_self us'.length
        exact readOperators level (op.apply left right) hrest
termination_by (ts'.length, 0)

theorem readOperand (t : Token) {ts ts' : List Token} (h : Signed t.kind.precedesOperand ts ts') :
    Comparison.equal.Outcomes Found (scope.readOperand (t :: ts)) (scope.readOperand (t :: ts')) := by
  rw [readOperand_cons, readOperand_cons]
  cases hk : t.kind with
  | number =>
    rw [hk] at h
    cases Numeral.value? t.text with
    | none => exact .error rfl
    | some value => exact .value ⟨rfl, h⟩
  | identifier =>
    rw [hk] at h
    simp only [h.next]
    by_cases hnext : (Token.next ts).kind = .leftParen
    · simp only [if_pos hnext]
      cases scope.function? t.text with
      | none => exact .error rfl
      | some f =>
        cases h with
        | nil => cases hnext
        | @token due p us us' h =>
          have hp : p.kind = .leftParen := hnext
          rw [hp] at h
          refine (readArguments h).bind ?_
          rintro ⟨args, rest⟩ ⟨_, rest'⟩ ⟨rfl, hrest⟩
          cases f args with
          | error e => exact .error rfl
          | ok value => exact .value ⟨rfl, hrest⟩
    · simp only [if_neg hnext]
      cases scope.constant? t.text with
      | none => exact .error rfl
      | some value => exact .value ⟨rfl, h⟩
  | plus =>
    rw [hk] at h
    exact readExpression (Nat.le_refl _) h
  | minus =>
    rw [hk] at h
    refine (readExpression (Nat.le_refl _) h).map ?_
    rintro ⟨value, rest⟩ ⟨_, rest'⟩ ⟨rfl, hrest⟩
    exact ⟨rfl, hrest⟩
  | leftParen =>
    rw [hk] at h
    refine (readExpression (Nat.zero_le _) h).bind ?_
    rintro ⟨value, rest⟩ ⟨_, rest'⟩ ⟨rfl, hrest⟩
    exact hrest.closingParen.map fun _ _ hus => ⟨rfl, hus⟩
  | comma | star | slash | percent | caret | rightParen | endOfExpression => exact .error rfl
termination_by (ts'.length, 4)

theorem readArguments {ts ts' : List Token} (h : Signed true ts ts') :
    Comparison.equal.Outcomes Found (scope.readArguments ts) (scope.readArguments ts') := by
  rw [readArguments_eq, readArguments_eq]
  by_cases hk : (Token.next ts).kind = .rightParen
  · rw [if_pos hk, if_pos (h.next_eq_rightParen_iff.2 hk)]
    cases h with
    | nil => cases hk
    | token due t h =>
      have ht : t.kind = .rightParen := hk
      rw [ht] at h
      exact .value ⟨rfl, h⟩
    | sign hs hts h => exact absurd hk hts
  · rw [if_neg hk, if_neg (fun hk' => hk (h.next_eq_rightParen_iff.1 hk'))]
    exact readArgumentList h
termination_by (ts'.length, 3)

theorem readArgumentList {ts ts' : List Token} (h : Signed true ts ts') :
    Comparison.equal.Outcomes Found (scope.readArgumentList ts) (scope.readArgumentList ts') := by
  rw [readArgumentList_eq, readArgumentList_eq]
  refine (readExpression (Nat.zero_le _) h).bind_of_eq ?_
  rintro ⟨value, us⟩ ⟨_, us'⟩ - hr ⟨rfl, hus⟩
  have hlen := length_lt_of_readExpression hr
  simp only [hus.next]
  by_cases hk : (Token.next us).kind = .comma
  · simp only [if_pos hk]
    cases hus with
    | nil => cases hk
    | @token due t vs vs' h =>
      have ht : t.kind = .comma := hk
      have hlen' : vs'.length < ts'.length := Nat.lt_of_succ_lt hlen
      rw [ht] at h
      refine (readArgumentList h).map ?_
      rintro ⟨values, rest⟩ ⟨_, rest'⟩ ⟨rfl, hrest⟩
      exact ⟨rfl, hrest⟩
  · simp only [if_neg hk]
    exact hus.closingParen.map fun _ _ hvs => ⟨rfl, hvs⟩
termination_by (ts'.length, 2)

end

/-- Signs change neither the value of the tokens nor the error. -/
theorem evaluate {ts ts' : List Token} (h : Signed true ts ts') : scope.evaluate ts = scope.evaluate ts' := by
  rw [evaluate_eq, evaluate_eq]
  refine ((readExpression (Nat.zero_le _) h).bind ?_).eq
  rintro ⟨value, rest⟩ ⟨_, rest'⟩ ⟨rfl, hrest⟩
  simp only [hrest.next]
  split
  · exact .value rfl
  · exact .error rfl

end Signed

end Scope

/-- A plus sign may be put before every token that begins an operand and stands at the front or behind an operator, a
sign, `(` or `,`: the tokens have the same value as before, or fail with the same error, whether they are well formed or
not.  So do all texts with these tokens. -/
theorem evaluate_insert_plus (functions : FunctionTable) (limits : Limits) (depth : Nat) (constants : ConstantTable)
    (pre post : List Token) {s t : Token} (hs : s.kind = .plus)
    (ht : t.kind ∈ [.number, .identifier, .leftParen, .plus, .minus])
    (hpre : ∀ u, pre.getLast? = some u →
      u.kind ∈ [.plus, .minus, .star, .slash, .percent, .caret, .leftParen, .comma]) :
    (Scope.atDepth functions limits depth constants).evaluate (pre ++ s :: t :: post) =
      (Scope.atDepth functions limits depth constants).evaluate (pre ++ t :: post) ∧
    ∀ text text' : String, tokenize text = .ok ⟨pre ++ t :: post⟩ → tokenize text' = .ok ⟨pre ++ s :: t :: post⟩ →
      (Scope.atDepth functions limits depth constants).evaluateText text' =
        (Scope.atDepth functions limits depth constants).evaluateText text := by
  have hoperand : t.kind ≠ .rightParen := by
    rintro hk
    rw [hk] at ht
    exact absurd ht (by decide)
  have hdue : ∀ u, pre.getLast? = some u → u.kind.precedesOperand = true := by
    intro u hu
    have hmem : ∀ kind ∈ [Token.Kind.plus, .minus, .star, .slash, .percent, .caret, .leftParen, .comma],
        kind.precedesOperand = true := by decide
    exact hmem u.kind (hpre u hu)
  have hsigned : Scope.Signed true (pre ++ t :: post) (pre ++ s :: t :: post) :=
    .insert hs hoperand pre post (fun _ => rfl) hdue
  refine ⟨hsigned.evaluate.symm, fun text text' htext htext' => ?_⟩
  rw [Scope.evaluateText_of_tokenize _ (ne_empty_of_tokenize htext (by simp)) htext,
    Scope.evaluateText_of_tokenize _ (ne_empty_of_tokenize htext' (by simp)) htext', ← hsigned.evaluate]

/-- The sign before the right operand of a power takes in the power that follows, as the operand does. -/
theorem evaluate_insert_plus_power :
    Token.kind ⟨.plus, "+"⟩ = .plus ∧
    Token.kind ⟨.identifier, "b"⟩ ∈ [.number, .identifier, .leftParen, .plus, .minus] ∧
    (∀ u, [⟨.identifier, "a"⟩, ⟨.caret, "^"⟩].getLast? = some u →
      Token.kind u ∈ [.plus, .minus, .star, .slash, .percent, .caret, .leftParen, .comma]) ∧
    (Scope.atDepth ∅ {} 0 (Std.TreeMap.ofList [("a", (2 : Float)), ("b", 3)])).evaluate
      [⟨.identifier, "a"⟩, ⟨.caret, "^"⟩, ⟨.plus, "+"⟩, ⟨.identifier, "b"⟩, ⟨.caret, "^"⟩, ⟨.identifier, "a"⟩] =
        .ok (Float.pow 2 (Float.pow 3 2)) ∧
    (Scope.atDepth ∅ {} 0 (Std.TreeMap.ofList [("a", (2 : Float)), ("b", 3)])).evaluateText "a^+b^a" =
      (Scope.atDepth ∅ {} 0 (Std.TreeMap.ofList [("a", (2 : Float)), ("b", 3)])).evaluateText "a^b^a" := by
  have hs : Token.kind ⟨.plus, "+"⟩ = .plus := rfl
  have ht : Token.kind ⟨.identifier, "b"⟩ ∈ [.number, .identifier, .leftParen, .plus, .minus] := by decide
  have hpre : ∀ u, [⟨.identifier, "a"⟩, ⟨.caret, "^"⟩].getLast? = some u →
      Token.kind u ∈ [.plus, .minus, .star, .slash, .percent, .caret, .leftParen, .comma] := by
    rintro u ⟨⟩
    decide
  have hvalue : ∀ a b : Float, (Scope.atDepth ∅ {} 0 (Std.TreeMap.ofList [("a", a), ("b", b)])).evaluate
      [⟨.identifier, "a"⟩, ⟨.caret, "^"⟩, ⟨.identifier, "b"⟩, ⟨.caret, "^"⟩, ⟨.identifier, "a"⟩] =
        .ok (a.pow (b.pow a)) := by
    intro a b
    cbv
  obtain ⟨htokens, htexts⟩ := evaluate_insert_plus ∅ {} 0 (Std.TreeMap.ofList [("a", (2 : Float)), ("b", 3)])
    _ [⟨.caret, "^"⟩, ⟨.identifier, "a"⟩] hs ht hpre
  exact ⟨hs, ht, hpre, htokens.trans (hvalue 2 3), htexts "a^b^a" "a^+b^a" (by cbv) (by cbv)⟩

end Calculator
