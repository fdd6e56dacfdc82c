import Calculator.Proofs.Derivation
import Calculator.Proofs.Termination
import Calculator.Proofs.Watch
import Mathlib

/-!
# What an expression takes up

A watched parser ends as the reader does, and its cursor stands where the rest of the reader begins.  It looks neither
at what is before its cursor nor, if it finds something, behind the place where it leaves the cursor.  The parentheses
among the tokens that it takes are balanced; inside the arguments of a call one more is closed than opened.

`Watched.Reads` is this comparison, closed under composition; `Watched.reads_expression` and its companions hold by
induction on the number of tokens from the cursor on.
-/

namespace Calculator

/-! ### Balanced parentheses -/

/-- How many parentheses are open behind the tokens where `depth` are open before them, unless one is closed that is not
open. -/
def Token.openBehind (depth : Nat) : List Token → Option Nat
  | [] => some depth
  | t :: ts =>
    if t.kind = .leftParen then openBehind (depth + 1) ts
    else if t.kind = .rightParen then if depth = 0 then none else openBehind (depth - 1) ts
    else openBehind depth ts

/-- Every parenthesis that is opened is closed, and none is closed that was not opened. -/
def Token.Balanced (ts : List Token) : Prop :=
  Token.openBehind 0 ts = some 0

instance (ts : List Token) : Decidable (Token.Balanced ts) :=
  inferInstanceAs (Decidable (Token.openBehind 0 ts = some 0))

theorem Token.openBehind_append (depth : Nat) (ts us : List Token) :
    openBehind depth (ts ++ us) = openBehind depth ts >>= fun depth' => openBehind depth' us := by
  induction ts generalizing depth with
  | nil => rfl
  | cons t ts ih =>
    rw [List.cons_append, openBehind, openBehind]
    split
    · exact ih (depth + 1)
    · split
      · split
        · rfl
        · exact ih (depth - 1)
      · exact ih depth

namespace TokenStream

variable (s : TokenStream)

/-- The tokens from a position on up to another one. -/
def between (p q : Nat) : List Token :=
  (s.tokens.drop p).take (q - p)

/-- Where any number of parentheses and `before` more are open at `p`, that number and `after` more are open at `q`. -/
def Nests (p q before after : Nat) : Prop :=
  ∀ depth, Token.openBehind (depth + before) (s.between p q) = some (depth + after)

variable {s} {p q r : Nat}

theorem between_append (hpq : p ≤ q) (hqr : q ≤ r) : s.between p r = s.between p q ++ s.between q r := by
  have hlen : r - p = (q - p) + (r - q) := by omega
  have hdrop : p + (q - p) = q := by omega
  rw [between, hlen, List.take_add, List.drop_drop, hdrop]
  rfl

theorem rest_eq_cons (hp : p < s.lexemes.length) : s.rest p = s.token p :: s.rest (p + 1) := by
  have hcons : s.rest p = s.lexemes[p] :: s.rest (p + 1) := List.drop_eq_getElem_cons hp
  rw [token_eq, hcons]
  rfl

theorem between_succ (hp : p < s.lexemes.length) : s.between p (p + 1) = [s.token p] := by
  have hlt : p < s.tokens.length := by
    rw [tokens, List.length_append]
    exact Nat.lt_add_right 1 hp
  rw [between, List.drop_eq_getElem_cons hlt, Nat.add_sub_cancel_left, token, List.getD_eq_getElem _ _ hlt]
  rfl

namespace Nests

variable {before after last : Nat}

theorem refl (s : TokenStream) (p before : Nat) : s.Nests p p before before := by
  intro depth
  rw [between, Nat.sub_self]
  rfl

theorem trans (h : s.Nests p q before after) (h' : s.Nests q r after last) (hpq : p ≤ q) (hqr : q ≤ r) :
    s.Nests p r before last := by
  intro depth
  rw [between_append hpq hqr, Token.openBehind_append, h depth]
  exact h' depth

theorem succ (h : s.Nests p q before after) : s.Nests p q (before + 1) (after + 1) := by
  intro depth
  rw [← Nat.add_assoc, Nat.add_right_comm, h (depth + 1), Nat.add_right_comm, Nat.add_assoc]

theorem token (hp : p < s.lexemes.length) (hl : (s.token p).kind ≠ .leftParen) (hr : (s.token p).kind ≠ .rightParen) :
    s.Nests p (p + 1) before before := by
  intro depth
  rw [between_succ hp, Token.openBehind, if_neg hl, if_neg hr]
  rfl

theorem leftParen (hp : p < s.lexemes.length) (h : (s.token p).kind = .leftParen) : s.Nests p (p + 1) 0 1 := by
  intro depth
  rw [between_succ hp, Token.openBehind, if_pos h]
  rfl

theorem rightParen (hp : p < s.lexemes.length) (h : (s.token p).kind = .rightParen) : s.Nests p (p + 1) 1 0 := by
  intro depth
  have hl : (s.token p).kind ≠ .leftParen := by
    rw [h]
    decide
  rw [between_succ hp, Token.openBehind, if_neg hl, if_pos h]
  rfl

end Nests

end TokenStream

/-! ### Watched parsers and readers -/

theorem Scope.readOperators_eq (scope : Scope) (level : Precedence) (left : Float) (ts : List Token) :
    scope.readOperators level left ts =
      if level < (Token.next ts).kind.precedence then
        match Operator.ofKind? (Token.next ts).kind with
        | none => .error (.unexpectedToken .operator (Token.next ts))
        | some op =>
          scope.readExpression op.rightPrecedence ts.tail >>= fun r =>
            scope.readOperators level (op.apply left r.1) r.2
      else .ok (left, ts) := by
  cases ts with
  | nil => exact (readOperators_nil scope level left).trans (if_neg (ends_nil level)).symm
  | cons t ts => exact readOperators_cons scope level left t ts

/-- An identifier before a parenthesis is looked up before its arguments are read. -/
theorem Scope.readOperand_of_call (scope : Scope) {t : Token} {ts : List Token} (hk : t.kind = .identifier)
    (hnext : (Token.next ts).kind = .leftParen) :
    scope.readOperand (t :: ts) =
      scope.function t.text >>= fun f =>
        scope.readArguments ts.tail >>= fun r => (f r.1).map fun value => (value, r.2) := by
  rw [readOperand_cons, function]
  simp only [hk, if_pos hnext]
  cases scope.function? t.text <;> rfl

namespace Watched

variable {α β γ δ : Type}

/-- The parser ends as the reader does.  It looks at nothing before `p`, and if it finds something at nothing behind the
position where it leaves the cursor; `found` says what it finds there, and what the reader finds. -/
inductive Reads (p : Nat) (found : Nat → α → β → Prop) : Watched α → Except EvalError β → Prop where
  | value {looked : List Nat} {a : α} {b : β} (q : Nat) (hpq : p ≤ q) (hlooked : ∀ i ∈ looked, p ≤ i ∧ i ≤ q)
      (h : found q a b) : Reads p found ⟨looked, .ok a⟩ (.ok b)
  | error {looked : List Nat} (error : EvalError) (hlooked : ∀ i ∈ looked, p ≤ i) :
      Reads p found ⟨looked, .error error⟩ (.error error)

namespace Reads

variable {s : TokenStream} {p p' : Nat} {found : Nat → α → β → Prop} {found' : Nat → γ → δ → Prop} {m : Watched α}
  {x : Except EvalError β}

theorem pure {a : α} {b : β} (h : found p a b) : Reads p found (Pure.pure a : Watched α) (.ok b) :=
  .value p (Nat.le_refl p) (List.forall_mem_nil _) h

theorem fail (error : EvalError) : Reads p found (Watched.fail error : Watched α) (.error error) :=
  .error error (List.forall_mem_nil _)

theorem ofExcept (x : Except EvalError α) : Reads p (fun q a b => q = p ∧ a = b) (Watched.ofExcept x) x := by
  cases x with
  | ok a => exact .value p (Nat.le_refl p) (List.forall_mem_nil _) ⟨rfl, rfl⟩
  | error e => exact .error e (List.forall_mem_nil _)

theorem imp {found' : Nat → α → β → Prop} (hp : p ≤ p') (h : Reads p' found m x)
    (hfound : ∀ q a b, p' ≤ q → found q a b → found' q a b) : Reads p found' m x := by
  cases h with
  | value q hpq hlooked hq =>
    exact .value q (Nat.le_trans hp hpq) (fun i hi => ⟨Nat.le_trans hp (hlooked i hi).1, (hlooked i hi).2⟩)
      (hfound q _ _ hpq hq)
  | error e hlooked => exact .error e fun i hi => Nat.le_trans hp (hlooked i hi)

/-- What was looked at before does not lie behind the cursor. -/
theorem before {looked : List Nat} (hp : p ≤ p') (hlooked : ∀ i ∈ looked, p ≤ i ∧ i ≤ p') (h : Reads p' found m x) :
    Reads p found ⟨looked ++ m.looked, m.outcome⟩ x := by
  cases h with
  | value q hpq hlooked' hq =>
    refine .value q (Nat.le_trans hp hpq) (List.forall_mem_append.2 ⟨fun i hi => ?_, fun i hi => ?_⟩) hq
    · exact ⟨(hlooked i hi).1, Nat.le_trans (hlooked i hi).2 hpq⟩
    · exact ⟨Nat.le_trans hp (hlooked' i hi).1, (hlooked' i hi).2⟩
  | error e hlooked' =>
    exact .error e (List.forall_mem_append.2
      ⟨fun i hi => (hlooked i hi).1, fun i hi => Nat.le_trans hp (hlooked' i hi)⟩)

theorem bind {f : α → Watched γ} {g : β → Except EvalError δ} (h : Reads p found m x)
    (hf : ∀ q a b, p ≤ q → found q a b → Reads q found' (f a) (g b)) : Reads p found' (m >>= f) (x >>= g) := by
  cases h with
  | error e hlooked => exact .error e hlooked
  | value q hpq hlooked hq => exact (hf q _ _ hpq hq).before hpq hlooked

/-- The parser goes on with what it found, and the reader has found it all. -/
theorem bindLeft {found' : Nat → γ → β → Prop} {f : α → Watched γ} (h : Reads p found m x)
    (hf : ∀ q a b, p ≤ q → found q a b → Reads q found' (f a) (.ok b)) : Reads p found' (m >>= f) x := by
  rw [← bind_ok x]
  exact h.bind hf

theorem map {f : α → Watched γ} {g : β → δ} (h : Reads p found m x)
    (hf : ∀ q a b, p ≤ q → found q a b → Reads q found' (f a) (.ok (g b))) : Reads p found' (m >>= f) (x.map g) := by
  rw [map_eq_bind]
  exact h.bind hf

/-- A look at the token at the cursor. -/
theorem peek {f : { t : Token // t = s.token p } → Watched α} (h : Reads p found (f ⟨s.token p, rfl⟩) x) :
    Reads p found (Watched.peek s p >>= f) x :=
  h.before (Nat.le_refl p) (List.forall_mem_singleton.2 ⟨Nat.le_refl p, Nat.le_refl p⟩)

theorem of_ok (h : Reads p found m x) {a : α} (ha : m.outcome = .ok a) :
    ∃ q b, x = .ok b ∧ found q a b ∧ ∀ i ∈ m.looked, p ≤ i ∧ i ≤ q := by
  cases h with
  | value q hpq hlooked hfound =>
    cases ha
    exact ⟨q, _, rfl, hfound, hlooked⟩
  | error e hlooked => cases ha

theorem of_error (h : Reads p found m x) {e : EvalError} (he : m.outcome = .error e) :
    x = .error e ∧ ∀ i ∈ m.looked, p ≤ i := by
  cases h with
  | value q hpq hlooked hfound => cases he
  | error e hlooked =>
    cases he
    exact ⟨rfl, hlooked⟩

end Reads

/-- The cursor comes to `q`: the reader finds the same and leaves the tokens from there on, and between `p` and there
the parentheses go from `before` to `after`. -/
def Leaves (s : TokenStream) (p before after : Nat) {p' : Nat} (q : Nat) (r : α × s.From p') (b : α × List Token) :
    Prop :=
  r.2.val = q ∧ b = (r.1, s.rest q) ∧ s.Nests p q before after

section

variable {scope : Scope} {s : TokenStream}

theorem reads_closingParen (p : Nat) :
    Reads p (fun q (r : s.From (p + 1)) rest => r.val = q ∧ rest = s.rest q ∧ s.Nests p q 1 0) (closingParen s p)
      (Scope.readClosingParen (s.rest p)) := by
  rw [closingParen, Scope.readClosingParen_eq, ← s.token_eq, s.tail_rest]
  refine .peek ?_
  by_cases hk : (s.token p).kind = .rightParen
  · have hp : p < s.lexemes.length := s.lt_length_of_kind hk (by decide)
    simp only [dif_pos hk, if_pos hk]
    refine .value (p + 1) (Nat.le_succ p) (List.forall_mem_nil _) ⟨rfl, rfl, .rightParen hp hk⟩
  · simp only [dif_neg hk, if_neg hk]
    exact .fail _

mutual

theorem reads_expression (level : Precedence) (p : Nat) :
    Reads p (Leaves s p 0 0) (expression scope s level p) (scope.readExpression level (s.rest p)) := by
  rw [expression, Scope.readExpression_eq]
  refine (reads_operand p).bind ?_
  rintro q ⟨left, r⟩ _ hpq ⟨rfl, rfl, hnests⟩
  have hr := r.property
  refine (reads_operators level left r.val hr.2).bindLeft ?_
  rintro q ⟨value, r'⟩ _ hq ⟨rfl, rfl, hnests'⟩
  exact .pure ⟨rfl, rfl, hnests.trans hnests' hpq hq⟩
termination_by (s.lexemes.length - p, 2)

theorem reads_operators (level : Precedence) (left : Float) (p : Nat) (hp : p ≤ s.lexemes.length) :
    Reads p (Leaves s p 0 0) (operators scope s level left p hp) (scope.readOperators level left (s.rest p)) := by
  rw [operators, Scope.readOperators_eq, ← s.token_eq, s.tail_rest]
  refine .peek ?_
  by_cases hlt : level < (s.token p).kind.precedence
  · simp only [dif_pos hlt, if_pos hlt]
    cases hop : Operator.ofKind? (s.token p).kind with
    | none => exact .fail _
    | some op =>
      have hp' : p < s.lexemes.length := s.lt_length_of_ofKind? hop
      have hop_nests : s.Nests p (p + 1) 0 0 := by
        refine .token hp' ?_ ?_ <;> intro hk <;> rw [hk] at hop <;> cases hop
      refine Reads.imp (Nat.le_succ p) ((reads_expression op.rightPrecedence (p + 1)).bind ?_) fun _ _ _ _ h => h
      rintro q ⟨right, r⟩ _ hpq ⟨rfl, rfl, hnests⟩
      have hr := r.property
      refine (reads_operators level (op.apply left right) r.val hr.2).bindLeft ?_
      rintro q ⟨value, r'⟩ _ hq ⟨rfl, rfl, hnests'⟩
      have hright : s.Nests p r.val 0 0 := hop_nests.trans hnests (Nat.le_succ p) hpq
      exact .pure ⟨rfl, rfl, hright.trans hnests' (Nat.le_of_succ_le hpq) hq⟩
  · simp only [dif_neg hlt, if_neg hlt]
    exact .pure ⟨rfl, rfl, .refl s p 0⟩
termination_by (s.lexemes.length - p, 0)

theorem reads_operand (p : Nat) :
    Reads p (Leaves s p 0 0) (operand scope s p) (scope.readOperand (s.rest p)) := by
  rw [operand]
  refine .peek ?_
  by_cases hend : (s.token p).kind = .endOfExpression
  · rw [Scope.readOperand_of_end (by rwa [← s.token_eq]), ← s.token_eq]
    simp only [dif_pos hend]
    exact .fail _
  · have hp : p < s.lexemes.length := s.lt_length_of_kind_ne hend
    simp only [dif_neg hend]
    exact (reads_operandFrom p hp).imp (Nat.le_succ p) fun _ _ _ _ h => h
termination_by (s.lexemes.length - p, 1)

theorem reads_operandFrom (p : Nat) (hp : p < s.lexemes.length) :
    Reads (p + 1) (Leaves s p 0 0) (operandFrom scope s (s.token p) (p + 1) hp) (scope.readOperand (s.rest p)) := by
  rw [operandFrom, s.rest_eq_cons hp]
  cases hk : (s.token p).kind with
  | number =>
    have hnests : s.Nests p (p + 1) 0 0 := .token hp (by simp [hk]) (by simp [hk])
    generalize s.token p = t at hk
    obtain ⟨_, text⟩ := t
    cases hk
    rw [Scope.readOperand_number]
    refine (Reads.ofExcept _).map ?_
    rintro q value _ _ ⟨rfl, rfl⟩
    exact .pure ⟨rfl, rfl, hnests⟩
  | identifier =>
    have hnests : s.Nests p (p + 1) 0 0 := .token hp (by simp [hk]) (by simp [hk])
    refine .peek ?_
    by_cases hnext : (s.token (p + 1)).kind = .leftParen
    · have hp' : p + 1 < s.lexemes.length := s.lt_length_of_kind hnext (by decide)
      have hparen : s.Nests p (p + 2) 0 1 := hnests.trans (.leftParen hp' hnext) (Nat.le_succ p) (Nat.le_succ _)
      rw [Scope.readOperand_of_call scope hk (by rwa [← s.token_eq]), s.tail_rest]
      simp only [dif_pos hnext]
      refine (Reads.ofExcept _).bind ?_
      rintro q f _ _ ⟨rfl, rfl⟩
      refine Reads.imp (Nat.le_succ _) ((reads_arguments (p + 1 + 1)).bind ?_) fun _ _ _ _ h => h
      rintro q ⟨args, r⟩ _ hpq ⟨rfl, rfl, hargs⟩
      refine (Reads.ofExcept _).map ?_
      rintro q value _ _ ⟨rfl, rfl⟩
      exact .pure ⟨rfl, rfl, hparen.trans hargs (by omega) hpq⟩
    · generalize s.token p = t at hk
      obtain ⟨_, name⟩ := t
      cases hk
      rw [Scope.readOperand_constant scope name (by rwa [← s.token_eq])]
      simp only [dif_neg hnext]
      refine (Reads.ofExcept _).map ?_
      rintro q value _ _ ⟨rfl, rfl⟩
      exact .pure ⟨rfl, rfl, hnests⟩
  | plus =>
    have hnests : s.Nests p (p + 1) 0 0 := .token hp (by simp [hk]) (by simp [hk])
    rw [Scope.readOperand_cons]
    simp only [hk]
    refine (reads_expression Scope.signPrecedence (p + 1)).bindLeft ?_
    rintro q ⟨value, r⟩ _ hpq ⟨rfl, rfl, hoperand⟩
    exact .pure ⟨rfl, rfl, hnests.trans hoperand (Nat.le_succ p) hpq⟩
  | minus =>
    have hnests : s.Nests p (p + 1) 0 0 := .token hp (by simp [hk]) (by simp [hk])
    rw [Scope.readOperand_cons]
    simp only [hk]
    refine (reads_expression Scope.signPrecedence (p + 1)).map ?_
    rintro q ⟨value, r⟩ _ hpq ⟨rfl, rfl, hoperand⟩
    exact .pure ⟨rfl, rfl, hnests.trans hoperand (Nat.le_succ p) hpq⟩
  | leftParen =>
    rw [Scope.readOperand_cons]
    simp only [hk]
    refine (reads_expression .minimum (p + 1)).bind ?_
    rintro q ⟨value, r⟩ _ hpq ⟨rfl, rfl, hinner⟩
    refine (reads_closingParen r.val).map ?_
    rintro q r' _ hq ⟨rfl, rfl, hclose⟩
    have hgroup : s.Nests p r.val 0 1 := (TokenStream.Nests.leftParen hp hk).trans hinner.succ (Nat.le_succ p) hpq
    exact .pure ⟨rfl, rfl, hgroup.trans hclose (Nat.le_of_succ_le hpq) hq⟩
  | comma | star | slash | percent | caret | rightParen | endOfExpression =>
    rw [Scope.readOperand_cons]
    simp only [hk]
    exact .fail _
termination_by (s.lexemes.length - p, 0)

theorem reads_arguments (p : Nat) :
    Reads p (Leaves s p 1 0) (arguments scope s p) (scope.readArguments (s.rest p)) := by
  rw [arguments, Scope.readArguments_eq, ← s.token_eq]
  refine .peek ?_
  by_cases hk : (s.token p).kind = .rightParen
  · -- the reader does not check the parenthesis a second time
    have hclose : ((Scope.readClosingParen (s.rest p)).map fun rest => (([] : List Float), rest)) =
        .ok ([], (s.rest p).tail) := by
      rw [Scope.readClosingParen_eq, if_pos (by rwa [← s.token_eq])]
      rfl
    simp only [if_pos hk]
    rw [← hclose]
    refine (reads_closingParen p).map ?_
    rintro q r _ _ ⟨rfl, rfl, hnests⟩
    exact .pure ⟨rfl, rfl, hnests⟩
  · simp only [if_neg hk]
    exact reads_argumentList p
termination_by (s.lexemes.length - p, 4)

theorem reads_argumentList (p : Nat) :
    Reads p (Leaves s p 1 0) (argumentList scope s p) (scope.readArgumentList (s.rest p)) := by
  rw [argumentList, Scope.readArgumentList_eq]
  refine (reads_expression .minimum p).bind ?_
  rintro q ⟨value, r⟩ _ hpq ⟨rfl, rfl, hnests⟩
  have hr := r.property
  refine .peek ?_
  simp only [← s.token_eq, s.tail_rest]
  by_cases hk : (s.token r.val).kind = .comma
  · have hlt : r.val < s.lexemes.length := s.lt_length_of_kind hk (by decide)
    have hcomma : s.Nests r.val (r.val + 1) 1 1 := .token hlt (by simp [hk]) (by simp [hk])
    simp only [dif_pos hk, if_pos hk]
    refine Reads.imp (Nat.le_succ _) ((reads_argumentList (r.val + 1)).map ?_) fun _ _ _ _ h => h
    rintro q ⟨values, r'⟩ _ hq ⟨rfl, rfl, hrest⟩
    have hfirst : s.Nests p (r.val + 1) 1 1 := hnests.succ.trans hcomma hpq (Nat.le_succ _)
    exact .pure ⟨rfl, rfl, hfirst.trans hrest (by omega) hq⟩
  · simp only [dif_neg hk, if_neg hk]
    refine (reads_closingParen r.val).map ?_
    rintro q r' _ hq ⟨rfl, rfl, hclose⟩
    exact .pure ⟨rfl, rfl, hnests.succ.trans hclose hpq hq⟩
termination_by (s.lexemes.length - p, 3)

end

end

end Watched

end Calculator
