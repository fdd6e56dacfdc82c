import Calculator.Proofs.Invocation
import Calculator.Proofs.Levels

/-!
# Reading derivations

Reading the tokens of a derivation gives the value of the derivation, errors included, and leaves what follows them,
provided that what follows does not go on with an operator of the derivation's own level (`Grammar.Sum.read` and its
companions, by induction on the derivation).  In particular a text whose tokens have a derivation has the value of the
derivation (`Grammar.Sum.evaluateText_of_tokenize`).
-/

namespace Calculator

namespace Scope

variable (scope : Scope)

/-! ### The kinds of operands -/

theorem readOperand_number (text : String) (ts : List Token) :
    scope.readOperand (⟨.number, text⟩ :: ts) = (Numeral.read text).map fun value => (value, ts) := by
  rw [readOperand_cons, Numeral.read]
  cases Numeral.value? text <;> rfl

theorem readOperand_constant (name : String) {ts : List Token} (h : (Token.next ts).kind ≠ .leftParen) :
    scope.readOperand (⟨.identifier, name⟩ :: ts) = (scope.constant name).map fun value => (value, ts) := by
  rw [readOperand_cons, constant]
  simp only [if_neg h]
  cases scope.constant? name <;> rfl

theorem readOperand_call (name : String) (ts : List Token) :
    scope.readOperand (⟨.identifier, name⟩ :: Token.leftParen :: ts) =
      scope.function name >>= fun f => scope.readArguments ts >>= fun r => (f r.1).map fun value => (value, r.2) := by
  have hnext : (Token.next (Token.leftParen :: ts)).kind = .leftParen := rfl
  rw [readOperand_cons, function]
  simp only [if_pos hnext, List.tail_cons]
  cases scope.function? name <;> rfl

theorem readOperand_sign (s : Sign) (ts : List Token) :
    scope.readOperand (s.token :: ts) =
      (scope.readExpression signPrecedence ts).map fun r => (s.apply r.1, r.2) := by
  rw [readOperand_cons]
  cases s with
  | plus => cases scope.readExpression signPrecedence ts <;> rfl
  | minus => rfl

theorem readOperand_group (ts : List Token) :
    scope.readOperand (Token.leftParen :: ts) =
      scope.readExpression .minimum ts >>= fun r => (readClosingParen r.2).map fun rest => (r.1, rest) := by
  rw [readOperand_cons]
  rfl

theorem readClosingParen_rightParen (ts : List Token) : readClosingParen (Token.rightParen :: ts) = .ok ts := by
  rw [readClosingParen_cons]
  rfl

end Scope

namespace Grammar

open Scope

variable (scope : Scope)

/-! ### The tokens of a derivation are read as the derivation says -/

mutual

/-- A sum is read as its value, and then the expression may go on with a further operator. -/
theorem Sum.read (s : Sum) {rest : List Token} (h : Ends .additive rest) :
    scope.readExpression .minimum (s.tokens ++ rest) =
      s.value scope >>= fun value => scope.readOperators .minimum value rest := by
  cases s with
  | product p =>
    have hp := p.read (h.of_le (by decide))
    rw [Sum.tokens, Sum.value, readExpression_of_le .additive (by decide), hp, bind_assoc]
    apply bind_congr
    intro value
    rw [readOperators_of_ends h, ok_bind]
  | binary l op hop r =>
    have hl := l.read (ends_operator op hop (r.tokens ++ rest))
    have hr := r.read (h.of_le (by decide))
    have hlt : Precedence.minimum < op.precedence := by
      rw [hop]
      decide
    rw [Sum.tokens, Sum.value, List.append_assoc, List.cons_append, hl, bind_assoc]
    apply bind_congr
    intro a
    rw [readOperators_token hlt, op.rightPrecedence_eq hop (by decide), hr, bind_assoc, bind_assoc]
    apply bind_congr
    intro b
    rw [readOperators_of_ends h]
    rfl

theorem Product.read (p : Product) {rest : List Token} (h : Ends .multiplicative rest) :
    scope.readExpression .additive (p.tokens ++ rest) =
      p.value scope >>= fun value => scope.readOperators .additive value rest := by
  cases p with
  | power p =>
    have hp := p.read h
    rw [Product.tokens, Product.value, readExpression_of_le .multiplicative (by decide), hp, bind_assoc]
    rfl
  | binary l op hop r =>
    have hl := l.read (ends_operator op hop (r.tokens ++ rest))
    have hr := r.read h
    have hlt : Precedence.additive < op.precedence := by
      rw [hop]
      decide
    rw [Product.tokens, Product.value, List.append_assoc, List.cons_append, hl, bind_assoc]
    apply bind_congr
    intro a
    rw [readOperators_token hlt, op.rightPrecedence_eq hop (by decide), hr, bind_assoc, bind_assoc]
    rfl

theorem Power.read (p : Power) {rest : List Token} (h : Ends .multiplicative rest) :
    scope.readExpression .multiplicative (p.tokens ++ rest) =
      p.value scope >>= fun value => .ok (value, rest) := by
  cases p with
  | signed s p =>
    have hp := p.read h
    rw [Power.tokens, Power.value, List.cons_append, readExpression_eq, readOperand_sign, map_eq_bind]
    show ((scope.readExpression .multiplicative (p.tokens ++ rest) >>= _) >>= _) = _
    rw [hp, bind_assoc, bind_assoc, bind_assoc]
    apply bind_congr
    intro a
    exact readOperators_of_ends h _
  | power a p =>
    have ha := a.read (ends_operator .power rfl (p.tokens ++ rest))
    have hp := p.read h
    have hlt : Precedence.multiplicative < Operator.power.precedence := by decide
    rw [Power.tokens, Power.value, List.append_assoc, List.cons_append, readExpression_eq, ha, bind_assoc, bind_assoc]
    apply bind_congr
    intro x
    rw [ok_bind, readOperators_token hlt]
    show (scope.readExpression .multiplicative (p.tokens ++ rest) >>= _) = _
    rw [hp, bind_assoc, bind_assoc]
    apply bind_congr
    intro y
    exact readOperators_of_ends h _
  | atom a =>
    have ha := a.read (h.of_le (by decide))
    rw [Power.tokens, Power.value, readExpression_eq, ha, bind_assoc]
    apply bind_congr
    intro x
    exact readOperators_of_ends h x

theorem Atom.read (a : Atom) {rest : List Token} (h : Ends .exponential rest) :
    scope.readOperand (a.tokens ++ rest) = a.value scope >>= fun value => .ok (value, rest) := by
  cases a with
  | number text =>
    rw [Atom.tokens, Atom.value, ← map_eq_bind]
    exact readOperand_number scope text rest
  | constant name =>
    rw [Atom.tokens, Atom.value, ← map_eq_bind]
    exact readOperand_constant scope name h.next_ne_leftParen
  | callNone name =>
    rw [Atom.tokens, Atom.value, bind_assoc]
    show scope.readOperand (_ :: Token.leftParen :: Token.rightParen :: rest) = _
    rw [readOperand_call]
    apply bind_congr
    intro f
    rw [readArguments_eq]
    exact map_eq_bind (f []) _
  | call name args =>
    have hargs := args.read rest
    rw [Atom.tokens, Atom.value, bind_assoc]
    show scope.readOperand (_ :: Token.leftParen :: ((args.tokens ++ [Token.rightParen]) ++ rest)) = _
    rw [readOperand_call, List.append_assoc, List.singleton_append]
    apply bind_congr
    intro f
    rw [readArguments_eq, if_neg (args.next_tokens_ne _), hargs, bind_assoc, bind_assoc]
    rfl
  | group s =>
    have hs := s.read (ends_rightParen .additive rest)
    rw [Atom.tokens, Atom.value]
    show scope.readOperand (Token.leftParen :: ((s.tokens ++ [Token.rightParen]) ++ rest)) = _
    rw [readOperand_group, List.append_assoc, List.singleton_append, hs, bind_assoc]
    apply bind_congr
    intro value
    rw [readOperators_of_ends (ends_rightParen .minimum rest), ok_bind, readClosingParen_rightParen]
    rfl

/-- Arguments are read as their values, up to the closing parenthesis. -/
theorem Arguments.read (args : Arguments) (rest : List Token) :
    scope.readArgumentList (args.tokens ++ Token.rightParen :: rest) =
      args.values scope >>= fun values => .ok (values, rest) := by
  cases args with
  | one s =>
    have hs := s.read (ends_rightParen .additive rest)
    rw [Arguments.tokens, Arguments.values, readArgumentList_eq, hs, bind_assoc, bind_assoc]
    apply bind_congr
    intro a
    rw [readOperators_of_ends (ends_rightParen .minimum rest), ok_bind, readClosingParen_rightParen]
    rfl
  | more s args =>
    have hs := s.read (ends_comma .additive (args.tokens ++ Token.rightParen :: rest))
    have hargs := args.read rest
    rw [Arguments.tokens, Arguments.values, List.append_assoc, List.cons_append, readArgumentList_eq, hs, bind_assoc,
      bind_assoc]
    apply bind_congr
    intro a
    rw [readOperators_of_ends (ends_comma .minimum _), ok_bind]
    show ((scope.readArgumentList (args.tokens ++ Token.rightParen :: rest)).map _) = _
    rw [hargs, map_eq_bind, bind_assoc, bind_assoc]
    rfl

end

/-- The value of a list of tokens that has a derivation is the value of the derivation. -/
theorem Sum.evaluate_tokens (s : Sum) : scope.evaluate s.tokens = s.value scope := by
  have hs := s.read scope (ends_nil .additive)
  rw [List.append_nil] at hs
  rw [evaluate_eq, hs, bind_assoc]
  have hnil : ∀ value, scope.readOperators .minimum value [] = .ok (value, []) := readOperators_nil scope .minimum
  simp only [hnil, ok_bind]
  exact bind_ok _

/-- The value of a text whose tokens have a derivation is the value of the derivation. -/
theorem Sum.evaluateText_of_tokenize (s : Sum) {text : String} (ht : tokenize text = .ok ⟨s.tokens⟩) :
    scope.evaluateText text = s.value scope := by
  have hne : s.tokens ≠ [] := by
    obtain ⟨t, ts, hs, -⟩ := s.tokens_eq_cons
    rw [hs]
    exact List.cons_ne_nil t ts
  rw [Scope.evaluateText_of_tokenize scope (ne_empty_of_tokenize ht hne) ht, s.evaluate_tokens]

end Grammar

end Calculator
