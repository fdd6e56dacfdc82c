import Calculator.Proofs.Calls
import Calculator.Proofs.Expression

/-!
# Printing and evaluating

An expression has a derivation for each kind of place in the grammar (`Expression.strata`).  The derivations have the
tokens, the calls and the value of the expression, up to the parentheses (`Expression.renders_strata`, by induction on
the expression), so a text in which the tokens of an expression are written has the value of the expression.
-/

namespace Calculator

/-! ### What the surroundings of a phrase depend on -/

/-- The tokens, the calls and the value of a part of an expression. -/
structure Phrase where
  tokens : List Token
  calls : List String
  value : Scope → Except EvalError Float

namespace Phrase

/-- A phrase in a place that requires a level. -/
def enclose (required own : Precedence) (p : Phrase) : Phrase :=
  ⟨Token.enclose required own p.tokens, p.calls, p.value⟩

def signed (s : Sign) (p : Phrase) : Phrase where
  tokens := s.token :: p.tokens
  calls := p.calls
  value scope := do
    let a ← p.value scope
    return s.apply a

def binary (op : Operator) (p q : Phrase) : Phrase where
  tokens := p.tokens ++ op.token :: q.tokens
  calls := p.calls ++ q.calls
  value scope := do
    let a ← p.value scope
    let b ← q.value scope
    return op.apply a b

end Phrase

/-- An expression as a phrase. -/
def Expression.phrase (e : Expression) : Phrase := ⟨e.tokens, e.calls, fun scope => e.value scope⟩

theorem Expression.phrase_signed (s : Sign) (e : Expression) :
    (signed s e).phrase = .signed s (e.phrase.enclose .exponential e.level) := rfl

theorem Expression.phrase_binary (op : Operator) (l r : Expression) :
    (binary op l r).phrase =
      .binary op (l.phrase.enclose op.leftLevel l.level) (r.phrase.enclose op.rightLevel r.level) := rfl

theorem Expression.phrase_enclose_additive (e : Expression) : e.phrase.enclose .additive e.level = e.phrase := by
  cases e with
  | number text h => rfl
  | constant name h => rfl
  | call name h args => rfl
  | signed s e => rfl
  | binary op l r => cases op <;> rfl

namespace Grammar

/-- A sum as a phrase. -/
def Sum.phrase (s : Sum) : Phrase := ⟨s.tokens, s.calls, fun scope => s.value scope⟩

def Product.phrase (p : Product) : Phrase := ⟨p.tokens, p.calls, fun scope => p.value scope⟩

def Power.phrase (p : Power) : Phrase := ⟨p.tokens, p.calls, fun scope => p.value scope⟩

def Atom.phrase (a : Atom) : Phrase := ⟨a.tokens, a.calls, fun scope => a.value scope⟩

/-- A derivation for each kind of place. -/
structure Strata where
  sum : Sum
  product : Product
  power : Power
  atom : Atom

namespace Strata

/-- The derivations of what is an atom. -/
def ofAtom (a : Atom) : Strata := ⟨.product (.power (.atom a)), .power (.atom a), .atom a, a⟩

/-- The derivations of what is a power; it is no atom. -/
def ofPower (p : Power) : Strata := ⟨.product (.power p), .power p, p, .group (.product (.power p))⟩

/-- The derivations of what is a product; it is no power. -/
def ofProduct (p : Product) : Strata := ⟨.product p, p, .atom (.group (.product p)), .group (.product p)⟩

/-- The derivations of what is a sum; it is no product. -/
def ofSum (s : Sum) : Strata := ⟨s, .power (.atom (.group s)), .atom (.group s), .group s⟩

/-- The derivations of an operator with its operands. -/
def binary (l r : Strata) : Operator → Strata
  | .add => ofSum (.binary l.sum .add rfl r.product)
  | .subtract => ofSum (.binary l.sum .subtract rfl r.product)
  | .multiply => ofProduct (.binary l.product .multiply rfl r.power)
  | .divide => ofProduct (.binary l.product .divide rfl r.power)
  | .modulo => ofProduct (.binary l.product .modulo rfl r.power)
  | .power => ofPower (.power l.atom r.power)

/-- In each kind of place the derivations are the phrase, in parentheses if it is too weak for the place. -/
structure Renders (d : Strata) (level : Precedence) (p : Phrase) : Prop where
  sum : d.sum.phrase = p.enclose .additive level
  product : d.product.phrase = p.enclose .multiplicative level
  power : d.power.phrase = p.enclose .exponential level
  atom : d.atom.phrase = p.enclose .maximum level

theorem renders_ofAtom (a : Atom) : (ofAtom a).Renders .maximum a.phrase := ⟨rfl, rfl, rfl, rfl⟩

theorem renders_ofPower (p : Power) : (ofPower p).Renders .exponential p.phrase := ⟨rfl, rfl, rfl, rfl⟩

theorem renders_ofProduct (p : Product) : (ofProduct p).Renders .multiplicative p.phrase := ⟨rfl, rfl, rfl, rfl⟩

theorem renders_ofSum (s : Sum) : (ofSum s).Renders .additive s.phrase := ⟨rfl, rfl, rfl, rfl⟩

theorem renders_binary {l r : Strata} {levelₗ levelᵣ : Precedence} {p q : Phrase} (hl : l.Renders levelₗ p)
    (hr : r.Renders levelᵣ q) (op : Operator) :
    (binary l r op).Renders op.precedence
      (.binary op (p.enclose op.leftLevel levelₗ) (q.enclose op.rightLevel levelᵣ)) := by
  cases op with
  | add | subtract =>
    rw [Operator.leftLevel, Operator.rightLevel, ← hl.sum, ← hr.product]
    exact renders_ofSum _
  | multiply | divide | modulo =>
    rw [Operator.leftLevel, Operator.rightLevel, ← hl.product, ← hr.power]
    exact renders_ofProduct _
  | power =>
    rw [Operator.leftLevel, Operator.rightLevel, ← hl.atom, ← hr.power]
    exact renders_ofPower _

end Strata

end Grammar

open Grammar

namespace Expression

mutual

/-- The derivations of an expression. -/
def strata : Expression → Strata
  | number text _ => .ofAtom (.number text)
  | constant name _ => .ofAtom (.constant name)
  | call name _ [] => .ofAtom (.callNone name)
  | call name _ (e :: es) => .ofAtom (.call name (arguments e.strata.sum es))
  | signed s e => .ofPower (.signed s e.strata.power)
  | binary op l r => .binary l.strata r.strata op

/-- The derivation of arguments after the first one. -/
def arguments (s : Sum) : List Expression → Arguments
  | [] => .one s
  | e :: es => .more s (arguments e.strata.sum es)

end

mutual

/-- In each kind of place the derivation of an expression is the expression. -/
theorem renders_strata (e : Expression) : e.strata.Renders e.level e.phrase := by
  cases e with
  | number text h => exact Strata.renders_ofAtom _
  | constant name h => exact Strata.renders_ofAtom _
  | call name h args =>
    cases args with
    | nil => exact Strata.renders_ofAtom _
    | cons e es =>
      have he := e.renders_strata.sum
      rw [phrase_enclose_additive] at he
      obtain ⟨htokens, hcalls, hvalues⟩ := arguments_eq e.strata.sum e he es
      have hphrase : (Atom.call name (arguments e.strata.sum es)).phrase = (call name h (e :: es)).phrase := by
        simp only [Atom.phrase, phrase, Atom.tokens, Atom.calls, Atom.value, tokens, calls, value, htokens, hcalls,
          hvalues]
      rw [strata, ← hphrase]
      exact Strata.renders_ofAtom _
  | signed s e =>
    have he := e.renders_strata
    rw [strata, phrase_signed, ← he.power]
    exact Strata.renders_ofPower _
  | binary op l r =>
    rw [strata, phrase_binary]
    exact Strata.renders_binary l.renders_strata r.renders_strata op

theorem arguments_eq (s : Sum) (e : Expression) (hs : s.phrase = e.phrase) (es : List Expression) :
    (arguments s es).tokens = argumentTokens (e :: es) ∧ (arguments s es).calls = argumentCalls (e :: es) ∧
      ∀ scope, (arguments s es).values scope = argumentValues scope (e :: es) := by
  have htokens : s.tokens = e.tokens := congrArg Phrase.tokens hs
  have hcalls : s.calls = e.calls := congrArg Phrase.calls hs
  have hvalue : ∀ scope, s.value scope = e.value scope := congrFun (congrArg Phrase.value hs)
  cases es with
  | nil =>
    refine ⟨htokens, ?_, fun scope => ?_⟩
    · rw [arguments, Arguments.calls, hcalls, argumentCalls, argumentCalls, List.append_nil]
    · rw [arguments, Arguments.values, hvalue, argumentValues]
      rfl
  | cons e' es =>
    have he := e'.renders_strata.sum
    rw [phrase_enclose_additive] at he
    obtain ⟨htokens', hcalls', hvalues'⟩ := arguments_eq e'.strata.sum e' he es
    refine ⟨?_, ?_, fun scope => ?_⟩
    · rw [arguments, Arguments.tokens, htokens, htokens', argumentTokens]
    · rw [arguments, Arguments.calls, hcalls, hcalls']
      rfl
    · rw [arguments, Arguments.values, hvalue, hvalues']
      rfl

end

end Expression

/-- A text in which the tokens of an expression are written evaluates as the expression does, in the value and in the
error.  The tokens have an identifier directly before `(` exactly where the expression has a call, so never for a
constant. -/
theorem evaluate_eq_value_of_written (constants : ConstantTable) (functions : FunctionTable) (limits : Limits)
    (e : Expression) {text : String} (h : Token.Written e.tokens text.toList) :
    evaluate constants functions text limits =
      e.value (Scope.ofTables constants functions (Formula.invoke functions limits 0)) ∧
    Token.callNames e.tokens = e.calls := by
  have hs : e.strata.sum.phrase = e.phrase := by
    rw [e.renders_strata.sum, e.phrase_enclose_additive]
  have htokens : e.strata.sum.tokens = e.tokens := congrArg Phrase.tokens hs
  have hcalls : e.strata.sum.calls = e.calls := congrArg Phrase.calls hs
  have hvalue : ∀ scope, e.strata.sum.value scope = e.value scope := congrFun (congrArg Phrase.value hs)
  have ht : tokenize text = .ok ⟨e.strata.sum.tokens⟩ := by
    rw [htokens]
    exact tokenize_of_written h e.valid_tokens
  constructor
  · rw [evaluate, e.strata.sum.evaluateText_of_tokenize _ ht, Scope.atDepth_eq, hvalue]
  · rw [← htokens, e.strata.sum.callNames_tokens, hcalls]

/-- The sign of a base is written in parentheses, and then it applies before the power. -/
theorem evaluate_eq_value_of_written_base :
    ∃ h : IsNumeral "2".toList,
      Token.Written (Expression.binary .power (.signed .minus (.number "2" h)) (.number "2" h)).tokens
        "(-2) ^2".toList ∧
      evaluate ∅ ∅ "(-2) ^2" =
        (Expression.binary .power (.signed .minus (.number "2" h)) (.number "2" h)).value
          (Scope.ofTables ∅ ∅ (Formula.invoke ∅ {} 0)) := by
  have h : IsNumeral "2".toList := ⟨['2'], ⟨List.cons_ne_nil _ _, List.forall_mem_singleton.2 rfl⟩, Or.inl rfl⟩
  have hnone : ∀ c ∈ ([] : List Char), Text.isBlank c = true := List.forall_mem_nil _
  have hblank : ∀ c ∈ [' '], Text.isBlank c = true := List.forall_mem_singleton.2 rfl
  have h6 : Token.Written [⟨.number, "2"⟩] ['2'] := .cons hnone (.nil hnone) (by decide)
  have h5 : Token.Written [⟨.caret, "^"⟩, ⟨.number, "2"⟩] [' ', '^', '2'] := .cons hblank h6 (by decide)
  have h4 := Token.Written.cons (t := Token.rightParen) hnone h5 (by decide)
  have h3 := Token.Written.cons (t := ⟨.number, "2"⟩) hnone h4 (by decide)
  have h2 := Token.Written.cons (t := ⟨.minus, "-"⟩) hnone h3 (by decide)
  have h1 := Token.Written.cons (t := Token.leftParen) hnone h2 (by decide)
  have hw : Token.Written (Expression.binary .power (.signed .minus (.number "2" h)) (.number "2" h)).tokens
      "(-2) ^2".toList := h1
  exact ⟨h, hw, (evaluate_eq_value_of_written ∅ ∅ {} _ hw).1⟩

end Calculator
