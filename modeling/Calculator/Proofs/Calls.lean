import Calculator.Proofs.Grammar

/-!
# The functions that tokens call

Tokens call a function where an identifier stands directly before `(`.  In the tokens of a derivation these are
exactly the calls of the derivation (`Grammar.Sum.callNames_tokens`), so there an identifier that is an atom of its
own never stands before `(`.
-/

namespace Calculator

/-- The identifiers that stand directly before `(`, from left to right. -/
def Token.callNames : List Token → List String
  | [] => []
  | t :: ts => if t.kind = .identifier ∧ (next ts).kind = .leftParen then t.text :: callNames ts else callNames ts

namespace Token

theorem callNames_cons_of_ne {t : Token} (h : t.kind ≠ .identifier) (ts : List Token) :
    callNames (t :: ts) = callNames ts := by
  rw [callNames, if_neg (fun hn => h hn.1)]

theorem callNames_call (name : String) (ts : List Token) :
    callNames (⟨.identifier, name⟩ :: leftParen :: ts) = name :: callNames ts := by
  have hparen : callNames (leftParen :: ts) = callNames ts := callNames_cons_of_ne (by decide) ts
  rw [callNames, if_pos ⟨rfl, rfl⟩, hparen]

theorem callNames_append (ts : List Token) {us : List Token} (h : (next us).kind ≠ .leftParen) :
    callNames (ts ++ us) = callNames ts ++ callNames us := by
  induction ts with
  | nil => rfl
  | cons t ts ih =>
    -- only the last token of `ts` has a token of `us` behind it
    have hnext : (next (ts ++ us)).kind = .leftParen ↔ (next ts).kind = .leftParen := by
      cases ts with
      | nil => exact iff_of_false h (by decide)
      | cons u ts => exact Iff.rfl
    rw [List.cons_append, callNames, callNames, ih]
    by_cases hc : t.kind = .identifier ∧ (next ts).kind = .leftParen
    · rw [if_pos ⟨hc.1, hnext.2 hc.2⟩, if_pos hc, List.cons_append]
    · rw [if_neg (fun hn => hc ⟨hn.1, hnext.1 hn.2⟩), if_neg hc]

/-- A token that is neither an identifier nor `(` separates the calls before it from those behind it. -/
theorem callNames_append_cons (ts : List Token) {t : Token} (hi : t.kind ≠ .identifier) (hp : t.kind ≠ .leftParen)
    (us : List Token) : callNames (ts ++ t :: us) = callNames ts ++ callNames us := by
  have hnext : (next (t :: us)).kind ≠ .leftParen := hp
  rw [callNames_append ts hnext, callNames_cons_of_ne hi]

theorem callNames_append_operator (ts : List Token) (op : Operator) (us : List Token) :
    callNames (ts ++ op.token :: us) = callNames ts ++ callNames us := by
  have hop : op.token.kind ≠ .identifier ∧ op.token.kind ≠ .leftParen := by
    cases op <;> decide
  exact callNames_append_cons ts hop.1 hop.2 us

end Token

namespace Grammar

mutual

/-- The functions that a sum calls, in the order of their names. -/
def Sum.calls : Sum → List String
  | .product p => p.calls
  | .binary l _ _ r => l.calls ++ r.calls

def Product.calls : Product → List String
  | .power p => p.calls
  | .binary l _ _ r => l.calls ++ r.calls

def Power.calls : Power → List String
  | .signed _ p => p.calls
  | .power a p => a.calls ++ p.calls
  | .atom a => a.calls

def Atom.calls : Atom → List String
  | .number _ => []
  | .constant _ => []
  | .callNone name => [name]
  | .call name args => name :: args.calls
  | .group s => s.calls

def Arguments.calls : Arguments → List String
  | .one s => s.calls
  | .more s args => s.calls ++ args.calls

end

mutual

theorem Sum.callNames_tokens (s : Sum) : Token.callNames s.tokens = s.calls := by
  cases s with
  | product p => exact p.callNames_tokens
  | binary l op h r =>
    rw [Sum.tokens, Sum.calls, Token.callNames_append_operator, l.callNames_tokens, r.callNames_tokens]

theorem Product.callNames_tokens (p : Product) : Token.callNames p.tokens = p.calls := by
  cases p with
  | power p => exact p.callNames_tokens
  | binary l op h r =>
    rw [Product.tokens, Product.calls, Token.callNames_append_operator, l.callNames_tokens, r.callNames_tokens]

theorem Power.callNames_tokens (p : Power) : Token.callNames p.tokens = p.calls := by
  cases p with
  | signed s p =>
    have hs : s.token.kind ≠ .identifier := by
      cases s <;> decide
    rw [Power.tokens, Power.calls, Token.callNames_cons_of_ne hs, p.callNames_tokens]
  | power a p =>
    rw [Power.tokens, Power.calls, Token.callNames_append_operator, a.callNames_tokens, p.callNames_tokens]
  | atom a => exact a.callNames_tokens

theorem Atom.callNames_tokens (a : Atom) : Token.callNames a.tokens = a.calls := by
  cases a with
  | number text => rfl
  | constant name => rfl
  | callNone name => rfl
  | call name args =>
    rw [Atom.tokens, Atom.calls, Token.callNames_call, Token.callNames_append_cons _ (by decide) (by decide),
      args.callNames_tokens]
    exact congrArg (name :: ·) (List.append_nil _)
  | group s =>
    have hparen : Token.leftParen.kind ≠ .identifier := by decide
    rw [Atom.tokens, Atom.calls, Token.callNames_cons_of_ne hparen,
      Token.callNames_append_cons _ (by decide) (by decide), s.callNames_tokens]
    exact List.append_nil _

theorem Arguments.callNames_tokens (args : Arguments) : Token.callNames args.tokens = args.calls := by
  cases args with
  | one s => exact s.callNames_tokens
  | more s args =>
    rw [Arguments.tokens, Arguments.calls, Token.callNames_append_cons _ (by decide) (by decide),
      s.callNames_tokens, args.callNames_tokens]

end

end Grammar

end Calculator
