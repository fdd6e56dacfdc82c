import Calculator.Proofs.Chain

/-!
# The grammar is unambiguous

A list of tokens has at most one derivation (`Grammar.Sum.eq_of_tokens`).  The rules for sums and products are
recursive to the left, so two derivations of one list cannot be compared from their first tokens on; but each has
grown from its first operand (`Sum.exists_extends`), and of two derivations at the front of the same tokens a complete
one extends the other (`Sum.extends_of_tokens_eq`).
-/

namespace Calculator.Grammar

/-- Every sum has grown from its first product. -/
theorem Sum.exists_extends : ∀ (s : Sum) {rest : List Token}, Ends .additive rest →
    ∃ p ts, Ends .additive ts ∧ s.tokens ++ rest = p.tokens ++ ts ∧ sums.Extends (.product p) ts s rest
  | .product p, rest, h => ⟨p, rest, h, rfl, .refl _ _⟩
  | .binary l op hop r, rest, h => by
    obtain ⟨p, ts, he, htokens, hext⟩ := l.exists_extends (ends_operator op hop (r.tokens ++ rest))
    refine ⟨p, ts, he, ?_, hext.snoc h⟩
    rw [← htokens, Sum.tokens, List.append_assoc, List.cons_append]

theorem Product.exists_extends : ∀ (p : Product) {rest : List Token}, Ends .multiplicative rest →
    ∃ q ts, Ends .multiplicative ts ∧ p.tokens ++ rest = q.tokens ++ ts ∧ products.Extends (.power q) ts p rest
  | .power q, rest, h => ⟨q, rest, h, rfl, .refl _ _⟩
  | .binary l op hop r, rest, h => by
    obtain ⟨q, ts, he, htokens, hext⟩ := l.exists_extends (ends_operator op hop (r.tokens ++ rest))
    refine ⟨q, ts, he, ?_, hext.snoc h⟩
    rw [← htokens, Product.tokens, List.append_assoc, List.cons_append]

theorem sign_cons_ne (s : Sign) (a : Atom) (ts us : List Token) : s.token :: ts ≠ a.tokens ++ us := by
  intro heq
  obtain ⟨t, vs, ha, ht⟩ := a.tokens_eq_cons
  rw [ha] at heq
  obtain ⟨rfl, -⟩ := List.cons.inj heq
  cases s <;> simp [Sign.token] at ht

theorem rightParen_cons_ne (args : Arguments) (ts us : List Token) : Token.rightParen :: ts ≠ args.tokens ++ us := by
  intro heq
  have hnext := args.next_tokens_ne us
  rw [← heq] at hnext
  exact hnext rfl

theorem not_ends_leftParen (ts : List Token) : ¬ Ends .exponential (Token.leftParen :: ts) :=
  fun h => h.next_ne_leftParen rfl

theorem not_ends_power (ts : List Token) : ¬ Ends .multiplicative (Operator.power.token :: ts) :=
  fun h => h (show Precedence.multiplicative < Precedence.exponential by decide)

mutual

/-- Of two sums at the front of the same tokens, the second one complete, the second extends the first. -/
theorem Sum.extends_of_tokens_eq (s : Sum) {s' : Sum} {rest rest' : List Token} (h : Ends .additive rest)
    (h' : Ends .minimum rest') (heq : s.tokens ++ rest = s'.tokens ++ rest') : sums.Extends s rest s' rest' := by
  cases s with
  | product p =>
    obtain ⟨p', ts, he, htokens, hext⟩ := s'.exists_extends (h'.of_le (by decide))
    have hp := p.extends_of_tokens_eq (h.of_le (by decide)) he (heq.trans htokens)
    obtain ⟨rfl, rfl⟩ := hp.eq_of_ends h
    exact hext
  | binary l op hop r =>
    rw [Sum.tokens, List.append_assoc, List.cons_append] at heq
    have hl := l.extends_of_tokens_eq (ends_operator op hop (r.tokens ++ rest)) h' heq
    -- `l` grows into `s'` over tokens that begin with `op` and `r`, so `s'` has them as well
    refine hl.of_binary h' fun r' us he hr => ?_
    exact (r.extends_of_tokens_eq (h.of_le (by decide)) he hr).eq_of_ends h

theorem Product.extends_of_tokens_eq (p : Product) {p' : Product} {rest rest' : List Token}
    (h : Ends .multiplicative rest) (h' : Ends .additive rest') (heq : p.tokens ++ rest = p'.tokens ++ rest') :
    products.Extends p rest p' rest' := by
  cases p with
  | power q =>
    obtain ⟨q', ts, he, htokens, hext⟩ := p'.exists_extends (h'.of_le (by decide))
    obtain ⟨rfl, rfl⟩ := q.eq_of_tokens_eq h he (heq.trans htokens)
    exact hext
  | binary l op hop r =>
    rw [Product.tokens, List.append_assoc, List.cons_append] at heq
    have hl := l.extends_of_tokens_eq (ends_operator op hop (r.tokens ++ rest)) h' heq
    exact hl.of_binary h' fun r' us he hr => r.eq_of_tokens_eq h he hr

/-- Two powers at the front of the same tokens are equal. -/
theorem Power.eq_of_tokens_eq (p : Power) {p' : Power} {rest rest' : List Token} (h : Ends .multiplicative rest)
    (h' : Ends .multiplicative rest') (heq : p.tokens ++ rest = p'.tokens ++ rest') : p = p' ∧ rest = rest' := by
  cases p with
  | signed s p =>
    cases p' with
    | signed s' p' =>
      obtain ⟨hs, hp⟩ := List.cons.inj heq
      obtain rfl := Sign.token_injective hs
      obtain ⟨rfl, rfl⟩ := p.eq_of_tokens_eq h h' hp
      exact ⟨rfl, rfl⟩
    | power a' p' =>
      rw [Power.tokens, Power.tokens, List.append_assoc] at heq
      exact absurd heq (sign_cons_ne s a' _ _)
    | atom a' => exact absurd heq (sign_cons_ne s a' _ _)
  | power a p =>
    have hpower := ends_operator .power rfl (p.tokens ++ rest)
    rw [Power.tokens, List.append_assoc, List.cons_append] at heq
    cases p' with
    | signed s' p' => exact absurd heq.symm (sign_cons_ne s' a _ _)
    | power a' p' =>
      rw [Power.tokens, List.append_assoc, List.cons_append] at heq
      obtain ⟨rfl, htail⟩ := a.eq_of_tokens_eq hpower (ends_operator .power rfl _) heq
      obtain ⟨rfl, rfl⟩ := p.eq_of_tokens_eq h h' (List.cons.inj htail).2
      exact ⟨rfl, rfl⟩
    | atom a' =>
      -- an atom alone does not end before `^`
      obtain ⟨-, rfl⟩ := a.eq_of_tokens_eq hpower (h'.of_le (by decide)) heq
      exact absurd h' (not_ends_power _)
  | atom a =>
    have hrest : Ends .exponential rest := h.of_le (by decide)
    cases p' with
    | signed s' p' => exact absurd heq.symm (sign_cons_ne s' a _ _)
    | power a' p' =>
      rw [Power.tokens, Power.tokens, List.append_assoc, List.cons_append] at heq
      obtain ⟨-, rfl⟩ := a.eq_of_tokens_eq hrest (ends_operator .power rfl _) heq
      exact absurd h (not_ends_power _)
    | atom a' =>
      obtain ⟨rfl, rfl⟩ := a.eq_of_tokens_eq hrest (h'.of_le (by decide)) heq
      exact ⟨rfl, rfl⟩

theorem Atom.eq_of_tokens_eq (a : Atom) {a' : Atom} {rest rest' : List Token} (h : Ends .exponential rest)
    (h' : Ends .exponential rest') (heq : a.tokens ++ rest = a'.tokens ++ rest') : a = a' ∧ rest = rest' := by
  cases a with
  | number text =>
    cases a' with
    | number text' =>
      obtain ⟨ht, rfl⟩ := List.cons.inj heq
      cases ht
      exact ⟨rfl, rfl⟩
    | constant | callNone | call | group => simp [Atom.tokens, Token.leftParen] at heq
  | constant name =>
    cases a' with
    | constant name' =>
      obtain ⟨ht, rfl⟩ := List.cons.inj heq
      cases ht
      exact ⟨rfl, rfl⟩
    | callNone name' =>
      obtain ⟨-, rfl⟩ := List.cons.inj heq
      exact absurd h (not_ends_leftParen _)
    | call name' args' =>
      obtain ⟨-, rfl⟩ := List.cons.inj heq
      exact absurd h (not_ends_leftParen _)
    | number | group => simp [Atom.tokens, Token.leftParen] at heq
  | callNone name =>
    cases a' with
    | constant name' =>
      obtain ⟨-, rfl⟩ := List.cons.inj heq.symm
      exact absurd h' (not_ends_leftParen _)
    | callNone name' =>
      obtain ⟨ht, htail⟩ := List.cons.inj heq
      cases ht
      exact ⟨rfl, (List.cons.inj (List.cons.inj htail).2).2⟩
    | call name' args' =>
      simp only [Atom.tokens, List.cons_append, List.nil_append, List.append_assoc, List.cons.injEq] at heq
      exact absurd heq.2.2 (rightParen_cons_ne args' _ _)
    | number | group => simp [Atom.tokens, Token.leftParen] at heq
  | call name args =>
    cases a' with
    | constant name' =>
      obtain ⟨-, rfl⟩ := List.cons.inj heq.symm
      exact absurd h' (not_ends_leftParen _)
    | callNone name' =>
      simp only [Atom.tokens, List.cons_append, List.nil_append, List.append_assoc, List.cons.injEq] at heq
      exact absurd heq.2.2.symm (rightParen_cons_ne args _ _)
    | call name' args' =>
      simp only [Atom.tokens, List.cons_append, List.nil_append, List.append_assoc, List.cons.injEq, Token.mk.injEq,
        true_and] at heq
      obtain ⟨rfl, hargs⟩ := heq
      obtain ⟨rfl, rfl⟩ := args.eq_of_tokens_eq hargs
      exact ⟨rfl, rfl⟩
    | number | group => simp [Atom.tokens, Token.leftParen] at heq
  | group s =>
    cases a' with
    | group s' =>
      simp only [Atom.tokens, List.cons_append, List.nil_append, List.append_assoc, List.cons.injEq, true_and] at heq
      have hs := s.extends_of_tokens_eq (ends_rightParen _ rest) (ends_rightParen _ rest') heq
      obtain ⟨rfl, htail⟩ := hs.eq_of_ends (ends_rightParen .minimum rest)
      exact ⟨rfl, (List.cons.inj htail).2⟩
    | number | constant | callNone | call => simp [Atom.tokens, Token.leftParen] at heq

/-- Two lists of arguments in front of a closing parenthesis are equal. -/
theorem Arguments.eq_of_tokens_eq (args : Arguments) {args' : Arguments} {rest rest' : List Token}
    (heq : args.tokens ++ Token.rightParen :: rest = args'.tokens ++ Token.rightParen :: rest') :
    args = args' ∧ rest = rest' := by
  have hright := fun ts => ends_rightParen .minimum ts
  have hcomma := fun ts => ends_comma .minimum ts
  cases args with
  | one s =>
    cases args' with
    | one s' =>
      have hs := s.extends_of_tokens_eq (ends_rightParen _ rest) (hright rest') heq
      obtain ⟨rfl, htail⟩ := hs.eq_of_ends (hright rest)
      exact ⟨rfl, (List.cons.inj htail).2⟩
    | more s' args' =>
      rw [Arguments.tokens, Arguments.tokens, List.append_assoc, List.cons_append] at heq
      have hs := s.extends_of_tokens_eq (ends_rightParen _ rest) (hcomma _) heq
      obtain ⟨-, htail⟩ := hs.eq_of_ends (hright rest)
      exact absurd (List.cons.inj htail).1 (by decide)
  | more s args =>
    rw [Arguments.tokens, List.append_assoc, List.cons_append] at heq
    cases args' with
    | one s' =>
      have hs := s.extends_of_tokens_eq (ends_comma _ _) (hright rest') heq
      obtain ⟨-, htail⟩ := hs.eq_of_ends (hcomma _)
      exact absurd (List.cons.inj htail).1 (by decide)
    | more s' args' =>
      rw [Arguments.tokens, List.append_assoc, List.cons_append] at heq
      have hs := s.extends_of_tokens_eq (ends_comma _ _) (hcomma _) heq
      obtain ⟨rfl, htail⟩ := hs.eq_of_ends (hcomma _)
      obtain ⟨rfl, rfl⟩ := args.eq_of_tokens_eq (List.cons.inj htail).2
      exact ⟨rfl, rfl⟩

end

/-- A list of tokens has at most one derivation. -/
theorem Sum.eq_of_tokens {s s' : Sum} (h : s.tokens = s'.tokens) : s = s' := by
  have heq : s.tokens ++ [] = s'.tokens ++ [] := by rw [h]
  have hs := s.extends_of_tokens_eq (ends_nil .additive) (ends_nil .minimum) heq
  exact (hs.eq_of_ends (ends_nil .minimum)).1

end Calculator.Grammar
