import Calculator.Proofs.Grammar

/-!
# Rules that are recursive to the left

The derivations of sums and of products are recursive to the left, while tokens come from left to right.  A `Chain`
is such a rule, and `Chain.Extends` relates a derivation with the tokens behind it to a derivation that has grown by
taking operators and operands off the front of these tokens.
-/

namespace Calculator.Grammar

/-- A rule that is recursive to the left: derivations of type `β` grow by an operator of the level and a right
operand of type `α`, and every operator that binds tighter than the weaker level binds at least at the level. -/
structure Chain (α β : Type) (weaker level : Precedence) where
  tokens : β → List Token
  rightTokens : α → List Token
  binary : β → (op : Operator) → op.precedence = level → α → β
  tokens_binary : ∀ l op h r, tokens (binary l op h r) = tokens l ++ op.token :: rightTokens r
  weaker_lt : weaker < level
  precedence_eq : ∀ op : Operator, weaker < op.precedence → ¬ level < op.precedence → op.precedence = level
  rightPrecedence_eq : ∀ op : Operator, op.precedence = level → op.rightPrecedence = level

/-- The rule for sums. -/
def sums : Chain Product Sum .minimum .additive where
  tokens := Sum.tokens
  rightTokens := Product.tokens
  binary := Sum.binary
  tokens_binary _ _ _ _ := rfl
  weaker_lt := by decide
  precedence_eq op := by cases op <;> decide
  rightPrecedence_eq op h := op.rightPrecedence_eq h (by decide)

/-- The rule for products. -/
def products : Chain Power Product .additive .multiplicative where
  tokens := Product.tokens
  rightTokens := Power.tokens
  binary := Product.binary
  tokens_binary _ _ _ _ := rfl
  weaker_lt := by decide
  precedence_eq op := by cases op <;> decide
  rightPrecedence_eq op h := op.rightPrecedence_eq h (by decide)

namespace Chain

variable {α β : Type} {weaker level : Precedence} (c : Chain α β weaker level)

/-- `c.Extends d ts d' ts'`: with tokens from the front of `ts` the derivation `d` grows into `d'`, and `ts'` is left.
After each operand the tokens do not go on at a tighter level. -/
inductive Extends : β → List Token → β → List Token → Prop where
  | refl (d : β) (ts : List Token) : Extends d ts d ts
  | step {d d' : β} {ts ts' : List Token} (op : Operator) (h : op.precedence = level) (r : α) (he : Ends level ts)
      (ht : Extends (c.binary d op h r) ts d' ts') : Extends d (op.token :: (c.rightTokens r ++ ts)) d' ts'

variable {c}

theorem Extends.tokens_eq {d d' : β} {ts ts' : List Token} (h : c.Extends d ts d' ts') :
    c.tokens d ++ ts = c.tokens d' ++ ts' := by
  induction h with
  | refl d ts => rfl
  | step op h r he ht ih =>
    rw [← ih, c.tokens_binary, List.append_assoc, List.cons_append]

theorem Extends.snoc {d d' : β} {ts us : List Token} {op : Operator} {hop : op.precedence = level} {r : α}
    (h : c.Extends d us d' (op.token :: (c.rightTokens r ++ ts))) (he : Ends level ts) :
    c.Extends d us (c.binary d' op hop r) ts := by
  generalize hvs : op.token :: (c.rightTokens r ++ ts) = vs at h
  induction h with
  | refl d ws =>
    subst hvs
    exact .step op hop r he (.refl _ _)
  | step op' h' r' he' ht ih => exact .step op' h' r' he' (ih hvs)

/-- A derivation does not grow where the tokens do not go on at a weaker level. -/
theorem Extends.eq_of_ends {d d' : β} {ts ts' : List Token} (h : c.Extends d ts d' ts') (he : Ends weaker ts) :
    d = d' ∧ ts = ts' := by
  cases h with
  | refl => exact ⟨rfl, rfl⟩
  | step op hop r he' ht =>
    have hn : ¬ weaker < op.precedence := he
    rw [hop] at hn
    exact absurd c.weaker_lt hn

/-- A derivation that has grown up to the end of the tokens has taken in each operator on the way. -/
theorem Extends.of_binary {d d' : β} {op : Operator} {hop : op.precedence = level} {r : α} {ts ts' : List Token}
    (h : c.Extends d (op.token :: (c.rightTokens r ++ ts)) d' ts') (he : Ends weaker ts')
    (hr : ∀ r' us, Ends level us → c.rightTokens r ++ ts = c.rightTokens r' ++ us → r = r' ∧ ts = us) :
    c.Extends (c.binary d op hop r) ts d' ts' := by
  generalize hvs : op.token :: (c.rightTokens r ++ ts) = vs at h
  cases h with
  | refl =>
    subst hvs
    have hn : ¬ weaker < op.precedence := he
    rw [hop] at hn
    exact absurd c.weaker_lt hn
  | @step _ _ us _ op' hop' r' he' ht =>
    -- the first operator and its operand are the same, since they make up the same tokens
    obtain ⟨htoken, htail⟩ := List.cons.inj hvs
    obtain rfl := Operator.token_injective htoken
    obtain ⟨rfl, rfl⟩ := hr r' us he' htail
    exact ht

end Chain

end Calculator.Grammar
