import Calculator.Proofs.Calls
import Calculator.Proofs.Derivation
import Calculator.Proofs.Unambiguity
import Mathlib

/-!
# What is read is derivable

The tokens that a reading used up have a derivation (`Grammar.exists_sum_of_read` and its companions, by induction on
the number of tokens).  Together with `Grammar.Sum.read`, which says that a derivation is read as its value, this
describes reading completely: a text has a value exactly if its tokens have a derivation with that value.
-/

namespace Calculator

namespace Grammar

open Scope

variable {scope : Scope}

theorem eq_cons_of_readClosingParen {ts rest : List Token} (hv : ∀ t ∈ ts, t.Valid)
    (h : readClosingParen ts = .ok rest) : ts = Token.rightParen :: rest := by
  cases ts with
  | nil => cases h
  | cons t ts =>
    rw [readClosingParen_cons] at h
    by_cases hk : t.kind = .rightParen
    · rw [if_pos hk] at h
      cases h
      rw [(hv t List.mem_cons_self).eq_of_kind Token.valid_rightParen (c := ')') rfl hk]
    · rw [if_neg hk] at h
      cases h

/-- The operators read at the level of a chain make the derivation grow, if the right operands have derivations. -/
theorem Chain.exists_extends {α β : Type} {weaker level : Precedence} (c : Chain α β weaker level) {n : Nat}
    (hright : ∀ {us vs : List Token} {value : Float}, us.length < n → (∀ t ∈ us, t.Valid) →
      scope.readExpression level us = .ok (value, vs) → ∃ r, c.rightTokens r ++ vs = us)
    {ts rest : List Token} {left value : Float} (hn : ts.length ≤ n) (hv : ∀ t ∈ ts, t.Valid) (he : Ends level ts)
    (h : scope.readOperators weaker left ts = .ok (value, rest)) (d : β) : ∃ d', c.Extends d ts d' rest := by
  rcases readOperators_cases h with ⟨-, -, rfl⟩ | ⟨t, op, us, right, vs, hts, hop, hlt, hr, hrest⟩
  · exact ⟨d, .refl d rest⟩
  · have hus : us.length < ts.length := by
      rw [hts]
      exact Nat.lt_succ_self us.length
    have hvs : vs.length < us.length := length_lt_of_readExpression hr
    have hends : Ends op.rightPrecedence vs := ends_of_readExpression hr
    subst hts
    obtain rfl := (hv t List.mem_cons_self).eq_operator hop
    have hlevel : op.precedence = level := c.precedence_eq op hlt he
    rw [c.rightPrecedence_eq op hlevel] at hr hends
    have hvus : ∀ t ∈ us, t.Valid := fun t ht => hv t (List.mem_cons_of_mem _ ht)
    obtain ⟨r, rfl⟩ := hright (by omega) hvus hr
    have hvvs : ∀ t ∈ vs, t.Valid := fun t ht => hvus t (List.mem_append_right _ ht)
    obtain ⟨d', hd'⟩ := c.exists_extends hright (by omega) hvvs hends hrest (c.binary d op hlevel r)
    exact ⟨d', .step op hlevel r hends hd'⟩
termination_by ts.length

mutual

/-- What is read at the weakest level is a sum. -/
theorem exists_sum_of_read {ts rest : List Token} {value : Float} (hv : ∀ t ∈ ts, t.Valid)
    (h : scope.readExpression .minimum ts = .ok (value, rest)) : ∃ s : Sum, s.tokens ++ rest = ts := by
  rw [readExpression_of_le .additive (by decide)] at h
  obtain ⟨⟨left, us⟩, hp, hops⟩ := bind_eq_ok.1 h
  have hus := length_lt_of_readExpression hp
  have hends := ends_of_readExpression hp
  obtain ⟨p, rfl⟩ := exists_product_of_read hv hp
  have hvus : ∀ t ∈ us, t.Valid := fun t ht => hv t (List.mem_append_right _ ht)
  obtain ⟨s, hs⟩ := sums.exists_extends (n := us.length)
    (fun hlt hv hr => exists_product_of_read hv hr) (Nat.le_refl _) hvus hends hops (.product p)
  exact ⟨s, hs.tokens_eq.symm⟩
termination_by (ts.length, 3)

theorem exists_product_of_read {ts rest : List Token} {value : Float} (hv : ∀ t ∈ ts, t.Valid)
    (h : scope.readExpression .additive ts = .ok (value, rest)) : ∃ p : Product, p.tokens ++ rest = ts := by
  rw [readExpression_of_le .multiplicative (by decide)] at h
  obtain ⟨⟨left, us⟩, hp, hops⟩ := bind_eq_ok.1 h
  have hus := length_lt_of_readExpression hp
  have hends := ends_of_readExpression hp
  obtain ⟨p, rfl⟩ := exists_power_of_read hv hp
  have hvus : ∀ t ∈ us, t.Valid := fun t ht => hv t (List.mem_append_right _ ht)
  obtain ⟨q, hq⟩ := products.exists_extends (n := us.length)
    (fun hlt hv hr => exists_power_of_read hv hr) (Nat.le_refl _) hvus hends hops (.power p)
  exact ⟨q, hq.tokens_eq.symm⟩
termination_by (ts.length, 2)

theorem exists_power_of_read {ts rest : List Token} {value : Float} (hv : ∀ t ∈ ts, t.Valid)
    (h : scope.readExpression .multiplicative ts = .ok (value, rest)) : ∃ p : Power, p.tokens ++ rest = ts := by
  rw [readExpression_eq] at h
  obtain ⟨⟨left, us⟩, ha, hops⟩ := bind_eq_ok.1 h
  have hus := length_lt_of_readOperand ha
  rcases exists_operand_of_read hv ha with ⟨a, rfl⟩ | ⟨p, rfl, hends⟩
  · rcases readOperators_cases hops with ⟨-, -, rfl⟩ | ⟨t, op, vs, right, ws, rfl, hop, hlt, hp, hrest⟩
    · exact ⟨.atom a, rfl⟩
    · have hvt : t.Valid := hv t (List.mem_append_right _ List.mem_cons_self)
      have hvvs : ∀ u ∈ vs, u.Valid := fun u hu => hv u (List.mem_append_right _ (List.mem_cons_of_mem _ hu))
      obtain rfl := hvt.eq_operator hop
      -- no other operator binds tighter than multiplication
      obtain rfl : op = .power := by
        revert hlt
        cases op <;> decide
      have hends : Ends .multiplicative ws := ends_of_readExpression hp
      have hlen : vs.length < a.tokens.length + (vs.length + 1) := by omega
      obtain ⟨p, rfl⟩ := exists_power_of_read hvvs hp
      rw [readOperators_of_ends hends] at hrest
      cases hrest
      refine ⟨.power a p, ?_⟩
      rw [Power.tokens, List.append_assoc, List.cons_append]
  · rw [readOperators_of_ends hends] at hops
    cases hops
    exact ⟨p, rfl⟩
termination_by (ts.length, 1)

/-- What is read as an operand is an atom or a signed power. -/
theorem exists_operand_of_read {ts rest : List Token} {value : Float} (hv : ∀ t ∈ ts, t.Valid)
    (h : scope.readOperand ts = .ok (value, rest)) :
    (∃ a : Atom, a.tokens ++ rest = ts) ∨ ∃ p : Power, p.tokens ++ rest = ts ∧ Ends .multiplicative rest := by
  cases ts with
  | nil =>
    rw [readOperand_nil] at h
    cases h
  | cons t ts =>
    have ht : t.Valid := hv t List.mem_cons_self
    have hvts : ∀ u ∈ ts, u.Valid := fun u hu => hv u (List.mem_cons_of_mem _ hu)
    have hsign : ∀ s : Sign, t.kind = s.token.kind →
        ∃ p : Power, p.tokens ++ rest = t :: ts ∧ Ends .multiplicative rest := by
      intro s hk
      obtain ⟨c, hc⟩ := s.exists_symbol
      obtain rfl := ht.eq_of_kind s.valid_token hc hk
      rw [readOperand_sign] at h
      obtain ⟨⟨inner, us⟩, hr, heq⟩ := map_eq_ok.1 h
      cases heq
      have hends : Ends .multiplicative us := ends_of_readExpression hr
      obtain ⟨p, rfl⟩ := exists_power_of_read hvts hr
      exact ⟨.signed s p, rfl, hends⟩
    cases hk : t.kind with
    | number =>
      obtain ⟨k, text⟩ := t
      cases hk
      rw [readOperand_number] at h
      obtain ⟨x, -, heq⟩ := map_eq_ok.1 h
      cases heq
      exact Or.inl ⟨.number text, rfl⟩
    | identifier =>
      obtain ⟨k, name⟩ := t
      cases hk
      by_cases hnext : (Token.next ts).kind = .leftParen
      · rw [Token.eq_cons_of_next hvts Token.valid_leftParen rfl hnext] at h ⊢
        have hvtail : ∀ u ∈ ts.tail, u.Valid := fun u hu => hvts u (List.mem_of_mem_tail hu)
        rw [readOperand_call] at h
        obtain ⟨f, -, hf⟩ := bind_eq_ok.1 h
        obtain ⟨⟨values, us⟩, hargs, hvalue⟩ := bind_eq_ok.1 hf
        obtain ⟨x, -, heq⟩ := map_eq_ok.1 hvalue
        cases heq
        have hlen : ts.tail.length ≤ ts.length := length_tail_le ts
        exact Or.inl (exists_call_of_read name hvtail hargs)
      · rw [readOperand_constant scope name hnext] at h
        obtain ⟨x, -, heq⟩ := map_eq_ok.1 h
        cases heq
        exact Or.inl ⟨.constant name, rfl⟩
    | plus => exact Or.inr (hsign .plus hk)
    | minus => exact Or.inr (hsign .minus hk)
    | leftParen =>
      obtain rfl := ht.eq_of_kind Token.valid_leftParen (c := '(') rfl hk
      rw [readOperand_group] at h
      obtain ⟨⟨inner, us⟩, hr, hclose⟩ := bind_eq_ok.1 h
      obtain ⟨vs, hclose, heq⟩ := map_eq_ok.1 hclose
      cases heq
      obtain ⟨s, rfl⟩ := exists_sum_of_read hvts hr
      have hvus : ∀ u ∈ us, u.Valid := fun u hu => hvts u (List.mem_append_right _ hu)
      obtain rfl := eq_cons_of_readClosingParen hvus hclose
      refine Or.inl ⟨.group s, ?_⟩
      simp only [Atom.tokens, List.cons_append, List.append_assoc, List.nil_append]
    | comma | star | slash | percent | caret | rightParen | endOfExpression =>
      rw [readOperand_cons] at h
      simp [hk] at h
termination_by (ts.length, 0)

/-- What is read as the arguments of a call makes up a call. -/
theorem exists_call_of_read (name : String) {ts rest : List Token} {values : List Float} (hv : ∀ t ∈ ts, t.Valid)
    (h : scope.readArguments ts = .ok (values, rest)) :
    ∃ a : Atom, a.tokens ++ rest = ⟨.identifier, name⟩ :: Token.leftParen :: ts := by
  rw [readArguments_eq] at h
  by_cases hclose : (Token.next ts).kind = .rightParen
  · rw [if_pos hclose] at h
    cases h
    refine ⟨.callNone name, ?_⟩
    rw [Token.eq_cons_of_next hv Token.valid_rightParen rfl hclose]
    rfl
  · rw [if_neg hclose] at h
    obtain ⟨args, hargs⟩ := exists_arguments_of_read hv h
    refine ⟨.call name args, ?_⟩
    rw [← hargs, Atom.tokens]
    simp only [List.cons_append, List.append_assoc, List.nil_append]
termination_by (ts.length, 5)

/-- What is read as arguments is arguments and the closing parenthesis. -/
theorem exists_arguments_of_read {ts rest : List Token} {values : List Float} (hv : ∀ t ∈ ts, t.Valid)
    (h : scope.readArgumentList ts = .ok (values, rest)) :
    ∃ args : Arguments, args.tokens ++ Token.rightParen :: rest = ts := by
  rw [readArgumentList_eq] at h
  obtain ⟨⟨value, us⟩, hr, hrest⟩ := bind_eq_ok.1 h
  have hus := length_lt_of_readExpression hr
  obtain ⟨s, rfl⟩ := exists_sum_of_read hv hr
  have hvus : ∀ t ∈ us, t.Valid := fun t ht => hv t (List.mem_append_right _ ht)
  by_cases hcomma : (Token.next us).kind = .comma
  · rw [if_pos hcomma] at hrest
    obtain ⟨⟨values', vs⟩, hargs, heq⟩ := map_eq_ok.1 hrest
    cases heq
    have hvtail : ∀ t ∈ us.tail, t.Valid := fun t ht => hvus t (List.mem_of_mem_tail ht)
    have hlen : us.tail.length ≤ us.length := length_tail_le us
    obtain ⟨args, hargs⟩ := exists_arguments_of_read hvtail hargs
    refine ⟨.more s args, ?_⟩
    rw [Token.eq_cons_of_next hvus Token.valid_comma rfl hcomma, ← hargs, Arguments.tokens, List.append_assoc,
      List.cons_append]
  · rw [if_neg hcomma] at hrest
    obtain ⟨vs, hclose, heq⟩ := map_eq_ok.1 hrest
    cases heq
    obtain rfl := eq_cons_of_readClosingParen hvus hclose
    exact ⟨.one s, rfl⟩
termination_by (ts.length, 4)

end

/-- A list of tokens that has a value has a derivation. -/
theorem exists_sum_of_evaluate {ts : List Token} {value : Float} (hv : ∀ t ∈ ts, t.Valid)
    (h : scope.evaluate ts = .ok value) : ∃ s : Sum, s.tokens = ts := by
  rw [evaluate_eq] at h
  obtain ⟨⟨value', rest⟩, hr, hend⟩ := bind_eq_ok.1 h
  obtain ⟨s, rfl⟩ := exists_sum_of_read hv hr
  cases rest with
  | nil => exact ⟨s, (List.append_nil _).symm⟩
  | cons t rest =>
    have ht : t.Valid := hv t (List.mem_append_right _ List.mem_cons_self)
    rw [if_neg (show (Token.next (t :: rest)).kind ≠ .endOfExpression from ht.kind_ne_end)] at hend
    cases hend

/-- The tokens of a text that has a value have a derivation with this value. -/
theorem exists_sum_of_evaluateText {text : String} {value : Float} (h : scope.evaluateText text = .ok value) :
    ∃ s : Sum, tokenize text = .ok ⟨s.tokens⟩ ∧ s.value scope = .ok value := by
  by_cases hne : text = ""
  · rw [evaluateText, if_pos hne] at h
    cases h
  · cases ht : tokenize text with
    | error error =>
      rw [evaluateText, if_neg hne, ht] at h
      cases h
    | ok stream =>
      obtain ⟨ts⟩ := stream
      rw [evaluateText_of_tokenize scope hne ht] at h
      obtain ⟨s, rfl⟩ := exists_sum_of_evaluate (valid_of_tokenize ht) h
      rw [s.evaluate_tokens] at h
      exact ⟨s, rfl, h⟩

end Grammar

/-- Reading is sound and complete for the grammar, and the grammar is unambiguous: a text has a value exactly if its
tokens have a derivation with that value, and no list of tokens has two derivations.  The calls of a derivation are
the identifiers directly before `(`, so no identifier that is an operand of its own stands there. -/
theorem evaluateText_eq_ok_iff_exists_derivation (functions : FunctionTable) (limits : Limits) (depth : Nat)
    (constants : ConstantTable) {text : String} {stream : TokenStream} (ht : tokenize text = .ok stream)
    (value : Float) :
    ((Scope.atDepth functions limits depth constants).evaluateText text = .ok value ↔
      ∃ s : Grammar.Sum, s.tokens = stream.lexemes ∧
        s.value (Scope.ofTables constants functions (Formula.invoke functions limits depth)) = .ok value) ∧
    (∀ s s' : Grammar.Sum, s.tokens = s'.tokens → s = s') ∧
    ∀ s : Grammar.Sum, Token.callNames s.tokens = s.calls := by
  refine ⟨⟨?_, ?_⟩, fun s s' => Grammar.Sum.eq_of_tokens, Grammar.Sum.callNames_tokens⟩
  · intro h
    obtain ⟨s, hs, hvalue⟩ := Grammar.exists_sum_of_evaluateText h
    rw [ht] at hs
    rw [Scope.atDepth_eq] at hvalue
    cases hs
    exact ⟨s, rfl, hvalue⟩
  · rintro ⟨s, hs, hvalue⟩
    have ht' : tokenize text = .ok ⟨s.tokens⟩ := by
      rw [ht, hs]
    rw [s.evaluateText_of_tokenize _ ht', Scope.atDepth_eq, hvalue]

/-- The powers of `a^b^a` are grouped to the right in the derivation of its tokens. -/
theorem evaluateText_eq_ok_iff_exists_derivation_power :
    tokenize "a^b^a" =
      .ok ⟨[⟨.identifier, "a"⟩, ⟨.caret, "^"⟩, ⟨.identifier, "b"⟩, ⟨.caret, "^"⟩, ⟨.identifier, "a"⟩]⟩ ∧
    (Scope.atDepth ∅ {} 0 (Std.TreeMap.ofList [("a", (2 : Float)), ("b", 3)])).evaluateText "a^b^a" =
      .ok (Float.pow 2 (Float.pow 3 2)) := by
  have ht : tokenize "a^b^a" =
      .ok ⟨[⟨.identifier, "a"⟩, ⟨.caret, "^"⟩, ⟨.identifier, "b"⟩, ⟨.caret, "^"⟩, ⟨.identifier, "a"⟩]⟩ := by cbv
  have hvalue : ∀ x y : Float,
      (Scope.atDepth ∅ {} 0 (Std.TreeMap.ofList [("a", x), ("b", y)])).evaluateText "a^b^a" =
        .ok (x.pow (y.pow x)) := by
    intro x y
    have hs := evaluateText_eq_ok_iff_exists_derivation ∅ {} 0 (Std.TreeMap.ofList [("a", x), ("b", y)]) ht
    let right : Grammar.Power := .power (.constant "b") (.atom (.constant "a"))
    exact (hs (x.pow (y.pow x))).1.2 ⟨.product (.power (.power (.constant "a") right)), rfl, by cbv⟩
  exact ⟨ht, hvalue 2 3⟩

end Calculator
