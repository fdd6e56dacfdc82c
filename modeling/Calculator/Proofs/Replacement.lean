import Calculator.Proofs.Derivation

/-!
# Replacing operands

`Replaced scope scope' tail ts ts'` says that `ts'` comes from `ts` by replacing operands, each by another one that has
in `scope'` the value that it has in `scope`, and by adding `tail` at the end.  If `ts` can be read in `scope`, then
`ts'` can be read in `scope'`, with the same value and with what is left of `ts` replaced in the same way:
`Replaced.readExpression` and its companions, by induction on the number of tokens.

One thing can go wrong.  Where an operand directly follows an operand, the reading of `ts` may stop before it, and the
reading of `ts'` may fail there, since the replacement may begin with another kind of token.  But nothing can be read
on from there (`Token.Stuck`), so the reading of `ts` fails in the end.
-/

namespace Calculator

/-- Whether a token of this kind begins an operand and can do nothing else. -/
def Token.Kind.startsOperand : Kind → Bool
  | number | identifier | leftParen => true
  | comma | plus | minus | star | slash | percent | caret | rightParen | endOfExpression => false

theorem Token.Kind.startsOperand_eq_false {kind : Kind} {op : Operator} (h : Operator.ofKind? kind = some op) :
    kind.startsOperand = false := by
  cases kind <;> first | rfl | cases h

/-- The tokens begin with an operand. -/
def Token.Stuck (ts : List Token) : Prop :=
  (next ts).kind.startsOperand = true

theorem Token.Stuck.kind_ne {ts : List Token} (h : Stuck ts) {kind : Kind} (hk : kind.startsOperand = false) :
    (next ts).kind ≠ kind := by
  rintro rfl
  rw [Stuck, hk] at h
  cases h

namespace Scope

/-- The tokens on the right come from those on the left by replacing operands and adding `tail`.  A constant that stays
keeps its value; the name of a function stays together with the parenthesis behind it (`call`). -/
inductive Replaced (scope scope' : Scope) (tail : List Token) : List Token → List Token → Prop where
  | tail : Replaced scope scope' tail [] tail
  | token {ts ts' : List Token} (t : Token) (h : Replaced scope scope' tail ts ts')
      (hconstant : t.kind = .identifier → (Token.next ts).kind ≠ .leftParen ∧
        ∀ value, scope.constant? t.text = some value → scope'.constant? t.text = some value) :
      Replaced scope scope' tail (t :: ts) (t :: ts')
  | call {ts ts' : List Token} (t p : Token) (ht : t.kind = .identifier) (hp : p.kind = .leftParen)
      (h : Replaced scope scope' tail ts ts') : Replaced scope scope' tail (t :: p :: ts) (t :: p :: ts')
  | operand {us us' ts ts' : List Token} (hus : Token.Stuck us) (hus' : Token.Stuck us')
      (h : Replaced scope scope' tail ts ts')
      (hread : ∀ value rest, scope.readOperand us = .ok (value, rest) →
        rest = ts ∧ scope'.readOperand us' = .ok (value, ts')) : Replaced scope scope' tail us us'

/-- Where a function of `scope` has a value, the function of `scope'` of the same name has it too. -/
structure Refines (scope scope' : Scope) : Prop where
  function? : ∀ {name : String} {f : List Float → Except EvalError Float} {args : List Float} {value : Float},
    scope.function? name = some f → f args = .ok value →
      ∃ f', scope'.function? name = some f' ∧ f' args = .ok value

theorem Refines.refl (scope : Scope) : scope.Refines scope :=
  ⟨fun hf hvalue => ⟨_, hf, hvalue⟩⟩

variable {scope scope' : Scope} {tail : List Token}

/-- Tokens may stand before the ones that are replaced if `scope'` knows the constants among them.  The last of them
must not be a name that a parenthesis turns into the name of a function. -/
theorem Replaced.append_of_agree (pre : List Token) {ts ts' : List Token}
    (hlast : ∀ t, pre.getLast? = some t → t.kind = .identifier → (Token.next ts).kind ≠ .leftParen)
    (hpre : ∀ t ∈ pre, t.kind = .identifier →
      ∀ value, scope.constant? t.text = some value → scope'.constant? t.text = some value)
    (h : Replaced scope scope' tail ts ts') : Replaced scope scope' tail (pre ++ ts) (pre ++ ts') := by
  match pre with
  | [] => exact h
  | t :: pre =>
    have hlast_of_cons : ∀ (u : Token) (us : List Token) {v : Token}, us.getLast? = some v →
        (u :: us).getLast? = some v := by
      intro u us v hv
      rw [List.getLast?_cons, hv, Option.getD_some]
    by_cases hcall : t.kind = .identifier ∧ (Token.next (pre ++ ts)).kind = .leftParen
    · cases pre with
      | nil => exact absurd hcall.2 (hlast t rfl hcall.1)
      | cons p pre =>
        refine .call t p hcall.1 hcall.2 (append_of_agree pre (fun u hu => ?_) (fun u hu => ?_) h)
        · exact hlast u (hlast_of_cons t _ (hlast_of_cons p _ hu))
        · exact hpre u (List.mem_cons_of_mem t (List.mem_cons_of_mem p hu))
    · refine .token t (append_of_agree pre (fun u hu => ?_) (fun u hu => ?_) h) fun ht => ⟨fun hp => hcall ⟨ht, hp⟩, ?_⟩
      · exact hlast u (hlast_of_cons t _ hu)
      · exact hpre u (List.mem_cons_of_mem t hu)
      · exact hpre t List.mem_cons_self ht

/-- Any tokens may stand before the ones that are replaced. -/
theorem Replaced.append (pre : List Token) {ts ts' : List Token} (hnext : (Token.next ts).kind ≠ .leftParen)
    (h : Replaced scope scope tail ts ts') : Replaced scope scope tail (pre ++ ts) (pre ++ ts') :=
  h.append_of_agree pre (fun _ _ _ => hnext) fun _ _ _ _ hvalue => hvalue

/-! ### The token that comes next -/

/-- Nothing can be read on where the tokens begin with an operand. -/
theorem eq_of_stuck {level : Precedence} {left value : Float} {ts rest : List Token} (hs : Token.Stuck ts)
    (h : scope.readOperators level left ts = .ok (value, rest)) : rest = ts := by
  rcases readOperators_cases h with ⟨-, -, rfl⟩ | ⟨t, op, us, right, vs, rfl, hop, -, -, -⟩
  · rfl
  · exact absurd rfl (hs.kind_ne (Token.Kind.startsOperand_eq_false hop))

theorem readClosingParen_ne_of_stuck {ts rest : List Token} (hs : Token.Stuck ts) :
    readClosingParen ts ≠ .ok rest := by
  intro hr
  cases ts with
  | nil => cases hr
  | cons t ts =>
    have hk : t.kind ≠ .rightParen := hs.kind_ne rfl
    rw [readClosingParen_cons, if_neg hk] at hr
    cases hr

theorem Replaced.next {ts ts' : List Token} (h : Replaced scope scope' tail ts ts') :
    (Token.Stuck ts ∧ Token.Stuck ts') ∨ (ts = [] ∧ ts' = tail) ∨ Token.next ts' = Token.next ts := by
  cases h with
  | tail => exact Or.inr (Or.inl ⟨rfl, rfl⟩)
  | token t h hconstant => exact Or.inr (Or.inr rfl)
  | call t p ht hp h => exact Or.inr (Or.inr rfl)
  | operand hus hus' h hread => exact Or.inl ⟨hus, hus'⟩

/-- A token that begins no operand is not replaced. -/
theorem Replaced.of_cons {t : Token} {ts ts' : List Token} (h : Replaced scope scope' tail (t :: ts) ts')
    (ht : t.kind.startsOperand = false) : ∃ us', ts' = t :: us' ∧ Replaced scope scope' tail ts us' := by
  cases h with
  | token t h hconstant => exact ⟨_, rfl, h⟩
  | call t p hk hp h =>
    rw [hk] at ht
    cases ht
  | operand hus hus' h hread => exact absurd rfl (hus.kind_ne ht)

/-- An expression that ends at the tokens ends at the replaced ones, unless they begin with an operand. -/
theorem Replaced.ends {level : Precedence} {ts ts' : List Token} (h : Replaced scope scope' tail ts ts')
    (htail : Ends .minimum tail) (he : Ends level ts) : Token.Stuck ts ∨ Ends level ts' := by
  rcases h.next with ⟨hs, -⟩ | ⟨-, rfl⟩ | hnext
  · exact Or.inl hs
  · exact Or.inr (htail.of_le (Nat.zero_le _))
  · refine Or.inr ?_
    rwa [Ends, hnext]

theorem Replaced.next_ne_leftParen {ts ts' : List Token} (h : Replaced scope scope' tail ts ts')
    (htail : Ends .minimum tail) (hnext : (Token.next ts).kind ≠ .leftParen) :
    Token.Stuck ts ∨ (Token.next ts').kind ≠ .leftParen := by
  rcases h.next with ⟨hs, -⟩ | ⟨-, rfl⟩ | heq
  · exact Or.inl hs
  · exact Or.inr (htail.of_le (Nat.zero_le _)).next_ne_leftParen
  · exact Or.inr (heq ▸ hnext)

theorem Replaced.next_ne_rightParen {ts ts' : List Token} (h : Replaced scope scope' tail ts ts') (hne : ts ≠ [])
    (hnext : (Token.next ts).kind ≠ .rightParen) : (Token.next ts').kind ≠ .rightParen := by
  rcases h.next with ⟨-, hs'⟩ | ⟨hnil, -⟩ | heq
  · exact hs'.kind_ne rfl
  · exact absurd hnil hne
  · exact heq ▸ hnext

theorem Replaced.readClosingParen {ts ts' rest : List Token} (h : Replaced scope scope' tail ts ts')
    (hr : readClosingParen ts = .ok rest) :
    ∃ rest', (Token.next ts').kind = .rightParen ∧ Scope.readClosingParen ts' = .ok rest' ∧
      Replaced scope scope' tail rest rest' := by
  cases ts with
  | nil => cases hr
  | cons t ts =>
    rw [readClosingParen_cons] at hr
    by_cases hk : t.kind = .rightParen
    · rw [if_pos hk] at hr
      cases hr
      obtain ⟨us', rfl, hus⟩ := h.of_cons (hk ▸ rfl)
      exact ⟨us', hk, by rw [readClosingParen_cons, if_pos hk], hus⟩
    · rw [if_neg hk] at hr
      cases hr

/-! ### Reading in step -/

namespace Replaced

mutual

/-- An expression that can be read is read after the replacement with the same value, unless it ends before an
operand. -/
theorem readExpression (hf : scope.Refines scope') (htail : Ends .minimum tail) {level : Precedence}
    {value : Float} {ts ts' rest : List Token} (h : Replaced scope scope' tail ts ts')
    (hr : scope.readExpression level ts = .ok (value, rest)) :
    Token.Stuck rest ∨
      ∃ rest', scope'.readExpression level ts' = .ok (value, rest') ∧ Replaced scope scope' tail rest rest' := by
  rw [readExpression_eq] at hr
  obtain ⟨⟨left, us⟩, hoperand, hoperators⟩ := bind_eq_ok.1 hr
  have hlen := length_lt_of_readOperand hoperand
  rcases readOperand hf htail h hoperand with hs | ⟨us', hoperand', hus⟩
  · obtain rfl := eq_of_stuck hs hoperators
    exact Or.inl hs
  · rcases readOperators hf htail hus hoperators with hs | ⟨rest', hoperators', hrest⟩
    · exact Or.inl hs
    · refine Or.inr ⟨rest', ?_, hrest⟩
      rw [readExpression_eq, hoperand', ok_bind, hoperators']
termination_by (ts.length, 1)

theorem readOperators (hf : scope.Refines scope') (htail : Ends .minimum tail) {level : Precedence}
    {left value : Float} {ts ts' rest : List Token} (h : Replaced scope scope' tail ts ts')
    (hr : scope.readOperators level left ts = .ok (value, rest)) :
    Token.Stuck rest ∨
      ∃ rest', scope'.readOperators level left ts' = .ok (value, rest') ∧ Replaced scope scope' tail rest rest' := by
  rcases readOperators_cases hr with ⟨he, rfl, rfl⟩ | ⟨t, op, us, right, vs, hts, hop, hlt, hexpression, hoperators⟩
  · rcases h.ends htail he with hs | he'
    · exact Or.inl hs
    · exact Or.inr ⟨ts', readOperators_of_ends he' _, h⟩
  · have hus : us.length < ts.length := by
      rw [hts]
      exact Nat.lt_succ_self us.length
    have hvs : vs.length < us.length := length_lt_of_readExpression hexpression
    rw [hts] at h
    obtain ⟨us', rfl, hrus⟩ := h.of_cons (Token.Kind.startsOperand_eq_false hop)
    rcases readExpression hf htail hrus hexpression with hs | ⟨vs', hexpression', hrvs⟩
    · obtain rfl := eq_of_stuck hs hoperators
      exact Or.inl hs
    · rcases readOperators hf htail hrvs hoperators with hs | ⟨rest', hoperators', hrest⟩
      · exact Or.inl hs
      · refine Or.inr ⟨rest', ?_, hrest⟩
        rw [readOperators_cons, if_pos hlt, hop]
        simp only [hexpression', ok_bind]
        exact hoperators'
termination_by (ts.length, 0)

theorem readOperand (hf : scope.Refines scope') (htail : Ends .minimum tail) {value : Float}
    {ts ts' rest : List Token} (h : Replaced scope scope' tail ts ts')
    (hr : scope.readOperand ts = .ok (value, rest)) :
    Token.Stuck rest ∨
      ∃ rest', scope'.readOperand ts' = .ok (value, rest') ∧ Replaced scope scope' tail rest rest' := by
  cases h with
  | tail =>
    rw [readOperand_nil] at hr
    cases hr
  | operand hus hus' h hread =>
    obtain ⟨rfl, hread'⟩ := hread value rest hr
    exact Or.inr ⟨_, hread', h⟩
  | @call us us' t p ht hp h =>
    rw [readOperand_cons] at hr ⊢
    have hnext : ∀ us : List Token, (Token.next (p :: us)).kind = .leftParen := fun _ => hp
    simp only [ht, hnext, if_true, List.tail_cons] at hr ⊢
    cases hname : scope.function? t.text with
    | none =>
      rw [hname] at hr
      cases hr
    | some f =>
      simp only [hname] at hr
      obtain ⟨⟨values, vs⟩, hargs, hvalue⟩ := bind_eq_ok.1 hr
      obtain ⟨result, hresult, heq⟩ := map_eq_ok.1 hvalue
      cases heq
      obtain ⟨f', hname', hresult'⟩ := hf.function? hname hresult
      obtain ⟨vs', hargs', hvs⟩ := readArguments hf htail h hargs
      refine Or.inr ⟨vs', ?_, hvs⟩
      simp only [hname', hargs', ok_bind, hresult']
      rfl
  | @token us us' t h hconstant =>
    rw [readOperand_cons] at hr ⊢
    cases hk : t.kind with
    | number =>
      simp only [hk] at hr ⊢
      cases hnumeral : Numeral.value? t.text with
      | none =>
        rw [hnumeral] at hr
        cases hr
      | some number =>
        simp only [hnumeral] at hr ⊢
        cases hr
        exact Or.inr ⟨us', rfl, h⟩
    | identifier =>
      obtain ⟨hnext, hvalue⟩ := hconstant hk
      simp only [hk, if_neg hnext] at hr ⊢
      cases hname : scope.constant? t.text with
      | none =>
        rw [hname] at hr
        cases hr
      | some number =>
        simp only [hname] at hr
        cases hr
        rcases h.next_ne_leftParen htail hnext with hs | hnext'
        · exact Or.inl hs
        · refine Or.inr ⟨us', ?_, h⟩
          simp only [if_neg hnext', hvalue _ hname]
    | plus =>
      simp only [hk] at hr ⊢
      exact readExpression hf htail h hr
    | minus =>
      simp only [hk] at hr ⊢
      obtain ⟨⟨inner, vs⟩, hexpression, heq⟩ := map_eq_ok.1 hr
      cases heq
      rcases readExpression hf htail h hexpression with hs | ⟨vs', hexpression', hvs⟩
      · exact Or.inl hs
      · refine Or.inr ⟨vs', ?_, hvs⟩
        rw [hexpression']
        rfl
    | leftParen =>
      simp only [hk] at hr ⊢
      obtain ⟨⟨inner, vs⟩, hexpression, hclose⟩ := bind_eq_ok.1 hr
      obtain ⟨ws, hclose, heq⟩ := map_eq_ok.1 hclose
      cases heq
      rcases readExpression hf htail h hexpression with hs | ⟨vs', hexpression', hvs⟩
      · exact absurd hclose (readClosingParen_ne_of_stuck hs)
      · obtain ⟨ws', -, hclose', hws⟩ := hvs.readClosingParen hclose
        refine Or.inr ⟨ws', ?_, hws⟩
        rw [hexpression', ok_bind, hclose']
        rfl
    | comma | star | slash | percent | caret | rightParen | endOfExpression =>
      simp only [hk] at hr
      cases hr
termination_by (ts.length, 0)

theorem readArguments (hf : scope.Refines scope') (htail : Ends .minimum tail) {values : List Float}
    {ts ts' rest : List Token} (h : Replaced scope scope' tail ts ts')
    (hr : scope.readArguments ts = .ok (values, rest)) :
    ∃ rest', scope'.readArguments ts' = .ok (values, rest') ∧ Replaced scope scope' tail rest rest' := by
  have hne : ts ≠ [] := by
    rintro rfl
    rw [readArguments_eq, if_neg (by decide), readArgumentList_eq, readExpression_eq, readOperand_nil] at hr
    cases hr
  rw [readArguments_eq] at hr
  by_cases hk : (Token.next ts).kind = .rightParen
  · rw [if_pos hk] at hr
    cases hr
    cases ts with
    | nil => exact absurd rfl hne
    | cons t ts =>
      have ht : t.kind = .rightParen := hk
      obtain ⟨us', rfl, hus⟩ := h.of_cons (ht ▸ rfl)
      refine ⟨us', ?_, hus⟩
      rw [readArguments_eq]
      exact if_pos ht
  · rw [if_neg hk] at hr
    obtain ⟨rest', hr', hrest⟩ := readArgumentList hf htail h hr
    refine ⟨rest', ?_, hrest⟩
    rw [readArguments_eq, if_neg (h.next_ne_rightParen hne hk), hr']
termination_by (ts.length, 3)

theorem readArgumentList (hf : scope.Refines scope') (htail : Ends .minimum tail) {values : List Float}
    {ts ts' rest : List Token} (h : Replaced scope scope' tail ts ts')
    (hr : scope.readArgumentList ts = .ok (values, rest)) :
    ∃ rest', scope'.readArgumentList ts' = .ok (values, rest') ∧ Replaced scope scope' tail rest rest' := by
  rw [readArgumentList_eq] at hr
  obtain ⟨⟨value, us⟩, hexpression, hr⟩ := bind_eq_ok.1 hr
  have hlen := length_lt_of_readExpression hexpression
  rcases readExpression hf htail h hexpression with hs | ⟨us', hexpression', hus⟩
  · rw [if_neg (hs.kind_ne rfl)] at hr
    obtain ⟨vs, hclose, -⟩ := map_eq_ok.1 hr
    exact absurd hclose (readClosingParen_ne_of_stuck hs)
  · rw [readArgumentList_eq, hexpression', ok_bind]
    by_cases hk : (Token.next us).kind = .comma
    · rw [if_pos hk] at hr
      obtain ⟨⟨values', vs⟩, hlist, heq⟩ := map_eq_ok.1 hr
      cases heq
      cases us with
      | nil => cases hk
      | cons t us =>
        have ht : t.kind = .comma := hk
        have hus' : us.length < ts.length := Nat.lt_of_succ_lt hlen
        obtain ⟨ws', rfl, hws⟩ := hus.of_cons (ht ▸ rfl)
        obtain ⟨vs', hlist', hvs⟩ := readArgumentList hf htail hws hlist
        refine ⟨vs', (if_pos ht).trans ?_, hvs⟩
        show (scope'.readArgumentList ws').map _ = _
        rw [hlist']
        rfl
    · rw [if_neg hk] at hr
      obtain ⟨vs, hclose, heq⟩ := map_eq_ok.1 hr
      cases heq
      obtain ⟨vs', hnext', hclose', hvs⟩ := hus.readClosingParen hclose
      refine ⟨vs', ?_, hvs⟩
      rw [if_neg (by rw [hnext']; decide), hclose']
      rfl
termination_by (ts.length, 2)

end

/-- An expression that takes up all the tokens is read after the replacement up to what was added. -/
theorem readExpression_of_nil (hf : scope.Refines scope') (htail : Ends .minimum tail) {level : Precedence}
    {value : Float} {ts ts' : List Token} (h : Replaced scope scope' tail ts ts')
    (hr : scope.readExpression level ts = .ok (value, [])) : scope'.readExpression level ts' = .ok (value, tail) := by
  have hnil : ¬ Token.Stuck [] := fun hs => nomatch hs
  rcases h.readExpression hf htail hr with hs | ⟨rest', hr', hrest⟩
  · exact absurd hs hnil
  · cases hrest with
    | tail => exact hr'
    | operand hs _ _ _ => exact absurd hs hnil

/-- A list of tokens that has a value has the same value after the replacement. -/
theorem evaluate (hf : scope.Refines scope') {ts ts' : List Token} {value : Float}
    (h : Replaced scope scope' [] ts ts') (hvalue : scope.evaluate ts = .ok value) :
    scope'.evaluate ts' = .ok value := by
  rw [evaluate_eq] at hvalue ⊢
  obtain ⟨⟨result, rest⟩, hr, hend⟩ := bind_eq_ok.1 hvalue
  rcases h.readExpression hf (ends_nil .minimum) hr with hs | ⟨rest', hr', hrest⟩
  · rw [if_neg (hs.kind_ne rfl)] at hend
    cases hend
  · by_cases hk : (Token.next rest).kind = .endOfExpression
    · rw [if_pos hk] at hend
      cases hend
      have hk' : (Token.next rest').kind = .endOfExpression := by
        rcases hrest.next with ⟨hs, -⟩ | ⟨-, rfl⟩ | heq
        · exact absurd hk (hs.kind_ne rfl)
        · rfl
        · rw [heq, hk]
      rw [hr', ok_bind, if_pos hk']
    · rw [if_neg hk] at hend
      cases hend

end Replaced

end Scope

end Calculator
