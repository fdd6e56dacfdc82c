import Calculator.Proofs.CallGraph
import Calculator.Proofs.Compilation

/-!
# The names that tokens mention

An identifier that stands directly before `(` is the name of a function (`Token.callNames`), and every other one is the
name of a constant (`Token.constantNames`).  The steps that are compiled from a list of tokens use no other names:
`compile_named`, by induction on the tokens, where the tokens left behind a part of the program are a suffix of those
before it.
-/

namespace Calculator

/-- The identifiers with a token behind them whose kind satisfies `p`, from left to right. -/
def Token.namesBefore (p : Kind → Prop) [DecidablePred p] : List Token → List String
  | [] => []
  | t :: ts => if t.kind = .identifier ∧ p (next ts).kind then t.text :: namesBefore p ts else namesBefore p ts

/-- The identifiers that do not stand directly before `(`, from left to right. -/
def Token.constantNames (ts : List Token) : List String :=
  namesBefore (fun kind => kind ≠ .leftParen) ts

/-- The constants that a text mentions. -/
def mentions (text : String) : List String :=
  match tokenize text with
  | .ok stream => Token.constantNames stream.lexemes
  | .error _ => []

theorem mentions_of_tokenize {text : String} {stream : TokenStream} (h : tokenize text = .ok stream) :
    mentions text = Token.constantNames stream.lexemes := by
  rw [mentions, h]

namespace Token

theorem callNames_eq_namesBefore (ts : List Token) : callNames ts = namesBefore (fun kind => kind = .leftParen) ts := by
  induction ts with
  | nil => rfl
  | cons t ts ih => rw [callNames, namesBefore, ih]

theorem mem_namesBefore {p : Kind → Prop} [DecidablePred p] {ts : List Token} {name : String} :
    name ∈ namesBefore p ts ↔ ∃ us, ⟨.identifier, name⟩ :: us <:+ ts ∧ p (next us).kind := by
  induction ts with
  | nil => simp [namesBefore]
  | cons t ts ih =>
    -- the identifier is the first token, or it is found behind it
    have hcons : (∃ us, ⟨.identifier, name⟩ :: us <:+ t :: ts ∧ p (next us).kind) ↔
        (⟨.identifier, name⟩ = t ∧ p (next ts).kind) ∨ name ∈ namesBefore p ts := by
      simp only [List.suffix_cons_iff, List.cons.injEq, or_and_right, exists_or, ih, and_assoc, exists_and_left,
        exists_eq_left]
    obtain ⟨kind, text⟩ := t
    rw [hcons, namesBefore]
    by_cases h : kind = .identifier ∧ p (next ts).kind
    · simp [h]
    · rw [if_neg h, Token.mk.injEq]
      exact ⟨Or.inr, fun hm => hm.resolve_left fun hn => h ⟨hn.1.1.symm, hn.2⟩⟩

theorem namesBefore_subset {p : Kind → Prop} [DecidablePred p] {us ts : List Token} (h : us <:+ ts) :
    namesBefore p us ⊆ namesBefore p ts := by
  intro name hname
  obtain ⟨vs, hvs, hnext⟩ := mem_namesBefore.1 hname
  exact mem_namesBefore.2 ⟨vs, hvs.trans h, hnext⟩

theorem constantNames_subset {us ts : List Token} (h : us <:+ ts) : constantNames us ⊆ constantNames ts :=
  namesBefore_subset h

theorem callNames_subset {us ts : List Token} (h : us <:+ ts) : callNames us ⊆ callNames ts := by
  rw [callNames_eq_namesBefore, callNames_eq_namesBefore]
  exact namesBefore_subset h

theorem Valid.isName {name : String} (h : Valid ⟨.identifier, name⟩) : IsName name.toList := by
  cases h with
  | identifier h => exact h
  | symbol h => cases h

theorem Valid.isNumeral {text : String} (h : Valid ⟨.number, text⟩) : IsNumeral text.toList := by
  cases h with
  | number h => exact h
  | symbol h => cases h

/-- What is mentioned by valid tokens is a name. -/
theorem isName_of_mem_namesBefore {p : Kind → Prop} [DecidablePred p] {ts : List Token} (hv : ∀ t ∈ ts, t.Valid)
    {name : String} (h : name ∈ namesBefore p ts) : IsName name.toList := by
  obtain ⟨us, hus, -⟩ := mem_namesBefore.1 h
  exact (hv _ (hus.mem List.mem_cons_self)).isName

end Token

/-- The names that a step uses are mentioned by the tokens, constants as constants and functions as functions. -/
def Step.NamedIn (ts : List Token) : Step → Prop
  | .constant name => name ∈ Token.constantNames ts
  | .lookup name | .call name _ => name ∈ Token.callNames ts
  | .number _ | .negate | .binary _ => True

theorem Step.NamedIn.of_suffix {us ts : List Token} (h : us <:+ ts) {s : Step} (hs : s.NamedIn us) : s.NamedIn ts := by
  cases s with
  | constant name => exact Token.constantNames_subset h hs
  | lookup name => exact Token.callNames_subset h hs
  | call name count => exact Token.callNames_subset h hs
  | number | negate | binary => trivial

namespace Emission

variable {α β : Type} {p : Step → Prop}

/-- The steps of an emission satisfy `p`, and what it found satisfies `q`. -/
structure Satisfies (m : Emission α) (p : Step → Prop) (q : α → Prop) : Prop where
  steps : ∀ s ∈ m.steps, p s
  result : ∀ a, m.result = .ok a → q a

theorem satisfies_pure {q : α → Prop} {a : α} (h : q a) : (pure a : Emission α).Satisfies p q where
  steps _ hs := nomatch hs
  result b hb := by
    cases hb
    exact h

theorem satisfies_emit {s : Step} (h : p s) : (emit s).Satisfies p fun _ => True where
  steps t ht := by
    obtain rfl := List.mem_singleton.1 ht
    exact h
  result _ _ := trivial

theorem satisfies_fail (error : SyntaxError) (q : α → Prop) : (fail error : Emission α).Satisfies p q where
  steps _ hs := nomatch hs
  result _ ha := nomatch ha

theorem Satisfies.bind {m : Emission α} {f : α → Emission β} {q : α → Prop} {r : β → Prop} (hm : m.Satisfies p q)
    (hf : ∀ a, q a → (f a).Satisfies p r) : (m >>= f).Satisfies p r := by
  obtain ⟨steps, result⟩ := m
  cases result with
  | ok a =>
    have ha := hf a (hm.result a rfl)
    refine ⟨fun s hs => ?_, fun b hb => ha.result b hb⟩
    rcases List.mem_append.1 hs with hs | hs
    · exact hm.steps s hs
    · exact ha.steps s hs
  | error error => exact ⟨hm.steps, fun b hb => nomatch hb⟩

theorem Satisfies.imp {m : Emission α} {p' : Step → Prop} {q q' : α → Prop} (h : m.Satisfies p q)
    (hp : ∀ s, p s → p' s) (hq : ∀ a, q a → q' a) : m.Satisfies p' q' :=
  ⟨fun s hs => hp s (h.steps s hs), fun a ha => hq a (h.result a ha)⟩

/-- What is compiled from a suffix of the tokens uses names of the tokens and leaves a suffix of them. -/
theorem Satisfies.of_suffix {m : Emission α} {rest : α → List Token} {us ts : List Token}
    (h : m.Satisfies (Step.NamedIn us) fun a => rest a <:+ us) (hs : us <:+ ts) :
    m.Satisfies (Step.NamedIn ts) fun a => rest a <:+ ts :=
  h.imp (fun _ hn => hn.of_suffix hs) fun _ hr => hr.trans hs

theorem closingParen_named (ts : List Token) :
    (closingParen ts).Satisfies (Step.NamedIn ts) fun rest => rest.val <:+ ts := by
  cases ts with
  | nil => exact satisfies_fail _ _
  | cons t ts =>
    rw [closingParen]
    split
    · exact satisfies_pure (List.suffix_cons t ts)
    · exact satisfies_fail _ _

mutual

theorem expression_named (level : Precedence) (ts : List Token) :
    (expression level ts).Satisfies (Step.NamedIn ts) fun rest => rest.val <:+ ts := by
  rw [expression]
  refine (operand_named ts).bind fun rest hrest => ?_
  refine ((operators_named level rest.val).of_suffix hrest).bind fun rest' hrest' => ?_
  exact satisfies_pure hrest'
termination_by (ts.length, 1)

theorem operators_named (level : Precedence) (ts : List Token) :
    (operators level ts).Satisfies (Step.NamedIn ts) fun rest => rest.val <:+ ts := by
  cases ts with
  | nil =>
    rw [operators]
    exact satisfies_pure (List.suffix_refl [])
  | cons t ts =>
    rw [operators]
    split
    · cases Operator.ofKind? t.kind with
      | none => exact satisfies_fail _ _
      | some op =>
        have hts : ts <:+ t :: ts := List.suffix_cons t ts
        refine ((expression_named op.rightPrecedence ts).of_suffix hts).bind fun rest hrest => ?_
        refine (satisfies_emit (s := .binary op) trivial).bind fun _ _ => ?_
        refine ((operators_named level rest.val).of_suffix hrest).bind fun rest' hrest' => ?_
        exact satisfies_pure hrest'
    · exact satisfies_pure (List.suffix_refl _)
termination_by (ts.length, 0)

theorem operand_named (ts : List Token) :
    (operand ts).Satisfies (Step.NamedIn ts) fun rest => rest.val <:+ ts := by
  cases ts with
  | nil =>
    rw [operand]
    exact satisfies_fail _ _
  | cons t ts =>
    have hts : ts <:+ t :: ts := List.suffix_cons t ts
    rw [operand]
    cases hk : t.kind with
    | number => exact (satisfies_emit (s := .number t.text) trivial).bind fun _ _ => satisfies_pure hts
    | identifier =>
      by_cases hnext : (Token.next ts).kind = .leftParen
      · have hname : t.text ∈ Token.callNames (t :: ts) := by
          rw [Token.callNames, if_pos ⟨hk, hnext⟩]
          exact List.mem_cons_self
        have htail : ts.tail <:+ t :: ts := (List.tail_suffix ts).trans hts
        simp only [if_pos hnext]
        refine (satisfies_emit (s := .lookup t.text) hname).bind fun _ _ => ?_
        refine ((arguments_named ts.tail).of_suffix htail).bind fun r hr => ?_
        refine (satisfies_emit (s := .call t.text r.1) hname).bind fun _ _ => ?_
        exact satisfies_pure hr
      · have hname : t.text ∈ Token.constantNames (t :: ts) := by
          rw [Token.constantNames, Token.namesBefore, if_pos ⟨hk, hnext⟩]
          exact List.mem_cons_self
        simp only [if_neg hnext]
        exact (satisfies_emit (s := .constant t.text) hname).bind fun _ _ => satisfies_pure hts
    | plus =>
      refine ((expression_named Scope.signPrecedence ts).of_suffix hts).bind fun rest hrest => ?_
      exact satisfies_pure hrest
    | minus =>
      refine ((expression_named Scope.signPrecedence ts).of_suffix hts).bind fun rest hrest => ?_
      exact (satisfies_emit (s := .negate) trivial).bind fun _ _ => satisfies_pure hrest
    | leftParen =>
      refine ((expression_named .minimum ts).of_suffix hts).bind fun rest hrest => ?_
      refine ((closingParen_named rest.val).of_suffix hrest).bind fun rest' hrest' => ?_
      exact satisfies_pure hrest'
    | comma | star | slash | percent | caret | rightParen | endOfExpression => exact satisfies_fail _ _
termination_by (ts.length, 0)

theorem arguments_named (ts : List Token) :
    (arguments ts).Satisfies (Step.NamedIn ts) fun r => r.2.val <:+ ts := by
  rw [arguments]
  split
  · exact (closingParen_named ts).bind fun rest hrest => satisfies_pure hrest
  · exact argumentList_named ts
termination_by (ts.length, 3)

theorem argumentList_named (ts : List Token) :
    (argumentList ts).Satisfies (Step.NamedIn ts) fun r => r.2.val <:+ ts := by
  rw [argumentList]
  refine (expression_named .minimum ts).bind fun rest hrest => ?_
  split
  · have htail : rest.val.tail <:+ ts := (List.tail_suffix rest.val).trans hrest
    refine ((argumentList_named rest.val.tail).of_suffix htail).bind fun r hr => ?_
    exact satisfies_pure hr
  · refine ((closingParen_named rest.val).of_suffix hrest).bind fun rest' hrest' => ?_
    exact satisfies_pure hrest'
termination_by (ts.length, 2)

end

end Emission

/-- The steps of a compiled list of tokens use no names but those that the tokens mention. -/
theorem compile_named (ts : List Token) : ∀ s, Instruction.step s ∈ compile ts → s.NamedIn ts := by
  have hwhole : (Emission.whole ts).Satisfies (Step.NamedIn ts) fun _ => True := by
    rw [Emission.whole]
    refine (Emission.expression_named .minimum ts).bind fun rest _ => ?_
    split
    · exact Emission.satisfies_pure trivial
    · exact Emission.satisfies_fail _ _
  intro s hs
  rw [compile, Emission.program, List.mem_append] at hs
  rcases hs with hs | hs
  · obtain ⟨u, hu, heq⟩ := List.mem_map.1 hs
    cases heq
    exact hwhole.steps s hu
  · cases hr : (Emission.whole ts).result <;> simp [hr] at hs

end Calculator
