import Calculator.Proofs.Grammar
import Calculator.Proofs.Mentions

/-!
# Where syntax errors arise

A parenthesis directly behind an identifier opens the arguments of a call, and any other one opens a group.
`SyntaxError.At brackets found error` says that the error can arise before the token `found` inside these open
parentheses, innermost first: which tokens can be reported depends on what was due, and a closing parenthesis is missed
at a comma only in a group, because in the arguments of a call a comma goes on.

`Emission.Follows` states of one part of the compiler how it moves through the tokens and where it stops, and is closed
under composition.  From it, by induction on the tokens as the compiler goes through them:

* `exists_at_of_fail_mem_compile`: a syntax error arises before some token inside the parentheses that are open there;
* `number_mem_of_step_mem_compile`: numerals are read off number tokens only.
-/

namespace Calculator

/-- What a parenthesis opens. -/
inductive Token.Bracket where
  | group
  | arguments
deriving DecidableEq, Repr

/-- A place between tokens: the parentheses that are open there, innermost first, and the kind of the token before. -/
structure Token.Place where
  brackets : List Bracket
  previous : Option Kind

namespace Token

/-- The place behind a token. -/
def Place.after (p : Place) (t : Token) : Place where
  brackets :=
    if t.kind = .leftParen then (if p.previous = some .identifier then .arguments else .group) :: p.brackets
    else if t.kind = .rightParen then p.brackets.tail
    else p.brackets
  previous := some t.kind

/-- The place behind several tokens. -/
def Place.behind (p : Place) (ts : List Token) : Place :=
  ts.foldl Place.after p

/-- The parentheses that are open behind the tokens of an expression, innermost first. -/
def enclosing (ts : List Token) : List Bracket :=
  (Place.behind ⟨[], none⟩ ts).brackets

theorem Place.behind_append (p : Place) (ts us : List Token) : p.behind (ts ++ us) = (p.behind ts).behind us :=
  List.foldl_append

theorem Place.brackets_after {p : Place} {t : Token} (hl : t.kind ≠ .leftParen) (hr : t.kind ≠ .rightParen) :
    (p.after t).brackets = p.brackets := by
  rw [Place.after, if_neg hl, if_neg hr]

theorem Place.brackets_after_leftParen {p : Place} {t : Token} (h : t.kind = .leftParen) :
    (p.after t).brackets = (if p.previous = some .identifier then .arguments else .group) :: p.brackets := by
  rw [Place.after, if_pos h]

theorem Place.brackets_after_rightParen {p : Place} {t : Token} (h : t.kind = .rightParen) :
    (p.after t).brackets = p.brackets.tail := by
  have hl : t.kind ≠ .leftParen := by
    rw [h]
    decide
  rw [Place.after, if_neg hl, if_pos h]

theorem Place.previous_after {p : Place} {t : Token} (h : t.kind ≠ .identifier) :
    (p.after t).previous ≠ some .identifier :=
  fun hp => h (Option.some.inj hp)

end Token

/-- The error can arise before the token `found` inside these parentheses. -/
inductive SyntaxError.At : List Token.Bracket → Token → SyntaxError → Prop where
  /-- An expression outside of all parentheses ends only before a token that separates or closes. -/
  | trailingInput {found : Token} (h : found.kind ∈ [.comma, .rightParen]) : At [] found (.trailingInput found)
  /-- A number, a name, a sign and an opening parenthesis begin a value. -/
  | expectedValue {brackets : List Token.Bracket} {found : Token}
      (h : found.kind ∈ [.endOfExpression, .comma, .rightParen, .star, .slash, .percent, .caret]) :
      At brackets found (.expectedValue found)
  /-- A complete value is followed by the beginning of another. -/
  | operator {brackets : List Token.Bracket} {found : Token} (h : found.kind ∈ [.number, .identifier, .leftParen]) :
      At brackets found (.unexpectedToken .operator found)
  | group {brackets : List Token.Bracket} {found : Token} (h : found.kind ∈ [.endOfExpression, .comma]) :
      At (.group :: brackets) found (.unexpectedToken .closingParen found)
  | arguments {brackets : List Token.Bracket} {found : Token} (h : found.kind = .endOfExpression) :
      At (.arguments :: brackets) found (.unexpectedToken .closingParen found)

/-- What ends every expression separates, closes or is the end. -/
theorem kind_of_ends_minimum {ts : List Token} (h : Ends .minimum ts) :
    (Token.next ts).kind = .comma ∨ (Token.next ts).kind = .rightParen ∨ (Token.next ts).kind = .endOfExpression := by
  cases hk : (Token.next ts).kind with
  | comma => exact Or.inl rfl
  | rightParen => exact Or.inr (Or.inl rfl)
  | endOfExpression => exact Or.inr (Or.inr rfl)
  | number | identifier | plus | minus | star | slash | percent | caret | leftParen =>
    rw [Ends, hk] at h
    exact absurd (by decide) h

theorem SyntaxError.at_trailingInput {ts : List Token} (h : Ends .minimum ts)
    (hend : (Token.next ts).kind ≠ .endOfExpression) : At [] (Token.next ts) (.trailingInput (Token.next ts)) := by
  rcases kind_of_ends_minimum h with hk | hk | hk
  · exact .trailingInput (by simp [hk])
  · exact .trailingInput (by simp [hk])
  · exact absurd hk hend

theorem SyntaxError.at_group {ts : List Token} {brackets : List Token.Bracket} (h : Ends .minimum ts)
    (hclosing : (Token.next ts).kind ≠ .rightParen) :
    At (.group :: brackets) (Token.next ts) (.unexpectedToken .closingParen (Token.next ts)) := by
  rcases kind_of_ends_minimum h with hk | hk | hk
  · exact .group (by simp [hk])
  · exact absurd hk hclosing
  · exact .group (by simp [hk])

theorem SyntaxError.at_arguments {ts : List Token} {brackets : List Token.Bracket} (h : Ends .minimum ts)
    (hcomma : (Token.next ts).kind ≠ .comma) (hclosing : (Token.next ts).kind ≠ .rightParen) :
    At (.arguments :: brackets) (Token.next ts) (.unexpectedToken .closingParen (Token.next ts)) := by
  rcases kind_of_ends_minimum h with hk | hk | hk
  · exact absurd hk hcomma
  · exact absurd hk hclosing
  · exact .arguments hk

/-- A token that could extend an expression and is no operator begins a value. -/
theorem kind_of_ofKind?_eq_none {level : Precedence} {kind : Token.Kind} (hlt : level < kind.precedence)
    (h : Operator.ofKind? kind = none) : kind ∈ [.number, .identifier, .leftParen] := by
  cases kind with
  | number | identifier | leftParen => decide
  | plus | minus | star | slash | percent | caret => cases h
  | comma | rightParen | endOfExpression => exact absurd hlt (Nat.not_lt_zero level.rank)

namespace Emission

variable {α β : Type}

/-- How a part of the compiler moves through the tokens `ts` from `place` on: the numerals that it emits are number
tokens; what it finds satisfies `q` together with the place that it reaches and the tokens behind it; and if it stops,
then with an error that can arise where it stops. -/
structure Follows (m : Emission α) (place : Token.Place) (ts : List Token)
    (q : α → Token.Place → List Token → Prop) : Prop where
  numbers : ∀ text, Step.number text ∈ m.steps → ⟨.number, text⟩ ∈ ts
  found : ∀ a, m.result = .ok a → ∃ read rest, ts = read ++ rest ∧ q a (place.behind read) rest
  stopped : ∀ error, m.result = .error error →
    ∃ before after, ts = before ++ after ∧ error.At (place.behind before).brackets (Token.next after)

section

variable {place : Token.Place} {ts : List Token} {q : α → Token.Place → List Token → Prop}

theorem follows_pure {a : α} (h : q a place ts) : (pure a : Emission α).Follows place ts q where
  numbers _ hs := by cases hs
  found b hb := by
    cases hb
    exact ⟨[], ts, rfl, h⟩
  stopped _ he := by cases he

theorem follows_emit {s : Step} (h : ∀ text, s = .number text → ⟨.number, text⟩ ∈ ts) :
    (emit s).Follows place ts fun _ place' rest => place' = place ∧ rest = ts where
  numbers text ht := h text (List.mem_singleton.1 ht).symm
  found _ _ := ⟨[], ts, rfl, rfl, rfl⟩
  stopped _ he := by cases he

theorem follows_fail {error : SyntaxError} (h : error.At place.brackets (Token.next ts)) :
    (fail error : Emission α).Follows place ts q where
  numbers _ hs := by cases hs
  found _ ha := by cases ha
  stopped _ he := by
    cases he
    exact ⟨[], ts, rfl, h⟩

theorem Follows.bind {m : Emission α} {f : α → Emission β} {q' : β → Token.Place → List Token → Prop}
    (hm : m.Follows place ts q)
    (hf : ∀ a place' rest, q a place' rest → (f a).Follows place' rest q') : (m >>= f).Follows place ts q' := by
  obtain ⟨steps, result⟩ := m
  cases result with
  | error error =>
    refine ⟨hm.numbers, fun b hb => ?_, fun error' he => ?_⟩
    · cases hb
    · cases he
      exact hm.stopped error rfl
  | ok a =>
    obtain ⟨read, rest, rfl, ha⟩ := hm.found a rfl
    have hnext := hf a (place.behind read) rest ha
    refine ⟨fun text hs => ?_, fun b hb => ?_, fun error he => ?_⟩
    · rcases List.mem_append.1 hs with hs | hs
      · exact hm.numbers text hs
      · exact List.mem_append_right read (hnext.numbers text hs)
    · obtain ⟨read', rest', rfl, hq⟩ := hnext.found b hb
      exact ⟨read ++ read', rest', (List.append_assoc _ _ _).symm, by rwa [Token.Place.behind_append]⟩
    · obtain ⟨before, after, rfl, hat⟩ := hnext.stopped error he
      exact ⟨read ++ before, after, (List.append_assoc _ _ _).symm, by rwa [Token.Place.behind_append]⟩

/-- What follows the tokens behind a first one follows them from the first one on. -/
theorem Follows.cons {m : Emission α} {t : Token} (h : m.Follows (place.after t) ts q) :
    m.Follows place (t :: ts) q where
  numbers text hs := List.mem_cons_of_mem t (h.numbers text hs)
  found a ha := by
    obtain ⟨read, rest, rfl, hq⟩ := h.found a ha
    exact ⟨t :: read, rest, rfl, hq⟩
  stopped error he := by
    obtain ⟨before, after, rfl, hat⟩ := h.stopped error he
    exact ⟨t :: before, after, rfl, hat⟩

end

/-- A closing parenthesis is due inside a group or in arguments, wherever an expression ends. -/
theorem closingParen_follows {place : Token.Place} {ts : List Token} {bracket : Token.Bracket}
    {brackets : List Token.Bracket} (hb : place.brackets = bracket :: brackets)
    (h : (Token.next ts).kind ≠ .rightParen →
      SyntaxError.At (bracket :: brackets) (Token.next ts) (.unexpectedToken .closingParen (Token.next ts))) :
    (closingParen ts).Follows place ts fun rest place' us => us = rest.val ∧ place'.brackets = brackets := by
  rw [← hb] at h
  cases ts with
  | nil => exact follows_fail (h (by decide))
  | cons t ts =>
    rw [closingParen]
    split
    case isTrue hk =>
      have hafter : (place.after t).brackets = brackets := by
        rw [Token.Place.brackets_after_rightParen hk, hb, List.tail_cons]
      exact Follows.cons (follows_pure ⟨rfl, hafter⟩)
    case isFalse hk => exact follows_fail (h hk)

mutual

theorem expression_follows (level : Precedence) (ts : List Token) {place : Token.Place}
    (hp : place.previous ≠ some .identifier) :
    (expression level ts).Follows place ts fun rest place' us =>
      us = rest.val ∧ place'.brackets = place.brackets ∧ Ends level us := by
  rw [expression]
  refine (operand_follows ts hp).bind ?_
  rintro rest place' _ ⟨rfl, hb⟩
  refine (operators_follows level rest.val).bind ?_
  rintro rest' place'' _ ⟨rfl, hb', hends⟩
  exact follows_pure ⟨rfl, hb'.trans hb, hends⟩
termination_by (ts.length, 1)

theorem operators_follows (level : Precedence) (ts : List Token) {place : Token.Place} :
    (operators level ts).Follows place ts fun rest place' us =>
      us = rest.val ∧ place'.brackets = place.brackets ∧ Ends level us := by
  cases ts with
  | nil =>
    rw [operators]
    exact follows_pure ⟨rfl, rfl, ends_nil level⟩
  | cons t ts =>
    rw [operators]
    split
    case isTrue hlt =>
      cases hop : Operator.ofKind? t.kind with
      | none => exact follows_fail (.operator (kind_of_ofKind?_eq_none hlt hop))
      | some op =>
        have hkind : t.kind ≠ .identifier ∧ t.kind ≠ .leftParen ∧ t.kind ≠ .rightParen := by
          refine ⟨?_, ?_, ?_⟩ <;> intro hk <;> rw [hk] at hop <;> cases hop
        have hafter : (place.after t).brackets = place.brackets := Token.Place.brackets_after hkind.2.1 hkind.2.2
        refine Follows.cons ?_
        refine (expression_follows op.rightPrecedence ts (Token.Place.previous_after hkind.1)).bind ?_
        rintro rest place' _ ⟨rfl, hb, -⟩
        refine (follows_emit (s := .binary op) (fun _ hs => by cases hs)).bind ?_
        rintro _ _ _ ⟨rfl, rfl⟩
        refine (operators_follows level rest.val).bind ?_
        rintro rest' place'' _ ⟨rfl, hb', hends⟩
        exact follows_pure ⟨rfl, (hb'.trans hb).trans hafter, hends⟩
    case isFalse hlt => exact follows_pure ⟨rfl, rfl, hlt⟩
termination_by (ts.length, 0)

theorem operand_follows (ts : List Token) {place : Token.Place} (hp : place.previous ≠ some .identifier) :
    (operand ts).Follows place ts fun rest place' us => us = rest.val ∧ place'.brackets = place.brackets := by
  cases ts with
  | nil =>
    rw [operand]
    exact follows_fail (.expectedValue (by decide))
  | cons t ts =>
    rw [operand]
    cases hk : t.kind with
    | number =>
      have hmem : ∀ text, Step.number t.text = .number text → ⟨.number, text⟩ ∈ t :: ts := by
        intro text htext
        cases htext
        rw [← hk]
        exact List.mem_cons_self
      refine (follows_emit hmem).bind ?_
      rintro _ _ _ ⟨rfl, rfl⟩
      exact Follows.cons (follows_pure ⟨rfl, Token.Place.brackets_after (by simp [hk]) (by simp [hk])⟩)
    | identifier =>
      have hafter : (place.after t).brackets = place.brackets :=
        Token.Place.brackets_after (by simp [hk]) (by simp [hk])
      by_cases hnext : (Token.next ts).kind = .leftParen
      · simp only [if_pos hnext]
        refine Follows.cons ?_
        refine (follows_emit (s := .lookup t.text) (fun _ hs => by cases hs)).bind ?_
        rintro _ _ us ⟨rfl, rfl⟩
        cases us with
        | nil => cases hnext
        | cons u us =>
          have hu : u.kind = .leftParen := hnext
          have hprevious : (place.after t).previous = some .identifier := congrArg some hk
          have harguments : ((place.after t).after u).brackets = .arguments :: place.brackets := by
            rw [Token.Place.brackets_after_leftParen hu, if_pos hprevious, hafter]
          refine Follows.cons ?_
          refine (arguments_follows us (Token.Place.previous_after (by simp [hu])) harguments).bind ?_
          rintro r place' _ ⟨rfl, hb⟩
          refine (follows_emit (s := .call t.text r.1) (fun _ hs => by cases hs)).bind ?_
          rintro _ _ _ ⟨rfl, rfl⟩
          exact follows_pure ⟨rfl, hb⟩
      · simp only [if_neg hnext]
        refine Follows.cons ?_
        refine (follows_emit (s := .constant t.text) (fun _ hs => by cases hs)).bind ?_
        rintro _ _ _ ⟨rfl, rfl⟩
        exact follows_pure ⟨rfl, hafter⟩
    | plus =>
      have hafter : (place.after t).brackets = place.brackets :=
        Token.Place.brackets_after (by simp [hk]) (by simp [hk])
      refine Follows.cons ?_
      refine (expression_follows Scope.signPrecedence ts (Token.Place.previous_after (by simp [hk]))).bind ?_
      rintro rest place' _ ⟨rfl, hb, -⟩
      exact follows_pure ⟨rfl, hb.trans hafter⟩
    | minus =>
      have hafter : (place.after t).brackets = place.brackets :=
        Token.Place.brackets_after (by simp [hk]) (by simp [hk])
      refine Follows.cons ?_
      refine (expression_follows Scope.signPrecedence ts (Token.Place.previous_after (by simp [hk]))).bind ?_
      rintro rest place' _ ⟨rfl, hb, -⟩
      refine (follows_emit (s := .negate) (fun _ hs => by cases hs)).bind ?_
      rintro _ _ _ ⟨rfl, rfl⟩
      exact follows_pure ⟨rfl, hb.trans hafter⟩
    | leftParen =>
      have hgroup : (place.after t).brackets = .group :: place.brackets := by
        rw [Token.Place.brackets_after_leftParen hk, if_neg hp]
      refine Follows.cons ?_
      refine (expression_follows .minimum ts (Token.Place.previous_after (by simp [hk]))).bind ?_
      rintro rest place' _ ⟨rfl, hb, hends⟩
      have hb' : place'.brackets = .group :: place.brackets := hb.trans hgroup
      refine (closingParen_follows hb' (SyntaxError.at_group hends)).bind ?_
      rintro rest' place'' _ ⟨rfl, hb''⟩
      exact follows_pure ⟨rfl, hb''⟩
    | comma | star | slash | percent | caret | rightParen | endOfExpression =>
      have hnext : (Token.next (t :: ts)).kind = _ := hk
      exact follows_fail (.expectedValue (by simp [hnext]))
termination_by (ts.length, 0)

theorem arguments_follows (ts : List Token) {place : Token.Place} {brackets : List Token.Bracket}
    (hp : place.previous ≠ some .identifier) (hb : place.brackets = .arguments :: brackets) :
    (arguments ts).Follows place ts fun r place' us => us = r.2.val ∧ place'.brackets = brackets := by
  rw [arguments]
  split
  case isTrue hnext =>
    refine (closingParen_follows hb fun hne => absurd hnext hne).bind ?_
    rintro rest place' _ ⟨rfl, hb'⟩
    exact follows_pure ⟨rfl, hb'⟩
  case isFalse => exact argumentList_follows ts hp hb
termination_by (ts.length, 3)

theorem argumentList_follows (ts : List Token) {place : Token.Place} {brackets : List Token.Bracket}
    (hp : place.previous ≠ some .identifier) (hb : place.brackets = .arguments :: brackets) :
    (argumentList ts).Follows place ts fun r place' us => us = r.2.val ∧ place'.brackets = brackets := by
  rw [argumentList]
  refine (expression_follows .minimum ts hp).bind ?_
  rintro ⟨_, hlt⟩ place' rest ⟨rfl, hb', hends⟩
  have hb'' : place'.brackets = .arguments :: brackets := hb'.trans hb
  split
  case isTrue hnext =>
    cases rest with
    | nil => cases hnext
    | cons t rest =>
      have hlt' : rest.length < ts.length := Nat.lt_of_succ_lt hlt
      have hk : t.kind = .comma := hnext
      have hafter : (place'.after t).brackets = .arguments :: brackets :=
        (Token.Place.brackets_after (by simp [hk]) (by simp [hk])).trans hb''
      refine Follows.cons ?_
      refine (argumentList_follows rest (Token.Place.previous_after (by simp [hk])) hafter).bind ?_
      rintro r place'' _ ⟨rfl, hr⟩
      exact follows_pure ⟨rfl, hr⟩
  case isFalse hnext =>
    -- a comma would go on with the next argument
    refine (closingParen_follows hb'' (SyntaxError.at_arguments hends hnext)).bind ?_
    rintro rest' place'' _ ⟨rfl, hr⟩
    exact follows_pure ⟨rfl, hr⟩
termination_by (ts.length, 2)

end

theorem whole_follows (ts : List Token) : (whole ts).Follows ⟨[], none⟩ ts fun _ _ _ => True := by
  have hstart : (⟨[], none⟩ : Token.Place).previous ≠ some .identifier := by simp
  rw [whole]
  refine (expression_follows .minimum ts hstart).bind ?_
  rintro rest place' _ ⟨rfl, hb, hends⟩
  split
  case isTrue => exact follows_pure trivial
  case isFalse hne =>
    refine follows_fail ?_
    rw [hb]
    exact SyntaxError.at_trailingInput hends hne

end Emission

/-- Numerals are read off number tokens only. -/
theorem number_mem_of_step_mem_compile {ts : List Token} {text : String}
    (h : Instruction.step (.number text) ∈ compile ts) : ⟨.number, text⟩ ∈ ts := by
  rw [compile, Emission.program, List.mem_append] at h
  rcases h with h | h
  · obtain ⟨s, hs, heq⟩ := List.mem_map.1 h
    cases heq
    exact (Emission.whole_follows ts).numbers text hs
  · cases hr : (Emission.whole ts).result <;> simp [hr] at h

/-- A syntax error arises before some token, or at the end, inside the parentheses that are open there. -/
theorem exists_at_of_fail_mem_compile {ts : List Token} {error : SyntaxError}
    (h : Instruction.fail error ∈ compile ts) :
    ∃ before after, ts = before ++ after ∧ error.At (Token.enclosing before) (Token.next after) := by
  rw [compile, Emission.program, List.mem_append] at h
  rcases h with h | h
  · obtain ⟨s, hs, heq⟩ := List.mem_map.1 h
    cases heq
  · cases hr : (Emission.whole ts).result with
    | ok a => simp [hr] at h
    | error error' =>
      simp only [hr, List.mem_singleton, Instruction.fail.injEq] at h
      subst h
      exact (Emission.whole_follows ts).stopped error hr

end Calculator
