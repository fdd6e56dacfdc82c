import Calculator.Proofs.Invocation
import Calculator.Proofs.Levels
import Calculator.Proofs.Lexemes
import Calculator.Proofs.Realization
import Mathlib

/-!
# Termination

Parsing with a cursor ends, with the value or the error of the evaluation, as soon as it has enough fuel.  A call of a
formula brings in a new text, which may be longer than what is left of the old one, but it lowers the number of calls
that may still be nested; so that number comes first and the number of tokens left comes second (`Parser.budget`).

Each function of the parser realizes the function of the reader of the same name (`Parser.realizes_expression` and its
companions), by induction on the fuel.
-/

namespace Calculator

namespace Scope

theorem readClosingParen_eq (ts : List Token) :
    readClosingParen ts =
      if (Token.next ts).kind = .rightParen then .ok ts.tail
      else .error (.unexpectedToken .closingParen (Token.next ts)) := by
  cases ts with
  | nil => rfl
  | cons t ts => exact readClosingParen_cons t ts

theorem readOperand_of_end {scope : Scope} {ts : List Token} (h : (Token.next ts).kind = .endOfExpression) :
    scope.readOperand ts = .error (.expectedValue (Token.next ts)) := by
  cases ts with
  | nil => exact scope.readOperand_nil
  | cons t ts =>
    have ht : t.kind = .endOfExpression := h
    rw [readOperand_cons, ht]
    rfl

end Scope

/-! ### Fuel -/

/-- The number of tokens of a text, if it splits into tokens. -/
def tokenCount (text : String) : Nat :=
  match tokenize text with
  | .ok stream => stream.lexemes.length
  | .error _ => 0

/-- The number of tokens of the body. -/
def Callable.tokenCount : Callable → Nat
  | formula f => Calculator.tokenCount f.body
  | native _ => 0

/-- The number of tokens of the longest body. -/
def FunctionTable.longestBody (functions : FunctionTable) : Nat :=
  (functions.toList.map fun entry => entry.2.tokenCount).max?.getD 0

theorem tokenCount_of_tokenize {text : String} {stream : TokenStream} (h : tokenize text = .ok stream) :
    tokenCount text = stream.lexemes.length := by
  rw [tokenCount, h]

theorem FunctionTable.tokenCount_le_longestBody {functions : FunctionTable} {name : String} {f : Formula}
    (h : functions[name]? = some (.formula f)) : Calculator.tokenCount f.body ≤ functions.longestBody :=
  List.le_max?_getD_of_mem (List.mem_map_of_mem (f := fun entry => entry.2.tokenCount)
    (Std.TreeMap.mem_toList_iff_getElem?_eq_some.2 h))

namespace Parser

/-- The fuel for the calls that may still be nested: for each of them, what the longest body takes. -/
def budget (functions : FunctionTable) (limit depth : UInt64) : Nat :=
  (limit.toNat - depth.toNat) * (3 * functions.longestBody)

/-- The fuel that is enough for a text. -/
def fuelFor (functions : FunctionTable) (limit : UInt64) (text : String) : Nat :=
  3 * tokenCount text + 3 + budget functions limit 0

theorem toNat_add_one {limit depth : UInt64} (hlimit : limit.toNat + 1 < 2 ^ 64) (h : depth ≤ limit) :
    (depth + 1).toNat = depth.toNat + 1 := by
  have hle := UInt64.le_iff_toNat_le.1 h
  have hone : (1 : UInt64).toNat = 1 := rfl
  rw [UInt64.toNat_add, hone]
  exact Nat.mod_eq_of_lt (by omega)

theorem budget_add_one (functions : FunctionTable) {limit depth : UInt64} (hlimit : limit.toNat + 1 < 2 ^ 64)
    (h : depth + 1 ≤ limit) (hdepth : depth ≤ limit) :
    budget functions limit depth = budget functions limit (depth + 1) + 3 * functions.longestBody := by
  have hle := UInt64.le_iff_toNat_le.1 h
  rw [toNat_add_one hlimit hdepth] at hle
  have hsub : limit.toNat - depth.toNat = (limit.toNat - (depth.toNat + 1)) + 1 := by omega
  rw [budget, budget, toNat_add_one hlimit hdepth, hsub, Nat.succ_mul]

variable {functions : FunctionTable} {limit : UInt64}

/-- The scope in which a parser works. -/
def scope (functions : FunctionTable) (limit : UInt64) (p : Parser) : Scope :=
  Scope.atDepth functions ⟨limit.toNat⟩ p.depth.toNat p.constants

/-- The depth of a call may be counted in a machine word. -/
theorem invoke_toNat (hlimit : limit.toNat + 1 < 2 ^ 64) {depth : UInt64} (hdepth : depth ≤ limit) (f : Formula)
    (args : List Float) :
    Formula.invoke functions ⟨limit.toNat⟩ depth.toNat f args =
      if limit < depth + 1 then .error (.callDepthExceeded limit.toNat)
      else if args.length ≠ f.arity then .error (.argumentCount f.arity args.length)
      else
        (Scope.atDepth functions ⟨limit.toNat⟩ (depth + 1).toNat (Std.TreeMap.ofList (f.params.zip args))).evaluateText
          f.body := by
  have hlt : limit < depth + 1 ↔ limit.toNat < depth.toNat + 1 := by
    rw [UInt64.lt_iff_toNat_lt, toNat_add_one hlimit hdepth]
  rw [Formula.invoke, toNat_add_one hlimit hdepth]
  simp only [hlt]

/-- A closing parenthesis is taken as it is read, and a result that was found before is kept. -/
theorem realizes_closingParen {α : Type} {own : Parser → Prop} {short : Prop} (a : α) {p : Parser} (hp : own p)
    (hdepth : p.depth ≤ limit) {position : Nat} (hposition : position ≤ p.stream.lexemes.length) :
    Realizes limit own short (p.Leaves position) (p.closingParen position >>= fun r => Pure.pure (a, r.2))
      ((Scope.readClosingParen (p.rest position)).map fun rest => (a, rest)) := by
  have hunit : Realizes limit own short (p.Leaves position) (p.closingParen position)
      ((Scope.readClosingParen (p.rest position)).map fun rest => ((), rest)) := by
    rw [closingParen]
    rcases p.rest_cases hposition with hend | ⟨t, hrest, hposition', ht⟩
    · have hk : (Token.next (p.rest position)).kind ≠ .rightParen := fun hk => nomatch hk.symm.trans hend
      rw [advance_of_end hend, Run.pure_bind, Scope.readClosingParen_eq, if_neg hk]
      simp only [if_neg hk]
      exact .fail _
    · rw [hrest, Scope.readClosingParen_cons]
      refine .advance hp hdepth hrest hposition' ht ?_
      show Realizes _ _ _ _ (if t.kind = .rightParen then _ else _) _
      split
      · exact .stay () hposition'
      · exact .fail _
  have hresult : ((Scope.readClosingParen (p.rest position)).map fun rest => (a, rest)) =
      ((Scope.readClosingParen (p.rest position)).map fun rest => ((), rest)) >>= fun r => .ok (a, r.2) := by
    cases Scope.readClosingParen (p.rest position) <;> rfl
  rw [hresult]
  exact hunit.andThen fun _ _ _ hle => .stay a hle

/-! ### The functions of the parser

Each takes three units of fuel for each token that is left, and the budget.  The few units that come on top are those of
the calls it makes before the next token is taken: parsing a call leads to its arguments, to a list of arguments, to an
expression and to an operand, one unit each.
-/

mutual

theorem realizes_expression (hlimit : limit.toNat + 1 < 2 ^ 64) (fuel : Nat) {own : Parser → Prop} {p : Parser}
    (hp : own p) (hdepth : p.depth ≤ limit) (level : Precedence) {position : Nat}
    (hposition : position ≤ p.stream.lexemes.length) :
    Realizes limit own (fuel < 3 * (p.rest position).length + 2 + budget functions limit p.depth) (p.Leaves position)
      (expression functions limit fuel p level position)
      ((p.scope functions limit).readExpression level (p.rest position)) := by
  match fuel with
  | 0 =>
    rw [expression]
    exact .starved (by omega)
  | fuel + 1 =>
    rw [expression, Scope.readExpression_eq]
    refine ((realizes_operand hlimit fuel hp hdepth hposition).imp fun h => by omega).andThen ?_
    intro left position' hr hposition'
    have hlen := Scope.length_lt_of_readOperand hr
    exact (realizes_operators hlimit fuel hp hdepth level left hposition').imp fun h => by omega

theorem realizes_operators (hlimit : limit.toNat + 1 < 2 ^ 64) (fuel : Nat) {own : Parser → Prop} {p : Parser}
    (hp : own p) (hdepth : p.depth ≤ limit) (level : Precedence) (left : Float) {position : Nat}
    (hposition : position ≤ p.stream.lexemes.length) :
    Realizes limit own (fuel < 3 * (p.rest position).length + 1 + budget functions limit p.depth) (p.Leaves position)
      (operators functions limit fuel p level left position)
      ((p.scope functions limit).readOperators level left (p.rest position)) := by
  match fuel with
  | 0 =>
    rw [operators]
    exact .starved (by omega)
  | fuel + 1 =>
    rw [operators, peek_eq]
    by_cases hlt : level < (Token.next (p.rest position)).kind.precedence
    · rcases p.rest_cases hposition with hend | ⟨t, hrest, hposition', ht⟩
      · rw [hend] at hlt
        exact absurd hlt (Nat.not_lt_zero _)
      · rw [if_pos hlt]
        rw [hrest] at hlt ⊢
        have hlt' : level < t.kind.precedence := hlt
        rw [Scope.readOperators_cons, if_pos hlt']
        refine .advance hp hdepth hrest hposition' ht ?_
        show Realizes _ _ _ _ (match Operator.ofKind? t.kind with | none => _ | some op => _) _
        cases Operator.ofKind? t.kind with
        | none => exact .fail _
        | some op =>
          have hright := realizes_expression hlimit fuel hp hdepth op.rightPrecedence hposition'
          rw [List.length_cons]
          refine (hright.imp fun h => by omega).andThen ?_
          intro right position'' hr hposition''
          have hlen := Scope.length_lt_of_readExpression hr
          exact (realizes_operators hlimit fuel hp hdepth level _ hposition'').imp fun h => by omega
    · rw [if_neg hlt, Scope.readOperators_of_ends hlt]
      exact .stay left hposition

theorem realizes_operand (hlimit : limit.toNat + 1 < 2 ^ 64) (fuel : Nat) {own : Parser → Prop} {p : Parser}
    (hp : own p) (hdepth : p.depth ≤ limit) {position : Nat} (hposition : position ≤ p.stream.lexemes.length) :
    Realizes limit own (fuel < 3 * (p.rest position).length + 1 + budget functions limit p.depth) (p.Leaves position)
      (operand functions limit fuel p position) ((p.scope functions limit).readOperand (p.rest position)) := by
  match fuel with
  | 0 =>
    rw [operand]
    exact .starved (by omega)
  | fuel + 1 =>
    rw [operand]
    rcases p.rest_cases hposition with hend | ⟨t, hrest, hposition', ht⟩
    · rw [advance_of_end hend, Run.pure_bind, Scope.readOperand_of_end hend]
      simp only [hend]
      exact .fail _
    · rw [hrest, Scope.readOperand_cons, List.length_cons]
      refine .advance hp hdepth hrest hposition' ht ?_
      cases hk : t.kind with
      | number =>
        simp only [hk]
        cases Numeral.value? t.text with
        | none => exact .fail _
        | some value => exact .stay value hposition'
      | identifier =>
        simp only [hk, peek_eq]
        by_cases hnext : (Token.next (p.rest (position + 1))).kind = .leftParen
        · rw [if_pos hnext, if_pos hnext]
          rcases p.rest_cases hposition' with hend | ⟨u, hrest', hposition'', hu⟩
          · exact nomatch hnext.symm.trans hend
          · refine .advance hp hdepth hrest' hposition'' hu ?_
            rw [hrest', List.tail_cons, List.length_cons]
            exact (realizes_call hlimit fuel hp hdepth t.text hposition'').imp fun h => by omega
        · rw [if_neg hnext, if_neg hnext, scope, Scope.constant?_atDepth]
          cases p.constants[t.text]? with
          | none => exact .fail _
          | some value => exact .stay value hposition'
      | plus =>
        simp only [hk]
        exact (realizes_expression hlimit fuel hp hdepth _ hposition').imp fun h => by omega
      | minus =>
        simp only [hk, map_eq_bind]
        refine ((realizes_expression hlimit fuel hp hdepth _ hposition').imp fun h => by omega).andThen ?_
        intro value position'' _ hposition''
        exact .stay (-value) hposition''
      | leftParen =>
        simp only [hk]
        refine ((realizes_expression hlimit fuel hp hdepth _ hposition').imp fun h => by omega).andThen ?_
        intro value position'' _ hposition''
        exact realizes_closingParen value hp hdepth hposition''
      | comma | star | slash | percent | caret | rightParen | endOfExpression =>
        simp only [hk]
        exact .fail _

theorem realizes_call (hlimit : limit.toNat + 1 < 2 ^ 64) (fuel : Nat) {own : Parser → Prop} {p : Parser}
    (hp : own p) (hdepth : p.depth ≤ limit) (name : String) {position : Nat}
    (hposition : position ≤ p.stream.lexemes.length) :
    Realizes limit own (fuel < 3 * (p.rest position).length + 5 + budget functions limit p.depth) (p.Leaves position)
      (call functions limit fuel p name position)
      (match (p.scope functions limit).function? name with
        | none => .error (.unknownFunction name)
        | some f =>
          (p.scope functions limit).readArguments (p.rest position) >>= fun r =>
            (f r.1).map fun value => (value, r.2)) := by
  match fuel with
  | 0 =>
    rw [call]
    exact .starved (by omega)
  | fuel + 1 =>
    rw [call, scope, Scope.function?_atDepth]
    cases hname : functions[name]? with
    | none => exact .fail _
    | some callable =>
      refine ((realizes_arguments hlimit fuel hp hdepth hposition).imp fun h => by omega).andThen ?_
      intro args position' _ hposition'
      cases callable with
      | formula f =>
        simp only [invoke_toNat hlimit hdepth]
        by_cases hlt : limit < p.depth + 1
        · simp only [if_pos hlt]
          exact .fail _
        · have hle : p.depth + 1 ≤ limit := UInt64.not_lt.1 hlt
          have hpositive : 1 ≤ p.depth + 1 := by
            rw [UInt64.le_iff_toNat_le, toNat_add_one hlimit hdepth]
            exact Nat.le_add_left 1 _
          -- the body has as many tokens as the longest one at most, and its own calls are nested one less deep
          have hbody := FunctionTable.tokenCount_le_longestBody hname
          have hbudget := budget_add_one functions hlimit hle hdepth
          simp only [if_neg hlt]
          exact ((realizes_invoke hlimit fuel f args hpositive hle).imp fun h => by omega).value_stay hposition'
      | native f => exact (Realizes.ofExcept (f.call name args)).value_stay hposition'

theorem realizes_arguments (hlimit : limit.toNat + 1 < 2 ^ 64) (fuel : Nat) {own : Parser → Prop} {p : Parser}
    (hp : own p) (hdepth : p.depth ≤ limit) {position : Nat} (hposition : position ≤ p.stream.lexemes.length) :
    Realizes limit own (fuel < 3 * (p.rest position).length + 4 + budget functions limit p.depth) (p.Leaves position)
      (arguments functions limit fuel p position) ((p.scope functions limit).readArguments (p.rest position)) := by
  match fuel with
  | 0 =>
    rw [arguments]
    exact .starved (by omega)
  | fuel + 1 =>
    rw [arguments, Scope.readArguments_eq, peek_eq]
    by_cases hk : (Token.next (p.rest position)).kind = .rightParen
    · have hclose : ((Scope.readClosingParen (p.rest position)).map fun rest => (([] : List Float), rest)) =
          .ok ([], (p.rest position).tail) := by
        rw [Scope.readClosingParen_eq, if_pos hk]
        rfl
      rw [if_pos hk, if_pos hk, ← hclose]
      exact realizes_closingParen [] hp hdepth hposition
    · rw [if_neg hk, if_neg hk]
      exact (realizes_argumentList hlimit fuel hp hdepth hposition).imp fun h => by omega

theorem realizes_argumentList (hlimit : limit.toNat + 1 < 2 ^ 64) (fuel : Nat) {own : Parser → Prop} {p : Parser}
    (hp : own p) (hdepth : p.depth ≤ limit) {position : Nat} (hposition : position ≤ p.stream.lexemes.length) :
    Realizes limit own (fuel < 3 * (p.rest position).length + 3 + budget functions limit p.depth) (p.Leaves position)
      (argumentList functions limit fuel p position)
      ((p.scope functions limit).readArgumentList (p.rest position)) := by
  match fuel with
  | 0 =>
    rw [argumentList]
    exact .starved (by omega)
  | fuel + 1 =>
    rw [argumentList, Scope.readArgumentList_eq]
    refine ((realizes_expression hlimit fuel hp hdepth _ hposition).imp fun h => by omega).andThen ?_
    intro value position' hr hposition'
    have hlen := Scope.length_lt_of_readExpression hr
    simp only [peek_eq]
    by_cases hk : (Token.next (p.rest position')).kind = .comma
    · rw [if_pos hk, if_pos hk, map_eq_bind]
      rcases p.rest_cases hposition' with hend | ⟨u, hrest', hposition'', hu⟩
      · exact nomatch hk.symm.trans hend
      · rw [hrest', List.length_cons] at hlen
        rw [hrest', List.tail_cons]
        refine .advance hp hdepth hrest' hposition'' hu ?_
        refine ((realizes_argumentList hlimit fuel hp hdepth hposition'').imp fun h => by omega).andThen ?_
        intro values position _ hposition
        exact .stay (value :: values) hposition
    · rw [if_neg hk, if_neg hk]
      exact realizes_closingParen [value] hp hdepth hposition'

theorem realizes_invoke (hlimit : limit.toNat + 1 < 2 ^ 64) (fuel : Nat) {own : Parser → Prop} (f : Formula)
    (args : List Float) {depth : UInt64} (hpositive : 1 ≤ depth) (hdepth : depth ≤ limit) :
    Realizes limit own (fuel < 3 * tokenCount f.body + 4 + budget functions limit depth) (fun _ => Eq)
      (invoke functions limit fuel f args depth)
      (if args.length ≠ f.arity then .error (.argumentCount f.arity args.length)
      else
        (Scope.atDepth functions ⟨limit.toNat⟩ depth.toNat (Std.TreeMap.ofList (f.params.zip args))).evaluateText
          f.body) := by
  match fuel with
  | 0 =>
    rw [invoke]
    exact .starved (by omega)
  | fuel + 1 =>
    rw [invoke]
    refine .invoke hpositive hdepth ?_
    by_cases hargs : args.length ≠ f.arity
    · rw [if_pos hargs, if_pos hargs]
      exact .fail _
    · rw [if_neg hargs, if_neg hargs]
      exact (realizes_evaluateText hlimit fuel _ hdepth f.body).mono (fun h => by omega) fun _ _ _ h => h.1

/-- A text is evaluated by a parser of its own, whose cursor reaches the end marker if the text has a value. -/
theorem realizes_evaluateText (hlimit : limit.toNat + 1 < 2 ^ 64) (fuel : Nat) (constants : ConstantTable)
    {depth : UInt64} (hdepth : depth ≤ limit) (text : String) :
    Realizes limit (Parses text constants depth) (fuel < 3 * tokenCount text + 3 + budget functions limit depth)
      (fun events a b => a = b ∧
        ∃ p : Parser, p.Parses text constants depth ∧ .cursor p p.stream.lexemes.length ∈ events)
      (evaluateText functions limit fuel constants depth text)
      ((Scope.atDepth functions ⟨limit.toNat⟩ depth.toNat constants).evaluateText text) := by
  match fuel with
  | 0 =>
    rw [evaluateText]
    exact .starved (by omega)
  | fuel + 1 =>
    rw [evaluateText, Scope.evaluateText]
    by_cases hempty : text = ""
    · rw [if_pos hempty, if_pos hempty]
      exact .fail _
    · rw [if_neg hempty, if_neg hempty]
      cases ht : tokenize text with
      | error e => exact .fail _
      | ok stream =>
        let p : Parser := ⟨stream, constants, depth⟩
        have hp : p.Parses text constants depth := ⟨ht, rfl, rfl⟩
        have hrest : p.rest 0 = stream.lexemes := rfl
        have hbudget : budget functions limit p.depth = budget functions limit depth := rfl
        have hexpression := realizes_expression hlimit fuel hp hdepth .minimum (Nat.zero_le _)
        show Realizes _ _ _ _ _ ((p.scope functions limit).evaluate stream.lexemes)
        rw [Scope.evaluate_eq, tokenCount_of_tokenize ht, ← hrest]
        refine .cursor hp hdepth (Nat.zero_le _) ((hexpression.imp fun h => by omega).bind ?_)
        rintro events ⟨value, position⟩ ⟨_, _⟩ - ⟨rfl, rfl, hposition, hmoved⟩
        simp only [peek_eq]
        by_cases hend : (Token.next (p.rest position)).kind = .endOfExpression
        · have hlast : position = p.stream.lexemes.length :=
            eq_length_of_end (fun t h => (valid_of_tokenize ht t h).kind_ne_end) hposition hend
          rw [if_pos hend, if_pos hend]
          refine .pure ⟨rfl, p, hp, ?_⟩
          rw [← hlast]
          rcases hmoved with rfl | hmem
          · exact List.mem_cons_self
          · exact List.mem_cons_of_mem _ (List.mem_append_left [] hmem)
        · rw [if_neg hend, if_neg hend]
          exact .fail _

end

/-- Every evaluation ends, with the value or the error that the text has, when the fuel reaches a bound that depends on
the functions, the text and the limit alone.  With any amount of fuel, formulas are called at depths from one to the
limit, and counting one call more does not overflow.  No cursor moves past the end marker, which stands behind the last
token, and a value is only found when the cursor has reached it.  Besides the text, nothing but bodies of called
formulas is parsed, and if the limit is zero, nothing but the text. -/
theorem evaluateText_ends_within_limits {limit : UInt64} (hlimit : limit.toNat ≤ 2 ^ 64 - 2)
    (constants : ConstantTable) (functions : FunctionTable) (text : String) :
    (∀ fuel, fuelFor functions limit text ≤ fuel →
      (evaluateText functions limit fuel constants 0 text).outcome =
        some (evaluate constants functions text ⟨limit.toNat⟩)) ∧
    ∀ fuel run, run = evaluateText functions limit fuel constants 0 text →
      (∀ f args depth, .invoke f args depth ∈ run.events →
        1 ≤ depth ∧ depth ≤ limit ∧ depth.toNat + 1 ≤ 2 ^ 64 - 1) ∧
      (∀ p position, .cursor p position ∈ run.events →
        p.depth ≤ limit ∧ p.depth.toNat + 1 ≤ 2 ^ 64 - 1 ∧ position ≤ p.stream.lexemes.length ∧
          (p.Parses text constants 0 ∨ p.InCall run.events)) ∧
      (∀ value, run.outcome = some (.ok value) →
        ∃ p : Parser, p.Parses text constants 0 ∧ .cursor p p.stream.lexemes.length ∈ run.events) ∧
      (limit = 0 → (∀ f args depth, .invoke f args depth ∉ run.events) ∧
        ∀ p position, .cursor p position ∈ run.events → p.Parses text constants 0) := by
  have hlt : limit.toNat + 1 < 2 ^ 64 := by omega
  have hzero : 0 ≤ limit := UInt64.zero_le
  have hrealizes := fun fuel => @realizes_evaluateText functions limit hlt fuel constants 0 hzero text
  have htoNat : ∀ {depth : UInt64}, depth ≤ limit → depth.toNat + 1 ≤ 2 ^ 64 - 1 := by
    intro depth h
    have hle := UInt64.le_iff_toNat_le.1 h
    omega
  refine ⟨fun fuel hfuel => (hrealizes fuel).outcome (fun _ _ _ h => h.1) (Nat.not_lt.2 hfuel), ?_⟩
  rintro fuel run rfl
  have htraced := (hrealizes fuel).traced
  have hinvoke : ∀ f args depth, .invoke f args depth ∈ (evaluateText functions limit fuel constants 0 text).events →
      1 ≤ depth ∧ depth ≤ limit := fun f args depth he => htraced.within _ he
  have hnone : limit = 0 → ∀ f args depth,
      .invoke f args depth ∉ (evaluateText functions limit fuel constants 0 text).events := by
    rintro rfl f args depth he
    obtain ⟨hpositive, hdepth⟩ := hinvoke f args depth he
    exact absurd (UInt64.le_trans hpositive hdepth) (by decide)
  refine ⟨fun f args depth he => ?_, fun p position he => ?_, fun value hvalue => ?_, fun h => ⟨hnone h, ?_⟩⟩
  · obtain ⟨hpositive, hdepth⟩ := hinvoke f args depth he
    exact ⟨hpositive, hdepth, htoNat hdepth⟩
  · obtain ⟨hdepth, hposition⟩ := htraced.within _ he
    exact ⟨hdepth, htoNat hdepth, hposition, htraced.parser p position he⟩
  · obtain ⟨_, -, hend⟩ := (hrealizes fuel).related_of_outcome hvalue
    exact hend
  · intro p position he
    rcases htraced.parser p position he with hp | ⟨f, args, hcall, -⟩
    · exact hp
    · exact absurd hcall (hnone h f args p.depth)

/-- A formula that calls itself without end is cut off with 39 units of fuel if two calls may be nested. -/
theorem evaluateText_ends_within_limits_endless :
    (2 : UInt64).toNat ≤ 2 ^ 64 - 2 ∧
    fuelFor (Std.TreeMap.ofList [("f", Callable.formula ⟨["x"], "f(x)"⟩)]) 2 "f(c)" = 39 ∧
    (evaluateText (Std.TreeMap.ofList [("f", Callable.formula ⟨["x"], "f(x)"⟩)]) 2 39
      (Std.TreeMap.ofList [("c", (2 : Float))]) 0 "f(c)").outcome = some (.error (.callDepthExceeded 2)) := by
  have hlimit : (2 : UInt64).toNat ≤ 2 ^ 64 - 2 := by decide
  have hfuel : fuelFor (Std.TreeMap.ofList [("f", Callable.formula ⟨["x"], "f(x)"⟩)]) 2 "f(c)" = 39 := by cbv
  have hrun : ∀ c : Float, evaluate (Std.TreeMap.ofList [("c", c)])
      (Std.TreeMap.ofList [("f", Callable.formula ⟨["x"], "f(x)"⟩)]) "f(c)" ⟨(2 : UInt64).toNat⟩ =
        .error (.callDepthExceeded 2) := by
    intro c
    cbv
  refine ⟨hlimit, hfuel, ?_⟩
  rw [(evaluateText_ends_within_limits hlimit _ _ _).1 39 (Nat.le_of_eq hfuel), hrun 2]

end Parser

end Calculator
