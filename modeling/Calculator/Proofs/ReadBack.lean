import Calculator.Proofs.Application
import Calculator.Proofs.Dialogue
import Calculator.Proofs.LexicalFailure
import Calculator.Proofs.Positional
import Mathlib

/-!
# Reading numbers back

A number is written as one token, with a minus before it if the number is negative (`Numeral.exists_lexeme`).  For a
finite number the token is a numeral that names the absolute value (`Numeral.value?_shortest`): either a text was found
that reads back, or it is the exact decimal.  So evaluating what the console shows for a finite number gives the number
again, the sign of a zero included.  The other numbers are written as words, which mean something only if they are
constants.
-/

namespace Calculator

namespace Numeral

/-! ### The digits of a number -/

theorem value?_of_readsBack {x : Float} {text : List Char} (h : readsBack x text = true) :
    value? (String.ofList text) = some x := by
  obtain ⟨y, hy, hbits⟩ := Option.map_eq_some_iff.1 (beq_iff_eq.1 h)
  rw [hy, Binary64.eq_of_toBits hbits]

/-- The shortest text of a finite nonnegative number names the number. -/
theorem value?_shortest {x : Float} (hfinite : x.isFinite = true) (hpos : Binary64.isNegative x = false) :
    value? (String.ofList (shortest x)) = some x := by
  unfold shortest
  dsimp only
  split
  · rename_i hzero
    have hvalue : ((0 : ℕ) : ℚ) / (1 : ℕ) = (Binary64.magnitude x).value := by
      rw [Binary64.Magnitude.value, hzero, Nat.cast_zero, zero_mul, zero_div]
    exact congrArg some (Binary64.ofRatio_eq_of_value hfinite hpos Nat.one_pos hvalue)
  · generalize hfind : List.find? (readsBack x) _ = found
    cases found with
    | some text => exact value?_of_readsBack (List.find?_some hfind)
    | none => exact value?_text_ofMagnitude hfinite hpos

/-! ### The operand and its sign -/

/-- A text with a minus before it or without. -/
def signed (negative : Bool) (text : String) : String :=
  String.ofList (if negative = true then '-' :: text.toList else text.toList)

/-- What stands for a number without its sign: a word or a numeral. -/
def operand (x : Float) : Grammar.Atom :=
  if x.isNaN then .constant "NaN" else if x.isInf then .constant "inf" else .number (String.ofList (shortest x.abs))

/-- A number is written as one token, with a minus before it if the number is negative. -/
theorem exists_lexeme (x : Float) :
    ∃ t : Lexeme, (operand x).tokens = [t.val] ∧ write x = signed (Binary64.isNegative x) t.val.text := by
  rw [operand, write]
  by_cases hnan : x.isNaN = true
  · have hname : IsName "NaN".toList :=
      ⟨'N', ['a', 'N'], rfl, rfl, List.forall_mem_cons.2 ⟨rfl, List.forall_mem_singleton.2 rfl⟩⟩
    rw [if_pos hnan, if_pos hnan, Binary64.isNegative_of_isNaN hnan]
    exact ⟨⟨_, .identifier hname⟩, rfl, String.ofList_toList.symm⟩
  · rw [if_neg hnan, if_neg hnan]
    by_cases hinf : x.isInf = true
    · have htext : "inf".toList = ['i', 'n', 'f'] := rfl
      have hname : IsName "inf".toList :=
        ⟨'i', ['n', 'f'], htext, rfl, List.forall_mem_cons.2 ⟨rfl, List.forall_mem_singleton.2 rfl⟩⟩
      simp only [if_pos hinf, ← htext]
      exact ⟨⟨_, .identifier hname⟩, rfl, rfl⟩
    · have hfinite : x.isFinite = true :=
        Binary64.isFinite_iff.2 ⟨Bool.eq_false_iff.2 hnan, Bool.eq_false_iff.2 hinf⟩
      have hnumeral : IsNumeral (String.ofList (shortest x.abs)).toList :=
        isNumeral_of_value? (value?_shortest (Binary64.isFinite_abs hfinite) (Binary64.isNegative_abs hfinite))
      simp only [if_neg hinf]
      refine ⟨⟨_, .number hnumeral⟩, rfl, ?_⟩
      rw [signed, String.toList_ofList]

theorem unblank_write (x : Float) : (write x).toList ≠ [] ∧ ∀ c ∈ (write x).toList, Text.isBlank c = false := by
  obtain ⟨t, -, hwrite⟩ := exists_lexeme x
  obtain ⟨c, s, htext, -⟩ := t.property.text_eq_cons
  have hunblank : ∀ c ∈ t.val.text.toList, Text.isBlank c = false := fun _ => t.property.isBlank_eq_false_of_mem
  rw [hwrite, signed, String.toList_ofList]
  split
  · exact ⟨List.cons_ne_nil _ _, List.forall_mem_cons.2 ⟨rfl, hunblank⟩⟩
  · exact ⟨htext ▸ List.cons_ne_nil c s, hunblank⟩

end Numeral

/-! ### Evaluating an operand with its sign -/

/-- A minus before an operand negates its value. -/
theorem Scope.evaluateText_signed (scope : Scope) (negative : Bool) {a : Grammar.Atom} (t : Lexeme)
    (ha : a.tokens = [t.val]) :
    scope.evaluateText (Numeral.signed negative t.val.text) =
      (a.value scope).map fun value => if negative = true then -value else value := by
  cases negative with
  | false =>
    have ht : tokenize (Numeral.signed false t.val.text) = .ok ⟨(Grammar.Sum.product (.power (.atom a))).tokens⟩ := by
      rw [tokenize_eq_ok_iff, Numeral.signed, String.toList_ofList]
      exact (Token.lexemes_text t).trans (congrArg _ ha.symm)
    rw [Grammar.Sum.evaluateText_of_tokenize scope _ ht]
    show a.value scope = _
    cases a.value scope <;> rfl
  | true =>
    have ht : tokenize (Numeral.signed true t.val.text) =
        .ok ⟨(Grammar.Sum.product (.power (.signed .minus (.atom a)))).tokens⟩ := by
      rw [tokenize_eq_ok_iff, Numeral.signed, String.toList_ofList]
      show Token.lexemes ('-' :: t.val.text.toList) = .ok (Sign.minus.token :: a.tokens)
      rw [Token.lexemes_symbol_cons .minus rfl, Token.lexemes_text t, ha]
      rfl
    rw [Grammar.Sum.evaluateText_of_tokenize scope _ ht]
    show (a.value scope >>= fun value => Except.ok (-value)) = _
    cases a.value scope <;> rfl

/-- The value of what is written for a number. -/
theorem Scope.evaluateText_write (scope : Scope) (x : Float) :
    scope.evaluateText (Numeral.write x) =
      ((Numeral.operand x).value scope).map fun value => if Binary64.isNegative x = true then -value else value := by
  obtain ⟨t, ht, hwrite⟩ := Numeral.exists_lexeme x
  rw [hwrite, scope.evaluateText_signed _ t ht]

/-- The word for a number that is not finite. -/
def Numeral.IsWord (x : Float) (name : String) : Prop :=
  x.isInf = true ∧ name = "inf" ∨ x.isNaN = true ∧ name = "NaN"

namespace Numeral.IsWord

variable {x : Float} {name : String}

theorem operand_eq (h : IsWord x name) : operand x = .constant name := by
  rcases h with ⟨hinf, rfl⟩ | ⟨hnan, rfl⟩
  · rw [operand, Binary64.isNaN_of_isInf hinf, hinf]
    rfl
  · rw [operand, hnan]
    rfl

theorem ne_builtin (h : IsWord x name) : ∀ entry ∈ Builtins.constants, entry.1 ≠ name := by
  rw [Builtins.constants, List.forall_mem_cons, List.forall_mem_cons, List.forall_mem_singleton]
  rcases h with ⟨-, rfl⟩ | ⟨-, rfl⟩
  · exact ⟨by decide, by decide, by decide⟩
  · exact ⟨by decide, by decide, by decide⟩

end Numeral.IsWord

section Evaluate

variable (constants : ConstantTable) (functions : FunctionTable) (limits : Limits) {x : Float}

/-- What is written for a finite number has this number as its value. -/
theorem evaluate_write_of_isFinite (h : x.isFinite = true) :
    evaluate constants functions (Numeral.write x) limits = .ok x := by
  obtain ⟨hnan, hinf⟩ := Binary64.isFinite_iff.1 h
  have hoperand : Numeral.operand x = .number (String.ofList (Numeral.shortest x.abs)) := by
    rw [Numeral.operand, hnan, hinf]
    rfl
  have hvalue := Numeral.value?_shortest (Binary64.isFinite_abs h) (Binary64.isNegative_abs h)
  rw [evaluate, Scope.evaluateText_write, hoperand, Grammar.Atom.value, Numeral.read, hvalue]
  exact congrArg Except.ok (Binary64.neg_abs_of_isNegative h)

/-- A word means what the constants say. -/
theorem evaluate_write_of_isWord {name : String} (h : Numeral.IsWord x name) :
    evaluate constants functions (Numeral.write x) limits =
      match constants[name]? with
      | some value => .ok (if Binary64.isNegative x = true then -value else value)
      | none => .error (.unknownConstant name) := by
  rw [evaluate, Scope.evaluateText_write, h.operand_eq, Grammar.Atom.value, Scope.constant, Scope.constant?_atDepth]
  cases constants[name]? <;> rfl

end Evaluate

/-! ### Typing a number back -/

/-- A line that shows a number, after any other lines. -/
theorem Console.answers_write (lines : List (List Char)) (x : Float) :
    answers initial (lines ++ [(Numeral.write x).toList]) =
      answers initial lines ++ [some (showResult ((after initial lines).evaluate (Numeral.write x)))] := by
  obtain ⟨hne, hunblank⟩ := Numeral.unblank_write x
  rw [answers_append]
  show _ ++ [(answer (after initial lines) (Numeral.write x).toList).2] = _
  rw [answer_of_unblank _ hne hunblank, String.ofList_toList]

/-- What the console shows for a number, evaluated under any tables and limits or typed into a console after any lines.
For a finite number it gives the number again, bit for bit.  An infinity or NaN is shown as a word, which is an unknown
constant unless the table gives it a value, and no line of a console can do that. -/
theorem evaluate_showResult_ok (x : Float) :
    (∀ (constants : ConstantTable) (functions : FunctionTable) (limits : Limits),
      (x.isFinite = true → evaluate constants functions (Console.showResult (.ok x)) limits = .ok x) ∧
      ∀ name, Numeral.IsWord x name →
        (constants[name]? = none →
          evaluate constants functions (Console.showResult (.ok x)) limits = .error (.unknownConstant name)) ∧
        ∀ value, constants[name]? = some value →
          evaluate constants functions (Console.showResult (.ok x)) limits =
            .ok (if Binary64.isNegative x = true then -value else value)) ∧
    ∀ lines : List (List Char),
      (x.isFinite = true →
        Console.answers Console.initial (lines ++ [(Console.showResult (.ok x)).toList]) =
          Console.answers Console.initial lines ++ [some (Console.showResult (.ok x))]) ∧
      ∀ name, Numeral.IsWord x name →
        Console.answers Console.initial (lines ++ [(Console.showResult (.ok x)).toList]) =
          Console.answers Console.initial lines ++ [some (Console.showResult (.error (.unknownConstant name)))] := by
  rw [Console.showResult]
  constructor
  · intro constants functions limits
    refine ⟨evaluate_write_of_isFinite constants functions limits, fun name hname => ⟨?_, ?_⟩⟩
    · intro hnone
      rw [evaluate_write_of_isWord constants functions limits hname, hnone]
    · intro value hvalue
      rw [evaluate_write_of_isWord constants functions limits hname, hvalue]
  · intro lines
    refine ⟨fun hfinite => ?_, fun name hname => ?_⟩
    · rw [Console.answers_write, Environment.evaluate, evaluate_write_of_isFinite _ _ _ hfinite, Console.showResult]
    · have hnone := Console.getElem?_constants_after lines hname.ne_builtin
      rw [Console.answers_write, Environment.evaluate, evaluate_write_of_isWord _ _ _ hname, hnone]

/-- A negative zero keeps its sign, and the word for an infinity means what the table says, but nothing in a console. -/
theorem evaluate_showResult_ok_infinite :
    (Float.ofBits 0x8000000000000000).isFinite = true ∧
    evaluate ∅ ∅ (Console.showResult (.ok (Float.ofBits 0x8000000000000000))) ⟨0⟩ =
      .ok (Float.ofBits 0x8000000000000000) ∧
    Numeral.IsWord (Float.ofBits 0xFFF0000000000000) "inf" ∧
    evaluate (Std.TreeMap.ofList [("inf", (2 : Float))]) ∅
        (Console.showResult (.ok (Float.ofBits 0xFFF0000000000000))) = .ok (-2) ∧
    Console.answers Console.initial [(Console.showResult (.ok (Float.ofBits 0xFFF0000000000000))).toList] =
      [some "Error: Unknown constant 'inf'"] := by
  have hzero : (Float.ofBits 0x8000000000000000).isFinite = true := by decide
  have hword : Numeral.IsWord (Float.ofBits 0xFFF0000000000000) "inf" := Or.inl ⟨by decide, rfl⟩
  have hnegative : Binary64.isNegative (Float.ofBits 0xFFF0000000000000) = true := by decide
  obtain ⟨-, hinf⟩ := (evaluate_showResult_ok (Float.ofBits 0xFFF0000000000000)).1
    (Std.TreeMap.ofList [("inf", (2 : Float))]) ∅ {}
  have hvalue := (hinf "inf" hword).2 2 (by cbv)
  rw [if_pos hnegative] at hvalue
  exact ⟨hzero, ((evaluate_showResult_ok _).1 ∅ ∅ ⟨0⟩).1 hzero, hword, hvalue,
    ((evaluate_showResult_ok _).2 []).2 "inf" hword⟩

end Calculator
