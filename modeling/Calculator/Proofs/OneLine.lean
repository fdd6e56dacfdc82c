import Calculator.Proofs.Failure
import Calculator.Proofs.Frames
import Calculator.Proofs.Isolation
import Calculator.Proofs.Juxtaposition
import Calculator.Proofs.Registration

/-!
# Messages on one line

A message quotes names, tokens and remainders of the text that was evaluated, or of the body of a formula that was
called on the way.  So an evaluation of a text without line breaks is answered by a message without line breaks, if no
body in the table of functions holds one and if the native functions report none (`Environment.OneLine.message`).  The
environment of a console is of this kind, and entering formulas keeps it so.
-/

namespace Calculator

/-! ### Texts without line breaks -/

/-- The text holds no line feed. -/
def Text.OneLine (s : String) : Prop :=
  '\n' ∉ s.toList

instance (s : String) : Decidable (Text.OneLine s) :=
  inferInstanceAs (Decidable (¬ '\n' ∈ s.toList))

namespace Text

theorem OneLine.append {s t : String} (hs : OneLine s) (ht : OneLine t) : OneLine (s ++ t) := by
  rw [OneLine, String.toList_append, List.mem_append]
  exact not_or_intro hs ht

/-- A text is quoted between two others. -/
theorem OneLine.quoted {before s after : String} (hs : OneLine s) (hbefore : OneLine before) (hafter : OneLine after) :
    OneLine (before ++ s ++ after) :=
  (hbefore.append hs).append hafter

theorem oneLine_of_subset {s t : String} (h : OneLine t) (hsub : s.toList ⊆ t.toList) : OneLine s :=
  fun hmem => h (hsub hmem)

theorem oneLine_of_unblank {s : String} (h : ∀ c ∈ s.toList, isBlank c = false) : OneLine s :=
  fun hmem => absurd (h '\n' hmem) (by decide)

theorem oneLine_toString (n : Nat) : OneLine (toString n) := by
  intro hmem
  rw [Nat.toString_eq_repr, Nat.toList_repr] at hmem
  exact absurd (Nat.isDigit_of_mem_toDigits (by decide) (by decide) hmem) (by decide)

end Text

open Text (oneLine_toString)

theorem IsName.oneLine {name : String} (h : IsName name.toList) : Text.OneLine name := by
  obtain ⟨c, rest, heq, hc, hrest⟩ := h
  have hpart : ∀ d ∈ name.toList, Token.isNamePart d = true := by
    rw [heq]
    exact List.forall_mem_cons.2 ⟨Token.isNamePart_of_isNameStart hc, hrest⟩
  exact fun hmem => absurd (hpart '\n' hmem) (by decide)

theorem oneLine_argumentCountMessage (expected found : Nat) : Text.OneLine (argumentCountMessage expected found) := by
  exact ((oneLine_toString expected).quoted (by decide) (by decide)).append (oneLine_toString found)

/-! ### Messages of evaluation errors -/

/-- The tokens of a text and the end of an expression are shown on one line. -/
theorem oneLine_display_next {text : String} {before after : List Token} (h : tokenize text = .ok ⟨before ++ after⟩) :
    Text.OneLine (Token.next after).display := by
  have hnext : (Token.next after).Valid ∨ Token.next after = Token.endMarker := by
    cases after with
    | nil => exact Or.inr rfl
    | cons t after => exact Or.inl (valid_of_tokenize h t (List.mem_append_right _ List.mem_cons_self))
  rcases hnext with hvalid | hend
  · have htext : Text.OneLine (Token.next after).text :=
      Text.oneLine_of_unblank fun _ => hvalid.isBlank_eq_false_of_mem
    rw [Token.display]
    split
    · decide
    · exact htext.quoted (by decide) (by decide)
    · exact htext.quoted (by decide) (by decide)
    · exact htext.quoted (by decide) (by decide)
  · rw [hend]
    decide

theorem SyntaxError.At.oneLine_message {brackets : List Token.Bracket} {found : Token} {error : SyntaxError}
    (h : error.At brackets found) (hfound : Text.OneLine found.display) :
    Text.OneLine error.toEvalError.message := by
  have hunexpected : ∀ expected : Expectation,
      Text.OneLine ("Expected " ++ expected.display ++ ", found " ++ found.display) := by
    intro expected
    have hexpected : Text.OneLine expected.display := by
      cases expected <;> decide
    exact (hexpected.quoted (by decide) (by decide)).append hfound
  cases h with
  | trailingInput => exact .append (by decide) hfound
  | expectedValue => exact .append (by decide) hfound
  | operator => exact hunexpected .operator
  | group => exact hunexpected .closingParen
  | arguments => exact hunexpected .closingParen

/-- What is left of a text where no token begins is a part of the text. -/
theorem LexicalError.oneLine_message {text : String} {e : LexicalError} (h : tokenize text = .error e)
    (htext : Text.OneLine text) : Text.OneLine e.message := by
  have hremaining : Text.OneLine e.remaining := by
    obtain ⟨l, c, r, heq, -⟩ := exists_layout_of_lexemes_error (tokenize_eq_error_iff.1 h).1
    refine Text.oneLine_of_subset htext ?_
    rw [heq]
    exact List.subset_append_right _ _
  exact hremaining.quoted ((oneLine_toString e.offset).quoted (by decide) (by decide)) (by decide)

/-- A rejected definition is answered by the name of one of its parameters. -/
theorem Formula.oneLine_message_of_make {params : List String} {body : String} {e : DefinitionError}
    (h : make params body = .error e) (hparams : ∀ name ∈ params, Text.OneLine name) : Text.OneLine e.message := by
  obtain ⟨i, name, hname, -, hdefect⟩ := exists_isLeast_of_make h
  have hline : Text.OneLine name := hparams name (List.mem_of_getElem? hname)
  cases hdefect with
  | duplicate => exact hline.quoted (by decide) (by decide)
  | invalid => exact hline.quoted (by decide) (by decide)
  | unused => exact hline.quoted (by decide) (by decide)

/-! ### Tables -/

/-- Nothing that the function reports can hold a line break, whatever it quotes. -/
def Callable.OneLine : Callable → Prop
  | formula f => Text.OneLine f.body
  | native f => ∀ args message, f.run args = .error message → Text.OneLine message

/-- No function in the table can report a line break. -/
def FunctionTable.OneLine (functions : FunctionTable) : Prop :=
  ∀ (name : String) (f : Callable), functions[name]? = some f → f.OneLine

namespace FunctionTable

variable {functions : FunctionTable} {limits : Limits}

/-- A frame without line breaks fails with a message without line breaks. -/
theorem OneLine.message_of_fails (h : FunctionTable.OneLine functions) {frame : Frame}
    (hframe : Text.OneLine frame.text) {e : EvalError} (he : frame.Fails functions limits e) :
    Text.OneLine e.message := by
  cases he with
  | lexical ht => exact LexicalError.oneLine_message ht hframe
  | emptyExpression => decide
  | syntactic ht hat => exact hat.oneLine_message (oneLine_display_next ht)
  | unknownConstant hname => exact (isName_of_mem_mentions hname).oneLine.quoted (by decide) (by decide)
  | unknownFunction hname => exact (isName_of_mem_callees hname).oneLine.quoted (by decide) (by decide)
  | callDepthExceeded => exact (oneLine_toString limits.callDepth).quoted (by decide) (by decide)
  | argumentCount => exact oneLine_argumentCountMessage _ _
  | nativeFailure hname hf hrun =>
    exact ((isName_of_mem_callees hname).oneLine.quoted (by decide) (by decide)).append (h _ _ hf _ _ hrun)

/-- Only bodies of formulas are called. -/
theorem OneLine.text_of_calls (h : FunctionTable.OneLine functions) {frame frame' : Frame}
    (hpath : Relation.ReflTransGen (Frame.Calls functions) frame frame') (hframe : Text.OneLine frame.text) :
    Text.OneLine frame'.text := by
  induction hpath with
  | refl => exact hframe
  | tail _ hcalls _ =>
    obtain ⟨name, -, f, hf, rfl⟩ := hcalls
    exact h name _ hf

end FunctionTable

namespace Environment

/-- No function of the environment can report a line break. -/
def OneLine (env : Environment) : Prop :=
  FunctionTable.OneLine env.functions

variable {env : Environment}

/-- A text without line breaks that fails is answered on one line. -/
theorem OneLine.message (h : env.OneLine) {text : String} (htext : Text.OneLine text) {e : EvalError}
    (he : env.evaluate text = .error e) : Text.OneLine e.message := by
  obtain ⟨frame, hpath, hfails⟩ := exists_frame_of_evaluateText ⟨text, (· ∈ env.constants), 0⟩ (fun _ => Iff.rfl)
    (Nat.zero_le env.limits.callDepth) he
  exact FunctionTable.OneLine.message_of_fails h (FunctionTable.OneLine.text_of_calls h hpath htext) hfails

/-- Entering a formula without line breaks keeps the environment free of them. -/
theorem OneLine.define (h : env.OneLine) {d : Definition} (hbody : Text.OneLine d.body) {env' : Environment}
    (hd : env.define d = .ok env') : env'.OneLine := by
  obtain ⟨f, hmake, rfl⟩ := map_eq_ok.1 hd
  have hf : f.body = d.body := by
    rw [(Formula.make_eq_ok.1 hmake).1]
  intro name callable hcallable
  rw [setFunction, Std.TreeMap.getElem?_insert] at hcallable
  split at hcallable
  · cases hcallable
    show Text.OneLine f.body
    rwa [hf]
  · exact h name callable hcallable

end Environment

end Calculator
