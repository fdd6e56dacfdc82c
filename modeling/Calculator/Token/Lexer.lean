import Calculator.Numeral.Basic
import Calculator.Text.Blank
import Calculator.Token.Basic

/-!
# Splitting a text into tokens

`scan?` takes the longest token off the front of a text and `lexemes` repeats that, dropping the blanks before each
token, until the text is used up or no token begins.  Letters and digits are those of ASCII.

* `scan?_append`: a token's text is not empty, and it makes up the scanned text together with the rest;
* `lexemes_eq`: the recursion in one equation.
-/

namespace Calculator

/-- No token begins at the byte offset; `remaining` is the text from there on. -/
structure LexicalError where
  offset : Nat
  remaining : String
deriving DecidableEq, Repr

namespace Token

/-- Whether an identifier may begin with the character. -/
def isNameStart (c : Char) : Bool :=
  c.isAlpha || c == '_'

/-- Whether an identifier may go on with the character. -/
def isNamePart (c : Char) : Bool :=
  c.isAlphanum || c == '_'

/-- The longest token at the front of a text, and the rest. -/
def scan? : List Char → Option (Token × List Char)
  | [] => none
  | c :: s =>
    match Kind.ofSymbol? c with
    | some kind => some (⟨kind, String.ofList [c]⟩, s)
    | none =>
      if c.isDigit then
        some (⟨.number, String.ofList (Numeral.split (c :: s)).1⟩, (Numeral.split (c :: s)).2)
      else if isNameStart c then
        some (⟨.identifier, String.ofList (c :: s.takeWhile isNamePart)⟩, s.dropWhile isNamePart)
      else none

/-- A token's text is not empty, and it makes up the scanned text together with the rest. -/
theorem scan?_append {s rest : List Char} {t : Token} (h : scan? s = some (t, rest)) :
    t.text.toList ≠ [] ∧ t.text.toList ++ rest = s := by
  cases s with
  | nil => simp [scan?] at h
  | cons c s =>
    rw [scan?] at h
    cases hk : Kind.ofSymbol? c with
    | some kind =>
      simp only [hk, Option.some.injEq, Prod.mk.injEq] at h
      obtain ⟨rfl, rfl⟩ := h
      simp
    | none =>
      by_cases hd : c.isDigit = true
      · simp only [hk, hd, if_true, Option.some.injEq, Prod.mk.injEq] at h
        obtain ⟨rfl, rfl⟩ := h
        simpa [Numeral.split_append] using Numeral.split_ne_nil s hd
      · by_cases hn : isNameStart c = true
        · simp only [hk, hd, hn, if_true, Bool.false_eq_true, if_false, Option.some.injEq, Prod.mk.injEq] at h
          obtain ⟨rfl, rfl⟩ := h
          simp [List.takeWhile_append_dropWhile]
        · simp [hk, hd, hn] at h

theorem length_lt_of_scan? {s rest : List Char} {t : Token} (h : scan? s = some (t, rest)) :
    rest.length < s.length := by
  obtain ⟨ht, hs⟩ := scan?_append h
  have hp := List.length_pos_iff.2 ht
  have hl := congrArg List.length hs
  simp only [List.length_append] at hl
  omega

/-- The tokens of a text, or the rest of the text where no token begins. -/
def lexemes (s : List Char) : Except (List Char) (List Token) :=
  if Text.dropBlanks s = [] then .ok []
  else
    match h : scan? (Text.dropBlanks s) with
    | none => .error (Text.dropBlanks s)
    | some (t, rest) =>
      have : rest.length < s.length := Nat.lt_of_lt_of_le (length_lt_of_scan? h) (Text.length_dropBlanks_le s)
      (lexemes rest).map (t :: ·)
termination_by s.length

theorem lexemes_eq (s : List Char) :
    lexemes s =
      if Text.dropBlanks s = [] then .ok []
      else
        match scan? (Text.dropBlanks s) with
        | none => .error (Text.dropBlanks s)
        | some (t, rest) => (lexemes rest).map (t :: ·) := by
  rw [lexemes]
  split
  · rfl
  · split <;> rename_i h <;> simp only [h]

end Token

/-- The tokens of a text.  The offset of a failure counts the bytes of the text before it. -/
def tokenize (source : String) : Except LexicalError TokenStream :=
  match Token.lexemes source.toList with
  | .ok ts => .ok ⟨ts⟩
  | .error rest =>
    let remaining := String.ofList rest
    .error ⟨source.utf8ByteSize - remaining.utf8ByteSize, remaining⟩

/-- Whether a text is exactly one identifier. -/
def isIdentifier (text : String) : Bool :=
  match tokenize text with
  | .ok ⟨[t]⟩ => t.kind == .identifier && t.text == text
  | _ => false

end Calculator
