import Calculator.Binary64.Basic

/-!
# Numerals

A numeral is a nonempty run of decimal digits, optionally followed by a point and a nonempty run of digits.
`split` takes the longest numeral off the front of a text and `value?` is the number that a numeral names,
rounded to the nearest binary64.
-/

namespace Calculator.Numeral

/-- Splits off a point and the digits after it, if there are any. -/
def splitFraction : List Char → List Char × List Char
  | '.' :: d :: s =>
    if d.isDigit then ('.' :: d :: s.takeWhile Char.isDigit, s.dropWhile Char.isDigit) else ([], '.' :: d :: s)
  | s => ([], s)

/-- Splits off the longest numeral at the front of a text that begins with a digit. -/
def split (s : List Char) : List Char × List Char :=
  let fraction := splitFraction (s.dropWhile Char.isDigit)
  (s.takeWhile Char.isDigit ++ fraction.1, fraction.2)

theorem splitFraction_append (s : List Char) : (splitFraction s).1 ++ (splitFraction s).2 = s := by
  unfold splitFraction
  split
  · split <;> simp [List.takeWhile_append_dropWhile]
  · rfl

theorem split_append (s : List Char) : (split s).1 ++ (split s).2 = s := by
  simp [split, splitFraction_append, List.takeWhile_append_dropWhile]

theorem split_ne_nil {c : Char} (s : List Char) (h : c.isDigit = true) : (split (c :: s)).1 ≠ [] := by
  simp [split, h]

/-- The natural number with the given decimal digits. -/
def ofDigits (s : List Char) : Nat :=
  s.foldl (fun n c => 10 * n + (c.toNat - '0'.toNat)) 0

/-- The digits of a numeral as one natural number, and how many of them stand after the point. -/
def parse? (s : List Char) : Option (Nat × Nat) :=
  let whole := s.takeWhile Char.isDigit
  if whole.isEmpty then none
  else match s.dropWhile Char.isDigit with
    | [] => some (ofDigits whole, 0)
    | '.' :: fraction =>
      if !fraction.isEmpty && fraction.all Char.isDigit then some (ofDigits (whole ++ fraction), fraction.length)
      else none
    | _ => none

/-- The binary64 number nearest to what the numeral says, or `none` if the text is no numeral. -/
def value? (text : String) : Option Float :=
  (parse? text.toList).map fun (digits, places) => Binary64.ofRatio digits (Nat.pow 10 places)

end Calculator.Numeral
