/-!
# Cutting texts

A text is a list of characters.  `cut` splits it at the first occurrence of a character, `pieces` at every
occurrence, and `lines` at line feeds; `dropLast?` cuts a character off the end; `occursIn` searches for one text inside
another.
-/

namespace Calculator.Text

/-- Splits at the first occurrence of `sep` into what stands before it and what stands after it. -/
def cut (sep : Char) : List Char → Option (List Char × List Char)
  | [] => none
  | c :: s => if c = sep then some ([], s) else (cut sep s).map fun (before, after) => (c :: before, after)

/-- Splits at every occurrence of `sep`; the pieces are one more than the occurrences. -/
def pieces (sep : Char) : List Char → List (List Char)
  | [] => [[]]
  | c :: s => if c = sep then [] :: pieces sep s else (pieces sep s).modifyHead (c :: ·)

/-- The lines of a text.  Each line feed ends a line; text after the last line feed is a line if there is any. -/
def lines : List Char → List (List Char)
  | [] => []
  | c :: s =>
    if c = '\n' then [] :: lines s
    else match lines s with
      | [] => [[c]]
      | line :: rest => (c :: line) :: rest

/-- The text without its last character, if that is `c`. -/
def dropLast? (c : Char) (s : List Char) : Option (List Char) :=
  if s.getLast? = some c then some s.dropLast else none

/-- Whether `w` occurs in the text as a contiguous part. -/
def occursIn (w : List Char) : List Char → Bool
  | [] => w.isEmpty
  | c :: s => w.isPrefixOf (c :: s) || occursIn w s

end Calculator.Text
