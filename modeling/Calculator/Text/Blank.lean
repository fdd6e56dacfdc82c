/-!
# Blank characters

The characters that may stand between tokens and around a line are those with the Unicode property White_Space
(25 code points, unchanged since Unicode 6.3).  Texts are lists of characters here; `dropBlanks` and `trim` remove
blanks at the front and at both ends.
-/

namespace Calculator.Text

/-- The code points with the property White_Space, as closed ranges in ascending order. -/
def blankRanges : List (Nat × Nat) :=
  [(0x09, 0x0D), (0x20, 0x20), (0x85, 0x85), (0xA0, 0xA0), (0x1680, 0x1680), (0x2000, 0x200A),
   (0x2028, 0x2029), (0x202F, 0x202F), (0x205F, 0x205F), (0x3000, 0x3000)]

/-- Whether a character is white space. -/
def isBlank (c : Char) : Bool :=
  blankRanges.any fun r => r.1 ≤ c.toNat && c.toNat ≤ r.2

/-- The text without the blanks at its front. -/
def dropBlanks (s : List Char) : List Char :=
  s.dropWhile isBlank

/-- The text without the blanks at either end. -/
def trim (s : List Char) : List Char :=
  (dropBlanks (dropBlanks s).reverse).reverse

theorem length_dropBlanks_le (s : List Char) : (dropBlanks s).length ≤ s.length := by
  rw [dropBlanks]
  exact (List.dropWhile_suffix isBlank).length_le

end Calculator.Text
