import Calculator.Numeral.Basic

/-!
# Writing numbers

A finite number is written positionally, with the fewest digits that read back as the same number and, among those,
the digits nearest to it; of two equally near the larger.  There is never an exponent, and no point after a whole
number.
-/

namespace Calculator.Numeral

open Binary64 (Magnitude)

/-- The number `coefficient * 10 ^ exponent`. -/
structure Decimal where
  coefficient : Nat
  exponent : Int
deriving DecidableEq, Repr

/-- The decimal digits of a natural number. -/
def digits (n : Nat) : List Char :=
  Nat.toDigits 10 n

/-- The decimal written out: the digits, with a point before the last `-exponent` of them if the exponent is negative,
and followed by `exponent` zeros otherwise. -/
def Decimal.text (d : Decimal) : List Char :=
  if 0 ≤ d.exponent then digits (d.coefficient * Nat.pow 10 d.exponent.toNat)
  else
    let places := (-d.exponent).toNat
    let fraction := digits (d.coefficient % Nat.pow 10 places)
    digits (d.coefficient / Nat.pow 10 places) ++ '.' :: (List.replicate (places - fraction.length) '0' ++ fraction)

/-- The same number with up to `n` zeros at the end of the coefficient moved into the exponent. -/
def Decimal.reduce : Nat → Decimal → Decimal
  | 0, d => d
  | n + 1, d => if d.coefficient % 10 = 0 then reduce n ⟨d.coefficient / 10, d.exponent + 1⟩ else d

/-- The decimal that equals a magnitude. -/
def Decimal.ofMagnitude (a : Magnitude) : Decimal :=
  if 0 ≤ a.exponent then ⟨a.significand <<< a.exponent.toNat, 0⟩
  else ⟨a.significand * Nat.pow 5 (-a.exponent).toNat, a.exponent⟩

/-- The least `k` with `num / den < 10 ^ k`, for positive `num` and `den`. -/
def decimalScale (num den : Nat) : Int :=
  let k : Int := (digits num).length - (digits den).length
  if num * Nat.pow 10 (-k).toNat < den * Nat.pow 10 k.toNat then k else k + 1

/-- The two decimals with `n` digits that enclose `num / den`, the nearer first; halfway the larger first. -/
def neighbours (num den n : Nat) : List Decimal :=
  let e := decimalScale num den - n
  let num := num * Nat.pow 10 (-e).toNat
  let den := den * Nat.pow 10 e.toNat
  let lower := num / den
  let candidates :=
    if 2 * (num % den) < den then [lower, lower + 1] else [lower + 1, lower]
  candidates.map fun c => Decimal.reduce (n + 1) ⟨c, e⟩

/-- Whether reading the text gives the number back. -/
def readsBack (x : Float) (text : List Char) : Bool :=
  (value? (String.ofList text)).map Float.toBits == some x.toBits

/-- The shortest text of a finite nonnegative number.  Seventeen digits always read back; the exact decimal stands
behind the search so that the result is right without that fact. -/
def shortest (x : Float) : List Char :=
  let a := Binary64.magnitude x
  if a.significand = 0 then ['0']
  else
    let (num, den) := a.ratio
    let texts := (List.range' 1 17).flatMap fun n => (neighbours num den n).map Decimal.text
    (texts.find? (readsBack x)).getD (Decimal.ofMagnitude a).text

/-- The text of a number. -/
def write (x : Float) : String :=
  if x.isNaN then "NaN"
  else
    let text := if x.isInf then ['i', 'n', 'f'] else shortest x.abs
    String.ofList (if Binary64.isNegative x then '-' :: text else text)

end Calculator.Numeral
