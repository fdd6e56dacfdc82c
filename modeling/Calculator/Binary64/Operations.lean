import Calculator.Binary64.Basic

/-!
# Remainder, minimum and maximum of two numbers

`remainder x y` is `x - n * y` for the whole number `n` that is the quotient `x / y` cut off towards zero.  The result
is exact: it is computed on the magnitudes at their common exponent and takes the sign of `x`.

`minimum` and `maximum` pass over NaN: the result is NaN only if both arguments are.  Of two equal numbers the second is
the result, which shows only where they are zeros of different sign.
-/

namespace Calculator.Binary64

/-- The remainder of two magnitudes, at the smaller of their exponents. -/
def Magnitude.mod (a b : Magnitude) : Magnitude :=
  let e := if a.exponent ≤ b.exponent then a.exponent else b.exponent
  ⟨(a.significand <<< (a.exponent - e).toNat) % (b.significand <<< (b.exponent - e).toNat), e⟩

/-- The remainder of `x / y` with the sign of `x`.  There is none for infinite `x` or zero `y`, and an infinite `y`
leaves `x` as it is. -/
def remainder (x y : Float) : Float :=
  if x.isNaN || y.isNaN || x.isInf || y == 0 then 0 / 0
  else if y.isInf then x
  else
    let (num, den) := ((magnitude x).mod (magnitude y)).ratio
    if isNegative x then -ofRatio num den else ofRatio num den

/-- The smaller of two numbers, the second if they are equal. -/
def minimum (a b : Float) : Float :=
  if b.isNaN then a
  else if a < b then a
  else b

/-- The larger of two numbers, the second if they are equal. -/
def maximum (a b : Float) : Float :=
  if b.isNaN then a
  else if b < a then a
  else b

end Calculator.Binary64
