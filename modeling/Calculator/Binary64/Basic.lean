/-!
# Binary64 numbers as exact integers

A finite binary64 number is a sign and a magnitude `significand * 2 ^ exponent`.  `magnitude` takes the magnitude from
the bits and `ofRatio` goes back: it is the binary64 number nearest to a quotient of naturals, with ties to the even
significand, so both directions are exact integer arithmetic.
-/

namespace Calculator.Binary64

/-- The nonnegative number `significand * 2 ^ exponent`. -/
structure Magnitude where
  significand : Nat
  exponent : Int
deriving DecidableEq, Repr

/-- The number as a quotient of naturals. -/
def Magnitude.ratio (a : Magnitude) : Nat × Nat :=
  (a.significand <<< a.exponent.toNat, 1 <<< (-a.exponent).toNat)

/-- Whether the sign bit is set; it is set for `-0`. -/
def isNegative (x : Float) : Bool :=
  1 <<< 63 ≤ x.toBits.toNat

/-- The magnitude of a finite number.  Bits below `2 ^ 52` hold the fraction, the eleven above it the exponent; an
exponent field of zero has no implicit leading one. -/
def magnitude (x : Float) : Magnitude :=
  let fraction : Nat := x.toBits.toNat % (1 <<< 52)
  let field : Nat := (x.toBits.toNat >>> 52) % (1 <<< 11)
  if field = 0 then ⟨fraction, -1074⟩ else ⟨(1 <<< 52) + fraction, (field : Int) - 1075⟩

/-- The natural number nearest to `num / den`; halfway between two it is the even one. -/
def roundQuotient (num den : Nat) : Nat :=
  let quotient := num / den
  let twice := 2 * (num % den)
  if twice < den then quotient
  else if den < twice then quotient + 1
  else quotient + quotient % 2

/-- The greatest `e` with `2 ^ e ≤ num / den`, for positive `num` and `den`. -/
def floorLog2 (num den : Nat) : Int :=
  let e := (num.log2 : Int) - den.log2
  if num <<< (-e).toNat < den <<< e.toNat then e - 1 else e

/-- The bits of positive infinity; those of the finite nonnegative numbers lie below. -/
def infinityBits : Nat := 0x7FF <<< 52

/-- The exponent of the last place that binary64 keeps of `num / den`: 53 bits, and none below `2 ^ -1074`. -/
def lastPlace (num den : Nat) : Int :=
  let e := floorLog2 num den - 52
  if e < -1074 then -1074 else e

/-- The bits of the binary64 number nearest to `num / den`.  Stepping the significand past `2 ^ 53` carries into the
exponent field, which is the next number up, and past the largest finite number that is infinity. -/
def bitsOfRatio (num den : Nat) : Nat :=
  if num = 0 then 0
  else
    let e := lastPlace num den
    let significand := roundQuotient (num <<< (-e).toNat) (den <<< e.toNat)
    let bits := significand + (e + 1074).toNat <<< 52
    if bits < infinityBits then bits else infinityBits

/-- The binary64 number nearest to `num / den`, for positive `den`. -/
def ofRatio (num den : Nat) : Float :=
  Float.ofBits (UInt64.ofNat (bitsOfRatio num den))

end Calculator.Binary64
