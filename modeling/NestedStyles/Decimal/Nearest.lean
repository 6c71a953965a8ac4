/-!
# The double nearest to a decimal

A decimal is a sign, a whole number of units and a power of ten that says what the unit is. It is
read as the double nearest to its exact value, of two equally near ones the one with the even last
bit; beyond half an ulp above the largest double it is infinite.

The work is done on a fraction `num / den` of naturals: `quotientExponent` finds the exponent of the
last bit that a double has there, `roundEven` rounds the fraction to a multiple of it, and
`nearestBits` puts the bits together. An exponent field holds one less than the hidden bit adds, so
a carry out of the fraction field moves into the exponent field by plain addition.
-/
namespace NestedStyles.Decimal

/-- The quotient rounded to the nearest whole number, half-way cases to the even one. -/
def roundEven (num den : Nat) : Nat :=
  let q := num / den
  let r := num % den
  if 2 * r < den then q
  else if den < 2 * r then q + 1
  else if q % 2 = 0 then q else q + 1

/-- The greatest `e` with `2 ^ e ≤ num / den`, for positive `num` and `den`. -/
def binaryExponent (num den : Nat) : Int :=
  let guess : Int := (num.log2 : Int) - den.log2
  let reached :=
    if 0 ≤ guess then decide (den * Nat.pow 2 guess.toNat ≤ num)
    else decide (den ≤ num * Nat.pow 2 (-guess).toNat)
  if reached then guess else guess - 1

/-- The exponent of the last fraction bit of the doubles around `num / den`. -/
def quotientExponent (num den : Nat) : Int := max (binaryExponent num den - 52) (-1074)

def infinityBits : Nat := 0x7FF0000000000000

/-- The bits, as a number, of the non-negative double nearest to `num / den`. -/
def nearestBits (num den : Nat) : Nat :=
  if num = 0 then 0
  else
    let q := quotientExponent num den
    let units :=
      if 0 ≤ q then roundEven num (den * Nat.pow 2 q.toNat)
      else roundEven (num * Nat.pow 2 (-q).toNat) den
    min ((q + 1074).toNat * Nat.pow 2 52 + units) infinityBits

def digitCount (n : Nat) : Nat := (Nat.toDigits 10 n).length

/-- The bits of the double nearest to `units * 10 ^ exponent`. A value far outside the range of
doubles is decided by its order of magnitude, without computing the power. -/
def magnitudeBits (units : Nat) (exponent : Int) : Nat :=
  let order : Int := (digitCount units : Int) + exponent
  if units = 0 ∨ order < -400 then 0
  else if 400 < order then infinityBits
  else if 0 ≤ exponent then nearestBits (units * Nat.pow 10 exponent.toNat) 1
  else nearestBits units (Nat.pow 10 (-exponent).toNat)

/-- The double nearest to `units * 10 ^ exponent`, with the sign bit set if `negative`. -/
def nearest (negative : Bool) (units : Nat) (exponent : Int) : Float :=
  let sign := if negative then Nat.pow 2 63 else 0
  Float.ofBits (UInt64.ofNat (sign + magnitudeBits units exponent))

end NestedStyles.Decimal
