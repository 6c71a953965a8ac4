import NestedStyles.Decimal.Nearest
/-!
# Decimals read in two roundings

A quick way to read a decimal: its leading digits, as many as fit into 64 bits, are rounded to a
double, and the double is multiplied or divided by a power of ten, which rounds again. Up to 2 ^ 53
units and 22 places both steps are exact or nearly so; beyond that the result can be off the nearest
double in its last bits. Divisions go by steps of at most 308 places, so that every power of ten is
a double.

* `takeUnits` cuts off the digits that count;
* `scaled?` is the reader; it refuses what is too large for a double, and what is too small is zero.
-/
namespace NestedStyles.Decimal

/-- Adds digits to a whole number as long as it stays below 2 ^ 64: the number, and the digits that
are left. -/
def takeUnits (units : Nat) : List Char → Nat × List Char
  | [] => (units, [])
  | c :: cs =>
    let more := units * 10 + (c.toNat - '0'.toNat)
    if more < UInt64.size then takeUnits more cs else (units, c :: cs)

/-- The exponent of the greatest power of ten among the doubles. -/
def greatestPower : Nat := 308

def power (places : Nat) : Float := nearest false 1 places

/-- The double moved up by `places`; none if that is too large. -/
def scaleUp? (x : Float) (places : Nat) : Option Float :=
  if places ≤ greatestPower then
    let y := x * power places
    if y.isInf then none else some y
  else if x == 0 then some x
  else none

/-- The double moved down by `places`, at most `greatestPower` of them at a time. -/
def scaleDown (x : Float) (places : Nat) : Float :=
  if places ≤ greatestPower then x / power places
  else if x == 0 then x
  else scaleDown (x / power greatestPower) (places - greatestPower)
termination_by places
decreasing_by
  have : greatestPower = 308 := rfl
  omega

/-- The double for `units * 10 ^ exponent` with a sign, rounded once for the units and once for each
step of scaling. -/
def scaled? (negative : Bool) (units : Nat) (exponent : Int) : Option Float :=
  let x := nearest false units 0
  let scaled :=
    if 0 ≤ exponent then scaleUp? x exponent.toNat else some (scaleDown x (-exponent).toNat)
  scaled.map fun y => if negative then -y else y

end NestedStyles.Decimal
