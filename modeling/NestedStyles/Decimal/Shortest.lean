import NestedStyles.Decimal.Nearest
/-!
# The shortest decimal that reads back

Every finite double is the nearest one to all reals of an interval around it. Among the decimals of
that interval the shortest are those with the fewest digits, and of these the one nearest to the
double is its text; an exact tie goes to the larger.

* `Span` holds a positive double and the ends of its interval as numerators over one denominator;
  the ends belong to it if the significand is even, since ties of reading go to the even one;
* `Span.atDigits` looks at the two multiples of a power of ten next to the double;
* `shortest` takes the first number of digits, from 1 on, at which one of these lies in the
  interval. Seventeen digits always suffice.
-/
namespace NestedStyles.Decimal

/-- A positive number `value / unit` and the interval from `low / unit` to `high / unit` around
it. -/
structure Span where
  low : Nat
  value : Nat
  high : Nat
  unit : Nat
  closed : Bool
  deriving Repr

/-- The interval of reals that read as the double with this biased exponent and fraction. Below a
power of two the doubles are twice as dense, so there the lower end is nearer. -/
def Span.ofFields (biased fraction : Nat) : Span :=
  let significand := if biased = 0 then fraction else Nat.pow 2 52 + fraction
  let exponent : Int := (max biased 1 : Nat) - 1075
  let below := if fraction = 0 ∧ 1 < biased then 1 else 2
  let up := Nat.pow 2 exponent.toNat
  { low := (4 * significand - below) * up
    value := 4 * significand * up
    high := (4 * significand + 2) * up
    unit := 4 * Nat.pow 2 (-exponent).toNat
    closed := significand % 2 = 0 }

/-- The span with ten to the power `p` as the new unit of measure. -/
def Span.scale (s : Span) (p : Int) : Span :=
  let up := Nat.pow 10 (-p).toNat
  { s with
    low := s.low * up, value := s.value * up, high := s.high * up
    unit := s.unit * Nat.pow 10 p.toNat }

def Span.admits (s : Span) (n : Nat) : Bool :=
  if s.closed then s.low ≤ n * s.unit && n * s.unit ≤ s.high
  else s.low < n * s.unit && n * s.unit < s.high

/-- The greatest `k` with `10 ^ k ≤ value / unit`. -/
def Span.order (s : Span) : Int :=
  let guess : Int := (digitCount s.value : Int) - digitCount s.unit
  if s.unit * Nat.pow 10 guess.toNat ≤ s.value * Nat.pow 10 (-guess).toNat then guess else guess - 1

/-- A number of `n` digits, or the power of ten after the last of these, in units of `10 ^ p`: the
power of ten is written with its one digit. -/
def normalDigits (n units : Nat) (p : Int) : Nat × Int :=
  if units = Nat.pow 10 n then (1, p + n) else (units, p)

/-- A decimal with at most `n` digits in the interval: the nearer of the two next to the value. -/
def Span.atDigits (s : Span) (n : Nat) : Option (Nat × Int) :=
  let p := s.order - n + 1
  let t := s.scale p
  let floor := t.value / t.unit
  let rest := t.value % t.unit
  let near := if 2 * rest < t.unit then floor else floor + 1
  let far := if 2 * rest < t.unit then floor + 1 else floor
  if t.admits near then some (normalDigits n near p)
  else if t.admits far then some (normalDigits n far p)
  else none

/-- Digits and exponent of the shortest decimal in the interval. -/
def Span.shortest (s : Span) : Nat × Int :=
  ((List.range 17).findSome? fun n => s.atDigits (n + 1)).getD (s.value / s.unit, 0)

structure Fields where
  negative : Bool
  biased : Nat
  fraction : Nat
  deriving DecidableEq, Repr

def Fields.ofFloat (x : Float) : Fields :=
  let bits := x.toBits.toNat
  { negative := Nat.pow 2 63 ≤ bits
    biased := bits / Nat.pow 2 52 % Nat.pow 2 11
    fraction := bits % Nat.pow 2 52 }

end NestedStyles.Decimal
