import NestedStyles.Decimal.Shortest
/-!
# Decimal notation of doubles

`write` gives a double in positional notation: its shortest digits, filled up with zeros to the
decimal point on either side, never an exponent, and no point if there are no decimals. A set sign
bit is written, so negative zero is `-0`; the values that are no numbers are `inf`, `-inf` and
`NaN`.

`read?` accepts more than `write` produces: a sign, digits with a point anywhere among them, an
exponent, and the three words in any case, `infinity` being a second name of `inf`.
-/
namespace NestedStyles.Decimal

/-- The digits of `units * 10 ^ exponent` with the decimal point in place. -/
def positional (units : Nat) (exponent : Int) : String :=
  let digits := Nat.toDigits 10 units
  if 0 ≤ exponent then .ofList (digits ++ List.replicate exponent.toNat '0')
  else
    let places := (-exponent).toNat
    let filled := List.replicate (places + 1 - digits.length) '0' ++ digits
    let whole := filled.length - places
    .ofList (filled.take whole ++ '.' :: filled.drop whole)

def write (x : Float) : String :=
  let f := Fields.ofFloat x
  let sign := if f.negative then "-" else ""
  if f.biased = 2047 then if f.fraction = 0 then sign ++ "inf" else "NaN"
  else if f.biased = 0 ∧ f.fraction = 0 then sign ++ "0"
  else
    let (units, exponent) := (Span.ofFields f.biased f.fraction).shortest
    sign ++ positional units exponent

/-- The number that a row of decimal digits spells. -/
def natOfDigits (cs : List Char) : Nat :=
  cs.foldl (fun n c => n * 10 + (c.toNat - '0'.toNat)) 0

/-- A sign in front of `cs`, if there is one, and what follows it. -/
def takeSign : List Char → Bool × List Char
  | '-' :: rest => (true, rest)
  | '+' :: rest => (false, rest)
  | rest => (false, rest)

/-- An exponent part that is all of `cs`; no characters mean the exponent zero. -/
def readExponent? : List Char → Option Int
  | [] => some 0
  | c :: rest =>
    if c = 'e' ∨ c = 'E' then
      let (negative, digits) := takeSign rest
      if digits ≠ [] ∧ digits.all Char.isDigit then
        let n : Int := natOfDigits digits
        some (if negative then -n else n)
      else none
    else none

def readMagnitude? (negative : Bool) (cs : List Char) : Option Float :=
  let whole := cs.takeWhile Char.isDigit
  let rest := cs.dropWhile Char.isDigit
  let (decimals, rest) :=
    match rest with
    | '.' :: more => (more.takeWhile Char.isDigit, more.dropWhile Char.isDigit)
    | _ => ([], rest)
  if whole = [] ∧ decimals = [] then none
  else
    (readExponent? rest).map fun e =>
      nearest negative (natOfDigits (whole ++ decimals)) (e - decimals.length)

/-- The double that a text in decimal notation stands for. -/
def read? (s : String) : Option Float :=
  let (negative, rest) := takeSign s.toList
  let word := String.ofList (rest.map Char.toLower)
  if word = "inf" ∨ word = "infinity" then
    some (Float.ofBits (UInt64.ofNat ((if negative then Nat.pow 2 63 else 0) + infinityBits)))
  else if word = "nan" then some (Float.ofBits 0x7FF8000000000000)
  else readMagnitude? negative rest

end NestedStyles.Decimal
