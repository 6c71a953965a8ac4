import NestedStyles.Json.Basic
import NestedStyles.Decimal.Scaled
import NestedStyles.Decimal.Text
/-!
# JSON tokens

The lexical grammar of RFC 8259, read strictly: four blanks, three words, strings whose control
characters are escaped, and numbers without leading zeros or bare points.

The grammar lets through two kinds of token that have no value: a number too large for a double, and
a string with half of a surrogate pair. They are tokens all the same, since text that is only
skipped may hold them.

* `readPieces?` reads the rest of a string after its opening quote, `joinPieces?` pairs its
  surrogates; `readNumber?` reads a number;
* `tokens?` cuts a text into its tokens. Where one token may follow another is the concern of
  `Json/Reader`.
-/
namespace NestedStyles.Json

/-- The tokens of JSON; a number and a string with their value, if they have one. -/
inductive Token where
  | openBrace
  | closeBrace
  | openBracket
  | closeBracket
  | colon
  | comma
  | null
  | bool (value : Bool)
  | number (value : Option Number)
  | string (value : Option String)
  deriving Repr

/-- The four characters that may stand between tokens. -/
def isSpace (c : Char) : Bool := c = ' ' || c = '\t' || c = '\n' || c = '\r'

def hexValue? (c : Char) : Option Nat :=
  if '0' ≤ c ∧ c ≤ '9' then some (c.toNat - '0'.toNat)
  else if 'a' ≤ c ∧ c ≤ 'f' then some (c.toNat - 'a'.toNat + 10)
  else if 'A' ≤ c ∧ c ≤ 'F' then some (c.toNat - 'A'.toNat + 10)
  else none

def hexUnit? (a b c d : Char) : Option Nat := do
  return (((← hexValue? a) * 16 + (← hexValue? b)) * 16 + (← hexValue? c)) * 16 + (← hexValue? d)

/-- The character for an escape of one letter. -/
def shortEscape? : Char → Option Char
  | '"' => some '"'
  | '\\' => some '\\'
  | '/' => some '/'
  | 'b' => some '\x08'
  | 'f' => some '\x0c'
  | 'n' => some '\n'
  | 'r' => some '\r'
  | 't' => some '\t'
  | _ => none

/-- The character beyond the basic plane that a pair of surrogates stands for. -/
def surrogatePair (high low : Nat) : Char :=
  Char.ofNat (0x10000 + (high - 0xD800) * 0x400 + (low - 0xDC00))

/-- A piece of a string: a character, or half of a surrogate pair. -/
inductive Piece where
  | char (value : Char)
  | half (unit : Nat)
  deriving DecidableEq, Repr

/-- The piece that an escape of four digits stands for. -/
def pieceOfUnit (unit : Nat) : Piece :=
  if 0xD800 ≤ unit ∧ unit < 0xE000 then .half unit else .char (Char.ofNat unit)

/-- The pieces of a string up to its closing quote, and what follows the quote. -/
def readPieces? : List Char → Option (List Piece × List Char)
  | '"' :: rest => some ([], rest)
  | '\\' :: 'u' :: a :: b :: c :: d :: rest => do
    let unit ← hexUnit? a b c d
    let (pieces, rest) ← readPieces? rest
    return (pieceOfUnit unit :: pieces, rest)
  | '\\' :: e :: rest => do
    let c ← shortEscape? e
    let (pieces, rest) ← readPieces? rest
    return (.char c :: pieces, rest)
  | c :: rest =>
    if c.toNat < 0x20 ∨ c = '\\' then none
    else do
      let (pieces, rest) ← readPieces? rest
      return (.char c :: pieces, rest)
  | [] => none

/-- The characters of a string with these pieces, in which every high half must stand before a low
one. -/
def joinPieces? : List Piece → Option (List Char)
  | [] => some []
  | .char c :: pieces => (joinPieces? pieces).map (c :: ·)
  | .half high :: .half low :: pieces =>
    if high < 0xDC00 ∧ 0xDC00 ≤ low then
      (joinPieces? pieces).map (surrogatePair high low :: ·)
    else none
  | .half _ :: _ => none

/-- Digits after a point, if there is a point; it must be followed by one. -/
def readDecimals? : List Char → Option (List Char × List Char)
  | '.' :: rest =>
    let digits := rest.takeWhile Char.isDigit
    if digits = [] then none else some (digits, rest.dropWhile Char.isDigit)
  | rest => some ([], rest)

/-- An exponent, if there is one: its value, and what follows. -/
def readExponent? : List Char → Option (Option Int × List Char)
  | [] => some (none, [])
  | c :: rest =>
    if c = 'e' ∨ c = 'E' then
      let (negative, rest) := Decimal.takeSign rest
      let digits := rest.takeWhile Char.isDigit
      if digits = [] then none
      else
        let n : Int := Decimal.natOfDigits digits
        some (some (if negative then -n else n), rest.dropWhile Char.isDigit)
    else some (none, c :: rest)

/-- The number with the given parts. Without decimals and exponent it is whole if it fits; negative
zero never is. Otherwise it is a double, read from those of its digits that fit into 64 bits; one
that is too large has no value. -/
def number? (negative : Bool) (whole decimals : List Char) (exponent : Option Int) :
    Option Number :=
  let (units, wholeLeft) := Decimal.takeUnits 0 whole
  let fits := wholeLeft = [] ∧ if negative then 0 < units ∧ units ≤ Nat.pow 2 63 else True
  if decimals = [] ∧ exponent = none ∧ fits then some (.int (if negative then -units else units))
  else
    let (units, decimalsLeft) := Decimal.takeUnits units decimals
    let places : Int := wholeLeft.length - (decimals.length - decimalsLeft.length : Nat)
    (Decimal.scaled? negative units (places + exponent.getD 0)).map .real

/-- The value of a number at the front of the text, and what follows the number. -/
def readNumber? (cs : List Char) : Option (Option Number × List Char) := do
  let (negative, rest) :=
    match cs with
    | '-' :: rest => (true, rest)
    | rest => (false, rest)
  let whole := rest.takeWhile Char.isDigit
  if whole = [] ∨ (whole.head? = some '0' ∧ 1 < whole.length) then none
  else
    let (decimals, rest) ← readDecimals? (rest.dropWhile Char.isDigit)
    let (exponent, rest) ← readExponent? rest
    return (number? negative whole decimals exponent, rest)

/-- The token at the front of the text, which starts with no blank, and what follows it. -/
def readToken? : List Char → Option (Token × List Char)
  | '\x7b' :: rest => some (.openBrace, rest)
  | '\x7d' :: rest => some (.closeBrace, rest)
  | '[' :: rest => some (.openBracket, rest)
  | ']' :: rest => some (.closeBracket, rest)
  | ':' :: rest => some (.colon, rest)
  | ',' :: rest => some (.comma, rest)
  | 'n' :: 'u' :: 'l' :: 'l' :: rest => some (.null, rest)
  | 't' :: 'r' :: 'u' :: 'e' :: rest => some (.bool true, rest)
  | 'f' :: 'a' :: 'l' :: 's' :: 'e' :: rest => some (.bool false, rest)
  | '"' :: rest => (readPieces? rest).map fun (pieces, rest) =>
    (.string ((joinPieces? pieces).map String.ofList), rest)
  | cs => (readNumber? cs).map fun (n, rest) => (.number n, rest)

/-- The tokens of a text, of which at most `fuel` are read. -/
def tokensUpTo? : Nat → List Char → Option (List Token)
  | 0, _ => none
  | fuel + 1, cs =>
    match cs.dropWhile isSpace with
    | [] => some []
    | rest => do
      let (t, rest) ← readToken? rest
      return t :: (← tokensUpTo? fuel rest)

/-- The tokens of a text. Every token takes a character, so their number is bounded by that of the
characters. -/
def tokens? (cs : List Char) : Option (List Token) := tokensUpTo? (cs.length + 1) cs

end NestedStyles.Json
