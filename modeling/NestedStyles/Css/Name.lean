/-!
# Names in CSS

A name is a run of letters, digits, hyphens, underscores and characters beyond ASCII. Any other
character can stand in it behind a backslash, as itself or as the hexadecimal digits of its code.

* `nameLength` says how many characters the name at the front of a text takes, `decodeName` which
  name they spell;
* `startsName` tells whether there is a name at the front at all.
-/
namespace NestedStyles.Css

/-! ## White space -/

/-- The characters that end a line. -/
def isNewline (c : Char) : Bool := c = '\n' || c = '\r' || c = '\x0c'

/-- The white space of CSS, a smaller set than the blanks of style keys. -/
def isSpace (c : Char) : Bool := c = ' ' || c = '\t' || isNewline c

def startsNewline (cs : List Char) : Bool := cs.head?.any isNewline

/-- The length of the white space at the front. -/
def spaceLength (cs : List Char) : Nat := (cs.takeWhile isSpace).length

/-- The length of one white space at the front, if there is one; a carriage return and a line feed
together are one. -/
def oneSpaceLength : List Char → Nat
  | '\r' :: '\n' :: _ => 2
  | c :: _ => if isSpace c then 1 else 0
  | [] => 0

/-! ## Escapes -/

def hexDigit? (c : Char) : Option Nat :=
  if c.isDigit then some (c.toNat - '0'.toNat)
  else if 'a' ≤ c ∧ c ≤ 'f' then some (c.toNat - 'a'.toNat + 10)
  else if 'A' ≤ c ∧ c ≤ 'F' then some (c.toNat - 'A'.toNat + 10)
  else none

/-- The hexadecimal digits at the front, six at most. -/
def escapeDigits (cs : List Char) : List Nat :=
  (((cs.take 6).map hexDigit?).takeWhile Option.isSome).filterMap id

/-- The length of what a backslash escapes: digits and one white space after them, or else a single
character. At the end of the text it is nothing. -/
def escapeLength (cs : List Char) : Nat :=
  match (escapeDigits cs).length with
  | 0 => (cs.take 1).length
  | n => n + oneSpaceLength (cs.drop n)

/-- Stands for a character that cannot be. -/
def replacementChar : Char := '\ufffd'

/-- The character with a code, if there is one other than the null character. -/
def charOfCode (code : Nat) : Char :=
  if code ≠ 0 ∧ code.isValidChar then Char.ofNat code else replacementChar

def escapedChar (cs : List Char) : Char :=
  match escapeDigits cs with
  | [] => charOfCode ((cs.head?.map Char.toNat).getD 0)
  | digits => charOfCode (digits.foldl (fun code d => code * 16 + d) 0)

/-! ## Names -/

/-- Whether a name can start with `c`. -/
def isNameStart (c : Char) : Bool :=
  c.isAlpha || c = '_' || c = '\x00' || 0x80 ≤ c.toNat

/-- Whether `c` can stand in a name. -/
def isNameChar (c : Char) : Bool := isNameStart c || c.isDigit || c = '-'

/-- Whether there is a name at the front. A digit starts none, nor does a hyphen alone or one before
a digit. -/
def startsName : List Char → Bool
  | '\\' :: cs => !startsNewline cs
  | '-' :: c :: _ => isNameStart c || c = '-' || c = '\\'
  | c :: _ => isNameStart c
  | [] => false

/-- The length of the characters and escapes at the front that can stand in a name. -/
def nameLength : List Char → Nat
  | [] => 0
  | '\\' :: cs =>
    if startsNewline cs then 0 else 1 + escapeLength cs + nameLength (cs.drop (escapeLength cs))
  | c :: cs => if isNameChar c then 1 + nameLength cs else 0
termination_by cs => cs.length
decreasing_by all_goals (simp only [List.length_cons, List.length_drop]; omega)

/-- The name that characters and escapes spell. -/
def decodeName : List Char → List Char
  | [] => []
  | '\\' :: cs => escapedChar cs :: decodeName (cs.drop (escapeLength cs))
  | c :: cs => charOfCode c.toNat :: decodeName cs
termination_by cs => cs.length
decreasing_by all_goals (simp only [List.length_cons, List.length_drop]; omega)

end NestedStyles.Css
