/-!
# Blank characters

Blank means the Unicode property `White_Space`: seventeen spaces and separators and the eight
control characters that act as one. Style keys, rule values and epoch files are all judged by this
one set; JSON has its own, smaller set (`Json/Token`).

* `isBlank` is the membership test, read off the ranges of `blankRanges`;
* `trimStart`, `trim` take blanks off the front, and off both ends;
* `isBlankText` says that nothing else is there.
-/
namespace NestedStyles.Text

/-- The code points with the property `White_Space`, as inclusive ranges in ascending order. -/
def blankRanges : List (Nat × Nat) :=
  [(0x9, 0xD), (0x20, 0x20), (0x85, 0x85), (0xA0, 0xA0), (0x1680, 0x1680), (0x2000, 0x200A),
   (0x2028, 0x2029), (0x202F, 0x202F), (0x205F, 0x205F), (0x3000, 0x3000)]

def isBlank (c : Char) : Bool :=
  blankRanges.any fun r => r.1 ≤ c.toNat && c.toNat ≤ r.2

/-- Whether `s` holds nothing but blanks; the empty text is blank. -/
def isBlankText (s : String) : Bool := s.toList.all isBlank

/-- Characters from the first one on that is not blank. -/
def dropBlanks (cs : List Char) : List Char := cs.dropWhile isBlank

/-- Characters up to the last one that is not blank. -/
def dropEndBlanks (cs : List Char) : List Char := (dropBlanks cs.reverse).reverse

def trimStart (s : String) : String := .ofList (dropBlanks s.toList)

def trimEnd (s : String) : String := .ofList (dropEndBlanks s.toList)

def trim (s : String) : String := .ofList (dropEndBlanks (dropBlanks s.toList))

end NestedStyles.Text
