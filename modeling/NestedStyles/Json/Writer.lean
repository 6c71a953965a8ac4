import NestedStyles.Text.Lines
/-!
# Writing JSON

Compact JSON puts nothing between tokens. The pretty form puts every member on a line of its own,
two spaces deeper than its object, and writes an empty object as two braces. Strings are written
with the short escapes where there is one, other control characters as `\u00xx`, and everything else
as it is.

* `quoted` writes a string;
* `Nested` is a tree of objects with string leaves, the one shape that is written in pretty form.
-/
namespace NestedStyles.Json

def hexDigit (n : Nat) : Char := Nat.digitChar (n % 16)

/-- The characters that stand for `c` in a string. -/
def escape (c : Char) : List Char :=
  match c with
  | '"' => ['\\', '"']
  | '\\' => ['\\', '\\']
  | '\x08' => ['\\', 'b']
  | '\x0c' => ['\\', 'f']
  | '\n' => ['\\', 'n']
  | '\r' => ['\\', 'r']
  | '\t' => ['\\', 't']
  | c =>
    if c.toNat < 0x20 then ['\\', 'u', '0', '0', hexDigit (c.toNat / 16), hexDigit c.toNat]
    else [c]

def quotedChars (cs : List Char) : List Char := '"' :: cs.flatMap escape ++ ['"']

def quoted (s : String) : String := .ofList (quotedChars s.toList)

/-- Objects inside objects, with strings at the leaves. -/
inductive Nested where
  | leaf (text : String)
  | object (members : List (String × Nested))

namespace Nested

open Text (indent)

mutual

/-- The pretty form of a tree that starts on a line at `level`. -/
def pretty (level : Nat) : Nested → String
  | leaf text => quoted text
  | object [] => "\x7b\x7d"
  | object ms =>
    "\x7b\n" ++ ",\n".intercalate (prettyMembers (level + 1) ms) ++ "\n" ++ indent level ++ "\x7d"

/-- The lines of the members of an object, each without the comma after it. -/
def prettyMembers (level : Nat) : List (String × Nested) → List String
  | [] => []
  | (k, v) :: ms => (indent level ++ quoted k ++ ": " ++ pretty level v) :: prettyMembers level ms

end
end Nested
end NestedStyles.Json
