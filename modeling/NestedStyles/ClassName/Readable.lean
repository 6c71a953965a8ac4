/-!
# Readable class names

A readable class name joins the prefixes and the style name with `-`, so that generated CSS can be
traced back to its source. Empty parts are left out, and every character that cannot stand in a
class name unescaped becomes `_`.
-/
namespace NestedStyles.ClassName

/-- Whether `c` stands in a class name as it is. -/
def isPlain (c : Char) : Bool := c.isAlphanum || c = '_' || c = '-'

def plainChar (c : Char) : Char := if isPlain c then c else '_'

/-- The class name for `name` under `prefixes`. -/
def readable (prefixes : List String) (name : String) : String :=
  let parts := (prefixes ++ [name]).filter (· ≠ "")
  "-".intercalate (parts.map fun part => .ofList (part.toList.map plainChar))

end NestedStyles.ClassName
