import NestedStyles.Text.Blank
import NestedStyles.Text.Lines
/-!
# Cutting CSS into blocks

Printed CSS is cut by lines: a top-level block ends at a line that is a closing brace and nothing
else. Blank lines belong to no block.

* `blocksOfLines` cuts lines, `topLevelBlocks` a text; every line of a block ends in a line feed.
-/
namespace NestedStyles.Css

/-- The line that closes a top-level block. -/
def closingLine : String := "\x7d"

/-- Cuts lines after each closing line. What follows the last one is a block of its own. -/
def blocksOfLines : List String → List (List String)
  | [] => []
  | line :: rest =>
    if line = closingLine then [line] :: blocksOfLines rest
    else
      match blocksOfLines rest with
      | [] => [[line]]
      | block :: more => (line :: block) :: more

def topLevelBlocks (css : String) : List String :=
  (blocksOfLines ((Text.lines css).filter fun line => !Text.isBlankText line)).map Text.unlines

end NestedStyles.Css
