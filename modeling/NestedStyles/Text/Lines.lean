/-!
# Lines of a text

A line ends at a line feed, which is not part of it, and neither is one carriage return just before
that line feed. Text after the last line feed is a line of its own, carriage returns included; so
the empty text has no lines, and a text that ends in a line feed has no empty last line.

* `linesOf` cuts the characters of a text, `lines` a text;
* `unlines` puts a line feed after each line, `joinLines` one between each two;
* `indent` is what stands before an indented line.
-/
namespace NestedStyles.Text

/-- Cuts a sequence of characters into its lines. -/
def linesOf : List Char → List (List Char)
  | [] => []
  | '\n' :: rest => [] :: linesOf rest
  | '\r' :: '\n' :: rest => [] :: linesOf rest
  | c :: rest =>
    match linesOf rest with
    | [] => [[c]]
    | line :: more => (c :: line) :: more

def lines (s : String) : List String := (linesOf s.toList).map String.ofList

/-- Each line followed by a line feed. -/
def unlines (ls : List String) : String := String.join (ls.map (· ++ "\n"))

def joinLines (ls : List String) : String := "\n".intercalate ls

/-- Two spaces for each level. -/
def indent (level : Nat) : String := .ofList (List.replicate (2 * level) ' ')

end NestedStyles.Text
