import NestedStyles.Css.Property
import NestedStyles.Decimal.Text
import NestedStyles.Style.Sheet
import NestedStyles.Text.Blank
/-!
# Declarations

A declaration is the CSS name of a property and its value. Texts stand as they are written and
numbers get the unit `px` unless their property has none. The property `content` is the exception:
its texts are quoted, unless they already are a literal: a string, a keyword or a function call.

* `quote` puts a text between double quotes and escapes what has to be;
* `isContentLiteral` recognizes what `content` takes as it is;
* `declaration` is the whole line.
-/
namespace NestedStyles.Css

/-- Every `c` replaced by a backslash and `c`. -/
def escapeChar (c : Char) (cs : List Char) : List Char :=
  cs.flatMap fun d => if d = c then ['\\', c] else [d]

/-- A text as a CSS string: backslashes are escaped first, so that the ones that escape quotes are
not escaped again. -/
def quote (s : String) : String :=
  .ofList ('"' :: escapeChar '"' (escapeChar '\\' s.toList) ++ ['"'])

def contentKeywords : List String :=
  ["none", "normal", "open-quote", "close-quote", "no-open-quote", "no-close-quote", "inherit",
   "initial", "unset", "revert"]

/-- Whether a text starts like a function call, a name of letters, digits and hyphens before a
parenthesis, and has a closing parenthesis somewhere. -/
def isFunctionCall (cs : List Char) : Bool :=
  let name := cs.takeWhile (· ≠ '(')
  cs.contains '(' && !name.isEmpty && name.all (fun c => c.isAlphanum || c = '-') &&
    cs.contains ')'

/-- Whether `content` takes the text as it is. -/
def isContentLiteral (s : String) : Bool :=
  let t := Text.trim s
  t.toList.head?.any (fun c => c = '"' || c = '\'') || contentKeywords.contains t ||
    isFunctionCall t.toList

def contentValue (s : String) : String := if isContentLiteral s then s else quote s

/-- The text of a value of `property`. -/
def value (property : String) : RuleValue → String
  | .number x => if isUnitless property then Decimal.write x else Decimal.write x ++ "px"
  | .text s => if property = "content" then contentValue s else s

def declaration (property : String) (v : RuleValue) : String :=
  hyphenate property ++ ": " ++ value property v ++ ";"

end NestedStyles.Css
