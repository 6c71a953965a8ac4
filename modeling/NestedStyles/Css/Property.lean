/-!
# Property names

Sources write property names in camel case, CSS writes them in lower case with hyphens: every
upper-case letter is a hyphen and the letter's lower case. So a leading capital gives the hyphen of
a vendor prefix, and `ms`, which is written without one, gets it added.

* `hyphenate` gives the CSS name;
* `isUnitless` tells the properties whose numbers stand without a unit, by their name in the source.
-/
namespace NestedStyles.Css

/-- The characters of the CSS name that stand for one character. -/
def hyphenateChar (c : Char) : List Char := if c.isUpper then ['-', c.toLower] else [c]

/-- The CSS name of a property without the hyphen in front of `ms-`. -/
def hyphenateChars (cs : List Char) : List Char := cs.flatMap hyphenateChar

def hyphenate (property : String) : String :=
  match hyphenateChars property.toList with
  | 'm' :: 's' :: '-' :: rest => .ofList ('-' :: 'm' :: 's' :: '-' :: rest)
  | cs => .ofList cs

def unitlessProperties : List String :=
  ["animationIterationCount", "borderImageOutset", "borderImageSlice", "borderImageWidth",
   "boxFlex", "boxFlexGroup", "boxOrdinalGroup", "columnCount", "columns", "flex", "flexGrow",
   "flexPositive", "flexShrink", "flexNegative", "flexOrder", "gridArea", "gridRow", "gridRowEnd",
   "gridRowSpan", "gridRowStart", "gridColumn", "gridColumnEnd", "gridColumnSpan",
   "gridColumnStart", "fontWeight", "lineClamp", "lineHeight", "opacity", "order", "orphans",
   "tabSize", "widows", "zIndex", "zoom", "fillOpacity", "floodOpacity", "stopOpacity",
   "strokeDasharray", "strokeDashoffset", "strokeMiterlimit", "strokeOpacity", "strokeWidth"]

def isUnitless (property : String) : Bool := unitlessProperties.contains property

end NestedStyles.Css
