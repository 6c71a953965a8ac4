import NestedStyles.Css.Token
/-!
# Component values

Tokens with their brackets paired. What a pair of brackets encloses is a list of components again; a
function is a pair of brackets whose opening token holds its name. Pairs that are open at the end of
the text count as closed there, but a closing bracket without its partner spoils the text.

* `components?` reads a text; `Component.text` writes it back;
* `areValues` tells whether components can be the contents of a rule or the value of a property that
  nothing is known of.
-/
namespace NestedStyles.Css

/-- A token, or a pair of brackets and what stands between. -/
inductive Component where
  | leaf (token : Token)
  | block (opener : Token) (items : List Component) (closer : List Char)

mutual

def Component.text : Component → List Char
  | .leaf t => t.text
  | .block opener items closer => opener.text ++ sourceOf items ++ closer

def sourceOf : List Component → List Char
  | [] => []
  | c :: cs => c.text ++ sourceOf cs

end

/-! ## Pairing -/

def TokenKind.opens? : TokenKind → Option Bracket
  | .opening b => some b
  | .function _ => some .round
  | _ => none

def TokenKind.closes? : TokenKind → Option Bracket
  | .closing b => some b
  | _ => none

/-- A pair of brackets that is still open. -/
structure OpenBlock where
  opener : Token
  /-- What stands before the opening bracket, up to the next outer one, the latest first. -/
  before : List Component

/-- Closes the innermost pair: `items` are its contents, the latest first. -/
def OpenBlock.close (b : OpenBlock) (items : List Component) (closer : List Char) :
    List Component :=
  .block b.opener items.reverse closer :: b.before

/-- Pairs the brackets of the tokens that are left, with the open pairs, the innermost first, and
the components behind the last opening bracket, the latest first. -/
def pair? (opened : List OpenBlock) (items : List Component) :
    List Token → Option (List Component)
  | [] => some (opened.foldl (fun items b => b.close items []) items).reverse
  | t :: ts =>
    if t.kind.opens?.isSome then pair? (⟨t, items⟩ :: opened) [] ts
    else if t.kind.closes?.isSome then
      match opened with
      | b :: outer =>
        if b.opener.kind.opens? = t.kind.closes? then pair? outer (b.close items t.text) ts
        else none
      | [] => none
    else pair? opened (.leaf t :: items) ts

def components? (css : String) : Option (List Component) :=
  (tokens? css.toList).bind (pair? [] [])

/-! ## Lists of components -/

def Component.isLeaf (kind : TokenKind) : Component → Bool
  | .leaf t => t.kind = kind
  | .block .. => false

def Component.isBlank (c : Component) : Bool := c.isLeaf .space || c.isLeaf .comment

def skipBlank (cs : List Component) : List Component := cs.dropWhile Component.isBlank

/-- The components without the blank ones at the ends. -/
def trimBlank (cs : List Component) : List Component := (skipBlank (skipBlank cs).reverse).reverse

/-- The text of components without blanks at the ends. -/
def trimmedText (cs : List Component) : String := .ofList (sourceOf (trimBlank cs))

/-- The parts between tokens of one kind; there is one more of them than of those tokens. -/
def partsAt (kind : TokenKind) : List Component → List (List Component)
  | [] => [[]]
  | c :: cs =>
    if c.isLeaf kind then [] :: partsAt kind cs
    else
      match partsAt kind cs with
      | [] => [[c]]
      | part :: parts => (c :: part) :: parts

/-! ## Values -/

/-- What the arguments of a function must be. -/
inductive Demand where
  | unmet
  | met
  /-- They must be values like any others. -/
  | values
  deriving DecidableEq, Repr

/-- Names that mean the same in every property, so that nothing else is called by them. -/
def wideNames : List String := ["initial", "inherit", "unset", "default", "revert", "revert-layer"]

/-- What is left to demand behind the name of a variable: nothing, or a comma and values. -/
def demandBehind (cs : List Component) : Demand :=
  match skipBlank cs with
  | [] => .met
  | c :: _ => if c.isLeaf .comma then .values else .unmet

/-- What is demanded of the arguments of a function. A quoted address stands alone, `var` takes the
name of a variable and `env` a name and whole numbers, both with values in reserve. -/
def demandOf (function : String) (arguments : List Component) : Demand :=
  match function, skipBlank arguments with
  | "url", .leaf t :: rest =>
    if t.kind = .string && rest.all Component.isBlank then .met else .unmet
  | "url", _ => .unmet
  | "var", .leaf ⟨.ident name, _⟩ :: rest =>
    if name.startsWith "--" then demandBehind rest else .unmet
  | "var", _ => .unmet
  | "env", .leaf ⟨.ident name, _⟩ :: rest =>
    if wideNames.contains name.toLower then .unmet
    else demandBehind (rest.dropWhile fun c => c.isBlank || c.isLeaf (.number true))
  | "env", _ => .unmet
  | _, _ => .values

/-- How deeply values may nest. -/
def maxDepth : Nat := 500

mutual

/-- Whether a component can be a value, at a depth. -/
def Component.isValue (depth : Nat) : Component → Bool
  | .leaf _ => true
  | .block opener items _ =>
    match opener.kind with
    | .function name =>
      match demandOf name items with
      | .unmet => false
      | .met => true
      | .values => areValuesAt (depth + 1) items
    | _ => areValuesAt (depth + 1) items

/-- Whether components can be values, at a depth. -/
def areValuesAt (depth : Nat) : List Component → Bool
  | [] => depth ≤ maxDepth
  | c :: cs => c.isValue depth && areValuesAt depth cs

end

def areValues (cs : List Component) : Bool := areValuesAt 0 cs

end NestedStyles.Css
