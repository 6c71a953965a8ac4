import NestedStyles.Css.Component
/-!
# Selectors

Which components are a selector: compounds of an element, classes, ids, attributes and states, with
combinators or white space between them.

* `SelectorPlace.step?` goes through a selector by one component;
* `isSelector` tells whether it gets to the end, `selectors?` reads a list of selectors.
-/
namespace NestedStyles.Css

/-- Where in a selector one is. -/
inductive SelectorPlace where
  /-- A compound must follow. -/
  | start
  | inCompound
  /-- In white space behind a compound. -/
  | gap
  | afterDot
  | afterColon
  | afterColons
  deriving DecidableEq, Repr

/-- Whether `cs` are the contents of the brackets of an attribute: its name, perhaps with a value
and a flag for case. -/
def isAttribute (cs : List Component) : Bool :=
  match cs.filter fun c => !c.isBlank with
  | [.leaf ⟨.ident _, _⟩] => true
  | .leaf ⟨.ident _, _⟩ :: .leaf comparison :: .leaf value :: flag =>
    (comparison.kind = .sign '=' || comparison.kind = .comparison) &&
    (match value.kind with
      | .ident _ | .string => true
      | _ => false) &&
    (match flag with
      | [] => true
      | [.leaf ⟨.ident name, _⟩] => name.toLower = "i" || name.toLower = "s"
      | _ => false)
  | _ => false

namespace SelectorPlace

/-- Whether a simple selector may follow that can stand anywhere in a compound. -/
def isOpen : SelectorPlace → Bool
  | start | inCompound | gap => true
  | _ => false

def isEnd : SelectorPlace → Bool
  | inCompound | gap => true
  | _ => false

/-- The place behind a token. -/
def stepToken? (p : SelectorPlace) : TokenKind → Option SelectorPlace
  | .comment => some p
  | .space =>
    match p with
    | start => some start
    | inCompound | gap => some gap
    | _ => none
  | .ident _ => if p = inCompound then none else some inCompound
  | .hash isId => if p.isOpen && isId then some inCompound else none
  | .colon =>
    if p.isOpen then some afterColon else if p = afterColon then some afterColons else none
  | .sign '.' => if p.isOpen then some afterDot else none
  | .sign '&' => if p.isOpen then some inCompound else none
  | .sign '*' => if p = start || p = gap then some inCompound else none
  | .sign c => if p.isEnd && (c = '>' || c = '+' || c = '~') then some start else none
  | _ => none

/-- The place behind a component. -/
def step? (p : SelectorPlace) : Component → Option SelectorPlace
  | .leaf t => p.stepToken? t.kind
  | .block opener items _ =>
    match opener.kind with
    | .opening .square => if p.isOpen && isAttribute items then some inCompound else none
    | .function _ =>
      if (p = afterColon || p = afterColons) && areValues items then some inCompound else none
    | _ => none

end SelectorPlace

def isSelector (cs : List Component) : Bool :=
  (cs.foldlM SelectorPlace.step? .start).any SelectorPlace.isEnd

/-- The selectors in a list, separated by commas. -/
def selectors? (cs : List Component) : Option (List String) :=
  let parts := partsAt .comma cs
  if parts.all isSelector then some (parts.map trimmedText) else none

end NestedStyles.Css
