import NestedStyles.OrderedMap
/-!
# Style sheets

A sheet gives every style name its specification: rules of its own, rules for fragments such as
`:hover`, rules for media queries, which may hold fragments in turn, and the same again scoped under
a parent selector. All maps keep their order, since order decides the cascade.

* `Specification` and `MediaBlock` are the tree;
* `Place` is a spot in a specification where rules can stand, and `Specification.updateAt` changes
  the rules of a place, which exists from then on;
* `Specification.rule`, `selector`, `mediaQuery` and `parent` build a specification entry by entry.
-/
namespace NestedStyles

/-- The value of a declaration. A number is printed with a unit where the property needs one. -/
inductive RuleValue where
  | text (value : String)
  | number (value : Float)
  deriving Repr, Inhabited

/-- Property names, as written in the source, and their values. -/
abbrev Rules := OrderedMap String RuleValue

/-- What one style has inside one media query. -/
structure MediaBlock where
  rules : Rules := []
  selectors : OrderedMap String Rules := []
  deriving Repr, Inhabited

/-- Whether a media block holds no rule, neither of its own nor for a fragment. -/
def MediaBlock.isEmpty (b : MediaBlock) : Bool :=
  b.rules.isEmpty && b.selectors.all fun e => e.2.isEmpty

/-- Everything that is said about one style. -/
structure Specification where
  rules : Rules := []
  /-- Rules by fragment. -/
  selectors : OrderedMap String Rules := []
  /-- Blocks by media query, without the `@`. -/
  media : OrderedMap String MediaBlock := []
  /-- The same content under a parent selector such as `body.dark`. -/
  parents : List (String × Specification) := []
  deriving Repr, Inhabited

/-- Style names and their specifications. -/
abbrev Sheet := OrderedMap String Specification

/-- Whether a style name is a global selector, printed literally, rather than a class. -/
def isGlobal (name : String) : Bool := name.toList.head? = some '$'

/-! ## Places -/

/-- A spot in a specification that holds rules. -/
inductive Place where
  | style
  | selector (fragment : String)
  | media (query : String)
  | mediaSelector (query fragment : String)
  deriving DecidableEq, Repr

/-- Changes the rules of a fragment, which exists from then on. -/
def updateSelector (selectors : OrderedMap String Rules) (fragment : String) (f : Rules → Rules) :
    OrderedMap String Rules :=
  selectors.update fragment fun rules => f (rules.getD [])

/-- Changes the block of a media query, which exists from then on. -/
def updateMedia (media : OrderedMap String MediaBlock) (query : String)
    (f : MediaBlock → MediaBlock) : OrderedMap String MediaBlock :=
  media.update query fun block => f (block.getD {})

namespace Specification

/-- Changes the rules of a place, which exists from then on. -/
def updateAt (s : Specification) (place : Place) (f : Rules → Rules) : Specification :=
  match place with
  | .style => { s with rules := f s.rules }
  | .selector fragment => { s with selectors := updateSelector s.selectors fragment f }
  | .media query =>
    { s with media := updateMedia s.media query fun b => { b with rules := f b.rules } }
  | .mediaSelector query fragment =>
    { s with
      media := updateMedia s.media query fun b =>
        { b with selectors := updateSelector b.selectors fragment f } }

/-! ## Building entry by entry -/

def rule (s : Specification) (property : String) (value : RuleValue) : Specification :=
  { s with rules := s.rules.insert property value }

/-- Adds rules for a fragment to those it has. -/
def selector (s : Specification) (fragment : String) (rules : Rules) : Specification :=
  { s with selectors := updateSelector s.selectors fragment (·.extend rules) }

def mediaQuery (s : Specification) (query : String) (block : MediaBlock) : Specification :=
  { s with media := s.media.insert query block }

/-- Sets what holds under a parent selector. -/
def parent (s : Specification) (selector : String) (inner : Specification) : Specification :=
  { s with parents := OrderedMap.insert s.parents selector inner }

end Specification

/-- Adds rules for a fragment to those that a media block has. -/
def MediaBlock.selector (b : MediaBlock) (fragment : String) (rules : Rules) : MediaBlock :=
  { b with selectors := updateSelector b.selectors fragment (·.extend rules) }

end NestedStyles
