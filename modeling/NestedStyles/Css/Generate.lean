import NestedStyles.ClassName.Naming
import NestedStyles.Css.Block
/-!
# From sheets to CSS

A sheet is printed style by style, each one depth first: its own rules, its fragments, its media
queries, and then the same for every parent, whose selectors stand before the class. Rule sets
without rules and media queries without any leave no trace.

* `Specification.blocks` lists the blocks of a style, with a `Target` in place of a selector;
* `Target.selector` names the class of a target; a global style is literal and takes neither class
  nor parent;
* `generate` lists, names and prints the blocks of a sheet.
-/
namespace NestedStyles

open Cache (StoreM)

namespace Css

/-- What a rule block of a style applies to, before its class has a name. -/
structure Target where
  style : String
  parent : Option String
  fragment : String
  deriving DecidableEq, Repr

/-- The rule blocks for rules of a style's own and for fragments, without the empty ones. -/
def ruleBlocks (style : String) (parent : Option String) (rules : Rules)
    (selectors : OrderedMap String Rules) : List (RuleBlock Target) :=
  ((("", rules) :: selectors).filter fun e => !e.2.isEmpty).map fun e =>
    ⟨⟨style, parent, e.1⟩, e.2⟩

/-- The block of a media query, unless it has no rules. -/
def mediaBlock? (style : String) (parent : Option String) (query : String) (b : MediaBlock) :
    Option (Block Target) :=
  match ruleBlocks style parent b.rules b.selectors with
  | [] => none
  | blocks => some (.media query blocks)

/-- A parent selector inside the selector of an outer one. -/
def nestParent (outer : Option String) (selector : String) : String :=
  match outer with
  | some outer => outer ++ " " ++ selector
  | none => selector

end Css

open Css

mutual

/-- The blocks of a style, under a parent selector or none, in the order in which they are
printed. -/
def Specification.blocks (style : String) (parent : Option String) :
    Specification → List (Block Target)
  | ⟨rules, selectors, media, parents⟩ =>
    (ruleBlocks style parent rules selectors).map .rules ++
      media.filterMap (fun e => mediaBlock? style parent e.1 e.2) ++
      parentBlocks style parent parents

/-- The blocks of what stands under further parents. -/
def parentBlocks (style : String) (parent : Option String) :
    List (String × Specification) → List (Block Target)
  | [] => []
  | (selector, inner) :: rest =>
    inner.blocks style (some (nestParent parent selector)) ++ parentBlocks style parent rest

end

def Sheet.blocks (sheet : Sheet) : List (Block Target) :=
  sheet.flatMap fun e => e.2.blocks e.1 none

namespace Css

/-- The selector for a target, whose class is named if it has one. -/
def Target.selector (o : Options) (t : Target) : StoreM Selector :=
  if isGlobal t.style then
    return .literal (.ofList (t.style.toList.drop 1) ++ t.fragment)
  else
    return .ofClass t.parent
      (← ClassName.classFor o.classPrefixes o.compressClassNames t.style) t.fragment

/-- The blocks of a sheet with the selectors and media queries that are printed. -/
def namedBlocks (o : Options) (sheet : Sheet) : StoreM (List (Block Selector)) :=
  sheet.blocks.mapM (Block.traverse o.resolveMedia (Target.selector o))

/-- The text of blocks: their lines, with no line feed after the last one. -/
def textOf (blocks : List (Block Selector)) : String :=
  Text.joinLines (blocks.flatMap Block.lines)

def generate (o : Options) (sheet : Sheet) : StoreM String := do
  return textOf (← namedBlocks o sheet)

end Css
end NestedStyles
