import NestedStyles.Css.Selector
/-!
# Rules of CSS

A reader for the part of CSS that generated blocks consist of: style rules with declarations,
`@media` around them, and any other at-rule, which is recognized but not looked into.

* `Rule` is what is read;
* `declarations?` reads the contents of a style rule, `Prelude.of?` what stands before them,
  `rules?` a text. A style rule without a block, a malformed selector or declaration, and text that
  has no components make it fail.
-/
namespace NestedStyles.Css

structure Declared where
  property : String
  value : String
  deriving DecidableEq, Repr

inductive Rule where
  | style (selectors : List String) (declarations : List Declared)
  | media (query : String) (rules : List Rule)
  | unknown (name : String)
  /-- A rule that a later one has overridden. -/
  | blank
  deriving Repr

/-! ## Declarations -/

/-- The declaration that components are: a name, a colon and a value. -/
def declaration? (cs : List Component) : Option Declared :=
  match skipBlank cs with
  | .leaf ⟨.ident _, name⟩ :: rest =>
    match skipBlank rest with
    | .leaf ⟨.colon, _⟩ :: value =>
      if (trimBlank value).isEmpty || !areValues value then none
      else some ⟨.ofList name, trimmedText value⟩
    | _ => none
  | _ => none

/-- The declarations in a block, separated by semicolons. -/
def declarations? (cs : List Component) : Option (List Declared) :=
  ((partsAt .semicolon cs).filter fun part => !part.all Component.isBlank).mapM declaration?

/-! ## Rules -/

/-- What stands before the block of a rule. -/
inductive Prelude where
  | style (selectors : List String)
  | media (query : String)
  | unknown (name : String)
  deriving Repr

/-- What the components before a block mean. -/
def Prelude.of? : List Component → Option Prelude
  | .leaf ⟨.atKeyword name, _⟩ :: rest =>
    if name.toLower = "media" then some (.media (trimmedText rest))
    else if areValues rest then some (.unknown name)
    else none
  | cs => (selectors? cs).map .style

def isAtRule (cs : List Component) : Bool :=
  match cs with
  | .leaf ⟨.atKeyword _, _⟩ :: _ => true
  | _ => false

/-- The rule without a block that components are. Only an unknown at-rule needs none. -/
def statement? (cs : List Component) : Option Rule :=
  match Prelude.of? cs with
  | some (.unknown name) => some (.unknown name)
  | _ => none

/-- Whether a token between rules means nothing: blanks, marks of pages at the top, and semicolons
inside a rule. -/
def TokenKind.isFiller (inner : Bool) : TokenKind → Bool
  | .space | .comment => true
  | .pageMark => !inner
  | .semicolon => inner
  | _ => false

/-- The rules in components, at the top or inside a rule; `begun` are the components of the rule
that has begun, the latest first. -/
def rulesFrom? (inner : Bool) (begun : List Component) : List Component → Option (List Rule)
  | [] => if begun.isEmpty then some [] else (statement? begun.reverse).map ([·])
  | .block opener items closer :: rest =>
    if opener.kind = .opening .curly then do
      let rule ←
        match ← Prelude.of? begun.reverse with
        | .style selectors => (declarations? items).map (.style selectors)
        | .media query => (rulesFrom? true [] items).map (.media query)
        | .unknown name => if areValues items then some (.unknown name) else none
      return rule :: (← rulesFrom? inner [] rest)
    else rulesFrom? inner (.block opener items closer :: begun) rest
  | .leaf t :: rest =>
    if begun.isEmpty && t.kind.isFiller inner then rulesFrom? inner [] rest
    else if t.kind = .semicolon && isAtRule begun.reverse then do
      return (← statement? begun.reverse) :: (← rulesFrom? inner [] rest)
    else rulesFrom? inner (.leaf t :: begun) rest
termination_by cs => sizeOf cs
decreasing_by
  all_goals
    simp only [List.cons.sizeOf_spec, Component.block.sizeOf_spec, Component.leaf.sizeOf_spec]
    omega

def rules? (css : String) : Option (List Rule) := (components? css).bind (rulesFrom? false [])

end NestedStyles.Css
