import NestedStyles.Text.Blank
/-!
# Keys of style objects

The first character of a key says what the key is: `@` a media query, `:` or `[` a selector
fragment, `$` a global selector, anything else a style name. A style name or a global selector ends
where its fragment begins, at the first `:` or `[`.

A fragment is a run of `:pseudo`, `:pseudo(arguments)`, `::element` and `[attribute]` parts. It is
judged by its brackets alone: they match, blanks stand only inside them, and what follows an
attribute is the start of another part. A global selector with a blank in it is taken literally,
combinators and all.

* `Fragment.isValid` judges a fragment, `splitFragment` finds it in a key;
* `Key.classify?` tells the kinds of key apart, and is `none` for a key of no kind.
-/
namespace NestedStyles

/-! ## Fragments -/

/-- Whether a fragment part starts with `c`. -/
def startsFragment (c : Char) : Bool := c = ':' || c = '['

/-- Judges the rest of a fragment, given the closing brackets that are due, innermost first, and
whether the last character closed an attribute at the outermost level. -/
def Fragment.scan : List Char → Bool → List Char → Bool
  | due, _, [] => due.isEmpty
  | due, afterAttribute, c :: cs =>
    if afterAttribute && due.isEmpty && !startsFragment c then false
    else if c = '[' then scan (']' :: due) false cs
    else if c = '(' then scan (')' :: due) false cs
    else if c = ']' || c = ')' then
      match due with
      | closer :: due => if closer = c then scan due (c = ']' && due.isEmpty) cs else false
      | [] => false
    else if Text.isBlank c && due.isEmpty then false
    else scan due false cs

/-- Whether the characters can stand as a fragment; none at all can. -/
def Fragment.isValid (cs : List Char) : Bool := Fragment.scan [] false cs

/-- What stands before the first part of a fragment, and the fragment. -/
def splitFragment (cs : List Char) : List Char × List Char :=
  cs.span fun c => !startsFragment c

/-! ## Kinds of key -/

/-- What a key of a style object stands for. -/
inductive Key where
  /-- A media query, by its text after the `@`. -/
  | mediaQuery (query : String)
  /-- A fragment with no style name before it. -/
  | fragment (text : String)
  /-- A style name and the fragment after it, which may be empty. -/
  | style (base fragment : String)
  /-- A global selector, whose base keeps the `$`, and the fragment after it. -/
  | global (base fragment : String)
  deriving DecidableEq, Repr

namespace Key

/-- Whether the key is a global selector with no selector text of its own. -/
def isStandaloneGlobal : Key → Bool
  | global base _ => base = "$"
  | _ => false

/-- Whether a key starts like a media query or a fragment, and so cannot name a property. -/
def looksLikeSelector (key : String) : Bool :=
  match key.toList with
  | c :: _ => c = '@' || startsFragment c
  | [] => false

/-- The key of a global selector with the text `text` after its `$`. -/
def classifyGlobal? (key : String) (text : List Char) : Option Key :=
  let own := Text.dropBlanks text
  if own.isEmpty || own.head?.any startsFragment then
    if Fragment.isValid own then some (global "$" (.ofList own)) else none
  else if text.any Text.isBlank then some (global key "")
  else
    let (base, rest) := splitFragment key.toList
    if Fragment.isValid rest then some (global (.ofList base) (.ofList rest)) else none

/-- The key of a style with the characters `cs`. -/
def classifyStyle? (cs : List Char) : Option Key :=
  let (base, rest) := splitFragment cs
  if base.isEmpty || base.any Text.isBlank then none
  else if Fragment.isValid rest then some (style (.ofList base) (.ofList rest))
  else none

/-- What `key` stands for, unless it is malformed. -/
def classify? (key : String) : Option Key :=
  match key.toList with
  | '@' :: query => if query.all Text.isBlank then none else some (mediaQuery (.ofList query))
  | '$' :: text => classifyGlobal? key text
  | cs =>
    if cs.head?.any startsFragment then
      if Fragment.isValid cs then some (fragment key) else none
    else classifyStyle? cs

end Key
end NestedStyles
