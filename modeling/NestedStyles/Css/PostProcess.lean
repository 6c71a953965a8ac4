import NestedStyles.Css.Split
import NestedStyles.Fault
import NestedStyles.Options.Basic
/-!
# Prefixing and minifying

Generated CSS can be handed to a CSS engine, which adds vendor prefixes or minifies. The engine sees
one top-level block at a time, so blocks of different styles are never merged. A block with an
at-rule that the engine does not know, such as a media query by a short name that nothing resolves,
stays as it is written.

* `Engine` is what is asked of an engine: a function of the block, the targets and the mode;
* `addVendorPrefixes` puts the results on lines of their own, `minify` one right after the other.
-/
namespace NestedStyles.Css

/-- What an engine makes of a block that parses. -/
inductive Processed where
  /-- The block holds an at-rule that is not known. -/
  | unknownAtRule
  /-- The new text of the block. -/
  | css (text : String)
  deriving DecidableEq, Repr

/-- An engine processes a block for targets, minified or not; `none` if the block does not parse. -/
structure Engine where
  process : (targets : Option BrowserTargets) → (minify : Bool) → (block : String) →
    Option Processed

/-- What becomes of one block. -/
def transform (e : Engine) (targets : Option BrowserTargets) (minify : Bool) (block : String) :
    Except Fault String :=
  match e.process targets minify block with
  | none => .error .postProcess
  | some .unknownAtRule => .ok (Text.trimEnd block)
  | some (.css text) => .ok (Text.trimEnd text)

def transformBlocks (e : Engine) (targets : Option BrowserTargets) (minify : Bool) (css : String) :
    Except Fault (List String) :=
  (topLevelBlocks css).mapM (transform e targets minify)

/-- The text with the prefixed declarations that `targets` need. -/
def addVendorPrefixes (e : Engine) (targets : Option BrowserTargets) (css : String) :
    Except Fault String := do
  match ← transformBlocks e targets false css with
  | [] => return ""
  | blocks => return Text.joinLines blocks ++ "\n"

/-- The text in its shortest form. -/
def minify (e : Engine) (css : String) : Except Fault String := do
  return String.join (← transformBlocks e none true css)

end NestedStyles.Css
