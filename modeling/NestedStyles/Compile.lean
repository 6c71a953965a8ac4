import NestedStyles.Css.Generate
import NestedStyles.Css.PostProcess
import NestedStyles.Style.Normalize
/-!
# Compiling a source

A source declares sheets by their identifiers. Compiling it normalizes every sheet, names the
classes of its styles, prints the CSS of all sheets, and hands that to the CSS engine if the options
ask for it.

* `nameTable` names the classes of a sheet; global styles have none;
* `printSheets` is the CSS of several sheets before the engine, `buildCss` after it;
* `compileSource` goes sheet by sheet, so a sheet that is refused leaves the names of earlier ones
  in the store.
-/
namespace NestedStyles

open Cache (StoreM)

/-- Style names and the names of their classes. -/
abbrev ClassNames := OrderedMap String String

/-- What becomes of a source. -/
structure CompiledSource where
  file : String
  /-- The class names of every sheet. -/
  classNames : OrderedMap String ClassNames
  /-- The CSS of all sheets; empty if there is none. -/
  css : String
  deriving Repr, Inhabited

/-- A result as a step that leaves the store alone. -/
def ofResult {α : Type} (result : Except Fault α) : StoreM α := ExceptT.mk (pure result)

/-- The class names of a sheet's styles under prefixes, in the order of the sheet. -/
def nameTable (prefixes : List String) (compress : Bool) (sheet : Sheet) : StoreM ClassNames := do
  let styles := (OrderedMap.keys sheet).filter fun name => !isGlobal name
  let entries ← styles.mapM fun style => do
    return (style, ← ClassName.classFor prefixes compress style)
  return OrderedMap.ofEntries entries

/-- The CSS of sheets, each non-empty one followed by a line feed. -/
def printSheets (o : Options) (file : String) (sheets : OrderedMap String Sheet) :
    StoreM String := do
  let texts ← sheets.mapM fun e => Css.generate (o.forSheet file e.1) e.2
  return Text.unlines (texts.filter (· ≠ ""))

/-- The CSS after the engine has added prefixes and minified, as the options ask. -/
def postProcess (e : Css.Engine) (o : Options) (css : String) : Except Fault String := do
  if css = "" then return ""
  let css ←
    match o.vendorPrefixes.browsers with
    | some targets => Css.addVendorPrefixes e (some targets) css
    | none => pure css
  if o.minify then Css.minify e css else return css

def buildCss (e : Css.Engine) (o : Options) (file : String) (sheets : OrderedMap String Sheet) :
    StoreM String := do
  ofResult (postProcess e o (← printSheets o file sheets))

/-- Normalizes a sheet and names its classes. -/
def readSheet (o : Options) (file sheet : String) (raw : Json.Value) :
    StoreM (Sheet × ClassNames) := do
  let styles ← ofResult (normalize raw)
  let names ← nameTable (o.forSheet file sheet).classPrefixes o.compressClassNames styles
  return (styles, names)

/-- Compiles the sheets of a source, which are the members of an object. -/
def compileSource (e : Css.Engine) (o : Options) (file : String) (sheets : Json.Value) :
    StoreM CompiledSource := do
  let members ← ofResult (expectObject file sheets)
  let read ← members.mapM fun (id, raw) => do return (id, ← readSheet o file id raw)
  let css ← buildCss e o file (OrderedMap.ofEntries (read.map fun r => (r.1, r.2.1)))
  return ⟨file, OrderedMap.ofEntries (read.map fun r => (r.1, r.2.2)), css⟩

end NestedStyles
