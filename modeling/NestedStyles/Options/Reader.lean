import NestedStyles.Fault
import NestedStyles.Json.Reader
import NestedStyles.Options.Basic
/-!
# Reading options

Options are a JSON record: an object with any of the known fields, or an array with the fields from
the first one on. A field that is not there has its default; an unknown or repeated one is an error,
and so is a value of another type. The targets of `vendorPrefixes` are a record in the same way.

* `BrowserTargets.ofJson?`, `VendorPrefixes.ofJson?`, `Options.ofJson?` read the values,
  `Options.parse` a text.
-/
namespace NestedStyles

open Json (Value)

/-- A field that has the value `fallback` if it is not there. -/
def fieldOr {α : Type} (fallback : α) (read : Value → Option α) : Option Value → Option α
  | none => some fallback
  | some v => read v

/-- A value that may also be null. -/
def nullable {α : Type} (read : Value → Option α) : Value → Option (Option α)
  | .null => some none
  | v => (read v).map some

namespace BrowserTargets

def fieldNames : List String :=
  ["android", "chrome", "edge", "firefox", "ie", "iosSaf", "opera", "safari", "samsung"]

def version? (v : Value) : Option UInt32 := (v.nat? UInt32.size).map UInt32.ofNat

def ofJson? (v : Value) : Option BrowserTargets := do
  let fields ← v.fields? fieldNames
  let versions ← fields.mapM (fieldOr none (nullable version?))
  match versions with
  | [android, chrome, edge, firefox, ie, iosSaf, opera, safari, samsung] =>
    return { android, chrome, edge, firefox, ie, iosSaf, opera, safari, samsung }
  | _ => none

end BrowserTargets

/-- Vendor prefixes from a boolean or a record of targets. -/
def VendorPrefixes.ofJson? : Value → Option VendorPrefixes
  | .bool on => some (.enabled on)
  | v => (BrowserTargets.ofJson? v).map .targets

namespace Options

def fieldNames : List String :=
  ["identifier", "vendorPrefixes", "minify", "compressClassNames", "mediaMap", "cacheDir",
   "prefix", "prefixes"]

/-- A map from texts to texts, in which a repeated key keeps its place and takes its last value. -/
def textMap? (v : Value) : Option (OrderedMap String String) := do
  let entries ← (← v.members?).mapM fun (k, v) => do return (k, ← v.string?)
  return OrderedMap.ofEntries entries

def texts? (v : Value) : Option (List String) := do (← v.items?).mapM Value.string?

def ofJson? (v : Value) : Option Options := do
  match ← v.fields? fieldNames with
  | [identifier, vendorPrefixes, minify, compressClassNames, mediaMap, cacheDir, namePrefix,
      prefixes] =>
    let base : Options := {}
    return {
      identifier := ← fieldOr base.identifier Value.string? identifier
      vendorPrefixes := ← fieldOr base.vendorPrefixes VendorPrefixes.ofJson? vendorPrefixes
      minify := ← fieldOr base.minify Value.bool? minify
      compressClassNames := ← fieldOr base.compressClassNames Value.bool? compressClassNames
      mediaMap := ← fieldOr base.mediaMap textMap? mediaMap
      cacheDir := ← fieldOr base.cacheDir (nullable Value.string?) cacheDir
      namePrefix := ← fieldOr base.namePrefix (nullable Value.string?) namePrefix
      prefixes := ← fieldOr base.prefixes texts? prefixes }
  | _ => none

/-- Options from a text, which comes from the file `source` if that is given. -/
def parse (text : String) (source : Option String) : Except Fault Options :=
  match (Json.parse? text).bind ofJson? with
  | some o => .ok o
  | none => .error (.invalidOptions source)

end Options
end NestedStyles
