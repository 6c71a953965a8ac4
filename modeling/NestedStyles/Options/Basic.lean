import NestedStyles.OrderedMap
/-!
# Options

What a build can be told: how classes are named, where names are kept, which browsers to prefix for,
whether to minify, and which short names media queries have. Every option has a default.

* `Options.classPrefixes` are the prefixes of every class name, `Options.forSheet` the options for
  one sheet of a file;
* `Options.resolveMedia` finds the text of a media query by its name;
* `VendorPrefixes.browsers` are the browsers to prefix for, with packed versions.
-/
namespace NestedStyles

/-- One value for each browser that can be targeted, if it is. -/
structure BrowserTargets where
  android : Option UInt32 := none
  chrome : Option UInt32 := none
  edge : Option UInt32 := none
  firefox : Option UInt32 := none
  ie : Option UInt32 := none
  iosSaf : Option UInt32 := none
  opera : Option UInt32 := none
  safari : Option UInt32 := none
  samsung : Option UInt32 := none
  deriving DecidableEq, Repr, Inhabited

namespace BrowserTargets

/-- Targets old enough that flexible boxes still need every prefix. -/
def legacy : BrowserTargets :=
  { android := some 4, chrome := some 20, firefox := some 20, ie := some 10, safari := some 8 }

def map (f : UInt32 → UInt32) (t : BrowserTargets) : BrowserTargets :=
  { android := t.android.map f, chrome := t.chrome.map f, edge := t.edge.map f,
    firefox := t.firefox.map f, ie := t.ie.map f, iosSaf := t.iosSaf.map f,
    opera := t.opera.map f, safari := t.safari.map f, samsung := t.samsung.map f }

/-- Major versions packed for the CSS engine: the major version stands above sixteen bits for the
minor ones, and what does not fit into the word is lost. -/
def packed (t : BrowserTargets) : BrowserTargets := t.map (· <<< 16)

end BrowserTargets

/-- Whether vendor prefixes are added, and for which major versions. -/
inductive VendorPrefixes where
  | enabled (on : Bool)
  | targets (majors : BrowserTargets)
  deriving DecidableEq, Repr, Inhabited

/-- The browsers to prefix for, with packed versions; none if prefixing is off. -/
def VendorPrefixes.browsers : VendorPrefixes → Option BrowserTargets
  | enabled false => none
  | enabled true => some BrowserTargets.legacy.packed
  | targets majors => some majors.packed

/-- The options of a build. -/
structure Options where
  /-- The call by which a host recognizes style objects. -/
  identifier : String := "cssInJS"
  vendorPrefixes : VendorPrefixes := .enabled false
  minify : Bool := false
  /-- Whether class names are replaced by short tokens. -/
  compressClassNames : Bool := false
  /-- Media queries by their short names. -/
  mediaMap : OrderedMap String String := []
  /-- The folder in which tokens are kept; none keeps them in memory. -/
  cacheDir : Option String := none
  /-- The first prefix of every class name. -/
  namePrefix : Option String := none
  /-- The other prefixes of every class name. -/
  prefixes : List String := []
  deriving Repr, Inhabited

namespace Options

def classPrefixes (o : Options) : List String := o.namePrefix.toList ++ o.prefixes

/-- The options for one sheet of a file, whose class names carry both. -/
def forSheet (o : Options) (file sheet : String) : Options := { o with prefixes := [file, sheet] }

/-- The text without an `@` at its front. -/
def dropAt (s : String) : String :=
  match s.toList with
  | '@' :: rest => .ofList rest
  | _ => s

/-- The text of the media query called `name`: what `mediaMap` says, or else the name itself. A name
with an `@` is literal. -/
def resolveMedia (o : Options) (name : String) : String :=
  if name.toList.head? = some '@' then dropAt name
  else
    match o.mediaMap.get? name with
    | some query => dropAt query
    | none => name

end Options
end NestedStyles
