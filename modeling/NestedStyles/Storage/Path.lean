/-!
# Paths

A path is text with `/` between its parts. Two paths mean the same if they have the same components:
empty parts and inner `.` parts do not count, a leading `.` does, and `..` always does, since a name
before it may be a link.

* `Path.components` are what a path means, `Path.steps` the way that it takes;
* `Path.join`, `Path.fileName?`, `Path.extension?`, `Path.withoutExtension`, `Path.parent` work on
  its text; `Path.ancestors` are the path and the paths of the folders above;
* `Path.relativeTo?` takes a root off the front, component by component;
* `Path.stages` are a path and what it leads through, and `Path.direct` leads to the same place
  without detours.
-/
namespace NestedStyles.Storage

inductive Component where
  | root
  | current
  | parent
  | name (text : String)
  deriving DecidableEq, Repr

namespace Path

/-- Cuts characters at every `/`. -/
def segmentsOf : List Char → List (List Char)
  | [] => [[]]
  | '/' :: rest => [] :: segmentsOf rest
  | c :: rest =>
    match segmentsOf rest with
    | [] => [[c]]
    | s :: more => (c :: s) :: more

/-- The parts of a path, the empty ones included. -/
def segments (path : String) : List String := (segmentsOf path.toList).map String.ofList

/-- The component that a part after the first stands for, if any. -/
def component? (part : String) : Option Component :=
  if part = "" ∨ part = "." then none
  else if part = ".." then some .parent
  else some (.name part)

def components (path : String) : List Component :=
  match segments path with
  | [] => []
  | "" :: rest =>
    if path = "" then [] else .root :: rest.filterMap component?
  | "." :: rest => .current :: rest.filterMap component?
  | parts => parts.filterMap component?

def isAbsolute (path : String) : Bool := path.toList.head? = some '/'

/-- The step that a part of a path takes. -/
def step (part : String) : Component :=
  if part = "." then .current else if part = ".." then .parent else .name part

/-- The steps of a path from its start, dots included. -/
def steps (path : String) : List Component := ((segments path).filter (· ≠ "")).map step

/-- Whether a path ends in a slash, as only that of a folder may. -/
def endsInSlash (path : String) : Bool := path.toList.getLast? = some '/'

/-- The path of `name` inside `base`; an absolute name stands for itself. -/
def join (base name : String) : String :=
  if isAbsolute name then name
  else if base = "" ∨ base.toList.getLast? = some '/' then base ++ name
  else base ++ "/" ++ name

def fileName? (path : String) : Option String :=
  match (components path).getLast? with
  | some (.name n) => some n
  | _ => none

/-- A name cut at its last dot, which is in neither part; not if nothing stands before the dot. -/
def cutExtension? (name : String) : Option (String × String) :=
  let backwards := name.toList.reverse
  let ext := (backwards.takeWhile (· ≠ '.')).reverse
  match backwards.dropWhile (· ≠ '.') with
  | _ :: c :: stem => some (.ofList (c :: stem).reverse, .ofList ext)
  | _ => none

def extension? (name : String) : Option String := (cutExtension? name).map Prod.snd

/-- The path without the extension of its file name. The dot goes with the extension, unless `..`
would lose it: that is the folder above, and no file name with a dot at its end. -/
def withoutExtension (path : String) : String :=
  match (fileName? path).bind cutExtension? with
  | some (stem, ext) =>
    .ofList (path.toList.take (path.length - ext.length - (if stem = "." then 0 else 1)))
  | none => path

/-- Takes parts that stand for no component off the end of a list, but for a first one. -/
def dropEmptyEnd : List String → List String
  | [] => []
  | first :: rest =>
    first :: (rest.reverse.dropWhile fun part => part = "" ∨ part = ".").reverse

/-- The path of the folder that a path's last component is in; nothing for a path without one. -/
def parent (path : String) : String :=
  let parts := dropEmptyEnd (dropEmptyEnd (segments path)).dropLast
  if isAbsolute path ∧ parts = [""] then "/" else "/".intercalate parts

/-- A path and the paths of the folders above it that it names, at most `fuel` of them. -/
def ancestorsUpTo : Nat → String → List String
  | 0, _ => []
  | fuel + 1, path => if path = "" then [] else path :: ancestorsUpTo fuel (parent path)

/-- A path and the paths of the folders above it that it names, the innermost first. Each is shorter
than the one before. -/
def ancestors (path : String) : List String := ancestorsUpTo (path.length + 1) path

/-- What follows `root` in a list of components that starts with it. -/
def dropRoot? : List Component → List Component → Option (List Component)
  | [], path => some path
  | r :: root, p :: path => if r = p then dropRoot? root path else none
  | _ :: _, [] => none

/-- The components of `path` after those of `root`, if it starts with them. -/
def relativeTo? (root path : String) : Option (List Component) :=
  dropRoot? (components root) (components path)

/-- The parts of a path up to each of its parts, the whole path last. -/
def stages (path : String) : List String :=
  (List.range (segments path).length).map fun n => "/".intercalate ((segments path).take (n + 1))

/-- Takes a step behind names; two dots take back the name before them. There is nothing above the
root. -/
def descend (absolute : Bool) (names : List String) : Component → List String
  | .root => []
  | .current => names
  | .name n => names ++ [n]
  | .parent =>
    if names.getLast? = some ".." ∨ names = [] ∧ absolute = false then names ++ [".."]
    else names.dropLast

/-- The path of a location. -/
def ofLocation (location : List String) : String := "/" ++ "/".intercalate location

/-- The path without names that are left again by two dots after them. It leads to the same place
once all that the other one passes is there. -/
def direct (path : String) : String :=
  let names := (steps path).foldl (descend (isAbsolute path)) []
  if isAbsolute path then ofLocation names
  else if names = [] then "."
  else "/".intercalate names

end Path
end NestedStyles.Storage
