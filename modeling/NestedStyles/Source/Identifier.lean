import NestedStyles.Storage.Path
/-!
# Source identifiers

A source is identified by its path relative to the root of the project, so that its class names do
not depend on where the project lies. Names and `..` count, one `/` stands between them, and a path
that is not inside the root is taken as a whole.
-/
namespace NestedStyles.Source

open Storage (Component)

def unknown : String := "unknown"

/-- What a component contributes to an identifier. -/
def part? : Component → Option String
  | .name n => some n
  | .parent => some ".."
  | .current => none
  | .root => none

/-- The identifier of the source at `path`. -/
def identifier (path : Option String) (root : String) : String :=
  match path with
  | none => unknown
  | some path =>
    let components := (Storage.Path.relativeTo? root path).getD (Storage.Path.components path)
    "/".intercalate (components.filterMap part?)

end NestedStyles.Source
