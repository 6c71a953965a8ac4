import NestedStyles.Storage.Tree
/-!
# What has changed in a tree

A tree is stored by what a program is shown at each of its locations: a folder, or a file with its
contents. When a file was last changed does not count, so a file that is written again as it was has
not changed.

* `Node.locations` are the locations at which something stands;
* `FileTree.faceAt?` is what is shown at one of them;
* `FileTree.changes` leads from one tree to another, location by location, and `FileTree.sameFiles`
  says whether there are any.
-/
namespace NestedStyles.Storage

/-- What a program is shown of a node. -/
inductive Face where
  | folder
  | file (contents : Contents)
  deriving DecidableEq, Repr

namespace Node

def face : Node → Face
  | .file contents _ => .file contents
  | .folder _ => .folder

mutual

/-- The locations of a node and of all that is in it, a folder before its entries. -/
def locations : Node → List (List String)
  | .file _ _ => [[]]
  | .folder entries => [] :: locationsIn entries

/-- The locations of the entries of a folder. -/
def locationsIn : List (String × Node) → List (List String)
  | [] => []
  | (name, node) :: rest => (locations node).map (name :: ·) ++ locationsIn rest

end

end Node

namespace FileTree

def faceAt? (t : FileTree) (location : List String) : Option Face :=
  (t.root.find? location).map Node.face

/-- What is shown where one tree differs from another: first what is there, then what is not. -/
def changes (before after : FileTree) : List (List String × Option Face) :=
  let gone := before.root.locations.filter fun location => (after.faceAt? location).isNone
  (after.root.locations ++ gone).filterMap fun location =>
    if before.faceAt? location = after.faceAt? location then none
    else some (location, after.faceAt? location)

def sameFiles (s t : FileTree) : Bool := (s.changes t).isEmpty

end FileTree
end NestedStyles.Storage
