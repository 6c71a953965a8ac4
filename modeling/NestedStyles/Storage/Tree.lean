import NestedStyles.OrderedMap
import NestedStyles.Storage.Cause
import NestedStyles.Storage.Path
import NestedStyles.Text.Utf8
/-!
# Trees of files

A tree of folders and files, with a home folder from which relative paths start. Files have contents
and the time of their last change, in nanoseconds since the epoch; folders list their entries in an
order of their own.

* `Node.find?`, `Node.put` and `Node.remove` work on locations, lists of names from the root;
* `FileTree.resolve` follows a path to its goal, `FileTree.locate` finds what stands there;
* the operations on paths fail with the cause that says why. A folder can be made with all that are
  missing above it (`makeFolders`): those made on the way stay even if the last one cannot be made.
-/
namespace NestedStyles.Storage

/-- The contents of a file: a text, or bytes that are none. -/
inductive Contents where
  | text (value : String)
  | bytes (value : List UInt8)
  deriving DecidableEq, Repr, Inhabited

def Contents.asText : Contents → Except Cause String
  | text s => .ok s
  | bytes _ => .error .invalidData

/-- The letters of a file's contents; `none` is a byte that is part of no character. -/
def Contents.letters : Contents → List (Option Char)
  | .text s => s.toList.map some
  | .bytes bs => Text.letters bs

inductive Node where
  | file (contents : Contents) (modified : Int)
  | folder (entries : List (String × Node))
  deriving Repr, Inhabited

/-- The entries of a folder by name. -/
abbrev Folder := OrderedMap String Node

namespace Node

def readText : Node → Except Cause String
  | file contents _ => contents.asText
  | folder _ => .error .isADirectory

def find? : Node → List String → Option Node
  | node, [] => some node
  | folder entries, n :: ns => (OrderedMap.get? entries n).bind (find? · ns)
  | file _ _, _ :: _ => none

/-- Puts a node at a location, with the folders above it. Nothing is put below a file. -/
def put : Node → List String → Node → Node
  | _, [], new => new
  | folder entries, n :: ns, new =>
    folder (OrderedMap.update entries n fun old => (old.getD (folder [])).put ns new)
  | file contents modified, _ :: _, _ => file contents modified

def remove (node : Node) (location : List String) : Node :=
  match node.find? location.dropLast, location.getLast? with
  | some (folder entries), some n =>
    node.put location.dropLast (folder (OrderedMap.erase entries n))
  | _, _ => node

end Node

/-- A tree of files and the location of its home folder. -/
structure FileTree where
  root : Node
  home : List String
  deriving Repr, Inhabited

/-- Where a path leads. -/
inductive Goal where
  /-- To the entry `name` of a folder, which must be a folder itself if the path ends in a slash. -/
  | entry (folder : List String) (name : String) (slashed : Bool)
  /-- To a folder that is not named: by a dot, two dots, or as the root. -/
  | folder (location : List String)
  deriving DecidableEq, Repr

namespace FileTree

/-- A tree with an empty home folder. -/
def empty (home : List String) : FileTree := ⟨(Node.folder []).put home (.folder []), home⟩

def startOf (t : FileTree) (path : String) : List String :=
  if Path.isAbsolute path then [] else t.home

/-- Takes a step from one folder to another. -/
def enter (root : Node) (here : List String) : Component → Except Cause (List String)
  | .root => .ok []
  | .current => .ok here
  | .parent => .ok here.dropLast
  | .name n =>
    match root.find? (here ++ [n]) with
    | some (.folder _) => .ok (here ++ [n])
    | some (.file _ _) => .error .notADirectory
    | none => .error .notFound

/-- Follows a path through folders up to its last step. An empty path leads nowhere. -/
def resolve (t : FileTree) (path : String) : Except Cause Goal :=
  if path = "" then .error .notFound
  else do
    let steps := Path.steps path
    let here ← steps.dropLast.foldlM (enter t.root) (t.startOf path)
    match steps.getLast? with
    | some (.name n) => return .entry here n (Path.endsInSlash path)
    | some step => return .folder (← enter t.root here step)
    | none => return .folder here

/-- The node that a path leads to, and its location. -/
def locate (t : FileTree) (path : String) : Except Cause (List String × Node) := do
  match ← t.resolve path with
  | .folder location => return (location, (t.root.find? location).getD (.folder []))
  | .entry above name slashed =>
    match t.root.find? (above ++ [name]) with
    | none => .error .notFound
    | some (.folder entries) => return (above ++ [name], .folder entries)
    | some (.file contents modified) =>
      if slashed then .error .notADirectory
      else return (above ++ [name], .file contents modified)

def isFolder (t : FileTree) (path : String) : Bool :=
  match t.locate path with
  | .ok (_, .folder _) => true
  | _ => false

/-! ## Files -/

def readText (t : FileTree) (path : String) : Except Cause String := do
  (← t.locate path).2.readText

/-- Writes a file, which is created or replaced. -/
def writeText (t : FileTree) (path text : String) (now : Int) : Except Cause FileTree := do
  match ← t.resolve path with
  | .folder _ => .error .isADirectory
  | .entry _ _ true => .error .isADirectory
  | .entry above name false =>
    match t.root.find? (above ++ [name]) with
    | some (.folder _) => .error .isADirectory
    | _ => return { t with root := t.root.put (above ++ [name]) (.file (.text text) now) }

def removeFile (t : FileTree) (path : String) : Except Cause FileTree := do
  match ← t.resolve path with
  | .folder _ => .error .isADirectory
  | .entry above name slashed =>
    match t.root.find? (above ++ [name]) with
    | none => .error .notFound
    | some (.folder _) => .error .isADirectory
    | some (.file _ _) =>
      if slashed then .error .notADirectory
      else return { t with root := t.root.remove (above ++ [name]) }

def setModified (t : FileTree) (path : String) (time : Int) : Except Cause FileTree := do
  match ← t.locate path with
  | (_, .folder _) => .error .isADirectory
  | (location, .file contents _) =>
    return { t with root := t.root.put location (.file contents time) }

/-! ## Folders -/

def list (t : FileTree) (path : String) : Except Cause (List String) := do
  match ← t.locate path with
  | (_, .folder entries) => return OrderedMap.keys entries
  | (_, .file _ _) => .error .notADirectory

/-- Makes a folder inside one that is there. -/
def makeFolder (t : FileTree) (path : String) : Except Cause FileTree := do
  match ← t.resolve path with
  | .folder _ => .error .alreadyExists
  | .entry above name _ =>
    match t.root.find? (above ++ [name]) with
    | some _ => .error .alreadyExists
    | none => return { t with root := t.root.put (above ++ [name]) (.folder []) }

/-- Makes the first folder of a list whose rest are the folders above it, and of these the ones that
are missing. A folder that is there already will do. -/
def makeEach (t : FileTree) : List String → FileTree × Except Cause Unit
  | [] => (t, .ok ())
  | path :: above =>
    match t.makeFolder path with
    | .ok t => (t, .ok ())
    | .error .notFound =>
      match t.makeEach above with
      | (t, .error cause) => (t, .error cause)
      | (t, .ok ()) =>
        match t.makeFolder path with
        | .ok t => (t, .ok ())
        | .error cause => (t, if t.isFolder path then .ok () else .error cause)
    | .error cause => (t, if t.isFolder path then .ok () else .error cause)

/-- Makes a folder and those above it, as far as possible. An empty path asks for nothing. -/
def makeFolders (t : FileTree) (path : String) : FileTree × Except Cause Unit :=
  t.makeEach (Path.ancestors path)

end FileTree
end NestedStyles.Storage
