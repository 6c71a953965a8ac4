import NestedStyles.Storage.Tree
/-!
# Sites

A site is what a path of a folder leads to: the folder with its entries, nothing, or a file in the
way. It is all that an operation on one folder's files sees of a tree and all that it changes, so
such operations are stated on sites.

Where nothing stands, the site knows how an attempt to make the folder would end: a path through
`..` may lead to a folder that has long been there, once a folder that it passes has been made, and
it may lead to a file. The empty path leads nowhere, but names joined to it lead into the home
folder.

* `Site.read`, `write`, `rename`, `removeFile` are the file operations inside the folder, by name;
  `Site.names` lists the folder and `Site.make` makes it;
* `FileTree.site` cuts a site out of a tree and `FileTree.setSite` puts it back.
-/
namespace NestedStyles.Storage

/-- What a path of a folder leads to. -/
inductive Site where
  | folder (entries : Folder)
  /-- Nothing, since the path is empty; these are the entries of the home folder. -/
  | home (entries : Folder)
  | occupied
  /-- Nothing, for a cause; the entries that the folder would have if it were made, or why it cannot
  be made; and whether that has been tried. -/
  | absent (cause : Cause) (made : Except Cause Folder) (tried : Bool)
  deriving Inhabited

namespace Site

def isPresent : Site → Bool
  | folder _ => true
  | home _ => false
  | occupied => true
  | absent _ _ _ => false

/-- The entries that names joined to the path lead to, or the cause why they lead nowhere. -/
def entries : Site → Except Cause Folder
  | folder es => .ok es
  | home es => .ok es
  | occupied => .error .notADirectory
  | absent cause _ _ => .error cause

def withEntries (es : Folder) : Site → Site
  | home _ => home es
  | _ => folder es

def names : Site → Except Cause (List String)
  | folder es => .ok (OrderedMap.keys es)
  | home _ => .error .notFound
  | occupied => .error .notADirectory
  | absent cause _ _ => .error cause

/-- Makes the folder if need be: the site afterwards, and the entries, or why there are none. -/
def make : Site → Site × Except Cause Folder
  | folder es => (folder es, .ok es)
  | home es => (home es, .ok es)
  | occupied => (occupied, .error .alreadyExists)
  | absent _ (.ok es) _ => (folder es, .ok es)
  | absent cause (.error why) _ => (absent cause (.error why) true, .error why)

def find? (s : Site) (name : String) : Option Node :=
  match s.entries with
  | .ok es => OrderedMap.get? es name
  | .error _ => none

def read (s : Site) (name : String) : Except Cause String := do
  match OrderedMap.get? (← s.entries) name with
  | some node => node.readText
  | none => .error .notFound

/-- Writes the file `name`, which is created or replaced. -/
def write (s : Site) (name text : String) (now : Int) : Except Cause Site := do
  let es ← s.entries
  match OrderedMap.get? es name with
  | some (.folder _) => .error .isADirectory
  | _ => return s.withEntries (OrderedMap.insert es name (.file (.text text) now))

/-- Gives the file `old` the name `new`, in place of a file that has it. -/
def rename (s : Site) (old new : String) : Except Cause Site := do
  let es ← s.entries
  match OrderedMap.get? es old, OrderedMap.get? es new with
  | none, _ => .error .notFound
  | some _, some (.folder _) => .error .isADirectory
  | some node, _ => return s.withEntries (OrderedMap.insert (OrderedMap.erase es old) new node)

def removeFile (s : Site) (name : String) : Except Cause Site := do
  let es ← s.entries
  match OrderedMap.get? es name with
  | none => .error .notFound
  | some (.folder _) => .error .isADirectory
  | some (.file _ _) => return s.withEntries (OrderedMap.erase es name)

end Site

namespace FileTree

/-- The entries of the folder that a path would lead to if it were made. -/
def folderIfMade (t : FileTree) (path : String) : Except Cause Folder :=
  match t.makeFolders path with
  | (_, .error cause) => .error cause
  | (made, .ok ()) =>
    match made.locate path with
    | .ok (_, .folder entries) => .ok entries
    | .ok (_, .file _ _) => .error .notADirectory
    | .error cause => .error cause

def homeEntries (t : FileTree) : Folder :=
  match t.root.find? t.home with
  | some (.folder entries) => entries
  | _ => []

def site (t : FileTree) (path : String) : Site :=
  if path = "" then .home t.homeEntries
  else
    match t.locate path with
    | .ok (_, .folder entries) => .folder entries
    | .ok (_, .file _ _) => .occupied
    | .error cause => .absent cause (t.folderIfMade path) false

/-- The tree with a folder put where a path leads, which is made if need be. -/
def putFolder (t : FileTree) (path : String) (entries : Folder) : FileTree :=
  let made := (t.makeFolders path).1
  match made.locate path with
  | .ok (location, _) => { made with root := made.root.put location (.folder entries) }
  | .error _ => made

/-- The tree with a site put at a path. Only folders, and attempts to make them, change anything. -/
def setSite (t : FileTree) (path : String) : Site → FileTree
  | .folder entries => t.putFolder path entries
  | .home entries => { t with root := t.root.put t.home (.folder entries) }
  | .absent _ _ true => (t.makeFolders path).1
  | .absent _ _ false => t
  | .occupied => t

end FileTree
end NestedStyles.Storage
