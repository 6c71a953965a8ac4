import NestedStyles.CommandLine.Run
import NestedStyles.Css.Engine
import NestedStyles.Storage.Listing
import Std.Time.DateTime.Timestamp
/-!
# The command line

A run is a pure function of a workspace, so the program loads what a run can see, runs it, and
stores what has changed.

Other builds may share the folder of tokens. Tokens are stored only with the lock of that folder
held and only if nothing has changed since it was loaded; otherwise the program starts over. A run
that had to wait for a lock is stored no earlier than it would have been had it really waited.
-/
namespace NestedStyles.CommandLine

open Cache (DiskStore Handle Workspace)
open Storage (FileTree Host Node Path.direct Path.join Path.ofLocation Path.parent Path.segments
  Path.stages)

/-! ## Loading -/

/-- The time in nanoseconds since the epoch. -/
def wallClock : IO Nat := do
  return (← Std.Time.Timestamp.now).toNanosecondsSinceUnixEpoch.val.toNat

/-- What the system tells about a process: a line that starts with its number. -/
def processLine? (pid : String) : IO (Option String) := do
  try return some (← IO.FS.readFile ("/proc/" ++ pid ++ "/stat"))
  catch _ => return none

/-- The process of this program; zero where the system does not tell. -/
def ownPid : IO Nat := do
  let line := (← processLine? "self").getD ""
  return Decimal.natOfDigits (line.toList.takeWhile Char.isDigit)

/-- Whether a process is alive, where the system tells. -/
def probeProcess (pid : Nat) : IO (Option Bool) := do
  if (← processLine? "self").isNone then return none
  return some (← processLine? (toString pid)).isSome

def probeFolder (path : String) : IO (List String) := do
  return (← ((← IO.currentDir) / path).readDir).toList.map (·.fileName)

def probeFile (path : String) : IO Node := do
  let bytes ← IO.FS.readBinFile path
  let modified := (← ((← IO.currentDir) / path).metadata).modified
  let time := modified.sec * Host.second + modified.nsec.toNat
  match String.fromUTF8? bytes with
  | some text => return .file (.text text) time
  | none => return .file (.bytes bytes.toList) time

/-- What stands at a path: a file, a folder whose entries are left out, or nothing that can be
read. -/
def probe (path : String) : IO (Option Node) := do
  try return some (← probeFile path)
  catch _ =>
    try
      let _ ← probeFolder path
      return some (.folder [])
    catch _ => return none

/-- The tree with what stands at a path, whose folders are loaded. -/
def loadEntry (t : FileTree) (path : String) : IO FileTree := do
  match t.resolve path with
  | .ok (.entry above name _) =>
    let location := above ++ [name]
    if (t.root.find? location).isSome then return t
    match ← probe path with
    | some node => return { t with root := t.root.put location node }
    | none => return t
  | _ => return t

def loadPath (t : FileTree) (path : String) : IO FileTree :=
  (Path.stages (Path.direct path) ++ Path.stages path).foldlM loadEntry t

def loadFolder (t : FileTree) (path : String) : IO FileTree := do
  let t ← loadPath t path
  let folder := Path.direct path
  if t.isFolder folder then
    (← probeFolder folder).foldlM (fun t name => loadEntry t (Path.join folder name)) t
  else return t

/-- What a run can see, and where its tokens are. -/
def load (a : Arguments) : IO (Workspace × Option DiskStore) := do
  let home := ((Path.segments (← IO.currentDir).toString).filter (· ≠ ""))
  let named := a.inputs ++ [a.config, a.output, a.names].filterMap id
  let tree ← named.foldlM loadPath (FileTree.empty home)
  let host : Host :=
    { now := ← wallClock, readings := 0, delay := fun _ => 0, alive := fun _ => none,
      pid := ← ownPid }
  let w : Workspace := { tree, tables := [], host }
  match storeOf w a with
  | none => return (w, none)
  | some store =>
    let tree ← loadFolder tree store.dir
    let holder := ((tree.site store.dir).find? Cache.Disk.lockName).bind Cache.lockInfo?
    match holder with
    | none => return ({ w with tree }, some store)
    | some info =>
      let alive ← probeProcess info.pid
      let host := { host with alive := fun pid => if pid = info.pid then alive else none }
      return ({ w with tree, host }, some store)

/-! ## Storing -/

/-- Brings the files and folders on disk from one state to another. A file is written beside its
place and moved there. -/
def store (before after : FileTree) : IO Unit := do
  for (location, face) in before.changes after do
    let path := Path.ofLocation location
    match face with
    | some .folder => IO.FS.createDirAll path
    | some (.file contents) =>
      let bytes := match contents with
        | .text text => text.toUTF8
        | .bytes bytes => ⟨bytes.toArray⟩
      IO.FS.createDirAll (Path.parent path)
      IO.FS.writeBinFile (path ++ ".tmp") bytes
      IO.FS.rename (path ++ ".tmp") path
    | none => IO.FS.removeFile path

/-- Takes the lock of a folder, unless it is taken. -/
def tryLock (path : String) (host : Host) : IO Bool := do
  try
    IO.FS.createDirAll (Path.parent path)
    let file ← IO.FS.Handle.mk path .writeNew
    file.putStr (Cache.LockInfo.encode ⟨host.pid, host.seconds⟩)
    return true
  catch _ => return false

def removeIfThere (path : String) : IO Unit := do
  try IO.FS.removeFile path catch _ => return

/-! ## Running -/

/-- Waits for a time, but not if a file that a run can see changes; says whether none has. -/
partial def waitUnchanged (a : Arguments) (w : Workspace) (time : Nat) : IO Bool := do
  if time ≤ (← wallClock) then return true
  IO.sleep 5
  if w.tree.sameFiles (← load a).1.tree then waitUnchanged a w time else return false

/-- Stores a run with the lock of its tokens held; says whether nothing had changed. -/
def commit (a : Arguments) (dir : String) (before after : Workspace) : IO Bool := do
  let lock := Path.join dir Cache.Disk.lockName
  let unlocked (t : FileTree) :=
    t.setSite dir (((t.site dir).removeFile Cache.Disk.lockName).toOption.getD (t.site dir))
  if ((before.tree.site dir).find? Cache.Disk.lockName).isSome then removeIfThere lock
  if !(← tryLock lock after.host) then return false
  try
    let unchanged := (unlocked (← load a).1.tree).sameFiles (unlocked before.tree)
    if unchanged then store (unlocked before.tree) after.tree
    return unchanged
  finally removeIfThere lock

/-- Runs until a run can be stored. -/
partial def settle (a : Arguments) : IO Outcome := do
  let (before, folder) ← load a
  let (outcome, after) := runArguments Css.engine before a
  let stored ←
    if !(← waitUnchanged a before after.host.now) then pure false
    else if before.tree.sameFiles after.tree then pure true
    else
      match folder with
      | some s => commit a s.dir before after
      | none => store before.tree after.tree *> pure true
  if stored then return outcome
  IO.sleep 5
  settle a

def report (o : Outcome) : IO UInt32 := do
  let out ← IO.getStdout
  out.putStr o.stdout
  out.flush
  match o.failure with
  | some f => IO.eprintln ("Error: " ++ ": ".intercalate f.chain)
  | none => pure ()
  return UInt32.ofNat o.code

end NestedStyles.CommandLine

def main (arguments : List String) : IO UInt32 := do
  match NestedStyles.CommandLine.Arguments.parse arguments with
  | .error e => NestedStyles.CommandLine.report (.ofUsage e)
  | .ok a => NestedStyles.CommandLine.report (← NestedStyles.CommandLine.settle a)
