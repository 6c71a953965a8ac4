import NestedStyles.Cache.Lock
import NestedStyles.Cache.Table
import NestedStyles.Fault
import NestedStyles.Storage.Site
import NestedStyles.Text.Blank
/-!
# Tables on disk

A table that outlives a build is a folder with one record file for each key, shared by every handle
on it. A handle remembers what it has read and trusts its memo as long as the folder's epoch, a
number in a file, is the one at which it read; clearing the folder counts the epoch up.

A handle that does not know a key takes the lock, reads everything again, and adds a record if the
key is still unknown: it writes the record beside its place and then moves it there, so that no
other handle sees half of it. What a handle has not yet read is never overwritten.

* `withLock` runs an action with the lock held and gives the lock back on every path;
* `fetch`, `clear` and `count` are the operations of a handle, as steps on its memo, its folder's
  site and the host.
-/
namespace NestedStyles.Cache

open Storage (Cause Folder Host Path.join Site)

/-- What a handle has read: the keys of the folder at an epoch. -/
structure Memo where
  epoch : Nat := 0
  tokens : Table := []
  deriving Repr, Inhabited

/-- A handle on the table in a folder. -/
structure DiskStore where
  /-- The name of the table, and of its folder. -/
  name : String
  dir : String
  /-- How long to wait for the lock. -/
  lockTimeout : Nat := 10 * Host.second
  /-- The age from which on a lock is stale. -/
  staleAfter : Nat := 8 * Host.second
  memo : Memo := {}
  deriving Repr, Inhabited

/-- A handle on the table called `name` in the folder `dir`. -/
def DiskStore.inFolder (dir name : String) : DiskStore := { name, dir := Path.join dir name }

/-- A handle with the site of its folder and the host. -/
structure Disk where
  store : DiskStore
  site : Site
  host : Host

/-- Steps of a handle, which may fail half-way: what has been done stays done. -/
abbrev DiskM := ExceptT Fault (StateM Disk)

namespace Disk

def lockName : String := ".lock"

def epochName : String := ".epoch"

def pollInterval : Nat := 5 * Host.millisecond

/-! ## Steps -/

def pathOf (name : String) : DiskM String := do
  return Path.join (← get).store.dir name

def failAtDir {α : Type} (cause : Cause) : DiskM α := do
  throw (.cacheStorage (← get).store.dir cause)

def failAt {α : Type} (name : String) (cause : Cause) : DiskM α := do
  throw (.cacheStorage (← pathOf name) cause)

/-- The value of a file operation on the file `name`. -/
def orFailAt {α : Type} (name : String) : Except Cause α → DiskM α
  | .ok a => return a
  | .error cause => failAt name cause

def setSite (site : Site) : DiskM Unit := modify fun d => { d with site }

def setMemo (memo : Memo) : DiskM Unit :=
  modify fun d => { d with store := { d.store with memo } }

/-! ## The epoch -/

/-- A number of 64 bits in decimal digits, with blanks around it and perhaps a plus sign before
it. -/
def parseEpoch? (text : String) : Option Nat :=
  let cs := (Text.trim text).toList
  let digits := match cs with
    | '+' :: rest => rest
    | cs => cs
  if digits ≠ [] ∧ digits.all Char.isDigit ∧ Decimal.natOfDigits digits < UInt64.size then
    some (Decimal.natOfDigits digits)
  else none

/-- The epoch of the folder; zero if it has never been cleared. -/
def readEpoch : DiskM Nat := do
  match (← get).site.read epochName with
  | .ok text =>
    match parseEpoch? text with
    | some epoch => return epoch
    | none => failAt epochName .invalidData
  | .error .notFound => return 0
  | .error cause => failAt epochName cause

/-- Writes the file `name` beside its place and moves it there. -/
def replaceFile (name text : String) : DiskM Unit := do
  let draft := name ++ ".tmp"
  let d ← get
  setSite (← orFailAt draft (d.site.write draft text d.host.now))
  setSite (← orFailAt name ((← get).site.rename draft name))

def writeEpoch (epoch : Nat) : DiskM Unit := replaceFile epochName (decimal epoch)

/-! ## Records -/

/-- The names of the record files, in the order of the folder. -/
def recordNames : DiskM (List String) := do
  match (← get).site.names with
  | .ok names => return names.filter isRecordName
  | .error cause => failAtDir cause

def readRecord (name : String) : DiskM Record := do
  match Record.decode? (← orFailAt name ((← get).site.read name)) with
  | some r => return r
  | none => failAt name .invalidData

/-- The table that the record files hold. -/
def readTable : DiskM Table := do
  return tableOfRecords (← (← recordNames).mapM readRecord)

/-- Adds the file of a record; there must be none with its sequence number. -/
def writeRecord (r : Record) : DiskM Unit := do
  let name := Record.fileName r.seq
  if ((← get).site.find? name).isSome then failAt name .alreadyExists
  replaceFile name r.encode

/-! ## The lock -/

def addLock (entries : Folder) (h : Host) : Folder :=
  OrderedMap.insert entries lockName
    (.file (.text (LockInfo.encode ⟨h.pid, h.seconds⟩)) h.now)

/-- Waits until there is no lock in the folder or only a stale one, which is removed, and adds its
own. At the deadline it gives up. -/
def pollLock (staleAfter deadline : Nat) (entries : Folder) (h : Host) :
    Except Cause Folder × Host :=
  match OrderedMap.get? entries lockName with
  | none => (.ok (addLock entries h.read), h.read)
  | some lock =>
    let judged := isStale staleAfter lock h
    let later := judged.2.read
    if judged.1 then (.ok (addLock (OrderedMap.erase entries lockName) later), later)
    else if deadline ≤ later.now then (.error .timedOut, later)
    else pollLock staleAfter deadline entries (later.sleep pollInterval)
termination_by deadline - h.now
decreasing_by
  have h1 : h.now ≤ judged.2.now := now_le_isStale staleAfter lock h
  have h2 : judged.2.now ≤ later.now := Host.now_le_read _
  have h3 : later.now + pollInterval ≤ (later.sleep pollInterval).now := Host.now_add_le_sleep ..
  have h4 : 0 < pollInterval := by decide
  change deadline - (later.sleep pollInterval).now < deadline - h.now
  omega

/-- Makes the folder if need be and takes its lock. -/
def takeLock : DiskM Unit := do
  let d ← get
  let (site, entries) := d.site.make
  setSite site
  match entries with
  | .error cause => failAtDir cause
  | .ok entries =>
    let (deadline, started) := d.host.read.after d.store.lockTimeout
    let (result, host) := pollLock d.store.staleAfter deadline entries started
    modify fun d => { d with host }
    setSite (site.withEntries (← orFailAt lockName result))

def dropLock : StateM Disk Unit := modify fun d =>
  match d.site.removeFile lockName with
  | .ok site => { d with site }
  | .error _ => d

def withLock {α : Type} (action : DiskM α) : DiskM α := do
  takeLock
  ExceptT.mk do
    let result ← action.run
    dropLock
    return result

/-! ## Operations -/

/-- Forgets what was read at another epoch than this one. -/
def refreshMemo (epoch : Nat) : DiskM Unit := do
  if (← get).store.memo.epoch ≠ epoch then setMemo { epoch, tokens := [] }

/-- Looks a key up in the folder, and adds it if it is not there. -/
def fetchLocked (key : String) (compute : List String → String) : DiskM String := do
  let epoch ← readEpoch
  setMemo { (← get).store.memo with epoch }
  let tokens ← readTable
  setMemo { epoch, tokens }
  match OrderedMap.get? tokens key with
  | some token => return token
  | none =>
    let keys := OrderedMap.keys tokens
    let token := compute keys
    writeRecord ⟨key, token, keys.length⟩
    setMemo { epoch, tokens := OrderedMap.insert tokens key token }
    return token

/-- The token of a key, which is computed from the keys of the folder and added if there is none. -/
def fetch (key : String) (compute : List String → String) : DiskM String := do
  refreshMemo (← readEpoch)
  match OrderedMap.get? (← get).store.memo.tokens key with
  | some token => return token
  | none => withLock (fetchLocked key compute)

def removeRecord (name : String) : DiskM Unit := do
  setSite (← orFailAt name ((← get).site.removeFile name))

/-- Removes the records of the folder and counts its epoch up. -/
def clearLocked : DiskM Unit := do
  (← recordNames).forM removeRecord
  let epoch := ((← readEpoch) + 1) % UInt64.size
  writeEpoch epoch
  setMemo { epoch, tokens := [] }

/-- Removes every token. A folder that does not exist is not created for it. -/
def clear : DiskM Unit := do
  let d ← get
  if d.site.isPresent then withLock clearLocked
  else setMemo { d.store.memo with tokens := [] }

def count : DiskM Nat := do
  if (← get).site.isPresent then return (← recordNames).length else return 0

end Disk
end NestedStyles.Cache
