import NestedStyles.Cache.Record
import NestedStyles.Json.Mend
import NestedStyles.Storage.Host
import NestedStyles.Storage.Tree
/-!
# Lock files

Whoever changes a folder of records holds its lock file, which names the process and says since
when. A lock is stale, and may be removed by the next one to want it, if it is older than a limit or
its process is known to be dead. The age of a lock is that of its file; where the file claims to be
of the future, the time in its contents is taken instead. Contents that do not parse say nothing;
only the fields of a lock need be text, not what else is in its file.

* `LockInfo.encode` and `LockInfo.decode?` write and read the contents;
* `isStale` judges a lock, reading the clock as often as it has to.
-/
namespace NestedStyles.Cache

open Storage (Host Node)

/-- Who holds a lock, and since which second. -/
structure LockInfo where
  pid : Nat
  startedAt : Nat
  deriving DecidableEq, Repr, Inhabited

namespace LockInfo

def fieldNames : List String := ["pid", "started_at"]

def encode (i : LockInfo) : String :=
  "\x7b\"pid\":" ++ decimal i.pid ++ ",\"started_at\":" ++ decimal i.startedAt ++ "\x7d"

/-- A lock's contents from their JSON value. The process must be there; the start defaults to the
epoch. -/
def ofJson? (v : Json.Value) : Option LockInfo := do
  match ← v.fields? fieldNames with
  | [some pid, startedAt] =>
    return ⟨← pid.nat? UInt32.size, ← (startedAt.elim (some 0) (Json.Value.nat? UInt64.size))⟩
  | _ => none

def decode? (text : String) : Option LockInfo := (Json.parseOnly? fieldNames text).bind ofJson?

end LockInfo

/-- The age of a file with a time of last change, unless that time is yet to come. -/
def age? (modified : Int) (now : Nat) : Option Nat :=
  if modified ≤ now then some ((now : Int) - modified).toNat else none

/-- What a node says as a lock. -/
def lockInfo? : Node → Option LockInfo
  | .file contents _ => do LockInfo.decode? (.ofList (← Json.mend? .outside contents.letters))
  | .folder _ => none

/-- Whether a lock with these contents is stale, given the age of its file if that is known. -/
def infoIsStale (limit : Nat) (age : Option Nat) (i : LockInfo) (h : Host) : Bool × Host :=
  if h.isAlive? i.pid = some false then (true, h)
  else
    match age with
    | some _ => (false, h)
    | none =>
      let h := h.read
      (decide (limit < (h.seconds - i.startedAt) * Host.second), h)

/-- Whether the lock that a node holds is stale. A folder in place of the lock never is. -/
def isStale (limit : Nat) (n : Node) (h : Host) : Bool × Host :=
  match n with
  | .folder _ => (false, h)
  | .file _ modified =>
    let h := h.read
    let age := age? modified h.now
    if age.any (limit < ·) then (true, h)
    else
      match lockInfo? n with
      | none => (false, h)
      | some i => infoIsStale limit age i h

theorem now_le_isStale (limit : Nat) (n : Node) (h : Host) : h.now ≤ (isStale limit n h).2.now := by
  have hr := Host.now_le_read
  unfold isStale
  split
  · exact Nat.le_refl _
  · dsimp only
    split
    · exact hr h
    · split
      · exact hr h
      · unfold infoIsStale
        split
        · exact hr h
        · split
          · exact hr h
          · exact Nat.le_trans (hr h) (hr _)

end NestedStyles.Cache
