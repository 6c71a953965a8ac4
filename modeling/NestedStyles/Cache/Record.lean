import NestedStyles.Json.Reader
import NestedStyles.Json.Writer
import NestedStyles.Storage.Path
/-!
# Record files

A token that is kept on disk is one file: a JSON object with the key, the token and the sequence
number, in a file named for the sequence number with at least eight digits. Records are read from
any file with the extension `json`, also with further members and from an array of the three values.

* `Record.encode` and `Record.decode?` are writer and reader;
* `Record.fileName` is the name of a record's file, and `isRecordName` tells which files are read.
-/
namespace NestedStyles.Cache

/-- One key of a table with its token and its place. -/
structure Record where
  key : String
  token : String
  seq : Nat
  deriving DecidableEq, Repr, Inhabited

def decimal (n : Nat) : String := .ofList (Nat.toDigits 10 n)

/-- Digits with zeros before them, eight at least. -/
def padded (n : Nat) : String :=
  let digits := Nat.toDigits 10 n
  .ofList (List.replicate (8 - digits.length) '0' ++ digits)

/-- Whether a file of this name is read as a record. -/
def isRecordName (name : String) : Bool := Storage.Path.extension? name = some "json"

namespace Record

def fileName (seq : Nat) : String := padded seq ++ ".json"

def fieldNames : List String := ["key", "token", "seq"]

def encode (r : Record) : String :=
  "\x7b\"key\":" ++ Json.quoted r.key ++ ",\"token\":" ++ Json.quoted r.token ++ ",\"seq\":"
    ++ decimal r.seq ++ "\x7d"

/-- A record from its JSON value. Every field must be there; the sequence number has 64 bits. -/
def ofJson? (v : Json.Value) : Option Record := do
  match ← v.fields? fieldNames with
  | [some key, some token, some seq] =>
    return ⟨← key.string?, ← token.string?, ← seq.nat? UInt64.size⟩
  | _ => none

def decode? (text : String) : Option Record := (Json.parseOnly? fieldNames text).bind ofJson?

end Record

/-- The table that records spell: in the order of their sequence numbers, those with the same number
in the given order; of two records with one key the first gives the place and the last the token. -/
def tableOfRecords (rs : List Record) : OrderedMap String String :=
  OrderedMap.ofEntries ((rs.mergeSort fun a b => a.seq ≤ b.seq).map fun r => (r.key, r.token))

end NestedStyles.Cache
