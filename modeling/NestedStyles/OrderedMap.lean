/-!
# Maps that keep their order

A map is the list of its entries in the order in which its keys were first inserted. Replacing the
value of a key leaves the key in its place; a new key goes to the end. The order of style sheets
decides the cascade and the order of a name table decides its tokens, so order is part of the value.

* `update` is the one way in which an entry changes; `insert` and `extend` are instances of it;
* `get?` and `keys` are the two views by which maps are compared.
-/
namespace NestedStyles

/-- The entries of a map in the order of insertion. -/
abbrev OrderedMap (κ α : Type) := List (κ × α)

namespace OrderedMap

variable {κ α : Type}

/-- The keys in the order of insertion. -/
def keys (m : OrderedMap κ α) : List κ := m.map Prod.fst

variable [DecidableEq κ]

def get? : OrderedMap κ α → κ → Option α
  | [], _ => none
  | (key, value) :: m, k => if key = k then some value else get? m k

def contains (m : OrderedMap κ α) (k : κ) : Bool := (get? m k).isSome

/-- Replaces what stands under `k` by `f` of it, in place; a missing key is appended. -/
def update (m : OrderedMap κ α) (k : κ) (f : Option α → α) : OrderedMap κ α :=
  match m with
  | [] => [(k, f none)]
  | (key, value) :: m =>
    if key = k then (key, f (some value)) :: m else (key, value) :: update m k f

/-- Puts `v` under `k`, in place of an earlier value or at the end. -/
def insert (m : OrderedMap κ α) (k : κ) (v : α) : OrderedMap κ α := update m k fun _ => v

def extend (m : OrderedMap κ α) (es : List (κ × α)) : OrderedMap κ α :=
  es.foldl (fun m e => insert m e.1 e.2) m

/-- The map that results from inserting `es` into an empty one: a repeated key keeps its first place
and its last value. -/
def ofEntries (es : List (κ × α)) : OrderedMap κ α := extend [] es

def erase (m : OrderedMap κ α) (k : κ) : OrderedMap κ α := m.filter fun e => e.1 ≠ k

end OrderedMap
end NestedStyles
