import NestedStyles.OrderedMap
/-!
# Token tables

A table gives every key the token that was computed when the key was first asked for. A new token is
computed from the keys that are already there, in the order in which they came.
-/
namespace NestedStyles.Cache

abbrev Table := OrderedMap String String

/-- The token of a key, which is computed and added if there is none. -/
def Table.fetch (t : Table) (key : String) (compute : List String → String) : String × Table :=
  match OrderedMap.get? t key with
  | some token => (token, t)
  | none =>
    let token := compute (OrderedMap.keys t)
    (token, OrderedMap.insert t key token)

end NestedStyles.Cache
