import NestedStyles.Json.Basic
/-!
# Outlines

An outline is what a text says by the grammar of JSON alone. Its leaves may be without a value:
numbers too large for a double, and strings, names of members included, with half of a surrogate
pair. It may also be nested as deeply as it likes.

* `Outline.value?` is its value, if every part has one and the depth is within a limit;
* `Outline.only?` leaves out members that nobody asks for, so that what they hold does not matter.
-/
namespace NestedStyles.Json

/-- A JSON text without regard to values. -/
inductive Outline where
  | null
  | bool (value : Bool)
  | number (value : Option Number)
  | string (value : Option String)
  | array (items : List Outline)
  | object (members : List (Option String × Outline))
  deriving Repr, Inhabited

namespace Outline

mutual

/-- The value of an outline with at most `limit` containers nested into each other. -/
def value? (limit : Nat) : Outline → Option Value
  | null => some .null
  | bool b => some (.bool b)
  | number n => n.map .number
  | string s => s.map .string
  | array vs => if limit = 0 then none else (itemValues? (limit - 1) vs).map .array
  | object ms => if limit = 0 then none else (memberValues? (limit - 1) ms).map .object

def itemValues? (limit : Nat) : List Outline → Option (List Value)
  | [] => some []
  | v :: vs => do return (← value? limit v) :: (← itemValues? limit vs)

def memberValues? (limit : Nat) : List (Option String × Outline) → Option (List (String × Value))
  | [] => some []
  | (k, v) :: ms => do return (← k, ← value? limit v) :: (← memberValues? limit ms)

end

/-- An object without the members that have other names than these; the names themselves must all be
readable. -/
def only? (names : List String) : Outline → Option Outline
  | object ms =>
    if ms.all (·.1.isSome) then some (object (ms.filter fun m => m.1.any (names.contains ·)))
    else none
  | o => some o

end Outline
end NestedStyles.Json
