import NestedStyles.OrderedMap
/-!
# JSON values

A value keeps the members of an object in the order of the text, repeated names included: whether a
repetition is an error or an override is for the reader of the object to decide.

* `Value.settled` is the override: every repeated member keeps its first place and takes its last
  value, at every depth;
* `Value.fields?` reads an object, or an array in place of one, as a record with known fields, for
  which a repetition is an error;
* `Kind` names the six kinds of value.
-/
namespace NestedStyles.Json

/-- A number is a whole one that fits into 64 bits, signed or unsigned, or else a double. -/
inductive Number where
  | int (value : Int)
  | real (value : Float)
  deriving Repr

inductive Value where
  | null
  | bool (value : Bool)
  | number (value : Number)
  | string (value : String)
  | array (items : List Value)
  | object (members : List (String × Value))
  deriving Repr, Inhabited

inductive Kind where
  | null | boolean | number | string | array | object
  deriving DecidableEq, Repr

def Kind.name : Kind → String
  | .null => "null"
  | .boolean => "boolean"
  | .number => "number"
  | .string => "string"
  | .array => "array"
  | .object => "object"

namespace Value

def kind : Value → Kind
  | null => .null
  | bool _ => .boolean
  | number _ => .number
  | string _ => .string
  | array _ => .array
  | object _ => .object

def members? : Value → Option (List (String × Value))
  | object ms => some ms
  | _ => none

def items? : Value → Option (List Value)
  | array vs => some vs
  | _ => none

def string? : Value → Option String
  | string s => some s
  | _ => none

def bool? : Value → Option Bool
  | bool b => some b
  | _ => none

/-- A whole number from zero up to and without `bound`. -/
def nat? (bound : Nat) : Value → Option Nat
  | number (.int n) => if 0 ≤ n ∧ n < bound then some n.toNat else none
  | _ => none

mutual

/-- The value in which no object repeats a member name: the first place and the last value count. -/
def settled : Value → Value
  | array vs => array (settledItems vs)
  | object ms => object (OrderedMap.ofEntries (settledMembers ms))
  | v => v

def settledItems : List Value → List Value
  | [] => []
  | v :: vs => settled v :: settledItems vs

/-- The members of an object with their values settled, in their order. -/
def settledMembers : List (String × Value) → List (String × Value)
  | [] => []
  | (k, v) :: ms => (k, settled v) :: settledMembers ms

end

/-- Reads a record with the fields `names`: from an object by name, from an array by position. A
field that is not there is `none`. An object may not repeat a field or hold other members; an array
may end early but not hold more. -/
def fields? (names : List String) : Value → Option (List (Option Value))
  | object ms =>
    let keys := ms.map Prod.fst
    if names.all (fun n => keys.count n ≤ 1) && keys.all (names.contains ·) then
      some (names.map (ms.lookup ·))
    else none
  | array vs =>
    if vs.length ≤ names.length then
      some (vs.map some ++ List.replicate (names.length - vs.length) none)
    else none
  | _ => none

end Value
end NestedStyles.Json
