/-!
# JSON in bytes that are no text

A string that is only skipped is not decoded. So bytes that are part of no character do no harm in
such a string; anywhere else they do.

* `mend?` puts half of a surrogate pair in the place of every such byte inside a string. This
  leaves the string without a value too, and what comes out is a text with the same tokens.
-/
namespace NestedStyles.Json

/-- Where a letter stands: between strings, in a string, or in it after a backslash. -/
inductive Place where
  | outside
  | inside
  | escaped
  deriving DecidableEq, Repr

/-- Where the letter after a character stands. -/
def Place.after (place : Place) (c : Char) : Place :=
  match place with
  | outside => if c = '"' then inside else outside
  | inside => if c = '"' then outside else if c = '\\' then escaped else inside
  | escaped => inside

/-- Half of a pair, kept apart from a half before it. -/
def loneHalf : List Char := ['?', '\\', 'u', 'd', 'c', '0', '0']

/-- A text in which broken bytes of strings are half pairs. -/
def mend? (place : Place) : List (Option Char) → Option (List Char)
  | [] => some []
  | some c :: rest => (mend? (place.after c) rest).map (c :: ·)
  | none :: rest => if place = .inside then (mend? .inside rest).map (loneHalf ++ ·) else none

end NestedStyles.Json
