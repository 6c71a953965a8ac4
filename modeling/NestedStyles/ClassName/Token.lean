/-!
# Short tokens

A token is `_` and the base-36 digits of an index, the least significant one first. It starts with
`_`, so it is an identifier whatever its digits are, and different indices have different tokens.
-/
namespace NestedStyles.ClassName

/-- The digit for a value below 36: `0` to `9`, then `a` to `z`. -/
def digit36 (n : Nat) : Char :=
  if n < 10 then Char.ofNat ('0'.toNat + n) else Char.ofNat ('a'.toNat + (n - 10))

/-- The base-36 digits of `n` from the least significant one on; zero has one digit. -/
def digits36 (n : Nat) : List Char :=
  if n < 36 then [digit36 n] else digit36 (n % 36) :: digits36 (n / 36)

/-- The token with the given index. -/
def token (index : Nat) : String := .ofList ('_' :: digits36 index)

end NestedStyles.ClassName
