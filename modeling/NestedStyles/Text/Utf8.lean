/-!
# Bytes and letters

Bytes that spell a text in UTF-8 are read as its characters. Among others there are some that are
part of no character.
-/
namespace NestedStyles.Text

/-- The characters that bytes spell; `none` is a byte that is part of no character. -/
def letters (bytes : List UInt8) : List (Option Char) :=
  match bytes with
  | [] => []
  | first :: rest =>
    match (first :: rest).toByteArray.utf8DecodeChar? 0 with
    | some c => some c :: letters (rest.drop (c.utf8Size - 1))
    | none => none :: letters rest
termination_by bytes.length

end NestedStyles.Text
