import NestedStyles.Json.Mend
import NestedStyles.Proofs.Json.Quoted
import NestedStyles.Text.Utf8
/-!
# What mending leaves

Mending leaves a text as it is. In a string with broken bytes it leaves everything where it was, but
the string has lost its value.

* `letters_utf8`: bytes that spell a text are read as this text;
* `mend?_map_some`: a text needs no mending;
* `mend?_string`, `readToken?_mended`: a string that is mended is one token, with a value only if
  all of its letters are characters.
-/
namespace NestedStyles

theorem Text.letters_utf8_append (c : Char) (bytes : List UInt8) :
    letters (String.utf8EncodeChar c ++ bytes) = some c :: letters bytes := by
  cases h : String.utf8EncodeChar c with
  | nil =>
    have hpos := c.utf8Size_pos
    rw [← String.length_utf8EncodeChar, h] at hpos
    cases hpos
  | cons first more =>
    have hlen : c.utf8Size - 1 = more.length := by rw [← String.length_utf8EncodeChar, h]; rfl
    have hdecode : (first :: (more ++ bytes)).toByteArray.utf8DecodeChar? 0 = some c := by
      rw [← List.cons_append, ← h, List.toByteArray_append]
      exact ByteArray.utf8DecodeChar?_utf8EncodeChar_append
    rw [List.cons_append, letters, hdecode]
    simp only [hlen, List.drop_left]

theorem Text.letters_utf8 (cs : List Char) :
    letters (cs.flatMap String.utf8EncodeChar) = cs.map some := by
  induction cs with
  | nil => rw [List.flatMap_nil, letters]; rfl
  | cons c cs ih => rw [List.flatMap_cons, letters_utf8_append, ih]; rfl

namespace Json

theorem mend?_map_some (cs : List Char) (place : Place) :
    mend? place (cs.map some) = some cs := by
  induction cs generalizing place with
  | nil => rfl
  | cons c cs ih => rw [List.map_cons, mend?, ih]; rfl

/-- The letter does not end a string and is not part of an escape. -/
def IsPlain : Option Char → Prop
  | some c => c ≠ '"' ∧ c ≠ '\\' ∧ ¬c.toNat < 0x20
  | none => True

/-- A letter of a string when it has been mended. -/
def mended : Option Char → List Char
  | some c => [c]
  | none => loneHalf

/-- The pieces that a mended letter is read as. -/
def mendedPieces : Option Char → List Piece
  | some c => [.char c]
  | none => [.char '?', .half 0xDC00]

variable {letters : List (Option Char)}

theorem mend?_inside (h : ∀ l ∈ letters, IsPlain l) (rest : List (Option Char)) :
    mend? .inside (letters ++ some '"' :: rest)
      = (mend? .outside rest).map (letters.flatMap mended ++ '"' :: ·) := by
  induction letters with
  | nil => rfl
  | cons l ls ih =>
    have ih := ih fun l hl => h l (List.mem_cons_of_mem _ hl)
    have hl := h l List.mem_cons_self
    cases l with
    | some c =>
      have hplace : Place.after .inside c = .inside := (if_neg hl.1).trans (if_neg hl.2.1)
      rw [List.cons_append, mend?, hplace, ih, Option.map_map]
      rfl
    | none =>
      rw [List.cons_append, mend?, if_pos rfl, ih, Option.map_map]
      rfl

/-- A string is mended letter by letter, up to its closing quote. -/
theorem mend?_string (h : ∀ l ∈ letters, IsPlain l) (rest : List (Option Char)) :
    mend? .outside (some '"' :: (letters ++ some '"' :: rest))
      = (mend? .outside rest).map fun cs => '"' :: (letters.flatMap mended ++ '"' :: cs) := by
  have hplace : Place.after .outside '"' = .inside := rfl
  rw [mend?, hplace, mend?_inside h, Option.map_map]
  rfl

theorem readPieces?_mended (h : ∀ l ∈ letters, IsPlain l) (rest : List Char) :
    readPieces? (letters.flatMap mended ++ '"' :: rest)
      = some (letters.flatMap mendedPieces, rest) := by
  induction letters with
  | nil => rfl
  | cons l ls ih =>
    have ih := ih fun l hl => h l (List.mem_cons_of_mem _ hl)
    have hl := h l List.mem_cons_self
    cases l with
    | some c =>
      rw [List.flatMap_cons, List.append_assoc]
      change readPieces? (c :: (ls.flatMap mended ++ '"' :: rest)) = _
      rw [readPieces?_plain hl.1 hl.2.1 hl.2.2, ih]
      rfl
    | none =>
      have hunit : hexUnit? 'd' 'c' '0' '0' = some 0xDC00 := by decide
      rw [List.flatMap_cons, List.append_assoc]
      change readPieces? ('?' :: '\\' :: 'u' :: 'd' :: 'c' :: '0' :: '0'
        :: (ls.flatMap mended ++ '"' :: rest)) = _
      rw [readPieces?_plain (by decide) (by decide) (by decide), readPieces?, hunit, ih]
      rfl

/-- Broken bytes leave a string without a value. -/
theorem joinPieces?_mended (letters : List (Option Char)) :
    joinPieces? (letters.flatMap mendedPieces) = letters.mapM id := by
  induction letters with
  | nil => rfl
  | cons l ls ih =>
    cases l with
    | some c =>
      change (joinPieces? (ls.flatMap mendedPieces)).map (c :: ·) = _
      rw [ih, List.mapM_cons]
      cases ls.mapM id <;> rfl
    | none =>
      rw [List.mapM_cons]
      change (joinPieces? (.half 0xDC00 :: ls.flatMap mendedPieces)).map ('?' :: ·) = none
      cases ls.flatMap mendedPieces with
      | nil => rfl
      | cons p ps => cases p <;> rfl

/-- A mended string is one token. -/
theorem readToken?_mended (h : ∀ l ∈ letters, IsPlain l) (rest : List Char) :
    readToken? ('"' :: (letters.flatMap mended ++ '"' :: rest))
      = some (.string ((letters.mapM id).map String.ofList), rest) := by
  rw [readToken?, readPieces?_mended h, ← joinPieces?_mended]
  rfl

end Json
end NestedStyles
