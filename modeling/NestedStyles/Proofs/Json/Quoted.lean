import Mathlib
import NestedStyles.Json.Token
import NestedStyles.Json.Writer
/-!
# Quoted strings read back

Whatever characters a string has, its literal is read as that string: the writer's escapes are
undone one character at a time, and no escape ends the string or eats what follows.

* `readPieces?_escape`: what stands for one character is read as that character;
* `readToken?_quoted`: a literal is one token, up to its closing quote.
-/
namespace NestedStyles.Json

/-- The four digits of a control character spell it. -/
theorem hexUnit?_control :
    ∀ n < 0x20, hexUnit? '0' '0' (hexDigit (n / 16)) (hexDigit n) = some n := by
  decide

theorem readPieces?_shortEscape {e c : Char} (he : e ≠ 'u') (h : shortEscape? e = some c)
    (rest : List Char) :
    readPieces? ('\\' :: e :: rest) = (readPieces? rest).map fun p => (.char c :: p.1, p.2) := by
  rw [readPieces?]
  · rw [h]
    cases readPieces? rest <;> rfl
  · rintro a b c d r hr
    cases hr
    exact absurd rfl he

theorem readPieces?_plain {c : Char} (hq : c ≠ '"') (hb : c ≠ '\\') (hc : ¬ c.toNat < 0x20)
    (rest : List Char) :
    readPieces? (c :: rest) = (readPieces? rest).map fun p => (.char c :: p.1, p.2) := by
  rw [readPieces?]
  · rw [if_neg (not_or.2 ⟨hc, hb⟩)]
    cases readPieces? rest <;> rfl
  · exact hq
  · intro a b c' d r hr
    exact absurd hr hb
  · intro e r hr
    exact absurd hr hb

theorem readPieces?_control {c : Char} (hc : c.toNat < 0x20) (rest : List Char) :
    readPieces? ('\\' :: 'u' :: '0' :: '0' :: hexDigit (c.toNat / 16) :: hexDigit c.toNat :: rest)
      = (readPieces? rest).map fun p => (.char c :: p.1, p.2) := by
  have hp : pieceOfUnit c.toNat = .char c := by
    rw [pieceOfUnit, if_neg (by omega), Char.ofNat_toNat]
  rw [readPieces?, hexUnit?_control _ hc]
  cases readPieces? rest with
  | none => rfl
  | some p => simp [hp]

theorem readPieces?_escape (c : Char) (rest : List Char) :
    readPieces? (escape c ++ rest) = (readPieces? rest).map fun p => (.char c :: p.1, p.2) := by
  unfold escape
  split
  · exact readPieces?_shortEscape (by decide) rfl rest
  · exact readPieces?_shortEscape (by decide) rfl rest
  · exact readPieces?_shortEscape (by decide) rfl rest
  · exact readPieces?_shortEscape (by decide) rfl rest
  · exact readPieces?_shortEscape (by decide) rfl rest
  · exact readPieces?_shortEscape (by decide) rfl rest
  · exact readPieces?_shortEscape (by decide) rfl rest
  · split
    · exact readPieces?_control ‹_› rest
    · exact readPieces?_plain ‹_› ‹_› ‹_› rest

theorem readPieces?_quoted (cs rest : List Char) :
    readPieces? (cs.flatMap escape ++ '"' :: rest) = some (cs.map .char, rest) := by
  induction cs with
  | nil => simp [readPieces?]
  | cons c cs ih => simp only [List.flatMap_cons, List.append_assoc, readPieces?_escape, ih,
      Option.map_some, List.map_cons]

theorem joinPieces?_chars (cs : List Char) : joinPieces? (cs.map .char) = some cs := by
  induction cs with
  | nil => rfl
  | cons c cs ih => simp only [List.map_cons, joinPieces?, ih, Option.map_some]

/-- A literal is one token. -/
theorem readToken?_quoted (cs rest : List Char) :
    readToken? (quotedChars cs ++ rest) = some (.string (some (.ofList cs)), rest) := by
  have h : quotedChars cs ++ rest = '"' :: (cs.flatMap escape ++ '"' :: rest) := by
    simp [quotedChars]
  rw [h, readToken?, readPieces?_quoted, Option.map_some]
  simp only [joinPieces?_chars, Option.map_some]

end NestedStyles.Json
