import NestedStyles.Css.Declaration
import NestedStyles.Proofs.Decimal.Digits
import NestedStyles.Proofs.Text.Lines
/-!
# Declarations stand on one line

Nothing that is put into a declaration has a line feed of its own: neither the name of a property,
nor a number, nor the quotes and escapes of a text. So a declaration holds a line feed only if its
property or its text does.
-/
namespace NestedStyles

open Text (OneLine oneLine_append oneLine_ofList)

/-! ## Numbers -/

namespace Decimal

theorem not_newline_of_mem_toDigits {n : Nat} : '\n' ∉ Nat.toDigits 10 n := fun h =>
  absurd (isDigit_of_mem_toDigits h) (by decide)

theorem not_newline_of_mem_zeros {k : Nat} : '\n' ∉ List.replicate k '0' := fun h =>
  absurd (List.eq_of_mem_replicate h) (by decide)

theorem oneLine_positional (units : Nat) (exponent : Int) :
    OneLine (positional units exponent) := by
  unfold positional
  simp only
  split
  · rw [oneLine_ofList, List.mem_append, not_or]
    exact ⟨not_newline_of_mem_toDigits, not_newline_of_mem_zeros⟩
  · rw [oneLine_ofList, List.mem_append, List.mem_cons, not_or, not_or]
    have hfilled : ∀ k, '\n' ∉ List.replicate k '0' ++ Nat.toDigits 10 units := fun k => by
      rw [List.mem_append, not_or]
      exact ⟨not_newline_of_mem_zeros, not_newline_of_mem_toDigits⟩
    exact ⟨fun h => hfilled _ (List.mem_of_mem_take h), by decide,
      fun h => hfilled _ (List.mem_of_mem_drop h)⟩

theorem oneLine_write (x : Float) : OneLine (write x) := by
  have hsign : OneLine (if (Fields.ofFloat x).negative then "-" else "") := by
    split <;> decide
  unfold write
  simp only
  split
  · split
    · exact oneLine_append.2 ⟨hsign, by decide⟩
    · decide
  · split
    · exact oneLine_append.2 ⟨hsign, by decide⟩
    · exact oneLine_append.2 ⟨hsign, oneLine_positional _ _⟩

end Decimal

/-! ## Properties and texts -/

namespace Css

theorem toLower_ne_newline {c : Char} (h : c.isUpper = true) : c.toLower ≠ '\n' := by
  intro heq
  have halpha : c.toLower.isAlpha = true := by
    rw [Char.isAlpha_toLower_eq_isAlpha, Char.isAlpha, h, Bool.true_or]
  rw [heq] at halpha
  exact absurd halpha (by decide)

theorem not_newline_of_mem_hyphenateChars {cs : List Char} (h : '\n' ∉ cs) :
    '\n' ∉ hyphenateChars cs := by
  intro hmem
  obtain ⟨c, hc, hn⟩ := List.mem_flatMap.1 hmem
  unfold hyphenateChar at hn
  split at hn
  · rcases List.mem_cons.1 hn with hn | hn
    · exact absurd hn (by decide)
    · exact toLower_ne_newline ‹_› (List.mem_singleton.1 hn).symm
  · exact h (List.mem_singleton.1 hn ▸ hc)

theorem oneLine_hyphenate {property : String} (h : OneLine property) :
    OneLine (hyphenate property) := by
  have hchars := not_newline_of_mem_hyphenateChars h
  unfold hyphenate
  split
  · next heq =>
    rw [heq] at hchars
    rw [oneLine_ofList, List.mem_cons, not_or]
    exact ⟨by decide, hchars⟩
  · exact oneLine_ofList.2 hchars

theorem not_newline_of_mem_escapeChar {c : Char} (hc : c ≠ '\n') {cs : List Char} (h : '\n' ∉ cs) :
    '\n' ∉ escapeChar c cs := by
  intro hmem
  obtain ⟨d, hd, hn⟩ := List.mem_flatMap.1 hmem
  split at hn
  · rcases List.mem_cons.1 hn with hn | hn
    · exact absurd hn (by decide)
    · exact hc (List.mem_singleton.1 hn).symm
  · exact h (List.mem_singleton.1 hn ▸ hd)

theorem oneLine_contentValue {s : String} (h : OneLine s) : OneLine (contentValue s) := by
  unfold contentValue
  split
  · exact h
  · have hescaped := not_newline_of_mem_escapeChar (c := '"') (by decide)
      (not_newline_of_mem_escapeChar (c := '\\') (by decide) h)
    rw [quote, oneLine_ofList, List.mem_append, List.mem_cons, not_or, not_or]
    exact ⟨⟨by decide, hescaped⟩, by decide⟩

/-- A declaration is on one line if its property and its text are. -/
theorem oneLine_declaration {property : String} (hproperty : OneLine property) {v : RuleValue}
    (hv : ∀ text, v = .text text → OneLine text) : OneLine (declaration property v) := by
  have hvalue : OneLine (value property v) := by
    cases v with
    | number x =>
      rw [value]
      split
      · exact Decimal.oneLine_write x
      · exact oneLine_append.2 ⟨Decimal.oneLine_write x, by decide⟩
    | text s =>
      rw [value]
      split
      · exact oneLine_contentValue (hv s rfl)
      · exact hv s rfl
  unfold declaration
  exact oneLine_append.2 ⟨oneLine_append.2 ⟨oneLine_append.2
    ⟨oneLine_hyphenate hproperty, by decide⟩, hvalue⟩, by decide⟩

end Css

end NestedStyles
