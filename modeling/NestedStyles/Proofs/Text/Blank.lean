import Mathlib
import NestedStyles.Text.Blank
/-!
# Blank texts and texts without blanks

A text is blank if all its parts are, and where there are no blanks, there is nothing to trim.
-/
namespace NestedStyles.Text

theorem isBlankText_append (a b : String) :
    isBlankText (a ++ b) = (isBlankText a && isBlankText b) := by
  rw [isBlankText, String.toList_append, List.all_append]
  rfl

theorem isBlank_of_isDigit {c : Char} (h : c.isDigit = true) : isBlank c = false := by
  rw [Char.isDigit_iff_toNat] at h
  change 48 ≤ c.toNat ∧ c.toNat ≤ 57 at h
  simp only [isBlank, blankRanges, List.any_cons, List.any_nil, Bool.or_false, Bool.or_eq_false_iff,
    Bool.and_eq_false_iff, decide_eq_false_iff_not, Nat.not_le]
  omega

theorem dropBlanks_of_forall {cs : List Char} (h : ∀ c ∈ cs, isBlank c = false) :
    dropBlanks cs = cs := by
  cases cs with
  | nil => rfl
  | cons c cs =>
    have hc : isBlank c = false := h c List.mem_cons_self
    simp [dropBlanks, hc]

/-- A text without blanks is its own trimmed text. -/
theorem trim_of_forall {s : String} (h : ∀ c ∈ s.toList, isBlank c = false) : trim s = s := by
  have hr : ∀ c ∈ s.toList.reverse, isBlank c = false := fun c hc => h c (List.mem_reverse.1 hc)
  rw [trim, dropBlanks_of_forall h, dropEndBlanks, dropBlanks_of_forall hr, List.reverse_reverse,
    String.ofList_toList]

end NestedStyles.Text
