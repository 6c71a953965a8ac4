import Mathlib
import NestedStyles.Css.Declaration
/-!
# Strings in the value of `content`

A quote that is opened in a declaration and not closed before its semicolon swallows the rules that
follow, and a line break in a string makes the string, and with it the declaration, invalid. Whether
this can happen to a text that `content` is given depends on the way that it takes: texts that are
quoted close their quotes but keep their line breaks, and texts that pass for literals are printed
as they are, whatever quotes they have.

* `Scanner` follows quotes and backslashes; `Closes` are the texts that it leaves as it enters them;
* `escape_eq`: escaping in two passes is escaping each character once; `scan_quote`: what is
  quoted closes, unless it has a line break;
* `closes_of_plain`, `closes_of_keyword`: texts without quotes and backslashes, among them the
  keywords, close;
* `content_ends_iff`: exactly when a declaration of `content` ends at its semicolon;
  `content_left_open`: texts for which it does not.
-/
namespace NestedStyles

/-! ## Trimmed texts -/

namespace Text

theorem mem_dropBlanks {c : Char} {cs : List Char} (h : c ∈ cs) :
    isBlank c = true ∨ c ∈ dropBlanks cs := by
  rw [← List.takeWhile_append_dropWhile (p := isBlank) (l := cs), List.mem_append] at h
  exact h.imp List.mem_takeWhile_imp id

/-- Only blanks are trimmed away. -/
theorem mem_trim {c : Char} {s : String} (h : c ∈ s.toList) :
    isBlank c = true ∨ c ∈ (trim s).toList := by
  rw [trim, String.toList_ofList, dropEndBlanks]
  rcases mem_dropBlanks h with hblank | hrest
  · exact Or.inl hblank
  · rw [List.mem_reverse]
    exact mem_dropBlanks (List.mem_reverse.2 hrest)

end Text

namespace Css

/-! ## Scanning strings -/

/-- The characters that end a line in CSS. -/
def isLineBreak (c : Char) : Bool := c = '\n' || c = '\r' || c = '\x0c'

/-- Where a reader of CSS is: in a string that a quote has opened or outside of strings, and just
behind a backslash or not. -/
structure Scanner where
  quote : Option Char
  escaped : Bool
  deriving DecidableEq, Repr

namespace Scanner

def outside : Scanner := ⟨none, false⟩

def quoted : Scanner := ⟨some '"', false⟩

/-- Reads a character: a backslash takes the next one with it, a quote opens a string that the same
quote closes, and in a string no line ends. -/
def step (s : Scanner) (c : Char) : Option Scanner :=
  if s.escaped then some { s with escaped := false }
  else if c = '\\' then some { s with escaped := true }
  else
    match s.quote with
    | none => some { s with quote := if c = '"' ∨ c = '\'' then some c else none }
    | some q =>
      if c = q then some { s with quote := none }
      else if isLineBreak c then none
      else some s

def scan (s : Scanner) (cs : List Char) : Option Scanner := cs.foldlM step s

theorem scan_append (s : Scanner) (cs ds : List Char) :
    s.scan (cs ++ ds) = (s.scan cs).bind (scan · ds) := List.foldlM_append

theorem scan_cons (s : Scanner) (c : Char) (cs : List Char) :
    s.scan (c :: cs) = (s.step c).bind (scan · cs) := List.foldlM_cons

/-- A backslash and a character that it takes with it. -/
theorem scan_pair (q : Option Char) (c : Char) (cs : List Char) :
    scan ⟨q, false⟩ ('\\' :: c :: cs) = scan ⟨q, false⟩ cs := rfl

theorem step_outside {c : Char} (hdouble : c ≠ '"') (hsingle : c ≠ '\'') (hescape : c ≠ '\\') :
    outside.step c = some outside := by
  simp [step, outside, hdouble, hsingle, hescape]

theorem step_quoted {c : Char} (hdouble : c ≠ '"') (hescape : c ≠ '\\') :
    quoted.step c = if isLineBreak c then none else some quoted := by
  simp [step, quoted, hdouble, hescape]

end Scanner

open Scanner (outside quoted scan_append scan_cons scan_pair step_outside step_quoted)

/-- Read from outside of strings, the text leads outside of strings again. -/
def Closes (text : String) : Prop := outside.scan text.toList = some outside

/-- The text ends at a semicolon that is outside of strings. -/
def EndsItself (text : String) : Prop :=
  text.toList.getLast? = some ';' ∧ outside.scan text.toList.dropLast = some outside

instance (text : String) : Decidable (Closes text) := inferInstanceAs (Decidable (_ = _))

instance (text : String) : Decidable (EndsItself text) := inferInstanceAs (Decidable (_ ∧ _))

theorem closes_of_plain {text : String}
    (h : ∀ c ∈ text.toList, c ≠ '"' ∧ c ≠ '\'' ∧ c ≠ '\\') : Closes text := by
  unfold Closes
  generalize text.toList = cs at h ⊢
  induction cs with
  | nil => rfl
  | cons c cs ih =>
    obtain ⟨hdouble, hsingle, hescape⟩ := h c List.mem_cons_self
    rw [scan_cons, step_outside hdouble hsingle hescape]
    exact ih fun d hd => h d (List.mem_cons_of_mem c hd)

/-! ## Quoting -/

/-- A character in a string in double quotes. -/
def escapeBoth (c : Char) : List Char := if c = '"' ∨ c = '\\' then ['\\', c] else [c]

/-- Backslashes are escaped before quotes, so those that are put before quotes stand alone. -/
theorem escape_eq (cs : List Char) :
    escapeChar '"' (escapeChar '\\' cs) = cs.flatMap escapeBoth := by
  unfold escapeChar
  rw [List.flatMap_assoc]
  congr 1
  funext c
  by_cases hescape : c = '\\'
  · subst hescape
    rfl
  · by_cases hdouble : c = '"'
    · subst hdouble
      rfl
    · simp [escapeBoth, hescape, hdouble]

theorem scan_escaped (cs : List Char) : quoted.scan (cs.flatMap escapeBoth)
    = if cs.any isLineBreak then none else some quoted := by
  induction cs with
  | nil => rfl
  | cons c cs ih =>
    rw [List.flatMap_cons, List.any_cons]
    by_cases hspecial : c = '"' ∨ c = '\\'
    · have hbreak : isLineBreak c = false := by rcases hspecial with rfl | rfl <;> rfl
      rw [escapeBoth, if_pos hspecial, hbreak, Bool.false_or, ← ih]
      exact scan_pair (some '"') c _
    · obtain ⟨hdouble, hescape⟩ := not_or.1 hspecial
      rw [escapeBoth, if_neg hspecial, List.singleton_append, scan_cons,
        step_quoted hdouble hescape]
      cases hbreak : isLineBreak c with
      | true => rfl
      | false =>
        rw [Bool.false_or, ← ih]
        rfl

/-- A quoted text is read to its end, unless a line ends in it. -/
theorem scan_quote (text : String) : outside.scan (quote text).toList
    = if text.toList.any isLineBreak then none else some outside := by
  have hopen : outside.step '"' = some quoted := rfl
  have hclose : quoted.scan ['"'] = some outside := rfl
  rw [quote, String.toList_ofList, List.cons_append, scan_cons, hopen, Option.bind_some,
    scan_append, escape_eq, scan_escaped]
  split
  · rfl
  · exact hclose

/-! ## Declarations of `content` -/

/-- The keywords have no quotes, and neither have the blanks around them. -/
theorem closes_of_keyword {text : String} (h : Text.trim text ∈ contentKeywords) :
    Closes text := by
  refine closes_of_plain fun c hc => ?_
  have hkeywords : contentKeywords.all fun word =>
      word.toList.all fun c => c ≠ '"' ∧ c ≠ '\'' ∧ c ≠ '\\' := by
    decide +kernel
  rcases Text.mem_trim hc with hblank | hword
  · refine ⟨?_, ?_, ?_⟩ <;> rintro rfl <;> cases hblank
  · have hplain := List.all_eq_true.1 (List.all_eq_true.1 hkeywords _ h) c hword
    exact of_decide_eq_true hplain

theorem endsItself_content (text : String) :
    EndsItself (declaration "content" (.text text)) ↔ Closes (contentValue text) := by
  have hchars : (declaration "content" (.text text)).toList
      = "content: ".toList ++ (contentValue text).toList ++ [';'] := by
    have hname : hyphenate "content" = "content" := by decide
    rw [declaration, hname]
    simp [value]
  have hname : outside.scan "content: ".toList = some outside := by decide
  unfold EndsItself Closes
  rw [hchars, List.getLast?_concat, List.dropLast_concat, scan_append, hname, Option.bind_some]
  exact and_iff_right rfl

/-- A declaration of `content` ends at its own semicolon if and only if its text passes for a literal
and closes the strings that it opens, or does not pass for one and has no line break. -/
theorem content_ends_iff (text : String) : EndsItself (declaration "content" (.text text)) ↔
    if isContentLiteral text then Closes text
    else ∀ c ∈ text.toList, isLineBreak c = false := by
  rw [endsItself_content, contentValue]
  split
  · exact Iff.rfl
  · unfold Closes
    rw [scan_quote]
    cases hany : text.toList.any isLineBreak with
    | true =>
      obtain ⟨c, hc, hbreak⟩ := List.any_eq_true.1 hany
      exact ⟨nofun, fun h => by rw [h c hc] at hbreak; cases hbreak⟩
    | false =>
      rw [List.any_eq_false] at hany
      exact ⟨fun _ c hc => Bool.eq_false_iff.2 (hany c hc), fun _ => rfl⟩

/-- A text that starts like a string, a text with a line break, and a text that looks like a function
call. -/
theorem content_left_open : ¬EndsItself (declaration "content" (.text "\"x"))
    ∧ ¬EndsItself (declaration "content" (.text "a\nb"))
    ∧ ¬EndsItself (declaration "content" (.text "attr('x)")) := by
  decide

end Css
end NestedStyles
