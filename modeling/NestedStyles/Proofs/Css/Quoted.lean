import Mathlib
import NestedStyles.Proofs.Css.Content
/-!
# Quoted texts are read back

A text that is not printed as it is stands between double quotes, and every quote and every backslash
in it has a backslash in front. A backslash takes the next character with it, so a reader finds the
closing quote where it is, and the text behind the backslashes.

* `Escapes` says that the last backslash in front of a place takes the character there with it;
* `split_escaped`: a place in an escaped text is between what stands for two characters, or behind the
  backslash of one;
* `unescape` takes the backslashes off again: `unescape_escaped`;
* `quoted_reads_back`: where the quotes of a quoted text are, and what it says.
-/
namespace NestedStyles.Css

/-! ## Escaped places -/

/-- The character behind these ones is escaped: the backslashes at their end are an odd number, so the
last of them is not escaped itself. -/
def Escapes (front : List Char) : Prop := Odd (front.rtakeWhile (· = '\\')).length

theorem not_escapes_nil : ¬Escapes [] := by
  rw [Escapes, List.rtakeWhile_nil, List.length_nil]
  decide

theorem escapes_concat (front : List Char) (c : Char) :
    Escapes (front ++ [c]) ↔ c = '\\' ∧ ¬Escapes front := by
  unfold Escapes
  rw [List.rtakeWhile_concat]
  by_cases hc : c = '\\'
  · rw [if_pos (decide_eq_true hc), List.length_append, List.length_singleton, Nat.odd_add_one]
    exact (and_iff_right hc).symm
  · rw [if_neg (by simpa using hc)]
    exact iff_of_false (by decide) fun h => hc h.1

/-- Behind a place that is not escaped only the characters behind it count. -/
theorem escapes_append {front : List Char} (h : ¬Escapes front) (more : List Char) :
    Escapes (front ++ more) ↔ Escapes more := by
  induction more using List.reverseRecOn with
  | nil =>
    rw [List.append_nil]
    exact iff_of_false h not_escapes_nil
  | append_singleton more c ih =>
    rw [← List.append_assoc, escapes_concat, escapes_concat, ih]

theorem escapes_backslash : Escapes ['\\'] := (escapes_concat [] _).2 ⟨rfl, not_escapes_nil⟩

theorem not_escapes_singleton {c : Char} (hc : c ≠ '\\') : ¬Escapes [c] := fun h =>
  hc ((escapes_concat [] c).1 h).1

/-! ## Escaped texts -/

theorem not_escapes_escapeBoth (c : Char) : ¬Escapes (escapeBoth c) := by
  unfold escapeBoth
  split
  · exact fun h => ((escapes_concat ['\\'] c).1 h).2 escapes_backslash
  · next hspecial => exact not_escapes_singleton fun hc => hspecial (Or.inr hc)

theorem not_escapes_escaped (cs : List Char) : ¬Escapes (cs.flatMap escapeBoth) := by
  induction cs with
  | nil => exact not_escapes_nil
  | cons c cs ih => rwa [List.flatMap_cons, escapes_append (not_escapes_escapeBoth c)]

/-- An escaped text starts with a backslash and the character that it is for, or with a character
that needs none. -/
theorem head_escaped {cs rest : List Char} {d : Char} (h : cs.flatMap escapeBoth = d :: rest) :
    d = '\\' ∧ (∃ c more, rest = c :: more ∧ (c = '"' ∨ c = '\\')) ∨ d ≠ '\\' ∧ d ≠ '"' := by
  cases cs with
  | nil => cases h
  | cons c cs =>
    rw [List.flatMap_cons, escapeBoth] at h
    split at h
    · next hspecial =>
      cases h
      exact Or.inl ⟨rfl, c, _, rfl, hspecial⟩
    · next hspecial =>
      cases h
      exact Or.inr ⟨fun hc => hspecial (Or.inr hc), fun hc => hspecial (Or.inl hc)⟩

/-- Inside of what stands for a character there is only the place behind a backslash. -/
theorem split_escapeBoth {c : Char} {front back : List Char} (h : escapeBoth c = front ++ back) :
    front = [] ∨ back = [] ∨ front = ['\\'] ∧ back = [c] ∧ (c = '"' ∨ c = '\\') := by
  unfold escapeBoth at h
  split at h
  · next hspecial =>
    match front, h with
    | [], _ => exact Or.inl rfl
    | [_], h =>
      cases h
      exact Or.inr (Or.inr ⟨rfl, rfl, hspecial⟩)
    | [_, _], h =>
      cases h
      exact Or.inr (Or.inl rfl)
  · match front, h with
    | [], _ => exact Or.inl rfl
    | [_], h =>
      cases h
      exact Or.inr (Or.inl rfl)

/-- A place in an escaped text is just behind the backslash of a character that needs one, or it is
not escaped, and an escaped text follows. -/
theorem split_escaped {cs front back : List Char} (h : cs.flatMap escapeBoth = front ++ back) :
    (Escapes front ∧ ∃ c rest, back = c :: rest ∧ (c = '"' ∨ c = '\\'))
    ∨ ¬Escapes front ∧ ∃ ds : List Char, back = ds.flatMap escapeBoth := by
  induction cs generalizing front with
  | nil =>
    obtain ⟨rfl, rfl⟩ := List.append_eq_nil_iff.1 h.symm
    exact Or.inr ⟨not_escapes_nil, [], rfl⟩
  | cons c cs ih =>
    rw [List.flatMap_cons] at h
    -- the place is behind what stands for the first character, or in it
    rcases List.append_eq_append_iff.1 h with ⟨front', rfl, hrest⟩ | ⟨middle, hcode, rfl⟩
    · rw [escapes_append (not_escapes_escapeBoth c)]
      exact ih hrest
    · rcases split_escapeBoth hcode with rfl | rfl | ⟨rfl, rfl, hspecial⟩
      · refine Or.inr ⟨not_escapes_nil, c :: cs, ?_⟩
        rw [List.flatMap_cons, hcode, List.nil_append]
      · rw [List.append_nil] at hcode
        exact Or.inr ⟨hcode ▸ not_escapes_escapeBoth c, cs, rfl⟩
      · exact Or.inl ⟨escapes_backslash, c, _, rfl, hspecial⟩

/-- A double quote in an escaped text is escaped. -/
theorem escapes_of_quote {cs front back : List Char}
    (h : cs.flatMap escapeBoth = front ++ '"' :: back) : Escapes front := by
  rcases split_escaped h with ⟨hfront, -⟩ | ⟨-, ds, hds⟩
  · exact hfront
  · rcases head_escaped hds.symm with ⟨hquote, -⟩ | ⟨-, hquote⟩
    · exact absurd hquote (by decide)
    · exact absurd rfl hquote

/-- A backslash in an escaped text that is not escaped has something to escape behind it. -/
theorem exists_of_backslash {cs front back : List Char}
    (h : cs.flatMap escapeBoth = front ++ '\\' :: back) (hfront : ¬Escapes front) :
    ∃ c rest, back = c :: rest ∧ (c = '"' ∨ c = '\\') := by
  rcases split_escaped h with ⟨hescapes, -⟩ | ⟨-, ds, hds⟩
  · exact absurd hescapes hfront
  · rcases head_escaped hds.symm with ⟨-, hnext⟩ | ⟨hplain, -⟩
    · exact hnext
    · exact absurd rfl hplain

/-! ## Taking the backslashes off -/

/-- Each backslash with a backslash or a double quote behind it replaced by what is behind it. -/
def unescape : List Char → List Char
  | '\\' :: c :: cs =>
    if c = '"' ∨ c = '\\' then c :: unescape cs else '\\' :: unescape (c :: cs)
  | c :: cs => c :: unescape cs
  | [] => []

theorem unescape_pair {c : Char} (hc : c = '"' ∨ c = '\\') (cs : List Char) :
    unescape ('\\' :: c :: cs) = c :: unescape cs := by
  rw [unescape, if_pos hc]

theorem unescape_plain {c : Char} (hc : c ≠ '\\') (cs : List Char) :
    unescape (c :: cs) = c :: unescape cs := by
  rw [unescape]
  rintro d ds rfl
  exact absurd rfl hc

theorem unescape_escaped (cs : List Char) : unescape (cs.flatMap escapeBoth) = cs := by
  induction cs with
  | nil => rfl
  | cons c cs ih =>
    rw [List.flatMap_cons, escapeBoth]
    split
    · next hspecial =>
      rw [List.cons_append, List.singleton_append, unescape_pair hspecial, ih]
    · next hspecial =>
      rw [List.singleton_append, unescape_plain (fun hc => hspecial (Or.inr hc)), ih]

/-! ## Quoted texts -/

/-- What stands between double quotes and says `text`: of the double quotes only the first and the
last one are not escaped, every backslash that is not escaped has something to escape in front of the
last one, and the text is there without the backslashes. -/
structure Says (body : List Char) (text : String) : Prop where
  bare : ∀ front back, '"' :: body ++ ['"'] = front ++ '"' :: back →
    (¬Escapes front ↔ front = [] ∨ back = [])
  complete : ∀ front back, '"' :: body = front ++ '\\' :: back → ¬Escapes front →
    ∃ c rest, back = c :: rest ∧ (c = '"' ∨ c = '\\')
  undone : unescape body = text.toList

theorem escapes_behind_quote (front : List Char) : Escapes ('"' :: front) ↔ Escapes front :=
  escapes_append (not_escapes_singleton (by decide)) front

theorem says_escaped (text : String) : Says (text.toList.flatMap escapeBoth) text where
  bare := by
    intro front back h
    cases front with
    | nil => exact iff_of_true not_escapes_nil (Or.inl rfl)
    | cons d front =>
      rw [List.cons_append, List.cons_append, List.cons.injEq] at h
      obtain ⟨rfl, h⟩ := h
      rw [escapes_behind_quote]
      -- the double quote is the closing one, or one of the body
      rcases List.eq_nil_or_concat back with rfl | ⟨back', last, rfl⟩
      · obtain ⟨rfl, -⟩ := List.append_inj' h rfl
        exact iff_of_true (not_escapes_escaped _) (Or.inr rfl)
      · rw [List.concat_eq_append, ← List.cons_append, ← List.append_assoc] at h
        obtain ⟨hbody, -⟩ := List.append_inj' h rfl
        exact iff_of_false (fun hnot => hnot (escapes_of_quote hbody)) (by simp)
  complete := by
    intro front back h hfront
    cases front with
    | nil => cases h
    | cons d front =>
      rw [List.cons_append, List.cons.injEq] at h
      obtain ⟨rfl, h⟩ := h
      rw [escapes_behind_quote] at hfront
      exact exists_of_backslash h hfront
  undone := unescape_escaped _

theorem Says.eq {body : List Char} {text other : String} (h : Says body text)
    (hother : Says body other) : text = other :=
  String.toList_injective (h.undone.symm.trans hother.undone)

/-! ## Values -/

theorem quote_eq (text : String) :
    quote text = .ofList ('"' :: text.toList.flatMap escapeBoth ++ ['"']) := by
  rw [quote, escape_eq]

theorem length_le_escaped (cs : List Char) : cs.length ≤ (cs.flatMap escapeBoth).length := by
  induction cs with
  | nil => exact Nat.le_refl 0
  | cons c cs ih =>
    have hcode : 1 ≤ (escapeBoth c).length := by
      unfold escapeBoth
      split <;> simp
    rw [List.flatMap_cons, List.length_append, List.length_cons]
    omega

theorem quote_ne (text : String) : quote text ≠ text := by
  intro h
  have hescaped := length_le_escaped text.toList
  have hlength := congrArg (fun s : String => s.toList.length) h
  simp only [quote_eq, String.toList_ofList, List.cons_append, List.length_cons, List.length_append]
    at hlength
  omega

/-- Which texts are not printed as they are. -/
theorem value_ne_iff {property text : String} : value property (.text text) ≠ text
    ↔ property = "content" ∧ isContentLiteral text = false := by
  by_cases hproperty : property = "content"
  · rw [value, if_pos hproperty, contentValue]
    cases hliteral : isContentLiteral text with
    | true => simp
    | false => simpa [hproperty] using quote_ne text
  · rw [value, if_neg hproperty]
    exact iff_of_false (fun hne => hne rfl) fun h => hproperty h.1

theorem value_of_ne {property text : String} (h : value property (.text text) ≠ text) :
    value property (.text text) = .ofList ('"' :: text.toList.flatMap escapeBoth ++ ['"']) := by
  obtain ⟨rfl, hliteral⟩ := value_ne_iff.1 h
  rw [value, if_pos rfl, contentValue, hliteral, if_neg Bool.false_ne_true, quote_eq]

/-- A text that is not printed as it is stands between double quotes, from which it can be read back,
and no other such text has the same declaration. -/
theorem quoted_reads_back {property text : String} (h : value property (.text text) ≠ text) :
    (∃ body, declaration property (.text text)
        = hyphenate property ++ ": " ++ .ofList ('"' :: body ++ ['"']) ++ ";" ∧ Says body text)
    ∧ ∀ other, value property (.text other) ≠ other →
      declaration property (.text other) = declaration property (.text text) → other = text := by
  refine ⟨⟨text.toList.flatMap escapeBoth, ?_, says_escaped text⟩, fun other hother hsame => ?_⟩
  · rw [declaration, value_of_ne h]
  · rw [declaration, declaration, String.append_left_inj, String.append_right_inj, value_of_ne h,
      value_of_ne hother] at hsame
    have hbody : other.toList.flatMap escapeBoth = text.toList.flatMap escapeBoth := by
      have hchars := (List.cons.inj (String.ofList_injective hsame)).2
      exact (List.append_inj' hchars rfl).1
    have hsays : Says (text.toList.flatMap escapeBoth) other := hbody ▸ says_escaped other
    exact hsays.eq (says_escaped text)

/-- Two texts of which one has a backslash before its double quote. -/
theorem quoted_reads_back_backslash : value "content" (.text "a\\\"") ≠ "a\\\""
    ∧ (∃ body, declaration "content" (.text "a\\\"")
      = hyphenate "content" ++ ": " ++ .ofList ('"' :: body ++ ['"']) ++ ";" ∧ Says body "a\\\"")
    ∧ declaration "content" (.text "a\"") ≠ declaration "content" (.text "a\\\"") := by
  have h : value "content" (.text "a\\\"") ≠ "a\\\"" := by decide
  refine ⟨h, (quoted_reads_back h).1, fun hsame => ?_⟩
  exact absurd ((quoted_reads_back h).2 "a\"" (by decide) hsame) (by decide)

end NestedStyles.Css
