import NestedStyles.Proofs.ClassName.Readable
import NestedStyles.Proofs.ClassName.Stamped
/-!
# Class names as identifiers

A class name stands behind a dot in a selector, where an identifier of CSS belongs. A token is one
whatever its number, since it starts with `_`. Whether a readable name is one depends on its start:
characters are replaced one by one, without regard to where they stand, and digits and `-` are kept
also where no identifier can have them.

* `IsIdentifier` are the identifiers that are written without escapes, and `Starts` is what they say
  about the first two characters;
* `isIdentifier_token`: every token is an identifier;
* `isIdentifier_readable_iff`: a readable name is one if and only if it can start with the first of
  its parts (`CanStart`);
* `classFor_isIdentifier_iff`: both together, for a class that is named after any calls;
  `classFor_not_isIdentifier` is a class with a name that is none.
-/
namespace NestedStyles.ClassName

open Cache (Location Session Workspace)

/-! ## Identifiers -/

/-- Neither the first character is a digit, nor the one behind a `-` at the start. -/
structure Starts (cs : List Char) : Prop where
  first : ∀ c rest, cs = c :: rest → c.isDigit = false
  second : ∀ c rest, cs = '-' :: c :: rest → c.isDigit = false

/-- Letters, digits, `_` and `-` that are an identifier of CSS. -/
structure IsIdentifier (text : String) : Prop where
  ne_empty : text ≠ ""
  plain : ∀ c ∈ text.toList, c.isAlphanum = true ∨ c = '_' ∨ c = '-'
  starts : Starts text.toList
  ne_hyphen : text ≠ "-"

/-- What follows behind a `-` does not count. -/
theorem starts_append_hyphen {cs : List Char} (h : cs ≠ []) (rest : List Char) :
    Starts (cs ++ '-' :: rest) ↔ Starts cs := by
  have hhyphen : ('-' : Char).isDigit = false := by decide
  cases cs with
  | nil => exact absurd rfl h
  | cons c cs =>
    constructor
    · intro hs
      refine ⟨?_, ?_⟩
      · rintro d more hd
        cases hd
        exact hs.first c _ rfl
      · rintro d more hd
        cases hd
        exact hs.second d _ rfl
    · intro hs
      refine ⟨?_, ?_⟩
      · rintro d more hd
        cases hd
        exact hs.first c _ rfl
      · rintro d more hd
        cases cs with
        | nil =>
          cases hd
          exact hhyphen
        | cons e es =>
          cases hd
          exact hs.second d _ rfl

/-! ## Tokens -/

theorem isAlphanum_of_mem_digits36 (n : Nat) : ∀ c ∈ digits36 n, c.isAlphanum = true := by
  intro c hc
  have hdigit := isDigit36_of_mem_digits36 n c hc
  rw [isDigit36, Bool.or_eq_true] at hdigit
  rcases hdigit with hdigit | hlower
  · simp [Char.isAlphanum, hdigit]
  · simp [Char.isAlphanum, Char.isAlpha, hlower]

/-- Every token is an identifier. -/
theorem isIdentifier_token (n : Nat) : IsIdentifier (token n) := by
  have hlist : (token n).toList = '_' :: digits36 n := String.toList_ofList
  have hne {text : String} (htext : text.toList.head? ≠ some '_') : token n ≠ text := by
    rintro rfl
    rw [hlist] at htext
    exact htext rfl
  refine ⟨hne (by decide), fun c hc => ?_, ⟨fun c cs h => ?_, fun c cs h => ?_⟩, hne (by decide)⟩
  · rw [hlist, List.mem_cons] at hc
    exact hc.elim (fun h => Or.inr (Or.inl h)) fun h => Or.inl (isAlphanum_of_mem_digits36 n c h)
  · rw [hlist] at h
    cases h
    decide
  · rw [hlist] at h
    cases h

/-! ## Readable names -/

theorem isAlphanum_plainChar (c : Char) :
    (plainChar c).isAlphanum = true ∨ plainChar c = '_' ∨ plainChar c = '-' := by
  unfold plainChar
  split
  · next h => simpa [isPlain, or_assoc] using h
  · exact Or.inr (Or.inl rfl)

theorem isDigit_plainChar (c : Char) : (plainChar c).isDigit = c.isDigit := by
  unfold plainChar
  split
  · rfl
  · next h =>
    have hc : c.isDigit = false := by
      cases hd : c.isDigit with
      | false => rfl
      | true => exact absurd (by simp [isPlain, Char.isAlphanum, hd]) h
    rw [hc]
    decide

theorem plainChar_eq_hyphen {c : Char} : plainChar c = '-' ↔ c = '-' := by
  unfold plainChar
  split
  · exact Iff.rfl
  · next h =>
    have hne : c ≠ '-' := by
      rintro rfl
      exact h (by decide)
    simp [hne]

/-- The replaced characters make no difference to how a part starts. -/
theorem starts_plainPart {part : String} : Starts (plainPart part) ↔ Starts part.toList := by
  unfold plainPart
  constructor
  · intro h
    refine ⟨fun c rest hc => ?_, fun c rest hc => ?_⟩
    · rw [← isDigit_plainChar]
      exact h.first _ (rest.map plainChar) (by rw [hc, List.map_cons])
    · rw [← isDigit_plainChar]
      refine h.second _ (rest.map plainChar) ?_
      rw [hc, List.map_cons, List.map_cons, plainChar_eq_hyphen.2 rfl]
  · intro h
    refine ⟨fun c rest hc => ?_, fun c rest hc => ?_⟩
    · obtain ⟨c, rest, hpart, rfl, -⟩ := List.map_eq_cons_iff.1 hc
      rw [isDigit_plainChar]
      exact h.first c rest hpart
    · obtain ⟨c, rest, hpart, hhyphen, hc⟩ := List.map_eq_cons_iff.1 hc
      obtain ⟨d, rest, rfl, rfl, -⟩ := List.map_eq_cons_iff.1 hc
      rw [isDigit_plainChar]
      exact h.second d rest (plainChar_eq_hyphen.1 hhyphen ▸ hpart)

/-- A name can start with the first of these parts: no digit stands where none may, and the part is
not a `-` that is all there is. -/
def CanStart (parts : List String) : Prop := ∀ part rest, parts = part :: rest →
  Starts part.toList ∧ (part = "-" → rest ≠ [])

theorem canStart_cons {part : String} {rest : List String} :
    CanStart (part :: rest) ↔ Starts part.toList ∧ (part = "-" → rest ≠ []) := by
  refine ⟨fun h => h part rest rfl, ?_⟩
  rintro h _ _ hparts
  cases hparts
  exact h

section Readable

variable {prefixes : List String} {name : String}

theorem mem_intercalate_hyphen {c : Char} : ∀ {xs : List (List Char)},
    c ∈ ['-'].intercalate xs → c = '-' ∨ ∃ x ∈ xs, c ∈ x
  | [], h => by cases h
  | [x], h => Or.inr ⟨x, List.mem_singleton_self x, by simpa using h⟩
  | x :: y :: ys, h => by
    rw [List.intercalate_cons_cons, List.mem_append, List.mem_append, List.mem_singleton] at h
    rcases h with (h | h) | h
    · exact Or.inr ⟨x, List.mem_cons_self, h⟩
    · exact Or.inl h
    · exact (mem_intercalate_hyphen h).imp_right fun ⟨z, hz, hc⟩ =>
        ⟨z, List.mem_cons_of_mem x hz, hc⟩

theorem plain_of_mem_readable : ∀ c ∈ (readable prefixes name).toList,
    c.isAlphanum = true ∨ c = '_' ∨ c = '-' := by
  intro c hc
  rw [toList_readable] at hc
  rcases mem_intercalate_hyphen hc with rfl | ⟨part, hpart, hc⟩
  · exact Or.inr (Or.inr rfl)
  · obtain ⟨text, -, rfl⟩ := List.mem_map.1 hpart
    obtain ⟨d, -, rfl⟩ := List.mem_map.1 hc
    exact isAlphanum_plainChar d

theorem plainPart_eq_hyphen {part : String} : plainPart part = ['-'] ↔ part = "-" := by
  rw [plainPart, List.map_eq_singleton_iff, ← String.toList_inj]
  simp [plainChar_eq_hyphen]

/-- The name starts with a part that is there, and other parts stand behind a `-`. -/
theorem toList_readable_cases (prefixes : List String) (hname : name ≠ "") : ∃ part rest,
    presentParts prefixes name = part :: rest ∧ plainPart part ≠ []
      ∧ (rest = [] ∧ (readable prefixes name).toList = plainPart part
        ∨ rest ≠ [] ∧ ∃ more, (readable prefixes name).toList = plainPart part ++ '-' :: more) := by
  have hmem : name ∈ presentParts prefixes name := List.mem_filter.2 ⟨by simp, by simpa using hname⟩
  have htext := toList_readable prefixes name
  cases hparts : presentParts prefixes name with
  | nil =>
    rw [hparts] at hmem
    cases hmem
  | cons part rest =>
    have hpart : part ∈ presentParts prefixes name := hparts ▸ List.mem_cons_self
    have hne : plainPart part ≠ [] :=
      mt plainPart_eq_nil.1 (of_decide_eq_true (List.mem_filter.1 hpart).2)
    rw [hparts] at htext
    refine ⟨part, rest, rfl, hne, ?_⟩
    cases rest with
    | nil => exact Or.inl ⟨rfl, by simpa using htext⟩
    | cons next rest =>
      rw [List.map_cons, List.map_cons, List.intercalate_cons_cons, List.append_assoc] at htext
      exact Or.inr ⟨List.cons_ne_nil next rest, _, htext⟩

theorem readable_ne_empty (prefixes : List String) (hname : name ≠ "") :
    readable prefixes name ≠ "" := by
  obtain ⟨part, rest, -, hne, hcases⟩ := toList_readable_cases prefixes hname
  rw [← String.toList_inj.ne]
  rcases hcases with ⟨-, htext⟩ | ⟨-, more, htext⟩ <;> simp [htext, hne]

/-- A readable name is an identifier if and only if it can start with the first part that is
there. -/
theorem isIdentifier_readable_iff (prefixes : List String) (hname : name ≠ "") :
    IsIdentifier (readable prefixes name) ↔ CanStart (presentParts prefixes name) := by
  obtain ⟨part, rest, hparts, hne, hcases⟩ := toList_readable_cases prefixes hname
  have hstarts : Starts (readable prefixes name).toList ↔ Starts part.toList := by
    rw [← @starts_plainPart part]
    rcases hcases with ⟨-, htext⟩ | ⟨-, more, htext⟩
    · rw [htext]
    · rw [htext, starts_append_hyphen hne]
  have hhyphen : readable prefixes name ≠ "-" ↔ (part = "-" → rest ≠ []) := by
    rw [← plainPart_eq_hyphen, ← String.toList_inj.ne]
    rcases hcases with ⟨hrest, htext⟩ | ⟨hrest, more, htext⟩
    · simp [htext, hrest]
    · simp [htext, hrest, hne, List.append_eq_singleton_iff]
  rw [hparts, canStart_cons, ← hstarts, ← hhyphen]
  exact ⟨fun h => ⟨h.starts, h.ne_hyphen⟩, fun h =>
    ⟨readable_ne_empty prefixes hname, plain_of_mem_readable, h.1, h.2⟩⟩

end Readable

/-! ## Classes -/

section Classes

variable {loc : Location} {w : Workspace}

/-- The name of a class for a style, whatever has been named before, is not empty and has no other
characters than an identifier may have. It is an identifier if names are compressed; and if they are
not, it is one if and only if it can start with the first part that is there. -/
theorem classFor_isIdentifier_iff (hfresh : loc.Fresh w) (calls : List Call) (i : Nat)
    (prefixes : List String) (compress : Bool) {style : String} (hstyle : style ≠ "")
    {text : String}
    (htext : (((Session.start loc w).run loc (calls.map Call.request)).2.use i
      (classFor prefixes compress style)).1 = .ok text) :
    text ≠ "" ∧ (∀ c ∈ text.toList, c.isAlphanum = true ∨ c = '_' ∨ c = '-')
      ∧ (IsIdentifier text ↔ compress = true ∨ CanStart (presentParts prefixes style)) := by
  cases compress with
  | true =>
    obtain ⟨n, rfl⟩ := token_of_use hfresh calls htext
    have h := isIdentifier_token n
    exact ⟨h.ne_empty, h.plain, fun _ => Or.inl rfl, fun _ => h⟩
  | false =>
    have hreadable : (((Session.start loc w).run loc (calls.map Call.request)).2.use i
        (classFor prefixes false style)).1 = .ok (readable prefixes style) :=
      Session.use_of_forall (fun _ => rfl) _ i
    cases hreadable.symm.trans htext
    refine ⟨readable_ne_empty prefixes hstyle, plain_of_mem_readable, ?_⟩
    rw [isIdentifier_readable_iff prefixes hstyle]
    simp

/-- A class in a sheet called `s` of a file `2col`, named after another one. -/
theorem classFor_isIdentifier_iff_col : (Location.memory "n").Fresh Workspace.bare ∧ "a" ≠ ""
    ∧ (((Session.start (.memory "n") .bare).run (.memory "n")
      ([Call.compress 0 "b"].map Call.request)).2.use 0
        (classFor ["2col", "s"] true "a")).1 = .ok "_1"
    ∧ ("_1" ≠ "" ∧ (∀ c ∈ "_1".toList, c.isAlphanum = true ∨ c = '_' ∨ c = '-')
      ∧ (IsIdentifier "_1" ↔ true = true ∨ CanStart (presentParts ["2col", "s"] "a"))) := by
  have hfresh : (Location.memory "n").Fresh Workspace.bare := rfl
  have htext : (((Session.start (.memory "n") .bare).run (.memory "n")
      ([Call.compress 0 "b"].map Call.request)).2.use 0
        (classFor ["2col", "s"] true "a")).1 = .ok "_1" := by
    cbv
  exact ⟨hfresh, by decide, htext,
    classFor_isIdentifier_iff hfresh [.compress 0 "b"] 0 ["2col", "s"] true (by decide) htext⟩

/-- If names are not compressed, the same class has a name that starts with a digit. -/
theorem classFor_not_isIdentifier : (Location.memory "n").Fresh Workspace.bare ∧ "a" ≠ ""
    ∧ (((Session.start (.memory "n") .bare).run (.memory "n") []).2.use 0
      (classFor ["2col", "s"] false "a")).1 = .ok "2col-s-a" ∧ ¬IsIdentifier "2col-s-a" := by
  refine ⟨rfl, by decide, rfl, fun h => ?_⟩
  have hdigit := h.starts.first '2' _ rfl
  cases hdigit

end Classes

end NestedStyles.ClassName
