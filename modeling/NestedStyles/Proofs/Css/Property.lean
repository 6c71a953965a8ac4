import Mathlib
import NestedStyles.Css.Declaration
/-!
# Spellings of properties

A property has several spellings: any letter may be written in upper case in place of a hyphen and
the letter. Which property it is, `hyphenate` tells; whether its numbers have no unit is looked up
under the spelling itself, and only under the one in camel case.

* `hyphenateChars_injective`: without hyphens there is one spelling, but for the first letter of the
  vendor prefix `ms` (`eq_or_ms_of_hyphenate_eq`);
* `hyphenate_eq_self`: what has no hyphen in the end has not been changed, so that `content` has one
  spelling only;
* `hyphenate_eq_iff`: which spellings are of one property, and that a name in CSS is a spelling of
  itself (`hyphenate_hyphenate`);
* `declaration_eq_iff`: two spellings of a property have the same declarations, except that of
  numbers if one of them is listed without a unit and the other is not; `declaration_ne`: such a
  property.
-/
namespace NestedStyles.Css

/-! ## Letters -/

/-- The upper case of a letter can be read off its lower case. -/
theorem toLower_injective {c d : Char} (hc : c.isUpper = true) (hd : d.isUpper = true)
    (h : c.toLower = d.toLower) : c = d := by
  have hself : ∀ {c : Char}, c.isUpper = true → c.toLower.toUpper = c := fun hc => by
    rw [Char.toUpper_toLower_eq_toUpper,
      Char.toUpper_eq_of_not_isLower (Char.not_isLower_of_isUpper hc)]
  rw [← hself hc, h, hself hd]

variable {cs ds : List Char} {p q : String}

theorem hyphenateChar_ne_nil (c : Char) : hyphenateChar c ≠ [] := by
  unfold hyphenateChar
  split <;> exact List.cons_ne_nil _ _

theorem hyphenateChars_cons (c : Char) (cs : List Char) :
    hyphenateChars (c :: cs) = hyphenateChar c ++ hyphenateChars cs := List.flatMap_cons

/-- The first letter of a spelling without hyphens, from what stands for it. -/
theorem cons_of_hyphenateChars {c : Char} {rest : List Char} (hcs : '-' ∉ cs)
    (h : hyphenateChars cs = c :: rest) : ∃ ds,
      (c ≠ '-' ∧ c.isUpper = false ∧ cs = c :: ds ∧ hyphenateChars ds = rest)
      ∨ ∃ d, c = '-' ∧ d.isUpper = true ∧ cs = d :: ds ∧ d.toLower :: hyphenateChars ds = rest := by
  cases cs with
  | nil => cases h
  | cons d ds =>
    rw [hyphenateChars_cons, hyphenateChar] at h
    refine ⟨ds, ?_⟩
    split at h
    · next hupper =>
      cases h
      exact Or.inr ⟨d, rfl, hupper, rfl, rfl⟩
    · next hupper =>
      cases h
      refine Or.inl ⟨?_, Bool.eq_false_iff.2 hupper, rfl, rfl⟩
      rintro rfl
      exact hcs List.mem_cons_self

theorem hyphenateChars_injective (hcs : '-' ∉ cs) (hds : '-' ∉ ds)
    (h : hyphenateChars cs = hyphenateChars ds) : cs = ds := by
  induction cs generalizing ds with
  | nil =>
    cases ds with
    | nil => rfl
    | cons d ds =>
      rw [hyphenateChars_cons] at h
      exact absurd h.symm (List.append_ne_nil_of_left_ne_nil (hyphenateChar_ne_nil d) _)
  | cons c cs ih =>
    have hcs' : '-' ∉ cs := fun hmem => hcs (List.mem_cons_of_mem c hmem)
    rw [hyphenateChars_cons, hyphenateChar] at h
    split at h
    · next hupper =>
      obtain ⟨ds', ⟨hne, -⟩ | ⟨d, -, hd, rfl, hrest⟩⟩ := cons_of_hyphenateChars hds h.symm
      · exact absurd rfl hne
      · injection hrest with hlower hrest
        rw [toLower_injective hd hupper hlower,
          ih hcs' (fun hmem => hds (List.mem_cons_of_mem d hmem)) hrest.symm]
    · obtain ⟨ds', ⟨-, -, rfl, hrest⟩ | ⟨d, rfl, -⟩⟩ := cons_of_hyphenateChars hds h.symm
      · rw [ih hcs' (fun hmem => hds (List.mem_cons_of_mem c hmem)) hrest.symm]
      · exact absurd List.mem_cons_self hcs

/-! ## The vendor prefix -/

theorem toList_hyphenate_of_ms {rest : List Char}
    (h : hyphenateChars p.toList = 'm' :: 's' :: '-' :: rest) :
    (hyphenate p).toList = '-' :: hyphenateChars p.toList := by
  rw [hyphenate, h]
  exact String.toList_ofList

theorem toList_hyphenate_of_not_ms
    (h : ¬∃ rest, hyphenateChars p.toList = 'm' :: 's' :: '-' :: rest) :
    (hyphenate p).toList = hyphenateChars p.toList := by
  unfold hyphenate
  split
  · next rest hms => exact absurd ⟨rest, hms⟩ h
  · exact String.toList_ofList

theorem toList_hyphenate (p : String) :
    (∃ rest, hyphenateChars p.toList = 'm' :: 's' :: '-' :: rest
        ∧ (hyphenate p).toList = '-' :: hyphenateChars p.toList)
    ∨ (hyphenate p).toList = hyphenateChars p.toList := by
  by_cases h : ∃ rest, hyphenateChars p.toList = 'm' :: 's' :: '-' :: rest
  · obtain ⟨rest, hms⟩ := h
    exact Or.inl ⟨rest, hms, toList_hyphenate_of_ms hms⟩
  · exact Or.inr (toList_hyphenate_of_not_ms h)

/-- The two spellings of a property with the vendor prefix `ms`. -/
def MsSpellings (p q : String) : Prop := ∃ c rest, c.isUpper = true
  ∧ p.toList = 'm' :: 's' :: c :: rest ∧ q.toList = 'M' :: 's' :: c :: rest

theorem msSpellings_of_hyphenateChars {rest : List Char} (hp : '-' ∉ p.toList)
    (hq : '-' ∉ q.toList) (hms : hyphenateChars p.toList = 'm' :: 's' :: '-' :: rest)
    (h : hyphenateChars q.toList = '-' :: hyphenateChars p.toList) : MsSpellings p q := by
  rw [hms] at h
  obtain ⟨ps, ⟨-, -, hp₁, hps⟩ | ⟨c, hc, -⟩⟩ := cons_of_hyphenateChars hp hms
  swap
  · exact absurd hc (by decide)
  obtain ⟨qs, ⟨hne, -⟩ | ⟨d, -, hd, hq₁, hqs⟩⟩ := cons_of_hyphenateChars hq h
  · exact absurd rfl hne
  rw [hp₁] at hp
  rw [hq₁] at hq
  have hp' : '-' ∉ ps := fun hmem => hp (List.mem_cons_of_mem _ hmem)
  have hq' : '-' ∉ qs := fun hmem => hq (List.mem_cons_of_mem _ hmem)
  injection hqs with hm hqs
  obtain rfl : d = 'M' := toLower_injective hd (by decide) hm
  obtain rfl : qs = ps := hyphenateChars_injective hq' hp' (hqs.trans hps.symm)
  obtain ⟨ts, ⟨-, -, rfl, hts⟩ | ⟨c, hc, -⟩⟩ := cons_of_hyphenateChars hp' hps
  swap
  · exact absurd hc (by decide)
  obtain ⟨us, ⟨hne, -⟩ | ⟨c, -, hupper, rfl, -⟩⟩ :=
    cons_of_hyphenateChars (fun hmem => hp' (List.mem_cons_of_mem _ hmem)) hts
  · exact absurd rfl hne
  exact ⟨c, us, hupper, hp₁, hq₁⟩

/-- Without hyphens a property has one spelling, or the two of the vendor prefix. -/
theorem eq_or_ms_of_hyphenate_eq (hp : '-' ∉ p.toList) (hq : '-' ∉ q.toList)
    (h : hyphenate p = hyphenate q) : p = q ∨ MsSpellings p q ∨ MsSpellings q p := by
  have hchars := congrArg String.toList h
  rcases toList_hyphenate p with ⟨rest, hms, hp'⟩ | hp' <;>
    rcases toList_hyphenate q with ⟨rest', hms', hq'⟩ | hq' <;> rw [hp', hq'] at hchars
  · injection hchars with _ hchars
    exact Or.inl (String.toList_injective (hyphenateChars_injective hp hq hchars))
  · exact Or.inr (Or.inl (msSpellings_of_hyphenateChars hp hq hms hchars.symm))
  · exact Or.inr (Or.inr (msSpellings_of_hyphenateChars hq hp hms' hchars))
  · exact Or.inl (String.toList_injective (hyphenateChars_injective hp hq hchars))

/-- Both spellings of the vendor prefix get the hyphen in front. -/
theorem MsSpellings.hyphenate_eq (h : MsSpellings p q) : hyphenate p = hyphenate q := by
  obtain ⟨c, rest, hc, hp, hq⟩ := h
  have hrest : hyphenateChars (c :: rest) = '-' :: c.toLower :: hyphenateChars rest := by
    rw [hyphenateChars_cons, hyphenateChar, if_pos hc]
    rfl
  have hp' : hyphenateChars p.toList = 'm' :: 's' :: hyphenateChars (c :: rest) := by
    rw [hp]
    rfl
  have hq' : hyphenateChars q.toList = '-' :: 'm' :: 's' :: hyphenateChars (c :: rest) := by
    rw [hq]
    rfl
  rw [hrest] at hp' hq'
  have hnot : ¬∃ rest', hyphenateChars q.toList = 'm' :: 's' :: '-' :: rest' := by
    rintro ⟨rest', hms⟩
    rw [hq'] at hms
    cases hms
  refine String.toList_injective ?_
  rw [toList_hyphenate_of_ms hp', toList_hyphenate_of_not_ms hnot, hp', hq']

/-! ## Names in CSS -/

theorem hyphenateChars_of_forall (h : ∀ c ∈ cs, c.isUpper = false) : hyphenateChars cs = cs := by
  have hself : ∀ c ∈ cs, hyphenateChar c = [c] := fun c hc => by
    rw [hyphenateChar, h c hc, if_neg Bool.false_ne_true]
  rw [hyphenateChars, List.flatMap_congr hself, List.flatMap_singleton']

/-- Where there is no hyphen in the end, nothing has been changed. -/
theorem hyphenate_eq_self (h : '-' ∉ (hyphenate p).toList) : hyphenate p = p := by
  have hchars : (hyphenate p).toList = hyphenateChars p.toList := by
    rcases toList_hyphenate p with ⟨rest, -, hms⟩ | hchars
    · rw [hms] at h
      exact absurd List.mem_cons_self h
    · exact hchars
  have hlower : ∀ c ∈ p.toList, c.isUpper = false := by
    intro c hc
    refine Bool.eq_false_iff.2 fun hupper => h ?_
    rw [hchars]
    refine List.mem_flatMap.2 ⟨c, hc, ?_⟩
    rw [hyphenateChar, if_pos hupper]
    exact List.mem_cons_self
  exact String.toList_injective (hchars.trans (hyphenateChars_of_forall hlower))

theorem isUpper_of_mem_hyphenateChars {c : Char} (h : c ∈ hyphenateChars cs) :
    c.isUpper = false := by
  obtain ⟨d, -, hd⟩ := List.mem_flatMap.1 h
  unfold hyphenateChar at hd
  split at hd
  · rcases List.mem_cons.1 hd with rfl | hlower
    · rfl
    · rw [List.mem_singleton.1 hlower, Char.isUpper_toLower_eq_false]
  · next hupper =>
    rw [List.mem_singleton.1 hd]
    exact Bool.eq_false_iff.2 hupper

theorem isUpper_of_mem_hyphenate {c : Char} (h : c ∈ (hyphenate p).toList) :
    c.isUpper = false := by
  rcases toList_hyphenate p with ⟨-, -, hchars⟩ | hchars
  · rw [hchars, List.mem_cons] at h
    rcases h with rfl | h
    · rfl
    · exact isUpper_of_mem_hyphenateChars h
  · rw [hchars] at h
    exact isUpper_of_mem_hyphenateChars h

/-- No name starts with the vendor prefix without its hyphen. -/
theorem toList_hyphenate_not_ms (p : String) :
    ¬∃ rest, (hyphenate p).toList = 'm' :: 's' :: '-' :: rest := by
  rintro ⟨rest, hms⟩
  by_cases h : ∃ rest, hyphenateChars p.toList = 'm' :: 's' :: '-' :: rest
  · obtain ⟨rest', h⟩ := h
    rw [toList_hyphenate_of_ms h] at hms
    cases hms
  · rw [toList_hyphenate_of_not_ms h] at hms
    exact h ⟨rest, hms⟩

/-- The name of a property is one of its spellings. -/
theorem hyphenate_hyphenate (p : String) : hyphenate (hyphenate p) = hyphenate p := by
  have hsame : hyphenateChars (hyphenate p).toList = (hyphenate p).toList :=
    hyphenateChars_of_forall fun c hc => isUpper_of_mem_hyphenate hc
  have hnot := toList_hyphenate_not_ms p
  rw [← hsame] at hnot
  exact String.toList_injective ((toList_hyphenate_of_not_ms hnot).trans hsame)

/-- Two different spellings without hyphens are of one property if and only if they are the two with
the vendor prefix `ms`; and the name of a property is one of its spellings. -/
theorem hyphenate_eq_iff :
    (∀ p q, '-' ∉ p.toList → '-' ∉ q.toList → p ≠ q →
      (hyphenate p = hyphenate q ↔ MsSpellings p q ∨ MsSpellings q p))
    ∧ ∀ p, hyphenate (hyphenate p) = hyphenate p := by
  refine ⟨fun p q hp hq hne => ⟨fun h => ?_, ?_⟩, hyphenate_hyphenate⟩
  · exact (eq_or_ms_of_hyphenate_eq hp hq h).resolve_left hne
  · rintro (hms | hms)
    · exact hms.hyphenate_eq
    · exact hms.hyphenate_eq.symm

/-- A property with the vendor prefix, whose two spellings have the same name. -/
theorem hyphenate_eq_iff_msFlex : '-' ∉ "MsFlex".toList ∧ '-' ∉ "msFlex".toList
    ∧ "MsFlex" ≠ "msFlex" ∧ hyphenate "MsFlex" = hyphenate "msFlex"
    ∧ hyphenate (hyphenate "MsFlex") = hyphenate "MsFlex" := by
  have hms : MsSpellings "msFlex" "MsFlex" := ⟨'F', "lex".toList, by decide, by decide, by decide⟩
  have hiff := hyphenate_eq_iff.1 "MsFlex" "msFlex" (by decide) (by decide) (by decide)
  exact ⟨by decide, by decide, by decide, hiff.2 (Or.inr hms), hyphenate_eq_iff.2 _⟩

/-! ## Declarations -/

/-- No listed property has a hyphen or starts with `m`. -/
theorem plain_of_isUnitless (h : isUnitless p = true) :
    '-' ∉ p.toList ∧ p.toList.head? ≠ some 'm' ∧ p.toList.head? ≠ some 'M' := by
  have hall : unitlessProperties.all fun property => '-' ∉ property.toList
      ∧ property.toList.head? ≠ some 'm' ∧ property.toList.head? ≠ some 'M' := by
    decide +kernel
  exact of_decide_eq_true (List.all_eq_true.1 hall p (List.contains_iff_mem.1 h))

theorem MsSpellings.not_isUnitless (h : MsSpellings p q) :
    isUnitless p = false ∧ isUnitless q = false := by
  obtain ⟨c, rest, -, hp, hq⟩ := h
  refine ⟨Bool.eq_false_iff.2 fun hunitless => ?_, Bool.eq_false_iff.2 fun hunitless => ?_⟩
  · exact (plain_of_isUnitless hunitless).2.1 (by rw [hp]; rfl)
  · exact (plain_of_isUnitless hunitless).2.2 (by rw [hq]; rfl)

/-- Of the spellings without hyphens all are listed or none. -/
theorem isUnitless_congr (hp : '-' ∉ p.toList) (hq : '-' ∉ q.toList)
    (h : hyphenate p = hyphenate q) : p = q ∨ isUnitless p = false ∧ isUnitless q = false := by
  rcases eq_or_ms_of_hyphenate_eq hp hq h with heq | hms | hms
  · exact Or.inl heq
  · exact Or.inr hms.not_isUnitless
  · exact Or.inr hms.not_isUnitless.symm

theorem declaration_text_congr (h : hyphenate p = hyphenate q) (text : String) :
    declaration p (.text text) = declaration q (.text text) := by
  have hcontent : ∀ {p q}, hyphenate p = hyphenate q → p = "content" → q = "content" := by
    rintro p q h rfl
    have hname : hyphenate "content" = "content" := by decide
    rw [hname] at h
    rw [← hyphenate_eq_self (p := q) (by rw [← h]; decide), ← h]
  have hiff : p = "content" ↔ q = "content" := ⟨hcontent h, hcontent h.symm⟩
  simp only [declaration, value, h, hiff]

theorem declaration_number_eq_iff (h : hyphenate p = hyphenate q) (x : Float) :
    declaration p (.number x) = declaration q (.number x) ↔ isUnitless p = isUnitless q := by
  rw [declaration, declaration, h, String.append_left_inj, String.append_right_inj, value, value]
  have hunit : Decimal.write x ++ "px" ≠ Decimal.write x := by simp
  cases isUnitless p <;> cases isUnitless q
  · simp
  · simp
  · simpa using hunit.symm
  · simp

/-- Two spellings of one property have the same declaration of every text. They have the same one of
a number if and only if they are the same or neither is listed without a unit; so they have, if
neither has a hyphen. -/
theorem declaration_eq_iff (h : hyphenate p = hyphenate q) :
    (∀ text, declaration p (.text text) = declaration q (.text text))
    ∧ (∀ x, declaration p (.number x) = declaration q (.number x)
      ↔ p = q ∨ isUnitless p = false ∧ isUnitless q = false)
    ∧ ('-' ∉ p.toList → '-' ∉ q.toList → ∀ v, declaration p v = declaration q v) := by
  have hnumber : ∀ x, declaration p (.number x) = declaration q (.number x)
      ↔ p = q ∨ isUnitless p = false ∧ isUnitless q = false := by
    intro x
    rw [declaration_number_eq_iff h]
    constructor
    · intro hsame
      cases hp : isUnitless p with
      | false => exact Or.inr ⟨rfl, hsame.symm.trans hp⟩
      | true =>
        rcases isUnitless_congr (plain_of_isUnitless hp).1
          (plain_of_isUnitless (hsame.symm.trans hp)).1 h with heq | ⟨hno, -⟩
        · exact Or.inl heq
        · rw [hp] at hno
          cases hno
    · rintro (rfl | ⟨hp, hq⟩)
      · rfl
      · rw [hp, hq]
  refine ⟨declaration_text_congr h, hnumber, fun hp hq v => ?_⟩
  cases v with
  | number x => exact (hnumber x).2 (isUnitless_congr hp hq h)
  | text text => exact declaration_text_congr h text

/-- Two spellings of a property with a vendor prefix. -/
theorem declaration_eq_iff_msFlex : hyphenate "msFlex" = hyphenate "MsFlex"
    ∧ ∀ v, declaration "msFlex" v = declaration "MsFlex" v := by
  have h : hyphenate "msFlex" = hyphenate "MsFlex" := by decide
  exact ⟨h, (declaration_eq_iff h).2.2 (by decide) (by decide)⟩

/-- The number of a property without a unit gets one if the property is spelt with a hyphen. -/
theorem declaration_ne : hyphenate "zIndex" = hyphenate "z-index"
    ∧ declaration "zIndex" (.number 10) ≠ declaration "z-index" (.number 10) := by
  have h : hyphenate "zIndex" = hyphenate "z-index" := by decide
  refine ⟨h, fun heq => ?_⟩
  have hlisted := (declaration_number_eq_iff h 10).1 heq
  exact absurd hlisted (by decide)

end NestedStyles.Css
