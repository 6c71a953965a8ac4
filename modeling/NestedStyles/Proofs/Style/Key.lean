import NestedStyles.Proofs.Text.Blank
import NestedStyles.Style.Key
/-!
# Keys that stand for themselves

What a key is made of can be written as a key again: the name of a style is that style, the base of
a global selector is that selector, a fragment is that fragment, and so are two fragments one behind
the other. So whatever has been read from keys can be spelled by keys.

* `classify?_at`, `classify?_dollar`, `classify?_start` and `classify?_plain`: what a key is, by its
  first character;
* `scan_append`: a valid fragment can be put behind any other;
* `IsName`, `IsFragment` and `IsQuery` are the texts that stand for themselves; the parts of a key
  are such texts (`isName_of_style`, `isName_of_global`, `isFragment_of_fragment`,
  `isQuery_of_mediaQuery`), and fragments can be joined (`IsFragment.append`).
-/
namespace NestedStyles

open Text (isBlank)

/-! ## Fragments -/

namespace Fragment

/-- Where a part of a fragment starts it does not matter whether an attribute ends before it. -/
theorem scan_of_start {cs : List Char} (h : cs.head?.any startsFragment = true)
    (afterAttribute : Bool) : scan [] afterAttribute cs = scan [] false cs := by
  cases cs with
  | nil => rfl
  | cons c cs =>
    have hc : startsFragment c = true := h
    unfold scan
    simp [hc]

theorem scan_cons (due : List Char) (afterAttribute : Bool) (c : Char) (cs : List Char) :
    scan due afterAttribute (c :: cs)
      = if afterAttribute && due.isEmpty && !startsFragment c then false
        else if c = '[' then scan (']' :: due) false cs
        else if c = '(' then scan (')' :: due) false cs
        else if c = ']' || c = ')' then
          match due with
          | closer :: due => if closer = c then scan due (c = ']' && due.isEmpty) cs else false
          | [] => false
        else if Text.isBlank c && due.isEmpty then false
        else scan due false cs :=
  scan.eq_def due afterAttribute (c :: cs)

/-- A valid fragment can be put behind any other. -/
theorem scan_append {b : List Char} (hb : ∀ afterAttribute, scan [] afterAttribute b = true)
    {a due : List Char} {afterAttribute : Bool} (ha : scan due afterAttribute a = true) :
    scan due afterAttribute (a ++ b) = true := by
  induction a generalizing due afterAttribute with
  | nil =>
    rw [scan] at ha
    obtain rfl : due = [] := List.isEmpty_iff.1 ha
    exact hb afterAttribute
  | cons c cs ih =>
    rw [scan_cons] at ha
    rw [List.cons_append, scan_cons]
    split at ha
    · cases ha
    · rw [if_neg ‹_›]
      split at ha
      · rw [if_pos ‹_›]
        exact ih ha
      · rw [if_neg ‹_›]
        split at ha
        · rw [if_pos ‹_›]
          exact ih ha
        · rw [if_neg ‹_›]
          split at ha
          · rw [if_pos ‹_›]
            cases due with
            | nil => cases ha
            | cons closer due =>
              simp only at ha ⊢
              split at ha
              · rw [if_pos ‹_›]
                exact ih ha
              · cases ha
          · rw [if_neg ‹_›]
            split at ha
            · cases ha
            · rw [if_neg ‹_›]
              exact ih ha

end Fragment

/-! ## Splitting -/

theorem splitFragment_eq (cs : List Char) : splitFragment cs
    = (cs.takeWhile (fun c => !startsFragment c), cs.dropWhile fun c => !startsFragment c) :=
  List.span_eq_takeWhile_dropWhile _ cs

theorem splitFragment_of_forall {cs : List Char} (h : ∀ c ∈ cs, startsFragment c = false) :
    splitFragment cs = (cs, []) := by
  rw [splitFragment_eq, List.takeWhile_eq_self_iff.2, List.dropWhile_eq_nil_iff.2]
  · simpa using h
  · simpa using h

/-- What stands before the fragment has no start of one. -/
theorem not_startsFragment_of_mem {cs : List Char} {c : Char} (h : c ∈ (splitFragment cs).1) :
    startsFragment c = false := by
  rw [splitFragment_eq] at h
  simpa using List.mem_takeWhile_imp h

/-- What is split off starts a fragment. -/
theorem head?_splitFragment {cs : List Char} (h : (splitFragment cs).2 ≠ []) :
    (splitFragment cs).2.head?.any startsFragment = true := by
  rw [splitFragment_eq] at h ⊢
  simp only at h ⊢
  have hhead := List.head_dropWhile_not (fun c => !startsFragment c) h
  rw [List.head?_eq_some_head h]
  simpa using hhead

/-- A base that is not empty starts as its key does. -/
theorem head?_base {cs : List Char} (h : (splitFragment cs).1 ≠ []) :
    (splitFragment cs).1.head? = cs.head? := by
  rw [splitFragment_eq] at h ⊢
  cases cs with
  | nil => rfl
  | cons c cs =>
    simp only [List.takeWhile_cons] at h ⊢
    split
    · rfl
    · simp_all

/-! ## Kinds of key by their first character -/

namespace Key

variable {key : String} {cs : List Char}

theorem classify?_at (h : key.toList = '@' :: cs) :
    classify? key = if cs.all isBlank then none else some (.mediaQuery (.ofList cs)) := by
  unfold classify?
  simp only [h]

theorem classify?_dollar (h : key.toList = '$' :: cs) : classify? key = classifyGlobal? key cs := by
  unfold classify?
  simp only [h]

theorem classify?_start (h : key.toList.head?.any startsFragment = true) :
    classify? key = if Fragment.isValid key.toList then some (.fragment key) else none := by
  unfold classify?
  split
  · next heq => rw [heq] at h; cases h
  · next heq => rw [heq] at h; cases h
  · rw [if_pos h]

/-- Whether a key starts neither a media query, nor a global selector, nor a fragment. -/
def IsPlain (cs : List Char) : Prop := ∀ c ∈ cs.head?, c ≠ '@' ∧ c ≠ '$' ∧ startsFragment c = false

theorem classify?_plain (h : IsPlain key.toList) : classify? key = classifyStyle? key.toList := by
  unfold classify?
  split
  · next heq => rw [heq] at h; exact absurd rfl (h _ rfl).1
  · next heq => rw [heq] at h; exact absurd rfl (h _ rfl).2.1
  · rw [if_neg]
    cases hhead : key.toList.head? with
    | none => exact Bool.false_ne_true
    | some c => simp [(h c hhead).2.2]

theorem kinds (key : String) : (∃ cs, key.toList = '@' :: cs) ∨ (∃ cs, key.toList = '$' :: cs)
    ∨ key.toList.head?.any startsFragment = true ∨ IsPlain key.toList := by
  cases h : key.toList with
  | nil => exact Or.inr (Or.inr (Or.inr fun c hc => by cases hc))
  | cons c cs =>
    by_cases hat : c = '@'
    · exact Or.inl ⟨cs, by rw [hat]⟩
    · by_cases hdollar : c = '$'
      · exact Or.inr (Or.inl ⟨cs, by rw [hdollar]⟩)
      · cases hstart : startsFragment c with
        | true => exact Or.inr (Or.inr (Or.inl hstart))
        | false =>
          refine Or.inr (Or.inr (Or.inr fun c' hc' => ?_))
          cases hc'
          exact ⟨hat, hdollar, hstart⟩

/-! ## What the kinds are made of -/

theorem classifyStyle?_eq_some {k : Key} (h : classifyStyle? cs = some k) :
    (splitFragment cs).1 ≠ [] ∧ (splitFragment cs).1.any isBlank = false
      ∧ Fragment.isValid (splitFragment cs).2 = true
      ∧ k = .style (.ofList (splitFragment cs).1) (.ofList (splitFragment cs).2) := by
  unfold classifyStyle? at h
  simp only at h
  split at h
  · cases h
  · next hbase =>
    split at h
    · next hvalid =>
      rw [Bool.or_eq_true, not_or] at hbase
      exact ⟨by simpa using hbase.1, by simpa using hbase.2, hvalid, (Option.some.inj h).symm⟩
    · cases h

/-- A global selector with a text of its own: one with a blank is taken whole, any other is split
like the name of a style. -/
theorem classifyGlobal?_eq_some {base text : String}
    (h : classifyGlobal? key cs = some (.global base text)) (hbase : base ≠ "$") :
    (Text.dropBlanks cs ≠ [] ∧ (Text.dropBlanks cs).head?.any startsFragment = false)
      ∧ ((cs.any isBlank = true ∧ base = key ∧ text = "")
        ∨ (cs.any isBlank = false ∧ Fragment.isValid (splitFragment key.toList).2 = true
          ∧ base = .ofList (splitFragment key.toList).1
          ∧ text = .ofList (splitFragment key.toList).2)) := by
  unfold classifyGlobal? at h
  simp only at h
  split at h
  · split at h
    · cases h
      exact absurd rfl hbase
    · cases h
  · next hown =>
    rw [Bool.or_eq_true, not_or] at hown
    refine ⟨⟨by simpa using hown.1, by simpa using hown.2⟩, ?_⟩
    split at h
    · next hblank =>
      cases h
      exact Or.inl ⟨hblank, rfl, rfl⟩
    · next hblank =>
      split at h
      · next hvalid =>
        cases h
        exact Or.inr ⟨by simpa using hblank, hvalid, rfl, rfl⟩
      · cases h

theorem classifyStyle?_isStyle {k : Key} (h : classifyStyle? cs = some k) :
    ∃ base text, k = .style base text := ⟨_, _, (classifyStyle?_eq_some h).2.2.2⟩

theorem classifyGlobal?_isGlobal {k : Key} (h : classifyGlobal? key cs = some k) :
    ∃ base text, k = .global base text := by
  unfold classifyGlobal? at h
  simp only at h
  repeat' split at h
  all_goals cases h
  all_goals exact ⟨_, _, rfl⟩

theorem of_mediaQuery {query : String} (h : classify? key = some (.mediaQuery query)) :
    key = "@" ++ query := by
  rcases kinds key with ⟨cs, hcs⟩ | ⟨cs, hcs⟩ | hstart | hplain
  · rw [classify?_at hcs] at h
    split at h
    · cases h
    · cases h
      rw [← String.toList_inj, hcs]
      simp
  · rw [classify?_dollar hcs] at h
    obtain ⟨_, _, hk⟩ := classifyGlobal?_isGlobal h
    cases hk
  · rw [classify?_start hstart] at h
    split at h <;> cases h
  · rw [classify?_plain hplain] at h
    obtain ⟨_, _, hk⟩ := classifyStyle?_isStyle h
    cases hk

theorem of_fragment {text : String} (h : classify? key = some (.fragment text)) :
    text = key ∧ key.toList.head?.any startsFragment = true
      ∧ Fragment.isValid key.toList = true := by
  rcases kinds key with ⟨cs, hcs⟩ | ⟨cs, hcs⟩ | hstart | hplain
  · rw [classify?_at hcs] at h
    split at h <;> cases h
  · rw [classify?_dollar hcs] at h
    obtain ⟨_, _, hk⟩ := classifyGlobal?_isGlobal h
    cases hk
  · rw [classify?_start hstart] at h
    split at h
    · next hvalid =>
      cases h
      exact ⟨rfl, hstart, hvalid⟩
    · cases h
  · rw [classify?_plain hplain] at h
    obtain ⟨_, _, hk⟩ := classifyStyle?_isStyle h
    cases hk

theorem of_style {base text : String} (h : classify? key = some (.style base text)) :
    IsPlain key.toList ∧ classifyStyle? key.toList = some (.style base text) := by
  rcases kinds key with ⟨cs, hcs⟩ | ⟨cs, hcs⟩ | hstart | hplain
  · rw [classify?_at hcs] at h
    split at h <;> cases h
  · rw [classify?_dollar hcs] at h
    obtain ⟨_, _, hk⟩ := classifyGlobal?_isGlobal h
    cases hk
  · rw [classify?_start hstart] at h
    split at h <;> cases h
  · rw [classify?_plain hplain] at h
    exact ⟨hplain, h⟩

theorem of_global {base text : String} (h : classify? key = some (.global base text)) :
    ∃ cs, key.toList = '$' :: cs ∧ classifyGlobal? key cs = some (.global base text) := by
  rcases kinds key with ⟨cs, hcs⟩ | ⟨cs, hcs⟩ | hstart | hplain
  · rw [classify?_at hcs] at h
    split at h <;> cases h
  · rw [classify?_dollar hcs] at h
    exact ⟨cs, hcs, h⟩
  · rw [classify?_start hstart] at h
    split at h <;> cases h
  · rw [classify?_plain hplain] at h
    obtain ⟨_, _, hk⟩ := classifyStyle?_isStyle h
    cases hk

/-! ## Texts that stand for themselves -/

/-- The text is the whole name of a style, of a class or of a global selector. -/
def IsName (name : String) : Prop :=
  classify? name = some (.style name "") ∨ classify? name = some (.global name "") ∧ name ≠ "$"

/-- The text is a fragment. -/
def IsFragment (text : String) : Prop := classify? text = some (.fragment text)

/-- The text is that of a media query. -/
def IsQuery (query : String) : Prop := classify? ("@" ++ query) = some (.mediaQuery query)

theorem isFragment_iff {text : String} : IsFragment text
    ↔ text.toList.head?.any startsFragment = true ∧ Fragment.isValid text.toList = true := by
  constructor
  · exact fun h => (of_fragment h).2
  · rintro ⟨hstart, hvalid⟩
    rw [IsFragment, classify?_start hstart, if_pos hvalid]

/-- Fragments can be joined. -/
theorem IsFragment.append {a b : String} (ha : IsFragment a) (hb : IsFragment b) :
    IsFragment (a ++ b) := by
  rw [isFragment_iff] at *
  rw [String.toList_append]
  constructor
  · cases h : a.toList with
    | nil => rw [h] at ha; cases ha.1
    | cons c cs => rw [h] at ha; exact ha.1
  · exact Fragment.scan_append (fun flag => (Fragment.scan_of_start hb.1 flag).trans hb.2) ha.2

theorem isFragment_of_fragment {text : String} (h : classify? key = some (.fragment text)) :
    IsFragment text := by
  obtain ⟨rfl, -⟩ := of_fragment h
  exact h

theorem isQuery_of_mediaQuery {query : String} (h : classify? key = some (.mediaQuery query)) :
    IsQuery query := by
  rwa [of_mediaQuery h] at h

/-- The fragment behind a name is none, or a fragment by itself. -/
theorem isFragment_split (hvalid : Fragment.isValid (splitFragment cs).2 = true) :
    String.ofList (splitFragment cs).2 = "" ∨ IsFragment (.ofList (splitFragment cs).2) := by
  by_cases hrest : (splitFragment cs).2 = []
  · left
    rw [hrest, String.ofList_nil]
  · right
    rw [isFragment_iff, String.toList_ofList]
    exact ⟨head?_splitFragment hrest, hvalid⟩

theorem splitFragment_base (cs : List Char) :
    splitFragment (splitFragment cs).1 = ((splitFragment cs).1, []) :=
  splitFragment_of_forall fun _ hc => not_startsFragment_of_mem hc

theorem isName_of_style {base text : String} (h : classify? key = some (.style base text)) :
    IsName base ∧ (text = "" ∨ IsFragment text) := by
  obtain ⟨hplain, h⟩ := of_style h
  obtain ⟨hne, hblank, hvalid, hk⟩ := classifyStyle?_eq_some h
  cases hk
  refine ⟨Or.inl ?_, isFragment_split hvalid⟩
  have hbase : IsPlain (String.ofList (splitFragment key.toList).1).toList := by
    rw [String.toList_ofList, IsPlain, head?_base hne]
    exact hplain
  have hnil : Fragment.isValid [] = true := rfl
  have hempty : (splitFragment key.toList).1.isEmpty = false := by simpa using hne
  rw [classify?_plain hbase, String.toList_ofList, classifyStyle?, splitFragment_base]
  simp only [hempty, hblank, hnil, Bool.false_or, if_true]
  rfl

theorem isName_of_global {base text : String} (h : classify? key = some (.global base text))
    (hbase : base ≠ "$") : IsName base ∧ (text = "" ∨ IsFragment text) := by
  obtain ⟨cs, hcs, hglobal⟩ := of_global h
  obtain ⟨⟨hown, hstart⟩, ⟨hblank, rfl, rfl⟩ | ⟨hblank, hvalid, rfl, rfl⟩⟩ :=
    classifyGlobal?_eq_some hglobal hbase
  · exact ⟨Or.inr ⟨h, hbase⟩, Or.inl rfl⟩
  · refine ⟨Or.inr ⟨?_, hbase⟩, isFragment_split hvalid⟩
    have hsplit : (splitFragment key.toList).1 = '$' :: (splitFragment cs).1 := by
      rw [hcs, splitFragment_eq, splitFragment_eq]
      rfl
    have hnoblank : ∀ c ∈ (splitFragment cs).1, isBlank c = false := by
      intro c hc
      rw [splitFragment_eq] at hc
      simpa using List.any_eq_false.1 hblank c ((List.takeWhile_subset _) hc)
    have hne : (splitFragment cs).1.isEmpty = false := by
      rw [List.isEmpty_eq_false_iff]
      intro hnil
      rw [hsplit, hnil] at hbase
      exact hbase rfl
    have hhead : (splitFragment cs).1.head?.any startsFragment = false := by
      cases h : (splitFragment cs).1.head? with
      | none => rfl
      | some c => exact not_startsFragment_of_mem (List.mem_of_head? h)
    have hany : (splitFragment cs).1.any isBlank = false := by
      simpa using hnoblank
    have hnil : Fragment.isValid [] = true := rfl
    have hkey : (String.ofList (splitFragment key.toList).1).toList = '$' :: (splitFragment cs).1 :=
      String.toList_ofList.trans hsplit
    rw [classify?_dollar hkey, classifyGlobal?, Text.dropBlanks_of_forall hnoblank, hkey, ← hsplit,
      splitFragment_base]
    simp only [hne, hhead, hany, hnil, Bool.false_or, if_true]
    rfl

end Key

end NestedStyles
