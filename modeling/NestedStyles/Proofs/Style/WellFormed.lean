import NestedStyles.Proofs.Style.Spelling
/-!
# What normalized sheets look like

Whatever a document holds, the sheet that it is normalized to has only names, fragments, queries,
properties and values that a document can have at their places, and no map in it has a key twice.
No more than this can be said: a sheet that looks like this is what some document is normalized to.

* `Specification.ruleMaps` and `Specification.selectorMaps` are the maps in a style, wherever they
  stand in it;
* `Specification.WellFormed` and `Sheet.WellFormed` say how the keys and values of these look;
* `Specification.canonical_iff` takes what can be spelled apart map by map, and
  `Sheet.wellFormed_iff_canonical` compares it with this;
* `normalized_iff_wellFormed`: the sheets of documents are the well-formed ones.
-/
namespace NestedStyles

open OrderedMap (All)

/-! ## The maps in a style -/

namespace Specification

/-- The rules of a style, of its fragments, of its media queries and of the fragments in these. -/
def ruleMaps (s : Specification) : List Rules :=
  s.rules :: s.selectors.map Prod.snd
    ++ s.media.flatMap fun e => e.2.rules :: e.2.selectors.map Prod.snd

/-- The fragments of a style, and those in each of its media queries. -/
def selectorMaps (s : Specification) : List (OrderedMap String Rules) :=
  s.selectors :: s.media.map fun e => e.2.selectors

/-- How a style of a normalized sheet looks. -/
structure WellFormed (s : Specification) : Prop where
  /-- No map has a repeated key. -/
  nodup_rules : ∀ rules ∈ s.ruleMaps, (OrderedMap.keys rules).Nodup
  nodup_selectors : ∀ selectors ∈ s.selectorMaps, (OrderedMap.keys selectors).Nodup
  nodup_media : (OrderedMap.keys s.media).Nodup
  /-- Every key of fragments is a fragment and nothing else. -/
  fragment : ∀ selectors ∈ s.selectorMaps, ∀ text ∈ OrderedMap.keys selectors,
    text ≠ "" ∧ Key.classify? text = some (.fragment text)
  /-- No query is blank. -/
  query : ∀ query ∈ OrderedMap.keys s.media, Text.isBlankText query = false
  /-- No property starts like a media query or a fragment. -/
  property : ∀ rules ∈ s.ruleMaps, ∀ name ∈ OrderedMap.keys rules,
    ∀ c ∈ name.toList.head?, c ≠ '@' ∧ c ≠ ':' ∧ c ≠ '['
  /-- Only `content` may be blank. -/
  text : ∀ rules ∈ s.ruleMaps, ∀ name text, (name, RuleValue.text text) ∈ rules →
    name ≠ "content" → Text.isBlankText text = false
  /-- Nothing stands under a parent selector. -/
  parents : s.parents = []

end Specification

/-- How a normalized sheet looks. -/
structure Sheet.WellFormed (sheet : Sheet) : Prop where
  nodup : (OrderedMap.keys sheet).Nodup
  /-- Every name is that of a class, or of a global selector with a text of its own, without a
  fragment behind it. -/
  name : ∀ name ∈ OrderedMap.keys sheet, Key.classify? name = some (.style name "")
    ∨ Key.classify? name = some (.global name "") ∧ name ≠ "$"
  style : ∀ e ∈ sheet, e.2.WellFormed

/-! ## What can be spelled, map by map -/

section Maps

variable {κ α : Type} {P : κ → Prop} {Q : α → Prop} {m : OrderedMap κ α}

theorem forall_mem_keys : (∀ k ∈ OrderedMap.keys m, P k) ↔ ∀ e ∈ m, P e.1 := List.forall_mem_map

theorem all_and_iff : All (fun k v => P k ∧ Q v) m
    ↔ (OrderedMap.keys m).Nodup ∧ (∀ k ∈ OrderedMap.keys m, P k) ∧ ∀ e ∈ m, Q e.2 := by
  rw [forall_mem_keys]
  exact ⟨fun h => ⟨h.nodup, fun e he => (h.entry e he).1, fun e he => (h.entry e he).2⟩,
    fun h => ⟨h.1, fun e he => ⟨h.2.1 e he, h.2.2 e he⟩⟩⟩

end Maps

theorem canonicalSelectors_iff {selectors : OrderedMap String Rules} :
    CanonicalSelectors selectors ↔ (OrderedMap.keys selectors).Nodup
      ∧ (∀ text ∈ OrderedMap.keys selectors, Key.IsFragment text)
      ∧ ∀ rules ∈ selectors.map Prod.snd, CanonicalRules rules := by
  rw [List.forall_mem_map]
  exact all_and_iff

theorem looksLikeSelector_eq_false_iff {name : String} : Key.looksLikeSelector name = false
    ↔ ∀ c ∈ name.toList.head?, c ≠ '@' ∧ c ≠ ':' ∧ c ≠ '[' := by
  unfold Key.looksLikeSelector
  cases name.toList <;> simp [startsFragment]

theorem isQuery_iff {query : String} : Key.IsQuery query ↔ Text.isBlankText query = false := by
  have hkey : ("@" ++ query).toList = '@' :: query.toList := String.toList_append
  rw [Key.IsQuery, Key.classify?_at hkey, Text.isBlankText, String.ofList_toList]
  cases query.toList.all Text.isBlank <;> simp

theorem isFragment_iff_ne_empty {text : String} :
    Key.IsFragment text ↔ text ≠ "" ∧ Key.classify? text = some (.fragment text) := by
  refine ⟨fun h => ⟨?_, h⟩, And.right⟩
  rintro rfl
  cases h

theorem isRule_iff {name : String} {value : RuleValue} : IsRule name value
    ↔ (∀ c ∈ name.toList.head?, c ≠ '@' ∧ c ≠ ':' ∧ c ≠ '[')
      ∧ ∀ text, value = .text text → name ≠ "content" → Text.isBlankText text = false := by
  rw [IsRule, looksLikeSelector_eq_false_iff]
  refine and_congr_right fun _ => forall_congr' fun text => imp_congr_right fun _ => ?_
  rw [ne_eq, or_iff_not_imp_left]

theorem canonicalRules_iff {rules : Rules} : CanonicalRules rules
    ↔ (OrderedMap.keys rules).Nodup
      ∧ (∀ name ∈ OrderedMap.keys rules, ∀ c ∈ name.toList.head?, c ≠ '@' ∧ c ≠ ':' ∧ c ≠ '[')
      ∧ ∀ name text, (name, RuleValue.text text) ∈ rules →
        name ≠ "content" → Text.isBlankText text = false := by
  rw [forall_mem_keys]
  constructor
  · intro h
    refine ⟨h.nodup, fun e he => (isRule_iff.1 (h.entry e he)).1, fun name text he => ?_⟩
    exact (isRule_iff.1 (h.entry _ he)).2 text rfl
  · rintro ⟨hnodup, hproperty, htext⟩
    refine ⟨hnodup, fun e he => isRule_iff.2 ⟨hproperty e he, fun text hvalue => ?_⟩⟩
    exact htext e.1 text (hvalue ▸ he)

namespace Specification

variable {s : Specification}

theorem forall_ruleMaps {P : Rules → Prop} : (∀ rules ∈ s.ruleMaps, P rules)
    ↔ P s.rules ∧ (∀ rules ∈ s.selectors.map Prod.snd, P rules)
      ∧ ∀ e ∈ s.media, P e.2.rules ∧ ∀ rules ∈ e.2.selectors.map Prod.snd, P rules := by
  rw [ruleMaps, List.forall_mem_append, List.forall_mem_cons, and_assoc, List.forall_mem_flatMap]
  simp only [List.forall_mem_cons]

theorem forall_selectorMaps {P : OrderedMap String Rules → Prop} :
    (∀ selectors ∈ s.selectorMaps, P selectors)
      ↔ P s.selectors ∧ ∀ e ∈ s.media, P e.2.selectors := by
  rw [selectorMaps, List.forall_mem_cons, List.forall_mem_map]

/-- A style can be spelled if the maps in it can, wherever they stand. -/
theorem canonical_iff : s.Canonical ↔ (∀ rules ∈ s.ruleMaps, CanonicalRules rules)
    ∧ (∀ selectors ∈ s.selectorMaps, (OrderedMap.keys selectors).Nodup
      ∧ ∀ text ∈ OrderedMap.keys selectors, Key.IsFragment text)
    ∧ (OrderedMap.keys s.media).Nodup ∧ (∀ query ∈ OrderedMap.keys s.media, Key.IsQuery query)
    ∧ s.parents = [] := by
  rw [forall_ruleMaps, forall_selectorMaps]
  constructor
  · intro h
    obtain ⟨hnodup, hkeys, hrules⟩ := canonicalSelectors_iff.1 h.selectors
    obtain ⟨hmedia, hquery, hblocks⟩ := all_and_iff.1 h.media
    have hinner (e) (he : e ∈ s.media) := canonicalSelectors_iff.1 (hblocks e he).selectors
    exact ⟨⟨h.rules, hrules, fun e he => ⟨(hblocks e he).rules, (hinner e he).2.2⟩⟩,
      ⟨⟨hnodup, hkeys⟩, fun e he => ⟨(hinner e he).1, (hinner e he).2.1⟩⟩, hmedia, hquery,
      h.parents⟩
  · rintro ⟨⟨hrules, hselectors, hblocks⟩, ⟨hfragments, hinner⟩, hmedia, hquery, hparents⟩
    refine ⟨hrules, canonicalSelectors_iff.2 ⟨hfragments.1, hfragments.2, hselectors⟩,
      all_and_iff.2 ⟨hmedia, hquery, fun e he => ⟨(hblocks e he).1, ?_⟩⟩, hparents⟩
    exact canonicalSelectors_iff.2 ⟨(hinner e he).1, (hinner e he).2, (hblocks e he).2⟩

/-- The styles that can be spelled are the well-formed ones. -/
theorem wellFormed_iff_canonical : s.WellFormed ↔ s.Canonical := by
  rw [canonical_iff]
  simp only [canonicalRules_iff, isFragment_iff_ne_empty, isQuery_iff]
  constructor
  · intro h
    exact ⟨fun rules hr => ⟨h.nodup_rules rules hr, h.property rules hr, h.text rules hr⟩,
      fun selectors hs => ⟨h.nodup_selectors selectors hs, h.fragment selectors hs⟩,
      h.nodup_media, h.query, h.parents⟩
  · rintro ⟨hrules, hselectors, hmedia, hquery, hparents⟩
    exact
      { nodup_rules := fun rules hr => (hrules rules hr).1
        nodup_selectors := fun selectors hs => (hselectors selectors hs).1
        nodup_media := hmedia
        fragment := fun selectors hs => (hselectors selectors hs).2
        query := hquery
        property := fun rules hr => (hrules rules hr).2.1
        text := fun rules hr => (hrules rules hr).2.2
        parents := hparents }

end Specification

/-! ## Sheets -/

/-- The sheets that can be spelled are the well-formed ones. -/
theorem Sheet.wellFormed_iff_canonical {sheet : Sheet} : sheet.WellFormed ↔ sheet.Canonical := by
  rw [Sheet.Canonical, all_and_iff]
  constructor
  · intro h
    exact ⟨h.nodup, h.name, fun e he => Specification.wellFormed_iff_canonical.1 (h.style e he)⟩
  · rintro ⟨hnodup, hname, hstyle⟩
    exact ⟨hnodup, hname, fun e he => Specification.wellFormed_iff_canonical.2 (hstyle e he)⟩

/-- The sheets that documents are normalized to are the well-formed ones, all of them. -/
theorem normalized_iff_wellFormed {sheet : Sheet} :
    (∃ raw, normalize raw = .ok sheet) ↔ sheet.WellFormed := by
  rw [Sheet.wellFormed_iff_canonical]
  constructor
  · rintro ⟨raw, h⟩
    exact canonical_of_normalize h
  · intro h
    exact ⟨sheet.spelling, normalize_spelling_of_canonical h⟩

end NestedStyles
