import NestedStyles.Proofs.Style.Document
import NestedStyles.Proofs.Style.Key
/-!
# The canonical spelling of a sheet

A sheet can be written as a document: every style under its own name, with its rules, then its
fragments, then its media queries, which hold rules and fragments in turn. What a document has been
normalized to can be read again from its canonical spelling, and it comes out the same, empty blocks
and the order of everything included.

* `Sheet.spelling` is the document, `Value.Distinct` says that no object in a value has a key twice;
* `Sheet.Canonical` is what makes a sheet readable from its spelling: its names, fragments and
  queries stand for themselves as keys, its properties are those of rules, and nothing stands under
  a parent;
* `canonical_of_normalize`: normalized sheets are canonical, since every step keeps this;
* `normalize_spelling_of_canonical`: a canonical sheet is read from its spelling. Rules, fragments
  and media queries are added to what their place holds already (`mergeSelectors`, `mergeMedia`),
  and what is added to nothing is what has been spelled;
* `Sheet.Canonical.distinct`: its spelling repeats no key, since properties, fragments and media
  queries are told apart by their first character;
* `normalize_spelling`: all of it together.
-/
namespace NestedStyles

open Json (Value)
open OrderedMap (All all_nil)

/-! ## Spelling -/

def RuleValue.spelling : RuleValue → Value
  | .text s => .string s
  | .number x => .number (.real x)

def rulesSpelling (rules : Rules) : List (String × Value) := rules.map fun r => (r.1, r.2.spelling)

def selectorsSpelling (selectors : OrderedMap String Rules) : List (String × Value) :=
  selectors.map fun e => (e.1, .object (rulesSpelling e.2))

/-- What stands in a media query: its rules, then its fragments. -/
def MediaBlock.spelling (b : MediaBlock) : List (String × Value) :=
  rulesSpelling b.rules ++ selectorsSpelling b.selectors

/-- What stands in a style: its rules, then its fragments, then its media queries. -/
def Specification.spelling (s : Specification) : List (String × Value) :=
  rulesSpelling s.rules ++ (selectorsSpelling s.selectors
    ++ s.media.map fun e => ("@" ++ e.1, .object e.2.spelling))

def Sheet.spelling (sheet : Sheet) : Value :=
  .object (sheet.map fun e => (e.1, .object e.2.spelling))

/-! ## Sheets that can be spelled -/

/-- A property that can stand in a block, with a value that it can have. -/
def IsRule (property : String) (value : RuleValue) : Prop :=
  Key.looksLikeSelector property = false
    ∧ ∀ text, value = .text text → property = "content" ∨ Text.isBlankText text = false

/-- Rules that can stand in a block. -/
def CanonicalRules (rules : Rules) : Prop := All IsRule rules

/-- Fragments that can stand in a block, with their rules. -/
def CanonicalSelectors (selectors : OrderedMap String Rules) : Prop :=
  All (fun fragment rules => Key.IsFragment fragment ∧ CanonicalRules rules) selectors

/-- What can stand in a media query. -/
structure MediaBlock.Canonical (b : MediaBlock) : Prop where
  rules : CanonicalRules b.rules
  selectors : CanonicalSelectors b.selectors

/-- What can stand in a style. -/
structure Specification.Canonical (s : Specification) : Prop where
  rules : CanonicalRules s.rules
  selectors : CanonicalSelectors s.selectors
  media : All (fun query b => Key.IsQuery query ∧ b.Canonical) s.media
  parents : s.parents = []

/-- A sheet of styles that can be named, with what can stand in them. -/
def Sheet.Canonical (sheet : Sheet) : Prop :=
  All (fun name s => Key.IsName name ∧ s.Canonical) sheet

/-- A place that can be named. -/
def Place.Canonical : Place → Prop
  | style => True
  | selector fragment => Key.IsFragment fragment
  | media query => Key.IsQuery query
  | mediaSelector query fragment => Key.IsQuery query ∧ Key.IsFragment fragment

/-! ## Steps keep what can be spelled -/

theorem canonical_empty : ({} : Specification).Canonical :=
  ⟨all_nil _, all_nil _, all_nil _, rfl⟩

theorem CanonicalSelectors.update {selectors : OrderedMap String Rules}
    (h : CanonicalSelectors selectors) {fragment : String} (hfragment : Key.IsFragment fragment)
    {f : Rules → Rules} (hf : ∀ rules, CanonicalRules rules → CanonicalRules (f rules)) :
    CanonicalSelectors (updateSelector selectors fragment f) := by
  refine All.update h fun old hold => ⟨hfragment, hf _ ?_⟩
  cases old with
  | none => exact all_nil _
  | some rules => exact (hold rules rfl).2

theorem Specification.Canonical.updateMedia {s : Specification} (h : s.Canonical) {query : String}
    (hquery : Key.IsQuery query) {f : MediaBlock → MediaBlock}
    (hf : ∀ b : MediaBlock, b.Canonical → (f b).Canonical) :
    Specification.Canonical { s with media := NestedStyles.updateMedia s.media query f } := by
  refine ⟨h.rules, h.selectors, All.update h.media fun old hold => ⟨hquery, hf _ ?_⟩, h.parents⟩
  cases old with
  | none => exact ⟨all_nil _, all_nil _⟩
  | some b => exact (hold b rfl).2

/-- A change of the rules at a place that can be named. -/
theorem Specification.Canonical.updateAt {s : Specification} (h : s.Canonical) {place : Place}
    (hplace : place.Canonical) {f : Rules → Rules}
    (hf : ∀ rules, CanonicalRules rules → CanonicalRules (f rules)) :
    (s.updateAt place f).Canonical := by
  cases place with
  | style => exact ⟨hf _ h.rules, h.selectors, h.media, h.parents⟩
  | selector fragment => exact ⟨h.rules, h.selectors.update hplace hf, h.media, h.parents⟩
  | media query => exact h.updateMedia hplace fun b hb => ⟨hf _ hb.rules, hb.selectors⟩
  | mediaSelector query fragment =>
    exact h.updateMedia hplace.1 fun b hb => ⟨hb.rules, hb.selectors.update hplace.2 hf⟩

variable {c inner : Context} {key path text query : String}

theorem canonical_enterMedia (hquery : Key.IsQuery query)
    (h : c.enterMedia query key = .ok inner) : inner.place.Canonical := by
  cases c with
  | style => cases h; exact hquery
  | _ => cases h

theorem canonical_enterSelector (hc : c.place.Canonical) (htext : Key.IsFragment text)
    (h : c.enterSelector text key = .ok inner) : inner.place.Canonical := by
  cases c with
  | style => cases h; exact htext
  | media query => cases h; exact ⟨hc, htext⟩
  | selector outer composed =>
    cases composed with
    | false => cases h; exact Key.IsFragment.append hc htext
    | true => cases h
  | mediaSelector query outer composed =>
    cases composed with
    | false => cases h; exact ⟨hc.1, hc.2.append htext⟩
    | true => cases h

theorem canonical_withFragment (hc : c.place.Canonical) (htext : text = "" ∨ Key.IsFragment text)
    (h : c.withFragment text key = .ok inner) : inner.place.Canonical := by
  unfold Context.withFragment at h
  split at h
  · cases h; exact hc
  · exact canonical_enterSelector hc (htext.resolve_left ‹_›) h

theorem canonical_nestedContext (hc : c.place.Canonical)
    (h : nestedContext c key path = .ok inner) : inner.place.Canonical := by
  unfold nestedContext classify at h
  cases hk : Key.classify? key with
  | none => rw [hk] at h; cases h
  | some k =>
    rw [hk] at h
    cases k with
    | mediaQuery query => exact canonical_enterMedia (Key.isQuery_of_mediaQuery hk) h
    | fragment text => exact canonical_enterSelector hc (Key.isFragment_of_fragment hk) h
    | style base text =>
      change (if text = "" then _ else _) = _ at h
      split at h <;> cases h
    | global base text => cases h

/-! ## Blocks and documents -/

theorem isRule_of_ruleValue {property : String} (hproperty : Key.looksLikeSelector property = false)
    {v : Value} {value : RuleValue} (h : ruleValue property path v = .ok value) :
    IsRule property value := by
  refine ⟨hproperty, fun text htext => ?_⟩
  cases v with
  | string s =>
    change (if property ≠ "content" ∧ Text.isBlankText s then _ else _) = _ at h
    split at h
    · cases h
    · next hblank =>
      cases h
      cases htext
      rw [not_and_or, not_not] at hblank
      exact hblank.imp_right (Bool.eq_false_iff.2 ·)
  | number n => cases h; cases htext
  | _ => cases h

theorem canonical_normalizeScalar (hc : c.place.Canonical) {s s' : Specification} (hs : s.Canonical)
    {v : Value} (hv : ∀ nested, v ≠ .object nested) (h : normalizeValue c path key s v = .ok s') :
    s'.Canonical := by
  obtain ⟨value, hkey, hvalue, rfl⟩ := rule_of_normalizeValue hv h
  exact hs.updateAt hc fun rules hrules => hrules.insert (isRule_of_ruleValue hkey hvalue)

mutual

/-- What is read from the entries of a block can be spelled. -/
theorem canonical_normalizeEntries {c : Context} (hc : c.place.Canonical) {path : String} :
    ∀ (entries : List (String × Value)) {s s' : Specification}, s.Canonical →
      normalizeEntries c path s entries = .ok s' → s'.Canonical
  | [], s, s', hs, h => by
    rw [normalizeEntries] at h
    cases h
    exact hs
  | (key, v) :: rest, s, s', hs, h => by
    rw [normalizeEntries] at h
    obtain ⟨next, hv, h⟩ := bind_eq_ok.1 h
    exact canonical_normalizeEntries hc rest (canonical_normalizeValue hc v hs hv) h

theorem canonical_normalizeValue {c : Context} (hc : c.place.Canonical) {path key : String} :
    ∀ (v : Value) {s s' : Specification}, s.Canonical → normalizeValue c path key s v = .ok s' →
      s'.Canonical
  | .object nested, s, s', hs, h => by
    rw [normalizeValue] at h
    obtain ⟨inner, hn, h⟩ := bind_eq_ok.1 h
    have hinner : inner.place.Canonical := canonical_nestedContext hc hn
    exact canonical_normalizeEntries hinner nested (hs.updateAt hinner fun _ hrules => hrules) h
  | .null, _, _, hs, h => canonical_normalizeScalar hc hs (by simp) h
  | .bool _, _, _, hs, h => canonical_normalizeScalar hc hs (by simp) h
  | .number _, _, _, hs, h => canonical_normalizeScalar hc hs (by simp) h
  | .string _, _, _, hs, h => canonical_normalizeScalar hc hs (by simp) h
  | .array _, _, _, hs, h => canonical_normalizeScalar hc hs (by simp) h

end

theorem canonical_normalizeStyle {outer : Context} (houter : outer.place.Canonical)
    {base : String} (hbase : Key.IsName base) (htext : text = "" ∨ Key.IsFragment text)
    {sheet sheet' : Sheet} (hs : sheet.Canonical) {v : Value}
    (h : normalizeStyle outer key base text sheet v = .ok sheet') : sheet'.Canonical := by
  unfold normalizeStyle at h
  cases v with
  | object block =>
    obtain ⟨_, hv, h⟩ := bind_eq_ok.1 h
    cases hv
    obtain ⟨c, hf, h⟩ := bind_eq_ok.1 h
    obtain ⟨s, hb, h⟩ := bind_eq_ok.1 h
    cases h
    have hc : c.place.Canonical := canonical_withFragment houter htext hf
    have hold : ((sheet.get? base).getD {}).Canonical := by
      cases hget : sheet.get? base with
      | none => exact canonical_empty
      | some s => exact (hs.entry _ (OrderedMap.mem_of_get?_eq_some hget)).2
    exact hs.insert ⟨hbase, canonical_normalizeEntries hc block
      (hold.updateAt hc fun _ hrules => hrules) hb⟩
  | _ => cases h

theorem canonical_normalizeMediaEntry (hquery : Key.IsQuery query) (sheet : Sheet)
    (entry : String × Value) (sheet' : Sheet) (hs : sheet.Canonical)
    (h : normalizeMediaEntry query sheet entry = .ok sheet') : sheet'.Canonical := by
  have houter : (Context.media query).place.Canonical := hquery
  obtain ⟨key, v⟩ := entry
  unfold normalizeMediaEntry classify at h
  simp only at h
  cases hk : Key.classify? key with
  | none => rw [hk] at h; cases h
  | some k =>
    rw [hk] at h
    cases k with
    | mediaQuery q => cases h
    | fragment text => cases h
    | style base text =>
      obtain ⟨hbase, htext⟩ := Key.isName_of_style hk
      exact canonical_normalizeStyle houter hbase htext hs h
    | global base text =>
      change (if base = "$" then _ else _) = _ at h
      split at h
      · cases h
      · obtain ⟨hbase, htext⟩ := Key.isName_of_global hk ‹_›
        exact canonical_normalizeStyle houter hbase htext hs h

theorem canonical_normalizeEntry (sheet : Sheet) (entry : String × Value) (sheet' : Sheet)
    (hs : sheet.Canonical) (h : normalizeEntry sheet entry = .ok sheet') : sheet'.Canonical := by
  have houter : Context.style.place.Canonical := trivial
  obtain ⟨key, v⟩ := entry
  unfold normalizeEntry classify at h
  simp only at h
  cases hk : Key.classify? key with
  | none => rw [hk] at h; cases h
  | some k =>
    rw [hk] at h
    cases k with
    | mediaQuery query =>
      cases v with
      | object entries =>
        have hquery : Key.IsQuery query := Key.isQuery_of_mediaQuery hk
        exact foldlM_keeps (canonical_normalizeMediaEntry hquery) entries hs h
      | _ => cases h
    | fragment text => cases h
    | style base text =>
      obtain ⟨hbase, htext⟩ := Key.isName_of_style hk
      exact canonical_normalizeStyle houter hbase htext hs h
    | global base text =>
      change (if base = "$" then _ else _) = _ at h
      split at h
      · cases h
      · obtain ⟨hbase, htext⟩ := Key.isName_of_global hk ‹_›
        exact canonical_normalizeStyle houter hbase htext hs h

/-- What a document is normalized to can be spelled. -/
theorem canonical_of_normalize {raw : Value} {sheet : Sheet} (h : normalize raw = .ok sheet) :
    sheet.Canonical := by
  unfold normalize at h
  cases raw with
  | object entries => exact foldlM_keeps canonical_normalizeEntry entries (all_nil _) h
  | _ => cases h

/-! ## Reading a spelling back -/

/-- Adds the rules of every fragment to those that it has. -/
def mergeSelectors (m selectors : OrderedMap String Rules) : OrderedMap String Rules :=
  selectors.foldl (fun m e => updateSelector m e.1 (·.extend e.2)) m

/-- Adds what every media query holds to what it has. -/
def mergeMedia (m blocks : OrderedMap String MediaBlock) : OrderedMap String MediaBlock :=
  blocks.foldl (fun m e => updateMedia m e.1 fun b =>
    ⟨b.rules.extend e.2.rules, mergeSelectors b.selectors e.2.selectors⟩) m

theorem CanonicalRules.extend_nil {rules : Rules} (h : CanonicalRules rules) :
    OrderedMap.extend [] rules = rules := OrderedMap.ofEntries_of_nodup h.nodup

theorem CanonicalSelectors.merge_nil {selectors : OrderedMap String Rules}
    (h : CanonicalSelectors selectors) : mergeSelectors [] selectors = selectors :=
  All.foldl_update h (fun old rules => OrderedMap.extend (old.getD []) rules)
    fun _ _ hrules => hrules.2.extend_nil

theorem Specification.Canonical.mergeMedia_nil {s : Specification} (h : s.Canonical) :
    mergeMedia [] s.media = s.media :=
  All.foldl_update h.media
    (fun old b => ⟨OrderedMap.extend (old.getD {}).rules b.rules,
      mergeSelectors (old.getD {}).selectors b.selectors⟩)
    fun _ _ hb => congrArg₂ MediaBlock.mk hb.2.rules.extend_nil hb.2.selectors.merge_nil

theorem updateSelector_updateSelector (selectors : OrderedMap String Rules) (fragment : String)
    (f g : Rules → Rules) : updateSelector (updateSelector selectors fragment f) fragment g
      = updateSelector selectors fragment (g ∘ f) := OrderedMap.update_update ..

theorem updateMedia_updateMedia (media : OrderedMap String MediaBlock) (query : String)
    (f g : MediaBlock → MediaBlock) : updateMedia (updateMedia media query f) query g
      = updateMedia media query (g ∘ f) := OrderedMap.update_update ..

theorem updateAt_updateAt (s : Specification) (place : Place) (f g : Rules → Rules) :
    (s.updateAt place f).updateAt place g = s.updateAt place (g ∘ f) := by
  cases place with
  | style => rfl
  | selector fragment =>
    simp only [Specification.updateAt, updateSelector_updateSelector]
  | media query =>
    simp only [Specification.updateAt, updateMedia_updateMedia, Function.comp_def]
  | mediaSelector query fragment =>
    simp only [Specification.updateAt, updateMedia_updateMedia, updateSelector_updateSelector,
      Function.comp_def]

theorem normalizeEntries_append (c : Context) (path : String) (s : Specification)
    (as bs : List (String × Value)) : normalizeEntries c path s (as ++ bs)
      = normalizeEntries c path s as >>= fun s => normalizeEntries c path s bs := by
  induction as generalizing s with
  | nil => simp only [List.nil_append, normalizeEntries]; rfl
  | cons a as ih => simp only [List.cons_append, normalizeEntries, ih, bind_assoc]

theorem ruleValue_spelling {property : String} {value : RuleValue} (h : IsRule property value)
    (path : String) : ruleValue property path value.spelling = .ok value := by
  cases value with
  | number x => rfl
  | text s =>
    refine if_neg ?_
    rintro ⟨hproperty, hblank⟩
    rcases h.2 s rfl with hcontent | hnonblank
    · exact hproperty hcontent
    · rw [hnonblank] at hblank
      cases hblank

theorem normalizeValue_rule (c : Context) (path : String) (s : Specification) {property : String}
    {value : RuleValue} (h : IsRule property value) :
    normalizeValue c path property s value.spelling
      = .ok (s.updateAt c.place (·.insert property value)) := by
  rw [normalizeValue, if_neg (by rw [h.1]; exact Bool.false_ne_true), ruleValue_spelling h]
  · rfl
  · intro nested hnested
    cases value <;> cases hnested

/-- Rules are added to those of their place. -/
theorem normalizeEntries_rules (c : Context) (path : String) (s : Specification) (f : Rules → Rules)
    {rules : Rules} (h : ∀ r ∈ rules, IsRule r.1 r.2) :
    normalizeEntries c path (s.updateAt c.place f) (rulesSpelling rules)
      = .ok (s.updateAt c.place fun old => (f old).extend rules) := by
  induction rules generalizing f with
  | nil => rw [rulesSpelling, List.map_nil, normalizeEntries]; rfl
  | cons r rules ih =>
    rw [rulesSpelling, List.map_cons, normalizeEntries,
      normalizeValue_rule _ _ _ (h r List.mem_cons_self), updateAt_updateAt]
    exact ih _ fun r hr => h r (List.mem_cons_of_mem _ hr)

theorem normalizeBlock_rules (c : Context) (path : String) (s : Specification) {rules : Rules}
    (h : CanonicalRules rules) : normalizeBlock c path s (rulesSpelling rules)
      = .ok (s.updateAt c.place (·.extend rules)) :=
  normalizeEntries_rules c path s id h.entry

/-- An object is a block of its own. -/
theorem normalizeValue_object {c inner : Context} {path key : String}
    (h : nestedContext c key (path ++ " > " ++ key) = .ok inner) (s : Specification)
    (nested : List (String × Value)) : normalizeValue c path key s (.object nested)
      = normalizeBlock inner (path ++ " > " ++ key) s nested := by
  rw [normalizeValue, h]
  rfl

/-- Fragments are entered one after the other, each with its rules. -/
theorem normalizeEntries_selectors {c : Context} {inner : String → Context}
    (hc : ∀ fragment, c.enterSelector fragment fragment = .ok (inner fragment)) (path : String)
    (s : Specification) {selectors : OrderedMap String Rules}
    (h : ∀ e ∈ selectors, Key.IsFragment e.1 ∧ CanonicalRules e.2) :
    normalizeEntries c path s (selectorsSpelling selectors)
      = .ok (selectors.foldl (fun s e => s.updateAt (inner e.1).place (·.extend e.2)) s) := by
  induction selectors generalizing s with
  | nil => rw [selectorsSpelling, List.map_nil, normalizeEntries]; rfl
  | cons e selectors ih =>
    obtain ⟨hfragment, hrules⟩ := h e List.mem_cons_self
    have hinner : nestedContext c e.1 (path ++ " > " ++ e.1) = .ok (inner e.1) := by
      unfold nestedContext classify
      rw [hfragment]
      exact hc e.1
    rw [selectorsSpelling, List.map_cons, normalizeEntries, normalizeValue_object hinner,
      normalizeBlock_rules _ _ _ hrules]
    exact ih _ fun e he => h e (List.mem_cons_of_mem _ he)

theorem foldl_updateAt_selector (s : Specification) (selectors : OrderedMap String Rules) :
    selectors.foldl (fun s e => s.updateAt (.selector e.1) (·.extend e.2)) s
      = { s with selectors := mergeSelectors s.selectors selectors } := by
  induction selectors generalizing s with
  | nil => cases s; rfl
  | cons e selectors ih => exact ih _

theorem foldl_updateAt_mediaSelector (s : Specification) (query : String)
    (f : MediaBlock → MediaBlock) (selectors : OrderedMap String Rules) :
    selectors.foldl (fun s e => s.updateAt (.mediaSelector query e.1) (·.extend e.2))
        { s with media := updateMedia s.media query f }
      = { s with
          media := updateMedia s.media query fun b =>
            ⟨(f b).rules, mergeSelectors (f b).selectors selectors⟩ } := by
  induction selectors generalizing f with
  | nil => rfl
  | cons e selectors ih =>
    rw [List.foldl_cons, Specification.updateAt, updateMedia_updateMedia, ih]
    rfl

/-- The block of a media query is added to what the query has. -/
theorem normalizeBlock_media (path : String) (s : Specification) (query : String) {b : MediaBlock}
    (h : b.Canonical) : normalizeBlock (.media query) path s b.spelling
      = .ok { s with
          media := updateMedia s.media query fun old =>
            ⟨old.rules.extend b.rules, mergeSelectors old.selectors b.selectors⟩ } := by
  have hrules : normalizeEntries (.media query) path (s.updateAt (.media query) id)
      (rulesSpelling b.rules) = .ok (s.updateAt (.media query) (·.extend b.rules)) :=
    normalizeBlock_rules (.media query) path s h.rules
  have hselectors := fun s => normalizeEntries_selectors (c := .media query) (fun _ => rfl) path s
    h.selectors.entry
  rw [normalizeBlock, MediaBlock.spelling, normalizeEntries_append]
  change normalizeEntries _ _ (s.updateAt (.media query) id) _ >>= _ = _
  rw [hrules]
  change normalizeEntries _ _ _ _ = _
  rw [hselectors]
  exact congrArg Except.ok (foldl_updateAt_mediaSelector s query _ b.selectors)

/-- Media queries are entered one after the other, each with its rules and fragments. -/
theorem normalizeEntries_media (path : String) (s : Specification)
    {blocks : OrderedMap String MediaBlock}
    (h : ∀ e ∈ blocks, Key.IsQuery e.1 ∧ MediaBlock.Canonical e.2) :
    normalizeEntries .style path s (blocks.map fun e => ("@" ++ e.1, .object e.2.spelling))
      = .ok { s with media := mergeMedia s.media blocks } := by
  induction blocks generalizing s with
  | nil =>
    rw [List.map_nil, normalizeEntries]
    cases s
    rfl
  | cons e blocks ih =>
    obtain ⟨hquery, hb⟩ := h e List.mem_cons_self
    have hinner : nestedContext .style ("@" ++ e.1) (path ++ " > " ++ ("@" ++ e.1))
        = .ok (.media e.1) := by
      unfold nestedContext classify
      rw [hquery]
      rfl
    rw [List.map_cons, normalizeEntries, normalizeValue_object hinner,
      normalizeBlock_media _ _ _ hb]
    exact ih _ fun e he => h e (List.mem_cons_of_mem _ he)

/-- A style is read from its spelling. -/
theorem normalizeBlock_spelling (path : String) {s : Specification} (h : s.Canonical) :
    normalizeBlock .style path {} s.spelling = .ok s := by
  have hrules : normalizeEntries .style path (Specification.updateAt {} .style id)
      (rulesSpelling s.rules) = .ok { rules := OrderedMap.extend [] s.rules } :=
    normalizeBlock_rules .style path {} h.rules
  have hselectors : ∀ old : Specification,
      normalizeEntries .style path old (selectorsSpelling s.selectors)
        = .ok { old with selectors := mergeSelectors old.selectors s.selectors } := fun old =>
    (normalizeEntries_selectors (c := .style) (fun _ => rfl) path old h.selectors.entry).trans
      (congrArg Except.ok (foldl_updateAt_selector old s.selectors))
  have hrebuilt : ({
        rules := OrderedMap.extend [] s.rules
        selectors := mergeSelectors [] s.selectors
        media := mergeMedia [] s.media } : Specification) = s := by
    rw [h.rules.extend_nil, h.selectors.merge_nil, h.mergeMedia_nil, ← h.parents]
    cases s
    rfl
  rw [normalizeBlock, Specification.spelling, normalizeEntries_append, Context.place, hrules]
  change normalizeEntries _ _ _ _ = _
  rw [normalizeEntries_append, hselectors]
  change normalizeEntries _ _ _ _ = _
  rw [normalizeEntries_media _ _ h.media.entry, hrebuilt]

/-- A style is added to the sheet under its own name. -/
theorem normalizeEntry_spelling {sheet : Sheet} {name : String} {s : Specification}
    (hname : Key.IsName name) (hs : s.Canonical) (hnew : name ∉ OrderedMap.keys sheet) :
    normalizeEntry sheet (name, .object s.spelling) = .ok (sheet ++ [(name, s)]) := by
  have hstyle : normalizeStyle .style name name "" sheet (.object s.spelling)
      = .ok (sheet ++ [(name, s)]) := by
    unfold normalizeStyle
    rw [OrderedMap.get?_eq_none_iff.2 hnew]
    change normalizeBlock .style name {} s.spelling >>= _ = _
    rw [normalizeBlock_spelling name hs, ← OrderedMap.insert_of_not_mem hnew]
    rfl
  unfold normalizeEntry classify
  rcases hname with hname | ⟨hname, hown⟩
  · simp only [hname]
    exact hstyle
  · simp only [hname]
    change (if name = "$" then _ else _) = _
    rw [if_neg hown, hstyle]

/-- A sheet that can be spelled is read from its spelling. -/
theorem normalize_spelling_of_canonical {sheet : Sheet} (h : sheet.Canonical) :
    normalize sheet.spelling = .ok sheet := by
  suffices hfold : ∀ done : Sheet, (OrderedMap.keys (done ++ sheet)).Nodup →
      (sheet.map fun e => (e.1, Value.object e.2.spelling)).foldlM normalizeEntry done
        = .ok (done ++ sheet) from hfold [] h.nodup
  have hentry := h.entry
  clear h
  induction sheet with
  | nil =>
    intro done _
    rw [List.append_nil]
    rfl
  | cons e sheet ih =>
    intro done hnodup
    obtain ⟨hname, hs⟩ := hentry e List.mem_cons_self
    have hnew : e.1 ∉ OrderedMap.keys done := by
      intro hmem
      rw [OrderedMap.keys_append, List.nodup_append] at hnodup
      exact hnodup.2.2 e.1 hmem e.1 List.mem_cons_self rfl
    rw [List.append_cons] at hnodup ⊢
    rw [List.map_cons, List.foldlM_cons, normalizeEntry_spelling hname hs hnew]
    exact ih (fun e he => hentry e (List.mem_cons_of_mem _ he)) _ hnodup

/-! ## No key twice -/

/-- No object in the value has a key twice. -/
inductive Json.Value.Distinct : Value → Prop
  | null : Distinct .null
  | bool (b : Bool) : Distinct (.bool b)
  | number (n : Json.Number) : Distinct (.number n)
  | string (s : String) : Distinct (.string s)
  | array {items : List Value} (h : ∀ v ∈ items, Distinct v) : Distinct (.array items)
  | object {members : List (String × Value)} (hkeys : (members.map Prod.fst).Nodup)
    (h : ∀ e ∈ members, Distinct e.2) : Distinct (.object members)

theorem distinct_object {members : List (String × Value)}
    (h : All (fun _ v => v.Distinct) members) : (Value.object members).Distinct :=
  .object h.nodup h.entry

theorem distinct_ruleValue (value : RuleValue) : value.spelling.Distinct := by
  cases value with
  | text s => exact .string s
  | number x => exact .number _

theorem looksLikeSelector_at (query : String) : Key.looksLikeSelector ("@" ++ query) = true := by
  unfold Key.looksLikeSelector
  rw [String.toList_append]
  rfl

theorem looksLikeSelector_of_isFragment {fragment : String} (h : Key.IsFragment fragment) :
    Key.looksLikeSelector fragment = true := by
  have hstart := (Key.isFragment_iff.1 h).1
  unfold Key.looksLikeSelector
  cases hcs : fragment.toList with
  | nil => rw [hcs] at hstart; cases hstart
  | cons c cs =>
    rw [hcs] at hstart
    have hc : startsFragment c = true := hstart
    simp [hc]

theorem not_isFragment_at (query : String) : ¬Key.IsFragment ("@" ++ query) := by
  intro h
  have hstart := (Key.isFragment_iff.1 h).1
  rw [String.toList_append] at hstart
  cases hstart

theorem all_rulesSpelling {rules : Rules} (h : CanonicalRules rules) :
    All (fun key v => Key.looksLikeSelector key = false ∧ v.Distinct) (rulesSpelling rules) :=
  h.map Function.injective_id fun _ value hrule => ⟨hrule.1, distinct_ruleValue value⟩

theorem all_selectorsSpelling {selectors : OrderedMap String Rules}
    (h : CanonicalSelectors selectors) :
    All (fun key v => Key.IsFragment key ∧ v.Distinct) (selectorsSpelling selectors) :=
  h.map (g := fun rules => Value.object (rulesSpelling rules)) Function.injective_id
    fun _ _ hrules =>
      ⟨hrules.1, distinct_object ((all_rulesSpelling hrules.2).mono fun _ _ h => h.2)⟩

theorem MediaBlock.Canonical.distinct {b : MediaBlock} (h : b.Canonical) :
    (Value.object b.spelling).Distinct := by
  refine distinct_object (((all_rulesSpelling h.rules).append (all_selectorsSpelling h.selectors)
    fun key _ _ hrule hfragment => ?_).mono fun _ _ hentry => ?_)
  · rw [looksLikeSelector_of_isFragment hfragment.1] at hrule
    cases hrule.1
  · exact hentry.elim And.right And.right

theorem Specification.Canonical.distinct {s : Specification} (h : s.Canonical) :
    (Value.object s.spelling).Distinct := by
  have hat : Function.Injective ("@" ++ ·) := fun a b hab => by
    simpa [← String.toList_inj] using hab
  have hmedia : All (fun key v => (∃ query, key = "@" ++ query) ∧ v.Distinct)
      (s.media.map fun e => ("@" ++ e.1, Value.object e.2.spelling)) :=
    h.media.map (g := fun b => Value.object b.spelling) hat
      fun query _ hb => ⟨⟨query, rfl⟩, hb.2.distinct⟩
  have hnested := (all_selectorsSpelling h.selectors).append hmedia
    fun key _ _ hfragment hquery => by
      obtain ⟨query, rfl⟩ := hquery.1
      exact not_isFragment_at query hfragment.1
  refine distinct_object (((all_rulesSpelling h.rules).append hnested
    fun key _ _ hrule hnested => ?_).mono fun _ _ hentry => ?_)
  · obtain hfragment | ⟨⟨query, rfl⟩, -⟩ := hnested
    · rw [looksLikeSelector_of_isFragment hfragment.1] at hrule
      cases hrule.1
    · rw [looksLikeSelector_at] at hrule
      cases hrule.1
  · exact hentry.elim And.right fun h => h.elim And.right And.right

theorem Sheet.Canonical.distinct {sheet : Sheet} (h : sheet.Canonical) :
    sheet.spelling.Distinct :=
  distinct_object (h.map (g := fun s => Value.object s.spelling) Function.injective_id
    fun _ _ hs => hs.2.distinct)

/-- What a document has been normalized to is read again from its spelling, in which no object has a
key twice. -/
theorem normalize_spelling {raw : Value} {sheet : Sheet} (h : normalize raw = .ok sheet) :
    sheet.spelling.Distinct ∧ normalize sheet.spelling = .ok sheet :=
  have hcanonical : sheet.Canonical := canonical_of_normalize h
  ⟨hcanonical.distinct, normalize_spelling_of_canonical hcanonical⟩

theorem normalize_spelling_composed :
    ∃ sheet : Sheet, normalize (.object [
        ("@@x", .object [("$ul > li", .object [(":hover", .object [("[b]", .object [])])])]),
        ("a", .object [("content", .string " "), ("@@x", .object [("top", .string "1")])])])
        = .ok sheet
      ∧ sheet = [
        ("$ul > li", { media := [("@x", { selectors := [(":hover", []), (":hover[b]", [])] })] }),
        ("a", { rules := [("content", .text " ")],
                media := [("@x", { rules := [("top", .text "1")] })] })]
      ∧ sheet.spelling.Distinct ∧ normalize sheet.spelling = .ok sheet := by
  have h : normalize (.object [
        ("@@x", .object [("$ul > li", .object [(":hover", .object [("[b]", .object [])])])]),
        ("a", .object [("content", .string " "), ("@@x", .object [("top", .string "1")])])])
      = .ok [
        ("$ul > li", { media := [("@x", { selectors := [(":hover", []), (":hover[b]", [])] })] }),
        ("a", { rules := [("content", .text " ")],
                media := [("@x", { rules := [("top", .text "1")] })] })] :=
    rfl
  exact ⟨_, h, rfl, normalize_spelling h⟩

end NestedStyles
