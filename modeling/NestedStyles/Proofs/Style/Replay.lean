import NestedStyles.Proofs.Style.Document
/-!
# What a normalized sheet says

A sheet that has been normalized is the replay of its document: the last scalar for a property
decides its value, what has been entered is there, and everything stands in the order in which it
was first entered or set.

* `Replays` says this of a sheet and a sequence of events, place by place and level by level;
* `replays_foldl`: it holds of events performed one after the other;
* `normalize_replays`: it holds of a normalized sheet and the events of its document.
-/
namespace NestedStyles

open Json (Value)

/-! ## Looking into a sheet -/

/-- The block of a media query, empty if there is none. -/
def Specification.block (s : Specification) (query : String) : MediaBlock :=
  (s.media.get? query).getD {}

/-- The rules at a place, none if there is no such place. -/
def Specification.rulesAt (s : Specification) : Place → Rules
  | .style => s.rules
  | .selector fragment => (s.selectors.get? fragment).getD []
  | .media query => (s.block query).rules
  | .mediaSelector query fragment => ((s.block query).selectors.get? fragment).getD []

/-- The specification of a style, empty if there is none. -/
def Sheet.spec (sheet : Sheet) (style : String) : Specification := (sheet.get? style).getD {}

/-- The fragment of a place outside of media queries. -/
def Place.fragment? : Place → Option String
  | selector fragment => some fragment
  | _ => none

def Place.query? : Place → Option String
  | media query => some query
  | mediaSelector query _ => some query
  | _ => none

/-- The fragment of a place inside a media query. -/
def Place.fragmentIn? (query : String) : Place → Option String
  | mediaSelector query' fragment => if query' = query then some fragment else none
  | _ => none

namespace Event

/-- What an event of a style says about its place. -/
def inStyle {α : Type} (style : String) (f : Place → Option α) (e : Event) : Option α :=
  if e.style = style then f e.place else none

/-- The rule that an event sets at a place of a style. -/
def ruleAt (style : String) (place : Place) (e : Event) : Option (String × RuleValue) :=
  if e.style = style ∧ e.place = place then e.rule else none

/-- The value that an event gives a property at a place of a style. -/
def valueAt (style : String) (place : Place) (property : String) (e : Event) : Option RuleValue :=
  match e.ruleAt style place with
  | some (name, value) => if name = property then some value else none
  | none => none

end Event

/-- A sheet is what a sequence of events makes of nothing. -/
structure Replays (sheet : Sheet) (es : List Event) : Prop where
  /-- The last event that gives a property a value decides. -/
  value : ∀ style place property, ((sheet.spec style).rulesAt place).get? property
    = (es.filterMap (Event.valueAt style place property)).getLast?
  /-- What exists has been entered, itself or a place inside it. -/
  style_exists : ∀ style, (sheet.get? style).isSome ↔ ∃ e ∈ es, e.style = style
  fragment_exists : ∀ style fragment, ((sheet.spec style).selectors.get? fragment).isSome
    ↔ ∃ e ∈ es, e.style = style ∧ e.place = .selector fragment
  query_exists : ∀ style query, ((sheet.spec style).media.get? query).isSome
    ↔ ∃ e ∈ es, e.style = style ∧ e.place.query? = some query
  query_fragment_exists :
    ∀ style query fragment, (((sheet.spec style).block query).selectors.get? fragment).isSome
    ↔ ∃ e ∈ es, e.style = style ∧ e.place = .mediaSelector query fragment
  /-- Everything stands in the order of its first event. -/
  style_order : sheet.keys = (es.map Event.style).eraseDups
  property_order : ∀ style place, ((sheet.spec style).rulesAt place).keys
    = (es.filterMap fun e => (e.ruleAt style place).map Prod.fst).eraseDups
  fragment_order : ∀ style, (sheet.spec style).selectors.keys
    = (es.filterMap (Event.inStyle style Place.fragment?)).eraseDups
  query_order : ∀ style, (sheet.spec style).media.keys
    = (es.filterMap (Event.inStyle style Place.query?)).eraseDups
  query_fragment_order : ∀ style query, ((sheet.spec style).block query).selectors.keys
    = (es.filterMap (Event.inStyle style (Place.fragmentIn? query))).eraseDups
  /-- Nothing stands under a parent selector. -/
  parents : ∀ style, (sheet.spec style).parents = []

/-! ## One step -/

variable (s : Specification) (sheet : Sheet) (e : Event)

theorem spec_apply (style : String) : (sheet.apply e).spec style
    = if e.style = style then (sheet.spec style).apply e else sheet.spec style := by
  unfold Sheet.apply Sheet.spec
  split
  · subst style
    rw [OrderedMap.get?_update_self]
    rfl
  · rw [OrderedMap.get?_update_of_ne ‹_›]

theorem block_updateMedia (query query' : String) (f : MediaBlock → MediaBlock) :
    Specification.block { s with media := updateMedia s.media query f } query'
      = if query = query' then f (s.block query') else s.block query' := by
  unfold Specification.block updateMedia
  split
  · subst query'
    rw [OrderedMap.get?_update_self]
    rfl
  · rw [OrderedMap.get?_update_of_ne ‹_›]

theorem getD_updateSelector (selectors : OrderedMap String Rules) (fragment fragment' : String)
    (f : Rules → Rules) :
    ((updateSelector selectors fragment f).get? fragment').getD []
      = if fragment = fragment' then f ((selectors.get? fragment').getD [])
        else (selectors.get? fragment').getD [] := by
  unfold updateSelector
  split
  · subst fragment'
    rw [OrderedMap.get?_update_self]
    rfl
  · rw [OrderedMap.get?_update_of_ne ‹_›]

/-- A change at a place changes the rules of this place alone. -/
theorem rulesAt_updateAt (place place' : Place) (f : Rules → Rules) :
    (s.updateAt place f).rulesAt place'
    = if place = place' then f (s.rulesAt place') else s.rulesAt place' := by
  cases place with
  | style => cases place' <;> rfl
  | selector fragment =>
    cases place' with
    | selector fragment' =>
      change ((updateSelector s.selectors fragment f).get? fragment').getD [] = _
      rw [getD_updateSelector]
      simp [Specification.rulesAt]
    | _ => rfl
  | media query =>
    cases place' with
    | style => rfl
    | selector fragment' => rfl
    | media query' =>
      change (Specification.block { s with media := updateMedia s.media query _ } query').rules = _
      rw [block_updateMedia]
      by_cases h : query = query' <;> simp [h, Specification.rulesAt]
    | mediaSelector query' fragment' =>
      change ((Specification.block { s with media := updateMedia s.media query _ }
        query').selectors.get? fragment').getD [] = _
      rw [block_updateMedia]
      by_cases h : query = query' <;> simp [h, Specification.rulesAt]
  | mediaSelector query fragment =>
    cases place' with
    | style => rfl
    | selector fragment' => rfl
    | media query' =>
      change (Specification.block { s with media := updateMedia s.media query _ } query').rules = _
      rw [block_updateMedia]
      by_cases h : query = query' <;> simp [h, Specification.rulesAt]
    | mediaSelector query' fragment' =>
      change ((Specification.block { s with media := updateMedia s.media query _ }
        query').selectors.get? fragment').getD [] = _
      rw [block_updateMedia]
      by_cases h : query = query'
      · subst h
        rw [if_pos rfl, getD_updateSelector]
        simp [Specification.rulesAt]
      · simp [h, Specification.rulesAt]

theorem rulesAt_apply (style : String) (place : Place) : ((sheet.apply e).spec style).rulesAt place
    = if e.style = style ∧ e.place = place then e.write ((sheet.spec style).rulesAt place)
      else (sheet.spec style).rulesAt place := by
  rw [spec_apply]
  by_cases hs : e.style = style
  · simp only [hs, if_true, true_and]
    exact rulesAt_updateAt _ _ _ _
  · simp only [hs, if_false, false_and]

theorem get?_apply (style : String) (place : Place) (property : String) :
    (((sheet.apply e).spec style).rulesAt place).get? property
      = (e.valueAt style place property).or (((sheet.spec style).rulesAt place).get? property) := by
  rw [rulesAt_apply]
  unfold Event.valueAt Event.ruleAt
  split
  · unfold Event.write
    cases e.rule with
    | none => rfl
    | some rule =>
      obtain ⟨name, value⟩ := rule
      by_cases hn : name = property
      · subst hn
        simp [OrderedMap.get?_insert_self]
      · simp [hn, OrderedMap.get?_insert_of_ne hn]
  · rfl

theorem keys_rulesAt_apply (style : String) (place : Place) :
    (((sheet.apply e).spec style).rulesAt place).keys
      = OrderedMap.addKey ((sheet.spec style).rulesAt place).keys
        ((e.ruleAt style place).map Prod.fst) := by
  rw [rulesAt_apply]
  unfold Event.ruleAt
  split
  · unfold Event.write
    cases e.rule with
    | none => rfl
    | some rule => exact OrderedMap.keys_update_eq_addKey _ rule.1 _
  · rfl

/-! ## Levels -/

/-- A change at a place adds a key of the place to a list. -/
def Appends (view : Specification → List String) (key : Place → Option String) : Prop :=
  ∀ s place f, view (Specification.updateAt s place f) = OrderedMap.addKey (view s) (key place)

theorem appends_selectors : Appends (fun s => s.selectors.keys) Place.fragment? := by
  intro s place f
  cases place with
  | selector fragment => exact OrderedMap.keys_update_eq_addKey _ _ _
  | _ => rfl

theorem appends_media : Appends (fun s => s.media.keys) Place.query? := by
  intro s place f
  cases place with
  | media query => exact OrderedMap.keys_update_eq_addKey _ _ _
  | mediaSelector query fragment => exact OrderedMap.keys_update_eq_addKey _ _ _
  | _ => rfl

theorem appends_block (query : String) :
    Appends (fun s => (s.block query).selectors.keys) (Place.fragmentIn? query) := by
  intro s place f
  cases place with
  | style => rfl
  | selector fragment => rfl
  | media query' =>
    change (Specification.block { s with media := updateMedia s.media query' _ }
      query).selectors.keys = _
    rw [block_updateMedia]
    by_cases h : query' = query <;> simp [h, Place.fragmentIn?, OrderedMap.addKey]
  | mediaSelector query' fragment =>
    change (Specification.block { s with media := updateMedia s.media query' _ }
      query).selectors.keys = _
    rw [block_updateMedia]
    by_cases h : query' = query
    · simp only [h, if_true, Place.fragmentIn?]
      exact OrderedMap.keys_update_eq_addKey _ _ _
    · simp [h, Place.fragmentIn?, OrderedMap.addKey]

variable {view : Specification → List String} {key : Place → Option String}

theorem Appends.foldl (h : Appends view key) (hnil : view {} = []) (style : String)
    (es : List Event) :
    view (Sheet.spec (es.foldl Sheet.apply []) style)
      = (es.filterMap (Event.inStyle style key)).eraseDups := by
  have hstart : view (Sheet.spec [] style) = [] := hnil
  refine OrderedMap.foldl_eq_eraseDups (fun sheet : Sheet => view (sheet.spec style)) _ hstart ?_ es
  intro sheet e
  rw [spec_apply]
  unfold Event.inStyle
  split
  · exact h _ _ _
  · rfl

theorem mem_inStyle {style k : String} {es : List Event} :
    k ∈ (es.filterMap (Event.inStyle style key)).eraseDups
      ↔ ∃ e ∈ es, e.style = style ∧ key e.place = some k := by
  rw [List.mem_eraseDups, List.mem_filterMap]
  constructor
  · rintro ⟨e, he, hk⟩
    unfold Event.inStyle at hk
    split at hk
    · exact ⟨e, he, ‹_›, hk⟩
    · cases hk
  · rintro ⟨e, he, hs, hk⟩
    exact ⟨e, he, (if_pos hs).trans hk⟩

theorem Place.fragment?_eq_some {place : Place} {fragment : String} :
    place.fragment? = some fragment ↔ place = .selector fragment := by
  cases place <;> simp [Place.fragment?]

theorem Place.fragmentIn?_eq_some {place : Place} {query fragment : String} :
    place.fragmentIn? query = some fragment ↔ place = .mediaSelector query fragment := by
  cases place <;> simp [Place.fragmentIn?]

/-! ## Runs -/

theorem keys_foldl (es : List Event) :
    OrderedMap.keys (es.foldl Sheet.apply []) = (es.map Event.style).eraseDups := by
  have hstart : OrderedMap.keys ([] : Sheet) = [] := rfl
  have hstep : ∀ (sheet : Sheet) (e : Event),
      (sheet.apply e).keys = OrderedMap.addKey sheet.keys (some e.style) :=
    fun sheet e => OrderedMap.keys_update_eq_addKey sheet e.style _
  have h := OrderedMap.foldl_eq_eraseDups OrderedMap.keys _ hstart hstep es
  rwa [List.filterMap_eq_map'] at h

theorem parents_foldl (style : String) (es : List Event) :
    (Sheet.spec (es.foldl Sheet.apply []) style).parents = [] := by
  suffices ∀ sheet : Sheet, (sheet.spec style).parents = [] →
      (Sheet.spec (es.foldl Sheet.apply sheet) style).parents = []
    from this [] rfl
  induction es with
  | nil => exact fun _ h => h
  | cons e es ih =>
    intro sheet h
    apply ih
    rw [spec_apply]
    split
    · have hkept : ∀ (s : Specification) (place : Place) f,
          (s.updateAt place f).parents = s.parents := by
        intro s place f
        cases place <;> rfl
      exact (hkept _ _ _).trans h
    · exact h

/-- Events that are performed one after the other are replayed. -/
theorem replays_foldl (es : List Event) : Replays (es.foldl Sheet.apply []) es where
  value := fun style place property => OrderedMap.foldl_eq_getLast?
    (fun sheet : Sheet => ((sheet.spec style).rulesAt place).get? property) _
    (by cases place <;> rfl) (fun sheet e => get?_apply sheet e style place property) es
  style_exists := by
    intro style
    rw [OrderedMap.isSome_get?_iff, keys_foldl, List.mem_eraseDups, List.mem_map]
  fragment_exists := by
    intro style fragment
    rw [OrderedMap.isSome_get?_iff, appends_selectors.foldl rfl, mem_inStyle]
    simp only [Place.fragment?_eq_some]
  query_exists := by
    intro style query
    rw [OrderedMap.isSome_get?_iff, appends_media.foldl rfl, mem_inStyle]
  query_fragment_exists := by
    intro style query fragment
    rw [OrderedMap.isSome_get?_iff, (appends_block query).foldl rfl, mem_inStyle]
    simp only [Place.fragmentIn?_eq_some]
  style_order := keys_foldl es
  property_order := fun style place => OrderedMap.foldl_eq_eraseDups
    (fun sheet : Sheet => ((sheet.spec style).rulesAt place).keys) _
    (by cases place <;> rfl) (fun sheet e => keys_rulesAt_apply sheet e style place) es
  fragment_order := fun style => appends_selectors.foldl rfl style es
  query_order := fun style => appends_media.foldl rfl style es
  query_fragment_order := fun style query => (appends_block query).foldl rfl style es
  parents := fun style => parents_foldl style es

/-- A normalized sheet is the replay of its document. -/
theorem normalize_replays {raw : Value} {sheet : Sheet} (h : normalize raw = .ok sheet) :
    Replays sheet (events raw) := by
  rw [normalize_eq h]
  exact replays_foldl (events raw)

theorem normalize_replays_merged :
    normalize (.object [("a:h", .object [("top", .string "1")]),
        ("@q", .object [("a", .object [("top", .string "2")])]),
        ("a", .object [(":h", .object [("top", .string "3")])])])
      = .ok [("a", { selectors := [(":h", [("top", .text "3")])],
                     media := [("q", { rules := [("top", .text "2")] })] })]
    ∧ Replays
      [("a", { selectors := [(":h", [("top", .text "3")])],
               media := [("q", { rules := [("top", .text "2")] })] })]
      (events (.object [("a:h", .object [("top", .string "1")]),
        ("@q", .object [("a", .object [("top", .string "2")])]),
        ("a", .object [(":h", .object [("top", .string "3")])])])) := by
  have h : normalize (.object [("a:h", .object [("top", .string "1")]),
        ("@q", .object [("a", .object [("top", .string "2")])]),
        ("a", .object [(":h", .object [("top", .string "3")])])])
      = .ok
        [("a", { selectors := [(":h", [("top", .text "3")])],
                 media := [("q", { rules := [("top", .text "2")] })] })] := by
    cbv
  exact ⟨h, normalize_replays h⟩

end NestedStyles
