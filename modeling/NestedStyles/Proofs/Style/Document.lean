import NestedStyles.Proofs.OrderedMap
import NestedStyles.Proofs.Result
import NestedStyles.Style.Normalize
/-!
# Documents as sequences of events

A raw style object, read from top to bottom, is a sequence of events: a block enters a place, and a
scalar sets a property there. What style and place that is, the keys of the objects around it tell,
whatever their order is: one of them names the style, one may be a media query, and the fragments of
all of them are joined.

* `Scope` is what the keys around an entry tell, `events` the sequence for a whole document;
* `Sheet.apply` performs an event on a sheet, whatever the event before it was;
* `normalize_eq`: a document that is normalized is performed event by event.
-/
namespace NestedStyles

open Json (Value)

/-! ## Places -/

/-- The place for a media query, if there is one, and for joined fragments, which may be empty. -/
def Place.of (query : Option String) (fragment : String) : Place :=
  match query with
  | none => if fragment = "" then .style else .selector fragment
  | some query => if fragment = "" then .media query else .mediaSelector query fragment

/-- What the keys around an entry tell. -/
structure Scope where
  style : Option String := none
  query : Option String := none
  fragment : String := ""

namespace Scope

/-- The scope inside the object under a key. -/
def enter (s : Scope) : Key → Scope
  | .mediaQuery query => { s with query := some query }
  | .fragment text => { s with fragment := s.fragment ++ text }
  | .style base fragment => { s with style := some base, fragment := s.fragment ++ fragment }
  | .global base fragment => { s with style := some base, fragment := s.fragment ++ fragment }

def place (s : Scope) : Place := .of s.query s.fragment

end Scope

/-! ## Events -/

/-- A place of a style is entered, and a rule may be set there. -/
structure Event where
  style : String
  place : Place
  rule : Option (String × RuleValue)

/-- The event at a scope; none outside of styles. -/
def Scope.event (s : Scope) (rule : Option (String × RuleValue)) : List Event :=
  match s.style with
  | some style => [⟨style, s.place, rule⟩]
  | none => []

/-- The value of a scalar. -/
def scalar? : Value → Option RuleValue
  | .string s => some (.text s)
  | .number n => some (.number (numberValue n))
  | _ => none

mutual

/-- The events of the entries of an object. -/
def entriesEvents (s : Scope) : List (String × Value) → List Event
  | [] => []
  | (key, v) :: rest => valueEvents s key v ++ entriesEvents s rest

def valueEvents (s : Scope) (key : String) : Value → List Event
  | .object nested =>
    match Key.classify? key with
    | some k => (s.enter k).event none ++ entriesEvents (s.enter k) nested
    | none => []
  | v =>
    match scalar? v with
    | some value => s.event (some (key, value))
    | none => []

end

def events : Value → List Event
  | .object entries => entriesEvents {} entries
  | _ => []

/-- What an event does to the rules of its place. -/
def Event.write (e : Event) (rules : Rules) : Rules :=
  match e.rule with
  | some (property, value) => rules.insert property value
  | none => rules

/-- Performs an event on the specification of its style. -/
def Specification.apply (s : Specification) (e : Event) : Specification :=
  s.updateAt e.place e.write

/-- Performs an event on a sheet. -/
def Sheet.apply (sheet : Sheet) (e : Event) : Sheet :=
  OrderedMap.update sheet e.style fun s => (s.getD {}).apply e

/-! ## Contexts follow scopes -/

theorem Key.fragment_ne_empty {key text : String} (h : Key.classify? key = some (.fragment text)) :
    text ≠ "" := by
  unfold Key.classify? at h
  split at h
  · split at h <;> cases h
  · unfold Key.classifyGlobal? at h
    simp only at h
    repeat' split at h
    all_goals cases h
  · split at h
    · split at h
      · cases h
        rintro rfl
        simp at *
      · cases h
    · unfold Key.classifyStyle? at h
      simp only at h
      repeat' split at h
      all_goals cases h

variable {c inner : Context} {query : Option String} {fragment text key path : String}

theorem enterMedia_place {q : String} (hc : c.place = Place.of query fragment)
    (h : c.enterMedia q key = .ok inner) :
    inner.place = Place.of (some q) fragment := by
  cases c with
  | style =>
    cases h
    cases query <;> by_cases hf : fragment = "" <;> simp_all [Context.place, Place.of]
  | _ => cases h

theorem enterSelector_place (ht : text ≠ "") (hc : c.place = Place.of query fragment)
    (h : c.enterSelector text key = .ok inner) :
    inner.place = Place.of query (fragment ++ text) := by
  have hne : fragment ++ text ≠ "" := by simp [ht]
  cases query with
  | none =>
    by_cases hf : fragment = ""
    · subst hf
      cases c with
      | style => cases h; simp [Context.place, Place.of, ht]
      | _ => cases hc
    · have hplace : Place.of none fragment = .selector fragment := if_neg hf
      rw [hplace] at hc
      cases c with
      | selector outer composed =>
        cases hc
        cases composed with
        | false => cases h; exact (if_neg hne).symm
        | true => cases h
      | _ => cases hc
  | some q =>
    by_cases hf : fragment = ""
    · subst hf
      cases c with
      | media q' => cases hc; cases h; simp [Context.place, Place.of, ht]
      | _ => cases hc
    · have hplace : Place.of (some q) fragment = .mediaSelector q fragment := if_neg hf
      rw [hplace] at hc
      cases c with
      | mediaSelector q' outer composed =>
        cases hc
        cases composed with
        | false => cases h; exact (if_neg hne).symm
        | true => cases h
      | _ => cases hc

theorem withFragment_place (hc : c.place = Place.of query fragment)
    (h : c.withFragment text key = .ok inner) :
    inner.place = Place.of query (fragment ++ text) := by
  unfold Context.withFragment at h
  split at h
  · cases h
    subst text
    rwa [String.append_empty]
  · exact enterSelector_place ‹_› hc h

/-- Inside a style a nested object stays in the style, at the place that its scope tells. -/
theorem nestedContext_place {s : Scope} (hc : c.place = s.place)
    (h : nestedContext c key path = .ok inner) :
    ∃ k, Key.classify? key = some k ∧ inner.place = (s.enter k).place
      ∧ (s.enter k).style = s.style := by
  unfold nestedContext classify at h
  cases hk : Key.classify? key with
  | none => rw [hk] at h; cases h
  | some k =>
    rw [hk] at h
    refine ⟨k, rfl, ?_⟩
    cases k with
    | mediaQuery q => exact ⟨enterMedia_place hc h, rfl⟩
    | fragment text => exact ⟨enterSelector_place (Key.fragment_ne_empty hk) hc h, rfl⟩
    | style base text =>
      change (if text = "" then _ else _) = _ at h
      split at h <;> cases h
    | global base text => cases h

/-! ## Blocks -/

theorem event_of_style {s : Scope} {base : String} (hs : s.style = some base)
    (rule : Option (String × RuleValue)) :
    s.event rule = [⟨base, s.place, rule⟩] := by
  rw [Scope.event, hs]

theorem scalar?_of_ruleValue {property path : String} {v : Value} {value : RuleValue}
    (h : ruleValue property path v = .ok value) : scalar? v = some value := by
  cases v with
  | string text =>
    change (if property ≠ "content" ∧ Text.isBlankText text then _ else _) = _ at h
    split at h
    · cases h
    · cases h; rfl
  | number n => cases h; rfl
  | _ => cases h

/-- Anything but an object is a rule at the place of its block. -/
theorem rule_of_normalizeValue {c : Context} {path key : String} {spec spec' : Specification}
    {v : Value} (hv : ∀ nested, v ≠ .object nested)
    (h : normalizeValue c path key spec v = .ok spec') :
    ∃ value, Key.looksLikeSelector key = false ∧ ruleValue key (path ++ " > " ++ key) v = .ok value
      ∧ spec' = spec.updateAt c.place (·.insert key value) := by
  rw [normalizeValue] at h
  · split at h
    · cases h
    · next hkey =>
      obtain ⟨value, hr, h⟩ := bind_eq_ok.1 h
      cases h
      exact ⟨value, by simpa using hkey, hr, rfl⟩
  · exact hv

/-- A scalar sets its property at the place of its block. -/
theorem scalar_of_normalizeValue {c : Context} {path key : String} {spec spec' : Specification}
    {v : Value} (hv : ∀ nested, v ≠ .object nested)
    (h : normalizeValue c path key spec v = .ok spec') :
    ∃ value, scalar? v = some value ∧ spec' = spec.updateAt c.place (·.insert key value) := by
  obtain ⟨value, -, hr, rfl⟩ := rule_of_normalizeValue hv h
  exact ⟨value, scalar?_of_ruleValue hr, rfl⟩

theorem normalizeScalar_eq {s : Scope} {base : String} (hs : s.style = some base) {c : Context}
    {path key : String} (hc : c.place = s.place) {spec spec' : Specification} {v : Value}
    (hv : ∀ nested, v ≠ .object nested) (h : normalizeValue c path key spec v = .ok spec') :
    spec' = (valueEvents s key v).foldl Specification.apply spec
      ∧ ∀ e ∈ valueEvents s key v, e.style = base := by
  obtain ⟨value, hvalue, rfl⟩ := scalar_of_normalizeValue hv h
  have hevents : valueEvents s key v = [⟨base, s.place, some (key, value)⟩] := by
    rw [valueEvents, hvalue]
    · exact event_of_style hs _
    · exact hv
  rw [hevents, hc]
  refine ⟨rfl, fun e he => ?_⟩
  rw [List.mem_singleton.1 he]

mutual

/-- The entries of a block are performed one after the other, all of them on the block's style. -/
theorem normalizeEntries_eq {s : Scope} {base : String} (hs : s.style = some base) {c : Context}
    {path : String} (hc : c.place = s.place) :
    ∀ (entries : List (String × Value)) {spec spec' : Specification},
      normalizeEntries c path spec entries = .ok spec' →
      spec' = (entriesEvents s entries).foldl Specification.apply spec
        ∧ ∀ e ∈ entriesEvents s entries, e.style = base
  | [], spec, spec', h => by
    rw [normalizeEntries] at h
    cases h
    rw [entriesEvents]
    exact ⟨rfl, fun e he => by cases he⟩
  | (key, v) :: rest, spec, spec', h => by
    rw [normalizeEntries] at h
    obtain ⟨next, hv, h⟩ := bind_eq_ok.1 h
    obtain ⟨hnext, hfirst⟩ := normalizeValue_eq hs hc key v hv
    obtain ⟨hlast, hrest⟩ := normalizeEntries_eq hs hc rest h
    rw [entriesEvents]
    refine ⟨by rw [List.foldl_append, ← hnext, hlast], fun e he => ?_⟩
    rcases List.mem_append.1 he with he | he
    · exact hfirst e he
    · exact hrest e he

theorem normalizeValue_eq {s : Scope} {base : String} (hs : s.style = some base) {c : Context}
    {path : String} (hc : c.place = s.place) (key : String) :
    ∀ (v : Value) {spec spec' : Specification}, normalizeValue c path key spec v = .ok spec' →
      spec' = (valueEvents s key v).foldl Specification.apply spec
        ∧ ∀ e ∈ valueEvents s key v, e.style = base
  | .object nested, spec, spec', h => by
    rw [normalizeValue] at h
    obtain ⟨inner, hn, h⟩ := bind_eq_ok.1 h
    obtain ⟨k, hk, hplace, hstyle⟩ := nestedContext_place hc hn
    obtain ⟨heq, hall⟩ := normalizeEntries_eq (hstyle.trans hs) hplace nested h
    rw [valueEvents, hk]
    simp only
    rw [event_of_style (hstyle.trans hs)]
    refine ⟨?_, fun e he => ?_⟩
    · rw [heq, hplace]
      rfl
    · rcases List.mem_cons.1 he with rfl | he
      · rfl
      · exact hall e he
  | .null, _, _, h => normalizeScalar_eq hs hc (by simp) h
  | .bool _, _, _, h => normalizeScalar_eq hs hc (by simp) h
  | .number _, _, _, h => normalizeScalar_eq hs hc (by simp) h
  | .string _, _, _, h => normalizeScalar_eq hs hc (by simp) h
  | .array _, _, _, h => normalizeScalar_eq hs hc (by simp) h

end

/-! ## Documents -/

/-- Events of one style, performed on a sheet, change the specification of this style alone. -/
theorem foldl_apply_of_style (base : String) (e : Event) (es : List Event)
    (h : ∀ e' ∈ e :: es, e'.style = base) (sheet : Sheet) : (e :: es).foldl Sheet.apply sheet
      = sheet.insert base ((e :: es).foldl Specification.apply ((sheet.get? base).getD {})) := by
  induction es generalizing e sheet with
  | nil =>
    have he : e.style = base := h e List.mem_cons_self
    change sheet.update e.style _ = _
    rw [he, ← OrderedMap.insert_get?]
    rfl
  | cons e' es ih =>
    have he : e.style = base := h e List.mem_cons_self
    have hfirst : sheet.apply e = sheet.insert base (((sheet.get? base).getD {}).apply e) := by
      rw [Sheet.apply, he, ← OrderedMap.insert_get?]
    have hrest := ih e' (fun e'' he'' => h e'' (List.mem_cons_of_mem _ he'')) (sheet.apply e)
    rw [List.foldl_cons, hrest, hfirst, OrderedMap.get?_insert_self, OrderedMap.insert,
      OrderedMap.insert, OrderedMap.update_update]
    rfl

/-- The object under a style key is performed event by event. -/
theorem normalizeStyle_eq {outer : Context} {s : Scope} {k : Key} {key base fragment : String}
    (hk : Key.classify? key = some k) (hkey : k = .style base fragment ∨ k = .global base fragment)
    (hc : outer.place = s.place) {sheet sheet' : Sheet} {v : Value}
    (h : normalizeStyle outer key base fragment sheet v = .ok sheet') :
    sheet' = (valueEvents s key v).foldl Sheet.apply sheet := by
  have hstyle : (s.enter k).style = some base := by rcases hkey with rfl | rfl <;> rfl
  have hscope : (s.enter k).place = Place.of s.query (s.fragment ++ fragment) := by
    rcases hkey with rfl | rfl <;> rfl
  unfold normalizeStyle at h
  cases v with
  | object block =>
    obtain ⟨_, hv, h⟩ := bind_eq_ok.1 h
    cases hv
    obtain ⟨c, hf, h⟩ := bind_eq_ok.1 h
    obtain ⟨spec, hb, h⟩ := bind_eq_ok.1 h
    cases h
    have hplace : c.place = (s.enter k).place := by rw [hscope, withFragment_place hc hf]
    obtain ⟨heq, hall⟩ := normalizeEntries_eq hstyle hplace block hb
    rw [valueEvents, hk]
    simp only
    rw [event_of_style hstyle, List.singleton_append, foldl_apply_of_style base]
    · rw [heq, hplace]
      rfl
    · intro e he
      rcases List.mem_cons.1 he with rfl | he
      · rfl
      · exact hall e he
  | _ => cases h

/-- Entries that are performed one by one are performed in all. -/
theorem foldlM_eq {s : Scope} {step : Sheet → String × Value → Except Fault Sheet}
    (hstep : ∀ {sheet sheet' : Sheet} {key : String} {v : Value}, step sheet (key, v) = .ok sheet' →
      sheet' = (valueEvents s key v).foldl Sheet.apply sheet)
    (entries : List (String × Value)) {sheet sheet' : Sheet}
    (h : entries.foldlM step sheet = .ok sheet') :
    sheet' = (entriesEvents s entries).foldl Sheet.apply sheet := by
  induction entries generalizing sheet with
  | nil =>
    cases h
    rw [entriesEvents]
    rfl
  | cons e entries ih =>
    obtain ⟨key, v⟩ := e
    rw [List.foldlM_cons] at h
    obtain ⟨next, hs, h⟩ := bind_eq_ok.1 h
    rw [entriesEvents, List.foldl_append, ← hstep hs]
    exact ih h

theorem normalizeMediaEntry_eq {query : String} {sheet sheet' : Sheet} {key : String} {v : Value}
    (h : normalizeMediaEntry query sheet (key, v) = .ok sheet') :
    sheet' = (valueEvents { query := some query } key v).foldl Sheet.apply sheet := by
  have hplace : (Context.media query).place = ({ query := some query } : Scope).place := rfl
  unfold normalizeMediaEntry classify at h
  simp only at h
  cases hk : Key.classify? key with
  | none => rw [hk] at h; cases h
  | some k =>
    rw [hk] at h
    cases k with
    | mediaQuery q => cases h
    | fragment text => cases h
    | style base fragment => exact normalizeStyle_eq hk (Or.inl rfl) hplace h
    | global base fragment =>
      change (if base = "$" then _ else _) = _ at h
      split at h
      · cases h
      · exact normalizeStyle_eq hk (Or.inr rfl) hplace h

theorem normalizeEntry_eq {sheet sheet' : Sheet} {key : String} {v : Value}
    (h : normalizeEntry sheet (key, v) = .ok sheet') :
    sheet' = (valueEvents {} key v).foldl Sheet.apply sheet := by
  have hplace : Context.style.place = ({} : Scope).place := rfl
  unfold normalizeEntry classify at h
  simp only at h
  cases hk : Key.classify? key with
  | none => rw [hk] at h; cases h
  | some k =>
    rw [hk] at h
    cases k with
    | mediaQuery query =>
      cases v with
      | object entries =>
        rw [valueEvents, hk]
        exact foldlM_eq normalizeMediaEntry_eq entries h
      | _ => cases h
    | fragment text => cases h
    | style base fragment => exact normalizeStyle_eq hk (Or.inl rfl) hplace h
    | global base fragment =>
      change (if base = "$" then _ else _) = _ at h
      split at h
      · cases h
      · exact normalizeStyle_eq hk (Or.inr rfl) hplace h

/-- A document that is normalized is performed event by event. -/
theorem normalize_eq {raw : Value} {sheet : Sheet} (h : normalize raw = .ok sheet) :
    sheet = (events raw).foldl Sheet.apply [] := by
  unfold normalize at h
  cases raw with
  | object entries => exact foldlM_eq normalizeEntry_eq entries h
  | _ => cases h

theorem nodup_keys_foldl {sheet : Sheet} (h : (OrderedMap.keys sheet).Nodup) (es : List Event) :
    (OrderedMap.keys (es.foldl Sheet.apply sheet)).Nodup := by
  induction es generalizing sheet with
  | nil => exact h
  | cons e es ih => exact ih (OrderedMap.nodup_keys_update h e.style _)

/-- A normalized sheet has no style twice. -/
theorem nodup_keys_of_normalize {raw : Value} {sheet : Sheet} (h : normalize raw = .ok sheet) :
    (OrderedMap.keys sheet).Nodup := by
  have hempty : (OrderedMap.keys ([] : Sheet)).Nodup := List.nodup_nil
  rw [normalize_eq h]
  exact nodup_keys_foldl hempty (events raw)

end NestedStyles
