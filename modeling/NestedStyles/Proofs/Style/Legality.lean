import NestedStyles.Proofs.OrderedMap
import NestedStyles.Style.Normalize
/-!
# Which documents are legal

A document is a tree of entries, each a key and a value. Whether an entry is legal is a matter of
its key, its value and the keys above it, and not of what has been read before: of the keys above it
counts whether one names a style, whether one is a media query, and how many bring a fragment.

* `Entry.fault?` is what is wrong with an entry, by these three; `entriesUnder` lists the entries of
  a document from top to bottom, each before the entries in its value;
* `Legal` and `Refused` say what this makes of a document: the first entry that is not legal decides
  the fault;
* `Context.Fits` ties a context to the keys above it, `faultOf_normalizeEntries` reads a block;
* `normalize_accepts_legal`: normalizing succeeds for the legal documents, and otherwise it reports
  the fault of the first illegal entry.
-/
namespace NestedStyles

open Json (Value)

/-! ## What a key says to the entries below it -/

namespace Key

/-- Whether a key names a style, global or not. -/
def namesStyle : Key → Bool
  | style _ _ => true
  | global _ _ => true
  | _ => false

/-- The text of a media query. -/
def query? : Key → Option String
  | mediaQuery query => some query
  | _ => none

/-- Whether a key brings a fragment, alone or behind the name of a style. -/
def bringsFragment : Key → Bool
  | mediaQuery _ => false
  | fragment _ => true
  | style _ text => text ≠ ""
  | global _ text => text ≠ ""

/-- Whether `key` is of a kind for which `p` holds. -/
def means (p : Key → Bool) (key : String) : Bool := (classify? key).any p

theorem means_of_classify? {key : String} {k : Key} (h : classify? key = some k) (p : Key → Bool) :
    means p key = p k := by
  rw [means, h]
  rfl

def isMedia (key : String) : Bool := means (fun k => k.query?.isSome) key

end Key

/-! ## Entries -/

/-- An entry of a document, with the keys of the objects around it, the outermost first. -/
structure Entry where
  above : List String
  key : String
  value : Value

mutual

/-- The entries of an object under the keys `above`, from top to bottom, each one before those in
its value. -/
def entriesUnder (above : List String) : List (String × Value) → List Entry
  | [] => []
  | (key, v) :: rest => ⟨above, key, v⟩ :: entriesIn (above ++ [key]) v ++ entriesUnder above rest

/-- The entries in a value. -/
def entriesIn (above : List String) : Value → List Entry
  | .object entries => entriesUnder above entries
  | _ => []

end

/-- How messages name the place below some keys: by the keys from the style on. -/
def pathTo (keys : List String) : String := " > ".intercalate (keys.dropWhile Key.isMedia)

namespace Entry

variable (e : Entry)

/-- Whether the entry stands in a style. -/
def inStyle : Bool := e.above.any (Key.means Key.namesStyle)

/-- The media query around the entry. -/
def query? : Option String := e.above.findSome? fun key => (Key.classify? key).bind Key.query?

/-- The number of fragments that the keys above bring. -/
def fragments : Nat := e.above.countP (Key.means Key.bringsFragment)

/-- The place of the entry in messages. -/
def path : String := pathTo (e.above ++ [e.key])

/-- What is wrong with a fragment outside of styles. -/
def standalone : Fault :=
  match e.query? with
  | none => .standaloneSelector e.key
  | some query => .standaloneSelectorInMedia e.key query

/-- What is wrong with an entry outside of styles, at the top of the document or of a media query:
it has to name a style, or a media query that is in no other, and to hold an object. -/
def faultOutside? : Option Fault :=
  match Key.classify? e.key with
  | none => some (.invalidStyleName e.key)
  | some (.mediaQuery _) =>
    if e.query?.isSome then some (.illegalNesting .mediaInMedia e.key) else unlessObject
  | some (.fragment _) => some e.standalone
  | some (.style _ _) => unlessObject
  | some (.global base _) => if base = "$" then some e.standalone else unlessObject
where
  /-- The fault of an entry that has to hold an object. -/
  unlessObject : Option Fault :=
    match e.value with
    | .object _ => none
    | v => some (.notAnObject e.key v.kind)

/-- What is wrong with an object in a style: a media query may stand in neither a media query nor a
fragment, a fragment below one other at most, and a style nowhere. -/
def faultOfBlock? : Option Fault :=
  match Key.classify? e.key with
  | none => some (.invalidStyleName e.key)
  | some (.mediaQuery _) =>
    if e.above.any Key.isMedia then some (.illegalNesting .mediaInMedia e.key)
    else if 0 < e.fragments then some (.illegalNesting .mediaInSelector e.key)
    else none
  | some (.fragment _) =>
    if e.fragments ≤ 1 then none else some (.illegalNesting .selectorInSelector e.key)
  | some (.style _ fragment) =>
    if fragment = "" then some (.invalidRuleValue e.path .notScalar)
    else some (.illegalNesting .selectorInSelector e.key)
  | some (.global _ _) => some (.illegalNesting .selectorInSelector e.key)

/-- What is wrong with any other value in a style: its key has to be that of a property, and the
value a number or a text, which is blank for `content` only. -/
def faultOfRule? : Option Fault :=
  if Key.looksLikeSelector e.key then some (.notAnObject e.path e.value.kind) else unlessScalar
where
  /-- The fault of an entry that has to hold a rule value. -/
  unlessScalar : Option Fault :=
    match e.value with
    | .string text =>
      if e.key ≠ "content" ∧ Text.isBlankText text then some (.invalidRuleValue e.path .blank)
      else none
    | .number _ => none
    | _ => some (.invalidRuleValue e.path .notScalar)

/-- What is wrong with an entry, if it is not legal. -/
def fault? : Option Fault :=
  if e.inStyle then
    match e.value with
    | .object _ => e.faultOfBlock?
    | _ => e.faultOfRule?
  else e.faultOutside?

end Entry

/-- An object with legal entries only. -/
def Legal (raw : Value) : Prop :=
  ∃ entries, raw = .object entries ∧ ∀ e ∈ entriesUnder [] entries, e.fault? = none

/-- A document is refused with a fault, which is that of the first entry that is not legal. -/
inductive Refused : Value → Fault → Prop
  | document {raw : Value} (h : raw.kind ≠ .object) :
    Refused raw (.notAnObject "<stylesheet>" raw.kind)
  | entry {entries : List (String × Value)} {before after : List Entry} {e : Entry} {fault : Fault}
    (h : entriesUnder [] entries = before ++ e :: after) (hbefore : ∀ e' ∈ before, e'.fault? = none)
    (he : e.fault? = some fault) : Refused (.object entries) fault

/-! ## Faults of results -/

section Results

variable {α β : Type}

def faultOf : Except Fault α → Option Fault
  | .ok _ => none
  | .error fault => some fault

theorem faultOf_eq_some_iff {x : Except Fault α} {fault : Fault} :
    faultOf x = some fault ↔ x = .error fault := by
  cases x <;> simp [faultOf]

theorem faultOf_eq_none_iff {x : Except Fault α} : faultOf x = none ↔ ∃ a, x = .ok a := by
  cases x <;> simp [faultOf]

/-- The first of two steps that fails decides the fault. -/
theorem faultOf_bind {x : Except Fault α} {f : α → Except Fault β} {next : Option Fault}
    (h : ∀ a, x = .ok a → faultOf (f a) = next) :
    faultOf (x >>= f) = (faultOf x).or next := by
  cases x with
  | error fault => rfl
  | ok a => exact h a rfl

/-- Of two steps the second of which cannot fail, the first one decides. -/
theorem faultOf_bind_of_none {x : Except Fault α} {f : α → Except Fault β}
    (h : ∀ a, x = .ok a → faultOf (f a) = none) : faultOf (x >>= f) = faultOf x := by
  rw [faultOf_bind h, Option.or_none]

theorem object_of_expectObject {path : String} {v : Value} {entries : List (String × Value)}
    (h : expectObject path v = .ok entries) : v = .object entries := by
  cases v with
  | object ms => cases h; rfl
  | _ => cases h

/-- The first fault in a list of entries. -/
def firstFault (es : List Entry) : Option Fault := es.findSome? Entry.fault?

theorem firstFault_append (es es' : List Entry) :
    firstFault (es ++ es') = (firstFault es).or (firstFault es') := List.findSome?_append

theorem firstFault_cons (e : Entry) (es : List Entry) :
    firstFault (e :: es) = e.fault?.or (firstFault es) := by
  rw [firstFault, List.findSome?_cons]
  cases e.fault? <;> rfl

end Results

/-! ## Contexts and the keys above them -/

namespace Context

def inMedia : Context → Bool
  | media _ => true
  | mediaSelector _ _ _ => true
  | _ => false

/-- The number of fragments around a context. -/
def fragments : Context → Nat
  | selector _ composed => if composed then 2 else 1
  | mediaSelector _ _ composed => if composed then 2 else 1
  | _ => 0

variable {c inner : Context} {query text key : String}

theorem faultOf_enterMedia : faultOf (c.enterMedia query key)
    = if c.inMedia then some (.illegalNesting .mediaInMedia key)
      else if 0 < c.fragments then some (.illegalNesting .mediaInSelector key) else none := by
  cases c with
  | selector outer composed => cases composed <;> rfl
  | _ => rfl

theorem faultOf_enterSelector : faultOf (c.enterSelector text key)
    = if c.fragments ≤ 1 then none else some (.illegalNesting .selectorInSelector key) := by
  cases c with
  | selector outer composed => cases composed <;> rfl
  | mediaSelector query outer composed => cases composed <;> rfl
  | _ => rfl

theorem enterMedia_ok (h : c.enterMedia query key = .ok inner) :
    inner.inMedia = true ∧ inner.fragments = c.fragments := by
  cases c with
  | style => cases h; exact ⟨rfl, rfl⟩
  | _ => cases h

theorem enterSelector_ok (h : c.enterSelector text key = .ok inner) :
    inner.inMedia = c.inMedia ∧ inner.fragments = c.fragments + 1 := by
  cases c with
  | selector outer composed =>
    cases composed with
    | false => cases h; exact ⟨rfl, rfl⟩
    | true => cases h
  | mediaSelector query outer composed =>
    cases composed with
    | false => cases h; exact ⟨rfl, rfl⟩
    | true => cases h
  | _ => cases h; exact ⟨rfl, rfl⟩

/-- A context is inside of what a key brings. -/
def Enters (c : Context) (k : Key) (inner : Context) : Prop :=
  inner.inMedia = (c.inMedia || k.query?.isSome)
    ∧ inner.fragments = c.fragments + if k.bringsFragment then 1 else 0

theorem withFragment_ok (h : c.withFragment text key = .ok inner) {base : String} {k : Key}
    (hk : k = .style base text ∨ k = .global base text) : c.Enters k inner := by
  have hmedia : k.query? = none := by rcases hk with rfl | rfl <;> rfl
  have hbrings : k.bringsFragment = decide (text ≠ "") := by rcases hk with rfl | rfl <;> rfl
  unfold withFragment at h
  unfold Enters
  rw [hmedia, hbrings, Option.isSome_none, Bool.or_false]
  split at h
  · cases h
    simp [*]
  · obtain ⟨h1, h2⟩ := enterSelector_ok h
    simp [*]

theorem faultOf_withFragment (hc : c.fragments = 0) : faultOf (c.withFragment text key) = none := by
  unfold withFragment
  split
  · rfl
  · rw [faultOf_enterSelector, hc]
    rfl

theorem nestedContext_ok {path : String} (h : nestedContext c key path = .ok inner) :
    ∃ k, Key.classify? key = some k ∧ c.Enters k inner := by
  unfold nestedContext classify at h
  cases hk : Key.classify? key with
  | none => rw [hk] at h; cases h
  | some k =>
    rw [hk] at h
    refine ⟨k, rfl, ?_⟩
    cases k with
    | mediaQuery query =>
      obtain ⟨hmedia, hfragments⟩ := enterMedia_ok h
      exact ⟨by simp [hmedia, Key.query?], hfragments⟩
    | fragment text =>
      obtain ⟨hmedia, hfragments⟩ := enterSelector_ok h
      exact ⟨by simp [hmedia, Key.query?], hfragments⟩
    | style base text =>
      change (if text = "" then _ else _) = _ at h
      split at h <;> cases h
    | global base text => cases h

/-- A context is what the keys above say. -/
structure Agrees (c : Context) (above : List String) : Prop where
  inMedia : c.inMedia = above.any Key.isMedia
  fragments : c.fragments = above.countP (Key.means Key.bringsFragment)

/-- A context is what the keys above say, which lead into a style and have a path. -/
structure Fits (c : Context) (path : String) (above : List String) : Prop
    extends c.Agrees above where
  inStyle : above.any (Key.means Key.namesStyle) = true
  path : path = pathTo above

theorem Agrees.enter {above : List String} (hc : c.Agrees above) {k : Key}
    (hk : Key.classify? key = some k) (henters : c.Enters k inner) :
    inner.Agrees (above ++ [key]) where
  inMedia := by
    rw [henters.1, hc.inMedia, List.any_append, List.any_cons, List.any_nil, Bool.or_false,
      Key.isMedia, Key.means_of_classify? hk]
  fragments := by
    rw [henters.2, hc.fragments, List.countP_append, List.countP_singleton,
      Key.means_of_classify? hk]

end Context

/-! ## Paths -/

theorem pathTo_append_of_all {above : List String} (h : above.all Key.isMedia = true) {key : String}
    (hkey : Key.isMedia key = false) : pathTo (above ++ [key]) = key := by
  have hdrop : (above ++ [key]).dropWhile Key.isMedia = [key] := by
    rw [List.dropWhile_append_of_pos (List.all_eq_true.1 h),
      List.dropWhile_cons_of_neg (by simp [hkey])]
  rw [pathTo, hdrop, String.intercalate_singleton]

theorem Key.isMedia_of_namesStyle {key : String} (h : Key.means Key.namesStyle key = true) :
    Key.isMedia key = false := by
  unfold Key.isMedia Key.means at *
  cases hk : Key.classify? key with
  | none => rfl
  | some k => cases k <;> simp_all [Key.namesStyle, Key.query?]

theorem pathTo_append {above : List String} (h : above.any (Key.means Key.namesStyle) = true)
    (key : String) : pathTo (above ++ [key]) = pathTo above ++ " > " ++ key := by
  have hne : above.dropWhile Key.isMedia ≠ [] := by
    obtain ⟨k, hk, hstyle⟩ := List.any_eq_true.1 h
    rw [ne_eq, List.dropWhile_eq_nil_iff]
    intro hall
    have := hall k hk
    rw [Key.isMedia_of_namesStyle hstyle] at this
    cases this
  rw [pathTo, List.dropWhile_append, if_neg (by simpa using hne),
    String.intercalate_append_of_ne_nil hne (List.cons_ne_nil _ _), pathTo]
  rfl

/-! ## Blocks -/

section Blocks

variable {c inner : Context} {path key : String} {above : List String}

theorem Context.Fits.path_append (hc : c.Fits path above) (key : String) :
    path ++ " > " ++ key = pathTo (above ++ [key]) := by
  rw [pathTo_append hc.inStyle, hc.path]

theorem Context.Fits.enter (hc : c.Fits path above)
    (h : nestedContext c key (path ++ " > " ++ key) = .ok inner) :
    inner.Fits (path ++ " > " ++ key) (above ++ [key]) := by
  obtain ⟨k, hk, henters⟩ := Context.nestedContext_ok h
  refine ⟨hc.toAgrees.enter hk henters, ?_, hc.path_append key⟩
  rw [List.any_append, hc.inStyle, Bool.true_or]

theorem faultOf_nestedContext (hc : c.Fits path above) (v : Value) :
    faultOf (nestedContext c key (path ++ " > " ++ key)) = Entry.faultOfBlock? ⟨above, key, v⟩ := by
  unfold nestedContext classify Entry.faultOfBlock? Entry.fragments Entry.path
  simp only
  rw [← hc.inMedia, ← hc.fragments, ← hc.path_append key]
  cases Key.classify? key with
  | none => rfl
  | some k =>
    cases k with
    | mediaQuery query => exact Context.faultOf_enterMedia
    | fragment text => exact Context.faultOf_enterSelector
    | style base text =>
      change faultOf (if text = "" then _ else _) = (if text = "" then _ else _)
      split <;> rfl
    | global base text => rfl

theorem faultOf_ruleValue (e : Entry) :
    faultOf (ruleValue e.key e.path e.value) = Entry.faultOfRule?.unlessScalar e := by
  obtain ⟨above, key, v⟩ := e
  unfold ruleValue Entry.faultOfRule?.unlessScalar
  cases v with
  | string text =>
    simp only
    split <;> rfl
  | _ => rfl

theorem faultOf_normalizeScalar (hc : c.Fits path above) (key : String) {v : Value}
    (hv : ∀ nested, v ≠ .object nested) (s : Specification) :
    faultOf (normalizeValue c path key s v)
      = (Entry.fault? ⟨above, key, v⟩).or (firstFault (entriesIn (above ++ [key]) v)) := by
  have hnone : entriesIn (above ++ [key]) v = [] := by
    cases v with
    | object nested => exact absurd rfl (hv nested)
    | _ => rw [entriesIn]; simp
  have hrule : Entry.fault? ⟨above, key, v⟩ = Entry.faultOfRule? ⟨above, key, v⟩ := by
    cases v with
    | object nested => exact absurd rfl (hv nested)
    | _ => exact if_pos hc.inStyle
  rw [hnone, hrule, normalizeValue, hc.path_append key]
  · change _ = Option.or _ none
    rw [Option.or_none, Entry.faultOfRule?]
    simp only
    split
    · rfl
    · rw [← faultOf_ruleValue]
      exact faultOf_bind_of_none fun value _ => rfl
  · exact hv

mutual

/-- Reading the entries of a block reports the first one that is not legal. -/
theorem faultOf_normalizeEntries {c : Context} {path : String} {above : List String}
    (hc : c.Fits path above) : ∀ (entries : List (String × Value)) (s : Specification),
      faultOf (normalizeEntries c path s entries) = firstFault (entriesUnder above entries)
  | [], s => by
    rw [normalizeEntries, entriesUnder]
    rfl
  | (key, v) :: rest, s => by
    rw [normalizeEntries, entriesUnder, List.cons_append, firstFault_cons, firstFault_append,
      ← Option.or_assoc, faultOf_bind fun s _ => faultOf_normalizeEntries hc rest s,
      faultOf_normalizeValue hc key v s]

theorem faultOf_normalizeValue {c : Context} {path : String} {above : List String}
    (hc : c.Fits path above) (key : String) : ∀ (v : Value) (s : Specification),
      faultOf (normalizeValue c path key s v)
        = (Entry.fault? ⟨above, key, v⟩).or (firstFault (entriesIn (above ++ [key]) v))
  | .object nested, s => by
    have hblock : Entry.fault? ⟨above, key, .object nested⟩
        = Entry.faultOfBlock? ⟨above, key, .object nested⟩ := if_pos hc.inStyle
    rw [normalizeValue, hblock, ← faultOf_nestedContext hc, entriesIn]
    exact faultOf_bind fun inner h => faultOf_normalizeEntries (hc.enter h) nested _
  | .null, s => faultOf_normalizeScalar hc key (by simp) s
  | .bool _, s => faultOf_normalizeScalar hc key (by simp) s
  | .number _, s => faultOf_normalizeScalar hc key (by simp) s
  | .string _, s => faultOf_normalizeScalar hc key (by simp) s
  | .array _, s => faultOf_normalizeScalar hc key (by simp) s

end

end Blocks

/-! ## Documents -/

section Documents

variable {outer : Context} {above : List String} {key : String} {v : Value}

/-- Outside of styles a context has no fragment, and all keys above it are media queries. -/
structure Context.Outside (outer : Context) (above : List String) : Prop where
  inMedia : outer.inMedia = above.any Key.isMedia
  fragments : outer.fragments = 0
  above : above.all Key.isMedia = true

theorem Key.not_bringsFragment_of_isMedia {key : String} (h : Key.isMedia key = true) :
    Key.means Key.bringsFragment key = false := by
  unfold Key.isMedia Key.means at *
  cases hk : Key.classify? key with
  | none => rfl
  | some k => cases k <;> simp_all [Key.query?, Key.bringsFragment]

theorem Context.Outside.not_inStyle (h : outer.Outside above) :
    above.any (Key.means Key.namesStyle) = false := by
  rw [List.any_eq_false]
  intro k hk hstyle
  have := List.all_eq_true.1 h.above k hk
  rw [Key.isMedia_of_namesStyle hstyle] at this
  cases this

theorem Context.Outside.agrees (h : outer.Outside above) : outer.Agrees above where
  inMedia := h.inMedia
  fragments := by
    rw [h.fragments, eq_comm, List.countP_eq_zero]
    intro k hk
    rw [Key.not_bringsFragment_of_isMedia (List.all_eq_true.1 h.above k hk)]
    exact Bool.false_ne_true

theorem faultOf_expectObject (key : String) (v : Value) (above : List String) :
    faultOf (expectObject key v) = Entry.faultOutside?.unlessObject ⟨above, key, v⟩ := by
  cases v <;> rfl

/-- The object under the key of a style is read as a block of the style. -/
theorem faultOf_normalizeStyle (houter : outer.Outside above) {base text : String} {k : Key}
    (hk : Key.classify? key = some k) (hstyle : k = .style base text ∨ k = .global base text)
    (sheet : Sheet) :
    faultOf (normalizeStyle outer key base text sheet v)
      = (Entry.faultOutside?.unlessObject ⟨above, key, v⟩).or
        (firstFault (entriesIn (above ++ [key]) v)) := by
  have hnames : Key.means Key.namesStyle key = true := by
    rw [Key.means_of_classify? hk]
    rcases hstyle with rfl | rfl <;> rfl
  unfold normalizeStyle
  rw [← faultOf_expectObject]
  refine faultOf_bind fun entries hentries => ?_
  obtain rfl := object_of_expectObject hentries
  have hfragment : faultOf (outer.withFragment text key) = none :=
    Context.faultOf_withFragment houter.fragments
  have hblock : firstFault (entriesUnder (above ++ [key]) entries)
      = (faultOf (outer.withFragment text key)).or
        (firstFault (entriesUnder (above ++ [key]) entries)) := by
    rw [hfragment, Option.none_or]
  rw [entriesIn, hblock]
  refine faultOf_bind fun c hc => ?_
  have hfits : c.Fits key (above ++ [key]) := by
    refine ⟨houter.agrees.enter hk (Context.withFragment_ok hc hstyle), ?_, ?_⟩
    · rw [List.any_append, List.any_cons, hnames, Bool.true_or, Bool.or_true]
    · rw [pathTo_append_of_all houter.above (Key.isMedia_of_namesStyle hnames)]
  rw [faultOf_bind_of_none fun s _ => rfl]
  exact faultOf_normalizeEntries hfits entries _

/-- Entries that are read one by one report the first one that is not legal. -/
theorem faultOf_foldlM {step : Sheet → String × Value → Except Fault Sheet}
    (hstep : ∀ sheet key v, faultOf (step sheet (key, v))
      = (Entry.fault? ⟨above, key, v⟩).or (firstFault (entriesIn (above ++ [key]) v)))
    (entries : List (String × Value)) (sheet : Sheet) :
    faultOf (entries.foldlM step sheet) = firstFault (entriesUnder above entries) := by
  induction entries generalizing sheet with
  | nil =>
    rw [entriesUnder]
    rfl
  | cons e entries ih =>
    obtain ⟨key, v⟩ := e
    rw [List.foldlM_cons, entriesUnder, List.cons_append, firstFault_cons, firstFault_append,
      ← Option.or_assoc, ← hstep sheet]
    exact faultOf_bind fun sheet _ => ih sheet

theorem fault?_of_outside (houter : outer.Outside above) (key : String) (v : Value) :
    Entry.fault? ⟨above, key, v⟩ = Entry.faultOutside? ⟨above, key, v⟩ :=
  if_neg (by rw [Entry.inStyle, houter.not_inStyle]; exact Bool.false_ne_true)

theorem faultOf_normalizeMediaEntry {media query : String}
    (hmedia : Key.classify? media = some (.mediaQuery query)) (sheet : Sheet) (key : String)
    (v : Value) :
    faultOf (normalizeMediaEntry query sheet (key, v))
      = (Entry.fault? ⟨[media], key, v⟩).or (firstFault (entriesIn ([media] ++ [key]) v)) := by
  have hkey : Key.isMedia media = true := by
    rw [Key.isMedia, Key.means_of_classify? hmedia]
    rfl
  have houter : (Context.media query).Outside [media] :=
    ⟨by simp [Context.inMedia, hkey], rfl, by simp [hkey]⟩
  have hquery : Entry.query? ⟨[media], key, v⟩ = some query := by
    rw [Entry.query?, List.findSome?_singleton, hmedia]
    rfl
  rw [fault?_of_outside houter]
  unfold normalizeMediaEntry classify Entry.faultOutside? Entry.standalone
  simp only [hquery]
  cases hk : Key.classify? key with
  | none => rfl
  | some k =>
    cases k with
    | mediaQuery q => rfl
    | fragment text => rfl
    | style base text => exact faultOf_normalizeStyle houter hk (Or.inl rfl) sheet
    | global base text =>
      change faultOf (if base = "$" then _ else _) = Option.or (if base = "$" then _ else _) _
      split
      · rfl
      · exact faultOf_normalizeStyle houter hk (Or.inr rfl) sheet

theorem faultOf_normalizeEntry (sheet : Sheet) (key : String) (v : Value) :
    faultOf (normalizeEntry sheet (key, v))
      = (Entry.fault? ⟨[], key, v⟩).or (firstFault (entriesIn ([] ++ [key]) v)) := by
  have houter : Context.style.Outside [] := ⟨rfl, rfl, rfl⟩
  have hquery : Entry.query? ⟨[], key, v⟩ = none := rfl
  rw [fault?_of_outside houter]
  unfold normalizeEntry classify Entry.faultOutside? Entry.standalone
  simp only [hquery]
  cases hk : Key.classify? key with
  | none => rfl
  | some k =>
    cases k with
    | mediaQuery query =>
      change faultOf (expectObject key v >>= fun entries =>
          entries.foldlM (normalizeMediaEntry query) sheet)
        = (Entry.faultOutside?.unlessObject ⟨[], key, v⟩).or _
      rw [← faultOf_expectObject]
      refine faultOf_bind fun entries hentries => ?_
      obtain rfl := object_of_expectObject hentries
      rw [entriesIn, List.nil_append]
      exact faultOf_foldlM (faultOf_normalizeMediaEntry hk) entries sheet
    | fragment text => rfl
    | style base text => exact faultOf_normalizeStyle houter hk (Or.inl rfl) sheet
    | global base text =>
      change faultOf (if base = "$" then _ else _) = Option.or (if base = "$" then _ else _) _
      split
      · rfl
      · exact faultOf_normalizeStyle houter hk (Or.inr rfl) sheet

theorem faultOf_normalize (entries : List (String × Value)) :
    faultOf (normalize (.object entries)) = firstFault (entriesUnder [] entries) :=
  faultOf_foldlM faultOf_normalizeEntry entries []

end Documents

/-- Normalizing succeeds for legal documents, and otherwise it reports the fault of the first entry
that is not legal. -/
theorem normalize_accepts_legal (raw : Value) :
    ((∃ sheet, normalize raw = .ok sheet) ↔ Legal raw)
      ∧ ∀ fault, normalize raw = .error fault ↔ Refused raw fault := by
  by_cases hraw : raw.kind = .object
  · obtain ⟨entries, rfl⟩ : ∃ entries, raw = .object entries := by
      cases raw with
      | object entries => exact ⟨entries, rfl⟩
      | _ => cases hraw
    constructor
    · rw [← faultOf_eq_none_iff, faultOf_normalize, firstFault, List.findSome?_eq_none_iff]
      exact ⟨fun h => ⟨entries, rfl, h⟩, fun ⟨_, hentries, h⟩ => by cases hentries; exact h⟩
    · intro fault
      rw [← faultOf_eq_some_iff, faultOf_normalize, firstFault, List.findSome?_eq_some_iff]
      constructor
      · rintro ⟨before, e, after, h, he, hbefore⟩
        exact .entry h hbefore he
      · rintro (h | ⟨h, hbefore, he⟩)
        · exact absurd hraw h
        · exact ⟨_, _, _, h, he, hbefore⟩
  · have hrefused : normalize raw = .error (.notAnObject documentPath raw.kind) := by
      cases raw with
      | object entries => exact absurd rfl hraw
      | _ => rfl
    rw [hrefused]
    constructor
    · constructor
      · rintro ⟨_, h⟩
        cases h
      · rintro ⟨_, rfl, _⟩
        exact absurd rfl hraw
    · intro fault
      constructor
      · rintro ⟨⟩
        exact .document hraw
      · rintro (_ | _)
        · rfl
        · exact absurd rfl hraw

end NestedStyles
