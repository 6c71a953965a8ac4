import NestedStyles.Fault
import NestedStyles.Style.Key
import NestedStyles.Style.Sheet
import NestedStyles.Decimal.Nearest
/-!
# From nested objects to sheets

A raw style object names styles at its top, alone or inside media queries; a style's object holds
rules, and nested objects under fragments and media queries. Normalizing files every rule under its
style and its place there: a document is read top to bottom, entries for the same place are merged,
and a later value replaces an earlier one where it stands.

* `Context` is where in a style's object an entry stands; `enterMedia` and `enterSelector` are the
  ways one level deeper, and the only places where a nesting fault arises. At most two fragments
  meet: one of the style key or of a block, and one nested into it;
* `ruleValue` judges the value of a property;
* `normalizeBlock` reads one style's object, `normalize` a whole document; the first entry that is
  not legal decides the fault.
-/
namespace NestedStyles

open Json (Value)

/-! ## Contexts -/

/-- Where in a style's object an entry stands. -/
inductive Context where
  /-- Directly in the style. -/
  | style
  /-- In a fragment, `composed` of two or not. -/
  | selector (fragment : String) (composed : Bool)
  /-- In a media query, but in no fragment. -/
  | media (query : String)
  /-- In a fragment in a media query. -/
  | mediaSelector (query fragment : String) (composed : Bool)
  deriving DecidableEq, Repr

namespace Context

/-- The place whose rules are written in this context. -/
def place : Context → Place
  | style => .style
  | selector fragment _ => .selector fragment
  | media query => .media query
  | mediaSelector query fragment _ => .mediaSelector query fragment

/-- The context inside a media query whose key is `key`. -/
def enterMedia (query key : String) : Context → Except Fault Context
  | style => .ok (media query)
  | media _ => .error (.illegalNesting .mediaInMedia key)
  | mediaSelector _ _ _ => .error (.illegalNesting .mediaInMedia key)
  | selector _ _ => .error (.illegalNesting .mediaInSelector key)

/-- The context inside a fragment whose key is `key`. -/
def enterSelector (fragment key : String) : Context → Except Fault Context
  | style => .ok (selector fragment false)
  | media query => .ok (mediaSelector query fragment false)
  | selector outer false => .ok (selector (outer ++ fragment) true)
  | mediaSelector query outer false => .ok (mediaSelector query (outer ++ fragment) true)
  | selector _ true => .error (.illegalNesting .selectorInSelector key)
  | mediaSelector _ _ true => .error (.illegalNesting .selectorInSelector key)

/-- The context for a style whose key carries `fragment`, which may be empty. -/
def withFragment (fragment key : String) (c : Context) : Except Fault Context :=
  if fragment = "" then .ok c else c.enterSelector fragment key

end Context

/-! ## Values -/

def expectObject (path : String) (v : Value) : Except Fault (List (String × Value)) :=
  match v with
  | .object ms => .ok ms
  | v => .error (.notAnObject path v.kind)

def classify (key : String) : Except Fault Key :=
  match Key.classify? key with
  | some k => .ok k
  | none => .error (.invalidStyleName key)

/-- The double nearest to a number. -/
def numberValue : Json.Number → Float
  | .int n => Decimal.nearest (n < 0) n.natAbs 0
  | .real x => x

/-- The value of `property`, which stands at `path`: a number, or a text that is not blank; only
`content` may be. -/
def ruleValue (property path : String) (v : Value) : Except Fault RuleValue :=
  match v with
  | .string s =>
    if property ≠ "content" ∧ Text.isBlankText s then .error (.invalidRuleValue path .blank)
    else .ok (.text s)
  | .number n => .ok (.number (numberValue n))
  | _ => .error (.invalidRuleValue path .notScalar)

/-! ## Blocks and documents -/

/-- The context of the object under `key` in a block. -/
def nestedContext (c : Context) (key path : String) : Except Fault Context := do
  match ← classify key with
  | .mediaQuery query => c.enterMedia query key
  | .fragment fragment => c.enterSelector fragment key
  | .style _ fragment =>
    if fragment = "" then .error (.invalidRuleValue path .notScalar)
    else .error (.illegalNesting .selectorInSelector key)
  | .global _ _ => .error (.illegalNesting .selectorInSelector key)

mutual

/-- Reads the entries of a block, the object of a style or one nested into it, into the style's
specification. -/
def normalizeEntries (c : Context) (path : String) (s : Specification) :
    List (String × Value) → Except Fault Specification
  | [] => .ok s
  | (key, v) :: rest => do
    let s ← normalizeValue c path key s v
    normalizeEntries c path s rest

/-- Reads the value under `key` of the block at `path`: an object is a block nested into it, whose
place exists from then on even if it holds no rule; anything else is a rule. -/
def normalizeValue (c : Context) (path key : String) (s : Specification) :
    Value → Except Fault Specification
  | .object nested => do
    let path := path ++ " > " ++ key
    let inner ← nestedContext c key path
    normalizeEntries inner path (s.updateAt inner.place id) nested
  | v => do
    let path := path ++ " > " ++ key
    if Key.looksLikeSelector key then .error (.notAnObject path v.kind)
    else
      let value ← ruleValue key path v
      return s.updateAt c.place (·.insert key value)

end

/-- Reads the object of a style into its specification. -/
def normalizeBlock (c : Context) (path : String) (s : Specification)
    (entries : List (String × Value)) : Except Fault Specification :=
  normalizeEntries c path (s.updateAt c.place id) entries

/-- Reads the object under a style key, with the given base and fragment, into the sheet. -/
def normalizeStyle (outer : Context) (key base fragment : String) (sheet : Sheet) (v : Value) :
    Except Fault Sheet := do
  let block ← expectObject key v
  let c ← outer.withFragment fragment key
  let s ← normalizeBlock c key ((sheet.get? base).getD {}) block
  return sheet.insert base s

/-- Reads one entry of a media query at the top of a document. -/
def normalizeMediaEntry (query : String) (sheet : Sheet) (entry : String × Value) :
    Except Fault Sheet := do
  let (key, v) := entry
  match ← classify key with
  | .mediaQuery _ => .error (.illegalNesting .mediaInMedia key)
  | .fragment _ => .error (.standaloneSelectorInMedia key query)
  | .style base fragment => normalizeStyle (.media query) key base fragment sheet v
  | .global base fragment =>
    if base = "$" then .error (.standaloneSelectorInMedia key query)
    else normalizeStyle (.media query) key base fragment sheet v

/-- Reads one entry at the top of a document. -/
def normalizeEntry (sheet : Sheet) (entry : String × Value) : Except Fault Sheet := do
  let (key, v) := entry
  match ← classify key with
  | .mediaQuery query => (← expectObject key v).foldlM (normalizeMediaEntry query) sheet
  | .fragment _ => .error (.standaloneSelector key)
  | .style base fragment => normalizeStyle .style key base fragment sheet v
  | .global base fragment =>
    if base = "$" then .error (.standaloneSelector key)
    else normalizeStyle .style key base fragment sheet v

def documentPath : String := "<stylesheet>"

/-- The sheet that a raw style object describes. -/
def normalize (raw : Value) : Except Fault Sheet := do
  (← expectObject documentPath raw).foldlM normalizeEntry []

end NestedStyles
