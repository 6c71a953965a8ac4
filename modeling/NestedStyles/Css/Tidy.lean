import NestedStyles.Css.Prefix
/-!
# Tidying rules

An engine puts the rules of a list on a shelf, one after the other, and on the way

* orders the declarations of a rule (`ordered`): boxes and display come last, each property of
  theirs once;
* joins a style rule to the one before it if they share their selectors or their declarations
  (`join?`), and goes on joining backwards as long as that works (`joinBack`);
* leaves out rules without contents;
* blanks a rule when a later one has the same selectors and properties and so overrides all of it.
  The shelf notes for every key, that is selectors and properties, the place at which it was put
  down. Joining rules does not change the notes; a note counts if the rule at its place has its key,
  and the rule just put down may be that rule.

Rules inside `@media` are tidied in the same way; neighbouring `@media` rules with one query become
one.
-/
namespace NestedStyles.Css

/-! ## Declarations -/

/-- The properties that come after all others, in this order, each with its last value. -/
def lateProperties : List String :=
  ["-webkit-box-flex", "-moz-box-flex", "-webkit-flex", "-ms-flex", "flex", "margin", "padding",
   "display"]

def lastOf? (ds : List Declared) (property : String) : Option Declared :=
  ds.reverse.find? (·.property = property)

/-- Adds a declaration at the end; a second `color` replaces the first in its place. -/
def place (ds : List Declared) (d : Declared) : List Declared :=
  if d.property = "color" && ds.any (·.property = d.property) then
    ds.map fun old => if old.property = d.property then d else old
  else ds ++ [d]

/-- The declarations of a rule in the order in which they are written. -/
def ordered (ds : List Declared) : List Declared :=
  (ds.filter fun d => !lateProperties.contains d.property).foldl place [] ++
    lateProperties.filterMap (lastOf? ds)

/-! ## Joining -/

/-- Two neighbouring style rules in one, where that changes nothing. -/
def join? : Rule → Rule → Option Rule
  | .style s ds, .style s' ds' =>
    if s' = s then some (.style s (ordered (ds ++ ds')))
    else if ds' = ds then some (.style (s ++ s') ds)
    else none
  | _, _ => none

/-- Joins the newest rule, which comes first, to those before it as long as that works. -/
def joinBack : List Rule → List Rule
  | later :: earlier :: rest =>
    match join? earlier later with
    | some rule => joinBack (rule :: rest)
    | none => later :: earlier :: rest
  | rules => rules
termination_by rules => rules.length

/-! ## The shelf -/

/-- The selectors of a style rule and its properties. -/
abbrev RuleKey := List String × List String

def Rule.key? : Rule → Option RuleKey
  | .style s ds => some (s, ds.map Declared.property)
  | _ => none

/-- The rules so far, and where keys were put down. -/
structure Shelf where
  /-- The rules, the newest first. -/
  rules : List Rule := []
  /-- Keys and the places, counted from the oldest rule, at which they were put down. -/
  notes : List (RuleKey × Nat) := []

namespace Shelf

def rule? (s : Shelf) (n : Nat) : Option Rule := s.rules.reverse[n]?

def blank (s : Shelf) (n : Nat) : Shelf :=
  { s with rules := s.rules.set (s.rules.length - 1 - n) .blank }

/-- Whether a note says where the key stands. -/
def holds (s : Shelf) (key : RuleKey) (note : RuleKey × Nat) : Bool :=
  note.1 = key && (s.rule? note.2).bind Rule.key? = some key

/-- Notes the place of the newest rule. A rule with its key that was noted before is blanked. -/
def note (s : Shelf) (key : RuleKey) : Shelf :=
  let here := (key, s.rules.length - 1)
  match s.notes.find? (s.holds key) with
  | some old => { s.blank old.2 with notes := s.notes.erase old ++ [here] }
  | none => { s with notes := s.notes ++ [here] }

/-- Puts down a style rule, if it declares something. -/
def putStyle (s : Shelf) (selectors : List String) (ds : List Declared) : Shelf :=
  if ds.isEmpty then s
  else
    { s with rules := .style selectors ds :: s.rules }.note (selectors, ds.map Declared.property)

/-- Takes a style rule: joins it to the newest rule or puts it down. -/
def takeStyle (s : Shelf) (selectors : List String) (ds : List Declared) : Shelf :=
  match s.rules with
  | [] => s.putStyle selectors ds
  | newest :: rest =>
    match join? newest (.style selectors ds) with
    | some rule => { s with rules := joinBack (rule :: rest) }
    | none => s.putStyle selectors ds

/-- Takes an `@media` rule, whose rules are tidied by `inner`. -/
def takeMedia (inner : List Rule → List Rule) (s : Shelf) (query : String) (rules : List Rule) :
    Shelf :=
  let apart : Shelf :=
    match inner rules with
    | [] => s
    | rules => { s with rules := .media query rules :: s.rules }
  match s.rules with
  | .media query' rules' :: rest =>
    if query' = query then { s with rules := .media query (inner (rules' ++ rules)) :: rest }
    else apart
  | _ => apart

def take (targets : Option BrowserTargets) (inner : List Rule → List Rule) (s : Shelf) :
    Rule → Shelf
  | .style selectors ds => s.takeStyle selectors (ordered (ds.flatMap (withPrefixes targets)))
  | .media query rules => s.takeMedia inner query rules
  | rule => { s with rules := rule :: s.rules }

end Shelf

/-! ## Lists of rules -/

mutual

def Rule.depth : Rule → Nat
  | .media _ rules => depthOf rules + 1
  | _ => 0

def depthOf : List Rule → Nat
  | [] => 0
  | rule :: rules => max rule.depth (depthOf rules)

end

/-- Rules as the targets need them, down to `levels` levels of nesting. -/
def tidyTo (targets : Option BrowserTargets) : Nat → List Rule → List Rule
  | 0, rules => rules
  | levels + 1, rules =>
    (rules.foldl (Shelf.take targets (tidyTo targets levels)) {}).rules.reverse

def tidy (targets : Option BrowserTargets) (rules : List Rule) : List Rule :=
  tidyTo targets (depthOf rules + 1) rules

end NestedStyles.Css
