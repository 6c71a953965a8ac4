import NestedStyles.Css.Syntax
import NestedStyles.Options.Basic
/-!
# Values and vendor prefixes

What an engine does to a single declaration. Lengths of zero lose their unit and decimals the zero
before the point; the properties of flexible boxes get the prefixed forms that the targets need,
before the standard one.

* `shortValue` shortens a value;
* `namesFor` are the names under which a property is declared, `withPrefixes` the declarations
  themselves.
-/
namespace NestedStyles.Css

/-! ## Values -/

/-- A number without the zero before its point. -/
def shortNumber (whole decimals : List Char) : List Char :=
  match decimals with
  | [] => whole
  | _ => (if whole.all (· = '0') then [] else whole) ++ '.' :: decimals

/-- One word of a value, shortened if it is a number with a unit or none. -/
def shortWord (cs : List Char) : List Char :=
  let sign := cs.takeWhile fun c => c = '-' || c = '+'
  let rest := cs.drop sign.length
  let whole := rest.takeWhile Char.isDigit
  let rest := rest.dropWhile Char.isDigit
  let (decimals, unit) :=
    match rest with
    | '.' :: more => (more.takeWhile Char.isDigit, more.dropWhile Char.isDigit)
    | _ => ([], rest)
  if whole.isEmpty && decimals.isEmpty then cs
  else if (whole ++ decimals).all (· = '0') && unit = ['p', 'x'] then ['0']
  else sign ++ shortNumber whole decimals ++ unit

def wordsOf : List Char → List (List Char)
  | [] => [[]]
  | ' ' :: cs => [] :: wordsOf cs
  | c :: cs =>
    match wordsOf cs with
    | [] => [[c]]
    | w :: ws => (c :: w) :: ws

def shortValue (value : String) : String :=
  .ofList ([' '].intercalate ((wordsOf value.toList).map shortWord))

/-! ## Prefixes -/

/-- Whether a packed version lies between two others, each given as major and minor version. -/
def within (low high : Nat × Nat) (version : Option UInt32) : Bool :=
  let pack (v : Nat × Nat) := v.1 * Nat.pow 2 16 + v.2 * Nat.pow 2 8
  version.any fun v => pack low ≤ v.toNat && v.toNat ≤ pack high

/-- Whether some target needs the `-webkit-` form of flexible boxes. -/
def needsWebkitFlex (t : BrowserTargets) : Bool :=
  within (2, 1) (4, 4) t.android || within (4, 0) (28, 0) t.chrome ||
    within (3, 2) (8, 1) t.iosSaf || within (15, 0) (16, 0) t.opera || within (3, 1) (8, 0) t.safari

/-- Whether some target has the first draft of flexible boxes only, in its `-webkit-` form. -/
def needsWebkitBox (t : BrowserTargets) : Bool :=
  within (2, 1) (4, 2) t.android || within (4, 0) (20, 0) t.chrome ||
    within (3, 2) (6, 0) t.iosSaf || within (3, 1) (6, 0) t.safari

/-- Whether some target has the first draft of flexible boxes only, in its `-moz-` form. -/
def needsMozBox (t : BrowserTargets) : Bool := within (2, 0) (21, 0) t.firefox

/-- Whether some target needs the `-ms-` form of flexible boxes. -/
def needsMsFlex (t : BrowserTargets) : Bool := within (10, 0) (10, 0) t.ie

/-- The names under which a property is declared for the targets, the standard one last. -/
def namesFor (targets : Option BrowserTargets) (property : String) : List String :=
  match targets with
  | none => [property]
  | some t =>
    if property = "flex" then
      (if needsWebkitBox t then ["-webkit-box-flex"] else []) ++
        (if needsMozBox t then ["-moz-box-flex"] else []) ++
        (if needsWebkitFlex t then ["-webkit-flex"] else []) ++
        (if needsMsFlex t then ["-ms-flex"] else []) ++ [property]
    else [property]

/-- A declaration with its prefixed forms before it. -/
def withPrefixes (targets : Option BrowserTargets) (d : Declared) : List Declared :=
  (namesFor targets d.property).map fun name => ⟨name, shortValue d.value⟩

end NestedStyles.Css
