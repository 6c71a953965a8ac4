import NestedStyles.Css.PostProcess
import NestedStyles.Css.Tidy
/-!
# A small CSS engine

An engine for style rules and `@media`, enough for the blocks that are generated from plain
declarations: it reads a block, tidies its rules for the targets, and prints them.

* `Rule.print` and `Rule.printShort` write a rule on lines of its own or in its shortest form;
* `engine` puts the parts together.
-/
namespace NestedStyles.Css

open Text (indent)

def Rule.isUnknown : Rule → Bool
  | .unknown _ => true
  | _ => false

/-- Whether nothing is written for a rule. -/
def Rule.isBlank : Rule → Bool
  | .blank => true
  | _ => false

mutual

/-- A rule on lines of its own; the first one is not indented. -/
def Rule.print (level : Nat) : Rule → String
  | .style selectors ds =>
    ", ".intercalate selectors ++ " \x7b\n" ++
      String.join (ds.map fun d => indent (level + 1) ++ d.property ++ ": " ++ d.value ++ ";\n") ++
      indent level ++ "\x7d"
  | .media query rules =>
    "@media " ++ query ++ " \x7b\n" ++
      ("\n\n").intercalate (printRules (level + 1) rules) ++ "\n" ++ indent level ++ "\x7d"
  | .unknown name => "@" ++ name
  | .blank => ""

/-- Rules at a level, each with its indentation. -/
def printRules (level : Nat) : List Rule → List String
  | [] => []
  | rule :: rest =>
    if rule.isBlank then printRules level rest
    else (indent level ++ rule.print level) :: printRules level rest

end

mutual

/-- A rule in its shortest form. -/
def Rule.printShort : Rule → String
  | .style selectors ds =>
    ",".intercalate selectors ++ "\x7b" ++
      ";".intercalate (ds.map fun d => d.property ++ ":" ++ d.value) ++ "\x7d"
  | .media query rules => "@media " ++ query ++ "\x7b" ++ printShortRules rules ++ "\x7d"
  | .unknown name => "@" ++ name
  | .blank => ""

def printShortRules : List Rule → String
  | [] => ""
  | rule :: rest => rule.printShort ++ printShortRules rest

end

def engine : Engine where
  process targets minify block := do
    let rules ← rules? block
    if rules.any Rule.isUnknown then return .unknownAtRule
    let rules := tidy targets rules
    return .css (if minify then printShortRules rules else "\n\n".intercalate (printRules 0 rules))

end NestedStyles.Css
