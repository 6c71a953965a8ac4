import NestedStyles.Json.Basic
import NestedStyles.Storage.Cause
/-!
# Faults

Everything that can keep a source from being compiled, by cause. `Fault.message` is the one place
where causes become words.
-/
namespace NestedStyles

/-- Which rule of nesting an entry breaks. -/
inductive NestingViolation where
  | selectorInSelector
  | mediaInMedia
  | mediaInSelector
  deriving DecidableEq, Repr

def NestingViolation.message : NestingViolation → String
  | .selectorInSelector => "styles cannot be nested into each other"
  | .mediaInMedia => "media queries cannot be nested into each other"
  | .mediaInSelector => "media queries cannot be nested into selectors"

inductive ValueProblem where
  | notScalar
  | blank
  deriving DecidableEq, Repr

def ValueProblem.message : ValueProblem → String
  | .notScalar => "value must be a number or a string"
  | .blank => "string value cannot be blank"

/-- The causes for which a source is refused. -/
inductive Fault where
  /-- A value of kind `found` stands at `path`, where an object is needed. -/
  | notAnObject (path : String) (found : Json.Kind)
  /-- A key that is neither a style nor a fragment nor a media query. -/
  | invalidStyleName (name : String)
  /-- The value at `path` is no rule value. -/
  | invalidRuleValue (path : String) (problem : ValueProblem)
  /-- A block that may not stand where it does. -/
  | illegalNesting (violation : NestingViolation) (key : String)
  /-- A fragment without a style at the top of a sheet. -/
  | standaloneSelector (key : String)
  /-- A fragment without a style at the top of a media query. -/
  | standaloneSelectorInMedia (key query : String)
  /-- A file operation of the class name cache failed. -/
  | cacheStorage (path : String) (cause : Storage.Cause)
  /-- A block of generated CSS does not parse. -/
  | postProcess
  /-- The options are not what they should be; `source` is the file that they come from, if any. -/
  | invalidOptions (source : Option String)
  deriving DecidableEq, Repr

def Fault.message : Fault → String
  | .notAnObject path found =>
    "value must be a plain object (found " ++ found.name ++ " at `" ++ path ++ "`)"
  | .invalidStyleName name => "style name is invalid: `" ++ name ++ "`"
  | .invalidRuleValue path problem => problem.message ++ ": `" ++ path ++ "`"
  | .illegalNesting violation key => violation.message ++ ": `" ++ key ++ "`"
  | .standaloneSelector key =>
    "stand-alone selectors are not allowed at the top-level: `" ++ key ++ "`"
  | .standaloneSelectorInMedia key query =>
    "stand-alone selectors are not allowed in top-level media queries: `" ++ key ++ "` in `@"
      ++ query ++ "`"
  | .cacheStorage path cause =>
    "class name cache storage failed at " ++ path ++ ": " ++ cause.message
  | .postProcess => "CSS post-processing failed: a block does not parse"
  | .invalidOptions none => "invalid options: the text is no options record"
  | .invalidOptions (some source) => "invalid options: " ++ source ++ " holds no options record"

end NestedStyles
