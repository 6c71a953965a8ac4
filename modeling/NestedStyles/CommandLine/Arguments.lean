/-!
# Command-line arguments

Arguments are flags and inputs in any order. A flag that takes a value takes it after `=`, as the
next argument, or, for a flag of one letter, right after the letter; a value that is an argument of
its own does not start with a hyphen, but may be a hyphen. Flags are given once and in full, paths
are not empty, and after `--` everything is an input. The flag for help ends the reading at once:
what follows it may be wrong.

* `Arguments` is what is asked for, `UsageError` why it is no build;
* `Arguments.parse` reads a list of arguments.
-/
namespace NestedStyles.CommandLine

/-- What a run is asked to do. -/
structure Arguments where
  /-- Files with the sheets of a source each. -/
  inputs : List String := []
  config : Option String := none
  /-- Where the CSS goes instead of standard output. -/
  output : Option String := none
  /-- Where the class names go. -/
  names : Option String := none
  /-- The folder that source identifiers are relative to. -/
  root : Option String := none
  cacheDir : Option String := none
  namePrefix : Option String := none
  minify : Bool := false
  vendorPrefixes : Bool := false
  compress : Bool := false
  clearCache : Bool := false
  deriving DecidableEq, Repr, Inhabited

/-- Why a list of arguments asks for no build: it asks for help, or something is wrong with it. -/
inductive UsageError where
  | help
  | unknownFlag (text : String)
  | repeatedFlag (name : String)
  | missingValue (name : String)
  | unexpectedValue (name : String)
  | emptyPath (name : String)
  | noInput
  deriving DecidableEq, Repr

/-- The wording of a usage error. That of the help is not fixed. -/
def UsageError.message : UsageError → String
  | .help =>
    "Compile extracted style objects into CSS and class name tables\n\n" ++
      "Usage: stylec [OPTIONS] <INPUTS>...\n"
  | .unknownFlag text => "unexpected argument '" ++ text ++ "'"
  | .repeatedFlag name => "the argument '" ++ name ++ "' cannot be used multiple times"
  | .missingValue name => "a value is required for '" ++ name ++ "'"
  | .unexpectedValue name => "no value is allowed for '" ++ name ++ "'"
  | .emptyPath name => "a path is required for '" ++ name ++ "'"
  | .noInput => "no input file is given"

inductive Switch where
  | minify | vendorPrefixes | compress | clearCache
  deriving DecidableEq, Repr

inductive Setting where
  | config | output | names | root | cacheDir | namePrefix
  deriving DecidableEq, Repr

inductive Flag where
  | help
  | switch (s : Switch)
  | setting (s : Setting)
  deriving DecidableEq, Repr

/-- The flags by their names, the short ones included. -/
def flags : List (String × Flag) :=
  [("--config", .setting .config), ("-c", .setting .config),
   ("--output", .setting .output), ("-o", .setting .output),
   ("--names", .setting .names), ("--root", .setting .root),
   ("--cache-dir", .setting .cacheDir), ("--prefix", .setting .namePrefix),
   ("--minify", .switch .minify), ("--vendor-prefixes", .switch .vendorPrefixes),
   ("--compress", .switch .compress), ("--clear-cache", .switch .clearCache),
   ("--help", .help), ("-h", .help)]

namespace Arguments

/-- Turns a switch on, which must be off. -/
def turnOn (a : Arguments) (name : String) (s : Switch) : Except UsageError Arguments :=
  let isOn := match s with
    | .minify => a.minify
    | .vendorPrefixes => a.vendorPrefixes
    | .compress => a.compress
    | .clearCache => a.clearCache
  if isOn then .error (.repeatedFlag name)
  else
    .ok <| match s with
      | .minify => { a with minify := true }
      | .vendorPrefixes => { a with vendorPrefixes := true }
      | .compress => { a with compress := true }
      | .clearCache => { a with clearCache := true }

def setting (a : Arguments) : Setting → Option String
  | .config => a.config
  | .output => a.output
  | .names => a.names
  | .root => a.root
  | .cacheDir => a.cacheDir
  | .namePrefix => a.namePrefix

/-- Gives a setting its value, of which it must have none. All but the prefix are paths. -/
def set (a : Arguments) (name : String) (s : Setting) (v : String) : Except UsageError Arguments :=
  if (a.setting s).isSome then .error (.repeatedFlag name)
  else if v = "" ∧ s ≠ .namePrefix then .error (.emptyPath name)
  else
    .ok <| match s with
      | .config => { a with config := some v }
      | .output => { a with output := some v }
      | .names => { a with names := some v }
      | .root => { a with root := some v }
      | .cacheDir => { a with cacheDir := some v }
      | .namePrefix => { a with namePrefix := some v }

def addInput (a : Arguments) (path : String) : Except UsageError Arguments :=
  if path = "" then .error (.emptyPath "input") else .ok { a with inputs := a.inputs ++ [path] }

/-- An argument as a flag's name and the value attached to it, if any. -/
def splitFlag (argument : String) : String × Option String :=
  match argument.toList with
  | '-' :: '-' :: rest =>
    let name := String.ofList ('-' :: '-' :: rest.takeWhile (· ≠ '='))
    match rest.dropWhile (· ≠ '=') with
    | _ :: value => (name, some (.ofList value))
    | [] => (name, none)
  | '-' :: letter :: rest =>
    let name := String.ofList ['-', letter]
    match rest with
    | [] => (name, none)
    | '=' :: value => (name, some (.ofList value))
    | value => (name, some (.ofList value))
  | _ => (argument, none)

/-- Whether an argument is a flag rather than an input or a value. -/
def looksLikeFlag (argument : String) : Bool :=
  argument.toList.head? = some '-' && argument ≠ "-"

/-- Reads arguments one after the other. -/
def parseFrom (a : Arguments) : List String → Except UsageError Arguments
  | [] => .ok a
  | "--" :: rest => rest.foldlM addInput a
  | argument :: rest =>
    if looksLikeFlag argument then
      let (name, attached) := splitFlag argument
      match flags.lookup name, attached, rest with
      | none, _, _ => .error (.unknownFlag argument)
      -- what follows the letter in the same argument is not looked at
      | some .help, some _, _ => .error (if name = "-h" then .help else .unexpectedValue name)
      | some .help, none, _ => .error .help
      | some (.switch _), some _, _ => .error (.unexpectedValue name)
      | some (.switch s), none, rest =>
        match a.turnOn name s with
        | .ok a => parseFrom a rest
        | .error e => .error e
      | some (.setting s), some v, rest =>
        match a.set name s v with
        | .ok a => parseFrom a rest
        | .error e => .error e
      | some (.setting _), none, [] => .error (.missingValue name)
      | some (.setting s), none, v :: rest =>
        if looksLikeFlag v then .error (.missingValue name)
        else
          match a.set name s v with
          | .ok a => parseFrom a rest
          | .error e => .error e
    else
      match a.addInput argument with
      | .ok a => parseFrom a rest
      | .error e => .error e

/-- What a list of arguments asks for. -/
def parse (arguments : List String) : Except UsageError Arguments := do
  let a ← parseFrom {} arguments
  if a.inputs.isEmpty then .error .noInput else .ok a

end Arguments
end NestedStyles.CommandLine
