import NestedStyles.CommandLine.Arguments
import NestedStyles.Compile
import NestedStyles.Json.Writer
import NestedStyles.Options.Reader
import NestedStyles.Source.Identifier
/-!
# Command-line runs

A run compiles its inputs one after the other, in a workspace, and only when all of them are
compiled does it write the bundle of their CSS and then the table of their class names. So a run
that fails to compile writes nothing but tokens.

* `Failure` is what can stop a run, with its chain of messages;
* `loadOptions` is the configuration file with the flags on top;
* `run` is the whole: an exit code, standard output and the workspace afterwards.
-/
namespace NestedStyles.CommandLine

open Cache (DiskStore Handle Store Workspace)
open Storage (Cause)

inductive Failure where
  | usage (error : UsageError)
  | options (fault : Fault)
  | clearCache (fault : Fault)
  | read (path : String) (cause : Cause)
  | notJson (path : String)
  | compile (file : String) (fault : Fault)
  | create (path : String) (cause : Cause)
  | write (path : String) (cause : Cause)
  deriving DecidableEq, Repr

namespace Failure

/-- The messages of a failure, from what was tried to why it failed. -/
def chain : Failure → List String
  | usage error => [error.message]
  | options fault => [fault.message]
  | clearCache fault => ["failed to clear the class name cache", fault.message]
  | read path cause => ["failed to read " ++ path, cause.message]
  | notJson path => [path ++ " is not valid JSON"]
  | compile file fault => ["failed to compile stylesheets of " ++ file, fault.message]
  | create path cause => ["failed to create " ++ path, cause.message]
  | write path cause => ["failed to write " ++ path, cause.message]

def code : Failure → Nat
  | usage _ => 2
  | _ => 1

end Failure

structure Outcome where
  stdout : String := ""
  failure : Option Failure := none
  deriving Repr, Inhabited

def Outcome.code (o : Outcome) : Nat := o.failure.elim 0 Failure.code

/-- The answer to arguments that ask for no build. -/
def Outcome.ofUsage : UsageError → Outcome
  | .help => { stdout := UsageError.help.message }
  | error => { failure := some (.usage error) }

/-- Options with the flags of a run on top. -/
def applyFlags (a : Arguments) (o : Options) : Options :=
  { o with
    minify := o.minify || a.minify
    vendorPrefixes :=
      if a.vendorPrefixes && o.vendorPrefixes = .enabled false then .enabled true
      else o.vendorPrefixes
    compressClassNames := o.compressClassNames || a.compress
    cacheDir := a.cacheDir <|> o.cacheDir
    namePrefix := a.namePrefix <|> o.namePrefix }

def optionsFromFile (w : Workspace) (path : String) : Except Fault Options :=
  match w.tree.readText path with
  | .ok text => Options.parse text (some path)
  | .error _ => .error (.invalidOptions (some path))

def loadOptions (w : Workspace) (a : Arguments) : Except Fault Options := do
  let o ← match a.config with
    | some path => optionsFromFile w path
    | none => pure {}
  return applyFlags a o

/-- The folder in which a run keeps its tokens, if it keeps them on disk. -/
def storeOf (w : Workspace) (a : Arguments) : Option DiskStore :=
  match (loadOptions w a).toOption.map Handle.forOptions with
  | some (.disk store) => some store
  | _ => none

def homePath (w : Workspace) : String := Storage.Path.ofLocation w.tree.home

/-- What a run works with: options, a handle on its tokens, the workspace. -/
structure Session where
  options : Options
  handle : Handle
  workspace : Workspace

def Session.use {α : Type} (s : Session) (action : Cache.StoreM α) : Except Fault α × Session :=
  let (result, handle, workspace) := s.workspace.use s.handle action
  (result, { s with handle, workspace })

def compileFile (e : Css.Engine) (root : String) (s : Session) (input : String) :
    Except Failure CompiledSource × Session :=
  match s.workspace.tree.readText input with
  | .error cause => (.error (.read input cause), s)
  | .ok text =>
    match Json.parseSettled? text with
    | none => (.error (.notJson input), s)
    | some sheets =>
      let file := Source.identifier (some (Storage.Path.withoutExtension input)) root
      let (result, s) := s.use (compileSource e s.options file sheets)
      (result.mapError (.compile file), s)

/-- Compiles files in their order, up to the first that fails. -/
def compileFiles (e : Css.Engine) (root : String) (s : Session) :
    List String → Except Failure (List CompiledSource) × Session
  | [] => (.ok [], s)
  | input :: rest =>
    match compileFile e root s input with
    | (.error failure, s) => (.error failure, s)
    | (.ok compiled, s) =>
      let (result, s) := compileFiles e root s rest
      (result.map (compiled :: ·), s)

/-- Writes the bundle to a file, whose folder is made if need be. Folders that have been made stay
even if the bundle cannot be written. -/
def writeBundle (w : Workspace) (path css : String) : Except Failure Unit × Workspace :=
  let folder := Storage.Path.parent path
  match w.tree.makeFolders folder with
  | (tree, .error cause) => (.error (.create folder cause), { w with tree })
  | (tree, .ok ()) =>
    match tree.writeText path css w.host.now with
    | .ok tree => (.ok (), { w with tree })
    | .error cause => (.error (.write path cause), { w with tree })

/-- The table of all class names: file, sheet, style, class. A file that is compiled again replaces
its entry. -/
def namesTable (compiled : List CompiledSource) :
    OrderedMap String (OrderedMap String ClassNames) :=
  OrderedMap.ofEntries (compiled.map fun c => (c.file, c.classNames))

def namesJson (compiled : List CompiledSource) : String :=
  let leaves (m : ClassNames) := Json.Nested.object (m.map fun e => (e.1, .leaf e.2))
  let sheets (m : OrderedMap String ClassNames) :=
    Json.Nested.object (m.map fun e => (e.1, leaves e.2))
  (Json.Nested.object ((namesTable compiled).map fun e => (e.1, sheets e.2))).pretty 0

def writeResults (w : Workspace) (a : Arguments) (compiled : List CompiledSource) :
    Outcome × Workspace :=
  let css := String.join (compiled.map CompiledSource.css)
  let (bundled, w) :=
    match a.output with
    | some path => writeBundle w path css
    | none => (.ok (), w)
  match bundled with
  | .error failure => ({ failure := some failure }, w)
  | .ok () =>
    let stdout := if a.output.isSome then "" else css
    match a.names with
    | none => ({ stdout }, w)
    | some path =>
      match w.tree.writeText path (namesJson compiled) w.host.now with
      | .ok tree => ({ stdout }, { w with tree })
      | .error cause => ({ stdout, failure := some (.write path cause) }, w)

def clearIfAsked (a : Arguments) (s : Session) : Except Failure Unit × Session :=
  if a.clearCache then
    let (result, s) := s.use Store.clear
    (result.mapError .clearCache, s)
  else (.ok (), s)

def runArguments (e : Css.Engine) (w : Workspace) (a : Arguments) : Outcome × Workspace :=
  match loadOptions w a with
  | .error fault => ({ failure := some (.options fault) }, w)
  | .ok o =>
    match clearIfAsked a ⟨o, Handle.forOptions o, w⟩ with
    | (.error failure, s) => ({ failure := some failure }, s.workspace)
    | (.ok (), s) =>
      match compileFiles e (a.root.getD (homePath w)) s a.inputs with
      | (.error failure, s) => ({ failure := some failure }, s.workspace)
      | (.ok compiled, s) => writeResults s.workspace a compiled

/-- What a run does. Tables in memory last as long as a run. -/
def run (e : Css.Engine) (w : Workspace) (arguments : List String) : Outcome × Workspace :=
  match Arguments.parse arguments with
  | .error error => (.ofUsage error, w)
  | .ok a => runArguments e { w with tables := [] } a

end NestedStyles.CommandLine
