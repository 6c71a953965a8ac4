import NestedStyles.CommandLine.Run
import NestedStyles.Css.Engine
import NestedStyles.Proofs.Cache.Confined
import NestedStyles.Proofs.CommandLine.Arguments
import NestedStyles.Proofs.Compile.Sheets
/-!
# All or nothing

A run writes nothing before all of its inputs are compiled. Until then it only uses its table, so a
run with an input that fails leaves every file outside the table's folder as it was. Without
compression the table does not matter either, and what an input compiles to is the same whatever is
compiled before it.

* `Session.Later`: what a session has become by using its table;
* `compileFiles_plain`: without compression, files are compiled one by one;
* `AllOrNothing`, `Breaks`: how a run answers for its inputs, and an input with which it fails;
* `run_without_build`, `run_all_or_nothing`: a run that is asked for no build, and one that is.
-/
namespace NestedStyles.CommandLine

open Cache (Confined Fetching Handle Store StoreM Table Workspace)
open Storage (Contents FileTree Node Path.IsName Path.join)
open Storage.FileTree (Spares)

/-! ## Sessions -/

/-- The folder of the table, if it has one, has a path that ends in a name. -/
def Session.Placed (s : Session) : Prop := s.handle.Placed

/-- The location is not in the folder of the table. -/
def Session.Clear (s : Session) (location : List String) : Prop :=
  s.handle.Clear s.workspace.tree location

/-- What a session becomes by using its table: it keeps its options and the folder, and it spares
all files that are not in that folder. -/
structure Session.Later (s s' : Session) : Prop where
  options : s'.options = s.options
  dir : s'.handle.dir? = s.handle.dir?
  spares : Spares s.Clear s.workspace.tree s'.workspace.tree

namespace Session

variable {s s' s'' : Session} {e : Css.Engine} {root : String}

theorem Later.refl (s : Session) : Later s s := ⟨rfl, rfl, .refl _ _⟩

theorem Later.placed (h : Later s s') (hs : s.Placed) : s'.Placed := by
  intro dir hdir
  rw [h.dir] at hdir
  exact hs dir hdir

theorem Later.clear (h : Later s s') {location : List String} (hl : s.Clear location) :
    s'.Clear location := by
  intro dir hdir
  rw [h.dir] at hdir
  rw [FileTree.place_congr h.spares.home]
  exact hl dir hdir

theorem Later.trans (h : Later s s') (h' : Later s' s'') : Later s s'' where
  options := h'.options.trans h.options
  dir := h'.dir.trans h.dir
  spares := h.spares.trans (h'.spares.mono fun _ hl => h.clear hl)

theorem later_use {α : Type} {a : StoreM α} (ha : Confined a) (hs : s.Placed) :
    Later s (s.use a).2 := by
  obtain ⟨hdir, hspares⟩ := ha.spares_use s.workspace hs
  exact ⟨rfl, hdir, hspares⟩

/-- The session with other tables in memory. -/
def withTables (s : Session) (tables : OrderedMap String Table) : Session :=
  { s with workspace := { s.workspace with tables } }

/-- An action that asks for nothing changes at most the list of tables. -/
theorem use_still {α : Type} {a : StoreM α} {r : Except Fault α}
    (ha : ∀ store, a store = (r, store)) (hs : s.Placed) :
    ∃ tables, s.use a = (r, s.withTables tables) := by
  unfold use Workspace.use
  obtain ⟨o, handle, w⟩ := s
  cases handle with
  | memory name =>
    dsimp only
    rw [ha]
    exact ⟨_, rfl⟩
  | disk store =>
    obtain ⟨base, name, hn, hdir⟩ := hs store.dir rfl
    have hback : w.tree.setSite store.dir (w.tree.site store.dir) = w.tree := by
      rw [hdir]
      exact FileTree.setSite_site hn w.tree
    dsimp only
    rw [ha]
    dsimp only
    rw [hback]
    exact ⟨w.tables, rfl⟩

end Session

/-! ## Compiling files -/

def readSheets (t : FileTree) (input : String) : Except Failure Json.Value :=
  match t.readText input with
  | .error cause => .error (.read input cause)
  | .ok text =>
    match Json.parseSettled? text with
    | none => .error (.notJson input)
    | some sheets => .ok sheets

def sourceOf (root input : String) : String :=
  Source.identifier (some (Storage.Path.withoutExtension input)) root

/-- To compile the sheets in a file, with options. -/
def compileAction (e : Css.Engine) (o : Options) (root input : String) (sheets : Json.Value) :
    StoreM CompiledSource := compileSource e o (sourceOf root input) sheets

variable {e : Css.Engine} {root input : String} {s s' : Session} {sheets : Json.Value}

theorem code_of_readSheets {t : FileTree} {failure : Failure}
    (h : readSheets t input = .error failure) : failure.code = 1 := by
  unfold readSheets at h
  split at h
  · cases h; rfl
  · split at h <;> cases h
    rfl

theorem compileFile_eq (e : Css.Engine) (root : String) (s : Session) (input : String) :
    compileFile e root s input = match readSheets s.workspace.tree input with
      | .error failure => (.error failure, s)
      | .ok sheets =>
        ((s.use (compileAction e s.options root input sheets)).1.mapError
            (.compile (sourceOf root input)),
          (s.use (compileAction e s.options root input sheets)).2) := by
  unfold compileFile readSheets
  cases s.workspace.tree.readText input with
  | error cause => rfl
  | ok text =>
    dsimp only
    cases Json.parseSettled? text <;> rfl

theorem compileFile_of_error {failure : Failure}
    (h : readSheets s.workspace.tree input = .error failure) :
    compileFile e root s input = (.error failure, s) := by
  rw [compileFile_eq, h]

theorem compileFile_of_ok (h : readSheets s.workspace.tree input = .ok sheets) :
    compileFile e root s input
      = ((s.use (compileAction e s.options root input sheets)).1.mapError
          (.compile (sourceOf root input)),
        (s.use (compileAction e s.options root input sheets)).2) := by
  rw [compileFile_eq, h]

theorem later_compileFile (e : Css.Engine) (root : String) (hs : s.Placed) (input : String) :
    s.Later (compileFile e root s input).2 := by
  cases h : readSheets s.workspace.tree input with
  | error failure =>
    rw [compileFile_of_error h]
    exact .refl s
  | ok sheets =>
    rw [compileFile_of_ok h]
    exact Session.later_use (fetching_compileSource e s.options _ sheets).confined hs

theorem code_of_compileFile {failure : Failure}
    (h : (compileFile e root s input).1 = .error failure) : failure.code = 1 := by
  cases hread : readSheets s.workspace.tree input with
  | error failure' =>
    rw [compileFile_of_error hread] at h
    cases h
    exact code_of_readSheets hread
  | ok sheets =>
    rw [compileFile_of_ok hread] at h
    cases hr : (s.use (compileAction e s.options root input sheets)).1 with
    | error fault =>
      simp only [hr] at h
      cases h
      rfl
    | ok compiled => simp only [hr] at h; cases h

theorem later_compileFiles (e : Css.Engine) (root : String) (hs : s.Placed)
    (inputs : List String) : s.Later (compileFiles e root s inputs).2 := by
  induction inputs generalizing s with
  | nil => exact .refl s
  | cons input inputs ih =>
    have hfirst := later_compileFile e root hs input
    unfold compileFiles
    cases hrun : compileFile e root s input with
    | mk r s' =>
      rw [hrun] at hfirst
      cases r with
      | error failure => exact hfirst
      | ok compiled => exact hfirst.trans (ih (hfirst.placed hs))

theorem code_of_compileFiles {inputs : List String} {failure : Failure}
    (h : (compileFiles e root s inputs).1 = .error failure) : failure.code = 1 := by
  induction inputs generalizing s with
  | nil => cases h
  | cons input inputs ih =>
    unfold compileFiles at h
    cases hrun : compileFile e root s input with
    | mk r s' =>
      rw [hrun] at h
      cases r with
      | error failure' =>
        cases h
        exact code_of_compileFile (congrArg Prod.fst hrun)
      | ok compiled =>
        cases hrest : (compileFiles e root s' inputs).1 with
        | error failure' =>
          simp only [hrest] at h
          cases h
          exact ih hrest
        | ok more => simp only [hrest] at h; cases h

/-- Files are not compiled if one of them cannot be when its turn has come. -/
theorem compileFiles_breaks {before after : List String}
    (h : ∀ compiled s', compileFiles e root s before = (.ok compiled, s') →
      ∃ failure, (compileFile e root s' input).1 = .error failure) :
    ∃ failure, (compileFiles e root s (before ++ input :: after)).1 = .error failure := by
  induction before generalizing s with
  | nil =>
    obtain ⟨failure, hfailure⟩ := h [] s rfl
    rw [List.nil_append]
    unfold compileFiles
    cases hrun : compileFile e root s input with
    | mk r s' =>
      rw [hrun] at hfailure
      cases hfailure
      exact ⟨failure, rfl⟩
  | cons first before ih =>
    rw [List.cons_append]
    unfold compileFiles
    cases hrun : compileFile e root s first with
    | mk r s₁ =>
      cases r with
      | error failure => exact ⟨failure, rfl⟩
      | ok compiled =>
        obtain ⟨failure, hfailure⟩ : ∃ failure,
            (compileFiles e root s₁ (before ++ input :: after)).1 = .error failure := by
          refine ih fun more s' hmore => h (compiled :: more) s' ?_
          unfold compileFiles
          simp only [hrun, hmore]
          rfl
        exact ⟨failure, by simp only [hfailure]; rfl⟩

section Plain

variable (hplain : s.options.compressClassNames = false) (hs : s.Placed)
include hplain hs

/-- Without compression, what a file compiles to does not depend on the tables in memory, and at
most these change. -/
theorem compileFile_plain (e : Css.Engine) (root input : String)
    (tables : OrderedMap String Table) : ∃ tables',
    compileFile e root (s.withTables tables) input
      = ((compileFile e root s input).1, s.withTables tables') := by
  have htree : (s.withTables tables).workspace.tree = s.workspace.tree := rfl
  cases hread : readSheets s.workspace.tree input with
  | error failure =>
    rw [compileFile_of_error hread, compileFile_of_error (htree ▸ hread)]
    exact ⟨tables, rfl⟩
  | ok sheets =>
    obtain ⟨r, hr⟩ : ∃ r, ∀ store,
        compileAction e s.options root input sheets store = (r, store) :=
      compileSource_plain e hplain (sourceOf root input) sheets
    have hs' : (s.withTables tables).Placed := hs
    obtain ⟨_, huse⟩ := Session.use_still hr hs
    obtain ⟨tables', huse'⟩ := Session.use_still hr hs'
    have hoptions : (s.withTables tables).options = s.options := rfl
    rw [compileFile_of_ok hread, compileFile_of_ok (htree ▸ hread), hoptions, huse, huse']
    exact ⟨tables', rfl⟩

/-- Without compression, files are compiled one by one. -/
theorem compileFiles_plain (e : Css.Engine) (root : String) (inputs : List String)
    (tables : OrderedMap String Table) :
    (compileFiles e root (s.withTables tables) inputs).1
      = inputs.mapM fun input => (compileFile e root s input).1 := by
  induction inputs generalizing tables with
  | nil => rfl
  | cons input inputs ih =>
    obtain ⟨tables', hfirst⟩ := compileFile_plain hplain hs e root input tables
    rw [List.mapM_cons, compileFiles, hfirst]
    cases (compileFile e root s input).1 with
    | error failure => rfl
    | ok compiled =>
      dsimp only
      rw [ih tables']
      cases inputs.mapM fun input => (compileFile e root s input).1 <;> rfl

end Plain

/-! ## Runs that fail -/

/-- The folder that the source identifiers of a run are relative to. -/
def rootOf (w : Workspace) (a : Arguments) : String := a.root.getD (homePath w)

def sessionFor (w : Workspace) (o : Options) : Session := ⟨o, Handle.forOptions o, w⟩

/-- The session in which a run comes to what follows the inputs `before`, if it does. -/
def sessionAfter (e : Css.Engine) (w : Workspace) (a : Arguments) (before : List String) :
    Option Session :=
  match loadOptions w a with
  | .error _ => none
  | .ok o =>
    match clearIfAsked a (sessionFor w o) with
    | (.error _, _) => none
    | (.ok (), s) =>
      match compileFiles e (rootOf w a) s before with
      | (.error _, _) => none
      | (.ok _, s) => some s

/-- The input that follows the inputs `before` cannot be read, parsed or compiled when the run comes
to it. -/
def Breaks (e : Css.Engine) (w : Workspace) (a : Arguments) (before : List String)
    (input : String) : Prop :=
  ∀ s ∈ sessionAfter e w a before,
    ∃ failure, (compileFile e (rootOf w a) s input).1 = .error failure

/-- The location is not in the folder of the table that a run uses. -/
def OutsideCache (w : Workspace) (a : Arguments) (location : List String) : Prop :=
  ∀ o dir, loadOptions w a = .ok o → o.cacheDir = some dir →
    ¬w.tree.place (Path.join dir Handle.classNames) <+: location

variable {w : Workspace} {a : Arguments} {o : Options} {before after : List String}

theorem dir?_forOptions (o : Options) :
    (Handle.forOptions o).dir? = o.cacheDir.map (Path.join · Handle.classNames) := by
  unfold Handle.forOptions
  cases o.cacheDir <;> rfl

theorem placed_sessionFor (w : Workspace) (o : Options) : (sessionFor w o).Placed := by
  intro dir hdir
  obtain ⟨base, -, rfl⟩ := Option.map_eq_some_iff.1 ((dir?_forOptions o).symm.trans hdir)
  exact ⟨base, Handle.classNames, by decide, rfl⟩

theorem clear_sessionFor (ho : loadOptions w a = .ok o) {location : List String}
    (hl : OutsideCache w a location) : (sessionFor w o).Clear location := by
  intro dir hdir
  obtain ⟨base, hbase, rfl⟩ := Option.map_eq_some_iff.1 ((dir?_forOptions o).symm.trans hdir)
  exact hl o base ho hbase

theorem storeOf_of_loadOptions (ho : loadOptions w a = .ok o) :
    storeOf w a = o.cacheDir.map (Cache.DiskStore.inFolder · Handle.classNames) := by
  have hhandle : (loadOptions w a).toOption.map Handle.forOptions = some (Handle.forOptions o) := by
    rw [ho]
    rfl
  unfold storeOf
  rw [hhandle]
  unfold Handle.forOptions
  cases o.cacheDir <;> rfl

/-- The folder of the table is the one that the program locks and stores. -/
theorem outsideCache_iff {location : List String} : OutsideCache w a location ↔
    ∀ store, storeOf w a = some store → ¬w.tree.place store.dir <+: location := by
  constructor
  · intro h store hstore
    cases ho : loadOptions w a with
    | error fault =>
      unfold storeOf at hstore
      rw [ho] at hstore
      cases hstore
    | ok o =>
      rw [storeOf_of_loadOptions ho] at hstore
      obtain ⟨dir, hdir, rfl⟩ := Option.map_eq_some_iff.1 hstore
      exact h o dir ho hdir
  · intro h o dir ho hdir
    exact h (.inFolder dir Handle.classNames) (by rw [storeOf_of_loadOptions ho, hdir]; rfl)

theorem later_clearIfAsked (a : Arguments) (hs : s.Placed) : s.Later (clearIfAsked a s).2 := by
  unfold clearIfAsked
  split
  · exact Session.later_use Cache.confined_clear hs
  · exact .refl s

theorem code_of_clearIfAsked {failure : Failure} (h : (clearIfAsked a s).1 = .error failure) :
    failure.code = 1 := by
  unfold clearIfAsked at h
  split at h
  · cases hr : (s.use Store.clear).1 with
    | error fault =>
      simp only [hr] at h
      cases h
      rfl
    | ok u => simp only [hr] at h; cases h
  · cases h

/-- An input that comes first and cannot be read or parsed breaks a run that keeps its tokens. -/
theorem breaks_first {failure : Failure} (hkept : a.clearCache = false)
    (hread : readSheets w.tree input = .error failure) : Breaks e w a [] input := by
  intro s hs
  have htree : s.workspace.tree = w.tree := by
    unfold sessionAfter clearIfAsked at hs
    rw [hkept] at hs
    cases ho : loadOptions w a with
    | error fault => simp only [ho] at hs; cases hs
    | ok o => simp only [ho] at hs; cases hs; rfl
  exact ⟨failure, congrArg Prod.fst (compileFile_of_error (htree ▸ hread))⟩

theorem runArguments_of_clear_error (ho : loadOptions w a = .ok o) {failure : Failure}
    (hclear : clearIfAsked a (sessionFor w o) = (.error failure, s)) :
    runArguments e w a = ({ failure := some failure }, s.workspace) := by
  unfold runArguments
  unfold sessionFor at hclear
  rw [ho]
  dsimp only
  rw [hclear]

theorem runArguments_of_clear (ho : loadOptions w a = .ok o)
    (hclear : clearIfAsked a (sessionFor w o) = (.ok (), s)) :
    runArguments e w a = match compileFiles e (rootOf w a) s a.inputs with
      | (.error failure, s) => ({ failure := some failure }, s.workspace)
      | (.ok compiled, s) => writeResults s.workspace a compiled := by
  unfold runArguments
  unfold sessionFor at hclear
  rw [ho]
  dsimp only
  rw [hclear]
  rfl

/-- A run with an input that breaks it fails with code 1, answers nothing, and spares all files
outside the folder of its table. -/
theorem runArguments_of_breaks (hinputs : a.inputs = before ++ input :: after)
    (hb : Breaks e w a before input) :
    ∃ failure w', runArguments e w a = ({ failure := some failure }, w') ∧ failure.code = 1
      ∧ Spares (OutsideCache w a) w.tree w'.tree := by
  cases ho : loadOptions w a with
  | error fault =>
    refine ⟨.options fault, w, ?_, rfl, .refl _ _⟩
    unfold runArguments
    rw [ho]
  | ok o =>
    have hspares : ∀ s, (sessionFor w o).Later s →
        Spares (OutsideCache w a) w.tree s.workspace.tree :=
      fun s hlater => hlater.spares.mono fun _ hl => clear_sessionFor ho hl
    have hplaced := placed_sessionFor w o
    have hcleared := later_clearIfAsked a hplaced
    cases hclear : clearIfAsked a (sessionFor w o) with
    | mk r s =>
      rw [hclear] at hcleared
      cases r with
      | error failure =>
        exact ⟨failure, s.workspace, runArguments_of_clear_error ho hclear,
          code_of_clearIfAsked (congrArg Prod.fst hclear), hspares s hcleared⟩
      | ok u =>
        have hlater := later_compileFiles e (rootOf w a) (hcleared.placed hplaced) a.inputs
        obtain ⟨failure, hfailure⟩ :
            ∃ failure, (compileFiles e (rootOf w a) s a.inputs).1 = .error failure := by
          rw [hinputs]
          refine compileFiles_breaks fun compiled s' hbefore => hb s' ?_
          simp only [sessionAfter, ho, hclear, hbefore]
          rfl
        have hcode := code_of_compileFiles hfailure
        cases hrun : compileFiles e (rootOf w a) s a.inputs with
        | mk r s' =>
          rw [hrun] at hfailure hlater
          cases hfailure
          refine ⟨failure, s'.workspace, ?_, hcode, hspares s' (hcleared.trans hlater)⟩
          rw [runArguments_of_clear ho hclear, hrun]

/-! ## Runs input by input -/

/-- A whole succeeds if all of its parts do, and then it answers what they answer, one after the
other. Otherwise it fails with code 1 and answers nothing. -/
structure AllOrNothing (whole : Outcome) (parts : List Outcome) : Prop where
  code : whole.code = 0 ↔ ∀ part ∈ parts, part.code = 0
  stdout : whole.code = 0 → whole.stdout = String.join (parts.map Outcome.stdout)
  failed : whole.code ≠ 0 → whole.code = 1 ∧ whole.stdout = ""

/-- The answer of a run that writes to standard output only. -/
def answer : Except Failure (List CompiledSource) → Outcome
  | .ok compiled => { stdout := String.join (compiled.map CompiledSource.css) }
  | .error failure => { failure := some failure }

theorem answer_mapM_single (f : String → Except Failure CompiledSource) (input : String) :
    answer ([input].mapM f) = answer ((f input).map fun compiled => [compiled]) := by
  rw [List.mapM_cons, List.mapM_nil]
  cases f input <;> rfl

section Each

variable {f : String → Except Failure CompiledSource} {inputs : List String}

/-- The first failure is that of an input. -/
theorem exists_of_mapM_error {failure : Failure} (h : inputs.mapM f = .error failure) :
    ∃ input ∈ inputs, f input = .error failure := by
  induction inputs with
  | nil => cases h
  | cons input inputs ih =>
    rcases mapM_cons_eq_error.1 h with hi | ⟨-, -, hrest⟩
    · exact ⟨input, List.mem_cons_self, hi⟩
    · obtain ⟨other, hother, hfailure⟩ := ih hrest
      exact ⟨other, List.mem_cons_of_mem input hother, hfailure⟩

/-- Without a failure, each input has an answer, and these make up that of the whole. -/
theorem answers_of_mapM_ok {compiled : List CompiledSource} (h : inputs.mapM f = .ok compiled) :
    (∀ input ∈ inputs, (answer ([input].mapM f)).code = 0)
      ∧ inputs.map (fun input => (answer ([input].mapM f)).stdout)
        = compiled.map CompiledSource.css := by
  induction inputs generalizing compiled with
  | nil => cases h; exact ⟨nofun, rfl⟩
  | cons input inputs ih =>
    obtain ⟨first, more, hi, hrest, rfl⟩ := mapM_cons_eq_ok.1 h
    obtain ⟨hcodes, htexts⟩ := ih hrest
    have hfirst : answer ([input].mapM f) = { stdout := first.css } := by
      have hjoin : String.join [first.css] = first.css := by simp
      rw [answer_mapM_single, hi]
      exact congrArg (fun text => ({ stdout := text } : Outcome)) hjoin
    refine ⟨fun other hother => ?_, ?_⟩
    · rcases List.mem_cons.1 hother with rfl | hother
      · rw [hfirst]
        rfl
      · exact hcodes other hother
    · rw [List.map_cons, List.map_cons, htexts, hfirst]

/-- What is done input by input succeeds if it does so for each single one. -/
theorem allOrNothing_answer
    (hf : ∀ input ∈ inputs, ∀ failure, f input = .error failure → failure.code = 1) :
    AllOrNothing (answer (inputs.mapM f)) (inputs.map fun input => answer ([input].mapM f)) := by
  cases h : inputs.mapM f with
  | error failure =>
    obtain ⟨input, hinput, hfailure⟩ := exists_of_mapM_error h
    have hcode : failure.code = 1 := hf input hinput failure hfailure
    have hwhole : (answer (.error failure)).code = 1 := hcode
    have hpart : (answer ([input].mapM f)).code = 1 := by
      rw [answer_mapM_single, hfailure]
      exact hcode
    refine ⟨⟨fun h0 => ?_, fun h0 => ?_⟩, fun h0 => ?_, fun _ => ⟨hwhole, rfl⟩⟩
    · omega
    · have := h0 _ (List.mem_map_of_mem hinput)
      omega
    · omega
  | ok compiled =>
    obtain ⟨hcodes, htexts⟩ := answers_of_mapM_ok h
    refine ⟨⟨fun _ part hpart => ?_, fun _ => rfl⟩, fun _ => ?_, fun h0 => absurd rfl h0⟩
    · obtain ⟨input, hinput, rfl⟩ := List.mem_map.1 hpart
      exact hcodes input hinput
    · rw [List.map_map]
      exact congrArg String.join htexts.symm

end Each

/-- Without compression, a run that only answers compiles its inputs one by one. -/
theorem runArguments_plain (houtput : a.output = none) (hnames : a.names = none)
    (hkept : a.clearCache = false) (ho : loadOptions w a = .ok o)
    (hplain : o.compressClassNames = false) :
    (runArguments e w a).1
      = answer (a.inputs.mapM fun input =>
          (compileFile e (rootOf w a) (sessionFor w o) input).1) := by
  have hclear : clearIfAsked a (sessionFor w o) = (.ok (), sessionFor w o) := by
    unfold clearIfAsked
    rw [hkept]
    rfl
  have hcompiled : (compileFiles e (rootOf w a) (sessionFor w o) a.inputs).1 = _ :=
    compileFiles_plain hplain (placed_sessionFor w o) e (rootOf w a) a.inputs w.tables
  rw [runArguments_of_clear ho hclear, ← hcompiled]
  cases hrun : compileFiles e (rootOf w a) (sessionFor w o) a.inputs with
  | mk r s =>
    cases r with
    | error failure => rfl
    | ok compiled =>
      unfold writeResults
      rw [houtput, hnames]
      rfl

/-- A run that only answers, without compression, answers for its inputs as the runs on single ones
do. -/
theorem allOrNothing_runArguments (houtput : a.output = none) (hnames : a.names = none)
    (hkept : a.clearCache = false)
    (hplain : ∀ o, loadOptions w a = .ok o → o.compressClassNames = false)
    (hinputs : a.inputs ≠ []) : AllOrNothing (runArguments e w a).1
      (a.inputs.map fun input => (runArguments e w (a.withInputs [input])).1) := by
  cases ho : loadOptions w a with
  | error fault =>
    -- the options fail every run alike
    have hrun : ∀ inputs, (runArguments e w (a.withInputs inputs)).1
        = { failure := some (.options fault) } := by
      intro inputs
      have ho' : loadOptions w (a.withInputs inputs) = .error fault := ho
      unfold runArguments
      rw [ho']
    have hwhole : (runArguments e w a).1 = { failure := some (.options fault) } := hrun a.inputs
    obtain ⟨input, hinput⟩ := List.exists_mem_of_ne_nil a.inputs hinputs
    rw [hwhole]
    refine ⟨⟨nofun, fun h0 => ?_⟩, nofun, fun _ => ⟨rfl, rfl⟩⟩
    have hpart := h0 _ (List.mem_map_of_mem hinput)
    rw [hrun] at hpart
    cases hpart
  | ok o =>
    have hsingle : ∀ input, (runArguments e w (a.withInputs [input])).1
        = answer ([input].mapM fun input =>
            (compileFile e (rootOf w a) (sessionFor w o) input).1) :=
      fun input => runArguments_plain (a := a.withInputs [input]) houtput hnames hkept ho
        (hplain o ho)
    rw [runArguments_plain houtput hnames hkept ho (hplain o ho)]
    simp only [hsingle]
    exact allOrNothing_answer fun input _ failure hfailure => code_of_compileFile hfailure

/-! ## The whole -/

theorem run_of_parse {args : List String} (h : Arguments.parse args = .ok a) :
    run e w args = runArguments e { w with tables := [] } a := by
  unfold run
  rw [h]

/-- A run that is asked for no build leaves everything as it is, and succeeds if it is asked for
help. -/
theorem run_without_build {args : List String} {error : UsageError}
    (h : Arguments.parse args = .error error) :
    (run e w args).2 = w ∧ ((run e w args).1.code = 0 ↔ Arguments.HelpIn {} args) := by
  have hrun : run e w args = (.ofUsage error, w) := by
    unfold run
    rw [h]
  rw [hrun]
  refine ⟨rfl, ?_⟩
  rw [← Arguments.parse_eq_help_iff, h]
  cases error <;> simp [Outcome.ofUsage, Outcome.code, Failure.code]

/-- A build is all or nothing. If it answers with the CSS only, does not forget tokens and does not
compress, it succeeds if the builds of its single inputs with the same flags do, and then it answers
what they answer, in the order of the inputs; otherwise it fails with code 1 and answers nothing.
And whatever it is asked for, with an input that cannot be read, parsed or compiled when its turn
has come it fails so, and every file that is not in the folder of its tokens is left as it was. -/
theorem run_all_or_nothing (e : Css.Engine) (w : Workspace) {args : List String}
    (hargs : Arguments.parse args = .ok a) :
    (a.output = none → a.names = none → a.clearCache = false →
      (∀ o, loadOptions w a = .ok o → o.compressClassNames = false) →
      AllOrNothing (run e w args).1 (a.inputs.map fun input =>
        (run e w (Arguments.flagArguments args ++ ["--", input])).1))
    ∧ ∀ before input after, a.inputs = before ++ input :: after →
      Breaks e { w with tables := [] } a before input →
      (run e w args).1.code = 1 ∧ (run e w args).1.stdout = ""
        ∧ ∀ location, OutsideCache w a location →
          (run e w args).2.tree.fileAt? location = w.tree.fileAt? location := by
  rw [run_of_parse hargs]
  constructor
  · intro houtput hnames hkept hplain
    have hsingle : ∀ input ∈ a.inputs,
        (run e w (Arguments.flagArguments args ++ ["--", input])).1
          = (runArguments e { w with tables := [] } (a.withInputs [input])).1 :=
      fun input hinput => by rw [run_of_parse (Arguments.parse_single hargs hinput)]
    rw [List.map_congr_left hsingle]
    exact allOrNothing_runArguments houtput hnames hkept hplain (Arguments.parse_eq_ok hargs).2
  · intro before input after hinputs hbreaks
    obtain ⟨failure, w', hrun, hcode, hspares⟩ := runArguments_of_breaks hinputs hbreaks
    rw [hrun]
    exact ⟨hcode, rfl, hspares.files⟩

/-- A home folder with two sources and an older bundle. -/
def twoSources : Workspace where
  tree := ⟨.folder [("p", .folder [
    ("a.json", .file (.text "\x7b\"s\":\x7b\"a\":\x7b\"left\":\"2\"\x7d\x7d\x7d") 1),
    ("b.json", .file (.text "\x7b\"t\":\x7b\"b\":\x7b\"top\":\"1\"\x7d\x7d\x7d") 2),
    ("all.css", .file (.text "old") 3)])], ["p"]⟩
  tables := []
  host := ⟨10, 0, fun _ => 0, fun _ => none, 1, false⟩

/-- What a compressed build of two inputs is asked for, of which the first does not exist. -/
def missingFirst : Arguments where
  inputs := ["c.json", "b.json"]
  output := some "all.css"
  cacheDir := some "cache"
  compress := true

/-- What a build in this folder answers. -/
def answerOf (arguments : List String) : Outcome := (run Css.engine twoSources arguments).1

theorem run_all_or_nothing_twoSources :
    AllOrNothing (answerOf ["a.json", "--minify", "b.json"])
      [answerOf ["--minify", "--", "a.json"], answerOf ["--minify", "--", "b.json"]]
    ∧ (answerOf ["a.json", "--minify", "b.json"]).code = 0
    ∧ (answerOf ["a.json", "--minify", "b.json"]).stdout
      = ".a-s-a\x7bleft:2\x7d.b-t-b\x7btop:1\x7d"
    ∧ (answerOf ["--minify", "--", "a.json"]).stdout = ".a-s-a\x7bleft:2\x7d"
    ∧ (answerOf ["--minify", "--", "b.json"]).stdout = ".b-t-b\x7btop:1\x7d"
    ∧ (run Css.engine twoSources
        ["c.json", "--compress", "--cache-dir", "cache", "-o", "all.css", "b.json"]).1.code = 1
    ∧ (run Css.engine twoSources
        ["c.json", "--compress", "--cache-dir", "cache", "-o", "all.css", "b.json"]).2.tree.fileAt?
          ["p", "all.css"] = some (.text "old", 3) := by
  refine ⟨?_, by decide +kernel, by decide +kernel, by decide +kernel, by decide +kernel, ?_⟩
  · have hargs : Arguments.parse ["a.json", "--minify", "b.json"]
        = .ok { inputs := ["a.json", "b.json"], minify := true } := by decide +kernel
    have hflags : Arguments.flagArguments ["a.json", "--minify", "b.json"] = ["--minify"] := by
      decide +kernel
    have h := (run_all_or_nothing Css.engine twoSources hargs).1 rfl rfl rfl
      fun o ho => by cases ho; rfl
    rw [hflags] at h
    exact h
  · have hargs : Arguments.parse
          ["c.json", "--compress", "--cache-dir", "cache", "-o", "all.css", "b.json"]
        = .ok missingFirst := by decide +kernel
    have hread : readSheets twoSources.tree "c.json" = .error (.read "c.json" .notFound) := by cbv
    have houtside : OutsideCache twoSources missingFirst ["p", "all.css"] := by
      intro o dir ho hdir
      cases ho
      cases hdir
      decide
    have h := (run_all_or_nothing Css.engine twoSources hargs).2 [] "c.json" ["b.json"] rfl
      (breaks_first rfl hread)
    exact ⟨h.1, h.2.2 _ houtside⟩

end NestedStyles.CommandLine
