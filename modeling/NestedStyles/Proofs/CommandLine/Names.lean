import NestedStyles.Proofs.Cache.Eventual
import NestedStyles.Proofs.CommandLine.Run
import NestedStyles.Proofs.Compile.Distinct
import NestedStyles.Proofs.Json.Pretty
/-!
# The table of class names

A run that is asked for it writes a table of its class names beside the bundle. The table has one
entry for each source identifier, and of two inputs with the same identifier only the later one is
in it, while the bundle has the CSS of both.

* `Session.store` is the table of tokens that a session uses; it only grows while files are compiled
  (`leads_compileFiles`);
* `CompilesTo`: what an input is compiled to, with the classes that the bundle uses;
* `Tabled`, `tabled_namesTree`: what the table of a run says;
* `run_names_kept`: all inputs without a later one of their identifier are in the table;
  `run_names_lost`: another one is not.
-/
namespace NestedStyles.CommandLine

open Cache (Fetching Store StoreM Workspace)
open ClassName (chosen readable)
open Storage (FileTree)

variable {e : Css.Engine} {root input : String} {s s' : Session} {sources : List CompiledSource}

/-! ## Sessions on the way -/

/-- The table of tokens that a session uses. -/
def Session.store (s : Session) : Store := s.workspace.store s.handle

theorem Session.leads_use {α : Type} {a : StoreM α} (ha : Fetching a) (hs : s.Placed) :
    ∃ st, a s.store = ((s.use a).1, st) ∧ s.store.Leads st ∧ st.Leads (s.use a).2.store := by
  obtain ⟨st, hrun, hput⟩ := ha.leads_use s.workspace hs
  exact ⟨st, hrun, (ha.leads (Workspace.placed_store hs s.workspace) hrun).1, hput⟩

theorem leads_compileFile (e : Css.Engine) (root : String) (hs : s.Placed) (input : String) :
    s.store.Leads (compileFile e root s input).2.store := by
  cases h : readSheets s.workspace.tree input with
  | error failure =>
    rw [compileFile_of_error h]
    exact .refl _
  | ok sheets =>
    rw [compileFile_of_ok h]
    obtain ⟨st, -, hlead, hput⟩ :=
      Session.leads_use (fetching_compileSource e s.options (sourceOf root input) sheets) hs
    exact hlead.trans hput

theorem leads_compileFiles (e : Css.Engine) (root : String) (hs : s.Placed)
    (inputs : List String) : s.store.Leads (compileFiles e root s inputs).2.store := by
  induction inputs generalizing s with
  | nil => exact .refl _
  | cons input inputs ih =>
    have hfirst := leads_compileFile e root hs input
    have hlater := later_compileFile e root hs input
    unfold compileFiles
    cases hrun : compileFile e root s input with
    | mk r s' =>
      rw [hrun] at hfirst hlater
      cases r with
      | error failure => exact hfirst
      | ok compiled => exact hfirst.trans (ih (hlater.placed hs))

/-- A session that starts to compile trusts nothing that its folder does not have. -/
theorem sound_of_clearIfAsked {w : Workspace} {o : Options} {a : Arguments}
    (h : clearIfAsked a (sessionFor w o) = (.ok (), s)) : s.store.Sound := by
  unfold clearIfAsked at h
  split at h
  · have hok : (w.use (Cache.Handle.forOptions o) Store.clear).1 = .ok () := by
      cases hr : (w.use (Cache.Handle.forOptions o) Store.clear).1 with
      | ok u => rfl
      | error fault =>
        have hfault : ((sessionFor w o).use Store.clear).1 = .error fault := hr
        simp only [hfault] at h
        cases h
    obtain ⟨-, rfl⟩ := Prod.mk.inj h
    exact Cache.sound_use_clear hok
  · cases h
    unfold Session.store sessionFor Cache.Handle.forOptions
    cases o.cacheDir with
    | none => trivial
    | some dir => exact Cache.Memo.sound_new _

/-! ## What an input is compiled to -/

/-- The input holds these sheets, and this is what they are compiled to if `tau` says what class
stands for each readable one. -/
structure CompilesTo (e : Css.Engine) (o : Options) (tau : String → String)
    (t : FileTree) (root input : String) (sheets : OrderedMap String Sheet)
    (c : CompiledSource) : Prop where
  reads : ∃ ms, readSheets t input = .ok (.object ms) ∧ readAll ms = .ok sheets
  nodup : (OrderedMap.keys sheets).Nodup
  file : c.file = sourceOf root input
  classNames : c.classNames = (compiled o (sourceOf root input) tau sheets).classNames
  css : postProcess e o (compiled o (sourceOf root input) tau sheets).css = .ok c.css

theorem nodup_of_readSheets {t : FileTree} {ms : List (String × Json.Value)}
    (h : readSheets t input = .ok (.object ms)) : (OrderedMap.keys ms).Nodup := by
  unfold readSheets at h
  split at h
  · cases h
  · rename_i text _
    unfold Json.parseSettled? at h
    cases hparse : Json.parse? text with
    | none => rw [hparse] at h; cases h
    | some v =>
      rw [hparse] at h
      cases v with
      | object raw =>
        cases h
        exact OrderedMap.nodup_keys_ofEntries _
      | _ => cases h

theorem compileSource_of_compileFile (hs : s.Placed) {c : CompiledSource}
    (h : compileFile e root s input = (.ok c, s')) : ∃ raw st,
    readSheets s.workspace.tree input = .ok raw
      ∧ compileSource e s.options (sourceOf root input) raw s.store = (.ok c, st)
      ∧ st.Leads s'.store := by
  cases hread : readSheets s.workspace.tree input with
  | error failure => cases (compileFile_of_error hread).symm.trans h
  | ok raw =>
    obtain ⟨st, hrun, -, hput⟩ := Session.leads_use
      (fetching_compileSource e s.options (sourceOf root input) raw) hs
    rw [compileFile_of_ok hread] at h
    obtain ⟨hresult, rfl⟩ := Prod.mk.inj h
    refine ⟨raw, st, rfl, hrun.trans (Prod.ext ?_ rfl), hput⟩
    change (s.use (compileAction e s.options root input raw)).1 = .ok c
    cases hr : (s.use (compileAction e s.options root input raw)).1 with
    | error fault => rw [hr] at hresult; cases hresult
    | ok c' => rw [hr] at hresult; cases hresult; rfl

/-- A file is compiled with the classes that the table has in the end. -/
theorem compilesTo_of_compileFile (hs : s.Placed) (hsound : s.store.Sound) {c : CompiledSource}
    (h : compileFile e root s input = (.ok c, s')) {F : Store} (hlead : s'.store.Leads F)
    (hroom : F.HasRoom) : ∃ sheets, CompilesTo e s.options
      (chosen s.options.compressClassNames F.table) s.workspace.tree root input sheets c := by
  obtain ⟨raw, st, hread, hrun, hput⟩ := compileSource_of_compileFile hs h
  -- the store of the end has a token for every class, so that compiling on it adds none
  have hagain := (fetching_compileSource e s.options (sourceOf root input) raw).on_table
    (Workspace.placed_store hs s.workspace) hsound hrun (hput.trans hlead) hroom
  obtain ⟨ms, -, rfl, -⟩ := readAll_of_compileSource hagain
  have hids := nodup_of_readSheets hread
  obtain ⟨sheets, hsheets, hnames, hcss⟩ := compiled_of_unchanged hids hagain
  exact ⟨sheets, ⟨ms, hread, hsheets⟩, keys_readAll hsheets ▸ hids, file_of_compileSource hrun,
    hnames, hcss⟩

/-! ## Several inputs -/

variable {before after : List String}

theorem compileFiles_cons_ok {inputs : List String}
    (h : compileFiles e root s (input :: inputs) = (.ok sources, s')) : ∃ c s₁ more,
    compileFile e root s input = (.ok c, s₁) ∧ compileFiles e root s₁ inputs = (.ok more, s')
      ∧ sources = c :: more := by
  unfold compileFiles at h
  cases hfirst : compileFile e root s input with
  | mk r s₁ =>
    cases r with
    | error failure => simp only [hfirst] at h; cases h
    | ok c =>
      cases hrest : compileFiles e root s₁ inputs with
      | mk r s₂ =>
        simp only [hfirst, hrest] at h
        cases r with
        | error failure => cases h
        | ok more => cases h; exact ⟨c, s₁, more, rfl, hrest, rfl⟩

theorem compileFiles_append_ok
    (h : compileFiles e root s (before ++ after) = (.ok sources, s')) : ∃ earlier s₁ later,
    compileFiles e root s before = (.ok earlier, s₁)
      ∧ compileFiles e root s₁ after = (.ok later, s') ∧ sources = earlier ++ later := by
  induction before generalizing s sources with
  | nil => exact ⟨[], s, sources, rfl, h, rfl⟩
  | cons input before ih =>
    obtain ⟨c, s₁, more, hfirst, hrest, rfl⟩ := compileFiles_cons_ok h
    obtain ⟨earlier, s₂, later, hbefore, hafter, rfl⟩ := ih hrest
    refine ⟨c :: earlier, s₂, later, ?_, hafter, rfl⟩
    unfold compileFiles
    simp only [hfirst, hbefore]
    rfl

theorem map_file_of_compileFiles (hs : s.Placed) {inputs : List String}
    (h : compileFiles e root s inputs = (.ok sources, s')) :
    sources.map CompiledSource.file = inputs.map (sourceOf root) := by
  induction inputs generalizing s sources with
  | nil => cases h; rfl
  | cons input inputs ih =>
    obtain ⟨c, s₁, more, hfirst, hrest, rfl⟩ := compileFiles_cons_ok h
    have hplaced := (later_compileFile e root hs input).placed hs
    rw [hfirst] at hplaced
    obtain ⟨raw, st, -, hrun, -⟩ := compileSource_of_compileFile hs hfirst
    rw [List.map_cons, List.map_cons, file_of_compileSource hrun, ih hplaced hrest]

/-- Each of several files is compiled with the classes that the table has in the end. -/
theorem compilesTo_of_compileFiles (hs : s.Placed) (hsound : s.store.Sound)
    (h : compileFiles e root s (before ++ input :: after) = (.ok sources, s'))
    (hroom : s'.store.HasRoom) : ∃ earlier s₁ c later sheets,
    compileFiles e root s before = (.ok earlier, s₁) ∧ sources = earlier ++ c :: later
      ∧ earlier.length = before.length
      ∧ later.map CompiledSource.file = after.map (sourceOf root)
      ∧ CompilesTo e s.options (chosen s.options.compressClassNames s'.store.table)
        s₁.workspace.tree root input sheets c := by
  obtain ⟨earlier, s₁, rest, hbefore, hrest, rfl⟩ := compileFiles_append_ok h
  obtain ⟨c, s₂, later, hinput, hafter, rfl⟩ := compileFiles_cons_ok hrest
  have hlater₁ := later_compileFiles e root hs before
  have hlead₁ := leads_compileFiles e root hs before
  rw [hbefore] at hlater₁ hlead₁
  have hs₁ : s₁.Placed := hlater₁.placed hs
  have hlater₂ := later_compileFile e root hs₁ input
  have hlead₂ := leads_compileFile e root hs₁ input
  rw [hinput] at hlater₂ hlead₂
  have hs₂ : s₂.Placed := hlater₂.placed hs₁
  have hlead₃ := leads_compileFiles e root hs₂ after
  rw [hafter] at hlead₃
  have hsound₁ : s₁.store.Sound :=
    hlead₁.keeps_sound ((hlead₂.trans hlead₃).hasRoom hroom) hsound
  obtain ⟨sheets, hcompiles⟩ := compilesTo_of_compileFile hs₁ hsound₁ hinput hlead₃ hroom
  rw [hlater₁.options] at hcompiles
  have hlength := congrArg List.length (map_file_of_compileFiles hs hbefore)
  rw [List.length_map, List.length_map] at hlength
  exact ⟨earlier, s₁, c, later, sheets, hbefore, rfl, hlength, map_file_of_compileFiles hs₂ hafter,
    hcompiles⟩

/-! ## What the table says -/

open Json (Nested)

def namesTree (sources : List CompiledSource) : Nested :=
  .ofMap (.ofMap (.ofMap .leaf)) (namesTable sources)

theorem namesJson_eq (sources : List CompiledSource) :
    namesJson sources = (namesTree sources).pretty 0 := rfl

/-- The table is read as it is. -/
theorem parse?_namesJson (sources : List CompiledSource) :
    Json.parse? (namesJson sources) = some (namesTree sources).value := by
  have hleaf : ∀ text, (Nested.leaf text).depth ≤ 0 := fun _ => Nat.le_refl 0
  have hdepth : (namesTree sources).depth ≤ 3 :=
    Nested.depth_ofMap_le (Nested.depth_ofMap_le (Nested.depth_ofMap_le hleaf)) _
  rw [namesJson_eq]
  exact Json.parse?_pretty (hdepth.trans (by decide)) 0

/-- Under an identifier the table has a class for each style with one of each of these sheets, which
is the one that stands for the readable class, and nothing else. -/
def Tabled (names : Json.Value) (o : Options) (tau : String → String) (file : String)
    (sheets : OrderedMap String Sheet) : Prop :=
  ∀ sheet style name, names.at? [file, sheet, style] = some (.string name) ↔
    ∃ styles, (sheet, styles) ∈ sheets ∧ style ∈ classStyles styles
      ∧ name = tau (readable (o.forSheet file sheet).classPrefixes style)

/-- The last source of an identifier has its classes in the table. -/
theorem tabled_namesTree {o : Options} {tau : String → String} {t : FileTree}
    {sheets : OrderedMap String Sheet} {c : CompiledSource} {earlier later : List CompiledSource}
    (h : CompilesTo e o tau t root input sheets c)
    (hlast : ∀ d ∈ later, d.file ≠ sourceOf root input) :
    Tabled (namesTree (earlier ++ c :: later)).value o tau (sourceOf root input) sheets := by
  intro sheet style name
  -- of several entries for an identifier the map has kept the last
  have htable : OrderedMap.get? (namesTable (earlier ++ c :: later)) (sourceOf root input)
      = some c.classNames := by
    rw [namesTable, List.map_append, List.map_cons, h.file]
    refine OrderedMap.get?_ofEntries_append_cons _ (fun m hm => ?_) _
    obtain ⟨d, hd, rfl⟩ := List.mem_map.1 hm
    exact hlast d hd
  have hstyle : ∀ styles, ((Nested.ofMap .leaf ((readableNames o (sourceOf root input)
        (sheet, styles)).rename tau)).value.at? [style] = some (.string name)) ↔
      style ∈ classStyles styles
        ∧ name = tau (readable (o.forSheet (sourceOf root input) sheet).classPrefixes style) := by
    intro styles
    have hkeyed := OrderedMap.get?_tabulated (k := style) (v := name)
      (fun style => tau (readable (o.forSheet (sourceOf root input) sheet).classPrefixes style))
      (classStyles styles)
    rw [Nested.at?_ofMap, rename_readableNames]
    refine Iff.trans ?_ hkeyed
    dsimp only
    generalize OrderedMap.get? _ style = found
    cases found <;> simp [Nested.value, Json.Value.at?]
  rw [namesTree, Nested.at?_ofMap, htable, Option.bind_some, Nested.at?_ofMap, h.classNames]
  unfold compiled
  rw [OrderedMap.get?_map fun e => (readableNames o (sourceOf root input) e).rename tau]
  simp only [← OrderedMap.get?_eq_some_iff_mem h.nodup]
  cases OrderedMap.get? sheets sheet with
  | none => simp
  | some styles => simpa using hstyle styles

/-! ## Runs that succeed -/

section Runs

variable {w : Workspace} {a : Arguments} {path : String}

theorem failure_of_code {r : Outcome} (h : r.code = 0) : r.failure = none := by
  unfold Outcome.code at h
  cases hf : r.failure with
  | none => rfl
  | some failure =>
    rw [hf] at h
    cases failure <;> cases h

theorem runArguments_ok (h : (runArguments e w a).1.code = 0) : ∃ o s sources s',
    loadOptions w a = .ok o ∧ clearIfAsked a (sessionFor w o) = (.ok (), s)
      ∧ compileFiles e (rootOf w a) s a.inputs = (.ok sources, s')
      ∧ runArguments e w a = writeResults s'.workspace a sources := by
  have hnone := failure_of_code h
  cases ho : loadOptions w a with
  | error fault =>
    unfold runArguments at hnone
    simp only [ho] at hnone
    cases hnone
  | ok o =>
    cases hclear : clearIfAsked a (sessionFor w o) with
    | mk r s =>
      cases r with
      | error failure =>
        rw [runArguments_of_clear_error ho hclear] at hnone
        cases hnone
      | ok u =>
        have hrun := runArguments_of_clear (e := e) ho hclear
        cases hfiles : compileFiles e (rootOf w a) s a.inputs with
        | mk r s' =>
          rw [hfiles] at hrun
          cases r with
          | error failure =>
            rw [hrun] at hnone
            cases hnone
          | ok sources => exact ⟨o, s, sources, s', rfl, hclear, hfiles, hrun⟩

/-- The bundle is the answer of the run, or it is in its file, unless the table of names has been
written over it. -/
structure Delivers (a : Arguments) (path : String) (r : Outcome × Workspace) (bundle : String) :
    Prop where
  answered : a.output = none → r.1.stdout = bundle
  written : ∀ out, a.output = some out → r.2.tree.place out ≠ r.2.tree.place path →
    r.2.tree.readText out = .ok bundle

theorem hasText_of_writeBundle (hhome : w.tree.HasFolder w.tree.home) {out css : String}
    {w' : Workspace} (h : writeBundle w out css = (.ok (), w')) :
    w'.tree.HasFolder w'.tree.home ∧ w'.tree.HasText out css := by
  unfold writeBundle at h
  dsimp only at h
  have hmade := FileTree.spares_makeFolders (fun _ => True) w.tree (Storage.Path.parent out)
  cases hfolders : w.tree.makeFolders (Storage.Path.parent out) with
  | mk tree r =>
    rw [hfolders] at hmade
    have hhome₁ : tree.HasFolder tree.home := by
      rw [hmade.home]
      exact hmade.folders _ hhome
    cases r with
    | error cause => simp only [hfolders] at h; cases h
    | ok u =>
      simp only [hfolders] at h
      cases hwrite : tree.writeText out css w.host.now with
      | error cause => simp only [hwrite] at h; cases h
      | ok tree' =>
        simp only [hwrite] at h
        cases h
        have hspares := FileTree.spares_writeText hwrite
        refine ⟨?_, FileTree.hasText_of_writeText hhome₁ hwrite⟩
        rw [hspares.home]
        exact hspares.folders _ hhome₁

/-- A run that succeeds has written its table, and delivers its bundle. -/
theorem writeResults_ok (hnames : a.names = some path) (hhome : w.tree.HasFolder w.tree.home)
    (h : (writeResults w a sources).1.code = 0) :
    (writeResults w a sources).2.tree.readText path = .ok (namesJson sources)
      ∧ Delivers a path (writeResults w a sources)
        (String.join (sources.map CompiledSource.css)) := by
  have hnone := failure_of_code h
  unfold writeResults at hnone ⊢
  simp only [hnames] at hnone ⊢
  cases hout : a.output with
  | none =>
    simp only [hout] at hnone ⊢
    cases hwrite : w.tree.writeText path (namesJson sources) w.host.now with
    | error cause => simp only [hwrite] at hnone; cases hnone
    | ok tree =>
      exact ⟨(FileTree.hasText_of_writeText hhome hwrite).readText, fun _ => rfl,
        fun out h => by cases hout.symm.trans h⟩
  | some out =>
    simp only [hout] at hnone ⊢
    cases hbundle : writeBundle w out (String.join (sources.map CompiledSource.css)) with
    | mk r w₁ =>
      cases r with
      | error failure => simp only [hbundle] at hnone; cases hnone
      | ok u =>
        simp only [hbundle] at hnone ⊢
        obtain ⟨hhome₁, hbundled⟩ := hasText_of_writeBundle hhome hbundle
        cases hwrite : w₁.tree.writeText path (namesJson sources) w₁.host.now with
        | error cause => simp only [hwrite] at hnone; cases hnone
        | ok tree =>
          have hspares := FileTree.spares_writeText hwrite
          refine ⟨(FileTree.hasText_of_writeText hhome₁ hwrite).readText,
            fun h => (by cases hout.symm.trans h), fun other h hne => ?_⟩
          cases hout.symm.trans h
          simp only [FileTree.place_congr hspares.home] at hne
          exact (hbundled.of_spares hspares hhome₁ hne).readText

end Runs

/-! ## The whole -/

theorem sessionAfter_eq {w : Workspace} {a : Arguments} {o : Options} {before : List String}
    {earlier : List CompiledSource} {s s₁ : Session} (ho : loadOptions w a = .ok o)
    (hclear : clearIfAsked a (sessionFor w o) = (.ok (), s))
    (hbefore : compileFiles e (rootOf w a) s before = (.ok earlier, s₁)) :
    sessionAfter e w a before = some s₁ := by
  simp only [sessionAfter, ho, hclear, hbefore]

/-- A run that succeeds has a bundle of what its inputs are compiled to, one after the other, and a
table of names. If no later input has the identifier of an input, the table has its classes under
it, as the bundle uses them. -/
theorem run_names_kept (e : Css.Engine) (w : Workspace) {args : List String} {a : Arguments}
    {path : String} (hargs : Arguments.parse args = .ok a) (hnames : a.names = some path)
    (hhome : w.tree.HasFolder w.tree.home)
    (hroom : ∀ s ∈ sessionAfter e { w with tables := [] } a a.inputs, s.store.HasRoom)
    (hcode : (run e w args).1.code = 0) :
    ∃ (o : Options) (table : Cache.Table) (sources : List CompiledSource) (text : String)
      (names : Json.Value), loadOptions w a = .ok o
      ∧ Delivers a path (run e w args) (String.join (sources.map CompiledSource.css))
      ∧ (run e w args).2.tree.readText path = .ok text ∧ Json.parse? text = some names
      ∧ sources.length = a.inputs.length
      ∧ ∀ before input after, a.inputs = before ++ input :: after →
        ∃ s ∈ sessionAfter e { w with tables := [] } a before, ∃ c sheets,
          sources[before.length]? = some c
          ∧ CompilesTo e o (chosen o.compressClassNames table) s.workspace.tree (rootOf w a) input
            sheets c
          ∧ ((∀ later ∈ after, sourceOf (rootOf w a) later ≠ sourceOf (rootOf w a) input) →
            Tabled names o (chosen o.compressClassNames table) (sourceOf (rootOf w a) input)
              sheets) := by
  rw [run_of_parse hargs] at hcode ⊢
  obtain ⟨o, s, sources, s', ho, hclear, hfiles, hrun⟩ := runArguments_ok hcode
  change compileFiles e (rootOf w a) s a.inputs = (.ok sources, s') at hfiles
  have hplaced := placed_sessionFor { w with tables := [] } o
  have hcleared := later_clearIfAsked a hplaced
  rw [hclear] at hcleared
  have hs : s.Placed := hcleared.placed hplaced
  have hlater := later_compileFiles e (rootOf w a) hs a.inputs
  rw [hfiles] at hlater
  have hspares := (hcleared.trans hlater).spares
  have hroom' := hroom s' (sessionAfter_eq ho hclear hfiles)
  have hhome' : s'.workspace.tree.HasFolder s'.workspace.tree.home := by
    rw [hspares.home]
    exact hspares.folders _ hhome
  rw [hrun] at hcode ⊢
  obtain ⟨htext, hdelivers⟩ := writeResults_ok hnames hhome' hcode
  have hlength := congrArg List.length (map_file_of_compileFiles hs hfiles)
  rw [List.length_map, List.length_map] at hlength
  -- later inputs only add tokens, so those of the end are right for all inputs
  refine ⟨o, s'.store.table, sources, _, _, ho, hdelivers, htext,
    parse?_namesJson sources, hlength, fun before input after hinputs => ?_⟩
  rw [hinputs] at hfiles
  obtain ⟨earlier, s₁, c, later, sheets, hbefore, rfl, hearlier, hfilesLater, hcompiles⟩ :=
    compilesTo_of_compileFiles hs (sound_of_clearIfAsked hclear) hfiles hroom'
  have hoptions : s.options = o := hcleared.options
  rw [hoptions] at hcompiles
  refine ⟨s₁, sessionAfter_eq ho hclear hbefore, c, sheets, ?_, hcompiles, fun hlast => ?_⟩
  · rw [← hearlier, List.getElem?_append_right (Nat.le_refl _), Nat.sub_self]
    rfl
  · refine tabled_namesTree hcompiles fun d hd => ?_
    have hmem := List.mem_map_of_mem (f := CompiledSource.file) hd
    rw [hfilesLater] at hmem
    obtain ⟨other, hother, hfile⟩ := List.mem_map.1 hmem
    rw [← hfile]
    exact hlast other hother

theorem hasRoom_of_dir? (h : s.handle.dir? = none) : s.store.HasRoom := by
  obtain ⟨o, handle, w⟩ := s
  cases handle with
  | memory name => trivial
  | disk store => cases h

/-- Of two sources, the names of the first are in the table, which has an entry for each of them. -/
theorem run_names_kept_twoSources :
    (run Css.engine twoSources ["b.json", "--names", "n.json", "a.json"]).1.code = 0
    ∧ ∃ text names, (run Css.engine twoSources
        ["b.json", "--names", "n.json", "a.json"]).2.tree.readText "n.json" = .ok text
      ∧ Json.parse? text = some names
      ∧ names.at? ["b", "t", "b"] = some (.string "b-t-b") := by
  have hargs : Arguments.parse ["b.json", "--names", "n.json", "a.json"]
      = .ok { inputs := ["b.json", "a.json"], names := some "n.json" } := by decide +kernel
  have hcode : (run Css.engine twoSources
      ["b.json", "--names", "n.json", "a.json"]).1.code = 0 := by decide +kernel
  have hmemory : (sessionAfter Css.engine { twoSources with tables := [] }
      { inputs := ["b.json", "a.json"], names := some "n.json" } ["b.json", "a.json"]).map
        (·.handle.dir?) = some none := by decide +kernel
  have hroom : ∀ s ∈ sessionAfter Css.engine { twoSources with tables := [] }
      { inputs := ["b.json", "a.json"], names := some "n.json" } ["b.json", "a.json"],
      s.store.HasRoom := by
    intro s hs
    rw [Option.mem_def.1 hs] at hmemory
    exact hasRoom_of_dir? (Option.some.inj hmemory)
  obtain ⟨o, table, sources, text, names, ho, -, htext, hparse, -, hinputs⟩ :=
    run_names_kept Css.engine twoSources hargs rfl ⟨_, rfl⟩ hroom hcode
  refine ⟨hcode, text, names, htext, hparse, ?_⟩
  cases ho
  obtain ⟨s, hs, c, sheets, -, hcompiles, htabled⟩ := hinputs [] "b.json" ["a.json"] rfl
  cases hs
  have hread : readSheets twoSources.tree "b.json"
      = .ok (.object [("t", .object [("b", .object [("top", .string "1")])])]) := by cbv
  have hsheets : readAll [("t", .object [("b", .object [("top", .string "1")])])]
      = .ok [("t", [("b", { rules := [("top", .text "1")] })])] := by cbv
  obtain ⟨ms, hms, hall⟩ := hcompiles.reads
  cases hread.symm.trans hms
  cases hsheets.symm.trans hall
  have hlast : ∀ later ∈ ["a.json"], sourceOf "/p" later ≠ sourceOf "/p" "b.json" := by
    decide +kernel
  have hclass : readable (({} : Options).forSheet (sourceOf "/p" "b.json") "t").classPrefixes "b"
      = "b-t-b" := by decide +kernel
  have hentry := (htabled hlast "t" "b" "b-t-b").2
    ⟨_, List.mem_singleton_self _, List.mem_singleton_self _, hclass.symm⟩
  have hid : sourceOf "/p" "b.json" = "b" := by decide +kernel
  exact hid ▸ hentry

/-- A home folder with two sources that have one identifier under the root `src`. -/
def sameIdentifier : Workspace where
  tree := ⟨.folder [("p", .folder [
    ("src", .folder [("a.json",
      .file (.text "\x7b\"s\":\x7b\"x\":\x7b\"top\":\"1\"\x7d\x7d\x7d") 1)]),
    ("a.json", .file (.text "\x7b\"t\":\x7b\"y\":\x7b\"top\":\"2\"\x7d\x7d\x7d") 2)])], ["p"]⟩
  tables := []
  host := ⟨10, 0, fun _ => 0, fun _ => none, 1, false⟩

/-- The bundle has the classes of both sources, but the table only that of the later one. -/
theorem run_names_lost :
    (run Css.engine sameIdentifier
        ["--names", "n.json", "--root", "src", "src/a.json", "a.json"]).1.code = 0
    ∧ (run Css.engine sameIdentifier
        ["--names", "n.json", "--root", "src", "src/a.json", "a.json"]).1.stdout
      = ".a-s-x \x7b\n  top: 1;\n\x7d\n.a-t-y \x7b\n  top: 2;\n\x7d\n"
    ∧ sourceOf "src" "src/a.json" = "a" ∧ sourceOf "src" "a.json" = "a"
    ∧ ∃ text names, (run Css.engine sameIdentifier
        ["--names", "n.json", "--root", "src", "src/a.json", "a.json"]).2.tree.readText "n.json"
          = .ok text
      ∧ Json.parse? text = some names
      ∧ names.at? ["a", "t", "y"] = some (.string "a-t-y")
      ∧ names.at? ["a", "s", "x"] = none := by
  have htext : (run Css.engine sameIdentifier
      ["--names", "n.json", "--root", "src", "src/a.json", "a.json"]).2.tree.readText "n.json"
      = .ok "\x7b\n  \"a\": \x7b\n    \"t\": \x7b\n      \"y\": \"a-t-y\"\n    \x7d\n  \x7d\n\x7d" := by
    decide +kernel
  have hparse : Json.parse?
      "\x7b\n  \"a\": \x7b\n    \"t\": \x7b\n      \"y\": \"a-t-y\"\n    \x7d\n  \x7d\n\x7d"
      = some (.object [("a", .object [("t", .object [("y", .string "a-t-y")])])]) := by cbv
  exact ⟨by decide +kernel, by decide +kernel, by decide +kernel, by decide +kernel, _, _, htext,
    hparse, rfl, rfl⟩

end NestedStyles.CommandLine
