import NestedStyles.Proofs.Cache.Refinement
import NestedStyles.Proofs.ClassName.Naming
import NestedStyles.Proofs.Compile.Sheets
import NestedStyles.Css.Engine
/-!
# Compression renames classes

A source compiles to the same tables and the same CSS whether class names are compressed or not, but
for the classes themselves: each readable one is replaced by its token, in the tables and in every
selector that has been generated. The tokens are those of the table at hand, which grows by the
classes that it does not know yet.

* `compileThrough` is a source compiled through a handle, with or without compression;
* `Renamed` says that two compiled sources differ by their classes only;
* `compression_renames`: compression does this, from whatever calls have been made before;
* `compression_differs`: where no folder can be made, or when the folder's epoch has come round, it
  does not.
-/
namespace NestedStyles

open Cache (Location Session Store StoreM Table Workspace)
open ClassName (Call Names assignAll readable tableAfter tokenOf)

/-! ## Sessions -/

def reached (loc : Location) (w : Workspace) (calls : List Call) : Session :=
  ((Session.start loc w).run loc (calls.map Call.request)).2

/-- The options with compression on or off. -/
def Options.compressing (o : Options) (compress : Bool) : Options :=
  { o with compressClassNames := compress }

/-- A source compiled through a handle of a session, with or without compression. -/
def compileThrough (e : Css.Engine) (o : Options) (file : String) (raw : Json.Value) (s : Session)
    (i : Nat) (compress : Bool) : Except Fault CompiledSource × Session :=
  s.use i (compileSource e (o.compressing compress) file raw)

/-- The table that an action leaves in memory. -/
def tableLeft {α : Type} (action : StoreM α) (t : Table) : Table :=
  match (action (.memory t)).2 with
  | .memory t' => t'
  | .disk _ => t

/-- A table is all that is kept at a location. -/
def Cache.Session.Stores (s : Session) (t : Table) : Location → Prop
  | .memory name => (OrderedMap.get? s.workspace.tables name).getD [] = t
  | .disk dir name => s.Keeps dir name t

theorem Cache.Session.Holds.stores {s : Session} {t : Table} {clears : Nat} {loc : Location}
    (h : s.Holds t clears loc) :
    s.Stores t loc := by
  cases loc with
  | memory name => exact h.2
  | disk dir name => exact h.files

/-! ## Renamed sources -/

def CompiledSource.classes (c : CompiledSource) : List String :=
  c.classNames.flatMap fun e => e.2.map Prod.snd

/-- Blocks with other classes in their selectors. -/
def renameBlocks (tau : String → String) (blocks : List (List (Css.Block Css.Selector))) :
    List (List (Css.Block Css.Selector)) :=
  blocks.map fun bs => bs.map (Css.Block.map id (Css.Selector.rename tau))

/-- From a table in memory, the blocks of the sheets of a file are these; the table stays as it
is. -/
def Generates (o : Options) (file : String) (sheets : OrderedMap String Sheet) (t : Table)
    (blocks : List (List (Css.Block Css.Selector))) : Prop :=
  sheets.mapM (fun e => Css.namedBlocks (o.forSheet file e.1) e.2) (.memory t)
    = (.ok blocks, .memory t)

/-- Where `plain` has readable classes, from a table `t`, `packed` has the tokens of a table
`t'`. -/
structure Renamed (o : Options) (file : String) (sheets : OrderedMap String Sheet) (t t' : Table)
    (plain packed : CompiledSource) : Prop where
  /-- The table has been given the classes of all tables, and no more. -/
  table : t' = assignAll t plain.classes
  /-- There are tables for the styles that are not global. -/
  readable : plain.classNames = sheets.map fun e => (e.1, readableNames o file e)
  same_file : packed.file = plain.file
  tables : packed.classNames = plain.classNames.map fun e => (e.1, e.2.rename (tokenOf t'))
  css : ∃ blocks, Generates (o.compressing false) file sheets t blocks ∧ plain.css = printed blocks
    ∧ Generates (o.compressing true) file sheets t' (renameBlocks (tokenOf t') blocks)
    ∧ packed.css = printed (renameBlocks (tokenOf t') blocks)
  /-- The class in a selector is the one in the table of the sheet. -/
  selectors : ∀ e ∈ sheets, ∀ b ∈ e.2.blocks, ∀ target ∈ b.selectors,
    isGlobal target.style = false → ∃ names text, OrderedMap.get? packed.classNames e.1 = some names
      ∧ OrderedMap.get? names target.style = some text
      ∧ target.selector ((o.compressing true).forSheet file e.1) (.memory t')
        = (.ok (.ofClass target.parent text target.fragment), .memory t')

variable {o : Options} {file : String}

theorem renameBlocks_named (tau : String → String) (sheets : OrderedMap String Sheet) :
    renameBlocks tau (sheets.map (namedBlocksOf o file id))
      = sheets.map (namedBlocksOf o file tau) := by
  unfold renameBlocks
  rw [List.map_map]
  refine List.map_congr_left fun e _ => ?_
  simp only [Function.comp_apply, namedBlocksOf, List.map_map]
  refine List.map_congr_left fun b _ => ?_
  rw [Function.comp_apply, Css.Block.map_map]
  exact Css.Block.map_congr fun target _ => Css.Target.rename_named tau _ target

theorem rename_id (names : ClassNames) : names.rename id = names := List.map_id names

theorem classes_compiled (sheets : OrderedMap String Sheet) :
    (compiled o file id sheets).classes = listed o file sheets := by
  unfold CompiledSource.classes listed compiled
  rw [List.flatMap_map]
  simp only [rename_id]

theorem get?_classNames {sheets : OrderedMap String Sheet} (hids : (OrderedMap.keys sheets).Nodup)
    {e : String × Sheet} (he : e ∈ sheets) (tau : String → String) :
    OrderedMap.get? (compiled o file tau sheets).classNames e.1
      = some ((readableNames o file e).rename tau) := by
  have hkeys : OrderedMap.keys (compiled o file tau sheets).classNames
      = OrderedMap.keys sheets := by
    simp [compiled, OrderedMap.keys, Function.comp_def]
  rw [← hkeys] at hids
  exact OrderedMap.get?_eq_some_of_mem hids (List.mem_map_of_mem he)

theorem get?_readableNames {e : String × Sheet} (hkeys : (OrderedMap.keys e.2).Nodup)
    {style : String} (hstyle : style ∈ classStyles e.2) (tau : String → String) :
    OrderedMap.get? ((readableNames o file e).rename tau) style
      = some (tau (readable (o.forSheet file e.1).classPrefixes style)) := by
  refine OrderedMap.get?_eq_some_of_mem (nodup_keys_rename hkeys tau) ?_
  rw [rename_readableNames]
  exact List.mem_map_of_mem hstyle

/-- The two sources that sheets compile to, with the tokens of a table that has been given all their
classes. -/
theorem renamed_compiled {sheets : OrderedMap String Sheet} (hids : (OrderedMap.keys sheets).Nodup)
    (hstyles : ∀ e ∈ sheets, (OrderedMap.keys e.2).Nodup) {t t' : Table}
    (ht' : t' = assignAll t (listed o file sheets)) :
    Renamed o file sheets t t' (compiled o file id sheets)
      (compiled o file (tokenOf t') sheets) := by
  have hnames : ∀ name ∈ listed o file sheets, Names true (.memory t') name (tokenOf t' name) := by
    rw [ht']
    exact fun _ hname => ClassName.names_assignAll hname t
  have hplain : Generates (o.compressing false) file sheets t
      (sheets.map (namedBlocksOf o file id)) :=
    mapM_namedBlocks fun _ _ => rfl
  have hpacked : Generates (o.compressing true) file sheets t'
      (sheets.map (namedBlocksOf o file (tokenOf t'))) :=
    mapM_namedBlocks hnames
  refine ⟨by rw [classes_compiled, ht'], ?_, rfl, ?_,
    ⟨sheets.map (namedBlocksOf o file id), hplain, rfl, ?_, ?_⟩, ?_⟩
  · exact List.map_congr_left fun e _ => by rw [rename_id]
  · change _ = (sheets.map _).map _
    rw [List.map_map]
    refine List.map_congr_left fun e _ => ?_
    simp only [Function.comp_apply, rename_id]
  · rw [renameBlocks_named]
    exact hpacked
  · rw [renameBlocks_named]
    rfl
  · intro e he b hb target htarget hglobal
    have hstyle : target.style ∈ classStyles e.2 :=
      mem_classStyles.2 ⟨style_mem_of_blocks hb htarget, hglobal⟩
    have hselector : target.selector ((o.compressing true).forSheet file e.1) (.memory t') = _ :=
      selector_of_names fun _ => hnames _ (mem_listed he hstyle)
    refine ⟨_, _, get?_classNames hids he _, get?_readableNames (hstyles e he) hstyle _,
      hselector.trans ?_⟩
    rw [Css.Target.named, hglobal]
    rfl

/-! ## Compiling twice -/

theorem tableLeft_eq {α : Type} {action : StoreM α} {t t' : Table} {r : Except Fault α}
    (h : action (.memory t) = (r, .memory t')) : tableLeft action t = t' := by
  unfold tableLeft
  rw [h]

/-- A source that is refused in memory is refused either way. -/
theorem compileSource_refused {e : Css.Engine} {raw : Json.Value} {fault : Fault}
    (h : (expectObject file raw >>= readAll) = .error fault) (t : Table) : ∃ names,
      compileSource e (o.compressing false) file raw (.memory t) = (.error fault, .memory t)
      ∧ compileSource e (o.compressing true) file raw (.memory t)
        = (.error fault, .memory (assignAll t names)) := by
  cases raw with
  | object ms =>
    have hcompile : ∀ compress, ∃ names,
        compileSource e (o.compressing compress) file (.object ms) (.memory t) = _ :=
      fun compress => compileSource_error h t
    obtain ⟨_, hplain⟩ := hcompile false
    obtain ⟨names, hpacked⟩ := hcompile true
    exact ⟨names, hplain, hpacked⟩
  | _ =>
    cases h
    exact ⟨[], rfl, rfl⟩

theorem compiled_compressing (o : Options) (file : String) (compress : Bool) (tau : String → String)
    (sheets : OrderedMap String Sheet) :
    compiled (o.compressing compress) file tau sheets = compiled o file tau sheets := rfl

theorem listed_compressing (o : Options) (file : String) (compress : Bool)
    (sheets : OrderedMap String Sheet) :
    listed (o.compressing compress) file sheets = listed o file sheets := rfl

/-- A source that is read compiles to the same tables and blocks, with readable classes or with
tokens. -/
theorem compileSource_read {e : Css.Engine} (hvendor : o.vendorPrefixes = .enabled false)
    (hminify : o.minify = false) {ms : List (String × Json.Value)}
    (hids : (OrderedMap.keys ms).Nodup) {sheets : OrderedMap String Sheet}
    (h : readAll ms = .ok sheets) (t : Table) :
    compileSource e (o.compressing false) file (.object ms) (.memory t)
        = (.ok (compiled o file id sheets), .memory t)
      ∧ compileSource e (o.compressing true) file (.object ms) (.memory t)
        = (.ok (compiled o file (tokenOf (assignAll t (listed o file sheets))) sheets),
          .memory (assignAll t (listed o file sheets))) := by
  have hcompile : ∀ compress,
      compileSource e (o.compressing compress) file (.object ms) (.memory t) = _ :=
    fun compress => compileSource_ok (o := o.compressing compress) hvendor hminify hids h t
  simp only [compiled_compressing, listed_compressing] at hcompile
  exact ⟨hcompile false, hcompile true⟩

/-- The sheets of a source, read without names. -/
def sheetsOf (file : String) (raw : Json.Value) : Except Fault (OrderedMap String Sheet) :=
  expectObject file raw >>= readAll

/-- Compression does nothing but rename classes: it is refused where compiling without it is, for
the same cause, and otherwise the classes are replaced by their tokens, which are all that has been
added to the table. -/
theorem compression_renames {loc : Location} {w : Workspace} (hfresh : loc.Fresh w)
    {calls : List Call} (hfits : loc.Fits (calls.map Call.request)) {e : Css.Engine}
    (hvendor : o.vendorPrefixes = .enabled false) (hminify : o.minify = false) {raw : Json.Value}
    (hids : ∀ ms, raw = .object ms → (OrderedMap.keys ms).Nodup)
    (hroom : loc.HasRoom ((calls.map Call.request).countP Cache.Request.isClear)
      (tableLeft (compileSource e (o.compressing true) file raw) (tableAfter calls)).length)
    (i : Nat) :
    (compileThrough e o file raw (reached loc w calls) i false).2.Stores (tableAfter calls) loc
      ∧ match sheetsOf file raw with
        | .error fault => (compileThrough e o file raw (reached loc w calls) i false).1
          = .error fault
          ∧ (compileThrough e o file raw (reached loc w calls) i true).1 = .error fault
        | .ok sheets => ∃ plain packed t',
          (compileThrough e o file raw (reached loc w calls) i false).1 = .ok plain
          ∧ (compileThrough e o file raw (reached loc w calls) i true).1 = .ok packed
          ∧ (compileThrough e o file raw (reached loc w calls) i true).2.Stores t' loc
          ∧ Renamed o file sheets (tableAfter calls) t' plain packed := by
  have hholds : (reached loc w calls).Holds (tableAfter calls) _ loc :=
    (Session.run_start hfresh (calls.map Call.request) hfits).2
  unfold compileThrough
  cases hsheets : sheetsOf file raw with
  | error fault =>
    obtain ⟨names, hplain, hpacked⟩ :=
      compileSource_refused (o := o) (e := e) hsheets (tableAfter calls)
    rw [tableLeft_eq hpacked] at hroom
    have hless := hroom.mono (Nat.le_refl _)
      (ClassName.grows_assignAll (tableAfter calls) names).length_le
    obtain ⟨s, hs, hstored⟩ :=
      Session.use_spec hholds (follows_compileSource e _ file raw) hplain hless i
    obtain ⟨s', hs', -⟩ :=
      Session.use_spec hholds (follows_compileSource e _ file raw) hpacked hroom i
    rw [hs, hs']
    exact ⟨hstored.stores, rfl, rfl⟩
  | ok sheets =>
    cases raw with
    | object ms =>
      obtain ⟨hplain, hpacked⟩ :=
        compileSource_read (e := e) hvendor hminify (hids ms rfl) hsheets (tableAfter calls)
      rw [tableLeft_eq hpacked] at hroom
      have hgrows := ClassName.grows_assignAll (tableAfter calls) (listed o file sheets)
      have hless := hroom.mono (Nat.le_refl _) hgrows.length_le
      obtain ⟨s, hs, hstored⟩ :=
        Session.use_spec hholds (follows_compileSource e _ file _) hplain hless i
      obtain ⟨s', hs', hstored'⟩ :=
        Session.use_spec hholds (follows_compileSource e _ file _) hpacked hroom i
      rw [hs, hs']
      exact ⟨hstored.stores, _, _, _, rfl, rfl, hstored'.stores,
        renamed_compiled (keys_readAll hsheets ▸ hids ms rfl) (fun _ => nodup_of_readAll hsheets)
          rfl⟩
    | _ => cases hsheets

theorem compression_renames_two :
    (Location.disk "c" "n").Fresh .bare
    ∧ ∃ packed, (compileThrough Css.engine {} "f"
        (.object [("s", .object [("a", .object [("top", .string "1")])])])
        (reached (.disk "c" "n") .bare [.compress 0 "z", .clear 1, .compress 1 "y"]) 0 true).1
        = .ok packed
      ∧ packed.classNames = [("s", [("a", "_1")])] := by
  have hfits : (Location.disk "c" "n").Fits
      ([Call.compress 0 "z", .clear 1, .compress 1 "y"].map Call.request) := by
    decide
  have hids : (OrderedMap.keys
      [("s", Json.Value.object [("a", .object [("top", .string "1")])])]).Nodup := by
    decide
  have hsheets : sheetsOf "f" (.object [("s", .object [("a", .object [("top", .string "1")])])])
      = .ok [("s", [("a", { rules := [("top", .text "1")] })])] := by
    cbv
  have hroom : (Location.disk "c" "n").HasRoom 1
      (tableLeft (compileSource Css.engine (Options.compressing {} true) "f"
      (.object [("s", .object [("a", .object [("top", .string "1")])])]))
      (tableAfter [Call.compress 0 "z", .clear 1, .compress 1 "y"])).length := by
    rw [tableLeft_eq (compileSource_read rfl rfl hids hsheets _).2]
    refine ⟨by decide, ?_⟩
    cbv
  have h := compression_renames Cache.fresh_bare hfits rfl rfl
    (fun ms hms => by cases hms; exact hids) hroom 0
  rw [hsheets] at h
  obtain ⟨-, plain, packed, t', -, hpacked, -, hrenamed⟩ := h
  refine ⟨Cache.fresh_bare, packed, hpacked, ?_⟩
  rw [hrenamed.tables, hrenamed.table, CompiledSource.classes, hrenamed.readable]
  cbv

/-! ## Where classes are not just renamed -/

/-- A handle that still knows cleared names compiles with their tokens of long ago. -/
theorem compileThrough_of_memo {e : Css.Engine} {s : Session} {dir name : String} {l : Cache.Ledger}
    (h : s.Stands dir name l) (hw : l.WF) {i : Nat} {store : Cache.DiskStore}
    (hi : s.handles i = .disk store) (hdir : store.dir = Storage.Path.join dir name)
    (hvendor : o.vendorPrefixes = .enabled false) (hminify : o.minify = false)
    {ms : List (String × Json.Value)} (hids : (OrderedMap.keys ms).Nodup)
    {sheets : OrderedMap String Sheet} (hsheets : readAll ms = .ok sheets) {tau : String → String}
    (hknows : ∀ text ∈ listed o file sheets, Cache.Disk.Knows store.memo l.epoch text (tau text)) :
    (compileThrough e o file (.object ms) s i true).1 = .ok (compiled o file tau sheets) := by
  have hread := Cache.Disk.readEpoch_of_shows
    (d := ⟨store, s.workspace.tree.site store.dir, s.workspace.host⟩) (hdir ▸ h.shows) hw
  have hnames : ∀ text ∈ listed o file sheets, Names true
      (.disk ⟨store, s.workspace.tree.site store.dir, s.workspace.host⟩) text (tau text) := by
    intro text htext
    change ClassName.compressed text _ = _
    unfold ClassName.compressed Store.fetch
    simp only [Cache.Disk.fetch_of_memo hread (hknows text htext)]
  have hcompile : compileSource e (o.compressing true) file (.object ms) _ = _ :=
    compileSource_of_names (o := o.compressing true) hvendor hminify hids hsheets hnames
  rw [compiled_compressing] at hcompile
  exact Session.use_disk hi hcompile

/-- Without compression a source compiles as it is, whatever can be said of the handle. -/
theorem compileThrough_plain (e : Css.Engine) (hvendor : o.vendorPrefixes = .enabled false)
    (hminify : o.minify = false) {ms : List (String × Json.Value)}
    (hids : (OrderedMap.keys ms).Nodup) {sheets : OrderedMap String Sheet}
    (hsheets : readAll ms = .ok sheets) (s : Session) (i : Nat) :
    (compileThrough e o file (.object ms) s i false).1 = .ok (compiled o file id sheets) := by
  have hcompile : ∀ store, compileSource e (o.compressing false) file (.object ms) store
      = (.ok (compiled (o.compressing false) file id sheets), store) := fun store =>
    compileSource_of_names (o := o.compressing false) hvendor hminify hids hsheets fun _ _ => rfl
  rw [compiled_compressing] at hcompile
  exact Session.use_of_forall hcompile s i

/-- When the epoch has come round, a class can be compiled to a token that another one has. -/
theorem compileThrough_stale {n : Nat} (hn : 0 < n) (hround : n % UInt64.size = 0)
    (e : Css.Engine) :
    (compileThrough e {} "" (.object [("", .object [("a", .object [])])])
      (reached (.disk "c" "n") .bare
        (Call.compress 0 "a" :: List.replicate n (Call.clear 1) ++ [Call.compress 1 "b"])) 0 true).1
      = .ok ⟨"", [("", [("a", "_0")])], ""⟩
    ∧ tableAfter (Call.compress 0 "a" :: List.replicate n (Call.clear 1) ++ [Call.compress 1 "b"])
      = [("b", "_0")] := by
  have htoken : ClassName.token ([] : List String).length = "_0" := by cbv
  have hids : (OrderedMap.keys [("", Json.Value.object [("a", .object [])])]).Nodup := by decide
  have hsheets : readAll [("", .object [("a", .object [])])] = .ok [("", [("a", {})])] := by cbv
  have hlisted : listed {} "" [("", [("a", {})])] = ["a"] := by cbv
  have hcompiled : compiled {} "" (fun _ => "_0") [("", [("a", {})])]
      = ⟨"", [("", [("a", "_0")])], ""⟩ := by
    cbv
  constructor
  · obtain ⟨s, l, store, hrun, hstands, hw, hstore, hdir, hknows⟩ :=
      Session.stale_handle Cache.fresh_bare hn hround "a" "b" fun names =>
        ClassName.token names.length
    have hreached : reached (.disk "c" "n") .bare
        (Call.compress 0 "a" :: List.replicate n (Call.clear 1) ++ [Call.compress 1 "b"]) = s := by
      unfold reached
      rw [List.map_append, List.map_cons, List.map_replicate]
      exact congrArg Prod.snd hrun
    rw [hreached, ← hcompiled]
    refine compileThrough_of_memo hstands hw hstore hdir rfl rfl hids hsheets fun text htext => ?_
    rw [hlisted, List.mem_singleton] at htext
    rw [htext, ← htoken]
    exact hknows
  · have hclears : tableAfter (Call.compress 0 "a" :: List.replicate n (Call.clear 1)) = [] := by
      unfold tableAfter
      rw [List.map_cons, List.map_replicate, Cache.onTable]
      exact congrArg Prod.snd (Cache.onTable_clears _ 1 hn)
    rw [ClassName.tableAfter_append, hclears, ← htoken]
    rfl

/-- A source is refused if the first of its classes cannot be named. -/
theorem compileSource_of_fault {e : Css.Engine} {m : String × Json.Value}
    {ms : List (String × Json.Value)} {sheet : Sheet} (h : normalize m.2 = .ok sheet)
    {style : String} {styles : List String} (hstyles : classStyles sheet = style :: styles)
    {fault : Fault} {s s' : Store}
    (hname : ClassName.classFor (o.forSheet file m.1).classPrefixes o.compressClassNames style s
      = (.error fault, s')) :
    compileSource e o file (.object (m :: ms)) s = (.error fault, s') := by
  have htable : nameTable (o.forSheet file m.1).classPrefixes o.compressClassNames sheet s
      = (.error fault, s') := by
    unfold nameTable
    unfold classStyles at hstyles
    rw [hstyles, List.mapM_cons]
    exact Cache.bind_of_error (Cache.bind_of_error (Cache.bind_of_error hname))
  have hsheet : ofResult (normalize m.2) s = (.ok sheet, s) := by
    rw [h]
    rfl
  have hread : readSheet o file m.1 m.2 s = (.error fault, s') := by
    unfold readSheet
    rw [Cache.bind_of_ok hsheet, Cache.bind_of_error htable]
  have hmember : readMember o file m s = (.error fault, s') := Cache.bind_of_error hread
  rw [compileSource_object, List.mapM_cons]
  exact Cache.bind_of_error (Cache.bind_of_error hmember)

theorem compileThrough_blocked (e : Css.Engine) :
    (compileThrough e {} "f" (.object [("s", .object [("a", .object [])])])
        (reached (.disk "c" "n") .blocked []) 0 false).1 = .ok ⟨"f", [("s", [("a", "f-s-a")])], ""⟩
    ∧ (compileThrough e {} "f" (.object [("s", .object [("a", .object [])])])
        (reached (.disk "c" "n") .blocked []) 0 true).1
      = .error (.cacheStorage "c/n/.epoch" .notADirectory) := by
  have hids : (OrderedMap.keys [("s", Json.Value.object [("a", .object [])])]).Nodup := by decide
  have hsheet : normalize (.object [("a", .object [])]) = .ok [("a", {})] := by cbv
  have hsheets : readAll [("s", .object [("a", .object [])])] = .ok [("s", [("a", {})])] := by cbv
  have hcompiled : compiled {} "f" id [("s", [("a", {})])]
      = ⟨"f", [("s", [("a", "f-s-a")])], ""⟩ := by
    cbv
  have hstyles : classStyles [("a", {})] = ["a"] := by cbv
  constructor
  · rw [← hcompiled]
    exact compileThrough_plain e rfl rfl hids hsheets _ 0
  · exact Session.use_disk rfl (compileSource_of_fault hsheet hstyles rfl)

/-- A file in the way of the folder makes compression fail where compiling without it succeeds, and
after 2 ^ 64 clears a class can be compiled to a token that another one has. -/
theorem compression_differs :
    ((Workspace.blocked.tree.site "c/n").isPresent = false
      ∧ (compileThrough Css.engine {} "f" (.object [("s", .object [("a", .object [])])])
          (reached (.disk "c" "n") .blocked []) 0 false).1
          = .ok ⟨"f", [("s", [("a", "f-s-a")])], ""⟩
      ∧ (compileThrough Css.engine {} "f" (.object [("s", .object [("a", .object [])])])
          (reached (.disk "c" "n") .blocked []) 0 true).1
          = .error (.cacheStorage "c/n/.epoch" .notADirectory))
    ∧ ((Location.disk "c" "n").Fresh .bare
      ∧ (compileThrough Css.engine {} "" (.object [("", .object [("a", .object [])])])
        (reached (.disk "c" "n") .bare
          (Call.compress 0 "a" :: List.replicate UInt64.size (Call.clear 1)
            ++ [Call.compress 1 "b"])) 0 true).1
        = .ok ⟨"", [("", [("a", "_0")])], ""⟩
      ∧ tableAfter (Call.compress 0 "a" :: List.replicate UInt64.size (Call.clear 1)
        ++ [Call.compress 1 "b"])
        = [("b", "_0")]
      ∧ tokenOf (assignAll [("b", "_0")] ["a"]) "a" = "_1") := by
  have hpos : 0 < UInt64.size := by decide
  obtain ⟨hstale, htable⟩ := compileThrough_stale hpos (Nat.mod_self _) Css.engine
  exact ⟨⟨rfl, compileThrough_blocked Css.engine⟩, Cache.fresh_bare, hstale, htable, by cbv⟩

end NestedStyles
