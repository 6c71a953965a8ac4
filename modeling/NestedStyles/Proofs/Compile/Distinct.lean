import NestedStyles.Proofs.Cache.Again
import NestedStyles.Proofs.ClassName.Readable
import NestedStyles.Proofs.Compile.History
/-!
# When classes are the same

Two styles have the same class if and only if their readable names have the same pieces: in one
source or in two that are compiled one after the other, and with compression or without it. With
compression the table has to be one that has been kept for class names only, and must not be cleared
between the two sources.

* `CompiledSource.Lists`: what stands in the tables of a compiled source;
* `indexed_left`, `indexed_tableAt`: the tokens of a table are different after every job;
* `classes_distinguish`: when two classes are the same;
* `classes_collide`: different styles whose classes are the same.
-/
namespace NestedStyles

open Cache (Location Session Store StoreM Table Workspace)
open ClassName (Call Indexed IsWord Knows Names Unhyphened chosen enlisted pieces plainPart readable
  tableAfter)

/-- A class stands in the tables of a compiled source. -/
def CompiledSource.Lists (c : CompiledSource) (sheet style text : String) : Prop :=
  ∃ names, (sheet, names) ∈ c.classNames ∧ (style, text) ∈ names

variable {e : Css.Engine} {o : Options} {file : String}

/-- The pieces of the readable class name for a style of a sheet. -/
def classPieces (o : Options) (file sheet style : String) : List (List Char) :=
  pieces (o.forSheet file sheet).classPrefixes style

/-! ## The tables of a compiled source -/

/-- Where all classes have names after the sheets have been read, a source compiles to their tables
and to what the engine makes of their blocks, unless it refuses them. -/
theorem compileSource_of_withNames {ms : List (String × Json.Value)}
    {sheets : OrderedMap String Sheet} {tau : String → String} {s s' : Store}
    (hread : ms.mapM (readMember o file) s = (.ok (withNames o file tau sheets), s'))
    (h : ∀ name ∈ listed o file sheets, Names o.compressClassNames s' name (tau name)) :
    compileSource e o file (.object ms) s = ((postProcess e o
        (printed ((OrderedMap.ofEntries sheets).map (namedBlocksOf o file tau)))).map fun css =>
      ⟨file, OrderedMap.ofEntries (sheets.map fun e => (e.1, (readableNames o file e).rename tau)),
        css⟩, s') := by
  have hsheets : (withNames o file tau sheets).map (fun r => (r.1, r.2.1)) = sheets := by
    rw [withNames, List.map_map]
    exact List.map_id sheets
  have hnames : (withNames o file tau sheets).map (fun r => (r.1, r.2.2))
      = sheets.map fun e => (e.1, (readableNames o file e).rename tau) := by
    rw [withNames, List.map_map]
    rfl
  have hprint : printSheets o file (OrderedMap.ofEntries sheets) s' = _ :=
    printSheets_of_names fun name hname => by
      obtain ⟨e, he, hname⟩ := List.mem_flatMap.1 hname
      exact h name (List.mem_flatMap.2 ⟨e, OrderedMap.mem_of_mem_ofEntries he, hname⟩)
  have hcss : buildCss e o file (OrderedMap.ofEntries sheets) s' = (postProcess e o
      (printed ((OrderedMap.ofEntries sheets).map (namedBlocksOf o file tau))), s') :=
    Cache.bind_of_ok hprint
  rw [compileSource_object, Cache.bind_of_ok hread, hsheets, hnames]
  cases hpost : postProcess e o
      (printed ((OrderedMap.ofEntries sheets).map (namedBlocksOf o file tau))) with
  | error fault =>
    rw [hpost] at hcss
    exact Cache.bind_of_error hcss
  | ok css =>
    rw [hpost] at hcss
    exact Cache.bind_of_ok hcss

theorem compileSource_of_readAll {ms : List (String × Json.Value)}
    {sheets : OrderedMap String Sheet} (h : readAll ms = .ok sheets) (t : Table) :
    compileSource e o file (.object ms) (.memory t) = ((postProcess e o
        (printed ((OrderedMap.ofEntries sheets).map (namedBlocksOf o file
          (chosen o.compressClassNames
            (enlisted o.compressClassNames t (listed o file sheets))))))).map fun css =>
      ⟨file, OrderedMap.ofEntries (sheets.map fun e => (e.1, (readableNames o file e).rename
        (chosen o.compressClassNames (enlisted o.compressClassNames t (listed o file sheets))))),
        css⟩, .memory (enlisted o.compressClassNames t (listed o file sheets))) :=
  compileSource_of_withNames (mapM_readMember_ok h t) fun _ hname =>
    (ClassName.knows_enlisted hname).names

theorem readAll_of_mapM {ms : List (String × Json.Value)} {s s' : Store}
    {read : List (String × Sheet × ClassNames)}
    (h : ms.mapM (readMember o file) s = (.ok read, s')) : ∃ sheets, readAll ms = .ok sheets := by
  cases hread : readAll ms with
  | ok sheets => exact ⟨sheets, rfl⟩
  | error fault =>
    exfalso
    induction ms generalizing s s' read with
    | nil => cases hread
    | cons m ms ih =>
      rw [List.mapM_cons] at h
      obtain ⟨_, s₁, hhead, h⟩ := Cache.ok_of_bind h
      obtain ⟨_, s₂, htail, -⟩ := Cache.ok_of_bind h
      rcases readAll_cons_error hread with hm | ⟨-, -, hrest⟩
      · cases (Cache.bind_of_error (readSheet_error hm m.1 s)).symm.trans hhead
      · exact ih htail hrest

/-- What compiles is an object whose sheets can be read. -/
theorem readAll_of_compileSource {raw : Json.Value} {s s' : Store} {c : CompiledSource}
    (h : compileSource e o file raw s = (.ok c, s')) :
    ∃ ms sheets, raw = .object ms ∧ readAll ms = .ok sheets := by
  cases raw with
  | object ms =>
    rw [compileSource_object] at h
    obtain ⟨_, _, hread, -⟩ := Cache.ok_of_bind h
    obtain ⟨sheets, hsheets⟩ := readAll_of_mapM hread
    exact ⟨ms, sheets, rfl, hsheets⟩
  | _ => cases h

theorem classNames_of_map {r : Except Fault String} {tables : OrderedMap String ClassNames}
    {c : CompiledSource} (h : (r.map fun css => (⟨file, tables, css⟩ : CompiledSource)) = .ok c) :
    c.classNames = tables := by
  cases r with
  | error fault => cases h
  | ok css =>
    cases h
    rfl

theorem file_of_compileSource {raw : Json.Value} {s s' : Store} {c : CompiledSource}
    (h : compileSource e o file raw s = (.ok c, s')) : c.file = file := by
  obtain ⟨ms, -, rfl, -⟩ := readAll_of_compileSource h
  rw [compileSource_object] at h
  obtain ⟨_, _, -, h⟩ := Cache.ok_of_bind h
  obtain ⟨_, _, -, h⟩ := Cache.ok_of_bind h
  cases h
  rfl

/-- A source that adds nothing to a table compiles to its sheets, with the classes that the table
has, and to what the engine makes of their CSS. -/
theorem compiled_of_unchanged {ms : List (String × Json.Value)} (hids : (OrderedMap.keys ms).Nodup)
    {t : Table} {c : CompiledSource}
    (h : compileSource e o file (.object ms) (.memory t) = (.ok c, .memory t)) :
    ∃ sheets, readAll ms = .ok sheets
      ∧ c.classNames = (compiled o file (chosen o.compressClassNames t) sheets).classNames
      ∧ postProcess e o (compiled o file (chosen o.compressClassNames t) sheets).css
        = .ok c.css := by
  obtain ⟨_, sheets, ⟨⟩, hread⟩ := readAll_of_compileSource h
  rw [← keys_readAll hread] at hids
  have hrun : compileSource e o file (.object ms) (.memory t) = _ := compileSource_of_readAll hread t
  obtain ⟨hresult, hstore⟩ := Prod.mk.inj (hrun.symm.trans h)
  have htable : enlisted o.compressClassNames t (listed o file sheets) = t := Store.memory.inj hstore
  have hnames : OrderedMap.ofEntries (sheets.map fun e => (e.1, (readableNames o file e).rename
      (chosen o.compressClassNames t)))
        = (compiled o file (chosen o.compressClassNames t) sheets).classNames :=
    OrderedMap.ofEntries_map hids _
  rw [htable, OrderedMap.ofEntries_of_nodup hids, hnames] at hresult
  refine ⟨sheets, hread, classNames_of_map hresult, ?_⟩
  change postProcess e o (printed (sheets.map (namedBlocksOf o file
    (chosen o.compressClassNames t)))) = _
  cases hpost : postProcess e o (printed (sheets.map (namedBlocksOf o file
      (chosen o.compressClassNames t)))) with
  | error fault =>
    rw [hpost] at hresult
    cases hresult
  | ok css =>
    rw [hpost] at hresult
    cases hresult
    rfl

/-- A class in the tables is that of a style with a class. -/
theorem mem_listed_of_lists {sheets : OrderedMap String Sheet} {tau : String → String}
    {c : CompiledSource} (hc : c.classNames
      = OrderedMap.ofEntries (sheets.map fun e => (e.1, (readableNames o file e).rename tau)))
    {sheet style text : String} (h : c.Lists sheet style text) :
    isGlobal style = false
      ∧ readable (o.forSheet file sheet).classPrefixes style ∈ listed o file sheets
      ∧ text = tau (readable (o.forSheet file sheet).classPrefixes style) := by
  obtain ⟨names, hnames, htext⟩ := h
  rw [hc] at hnames
  obtain ⟨e, he, hentry⟩ := List.mem_map.1 (OrderedMap.mem_of_mem_ofEntries hnames)
  cases hentry
  rw [rename_readableNames] at htext
  obtain ⟨_, hstyle, hentry⟩ := List.mem_map.1 htext
  cases hentry
  exact ⟨(mem_classStyles.1 hstyle).2, mem_listed he hstyle, rfl⟩

/-! ## Tables of tokens -/

section Tables

variable {t : Table} {jobs : List Job}

/-- In a table with different tokens classes have the same name if and only if they are the same. -/
theorem chosen_inj (h : Indexed t) {compress : Bool} {name name' : String}
    (hname : Knows compress t name) (hname' : Knows compress t name') :
    chosen compress t name = chosen compress t name' ↔ name = name' := by
  refine ⟨fun heq => ?_, congrArg _⟩
  cases compress with
  | false => exact heq
  | true =>
    obtain ⟨token, htoken⟩ := hname rfl
    obtain ⟨token', htoken'⟩ := hname' rfl
    have hsame : token = token' := by
      rw [← ClassName.tokenOf_of_get? htoken, ← ClassName.tokenOf_of_get? htoken']
      exact heq
    exact h.inj htoken (hsame ▸ htoken')

theorem indexed_enlisted (h : Indexed t) (compress : Bool) (names : List String) :
    Indexed (enlisted compress t names) := by
  cases compress with
  | false => exact h
  | true =>
    change Indexed (names.foldl ClassName.assign t)
    induction names generalizing t with
    | nil => exact h
    | cons name names ih => exact ih (h.assign name)

/-- Whether it succeeds or not, compiling names some classes. -/
theorem tableLeft_compileSource (e : Css.Engine) (o : Options) (file : String) (raw : Json.Value)
    (t : Table) : ∃ names, tableLeft (compileSource e o file raw) t
      = enlisted o.compressClassNames t names := by
  cases raw with
  | object ms =>
    cases hread : readAll ms with
    | ok sheets =>
      exact ⟨listed o file sheets, tableLeft_eq (compileSource_of_readAll hread t)⟩
    | error fault =>
      obtain ⟨names, hrun⟩ : ∃ names, compileSource e o file (.object ms) (.memory t) = _ :=
        compileSource_error hread t
      exact ⟨names, tableLeft_eq hrun⟩
  | _ => exact ⟨[], by cases o.compressClassNames <;> rfl⟩

theorem indexed_left (h : Indexed t) (job : Job) : Indexed (job.left e t) := by
  cases job with
  | call c => exact h.onTable c
  | compile i o file raw =>
    obtain ⟨names, hleft⟩ := tableLeft_compileSource e o file raw t
    change Indexed (tableLeft _ t)
    rw [hleft]
    exact indexed_enlisted h _ names
  | elapse host => exact h

theorem indexed_tableAt (e : Css.Engine) (jobs : List Job) (n : Nat) :
    Indexed (tableAt e jobs n) := by
  unfold tableAt
  generalize jobs.take n = jobs
  suffices ∀ t, Indexed t → Indexed (jobs.foldl (Job.left e) t) from this [] ClassName.indexed_nil
  induction jobs with
  | nil => exact fun _ h => h
  | cons job jobs ih => exact fun t h => ih _ (indexed_left h job)

end Tables

/-! ## Classes -/

variable {file' sheet sheet' style style' text text' : String} {raw raw' : Json.Value}
  {c c' : CompiledSource}

/-- The class of a style is the one that the table has for its readable name afterwards. -/
theorem lists_of_memory {t : Table} (hc : (compileSource e o file raw (.memory t)).1 = .ok c)
    (h : c.Lists sheet style text) :
    Knows o.compressClassNames (tableLeft (compileSource e o file raw) t)
        (readable (o.forSheet file sheet).classPrefixes style)
      ∧ text = chosen o.compressClassNames (tableLeft (compileSource e o file raw) t)
        (readable (o.forSheet file sheet).classPrefixes style) := by
  obtain ⟨ms, sheets, rfl, hread⟩ := readAll_of_compileSource (Prod.ext hc rfl)
  have hrun : compileSource e o file (.object ms) (.memory t) = _ := compileSource_of_readAll hread t
  rw [hrun] at hc
  rw [tableLeft_eq hrun]
  obtain ⟨-, hname, htext⟩ := mem_listed_of_lists (classNames_of_map hc) h
  exact ⟨ClassName.knows_enlisted hname, htext⟩

/-- Without compression the class of a style is its readable name, whatever the store. -/
theorem lists_of_plain (hplain : o.compressClassNames = false) {s : Store}
    (hc : (compileSource e o file raw s).1 = .ok c) (h : c.Lists sheet style text) :
    text = readable (o.forSheet file sheet).classPrefixes style := by
  obtain ⟨ms, sheets, rfl, hread⟩ := readAll_of_compileSource (Prod.ext hc rfl)
  have hnames : ∀ name ∈ listed o file sheets, Names o.compressClassNames s name (id name) := by
    intro name _
    rw [hplain]
    rfl
  rw [compileSource_of_withNames (mapM_readMember_of_names hread hnames) hnames] at hc
  exact (mem_listed_of_lists (classNames_of_map hc) h).2.2

/-! ## Classes in a history -/

section History

variable {loc : Location} {w : Workspace} {jobs : List Job} {m n i : Nat}

theorem lists_of_history (hplain : o.compressClassNames = false)
    (hn : jobs[n]? = some (.compile i o file raw))
    (hc : (history e loc w jobs).1[n]? = some (.ok (.compiled c))) (h : c.Lists sheet style text) :
    text = readable (o.forSheet file sheet).classPrefixes style := by
  rw [getElem?_history e loc w hn, Session.performJob_compile] at hc
  obtain ⟨store, hstore⟩ := (sessionAt e loc w jobs n).exists_use_eq i
    (compileSource e o file raw)
  exact lists_of_plain hplain (hstore.symm.trans (Outcome.compiled_eq_ok.1 (Option.some.inj hc))) h

theorem lists_of_fresh (hfresh : loc.Fresh w) (hfits : FitsHistory e loc jobs)
    (hn : jobs[n]? = some (.compile i o file raw))
    (hc : (history e loc w jobs).1[n]? = some (.ok (.compiled c))) (h : c.Lists sheet style text) :
    Knows o.compressClassNames (tableAt e jobs (n + 1))
        (readable (o.forSheet file sheet).classPrefixes style)
      ∧ text = chosen o.compressClassNames (tableAt e jobs (n + 1))
        (readable (o.forSheet file sheet).classPrefixes style) := by
  rw [getElem?_history_of_fresh hfresh hfits hn] at hc
  rw [tableAt_succ e hn]
  exact lists_of_memory (Outcome.compiled_eq_ok.1 (Option.some.inj hc)) h

/-- Between two compiled sources no class changes its name, if there is no clear. -/
theorem grows_between (hmn : m ≤ n) (hn : jobs[n]? = some (.compile i o file raw))
    (hclear : ∀ k, m < k → k < n → ∀ job, jobs[k]? = some job → job.isClear = false) :
    (tableAt e jobs (m + 1)).Grows (tableAt e jobs (n + 1)) := by
  refine grows_tableAt (Nat.succ_le_succ hmn) fun k hk hkn job hjob => ?_
  rcases Nat.lt_or_eq_of_le (Nat.le_of_lt_succ hkn) with hlt | rfl
  · exact hclear k hk hlt job hjob
  · cases hn.symm.trans hjob
    rfl

/-- Two classes are the same if and only if their readable names are: without compression they are
these, and with it the table that the later source leaves has both. -/
theorem text_eq_iff {i' : Nat} (hmn : m ≤ n) (hm : jobs[m]? = some (.compile i o file raw))
    (hn : jobs[n]? = some (.compile i' o file' raw'))
    (hc : (history e loc w jobs).1[m]? = some (.ok (.compiled c)))
    (hc' : (history e loc w jobs).1[n]? = some (.ok (.compiled c')))
    (hkept : o.compressClassNames = true → loc.Fresh w ∧ FitsHistory e loc jobs
      ∧ ∀ k, m < k → k < n → ∀ job, jobs[k]? = some job → job.isClear = false)
    (h : c.Lists sheet style text) (h' : c'.Lists sheet' style' text') :
    text = text' ↔ readable (o.forSheet file sheet).classPrefixes style
      = readable (o.forSheet file' sheet').classPrefixes style' := by
  cases hcompress : o.compressClassNames with
  | false => rw [lists_of_history hcompress hm hc h, lists_of_history hcompress hn hc' h']
  | true =>
    obtain ⟨hfresh, hfits, hclear⟩ := hkept hcompress
    obtain ⟨hknows, rfl⟩ := lists_of_fresh hfresh hfits hm hc h
    obtain ⟨hknows', rfl⟩ := lists_of_fresh hfresh hfits hn hc' h'
    have hgrows : (tableAt e jobs (m + 1)).Grows (tableAt e jobs (n + 1)) :=
      grows_between hmn hn hclear
    rw [← ClassName.chosen_grow hknows hgrows]
    exact chosen_inj (indexed_tableAt e jobs (n + 1)) (hknows.grow hgrows) hknows'

end History

/-! ## Pieces of classes -/

theorem classPieces_of_unhyphened (o : Options) (hfile : Unhyphened file)
    (hsheet : Unhyphened sheet) (hstyle : Unhyphened style) :
    classPieces o file sheet style = (o.namePrefix.toList.filter (· ≠ "")).flatMap
        (fun part => (plainPart part).splitOn '-')
      ++ [plainPart file, plainPart sheet, plainPart style] := by
  unfold classPieces
  change pieces (o.namePrefix.toList ++ [file, sheet]) style = _
  rw [ClassName.pieces_append, ClassName.pieces_of_unhyphened _ hstyle]
  · rfl
  · simp [hfile, hsheet]

/-- Parts without `-` can be told apart one by one. -/
theorem classPieces_eq_iff (hfile : Unhyphened file) (hsheet : Unhyphened sheet)
    (hstyle : Unhyphened style) (hfile' : Unhyphened file') (hsheet' : Unhyphened sheet')
    (hstyle' : Unhyphened style') :
    classPieces o file sheet style = classPieces o file' sheet' style' ↔
      plainPart file = plainPart file' ∧ plainPart sheet = plainPart sheet'
        ∧ plainPart style = plainPart style' := by
  rw [classPieces_of_unhyphened o hfile hsheet hstyle,
    classPieces_of_unhyphened o hfile' hsheet' hstyle']
  simp

theorem classPieces_eq_iff_of_isWord (hfile : IsWord file) (hsheet : IsWord sheet)
    (hstyle : IsWord style) (hfile' : IsWord file') (hsheet' : IsWord sheet')
    (hstyle' : IsWord style') : classPieces o file sheet style = classPieces o file' sheet' style'
      ↔ (file, sheet, style) = (file', sheet', style') := by
  rw [classPieces_eq_iff hfile.unhyphened hsheet.unhyphened hstyle.unhyphened hfile'.unhyphened
    hsheet'.unhyphened hstyle'.unhyphened, hfile.plainPart_eq, hsheet.plainPart_eq,
    hstyle.plainPart_eq, hfile'.plainPart_eq, hsheet'.plainPart_eq, hstyle'.plainPart_eq]
  simp [String.toList_inj]

/-! ## Two sources -/

/-- In a history two styles have the same class if and only if their readable names have the same
pieces. If no part of them is empty or has a `-`, this is so if and only if their parts are the same
but for characters that become `_`. -/
theorem classes_distinguish {loc : Location} {w : Workspace} {jobs : List Job} {m n i i' : Nat}
    (hmn : m ≤ n) (hm : jobs[m]? = some (.compile i o file raw))
    (hn : jobs[n]? = some (.compile i' o file' raw'))
    (hc : (history e loc w jobs).1[m]? = some (.ok (.compiled c)))
    (hc' : (history e loc w jobs).1[n]? = some (.ok (.compiled c')))
    (hkept : o.compressClassNames = true → loc.Fresh w ∧ FitsHistory e loc jobs
      ∧ ∀ k, m < k → k < n → ∀ job, jobs[k]? = some job → job.isClear = false)
    (h : c.Lists sheet style text) (h' : c'.Lists sheet' style' text') :
    (text = text' ↔ classPieces o file sheet style = classPieces o file' sheet' style')
      ∧ ((∀ part ∈ [file, sheet, style, file', sheet', style'], Unhyphened part) →
        (text = text' ↔ plainPart file = plainPart file' ∧ plainPart sheet = plainPart sheet'
          ∧ plainPart style = plainPart style'))
      ∧ ((∀ part ∈ [file, sheet, style, file', sheet', style'], IsWord part) →
        (text = text' ↔ (file, sheet, style) = (file', sheet', style'))) := by
  have hsame : text = text'
      ↔ classPieces o file sheet style = classPieces o file' sheet' style' :=
    (text_eq_iff hmn hm hn hc hc' hkept h h').trans ClassName.readable_eq_iff
  refine ⟨hsame, fun hall => ?_, fun hall => ?_⟩
  · simp only [List.forall_mem_cons] at hall
    obtain ⟨hfile, hsheet, hstyle, hfile', hsheet', hstyle', -⟩ := hall
    exact hsame.trans (classPieces_eq_iff hfile hsheet hstyle hfile' hsheet' hstyle')
  · simp only [List.forall_mem_cons] at hall
    obtain ⟨hfile, hsheet, hstyle, hfile', hsheet', hstyle', -⟩ := hall
    exact hsame.trans (classPieces_eq_iff_of_isWord hfile hsheet hstyle hfile' hsheet' hstyle')

theorem lists_singleton (file sheet style text css : String) :
    (CompiledSource.mk file [(sheet, [(style, text)])] css).Lists sheet style text :=
  ⟨_, List.mem_singleton.2 rfl, List.mem_singleton.2 rfl⟩

theorem classes_distinguish_two :
    (Location.disk "c" "n").Fresh .bare
    ∧ FitsHistory Css.engine (.disk "c" "n") compiledAgain
    ∧ ∃ c c', (history Css.engine (.disk "c" "n") .bare compiledAgain).1[0]?
        = some (.ok (.compiled c))
      ∧ (history Css.engine (.disk "c" "n") .bare compiledAgain).1[2]? = some (.ok (.compiled c'))
      ∧ c.Lists "s" "a" "_0" ∧ c'.Lists "s" "a" "_1"
      ∧ ("_0" = "_1" ↔ ("f", "s", "a") = ("g", "s", "a")) := by
  have hone : (history Css.engine (.disk "c" "n") .bare compiledAgain).1[0]?
      = some (.ok (.compiled ⟨"f", [("s", [("a", "_0")])], "._0 \x7b\n  top: 1;\n\x7d\n"⟩)) := by
    rw [getElem?_history_of_fresh Cache.fresh_bare fits_compiledAgain rfl]
    cbv
  have htwo : (history Css.engine (.disk "c" "n") .bare compiledAgain).1[2]?
      = some (.ok (.compiled ⟨"g", [("s", [("a", "_1")])], ""⟩)) := by
    rw [getElem?_history_of_fresh Cache.fresh_bare fits_compiledAgain rfl]
    cbv
  have hlists := lists_singleton "f" "s" "a" "_0" "._0 \x7b\n  top: 1;\n\x7d\n"
  have hlists' := lists_singleton "g" "s" "a" "_1" ""
  have hwords : ∀ part ∈ ["f", "s", "a", "g", "s", "a"], IsWord part := by
    simp [IsWord, Char.isAlphanum, Char.isAlpha, Char.isUpper, Char.isLower]
  have hkept : ∀ k, 0 < k → k < 2 → ∀ job, compiledAgain[k]? = some job → job.isClear = false :=
    fun k _ _ job hjob => isClear_compiledAgain job (List.mem_of_getElem? hjob)
  have hsame := classes_distinguish (Nat.zero_le 2) rfl rfl hone htwo
    (fun _ => ⟨Cache.fresh_bare, fits_compiledAgain, hkept⟩) hlists hlists'
  exact ⟨Cache.fresh_bare, fits_compiledAgain, _, _, hone, htwo, hlists, hlists', hsame.2.2 hwords⟩

/-- The outcomes of compiling sources through a handle on a table in memory, with a clear after each
if need be. -/
def outcomes (o : Options) (t : Table) (sources : List (String × Json.Value)) (clears : Bool) :
    List (Except Fault Outcome) :=
  (history Css.engine (.memory "m") { Workspace.bare with tables := [("m", t)] }
    (sources.flatMap fun source => Job.compile 0 o source.1 source.2
      :: if clears then [.call (.clear 0)] else [])).1

/-- Different styles have the same class where characters have become `_`, where a `-` stands in a
part or a part is empty, where the table has been cleared in between, where it holds other tokens
than those of class names, and where clears have made the epoch come round. -/
theorem classes_collide :
    outcomes {} []
        [("f", .object [("s", .object [("a.b", .object []), ("a_b", .object [])])])] false
        = [.ok (.compiled ⟨"f", [("s", [("a.b", "f-s-a_b"), ("a_b", "f-s-a_b")])], ""⟩)]
    ∧ outcomes { compressClassNames := true } []
        [("f", .object [("s", .object [("a.b", .object []), ("a_b", .object [])])])] false
        = [.ok (.compiled ⟨"f", [("s", [("a.b", "_0"), ("a_b", "_0")])], ""⟩)]
    ∧ outcomes {} []
        [("f", .object [("s", .object [("t-u", .object [])]),
          ("s-t", .object [("u", .object [])])])] false
        = [.ok (.compiled ⟨"f", [("s", [("t-u", "f-s-t-u")]), ("s-t", [("u", "f-s-t-u")])], ""⟩)]
    ∧ outcomes {} [] [("", .object [("s", .object [("a", .object [])])]),
        ("s", .object [("", .object [("a", .object [])])])] false
        = [.ok (.compiled ⟨"", [("s", [("a", "s-a")])], ""⟩),
          .ok (.compiled ⟨"s", [("", [("a", "s-a")])], ""⟩)]
    ∧ outcomes { compressClassNames := true } []
        [("f", .object [("s", .object [("a", .object [])])]),
          ("f", .object [("s", .object [("b", .object [])])])] true
        = [.ok (.compiled ⟨"f", [("s", [("a", "_0")])], ""⟩), .ok (.answer .done),
          .ok (.compiled ⟨"f", [("s", [("b", "_0")])], ""⟩), .ok (.answer .done)]
    ∧ outcomes { compressClassNames := true } [("f-s-a", "x"), ("f-s-b", "x")]
        [("f", .object [("s", .object [("a", .object []), ("b", .object [])])])] false
        = [.ok (.compiled ⟨"f", [("s", [("a", "x"), ("b", "x")])], ""⟩)]
    ∧ ((Location.disk "c" "n").Fresh .bare
      ∧ (compileThrough Css.engine {} "" (.object [("", .object [("a", .object [])])])
        (reached (.disk "c" "n") .bare
          (Call.compress 0 "a" :: List.replicate UInt64.size (Call.clear 1)
            ++ [Call.compress 1 "b"])) 0 true).1
        = .ok ⟨"", [("", [("a", "_0")])], ""⟩
      ∧ tableAfter (Call.compress 0 "a" :: List.replicate UInt64.size (Call.clear 1)
        ++ [Call.compress 1 "b"]) = [("b", "_0")]) := by
  have hpos : 0 < UInt64.size := by decide
  have hstale := compileThrough_stale hpos (Nat.mod_self _) Css.engine
  exact ⟨by cbv, by cbv, by cbv, by cbv, by cbv, by cbv, Cache.fresh_bare, hstale⟩

end NestedStyles
