import NestedStyles.Proofs.ClassName.Assign
import NestedStyles.Proofs.Css.Block
import NestedStyles.Proofs.Style.Document
import NestedStyles.Compile
/-!
# What the sheets of a source compile to

All classes of a sheet are named for its table. The blocks that are printed after all tables only
name classes that have been named before, and so they leave the tokens alone.

* `readAll` are the sheets of a source, `readableNames` and `listed` their classes in the order in
  which they are named;
* `nameTable_spec`, `mapM_readMember_ok`: naming the classes, with the table of tokens threaded
  through;
* `mapM_namedBlocks`: naming the blocks, which leaves it as it is;
* `compileSource_ok`, `compileSource_error`: compiling a source in memory;
* `fetching_compileSource`, `follows_compileSource`: doing the same through any handle;
* `compileSource_plain`: without compression no store is needed for it.
-/
namespace NestedStyles

open Cache (Fetching Follows Store StoreM Table)
open ClassName (chosen enlisted Knows Names readable)

/-! ## The tables of a source -/

/-- The same styles with other classes. -/
def ClassNames.rename (tau : String → String) (names : ClassNames) : ClassNames :=
  names.map fun c => (c.1, tau c.2)

/-- The styles of a sheet that have classes. -/
def classStyles (sheet : Sheet) : List String :=
  (OrderedMap.keys sheet).filter fun style => !isGlobal style

def readableNames (o : Options) (file : String) (e : String × Sheet) : ClassNames :=
  (classStyles e.2).map fun style => (style, readable (o.forSheet file e.1).classPrefixes style)

/-- The readable names of all classes of sheets, in the order of their tables. -/
def listed (o : Options) (file : String) (sheets : OrderedMap String Sheet) : List String :=
  sheets.flatMap fun e => (readableNames o file e).map Prod.snd

theorem ClassNames.rename_congr {tau sigma : String → String} {names : ClassNames}
    (h : ∀ c ∈ names.map Prod.snd, tau c = sigma c) : names.rename tau = names.rename sigma :=
  List.map_congr_left fun c hc => by rw [h c.2 (List.mem_map_of_mem hc)]

variable {o : Options} {file : String}

theorem mem_classStyles {sheet : Sheet} {style : String} :
    style ∈ classStyles sheet ↔ style ∈ OrderedMap.keys sheet ∧ isGlobal style = false := by
  simp [classStyles]

theorem snd_readableNames (e : String × Sheet) :
    (readableNames o file e).map Prod.snd
      = (classStyles e.2).map (readable (o.forSheet file e.1).classPrefixes) := by
  simp [readableNames, Function.comp_def]

theorem rename_readableNames (tau : String → String) (e : String × Sheet) :
    (readableNames o file e).rename tau
      = (classStyles e.2).map fun style =>
          (style, tau (readable (o.forSheet file e.1).classPrefixes style)) := by
  simp [readableNames, ClassNames.rename, Function.comp_def]

theorem nodup_keys_rename {e : String × Sheet} (hkeys : (OrderedMap.keys e.2).Nodup)
    (tau : String → String) :
    (OrderedMap.keys ((readableNames o file e).rename tau)).Nodup := by
  have hnames : OrderedMap.keys ((readableNames o file e).rename tau) = classStyles e.2 := by
    simp [rename_readableNames, OrderedMap.keys, Function.comp_def]
  rw [hnames]
  exact List.Pairwise.filter _ hkeys

theorem mapM_classFor (prefixes : List String) (compress : Bool) (styles : List String)
    (t : Table) :
    (styles.mapM fun style => do return (style, ← ClassName.classFor prefixes compress style) :
        StoreM ClassNames) (.memory t)
      = (.ok (styles.map fun style =>
          (style, chosen compress (enlisted compress t (styles.map (readable prefixes)))
            (readable prefixes style))),
        .memory (enlisted compress t (styles.map (readable prefixes)))) := by
  induction styles generalizing t with
  | nil => cases compress <;> rfl
  | cons style styles ih =>
    have hhead := ClassName.classFor_spec prefixes compress style t
    have hgrows := ClassName.grows_enlisted compress (enlisted compress t [readable prefixes style])
      (styles.map (readable prefixes))
    have hknows : Knows compress (enlisted compress t [readable prefixes style])
        (readable prefixes style) :=
      ClassName.knows_enlisted (List.mem_singleton.2 rfl)
    have happend := ClassName.enlisted_append compress t [readable prefixes style]
      (styles.map (readable prefixes))
    rw [List.singleton_append] at happend
    have hstep : (do return (style, ← ClassName.classFor prefixes compress style) :
        StoreM (String × String)) (.memory t)
        = (.ok (style, chosen compress (enlisted compress t [readable prefixes style])
            (readable prefixes style)),
          .memory (enlisted compress t [readable prefixes style])) := by
      rw [Cache.bind_of_ok hhead]
      rfl
    rw [List.mapM_cons, Cache.bind_of_ok hstep, Cache.bind_of_ok (ih _), List.map_cons,
      List.map_cons, happend, ← ClassName.chosen_grow hknows hgrows]
    rfl

theorem nameTable_of_mapM {e : String × Sheet} (hkeys : (OrderedMap.keys e.2).Nodup)
    {compress : Bool} {tau : String → String} {s s' : Store}
    (h : ((classStyles e.2).mapM fun style => do
        return (style, ← ClassName.classFor (o.forSheet file e.1).classPrefixes compress style) :
        StoreM ClassNames) s
      = (.ok ((readableNames o file e).rename tau), s')) :
    nameTable (o.forSheet file e.1).classPrefixes compress e.2 s
      = (.ok ((readableNames o file e).rename tau), s') := by
  unfold nameTable
  unfold classStyles at h
  rw [Cache.bind_of_ok h, OrderedMap.ofEntries_of_nodup (nodup_keys_rename hkeys tau)]
  rfl

theorem nameTable_spec {e : String × Sheet} (hkeys : (OrderedMap.keys e.2).Nodup) (compress : Bool)
    (t : Table) :
    nameTable (o.forSheet file e.1).classPrefixes compress e.2 (.memory t)
      = (.ok ((readableNames o file e).rename
          (chosen compress (enlisted compress t ((readableNames o file e).map Prod.snd)))),
        .memory (enlisted compress t ((readableNames o file e).map Prod.snd))) := by
  refine nameTable_of_mapM hkeys ?_
  rw [mapM_classFor, rename_readableNames, snd_readableNames]

/-- Where all classes of a sheet have names, its table has these, and the store is left as it is. -/
theorem nameTable_of_names {e : String × Sheet} (hkeys : (OrderedMap.keys e.2).Nodup)
    {compress : Bool} {tau : String → String} {s : Store}
    (h : ∀ name ∈ (readableNames o file e).map Prod.snd, Names compress s name (tau name)) :
    nameTable (o.forSheet file e.1).classPrefixes compress e.2 s
      = (.ok ((readableNames o file e).rename tau), s) := by
  refine nameTable_of_mapM hkeys ?_
  rw [rename_readableNames]
  refine mapM_of_forall _ fun style hstyle => ?_
  rw [snd_readableNames] at h
  rw [Cache.bind_of_ok (ClassName.classFor_of_names (h _ (List.mem_map_of_mem hstyle)))]
  rfl

/-! ## Reading sheets -/

/-- The sheets that members of an object are normalized to, up to the first one that is refused. -/
def readAll (ms : List (String × Json.Value)) : Except Fault (OrderedMap String Sheet) :=
  ms.mapM fun m => (normalize m.2).map fun sheet => (m.1, sheet)

theorem readAll_cons_ok {m : String × Json.Value} {ms : List (String × Json.Value)}
    {sheets : OrderedMap String Sheet} (h : readAll (m :: ms) = .ok sheets) :
    ∃ sheet rest, normalize m.2 = .ok sheet ∧ readAll ms = .ok rest
      ∧ sheets = (m.1, sheet) :: rest := by
  obtain ⟨entry, rest, hentry, hrest, rfl⟩ := mapM_cons_eq_ok.1 h
  obtain ⟨sheet, hsheet, rfl⟩ := map_eq_ok.1 hentry
  exact ⟨sheet, rest, hsheet, hrest, rfl⟩

theorem readAll_cons_error {m : String × Json.Value} {ms : List (String × Json.Value)}
    {fault : Fault} (h : readAll (m :: ms) = .error fault) :
    normalize m.2 = .error fault ∨ ∃ sheet, normalize m.2 = .ok sheet
      ∧ readAll ms = .error fault := by
  rcases mapM_cons_eq_error.1 h with hsheet | ⟨entry, hentry, hrest⟩
  · exact Or.inl (map_eq_error.1 hsheet)
  · obtain ⟨sheet, hsheet, -⟩ := map_eq_ok.1 hentry
    exact Or.inr ⟨sheet, hsheet, hrest⟩

theorem keys_readAll {ms : List (String × Json.Value)} {sheets : OrderedMap String Sheet}
    (h : readAll ms = .ok sheets) :
    OrderedMap.keys sheets = OrderedMap.keys ms := by
  induction ms generalizing sheets with
  | nil =>
    cases h
    rfl
  | cons m ms ih =>
    obtain ⟨sheet, rest, -, hrest, rfl⟩ := readAll_cons_ok h
    rw [OrderedMap.keys_cons, OrderedMap.keys_cons, ih hrest]

theorem nodup_of_readAll {ms : List (String × Json.Value)} {sheets : OrderedMap String Sheet}
    (h : readAll ms = .ok sheets) {e : String × Sheet} (he : e ∈ sheets) :
    (OrderedMap.keys e.2).Nodup := by
  induction ms generalizing sheets with
  | nil =>
    cases h
    cases he
  | cons m ms ih =>
    obtain ⟨sheet, rest, hsheet, hrest, rfl⟩ := readAll_cons_ok h
    rcases List.mem_cons.1 he with rfl | he
    · exact nodup_keys_of_normalize hsheet
    · exact ih hrest he

theorem readSheet_error {raw : Json.Value} {fault : Fault} (h : normalize raw = .error fault)
    (id : String) (s : Store) :
    readSheet o file id raw s = (.error fault, s) := by
  unfold readSheet
  rw [h]
  rfl

/-- One step of reading the sheets of a source. -/
def readMember (o : Options) (file : String) (m : String × Json.Value) :
    StoreM (String × Sheet × ClassNames) := do
  return (m.1, ← readSheet o file m.1 m.2)

theorem readMember_ok {m : String × Json.Value} {sheet : Sheet} (h : normalize m.2 = .ok sheet)
    {names : ClassNames} {s s' : Store}
    (hnames : nameTable (o.forSheet file m.1).classPrefixes o.compressClassNames sheet s
      = (.ok names, s')) :
    readMember o file m s = (.ok (m.1, sheet, names), s') := by
  have hsheet : ofResult (normalize m.2) s = (.ok sheet, s) := by
    rw [h]
    rfl
  have hread : readSheet o file m.1 m.2 s = (.ok (sheet, names), s') := by
    unfold readSheet
    rw [Cache.bind_of_ok hsheet, Cache.bind_of_ok hnames]
    rfl
  unfold readMember
  rw [Cache.bind_of_ok hread]
  rfl

/-- The sheets of a source, each with the table of its classes. -/
def withNames (o : Options) (file : String) (tau : String → String)
    (sheets : OrderedMap String Sheet) : List (String × Sheet × ClassNames) :=
  sheets.map fun e => (e.1, e.2, (readableNames o file e).rename tau)

/-- Reading sheets names all their classes, and a name stays as it is while others are given. -/
theorem mapM_readMember_ok {ms : List (String × Json.Value)} {sheets : OrderedMap String Sheet}
    (h : readAll ms = .ok sheets) (t : Table) : ms.mapM (readMember o file) (.memory t)
      = (.ok (withNames o file
          (chosen o.compressClassNames (enlisted o.compressClassNames t (listed o file sheets)))
          sheets), .memory (enlisted o.compressClassNames t (listed o file sheets))) := by
  induction ms generalizing sheets t with
  | nil =>
    cases h
    cases hc : o.compressClassNames <;> rfl
  | cons m ms ih =>
    obtain ⟨sheet, rest, hsheet, hrest, rfl⟩ := readAll_cons_ok h
    have htable : enlisted o.compressClassNames t (listed o file ((m.1, sheet) :: rest))
        = enlisted o.compressClassNames
          (enlisted o.compressClassNames t ((readableNames o file (m.1, sheet)).map Prod.snd))
          (listed o file rest) :=
      ClassName.enlisted_append _ t _ (listed o file rest)
    have hkept : (readableNames o file (m.1, sheet)).rename (chosen o.compressClassNames
          (enlisted o.compressClassNames t ((readableNames o file (m.1, sheet)).map Prod.snd)))
        = (readableNames o file (m.1, sheet)).rename (chosen o.compressClassNames
          (enlisted o.compressClassNames t (listed o file ((m.1, sheet) :: rest)))) := by
      rw [htable]
      exact ClassNames.rename_congr fun name hname =>
        (ClassName.chosen_grow (ClassName.knows_enlisted hname)
          (ClassName.grows_enlisted _ _ _)).symm
    have hhead : readMember o file m (.memory t) = _ := readMember_ok hsheet
      (nameTable_spec (e := (m.1, sheet)) (nodup_keys_of_normalize hsheet) o.compressClassNames t)
    rw [List.mapM_cons, Cache.bind_of_ok hhead, Cache.bind_of_ok (ih hrest _), hkept, ← htable]
    rfl

theorem mapM_readMember_of_names {ms : List (String × Json.Value)}
    {sheets : OrderedMap String Sheet} (h : readAll ms = .ok sheets) {tau : String → String}
    {s : Store}
    (hnames : ∀ name ∈ listed o file sheets, Names o.compressClassNames s name (tau name)) :
    ms.mapM (readMember o file) s = (.ok (withNames o file tau sheets), s) := by
  induction ms generalizing sheets with
  | nil =>
    cases h
    rfl
  | cons m ms ih =>
    obtain ⟨sheet, rest, hsheet, hrest, rfl⟩ := readAll_cons_ok h
    have hhead := readMember_ok hsheet
      (nameTable_of_names (e := (m.1, sheet)) (nodup_keys_of_normalize hsheet)
        fun name hname => hnames name (List.mem_append_left _ hname))
    have htail := ih hrest fun name hname => hnames name (List.mem_append_right _ hname)
    rw [List.mapM_cons, Cache.bind_of_ok hhead, Cache.bind_of_ok htail]
    rfl

theorem mapM_readMember_error {ms : List (String × Json.Value)} {fault : Fault}
    (h : readAll ms = .error fault) (t : Table) : ∃ names, ms.mapM (readMember o file) (.memory t)
      = (.error fault, .memory (enlisted o.compressClassNames t names)) := by
  induction ms generalizing t with
  | nil => cases h
  | cons m ms ih =>
    rcases readAll_cons_error h with hm | ⟨sheet, hm, hrest⟩
    · have hhead : readMember o file m (.memory t) = (.error fault, .memory t) :=
        Cache.bind_of_error (readSheet_error hm m.1 _)
      refine ⟨[], ?_⟩
      rw [List.mapM_cons, Cache.bind_of_error hhead]
      cases o.compressClassNames <;> rfl
    · obtain ⟨names, hnames⟩ := ih hrest
        (enlisted o.compressClassNames t ((readableNames o file (m.1, sheet)).map Prod.snd))
      refine ⟨(readableNames o file (m.1, sheet)).map Prod.snd ++ names, ?_⟩
      have hhead : readMember o file m (.memory t) = _ := readMember_ok hm
        (nameTable_spec (e := (m.1, sheet)) (nodup_keys_of_normalize hm) o.compressClassNames t)
      rw [List.mapM_cons, Cache.bind_of_ok hhead, Cache.bind_of_error hnames,
        ClassName.enlisted_append]

/-! ## Printing sheets -/

/-- The blocks of a sheet, with another class in the place of each readable one. -/
def namedBlocksOf (o : Options) (file : String) (tau : String → String) (e : String × Sheet) :
    List (Css.Block Css.Selector) :=
  e.2.blocks.map (Css.Block.map o.resolveMedia
    (Css.Target.named fun style => tau (readable (o.forSheet file e.1).classPrefixes style)))

/-- The text of the blocks of sheets. -/
def printed (blocks : List (List (Css.Block Css.Selector))) : String :=
  Text.unlines ((blocks.map Css.textOf).filter (· ≠ ""))

theorem selector_of_names {target : Css.Target} {tau : String → String} {s : Store}
    (h : isGlobal target.style = false →
      Names o.compressClassNames s (readable o.classPrefixes target.style)
        (tau (readable o.classPrefixes target.style))) :
    target.selector o s
      = (.ok (target.named fun style => tau (readable o.classPrefixes style)), s) := by
  unfold Css.Target.selector Css.Target.named
  cases hglobal : isGlobal target.style with
  | true => rfl
  | false =>
    rw [if_neg (by decide), if_neg (by decide),
      Cache.bind_of_ok (ClassName.classFor_of_names (h hglobal))]
    rfl

theorem mem_listed {sheets : OrderedMap String Sheet} {e : String × Sheet} (he : e ∈ sheets)
    {style : String} (hstyle : style ∈ classStyles e.2) :
    readable (o.forSheet file e.1).classPrefixes style ∈ listed o file sheets := by
  refine List.mem_flatMap.2 ⟨e, he, ?_⟩
  rw [snd_readableNames]
  exact List.mem_map_of_mem hstyle

section Named

variable {sheets : OrderedMap String Sheet} {tau : String → String} {s : Store}

/-- Where all classes have names, the blocks of a sheet are named without a change of the store. -/
theorem namedBlocks_of_names
    (h : ∀ name ∈ listed o file sheets, Names o.compressClassNames s name (tau name))
    {e : String × Sheet} (he : e ∈ sheets) :
    Css.namedBlocks (o.forSheet file e.1) e.2 s = (.ok (namedBlocksOf o file tau e), s) :=
  mapM_of_forall _ fun _ hb => traverse_of_forall fun _ ht =>
    selector_of_names fun hglobal =>
      h _ (mem_listed he (mem_classStyles.2 ⟨style_mem_of_blocks hb ht, hglobal⟩))

theorem mapM_namedBlocks
    (h : ∀ name ∈ listed o file sheets, Names o.compressClassNames s name (tau name)) :
    sheets.mapM (fun e => Css.namedBlocks (o.forSheet file e.1) e.2) s
      = (.ok (sheets.map (namedBlocksOf o file tau)), s) :=
  mapM_of_forall sheets fun _ he => namedBlocks_of_names h he

theorem printSheets_of_names
    (h : ∀ name ∈ listed o file sheets, Names o.compressClassNames s name (tau name)) :
    printSheets o file sheets s = (.ok (printed (sheets.map (namedBlocksOf o file tau))), s) := by
  have htexts : sheets.mapM (fun e => Css.generate (o.forSheet file e.1) e.2) s
      = (.ok (sheets.map fun e => Css.textOf (namedBlocksOf o file tau e)), s) := by
    refine mapM_of_forall sheets fun e he => ?_
    unfold Css.generate
    rw [Cache.bind_of_ok (namedBlocks_of_names h he)]
    rfl
  unfold printSheets printed
  rw [Cache.bind_of_ok htexts, List.map_map]
  rfl

end Named

/-! ## Compiling -/

/-- What sheets compile to, with another class in the place of each readable one. -/
def compiled (o : Options) (file : String) (tau : String → String)
    (sheets : OrderedMap String Sheet) :
    CompiledSource where
  file
  classNames := sheets.map fun e => (e.1, (readableNames o file e).rename tau)
  css := printed (sheets.map (namedBlocksOf o file tau))

theorem postProcess_off (e : Css.Engine) (hvendor : o.vendorPrefixes = .enabled false)
    (hminify : o.minify = false) (css : String) : postProcess e o css = .ok css := by
  unfold postProcess
  rw [hvendor, hminify]
  split
  · rename_i hempty
    rw [hempty]
    rfl
  · rfl

theorem compileSource_object (e : Css.Engine) (o : Options) (file : String)
    (ms : List (String × Json.Value)) :
    compileSource e o file (.object ms) = (do
      let read ← ms.mapM (readMember o file)
      let css ← buildCss e o file (OrderedMap.ofEntries (read.map fun r => (r.1, r.2.1)))
      return ⟨file, OrderedMap.ofEntries (read.map fun r => (r.1, r.2.2)), css⟩) := rfl

/-- What a source compiles to once its sheets have been read and their classes have names. -/
theorem compileSource_of_read {e : Css.Engine} (hvendor : o.vendorPrefixes = .enabled false)
    (hminify : o.minify = false) {ms : List (String × Json.Value)}
    {sheets : OrderedMap String Sheet} (hids : (OrderedMap.keys sheets).Nodup)
    {tau : String → String} {s s' : Store}
    (hread : ms.mapM (readMember o file) s = (.ok (withNames o file tau sheets), s'))
    (h : ∀ name ∈ listed o file sheets, Names o.compressClassNames s' name (tau name)) :
    compileSource e o file (.object ms) s = (.ok (compiled o file tau sheets), s') := by
  have hsheets : OrderedMap.ofEntries ((withNames o file tau sheets).map fun r => (r.1, r.2.1))
      = sheets := by
    rw [withNames, List.map_map]
    exact (OrderedMap.ofEntries_map hids Prod.snd).trans (List.map_id sheets)
  have hnames : OrderedMap.ofEntries ((withNames o file tau sheets).map fun r => (r.1, r.2.2))
      = (compiled o file tau sheets).classNames := by
    rw [withNames, List.map_map]
    exact OrderedMap.ofEntries_map hids fun e => (readableNames o file e).rename tau
  have hcss : buildCss e o file sheets s' = (.ok (compiled o file tau sheets).css, s') := by
    unfold buildCss
    rw [Cache.bind_of_ok (printSheets_of_names h), postProcess_off e hvendor hminify]
    rfl
  rw [compileSource_object, Cache.bind_of_ok hread, hsheets, Cache.bind_of_ok hcss, hnames]
  rfl

/-- A source whose sheets can be read compiles to their tables and blocks, with the tokens of a
table that has all classes. -/
theorem compileSource_ok {e : Css.Engine} (hvendor : o.vendorPrefixes = .enabled false)
    (hminify : o.minify = false) {ms : List (String × Json.Value)}
    (hids : (OrderedMap.keys ms).Nodup) {sheets : OrderedMap String Sheet}
    (h : readAll ms = .ok sheets) (t : Table) : compileSource e o file (.object ms) (.memory t)
      = (.ok (compiled o file
          (chosen o.compressClassNames (enlisted o.compressClassNames t (listed o file sheets)))
          sheets), .memory (enlisted o.compressClassNames t (listed o file sheets))) := by
  rw [← keys_readAll h] at hids
  exact compileSource_of_read hvendor hminify hids (mapM_readMember_ok h t) fun _ hname =>
    (ClassName.knows_enlisted hname).names

/-- A source whose classes all have names already compiles to these, and the store is left as it
is. -/
theorem compileSource_of_names {e : Css.Engine} (hvendor : o.vendorPrefixes = .enabled false)
    (hminify : o.minify = false) {ms : List (String × Json.Value)}
    (hids : (OrderedMap.keys ms).Nodup) {sheets : OrderedMap String Sheet}
    (h : readAll ms = .ok sheets) {tau : String → String} {s : Store}
    (hnames : ∀ name ∈ listed o file sheets, Names o.compressClassNames s name (tau name)) :
    compileSource e o file (.object ms) s = (.ok (compiled o file tau sheets), s) := by
  rw [← keys_readAll h] at hids
  exact compileSource_of_read hvendor hminify hids (mapM_readMember_of_names h hnames) hnames

theorem compileSource_error {e : Css.Engine} {ms : List (String × Json.Value)} {fault : Fault}
    (h : readAll ms = .error fault) (t : Table) :
    ∃ names, compileSource e o file (.object ms) (.memory t)
      = (.error fault, .memory (enlisted o.compressClassNames t names)) := by
  obtain ⟨names, hnames⟩ : ∃ names, ms.mapM (readMember o file) (.memory t) = _ :=
    mapM_readMember_error h t
  refine ⟨names, ?_⟩
  rw [compileSource_object, Cache.bind_of_error hnames]

/-! ## Through a handle -/

section Closed

variable {P : (α : Type) → StoreM α → Prop}

theorem ofResult_closed (hP : Cache.Closed P) {α : Type} (r : Except Fault α) :
    P α (ofResult r) := hP.result r

theorem traverse_closed (hP : Cache.Closed P) {σ τ : Type} {query : String → String}
    {f : σ → StoreM τ} (hf : ∀ x, P τ (f x)) (b : Css.Block σ) : P _ (b.traverse query f) := by
  have hrule : ∀ b : Css.RuleBlock σ, P _ (b.traverse f) := fun b =>
    hP.bind (hf b.selector) fun x => hP.pure (⟨x, b.rules⟩ : Css.RuleBlock τ)
  cases b with
  | rules b => exact hP.bind (hrule b) fun b => hP.pure (Css.Block.rules b)
  | media q bs =>
    exact hP.bind (hP.mapM hrule bs) fun bs => hP.pure (Css.Block.media (query q) bs)

/-- Naming a class has the property, with compression or without it. -/
def NamesClasses (P : (α : Type) → StoreM α → Prop) (compress : Bool) : Prop :=
  ∀ prefixes style, P _ (ClassName.classFor prefixes compress style)

theorem generate_closed (hP : Cache.Closed P) (hclass : NamesClasses P o.compressClassNames)
    (sheet : Sheet) : P _ (Css.generate o sheet) := by
  have hselector : ∀ target : Css.Target, P _ (target.selector o) := by
    intro target
    unfold Css.Target.selector
    split
    · exact hP.pure _
    · exact hP.bind (hclass _ _) fun name => hP.pure _
  exact hP.bind (hP.mapM (traverse_closed hP hselector) sheet.blocks) fun _ => hP.pure _

theorem buildCss_closed (hP : Cache.Closed P) (hclass : NamesClasses P o.compressClassNames)
    (e : Css.Engine) (file : String) (sheets : OrderedMap String Sheet) :
    P _ (buildCss e o file sheets) := by
  have hsame : ∀ id, (o.forSheet file id).compressClassNames = o.compressClassNames :=
    fun _ => rfl
  have htexts : P _ (sheets.mapM fun m => Css.generate (o.forSheet file m.1) m.2) := by
    refine hP.mapM (fun m => generate_closed hP ?_ m.2) sheets
    rw [hsame]
    exact hclass
  have hprint : P _ (printSheets o file sheets) := hP.bind htexts fun _ => hP.pure _
  exact hP.bind hprint fun css => ofResult_closed hP (postProcess e o css)

theorem readMember_closed (hP : Cache.Closed P) (hclass : NamesClasses P o.compressClassNames)
    (file : String) (m : String × Json.Value) : P _ (readMember o file m) := by
  have htable : ∀ prefixes sheet, P _ (nameTable prefixes o.compressClassNames sheet) :=
    fun prefixes sheet =>
      hP.bind (hP.mapM (fun style => hP.bind (hclass prefixes style) fun _ => hP.pure _) _)
        fun _ => hP.pure _
  exact hP.bind (hP.bind (ofResult_closed hP _) fun _ => hP.bind (htable _ _) fun _ => hP.pure _)
    fun _ => hP.pure _

/-- Compiling a source is made of naming classes, and of results. -/
theorem compileSource_closed (hP : Cache.Closed P) (hclass : NamesClasses P o.compressClassNames)
    (e : Css.Engine) (file : String) (sheets : Json.Value) : P _ (compileSource e o file sheets) :=
  hP.bind (ofResult_closed hP (expectObject file sheets)) fun ms =>
    hP.bind (hP.mapM (readMember_closed hP hclass file) ms) fun _ =>
      hP.bind (buildCss_closed hP hclass e file _) fun _ => hP.pure _

end Closed

/-- To compile a source is to ask for tokens. -/
theorem fetching_compileSource (e : Css.Engine) (o : Options) (file : String)
    (sheets : Json.Value) : Fetching (compileSource e o file sheets) :=
  compileSource_closed Cache.closed_fetching
    (fun prefixes style => ClassName.fetching_classFor prefixes _ style) e file sheets

/-- Without compression, to compile a source is to ask for nothing. -/
theorem compileSource_plain (e : Css.Engine) {o : Options} (hplain : o.compressClassNames = false)
    (file : String) (sheets : Json.Value) :
    ∃ r, ∀ s : Store, compileSource e o file sheets s = (r, s) := by
  refine compileSource_closed Cache.closed_still (fun prefixes style => ?_) e file sheets
  rw [hplain]
  exact ⟨.ok (readable prefixes style), fun _ => rfl⟩

theorem follows_compileSource (e : Css.Engine) (o : Options) (file : String) (sheets : Json.Value) :
    Follows (compileSource e o file sheets) := (fetching_compileSource e o file sheets).follows

end NestedStyles
