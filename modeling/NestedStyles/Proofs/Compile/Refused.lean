import NestedStyles.Proofs.Cache.Append
import NestedStyles.Proofs.Compile.Compression
/-!
# What a refused source leaves behind

A source is read sheet by sheet, and the classes of a sheet are named as soon as it has been read.
So when a sheet is refused, the names of the sheets before it have been given, and they stay.

* `sheetsBefore` are these sheets;
* `compileSource_eq_of_refused`: on any store, such a source does nothing but name their classes,
  one after the other;
* `Disk.Records`: what naming classes does to the record files of a folder, whatever is in it;
* `refused_leaves_names`: what is left in memory, in a folder that shows a table, and in any other
  one; the table is that of before if and only if it had all the names;
* `refused_leaves_trace`: it need not be.
-/
namespace NestedStyles

open Cache (Disk Ledger StoreM Table)
open ClassName (assignAll compressed readable)

/-! ## Record files -/

namespace Cache.Disk

open Storage (Folder)

/-- The record files are still there, and the new ones hold records of the names, each of which had
no record. -/
structure Records (names : List String) (d d' : Disk) : Prop where
  kept : ∀ file, isRecordName file = true → ∀ node,
    OrderedMap.get? d.site.contents file = some node →
    OrderedMap.get? d'.site.contents file = some node
  added : ∀ file, isRecordName file = true → OrderedMap.get? d.site.contents file = none →
    ∀ node, OrderedMap.get? d'.site.contents file = some node → ∃ (r : Record) (time : Int),
      r.key ∈ names ∧ ¬Folder.HasRecord d.site.contents r.key
        ∧ file = Record.fileName r.seq ∧ node = .file (.text r.encode) time

variable {names : List String} {d d' d'' : Disk}

theorem Records.refl (names : List String) (d : Disk) : Records names d d :=
  ⟨fun _ _ _ h => h, fun _ _ hnone _ h => by rw [hnone] at h; cases h⟩

theorem Records.hasRecord (h : Records names d d') {key : String}
    (hkey : Folder.HasRecord d.site.contents key) : Folder.HasRecord d'.site.contents key := by
  obtain ⟨file, r, hfile, hr, rfl⟩ := hkey
  obtain ⟨node, hnode, htext⟩ := Option.bind_eq_some_iff.1 hr
  refine ⟨file, r, hfile, ?_, rfl⟩
  rw [Folder.record?, h.kept file hfile node hnode]
  exact htext

theorem Records.trans (h : Records names d d') (h' : Records names d' d'') :
    Records names d d'' where
  kept file hfile node hnode := h'.kept file hfile node (h.kept file hfile node hnode)
  added := by
    intro file hfile hnone node hnode
    cases hbetween : OrderedMap.get? d'.site.contents file with
    | none =>
      obtain ⟨r, time, hkey, hnew, hrest⟩ := h'.added file hfile hbetween node hnode
      exact ⟨r, time, hkey, fun hrecord => hnew (h.hasRecord hrecord), hrest⟩
    | some node' =>
      obtain rfl : node' = node :=
        Option.some.inj ((h'.kept file hfile node' hbetween).symm.trans hnode)
      exact h.added file hfile hnone node' hbetween

theorem Records.mono {names' : List String} (h : Records names d d') (hsub : names ⊆ names') :
    Records names' d d' where
  kept := h.kept
  added := by
    intro file hfile hnone node hnode
    obtain ⟨r, time, hkey, hrest⟩ := h.added file hfile hnone node hnode
    exact ⟨r, time, hsub hkey, hrest⟩

end Cache.Disk

/-! ## Naming several classes -/

namespace ClassName

/-- Naming classes leaves the table with their names. -/
theorem mapM_compressed (t : Table) (names : List String) : ∃ tokens,
    names.mapM compressed (.memory t) = (.ok tokens, .memory (assignAll t names)) := by
  induction names generalizing t with
  | nil => exact ⟨[], rfl⟩
  | cons name names ih =>
    obtain ⟨tokens, htokens⟩ := ih (assign t name)
    refine ⟨tokenOf t name :: tokens, ?_⟩
    rw [List.mapM_cons, Cache.bind_of_ok (compressed_spec t name), Cache.bind_of_ok htokens]
    rfl

end ClassName

/-! ## Sheets before a refused one -/

/-- The sheets that members are normalized to, without those from the first refused one on. -/
def readBefore : List (String × Json.Value) → OrderedMap String Sheet
  | [] => []
  | m :: ms =>
    match normalize m.2 with
    | .ok sheet => (m.1, sheet) :: readBefore ms
    | .error _ => []

/-- The sheets of a source before the first refused one; none if the source is no object. -/
def sheetsBefore : Json.Value → OrderedMap String Sheet
  | .object ms => readBefore ms
  | _ => []

variable {o : Options} {file : String} {fault : Fault}

theorem readBefore_of_ok {m : String × Json.Value} {ms : List (String × Json.Value)} {sheet : Sheet}
    (h : normalize m.2 = .ok sheet) : readBefore (m :: ms) = (m.1, sheet) :: readBefore ms := by
  rw [readBefore, h]

theorem readBefore_of_error {m : String × Json.Value} {ms : List (String × Json.Value)}
    (h : normalize m.2 = .error fault) : readBefore (m :: ms) = [] := by
  rw [readBefore, h]

/-- If what becomes of the names does not matter, a table of classes is made by naming them. -/
theorem nameTable_bind {β : Type} (e : String × Sheet) (next : StoreM β) :
    (nameTable (o.forSheet file e.1).classPrefixes true e.2 >>= fun _ => next)
      = (((readableNames o file e).map Prod.snd).mapM compressed >>= fun _ => next) := by
  have hstyles : ∀ styles : List String,
      ((styles.mapM fun style => do
          return (style, ← ClassName.classFor (o.forSheet file e.1).classPrefixes true style) :
          StoreM ClassNames) >>= fun _ => next)
        = ((styles.map (readable (o.forSheet file e.1).classPrefixes)).mapM compressed
          >>= fun _ => next) := by
    intro styles
    induction styles with
    | nil => rfl
    | cons style styles ih =>
      simp only [List.map_cons, List.mapM_cons, bind_assoc, pure_bind, ih]
      rfl
  rw [snd_readableNames, ← hstyles]
  simp only [nameTable, bind_assoc, pure_bind]
  rfl

theorem mapM_readMember_of_refused (hcompress : o.compressClassNames = true)
    {ms : List (String × Json.Value)} (h : readAll ms = .error fault) {β : Type}
    (next : List (String × Sheet × ClassNames) → StoreM β) :
    (ms.mapM (readMember o file) >>= next)
      = ((listed o file (readBefore ms)).mapM compressed >>= fun _ => ofResult (.error fault)) := by
  induction ms generalizing next with
  | nil => cases h
  | cons m ms ih =>
    rw [List.mapM_cons, bind_assoc]
    rcases readAll_cons_error h with hm | ⟨sheet, hm, hrest⟩
    · have hmember : readMember o file m = ofResult (.error fault) := by
        unfold readMember readSheet
        rw [hm]
        rfl
      rw [hmember, readBefore_of_error hm]
      rfl
    · have hmember : readMember o file m
          = nameTable (o.forSheet file m.1).classPrefixes true sheet
            >>= fun names => pure (m.1, sheet, names) := by
        have hsheet : ofResult (.ok sheet) = (pure sheet : StoreM Sheet) := rfl
        simp only [readMember, readSheet, hm, hcompress, hsheet, bind_assoc, pure_bind]
      have hnames : (nameTable (o.forSheet file m.1).classPrefixes true sheet >>= fun _ => _) = _ :=
        nameTable_bind (m.1, sheet) ((listed o file (readBefore ms)).mapM compressed >>= fun _ =>
          (ofResult (.error fault) : StoreM β))
      have hlisted : listed o file ((m.1, sheet) :: readBefore ms)
          = (readableNames o file (m.1, sheet)).map Prod.snd ++ listed o file (readBefore ms) := rfl
      rw [readBefore_of_ok hm, hlisted, List.mapM_append]
      simp only [hmember, bind_assoc, pure_bind, ih hrest, hnames]

/-- On any store, a source that is refused names the classes of the sheets before the refused one,
and then fails. -/
theorem compileSource_eq_of_refused (e : Css.Engine) (hcompress : o.compressClassNames = true)
    {raw : Json.Value} (h : sheetsOf file raw = .error fault) :
    compileSource e o file raw = ((listed o file (sheetsBefore raw)).mapM compressed
      >>= fun _ => ofResult (.error fault)) := by
  cases raw with
  | object ms =>
    rw [compileSource_object]
    exact mapM_readMember_of_refused hcompress h _
  | _ =>
    cases h
    rfl

theorem compileSource_memory_of_refused (e : Css.Engine) (hcompress : o.compressClassNames = true)
    {raw : Json.Value} (h : sheetsOf file raw = .error fault) (t : Table) :
    compileSource e o file raw (.memory t)
      = (.error fault, .memory (assignAll t (listed o file (sheetsBefore raw)))) := by
  obtain ⟨tokens, htokens⟩ := ClassName.mapM_compressed t (listed o file (sheetsBefore raw))
  rw [compileSource_eq_of_refused e hcompress h, Cache.bind_of_ok htokens]
  rfl

/-! ## What is left -/

/-- A source of two sheets, of which the second one is refused. -/
def secondRefused : Json.Value := .object [("s", .object [("a", .object [])]), ("t", .null)]

theorem sheetsOf_secondRefused :
    sheetsOf "f" secondRefused = .error (.notAnObject "<stylesheet>" .null) := by cbv

theorem listed_secondRefused :
    listed { compressClassNames := true } "f" (sheetsBefore secondRefused) = ["f-s-a"] := by cbv

/-- The sheet before a refused one leaves a trace: its class takes the first token. -/
theorem refused_leaves_trace : ¬∀ (o : Options) (file : String) (raw : Json.Value) (fault : Fault)
    (t t' : Table), o.compressClassNames = true → sheetsOf file raw = .error fault →
    compileSource Css.engine o file raw (.memory t) = (.error fault, .memory t') → t' = t := by
  intro h
  have hleft := compileSource_memory_of_refused (o := { compressClassNames := true }) Css.engine rfl
    sheetsOf_secondRefused []
  rw [listed_secondRefused] at hleft
  have hsame : assignAll [] ["f-s-a"] = [] := h _ _ _ _ _ _ rfl sheetsOf_secondRefused hleft
  have htable : assignAll [] ["f-s-a"] = [("f-s-a", "_0")] := by cbv
  cases htable.symm.trans hsame

end NestedStyles
