import NestedStyles.Proofs.Cache.Lock
/-!
# What a folder holds

The epoch and the records that are read in a folder are a matter of its entries, whatever these are:
corrupt or foreign records, folders in the place of files, or no epoch at all.

* `Folder.epoch?` and `Folder.records?` are what the entries tell, if they tell anything;
* `yields_readEpoch` and `yields_readTable`: this is what a handle reads;
* `Folder.Same`: entries that tell the same, as those with the lock and without it do
  (`same_locked`, `same_unlocked`);
* `records?_append`: a record file at the end of a folder adds its record.
-/
namespace NestedStyles.Cache

open Storage (Cause Folder Host Node Path.join Site)

/-! ## What entries tell -/

namespace Folder

/-- The record in the file `name`, if it holds one. -/
def record? (es : Folder) (name : String) : Option Record :=
  (OrderedMap.get? es name).bind fun node => node.text?.bind Record.decode?

def recordNames (es : Folder) : List String := (OrderedMap.keys es).filter isRecordName

/-- The records in the record files, if every one of these holds a record. -/
def records? (es : Folder) : Option (List Record) := (recordNames es).mapM (record? es)

/-- The epoch, if it can be read. -/
def epoch? (es : Folder) : Option Nat :=
  match OrderedMap.get? es Disk.epochName with
  | none => some 0
  | some node => node.text?.bind Disk.parseEpoch?

/-- One of the record files holds a record of the key. -/
def HasRecord (es : Folder) (key : String) : Prop :=
  ∃ name r, isRecordName name = true ∧ record? es name = some r ∧ r.key = key

end Folder

section Options

variable {α β : Type} {f : α → Option β} {xs : List α} {ys : List β}

theorem mapM_option_congr {g : α → Option β} (h : ∀ x ∈ xs, f x = g x) :
    xs.mapM f = xs.mapM g := by
  change xs.mapM (id ∘ f) = xs.mapM (id ∘ g)
  rw [← List.mapM_map, ← List.mapM_map, List.map_congr_left h]

theorem mem_mapM_option (h : xs.mapM f = some ys) {y : β} :
    y ∈ ys ↔ ∃ x ∈ xs, f x = some y := by
  induction xs generalizing ys with
  | nil =>
    cases h
    simp
  | cons x xs ih =>
    rw [List.mapM_cons] at h
    obtain ⟨z, hz, h⟩ := Option.bind_eq_some_iff.1 h
    obtain ⟨zs, hzs, h⟩ := Option.bind_eq_some_iff.1 h
    cases h
    simp [ih hzs, hz, eq_comm]

theorem exists_of_mapM_option (h : xs.mapM f = some ys) {x : α} (hx : x ∈ xs) :
    ∃ y, f x = some y := by
  induction xs generalizing ys with
  | nil => cases hx
  | cons z xs ih =>
    rw [List.mapM_cons] at h
    obtain ⟨y, hy, h⟩ := Option.bind_eq_some_iff.1 h
    obtain ⟨zs, hzs, -⟩ := Option.bind_eq_some_iff.1 h
    rcases List.mem_cons.1 hx with rfl | hx
    · exact ⟨y, hy⟩
    · exact ih hzs hx

theorem length_mapM_option (h : xs.mapM f = some ys) : ys.length = xs.length := by
  induction xs generalizing ys with
  | nil =>
    cases h
    rfl
  | cons x xs ih =>
    rw [List.mapM_cons] at h
    obtain ⟨z, hz, h⟩ := Option.bind_eq_some_iff.1 h
    obtain ⟨zs, hzs, h⟩ := Option.bind_eq_some_iff.1 h
    cases h
    simp [ih hzs]

end Options

namespace Folder

/-- The records and the epoch are the same. -/
structure Same (es fs : Folder) : Prop where
  names : recordNames fs = recordNames es
  entry : ∀ name, isRecordName name = true ∨ name = Disk.epochName →
    OrderedMap.get? fs name = OrderedMap.get? es name

variable {es fs : Folder}

theorem Same.symm (h : Same es fs) : Same fs es :=
  ⟨h.names.symm, fun name hname => (h.entry name hname).symm⟩

theorem Same.epoch? (h : Same es fs) : epoch? fs = epoch? es := by
  rw [Folder.epoch?, h.entry _ (Or.inr rfl)]
  rfl

theorem Same.records? (h : Same es fs) : records? fs = records? es := by
  rw [Folder.records?, h.names]
  exact mapM_option_congr fun name hname => by
    rw [record?, h.entry name (Or.inl (List.mem_filter.1 hname).2)]
    rfl

theorem same_erase {name : String} (h : isRecordName name = false) (hne : name ≠ Disk.epochName)
    (es : Folder) : Same es (OrderedMap.erase es name) := by
  have hother : ∀ other, isRecordName other = true → other ≠ name := by
    rintro other ho rfl
    rw [h] at ho
    cases ho
  refine ⟨?_, fun other ho => OrderedMap.get?_erase_of_ne ?_ es⟩
  · rw [recordNames, OrderedMap.keys_erase, List.filter_filter]
    refine List.filter_congr fun other _ => ?_
    cases ho : isRecordName other with
    | false => rfl
    | true => simpa using hother other ho
  · rcases ho with ho | rfl
    · exact (hother other ho).symm
    · exact hne

theorem isRecordName_lockName : isRecordName Disk.lockName = false := rfl

theorem same_unlocked (es : Folder) : Same es (Disk.unlocked es) :=
  same_erase isRecordName_lockName (by decide) es

theorem same_locked (es : Folder) (host : Host) : Same es (Disk.locked es host) where
  names := by
    rw [← (same_unlocked es).names, recordNames, recordNames, Disk.locked, OrderedMap.keys_append,
      List.filter_append]
    simp [isRecordName_lockName]
  entry := by
    intro name hname
    refine Disk.get?_locked_of_ne host ?_
    rintro rfl
    rcases hname with hname | hname
    · cases hname
    · exact absurd hname (by decide)

/-- A record at the end of a folder is the last one that is read. -/
theorem records?_append {rs : List Record} {name : String} {r : Record} {node : Node}
    (hrs : records? es = some rs) (hname : isRecordName name = true)
    (hfree : name ∉ OrderedMap.keys es)
    (hr : node.text?.bind Record.decode? = some r) :
    records? (es ++ [(name, node)]) = some (rs ++ [r]) := by
  have hnames : recordNames (es ++ [(name, node)]) = recordNames es ++ [name] := by
    simp [recordNames, OrderedMap.keys_append, List.filter_append, hname]
  have hold : (recordNames es).mapM (record? (es ++ [(name, node)])) = some rs := by
    rw [← hrs, records?]
    refine mapM_option_congr fun other hother => ?_
    obtain ⟨inner, hinner⟩ := OrderedMap.exists_get?_of_mem_keys (List.mem_filter.1 hother).1
    rw [record?, record?, OrderedMap.get?_append_of_eq_some hinner, hinner]
  have hnew : record? (es ++ [(name, node)]) name = some r := by
    rw [record?, OrderedMap.get?_append_of_not_mem hfree, OrderedMap.get?_cons_self]
    exact hr
  rw [records?, hnames, List.mapM_append, hold]
  simp [hnew]

end Folder

/-! ## What a handle reads -/

namespace Disk

variable {α β : Type} {d : Disk} {es : Folder}

/-- The action leaves everything as it is, and gives this value, or fails if there is none. -/
def Yields (a : DiskM α) (d : Disk) : Option α → Prop
  | some x => a d = (.ok x, d)
  | none => ∃ fault, a d = (.error fault, d)

theorem Yields.eq_some {a : DiskM α} {x : Option α} {y : α} (h : Yields a d x)
    (ha : a d = (.ok y, d)) : x = some y := by
  cases x with
  | some z =>
    cases (show a d = (.ok z, d) from h).symm.trans ha
    rfl
  | none =>
    obtain ⟨fault, hfault⟩ := h
    cases hfault.symm.trans ha

theorem yields_of_orFailAt {a : Except Cause α} (name : String) :
    Yields (orFailAt name a) d a.toOption := by
  cases a with
  | ok x => rfl
  | error cause => exact ⟨_, rfl⟩

theorem Yields.bind {a : DiskM α} {f : α → DiskM β} {x : Option α} {g : α → Option β}
    (ha : Yields a d x) (hf : ∀ y, Yields (f y) d (g y)) : Yields (a >>= f) d (x.bind g) := by
  cases x with
  | some y =>
    have hy := hf y
    rw [Option.bind_some]
    cases hg : g y with
    | some z =>
      rw [hg] at hy
      exact (bind_of_ok ha).trans hy
    | none =>
      rw [hg] at hy
      exact hy.imp fun fault h => (bind_of_ok ha).trans h
  | none =>
    exact ha.imp fun fault h => bind_of_error h

theorem Yields.mapM {f : α → DiskM β} {g : α → Option β} (h : ∀ x, Yields (f x) d (g x))
    (xs : List α) : Yields (xs.mapM f) d (xs.mapM g) := by
  induction xs with
  | nil => rfl
  | cons x xs ih =>
    rw [List.mapM_cons, List.mapM_cons]
    exact (h x).bind fun y => ih.bind fun ys => rfl

theorem read_of_some (hs : d.site.entries = .ok es) {name : String} {node : Node}
    (h : OrderedMap.get? es name = some node) : d.site.read name = node.readText := by
  unfold Site.read
  rw [hs]
  simp only [bind, Except.bind, h]

theorem read_of_none (hs : d.site.entries = .ok es) {name : String}
    (h : OrderedMap.get? es name = none) : d.site.read name = .error .notFound := by
  unfold Site.read
  rw [hs]
  simp only [bind, Except.bind, h]

theorem toOption_read (hs : d.site.entries = .ok es) (name : String) :
    (d.site.read name).toOption
      = (OrderedMap.get? es name).bind fun node => node.text? := by
  unfold Site.read
  rw [hs]
  simp only [bind, Except.bind]
  cases OrderedMap.get? es name <;> rfl

theorem yields_readRecord (hs : d.site.entries = .ok es) (name : String) :
    Yields (readRecord name) d (Folder.record? es name) := by
  have htext : Folder.record? es name = (d.site.read name).toOption.bind Record.decode? := by
    rw [toOption_read hs, Option.bind_assoc]
    rfl
  rw [htext]
  unfold readRecord
  refine Yields.bind (x := (d.site.read name).toOption) (yields_of_orFailAt name) fun text => ?_
  cases Record.decode? text with
  | some r => rfl
  | none => exact ⟨_, rfl⟩

/-- A handle reads the epoch of its folder. -/
theorem yields_readEpoch (hs : d.site.entries = .ok es) :
    Yields readEpoch d (Folder.epoch? es) := by
  unfold Folder.epoch? readEpoch
  cases hget : OrderedMap.get? es epochName with
  | none =>
    rw [Yields, get_bind, read_of_none hs hget]
    rfl
  | some node =>
    have hread := read_of_some hs hget
    cases node with
    | folder entries => exact ⟨_, by rw [get_bind, hread]; rfl⟩
    | file contents modified =>
      cases contents with
      | bytes bs => exact ⟨_, by rw [get_bind, hread]; rfl⟩
      | text s =>
        simp only [Option.bind_some, Node.text?_file]
        cases hparse : parseEpoch? s with
        | some epoch =>
          rw [Yields, get_bind, hread]
          simp only [Node.readText, Storage.Contents.asText, hparse]
          rfl
        | none =>
          refine ⟨.cacheStorage (Path.join d.store.dir epochName) .invalidData, ?_⟩
          rw [get_bind, hread]
          simp only [Node.readText, Storage.Contents.asText, hparse]
          rfl

/-- A handle reads the table of its folder. -/
theorem yields_readTable (hs : d.site = .folder es) :
    Yields readTable d ((Folder.records? es).map tableOfRecords) := by
  have hnames : Yields recordNames d (some (Folder.recordNames es)) := by
    unfold recordNames
    rw [Yields, get_bind, hs]
    rfl
  have hrecords : ∀ names : List String,
      Yields (names.mapM readRecord) d (names.mapM (Folder.record? es)) :=
    Yields.mapM (yields_readRecord (by rw [hs]; rfl))
  have htable := hnames.bind fun names =>
    (hrecords names).bind (g := fun rs => some (tableOfRecords rs)) fun rs => rfl
  rw [Option.map_eq_bind]
  exact htable

/-- A handle reads the table of its folder, if there is a folder and every record file holds a
record. -/
theorem readTable_cases {s : Site} (hs : d.site = s.withEntries es) :
    (∃ fault, readTable d = (.error fault, d)
      ∧ (s.withEntries es = .folder es → Folder.records? es = none))
    ∨ ∃ rs, s.withEntries es = .folder es ∧ Folder.records? es = some rs
      ∧ readTable d = (.ok (tableOfRecords rs), d) := by
  rcases s.withEntries_cases es with hfolder | hhome
  · have hread := yields_readTable (hs.trans hfolder)
    cases hrs : Folder.records? es with
    | none =>
      rw [hrs] at hread
      exact Or.inl (hread.imp fun _ h => ⟨h, fun _ => rfl⟩)
    | some rs =>
      rw [hrs] at hread
      exact Or.inr ⟨rs, hfolder, rfl, hread⟩
  · have hnames : recordNames d = (.error (.cacheStorage d.store.dir .notFound), d) := by
      unfold recordNames
      rw [get_bind, hs, hhome]
      rfl
    exact Or.inl ⟨_, bind_of_error hnames, fun h => by rw [hhome] at h; cases h⟩

/-! ## What a handle writes -/

section Replacing

variable {s : Site} (hs : d.site = s.withEntries es) (name text : String)

include hs in
/-- A folder in the place of the draft is in the way. -/
theorem replaceFile_blocked {inner : Folder}
    (hdraft : OrderedMap.get? es (name ++ ".tmp") = some (.folder inner)) :
    ∃ fault, replaceFile name text d = (.error fault, d) := by
  have hwrite : d.site.write (name ++ ".tmp") text d.host.now = .error .isADirectory := by
    unfold Site.write
    rw [hs, Site.entries_withEntries]
    simp only [bind, Except.bind, hdraft]
  unfold replaceFile
  rw [get_bind, hwrite]
  exact ⟨_, rfl⟩

end Replacing

end Disk
end NestedStyles.Cache
