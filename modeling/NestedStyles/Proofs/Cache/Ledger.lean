import NestedStyles.Proofs.Cache.Record
import NestedStyles.Cache.Disk
/-!
# What a folder of records shows

A folder that only the operations of this library have changed holds one file for each key of a
table, in the order of the table, and an epoch file before them if it has ever been cleared.
`Ledger` is a table with an epoch, `Ledger.files` the files that say it, and `Site.Shows` the
relation between a site and a ledger; a folder that has not been made shows the empty ledger.

A memo is *valid* for a ledger if it is of no later epoch and, where it is of the same epoch, holds
no token that the ledger does not hold. A valid memo stays valid when the table grows, and when the
epoch is counted up without coming round (`Memo.Valid.grow`, `Memo.Valid.clear`).
-/
namespace NestedStyles.Storage

/-- The text of a node that is a file of text. -/
def Node.text? (n : Node) : Option String := n.readText.toOption

@[simp] theorem Node.text?_file (s : String) (time : Int) :
    (Node.file (.text s) time).text? = some s := rfl

theorem Node.eq_file_of_text? {n : Node} {s : String} (h : n.text? = some s) :
    ∃ time, n = .file (.text s) time := by
  cases n with
  | folder entries => cases h
  | file contents time =>
    cases contents with
    | bytes bs => cases h
    | text s' => cases h; exact ⟨time, rfl⟩

/-- The names in a folder with the texts of their files, in the order of the folder. -/
def Folder.texts (es : Folder) : OrderedMap String (Option String) :=
  es.map fun e => (e.1, e.2.text?)

@[simp] theorem Folder.texts_append (es fs : Folder) :
    Folder.texts (es ++ fs) = Folder.texts es ++ Folder.texts fs := List.map_append

@[simp] theorem Folder.keys_texts (es : Folder) :
    OrderedMap.keys (Folder.texts es) = OrderedMap.keys es := by
  simp [Folder.texts, OrderedMap.keys]

theorem Folder.get?_texts (es : Folder) (name : String) :
    OrderedMap.get? (Folder.texts es) name = (OrderedMap.get? es name).map Node.text? := by
  induction es with
  | nil => rfl
  | cons e es ih =>
    obtain ⟨n, node⟩ := e
    change OrderedMap.get? ((n, node.text?) :: Folder.texts es) name = _
    rw [OrderedMap.get?_cons, OrderedMap.get?_cons, ih]
    split <;> rfl

/-- A file with the given text stands under the name. -/
def Folder.Has (es : Folder) (name text : String) : Prop :=
  ∃ time, OrderedMap.get? es name = some (.file (.text text) time)

/-- A file stands under the name. -/
def Folder.IsFile (es : Folder) (name : String) : Prop :=
  ∃ contents time, OrderedMap.get? es name = some (.file contents time)

theorem Folder.Has.isFile {es : Folder} {name text : String} :
    Folder.Has es name text → Folder.IsFile es name
  | ⟨time, h⟩ => ⟨.text text, time, h⟩

theorem Folder.has_of_mem_texts {es : Folder} (hn : (OrderedMap.keys es).Nodup) {name text : String}
    (h : (name, some text) ∈ Folder.texts es) : Folder.Has es name text := by
  have hg : OrderedMap.get? (Folder.texts es) name = some (some text) :=
    OrderedMap.get?_eq_some_of_mem (by rwa [Folder.keys_texts]) h
  rw [Folder.get?_texts, Option.map_eq_some_iff] at hg
  obtain ⟨node, hnode, ht⟩ := hg
  obtain ⟨time, rfl⟩ := Node.eq_file_of_text? ht
  exact ⟨time, hnode⟩

theorem Folder.Has.append {es : Folder} {name text : String} (h : Folder.Has es name text)
    (fs : Folder) :
    Folder.Has (es ++ fs) name text := by
  obtain ⟨time, h⟩ := h
  exact ⟨time, OrderedMap.get?_append_of_eq_some h fs⟩

namespace Site

variable {es : Folder} {name : String}

theorem entries_withEntries (es : Folder) (s : Site) : (s.withEntries es).entries = .ok es := by
  cases s <;> rfl

theorem withEntries_withEntries (es fs : Folder) (s : Site) :
    (s.withEntries es).withEntries fs = s.withEntries fs := by
  cases s <;> rfl

theorem entries_bind {β : Type} (es : Folder) (f : Folder → Except Cause β) :
    ((folder es).entries >>= f) = f es := rfl

theorem read_of_not_mem (h : name ∉ OrderedMap.keys es) :
    (folder es).read name = .error .notFound := by
  unfold read
  rw [entries_bind, OrderedMap.get?_eq_none_iff.2 h]

theorem read_of_has {text : String} (h : Folder.Has es name text) :
    (folder es).read name = .ok text := by
  obtain ⟨time, h⟩ := h
  unfold read
  rw [entries_bind, h]
  rfl

theorem removeFile_of_isFile (h : Folder.IsFile es name) :
    (folder es).removeFile name = .ok (folder (OrderedMap.erase es name)) := by
  obtain ⟨contents, time, h⟩ := h
  unfold removeFile
  rw [entries_bind, h]
  rfl

end Site
end NestedStyles.Storage

namespace NestedStyles.Cache

open Storage (Folder Site)

/-! ## Names in a folder

The names that an operation uses end in different letters, so they never meet. -/

theorem getLast?_fileName (n : Nat) : (Record.fileName n).toList.getLast? = some 'n' := by
  rw [Record.fileName, String.toList_append, List.getLast?_append]
  rfl

theorem getLast?_draft (name : String) : (name ++ ".tmp").toList.getLast? = some 'p' := by
  rw [String.toList_append, List.getLast?_append]
  rfl

theorem fileName_ne_lockName (n : Nat) : Record.fileName n ≠ Disk.lockName := by
  intro h
  have := getLast?_fileName n
  rw [h] at this
  exact absurd this (by decide)

theorem fileName_ne_epochName (n : Nat) : Record.fileName n ≠ Disk.epochName := by
  intro h
  have := getLast?_fileName n
  rw [h] at this
  exact absurd this (by decide)

theorem draft_ne_fileName (name : String) (n : Nat) : name ++ ".tmp" ≠ Record.fileName n := by
  intro h
  have := getLast?_draft name
  rw [h, getLast?_fileName] at this
  exact absurd this (by decide)

theorem draft_ne_lockName (name : String) : name ++ ".tmp" ≠ Disk.lockName := by
  intro h
  have := getLast?_draft name
  rw [h] at this
  exact absurd this (by decide)

theorem draft_ne_epochName (name : String) : name ++ ".tmp" ≠ Disk.epochName := by
  intro h
  have := getLast?_draft name
  rw [h] at this
  exact absurd this (by decide)

/-! ## Ledgers -/

/-- A table and, if its folder has been cleared, the epoch in the epoch file. -/
structure Ledger where
  table : Table := []
  cleared : Option Nat := none

namespace Ledger

def epoch (l : Ledger) : Nat := l.cleared.getD 0

/-- The epoch file, if there is one. -/
def epochFile (l : Ledger) : OrderedMap String String :=
  l.cleared.toList.map fun e => (Disk.epochName, decimal e)

/-- The files of a table's records, in the order of the table. -/
def recordFiles (t : Table) : OrderedMap String String :=
  (recordsOf t).map fun r => (Record.fileName r.seq, r.encode)

/-- The files of a folder that shows the ledger, in the order of the folder. -/
def files (l : Ledger) : OrderedMap String String := l.epochFile ++ recordFiles l.table

def withTable (l : Ledger) (table : Table) : Ledger := { l with table }

/-- The ledger after its folder has been cleared: the epoch is a number of 64 bits. -/
def clear (l : Ledger) : Ledger := { table := [], cleared := some ((l.epoch + 1) % UInt64.size) }

/-- No key is repeated, and the numbers fit into 64 bits. -/
structure WF (l : Ledger) : Prop where
  nodup : (OrderedMap.keys l.table).Nodup
  length_le : l.table.length ≤ UInt64.size
  epoch_lt : l.epoch < UInt64.size

@[simp] theorem epoch_withTable (l : Ledger) (t : Table) : (l.withTable t).epoch = l.epoch := rfl

@[simp] theorem table_withTable (l : Ledger) (t : Table) : (l.withTable t).table = t := rfl

theorem wf_empty : WF {} := ⟨List.nodup_nil, Nat.zero_le _, by decide⟩

theorem wf_clear (l : Ledger) : l.clear.WF :=
  ⟨List.nodup_nil, Nat.zero_le _, Nat.mod_lt _ (by decide)⟩

theorem epoch_clear (l : Ledger) : l.clear.epoch = (l.epoch + 1) % UInt64.size := rfl

end Ledger

theorem recordFiles_append (t : Table) (key token : String) :
    Ledger.recordFiles (t ++ [(key, token)]) = Ledger.recordFiles t ++
      [(Record.fileName t.length, (Record.mk key token t.length).encode)] := by
  rw [Ledger.recordFiles, recordsOf_append, List.map_append]
  rfl

theorem keys_recordFiles (t : Table) :
    OrderedMap.keys (Ledger.recordFiles t) = (recordsOf t).map fun r => Record.fileName r.seq :=
  List.map_map

theorem not_mem_keys_recordFiles {t : Table} {name : String} (h : ∀ n, Record.fileName n ≠ name) :
    name ∉ OrderedMap.keys (Ledger.recordFiles t) := by
  rw [keys_recordFiles, List.mem_map]
  rintro ⟨r, -, hr⟩
  exact h r.seq hr

theorem fileName_not_mem_keys_recordFiles {t : Table} {n : Nat} (h : t.length ≤ n) :
    Record.fileName n ∉ OrderedMap.keys (Ledger.recordFiles t) := by
  rw [keys_recordFiles, List.mem_map]
  rintro ⟨r, hr, hn⟩
  have := seq_lt_of_mem_recordsOf hr
  have := Record.fileName_injective hn
  omega

theorem nodup_keys_recordFiles (t : Table) : (OrderedMap.keys (Ledger.recordFiles t)).Nodup := by
  have h : ((recordsOf t).map Record.seq).Nodup := by
    rw [map_seq_recordsOf]
    exact List.nodup_range
  rw [keys_recordFiles, List.nodup_iff_pairwise_ne, List.pairwise_map]
  exact (List.pairwise_map.1 h).imp fun hne heq => hne (Record.fileName_injective heq)

theorem not_mem_keys_epochFile {l : Ledger} {name : String} (h : name ≠ Disk.epochName) :
    name ∉ OrderedMap.keys l.epochFile := by
  cases hc : l.cleared with
  | none => simp [Ledger.epochFile, hc]
  | some e => simpa [Ledger.epochFile, hc] using h

theorem nodup_keys_files (l : Ledger) : (OrderedMap.keys l.files).Nodup := by
  rw [Ledger.files, OrderedMap.keys_append, List.nodup_append]
  refine ⟨?_, nodup_keys_recordFiles _, ?_⟩
  · cases hc : l.cleared with
    | none => simp [Ledger.epochFile, hc]
    | some e => simp [Ledger.epochFile, hc]
  · rintro a ha b hb rfl
    rw [keys_recordFiles, List.mem_map] at hb
    obtain ⟨r, -, rfl⟩ := hb
    exact not_mem_keys_epochFile (fileName_ne_epochName r.seq) ha

theorem not_mem_keys_files {l : Ledger} {name : String} (he : name ≠ Disk.epochName)
    (hr : ∀ n, Record.fileName n ≠ name) : name ∉ OrderedMap.keys l.files := by
  rw [Ledger.files, OrderedMap.keys_append, List.mem_append, not_or]
  exact ⟨not_mem_keys_epochFile he, not_mem_keys_recordFiles hr⟩

theorem lockName_not_mem_keys_files (l : Ledger) : Disk.lockName ∉ OrderedMap.keys l.files :=
  not_mem_keys_files (by decide) fileName_ne_lockName

theorem draft_not_mem_keys_files (l : Ledger) (name : String) :
    name ++ ".tmp" ∉ OrderedMap.keys l.files :=
  not_mem_keys_files (draft_ne_epochName name) fun n h => draft_ne_fileName name n h.symm

/-- The record files among a ledger's files are those of its table. -/
theorem filter_isRecordName_files (l : Ledger) :
    (OrderedMap.keys l.files).filter isRecordName
      = OrderedMap.keys (Ledger.recordFiles l.table) := by
  have he : (OrderedMap.keys l.epochFile).filter isRecordName = [] := by
    have hname : isRecordName Disk.epochName = false := by rfl
    cases hc : l.cleared with
    | none => simp [Ledger.epochFile, hc]
    | some e => simp [Ledger.epochFile, hc, hname]
  have hr : (OrderedMap.keys (Ledger.recordFiles l.table)).filter isRecordName
      = OrderedMap.keys (Ledger.recordFiles l.table) := by
    rw [List.filter_eq_self, keys_recordFiles]
    intro name hname
    obtain ⟨r, -, rfl⟩ := List.mem_map.1 hname
    exact isRecordName_fileName r.seq
  rw [Ledger.files, OrderedMap.keys_append, List.filter_append, he, hr, List.nil_append]

/-! ## Sites and memos -/

/-- A folder holds the files of a ledger, and nothing else. -/
def Folder.Shows (es : Folder) (l : Ledger) : Prop :=
  Folder.texts es = l.files.map fun f => (f.1, some f.2)

/-- A site shows a ledger: by the files of its folder, or by having none as yet. -/
def Site.Shows (s : Site) (l : Ledger) : Prop :=
  match s with
  | .folder es => Folder.Shows es l
  | .absent cause made _ => cause = .notFound ∧ made = .ok [] ∧ l = {}
  | _ => False

theorem Site.Shows.cases {s : Site} {l : Ledger} (h : Site.Shows s l) :
    (∃ es, s = .folder es ∧ Folder.Shows es l)
      ∨ (∃ tried, s = .absent .notFound (.ok []) tried) ∧ l = {} := by
  cases s with
  | folder es => exact Or.inl ⟨es, rfl, h⟩
  | home es => exact h.elim
  | occupied => exact h.elim
  | absent cause made tried =>
    obtain ⟨rfl, rfl, rfl⟩ := h
    exact Or.inr ⟨⟨tried, rfl⟩, rfl⟩

/-- What a memo holds of the present epoch, the ledger holds as well. -/
structure Memo.Valid (m : Memo) (l : Ledger) : Prop where
  epoch_le : m.epoch ≤ l.epoch
  tokens : m.epoch = l.epoch → ∀ key token, OrderedMap.get? m.tokens key = some token →
    OrderedMap.get? l.table key = some token

theorem Memo.valid_new (l : Ledger) : Memo.Valid {} l :=
  ⟨Nat.zero_le _, fun _ _ _ h => by cases h⟩

theorem Memo.Valid.grow {m : Memo} {l : Ledger} (h : m.Valid l) {t : Table}
    (ht : ∀ key token, OrderedMap.get? l.table key = some token →
      OrderedMap.get? t key = some token) :
    m.Valid (l.withTable t) :=
  ⟨h.epoch_le, fun he key token hk => ht key token (h.tokens he key token hk)⟩

theorem Memo.Valid.clear {m : Memo} {l : Ledger} (h : m.Valid l) (hl : l.epoch + 1 < UInt64.size) :
    m.Valid l.clear := by
  have he : l.clear.epoch = l.epoch + 1 := Nat.mod_eq_of_lt hl
  have hle := h.epoch_le
  exact ⟨by omega, fun heq => by omega⟩

/-! ## Tables that grow -/

theorem Table.fetch_of_get?_eq_some {t : Table} {key token : String}
    (h : OrderedMap.get? t key = some token) (compute : List String → String) :
    t.fetch key compute = (token, t) := by
  rw [Table.fetch, h]

/-- The keys that a fetch computes a token from, if it computes one. -/
def Table.asked (t : Table) (key : String) : Option (List String) :=
  match OrderedMap.get? t key with
  | some _ => none
  | none => some (OrderedMap.keys t)

/-- Whoever has fetched a key finds it. -/
theorem Table.get?_fetch (t : Table) (key : String) (compute : List String → String) :
    OrderedMap.get? (t.fetch key compute).2 key = some (t.fetch key compute).1 := by
  cases hk : OrderedMap.get? t key with
  | some token => rw [Table.fetch_of_get?_eq_some hk, hk]
  | none =>
    rw [Table.fetch, hk]
    exact OrderedMap.get?_insert_self t key _

theorem Table.fetch_of_not_mem {t : Table} {key : String} (h : key ∉ OrderedMap.keys t)
    (compute : List String → String) :
    t.fetch key compute
      = (compute (OrderedMap.keys t), t ++ [(key, compute (OrderedMap.keys t))]) := by
  rw [Table.fetch, OrderedMap.get?_eq_none_iff.2 h]
  exact congrArg _ (OrderedMap.insert_of_not_mem h _)

theorem Table.fetch_congr {t : Table} {key : String} {c c' : List String → String}
    (h : (t.asked key).map c = (t.asked key).map c') : t.fetch key c = t.fetch key c' := by
  unfold Table.asked at h
  cases hk : OrderedMap.get? t key with
  | some token => rw [fetch_of_get?_eq_some hk, fetch_of_get?_eq_some hk]
  | none =>
    rw [hk] at h
    have hc : c (OrderedMap.keys t) = c' (OrderedMap.keys t) := Option.some.inj h
    rw [fetch, fetch, hk]
    simp only [hc]

/-- The token tells what has been computed. -/
theorem Table.map_asked_of_fetch_eq {t : Table} {key : String} {c c' : List String → String}
    (h : (t.fetch key c).1 = (t.fetch key c').1) : (t.asked key).map c = (t.asked key).map c' := by
  unfold Table.asked
  cases hk : OrderedMap.get? t key with
  | some token => rfl
  | none =>
    rw [fetch, fetch, hk] at h
    exact congrArg some h

end NestedStyles.Cache
