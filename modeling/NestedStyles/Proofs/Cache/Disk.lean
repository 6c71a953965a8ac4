import NestedStyles.Proofs.Cache.Ledger
import NestedStyles.Proofs.Text.Blank
/-!
# Operations on a folder that shows a ledger

Each operation of a handle, run on a folder that shows a ledger with a memo that is valid for it,
does to the ledger what the operation of the same name does to a table, and leaves the folder
without its lock and without drafts.

* `fetch_spec`: the token is the one that the table gives, and the folder shows the table
  afterwards; this holds also where the folder has not been made yet;
* `clear_spec`, `clear_absent`: the folder shows the empty table of the next epoch; one that has not
  been made stays so;
* `count_spec`: the number of keys.

A memo that is valid makes `fetch` answer at once; `fetch_of_memo` is this for any folder whose
epoch can be read.
-/
namespace NestedStyles.Cache

open Storage (Cause Folder Host Node Site)

/-! ## Folders that tell a ledger

While an operation runs, its lock stands in the folder as well; what is read does not depend on
that. -/

/-- What is read in a folder is what the ledger shows. -/
structure Folder.Tells (es : Folder) (l : Ledger) : Prop where
  names : (OrderedMap.keys es).filter isRecordName = OrderedMap.keys (Ledger.recordFiles l.table)
  uncleared : l.cleared = none → Disk.epochName ∉ OrderedMap.keys es
  cleared : ∀ e, l.cleared = some e → Folder.Has es Disk.epochName (decimal e)
  records : ∀ r ∈ recordsOf l.table, Folder.Has es (Record.fileName r.seq) r.encode

theorem Folder.Shows.keys_eq {es : Folder} {l : Ledger} (h : Folder.Shows es l) :
    OrderedMap.keys es = OrderedMap.keys l.files := by
  rw [← Storage.Folder.keys_texts, h]
  exact List.map_map

theorem Folder.Shows.lock_not_mem {es : Folder} {l : Ledger} (h : Folder.Shows es l) :
    Disk.lockName ∉ OrderedMap.keys es := by
  rw [h.keys_eq]
  exact lockName_not_mem_keys_files l

theorem Folder.Shows.draft_not_mem {es : Folder} {l : Ledger} (h : Folder.Shows es l)
    (file : String) :
    file ++ ".tmp" ∉ OrderedMap.keys es := by
  rw [h.keys_eq]
  exact draft_not_mem_keys_files l file

theorem Folder.Shows.has {es : Folder} {l : Ledger} (h : Folder.Shows es l) {name text : String}
    (hf : (name, text) ∈ l.files) : Folder.Has es name text := by
  apply Storage.Folder.has_of_mem_texts
  · rw [h.keys_eq]
    exact nodup_keys_files l
  · rw [h]
    exact List.mem_map.2 ⟨_, hf, rfl⟩

theorem Folder.Shows.tells {es : Folder} {l : Ledger} (h : Folder.Shows es l) :
    Folder.Tells es l where
  names := by rw [h.keys_eq, filter_isRecordName_files]
  uncleared := by
    intro hc
    rw [h.keys_eq, Ledger.files, Ledger.epochFile, hc]
    exact not_mem_keys_recordFiles fileName_ne_epochName
  cleared := by
    intro e he
    apply h.has
    rw [Ledger.files, Ledger.epochFile, he, List.mem_append]
    exact Or.inl (List.mem_singleton.2 rfl)
  records := by
    intro r hr
    apply h.has
    rw [Ledger.files, List.mem_append]
    exact Or.inr (List.mem_map.2 ⟨r, hr, rfl⟩)

/-- A lock at the end of a folder does not change what the folder tells. -/
theorem Folder.Tells.append_lock {es : Folder} {l : Ledger} (h : Folder.Tells es l) (node : Node) :
    Folder.Tells (es ++ [(Disk.lockName, node)]) l where
  names := by
    have hlock : isRecordName Disk.lockName = false := rfl
    rw [OrderedMap.keys_append, List.filter_append, h.names]
    simp [hlock]
  uncleared := by
    intro hc
    have hne : Disk.epochName ≠ Disk.lockName := by decide
    rw [OrderedMap.keys_append, List.mem_append, not_or]
    exact ⟨h.uncleared hc, by simpa using hne⟩
  cleared := fun e he => (h.cleared e he).append _
  records := fun r hr => (h.records r hr).append _

/-! ## Running steps -/

section Steps

variable {σ α β : Type} {a : ExceptT Fault (StateM σ) α} {f : α → ExceptT Fault (StateM σ) β}
  {s s' : σ} {fault : Fault}

theorem bind_of_ok {x : α} (h : a s = (.ok x, s')) : (a >>= f) s = f x s' := by
  change (match a s with | (r, s') => ExceptT.bindCont f r s') = _
  rw [h]
  rfl

theorem bind_of_error (h : a s = (.error fault, s')) : (a >>= f) s = (.error fault, s') := by
  change (match a s with | (r, s') => ExceptT.bindCont f r s') = _
  rw [h]
  rfl

/-- Two steps succeed if both of them do. -/
theorem ok_of_bind {y : β} (h : (a >>= f) s = (.ok y, s')) :
    ∃ x s₁, a s = (.ok x, s₁) ∧ f x s₁ = (.ok y, s') := by
  cases ha : a s with
  | mk r s₁ =>
    cases r with
    | error fault => cases (bind_of_error (f := f) ha).symm.trans h
    | ok x => exact ⟨x, s₁, rfl, (bind_of_ok ha).symm.trans h⟩

/-- Two steps fail if one of them does. -/
theorem error_of_bind (h : (a >>= f) s = (.error fault, s')) :
    a s = (.error fault, s') ∨ ∃ x s₁, a s = (.ok x, s₁) ∧ f x s₁ = (.error fault, s') := by
  cases ha : a s with
  | mk r s₁ =>
    cases r with
    | error fault' =>
      cases (bind_of_error (f := f) ha).symm.trans h
      exact Or.inl rfl
    | ok x => exact Or.inr ⟨x, s₁, rfl, (bind_of_ok ha).symm.trans h⟩

end Steps

namespace Disk

variable {α β : Type}

theorem get_bind (f : Disk → DiskM β) (d : Disk) : (get >>= f) d = f d d := rfl

theorem setMemo_bind (m : Memo) (f : Unit → DiskM β) (d : Disk) :
    (setMemo m >>= f) d = f () { d with store := { d.store with memo := m } } := rfl

theorem setSite_bind (s : Site) (f : Unit → DiskM β) (d : Disk) :
    (setSite s >>= f) d = f () { d with site := s } := rfl

theorem orFailAt_ok_bind (name : String) (a : α) (f : α → DiskM β) (d : Disk) :
    (orFailAt name (.ok a) >>= f) d = f a d := rfl

/-! ## Reading -/

theorem parseEpoch?_decimal {n : Nat} (h : n < UInt64.size) : parseEpoch? (decimal n) = some n := by
  have hd : ∀ c ∈ (decimal n).toList, c.isDigit = true := by
    rw [toList_decimal]
    exact fun c => Decimal.isDigit_of_mem_toDigits
  have hplus : ∀ rest, (decimal n).toList ≠ '+' :: rest := by
    intro rest hr
    have := hd '+' (by rw [hr]; exact List.mem_cons_self)
    exact absurd this (by decide)
  unfold parseEpoch?
  rw [Text.trim_of_forall fun c hc => Text.isBlank_of_isDigit (hd c hc)]
  -- the digits start with no plus sign, so they are taken as they stand
  simp only
  rw [toList_decimal, Decimal.natOfDigits_toDigits,
    if_pos ⟨Nat.toDigits_ne_nil, Decimal.all_isDigit_toDigits n, h⟩]

theorem readEpoch_spec {d : Disk} {es : Folder} {l : Ledger} (hs : d.site = .folder es)
    (ht : Folder.Tells es l) (hw : l.WF) : readEpoch d = (.ok l.epoch, d) := by
  unfold readEpoch
  rw [get_bind, hs]
  cases hc : l.cleared with
  | none =>
    rw [Site.read_of_not_mem (ht.uncleared hc), show l.epoch = 0 by rw [Ledger.epoch, hc]; rfl]
    rfl
  | some e =>
    have hepoch : l.epoch = e := by rw [Ledger.epoch, hc]; rfl
    rw [Site.read_of_has (ht.cleared e hc)]
    simp only [parseEpoch?_decimal (hepoch ▸ hw.epoch_lt), hepoch]
    rfl

theorem readRecord_spec {d : Disk} {es : Folder} (hs : d.site = .folder es) {r : Record}
    (h : Folder.Has es (Record.fileName r.seq) r.encode) (hr : r.seq < UInt64.size) :
    readRecord (Record.fileName r.seq) d = (.ok r, d) := by
  unfold readRecord
  rw [get_bind, hs, Site.read_of_has h, orFailAt_ok_bind, Record.decode?_encode r hr]
  rfl

theorem mapM_readRecord {d : Disk} {es : Folder} (hs : d.site = .folder es) :
    ∀ rs : List Record, (∀ r ∈ rs, Folder.Has es (Record.fileName r.seq) r.encode
      ∧ r.seq < UInt64.size) →
      (rs.map fun r => Record.fileName r.seq).mapM readRecord d = (.ok rs, d)
  | [], _ => rfl
  | r :: rs, h => by
    have hr := h r List.mem_cons_self
    rw [List.map_cons, List.mapM_cons, bind_of_ok (readRecord_spec hs hr.1 hr.2),
      bind_of_ok (mapM_readRecord hs rs fun r hr => h r (List.mem_cons_of_mem _ hr))]
    rfl

theorem recordNames_spec {d : Disk} {es : Folder} {l : Ledger} (hs : d.site = .folder es)
    (ht : Folder.Tells es l) :
    recordNames d = (.ok (OrderedMap.keys (Ledger.recordFiles l.table)), d) := by
  unfold recordNames
  rw [get_bind, hs, ← ht.names]
  rfl

theorem readTable_spec {d : Disk} {es : Folder} {l : Ledger} (hs : d.site = .folder es)
    (ht : Folder.Tells es l) (hw : l.WF) : readTable d = (.ok l.table, d) := by
  have hrecords : ∀ r ∈ recordsOf l.table,
      Folder.Has es (Record.fileName r.seq) r.encode ∧ r.seq < UInt64.size := fun r hr =>
    ⟨ht.records r hr, Nat.lt_of_lt_of_le (seq_lt_of_mem_recordsOf hr) hw.length_le⟩
  unfold readTable
  rw [bind_of_ok (recordNames_spec hs ht), keys_recordFiles,
    bind_of_ok (mapM_readRecord hs _ hrecords), tableOfRecords_recordsOf hw.nodup]
  rfl

/-! ## The lock -/

/-- The lock file that a process adds. -/
def lockNode (h : Host) : Node := .file (.text (LockInfo.encode ⟨h.pid, h.seconds⟩)) h.now

/-- The folder that a site becomes when its lock is taken: that of its files, or a new one. -/
def Opens (s : Site) (es : Folder) : Prop := s.make = (.folder es, .ok es)

/-- The moment until which a handle waits for the lock. -/
def deadline (d : Disk) : Nat := d.host.read.now + d.store.lockTimeout

/-- The host when the wait begins. -/
def started (d : Disk) : Host := (d.host.read.after d.store.lockTimeout).2

theorem after_read (d : Disk) :
    d.host.read.after d.store.lockTimeout = (d.deadline, d.started) := rfl

/-- Where there is no lock, one look is enough. -/
theorem takeLock_spec {d : Disk} {es : Folder} (hs : Opens d.site es)
    (hl : lockName ∉ OrderedMap.keys es) : ∃ host,
      takeLock d = (.ok (),
        { d with site := .folder (es ++ [(lockName, lockNode host)]), host }) := by
  refine ⟨d.started.read, ?_⟩
  have hpoll : pollLock d.store.staleAfter d.deadline es d.started
      = (.ok (addLock es d.started.read), d.started.read) := by
    rw [pollLock, OrderedMap.get?_eq_none_iff.2 hl]
  unfold takeLock
  rw [get_bind, hs]
  simp only [after_read, hpoll]
  rw [addLock, OrderedMap.insert_of_not_mem hl]
  rfl

theorem modify_apply (f : Disk → Disk) (d : Disk) :
    (modify f : StateM Disk Unit) d = ((), f d) := rfl

/-- The lock goes, whatever has been put behind it. -/
theorem dropLock_spec {d : Disk} {es fs : Folder} {h : Host}
    (hs : d.site = .folder (es ++ (lockName, lockNode h) :: fs))
    (he : lockName ∉ OrderedMap.keys es) (hf : lockName ∉ OrderedMap.keys fs) :
    dropLock d = ((), { d with site := .folder (es ++ fs) }) := by
  have hhas : Folder.Has (es ++ (lockName, lockNode h) :: fs) lockName
      (LockInfo.encode ⟨h.pid, h.seconds⟩) := by
    refine ⟨h.now, ?_⟩
    rw [OrderedMap.get?_append_of_not_mem he, OrderedMap.get?_cons_self]
    rfl
  have herase : OrderedMap.erase (es ++ (lockName, lockNode h) :: fs) lockName = es ++ fs := by
    rw [show es ++ (lockName, lockNode h) :: fs = es ++ [(lockName, lockNode h)] ++ fs by simp,
      OrderedMap.erase_append, OrderedMap.erase_append_singleton he, OrderedMap.erase_of_not_mem hf]
  have hremove := Site.removeFile_of_isFile hhas.isFile
  rw [← hs, herase] at hremove
  unfold dropLock
  rw [modify_apply, hremove]

/-- An action with the lock held, from what it does between taking the lock and giving it back. -/
theorem withLock_of {action : DiskM α} {d d₁ d₂ d₃ : Disk} {r : Except Fault α}
    (htake : takeLock d = (.ok (), d₁)) (hact : action d₁ = (r, d₂))
    (hdrop : dropLock d₂ = ((), d₃)) :
    withLock action d = (r, d₃) := by
  unfold withLock
  rw [bind_of_ok htake]
  change (match action d₁ with | (r, d) => (r, (dropLock d).2)) = _
  rw [hact]
  simp only [hdrop]

/-! ## Writing -/

/-- A file is replaced where no folder is in the way, and no draft of it is left. -/
theorem replaceFile_ok {d : Disk} {s : Site} {es : Folder} (hs : d.site = s.withEntries es)
    (name text : String)
    (hdraft : ∀ inner, OrderedMap.get? es (name ++ ".tmp") ≠ some (.folder inner))
    (hname : ∀ inner, OrderedMap.get? es name ≠ some (.folder inner))
    (hne : name ++ ".tmp" ≠ name) :
    replaceFile name text d = (.ok (), { d with
      site := s.withEntries (OrderedMap.insert (OrderedMap.erase es (name ++ ".tmp")) name
        (.file (.text text) d.host.now)) }) := by
  have hwrite : d.site.write (name ++ ".tmp") text d.host.now = .ok (s.withEntries
      (OrderedMap.insert es (name ++ ".tmp") (.file (.text text) d.host.now))) := by
    unfold Site.write
    rw [hs, Site.entries_withEntries]
    -- the side condition of the last case is `hdraft`
    simp only [bind, Except.bind, Site.withEntries_withEntries]
    rfl
  have hrename : (s.withEntries (OrderedMap.insert es (name ++ ".tmp")
      (.file (.text text) d.host.now))).rename (name ++ ".tmp") name
      = .ok (s.withEntries (OrderedMap.insert (OrderedMap.erase es (name ++ ".tmp")) name
        (.file (.text text) d.host.now))) := by
    unfold Site.rename
    rw [Site.entries_withEntries]
    simp only [bind, Except.bind, OrderedMap.get?_insert_self, OrderedMap.get?_insert_of_ne hne,
      OrderedMap.erase_insert, Site.withEntries_withEntries]
    rfl
  unfold replaceFile
  rw [get_bind, hwrite, orFailAt_ok_bind, setSite_bind, get_bind, hrename, orFailAt_ok_bind]
  rfl

/-- A new file comes to stand at the end of the folder. -/
theorem replaceFile_new {d : Disk} {es : Folder} {name : String} (hs : d.site = .folder es)
    (hd : name ++ ".tmp" ∉ OrderedMap.keys es) (hn : name ∉ OrderedMap.keys es)
    (hne : name ++ ".tmp" ≠ name) (text : String) :
    replaceFile name text d
      = (.ok (), { d with site := .folder (es ++ [(name, .file (.text text) d.host.now)]) }) := by
  have h := replaceFile_ok (s := .folder es) hs name text
    (by rw [OrderedMap.get?_eq_none_iff.2 hd]; nofun)
    (by rw [OrderedMap.get?_eq_none_iff.2 hn]; nofun) hne
  rwa [OrderedMap.erase_of_not_mem hd, OrderedMap.insert_of_not_mem hn] at h

/-- A file that is there is replaced where it stands. -/
theorem replaceFile_old {d : Disk} {es : Folder} {name old : String} (hs : d.site = .folder es)
    (hd : name ++ ".tmp" ∉ OrderedMap.keys es) (hn : Folder.Has es name old)
    (hne : name ++ ".tmp" ≠ name) (text : String) :
    replaceFile name text d = (.ok (),
      { d with site := .folder (OrderedMap.insert es name (.file (.text text) d.host.now)) }) := by
  obtain ⟨time, hn⟩ := hn
  have h := replaceFile_ok (s := .folder es) hs name text
    (by rw [OrderedMap.get?_eq_none_iff.2 hd]; nofun) (by rw [hn]; nofun) hne
  rwa [OrderedMap.erase_of_not_mem hd] at h

/-- A record whose number is free becomes the last file of the folder. -/
theorem writeRecord_spec {d : Disk} {es : Folder} {r : Record} (hs : d.site = .folder es)
    (hd : Record.fileName r.seq ++ ".tmp" ∉ OrderedMap.keys es)
    (hn : Record.fileName r.seq ∉ OrderedMap.keys es) :
    writeRecord r d = (.ok (), { d with
      site := .folder (es ++ [(Record.fileName r.seq, .file (.text r.encode) d.host.now)]) }) := by
  have hfree : (Site.folder es).find? (Record.fileName r.seq) = none :=
    OrderedMap.get?_eq_none_iff.2 hn
  unfold writeRecord
  rw [get_bind, hs, hfree]
  exact replaceFile_new hs hd hn (draft_ne_fileName _ _) r.encode

/-! ## Operations -/

/-- What an operation leaves to the next one: the handle with some memo, and a site that shows the
ledger `l`. A site that is not a folder has not been touched. -/
structure Leaves (d d' : Disk) (l : Ledger) : Prop where
  store : d'.store = { d.store with memo := d'.store.memo }
  site : d'.site = d.site ∨ ∃ es, d'.site = .folder es
  shows : Site.Shows d'.site l
  memo : d'.store.memo.Valid l

theorem Opens.of_shows {s : Site} {l : Ledger} (h : Site.Shows s l) :
    ∃ es, Opens s es ∧ Folder.Shows es l := by
  rcases h.cases with ⟨es, rfl, hes⟩ | ⟨⟨tried, rfl⟩, rfl⟩
  · exact ⟨es, rfl, hes⟩
  · exact ⟨[], rfl, rfl⟩

theorem takeLock_of_shows {d : Disk} {l : Ledger} (hs : Site.Shows d.site l) : ∃ es host,
    Folder.Shows es l ∧ lockName ∉ OrderedMap.keys es
      ∧ takeLock d = (.ok (),
        { d with site := .folder (es ++ [(lockName, lockNode host)]), host }) := by
  obtain ⟨es, hopens, hes⟩ := Opens.of_shows hs
  obtain ⟨host, htake⟩ := takeLock_spec hopens hes.lock_not_mem
  exact ⟨es, host, hes, hes.lock_not_mem, htake⟩

theorem readEpoch_of_shows {d : Disk} {l : Ledger} (hs : Site.Shows d.site l) (hw : l.WF) :
    readEpoch d = (.ok l.epoch, d) := by
  rcases hs.cases with ⟨es, hsite, hes⟩ | ⟨⟨tried, hsite⟩, rfl⟩
  · exact readEpoch_spec hsite hes.tells hw
  · unfold readEpoch
    rw [get_bind, hsite]
    rfl

/-- A record behind the records of a ledger is the next record of its table. -/
theorem shows_append_record {es : Folder} {l : Ledger} (h : Folder.Shows es l) (key token : String)
    (now : Int) :
    Folder.Shows (es ++ [(Record.fileName l.table.length,
        .file (.text (Record.mk key token l.table.length).encode) now)])
      (l.withTable (l.table ++ [(key, token)])) := by
  unfold Folder.Shows at h ⊢
  rw [Storage.Folder.texts_append, h, Ledger.files, Ledger.files, Ledger.table_withTable,
    recordFiles_append, ← List.append_assoc]
  simp only [List.map_append]
  rfl

/-- With the lock at the end of a folder that shows `l`, the table is read and the record of a new
key put behind it. -/
theorem fetchLocked_spec {d : Disk} {es : Folder} {l : Ledger} {lock : Node}
    (hsite : d.site = .folder (es ++ [(lockName, lock)])) (hs : Folder.Shows es l) (hw : l.WF)
    (key : String) (compute : List String → String) : ∃ fs,
      fetchLocked key compute d = (.ok (l.table.fetch key compute).1, { d with
        store := { d.store with memo := ⟨l.epoch, (l.table.fetch key compute).2⟩ }
        site := .folder (es ++ (lockName, lock) :: fs) })
      ∧ lockName ∉ OrderedMap.keys fs
      ∧ Folder.Shows (es ++ fs) (l.withTable (l.table.fetch key compute).2) := by
  have ht : Folder.Tells (es ++ [(lockName, lock)]) l := hs.tells.append_lock lock
  have hread : ∀ store, readTable { d with store } = (.ok l.table, { d with store }) := fun store =>
    readTable_spec (d := { d with store }) hsite ht hw
  unfold fetchLocked
  rw [bind_of_ok (readEpoch_spec hsite ht hw), get_bind, setMemo_bind, bind_of_ok (hread _),
    setMemo_bind]
  cases hk : OrderedMap.get? l.table key with
  | some token =>
    rw [Table.fetch_of_get?_eq_some hk]
    refine ⟨[], ?_, List.not_mem_nil, ?_⟩
    · rw [← hsite]
      rfl
    · rwa [List.append_nil]
  | none =>
    have hkey : key ∉ OrderedMap.keys l.table := OrderedMap.get?_eq_none_iff.1 hk
    rw [Table.fetch_of_not_mem hkey]
    have hlen : (OrderedMap.keys l.table).length = l.table.length := List.length_map _
    have hdraft : Record.fileName l.table.length ++ ".tmp"
        ∉ OrderedMap.keys (es ++ [(lockName, lock)]) := by
      rw [OrderedMap.keys_append, List.mem_append, not_or, hs.keys_eq]
      exact ⟨draft_not_mem_keys_files l _, by simpa using draft_ne_lockName _⟩
    have hfree : Record.fileName l.table.length ∉ OrderedMap.keys (es ++ [(lockName, lock)]) := by
      rw [OrderedMap.keys_append, List.mem_append, not_or, hs.keys_eq, Ledger.files,
        OrderedMap.keys_append, List.mem_append, not_or]
      exact ⟨⟨not_mem_keys_epochFile (fileName_ne_epochName _),
        fileName_not_mem_keys_recordFiles (Nat.le_refl _)⟩, by simpa using fileName_ne_lockName _⟩
    have hwrite := fun store => writeRecord_spec (d := { d with store })
      (r := ⟨key, compute (OrderedMap.keys l.table), l.table.length⟩) hsite hdraft hfree
    refine ⟨_, ?_, ?_, shows_append_record hs key _ d.host.now⟩
    · simp only [hlen]
      rw [bind_of_ok (hwrite _), setMemo_bind, OrderedMap.insert_of_not_mem hkey, List.append_assoc]
      rfl
    · simpa using fun h => fileName_ne_lockName _ h.symm

/-- A memo has the token of a key at an epoch. -/
def Knows (m : Memo) (epoch : Nat) (key token : String) : Prop :=
  m.epoch = epoch ∧ OrderedMap.get? m.tokens key = some token

/-- A memo of the folder's epoch that knows the key answers by itself. -/
theorem fetch_of_memo {d : Disk} {epoch : Nat} {key token : String}
    (he : readEpoch d = (.ok epoch, d)) (hk : Knows d.store.memo epoch key token)
    (compute : List String → String) :
    fetch key compute d = (.ok token, d) := by
  obtain ⟨hepoch, hk⟩ := hk
  have hsame : refreshMemo epoch d = (.ok (), d) := by
    unfold refreshMemo
    rw [get_bind, if_neg (not_not_intro hepoch)]
    rfl
  unfold fetch
  rw [bind_of_ok he, bind_of_ok hsame, get_bind]
  simp only [hk]
  rfl

theorem refreshMemo_spec {d : Disk} {l : Ledger} (hm : d.store.memo.Valid l) : ∃ memo : Memo,
    refreshMemo l.epoch d = (.ok (), { d with store := { d.store with memo } })
      ∧ memo.epoch = l.epoch ∧ memo.Valid l := by
  by_cases h : d.store.memo.epoch = l.epoch
  · refine ⟨d.store.memo, ?_, h, hm⟩
    unfold refreshMemo
    rw [get_bind, if_neg (not_not_intro h)]
    rfl
  · refine ⟨⟨l.epoch, []⟩, ?_, rfl, Nat.le_refl _, fun _ _ _ h => by cases h⟩
    unfold refreshMemo
    rw [get_bind, if_pos h]
    rfl

/-- A handle with a valid memo fetches from its folder what the table of the folder gives, and
remembers it. -/
theorem fetch_spec {d : Disk} {l : Ledger} (hs : Site.Shows d.site l) (hw : l.WF)
    (hm : d.store.memo.Valid l) (key : String) (compute : List String → String) :
    ∃ d', fetch key compute d = (.ok (l.table.fetch key compute).1, d')
      ∧ Leaves d d' (l.withTable (l.table.fetch key compute).2)
      ∧ Knows d'.store.memo l.epoch key (l.table.fetch key compute).1 := by
  obtain ⟨memo, hrefresh, hepoch, hvalid⟩ := refreshMemo_spec hm
  unfold fetch
  rw [bind_of_ok (readEpoch_of_shows hs hw), bind_of_ok hrefresh, get_bind]
  cases hk : OrderedMap.get? memo.tokens key with
  | some token =>
    -- the memo is of this epoch, so the table has the key as well
    rw [Table.fetch_of_get?_eq_some (hvalid.tokens hepoch key token hk)]
    exact ⟨_, rfl, ⟨rfl, Or.inl rfl, hs, hvalid⟩, hepoch, hk⟩
  | none =>
    obtain ⟨es, host, hshows, hlock, htake⟩ :=
      takeLock_of_shows (d := { d with store := { d.store with memo } }) hs
    obtain ⟨fs, hfetch, hfs, hafter⟩ :=
      fetchLocked_spec
        (d := ⟨{ d.store with memo }, .folder (es ++ [(lockName, lockNode host)]), host⟩)
        rfl hshows hw key compute
    refine ⟨_, withLock_of htake hfetch (dropLock_spec rfl hlock hfs),
      ⟨rfl, Or.inr ⟨_, rfl⟩, hafter, ?_⟩, ?_⟩
    · exact ⟨Nat.le_refl _, fun _ _ _ h => h⟩
    · exact ⟨rfl, l.table.get?_fetch key compute⟩

/-! ## What a fetch asks for -/

theorem withLock_congr {action action' : DiskM α} {d d' : Disk} (htake : takeLock d = (.ok (), d'))
    (h : action d' = action' d') : withLock action d = withLock action' d := by
  unfold withLock
  rw [bind_of_ok htake, bind_of_ok htake]
  change (match action d' with | (r, d) => (r, (dropLock d).2))
    = (match action' d' with | (r, d) => (r, (dropLock d).2))
  rw [h]

theorem fetchLocked_congr {d : Disk} {es : Folder} {l : Ledger} (hsite : d.site = .folder es)
    (ht : Folder.Tells es l) (hw : l.WF) {key : String} {c c' : List String → String}
    (h : (l.table.asked key).map c = (l.table.asked key).map c') :
    fetchLocked key c d = fetchLocked key c' d := by
  have hread : ∀ store, readTable { d with store } = (.ok l.table, { d with store }) := fun store =>
    readTable_spec (d := { d with store }) hsite ht hw
  unfold fetchLocked
  rw [bind_of_ok (readEpoch_spec hsite ht hw), bind_of_ok (readEpoch_spec hsite ht hw), get_bind,
    get_bind, setMemo_bind, setMemo_bind, bind_of_ok (hread _), bind_of_ok (hread _), setMemo_bind,
    setMemo_bind]
  unfold Table.asked at h
  cases hk : OrderedMap.get? l.table key with
  | some token => rfl
  | none =>
    rw [hk] at h
    have hc : c (OrderedMap.keys l.table) = c' (OrderedMap.keys l.table) := Option.some.inj h
    simp only [hc]

/-- A fetch from a folder asks for the same keys as one from the folder's table, if it asks at
all. -/
theorem fetch_congr {d : Disk} {l : Ledger} (hs : Site.Shows d.site l) (hw : l.WF)
    (hm : d.store.memo.Valid l) {key : String} {c c' : List String → String}
    (h : (l.table.asked key).map c = (l.table.asked key).map c') :
    fetch key c d = fetch key c' d := by
  obtain ⟨memo, hrefresh, -, -⟩ := refreshMemo_spec hm
  unfold fetch
  rw [bind_of_ok (readEpoch_of_shows hs hw), bind_of_ok (readEpoch_of_shows hs hw),
    bind_of_ok hrefresh, bind_of_ok hrefresh, get_bind, get_bind]
  cases hk : OrderedMap.get? memo.tokens key with
  | some token => rfl
  | none =>
    obtain ⟨es, host, hshows, -, htake⟩ :=
      takeLock_of_shows (d := { d with store := { d.store with memo } }) hs
    exact withLock_congr htake (fetchLocked_congr rfl (hshows.tells.append_lock _) hw h)

/-! ## Clearing and counting -/

theorem removeRecord_spec {d : Disk} {es : Folder} {name : String} (hs : d.site = .folder es)
    (h : Storage.Folder.IsFile es name) :
    removeRecord name d = (.ok (), { d with site := .folder (OrderedMap.erase es name) }) := by
  unfold removeRecord
  rw [get_bind, hs, Site.removeFile_of_isFile h, orFailAt_ok_bind]
  rfl

theorem forM_removeRecord (names : List String) {d : Disk} {es : Folder} (hs : d.site = .folder es)
    (hn : names.Nodup) (h : ∀ name ∈ names, Storage.Folder.IsFile es name) :
    names.forM removeRecord d
      = (.ok (), { d with site := .folder (es.filter fun e => e.1 ∉ names) }) := by
  induction names generalizing d es with
  | nil =>
    rw [show es.filter (fun e => e.1 ∉ []) = es by simp, ← hs]
    rfl
  | cons name names ih =>
    rw [List.nodup_cons] at hn
    have hname := h name List.mem_cons_self
    have hrest : ∀ n ∈ names, Storage.Folder.IsFile (OrderedMap.erase es name) n := by
      intro n hmem
      obtain ⟨contents, time, hfile⟩ := h n (List.mem_cons_of_mem _ hmem)
      refine ⟨contents, time, ?_⟩
      rwa [OrderedMap.get?_erase_of_ne (by rintro rfl; exact hn.1 hmem)]
    have hfilter : (OrderedMap.erase es name).filter (fun e => e.1 ∉ names)
        = es.filter fun e => e.1 ∉ name :: names := by
      rw [OrderedMap.erase, List.filter_filter]
      congr 1
      funext e
      simp [Bool.and_comm]
    change (removeRecord name >>= fun _ => names.forM removeRecord) d = _
    rw [bind_of_ok (removeRecord_spec hs hname), ih rfl hn.2 hrest, hfilter]

/-- With no record left, the epoch file is written in its place or behind the lock. -/
theorem writeEpoch_spec {d : Disk} {es : Folder} {l : Ledger} {h : Host}
    (hsite : d.site = .folder (es ++ [(lockName, lockNode h)]))
    (hs : Folder.Shows es (l.withTable [])) (epoch : Nat) : ∃ es' fs,
      writeEpoch epoch d
        = (.ok (), { d with site := .folder (es' ++ (lockName, lockNode h) :: fs) })
      ∧ lockName ∉ OrderedMap.keys es' ∧ lockName ∉ OrderedMap.keys fs
      ∧ Folder.Shows (es' ++ fs) { table := [], cleared := some epoch } := by
  have hdraft : epochName ++ ".tmp" ∉ OrderedMap.keys (es ++ [(lockName, lockNode h)]) := by
    rw [OrderedMap.keys_append, List.mem_append, not_or]
    exact ⟨hs.draft_not_mem _, by simpa using draft_ne_lockName _⟩
  have hne : epochName ++ ".tmp" ≠ epochName := draft_ne_epochName _
  have hlock : lockName ∉ [epochName] := by decide
  unfold writeEpoch
  cases hc : l.cleared with
  | none =>
    have hes : es = [] := by
      have := hs.keys_eq
      rw [Ledger.files, Ledger.epochFile, show (l.withTable []).cleared = none from hc] at this
      exact List.map_eq_nil_iff.1 this
    subst hes
    have hfree : epochName ∉ [lockName] := by decide
    exact ⟨[], [_], replaceFile_new hsite hdraft hfree hne _, List.not_mem_nil, hlock, rfl⟩
  | some e =>
    have hhas : Folder.Has es epochName (decimal e) := hs.tells.cleared e hc
    obtain ⟨node, rfl⟩ : ∃ node, es = [(epochName, node)] := by
      have hkeys := hs.keys_eq
      rw [Ledger.files, Ledger.epochFile, show (l.withTable []).cleared = some e from hc] at hkeys
      obtain ⟨⟨name, node⟩, hes, rfl⟩ := List.map_eq_singleton_iff.1 hkeys
      exact ⟨node, hes⟩
    exact ⟨[(epochName, _)], [], replaceFile_old hsite hdraft (hhas.append _) hne _, hlock,
      List.not_mem_nil, rfl⟩

/-- The entries of a folder that are no records of a ledger. -/
def unrecorded (es : Folder) (l : Ledger) : Folder :=
  es.filter fun e => e.1 ∉ OrderedMap.keys (Ledger.recordFiles l.table)

theorem unrecorded_append_lock (es : Folder) (l : Ledger) (lock : Node) :
    unrecorded (es ++ [(lockName, lock)]) l = unrecorded es l ++ [(lockName, lock)] := by
  have : lockName ∉ OrderedMap.keys (Ledger.recordFiles l.table) :=
    not_mem_keys_recordFiles fileName_ne_lockName
  simp [unrecorded, List.filter_append, this]

/-- Without its records a folder shows the empty table of the same epoch. -/
theorem shows_unrecorded {es : Folder} {l : Ledger} (h : Folder.Shows es l) :
    Folder.Shows (unrecorded es l) (l.withTable []) := by
  have hes : Storage.Folder.texts (unrecorded es l)
      = (Storage.Folder.texts es).filter fun e =>
          e.1 ∉ OrderedMap.keys (Ledger.recordFiles l.table) := by
    rw [Storage.Folder.texts, Storage.Folder.texts, unrecorded, List.filter_map]
    rfl
  have hrec : (Ledger.recordFiles l.table).filter
      (fun e => e.1 ∉ OrderedMap.keys (Ledger.recordFiles l.table)) = [] := by
    rw [List.filter_eq_nil_iff]
    intro e he
    simpa using OrderedMap.mem_keys_of_mem he
  have hepoch : l.epochFile.filter (fun e => e.1 ∉ OrderedMap.keys (Ledger.recordFiles l.table))
      = l.epochFile := by
    rw [List.filter_eq_self]
    intro e he
    obtain ⟨n, -, rfl⟩ := List.mem_map.1 he
    simpa using not_mem_keys_recordFiles fileName_ne_epochName
  unfold Folder.Shows
  rw [hes, h, List.filter_map]
  congr 1
  rw [show (l.withTable []).files = l.epochFile from List.append_nil _, Ledger.files]
  change List.filter (fun e : String × String => decide (e.1 ∉ _)) _ = _
  rw [List.filter_append, hrec, hepoch, List.append_nil]

/-- With the lock at the end of a folder that shows `l`, the records go and the epoch is counted
up. -/
theorem clearLocked_spec {d : Disk} {es : Folder} {l : Ledger} {h : Host}
    (hsite : d.site = .folder (es ++ [(lockName, lockNode h)])) (hs : Folder.Shows es l)
    (hw : l.WF) :
    ∃ es' fs, clearLocked d = (.ok (), { d with
        store := { d.store with memo := ⟨l.clear.epoch, []⟩ }
        site := .folder (es' ++ (lockName, lockNode h) :: fs) })
      ∧ lockName ∉ OrderedMap.keys es' ∧ lockName ∉ OrderedMap.keys fs
        ∧ Folder.Shows (es' ++ fs) l.clear := by
  have ht : Folder.Tells (es ++ [(lockName, lockNode h)]) l := hs.tells.append_lock _
  have hrecords : ∀ name ∈ OrderedMap.keys (Ledger.recordFiles l.table),
      Storage.Folder.IsFile (es ++ [(lockName, lockNode h)]) name := by
    intro name hname
    rw [keys_recordFiles, List.mem_map] at hname
    obtain ⟨r, hr, rfl⟩ := hname
    exact (ht.records r hr).isFile
  have hremove : (OrderedMap.keys (Ledger.recordFiles l.table)).forM removeRecord d
      = (.ok (), { d with site := .folder (unrecorded es l ++ [(lockName, lockNode h)]) }) := by
    rw [← unrecorded_append_lock]
    exact forM_removeRecord _ hsite (nodup_keys_recordFiles l.table) hrecords
  -- the epoch file and the lock stay, and the epoch is read from what stays
  have hkept : Folder.Shows (unrecorded es l) (l.withTable []) := shows_unrecorded hs
  have hepoch := readEpoch_spec
    (d := { d with site := .folder (unrecorded es l ++ [(lockName, lockNode h)]) }) rfl
    (hkept.tells.append_lock _) ⟨List.nodup_nil, Nat.zero_le _, hw.epoch_lt⟩
  obtain ⟨es', fs, hwrite, hes', hfs, hafter⟩ := writeEpoch_spec
    (d := { d with site := .folder (unrecorded es l ++ [(lockName, lockNode h)]) }) rfl hkept
    l.clear.epoch
  refine ⟨es', fs, ?_, hes', hfs, hafter⟩
  unfold clearLocked
  rw [bind_of_ok (recordNames_spec hsite ht), bind_of_ok hremove, bind_of_ok hepoch]
  change (writeEpoch l.clear.epoch >>= fun _ => setMemo ⟨l.clear.epoch, []⟩) _ = _
  rw [bind_of_ok hwrite]
  rfl

/-- A handle clears a folder, whatever its memo is. -/
theorem clear_spec {d : Disk} {es : Folder} {l : Ledger} (hsite : d.site = .folder es)
    (hs : Folder.Shows es l) (hw : l.WF) : ∃ d', clear d = (.ok (), d') ∧ Leaves d d' l.clear := by
  have hopens : Opens d.site es := by
    rw [hsite]
    rfl
  obtain ⟨host, htake⟩ := takeLock_spec hopens hs.lock_not_mem
  obtain ⟨es', fs, hclear, hes', hfs, hafter⟩ :=
    clearLocked_spec (d := ⟨d.store, .folder (es ++ [(lockName, lockNode host)]), host⟩) rfl hs hw
  have hrun : clear d
      = (.ok (), ⟨{ d.store with memo := ⟨l.clear.epoch, []⟩ }, .folder (es' ++ fs), host⟩) := by
    unfold clear
    rw [get_bind, hsite]
    exact withLock_of htake hclear (dropLock_spec rfl hes' hfs)
  exact ⟨_, hrun, rfl, Or.inr ⟨_, rfl⟩, hafter, Nat.le_refl _, fun _ _ _ h => by cases h⟩

/-- Clearing a folder that has not been made does not make it. -/
theorem clear_absent {d : Disk} {l : Ledger} (hs : Site.Shows d.site l)
    (habsent : d.site.isPresent = false) (hm : d.store.memo.Valid l) :
    ∃ d', clear d = (.ok (), d') ∧ Leaves d d' l := by
  unfold clear
  rw [get_bind, habsent]
  exact ⟨_, rfl, rfl, Or.inl rfl, hs, hm.epoch_le, fun _ _ _ h => by cases h⟩

/-- The number of record files is that of the table's keys. -/
theorem count_spec {d : Disk} {l : Ledger} (hs : Site.Shows d.site l) :
    count d = (.ok l.table.length, d) := by
  unfold count
  rw [get_bind]
  rcases hs.cases with ⟨es, hsite, hes⟩ | ⟨⟨tried, hsite⟩, rfl⟩
  · have hlen : (OrderedMap.keys (Ledger.recordFiles l.table)).length = l.table.length := by
      rw [keys_recordFiles, List.length_map, ← List.length_map Record.seq, map_seq_recordsOf,
        List.length_range]
    rw [hsite]
    change (recordNames >>= fun names => pure names.length) d = _
    rw [bind_of_ok (recordNames_spec hsite hes.tells), hlen]
    rfl
  · rw [hsite]
    rfl

end Disk
end NestedStyles.Cache
