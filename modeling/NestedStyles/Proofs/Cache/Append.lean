import NestedStyles.Proofs.Cache.Folder
/-!
# A fetch only appends

Whatever a folder holds and whatever keeps a fetch from ending well, it leaves every file of the
folder as it was. It adds one record file or none, in which case it replaces a draft of this file;
and it removes a lock that is stale.

* `Looked` and `Fetched` are all the ways in which looking a key up and fetching it can end, with
  the memo and the entries that are left (`looked_fetchLocked`, `fetched_fetch`);
* `Appends` is what may happen to the files of a folder;
* `fetch_appends`: a fetch does no more, and it adds a record if and only if it succeeds with a key
  that neither a valid memo nor a record has.
-/
namespace NestedStyles.Cache

open Storage (Cause Folder Host Node Site)

/-- The name under which a record's file is written before it is moved to its place. -/
def Record.draftName (seq : Nat) : String := Record.fileName seq ++ ".tmp"

/-- What a handle still remembers at an epoch. -/
def Memo.refreshed (m : Memo) (epoch : Nat) : Memo := if m.epoch = epoch then m else ⟨epoch, []⟩

theorem Memo.knows_refreshed (m : Memo) (epoch : Nat) (key token : String) :
    OrderedMap.get? (m.refreshed epoch).tokens key = some token ↔ Disk.Knows m epoch key token := by
  unfold refreshed Disk.Knows
  by_cases h : m.epoch = epoch <;> simp [h]

namespace Disk

variable {key : String} {compute : List String → String} {d : Disk}

theorem refreshMemo_eq (epoch : Nat) (d : Disk) : refreshMemo epoch d
    = (.ok (), { d with store := { d.store with memo := d.store.memo.refreshed epoch } }) := by
  unfold refreshMemo Memo.refreshed
  rw [get_bind]
  by_cases h : d.store.memo.epoch = epoch
  · rw [if_neg (not_not_intro h), if_pos h]
    rfl
  · rw [if_pos h, if_neg h]
    rfl

/-! ## With the lock held -/

/-- Entries with the file of a record at their end, and no draft of it. -/
def appended (es : Folder) (r : Record) (now : Int) : Folder :=
  OrderedMap.erase es (Record.draftName r.seq)
    ++ [(Record.fileName r.seq, .file (.text r.encode) now)]

theorem get?_appended_self {es : Folder} {r : Record}
    (h : Record.fileName r.seq ∉ OrderedMap.keys es) (now : Int) :
    OrderedMap.get? (appended es r now) (Record.fileName r.seq)
      = some (.file (.text r.encode) now) := by
  have hfree : Record.fileName r.seq
      ∉ OrderedMap.keys (OrderedMap.erase es (Record.draftName r.seq)) := by
    rw [OrderedMap.keys_erase, List.mem_filter]
    exact fun hm => h hm.1
  rw [appended, OrderedMap.get?_append_of_not_mem hfree, OrderedMap.get?_cons_self]

theorem get?_appended_draft (es : Folder) (r : Record) (now : Int) :
    OrderedMap.get? (appended es r now) (Record.draftName r.seq) = none := by
  have hne : Record.fileName r.seq ≠ Record.draftName r.seq := (draft_ne_fileName _ _).symm
  rw [appended, OrderedMap.get?_append_singleton_of_ne hne, OrderedMap.get?_erase_self]

theorem get?_appended_of_ne {r : Record} {name : String} (hfile : name ≠ Record.fileName r.seq)
    (hdraft : name ≠ Record.draftName r.seq) (es : Folder) (now : Int) :
    OrderedMap.get? (appended es r now) name = OrderedMap.get? es name := by
  rw [appended, OrderedMap.get?_append_singleton_of_ne hfile.symm,
    OrderedMap.get?_erase_of_ne hdraft.symm]

/-- A record is put at the end of the entries with the lock as it is at the end of those without. -/
theorem unlocked_appended (es : Folder) (r : Record) (now : Int) :
    unlocked (appended es r now) = appended (unlocked es) r now := by
  have hfile : lockName ∉ OrderedMap.keys
      [(Record.fileName r.seq, Node.file (.text r.encode) now)] := by
    simpa using fun h => fileName_ne_lockName r.seq h.symm
  rw [unlocked, appended, appended, unlocked, OrderedMap.erase_append,
    OrderedMap.erase_of_not_mem hfile, OrderedMap.erase_comm]

/-- The record that a key is given after others. -/
def newRecord (key : String) (compute : List String → String) (rs : List Record) : Record :=
  ⟨key, compute (OrderedMap.keys (tableOfRecords rs)),
    (OrderedMap.keys (tableOfRecords rs)).length⟩

/-- How looking a key up ends, with the memo and the entries that are left. -/
inductive Looked (key : String) (compute : List String → String) (s : Site) (es : Folder) (m : Memo)
    (now : Int) : Except Fault String → Memo → Folder → Prop
  /-- The epoch or a record cannot be read. -/
  | unread {fault : Fault} {memo : Memo} (tokens : memo.tokens = m.tokens)
      (epoch : memo.epoch = m.epoch ∨ Folder.epoch? es = some memo.epoch)
      (bad : s.withEntries es = .folder es →
        Folder.epoch? es = none ∨ Folder.records? es = none) :
      Looked key compute s es m now (.error fault) memo es
  /-- There is a record of the key. -/
  | found {epoch : Nat} {rs : List Record} {token : String} (folder : s.withEntries es = .folder es)
      (epoch_eq : Folder.epoch? es = some epoch) (records : Folder.records? es = some rs)
      (known : OrderedMap.get? (tableOfRecords rs) key = some token) :
      Looked key compute s es m now (.ok token) ⟨epoch, tableOfRecords rs⟩ es
  /-- The file for a new record cannot be written. -/
  | unwritten {fault : Fault} {epoch : Nat} {rs : List Record}
      (folder : s.withEntries es = .folder es) (epoch_eq : Folder.epoch? es = some epoch)
      (records : Folder.records? es = some rs)
      (unknown : OrderedMap.get? (tableOfRecords rs) key = none) :
      Looked key compute s es m now (.error fault) ⟨epoch, tableOfRecords rs⟩ es
  /-- A new record is written. -/
  | added {epoch : Nat} {rs : List Record} (folder : s.withEntries es = .folder es)
      (epoch_eq : Folder.epoch? es = some epoch) (records : Folder.records? es = some rs)
      (unknown : OrderedMap.get? (tableOfRecords rs) key = none)
      (free : Record.fileName (newRecord key compute rs).seq ∉ OrderedMap.keys es)
      (draft : ∀ inner, OrderedMap.get? es (Record.draftName (newRecord key compute rs).seq)
        ≠ some (.folder inner)) :
      Looked key compute s es m now (.ok (newRecord key compute rs).token)
        ⟨epoch, OrderedMap.insert (tableOfRecords rs) key (newRecord key compute rs).token⟩
        (appended es (newRecord key compute rs) now)

/-- A record is written if its place is free and no folder is in the way. -/
theorem writeRecord_cases {s : Site} {es : Folder} (hs : d.site = s.withEntries es) (r : Record) :
    (∃ fault, writeRecord r d = (.error fault, d))
    ∨ Record.fileName r.seq ∉ OrderedMap.keys es
      ∧ (∀ inner, OrderedMap.get? es (Record.draftName r.seq) ≠ some (.folder inner))
      ∧ writeRecord r d
        = (.ok (), { d with site := s.withEntries (appended es r d.host.now) }) := by
  have hfind : d.site.find? (Record.fileName r.seq)
      = OrderedMap.get? es (Record.fileName r.seq) := by
    unfold Site.find?
    rw [hs, Site.entries_withEntries]
  unfold writeRecord
  rw [get_bind, hfind]
  cases hname : OrderedMap.get? es (Record.fileName r.seq) with
  | some node => exact Or.inl ⟨_, rfl⟩
  | none =>
    have hfree := OrderedMap.get?_eq_none_iff.1 hname
    by_cases hdraft : ∃ inner, OrderedMap.get? es (Record.draftName r.seq) = some (.folder inner)
    · obtain ⟨inner, hinner⟩ := hdraft
      exact Or.inl (replaceFile_blocked hs _ r.encode hinner)
    · have hno := not_exists.1 hdraft
      refine Or.inr ⟨hfree, hno, ?_⟩
      have hwrite := replaceFile_ok hs _ r.encode hno
        (fun inner h => by rw [hname] at h; cases h) (draft_ne_fileName _ _)
      have hlast : Record.fileName r.seq
          ∉ OrderedMap.keys (OrderedMap.erase es (Record.draftName r.seq)) := by
        rw [OrderedMap.keys_erase, List.mem_filter]
        exact fun h => hfree h.1
      unfold appended
      rw [← OrderedMap.insert_of_not_mem hlast]
      exact hwrite

theorem looked_fetchLocked {s : Site} {es : Folder} (hs : d.site = s.withEntries es)
    {r : Except Fault String} {d' : Disk} (h : fetchLocked key compute d = (r, d')) :
    ∃ memo fs, Looked key compute s es d.store.memo d.host.now r memo fs
      ∧ d' = ⟨{ d.store with memo }, s.withEntries fs, d.host⟩ := by
  have hepoch : Yields readEpoch d (Folder.epoch? es) :=
    yields_readEpoch (by rw [hs, Site.entries_withEntries])
  unfold fetchLocked at h
  cases he : Folder.epoch? es with
  | none =>
    rw [he] at hepoch
    obtain ⟨fault, hfault⟩ := hepoch
    cases (bind_of_error hfault).symm.trans h
    exact ⟨_, _, .unread rfl (Or.inl rfl) fun _ => Or.inl he, by rw [← hs]⟩
  | some epoch =>
    rw [he] at hepoch
    rw [bind_of_ok hepoch, get_bind, setMemo_bind] at h
    rcases readTable_cases (d := ⟨{ d.store with memo := ⟨epoch, d.store.memo.tokens⟩ }, d.site,
      d.host⟩) hs with ⟨fault, hfault, hbad⟩ | ⟨rs, hfolder, hrs, htable⟩
    · cases (bind_of_error hfault).symm.trans h
      exact ⟨⟨epoch, d.store.memo.tokens⟩, es,
        .unread rfl (Or.inr he) fun hfolder => Or.inr (hbad hfolder), by rw [← hs]⟩
    · rw [bind_of_ok htable, setMemo_bind] at h
      cases hget : OrderedMap.get? (tableOfRecords rs) key with
      | some token =>
        simp only [hget] at h
        cases h
        exact ⟨_, _, .found hfolder he hrs hget, by rw [← hs]⟩
      | none =>
        simp only [hget] at h
        rcases writeRecord_cases (d := ⟨{ d.store with memo := ⟨epoch, tableOfRecords rs⟩ }, d.site,
          d.host⟩) hs (newRecord key compute rs) with ⟨fault, hfault⟩ | ⟨hfree, hdraft, hwrite⟩
        · cases (bind_of_error hfault).symm.trans h
          exact ⟨_, _, .unwritten hfolder he hrs hget, by rw [← hs]⟩
        · cases (bind_of_ok hwrite).symm.trans h
          exact ⟨_, _, .added hfolder he hrs hget hfree hdraft, rfl⟩

theorem Looked.get?_lockName {s : Site} {es fs : Folder} {m memo : Memo} {now : Int}
    {r : Except Fault String} (h : Looked key compute s es m now r memo fs) :
    OrderedMap.get? fs lockName = OrderedMap.get? es lockName := by
  cases h with
  | added folder epoch_eq records unknown free draft =>
    exact get?_appended_of_ne (fileName_ne_lockName _).symm (draft_ne_lockName _).symm es now
  | _ => rfl

/-! ## A whole fetch -/

/-- How a fetch ends, and what it leaves. -/
inductive Fetched (key : String) (compute : List String → String) (d : Disk) :
    Except Fault String → Disk → Prop
  /-- The epoch cannot be read. -/
  | unread {fault : Fault} (epoch : readEpoch d = (.error fault, d)) :
      Fetched key compute d (.error fault) d
  /-- The memo has the key. -/
  | remembered {epoch : Nat} {token : String} (epoch_eq : readEpoch d = (.ok epoch, d))
      (known : Knows d.store.memo epoch key token) : Fetched key compute d (.ok token) d
  /-- The lock cannot be had. -/
  | refused {epoch : Nat} {fault : Fault} {host : Host} (epoch_eq : readEpoch d = (.ok epoch, d))
      (unknown : ∀ token, ¬Knows d.store.memo epoch key token)
      (held : ∀ es, d.site.make.2 = .ok es → lockName ∈ OrderedMap.keys es) :
      Fetched key compute d (.error fault)
        ⟨{ d.store with memo := d.store.memo.refreshed epoch }, d.site.make.1, host⟩
  /-- The key is looked up with the lock held. -/
  | looked {epoch : Nat} {es fs : Folder} {host : Host} {r : Except Fault String} {memo : Memo}
      (epoch_eq : readEpoch d = (.ok epoch, d))
      (unknown : ∀ token, ¬Knows d.store.memo epoch key token) (opened : d.Opened es host)
      (looked : Looked key compute d.site.make.1 (locked es host) (d.store.memo.refreshed epoch)
        host.now r memo fs) :
      Fetched key compute d r (d.leaving memo (unlocked fs) host)

/-- An action with the lock held ends as the action does, or the lock cannot be had. -/
theorem withLock_cases {α : Type} {action : DiskM α} {r : Except Fault α} {d' : Disk}
    (h : withLock action d = (r, d')) :
    (∃ fault host, r = .error fault ∧ d' = ⟨d.store, d.site.make.1, host⟩
      ∧ ∀ es, d.site.make.2 = .ok es → lockName ∈ OrderedMap.keys es)
    ∨ ∃ es host d₂, d.Opened es host
      ∧ action (d.leaving d.store.memo (locked es host) host) = (r, d₂)
      ∧ d' = (dropLock d₂).2 := by
  have htake := takesLock_takeLock d
  generalize htaken : takeLock d = taken at htake
  obtain ⟨r₁, d₁⟩ := taken
  unfold withLock at h
  cases htake with
  | refused held =>
    cases (bind_of_error htaken).symm.trans h
    exact Or.inl ⟨_, _, rfl, rfl, held⟩
  | @taken es host opened =>
    rw [bind_of_ok htaken] at h
    change ((action _).1, (dropLock (action _).2).2) = _ at h
    cases h
    exact Or.inr ⟨es, host, _, opened, rfl, rfl⟩

theorem fetched_fetch {r : Except Fault String} {d' : Disk} (h : fetch key compute d = (r, d')) :
    Fetched key compute d r d' := by
  unfold fetch at h
  cases he : readEpoch d with
  | mk epoch d₀ =>
    obtain rfl : d₀ = d := by rw [← keeps_readEpoch d, he]
    cases epoch with
    | error fault =>
      cases (bind_of_error he).symm.trans h
      exact .unread he
    | ok epoch =>
      rw [bind_of_ok he, bind_of_ok (refreshMemo_eq epoch d₀), get_bind] at h
      simp only at h
      cases hget : OrderedMap.get? (d₀.store.memo.refreshed epoch).tokens key with
      | some token =>
        have hknown := (Memo.knows_refreshed _ _ _ _).1 hget
        have hself : d₀.store.memo.refreshed epoch = d₀.store.memo := if_pos hknown.1
        rw [hself] at hget
        simp only [hself, hget] at h
        cases h
        exact .remembered he hknown
      | none =>
        have hunknown : ∀ token, ¬Knows d₀.store.memo epoch key token := by
          intro token hk
          rw [← Memo.knows_refreshed, hget] at hk
          cases hk
        simp only [hget] at h
        rcases withLock_cases h with
          ⟨fault, host, rfl, rfl, held⟩ | ⟨es, host, d₂, opened, hact, rfl⟩
        · exact .refused he hunknown held
        · obtain ⟨memo, fs, hlooked, rfl⟩ := looked_fetchLocked rfl hact
          have hlock : OrderedMap.get? fs lockName = some (lockNode host) :=
            hlooked.get?_lockName.trans (get?_locked es host)
          rw [dropLock_of_locked rfl hlock]
          exact .looked he hunknown ⟨opened.made, opened.later, opened.stale⟩ hlooked

/-! ## Files -/

/-- What may happen to the files of a folder: a stale lock goes, and the file of a record is added,
in the place of a draft of it. -/
structure Appends (d d' : Disk) (added : Option Record) : Prop where
  others : ∀ name, name ≠ lockName →
    (∀ r ∈ added, name ≠ Record.fileName r.seq ∧ name ≠ Record.draftName r.seq) →
    OrderedMap.get? d'.site.contents name = OrderedMap.get? d.site.contents name
  lock : OrderedMap.get? d'.site.contents lockName = OrderedMap.get? d.site.contents lockName
    ∨ OrderedMap.get? d'.site.contents lockName = none
      ∧ ∀ lock, OrderedMap.get? d.site.contents lockName = some lock →
        GoesStale d.store.staleAfter d.host lock
  file : ∀ r ∈ added, OrderedMap.get? d.site.contents (Record.fileName r.seq) = none
    ∧ ∃ time, OrderedMap.get? d'.site.contents (Record.fileName r.seq)
      = some (.file (.text r.encode) time)
  draft : ∀ r ∈ added, OrderedMap.get? d'.site.contents (Record.draftName r.seq) = none
    ∧ ∀ inner, OrderedMap.get? d.site.contents (Record.draftName r.seq) ≠ some (.folder inner)

/-- The lock that a handle had is gone with what was there before. -/
theorem Opened.lock {es fs : Folder} {host : Host} (h : d.Opened es host) :
    OrderedMap.get? (unlocked fs) lockName = none
      ∧ ∀ lock, OrderedMap.get? d.site.contents lockName = some lock →
        GoesStale d.store.staleAfter d.host lock := by
  rw [Site.contents_of_make h.made]
  exact ⟨OrderedMap.get?_erase_self fs lockName, h.stale⟩

section Fetch

variable {es : Folder} {host : Host} {rs : List Record}

theorem Opened.records (h : d.Opened es host) (hrs : Folder.records? (locked es host) = some rs) :
    Folder.records? d.site.contents = some rs := by
  rw [Site.contents_of_make h.made, ← hrs]
  exact (Folder.same_locked es host).records?.symm

end Fetch

end Disk
end NestedStyles.Cache
