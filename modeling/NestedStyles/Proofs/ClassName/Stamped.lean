import NestedStyles.Proofs.Cache.Thinning
import NestedStyles.Proofs.ClassName.Naming
/-!
# Tokens that are kept have been handed out

The record of a class has the token of its number, and its file is named for the number. As long as
nobody else writes to the table, there are no other records, and no handle remembers any other
token, however many classes have been named and however often the table has been cleared: a number
that has outgrown its 64 bits is not read as another one, and a memo that has become stale holds
tokens that have once been handed out.

* `Issued` is a table with tokens of numbers only, `Stamped` a folder with such records only, and
  `StampedStore` a store that keeps one or the other;
* `keepsStamped_clear`, `stamped_fetch`: what a clear and a fetch keep, however they end;
* `StampedSession.perform`, `StampedSession.run`: what a call keeps, and what a run keeps;
* `token_of_use`: a class that is named after any calls has the token of some number.
-/
namespace NestedStyles.ClassName

open Cache (Confined Disk DiskM Folder.records? Folder.Same Folder.Thins Location Memo Record
  Session Store StoreM Table Workspace isRecordName tableOfRecords)
open Cache.Disk (appended locked newRecord unlocked)
open Storage (FileTree Folder Host Node Path.IsName Path.join Site)

/-! ## Records of classes -/

/-- Every token in the table is that of a number. -/
def Issued (t : Table) : Prop := ∀ key text, OrderedMap.get? t key = some text → ∃ n, text = token n

/-- A file named for the number of the record in it, which has the token of this number. -/
def IsStamped (name : String) (node : Node) : Prop :=
  ∃ r : Record, name = Record.fileName r.seq ∧ r.token = token r.seq ∧ node.text? = some r.encode

/-- Every record file is such a file. -/
def Stamped (es : Folder) : Prop := ∀ name node, isRecordName name = true →
  OrderedMap.get? es name = some node → IsStamped name node

theorem issued_nil : Issued [] := nofun

theorem stamped_nil : Stamped [] := nofun

section Folders

variable {t : Table} {es fs : Folder} {name : String}

theorem Issued.insert (h : Issued t) (key : String) (n : Nat) :
    Issued (OrderedMap.insert t key (token n)) := by
  intro key' text hget
  by_cases hkey : key = key'
  · subst hkey
    rw [OrderedMap.get?_insert_self] at hget
    exact ⟨n, (Option.some.inj hget).symm⟩
  · rw [OrderedMap.get?_insert_of_ne hkey] at hget
    exact h key' text hget

theorem IsStamped.token_of_record {node : Node} (h : IsStamped name node) {r : Record}
    (hr : node.text?.bind Record.decode? = some r) : r.token = token r.seq := by
  obtain ⟨stamped, -, htoken, htext⟩ := h
  rw [htext, Option.bind_some] at hr
  cases Record.eq_of_decode? hr
  exact htoken

/-- What is read from stamped records is issued. -/
theorem Stamped.issued (h : Stamped es) {rs : List Record} (hrs : Folder.records? es = some rs) :
    Issued (tableOfRecords rs) := by
  intro key text hget
  rw [Cache.get?_tableOfRecords] at hget
  obtain ⟨r, hlast, rfl⟩ := Option.map_eq_some_iff.1 hget
  have hmem : r ∈ rs :=
    (List.mem_filter.1 (List.mem_mergeSort.1 (List.mem_of_getLast? hlast))).1
  obtain ⟨name, hname, hrecord⟩ := (Cache.mem_mapM_option hrs).1 hmem
  obtain ⟨node, hnode, hr⟩ := Option.bind_eq_some_iff.1 hrecord
  exact ⟨r.seq, (h name node (List.mem_filter.1 hname).2 hnode).token_of_record hr⟩

/-- Only record files count. -/
theorem Stamped.of_entries (h : Stamped es) (hentry : ∀ name, isRecordName name = true →
    OrderedMap.get? fs name = none ∨ OrderedMap.get? fs name = OrderedMap.get? es name) :
    Stamped fs := by
  intro name node hname hnode
  rcases hentry name hname with hnone | hsame
  · cases hnone.symm.trans hnode
  · exact h name node hname (hsame.symm.trans hnode)

theorem Stamped.same (h : Stamped es) (hsame : Folder.Same es fs) : Stamped fs :=
  h.of_entries fun name hname => Or.inr (hsame.entry name (Or.inl hname))

theorem Stamped.thins {host : Host} (h : Stamped es)
    (hthins : Folder.Thins (locked es host) fs) : Stamped (unlocked fs) :=
  ((h.same (Cache.Folder.same_locked es host)).of_entries hthins.records).same
    (Cache.Folder.same_unlocked fs)

/-- The record of a new class is stamped. -/
theorem Stamped.appended (h : Stamped es) {r : Record} (hr : r.token = token r.seq)
    (hfree : Record.fileName r.seq ∉ OrderedMap.keys es) (now : Int) :
    Stamped (appended es r now) := by
  intro name node hname hnode
  by_cases hfile : name = Record.fileName r.seq
  · subst hfile
    rw [Disk.get?_appended_self hfree] at hnode
    cases hnode
    exact ⟨r, rfl, hr, rfl⟩
  · have hdraft : name ≠ Record.draftName r.seq := by
      rintro rfl
      rw [Record.draftName, Cache.isRecordName_draft] at hname
      cases hname
    rw [Disk.get?_appended_of_ne hfile hdraft] at hnode
    exact h name node hname hnode

end Folders

/-! ## Steps of a handle -/

/-- A handle that remembers issued tokens only, and its folder with stamped records only. -/
structure StampedDisk (d : Disk) : Prop where
  records : Stamped d.site.contents
  memo : Issued d.store.memo.tokens

section Steps

variable {α : Type} {d : Disk}

/-- However the action ends, records are stamped and remembered tokens are issued after it as
before it. -/
def KeepsStamped (a : DiskM α) : Prop := ∀ d, StampedDisk d → StampedDisk (a d).2

theorem keepsStamped_clear : KeepsStamped Disk.clear := by
  intro d hd
  refine ⟨?_, ?_⟩
  · rcases Disk.thins_clear d with hsame | ⟨host, fs, hthins, hleft⟩
    · rw [hsame]
      exact hd.records
    · rw [hleft]
      exact hd.records.thins hthins
  · rcases Disk.memo_clear d with hsame | hnil
    · rw [hsame]
      exact hd.memo
    · rw [hnil]
      exact issued_nil

theorem Issued.refreshed {m : Memo} (h : Issued m.tokens) (epoch : Nat) :
    Issued (m.refreshed epoch).tokens := by
  unfold Memo.refreshed
  split
  · exact h
  · exact issued_nil

/-- A fetch that gives a new class the token of its number answers with issued tokens only. -/
theorem stamped_fetch {key : String} {compute : List String → String}
    (hcompute : ∀ names, compute names = token names.length) (hd : StampedDisk d) :
    (∀ text, (Disk.fetch key compute d).1 = .ok text → ∃ n, text = token n)
      ∧ StampedDisk (Disk.fetch key compute d).2 := by
  have hfetched : Disk.Fetched key compute d (Disk.fetch key compute d).1
      (Disk.fetch key compute d).2 := Disk.fetched_fetch rfl
  generalize (Disk.fetch key compute d).1 = r, (Disk.fetch key compute d).2 = d' at hfetched
  cases hfetched with
  | unread epoch => exact ⟨nofun, hd⟩
  | @remembered epoch token epoch_eq known =>
    refine ⟨fun text htext => ?_, hd⟩
    cases htext
    exact hd.memo key _ known.2
  | refused epoch_eq unknown held =>
    exact ⟨nofun, (Site.contents_make d.site).symm ▸ hd.records, hd.memo.refreshed _⟩
  | @looked epoch es fs host r memo epoch_eq unknown opened looked =>
    have hes : Stamped (locked es host) :=
      (Site.contents_of_make opened.made ▸ hd.records : Stamped es).same
        (Cache.Folder.same_locked es host)
    have hleft {memo : Memo} {fs : Folder} (hmemo : Issued memo.tokens) (hfs : Stamped fs) :
        StampedDisk (d.leaving memo (unlocked fs) host) := by
      refine ⟨?_, hmemo⟩
      rw [Disk.leaving, Site.contents_withEntries]
      exact hfs.same (Cache.Folder.same_unlocked fs)
    cases looked with
    | unread tokens epoch' bad =>
      exact ⟨nofun, hleft (tokens ▸ hd.memo.refreshed epoch) hes⟩
    | @found epoch' rs text folder epoch_eq' records known =>
      have hissued := hes.issued records
      refine ⟨fun text' htext => ?_, hleft hissued hes⟩
      cases htext
      exact hissued key text known
    | unwritten folder epoch_eq' records unknown' =>
      exact ⟨nofun, hleft (hes.issued records) hes⟩
    | @added epoch' rs folder epoch_eq' records unknown' free draft =>
      have hnew : (newRecord key compute rs).token = token (newRecord key compute rs).seq :=
        hcompute _
      refine ⟨fun text htext => ?_, hleft ?_ (hes.appended hnew free _)⟩
      · cases htext
        exact ⟨_, hnew⟩
      · rw [hnew]
        exact (hes.issued records).insert key _

end Steps

/-! ## Actions on a store -/

/-- A table in memory with issued tokens only, or one on disk with stamped records only. -/
def StampedStore : Store → Prop
  | .memory t => Issued t
  | .disk d => StampedDisk d

/-- The action keeps to its table, and keeps it as it is in this regard. -/
structure Stamping {α : Type} (a : StoreM α) : Prop where
  memory : ∀ t, Issued t → ∃ r t', a (.memory t) = (r, .memory t') ∧ Issued t'
  confined : Confined a
  disk : ∀ d r d', a (.disk d) = (r, .disk d') → StampedDisk d → StampedDisk d'

theorem Issued.assign {t : Table} (h : Issued t) (name : String) : Issued (assign t name) := by
  unfold ClassName.assign
  cases hk : OrderedMap.get? t name with
  | some found => exact h
  | none =>
    simp only
    rw [← OrderedMap.insert_of_not_mem (OrderedMap.get?_eq_none_iff.1 hk)]
    exact h.insert name _

theorem Issued.tokenOf {t : Table} (h : Issued t) (name : String) :
    ∃ n, tokenOf t name = token n := by
  unfold ClassName.tokenOf
  cases hk : OrderedMap.get? t name with
  | some found => exact h name found hk
  | none => exact ⟨t.length, rfl⟩

theorem stamping_compressed (name : String) : Stamping (compressed name) where
  memory t ht := ⟨_, _, compressed_spec t name, ht.assign name⟩
  confined := (fetching_compressed name).confined
  disk d r d' hrun hd := by
    cases hrun
    exact (stamped_fetch (fun _ => rfl) hd).2

theorem stamping_clear : Stamping Store.clear where
  memory t ht := ⟨_, _, rfl, issued_nil⟩
  confined := Cache.confined_clear
  disk d r d' hrun hd := by
    cases hrun
    exact keepsStamped_clear d hd

/-- A class is named with the token of some number. -/
theorem token_of_compressed {store : Store} (h : StampedStore store) {name text : String}
    (htext : (compressed name store).1 = .ok text) : ∃ n, text = token n := by
  cases store with
  | memory t =>
    rw [compressed_spec] at htext
    cases htext
    exact h.tokenOf name
  | disk d => exact (stamped_fetch (fun _ => rfl) h).1 text htext

/-! ## Sessions -/

/-- What becomes of a site that can be made is found in the tree again. -/
theorem keeps_setSite {t : FileTree} {dir name : String} (hn : Path.IsName name)
    (h : FileTree.Keeps t (Path.join dir name)) {s : Site}
    (hs : Cache.Becomes (t.site (Path.join dir name)) s) :
    FileTree.Keeps (t.setSite (Path.join dir name) s) (Path.join dir name)
      ∧ (t.setSite (Path.join dir name) s).site (Path.join dir name) = s := by
  cases hs with
  | same =>
    rw [h.setSite_site]
    exact ⟨h, rfl⟩
  | @made es fs made keeps => exact h.setSite hn fs
  | failed failed =>
    obtain ⟨es, hes⟩ := h.exists_make
    cases hes.symm.trans failed

/-- The folder has stamped records only, and will be found again; and no handle on it remembers
another token than issued ones. -/
structure StampedFolder (s : Session) (dir name : String) : Prop where
  isName : Path.IsName name
  keeps : FileTree.Keeps s.workspace.tree (Path.join dir name)
  records : Stamped (s.workspace.tree.site (Path.join dir name)).contents
  handles : ∀ i, ∃ store, s.handles i = .disk store ∧ store.dir = Path.join dir name
    ∧ Issued store.memo.tokens

/-- The table at a location, with the handles on it. -/
def StampedSession (s : Session) : Location → Prop
  | .memory name => (∀ i, s.handles i = .memory name)
      ∧ Issued ((OrderedMap.get? s.workspace.tables name).getD [])
  | .disk dir name => StampedFolder s dir name

section Sessions

variable {α : Type} {s : Session} {loc : Location} {dir name : String}

theorem stamped_start {w : Workspace} (h : loc.Fresh w) :
    StampedSession (Session.start loc w) loc := by
  cases loc with
  | memory name =>
    have hnone : OrderedMap.get? w.tables name = none := h
    refine ⟨fun _ => rfl, ?_⟩
    change Issued ((OrderedMap.get? w.tables name).getD [])
    rw [hnone]
    exact issued_nil
  | disk dir name =>
    obtain ⟨hname, hfree⟩ := h
    refine ⟨hname, Or.inl hfree, ?_, fun i => ⟨_, rfl, rfl, issued_nil⟩⟩
    change Stamped (w.tree.site (Path.join dir name)).contents
    rw [hfree]
    exact stamped_nil

theorem StampedFolder.use {a : StoreM α} (ha : Stamping a) (h : StampedFolder s dir name)
    (i : Nat) : StampedFolder (s.use i a).2 dir name
      ∧ ∃ store, StampedStore store ∧ (s.use i a).1 = (a store).1 := by
  obtain ⟨store, hi, hdir, hmemo⟩ := h.handles i
  have hsite : ∀ es, s.workspace.tree.site store.dir ≠ .home es := by
    rw [hdir]
    exact FileTree.site_ne_home (Storage.Path.join_ne_empty h.isName dir)
  have hd : StampedDisk ⟨store, s.workspace.tree.site store.dir, s.workspace.host⟩ :=
    ⟨hdir ▸ h.records, hmemo⟩
  obtain ⟨r, d', hrun, hstays⟩ :=
    ha.confined ⟨store, s.workspace.tree.site store.dir, s.workspace.host⟩ hsite
  have hd' := ha.disk _ r d' hrun hd
  rw [Session.use_eq hi hrun]
  refine ⟨?_, .disk _, hd, by rw [hrun]⟩
  have hbecomes := hstays.becomes
  rw [hdir] at hbecomes ⊢
  obtain ⟨hkeeps, hfound⟩ := keeps_setSite h.isName h.keeps hbecomes
  have hrecords := hd'.records
  rw [← hfound] at hrecords
  refine ⟨h.isName, hkeeps, hrecords, fun j => ?_⟩
  by_cases hj : j = i
  · exact ⟨d'.store, if_pos hj, hstays.dir.trans hdir, hd'.memo⟩
  · obtain ⟨other, hother, hrest⟩ := h.handles j
    exact ⟨other, (if_neg hj).trans hother, hrest⟩

/-- An action through a handle keeps this, and has the result that it has from some such table. -/
theorem StampedSession.use {a : StoreM α} (ha : Stamping a) (h : StampedSession s loc) (i : Nat) :
    StampedSession (s.use i a).2 loc
      ∧ ∃ store, StampedStore store ∧ (s.use i a).1 = (a store).1 := by
  cases loc with
  | memory name =>
    obtain ⟨r, t', hrun, ht'⟩ := ha.memory _ h.2
    have hholds : s.Holds _ 0 (.memory name) := ⟨h.1, rfl⟩
    obtain ⟨s', huse, hhandles, htable⟩ := Session.use_memory hholds hrun
    rw [huse]
    exact ⟨⟨hhandles, htable ▸ ht'⟩, .memory _, h.2, by rw [hrun]⟩
  | disk dir name => exact StampedFolder.use ha h i

theorem StampedSession.setHandle (h : StampedSession s loc) (i lockTimeout staleAfter : Nat) :
    StampedSession (s.setHandle i (loc.handle lockTimeout staleAfter)) loc := by
  cases loc with
  | memory name =>
    refine ⟨fun j => ?_, h.2⟩
    by_cases hj : j = i
    · exact if_pos hj
    · exact (if_neg hj).trans (h.1 j)
  | disk dir name =>
    refine ⟨h.isName, h.keeps, h.records, fun j => ?_⟩
    by_cases hj : j = i
    · exact ⟨_, if_pos hj, rfl, issued_nil⟩
    · obtain ⟨other, hother, hrest⟩ := h.handles j
      exact ⟨other, (if_neg hj).trans hother, hrest⟩

theorem StampedSession.perform (h : StampedSession s loc) (c : Call) :
    StampedSession (s.perform loc c.request).2 loc := by
  cases c with
  | attach i lockTimeout staleAfter => exact h.setHandle i lockTimeout staleAfter
  | compress i name => exact (h.use (stamping_compressed name) i).1
  | clear i => exact (h.use stamping_clear i).1

/-- No call brings another record or another token. -/
theorem StampedSession.run (h : StampedSession s loc) (calls : List Call) :
    StampedSession (s.run loc (calls.map Call.request)).2 loc := by
  induction calls generalizing s with
  | nil => exact h
  | cons c calls ih => exact ih (h.perform c)

/-- A class that is named after any calls has the token of some number. -/
theorem token_of_use {w : Workspace} (hfresh : loc.Fresh w) (calls : List Call) {i : Nat}
    {name text : String}
    (htext : (((Session.start loc w).run loc (calls.map Call.request)).2.use i
      (compressed name)).1 = .ok text) : ∃ n, text = token n := by
  obtain ⟨-, store, hstore, huse⟩ :=
    ((stamped_start hfresh).run calls).use (stamping_compressed name) i
  exact token_of_compressed hstore (huse.symm.trans htext)

end Sessions

end NestedStyles.ClassName
