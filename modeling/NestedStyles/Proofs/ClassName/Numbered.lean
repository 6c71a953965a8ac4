import NestedStyles.Proofs.Cache.Waiting
import NestedStyles.Proofs.ClassName.Naming
import NestedStyles.Proofs.Storage.Contents
/-!
# Records that are deleted

A class is recorded under the number of names so far. Where records have been deleted from outside
this number may be taken: there are fewer names than the last number says. Then no record is
written, so that whatever has been deleted, and whatever the handles still remember, no two records
have the same name or the same token.

* `Numbered`: every record file is named for the number of its record, which has the token of this
  number, and no two of them are for the same name;
* `numbered_fetch`, `numbered_clear`: this is kept by a fetch and by a clear, however they end, and
  `NumberedSession.after` by every call and by every file that is deleted;
* `fetch_taken`: a fetch that finds its number taken;
* `records_distinct`: what is so at every moment of a run.
-/
namespace NestedStyles

open Storage (Cause Contents FileTree Folder Host Path.join Site Within)

/-! ## A number that is taken -/

namespace Cache.Disk

variable {d : Disk} {es : Folder} {rs : List Record} {key : String}

/-- A fetch that goes to the folder, does not find the key there, and is left with a number that is
taken. -/
inductive Collides (d : Disk) (key : String) (seq : Nat) : Prop
  | mk {es : Folder} {rs : List Record} (folder : d.site = .folder es)
      (unlocked : ∀ inner, OrderedMap.get? es lockName ≠ some (.folder inner))
      (consults : Consults d key) (records : Folder.records? es = some rs)
      (unknown : key ∉ rs.map Record.key) (number : (rs.map Record.key).toFinset.card = seq)
      (taken : Record.fileName seq ∈ OrderedMap.keys es) : Collides d key seq

theorem fetchLocked_taken (hs : d.site = .folder es) {epoch seq : Nat}
    (he : Folder.epoch? es = some epoch) (hrs : Folder.records? es = some rs)
    (hkey : key ∉ rs.map Record.key) (hseq : (rs.map Record.key).toFinset.card = seq)
    (htaken : Record.fileName seq ∈ OrderedMap.keys es) (compute : List String → String) :
    fetchLocked key compute d
      = (.error (.cacheStorage (Path.join d.store.dir (Record.fileName seq)) .alreadyExists),
        { d with store := { d.store with memo := ⟨epoch, tableOfRecords rs⟩ } }) := by
  have hepoch : Yields readEpoch d (some epoch) := he ▸ yields_readEpoch (by rw [hs]; rfl)
  have htable : ∀ store, Yields readTable { d with store } (some (tableOfRecords rs)) := by
    intro store
    have h := yields_readTable (d := { d with store }) hs
    rwa [hrs] at h
  have hunknown : OrderedMap.get? (tableOfRecords rs) key = none := by
    rw [OrderedMap.get?_eq_none_iff, mem_keys_tableOfRecords]
    exact fun ⟨r, hr, hk⟩ => hkey (List.mem_map.2 ⟨r, hr, hk⟩)
  rw [← length_keys_tableOfRecords] at hseq
  subst hseq
  have hfound : (d.site.find? (Record.fileName (OrderedMap.keys (tableOfRecords rs)).length)).isSome
      = true := by
    rw [hs]
    exact OrderedMap.isSome_get?_iff.2 htaken
  unfold fetchLocked
  rw [bind_of_ok hepoch, get_bind, setMemo_bind, bind_of_ok (htable _), setMemo_bind]
  simp only [hunknown]
  refine bind_of_error ?_
  unfold writeRecord
  rw [get_bind]
  simp only [hfound, if_true]
  rfl

/-- Where its number is taken, a fetch fails and leaves the folder as it is. -/
theorem fetch_taken {seq : Nat} (h : d.Collides key seq) (hlock : lockName ∉ OrderedMap.keys es)
    (hs : d.site = .folder es) (compute : List String → String) : ∃ memo host,
      fetch key compute d = (.error (.cacheStorage (Path.join d.store.dir (Record.fileName seq))
        .alreadyExists), ⟨{ d.store with memo }, d.site, host⟩) := by
  cases h with
  | @mk es' rs folder unlocked consults records unknown number taken =>
    cases hs.symm.trans folder
    obtain ⟨epoch, hepoch, hunknown⟩ := consults
    have he : Folder.epoch? es = some epoch :=
      (yields_readEpoch (by rw [hs]; rfl)).eq_some hepoch
    rw [fetch_of_unknown hepoch hunknown]
    generalize d.store.memo.refreshed epoch = memo
    have hopens : Opens d.site es := by rw [hs]; rfl
    obtain ⟨host, htake⟩ :=
      takeLock_spec (d := { d with store := { d.store with memo } }) hopens hlock
    have hlocked : es ++ [(lockName, lockNode host)] = locked es host := by
      rw [locked, unlocked_of_not_mem hlock]
    have hsame := Folder.same_locked es host
    have htaken : Record.fileName seq ∈ OrderedMap.keys (es ++ [(lockName, lockNode host)]) := by
      rw [OrderedMap.keys_append]
      exact List.mem_append_left _ taken
    rw [← hlocked] at hsame
    have hlooked := fetchLocked_taken
      (d := ⟨{ d.store with memo }, .folder (es ++ [(lockName, lockNode host)]), host⟩) rfl
      (hsame.epoch?.trans he) (hsame.records?.trans records) unknown number htaken compute
    have hdrop := dropLock_spec
      (d := ⟨{ d.store with memo := ⟨epoch, tableOfRecords rs⟩ },
        .folder (es ++ [(lockName, lockNode host)]), host⟩) rfl hlock List.not_mem_nil
    refine ⟨⟨epoch, tableOfRecords rs⟩, host, ?_⟩
    rw [withLock_of htake hlooked hdrop, List.append_nil, hs]

end Cache.Disk

namespace ClassName

open Cache (Confined Disk Handle Location Record Session Store StoreM Workspace isRecordName
  tableOfRecords)
open Cache.Disk (appended lockName locked newRecord unlocked)

/-! ## Records of classes -/

/-- The file for a record's number holds the record. -/
def Holds (files : String → Option (Contents × Int)) (r : Record) : Prop :=
  ∃ time, files (Record.fileName r.seq) = some (.text r.encode, time)

/-- Every record file is named for the number of its record, which has the token of this number; no
two of them are for one name; and there is no lock. -/
structure Numbered (files : String → Option (Contents × Int)) : Prop where
  records : ∀ name contents time, isRecordName name = true → files name = some (contents, time) →
    ∃ r : Record, name = Record.fileName r.seq ∧ r.token = token r.seq ∧ contents = .text r.encode
  keys : ∀ r r', Holds files r → Holds files r' → r.key = r'.key → r = r'
  noLock : files lockName = none

section Files

variable {files files' : String → Option (Contents × Int)} {r r' : Record}

theorem Holds.of_records (h : ∀ name file, isRecordName name = true →
    files' name = some file → files name = some file) (hr : Holds files' r) : Holds files r :=
  hr.imp fun _ => h _ _ (Cache.isRecordName_fileName r.seq)

/-- Only record files and the lock count. -/
theorem Numbered.of_records (h : Numbered files) (hrecords : ∀ name file,
    isRecordName name = true → files' name = some file → files name = some file)
    (hlock : files' lockName = none) : Numbered files' where
  records name contents time hname hfile := h.records name contents time hname
    (hrecords name _ hname hfile)
  keys _ _ hr hr' := h.keys _ _ (hr.of_records hrecords) (hr'.of_records hrecords)
  noLock := hlock

theorem Numbered.within (h : Numbered files) (hw : Within files' files) : Numbered files' := by
  refine h.of_records (fun name file _ => hw name file) ?_
  cases hfile : files' lockName with
  | none => rfl
  | some file =>
    have hlock := h.noLock
    rw [hw _ _ hfile] at hlock
    cases hlock

theorem Numbered.token_of_holds (h : Numbered files) (hr : Holds files r) :
    r.token = token r.seq := by
  obtain ⟨time, hfile⟩ := hr
  obtain ⟨found, hname, htoken, htext⟩ :=
    h.records _ _ _ (Cache.isRecordName_fileName r.seq) hfile
  have hseq : r.seq = found.seq := Record.fileName_injective hname
  have htext : r.encode = found.encode := by injection htext
  rw [Record.eq_of_encode hseq htext]
  exact htoken

/-- One number has one record. -/
theorem Holds.eq_of_seq (hr : Holds files r) (hr' : Holds files r') (h : r.seq = r'.seq) :
    r = r' := by
  obtain ⟨time, hfile⟩ := hr
  obtain ⟨time', hfile'⟩ := hr'
  rw [h, hfile'] at hfile
  injection hfile with hfile
  injection hfile with htext
  injection htext with htext
  exact Record.eq_of_encode h htext.symm

/-- Two records have different names and different tokens. -/
theorem Numbered.distinct (h : Numbered files) (hr : Holds files r) (hr' : Holds files r')
    (hne : r ≠ r') : r.key ≠ r'.key ∧ r.token ≠ r'.token := by
  refine ⟨fun hkey => hne (h.keys r r' hr hr' hkey), fun htoken => hne (hr.eq_of_seq hr' ?_)⟩
  rw [h.token_of_holds hr, h.token_of_holds hr'] at htoken
  exact token_injective htoken

end Files

section Folders

variable {es fs : Folder} {host : Host} {rs : List Record} {r : Record}

/-- Entries with fewer record files. -/
theorem Numbered.thins (h : Numbered es.file?) (hthins : Cache.Folder.Thins (locked es host) fs) :
    Numbered (unlocked fs).file? := by
  refine h.of_records (fun name file hname hfile => ?_) ?_
  · have hlock : lockName ≠ name := by
      rintro rfl
      cases hname
    unfold Storage.Folder.file? at hfile ⊢
    rw [Disk.get?_unlocked hlock] at hfile
    rcases hthins.records name hname with hnone | hsame
    · rw [hnone] at hfile
      cases hfile
    · rwa [hsame, Disk.get?_locked_of_ne host hlock] at hfile
  · unfold Storage.Folder.file? unlocked
    rw [OrderedMap.get?_erase_self]
    rfl

theorem Numbered.unlocked_locked (h : Numbered es.file?) (host : Host) :
    Numbered (unlocked (locked es host)).file? := h.thins (.refl _)

/-- What is held is read, where everything can be read. -/
theorem mem_of_holds (hrs : Cache.Folder.records? es = some rs) (hr : Holds es.file? r) :
    r ∈ rs := by
  obtain ⟨time, hfile⟩ := hr
  have hget := Storage.Folder.file?_eq_some.1 hfile
  have hmem : Record.fileName r.seq ∈ Cache.Folder.recordNames es :=
    List.mem_filter.2 ⟨OrderedMap.mem_keys_of_mem (OrderedMap.mem_of_get?_eq_some hget),
      Cache.isRecordName_fileName r.seq⟩
  obtain ⟨found, hfound⟩ := Cache.exists_of_mapM_option hrs hmem
  have hdecode : Record.decode? r.encode = some found := by
    rw [← hfound, Cache.Folder.record?, hget, Option.bind_some, Storage.Node.text?_file,
      Option.bind_some]
  rw [← Record.eq_of_decode? hdecode]
  exact (Cache.mem_mapM_option hrs).2 ⟨_, hmem, hfound⟩

/-- The files when a record has been added are those of before and its own. -/
theorem file?_appended {name : String} {file : Contents × Int} {now : Int}
    (hfree : Record.fileName r.seq ∉ OrderedMap.keys es)
    (h : Storage.Folder.file? (appended es r now) name = some file) :
    es.file? name = some file ∨ name = Record.fileName r.seq ∧ file = (.text r.encode, now) := by
  unfold Storage.Folder.file? at h ⊢
  by_cases hname : name = Record.fileName r.seq
  · subst hname
    rw [Disk.get?_appended_self hfree] at h
    cases h
    exact Or.inr ⟨rfl, rfl⟩
  · by_cases hdraft : name = Record.draftName r.seq
    · subst hdraft
      rw [Disk.get?_appended_draft] at h
      cases h
    · rw [Disk.get?_appended_of_ne hname hdraft] at h
      exact Or.inl h

theorem holds_appended {r' : Record} {now : Int}
    (hfree : Record.fileName r.seq ∉ OrderedMap.keys es)
    (h : Holds (Storage.Folder.file? (appended es r now)) r') : Holds es.file? r' ∨ r' = r := by
  obtain ⟨time, hfile⟩ := h
  rcases file?_appended hfree hfile with hold | ⟨hname, hnew⟩
  · exact Or.inl ⟨time, hold⟩
  · injection hnew with htext
    injection htext with htext
    exact Or.inr (Record.eq_of_encode (Record.fileName_injective hname) htext)

/-- A further record has a number that was free and a name that was not there. -/
theorem Numbered.appended (h : Numbered es.file?) (hr : r.token = token r.seq)
    (hfree : Record.fileName r.seq ∉ OrderedMap.keys es)
    (hkey : ∀ r', Holds es.file? r' → r'.key ≠ r.key) (now : Int) :
    Numbered (Storage.Folder.file? (appended es r now)) where
  records name contents time hname hfile := by
    rcases file?_appended hfree hfile with hold | ⟨hnew, htext⟩
    · exact h.records name contents time hname hold
    · injection htext with htext
      exact ⟨r, hnew, hr, htext⟩
  keys r₁ r₂ h₁ h₂ hsame := by
    rcases holds_appended hfree h₁ with hold₁ | rfl <;>
      rcases holds_appended hfree h₂ with hold₂ | rfl
    · exact h.keys _ _ hold₁ hold₂ hsame
    · exact absurd hsame (hkey _ hold₁)
    · exact absurd hsame.symm (hkey _ hold₂)
    · rfl
  noLock := by
    have hlock := h.noLock
    unfold Storage.Folder.file? at hlock ⊢
    rwa [Disk.get?_appended_of_ne (Cache.fileName_ne_lockName _).symm
      (Cache.draft_ne_lockName _).symm]

end Folders

/-! ## Calls -/

section Steps

variable {d : Disk}

/-- However a fetch ends that gives a new class the token of its number, its folder is numbered. -/
theorem numbered_fetch {compute : List String → String}
    (hcompute : ∀ names, compute names = token names.length) (key : String)
    (h : Numbered d.site.contents.file?) :
    Numbered (Disk.fetch key compute d).2.site.contents.file? := by
  have hfetched : Disk.Fetched key compute d (Disk.fetch key compute d).1
      (Disk.fetch key compute d).2 := Disk.fetched_fetch rfl
  generalize (Disk.fetch key compute d).1 = r, (Disk.fetch key compute d).2 = d' at hfetched
  cases hfetched with
  | unread epoch => exact h
  | remembered epoch_eq known => exact h
  | refused epoch_eq unknown held => rwa [Site.contents_make]
  | @looked epoch es fs host r memo epoch_eq unknown opened looked =>
    rw [Site.contents_of_make opened.made] at h
    rw [Disk.leaving, Site.contents_withEntries]
    cases looked with
    | @added epoch' rs folder epoch_eq' records unknown' free draft =>
      rw [Disk.unlocked_appended]
      refine (h.unlocked_locked host).appended (hcompute _) ?_ (fun r' hr' hkey => ?_) _
      · rw [unlocked, OrderedMap.keys_erase, List.mem_filter]
        exact fun hmem => free hmem.1
      · have hread := (Cache.Folder.same_unlocked (locked es host)).records?.trans records
        have hmem := Cache.mem_keys_tableOfRecords.2 ⟨r', mem_of_holds hread hr', rfl⟩
        rw [hkey] at hmem
        exact OrderedMap.get?_eq_none_iff.1 unknown' hmem
    | _ => exact h.unlocked_locked host

theorem numbered_clear (h : Numbered d.site.contents.file?) :
    Numbered (Disk.clear d).2.site.contents.file? := by
  rcases Disk.thins_clear d with hsame | ⟨host, fs, hthins, hleft⟩
  · rwa [hsame]
  · rw [hleft]
    exact h.thins hthins

theorem dir_of_clear (d : Disk) : (Disk.clear d).2.store.dir = d.store.dir := by
  by_cases hhome : ∃ es, d.site = .home es
  · obtain ⟨es, hes⟩ := hhome
    unfold Disk.clear
    rw [Disk.get_bind, hes]
    rfl
  · exact (Disk.tethered_clear d (not_exists.1 hhome)).dir

end Steps

/-- The action keeps to its folder, and leaves it numbered. -/
structure Numbering {α : Type} (a : StoreM α) : Prop where
  disk : ∀ d, ∃ r d', a (.disk d) = (r, .disk d') ∧ d'.store.dir = d.store.dir
    ∧ (Numbered d.site.contents.file? → Numbered d'.site.contents.file?)
  confined : Confined a

theorem numbering_compressed (name : String) : Numbering (compressed name) where
  disk d := by
    refine ⟨_, _, rfl, ?_, numbered_fetch (fun _ => rfl) name⟩
    exact (Disk.fetched_fetch rfl).dir
  confined := (fetching_compressed name).confined

theorem numbering_clear : Numbering Store.clear where
  disk d := ⟨_, _, rfl, dir_of_clear d, numbered_clear⟩
  confined := Cache.confined_clear

/-! ## Runs -/

/-- What happens to a table: a call, or the deletion of a file from outside. -/
inductive Event where
  | call (c : Call)
  | delete (path : String)

/-- A session after an event. Deleting what is no file changes nothing. -/
def Event.after (loc : Location) (s : Session) : Event → Session
  | call c => (s.perform loc c.request).2
  | delete path =>
    match s.workspace.tree.removeFile path with
    | .ok tree => { s with workspace := { s.workspace with tree } }
    | .error _ => s

/-- The session after some events, which starts with handles that have read nothing yet. -/
def sessionAfter (loc : Location) (w : Workspace) (events : List Event) : Session :=
  events.foldl (Event.after loc) (Session.start loc w)

/-- The files in the folder of the table are numbered, and every handle is on this folder. -/
structure NumberedSession (s : Session) (dir name : String) : Prop where
  files : Numbered (s.workspace.tree.fileIn? (Path.join dir name))
  handles : ∀ i, ∃ store, s.handles i = .disk store ∧ store.dir = Path.join dir name

section Sessions

variable {s : Session} {dir name : String}

theorem numberedSession_start {w : Workspace}
    (h : ¬w.tree.HasFolder (w.tree.place (Path.join dir name))) :
    NumberedSession (Session.start (.disk dir name) w) dir name := by
  have hnone : w.tree.fileIn? (Path.join dir name) = fun _ => none :=
    funext (FileTree.fileIn?_of_not_hasFolder h)
  refine ⟨?_, fun i => ⟨_, rfl, rfl⟩⟩
  change Numbered (w.tree.fileIn? (Path.join dir name))
  rw [hnone]
  exact ⟨nofun, fun _ _ ⟨_, h⟩ => (by cases h), rfl⟩

theorem NumberedSession.use {α : Type} {a : StoreM α} (ha : Numbering a)
    (h : NumberedSession s dir name) (i : Nat) : NumberedSession (s.use i a).2 dir name := by
  obtain ⟨store, hi, hdir⟩ := h.handles i
  obtain ⟨r, d', hrun, hkept, hnumbered⟩ :=
    ha.disk ⟨store, s.workspace.tree.site store.dir, s.workspace.host⟩
  rw [Session.use_eq hi hrun]
  refine ⟨?_, fun j => ?_⟩
  · change Numbered ((s.workspace.tree.setSite store.dir d'.site).fileIn? (Path.join dir name))
    have hhome : ∀ es, d'.site = .home es → store.dir = "" := by
      intro es hes
      by_contra hne
      obtain ⟨r', d'', hrun', hconfined⟩ :=
        ha.confined ⟨store, s.workspace.tree.site store.dir, s.workspace.host⟩
          (FileTree.site_ne_home hne)
      cases hrun.symm.trans hrun'
      exact hconfined.becomes.ne_home (FileTree.site_ne_home hne) es hes
    rw [hdir] at hhome hnumbered ⊢
    rcases FileTree.within_setSite hhome with hbefore | hleft
    · exact h.files.within hbefore
    · exact (hnumbered (h.files.within (FileTree.within_site _ _))).within hleft
  · by_cases hj : j = i
    · exact ⟨d'.store, if_pos hj, hkept.trans hdir⟩
    · obtain ⟨other, hother, hrest⟩ := h.handles j
      exact ⟨other, (if_neg hj).trans hother, hrest⟩

/-- No event leaves two records of one name, or a record that is not numbered. -/
theorem NumberedSession.after (h : NumberedSession s dir name) (e : Event) :
    NumberedSession (e.after (.disk dir name) s) dir name := by
  cases e with
  | call c =>
    cases c with
    | attach i lockTimeout staleAfter =>
      refine ⟨h.files, fun j => ?_⟩
      by_cases hj : j = i
      · exact ⟨_, if_pos hj, rfl⟩
      · obtain ⟨other, hother, hrest⟩ := h.handles j
        exact ⟨other, (if_neg hj).trans hother, hrest⟩
    | compress i name => exact h.use (numbering_compressed name) i
    | clear i => exact h.use numbering_clear i
  | delete path =>
    cases hremove : s.workspace.tree.removeFile path with
    | error cause =>
      simp only [Event.after, hremove]
      exact h
    | ok tree =>
      simp only [Event.after, hremove]
      exact ⟨h.files.within ((FileTree.within_removeFile hremove).2 _), h.handles⟩

theorem numberedSession_after {w : Workspace}
    (h : ¬w.tree.HasFolder (w.tree.place (Path.join dir name))) (events : List Event) :
    NumberedSession (sessionAfter (.disk dir name) w events) dir name := by
  unfold sessionAfter
  have hstart := numberedSession_start h
  generalize Session.start (.disk dir name) w = s at hstart ⊢
  induction events generalizing s with
  | nil => exact hstart
  | cons e events ih => exact ih _ (hstart.after e)

/-- There is no lock in the folder, unless a folder is in its place. -/
theorem NumberedSession.lock_not_mem (h : NumberedSession s dir name) {es : Folder}
    (hfolder : s.workspace.tree.site (Path.join dir name) = .folder es)
    (hfree : ∀ inner, OrderedMap.get? es lockName ≠ some (.folder inner)) :
    lockName ∉ OrderedMap.keys es := by
  refine OrderedMap.get?_eq_none_iff.1 (Option.eq_none_iff_forall_ne_some.2 fun node hget => ?_)
  cases node with
  | folder inner => exact hfree inner hget
  | file contents time =>
    have hfile : (s.workspace.tree.site (Path.join dir name)).contents.file? lockName
        = some (contents, time) := by
      rw [hfolder]
      exact Storage.Folder.file?_eq_some.2 hget
    have hthere := FileTree.within_site _ _ _ _ hfile
    rw [h.files.noLock] at hthere
    cases hthere

/-- A call that is left with a number that is taken fails, and writes nothing. -/
theorem NumberedSession.compress_taken (h : NumberedSession s dir name) {i seq : Nat} {key : String}
    {store : Cache.DiskStore} (hi : s.handles i = .disk store)
    (hcollides : Disk.Collides ⟨store, s.workspace.tree.site store.dir, s.workspace.host⟩ key seq) :
    ∃ s', s.perform (.disk dir name) (Call.compress i key).request
        = (.error (.cacheStorage (Path.join (Path.join dir name) (Record.fileName seq))
            .alreadyExists), s')
      ∧ s'.workspace.tree = s.workspace.tree := by
  obtain ⟨store', hi', hdir⟩ := h.handles i
  cases hi.symm.trans hi'
  obtain ⟨es, hfolder, hfree, htaken⟩ : ∃ es, s.workspace.tree.site store.dir = .folder es
      ∧ (∀ inner, OrderedMap.get? es lockName ≠ some (.folder inner))
      ∧ Record.fileName seq ∈ OrderedMap.keys es := by
    cases hcollides with
    | mk folder unlocked consults records unknown number taken =>
      exact ⟨_, folder, unlocked, taken⟩
  have hlock : lockName ∉ OrderedMap.keys es := h.lock_not_mem (hdir ▸ hfolder) hfree
  obtain ⟨memo, host, hfetch⟩ := Disk.fetch_taken hcollides hlock hfolder
    fun names => token names.length
  have hrun : compressed key (.disk ⟨store, s.workspace.tree.site store.dir, s.workspace.host⟩)
      = (.error (.cacheStorage (Path.join store.dir (Record.fileName seq)) .alreadyExists),
        .disk ⟨{ store with memo }, s.workspace.tree.site store.dir, host⟩) := by
    change ((Disk.fetch key _ _).1, Store.disk (Disk.fetch key _ _).2) = _
    rw [hfetch]
  rw [perform_compress, Session.use_eq hi hrun, hdir]
  refine ⟨_, rfl, ?_⟩
  have hes : es ≠ [] := by
    rintro rfl
    cases htaken
  rw [hdir] at hfolder
  change s.workspace.tree.setSite (Path.join dir name)
    (s.workspace.tree.site (Path.join dir name)) = s.workspace.tree
  rw [hfolder]
  exact FileTree.setSite_folder_self hfolder hes

/-- Wherever a folder is made for class names, through however many handles it is used, and whatever
files are deleted from outside: at every moment each record file is named for the number of its
record and has the token of this number, any two records have different names and different tokens,
and a call that is left with a number that is taken fails and writes nothing. -/
theorem records_distinct {w : Workspace}
    (hnone : ¬w.tree.HasFolder (w.tree.place (Path.join dir name))) (events : List Event) :
    let s := sessionAfter (.disk dir name) w events
    let files := s.workspace.tree.fileIn? (Path.join dir name)
    (∀ file contents time, isRecordName file = true → files file = some (contents, time) →
      ∃ r : Record, file = Record.fileName r.seq ∧ r.token = token r.seq
        ∧ contents = .text r.encode)
    ∧ (∀ r r', Holds files r → Holds files r' → r ≠ r' → r.key ≠ r'.key ∧ r.token ≠ r'.token)
    ∧ ∀ i store key seq, s.handles i = .disk store →
      Disk.Collides ⟨store, s.workspace.tree.site store.dir, s.workspace.host⟩ key seq →
      ∃ s', s.perform (.disk dir name) (Call.compress i key).request
          = (.error (.cacheStorage (Path.join (Path.join dir name) (Record.fileName seq))
              .alreadyExists), s')
        ∧ s'.workspace.tree = s.workspace.tree := by
  intro s files
  have h := numberedSession_after hnone events
  exact ⟨h.files.records, fun _ _ hr hr' => h.files.distinct hr hr',
    fun _ _ _ _ hi hcollides => h.compress_taken hi hcollides⟩

end Sessions

/-- Two classes are named, and the record of the first one is deleted. -/
def firstDeleted : List Event :=
  [.call (.compress 0 "a"), .call (.compress 0 "b"), .delete "c/n/00000000.json"]

theorem records_distinct_firstDeleted :
    ¬Workspace.bare.tree.HasFolder (Workspace.bare.tree.place (Path.join "c" "n"))
    ∧ (∀ r r', Holds ((sessionAfter (.disk "c" "n") .bare firstDeleted).workspace.tree.fileIn?
          (Path.join "c" "n")) r →
        Holds ((sessionAfter (.disk "c" "n") .bare firstDeleted).workspace.tree.fileIn?
          (Path.join "c" "n")) r' →
        r ≠ r' → r.key ≠ r'.key ∧ r.token ≠ r'.token)
    ∧ ((sessionAfter (.disk "c" "n") .bare firstDeleted).perform (.disk "c" "n")
        (Call.compress 1 "c").request).1
      = .error (.cacheStorage "c/n/00000001.json" .alreadyExists) := by
  have hnone : ¬Workspace.bare.tree.HasFolder (Workspace.bare.tree.place (Path.join "c" "n")) := by
    rintro ⟨es, hes⟩
    cases hes
  exact ⟨hnone, (records_distinct hnone firstDeleted).2.1, by decide +kernel⟩

end ClassName
end NestedStyles
