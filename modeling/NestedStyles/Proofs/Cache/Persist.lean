import NestedStyles.Proofs.Cache.Append
import NestedStyles.Proofs.Storage.Site
/-!
# Tokens that stay

A folder serves the token of a key to whoever can read it: it has no lock, its epoch and its records
can be read, and they have the key. A fetch takes none of this away, however it ends; so whatever
has once been answered from a folder will be answered again.

* `Serves`, `Memo.Sound` and `Extends`: a folder that serves a token, a memo that holds only tokens
  that are served, and a site that serves what another one does;
* `Fetched.extends`, `Fetched.sound`: what a fetch keeps;
* `Fetched.again`: a fetch of a key that is served;
* `extends_setSite`: the same of a folder that has been put back into its tree;
* `Persists`: an action that keeps all this and has its result again (`Fetching.persists`).

The number of a record has 64 bits, so a folder has room for as many record files (`HasRoom`).
-/
namespace NestedStyles.Cache

open Storage (Cause Folder Host Node Site)
open Disk (appended leaving locked lockName newRecord unlocked)

/-! ## Serving tokens -/

/-- The folder is not locked and has the token of a key at an epoch. -/
def Serves (s : Site) (epoch : Nat) (key token : String) : Prop :=
  ∃ es rs, s = .folder es ∧ lockName ∉ OrderedMap.keys es ∧ Folder.epoch? es = some epoch
    ∧ Folder.records? es = some rs ∧ OrderedMap.get? (tableOfRecords rs) key = some token

theorem Serves.unique {s : Site} {epoch epoch' : Nat} {key token token' : String}
    (h : Serves s epoch key token) (h' : Serves s epoch' key token') : token = token' := by
  obtain ⟨es, rs, rfl, -, -, hrs, hget⟩ := h
  obtain ⟨es', rs', hes, -, -, hrs', hget'⟩ := h'
  cases hes
  cases hrs.symm.trans hrs'
  exact Option.some.inj (hget.symm.trans hget')

/-- The tokens of a memo are served at its epoch. -/
def Memo.Sound (m : Memo) (s : Site) : Prop :=
  ∀ key token, OrderedMap.get? m.tokens key = some token → Serves s m.epoch key token

theorem Memo.sound_new (s : Site) : Memo.Sound {} s := nofun

theorem Memo.Sound.refreshed {m : Memo} {s : Site} (h : m.Sound s) (epoch : Nat) :
    (m.refreshed epoch).Sound s := by
  unfold Memo.refreshed
  split
  · exact h
  · nofun

def recordCount (s : Site) : Nat := (Folder.recordNames s.contents).length

/-- There are no more record files than numbers for them. -/
def HasRoom (s : Site) : Prop := recordCount s ≤ UInt64.size

/-- A site serves what another one does, and has no fewer record files. -/
structure Extends (s s' : Site) : Prop where
  serves : ∀ epoch key token, Serves s epoch key token → Serves s' epoch key token
  count : recordCount s ≤ recordCount s'

theorem Extends.refl (s : Site) : Extends s s := ⟨fun _ _ _ => id, Nat.le_refl _⟩

theorem Extends.trans {s s' s'' : Site} (h : Extends s s') (h' : Extends s' s'') : Extends s s'' :=
  ⟨fun e k t => h'.serves e k t ∘ h.serves e k t, h.count.trans h'.count⟩

theorem Memo.Sound.mono {m : Memo} {s s' : Site} (h : m.Sound s) (he : Extends s s') : m.Sound s' :=
  fun key token hk => he.serves _ _ _ (h key token hk)

/-- A folder that shows a ledger has room. -/
theorem hasRoom_of_shows {s : Site} {l : Ledger} (h : Site.Shows s l) (hw : l.WF) : HasRoom s := by
  rcases h.cases with ⟨es, rfl, hes⟩ | ⟨⟨tried, rfl⟩, -⟩
  · change ((OrderedMap.keys es).filter isRecordName).length ≤ UInt64.size
    rw [hes.keys_eq, filter_isRecordName_files, keys_recordFiles, List.length_map]
    have hlen : (recordsOf l.table).length = l.table.length := by
      rw [← List.length_map Record.seq, map_seq_recordsOf, List.length_range]
    exact hlen.trans_le hw.length_le
  · exact Nat.zero_le _

/-! ## A record more -/

section Appended

variable {es : Folder} {rs : List Record} {r : Record} {now : Int}

theorem recordNames_appended (es : Folder) (r : Record) (now : Int) :
    Folder.recordNames (appended es r now)
      = Folder.recordNames es ++ [Record.fileName r.seq] := by
  have herase : Folder.recordNames (OrderedMap.erase es (Record.draftName r.seq))
      = Folder.recordNames es :=
    (Folder.same_erase (isRecordName_draft _) (draft_ne_epochName _) es).names
  rw [← herase]
  simp [Folder.recordNames, appended, OrderedMap.keys_append, List.filter_append,
    isRecordName_fileName]

theorem lock_not_mem_appended (h : lockName ∉ OrderedMap.keys es) :
    lockName ∉ OrderedMap.keys (appended es r now) := by
  rw [← OrderedMap.get?_eq_none_iff] at h ⊢
  rwa [Disk.get?_appended_of_ne (fileName_ne_lockName _).symm (draft_ne_lockName _).symm]

theorem epoch?_appended : Folder.epoch? (appended es r now) = Folder.epoch? es := by
  have hget := Disk.get?_appended_of_ne (fileName_ne_epochName r.seq).symm
    (draft_ne_epochName (Record.fileName r.seq)).symm es now
  rw [Folder.epoch?, hget]
  rfl

/-- A record whose number has 64 bits is read after the others. -/
theorem records?_appended (hrs : Folder.records? es = some rs)
    (hfree : Record.fileName r.seq ∉ OrderedMap.keys es) (hseq : r.seq < UInt64.size) :
    Folder.records? (appended es r now) = some (rs ++ [r]) := by
  have herase : Folder.Same es (OrderedMap.erase es (Record.draftName r.seq)) :=
    Folder.same_erase (isRecordName_draft _) (draft_ne_epochName _) es
  refine Folder.records?_append (herase.records?.trans hrs) (isRecordName_fileName r.seq) ?_ ?_
  · rw [OrderedMap.keys_erase, List.mem_filter]
    exact fun h => hfree h.1
  · rw [Node.text?_file, Option.bind_some, Record.decode?_encode r hseq]

/-- A folder with room for one more record has a number for it. -/
theorem seq_lt_of_hasRoom {key : String} {compute : List String → String}
    (hrs : Folder.records? es = some rs) {s : Site}
    (hs : s.contents = appended es (newRecord key compute rs) now) (hroom : HasRoom s) :
    (newRecord key compute rs).seq < UInt64.size := by
  have hcount : recordCount s = rs.length + 1 := by
    rw [recordCount, hs, recordNames_appended, List.length_append, ← length_mapM_option hrs]
    rfl
  have hkeys : (newRecord key compute rs).seq ≤ rs.length := by
    change (OrderedMap.keys (tableOfRecords rs)).length ≤ rs.length
    rw [length_keys_tableOfRecords]
    exact (List.toFinset_card_le _).trans_eq (List.length_map _)
  unfold HasRoom at hroom
  omega

end Appended

/-! ## Fetching -/

namespace Disk

variable {key : String} {compute : List String → String} {d d' : Disk} {r : Except Fault String}

/-- A folder that has been unlocked serves what is read in it. -/
theorem serves_unlocked {es : Folder} {rs : List Record} {epoch : Nat} {token : String}
    (he : Folder.epoch? es = some epoch) (hrs : Folder.records? es = some rs)
    (hk : OrderedMap.get? (tableOfRecords rs) key = some token) :
    Serves (.folder (unlocked es)) epoch key token :=
  ⟨unlocked es, rs, rfl, lock_not_mem_unlocked es,
    (Folder.same_unlocked es).epoch?.trans he, (Folder.same_unlocked es).records?.trans hrs, hk⟩

/-- A folder with a further record serves what is read then. -/
theorem serves_appended {es : Folder} {rs : List Record} {rec : Record} {now : Int} {epoch : Nat}
    {token : String} (hl : lockName ∉ OrderedMap.keys es) (he : Folder.epoch? es = some epoch)
    (hrs : Folder.records? es = some rs) (hfree : Record.fileName rec.seq ∉ OrderedMap.keys es)
    (hseq : rec.seq < UInt64.size)
    (hk : OrderedMap.get? (tableOfRecords (rs ++ [rec])) key = some token) :
    Serves (.folder (appended es rec now)) epoch key token :=
  ⟨_, _, rfl, lock_not_mem_appended hl, epoch?_appended.trans he,
    records?_appended hrs hfree hseq, hk⟩

/-- A folder that serves a token is there, without a lock. -/
theorem Opened.eq_of_serves {es : Folder} {host : Host} (h : d.Opened es host) {epoch : Nat}
    {token : String} (hs : Serves d.site epoch key token) :
    d.site = .folder es ∧ lockName ∉ OrderedMap.keys es := by
  obtain ⟨fs, rs, hsite, hlock, -, -, -⟩ := hs
  have hmade := h.made
  rw [hsite] at hmade
  cases hmade
  exact ⟨hsite, hlock⟩

/-- Where nothing has been added the site is as it was, if it was a folder without a lock. -/
theorem site_left {es : Folder} (hsite : d.site = .folder es) (hl : lockName ∉ OrderedMap.keys es)
    (memo : Memo) (host : Host) :
    (d.leaving memo (unlocked (locked es host)) host).site = d.site := by
  rw [leaving, hsite, unlocked_locked, unlocked_of_not_mem hl]
  rfl

/-- The record that a fetch adds, as it is found without the lock. -/
theorem site_added {es : Folder} {host : Host} {rs : List Record}
    (folder : d.site.make.1.withEntries (locked es host) = .folder (locked es host))
    (records : Folder.records? (locked es host) = some rs)
    (free : Record.fileName (newRecord key compute rs).seq ∉ OrderedMap.keys (locked es host))
    (memo : Memo) :
    (d.leaving memo (unlocked (appended (locked es host) (newRecord key compute rs) host.now))
        host).site = .folder (appended (unlocked es) (newRecord key compute rs) host.now)
      ∧ Folder.records? (unlocked es) = some rs
      ∧ Record.fileName (newRecord key compute rs).seq ∉ OrderedMap.keys (unlocked es) := by
  refine ⟨?_, ?_, ?_⟩
  · rw [leaving, Site.withEntries_of_folder folder, unlocked_appended, unlocked_locked]
  · rw [(Folder.same_unlocked es).records?, ← (Folder.same_locked es host).records?, records]
  · rw [← OrderedMap.get?_eq_none_iff] at free ⊢
    rwa [← unlocked_locked es host, get?_unlocked (fileName_ne_lockName _).symm]

theorem Fetched.dir (h : Fetched key compute d r d') : d'.store.dir = d.store.dir := by
  cases h <;> rfl

theorem Fetched.count (h : Fetched key compute d r d') :
    recordCount d.site ≤ recordCount d'.site := by
  cases h with
  | unread epoch => exact Nat.le_refl _
  | remembered epoch_eq known => exact Nat.le_refl _
  | refused epoch_eq unknown held =>
    rw [recordCount, recordCount, Site.contents_make]
  | @looked epoch es fs host r memo epoch_eq unknown opened looked =>
    have hbefore : recordCount d.site = (Folder.recordNames (locked es host)).length := by
      rw [recordCount, Site.contents_of_make opened.made, (Folder.same_locked es host).names]
    have hafter : recordCount (d.leaving memo (unlocked fs) host).site
        = (Folder.recordNames fs).length := by
      rw [recordCount, leaving, Site.contents_withEntries, (Folder.same_unlocked fs).names]
    rw [hbefore, hafter]
    cases looked with
    | added folder epoch_eq records unknown free draft =>
      rw [recordNames_appended, List.length_append]
      exact Nat.le_add_right _ _
    | _ => exact Nat.le_refl _

/-- However a fetch ends, what the folder has served is served. -/
theorem Fetched.extends (h : Fetched key compute d r d') (hroom : HasRoom d'.site) :
    Extends d.site d'.site := by
  refine ⟨fun epoch key' token hs => ?_, h.count⟩
  cases h with
  | unread epoch => exact hs
  | remembered epoch_eq known => exact hs
  | refused epoch_eq unknown held =>
    have hmake : d.site.make.1 = d.site := by
      obtain ⟨es, rs, hsite, -⟩ := hs
      rw [hsite]
      rfl
    rw [hmake]
    exact hs
  | @looked epoch' es fs host r memo epoch_eq unknown opened looked =>
    obtain ⟨hsite, hl⟩ := opened.eq_of_serves hs
    cases looked with
    | @added _ rs folder epoch_eq records unknown free draft =>
      obtain ⟨hleft, hrs, hfree⟩ := site_added folder records free ⟨_, _⟩
      rw [hleft] at hroom ⊢
      have hseq := seq_lt_of_hasRoom hrs rfl hroom
      obtain ⟨es', rs', hsite', -, he, hrs', hk⟩ := hs
      cases hsite.symm.trans hsite'
      rw [unlocked_of_not_mem hl] at hrs hfree ⊢
      cases hrs.symm.trans hrs'
      have hne : key ≠ key' := by
        rintro rfl
        cases unknown.symm.trans hk
      exact serves_appended hl he hrs hfree hseq ((get?_tableOfRecords_append hne).trans hk)
    | _ =>
      rw [site_left hsite hl]
      exact hs

/-- However a fetch ends, the memo holds only tokens that are served. -/
theorem Fetched.sound (h : Fetched key compute d r d') (hroom : HasRoom d'.site)
    (hm : d.store.memo.Sound d.site) : d'.store.memo.Sound d'.site := by
  have hextends := h.extends hroom
  cases h with
  | unread epoch => exact hm
  | remembered epoch_eq known => exact hm
  | refused epoch_eq unknown held => exact (hm.refreshed _).mono hextends
  | @looked epoch es fs host r memo epoch_eq unknown opened looked =>
    have hepoch := (Folder.same_locked es host).epoch?
    cases looked with
    | unread tokens epoch' bad =>
      intro key' token hk
      have hserves := hm.refreshed epoch key' token (tokens ▸ hk)
      have hsame : memo.epoch = (d.store.memo.refreshed epoch).epoch := by
        -- the epoch under the lock is the one before
        refine epoch'.elim id fun he => ?_
        obtain ⟨es', rs, hsite, -, he', -, -⟩ := hserves
        cases (opened.eq_of_serves (hm.refreshed epoch key' token (tokens ▸ hk))).1.symm.trans hsite
        exact Option.some.inj (he.symm.trans (hepoch.trans he'))
      rw [← hsame] at hserves
      exact hextends.serves _ _ _ hserves
    | @found epoch' rs token folder epoch_eq' records known =>
      intro key' token hk
      rw [leaving, Site.withEntries_of_folder folder]
      exact serves_unlocked epoch_eq' records hk
    | @unwritten fault epoch' rs folder epoch_eq' records unknown' =>
      intro key' token hk
      rw [leaving, Site.withEntries_of_folder folder]
      exact serves_unlocked epoch_eq' records hk
    | @added epoch' rs folder epoch_eq' records unknown' free draft =>
      intro key' token hk
      obtain ⟨hleft, hrs, hfree⟩ := site_added folder records free ⟨_, _⟩
      rw [hleft] at hroom ⊢
      have hseq := seq_lt_of_hasRoom hrs rfl hroom
      have he : Folder.epoch? (unlocked es) = some epoch' := by
        rw [(Folder.same_unlocked es).epoch?, ← hepoch, epoch_eq']
      refine serves_appended (lock_not_mem_unlocked es) he hrs hfree hseq ?_
      have hfresh : (newRecord key compute rs).key ∉ OrderedMap.keys (tableOfRecords rs) :=
        OrderedMap.get?_eq_none_iff.1 unknown'
      by_cases hkey : key = key'
      · subst hkey
        cases (OrderedMap.get?_insert_self _ _ _).symm.trans hk
        exact get?_tableOfRecords_append_self hfresh
      · exact (get?_tableOfRecords_append hkey).trans
          ((OrderedMap.get?_insert_of_ne hkey _ _).symm.trans hk)

/-- A key that is served is answered, and nothing changes for it. -/
theorem Fetched.again (h : Fetched key compute d r d') {epoch : Nat} {token : String}
    (hs : Serves d.site epoch key token) (hm : d.store.memo.Sound d.site) :
    r = .ok token ∧ d'.site = d.site := by
  obtain ⟨es', rs', hsite', hl', he', hrs', hk'⟩ := id hs
  cases h with
  | unread epoch_eq =>
    have hread : Yields readEpoch d (Folder.epoch? es') :=
      yields_readEpoch (by rw [hsite']; rfl)
    rw [he'] at hread
    cases hread.symm.trans epoch_eq
  | remembered epoch_eq known =>
    have hserves := hm _ _ known.2
    exact ⟨congrArg Except.ok (hserves.unique hs), rfl⟩
  | refused epoch_eq unknown held =>
    exact absurd (held es' (by rw [hsite']; rfl)) hl'
  | @looked epoch' es fs host r memo epoch_eq unknown opened looked =>
    obtain ⟨hsite, hl⟩ := opened.eq_of_serves hs
    cases hsite.symm.trans hsite'
    have hepoch := (Folder.same_locked es' host).epoch?
    have hrecords := (Folder.same_locked es' host).records?
    cases looked with
    | unread tokens epoch_eq' bad =>
      have hfolder : d.site.make.1.withEntries (locked es' host)
          = .folder (locked es' host) := by
        rw [hsite]
        rfl
      rcases bad hfolder with he | hrs
      · cases he.symm.trans (hepoch.trans he')
      · cases hrs.symm.trans (hrecords.trans hrs')
    | found folder epoch_eq' records known =>
      cases records.symm.trans (hrecords.trans hrs')
      exact ⟨congrArg Except.ok (Option.some.inj (known.symm.trans hk')), site_left hsite hl _ _⟩
    | unwritten folder epoch_eq' records unknown' =>
      cases records.symm.trans (hrecords.trans hrs')
      cases unknown'.symm.trans hk'
    | added folder epoch_eq' records unknown' free draft =>
      cases records.symm.trans (hrecords.trans hrs')
      cases unknown'.symm.trans hk'

end Disk

/-! ## Sites of a tree -/

/-- What fetching makes of a site at a path that is not empty: a folder that is there, or can be
made, keeps the folders in it. -/
inductive Becomes (s : Site) : Site → Prop
  | same : Becomes s s
  | made {es fs : Folder} (made : s.make.2 = .ok es) (keeps : Storage.Folder.KeepsFolders es fs) :
      Becomes s (.folder fs)
  | failed {cause : Cause} (failed : s.make.2 = .error cause) : Becomes s s.make.1

theorem Becomes.trans {s s' s'' : Site} (h : Becomes s s') (h' : Becomes s' s'') :
    Becomes s s'' := by
  cases h with
  | same => exact h'
  | made made keeps =>
    cases h' with
    | same => exact .made made keeps
    | made made' keeps' =>
      cases made'
      exact .made made fun name inner => keeps' name inner ∘ keeps name inner
    | failed failed => cases failed
  | failed failed =>
    cases s with
    | folder es => cases failed
    | home es => cases failed
    | occupied => exact h'
    | absent cause outcome tried =>
      cases outcome with
      | ok es => cases failed
      | error why =>
        cases h' with
        | same => exact .failed failed
        | made made' keeps' => cases made'
        | failed failed' => exact .failed failed

theorem Becomes.ne_home {s s' : Site} (h : Becomes s s') (hs : ∀ es, s ≠ .home es) (es : Folder) :
    s' ≠ .home es := by
  cases h with
  | same => exact hs es
  | made made keeps => nofun
  | failed failed =>
    cases s with
    | home fs => cases failed
    | folder fs => cases failed
    | occupied => nofun
    | absent cause outcome tried => cases outcome <;> nofun

theorem make_of_ok {s : Site} (hs : ∀ es, s ≠ .home es) {es : Folder} (h : s.make.2 = .ok es) :
    s.make.1 = .folder es := by
  cases s with
  | folder fs => cases h; rfl
  | home fs => exact absurd rfl (hs fs)
  | occupied => cases h
  | absent cause outcome tried =>
    cases outcome <;> cases h
    rfl

theorem becomes_make {s : Site} (hs : ∀ es, s ≠ .home es) : Becomes s s.make.1 := by
  cases hmade : s.make.2 with
  | error cause => exact .failed hmade
  | ok es =>
    rw [make_of_ok hs hmade]
    exact .made hmade fun _ _ => id

/-- A folder where a lock was found stale has no folder in the lock's place. -/
theorem Disk.Opened.ne_lockName {d : Disk} {es : Folder} {host : Host} (h : d.Opened es host)
    {name : String} {inner : Folder} (hget : OrderedMap.get? es name = some (.folder inner)) :
    lockName ≠ name := by
  rintro rfl
  obtain ⟨h', -, hstale⟩ := h.stale _ hget
  cases hstale

theorem Disk.Opened.keepsFolders {d : Disk} {es fs : Folder} {host : Host} {key : String}
    {compute : List String → String} {s : Site} {m memo : Memo} {r : Except Fault String}
    (h : d.Opened es host)
    (hl : Disk.Looked key compute s (locked es host) m host.now r memo fs) :
    Storage.Folder.KeepsFolders es (unlocked fs) := by
  intro name inner hget
  have hlock := h.ne_lockName hget
  rw [Disk.get?_unlocked hlock]
  rw [← Disk.get?_locked_of_ne host hlock] at hget
  cases hl with
  | @added _ rs folder epoch_eq records unknown free draft =>
    have hfile : name ≠ Record.fileName (newRecord key compute rs).seq := by
      rintro rfl
      exact free (OrderedMap.mem_keys_of_mem (OrderedMap.mem_of_get?_eq_some hget))
    have hdraft : name ≠ Record.draftName (newRecord key compute rs).seq := by
      rintro rfl
      exact draft inner hget
    rw [Disk.get?_appended_of_ne hfile hdraft, hget]
  | _ => exact hget

theorem Disk.Fetched.becomes {d d' : Disk} {key : String} {compute : List String → String}
    {r : Except Fault String} (h : Disk.Fetched key compute d r d')
    (hs : ∀ es, d.site ≠ .home es) : Becomes d.site d'.site := by
  cases h with
  | unread epoch => exact .same
  | remembered epoch_eq known => exact .same
  | refused epoch_eq unknown held => exact becomes_make hs
  | looked epoch_eq unknown opened looked =>
    rw [leaving, make_of_ok hs opened.made]
    exact .made opened.made (opened.keepsFolders looked)

open Storage (FileTree Path.IsName Path.join)

/-- What has been made of a site is found in the tree again, or nothing that is served is lost. -/
theorem extends_setSite {t : FileTree} {dir name : String} (hn : Path.IsName name) {s : Site}
    (h : Becomes (t.site (Path.join dir name)) s) :
    Extends s ((t.setSite (Path.join dir name) s).site (Path.join dir name)) := by
  cases h with
  | same =>
    rw [FileTree.site_setSite_site hn]
    exact .refl _
  | made made keeps =>
    rw [FileTree.site_setSite hn made keeps]
    exact .refl _
  | failed failed =>
    -- there is no folder, and so nothing is served
    generalize t.site (Path.join dir name) = s at failed ⊢
    have hempty : s.make.1.contents = [] ∧ ∀ es, s.make.1 ≠ .folder es := by
      cases s with
      | folder es => cases failed
      | home es => cases failed
      | occupied => exact ⟨rfl, nofun⟩
      | absent cause outcome tried => cases outcome <;> [exact ⟨rfl, nofun⟩; cases failed]
    refine ⟨fun epoch key token hs => ?_, ?_⟩
    · obtain ⟨es, rs, hes, -⟩ := hs
      exact absurd hes (hempty.2 es)
    · rw [recordCount, hempty.1]
      exact Nat.zero_le _

/-! ## Actions -/

/-- What becomes of a handle, its folder and its memo. -/
structure Kept (d d' : Disk) : Prop where
  dir : d'.store.dir = d.store.dir
  becomes : Becomes d.site d'.site
  count : recordCount d.site ≤ recordCount d'.site
  extends_site : HasRoom d'.site → Extends d.site d'.site
  sound : HasRoom d'.site → d.store.memo.Sound d.site → d'.store.memo.Sound d'.site

theorem Kept.refl (d : Disk) : Kept d d :=
  ⟨rfl, .same, Nat.le_refl _, fun _ => .refl _, fun _ => id⟩

theorem Kept.trans {d d' d'' : Disk} (h : Kept d d') (h' : Kept d' d'') : Kept d d'' where
  dir := h'.dir.trans h.dir
  becomes := h.becomes.trans h'.becomes
  count := h.count.trans h'.count
  extends_site hroom := (h.extends_site (h'.count.trans hroom)).trans (h'.extends_site hroom)
  sound hroom hm := h'.sound hroom (h.sound (h'.count.trans hroom) hm)

variable {α β : Type}

/-- The action has this result from every folder that serves what a site serves, and leaves it as it
is. -/
def Repeats (a : StoreM α) (x : α) (s : Site) : Prop := ∀ d : Disk, HasRoom d.site →
  Extends s d.site → d.store.memo.Sound d.site →
  ∃ d', a (.disk d) = (.ok x, .disk d') ∧ d'.site = d.site ∧ d'.store.memo.Sound d'.site

theorem Repeats.mono {a : StoreM α} {x : α} {s s' : Site} (h : Repeats a x s) (he : Extends s s') :
    Repeats a x s' := fun d hroom hextends => h d hroom (he.trans hextends)

/-- The action takes no token away, and repeats a result. -/
def Persists (a : StoreM α) : Prop := ∀ d : Disk, (∀ es, d.site ≠ .home es) →
  ∃ r d', a (.disk d) = (r, .disk d') ∧ Kept d d'
    ∧ ∀ x, r = .ok x → HasRoom d'.site → d.store.memo.Sound d.site → Repeats a x d'.site

theorem persists_result (r : Except Fault α) : Persists (ExceptT.mk (Pure.pure r) : StoreM α) :=
  fun d _ => ⟨r, d, rfl, .refl d, fun _ hr _ _ d₂ _ _ hm => ⟨d₂, by rw [hr]; rfl, rfl, hm⟩⟩

theorem persists_fetch (key : String) (compute : List String → String) :
    Persists (Store.fetch key compute) := by
  intro d hs
  have hfetched : Disk.Fetched key compute d (Disk.fetch key compute d).1
      (Disk.fetch key compute d).2 := Disk.fetched_fetch rfl
  refine ⟨_, _, rfl, ⟨hfetched.dir, hfetched.becomes hs, hfetched.count, hfetched.extends,
    hfetched.sound⟩, fun token htoken hroom hm d₂ hroom₂ hextends hm₂ => ?_⟩
  -- the token is served by then, and so from `d₂` as well
  obtain ⟨epoch, -, hknows⟩ := Disk.knows_of_fetch (Prod.ext htoken rfl : Disk.fetch key compute d
    = (.ok token, (Disk.fetch key compute d).2))
  have hserves := hextends.serves _ _ _ (hfetched.sound hroom hm key token hknows.2)
  have hfetched₂ : Disk.Fetched key compute d₂ (Disk.fetch key compute d₂).1
      (Disk.fetch key compute d₂).2 := Disk.fetched_fetch rfl
  obtain ⟨hok, hsite⟩ := hfetched₂.again hserves hm₂
  refine ⟨_, ?_, hsite, hfetched₂.sound (hsite ▸ hroom₂) hm₂⟩
  rw [← hok]
  rfl

theorem Persists.bind {a : StoreM α} {f : α → StoreM β} (ha : Persists a)
    (hf : ∀ x, Persists (f x)) : Persists (a >>= f) := by
  intro d hs
  obtain ⟨r, d₁, hrun, hkept, hagain⟩ := ha d hs
  cases r with
  | error fault => exact ⟨.error fault, d₁, bind_of_error hrun, hkept, nofun⟩
  | ok x =>
    obtain ⟨r, d₂, hrun', hkept', hagain'⟩ := hf x d₁ (hkept.becomes.ne_home hs)
    refine ⟨r, d₂, (bind_of_ok hrun).trans hrun', hkept.trans hkept', ?_⟩
    intro y hy hroom hm d₃ hroom₃ hextends hm₃
    have hroom₁ : HasRoom d₁.site := hkept'.count.trans hroom
    obtain ⟨d₄, hrun₃, hsite, hm₄⟩ :=
      hagain x rfl hroom₁ hm d₃ hroom₃ ((hkept'.extends_site hroom).trans hextends) hm₃
    obtain ⟨d₅, hrun₄, hsite', hm₅⟩ := hagain' y hy hroom (hkept.sound hroom₁ hm) d₄
      (hsite ▸ hroom₃) (hsite ▸ hextends) hm₄
    exact ⟨d₅, (bind_of_ok hrun₃).trans hrun₄, hsite'.trans hsite, hm₅⟩

/-- What only asks for tokens takes none away, and gives the same result again. -/
theorem Fetching.persists {a : StoreM α} (h : Fetching a) : Persists a := by
  induction h with
  | result r => exact persists_result r
  | fetch key compute => exact persists_fetch key compute
  | bind ha hf iha ihf => exact iha.bind ihf

end NestedStyles.Cache
