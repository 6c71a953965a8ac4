import NestedStyles.Proofs.Cache.Append
/-!
# How much of a clear is done

Clearing a folder removes its records one by one, reads the epoch, and writes the next one. It can
fail between any two of these steps, and what has been done by then stays done: an epoch that cannot
be read is found out only when the records are gone (`clear_half_done`).

* `Folder.Clearable` is what a folder has to be like for a clear not to fail once it has the lock;
* `clearLocked_of_clearable`, `clearable_of_clearLocked`: with the lock held a clear succeeds in
  such a folder and in no other;
* `clear_outcome`: a clear that fails leaves the memo, and the folder as well if it is clearable;
  one that succeeds leaves no record and another epoch, so that no handle of an earlier epoch trusts
  its memo.
-/
namespace NestedStyles.Cache

open Storage (Cause Folder Host Node Site)
open Storage.Folder (IsFile)

namespace Folder

/-- The entries but for the record files. -/
def withoutRecords (es : Folder) : Folder := es.filter fun e => e.1 ∉ recordNames es

/-- Entries in which the records can be removed and the epoch counted up. -/
structure Clearable (es : Folder) : Prop where
  names : (recordNames es).Nodup
  records : ∀ name ∈ recordNames es, IsFile es name
  epoch : ∃ epoch, epoch? es = some epoch
  draft : ∀ inner, OrderedMap.get? es (Disk.epochName ++ ".tmp") ≠ some (.folder inner)

variable {es fs : Folder}

theorem get?_withoutRecords (es : Folder) (name : String) :
    OrderedMap.get? (withoutRecords es) name
      = if isRecordName name then none else OrderedMap.get? es name := by
  have hfilter := OrderedMap.get?_filter (fun name => decide (name ∉ recordNames es)) es name
  rw [withoutRecords, hfilter]
  by_cases hname : name ∈ OrderedMap.keys es
  · cases hrecord : isRecordName name <;> simp [recordNames, hname, hrecord]
  · simp [recordNames, hname, OrderedMap.get?_eq_none_iff.2 hname]

theorem epoch?_congr (h : OrderedMap.get? fs Disk.epochName = OrderedMap.get? es Disk.epochName) :
    epoch? fs = epoch? es := by
  unfold epoch?
  rw [h]

theorem epoch?_withoutRecords (es : Folder) : epoch? (withoutRecords es) = epoch? es :=
  epoch?_congr (get?_withoutRecords es _)

/-- Where an epoch can be read there is no folder in its place. -/
theorem epochName_not_folder {epoch : Nat} (h : epoch? es = some epoch) (inner : Folder) :
    OrderedMap.get? es Disk.epochName ≠ some (.folder inner) := by
  intro hg
  rw [epoch?, hg] at h
  cases h

theorem recordNames_eq_nil (h : ∀ name, isRecordName name = true → OrderedMap.get? es name = none) :
    recordNames es = [] := by
  refine List.filter_eq_nil_iff.2 fun name hname hrecord => ?_
  exact OrderedMap.get?_eq_none_iff.1 (h name hrecord) hname

theorem Same.clearable (h : Same es fs) (hdraft : OrderedMap.get? fs (Disk.epochName ++ ".tmp")
    = OrderedMap.get? es (Disk.epochName ++ ".tmp")) (hc : Clearable fs) : Clearable es where
  names := h.names ▸ hc.names
  records := by
    intro name hname
    obtain ⟨contents, time, hfile⟩ := hc.records name (h.names ▸ hname)
    exact ⟨contents, time, by rw [← h.entry name (Or.inl (List.mem_filter.1 hname).2), hfile]⟩
  epoch := h.epoch? ▸ hc.epoch
  draft := hdraft ▸ hc.draft

end Folder

namespace Disk

/-! ## With the lock held -/

/-- Entries without records, at an epoch. -/
def cleared (es : Folder) (epoch : Nat) (now : Int) : Folder :=
  OrderedMap.insert (OrderedMap.erase (Folder.withoutRecords es) (epochName ++ ".tmp")) epochName
    (.file (.text (decimal epoch)) now)

theorem get?_cleared_epochName (es : Folder) (epoch : Nat) (now : Int) :
    OrderedMap.get? (cleared es epoch now) epochName
      = some (.file (.text (decimal epoch)) now) := OrderedMap.get?_insert_self _ _ _

theorem get?_cleared_of_ne {name : String} (he : name ≠ epochName) (hd : name ≠ epochName ++ ".tmp")
    (es : Folder) (epoch : Nat) (now : Int) : OrderedMap.get? (cleared es epoch now) name
      = if isRecordName name then none else OrderedMap.get? es name := by
  rw [cleared, OrderedMap.get?_insert_of_ne he.symm, OrderedMap.get?_erase_of_ne hd.symm,
    Folder.get?_withoutRecords]

variable {d : Disk} {es : Folder}

/-- The number that a clear writes can be read. -/
theorem epoch?_cleared {epoch : Nat} (h : epoch < UInt64.size) (es : Folder) (now : Int) :
    Folder.epoch? (cleared es epoch now) = some epoch := by
  simp only [Folder.epoch?, get?_cleared_epochName, Node.text?_file, Option.bind_some,
    parseEpoch?_decimal h]

theorem recordNames_of_folder (hs : d.site = .folder es) :
    recordNames d = (.ok (Folder.recordNames es), d) := by
  unfold recordNames
  rw [get_bind, hs]
  rfl

theorem isFile_of_removeRecord (hs : d.site = .folder es) {name : String} {d' : Disk}
    (h : removeRecord name d = (.ok (), d')) : IsFile es name := by
  unfold removeRecord at h
  rw [get_bind, hs] at h
  obtain ⟨s, hremove, -⟩ := (keeps_orFailAt _ _).ok_of_bind h
  have hok := ok_of_orFailAt hremove
  unfold Site.removeFile at hok
  rw [Site.entries_bind] at hok
  split at hok
  · cases hok
  · cases hok
  · exact ⟨_, _, ‹_›⟩

/-- Names can be removed one after the other if they are different and all of them name files. -/
theorem isFile_of_forM_removeRecord (names : List String) (hs : d.site = .folder es) {d' : Disk}
    (h : names.forM removeRecord d = (.ok (), d')) :
    names.Nodup ∧ ∀ name ∈ names, IsFile es name := by
  induction names generalizing d es with
  | nil => exact ⟨List.nodup_nil, nofun⟩
  | cons name names ih =>
    obtain ⟨⟨⟩, d₁, hfirst, hrest⟩ := ok_of_bind h
    have hname := isFile_of_removeRecord hs hfirst
    cases (removeRecord_spec hs hname).symm.trans hfirst
    obtain ⟨hnodup, hfiles⟩ := ih rfl hrest
    have hother : ∀ n ∈ names, n ≠ name ∧ IsFile es n := by
      intro n hn
      obtain ⟨contents, time, hfile⟩ := hfiles n hn
      have hne : n ≠ name := by
        rintro rfl
        rw [OrderedMap.get?_erase_self] at hfile
        cases hfile
      exact ⟨hne, contents, time, by rwa [OrderedMap.get?_erase_of_ne hne.symm] at hfile⟩
    refine ⟨List.nodup_cons.2 ⟨fun hmem => (hother name hmem).1 rfl, hnodup⟩, fun n hn => ?_⟩
    rcases List.mem_cons.1 hn with rfl | hn
    · exact hname
    · exact (hother n hn).2

/-- What is left when the records have been removed. -/
theorem forM_recordNames (hs : d.site = .folder es) (hnodup : (Folder.recordNames es).Nodup)
    (hfiles : ∀ name ∈ Folder.recordNames es, IsFile es name) :
    (Folder.recordNames es).forM removeRecord d
      = (.ok (), { d with site := .folder (Folder.withoutRecords es) }) :=
  forM_removeRecord _ hs hnodup hfiles

theorem clearLocked_of_clearable (hs : d.site = .folder es) (hc : Folder.Clearable es) {epoch : Nat}
    (he : Folder.epoch? es = some epoch) :
    clearLocked d = (.ok (), ⟨{ d.store with memo := ⟨(epoch + 1) % UInt64.size, []⟩ },
      .folder (cleared es ((epoch + 1) % UInt64.size) d.host.now), d.host⟩) := by
  have hepoch := yields_readEpoch (d := { d with site := .folder (Folder.withoutRecords es) }) rfl
  rw [Folder.epoch?_withoutRecords, he] at hepoch
  have hwrite := replaceFile_ok (d := { d with site := .folder (Folder.withoutRecords es) })
    (s := .folder []) rfl epochName (decimal ((epoch + 1) % UInt64.size))
    (by rw [Folder.get?_withoutRecords]; exact hc.draft)
    (by rw [Folder.get?_withoutRecords]; exact Folder.epochName_not_folder he)
    (draft_ne_epochName _)
  unfold clearLocked
  rw [bind_of_ok (recordNames_of_folder hs), bind_of_ok (forM_recordNames hs hc.names hc.records),
    bind_of_ok hepoch]
  exact bind_of_ok hwrite

/-- Where the epoch cannot be read, or a folder is in the way of the next one, the records are gone
when this is found out. -/
theorem clearLocked_half (hs : d.site = .folder es) (hnodup : (Folder.recordNames es).Nodup)
    (hfiles : ∀ name ∈ Folder.recordNames es, IsFile es name)
    (hbad : Folder.epoch? es = none
      ∨ ∃ inner, OrderedMap.get? es (epochName ++ ".tmp") = some (.folder inner)) :
    ∃ fault, clearLocked d
      = (.error fault, { d with site := .folder (Folder.withoutRecords es) }) := by
  have hread := yields_readEpoch (d := { d with site := .folder (Folder.withoutRecords es) }) rfl
  rw [Folder.epoch?_withoutRecords] at hread
  unfold clearLocked
  rw [bind_of_ok (recordNames_of_folder hs), bind_of_ok (forM_recordNames hs hnodup hfiles)]
  cases he : Folder.epoch? es with
  | none =>
    rw [he] at hread
    exact hread.imp fun _ h => bind_of_error h
  | some epoch =>
    obtain ⟨inner, hinner⟩ := hbad.resolve_left (by rw [he]; nofun)
    rw [he] at hread
    have hdraft : OrderedMap.get? (Folder.withoutRecords es) (epochName ++ ".tmp")
        = some (.folder inner) := by
      rw [Folder.get?_withoutRecords]
      exact hinner
    have hblocked := replaceFile_blocked
      (d := { d with site := .folder (Folder.withoutRecords es) }) (s := .folder []) rfl
      epochName (decimal ((epoch + 1) % UInt64.size)) hdraft
    rw [bind_of_ok hread]
    exact hblocked.imp fun _ h => bind_of_error h

theorem clearable_of_clearLocked (hs : d.site = .folder es) {d' : Disk}
    (h : clearLocked d = (.ok (), d')) : Folder.Clearable es := by
  have hsteps := h
  unfold clearLocked at hsteps
  rw [bind_of_ok (recordNames_of_folder hs)] at hsteps
  obtain ⟨⟨⟩, d₁, hremove, -⟩ := ok_of_bind hsteps
  obtain ⟨hnodup, hfiles⟩ := isFile_of_forM_removeRecord _ hs hremove
  have hgood : ¬(Folder.epoch? es = none
      ∨ ∃ inner, OrderedMap.get? es (epochName ++ ".tmp") = some (.folder inner)) := by
    intro hbad
    obtain ⟨fault, hfault⟩ := clearLocked_half hs hnodup hfiles hbad
    cases hfault.symm.trans h
  exact ⟨hnodup, hfiles, Option.ne_none_iff_exists'.1 fun hnone => hgood (Or.inl hnone),
    fun inner hinner => hgood (Or.inr ⟨inner, hinner⟩)⟩

/-! ## Parts of a handle -/

variable {α β γ : Type} {part : Disk → γ}

/-- The action leaves a part of the handle as it is. -/
def KeepsPart (part : Disk → γ) (a : DiskM α) : Prop := ∀ d, part (a d).2 = part d

theorem Keeps.keepsPart {a : DiskM α} (h : Keeps a) : KeepsPart part a := fun d => by rw [h d]

theorem KeepsPart.bind {a : DiskM α} {f : α → DiskM β} (ha : KeepsPart part a)
    (hf : ∀ x, KeepsPart part (f x)) : KeepsPart part (a >>= f) := by
  intro d
  have hd := ha d
  cases h : a d with
  | mk r d' =>
    rw [h] at hd
    cases r with
    | error fault => rw [bind_of_error h, ← hd]
    | ok x => rw [bind_of_ok h, hf x d', ← hd]

theorem KeepsPart.get_bind {f : Disk → DiskM α} (hf : ∀ d, KeepsPart part (f d)) :
    KeepsPart part (get >>= f) := fun d => hf d d

section Files

-- a part that does not show what becomes of the files
variable (part) (hpart : ∀ d s, part (Disk.mk d.store s d.host) = part d)
include hpart

theorem keepsPart_setSite (s : Site) : KeepsPart part (setSite s) := fun d => hpart d s

theorem keepsPart_forM_removeRecord (names : List String) :
    KeepsPart part (names.forM removeRecord) := by
  induction names with
  | nil => exact fun _ => rfl
  | cons name names ih =>
    have hfirst : KeepsPart part (removeRecord name) := .get_bind fun _ =>
      (keeps_orFailAt _ _).keepsPart.bind fun _ => keepsPart_setSite part hpart _
    exact hfirst.bind fun _ => ih

theorem keepsPart_replaceFile (name text : String) : KeepsPart part (replaceFile name text) :=
  .get_bind fun _ => (keeps_orFailAt _ _).keepsPart.bind fun _ =>
    (keepsPart_setSite part hpart _).bind fun _ => .get_bind fun _ =>
      (keeps_orFailAt _ _).keepsPart.bind fun _ => keepsPart_setSite part hpart _

end Files

/-- The memo is changed last, and that does not fail. -/
theorem store_of_clearLocked (hs : d.site = .folder es) {d' : Disk} {fault : Fault}
    (h : clearLocked d = (.error fault, d')) : d'.store = d.store := by
  unfold clearLocked at h
  rw [bind_of_ok (recordNames_of_folder hs)] at h
  have hremove := keepsPart_forM_removeRecord store (fun _ _ => rfl)
    (Folder.recordNames es) d
  rcases error_of_bind h with hstep | ⟨_, d₁, hstep, h⟩ <;> rw [hstep] at hremove
  · exact hremove
  have hread := keeps_readEpoch d₁
  rcases error_of_bind h with hstep | ⟨epoch, d₂, hstep, h⟩ <;> rw [hstep] at hread
  · exact congrArg Disk.store hread |>.trans hremove
  have hwrite := keepsPart_replaceFile store (fun _ _ => rfl) epochName
    (decimal ((epoch + 1) % UInt64.size)) d₂
  rcases error_of_bind h with hstep | ⟨_, d₃, hstep, h⟩
  · rw [show replaceFile epochName _ d₂ = _ from hstep] at hwrite
    exact hwrite.trans ((congrArg Disk.store hread).trans hremove)
  · cases h

/-- A handle whose memo is of another epoch than the folder's trusts nothing that it has read. -/
theorem fetch_of_stale_memo {epoch : Nat} (he : Folder.epoch? es = some epoch) {store : DiskStore}
    (hm : store.memo.epoch ≠ epoch) (host : Host) (key : String) (compute : List String → String) :
    fetch key compute ⟨store, .folder es, host⟩
      = fetch key compute ⟨{ store with memo := ⟨epoch, []⟩ }, .folder es, host⟩ := by
  have hread : ∀ store, Yields readEpoch ⟨store, .folder es, host⟩ (Folder.epoch? es) :=
    fun _ => yields_readEpoch rfl
  rw [he] at hread
  unfold fetch
  rw [bind_of_ok (hread store), bind_of_ok (hread _), bind_of_ok (refreshMemo_eq epoch _),
    bind_of_ok (refreshMemo_eq epoch _)]
  simp only [Memo.refreshed, if_neg hm, if_true]

/-! ## A whole clear -/

/-- What a clear leaves of the entries `es` at an epoch. -/
structure Cleared (es fs : Folder) (epoch : Nat) : Prop where
  records : Folder.recordNames fs = []
  epoch_eq : Folder.epoch? fs = some epoch
  others : ∀ name, isRecordName name = false →
    name ∉ [lockName, epochName, epochName ++ ".tmp"] →
    OrderedMap.get? fs name = OrderedMap.get? es name

theorem cleared_unlocked (es : Folder) {epoch : Nat} (h : epoch < UInt64.size) (host : Host) :
    Cleared es (unlocked (cleared (locked es host) epoch host.now)) epoch where
  records := by
    refine Folder.recordNames_eq_nil fun name hname => ?_
    have hlock : lockName ≠ name := by rintro rfl; cases hname
    have hepoch : name ≠ epochName := by rintro rfl; cases hname
    have hdraft : name ≠ epochName ++ ".tmp" := by rintro rfl; revert hname; decide
    rw [get?_unlocked hlock, get?_cleared_of_ne hepoch hdraft, if_pos hname]
  epoch_eq := by
    rw [Folder.epoch?_congr (get?_unlocked (by decide))]
    exact epoch?_cleared h _ _
  others := by
    intro name hname hothers
    simp only [List.mem_cons, List.not_mem_nil, or_false, not_or] at hothers
    obtain ⟨hlock, hepoch, hdraft⟩ := hothers
    rw [get?_unlocked (Ne.symm hlock), get?_cleared_of_ne hepoch hdraft, hname,
      if_neg Bool.false_ne_true, get?_locked_of_ne host (Ne.symm hlock)]

theorem clearable_locked (es : Folder) (host : Host) :
    Folder.Clearable (locked es host) ↔ Folder.Clearable es := by
  have hsame := Folder.same_locked es host
  have hdraft : OrderedMap.get? (locked es host) (epochName ++ ".tmp") = _ :=
    get?_locked_of_ne host (draft_ne_lockName epochName).symm
  exact ⟨hsame.clearable hdraft, hsame.symm.clearable hdraft.symm⟩

/-- How a clear ends. -/
inductive Clears (d : Disk) : Except Fault Unit → Disk → Prop
  /-- There is nothing to clear. -/
  | absent {d' : Disk} (absent : d.site.isPresent = false) : Clears d (.ok ()) d'
  /-- The lock cannot be had. -/
  | refused {fault : Fault} {d' : Disk} (store : d'.store = d.store) (site : d'.site = d.site) :
      Clears d (.error fault) d'
  /-- Something in the folder cannot be removed, read or written. -/
  | broken {fault : Fault} {es : Folder} {d' : Disk} (site : d.site = .folder es)
      (bad : ¬Folder.Clearable es) (store : d'.store = d.store) : Clears d (.error fault) d'
  | done {es : Folder} {epoch : Nat} {host : Host} (site : d.site = .folder es)
      (epoch_eq : Folder.epoch? es = some epoch) :
      Clears d (.ok ()) ⟨{ d.store with memo := ⟨(epoch + 1) % UInt64.size, []⟩ },
        .folder (unlocked (cleared (locked es host) ((epoch + 1) % UInt64.size) host.now)), host⟩

theorem clears_clear {r : Except Fault Unit} {d' : Disk} (h : clear d = (r, d')) :
    Clears d r d' := by
  unfold clear at h
  rw [get_bind] at h
  cases hpresent : d.site.isPresent with
  | false =>
    rw [hpresent] at h
    cases h
    exact .absent hpresent
  | true =>
    rw [hpresent, if_pos rfl] at h
    rcases withLock_cases h with ⟨fault, host, rfl, rfl, -⟩ | ⟨es, host, d₂, opened, hact, rfl⟩
    · refine .refused rfl ?_
      cases hsite : d.site with
      | folder es => rfl
      | home es => rw [hsite] at hpresent; cases hpresent
      | occupied => rfl
      | absent cause made tried => rw [hsite] at hpresent; cases hpresent
    · have hsite : d.site = .folder es := by
        have hmade := opened.made
        cases hsite : d.site with
        | folder fs => rw [hsite] at hmade; cases hmade; rfl
        | home fs => rw [hsite] at hpresent; cases hpresent
        | occupied => rw [hsite] at hmade; cases hmade
        | absent cause made tried => rw [hsite] at hpresent; cases hpresent
      have hlocked : (d.leaving d.store.memo (locked es host) host).site
          = .folder (locked es host) := by
        rw [leaving, hsite]
        rfl
      cases r with
      | error fault =>
        refine .broken hsite (fun hc => ?_) ?_
        · obtain ⟨epoch, he⟩ := ((clearable_locked es host).2 hc).epoch
          have hok := clearLocked_of_clearable hlocked ((clearable_locked es host).2 hc) he
          cases hok.symm.trans hact
        · rw [store_of_dropLock, store_of_clearLocked hlocked hact]
          rfl
      | ok u =>
        have hc := clearable_of_clearLocked hlocked hact
        obtain ⟨epoch, he⟩ := hc.epoch
        cases (clearLocked_of_clearable hlocked hc he).symm.trans hact
        have hlock : OrderedMap.get? (cleared (locked es host) ((epoch + 1) % UInt64.size) host.now)
            lockName = some (lockNode host) :=
          (get?_cleared_of_ne (by decide) (by decide) _ _ _).trans (get?_locked es host)
        rw [(Folder.same_locked es host).epoch?] at he
        rw [dropLock_of_locked (s := .folder []) rfl hlock]
        exact .done hsite he

/-- However a clear ends, the handle remembers what it did before, or nothing. -/
theorem memo_clear (d : Disk) :
    (clear d).2.store.memo = d.store.memo ∨ (clear d).2.store.memo.tokens = [] := by
  cases hpresent : d.site.isPresent with
  | false =>
    refine Or.inr ?_
    unfold clear
    rw [get_bind, hpresent]
    rfl
  | true =>
    have hclears : Clears d (clear d).1 (clear d).2 := clears_clear rfl
    generalize (clear d).1 = r, (clear d).2 = d' at hclears
    cases hclears with
    | absent absent => cases hpresent.symm.trans absent
    | refused store site => exact Or.inl (congrArg DiskStore.memo store)
    | broken site bad store => exact Or.inl (congrArg DiskStore.memo store)
    | done site epoch_eq => exact Or.inr rfl

/-- A clear that fails leaves the memo, and in a folder that it could clear it leaves everything.
One that succeeds where there is a folder leaves no record and the next epoch, at which a handle
with the memo of another epoch fetches as one that has read nothing. -/
theorem clear_outcome (d : Disk) :
    (∀ fault, (clear d).1 = .error fault → (clear d).2.store = d.store
      ∧ (Folder.Clearable d.site.contents → (clear d).2.site = d.site))
    ∧ ∀ es, d.site = .folder es → (clear d).1 = .ok () → ∃ epoch fs,
      Folder.epoch? es = some epoch ∧ (clear d).2.site = .folder fs
      ∧ Cleared es fs ((epoch + 1) % UInt64.size)
      ∧ (clear d).2.store.memo = ⟨(epoch + 1) % UInt64.size, []⟩
      ∧ ∀ (store : DiskStore) (host : Host) (key : String) (compute : List String → String),
        store.memo.epoch ≠ (epoch + 1) % UInt64.size →
        fetch key compute ⟨store, .folder fs, host⟩
          = fetch key compute
            ⟨{ store with memo := ⟨(epoch + 1) % UInt64.size, []⟩ }, .folder fs, host⟩ := by
  have hclears : Clears d (clear d).1 (clear d).2 := clears_clear rfl
  generalize (clear d).1 = r, (clear d).2 = d' at hclears
  cases hclears with
  | absent absent => exact ⟨nofun, fun es hsite => by rw [hsite] at absent; cases absent⟩
  | refused store site => exact ⟨fun _ _ => ⟨store, fun _ => site⟩, nofun⟩
  | broken site bad store =>
    refine ⟨fun _ _ => ⟨store, fun hc => absurd hc ?_⟩, nofun⟩
    rwa [site]
  | @done es epoch host site epoch_eq =>
    have hlt : (epoch + 1) % UInt64.size < UInt64.size := Nat.mod_lt _ (by decide)
    have hcleared := cleared_unlocked es hlt host
    refine ⟨nofun, fun es' hsite' _ => ?_⟩
    cases site.symm.trans hsite'
    exact ⟨epoch, _, epoch_eq, rfl, hcleared, rfl, fun store host' key compute hm =>
      fetch_of_stale_memo hcleared.epoch_eq hm host' key compute⟩

/-! ## Half a clear -/

theorem withoutRecords_locked {es : Folder} (hl : lockName ∉ OrderedMap.keys es) (host : Host) :
    Folder.withoutRecords (locked es host)
      = Folder.withoutRecords es ++ [(lockName, lockNode host)] := by
  have hnames : Folder.recordNames (locked es host) = Folder.recordNames es :=
    (Folder.same_locked es host).names
  have hlock : lockName ∉ Folder.recordNames es := fun h => by
    cases (List.mem_filter.1 h).2
  rw [Folder.withoutRecords, hnames, locked, unlocked_of_not_mem hl, List.filter_append]
  simp [Folder.withoutRecords, hlock]

/-- Where the epoch cannot be read, or a folder is in the way of the next one, a clear fails after
it has removed every record, and leaves the memo and the epoch. -/
theorem clear_half {es : Folder} (hs : d.site = .folder es) (hl : lockName ∉ OrderedMap.keys es)
    (hnodup : (Folder.recordNames es).Nodup)
    (hfiles : ∀ name ∈ Folder.recordNames es, IsFile es name)
    (hbad : Folder.epoch? es = none
      ∨ ∃ inner, OrderedMap.get? es (epochName ++ ".tmp") = some (.folder inner)) :
    ∃ fault host,
      clear d = (.error fault, ⟨d.store, .folder (Folder.withoutRecords es), host⟩) := by
  have hopens : Opens d.site es := by rw [hs]; rfl
  obtain ⟨host, htake⟩ := takeLock_spec hopens hl
  have hsame := Folder.same_locked es host
  have hlocked : es ++ [(lockName, lockNode host)] = locked es host := by
    rw [locked, unlocked_of_not_mem hl]
  rw [hlocked] at htake
  have hdraft : OrderedMap.get? (locked es host) (epochName ++ ".tmp") = _ :=
    get?_locked_of_ne host (draft_ne_lockName epochName).symm
  rw [← hdraft, ← hsame.epoch?] at hbad
  obtain ⟨fault, hfault⟩ := clearLocked_half (d := ⟨d.store, .folder (locked es host), host⟩) rfl
    (hsame.names ▸ hnodup) (fun name hname => by
      obtain ⟨contents, time, hfile⟩ := hfiles name (hsame.names ▸ hname)
      have hrecord := (List.mem_filter.1 hname).2
      exact ⟨contents, time, (hsame.entry name (Or.inl hrecord)).trans hfile⟩) hbad
  have hdrop : dropLock ⟨d.store, .folder (Folder.withoutRecords (locked es host)), host⟩
      = ((), ⟨d.store, .folder (Folder.withoutRecords es), host⟩) := by
    have hfree : lockName ∉ OrderedMap.keys (Folder.withoutRecords es) := by
      rw [← OrderedMap.get?_eq_none_iff, Folder.get?_withoutRecords]
      simpa using fun _ => OrderedMap.get?_eq_none_iff.2 hl
    rw [withoutRecords_locked hl, dropLock_spec rfl hfree List.not_mem_nil, List.append_nil]
  refine ⟨fault, host, ?_⟩
  unfold clear
  rw [get_bind, hs]
  exact withLock_of htake hfault hdrop

/-- A handle on a folder with the record of one key and another entry. -/
def besideRecord (e : String × Node) : Disk :=
  ⟨.inFolder "c" "n",
    .folder [(Record.fileName 0, .file (.text (Record.encode ⟨"a", "_0", 0⟩)) 0), e],
    ⟨0, 0, fun _ => 0, fun _ => none, 1, false⟩⟩

/-- The record is gone, and the clear has failed: for an epoch that is no number, and for a folder
in the place of the next epoch's draft. -/
theorem clear_half_done :
    (∃ fault host, clear (besideRecord (epochName, .file (.text "x") 0))
        = (.error fault, ⟨.inFolder "c" "n", .folder [(epochName, .file (.text "x") 0)], host⟩))
    ∧ ∃ fault host, clear (besideRecord (epochName ++ ".tmp", .folder []))
        = (.error fault,
          ⟨.inFolder "c" "n", .folder [(epochName ++ ".tmp", .folder [])], host⟩) := by
  have hparse : parseEpoch? "x" = none := by decide
  have hfiles : ∀ e : String × Node, ∀ name ∈ [Record.fileName 0],
      IsFile [(Record.fileName 0, .file (.text (Record.encode ⟨"a", "_0", 0⟩)) 0), e] name := by
    rintro e name hname
    cases List.mem_singleton.1 hname
    exact ⟨_, _, OrderedMap.get?_cons_self ..⟩
  constructor
  · have h := clear_half (d := besideRecord (epochName, .file (.text "x") 0)) rfl (by decide)
      (List.nodup_singleton _) (hfiles _) (Or.inl hparse)
    exact h
  · have h := clear_half (d := besideRecord (epochName ++ ".tmp", .folder [])) rfl (by decide)
      (List.nodup_singleton _) (hfiles _) (Or.inr ⟨[], rfl⟩)
    exact h

end Disk
end NestedStyles.Cache
