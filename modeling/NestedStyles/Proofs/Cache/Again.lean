import NestedStyles.Proofs.Cache.Store
import NestedStyles.Proofs.Result
import NestedStyles.ClassName.Naming
/-!
# Keys that have been looked up

Whatever a store holds, a key that has once been looked up is known: asked for right away it has the
same token again, and the store stays as it is. In a folder that holds, since the epoch that the
handle remembers is the one that it has read under the lock, and nothing that it does after that
touches the epoch's file.

* `Keeps` is an action on a handle that only reads;
* `Site.read_of_write`, `Site.read_of_rename` and `Site.read_of_removeFile`: other files read the
  same;
* `Store.fetch_again`: the second fetch of a key; `classFor_again`: the second use of a class.
-/
namespace NestedStyles

open Cache (DiskM Disk)

/-! ## Files that stay as they are -/

namespace Storage.Site

theorem read_withEntries (es : Folder) (s : Site) (name : String) :
    (s.withEntries es).read name = match OrderedMap.get? es name with
      | some node => node.readText
      | none => .error .notFound := by
  unfold read
  rw [entries_withEntries]
  rfl

/-- What a file reads is a matter of its entry. -/
theorem read_of_get?_eq {s : Site} {es fs : Folder} (hs : s.entries = .ok es) {name : String}
    (h : OrderedMap.get? fs name = OrderedMap.get? es name) :
    (s.withEntries fs).read name = s.read name := by
  rw [read_withEntries, h, read, hs]
  rfl

theorem read_of_write {s s' : Site} {file text : String} {now : Int}
    (h : s.write file text now = .ok s') {name : String} (hne : file ≠ name) :
    s'.read name = s.read name := by
  unfold write at h
  obtain ⟨es, hs, h⟩ := bind_eq_ok.1 h
  split at h
  · cases h
  · cases h
    exact read_of_get?_eq hs (OrderedMap.get?_insert_of_ne hne _ _)

theorem read_of_rename {s s' : Site} {old new : String} (h : s.rename old new = .ok s')
    {name : String} (hold : old ≠ name) (hnew : new ≠ name) : s'.read name = s.read name := by
  unfold rename at h
  obtain ⟨es, hs, h⟩ := bind_eq_ok.1 h
  split at h
  · cases h
  · cases h
  · cases h
    exact read_of_get?_eq hs
      ((OrderedMap.get?_insert_of_ne hnew _ _).trans (OrderedMap.get?_erase_of_ne hold _))

theorem read_of_removeFile {s s' : Site} {file : String} (h : s.removeFile file = .ok s')
    {name : String} (hne : file ≠ name) : s'.read name = s.read name := by
  unfold removeFile at h
  obtain ⟨es, hs, h⟩ := bind_eq_ok.1 h
  split at h
  · cases h
  · cases h
  · cases h
    exact read_of_get?_eq hs (OrderedMap.get?_erase_of_ne hne _)

end Storage.Site

/-! ## Actions that only read -/

namespace Cache.Disk

variable {α β : Type}

/-- The action leaves the handle, its folder and the host alone. -/
def Keeps (a : DiskM α) : Prop := ∀ d, (a d).2 = d

theorem Keeps.pure (x : α) : Keeps (Pure.pure x : DiskM α) := fun _ => rfl

theorem Keeps.bind {a : DiskM α} {f : α → DiskM β} (ha : Keeps a) (hf : ∀ x, Keeps (f x)) :
    Keeps (a >>= f) := by
  intro d
  change (match a d with | (r, d') => ExceptT.bindCont f r d').2 = d
  have hd := ha d
  cases h : a d with
  | mk r d' =>
    rw [h] at hd
    obtain rfl : d' = d := hd
    cases r with
    | error fault => rfl
    | ok x => exact hf x d'

theorem Keeps.get_bind {f : Disk → DiskM α} (hf : ∀ d, Keeps (f d)) : Keeps (get >>= f) :=
  fun d => hf d d

theorem Keeps.mapM {f : α → DiskM β} (hf : ∀ x, Keeps (f x)) (xs : List α) :
    Keeps (xs.mapM f) := by
  induction xs with
  | nil => exact Keeps.pure []
  | cons x xs ih =>
    rw [List.mapM_cons]
    exact (hf x).bind fun y => ih.bind fun ys => Keeps.pure (y :: ys)

theorem keeps_failAt (name : String) (cause : Storage.Cause) :
    Keeps (failAt name cause : DiskM α) := fun _ => rfl

theorem keeps_failAtDir (cause : Storage.Cause) : Keeps (failAtDir cause : DiskM α) := fun _ => rfl

theorem keeps_orFailAt (name : String) (r : Except Storage.Cause α) : Keeps (orFailAt name r) := by
  cases r with
  | error cause => exact keeps_failAt name cause
  | ok a => exact Keeps.pure a

theorem keeps_readEpoch : Keeps readEpoch := by
  refine Keeps.get_bind fun d => ?_
  split
  · split
    · exact Keeps.pure _
    · exact keeps_failAt _ _
  · exact Keeps.pure _
  · exact keeps_failAt _ _

theorem keeps_recordNames : Keeps recordNames := by
  refine Keeps.get_bind fun d => ?_
  split
  · exact Keeps.pure _
  · exact keeps_failAtDir _

theorem keeps_readRecord (name : String) : Keeps (readRecord name) := by
  refine Keeps.get_bind fun d => (keeps_orFailAt _ _).bind fun text => ?_
  split
  · exact Keeps.pure _
  · exact keeps_failAt _ _

theorem keeps_readTable : Keeps readTable :=
  keeps_recordNames.bind fun names => (Keeps.mapM keeps_readRecord names).bind fun _ => Keeps.pure _

theorem Keeps.ok_of_bind {a : DiskM α} (ha : Keeps a) {f : α → DiskM β} {d d' : Disk} {y : β}
    (h : (a >>= f) d = (.ok y, d')) : ∃ x, a d = (.ok x, d) ∧ f x d = (.ok y, d') := by
  obtain ⟨x, d₁, hx, hy⟩ := Cache.ok_of_bind h
  have hd := ha d
  rw [hx] at hd
  obtain rfl : d₁ = d := hd
  exact ⟨x, hx, hy⟩

/-! ## Other files -/

theorem ok_of_orFailAt {name : String} {r : Except Storage.Cause α} {d d' : Disk} {a : α}
    (h : orFailAt name r d = (.ok a, d')) : r = .ok a := by
  cases r with
  | error cause => cases h
  | ok b => cases h; rfl

/-- Replacing a file leaves the others alone. -/
theorem read_of_replaceFile {file text : String} {d d' : Disk}
    (h : replaceFile file text d = (.ok (), d')) {name : String} (hdraft : file ++ ".tmp" ≠ name)
    (hfile : file ≠ name) : d'.site.read name = d.site.read name := by
  unfold replaceFile at h
  rw [get_bind] at h
  obtain ⟨s, hs, h⟩ := (keeps_orFailAt _ _).ok_of_bind h
  rw [setSite_bind, get_bind] at h
  obtain ⟨s', hs', h⟩ := (keeps_orFailAt _ _).ok_of_bind h
  cases h
  exact (Storage.Site.read_of_rename (ok_of_orFailAt hs') hdraft hfile).trans
    (Storage.Site.read_of_write (ok_of_orFailAt hs) hdraft)

theorem read_of_writeRecord {r : Record} {d d' : Disk} (h : writeRecord r d = (.ok (), d')) :
    d'.site.read epochName = d.site.read epochName := by
  unfold writeRecord at h
  rw [get_bind] at h
  split at h
  · cases h
  · exact read_of_replaceFile h (draft_ne_epochName _) (fileName_ne_epochName _)

theorem read_of_dropLock (d : Disk) :
    (dropLock d).2.site.read epochName = d.site.read epochName := by
  rw [dropLock, modify_apply]
  cases h : d.site.removeFile lockName with
  | error cause => rfl
  | ok site => exact Storage.Site.read_of_removeFile h (by decide)

theorem store_of_dropLock (d : Disk) : (dropLock d).2.store = d.store := by
  rw [dropLock, modify_apply]
  cases d.site.removeFile lockName <;> rfl

/-! ## Asking again -/

/-- The epoch is a matter of its file alone. -/
theorem readEpoch_of_read_eq {d d' : Disk} (h : d'.site.read epochName = d.site.read epochName)
    {epoch : Nat} (he : readEpoch d = (.ok epoch, d)) : readEpoch d' = (.ok epoch, d') := by
  unfold readEpoch at he ⊢
  rw [get_bind] at he ⊢
  cases hread : d.site.read epochName with
  | ok text =>
    simp only [h, hread] at he ⊢
    cases hparse : parseEpoch? text with
    | some epoch =>
      simp only [hparse] at he ⊢
      cases he
      rfl
    | none =>
      simp only [hparse] at he
      cases he
  | error cause =>
    simp only [h, hread] at he ⊢
    cases cause with
    | notFound =>
      cases he
      rfl
    | _ => cases he

/-- After a fetch with the lock held the memo has the token at the folder's epoch. -/
theorem knows_of_fetchLocked {key token : String} {compute : List String → String} {d d' : Disk}
    (h : fetchLocked key compute d = (.ok token, d')) :
    ∃ epoch, readEpoch d' = (.ok epoch, d') ∧ Knows d'.store.memo epoch key token := by
  unfold fetchLocked at h
  obtain ⟨epoch, he, h⟩ := keeps_readEpoch.ok_of_bind h
  rw [get_bind, setMemo_bind] at h
  obtain ⟨tokens, -, h⟩ := keeps_readTable.ok_of_bind h
  rw [setMemo_bind] at h
  cases hget : OrderedMap.get? tokens key with
  | some known =>
    simp only [hget] at h
    cases h
    refine ⟨epoch, readEpoch_of_read_eq ?_ he, rfl, hget⟩
    rfl
  | none =>
    simp only [hget] at h
    obtain ⟨⟨⟩, d₁, hwrite, h⟩ := Cache.ok_of_bind h
    rw [setMemo_bind] at h
    cases h
    have hsite := read_of_writeRecord hwrite
    refine ⟨epoch, readEpoch_of_read_eq ?_ he, rfl, OrderedMap.get?_insert_self tokens key _⟩
    exact hsite

/-- Asking for the lock and giving it back does not change what the action in between has found out
about a key. -/
theorem knows_of_withLock {key token : String} {compute : List String → String} {d d' : Disk}
    (h : withLock (fetchLocked key compute) d = (.ok token, d')) :
    ∃ epoch, readEpoch d' = (.ok epoch, d') ∧ Knows d'.store.memo epoch key token := by
  unfold withLock at h
  obtain ⟨⟨⟩, d₁, -, h⟩ := Cache.ok_of_bind h
  change ((fetchLocked key compute d₁).1, (dropLock (fetchLocked key compute d₁).2).2) = _ at h
  cases hlocked : fetchLocked key compute d₁ with
  | mk r d₂ =>
    rw [hlocked] at h
    cases h
    obtain ⟨epoch, he, hknows⟩ := knows_of_fetchLocked hlocked
    refine ⟨epoch, readEpoch_of_read_eq (read_of_dropLock d₂) he, ?_⟩
    rwa [store_of_dropLock]

/-- After any fetch that succeeds the memo has the token at the folder's epoch. -/
theorem knows_of_fetch {key token : String} {compute : List String → String} {d d' : Disk}
    (h : fetch key compute d = (.ok token, d')) :
    ∃ epoch, readEpoch d' = (.ok epoch, d') ∧ Knows d'.store.memo epoch key token := by
  unfold fetch at h
  obtain ⟨epoch, he, h⟩ := keeps_readEpoch.ok_of_bind h
  obtain ⟨⟨⟩, d₁, hrefresh, h⟩ := Cache.ok_of_bind h
  have hd₁ : d₁.site = d.site ∧ d₁.store.memo.epoch = epoch := by
    unfold refreshMemo at hrefresh
    rw [get_bind] at hrefresh
    split at hrefresh
    · cases hrefresh
      exact ⟨rfl, rfl⟩
    · next hepoch =>
      cases hrefresh
      exact ⟨rfl, not_not.1 hepoch⟩
  rw [get_bind] at h
  cases hget : OrderedMap.get? d₁.store.memo.tokens key with
  | some known =>
    simp only [hget] at h
    cases h
    exact ⟨epoch, readEpoch_of_read_eq (by rw [hd₁.1]) he, hd₁.2, hget⟩
  | none =>
    simp only [hget] at h
    exact knows_of_withLock h

end Cache.Disk

/-! ## Stores -/

open Cache (Store)

/-- A key that has been looked up is known: asked for right away it has the same token. -/
theorem Cache.Store.fetch_again {key token : String} {compute : List String → String} {s s' : Store}
    (h : Store.fetch key compute s = (.ok token, s')) (compute' : List String → String) :
    Store.fetch key compute' s' = (.ok token, s') := by
  cases s with
  | memory table =>
    have hget := Cache.Table.get?_fetch table key compute
    change (Except.ok (Cache.Table.fetch table key compute).1,
      Store.memory (Cache.Table.fetch table key compute).2) = _ at h
    obtain ⟨htoken, rfl⟩ := Prod.mk.inj h
    rw [Except.ok.inj htoken] at hget
    change (Except.ok (Cache.Table.fetch _ key compute').1,
      Store.memory (Cache.Table.fetch _ key compute').2) = _
    rw [Cache.Table.fetch_of_get?_eq_some hget]
  | disk d =>
    change ((Disk.fetch key compute d).1, Store.disk (Disk.fetch key compute d).2) = _ at h
    cases hfetch : Disk.fetch key compute d with
    | mk r d' =>
      rw [hfetch] at h
      cases h
      obtain ⟨epoch, he, hknows⟩ := Disk.knows_of_fetch hfetch
      change ((Disk.fetch key compute' d').1, Store.disk (Disk.fetch key compute' d').2) = _
      rw [Disk.fetch_of_memo he hknows]

/-- A class that has been named has the same name right away. -/
theorem ClassName.classFor_again {prefixes : List String} {compress : Bool} {style name : String}
    {s s' : Store} (h : ClassName.classFor prefixes compress style s = (.ok name, s')) :
    ClassName.classFor prefixes compress style s' = (.ok name, s') := by
  cases compress with
  | false =>
    cases h
    rfl
  | true =>
    have hfetch : classFor prefixes true style = Store.fetch (readable prefixes style)
        fun names => token names.length := if_pos rfl
    rw [hfetch] at h ⊢
    exact Store.fetch_again h _

end NestedStyles
