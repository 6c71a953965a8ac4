import NestedStyles.Proofs.Cache.Again
/-!
# How a lock is taken

Whoever wants the lock of a folder either gets it or gives up, whatever the folder holds. A lock
that is already there is removed only after it has been found stale, at some moment of the wait.

* `Host.Later`: the host when its clock has been read, or has slept, any number of times;
* `Polled` and `TakesLock` are all the ways in which waiting and taking the lock can end
  (`polled_pollLock`, `takesLock_takeLock`);
* `unlocked es` are the entries of a folder without its lock, which are those that giving the lock
  back leaves (`dropLock_of_locked`).
-/
namespace NestedStyles

/-! ## Time -/

namespace Storage

/-- The same host at the same time or a later one. -/
structure Host.Later (h h' : Host) : Prop where
  now : h.now ≤ h'.now
  delay : h'.delay = h.delay
  alive : h'.alive = h.alive
  pid : h'.pid = h.pid

namespace Host.Later

variable {h h' h'' : Host}

theorem refl (h : Host) : h.Later h := ⟨Nat.le_refl _, rfl, rfl, rfl⟩

theorem trans (a : h.Later h') (b : h'.Later h'') : h.Later h'' :=
  ⟨a.now.trans b.now, b.delay.trans a.delay, b.alive.trans a.alive, b.pid.trans a.pid⟩

theorem read (a : h.Later h') : h.Later h'.read :=
  a.trans ⟨h'.now_le_read, rfl, rfl, rfl⟩

theorem after (a : h.Later h') (length : Nat) : h.Later (h'.after length).2 :=
  a.trans ⟨Nat.le_refl _, rfl, rfl, rfl⟩

theorem sleep (a : h.Later h') (length : Nat) : h.Later (h'.sleep length) :=
  a.trans ⟨Nat.le_trans (Nat.le_add_right _ _) (h'.now_add_le_sleep length), rfl, rfl, rfl⟩

end Host.Later

/-! ## Sites and their entries -/

namespace Site

/-- Only at the empty path names lead to entries without there being a folder. -/
theorem withEntries_cases (s : Site) (es : Folder) :
    s.withEntries es = folder es ∨ s.withEntries es = home es := by
  cases s with
  | home _ => exact Or.inr rfl
  | _ => exact Or.inl rfl

theorem withEntries_of_folder {s : Site} {es : Folder} (h : s.withEntries es = folder es)
    (fs : Folder) : s.withEntries fs = folder fs := by
  cases s with
  | home _ => cases h
  | _ => rfl

/-- The entries that are there, or would be if the folder were made. -/
def contents : Site → Folder
  | folder es => es
  | home es => es
  | occupied => []
  | absent _ made _ => made.toOption.getD []

theorem contents_withEntries (es : Folder) (s : Site) : (s.withEntries es).contents = es := by
  cases s <;> rfl

theorem contents_of_make {s : Site} {es : Folder} (h : s.make.2 = .ok es) : s.contents = es := by
  cases s with
  | folder es => cases h; rfl
  | home es => cases h; rfl
  | occupied => cases h
  | absent cause made tried => cases made <;> cases h; rfl

/-- Entries that are there will be there when the folder has been made. -/
theorem make_of_contents {s : Site} {name : String} {node : Node}
    (h : OrderedMap.get? s.contents name = some node) : s.make.2 = .ok s.contents := by
  cases s with
  | folder es => rfl
  | home es => rfl
  | occupied => cases h
  | absent cause made tried =>
    cases made with
    | ok es => rfl
    | error why => cases h

/-- Making a folder puts nothing into it. -/
theorem contents_make (s : Site) : s.make.1.contents = s.contents := by
  cases s with
  | absent cause made tried => cases made <;> rfl
  | _ => rfl

end Site
end Storage

namespace Cache

open Storage (Cause Folder Host Node Site)

/-- A lock is found stale at once or later. -/
def GoesStale (limit : Nat) (h : Host) (lock : Node) : Prop :=
  ∃ h', h.Later h' ∧ (isStale limit lock h').1 = true

theorem GoesStale.of_later {limit : Nat} {h h' : Host} {lock : Node} (hl : h.Later h') :
    GoesStale limit h' lock → GoesStale limit h lock
  | ⟨h'', hl', hs⟩ => ⟨h'', hl.trans hl', hs⟩

theorem later_isStale (limit : Nat) (n : Node) (h : Host) : h.Later (isStale limit n h).2 := by
  have hr := (Host.Later.refl h).read
  unfold isStale
  split
  · exact .refl h
  · dsimp only
    split
    · exact hr
    · split
      · exact hr
      · unfold infoIsStale
        split
        · exact hr
        · split
          · exact hr
          · exact hr.read

namespace Disk

/-! ## Waiting -/

/-- The entries of a folder without its lock. -/
def unlocked (es : Folder) : Folder := OrderedMap.erase es lockName

theorem lock_not_mem_unlocked (es : Folder) : lockName ∉ OrderedMap.keys (unlocked es) :=
  OrderedMap.not_mem_keys_erase es lockName

theorem unlocked_of_not_mem {es : Folder} (h : lockName ∉ OrderedMap.keys es) : unlocked es = es :=
  OrderedMap.erase_of_not_mem h

theorem get?_unlocked {es : Folder} {name : String} (h : lockName ≠ name) :
    OrderedMap.get? (unlocked es) name = OrderedMap.get? es name :=
  OrderedMap.get?_erase_of_ne h es

/-- The entries with a lock in the place of an earlier one. -/
def locked (es : Folder) (host : Host) : Folder := unlocked es ++ [(lockName, lockNode host)]

theorem unlocked_locked (es : Folder) (host : Host) : unlocked (locked es host) = unlocked es :=
  OrderedMap.erase_append_singleton (lock_not_mem_unlocked es) _

theorem get?_locked (es : Folder) (host : Host) :
    OrderedMap.get? (locked es host) lockName = some (lockNode host) := by
  rw [locked, OrderedMap.get?_append_of_not_mem (lock_not_mem_unlocked es),
    OrderedMap.get?_cons_self]

theorem get?_locked_of_ne {es : Folder} (host : Host) {name : String} (h : lockName ≠ name) :
    OrderedMap.get? (locked es host) name = OrderedMap.get? es name := by
  rw [← get?_unlocked h, unlocked_locked, get?_unlocked h]

theorem addLock_eq {es : Folder} (h : lockName ∉ OrderedMap.keys es) (host : Host) :
    addLock es host = locked es host := by
  rw [addLock, OrderedMap.insert_of_not_mem h, locked, unlocked_of_not_mem h]
  rfl

/-- How waiting for the lock of a folder ends. -/
inductive Polled (staleAfter : Nat) (es : Folder) (h : Host) : Except Cause Folder → Host → Prop
  | taken {h' : Host} (later : h.Later h')
      (stale : ∀ lock, OrderedMap.get? es lockName = some lock → GoesStale staleAfter h lock) :
      Polled staleAfter es h (.ok (locked es h')) h'
  | timedOut {h' : Host} (later : h.Later h') (held : lockName ∈ OrderedMap.keys es) :
      Polled staleAfter es h (.error .timedOut) h'

theorem Polled.of_later {staleAfter : Nat} {es : Folder} {h h' h'' : Host} {r : Except Cause Folder}
    (hl : h.Later h') (hp : Polled staleAfter es h' r h'') : Polled staleAfter es h r h'' := by
  cases hp with
  | taken later stale => exact .taken (hl.trans later) fun lock hg => (stale lock hg).of_later hl
  | timedOut later held => exact .timedOut (hl.trans later) held

theorem polled_pollLock (staleAfter deadline : Nat) (es : Folder) (h : Host) :
    Polled staleAfter es h (pollLock staleAfter deadline es h).1
      (pollLock staleAfter deadline es h).2 := by
  fun_induction pollLock staleAfter deadline es h with
  | case1 h hnone =>
    rw [addLock_eq (OrderedMap.get?_eq_none_iff.1 hnone)]
    exact .taken (Host.Later.refl h).read fun lock hg => by rw [hnone] at hg; cases hg
  | case2 h lock hlock judged later hstale =>
    have hfree := lock_not_mem_unlocked es
    have hadded : addLock (unlocked es) later = locked es later := by
      rw [addLock_eq hfree, locked, unlocked_of_not_mem hfree, locked]
    change Polled _ _ _ (.ok (addLock (unlocked es) later)) later
    rw [hadded]
    refine .taken (later_isStale staleAfter lock h).read fun other hother => ?_
    cases hlock.symm.trans hother
    exact ⟨h, .refl h, hstale⟩
  | case3 h lock hlock judged later hstale hdeadline =>
    exact .timedOut (later_isStale staleAfter lock h).read
      (OrderedMap.isSome_get?_iff.1 (by rw [hlock]; rfl))
  | case4 h lock hlock judged later hstale hdeadline ih =>
    exact ih.of_later ((later_isStale staleAfter lock h).read.sleep _)

/-! ## Taking and giving back -/

/-- The lock can be had: the folder is there, or has been made, with these entries, and a lock among
them is stale. -/
structure Opened (d : Disk) (es : Folder) (host : Host) : Prop where
  made : d.site.make.2 = .ok es
  later : d.host.Later host
  stale : ∀ lock, OrderedMap.get? es lockName = some lock →
    GoesStale d.store.staleAfter d.host lock

/-- A handle that has left these entries in its folder. -/
def leaving (d : Disk) (memo : Memo) (es : Folder) (host : Host) : Disk :=
  ⟨{ d.store with memo }, d.site.make.1.withEntries es, host⟩

/-- How taking the lock of a folder ends. -/
inductive TakesLock (d : Disk) : Except Fault Unit → Disk → Prop
  | taken {es : Folder} {host : Host} (opened : d.Opened es host) :
      TakesLock d (.ok ()) (d.leaving d.store.memo (locked es host) host)
  | refused {fault : Fault} {host : Host}
      (held : ∀ es, d.site.make.2 = .ok es → lockName ∈ OrderedMap.keys es) :
      TakesLock d (.error fault) ⟨d.store, d.site.make.1, host⟩

theorem later_started (d : Disk) : d.host.Later d.started := (Host.Later.refl d.host).read.after _

theorem takesLock_takeLock (d : Disk) : TakesLock d (takeLock d).1 (takeLock d).2 := by
  unfold takeLock
  rw [get_bind]
  cases hmake : d.site.make with
  | mk site entries =>
    obtain rfl : d.site.make.1 = site := by rw [hmake]
    have hmade : d.site.make.2 = entries := by rw [hmake]
    simp only [setSite_bind]
    cases entries with
    | error cause => exact .refused fun es hes => by rw [hmade] at hes; cases hes
    | ok es =>
      have hpolled := polled_pollLock d.store.staleAfter d.deadline es d.started
      simp only [after_read]
      generalize pollLock d.store.staleAfter d.deadline es d.started = polled at hpolled ⊢
      obtain ⟨r, host⟩ := polled
      have hwait : Polled d.store.staleAfter es d.host r host := hpolled.of_later (later_started d)
      cases hwait with
      | taken later stale => exact .taken ⟨hmade, later, stale⟩
      | timedOut later held =>
        exact .refused fun es' hes' => by cases hmade.symm.trans hes'; exact held

/-- The lock goes, and nothing else. -/
theorem dropLock_of_locked {d : Disk} {s : Site} {es : Folder} {host : Host}
    (hs : d.site = s.withEntries es) (hl : OrderedMap.get? es lockName = some (lockNode host)) :
    dropLock d = ((), { d with site := s.withEntries (unlocked es) }) := by
  have hremove : d.site.removeFile lockName = .ok (s.withEntries (unlocked es)) := by
    unfold Site.removeFile
    rw [hs, Site.entries_withEntries]
    simp only [bind, Except.bind, hl, lockNode, Site.withEntries_withEntries]
    rfl
  unfold dropLock
  rw [modify_apply, hremove]

end Disk
end Cache
end NestedStyles
