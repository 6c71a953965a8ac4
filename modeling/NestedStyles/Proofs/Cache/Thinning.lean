import NestedStyles.Proofs.Cache.Confined
/-!
# What a clear takes away

With the lock held, a clear removes record files and replaces the epoch file by way of its draft. No
other entry changes, and wherever it fails it has changed no more.

* `Folder.Thins`: the record files are among those of before, and the lock is as it was;
* `thinning_clearLocked`: with the lock held a clear leaves such entries, however it ends;
* `withLock_thins`: with the lock taken before and given back after it, the lock is gone;
* `thins_clear`: what a whole clear leaves.
-/
namespace NestedStyles.Cache

open Storage (Cause Folder Host Node Site)

/-! ## Fewer records -/

namespace Folder

/-- Every record file is one of before, and the lock is as it was. -/
structure Thins (es fs : Folder) : Prop where
  records : ∀ name, isRecordName name = true →
    OrderedMap.get? fs name = none ∨ OrderedMap.get? fs name = OrderedMap.get? es name
  lock : OrderedMap.get? fs Disk.lockName = OrderedMap.get? es Disk.lockName

variable {es fs gs : Folder} {name : String}

theorem Thins.refl (es : Folder) : Thins es es := ⟨fun _ _ => Or.inr rfl, rfl⟩

theorem Thins.trans (h : Thins es fs) (h' : Thins fs gs) : Thins es gs where
  records := by
    intro name hname
    rcases h'.records name hname with hnone | hsame
    · exact Or.inl hnone
    · rw [hsame]
      exact h.records name hname
  lock := h'.lock.trans h.lock

theorem thins_erase (hname : name ≠ Disk.lockName) (es : Folder) :
    Thins es (OrderedMap.erase es name) where
  records := by
    intro other _
    by_cases hother : name = other
    · subst hother
      exact Or.inl (OrderedMap.get?_erase_self es name)
    · exact Or.inr (OrderedMap.get?_erase_of_ne hother es)
  lock := OrderedMap.get?_erase_of_ne hname es

theorem thins_insert (hname : isRecordName name = false) (hlock : name ≠ Disk.lockName)
    (es : Folder) (node : Node) : Thins es (OrderedMap.insert es name node) where
  records := by
    intro other hother
    have hne : name ≠ other := by
      rintro rfl
      rw [hname] at hother
      cases hother
    exact Or.inr (OrderedMap.get?_insert_of_ne hne es node)
  lock := OrderedMap.get?_insert_of_ne hlock es node

end Folder

/-! ## File operations -/

section Operations

variable {s s' : Site} {es : Folder} {name : String}

theorem thins_removeFile (hname : name ≠ Disk.lockName)
    (h : (s.withEntries es).removeFile name = .ok s') :
    ∃ fs, s' = s.withEntries fs ∧ Folder.Thins es fs := by
  unfold Site.removeFile at h
  rw [Site.entries_withEntries] at h
  obtain ⟨_, ⟨⟩, h⟩ := bind_eq_ok.1 h
  split at h
  · cases h
  · cases h
  · cases h
    exact ⟨_, Site.withEntries_withEntries .., Folder.thins_erase hname es⟩

theorem thins_write (hname : isRecordName name = false) (hlock : name ≠ Disk.lockName)
    {text : String} {now : Int} (h : (s.withEntries es).write name text now = .ok s') :
    ∃ fs, s' = s.withEntries fs ∧ Folder.Thins es fs := by
  unfold Site.write at h
  rw [Site.entries_withEntries] at h
  obtain ⟨_, ⟨⟩, h⟩ := bind_eq_ok.1 h
  split at h
  · cases h
  · cases h
    exact ⟨_, Site.withEntries_withEntries .., Folder.thins_insert hname hlock es _⟩

theorem thins_rename {old : String} (hold : old ≠ Disk.lockName) (hname : isRecordName name = false)
    (hlock : name ≠ Disk.lockName) (h : (s.withEntries es).rename old name = .ok s') :
    ∃ fs, s' = s.withEntries fs ∧ Folder.Thins es fs := by
  unfold Site.rename at h
  rw [Site.entries_withEntries] at h
  obtain ⟨_, ⟨⟩, h⟩ := bind_eq_ok.1 h
  split at h
  · cases h
  · cases h
  · cases h
    exact ⟨_, Site.withEntries_withEntries .., (Folder.thins_erase hold es).trans
      (Folder.thins_insert hname hlock _ _)⟩

end Operations

/-! ## Steps of a handle -/

namespace Disk

variable {α β : Type}

/-- However the action ends, it only thins the entries of its site. -/
def Thinning (a : DiskM α) : Prop := ∀ d s es, d.site = Site.withEntries es s →
  ∃ fs, (a d).2.site = s.withEntries fs ∧ Folder.Thins es fs

theorem Keeps.thinning {a : DiskM α} (h : Keeps a) : Thinning a := by
  intro d s es hd
  rw [h d]
  exact ⟨es, hd, .refl es⟩

theorem thinning_setMemo (m : Memo) : Thinning (setMemo m) := fun _ _ es hd => ⟨es, hd, .refl es⟩

theorem Thinning.bind {a : DiskM α} {f : α → DiskM β} (ha : Thinning a)
    (hf : ∀ x, Thinning (f x)) : Thinning (a >>= f) := by
  intro d s es hd
  obtain ⟨fs, hfs, hthins⟩ := ha d s es hd
  cases h : a d with
  | mk r d' =>
    rw [h] at hfs
    cases r with
    | error fault =>
      rw [bind_of_error h]
      exact ⟨fs, hfs, hthins⟩
    | ok x =>
      rw [bind_of_ok h]
      obtain ⟨gs, hgs, hthins'⟩ := hf x d' s fs hfs
      exact ⟨gs, hgs, hthins.trans hthins'⟩

/-- The site that a file operation leaves is put in the place of the one before. -/
theorem thins_change {name : String} {d : Disk} {s : Site} {es : Folder} {r : Except Cause Site}
    (hd : d.site = s.withEntries es)
    (hr : ∀ s', r = .ok s' → ∃ fs, s' = s.withEntries fs ∧ Folder.Thins es fs)
    {f : Unit → DiskM α} (hf : Thinning (f ())) :
    ∃ fs, ((orFailAt name r >>= fun s => setSite s >>= f) d).2.site = s.withEntries fs
      ∧ Folder.Thins es fs := by
  cases r with
  | error cause => exact ⟨es, hd, .refl es⟩
  | ok s' =>
    obtain ⟨fs, hfs, hthins⟩ := hr s' rfl
    obtain ⟨gs, hgs, hthins'⟩ := hf { d with site := s' } s fs hfs
    exact ⟨gs, hgs, hthins.trans hthins'⟩

theorem thinning_removeRecord {name : String} (hname : isRecordName name = true) :
    Thinning (removeRecord name) := by
  intro d s es hd
  have hlock : name ≠ lockName := by
    rintro rfl
    cases hname
  unfold removeRecord
  rw [get_bind, hd]
  exact thins_change (f := Pure.pure) hd (fun _ => thins_removeFile hlock) (Keeps.pure ()).thinning

theorem thinning_forM_removeRecord {names : List String}
    (hnames : ∀ name ∈ names, isRecordName name = true) : Thinning (names.forM removeRecord) := by
  induction names with
  | nil => exact (Keeps.pure ()).thinning
  | cons name names ih =>
    exact (thinning_removeRecord (hnames name List.mem_cons_self)).bind fun _ =>
      ih fun name hname => hnames name (List.mem_cons_of_mem _ hname)

theorem thinning_replaceFile {name : String} (hname : isRecordName name = false)
    (hlock : name ≠ lockName) (text : String) : Thinning (replaceFile name text) := by
  intro d s es hd
  unfold replaceFile
  rw [get_bind, hd]
  refine thins_change hd
    (fun _ => thins_write (isRecordName_draft name) (draft_ne_lockName name)) ?_
  intro d₁ s₁ fs hd₁
  rw [get_bind, hd₁]
  exact thins_change (f := Pure.pure) hd₁
    (fun _ => thins_rename (draft_ne_lockName name) hname hlock) (Keeps.pure ()).thinning

theorem isRecordName_of_recordNames {d d' : Disk} {names : List String}
    (h : recordNames d = (.ok names, d')) : ∀ name ∈ names, isRecordName name = true := by
  unfold recordNames at h
  rw [get_bind] at h
  cases hall : d.site.names with
  | error cause =>
    simp only [hall] at h
    cases h
  | ok all =>
    simp only [hall] at h
    cases h
    exact fun name hname => (List.mem_filter.1 hname).2

theorem thinning_clearLocked : Thinning clearLocked := by
  intro d s es hd
  unfold clearLocked
  have hkeeps := keeps_recordNames d
  cases hnames : recordNames d with
  | mk r d' =>
    rw [hnames] at hkeeps
    obtain rfl : d' = d := hkeeps
    cases r with
    | error fault =>
      rw [bind_of_error hnames]
      exact ⟨es, hd, .refl es⟩
    | ok names =>
      rw [bind_of_ok hnames]
      have hremove := thinning_forM_removeRecord (isRecordName_of_recordNames hnames)
      have hrest : Thinning (readEpoch >>= fun epoch =>
          writeEpoch ((epoch + 1) % UInt64.size) >>= fun _ =>
            setMemo ⟨(epoch + 1) % UInt64.size, []⟩) :=
        keeps_readEpoch.thinning.bind fun _ =>
          (thinning_replaceFile (by decide) (by decide) _).bind fun _ => thinning_setMemo _
      exact hremove.bind (fun _ => hrest) d' s es hd

/-- The lock is given back: of what was in the folder only record files and the lock are gone. -/
theorem withLock_thins {a : DiskM α} (ha : Thinning a) {d : Disk} {r : Except Fault α} {d' : Disk}
    (h : withLock a d = (r, d')) :
    (∃ fault host, r = .error fault ∧ d' = ⟨d.store, d.site.make.1, host⟩
      ∧ ∀ es, d.site.make.2 = .ok es → lockName ∈ OrderedMap.keys es)
    ∨ ∃ es host fs, d.Opened es host ∧ Folder.Thins (locked es host) fs
      ∧ d'.site = d.site.make.1.withEntries (unlocked fs) := by
  rcases withLock_cases h with hrefused | ⟨es, host, d₂, opened, hact, rfl⟩
  · exact Or.inl hrefused
  · obtain ⟨fs, hfs, hthins⟩ := ha (d.leaving d.store.memo (locked es host) host) _ _ rfl
    rw [hact] at hfs
    have hlock : OrderedMap.get? fs lockName = some (lockNode host) :=
      hthins.lock.trans (get?_locked es host)
    refine Or.inr ⟨es, host, fs, opened, hthins, ?_⟩
    rw [dropLock_of_locked hfs hlock]

/-- However a clear ends, it has left the folder alone or thinned it. -/
theorem thins_clear (d : Disk) : (clear d).2.site.contents = d.site.contents
    ∨ ∃ host fs, Folder.Thins (locked d.site.contents host) fs
      ∧ (clear d).2.site.contents = unlocked fs := by
  unfold clear
  rw [get_bind]
  split
  · cases hrun : withLock clearLocked d with
    | mk r d' =>
      rcases withLock_thins thinning_clearLocked hrun with
        ⟨fault, host, -, rfl, -⟩ | ⟨es, host, fs, opened, hthins, hsite⟩
      · exact Or.inl (Site.contents_make d.site)
      · rw [← Site.contents_of_make opened.made] at hthins
        exact Or.inr ⟨host, fs, hthins, by rw [hsite, Site.contents_withEntries]⟩
  · exact Or.inl rfl

end Disk
end NestedStyles.Cache
