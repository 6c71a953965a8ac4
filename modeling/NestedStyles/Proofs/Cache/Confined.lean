import NestedStyles.Proofs.Cache.Clear
import NestedStyles.Proofs.Cache.Persist
import NestedStyles.Proofs.Storage.Place
/-!
# What a table can touch

Whatever is done with a table on disk, the handle stays with its folder, only files in that folder
change, and no folder is lost. This holds of every step, so it does not matter at which one an
action fails.

* `Tethered` is an action on a handle that stays with the folder (`tethered_clear`), `Confined` one
  on a store (`Fetching.confined`, `confined_clear`);
* `Confined.spares_use`: run in a workspace, it spares every file outside the handle's folder.

The empty path is left out: it leads to no folder, though its files are those of the home folder.
-/
namespace NestedStyles.Cache

open Storage (Cause FileTree Folder Host Node Path.IsName Path.join Site)
open Storage.FileTree (Spares)
open Storage.Folder (KeepsFolders)

/-! ## File operations in a folder -/

section Operations

variable {s s' : Site} {es fs : Folder}

/-- Where a file operation succeeds, at a path that is not empty, there is a folder, which gets
other entries. -/
theorem folder_of_entries (hs : ∀ es, s ≠ .home es) {f : Folder → Except Cause Site}
    (h : s.entries >>= f = .ok s') : ∃ es, s = .folder es ∧ f es = .ok s' := by
  cases s with
  | folder es => exact ⟨es, rfl, h⟩
  | home es => exact absurd rfl (hs es)
  | occupied => cases h
  | absent cause made tried => cases h

theorem keepsFolders_insert {name : String} (hname : ∀ inner, OrderedMap.get? es name
    ≠ some (.folder inner)) (node : Node) : KeepsFolders es (OrderedMap.insert es name node) := by
  intro other inner hother
  have hne : name ≠ other := by
    rintro rfl
    exact hname inner hother
  rwa [OrderedMap.get?_insert_of_ne hne]

theorem keepsFolders_erase {name : String}
    (hname : ∀ inner, OrderedMap.get? es name ≠ some (.folder inner)) :
    KeepsFolders es (OrderedMap.erase es name) := by
  intro other inner hother
  have hne : name ≠ other := by
    rintro rfl
    exact hname inner hother
  rwa [OrderedMap.get?_erase_of_ne hne]

theorem becomes_of_removeFile {name : String} (hs : ∀ es, s ≠ .home es)
    (h : s.removeFile name = .ok s') : Becomes s s' := by
  obtain ⟨es, rfl, hf⟩ := folder_of_entries hs h
  split at hf
  · cases hf
  · cases hf
  · rename_i hfile
    cases hf
    exact .made rfl (keepsFolders_erase fun inner hinner => by cases hfile.symm.trans hinner)

theorem becomes_of_write {name text : String} {now : Int} (hs : ∀ es, s ≠ .home es)
    (h : s.write name text now = .ok s') :
    Becomes s s' ∧ ∃ fs, s' = .folder fs ∧ Storage.Folder.IsFile fs name := by
  obtain ⟨es, rfl, hf⟩ := folder_of_entries hs h
  split at hf
  · cases hf
  · rename_i hfree
    cases hf
    exact ⟨.made rfl (keepsFolders_insert hfree _), _, rfl, _, _, OrderedMap.get?_insert_self ..⟩

/-- A file that gets another name is not in the place of a folder. -/
theorem becomes_of_rename {old new : String} {es : Folder} (hold : Storage.Folder.IsFile es old)
    (h : (Site.folder es).rename old new = .ok s') : Becomes (.folder es) s' := by
  obtain ⟨contents, time, hfile⟩ := hold
  obtain ⟨_, hes, h⟩ := folder_of_entries (s := .folder es) nofun h
  cases hes
  split at h
  · cases h
  · cases h
  · rename_i hfree
    cases h
    refine .made rfl fun other inner hother => ?_
    have hnew : new ≠ other := by
      rintro rfl
      exact hfree inner hother
    have hne : old ≠ other := by
      rintro rfl
      cases hfile.symm.trans hother
    rwa [OrderedMap.get?_insert_of_ne hnew, OrderedMap.get?_erase_of_ne hne]

end Operations

/-! ## Steps of a handle -/

namespace Disk

variable {α β : Type}

/-- The handle has stayed with its folder. -/
structure Stays (d d' : Disk) : Prop where
  dir : d'.store.dir = d.store.dir
  becomes : Becomes d.site d'.site

theorem Stays.refl (d : Disk) : Stays d d := ⟨rfl, .same⟩

theorem Stays.trans {d d' d'' : Disk} (h : Stays d d') (h' : Stays d' d'') : Stays d d'' :=
  ⟨h'.dir.trans h.dir, h.becomes.trans h'.becomes⟩

/-- However the action ends, the handle stays with its folder. -/
def Tethered (a : DiskM α) : Prop := ∀ d, (∀ es, d.site ≠ .home es) → Stays d (a d).2

theorem Keeps.tethered {a : DiskM α} (h : Keeps a) : Tethered a := by
  intro d _
  rw [h d]
  exact .refl d

theorem tethered_setMemo (m : Memo) : Tethered (setMemo m) := fun _ _ => ⟨rfl, .same⟩

theorem Tethered.bind {a : DiskM α} {f : α → DiskM β} (ha : Tethered a)
    (hf : ∀ x, Tethered (f x)) : Tethered (a >>= f) := by
  intro d hd
  have hfirst := ha d hd
  cases h : a d with
  | mk r d' =>
    rw [h] at hfirst
    cases r with
    | error fault =>
      rw [bind_of_error h]
      exact hfirst
    | ok x =>
      rw [bind_of_ok h]
      exact hfirst.trans (hf x d' (hfirst.becomes.ne_home hd))

/-- The site that a file operation leaves is put in the place of the one before. -/
theorem stays_change {name : String} {d : Disk} {r : Except Cause Site}
    (hr : ∀ s, r = .ok s → Becomes d.site s) {f : Unit → DiskM α}
    (hf : ∀ s, r = .ok s → Stays { d with site := s } (f () { d with site := s }).2) :
    Stays d ((orFailAt name r >>= fun s => setSite s >>= f) d).2 := by
  cases r with
  | error cause => exact .refl d
  | ok s =>
    have hchanged : Stays d { d with site := s } := ⟨rfl, hr s rfl⟩
    exact hchanged.trans (hf s rfl)

theorem tethered_removeRecord (name : String) : Tethered (removeRecord name) := by
  intro d hd
  unfold removeRecord
  rw [get_bind]
  exact stays_change (f := Pure.pure) (fun s hs => becomes_of_removeFile hd hs) fun s _ => .refl _

theorem tethered_forM_removeRecord (names : List String) : Tethered (names.forM removeRecord) := by
  induction names with
  | nil => exact (Keeps.pure ()).tethered
  | cons name names ih => exact (tethered_removeRecord name).bind fun _ => ih

theorem tethered_replaceFile (name text : String) : Tethered (replaceFile name text) := by
  intro d hd
  unfold replaceFile
  rw [get_bind]
  refine stays_change (fun s hs => (becomes_of_write hd hs).1) fun s hs => ?_
  obtain ⟨hbecomes, fs, rfl, hfile⟩ := becomes_of_write hd hs
  rw [get_bind]
  exact stays_change (f := Pure.pure) (fun s hs => becomes_of_rename hfile hs) fun s _ => .refl _

theorem tethered_clearLocked : Tethered clearLocked :=
  keeps_recordNames.tethered.bind fun names => (tethered_forM_removeRecord names).bind fun _ =>
    keeps_readEpoch.tethered.bind fun _ => (tethered_replaceFile _ _).bind fun _ =>
      tethered_setMemo _

theorem stays_dropLock {d : Disk} (hd : ∀ es, d.site ≠ .home es) : Stays d (dropLock d).2 := by
  rw [dropLock, modify_apply]
  cases hr : d.site.removeFile lockName with
  | error cause => exact .refl d
  | ok s => exact ⟨rfl, becomes_of_removeFile hd hr⟩

theorem Opened.becomes_locked {d : Disk} {es : Folder} {host : Host} (h : d.Opened es host)
    (hd : ∀ es, d.site ≠ .home es) (memo : Memo) :
    Becomes d.site (d.leaving memo (locked es host) host).site := by
  rw [leaving, make_of_ok hd h.made]
  refine .made h.made fun name inner hget => ?_
  rwa [get?_locked_of_ne host (h.ne_lockName hget)]

/-- Neither taking the lock nor giving it back leads a handle away from its folder. -/
theorem Tethered.withLock {a : DiskM α} (ha : Tethered a) : Tethered (withLock a) := by
  intro d hd
  cases hrun : Disk.withLock a d with
  | mk r d' =>
    rcases withLock_cases hrun with ⟨fault, host, -, rfl, -⟩ | ⟨es, host, d₂, opened, hact, rfl⟩
    · exact ⟨rfl, becomes_make hd⟩
    · have htaken : Stays d (d.leaving d.store.memo (locked es host) host) :=
        ⟨rfl, opened.becomes_locked hd _⟩
      have hinside := ha _ (htaken.becomes.ne_home hd)
      rw [hact] at hinside
      have hdone := htaken.trans hinside
      exact hdone.trans (stays_dropLock (hdone.becomes.ne_home hd))

theorem tethered_clear : Tethered clear := by
  intro d hd
  unfold clear
  rw [get_bind]
  split
  · exact tethered_clearLocked.withLock d hd
  · exact tethered_setMemo _ d hd

end Disk

/-! ## Actions on a store -/

variable {α : Type}

/-- On a table on disk, the action leaves one whose handle has stayed with its folder. -/
def Confined (a : StoreM α) : Prop := ∀ d : Disk, (∀ es, d.site ≠ .home es) →
  ∃ r d', a (.disk d) = (r, .disk d') ∧ Disk.Stays d d'

theorem confined_clear : Confined Store.clear := fun d hd =>
  ⟨_, _, rfl, Disk.tethered_clear d hd⟩

theorem Fetching.confined {a : StoreM α} (h : Fetching a) : Confined a := by
  intro d hd
  obtain ⟨r, d', hrun, hkept, -⟩ := h.persists d hd
  exact ⟨r, d', hrun, hkept.dir, hkept.becomes⟩

/-! ## Workspaces -/

/-- The path of the folder of a handle, if it has one. -/
def Handle.dir? : Handle → Option String
  | .memory _ => none
  | .disk store => some store.dir

/-- The location is not in the folder of the handle. -/
def Handle.Clear (h : Handle) (t : FileTree) (location : List String) : Prop :=
  ∀ dir, h.dir? = some dir → ¬t.place dir <+: location

/-- The folder of a handle, if it has one, has a path that ends in a name. -/
def Handle.Placed (h : Handle) : Prop :=
  ∀ dir, h.dir? = some dir → ∃ base name, Path.IsName name ∧ dir = Path.join base name

/-- What becomes of a site spares all files outside its place. -/
theorem Becomes.spares_setSite {t : FileTree} {dir name : String} (hn : Path.IsName name) {s : Site}
    (h : Becomes (t.site (Path.join dir name)) s) :
    Spares (fun location => ¬t.place (Path.join dir name) <+: location) t
      (t.setSite (Path.join dir name) s) := by
  cases h with
  | same =>
    rw [FileTree.setSite_site hn]
    exact .refl _ t
  | made made keeps => exact FileTree.spares_setSite_folder hn made keeps
  | failed failed =>
    generalize t.site (Path.join dir name) = s at failed ⊢
    cases s with
    | folder es => cases failed
    | home es => cases failed
    | occupied => exact .refl _ t
    | absent cause made tried =>
      cases made with
      | ok es => cases failed
      | error why => exact FileTree.spares_makeFolders _ t _

/-- An action on the table of a handle spares all files outside its folder. -/
theorem Confined.spares_use {a : StoreM α} (ha : Confined a) (w : Workspace) {h : Handle}
    (hplaced : h.Placed) :
    (w.use h a).2.1.dir? = h.dir? ∧ Spares (h.Clear w.tree) w.tree (w.use h a).2.2.tree := by
  cases h with
  | memory name =>
    unfold Workspace.use
    dsimp only
    split <;> exact ⟨rfl, .refl _ _⟩
  | disk store =>
    obtain ⟨base, name, hn, hdir⟩ := hplaced store.dir rfl
    obtain ⟨r, d', hrun, hstays⟩ := ha ⟨store, w.tree.site store.dir, w.host⟩
      (by rw [hdir]; exact FileTree.site_ne_home (Storage.Path.join_ne_empty hn base))
    have hspares : Spares (fun location => ¬w.tree.place store.dir <+: location) w.tree
        (w.tree.setSite store.dir d'.site) := by
      have hbecomes := hstays.becomes
      rw [hdir] at hbecomes ⊢
      exact hbecomes.spares_setSite hn
    unfold Workspace.use
    dsimp only
    rw [hrun]
    exact ⟨congrArg some hstays.dir, hspares.mono fun location hl => hl store.dir rfl⟩

end NestedStyles.Cache
