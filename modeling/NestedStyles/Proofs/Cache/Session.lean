import NestedStyles.Proofs.Cache.Store
import NestedStyles.Proofs.Storage.Site
/-!
# Handles on one table

A session is any number of handles on one table, in memory or in a folder, with the workspace that
they share. Requests come in any order through any of the handles, and handles are opened at any
time.

* `Session.perform` and `Session.run` are one request and a list of them; `Request.onTable` and
  `onTable` say what they do to a table;
* `Session.Holds` is the invariant: the table is in memory, or the folder shows a ledger for which
  every handle's memo is valid;
* `Session.use_spec`: an action that only asks for tokens keeps it (`Follows`);
* `Session.perform_spec`, `Session.run_spec`: every request is answered as the table answers it, and
  the invariant is kept, while the folder has room.

A folder has room as long as its epoch has not come round and its record numbers fit into 64 bits
(`Location.Fits`). Before the first request the folder is not there, but could be made
(`Location.Fresh`).
-/
namespace NestedStyles.Cache

open Storage (FileTree Folder Host Path.IsName Path.join)

/-! ## Sessions -/

/-- Where a table is: in memory, by its name, or in the folder `name` of the folder `dir`. -/
inductive Location where
  | memory (name : String)
  | disk (dir name : String)

/-- A handle that has read nothing yet. -/
def Location.handle (lockTimeout staleAfter : Nat) : Location → Handle
  | memory name => .memory name
  | disk dir name => .disk { DiskStore.inFolder dir name with lockTimeout, staleAfter }

/-- Handles, by number, and the workspace that they share. -/
structure Session where
  handles : Nat → Handle
  workspace : Workspace

namespace Session

def setHandle (s : Session) (i : Nat) (h : Handle) : Session :=
  { s with handles := fun j => if j = i then h else s.handles j }

def use {α : Type} (s : Session) (i : Nat) (action : StoreM α) : Except Fault α × Session :=
  let (result, handle, workspace) := s.workspace.use (s.handles i) action
  (result, { s.setHandle i handle with workspace })

/-- A session whose handles have read nothing yet. -/
def start (loc : Location) (w : Workspace) : Session :=
  ⟨fun _ => loc.handle (10 * Host.second) (8 * Host.second), w⟩

end Session

/-- What is asked of a session. -/
inductive Request where
  /-- A new handle, in place of an earlier one with its number. -/
  | attach (i lockTimeout staleAfter : Nat)
  | fetch (i : Nat) (key : String) (compute : List String → String)
  | clear (i : Nat)
  | count (i : Nat)

inductive Answer where
  | done
  | token (text : String)
  | count (n : Nat)
  deriving DecidableEq, Repr

/-- Performs a request on the table at a location. -/
def Session.perform (loc : Location) (s : Session) : Request → Except Fault Answer × Session
  | .attach i lockTimeout staleAfter =>
    (.ok .done, s.setHandle i (loc.handle lockTimeout staleAfter))
  | .fetch i key compute =>
    let (result, s) := s.use i (Store.fetch key compute)
    (result.map .token, s)
  | .clear i =>
    let (result, s) := s.use i Store.clear
    (result.map fun _ => .done, s)
  | .count i =>
    let (result, s) := s.use i Store.count
    (result.map .count, s)

/-- Performs requests one after the other: the answers, and the session afterwards. -/
def Session.run (loc : Location) (s : Session) : List Request → List (Except Fault Answer) × Session
  | [] => ([], s)
  | r :: rs =>
    let (answer, s) := s.perform loc r
    let (answers, s) := s.run loc rs
    (answer :: answers, s)

/-! ## What requests do to a table -/

/-- What a table answers, and what becomes of it. -/
def Request.onTable (t : Table) : Request → Answer × Table
  | .attach _ _ _ => (.done, t)
  | .fetch _ key compute => (.token (t.fetch key compute).1, (t.fetch key compute).2)
  | .clear _ => (.done, [])
  | .count _ => (.count t.length, t)

/-- What a table answers to requests one after the other, and what becomes of it. -/
def onTable (t : Table) : List Request → List Answer × Table
  | [] => ([], t)
  | r :: rs => ((r.onTable t).1 :: (onTable (r.onTable t).2 rs).1, (onTable (r.onTable t).2 rs).2)

def Request.isClear : Request → Bool
  | .clear _ => true
  | _ => false

def Request.isFetch : Request → Bool
  | .fetch _ _ _ => true
  | _ => false

theorem countP_cons (p : Request → Bool) (r : Request) (rs : List Request) :
    (r :: rs).countP p = [r].countP p + rs.countP p := by
  rw [← List.countP_append, List.singleton_append]

theorem Table.length_fetch_le (t : Table) (key : String) (compute : List String → String) :
    (t.fetch key compute).2.length ≤ t.length + 1 := by
  cases hk : OrderedMap.get? t key with
  | some token =>
    rw [Table.fetch_of_get?_eq_some hk]
    exact Nat.le_succ _
  | none =>
    rw [Table.fetch_of_not_mem (OrderedMap.get?_eq_none_iff.1 hk)]
    simp

/-- Only fetching makes a table longer. -/
theorem Request.length_onTable_le (t : Table) (r : Request) :
    (r.onTable t).2.length ≤ t.length + [r].countP isFetch := by
  cases r with
  | attach i lockTimeout staleAfter => exact Nat.le_refl _
  | fetch i key compute => exact t.length_fetch_le key compute
  | clear i => exact Nat.zero_le _
  | count i => exact Nat.le_refl _

theorem onTable_append (t : Table) (rs rs' : List Request) : onTable t (rs ++ rs')
    = ((onTable t rs).1 ++ (onTable (onTable t rs).2 rs').1, (onTable (onTable t rs).2 rs').2) := by
  induction rs generalizing t with
  | nil => rfl
  | cons r rs ih =>
    rw [List.cons_append, onTable, ih]
    rfl

/-- The answer to a request is that of the table by then. -/
theorem getElem?_onTable (t : Table) (rs : List Request) (i : Nat) :
    (onTable t rs).1[i]? = rs[i]?.map fun r => (r.onTable (onTable t (rs.take i)).2).1 := by
  induction rs generalizing t i with
  | nil => rfl
  | cons r rs ih =>
    cases i with
    | zero => rfl
    | succ i => exact ih _ i

theorem Session.run_append (loc : Location) (s : Session) (rs rs' : List Request) :
    s.run loc (rs ++ rs')
    = ((s.run loc rs).1 ++ ((s.run loc rs).2.run loc rs').1, ((s.run loc rs).2.run loc rs').2) := by
  induction rs generalizing s with
  | nil => rfl
  | cons r rs ih =>
    change (_ :: ((s.perform loc r).2.run loc (rs ++ rs')).1,
      ((s.perform loc r).2.run loc (rs ++ rs')).2) = _
    rw [ih]
    rfl

/-! ## The invariant -/

/-- Nothing has been kept at the location: there is no table of its name, or no folder, but one
could be made. -/
def Location.Fresh (w : Workspace) : Location → Prop
  | memory name => OrderedMap.get? w.tables name = none
  | disk dir name => Path.IsName name ∧ FileTree.Free w.tree (Path.join dir name)

/-- An empty home folder. -/
def Workspace.bare : Workspace :=
  { tree := .empty ["home"], tables := [], host := ⟨0, 0, fun _ => 0, fun _ => none, 1, false⟩ }

/-- A home folder with a file called `c`, so that no folder can be made in a folder of this name. -/
def Workspace.blocked : Workspace :=
  { Workspace.bare with
    tree := ⟨(Storage.Node.folder []).put ["home"] (.folder [("c", .file (.text "x") 0)]),
      ["home"]⟩ }

theorem fresh_bare : (Location.disk "c" "n").Fresh Workspace.bare := ⟨by decide, rfl⟩

/-- The numbers that count clears and records fit into 64 bits, if there are files that say them. -/
def Location.HasRoom (clears keys : Nat) : Location → Prop
  | memory _ => True
  | disk _ _ => clears < UInt64.size ∧ keys ≤ UInt64.size

/-- A location has room for a list of requests. -/
def Location.Fits (loc : Location) (rs : List Request) : Prop :=
  loc.HasRoom (rs.countP Request.isClear) (rs.countP Request.isFetch)

instance (loc : Location) (rs : List Request) : Decidable (loc.Fits rs) :=
  match loc with
  | .memory _ => inferInstanceAs (Decidable True)
  | .disk _ _ => inferInstanceAs (Decidable (_ ∧ _))

theorem Location.HasRoom.mono {loc : Location} {m n k j : Nat} (h : loc.HasRoom n j) (hm : m ≤ n)
    (hk : k ≤ j) : loc.HasRoom m k := by
  cases loc with
  | memory name => trivial
  | disk dir name => exact ⟨Nat.lt_of_le_of_lt hm h.1, Nat.le_trans hk h.2⟩

/-- The folder shows a ledger, and will be found again. -/
structure Session.Stands (s : Session) (dir name : String) (l : Ledger) : Prop where
  isName : Path.IsName name
  keeps : FileTree.Keeps s.workspace.tree (Path.join dir name)
  shows : Site.Shows (s.workspace.tree.site (Path.join dir name)) l

/-- A handle is one on the folder, with a memo that is valid for the ledger. -/
def Handle.Reads (h : Handle) (dir name : String) (l : Ledger) : Prop :=
  ∃ store, h = .disk store ∧ store.dir = Path.join dir name ∧ store.memo.Valid l

/-- The folder shows a ledger, and the memo of every handle is valid for it. -/
structure Session.Shares (s : Session) (dir name : String) (l : Ledger) : Prop
    extends Session.Stands s dir name l where
  handles : ∀ i, (s.handles i).Reads dir name l

/-- The table at the location is `t`, and it has been cleared at most `clears` times. -/
def Session.Holds (s : Session) (t : Table) (clears : Nat) : Location → Prop
  | .memory name => (∀ i, s.handles i = .memory name)
      ∧ (OrderedMap.get? s.workspace.tables name).getD [] = t
  | .disk dir name => ∃ l : Ledger, s.Shares dir name l ∧ l.WF ∧ l.table = t ∧ l.epoch ≤ clears

namespace Session

variable {α : Type} {s : Session} {t : Table} {clears : Nat} {loc : Location} {dir name : String}
  {l : Ledger}

theorem holds_start {w : Workspace} (h : loc.Fresh w) : (start loc w).Holds [] 0 loc := by
  cases loc with
  | memory name =>
    refine ⟨fun _ => rfl, ?_⟩
    change (OrderedMap.get? w.tables name).getD [] = []
    rw [h]
    rfl
  | disk dir name =>
    obtain ⟨hname, hfree⟩ := h
    refine ⟨{}, ⟨⟨hname, Or.inl hfree, ?_⟩, fun i => ?_⟩, Ledger.wf_empty, rfl, Nat.le_refl _⟩
    · change Site.Shows (w.tree.site _) _
      rw [hfree]
      exact ⟨rfl, rfl, rfl⟩
    · exact ⟨_, rfl, rfl, Memo.valid_new _⟩

/-! ## Actions -/

theorem use_eq {i : Nat} {store : DiskStore} (hi : s.handles i = .disk store) {action : StoreM α}
    {r : Except Fault α} {d' : Disk}
    (h : action (.disk ⟨store, s.workspace.tree.site store.dir, s.workspace.host⟩)
      = (r, .disk d')) :
    s.use i action = (r, { s.setHandle i (.disk d'.store) with workspace := { s.workspace with
      tree := s.workspace.tree.setSite store.dir d'.site, host := d'.host } }) := by
  unfold Session.use Workspace.use
  simp only [hi, h]

theorem use_disk {i : Nat} {store : DiskStore} (hi : s.handles i = .disk store) {action : StoreM α}
    {r : Except Fault α} {d' : Disk}
    (h : action (.disk ⟨store, s.workspace.tree.site store.dir, s.workspace.host⟩)
      = (r, .disk d')) :
    (s.use i action).1 = r := congrArg Prod.fst (use_eq hi h)

/-- An action that leaves every store alone has the same result through every handle. -/
theorem use_of_forall {action : StoreM α} {r : Except Fault α}
    (h : ∀ store, action store = (r, store)) (s : Session) (i : Nat) : (s.use i action).1 = r := by
  unfold Session.use Workspace.use
  cases s.handles i with
  | memory name => simp only [h]
  | disk store => simp only [h]

/-- An action through a handle has the result that it has from some store. -/
theorem exists_use_eq (s : Session) (i : Nat) (a : StoreM α) :
    ∃ store, (s.use i a).1 = (a store).1 := by
  unfold Session.use Workspace.use
  cases s.handles i with
  | memory name =>
    refine ⟨.memory ((s.workspace.tables.get? name).getD []), ?_⟩
    cases hrun : a (.memory ((s.workspace.tables.get? name).getD [])) with
    | mk r after => cases after <;> simp only [hrun]
  | disk store =>
    refine ⟨.disk ⟨store, s.workspace.tree.site store.dir, s.workspace.host⟩, ?_⟩
    cases hrun : a (.disk ⟨store, s.workspace.tree.site store.dir, s.workspace.host⟩) with
    | mk r after => cases after <;> simp only [hrun]

/-- An action through one handle, from what it does to the folder's site. -/
theorem Stands.use (h : s.Stands dir name l) {i : Nat} {store : DiskStore}
    (hi : s.handles i = .disk store) (hdir : store.dir = Path.join dir name) {action : StoreM α}
    {r : Except Fault α} {d' : Disk} {l' : Ledger}
    (hact : action (.disk ⟨store, s.workspace.tree.site (Path.join dir name), s.workspace.host⟩)
      = (r, .disk d'))
    (hleaves : Disk.Leaves ⟨store, s.workspace.tree.site (Path.join dir name), s.workspace.host⟩ d'
      l') :
    ∃ s', s.use i action = (r, s') ∧ s'.Stands dir name l' ∧ s'.handles i = .disk d'.store
      ∧ ∀ j, j ≠ i → s'.handles j = s.handles j := by
  have huse : s.use i action = (r, { s.setHandle i (.disk d'.store) with workspace :=
      { s.workspace with
        tree := s.workspace.tree.setSite (Path.join dir name) d'.site, host := d'.host } }) := by
    rw [← hdir] at hact ⊢
    exact use_eq hi hact
  refine ⟨_, huse, ?_, if_pos rfl, fun j hj => if_neg hj⟩
  rcases hleaves.site with hs | ⟨es, hs⟩
  · have hshows := hleaves.shows
    rw [hs] at hshows
    rw [hs, h.keeps.setSite_site]
    exact ⟨h.isName, h.keeps, hshows⟩
  · rw [hs]
    obtain ⟨hkeeps, hsite⟩ := h.keeps.setSite h.isName es
    exact ⟨h.isName, hkeeps, by rw [hsite, ← hs]; exact hleaves.shows⟩

theorem reads_of_leaves {d d' : Disk} (hdir : d.store.dir = Path.join dir name)
    (hleaves : Disk.Leaves d d' l) :
    (Handle.disk d'.store).Reads dir name l := by
  refine ⟨d'.store, rfl, ?_, hleaves.memo⟩
  rw [hleaves.store]
  exact hdir

/-- What an action leaves through one handle, every handle shares, if no memo becomes invalid by
it. -/
theorem Shares.use (h : s.Shares dir name l) (i : Nat) {action : StoreM α} {r : Except Fault α}
    (l' : Ledger) (hmemo : ∀ m : Memo, m.Valid l → m.Valid l')
    (hact : ∀ d : Disk, d.site = s.workspace.tree.site (Path.join dir name) → d.store.memo.Valid l →
      ∃ d', action (.disk d) = (r, .disk d') ∧ Disk.Leaves d d' l') :
    ∃ s', s.use i action = (r, s') ∧ s'.Shares dir name l' := by
  obtain ⟨store, hstore, hdir, hvalid⟩ := h.handles i
  obtain ⟨d', hd', hleaves⟩ :=
    hact ⟨store, s.workspace.tree.site (Path.join dir name), s.workspace.host⟩ rfl hvalid
  obtain ⟨s', hs', hstands, hi, hothers⟩ := h.toStands.use hstore hdir hd' hleaves
  refine ⟨s', hs', hstands, fun j => ?_⟩
  by_cases hj : j = i
  · subst hj
    rw [hi]
    exact reads_of_leaves hdir hleaves
  · obtain ⟨other, hother, hdir', hvalid'⟩ := h.handles j
    exact ⟨other, (hothers j hj).trans hother, hdir', hmemo _ hvalid'⟩

theorem use_memory {i : Nat} {action : StoreM α} {r : Except Fault α} {t' : Table}
    (h : s.Holds t clears (.memory name)) (hact : action (.memory t) = (r, .memory t')) :
    ∃ s', s.use i action = (r, s') ∧ s'.Holds t' clears (.memory name) := by
  obtain ⟨hhandles, htable⟩ := h
  have huse : s.use i action = (r, { s.setHandle i (.memory name) with
      workspace := { s.workspace with tables := s.workspace.tables.insert name t' } }) := by
    unfold Session.use Workspace.use
    simp only [hhandles i, htable, hact]
  refine ⟨_, huse, fun j => ?_, ?_⟩
  · by_cases hj : j = i
    · exact if_pos hj
    · exact (if_neg hj).trans (hhandles j)
  · exact congrArg (Option.getD · []) (OrderedMap.get?_insert_self _ name t')

/-- An action that only asks for tokens does to the table of a session what it does to a table in
memory. -/
theorem use_spec (h : s.Holds t clears loc) {action : StoreM α} (ha : Follows action)
    {r : Except Fault α} {t' : Table} (hact : action (.memory t) = (r, .memory t'))
    (hroom : loc.HasRoom clears t'.length) (i : Nat) :
    ∃ s', s.use i action = (r, s') ∧ s'.Holds t' clears loc := by
  cases loc with
  | memory name => exact use_memory h hact
  | disk dir name =>
    obtain ⟨l, hshares, hw, rfl, hepoch⟩ := h
    obtain ⟨r', t'', hmem, hgrows, hdisk⟩ := ha l.table
    obtain ⟨rfl, hstore⟩ := Prod.mk.inj (hmem.symm.trans hact)
    cases hstore
    obtain ⟨s', hs', hshares'⟩ :=
      hshares.use i (l.withTable t') (fun m hm => hm.grow fun _ _ => hgrows.get?)
      fun d hsite hvalid => hdisk d l rfl (hsite ▸ hshares.shows) hw hvalid hroom.2
    exact ⟨s', hs', l.withTable t', hshares', hw.grow hgrows hroom.2, rfl, hepoch⟩

theorem use_clear (h : s.Holds t clears loc) (hroom : loc.HasRoom (clears + 1) 0) (i : Nat) :
    ∃ s', s.use i Store.clear = (.ok (), s') ∧ s'.Holds [] (clears + 1) loc := by
  cases loc with
  | memory name => exact use_memory h rfl
  | disk dir name =>
    obtain ⟨l, hshares, hw, rfl, hepoch⟩ := h
    have hwrap : l.epoch + 1 < UInt64.size := Nat.lt_of_le_of_lt (Nat.succ_le_succ hepoch) hroom.1
    have hclear : ∀ {d d' : Disk}, Disk.clear d = (.ok (), d') →
        Store.clear (.disk d) = (.ok (), .disk d') := by
      intro d d' hd
      unfold Store.clear
      simp only [hd]
    rcases hshares.shows.cases with ⟨es, hsite, hes⟩ | ⟨⟨tried, hsite⟩, rfl⟩
    · obtain ⟨s', hs', hshares'⟩ :=
        hshares.use i l.clear (fun m hm => hm.clear hwrap) fun d hd _ => by
        obtain ⟨d', hd', hleaves⟩ := Disk.clear_spec (hd.trans hsite) hes hw
        exact ⟨d', hclear hd', hleaves⟩
      refine ⟨s', hs', l.clear, hshares', Ledger.wf_clear l, rfl, ?_⟩
      rw [Ledger.epoch_clear, Nat.mod_eq_of_lt hwrap]
      exact Nat.succ_le_succ hepoch
    · obtain ⟨s', hs', hshares'⟩ := hshares.use i {} (fun m hm => hm) fun d hd hvalid => by
        obtain ⟨d', hd', hleaves⟩ :=
          Disk.clear_absent (hd ▸ hshares.shows) (by rw [hd, hsite]; rfl) hvalid
        exact ⟨d', hclear hd', hleaves⟩
      exact ⟨s', hs', {}, hshares', hw, rfl, Nat.zero_le _⟩

theorem setHandle_spec (h : s.Holds t clears loc) (i lockTimeout staleAfter : Nat) :
    (s.setHandle i (loc.handle lockTimeout staleAfter)).Holds t clears loc := by
  cases loc with
  | memory name =>
    refine ⟨fun j => ?_, h.2⟩
    by_cases hj : j = i
    · exact if_pos hj
    · exact (if_neg hj).trans (h.1 j)
  | disk dir name =>
    obtain ⟨l, hshares, hrest⟩ := h
    refine ⟨l, ⟨⟨hshares.isName, hshares.keeps, hshares.shows⟩, fun j => ?_⟩, hrest⟩
    by_cases hj : j = i
    · exact ⟨_, if_pos hj, rfl, Memo.valid_new l⟩
    · obtain ⟨store, hstore, hdir, hvalid⟩ := hshares.handles j
      exact ⟨store, (if_neg hj).trans hstore, hdir, hvalid⟩

/-! ## Requests -/

/-- A request is answered as the table answers it. -/
theorem perform_spec (h : s.Holds t clears loc) (r : Request)
    (hroom : loc.HasRoom (clears + [r].countP Request.isClear) (r.onTable t).2.length) :
    ∃ s', s.perform loc r = (.ok (r.onTable t).1, s')
      ∧ s'.Holds (r.onTable t).2 (clears + [r].countP Request.isClear) loc := by
  cases r with
  | attach i lockTimeout staleAfter => exact ⟨_, rfl, setHandle_spec h i lockTimeout staleAfter⟩
  | fetch i key compute =>
    obtain ⟨s', hs', hholds⟩ := use_spec h (follows_fetch key compute) rfl hroom i
    refine ⟨s', ?_, hholds⟩
    unfold perform
    simp only [hs']
    rfl
  | clear i =>
    obtain ⟨s', hs', hholds⟩ := use_clear h hroom i
    refine ⟨s', ?_, hholds⟩
    unfold perform
    simp only [hs']
    rfl
  | count i =>
    obtain ⟨s', hs', hholds⟩ := use_spec h follows_count rfl hroom i
    refine ⟨s', ?_, hholds⟩
    unfold perform
    simp only [hs']
    rfl

/-- Requests are answered as the table answers them, one after the other. -/
theorem run_spec (h : s.Holds t clears loc) (rs : List Request)
    (hroom : loc.HasRoom (clears + rs.countP Request.isClear)
      (t.length + rs.countP Request.isFetch)) :
    (s.run loc rs).1 = (onTable t rs).1.map .ok
      ∧ (s.run loc rs).2.Holds (onTable t rs).2 (clears + rs.countP Request.isClear) loc := by
  induction rs generalizing s t clears with
  | nil => exact ⟨rfl, h⟩
  | cons r rs ih =>
    have hlen := r.length_onTable_le t
    rw [countP_cons Request.isClear, countP_cons Request.isFetch] at hroom
    obtain ⟨s', hs', hholds⟩ := perform_spec h r (hroom.mono (by omega) (by omega))
    obtain ⟨hanswers, hafter⟩ := ih hholds (hroom.mono (by omega) (by omega))
    have hrun : s.run loc (r :: rs)
        = (.ok (r.onTable t).1 :: (s'.run loc rs).1, (s'.run loc rs).2) := by
      rw [run, hs']
    rw [hrun, countP_cons, ← Nat.add_assoc]
    exact ⟨by rw [hanswers]; rfl, hafter⟩

/-- A session that starts with nothing kept answers as an empty table does. -/
theorem run_start {w : Workspace} (h : loc.Fresh w) (rs : List Request) (hfits : loc.Fits rs) :
    ((start loc w).run loc rs).1 = (onTable [] rs).1.map .ok
      ∧ ((start loc w).run loc rs).2.Holds (onTable [] rs).2 (rs.countP Request.isClear) loc := by
  have hroom : loc.HasRoom (0 + rs.countP Request.isClear) (0 + rs.countP Request.isFetch) := by
    rwa [Nat.zero_add, Nat.zero_add]
  have := run_spec (holds_start h) rs hroom
  rwa [Nat.zero_add] at this

end Session
end NestedStyles.Cache
