import NestedStyles.Proofs.Cache.Confined
/-!
# Tokens in the end

A store that is only asked for tokens gets more of them and loses none. So the table that it has in
the end knows all answers that were given on the way: an action that has succeeded at any time has
the same result once more on that table, in memory, whether the store was a folder or not.

* `Store.Leads`: what a store may become, `Fetching.leads`: what it does become;
* `Store.table` is what a store knows, `Fetching.on_table`: an action done again on it;
* `Workspace.store` is the store of a handle, `Fetching.leads_use` and `sound_use_clear` say what
  becomes of it.

As sequence numbers have 64 bits, all this is so in a folder with room for its records.
-/
namespace NestedStyles.Cache

variable {α : Type}

namespace Store

/-- The tokens of a store; those of a folder are in its records. -/
def table : Store → Table
  | .memory t => t
  | .disk d => ((Folder.records? d.site.contents).map tableOfRecords).getD []

/-- A folder has room for its records. -/
def HasRoom : Store → Prop
  | .memory _ => True
  | .disk d => Cache.HasRoom d.site

/-- The path of a folder is not empty. -/
def Placed : Store → Prop
  | .memory _ => True
  | .disk d => ∀ es, d.site ≠ .home es

/-- The memo of a handle on a folder holds only tokens that are served. -/
def Sound : Store → Prop
  | .memory _ => True
  | .disk d => d.store.memo.Sound d.site

/-- What a store may become: it keeps its tokens, in a folder if there is room. -/
inductive Leads : Store → Store → Prop
  | memory {t t' : Table} (grows : t.Grows t') : Leads (.memory t) (.memory t')
  | disk {d d' : Disk} (count : recordCount d.site ≤ recordCount d'.site)
      (extends_site : Cache.HasRoom d'.site → Extends d.site d'.site)
      (sound : Cache.HasRoom d'.site → d.store.memo.Sound d.site → d'.store.memo.Sound d'.site) :
      Leads (.disk d) (.disk d')

variable {s s' s'' : Store} {key token : String} {compute : List String → String}

theorem Leads.refl : ∀ s : Store, s.Leads s
  | .memory t => .memory (.refl t)
  | .disk d => .disk (Nat.le_refl _) (fun _ => .refl d.site) fun _ => id

theorem Leads.hasRoom (h : s.Leads s') (hroom : s'.HasRoom) : s.HasRoom := by
  cases h with
  | memory grows => trivial
  | disk count extends_site sound => exact count.trans hroom

theorem Leads.keeps_sound (h : s.Leads s') (hroom : s'.HasRoom) (hs : s.Sound) : s'.Sound := by
  cases h with
  | memory grows => trivial
  | disk count extends_site sound => exact sound hroom hs

theorem Leads.trans (h : s.Leads s') (h' : s'.Leads s'') : s.Leads s'' := by
  cases h with
  | memory grows => cases h' with | memory grows' => exact .memory (grows.trans grows')
  | @disk _ d' count extends_site sound =>
    cases h' with
    | @disk _ d'' count' extends_site' sound' =>
      have hroom : Cache.HasRoom d''.site → Cache.HasRoom d'.site := count'.trans
      exact .disk (count.trans count')
        (fun h => (extends_site (hroom h)).trans (extends_site' h))
        fun h hs => sound' h (sound (hroom h) hs)

/-- What is served is in the table of the folder. -/
theorem get?_table_of_serves {d : Disk} {epoch : Nat} (h : Serves d.site epoch key token) :
    OrderedMap.get? (table (.disk d)) key = some token := by
  obtain ⟨es, rs, hsite, -, -, hrs, hget⟩ := h
  have hcontents : d.site.contents = es := by rw [hsite]; rfl
  rw [table, hcontents, hrs]
  exact hget

/-- A token that has been fetched is in the table from then on. -/
theorem get?_table_of_fetch (hs : s.Sound) (h : fetch key compute s = (.ok token, s'))
    (hlead : s'.Leads s'') (hroom : s''.HasRoom) :
    OrderedMap.get? s''.table key = some token := by
  have hroom' := hlead.hasRoom hroom
  cases s with
  | memory t =>
    have hget := t.get?_fetch key compute
    cases h
    cases hlead with
    | memory grows => exact grows.get? hget
  | disk d =>
    cases hrun : Disk.fetch key compute d with
    | mk r d' =>
      have hstep : fetch key compute (.disk d) = (r, .disk d') := by
        unfold fetch
        simp only [hrun]
      cases hstep.symm.trans h
      cases hlead with
      | disk count extends_site sound =>
        obtain ⟨epoch, -, hknows⟩ := Disk.knows_of_fetch hrun
        have hsound := (Disk.fetched_fetch hrun).sound hroom' hs
        exact get?_table_of_serves
          ((extends_site hroom).serves _ _ _ (hsound key token hknows.2))

end Store

theorem Disk.memo_of_clear {d d' : Disk} (h : clear d = (.ok (), d')) :
    d'.store.memo.tokens = [] := by
  cases hpresent : d.site.isPresent with
  | false =>
    unfold clear at h
    rw [get_bind, hpresent] at h
    cases h
    rfl
  | true =>
    cases clears_clear h with
    | absent absent => cases hpresent.symm.trans absent
    | done site epoch_eq => rfl

variable {s s' F : Store} {a : StoreM α}

/-- Asking for tokens takes none away. -/
theorem Fetching.leads (ha : Fetching a) (hs : s.Placed) {r : Except Fault α}
    (h : a s = (r, s')) : s.Leads s' ∧ s'.Placed := by
  cases s with
  | memory t =>
    obtain ⟨r', t', hrun, hgrows, -⟩ := ha.follows t
    cases hrun.symm.trans h
    exact ⟨.memory hgrows, trivial⟩
  | disk d =>
    obtain ⟨r', d', hrun, hkept, -⟩ := ha.persists d hs
    cases hrun.symm.trans h
    exact ⟨.disk hkept.count hkept.extends_site hkept.sound, hkept.becomes.ne_home hs⟩

/-- What has succeeded on the way has the same result in memory on the table in the end, and adds
nothing to it. -/
theorem Fetching.on_table (ha : Fetching a) (hplaced : s.Placed) (hs : s.Sound) {x : α}
    (h : a s = (.ok x, s')) (hlead : s'.Leads F) (hroom : F.HasRoom) :
    a (.memory F.table) = (.ok x, .memory F.table) := by
  induction ha generalizing s s' with
  | result r =>
    cases h
    rfl
  | fetch key compute =>
    have hget := Store.get?_table_of_fetch hs h hlead hroom
    unfold Store.fetch
    simp only [Table.fetch_of_get?_eq_some hget]
  | bind ha hf iha ihf =>
    obtain ⟨y, s₁, hfirst, hrest⟩ := ok_of_bind h
    obtain ⟨hlead₁, hplaced₁⟩ := ha.leads hplaced hfirst
    have hlead' : s₁.Leads F := ((hf y).leads hplaced₁ hrest).1.trans hlead
    have hs₁ := hlead₁.keeps_sound (hlead'.hasRoom hroom) hs
    rw [bind_of_ok (iha hplaced hs hfirst hlead')]
    exact ihf y hplaced₁ hs₁ hrest hlead

/-! ## Workspaces -/

/-- The store that a handle stands for. -/
def Workspace.store (w : Workspace) : Handle → Store
  | .memory name => .memory ((w.tables.get? name).getD [])
  | .disk store => .disk ⟨store, w.tree.site store.dir, w.host⟩

theorem Workspace.placed_store {h : Handle} (hplaced : h.Placed) (w : Workspace) :
    (w.store h).Placed := by
  cases h with
  | memory name => trivial
  | disk store =>
    obtain ⟨base, name, hn, hdir⟩ := hplaced store.dir rfl
    have hne := Storage.Path.join_ne_empty hn base
    rw [← hdir] at hne
    exact Storage.FileTree.site_ne_home hne

/-- What an action has made of the store of a handle leads to its store in the workspace. -/
theorem Fetching.leads_use (ha : Fetching a) (w : Workspace) {h : Handle} (hplaced : h.Placed) :
    ∃ s', a (w.store h) = ((w.use h a).1, s')
      ∧ s'.Leads ((w.use h a).2.2.store (w.use h a).2.1) := by
  cases h with
  | memory name =>
    obtain ⟨r, t', hrun, -⟩ := ha.follows ((w.tables.get? name).getD [])
    refine ⟨.memory t', ?_, ?_⟩ <;> unfold Workspace.use Workspace.store <;> simp only [hrun]
    rw [OrderedMap.get?_insert_self]
    exact .refl _
  | disk store =>
    obtain ⟨base, name, hn, hdir⟩ := hplaced store.dir rfl
    obtain ⟨r, d', hrun, hkept, -⟩ := ha.persists ⟨store, w.tree.site store.dir, w.host⟩
      (Workspace.placed_store hplaced w)
    have hput : Extends d'.site ((w.tree.setSite store.dir d'.site).site store.dir) := by
      have hbecomes := hkept.becomes
      simp only [hdir] at hbecomes ⊢
      exact extends_setSite hn hbecomes
    refine ⟨.disk d', ?_, ?_⟩ <;> unfold Workspace.use Workspace.store <;> simp only [hrun]
    rw [hkept.dir]
    exact .disk hput.count (fun _ => hput) fun _ hm => hm.mono hput

/-- A handle that has cleared its table trusts nothing that it has read before. -/
theorem sound_use_clear {w : Workspace} {h : Handle} (hok : (w.use h Store.clear).1 = .ok ()) :
    ((w.use h Store.clear).2.2.store (w.use h Store.clear).2.1).Sound := by
  cases h with
  | memory name => trivial
  | disk store =>
    cases hrun : Disk.clear ⟨store, w.tree.site store.dir, w.host⟩ with
    | mk r d' =>
      have hstep : Store.clear (.disk ⟨store, w.tree.site store.dir, w.host⟩) = (r, .disk d') := by
        unfold Store.clear
        simp only [hrun]
      unfold Workspace.use at hok ⊢
      simp only [hstep] at hok ⊢
      subst hok
      intro key token hget
      rw [Disk.memo_of_clear hrun] at hget
      cases hget

end NestedStyles.Cache
