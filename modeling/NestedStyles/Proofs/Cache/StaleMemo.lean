import NestedStyles.Proofs.Cache.Session
/-!
# Memos that outlive an epoch

The epoch of a folder is a number of 64 bits. After as many clears it comes round, and a handle that
has not looked at the folder in the meantime trusts a memo of long ago: `stale_memo`. This is why a
folder has room for fewer clears only.
-/
namespace NestedStyles.Cache

open Storage (Path.join)

/-! ## Clearing again and again -/

/-- The ledger after its folder has been cleared `n` times. -/
def Ledger.clearTimes (l : Ledger) : Nat → Ledger
  | 0 => l
  | n + 1 => l.clear.clearTimes n

theorem Ledger.epoch_clearTimes {l : Ledger} (h : l.epoch < UInt64.size) (n : Nat) :
    (l.clearTimes n).epoch = (l.epoch + n) % UInt64.size := by
  induction n generalizing l with
  | zero => exact (Nat.mod_eq_of_lt h).symm
  | succ n ih =>
    rw [clearTimes, ih (wf_clear l).epoch_lt, epoch_clear, Nat.mod_add_mod, Nat.add_assoc,
      Nat.add_comm 1 n]

theorem Ledger.table_clearTimes (l : Ledger) {n : Nat} (hn : 0 < n) :
    (l.clearTimes n).table = [] := by
  induction n generalizing l with
  | zero => cases hn
  | succ n ih =>
    rw [clearTimes]
    cases n with
    | zero => rfl
    | succ n => exact ih l.clear (Nat.succ_pos n)

theorem Ledger.wf_clearTimes {l : Ledger} (h : l.WF) (n : Nat) : (l.clearTimes n).WF := by
  induction n generalizing l with
  | zero => exact h
  | succ n ih => exact ih (wf_clear l)

theorem Ledger.clear_ne_empty (l : Ledger) : l.clear ≠ {} := by
  intro h
  have := congrArg Ledger.cleared h
  cases this

namespace Session

variable {s : Session} {dir name : String} {l : Ledger} {i : Nat}

theorem Stands.clear (h : s.Stands dir name l) (hw : l.WF) (hl : l ≠ {})
    (hi : (s.handles i).Reads dir name l) :
    ∃ s', s.use i Store.clear = (.ok (), s') ∧ s'.Stands dir name l.clear
      ∧ (s'.handles i).Reads dir name l.clear ∧ ∀ j, j ≠ i → s'.handles j = s.handles j := by
  obtain ⟨store, hstore, hdir, -⟩ := hi
  rcases h.shows.cases with ⟨es, hsite, hes⟩ | ⟨-, hempty⟩
  · obtain ⟨d', hd', hleaves⟩ := Disk.clear_spec
      (d := ⟨store, s.workspace.tree.site (Path.join dir name), s.workspace.host⟩) hsite hes hw
    have hact : Store.clear
        (.disk ⟨store, s.workspace.tree.site (Path.join dir name), s.workspace.host⟩)
        = (.ok (), .disk d') := by
      unfold Store.clear
      simp only [hd']
    obtain ⟨s', hs', hstands, hhandle, hothers⟩ := h.use hstore hdir hact hleaves
    exact ⟨s', hs', hstands, hhandle ▸ reads_of_leaves hdir hleaves, hothers⟩
  · exact absurd hempty hl

/-- However often the folder is cleared through one handle, the others do not learn of it. -/
theorem run_clears (h : s.Stands dir name l) (hw : l.WF) (hl : l ≠ {})
    (hi : (s.handles i).Reads dir name l) (n : Nat) :
    ∃ s', s.run (.disk dir name) (List.replicate n (.clear i)) = (List.replicate n (.ok .done), s')
      ∧ s'.Stands dir name (l.clearTimes n) ∧ (s'.handles i).Reads dir name (l.clearTimes n)
      ∧ ∀ j, j ≠ i → s'.handles j = s.handles j := by
  induction n generalizing s l with
  | zero => exact ⟨s, rfl, h, hi, fun _ _ => rfl⟩
  | succ n ih =>
    obtain ⟨s₁, hs₁, hstands₁, hi₁, hothers₁⟩ := h.clear hw hl hi
    obtain ⟨s₂, hs₂, hstands₂, hi₂, hothers₂⟩ :=
      ih hstands₁ (Ledger.wf_clear l) l.clear_ne_empty hi₁
    refine ⟨s₂, ?_, hstands₂, hi₂, fun j hj => (hothers₂ j hj).trans (hothers₁ j hj)⟩
    have hperform : s.perform (.disk dir name) (.clear i) = (.ok .done, s₁) := by
      unfold perform
      simp only [hs₁]
      rfl
    rw [List.replicate_succ, List.replicate_succ, run, hperform]
    simp only [hs₂]

/-- A fetch through one handle, and what its memo has afterwards. -/
theorem Stands.fetch (h : s.Stands dir name l) (hw : l.WF) (hi : (s.handles i).Reads dir name l)
    (key : String) (compute : List String → String) : ∃ s' store,
      s.perform (.disk dir name) (.fetch i key compute)
        = (.ok (.token (l.table.fetch key compute).1), s')
      ∧ s'.Stands dir name (l.withTable (l.table.fetch key compute).2)
      ∧ s'.handles i = .disk store ∧ store.dir = Path.join dir name
      ∧ Disk.Knows store.memo l.epoch key (l.table.fetch key compute).1
      ∧ ∀ j, j ≠ i → s'.handles j = s.handles j := by
  obtain ⟨store, hstore, hdir, hvalid⟩ := hi
  obtain ⟨d', hd', hleaves, hknows⟩ := Disk.fetch_spec
    (d := ⟨store, s.workspace.tree.site (Path.join dir name), s.workspace.host⟩)
    h.shows hw hvalid key compute
  have hact : Store.fetch key compute
      (.disk ⟨store, s.workspace.tree.site (Path.join dir name), s.workspace.host⟩)
      = (.ok (l.table.fetch key compute).1, .disk d') := by
    unfold Store.fetch
    simp only [hd']
  obtain ⟨s', hs', hstands, hhandle, hothers⟩ := h.use hstore hdir hact hleaves
  refine ⟨s', d'.store, ?_, hstands, hhandle, ?_, hknows, hothers⟩
  · unfold perform
    simp only [hs']
    rfl
  · rw [hleaves.store]
    exact hdir

theorem perform_fetch_of_memo (h : s.Stands dir name l) (hw : l.WF) {store : DiskStore}
    (hi : s.handles i = .disk store) (hdir : store.dir = Path.join dir name) {key token : String}
    (hknows : Disk.Knows store.memo l.epoch key token) (compute : List String → String) :
    (s.perform (.disk dir name) (.fetch i key compute)).1 = .ok (.token token) := by
  have hread := Disk.readEpoch_of_shows
    (d := ⟨store, s.workspace.tree.site (Path.join dir name), s.workspace.host⟩) h.shows hw
  have hfetch : Store.fetch key compute
      (.disk ⟨store, s.workspace.tree.site store.dir, s.workspace.host⟩)
      = (.ok token, .disk ⟨store, s.workspace.tree.site store.dir, s.workspace.host⟩) := by
    unfold Store.fetch
    simp only [hdir, Disk.fetch_of_memo hread hknows compute]
  unfold perform
  simp only [use_disk hi hfetch]
  rfl

/-- After the epoch has come round, a handle still knows the token of a key that has been cleared,
which another key has by now. -/
theorem stale_handle {w : Workspace} (hfresh : (Location.disk dir name).Fresh w) {n : Nat}
    (hn : 0 < n) (hround : n % UInt64.size = 0) (a b : String) (compute : List String → String) :
    ∃ s l store,
      (start (.disk dir name) w).run (.disk dir name)
          (Request.fetch 0 a compute :: List.replicate n (Request.clear 1)
            ++ [Request.fetch 1 b compute])
        = ((Answer.token (compute []) :: List.replicate n Answer.done
          ++ [Answer.token (compute [])]).map .ok, s)
      ∧ s.Stands dir name l ∧ l.WF ∧ s.handles 0 = .disk store ∧ store.dir = Path.join dir name
      ∧ Disk.Knows store.memo l.epoch a (compute []) := by
  obtain ⟨l, hshares, hw, htable, hepoch⟩ := holds_start hfresh
  have hempty : ∀ key, Table.fetch [] key compute = (compute [], [(key, compute [])]) :=
    fun key => rfl
  -- handle 0 learns the first key
  obtain ⟨s₁, store, hfetch, hstands₁, hstore, hdir, hknows, hothers₁⟩ :=
    hshares.toStands.fetch hw (hshares.handles 0) a compute
  rw [htable, hempty] at hfetch hstands₁ hknows
  have hw₁ : (l.withTable [(a, compute [])]).WF := ⟨by simp, by simp, hw.epoch_lt⟩
  have hreads₁ : (s₁.handles 1).Reads dir name (l.withTable [(a, compute [])]) := by
    obtain ⟨other, hother, hdir', hvalid⟩ := hshares.handles 1
    refine ⟨other, (hothers₁ 1 (by decide)).trans hother, hdir', hvalid.grow ?_⟩
    rw [htable]
    intro _ _ hk
    cases hk
  have hne : l.withTable [(a, compute [])] ≠ {} := by
    intro he
    have := congrArg Ledger.table he
    cases this
  -- handle 1 clears until the epoch is the first one again
  obtain ⟨s₂, hclears, hstands₂, hreads₂, hothers₂⟩ := run_clears hstands₁ hw₁ hne hreads₁ n
  have hzero : l.epoch = 0 := Nat.le_zero.1 hepoch
  have hepoch₂ : ((l.withTable [(a, compute [])]).clearTimes n).epoch = 0 := by
    rw [Ledger.epoch_clearTimes hw₁.epoch_lt, Ledger.epoch_withTable, hzero, Nat.zero_add, hround]
  have htable₂ := (l.withTable [(a, compute [])]).table_clearTimes hn
  have hw₂ := Ledger.wf_clearTimes hw₁ n
  -- the second key gets the first token, and handle 0 still knows the first key
  obtain ⟨s₃, _, hfetch₃, hstands₃, -, -, -, hothers₃⟩ := hstands₂.fetch hw₂ hreads₂ b compute
  rw [htable₂, hempty] at hfetch₃ hstands₃
  have hstore₃ : s₃.handles 0 = .disk store := by
    rw [hothers₃ 0 (by decide), hothers₂ 0 (by decide), hstore]
  have hw₃ : (((l.withTable [(a, compute [])]).clearTimes n).withTable [(b, compute [])]).WF :=
    ⟨by simp, by simp, hw₂.epoch_lt⟩
  refine ⟨s₃, _, store, ?_, hstands₃, hw₃, hstore₃, hdir, ?_⟩
  · rw [List.cons_append, run, hfetch, List.map_append, List.map_cons, List.map_replicate]
    simp only [run_append, hclears, run, hfetch₃]
    rfl
  · rw [Ledger.epoch_withTable, hepoch₂, ← hzero]
    exact hknows

/-- So the token that it hands out is the one of the other key. -/
theorem stale_memo {w : Workspace} (hfresh : (Location.disk dir name).Fresh w) {n : Nat}
    (hn : 0 < n) (hround : n % UInt64.size = 0) (a b : String) (compute : List String → String) :
    ((start (.disk dir name) w).run (.disk dir name)
      (Request.fetch 0 a compute :: List.replicate n (Request.clear 1)
          ++ [Request.fetch 1 b compute] ++ [Request.fetch 0 a compute])).1
      = (Answer.token (compute []) :: List.replicate n Answer.done ++ [Answer.token (compute [])]
          ++ [Answer.token (compute [])]).map .ok := by
  obtain ⟨s, l, store, hrun, hstands, hw, hstore, hdir, hknows⟩ :=
    stale_handle hfresh hn hround a b compute
  have hlast := perform_fetch_of_memo hstands hw hstore hdir hknows compute
  rw [run_append, hrun]
  simp only [run, hlast, List.map_append, List.map_cons, List.map_nil]

end Session
end NestedStyles.Cache
