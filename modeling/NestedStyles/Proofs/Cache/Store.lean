import NestedStyles.Proofs.Cache.Disk
import NestedStyles.Cache.Store
/-!
# Actions that only ask for tokens

An action is `Fetching` if it is put together from `Store.fetch`. What it does to a table in memory,
it does to the table of a folder as well, with the same result; `Follows` is this property of an
action.

* the constructors of `Fetching` say what such actions are, `Closed` what a property must have to
  hold of all that is put together from parts with it;
* `Fetching.follows`: all of them have the property, as `Follows.bind` keeps it;
* `follows_count`: of the other operations of a store only `Store.clear` does not have it.

In memory such an action makes the table grow; the entries that are there stay in their places.
-/
namespace NestedStyles.Cache

variable {α β : Type}

/-! ## Growing tables -/

/-- A table starts with another one and repeats no key, unless that one does. -/
structure Table.Grows (t t' : Table) : Prop where
  starts : t <+: t'
  nodup : (OrderedMap.keys t).Nodup → (OrderedMap.keys t').Nodup

theorem Table.Grows.refl (t : Table) : t.Grows t := ⟨List.prefix_refl t, id⟩

theorem Table.Grows.trans {t t' t'' : Table} (h : t.Grows t') (h' : t'.Grows t'') : t.Grows t'' :=
  ⟨h.starts.trans h'.starts, h'.nodup ∘ h.nodup⟩

theorem Table.Grows.length_le {t t' : Table} (h : t.Grows t') : t.length ≤ t'.length :=
  h.starts.length_le

theorem Table.Grows.get? {t t' : Table} (h : t.Grows t') {key token : String}
    (hk : OrderedMap.get? t key = some token) : OrderedMap.get? t' key = some token := by
  obtain ⟨more, rfl⟩ := h.starts
  exact OrderedMap.get?_append_of_eq_some hk more

theorem Table.grows_fetch (t : Table) (key : String) (compute : List String → String) :
    t.Grows (t.fetch key compute).2 := by
  cases hk : OrderedMap.get? t key with
  | some token =>
    rw [Table.fetch_of_get?_eq_some hk]
    exact Table.Grows.refl t
  | none =>
    have hkey := OrderedMap.get?_eq_none_iff.1 hk
    have hins := OrderedMap.insert_of_not_mem hkey (compute (OrderedMap.keys t))
    rw [Table.fetch_of_not_mem hkey]
    refine ⟨List.prefix_append _ _, fun hn => ?_⟩
    rw [← hins]
    exact OrderedMap.nodup_keys_update hn key _

theorem Ledger.WF.grow {l : Ledger} (hw : l.WF) {t : Table} (h : l.table.Grows t)
    (ht : t.length ≤ UInt64.size) :
    (l.withTable t).WF := ⟨h.nodup hw.nodup, ht, hw.epoch_lt⟩

/-! ## What operations leave -/

theorem Disk.Leaves.refl {d : Disk} {l : Ledger} (hs : Site.Shows d.site l)
    (hm : d.store.memo.Valid l) :
    Disk.Leaves d d l := ⟨rfl, Or.inl rfl, hs, hm⟩

theorem Disk.Leaves.trans {d d' d'' : Disk} {l l' : Ledger} (h : Disk.Leaves d d' l)
    (h' : Disk.Leaves d' d'' l') : Disk.Leaves d d'' l' where
  store := by rw [h'.store, h.store]
  site := by
    rcases h'.site with hs | hs
    · rw [hs]
      exact h.site
    · exact Or.inr hs
  shows := h'.shows
  memo := h'.memo

/-! ## Actions -/

/-- An action makes a table in memory grow, and does the same to the table of a folder that has room
for it. -/
def Follows (a : StoreM α) : Prop := ∀ t : Table, ∃ (r : Except Fault α) (t' : Table),
  a (.memory t) = (r, .memory t') ∧ t.Grows t'
    ∧ ∀ (d : Disk) (l : Ledger), l.table = t → Site.Shows d.site l → l.WF → d.store.memo.Valid l →
      t'.length ≤ UInt64.size → ∃ d', a (.disk d) = (r, .disk d')
        ∧ Disk.Leaves d d' (l.withTable t')

/-- A result that asks for nothing. -/
theorem follows_result (r : Except Fault α) : Follows (ExceptT.mk (Pure.pure r) : StoreM α) :=
  fun t => ⟨r, t, rfl, Table.Grows.refl t,
    fun d _ ht hs _ hm _ => ⟨d, rfl, by subst ht; exact Disk.Leaves.refl hs hm⟩⟩

theorem Follows.bind {a : StoreM α} {f : α → StoreM β} (ha : Follows a) (hf : ∀ x, Follows (f x)) :
    Follows (a >>= f) := by
  intro t
  obtain ⟨r, t₁, hmem, hgrows, hdisk⟩ := ha t
  cases r with
  | error e =>
    refine ⟨.error e, t₁, bind_of_error hmem, hgrows, fun d l ht hs hw hm hlen => ?_⟩
    obtain ⟨d', hd', hleaves⟩ := hdisk d l ht hs hw hm hlen
    exact ⟨d', bind_of_error hd', hleaves⟩
  | ok x =>
    obtain ⟨r, t₂, hmem', hgrows', hdisk'⟩ := hf x t₁
    refine ⟨r, t₂, ?_, hgrows.trans hgrows', fun d l ht hs hw hm hlen => ?_⟩
    · rw [bind_of_ok hmem, hmem']
    · have hlen' : t₁.length ≤ UInt64.size := Nat.le_trans hgrows'.length_le hlen
      obtain ⟨d₁, hd₁, hleaves⟩ := hdisk d l ht hs hw hm hlen'
      obtain ⟨d₂, hd₂, hleaves'⟩ :=
        hdisk' d₁ (l.withTable t₁) rfl hleaves.shows (hw.grow (ht ▸ hgrows) hlen') hleaves.memo hlen
      exact ⟨d₂, by rw [bind_of_ok hd₁, hd₂], hleaves.trans hleaves'⟩

theorem follows_fetch (key : String) (compute : List String → String) :
    Follows (Store.fetch key compute) := by
  intro t
  refine ⟨.ok (t.fetch key compute).1, (t.fetch key compute).2, rfl, t.grows_fetch key compute,
    fun d l ht hs hw hm _ => ?_⟩
  subst ht
  obtain ⟨d', hd', hleaves, -⟩ := Disk.fetch_spec hs hw hm key compute
  refine ⟨d', ?_, hleaves⟩
  unfold Store.fetch
  simp only [hd']

/-! ## Asking for tokens -/

/-- The action asks a store for tokens, if for anything. -/
inductive Fetching : {α : Type} → StoreM α → Prop
  | result {α : Type} (r : Except Fault α) : Fetching (ExceptT.mk (Pure.pure r) : StoreM α)
  | fetch (key : String) (compute : List String → String) : Fetching (Store.fetch key compute)
  | bind {α β : Type} {a : StoreM α} {f : α → StoreM β} (ha : Fetching a)
      (hf : ∀ x, Fetching (f x)) : Fetching (a >>= f)

theorem Fetching.pure (x : α) : Fetching (Pure.pure x : StoreM α) := .result (.ok x)

/-- A property of actions that results have and that is kept when actions follow each other. -/
structure Closed (P : (α : Type) → StoreM α → Prop) : Prop where
  result : ∀ {α : Type} (r : Except Fault α), P α (ExceptT.mk (Pure.pure r))
  bind : ∀ {α β : Type} {a : StoreM α} {f : α → StoreM β}, P α a → (∀ x, P β (f x)) →
    P β (a >>= f)

section Closed

variable {P : (α : Type) → StoreM α → Prop}

theorem Closed.pure (h : Closed P) (x : α) : P α (Pure.pure x) := h.result (.ok x)

theorem Closed.mapM (h : Closed P) {f : α → StoreM β} (hf : ∀ x, P β (f x)) (xs : List α) :
    P (List β) (xs.mapM f) := by
  induction xs with
  | nil => exact h.pure []
  | cons x xs ih =>
    rw [List.mapM_cons]
    exact h.bind (hf x) fun y => h.bind ih fun ys => h.pure (y :: ys)

end Closed

theorem closed_fetching : Closed fun _ => Fetching := ⟨.result, .bind⟩

/-- An action that has one result, and leaves every store as it is. -/
def Still (a : StoreM α) : Prop := ∃ r, ∀ s, a s = (r, s)

theorem closed_still : Closed fun _ => Still where
  result r := ⟨r, fun _ => rfl⟩
  bind := by
    rintro α β a f ⟨r, ha⟩ hf
    cases r with
    | error fault => exact ⟨.error fault, fun s => bind_of_error (ha s)⟩
    | ok x =>
      obtain ⟨r, hx⟩ := hf x
      exact ⟨r, fun s => (bind_of_ok (ha s)).trans (hx s)⟩

/-- What only asks for tokens does the same in memory and in a folder. -/
theorem Fetching.follows {a : StoreM α} (h : Fetching a) : Follows a := by
  induction h with
  | result r => exact follows_result r
  | fetch key compute => exact follows_fetch key compute
  | bind ha hf iha ihf => exact iha.bind ihf

theorem follows_count : Follows Store.count := by
  intro t
  refine ⟨_, _, rfl, Table.Grows.refl t, fun d l ht hs _ hm _ => ⟨d, ?_, ?_⟩⟩
  · unfold Store.count
    simp only [Disk.count_spec hs, ht]
  · subst ht
    exact Disk.Leaves.refl hs hm

end NestedStyles.Cache
