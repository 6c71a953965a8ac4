import Mathlib
import NestedStyles.OrderedMap
/-!
# Laws of maps that keep their order

A map without repeated keys is determined by its list of keys and by what `get?` finds under each of
them.

* `get?_update_self`, `get?_update_of_ne` and `keys_update` say what `update` does to these two
  views;
* a key that is not there is appended (`update_of_not_mem`), an entry that is not there is not
  missed by `erase` (`erase_of_not_mem`), and maps without common keys are searched one after the
  other (`get?_append_of_not_mem`);
* `All` says that a map has no key twice and that all of its entries have a property;
* `foldl_eq_eraseDups` and `foldl_eq_getLast?`: a sequence of updates leaves the keys in the order
  of their first update, and under each key what the last update of this key has put there;
* `keys_ofEntries` and `get?_ofEntries` say the same of a map built from entries.
-/
namespace NestedStyles.OrderedMap

variable {κ α ε : Type}

@[simp] theorem keys_nil : keys ([] : OrderedMap κ α) = [] := rfl

@[simp] theorem keys_cons (e : κ × α) (m : OrderedMap κ α) : keys (e :: m) = e.1 :: keys m := rfl

@[simp] theorem keys_append (m n : OrderedMap κ α) : keys (m ++ n) = keys m ++ keys n :=
  List.map_append

theorem mem_keys_of_mem {m : OrderedMap κ α} {k : κ} {v : α} (h : (k, v) ∈ m) : k ∈ keys m :=
  List.mem_map.2 ⟨(k, v), h, rfl⟩

/-- A map without repeated keys, all of whose entries have a property. -/
structure All (P : κ → α → Prop) (m : OrderedMap κ α) : Prop where
  nodup : (keys m).Nodup
  entry : ∀ e ∈ m, P e.1 e.2

theorem all_nil (P : κ → α → Prop) : All P ([] : OrderedMap κ α) :=
  ⟨List.nodup_nil, fun _ he => by cases he⟩

theorem All.mono {P Q : κ → α → Prop} {m : OrderedMap κ α} (h : All P m)
    (hPQ : ∀ k v, P k v → Q k v) : All Q m :=
  ⟨h.nodup, fun e he => hPQ _ _ (h.entry e he)⟩

/-- Two maps can be joined if no key has both properties. -/
theorem All.append {P Q : κ → α → Prop} {m n : OrderedMap κ α} (hm : All P m) (hn : All Q n)
    (h : ∀ k v w, P k v → ¬Q k w) : All (fun k v => P k v ∨ Q k v) (m ++ n) := by
  constructor
  · rw [keys_append, List.nodup_append]
    refine ⟨hm.nodup, hn.nodup, fun k hk k' hk' heq => ?_⟩
    obtain ⟨e, he, rfl⟩ := List.mem_map.1 hk
    obtain ⟨e', he', rfl⟩ := List.mem_map.1 hk'
    exact h e.1 e.2 e'.2 (hm.entry e he) (heq ▸ hn.entry e' he')
  · intro e he
    exact (List.mem_append.1 he).imp (hm.entry e) (hn.entry e)

/-- The keys of a map can be replaced one by one, and its values with them. -/
theorem All.map {β κ' : Type} {P : κ → α → Prop} {Q : κ' → β → Prop} {m : OrderedMap κ α}
    (h : All P m) {f : κ → κ'} (hf : Function.Injective f) {g : α → β}
    (hPQ : ∀ k v, P k v → Q (f k) (g v)) : All Q (List.map (fun e => (f e.1, g e.2)) m) := by
  constructor
  · have hkeys : keys (List.map (fun e => (f e.1, g e.2)) m) = (keys m).map f := by
      simp [keys, Function.comp_def]
    rw [hkeys]
    exact h.nodup.map hf
  · intro e he
    obtain ⟨e', he', rfl⟩ := List.mem_map.1 he
    exact hPQ _ _ (h.entry e' he')

variable [DecidableEq κ]

/-! ## Looking up -/

@[simp] theorem get?_nil (k : κ) : get? ([] : OrderedMap κ α) k = none := rfl

theorem get?_cons (k' : κ) (v : α) (m : OrderedMap κ α) (k : κ) :
    get? ((k', v) :: m) k = if k' = k then some v else get? m k := rfl

theorem get?_cons_self (k : κ) (v : α) (m : OrderedMap κ α) : get? ((k, v) :: m) k = some v := by
  rw [get?_cons, if_pos rfl]

theorem get?_cons_of_ne {k' k : κ} (h : k' ≠ k) (v : α) (m : OrderedMap κ α) :
    get? ((k', v) :: m) k = get? m k := by
  rw [get?_cons, if_neg h]

theorem get?_eq_none_iff {m : OrderedMap κ α} {k : κ} : get? m k = none ↔ k ∉ keys m := by
  induction m with
  | nil => simp
  | cons e m ih =>
    obtain ⟨k', v⟩ := e
    by_cases h : k' = k
    · subst h; simp [get?_cons_self]
    · rw [get?_cons_of_ne h, ih, keys_cons, List.mem_cons, not_or]
      exact ⟨fun h' => ⟨fun e => h e.symm, h'⟩, fun h' => h'.2⟩

theorem mem_of_get?_eq_some {m : OrderedMap κ α} {k : κ} {v : α} (h : get? m k = some v) :
    (k, v) ∈ m := by
  induction m with
  | nil => cases h
  | cons e m ih =>
    obtain ⟨k', w⟩ := e
    by_cases hk : k' = k
    · subst hk
      rw [get?_cons_self] at h
      cases h
      exact List.mem_cons_self
    · rw [get?_cons_of_ne hk] at h
      exact List.mem_cons_of_mem _ (ih h)

theorem get?_eq_some_of_mem {m : OrderedMap κ α} (hm : (keys m).Nodup) {k : κ} {v : α}
    (h : (k, v) ∈ m) : get? m k = some v := by
  induction m with
  | nil => cases h
  | cons e m ih =>
    obtain ⟨k', w⟩ := e
    rw [keys_cons, List.nodup_cons] at hm
    rcases List.mem_cons.1 h with h | h
    · cases h
      exact get?_cons_self ..
    · rw [get?_cons_of_ne, ih hm.2 h]
      rintro rfl
      exact hm.1 (mem_keys_of_mem h)

theorem get?_eq_some_iff_mem {m : OrderedMap κ α} (hm : (keys m).Nodup) {k : κ} {v : α} :
    get? m k = some v ↔ (k, v) ∈ m := ⟨mem_of_get?_eq_some, get?_eq_some_of_mem hm⟩

/-- Other values under the same keys. -/
theorem get?_map {β : Type} (f : κ × α → β) (m : OrderedMap κ α) (k : κ) :
    get? (m.map fun e => (e.1, f e)) k = (get? m k).map fun v => f (k, v) := by
  induction m with
  | nil => rfl
  | cons e m ih =>
    obtain ⟨k', v⟩ := e
    rw [List.map_cons, get?_cons, get?_cons, ih]
    by_cases hk : k' = k
    · rw [if_pos hk, if_pos hk, hk]
      rfl
    · rw [if_neg hk, if_neg hk]

theorem exists_get?_of_mem_keys {m : OrderedMap κ α} {k : κ} (h : k ∈ keys m) :
    ∃ v, get? m k = some v := by
  cases hv : get? m k with
  | some v => exact ⟨v, rfl⟩
  | none => exact absurd h (get?_eq_none_iff.1 hv)

/-- A function, tabulated over a list of keys. -/
theorem get?_tabulated (f : κ → α) (ks : List κ) {k : κ} {v : α} :
    get? (ks.map fun k => (k, f k)) k = some v ↔ k ∈ ks ∧ v = f k := by
  constructor
  · intro h
    obtain ⟨k', hk', heq⟩ := List.mem_map.1 (mem_of_get?_eq_some h)
    cases heq
    exact ⟨hk', rfl⟩
  · rintro ⟨hk, rfl⟩
    have hkeys : k ∈ keys (ks.map fun k => (k, f k)) :=
      List.mem_map.2 ⟨_, List.mem_map_of_mem hk, rfl⟩
    obtain ⟨v, hv⟩ := exists_get?_of_mem_keys hkeys
    obtain ⟨k', -, heq⟩ := List.mem_map.1 (mem_of_get?_eq_some hv)
    cases heq
    exact hv

theorem isSome_get?_iff {m : OrderedMap κ α} {k : κ} : (get? m k).isSome ↔ k ∈ keys m := by
  cases hv : get? m k with
  | some v => simpa using mem_keys_of_mem (mem_of_get?_eq_some hv)
  | none => simpa using get?_eq_none_iff.1 hv

theorem get?_append_of_not_mem {m : OrderedMap κ α} {k : κ} (h : k ∉ keys m) (n : OrderedMap κ α) :
    get? (m ++ n) k = get? n k := by
  induction m with
  | nil => rfl
  | cons e m ih =>
    obtain ⟨k', v⟩ := e
    rw [keys_cons, List.mem_cons, not_or] at h
    rw [List.cons_append, get?_cons_of_ne (fun e => h.1 e.symm), ih h.2]

theorem get?_append_of_eq_some {m : OrderedMap κ α} {k : κ} {v : α} (h : get? m k = some v)
    (n : OrderedMap κ α) : get? (m ++ n) k = some v := by
  induction m with
  | nil => cases h
  | cons e m ih =>
    obtain ⟨k', w⟩ := e
    rw [get?_cons] at h
    rw [List.cons_append, get?_cons]
    split
    · rwa [if_pos ‹_›] at h
    · rw [if_neg ‹_›] at h
      exact ih h

theorem get?_append_singleton_of_ne {k k' : κ} (h : k' ≠ k) (m : OrderedMap κ α) (v : α) :
    get? (m ++ [(k', v)]) k = get? m k := by
  induction m with
  | nil => exact get?_cons_of_ne h v []
  | cons e m ih => rw [List.cons_append, get?_cons, get?_cons, ih]

/-! ## Updating -/

theorem get?_update_self (m : OrderedMap κ α) (k : κ) (f : Option α → α) :
    get? (update m k f) k = some (f (get? m k)) := by
  induction m with
  | nil => simp [update, get?]
  | cons e m ih =>
    obtain ⟨k', v⟩ := e
    rw [update]
    split
    · subst k'; simp only [get?_cons_self]
    · rw [get?_cons_of_ne ‹_›, get?_cons_of_ne ‹_›, ih]

theorem get?_update_of_ne {k k' : κ} (h : k ≠ k') (m : OrderedMap κ α) (f : Option α → α) :
    get? (update m k f) k' = get? m k' := by
  induction m with
  | nil => simp [update, get?, h]
  | cons e m ih =>
    obtain ⟨k₀, v⟩ := e
    rw [update]
    split
    · subst k₀; rw [get?_cons_of_ne h, get?_cons_of_ne h]
    · rw [get?_cons, get?_cons, ih]

theorem keys_update (m : OrderedMap κ α) (k : κ) (f : Option α → α) :
    keys (update m k f) = if k ∈ keys m then keys m else keys m ++ [k] := by
  induction m with
  | nil => simp [update]
  | cons e m ih =>
    obtain ⟨k', v⟩ := e
    rw [update]
    by_cases h : k' = k
    · subst h; simp
    · rw [if_neg h, keys_cons, ih, keys_cons]
      have h' : k ≠ k' := fun e => h e.symm
      by_cases hk : k ∈ keys m
      · simp [hk]
      · simp [hk, h']

theorem update_of_not_mem {m : OrderedMap κ α} {k : κ} (h : k ∉ keys m) (f : Option α → α) :
    update m k f = m ++ [(k, f none)] := by
  induction m with
  | nil => rfl
  | cons e m ih =>
    obtain ⟨k', v⟩ := e
    rw [keys_cons, List.mem_cons, not_or] at h
    rw [update, if_neg fun e => h.1 e.symm, ih h.2, List.cons_append]

/-- Putting back what is there changes nothing. -/
theorem update_eq_self {m : OrderedMap κ α} {k : κ} {v : α} (h : get? m k = some v)
    {f : Option α → α} (hf : f (some v) = v) : update m k f = m := by
  induction m with
  | nil => cases h
  | cons e m ih =>
    obtain ⟨k', w⟩ := e
    rw [get?_cons] at h
    rw [update]
    split
    · rw [if_pos ‹_›] at h
      cases h
      rw [hf]
    · rw [if_neg ‹_›] at h
      rw [ih h]

/-- Of two updates in a row the second sees what the first has made. -/
theorem update_update (m : OrderedMap κ α) (k : κ) (f g : Option α → α) :
    update (update m k f) k g = update m k fun old => g (some (f old)) := by
  induction m with
  | nil => simp [update]
  | cons e m ih =>
    obtain ⟨k', v⟩ := e
    rw [update, update]
    split
    · rw [update, if_pos ‹_›]
    · rw [update, if_neg ‹_›, ih]

theorem nodup_keys_update {m : OrderedMap κ α} (h : (keys m).Nodup) (k : κ) (f : Option α → α) :
    (keys (update m k f)).Nodup := by
  rw [keys_update]
  split
  · exact h
  · rw [List.nodup_append]
    refine ⟨h, by simp, ?_⟩
    rintro a ha b hb rfl
    rw [List.mem_singleton] at hb
    subst hb
    exact absurd ha ‹_›

theorem insert_get? (m : OrderedMap κ α) (k : κ) (f : Option α → α) :
    insert m k (f (get? m k)) = update m k f := by
  induction m with
  | nil => rfl
  | cons e m ih =>
    obtain ⟨k', v⟩ := e
    by_cases h : k' = k
    · subst h
      rw [get?_cons_self, insert, update, update, if_pos rfl, if_pos rfl]
    · rw [get?_cons_of_ne h, insert, update, update, if_neg h, if_neg h]
      exact congrArg _ ih

theorem insert_of_not_mem {m : OrderedMap κ α} {k : κ} (h : k ∉ keys m) (v : α) :
    insert m k v = m ++ [(k, v)] := update_of_not_mem h _

theorem get?_insert_self (m : OrderedMap κ α) (k : κ) (v : α) : get? (insert m k v) k = some v :=
  get?_update_self m k _

theorem get?_insert_of_ne {k k' : κ} (h : k ≠ k') (m : OrderedMap κ α) (v : α) :
    get? (insert m k v) k' = get? m k' := get?_update_of_ne h m _

/-! ## Many entries -/

theorem extend_of_nodup {m : OrderedMap κ α} {es : List (κ × α)} (h : (keys (m ++ es)).Nodup) :
    extend m es = m ++ es := by
  induction es generalizing m with
  | nil => exact (List.append_nil m).symm
  | cons e es ih =>
    have hk : e.1 ∉ keys m := by
      intro hk
      rw [keys_append, List.nodup_append] at h
      exact h.2.2 e.1 hk e.1 List.mem_cons_self rfl
    have hm : insert m e.1 e.2 = m ++ [e] := insert_of_not_mem hk e.2
    have : extend m (e :: es) = extend (m ++ [e]) es := by rw [← hm]; rfl
    rw [this, ih (by simpa using h), List.append_assoc, List.singleton_append]

theorem ofEntries_of_nodup {es : List (κ × α)} (h : (keys es).Nodup) : ofEntries es = es :=
  extend_of_nodup h

theorem ofEntries_map {β : Type} {m : OrderedMap κ α} (h : (keys m).Nodup) (f : κ × α → β) :
    ofEntries (m.map fun e => (e.1, f e)) = m.map fun e => (e.1, f e) := by
  have hkeys : keys (m.map fun e => (e.1, f e)) = keys m := by simp [keys, Function.comp_def]
  rw [← hkeys] at h
  exact ofEntries_of_nodup h

theorem mem_insert {m : OrderedMap κ α} {k : κ} {v : α} {e : κ × α} (h : e ∈ insert m k v) :
    e ∈ m ∨ e = (k, v) := by
  induction m with
  | nil => exact Or.inr (List.mem_singleton.1 h)
  | cons head m ih =>
    obtain ⟨k', w⟩ := head
    rw [insert, update] at h
    split at h
    · subst k'
      exact (List.mem_cons.1 h).symm.imp (List.mem_cons_of_mem _) id
    · rcases List.mem_cons.1 h with rfl | h
      · exact Or.inl List.mem_cons_self
      · exact (ih h).imp (List.mem_cons_of_mem _) id

theorem mem_extend {m : OrderedMap κ α} {es : List (κ × α)} {e : κ × α} (h : e ∈ extend m es) :
    e ∈ m ∨ e ∈ es := by
  induction es generalizing m with
  | nil => exact Or.inl h
  | cons head es ih =>
    rcases ih h with h | h
    · exact (mem_insert h).imp_right fun he => List.mem_cons.2 (Or.inl he)
    · exact Or.inr (List.mem_cons_of_mem _ h)

/-- Nothing is in a map but what has been put there. -/
theorem mem_of_mem_ofEntries {es : List (κ × α)} {e : κ × α} (h : e ∈ ofEntries es) : e ∈ es :=
  (mem_extend h).resolve_left List.not_mem_nil

/-- Updates of keys that are not there append the keys. -/
theorem foldl_update_of_nodup {β : Type} (g : Option α → β → α) {m : OrderedMap κ α}
    {es : List (κ × β)} (h : (keys m ++ keys es).Nodup) :
    es.foldl (fun m e => update m e.1 fun old => g old e.2) m
      = m ++ es.map fun e => (e.1, g none e.2) := by
  induction es generalizing m with
  | nil => exact (List.append_nil m).symm
  | cons e es ih =>
    have hk : e.1 ∉ keys m := by
      intro hk
      rw [List.nodup_append] at h
      exact h.2.2 e.1 hk e.1 List.mem_cons_self rfl
    rw [List.foldl_cons, update_of_not_mem hk, ih, List.map_cons, List.append_assoc,
      List.singleton_append]
    rw [keys_append, List.append_assoc]
    exact h

/-! ## Properties of all entries -/

/-- An update keeps a property that what it puts under its key has. -/
theorem All.update {P : κ → α → Prop} {m : OrderedMap κ α} (h : All P m) {k : κ}
    {f : Option α → α} (hf : ∀ old, (∀ v ∈ old, P k v) → P k (f old)) :
    All P (OrderedMap.update m k f) := by
  refine ⟨nodup_keys_update h.nodup k f, ?_⟩
  have hentry := h.entry
  clear h
  induction m with
  | nil =>
    intro e he
    rw [OrderedMap.update, List.mem_singleton] at he
    subst he
    exact hf none fun v hv => by cases hv
  | cons head m ih =>
    obtain ⟨k', v⟩ := head
    have hhead : P k' v := hentry (k', v) List.mem_cons_self
    have hrest : ∀ e ∈ m, P e.1 e.2 := fun e he => hentry e (List.mem_cons_of_mem _ he)
    intro e he
    rw [OrderedMap.update] at he
    split at he
    · subst k'
      rcases List.mem_cons.1 he with rfl | he
      · exact hf (some v) fun v' hv' => by cases hv'; exact hhead
      · exact hrest e he
    · rcases List.mem_cons.1 he with rfl | he
      · exact hhead
      · exact ih hrest e he

theorem All.insert {P : κ → α → Prop} {m : OrderedMap κ α} (h : All P m) {k : κ} {v : α}
    (hv : P k v) : All P (OrderedMap.insert m k v) := h.update fun _ _ => hv

/-- A map is built again by updates from nothing, if each of them leaves what it puts there. -/
theorem All.foldl_update {P : κ → α → Prop} {m : OrderedMap κ α} (h : All P m)
    (g : Option α → α → α) (hg : ∀ k v, P k v → g none v = v) :
    m.foldl (fun m e => OrderedMap.update m e.1 fun old => g old e.2) [] = m := by
  have hnodup : (keys ([] : OrderedMap κ α) ++ keys m).Nodup := h.nodup
  have hself : ∀ e ∈ m, (e.1, g none e.2) = id e := fun e he => by
    rw [hg _ _ (h.entry e he), id_eq]
  rw [foldl_update_of_nodup g hnodup, List.nil_append, List.map_congr_left hself, List.map_id]

/-! ## Erasing -/

theorem erase_append (m n : OrderedMap κ α) (k : κ) : erase (m ++ n) k = erase m k ++ erase n k :=
  List.filter_append ..

theorem erase_of_not_mem {m : OrderedMap κ α} {k : κ} (h : k ∉ keys m) : erase m k = m := by
  apply List.filter_eq_self.2
  intro e he
  simp only [ne_eq, decide_not, Bool.not_eq_true', decide_eq_false_iff_not]
  rintro rfl
  exact h (mem_keys_of_mem he)

theorem erase_comm (m : OrderedMap κ α) (k k' : κ) :
    erase (erase m k) k' = erase (erase m k') k := List.filter_comm _ _ m

theorem get?_erase_of_ne {k k' : κ} (h : k ≠ k') (m : OrderedMap κ α) :
    get? (erase m k) k' = get? m k' := by
  induction m with
  | nil => rfl
  | cons e m ih =>
    obtain ⟨k₀, v⟩ := e
    by_cases hk : k₀ = k
    · subst hk
      rw [get?_cons_of_ne h, ← ih]
      simp [erase]
    · rw [show erase ((k₀, v) :: m) k = (k₀, v) :: erase m k by simp [erase, hk], get?_cons,
        get?_cons, ih]

theorem keys_erase (m : OrderedMap κ α) (k : κ) :
    keys (erase m k) = (keys m).filter fun k' => k' ≠ k := by
  rw [keys, keys, erase, List.filter_map]
  rfl

theorem not_mem_keys_erase (m : OrderedMap κ α) (k : κ) : k ∉ keys (erase m k) := by
  simp [keys_erase]

theorem get?_erase_self (m : OrderedMap κ α) (k : κ) : get? (erase m k) k = none :=
  get?_eq_none_iff.2 (not_mem_keys_erase m k)

/-- What is looked up under a key is a matter of the entries that have it. -/
theorem get?_filter (p : κ → Bool) (m : OrderedMap κ α) (k : κ) :
    get? (m.filter fun e => p e.1) k = if p k then get? m k else none := by
  induction m with
  | nil => simp
  | cons e m ih =>
    obtain ⟨k', v⟩ := e
    rw [List.filter_cons]
    by_cases hk : k' = k
    · subst hk
      cases hp : p k' <;> simp [hp, ih, get?_cons]
    · cases p k' <;> simp [ih, get?_cons, hk]

theorem erase_singleton (k : κ) (v : α) : erase [(k, v)] k = [] := by simp [erase]

/-- What is erased need not have been put there. -/
theorem erase_insert (m : OrderedMap κ α) (k : κ) (v : α) : erase (insert m k v) k = erase m k := by
  induction m with
  | nil => exact erase_singleton k v
  | cons e m ih =>
    obtain ⟨k', w⟩ := e
    rw [insert, update]
    split
    · subst k'
      simp [erase]
    · rename_i hk
      have hcons : ∀ n : OrderedMap κ α, erase ((k', w) :: n) k = (k', w) :: erase n k := by
        intro n
        simp [erase, hk]
      rw [hcons, hcons]
      exact congrArg _ ih

/-- An entry that has been appended is erased without a trace. -/
theorem erase_append_singleton {m : OrderedMap κ α} {k : κ} (h : k ∉ keys m) (v : α) :
    erase (m ++ [(k, v)]) k = m := by
  rw [erase_append, erase_of_not_mem h, erase_singleton, List.append_nil]

/-! ## Sequences of steps -/

theorem eraseDups_append_singleton (ks : List κ) (k : κ) :
    (ks ++ [k]).eraseDups = if k ∈ ks then ks.eraseDups else ks.eraseDups ++ [k] := by
  rw [List.eraseDups_append]
  by_cases h : k ∈ ks
  · rw [if_pos h, show List.removeAll [k] ks = [] by simp [List.removeAll, h],
      List.eraseDups_nil, List.append_nil]
  · rw [if_neg h, show List.removeAll [k] ks = [k] by simp [List.removeAll, h]]
    rfl

/-- The keys with another one at the end, if there is one and it is new. -/
def addKey (ks : List κ) : Option κ → List κ
  | some k => if k ∈ ks then ks else ks ++ [k]
  | none => ks

theorem keys_update_eq_addKey (m : OrderedMap κ α) (k : κ) (f : Option α → α) :
    keys (update m k f) = addKey (keys m) (some k) := keys_update m k f

variable {σ : Type} {step : σ → ε → σ} {s : σ}

/-- Keys to which every step adds its own, if it has one, are those of the steps in the order of
their first occurrence. -/
theorem foldl_eq_eraseDups (view : σ → List κ) (key : ε → Option κ) (hs : view s = [])
    (h : ∀ s e, view (step s e) = addKey (view s) (key e)) (es : List ε) :
    view (es.foldl step s) = (es.filterMap key).eraseDups := by
  rw [← List.reverse_reverse es]
  induction es.reverse with
  | nil => exact hs
  | cons e es ih =>
    rw [List.reverse_cons, List.foldl_append, List.filterMap_append]
    change view (step _ e) = _
    rw [h, ih]
    cases hk : key e with
    | none => simp [hk, addKey]
    | some k =>
      rw [show [e].filterMap key = [k] by simp [hk], eraseDups_append_singleton, addKey]
      simp only [List.mem_eraseDups]

/-- A value that every step replaces by its own, if it has one, is that of the last step that has
one. -/
theorem foldl_eq_getLast? (view : σ → Option α) (value : ε → Option α) (hs : view s = none)
    (h : ∀ s e, view (step s e) = (value e).or (view s)) (es : List ε) :
    view (es.foldl step s) = (es.filterMap value).getLast? := by
  rw [← List.reverse_reverse es]
  induction es.reverse with
  | nil => exact hs
  | cons e es ih =>
    rw [List.reverse_cons, List.foldl_append, List.filterMap_append, List.getLast?_append]
    change view (step _ e) = _
    rw [h, ih]
    cases hv : value e <;> simp [hv]

/-! ## Maps of entries -/

/-- The last entry for a key decides. -/
theorem get?_ofEntries (es : List (κ × α)) (k : κ) :
    get? (ofEntries es) k = ((es.filter fun e => e.1 = k).getLast?).map Prod.snd := by
  have hstep : ∀ (m : OrderedMap κ α) (e : κ × α),
      get? (insert m e.1 e.2) k = (if e.1 = k then some e.2 else none).or (get? m k) := by
    intro m e
    by_cases he : e.1 = k
    · subst he
      rw [get?_insert_self, if_pos rfl]
      rfl
    · rw [get?_insert_of_ne he, if_neg he]
      rfl
  have hmap : (es.filterMap fun e => if e.1 = k then some e.2 else none)
      = (es.filter fun e => e.1 = k).map Prod.snd := by
    rw [← List.filterMap_eq_map, List.filterMap_filter]
    simp
  have := foldl_eq_getLast? (s := []) (fun m : OrderedMap κ α => get? m k) _ rfl hstep es
  rw [ofEntries, extend, this, hmap, List.getLast?_map]

theorem get?_ofEntries_append_cons (es : List (κ × α)) {later : List (κ × α)} {k : κ}
    (h : ∀ e ∈ later, e.1 ≠ k) (v : α) : get? (ofEntries (es ++ (k, v) :: later)) k = some v := by
  have hlater : later.filter (fun e => e.1 = k) = [] :=
    List.filter_eq_nil_iff.2 fun e he => by simpa using h e he
  rw [get?_ofEntries, List.filter_append, List.filter_cons_of_pos (by simp), hlater,
    List.getLast?_concat]
  rfl

theorem keys_ofEntries (es : List (κ × α)) : keys (ofEntries es) = (es.map Prod.fst).eraseDups := by
  have := foldl_eq_eraseDups (s := []) (fun m : OrderedMap κ α => keys m)
    (fun e : κ × α => some e.1) rfl
    (fun m e => keys_update_eq_addKey m e.1 fun _ => e.2) es
  rwa [List.filterMap_eq_map'] at this

theorem nodup_keys_ofEntries (es : List (κ × α)) : (keys (ofEntries es)).Nodup := by
  suffices ∀ m : OrderedMap κ α, (keys m).Nodup → (keys (extend m es)).Nodup from
    this [] List.nodup_nil
  induction es with
  | nil => exact fun _ h => h
  | cons e es ih => exact fun m h => ih _ (nodup_keys_update h e.1 _)

end NestedStyles.OrderedMap
