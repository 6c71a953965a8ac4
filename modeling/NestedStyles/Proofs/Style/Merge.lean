import NestedStyles.Proofs.Style.Legality
import NestedStyles.Proofs.Style.Spelling
/-!
# Normalizing is merging

A document can be cut between any two of its top entries. What it is normalized to is then the deep
merge of what the two parts are normalized to, although normalizing never builds the second tree: it
goes on to change the first one.

* `OrderedMap.merge` joins two maps: a key of both keeps its place in the first, and its values are
  combined; the keys of the second alone follow in their order. `Sheet.merge` does so for styles,
  fragments, media queries and the fragments in them, and replaces the values of rules;
* `OrderedMap.merge_update`: an update of the second map is an update of the merge, if combining
  values lets it through;
* `Sheet.merge_apply` lifts this through all levels of a sheet to one event, `Sheet.merge_foldl` to
  all events of a document;
* `normalize_append`: the law for documents, faults included.
-/
namespace NestedStyles

open Json (Value)
open OrderedMap (All)

/-! ## Maps -/

namespace OrderedMap

variable {κ α : Type} [DecidableEq κ]

/-- The entries of both maps: a key of the first keeps its place, with the value that the second has
for it combined into its own, and keys of the second alone follow in their order. -/
def merge (combine : α → α → α) (m n : OrderedMap κ α) : OrderedMap κ α :=
  (m.map fun e => (e.1, (get? n e.1).elim e.2 (combine e.2)))
    ++ n.filter fun e => !contains m e.1

example : merge (fun _ v => v) [("a", 1), ("b", 2)] [("c", 3), ("a", 4)]
    = [("a", 4), ("b", 2), ("c", 3)] := by decide

variable {combine : α → α → α}

theorem contains_iff {m : OrderedMap κ α} {k : κ} : contains m k = true ↔ k ∈ keys m :=
  isSome_get?_iff

theorem merge_nil (m : OrderedMap κ α) : merge combine m [] = m := by
  simp [merge]

theorem keys_map_merge (m n : OrderedMap κ α) :
    keys (List.map (fun e => (e.1, (get? n e.1).elim e.2 (combine e.2))) m) = keys m := by
  simp [keys, Function.comp_def]

theorem update_append_of_not_mem {m : OrderedMap κ α} {k : κ} (h : k ∉ keys m)
    (n : OrderedMap κ α) (f : Option α → α) : update (m ++ n) k f = m ++ update n k f := by
  induction m with
  | nil => rfl
  | cons e m ih =>
    obtain ⟨k', v⟩ := e
    rw [keys_cons, List.mem_cons, not_or] at h
    rw [List.cons_append, update, if_neg fun e => h.1 e.symm, ih h.2, List.cons_append]

theorem update_append_of_mem {m : OrderedMap κ α} {k : κ} (h : k ∈ keys m)
    (n : OrderedMap κ α) (f : Option α → α) : update (m ++ n) k f = update m k f ++ n := by
  induction m with
  | nil => cases h
  | cons e m ih =>
    obtain ⟨k', v⟩ := e
    rw [List.cons_append, update, update]
    by_cases hk : k' = k
    · rw [if_pos hk, if_pos hk, List.cons_append]
    · rw [keys_cons, List.mem_cons] at h
      rw [if_neg hk, if_neg hk, ih (h.resolve_left fun e => hk e.symm), List.cons_append]

/-- Entries that are left out may be updated before. -/
theorem filter_update_of_not {p : κ → Bool} {k : κ} (h : p k = false) (n : OrderedMap κ α)
    (f : Option α → α) :
    (update n k f).filter (fun e => p e.1) = n.filter fun e => p e.1 := by
  induction n with
  | nil => simp [update, h]
  | cons e n ih =>
    obtain ⟨k', v⟩ := e
    rw [update]
    by_cases hk : k' = k
    · subst hk
      rw [if_pos rfl, List.filter_cons_of_neg (by simp [h]), List.filter_cons_of_neg (by simp [h])]
    · rw [if_neg hk, List.filter_cons, List.filter_cons, ih]

/-- Entries that stay may be updated before or after. -/
theorem filter_update {p : κ → Bool} {k : κ} (h : p k = true) (n : OrderedMap κ α)
    (f : Option α → α) :
    (update n k f).filter (fun e => p e.1) = update (n.filter fun e => p e.1) k f := by
  induction n with
  | nil => simp [update, h]
  | cons e n ih =>
    obtain ⟨k', v⟩ := e
    rw [update]
    by_cases hk : k' = k
    · subst hk
      rw [if_pos rfl, List.filter_cons_of_pos (by simp [h]), List.filter_cons_of_pos (by simp [h]),
        update, if_pos rfl]
    · rw [if_neg hk, List.filter_cons, List.filter_cons, ih]
      by_cases hp : p k' = true
      · rw [if_pos hp, if_pos hp, update, if_neg hk]
      · rw [if_neg hp, if_neg hp]

/-- Where the first map lacks a key, its entries do not see an update of it in the second. -/
theorem map_merge_update_of_not_mem {m : OrderedMap κ α} {k : κ} (h : k ∉ keys m)
    (n : OrderedMap κ α) (f : Option α → α) :
    m.map (fun e => (e.1, (get? (update n k f) e.1).elim e.2 (combine e.2)))
      = m.map fun e => (e.1, (get? n e.1).elim e.2 (combine e.2)) := by
  refine List.map_congr_left fun e he => ?_
  have hne : k ≠ e.1 := by
    rintro rfl
    exact h (mem_keys_of_mem he)
  rw [get?_update_of_ne hne]

/-- Where the first map has a key, an update of it in the second is an update in the first, if
combining lets it through. -/
theorem map_merge_update {m : OrderedMap κ α} (hm : (keys m).Nodup) {k : κ} (hk : k ∈ keys m)
    (n : OrderedMap κ α) {f : Option α → α}
    (h : ∀ x, get? m k = some x → ∀ old, combine x (f old) = f (some (old.elim x (combine x)))) :
    m.map (fun e => (e.1, (get? (update n k f) e.1).elim e.2 (combine e.2)))
      = update (m.map fun e => (e.1, (get? n e.1).elim e.2 (combine e.2))) k f := by
  induction m with
  | nil => cases hk
  | cons e m ih =>
    obtain ⟨k', x⟩ := e
    rw [keys_cons, List.nodup_cons] at hm
    rw [List.map_cons, List.map_cons, update]
    by_cases he : k' = k
    · subst he
      have hx := h x (get?_cons_self ..) (get? n k')
      rw [if_pos rfl, map_merge_update_of_not_mem hm.1, get?_update_self, Option.elim_some, hx]
    · rw [keys_cons, List.mem_cons] at hk
      have hrest : ∀ x, get? m k = some x → ∀ old,
          combine x (f old) = f (some (old.elim x (combine x))) := by
        intro y hy
        exact h y (by rw [get?_cons_of_ne he, hy])
      rw [if_neg he, get?_update_of_ne fun e => he e.symm,
        ih hm.2 (hk.resolve_left fun e => he e.symm) hrest]

/-- An update of the second map is an update of the merge, if combining lets it through. -/
theorem merge_update {m : OrderedMap κ α} (hm : (keys m).Nodup) (n : OrderedMap κ α) {k : κ}
    {f : Option α → α}
    (h : ∀ x, get? m k = some x → ∀ old, combine x (f old) = f (some (old.elim x (combine x)))) :
    merge combine m (update n k f) = update (merge combine m n) k f := by
  by_cases hk : k ∈ keys m
  · have hskip : (!contains m k) = false := by simp [contains_iff.2 hk]
    have hkeys : k ∈ keys (m.map fun e => (e.1, (get? n e.1).elim e.2 (combine e.2))) := by
      rwa [keys_map_merge]
    rw [merge, merge, map_merge_update hm hk n h,
      filter_update_of_not (p := fun k => !contains m k) hskip, update_append_of_mem hkeys]
  · have hstay : (!contains m k) = true := by
      rw [Bool.not_eq_true', Bool.eq_false_iff]
      exact fun h => hk (contains_iff.1 h)
    have hkeys : k ∉ keys (m.map fun e => (e.1, (get? n e.1).elim e.2 (combine e.2))) := by
      rwa [keys_map_merge]
    rw [merge, merge, map_merge_update_of_not_mem hk, filter_update (p := fun k => !contains m k)
      hstay, update_append_of_not_mem hkeys]

/-- The same for an update that makes a missing value from one with which combining does nothing. -/
theorem All.merge_update {P : κ → α → Prop} {m : OrderedMap κ α} (hm : All P m)
    (n : OrderedMap κ α) {blank : α} (hblank : ∀ x, combine x blank = x) {k : κ} {w : α → α}
    (hw : ∀ x, P k x → ∀ y, combine x (w y) = w (combine x y)) :
    merge combine m (OrderedMap.update n k fun old => w (old.getD blank))
      = OrderedMap.update (merge combine m n) k fun old => w (old.getD blank) := by
  refine OrderedMap.merge_update hm.nodup n fun x hx old => ?_
  have hP : P k x := hm.entry (k, x) (mem_of_get?_eq_some hx)
  cases old with
  | none => rw [Option.getD_none, hw x hP, hblank, Option.elim_none, Option.getD_some]
  | some y => rw [Option.getD_some, hw x hP, Option.elim_some, Option.getD_some]

end OrderedMap

/-! ## Sheets -/

/-- The rules of both; the value of a property is that of the second. -/
def Rules.merge (r r' : Rules) : Rules := OrderedMap.merge (fun _ value => value) r r'

/-- The rules of both, and the rules of both for every fragment. -/
def MediaBlock.merge (b b' : MediaBlock) : MediaBlock where
  rules := Rules.merge b.rules b'.rules
  selectors := OrderedMap.merge Rules.merge b.selectors b'.selectors

/-- The rules of both, and what both have for every fragment and every media query. What is under
parent selectors stays as the first has it, since no document puts anything there. -/
def Specification.merge (s t : Specification) : Specification :=
  { s with
    rules := Rules.merge s.rules t.rules
    selectors := OrderedMap.merge Rules.merge s.selectors t.selectors
    media := OrderedMap.merge MediaBlock.merge s.media t.media }

/-- What both sheets say about every style. -/
def Sheet.merge (s t : Sheet) : Sheet := OrderedMap.merge Specification.merge s t

theorem Rules.merge_nil (r : Rules) : Rules.merge r [] = r := OrderedMap.merge_nil r

theorem MediaBlock.merge_empty (b : MediaBlock) : b.merge {} = b :=
  congrArg₂ MediaBlock.mk (Rules.merge_nil b.rules) (OrderedMap.merge_nil b.selectors)

theorem Specification.merge_empty (s : Specification) : s.merge {} = s := by
  obtain ⟨rules, selectors, media, parents⟩ := s
  simp only [Specification.merge, Rules.merge_nil, OrderedMap.merge_nil]

/-- What an event does to the rules of the second it does to those of both. -/
theorem CanonicalRules.merge_write {r : Rules} (h : CanonicalRules r) (e : Event) (r' : Rules) :
    Rules.merge r (e.write r') = e.write (Rules.merge r r') := by
  unfold Event.write
  cases e.rule with
  | none => rfl
  | some rule => exact OrderedMap.merge_update h.nodup r' fun _ _ _ => rfl

theorem CanonicalSelectors.merge_update {selectors : OrderedMap String Rules}
    (h : CanonicalSelectors selectors) (e : Event) (fragment : String)
    (selectors' : OrderedMap String Rules) :
    OrderedMap.merge Rules.merge selectors (updateSelector selectors' fragment e.write)
      = updateSelector (OrderedMap.merge Rules.merge selectors selectors') fragment e.write :=
  All.merge_update h selectors' Rules.merge_nil fun _ hr r' => hr.2.merge_write e r'

/-- A change of the second block of a media query, let through by every block, is one of both. -/
theorem Specification.Canonical.merge_updateMedia {s : Specification} (h : s.Canonical)
    {w : MediaBlock → MediaBlock} (hw : ∀ b : MediaBlock, b.Canonical → ∀ b', b.merge (w b')
      = w (b.merge b')) (query : String) (media : OrderedMap String MediaBlock) :
    OrderedMap.merge MediaBlock.merge s.media (NestedStyles.updateMedia media query w)
      = NestedStyles.updateMedia (OrderedMap.merge MediaBlock.merge s.media media) query w :=
  h.media.merge_update media MediaBlock.merge_empty fun b hb b' => hw b hb.2 b'

/-- An event that changes the second specification changes both in the same way. -/
theorem Specification.Canonical.merge_apply {s : Specification} (h : s.Canonical) (e : Event)
    (t : Specification) : s.merge (t.apply e) = (s.merge t).apply e := by
  unfold Specification.apply
  cases e.place with
  | style => simp only [Specification.updateAt, Specification.merge, h.rules.merge_write]
  | selector fragment =>
    simp only [Specification.updateAt, Specification.merge, h.selectors.merge_update]
  | media query =>
    have hw : ∀ b : MediaBlock, b.Canonical → ∀ b' : MediaBlock,
        b.merge { b' with rules := e.write b'.rules }
          = { b.merge b' with rules := e.write (b.merge b').rules } := by
      intro b hb b'
      simp only [MediaBlock.merge, hb.rules.merge_write]
    have hmedia := h.merge_updateMedia hw query t.media
    simp only [Specification.updateAt, Specification.merge, hmedia]
  | mediaSelector query fragment =>
    have hw : ∀ b : MediaBlock, b.Canonical → ∀ b' : MediaBlock,
        b.merge { b' with selectors := updateSelector b'.selectors fragment e.write }
          = { b.merge b' with
              selectors := updateSelector (b.merge b').selectors fragment e.write } := by
      intro b hb b'
      simp only [MediaBlock.merge, hb.selectors.merge_update]
    have hmedia := h.merge_updateMedia hw query t.media
    simp only [Specification.updateAt, Specification.merge, hmedia]

theorem Sheet.Canonical.merge_apply {s : Sheet} (h : s.Canonical) (t : Sheet) (e : Event) :
    s.merge (t.apply e) = (s.merge t).apply e :=
  All.merge_update h t Specification.merge_empty fun _ hs t => hs.2.merge_apply e t

/-- Events go on from a sheet as if they were performed from nothing and merged into it. -/
theorem Sheet.Canonical.merge_foldl {s : Sheet} (h : s.Canonical) (es : List Event) (t : Sheet) :
    es.foldl Sheet.apply (s.merge t) = s.merge (es.foldl Sheet.apply t) := by
  induction es generalizing t with
  | nil => rfl
  | cons e es ih => rw [List.foldl_cons, List.foldl_cons, ← h.merge_apply, ih]

/-! ## Documents -/

/-- Reading on from a sheet is reading from nothing and merging, and has the same fault. -/
theorem Sheet.Canonical.foldlM_normalizeEntry {s : Sheet} (h : s.Canonical)
    (entries : List (String × Value)) :
    entries.foldlM normalizeEntry s = (normalize (.object entries)).map s.merge := by
  have hfault : faultOf (entries.foldlM normalizeEntry s) = faultOf (normalize (.object entries)) :=
    (faultOf_foldlM faultOf_normalizeEntry entries s).trans (faultOf_normalize entries).symm
  cases hn : normalize (.object entries) with
  | error fault => exact faultOf_eq_some_iff.1 (by rw [hfault, hn]; rfl)
  | ok t =>
    obtain ⟨sheet, hsheet⟩ := faultOf_eq_none_iff.1 (by rw [hfault, hn]; rfl)
    have hstart : s.merge [] = s := OrderedMap.merge_nil s
    have hgo : sheet = (entriesEvents {} entries).foldl Sheet.apply s :=
      foldlM_eq normalizeEntry_eq entries hsheet
    have hnew : t = (entriesEvents {} entries).foldl Sheet.apply [] := normalize_eq hn
    rw [hsheet, hgo, Except.map, hnew, ← h.merge_foldl, hstart]

/-- A document in two parts is normalized part by part: the first part that has a fault decides,
and if none has, the two sheets are merged. -/
theorem normalize_append (first second : List (String × Value)) :
    normalize (.object (first ++ second)) = do
      let s ← normalize (.object first)
      let t ← normalize (.object second)
      return s.merge t := by
  have hcut : normalize (.object (first ++ second))
      = normalize (.object first) >>= fun s => second.foldlM normalizeEntry s :=
    List.foldlM_append
  rw [hcut]
  cases hs : normalize (.object first) with
  | error fault => rfl
  | ok s =>
    have hcanonical : s.Canonical := canonical_of_normalize hs
    change second.foldlM normalizeEntry s = _
    rw [hcanonical.foldlM_normalizeEntry]
    cases normalize (.object second) <;> rfl

end NestedStyles
