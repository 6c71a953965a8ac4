import NestedStyles.Proofs.Cache.Store
import NestedStyles.Css.Generate
/-!
# Naming the blocks of a sheet

Which blocks are printed for a sheet, and with which rules, is settled before their classes have
names. Where every name is known, naming the blocks is a map and leaves the store alone.

* `Block.map` and `Block.selectors` are the plain counterparts of `Block.traverse`;
* `mapM_of_forall`, `traverse_of_forall`: actions that leave the store alone;
* `Target.named` is the selector of a target whose class is known, `Selector.rename` puts another
  class in its place;
* `style_mem_of_blocks`: a sheet has blocks for its own styles only.
-/
namespace NestedStyles.Css

variable {σ τ : Type}

/-- A block with other selectors, and with another text of its media query. -/
def Block.map (query : String → String) (f : σ → τ) : Block σ → Block τ
  | .rules b => .rules ⟨f b.selector, b.rules⟩
  | .media q bs => .media (query q) (bs.map fun b => ⟨f b.selector, b.rules⟩)

def Block.selectors : Block σ → List σ
  | .rules b => [b.selector]
  | .media _ bs => bs.map RuleBlock.selector

theorem Block.map_map {υ : Type} (query query' : String → String) (f : σ → τ) (g : τ → υ)
    (b : Block σ) :
    (b.map query f).map query' g = b.map (query' ∘ query) (g ∘ f) := by
  cases b with
  | rules b => rfl
  | media q bs => simp [Block.map, Function.comp_def]

theorem Block.map_congr {query : String → String} {f g : σ → τ} {b : Block σ}
    (h : ∀ x ∈ b.selectors, f x = g x) :
    b.map query f = b.map query g := by
  cases b with
  | rules b => simp [Block.map, h b.selector (List.mem_singleton.2 rfl)]
  | media q bs =>
    have hbs : ∀ b ∈ bs, f b.selector = g b.selector := fun b hb => h _ (List.mem_map_of_mem hb)
    simp only [Block.map, Block.media.injEq, true_and]
    exact List.map_congr_left fun b hb => by rw [hbs b hb]

end NestedStyles.Css

namespace NestedStyles

open Cache (Store StoreM)

/-! ## Actions that leave the store alone -/

theorem mapM_of_forall {α β : Type} {f : α → StoreM β} {g : α → β} {s : Store} (xs : List α)
    (h : ∀ x ∈ xs, f x s = (.ok (g x), s)) : xs.mapM f s = (.ok (xs.map g), s) := by
  induction xs with
  | nil => rfl
  | cons x xs ih =>
    have hrest := ih fun y hy => h y (List.mem_cons_of_mem _ hy)
    rw [List.mapM_cons, Cache.bind_of_ok (h x List.mem_cons_self), Cache.bind_of_ok hrest]
    rfl

theorem Css.RuleBlock.traverse_of_ok {σ τ : Type} {f : σ → StoreM τ} {s s' : Store} {x : τ}
    {b : Css.RuleBlock σ} (h : f b.selector s = (.ok x, s')) :
    b.traverse f s = (.ok ⟨x, b.rules⟩, s') := by
  unfold Css.RuleBlock.traverse
  rw [Cache.bind_of_ok h]
  rfl

theorem traverse_of_forall {σ τ : Type} {query : String → String} {f : σ → StoreM τ} {g : σ → τ}
    {s : Store} {b : Css.Block σ} (h : ∀ x ∈ b.selectors, f x s = (.ok (g x), s)) :
    b.traverse query f s = (.ok (b.map query g), s) := by
  cases b with
  | rules b =>
    change (b.traverse f >>= fun b => pure (Css.Block.rules b)) s = _
    rw [Cache.bind_of_ok (Css.RuleBlock.traverse_of_ok (h _ (List.mem_singleton.2 rfl)))]
    rfl
  | media q bs =>
    have hbs : bs.mapM (Css.RuleBlock.traverse f) s
        = (.ok (bs.map fun b => ⟨g b.selector, b.rules⟩), s) :=
      mapM_of_forall bs fun b hb => Css.RuleBlock.traverse_of_ok (h _ (List.mem_map_of_mem hb))
    change (bs.mapM (Css.RuleBlock.traverse f) >>=
      fun bs => pure (Css.Block.media (query q) bs)) s = _
    rw [Cache.bind_of_ok hbs]
    rfl

/-! ## Targets -/

/-- The selector for a target, where `name` says what the class of a style is. -/
def Css.Target.named (name : String → String) (t : Css.Target) : Css.Selector :=
  if isGlobal t.style then .literal (.ofList (t.style.toList.drop 1) ++ t.fragment)
  else .ofClass t.parent (name t.style) t.fragment

/-- The same selector with another class, if it has one. -/
def Css.Selector.rename (tau : String → String) : Css.Selector → Css.Selector
  | .literal text => .literal text
  | .ofClass parent className fragment => .ofClass parent (tau className) fragment

theorem Css.Target.rename_named (tau name : String → String) (t : Css.Target) :
    (t.named name).rename tau = t.named (tau ∘ name) := by
  unfold Css.Target.named
  split <;> rfl

theorem style_of_ruleBlocks {style : String} {parent : Option String} {rules : Rules}
    {selectors : OrderedMap String Rules} {b : Css.RuleBlock Css.Target}
    (h : b ∈ Css.ruleBlocks style parent rules selectors) : b.selector.style = style := by
  unfold Css.ruleBlocks at h
  obtain ⟨e, -, rfl⟩ := List.mem_map.1 h
  rfl

theorem style_of_mediaBlock? {style query : String} {parent : Option String} {m : MediaBlock}
    {b : Css.Block Css.Target} (h : Css.mediaBlock? style parent query m = some b) :
    ∀ t ∈ b.selectors, t.style = style := by
  unfold Css.mediaBlock? at h
  split at h
  · cases h
  · cases h
    intro t ht
    obtain ⟨rb, hrb, rfl⟩ := List.mem_map.1 ht
    exact style_of_ruleBlocks hrb

mutual

theorem style_of_blocks (style : String) (parent : Option String) :
    ∀ (spec : Specification) {b : Css.Block Css.Target}, b ∈ spec.blocks style parent →
      ∀ t ∈ b.selectors, t.style = style
  | ⟨rules, selectors, media, parents⟩, b, hb => by
    rw [Specification.blocks, List.mem_append, List.mem_append] at hb
    rcases hb with (hb | hb) | hb
    · obtain ⟨rb, hrb, rfl⟩ := List.mem_map.1 hb
      intro t ht
      rw [List.mem_singleton.1 ht]
      exact style_of_ruleBlocks hrb
    · obtain ⟨e, -, he⟩ := List.mem_filterMap.1 hb
      exact style_of_mediaBlock? he
    · exact style_of_parentBlocks style parent parents hb

theorem style_of_parentBlocks (style : String) (parent : Option String) :
    ∀ (parents : List (String × Specification)) {b : Css.Block Css.Target},
    b ∈ parentBlocks style parent parents → ∀ t ∈ b.selectors, t.style = style
  | [], b, hb => by
    rw [parentBlocks] at hb
    cases hb
  | (selector, inner) :: rest, b, hb => by
    rw [parentBlocks, List.mem_append] at hb
    rcases hb with hb | hb
    · exact style_of_blocks style _ inner hb
    · exact style_of_parentBlocks style parent rest hb

end

/-- A sheet has blocks for its own styles only. -/
theorem style_mem_of_blocks {sheet : Sheet} {b : Css.Block Css.Target} (hb : b ∈ sheet.blocks)
    {t : Css.Target} (ht : t ∈ b.selectors) : t.style ∈ sheet.keys := by
  obtain ⟨e, he, heb⟩ := List.mem_flatMap.1 hb
  rw [style_of_blocks e.1 none e.2 heb t ht]
  exact OrderedMap.mem_keys_of_mem he

end NestedStyles
