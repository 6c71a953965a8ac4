import NestedStyles.Proofs.Cache.Again
import NestedStyles.Proofs.Css.Passage
/-!
# One lookup for each class

A sheet looks the class of a style up for every rule block of the style. The blocks of a style are
printed one after the other, so all of these lookups but the first are of a class that has just been
looked up, and one lookup for each style tells all that is printed.

* `mapM_of_first`, `traverse_of_first`: actions that leave the store alone once the first of them
  has been done;
* `blocks_eq_nil_iff`: a style has blocks if it holds a rule, and `selectors_ne_nil`: each of them
  has a selector;
* `Sheet.lookups` looks the class of every printed style up once; `namedBlocks_of_lookups`: this
  names all blocks.
-/
namespace NestedStyles

open Cache (Store StoreM)
open Css (Block Target namedBlocks)
open ClassName (classFor)

/-! ## Actions of which only the first changes the store -/

section First

variable {α β : Type} {s s' : Store}

theorem mapM_of_first {f : α → StoreM β} {g : α → β} {xs : List α} (hne : xs ≠ [])
    (h : ∀ x ∈ xs, f x s = (.ok (g x), s') ∧ f x s' = (.ok (g x), s')) :
    xs.mapM f s = (.ok (xs.map g), s') := by
  cases xs with
  | nil => exact absurd rfl hne
  | cons x xs =>
    have hrest := mapM_of_forall xs fun y hy => (h y (List.mem_cons_of_mem _ hy)).2
    rw [List.mapM_cons, Cache.bind_of_ok (h x List.mem_cons_self).1, Cache.bind_of_ok hrest]
    rfl

theorem traverse_of_first {σ τ : Type} {query : String → String} {f : σ → StoreM τ} {g : σ → τ}
    {b : Block σ} (hne : b.selectors ≠ [])
    (h : ∀ x ∈ b.selectors, f x s = (.ok (g x), s') ∧ f x s' = (.ok (g x), s')) :
    b.traverse query f s = (.ok (b.map query g), s') := by
  cases b with
  | rules b =>
    have hb := Css.RuleBlock.traverse_of_ok (h _ (List.mem_singleton.2 rfl)).1
    change (b.traverse f >>= fun b => pure (Block.rules b)) s = _
    rw [Cache.bind_of_ok hb]
    rfl
  | media q bs =>
    have hnil : bs ≠ [] := fun hnil => hne (by rw [hnil]; rfl)
    have hbs : bs.mapM (Css.RuleBlock.traverse f) s
        = (.ok (bs.map fun b => ⟨g b.selector, b.rules⟩), s') :=
      mapM_of_first hnil fun b hb =>
        have hx := h _ (List.mem_map_of_mem hb)
        ⟨Css.RuleBlock.traverse_of_ok hx.1, Css.RuleBlock.traverse_of_ok hx.2⟩
    change (bs.mapM (Css.RuleBlock.traverse f) >>= fun bs => pure (Block.media (query q) bs)) s = _
    rw [Cache.bind_of_ok hbs]
    rfl

end First

/-! ## Blocks of a style -/

/-- A style has blocks if it holds a rule. -/
theorem blocks_eq_nil_iff (style : String) (spec : Specification) :
    spec.blocks style none = [] ↔ (spec.branches style []).any Branch.holdsRule = false := by
  have hshown : (spec.blocks style none).map (Block.shownAs id id)
      = (spec.branches style []).flatMap (Branch.passages id id) := shown_blocks id id style spec []
  rw [← List.map_eq_nil_iff (f := Block.shownAs id id), hshown, List.flatMap_eq_nil_iff,
    List.any_eq_false]
  refine forall₂_congr fun b _ => passages_eq_nil_iff.trans ?_
  rw [Bool.not_eq_true]

mutual

theorem selectors_ne_nil (style : String) : ∀ (spec : Specification) (parent : Option String)
    {b : Block Target}, b ∈ spec.blocks style parent → b.selectors ≠ []
  | ⟨rules, selectors, media, parents⟩, parent, b, hb => by
    rw [Specification.blocks, List.mem_append, List.mem_append] at hb
    rcases hb with (hb | hb) | hb
    · obtain ⟨rb, -, rfl⟩ := List.mem_map.1 hb
      exact List.cons_ne_nil _ _
    · obtain ⟨e, -, he⟩ := List.mem_filterMap.1 hb
      unfold Css.mediaBlock? at he
      split at he
      · cases he
      · next hne =>
        cases he
        simpa [Block.selectors] using hne
    · exact selectors_ne_nil_parentBlocks style parents parent hb

theorem selectors_ne_nil_parentBlocks (style : String) :
    ∀ (parents : List (String × Specification)) (parent : Option String) {b : Block Target},
      b ∈ parentBlocks style parent parents → b.selectors ≠ []
  | [], parent, b, hb => by
    rw [parentBlocks] at hb
    cases hb
  | (selector, inner) :: rest, parent, b, hb => by
    rw [parentBlocks, List.mem_append] at hb
    rcases hb with hb | hb
    · exact selectors_ne_nil style inner _ hb
    · exact selectors_ne_nil_parentBlocks style rest parent hb

end

/-! ## Naming -/

variable {o : Options} {className : String → String} {s s' : Store}

/-- The selector of a target, where its class is known. -/
theorem selector_of_classFor {t : Target} (hglobal : isGlobal t.style = false)
    (h : classFor o.classPrefixes o.compressClassNames t.style s = (.ok (className t.style), s')) :
    t.selector o s = (.ok (t.named className), s') := by
  unfold Target.selector Target.named
  rw [hglobal, if_neg Bool.false_ne_true, if_neg Bool.false_ne_true, Cache.bind_of_ok h]
  rfl

theorem selector_of_isGlobal {t : Target} (hglobal : isGlobal t.style = true) :
    t.selector o s = (.ok (t.named className), s) := by
  unfold Target.selector Target.named
  rw [hglobal, if_pos rfl, if_pos rfl]
  rfl

/-- Looks up the class of every style that is printed with one. -/
def Sheet.lookups (o : Options) (sheet : Sheet) : StoreM (List String) :=
  sheet.printedStyles.mapM (classFor o.classPrefixes o.compressClassNames)

/-- Naming the blocks of one style. -/
abbrev namedStyle (o : Options) (style : String) (spec : Specification) :
    StoreM (List (Block Css.Selector)) :=
  (spec.blocks style none).mapM (Block.traverse o.resolveMedia (Target.selector o))

theorem namedStyle_of_isGlobal {style : String} (hglobal : isGlobal style = true)
    (spec : Specification) : namedStyle o style spec s
      = (.ok ((spec.blocks style none).map (Block.map o.resolveMedia (Target.named className))),
        s) :=
  mapM_of_forall _ fun b hb => traverse_of_forall fun t ht =>
    selector_of_isGlobal (by rw [style_of_blocks style none spec hb t ht, hglobal])

theorem namedStyle_of_classFor {style : String} (hglobal : isGlobal style = false)
    {spec : Specification} (hne : spec.blocks style none ≠ [])
    (h : classFor o.classPrefixes o.compressClassNames style s = (.ok (className style), s')) :
    namedStyle o style spec s
      = (.ok ((spec.blocks style none).map (Block.map o.resolveMedia (Target.named className))),
        s') := by
  have hagain := ClassName.classFor_again h
  have hselector : ∀ {s₁ : Store}, classFor o.classPrefixes o.compressClassNames style s₁
      = (.ok (className style), s') → ∀ b ∈ spec.blocks style none, ∀ t ∈ b.selectors,
      t.selector o s₁ = (.ok (t.named className), s') := by
    intro s₁ hs₁ b hb t ht
    have hstyle := style_of_blocks style none spec hb t ht
    exact selector_of_classFor (by rw [hstyle, hglobal]) (by rw [hstyle, hs₁])
  refine mapM_of_first hne fun b hb => ⟨?_, ?_⟩
  · exact traverse_of_first (selectors_ne_nil style spec none hb) fun t ht =>
      ⟨hselector h b hb t ht, hselector hagain b hb t ht⟩
  · exact traverse_of_forall fun t ht => hselector hagain b hb t ht

theorem printedStyles_cons (e : String × Specification) (sheet : Sheet) :
    Sheet.printedStyles (e :: sheet)
      = if (!isGlobal e.1 && (e.2.branches e.1 []).any Branch.holdsRule) = true
        then e.1 :: Sheet.printedStyles sheet else Sheet.printedStyles sheet := by
  unfold Sheet.printedStyles
  rw [List.filter_cons]
  split <;> rfl

/-- The first style of a sheet is named by the first lookup, if it needs one. -/
theorem namedStyle_of_lookups (e : String × Specification) (sheet : Sheet)
    (h : Sheet.lookups o (e :: sheet) s
      = (.ok ((Sheet.printedStyles (e :: sheet)).map className), s')) :
    ∃ s₁, namedStyle o e.1 e.2 s
        = (.ok ((e.2.blocks e.1 none).map (Block.map o.resolveMedia (Target.named className))), s₁)
      ∧ sheet.lookups o s₁ = (.ok (sheet.printedStyles.map className), s') := by
  unfold Sheet.lookups at h ⊢
  rw [printedStyles_cons] at h
  cases hglobal : isGlobal e.1 with
  | true =>
    rw [hglobal, Bool.not_true, Bool.false_and, if_neg Bool.false_ne_true] at h
    exact ⟨s, namedStyle_of_isGlobal hglobal e.2, h⟩
  | false =>
    cases hholds : (e.2.branches e.1 []).any Branch.holdsRule with
    | false =>
      rw [hholds, Bool.and_false, if_neg Bool.false_ne_true] at h
      refine ⟨s, ?_, h⟩
      rw [namedStyle, (blocks_eq_nil_iff e.1 e.2).2 hholds]
      rfl
    | true =>
      have hne : e.2.blocks e.1 none ≠ [] := fun hnil => by
        rw [(blocks_eq_nil_iff e.1 e.2).1 hnil] at hholds
        cases hholds
      rw [hglobal, hholds, Bool.not_false, Bool.true_and, if_pos rfl, List.mapM_cons] at h
      obtain ⟨name, s₁, hname, h⟩ := Cache.ok_of_bind h
      obtain ⟨names, s₂, hnames, h⟩ := Cache.ok_of_bind h
      cases h
      exact ⟨s₁, namedStyle_of_classFor hglobal hne hname, hnames⟩

/-- One lookup for each style that is printed with a class names all blocks of the sheet. -/
theorem namedBlocks_of_lookups (sheet : Sheet)
    (h : sheet.lookups o s = (.ok (sheet.printedStyles.map className), s')) :
    namedBlocks o sheet s
      = (.ok (sheet.blocks.map (Block.map o.resolveMedia (Target.named className))), s') := by
  induction sheet generalizing s with
  | nil =>
    cases h
    rfl
  | cons e sheet ih =>
    obtain ⟨s₁, hstyle, hrest⟩ := namedStyle_of_lookups e sheet h
    have hblocks : Sheet.blocks (e :: sheet) = e.2.blocks e.1 none ++ Sheet.blocks sheet := rfl
    have hsheet := ih hrest
    unfold namedBlocks at hsheet ⊢
    rw [hblocks, List.mapM_append, Cache.bind_of_ok hstyle, Cache.bind_of_ok hsheet,
      List.map_append]
    rfl

end NestedStyles
