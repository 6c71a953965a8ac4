import NestedStyles.Compile
import NestedStyles.Proofs.Css.Printed
/-!
# The blocks of a file

The CSS of a file is cut into blocks before the engine sees it, by a reader that knows nothing of
the sheets: a block ends at a line that is a closing brace and nothing else. What it finds are the
blocks that were printed, each with its text, so long as all texts and all names of classes are on
one line.

* `mapM_of_mapM`: steps that succeed wherever other steps do;
* `Css.emitted` are the blocks that are printed for a file, `printSheets_eq` is their text;
* `topLevelBlocks_of_printSheets`: cutting the text gives the blocks back;
* `topLevelBlocks_of_any_name`: it does not if the name of a class holds line feeds.
-/
namespace NestedStyles

open Cache (Store StoreM)
open Css (Block Passage Target generate namedBlocks topLevelBlocks)
open Text (OneLine joinLines unlines)

/-- Steps that succeed wherever others do, and leave the same store behind. -/
theorem mapM_of_mapM {α β γ : Type} {f : α → StoreM β} {f' : α → StoreM γ} {g : α → β} {g' : α → γ}
    (h : ∀ x s s', f x s = (.ok (g x), s') → f' x s = (.ok (g' x), s')) {xs : List α} {s s' : Store}
    (hxs : xs.mapM f s = (.ok (xs.map g), s')) : xs.mapM f' s = (.ok (xs.map g'), s') := by
  induction xs generalizing s with
  | nil =>
    cases hxs
    rfl
  | cons x xs ih =>
    rw [List.mapM_cons] at hxs ⊢
    obtain ⟨y, s₁, hy, hxs⟩ := Cache.ok_of_bind hxs
    obtain ⟨ys, s₂, hys, hxs⟩ := Cache.ok_of_bind hxs
    cases hxs
    rw [Cache.bind_of_ok (h x s s₁ hy), Cache.bind_of_ok (ih hys)]
    rfl

/-- What steps give one after the other, each of them gives somewhere. -/
theorem forall₂_of_mapM {α β : Type} {f : α → StoreM β} {R : α → β → Prop} {xs : List α}
    {ys : List β} {s s' : Store} (hR : ∀ x ∈ xs, ∀ y s s', f x s = (.ok y, s') → R x y)
    (h : xs.mapM f s = (.ok ys, s')) : List.Forall₂ R xs ys := by
  induction xs generalizing ys s with
  | nil =>
    cases h
    exact .nil
  | cons x xs ih =>
    rw [List.mapM_cons] at h
    obtain ⟨y, s₁, hy, h⟩ := Cache.ok_of_bind h
    obtain ⟨zs, s₂, hzs, h⟩ := Cache.ok_of_bind h
    cases h
    exact .cons (hR x List.mem_cons_self y s s₁ hy)
      (ih (fun z hz => hR z (List.mem_cons_of_mem _ hz)) hzs)

theorem forall_of_mapM {α β : Type} {f : α → StoreM β} {P : β → Prop} {xs : List α} {ys : List β}
    {s s' : Store} (hP : ∀ x ∈ xs, ∀ y s s', f x s = (.ok y, s') → P y)
    (h : xs.mapM f s = (.ok ys, s')) : ∀ y ∈ ys, P y := by
  have hall : List.Forall₂ (fun _ y => P y) xs ys := forall₂_of_mapM hP h
  clear hP h
  induction hall with
  | nil => exact fun y hy => by cases hy
  | cons hy hys ih => exact List.forall_mem_cons.2 ⟨hy, ih⟩

theorem exists_of_mapM {α β : Type} {f : α → StoreM β} {g : α → β} {xs : List α} {s s' : Store}
    (hxs : xs.mapM f s = (.ok (xs.map g), s')) {x : α} (hx : x ∈ xs) :
    ∃ s₁ s₂, f x s₁ = (.ok (g x), s₂) := by
  have hall := forall₂_of_mapM (R := fun x y => ∃ s₁ s₂, f x s₁ = (.ok y, s₂))
    (fun _ _ _ s₁ s₂ h => ⟨s₁, s₂, h⟩) hxs
  rw [List.forall₂_map_right_iff, List.forall₂_same] at hall
  exact hall x hx

/-- The text of a block: its lines, each with its line feed. -/
def Css.Block.text (b : Block Css.Selector) : String := unlines b.lines

/-- The blocks that are printed for the sheets of a file. -/
def Css.emitted (o : Options) (file : String) (sheets : OrderedMap String Sheet) :
    StoreM (List (Block Css.Selector)) := do
  return (← sheets.mapM fun e => namedBlocks (o.forSheet file e.1) e.2).flatten

section Printing

variable {o : Options} {file : String} {sheets : OrderedMap String Sheet}
  {className : String → String → String} {s s' : Store}

/-- The passages of the sheets of a file. -/
def passagesOf (o : Options) (className : String → String → String)
    (sheets : OrderedMap String Sheet) : List Passage :=
  sheets.flatMap fun e => e.2.passages o.resolveMedia (className e.1)

/-- The blocks that are printed for a file have the texts of its passages. -/
theorem emitted_eq
    (hlookups : sheets.mapM (fun e => e.2.lookups (o.forSheet file e.1)) s
      = (.ok (sheets.map fun e => e.2.printedStyles.map (className e.1)), s')) :
    ∃ blocks, Css.emitted o file sheets s = (.ok blocks, s')
      ∧ blocks.map Block.text = (passagesOf o className sheets).map Passage.text := by
  have hsheet : ∀ (e : String × Sheet) (s s' : Store),
      e.2.lookups (o.forSheet file e.1) s = (.ok (e.2.printedStyles.map (className e.1)), s') →
      namedBlocks (o.forSheet file e.1) e.2 s
        = (.ok (e.2.blocks.map (Block.map o.resolveMedia (Target.named (className e.1)))), s') :=
    fun e _ _ h => namedBlocks_of_lookups e.2 h
  have htext : ∀ b : Block Css.Selector, b.text = b.shown.text := fun b => by
    rw [Block.text, b.lines_eq, Passage.text]
  refine ⟨sheets.flatMap fun e =>
    e.2.blocks.map (Block.map o.resolveMedia (Target.named (className e.1))), ?_, ?_⟩
  · unfold Css.emitted
    rw [Cache.bind_of_ok (mapM_of_mapM hsheet hlookups), List.flatMap_def]
    rfl
  · simp only [passagesOf, ← shown_sheet, List.map_flatMap, List.map_map, Function.comp_def, htext,
      Block.shownAs]

/-- What is printed for a file are the lines of its passages. -/
theorem printSheets_eq
    (hlookups : sheets.mapM (fun e => e.2.lookups (o.forSheet file e.1)) s
      = (.ok (sheets.map fun e => e.2.printedStyles.map (className e.1)), s'))
    (hprintable : ∀ p ∈ passagesOf o className sheets, p.Printable) :
    printSheets o file sheets s
      = (.ok (unlines ((passagesOf o className sheets).flatMap Passage.lines)), s') := by
  have hsheet : ∀ (e : String × Sheet) (s s' : Store),
      e.2.lookups (o.forSheet file e.1) s = (.ok (e.2.printedStyles.map (className e.1)), s') →
      generate (o.forSheet file e.1) e.2 s = (.ok (joinLines
        ((e.2.passages o.resolveMedia (className e.1)).flatMap Passage.lines)), s') :=
    fun e _ _ h => generate_eq h
  have hlines : ∀ ls ∈ sheets.map (fun e =>
        (e.2.passages o.resolveMedia (className e.1)).flatMap Passage.lines),
      ∀ l ∈ ls, Text.IsLine l := by
    intro ls hls l hl
    obtain ⟨e, he, rfl⟩ := List.mem_map.1 hls
    exact (Css.isPrinted_passages (fun p hp => hprintable p (List.mem_flatMap.2 ⟨e, he, hp⟩))
      l hl).isLine
  have hunlines := Text.unlines_filter_joinLines hlines
  rw [List.map_map, ← List.flatMap_def] at hunlines
  unfold printSheets
  rw [Cache.bind_of_ok (mapM_of_mapM hsheet hlookups), passagesOf, List.flatMap_assoc, ← hunlines]
  rfl

theorem printable_passagesOf
    (hlookups : sheets.mapM (fun e => e.2.lookups (o.forSheet file e.1)) s
      = (.ok (sheets.map fun e => e.2.printedStyles.map (className e.1)), s'))
    (htexts : ∀ e ∈ sheets, ∀ text ∈ e.2.texts, OneLine text)
    (hqueries : ∀ e ∈ sheets, ∀ query ∈ e.2.queries, OneLine (o.resolveMedia query))
    (hclass : o.compressClassNames = true →
      ∀ e ∈ sheets, ∀ style ∈ e.2.printedStyles, OneLine (className e.1 style)) :
    ∀ p ∈ passagesOf o className sheets, p.Printable := by
  intro p hp
  obtain ⟨e, he, hp⟩ := List.mem_flatMap.1 hp
  obtain ⟨s₁, s₂, hsheet⟩ := exists_of_mapM hlookups he
  exact printable_of_oneLine (htexts e he) (hqueries e he)
    (oneLine_classes hsheet fun hcompress => hclass hcompress e he) p hp

/-- Cutting what is printed for a file gives its blocks back, each with its text, and nothing
else. -/
theorem topLevelBlocks_of_printSheets
    (hlookups : sheets.mapM (fun e => e.2.lookups (o.forSheet file e.1)) s
      = (.ok (sheets.map fun e => e.2.printedStyles.map (className e.1)), s'))
    (htexts : ∀ e ∈ sheets, ∀ text ∈ e.2.texts, OneLine text)
    (hqueries : ∀ e ∈ sheets, ∀ query ∈ e.2.queries, OneLine (o.resolveMedia query))
    (hclass : o.compressClassNames = true →
      ∀ e ∈ sheets, ∀ style ∈ e.2.printedStyles, OneLine (className e.1 style)) :
    ∃ css blocks, printSheets o file sheets s = (.ok css, s')
      ∧ Css.emitted o file sheets s = (.ok blocks, s')
      ∧ topLevelBlocks css = blocks.map Block.text
      ∧ String.join (topLevelBlocks css) = css := by
  have hprintable := printable_passagesOf hlookups htexts hqueries hclass
  obtain ⟨blocks, hblocks, htext⟩ := emitted_eq hlookups
  have hcut := Css.topLevelBlocks_unlines hprintable
  refine ⟨_, blocks, printSheets_eq hlookups hprintable, hblocks, hcut.trans htext.symm, ?_⟩
  rw [hcut]
  exact (Text.unlines_flatMap _ _).symm

theorem topLevelBlocks_of_printSheets_two :
    ∃ css blocks, printSheets { compressClassNames := true } "f"
        [("s", [("a", { rules := [("top", .text "\x7d")] })]),
          ("t", [("$p", { media := [("q", { rules := [("left", .text "0")] })] })])]
        (.memory []) = (.ok css, .memory [("f-s-a", "_0")])
      ∧ Css.emitted { compressClassNames := true } "f"
        [("s", [("a", { rules := [("top", .text "\x7d")] })]),
          ("t", [("$p", { media := [("q", { rules := [("left", .text "0")] })] })])]
        (.memory []) = (.ok blocks, .memory [("f-s-a", "_0")])
      ∧ topLevelBlocks css = blocks.map Block.text ∧ String.join (topLevelBlocks css) = css :=
  @topLevelBlocks_of_printSheets _ _ _ (fun _ _ => "_0") _ _ (by cbv) (by decide) (by decide)
    fun _ => by decide

end Printing

/-- A name of a class with line feeds in it is not cut as it was printed: the blank line gets
lost. -/
theorem topLevelBlocks_of_any_name :
    ¬∀ (o : Options) (file : String) (sheets : OrderedMap String Sheet) (s s' : Store)
      (css : String) (blocks : List (Block Css.Selector)),
      (∀ e ∈ sheets, ∀ text ∈ e.2.texts, OneLine text) →
      (∀ e ∈ sheets, ∀ query ∈ e.2.queries, OneLine (o.resolveMedia query)) →
      printSheets o file sheets s = (.ok css, s') →
      Css.emitted o file sheets s = (.ok blocks, s') →
      topLevelBlocks css = blocks.map Block.text ∧ String.join (topLevelBlocks css) = css := by
  intro h
  have hcut := h { compressClassNames := true } "f"
    [("s", [("a", { media := [("x", { rules := [("color", .text "red")] })] })])]
    (.memory [("f-s-a", "b,\n\n.c")]) (.memory [("f-s-a", "b,\n\n.c")])
    "@x \x7b\n  .b,\n\n.c \x7b\n    color: red;\n  \x7d\n\x7d\n"
    [.media "x" [⟨.ofClass none "b,\n\n.c" "", [("color", .text "red")]⟩]]
    (by decide) (by decide) (by cbv) (by cbv)
  exact absurd hcut.2 (by decide)

end NestedStyles
