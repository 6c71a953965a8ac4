import NestedStyles.Proofs.Compile.Concat
import NestedStyles.Proofs.Css.Unknown
/-!
# What comes of the blocks of a file

The CSS of a file is a piece for each of its blocks, in the order in which these are printed. The
piece of a block with an unknown at-rule is that block, whatever else is around it.

* `Block.classNames` are the names of classes in the selectors of a block;
* `exists_named_of_printSheets`: what is printed for a file are the blocks that are emitted for it,
  and `printable_of_named`: they can be printed if the names of their classes are on one line;
* `unknown_blocks_survive`: building a file keeps its unknown blocks as they are and in their
  places;
* `unknown_block_altered`: it may not if the name of a class holds a line feed.
-/
namespace NestedStyles

open Cache (Store StoreM)
open Css (Becomes Block Passage RuleBlock Selector Target namedBlocks topLevelBlocks)
open Text (OneLine joinLines unlines)

/-! ## Names of classes -/

namespace Css

/-- The name of the class in a selector, if there is one. -/
def Selector.className? : Selector → Option String
  | .literal _ => none
  | .ofClass _ className _ => some className

/-- The names of the classes in the selectors of a block. -/
def Block.classNames (b : Block Selector) : List String := b.selectors.filterMap Selector.className?

/-- A selector is on one line if it is without its class, and its class is. -/
theorem Selector.oneLine_text {selector : Selector}
    (h : OneLine (selector.rename fun _ => "").text)
    (hclass : ∀ name ∈ selector.className?, OneLine name) : OneLine selector.text := by
  cases selector with
  | literal text => exact h
  | ofClass parent className fragment =>
    have hname : OneLine className := hclass className rfl
    cases parent with
    | none =>
      simp only [rename, text, Text.oneLine_append] at h ⊢
      exact ⟨⟨h.1.1, hname⟩, h.2⟩
    | some parent =>
      simp only [rename, text, Text.oneLine_append] at h ⊢
      exact ⟨⟨h.1.1, hname⟩, h.2⟩

theorem RuleBlock.printable_shown {b : RuleBlock Selector}
    (h : (RuleBlock.shown ⟨b.selector.rename fun _ => "", b.rules⟩).Printable)
    (hclass : ∀ name ∈ b.selector.className?, OneLine name) : b.shown.Printable :=
  ⟨Selector.oneLine_text h.selector hclass, h.declarations⟩

/-- A block can be printed if it can without the names of its classes, and these are on one line. -/
theorem Block.printable_shown {b : Block Selector}
    (h : (b.map id (Selector.rename fun _ => "")).shown.Printable)
    (hclass : ∀ name ∈ b.classNames, OneLine name) : b.shown.Printable := by
  cases b with
  | rules b =>
    exact RuleBlock.printable_shown h fun name hname =>
      hclass name (List.mem_filterMap.2 ⟨b.selector, List.mem_singleton_self _, hname⟩)
  | media query bs =>
    obtain ⟨hquery, hne, hbs⟩ := h
    refine ⟨hquery, by simpa using hne, fun r hr => ?_⟩
    obtain ⟨b, hb, rfl⟩ := List.mem_map.1 hr
    refine RuleBlock.printable_shown (hbs _ ?_) fun name hname =>
      hclass name (List.mem_filterMap.2 ⟨b.selector, List.mem_map_of_mem hb, hname⟩)
    exact List.mem_map_of_mem (List.mem_map_of_mem hb)

end Css

/-! ## Blocks with their selectors replaced -/

section Traverse

variable {σ τ υ : Type} {query : String → String} {f : σ → StoreM τ} {b : Block σ} {b' : Block τ}
  {s s' : Store}

theorem Css.RuleBlock.exists_of_traverse {b : RuleBlock σ} {b' : RuleBlock τ}
    (h : b.traverse f s = (.ok b', s')) :
    ∃ x, f b.selector s = (.ok x, s') ∧ b' = ⟨x, b.rules⟩ := by
  obtain ⟨x, s₁, hx, h⟩ := Cache.ok_of_bind h
  cases h
  exact ⟨x, hx, rfl⟩

/-- Selectors that show what they have been given for show the same in their block. -/
theorem map_of_traverse {g : σ → υ} {g' : τ → υ}
    (hf : ∀ x y s s', f x s = (.ok y, s') → g' y = g x)
    (h : b.traverse query f s = (.ok b', s')) : b'.map id g' = b.map query g := by
  cases b with
  | rules b =>
    obtain ⟨rb, s₁, hrb, h⟩ := Cache.ok_of_bind h
    cases h
    obtain ⟨x, hx, rfl⟩ := RuleBlock.exists_of_traverse hrb
    rw [Block.map, Block.map, hf _ x _ _ hx]
  | media q bs =>
    obtain ⟨rbs, s₁, hrbs, h⟩ := Cache.ok_of_bind h
    cases h
    have hall : List.Forall₂
        (fun b rb => (⟨g b.selector, b.rules⟩ : RuleBlock υ) = ⟨g' rb.selector, rb.rules⟩) bs rbs :=
      forall₂_of_mapM (fun b _ rb _ _ hrb => by
        obtain ⟨x, hx, rfl⟩ := RuleBlock.exists_of_traverse hrb
        rw [hf _ x _ _ hx]) hrbs
    rw [← List.forall₂_map_right_iff, ← List.forall₂_map_left_iff, List.forall₂_eq_eq_eq] at hall
    rw [Block.map, Block.map, hall]
    rfl

/-- What holds of all selectors that are given holds of those in a block. -/
theorem forall_selectors_of_traverse {P : τ → Prop}
    (hf : ∀ x y s s', f x s = (.ok y, s') → P y)
    (h : b.traverse query f s = (.ok b', s')) : ∀ y ∈ b'.selectors, P y := by
  cases b with
  | rules b =>
    obtain ⟨rb, s₁, hrb, h⟩ := Cache.ok_of_bind h
    cases h
    obtain ⟨x, hx, rfl⟩ := RuleBlock.exists_of_traverse hrb
    intro y hy
    rw [List.mem_singleton.1 hy]
    exact hf _ _ _ _ hx
  | media q bs =>
    obtain ⟨rbs, s₁, hrbs, h⟩ := Cache.ok_of_bind h
    cases h
    have hall : ∀ rb ∈ rbs, P rb.selector :=
      forall_of_mapM (fun b _ rb _ _ hrb => by
        obtain ⟨x, hx, rfl⟩ := RuleBlock.exists_of_traverse hrb
        exact hf _ _ _ _ hx) hrbs
    exact List.forall_mem_map.2 hall

end Traverse

/-! ## Selectors -/

section Selectors

variable {o : Options} {t : Target} {selector : Selector} {s s' : Store}

/-- Without its class a selector is that of its target without a class. -/
theorem rename_selector (h : t.selector o s = (.ok selector, s')) :
    selector.rename (fun _ => "") = t.named fun _ => "" := by
  unfold Target.selector at h
  unfold Target.named
  split at h
  · next hglobal =>
    cases h
    rw [if_pos hglobal]
    rfl
  · next hglobal =>
    obtain ⟨name, s₁, -, h⟩ := Cache.ok_of_bind h
    cases h
    rw [if_neg hglobal]
    rfl

/-- Without compression the class of a selector is on one line. -/
theorem oneLine_className (hplain : o.compressClassNames = false)
    (h : t.selector o s = (.ok selector, s')) : ∀ name ∈ selector.className?, OneLine name := by
  unfold Target.selector at h
  split at h
  · cases h
    rintro name ⟨⟩
  · obtain ⟨name, s₁, hname, h⟩ := Cache.ok_of_bind h
    cases h
    rw [hplain] at hname
    cases hname
    rintro name ⟨⟩
    exact ClassName.oneLine_readable o.classPrefixes t.style

/-- Without the names of their classes, the blocks of a sheet can be printed. -/
theorem printable_of_namedBlocks {sheet : Sheet} (htexts : ∀ t ∈ sheet.writtenTexts, OneLine t)
    (hqueries : ∀ query ∈ sheet.queries, OneLine (o.resolveMedia query)) {bs : List (Block Selector)}
    (h : namedBlocks o sheet s = (.ok bs, s')) :
    ∀ b ∈ bs, (b.map id (Selector.rename fun _ => "")).shown.Printable := by
  have hprintable : ∀ p ∈ sheet.passages o.resolveMedia fun _ => "", p.Printable :=
    printable_of_writtenTexts htexts hqueries fun _ _ => by decide
  rw [← shown_sheet, List.forall_mem_map] at hprintable
  refine forall_of_mapM (fun b₀ hb₀ b s₁ s₂ hb => ?_) h
  have hsame : b.map id (Selector.rename fun _ => "")
      = b₀.map o.resolveMedia (Target.named fun _ => "") :=
    map_of_traverse (fun _ _ _ _ => rename_selector) hb
  rw [hsame]
  exact hprintable b₀ hb₀

/-- Without compression all names of classes are on one line. -/
theorem oneLine_classNames (hplain : o.compressClassNames = false) {sheet : Sheet}
    {bs : List (Block Selector)} (h : namedBlocks o sheet s = (.ok bs, s')) :
    ∀ b ∈ bs, ∀ name ∈ b.classNames, OneLine name := by
  refine forall_of_mapM (fun b₀ _ b s₁ s₂ hb name hname => ?_) h
  obtain ⟨selector, hselector, hname⟩ := List.mem_filterMap.1 hname
  have hall : ∀ selector ∈ b.selectors, ∀ name ∈ selector.className?, OneLine name :=
    forall_selectors_of_traverse (fun _ _ _ _ => oneLine_className hplain) hb
  exact hall selector hselector name hname

end Selectors

/-! ## Blocks of a file -/

section File

variable {o : Options} {file : String} {sheets : OrderedMap String Sheet} {s s' : Store}

/-- What is printed for the sheets of a file are their blocks, sheet by sheet. -/
theorem exists_named_of_printSheets {css : String}
    (h : printSheets o file sheets s = (.ok css, s')) :
    ∃ named, sheets.mapM (fun e => namedBlocks (o.forSheet file e.1) e.2) s = (.ok named, s')
      ∧ css = unlines ((named.map Css.textOf).filter (· ≠ "")) := by
  have htexts : ∀ sheets : OrderedMap String Sheet,
      (sheets.mapM fun e => Css.generate (o.forSheet file e.1) e.2)
        = do return (← sheets.mapM fun e => namedBlocks (o.forSheet file e.1) e.2).map Css.textOf := by
    intro sheets
    induction sheets with
    | nil => rfl
    | cons e sheets ih =>
      rw [List.mapM_cons, List.mapM_cons, ih]
      simp only [Css.generate, bind_assoc, pure_bind, List.map_cons]
  unfold printSheets at h
  rw [htexts] at h
  obtain ⟨texts, s₁, htexts, h⟩ := Cache.ok_of_bind h
  obtain ⟨named, s₂, hnamed, htexts⟩ := Cache.ok_of_bind htexts
  cases htexts
  cases h
  exact ⟨named, hnamed, rfl⟩

/-- The blocks that are emitted can be printed if the names of their classes are on one line each;
without compression they are. -/
theorem printable_of_named (hlines : OnLines o sheets) {named : List (List (Block Selector))}
    (hnamed : sheets.mapM (fun e => namedBlocks (o.forSheet file e.1) e.2) s = (.ok named, s'))
    (hclass : o.compressClassNames = true →
      ∀ b ∈ named.flatten, ∀ name ∈ b.classNames, OneLine name) :
    ∀ b ∈ named.flatten, b.shown.Printable := by
  have hprintable := forall_of_mapM (fun e he _ _ _ =>
    printable_of_namedBlocks (o := o.forSheet file e.1) (hlines.texts e he) (hlines.queries e he))
    hnamed
  intro b hb
  obtain ⟨bs, hbs, hmem⟩ := List.mem_flatten.1 hb
  refine Block.printable_shown (hprintable bs hbs b hmem) ?_
  cases hcompress : o.compressClassNames with
  | true => exact hclass hcompress b hb
  | false =>
    exact forall_of_mapM (fun e _ _ _ _ => oneLine_classNames (o := o.forSheet file e.1) hcompress)
      hnamed bs hbs b hmem

/-- What is printed for a file are the lines of its blocks, if these can be printed. -/
theorem unlines_textOf {named : List (List (Block Selector))}
    (h : ∀ b ∈ named.flatten, b.shown.Printable) :
    unlines ((named.map Css.textOf).filter (· ≠ ""))
      = unlines ((named.flatten.map Block.shown).flatMap Passage.lines) := by
  have hblock : Block.lines = fun b => b.shown.lines := funext Block.lines_eq
  have htext : Css.textOf = fun bs => joinLines ((bs.map Block.shown).flatMap Passage.lines) := by
    funext bs
    rw [Css.textOf, List.flatMap_map, hblock]
  have hprinted : ∀ ls ∈ named.map (fun bs => (bs.map Block.shown).flatMap Passage.lines),
      ∀ l ∈ ls, Text.IsLine l := by
    intro ls hls l hl
    obtain ⟨bs, hbs, rfl⟩ := List.mem_map.1 hls
    refine (Css.isPrinted_passages (fun p hp => ?_) l hl).isLine
    obtain ⟨b, hb, rfl⟩ := List.mem_map.1 hp
    exact h b (List.mem_flatten.2 ⟨bs, hbs, hb⟩)
  have hunlines := Text.unlines_filter_joinLines hprinted
  rw [List.map_map] at hunlines
  rw [htext]
  refine hunlines.trans (congrArg unlines ?_)
  rw [← List.flatMap_def, ← List.flatMap_id, List.map_flatMap, List.flatMap_assoc]
  rfl

end File

/-! ## Building -/

/-- The CSS of a file is a piece for each of its blocks, in their order, and a block with an unknown
at-rule is its own piece, but for its last line feed. -/
theorem unknown_blocks_survive {e : Css.Engine} (hjudges : e.JudgesByText)
    (hcloses : e.ClosesBlocks) {o : Options} {file : String} {sheets : OrderedMap String Sheet}
    (hlines : OnLines o sheets) {s s' : Store}
    (hclass : o.compressClassNames = true →
      ∀ blocks, (Css.emitted o file sheets s).1 = .ok blocks →
      ∀ b ∈ blocks, ∀ name ∈ b.classNames, OneLine name)
    {text : String} (hbuild : buildCss e o file sheets s = (.ok text, s')) :
    ∃ css blocks pieces, printSheets o file sheets s = (.ok css, s')
      ∧ Css.emitted o file sheets s = (.ok blocks, s')
      ∧ topLevelBlocks css = blocks.map Block.text
      ∧ text = o.layOut pieces
      ∧ List.Forall₂ (Becomes e o) (topLevelBlocks css) pieces := by
  obtain ⟨css, s₁, hcss, hbuild⟩ := Cache.ok_of_bind hbuild
  obtain ⟨hpost, rfl⟩ := Prod.mk.inj hbuild
  obtain ⟨named, hnamed, rfl⟩ := exists_named_of_printSheets hcss
  have hemitted : Css.emitted o file sheets s = (.ok named.flatten, s₁) := by
    unfold Css.emitted
    rw [Cache.bind_of_ok hnamed]
    rfl
  have hprintable := printable_of_named hlines hnamed fun hcompress =>
    hclass hcompress _ (congrArg Prod.fst hemitted)
  have hpassages : ∀ p ∈ named.flatten.map Block.shown, p.Printable := List.forall_mem_map.2 hprintable
  have htext : ∀ b : Block Selector, b.text = b.shown.text := fun b => by
    rw [Block.text, b.lines_eq, Passage.text]
  rw [unlines_textOf hprintable] at hcss hpost
  have hcut := Css.topLevelBlocks_unlines hpassages
  obtain ⟨pieces, rfl, hpieces⟩ := Css.exists_pieces hjudges hcloses hpassages hpost
  refine ⟨_, named.flatten, pieces, hcss, hemitted, ?_, rfl, ?_⟩
  · rw [hcut, List.map_map]
    exact List.map_congr_left fun b _ => (htext b).symm
  · rw [hcut]
    exact hpieces

/-- A sheet with a media query that no engine knows. -/
def phoneSheets : OrderedMap String Sheet :=
  [("s", [("a", {
    rules := [("top", .text "0px")]
    media := [("phone", { rules := [("left", .text "0")] })] })])]

theorem unknown_blocks_survive_phone :
    buildCss Css.engine bothRounds "f" phoneSheets (.memory [])
        = (.ok ".f-s-a\x7btop:0\x7d@phone \x7b\n  .f-s-a \x7b\n    left: 0;\n  \x7d\n\x7d",
          .memory [])
      ∧ ∃ css blocks pieces,
        printSheets bothRounds "f" phoneSheets (.memory []) = (.ok css, .memory [])
        ∧ Css.emitted bothRounds "f" phoneSheets (.memory []) = (.ok blocks, .memory [])
        ∧ topLevelBlocks css = blocks.map Block.text
        ∧ ".f-s-a\x7btop:0\x7d@phone \x7b\n  .f-s-a \x7b\n    left: 0;\n  \x7d\n\x7d"
          = bothRounds.layOut pieces
        ∧ List.Forall₂ (Becomes Css.engine bothRounds) (topLevelBlocks css) pieces := by
  have hlines : OnLines bothRounds phoneSheets := ⟨by decide, by decide⟩
  have hpost : postProcess Css.engine bothRounds (unlines
      ((passagesOf bothRounds (readableClass bothRounds "f") phoneSheets).flatMap Passage.lines))
      = .ok ".f-s-a\x7btop:0\x7d@phone \x7b\n  .f-s-a \x7b\n    left: 0;\n  \x7d\n\x7d" := by
    decide +kernel
  have hbuild := buildCss_plain Css.engine rfl hlines "f" (.memory [])
  rw [hpost] at hbuild
  exact ⟨hbuild, unknown_blocks_survive Css.engine_judgesByText Css.engine_closesBlocks hlines
    nofun hbuild⟩

/-- A line feed in the name of a class is enough for an unknown block to be altered: with carriage
returns before it, it is the end of a line that gets shorter in each round. -/
theorem unknown_block_altered :
    ¬∀ (o : Options) (file : String) (sheets : OrderedMap String Sheet) (s s' : Store)
      (css text : String), o.vendorPrefixes.browsers ≠ none ∨ o.minify = true → OnLines o sheets →
      printSheets o file sheets s = (.ok css, s') →
      buildCss Css.engine o file sheets s = (.ok text, s') →
      ∃ pieces, text = o.layOut pieces ∧ List.Forall₂ (fun block piece =>
        Css.engine.FindsUnknown block → block = piece ++ "\n") (topLevelBlocks css) pieces := by
  intro h
  have hcss : printSheets
      { vendorPrefixes := .enabled true, minify := true, compressClassNames := true } "f"
      [("s", [("a", { media := [("x", { rules := [("color", .text "red")] })] })])]
      (.memory [("f-s-a", "b,\r\r\n.c")])
        = (.ok "@x \x7b\n  .b,\r\r\n.c \x7b\n    color: red;\n  \x7d\n\x7d\n",
          .memory [("f-s-a", "b,\r\r\n.c")]) := by
    cbv
  have hpost : postProcess Css.engine
      { vendorPrefixes := .enabled true, minify := true, compressClassNames := true }
      "@x \x7b\n  .b,\r\r\n.c \x7b\n    color: red;\n  \x7d\n\x7d\n"
        = .ok "@x \x7b\n  .b,\n.c \x7b\n    color: red;\n  \x7d\n\x7d" := by
    decide +kernel
  have hcut : topLevelBlocks "@x \x7b\n  .b,\r\r\n.c \x7b\n    color: red;\n  \x7d\n\x7d\n"
      = ["@x \x7b\n  .b,\r\n.c \x7b\n    color: red;\n  \x7d\n\x7d\n"] := by
    decide
  have hunknown : Css.engine.FindsUnknown
      "@x \x7b\n  .b,\r\n.c \x7b\n    color: red;\n  \x7d\n\x7d\n" :=
    ⟨none, false, by decide +kernel⟩
  obtain ⟨pieces, htext, hall⟩ := h _ _ _ _ _ _ _ (Or.inr rfl) ⟨by decide, by decide⟩ hcss
    ((Cache.bind_of_ok hcss).trans (congrArg (·, _) hpost))
  rw [hcut] at hall
  cases hall with
  | cons hblock hnil =>
    cases hnil
    rw [Css.layOut_singleton, if_pos rfl] at htext
    have hsame := hblock hunknown
    rw [← htext] at hsame
    exact absurd hsame (by decide)

end NestedStyles
