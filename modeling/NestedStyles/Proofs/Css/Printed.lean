import NestedStyles.Proofs.Css.Naming
import NestedStyles.Proofs.Css.Reader
/-!
# What printed CSS says

Printed CSS can be read: the passages that its lines spell are those of the sheet, in the order of a
walk through the sheet, none is missing and none is empty. All texts of the sheet have to be on one
line, and so have the names of classes that a store answers; readable names always are.

* `generate_eq`: what is printed are the lines of the passages;
* `generate_reads_back`: it is read back, and it is the empty text for sheets without rules only;
* `no_reader_for_any_name`: with a line feed in the name of a class there is no reading it.
-/
namespace NestedStyles

open Cache (Store)
open Css (Block Passage Target generate namedBlocks readCss)
open ClassName (readable)
open Text (OneLine joinLines)

/-! ## Names of classes -/

theorem ClassName.plainChar_ne_newline (c : Char) : plainChar c ≠ '\n' := by
  unfold plainChar
  split
  · rintro rfl
    exact absurd ‹isPlain '\n' = true› (by decide)
  · decide

/-- A readable name is on one line, whatever it is made from. -/
theorem ClassName.oneLine_readable (prefixes : List String) (style : String) :
    OneLine (readable prefixes style) := by
  refine Text.oneLine_intercalate (by decide) fun part hpart => ?_
  obtain ⟨text, -, rfl⟩ := List.mem_map.1 hpart
  rw [Text.oneLine_ofList]
  intro hmem
  obtain ⟨c, -, hc⟩ := List.mem_map.1 hmem
  exact plainChar_ne_newline c hc

section Printing

variable {o : Options} {sheet : Sheet} {className : String → String} {s s' : Store}

/-- Without compression all classes have their readable names. -/
theorem oneLine_classes
    (hlookups : sheet.lookups o s = (.ok (sheet.printedStyles.map className), s'))
    (hclass : o.compressClassNames = true →
      ∀ style ∈ sheet.printedStyles, OneLine (className style)) :
    ∀ style ∈ sheet.printedStyles, OneLine (className style) := by
  cases hcompress : o.compressClassNames with
  | true => exact hclass hcompress
  | false =>
    have hreadable : sheet.lookups o s
        = (.ok (sheet.printedStyles.map (readable o.classPrefixes)), s) :=
      mapM_of_forall _ fun style _ => by rw [hcompress]; rfl
    rw [hreadable] at hlookups
    have hmap := Except.ok.inj (Prod.mk.inj hlookups).1
    intro style hstyle
    rw [← List.map_inj_left.1 hmap style hstyle]
    exact ClassName.oneLine_readable _ _

/-- What is printed for a sheet are the lines of its passages. -/
theorem generate_eq
    (hlookups : sheet.lookups o s = (.ok (sheet.printedStyles.map className), s')) :
    generate o sheet s
      = (.ok (joinLines ((sheet.passages o.resolveMedia className).flatMap Passage.lines)),
        s') := by
  unfold generate
  rw [Cache.bind_of_ok (namedBlocks_of_lookups sheet hlookups), ← shown_sheet, List.flatMap_map]
  unfold Css.textOf
  rw [List.flatMap_map]
  simp only [Css.Block.lines_eq, Block.shownAs]
  rfl

/-- What is printed for a sheet is read back as its passages, and it is the empty text only if the
sheet holds no rule. -/
theorem generate_reads_back
    (hlookups : sheet.lookups o s = (.ok (sheet.printedStyles.map className), s'))
    (htexts : ∀ text ∈ sheet.texts, OneLine text)
    (hqueries : ∀ query ∈ sheet.queries, OneLine (o.resolveMedia query))
    (hclass : o.compressClassNames = true →
      ∀ style ∈ sheet.printedStyles, OneLine (className style)) :
    ∃ css, generate o sheet s = (.ok css, s')
      ∧ readCss css = sheet.passages o.resolveMedia className
      ∧ (css = "" ↔ sheet.HoldsNoRule) := by
  have hprintable := printable_of_oneLine htexts hqueries (oneLine_classes hlookups hclass)
  refine ⟨_, generate_eq hlookups, Css.readCss_joinLines hprintable, ?_⟩
  rw [Text.joinLines_eq_empty_iff fun l hl => (Css.isPrinted_passages hprintable l hl).isLine,
    ← passages_sheet_eq_nil_iff, List.flatMap_eq_nil_iff]
  constructor
  · intro h
    exact List.eq_nil_iff_forall_not_mem.2 fun p hp => Css.lines_ne_nil p (h p hp)
  · intro h p hp
    rw [h] at hp
    cases hp

end Printing

theorem generate_reads_back_nested :
    ∃ css, generate { compressClassNames := true, mediaMap := [("q", "@media print")] }
        [("a", {
            rules := [("top", .text "1")]
            selectors := [(":hover", [])]
            media := [("e", {}), ("q", { selectors := [(":focus", [("left", .text "0")])] })]
            parents := [("body", { parents := [("p", { rules := [("top", .text "2")] })] })] }),
          ("$ul > li", { parents := [("p", { rules := [("top", .text "3")] })] })]
        (.memory []) = (.ok css, .memory [("a", "_0")])
      ∧ readCss css = [
        .rules ⟨"._0", ["top: 1;"]⟩,
        .media "media print" [⟨"._0:focus", ["left: 0;"]⟩],
        .rules ⟨"body p ._0", ["top: 2;"]⟩,
        .rules ⟨"ul > li", ["top: 3;"]⟩] := by
  have hlookups : Sheet.lookups { compressClassNames := true, mediaMap := [("q", "@media print")] }
        [("a", {
            rules := [("top", .text "1")]
            selectors := [(":hover", [])]
            media := [("e", {}), ("q", { selectors := [(":focus", [("left", .text "0")])] })]
            parents := [("body", { parents := [("p", { rules := [("top", .text "2")] })] })] }),
          ("$ul > li", { parents := [("p", { rules := [("top", .text "3")] })] })]
        (.memory []) = (.ok ["_0"], .memory [("a", "_0")]) := by
    cbv
  obtain ⟨css, hcss, hread, -⟩ := @generate_reads_back _ _ (fun _ => "_0") _ _ hlookups (by decide)
    (by decide) (fun _ => by decide)
  exact ⟨css, hcss, hread⟩

/-- Where the name of a class may be any text, what is printed cannot be read: a name with line
feeds in it looks like several blocks. -/
theorem no_reader_for_any_name :
    ¬∃ read : String → List Passage, ∀ (o : Options) (sheet : Sheet) (className : String → String)
      (s s' : Store), sheet.lookups o s = (.ok (sheet.printedStyles.map className), s') →
        (∀ text ∈ sheet.texts, OneLine text) →
        (∀ query ∈ sheet.queries, OneLine (o.resolveMedia query)) →
        ∃ css, generate o sheet s = (.ok css, s')
          ∧ read css = sheet.passages o.resolveMedia className := by
  rintro ⟨read, h⟩
  obtain ⟨css₁, hcss₁, hread₁⟩ := h { compressClassNames := true }
    [("a", { rules := [("top", .text "1")] })] (fun _ => "b \x7b\n  top: 1;\n\x7d\n.c")
    (.memory [("a", "b \x7b\n  top: 1;\n\x7d\n.c")])
    (.memory [("a", "b \x7b\n  top: 1;\n\x7d\n.c")])
    (by cbv) (by decide) (by decide)
  obtain ⟨css₂, hcss₂, hread₂⟩ := h { compressClassNames := true }
    [("b", { rules := [("top", .text "1")] }), ("c", { rules := [("top", .text "1")] })] id
    (.memory [("b", "b"), ("c", "c")]) (.memory [("b", "b"), ("c", "c")])
    (by cbv) (by decide) (by decide)
  have hsame : (generate { compressClassNames := true } [("a", { rules := [("top", .text "1")] })]
        (.memory [("a", "b \x7b\n  top: 1;\n\x7d\n.c")])).1
      = (generate { compressClassNames := true }
        [("b", { rules := [("top", .text "1")] }), ("c", { rules := [("top", .text "1")] })]
        (.memory [("b", "b"), ("c", "c")])).1 := by
    cbv
  rw [hcss₁, hcss₂] at hsame
  rw [Except.ok.inj hsame, hread₂] at hread₁
  exact absurd hread₁ (by decide)

end NestedStyles
