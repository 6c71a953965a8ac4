import NestedStyles.Proofs.Compile.Blocks
import NestedStyles.Proofs.Css.Engine
/-!
# Building sheets one after the other

The CSS of a file is built from all of its sheets at once: they are printed into one text, which is
cut into blocks, prefixed, cut again and minified. No block is lost or joined to one of another
sheet on the way, so the sheets can as well be built in two parts.

* `OnLines` says that what is written of sheets holds no line feed;
* `buildCss_plain`: without compression, the lines of the passages are processed, and the store
  stays as it is;
* `buildCss_append`: building sheets is building those before and those after any cut, and fails if
  one of the two fails.
-/
namespace NestedStyles

open Cache (Store StoreM)
open ClassName (readable)
open Css (Passage)
open Text (OneLine unlines)

/-- No text that is written for sheets holds a line feed: names, parents, fragments, properties and
values as they are, and media queries as they are resolved. -/
structure OnLines (o : Options) (sheets : OrderedMap String Sheet) : Prop where
  texts : ∀ m ∈ sheets, ∀ text ∈ m.2.writtenTexts, OneLine text
  queries : ∀ m ∈ sheets, ∀ query ∈ m.2.queries, OneLine (o.resolveMedia query)

/-- The readable names of the classes of a file. -/
def readableClass (o : Options) (file sheet style : String) : String :=
  readable (o.forSheet file sheet).classPrefixes style

variable {o : Options} {sheets first second : OrderedMap String Sheet}

theorem OnLines.left (h : OnLines o (first ++ second)) : OnLines o first where
  texts m hm := h.texts m (List.mem_append_left _ hm)
  queries m hm := h.queries m (List.mem_append_left _ hm)

theorem OnLines.right (h : OnLines o (first ++ second)) : OnLines o second where
  texts m hm := h.texts m (List.mem_append_right _ hm)
  queries m hm := h.queries m (List.mem_append_right _ hm)

/-- Passages can be printed if what is written is on one line each. -/
theorem OnLines.printable (h : OnLines o sheets) (file : String) :
    ∀ p ∈ passagesOf o (readableClass o file) sheets, p.Printable := by
  intro p hp
  obtain ⟨m, hm, hp⟩ := List.mem_flatMap.1 hp
  have hclass : ∀ style ∈ m.2.printedStyles, OneLine (readableClass o file m.1 style) :=
    fun style _ => ClassName.oneLine_readable _ style
  exact printable_of_writtenTexts (h.texts m hm) (h.queries m hm) hclass p hp

theorem lookups_plain (hplain : o.compressClassNames = false) (file : String) (s : Store) :
    sheets.mapM (fun m => m.2.lookups (o.forSheet file m.1)) s
      = (.ok (sheets.map fun m => m.2.printedStyles.map (readableClass o file m.1)), s) := by
  refine mapM_of_forall _ fun m _ => mapM_of_forall _ fun style _ => ?_
  have hoff : (o.forSheet file m.1).compressClassNames = false := hplain
  rw [hoff]
  rfl

/-- Without compression, what is printed does not depend on the store and leaves it alone. -/
theorem buildCss_plain (e : Css.Engine) (hplain : o.compressClassNames = false)
    (h : OnLines o sheets) (file : String) (s : Store) : buildCss e o file sheets s
      = (postProcess e o
          (unlines ((passagesOf o (readableClass o file) sheets).flatMap Passage.lines)), s) := by
  unfold buildCss
  rw [Cache.bind_of_ok (printSheets_eq (lookups_plain hplain file s) (h.printable file))]
  rfl

/-- Sheets can be built in two parts, whether prefixes are added or not and whether the text is
minified or not: the texts of the parts follow each other, and there is a fault if one of the parts
has one. -/
theorem buildCss_append {e : Css.Engine} (he : e.ClosesBlocks)
    (hplain : o.compressClassNames = false) (h : OnLines o (first ++ second)) (file : String) :
    buildCss e o file (first ++ second) = do
      let css ← buildCss e o file first
      let more ← buildCss e o file second
      return css ++ more := by
  have hcut : (passagesOf o (readableClass o file) (first ++ second)).flatMap Passage.lines
      = (passagesOf o (readableClass o file) first).flatMap Passage.lines
        ++ (passagesOf o (readableClass o file) second).flatMap Passage.lines := by
    rw [passagesOf, List.flatMap_append, List.flatMap_append]
    rfl
  funext s
  have hcss := buildCss_plain e hplain h.left file s
  have hmore := buildCss_plain e hplain h.right file s
  rw [buildCss_plain e hplain h file s, hcut, Text.unlines_append,
    he.postProcess_append (h.left.printable file)]
  cases hfirst : postProcess e o
      (unlines ((passagesOf o (readableClass o file) first).flatMap Passage.lines)) with
  | error fault =>
    rw [hfirst] at hcss
    rw [Cache.bind_of_error hcss]
    rfl
  | ok css =>
    rw [hfirst] at hcss
    rw [Cache.bind_of_ok hcss]
    cases hsecond : postProcess e o
        (unlines ((passagesOf o (readableClass o file) second).flatMap Passage.lines)) with
    | error fault =>
      rw [hsecond] at hmore
      rw [Cache.bind_of_error hmore]
      rfl
    | ok more =>
      rw [hsecond] at hmore
      rw [Cache.bind_of_ok hmore]
      rfl

/-- Options that ask for prefixes and for the shortest form. -/
def bothRounds : Options := { vendorPrefixes := .enabled true, minify := true }

/-- A sheet with a property that needs prefixes and with a media query that no engine knows. -/
def flexSheets : OrderedMap String Sheet :=
  [("s", [("a", {
    rules := [("flex", .text "1")]
    media := [("phone", { rules := [("top", .text "0")] })] })])]

/-- A sheet with a style that is printed and one that is not. -/
def topSheets : OrderedMap String Sheet :=
  [("t", [("a", { rules := [("top", .text "0px")] }), ("$b", {})])]

theorem buildCss_append_two : OnLines bothRounds (flexSheets ++ topSheets)
    ∧ buildCss Css.engine bothRounds "f" (flexSheets ++ topSheets) = do
        let css ← buildCss Css.engine bothRounds "f" flexSheets
        let more ← buildCss Css.engine bothRounds "f" topSheets
        return css ++ more := by
  have hlines : OnLines bothRounds (flexSheets ++ topSheets) := ⟨by decide, by decide⟩
  exact ⟨hlines, buildCss_append Css.engine_closesBlocks rfl hlines "f"⟩

end NestedStyles
