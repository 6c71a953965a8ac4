import NestedStyles.Proofs.Css.Block
import NestedStyles.Proofs.Css.Declaration
/-!
# What is printed for a sheet

A sheet is a tree: every style has a specification, which has others under its parents. Each of
these branches is printed by itself, in the order of a walk that goes to a branch before those under
its parents.

* `Branch` is a specification where it stands, `Sheet.branches` is the walk;
* `Passage` is what a reader sees of a block: texts of selectors and declarations. `Branch.passages`
  are those of a branch, and `Passage.lines` are the lines of one;
* `shown_blocks`: the blocks of a sheet, with their classes named, show its passages;
* `printable_of_writtenTexts`: where no text that is written as it is holds a line feed, and no
  media query does once it is resolved, none of a passage does; `printable_of_oneLine` asks for it
  of all texts of the sheet.
-/
namespace NestedStyles

open Css (Block RuleBlock Selector Target declaration)
open Text (OneLine)

/-! ## Walking a sheet -/

/-- A specification where it stands: in a style, under parents from the outermost to the
innermost. -/
structure Branch where
  style : String
  parents : List String
  spec : Specification

mutual

/-- The branches of a specification: itself, and then those under its parents. -/
def Specification.branches (style : String) (parents : List String) : Specification → List Branch
  | ⟨rules, selectors, media, inner⟩ =>
    ⟨style, parents, ⟨rules, selectors, media, inner⟩⟩ :: branchesUnder style parents inner

/-- The branches under further parents. -/
def branchesUnder (style : String) (parents : List String) :
    List (String × Specification) → List Branch
  | [] => []
  | (selector, inner) :: rest =>
    inner.branches style (parents ++ [selector]) ++ branchesUnder style parents rest

end

def Sheet.branches (sheet : Sheet) : List Branch := sheet.flatMap fun e => e.2.branches e.1 []

def MediaBlock.ruleSets (b : MediaBlock) : List Rules := b.rules :: b.selectors.map Prod.snd

/-- All rule sets of a specification but those under its parents. -/
def Specification.ruleSets (s : Specification) : List Rules :=
  s.rules :: (s.selectors.map Prod.snd ++ s.media.flatMap fun e => e.2.ruleSets)

/-- All fragments and media queries of a specification but those under its parents. -/
def Specification.labels (s : Specification) : List String :=
  s.selectors.map Prod.fst ++ s.media.flatMap fun e => e.1 :: e.2.selectors.map Prod.fst

def Specification.fragments (s : Specification) : List String :=
  s.selectors.map Prod.fst ++ s.media.flatMap fun e => e.2.selectors.map Prod.fst

/-- The property and, if there is one, the text of a rule. -/
def ruleTexts : String × RuleValue → List String
  | (property, .text text) => [property, text]
  | (property, .number _) => [property]

/-- All texts of a branch. -/
def Branch.texts (b : Branch) : List String :=
  b.style :: (b.parents ++ b.spec.labels ++ b.spec.ruleSets.flatMap (List.flatMap ruleTexts))

/-- The texts of a branch that are written as they are: all of them but its media queries. -/
def Branch.writtenTexts (b : Branch) : List String :=
  b.style :: (b.parents ++ b.spec.fragments ++ b.spec.ruleSets.flatMap (List.flatMap ruleTexts))

def Sheet.writtenTexts (sheet : Sheet) : List String := sheet.branches.flatMap Branch.writtenTexts

def Sheet.texts (sheet : Sheet) : List String := sheet.branches.flatMap Branch.texts

def Sheet.queries (sheet : Sheet) : List String :=
  sheet.branches.flatMap fun b => b.spec.media.map Prod.fst

/-- Whether a branch holds a rule. -/
def Branch.holdsRule (b : Branch) : Bool := b.spec.ruleSets.any fun rules => !rules.isEmpty

/-- The sheet holds no rule anywhere. -/
def Sheet.HoldsNoRule (sheet : Sheet) : Prop := ∀ b ∈ sheet.branches, b.holdsRule = false

/-- The styles that are printed with a class: those that are not global and hold a rule. -/
def Sheet.printedStyles (sheet : Sheet) : List String :=
  (sheet.filter fun e => !isGlobal e.1 && (e.2.branches e.1 []).any Branch.holdsRule).map Prod.fst

/-! ## Passages -/

namespace Css

/-- What is read of a rule block: its selector and its declarations. -/
structure RuleText where
  selector : String
  declarations : List String
  deriving DecidableEq, Repr

/-- What is read of a block: a rule block, or a media query and its rule blocks. -/
inductive Passage where
  | rules (block : RuleText)
  | media (query : String) (blocks : List RuleText)
  deriving DecidableEq, Repr

end Css

open Css (RuleText Passage)

namespace Branch

variable (resolve className : String → String) (b : Branch)

/-- The selector for a fragment: parents, class and fragment, or the literal name of a global style
and the fragment. -/
def selectorText (fragment : String) : String :=
  if isGlobal b.style then .ofList (b.style.toList.drop 1) ++ fragment
  else " ".intercalate (b.parents ++ ["." ++ className b.style ++ fragment])

/-- The rule block for rules under a fragment, if there are any. -/
def ruleText? (fragment : String) (rules : Rules) : Option RuleText :=
  if rules = [] then none
  else some ⟨b.selectorText className fragment, rules.map fun r => declaration r.1 r.2⟩

/-- The rule blocks for rules without a fragment and for those under fragments. -/
def ruleTexts (rules : Rules) (selectors : OrderedMap String Rules) : List RuleText :=
  List.filterMap (fun e => b.ruleText? className e.1 e.2) (("", rules) :: selectors)

/-- What is printed for a branch: its rules, its fragments, and its media queries unless they are
empty. -/
def passages : List Passage :=
  (b.ruleTexts className b.spec.rules b.spec.selectors).map .rules
    ++ (b.spec.media.filter fun e => !e.2.isEmpty).map fun e =>
      .media (resolve e.1) (b.ruleTexts className e.2.rules e.2.selectors)

end Branch

/-- What is printed for a sheet, given the text of every media query and the class of every
style. -/
def Sheet.passages (resolve className : String → String) (sheet : Sheet) : List Passage :=
  sheet.branches.flatMap (Branch.passages resolve className)

/-! ## Blocks show passages -/

namespace Css

/-- What is read of a rule block. -/
def RuleBlock.shown (b : RuleBlock Selector) : RuleText :=
  ⟨b.selector.text, b.rules.map fun r => declaration r.1 r.2⟩

def Block.shown : Block Selector → Passage
  | .rules b => .rules b.shown
  | .media query bs => .media query (bs.map RuleBlock.shown)

/-- What is read of a block whose media query and classes are given. -/
def Block.shownAs (resolve className : String → String) (b : Block Target) : Passage :=
  (b.map resolve (Target.named className)).shown

end Css

/-- The selector that parents make together. -/
def parentOf : List String → Option String
  | [] => none
  | parents => some (" ".intercalate parents)

theorem parentOf_of_ne_nil {parents : List String} (h : parents ≠ []) :
    parentOf parents = some (" ".intercalate parents) := by
  cases parents with
  | nil => exact absurd rfl h
  | cons first rest => rfl

theorem nestParent_parentOf (parents : List String) (selector : String) :
    some (Css.nestParent (parentOf parents) selector) = parentOf (parents ++ [selector]) := by
  have hne : parents ++ [selector] ≠ [] := by simp
  rw [parentOf_of_ne_nil hne]
  by_cases h : parents = []
  · subst h
    rw [List.nil_append, String.intercalate_singleton]
    rfl
  · rw [parentOf_of_ne_nil h, String.intercalate_append_of_ne_nil h (List.cons_ne_nil _ _),
      String.intercalate_singleton]
    rfl

section Showing

variable (resolve className : String → String) (style : String) (parents : List String)
  (spec : Specification)

theorem text_named (fragment : String) :
    (Target.named className ⟨style, parentOf parents, fragment⟩).text
      = Branch.selectorText className ⟨style, parents, spec⟩ fragment := by
  unfold Target.named Branch.selectorText
  split
  · rfl
  · by_cases h : parents = []
    · subst h
      rw [List.nil_append, String.intercalate_singleton]
      rfl
    · have hdot : " ." = " " ++ "." := rfl
      rw [parentOf_of_ne_nil h, String.intercalate_append_of_ne_nil h (List.cons_ne_nil _ _),
        String.intercalate_singleton, Selector.text, hdot]
      simp only [String.append_assoc]

/-- The rule blocks for rules and fragments show their texts. -/
theorem shown_ruleBlocks (rules : Rules) (selectors : OrderedMap String Rules) :
    (Css.ruleBlocks style (parentOf parents) rules selectors).map
        (fun b => RuleBlock.shown ⟨b.selector.named className, b.rules⟩)
      = Branch.ruleTexts className ⟨style, parents, spec⟩ rules selectors := by
  unfold Css.ruleBlocks Branch.ruleTexts
  rw [List.map_map, ← List.filterMap_eq_map, List.filterMap_filter]
  congr 1
  funext e
  obtain ⟨fragment, rules⟩ := e
  simp only [Function.comp_apply, RuleBlock.shown, text_named className style parents spec]
  cases rules <;> rfl

theorem ruleBlocks_eq_nil_iff (b : MediaBlock) :
    Css.ruleBlocks style (parentOf parents) b.rules b.selectors = [] ↔ b.isEmpty = true := by
  unfold Css.ruleBlocks MediaBlock.isEmpty
  simp [List.filter_eq_nil_iff]

/-- The block of a media query shows its text, if it has one. -/
theorem shown_mediaBlock? (query : String) (b : MediaBlock) :
    (Css.mediaBlock? style (parentOf parents) query b).map (Block.shownAs resolve className)
      = if (!b.isEmpty) = true then some (.media (resolve query)
          (Branch.ruleTexts className ⟨style, parents, spec⟩ b.rules b.selectors)) else none := by
  have hempty := ruleBlocks_eq_nil_iff style parents b
  rw [← shown_ruleBlocks]
  unfold Css.mediaBlock?
  split
  · next hnil =>
    rw [hempty.1 hnil]
    rfl
  · next hne =>
    rw [if_pos (by simpa using fun h => hne (hempty.2 h))]
    simp [Block.shownAs, Block.map, Block.shown]

mutual

/-- The blocks of a style show its passages. -/
theorem shown_blocks : ∀ (spec : Specification) (parents : List String),
    (spec.blocks style (parentOf parents)).map (Block.shownAs resolve className)
      = (spec.branches style parents).flatMap (Branch.passages resolve className)
  | ⟨rules, selectors, media, inner⟩, parents => by
    rw [Specification.blocks, Specification.branches, List.flatMap_cons, List.map_append,
      List.map_append, shown_parentBlocks inner parents, List.map_filterMap, List.map_map,
      Branch.passages]
    congr 2
    · rw [← shown_ruleBlocks, List.map_map]
      rfl
    · rw [← List.filterMap_eq_map, List.filterMap_filter]
      congr 1
      funext e
      exact shown_mediaBlock? resolve className style parents _ e.1 e.2

theorem shown_parentBlocks : ∀ (inner : List (String × Specification)) (parents : List String),
    (parentBlocks style (parentOf parents) inner).map (Block.shownAs resolve className)
      = (branchesUnder style parents inner).flatMap (Branch.passages resolve className)
  | [], parents => by
    rw [parentBlocks, branchesUnder]
    rfl
  | (selector, spec) :: rest, parents => by
    rw [parentBlocks, branchesUnder, List.map_append, List.flatMap_append,
      nestParent_parentOf, shown_blocks spec (parents ++ [selector]),
      shown_parentBlocks rest parents]

end

end Showing

/-- The blocks of a sheet show its passages. -/
theorem shown_sheet (resolve className : String → String) (sheet : Sheet) :
    sheet.blocks.map (Block.shownAs resolve className) = sheet.passages resolve className := by
  unfold Sheet.blocks Sheet.passages Sheet.branches
  rw [List.map_flatMap, List.flatMap_assoc]
  congr 1
  funext e
  exact shown_blocks resolve className e.1 e.2 []

/-! ## Lines -/

namespace Css

open Text (indent unlines)

/-- The lines of a rule block, with two spaces for each level. -/
def RuleText.lines (level : Nat) (r : RuleText) : List String :=
  (indent level ++ r.selector ++ " \x7b") ::
    r.declarations.map (indent (level + 1) ++ ·) ++ [indent level ++ "\x7d"]

def Passage.lines : Passage → List String
  | .rules r => r.lines 0
  | .media query rs => ("@" ++ query ++ " \x7b") :: rs.flatMap (RuleText.lines 1) ++ ["\x7d"]

/-- The text of a passage: its lines, each with its line feed. -/
def Passage.text (p : Passage) : String := unlines p.lines

theorem lines_ne_nil (p : Passage) : p.lines ≠ [] := by
  cases p <;> exact List.cons_ne_nil _ _

theorem RuleBlock.lines_eq (level : Nat) (b : RuleBlock Selector) :
    b.lines level = b.shown.lines level := by
  simp [RuleBlock.lines, RuleText.lines, RuleBlock.shown, Function.comp_def]

theorem Block.lines_eq (b : Block Selector) : b.lines = b.shown.lines := by
  cases b with
  | rules b => exact b.lines_eq 0
  | media query bs =>
    have hlines : RuleBlock.lines 1 = fun b => b.shown.lines 1 := funext (RuleBlock.lines_eq 1)
    simp only [Block.lines, Block.shown, Passage.lines, List.flatMap_map, hlines]

/-! ## Passages that can be printed -/

/-- A rule block can stand on lines: its texts hold no line feed and declarations end in a
semicolon. -/
structure RuleText.Printable (r : RuleText) : Prop where
  selector : OneLine r.selector
  declarations : ∀ d ∈ r.declarations, OneLine d ∧ ∃ text, d = text ++ ";"

/-- A passage can stand on lines, and a media query has rule blocks. -/
def Passage.Printable : Passage → Prop
  | .rules r => r.Printable
  | .media query rs => OneLine query ∧ rs ≠ [] ∧ ∀ r ∈ rs, r.Printable

end Css

section Printing

variable {resolve className : String → String} {b : Branch}

theorem ruleTexts_eq_nil_iff {rules : Rules} {selectors : OrderedMap String Rules} :
    b.ruleTexts className rules selectors = [] ↔ rules = [] ∧ ∀ e ∈ selectors, e.2 = [] := by
  simp [Branch.ruleTexts, Branch.ruleText?]

theorem MediaBlock.isEmpty_iff {m : MediaBlock} :
    m.isEmpty = true ↔ m.rules = [] ∧ ∀ e ∈ m.selectors, e.2 = [] := by
  simp [MediaBlock.isEmpty]

/-- A branch has passages if it holds a rule. -/
theorem passages_eq_nil_iff : b.passages resolve className = [] ↔ b.holdsRule = false := by
  have hholds : b.holdsRule = false ↔ (b.spec.rules = [] ∧ ∀ e ∈ b.spec.selectors, e.2 = [])
      ∧ ∀ e ∈ b.spec.media, e.2.isEmpty = true := by
    simp [Branch.holdsRule, Specification.ruleSets, MediaBlock.ruleSets, MediaBlock.isEmpty,
      and_assoc]
  rw [hholds, Branch.passages, List.append_eq_nil_iff, List.map_eq_nil_iff, List.map_eq_nil_iff,
    ruleTexts_eq_nil_iff, List.filter_eq_nil_iff]
  simp

theorem oneLine_selectorText (htexts : ∀ t ∈ b.writtenTexts, OneLine t)
    (hclass : isGlobal b.style = false → OneLine (className b.style)) {fragment : String}
    (hfragment : OneLine fragment) : OneLine (b.selectorText className fragment) := by
  have hstyle : OneLine b.style := htexts _ List.mem_cons_self
  have hparents : ∀ p ∈ b.parents, OneLine p := fun p hp =>
    htexts p (List.mem_cons_of_mem _ (List.mem_append_left _ (List.mem_append_left _ hp)))
  unfold Branch.selectorText
  split
  · exact Text.oneLine_append.2 ⟨Text.oneLine_ofList.2 fun h => hstyle (List.mem_of_mem_drop h),
      hfragment⟩
  · next hglobal =>
    refine Text.oneLine_intercalate (by decide) fun part hpart => ?_
    rcases List.mem_append.1 hpart with hpart | hpart
    · exact hparents part hpart
    · rw [List.mem_singleton.1 hpart, Text.oneLine_append, Text.oneLine_append]
      exact ⟨⟨by decide, hclass (by simpa using hglobal)⟩, hfragment⟩

theorem oneLine_fragment (htexts : ∀ t ∈ b.writtenTexts, OneLine t) {fragment : String}
    (h : fragment ∈ b.spec.fragments) : OneLine fragment :=
  htexts fragment (List.mem_cons_of_mem _ (List.mem_append_left _ (List.mem_append_right _ h)))

theorem oneLine_rule (htexts : ∀ t ∈ b.writtenTexts, OneLine t) {rules : Rules}
    (hrules : rules ∈ b.spec.ruleSets) {r : String × RuleValue} (hr : r ∈ rules) :
    OneLine (declaration r.1 r.2) := by
  have hrule : ∀ t ∈ ruleTexts r, OneLine t := fun t ht => htexts t (List.mem_cons_of_mem _
    (List.mem_append_right _ (List.mem_flatMap.2 ⟨rules, hrules, List.mem_flatMap.2 ⟨r, hr, ht⟩⟩)))
  obtain ⟨property, v⟩ := r
  cases v with
  | number x =>
    exact Css.oneLine_declaration (hrule _ List.mem_cons_self) fun text h => by cases h
  | text s =>
    refine Css.oneLine_declaration (hrule _ List.mem_cons_self) fun text h => ?_
    cases h
    exact hrule _ (List.mem_cons_of_mem _ List.mem_cons_self)

/-- The rule blocks of a branch can be printed. -/
theorem printable_ruleTexts (htexts : ∀ t ∈ b.writtenTexts, OneLine t)
    (hclass : isGlobal b.style = false → b.holdsRule = true → OneLine (className b.style))
    {rules : Rules} {selectors : OrderedMap String Rules} (hrules : rules ∈ b.spec.ruleSets)
    (hselectors : ∀ e ∈ selectors, e.1 ∈ b.spec.fragments ∧ e.2 ∈ b.spec.ruleSets) :
    ∀ r ∈ b.ruleTexts className rules selectors, r.Printable := by
  intro r hr
  obtain ⟨e, he, heq⟩ := List.mem_filterMap.1 hr
  have hentry : OneLine e.1 ∧ e.2 ∈ b.spec.ruleSets := by
    rcases List.mem_cons.1 he with rfl | he
    · exact ⟨List.not_mem_nil, hrules⟩
    · exact ⟨oneLine_fragment htexts (hselectors e he).1, (hselectors e he).2⟩
  unfold Branch.ruleText? at heq
  split at heq
  · cases heq
  · next hne =>
    cases heq
    have hholds : b.holdsRule = true :=
      List.any_eq_true.2 ⟨e.2, hentry.2, by simpa using hne⟩
    refine ⟨oneLine_selectorText htexts (fun hglobal => hclass hglobal hholds) hentry.1,
      fun d hd => ?_⟩
    obtain ⟨r, hr, rfl⟩ := List.mem_map.1 hd
    exact ⟨oneLine_rule htexts hentry.2 hr, _, rfl⟩

/-- The passages of a branch can be printed if what is written is on one line each. -/
theorem printable_passages (htexts : ∀ t ∈ b.writtenTexts, OneLine t)
    (hqueries : ∀ query ∈ b.spec.media.map Prod.fst, OneLine (resolve query))
    (hclass : isGlobal b.style = false → b.holdsRule = true → OneLine (className b.style)) :
    ∀ p ∈ b.passages resolve className, p.Printable := by
  intro p hp
  rcases List.mem_append.1 hp with hp | hp
  · obtain ⟨r, hr, rfl⟩ := List.mem_map.1 hp
    refine printable_ruleTexts htexts hclass List.mem_cons_self (fun e he => ⟨?_, ?_⟩) r hr
    · exact List.mem_append_left _ (List.mem_map_of_mem he)
    · exact List.mem_cons_of_mem _ (List.mem_append_left _ (List.mem_map_of_mem he))
  · obtain ⟨e, he, rfl⟩ := List.mem_map.1 hp
    obtain ⟨hmedia, hempty⟩ := List.mem_filter.1 he
    have hsets : ∀ rules ∈ e.2.ruleSets, rules ∈ b.spec.ruleSets := fun rules hrules =>
      List.mem_cons_of_mem _ (List.mem_append_right _ (List.mem_flatMap.2 ⟨e, hmedia, hrules⟩))
    refine ⟨hqueries _ (List.mem_map_of_mem hmedia), ?_, ?_⟩
    · rw [Ne, ruleTexts_eq_nil_iff, ← MediaBlock.isEmpty_iff]
      simpa using hempty
    · refine printable_ruleTexts htexts hclass (hsets _ List.mem_cons_self) fun f hf => ⟨?_, ?_⟩
      · exact List.mem_append_right _ (List.mem_flatMap.2 ⟨e, hmedia, List.mem_map_of_mem hf⟩)
      · exact hsets _ (List.mem_cons_of_mem _ (List.mem_map_of_mem hf))

end Printing

/-! ## Sheets -/

mutual

theorem style_of_branches (style : String) : ∀ (spec : Specification) (parents : List String)
    {b : Branch}, b ∈ spec.branches style parents → b.style = style
  | ⟨rules, selectors, media, inner⟩, parents, b, hb => by
    rw [Specification.branches, List.mem_cons] at hb
    rcases hb with rfl | hb
    · rfl
    · exact style_of_branchesUnder style inner parents hb

theorem style_of_branchesUnder (style : String) :
    ∀ (inner : List (String × Specification)) (parents : List String) {b : Branch},
      b ∈ branchesUnder style parents inner → b.style = style
  | [], parents, b, hb => by
    rw [branchesUnder] at hb
    cases hb
  | (selector, spec) :: rest, parents, b, hb => by
    rw [branchesUnder, List.mem_append] at hb
    rcases hb with hb | hb
    · exact style_of_branches style spec _ hb
    · exact style_of_branchesUnder style rest parents hb

end

theorem mem_printedStyles {sheet : Sheet} {b : Branch} (hb : b ∈ sheet.branches)
    (hglobal : isGlobal b.style = false) (hholds : b.holdsRule = true) :
    b.style ∈ sheet.printedStyles := by
  obtain ⟨e, he, hbe⟩ := List.mem_flatMap.1 hb
  have hstyle := style_of_branches e.1 e.2 [] hbe
  refine List.mem_map.2 ⟨e, List.mem_filter.2 ⟨he, ?_⟩, hstyle.symm⟩
  rw [← hstyle, hglobal, hstyle]
  exact List.any_eq_true.2 ⟨b, hbe, hholds⟩

/-- The passages of a sheet can be printed if what is written is on one line each. -/
theorem printable_of_writtenTexts {resolve className : String → String} {sheet : Sheet}
    (htexts : ∀ t ∈ sheet.writtenTexts, OneLine t)
    (hqueries : ∀ query ∈ sheet.queries, OneLine (resolve query))
    (hclass : ∀ style ∈ sheet.printedStyles, OneLine (className style)) :
    ∀ p ∈ sheet.passages resolve className, p.Printable := by
  intro p hp
  obtain ⟨b, hb, hp⟩ := List.mem_flatMap.1 hp
  exact printable_passages (fun t ht => htexts t (List.mem_flatMap.2 ⟨b, hb, ht⟩))
    (fun query hquery => hqueries query (List.mem_flatMap.2 ⟨b, hb, hquery⟩))
    (fun hglobal hholds => hclass _ (mem_printedStyles hb hglobal hholds)) p hp

theorem Specification.fragments_subset (s : Specification) : s.fragments ⊆ s.labels := by
  intro fragment h
  rcases List.mem_append.1 h with h | h
  · exact List.mem_append_left _ h
  · obtain ⟨e, he, h⟩ := List.mem_flatMap.1 h
    exact List.mem_append_right _ (List.mem_flatMap.2 ⟨e, he, List.mem_cons_of_mem _ h⟩)

theorem Sheet.writtenTexts_subset (sheet : Sheet) : sheet.writtenTexts ⊆ sheet.texts := by
  intro text h
  obtain ⟨b, hb, h⟩ := List.mem_flatMap.1 h
  refine List.mem_flatMap.2 ⟨b, hb, ?_⟩
  simp only [Branch.writtenTexts, Branch.texts, List.mem_cons, List.mem_append] at h ⊢
  rcases h with h | (h | h) | h
  · exact Or.inl h
  · exact Or.inr (Or.inl (Or.inl h))
  · exact Or.inr (Or.inl (Or.inr (b.spec.fragments_subset h)))
  · exact Or.inr (Or.inr h)

/-- The passages of a sheet can be printed if its texts are on one line each. -/
theorem printable_of_oneLine {resolve className : String → String} {sheet : Sheet}
    (htexts : ∀ t ∈ sheet.texts, OneLine t)
    (hqueries : ∀ query ∈ sheet.queries, OneLine (resolve query))
    (hclass : ∀ style ∈ sheet.printedStyles, OneLine (className style)) :
    ∀ p ∈ sheet.passages resolve className, p.Printable :=
  printable_of_writtenTexts (fun t ht => htexts t (sheet.writtenTexts_subset ht)) hqueries hclass

/-- Nothing is printed for a sheet that holds no rule, and only for such a one. -/
theorem passages_sheet_eq_nil_iff {resolve className : String → String} {sheet : Sheet} :
    sheet.passages resolve className = [] ↔ sheet.HoldsNoRule := by
  rw [Sheet.passages, List.flatMap_eq_nil_iff]
  exact forall₂_congr fun b _ => passages_eq_nil_iff

end NestedStyles
