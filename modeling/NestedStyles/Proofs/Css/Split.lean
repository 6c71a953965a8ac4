import NestedStyles.Proofs.Css.PostProcess
import NestedStyles.Proofs.Text.Blank
/-!
# What cutting keeps

Any text is cut into blocks, also one that was not printed here. Its lines, but for the blank ones,
are those of the blocks, in their order. A closing line is found at the end of a block and nowhere
else, and only the last block may go without.

* `Cut` says how closing lines divide lines, `exists_cut` that they do;
* `Cut.blocksOfLines_eq`: the blocks are the parts with their closing lines, and what is left;
* `flatten_blocksOfLines`, `closed_blocks`: no line is lost, and where the closing lines are;
* `topLevelBlocks_cut`: the same for the blocks of a text.
-/
namespace NestedStyles.Css

open Text (OneLine isBlankText unlines)

/-! ## Dividing lines -/

/-- Lines are parts, each with a closing line behind it, and the rest; the parts and the rest have no
closing lines of their own. -/
structure Cut (ls : List String) (bodies : List (List String)) (rest : List String) : Prop where
  eq : ls = (bodies.map (· ++ [closingLine])).flatten ++ rest
  bodies : ∀ body ∈ bodies, closingLine ∉ body
  rest : closingLine ∉ rest

theorem exists_cut (ls : List String) : ∃ bodies rest, Cut ls bodies rest := by
  induction ls with
  | nil => exact ⟨[], [], rfl, nofun, List.not_mem_nil⟩
  | cons l ls ih =>
    obtain ⟨bodies, rest, rfl, hbodies, hrest⟩ := ih
    by_cases hl : l = closingLine
    · subst hl
      exact ⟨[] :: bodies, rest, rfl, List.forall_mem_cons.2 ⟨List.not_mem_nil, hbodies⟩, hrest⟩
    · cases bodies with
      | nil =>
        refine ⟨[], l :: rest, rfl, nofun, ?_⟩
        rw [List.mem_cons, not_or]
        exact ⟨Ne.symm hl, hrest⟩
      | cons body bodies =>
        rw [List.forall_mem_cons] at hbodies
        refine ⟨(l :: body) :: bodies, rest, rfl, List.forall_mem_cons.2 ⟨?_, hbodies.2⟩, hrest⟩
        rw [List.mem_cons, not_or]
        exact ⟨Ne.symm hl, hbodies.1⟩

theorem blocksOfLines_of_not_mem {ls : List String} (h : closingLine ∉ ls) :
    blocksOfLines ls = if ls = [] then [] else [ls] := by
  induction ls with
  | nil => rfl
  | cons l ls ih =>
    rw [List.mem_cons, not_or] at h
    rw [blocksOfLines, if_neg (Ne.symm h.1), ih h.2, if_neg (List.cons_ne_nil l ls)]
    cases ls <;> rfl

variable {ls rest : List String} {bodies : List (List String)}

/-- The blocks are the parts, each with its closing line, and the rest, if there is one. -/
theorem Cut.blocksOfLines_eq (h : Cut ls bodies rest) :
    blocksOfLines ls = bodies.map (· ++ [closingLine]) ++ if rest = [] then [] else [rest] := by
  obtain ⟨rfl, hbodies, hrest⟩ := h
  induction bodies with
  | nil => exact blocksOfLines_of_not_mem hrest
  | cons body bodies ih =>
    rw [List.forall_mem_cons] at hbodies
    have hbody : ∀ l ∈ body, l ≠ closingLine := by
      rintro l hl rfl
      exact hbodies.1 hl
    rw [List.map_cons, List.flatten_cons, List.append_assoc, List.append_assoc,
      List.singleton_append, blocksOfLines_append hbody, ih hbodies.2]
    rfl

theorem flatten_blocksOfLines (ls : List String) : (blocksOfLines ls).flatten = ls := by
  obtain ⟨bodies, rest, h⟩ := exists_cut ls
  rw [h.blocksOfLines_eq, List.flatten_append, h.eq]
  split
  · next hrest =>
    rw [hrest]
    rfl
  · rw [List.flatten_singleton]

theorem ne_nil_of_mem_blocksOfLines {ls block : List String} (h : block ∈ blocksOfLines ls) :
    block ≠ [] := by
  obtain ⟨bodies, rest, hcut⟩ := exists_cut ls
  rw [hcut.blocksOfLines_eq, List.mem_append] at h
  rcases h with h | h
  · obtain ⟨body, -, rfl⟩ := List.mem_map.1 h
    exact List.append_ne_nil_of_right_ne_nil _ (List.cons_ne_nil _ _)
  · split at h
    · cases h
    · next hrest => rwa [List.mem_singleton.1 h]

/-! ## Blocks of a text -/

/-- A text of lines, each ended by a line feed, none of which is a closing line. -/
def Unclosed (text : String) : Prop :=
  ∃ ls, (∀ l ∈ ls, OneLine l ∧ l ≠ closingLine) ∧ text = unlines ls

/-- A text of lines, each ended by a line feed, the last of which is a closing line and no other. -/
def Closed (text : String) : Prop :=
  ∃ ls, (∀ l ∈ ls, OneLine l ∧ l ≠ closingLine) ∧ text = unlines (ls ++ [closingLine])

theorem Cut.closed (h : Cut ls bodies rest) (hlines : ∀ l ∈ ls, OneLine l) {body : List String}
    (hbody : body ∈ bodies) : Closed (unlines (body ++ [closingLine])) := by
  refine ⟨body, fun l hl => ⟨hlines l ?_, ?_⟩, rfl⟩
  · rw [h.eq, List.mem_append]
    exact Or.inl (List.mem_flatten.2
      ⟨_, List.mem_map_of_mem hbody, List.mem_append_left _ hl⟩)
  · rintro rfl
    exact h.bodies body hbody hl

theorem Cut.unclosed (h : Cut ls bodies rest) (hlines : ∀ l ∈ ls, OneLine l) :
    Unclosed (unlines rest) := by
  refine ⟨rest, fun l hl => ⟨hlines l ?_, ?_⟩, rfl⟩
  · rw [h.eq]
    exact List.mem_append_right _ hl
  · rintro rfl
    exact h.rest hl

theorem isBlankText_unlines {ls : List String} {l : String} (hl : l ∈ ls)
    (h : isBlankText l = false) : isBlankText (unlines ls) = false := by
  obtain ⟨before, after, rfl⟩ := List.append_of_mem hl
  simp only [Text.unlines_append, Text.unlines_cons, Text.isBlankText_append, h, Bool.false_and,
    Bool.and_false]

/-- Every block but the last is closed, and the last one is if it has a closing line. -/
theorem closed_blocks {ls : List String} (hlines : ∀ l ∈ ls, OneLine l) :
    (∀ block ∈ ((blocksOfLines ls).map unlines).dropLast, Closed block)
    ∧ ∀ block ∈ ((blocksOfLines ls).map unlines).getLast?, Closed block ∨ Unclosed block := by
  obtain ⟨bodies, rest, hcut⟩ := exists_cut ls
  have hclosed : ∀ block ∈ (bodies.map (· ++ [closingLine])).map unlines, Closed block := by
    intro block hblock
    obtain ⟨lines, hmem, rfl⟩ := List.mem_map.1 hblock
    obtain ⟨body, hbody, rfl⟩ := List.mem_map.1 hmem
    exact hcut.closed hlines hbody
  rw [hcut.blocksOfLines_eq, List.map_append]
  split
  · rw [List.map_nil, List.append_nil]
    exact ⟨fun block hblock => hclosed block (List.mem_of_mem_dropLast hblock),
      fun block hblock => Or.inl (hclosed block (List.mem_of_getLast? hblock))⟩
  · rw [List.map_singleton, List.dropLast_concat, List.getLast?_concat]
    refine ⟨hclosed, fun block hblock => Or.inr ?_⟩
    cases hblock
    exact hcut.unclosed hlines

theorem of_mem_inkLines {css l : String} (h : l ∈ inkLines css) :
    OneLine l ∧ isBlankText l = false := by
  rw [inkLines, List.mem_filter, Bool.not_eq_true'] at h
  exact ⟨Text.oneLine_of_mem_lines h.1, h.2⟩

theorem join_topLevelBlocks (css : String) :
    String.join (topLevelBlocks css) = unlines (inkLines css) := by
  have hjoin := Text.unlines_flatMap id (blocksOfLines (inkLines css))
  rw [List.flatMap_id, flatten_blocksOfLines] at hjoin
  exact hjoin.symm

theorem not_blank_of_mem_topLevelBlocks {css block : String} (h : block ∈ topLevelBlocks css) :
    isBlankText block = false := by
  obtain ⟨lines, hmem, rfl⟩ := List.mem_map.1 h
  obtain ⟨l, hl⟩ := List.exists_mem_of_ne_nil lines (ne_nil_of_mem_blocksOfLines hmem)
  have hink : l ∈ inkLines css := by
    rw [← flatten_blocksOfLines (inkLines css)]
    exact List.mem_flatten_of_mem hmem hl
  exact isBlankText_unlines hl (of_mem_inkLines hink).2

/-- The blocks of a text put together are its lines that are not blank, each ended by a line feed. No
block is blank, every block but the last is closed, and so is the last one, if it has a closing line
at all. -/
theorem topLevelBlocks_cut (css : String) :
    String.join (topLevelBlocks css)
      = unlines ((Text.lines css).filter fun line => !isBlankText line)
    ∧ (∀ block ∈ topLevelBlocks css, isBlankText block = false)
    ∧ (∀ block ∈ (topLevelBlocks css).dropLast, Closed block)
    ∧ ∀ block ∈ (topLevelBlocks css).getLast?, Closed block ∨ Unclosed block :=
  ⟨join_topLevelBlocks css, fun _ => not_blank_of_mem_topLevelBlocks,
    closed_blocks fun _ hl => (of_mem_inkLines hl).1⟩

/-- A brace with a carriage return of its own closes nothing, and the last line may go without an
end. -/
example : topLevelBlocks "a\n\x7d\r\n\x7d\n \n\x7d\r\r\nb" = ["a\n\x7d\n", "\x7d\n", "\x7d\r\nb\n"] := by
  cbv

end NestedStyles.Css
