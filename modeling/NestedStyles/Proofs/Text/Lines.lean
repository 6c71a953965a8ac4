import Mathlib
import NestedStyles.Text.Lines
/-!
# Lines read back

Lines that are put one behind the other can be cut apart again, if none of them holds a line feed
and none ends in a carriage return, which would be taken for part of the end of the line.

* `OneLine` says that a text holds no line feed, `IsLine` that it is a line as it is cut;
* `lines_append`: what follows a line feed is cut as it is by itself;
* `lines_unlines`, `lines_joinLines`: lines are cut as they were joined;
* `unlines_filter_joinLines`: texts of joined lines, put one behind the other.
-/
namespace NestedStyles.Text

/-! ## Texts without line feeds -/

/-- The text holds no line feed. -/
def OneLine (s : String) : Prop := '\n' ∉ s.toList

instance (s : String) : Decidable (OneLine s) := inferInstanceAs (Decidable (_ ∉ _))

theorem oneLine_append {a b : String} : OneLine (a ++ b) ↔ OneLine a ∧ OneLine b := by
  rw [OneLine, String.toList_append, List.mem_append, not_or]
  rfl

theorem oneLine_ofList {cs : List Char} : OneLine (.ofList cs) ↔ '\n' ∉ cs := by
  rw [OneLine, String.toList_ofList]

theorem oneLine_indent (level : Nat) : OneLine (indent level) := by
  rw [indent, oneLine_ofList]
  intro h
  exact absurd (List.eq_of_mem_replicate h) (by decide)

theorem oneLine_intercalate {sep : String} (hsep : OneLine sep) {parts : List String}
    (h : ∀ part ∈ parts, OneLine part) : OneLine (sep.intercalate parts) := by
  induction parts with
  | nil => exact List.not_mem_nil
  | cons first rest ih =>
    have hrest := ih fun part hpart => h part (List.mem_cons_of_mem _ hpart)
    have hfirst := h first List.mem_cons_self
    cases rest with
    | nil => rwa [String.intercalate_singleton]
    | cons second rest =>
      rw [String.intercalate_cons_cons, oneLine_append, oneLine_append]
      exact ⟨⟨hfirst, hsep⟩, hrest⟩

/-! ## Cutting -/

/-- The text is a line: it is not empty, holds no line feed, and ends in no carriage return. -/
structure IsLine (s : String) : Prop where
  oneLine : OneLine s
  ne_nil : s.toList ≠ []
  last : s.toList.getLast? ≠ some '\r'

theorem linesOf_newline (cs : List Char) : linesOf ('\n' :: cs) = [] :: linesOf cs := by
  rw [linesOf]

theorem linesOf_cons {c : Char} (hc : c ≠ '\n') {cs : List Char}
    (hcr : c = '\r' → cs.head? ≠ some '\n') {line : List Char} {more : List (List Char)}
    (h : linesOf cs = line :: more) : linesOf (c :: cs) = (c :: line) :: more := by
  rw [linesOf, h]
  · exact hc
  · rintro rest hc' rfl
    exact hcr hc' rfl

/-- A line ends at the first line feed. -/
theorem linesOf_append_newline {cs : List Char} (h : '\n' ∉ cs) (hlast : cs.getLast? ≠ some '\r')
    (rest : List Char) : linesOf (cs ++ '\n' :: rest) = cs :: linesOf rest := by
  induction cs with
  | nil => exact linesOf_newline rest
  | cons c cs ih =>
    rw [List.mem_cons, not_or] at h
    have hnext : c = '\r' → (cs ++ '\n' :: rest).head? ≠ some '\n' := by
      rintro rfl
      cases cs with
      | nil => exact absurd rfl hlast
      | cons d ds =>
        have hd : '\n' ≠ d := fun hd => h.2 (hd ▸ List.mem_cons_self)
        simpa using hd.symm
    have hrest : cs.getLast? ≠ some '\r' := by
      cases cs with
      | nil => simp
      | cons d ds => rwa [List.getLast?_cons_cons] at hlast
    exact linesOf_cons (Ne.symm h.1) hnext (ih h.2 hrest)

/-- The last line may go without a line feed. -/
theorem linesOf_of_not_mem {cs : List Char} (h : '\n' ∉ cs) (hne : cs ≠ []) :
    linesOf cs = [cs] := by
  induction cs with
  | nil => exact absurd rfl hne
  | cons c cs ih =>
    rw [List.mem_cons, not_or] at h
    cases cs with
    | nil =>
      rw [linesOf, linesOf]
      · exact (Ne.symm h.1)
      · intro rest _ hnil
        cases hnil
    | cons d ds =>
      have hd : '\n' ≠ d := fun hd => h.2 (hd ▸ List.mem_cons_self)
      exact linesOf_cons (Ne.symm h.1) (fun _ => by simpa using hd.symm) (ih h.2 (by simp))

theorem linesOf_ne_nil {cs : List Char} (h : cs ≠ []) : linesOf cs ≠ [] := by
  unfold linesOf
  split
  · exact absurd rfl h
  · exact List.cons_ne_nil _ _
  · exact List.cons_ne_nil _ _
  · split <;> exact List.cons_ne_nil _ _

/-- What follows a line feed is cut as it is by itself. -/
theorem linesOf_append (cs ds : List Char) :
    linesOf (cs ++ '\n' :: ds) = linesOf (cs ++ ['\n']) ++ linesOf ds := by
  fun_induction linesOf cs with
  | case1 =>
    rw [List.nil_append, List.nil_append, linesOf_newline, linesOf_newline]
    rfl
  | case2 rest ih =>
    rw [List.cons_append, List.cons_append, linesOf_newline, linesOf_newline, ih]
    rfl
  | case3 rest ih =>
    simp only [List.cons_append, linesOf, ih]
  | case4 c rest hc hcr hrest ih =>
    cases rest with
    | cons d ds => exact absurd hrest (linesOf_ne_nil (List.cons_ne_nil d ds))
    | nil =>
      by_cases hc' : c = '\r'
      · subst hc'
        simp only [List.cons_append, List.nil_append, linesOf]
      · have hmem : '\n' ∉ [c] := by
          rw [List.mem_singleton]
          exact Ne.symm hc
        have hone : ∀ es, linesOf (c :: '\n' :: es) = [c] :: linesOf es :=
          linesOf_append_newline hmem (by simpa using hc')
        rw [List.cons_append, List.nil_append, hone, List.cons_append, List.nil_append, hone]
        rfl
  | case5 c rest hc hcr line more hrest ih =>
    cases rest with
    | nil => cases hrest
    | cons d rest =>
      have hnext : ∀ es : List Char, c = '\r' → ((d :: rest) ++ es).head? ≠ some '\n' := by
        intro es hc' hd
        rw [List.cons_append, List.head?_cons, Option.some.injEq] at hd
        exact hcr rest hc' (by rw [hd])
      obtain ⟨line', more', hline⟩ : ∃ line' more', linesOf (d :: rest ++ ['\n']) = line' :: more' :=
        List.exists_cons_of_ne_nil (linesOf_ne_nil (by simp))
      have hboth := linesOf_cons hc (hnext ('\n' :: ds)) (ih.trans (congrArg (· ++ linesOf ds) hline))
      change linesOf (c :: (d :: rest ++ '\n' :: ds))
        = linesOf (c :: (d :: rest ++ ['\n'])) ++ linesOf ds
      rw [hboth, linesOf_cons hc (hnext ['\n']) hline]
      rfl

theorem not_newline_of_mem_linesOf {cs line : List Char} (h : line ∈ linesOf cs) : '\n' ∉ line := by
  fun_induction linesOf cs generalizing line with
  | case1 => cases h
  | case2 rest ih | case3 rest ih =>
    rcases List.mem_cons.1 h with rfl | h
    · exact List.not_mem_nil
    · exact ih h
  | case4 c rest hc hcr hrest ih =>
    rw [List.mem_singleton.1 h, List.mem_singleton]
    exact fun heq => hc heq.symm
  | case5 c rest hc hcr first more hrest ih =>
    rw [hrest, List.forall_mem_cons] at ih
    rcases List.mem_cons.1 h with rfl | h
    · rw [List.mem_cons, not_or]
      exact ⟨fun heq => hc heq.symm, ih.1⟩
    · exact ih.2 _ h

/-- No line has a line feed of its own. -/
theorem oneLine_of_mem_lines {s l : String} (h : l ∈ lines s) : OneLine l := by
  obtain ⟨line, hline, rfl⟩ := List.mem_map.1 h
  exact oneLine_ofList.2 (not_newline_of_mem_linesOf hline)

/-- The same for texts. -/
theorem lines_append (a b : String) : lines (a ++ "\n" ++ b) = lines (a ++ "\n") ++ lines b := by
  have hlist : (a ++ "\n" ++ b).toList = a.toList ++ '\n' :: b.toList := by
    simp [String.toList_append]
  have hfirst : (a ++ "\n").toList = a.toList ++ ['\n'] := by
    simp [String.toList_append]
  rw [lines, lines, lines, hlist, hfirst, linesOf_append, List.map_append]

/-! ## Joining -/

theorem unlines_nil : unlines [] = "" := rfl

theorem unlines_cons (l : String) (ls : List String) :
    unlines (l :: ls) = l ++ "\n" ++ unlines ls := by
  rw [unlines, List.map_cons, String.join_cons]
  rfl

theorem unlines_append (ls ls' : List String) :
    unlines (ls ++ ls') = unlines ls ++ unlines ls' := by
  rw [unlines, List.map_append, String.join_append]
  rfl

theorem unlines_flatMap {α : Type} (f : α → List String) (xs : List α) :
    unlines (xs.flatMap f) = String.join (xs.map fun x => unlines (f x)) := by
  induction xs with
  | nil => rfl
  | cons x xs ih => rw [List.flatMap_cons, unlines_append, ih, List.map_cons, String.join_cons]

/-- Text that follows a line and its line feed is cut as it is by itself. -/
theorem lines_append_newline {l : String} (h : IsLine l) (rest : String) :
    lines (l ++ "\n" ++ rest) = l :: lines rest := by
  have hlist : (l ++ "\n" ++ rest).toList = l.toList ++ '\n' :: rest.toList := by
    simp [String.toList_append]
  rw [lines, hlist, linesOf_append_newline h.oneLine h.last, List.map_cons, String.ofList_toList]
  rfl

/-- Lines are cut as they were, each with its line feed. -/
theorem lines_unlines {ls : List String} (h : ∀ l ∈ ls, IsLine l) : lines (unlines ls) = ls := by
  induction ls with
  | nil => rfl
  | cons l ls ih =>
    rw [unlines_cons, lines_append_newline (h l List.mem_cons_self),
      ih fun l hl => h l (List.mem_cons_of_mem _ hl)]

/-- Lines are cut as they were, with line feeds between them. -/
theorem lines_joinLines {ls : List String} (h : ∀ l ∈ ls, IsLine l) :
    lines (joinLines ls) = ls := by
  induction ls with
  | nil => rfl
  | cons l ls ih =>
    have hl := h l List.mem_cons_self
    have hrest := ih fun l hl => h l (List.mem_cons_of_mem _ hl)
    cases ls with
    | nil =>
      rw [joinLines, String.intercalate_singleton, lines, linesOf_of_not_mem hl.oneLine hl.ne_nil,
        List.map_singleton, String.ofList_toList]
    | cons l' ls =>
      rw [joinLines, String.intercalate_cons_cons]
      exact (lines_append_newline hl _).trans (congrArg _ hrest)

/-- Only no lines at all make the empty text. -/
theorem joinLines_eq_empty_iff {ls : List String} (h : ∀ l ∈ ls, IsLine l) :
    joinLines ls = "" ↔ ls = [] := by
  constructor
  · intro hempty
    rw [← lines_joinLines h, hempty]
    rfl
  · rintro rfl
    rfl

/-- Lines that are joined and closed by one more line feed all have their line feeds. -/
theorem joinLines_append_newline {ls : List String} (h : ls ≠ []) :
    joinLines ls ++ "\n" = unlines ls := by
  induction ls with
  | nil => exact absurd rfl h
  | cons l ls ih =>
    cases ls with
    | nil =>
      rw [joinLines, String.intercalate_singleton, unlines_cons, unlines_nil, String.append_empty]
    | cons l' ls =>
      rw [unlines_cons, ← ih (by simp), joinLines, String.intercalate_cons_cons, joinLines,
        String.append_assoc]

/-- Texts that are joined lines make all these lines together, if the empty ones are left out and
the others are closed by a line feed each. -/
theorem unlines_filter_joinLines {lss : List (List String)} (h : ∀ ls ∈ lss, ∀ l ∈ ls, IsLine l) :
    unlines ((lss.map joinLines).filter (· ≠ "")) = unlines lss.flatten := by
  induction lss with
  | nil => rfl
  | cons ls lss ih =>
    have hrest := ih fun ls hls => h ls (List.mem_cons_of_mem _ hls)
    have hempty := joinLines_eq_empty_iff (h ls List.mem_cons_self)
    rw [List.map_cons, List.filter_cons, List.flatten_cons, unlines_append, ← hrest]
    by_cases hls : ls = []
    · rw [if_neg (by simpa using hempty.2 hls), hls]
      exact (String.empty_append).symm
    · rw [if_pos (by simpa using fun h => hls (hempty.1 h)), unlines_cons,
        joinLines_append_newline hls]

end NestedStyles.Text
