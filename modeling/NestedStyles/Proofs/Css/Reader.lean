import NestedStyles.Css.Split
import NestedStyles.Proofs.Css.Passage
/-!
# Printed CSS read back

The lines of printed CSS tell by their last character what they are: an opening brace starts a
block, a closing one ends it, and any other line is a declaration. What a block is shows on the next
line: a block that starts with another one is a media query.

* `Reader` is a state between two lines and `Reader.step` reads a line; `readCss` reads a text;
* `foldl_lines`: a passage that can be printed is read from its lines, wherever they stand;
* `blocksOfLines_lines`: lines are cut into those of passages, since in each of these no line but
  the last is a closing brace alone;
* `readCss_joinLines`, `topLevelBlocks_unlines`: the same for texts.
-/
namespace NestedStyles.Css

open Text (OneLine IsLine indent joinLines unlines)

/-! ## Reading -/

/-- What has been read: whole passages, the media query that is open, with its rule blocks so far,
and the rule block that is open, or perhaps a media query that is taken for one. -/
structure Reader where
  passages : List Passage := []
  media : Option (String × List RuleText) := none
  rule : Option RuleText := none

/-- A line without some characters at either end. -/
def cut (front back : Nat) (line : String) : String := .ofList ((line.toList.drop front).rdrop back)

/-- The level of rule blocks, given the media query that is open. -/
def ruleLevel (media : Option (String × List RuleText)) : Nat := if media.isSome then 1 else 0

namespace Reader

/-- Reads the first line of a block. -/
def start (r : Reader) (line : String) : Reader :=
  match r.media, r.rule with
  | some _, _ => { r with rule := some ⟨cut 2 2 line, []⟩ }
  | none, none => { r with rule := some ⟨cut 0 2 line, []⟩ }
  | none, some outer =>
    { r with media := some (cut 1 0 outer.selector, []), rule := some ⟨cut 2 2 line, []⟩ }

def declare (r : Reader) (line : String) : Reader :=
  let declaration := cut (2 * (ruleLevel r.media + 1)) 0 line
  { r with rule := r.rule.map fun rule => ⟨rule.selector, rule.declarations ++ [declaration]⟩ }

def close (r : Reader) : Reader :=
  match r.media, r.rule with
  | none, none => r
  | none, some rule => { r with passages := r.passages ++ [.rules rule], rule := none }
  | some (query, rules), some rule =>
    { r with media := some (query, rules ++ [rule]), rule := none }
  | some (query, rules), none =>
    { r with passages := r.passages ++ [.media query rules], media := none }

def step (r : Reader) (line : String) : Reader :=
  if line.toList.getLast? = some '\x7b' then r.start line
  else if line.toList.getLast? = some '\x7d' then r.close
  else r.declare line

end Reader

def readCss (css : String) : List Passage := ((Text.lines css).foldl Reader.step {}).passages

/-! ## Single lines -/

theorem cut_append (a s b : String) : cut a.toList.length b.toList.length (a ++ s ++ b) = s := by
  have hlist : (a ++ s ++ b).toList = a.toList ++ (s.toList ++ b.toList) := by simp
  rw [cut, hlist, List.drop_left, List.rdrop_append_length, String.ofList_toList]

theorem cut_indent (level : Nat) (s : String) : cut (2 * level) 0 (indent level ++ s) = s := by
  have hcut := cut_append (indent level) s ""
  rwa [String.append_empty, indent, String.toList_ofList, List.length_replicate] at hcut

theorem getLast?_opening (s : String) : (s ++ " \x7b").toList.getLast? = some '\x7b' := by simp

theorem getLast?_closing (s : String) : (s ++ "\x7d").toList.getLast? = some '\x7d' := by simp

theorem getLast?_declaration (s : String) : (s ++ ";").toList.getLast? = some ';' := by simp

theorem step_opening (r : Reader) (s : String) :
    r.step (s ++ " \x7b") = r.start (s ++ " \x7b") := by
  rw [Reader.step, getLast?_opening, if_pos rfl]

theorem step_closing (r : Reader) (s : String) : r.step (s ++ "\x7d") = r.close := by
  rw [Reader.step, getLast?_closing, if_neg (by decide), if_pos rfl]

theorem step_declaration (r : Reader) (s : String) : r.step (s ++ ";") = r.declare (s ++ ";") := by
  rw [Reader.step, getLast?_declaration, if_neg (by decide), if_neg (by decide)]

/-! ## Whole passages -/

variable {ps : List Passage} {m : Option (String × List RuleText)} {r : RuleText}

/-- Declarations are added to the rule block that is open. -/
theorem foldl_declarations (ds : List String) (h : ∀ d ∈ ds, ∃ text, d = text ++ ";") :
    (ds.map (indent (ruleLevel m + 1) ++ ·)).foldl Reader.step ⟨ps, m, some r⟩
      = ⟨ps, m, some ⟨r.selector, r.declarations ++ ds⟩⟩ := by
  induction ds generalizing r with
  | nil =>
    rw [List.append_nil]
    rfl
  | cons d ds ih =>
    obtain ⟨text, htext⟩ := h d List.mem_cons_self
    have hstep : Reader.step ⟨ps, m, some r⟩ (indent (ruleLevel m + 1) ++ d)
        = ⟨ps, m, some ⟨r.selector, r.declarations ++ [d]⟩⟩ := by
      rw [htext, ← String.append_assoc, step_declaration, String.append_assoc, ← htext,
        Reader.declare, cut_indent]
      rfl
    rw [List.map_cons, List.foldl_cons, hstep, ih fun d hd => h d (List.mem_cons_of_mem _ hd),
      List.append_assoc, List.singleton_append]

/-- A rule block is read to its end once its first line has been read. -/
theorem foldl_rest (h : r.Printable) :
    (r.declarations.map (indent (ruleLevel m + 1) ++ ·) ++ [indent (ruleLevel m) ++ "\x7d"]).foldl
        Reader.step ⟨ps, m, some ⟨r.selector, []⟩⟩
      = Reader.close ⟨ps, m, some r⟩ := by
  rw [List.foldl_append, foldl_declarations _ fun d hd => (h.declarations d hd).2, List.nil_append]
  exact step_closing _ _

theorem foldl_rules (h : r.Printable) :
    (r.lines 0).foldl Reader.step ⟨ps, none, none⟩ = ⟨ps ++ [.rules r], none, none⟩ := by
  have hfirst : Reader.step ⟨ps, none, none⟩ (indent 0 ++ r.selector ++ " \x7b")
      = ⟨ps, none, some ⟨r.selector, []⟩⟩ := by
    rw [step_opening]
    exact congrArg (fun s => Reader.mk ps none (some ⟨s, []⟩)) (cut_append "" r.selector " \x7b")
  rw [RuleText.lines, List.cons_append, List.foldl_cons, hfirst]
  exact foldl_rest (m := none) h

/-- A rule block in a media query that is open. -/
theorem foldl_inner (h : r.Printable) (query : String) (rs : List RuleText) :
    (r.lines 1).foldl Reader.step ⟨ps, some (query, rs), none⟩
      = ⟨ps, some (query, rs ++ [r]), none⟩ := by
  have hfirst : Reader.step ⟨ps, some (query, rs), none⟩ (indent 1 ++ r.selector ++ " \x7b")
      = ⟨ps, some (query, rs), some ⟨r.selector, []⟩⟩ := by
    rw [step_opening]
    exact congrArg (fun s => Reader.mk ps (some (query, rs)) (some ⟨s, []⟩))
      (cut_append (indent 1) r.selector " \x7b")
  rw [RuleText.lines, List.cons_append, List.foldl_cons, hfirst]
  exact foldl_rest (m := some (query, rs)) h

theorem foldl_inners (query : String) (rs rs' : List RuleText) (h : ∀ r ∈ rs', r.Printable) :
    (rs'.flatMap (RuleText.lines 1)).foldl Reader.step ⟨ps, some (query, rs), none⟩
      = ⟨ps, some (query, rs ++ rs'), none⟩ := by
  induction rs' generalizing rs with
  | nil =>
    rw [List.append_nil]
    rfl
  | cons r rs' ih =>
    rw [List.flatMap_cons, List.foldl_append, foldl_inner (h r List.mem_cons_self),
      ih _ fun r hr => h r (List.mem_cons_of_mem _ hr), List.append_assoc, List.singleton_append]

/-- The first rule block in a media query makes the line before it one of a media query. -/
theorem foldl_first (h : r.Printable) (query : String) :
    (("@" ++ query ++ " \x7b") :: r.lines 1).foldl Reader.step ⟨ps, none, none⟩
      = ⟨ps, some (query, [r]), none⟩ := by
  have houter : Reader.step ⟨ps, none, none⟩ ("@" ++ query ++ " \x7b")
      = ⟨ps, none, some ⟨"@" ++ query, []⟩⟩ := by
    rw [step_opening]
    exact congrArg (fun s => Reader.mk ps none (some ⟨s, []⟩))
      (cut_append "" ("@" ++ query) " \x7b")
  have hfirst : Reader.step ⟨ps, none, some ⟨"@" ++ query, []⟩⟩ (indent 1 ++ r.selector ++ " \x7b")
      = ⟨ps, some (query, []), some ⟨r.selector, []⟩⟩ := by
    have hquery : cut 1 0 ("@" ++ query) = query := by
      have hcut := cut_append "@" query ""
      rwa [String.append_empty] at hcut
    rw [step_opening]
    change Reader.mk ps (some (cut 1 0 ("@" ++ query), [])) _ = _
    rw [hquery]
    exact congrArg (fun s => Reader.mk ps (some (query, [])) (some ⟨s, []⟩))
      (cut_append (indent 1) r.selector " \x7b")
  rw [List.foldl_cons, houter, RuleText.lines, List.cons_append, List.foldl_cons, hfirst]
  exact foldl_rest (m := some (query, [])) h

/-- A passage is read from its lines. -/
theorem foldl_lines {p : Passage} (h : p.Printable) :
    p.lines.foldl Reader.step ⟨ps, none, none⟩ = ⟨ps ++ [p], none, none⟩ := by
  cases p with
  | rules r => exact foldl_rules h
  | media query rs =>
    obtain ⟨-, hne, hrs⟩ := h
    cases rs with
    | nil => exact absurd rfl hne
    | cons r rs =>
      have hinners : (rs.flatMap (RuleText.lines 1)).foldl Reader.step ⟨ps, some (query, [r]), none⟩
          = ⟨ps, some (query, [r] ++ rs), none⟩ :=
        foldl_inners query [r] rs fun r hr => hrs r (List.mem_cons_of_mem _ hr)
      rw [Passage.lines, List.flatMap_cons, ← List.cons_append, List.foldl_append,
        List.foldl_append, foldl_first (hrs r List.mem_cons_self), hinners]
      have hlast := step_closing ⟨ps, some (query, [r] ++ rs), none⟩ ""
      rwa [String.empty_append] at hlast

theorem foldl_passages (ps' : List Passage) (h : ∀ p ∈ ps', p.Printable) :
    (ps'.flatMap Passage.lines).foldl Reader.step ⟨ps, none, none⟩ = ⟨ps ++ ps', none, none⟩ := by
  induction ps' generalizing ps with
  | nil =>
    rw [List.append_nil]
    rfl
  | cons p ps' ih =>
    rw [List.flatMap_cons, List.foldl_append, foldl_lines (h p List.mem_cons_self),
      ih fun p hp => h p (List.mem_cons_of_mem _ hp), List.append_assoc, List.singleton_append]

/-! ## Lines of passages -/

/-- A line as it is printed: on one line, and with a brace or a semicolon at its end. -/
structure IsPrinted (line : String) : Prop where
  oneLine : OneLine line
  last : ∃ c ∈ ['\x7b', ';', '\x7d'], line.toList.getLast? = some c

theorem IsPrinted.isLine {line : String} (h : IsPrinted line) : IsLine line := by
  obtain ⟨c, hc, hlast⟩ := h.last
  refine ⟨h.oneLine, fun hnil => ?_, fun hcr => ?_⟩
  · rw [hnil] at hlast
    cases hlast
  · rw [hlast] at hcr
    cases hcr
    exact absurd hc (by decide)

theorem IsPrinted.not_blank {line : String} (h : IsPrinted line) :
    Text.isBlankText line = false := by
  obtain ⟨c, hc, hlast⟩ := h.last
  have hnotBlank : ∀ c ∈ ['\x7b', ';', '\x7d'], Text.isBlank c = false := by
    simp [Text.isBlank, Text.blankRanges]
  refine List.all_eq_false.2 ⟨c, List.mem_of_getLast? hlast, ?_⟩
  rw [hnotBlank c hc]
  exact Bool.false_ne_true

theorem isPrinted_lines (h : r.Printable) (level : Nat) : ∀ l ∈ r.lines level, IsPrinted l := by
  have hindent := Text.oneLine_indent
  intro l hl
  rw [RuleText.lines, List.mem_append, List.mem_cons, List.mem_singleton] at hl
  rcases hl with (rfl | hl) | rfl
  · refine ⟨?_, _, by decide, getLast?_opening _⟩
    exact Text.oneLine_append.2
      ⟨Text.oneLine_append.2 ⟨hindent level, h.selector⟩, by decide⟩
  · obtain ⟨d, hd, rfl⟩ := List.mem_map.1 hl
    obtain ⟨hone, text, rfl⟩ := h.declarations d hd
    refine ⟨Text.oneLine_append.2 ⟨hindent _, hone⟩, ';', by decide, ?_⟩
    rw [← String.append_assoc]
    exact getLast?_declaration _
  · exact ⟨Text.oneLine_append.2 ⟨hindent level, by decide⟩, _, by decide, getLast?_closing _⟩

theorem isPrinted_passage {p : Passage} (h : p.Printable) : ∀ l ∈ p.lines, IsPrinted l := by
  cases p with
  | rules r => exact isPrinted_lines h 0
  | media query rs =>
    obtain ⟨hquery, -, hrs⟩ := h
    intro l hl
    rw [Passage.lines, List.mem_append, List.mem_cons, List.mem_singleton] at hl
    rcases hl with (rfl | hl) | rfl
    · refine ⟨?_, _, by decide, getLast?_opening _⟩
      exact Text.oneLine_append.2 ⟨Text.oneLine_append.2 ⟨by decide, hquery⟩, by decide⟩
    · obtain ⟨r, hr, hl⟩ := List.mem_flatMap.1 hl
      exact isPrinted_lines (hrs r hr) 1 l hl
    · exact ⟨by decide, '\x7d', by decide, by decide⟩

theorem isPrinted_passages {ps : List Passage} (h : ∀ p ∈ ps, p.Printable) :
    ∀ l ∈ ps.flatMap Passage.lines, IsPrinted l := by
  intro l hl
  obtain ⟨p, hp, hl⟩ := List.mem_flatMap.1 hl
  exact isPrinted_passage (h p hp) l hl

/-- Passages are read back from their lines, joined by line feeds. -/
theorem readCss_joinLines {ps : List Passage} (h : ∀ p ∈ ps, p.Printable) :
    readCss (joinLines (ps.flatMap Passage.lines)) = ps := by
  rw [readCss, Text.lines_joinLines fun l hl => (isPrinted_passages h l hl).isLine,
    foldl_passages ps h, List.nil_append]

/-! ## Cutting -/

theorem ne_closingLine {l : String} {c : Char} (h : l.toList.getLast? = some c)
    (hc : c ≠ '\x7d') : l ≠ closingLine := by
  rintro rfl
  exact hc (Option.some.inj h).symm

/-- In a rule block no line but the last is a closing brace alone. -/
theorem ne_closingLine_of_mem (h : r.Printable) (level : Nat) :
    ∀ l ∈ (indent level ++ r.selector ++ " \x7b") ::
      r.declarations.map (indent (level + 1) ++ ·), l ≠ closingLine := by
  intro l hl
  rcases List.mem_cons.1 hl with rfl | hl
  · exact ne_closingLine (getLast?_opening _) (by decide)
  · obtain ⟨d, hd, rfl⟩ := List.mem_map.1 hl
    obtain ⟨-, text, rfl⟩ := h.declarations d hd
    rw [← String.append_assoc]
    exact ne_closingLine (getLast?_declaration _) (by decide)

/-- Only the last line of a passage is a closing brace alone; those of rule blocks in a media query
are indented. -/
theorem lines_eq_body {p : Passage} (h : p.Printable) :
    ∃ body, p.lines = body ++ [closingLine] ∧ ∀ l ∈ body, l ≠ closingLine := by
  cases p with
  | rules r => exact ⟨_, rfl, ne_closingLine_of_mem h 0⟩
  | media query rs =>
    refine ⟨_, rfl, fun l hl => ?_⟩
    rcases List.mem_cons.1 hl with rfl | hl
    · exact ne_closingLine (getLast?_opening _) (by decide)
    · obtain ⟨r, hr, hl⟩ := List.mem_flatMap.1 hl
      rw [RuleText.lines, List.mem_append, List.mem_singleton] at hl
      rcases hl with hl | rfl
      · exact ne_closingLine_of_mem (h.2.2 r hr) 1 l hl
      · decide

theorem blocksOfLines_append {body : List String} (h : ∀ l ∈ body, l ≠ closingLine)
    (rest : List String) : blocksOfLines (body ++ closingLine :: rest)
      = (body ++ [closingLine]) :: blocksOfLines rest := by
  induction body with
  | nil => rw [List.nil_append, blocksOfLines, if_pos rfl, List.nil_append]
  | cons l body ih =>
    rw [List.cons_append, blocksOfLines, if_neg (h l List.mem_cons_self),
      ih fun l hl => h l (List.mem_cons_of_mem _ hl)]
    rfl

/-- The lines of passages are cut into those of each. -/
theorem blocksOfLines_lines {ps : List Passage} (h : ∀ p ∈ ps, p.Printable) :
    blocksOfLines (ps.flatMap Passage.lines) = ps.map Passage.lines := by
  induction ps with
  | nil => rfl
  | cons p ps ih =>
    obtain ⟨body, hbody, hne⟩ := lines_eq_body (h p List.mem_cons_self)
    rw [List.flatMap_cons, List.map_cons, hbody, List.append_assoc, List.singleton_append,
      blocksOfLines_append hne, ih fun p hp => h p (List.mem_cons_of_mem _ hp)]

/-- The text of passages is cut into that of each. -/
theorem topLevelBlocks_unlines {ps : List Passage} (h : ∀ p ∈ ps, p.Printable) :
    topLevelBlocks (unlines (ps.flatMap Passage.lines)) = ps.map Passage.text := by
  have hprinted := isPrinted_passages h
  have hfilter : (ps.flatMap Passage.lines).filter (fun line => !Text.isBlankText line)
      = ps.flatMap Passage.lines :=
    List.filter_eq_self.2 fun l hl => by rw [(hprinted l hl).not_blank]; rfl
  rw [topLevelBlocks, Text.lines_unlines fun l hl => (hprinted l hl).isLine, hfilter,
    blocksOfLines_lines h, List.map_map]
  rfl

end NestedStyles.Css
