import NestedStyles.Compile
import NestedStyles.Proofs.Css.Reader
import NestedStyles.Proofs.Result
/-!
# Post-processing goes block by block

Prefixing and minifying cut their text into blocks, and what is prefixed is cut once more before it
is minified. Cutting looks at lines, so it finds a boundary between two texts if the first one ends
with a line that closes a block. This stays so after prefixing, provided that the engine ends what
it prints with such a line.

* `Whole` says of a text that it ends where a block ends: `topLevelBlocks_append` cuts what follows
  a whole text by itself;
* `Engine.ClosesBlocks` is what is asked of an engine, `whole_addVendorPrefixes` what comes of it: a
  whole text stays whole when it is prefixed;
* `postProcess_append`: a whole text and what follows it are processed one after the other, with
  prefixes or without, minified or not.
-/
namespace NestedStyles.Css

open Text (isBlankText joinLines trimEnd unlines)

/-! ## Cutting behind a block -/

/-- The lines that blocks are made of. -/
def inkLines (css : String) : List String :=
  (Text.lines css).filter fun line => !isBlankText line

/-- The last line, if there is one, closes a block. -/
def EndsClosed (ls : List String) : Prop := ∀ l ∈ ls.getLast?, l = closingLine

/-- A text that ends where a block ends: with a line feed, and with a closing line as the last line
that is not blank. The empty text is one. -/
structure Whole (css : String) : Prop where
  newline : css = "" ∨ ∃ text, css = text ++ "\n"
  closed : EndsClosed (inkLines css)

theorem blocksOfLines_ne_nil {ls : List String} (h : ls ≠ []) : blocksOfLines ls ≠ [] := by
  cases ls with
  | nil => exact absurd rfl h
  | cons l ls =>
    rw [blocksOfLines]
    split
    · exact List.cons_ne_nil _ _
    · split <;> exact List.cons_ne_nil _ _

/-- Lines behind a closing line are cut by themselves. -/
theorem blocksOfLines_append_of_endsClosed {ls : List String} (h : EndsClosed ls)
    (rest : List String) : blocksOfLines (ls ++ rest) = blocksOfLines ls ++ blocksOfLines rest := by
  induction ls with
  | nil => rfl
  | cons l ls ih =>
    have htail : EndsClosed ls := by
      intro l' hl'
      cases ls with
      | nil => cases hl'
      | cons l₂ ls => exact h l' (by rwa [List.getLast?_cons_cons])
    rw [List.cons_append, blocksOfLines, blocksOfLines, ih htail]
    split
    · rfl
    · next hl =>
      have hne : ls ≠ [] := by
        rintro rfl
        exact hl (h l (by simp))
      obtain ⟨block, more, hblocks⟩ := List.exists_cons_of_ne_nil (blocksOfLines_ne_nil hne)
      rw [hblocks]
      rfl

theorem inkLines_append {a : String} (h : a = "" ∨ ∃ text, a = text ++ "\n") (b : String) :
    inkLines (a ++ b) = inkLines a ++ inkLines b := by
  rcases h with rfl | ⟨text, rfl⟩
  · rw [String.empty_append]
    rfl
  · rw [inkLines, Text.lines_append, List.filter_append]
    rfl

theorem whole_empty : Whole "" := ⟨Or.inl rfl, fun _ hl => by cases hl⟩

theorem whole_emptyLine : Whole "\n" := by
  have hink : inkLines "\n" = [] := by decide
  refine ⟨Or.inr ⟨"", rfl⟩, fun l hl => ?_⟩
  rw [hink] at hl
  cases hl

theorem Whole.append {a b : String} (ha : Whole a) (hb : Whole b) : Whole (a ++ b) := by
  constructor
  · rcases hb.newline with rfl | ⟨text, rfl⟩
    · rw [String.append_empty]
      exact ha.newline
    · exact Or.inr ⟨a ++ text, (String.append_assoc ..).symm⟩
  · intro l hl
    rw [inkLines_append ha.newline, List.getLast?_append, Option.mem_def, Option.or_eq_some_iff] at hl
    rcases hl with hl | ⟨-, hl⟩
    · exact hb.closed l hl
    · exact ha.closed l hl

/-- What follows a whole text is cut as it is by itself. -/
theorem topLevelBlocks_append {a : String} (h : Whole a) (b : String) :
    topLevelBlocks (a ++ b) = topLevelBlocks a ++ topLevelBlocks b := by
  have hcut : ∀ css, topLevelBlocks css = (blocksOfLines (inkLines css)).map unlines :=
    fun _ => rfl
  rw [hcut, hcut, hcut, inkLines_append h.newline, blocksOfLines_append_of_endsClosed h.closed,
    List.map_append]

/-! ## Texts that end with a closing line -/

/-- The last line of a text is a closing line. -/
def ClosesLast (text : String) : Prop :=
  text = closingLine ∨ ∃ body, text = body ++ "\n" ++ closingLine

theorem inkLines_closingLine : inkLines (closingLine ++ "\n") = [closingLine] := by decide

/-- A text whose last line is a closing line is whole if that line is ended. -/
theorem ClosesLast.whole {text : String} (h : ClosesLast text) : Whole (text ++ "\n") := by
  refine ⟨Or.inr ⟨text, rfl⟩, ?_⟩
  rcases h with rfl | ⟨body, rfl⟩
  · rw [inkLines_closingLine]
    intro l hl
    exact (Option.some.inj hl).symm
  · rw [String.append_assoc, inkLines_append (Or.inr ⟨body, rfl⟩), inkLines_closingLine]
    intro l hl
    rw [List.getLast?_concat] at hl
    exact (Option.some.inj hl).symm

theorem dropEndBlanks_append {cs : List Char} {c : Char} (hc : Text.isBlank c = false)
    {blanks : List Char} (h : ∀ b ∈ blanks, Text.isBlank b = true) :
    Text.dropEndBlanks (cs ++ c :: blanks) = cs ++ [c] := by
  have hblanks : ∀ b ∈ blanks.reverse, Text.isBlank b = true := fun b hb =>
    h b (List.mem_reverse.1 hb)
  rw [Text.dropEndBlanks, Text.dropBlanks, List.reverse_append, List.reverse_cons,
    List.append_assoc, List.dropWhile_append_of_pos hblanks, List.singleton_append,
    List.dropWhile_cons_of_neg (by rw [hc]; exact Bool.false_ne_true), List.reverse_cons,
    List.reverse_reverse]

theorem trimEnd_closingLine (text : String) {blanks : List Char}
    (h : ∀ b ∈ blanks, Text.isBlank b = true) :
    trimEnd (text ++ closingLine ++ .ofList blanks) = text ++ closingLine := by
  have hlist : (text ++ closingLine ++ .ofList blanks).toList
      = text.toList ++ '\x7d' :: blanks := by
    simp [closingLine]
  rw [trimEnd, hlist, dropEndBlanks_append (by decide) h, String.ofList_append,
    String.ofList_toList]
  rfl

theorem trimEnd_of_blank {text : String} (h : isBlankText text = true) : trimEnd text = "" := by
  have hall : ∀ c ∈ text.toList.reverse, Text.isBlank c = true := fun c hc =>
    List.all_eq_true.1 h c (List.mem_reverse.1 hc)
  rw [trimEnd, Text.dropEndBlanks, Text.dropBlanks, List.dropWhile_eq_nil_iff.2 hall]
  rfl

/-- The text of a passage ends with a closing line and its line feed, which is all that trimming
takes. -/
theorem trimEnd_passage {p : Passage} (h : p.Printable) :
    ClosesLast (trimEnd p.text) ∧ p.text = trimEnd p.text ++ "\n" := by
  obtain ⟨body, hbody, -⟩ := lines_eq_body h
  have htext : p.text = unlines body ++ closingLine ++ "\n" := by
    rw [Passage.text, hbody, Text.unlines_append, Text.unlines_cons, Text.unlines_nil,
      String.append_empty, String.append_assoc]
  have hnewline : "\n" = String.ofList ['\n'] := rfl
  have htrim : trimEnd p.text = unlines body ++ closingLine := by
    rw [htext, hnewline]
    refine trimEnd_closingLine _ fun b hb => ?_
    rw [List.mem_singleton.1 hb]
    decide
  rw [htrim]
  refine ⟨?_, htext⟩
  rcases List.eq_nil_or_concat body with rfl | ⟨lines, l, rfl⟩
  · exact Or.inl (String.empty_append)
  · refine Or.inr ⟨unlines lines ++ l, ?_⟩
    simp only [List.concat_eq_append, Text.unlines_append, Text.unlines_cons, Text.unlines_nil,
      String.append_empty, String.append_assoc]

theorem whole_passages {ps : List Passage} (h : ∀ p ∈ ps, p.Printable) :
    Whole (unlines (ps.flatMap Passage.lines)) := by
  induction ps with
  | nil => exact whole_empty
  | cons p ps ih =>
    have hp := trimEnd_passage (h p List.mem_cons_self)
    have htext : Whole (unlines p.lines) := by
      rw [← Passage.text, hp.2]
      exact hp.1.whole
    rw [List.flatMap_cons, Text.unlines_append]
    exact htext.append (ih fun p hp => h p (List.mem_cons_of_mem _ hp))

/-! ## Engines that close their blocks -/

/-- What an engine prints on lines is blank, or its last line is a closing line. -/
def Engine.ClosesBlocks (e : Engine) : Prop :=
  ∀ targets block text, e.process targets false block = some (.css text) →
    isBlankText text = true ∨ ClosesLast (trimEnd text)

variable {e : Engine} {targets : Option BrowserTargets} {short : Bool}

/-- What becomes of a block is whole on lines of its own, if the block is. -/
theorem Engine.ClosesBlocks.whole_transform (he : e.ClosesBlocks) {block text : String}
    (hblock : Whole (trimEnd block ++ "\n")) (h : transform e targets false block = .ok text) :
    Whole (text ++ "\n") := by
  unfold transform at h
  split at h
  · cases h
  · cases h
    exact hblock
  · next processed hprocess =>
    cases h
    rcases he _ _ _ hprocess with hblank | hcloses
    · rw [trimEnd_of_blank hblank]
      exact whole_emptyLine
    · exact hcloses.whole

/-- What becomes of blocks, line by line, is whole if each of them is. -/
theorem Engine.ClosesBlocks.whole_transformBlocks (he : e.ClosesBlocks) {blocks texts : List String}
    (hblocks : ∀ block ∈ blocks, Whole (trimEnd block ++ "\n"))
    (h : blocks.mapM (transform e targets false) = .ok texts) : Whole (unlines texts) := by
  induction blocks generalizing texts with
  | nil =>
    cases h
    exact whole_empty
  | cons block blocks ih =>
    obtain ⟨text, rest, htext, hrest, rfl⟩ := mapM_cons_eq_ok.1 h
    rw [Text.unlines_cons]
    exact (he.whole_transform (hblocks block List.mem_cons_self) htext).append
      (ih (fun b hb => hblocks b (List.mem_cons_of_mem _ hb)) hrest)

/-! ## One text after the other -/

theorem transformBlocks_append {a : String} (ha : Whole a) (b : String) :
    transformBlocks e targets short (a ++ b) = do
      let first ← transformBlocks e targets short a
      let second ← transformBlocks e targets short b
      return first ++ second := by
  rw [transformBlocks, topLevelBlocks_append ha, List.mapM_append]
  rfl

theorem addVendorPrefixes_eq (css : String) :
    addVendorPrefixes e targets css = unlines <$> transformBlocks e targets false css := by
  unfold addVendorPrefixes
  cases transformBlocks e targets false css with
  | error fault => rfl
  | ok texts =>
    cases texts with
    | nil => rfl
    | cons text texts => exact congrArg Except.ok (Text.joinLines_append_newline (by simp))

theorem addVendorPrefixes_append {a : String} (ha : Whole a) (b : String) :
    addVendorPrefixes e targets (a ++ b) = do
      let first ← addVendorPrefixes e targets a
      let second ← addVendorPrefixes e targets b
      return first ++ second := by
  simp only [addVendorPrefixes_eq, transformBlocks_append ha]
  cases transformBlocks e targets false a with
  | error fault => rfl
  | ok first =>
    cases transformBlocks e targets false b with
    | error fault => rfl
    | ok second => exact congrArg Except.ok (Text.unlines_append first second)

theorem minify_append {a : String} (ha : Whole a) (b : String) :
    minify e (a ++ b) = do
      let first ← minify e a
      let second ← minify e b
      return first ++ second := by
  simp only [minify, transformBlocks_append ha]
  cases transformBlocks e none true a with
  | error fault => rfl
  | ok first =>
    cases transformBlocks e none true b with
    | error fault => rfl
    | ok second => exact congrArg Except.ok String.join_append

/-! ## Both rounds -/

/-- The first round: prefixes, if targets ask for them. -/
def prefixed (e : Engine) (o : Options) (css : String) : Except Fault String :=
  match o.vendorPrefixes.browsers with
  | some targets => addVendorPrefixes e (some targets) css
  | none => return css

/-- The second round: the shortest form, if the options ask for it. -/
def shortened (e : Engine) (o : Options) (css : String) : Except Fault String :=
  if o.minify then minify e css else return css

variable {o : Options}

/-- Nothing is made of the empty text, so it need not be told apart. -/
theorem postProcess_eq (css : String) : postProcess e o css = prefixed e o css >>= shortened e o := by
  unfold postProcess prefixed shortened
  by_cases h : css = ""
  · subst h
    rw [if_pos rfl]
    cases o.vendorPrefixes.browsers <;> cases o.minify <;> rfl
  · rw [if_neg h]
    cases o.vendorPrefixes.browsers <;> rfl

theorem prefixed_append {a : String} (ha : Whole a) (b : String) : prefixed e o (a ++ b) = do
    let first ← prefixed e o a
    let second ← prefixed e o b
    return first ++ second := by
  unfold prefixed
  split
  · exact addVendorPrefixes_append ha b
  · rfl

theorem shortened_append {a : String} (ha : Whole a) (b : String) : shortened e o (a ++ b) = do
    let first ← shortened e o a
    let second ← shortened e o b
    return first ++ second := by
  unfold shortened
  split
  · exact minify_append ha b
  · rfl

/-- Printed passages stay whole when prefixes are added. -/
theorem Engine.ClosesBlocks.whole_prefixed (he : e.ClosesBlocks) {ps : List Passage}
    (h : ∀ p ∈ ps, p.Printable) {text : String}
    (htext : prefixed e o (unlines (ps.flatMap Passage.lines)) = .ok text) : Whole text := by
  have hblocks : ∀ block ∈ ps.map Passage.text, Whole (trimEnd block ++ "\n") := by
    intro block hblock
    obtain ⟨p, hp, rfl⟩ := List.mem_map.1 hblock
    exact (trimEnd_passage (h p hp)).1.whole
  unfold prefixed at htext
  split at htext
  · next targets _ =>
    rw [addVendorPrefixes_eq, transformBlocks, topLevelBlocks_unlines h] at htext
    obtain ⟨texts, htexts, htext⟩ := bind_eq_ok.1 htext
    cases htext
    exact he.whole_transformBlocks hblocks htexts
  · cases htext
    exact whole_passages h

/-- The only fault is that of the engine. -/
def FailsInEngine {α : Type} (x : Except Fault α) : Prop :=
  ∀ fault, x = .error fault → fault = .postProcess

theorem FailsInEngine.bind {α β : Type} {x : Except Fault α} {f : α → Except Fault β}
    (hx : FailsInEngine x) (hf : ∀ a, FailsInEngine (f a)) : FailsInEngine (x >>= f) := by
  intro fault h
  rcases bind_eq_error.1 h with h | ⟨a, -, h⟩
  · exact hx fault h
  · exact hf a fault h

theorem FailsInEngine.ok {α : Type} (a : α) : FailsInEngine (.ok a : Except Fault α) := by
  intro fault h
  cases h

/-- Steps that fail in the engine only may change places. -/
theorem FailsInEngine.comm {α β γ : Type} {x : Except Fault α} {y : Except Fault β}
    (hx : FailsInEngine x) (hy : FailsInEngine y) (f : α → β → Except Fault γ) :
    (x >>= fun a => y >>= fun b => f a b) = y >>= fun b => x >>= fun a => f a b := by
  cases x with
  | ok a => rfl
  | error fault =>
    cases y with
    | ok b => rfl
    | error fault' =>
      obtain rfl := hx fault rfl
      obtain rfl := hy fault' rfl
      rfl

theorem failsInEngine_transformBlocks (css : String) :
    FailsInEngine (transformBlocks e targets short css) := by
  unfold transformBlocks
  induction topLevelBlocks css with
  | nil => exact .ok []
  | cons block blocks ih =>
    have hblock : FailsInEngine (transform e targets short block) := by
      intro fault h
      unfold transform at h
      split at h
      · cases h
        rfl
      · cases h
      · cases h
    rw [List.mapM_cons]
    exact hblock.bind fun text => ih.bind fun texts => .ok _

theorem failsInEngine_prefixed (css : String) : FailsInEngine (prefixed e o css) := by
  unfold prefixed
  split
  · rw [addVendorPrefixes_eq]
    exact (failsInEngine_transformBlocks css).bind fun texts => .ok _
  · exact .ok css

theorem failsInEngine_shortened (css : String) : FailsInEngine (shortened e o css) := by
  unfold shortened
  split
  · exact (failsInEngine_transformBlocks css).bind fun texts => .ok _
  · exact .ok css

/-- Printed passages and what follows them are processed one after the other. -/
theorem Engine.ClosesBlocks.postProcess_append (he : e.ClosesBlocks) {ps : List Passage}
    (h : ∀ p ∈ ps, p.Printable) (b : String) :
    postProcess e o (unlines (ps.flatMap Passage.lines) ++ b) = do
      let first ← postProcess e o (unlines (ps.flatMap Passage.lines))
      let second ← postProcess e o b
      return first ++ second := by
  simp only [postProcess_eq, prefixed_append (whole_passages h)]
  cases hfirst : prefixed e o (unlines (ps.flatMap Passage.lines)) with
  | error fault => rfl
  | ok first =>
    have hwhole : Whole first := he.whole_prefixed h hfirst
    -- what follows gets its prefixes before the first text is shortened
    have hswap := (failsInEngine_prefixed (e := e) (o := o) b).comm
      (failsInEngine_shortened (e := e) (o := o) first) fun second short => do
        let short' ← shortened e o second
        return short ++ short'
    have hok : ∀ f : String → Except Fault String, (Except.ok first >>= f) = f first :=
      fun _ => rfl
    simp only [hok, bind_assoc, pure_bind, shortened_append hwhole]
    exact hswap

end NestedStyles.Css
