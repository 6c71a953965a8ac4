import NestedStyles.Proofs.Css.Engine
/-!
# Blocks that are kept as they are written

A block with an at-rule that the engine does not know goes through both rounds without a change. In
the first one it is trimmed and put back on its lines, between what has become of its neighbours;
then the text is cut once more, and finds it there again.

* `Engine.JudgesByText` is what is asked of an engine: neither targets nor mode make it find an
  at-rule unknown;
* `Options.layOut` puts the pieces that come of blocks together, each on its lines or one right
  after the other, and `Becomes` says what comes of one block;
* `postProcess_of_unknown`: an unknown block that is processed by itself;
* `exists_pieces`: printed passages are processed to one piece for each, in their order.
-/
namespace NestedStyles

open Text (trimEnd unlines)

/-- The text that pieces make: short ones follow each other, and others are each followed by a line
feed. -/
def Options.layOut (o : Options) (pieces : List String) : String :=
  if o.minify then String.join pieces else unlines pieces

namespace Css

/-- Whether there is an unknown at-rule in a block is judged by the text of the block alone. -/
def Engine.JudgesByText (e : Engine) : Prop :=
  ∀ targets targets' short short' block, e.process targets short block = some .unknownAtRule →
    e.process targets' short' block = some .unknownAtRule

/-- The engine finds an unknown at-rule in a block. -/
def Engine.FindsUnknown (e : Engine) (block : String) : Prop :=
  ∃ targets short, e.process targets short block = some .unknownAtRule

/-- What comes of a block: what comes of it when it is all there is, and if it is unknown, the block
without its last line feed. -/
structure Becomes (e : Engine) (o : Options) (block piece : String) : Prop where
  alone : postProcess e o block = .ok (o.layOut [piece])
  unknown : e.FindsUnknown block → block = piece ++ "\n"

variable {e : Engine} {o : Options}

theorem layOut_singleton (o : Options) (piece : String) :
    o.layOut [piece] = if o.minify then piece else piece ++ "\n" := by
  unfold Options.layOut
  split
  · rw [String.join_cons, String.join_nil, String.append_empty]
  · rw [Text.unlines_cons, Text.unlines_nil, String.append_empty]

theorem layOut_cons (o : Options) (piece : String) (pieces : List String) :
    o.layOut (piece :: pieces) = o.layOut [piece] ++ o.layOut pieces := by
  rw [layOut_singleton]
  unfold Options.layOut
  split
  · exact String.join_cons
  · exact Text.unlines_cons _ _

/-! ## One block -/

theorem Engine.JudgesByText.transform_eq (he : e.JudgesByText) {block : String}
    (h : e.FindsUnknown block) (targets : Option BrowserTargets) (short : Bool) :
    transform e targets short block = .ok (trimEnd block) := by
  obtain ⟨targets', short', hfound⟩ := h
  unfold transform
  rw [he targets' targets short' short block hfound]

section Passage

variable {p : Passage}

theorem topLevelBlocks_text (hp : p.Printable) : topLevelBlocks p.text = [p.text] := by
  have hcut := topLevelBlocks_unlines fun q hq => List.mem_singleton.1 hq ▸ hp
  rwa [List.flatMap_singleton] at hcut

/-- Only one piece can come of a block that is processed by itself. -/
theorem transformBlocks_text (hp : p.Printable) (targets : Option BrowserTargets) (short : Bool) :
    transformBlocks e targets short p.text
      = (transform e targets short p.text).map fun text => [text] := by
  rw [transformBlocks, topLevelBlocks_text hp, List.mapM_cons, List.mapM_nil]
  cases transform e targets short p.text <;> rfl

/-- An unknown block gets no prefixes. -/
theorem prefixed_of_unknown (he : e.JudgesByText) (hp : p.Printable)
    (h : e.FindsUnknown p.text) : prefixed e o p.text = .ok p.text := by
  unfold prefixed
  split
  · next targets _ =>
    rw [addVendorPrefixes_eq, transformBlocks_text hp, he.transform_eq h]
    change Except.ok (unlines [trimEnd p.text]) = _
    rw [Text.unlines_cons, Text.unlines_nil, String.append_empty, ← (trimEnd_passage hp).2]
  · rfl

/-- An unknown block loses its last line feed at most. -/
theorem postProcess_of_unknown (he : e.JudgesByText) (hp : p.Printable)
    (h : e.FindsUnknown p.text) : postProcess e o p.text = .ok (o.layOut [trimEnd p.text]) := by
  have hfirst : postProcess e o p.text = shortened e o p.text := by
    rw [postProcess_eq, prefixed_of_unknown he hp h]
    rfl
  rw [hfirst, layOut_singleton, shortened]
  split
  · rw [minify, transformBlocks_text hp, he.transform_eq h]
    change Except.ok (String.join [trimEnd p.text]) = _
    rw [String.join_cons, String.join_nil, String.append_empty]
  · rw [← (trimEnd_passage hp).2]
    rfl

/-- What comes of a block is a piece, laid out. -/
theorem exists_layOut (hp : p.Printable) {text : String} (h : postProcess e o p.text = .ok text) :
    ∃ piece, text = o.layOut [piece] := by
  cases hminify : o.minify with
  | true => exact ⟨text, by rw [layOut_singleton, hminify, if_pos rfl]⟩
  | false =>
    rw [postProcess_eq] at h
    obtain ⟨css, hcss, hshort⟩ := bind_eq_ok.1 h
    rw [shortened, hminify, if_neg Bool.false_ne_true] at hshort
    cases hshort
    have hlines : ∀ piece, o.layOut [piece] = piece ++ "\n" := fun piece => by
      rw [layOut_singleton, hminify, if_neg Bool.false_ne_true]
    unfold prefixed at hcss
    split at hcss
    · next targets _ =>
      rw [addVendorPrefixes_eq, transformBlocks_text hp] at hcss
      obtain ⟨pieces, hpieces, hcss⟩ := bind_eq_ok.1 hcss
      obtain ⟨piece, -, rfl⟩ := map_eq_ok.1 hpieces
      cases hcss
      refine ⟨piece, ?_⟩
      rw [hlines, Text.unlines_cons, Text.unlines_nil, String.append_empty]
    · cases hcss
      exact ⟨trimEnd p.text, by rw [hlines, ← (trimEnd_passage hp).2]⟩

theorem exists_becomes (he : e.JudgesByText) (hp : p.Printable) {text : String}
    (h : postProcess e o p.text = .ok text) :
    ∃ piece, text = o.layOut [piece] ∧ Becomes e o p.text piece := by
  by_cases hunknown : e.FindsUnknown p.text
  · have halone := postProcess_of_unknown (o := o) he hp hunknown
    refine ⟨trimEnd p.text, ?_, halone, fun _ => (trimEnd_passage hp).2⟩
    exact Except.ok.inj (h.symm.trans halone)
  · obtain ⟨piece, rfl⟩ := exists_layOut hp h
    exact ⟨piece, rfl, h, fun hfound => absurd hfound hunknown⟩

end Passage

/-! ## Many blocks -/

/-- Of printed passages comes a piece for each of them, in their order. -/
theorem exists_pieces (he : e.JudgesByText) (hcloses : e.ClosesBlocks) {ps : List Passage}
    (h : ∀ p ∈ ps, p.Printable) {text : String}
    (htext : postProcess e o (unlines (ps.flatMap Passage.lines)) = .ok text) :
    ∃ pieces, text = o.layOut pieces ∧ List.Forall₂ (Becomes e o) (ps.map Passage.text) pieces := by
  induction ps generalizing text with
  | nil =>
    cases htext
    refine ⟨[], ?_, .nil⟩
    unfold Options.layOut
    split <;> rfl
  | cons p ps ih =>
    rw [List.forall_mem_cons] at h
    have hfirst : unlines ([p].flatMap Passage.lines) = p.text := by
      rw [List.flatMap_singleton]
      rfl
    have hboth := hcloses.postProcess_append (o := o)
      (fun q hq => List.mem_singleton.1 hq ▸ h.1 : ∀ q ∈ [p], q.Printable)
      (unlines (ps.flatMap Passage.lines))
    rw [hfirst] at hboth
    rw [List.flatMap_cons, Text.unlines_append, ← Passage.text, hboth] at htext
    obtain ⟨first, hp, htext⟩ := bind_eq_ok.1 htext
    obtain ⟨second, hps, htext⟩ := bind_eq_ok.1 htext
    cases htext
    obtain ⟨piece, rfl, hbecomes⟩ := exists_becomes he h.1 hp
    obtain ⟨pieces, rfl, hall⟩ := ih h.2 hps
    exact ⟨piece :: pieces, (layOut_cons o piece pieces).symm, .cons hbecomes hall⟩

/-- The small engine looks for unknown at-rules before anything else. -/
theorem engine_judgesByText : engine.JudgesByText := by
  intro targets targets' short short' block h
  cases hrules : rules? block with
  | none =>
    simp only [engine, hrules] at h
    cases h
  | some rules =>
    simp only [engine, hrules, Option.bind_eq_bind, Option.bind_some] at h ⊢
    split at h
    · next hany =>
      rw [if_pos hany]
      exact h
    · cases h

end Css
end NestedStyles
