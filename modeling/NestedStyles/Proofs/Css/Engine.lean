import NestedStyles.Css.Engine
import NestedStyles.Proofs.Css.PostProcess
/-!
# What the small engine prints

The small engine prints a rule with its closing brace on a line of its own, and nothing but such
rules: at the top there is no at-rule that it does not know, since a text with such a rule is left
alone, and tidying brings none in.

* `Known` says that no rule at the top is unknown; `known_take` keeps it step by step, `known_tidy`
  for a whole text;
* `closesLast_print`: what is printed for a rule ends with a closing line;
* `engine_closesBlocks`: so does what the engine prints.
-/
namespace NestedStyles.Css

open Text (indent isBlankText trimEnd)

/-! ## Rules that are known -/

/-- No rule of a list is an at-rule that is not known. -/
def Known (rules : List Rule) : Prop := ∀ rule ∈ rules, rule.isUnknown = false

theorem Known.cons {rule : Rule} {rules : List Rule} (hrule : rule.isUnknown = false)
    (h : Known rules) : Known (rule :: rules) := by
  intro r hr
  rcases List.mem_cons.1 hr with rfl | hr
  · exact hrule
  · exact h r hr

theorem Known.tail {rule : Rule} {rules : List Rule} (h : Known (rule :: rules)) : Known rules :=
  fun r hr => h r (List.mem_cons_of_mem _ hr)

theorem known_join? {rule rule' joined : Rule} (h : join? rule rule' = some joined) :
    joined.isUnknown = false := by
  unfold join? at h
  split at h
  · split at h
    · cases h; rfl
    · split at h
      · cases h; rfl
      · cases h
  · cases h

theorem known_joinBack {rules : List Rule} (h : Known rules) : Known (joinBack rules) := by
  fun_induction joinBack rules with
  | case1 later earlier rest rule hjoin ih => exact ih (h.tail.tail.cons (known_join? hjoin))
  | case2 later earlier rest hjoin => exact h
  | case3 rules hrules => exact h

namespace Shelf

variable {s : Shelf}

theorem known_note (h : Known s.rules) (key : RuleKey) : Known (s.note key).rules := by
  unfold note
  split
  · next old _ =>
    intro rule hrule
    rcases List.mem_or_eq_of_mem_set hrule with hrule | rfl
    · exact h rule hrule
    · rfl
  · exact h

theorem known_putStyle (h : Known s.rules) (selectors : List String) (ds : List Declared) :
    Known (s.putStyle selectors ds).rules := by
  unfold putStyle
  split
  · exact h
  · exact known_note (h.cons rfl) _

theorem known_takeStyle (h : Known s.rules) (selectors : List String) (ds : List Declared) :
    Known (s.takeStyle selectors ds).rules := by
  unfold takeStyle
  split
  · exact known_putStyle h selectors ds
  · next newest rest hrules =>
    rw [hrules] at h
    split
    · next joined hjoin => exact known_joinBack (h.tail.cons (known_join? hjoin))
    · exact known_putStyle (by rwa [hrules]) selectors ds

theorem known_takeMedia (h : Known s.rules) (inner : List Rule → List Rule) (query : String)
    (rules : List Rule) : Known (s.takeMedia inner query rules).rules := by
  unfold takeMedia
  extract_lets apart
  have hapart : Known apart.rules := by
    unfold apart
    split
    · exact h
    · exact h.cons rfl
  split
  · next query' rules' rest hrules =>
    split
    · rw [hrules] at h
      exact h.tail.cons rfl
    · exact hapart
  · exact hapart

/-- What is on the shelf stays known if known rules are put there. -/
theorem known_take (h : Known s.rules) (targets : Option BrowserTargets)
    (inner : List Rule → List Rule) {rule : Rule} (hrule : rule.isUnknown = false) :
    Known (s.take targets inner rule).rules := by
  cases rule with
  | style selectors ds => exact known_takeStyle h selectors _
  | media query rules => exact known_takeMedia h inner query rules
  | unknown name => cases hrule
  | blank => exact h.cons rfl

theorem known_foldl_take (h : Known s.rules) (targets : Option BrowserTargets)
    (inner : List Rule → List Rule) {rules : List Rule} (hrules : Known rules) :
    Known (rules.foldl (take targets inner) s).rules := by
  induction rules generalizing s with
  | nil => exact h
  | cons rule rules ih =>
    exact ih (known_take h targets inner (hrules rule List.mem_cons_self)) hrules.tail

end Shelf

theorem known_tidy {rules : List Rule} (h : Known rules) (targets : Option BrowserTargets) :
    Known (tidy targets rules) := by
  have hempty : Known ({} : Shelf).rules := fun rule hrule => by cases hrule
  intro rule hrule
  exact Shelf.known_foldl_take hempty targets _ h rule (List.mem_reverse.1 hrule)

/-! ## Printing -/

theorem ClosesLast.append {text : String} (h : ClosesLast text) (before : String) :
    ClosesLast (before ++ "\n" ++ text) := by
  rcases h with rfl | ⟨body, rfl⟩
  · exact Or.inr ⟨before, rfl⟩
  · exact Or.inr ⟨before ++ "\n" ++ body, by simp only [String.append_assoc]⟩

/-- Lines that each end in a line feed, behind one that does. -/
theorem exists_newline_join (before : String) (lines : List String) :
    ∃ body, before ++ "\n" ++ String.join (lines.map (· ++ "\n")) = body ++ "\n" := by
  rcases List.eq_nil_or_concat lines with rfl | ⟨init, last, rfl⟩
  · exact ⟨before, String.append_empty⟩
  · refine ⟨before ++ "\n" ++ String.join (init.map (· ++ "\n")) ++ last, ?_⟩
    simp only [List.concat_eq_append, List.map_append, List.map_cons, List.map_nil,
      String.join_append, String.join_cons, String.join_nil, String.append_empty,
      String.append_assoc]

/-- A rule is printed with its closing brace on a line of its own. -/
theorem closesLast_print {rule : Rule} (hknown : rule.isUnknown = false)
    (hblank : rule.isBlank = false) : ClosesLast (indent 0 ++ rule.print 0) := by
  have hindent : indent 0 = "" := rfl
  rw [hindent, String.empty_append]
  cases rule with
  | style selectors ds =>
    obtain ⟨body, hbody⟩ := exists_newline_join (", ".intercalate selectors ++ " \x7b")
      (ds.map fun d => indent 1 ++ d.property ++ ": " ++ d.value ++ ";")
    refine Or.inr ⟨body, ?_⟩
    rw [← hbody, List.map_map, Rule.print, hindent]
    simp only [Function.comp_def, String.append_assoc, String.empty_append]
    rfl
  | media query rules =>
    refine Or.inr ⟨"@media " ++ query ++ " \x7b\n" ++ "\n\n".intercalate (printRules 1 rules), ?_⟩
    rw [Rule.print, hindent, String.append_empty]
    rfl
  | unknown name => cases hknown
  | blank => cases hblank

theorem closesLast_printRules {rules : List Rule} (h : Known rules) :
    ∀ text ∈ printRules 0 rules, ClosesLast text := by
  induction rules with
  | nil =>
    rw [printRules]
    exact fun text htext => by cases htext
  | cons rule rules ih =>
    rw [printRules]
    intro text htext
    split at htext
    · exact ih h.tail text htext
    · next hblank =>
      rcases List.mem_cons.1 htext with rfl | htext
      · exact closesLast_print (h rule List.mem_cons_self) (by simpa using hblank)
      · exact ih h.tail text htext

/-- Texts that end with closing lines do so as well with blank lines between them. -/
theorem closesLast_intercalate {texts : List String} (hne : texts ≠ [])
    (h : ∀ text ∈ texts, ClosesLast text) : ClosesLast ("\n\n".intercalate texts) := by
  induction texts with
  | nil => exact absurd rfl hne
  | cons text texts ih =>
    cases texts with
    | nil =>
      rw [String.intercalate_singleton]
      exact h text List.mem_cons_self
    | cons text' texts =>
      have hrest := ih (by simp) fun t ht => h t (List.mem_cons_of_mem _ ht)
      have hlines : ("\n\n" : String) = "\n" ++ "\n" := rfl
      have hclosed := hrest.append (text ++ "\n")
      rwa [String.intercalate_cons_cons, hlines, ← String.append_assoc]

/-- A text that ends with a closing line has nothing to trim. -/
theorem ClosesLast.trimEnd_eq {text : String} (h : ClosesLast text) : trimEnd text = text := by
  have htrim : ∀ body, trimEnd (body ++ closingLine) = body ++ closingLine := fun body => by
    have hnone : ∀ b ∈ ([] : List Char), Text.isBlank b = true := fun b hb => by cases hb
    have := trimEnd_closingLine body hnone
    rwa [String.ofList_nil, String.append_empty] at this
  rcases h with rfl | ⟨body, rfl⟩
  · have := htrim ""
    rwa [String.empty_append] at this
  · exact htrim _

/-- The small engine closes its blocks. -/
theorem engine_closesBlocks : engine.ClosesBlocks := by
  intro targets block text h
  cases hrules : rules? block with
  | none =>
    simp only [engine, hrules] at h
    cases h
  | some rules =>
    simp only [engine, hrules, Option.bind_eq_bind, Option.bind_some] at h
    split at h
    · cases h
    · next hany =>
      have hknown : Known rules := by
        intro rule hrule
        by_contra hunknown
        exact hany (List.any_eq_true.2 ⟨rule, hrule, by simpa using hunknown⟩)
      cases h
      by_cases hne : printRules 0 (tidy targets rules) = []
      · left
        rw [hne]
        rfl
      · right
        have hcloses := closesLast_intercalate hne (closesLast_printRules (known_tidy hknown targets))
        rwa [if_neg Bool.false_ne_true, hcloses.trimEnd_eq]

end NestedStyles.Css
