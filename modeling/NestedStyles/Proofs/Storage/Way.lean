import NestedStyles.Proofs.Storage.Path
import NestedStyles.Proofs.Storage.Place
import NestedStyles.Storage.Listing
/-!
# The way of a path

Where a path leads is settled by what is shown at its stages, and at nothing else. The place it
names is that of the path without its detours, so who has what stands at the stages of the one knows
where the other leads, and what stands at the end of the other is what it will lead to.

* `isAbsolute_iff`, `steps_intercalate`: what the parts of a path say about it;
* `place_ofLocation`: the path of a location names it;
* `place_direct`: without its detours a path names the same place;
* `resolve_congr`: trees that show the same at the stages of a path agree on where it leads.
-/
namespace NestedStyles.Storage

/-! ## Parts -/

namespace Path

variable {path : String} {parts : List String}

theorem isAbsolute_iff :
    isAbsolute path = true ↔ ∃ part parts, segments path = "" :: part :: parts := by
  constructor
  · intro h
    obtain ⟨cs, hcs⟩ := List.head?_eq_some_iff.1 (of_decide_eq_true h)
    obtain ⟨s, more, hs⟩ := List.exists_cons_of_ne_nil (segmentsOf_ne_nil cs)
    exact ⟨.ofList s, more.map .ofList, by rw [segments, hcs, segmentsOf_slash, hs]; rfl⟩
  · rintro ⟨part, parts, h⟩
    by_contra hrelative
    rw [segments_of_relative (Bool.eq_false_iff.2 hrelative) h] at h
    cases h

theorem steps_intercalate (h : ∀ part ∈ parts, '/' ∉ part.toList) :
    steps ("/".intercalate parts) = (parts.filter (· ≠ "")).map step := by
  by_cases hne : parts = []
  · rw [hne]
    rfl
  · rw [steps, segments_intercalate hne h]

/-- A part that a path without detours may have. -/
def IsPart (part : String) : Prop := part = ".." ∨ IsName part

theorem IsPart.ne_empty {part : String} (h : IsPart part) : part ≠ "" := by
  rcases h with rfl | h
  · decide
  · rintro rfl
    exact h.1 List.mem_cons_self

theorem IsPart.no_slash {part : String} (h : IsPart part) : '/' ∉ part.toList := by
  rcases h with rfl | h
  · decide
  · exact h.2

theorem step_of_isName {name : String} (h : IsName name) : step name = .name name := by
  have hname := h.1
  simp only [List.mem_cons, List.not_mem_nil, or_false, not_or] at hname
  rw [step, if_neg hname.2.1, if_neg hname.2.2]

theorem filter_parts (h : ∀ part ∈ parts, IsPart part) : parts.filter (· ≠ "") = parts :=
  List.filter_eq_self.2 fun part hpart => decide_eq_true (h part hpart).ne_empty

theorem mem_steps {c : Component} (h : c ∈ steps path) :
    c = .current ∨ c = .parent ∨ ∃ name, c = .name name ∧ IsName name := by
  obtain ⟨part, hpart, rfl⟩ := List.mem_map.1 h
  obtain ⟨hpart, hne⟩ := List.mem_filter.1 hpart
  unfold step
  split
  · exact Or.inl rfl
  · split
    · exact Or.inr (Or.inl rfl)
    · refine Or.inr (Or.inr ⟨part, rfl, ?_, slash_not_mem_segments hpart⟩)
      simp_all

theorem steps_of_isPart (h : ∀ part ∈ parts, IsPart part) :
    steps ("/".intercalate parts) = parts.map step := by
  rw [steps_intercalate fun part hpart => (h part hpart).no_slash, filter_parts h]

theorem steps_ofLocation (h : ∀ part ∈ parts, IsPart part) :
    steps (ofLocation parts) = parts.map step := by
  rw [← steps_of_isPart h, ofLocation, ← String.empty_append (s := "/"), steps, segments_append]
  rfl

theorem isAbsolute_ofLocation (location : List String) :
    isAbsolute (ofLocation location) = true := by
  simp [isAbsolute, ofLocation]

theorem isAbsolute_of_isPart (hne : parts ≠ []) (h : ∀ part ∈ parts, IsPart part) :
    isAbsolute ("/".intercalate parts) = false := by
  rw [Bool.eq_false_iff, Ne, isAbsolute_iff,
    segments_intercalate hne fun part hpart => (h part hpart).no_slash]
  rintro ⟨part, more, rfl⟩
  exact (h "" List.mem_cons_self).ne_empty rfl

/-! ## Detours -/

open FileTree (walk)

variable {start : List String} {absolute : Bool} {names : List String}

theorem isPart_descend (hnames : ∀ n ∈ names, IsPart n) {c : Component}
    (hc : c = .current ∨ c = .parent ∨ ∃ name, c = .name name ∧ IsName name) :
    ∀ n ∈ descend absolute names c, IsPart n := by
  rcases hc with rfl | rfl | ⟨name, rfl, hname⟩
  · exact hnames
  · unfold descend
    simp only
    split
    · exact List.forall_mem_append.2 ⟨hnames, List.forall_mem_singleton.2 (Or.inl rfl)⟩
    · exact fun n hn => hnames n (List.mem_of_mem_dropLast hn)
  · exact List.forall_mem_append.2 ⟨hnames, List.forall_mem_singleton.2 (Or.inr hname)⟩

/-- A step behind names without detours leads where it leads behind the names themselves. -/
theorem foldl_walk_descend (hstart : absolute = true → start = [])
    (hnames : ∀ n ∈ names, IsPart n) {c : Component}
    (hc : c = .current ∨ c = .parent ∨ ∃ name, c = .name name ∧ IsName name) :
    ((descend absolute names c).map step).foldl walk start
      = walk ((names.map step).foldl walk start) c := by
  rcases hc with rfl | rfl | ⟨name, rfl, hname⟩
  · rfl
  · unfold descend
    simp only
    split
    · rw [List.map_append, List.foldl_append]
      rfl
    · rename_i hback
      rw [not_or] at hback
      rcases List.eq_nil_or_concat' names with rfl | ⟨before, last, rfl⟩
      · have habs : absolute = true := by simpa using hback.2
        rw [hstart habs]
        rfl
      · have hlast : IsName last := by
          refine (hnames last (by simp)).resolve_left fun hdots => hback.1 ?_
          rw [hdots, List.getLast?_concat]
        rw [List.dropLast_concat, List.map_append, List.foldl_append, List.map_singleton,
          step_of_isName hlast]
        exact List.dropLast_concat.symm
  · change ((names ++ [name]).map step).foldl walk start = _
    rw [List.map_append, List.foldl_append, List.map_singleton, step_of_isName hname]
    rfl

theorem foldl_walk_direct (hstart : absolute = true → start = []) {way : List Component}
    (hway : ∀ c ∈ way, c = .current ∨ c = .parent ∨ ∃ name, c = .name name ∧ IsName name)
    (hnames : ∀ n ∈ names, IsPart n) :
    (∀ n ∈ way.foldl (descend absolute) names, IsPart n) ∧
      ((way.foldl (descend absolute) names).map step).foldl walk start
        = way.foldl walk ((names.map step).foldl walk start) := by
  induction way generalizing names with
  | nil => exact ⟨hnames, rfl⟩
  | cons c way ih =>
    obtain ⟨hc, hway⟩ := List.forall_mem_cons.1 hway
    rw [List.foldl_cons, List.foldl_cons, ← foldl_walk_descend hstart hnames hc]
    exact ih hway (isPart_descend hnames hc)

/-! ## Stages -/

/-- Each step of a path, with those before it, is what a stage takes. -/
theorem exists_stage {before : List Component} {c : Component} (h : before ++ [c] <+: steps path) :
    ∃ stage ∈ stages path, steps stage = before ++ [c] ∧ isAbsolute stage = isAbsolute path := by
  obtain ⟨after, hafter⟩ := h
  obtain ⟨taken, left, hfilter, htaken, -⟩ := List.map_eq_append_iff.1 hafter.symm
  obtain ⟨parts, more, hparts, rfl, -⟩ := List.filter_eq_append_iff.1 hfilter
  have hslash : ∀ part ∈ parts, '/' ∉ part.toList := fun part hpart =>
    slash_not_mem_segments (hparts ▸ List.mem_append_left more hpart)
  have hne : parts ≠ [] := by
    rintro rfl
    simp at htaken
  refine ⟨"/".intercalate parts, ?_, ?_, ?_⟩
  · have hlength := List.length_pos_iff.2 hne
    refine List.mem_map.2 ⟨parts.length - 1, ?_, ?_⟩
    · rw [List.mem_range, hparts, List.length_append]
      omega
    · rw [Nat.sub_add_cancel hlength, hparts, List.take_left]
  · rw [steps_intercalate hslash, htaken]
  · -- a stage has a step, so that it is more than the slash in front
    obtain ⟨part, rest, rfl⟩ := List.exists_cons_of_ne_nil hne
    rw [Bool.eq_iff_iff, isAbsolute_iff, isAbsolute_iff, segments_intercalate hne hslash, hparts]
    cases rest with
    | nil =>
      have hpart : part ≠ "" := by
        rintro rfl
        simp at htaken
      simp [hpart]
    | cons part' rest => simp

theorem intercalate_segmentsOf (cs : List Char) :
    "/".intercalate ((segmentsOf cs).map String.ofList) = String.ofList cs := by
  induction cs with
  | nil => rfl
  | cons c cs ih =>
    obtain ⟨s, more, hs⟩ := List.exists_cons_of_ne_nil (segmentsOf_ne_nil cs)
    rw [hs, List.map_cons] at ih
    by_cases hc : c = '/'
    · rw [hc, segmentsOf_slash, hs, List.map_cons, List.map_cons, String.intercalate_cons_cons, ih]
      apply String.toList_inj.1
      simp
    · rw [segmentsOf_cons hc hs, List.map_cons]
      apply String.toList_inj.1
      cases more with
      | nil => simpa using congrArg String.toList ih
      | cons s' more => simpa [String.intercalate_cons_cons] using congrArg String.toList ih

theorem mem_stages_self (path : String) : path ∈ stages path := by
  have hpath : "/".intercalate (segments path) = path := by
    rw [segments, intercalate_segmentsOf, String.ofList_toList]
  have hlength : 0 < (segments path).length :=
    List.length_pos_iff.2 (by simp [segments, segmentsOf_ne_nil])
  refine List.mem_map.2 ⟨(segments path).length - 1, List.mem_range.2 (by omega), ?_⟩
  rw [Nat.sub_add_cancel hlength, List.take_length, hpath]

end Path

/-- The text that is read where a path leads, by what is shown there. -/
def Goal.text : Goal → Option Face → Except Cause String
  | .entry _ _ _, none => .error .notFound
  | .entry _ _ true, some (.file _) => .error .notADirectory
  | .entry _ _ false, some (.file contents) => contents.asText
  | .folder _, some (.file contents) => contents.asText
  | _, _ => .error .isADirectory

namespace FileTree

/-- A location's path names it. -/
theorem place_ofLocation (t : FileTree) {location : List String}
    (h : ∀ name ∈ location, Path.IsName name) : t.place (Path.ofLocation location) = location := by
  have hwalk : ∀ here, (location.map Path.step).foldl walk here = here ++ location := by
    induction location with
    | nil => exact fun here => (List.append_nil here).symm
    | cons name location ih =>
      obtain ⟨hname, hlocation⟩ := List.forall_mem_cons.1 h
      intro here
      rw [List.map_cons, List.foldl_cons, Path.step_of_isName hname, ih hlocation]
      exact List.append_assoc ..
  rw [place, startOf, if_pos (Path.isAbsolute_ofLocation location),
    Path.steps_ofLocation fun name hname => Or.inr (h name hname), hwalk, List.nil_append]

/-- Without its detours a path names the same place. -/
theorem place_direct (t : FileTree) (path : String) :
    t.place (Path.direct path) = t.place path := by
  have hstart : Path.isAbsolute path = true → t.startOf path = [] := fun h => if_pos h
  obtain ⟨hparts, hplace⟩ := Path.foldl_walk_direct hstart
    (fun c (hc : c ∈ Path.steps path) => Path.mem_steps hc) (List.forall_mem_nil Path.IsPart)
  have hstarts : Path.isAbsolute (Path.direct path) = Path.isAbsolute path ∧
      (Path.steps (Path.direct path)).foldl walk (t.startOf path) = t.place path := by
    unfold Path.direct
    simp only
    split
    · rename_i habsolute
      rw [Path.isAbsolute_ofLocation, Path.steps_ofLocation hparts]
      exact ⟨habsolute.symm, hplace⟩
    · rename_i hrelative
      have hrelative := Bool.eq_false_iff.2 hrelative
      split
      · rename_i hnone
        rw [hnone] at hplace
        exact ⟨hrelative.symm, hplace⟩
      · rename_i hnames
        rw [Path.isAbsolute_of_isPart hnames hparts, Path.steps_of_isPart hparts]
        exact ⟨hrelative.symm, hplace⟩
  have hsame : t.startOf (Path.direct path) = t.startOf path := by
    unfold startOf
    rw [hstarts.1]
  rw [place, hsame]
  exact hstarts.2

/-! ## Stages -/

variable {s t : FileTree}

/-- What a step to a name gives, by what is shown there. -/
def enterFace (there : List String) : Option Face → Except Cause (List String)
  | some .folder => .ok there
  | some (.file _) => .error .notADirectory
  | none => .error .notFound

theorem enter_name (t : FileTree) (here : List String) (n : String) :
    enter t.root here (.name n) = enterFace (here ++ [n]) (t.faceAt? (here ++ [n])) := by
  unfold enter faceAt?
  simp only
  cases t.root.find? (here ++ [n]) with
  | none => rfl
  | some node => cases node <;> rfl

theorem enter_congr {here : List String} {c : Component}
    (h : s.faceAt? (walk here c) = t.faceAt? (walk here c)) :
    enter s.root here c = enter t.root here c := by
  cases c with
  | name n =>
    rw [enter_name, enter_name]
    exact congrArg (enterFace (here ++ [n])) h
  | root => rfl
  | current => rfl
  | parent => rfl

theorem foldlM_enter_congr {way : List Component} {here : List String}
    (h : ∀ before c, before ++ [c] <+: way →
      s.faceAt? ((before ++ [c]).foldl walk here) = t.faceAt? ((before ++ [c]).foldl walk here)) :
    way.foldlM (enter s.root) here = way.foldlM (enter t.root) here := by
  induction way generalizing here with
  | nil => rfl
  | cons c way ih =>
    have hc := enter_congr (h [] c ⟨way, rfl⟩)
    rw [List.foldlM_cons, List.foldlM_cons, hc]
    cases hthere : enter t.root here c with
    | error cause => rfl
    | ok there =>
      rw [eq_walk_of_enter hthere]
      exact ih fun before c' hbefore => h (c :: before) c' (List.cons_prefix_cons.2 ⟨rfl, hbefore⟩)

/-- Trees that show the same at the stages of a path agree on where it leads. -/
theorem resolve_congr (hhome : t.home = s.home) {path : String}
    (h : ∀ stage ∈ Path.stages path, s.faceAt? (s.place stage) = t.faceAt? (s.place stage)) :
    s.resolve path = t.resolve path := by
  have hstart : t.startOf path = s.startOf path := by
    unfold startOf
    rw [hhome]
  have hway : (Path.steps path).dropLast.foldlM (enter s.root) (s.startOf path)
      = (Path.steps path).dropLast.foldlM (enter t.root) (s.startOf path) := by
    refine foldlM_enter_congr fun before c hbefore => ?_
    obtain ⟨stage, hstage, hsteps, habsolute⟩ :=
      Path.exists_stage (hbefore.trans (List.dropLast_prefix _))
    have hplace : s.place stage = (before ++ [c]).foldl walk (s.startOf path) := by
      rw [place, hsteps, startOf, habsolute]
      rfl
    rw [← hplace]
    exact h stage hstage
  unfold resolve
  by_cases hpath : path = ""
  · rw [if_pos hpath, if_pos hpath]
  · rw [if_neg hpath, if_neg hpath]
    simp only [hstart, hway]
    refine congrArg (_ >>= ·) (funext fun here => ?_)
    cases (Path.steps path).getLast? with
    | none => rfl
    | some step => cases step <;> rfl

theorem readText_of_resolve {path : String} {goal : Goal} (h : t.resolve path = .ok goal) :
    t.readText path = goal.text (t.faceAt? goal.location) := by
  unfold readText locate faceAt?
  rw [h]
  cases goal with
  | folder location =>
    change ((t.root.find? location).getD (.folder [])).readText
      = Goal.text _ ((t.root.find? location).map Node.face)
    cases t.root.find? location with
    | none => rfl
    | some node => cases node <;> rfl
  | entry above name slashed =>
    change _ = Goal.text _ ((t.root.find? (above ++ [name])).map Node.face)
    dsimp only [bind, Except.bind]
    cases t.root.find? (above ++ [name]) with
    | none => rfl
    | some node =>
      cases node with
      | folder entries => rfl
      | file contents modified => cases slashed <;> rfl

/-- Trees that show the same at the stages of a path have the same text there, or none. -/
theorem readText_congr (hhome : t.home = s.home) {path : String}
    (h : ∀ stage ∈ Path.stages path, s.faceAt? (s.place stage) = t.faceAt? (s.place stage)) :
    s.readText path = t.readText path := by
  have hsame := resolve_congr hhome h
  cases hgoal : t.resolve path with
  | error cause =>
    unfold readText locate
    rw [hsame, hgoal]
    rfl
  | ok goal =>
    have hplace := location_of_resolve (hsame.trans hgoal)
    rw [readText_of_resolve (hsame.trans hgoal), readText_of_resolve hgoal, hplace,
      h path (Path.mem_stages_self path)]

end FileTree
end NestedStyles.Storage
