import NestedStyles.Proofs.Storage.Site
/-!
# Components of joined paths

A relative path that is joined to another one adds its components to those of the other, but for a
dot that it starts with, and the other is then found again in front of them. This holds however the
two are spelled: with slashes at the end or repeated, with dots, or with nothing at all.

* `withoutDot` are the components but for a leading dot, and `inner` what the parts of a path stand
  for; of a relative path these are the same (`withoutDot_components`);
* `components_join`: the components of a joined path, and `relativeTo?_join`: what is left of it;
* `inner_intercalate`: parts that are put together with slashes are the parts of a path.
-/
namespace NestedStyles.Storage.Path

/-- Components without a dot in front. -/
def withoutDot : List Component → List Component
  | .current :: cs => cs
  | cs => cs

/-- What the parts of a path stand for, wherever the path starts. -/
def inner (path : String) : List Component := (segments path).filterMap component?

/-- What the first part of a path stands for. -/
def first (part : String) : List Component :=
  if part = "" then [.root] else if part = "." then [.current] else (component? part).toList

/-! ## Parts -/

theorem segments_append (a b : String) : segments (a ++ "/" ++ b) = segments a ++ segments b := by
  have hlist : (a ++ "/" ++ b).toList = a.toList ++ '/' :: b.toList := by simp
  rw [segments, hlist, segmentsOf_append_slash, List.map_append]
  rfl

theorem slash_not_mem_segmentsOf {cs s : List Char} (h : s ∈ segmentsOf cs) : '/' ∉ s := by
  induction cs generalizing s with
  | nil =>
    rw [segmentsOf, List.mem_singleton] at h
    rw [h]
    exact List.not_mem_nil
  | cons c cs ih =>
    by_cases hc : c = '/'
    · rw [hc, segmentsOf_slash, List.mem_cons] at h
      rcases h with rfl | h
      · exact List.not_mem_nil
      · exact ih h
    · obtain ⟨s', more, hs⟩ := List.exists_cons_of_ne_nil (segmentsOf_ne_nil cs)
      rw [segmentsOf_cons hc hs, List.mem_cons] at h
      rw [hs] at ih
      rcases h with rfl | h
      · rw [List.mem_cons, not_or]
        exact ⟨Ne.symm hc, ih List.mem_cons_self⟩
      · exact ih (List.mem_cons_of_mem _ h)

theorem slash_not_mem_segments {path part : String} (h : part ∈ segments path) :
    '/' ∉ part.toList := by
  obtain ⟨s, hs, rfl⟩ := List.mem_map.1 h
  rw [String.toList_ofList]
  exact slash_not_mem_segmentsOf hs

/-- A part stands for the folder above, for a name, or for nothing. -/
theorem component?_eq_some {part : String} {c : Component} (h : component? part = some c) :
    c = .parent ∧ part = ".." ∨ c = .name part ∧ part ∉ ["", ".", ".."] := by
  unfold component? at h
  split at h
  · cases h
  · next hdot =>
    split at h
    · next hdots => exact Or.inl ⟨(Option.some.inj h).symm, hdots⟩
    · next hdots =>
      refine Or.inr ⟨(Option.some.inj h).symm, ?_⟩
      simp only [List.mem_cons, List.not_mem_nil, or_false, not_or]
      exact ⟨(not_or.1 hdot).1, (not_or.1 hdot).2, hdots⟩

theorem component?_name {name : String} (h : IsName name) : component? name = some (.name name) := by
  have hname := h.1
  simp only [List.mem_cons, List.not_mem_nil, or_false, not_or] at hname
  rw [component?, if_neg (not_or.2 ⟨hname.1, hname.2.1⟩), if_neg hname.2.2]

theorem mem_inner {path : String} {c : Component} (h : c ∈ inner path) :
    c = .parent ∨ ∃ name, c = .name name ∧ IsName name := by
  obtain ⟨part, hpart, hc⟩ := List.mem_filterMap.1 h
  rcases component?_eq_some hc with ⟨rfl, -⟩ | ⟨rfl, hname⟩
  · exact Or.inl rfl
  · exact Or.inr ⟨part, rfl, hname, slash_not_mem_segments hpart⟩

/-- Texts without slashes are the parts of the path that they make, unless there are none. -/
theorem segments_intercalate {parts : List String} (hne : parts ≠ [])
    (h : ∀ part ∈ parts, '/' ∉ part.toList) : segments ("/".intercalate parts) = parts := by
  induction parts with
  | nil => exact absurd rfl hne
  | cons part parts ih =>
    have hpart : segments part = [part] := by
      rw [segments, segmentsOf_of_not_mem (h part List.mem_cons_self), List.map_singleton,
        String.ofList_toList]
    cases parts with
    | nil => rw [String.intercalate_singleton, hpart]
    | cons part' parts =>
      rw [String.intercalate_cons_cons, segments_append, hpart,
        ih (List.cons_ne_nil _ _) fun p hp => h p (List.mem_cons_of_mem _ hp)]
      rfl

/-- Parts that are put together stand for the same as one by one. -/
theorem inner_intercalate {parts : List String} (h : ∀ part ∈ parts, '/' ∉ part.toList) :
    inner ("/".intercalate parts) = parts.filterMap component? := by
  by_cases hne : parts = []
  · rw [hne]
    rfl
  · rw [inner, segments_intercalate hne h]

/-! ## Components -/

theorem components_of_segments {path part : String} {parts : List String} (hne : path ≠ "")
    (h : segments path = part :: parts) :
    components path = first part ++ parts.filterMap component? := by
  unfold components first
  rw [h]
  split
  · next heq => cases heq
  · next heq =>
    cases heq
    rw [if_neg hne, if_pos rfl]
    rfl
  · next heq =>
    cases heq
    rw [if_neg (by decide), if_pos rfl]
    rfl
  · next hempty hdot =>
    rw [if_neg fun hp => hempty parts (by rw [hp]), if_neg fun hp => hdot parts (by rw [hp]),
      List.filterMap_cons]
    cases component? part <;> rfl

theorem segments_of_relative {path : String} (h : isAbsolute path = false) {parts : List String}
    (hparts : segments path = "" :: parts) : path = "" := by
  cases hpath : path.toList with
  | nil => exact String.toList_eq_nil_iff.1 hpath
  | cons c cs =>
    have hc : c ≠ '/' := by
      rw [isAbsolute, hpath] at h
      simpa using h
    obtain ⟨s, more, hs⟩ := List.exists_cons_of_ne_nil (segmentsOf_ne_nil cs)
    rw [segments, hpath, segmentsOf_cons hc hs, List.map_cons, List.cons.injEq] at hparts
    exact absurd hparts.1 (by simp)

theorem withoutDot_inner (path : String) : withoutDot (inner path) = inner path := by
  cases hinner : inner path with
  | nil => rfl
  | cons c cs =>
    have hc : c ∈ inner path := by
      rw [hinner]
      exact List.mem_cons_self
    rcases mem_inner hc with rfl | ⟨name, rfl, -⟩ <;> rfl

/-- The components of a relative path but for a leading dot are what its parts stand for. -/
theorem withoutDot_components {path : String} (h : isAbsolute path = false) :
    withoutDot (components path) = inner path := by
  obtain ⟨part, parts, hparts⟩ : ∃ part parts, segments path = part :: parts :=
    List.exists_cons_of_ne_nil (by simp [segments, segmentsOf_ne_nil])
  by_cases hempty : path = ""
  · rw [hempty]
    rfl
  · have hpart : part ≠ "" := by
      rintro rfl
      exact hempty (segments_of_relative h hparts)
    rw [components_of_segments hempty hparts, first, if_neg hpart]
    by_cases hdot : part = "."
    · rw [if_pos hdot, inner, hparts, hdot]
      rfl
    · have hinner : (component? part).toList ++ parts.filterMap component? = inner path := by
        rw [inner, hparts, List.filterMap_cons]
        cases component? part <;> rfl
      rw [if_neg hdot, hinner, withoutDot_inner]

/-! ## Joining -/

variable {root path : String}

/-- Behind a path that is not empty, the parts of a relative one follow after a slash. -/
theorem join_cases (hroot : root ≠ "") (h : isAbsolute path = false) :
    join root path = root ++ "/" ++ path ∨ ∃ base, root = base ++ "/" ∧ join root path
      = base ++ "/" ++ path := by
  unfold join
  rw [h, if_neg Bool.false_ne_true]
  by_cases hslash : root.toList.getLast? = some '/'
  · rw [if_pos (Or.inr hslash)]
    obtain ⟨cs, hcs⟩ := List.getLast?_eq_some_iff.1 hslash
    have hbase : root = .ofList cs ++ "/" := by
      rw [← String.ofList_toList (s := root), hcs, String.ofList_append]
    exact Or.inr ⟨.ofList cs, hbase, by rw [← hbase]⟩
  · rw [if_neg (not_or.2 ⟨hroot, hslash⟩)]
    exact Or.inl rfl

/-- A relative path that is joined to another one adds what its parts stand for. -/
theorem components_join (hroot : root ≠ "") (h : isAbsolute path = false) :
    components (join root path) = components root ++ inner path := by
  have hjoin : ∀ base : String, base ++ "/" ++ path ≠ "" := fun base he => by
    have hlist := congrArg String.toList he
    simp at hlist
  have hparts : ∀ base, ∃ part parts, segments base = part :: parts := fun base =>
    List.exists_cons_of_ne_nil (by simp [segments, segmentsOf_ne_nil])
  rcases join_cases hroot h with hpath | ⟨base, rfl, hpath⟩
  · obtain ⟨part, parts, hroots⟩ := hparts root
    have hall : segments (root ++ "/" ++ path) = part :: (parts ++ segments path) := by
      rw [segments_append, hroots, List.cons_append]
    rw [hpath, components_of_segments (hjoin root) hall, components_of_segments hroot hroots,
      List.filterMap_append, ← List.append_assoc, inner]
  · obtain ⟨part, parts, hbases⟩ := hparts base
    have hall : segments (base ++ "/" ++ path) = part :: (parts ++ segments path) := by
      rw [segments_append, hbases, List.cons_append]
    -- the slash at the end makes an empty part, which stands for nothing
    have hroots : segments (base ++ "/") = part :: (parts ++ [""]) := by
      have happend := segments_append base ""
      rw [String.append_empty, hbases] at happend
      exact happend
    rw [hpath, components_of_segments (hjoin base) hall, components_of_segments hroot hroots,
      List.filterMap_append, List.filterMap_append, ← List.append_assoc, ← List.append_assoc]
    simp [component?, inner]

theorem dropRoot?_append (cs ds : List Component) : dropRoot? cs (cs ++ ds) = some ds := by
  induction cs with
  | nil => rfl
  | cons c cs ih => rw [List.cons_append, dropRoot?, if_pos rfl, ih]

/-- What is left of a joined path when the root is taken off the front. -/
theorem relativeTo?_join (h : isAbsolute path = false) :
    ∃ cs, relativeTo? root (join root path) = some cs ∧ withoutDot cs = inner path := by
  by_cases hroot : root = ""
  · have hjoin : join root path = path := by
      rw [join, h, hroot, if_neg Bool.false_ne_true, if_pos (Or.inl rfl), String.empty_append]
    rw [hjoin, hroot]
    exact ⟨components path, rfl, withoutDot_components h⟩
  · refine ⟨inner path, ?_, withoutDot_inner path⟩
    rw [relativeTo?, components_join hroot h, dropRoot?_append]

end NestedStyles.Storage.Path
