import NestedStyles.Proofs.Storage.Site
/-!
# Files that stay as they are

Where a path leads, if it leads anywhere, is settled by its parts and by the home folder: a name is
never a link. So whatever is put at a path stands at or below one location, which is known before
anything is done, and no file elsewhere is touched. Folders are made elsewhere as well, but only
where there was nothing.

* `FileTree.place` is the location that a path names (`location_of_locate`);
* `FileTree.fileAt?` is the file at a location, with its contents and the time of its last change;
* `Spares`: another tree has the same home folder, the same files at the locations in question, and
  all the folders;
* `spares_makeFolders`, `spares_setSite_folder`, `spares_writeText`: what is spared when folders are
  made, when a folder is put into a tree, and when a file is written;
* `HasText`: a path leads to a file with a text, as it does when this has been written
  (`hasText_of_writeText`), and as long as the file is spared (`HasText.of_spares`);
* `setSite_site`: putting back what is there changes nothing.
-/
namespace NestedStyles.Storage

/-- The contents of a file and the time of its last change. -/
def Node.file? : Node → Option (Contents × Int)
  | .file contents modified => some (contents, modified)
  | .folder _ => none

/-- The location that a goal is at. -/
def Goal.location : Goal → List String
  | .entry above name _ => above ++ [name]
  | .folder location => location

namespace Node

variable {node new : Node} {location other : List String}

theorem file?_find?_empty (other : List String) :
    ((Node.folder []).find? other).bind file? = none := by
  cases other <;> rfl

/-- What is put at a location changes no file that is not at or below it. -/
theorem file?_find?_put (h : ¬location <+: other) :
    ((node.put location new).find? other).bind file? = (node.find? other).bind file? := by
  induction location generalizing node other with
  | nil => exact absurd List.nil_prefix h
  | cons n ns ih =>
    cases node with
    | file contents modified => rfl
    | folder entries =>
      cases other with
      | nil => rfl
      | cons m ms =>
        change ((OrderedMap.get? (OrderedMap.update entries n _) m).bind (find? · ms)).bind file?
          = ((OrderedMap.get? entries m).bind (find? · ms)).bind file?
        by_cases hm : n = m
        · subst hm
          have hrest : ¬ns <+: ms := fun hp => h (List.cons_prefix_cons.2 ⟨rfl, hp⟩)
          rw [OrderedMap.get?_update_self]
          cases hn : OrderedMap.get? entries n with
          | some inner => exact ih hrest
          | none => exact (ih hrest).trans (file?_find?_empty ms)
        · rw [OrderedMap.get?_update_of_ne hm]

/-- An empty folder where there is nothing changes no file at all. -/
theorem file?_find?_put_empty (h : node.find? location = none) (other : List String) :
    ((node.put location (.folder [])).find? other).bind file? = (node.find? other).bind file? := by
  induction location generalizing node other with
  | nil => cases h
  | cons n ns ih =>
    cases node with
    | file contents modified => rfl
    | folder entries =>
      cases other with
      | nil => rfl
      | cons m ms =>
        change (OrderedMap.get? entries n).bind (find? · ns) = none at h
        change ((OrderedMap.get? (OrderedMap.update entries n _) m).bind (find? · ms)).bind file?
          = ((OrderedMap.get? entries m).bind (find? · ms)).bind file?
        by_cases hm : n = m
        · subst hm
          rw [OrderedMap.get?_update_self]
          cases hn : OrderedMap.get? entries n with
          | some inner =>
            rw [hn] at h
            exact ih h ms
          | none =>
            change (((Node.folder []).put ns (.folder [])).find? ms).bind file? = none
            cases ns with
            | nil => exact file?_find?_empty ms
            | cons k ks => exact (ih rfl ms).trans (file?_find?_empty ms)
        · rw [OrderedMap.get?_update_of_ne hm]

/-- Every folder stays one if what is replaced is none. -/
theorem find?_put_of_not_folder (h : ∀ es, node.find? location ≠ some (.folder es)) {gs : Folder}
    (ho : node.find? other = some (.folder gs)) :
    ∃ hs, (node.put location new).find? other = some (.folder hs) := by
  induction location generalizing node other with
  | nil =>
    cases node with
    | folder entries => exact absurd rfl (h entries)
    | file contents modified => cases other <;> cases ho
  | cons n ns ih =>
    cases node with
    | file contents modified => exact ⟨gs, ho⟩
    | folder entries =>
      cases other with
      | nil => exact ⟨_, rfl⟩
      | cons m ms =>
        change ∀ es, (OrderedMap.get? entries n).bind (find? · ns) ≠ some (.folder es) at h
        change (OrderedMap.get? entries m).bind (find? · ms) = some (.folder gs) at ho
        change ∃ hs, (OrderedMap.get? (OrderedMap.update entries n _) m).bind (find? · ms)
          = some (.folder hs)
        by_cases hm : n = m
        · subst hm
          rw [OrderedMap.get?_update_self]
          cases hn : OrderedMap.get? entries n with
          | none => rw [hn] at ho; cases ho
          | some inner =>
            rw [hn] at h ho
            exact ih h ho
        · rw [OrderedMap.get?_update_of_ne hm]
          exact ⟨gs, ho⟩

theorem find?_append (node : Node) (location more : List String) :
    node.find? (location ++ more) = (node.find? location).bind (find? · more) := by
  induction location generalizing node with
  | nil => rfl
  | cons n ns ih =>
    cases node with
    | file contents modified => rfl
    | folder entries =>
      change (OrderedMap.get? entries n).bind (find? · (ns ++ more))
        = ((OrderedMap.get? entries n).bind (find? · ns)).bind (find? · more)
      rw [Option.bind_assoc]
      exact congrArg _ (funext ih)

theorem eq_of_find?_put {found : Node} (h : (node.put location new).find? location = some found) :
    found = new := by
  induction location generalizing node with
  | nil => exact (Option.some.inj h).symm
  | cons n ns ih =>
    cases node with
    | file contents modified => cases h
    | folder entries =>
      change (OrderedMap.get? (OrderedMap.update entries n _) n).bind (find? · ns) = some found at h
      rw [OrderedMap.get?_update_self] at h
      exact ih h

/-- Where there is no folder there is no file below. -/
theorem file?_find?_append (h : ∀ es, node.find? location ≠ some (.folder es)) {more : List String}
    (hmore : more ≠ []) : (node.find? (location ++ more)).bind file? = none := by
  rw [find?_append]
  cases hnode : node.find? location with
  | none => rfl
  | some found =>
    cases found with
    | folder es => exact absurd hnode (h es)
    | file contents modified =>
      cases more with
      | nil => exact absurd rfl hmore
      | cons m ms => rfl

/-- A file that is put where there is no folder changes no other one. -/
theorem file?_find?_put_file {contents : Contents} {time : Int}
    (h : ∀ es, node.find? location ≠ some (.folder es)) (ho : other ≠ location) :
    ((node.put location (.file contents time)).find? other).bind file?
      = (node.find? other).bind file? := by
  by_cases hbelow : location <+: other
  · obtain ⟨more, rfl⟩ := hbelow
    have hmore : more ≠ [] := by
      rintro rfl
      exact ho (List.append_nil location)
    have hfile : ∀ es, (node.put location (.file contents time)).find? location
        ≠ some (.folder es) := fun es hes => by cases eq_of_find?_put hes
    rw [file?_find?_append h hmore, file?_find?_append hfile hmore]
  · exact file?_find?_put hbelow

/-- What is put into a folder is found there. -/
theorem find?_put_child {es : Folder} (h : node.find? location = some (.folder es)) (n : String)
    (new : Node) : (node.put (location ++ [n]) new).find? (location ++ [n]) = some new := by
  induction location generalizing node with
  | nil =>
    cases Option.some.inj h
    change (OrderedMap.get? (OrderedMap.update es n _) n).bind (find? · []) = some new
    rw [OrderedMap.get?_update_self]
    rfl
  | cons m ms ih =>
    cases node with
    | file contents modified => cases h
    | folder entries =>
      obtain ⟨inner, hm, hi⟩ := Option.bind_eq_some_iff.1 h
      change (OrderedMap.get? (OrderedMap.update entries m _) m).bind (find? · (ms ++ [n]))
        = some new
      rw [OrderedMap.get?_update_self, hm]
      exact ih hi

end Node

namespace FileTree

variable {t t' t'' : FileTree} {path : String}

/-! ## Places -/

/-- The location that a step leads to, if it leads anywhere. -/
def walk (here : List String) : Component → List String
  | .root => []
  | .current => here
  | .parent => here.dropLast
  | .name n => here ++ [n]

/-- The location that a path names, whether anything stands there or not. -/
def place (t : FileTree) (path : String) : List String :=
  (Path.steps path).foldl walk (t.startOf path)

theorem place_congr (h : t'.home = t.home) (path : String) : t'.place path = t.place path := by
  unfold place startOf
  rw [h]

theorem eq_walk_of_enter {root : Node} {here there : List String} {c : Component}
    (h : enter root here c = .ok there) : there = walk here c := by
  cases c with
  | root => cases h; rfl
  | current => cases h; rfl
  | parent => cases h; rfl
  | name n =>
    unfold enter at h
    simp only at h
    split at h <;> cases h
    rfl

theorem eq_foldl_of_foldlM_enter {root : Node} {way : List Component} {here there : List String}
    (h : way.foldlM (enter root) here = .ok there) : there = way.foldl walk here := by
  induction way generalizing here with
  | nil => cases h; rfl
  | cons c way ih =>
    rw [List.foldlM_cons] at h
    obtain ⟨next, hc, h⟩ := bind_eq_ok.1 h
    rw [List.foldl_cons, ← eq_walk_of_enter hc]
    exact ih h

/-- A path that can be followed leads to its place. -/
theorem location_of_resolve {goal : Goal} (h : t.resolve path = .ok goal) :
    goal.location = t.place path := by
  unfold resolve at h
  split at h
  · cases h
  obtain ⟨here, hf, h⟩ := bind_eq_ok.1 h
  have hhere := eq_foldl_of_foldlM_enter hf
  unfold place
  cases hlast : (Path.steps path).getLast? with
  | none =>
    rw [hlast] at h
    cases h
    rw [List.getLast?_eq_none_iff] at hlast
    rw [hlast] at hhere ⊢
    exact hhere
  | some step =>
    obtain ⟨way, hway⟩ := List.getLast?_eq_some_iff.1 hlast
    rw [hway, List.dropLast_concat] at hhere
    rw [hlast] at h
    rw [hway, List.foldl_concat, ← hhere]
    -- a name is looked up only by who wants it, every other step is taken
    cases step with
    | name n => cases h; rfl
    | root => cases h; rfl
    | current => cases h; rfl
    | parent => cases h; rfl

theorem location_of_locate {location : List String} {node : Node}
    (h : t.locate path = .ok (location, node)) : location = t.place path := by
  unfold locate at h
  obtain ⟨goal, hr, h⟩ := bind_eq_ok.1 h
  rw [← location_of_resolve hr]
  cases goal with
  | folder there => cases h; rfl
  | entry above name slashed =>
    simp only at h
    split at h
    · cases h
    · cases h; rfl
    · split at h <;> cases h
      rfl

/-! ## Files -/

/-- The file at a location. -/
def fileAt? (t : FileTree) (location : List String) : Option (Contents × Int) :=
  (t.root.find? location).bind Node.file?

/-- There is a folder at the location. -/
def HasFolder (t : FileTree) (location : List String) : Prop :=
  ∃ es, t.root.find? location = some (.folder es)

/-- The second tree has the home folder of the first, its files at these locations, and all its
folders. -/
structure Spares (P : List String → Prop) (t t' : FileTree) : Prop where
  home : t'.home = t.home
  files : ∀ location, P location → t'.fileAt? location = t.fileAt? location
  folders : ∀ location, t.HasFolder location → t'.HasFolder location

section Spares

variable {P Q : List String → Prop}

theorem Spares.refl (P : List String → Prop) (t : FileTree) : Spares P t t :=
  ⟨rfl, fun _ _ => rfl, fun _ => id⟩

theorem Spares.trans (h : Spares P t t') (h' : Spares P t' t'') : Spares P t t'' where
  home := h'.home.trans h.home
  files location hl := (h'.files location hl).trans (h.files location hl)
  folders location := h'.folders location ∘ h.folders location

theorem Spares.mono (h : Spares P t t') (hPQ : ∀ location, Q location → P location) :
    Spares Q t t' :=
  ⟨h.home, fun location hl => h.files location (hPQ location hl), h.folders⟩

end Spares

/-- Making a folder changes no file. -/
theorem spares_makeFolder (P : List String → Prop) (h : t.makeFolder path = .ok t') :
    Spares P t t' := by
  unfold makeFolder at h
  obtain ⟨goal, hr, h⟩ := bind_eq_ok.1 h
  cases goal with
  | folder location => cases h
  | entry above name slashed =>
    simp only at h
    split at h
    · cases h
    · rename_i hnone
      cases h
      refine ⟨rfl, fun location _ => Node.file?_find?_put_empty hnone location, ?_⟩
      rintro location ⟨es, hes⟩
      exact Node.find?_put_of_not_folder (by rw [hnone]; nofun) hes

theorem spares_makeEach (P : List String → Prop) (t : FileTree) (paths : List String) :
    Spares P t (t.makeEach paths).1 := by
  induction paths generalizing t with
  | nil => exact .refl P t
  | cons path above ih =>
    unfold makeEach
    cases hfirst : t.makeFolder path with
    | ok made => exact spares_makeFolder P hfirst
    | error cause =>
      cases cause
      case notFound =>
        have habove := ih t
        cases hmade : t.makeEach above with
        | mk t₁ result =>
          rw [hmade] at habove
          cases result with
          | error cause => exact habove
          | ok u =>
            simp only
            cases hsecond : t₁.makeFolder path with
            | ok made => exact habove.trans (spares_makeFolder P hsecond)
            | error cause => exact habove
      all_goals exact .refl P t

/-- Making folders changes no file, even if not all of them can be made. -/
theorem spares_makeFolders (P : List String → Prop) (t : FileTree) (path : String) :
    Spares P t (t.makeFolders path).1 := spares_makeEach P t _

/-- A folder with other entries, the folders among them kept, changes only files in it. -/
theorem spares_withFolder {location : List String} {es fs : Folder}
    (h : t.root.find? location = some (.folder es)) (hk : Folder.KeepsFolders es fs) :
    Spares (fun other => ¬location <+: other) t (t.withFolder location fs) where
  home := rfl
  files _ hother := Node.file?_find?_put hother
  folders _ := fun ⟨_, hgs⟩ => Node.find?_put_of_folder h hk hgs

/-- A folder put at a path that ends in a name, with the folders kept that it would have if it were
made, changes only files at or below the place of the path. -/
theorem spares_setSite_folder {dir name : String} (hn : Path.IsName name) {es fs : Folder}
    (h : (t.site (Path.join dir name)).make.2 = .ok es) (hk : Folder.KeepsFolders es fs) :
    Spares (fun other => ¬t.place (Path.join dir name) <+: other) t
      (t.setSite (Path.join dir name) (.folder fs)) := by
  obtain ⟨location, hl, hset⟩ := setSite_of_make (Path.join_ne_empty hn dir) h
  have hmade := spares_makeFolders (fun other => ¬t.place (Path.join dir name) <+: other) t
    (Path.join dir name)
  have hplace : location = t.place (Path.join dir name) :=
    (location_of_locate hl).trans (place_congr hmade.home _)
  subst hplace
  rw [hset]
  exact hmade.trans (spares_withFolder (locate_join hn hl es).1 hk)

/-- Putting back what is there changes nothing, if the path ends in a name. -/
theorem setSite_site {dir name : String} (hn : Path.IsName name) (t : FileTree) :
    t.setSite (Path.join dir name) (t.site (Path.join dir name)) = t := by
  have hp := Path.join_ne_empty hn dir
  unfold site
  rw [if_neg hp]
  cases hl : t.locate (Path.join dir name) with
  | error cause => rfl
  | ok found =>
    obtain ⟨location, node⟩ := found
    cases node with
    | file contents modified => rfl
    | folder es =>
      change t.putFolder (Path.join dir name) es = t
      unfold putFolder
      simp only [makeFolders_of_folder hp hl, hl]
      rw [Node.put_of_find? (locate_join hn hl es).1]

/-! ## Writing -/

theorem eq_of_writeText {text : String} {now : Int} (h : t.writeText path text now = .ok t') :
    ∃ above name, t.resolve path = .ok (.entry above name false)
      ∧ (∀ es, t.root.find? (above ++ [name]) ≠ some (.folder es))
      ∧ t' = { t with root := t.root.put (above ++ [name]) (.file (.text text) now) } := by
  unfold writeText at h
  obtain ⟨goal, hr, h⟩ := bind_eq_ok.1 h
  cases goal with
  | folder location => cases h
  | entry above name slashed =>
    cases slashed with
    | true => cases h
    | false =>
      simp only at h
      split at h
      · cases h
      · rename_i hfree
        cases h
        exact ⟨above, name, hr, fun es hes => hfree es hes, rfl⟩

/-- Writing a file changes no other one. -/
theorem spares_writeText {text : String} {now : Int} (h : t.writeText path text now = .ok t') :
    Spares (· ≠ t.place path) t t' := by
  obtain ⟨above, name, hr, hfree, rfl⟩ := eq_of_writeText h
  have hplace : above ++ [name] = t.place path := location_of_resolve hr
  refine ⟨rfl, fun other hother => ?_, ?_⟩
  · exact Node.file?_find?_put_file hfree (hplace ▸ hother)
  · rintro location ⟨es, hes⟩
    exact Node.find?_put_of_not_folder hfree hes

theorem HasFolder.of_append {location more : List String} (h : t.HasFolder (location ++ more)) :
    t.HasFolder location := by
  obtain ⟨es, hes⟩ := h
  rw [Node.find?_append] at hes
  obtain ⟨node, hnode, hmore⟩ := Option.bind_eq_some_iff.1 hes
  cases node with
  | folder fs => exact ⟨fs, hnode⟩
  | file contents modified => cases more <;> cases hmore

theorem HasFolder.root {location : List String} (h : t.HasFolder location) : t.HasFolder [] := by
  rw [← List.nil_append location] at h
  exact h.of_append

/-- Every step from a folder leads to a folder. -/
theorem hasFolder_of_enter {here there : List String} {c : Component} (hhere : t.HasFolder here)
    (h : enter t.root here c = .ok there) : t.HasFolder there := by
  cases c with
  | root => cases h; exact hhere.root
  | current => cases h; exact hhere
  | parent =>
    cases h
    by_cases hempty : here = []
    · rw [hempty]
      exact hhere.root
    · rw [← List.dropLast_append_getLast hempty] at hhere
      exact hhere.of_append
  | name n =>
    unfold enter at h
    simp only at h
    split at h <;> cases h
    exact ⟨_, ‹_›⟩

/-- A way that can be taken leads to a folder, and can be taken in every tree with the same
folders. -/
theorem foldlM_enter_of_folders {way : List Component} {here there : List String}
    (hfolders : ∀ location, t.HasFolder location → t'.HasFolder location) (hhere : t.HasFolder here)
    (h : way.foldlM (enter t.root) here = .ok there) :
    t.HasFolder there ∧ way.foldlM (enter t'.root) here = .ok there := by
  induction way generalizing here with
  | nil => cases h; exact ⟨hhere, rfl⟩
  | cons c way ih =>
    rw [List.foldlM_cons] at h ⊢
    obtain ⟨next, hc, h⟩ := bind_eq_ok.1 h
    have hnext := hasFolder_of_enter hhere hc
    have hc' : enter t'.root here c = .ok next := by
      obtain ⟨es, hes⟩ := hfolders next hnext
      cases c with
      | root => exact hc
      | current => exact hc
      | parent => exact hc
      | name n =>
        cases (eq_walk_of_enter hc)
        unfold enter walk
        simp only
        change t'.root.find? (here ++ [n]) = _ at hes
        rw [hes]
    rw [hc']
    exact ih hnext h

theorem resolve_eq_entry {above : List String} {name : String} {slashed : Bool} :
    t.resolve path = .ok (.entry above name slashed) ↔
      path ≠ "" ∧ (Path.steps path).dropLast.foldlM (enter t.root) (t.startOf path) = .ok above
        ∧ (Path.steps path).getLast? = some (.name name) ∧ Path.endsInSlash path = slashed := by
  unfold resolve
  by_cases hpath : path = ""
  · rw [if_pos hpath]
    exact ⟨nofun, fun h => absurd hpath h.1⟩
  rw [if_neg hpath]
  dsimp only
  generalize (Path.steps path).dropLast.foldlM (enter t.root) (t.startOf path) = reached
  generalize (Path.steps path).getLast? = last
  cases reached with
  | error cause => exact ⟨nofun, fun h => by cases h.2.1⟩
  | ok here =>
    cases last with
    | none => exact ⟨nofun, fun h => by cases h.2.2.1⟩
    | some step =>
      cases step with
      | name n =>
        constructor
        · rintro ⟨⟩
          exact ⟨hpath, rfl, rfl, rfl⟩
        · rintro ⟨-, ⟨⟩, ⟨⟩, rfl⟩
          rfl
      | _ => exact ⟨nofun, fun h => by cases h.2.2.1⟩

/-- A path that leads to an entry leads there in every tree with the same folders. -/
theorem resolve_of_spares {P : List String → Prop} (hspares : Spares P t t')
    (hhome : t.HasFolder t.home) {above : List String} {name : String} {slashed : Bool}
    (h : t.resolve path = .ok (.entry above name slashed)) :
    t.HasFolder above ∧ t'.resolve path = .ok (.entry above name slashed) := by
  obtain ⟨hpath, hway, hlast, hslash⟩ := resolve_eq_entry.1 h
  have hstart : t.HasFolder (t.startOf path) := by
    unfold startOf
    split
    · exact hhome.root
    · exact hhome
  have hsame : t'.startOf path = t.startOf path := by
    unfold startOf
    rw [hspares.home]
  obtain ⟨habove, hway'⟩ := foldlM_enter_of_folders hspares.folders hstart hway
  exact ⟨habove, resolve_eq_entry.2 ⟨hpath, hsame.symm ▸ hway', hlast, hslash⟩⟩

/-- The path leads to an entry that is a file with this text. -/
def HasText (t : FileTree) (path text : String) : Prop :=
  ∃ above name time, t.resolve path = .ok (.entry above name false)
    ∧ t.fileAt? (above ++ [name]) = some (.text text, time)

theorem HasText.readText {text : String} (h : t.HasText path text) :
    t.readText path = .ok text := by
  obtain ⟨above, name, time, hr, hfile⟩ := h
  obtain ⟨node, hnode, hnodeFile⟩ := Option.bind_eq_some_iff.1 hfile
  cases node with
  | folder es => cases hnodeFile
  | file contents modified =>
    cases hnodeFile
    unfold FileTree.readText locate
    rw [hr]
    simp only [bind, Except.bind, hnode]
    rfl

/-- A file that is spared keeps its text. -/
theorem HasText.of_spares {P : List String → Prop} {text : String} (h : t.HasText path text)
    (hspares : Spares P t t') (hhome : t.HasFolder t.home) (hP : P (t.place path)) :
    t'.HasText path text := by
  obtain ⟨above, name, time, hr, hfile⟩ := h
  have hplace : above ++ [name] = t.place path := location_of_resolve hr
  refine ⟨above, name, time, (resolve_of_spares hspares hhome hr).2, ?_⟩
  rw [hspares.files _ (hplace ▸ hP)]
  exact hfile

/-- What has been written from a home folder is there. -/
theorem hasText_of_writeText {text : String} {now : Int} (hhome : t.HasFolder t.home)
    (h : t.writeText path text now = .ok t') : t'.HasText path text := by
  have hspares := spares_writeText h
  obtain ⟨above, name, hr, hfree, rfl⟩ := eq_of_writeText h
  obtain ⟨⟨es, habove⟩, hr'⟩ := resolve_of_spares hspares hhome hr
  refine ⟨above, name, now, hr', ?_⟩
  unfold fileAt?
  rw [Node.find?_put_child habove name]
  rfl

end FileTree
end NestedStyles.Storage
