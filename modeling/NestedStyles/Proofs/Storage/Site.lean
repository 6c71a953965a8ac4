import NestedStyles.Proofs.OrderedMap
import NestedStyles.Proofs.Result
import NestedStyles.Storage.Site
/-!
# Folders are found again

A site is cut out of a tree before every operation on a folder and put back after it, so what one
operation leaves must be what the next one sees. A path through `..` can pass the very folder that
it leads to; such a path is no longer good once the folder has lost an entry. A path that ends in a
name, and leads to an empty folder once it has been made, passes nothing inside that folder.

* `Leads t path location`: the path leads to a folder, whatever the folder's entries become;
* `Keeps t path`: it does so, or nothing stands there and the folder, if it were made, would be
  empty;
* `Keeps.setSite`, `Keeps.setSite_site`: a folder put at such a path is found there again, and
  putting back what is there changes nothing;
* `site_setSite`: at any path that ends in a name a folder is found again that has kept the folders
  in it, which the path may pass.
-/
namespace NestedStyles.Storage

/-! ## Paths that end in a name -/

namespace Path

/-- A single component of a path. -/
def IsName (name : String) : Prop := name ∉ ["", ".", ".."] ∧ '/' ∉ name.toList

instance (name : String) : Decidable (IsName name) := inferInstanceAs (Decidable (_ ∧ _))

theorem segmentsOf_ne_nil (cs : List Char) : segmentsOf cs ≠ [] := by
  fun_cases segmentsOf cs <;> simp

theorem segmentsOf_slash (cs : List Char) : segmentsOf ('/' :: cs) = [] :: segmentsOf cs := by
  rw [segmentsOf]

theorem segmentsOf_cons {c : Char} (hc : c ≠ '/') {cs s : List Char} {more : List (List Char)}
    (h : segmentsOf cs = s :: more) : segmentsOf (c :: cs) = (c :: s) :: more := by
  rw [segmentsOf, h]
  exact hc

theorem segmentsOf_of_not_mem {cs : List Char} (h : '/' ∉ cs) : segmentsOf cs = [cs] := by
  induction cs with
  | nil => rfl
  | cons c cs ih =>
    rw [List.mem_cons, not_or] at h
    exact segmentsOf_cons (fun e => h.1 e.symm) (ih h.2)

theorem segmentsOf_append_slash (cs ds : List Char) :
    segmentsOf (cs ++ '/' :: ds) = segmentsOf cs ++ segmentsOf ds := by
  induction cs with
  | nil => rw [List.nil_append, segmentsOf_slash]; rfl
  | cons c cs ih =>
    by_cases hc : c = '/'
    · subst hc
      rw [List.cons_append, segmentsOf_slash, segmentsOf_slash, ih, List.cons_append]
    · cases hs : segmentsOf cs with
      | nil => exact absurd hs (segmentsOf_ne_nil cs)
      | cons s more =>
        rw [hs, List.cons_append] at ih
        rw [List.cons_append, segmentsOf_cons hc ih, segmentsOf_cons hc hs, List.cons_append]

/-- A name joined to a path stands after its last slash. -/
theorem toList_join {name : String} (h : '/' ∉ name.toList) (dir : String) :
    (join dir name).toList = name.toList
      ∨ ∃ cs, (join dir name).toList = cs ++ '/' :: name.toList := by
  have habs : isAbsolute name = false := by
    cases hc : name.toList with
    | nil => simp [isAbsolute, hc]
    | cons c cs =>
      rw [hc, List.mem_cons, not_or] at h
      simpa [isAbsolute, hc] using fun e => h.1 e.symm
  unfold join
  rw [habs, if_neg Bool.false_ne_true]
  by_cases hdir : dir = ""
  · subst hdir
    exact Or.inl (by simp)
  by_cases hslash : dir.toList.getLast? = some '/'
  · obtain ⟨cs, hcs⟩ := List.getLast?_eq_some_iff.1 hslash
    exact Or.inr ⟨cs, by simp [hcs]⟩
  · exact Or.inr ⟨dir.toList, by simp [hdir, hslash]⟩

theorem segments_join {name : String} (h : '/' ∉ name.toList) (dir : String) :
    ∃ parts, segments (join dir name) = parts ++ [name] := by
  rcases toList_join h dir with hj | ⟨cs, hj⟩
  · exact ⟨[], by rw [segments, hj, segmentsOf_of_not_mem h]; simp⟩
  · exact ⟨(segmentsOf cs).map String.ofList, by
      rw [segments, hj, segmentsOf_append_slash, segmentsOf_of_not_mem h]; simp⟩

theorem join_ne_empty {name : String} (h : IsName name) (dir : String) : join dir name ≠ "" := by
  intro he
  have hne : name.toList ≠ [] := fun h' => h.1 (by simp [String.toList_eq_nil_iff.1 h'])
  rcases toList_join h.2 dir with hj | ⟨cs, hj⟩
  · rw [he] at hj
    exact hne hj.symm
  · rw [he] at hj
    exact absurd hj (by simp)

/-- The way of such a path ends with a step to the name. -/
theorem steps_join {name : String} (h : IsName name) (dir : String) :
    ∃ way, steps (join dir name) = way ++ [.name name] := by
  obtain ⟨parts, hparts⟩ := segments_join h.2 dir
  have hname := h.1
  rw [List.mem_cons, List.mem_cons, List.mem_singleton, not_or, not_or] at hname
  obtain ⟨hempty, hdot, hdots⟩ := hname
  refine ⟨(parts.filter (· ≠ "")).map step, ?_⟩
  rw [steps, hparts]
  simp [hempty, step, hdot, hdots]

end Path

/-! ## Nodes -/

/-- The folders among the entries `es` are among `fs` as well. -/
def Folder.KeepsFolders (es fs : Folder) : Prop :=
  ∀ name inner, OrderedMap.get? es name = some (.folder inner) →
    OrderedMap.get? fs name = some (.folder inner)

namespace Node

theorem find?_put_self {node old : Node} {location : List String}
    (h : node.find? location = some old) (new : Node) :
    (node.put location new).find? location = some new := by
  induction location generalizing node with
  | nil => rfl
  | cons n ns ih =>
    cases node with
    | file contents modified => cases h
    | folder entries =>
      change (OrderedMap.get? entries n).bind (find? · ns) = some old at h
      obtain ⟨inner, hn, hi⟩ := Option.bind_eq_some_iff.1 h
      change (OrderedMap.get? (OrderedMap.update entries n _) n).bind (find? · ns) = some new
      rw [OrderedMap.get?_update_self, hn]
      exact ih hi

/-- Of two nodes put at a location the second one stays. -/
theorem put_put (node : Node) (location : List String) (a b : Node) :
    (node.put location a).put location b = node.put location b := by
  induction location generalizing node with
  | nil => rfl
  | cons n ns ih =>
    cases node with
    | file contents modified => rfl
    | folder entries =>
      change Node.folder (OrderedMap.update (OrderedMap.update entries n _) n _) = .folder _
      rw [OrderedMap.update_update]
      simp only [Option.getD_some, ih]

/-- Putting back what is there changes nothing. -/
theorem put_of_find? {node old : Node} {location : List String}
    (h : node.find? location = some old) :
    node.put location old = node := by
  induction location generalizing node with
  | nil => exact (Option.some.inj h).symm
  | cons n ns ih =>
    cases node with
    | file contents modified => rfl
    | folder entries =>
      change (OrderedMap.get? entries n).bind (find? · ns) = some old at h
      obtain ⟨inner, hn, hi⟩ := Option.bind_eq_some_iff.1 h
      change Node.folder (OrderedMap.update entries n _) = .folder entries
      rw [OrderedMap.update_eq_self hn (ih hi)]

/-- The folders in a folder are found if its other entries change. -/
theorem find?_put_of_folder {node : Node} {location : List String} {es fs : Folder}
    (h : node.find? location = some (.folder es)) (hk : Folder.KeepsFolders es fs)
    {other : List String} {gs : Folder} (ho : node.find? other = some (.folder gs)) :
    ∃ hs, (node.put location (.folder fs)).find? other = some (.folder hs) := by
  induction location generalizing node other with
  | nil =>
    cases Option.some.inj h
    cases other with
    | nil => exact ⟨fs, rfl⟩
    | cons n ns =>
      obtain ⟨inner, hn, hi⟩ := Option.bind_eq_some_iff.1 ho
      cases inner with
      | folder inner => exact ⟨gs, Option.bind_eq_some_iff.2 ⟨_, hk n inner hn, hi⟩⟩
      | file contents modified => cases ns <;> cases hi
  | cons n ns ih =>
    cases node with
    | file contents modified => cases h
    | folder entries =>
      obtain ⟨inner, hn, hi⟩ := Option.bind_eq_some_iff.1 h
      cases other with
      | nil => exact ⟨_, rfl⟩
      | cons m ms =>
        change (OrderedMap.get? entries m).bind (find? · ms) = some (.folder gs) at ho
        change ∃ hs, (OrderedMap.get? (OrderedMap.update entries n _) m).bind (find? · ms)
          = some (.folder hs)
        by_cases hm : n = m
        · subst hm
          rw [hn] at ho
          rw [OrderedMap.get?_update_self, hn]
          exact ih hi ho
        · rw [OrderedMap.get?_update_of_ne hm]
          exact ⟨gs, ho⟩

end Node

/-! ## Trees -/

namespace FileTree

variable {t : FileTree} {path : String} {location : List String}

/-- The tree with a folder at a location. -/
def withFolder (t : FileTree) (location : List String) (es : Folder) : FileTree :=
  { t with root := t.root.put location (.folder es) }

/-- The path leads to the folder at the location, whatever its entries become. -/
structure Leads (t : FileTree) (path : String) (location : List String) : Prop where
  path_ne : path ≠ ""
  there : ∃ es, t.root.find? location = some (.folder es)
  locate : ∀ es, (t.withFolder location es).locate path = .ok (location, .folder es)

theorem withFolder_withFolder (t : FileTree) (location : List String) (es fs : Folder) :
    (t.withFolder location es).withFolder location fs = t.withFolder location fs := by
  unfold withFolder
  rw [Node.put_put]

theorem Leads.withFolder (h : Leads t path location) (es : Folder) :
    Leads (t.withFolder location es) path location where
  path_ne := h.path_ne
  there := by
    obtain ⟨old, hold⟩ := h.there
    exact ⟨es, Node.find?_put_self hold _⟩
  locate := by
    intro fs
    rw [withFolder_withFolder]
    exact h.locate fs

theorem Leads.locate_self (h : Leads t path location) : ∃ es,
    t.locate path = .ok (location, .folder es) ∧ t.withFolder location es = t := by
  obtain ⟨es, hes⟩ := h.there
  have hself : t.withFolder location es = t := by
    unfold FileTree.withFolder
    rw [Node.put_of_find? hes]
  refine ⟨es, ?_, hself⟩
  have := h.locate es
  rwa [hself] at this

theorem Leads.site_withFolder (h : Leads t path location) (es : Folder) :
    (t.withFolder location es).site path = .folder es := by
  unfold site
  rw [if_neg h.path_ne, h.locate es]

theorem makeFolder_of_folder {es : Folder} (h : t.locate path = .ok (location, .folder es)) :
    t.makeFolder path = .error .alreadyExists := by
  unfold locate at h
  unfold makeFolder
  cases hr : t.resolve path with
  | error cause => rw [hr] at h; cases h
  | ok goal =>
    rw [hr] at h
    cases goal with
    | folder location => rfl
    | entry above name slashed =>
      simp only [bind, Except.bind] at h ⊢
      cases hf : t.root.find? (above ++ [name]) with
      | none => rw [hf] at h; cases h
      | some node => rfl

/-- Nothing is made where there is a folder. -/
theorem makeFolders_of_folder {es : Folder} (hp : path ≠ "")
    (h : t.locate path = .ok (location, .folder es)) : t.makeFolders path = (t, .ok ()) := by
  have hfolder : t.isFolder path = true := by rw [isFolder, h]
  unfold makeFolders Path.ancestors
  rw [Path.ancestorsUpTo, if_neg hp, makeEach, makeFolder_of_folder h]
  simp only [hfolder, if_true]

theorem Leads.setSite (h : Leads t path location) (es : Folder) :
    t.setSite path (.folder es) = t.withFolder location es := by
  obtain ⟨old, hold, -⟩ := h.locate_self
  unfold FileTree.setSite putFolder
  simp only [makeFolders_of_folder h.path_ne hold, hold]
  rfl

/-! ## The way to a folder -/

section Enter

variable {root : Node} {es fs : Folder}

/-- A step from folder to folder is still good when the entries of one of them have changed. -/
theorem enter_put (h : root.find? location = some (.folder es)) (hk : Folder.KeepsFolders es fs)
    {here there : List String} {c : Component} (hc : enter root here c = .ok there) :
    enter (root.put location (.folder fs)) here c = .ok there := by
  cases c with
  | root => exact hc
  | current => exact hc
  | parent => exact hc
  | name n =>
    unfold enter at hc ⊢
    simp only at hc ⊢
    cases hf : root.find? (here ++ [n]) with
    | none => rw [hf] at hc; cases hc
    | some node =>
      rw [hf] at hc
      cases node with
      | file contents modified => cases hc
      | folder gs =>
        obtain ⟨hs, hhs⟩ := Node.find?_put_of_folder h hk hf
        rw [hhs]
        exact hc

theorem foldlM_enter_put (h : root.find? location = some (.folder es))
    (hk : Folder.KeepsFolders es fs) {way : List Component} {here there : List String}
    (hw : way.foldlM (enter root) here = .ok there) :
    way.foldlM (enter (root.put location (.folder fs))) here = .ok there := by
  induction way generalizing here with
  | nil => exact hw
  | cons c way ih =>
    rw [List.foldlM_cons] at hw ⊢
    obtain ⟨next, hc, hw⟩ := bind_eq_ok.1 hw
    rw [enter_put h hk hc]
    exact ih hw

end Enter

theorem resolve_join {name : String} (hn : Path.IsName name) (dir : String) :
    ∃ way : List Component, ∀ t : FileTree,
      t.resolve (Path.join dir name)
        = (way.foldlM (enter t.root) (t.startOf (Path.join dir name))).bind
          fun here => .ok (.entry here name (Path.endsInSlash (Path.join dir name))) := by
  obtain ⟨way, hway⟩ := Path.steps_join hn dir
  refine ⟨way, fun t => ?_⟩
  unfold resolve
  rw [if_neg (Path.join_ne_empty hn dir), hway]
  simp only [List.dropLast_concat, List.getLast?_concat]
  rfl

section Join

variable {dir name : String} {es fs : Folder}

/-- What a path that ends in a name leads to is found at its location. -/
theorem locate_join (hn : Path.IsName name)
    (h : t.locate (Path.join dir name) = .ok (location, .folder es)) (fs : Folder) :
    t.root.find? location = some (.folder es)
      ∧ (Folder.KeepsFolders es fs →
        (t.withFolder location fs).locate (Path.join dir name) = .ok (location, .folder fs)) := by
  obtain ⟨way, hresolve⟩ := resolve_join hn dir
  unfold locate at h ⊢
  rw [hresolve] at h ⊢
  obtain ⟨goal, hgoal, h⟩ := bind_eq_ok.1 h
  obtain ⟨here, hf, hgoal⟩ := bind_eq_ok.1 hgoal
  cases hgoal
  obtain ⟨rfl, hthere⟩ : location = here ++ [name]
      ∧ t.root.find? (here ++ [name]) = some (.folder es) := by
    simp only at h
    cases hnode : t.root.find? (here ++ [name]) with
    | none => rw [hnode] at h; cases h
    | some node =>
      rw [hnode] at h
      cases node with
      | folder gs => cases h; exact ⟨rfl, rfl⟩
      | file contents modified =>
        simp only at h
        split at h <;> cases h
  refine ⟨hthere, fun hk => ?_⟩
  have hw : way.foldlM (enter (t.withFolder (here ++ [name]) fs).root)
      ((t.withFolder (here ++ [name]) fs).startOf (Path.join dir name)) = .ok here :=
    foldlM_enter_put hthere hk hf
  have hfind : (t.withFolder (here ++ [name]) fs).root.find? (here ++ [name])
      = some (.folder fs) :=
    Node.find?_put_self hthere _
  rw [hw]
  simp only [Except.bind, bind, hfind]
  rfl

/-- A path that ends in a name and leads to an empty folder passes nothing inside it. -/
theorem leads_of_empty (hn : Path.IsName name)
    (h : t.locate (Path.join dir name) = .ok (location, .folder [])) :
    Leads t (Path.join dir name) location :=
  ⟨Path.join_ne_empty hn dir, ⟨[], (locate_join hn h []).1⟩, fun _ =>
    (locate_join hn h _).2 fun _ _ hget => by cases hget⟩

end Join

/-! ## Sites that are kept -/

/-- Nothing stands at the path, and a folder made there would be empty. -/
def Free (t : FileTree) (path : String) : Prop := t.site path = .absent .notFound (.ok []) false

/-- Nothing stands at the path, or a folder to which it leads. -/
def Keeps (t : FileTree) (path : String) : Prop := Free t path ∨ ∃ location, Leads t path location

theorem folderIfMade_of_site {cause : Cause} {made : Except Cause Folder} {tried : Bool}
    (h : t.site path = .absent cause made tried) : t.folderIfMade path = made := by
  unfold site at h
  split at h
  · cases h
  · split at h
    · cases h
    · cases h
    · injection h

/-- What is put where a folder can be made stands in the tree in which it has been made. -/
theorem setSite_of_folderIfMade {es : Folder} (h : t.folderIfMade path = .ok es) :
    ∃ location, (t.makeFolders path).1.locate path = .ok (location, .folder es)
      ∧ ∀ fs, t.setSite path (.folder fs) = (t.makeFolders path).1.withFolder location fs := by
  unfold folderIfMade at h
  cases hm : t.makeFolders path with
  | mk made result =>
    rw [hm] at h
    cases result with
    | error cause => cases h
    | ok u =>
      simp only at h
      cases hl : made.locate path with
      | error cause => rw [hl] at h; cases h
      | ok found =>
        obtain ⟨location, node⟩ := found
        rw [hl] at h
        cases node with
        | file contents modified => cases h
        | folder fs =>
          cases h
          refine ⟨location, rfl, fun es => ?_⟩
          unfold FileTree.setSite putFolder
          simp only [hm, hl]
          rfl

theorem Free.setSite {dir name : String} (hn : Path.IsName name) (h : Free t (Path.join dir name)) :
    ∃ (made : FileTree) (location : List String), Leads made (Path.join dir name) location
      ∧ ∀ es, t.setSite (Path.join dir name) (.folder es) = made.withFolder location es := by
  obtain ⟨location, hl, hset⟩ := setSite_of_folderIfMade (folderIfMade_of_site h)
  exact ⟨_, location, leads_of_empty hn hl, hset⟩

/-- A folder is put where there is one, or where one has been made. -/
theorem setSite_of_make {es : Folder} (hp : path ≠ "") (h : (t.site path).make.2 = .ok es) :
    ∃ location, (t.makeFolders path).1.locate path = .ok (location, .folder es)
      ∧ ∀ fs, t.setSite path (.folder fs) = (t.makeFolders path).1.withFolder location fs := by
  cases hsite : t.site path with
  | folder gs =>
    rw [hsite] at h
    cases h
    unfold site at hsite
    rw [if_neg hp] at hsite
    split at hsite
    · next location gs hl =>
      cases hsite
      rw [makeFolders_of_folder hp hl]
      refine ⟨location, hl, fun fs => ?_⟩
      unfold FileTree.setSite putFolder
      simp only [makeFolders_of_folder hp hl, hl]
      rfl
    · cases hsite
    · cases hsite
  | home gs =>
    unfold site at hsite
    rw [if_neg hp] at hsite
    split at hsite <;> cases hsite
  | occupied => rw [hsite] at h; cases h
  | absent cause outcome tried =>
    rw [hsite] at h
    cases outcome with
    | error why => cases h
    | ok gs =>
      cases h
      exact setSite_of_folderIfMade (folderIfMade_of_site hsite)

/-- A folder put where there is one, or where one can be made, is found there again if it has all
the folders in it. -/
theorem site_setSite {dir name : String} (hn : Path.IsName name) {es fs : Folder}
    (h : (t.site (Path.join dir name)).make.2 = .ok es) (hk : Folder.KeepsFolders es fs) :
    (t.setSite (Path.join dir name) (.folder fs)).site (Path.join dir name) = .folder fs := by
  have hpath : Path.join dir name ≠ "" := Path.join_ne_empty hn dir
  obtain ⟨location, hl, hset⟩ := setSite_of_make hpath h
  rw [hset]
  unfold site
  rw [if_neg hpath, (locate_join hn hl _).2 hk]

theorem site_ne_home (hp : path ≠ "") (es : Folder) : t.site path ≠ .home es := by
  unfold site
  rw [if_neg hp]
  split <;> nofun

/-- Putting back what is there leaves it there. -/
theorem site_setSite_site {dir name : String} (hn : Path.IsName name) :
    (t.setSite (Path.join dir name) (t.site (Path.join dir name))).site (Path.join dir name)
      = t.site (Path.join dir name) := by
  cases hsite : t.site (Path.join dir name) with
  | folder es => exact site_setSite hn (by rw [hsite]; rfl) fun _ _ => id
  | home es => exact absurd hsite (site_ne_home (Path.join_ne_empty hn dir) es)
  | occupied => exact hsite
  | absent cause made tried =>
    obtain rfl : tried = false := by
      unfold site at hsite
      rw [if_neg (Path.join_ne_empty hn dir)] at hsite
      split at hsite <;> cases hsite
      rfl
    exact hsite

/-- A folder put at the path is found there again, as is every later one. -/
theorem Keeps.setSite {dir name : String} (hn : Path.IsName name) (h : Keeps t (Path.join dir name))
    (es : Folder) : Keeps (t.setSite (Path.join dir name) (.folder es)) (Path.join dir name)
      ∧ (t.setSite (Path.join dir name) (.folder es)).site (Path.join dir name) = .folder es := by
  obtain ⟨made, location, hleads, hset⟩ : ∃ (made : FileTree) (location : List String),
      Leads made (Path.join dir name) location
        ∧ ∀ es, t.setSite (Path.join dir name) (.folder es) = made.withFolder location es := by
    rcases h with h | ⟨location, h⟩
    · exact h.setSite hn
    · exact ⟨t, location, h, h.setSite⟩
  rw [hset]
  exact ⟨Or.inr ⟨location, hleads.withFolder es⟩, hleads.site_withFolder es⟩

/-- Putting back what is there changes nothing. -/
theorem Keeps.setSite_site (h : Keeps t path) : t.setSite path (t.site path) = t := by
  rcases h with h | ⟨location, h⟩
  · rw [h]
    rfl
  · obtain ⟨es, hes, hself⟩ := h.locate_self
    have hsite : t.site path = .folder es := by
      unfold site
      rw [if_neg h.path_ne, hes]
    rw [hsite, h.setSite, hself]

/-- The folder is there or can be made. -/
theorem Keeps.exists_make (h : Keeps t path) : ∃ es, (t.site path).make.2 = .ok es := by
  rcases h with h | ⟨location, h⟩
  · rw [h]
    exact ⟨[], rfl⟩
  · obtain ⟨es, hes, hself⟩ := h.locate_self
    refine ⟨es, ?_⟩
    unfold site
    rw [if_neg h.path_ne, hes]
    rfl

end FileTree
end NestedStyles.Storage
