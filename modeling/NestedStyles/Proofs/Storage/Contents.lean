import NestedStyles.Proofs.Cache.Lock
import NestedStyles.Proofs.Storage.Place
/-!
# The files in a folder

Whatever a path is like, the files in the folder that it names are those below its place. A handle
sees no others, and what it leaves is put there, or nowhere at all; so what holds of every file that
is there and of every file that a handle leaves goes on to hold, also when files are removed.

* `fileIn?` are the files in the folder that a path names, whether the path leads there or not;
* `Within`: all the files of one folder are files of another;
* `within_site`: the files that are found at a path; `within_setSite`: those that are there when a
  site has been put back; `within_removeFile`: those that are left when one has been removed.
-/
namespace NestedStyles.Storage

/-- The file called `name` among the entries of a folder. -/
def Folder.file? (es : Folder) (name : String) : Option (Contents × Int) :=
  (OrderedMap.get? es name).bind Node.file?

theorem Folder.file?_eq_some {es : Folder} {name : String} {contents : Contents} {time : Int} :
    es.file? name = some (contents, time)
      ↔ OrderedMap.get? es name = some (.file contents time) := by
  unfold Folder.file?
  cases OrderedMap.get? es name with
  | none => simp
  | some node => cases node <;> simp [Node.file?]

theorem Node.find?_name (es : Folder) (name : String) :
    (Node.folder es).find? [name] = OrderedMap.get? es name := by
  change (OrderedMap.get? es name).bind (find? · []) = _
  cases OrderedMap.get? es name with
  | none => rfl
  | some node => cases node <;> rfl

/-- All the files of the first folder are files of the second. -/
def Within (files files' : String → Option (Contents × Int)) : Prop :=
  ∀ name file, files name = some file → files' name = some file

theorem Within.refl (files : String → Option (Contents × Int)) : Within files files :=
  fun _ _ => id

namespace FileTree

variable {t t' : FileTree} {path : String} {es : Folder}

/-- The file called `name` in the folder that a path names. -/
def fileIn? (t : FileTree) (path name : String) : Option (Contents × Int) :=
  t.fileAt? (t.place path ++ [name])

theorem fileIn?_of_find? (h : t.root.find? (t.place path) = some (.folder es)) :
    t.fileIn? path = es.file? := by
  funext name
  unfold fileIn? fileAt?
  rw [Node.find?_append, h, Option.bind_some, Node.find?_name]
  rfl

/-- Where there is no folder there are no files in it. -/
theorem fileIn?_of_not_hasFolder (h : ¬t.HasFolder (t.place path)) (name : String) :
    t.fileIn? path name = none :=
  Node.file?_find?_append (fun es hes => h ⟨es, hes⟩) (List.cons_ne_nil _ _)

/-- Making folders changes no files in a folder. -/
theorem fileIn?_makeFolders (t : FileTree) (path other : String) :
    (t.makeFolders other).1.fileIn? path = t.fileIn? path := by
  have hmade := spares_makeFolders (fun _ => True) t other
  funext name
  unfold fileIn?
  rw [place_congr hmade.home]
  exact hmade.files _ trivial

/-- The folder that a path leads to is there, but perhaps for the one that it starts from. -/
theorem find?_of_locate {location : List String} (h : t.locate path = .ok (location, .folder es))
    (hes : es ≠ []) : t.root.find? location = some (.folder es) := by
  unfold locate at h
  obtain ⟨goal, -, h⟩ := bind_eq_ok.1 h
  cases goal with
  | folder there =>
    change Except.ok (there, (t.root.find? there).getD (.folder [])) = _ at h
    cases hfind : t.root.find? there with
    | none =>
      rw [hfind] at h
      cases h
      exact absurd rfl hes
    | some node =>
      rw [hfind] at h
      cases h
      exact hfind
  | entry above name slashed =>
    simp only at h
    split at h
    · cases h
    · next hfind =>
      cases h
      exact hfind
    · split at h <;> cases h

theorem fileIn?_of_locate {location : List String} (h : t.locate path = .ok (location, .folder es))
    (hes : es ≠ []) : t.fileIn? path = es.file? := by
  refine fileIn?_of_find? ?_
  rw [← location_of_locate h]
  exact find?_of_locate h hes

theorem find?_home (hes : t.homeEntries ≠ []) :
    t.root.find? t.home = some (.folder t.homeEntries) := by
  unfold homeEntries at hes ⊢
  cases hfind : t.root.find? t.home with
  | none =>
    rw [hfind] at hes
    exact absurd rfl hes
  | some node =>
    cases node with
    | folder entries => rfl
    | file contents modified =>
      rw [hfind] at hes
      exact absurd rfl hes

/-- What is found at a path is in the folder that it names. -/
theorem within_site (t : FileTree) (path : String) :
    Within (t.site path).contents.file? (t.fileIn? path) := by
  rintro name ⟨contents, time⟩ hfile
  have hget := Folder.file?_eq_some.1 hfile
  have hes : (t.site path).contents ≠ [] := by
    intro hnil
    rw [hnil] at hget
    cases hget
  by_cases hp : path = ""
  · subst hp
    have hhome : t.root.find? (t.place "") = some (.folder t.homeEntries) := find?_home hes
    rw [fileIn?_of_find? hhome]
    exact hfile
  · obtain ⟨location, hl, -⟩ := setSite_of_make hp (Site.make_of_contents hget)
    rw [← fileIn?_makeFolders t path path, fileIn?_of_locate hl hes]
    exact hfile

/-- What is put at a location is there, or nothing is. -/
theorem fileAt?_put {node : Node} {location : List String} {name : String}
    {file : Contents × Int}
    (h : ((node.put location (.folder es)).find? (location ++ [name])).bind Node.file?
      = some file) : es.file? name = some file := by
  rw [Node.find?_append] at h
  cases hfind : (node.put location (.folder es)).find? location with
  | none =>
    rw [hfind] at h
    cases h
  | some found =>
    rwa [hfind, Node.eq_of_find?_put hfind, Option.bind_some, Node.find?_name] at h

/-- When a site has been put back at its path, the files that are there are those of before or those
of the site. -/
theorem within_setSite {s : Site} (hs : ∀ es, s = .home es → path = "") :
    Within ((t.setSite path s).fileIn? path) (t.fileIn? path)
      ∨ Within ((t.setSite path s).fileIn? path) s.contents.file? := by
  cases s with
  | folder es =>
    change Within ((t.putFolder path es).fileIn? path) _ ∨ Within ((t.putFolder path es).fileIn? path) _
    rw [← fileIn?_makeFolders t path path]
    unfold putFolder
    generalize (t.makeFolders path).1 = made
    dsimp only
    cases hl : made.locate path with
    | error cause => exact Or.inl (.refl _)
    | ok found =>
      obtain ⟨location, node⟩ := found
      refine Or.inr fun name file hfile => ?_
      rw [location_of_locate hl] at hfile
      exact fileAt?_put hfile
  | home es =>
    obtain rfl := hs es rfl
    exact Or.inr fun name file hfile => fileAt?_put hfile
  | occupied => exact Or.inl (.refl _)
  | absent cause made tried =>
    cases tried with
    | false => exact Or.inl (.refl _)
    | true =>
      refine Or.inl ?_
      change Within ((t.makeFolders path).1.fileIn? path) _
      rw [fileIn?_makeFolders]
      exact .refl _

/-- Putting back a folder that is there changes nothing, if there is something in it. -/
theorem setSite_folder_self (h : t.site path = .folder es) (hes : es ≠ []) :
    t.setSite path (.folder es) = t := by
  unfold site at h
  split at h
  · cases h
  · next hp =>
    split at h
    · next location fs hl =>
      cases h
      change t.putFolder path es = t
      unfold putFolder
      simp only [makeFolders_of_folder hp hl, hl]
      rw [Node.put_of_find? (find?_of_locate hl hes)]
    · cases h
    · cases h

end FileTree

/-! ## Removing -/

/-- What is left when an entry has been removed was there before. -/
theorem Node.file?_find?_remove {node : Node} {location other : List String}
    {file : Contents × Int} (h : ((node.remove location).find? other).bind file? = some file) :
    (node.find? other).bind file? = some file := by
  unfold remove at h
  split at h
  · next entries n hfolder _ =>
    by_cases hbelow : location.dropLast <+: other
    · obtain ⟨more, rfl⟩ := hbelow
      rw [find?_append, hfolder]
      rw [find?_append] at h
      cases hfind : (node.put location.dropLast (.folder (OrderedMap.erase entries n))).find?
          location.dropLast with
      | none =>
        rw [hfind] at h
        cases h
      | some found =>
        rw [hfind, eq_of_find?_put hfind] at h
        cases more with
        | nil => cases h
        | cons m ms =>
          change ((OrderedMap.get? (OrderedMap.erase entries n) m).bind (find? · ms)).bind file?
            = some file at h
          by_cases hm : n = m
          · subst hm
            rw [OrderedMap.get?_erase_self] at h
            cases h
          · rw [OrderedMap.get?_erase_of_ne hm] at h
            exact h
    · rwa [file?_find?_put hbelow] at h
  · exact h

namespace FileTree

variable {t t' : FileTree} {path : String}

/-- Removing a file brings no other one. -/
theorem within_removeFile (h : t.removeFile path = .ok t') :
    t'.home = t.home ∧ ∀ folder, Within (t'.fileIn? folder) (t.fileIn? folder) := by
  unfold removeFile at h
  obtain ⟨goal, -, h⟩ := bind_eq_ok.1 h
  cases goal with
  | folder location => cases h
  | entry above name slashed =>
    simp only at h
    split at h
    · cases h
    · cases h
    · split at h
      · cases h
      · cases h
        exact ⟨rfl, fun folder name file hfile => Node.file?_find?_remove hfile⟩

end FileTree
end NestedStyles.Storage
