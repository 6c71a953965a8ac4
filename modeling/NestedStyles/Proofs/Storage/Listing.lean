import Mathlib.Logic.Function.Basic
import NestedStyles.Proofs.OrderedMap
import NestedStyles.Storage.Listing
/-!
# Storing a tree

Every location at which a tree has something is listed, so no difference between two trees is
missed: the same files and folders are shown exactly if there is nothing to change, and who makes
all changes is shown the other tree.

* `mem_locations`: all that can be found is listed;
* `sameFiles_iff`: when nothing has changed;
* `foldl_changes`: the changes lead from one tree to the other.
-/
namespace NestedStyles.Storage

/-! ## Locations -/

namespace Node

theorem mem_locationsIn {entries : List (String × Node)} {name : String} {node : Node}
    (h : OrderedMap.get? entries name = some node) {location : List String}
    (hl : location ∈ node.locations) : name :: location ∈ locationsIn entries := by
  induction entries with
  | nil => cases h
  | cons entry entries ih =>
    obtain ⟨key, value⟩ := entry
    rw [OrderedMap.get?] at h
    rw [locationsIn, List.mem_append]
    split at h
    · rename_i hkey
      cases h
      exact Or.inl (List.mem_map.2 ⟨location, hl, by rw [hkey]⟩)
    · exact Or.inr (ih h)

theorem mem_locations {node found : Node} {location : List String}
    (h : node.find? location = some found) : location ∈ node.locations := by
  induction location generalizing node with
  | nil => cases node <;> exact List.mem_cons_self
  | cons name location ih =>
    cases node with
    | file contents modified => cases h
    | folder entries =>
      obtain ⟨inner, hname, hinner⟩ := Option.bind_eq_some_iff.1 h
      exact List.mem_cons_of_mem _ (mem_locationsIn hname (ih hinner))

end Node

/-! ## Changes -/

namespace FileTree

variable {s t : FileTree} {location : List String}

theorem mem_locations_of_faceAt? (h : t.faceAt? location ≠ none) :
    location ∈ t.root.locations := by
  obtain ⟨face, hface⟩ := Option.ne_none_iff_exists'.1 h
  obtain ⟨node, hnode, -⟩ := Option.map_eq_some_iff.1 hface
  exact Node.mem_locations hnode

/-- The changes are the locations at which something else is shown, with what is shown there. -/
theorem mem_changes {face : Option Face} : (location, face) ∈ s.changes t ↔
    s.faceAt? location ≠ t.faceAt? location ∧ face = t.faceAt? location := by
  unfold changes
  simp only [List.mem_filterMap, List.mem_append, List.mem_filter]
  constructor
  · rintro ⟨l, -, h⟩
    split at h <;> cases h
    exact ⟨‹_›, rfl⟩
  · rintro ⟨hdiffer, rfl⟩
    refine ⟨location, ?_, if_neg hdiffer⟩
    by_cases ht : t.faceAt? location = none
    · have hs : s.faceAt? location ≠ none := fun hs => hdiffer (hs.trans ht.symm)
      exact Or.inr ⟨mem_locations_of_faceAt? hs, by rw [ht]; rfl⟩
    · exact Or.inl (mem_locations_of_faceAt? ht)

/-- Nothing has changed exactly if the same is shown everywhere. -/
theorem sameFiles_iff :
    s.sameFiles t = true ↔ ∀ location, s.faceAt? location = t.faceAt? location := by
  rw [sameFiles, List.isEmpty_iff, List.eq_nil_iff_forall_not_mem]
  constructor
  · intro h location
    by_contra hdiffer
    exact h (location, t.faceAt? location) (mem_changes.2 ⟨hdiffer, rfl⟩)
  · rintro h ⟨location, face⟩ hchange
    exact (mem_changes.1 hchange).1 (h location)

/-- What is shown everywhere once a change has been made. -/
def afterChange (shown : List String → Option Face) (change : List String × Option Face) :
    List String → Option Face :=
  Function.update shown change.1 change.2

theorem foldl_afterChange {shown goal : List String → Option Face}
    {changes : List (List String × Option Face)}
    (hchanges : ∀ change ∈ changes, change.2 = goal change.1)
    (hrest : ∀ location, (∀ change ∈ changes, change.1 ≠ location) →
      shown location = goal location) : changes.foldl afterChange shown = goal := by
  induction changes generalizing shown with
  | nil => exact funext fun location => hrest location nofun
  | cons change changes ih =>
    refine ih (fun c hc => hchanges c (List.mem_cons_of_mem _ hc)) fun location hlocation => ?_
    unfold afterChange
    by_cases hhere : change.1 = location
    · rw [← hhere, Function.update_self, hchanges change List.mem_cons_self]
    · rw [Function.update_of_ne (Ne.symm hhere)]
      exact hrest location (List.forall_mem_cons.2 ⟨hhere, hlocation⟩)

/-- Who makes all changes is shown the other tree. -/
theorem foldl_changes (s t : FileTree) :
    (s.changes t).foldl afterChange s.faceAt? = t.faceAt? := by
  refine foldl_afterChange (fun change hchange => (mem_changes.1 hchange).2) fun location hrest => ?_
  by_contra hdiffer
  exact hrest (location, t.faceAt? location) (mem_changes.2 ⟨hdiffer, rfl⟩) rfl

end FileTree
end NestedStyles.Storage
