import NestedStyles.Proofs.Storage.Path
import NestedStyles.Source.Identifier
/-!
# Identifiers tell sources apart

The identifier of a source inside the root is a path as well, and it has the components of the
source's own path. So it does not tell where the root is, and two sources have the same identifier
only if their paths inside the root mean the same.

* `identifier_join`: the identifier, and `inner_identifier`: its components;
* `identifier_eq_iff`: when two sources, under the same root or not, have the same identifier.
-/
namespace NestedStyles.Source

open Storage (Component)
open Storage.Path (components inner isAbsolute join withoutDot)

variable {root root' path path' : String}

/-- A dot in front contributes nothing. -/
theorem filterMap_part?_withoutDot (cs : List Component) :
    (withoutDot cs).filterMap part? = cs.filterMap part? := by
  unfold withoutDot
  split <;> rfl

/-- The identifier of a source inside the root, which the root has no part in. -/
theorem identifier_join (h : isAbsolute path = false) (root : String) :
    identifier (some (join root path)) root = "/".intercalate ((inner path).filterMap part?) := by
  obtain ⟨cs, hcs, hinner⟩ : ∃ cs, Storage.Path.relativeTo? root (join root path) = some cs
      ∧ Storage.Path.withoutDot cs = inner path := Storage.Path.relativeTo?_join h
  rw [identifier, hcs, ← hinner, filterMap_part?_withoutDot]
  rfl

/-- What a component inside a path contributes is the part that stands for it. -/
theorem exists_part? {c : Component} (h : c ∈ inner path) : ∃ part, part? c = some part
    ∧ '/' ∉ part.toList ∧ Storage.Path.component? part = some c := by
  rcases Storage.Path.mem_inner h with rfl | ⟨name, rfl, hname⟩
  · exact ⟨"..", rfl, by decide, rfl⟩
  · exact ⟨name, rfl, hname.2, Storage.Path.component?_name hname⟩

theorem filterMap_component?_part? {cs : List Component} (h : ∀ c ∈ cs, c ∈ inner path) :
    (cs.filterMap part?).filterMap Storage.Path.component? = cs := by
  induction cs with
  | nil => rfl
  | cons c cs ih =>
    obtain ⟨part, hpart, -, hc⟩ := exists_part? (h c List.mem_cons_self)
    rw [List.filterMap_cons_some hpart, List.filterMap_cons_some hc,
      ih fun c hc => h c (List.mem_cons_of_mem _ hc)]

/-- The components of a source's path can be read off its identifier. -/
theorem inner_identifier (h : isAbsolute path = false) (root : String) :
    inner (identifier (some (join root path)) root) = inner path := by
  rw [identifier_join h root, Storage.Path.inner_intercalate, filterMap_component?_part?]
  · exact fun c hc => hc
  · intro part hpart
    obtain ⟨c, hc, hcpart⟩ := List.mem_filterMap.1 hpart
    obtain ⟨part', hpart', hslash, -⟩ := exists_part? hc
    cases hcpart.symm.trans hpart'
    exact hslash

/-- Sources have the same identifier, wherever their roots are, if and only if their paths inside
the roots have the same components, but for a leading dot. -/
theorem identifier_eq_iff (h : isAbsolute path = false) (h' : isAbsolute path' = false) :
    identifier (some (join root path)) root = identifier (some (join root' path')) root'
      ↔ withoutDot (components path) = withoutDot (components path') := by
  rw [Storage.Path.withoutDot_components h, Storage.Path.withoutDot_components h']
  constructor
  · intro heq
    rw [← inner_identifier h root, heq, inner_identifier h' root']
  · intro heq
    rw [identifier_join h, identifier_join h', heq]

theorem identifier_eq_iff_dots : isAbsolute "./x//../y.js/" = false
    ∧ isAbsolute "x/.././y.js" = false ∧ isAbsolute "y.js" = false
    ∧ identifier (some (join "." "./x//../y.js/")) "."
      = identifier (some (join "/home/a/" "x/.././y.js")) "/home/a/"
    ∧ identifier (some (join "" "./x//../y.js/")) "" ≠ identifier (some (join "b" "y.js")) "b" := by
  have h : isAbsolute "./x//../y.js/" = false := by decide
  have hsame : isAbsolute "x/.././y.js" = false := by decide
  have hother : isAbsolute "y.js" = false := by decide
  exact ⟨h, hsame, hother, (identifier_eq_iff h hsame).2 (by decide),
    fun heq => absurd ((identifier_eq_iff h hother).1 heq) (by decide)⟩

end NestedStyles.Source
