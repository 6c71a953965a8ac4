import Mathlib
import NestedStyles.ClassName.Readable
/-!
# When readable names are the same

A readable name forgets which characters have become `_`, which parts are empty, and which of its
`-` stand between two parts. All else can be read back: cut at every `-`, the name gives the pieces
of its parts in order.

* `pieces` are these pieces, and `readable_eq_iff` says that they are all there is to a name;
* `pieces_of_unhyphened`: a part without `-` is a piece itself, so such parts can be told apart one
  by one;
* `IsWord.plainPart_eq`: parts of letters, digits and `_` stand in the name as they are.
-/
namespace NestedStyles.ClassName

/-- The characters that stand for a part. -/
def plainPart (part : String) : List Char := part.toList.map plainChar

/-- The parts of a name that are not empty. -/
def presentParts (prefixes : List String) (name : String) : List String :=
  (prefixes ++ [name]).filter (· ≠ "")

/-- What stands between the `-` of a readable name. -/
def pieces (prefixes : List String) (name : String) : List (List Char) :=
  (presentParts prefixes name).flatMap fun part => (plainPart part).splitOn '-'

/-- The text between the `-` of characters. -/
def cut (cs : List Char) : List (List Char) := if cs = [] then [] else cs.splitOn '-'

variable {prefixes prefixes' : List String} {name name' : String}

theorem toList_readable (prefixes : List String) (name : String) :
    (readable prefixes name).toList
      = ['-'].intercalate ((presentParts prefixes name).map plainPart) := by
  unfold readable presentParts plainPart
  rw [String.toList_intercalate, List.map_map]
  simp only [Function.comp_def, String.toList_ofList]
  rfl

theorem splitOn_intercalate_cons (x : List Char) (xs : List (List Char)) :
    (['-'].intercalate (x :: xs)).splitOn '-' = (x :: xs).flatMap (List.splitOn '-') := by
  induction xs generalizing x with
  | nil => simp
  | cons y ys ih =>
    rw [List.intercalate_cons_cons, List.append_assoc, List.singleton_append,
      List.splitOn_append_cons_self, ih y]
    rfl

theorem plainPart_eq_nil {part : String} : plainPart part = [] ↔ part = "" := by
  simp [plainPart]

theorem cut_readable (prefixes : List String) (name : String) :
    cut (readable prefixes name).toList = pieces prefixes name := by
  have hpresent : ∀ part ∈ presentParts prefixes name, part ≠ "" := fun part hpart =>
    of_decide_eq_true (List.mem_filter.1 hpart).2
  rw [toList_readable]
  unfold pieces
  cases hparts : presentParts prefixes name with
  | nil => rfl
  | cons part parts =>
    rw [hparts] at hpresent
    have hne : ['-'].intercalate ((part :: parts).map plainPart) ≠ [] := by
      have hpart := mt plainPart_eq_nil.1 (hpresent part List.mem_cons_self)
      cases parts <;> simp [hpart]
    rw [cut, if_neg hne, List.map_cons, splitOn_intercalate_cons, ← List.map_cons, List.flatMap_map]

theorem intercalate_cut (cs : List Char) : ['-'].intercalate (cut cs) = cs := by
  unfold cut
  split
  · rw [‹cs = []›]
    rfl
  · exact List.intercalate_splitOn '-'

/-- Two readable names are the same if and only if they have the same pieces. -/
theorem readable_eq_iff :
    readable prefixes name = readable prefixes' name'
      ↔ pieces prefixes name = pieces prefixes' name' := by
  rw [← cut_readable, ← cut_readable]
  constructor
  · exact fun h => by rw [h]
  · intro h
    have hlist := congrArg (List.intercalate ['-']) h
    rw [intercalate_cut, intercalate_cut] at hlist
    exact String.toList_injective hlist

/-! ## Parts that are pieces -/

/-- A part that is there and is not cut. -/
def Unhyphened (part : String) : Prop := part ≠ "" ∧ '-' ∉ part.toList

theorem splitOn_plainPart {part : String} (h : Unhyphened part) :
    (plainPart part).splitOn '-' = [plainPart part] := by
  refine List.splitOn_eq_singleton fun hmem => ?_
  obtain ⟨c, hc, hplain⟩ := List.mem_map.1 hmem
  unfold plainChar at hplain
  split at hplain
  · exact h.2 (hplain ▸ hc)
  · cases hplain

theorem pieces_append (prefixes parts : List String) (name : String) :
    pieces (prefixes ++ parts) name
      = (prefixes.filter (· ≠ "")).flatMap (fun part => (plainPart part).splitOn '-')
        ++ pieces parts name := by
  simp [pieces, presentParts, List.filter_append, List.flatMap_append]

theorem pieces_of_unhyphened (hparts : ∀ part ∈ prefixes, Unhyphened part)
    (hname : Unhyphened name) : pieces prefixes name = (prefixes ++ [name]).map plainPart := by
  have hall : ∀ part ∈ prefixes ++ [name], Unhyphened part := by
    intro part hpart
    rcases List.mem_append.1 hpart with h | h
    · exact hparts part h
    · exact List.mem_singleton.1 h ▸ hname
  have hpresent : presentParts prefixes name = prefixes ++ [name] :=
    List.filter_eq_self.2 fun part hpart => by simpa using (hall part hpart).1
  rw [pieces, hpresent, List.map_eq_flatMap]
  exact List.flatMap_congr fun part hpart => splitOn_plainPart (hall part hpart)

/-- A part of letters, digits and `_`. -/
def IsWord (part : String) : Prop := part ≠ "" ∧ ∀ c ∈ part.toList, c.isAlphanum ∨ c = '_'

theorem IsWord.unhyphened {part : String} (h : IsWord part) : Unhyphened part := by
  refine ⟨h.1, fun hmem => ?_⟩
  rcases h.2 '-' hmem with hc | hc <;> revert hc <;> decide

theorem IsWord.plainPart_eq {part : String} (h : IsWord part) : plainPart part = part.toList := by
  refine (List.map_congr_left fun c hc => ?_).trans (List.map_id _)
  have hplain : isPlain c = true := by
    unfold isPlain
    rcases h.2 c hc with hc | rfl
    · simp [hc]
    · decide
  exact if_pos hplain

end NestedStyles.ClassName
