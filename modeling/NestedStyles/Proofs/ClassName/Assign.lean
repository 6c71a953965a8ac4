import NestedStyles.Proofs.Cache.Store
import NestedStyles.ClassName.Naming
/-!
# Naming classes in a table

What naming a class does to a table in memory, and what naming several does. A class that has been
named keeps its token while others are named after it, and naming it again does nothing; so it does
not matter how often a class is named, but only when it is for the first time.

* `assign`, `assignAll` are the tables afterwards, `tokenOf` is the token;
* `compressed_spec`: naming one class;
* `chosen` and `enlisted` are the name and the table if names are compressed or not; what a table
  `Knows` is not changed by later names;
* `classFor_spec`: the class for a style; `classFor_of_names`: the class for a style that the store
  `Names` already.
-/
namespace NestedStyles.ClassName

open Cache (Fetching Store StoreM Table)

/-! ## One class -/

/-- The table in which a class has been named. -/
def assign (t : Table) (name : String) : Table :=
  match OrderedMap.get? t name with
  | some _ => t
  | none => t ++ [(name, token t.length)]

/-- The token of a class that has been named. -/
def tokenOf (t : Table) (name : String) : String := (OrderedMap.get? t name).getD (token t.length)

theorem fetch_token (t : Table) (name : String) :
    t.fetch name (fun names => token names.length) = (tokenOf t name, assign t name) := by
  unfold tokenOf assign
  cases hk : OrderedMap.get? t name with
  | some found => exact Table.fetch_of_get?_eq_some hk _
  | none =>
    have hlen : (OrderedMap.keys t).length = t.length := List.length_map _
    rw [Table.fetch_of_not_mem (OrderedMap.get?_eq_none_iff.1 hk), hlen]
    rfl

theorem compressed_spec (t : Table) (name : String) :
    compressed name (.memory t) = (.ok (tokenOf t name), .memory (assign t name)) := by
  unfold compressed Store.fetch
  simp only [fetch_token]

theorem fetching_compressed (name : String) : Fetching (compressed name) := .fetch name _

theorem get?_assign (t : Table) (name : String) :
    OrderedMap.get? (assign t name) name = some (tokenOf t name) := by
  have := t.get?_fetch name fun names => token names.length
  rwa [fetch_token] at this

theorem grows_assign (t : Table) (name : String) : t.Grows (assign t name) := by
  have := t.grows_fetch name fun names => token names.length
  rwa [fetch_token] at this

/-! ## Several classes -/

/-- The table in which classes have been named one after the other. -/
def assignAll (t : Table) (names : List String) : Table := names.foldl assign t

theorem assignAll_append (t : Table) (names names' : List String) :
    assignAll t (names ++ names') = assignAll (assignAll t names) names' := List.foldl_append

theorem grows_assignAll (t : Table) (names : List String) : t.Grows (assignAll t names) := by
  induction names generalizing t with
  | nil => exact Table.Grows.refl t
  | cons name names ih => exact (grows_assign t name).trans (ih (assign t name))

theorem get?_assignAll {names : List String} {name : String} (h : name ∈ names) (t : Table) :
    ∃ text, OrderedMap.get? (assignAll t names) name = some text := by
  induction names generalizing t with
  | nil => cases h
  | cons other names ih =>
    rcases List.mem_cons.1 h with rfl | h
    · exact ⟨_, (grows_assignAll _ names).get? (get?_assign t name)⟩
    · exact ih h (assign t other)

theorem assign_of_get? {t : Table} {name text : String} (h : OrderedMap.get? t name = some text) :
    assign t name = t := by
  unfold assign
  rw [h]

theorem tokenOf_of_get? {t : Table} {name text : String} (h : OrderedMap.get? t name = some text) :
    tokenOf t name = text := by
  rw [tokenOf, h]
  rfl

/-! ## Compressed or not -/

/-- The table in which classes have been named, if names are compressed. -/
def enlisted (compress : Bool) (t : Table) (names : List String) : Table :=
  if compress then assignAll t names else t

/-- The name of a class, which is the one in the table if names are compressed. -/
def chosen (compress : Bool) (t : Table) (name : String) : String :=
  if compress then tokenOf t name else name

/-- The table has what is needed for the name of a class. -/
def Knows (compress : Bool) (t : Table) (name : String) : Prop :=
  compress = true → ∃ text, OrderedMap.get? t name = some text

variable {compress : Bool} {t t' : Table} {name : String}

/-- What is named later does not change a name. -/
theorem chosen_grow (h : Knows compress t name) (hg : t.Grows t') :
    chosen compress t' name = chosen compress t name := by
  cases compress with
  | false => rfl
  | true =>
    obtain ⟨text, ht⟩ := h rfl
    exact (tokenOf_of_get? (hg.get? ht)).trans (tokenOf_of_get? ht).symm

theorem Knows.grow (h : Knows compress t name) (hg : t.Grows t') : Knows compress t' name :=
  fun hcompress => (h hcompress).imp fun _ => hg.get?

theorem grows_enlisted (compress : Bool) (t : Table) (names : List String) :
    t.Grows (enlisted compress t names) := by
  cases compress with
  | false => exact Table.Grows.refl t
  | true => exact grows_assignAll t names

theorem knows_enlisted {names : List String} (h : name ∈ names) :
    Knows compress (enlisted compress t names) name := by
  rintro rfl
  exact get?_assignAll h t

theorem enlisted_append (compress : Bool) (t : Table) (names names' : List String) :
    enlisted compress t (names ++ names')
      = enlisted compress (enlisted compress t names) names' := by
  cases compress with
  | false => rfl
  | true => exact assignAll_append t names names'

theorem classFor_spec (prefixes : List String) (compress : Bool) (style : String) (t : Table) :
    classFor prefixes compress style (.memory t)
      = (.ok (chosen compress (enlisted compress t [readable prefixes style])
        (readable prefixes style)), .memory (enlisted compress t [readable prefixes style])) := by
  cases compress with
  | false => rfl
  | true =>
    have htoken := tokenOf_of_get? (get?_assign t (readable prefixes style))
    change compressed (readable prefixes style) (.memory t)
      = (.ok (tokenOf (assign t (readable prefixes style)) (readable prefixes style)),
        .memory (assign t _))
    rw [compressed_spec, htoken]

/-- A class has a name in a store, which is left as it is. -/
def Names (compress : Bool) (s : Store) (name text : String) : Prop :=
  if compress then compressed name s = (.ok text, s) else text = name

theorem classFor_of_names {s : Store} {prefixes : List String} {style text : String}
    (h : Names compress s (readable prefixes style) text) :
    classFor prefixes compress style s = (.ok text, s) := by
  cases compress with
  | false =>
    rw [show text = readable prefixes style from h]
    rfl
  | true => exact h

theorem Knows.names (h : Knows compress t name) :
    Names compress (.memory t) name (chosen compress t name) := by
  cases compress with
  | false => rfl
  | true =>
    obtain ⟨text, ht⟩ := h rfl
    change compressed name (.memory t) = (.ok (tokenOf t name), .memory t)
    rw [compressed_spec, assign_of_get? ht]

theorem names_assignAll {names : List String} (h : name ∈ names) (t : Table) :
    Names true (.memory (assignAll t names)) name (tokenOf (assignAll t names) name) := by
  have hknows : Knows true (enlisted true t names) name := knows_enlisted h
  exact hknows.names

theorem fetching_classFor (prefixes : List String) (compress : Bool) (style : String) :
    Fetching (classFor prefixes compress style) := by
  cases compress with
  | false => exact Fetching.pure _
  | true => exact fetching_compressed (readable prefixes style)

end NestedStyles.ClassName
