import NestedStyles.Proofs.Style.Spelling
/-!
# Spellings that mean the same

A block for a fragment of a style can stand under a key that names both, or be nested into the style
under the fragment. A media query can stand at the top of a document with the style in it, or be
nested into the style. It makes no difference which way a block is written: what is in it is filed
in the same place, or refused for the same cause. A fault shows the way in its path only.

* `SameOutcome` compares outcomes regardless of the paths in faults;
* `readBlock` is what all spellings come to: a value is read in a context, into a style. It does not
  depend on the path (`sameOutcome_readBlock`);
* `readBlock_nested`: a block with nothing but another block in it is that block, in the context
  further in, if the place further out exists with it (`Context.Covers`);
* `exists_withFragment`: the fragment in a key leads to the same context as a block nested under it;
* `normalizeEntry_fragment`, `normalizeEntry_mediaQuery`: the spellings of an entry of a document
  agree, whatever has been read before;
* `normalize_respelled`: so do those of a document.
-/
namespace NestedStyles

open Json (Value)

/-! ## Outcomes -/

/-- What is wrong, without the path to it. -/
def Fault.withoutPath : Fault → Fault
  | .notAnObject _ found => .notAnObject "" found
  | .invalidRuleValue _ problem => .invalidRuleValue "" problem
  | fault => fault

/-- The results are the same, or the faults are, apart from paths. -/
def SameOutcome {α : Type} (x y : Except Fault α) : Prop :=
  x.mapError Fault.withoutPath = y.mapError Fault.withoutPath

namespace SameOutcome

variable {α β : Type} {x y z : Except Fault α}

theorem refl (x : Except Fault α) : SameOutcome x x := rfl

theorem trans (hxy : SameOutcome x y) (hyz : SameOutcome y z) : SameOutcome x z :=
  Eq.trans hxy hyz

theorem bind {f g : α → Except Fault β} (hxy : SameOutcome x y)
    (hfg : ∀ a, SameOutcome (f a) (g a)) : SameOutcome (x >>= f) (y >>= g) := by
  cases x <;> cases y
  · exact congrArg Except.error (Except.error.inj hxy)
  · cases hxy
  · cases hxy
  · cases Except.ok.inj hxy
    exact hfg _

end SameOutcome

/-! ## Blocks at different paths -/

section Paths

variable (path path' : String)

theorem sameOutcome_expectObject (v : Value) :
    SameOutcome (expectObject path v) (expectObject path' v) := by
  cases v <;> rfl

theorem sameOutcome_ruleValue (property : String) (v : Value) :
    SameOutcome (ruleValue property path v) (ruleValue property path' v) := by
  cases v with
  | string s =>
    unfold ruleValue
    simp only
    split <;> rfl
  | _ => rfl

theorem sameOutcome_nestedContext (c : Context) (key : String) :
    SameOutcome (nestedContext c key path) (nestedContext c key path') := by
  refine (SameOutcome.refl _).bind fun k => ?_
  cases k with
  | style base fragment =>
    change SameOutcome (ite _ _ _) (ite _ _ _)
    split <;> rfl
  | _ => rfl

theorem sameOutcome_normalizeScalar (c : Context) (key : String) (s : Specification) {v : Value}
    (hv : ∀ nested, v ≠ .object nested) :
    SameOutcome (normalizeValue c path key s v) (normalizeValue c path' key s v) := by
  rw [normalizeValue, normalizeValue]
  · split
    · rfl
    · exact (sameOutcome_ruleValue _ _ key v).bind fun _ => .refl _
  · exact hv
  · exact hv

mutual

/-- The path of a block has no influence on what is read from its entries. -/
theorem sameOutcome_normalizeEntries (c : Context) (path path' : String) :
    ∀ (entries : List (String × Value)) (s : Specification),
      SameOutcome (normalizeEntries c path s entries) (normalizeEntries c path' s entries)
  | [], s => by
    rw [normalizeEntries, normalizeEntries]
    rfl
  | (key, v) :: rest, s => by
    rw [normalizeEntries, normalizeEntries]
    exact (sameOutcome_normalizeValue c path path' key v s).bind
      (sameOutcome_normalizeEntries c path path' rest)

theorem sameOutcome_normalizeValue (c : Context) (path path' key : String) :
    ∀ (v : Value) (s : Specification),
      SameOutcome (normalizeValue c path key s v) (normalizeValue c path' key s v)
  | .object nested, s => by
    rw [normalizeValue, normalizeValue]
    exact (sameOutcome_nestedContext _ _ c key).bind fun inner =>
      sameOutcome_normalizeEntries inner _ _ nested _
  | .null, s => sameOutcome_normalizeScalar _ _ c key s (by simp)
  | .bool _, s => sameOutcome_normalizeScalar _ _ c key s (by simp)
  | .number _, s => sameOutcome_normalizeScalar _ _ c key s (by simp)
  | .string _, s => sameOutcome_normalizeScalar _ _ c key s (by simp)
  | .array _, s => sameOutcome_normalizeScalar _ _ c key s (by simp)

end

end Paths

/-! ## Values read as blocks -/

/-- Reads a value, which must be an object, as the block of a context. -/
def readBlock (c : Context) (path : String) (s : Specification) (v : Value) :
    Except Fault Specification := do
  normalizeBlock c path s (← expectObject path v)

theorem sameOutcome_readBlock (c : Context) (path path' : String) (s : Specification) (v : Value) :
    SameOutcome (readBlock c path s v) (readBlock c path' s v) :=
  (sameOutcome_expectObject path path' v).bind fun entries =>
    sameOutcome_normalizeEntries c path path' entries _

/-- The place of `outer` exists as soon as that of `inner` does. -/
def Context.Covers (inner outer : Context) : Prop :=
  ∀ s : Specification, (s.updateAt outer.place id).updateAt inner.place id
    = s.updateAt inner.place id

theorem Context.covers_style (inner : Context) : inner.Covers .style := fun _ => rfl

theorem Context.covers_media (query fragment : String) (composed : Bool) :
    (mediaSelector query fragment composed).Covers (media query) := by
  intro s
  simp only [place, Specification.updateAt, updateMedia_updateMedia]
  rfl

section Nested

variable {outer inner : Context} {path key : String}

theorem normalizeValue_eq_readBlock (hkey : Key.looksLikeSelector key = true)
    (hinner : nestedContext outer key (path ++ " > " ++ key) = .ok inner) (s : Specification)
    (v : Value) :
    normalizeValue outer path key s v = readBlock inner (path ++ " > " ++ key) s v := by
  cases v with
  | object nested =>
    rw [normalizeValue, hinner]
    rfl
  | _ =>
    rw [normalizeValue]
    · exact if_pos hkey
    · simp

/-- A block with one block in it is read like the one in it. -/
theorem readBlock_nested (hkey : Key.looksLikeSelector key = true)
    (hinner : nestedContext outer key (path ++ " > " ++ key) = .ok inner)
    (hcovers : inner.Covers outer) (s : Specification) (v : Value) :
    SameOutcome (readBlock outer path s (.object [(key, v)])) (readBlock inner path s v) := by
  have hsingle : readBlock outer path s (.object [(key, v)])
      = readBlock inner (path ++ " > " ++ key) (s.updateAt outer.place id) v := by
    rw [← normalizeValue_eq_readBlock hkey hinner]
    change normalizeEntries outer path _ [(key, v)] = _
    rw [normalizeEntries]
    simp only [normalizeEntries]
    exact bind_pure _
  have hplace : readBlock inner (path ++ " > " ++ key) (s.updateAt outer.place id) v
      = readBlock inner (path ++ " > " ++ key) s v := by
    unfold readBlock normalizeBlock
    rw [hcovers s]
  rw [hsingle, hplace]
  exact sameOutcome_readBlock ..

end Nested

/-! ## Styles -/

/-- The key of a style, with or without a fragment. -/
def Key.NamesStyle (key base fragment : String) : Prop :=
  classify? key = some (.style base fragment)
    ∨ classify? key = some (.global base fragment) ∧ base ≠ "$"

/-- A value nested into a fragment, or not nested if there is none. -/
def inFragment (fragment : String) (v : Value) : Value :=
  if fragment = "" then v else .object [(fragment, v)]

section Styles

variable {key base fragment mediaKey query : String} {outer inner : Context}

theorem Key.NamesStyle.parts (h : NamesStyle key base fragment) :
    IsName base ∧ (fragment = "" ∨ IsFragment fragment) :=
  h.elim isName_of_style fun h => isName_of_global h.1 h.2

theorem nestedContext_fragment (h : Key.IsFragment fragment) (c : Context) (path : String) :
    nestedContext c fragment path = c.enterSelector fragment fragment := by
  unfold nestedContext classify
  rw [show Key.classify? fragment = some (.fragment fragment) from h]
  rfl

theorem nestedContext_media (h : Key.classify? mediaKey = some (.mediaQuery query))
    (path : String) : nestedContext .style mediaKey path = .ok (.media query) := by
  unfold nestedContext classify
  rw [h]
  rfl

/-- The fragment of a key leads to the same place as a block for the fragment. -/
theorem exists_withFragment (houter : outer = .style ∨ ∃ query, outer = .media query)
    (h : fragment = "" ∨ Key.IsFragment fragment) (key : String) :
    ∃ inner, outer.withFragment fragment key = .ok inner ∧ ∀ path s v,
      SameOutcome (readBlock outer path s (inFragment fragment v)) (readBlock inner path s v) := by
  by_cases hempty : fragment = ""
  · exact ⟨outer, if_pos hempty, fun path s v => by rw [inFragment, if_pos hempty]; rfl⟩
  · have hfragment := h.resolve_left hempty
    obtain ⟨inner, henter, hcovers⟩ : ∃ inner : Context,
        (∀ key, outer.enterSelector fragment key = .ok inner) ∧ inner.Covers outer := by
      rcases houter with rfl | ⟨query, rfl⟩
      · exact ⟨.selector fragment false, fun _ => rfl, Context.covers_style _⟩
      · exact ⟨.mediaSelector query fragment false, fun _ => rfl, Context.covers_media _ _ _⟩
    refine ⟨inner, (if_neg hempty).trans (henter key), fun path s v => ?_⟩
    rw [inFragment, if_neg hempty]
    refine readBlock_nested (looksLikeSelector_of_isFragment hfragment) ?_ hcovers s v
    rw [nestedContext_fragment hfragment, henter]

theorem normalizeStyle_eq_readBlock (h : outer.withFragment fragment key = .ok inner)
    (sheet : Sheet) (v : Value) : normalizeStyle outer key base fragment sheet v
      = readBlock inner key ((sheet.get? base).getD {}) v
        >>= fun s => .ok (sheet.insert base s) := by
  unfold normalizeStyle
  rw [h]
  cases v <;> rfl

/-- Two spellings of a style agree if what is under them is read alike. -/
theorem sameOutcome_normalizeStyle {outer' inner' : Context} {key' fragment' : String}
    {v v' : Value} (h : outer.withFragment fragment key = .ok inner)
    (h' : outer'.withFragment fragment' key' = .ok inner')
    (hread : ∀ path s, SameOutcome (readBlock inner' path s v') (readBlock inner path s v))
    (sheet : Sheet) : SameOutcome (normalizeStyle outer key base fragment sheet v)
      (normalizeStyle outer' key' base fragment' sheet v') := by
  rw [normalizeStyle_eq_readBlock h, normalizeStyle_eq_readBlock h']
  exact ((sameOutcome_readBlock ..).trans (hread key' _).symm).bind fun _ => .refl _

end Styles

/-! ## Documents -/

section Documents

variable {key base fragment mediaKey query : String}

theorem normalizeEntry_style (h : Key.NamesStyle key base fragment) (sheet : Sheet) (v : Value) :
    normalizeEntry sheet (key, v) = normalizeStyle .style key base fragment sheet v := by
  unfold normalizeEntry classify
  simp only
  rcases h with h | ⟨h, hbase⟩
  · rw [h]
    rfl
  · rw [h]
    exact if_neg hbase

theorem normalizeMediaEntry_style (h : Key.NamesStyle key base fragment)
    (sheet : Sheet) (v : Value) : normalizeMediaEntry query sheet (key, v)
      = normalizeStyle (.media query) key base fragment sheet v := by
  unfold normalizeMediaEntry classify
  simp only
  rcases h with h | ⟨h, hbase⟩
  · rw [h]
    rfl
  · rw [h]
    exact if_neg hbase

theorem normalizeEntry_media (hquery : Key.classify? mediaKey = some (.mediaQuery query))
    (sheet : Sheet) (key : String) (v : Value) :
    normalizeEntry sheet (mediaKey, .object [(key, v)])
      = normalizeMediaEntry query sheet (key, v) := by
  unfold normalizeEntry classify
  simp only
  rw [hquery]
  change [(key, v)].foldlM (normalizeMediaEntry query) sheet = _
  simp

/-- An entry for a fragment of a style, in a document that has been read up to there. -/
theorem normalizeEntry_fragment (hkey : Key.NamesStyle key base fragment) (sheet : Sheet)
    (v : Value) : SameOutcome (normalizeEntry sheet (key, v))
      (normalizeEntry sheet (base, inFragment fragment v)) := by
  have hbase : Key.NamesStyle base base "" := hkey.parts.1
  obtain ⟨inner, hinner, hread⟩ := exists_withFragment (.inl rfl) hkey.parts.2 key
  rw [normalizeEntry_style hkey, normalizeEntry_style hbase]
  exact sameOutcome_normalizeStyle hinner (if_pos rfl) (fun path s => hread path s v) sheet

/-- An entry for a media query of a style or of a fragment, likewise. -/
theorem normalizeEntry_mediaQuery (hquery : Key.classify? mediaKey = some (.mediaQuery query))
    (hkey : Key.NamesStyle key base fragment) (sheet : Sheet) (v : Value) :
    SameOutcome (normalizeEntry sheet (mediaKey, .object [(key, v)]))
      (normalizeEntry sheet (base, .object [(mediaKey, inFragment fragment v)])) := by
  have hbase : Key.NamesStyle base base "" := hkey.parts.1
  have hselector : Key.looksLikeSelector mediaKey = true := by
    rw [Key.of_mediaQuery hquery]
    exact looksLikeSelector_at query
  obtain ⟨inner, hinner, hread⟩ := exists_withFragment (.inr ⟨query, rfl⟩) hkey.parts.2 key
  rw [normalizeEntry_media hquery, normalizeMediaEntry_style hkey, normalizeEntry_style hbase]
  refine sameOutcome_normalizeStyle hinner (if_pos rfl) (fun path s => ?_) sheet
  refine SameOutcome.trans ?_ (hread path s v)
  exact readBlock_nested hselector (nestedContext_media hquery _) (Context.covers_style _) s _

/-- The spellings of a block in a document, of which it is all, mean the same: that of a fragment in
the key of its style or nested into the style, and that of a media query with the style in it or
nested into the style. -/
theorem normalize_respelled (hquery : Key.classify? mediaKey = some (.mediaQuery query))
    (hkey : Key.NamesStyle key base fragment) (block : Value) :
    SameOutcome (normalize (.object [(key, block)]))
      (normalize (.object [(base, inFragment fragment block)]))
    ∧ SameOutcome (normalize (.object [(mediaKey, .object [(key, block)])]))
      (normalize (.object [(base, .object [(mediaKey, inFragment fragment block)])])) := by
  have hsingle : ∀ entry, normalize (.object [entry]) = normalizeEntry [] entry := by
    intro entry
    change [entry].foldlM normalizeEntry [] = _
    simp
  rw [hsingle, hsingle, hsingle, hsingle]
  exact ⟨normalizeEntry_fragment hkey [] block, normalizeEntry_mediaQuery hquery hkey [] block⟩

/-- The four spellings of a rule for a pointer over a style, with and without a media query. -/
theorem normalize_respelled_hover :
    Key.classify? "@print" = some (.mediaQuery "print") ∧ Key.NamesStyle "a:hover" "a" ":hover"
    ∧ SameOutcome (normalize (.object [("a:hover", .object [("color", .string "red")])]))
      (normalize (.object [("a", inFragment ":hover" (.object [("color", .string "red")]))]))
    ∧ SameOutcome
      (normalize (.object [("@print", .object [("a:hover", .object [("color", .string "red")])])]))
      (normalize (.object
        [("a", .object [("@print", inFragment ":hover" (.object [("color", .string "red")]))])])) :=
  have hquery : Key.classify? "@print" = some (.mediaQuery "print") := by decide
  have hkey : Key.NamesStyle "a:hover" "a" ":hover" := .inl (by decide)
  ⟨hquery, hkey, normalize_respelled hquery hkey _⟩

end Documents

end NestedStyles
