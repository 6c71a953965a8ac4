import NestedStyles.Json.Reader
import NestedStyles.Proofs.Json.Tokens
import NestedStyles.Proofs.OrderedMap
/-!
# Pretty texts read back

The pretty form of a tree has the tokens of the compact one, with blanks between them. So it is read
as the value of the tree, as long as this is not nested too deeply for the reader.

* `Nested.tokens`, `Nested.outline`, `Nested.value`: the stages between a text and its value;
* `writes_pretty`: a pretty text has the tokens of its tree, and `foldlM_tokens` what the machine
  makes of them;
* `parse?_pretty`: the whole;
* `Nested.ofMap` is the object of a map, and `Value.at?` looks a value up in it and in its members.
-/
namespace NestedStyles.Json

/-- The value that a path of names leads to, through objects inside objects. -/
def Value.at? : Value → List String → Option Value
  | v, [] => some v
  | .object ms, k :: ks => (OrderedMap.get? ms k).bind (at? · ks)
  | _, _ :: _ => none

/-! ## The stages -/

namespace Nested

mutual

def tokens : Nested → List Token
  | leaf text => [.string (some text)]
  | object ms => .openBrace :: (memberTokens ms ++ [.closeBrace])

def memberTokens : List (String × Nested) → List Token
  | [] => []
  | [(k, v)] => .string (some k) :: .colon :: tokens v
  | (k, v) :: m :: ms => .string (some k) :: .colon :: (tokens v ++ .comma :: memberTokens (m :: ms))

end

mutual

def outline : Nested → Outline
  | leaf text => .string (some text)
  | object ms => .object (memberOutlines ms)

def memberOutlines : List (String × Nested) → List (Option String × Outline)
  | [] => []
  | (k, v) :: ms => (some k, outline v) :: memberOutlines ms

end

mutual

def value : Nested → Value
  | leaf text => .string text
  | object ms => .object (memberValues ms)

def memberValues : List (String × Nested) → List (String × Value)
  | [] => []
  | (k, v) :: ms => (k, value v) :: memberValues ms

end

mutual

/-- How many objects are nested into each other. -/
def depth : Nested → Nat
  | leaf _ => 0
  | object ms => memberDepth ms + 1

/-- The greatest depth of a member. -/
def memberDepth : List (String × Nested) → Nat
  | [] => 0
  | (_, v) :: ms => max (depth v) (memberDepth ms)

end

theorem memberValues_eq_map (ms : List (String × Nested)) :
    memberValues ms = ms.map fun m => (m.1, m.2.value) := by
  induction ms with
  | nil => rfl
  | cons m ms ih => rw [memberValues, ih, List.map_cons]

/-! ## Objects of maps -/

variable {α : Type} {f : α → Nested}

/-- The object whose members are made of the values of a map. -/
def ofMap (f : α → Nested) (m : OrderedMap String α) : Nested := object (m.map fun e => (e.1, f e.2))

theorem at?_ofMap (m : OrderedMap String α) (k : String) (ks : List String) :
    (ofMap f m).value.at? (k :: ks) = (OrderedMap.get? m k).bind fun v => (f v).value.at? ks := by
  have hmembers : memberValues (m.map fun e => (e.1, f e.2))
      = m.map fun e => (e.1, (f e.2).value) := by
    rw [memberValues_eq_map, List.map_map]
    rfl
  rw [ofMap, value, Value.at?, hmembers, OrderedMap.get?_map fun e => (f e.2).value, Option.bind_map]
  rfl

theorem depth_ofMap_le {d : Nat} (h : ∀ v, (f v).depth ≤ d) (m : OrderedMap String α) :
    (ofMap f m).depth ≤ d + 1 := by
  rw [ofMap, depth]
  refine Nat.succ_le_succ ?_
  induction m with
  | nil => exact Nat.zero_le d
  | cons e m ih =>
    rw [List.map_cons, memberDepth]
    exact max_le (h e.2) ih

end Nested

/-! ## From texts to tokens -/

/-- Before any text the characters add these tokens. -/
def Writes (cs : List Char) (ts : List Token) : Prop :=
  ∀ rest ts', Spells rest ts' → Spells (cs ++ rest) (ts ++ ts')

theorem Writes.append {cs cs' : List Char} {ts ts' : List Token} (h : Writes cs ts)
    (h' : Writes cs' ts') : Writes (cs ++ cs') (ts ++ ts') := by
  intro rest more hrest
  rw [List.append_assoc, List.append_assoc]
  exact h _ _ (h' _ _ hrest)

theorem writes_blank {c : Char} (hc : isSpace c = true) : Writes [c] [] :=
  fun _ _ hrest => .blank hc hrest

theorem writes_blanks {cs : List Char} (h : ∀ c ∈ cs, isSpace c = true) : Writes cs [] := by
  intro rest ts' hrest
  induction cs with
  | nil => exact hrest
  | cons c cs ih =>
    exact .blank (h c List.mem_cons_self) (ih fun c' hc' => h c' (List.mem_cons_of_mem _ hc'))

theorem writes_mark {c : Char} {t : Token} (hc : isSpace c = false)
    (ht : ∀ rest, readToken? (c :: rest) = some (t, rest)) : Writes [c] [t] :=
  fun rest _ hrest => .cons hc (ht rest) (Nat.le_refl _) hrest

theorem writes_quoted (s : String) : Writes (quoted s).toList [.string (some s)] := by
  intro rest ts' hrest
  rw [quoted, String.toList_ofList]
  have h := @Spells.quoted s.toList rest ts' hrest
  rwa [String.ofList_toList] at h

theorem writes_indent (level : Nat) : Writes (Text.indent level).toList [] := by
  refine writes_blanks fun c hc => ?_
  rw [Text.indent, String.toList_ofList] at hc
  rw [List.eq_of_mem_replicate hc]
  rfl

theorem writes_lineFeed : Writes ['\n'] [] := writes_blank rfl

theorem writes_openBrace : Writes ['\x7b'] [.openBrace] := writes_mark rfl fun _ => rfl

theorem writes_closeBrace : Writes ['\x7d'] [.closeBrace] := writes_mark rfl fun _ => rfl

theorem writes_colon : Writes [':', ' '] [.colon] :=
  (writes_mark rfl fun _ => rfl).append (writes_blank rfl)

theorem writes_comma : Writes [',', '\n'] [.comma] :=
  (writes_mark rfl fun _ => rfl).append writes_lineFeed

open Nested

mutual

/-- A pretty text has the tokens of its tree. -/
theorem writes_pretty (level : Nat) : ∀ n : Nested, Writes (n.pretty level).toList n.tokens
  | leaf text => writes_quoted text
  | object [] => by
    have h := writes_openBrace.append writes_closeBrace
    simpa [pretty, Nested.tokens, memberTokens] using h
  | object (m :: ms) => by
    have hmembers := writes_members (level + 1) (m :: ms)
    have h := ((((writes_openBrace.append writes_lineFeed).append hmembers).append
      writes_lineFeed).append (writes_indent level)).append writes_closeBrace
    simpa [pretty, Nested.tokens] using h

theorem writes_members (level : Nat) : ∀ ms : List (String × Nested),
    Writes (",\n".intercalate (prettyMembers level ms)).toList (memberTokens ms)
  | [] => fun _ _ hrest => hrest
  | [(k, v)] => by
    have h := (((writes_indent level).append (writes_quoted k)).append writes_colon).append
      (writes_pretty level v)
    simpa [prettyMembers, memberTokens] using h
  | (k, v) :: m :: ms => by
    have h := ((((writes_indent level).append (writes_quoted k)).append writes_colon).append
      (writes_pretty level v)).append (writes_comma.append (writes_members level (m :: ms)))
    simpa [prettyMembers, memberTokens] using h

end

/-! ## From tokens to outlines -/

mutual

/-- The machine reads a tree where it wants a value. -/
theorem foldlM_tokens : ∀ (n : Nested) (frames : List Frame),
    n.tokens.foldlM State.step ⟨frames, .value⟩ = some ⟨frames, .next n.outline⟩
  | leaf text, frames => rfl
  | object [], frames => rfl
  | object ((k, v) :: ms), frames => by
    have h := foldlM_memberTokens ((k, v) :: ms) (List.cons_ne_nil _ _) frames []
    -- the first name is taken like any other
    cases ms <;> exact h

/-- Where it wants a name, it reads members up to the end of their object. -/
theorem foldlM_memberTokens : ∀ ms : List (String × Nested), ms ≠ [] →
    ∀ (frames : List Frame) (done : List (Option String × Outline)),
    (memberTokens ms ++ [Token.closeBrace]).foldlM State.step ⟨frames, .key done⟩
      = some ⟨frames, .next (.object (done ++ memberOutlines ms))⟩
  | [], h, _, _ => absurd rfl h
  | [(k, v)], _, frames, done => by
    have hvalue := foldlM_tokens v (.object done (some k) :: frames)
    change (v.tokens ++ [Token.closeBrace]).foldlM State.step
      ⟨.object done (some k) :: frames, .value⟩ = _
    rw [List.foldlM_append, hvalue]
    rfl
  | (k, v) :: m :: ms, _, frames, done => by
    have hvalue := foldlM_tokens v (.object done (some k) :: frames)
    have hrest := foldlM_memberTokens (m :: ms) (List.cons_ne_nil _ _) frames
      (done ++ [(some k, v.outline)])
    change ((v.tokens ++ .comma :: memberTokens (m :: ms)) ++ [Token.closeBrace]).foldlM State.step
      ⟨.object done (some k) :: frames, .value⟩ = _
    rw [List.append_assoc, List.foldlM_append, hvalue]
    rw [List.append_assoc] at hrest
    exact hrest

end

/-! ## From outlines to values -/

mutual

theorem value?_outline : ∀ (n : Nested) (limit : Nat), n.depth ≤ limit →
    n.outline.value? limit = some n.value
  | leaf text, limit, _ => by rw [Nested.outline, Nested.value, Outline.value?]; rfl
  | object ms, limit, h => by
    rw [depth] at h
    rw [Nested.outline, Nested.value, Outline.value?, if_neg (by omega),
      memberValues?_memberOutlines ms (limit - 1) (by omega)]
    rfl

theorem memberValues?_memberOutlines : ∀ (ms : List (String × Nested)) (limit : Nat),
    memberDepth ms ≤ limit →
    Outline.memberValues? limit (memberOutlines ms) = some (memberValues ms)
  | [], limit, _ => by rw [memberOutlines, memberValues, Outline.memberValues?]
  | (k, v) :: ms, limit, h => by
    rw [memberDepth, max_le_iff] at h
    rw [memberOutlines, memberValues, Outline.memberValues?, value?_outline v limit h.1,
      memberValues?_memberOutlines ms limit h.2]
    rfl

end

/-- The pretty form of a tree is read as its value, up to the usual limit of depth. -/
theorem parse?_pretty {n : Nested} (h : n.depth ≤ depthLimit) (level : Nat) :
    parse? (n.pretty level) = some n.value := by
  have htokens : tokens? (n.pretty level).toList = some n.tokens := by
    have hspells := writes_pretty level n [] [] .nil
    rw [List.append_nil, List.append_nil] at hspells
    exact tokens?_of_spells hspells
  have houtline : outlineOfTokens? n.tokens = some n.outline := by
    unfold outlineOfTokens? State.start
    rw [foldlM_tokens n []]
    rfl
  unfold parse? read? outline?
  rw [htokens]
  simp only [Option.bind_eq_bind, Option.bind_some, houtline]
  exact value?_outline n depthLimit h

end NestedStyles.Json
