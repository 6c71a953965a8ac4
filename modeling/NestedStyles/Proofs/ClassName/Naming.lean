import NestedStyles.Proofs.Cache.StaleMemo
import NestedStyles.Proofs.ClassName.Assign
import NestedStyles.Proofs.ClassName.Token
/-!
# Tokens never collide

Classes are named through any number of handles on one table, which is cleared from time to time. As
a token is made of the number of names before it, the names of a table have different tokens
(`Indexed`), and this is kept by every call.

* `Indexed.assign`, `Indexed.onTable`: what one call keeps, and what a run keeps;
* `answers_distinguish`: every call succeeds, and two calls without a clear between them answer with
  the same token if and only if they name the same class;
* `answers_collide`: where no folder can be made, or when the folder's epoch has come round, this is
  not so.
-/
namespace NestedStyles.ClassName

open Cache (Answer Follows Location Request Session Store StoreM Table Workspace)

/-! ## Different names, different tokens -/

/-- Every name has the token of its place, and no name is repeated. -/
structure Indexed (t : Table) : Prop where
  nodup : (OrderedMap.keys t).Nodup
  tokens : t.map Prod.snd = (List.range t.length).map token

theorem indexed_nil : Indexed [] := ⟨List.nodup_nil, rfl⟩

theorem Indexed.assign {t : Table} (h : Indexed t) (name : String) : Indexed (assign t name) := by
  refine ⟨(grows_assign t name).nodup h.nodup, ?_⟩
  unfold ClassName.assign
  cases hk : OrderedMap.get? t name with
  | some found => exact h.tokens
  | none => simp [h.tokens, List.range_succ]

theorem Indexed.getElem {t : Table} (h : Indexed t) {i : Nat} (hi : i < t.length) :
    (t[i]).2 = token i := by
  have hmap : (t.map Prod.snd)[i]? = some (t[i]).2 := by simp [hi]
  rw [h.tokens] at hmap
  have hrange : ((List.range t.length).map token)[i]? = some (token i) := by simp [hi]
  exact (Option.some.inj (hrange.symm.trans hmap)).symm

/-- Two names with one token are the same. -/
theorem Indexed.inj {t : Table} (h : Indexed t) {a b text : String}
    (ha : OrderedMap.get? t a = some text) (hb : OrderedMap.get? t b = some text) : a = b := by
  obtain ⟨i, hi, hia⟩ := List.mem_iff_getElem.1 (OrderedMap.mem_of_get?_eq_some ha)
  obtain ⟨j, hj, hjb⟩ := List.mem_iff_getElem.1 (OrderedMap.mem_of_get?_eq_some hb)
  have htoken : token i = token j := by
    rw [← h.getElem hi, ← h.getElem hj, hia, hjb]
  have hij : i = j := token_injective htoken
  subst hij
  exact congrArg Prod.fst (hia.symm.trans hjb)

/-! ## Calls -/

/-- What a program asks of the table for class names. -/
inductive Call where
  /-- A new handle, in place of an earlier one with its number. -/
  | attach (i lockTimeout staleAfter : Nat)
  /-- The token for a class name. -/
  | compress (i : Nat) (name : String)
  | clear (i : Nat)

/-- A call as a request to the table. -/
def Call.request : Call → Request
  | attach i lockTimeout staleAfter => .attach i lockTimeout staleAfter
  | compress i name => .fetch i name fun names => token names.length
  | clear i => .clear i

/-- Naming a class is to run `compressed` through a handle. -/
theorem perform_compress (loc : Location) (s : Session) (i : Nat) (name : String) :
    s.perform loc (Call.compress i name).request
      = ((s.use i (compressed name)).1.map .token, (s.use i (compressed name)).2) := rfl

def tableAfter (calls : List Call) : Table := (Cache.onTable [] (calls.map Call.request)).2

theorem tableAfter_append (calls calls' : List Call) : tableAfter (calls ++ calls')
    = (Cache.onTable (tableAfter calls) (calls'.map Call.request)).2 := by
  rw [tableAfter, List.map_append, Cache.onTable_append]
  rfl

theorem onTable_compress (t : Table) (i : Nat) (name : String) :
    (Call.compress i name).request.onTable t = (.token (tokenOf t name), assign t name) := by
  change (Cache.Answer.token (t.fetch name _).1, (t.fetch name _).2) = _
  rw [fetch_token]

theorem Indexed.onTable {t : Table} (h : Indexed t) (c : Call) :
    Indexed (c.request.onTable t).2 := by
  cases c with
  | attach i lockTimeout staleAfter => exact h
  | compress i name =>
    rw [onTable_compress]
    exact h.assign name
  | clear i => exact indexed_nil

theorem indexed_tableAfter (calls : List Call) : Indexed (tableAfter calls) := by
  suffices ∀ t, Indexed t → Indexed (Cache.onTable t (calls.map Call.request)).2 from
    this [] indexed_nil
  induction calls with
  | nil => exact fun _ h => h
  | cons c calls ih => exact fun t h => ih _ (h.onTable c)

/-- Without a clear the table only grows. -/
theorem grows_onTable (t : Table) {calls : List Call} (h : ∀ c ∈ calls, ∀ i, c ≠ .clear i) :
    t.Grows (Cache.onTable t (calls.map Call.request)).2 := by
  induction calls generalizing t with
  | nil => exact Table.Grows.refl t
  | cons c calls ih =>
    have hrest := ih (c.request.onTable t).2 fun c hc => h c (List.mem_cons_of_mem _ hc)
    cases c with
    | attach i lockTimeout staleAfter => exact hrest
    | compress i name => exact (t.grows_fetch name _).trans hrest
    | clear i => exact absurd rfl (h _ List.mem_cons_self i)

/-! ## Runs -/

def answers (loc : Location) (w : Workspace) (calls : List Call) : List (Except Fault Answer) :=
  ((Session.start loc w).run loc (calls.map Call.request)).1

theorem answers_eq {loc : Location} {w : Workspace} (hfresh : loc.Fresh w) {calls : List Call}
    (hfits : loc.Fits (calls.map Call.request)) :
    answers loc w calls = (Cache.onTable [] (calls.map Call.request)).1.map .ok :=
  (Session.run_start hfresh _ hfits).1

theorem getElem?_answers {loc : Location} {w : Workspace} (hfresh : loc.Fresh w) {calls : List Call}
    (hfits : loc.Fits (calls.map Call.request)) {i h : Nat} {name : String}
    (hi : calls[i]? = some (.compress h name)) :
    (answers loc w calls)[i]? = some (.ok (.token (tokenOf (tableAfter (calls.take i)) name))) := by
  rw [answers_eq hfresh hfits, List.getElem?_map, Cache.getElem?_onTable, List.getElem?_map, hi,
    ← List.map_take]
  change some (Except.ok ((Call.compress h name).request.onTable (tableAfter (calls.take i))).1) = _
  rw [onTable_compress]

/-- What has been named is in the table until it is cleared. -/
theorem grows_tableAfter {calls : List Call} {i j h : Nat} {name : String} (hij : i < j)
    (hi : calls[i]? = some (.compress h name))
    (hclear : ∀ k, i < k → k < j → ∀ h, calls[k]? ≠ some (.clear h)) :
    (assign (tableAfter (calls.take i)) name).Grows (tableAfter (calls.take j)) := by
  have hnext : calls.take (i + 1) = calls.take i ++ [.compress h name] := by
    rw [List.take_add_one, hi]
    rfl
  have hsplit : calls.take j = calls.take (i + 1) ++ (calls.take j).drop (i + 1) := by
    have := List.take_append_drop (i + 1) (calls.take j)
    rw [List.take_take, Nat.min_eq_left hij] at this
    exact this.symm
  have hbetween : ∀ c ∈ (calls.take j).drop (i + 1), ∀ h, c ≠ .clear h := by
    rintro c hc h rfl
    obtain ⟨m, hm⟩ := List.mem_iff_getElem?.1 hc
    rw [List.getElem?_drop, List.getElem?_take] at hm
    split at hm
    · exact hclear (i + 1 + m) (by omega) ‹_› h hm
    · cases hm
  have htable : tableAfter (calls.take (i + 1)) = assign (tableAfter (calls.take i)) name := by
    rw [hnext, tableAfter_append]
    exact congrArg Prod.snd (onTable_compress _ h name)
  rw [hsplit, tableAfter_append, htable]
  exact grows_onTable _ hbetween

/-- Every call succeeds, and tokens tell class names apart until the table is cleared. -/
theorem answers_distinguish {loc : Location} {w : Workspace} (hfresh : loc.Fresh w)
    {calls : List Call} (hfits : loc.Fits (calls.map Call.request)) :
    (∀ answer ∈ answers loc w calls, ∃ a, answer = .ok a)
      ∧ ∀ (i j h₁ h₂ : Nat) (name₁ name₂ : String), i < j →
        calls[i]? = some (.compress h₁ name₁) → calls[j]? = some (.compress h₂ name₂) →
        (∀ k, i < k → k < j → ∀ h, calls[k]? ≠ some (.clear h)) →
        ∃ token₁ token₂, (answers loc w calls)[i]? = some (.ok (.token token₁))
          ∧ (answers loc w calls)[j]? = some (.ok (.token token₂))
            ∧ (token₁ = token₂ ↔ name₁ = name₂) := by
  refine ⟨fun answer hmem => ?_, fun i j h₁ h₂ name₁ name₂ hij hi hj hclear => ⟨_, _,
    getElem?_answers hfresh hfits hi, getElem?_answers hfresh hfits hj, ?_⟩⟩
  · rw [answers_eq hfresh hfits, List.mem_map] at hmem
    obtain ⟨a, -, rfl⟩ := hmem
    exact ⟨a, rfl⟩
  · have hgrows := grows_tableAfter hij hi hclear
    have hfirst := hgrows.get? (get?_assign (tableAfter (calls.take i)) name₁)
    constructor
    · intro htoken
      -- both names have this token in the table after the second call
      have hboth := (grows_assign _ name₂).get? hfirst
      rw [htoken] at hboth
      exact ((indexed_tableAfter (calls.take j)).assign name₂).inj hboth (get?_assign _ name₂)
    · rintro rfl
      rw [tokenOf, tokenOf, hfirst]
      rfl

theorem answers_distinguish_two : (Location.disk "c" "n").Fresh Workspace.bare
    ∧ (∀ answer ∈ answers (.disk "c" "n") .bare [.compress 0 "a", .attach 1 0 0, .compress 1 "b"],
        ∃ a, answer = .ok a)
    ∧ ∃ token₁ token₂,
        (answers (.disk "c" "n") .bare [.compress 0 "a", .attach 1 0 0, .compress 1 "b"])[0]?
          = some (.ok (.token token₁))
        ∧ (answers (.disk "c" "n") .bare [.compress 0 "a", .attach 1 0 0, .compress 1 "b"])[2]?
          = some (.ok (.token token₂))
        ∧ (token₁ = token₂ ↔ "a" = "b") := by
  have hfits : (Location.disk "c" "n").Fits
      ([Call.compress 0 "a", .attach 1 0 0, .compress 1 "b"].map Call.request) := by decide
  have h := answers_distinguish Cache.fresh_bare hfits
  refine ⟨Cache.fresh_bare, h.1, h.2 0 2 0 1 "a" "b" (by decide) rfl rfl ?_⟩
  intro k h0 h2 handle
  obtain rfl : k = 1 := by omega
  exact fun hk => by cases hk

/-- When the epoch has come round, two names can have one token. -/
theorem answers_stale {n : Nat} (hn : 0 < n) (hround : n % UInt64.size = 0) :
    answers (.disk "c" "n") .bare
      (Call.compress 0 "a" :: List.replicate n (Call.clear 1) ++ [Call.compress 1 "b"]
        ++ [Call.compress 0 "a"])
      = (Answer.token "_0" :: List.replicate n Answer.done ++ [Answer.token "_0"]
        ++ [Answer.token "_0"]).map .ok := by
  have htoken : token ([] : List String).length = "_0" := by cbv
  have hstale := Session.stale_memo Cache.fresh_bare hn hround "a" "b" fun names =>
    token names.length
  simp only [htoken] at hstale
  unfold answers
  rw [List.map_append, List.map_append, List.map_cons, List.map_replicate]
  exact hstale

/-- A file in the way of the folder makes a call fail, and after 2 ^ 64 clears two names can have
one token. -/
theorem answers_collide :
    ((Workspace.blocked.tree.site "c/n").isPresent = false
      ∧ answers (.disk "c" "n") .blocked [.compress 0 "a"]
        = [.error (.cacheStorage "c/n/.epoch" .notADirectory)])
    ∧ ((Location.disk "c" "n").Fresh Workspace.bare
      ∧ answers (.disk "c" "n") .bare
        (Call.compress 0 "a" :: List.replicate UInt64.size (Call.clear 1)
          ++ [Call.compress 1 "b"] ++ [Call.compress 0 "a"])
        = (Answer.token "_0" :: List.replicate UInt64.size Answer.done ++ [Answer.token "_0"]
          ++ [Answer.token "_0"]).map .ok) := by
  have hpos : 0 < UInt64.size := by decide
  exact ⟨⟨rfl, rfl⟩, Cache.fresh_bare, answers_stale hpos (Nat.mod_self _)⟩

end NestedStyles.ClassName
