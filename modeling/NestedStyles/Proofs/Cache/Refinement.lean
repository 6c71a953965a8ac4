import NestedStyles.Proofs.Cache.StaleMemo
/-!
# A folder does what memory does

Handles on a folder answer requests as handles on a table in memory do, request by request, and ask
for new tokens with the same keys. Between requests the folder holds the records of that table, in
its order, and no file but these and the epoch.

* `Asks`: which keys a token is computed from, told by what the outcome depends on;
* `Session.perform_fetch_asks`: a fetch asks for the keys that the table has, unless it has the
  token already;
* `Session.Holds.files`: what is in the folder;
* `disk_refines_memory` puts these together for every request of a run;
* `disk_differs_from_memory`: without a folder that can be made, or after the epoch has come round,
  it is not so.
-/
namespace NestedStyles.Cache

open Storage (Folder Path.join)

/-! ## Asking for tokens -/

/-- The outcome depends on what `compute` makes of the keys `asked`, and on nothing else of it; on
nothing at all if there is nothing that is asked. -/
def Asks {β : Type} (outcome : (List String → String) → β) (asked : Option (List String)) : Prop :=
  ∀ c c', outcome c = outcome c' ↔ asked.map c = asked.map c'

namespace Session

variable {s : Session} {t : Table} {clears : Nat} {loc : Location}

/-- What is computed elsewhere does not matter to a fetch through any handle. -/
theorem perform_fetch_congr (h : s.Holds t clears loc) (i : Nat) {key : String}
    {c c' : List String → String} (hc : (t.asked key).map c = (t.asked key).map c') :
    s.perform loc (.fetch i key c) = s.perform loc (.fetch i key c') := by
  have huse : s.use i (Store.fetch key c) = s.use i (Store.fetch key c') := by
    cases loc with
    | memory name =>
      obtain ⟨hhandles, htable⟩ := h
      have hfetch : Store.fetch key c (.memory t) = Store.fetch key c' (.memory t) := by
        unfold Store.fetch
        simp only [Table.fetch_congr hc]
      unfold use Workspace.use
      simp only [hhandles i, htable, hfetch]
    | disk dir name =>
      obtain ⟨l, hshares, hw, rfl, -⟩ := h
      obtain ⟨store, hstore, hdir, hvalid⟩ := hshares.handles i
      have hdisk := Disk.fetch_congr
        (d := ⟨store, s.workspace.tree.site (Path.join dir name), s.workspace.host⟩)
        hshares.shows hw hvalid hc
      have hfetch : Store.fetch key c
          (.disk ⟨store, s.workspace.tree.site (Path.join dir name), s.workspace.host⟩)
          = Store.fetch key c'
            (.disk ⟨store, s.workspace.tree.site (Path.join dir name), s.workspace.host⟩) := by
        unfold Store.fetch
        simp only [hdisk]
      unfold use Workspace.use
      simp only [hstore, hdir, hfetch]
  unfold perform
  simp only [huse]

/-- A fetch through any handle asks for the keys of the table, unless the table has the token. -/
theorem perform_fetch_asks (h : s.Holds t clears loc) (hroom : loc.HasRoom clears (t.length + 1))
    (i : Nat) (key : String) :
    Asks (fun c => s.perform loc (.fetch i key c)) (t.asked key) := by
  intro c c'
  refine ⟨fun heq => ?_, perform_fetch_congr h i⟩
  have hanswer : ∀ c, (s.perform loc (.fetch i key c)).1 = .ok (.token (t.fetch key c).1) := by
    intro c
    obtain ⟨s', hs', -⟩ := perform_spec h (.fetch i key c)
      (hroom.mono (Nat.le_refl _) (t.length_fetch_le key c))
    rw [hs']
    rfl
  have hanswers := congrArg Prod.fst heq
  simp only [hanswer, Except.ok.injEq, Answer.token.injEq] at hanswers
  exact Table.map_asked_of_fetch_eq hanswers

/-! ## The files -/

/-- The folder, if it has been made, holds the files of a ledger with this table, in their order;
among them there is neither a lock nor a draft. -/
def Keeps (s : Session) (dir name : String) (t : Table) : Prop :=
  ∃ l : Ledger, l.table = t ∧ match s.workspace.tree.site (Path.join dir name) with
    | .folder es => Storage.Folder.texts es = l.files.map (fun f => (f.1, some f.2))
        ∧ Disk.lockName ∉ OrderedMap.keys es ∧ ∀ file, file ++ ".tmp" ∉ OrderedMap.keys es
    | site => site.isPresent = false ∧ t = []

theorem Holds.files {dir name : String} (h : s.Holds t clears (.disk dir name)) :
    s.Keeps dir name t := by
  obtain ⟨l, hshares, -, rfl, -⟩ := h
  refine ⟨l, rfl, ?_⟩
  rcases hshares.shows.cases with ⟨es, hsite, hes⟩ | ⟨⟨tried, hsite⟩, rfl⟩
  · rw [hsite]
    exact ⟨hes, hes.lock_not_mem, hes.draft_not_mem⟩
  · rw [hsite]
    exact ⟨rfl, rfl⟩

end Session

/-! ## Runs -/

/-- The session after the first `n` of a list of requests. -/
def Session.after (loc : Location) (w : Workspace) (rs : List Request) (n : Nat) : Session :=
  ((Session.start loc w).run loc (rs.take n)).2

theorem countP_take_le (p : Request → Bool) (rs : List Request) (n : Nat) :
    (rs.take n).countP p ≤ rs.countP p :=
  (List.take_sublist n rs).countP_le

theorem Session.holds_after {loc : Location} {w : Workspace} (hfresh : loc.Fresh w)
    (rs : List Request) (hfits : loc.Fits rs) (n : Nat) :
    (Session.after loc w rs n).Holds (onTable [] (rs.take n)).2
      ((rs.take n).countP Request.isClear) loc :=
  (Session.run_start hfresh _ (hfits.mono (countP_take_le _ rs n) (countP_take_le _ rs n))).2

theorem length_onTable_snd_le (t : Table) (rs : List Request) :
    (onTable t rs).2.length ≤ t.length + rs.countP Request.isFetch := by
  induction rs generalizing t with
  | nil => exact Nat.le_refl _
  | cons r rs ih =>
    have hlen := r.length_onTable_le t
    have hrest := ih (r.onTable t).2
    rw [countP_cons]
    change (onTable (r.onTable t).2 rs).2.length ≤ _
    omega

/-- Before a fetch there is room for one more key. -/
theorem Location.HasRoom.take {loc : Location} {rs : List Request} (h : loc.Fits rs) {n i : Nat}
    {key : String} {compute : List String → String} (hn : rs[n]? = some (.fetch i key compute)) :
    loc.HasRoom ((rs.take n).countP Request.isClear) ((onTable [] (rs.take n)).2.length + 1) := by
  have hnext : rs.take (n + 1) = rs.take n ++ [.fetch i key compute] := by
    rw [List.take_add_one, hn]
    rfl
  have hfetches : (rs.take n).countP Request.isFetch + 1 ≤ rs.countP Request.isFetch := by
    have := countP_take_le Request.isFetch rs (n + 1)
    rwa [hnext, List.countP_append] at this
  have hlen := length_onTable_snd_le [] (rs.take n)
  rw [List.length_nil, Nat.zero_add] at hlen
  exact h.mono (countP_take_le _ rs n) (by omega)

/-- Through handles on a folder requests have the answers that they have through handles on a table
in memory; tokens are computed at the same requests and from the same keys; and the folder holds the
table. -/
theorem disk_refines_memory {dir name table : String} {w w' : Workspace}
    (hfresh : (Location.disk dir name).Fresh w) (hmemory : (Location.memory table).Fresh w')
    {rs : List Request} (hfits : (Location.disk dir name).Fits rs) :
    ((Session.start (.disk dir name) w).run (.disk dir name) rs).1
        = ((Session.start (.memory table) w').run (.memory table) rs).1
      ∧ ∀ n, ∃ t : Table,
        (OrderedMap.get? (Session.after (.memory table) w' rs n).workspace.tables table).getD [] = t
        ∧ (Session.after (.disk dir name) w rs n).Keeps dir name t
        ∧ ∀ i key compute, rs[n]? = some (.fetch i key compute) →
          Asks (fun c => (Session.after (.disk dir name) w rs n).perform (.disk dir name)
              (.fetch i key c)) (t.asked key)
            ∧ Asks (fun c => (Session.after (.memory table) w' rs n).perform (.memory table)
                (.fetch i key c)) (t.asked key) := by
  refine ⟨?_, fun n => ⟨(onTable [] (rs.take n)).2, ?_, ?_, fun i key compute hn => ⟨?_, ?_⟩⟩⟩
  · rw [(Session.run_start hfresh rs hfits).1, (Session.run_start hmemory rs trivial).1]
  · exact (Session.holds_after hmemory rs trivial n).2
  · exact (Session.holds_after hfresh rs hfits n).files
  · exact Session.perform_fetch_asks (Session.holds_after hfresh rs hfits n)
      (Location.HasRoom.take hfits hn) i key
  · exact Session.perform_fetch_asks (Session.holds_after hmemory rs trivial n) trivial i key

theorem disk_refines_memory_five :
    (Location.disk "c" "n").Fresh .bare ∧ (Location.memory "n").Fresh .bare
      ∧ ((Session.start (.disk "c" "n") .bare).run (.disk "c" "n")
          [.fetch 0 "a\n\"é" (String.join ·), .attach 1 0 0, .fetch 1 "b" (String.join ·),
            .clear 0, .count 1]).1
        = ((Session.start (.memory "n") .bare).run (.memory "n")
          [.fetch 0 "a\n\"é" (String.join ·), .attach 1 0 0, .fetch 1 "b" (String.join ·),
            .clear 0, .count 1]).1 := by
  have hmemory : (Location.memory "n").Fresh .bare := rfl
  have hfits : (Location.disk "c" "n").Fits [.fetch 0 "a\n\"é" (String.join ·), .attach 1 0 0,
      .fetch 1 "b" (String.join ·), .clear 0, .count 1] := by decide
  exact ⟨fresh_bare, hmemory, (disk_refines_memory fresh_bare hmemory hfits).1⟩

/-! ## Where they differ -/

theorem onTable_clears (t : Table) (i : Nat) {n : Nat} (hn : 0 < n) :
    onTable t (List.replicate n (.clear i)) = (List.replicate n .done, []) := by
  induction n generalizing t with
  | zero => cases hn
  | succ n ih =>
    cases n with
    | zero => rfl
    | succ n =>
      have hrest := ih [] (Nat.succ_pos n)
      change (Answer.done :: (onTable [] (List.replicate (n + 1) (.clear i))).1,
        (onTable [] (List.replicate (n + 1) (.clear i))).2) = _
      rw [hrest]
      rfl

/-- In memory a key that has been cleared is a new key, however often it has been cleared. -/
theorem memory_forgets {table : String} {w : Workspace} (hfresh : (Location.memory table).Fresh w)
    {n : Nat} (hn : 0 < n) {a b : String} (hab : b ≠ a) (compute : List String → String) :
    ((Session.start (.memory table) w).run (.memory table) (Request.fetch 0 a compute
          :: List.replicate n (Request.clear 1) ++ [Request.fetch 1 b compute]
            ++ [Request.fetch 0 a compute])).1
      = (Answer.token (compute []) :: List.replicate n Answer.done ++ [Answer.token (compute [])]
          ++ [Answer.token (compute [b])]).map .ok := by
  have hlast : ((.fetch 0 a compute : Request).onTable [(b, compute [])]).1
      = .token (compute [b]) := by
    change Answer.token (Table.fetch [(b, compute [])] a compute).1 = _
    rw [Table.fetch_of_not_mem (by simpa using fun h => hab h.symm)]
    rfl
  have hfirst : onTable []
      (Request.fetch 0 a compute :: List.replicate n (Request.clear 1)
        ++ [Request.fetch 1 b compute])
      = (Answer.token (compute []) :: List.replicate n Answer.done ++ [Answer.token (compute [])],
        [(b, compute [])]) := by
    rw [List.cons_append, onTable, onTable_append, onTable_clears _ 1 hn]
    rfl
  rw [(Session.run_start hfresh _ trivial).1, onTable_append, hfirst, ← hlast]
  rfl

/-- The answers of a folder and of a table in memory to the same requests. -/
def answersOfBoth (w : Workspace) (rs : List Request) :
    List (Except Fault Answer) × List (Except Fault Answer) :=
  (((Session.start (.disk "c" "n") w).run (.disk "c" "n") rs).1,
    ((Session.start (.memory "n") w).run (.memory "n") rs).1)

theorem answersOfBoth_stale {n : Nat} (hn : 0 < n) (hround : n % UInt64.size = 0)
    (compute : List String → String) :
    answersOfBoth .bare (Request.fetch 0 "a" compute :: List.replicate n (Request.clear 1)
        ++ [Request.fetch 1 "b" compute] ++ [Request.fetch 0 "a" compute])
      = ((Answer.token (compute []) :: List.replicate n Answer.done ++ [Answer.token (compute [])]
            ++ [Answer.token (compute [])]).map .ok,
          (Answer.token (compute []) :: List.replicate n Answer.done ++ [Answer.token (compute [])]
            ++ [Answer.token (compute ["b"])]).map .ok) := by
  have hmemory : (Location.memory "n").Fresh .bare := rfl
  unfold answersOfBoth
  rw [Session.stale_memo fresh_bare hn hround, memory_forgets hmemory hn (by decide)]

/-- A file in the way of the folder makes a fetch fail that succeeds in memory, and after 2 ^ 64
clears a fetch finds a token that has been cleared. -/
theorem disk_differs_from_memory :
    ((Workspace.blocked.tree.site "c/n").isPresent = false
      ∧ answersOfBoth .blocked [.fetch 0 "a" fun keys => String.join ("t" :: keys)]
        = ([.error (.cacheStorage "c/n/.epoch" .notADirectory)], [.ok (.token "t")]))
    ∧ ((Location.disk "c" "n").Fresh .bare
      ∧ answersOfBoth .bare
        (Request.fetch 0 "a" String.join :: List.replicate UInt64.size (Request.clear 1)
          ++ [Request.fetch 1 "b" String.join] ++ [Request.fetch 0 "a" String.join])
        = ((Answer.token (String.join []) :: List.replicate UInt64.size Answer.done
              ++ [Answer.token (String.join [])] ++ [Answer.token (String.join [])]).map .ok,
            (Answer.token (String.join []) :: List.replicate UInt64.size Answer.done
              ++ [Answer.token (String.join [])] ++ [Answer.token (String.join ["b"])]).map .ok)
      ∧ String.join [] ≠ String.join ["b"]) := by
  have hpos : 0 < UInt64.size := by decide
  exact ⟨⟨rfl, rfl⟩, fresh_bare, answersOfBoth_stale hpos (Nat.mod_self _) String.join, by decide⟩

end NestedStyles.Cache
