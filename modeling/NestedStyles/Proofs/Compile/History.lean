import NestedStyles.Proofs.Compile.Compression
/-!
# Histories of a table of class names

Programs name classes and compile sources through handles on one table, open further handles, and
clear the table; meanwhile time passes. A history is a list of such jobs, in any order.

* `Session.performJob` and `Session.work` are one job and a list of them, `history` starts with
  handles that have read nothing, and `sessionAt` is what a history has come to before a job;
* `Job.outcome` and `Job.left` say what a job gives on a table in memory, and what it leaves;
* `performJob_spec`, `holds_sessionAt`: in a session that holds a table it gives and leaves just
  this, while there is room.
-/
namespace NestedStyles

open Cache (Answer Location Session Store StoreM Table Workspace)
open ClassName (Call)

/-! ## Jobs -/

/-- A job for the table of class names. -/
inductive Job where
  /-- A call for a token, a new handle, or a clear. -/
  | call (c : Call)
  /-- A source is compiled through a handle. -/
  | compile (i : Nat) (o : Options) (file : String) (raw : Json.Value)
  /-- The host becomes another one, as when time passes between two processes. -/
  | elapse (host : Storage.Host)

inductive Outcome where
  | answer (a : Answer)
  | compiled (c : CompiledSource)

theorem Outcome.compiled_eq_ok {r : Except Fault CompiledSource} {c : CompiledSource} :
    r.map Outcome.compiled = .ok (.compiled c) ↔ r = .ok c := by
  cases r with
  | error fault => simp [Except.map]
  | ok c' => simp [Except.map]

def Job.isClear : Job → Bool
  | call c => c.request.isClear
  | _ => false

variable (e : Css.Engine) (loc : Location)

/-- Performs a job on the table at a location. -/
def Cache.Session.performJob (s : Session) : Job → Except Fault Outcome × Session
  | .call c =>
    let (result, s) := s.perform loc c.request
    (result.map .answer, s)
  | .compile i o file raw =>
    let (result, s) := s.use i (compileSource e o file raw)
    (result.map .compiled, s)
  | .elapse host => (.ok (.answer .done), { s with workspace := { s.workspace with host } })

/-- Performs jobs one after the other: the outcomes, and the session afterwards. -/
def Cache.Session.work (s : Session) : List Job → List (Except Fault Outcome) × Session
  | [] => ([], s)
  | job :: jobs =>
    let (outcome, s) := s.performJob e loc job
    let (outcomes, s) := s.work jobs
    (outcome :: outcomes, s)

namespace Cache.Session

variable (s : Session)

theorem performJob_call (c : Call) : s.performJob e loc (.call c)
    = ((s.perform loc c.request).1.map .answer, (s.perform loc c.request).2) := rfl

theorem performJob_compile (i : Nat) (o : Options) (file : String) (raw : Json.Value) :
    s.performJob e loc (.compile i o file raw)
      = ((s.use i (compileSource e o file raw)).1.map .compiled,
        (s.use i (compileSource e o file raw)).2) := rfl

theorem work_append (jobs jobs' : List Job) : s.work e loc (jobs ++ jobs')
    = ((s.work e loc jobs).1 ++ ((s.work e loc jobs).2.work e loc jobs').1,
      ((s.work e loc jobs).2.work e loc jobs').2) := by
  induction jobs generalizing s with
  | nil => rfl
  | cons job jobs ih =>
    change (_ :: ((s.performJob e loc job).2.work e loc (jobs ++ jobs')).1,
      ((s.performJob e loc job).2.work e loc (jobs ++ jobs')).2) = _
    rw [ih]
    rfl

/-- The outcome of a job is that in the session by then. -/
theorem getElem?_work (jobs : List Job) (i : Nat) : (s.work e loc jobs).1[i]?
    = jobs[i]?.map fun job => ((s.work e loc (jobs.take i)).2.performJob e loc job).1 := by
  induction jobs generalizing s i with
  | nil => rfl
  | cons job jobs ih =>
    cases i with
    | zero => rfl
    | succ i => exact ih _ i

end Cache.Session

/-! ## Histories -/

/-- A history from handles that have read nothing yet. -/
def history (w : Workspace) (jobs : List Job) : List (Except Fault Outcome) × Session :=
  (Session.start loc w).work e loc jobs

/-- The session of a history before the job with a number. -/
def sessionAt (w : Workspace) (jobs : List Job) (n : Nat) : Session :=
  (history e loc w (jobs.take n)).2

variable (w : Workspace) {jobs : List Job}

theorem sessionAt_length : sessionAt e loc w jobs jobs.length = (history e loc w jobs).2 := by
  rw [sessionAt, List.take_length]

/-- The session before a later job is that before an earlier one after the jobs in between. -/
theorem sessionAt_of_le {m n : Nat} (h : m ≤ n) : sessionAt e loc w jobs n
    = ((sessionAt e loc w jobs m).work e loc ((jobs.take n).drop m)).2 := by
  have hsplit := List.take_append_drop m (jobs.take n)
  rw [List.take_take, Nat.min_eq_left h] at hsplit
  rw [sessionAt, ← hsplit, history, Session.work_append, hsplit]
  rfl

theorem sessionAt_succ {m : Nat} {job : Job} (h : jobs[m]? = some job) :
    sessionAt e loc w jobs (m + 1) = ((sessionAt e loc w jobs m).performJob e loc job).2 := by
  rw [sessionAt, List.take_add_one, h, history, Session.work_append]
  rfl

/-- What comes of a job. -/
theorem getElem?_history {n : Nat} {job : Job} (h : jobs[n]? = some job) :
    (history e loc w jobs).1[n]?
      = some ((sessionAt e loc w jobs n).performJob e loc job).1 := by
  rw [history, Session.getElem?_work, h]
  rfl

/-! ## What jobs do to a table -/

variable (t : Table)

/-- What a job gives on a table in memory. -/
def Job.outcome : Job → Except Fault Outcome
  | call c => .ok (.answer (c.request.onTable t).1)
  | compile _ o file raw => (compileSource e o file raw (.memory t)).1.map .compiled
  | elapse _ => .ok (.answer .done)

/-- What becomes of a table in memory. -/
def Job.left : Job → Table
  | call c => (c.request.onTable t).2
  | compile _ o file raw => tableLeft (compileSource e o file raw) t
  | elapse _ => t

/-- The table of a history before the job with a number. -/
def tableAt (jobs : List Job) (n : Nat) : Table := (jobs.take n).foldl (Job.left e) []

/-- There is room for all that a history keeps at a location. -/
def FitsHistory (jobs : List Job) : Prop :=
  ∀ n ≤ jobs.length, loc.HasRoom (jobs.countP Job.isClear) (tableAt e jobs n).length

theorem tableAt_succ {n : Nat} {job : Job} (h : jobs[n]? = some job) :
    tableAt e jobs (n + 1) = job.left e (tableAt e jobs n) := by
  rw [tableAt, List.take_add_one, h, List.foldl_append]
  rfl

variable {e loc t}

/-- In memory a source compiles to what its action gives, and leaves what it leaves. -/
theorem compileSource_memory (o : Options) (file : String) (raw : Json.Value) :
    compileSource e o file raw (.memory t) = ((compileSource e o file raw (.memory t)).1,
      .memory (tableLeft (compileSource e o file raw) t)) := by
  obtain ⟨r, t', hmem, -⟩ := follows_compileSource e o file raw t
  rw [tableLeft_eq hmem, hmem]

theorem grows_left (e : Css.Engine) (t : Table) {job : Job} (h : job.isClear = false) :
    t.Grows (job.left e t) := by
  cases job with
  | call c =>
    cases c with
    | attach i lockTimeout staleAfter => exact .refl t
    | compress i name => exact t.grows_fetch name _
    | clear i => cases h
  | compile i o file raw =>
    obtain ⟨r, t', hmem, hgrows, -⟩ := follows_compileSource e o file raw t
    change t.Grows (tableLeft _ t)
    rwa [tableLeft_eq hmem]
  | elapse host => exact .refl t

/-- Without a clear the table only grows. -/
theorem grows_tableAt {m n : Nat} (hmn : m ≤ n)
    (h : ∀ k, m ≤ k → k < n → ∀ job, jobs[k]? = some job → job.isClear = false) :
    (tableAt e jobs m).Grows (tableAt e jobs n) := by
  induction n, hmn using Nat.le_induction with
  | base => exact .refl _
  | succ n hmn ih =>
    refine (ih fun k hk hkn => h k hk (Nat.lt_succ_of_lt hkn)).trans ?_
    cases hjob : jobs[n]? with
    | some job =>
      rw [tableAt_succ e hjob]
      exact grows_left e _ (h n hmn n.lt_succ_self job hjob)
    | none =>
      rw [tableAt, tableAt, List.take_add_one, hjob, Option.toList_none, List.append_nil]
      exact .refl _

theorem fitsHistory_of_forall (h : ∀ job ∈ jobs, job.isClear = false)
    (hroom : loc.HasRoom 0 (tableAt e jobs jobs.length).length) : FitsHistory e loc jobs := by
  intro n hn
  have hgrows : (tableAt e jobs n).Grows (tableAt e jobs jobs.length) :=
    grows_tableAt hn fun k _ _ job hjob => h job (List.mem_of_getElem? hjob)
  have hclears : jobs.countP Job.isClear = 0 := by
    simpa [List.countP_eq_zero] using h
  exact hroom.mono hclears.le hgrows.length_le

/-- A job does to the table of a session what it does to a table in memory. -/
theorem performJob_spec {s : Session} {clears : Nat} (h : s.Holds t clears loc) (job : Job)
    (hroom : loc.HasRoom (clears + [job].countP Job.isClear) (job.left e t).length) :
    (s.performJob e loc job).1 = job.outcome e t ∧ (s.performJob e loc job).2.Holds (job.left e t)
      (clears + [job].countP Job.isClear) loc := by
  cases job with
  | call c =>
    obtain ⟨s', hs', hholds⟩ := Session.perform_spec h c.request hroom
    rw [Session.performJob_call, hs']
    exact ⟨rfl, hholds⟩
  | compile i o file raw =>
    obtain ⟨s', hs', hholds⟩ := Session.use_spec h (follows_compileSource e o file raw)
      (compileSource_memory o file raw) hroom i
    rw [Session.performJob_compile, hs']
    exact ⟨rfl, hholds⟩
  | elapse host =>
    refine ⟨rfl, ?_⟩
    -- where the table is, nothing is said of the host
    cases loc with
    | memory name => exact h
    | disk dir name =>
      obtain ⟨l, hshares, hrest⟩ := h
      exact ⟨l, ⟨⟨hshares.isName, hshares.keeps, hshares.shows⟩, hshares.handles⟩, hrest⟩

theorem countP_take_succ {n : Nat} {job : Job} (h : jobs[n]? = some job) :
    (jobs.take (n + 1)).countP Job.isClear
      = (jobs.take n).countP Job.isClear + [job].countP Job.isClear := by
  rw [List.take_add_one, h, ← List.countP_append]
  rfl

/-- There is room for each job. -/
theorem FitsHistory.hasRoom (h : FitsHistory e loc jobs) {n : Nat} {job : Job}
    (hn : jobs[n]? = some job) :
    loc.HasRoom ((jobs.take n).countP Job.isClear + [job].countP Job.isClear)
      (job.left e (tableAt e jobs n)).length := by
  have hclears : (jobs.take (n + 1)).countP Job.isClear ≤ jobs.countP Job.isClear :=
    (List.take_sublist _ _).countP_le
  rw [← tableAt_succ e hn, ← countP_take_succ hn]
  exact (h (n + 1) (List.getElem?_eq_some_iff.1 hn).1).mono hclears (Nat.le_refl _)

variable {w}

/-- A history that starts with nothing kept holds the table that its jobs leave in memory. -/
theorem holds_sessionAt (hfresh : loc.Fresh w) (hfits : FitsHistory e loc jobs) {n : Nat}
    (hn : n ≤ jobs.length) :
    (sessionAt e loc w jobs n).Holds (tableAt e jobs n) ((jobs.take n).countP Job.isClear) loc := by
  induction n with
  | zero => exact Session.holds_start hfresh
  | succ n ih =>
    have hjob : jobs[n]? = some jobs[n] := List.getElem?_eq_getElem hn
    rw [sessionAt_succ e loc w hjob, tableAt_succ e hjob, countP_take_succ hjob]
    exact (performJob_spec (ih (Nat.le_of_succ_le hn)) jobs[n] (hfits.hasRoom hjob)).2

/-- What comes of a job is what the table in memory would give. -/
theorem getElem?_history_of_fresh (hfresh : loc.Fresh w) (hfits : FitsHistory e loc jobs) {n : Nat}
    {job : Job} (h : jobs[n]? = some job) :
    (history e loc w jobs).1[n]? = some (job.outcome e (tableAt e jobs n)) := by
  have hholds := holds_sessionAt hfresh hfits (List.getElem?_eq_some_iff.1 h).1.le
  rw [getElem?_history e loc w h]
  exact congrArg some (performJob_spec hholds job (hfits.hasRoom h)).1

/-- Two sources are compiled, and the first of them again, through a handle that is new by then. -/
def compiledAgain : List Job :=
  [.compile 0 { compressClassNames := true } "f"
      (.object [("s", .object [("a", .object [("top", .string "1")])])]),
    .call (.attach 1 0 0),
    .compile 1 { compressClassNames := true } "g" (.object [("s", .object [("a", .object [])])]),
    .compile 1 { compressClassNames := true } "f"
      (.object [("s", .object [("a", .object [("top", .string "1")])])])]

theorem isClear_compiledAgain : ∀ job ∈ compiledAgain, job.isClear = false := by decide

theorem tableAt_compiledAgain :
    tableAt Css.engine compiledAgain 4 = [("f-s-a", "_0"), ("g-s-a", "_1")] := by cbv

theorem fits_compiledAgain : FitsHistory Css.engine (.disk "c" "n") compiledAgain := by
  refine fitsHistory_of_forall isClear_compiledAgain ?_
  change Location.HasRoom 0 (tableAt Css.engine compiledAgain 4).length _
  rw [tableAt_compiledAgain]
  exact ⟨by decide, by decide⟩

end NestedStyles
