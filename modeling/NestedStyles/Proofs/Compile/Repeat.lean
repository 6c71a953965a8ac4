import NestedStyles.Proofs.Cache.Persist
import NestedStyles.Proofs.Compile.History
/-!
# Builds are reproducible

Whatever is in the tree at the start, a source that has been compiled through a handle on a folder
compiles to the same again, through any handle on it and however many jobs have been done or have
failed in between, as long as the folder is not cleared.

* `Session.Retains`: what any job leaves to the next one, all of it by `Persists`;
* `history_repeats`: a source that has been compiled once.

As sequence numbers have 64 bits, the folder may have 2 ^ 64 record files by the end.
-/
namespace NestedStyles

open Cache (Extends HasRoom Location Memo Persists Repeats Session StoreM Workspace recordCount)
open Storage (Path.IsName Path.join)

namespace Cache.Session

def siteOf (s : Session) (dir name : String) : Storage.Site :=
  s.workspace.tree.site (Path.join dir name)

/-- Every handle is one on the folder. -/
def On (s : Session) (dir name : String) : Prop :=
  ∀ i, ∃ store, s.handles i = .disk store ∧ store.dir = Path.join dir name

/-- The memos of all handles hold only tokens that the folder serves. -/
def Sound (s : Session) (dir name : String) : Prop :=
  ∀ i store, s.handles i = .disk store → store.memo.Sound (s.siteOf dir name)

/-- What a job keeps: the handles, and in a folder with room the tokens. -/
structure Retains (s s' : Session) (dir name : String) : Prop where
  on : s'.On dir name
  count : recordCount (s.siteOf dir name) ≤ recordCount (s'.siteOf dir name)
  sound : HasRoom (s'.siteOf dir name) → s.Sound dir name → s'.Sound dir name
  extends_site : HasRoom (s'.siteOf dir name) →
    Extends (s.siteOf dir name) (s'.siteOf dir name)

variable {s s' s'' : Session} {dir name : String}

theorem Retains.refl (h : s.On dir name) : s.Retains s dir name :=
  ⟨h, Nat.le_refl _, fun _ => id, fun _ => .refl _⟩

theorem Retains.trans (h : s.Retains s' dir name) (h' : s'.Retains s'' dir name) :
    s.Retains s'' dir name where
  on := h'.on
  count := h.count.trans h'.count
  sound hroom hs := h'.sound hroom (h.sound (h'.count.trans hroom) hs)
  extends_site hroom := (h.extends_site (h'.count.trans hroom)).trans (h'.extends_site hroom)

theorem on_start (dir name : String) (w : Workspace) : (start (.disk dir name) w).On dir name :=
  fun _ => ⟨_, rfl, rfl⟩

theorem sound_start (dir name : String) (w : Workspace) :
    (start (.disk dir name) w).Sound dir name := by
  rintro i store ⟨⟩
  exact Memo.sound_new _

theorem on_setHandle (h : s.On dir name) (i : Nat) {store : DiskStore}
    (hdir : store.dir = Path.join dir name) : (s.setHandle i (.disk store)).On dir name := by
  intro j
  by_cases hj : j = i
  · exact ⟨store, if_pos hj, hdir⟩
  · obtain ⟨other, hother, hdir'⟩ := h j
    exact ⟨other, (if_neg hj).trans hother, hdir'⟩

theorem use_siteOf {i : Nat} {store : DiskStore} (hstore : s.handles i = .disk store)
    (hdir : store.dir = Path.join dir name) {α : Type} {a : StoreM α} {r : Except Fault α}
    {d' : Disk} (hrun : a (.disk ⟨store, s.siteOf dir name, s.workspace.host⟩) = (r, .disk d')) :
    s.use i a = (r, { s.setHandle i (.disk d'.store) with workspace := { s.workspace with
      tree := s.workspace.tree.setSite (Path.join dir name) d'.site, host := d'.host } }) := by
  rw [siteOf, ← hdir] at hrun
  rw [← hdir]
  exact use_eq hstore hrun

/-- An action through one handle keeps what every handle has read, and its result can be had
again. -/
theorem retains_use (hn : Path.IsName name) (h : s.On dir name) (i : Nat) {α : Type} {a : StoreM α}
    (ha : Persists a) : s.Retains (s.use i a).2 dir name
      ∧ ∀ x, (s.use i a).1 = .ok x → HasRoom ((s.use i a).2.siteOf dir name) → s.Sound dir name →
        Repeats a x ((s.use i a).2.siteOf dir name) := by
  obtain ⟨store, hstore, hdir⟩ := h i
  obtain ⟨r, d', hrun, hkept, hagain⟩ := ha
    ⟨store, s.siteOf dir name, s.workspace.host⟩
    (Storage.FileTree.site_ne_home (Storage.Path.join_ne_empty hn dir))
  rw [use_siteOf hstore hdir hrun]
  set s' : Session := { s.setHandle i (.disk d'.store) with workspace := { s.workspace with
    tree := s.workspace.tree.setSite (Path.join dir name) d'.site, host := d'.host } }
  -- in the tree the folder serves no less than when the action was done with it
  have hput : Extends d'.site (s'.siteOf dir name) := Cache.extends_setSite hn hkept.becomes
  have hroom : HasRoom (s'.siteOf dir name) → HasRoom d'.site := hput.count.trans
  refine ⟨⟨on_setHandle h i (hkept.dir.trans hdir), hkept.count.trans hput.count,
    fun hr hs j other hj => ?_, fun hr => (hkept.extends_site (hroom hr)).trans hput⟩,
    fun x hx hr hs => ?_⟩
  · by_cases hij : j = i
    · cases (if_pos hij : s'.handles j = _).symm.trans hj
      exact (hkept.sound (hroom hr) (hs i store hstore)).mono hput
    · have hother := hs j other ((if_neg hij : s'.handles j = _).symm.trans hj)
      exact hother.mono ((hkept.extends_site (hroom hr)).trans hput)
  · exact (hagain x hx (hroom hr) (hs i store hstore)).mono hput

/-- A session that holds a table has room for it. -/
theorem hasRoom_of_holds {t : Cache.Table} {clears : Nat}
    (h : s.Holds t clears (.disk dir name)) : HasRoom (s.siteOf dir name) := by
  obtain ⟨l, hshares, hw, -, -⟩ := h
  exact Cache.hasRoom_of_shows hshares.shows hw

/-! ## Jobs -/

variable {e : Css.Engine}

/-- A job that does not clear the folder keeps what every handle has read. -/
theorem retains_performJob (hn : Path.IsName name) (h : s.On dir name) {job : Job}
    (hclear : job.isClear = false) :
    s.Retains (s.performJob e (.disk dir name) job).2 dir name := by
  cases job with
  | call c =>
    cases c with
    | attach i lockTimeout staleAfter =>
      refine ⟨on_setHandle h i rfl, Nat.le_refl _, fun _ hs j other hj => ?_, fun _ => .refl _⟩
      by_cases hij : j = i
      · cases (if_pos hij).symm.trans hj
        exact Memo.sound_new _
      · exact hs j other ((if_neg hij).symm.trans hj)
    | compress i key => exact (retains_use hn h i (ClassName.fetching_compressed key).persists).1
    | clear i => cases hclear
  | compile i o file raw =>
    exact (retains_use hn h i (fetching_compileSource e o file raw).persists).1
  | elapse host => exact ⟨h, Nat.le_refl _, fun _ => id, fun _ => .refl _⟩

theorem retains_work (hn : Path.IsName name) (h : s.On dir name) {jobs : List Job}
    (hclear : ∀ job ∈ jobs, job.isClear = false) :
    s.Retains (s.work e (.disk dir name) jobs).2 dir name := by
  induction jobs generalizing s with
  | nil => exact .refl h
  | cons job jobs ih =>
    have hjob := retains_performJob (e := e) hn h (hclear job List.mem_cons_self)
    exact hjob.trans (ih hjob.on fun job' hjob' => hclear job' (List.mem_cons_of_mem _ hjob'))

end Cache.Session

/-! ## Histories -/

section

open Cache.Session

variable {dir name : String} (hname : Path.IsName name) (e : Css.Engine) (w : Workspace)
  {jobs : List Job} (hclear : ∀ job ∈ jobs, job.isClear = false)

include hname hclear

theorem on_sessionAt (n : Nat) : (sessionAt e (.disk dir name) w jobs n).On dir name :=
  (retains_work hname (on_start dir name w) fun job hjob =>
    hclear job (List.mem_of_mem_take hjob)).on

theorem retains_sessionAt {m n : Nat} (h : m ≤ n) : (sessionAt e (.disk dir name) w jobs m).Retains
    (sessionAt e (.disk dir name) w jobs n) dir name := by
  rw [sessionAt_of_le e _ w h]
  exact retains_work hname (on_sessionAt hname e w hclear m) fun job hjob =>
    hclear job (List.mem_of_mem_take (List.mem_of_mem_drop hjob))

theorem sound_sessionAt {n : Nat}
    (hroom : HasRoom ((sessionAt e (.disk dir name) w jobs n).siteOf dir name)) :
    (sessionAt e (.disk dir name) w jobs n).Sound dir name :=
  (retains_work hname (on_start dir name w) fun job hjob =>
    hclear job (List.mem_of_mem_take hjob)).sound hroom (sound_start dir name w)

/-- A source that has been compiled once compiles to the same from then on. -/
theorem history_repeats (hroom : HasRoom ((history e (.disk dir name) w jobs).2.siteOf dir name))
    {m n i j : Nat} {o : Options} {file : String} {raw : Json.Value} {c : CompiledSource}
    (hmn : m < n) (hm : jobs[m]? = some (.compile i o file raw))
    (hn : jobs[n]? = some (.compile j o file raw))
    (hok : (history e (.disk dir name) w jobs).1[m]? = some (.ok (.compiled c))) :
    (history e (.disk dir name) w jobs).1[n]? = some (.ok (.compiled c)) := by
  have hlen : n < jobs.length := (List.getElem?_eq_some_iff.1 hn).1
  have hroomAt : ∀ k ≤ jobs.length,
      HasRoom ((sessionAt e (.disk dir name) w jobs k).siteOf dir name) := by
    intro k hk
    have hcount := (retains_sessionAt hname e w hclear hk : Session.Retains _ _ dir name).count
    rw [sessionAt_length] at hcount
    exact hcount.trans hroom
  -- the first call leaves a folder that repeats its result
  have hrepeats : Repeats (compileSource e o file raw) c
      ((sessionAt e (.disk dir name) w jobs (m + 1)).siteOf dir name) := by
    have hroom' := hroomAt (m + 1) (by omega)
    rw [getElem?_history e _ w hm] at hok
    rw [sessionAt_succ e _ w hm] at hroom' ⊢
    have hrun := Outcome.compiled_eq_ok.1 (Option.some.inj hok)
    exact (retains_use hname (on_sessionAt hname e w hclear m) i
      (fetching_compileSource e o file raw).persists).2 c hrun hroom'
      (sound_sessionAt hname e w hclear (hroomAt m (by omega)))
  -- and the folder serves all that by the time of the second one
  have hextends := (retains_sessionAt hname e w hclear hmn).extends_site (hroomAt n hlen.le)
  obtain ⟨store, hstore, hdir⟩ := on_sessionAt hname e w hclear n j
  obtain ⟨d', hrun, -⟩ := hrepeats
    ⟨store, (sessionAt e (.disk dir name) w jobs n).siteOf dir name,
      (sessionAt e (.disk dir name) w jobs n).workspace.host⟩ (hroomAt n hlen.le) hextends
    (sound_sessionAt hname e w hclear (hroomAt n hlen.le) j store hstore)
  rw [getElem?_history e _ w hn, performJob_compile, use_siteOf hstore hdir hrun]
  rfl

end

theorem history_repeats_two :
    Path.IsName "n" ∧ (∀ job ∈ compiledAgain, job.isClear = false)
    ∧ HasRoom ((history Css.engine (.disk "c" "n") .bare compiledAgain).2.siteOf "c" "n")
    ∧ ∃ c, c.classNames = [("s", [("a", "_0")])]
      ∧ (history Css.engine (.disk "c" "n") .bare compiledAgain).1[0]? = some (.ok (.compiled c))
      ∧ (history Css.engine (.disk "c" "n") .bare compiledAgain).1[3]?
        = some (.ok (.compiled c)) := by
  have hname : Path.IsName "n" := by decide
  have hroom : HasRoom
      ((history Css.engine (.disk "c" "n") .bare compiledAgain).2.siteOf "c" "n") := by
    rw [← sessionAt_length]
    exact Session.hasRoom_of_holds
      (holds_sessionAt Cache.fresh_bare fits_compiledAgain (Nat.le_refl _))
  have hok : (history Css.engine (.disk "c" "n") .bare compiledAgain).1[0]?
      = some (.ok (.compiled ⟨"f", [("s", [("a", "_0")])], "._0 \x7b\n  top: 1;\n\x7d\n"⟩)) := by
    rw [getElem?_history_of_fresh Cache.fresh_bare fits_compiledAgain rfl]
    cbv
  exact ⟨hname, isClear_compiledAgain, hroom, _, rfl, hok,
    history_repeats hname Css.engine .bare isClear_compiledAgain hroom (by decide : 0 < 3) rfl rfl
      hok⟩

end NestedStyles
