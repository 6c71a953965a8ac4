import NestedStyles.Proofs.Cache.Thinning
import NestedStyles.Proofs.Json.Mend
/-!
# Waiting for a lock

A call that needs the lock of its folder looks at the one that is there again and again until it
finds it stale or its time is up. What the call does to that lock, and to the folder, depends on
nothing but what it sees at these looks.

* `StaleAt` says what a stale lock is, and `isStale_iff` that it is judged so;
* `polls` are the moments of a wait; `pollLock_eq`: the last of them decides, and at no other one is
  the lock stale; `length_polls`: there are not many;
* `overrun_takeLock`: a call that would have to wait until a moment that the clock cannot name does
  not end, but crashes, and nothing else makes it crash (`disciplined_withLock`);
* `lock_minded`: a lock that was there is removed if and only if the call needs it and finds it
  stale at one of these moments, else the folder is as it was and the call times out; and its own
  lock is gone however the call ends.
-/
namespace NestedStyles.Cache

open Storage (Cause FileTree Folder Host Node Path.join Site)

/-! ## What a lock says -/

/-- The contents of a lock say what they spell, if they are a text. -/
theorem lockInfo?_of_letters {contents : Storage.Contents} {cs : List Char}
    (h : contents.letters = cs.map some) (modified : Int) :
    lockInfo? (.file contents modified) = LockInfo.decode? (.ofList cs) := by
  rw [lockInfo?, h, Json.mend?_map_some]
  rfl

theorem lockInfo?_text (text : String) (modified : Int) :
    lockInfo? (.file (.text text) modified) = LockInfo.decode? text := by
  rw [lockInfo?_of_letters rfl, String.ofList_toList]

theorem lockInfo?_utf8 (cs : List Char) (modified : Int) :
    lockInfo? (.file (.bytes (cs.flatMap String.utf8EncodeChar)) modified)
      = LockInfo.decode? (.ofList cs) := by
  have hletters : (Storage.Contents.bytes (cs.flatMap String.utf8EncodeChar)).letters = cs.map some :=
    Text.letters_utf8 cs
  exact lockInfo?_of_letters hletters modified

-- a byte that is part of no character does no harm in a member that is not asked for
example : lockInfo? (.file (.bytes ("\x7b\"pid\":7,\"host\":\"".toUTF8.toList ++ [0xff]
    ++ "\"\x7d".toUTF8.toList)) 0) = some ⟨7, 0⟩ := by
  decide +kernel

example : lockInfo? (.file (.bytes ("\x7b\"pid\":7,\"".toUTF8.toList ++ [0xff]
    ++ "\":0\x7d".toUTF8.toList)) 0) = none := by
  decide +kernel

/-! ## Stale locks -/

/-- What makes a lock stale when it is looked at: its file is old; or it says who holds it, and that
process is dead; or its file is of the future, and it says that it has been held for long. -/
inductive StaleAt (limit : Nat) (h : Host) : Node → Prop
  | aged {contents : Storage.Contents} {modified : Int} (past : modified ≤ h.read.now)
      (age : limit < h.read.now - modified) : StaleAt limit h (.file contents modified)
  | dead {contents : Storage.Contents} {modified : Int} {i : LockInfo}
      (info : lockInfo? (.file contents modified) = some i)
      (dead : h.isAlive? i.pid = some false) : StaleAt limit h (.file contents modified)
  | overdue {contents : Storage.Contents} {modified : Int} {i : LockInfo}
      (info : lockInfo? (.file contents modified) = some i) (future : h.read.now < modified)
      (started : limit < (h.read.read.seconds - i.startedAt) * Host.second) :
      StaleAt limit h (.file contents modified)

variable {limit : Nat} {h : Host}

theorem age?_any (limit : Nat) (modified : Int) (now : Nat) :
    (age? modified now).any (limit < ·) = true ↔ modified ≤ now ∧ limit < (now : Int) - modified := by
  unfold age?
  split
  · simp only [Option.any_some, decide_eq_true_eq]
    omega
  · simp only [Option.any_none, Bool.false_eq_true, false_iff]
    omega

theorem infoIsStale_iff (modified : Int) (i : LockInfo) :
    (infoIsStale limit (age? modified h.read.now) i h.read).1 = true ↔
      h.isAlive? i.pid = some false ∨ (h.read.now < modified
        ∧ limit < (h.read.read.seconds - i.startedAt) * Host.second) := by
  have halive : h.read.isAlive? i.pid = h.isAlive? i.pid := rfl
  unfold infoIsStale
  rw [halive]
  by_cases hdead : h.isAlive? i.pid = some false
  · simp [hdead]
  · rw [if_neg hdead]
    unfold age?
    by_cases hpast : modified ≤ h.read.now
    · simp [hpast, hdead, not_lt.2 hpast]
    · simp [hpast, hdead, not_le.1 hpast]

theorem isStale_iff {n : Node} : (isStale limit n h).1 = true ↔ StaleAt limit h n := by
  cases n with
  | folder es => exact ⟨nofun, nofun⟩
  | file contents modified =>
    have hage := age?_any limit modified h.read.now
    unfold isStale
    dsimp only
    constructor
    · intro hstale
      split at hstale
      · next hold =>
        obtain ⟨past, age⟩ := hage.1 hold
        exact .aged past age
      · split at hstale
        · cases hstale
        · next i info =>
          rcases (infoIsStale_iff modified i).1 hstale with hdead | ⟨future, started⟩
          · exact .dead info hdead
          · exact .overdue info future started
    · intro hstale
      split
      · rfl
      · next hold =>
        cases hstale with
        | aged past age => exact absurd (hage.2 ⟨past, age⟩) hold
        | @dead _ _ i info dead =>
          simp only [info]
          exact (infoIsStale_iff modified i).2 (Or.inl dead)
        | @overdue _ _ i info future started =>
          simp only [info]
          exact (infoIsStale_iff modified i).2 (Or.inr ⟨future, started⟩)

namespace Disk

/-! ## Looking at a lock -/

/-- The host when a look at the lock is over and the clock has been read. -/
def afterLook (staleAfter : Nat) (lock : Node) (h : Host) : Host := (isStale staleAfter lock h).2.read

theorem later_afterLook (staleAfter : Nat) (lock : Node) (h : Host) :
    h.Later (afterLook staleAfter lock h) := (later_isStale staleAfter lock h).read

/-- The moments at which a wait until a deadline looks at a lock. -/
def polls (staleAfter deadline : Nat) (lock : Node) (h : Host) : List Host :=
  if (isStale staleAfter lock h).1 ∨ deadline ≤ (afterLook staleAfter lock h).now then [h]
  else h :: polls staleAfter deadline lock ((afterLook staleAfter lock h).sleep pollInterval)
termination_by deadline - h.now
decreasing_by
  have h1 : h.now ≤ (afterLook staleAfter lock h).now := (later_afterLook staleAfter lock h).now
  have h2 := (afterLook staleAfter lock h).now_add_le_sleep pollInterval
  have h3 : 0 < pollInterval := by decide
  omega

variable {staleAfter deadline : Nat} {lock : Node} {es : Folder}

theorem polls_of_late (hlate : deadline ≤ h.now) : polls staleAfter deadline lock h = [h] := by
  rw [polls, if_pos (Or.inr (hlate.trans (later_afterLook staleAfter lock h).now))]

/-- A wait is over after a bounded number of looks: between two of them a poll interval passes. -/
theorem length_polls (staleAfter deadline : Nat) (lock : Node) (h : Host) :
    (polls staleAfter deadline lock h).length * pollInterval
      < (deadline - h.now) + 2 * pollInterval := by
  have hpos : 0 < pollInterval := by decide
  fun_induction polls staleAfter deadline lock h with
  | case1 h hlast =>
    rw [List.length_singleton]
    omega
  | case2 h hmore ih =>
    have hlook := (later_afterLook staleAfter lock h).now
    have hsleep := (afterLook staleAfter lock h).now_add_le_sleep pollInterval
    rw [not_or, not_le] at hmore
    rw [List.length_cons, Nat.succ_mul]
    by_cases hlate : deadline ≤ ((afterLook staleAfter lock h).sleep pollInterval).now
    · rw [polls_of_late hlate, List.length_singleton]
      omega
    · omega

/-- Only the last look can find the lock stale. -/
theorem not_stale_of_mem_dropLast {p : Host} (hp : p ∈ (polls staleAfter deadline lock h).dropLast) :
    ¬StaleAt staleAfter p lock := by
  fun_induction polls staleAfter deadline lock h with
  | case1 h hlast => cases hp
  | case2 h hmore ih =>
    have hne : polls staleAfter deadline lock ((afterLook staleAfter lock h).sleep pollInterval)
        ≠ [] := by
      unfold polls
      split <;> nofun
    rw [List.dropLast_cons_of_ne_nil hne, List.mem_cons] at hp
    rcases hp with rfl | hp
    · exact fun hstale => hmore (Or.inl (isStale_iff.2 hstale))
    · exact ih hp

theorem addLock_unlocked (es : Folder) (host : Host) : addLock (unlocked es) host = locked es host := by
  have hfree := lock_not_mem_unlocked es
  rw [addLock_eq hfree, locked, unlocked_of_not_mem hfree, locked]

/-- The last look decides: the lock is replaced if it is stale then, else the wait is given up. -/
theorem pollLock_eq (hlock : OrderedMap.get? es lockName = some lock)
    (staleAfter deadline : Nat) (h : Host) :
    ∃ last, (polls staleAfter deadline lock h).getLast? = some last
      ∧ pollLock staleAfter deadline es h
        = (if (isStale staleAfter lock last).1
            then .ok (locked es (afterLook staleAfter lock last)) else .error .timedOut,
          afterLook staleAfter lock last) := by
  have hstep (h : Host) : pollLock staleAfter deadline es h
      = if (isStale staleAfter lock h).1
        then (.ok (addLock (unlocked es) (afterLook staleAfter lock h)), afterLook staleAfter lock h)
        else if deadline ≤ (afterLook staleAfter lock h).now
          then (.error .timedOut, afterLook staleAfter lock h)
          else pollLock staleAfter deadline es
            ((afterLook staleAfter lock h).sleep pollInterval) := by
    rw [pollLock]
    split
    · next hnone => rw [hlock] at hnone; cases hnone
    · next other hother =>
      cases hlock.symm.trans hother
      rfl
  fun_induction polls staleAfter deadline lock h with
  | case1 h hlast =>
    refine ⟨h, rfl, ?_⟩
    rw [hstep]
    by_cases hstale : (isStale staleAfter lock h).1 = true
    · rw [if_pos hstale, if_pos hstale, addLock_unlocked]
    · rw [if_neg hstale, if_neg hstale, if_pos (hlast.resolve_left hstale)]
  | case2 h hmore ih =>
    obtain ⟨last, hlast, hpoll⟩ := ih
    rw [not_or] at hmore
    refine ⟨last, ?_, ?_⟩
    · rw [List.getLast?_cons, hlast]
      rfl
    · rw [hstep, if_neg hmore.1, if_neg hmore.2, hpoll]

/-- The lock is found stale at a moment of the wait if and only if it is at the last one. -/
theorem exists_stale_iff {last : Host}
    (hlast : (polls staleAfter deadline lock h).getLast? = some last) :
    (∃ p ∈ polls staleAfter deadline lock h, StaleAt staleAfter p lock)
      ↔ (isStale staleAfter lock last).1 = true := by
  constructor
  · rintro ⟨p, hp, hstale⟩
    obtain ⟨init, hsplit⟩ := List.getLast?_eq_some_iff.1 hlast
    rw [hsplit, List.mem_append, List.mem_singleton] at hp
    rcases hp with hp | rfl
    · have hinit : p ∈ (polls staleAfter deadline lock h).dropLast := by
        rwa [hsplit, List.dropLast_concat]
      exact absurd hstale (not_stale_of_mem_dropLast hinit)
    · exact isStale_iff.2 hstale
  · exact fun hstale => ⟨last, List.mem_of_getLast? hlast, isStale_iff.1 hstale⟩

/-! ## Calls -/

variable {α : Type} {d : Disk}

/-- The moments at which a call looks at the lock that it finds in its folder, if it needs it. -/
def looks (d : Disk) (lock : Node) : List Host :=
  polls d.store.staleAfter d.deadline lock d.started

/-- A call finds the lock stale. -/
def FindsStale (d : Disk) (lock : Node) : Prop :=
  ∃ p ∈ d.looks lock, StaleAt d.store.staleAfter p lock

/-- The fault of a call that has waited for the lock in vain. -/
def timedOut (d : Disk) : Fault := .cacheStorage (Path.join d.store.dir lockName) .timedOut

/-- How a call, which may need the lock of its folder, deals with that lock. -/
structure Minds (d : Disk) (needs : Prop) (r : Except Fault α) (d' : Disk) : Prop where
  /-- The call is over after a bounded number of looks. -/
  ends : ∀ lock, (d.looks lock).length * pollInterval < d.store.lockTimeout + 2 * pollInterval
  /-- Where there was no lock, and making the folder makes none, there is none. -/
  released : OrderedMap.get? d.site.contents lockName = none →
    OrderedMap.get? d'.site.contents lockName = none
  /-- A lock that the call finds stale is gone, and so is the call's own. -/
  replaced : ∀ lock, OrderedMap.get? d.site.contents lockName = some lock → needs →
    d.FindsStale lock → OrderedMap.get? d'.site.contents lockName = none
  /-- Where the call does not find the lock stale, it leaves everything in the folder. -/
  kept : ∀ lock, OrderedMap.get? d.site.contents lockName = some lock →
    (needs → ¬d.FindsStale lock) → d'.site.contents = d.site.contents
  /-- A call that needs the lock and does not find it stale waits in vain. -/
  timedOut : ∀ lock, OrderedMap.get? d.site.contents lockName = some lock → needs →
    ¬d.FindsStale lock → r = .error d.timedOut

theorem length_looks (d : Disk) (lock : Node) :
    (d.looks lock).length * pollInterval < d.store.lockTimeout + 2 * pollInterval := by
  have h := length_polls d.store.staleAfter d.deadline lock d.started
  have hwait : d.deadline - d.started.now = d.store.lockTimeout := Nat.add_sub_cancel_left ..
  rwa [hwait] at h

/-- A call that does not need the lock and leaves the folder alone minds the lock. -/
theorem Minds.of_idle {needs : Prop} {r : Except Fault α} {d' : Disk} (hneeds : ¬needs)
    (h : d'.site.contents = d.site.contents) : Minds d needs r d' where
  ends := length_looks d
  released hno := by rwa [h]
  replaced _ _ hn := absurd hn hneeds
  kept _ _ _ := h
  timedOut _ _ hn := absurd hn hneeds

/-- However the action ends, the lock of its folder is as it was. -/
def KeepsLock (a : DiskM α) : Prop := ∀ d s es, d.site = Site.withEntries es s →
  ∃ fs, (a d).2.site = s.withEntries fs
    ∧ OrderedMap.get? fs lockName = OrderedMap.get? es lockName

theorem Thinning.keepsLock {a : DiskM α} (h : Thinning a) : KeepsLock a := by
  intro d s es hd
  obtain ⟨fs, hfs, hthins⟩ := h d s es hd
  exact ⟨fs, hfs, hthins.lock⟩

theorem keepsLock_fetchLocked (key : String) (compute : List String → String) :
    KeepsLock (fetchLocked key compute) := by
  intro d s es hd
  cases hrun : fetchLocked key compute d with
  | mk r d' =>
    obtain ⟨memo, fs, hlooked, rfl⟩ := looked_fetchLocked hd hrun
    exact ⟨fs, rfl, hlooked.get?_lockName⟩

/-- A call that has taken the lock gives it back, whatever it does in between. -/
theorem KeepsLock.frees {a : DiskM α} (ha : KeepsLock a) (d : Disk) (es : Folder) (host : Host) :
    OrderedMap.get? (dropLock
      (a (d.leaving d.store.memo (locked es host) host)).2).2.site.contents lockName = none := by
  obtain ⟨fs, hfs, hlock⟩ := ha (d.leaving d.store.memo (locked es host) host) _ _ rfl
  rw [dropLock_of_locked hfs (hlock.trans (get?_locked es host)), Site.contents_withEntries]
  exact OrderedMap.get?_erase_self fs lockName

/-- Where the folder is there, or has been made, its lock decides. -/
theorem takeLock_of_made {es : Folder} (hmade : d.site.make.2 = .ok es) : takeLock d
    = match pollLock d.store.staleAfter d.deadline es d.started with
      | (.ok fs, host) => (.ok (), d.leaving d.store.memo fs host)
      | (.error cause, host) =>
        (.error (.cacheStorage (Path.join d.store.dir lockName) cause),
          ⟨d.store, d.site.make.1, host⟩) := by
  unfold takeLock
  rw [get_bind]
  cases hmake : d.site.make with
  | mk site entries =>
    rw [hmake] at hmade
    obtain rfl : entries = .ok es := hmade
    obtain rfl : d.site.make.1 = site := by rw [hmake]
    simp only [setSite_bind, after_read]
    generalize pollLock d.store.staleAfter d.deadline es d.started = polled
    obtain ⟨r, host⟩ := polled
    cases r <;> rfl

/-- A lock that is found stale is taken over. -/
theorem takeLock_of_findsStale (hlock : OrderedMap.get? d.site.contents lockName = some lock)
    (h : d.FindsStale lock) : ∃ es host,
      takeLock d = (.ok (), d.leaving d.store.memo (locked es host) host) := by
  obtain ⟨last, hlast, hpoll⟩ := pollLock_eq hlock d.store.staleAfter d.deadline d.started
  rw [takeLock_of_made (Site.make_of_contents hlock), hpoll, if_pos ((exists_stale_iff hlast).1 h)]
  exact ⟨_, _, rfl⟩

/-- A lock that is never found stale is waited for in vain. -/
theorem takeLock_of_not_findsStale (hlock : OrderedMap.get? d.site.contents lockName = some lock)
    (h : ¬d.FindsStale lock) : ∃ host,
      takeLock d = (.error d.timedOut, ⟨d.store, d.site.make.1, host⟩) := by
  obtain ⟨last, hlast, hpoll⟩ := pollLock_eq hlock d.store.staleAfter d.deadline d.started
  rw [takeLock_of_made (Site.make_of_contents hlock), hpoll,
    if_neg fun hstale => h ((exists_stale_iff hlast).2 hstale)]
  exact ⟨_, rfl⟩

/-- Whatever is done with the lock held, a lock that has been there is minded. -/
theorem minds_withLock {a : DiskM α} (ha : KeepsLock a) {needs : Prop} (hneeds : needs)
    (d : Disk) : Minds d needs (withLock a d).1 (withLock a d).2 where
  ends := length_looks d
  released hno := by
    cases hrun : withLock a d with
    | mk r d' =>
      rcases withLock_cases hrun with ⟨fault, host, -, rfl, -⟩ | ⟨es, host, d₂, opened, hact, rfl⟩
      · rwa [Site.contents_make]
      · have hfrees := ha.frees d es host
        rwa [hact] at hfrees
  replaced lock hlock _ hstale := by
    obtain ⟨es, host, htake⟩ := takeLock_of_findsStale hlock hstale
    have hgives : (withLock a d).2 = (dropLock (a _).2).2 := congrArg Prod.snd (bind_of_ok htake)
    rw [hgives]
    exact ha.frees d es host
  kept lock hlock hfresh := by
    obtain ⟨host, htake⟩ := takeLock_of_not_findsStale hlock (hfresh hneeds)
    have hgives : (withLock a d).2 = _ := congrArg Prod.snd (bind_of_error htake)
    rw [hgives, Site.contents_make]
  timedOut lock hlock _ hfresh := by
    obtain ⟨host, htake⟩ := takeLock_of_not_findsStale hlock hfresh
    exact congrArg Prod.fst (bind_of_error htake)

/-- The epoch of the folder can be read, and the memo does not have the key at it. -/
def Consults (d : Disk) (key : String) : Prop :=
  ∃ epoch, readEpoch d = (.ok epoch, d) ∧ ∀ token, ¬Knows d.store.memo epoch key token

/-- A fetch that does not know the key goes to the folder, with its memo at the folder's epoch. -/
theorem fetch_of_unknown {key : String} {compute : List String → String} {epoch : Nat}
    (he : readEpoch d = (.ok epoch, d)) (h : ∀ token, ¬Knows d.store.memo epoch key token) :
    fetch key compute d = withLock (fetchLocked key compute)
      { d with store := { d.store with memo := d.store.memo.refreshed epoch } } := by
  have hget : OrderedMap.get? (d.store.memo.refreshed epoch).tokens key = none := by
    refine Option.eq_none_iff_forall_not_mem.2 fun token htoken => ?_
    exact h token ((Memo.knows_refreshed _ _ _ _).1 htoken)
  unfold fetch
  rw [bind_of_ok he, bind_of_ok (refreshMemo_eq epoch d), get_bind]
  simp only [hget]

/-! ## Crashes -/

/-- What becomes of a call: it returns, or the program crashes in it. -/
inductive Ending (α : Type) where
  | returned (result : Except Fault α) (left : Disk)
  | crashed

def ending (action : DiskM α) (d : Disk) : Ending α :=
  if (action d).2.host.overrun then .crashed else .returned (action d).1 (action d).2

theorem ending_of_running {a : DiskM α} {r : Except Fault α} (hr : (a d).1 = r)
    (h : (a d).2.host.overrun = false) : ending a d = .returned r (a d).2 := by
  rw [ending, h, hr]
  rfl

/-- The folder is there or can be made, and the clock cannot name the end of a wait for its lock. -/
def Overruns (d : Disk) : Prop := (∃ es, d.site.make.2 = .ok es) ∧ Host.horizon ≤ d.deadline

theorem overrun_isStale (limit : Nat) (n : Node) (h : Host) :
    (isStale limit n h).2.overrun = h.overrun := by
  unfold isStale
  split
  · rfl
  · dsimp only
    split
    · rfl
    · split
      · rfl
      · unfold infoIsStale
        split
        · rfl
        · split <;> rfl

theorem overrun_pollLock (staleAfter deadline : Nat) (es : Folder) (h : Host) :
    (pollLock staleAfter deadline es h).2.overrun = h.overrun := by
  fun_induction pollLock staleAfter deadline es h with
  | case1 h hnone => rfl
  | case2 h lock hlock judged later hstale => exact overrun_isStale staleAfter lock h
  | case3 h lock hlock judged later hstale hdeadline => exact overrun_isStale staleAfter lock h
  | case4 h lock hlock judged later hstale hdeadline ih =>
    exact ih.trans (overrun_isStale staleAfter lock h)

theorem overrun_started (d : Disk) :
    d.started.overrun = true ↔ d.host.overrun = true ∨ Host.horizon ≤ d.deadline :=
  Host.overrun_after d.host.read d.store.lockTimeout

theorem overrun_takeLock (d : Disk) :
    (takeLock d).2.host.overrun = true ↔ d.host.overrun = true ∨ d.Overruns := by
  cases hmade : d.site.make.2 with
  | error cause =>
    have hnot : ¬d.Overruns := by
      rintro ⟨⟨es, hes⟩, -⟩
      cases hmade.symm.trans hes
    have hhost : (takeLock d).2.host = d.host := by
      unfold takeLock
      rw [get_bind]
      cases hmake : d.site.make with
      | mk site entries =>
        rw [hmake] at hmade
        obtain rfl : entries = .error cause := hmade
        rfl
    rw [hhost, or_iff_left hnot]
  | ok es =>
    have hoverruns : d.Overruns ↔ Host.horizon ≤ d.deadline := and_iff_right ⟨es, hmade⟩
    have hpoll := overrun_pollLock d.store.staleAfter d.deadline es d.started
    have hhost : (takeLock d).2.host = (pollLock d.store.staleAfter d.deadline es d.started).2 := by
      rw [takeLock_of_made hmade]
      generalize pollLock d.store.staleAfter d.deadline es d.started = polled
      obtain ⟨r, host⟩ := polled
      cases r <;> rfl
    rw [hhost, hpoll, hoverruns]
    exact overrun_started d

theorem keepsHost_setMemo (m : Memo) : KeepsPart host (setMemo m) := fun _ => rfl

theorem keepsHost_fetchLocked (key : String) (compute : List String → String) :
    KeepsPart host (fetchLocked key compute) := by
  refine keeps_readEpoch.keepsPart.bind fun epoch => .get_bind fun _ =>
    (keepsHost_setMemo _).bind fun _ => keeps_readTable.keepsPart.bind fun tokens =>
      (keepsHost_setMemo _).bind fun _ => ?_
  split
  · exact (Keeps.pure _).keepsPart
  · refine KeepsPart.bind ?_ fun _ => (keepsHost_setMemo _).bind fun _ => (Keeps.pure _).keepsPart
    refine .get_bind fun _ => ?_
    split
    · exact (keeps_failAt _ _).keepsPart.bind fun _ => keepsPart_replaceFile host (fun _ _ => rfl) _ _
    · exact (Keeps.pure _).keepsPart.bind fun _ => keepsPart_replaceFile host (fun _ _ => rfl) _ _

theorem keepsHost_clearLocked : KeepsPart host clearLocked :=
  keeps_recordNames.keepsPart.bind fun _ =>
    (keepsPart_forM_removeRecord host (fun _ _ => rfl) _).bind fun _ =>
      keeps_readEpoch.keepsPart.bind fun _ =>
        (keepsPart_replaceFile host (fun _ _ => rfl) _ _).bind fun _ => keepsHost_setMemo _

theorem host_dropLock (d : Disk) : (dropLock d).2.host = d.host := by
  rw [dropLock, modify_apply]
  split <;> rfl

/-- Whatever is done with the lock held, the host is what it was when the lock was taken. -/
theorem host_withLock {a : DiskM α} (ha : KeepsPart host a) (d : Disk) :
    (withLock a d).2.host = (takeLock d).2.host := by
  cases htake : takeLock d with
  | mk r d₁ =>
    cases r with
    | error fault =>
      have hfails : (withLock a d).2 = d₁ := congrArg Prod.snd (bind_of_error htake)
      rw [hfails]
    | ok u =>
      have hgives : (withLock a d).2 = (dropLock (a d₁).2).2 := congrArg Prod.snd (bind_of_ok htake)
      rw [hgives, host_dropLock, ha]

/-- A call that needs the lock, with a wait that the clock cannot name the end of, crashes. So does
every call when the program has crashed. Any other returns, and minds the lock. -/
def Disciplined (d : Disk) (needs : Prop) : Ending α → Prop
  | .returned r d' => ¬(d.host.overrun = true ∨ needs ∧ d.Overruns) ∧ Minds d needs r d'
  | .crashed => d.host.overrun = true ∨ needs ∧ d.Overruns

theorem disciplined_ending {a : DiskM α} {needs : Prop}
    (hcrash : (a d).2.host.overrun = true ↔ d.host.overrun = true ∨ needs ∧ d.Overruns)
    (hminds : Minds d needs (a d).1 (a d).2) : Disciplined d needs (ending a d) := by
  unfold ending
  split
  · next hover => exact hcrash.1 hover
  · next hgood => exact ⟨fun h => hgood (hcrash.2 h), hminds⟩

theorem disciplined_withLock {a : DiskM α} (hlock : KeepsLock a) (hhost : KeepsPart host a)
    {needs : Prop} (hneeds : needs) (d : Disk) : Disciplined d needs (ending (withLock a) d) := by
  refine disciplined_ending ?_ (minds_withLock hlock hneeds d)
  rw [host_withLock hhost, overrun_takeLock, and_iff_right hneeds]

theorem disciplined_idle {a : DiskM α} {needs : Prop} (hneeds : ¬needs)
    (hhost : (a d).2.host = d.host) (hsite : (a d).2.site.contents = d.site.contents) :
    Disciplined d needs (ending a d) := by
  refine disciplined_ending ?_ (.of_idle hneeds hsite)
  rw [hhost, or_iff_left fun h => hneeds h.1]

/-- What a handle remembers has no part in how it deals with a lock. -/
theorem Disciplined.of_memo {m : Memo} {needs : Prop} {e : Ending α}
    (h : Disciplined { d with store := { d.store with memo := m } } needs e) :
    Disciplined d needs e := by
  cases e with
  | crashed => exact h
  | returned r d' =>
    obtain ⟨hreturns, hminds⟩ := h
    exact ⟨hreturns, hminds.ends, hminds.released, hminds.replaced, hminds.kept, hminds.timedOut⟩

theorem disciplined_fetch (d : Disk) (key : String) (compute : List String → String) :
    Disciplined d (Consults d key) (ending (fetch key compute) d) := by
  by_cases hneeds : Consults d key
  · obtain ⟨epoch, hepoch, hunknown⟩ := id hneeds
    have hending : ending (fetch key compute) d = ending (withLock (fetchLocked key compute))
        { d with store := { d.store with memo := d.store.memo.refreshed epoch } } := by
      unfold ending
      rw [fetch_of_unknown hepoch hunknown]
    rw [hending]
    exact .of_memo (disciplined_withLock (keepsLock_fetchLocked key compute)
      (keepsHost_fetchLocked key compute) hneeds _)
  · have hfetched : Fetched key compute d (fetch key compute d).1 (fetch key compute d).2 :=
      fetched_fetch rfl
    have hidle : (fetch key compute d).2.host = d.host
        ∧ (fetch key compute d).2.site.contents = d.site.contents := by
      generalize (fetch key compute d).1 = r, (fetch key compute d).2 = d' at hfetched
      cases hfetched with
      | unread epoch => exact ⟨rfl, rfl⟩
      | remembered epoch_eq known => exact ⟨rfl, rfl⟩
      | refused epoch_eq unknown held => exact absurd ⟨_, epoch_eq, unknown⟩ hneeds
      | looked epoch_eq unknown opened looked => exact absurd ⟨_, epoch_eq, unknown⟩ hneeds
    exact disciplined_idle hneeds hidle.1 hidle.2

theorem disciplined_clear (d : Disk) :
    Disciplined d (d.site.isPresent = true) (ending clear d) := by
  have hclear : clear d = if d.site.isPresent then withLock clearLocked d
      else setMemo { d.store.memo with tokens := [] } d := by
    unfold clear
    rw [get_bind]
    split <;> rfl
  by_cases hpresent : d.site.isPresent = true
  · have hending : ending clear d = ending (withLock clearLocked) d := by
      unfold ending
      rw [hclear, if_pos hpresent]
    rw [hending]
    exact disciplined_withLock thinning_clearLocked.keepsLock keepsHost_clearLocked hpresent d
  · rw [if_neg hpresent] at hclear
    exact disciplined_idle hpresent (by rw [hclear]; rfl) (by rw [hclear]; rfl)

/-- Whatever a folder, its lock and the host are like, and whatever the handle's lock timeout and
stale age, a fetch needs the lock if and only if it can read the epoch and does not know the key,
and a clear if and only if there is something to clear. A call returns, unless it needs the lock and
the clock cannot name the end of its wait. A call that needs the lock looks at one that is there
only so often. If it finds it stale, that lock and its own are gone afterwards; else the folder is
as it was, and the call has timed out. Where there was no lock none is left. -/
theorem lock_minded (d : Disk) :
    (∀ key compute, Disciplined d (Consults d key) (ending (fetch key compute) d))
    ∧ Disciplined d (d.site.isPresent = true) (ending clear d) :=
  ⟨disciplined_fetch d, disciplined_clear d⟩

/-- A folder with the lock of a process, and a handle on it that does not wait. -/
def lockedBy (pid : Nat) (alive : Option Bool) : Disk :=
  ⟨{ DiskStore.inFolder "c" "n" with lockTimeout := 0 },
    .folder [(lockName, .file (.text (LockInfo.encode ⟨pid, 0⟩)) 0)],
    ⟨0, 0, fun _ => 0, fun _ => alive, 1, false⟩⟩

example : (clear (lockedBy 7 (some true))).1 = .error (.cacheStorage "c/n/.lock" .timedOut)
    ∧ (clear (lockedBy 7 (some false))).1 = .ok () := by
  decide +kernel

/-- A handle on a folder that is not there, with a lock timeout, in an empty home folder. -/
def waiting (name : String) (lockTimeout : Nat) : Disk :=
  ⟨{ DiskStore.inFolder "c" name with lockTimeout },
    (FileTree.empty ["home"]).site (Path.join "c" name),
    ⟨0, 0, fun _ => 0, fun _ => none, 1, false⟩⟩

/-- A fetch with the longest timeout that 64 bits of seconds can say does not return. And one in a
folder whose path leads through the place of its lock makes a folder there, which it takes for a
lock: it times out, and the folder is left. -/
theorem lock_unminded :
    ending (fetch "a" fun _ => "t0") (waiting "n" (Nat.pow 2 64 * Host.second - 1)) = .crashed
    ∧ ((waiting "n/.lock/.." 0).site.find? lockName).isSome = false
    ∧ ∃ left, ending (fetch "a" fun _ => "t0") (waiting "n/.lock/.." 0)
        = .returned (.error (.cacheStorage "c/n/.lock/../.lock" .timedOut)) left
      ∧ (left.site.find? lockName).isSome = true := by
  refine ⟨if_pos (by decide +kernel), by decide +kernel, _,
    ending_of_running (by decide +kernel) (by decide +kernel), by decide +kernel⟩

end Disk
end NestedStyles.Cache
