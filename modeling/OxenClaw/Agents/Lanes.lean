import Mathlib.Algebra.Order.Ring.Int
import Mathlib.Data.Rat.Defs
import OxenClaw.Lib.Asyncio
import OxenClaw.Lib.Dict
import OxenClaw.Lib.Runs

/-!
# Concurrency lanes

`LaneRegistry.run` takes a slot of the global semaphore, then the lock of its session's lane,
counts itself in and runs the turn. It suspends at the semaphore, at the lock and inside the
turn; `LaneRun.step` is what happens between two of these points, for any number of calls in
any order. A turn is cancelled where it waits (`cancel`) and its await raises when it is next
scheduled (`abandon`); a turn that runs finishes the same way whether it returns, raises or is
cancelled (`finish`).

Beside the registry the system has the turns past the semaphore that wait for their lane
(`waiting`) and those inside the counted section (`running`). `LaneRun.Ok` accounts for the
slots : free or handed over, held by a waiting turn, or held by a running one.
-/

namespace OxenClaw

open Asyncio

/-- One call of `run`, for the lane of an agent and a session. -/
structure Turn where
  id : ℕ
  key : String × String
  deriving DecidableEq

inductive BusyPolicy where
  | block
  | queue
  | interrupt
  | steer
  deriving DecidableEq

/-- What `run` uses of a lane. `abortEvent` is whether the registered event is set. -/
structure LaneState where
  lock : Lock Turn := {}
  abortEvent : Option Bool := none
  queuedAt : Option ℚ := none

/-- The registry of lanes. -/
structure LaneRegistry where
  lanes : Dict (String × String) LaneState
  globalSem : Option (Semaphore Turn)
  globalConcurrency : Option ℤ
  busyPolicy : BusyPolicy
  inFlightCount : ℤ

namespace LaneRegistry

/-- The configured cap on turns, where it is one. -/
def cap (globalConcurrency : Option ℤ) : Option ℕ :=
  globalConcurrency.bind fun c => if 0 < c then some c.toNat else none

/-- `LaneRegistry(global_concurrency=.., busy_policy=..)`. -/
def new (globalConcurrency : Option ℤ) (busyPolicy : BusyPolicy) : LaneRegistry where
  lanes := []
  globalSem := (cap globalConcurrency).map fun value => { value }
  globalConcurrency := globalConcurrency
  busyPolicy := busyPolicy
  inFlightCount := 0

/-- `lane`, which makes the lane where there is none. -/
def lane (r : LaneRegistry) (key : String × String) : LaneState :=
  (r.lanes.get? key).getD {}

def setLane (r : LaneRegistry) (key : String × String) (l : LaneState) : LaneRegistry :=
  { r with lanes := r.lanes.set key l }

/-- `signal_abort` on the lane's state. -/
def signalAbort (l : LaneState) : LaneState :=
  if l.abortEvent = some false then { l with abortEvent := some true } else l

/-- With the interrupt policy a busy lane is told to abort. -/
def interruptBusy (l : LaneState) (busyPolicy : BusyPolicy) : LaneState :=
  if l.lock.locked ∧ busyPolicy = .interrupt then signalAbort l else l

/-- Remember since when a busy lane has a caller waiting. -/
def markQueued (l : LaneState) (now : ℚ) : LaneState :=
  if l.queuedAt = none ∧ l.lock.locked then { l with queuedAt := some now } else l

/-- The lane as `run` leaves it before its first await. -/
def arrive (l : LaneState) (busyPolicy : BusyPolicy) (now : ℚ) : LaneState :=
  markQueued (interruptBusy l busyPolicy) now

/-- The registry's `stats`. -/
structure Stats where
  sessionLockCount : ℕ
  sessionLocksHeld : ℕ
  globalConcurrency : Option ℤ
  busyPolicy : BusyPolicy
  globalInFlight : Option ℤ
  globalAvailable : Option ℤ

def stats (r : LaneRegistry) : Stats where
  sessionLockCount := r.lanes.length
  sessionLocksHeld := r.lanes.countP fun e => e.2.lock.locked
  globalConcurrency := r.globalConcurrency
  busyPolicy := r.busyPolicy
  globalInFlight := (cap r.globalConcurrency).map fun _ => r.inFlightCount
  globalAvailable := (cap r.globalConcurrency).map fun c => max 0 (c - r.inFlightCount)

end LaneRegistry

/-- The registry with the turns it serves. -/
structure LaneRun where
  registry : LaneRegistry
  calls : ℕ := 0
  waiting : List Turn := []
  running : List Turn := []

/-- What happens between two awaits. -/
inductive LaneEvent where
  /-- `run` is called. -/
  | call (key : String × String) (now : ℚ)
  /-- A turn goes on from its await, the future resolved. -/
  | resume (t : Turn)
  /-- A turn's await raises. -/
  | abandon (t : Turn)
  /-- A turn is cancelled where it waits. -/
  | cancel (t : Turn)
  /-- A turn that runs returns, raises or is cancelled. -/
  | finish (t : Turn)
  /-- The abort event of a lane is registered, set or cleared from outside. -/
  | abortEvent (key : String × String) (event : Option Bool)

namespace LaneRun

open LaneRegistry

/-- No call has been made. -/
def new (globalConcurrency : Option ℤ) (busyPolicy : BusyPolicy) : LaneRun where
  registry := .new globalConcurrency busyPolicy

/-- The lock of a lane. -/
def lock (s : LaneRun) (key : String × String) : Lock Turn :=
  (s.registry.lane key).lock

/-- What a turn waits for at the global semaphore. -/
def globalWait (s : LaneRun) (t : Turn) : Option Wait :=
  s.registry.globalSem.bind fun sem => Waiters.wait sem.waiters t

/-- What a turn waits for at the lock of its lane. -/
def laneWait (s : LaneRun) (t : Turn) : Option Wait :=
  Waiters.wait (s.lock t.key).waiters t

/-- The semaphore after an operation on it. -/
def onSem (s : LaneRun) (f : Semaphore Turn → Semaphore Turn) : LaneRun :=
  { s with registry := { s.registry with globalSem := s.registry.globalSem.map f } }

/-- A lane after an operation on its lock. -/
def onLock (s : LaneRun) (key : String × String) (f : Lock Turn → Lock Turn) : LaneRun :=
  let l := s.registry.lane key
  { s with registry := s.registry.setLane key { l with lock := f l.lock } }

/-- Inside `async with` : the turn is counted and starts. -/
def start (s : LaneRun) (t : Turn) : LaneRun :=
  let r := s.registry.setLane t.key { s.registry.lane t.key with queuedAt := none }
  { s with
    registry := { r with inFlightCount := r.inFlightCount + 1 }
    running := s.running ++ [t] }

/-- Past the semaphore, up to the await of the lane's lock. -/
def enterLane (s : LaneRun) (t : Turn) : LaneRun :=
  if (s.lock t.key).isFree then (s.onLock t.key Lock.take).start t
  else
    { s.onLock t.key (Lock.enqueue · t) with waiting := s.waiting ++ [t] }

/-- Before the semaphore : the call is known, its lane has been looked at. -/
def arriveAt (s : LaneRun) (key : String × String) (now : ℚ) : LaneRun :=
  { s with
    registry := s.registry.setLane key
      (arrive (s.registry.lane key) s.registry.busyPolicy now)
    calls := s.calls + 1 }

/-- Take a slot and go to the lane, or queue for one. -/
def enterGlobal (s : LaneRun) (t : Turn) : LaneRun :=
  match s.registry.globalSem with
  | none => s.enterLane t
  | some sem =>
    if sem.locked then s.onSem (·.enqueue t) else (s.onSem Semaphore.take).enterLane t

/-- `run` up to its first await. -/
def call (s : LaneRun) (key : String × String) (now : ℚ) : LaneRun :=
  (s.arriveAt key now).enterGlobal ⟨s.calls, key⟩

/-- One event. An event of a turn that is not at that point changes nothing. -/
def step (s : LaneRun) : LaneEvent → LaneRun
  | .call key now => s.call key now
  | .resume t =>
    if s.globalWait t = some .woken then (s.onSem (·.resume t)).enterLane t
    else if s.laneWait t = some .woken then
      start { s.onLock t.key (·.resume t) with waiting := s.waiting.erase t } t
    else s
  | .abandon t =>
    if s.globalWait t = some .woken ∨ s.globalWait t = some .cancelled then s.onSem (·.abandon t)
    else if s.laneWait t = some .woken ∨ s.laneWait t = some .cancelled then
      { (s.onLock t.key (·.abandon t)).onSem Semaphore.release with
        waiting := s.waiting.erase t }
    else s
  | .cancel t =>
    if s.globalWait t = some .pending then s.onSem (·.cancel t)
    else if s.laneWait t = some .pending then s.onLock t.key (·.cancel t)
    else s
  | .finish t =>
    if t ∈ s.running then
      let r := { s.registry with inFlightCount := s.registry.inFlightCount - 1 }
      let s' := { s with registry := r, running := s.running.erase t }
      (s'.onLock t.key Lock.release).onSem Semaphore.release
    else s
  | .abortEvent key event =>
    { s with
      registry := s.registry.setLane key { s.registry.lane key with abortEvent := event } }

/-! ## Slots, locks and the counter -/

/-- The turns that wait at the global semaphore. -/
def queued (s : LaneRun) : List Turn :=
  (s.registry.globalSem.map fun sem => Waiters.tasks sem.waiters).getD []

/-- A lane's lock : its waiters are the waiting turns of the lane, and it is taken exactly
while a turn of the lane runs. -/
structure LaneOk (l : Lock Turn) (waiting running : List Turn) (key : String × String) : Prop where
  ok : l.Ok
  tasks : Waiters.tasks l.waiters = waiting.filter (·.key = key)
  held : running.countP (·.key = key) = if l.locked then 1 else 0

/-- The books of the system, with the turns in `transit` between the semaphore and their
lane. -/
structure OkBut (transit : List Turn) (s : LaneRun) : Prop where
  lanes : ∀ key, LaneOk (s.lock key) s.waiting s.running key
  semOk : ∀ sem ∈ s.registry.globalSem, sem.Ok
  slots : s.registry.globalSem.map
      (fun sem => sem.budget + (transit.length + s.waiting.length + s.running.length)) =
    cap s.registry.globalConcurrency
  counted : s.registry.inFlightCount = s.running.length
  nodup : (transit ++ s.queued ++ s.waiting ++ s.running).Nodup
  known : ∀ t ∈ transit ++ s.queued ++ s.waiting ++ s.running, t.id < s.calls

/-- The books of the system between two events. -/
abbrev Ok (s : LaneRun) : Prop :=
  OkBut [] s

theorem lane_setLane (r : LaneRegistry) (k k' : String × String) (l : LaneState) :
    (r.setLane k l).lane k' = if k' = k then l else r.lane k' := by
  unfold lane setLane
  rw [Dict.get?_set]
  split_ifs <;> rfl

theorem lock_onLock (s : LaneRun) (k k' : String × String) (f : Lock Turn → Lock Turn) :
    (s.onLock k f).lock k' = if k' = k then f (s.lock k) else s.lock k' := by
  simp only [lock, onLock, lane_setLane]
  split_ifs <;> rfl

@[simp] theorem lock_start (s : LaneRun) (t : Turn) (k : String × String) :
    (s.start t).lock k = s.lock k := by
  have hlane : (s.start t).lock k =
      ((s.registry.setLane t.key { s.registry.lane t.key with queuedAt := none }).lane k).lock :=
    rfl
  rw [hlane, lane_setLane]
  split_ifs with h
  · rw [h]
    rfl
  · rfl

@[simp] theorem lock_onSem (s : LaneRun) (f : Semaphore Turn → Semaphore Turn)
    (k : String × String) : (s.onSem f).lock k = s.lock k :=
  rfl

theorem lock_arrive (l : LaneState) (busyPolicy : BusyPolicy) (now : ℚ) :
    (arrive l busyPolicy now).lock = l.lock := by
  unfold arrive markQueued interruptBusy signalAbort
  split_ifs <;> rfl

theorem queued_onSem (s : LaneRun) (f : Semaphore Turn → Semaphore Turn) :
    (s.onSem f).queued =
      (s.registry.globalSem.map fun sem => Waiters.tasks (f sem).waiters).getD [] := by
  simp [queued, onSem, Option.map_map, Function.comp_def]

/-- A turn of another lane makes no difference to a lane. -/
theorem LaneOk.congr {l : Lock Turn} {waiting waiting' running running' : List Turn}
    {key : String × String} (h : LaneOk l waiting running key)
    (hw : waiting'.filter (·.key = key) = waiting.filter (·.key = key))
    (hr : running'.countP (·.key = key) = running.countP (·.key = key)) :
    LaneOk l waiting' running' key :=
  ⟨h.ok, h.tasks.trans hw.symm, hr.trans h.held⟩

theorem ok_new (globalConcurrency : Option ℤ) (busyPolicy : BusyPolicy) :
    Ok (new globalConcurrency busyPolicy) where
  lanes key := ⟨Lock.ok_new, rfl, rfl⟩
  semOk sem hsem := by
    obtain ⟨value, -, rfl⟩ := Option.mem_map.1 hsem
    exact Semaphore.ok_new value
  slots := by
    simp [new, LaneRegistry.new, Option.map_map, Function.comp_def, Semaphore.budget,
      Waiters.woken]
  counted := rfl
  nodup := by
    rcases h : cap globalConcurrency <;> simp [queued, new, LaneRegistry.new, h, Waiters.tasks]
  known t ht := by
    rcases h : cap globalConcurrency <;>
      simp [queued, new, LaneRegistry.new, h, Waiters.tasks] at ht

/-- A turn past the semaphore takes its lane or queues there. -/
theorem ok_enterLane {s : LaneRun} {t : Turn} (h : OkBut [t] s) : Ok (s.enterLane t) := by
  have hlane := h.lanes t.key
  have hother : ∀ {k : String × String}, k ≠ t.key → ∀ l : List Turn,
      (l ++ [t]).filter (·.key = k) = l.filter (·.key = k) ∧
        (l ++ [t]).countP (·.key = k) = l.countP (·.key = k) := by
    intro k hk l
    simp [List.filter_append, hk.symm]
  unfold enterLane
  split_ifs with hfree
  · have hlocked : (s.lock t.key).locked = false := by
      simpa using (Bool.and_eq_true_iff.1 hfree).1
    refine ⟨fun k => ?_, h.semOk, ?_, ?_, ?_, ?_⟩
    · rw [lock_start, lock_onLock]
      split_ifs with hk
      · subst hk
        refine ⟨Lock.ok_take hfree, hlane.tasks, ?_⟩
        have hheld := hlane.held
        simp only [hlocked] at hheld
        simp [start, onLock, Lock.take, List.countP_append, hheld]
      · exact (h.lanes k).congr rfl (hother hk _).2
    · have hslots := h.slots
      simp only [start, onLock, setLane, List.length_append, List.length_singleton,
        List.length_nil] at hslots ⊢
      rw [← hslots]
      congr 1
      ext sem
      omega
    · simp [start, onLock, setLane, h.counted]
    · have hnodup := h.nodup
      simp only [start, onLock, setLane, queued] at hnodup ⊢
      grind
    · have hknown := h.known
      simp only [start, onLock, setLane, queued] at hknown ⊢
      grind
  · have hbusy : (s.lock t.key).isFree = false := by simpa using hfree
    refine ⟨fun k => ?_, h.semOk, ?_, h.counted, ?_, ?_⟩
    · change LaneOk ((s.onLock t.key (Lock.enqueue · t)).lock k) _ _ k
      rw [lock_onLock]
      split_ifs with hk
      · subst hk
        refine ⟨Lock.ok_enqueue hlane.ok hbusy t, ?_, hlane.held⟩
        simp [hlane.tasks]
      · exact (h.lanes k).congr (hother hk _).1 rfl
    · have hslots := h.slots
      simp only [onLock, setLane, List.length_append, List.length_singleton,
        List.length_nil] at hslots ⊢
      rw [← hslots]
      congr 1
      ext sem
      omega
    · have hnodup := h.nodup
      simp only [onLock, setLane, queued] at hnodup ⊢
      grind
    · have hknown := h.known
      simp only [onLock, setLane, queued] at hknown ⊢
      grind

/-- What a turn that leaves its place changes about a list of turns. -/
theorem filter_erase {l : List Turn} (h : l.Nodup) (t : Turn) (k : String × String) :
    (l.erase t).filter (·.key = k) = (l.filter (·.key = k)).filter (· ≠ t) := by
  rw [h.erase_eq_filter, List.filter_filter, List.filter_filter]
  refine List.filter_congr fun u _ => ?_
  grind

theorem filter_erase_of_ne {t : Turn} {k : String × String} (hk : k ≠ t.key) (l : List Turn) :
    (l.erase t).filter (·.key = k) = l.filter (·.key = k) ∧
      (l.erase t).countP (·.key = k) = l.countP (·.key = k) := by
  have hfilter : (l.erase t).filter (·.key = k) = l.filter (·.key = k) := by
    induction l with
    | nil => rfl
    | cons u l ih =>
      by_cases hu : u = t
      · subst hu
        simp [hk.symm]
      · rw [List.erase_cons_tail (by simpa using hu), List.filter_cons, List.filter_cons, ih]
  exact ⟨hfilter, by rw [List.countP_eq_length_filter, hfilter, List.countP_eq_length_filter]⟩

/-- A turn whose lane is handed to it starts. -/
theorem ok_resumeLane {s : LaneRun} {t : Turn} (h : Ok s) (hw : s.laneWait t = some .woken) :
    Ok (start { s.onLock t.key (·.resume t) with waiting := s.waiting.erase t } t) := by
  have hlane := h.lanes t.key
  have hlocked := hlane.ok.locked_eq_false hw
  have hmem : t ∈ s.waiting := by
    have ht := Waiters.mem_tasks_of_wait hw
    rw [hlane.tasks] at ht
    exact List.mem_of_mem_filter ht
  have hnodup := h.nodup
  have hwaiting : s.waiting.Nodup := by grind
  have hlength := List.length_erase_add_one hmem
  refine ⟨fun k => ?_, h.semOk, ?_, ?_, ?_, ?_⟩
  · rw [lock_start]
    change LaneOk ((s.onLock t.key (·.resume t)).lock k) _ _ k
    rw [lock_onLock]
    split_ifs with hk
    · subst hk
      refine ⟨Lock.ok_resume hlane.ok hw, ?_, ?_⟩
      · rw [Lock.tasks_resume, hlane.tasks]
        exact (filter_erase hwaiting _ _).symm
      · have hheld := hlane.held
        simp only [hlocked] at hheld
        simp [start, onLock, Lock.resume, List.countP_append, hheld]
    · refine (h.lanes k).congr (filter_erase_of_ne hk _).1 ?_
      simp [start, onLock, setLane, List.countP_append, Ne.symm hk]
  · have hslots := h.slots
    simp only [start, onLock, setLane, List.length_append, List.length_singleton,
      List.length_nil] at hslots ⊢
    rw [← hslots]
    congr 1
    ext sem
    omega
  · simp [start, onLock, setLane, h.counted]
  · simp only [start, onLock, setLane, queued] at hnodup ⊢
    grind
  · have hknown := h.known
    simp only [start, onLock, setLane, queued] at hknown ⊢
    grind

/-- A turn whose await at its lane raises gives up its place and its slot. -/
theorem ok_abandonLane {s : LaneRun} {t : Turn} (h : Ok s) (hmem : t ∈ s.waiting) :
    Ok { (s.onLock t.key (·.abandon t)).onSem Semaphore.release with
      waiting := s.waiting.erase t } := by
  have hlane := h.lanes t.key
  have hnodup := h.nodup
  have hwaiting : s.waiting.Nodup := by grind
  have hlength := List.length_erase_add_one hmem
  have hqueued : ((s.onLock t.key (·.abandon t)).onSem Semaphore.release).queued = s.queued := by
    rw [queued_onSem]
    simp only [onLock, setLane, (Semaphore.release_spec _).1]
    rfl
  refine ⟨fun k => ?_, fun sem hsem => ?_, ?_, h.counted, ?_, ?_⟩
  · change LaneOk ((s.onLock t.key (·.abandon t)).lock k) _ _ k
    rw [lock_onLock]
    split_ifs with hk
    · subst hk
      refine ⟨Lock.ok_abandon hlane.ok t, ?_, ?_⟩
      · rw [Lock.tasks_abandon, hlane.tasks]
        exact (filter_erase hwaiting _ _).symm
      · rw [Lock.locked_abandon]
        exact hlane.held
    · exact (h.lanes k).congr (filter_erase_of_ne hk _).1 rfl
  · obtain ⟨sem, -, rfl⟩ := Option.mem_map.1 hsem
    exact (Semaphore.release_spec sem).2.2
  · have hslots := h.slots
    simp only [onLock, onSem, setLane, Option.map_map, Function.comp_def,
      (Semaphore.release_spec _).2.1, List.length_nil] at hslots ⊢
    rw [← hslots]
    congr 1
    ext sem
    omega
  · change ([] ++ ((s.onLock t.key (·.abandon t)).onSem Semaphore.release).queued ++ _ ++ _).Nodup
    rw [hqueued]
    simp only [onLock, onSem, setLane]
    grind
  · change ∀ u ∈ [] ++ ((s.onLock t.key (·.abandon t)).onSem Semaphore.release).queued ++ _ ++ _, _
    rw [hqueued]
    have hknown := h.known
    simp only [onLock, onSem, setLane]
    grind

/-- A turn that runs gives up its lane and its slot when it is done. -/
theorem ok_finish {s : LaneRun} {t : Turn} (h : Ok s) (hmem : t ∈ s.running) :
    Ok (s.step (.finish t)) := by
  have hlane := h.lanes t.key
  have hnodup := h.nodup
  have hlength := List.length_erase_add_one hmem
  have hpos : 0 < s.running.countP (·.key = t.key) :=
    List.countP_pos_iff.2 ⟨t, hmem, by simp⟩
  have hlocked : (s.lock t.key).locked = true := by
    by_contra hl
    have hheld := hlane.held
    rw [if_neg hl] at hheld
    omega
  have hcount : (s.running.erase t).countP (·.key = t.key) = 0 := by
    have hheld := hlane.held
    rw [if_pos hlocked] at hheld
    have hperm := (List.perm_cons_erase hmem).countP_eq fun u => decide (u.key = t.key)
    rw [List.countP_cons_of_pos (by simp), hheld] at hperm
    omega
  have hqueued : (s.step (.finish t)).queued = s.queued := by
    simp only [step, if_pos hmem, queued_onSem]
    simp only [onLock, setLane, (Semaphore.release_spec _).1]
    rfl
  have hfields : (s.step (.finish t)).waiting = s.waiting ∧
      (s.step (.finish t)).running = s.running.erase t ∧
      (s.step (.finish t)).calls = s.calls := by
    simp only [step, if_pos hmem]
    exact ⟨rfl, rfl, rfl⟩
  obtain ⟨hwaiting, hrunning, hcalls⟩ := hfields
  refine ⟨fun k => ?_, fun sem hsem => ?_, ?_, ?_, ?_, ?_⟩
  · have hlock : (s.step (.finish t)).lock k = (s.onLock t.key Lock.release).lock k := by
      simp only [step, if_pos hmem, lock_onSem, lock_onLock]
      rfl
    rw [hlock, lock_onLock, hwaiting, hrunning]
    split_ifs with hk
    · subst hk
      refine ⟨Lock.ok_release hlane.ok, ?_, ?_⟩
      · rw [Lock.tasks_release]
        exact hlane.tasks
      · rw [hcount, Lock.locked_release hlocked]
        rfl
    · exact (h.lanes k).congr rfl (filter_erase_of_ne hk _).2
  · simp only [step, if_pos hmem] at hsem
    obtain ⟨sem, -, rfl⟩ := Option.mem_map.1 hsem
    exact (Semaphore.release_spec sem).2.2
  · have hslots := h.slots
    rw [hwaiting, hrunning]
    simp only [step, if_pos hmem, onLock, onSem, setLane, Option.map_map, Function.comp_def,
      (Semaphore.release_spec _).2.1] at hslots ⊢
    rw [← hslots]
    congr 1
    ext sem
    omega
  · have hcounted := h.counted
    rw [hrunning]
    simp only [step, if_pos hmem, onLock, onSem, setLane]
    omega
  · rw [hqueued, hwaiting, hrunning]
    grind
  · rw [hqueued, hwaiting, hrunning, hcalls]
    have hknown := h.known
    grind

/-- A change of the registry that no turn sees. -/
theorem OkBut.congr {transit : List Turn} {s s' : LaneRun} (h : OkBut transit s)
    (hlock : ∀ k, s'.lock k = s.lock k) (hsem : s'.registry.globalSem = s.registry.globalSem)
    (hcap : s'.registry.globalConcurrency = s.registry.globalConcurrency)
    (hcount : s'.registry.inFlightCount = s.registry.inFlightCount)
    (hw : s'.waiting = s.waiting) (hr : s'.running = s.running) (hc : s.calls ≤ s'.calls) :
    OkBut transit s' := by
  have hqueued : s'.queued = s.queued := by rw [queued, queued, hsem]
  refine ⟨fun k => ?_, ?_, ?_, ?_, ?_, fun t ht => ?_⟩
  · rw [hlock, hw, hr]
    exact h.lanes k
  · rw [hsem]
    exact h.semOk
  · rw [hsem, hcap, hw, hr]
    exact h.slots
  · rw [hcount, hr]
    exact h.counted
  · rw [hqueued, hw, hr]
    exact h.nodup
  · rw [hqueued, hw, hr] at ht
    exact (h.known t ht).trans_le hc

/-- An operation on the semaphore that leaves the slots accounted for. -/
theorem OkBut.onSem {transit transit' : List Turn} {s : LaneRun} (h : OkBut transit s)
    {f : Semaphore Turn → Semaphore Turn}
    (hok : ∀ sem ∈ s.registry.globalSem, (f sem).Ok)
    (hbudget : ∀ sem ∈ s.registry.globalSem,
      (f sem).budget + transit'.length = sem.budget + transit.length)
    (hnodup : (transit' ++ (s.onSem f).queued ++ s.waiting ++ s.running).Nodup)
    (hknown : ∀ t ∈ transit' ++ (s.onSem f).queued ++ s.waiting ++ s.running, t.id < s.calls) :
    OkBut transit' (s.onSem f) where
  lanes := h.lanes
  semOk sem hsem := by
    obtain ⟨sem, hmem, rfl⟩ := Option.mem_map.1 hsem
    exact hok sem hmem
  slots := by
    have hslots := h.slots
    simp only [LaneRun.onSem, Option.map_map, Function.comp_def] at hslots ⊢
    rw [← hslots]
    refine Option.map_congr fun sem hsem => ?_
    have := hbudget sem hsem
    omega
  counted := h.counted
  nodup := hnodup
  known := hknown

theorem queued_eq_of_sem {s : LaneRun} {sem : Semaphore Turn}
    (h : s.registry.globalSem = some sem) : s.queued = Waiters.tasks sem.waiters := by
  rw [queued, h]
  rfl

/-- A new turn takes a slot or queues for one. -/
theorem ok_enterGlobal {s : LaneRun} (h : Ok s) {t : Turn}
    (hfresh : t ∉ s.queued ++ s.waiting ++ s.running) (hid : t.id < s.calls) :
    Ok (s.enterGlobal t) := by
  have hnodup := h.nodup
  have hknown := h.known
  unfold enterGlobal
  cases hsem : s.registry.globalSem with
  | none =>
    refine ok_enterLane ⟨h.lanes, h.semOk, ?_, h.counted, by grind, by grind⟩
    have hslots := h.slots
    rw [hsem] at hslots ⊢
    exact hslots
  | some sem =>
    have hqueued := queued_eq_of_sem hsem
    have hsemOk := h.semOk sem hsem
    cases hlocked : sem.locked with
    | true =>
      have hqueued' : (s.onSem (·.enqueue t)).queued = s.queued ++ [t] := by
        rw [queued_onSem, hsem, hqueued]
        exact Semaphore.tasks_enqueue sem t
      change Ok (if sem.locked = true then _ else _)
      rw [if_pos hlocked]
      refine h.onSem (fun sem' hmem => ?_) (fun sem' hmem => ?_) ?_ ?_
      · obtain rfl : sem = sem' := by simpa [hsem] using hmem
        exact Semaphore.ok_enqueue hsemOk hlocked t
      · rw [Semaphore.budget_enqueue]
      · rw [hqueued']
        grind
      · rw [hqueued']
        grind
    | false =>
      have hqueued' : (s.onSem Semaphore.take).queued = s.queued := by
        rw [queued_onSem, hsem, hqueued]
        rfl
      change Ok (if sem.locked = true then _ else _)
      rw [if_neg (by simp [hlocked])]
      refine ok_enterLane (h.onSem (fun sem' hmem => ?_) (fun sem' hmem => ?_) ?_ ?_)
      · obtain rfl : sem = sem' := by simpa [hsem] using hmem
        exact Semaphore.ok_take hlocked
      · obtain rfl : sem = sem' := by simpa [hsem] using hmem
        simpa using Semaphore.budget_take hlocked
      · rw [hqueued']
        grind
      · rw [hqueued']
        grind

theorem ok_call {s : LaneRun} (h : Ok s) (key : String × String) (now : ℚ) :
    Ok (s.call key now) := by
  refine ok_enterGlobal ?_ (fun hmem => ?_) (Nat.lt_succ_self _)
  · refine h.congr (fun k => ?_) rfl rfl rfl rfl rfl (Nat.le_succ _)
    simp only [arriveAt, lock, lane_setLane]
    split_ifs with hk
    · rw [hk, lock_arrive]
    · rfl
  · exact absurd (h.known _ hmem) (lt_irrefl _)

/-- A turn a slot was handed to goes to its lane. -/
theorem ok_resumeGlobal {s : LaneRun} {t : Turn} (h : Ok s)
    (hw : s.globalWait t = some .woken) : Ok ((s.onSem (·.resume t)).enterLane t) := by
  obtain ⟨sem, hsem, hwait⟩ := Option.bind_eq_some_iff.1 hw
  have hqueued := queued_eq_of_sem hsem
  have hmem := Waiters.mem_tasks_of_wait hwait
  have hnodup := h.nodup
  have hknown := h.known
  have hqueued' : (s.onSem (·.resume t)).queued = s.queued.filter (· ≠ t) := by
    rw [queued_onSem, hsem, hqueued]
    exact Semaphore.tasks_resume sem t
  have htasks : (Waiters.tasks sem.waiters).Nodup := by
    rw [← hqueued]
    grind
  refine ok_enterLane (h.onSem (fun sem' hmem' => ?_) (fun sem' hmem' => ?_) ?_ ?_)
  · exact Semaphore.ok_resume _ _
  · obtain rfl : sem = sem' := by simpa [hsem] using hmem'
    simpa using Semaphore.budget_resume htasks hwait
  · rw [hqueued']
    rw [hqueued] at hnodup ⊢
    grind
  · rw [hqueued']
    rw [hqueued] at hknown ⊢
    grind

/-- A turn whose await at the semaphore raises puts back what it was handed. -/
theorem ok_abandonGlobal {s : LaneRun} (h : Ok s) (t : Turn) : Ok (s.onSem (·.abandon t)) := by
  have hnodup := h.nodup
  have hknown := h.known
  have hqueued' : (s.onSem (·.abandon t)).queued = s.queued.filter (· ≠ t) := by
    rw [queued_onSem]
    cases hsem : s.registry.globalSem with
    | none => simp [queued, hsem]
    | some sem =>
      rw [queued_eq_of_sem hsem]
      exact Semaphore.tasks_abandon sem t
  refine h.onSem (fun sem hsem => Semaphore.ok_abandon sem t) (fun sem hsem => ?_) ?_ ?_
  · have htasks : (Waiters.tasks sem.waiters).Nodup := by
      rw [← queued_eq_of_sem hsem]
      grind
    rw [Semaphore.budget_abandon htasks t]
  · rw [hqueued']
    grind
  · rw [hqueued']
    grind

theorem ok_cancelGlobal {s : LaneRun} (h : Ok s) (t : Turn) : Ok (s.onSem (·.cancel t)) := by
  have hqueued' : (s.onSem (·.cancel t)).queued = s.queued := by
    rw [queued_onSem]
    cases hsem : s.registry.globalSem with
    | none => simp [queued, hsem]
    | some sem =>
      rw [queued_eq_of_sem hsem]
      exact Waiters.tasks_cancel _ t
  refine h.onSem (fun sem hsem => Semaphore.ok_cancel (h.semOk sem hsem) t)
    (fun sem _ => by rw [Semaphore.budget_cancel]) ?_ ?_
  · rw [hqueued']
    exact h.nodup
  · rw [hqueued']
    exact h.known

theorem ok_cancelLane {s : LaneRun} (h : Ok s) (t : Turn) :
    Ok (s.onLock t.key (·.cancel t)) := by
  refine ⟨fun k => ?_, h.semOk, h.slots, h.counted, h.nodup, h.known⟩
  rw [lock_onLock]
  split_ifs with hk
  · subst hk
    have hlane := h.lanes t.key
    exact ⟨Lock.ok_cancel hlane.ok t, (Lock.tasks_lockCancel _ t).trans hlane.tasks, hlane.held⟩
  · exact h.lanes k

theorem ok_abortEvent {s : LaneRun} (h : Ok s) (key : String × String) (event : Option Bool) :
    Ok (s.step (.abortEvent key event)) := by
  refine h.congr (fun k => ?_) rfl rfl rfl rfl rfl le_rfl
  simp only [step, lock, lane_setLane]
  split_ifs with hk
  · rw [hk]
  · rfl

theorem mem_waiting_of_laneWait {s : LaneRun} (h : Ok s) {t : Turn} {f : Wait}
    (hw : s.laneWait t = some f) : t ∈ s.waiting := by
  have ht := Waiters.mem_tasks_of_wait hw
  rw [(h.lanes t.key).tasks] at ht
  exact List.mem_of_mem_filter ht

/-- Every event keeps the books. -/
theorem ok_step {s : LaneRun} (h : Ok s) (e : LaneEvent) : Ok (s.step e) := by
  cases e with
  | call key now => exact ok_call h key now
  | resume t =>
    rw [step]
    split_ifs with hglobal hlane
    · exact ok_resumeGlobal h hglobal
    · exact ok_resumeLane h hlane
    · exact h
  | abandon t =>
    rw [step]
    split_ifs with hglobal hlane
    · exact ok_abandonGlobal h t
    · rcases hlane with hlane | hlane
      · exact ok_abandonLane h (mem_waiting_of_laneWait h hlane)
      · exact ok_abandonLane h (mem_waiting_of_laneWait h hlane)
    · exact h
  | cancel t =>
    rw [step]
    split_ifs
    · exact ok_cancelGlobal h t
    · exact ok_cancelLane h t
    · exact h
  | finish t =>
    by_cases hmem : t ∈ s.running
    · exact ok_finish h hmem
    · rw [step, if_neg hmem]
      exact h
  | abortEvent key event => exact ok_abortEvent h key event

/-- The books are in order in every state of every run. -/
theorem ok_trail (globalConcurrency : Option ℤ) (busyPolicy : BusyPolicy)
    (es : List LaneEvent) :
    ∀ s ∈ trail step (new globalConcurrency busyPolicy) es, Ok s :=
  forall_mem_trail (I := Ok) (fun _ e h => ok_step h e)
    (ok_new globalConcurrency busyPolicy) es

theorem globalConcurrency_enterLane (s : LaneRun) (t : Turn) :
    (s.enterLane t).registry.globalConcurrency = s.registry.globalConcurrency := by
  unfold enterLane
  split_ifs <;> rfl

theorem globalConcurrency_enterGlobal (s : LaneRun) (t : Turn) :
    (s.enterGlobal t).registry.globalConcurrency = s.registry.globalConcurrency := by
  unfold enterGlobal
  split
  · exact globalConcurrency_enterLane s t
  · split_ifs
    · rfl
    · exact globalConcurrency_enterLane _ t

theorem globalConcurrency_step (s : LaneRun) (e : LaneEvent) :
    (s.step e).registry.globalConcurrency = s.registry.globalConcurrency := by
  cases e with
  | call key now => exact globalConcurrency_enterGlobal _ _
  | resume t =>
    rw [step]
    split_ifs
    · exact globalConcurrency_enterLane _ t
    · rfl
    · rfl
  | _ =>
    rw [step]
    try split_ifs
    all_goals rfl

/-- The registry keeps its configuration. -/
theorem globalConcurrency_trail (globalConcurrency : Option ℤ) (busyPolicy : BusyPolicy)
    (es : List LaneEvent) :
    ∀ s ∈ trail step (new globalConcurrency busyPolicy) es,
      s.registry.globalConcurrency = globalConcurrency :=
  forall_mem_trail (fun s e h => (globalConcurrency_step s e).trans h) rfl es

theorem running_length_le {s : LaneRun} (h : Ok s) {c : ℕ}
    (hc : cap s.registry.globalConcurrency = some c) : s.running.length ≤ c := by
  have hslots := h.slots
  rw [hc] at hslots
  obtain ⟨sem, -, hsem⟩ := Option.map_eq_some_iff.1 hslots
  omega

/-- In every state of every run at most one turn of a lane runs, at most as many turns run
as the cap says, and the count and its report are the number of turns in the counted section,
zero when there is none. -/
theorem lanes_exclusive (globalConcurrency : Option ℤ) (busyPolicy : BusyPolicy)
    (es : List LaneEvent) :
    ∀ s ∈ trail step (new globalConcurrency busyPolicy) es,
      (∀ key, s.running.countP (·.key = key) ≤ 1) ∧
      (∀ c : ℕ, 0 < c → globalConcurrency = some (c : ℤ) → s.running.length ≤ c) ∧
      s.registry.inFlightCount = s.running.length ∧
      (∀ n ∈ s.registry.stats.globalInFlight, n = s.running.length) ∧
      (s.running = [] → s.registry.inFlightCount = 0) := by
  intro s hs
  have hok := ok_trail globalConcurrency busyPolicy es s hs
  have hconfig := globalConcurrency_trail globalConcurrency busyPolicy es s hs
  refine ⟨fun key => ?_, fun c hpos hc => ?_, hok.counted, fun n hn => ?_, fun hnone => ?_⟩
  · rw [(hok.lanes key).held]
    split_ifs <;> omega
  · refine running_length_le hok ?_
    rw [hconfig, hc]
    simp [cap, hpos]
  · obtain ⟨c, -, rfl⟩ := Option.mem_map.1 hn
    exact hok.counted
  · rw [hok.counted, hnone]
    rfl

/-- Two turns of two lanes, with one slot. -/
def twoLanes : List LaneEvent :=
  [.call ("main", "a") 0, .call ("main", "b") 1]

theorem lanes_exclusive_twoLanes :
    (twoLanes.foldl step (new (some 1) .queue)).running.length ≤ 1 ∧
      (twoLanes.foldl step (new (some 1) .queue)).registry.inFlightCount =
        (twoLanes.foldl step (new (some 1) .queue)).running.length := by
  obtain ⟨-, hcap, hcount, -⟩ :=
    lanes_exclusive (some 1) .queue twoLanes _ (foldl_mem_trail twoLanes _)
  exact ⟨hcap 1 (by decide) rfl, hcount⟩

/-! ## Slots held by turns that wait for their lane -/

/-- No wake-up and no cancellation is still to be delivered : every future waited for is
pending. -/
def Settled (s : LaneRun) : Prop :=
  (∀ sem ∈ s.registry.globalSem, ∀ w ∈ sem.waiters, w.2 = .pending) ∧
    ∀ e ∈ s.registry.lanes, ∀ w ∈ e.2.lock.waiters, w.2 = .pending

/-- No other turn of the session runs or waits before this one. -/
def LaneIdle (s : LaneRun) (t : Turn) : Prop :=
  (∀ u ∈ s.running, u.key ≠ t.key) ∧
    ∀ u ∈ s.queued ++ s.waiting, u.key = t.key → u ≠ t → t.id < u.id

/-- A turn whose lane is idle waits only while as many turns run as the cap says. -/
def NeverBlocked (s : LaneRun) : Prop :=
  s.Settled → ∀ t ∈ s.queued ++ s.waiting, s.LaneIdle t →
    ∃ c ∈ cap s.registry.globalConcurrency, c ≤ s.running.length

/-- A turn holds a slot while it waits for its lane, and a turn whose lane is idle waits for
a slot. -/
def SlotHeldWaiting (s : LaneRun) : Prop :=
  s.Settled ∧ (∃ t ∈ s.queued, s.LaneIdle t) ∧ s.waiting ≠ []

instance (s : LaneRun) : Decidable s.Settled :=
  inferInstanceAs (Decidable (_ ∧ _))

instance (s : LaneRun) (t : Turn) : Decidable (s.LaneIdle t) :=
  inferInstanceAs (Decidable (_ ∧ _))

theorem Settled.lock {s : LaneRun} (h : s.Settled) (key : String × String) :
    ∀ w ∈ (s.lock key).waiters, w.2 = .pending := by
  unfold LaneRun.lock lane
  cases hlane : s.registry.lanes.get? key with
  | none => simp
  | some l => exact h.2 (key, l) (Dict.mem_of_get? hlane)

/-- In a settled state a turn waits for its lane behind a turn that runs. -/
theorem exists_running_of_waiting {s : LaneRun} (h : Ok s) (hs : s.Settled) {t : Turn}
    (ht : t ∈ s.waiting) : ∃ u ∈ s.running, u.key = t.key := by
  have hlane := h.lanes t.key
  have htask : t ∈ Waiters.tasks (s.lock t.key).waiters := by
    rw [hlane.tasks]
    exact List.mem_filter.2 ⟨ht, by simp⟩
  have hne : (s.lock t.key).waiters ≠ [] := by
    rintro hnil
    simp [hnil, Waiters.tasks] at htask
  have hheld := hlane.held
  rw [if_pos (hlane.ok.locked_of_pending (hs.lock t.key) hne)] at hheld
  have hpos : 0 < s.running.countP (·.key = t.key) := by omega
  obtain ⟨u, hu, hkey⟩ := List.countP_pos_iff.1 hpos
  exact ⟨u, hu, by simpa using hkey⟩

/-- In a settled state with a turn waiting for a slot, every slot is held by a turn that runs
or waits for its lane. -/
theorem slots_of_queued {s : LaneRun} (h : Ok s) (hs : s.Settled) {t : Turn}
    (ht : t ∈ s.queued) : cap s.registry.globalConcurrency =
      some (s.waiting.length + s.running.length) := by
  cases hsem : s.registry.globalSem with
  | none => simp [queued, hsem] at ht
  | some sem =>
    rw [queued_eq_of_sem hsem] at ht
    have hne : sem.waiters ≠ [] := by
      rintro hnil
      simp [hnil, Waiters.tasks] at ht
    have hbudget := (h.semOk sem hsem).budget_eq_zero (hs.1 sem hsem) hne
    have hslots := h.slots
    rw [hsem] at hslots
    simpa [hbudget] using hslots.symm

/-- A blocked turn of an idle lane is blocked by slots that turns hold while they wait. -/
theorem neverBlocked_iff {s : LaneRun} (h : Ok s) : s.NeverBlocked ↔ ¬ s.SlotHeldWaiting := by
  constructor
  · rintro hnever ⟨hs, ⟨t, ht, hidle⟩, hwaiting⟩
    obtain ⟨c, hc, hle⟩ := hnever hs t (List.mem_append_left _ ht) hidle
    rw [slots_of_queued h hs ht, Option.mem_some_iff] at hc
    have := List.length_pos_iff.2 hwaiting
    omega
  · intro hheld hs t ht hidle
    rcases List.mem_append.1 ht with ht | ht
    · have hwaiting : s.waiting = [] := by
        by_contra hne
        exact hheld ⟨hs, ⟨t, ht, hidle⟩, hne⟩
      refine ⟨_, slots_of_queued h hs ht, ?_⟩
      simp [hwaiting]
    · obtain ⟨u, hu, hkey⟩ := exists_running_of_waiting h hs ht
      exact absurd hkey (hidle.1 u hu)

/-- Along a run no turn of an idle lane is blocked below the cap exactly if no turn holds a
slot while it waits for its lane and a turn of an idle lane waits for a slot. -/
theorem neverBlocked_run_iff (globalConcurrency : Option ℤ) (busyPolicy : BusyPolicy)
    (es : List LaneEvent) :
    (∀ s ∈ trail step (new globalConcurrency busyPolicy) es, s.NeverBlocked) ↔
      ∀ s ∈ trail step (new globalConcurrency busyPolicy) es, ¬ s.SlotHeldWaiting :=
  forall₂_congr fun s hs => neverBlocked_iff (ok_trail globalConcurrency busyPolicy es s hs)

/-- Two messages of one session and one of another, with two slots. -/
def burst : List LaneEvent :=
  [.call ("main", "a") 0, .call ("main", "a") 1, .call ("main", "b") 2]

theorem burst_blocked : ¬ ∀ (globalConcurrency : Option ℤ) (busyPolicy : BusyPolicy)
    (es : List LaneEvent), ∀ s ∈ trail step (new globalConcurrency busyPolicy) es,
      s.NeverBlocked := by
  intro h
  have hlast := h (some 2) .queue burst _ (foldl_mem_trail burst _)
  have hblocked : ¬ ∃ c ∈ cap (some 2),
      c ≤ (burst.foldl step (new (some 2) .queue)).running.length := by
    decide
  exact hblocked (hlast (by decide) ⟨2, ("main", "b")⟩ (by decide) (by decide))

end LaneRun

end OxenClaw
