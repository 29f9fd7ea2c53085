import OxenClaw.Lib.Asyncio
import OxenClaw.Lib.Dict
import OxenClaw.Lib.Runs
import OxenClaw.Lib.Trace

/-!
# The child processes of a subprocess runtime

`ensure_session` (`acp/subprocess_runtime.py`) makes sure that a child process runs, and asks it for
a session unless the tables have one for the key. A call suspends at the spawn lock, at
`create_subprocess_exec`, at its `initialize` request and at its `session/new` request, and a
`RuntimeEvent` is what happens between two of these points. `run_turn` writes its prompt before it
first suspends. Child processes are numbered in the order they are spawned.

`Runtime.wire` is what the runtime and its children have sent each other. The prompts and the
requests for sessions are in order (`Runtime.InOrder`) exactly if every call that finds a child
running finds it initialized, every turn finds a session of the running child, and no call records
a session for a key that has another one by then (`wire_inOrder_iff`).
-/

namespace OxenClaw.Acp

open Asyncio

/-- The messages that matter here, with the number of the child they went to or came from. -/
inductive WireMessage where
  | initializeRequest (child : ℕ)
  | initializeResponse (child : ℕ) (succeeds : Bool)
  | newSessionRequest (child : ℕ)
  | newSessionResult (child : ℕ) (sessionId : String)
  | prompt (child : ℕ) (sessionId : String)
  deriving DecidableEq

/-- `_proc`. It runs while its `returncode` is `None`. -/
structure ChildProcess where
  number : ℕ
  running : Bool
  deriving DecidableEq

/-- `_SessionState`, with the key of its handle. -/
structure SessionState where
  sessionId : String
  sessionKey : String
  deriving DecidableEq

/-- Where a call of `ensure_session` is. A request is answered once its future is done. -/
inductive EnsurePhase where
  /-- At `async with self._spawn_lock`. -/
  | locking
  /-- At `create_subprocess_exec`. -/
  | spawning
  /-- At the `initialize` request. -/
  | handshaking (answer : Option Bool)
  /-- At the `session/new` request. No session id is an error, or a result without one. -/
  | creating (answer : Option (Option String))
  /-- The session id of the handle, or an exception. -/
  | ended (sessionId : Option String)
  deriving DecidableEq

/-- A call of `ensure_session`, with the children its requests went to. -/
structure EnsureCall where
  sessionKey : String
  phase : EnsurePhase
  greeted : Option ℕ := none
  asked : Option ℕ := none
  deriving DecidableEq

/-- The response to `initialize` is set, where a future waits for it. -/
def EnsureCall.initializes (c : EnsureCall) (succeeds : Bool) : EnsureCall :=
  if c.phase = .handshaking none then { c with phase := .handshaking (some succeeds) } else c

/-- The response to `session/new` is set, where a future waits for it. -/
def EnsureCall.creates (c : EnsureCall) (sessionId : Option String) : EnsureCall :=
  if c.phase = .creating none then { c with phase := .creating (some sessionId) } else c

/-- `SubprocessAcpRuntime`, with the calls of `ensure_session` that were made. -/
structure Runtime where
  proc : Option ChildProcess := none
  spawned : ℕ := 0
  /-- The children whose reader task goes on. -/
  readers : List ℕ := []
  spawnLock : Lock ℕ := {}
  sessionsByKey : Dict String SessionState := []
  sessionsById : Dict String SessionState := []
  calls : Dict ℕ EnsureCall := []
  wire : List WireMessage := []

inductive RuntimeEvent where
  /-- `ensure_session` is called. -/
  | ensure (call : ℕ) (sessionKey : String)
  /-- The task of a call runs on, what it waits for being there. -/
  | resume (call : ℕ)
  /-- A call is cancelled where it waits for the lock. -/
  | cancel (call : ℕ)
  /-- The await of a call raises : the spawn or the write has failed, or the call is cancelled. -/
  | raise (call : ℕ)
  /-- The reader gets the response to the `initialize` request of a call. -/
  | answerInitialize (call : ℕ) (succeeds : Bool)
  /-- The reader gets the response to the `session/new` request of a call. -/
  | answerNewSession (call : ℕ) (sessionId : Option String)
  /-- The child exits. -/
  | exit
  /-- The reader task of a child comes to the end of its stream. -/
  | readerEnds (child : ℕ)
  /-- `run_turn` is called and asked for its first event. -/
  | turn (sessionKey : String)
  /-- `close` -/
  | close (sessionKey : String)

namespace Runtime

/-- Nothing is spawned. -/
def new : Runtime := {}

def setCall (s : Runtime) (call : ℕ) (c : EnsureCall) : Runtime :=
  { s with calls := s.calls.set call c }

def send (s : Runtime) (messages : List WireMessage) : Runtime :=
  { s with wire := s.wire ++ messages }

/-- `release` of the spawn lock. -/
def unlock (s : Runtime) : Runtime :=
  { s with spawnLock := s.spawnLock.release }

/-- `self._proc is not None and self._proc.returncode is None` -/
def isRunning (s : Runtime) : Bool :=
  s.proc.any (·.running)

/-- The number of `_proc`. -/
def child (s : Runtime) : Option ℕ :=
  s.proc.map (·.number)

/-- `ensure_session` from the end of `_ensure_spawned` on. -/
def proceed (s : Runtime) (call : ℕ) (c : EnsureCall) : Runtime :=
  match s.sessionsByKey.get? c.sessionKey with
  | some existing => s.setCall call { c with phase := .ended (some existing.sessionId) }
  | none =>
    match s.child with
    | none => s.setCall call { c with phase := .ended none }
    | some child =>
      (s.send [.newSessionRequest child]).setCall call
        { c with phase := .creating none, asked := some child }

/-- `_ensure_spawned` with the lock taken. -/
def locked (s : Runtime) (call : ℕ) (c : EnsureCall) : Runtime :=
  if s.isRunning then s.unlock.proceed call c
  else s.setCall call { c with phase := .spawning }

/-- `_ensure_spawned` up to where it first suspends. -/
def ensure (s : Runtime) (call : ℕ) (sessionKey : String) : Runtime :=
  let c : EnsureCall := { sessionKey, phase := .locking }
  if s.isRunning then s.proceed call c
  else if s.spawnLock.isFree then { s with spawnLock := s.spawnLock.take }.locked call c
  else { s with spawnLock := s.spawnLock.enqueue call }.setCall call c

/-- The child is there : its reader is started and `initialize` is sent to it. -/
def handshake (s : Runtime) (call : ℕ) (c : EnsureCall) : Runtime :=
  let s' : Runtime := { s with
    proc := some ⟨s.spawned, true⟩
    spawned := s.spawned + 1
    readers := s.readers ++ [s.spawned] }
  (s'.send [.initializeRequest s.spawned]).setCall call
    { c with phase := .handshaking none, greeted := some s.spawned }

/-- A call ends with an exception, which gives the lock back where it has it. -/
def fails (s : Runtime) (call : ℕ) (c : EnsureCall) : Runtime :=
  let s := s.setCall call { c with phase := .ended none }
  match c.phase with
  | .spawning | .handshaking _ => s.unlock
  | _ => s

/-- `ensure_session` from the response to `session/new` on. -/
def record (s : Runtime) (call : ℕ) (c : EnsureCall) (sessionId : String) : Runtime :=
  let state : SessionState := ⟨sessionId, c.sessionKey⟩
  { s with
    sessionsByKey := s.sessionsByKey.set c.sessionKey state
    sessionsById := s.sessionsById.set sessionId state }.setCall call
      { c with phase := .ended (some sessionId) }

def resume (s : Runtime) (call : ℕ) : Runtime :=
  match s.calls.get? call with
  | none => s
  | some c =>
    match c.phase with
    | .locking =>
      if Waiters.wait s.spawnLock.waiters call = some .woken then
        { s with spawnLock := s.spawnLock.resume call }.locked call c
      else s
    | .spawning => s.handshake call c
    | .handshaking (some true) => s.unlock.proceed call c
    | .handshaking (some false) => s.fails call c
    | .creating (some (some sessionId)) => s.record call c sessionId
    | .creating (some none) => s.fails call c
    | .handshaking none | .creating none | .ended _ => s

def raise (s : Runtime) (call : ℕ) : Runtime :=
  match s.calls.get? call with
  | none => s
  | some c =>
    match c.phase with
    | .locking =>
      if Waiters.wait s.spawnLock.waiters call = some .woken ∨
          Waiters.wait s.spawnLock.waiters call = some .cancelled then
        { s with spawnLock := s.spawnLock.abandon call }.setCall call
          { c with phase := .ended none }
      else s
    | .ended _ => s
    | _ => s.fails call c

/-- A response to `initialize`, to a call that may be over. -/
def answerInitialize (s : Runtime) (call : ℕ) (succeeds : Bool) : Runtime :=
  match s.calls.get? call with
  | none => s
  | some c =>
    match c.greeted with
    | none => s
    | some child =>
      if child ∈ s.readers then
        (s.send [.initializeResponse child succeeds]).setCall call (c.initializes succeeds)
      else s

/-- A response to `session/new`, to a call that may be over. -/
def answerNewSession (s : Runtime) (call : ℕ) (sessionId : Option String) : Runtime :=
  match s.calls.get? call with
  | none => s
  | some c =>
    match c.asked with
    | none => s
    | some child =>
      if child ∈ s.readers then
        (s.send (sessionId.map (WireMessage.newSessionResult child)).toList).setCall call
          (c.creates sessionId)
      else s

/-- `fut.set_exception(..)` of a call whose future is not done. -/
def failPending (c : EnsureCall) : EnsureCall :=
  match c.phase with
  | .handshaking none => { c with phase := .handshaking (some false) }
  | .creating none => { c with phase := .creating (some none) }
  | _ => c

/-- The `finally` of `_reader_loop`, which fails the requests to whatever child. -/
def readerEnds (s : Runtime) (child : ℕ) : Runtime :=
  if child ∈ s.readers then
    { s with
      readers := s.readers.erase child
      calls := s.calls.map fun e => (e.1, failPending e.2) }
  else s

/-- `_run_turn` up to where it first suspends. -/
def turn (s : Runtime) (sessionKey : String) : Runtime :=
  match s.sessionsByKey.get? sessionKey, s.child with
  | some state, some child => { s with wire := s.wire ++ [.prompt child state.sessionId] }
  | _, _ => s

def close (s : Runtime) (sessionKey : String) : Runtime :=
  match s.sessionsByKey.get? sessionKey with
  | none => s
  | some state =>
    { s with
      sessionsByKey := s.sessionsByKey.erase sessionKey
      sessionsById := s.sessionsById.erase state.sessionId }

/-- One event. An event of a call that is not at that point changes nothing. -/
def step (s : Runtime) : RuntimeEvent → Runtime
  | .ensure call sessionKey =>
    if (s.calls.get? call).isSome then s else s.ensure call sessionKey
  | .resume call => s.resume call
  | .cancel call => { s with spawnLock := s.spawnLock.cancel call }
  | .raise call => s.raise call
  | .answerInitialize call succeeds => s.answerInitialize call succeeds
  | .answerNewSession call sessionId => s.answerNewSession call sessionId
  | .exit => { s with proc := s.proc.map fun p => { p with running := false } }
  | .readerEnds child => s.readerEnds child
  | .turn sessionKey => s.turn sessionKey
  | .close sessionKey => s.close sessionKey

/-! ## What is in order -/

/-- The child has answered `initialize`. With `errorsCount` an error response is an answer too. -/
def Answered (errorsCount : Bool) (wire : List WireMessage) (child : ℕ) : Prop :=
  .initializeResponse child true ∈ wire ∨
    errorsCount = true ∧ .initializeResponse child false ∈ wire

/-- What may be sent after what has been sent before. -/
def Permitted (errorsCount : Bool) (before : List WireMessage) : WireMessage → Prop
  | .newSessionRequest child => Answered errorsCount before child
  | .prompt child sessionId =>
    Answered errorsCount before child ∧ .newSessionResult child sessionId ∈ before
  | _ => True

/-- All that was sent was permitted, and updates reach one session of a key at most. -/
structure InOrder (errorsCount : Bool) (s : Runtime) : Prop where
  wire : Justified (Permitted errorsCount) s.wire
  single : ∀ id id' state state', s.sessionsById.get? id = some state →
    s.sessionsById.get? id' = some state' → state.sessionKey = state'.sessionKey → id = id'

/-- Where the tables have no session of the key, the child has answered `initialize`. -/
def Ready (errorsCount : Bool) (s : Runtime) (sessionKey : String) : Prop :=
  s.sessionsByKey.get? sessionKey = none →
    ∀ child, s.child = some child → Answered errorsCount s.wire child

/-- A call that finds a child running finds it initialized, it records its session where there is no
other one of the key, and a turn has a session of the child. -/
def Clean (errorsCount : Bool) (s : Runtime) : RuntimeEvent → Prop
  | .ensure call sessionKey =>
    s.calls.get? call = none → s.isRunning = true → Ready errorsCount s sessionKey
  | .resume call => ∀ c, s.calls.get? call = some c →
    (c.phase = .locking → Waiters.wait s.spawnLock.waiters call = some .woken →
      s.isRunning = true → Ready errorsCount s c.sessionKey) ∧
    ∀ sessionId, c.phase = .creating (some (some sessionId)) →
      ∀ id state, s.sessionsById.get? id = some state → state.sessionKey = c.sessionKey →
        id = sessionId
  | .turn sessionKey => ∀ state child, s.sessionsByKey.get? sessionKey = some state →
    s.child = some child → .newSessionResult child state.sessionId ∈ s.wire
  | _ => True

/-! ## The call that holds the lock -/

end Runtime

/-- The phases of a call inside the lock. -/
def EnsurePhase.spawns : EnsurePhase → Bool
  | .spawning | .handshaking _ => true
  | _ => false

namespace Runtime

variable {s s' : Runtime} {holder holder' : Option ℕ} {call : ℕ} {c : EnsureCall}
  {errorsCount : Bool}

/-- A call inside the lock is the one that holds it, and what it has got from a child it has got
from the child there is. -/
structure CallOk (holder : Option ℕ) (s : Runtime) (call : ℕ) (c : EnsureCall) : Prop where
  spawns : c.phase.spawns = true → holder = some call
  handshaking : ∀ answer, c.phase = .handshaking answer → ∃ child, s.child = some child ∧
    c.greeted = some child ∧ (answer = some true → .initializeResponse child true ∈ s.wire)
  asked : ∀ child, c.asked = some child → .newSessionRequest child ∈ s.wire

/-- What every event keeps. -/
structure Inv (holder : Option ℕ) (s : Runtime) : Prop where
  lock : s.spawnLock.Ok
  free : s.spawnLock.locked = false → holder = none
  calls : ∀ call c, s.calls.get? call = some c → CallOk holder s call c
  results : ∀ child id, .newSessionResult child id ∈ s.wire → .newSessionRequest child ∈ s.wire

/-- A call goes on : the others are as they were, and inside the lock only where the holder stays. -/
theorem Inv.write (hs : Inv holder s) (hlock : s'.spawnLock.Ok)
    (hfree : s'.spawnLock.locked = false → holder' = none)
    (hcalls : ∀ k, s'.calls.get? k = if k = call then some c else s.calls.get? k)
    (hwire : s.wire ⊆ s'.wire)
    (hothers : holder = none ∨ holder = some call ∨ holder' = holder ∧ s'.child = s.child)
    (hresults : ∀ child id, .newSessionResult child id ∈ s'.wire →
      .newSessionRequest child ∈ s'.wire)
    (hc : CallOk holder' s' call c) : Inv holder' s' where
  lock := hlock
  free := hfree
  calls k c' hk := by
    rw [hcalls] at hk
    split_ifs at hk with hne
    · rw [hne, ← Option.some.inj hk]
      exact hc
    · have hok := hs.calls k c' hk
      have hstays : c'.phase.spawns = true → holder' = holder ∧ s'.child = s.child := by
        intro hspawns
        have hholder := hok.spawns hspawns
        rcases hothers with h | h | h
        · rw [hholder] at h
          cases h
        · rw [hholder] at h
          exact absurd (Option.some.inj h) hne
        · exact h
      refine ⟨fun hspawns => ?_, fun answer hphase => ?_, fun child h => hwire (hok.asked child h)⟩
      · rw [(hstays hspawns).1]
        exact hok.spawns hspawns
      · obtain ⟨child, hchild, hgreeted, hanswer⟩ := hok.handshaking answer hphase
        have hsame := (hstays (by rw [hphase]; rfl)).2
        exact ⟨child, hsame.trans hchild, hgreeted, fun h => hwire (hanswer h)⟩
  results := hresults

/-- A call that holds the lock no longer, or has never held it, goes on. -/
theorem Inv.ends (hs : Inv holder s) (hlock : s'.spawnLock.Ok)
    (hfree : s'.spawnLock.locked = false → holder' = none)
    (hothers : holder = none ∨ holder = some call ∨ holder' = holder) (hproc : s'.child = s.child)
    (hcalls : ∀ k, s'.calls.get? k = if k = call then some c else s.calls.get? k)
    (hwire : s'.wire = s.wire) (hspawns : c.phase.spawns = false)
    (hasked : ∀ child, c.asked = some child → .newSessionRequest child ∈ s.wire) :
    Inv holder' s' := by
  refine hs.write hlock hfree hcalls (by rw [hwire]; exact fun _ h => h)
    (hothers.imp_right fun h => h.imp_right fun h => ⟨h, hproc⟩) (by rw [hwire]; exact hs.results)
    ⟨fun h => ?_, fun answer hphase => ?_, by rw [hwire]; exact hasked⟩
  · rw [hspawns] at h
    cases h
  · rw [hphase] at hspawns
    cases hspawns

theorem proceed_cases (s : Runtime) (call : ℕ) (c : EnsureCall) :
    (s.sessionsByKey.get? c.sessionKey = none ∧ ∃ child, s.child = some child ∧
      s.proceed call c = (s.send [.newSessionRequest child]).setCall call
        { c with phase := .creating none, asked := some child }) ∨
    ((s.sessionsByKey.get? c.sessionKey = none → s.child = none) ∧
      ∃ result, s.proceed call c = s.setCall call { c with phase := .ended result }) := by
  unfold proceed
  rcases hkey : s.sessionsByKey.get? c.sessionKey with _ | existing
  · rcases hchild : s.child with _ | child
    · exact Or.inr ⟨fun _ => rfl, none, rfl⟩
    · exact Or.inl ⟨rfl, child, rfl, rfl⟩
  · exact Or.inr ⟨nofun, some existing.sessionId, rfl⟩

theorem Inv.proceed (hs : Inv holder s) {l : Lock ℕ} (hlock : l.Ok)
    (hfree : l.locked = false → holder' = none)
    (hothers : holder = none ∨ holder = some call ∨ holder' = holder)
    (hasked : ∀ child, c.asked = some child → .newSessionRequest child ∈ s.wire) :
    Inv holder' ({ s with spawnLock := l }.proceed call c) := by
  rcases proceed_cases { s with spawnLock := l } call c with ⟨-, child, -, heq⟩ | ⟨-, result, heq⟩
  · rw [heq]
    refine hs.write hlock hfree (fun k => Dict.get?_set _ call k _) (List.subset_append_left _ _)
      (hothers.imp_right fun h => h.imp_right fun h => ⟨h, rfl⟩) (fun child' id h => ?_)
      ⟨nofun, nofun, fun child' h => ?_⟩
    · have hold : .newSessionResult child' id ∈ s.wire := by simpa [send, setCall] using h
      exact List.mem_append_left _ (hs.results child' id hold)
    · obtain rfl := Option.some.inj h
      exact List.mem_append_right _ (List.mem_singleton.2 rfl)
  · rw [heq]
    exact hs.ends hlock hfree hothers rfl (fun k => Dict.get?_set _ call k _) rfl rfl hasked

/-- The lock is taken by a call, to spawn a child or to find that it need not. -/
theorem Inv.locked (hs : Inv none s) {l : Lock ℕ} (hlock : l.Ok) (hlocked : l.locked = true)
    (hasked : ∀ child, c.asked = some child → .newSessionRequest child ∈ s.wire) :
    ∃ holder, Inv holder ({ s with spawnLock := l }.locked call c) := by
  unfold Runtime.locked
  split_ifs
  · exact ⟨none, hs.proceed (Lock.ok_release hlock) (fun _ => rfl) (Or.inl rfl) hasked⟩
  · refine ⟨some call, hs.write hlock (fun hfree => ?_) (fun k => Dict.get?_set _ call k _)
      (fun _ h => h) (Or.inl rfl) hs.results ⟨fun _ => rfl, nofun, hasked⟩⟩
    rw [show l.locked = false from hfree] at hlocked
    cases hlocked

theorem InOrder.congr (h : s.InOrder errorsCount) (hwire : s'.wire = s.wire)
    (hsessions : s'.sessionsById = s.sessionsById) : s'.InOrder errorsCount :=
  ⟨by rw [hwire]; exact h.wire, by rw [hsessions]; exact h.single⟩

theorem inOrder_append_iff (h : s.InOrder errorsCount) {message : WireMessage}
    (hwire : s'.wire = s.wire ++ [message]) (hsessions : s'.sessionsById = s.sessionsById) :
    s'.InOrder errorsCount ↔ Permitted errorsCount s.wire message := by
  constructor
  · intro h'
    have hjustified := h'.wire
    rw [hwire, justified_append_singleton] at hjustified
    exact hjustified.2
  · intro hpermitted
    refine ⟨?_, by rw [hsessions]; exact h.single⟩
    rw [hwire, justified_append_singleton]
    exact ⟨h.wire, hpermitted⟩

theorem inOrder_proceed_iff (h : s.InOrder errorsCount) (call : ℕ) (c : EnsureCall) :
    (s.proceed call c).InOrder errorsCount ↔ Ready errorsCount s c.sessionKey := by
  rcases proceed_cases s call c with ⟨hkey, child, hchild, heq⟩ | ⟨hnone, result, heq⟩
  · rw [heq]
    refine Iff.trans (inOrder_append_iff h rfl rfl)
      ⟨fun hanswered _ child' h' => ?_, fun hready => hready hkey child hchild⟩
    rw [hchild] at h'
    obtain rfl := Option.some.inj h'
    exact hanswered
  · rw [heq]
    refine iff_of_true (h.congr rfl rfl) fun hkey child hchild => ?_
    rw [hnone hkey] at hchild
    cases hchild

/-- With the lock, only a child that runs already may not be ready. -/
theorem inOrder_locked_iff (h : s.InOrder errorsCount) (call : ℕ) (c : EnsureCall) :
    (s.locked call c).InOrder errorsCount ↔
      (s.isRunning = true → Ready errorsCount s c.sessionKey) := by
  unfold Runtime.locked
  split_ifs with hrunning
  · have hunlock : s.unlock.InOrder errorsCount := h.congr rfl rfl
    rw [inOrder_proceed_iff hunlock]
    exact ⟨fun hready _ => hready, fun hready => hready hrunning⟩
  · exact iff_of_true (h.congr rfl rfl) fun hrun => absurd hrun hrunning

/-! ## Each event -/

theorem Inv.holder_eq_none (hs : Inv holder s) (h : s.spawnLock.locked = false) : Inv none s :=
  hs.free h ▸ hs

theorem step_ensure (hs : Inv holder s) (ho : s.InOrder errorsCount) (call : ℕ)
    (sessionKey : String) :
    (∃ holder', Inv holder' (s.step (.ensure call sessionKey))) ∧
      ((s.step (.ensure call sessionKey)).InOrder errorsCount ↔
        Clean errorsCount s (.ensure call sessionKey)) := by
  have hasked : ∀ child, (none : Option ℕ) = some child → .newSessionRequest child ∈ s.wire := nofun
  simp only [step, Clean]
  by_cases hknown : (s.calls.get? call).isSome = true
  · rw [if_pos hknown]
    refine ⟨⟨holder, hs⟩, iff_of_true ho fun hnone => ?_⟩
    rw [hnone] at hknown
    cases hknown
  · have hnone : s.calls.get? call = none := by simpa using hknown
    rw [if_neg hknown]
    unfold Runtime.ensure
    split_ifs with hrunning hfree
    · refine ⟨⟨holder, hs.proceed hs.lock hs.free (Or.inr (Or.inr rfl)) hasked⟩, ?_⟩
      rw [inOrder_proceed_iff ho]
      exact ⟨fun h _ _ => h, fun h => h hnone hrunning⟩
    · have hlocked : s.spawnLock.locked = false := by
        simpa using (Bool.and_eq_true_iff.1 hfree).1
      refine ⟨(hs.holder_eq_none hlocked).locked (Lock.ok_take hfree) rfl hasked, ?_⟩
      have ho' : { s with spawnLock := s.spawnLock.take }.InOrder errorsCount := ho.congr rfl rfl
      rw [inOrder_locked_iff ho']
      exact iff_of_true (fun h => absurd h hrunning) fun _ h => absurd h hrunning
    · refine ⟨⟨holder, hs.ends (Lock.ok_enqueue hs.lock (by simpa using hfree) call) hs.free
        (Or.inr (Or.inr rfl)) rfl (fun k => Dict.get?_set _ call k _) rfl rfl hasked⟩, ?_⟩
      exact iff_of_true (ho.congr rfl rfl) fun _ h => absurd h hrunning

/-- A call that fails inside the lock gives it back. -/
theorem Inv.fails (hs : Inv holder s) (hc : s.calls.get? call = some c) :
    ∃ holder', Inv holder' (s.fails call c) := by
  have hok := hs.calls call c hc
  have hgives (hspawns : c.phase.spawns = true) :
      ∃ holder', Inv holder' (s.setCall call { c with phase := .ended none }).unlock :=
    ⟨none, hs.ends (Lock.ok_release hs.lock) (fun _ => rfl)
      (Or.inr (Or.inl (hok.spawns hspawns))) rfl (fun k => Dict.get?_set _ call k _) rfl rfl
      hok.asked⟩
  have hkeeps : ∃ holder', Inv holder' (s.setCall call { c with phase := .ended none }) :=
    ⟨holder, hs.ends hs.lock hs.free (Or.inr (Or.inr rfl)) rfl
      (fun k => Dict.get?_set _ call k _) rfl rfl hok.asked⟩
  unfold Runtime.fails
  simp only
  split
  · next hphase => exact hgives (by rw [hphase]; rfl)
  · next hphase => exact hgives (by rw [hphase]; rfl)
  · exact hkeeps

theorem InOrder.fails (ho : s.InOrder errorsCount) (call : ℕ) (c : EnsureCall) :
    (s.fails call c).InOrder errorsCount := by
  unfold Runtime.fails
  simp only
  split <;> exact ho.congr rfl rfl

theorem Inv.handshake (hs : Inv holder s) (hc : s.calls.get? call = some c)
    (hphase : c.phase = .spawning) : Inv holder (s.handshake call c) := by
  have hok := hs.calls call c hc
  have hholder := hok.spawns (by rw [hphase]; rfl)
  refine hs.write hs.lock hs.free (fun k => Dict.get?_set _ call k _)
    (List.subset_append_left _ _) (Or.inr (Or.inl hholder)) (fun child id h => ?_)
    ⟨fun _ => hholder, fun answer h => ⟨s.spawned, rfl, rfl, fun hanswer => ?_⟩,
      fun child h => List.mem_append_left _ (hok.asked child h)⟩
  · have hold : .newSessionResult child id ∈ s.wire := by
      simpa [Runtime.handshake, send, setCall] using h
    exact List.mem_append_left _ (hs.results child id hold)
  · rw [← EnsurePhase.handshaking.inj h] at hanswer
    cases hanswer

/-- A recorded session is the only one of its key exactly if there was no other one. -/
theorem inOrder_record_iff (ho : s.InOrder errorsCount) (call : ℕ) (c : EnsureCall)
    (sessionId : String) : (s.record call c sessionId).InOrder errorsCount ↔
      ∀ id state, s.sessionsById.get? id = some state → state.sessionKey = c.sessionKey →
        id = sessionId := by
  have hget (id : String) : (s.record call c sessionId).sessionsById.get? id =
      if id = sessionId then some ⟨sessionId, c.sessionKey⟩ else s.sessionsById.get? id :=
    Dict.get?_set _ sessionId id _
  constructor
  · intro h id state hid hkey
    by_contra hne
    refine hne (h.single id sessionId state ⟨sessionId, c.sessionKey⟩ ?_ ?_ hkey)
    · rw [hget, if_neg hne, hid]
    · rw [hget, if_pos rfl]
  · intro honly
    refine ⟨ho.wire, fun id id' state state' hid hid' hkey => ?_⟩
    rw [hget] at hid hid'
    split_ifs at hid hid' with h h' h'
    · rw [h, h']
    · obtain rfl := Option.some.inj hid
      rw [h, honly id' state' hid' hkey.symm]
    · obtain rfl := Option.some.inj hid'
      rw [h', honly id state hid hkey]
    · exact ho.single id id' state state' hid hid' hkey

theorem step_resume (hs : Inv holder s) (ho : s.InOrder errorsCount) (call : ℕ) :
    (∃ holder', Inv holder' (s.step (.resume call))) ∧
      ((s.step (.resume call)).InOrder errorsCount ↔ Clean errorsCount s (.resume call)) := by
  simp only [step, Clean]
  unfold Runtime.resume
  split
  · next hc => exact ⟨⟨holder, hs⟩, iff_of_true ho (by simp [hc])⟩
  · next c hc =>
    have hok := hs.calls call c hc
    simp only [hc, Option.some.injEq, forall_eq']
    split
    · next hphase =>
      simp only [hphase, reduceCtorEq, false_implies, implies_true, and_true, true_implies]
      split_ifs with hwait
      · have hlocked := hs.lock.locked_eq_false hwait
        refine ⟨(hs.holder_eq_none hlocked).locked (Lock.ok_resume hs.lock hwait) rfl hok.asked, ?_⟩
        have ho' : { s with spawnLock := s.spawnLock.resume call }.InOrder errorsCount :=
          ho.congr rfl rfl
        rw [inOrder_locked_iff ho']
        exact ⟨fun h _ => h, fun h => h hwait⟩
      · exact ⟨⟨holder, hs⟩, iff_of_true ho fun h => absurd h hwait⟩
    · next hphase =>
      refine ⟨⟨holder, hs.handshake hc hphase⟩, ?_⟩
      refine Iff.trans (inOrder_append_iff ho rfl rfl) (iff_of_true trivial ?_)
      simp [hphase]
    · next hphase =>
      have hholder := hok.spawns (by rw [hphase]; rfl)
      obtain ⟨child, hchild, -, hanswer⟩ := hok.handshaking _ hphase
      refine ⟨⟨none, hs.proceed (Lock.ok_release hs.lock) (fun _ => rfl)
        (Or.inr (Or.inl hholder)) hok.asked⟩, ?_⟩
      have ho' : s.unlock.InOrder errorsCount := ho.congr rfl rfl
      rw [inOrder_proceed_iff ho']
      refine iff_of_true (fun _ child' h => ?_) (by simp [hphase])
      -- the child that was greeted is the one there is
      rw [show s.child = some child' from h] at hchild
      rw [Option.some.inj hchild]
      exact Or.inl (hanswer rfl)
    · next hphase => exact ⟨hs.fails hc, iff_of_true (ho.fails call c) (by simp [hphase])⟩
    · next sessionId hphase =>
      refine ⟨⟨holder, hs.ends hs.lock hs.free (Or.inr (Or.inr rfl)) rfl
        (fun k => Dict.get?_set _ call k _) rfl rfl hok.asked⟩, ?_⟩
      rw [inOrder_record_iff ho]
      simp [hphase]
    · next hphase => exact ⟨hs.fails hc, iff_of_true (ho.fails call c) (by simp [hphase])⟩
    all_goals
      next hphase => exact ⟨⟨holder, hs⟩, iff_of_true ho (by simp [hphase])⟩

theorem step_raise (hs : Inv holder s) (ho : s.InOrder errorsCount) (call : ℕ) :
    (∃ holder', Inv holder' (s.raise call)) ∧ (s.raise call).InOrder errorsCount := by
  unfold Runtime.raise
  split
  · exact ⟨⟨holder, hs⟩, ho⟩
  · next c hc =>
    have hok := hs.calls call c hc
    split
    · split_ifs with hwait
      · refine ⟨⟨holder, hs.ends (Lock.ok_abandon hs.lock call) (fun hfree => hs.free ?_)
          (Or.inr (Or.inr rfl)) rfl (fun k => Dict.get?_set _ call k _) rfl rfl hok.asked⟩,
          ho.congr rfl rfl⟩
        rwa [← Lock.locked_abandon s.spawnLock call]
      · exact ⟨⟨holder, hs⟩, ho⟩
    · exact ⟨⟨holder, hs⟩, ho⟩
    · exact ⟨hs.fails hc, ho.fails call c⟩

theorem Inv.answerInitialize (hs : Inv holder s) (call : ℕ) (succeeds : Bool) :
    Inv holder (s.answerInitialize call succeeds) := by
  unfold Runtime.answerInitialize
  split
  · exact hs
  · next c hc =>
    have hok := hs.calls call c hc
    split
    · exact hs
    · next child hgreeted =>
      split_ifs
      · refine hs.write hs.lock hs.free (fun k => Dict.get?_set _ call k _)
          (List.subset_append_left _ _) (Or.inr (Or.inr ⟨rfl, rfl⟩)) (fun child' id h => ?_)
          ⟨fun h => hok.spawns ?_, fun answer h => ?_, fun child' h => ?_⟩
        · have hold : .newSessionResult child' id ∈ s.wire := by simpa [send, setCall] using h
          exact List.mem_append_left _ (hs.results child' id hold)
        · unfold EnsureCall.initializes at h
          split_ifs at h with hphase
          · rw [hphase]
            rfl
          · exact h
        · unfold EnsureCall.initializes at h ⊢
          split_ifs at h ⊢ with hphase
          · -- the child that answers is the one that was greeted
            obtain ⟨child', hchild, hgreeted', -⟩ := hok.handshaking _ hphase
            rw [← EnsurePhase.handshaking.inj h]
            obtain rfl := Option.some.inj (hgreeted.symm.trans hgreeted')
            refine ⟨child, hchild, hgreeted, fun hsucceeds => ?_⟩
            rw [Option.some.inj hsucceeds]
            exact List.mem_append_right _ (List.mem_singleton.2 rfl)
          · obtain ⟨child', hchild, hgreeted', hanswer⟩ := hok.handshaking answer h
            exact ⟨child', hchild, hgreeted', fun h => List.mem_append_left _ (hanswer h)⟩
        · unfold EnsureCall.initializes at h
          refine List.mem_append_left _ (hok.asked child' ?_)
          split_ifs at h <;> exact h
      · exact hs

theorem InOrder.answerInitialize (ho : s.InOrder errorsCount) (call : ℕ) (succeeds : Bool) :
    (s.answerInitialize call succeeds).InOrder errorsCount := by
  unfold Runtime.answerInitialize
  split
  · exact ho
  · split
    · exact ho
    · split_ifs
      · exact Iff.mpr (inOrder_append_iff ho rfl rfl) trivial
      · exact ho

theorem Inv.answerNewSession (hs : Inv holder s) (call : ℕ) (sessionId : Option String) :
    Inv holder (s.answerNewSession call sessionId) := by
  unfold Runtime.answerNewSession
  split
  · exact hs
  · next c hc =>
    have hok := hs.calls call c hc
    split
    · exact hs
    · next child hasked =>
      split_ifs
      · refine hs.write hs.lock hs.free (fun k => Dict.get?_set _ call k _)
          (List.subset_append_left _ _) (Or.inr (Or.inr ⟨rfl, rfl⟩)) (fun child' id h => ?_)
          ⟨fun h => hok.spawns ?_, fun answer h => ?_, fun child' h => ?_⟩
        · refine List.mem_append_left _ ?_
          rcases List.mem_append.1 h with h | h
          · exact hs.results child' id h
          · obtain ⟨id', -, heq⟩ := Option.map_eq_some_iff.1 (Option.mem_toList.1 h)
            obtain ⟨rfl, -⟩ := WireMessage.newSessionResult.inj heq
            exact hok.asked child hasked
        · unfold EnsureCall.creates at h
          split_ifs at h with hphase
          · cases h
          · exact h
        · unfold EnsureCall.creates at h ⊢
          split_ifs at h ⊢
          obtain ⟨child', hchild, hgreeted, hanswer⟩ := hok.handshaking answer h
          exact ⟨child', hchild, hgreeted, fun h => List.mem_append_left _ (hanswer h)⟩
        · unfold EnsureCall.creates at h
          refine List.mem_append_left _ (hok.asked child' ?_)
          split_ifs at h <;> exact h
      · exact hs

theorem InOrder.answerNewSession (ho : s.InOrder errorsCount) (call : ℕ)
    (sessionId : Option String) : (s.answerNewSession call sessionId).InOrder errorsCount := by
  unfold Runtime.answerNewSession
  split
  · exact ho
  · split
    · exact ho
    · split_ifs
      · rcases sessionId with _ | id
        · exact ho.congr (List.append_nil _) rfl
        · exact Iff.mpr (inOrder_append_iff ho rfl rfl) trivial
      · exact ho

theorem Inv.readerEnds (hs : Inv holder s) (child : ℕ) : Inv holder (s.readerEnds child) := by
  unfold Runtime.readerEnds
  split_ifs
  · refine ⟨hs.lock, hs.free, fun call c hc => ?_, hs.results⟩
    have hmap : (s.calls.get? call).map failPending = some c := by
      rw [← hc]
      exact (Dict.get?_map (fun _ => failPending) call s.calls).symm
    obtain ⟨c', hc', rfl⟩ := Option.map_eq_some_iff.1 hmap
    have hok := hs.calls call c' hc'
    unfold failPending
    split
    · next hphase =>
      obtain ⟨child', hchild, hgreeted, -⟩ := hok.handshaking _ hphase
      refine ⟨fun _ => hok.spawns (by rw [hphase]; rfl),
        fun answer h => ⟨child', hchild, hgreeted, fun hanswer => ?_⟩, hok.asked⟩
      rw [← EnsurePhase.handshaking.inj h] at hanswer
      cases hanswer
    · exact ⟨nofun, nofun, hok.asked⟩
    · exact ⟨hok.spawns, hok.handshaking, hok.asked⟩
  · exact hs

theorem Inv.exit (hs : Inv holder s) : Inv holder (s.step .exit) := by
  have hchild : (s.step .exit).child = s.child := by
    simp [step, child, Option.map_map, Function.comp_def]
  refine ⟨hs.lock, hs.free, fun call c hc => ?_, hs.results⟩
  have hok := hs.calls call c hc
  exact ⟨hok.spawns, by rw [hchild]; exact hok.handshaking, hok.asked⟩

/-- A child that has issued a session has answered before it was asked for it. -/
theorem InOrder.answered (ho : s.InOrder errorsCount) {child : ℕ}
    (h : .newSessionRequest child ∈ s.wire) : Answered errorsCount s.wire child := by
  obtain ⟨i, hi⟩ := List.mem_iff_getElem?.1 h
  have hanswered : Answered errorsCount (s.wire.take i) child := ho.wire i _ hi
  exact hanswered.imp List.mem_of_mem_take fun h => h.imp_right List.mem_of_mem_take

theorem step_turn (hs : Inv holder s) (ho : s.InOrder errorsCount) (sessionKey : String) :
    Inv holder (s.turn sessionKey) ∧
      ((s.turn sessionKey).InOrder errorsCount ↔ Clean errorsCount s (.turn sessionKey)) := by
  unfold Runtime.turn
  simp only [Clean]
  split
  · next state child hstate hchild =>
    refine ⟨⟨hs.lock, hs.free, fun call c hc => ?_, fun child' id h => ?_⟩, ?_⟩
    · have hok := hs.calls call c hc
      refine ⟨hok.spawns, fun answer hphase => ?_,
        fun child' h => List.mem_append_left _ (hok.asked child' h)⟩
      obtain ⟨child', hchild', hgreeted, hanswer⟩ := hok.handshaking answer hphase
      exact ⟨child', hchild', hgreeted, fun h => List.mem_append_left _ (hanswer h)⟩
    · have hold : .newSessionResult child' id ∈ s.wire := by simpa using h
      exact List.mem_append_left _ (hs.results child' id hold)
    · refine Iff.trans (inOrder_append_iff ho rfl rfl) ⟨fun h state' child' hs' hc' => ?_,
        fun h => ?_⟩
      · obtain rfl := Option.some.inj (hstate.symm.trans hs')
        obtain rfl := Option.some.inj (hchild.symm.trans hc')
        exact h.2
      · have hresult := h state child hstate hchild
        exact ⟨ho.answered (hs.results child state.sessionId hresult), hresult⟩
  · next hnot => exact ⟨hs, iff_of_true ho fun state child hstate hchild =>
      (hnot state child hstate hchild).elim⟩

theorem step_close (hs : Inv holder s) (ho : s.InOrder errorsCount) (sessionKey : String) :
    Inv holder (s.close sessionKey) ∧ (s.close sessionKey).InOrder errorsCount := by
  unfold Runtime.close
  split
  · exact ⟨hs, ho⟩
  · refine ⟨⟨hs.lock, hs.free, fun call c hc => ?_, hs.results⟩, ho.wire,
      fun id id' state state' h h' => ?_⟩
    · have hok := hs.calls call c hc
      exact ⟨hok.spawns, hok.handshaking, hok.asked⟩
    · exact ho.single id id' state state' (Dict.get?_of_get?_erase h).2
        (Dict.get?_of_get?_erase h').2

/-- What each event does to a runtime whose messages are in order. -/
theorem step_spec (hs : ∃ holder, Inv holder s) (ho : s.InOrder errorsCount)
    (event : RuntimeEvent) : (∃ holder, Inv holder (s.step event)) ∧
      ((s.step event).InOrder errorsCount ↔ Clean errorsCount s event) := by
  obtain ⟨holder, hs⟩ := hs
  rcases event with ⟨call, key⟩ | call | call | call | ⟨call, succeeds⟩ | ⟨call, id⟩ | _ | child |
    key | key
  · exact step_ensure hs ho call key
  · exact step_resume hs ho call
  · refine ⟨⟨holder, Lock.ok_cancel hs.lock call, hs.free, fun call c hc => ?_, hs.results⟩,
      iff_of_true (ho.congr rfl rfl) trivial⟩
    have hok := hs.calls call c hc
    exact ⟨hok.spawns, hok.handshaking, hok.asked⟩
  · exact (step_raise hs ho call).imp_right fun h => iff_of_true h trivial
  · exact ⟨⟨holder, hs.answerInitialize call succeeds⟩,
      iff_of_true (ho.answerInitialize call succeeds) trivial⟩
  · exact ⟨⟨holder, hs.answerNewSession call id⟩, iff_of_true (ho.answerNewSession call id) trivial⟩
  · exact ⟨⟨holder, hs.exit⟩, iff_of_true (ho.congr rfl rfl) trivial⟩
  · refine ⟨⟨holder, hs.readerEnds child⟩, iff_of_true (ho.congr ?_ ?_) trivial⟩
    all_goals
      simp only [step, Runtime.readerEnds]
      split_ifs <;> rfl
  · exact (step_turn hs ho key).imp_left fun h => ⟨holder, h⟩
  · exact (step_close hs ho key).imp (fun h => ⟨holder, h⟩) fun h => iff_of_true h trivial

theorem inv_new : Inv none new where
  lock := Lock.ok_new
  free _ := rfl
  calls call c h := by cases h
  results child id h := by cases h

theorem inOrder_new : InOrder errorsCount new :=
  ⟨justified_nil, fun id id' state state' h => by cases h⟩

/-- All that is sent in a run is in order, and no key has two sessions, exactly if every call that
finds a child running finds it initialized, every session is recorded for a key without one, and
every turn has a session of the child it goes to. -/
theorem wire_inOrder_iff (errorsCount : Bool) (events : List RuntimeEvent) :
    (∀ s ∈ trail step new events, s.InOrder errorsCount) ↔
      EachStep step (Clean errorsCount) new events :=
  forall_mem_trail_iff_of_keeps (I := fun s => ∃ holder, Inv holder s)
    (fun _ event hs ho => (step_spec hs ho event).1)
    (fun _ event hs ho => (step_spec hs ho event).2) ⟨none, inv_new⟩ inOrder_new events

/-- A second call comes while the first one shakes hands. -/
def earlyCall : List RuntimeEvent :=
  [.ensure 0 "a", .resume 0, .ensure 1 "b"]

/-- The child exits after it has made a session, and another one is spawned for another key. -/
def staleSession : List RuntimeEvent :=
  [.ensure 0 "a", .resume 0, .answerInitialize 0 true, .resume 0, .answerNewSession 0 (some "s1"),
    .resume 0, .exit, .readerEnds 0, .ensure 1 "b", .resume 1, .answerInitialize 1 true, .resume 1,
    .answerNewSession 1 (some "s2"), .resume 1, .turn "a"]

/-- Two calls for one key, both with their request under way. -/
def twoRequests : List RuntimeEvent :=
  [.ensure 0 "a", .resume 0, .answerInitialize 0 true, .resume 0, .ensure 1 "a",
    .answerNewSession 0 (some "s1"), .answerNewSession 1 (some "s2"), .resume 0, .resume 1]

/-- The second call asks a child for a session that has not answered `initialize`; a turn gives a
child the session id of the child before it; and a key has two sessions. -/
theorem wire_not_inOrder :
    (¬∀ s ∈ trail step new earlyCall, s.InOrder true) ∧
    (¬∀ s ∈ trail step new staleSession, s.InOrder true) ∧
    ¬∀ s ∈ trail step new twoRequests, s.InOrder true := by
  refine ⟨fun h => ?_, fun h => ?_, fun h => ?_⟩
  · have hwire : (earlyCall.foldl step new).wire =
        [.initializeRequest 0, .newSessionRequest 0] := by decide
    have hordered := (h _ (foldl_mem_trail _ _)).wire
    rw [hwire] at hordered
    have hanswered := hordered 1 (.newSessionRequest 0) rfl
    simp [Permitted, Answered] at hanswered
  · have hwire : (staleSession.foldl step new).wire = [.initializeRequest 0,
        .initializeResponse 0 true, .newSessionRequest 0, .newSessionResult 0 "s1",
        .initializeRequest 1, .initializeResponse 1 true, .newSessionRequest 1,
        .newSessionResult 1 "s2", .prompt 1 "s1"] := by decide
    have hordered := (h _ (foldl_mem_trail _ _)).wire
    rw [hwire] at hordered
    have hpermitted := (hordered 8 (.prompt 1 "s1") rfl).2
    simp at hpermitted
  · have hsessions : (twoRequests.foldl step new).sessionsById =
        [("s1", ⟨"s1", "a"⟩), ("s2", ⟨"s2", "a"⟩)] := by decide
    have hsingle := (h _ (foldl_mem_trail _ _)).single
    rw [hsessions] at hsingle
    have heq := hsingle "s1" "s2" ⟨"s1", "a"⟩ ⟨"s2", "a"⟩ rfl rfl rfl
    simp at heq

end Runtime

end OxenClaw.Acp
