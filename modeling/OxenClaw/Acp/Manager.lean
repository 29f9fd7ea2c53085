import OxenClaw.Lib.Asyncio
import OxenClaw.Lib.Dict
import OxenClaw.Lib.Python
import OxenClaw.Lib.Runs

/-!
# The sessions of the ACP manager

`AcpSessionManager` opens a session at a backend, sends turns and cancels to its handle, and closes
it. Opening and closing take the lock, which is held while the backend opens the session; turns and
cancels go on beside it, and backends come and go.

`System.step` is what happens between two awaits. For each session key the manager's calls and what
its callers are told are a word of the protocol `Follows` : a session is opened at one backend, has
its turns and cancels there with the handle that was given, and is closed once, before it is opened
again (`run_follows`).
-/

namespace OxenClaw.Acp.Manager

open Asyncio

variable {R H : Type*}

inductive AcpRuntimeSessionMode where
  | persistent
  | oneshot
  deriving DecidableEq

inductive AcpRuntimePromptMode where
  | prompt
  | steer

structure AcpInitializeSessionInput where
  sessionKey : String
  agent : String
  mode : AcpRuntimeSessionMode := .persistent
  backendId : Option String := none
  resumeSessionId : Option String := none
  cwd : Option String := none
  env : Option (Dict String String) := none
  deriving DecidableEq

structure AcpRuntimeEnsureInput where
  sessionKey : String
  agent : String
  mode : AcpRuntimeSessionMode
  resumeSessionId : Option String := none
  cwd : Option String := none
  env : Option (Dict String String) := none

structure AcpRuntimeTurnAttachment where
  mediaType : String
  data : String

structure AcpRunTurnInput where
  sessionKey : String
  text : String
  requestId : String
  mode : AcpRuntimePromptMode := .prompt
  attachments : List AcpRuntimeTurnAttachment := []

/-- `AcpRuntimeTurnInput`, the handle one of `H`. -/
structure AcpRuntimeTurnInput (H : Type*) where
  handle : H
  text : String
  mode : AcpRuntimePromptMode
  requestId : String
  attachments : List AcpRuntimeTurnAttachment := []

structure AcpCloseSessionInput where
  sessionKey : String
  reason : String := "client_close"
  discardPersistentState : Bool := false
  deriving DecidableEq

/-! ## Backends -/

/-- `AcpRuntimeBackend`. `checked` is whether it has a `healthy` to call. -/
structure AcpRuntimeBackend (R : Type*) where
  id : String
  runtime : R
  checked : Bool := false

/-- What is raised, with what its text names. -/
inductive ManagerError where
  | keyRequired
  | boundElsewhere (bound requested : String)
  | notInitialised
  | notRegistered (backendId : String)
  | noBackends

section Registry

variable (lower : String → String)

/-- `_normalise_id`. -/
def normaliseId (raw : String) : String :=
  lower (Py.stripString raw)

/-- An id that is not given and an empty one are the same to the callers. -/
def given (backendId : Option String) : Option String :=
  backendId.filter (· ≠ "")

/-- `register_acp_runtime_backend`, which raises for an empty id. -/
def registerAcpRuntimeBackend (backends : Dict String (AcpRuntimeBackend R))
    (backend : AcpRuntimeBackend R) : Dict String (AcpRuntimeBackend R) :=
  let bid := normaliseId lower backend.id
  if bid = "" then backends else backends.set bid { backend with id := bid }

/-- `unregister_acp_runtime_backend`. -/
def unregisterAcpRuntimeBackend (backends : Dict String (AcpRuntimeBackend R))
    (backendId : String) : Dict String (AcpRuntimeBackend R) :=
  backends.erase (normaliseId lower backendId)

/-- `_is_healthy`, where `probe` is what the check answers, `false` where it raises. -/
def isHealthy (probe : AcpRuntimeBackend R → Bool) (backend : AcpRuntimeBackend R) : Bool :=
  !backend.checked || probe backend

/-- `get_acp_runtime_backend`. -/
def getAcpRuntimeBackend (probe : AcpRuntimeBackend R → Bool)
    (backends : Dict String (AcpRuntimeBackend R)) (backendId : Option String) :
    Option (AcpRuntimeBackend R) :=
  let bid := (given backendId).elim "" (normaliseId lower)
  if bid ≠ "" then backends.get? bid else (backends.map Prod.snd).find? (isHealthy probe)

/-- `require_acp_runtime_backend`. -/
def requireAcpRuntimeBackend (probe : AcpRuntimeBackend R → Bool)
    (backends : Dict String (AcpRuntimeBackend R)) (backendId : Option String) :
    Except ManagerError (AcpRuntimeBackend R) :=
  match getAcpRuntimeBackend lower probe backends backendId with
  | some backend => .ok backend
  | none => .error ((given backendId).elim .noBackends .notRegistered)

/-- A backend that is asked for by its id is the one that is found. -/
def Resolves (backendId : Option String) (backend : AcpRuntimeBackend R) : Prop :=
  ∀ id, given backendId = some id → normaliseId lower id ≠ "" → backend.id = normaliseId lower id

/-- Each backend is kept under its id. -/
def Named (backends : Dict String (AcpRuntimeBackend R)) : Prop :=
  ∀ e ∈ backends, e.2.id = e.1

variable {lower}

theorem Named.register {backends : Dict String (AcpRuntimeBackend R)} (h : Named backends)
    (backend : AcpRuntimeBackend R) :
    Named (registerAcpRuntimeBackend lower backends backend) := by
  rw [registerAcpRuntimeBackend]
  split_ifs
  · exact h
  · intro e he
    rcases Dict.mem_set he with rfl | hold
    · rfl
    · exact h e hold

theorem Named.unregister {backends : Dict String (AcpRuntimeBackend R)} (h : Named backends)
    (backendId : String) : Named (unregisterAcpRuntimeBackend lower backends backendId) :=
  fun e he => h e (List.mem_of_mem_filter he)

theorem resolves_of_require {probe : AcpRuntimeBackend R → Bool}
    {backends : Dict String (AcpRuntimeBackend R)} (h : Named backends)
    {backendId : Option String} {backend : AcpRuntimeBackend R}
    (hfound : requireAcpRuntimeBackend lower probe backends backendId = .ok backend) :
    Resolves lower backendId backend := by
  intro id hid hne
  rw [requireAcpRuntimeBackend, getAcpRuntimeBackend, hid, Option.elim_some, if_pos hne] at hfound
  rcases hget : backends.get? (normaliseId lower id) with _ | found
  · rw [hget] at hfound
    cases hfound
  · rw [hget] at hfound
    cases hfound
    exact h _ (Dict.mem_of_get? hget)

end Registry

/-! ## The manager -/

/-- What waits for the lock. -/
inductive Request where
  | initializeSession (input : AcpInitializeSessionInput)
  | closeSession (input : AcpCloseSessionInput)
  deriving DecidableEq

def Request.sessionKey : Request → String
  | .initializeSession input => input.sessionKey
  | .closeSession input => input.sessionKey

/-- A call of `initialize_session` or `close_session`. -/
structure Task where
  id : ℕ
  request : Request
  deriving DecidableEq

/-- `_SessionRecord`. -/
structure SessionRecord (R H : Type*) where
  handle : H
  backend : AcpRuntimeBackend R

/-- What the manager does at a backend, what comes back, and what it tells its callers. -/
inductive Entry (R H : Type*) where
  | ensure (backend : AcpRuntimeBackend R) (backendId : Option String)
      (input : AcpRuntimeEnsureInput)
  | ensured (backend : AcpRuntimeBackend R) (handle : H)
  | failed (backend : AcpRuntimeBackend R)
  | turn (backend : AcpRuntimeBackend R) (input : AcpRuntimeTurnInput H)
  | cancel (backend : AcpRuntimeBackend R) (handle : H) (reason : Option String)
  | close (backend : AcpRuntimeBackend R) (handle : H) (reason : String)
      (discardPersistentState : Bool)
  | returned (handle : H)
  | raised (error : ManagerError)

/-- The registry and the manager, the calls of `ensure_session` that have not come back, and what
has happened, with the session keys it was about. -/
structure System (R H : Type*) where
  backends : Dict String (AcpRuntimeBackend R) := []
  sessions : Dict String (SessionRecord R H) := []
  lock : Lock Task := {}
  tasks : ℕ := 0
  ensuring : Dict Task (AcpRuntimeBackend R) := []
  log : List (String × Entry R H) := []

/-- What happens between two awaits. -/
inductive Event (R H : Type*) where
  | register (backend : AcpRuntimeBackend R)
  | unregister (backendId : String)
  /-- `initialize_session` or `close_session` is called. -/
  | request (request : Request) (probe : AcpRuntimeBackend R → Bool)
  /-- A task has the lock it has waited for. -/
  | resume (t : Task) (probe : AcpRuntimeBackend R → Bool)
  /-- The await of the lock raises. -/
  | abandon (t : Task)
  /-- A task is cancelled where it waits for the lock. -/
  | cancelTask (t : Task)
  | ensured (t : Task) (handle : H)
  /-- `ensure_session` raises, or is cancelled. -/
  | failed (t : Task)
  | runTurn (input : AcpRunTurnInput)
  | cancelSession (sessionKey : String) (reason : Option String)

namespace System

variable (lower : String → String) (probe : AcpRuntimeBackend R → Bool)

def note (s : System R H) (sessionKey : String) (entry : Entry R H) : System R H :=
  { s with log := s.log ++ [(sessionKey, entry)] }

/-- `release` at the end of `async with`. -/
def unlock (s : System R H) : System R H :=
  { s with lock := s.lock.release }

/-- The id that a session may not be bound to, as it is bound to another. -/
def rebinds (bound : AcpRuntimeBackend R) (backendId : Option String) : Option String :=
  (given backendId).filter fun id => bound.id ≠ lower id

def ensureInput (input : AcpInitializeSessionInput) : AcpRuntimeEnsureInput where
  sessionKey := input.sessionKey
  agent := input.agent
  mode := input.mode
  resumeSessionId := input.resumeSessionId
  cwd := input.cwd
  env := input.env

/-- `ensure_session` is called at a backend. -/
def ensureSession (s : System R H) (t : Task) (input : AcpInitializeSessionInput)
    (backend : AcpRuntimeBackend R) : System R H :=
  { s.note input.sessionKey (.ensure backend input.backendId (ensureInput input)) with
    ensuring := s.ensuring.set t backend }

/-- `initialize_session` with the lock taken, up to `ensure_session`. -/
def initializeSession (s : System R H) (t : Task) (input : AcpInitializeSessionInput) : System R H :=
  match s.sessions.get? input.sessionKey with
  | some existing =>
    match rebinds lower existing.backend input.backendId with
    | some id =>
      (s.note input.sessionKey (.raised (.boundElsewhere existing.backend.id id))).unlock
    | none => (s.note input.sessionKey (.returned existing.handle)).unlock
  | none =>
    match requireAcpRuntimeBackend lower probe s.backends input.backendId with
    | .error e => (s.note input.sessionKey (.raised e)).unlock
    | .ok backend => s.ensureSession t input backend

/-- A session is taken out, and its backend is told once the lock is given back. -/
def drop (s : System R H) (input : AcpCloseSessionInput) (record : SessionRecord R H) :
    System R H :=
  { s.unlock with sessions := s.sessions.erase input.sessionKey }.note input.sessionKey
    (.close record.backend record.handle input.reason input.discardPersistentState)

/-- `close_session` with the lock taken. -/
def closeSession (s : System R H) (input : AcpCloseSessionInput) : System R H :=
  match s.sessions.get? input.sessionKey with
  | none => s.unlock
  | some record => s.drop input record

/-- A task that has the lock. -/
def locked (s : System R H) (t : Task) : System R H :=
  match t.request with
  | .initializeSession input => s.initializeSession lower probe t input
  | .closeSession input => s.closeSession input

/-- A task up to where it first suspends. -/
def enter (s : System R H) (t : Task) : System R H :=
  if s.lock.isFree then { s with lock := s.lock.take }.locked lower probe t
  else { s with lock := s.lock.enqueue t }

/-- The check of `initialize_session` before the lock. -/
def request (s : System R H) (request : Request) : System R H :=
  match request with
  | .initializeSession input =>
    if input.sessionKey = "" then s.note "" (.raised .keyRequired)
    else { s with tasks := s.tasks + 1 }.enter lower probe ⟨s.tasks, .initializeSession input⟩
  | .closeSession input =>
    { s with tasks := s.tasks + 1 }.enter lower probe ⟨s.tasks, .closeSession input⟩

/-- `run_turn`. -/
def runTurn (s : System R H) (input : AcpRunTurnInput) : System R H :=
  match s.sessions.get? input.sessionKey with
  | none => s.note input.sessionKey (.raised .notInitialised)
  | some record =>
    s.note input.sessionKey (.turn record.backend
      { handle := record.handle
        text := input.text
        mode := input.mode
        requestId := input.requestId
        attachments := input.attachments })

/-- `cancel_session`. -/
def cancelSession (s : System R H) (sessionKey : String) (reason : Option String) : System R H :=
  match s.sessions.get? sessionKey with
  | none => s.note sessionKey (.raised .notInitialised)
  | some record => s.note sessionKey (.cancel record.backend record.handle reason)

/-- `ensure_session` has come back. -/
def back (s : System R H) (t : Task) : System R H :=
  { s.unlock with ensuring := s.ensuring.erase t }

/-- `initialize_session` once the session is there. -/
def ensured (s : System R H) (t : Task) (handle : H) : System R H :=
  match s.ensuring.get? t with
  | none => s
  | some backend =>
    ({ s.back t with
      sessions := s.sessions.set t.request.sessionKey ⟨handle, backend⟩ }.note
        t.request.sessionKey (.ensured backend handle)).note
          t.request.sessionKey (.returned handle)

def failed (s : System R H) (t : Task) : System R H :=
  match s.ensuring.get? t with
  | none => s
  | some backend => (s.back t).note t.request.sessionKey (.failed backend)

/-- One event. An event of a task that is not at that point changes nothing. -/
def step (s : System R H) : Event R H → System R H
  | .register backend =>
    { s with backends := registerAcpRuntimeBackend lower s.backends backend }
  | .unregister backendId =>
    { s with backends := unregisterAcpRuntimeBackend lower s.backends backendId }
  | .request request probe => s.request lower probe request
  | .resume t probe =>
    if Waiters.wait s.lock.waiters t = some .woken then
      { s with lock := s.lock.resume t }.locked lower probe t
    else s
  | .abandon t =>
    if Waiters.wait s.lock.waiters t = some .woken ∨
        Waiters.wait s.lock.waiters t = some .cancelled then
      { s with lock := s.lock.abandon t }
    else s
  | .cancelTask t => { s with lock := s.lock.cancel t }
  | .ensured t handle => s.ensured t handle
  | .failed t => s.failed t
  | .runTurn input => s.runTurn input
  | .cancelSession sessionKey reason => s.cancelSession sessionKey reason

def run (events : List (Event R H)) : System R H :=
  events.foldl (step lower) {}

/-- The `sessions` of `observability_snapshot`. -/
def observabilitySnapshot (s : System R H) : Dict String String :=
  s.sessions.map fun e => (e.1, e.2.backend.id)

end System

/-! ## The protocol of a session -/

/-- Where a session key is. -/
inductive Phase (R H : Type*) where
  | idle
  | opening (backend : AcpRuntimeBackend R)
  | live (backend : AcpRuntimeBackend R) (handle : H)

/-- The backend that a live session is bound to. -/
def Phase.boundTo : Phase R H → Option String
  | .live backend _ => some backend.id
  | _ => none

section Protocol

variable (lower : String → String) (sessionKey : String)

/-- What may happen next with a session key. -/
inductive Advances : Phase R H → Entry R H → Phase R H → Prop
  | ensure {backend backendId input} : Resolves lower backendId backend →
      input.sessionKey = sessionKey →
      Advances .idle (.ensure backend backendId input) (.opening backend)
  | ensured {backend handle} :
      Advances (.opening backend) (.ensured backend handle) (.live backend handle)
  | failed {backend} : Advances (.opening backend) (.failed backend) .idle
  | turn {backend handle text mode requestId attachments} :
      Advances (.live backend handle)
        (.turn backend ⟨handle, text, mode, requestId, attachments⟩) (.live backend handle)
  | cancel {backend handle reason} :
      Advances (.live backend handle) (.cancel backend handle reason) (.live backend handle)
  | close {backend handle reason discard} :
      Advances (.live backend handle) (.close backend handle reason discard) .idle
  | returned {backend handle} :
      Advances (.live backend handle) (.returned handle) (.live backend handle)
  | boundElsewhere {backend handle requested} : backend.id ≠ lower requested →
      Advances (.live backend handle) (.raised (.boundElsewhere backend.id requested))
        (.live backend handle)
  | notInitialised {p} : p.boundTo = none → Advances p (.raised .notInitialised) p
  | keyRequired {p} : sessionKey = "" → Advances p (.raised .keyRequired) p
  | notRegistered {backendId} : Advances .idle (.raised (.notRegistered backendId)) .idle
  | noBackends : Advances .idle (.raised .noBackends) .idle

/-- The phase that a history of a session key leads to. -/
inductive Follows : List (Entry R H) → Phase R H → Prop
  | nil : Follows [] .idle
  | snoc {entries p e q} : Follows entries p → Advances lower sessionKey p e q →
      Follows (entries ++ [e]) q

variable {lower sessionKey}

theorem Advances.unique {p q q' : Phase R H} {e : Entry R H}
    (h : Advances lower sessionKey p e q) (h' : Advances lower sessionKey p e q') : q = q' := by
  cases h <;> cases h' <;> rfl

/-- A history leads to one phase. -/
theorem Follows.unique {entries : List (Entry R H)} {p p' : Phase R H}
    (h : Follows lower sessionKey entries p) (h' : Follows lower sessionKey entries p') :
    p = p' := by
  induction h generalizing p' with
  | nil =>
    generalize hentries : ([] : List (Entry R H)) = entries at h'
    rcases h' with _ | ⟨hfollows, hadvances⟩
    · rfl
    · exact absurd hentries.symm (List.append_ne_nil_of_right_ne_nil _ (List.cons_ne_nil _ _))
  | @snoc front q e p hfront hadvances ih =>
    generalize hentries : front ++ [e] = entries at h'
    rcases h' with _ | ⟨hfront', hadvances'⟩
    · exact absurd hentries (List.append_ne_nil_of_right_ne_nil _ (List.cons_ne_nil _ _))
    · obtain ⟨rfl, hlast⟩ := List.append_inj' hentries rfl
      obtain rfl := List.singleton_inj.1 hlast
      obtain rfl := ih hfront'
      exact hadvances.unique hadvances'

end Protocol

/-- What has happened with a session key. -/
def entriesOf (sessionKey : String) (log : List (String × Entry R H)) : List (Entry R H) :=
  log.filterMap fun e => if e.1 = sessionKey then some e.2 else none

@[simp] theorem entriesOf_note_self (sessionKey : String) (log : List (String × Entry R H))
    (e : Entry R H) :
    entriesOf sessionKey (log ++ [(sessionKey, e)]) = entriesOf sessionKey log ++ [e] := by
  simp [entriesOf, List.filterMap_append]

theorem entriesOf_note_of_ne {sessionKey other : String} (h : other ≠ sessionKey)
    (log : List (String × Entry R H)) (e : Entry R H) :
    entriesOf sessionKey (log ++ [(other, e)]) = entriesOf sessionKey log := by
  simp [entriesOf, List.filterMap_append, h]

namespace System

variable {lower : String → String} {s : System R H}

/-- The phase of a session key, read off what the manager holds. -/
def phase (s : System R H) (sessionKey : String) : Phase R H :=
  match s.sessions.get? sessionKey with
  | some record => .live record.backend record.handle
  | none =>
    match s.ensuring.find? fun e => e.1.request.sessionKey = sessionKey with
    | some e => .opening e.2
    | none => .idle

theorem phase_of_live {sessionKey : String} {record : SessionRecord R H}
    (h : s.sessions.get? sessionKey = some record) :
    s.phase sessionKey = .live record.backend record.handle := by
  rw [phase, h]

theorem phase_of_ensuring {sessionKey : String} {t : Task} {backend : AcpRuntimeBackend R}
    (hkey : t.request.sessionKey = sessionKey) (hnone : s.sessions.get? sessionKey = none)
    (hone : s.ensuring = [(t, backend)]) : s.phase sessionKey = .opening backend := by
  simp [phase, hnone, hone, hkey]

theorem phase_of_none {sessionKey : String} (hnone : s.sessions.get? sessionKey = none)
    (hensuring : s.ensuring = []) : s.phase sessionKey = .idle := by
  rw [phase, hnone, hensuring]
  rfl

/-- The phase of a key depends on what is held for the key. -/
theorem phase_congr {s' : System R H} {sessionKey : String}
    (hsessions : s'.sessions.get? sessionKey = s.sessions.get? sessionKey)
    (hensuring : (s'.ensuring.find? fun e => e.1.request.sessionKey = sessionKey) =
      s.ensuring.find? fun e => e.1.request.sessionKey = sessionKey) :
    s'.phase sessionKey = s.phase sessionKey := by
  rw [phase, phase, hsessions, hensuring]

theorem boundTo_phase (s : System R H) (sessionKey : String) :
    s.observabilitySnapshot.get? sessionKey = (s.phase sessionKey).boundTo := by
  have hget : s.observabilitySnapshot.get? sessionKey =
      (s.sessions.get? sessionKey).map fun record => record.backend.id :=
    Dict.get?_map (fun _ (record : SessionRecord R H) => record.backend.id) sessionKey s.sessions
  rw [hget, phase]
  rcases s.sessions.get? sessionKey with _ | record
  · rcases s.ensuring.find? _ with _ | e
    · rfl
    · rfl
  · rfl

/-- One call of `ensure_session` is under way while the lock is taken, and for a key that has no
session. -/
def Held (s : System R H) : Prop :=
  ∃ t backend, s.lock.locked = true ∧ s.ensuring = [(t, backend)] ∧
    s.sessions.get? t.request.sessionKey = none

/-- The history of each key has led to its phase. -/
def Logged (lower : String → String) (s : System R H) : Prop :=
  ∀ sessionKey, Follows lower sessionKey (entriesOf sessionKey s.log) (s.phase sessionKey)

structure Ok (lower : String → String) (s : System R H) : Prop where
  named : Named s.backends
  lock : s.lock.Ok
  held : s.lock.locked = false ∧ s.ensuring = [] ∨ s.Held
  logged : s.Logged lower

/-- An entry that advances its key, the phases of the others left as they are. -/
theorem Logged.note {s' : System R H} {sessionKey : String} {entry : Entry R H}
    (h : s.Logged lower) (hlog : s'.log = s.log ++ [(sessionKey, entry)])
    (hadvances : Advances lower sessionKey (s.phase sessionKey) entry (s'.phase sessionKey))
    (hothers : ∀ other, other ≠ sessionKey → s'.phase other = s.phase other) :
    s'.Logged lower := by
  intro other
  by_cases hother : other = sessionKey
  · rw [hother, hlog, entriesOf_note_self]
    exact Follows.snoc (h sessionKey) hadvances
  · rw [hlog, entriesOf_note_of_ne (Ne.symm hother), hothers other hother]
    exact h other

/-- An entry that leaves the phases as they are. -/
theorem Logged.note_stays {sessionKey : String} {entry : Entry R H} (h : s.Logged lower)
    (hadvances : Advances lower sessionKey (s.phase sessionKey) entry (s.phase sessionKey)) :
    (s.note sessionKey entry).Logged lower :=
  h.note rfl hadvances fun _ _ => rfl

/-! ## With the lock -/

/-- A task has just taken the lock. -/
structure Inside (lower : String → String) (s : System R H) : Prop where
  named : Named s.backends
  lock : s.lock.Ok
  locked : s.lock.locked = true
  ensuring : s.ensuring = []
  logged : s.Logged lower

theorem Inside.unlock (h : s.Inside lower) : s.unlock.Ok lower where
  named := h.named
  lock := Lock.ok_release h.lock
  held := Or.inl ⟨Lock.locked_release h.locked, h.ensuring⟩
  logged := h.logged

theorem Inside.phase_eq_idle (h : s.Inside lower) {sessionKey : String}
    (hnone : s.sessions.get? sessionKey = none) : s.phase sessionKey = .idle :=
  phase_of_none hnone h.ensuring

theorem Inside.note_stays (h : s.Inside lower) {sessionKey : String} {entry : Entry R H}
    (hadvances : Advances lower sessionKey (s.phase sessionKey) entry (s.phase sessionKey)) :
    (s.note sessionKey entry).Inside lower :=
  { h with logged := h.logged.note_stays hadvances }

theorem advances_of_require {probe : AcpRuntimeBackend R → Bool}
    {backends : Dict String (AcpRuntimeBackend R)} {backendId : Option String} {e : ManagerError}
    (herror : requireAcpRuntimeBackend lower probe backends backendId = .error e)
    (sessionKey : String) : Advances lower sessionKey (.idle : Phase R H) (.raised e) .idle := by
  rw [requireAcpRuntimeBackend] at herror
  rcases hfound : getAcpRuntimeBackend lower probe backends backendId with _ | backend
  · simp only [hfound, Except.error.injEq] at herror
    rw [← herror]
    rcases given backendId with _ | id
    · exact .noBackends
    · exact .notRegistered
  · simp only [hfound] at herror
    cases herror

theorem Inside.ensureSession (h : s.Inside lower) {t : Task} {input : AcpInitializeSessionInput}
    {backend : AcpRuntimeBackend R} (hkey : t.request.sessionKey = input.sessionKey)
    (hnone : s.sessions.get? input.sessionKey = none)
    (hresolves : Resolves lower input.backendId backend) :
    (s.ensureSession t input backend).Ok lower := by
  have hone : (s.ensureSession t input backend).ensuring = [(t, backend)] := by
    rw [System.ensureSession, h.ensuring]
    rfl
  refine ⟨h.named, h.lock, Or.inr ⟨t, backend, h.locked, hone, by rw [hkey]; exact hnone⟩, ?_⟩
  refine h.logged.note rfl ?_ fun other hother => phase_congr rfl ?_
  · have hopening : (s.ensureSession t input backend).phase input.sessionKey = .opening backend :=
      phase_of_ensuring hkey hnone hone
    rw [h.phase_eq_idle hnone, hopening]
    exact .ensure hresolves rfl
  · have hnot : ¬t.request.sessionKey = other := fun heq => hother (heq.symm.trans hkey)
    rw [hone, h.ensuring, List.find?_cons_of_neg (by simpa using hnot)]

theorem Inside.initializeSession (h : s.Inside lower) (probe : AcpRuntimeBackend R → Bool)
    {t : Task} {input : AcpInitializeSessionInput} (ht : t.request = .initializeSession input) :
    (s.initializeSession lower probe t input).Ok lower := by
  rcases hget : s.sessions.get? input.sessionKey with _ | existing
  · rcases hrequire : requireAcpRuntimeBackend lower probe s.backends input.backendId with
      e | backend
    · simp only [System.initializeSession, hget, hrequire]
      refine (h.note_stays ?_).unlock
      rw [h.phase_eq_idle hget]
      exact advances_of_require hrequire _
    · simp only [System.initializeSession, hget, hrequire]
      have hkey : t.request.sessionKey = input.sessionKey := by rw [ht, Request.sessionKey]
      exact h.ensureSession hkey hget (resolves_of_require h.named hrequire)
  · rcases hrebinds : rebinds lower existing.backend input.backendId with _ | id
    · simp only [System.initializeSession, hget, hrebinds]
      refine (h.note_stays ?_).unlock
      rw [phase_of_live hget]
      exact .returned
    · simp only [System.initializeSession, hget, hrebinds]
      refine (h.note_stays ?_).unlock
      rw [phase_of_live hget]
      rw [rebinds, Option.filter_eq_some_iff] at hrebinds
      exact .boundElsewhere (of_decide_eq_true hrebinds.2)

theorem Inside.drop (h : s.Inside lower) {input : AcpCloseSessionInput}
    {record : SessionRecord R H} (hget : s.sessions.get? input.sessionKey = some record) :
    (s.drop input record).Ok lower := by
  have hensuring : (s.drop input record).ensuring = [] := h.ensuring
  refine ⟨h.named, h.unlock.lock, Or.inl ⟨Lock.locked_release h.locked, hensuring⟩, ?_⟩
  refine h.logged.note rfl ?_ fun other hother => ?_
  · have hidle : (s.drop input record).phase input.sessionKey = .idle :=
      phase_of_none (Dict.get?_erase_self s.sessions input.sessionKey) hensuring
    rw [phase_of_live hget, hidle]
    exact .close
  · exact phase_congr (Dict.get?_erase_of_ne hother s.sessions) rfl

theorem Inside.closeSession (h : s.Inside lower) (input : AcpCloseSessionInput) :
    (s.closeSession input).Ok lower := by
  rcases hget : s.sessions.get? input.sessionKey with _ | record
  · simp only [System.closeSession, hget]
    exact h.unlock
  · simp only [System.closeSession, hget]
    exact h.drop hget

theorem Inside.locked_ok (h : s.Inside lower) (probe : AcpRuntimeBackend R → Bool) (t : Task) :
    (s.locked lower probe t).Ok lower := by
  obtain ⟨id, input | input⟩ := t
  · exact h.initializeSession probe rfl
  · exact h.closeSession input

/-! ## Every event -/

theorem Ok.ensuring_of_free (h : s.Ok lower) (hfree : s.lock.locked = false) :
    s.ensuring = [] := by
  rcases h.held with ⟨-, hnone⟩ | ⟨t, backend, hlocked, -, -⟩
  · exact hnone
  · exact absurd (hlocked.symm.trans hfree) (by simp)

/-- A change of the lock that does not take or release it. -/
theorem Ok.with_lock (h : s.Ok lower) {lock : Lock Task} (hlock : lock.Ok)
    (hlocked : lock.locked = s.lock.locked) : Ok lower { s with lock } where
  named := h.named
  lock := hlock
  held := by
    rcases h.held with ⟨hfree, hnone⟩ | ⟨t, backend, htaken, hone, hkey⟩
    · exact Or.inl ⟨hlocked.trans hfree, hnone⟩
    · exact Or.inr ⟨t, backend, hlocked.trans htaken, hone, hkey⟩
  logged := h.logged

theorem Ok.enter (h : s.Ok lower) (probe : AcpRuntimeBackend R → Bool) (t : Task) :
    (s.enter lower probe t).Ok lower := by
  rw [System.enter]
  split_ifs with hfree
  · have hunlocked : s.lock.locked = false := by simpa using (Bool.and_eq_true_iff.1 hfree).1
    have hinside : Inside lower { s with lock := s.lock.take } :=
      ⟨h.named, Lock.ok_take hfree, rfl, h.ensuring_of_free hunlocked, h.logged⟩
    exact hinside.locked_ok probe t
  · exact h.with_lock (Lock.ok_enqueue h.lock (by simpa using hfree) t) rfl

theorem Ok.note_stays (h : s.Ok lower) {sessionKey : String} {entry : Entry R H}
    (hadvances : Advances lower sessionKey (s.phase sessionKey) entry (s.phase sessionKey)) :
    (s.note sessionKey entry).Ok lower :=
  { h with logged := h.logged.note_stays hadvances }

theorem Ok.request (h : s.Ok lower) (probe : AcpRuntimeBackend R → Bool) (request : Request) :
    (s.request lower probe request).Ok lower := by
  have hdrawn : Ok lower { s with tasks := s.tasks + 1 } :=
    ⟨h.named, h.lock, h.held, h.logged⟩
  rcases request with input | input
  · rw [System.request]
    split_ifs
    · exact h.note_stays (.keyRequired rfl)
    · exact hdrawn.enter probe _
  · exact hdrawn.enter probe _

theorem boundTo_phase_of_none {sessionKey : String} (hnone : s.sessions.get? sessionKey = none) :
    (s.phase sessionKey).boundTo = none := by
  rw [phase, hnone]
  rcases s.ensuring.find? _ with _ | e
  · rfl
  · rfl

theorem Ok.runTurn (h : s.Ok lower) (input : AcpRunTurnInput) :
    (s.runTurn input).Ok lower := by
  rcases hget : s.sessions.get? input.sessionKey with _ | record
  · simp only [System.runTurn, hget]
    exact h.note_stays (.notInitialised (boundTo_phase_of_none hget))
  · simp only [System.runTurn, hget]
    refine h.note_stays ?_
    rw [phase_of_live hget]
    exact .turn

theorem Ok.cancelSession (h : s.Ok lower) (sessionKey : String) (reason : Option String) :
    (s.cancelSession sessionKey reason).Ok lower := by
  rcases hget : s.sessions.get? sessionKey with _ | record
  · simp only [System.cancelSession, hget]
    exact h.note_stays (.notInitialised (boundTo_phase_of_none hget))
  · simp only [System.cancelSession, hget]
    refine h.note_stays ?_
    rw [phase_of_live hget]
    exact .cancel

/-- The call that has come back is the one under way. -/
theorem Ok.held_of_get? (h : s.Ok lower) {t : Task} {backend : AcpRuntimeBackend R}
    (hget : s.ensuring.get? t = some backend) : s.lock.locked = true ∧
      s.ensuring = [(t, backend)] ∧ s.sessions.get? t.request.sessionKey = none := by
  rcases h.held with ⟨-, hnone⟩ | ⟨t', backend', hlocked, hone, hkey⟩
  · rw [hnone] at hget
    cases hget
  · have hmem := Dict.mem_of_get? hget
    rw [hone, List.mem_singleton] at hmem
    cases hmem
    exact ⟨hlocked, hone, hkey⟩

/-- What a call that comes back leaves : no call is under way, and no other key is touched. -/
theorem Ok.back (h : s.Ok lower) {t : Task} {backend : AcpRuntimeBackend R}
    (hget : s.ensuring.get? t = some backend) :
    s.phase t.request.sessionKey = .opening backend ∧ (s.back t).lock.Ok ∧
      (s.back t).lock.locked = false ∧ (s.back t).ensuring = [] ∧
      s.sessions.get? t.request.sessionKey = none ∧
      ∀ other, other ≠ t.request.sessionKey →
        ((s.back t).ensuring.find? fun e => e.1.request.sessionKey = other) =
          s.ensuring.find? fun e => e.1.request.sessionKey = other := by
  obtain ⟨hlocked, hone, hnone⟩ := h.held_of_get? hget
  have hgone : (s.back t).ensuring = [] := by
    rw [System.back, hone]
    simp [Dict.erase]
  refine ⟨phase_of_ensuring rfl hnone hone, Lock.ok_release h.lock, Lock.locked_release hlocked,
    hgone, hnone, fun other hother => ?_⟩
  have hnot : ¬t.request.sessionKey = other := Ne.symm hother
  rw [hgone, hone, List.find?_cons_of_neg (by simpa using hnot)]

theorem Ok.ensured (h : s.Ok lower) (t : Task) (handle : H) : (s.ensured t handle).Ok lower := by
  rcases hget : s.ensuring.get? t with _ | backend
  · simp only [System.ensured, hget]
    exact h
  · obtain ⟨hopening, hlock, hunlocked, hgone, -, hothers⟩ := h.back hget
    have hself := Dict.get?_set_self s.sessions t.request.sessionKey ⟨handle, backend⟩
    simp only [System.ensured, hget]
    have hopened : Ok lower ({ s.back t with
        sessions := s.sessions.set t.request.sessionKey ⟨handle, backend⟩ }.note
          t.request.sessionKey (.ensured backend handle)) := by
      refine ⟨h.named, hlock, Or.inl ⟨hunlocked, hgone⟩, ?_⟩
      refine h.logged.note rfl ?_ fun other hother =>
        phase_congr (Dict.get?_set_of_ne hother s.sessions _) (hothers other hother)
      rw [hopening, phase_of_live hself]
      exact .ensured
    refine hopened.note_stays ?_
    rw [phase_of_live hself]
    exact .returned

theorem Ok.failed (h : s.Ok lower) (t : Task) : (s.failed t).Ok lower := by
  rcases hget : s.ensuring.get? t with _ | backend
  · simp only [System.failed, hget]
    exact h
  · obtain ⟨hopening, hlock, hunlocked, hgone, hnone, hothers⟩ := h.back hget
    have hidle : ((s.back t).note t.request.sessionKey (.failed backend)).phase
        t.request.sessionKey = .idle := phase_of_none hnone hgone
    simp only [System.failed, hget]
    refine ⟨h.named, hlock, Or.inl ⟨hunlocked, hgone⟩, ?_⟩
    refine h.logged.note rfl ?_ fun other hother => phase_congr rfl (hothers other hother)
    rw [hopening, hidle]
    exact .failed

theorem Ok.step (h : s.Ok lower) (event : Event R H) : (s.step lower event).Ok lower := by
  rcases event with backend | backendId | ⟨request, probe⟩ | ⟨t, probe⟩ | t | t | ⟨t, handle⟩ | t |
    input | ⟨sessionKey, reason⟩
  · exact { h with named := h.named.register backend }
  · exact { h with named := h.named.unregister backendId }
  · exact h.request probe request
  · rw [System.step]
    split_ifs with hwoken
    · have hfree := h.lock.locked_eq_false hwoken
      have hinside : Inside lower { s with lock := s.lock.resume t } :=
        ⟨h.named, Lock.ok_resume h.lock hwoken, rfl, h.ensuring_of_free hfree, h.logged⟩
      exact hinside.locked_ok probe t
    · exact h
  · rw [System.step]
    split_ifs
    · exact h.with_lock (Lock.ok_abandon h.lock t) (Lock.locked_abandon _ _)
    · exact h
  · exact h.with_lock (Lock.ok_cancel h.lock t) rfl
  · exact h.ensured t handle
  · exact h.failed t
  · exact h.runTurn input
  · exact h.cancelSession sessionKey reason

/-- In every order of calls, of what the backends answer, of cancels of those that wait, and of
backends that come and go, what happens with a session key follows the protocol, and has led to
one phase, the one that the snapshot tells; at most one session is being opened, and while there is
none, the first of those that wait has been told to go on. -/
theorem run_follows (lower : String → String) (events : List (Event R H)) :
    (∀ sessionKey, ∃! p, Follows lower sessionKey (entriesOf sessionKey (run lower events).log) p ∧
      (run lower events).observabilitySnapshot.get? sessionKey = p.boundTo) ∧
    (run lower events).ensuring.length ≤ 1 ∧
    ((run lower events).ensuring = [] →
      ∀ w ∈ (run lower events).lock.waiters.head?, w.2 ≠ .pending) := by
  have hempty : Ok lower ({} : System R H) :=
    ⟨fun e he => absurd he List.not_mem_nil, Lock.ok_new, Or.inl ⟨rfl, rfl⟩, fun _ => .nil⟩
  have hok : Ok lower (run lower events) := foldl_invariant (fun _ event h => h.step event) hempty
    events
  refine ⟨fun sessionKey => ⟨_, ⟨hok.logged sessionKey, boundTo_phase _ sessionKey⟩, ?_⟩, ?_,
    fun hnone => hok.lock.front ?_⟩
  · rintro p ⟨hfollows, -⟩
    exact hfollows.unique (hok.logged sessionKey)
  · rcases hok.held with ⟨-, hnone⟩ | ⟨t, backend, -, hone, -⟩
    · rw [hnone]
      exact Nat.zero_le 1
    · rw [hone]
      exact Nat.le_refl 1
  · rcases hok.held with ⟨hfree, -⟩ | ⟨t, backend, -, hone, -⟩
    · exact hfree
    · cases hnone.symm.trans hone

end System

end OxenClaw.Acp.Manager
