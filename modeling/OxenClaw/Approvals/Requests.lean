import OxenClaw.Approvals.Manager
import OxenClaw.Lib.Runs

/-!
# Calls of `ApprovalManager.request`

A call puts its request into `_pending`, writes a snapshot, announces the request to the event
sink, waits for the future, and in its `finally` takes the request out, writes a snapshot and
announces the end. It suspends at the two announcements and at the wait. A run is any list of
`RequestEvent`s : a call starts or its task runs on (`resume`), its timer fires, its task is
cancelled, or someone settles a request.

The `try` of the `finally` begins after the first announcement. `requests_listed_iff` says when the
requests listed are those of the calls that have not ended, and every call returns what `resolve`
returned for it, in every state of a run.
-/

namespace OxenClaw.Approvals

open OxenClaw

/-- How a call of `request` ends. -/
inductive Outcome where
  | returned (r : ApprovalResult)
  | raised

/-- Where a call is : at one of its awaits, or over. -/
inductive RequestPhase where
  /-- At `on_event("approval.requested", ..)`. -/
  | emitting
  | waiting
  /-- At `on_event("approval.closed", ..)`. -/
  | closing (outcome : Outcome)
  | ended (outcome : Outcome)

/-- One call of `request`. -/
structure RequestCall where
  request : ApprovalRequest
  timeout : Option ℚ
  phase : RequestPhase
  /-- The timer of the wait has fired. -/
  timedOut : Bool := false
  /-- The await it is at will raise `CancelledError`. -/
  cancelling : Bool := false
  /-- Its task has been cancelled. -/
  cancelled : Bool := false
  /-- What `resolve` returned for it. -/
  answered : Option ApprovalResult := none

/-- `ApprovalManager`, and the calls of `request` so far by the ids they drew. -/
structure ApprovalManager where
  approverToken : Option String
  /-- An event sink is set. -/
  onEvent : Bool
  /-- A state path is set. -/
  statePath : Bool
  /-- `json.dumps` and the UTF-8 encoder take the snapshot of a request. -/
  encodes : ApprovalRequest → Bool
  pending : Pending := []
  calls : Dict String RequestCall := []

inductive RequestEvent where
  /-- `request` up to its first await. -/
  | request (req : ApprovalRequest) (timeout : Option ℚ)
  /-- The task of a call runs on to its next await. A result that came with the timeout or the
  cancellation is kept or lost. -/
  | resume (id : String) (keepsResult : Bool)
  /-- The timer of a wait fires. It cancels the future now, or leaves that to the task. -/
  | timer (id : String) (cancelsFuture : Bool)
  | cancelTask (id : String) (cancelsFuture : Bool)
  | resolve (id : String) (approved : Bool) (reason offeredToken : Option String)
  | cancel (id : String) (reason offeredToken : Option String)
  | cancelAll (reason : Option String)

/-- The call has not got to the end of its wait. -/
def RequestPhase.undecided : RequestPhase → Bool
  | .emitting | .waiting => true
  | .closing _ | .ended _ => false

/-- The call has not returned or raised. -/
def RequestPhase.running : RequestPhase → Bool
  | .ended _ => false
  | _ => true

/-- What the wait for a future comes to, `none` while it goes on. -/
def RequestCall.outcome (c : RequestCall) (keepsResult : Bool) : Future → Option Outcome
  | .result r =>
    if keepsResult || !(c.cancelling || c.timedOut) then some (.returned r)
    else if c.cancelling then some .raised
    else some (.returned ⟨c.request.id, .timedOut, none⟩)
  | .cancelled =>
    if c.timedOut && !c.cancelling then some (.returned ⟨c.request.id, .timedOut, none⟩)
    else some .raised
  | .waiting =>
    if c.cancelling then some .raised
    else if c.timedOut then some (.returned ⟨c.request.id, .timedOut, none⟩)
    else none

namespace ApprovalManager

/-- `ApprovalManager(..)`. -/
def new (approverToken : Option String) (onEvent statePath : Bool)
    (encodes : ApprovalRequest → Bool) : ApprovalManager :=
  { approverToken, onEvent, statePath, encodes }

/-- `list`. -/
def list (m : ApprovalManager) : List ApprovalRequest :=
  m.pending.map (·.2.1)

/-- Whether `_persist` raises. It logs an `OSError`, but not what encoding the snapshot raises. -/
def persistRaises (m : ApprovalManager) : Bool :=
  m.statePath && m.pending.any fun e => !m.encodes e.2.1

def setCall (m : ApprovalManager) (id : String) (c : RequestCall) : ApprovalManager :=
  { m with calls := m.calls.set id c }

/-- A future is settled, if it still waits. -/
def settleFuture (m : ApprovalManager) (id : String) (f : Future) : ApprovalManager :=
  { m with pending := (settle m.pending id f).1 }

/-- `fut.cancel()`, where it happens now. -/
def cancelFuture (m : ApprovalManager) (id : String) (now : Bool) : ApprovalManager :=
  if now then m.settleFuture id .cancelled else m

/-- `request` up to its first await. Ids are drawn by `uuid4`. -/
def request (m : ApprovalManager) (req : ApprovalRequest) (timeout : Option ℚ) :
    ApprovalManager :=
  if req.id ∈ m.calls.keys then m
  else
    let m := { m with pending := m.pending.set req.id (req, .waiting) }
    m.setCall req.id {
      request := req
      timeout := timeout
      -- what `_persist` raises here is outside the `try`
      phase :=
        if m.persistRaises then .ended .raised
        else if m.onEvent then .emitting
        else .waiting }

/-- The `finally` of `request`. -/
def finish (m : ApprovalManager) (id : String) (c : RequestCall) (outcome : Outcome) :
    ApprovalManager :=
  let m := { m with pending := m.pending.erase id }
  m.setCall id { c with
    cancelling := false
    phase :=
      if m.persistRaises then .ended .raised
      else if m.onEvent then .closing outcome
      else .ended outcome }

/-- The `try` of `request` : the wait for the future. -/
def await (m : ApprovalManager) (id : String) (c : RequestCall) (keepsResult : Bool) :
    ApprovalManager :=
  match m.pending.get? id with
  | some (_, f) =>
    match c.outcome keepsResult f with
    | some outcome => m.finish id c outcome
    | none => m.setCall id { c with phase := .waiting }
  | none => m

/-- The task of a call runs on. -/
def resume (m : ApprovalManager) (id : String) (keepsResult : Bool) : ApprovalManager :=
  match m.calls.get? id with
  | some c =>
    match c.phase with
    | .emitting =>
      -- `except Exception` lets a `CancelledError` through, and the `try` has not begun
      if c.cancelling then m.setCall id { c with cancelling := false, phase := .ended .raised }
      else m.await id c keepsResult
    | .waiting => m.await id c keepsResult
    | .closing outcome =>
      m.setCall id { c with
        cancelling := false
        phase := .ended (if c.cancelling then .raised else outcome) }
    | .ended _ => m
  | none => m

/-- The timer fires, which only a wait with a timeout has. -/
def timer (m : ApprovalManager) (id : String) (cancelsFuture : Bool) : ApprovalManager :=
  match m.calls.get? id with
  | some c =>
    match c.phase, c.timeout with
    | .waiting, some _ => (m.setCall id { c with timedOut := true }).cancelFuture id cancelsFuture
    | _, _ => m
  | none => m

def cancelTask (m : ApprovalManager) (id : String) (cancelsFuture : Bool) : ApprovalManager :=
  match m.calls.get? id with
  | some c =>
    match c.phase with
    | .ended _ => m
    | .waiting =>
      (m.setCall id { c with cancelling := true, cancelled := true }).cancelFuture id cancelsFuture
    | _ => m.setCall id { c with cancelling := true, cancelled := true }
  | none => m

/-- `resolve`. It raises without the token. -/
def resolve (m : ApprovalManager) (id : String) (approved : Bool)
    (reason offeredToken : Option String) : ApprovalManager × Option ApprovalResult :=
  if requireApprover m.approverToken offeredToken then
    match settle m.pending id (resolution id approved reason) with
    | (pending, true) =>
      ({ m with pending }, some ⟨id, if approved then .approved else .denied, reason⟩)
    | (_, false) => (m, none)
  else (m, none)

/-- `cancel`. It raises without the token. -/
def cancel (m : ApprovalManager) (id : String) (reason offeredToken : Option String) :
    ApprovalManager :=
  if requireApprover m.approverToken offeredToken then
    m.settleFuture id (cancellation id reason)
  else m

/-- `cancel_all`. -/
def cancelAll (m : ApprovalManager) (reason : Option String) : ApprovalManager :=
  m.pending.keys.foldl (fun m id => m.settleFuture id (cancellation id reason)) m

/-- What `resolve` returned is noted with the call. -/
def note (m : ApprovalManager) (id : String) (answer : Option ApprovalResult) : ApprovalManager :=
  match m.calls.get? id, answer with
  | some c, some r => m.setCall id { c with answered := some r }
  | _, _ => m

/-- The manager after an event; one that cannot happen changes nothing. -/
def step (m : ApprovalManager) : RequestEvent → ApprovalManager
  | .request req timeout => m.request req timeout
  | .resume id keepsResult => m.resume id keepsResult
  | .timer id cancelsFuture => m.timer id cancelsFuture
  | .cancelTask id cancelsFuture => m.cancelTask id cancelsFuture
  | .resolve id approved reason offeredToken =>
    (m.resolve id approved reason offeredToken).1.note id
      (m.resolve id approved reason offeredToken).2
  | .cancel id reason offeredToken => m.cancel id reason offeredToken
  | .cancelAll reason => m.cancelAll reason

/-- The requests listed are those of the calls at a phase with `p`. -/
def Lists (p : RequestPhase → Bool) (m : ApprovalManager) : Prop :=
  ∀ req, req ∈ m.list ↔
    ∃ id c, m.calls.get? id = some c ∧ c.request = req ∧ p c.phase = true

/-- A call whose task was not cancelled returns what `resolve` returned for it. A timer that has
fired as well may come first. -/
def ReturnsResolved (m : ApprovalManager) : Prop :=
  ∀ id c r outcome, m.calls.get? id = some c → c.answered = some r → c.cancelled = false →
    c.phase = .ended outcome → outcome = .returned r ∨
      c.timedOut = true ∧ outcome = .returned ⟨id, .timedOut, none⟩

/-- The wait of a call is over : its future is done, its timer has fired or its task is being
cancelled. -/
def Ready (m : ApprovalManager) (id : String) (c : RequestCall) : Prop :=
  c.cancelling = true ∨ c.timedOut = true ∨
    ∃ req f, m.pending.get? id = some (req, f) ∧ f.done = true

/-- No call is cancelled while it announces its request, and every snapshot can be encoded. -/
def Clean (m : ApprovalManager) : RequestEvent → Prop
  | .request req _ => req.id ∉ m.calls.keys → m.statePath = true → m.encodes req = true
  | .resume id _ => ∀ c, m.calls.get? id = some c → c.phase = .emitting → c.cancelling = false
  | _ => True

/-- Nor does a call come to announce its end. -/
def Unannounced (m : ApprovalManager) : RequestEvent → Prop
  | .resume id _ => ∀ c, m.calls.get? id = some c → c.phase.undecided = true →
      m.onEvent = true → ¬m.Ready id c
  | _ => True

/-! ## One call and its entry -/

variable {m m' : ApprovalManager} {id : String} {c : RequestCall}
  {entry : Option (ApprovalRequest × Future)} {closingCounts : Bool}

/-- A phase in which the request is listed, where a call that announces its end counts or not. -/
def listed (closingCounts : Bool) : RequestPhase → Bool
  | .emitting | .waiting => true
  | .closing _ => closingCounts
  | .ended _ => false

/-- The outcome is what `resolve` returned for the call. -/
def Keeps (c : RequestCall) (outcome : Outcome) : Prop :=
  ∀ r, c.answered = some r → c.cancelled = false → outcome = .returned r ∨
    c.timedOut = true ∧ outcome = .returned ⟨c.request.id, .timedOut, none⟩

/-- What always holds of a call and the entry under its id. -/
structure Ok (m : ApprovalManager) (id : String) (c : RequestCall)
    (entry : Option (ApprovalRequest × Future)) : Prop where
  name : c.request.id = id
  own : ∀ e ∈ entry, e.1 = c.request
  cancelled : c.cancelling = true → c.cancelled = true
  emitting : c.phase = .emitting → m.onEvent = true
  encodes : c.phase.undecided = true → m.statePath = true → m.encodes c.request = true
  closing : ∀ outcome, c.phase = .closing outcome → entry = none ∧ Keeps c outcome
  answered : ∀ r, c.answered = some r → ∀ e ∈ entry, e.2 = .result r

/-- A call and its entry as they should be. -/
def Exact (closingCounts : Bool) (c : RequestCall)
    (entry : Option (ApprovalRequest × Future)) : Prop :=
  (listed closingCounts c.phase = true ↔ entry.isSome = true) ∧
    ∀ outcome, c.phase = .ended outcome → Keeps c outcome

/-- What holds in every state that has been as it should be. -/
structure Inv (m : ApprovalManager) : Prop where
  nodup : m.pending.keys.Nodup
  known : ∀ id e, m.pending.get? id = some e → ∃ c, m.calls.get? id = some c
  ok : ∀ id c, m.calls.get? id = some c → Ok m id c (m.pending.get? id)

/-- A call that is over has nothing left to keep but its entry. -/
theorem Ok.ended {m : ApprovalManager} {id : String} {c : RequestCall}
    {entry : Option (ApprovalRequest × Future)} (hok : Ok m id c entry) (outcome : Outcome) :
    Ok m id { c with cancelling := false, phase := .ended outcome } entry where
  name := hok.name
  own := hok.own
  cancelled h := by cases h
  emitting h := by cases h
  encodes h := by cases h
  closing _ h := by cases h
  answered := hok.answered

/-- Every call and its entry are as they should be. -/
def AllExact (closingCounts : Bool) (m : ApprovalManager) : Prop :=
  ∀ id c, m.calls.get? id = some c → Exact closingCounts c (m.pending.get? id)

/-- `m'` is `m` with the call `c` and the entry `entry` under `id`. -/
structure Writes (m m' : ApprovalManager) (id : String) (c : RequestCall)
    (entry : Option (ApprovalRequest × Future)) : Prop where
  config : m'.onEvent = m.onEvent ∧ m'.statePath = m.statePath ∧ m'.encodes = m.encodes
  nodup : m.pending.keys.Nodup → m'.pending.keys.Nodup
  calls : ∀ k, m'.calls.get? k = if k = id then some c else m.calls.get? k
  pending : ∀ k, m'.pending.get? k = if k = id then entry else m.pending.get? k

/-! ## What is listed -/

theorem Inv.mem_list_iff (hm : Inv m) {req : ApprovalRequest} :
    req ∈ m.list ↔ ∃ f, m.pending.get? req.id = some (req, f) := by
  constructor
  · intro h
    obtain ⟨⟨id, req', f⟩, hmem, rfl⟩ := List.mem_map.1 h
    have hget := Dict.get?_of_mem hm.nodup hmem
    obtain ⟨c, hc⟩ := hm.known _ _ hget
    have hok := hm.ok _ _ hc
    have hid : req'.id = id := by
      rw [← hok.name, ← hok.own _ hget]
    exact ⟨f, by rw [hid]; exact hget⟩
  · rintro ⟨f, hget⟩
    exact List.mem_map.2 ⟨_, Dict.mem_of_get? hget, rfl⟩

/-- Calls and entries, one by one. -/
theorem Inv.allExact_iff (hm : Inv m) : AllExact closingCounts m ↔
    m.Lists (listed closingCounts) ∧ m.ReturnsResolved := by
  constructor
  · intro h
    refine ⟨fun req => ?_, fun id c r outcome hc hr hcancelled hphase => ?_⟩
    · rw [hm.mem_list_iff]
      constructor
      · rintro ⟨f, hget⟩
        obtain ⟨c, hc⟩ := hm.known _ _ hget
        refine ⟨req.id, c, hc, ((hm.ok _ _ hc).own _ hget).symm, (h _ _ hc).1.2 ?_⟩
        rw [hget]
        rfl
      · rintro ⟨id, c, hc, rfl, hphase⟩
        have hok := hm.ok _ _ hc
        obtain ⟨⟨req, f⟩, hget⟩ := Option.isSome_iff_exists.1 ((h _ _ hc).1.1 hphase)
        have hreq : req = c.request := hok.own _ hget
        exact ⟨f, by rw [hok.name, hget, hreq]⟩
    · have hkeeps := (h _ _ hc).2 outcome hphase r hr hcancelled
      rwa [(hm.ok _ _ hc).name] at hkeeps
  · rintro ⟨hlists, hreturns⟩ id c hc
    have hok := hm.ok _ _ hc
    refine ⟨⟨fun hphase => ?_, fun hsome => ?_⟩, fun outcome hphase r hr hcancelled => ?_⟩
    · obtain ⟨f, hget⟩ := hm.mem_list_iff.1 ((hlists c.request).2 ⟨id, c, hc, rfl, hphase⟩)
      rw [hok.name] at hget
      rw [hget]
      rfl
    · obtain ⟨⟨req, f⟩, hget⟩ := Option.isSome_iff_exists.1 hsome
      have hreq : req = c.request := hok.own _ hget
      have hmem : req ∈ m.list := hm.mem_list_iff.2 ⟨f, by rw [hreq, hok.name, ← hreq]; exact hget⟩
      obtain ⟨id', c', hc', hreq', hphase⟩ := (hlists req).1 hmem
      have hid : id' = id := by
        rw [← (hm.ok _ _ hc').name, hreq', hreq, hok.name]
      rw [hid, hc] at hc'
      rwa [← Option.some.inj hc'] at hphase
    · have hkeeps := hreturns id c r outcome hc hr hcancelled hphase
      rwa [hok.name]

/-! ## What a write does -/

theorem Ok.of_config (h : Ok m id c entry)
    (hconfig : m'.onEvent = m.onEvent ∧ m'.statePath = m.statePath ∧ m'.encodes = m.encodes) :
    Ok m' id c entry where
  name := h.name
  own := h.own
  cancelled := h.cancelled
  emitting hphase := hconfig.1.trans (h.emitting hphase)
  encodes hphase hpath := by
    rw [hconfig.2.2]
    exact h.encodes hphase (hconfig.2.1.symm.trans hpath)
  closing := h.closing
  answered := h.answered

theorem Writes.inv (h : Writes m m' id c entry) (hm : Inv m) (hc : Ok m id c entry) : Inv m' where
  nodup := h.nodup hm.nodup
  known k e he := by
    rw [h.calls]
    rw [h.pending] at he
    split_ifs with hk
    · exact ⟨c, rfl⟩
    · rw [if_neg hk] at he
      exact hm.known k e he
  ok k c' hk' := by
    rw [h.calls] at hk'
    rw [h.pending]
    split_ifs at hk' ⊢ with hk
    · obtain rfl := Option.some.inj hk'
      rw [hk]
      exact hc.of_config h.config
    · exact (hm.ok k c' hk').of_config h.config

/-- After a write it is the written call that matters. -/
theorem Writes.allExact_iff (h : Writes m m' id c entry) (hm : AllExact closingCounts m) :
    AllExact closingCounts m' ↔ Exact closingCounts c entry := by
  constructor
  · intro hm'
    have hc : m'.calls.get? id = some c := by rw [h.calls, if_pos rfl]
    have hexact := hm' id c hc
    rwa [h.pending, if_pos rfl] at hexact
  · intro hc k c' hk'
    rw [h.calls] at hk'
    rw [h.pending]
    split_ifs at hk' ⊢ with hk
    · rwa [← Option.some.inj hk']
    · exact hm k c' hk'

theorem writes_setCall (m : ApprovalManager) (id : String) (c : RequestCall) :
    Writes m (m.setCall id c) id c (m.pending.get? id) where
  config := ⟨rfl, rfl, rfl⟩
  nodup := fun h => h
  calls k := Dict.get?_set m.calls id k c
  pending k := by
    split_ifs with hk
    · rw [hk]
      rfl
    · rfl

/-- The entry is taken out, with the call at another phase. -/
theorem writes_erase (m : ApprovalManager) (id : String) (c : RequestCall) :
    Writes m ({ m with pending := m.pending.erase id }.setCall id c) id c none where
  config := ⟨rfl, rfl, rfl⟩
  nodup h := Dict.nodup_keys_erase h id
  calls k := Dict.get?_set m.calls id k c
  pending k := by
    split_ifs with hk
    · rw [hk]
      exact Dict.get?_erase_self m.pending id
    · exact Dict.get?_erase_of_ne hk m.pending

/-- The entry is set, with the call. -/
theorem writes_set (m : ApprovalManager) (id : String) (c : RequestCall)
    (e : ApprovalRequest × Future) :
    Writes m ({ m with pending := m.pending.set id e }.setCall id c) id c (some e) where
  config := ⟨rfl, rfl, rfl⟩
  nodup h := Dict.nodup_keys_set h id e
  calls k := Dict.get?_set m.calls id k c
  pending k := Dict.get?_set m.pending id k e

/-! ## Snapshots -/

/-- As long as all is as it should be, the snapshot of every entry can be written. -/
theorem Inv.encodes_of_mem (hm : Inv m) (ha : AllExact closingCounts m) {k : String}
    {e : ApprovalRequest × Future} (he : m.pending.get? k = some e) (hpath : m.statePath = true) :
    m.encodes e.1 = true := by
  obtain ⟨c, hc⟩ := hm.known k e he
  have hok := hm.ok k c hc
  rw [hok.own e he]
  refine hok.encodes ?_ hpath
  have hlisted : listed closingCounts c.phase = true := (ha k c hc).1.2 (by rw [he]; rfl)
  rcases hphase : c.phase with _ | _ | outcome | outcome
  · rfl
  · rfl
  · have hnone := (hok.closing outcome hphase).1
    rw [he] at hnone
    cases hnone
  · rw [hphase] at hlisted
    cases hlisted

theorem persistRaises_eq_true_iff : m.persistRaises = true ↔
    m.statePath = true ∧ ∃ e ∈ m.pending, m.encodes e.2.1 = false := by
  simp [persistRaises]

/-- Then a snapshot with an entry less can be written. -/
theorem Inv.persistRaises_erase (hm : Inv m) (ha : AllExact closingCounts m) (id : String) :
    ({ m with pending := m.pending.erase id } : ApprovalManager).persistRaises = false := by
  rw [← Bool.not_eq_true, persistRaises_eq_true_iff]
  rintro ⟨hpath, ⟨k, e⟩, he, hencodes⟩
  have hget := Dict.get?_of_mem hm.nodup (List.mem_of_mem_filter he)
  rw [hm.encodes_of_mem ha hget hpath] at hencodes
  cases hencodes

/-- With an entry more it is that entry that matters. -/
theorem Inv.persistRaises_set (hm : Inv m) (ha : AllExact closingCounts m) (id : String)
    (e : ApprovalRequest × Future) :
    ({ m with pending := m.pending.set id e } : ApprovalManager).persistRaises = true ↔
      m.statePath = true ∧ m.encodes e.1 = false := by
  rw [persistRaises_eq_true_iff]
  refine and_congr_right fun hpath => ⟨?_, fun h => ?_⟩
  · rintro ⟨⟨k, e'⟩, he', hencodes⟩
    rcases Dict.mem_set he' with heq | hmem
    · rwa [(Prod.mk.inj heq).2] at hencodes
    · rw [hm.encodes_of_mem ha (Dict.get?_of_mem hm.nodup hmem) hpath] at hencodes
      cases hencodes
  · exact ⟨(id, e), Dict.mem_of_get? (Dict.get?_set_self m.pending id e), h⟩

/-! ## Each event -/

/-- A future is settled other than by `resolve`. -/
theorem Inv.settleFuture (hm : Inv m) (ha : AllExact closingCounts m) (id : String) (f : Future) :
    Inv (m.settleFuture id f) ∧ AllExact closingCounts (m.settleFuture id f) := by
  unfold ApprovalManager.settleFuture
  rcases settle_cases m.pending id f with hnone | ⟨req, hget, hset⟩
  · rw [hnone]
    exact ⟨hm, ha⟩
  · rw [hset]
    obtain ⟨c, hc⟩ := hm.known _ _ hget
    have hok := hm.ok id c hc
    rw [hget] at hok
    have hexact := ha id c hc
    rw [hget] at hexact
    have hwrites : Writes m { m with pending := m.pending.set id (req, f) } id c
        (some (req, f)) := by
      refine ⟨⟨rfl, rfl, rfl⟩, fun h => Dict.nodup_keys_set h id _, fun k => ?_,
        fun k => Dict.get?_set m.pending id k _⟩
      split_ifs with hk
      · rw [hk]
        exact hc
      · rfl
    have hok' : Ok m id c (some (req, f)) := by
      refine ⟨hok.name, fun e he => ?_, hok.cancelled, hok.emitting, hok.encodes,
        fun outcome hphase => ?_, fun r hr => ?_⟩
      · obtain rfl := Option.some.inj he
        exact hok.own (req, .waiting) rfl
      · cases (hok.closing outcome hphase).1
      · cases hok.answered r hr _ rfl
    exact ⟨hwrites.inv hm hok', (hwrites.allExact_iff ha).2 hexact⟩

theorem Inv.cancelFuture (hm : Inv m) (ha : AllExact closingCounts m) (id : String) (now : Bool) :
    Inv (m.cancelFuture id now) ∧ AllExact closingCounts (m.cancelFuture id now) := by
  unfold ApprovalManager.cancelFuture
  split_ifs
  · exact hm.settleFuture ha id .cancelled
  · exact ⟨hm, ha⟩

theorem Inv.cancelAll (hm : Inv m) (ha : AllExact closingCounts m) (reason : Option String) :
    Inv (m.cancelAll reason) ∧ AllExact closingCounts (m.cancelAll reason) :=
  List.foldlRecOn (motive := fun m => Inv m ∧ AllExact closingCounts m) m.pending.keys _ ⟨hm, ha⟩
    fun _ h id _ => h.1.settleFuture h.2 id _

/-- The flags of a call that has not ended are set. -/
theorem Inv.setFlags (hm : Inv m) (ha : AllExact closingCounts m)
    (hc : m.calls.get? id = some c) (c' : RequestCall) (hrequest : c'.request = c.request)
    (hphase : c'.phase = c.phase) (hanswered : c'.answered = c.answered)
    (hcancelling : c'.cancelling = true → c'.cancelled = true)
    (hended : ∀ outcome, c.phase ≠ .ended outcome)
    (hclosing : ∀ outcome, c.phase = .closing outcome → Keeps c outcome → Keeps c' outcome) :
    Inv (m.setCall id c') ∧ AllExact closingCounts (m.setCall id c') := by
  have hok := hm.ok id c hc
  have hwrites := writes_setCall m id c'
  refine ⟨hwrites.inv hm ⟨?_, ?_, hcancelling, ?_, ?_, ?_, ?_⟩, (hwrites.allExact_iff ha).2 ⟨?_, ?_⟩⟩
  · rw [hrequest]
    exact hok.name
  · rw [hrequest]
    exact hok.own
  · rw [hphase]
    exact hok.emitting
  · rw [hphase, hrequest]
    exact hok.encodes
  · intro outcome h
    rw [hphase] at h
    exact ⟨(hok.closing outcome h).1, hclosing outcome h (hok.closing outcome h).2⟩
  · rw [hanswered]
    exact hok.answered
  · rw [hphase]
    exact (ha id c hc).1
  · intro outcome h
    exact absurd (hphase.symm.trans h) (hended outcome)

theorem Inv.timer (hm : Inv m) (ha : AllExact closingCounts m) (id : String)
    (cancelsFuture : Bool) :
    Inv (m.timer id cancelsFuture) ∧ AllExact closingCounts (m.timer id cancelsFuture) := by
  unfold ApprovalManager.timer
  split
  · next c hc =>
    split
    · next hphase _ =>
      obtain ⟨hm', ha'⟩ := hm.setFlags ha hc { c with timedOut := true } rfl rfl rfl
        (hm.ok id c hc).cancelled (by simp [hphase]) (by simp [hphase])
      exact hm'.cancelFuture ha' id cancelsFuture
    · exact ⟨hm, ha⟩
  · exact ⟨hm, ha⟩

theorem Inv.cancelTask (hm : Inv m) (ha : AllExact closingCounts m) (id : String)
    (cancelsFuture : Bool) :
    Inv (m.cancelTask id cancelsFuture) ∧
      AllExact closingCounts (m.cancelTask id cancelsFuture) := by
  unfold ApprovalManager.cancelTask
  split
  · next c hc =>
    have hflags (hended : ∀ outcome, c.phase ≠ .ended outcome) :=
      hm.setFlags ha hc { c with cancelling := true, cancelled := true } rfl rfl rfl
        (fun _ => rfl) hended (fun _ _ _ _ _ hcancelled => by cases hcancelled)
    split
    · exact ⟨hm, ha⟩
    · next hphase =>
      obtain ⟨hm', ha'⟩ := hflags (by simp [hphase])
      exact hm'.cancelFuture ha' id cancelsFuture
    · next hended _ => exact hflags hended
  · exact ⟨hm, ha⟩

theorem Inv.resolve (hm : Inv m) (ha : AllExact closingCounts m) (id : String) (approved : Bool)
    (reason offeredToken : Option String) :
    Inv (m.step (.resolve id approved reason offeredToken)) ∧
      AllExact closingCounts (m.step (.resolve id approved reason offeredToken)) := by
  have hnote : m.note id none = m := by
    unfold note
    split <;> simp_all
  simp only [step, ApprovalManager.resolve]
  by_cases htoken : requireApprover m.approverToken offeredToken = true
  · rw [if_pos htoken]
    rcases settle_cases m.pending id (resolution id approved reason) with
      hnone | ⟨req, hget, hset⟩
    · rw [hnone]
      simp only [hnote]
      exact ⟨hm, ha⟩
    · rw [hset]
      obtain ⟨c, hc⟩ := hm.known _ _ hget
      have hok := hm.ok id c hc
      have hexact := ha id c hc
      rw [hget] at hok hexact
      simp only [note, hc]
      have hwrites := writes_set m id
        { c with answered := some ⟨id, if approved then .approved else .denied, reason⟩ }
        (req, resolution id approved reason)
      refine ⟨hwrites.inv hm ⟨hok.name, fun e he => ?_, hok.cancelled, hok.emitting, hok.encodes,
        fun outcome hphase => ?_, fun r hr e he => ?_⟩,
        (hwrites.allExact_iff ha).2 ⟨hexact.1, fun outcome hphase => ?_⟩⟩
      · obtain rfl := Option.some.inj he
        exact hok.own (req, .waiting) rfl
      · cases (hok.closing outcome hphase).1
      · obtain rfl := Option.some.inj he
        obtain rfl := Option.some.inj hr
        rfl
      · -- a call whose entry still waits has not ended
        have hlisted := hexact.1.2 rfl
        rw [show c.phase = .ended outcome from hphase] at hlisted
        cases hlisted
  · rw [if_neg htoken]
    simp only [hnote]
    exact ⟨hm, ha⟩

theorem Inv.request (hm : Inv m) (ha : AllExact closingCounts m) (req : ApprovalRequest)
    (timeout : Option ℚ) : Inv (m.request req timeout) ∧
      (AllExact closingCounts (m.request req timeout) ↔ m.Clean (.request req timeout)) := by
  unfold ApprovalManager.request
  split_ifs with hknown
  · exact ⟨hm, iff_of_true ha fun h => absurd hknown h⟩
  · simp only
    generalize hc : (RequestCall.mk req timeout _ _ _ _ _) = c
    have hwrites := writes_set m req.id c (req, .waiting)
    have hraises := hm.persistRaises_set ha req.id (req, .waiting)
    subst hc
    refine ⟨hwrites.inv hm ⟨rfl, fun e he => ?_, nofun, ?_, ?_, ?_, nofun⟩,
      (hwrites.allExact_iff ha).trans ?_⟩
    · obtain rfl := Option.some.inj he
      rfl
    · simp only
      split_ifs with _ hevent
      · exact nofun
      · exact fun _ => hevent
      · exact nofun
    · simp only
      split_ifs with h
      · exact nofun
      all_goals
        intro _ hpath
        by_contra hencodes
        exact h (hraises.2 ⟨hpath, by simpa using hencodes⟩)
    · simp only
      split_ifs <;> exact nofun
    · simp only [Exact, Clean]
      split_ifs with h hevent
      · obtain ⟨hpath, hencodes⟩ := hraises.1 h
        refine iff_of_false (fun hexact => ?_) fun hclean => ?_
        · simp [listed] at hexact
        · rw [hclean hknown hpath] at hencodes
          cases hencodes
      all_goals
        refine iff_of_true ⟨by simp [listed], nofun⟩ fun _ hpath => ?_
        by_contra hencodes
        exact h (hraises.2 ⟨hpath, by simpa using hencodes⟩)

/-! ## The wait and the `finally` -/

theorem outcome_eq_none_iff {keepsResult : Bool} {f : Future} :
    c.outcome keepsResult f = none ↔
      c.cancelling = false ∧ c.timedOut = false ∧ f.done = false := by
  rcases f with _ | r | _
  · rcases hcancelling : c.cancelling <;> rcases htimed : c.timedOut <;>
      simp [RequestCall.outcome, Future.done, hcancelling, htimed]
  · simp only [RequestCall.outcome, Future.done]
    split_ifs <;> simp
  · simp only [RequestCall.outcome, Future.done]
    split_ifs <;> simp

/-- The wait comes to what `resolve` returned. -/
theorem keeps_of_outcome {keepsResult : Bool} {f : Future} {outcome : Outcome}
    (hcancelled : c.cancelling = true → c.cancelled = true)
    (hf : ∀ r, c.answered = some r → f = .result r)
    (h : c.outcome keepsResult f = some outcome) : Keeps c outcome := by
  intro r hr hnot
  have hcancelling : c.cancelling = false := by
    rw [← Bool.not_eq_true]
    intro hcancelling
    rw [hcancelled hcancelling] at hnot
    cases hnot
  rw [hf r hr, RequestCall.outcome, hcancelling] at h
  simp only [Bool.false_or, Bool.false_eq_true, if_false] at h
  split_ifs at h with hkept
  · exact Or.inl (Option.some.inj h).symm
  · have htimed : c.timedOut = true := by
      by_contra htimed
      simp [htimed] at hkept
    exact Or.inr ⟨htimed, (Option.some.inj h).symm⟩

theorem ready_iff {e : ApprovalRequest × Future} (he : m.pending.get? id = some e) :
    m.Ready id c ↔ c.cancelling = true ∨ c.timedOut = true ∨ e.2.done = true := by
  refine or_congr_right (or_congr_right ⟨?_, fun h => ⟨e.1, e.2, he, h⟩⟩)
  rintro ⟨req, f, hget, hdone⟩
  rw [he] at hget
  rwa [Option.some.inj hget]

/-- The `finally` takes the entry out, and the call is not listed unless it has its end to
announce. -/
theorem Inv.finish (hm : Inv m) (ha : AllExact closingCounts m) (hc : m.calls.get? id = some c)
    {outcome : Outcome} (hkeeps : Keeps c outcome) :
    Inv (m.finish id c outcome) ∧
      (AllExact closingCounts (m.finish id c outcome) ↔
        (closingCounts = true → m.onEvent = false)) := by
  have hok := hm.ok id c hc
  unfold ApprovalManager.finish
  simp only [hm.persistRaises_erase ha id, Bool.false_eq_true, if_false]
  generalize hc' : (RequestCall.mk c.request c.timeout _ _ _ _ _) = c'
  have hwrites := writes_erase m id c'
  subst hc'
  refine ⟨hwrites.inv hm ⟨hok.name, nofun, nofun, ?_, ?_, ?_, nofun⟩,
    (hwrites.allExact_iff ha).trans ?_⟩
  · simp only
    split_ifs <;> exact nofun
  · simp only
    split_ifs <;> exact nofun
  · simp only
    split_ifs
    · intro o ho
      obtain rfl := RequestPhase.closing.inj ho
      exact ⟨trivial, hkeeps⟩
    · exact nofun
  · simp only [Exact]
    split_ifs with hevent
    · simp [listed, hevent]
    · refine iff_of_true ⟨by simp [listed], fun o ho => ?_⟩ fun _ => by simpa using hevent
      obtain rfl := RequestPhase.ended.inj ho
      exact hkeeps

/-- The `try` of a call that is listed. -/
theorem Inv.await (hm : Inv m) (ha : AllExact closingCounts m) (hc : m.calls.get? id = some c)
    (hphase : c.phase.undecided = true) (keepsResult : Bool) :
    Inv (m.await id c keepsResult) ∧ (AllExact closingCounts (m.await id c keepsResult) ↔
      (closingCounts = true → m.onEvent = true → ¬m.Ready id c)) := by
  have hok := hm.ok id c hc
  have hexact := ha id c hc
  have hlisted : listed closingCounts c.phase = true := by
    rcases h : c.phase <;> rw [h] at hphase <;> first | rfl | cases hphase
  obtain ⟨e, he⟩ := Option.isSome_iff_exists.1 (hexact.1.1 hlisted)
  have hf : ∀ r, c.answered = some r → e.2 = .result r := fun r hr => hok.answered r hr e he
  unfold ApprovalManager.await
  rw [he]
  simp only
  split
  · next outcome houtcome =>
    obtain ⟨hinv, hiff⟩ := hm.finish ha hc (keeps_of_outcome hok.cancelled hf houtcome)
    have hready : m.Ready id c := by
      rw [ready_iff he]
      by_contra hnot
      rw [not_or, not_or] at hnot
      rw [outcome_eq_none_iff.2 (by simpa using hnot)] at houtcome
      cases houtcome
    refine ⟨hinv, hiff.trans (forall_congr' fun _ => ?_)⟩
    rw [← Bool.not_eq_true]
    exact ⟨fun h hevent => absurd hevent h, fun h hevent => h hevent hready⟩
  · next houtcome =>
    have hready : ¬m.Ready id c := by
      rw [ready_iff he]
      obtain ⟨hcancelling, htimed, hdone⟩ := outcome_eq_none_iff.1 houtcome
      simp [hcancelling, htimed, hdone]
    have hwrites := writes_setCall m id { c with phase := .waiting }
    refine ⟨hwrites.inv hm ⟨hok.name, hok.own, hok.cancelled, nofun, fun _ => hok.encodes hphase,
      nofun, hok.answered⟩, iff_of_true ((hwrites.allExact_iff ha).2 ⟨?_, nofun⟩) fun _ _ => hready⟩
    rw [he]
    exact iff_of_true rfl rfl

theorem Inv.resume (hm : Inv m) (ha : AllExact closingCounts m) (id : String)
    (keepsResult : Bool) : Inv (m.resume id keepsResult) ∧
      (AllExact closingCounts (m.resume id keepsResult) ↔
        m.Clean (.resume id keepsResult) ∧
          (closingCounts = true → m.Unannounced (.resume id keepsResult))) := by
  unfold ApprovalManager.resume
  simp only [Clean, Unannounced]
  split
  · next c hc =>
    have hok := hm.ok id c hc
    have hexact := ha id c hc
    simp only [hc, Option.some.injEq, forall_eq']
    split
    · next hphase =>
      by_cases hcancelling : c.cancelling = true
      · -- the entry of a call that is over stays
        have hwrites := writes_setCall m id { c with cancelling := false, phase := .ended .raised }
        have hsome : (m.pending.get? id).isSome = true := hexact.1.1 (by rw [hphase]; rfl)
        rw [if_pos hcancelling]
        refine ⟨hwrites.inv hm (hok.ended _),
          iff_of_false (fun h => ?_) fun h => ?_⟩
        · have hlisted := ((hwrites.allExact_iff ha).1 h).1.2 hsome
          cases hlisted
        · rw [h.1 hphase] at hcancelling
          cases hcancelling
      · rw [if_neg hcancelling]
        obtain ⟨hinv, hiff⟩ := hm.await ha hc (by rw [hphase]; rfl) keepsResult
        refine ⟨hinv, hiff.trans ?_⟩
        rw [hphase]
        simp [hcancelling, RequestPhase.undecided]
    · next hphase =>
      obtain ⟨hinv, hiff⟩ := hm.await ha hc (by rw [hphase]; rfl) keepsResult
      refine ⟨hinv, hiff.trans ?_⟩
      rw [hphase]
      simp [RequestPhase.undecided]
    · next outcome hphase =>
      have hnone := (hok.closing outcome hphase).1
      have hwrites := writes_setCall m id { c with
        cancelling := false, phase := .ended (if c.cancelling then .raised else outcome) }
      refine ⟨hwrites.inv hm (hok.ended _),
        iff_of_true ((hwrites.allExact_iff ha).2 ⟨?_, fun o ho => ?_⟩) ?_⟩
      · rw [hnone]
        exact iff_of_false (by simp [listed]) (by simp)
      · obtain rfl := RequestPhase.ended.inj ho
        split_ifs with hcancelling
        · intro r _ hnot
          have hcancelled := hok.cancelled hcancelling
          rw [show c.cancelled = false from hnot] at hcancelled
          cases hcancelled
        · exact (hok.closing outcome hphase).2
      · simp [hphase, RequestPhase.undecided]
    · next outcome hphase =>
      exact ⟨hm, iff_of_true ha (by simp [hphase, RequestPhase.undecided])⟩
  · next hc => exact ⟨hm, iff_of_true ha (by simp [hc])⟩

/-- What each event does to a manager that is as it should be. -/
theorem Inv.step (hm : Inv m) (ha : AllExact closingCounts m) (event : RequestEvent) :
    Inv (m.step event) ∧ (AllExact closingCounts (m.step event) ↔
      m.Clean event ∧ (closingCounts = true → m.Unannounced event)) := by
  rcases event with ⟨req, timeout⟩ | ⟨id, keepsResult⟩ | ⟨id, now⟩ | ⟨id, now⟩ |
    ⟨id, approved, reason, offered⟩ | ⟨id, reason, offered⟩ | reason
  · obtain ⟨hinv, hiff⟩ := hm.request ha req timeout
    exact ⟨hinv, hiff.trans (and_iff_left fun _ => trivial).symm⟩
  · exact hm.resume ha id keepsResult
  · exact (hm.timer ha id now).imp_right fun h => iff_of_true h ⟨trivial, fun _ => trivial⟩
  · exact (hm.cancelTask ha id now).imp_right fun h => iff_of_true h ⟨trivial, fun _ => trivial⟩
  · exact (hm.resolve ha id approved reason offered).imp_right fun h =>
      iff_of_true h ⟨trivial, fun _ => trivial⟩
  · have hcancel : Inv (m.cancel id reason offered) ∧
        AllExact closingCounts (m.cancel id reason offered) := by
      unfold ApprovalManager.cancel
      split_ifs
      · exact hm.settleFuture ha id _
      · exact ⟨hm, ha⟩
    exact hcancel.imp_right fun h => iff_of_true h ⟨trivial, fun _ => trivial⟩
  · exact (hm.cancelAll ha reason).imp_right fun h => iff_of_true h ⟨trivial, fun _ => trivial⟩

/-! ## Runs -/

theorem listed_true : listed true = RequestPhase.running := by
  funext phase
  rcases phase <;> rfl

theorem listed_false : listed false = RequestPhase.undecided := by
  funext phase
  rcases phase <;> rfl

theorem inv_new (approverToken : Option String) (onEvent statePath : Bool)
    (encodes : ApprovalRequest → Bool) : Inv (new approverToken onEvent statePath encodes) where
  nodup := List.nodup_nil
  known _ _ h := absurd h (by simp [new])
  ok _ _ h := absurd h (by simp [new])

theorem lists_run_iff (hm : Inv m) (ha : AllExact closingCounts m) (events : List RequestEvent) :
    (∀ m' ∈ trail step m events, m'.Lists (listed closingCounts) ∧ m'.ReturnsResolved) ↔
      EachStep step (fun m event => m.Clean event ∧ (closingCounts = true → m.Unannounced event))
        m events := by
  refine forall_mem_trail_iff_of_keeps (I := Inv) (fun m event hm h => ?_) (fun m event hm h => ?_)
    hm (hm.allExact_iff.1 ha) events
  · exact (hm.step (hm.allExact_iff.2 h) event).1
  · obtain ⟨hinv, hiff⟩ := hm.step (hm.allExact_iff.2 h) event
    rw [← hinv.allExact_iff, hiff]

/-- The requests listed are those of the calls that have not ended, and a call returns what
`resolve` returned for it, in every state exactly if no call is cancelled while it announces its
request, every snapshot can be encoded, and no call comes to announce its end. Where a call that
announces its end counts as ended the last condition falls away. -/
theorem requests_listed_iff (approverToken : Option String) (onEvent statePath : Bool)
    (encodes : ApprovalRequest → Bool) (events : List RequestEvent) :
    ((∀ m ∈ trail step (new approverToken onEvent statePath encodes) events,
        m.Lists RequestPhase.running ∧ m.ReturnsResolved) ↔
      EachStep step (fun m event => m.Clean event ∧ m.Unannounced event)
        (new approverToken onEvent statePath encodes) events) ∧
    ((∀ m ∈ trail step (new approverToken onEvent statePath encodes) events,
        m.Lists RequestPhase.undecided ∧ m.ReturnsResolved) ↔
      EachStep step Clean (new approverToken onEvent statePath encodes) events) := by
  have hnew := inv_new approverToken onEvent statePath encodes
  have hexact (closingCounts : Bool) :
      AllExact closingCounts (new approverToken onEvent statePath encodes) :=
    fun _ _ h => absurd h (by simp [new])
  refine ⟨?_, ?_⟩
  · have hrun := lists_run_iff hnew (hexact true) events
    simpa only [listed_true, true_implies] using hrun
  · have hrun := lists_run_iff hnew (hexact false) events
    simpa only [listed_false, Bool.false_eq_true, false_implies, and_true] using hrun

/-- A call is cancelled while it announces its request. -/
def cancelledCall : List RequestEvent :=
  [.request ⟨"r1", "run it?", "shell", []⟩ none, .cancelTask "r1" false, .resume "r1" false]

/-- Its request stays listed, however the calls that announce their end are counted, and can be
approved with no call to return it. -/
theorem cancelledCall_listed :
    (¬∀ m ∈ trail step (new none true false fun _ => true) cancelledCall,
      m.Lists RequestPhase.running) ∧
    (¬∀ m ∈ trail step (new none true false fun _ => true) cancelledCall,
      m.Lists RequestPhase.undecided) ∧
    ((cancelledCall.foldl step (new none true false fun _ => true)).resolve
      "r1" true none none).2 = some ⟨"r1", .approved, none⟩ := by
  have hlast : cancelledCall.foldl step (new none true false fun _ => true) ∈
      trail step (new none true false fun _ => true) cancelledCall := foldl_mem_trail _ _
  have hlisted : (⟨"r1", "run it?", "shell", []⟩ : ApprovalRequest) ∈
      (cancelledCall.foldl step (new none true false fun _ => true)).list :=
    List.mem_singleton.2 rfl
  have hended : (cancelledCall.foldl step (new none true false fun _ => true)).calls =
      [("r1", {
        request := ⟨"r1", "run it?", "shell", []⟩
        timeout := none
        phase := .ended .raised
        cancelled := true })] := rfl
  have hnone (p : RequestPhase → Bool) (hp : p (.ended .raised) = false) :
      ¬(cancelledCall.foldl step (new none true false fun _ => true)).Lists p := by
    intro hlists
    obtain ⟨id, c, hc, -, hphase⟩ := (hlists _).1 hlisted
    have hmem := Dict.mem_of_get? hc
    rw [hended, List.mem_singleton] at hmem
    rw [(Prod.mk.inj hmem).2, hp] at hphase
    cases hphase
  exact ⟨fun h => hnone _ rfl (h _ hlast), fun h => hnone _ rfl (h _ hlast), rfl⟩

end ApprovalManager

end OxenClaw.Approvals
