import OxenClaw.Approvals.Manager
import OxenClaw.Lib.Trace

/-!
# Gated tools

Any number of executions of gated tools run as tasks next to callers of the manager. An
`Event` is what one of them does between two awaits; a run is any list of events
(`run`). Its log has the requests created, the futures settled and the tools run.

`Inv` says that the log justifies itself : an id is created once, a future settled once,
and a tool runs only after its own request was approved (`Justifies`). Every event keeps it
(`Inv.step`), which gives `gated_tool_runs_approved`.
-/

namespace OxenClaw.Approvals

open OxenClaw

/-- `_GatedTool`, and `_ConditionallyGatedTool` when it has an `autoApprove`. -/
structure GatedTool where
  name : String
  formatPrompt : String → Args → String
  timeout : Option ℚ := none
  autoApprove : Option (Args → Bool) := none

/-- The call runs without a request. -/
def GatedTool.bypasses (gate : GatedTool) (args : Args) : Bool :=
  gate.autoApprove.any (· args)

/-- The request an execution makes, with the id drawn for it. -/
def GatedTool.request (gate : GatedTool) (args : Args) (id : String) : ApprovalRequest :=
  ⟨id, gate.formatPrompt gate.name args, gate.name, args⟩

/-- What ends a wait from outside. -/
inductive Interrupt where
  | timeout
  | cancelled

/-- Where an execution is. `closing none` is one that leaves with an exception. -/
inductive Phase where
  | emitting
  | waiting (interrupt : Option Interrupt)
  | closing (result : Option ApprovalResult)
  | ended

/-- One call of `execute` that made a request. -/
structure Execution where
  gate : GatedTool
  args : Args
  request : ApprovalRequest
  phase : Phase

inductive Entry where
  | created (exec : ℕ) (gate : GatedTool) (args : Args) (request : ApprovalRequest)
  | settled (id : String) (how : Settlement)
  | ran (exec : ℕ) (gate : GatedTool) (args : Args)

/-- The manager, its callers' executions and what happened. -/
structure State where
  approverToken : Option String
  pending : Pending := []
  executions : Dict ℕ Execution := []
  log : List Entry := []

/-- What one task does between two awaits. -/
inductive Event where
  /-- `execute` up to its first await, with the id `uuid4` draws. -/
  | execute (exec : ℕ) (gate : GatedTool) (args : Args) (id : String)
  /-- The `approval.requested` event is out. -/
  | emitted (exec : ℕ)
  | resolve (id : String) (approved : Bool) (reason offeredToken : Option String)
  | cancel (id : String) (reason offeredToken : Option String)
  | cancelAll (reason : Option String)
  /-- The timer of the wait fires. -/
  | timeout (exec : ℕ)
  /-- The execution's task is cancelled. -/
  | cancelTask (exec : ℕ)
  /-- The wait returns; a result that came with the timeout is kept or lost. -/
  | wake (exec : ℕ) (keepsResult : Bool)
  /-- The `approval.closed` event is out. -/
  | closed (exec : ℕ)

/-! ## Steps -/

namespace State

/-- The id is of no request made so far. -/
def freshId (s : State) (id : String) : Bool :=
  s.log.all fun
    | .created _ _ _ req => req.id ≠ id
    | _ => true

/-- The execution is of no request and no run made so far. -/
def freshExec (s : State) (exec : ℕ) : Bool :=
  s.log.all fun
    | .created e _ _ _ => e ≠ exec
    | .ran e _ _ => e ≠ exec
    | .settled _ _ => true

/-- Settle a request if it still waits, and log how. -/
def settle (s : State) (id : String) (f : Future) (how : Settlement) : State :=
  match Approvals.settle s.pending id f with
  | (pending, true) => { s with pending, log := s.log ++ [.settled id how] }
  | (_, false) => s

def setPhase (s : State) (exec : ℕ) (ex : Execution) (phase : Phase) : State :=
  { s with executions := s.executions.set exec { ex with phase } }

/-- `execute` up to its first await. -/
def execute (s : State) (exec : ℕ) (gate : GatedTool) (args : Args) (id : String) : State :=
  if s.freshExec exec = false then s
  else if gate.bypasses args then { s with log := s.log ++ [.ran exec gate args] }
  else if s.freshId id = false then s
  else
    let req := gate.request args id
    { s with
      pending := s.pending.set id (req, .waiting)
      executions := s.executions.set exec ⟨gate, args, req, .emitting⟩
      log := s.log ++ [.created exec gate args req] }

/-- `ApprovalManager.resolve`, which raises without the token. -/
def resolve (s : State) (id : String) (approved : Bool) (reason offeredToken : Option String) :
    State :=
  if requireApprover s.approverToken offeredToken then
    s.settle id (resolution id approved reason) (.resolved approved offeredToken)
  else s

/-- `ApprovalManager.cancel`, which raises without the token. -/
def cancel (s : State) (id : String) (reason offeredToken : Option String) : State :=
  if requireApprover s.approverToken offeredToken then
    s.settle id (cancellation id reason) .cancelled
  else s

/-- `ApprovalManager.cancel_all`. -/
def cancelAll (s : State) (reason : Option String) : State :=
  s.pending.keys.foldl (fun s id => s.settle id (cancellation id reason) .cancelled) s

/-- The wait of an execution is broken off. -/
def interrupt (s : State) (exec : ℕ) (ex : Execution) (why : Interrupt) : State :=
  (s.setPhase exec ex (.waiting (some why))).settle ex.request.id .cancelled .abandoned

/-- The timer fires, which only a wait with a timeout has. -/
def timeout (s : State) (exec : ℕ) : State :=
  match s.executions.get? exec with
  | some ex =>
    match ex.phase with
    | .waiting none => if ex.gate.timeout.isSome then s.interrupt exec ex .timeout else s
    | _ => s
  | none => s

/-- The task is cancelled. While the request is announced this leaves `request` before
its `try`, so the request stays pending. -/
def cancelTask (s : State) (exec : ℕ) : State :=
  match s.executions.get? exec with
  | some ex =>
    match ex.phase with
    | .emitting => s.setPhase exec ex .ended
    | .waiting _ => s.interrupt exec ex .cancelled
    | .closing _ => s.setPhase exec ex .ended
    | .ended => s
  | none => s

/-- What a wait on a done future returns, `none` when it raises. -/
def waitResult (id : String) (keepsResult : Bool) :
    Option Interrupt → Future → Option ApprovalResult
  | some .cancelled, _ => none
  | some .timeout, .result r => some (if keepsResult then r else ⟨id, .timedOut, none⟩)
  | some .timeout, _ => some ⟨id, .timedOut, none⟩
  | none, .result r => some r
  | none, _ => none

/-- The wait returns and the request is taken out. -/
def wake (s : State) (exec : ℕ) (keepsResult : Bool) : State :=
  match s.executions.get? exec with
  | some ex =>
    match ex.phase, s.pending.get? ex.request.id with
    | .waiting why, some (_, f) =>
      if f.done then
        { s.setPhase exec ex (.closing (waitResult ex.request.id keepsResult why f)) with
          pending := s.pending.erase ex.request.id }
      else s
    | _, _ => s
  | none => s

/-- `request` returns, and the wrapped tool runs if it was approved. -/
def close (s : State) (exec : ℕ) : State :=
  match s.executions.get? exec with
  | some ex =>
    match ex.phase with
    | .closing result =>
      let s := s.setPhase exec ex .ended
      if (result.map ApprovalResult.status) = some .approved then
        { s with log := s.log ++ [.ran exec ex.gate ex.args] }
      else s
    | _ => s
  | none => s

/-- The event is announced and the wait begins. -/
def emitted (s : State) (exec : ℕ) : State :=
  match s.executions.get? exec with
  | some ex =>
    match ex.phase with
    | .emitting => s.setPhase exec ex (.waiting none)
    | _ => s
  | none => s

/-- The state after an event; one that cannot happen changes nothing. -/
def step (s : State) : Event → State
  | .execute exec gate args id => s.execute exec gate args id
  | .emitted exec => s.emitted exec
  | .resolve id approved reason offeredToken => s.resolve id approved reason offeredToken
  | .cancel id reason offeredToken => s.cancel id reason offeredToken
  | .cancelAll reason => s.cancelAll reason
  | .timeout exec => s.timeout exec
  | .cancelTask exec => s.cancelTask exec
  | .wake exec keepsResult => s.wake exec keepsResult
  | .closed exec => s.close exec

end State

/-- The state after any events, with the approver token the manager has. -/
def run (approverToken : Option String) (events : List Event) : State :=
  events.foldl State.step { approverToken }

/-! ## The invariant -/

/-- The execution's own request was approved, by a caller with a valid token. -/
def ApprovedFor (token : Option String) (log : List Entry) (exec : ℕ) (gate : GatedTool)
    (args : Args) : Prop :=
  ∃ req offered, .created exec gate args req ∈ log ∧
    .settled req.id (.resolved true offered) ∈ log ∧ requireApprover token offered = true

/-- What an entry needs of those before it. -/
def Justifies (token : Option String) (before : List Entry) : Entry → Prop
  | .created exec gate args req =>
    (req.tool = gate.name ∧ req.args = args) ∧
      ∀ e g a r, .created e g a r ∈ before → e ≠ exec ∧ r.id ≠ req.id
  | .settled id _ => ∀ how, .settled id how ∉ before
  | .ran exec gate args => gate.bypasses args = true ∨ ApprovedFor token before exec gate args

/-- Someone with a valid token approved the request. -/
def State.Granted (s : State) (id : String) : Prop :=
  ∃ offered, .settled id (.resolved true offered) ∈ s.log ∧
    requireApprover s.approverToken offered = true

/-- What holds in every reachable state. -/
structure Inv (s : State) : Prop where
  justified : Justified (Justifies s.approverToken) s.log
  /-- A pending request was created under its id. -/
  pendingCreated : ∀ {id req f}, s.pending.get? id = some (req, f) →
    req.id = id ∧ ∃ e g a, .created e g a req ∈ s.log
  /-- A request that waits has not been settled. -/
  pendingWaiting : ∀ {id req}, s.pending.get? id = some (req, .waiting) →
    ∀ how, .settled id how ∉ s.log
  /-- A future that says approved was approved. -/
  pendingGranted : ∀ {id req r}, s.pending.get? id = some (req, .result r) →
    r.status = .approved → s.Granted id
  settledCreated : ∀ {id how}, .settled id how ∈ s.log →
    ∃ e g a r, .created e g a r ∈ s.log ∧ r.id = id
  executionCreated : ∀ {exec ex}, s.executions.get? exec = some ex →
    .created exec ex.gate ex.args ex.request ∈ s.log
  /-- So was the one a closing execution got its result from. -/
  closingGranted : ∀ {exec ex r}, s.executions.get? exec = some ex →
    ex.phase = .closing (some r) → r.status = .approved → s.Granted ex.request.id

theorem State.Granted.append {s : State} {id : String} (h : s.Granted id) (entries : List Entry)
    {t : State} (ht : t.approverToken = s.approverToken) (hlog : t.log = s.log ++ entries) :
    t.Granted id := by
  obtain ⟨offered, hmem, hoffered⟩ := h
  exact ⟨offered, hlog ▸ List.mem_append_left _ hmem, ht ▸ hoffered⟩

namespace Inv

theorem init (approverToken : Option String) : Inv { approverToken } where
  justified := justified_nil
  pendingCreated := nofun
  pendingWaiting := nofun
  pendingGranted := nofun
  settledCreated := nofun
  executionCreated := nofun
  closingGranted := nofun

variable {s : State}

/-- A change of an execution's phase. -/
theorem setPhase (hs : Inv s) {exec : ℕ} {ex : Execution} {phase : Phase}
    (hex : s.executions.get? exec = some ex)
    (hphase : ∀ r, phase = .closing (some r) → r.status = .approved → s.Granted ex.request.id) :
    Inv (s.setPhase exec ex phase) where
  justified := hs.justified
  pendingCreated := hs.pendingCreated
  pendingWaiting := hs.pendingWaiting
  pendingGranted := hs.pendingGranted
  settledCreated := hs.settledCreated
  executionCreated := by
    intro e x hx
    rw [State.setPhase, Dict.get?_set] at hx
    split_ifs at hx with he
    · have hcreated := hs.executionCreated hex
      obtain rfl := Option.some.inj hx
      rw [he]
      exact hcreated
    · exact hs.executionCreated hx
  closingGranted := by
    intro e x r hx hr happroved
    rw [State.setPhase, Dict.get?_set] at hx
    split_ifs at hx with he
    · obtain rfl := Option.some.inj hx
      exact hphase r hr happroved
    · exact hs.closingGranted hx hr happroved

/-- A request is taken out. -/
theorem erase (hs : Inv s) (id : String) : Inv { s with pending := s.pending.erase id } where
  justified := hs.justified
  pendingCreated h := hs.pendingCreated (Dict.get?_of_get?_erase h).2
  pendingWaiting h := hs.pendingWaiting (Dict.get?_of_get?_erase h).2
  pendingGranted h := hs.pendingGranted (Dict.get?_of_get?_erase h).2
  settledCreated := hs.settledCreated
  executionCreated := hs.executionCreated
  closingGranted := hs.closingGranted

/-- The wrapped tool runs. -/
theorem ran (hs : Inv s) {exec : ℕ} {gate : GatedTool} {args : Args}
    (h : Justifies s.approverToken s.log (.ran exec gate args)) :
    Inv { s with log := s.log ++ [.ran exec gate args] } where
  justified := justified_append_singleton.2 ⟨hs.justified, h⟩
  pendingCreated hget := by
    obtain ⟨hid, e, g, a, hmem⟩ := hs.pendingCreated hget
    exact ⟨hid, e, g, a, List.mem_append_left _ hmem⟩
  pendingWaiting hget how := by
    simpa using hs.pendingWaiting hget how
  pendingGranted hget happroved := (hs.pendingGranted hget happroved).append _ rfl rfl
  settledCreated hmem := by
    obtain ⟨e, g, a, r, hcreated, hid⟩ := hs.settledCreated (by simpa using hmem)
    exact ⟨e, g, a, r, List.mem_append_left _ hcreated, hid⟩
  executionCreated hget := List.mem_append_left _ (hs.executionCreated hget)
  closingGranted hget hphase happroved :=
    (hs.closingGranted hget hphase happroved).append _ rfl rfl

/-- A future is set, with an approval only by someone with a valid token. -/
theorem settle (hs : Inv s) {id : String} {f : Future} {how : Settlement} (hdone : f.done = true)
    (hhow : ∀ r, f = .result r → r.status = .approved →
      ∃ offered, how = .resolved true offered ∧ requireApprover s.approverToken offered = true) :
    Inv (s.settle id f how) := by
  unfold State.settle
  rcases settle_cases s.pending id f with hnone | ⟨req, hget, hset⟩
  · rw [hnone]
    exact hs
  · rw [hset]
    obtain ⟨hid, e, g, a, hcreated⟩ := hs.pendingCreated hget
    refine ⟨justified_append_singleton.2 ⟨hs.justified, hs.pendingWaiting hget⟩, ?_, ?_, ?_, ?_,
      ?_, ?_⟩
    · intro id' req' f' hget'
      rw [Dict.get?_set] at hget'
      split_ifs at hget' with hid'
      · obtain ⟨rfl, -⟩ := Prod.mk.inj (Option.some.inj hget')
        exact ⟨hid.trans hid'.symm, e, g, a, List.mem_append_left _ hcreated⟩
      · obtain ⟨hid₂, e₂, g₂, a₂, hmem⟩ := hs.pendingCreated hget'
        exact ⟨hid₂, e₂, g₂, a₂, List.mem_append_left _ hmem⟩
    · intro id' req' hget' how' hmem
      rw [Dict.get?_set] at hget'
      split_ifs at hget' with hid'
      · obtain ⟨-, rfl⟩ := Prod.mk.inj (Option.some.inj hget')
        cases hdone
      · rcases List.mem_append.1 hmem with hmem | hmem
        · exact hs.pendingWaiting hget' how' hmem
        · obtain ⟨rfl, -⟩ := Entry.settled.inj (List.mem_singleton.1 hmem)
          exact hid' rfl
    · intro id' req' r hget' happroved
      rw [Dict.get?_set] at hget'
      split_ifs at hget' with hid'
      · obtain ⟨-, hf⟩ := Prod.mk.inj (Option.some.inj hget')
        obtain ⟨offered, rfl, hoffered⟩ := hhow r hf happroved
        exact ⟨offered, by simp [hid'], hoffered⟩
      · exact (hs.pendingGranted hget' happroved).append _ rfl rfl
    · intro id' how' hmem
      rcases List.mem_append.1 hmem with hmem | hmem
      · obtain ⟨e₂, g₂, a₂, r₂, hcreated₂, hid₂⟩ := hs.settledCreated hmem
        exact ⟨e₂, g₂, a₂, r₂, List.mem_append_left _ hcreated₂, hid₂⟩
      · obtain ⟨rfl, -⟩ := Entry.settled.inj (List.mem_singleton.1 hmem)
        exact ⟨e, g, a, req, List.mem_append_left _ hcreated, hid⟩
    · exact fun hget' => List.mem_append_left _ (hs.executionCreated hget')
    · exact fun hget' hphase happroved =>
        (hs.closingGranted hget' hphase happroved).append _ rfl rfl

theorem not_freshId {id : String} (hfresh : s.freshId id = true) {e : ℕ} {g : GatedTool}
    {a : Args} {r : ApprovalRequest} (hmem : .created e g a r ∈ s.log) : r.id ≠ id := by
  simpa using List.all_eq_true.1 hfresh _ hmem

theorem not_freshExec {exec : ℕ} (hfresh : s.freshExec exec = true) {e : ℕ} {g : GatedTool}
    {a : Args} {r : ApprovalRequest} (hmem : .created e g a r ∈ s.log) : e ≠ exec := by
  simpa using List.all_eq_true.1 hfresh _ hmem

/-- A fresh request is created. -/
theorem create (hs : Inv s) {exec : ℕ} {id : String} (gate : GatedTool) (args : Args)
    (hexec : s.freshExec exec = true) (hid : s.freshId id = true) :
    Inv { s with
      pending := s.pending.set id (gate.request args id, .waiting)
      executions := s.executions.set exec ⟨gate, args, gate.request args id, .emitting⟩
      log := s.log ++ [.created exec gate args (gate.request args id)] } := by
  have hnew : Entry.created exec gate args (gate.request args id) ∈
      s.log ++ [.created exec gate args (gate.request args id)] := by simp
  have hunsettled : ∀ how, .settled id how ∉ s.log := fun how hmem => by
    obtain ⟨e, g, a, r, hcreated, hr⟩ := hs.settledCreated hmem
    exact not_freshId hid hcreated hr
  refine ⟨justified_append_singleton.2 ⟨hs.justified, ⟨rfl, rfl⟩, fun e g a r hmem =>
    ⟨not_freshExec hexec hmem, not_freshId hid hmem⟩⟩, ?_, ?_, ?_, ?_, ?_, ?_⟩
  · intro id' req' f' hget'
    rw [Dict.get?_set] at hget'
    split_ifs at hget' with hid'
    · obtain ⟨rfl, -⟩ := Prod.mk.inj (Option.some.inj hget')
      exact ⟨hid'.symm, exec, gate, args, hnew⟩
    · obtain ⟨hid₂, e₂, g₂, a₂, hmem⟩ := hs.pendingCreated hget'
      exact ⟨hid₂, e₂, g₂, a₂, List.mem_append_left _ hmem⟩
  · intro id' req' hget' how' hmem
    have hmem' : Entry.settled id' how' ∈ s.log := by simpa using hmem
    rw [Dict.get?_set] at hget'
    split_ifs at hget' with hid'
    · exact hunsettled how' (hid' ▸ hmem')
    · exact hs.pendingWaiting hget' how' hmem'
  · intro id' req' r hget' happroved
    rw [Dict.get?_set] at hget'
    split_ifs at hget' with hid'
    · cases (Prod.mk.inj (Option.some.inj hget')).2
    · exact (hs.pendingGranted hget' happroved).append _ rfl rfl
  · intro id' how' hmem
    obtain ⟨e, g, a, r, hcreated, hr⟩ := hs.settledCreated (by simpa using hmem)
    exact ⟨e, g, a, r, List.mem_append_left _ hcreated, hr⟩
  · intro e x hx
    rw [Dict.get?_set] at hx
    split_ifs at hx with he
    · obtain rfl := Option.some.inj hx
      rw [he]
      exact hnew
    · exact List.mem_append_left _ (hs.executionCreated hx)
  · intro e x r hx hphase happroved
    rw [Dict.get?_set] at hx
    split_ifs at hx with he
    · obtain rfl := Option.some.inj hx
      cases hphase
    · exact (hs.closingGranted hx hphase happroved).append _ rfl rfl

/-! ## Every event keeps it -/

theorem execute (hs : Inv s) (exec : ℕ) (gate : GatedTool) (args : Args) (id : String) :
    Inv (s.execute exec gate args id) := by
  unfold State.execute
  split_ifs with hexec hbypass hid
  · exact hs
  · exact hs.ran (Or.inl hbypass)
  · exact hs
  · rw [Bool.not_eq_false] at hexec hid
    exact hs.create gate args hexec hid

theorem resolve (hs : Inv s) (id : String) (approved : Bool)
    (reason offeredToken : Option String) : Inv (s.resolve id approved reason offeredToken) := by
  unfold State.resolve
  split_ifs with htoken
  · refine hs.settle rfl fun r hr happroved => ⟨offeredToken, ?_, htoken⟩
    obtain rfl := Future.result.inj hr
    cases approved with
    | true => rfl
    | false => cases happroved
  · exact hs

theorem settle_cancellation (hs : Inv s) (id : String) (reason : Option String) :
    Inv (s.settle id (cancellation id reason) .cancelled) :=
  hs.settle rfl fun r hr happroved => by
    obtain rfl := Future.result.inj hr
    cases happroved

theorem cancel (hs : Inv s) (id : String) (reason offeredToken : Option String) :
    Inv (s.cancel id reason offeredToken) := by
  unfold State.cancel
  split_ifs
  · exact hs.settle_cancellation id reason
  · exact hs

theorem cancelAll (hs : Inv s) (reason : Option String) : Inv (s.cancelAll reason) := by
  unfold State.cancelAll
  generalize s.pending.keys = ids
  induction ids generalizing s with
  | nil => exact hs
  | cons id ids ih => exact ih (hs.settle_cancellation id reason)

theorem interrupt (hs : Inv s) {exec : ℕ} {ex : Execution}
    (hex : s.executions.get? exec = some ex) (why : Interrupt) :
    Inv (s.interrupt exec ex why) := by
  have hwaiting : Inv (s.setPhase exec ex (.waiting (some why))) := hs.setPhase hex nofun
  exact hwaiting.settle rfl fun r hr => by cases hr

theorem timeout (hs : Inv s) (exec : ℕ) : Inv (s.timeout exec) := by
  unfold State.timeout
  split
  · next ex hex =>
    split
    · split_ifs
      · exact hs.interrupt hex .timeout
      · exact hs
    · exact hs
  · exact hs

theorem cancelTask (hs : Inv s) (exec : ℕ) : Inv (s.cancelTask exec) := by
  unfold State.cancelTask
  split
  · next ex hex =>
    split
    · exact hs.setPhase hex nofun
    · exact hs.interrupt hex .cancelled
    · exact hs.setPhase hex nofun
    · exact hs
  · exact hs

/-- A wait returns an approval only from a future that has one. -/
theorem waitResult_approved {id : String} {keepsResult : Bool} {why : Option Interrupt}
    {f : Future} {r : ApprovalResult} (h : State.waitResult id keepsResult why f = some r)
    (happroved : r.status = .approved) : f = .result r := by
  match why, f with
  | none, .waiting | none, .cancelled => cases h
  | none, .result r' => exact congrArg Future.result (Option.some.inj h)
  | some .cancelled, _ => cases h
  | some .timeout, .waiting | some .timeout, .cancelled =>
    obtain rfl := Option.some.inj h
    cases happroved
  | some .timeout, .result r' =>
    have h := Option.some.inj h
    split_ifs at h
    · exact congrArg Future.result h
    · obtain rfl := h
      cases happroved

theorem wake (hs : Inv s) (exec : ℕ) (keepsResult : Bool) : Inv (s.wake exec keepsResult) := by
  unfold State.wake
  split
  · next ex hex =>
    split
    · next why req f hphase hget =>
      split_ifs
      · refine (hs.setPhase hex fun r hr happroved => ?_).erase ex.request.id
        obtain rfl := waitResult_approved (Phase.closing.inj hr) happroved
        exact hs.pendingGranted hget happroved
      · exact hs
    · exact hs
  · exact hs

theorem close (hs : Inv s) (exec : ℕ) : Inv (s.close exec) := by
  unfold State.close
  split
  · next ex hex =>
    split
    · next result hphase =>
      have hended : Inv (s.setPhase exec ex .ended) := hs.setPhase hex nofun
      dsimp only
      split_ifs with happroved
      · obtain ⟨r, rfl, hr⟩ := Option.map_eq_some_iff.1 happroved
        obtain ⟨offered, hsettled, htoken⟩ := hs.closingGranted hex hphase hr
        exact hended.ran (Or.inr ⟨ex.request, offered, hs.executionCreated hex, hsettled, htoken⟩)
      · exact hended
    · exact hs
  · exact hs

theorem emitted (hs : Inv s) (exec : ℕ) : Inv (s.emitted exec) := by
  unfold State.emitted
  split
  · next ex hex =>
    split
    · exact hs.setPhase hex nofun
    · exact hs
  · exact hs

theorem step (hs : Inv s) : ∀ event : Event, Inv (s.step event)
  | .execute exec gate args id => hs.execute exec gate args id
  | .emitted exec => hs.emitted exec
  | .resolve id approved reason offeredToken => hs.resolve id approved reason offeredToken
  | .cancel id reason offeredToken => hs.cancel id reason offeredToken
  | .cancelAll reason => hs.cancelAll reason
  | .timeout exec => hs.timeout exec
  | .cancelTask exec => hs.cancelTask exec
  | .wake exec keepsResult => hs.wake exec keepsResult
  | .closed exec => hs.close exec

end Inv

/-- Every reachable state has the invariant. -/
theorem inv_run (approverToken : Option String) (events : List Event) :
    Inv (run approverToken events) :=
  List.foldlRecOn events State.step (Inv.init approverToken) fun _ hs event _ => hs.step event

/-! ## The approver token stays -/

theorem State.settle_approverToken (s : State) (id : String) (f : Future) (how : Settlement) :
    (s.settle id f how).approverToken = s.approverToken := by
  unfold State.settle
  split <;> rfl

theorem State.cancelAll_approverToken (s : State) (reason : Option String) :
    (s.cancelAll reason).approverToken = s.approverToken :=
  List.foldlRecOn (motive := fun t : State => t.approverToken = s.approverToken) _ _ rfl
    fun t ht id _ => (t.settle_approverToken id _ _).trans ht

theorem State.step_approverToken (s : State) (event : Event) :
    (s.step event).approverToken = s.approverToken := by
  cases event with
  | execute exec gate args id =>
    dsimp only [State.step, State.execute]
    split_ifs <;> rfl
  | resolve id approved reason offeredToken =>
    dsimp only [State.step, State.resolve]
    split_ifs
    · exact s.settle_approverToken id _ _
    · rfl
  | cancel id reason offeredToken =>
    dsimp only [State.step, State.cancel]
    split_ifs
    · exact s.settle_approverToken id _ _
    · rfl
  | cancelAll reason => exact s.cancelAll_approverToken reason
  | emitted exec =>
    dsimp only [State.step, State.emitted]
    repeat' split
    all_goals rfl
  | timeout exec =>
    dsimp only [State.step, State.timeout, State.interrupt]
    repeat' split
    all_goals first | rfl | exact State.settle_approverToken _ _ _ _
  | cancelTask exec =>
    dsimp only [State.step, State.cancelTask, State.interrupt]
    repeat' split
    all_goals first | rfl | exact State.settle_approverToken _ _ _ _
  | wake exec keepsResult =>
    dsimp only [State.step, State.wake]
    repeat' split
    all_goals rfl
  | closed exec =>
    dsimp only [State.step, State.close]
    repeat' split
    all_goals rfl

theorem run_approverToken (approverToken : Option String) (events : List Event) :
    (run approverToken events).approverToken = approverToken :=
  List.foldlRecOn (motive := fun s => s.approverToken = approverToken) events State.step rfl
    fun s hs event _ => (s.step_approverToken event).trans hs

/-! ## What the log shows -/

/-- The entry says that the request was settled. -/
def Entry.settles (id : String) : Entry → Bool
  | .settled id' _ => id' = id
  | _ => false

theorem Entry.settles_iff {id : String} {entry : Entry} :
    entry.settles id = true ↔ ∃ how, entry = .settled id how := by
  cases entry with
  | settled id' how => simp [Entry.settles]
  | created exec gate args req => simp [Entry.settles]
  | ran exec gate args => simp [Entry.settles]

/-- Two entries create requests of one id. -/
def Entry.SameId : Entry → Entry → Prop
  | .created _ _ _ req, .created _ _ _ req' => req.id = req'.id
  | _, _ => False

theorem Entry.SameId.symm : ∀ a b : Entry, a.SameId b → b.SameId a
  | .created _ _ _ _, .created _ _ _ _, h => Eq.symm h

/-- No two executions have requests of one id. -/
theorem created_id_unique (approverToken : Option String) (events : List Event)
    {exec exec' : ℕ} {gate gate' : GatedTool} {args args' : Args} {req req' : ApprovalRequest}
    (h : .created exec gate args req ∈ (run approverToken events).log)
    (h' : .created exec' gate' args' req' ∈ (run approverToken events).log)
    (hid : req'.id = req.id) : exec' = exec := by
  have hrel := (inv_run approverToken events).justified.mono
    (K := fun before a => ∀ b ∈ before, ¬Entry.SameId b a) fun before a hJ b hb hsame => by
      match b, a, hsame with
      | .created e g x r, .created e' g' x' r', hsame => exact (hJ.2 e g x r hb).2 hsame
  exact (Entry.created.inj (hrel.eq_of_rel Entry.SameId.symm h' h hid)).1

/-- A request is settled at most once. -/
theorem settled_at_most_once (approverToken : Option String) (events : List Event)
    (id : String) : (run approverToken events).log.countP (Entry.settles id) ≤ 1 := by
  refine ((inv_run approverToken events).justified.mono fun before a hJ ha b hb => ?_).countP_le_one
  obtain ⟨how, rfl⟩ := Entry.settles_iff.1 ha
  by_contra hsettles
  obtain ⟨how', hb'⟩ := Entry.settles_iff.1 (Bool.not_eq_false _ ▸ hsettles)
  exact hJ how' (hb' ▸ hb)

/-- A gated tool runs only after the request of its own execution was approved by a caller
with a valid token, unless its predicate lets the call through, and a request is settled at
most once. -/
theorem gated_tool_runs_approved (approverToken : Option String) (events : List Event) :
    (∀ i exec gate args, (run approverToken events).log[i]? = some (.ran exec gate args) →
      gate.bypasses args = false →
      ∃ req offered, .created exec gate args req ∈ (run approverToken events).log.take i ∧
        req.tool = gate.name ∧ req.args = args ∧
        (∀ exec' gate' args' req', .created exec' gate' args' req' ∈
          (run approverToken events).log → req'.id = req.id → exec' = exec) ∧
        .settled req.id (.resolved true offered) ∈ (run approverToken events).log.take i ∧
        requireApprover approverToken offered = true) ∧
      ∀ id, (run approverToken events).log.countP (Entry.settles id) ≤ 1 := by
  have hinv := inv_run approverToken events
  refine ⟨fun i exec gate args hran hbypass => ?_, settled_at_most_once approverToken events⟩
  rcases hinv.justified i _ hran with hgate | ⟨req, offered, hcreated, hsettled, htoken⟩
  · rw [hbypass] at hgate
    cases hgate
  · have hmem := List.mem_of_mem_take hcreated
    obtain ⟨j, hj⟩ := List.mem_iff_getElem?.1 hmem
    obtain ⟨htool, hargs⟩ := (hinv.justified j _ hj).1
    rw [run_approverToken] at htoken
    exact ⟨req, offered, hcreated, htool, hargs,
      fun exec' gate' args' req' h' hid => created_id_unique approverToken events hmem h' hid,
      hsettled, htoken⟩

/-- An approved call, with the token the manager was given. -/
def approvedCall : List Event :=
  [.execute 0 ⟨"shell", fun name _ => name, none, none⟩ [] "r1", .emitted 0,
    .resolve "r1" true none none, .resolve "r1" true none (some "secret"), .wake 0 true, .closed 0]

theorem gated_tool_runs_approved_shell :
    ∃ (req : ApprovalRequest) (offered : Option String),
      .settled req.id (.resolved true offered) ∈
        (run (some "secret") approvedCall).log.take 2 ∧
      requireApprover (some "secret") offered = true := by
  obtain ⟨req, offered, -, -, -, -, hsettled, htoken⟩ :=
    (gated_tool_runs_approved (some "secret") approvedCall).1 2 0
      ⟨"shell", fun name _ => name, none, none⟩ [] rfl rfl
  exact ⟨req, offered, hsettled, htoken⟩

end OxenClaw.Approvals
