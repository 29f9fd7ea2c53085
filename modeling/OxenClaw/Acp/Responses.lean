import OxenClaw.Lib.Dict
import OxenClaw.Lib.JsonValue
import OxenClaw.Lib.Runs

/-!
# One response for each request

`AcpServer` runs each message it receives in a task of its own. An event is what one task does
between two awaits (`Task.resume`), and the tasks share the sessions and the wire.

A handler answers what it has validated with a result. An `Exception` of the runtime, of a
validator or of the encoding of a message is answered with an error, but `CancelledError` is none,
and the answer to an exception may itself not be encoded. A message with an id gets exactly one
response unless that happens (`answeredOnce_iff`).
-/

namespace OxenClaw.Acp

open CodePoints

/-- A `dict` of a message. -/
abbrev Fields := Dict CodePoints JsonValue

/-- `msg.get("id")`. -/
def Fields.id (msg : Fields) : JsonValue :=
  (Dict.get? msg (lit "id")).getD .null

/-! ## Error codes -/

def invalidRequest : ℤ := -32600
def methodNotFound : ℤ := -32601
def invalidParams : ℤ := -32602
def internalError : ℤ := -32603

/-! ## What is sent -/

/-- A message of the server. -/
inductive Frame where
  | result (id value : JsonValue)
  | error (id : JsonValue) (code : ℤ) (message : CodePoints)
  /-- A `session/update` notification. -/
  | update (sessionId : CodePoints) (payload : JsonValue)

def Frame.json : Frame → JsonValue
  | .result id value =>
    .obj [(lit "jsonrpc", .str (lit "2.0")), (lit "id", id), (lit "result", value)]
  | .error id code message =>
    .obj [(lit "jsonrpc", .str (lit "2.0")), (lit "id", id),
      (lit "error", .obj [(lit "code", .int code), (lit "message", .str message)])]
  | .update sessionId payload =>
    .obj [(lit "jsonrpc", .str (lit "2.0")), (lit "method", .str (lit "session/update")),
      (lit "params", .obj [(lit "sessionId", .str sessionId), (lit "update", payload)])]

/-- The id a response is for. -/
def Frame.respondsTo : Frame → Option JsonValue
  | .result id _ | .error id _ _ => some id
  | .update _ _ => none

/-- The events of a runtime. -/
inductive AcpRuntimeEvent where
  | textDelta (text : CodePoints) (stream tag : Option CodePoints)
  | status (text : CodePoints) (tag : Option CodePoints)
  | toolCall (tag toolCallId status title : Option CodePoints)
  | done (stopReason : Option CodePoints)
  | error (message : CodePoints)

/-- `value or default`. -/
def orElse (default : String) : Option CodePoints → CodePoints
  | some (c :: cs) => c :: cs
  | _ => lit default

def optional : Option CodePoints → JsonValue
  | some s => .str s
  | none => .null

/-- `_project_event`. -/
def projectEvent : AcpRuntimeEvent → Option JsonValue
  | .textDelta text stream tag =>
    let chunk := if stream = some (lit "thought") then "agent_thought_chunk"
      else "agent_message_chunk"
    some (.obj [(lit "sessionUpdate", .str (orElse chunk tag)),
      (lit "content", .obj [(lit "type", .str (lit "text")), (lit "text", .str text)])])
  | .toolCall tag toolCallId status title =>
    some (.obj [(lit "sessionUpdate", .str (orElse "tool_call_update" tag)),
      (lit "toolCallId", optional toolCallId), (lit "status", optional status),
      (lit "title", optional title)])
  | .status text tag =>
    some (.obj [(lit "sessionUpdate", .str (orElse "status" tag)), (lit "text", .str text)])
  | .error _ | .done _ => none

/-! ## The server -/

/-- What the server is built with, what pydantic says to the parameters of a request, and the texts
Python makes : a `repr` and the message of a `UnicodeEncodeError` name a surrogate by its escape. -/
structure Server where
  agentName : CodePoints
  agentVersion : CodePoints
  protocolVersion : CodePoints
  initializeParams : JsonValue → Option String
  /-- The `_meta` of valid parameters. -/
  newSessionParams : JsonValue → Except String (Option Fields)
  /-- The `sessionId` of valid parameters. -/
  promptParams : JsonValue → Except String CodePoints
  repr : CodePoints → String
  encodeError : Frame → String

/-- What is left to do when a frame has been written. -/
inductive Cont where
  /-- Nothing. An exception is answered by `_dispatch`. -/
  | result
  /-- The turn goes on after an event, or fails. -/
  | update (sid : CodePoints) (ev : AcpRuntimeEvent)
  /-- Nothing. An exception ends the task. -/
  | final

/-- Where a task waits. -/
inductive Phase where
  | created
  /-- For `ensure_session`. -/
  | ensuring
  /-- For the next event of `run_turn`. -/
  | turn (sid : CodePoints)
  /-- For `cancel` of the runtime. -/
  | cancelling
  | sending (f : Frame) (k : Cont)
  | finished

structure Task where
  msg : Fields
  phase : Phase

/-- `_session_counter`, and the `cancel_event` of each session. -/
structure Sessions where
  counter : ℕ := 0
  cancelEvents : Dict CodePoints Bool := []

/-- How a call of the runtime ends. -/
inductive Call where
  | returns
  /-- It raises an `Exception` with this text. -/
  | raises (text : CodePoints)
  /-- It raises `CancelledError`. -/
  | cancelled

/-- How `run_turn` goes on. -/
inductive Next where
  | event (ev : AcpRuntimeEvent)
  | exhausted
  | raises (text : CodePoints)
  | cancelled

inductive TaskEvent where
  | start
  | ensured (call : Call)
  | turned (next : Next)
  | cancelReturned (call : Call)
  | write

/-- What a task does in an event. -/
structure Move where
  sessions : Sessions
  phase : Phase
  frames : List Frame := []

/-- A handler error, which is answered if the message has an id. -/
def fail (id : JsonValue) (code : ℤ) (message : CodePoints) : Phase :=
  if id.isNull then .finished else .sending (.error id code message) .final

/-- `type(v).__name__`. -/
def typeName : JsonValue → String
  | .null => "NoneType"
  | .bool _ => "bool"
  | .int _ => "int"
  | .float _ => "float"
  | .str _ => "str"
  | .arr _ => "list"
  | .obj _ => "dict"

/-- `f"{n:04d}"`. -/
def padded (n : ℕ) : String :=
  String.ofList ((Nat.toDigits 10 n).leftpad 4 '0')

namespace Server

variable (server : Server)

/-- `_handle_new_session`, until the runtime is called. -/
def beginNewSession (s : Sessions) (id params : JsonValue) : Move :=
  if id.isNull then ⟨s, .finished, []⟩
  else match server.newSessionParams params with
    | .error text => ⟨s, fail id invalidParams (lit text), []⟩
    | .ok fields =>
      -- A session key is minted where the parameters name none.
      let named := ((fields.getD []).get? (lit "sessionKey")).any JsonValue.truthy
      ⟨if named then s else { s with counter := s.counter + 1 }, .ensuring, []⟩

/-- `_handle_prompt`, until the first event of the turn. -/
def beginPrompt (s : Sessions) (id params : JsonValue) : Move :=
  if id.isNull then ⟨s, .finished, []⟩
  else match server.promptParams params with
    | .error text => ⟨s, fail id invalidParams (lit text), []⟩
    | .ok sid =>
      if (s.cancelEvents.get? sid).isNone then
        ⟨s, fail id invalidParams (lit ("unknown sessionId " ++ server.repr sid)), []⟩
      else ⟨{ s with cancelEvents := s.cancelEvents.set sid false }, .turn sid, []⟩

/-- `_handle_cancel`, until the runtime is called. -/
def beginCancel (s : Sessions) (id : JsonValue) : JsonValue → Move
  | .obj fields =>
    match Dict.get? fields (lit "sessionId") with
    | some (.str sid) =>
      if (s.cancelEvents.get? sid).isNone then
        ⟨s, fail id invalidParams (lit ("unknown sessionId " ++ server.repr sid)), []⟩
      else ⟨{ s with cancelEvents := s.cancelEvents.set sid true }, .cancelling, []⟩
    | _ => ⟨s, fail id invalidParams (lit "sessionId required"), []⟩
  | params =>
    ⟨s, fail id internalError (lit ("internal error: '" ++ typeName params ++
      "' object has no attribute 'get'")), []⟩

/-- `_handle_initialize`, until its result is written. -/
def beginInitialize (s : Sessions) (id params : JsonValue) : Move :=
  if id.isNull then ⟨s, .finished, []⟩
  else match server.initializeParams params with
    | some text => ⟨s, fail id invalidParams (lit text), []⟩
    | none =>
      ⟨s, .sending (.result id (.obj [(lit "protocolVersion", .str server.protocolVersion),
        (lit "agentInfo", .obj [(lit "name", .str server.agentName),
          (lit "version", .str server.agentVersion)])])) .result, []⟩

/-- `_dispatch`, until a handler awaits. -/
def begin (s : Sessions) (msg : Fields) : Move :=
  let params := match Dict.get? msg (lit "params") with
    | some v => if v.truthy then v else .obj []
    | none => .obj []
  match Dict.get? msg (lit "method") with
  | some (.str method) =>
    if method = lit "initialize" then server.beginInitialize s msg.id params
    else if method = lit "session/new" then server.beginNewSession s msg.id params
    else if method = lit "session/prompt" then server.beginPrompt s msg.id params
    else if method = lit "session/cancel" then server.beginCancel s msg.id params
    else ⟨s, fail msg.id methodNotFound (lit ("unknown method " ++ server.repr method)), []⟩
  | _ => ⟨s, fail msg.id invalidRequest (lit "missing method"), []⟩

end Server

/-- The result of a prompt. -/
def stopped (id : JsonValue) (reason : CodePoints) : Phase :=
  .sending (.result id (.obj [(lit "stopReason", .str reason)])) .result

/-- The loop over a turn, after an event and its update. -/
def afterEvent (s : Sessions) (id : JsonValue) (sid : CodePoints) : AcpRuntimeEvent → Phase
  | .done stopReason => stopped id (orElse "stop" stopReason)
  | .error message => fail id internalError message
  | _ => if (s.cancelEvents.get? sid).getD false then stopped id (lit "cancel") else .turn sid

/-- The event that a task waits for. Other events leave it where it is. -/
def Task.resume (server : Server) (s : Sessions) (t : Task) : TaskEvent → Move
  | .start =>
    match t.phase with
    | .created => server.begin s t.msg
    | phase => ⟨s, phase, []⟩
  | .ensured call =>
    match t.phase, call with
    | .ensuring, .returns =>
      let sid := lit ("oxenclaw-" ++ padded (s.counter + 1))
      ⟨⟨s.counter + 1, s.cancelEvents.set sid false⟩,
        .sending (.result t.msg.id (.obj [(lit "sessionId", .str sid)])) .result, []⟩
    | .ensuring, .raises text =>
      ⟨s, fail t.msg.id internalError (lit "ensure_session failed: " ++ text), []⟩
    | .ensuring, .cancelled => ⟨s, .finished, []⟩
    | phase, _ => ⟨s, phase, []⟩
  | .turned next =>
    match t.phase, next with
    | .turn sid, .event ev =>
      match projectEvent ev with
      | some payload => ⟨s, .sending (.update sid payload) (.update sid ev), []⟩
      | none => ⟨s, afterEvent s t.msg.id sid ev, []⟩
    | .turn _, .exhausted => ⟨s, stopped t.msg.id (lit "stop"), []⟩
    | .turn _, .raises text =>
      ⟨s, fail t.msg.id internalError (lit "run_turn failed: " ++ text), []⟩
    | .turn _, .cancelled => ⟨s, .finished, []⟩
    | phase, _ => ⟨s, phase, []⟩
  | .cancelReturned call =>
    match t.phase, call with
    | .cancelling, .cancelled => ⟨s, .finished, []⟩
    | .cancelling, _ =>
      ⟨s, if t.msg.id.isNull then .finished else .sending (.result t.msg.id (.obj [])) .result, []⟩
    | phase, _ => ⟨s, phase, []⟩
  | .write =>
    match t.phase with
    | .sending f k =>
      if f.json.encodable then
        match k with
        | .result | .final => ⟨s, .finished, [f]⟩
        | .update sid ev => ⟨s, afterEvent s t.msg.id sid ev, [f]⟩
      else
        match k with
        | .result =>
          ⟨s, fail t.msg.id internalError (lit ("internal error: " ++ server.encodeError f)), []⟩
        | .update _ _ =>
          ⟨s, fail t.msg.id internalError (lit ("run_turn failed: " ++ server.encodeError f)), []⟩
        | .final => ⟨s, .finished, []⟩
    | phase => ⟨s, phase, []⟩

/-- The tasks in the order of their messages, and the frames written, each with its task. -/
structure ServerState where
  sessions : Sessions := {}
  tasks : List Task := []
  wire : List (ℕ × Frame) := []

inductive ServerEvent where
  | receive (msg : Fields)
  | task (i : ℕ) (e : TaskEvent)

def ServerState.step (server : Server) (s : ServerState) : ServerEvent → ServerState
  | .receive msg => { s with tasks := s.tasks ++ [⟨msg, .created⟩] }
  | .task i e =>
    match s.tasks[i]? with
    | none => s
    | some t =>
      let m := t.resume server s.sessions e
      ⟨m.sessions, s.tasks.set i { t with phase := m.phase }, s.wire ++ m.frames.map (i, ·)⟩

/-- What a task has written. -/
def framesOf (i : ℕ) (wire : List (ℕ × Frame)) : List Frame :=
  (wire.filter (·.1 = i)).map Prod.snd

/-- The frames for a message : no response if it has no id, otherwise one, with its id, after all
notifications. -/
def AnsweredOnce (id : JsonValue) (frames : List Frame) : Prop :=
  if id.isNull then ∀ f ∈ frames, f.respondsTo = none
  else ∃ updates response, frames = updates ++ [response] ∧ response.respondsTo = some id ∧
    ∀ f ∈ updates, f.respondsTo = none

/-- `serve` has gathered its tasks. -/
def ServerState.Returned (s : ServerState) : Prop :=
  ∀ t ∈ s.tasks, t.phase = .finished

/-- The runtime does not raise `CancelledError` at a request with an id, and gives no text that
cannot be encoded for an error. -/
def Task.Clean (t : Task) : TaskEvent → Prop
  | .ensured call =>
    match t.phase, call with
    | .ensuring, .raises text => text.Encodable
    | .ensuring, .cancelled => False
    | _, _ => True
  | .turned next =>
    match t.phase, next with
    | .turn _, .event (.error message) => message.Encodable
    | .turn _, .raises text => text.Encodable
    | .turn _, .cancelled => False
    | _, _ => True
  | .cancelReturned .cancelled =>
    match t.phase with
    | .cancelling => t.msg.id.isNull = true
    | _ => True
  | _ => True

/-- Besides, the id of a message can be encoded. -/
def CleanEvent (s : ServerState) : ServerEvent → Prop
  | .receive msg => msg.id.encodable = true
  | .task i e => ∀ t, s.tasks[i]? = some t → t.Clean e

/-! ## One task -/

theorem encodable_error (id : JsonValue) (code : ℤ) (message : CodePoints) :
    (Frame.error id code message).json.encodable = true ↔
      id.encodable = true ∧ message.Encodable := by
  have hlit (text : String) : decide (lit text).Encodable = true :=
    decide_eq_true (encodable_lit text)
  simp [Frame.json, JsonValue.encodable, JsonValue.encodableFields, hlit]

theorem encodable_id {f : Frame} {id : JsonValue} (hf : f.respondsTo = some id)
    (h : f.json.encodable = true) : id.encodable = true := by
  rcases f with ⟨id', value⟩ | ⟨id', code, message⟩ | _
  · obtain rfl : id' = id := Option.some.inj hf
    simp only [Frame.json, JsonValue.encodable, JsonValue.encodableFields, Bool.and_eq_true] at h
    exact h.2.1.2
  · obtain rfl : id' = id := Option.some.inj hf
    exact ((encodable_error _ _ _).1 h).1
  · cases hf

/-- What is left to do after a frame fits it. -/
def Cont.Fits (id : JsonValue) (f : Frame) : Cont → Prop
  | .update _ ev => f.respondsTo = none ∧ (projectEvent ev).isSome = true
  | _ => f.respondsTo = some id

/-- A task whose message has no id gets nowhere but `cancel`. -/
def Phase.Fits (id : JsonValue) : Phase → Prop
  | .ensuring | .turn _ => id.isNull = false
  | .sending f k => id.isNull = false ∧ k.Fits id f
  | _ => True

/-- A response is yet to be made. -/
def Phase.isOpen : Phase → Bool
  | .finished | .sending _ .final => false
  | _ => true

/-- What holds of a task and its frames in every run. -/
structure Task.Ok (t : Task) (frames : List Frame) : Prop where
  phase : t.phase.Fits t.msg.id
  notAnswered : t.phase ≠ .finished → ∀ f ∈ frames, f.respondsTo = none
  encodable : ∀ f ∈ frames, f.json.encodable = true
  silent : t.msg.id.isNull = true → ∀ f ∈ frames, f.respondsTo = none

/-- The task has answered its message, or will unless an event is not clean. -/
structure Task.OnTrack (t : Task) (frames : List Frame) : Prop where
  id : t.msg.id.encodable = true
  answered : t.phase = .finished → AnsweredOnce t.msg.id frames
  final : ∀ f, t.phase = .sending f .final → f.json.encodable = true

variable {id : JsonValue} {t : Task} {frames : List Frame}

theorem onTrack_of_isOpen (h : t.phase.isOpen = true) :
    t.OnTrack frames ↔ t.msg.id.encodable = true := by
  refine ⟨fun hon => hon.id, fun hid => ⟨hid, fun hphase => ?_, fun f hphase => ?_⟩⟩
  all_goals
    rw [hphase] at h
    cases h

/-- A handler error is answered if its text can be encoded. -/
theorem onTrack_fail {code : ℤ} {message : CodePoints}
    (hphase : t.phase = fail t.msg.id code message) (hframes : ∀ f ∈ frames, f.respondsTo = none) :
    t.OnTrack frames ↔
      t.msg.id.encodable = true ∧ (t.msg.id.isNull = false → message.Encodable) := by
  unfold fail at hphase
  split_ifs at hphase with hnull
  · refine ⟨fun hon => ⟨hon.id, fun h => ?_⟩, fun h => ⟨h.1, fun _ => ?_, fun f hf => ?_⟩⟩
    · rw [hnull] at h
      cases h
    · unfold AnsweredOnce
      rwa [if_pos hnull]
    · rw [hphase] at hf
      cases hf
  · constructor
    · exact fun hon => ⟨hon.id, fun _ => ((encodable_error _ _ _).1 (hon.final _ hphase)).2⟩
    · rintro ⟨hid, hmessage⟩
      refine ⟨hid, fun hf => ?_, fun f hf => ?_⟩
      · rw [hphase] at hf
        cases hf
      · rw [hphase] at hf
        cases hf
        exact (encodable_error _ _ _).2 ⟨hid, hmessage (Bool.eq_false_iff.2 hnull)⟩

theorem fits_fail (id : JsonValue) (code : ℤ) (message : CodePoints) :
    (fail id code message).Fits id := by
  unfold fail
  split_ifs with hnull
  · trivial
  · exact ⟨Bool.eq_false_iff.2 hnull, rfl⟩

/-- The exits of a handler : it returns without a response, answers an exception with a text of its
own, or waits for something. -/
inductive Exit (id : JsonValue) : Phase → Prop
  | silent (h : id.isNull = true) : Exit id .finished
  | fails (code : ℤ) (text : String) : Exit id (fail id code (lit text))
  | waits {phase : Phase} (hfits : phase.Fits id) (hopen : phase.isOpen = true) : Exit id phase

theorem Exit.fits {phase : Phase} (h : Exit id phase) : phase.Fits id := by
  rcases h with _ | ⟨code, text⟩ | ⟨hfits, -⟩
  · trivial
  · exact fits_fail id code _
  · exact hfits

theorem Exit.onTrack_iff (h : Exit t.msg.id t.phase) (hframes : ∀ f ∈ frames, f.respondsTo = none) :
    t.OnTrack frames ↔ t.msg.id.encodable = true := by
  generalize hphase : t.phase = phase at h
  rcases h with hnull | ⟨code, text⟩ | ⟨-, hopen⟩
  · refine ⟨fun hon => hon.id, fun hid => ⟨hid, fun _ => ?_, fun f hf => ?_⟩⟩
    · unfold AnsweredOnce
      rwa [if_pos hnull]
    · rw [hphase] at hf
      cases hf
  · rw [onTrack_fail hphase hframes]
    exact and_iff_left fun _ => encodable_lit text
  · exact onTrack_of_isOpen (hphase ▸ hopen)

theorem exit_afterEvent (s : Sessions) {sid : CodePoints} {ev : AcpRuntimeEvent}
    (hid : id.isNull = false) (hev : ∀ message, ev ≠ .error message) :
    Exit id (afterEvent s id sid ev) := by
  have hturn : Exit id (if (s.cancelEvents.get? sid).getD false then stopped id (lit "cancel")
      else .turn sid) := by
    split_ifs
    · exact .waits ⟨hid, rfl⟩ rfl
    · exact .waits hid rfl
  rcases ev with _ | _ | _ | stopReason | message
  case done => exact .waits ⟨hid, rfl⟩ rfl
  case error => exact absurd rfl (hev message)
  all_goals exact hturn

theorem exit_beginInitialize (server : Server) (s : Sessions) (id params : JsonValue) :
    (server.beginInitialize s id params).frames = [] ∧
      Exit id (server.beginInitialize s id params).phase := by
  unfold Server.beginInitialize
  split_ifs with hid
  · exact ⟨rfl, .silent hid⟩
  · split
    · exact ⟨rfl, .fails _ _⟩
    · exact ⟨rfl, .waits ⟨Bool.eq_false_iff.2 hid, rfl⟩ rfl⟩

theorem exit_beginNewSession (server : Server) (s : Sessions) (id params : JsonValue) :
    (server.beginNewSession s id params).frames = [] ∧
      Exit id (server.beginNewSession s id params).phase := by
  unfold Server.beginNewSession
  split_ifs with hid
  · exact ⟨rfl, .silent hid⟩
  · split
    · exact ⟨rfl, .fails _ _⟩
    · exact ⟨rfl, .waits (Bool.eq_false_iff.2 hid) rfl⟩

theorem exit_beginPrompt (server : Server) (s : Sessions) (id params : JsonValue) :
    (server.beginPrompt s id params).frames = [] ∧
      Exit id (server.beginPrompt s id params).phase := by
  unfold Server.beginPrompt
  split_ifs with hid
  · exact ⟨rfl, .silent hid⟩
  · split
    · exact ⟨rfl, .fails _ _⟩
    · split_ifs
      · exact ⟨rfl, .fails _ _⟩
      · exact ⟨rfl, .waits (Bool.eq_false_iff.2 hid) rfl⟩

/-- A `session/cancel` without an id is carried out too. -/
theorem exit_beginCancel (server : Server) (s : Sessions) (id params : JsonValue) :
    (server.beginCancel s id params).frames = [] ∧
      Exit id (server.beginCancel s id params).phase := by
  unfold Server.beginCancel
  split
  · split
    · split_ifs
      · exact ⟨rfl, .fails _ _⟩
      · exact ⟨rfl, .waits trivial rfl⟩
    · exact ⟨rfl, .fails _ _⟩
  · exact ⟨rfl, .fails _ _⟩

/-- Every handler takes an exit before it awaits. -/
theorem exit_begin (server : Server) (s : Sessions) (msg : Fields) :
    (server.begin s msg).frames = [] ∧ Exit msg.id (server.begin s msg).phase := by
  unfold Server.begin
  simp only
  split
  · split_ifs
    · exact exit_beginInitialize server s _ _
    · exact exit_beginNewSession server s _ _
    · exact exit_beginPrompt server s _ _
    · exact exit_beginCancel server s _ _
    · exact ⟨rfl, .fails _ _⟩
  · exact ⟨rfl, .fails _ _⟩

/-! ## One event of a task -/

/-- A move keeps a task in order, and on track exactly if the event is clean. -/
structure Goes (t : Task) (frames : List Frame) (m : Move) (clean : Prop) : Prop where
  ok : Task.Ok { t with phase := m.phase } (frames ++ m.frames)
  onTrack : Task.OnTrack { t with phase := m.phase } (frames ++ m.frames) ↔
    t.OnTrack frames ∧ clean

variable {s : Sessions} {m : Move}

/-- The task does not wait for the event. -/
theorem goes_stay (h : t.Ok frames) : Goes t frames ⟨s, t.phase, []⟩ True := by
  refine ⟨?_, ?_⟩
  · rwa [List.append_nil]
  · rw [List.append_nil]
    exact (and_iff_left trivial).symm

/-- Nothing is written, and no response has been. -/
theorem ok_silent (h : t.Ok frames) (hopen : t.phase ≠ .finished) {phase : Phase}
    (hfits : phase.Fits t.msg.id) : Task.Ok { t with phase } (frames ++ []) := by
  rw [List.append_nil]
  exact ⟨hfits, fun _ => h.notAnswered hopen, h.encodable, h.silent⟩

theorem ne_finished_of_isOpen (h : t.phase.isOpen = true) : t.phase ≠ .finished := by
  intro hphase
  rw [hphase] at h
  cases h

theorem goes_exit (h : t.Ok frames) (hopen : t.phase.isOpen = true) (hm : m.frames = [])
    (hexit : Exit t.msg.id m.phase) : Goes t frames m True := by
  have hframes := h.notAnswered (ne_finished_of_isOpen hopen)
  refine ⟨?_, ?_⟩ <;> rw [hm]
  · exact ok_silent h (ne_finished_of_isOpen hopen) hexit.fits
  · rw [List.append_nil, onTrack_of_isOpen hopen, and_true]
    exact Exit.onTrack_iff (t := { t with phase := m.phase }) hexit hframes

theorem goes_fail (h : t.Ok frames) (hopen : t.phase.isOpen = true) (hid : t.msg.id.isNull = false)
    (code : ℤ) (message : CodePoints) :
    Goes t frames ⟨s, fail t.msg.id code message, []⟩ message.Encodable := by
  have hframes := h.notAnswered (ne_finished_of_isOpen hopen)
  refine ⟨ok_silent h (ne_finished_of_isOpen hopen) (fits_fail _ code message), ?_⟩
  rw [List.append_nil, onTrack_of_isOpen hopen,
    onTrack_fail (t := { t with phase := fail t.msg.id code message }) rfl hframes]
  exact and_congr_right fun _ => ⟨fun hmessage => hmessage hid, fun hmessage _ => hmessage⟩

theorem not_answeredOnce_of_silent (hid : id.isNull = false)
    (hframes : ∀ f ∈ frames, f.respondsTo = none) : ¬AnsweredOnce id frames := by
  unfold AnsweredOnce
  rw [if_neg (by rw [hid]; exact Bool.false_ne_true)]
  rintro ⟨updates, response, rfl, hresponse, -⟩
  rw [hframes response (by simp)] at hresponse
  cases hresponse

/-- The task ends without a response. -/
theorem goes_ends (h : t.Ok frames) (hopen : t.phase ≠ .finished) (hid : t.msg.id.isNull = false) :
    Task.Ok { t with phase := .finished } (frames ++ []) ∧
      ¬Task.OnTrack { t with phase := .finished } (frames ++ []) := by
  refine ⟨ok_silent h hopen trivial, fun hon => ?_⟩
  rw [List.append_nil] at hon
  exact not_answeredOnce_of_silent hid (h.notAnswered hopen) (hon.answered rfl)

theorem goes_cancelled (h : t.Ok frames) (hopen : t.phase.isOpen = true)
    (hid : t.msg.id.isNull = false) : Goes t frames ⟨s, .finished, []⟩ False := by
  obtain ⟨hok, hnot⟩ := goes_ends h (ne_finished_of_isOpen hopen) hid
  exact ⟨hok, iff_of_false hnot fun hand => hand.2⟩

theorem encodable_append_lit (text : String) (message : CodePoints) :
    (lit text ++ message).Encodable ↔ message.Encodable := by
  constructor
  · exact fun h c hc => h c (List.mem_append_right _ hc)
  · intro h c hc
    exact (List.mem_append.1 hc).elim (encodable_lit text c) (h c)

/-- A frame is written, or cannot be encoded. -/
theorem goes_write {f : Frame} {k : Cont} (server : Server) (h : t.Ok frames)
    (hphase : t.phase = .sending f k) :
    Goes t frames (t.resume server s .write) True := by
  have hfits := h.phase
  rw [hphase] at hfits
  obtain ⟨hid, hcont⟩ := hfits
  have hopen : t.phase ≠ .finished := by
    rw [hphase]
    nofun
  have hframes := h.notAnswered hopen
  simp only [Task.resume, hphase]
  split_ifs with hencodable
  · have hwritten : ∀ g ∈ frames ++ [f], g.json.encodable = true := by
      simpa [or_imp, forall_and] using ⟨h.encodable, hencodable⟩
    have hlast (hresponse : f.respondsTo = some t.msg.id) :
        Goes t frames ⟨s, .finished, [f]⟩ True := by
      refine ⟨⟨trivial, fun hne => absurd rfl hne, hwritten, fun hnull => ?_⟩, ?_⟩
      · rw [hid] at hnull
        cases hnull
      · have hanswered : AnsweredOnce t.msg.id (frames ++ [f]) := by
          unfold AnsweredOnce
          rw [if_neg (by rw [hid]; exact Bool.false_ne_true)]
          exact ⟨frames, f, rfl, hresponse, hframes⟩
        have hidEncodable := encodable_id hresponse hencodable
        refine iff_of_true ⟨hidEncodable, fun _ => hanswered, nofun⟩
          ⟨⟨hidEncodable, ?_, ?_⟩, trivial⟩
        · exact fun hdone => absurd hdone hopen
        · intro g hg
          rw [hphase] at hg
          cases hg
          exact hencodable
    rcases k with _ | ⟨sid, ev⟩ | _
    · exact hlast hcont
    · obtain ⟨hupdate, hev⟩ := hcont
      have hexit : Exit t.msg.id (afterEvent s t.msg.id sid ev) :=
        exit_afterEvent s hid (by rintro message rfl; cases hev)
      have hsilent : ∀ g ∈ frames ++ [f], g.respondsTo = none := by
        simpa [or_imp, forall_and] using ⟨hframes, hupdate⟩
      refine ⟨⟨hexit.fits, fun _ => hsilent, hwritten, fun _ => hsilent⟩, ?_⟩
      rw [and_true, onTrack_of_isOpen (t := t) (by rw [hphase]; rfl)]
      exact Exit.onTrack_iff (t := { t with phase := afterEvent s t.msg.id sid ev }) hexit hsilent
    · exact hlast hcont
  · rcases k with _ | ⟨sid, ev⟩ | _
    · exact goes_exit h (by rw [hphase]; rfl) rfl (.fails _ _)
    · exact goes_exit h (by rw [hphase]; rfl) rfl (.fails _ _)
    · obtain ⟨hok, hnot⟩ := goes_ends h hopen hid
      refine ⟨hok, iff_of_false hnot fun hand => hencodable ?_⟩
      exact hand.1.final f hphase

theorem Goes.congr {clean clean' : Prop} (h : Goes t frames m clean) (hc : clean ↔ clean') :
    Goes t frames m clean' :=
  ⟨h.ok, h.onTrack.trans (and_congr_right fun _ => hc)⟩

theorem goes_resume (server : Server) (h : t.Ok frames) (e : TaskEvent) :
    Goes t frames (t.resume server s e) (t.Clean e) := by
  have hfits := h.phase
  have hstay : Goes t frames ⟨s, t.phase, []⟩ True := goes_stay h
  rcases e with _ | call | next | call | _
  case start =>
    rcases hphase : t.phase with _ | _ | _ | _ | _ | _
    case created =>
      obtain ⟨hbegin, hexit⟩ := exit_begin server s t.msg
      simp only [Task.resume, hphase]
      exact goes_exit h (by rw [hphase]; rfl) hbegin hexit
    all_goals
      simp only [Task.resume, hphase]
      rwa [hphase] at hstay
  case ensured =>
    rcases hphase : t.phase with _ | _ | _ | _ | _ | _
    case ensuring =>
      have hopen : t.phase.isOpen = true := by rw [hphase]; rfl
      have hid : t.msg.id.isNull = false := by rwa [hphase] at hfits
      rcases call with _ | text | _ <;> simp only [Task.resume, Task.Clean, hphase]
      · exact goes_exit h hopen rfl (.waits ⟨hid, rfl⟩ rfl)
      · exact (goes_fail h hopen hid internalError _).congr (encodable_append_lit _ text)
      · exact goes_cancelled h hopen hid
    all_goals
      simp only [Task.resume, Task.Clean, hphase]
      rwa [hphase] at hstay
  case turned =>
    rcases hphase : t.phase with _ | _ | sid | _ | _ | _
    case turn =>
      have hopen : t.phase.isOpen = true := by rw [hphase]; rfl
      have hid : t.msg.id.isNull = false := by rwa [hphase] at hfits
      rcases next with ev | _ | text | _ <;> simp only [Task.resume, Task.Clean, hphase]
      · rcases ev with _ | _ | _ | _ | message
        case done => exact goes_exit h hopen rfl (.waits ⟨hid, rfl⟩ rfl)
        case error => exact goes_fail h hopen hid internalError message
        all_goals exact goes_exit h hopen rfl (.waits ⟨hid, rfl, rfl⟩ rfl)
      · exact goes_exit h hopen rfl (.waits ⟨hid, rfl⟩ rfl)
      · exact (goes_fail h hopen hid internalError _).congr (encodable_append_lit _ text)
      · exact goes_cancelled h hopen hid
    all_goals
      simp only [Task.resume, Task.Clean, hphase]
      rwa [hphase] at hstay
  case cancelReturned =>
    rcases hphase : t.phase with _ | _ | _ | _ | _ | _
    case cancelling =>
      have hopen : t.phase.isOpen = true := by rw [hphase]; rfl
      have hresult : Exit t.msg.id (if t.msg.id.isNull then .finished
          else .sending (.result t.msg.id (.obj [])) .result) := by
        split_ifs with hid
        · exact .silent hid
        · exact .waits ⟨Bool.eq_false_iff.2 hid, rfl⟩ rfl
      rcases call with _ | text | _ <;> simp only [Task.resume, Task.Clean, hphase]
      · exact goes_exit h hopen rfl hresult
      · exact goes_exit h hopen rfl hresult
      · rcases hid : t.msg.id.isNull with _ | _
        · exact (goes_cancelled h hopen hid).congr (by simp)
        · exact (goes_exit h hopen rfl (.silent hid)).congr (by simp)
    all_goals
      rcases call with _ | _ | _ <;> simp only [Task.resume, Task.Clean, hphase] <;>
        rwa [hphase] at hstay
  case write =>
    rcases hphase : t.phase with _ | _ | _ | _ | ⟨f, k⟩ | _
    case sending => exact goes_write server h hphase
    all_goals
      simp only [Task.resume, Task.Clean, hphase]
      rwa [hphase] at hstay

/-! ## Runs -/

/-- What every event keeps. -/
structure ServerState.Ok (s : ServerState) : Prop where
  tasks : ∀ i (t : Task), s.tasks[i]? = some t → t.Ok (framesOf i s.wire)
  wire : ∀ w ∈ s.wire, w.1 < s.tasks.length

def ServerState.OnTrack (s : ServerState) : Prop :=
  ∀ i (t : Task), s.tasks[i]? = some t → t.OnTrack (framesOf i s.wire)

theorem framesOf_append_self (i : ℕ) (wire : List (ℕ × Frame)) (frames : List Frame) :
    framesOf i (wire ++ frames.map (i, ·)) = framesOf i wire ++ frames := by
  unfold framesOf
  rw [List.filter_append, List.map_append, List.filter_map]
  simp [Function.comp_def]

theorem framesOf_append_of_ne {i j : ℕ} (hij : j ≠ i) (wire : List (ℕ × Frame))
    (frames : List Frame) : framesOf i (wire ++ frames.map (j, ·)) = framesOf i wire := by
  unfold framesOf
  rw [List.filter_append, List.map_append, List.filter_map]
  simp [Function.comp_def, hij]

theorem framesOf_length {s : ServerState} (h : s.Ok) : framesOf s.tasks.length s.wire = [] := by
  unfold framesOf
  rw [List.filter_eq_nil_iff.2, List.map_nil]
  intro w hw
  simpa using (h.wire w hw).ne

/-- What holds of each item of a list, and of one more. -/
theorem forall_getElem?_append {α : Type*} {P : ℕ → α → Prop} (l : List α) (a : α) :
    (∀ i b, (l ++ [a])[i]? = some b → P i b) ↔
      (∀ i b, l[i]? = some b → P i b) ∧ P l.length a := by
  refine ⟨fun h => ⟨fun i b hb => h i b ?_, h _ _ List.getElem?_concat_length⟩, ?_⟩
  · rw [List.getElem?_append_left (List.getElem?_eq_some_iff.1 hb).1, hb]
  · rintro ⟨hl, ha⟩ i b hb
    rcases Nat.lt_trichotomy i l.length with hi | rfl | hi
    · exact hl i b (by rwa [List.getElem?_append_left hi] at hb)
    · obtain rfl : a = b := by simpa using hb
      exact ha
    · rw [List.getElem?_eq_none (by simp; omega)] at hb
      cases hb

/-- What holds of each item of a list, one of which is replaced. -/
theorem forall_getElem?_set {α : Type*} {P : ℕ → α → Prop} {l : List α} {i : ℕ} {a b : α}
    (ha : l[i]? = some a) :
    (∀ j c, (l.set i b)[j]? = some c → P j c) ↔
      (∀ j c, j ≠ i → l[j]? = some c → P j c) ∧ P i b := by
  have hi : i < l.length := (List.getElem?_eq_some_iff.1 ha).1
  constructor
  · refine fun h => ⟨fun j c hj hc => h j c ?_, h i b (List.getElem?_set_self hi)⟩
    rwa [List.getElem?_set_ne hj.symm]
  · rintro ⟨hl, hb⟩ j c hc
    by_cases hj : j = i
    · subst hj
      rw [List.getElem?_set_self hi] at hc
      exact Option.some.inj hc ▸ hb
    · exact hl j c hj (by rwa [List.getElem?_set_ne (Ne.symm hj)] at hc)

theorem ok_created (msg : Fields) : Task.Ok ⟨msg, .created⟩ [] :=
  ⟨trivial, fun _ => nofun, nofun, fun _ => nofun⟩

/-- The event of one task leaves the others as they are. -/
theorem step_task (server : Server) {s : ServerState} {P : Task → List Frame → Prop} {i : ℕ}
    {t : Task} (ht : s.tasks[i]? = some t) (e : TaskEvent) :
    (∀ j (u : Task), (s.step server (.task i e)).tasks[j]? = some u →
        P u (framesOf j (s.step server (.task i e)).wire)) ↔
      (∀ j (u : Task), j ≠ i → s.tasks[j]? = some u → P u (framesOf j s.wire)) ∧
        P { t with phase := (t.resume server s.sessions e).phase }
          (framesOf i s.wire ++ (t.resume server s.sessions e).frames) := by
  simp only [ServerState.step, ht]
  rw [forall_getElem?_set ht, framesOf_append_self]
  refine and_congr_left fun _ => forall_congr' fun j => forall_congr' fun u =>
    imp_congr_right fun hj => ?_
  rw [framesOf_append_of_ne (Ne.symm hj)]

theorem ok_step (server : Server) (s : ServerState) (e : ServerEvent) (h : s.Ok) :
    (s.step server e).Ok := by
  rcases e with msg | ⟨i, e⟩
  · refine ⟨(forall_getElem?_append _ _).2 ⟨h.tasks, ?_⟩, fun w hw => ?_⟩
    · exact (framesOf_length h).symm ▸ ok_created msg
    · have hlt := h.wire w hw
      simp only [ServerState.step, List.length_append, List.length_singleton]
      omega
  · rcases ht : s.tasks[i]? with _ | t
    · simp only [ServerState.step, ht]
      exact h
    · refine ⟨(step_task server ht e).2 ⟨fun j u _ => h.tasks j u, ?_⟩, fun w hw => ?_⟩
      · exact (goes_resume server (h.tasks i t ht) e).ok
      · simp only [ServerState.step, ht, List.length_set] at hw ⊢
        rcases List.mem_append.1 hw with hw | hw
        · exact h.wire w hw
        · obtain ⟨f, -, rfl⟩ := List.mem_map.1 hw
          exact (List.getElem?_eq_some_iff.1 ht).1

theorem onTrack_step_iff (server : Server) (s : ServerState) (e : ServerEvent) (h : s.Ok) :
    (s.step server e).OnTrack ↔ s.OnTrack ∧ CleanEvent s e := by
  rcases e with msg | ⟨i, e⟩
  · refine (forall_getElem?_append _ _).trans (and_congr_right fun _ => ?_)
    exact onTrack_of_isOpen rfl
  · rcases ht : s.tasks[i]? with _ | t
    · simp [ServerState.step, CleanEvent, ht]
    · have hgoes := (goes_resume (s := s.sessions) server (h.tasks i t ht) e).onTrack
      refine (step_task server ht e).trans ?_
      rw [hgoes]
      constructor
      · rintro ⟨hothers, hon, hclean⟩
        refine ⟨fun j u hu => ?_, fun u hu => ?_⟩
        · by_cases hj : j = i
          · subst hj
            rw [ht] at hu
            exact Option.some.inj hu ▸ hon
          · exact hothers j u hj hu
        · rw [ht] at hu
          exact Option.some.inj hu ▸ hclean
      · exact fun ⟨hon, hclean⟩ => ⟨fun j u _ => hon j u, hon i t ht, hclean t ht⟩

/-- When the tasks have ended, each message is answered if and only if every event was clean. -/
theorem answeredOnce_iff (server : Server) (es : List ServerEvent)
    (hreturned : (es.foldl (ServerState.step server) {}).Returned) :
    (∀ i (t : Task), (es.foldl (ServerState.step server) {}).tasks[i]? = some t →
        AnsweredOnce t.msg.id (framesOf i (es.foldl (ServerState.step server) {}).wire)) ↔
      EachStep (ServerState.step server) CleanEvent {} es := by
  have hstart : ServerState.Ok {} := ⟨nofun, nofun⟩
  have hok := foldl_invariant (fun s e => ok_step server s e) hstart es
  have hrun := foldl_iff_eachStep (fun s e => ok_step server s e)
    (fun s e => onTrack_step_iff server s e) hstart es
  rw [and_iff_right (show ServerState.OnTrack {} from nofun)] at hrun
  rw [← hrun]
  generalize es.foldl (ServerState.step server) {} = s at hreturned hok
  refine forall_congr' fun i => forall_congr' fun t => imp_congr_right fun ht => ?_
  have hphase := hreturned t (List.mem_of_getElem? ht)
  refine ⟨fun hanswered => ⟨?_, fun _ => hanswered, ?_⟩, fun hon => hon.answered hphase⟩
  · rcases hid : t.msg.id.isNull with _ | _
    · unfold AnsweredOnce at hanswered
      rw [if_neg (by rw [hid]; exact Bool.false_ne_true)] at hanswered
      obtain ⟨updates, response, hframes, hresponse, -⟩ := hanswered
      refine encodable_id hresponse ((hok.tasks i t ht).encodable _ ?_)
      rw [hframes]
      simp
    · generalize t.msg.id = id at hid
      rcases id with _ | _ | _ | _ | _ | _ | _ <;> first | rfl | cases hid
  · intro f hf
    rw [hphase] at hf
    cases hf

/-- A request. -/
def request (id : JsonValue) (method : String) (params : Fields) : Fields :=
  [(lit "jsonrpc", .str (lit "2.0")), (lit "id", id), (lit "method", .str (lit method)),
    (lit "params", .obj params)]

/-- Parameters are taken as they are. -/
def plainServer : Server where
  agentName := lit "oxenclaw"
  agentVersion := lit "0.0.1"
  protocolVersion := lit "0.19.0"
  initializeParams := fun _ => none
  newSessionParams := fun _ => .ok none
  promptParams
    | .obj fields =>
      match Dict.get? fields (lit "sessionId") with
      | some (.str sid) => .ok sid
      | _ => .error "sessionId"
    | _ => .error "type"
  repr := fun _ => "''"
  encodeError := fun _ => "surrogates not allowed"

def newSession : Fields :=
  request (.int 1) "session/new" []

def promptFirst : Fields :=
  request (.int 2) "session/prompt" [(lit "sessionId", .str (lit "oxenclaw-0002")),
    (lit "prompt", .arr [])]

/-- A prompt with an update. -/
def promptRun : List ServerEvent :=
  [.receive newSession, .task 0 .start, .task 0 (.ensured .returns), .task 0 .write,
    .receive promptFirst, .task 1 .start,
    .task 1 (.turned (.event (.textDelta (lit "hi") none none))), .task 1 .write,
    .task 1 (.turned .exhausted), .task 1 .write]

example : (framesOf 1 (promptRun.foldl (ServerState.step plainServer) {}).wire).map
    Frame.respondsTo = [none, some (.int 2)] := rfl

theorem answeredOnce_prompt :
    AnsweredOnce (.int 2) (framesOf 1 (promptRun.foldl (ServerState.step plainServer) {}).wire) :=
  (answeredOnce_iff plainServer promptRun (by
    have htasks : (promptRun.foldl (ServerState.step plainServer) {}).tasks =
        [⟨newSession, .finished⟩, ⟨promptFirst, .finished⟩] := rfl
    intro t ht
    rw [htasks] at ht
    rcases List.mem_cons.1 ht with rfl | ht
    · rfl
    · rw [List.mem_singleton.1 ht])).2 (by
    refine ⟨rfl, ?_, ?_, ?_, rfl, ?_, ?_, ?_, ?_, ?_, trivial⟩ <;> rintro t ⟨⟩ <;> trivial)
    1 ⟨promptFirst, .finished⟩ rfl

/-- The runtime of a `session/new` raises `CancelledError`. -/
def cancelledRun : List ServerEvent :=
  [.receive newSession, .task 0 .start, .task 0 (.ensured .cancelled)]

/-- The task ends and the request is not answered. -/
theorem cancelled_not_answeredOnce :
    (cancelledRun.foldl (ServerState.step plainServer) {}).Returned ∧
      ¬∀ i (t : Task), (cancelledRun.foldl (ServerState.step plainServer) {}).tasks[i]? = some t →
        AnsweredOnce t.msg.id
          (framesOf i (cancelledRun.foldl (ServerState.step plainServer) {}).wire) := by
  have htasks : (cancelledRun.foldl (ServerState.step plainServer) {}).tasks =
      [⟨newSession, .finished⟩] := rfl
  constructor
  · intro t ht
    rw [htasks] at ht
    rw [List.mem_singleton.1 ht]
  · intro h
    obtain ⟨updates, response, hframes, -⟩ := h 0 ⟨newSession, .finished⟩ rfl
    have hnone : framesOf 0 (cancelledRun.foldl (ServerState.step plainServer) {}).wire = [] := rfl
    rw [hnone] at hframes
    simp at hframes

end OxenClaw.Acp
