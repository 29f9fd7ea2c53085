import OxenClaw.Lib.Runs
import OxenClaw.Pi.SessionManagers

/-!
# The session tools

The tools of `tools_pkg/session_tools.py` take either session manager, and append to a list of
which nothing checks what it has (`Element`). `sessions_yield` appends a plain `dict`. The
in-memory manager keeps it, `SQLiteSessionManager.save` raises at it. What a manager has to keep
for the other tools is its `Contract` : along a run every transcript is of messages and every call
succeeds exactly if no call of `sessions_yield` finds its session (`typed_and_succeeds_iff`).
-/

namespace OxenClaw.SessionTools

/-- What `messages: list[Any]` can have. -/
inductive Element where
  | message (m : Message)
  | dict (fields : Args)

/-- `AgentSession`, as the tools see it. -/
structure Session where
  id : String
  title : Option String
  agentId : String
  modelId : Option String
  messages : List Element
  compactions : List CompactionRecord
  createdAt : ℚ
  updatedAt : ℚ
  metadata : Args

namespace Session

def ofAgent (s : AgentSession) : Session where
  id := s.id
  title := s.title
  agentId := s.agentId
  modelId := s.modelId
  messages := s.messages.map .message
  compactions := s.compactions
  createdAt := s.createdAt
  updatedAt := s.updatedAt
  metadata := s.metadata

/-- The session with the messages that its list has. -/
def toAgent (s : Session) (messages : List Message) : AgentSession where
  id := s.id
  title := s.title
  agentId := s.agentId
  modelId := s.modelId
  messages := messages
  compactions := s.compactions
  createdAt := s.createdAt
  updatedAt := s.updatedAt
  metadata := s.metadata

def entry (s : Session) : SessionListing where
  id := s.id
  title := s.title
  agentId := s.agentId
  modelId := s.modelId
  messageCount := s.messages.length
  createdAt := s.createdAt
  updatedAt := s.updatedAt

def append (s : Session) (e : Element) : Session :=
  { s with messages := s.messages ++ [e] }

/-- Every element is of the `AgentMessage` union. -/
def Typed (s : Session) : Prop :=
  ∀ e ∈ s.messages, ∃ m, e = .message m

end Session

/-- What `_serialize_message` serialises : a `dict` has no `model_dump_json`. -/
def Element.message? : Element → Option Message
  | .message m => some m
  | .dict _ => none

/-! ## The managers -/

/-- The protocol of `pi/session.py`. Nothing is answered where an operation raises, and the store is
then as it was. -/
structure SessionManager (M : Type) where
  /-- With the id and the times that the new session draws. -/
  create : M → CreateAgentSessionOptions → String → ℚ → ℚ → Option (M × Session)
  get : M → String → Option (Option Session)
  list : M → Option String → List SessionListing
  save : M → Session → ℚ → Option M

/-- `InMemorySessionManager`. -/
def inMemory : SessionManager (Dict String Session) where
  create m opts id createdAt updatedAt :=
    let s := Session.ofAgent (opts.session id createdAt updatedAt)
    some (m.set id s, s)
  get m id := some (m.get? id)
  list m agentId := m.filterMap fun e =>
    if agentId.all (e.2.agentId = ·) then some e.2.entry else none
  save m s now := some (m.set s.id { s with updatedAt := now })

/-- `SQLiteSessionManager`. -/
def sqlite : SessionManager SessionDb where
  create db opts id createdAt updatedAt :=
    let s := opts.session id createdAt updatedAt
    (db.create s).map fun db' => (db', Session.ofAgent s)
  get db id := (db.get id).map fun s => s.map Session.ofAgent
  list db agentId := db.list agentId
  save db s now := (s.messages.mapM Element.message?).map fun ms => db.save (s.toAgent ms) now

/-! ## What the tools read -/

/-- `_resolve_session_id`. -/
def resolveSessionId (key : String) : String :=
  Py.stripString key

/-- `s[:n]`. -/
def cut (n : ℕ) (s : String) : String :=
  String.ofList (s.toList.take n)

/-- What `getattr(msg, "content", None)` is, with `getattr(block, "text", "")` of each block. -/
inductive Texts where
  | str (s : String)
  | blocks (texts : List String)
  | none

def userText : UserBlock → String
  | .text s => s
  | .image _ _ => ""

def assistantText : AssistantBlock → String
  | .text s => s
  | .toolUse _ => ""
  | .thinking _ _ => ""

namespace Element

def content : Element → Texts
  | .message (.system s) => .str s
  | .message (.user (.text s)) => .str s
  | .message (.user (.blocks bs)) => .blocks (bs.map userText)
  | .message (.assistant msg) => .blocks (msg.content.map assistantText)
  | .message (.toolResult _) => .none
  | .dict _ => .none

/-- `getattr(msg, "role", "unknown")`. -/
def role : Element → String
  | .message (.system _) => "system"
  | .message (.user _) => "user"
  | .message (.assistant _) => "assistant"
  | .message (.toolResult _) => "tool_result"
  | .dict _ => "unknown"

/-- The first text block of an assistant message. -/
def assistantText? : Element → Option String
  | .message (.assistant msg) => msg.content.findSome? fun
    | .text s => some s
    | _ => none
  | _ => none

/-- A row of `sessions_history`. -/
def preview (e : Element) : String :=
  match e.content with
  | .str s => cut 200 s
  | .blocks texts => cut 200 (" ".intercalate (texts.filter (· ≠ "")))
  | .none => ""

end Element

/-- `_last_assistant_preview`. -/
def lastAssistantPreview (s : Session) : Option String :=
  (s.messages.reverse.findSome? Element.assistantText?).map (cut 200)

/-- `_has_plan`. -/
def hasPlan (s : Session) : Bool :=
  s.messages.any fun e =>
    match e.content with
    | .str s => Py.contains "<plan>" s
    | .blocks texts => texts.any (Py.contains "<plan>")
    | .none => false

/-! ## The tools -/

/-- What a tool returns, nothing where it raises, and the session that it put into the store. -/
structure Outcome where
  answer : Option Json
  saved : Option Session := none

/-- What `sessions_spawn` is called with. -/
structure SpawnArgs where
  agentId : Option String := none
  parentSessionKey : String
  childSessionKey : String
  copyCompactions : Bool := true

/-- What `sessions_spawn` draws : the id of the child, and the times it reads. -/
structure Drawn where
  id : String
  metaCreatedAt : ℚ
  createdAt : ℚ
  updatedAt : ℚ
  now : ℚ

def error (message : String) : Outcome where
  answer := some (.obj [("error", .str message)])

section

variable {M : Type} (S : SessionManager M) (m : M)

/-- A tool that reads its session, and answers that there is none. -/
def withSession (key : String) (act : String → Session → M × Outcome) : M × Outcome :=
  let sid := resolveSessionId key
  match S.get m sid with
  | none => (m, { answer := none })
  | some none => (m, error ("session not found: " ++ sid))
  | some (some session) => act sid session

/-- A tool that appends to its session and saves it. -/
def appendAndSave (session : Session) (e : Element) (now : ℚ) (answer : Session → Json) :
    M × Outcome :=
  let session := session.append e
  match S.save m session now with
  | none => (m, { answer := none })
  | some m' => (m', { answer := some (answer session), saved := some session })

/-- `sessions_status`. -/
def sessionsStatus (key : String) : M × Outcome :=
  withSession S m key fun _ session => (m, {
    answer := some (.obj [("id", .str session.id), ("title", Json.ofOption .str session.title),
      ("agent_id", .str session.agentId), ("model_id", Json.ofOption .str session.modelId),
      ("message_count", .int session.messages.length), ("created_at", .float session.createdAt),
      ("updated_at", .float session.updatedAt), ("has_plan", .bool (hasPlan session)),
      ("last_assistant_preview", Json.ofOption .str (lastAssistantPreview session))]) })

/-- `sessions_list`. -/
def sessionsList (agentId : Option String) : M × Outcome :=
  (m, { answer := some (.arr ((S.list m agentId).map fun e =>
    .obj [("id", .str e.id), ("title", Json.ofOption .str e.title), ("agent_id", .str e.agentId),
      ("model_id", Json.ofOption .str e.modelId), ("message_count", .int e.messageCount),
      ("created_at", .float e.createdAt), ("updated_at", .float e.updatedAt)])) })

/-- `sessions_history`. -/
def sessionsHistory (key : String) (limit : ℕ) : M × Outcome :=
  withSession S m key fun sid session =>
    let rows := (Py.sliceFrom session.messages (-limit)).map fun e =>
      Json.obj [("role", .str e.role), ("preview", .str e.preview)]
    (m, { answer := some (.obj [("session_key", .str sid), ("messages", .arr rows),
      ("total", .int session.messages.length)]) })

/-- `sessions_send`. -/
def sessionsSend (key text : String) (now : ℚ) : M × Outcome :=
  withSession S m key fun sid session =>
    appendAndSave S m session (.message (.user (.text text))) now fun session =>
      .obj [("ok", .bool true), ("session_key", .str sid),
        ("message_count", .int session.messages.length),
        ("appended", .obj [("role", .str "user"), ("content", .str text)]),
        ("note", .str ("Message appended to history only. No agent run was started. " ++
          "Re-engage from the dashboard to continue the conversation."))]

/-- The options of the child of a session. -/
def childOptions (args : SpawnArgs) (parentSid : String) (parent : Session) (drawn : Drawn) :
    CreateAgentSessionOptions where
  agentId := (args.agentId.filter (· ≠ "")).getD parent.agentId
  modelId := parent.modelId
  title := some ("child of " ++ parentSid)
  metadata := some [("_meta", .obj [("kind", .str "spawn"), ("parent_session_key", .str parentSid),
    ("created_at", .float drawn.metaCreatedAt)])]

/-- `sessions_spawn`. -/
def sessionsSpawn (args : SpawnArgs) (drawn : Drawn) : M × Outcome :=
  let parentSid := resolveSessionId args.parentSessionKey
  let childSid := resolveSessionId args.childSessionKey
  let answer (child : Session) : Json := .obj [("ok", .bool true),
    ("child_session_key", .str child.id), ("parent_session_key", .str parentSid),
    ("agent_id", .str child.agentId)]
  match S.get m parentSid with
  | none => (m, { answer := none })
  | some none => (m, error ("parent session not found: " ++ parentSid))
  | some (some parent) =>
    match S.get m childSid with
    | none => (m, { answer := none })
    | some (some _) => (m, error ("child session already exists: " ++ childSid))
    | some none =>
      match S.create m (childOptions args parentSid parent drawn) drawn.id drawn.createdAt
          drawn.updatedAt with
      | none => (m, { answer := none })
      | some (m', child) =>
        if args.copyCompactions ∧ parent.compactions ≠ [] then
          let child := { child with compactions := parent.compactions }
          match S.save m' child drawn.now with
          | none => (m', { answer := none })
          | some m'' => (m'', { answer := some (answer child), saved := some child })
        else (m', { answer := some (answer child), saved := some child })

/-- What `sessions_yield` appends. -/
def marker (summary : String) : Args :=
  [("role", .str "assistant"), ("content", .str ("<yield>" ++ summary ++ "</yield>")),
    ("meta", .obj [("kind", .str "yield"), ("summary", .str summary)])]

/-- `sessions_yield`. -/
def sessionsYield (key summary : String) (now : ℚ) : M × Outcome :=
  withSession S m key fun sid session =>
    appendAndSave S m session (.dict (marker summary)) now fun _ =>
      .obj [("ok", .bool true), ("session_key", .str sid), ("summary", .str summary)]

end

inductive Call where
  | status (key : String)
  | list (agentId : Option String)
  | history (key : String) (limit : ℕ)
  | send (key text : String) (now : ℚ)
  | spawn (args : SpawnArgs) (drawn : Drawn)
  | yield (key summary : String) (now : ℚ)

namespace SessionManager

variable {M : Type} (S : SessionManager M)

def step (m : M) : Call → M × Outcome
  | .status key => sessionsStatus S m key
  | .list agentId => sessionsList S m agentId
  | .history key limit => sessionsHistory S m key limit
  | .send key text now => sessionsSend S m key text now
  | .spawn args drawn => sessionsSpawn S m args drawn
  | .yield key summary now => sessionsYield S m key summary now

/-- The store after a call. -/
def next (m : M) (c : Call) : M :=
  (S.step m c).1

/-- Every element of every transcript is a message. -/
def Typed (m : M) : Prop :=
  ∀ id s, S.get m id = some (some s) → s.Typed

/-- The store has a session with the transcript of this one. -/
def Stores (m : M) (s : Session) : Prop :=
  ∃ s', S.get m s.id = some (some s') ∧ s'.messages = s.messages

/-- A call returns, and what it saved is what `get` then has. -/
def Succeeds (m : M) (c : Call) : Prop :=
  (∃ j, (S.step m c).2.answer = some j) ∧
    ∀ s, (S.step m c).2.saved = some s → S.Stores (S.next m c) s

/-- A call of `sessions_yield` that finds its session. -/
def Yields (m : M) : Call → Prop
  | .yield key _ _ => ∃ s, S.get m (resolveSessionId key) = some (some s)
  | _ => False

end SessionManager

/-! ## What a manager keeps -/

/-- What the tools rely on. -/
structure Contract {M : Type} (S : SessionManager M) where
  /-- The stores that the manager gets to. -/
  Ok : M → Prop
  /-- The ids that a new session can draw. -/
  Free : M → String → Prop
  get : ∀ m id, Ok m → ∃ found, S.get m id = some found
  typed : ∀ m, Ok m → S.Typed m
  create : ∀ m opts id createdAt updatedAt, Ok m → Free m id →
    ∃ m' s, S.create m opts id createdAt updatedAt = some (m', s) ∧ s.messages = [] ∧ Ok m' ∧
      S.Stores m' s
  save : ∀ m s now, Ok m → s.Typed → ∃ m', S.save m s now = some m' ∧ Ok m' ∧ S.Stores m' s
  /-- What is not of messages is refused, or there to be found. -/
  save_untyped : ∀ m s now m', ¬s.Typed → S.save m s now = some m' → ¬S.Typed m'

theorem Session.typed_append {s : Session} {e : Element} :
    (s.append e).Typed ↔ s.Typed ∧ ∃ m, e = .message m := by
  simp only [Session.Typed, Session.append, List.mem_append, List.mem_singleton]
  constructor
  · exact fun h => ⟨fun d hd => h d (.inl hd), h e (.inr rfl)⟩
  · rintro ⟨hs, he⟩ d (hd | rfl)
    · exact hs d hd
    · exact he

namespace Contract

variable {M : Type} {S : SessionManager M} (C : Contract S) {m : M} {key : String}

/-- A call that keeps the store as it should be, and succeeds. -/
structure Fine (r : M × Outcome) : Prop where
  ok : C.Ok r.1
  answers : ∃ j, r.2.answer = some j
  stores : ∀ s, r.2.saved = some s → S.Stores r.1 s

variable {C}

/-- A tool that leaves the store. -/
theorem Fine.read (h : C.Ok m) (j : Json) : C.Fine (m, { answer := some j }) where
  ok := h
  answers := ⟨j, rfl⟩
  stores _ hs := absurd hs (by simp)

theorem fine_withSession (h : C.Ok m) {act : String → Session → M × Outcome}
    (hact : ∀ sid s, S.get m sid = some (some s) → C.Fine (act sid s)) :
    C.Fine (withSession S m key act) := by
  obtain ⟨found, hfound⟩ := C.get m (resolveSessionId key) h
  rw [withSession]
  rcases found with _ | session
  · simp only [hfound]
    exact .read h _
  · simp only [hfound]
    exact hact _ _ hfound

theorem fine_appendAndSave (h : C.Ok m) {session : Session} (hsession : session.Typed)
    (msg : Message) (now : ℚ) (answer : Session → Json) :
    C.Fine (appendAndSave S m session (.message msg) now answer) := by
  obtain ⟨m', hsave, hok, hstores⟩ :=
    C.save m (session.append (.message msg)) now h (Session.typed_append.2 ⟨hsession, msg, rfl⟩)
  rw [appendAndSave]
  simp only [hsave]
  exact ⟨hok, ⟨_, rfl⟩, fun s hs => Option.some.inj hs ▸ hstores⟩

theorem fine_sessionsSpawn (h : C.Ok m) (args : SpawnArgs) {drawn : Drawn}
    (hfree : C.Free m drawn.id) : C.Fine (sessionsSpawn S m args drawn) := by
  obtain ⟨parent, hparent⟩ := C.get m (resolveSessionId args.parentSessionKey) h
  obtain ⟨existing, hexisting⟩ := C.get m (resolveSessionId args.childSessionKey) h
  rw [sessionsSpawn]
  rcases parent with _ | parent
  · simp only [hparent]
    exact .read h _
  rcases existing with _ | existing
  · obtain ⟨m', child, hcreate, hmessages, hok, hstores⟩ := C.create m
      (childOptions args (resolveSessionId args.parentSessionKey) parent drawn) drawn.id
      drawn.createdAt drawn.updatedAt h hfree
    simp only [hparent, hexisting, hcreate]
    split_ifs with hcopy
    · have htyped : Session.Typed { child with compactions := parent.compactions } := by
        intro e he
        rw [show ({ child with compactions := parent.compactions } : Session).messages = [] from
          hmessages] at he
        cases he
      obtain ⟨m'', hsave, hok', hstores'⟩ := C.save m' _ drawn.now hok htyped
      simp only [hsave]
      exact ⟨hok', ⟨_, rfl⟩, fun s hs => Option.some.inj hs ▸ hstores'⟩
    · exact ⟨hok, ⟨_, rfl⟩, fun s hs => Option.some.inj hs ▸ hstores⟩
  · simp only [hparent, hexisting]
    exact .read h _

/-- The ids that a call draws. -/
def Draws (C : Contract S) (m : M) : Call → Prop
  | .spawn _ drawn => C.Free m drawn.id
  | _ => True

/-- A call other than a yield that finds its session. -/
theorem fine_step (h : C.Ok m) {c : Call} (hdraws : C.Draws m c) (hyield : ¬S.Yields m c) :
    C.Fine (S.step m c) := by
  rcases c with key | agentId | ⟨key, limit⟩ | ⟨key, text, now⟩ | ⟨args, drawn⟩ |
    ⟨key, summary, now⟩
  · rw [SessionManager.step, sessionsStatus]
    exact fine_withSession h fun _ _ _ => .read h _
  · exact .read h _
  · rw [SessionManager.step, sessionsHistory]
    exact fine_withSession h fun _ _ _ => .read h _
  · exact fine_withSession h fun _ s hs =>
      fine_appendAndSave h (C.typed m h _ s hs) (.user (.text text)) now _
  · exact fine_sessionsSpawn h args hdraws
  · obtain ⟨found, hfound⟩ := C.get m (resolveSessionId key) h
    rcases found with _ | session
    · rw [SessionManager.step, sessionsYield, withSession]
      simp only [hfound]
      exact .read h _
    · exact absurd ⟨session, hfound⟩ hyield

/-- A yield is refused by the store, or kept by it. -/
theorem not_typed_and_succeeds_of_yields (C : Contract S) {c : Call} (hyield : S.Yields m c) :
    ¬(S.Typed (S.next m c) ∧ S.Succeeds m c) := by
  rcases c with _ | _ | _ | _ | _ | ⟨key, summary, now⟩
  case yield =>
    obtain ⟨session, hfound⟩ := hyield
    rintro ⟨htyped, ⟨j, hanswer⟩, -⟩
    have hstep : S.step m (.yield key summary now) = appendAndSave S m session
        (.dict (marker summary)) now fun _ => .obj [("ok", .bool true),
          ("session_key", .str (resolveSessionId key)), ("summary", .str summary)] := by
      rw [SessionManager.step, sessionsYield, withSession]
      simp only [hfound]
    rw [SessionManager.next, hstep] at htyped
    rw [hstep] at hanswer
    have huntyped : ¬(session.append (.dict (marker summary))).Typed := by
      rw [Session.typed_append]
      rintro ⟨-, m, hm⟩
      cases hm
    rw [appendAndSave] at hanswer htyped
    rcases hsave : S.save m (session.append (.dict (marker summary))) now with _ | m'
    · simp [hsave] at hanswer
    · simp only [hsave] at htyped
      exact C.save_untyped m _ now m' huntyped hsave htyped
  all_goals exact absurd hyield id

/-- Along a run every transcript is of messages and every call succeeds exactly if no session
yields. -/
theorem typed_run_iff (C : Contract S) {m : M} (hm : C.Ok m) {calls : List Call}
    (hdraws : EachStep S.next C.Draws m calls) :
    ((∀ m' ∈ trail S.next m calls, S.Typed m') ∧ EachStep S.next S.Succeeds m calls) ↔
      EachStep S.next (fun m c => ¬S.Yields m c) m calls := by
  induction calls generalizing m with
  | nil =>
    refine iff_of_true ⟨fun m' h => ?_, trivial⟩ trivial
    rw [List.mem_singleton.1 h]
    exact C.typed m hm
  | cons c calls ih =>
    obtain ⟨hc, hrest⟩ := hdraws
    constructor
    · rintro ⟨htyped, hsucceeds, hothers⟩
      have hnext : ¬S.Yields m c := fun hyield => C.not_typed_and_succeeds_of_yields hyield
        ⟨htyped _ (List.mem_cons_of_mem _ (mem_trail_self _ _)), hsucceeds⟩
      have hfine := fine_step hm hc hnext
      exact ⟨hnext, (ih hfine.ok hrest).1
        ⟨fun m' h => htyped m' (List.mem_cons_of_mem _ h), hothers⟩⟩
    · rintro ⟨hnext, hothers⟩
      have hfine := fine_step hm hc hnext
      obtain ⟨htyped, hsucceeds⟩ := (ih hfine.ok hrest).2 hothers
      refine ⟨fun m' h => ?_, ⟨hfine.answers, hfine.stores⟩, hsucceeds⟩
      rcases List.mem_cons.1 h with rfl | h
      · exact C.typed m' hm
      · exact htyped m' h

end Contract

/-! ## The two managers -/

theorem typed_set {m : Dict String Session} (h : inMemory.Typed m) {s : Session} (hs : s.Typed)
    (id : String) : inMemory.Typed (m.set id s) := by
  intro id' s' hs'
  have hs' : (m.set id s).get? id' = some s' := Option.some.inj hs'
  rw [Dict.get?_set] at hs'
  split_ifs at hs' with hid
  · rwa [← Option.some.inj hs']
  · exact h id' s' (congrArg some hs')

/-- Each object is stored as it is. -/
def inMemoryContract : Contract inMemory where
  Ok := inMemory.Typed
  Free _ _ := True
  get m id _ := ⟨m.get? id, rfl⟩
  typed _ h := h
  create m opts id createdAt updatedAt h _ := by
    have hempty : (Session.ofAgent (opts.session id createdAt updatedAt)).Typed :=
      fun e he => absurd he List.not_mem_nil
    exact ⟨_, _, rfl, rfl, typed_set h hempty id, _, congrArg some (Dict.get?_set_self _ _ _), rfl⟩
  save m s now h hs := by
    have hsaved : Session.Typed { s with updatedAt := now } := hs
    exact ⟨_, rfl, typed_set h hsaved s.id, _, congrArg some (Dict.get?_set_self _ _ _), rfl⟩
  save_untyped m s now m' hs hsave htyped := by
    rw [← Option.some.inj hsave] at htyped
    exact hs (htyped s.id { s with updatedAt := now } (congrArg some (Dict.get?_set_self _ _ _)))

/-- Every stored session can be read, and the rows belong to sessions. -/
structure SqliteOk (db : SessionDb) : Prop where
  closed : db.Closed
  reads : ∀ id, ∃ found, db.get id = some found

theorem typed_ofAgent (s : AgentSession) : (Session.ofAgent s).Typed := by
  intro e he
  obtain ⟨m, -, rfl⟩ := List.mem_map.1 he
  exact ⟨m, rfl⟩

theorem message?_eq_some_iff {e : Element} {m : Message} :
    e.message? = some m ↔ e = .message m := by
  rcases e with m' | fields <;> simp [Element.message?]

/-- What is serialised is the messages of the list. -/
theorem mapM_message?_iff {es : List Element} {ms : List Message} :
    es.mapM Element.message? = some ms ↔ es = ms.map .message := by
  constructor
  · intro h
    induction es generalizing ms with
    | nil => rw [← Option.some.inj h]; rfl
    | cons e es ih =>
      simp only [List.mapM_cons, Option.bind_eq_bind, Option.bind_eq_some_iff, Option.pure_def,
        Option.some.injEq] at h
      obtain ⟨m, hm, ms', hms, rfl⟩ := h
      rw [message?_eq_some_iff.1 hm, ih hms, List.map_cons]
  · rintro rfl
    exact Traverse.mapM_map_of_leftInverse (g := Element.message) (fun _ => rfl) ms

theorem typed_iff {s : Session} :
    s.Typed ↔ ∃ ms, s.messages.mapM Element.message? = some ms := by
  rw [← Option.isSome_iff_exists, ← not_iff_not, Option.not_isSome_iff_eq_none,
    Traverse.mapM_eq_none_iff, Session.Typed]
  push Not
  refine exists_congr fun e => and_congr_right fun _ => ?_
  rcases e with m | fields <;> simp [Element.message?]

theorem get_sqlite {db : SessionDb} {id : String} {s : AgentSession}
    (h : db.get id = some (some s)) : sqlite.get db id = some (some (Session.ofAgent s)) :=
  congrArg (Option.map _) h

/-- A store of which each session but one is as it was can be read as it could. -/
theorem SqliteOk.of_get {db db' : SessionDb} (h : SqliteOk db) (hclosed : db'.Closed) {id : String}
    {s : AgentSession} (hget : db'.get id = some (some s))
    (hothers : ∀ id', id' ≠ id → db'.get id' = db.get id') : SqliteOk db' := by
  refine ⟨hclosed, fun id' => ?_⟩
  by_cases hid : id' = id
  · rw [hid, hget]
    exact ⟨_, rfl⟩
  · rw [hothers id' hid]
    exact h.reads id'

/-- A session is serialised message by message, and a `dict` is refused. -/
def sqliteContract : Contract sqlite where
  Ok := SqliteOk
  Free db id := id ∉ Dict.keys db.sessions
  get db id h := by
    obtain ⟨found, hfound⟩ := h.reads id
    exact ⟨found.map Session.ofAgent, congrArg (Option.map _) hfound⟩
  typed db h id s hs := by
    obtain ⟨found, hfound, heq⟩ := Option.map_eq_some_iff.1 hs
    obtain ⟨s', -, rfl⟩ := Option.map_eq_some_iff.1 heq
    exact typed_ofAgent s'
  create db opts id createdAt updatedAt h hfree := by
    obtain ⟨db', hdb'⟩ : ∃ db', db.create (opts.session id createdAt updatedAt) = some db' :=
      ⟨_, if_neg hfree⟩
    have hget := SessionDb.get_create h.closed hdb' rfl rfl
    refine ⟨db', _, congrArg (Option.map _) hdb', rfl, ?_, _, get_sqlite hget, rfl⟩
    exact h.of_get (h.closed.create hdb') hget fun id' hid =>
      SessionDb.get_create_of_ne hdb' hid
  save db s now h hs := by
    obtain ⟨ms, hms⟩ := typed_iff.1 hs
    have hget := SessionDb.get_save db (s.toAgent ms) now
    refine ⟨_, congrArg (Option.map _) hms, ?_, _, get_sqlite hget, ?_⟩
    · exact h.of_get (h.closed.save _ now) hget fun id' hid =>
        SessionDb.get_save_of_ne db _ now hid
    · exact (mapM_message?_iff.1 hms).symm
  save_untyped db s now db' hs hsave := by
    obtain ⟨ms, hms, -⟩ := Option.map_eq_some_iff.1 hsave
    exact absurd (typed_iff.2 ⟨ms, hms⟩) hs

/-- Every transcript stays one of messages and every call succeeds exactly if no call of
`sessions_yield` finds its session. The ids that `SQLiteSessionManager.create` draws are new. -/
theorem typed_and_succeeds_iff {memory : Dict String Session} (hmemory : inMemory.Typed memory)
    {db : SessionDb} (hdb : SqliteOk db) {calls : List Call}
    (hids : EachStep sqlite.next sqliteContract.Draws db calls) :
    (((∀ m ∈ trail inMemory.next memory calls, inMemory.Typed m) ∧
        EachStep inMemory.next inMemory.Succeeds memory calls) ↔
      EachStep inMemory.next (fun m c => ¬inMemory.Yields m c) memory calls) ∧
    (((∀ db' ∈ trail sqlite.next db calls, sqlite.Typed db') ∧
        EachStep sqlite.next sqlite.Succeeds db calls) ↔
      EachStep sqlite.next (fun db' c => ¬sqlite.Yields db' c) db calls) := by
  refine ⟨inMemoryContract.typed_run_iff hmemory (.of_forall (fun m c => ?_) memory calls),
    sqliteContract.typed_run_iff hdb hids⟩
  rcases c <;> trivial

/-! ## A run -/

/-- A stored session with one message. -/
def greeted : AgentSession where
  id := "s"
  messages := [.user (.text "hi")]
  createdAt := 0
  updatedAt := 0

def greetedMemory : Dict String Session :=
  [("s", Session.ofAgent greeted)]

def greetedDb : SessionDb :=
  ({} : SessionDb).save greeted 0

theorem typed_greetedMemory : inMemory.Typed greetedMemory := by
  intro id s hs
  have hs : greetedMemory.get? id = some s := Option.some.inj hs
  rw [greetedMemory, Dict.get?_cons] at hs
  split_ifs at hs with hid
  · rw [← Option.some.inj hs]
    intro e he
    exact ⟨_, List.mem_singleton.1 he⟩
  · cases hs

theorem sqliteOk_greetedDb : SqliteOk greetedDb := by
  have hempty : SqliteOk {} :=
    ⟨⟨fun m hm => absurd hm List.not_mem_nil, fun c hc => absurd hc List.not_mem_nil⟩,
      fun id => ⟨none, rfl⟩⟩
  exact hempty.of_get (hempty.closed.save greeted 0) (SessionDb.get_save {} greeted 0)
    fun id hid => SessionDb.get_save_of_ne {} greeted 0 hid

/-- Read, send, spawn, and a yield that finds nothing. -/
def quietCalls : List Call :=
  [.status "s", .send " s" "more" 1, .history "s" 20,
    .spawn { parentSessionKey := "s", childSessionKey := "c" } ⟨"d", 2, 2, 2, 2⟩,
    .yield "c" "done" 3]

theorem typed_and_succeeds_quietCalls :
    (((∀ m ∈ trail inMemory.next greetedMemory quietCalls, inMemory.Typed m) ∧
        EachStep inMemory.next inMemory.Succeeds greetedMemory quietCalls) ↔
      EachStep inMemory.next (fun m c => ¬inMemory.Yields m c) greetedMemory quietCalls) ∧
    (((∀ db ∈ trail sqlite.next greetedDb quietCalls, sqlite.Typed db) ∧
        EachStep sqlite.next sqlite.Succeeds greetedDb quietCalls) ↔
      EachStep sqlite.next (fun db c => ¬sqlite.Yields db c) greetedDb quietCalls) := by
  have hdrawn : "d" ∉ Dict.keys (sqlite.next (sqlite.next (sqlite.next greetedDb
      (.status "s")) (.send " s" "more" 1)) (.history "s" 20)).sessions := by
    decide +kernel
  exact typed_and_succeeds_iff typed_greetedMemory sqliteOk_greetedDb
    ⟨trivial, trivial, trivial, hdrawn, trivial, trivial⟩

/-- A yield leaves a `dict` in the memory, and raises on disk. -/
theorem yield_untyped_and_raises :
    ¬(∀ m ∈ trail inMemory.next greetedMemory [.yield "s" "done" 1], inMemory.Typed m) ∧
    ¬EachStep sqlite.next sqlite.Succeeds greetedDb [.yield "s" "done" 1] := by
  constructor
  · intro h
    have htyped := h (inMemory.next greetedMemory (.yield "s" "done" 1)) (by simp [trail])
    obtain ⟨m, hm⟩ := htyped "s" _ rfl (.dict (marker "done"))
      (List.mem_cons_of_mem _ List.mem_cons_self)
    cases hm
  · rintro ⟨⟨⟨j, hj⟩, -⟩, -⟩
    have hraises : (sqlite.step greetedDb (.yield "s" "done" 1)).2.answer = none := rfl
    rw [hraises] at hj
    cases hj

end OxenClaw.SessionTools
