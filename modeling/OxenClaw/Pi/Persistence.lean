import Mathlib.Data.List.Sort
import OxenClaw.Lib.Dict
import OxenClaw.Lib.Python
import OxenClaw.Lib.Traverse
import OxenClaw.Pi.Messages

/-!
# Sessions on disk

The JSON a message is dumped to (`model_dump`) and what the validators read back from it, along
the fields that each class declares; the session, message and compaction rows of the SQLite
store. JSON text is the value it stands for.

What is dumped validates to itself (`Message.validate_dump`), and `get` gives back what was
saved (`SessionDb.get_save`).
-/

namespace OxenClaw

/-! ## Reading JSON values -/

namespace Json

def str? : Json → Option String
  | .str s => some s
  | _ => none

def bool? : Json → Option Bool
  | .bool b => some b
  | _ => none

/-- `list[T]`. -/
def listOf {α : Type} (read : Json → Option α) : Json → Option (List α)
  | .arr xs => xs.mapM read
  | _ => none

def obj? : Json → Option Args
  | .obj fields => some fields
  | _ => none

/-- `int(x)` of a number. -/
def int? : Json → Option ℤ
  | .bool b => some b.toNat
  | .int n => some n
  | .float x => some (Py.int x)
  | _ => none

/-- `float(x)` of a number. -/
def float? : Json → Option ℚ
  | .bool b => some b.toNat
  | .int n => some n
  | .float x => some x
  | _ => none

/-- `T | None`. -/
def orNone {α : Type} (read : Json → Option α) : Json → Option (Option α)
  | .null => some none
  | j => (read j).map some

/-- What a value that may be `None` is dumped to. -/
def ofOption {α : Type} (dump : α → Json) : Option α → Json
  | none => .null
  | some x => dump x

end Json

/-- `extra="forbid"`. -/
def Args.onlyKeys (d : Args) (declared : List String) : Option Unit :=
  if d.all fun e => e.1 ∈ declared then some () else none

/-- A field with a single literal value, its default. -/
def Args.literal (d : Args) (key value : String) : Option Unit :=
  match d.get key with
  | none => some ()
  | some j => if j.str? = some value then some () else none

/-- A required field. -/
def Args.read {α : Type} (d : Args) (key : String) (value : Json → Option α) : Option α :=
  (d.get key).bind value

/-- A field with a default. -/
def Args.readOr {α : Type} (d : Args) (key : String) (default : α) (value : Json → Option α) :
    Option α :=
  ((d.get key).map value).getD (some default)

/-! ## Content blocks -/

namespace UserBlock

def dump : UserBlock → Json
  | .text s => .obj [("type", .str "text"), ("text", .str s)]
  | .image mediaType data =>
    .obj [("type", .str "image"), ("media_type", .str mediaType), ("data", .str data)]

/-- `TextContent`. -/
def validateText (d : Args) : Option UserBlock := do
  d.onlyKeys ["type", "text"]
  d.literal "type" "text"
  return .text (← d.read "text" Json.str?)

/-- `ImageContent`. -/
def validateImage (d : Args) : Option UserBlock := do
  d.onlyKeys ["type", "media_type", "data"]
  d.literal "type" "image"
  return .image (← d.read "media_type" Json.str?) (← d.read "data" Json.str?)

/-- `UserContentBlock`, told apart by `type`. -/
def validate (j : Json) : Option UserBlock := do
  let d ← j.obj?
  match d.read "type" Json.str? with
  | some "text" => validateText d
  | some "image" => validateImage d
  | _ => none

/-- `TextContent | ImageContent`, whichever fits. -/
def validateEither (j : Json) : Option UserBlock := do
  let d ← j.obj?
  validateText d <|> validateImage d

end UserBlock

namespace ToolUseBlock

def dump (b : ToolUseBlock) : Json :=
  .obj [("type", .str "tool_use"), ("id", .str b.id), ("name", .str b.name),
    ("input", .obj b.input)]

def validate (d : Args) : Option ToolUseBlock := do
  d.onlyKeys ["type", "id", "name", "input"]
  d.literal "type" "tool_use"
  return {
    id := ← d.read "id" Json.str?
    name := ← d.read "name" Json.str?
    input := ← d.readOr "input" [] Json.obj? }

end ToolUseBlock

namespace AssistantBlock

def dump : AssistantBlock → Json
  | .text s => (UserBlock.text s).dump
  | .toolUse b => b.dump
  | .thinking s signature =>
    .obj [("type", .str "thinking"), ("thinking", .str s),
      ("signature", Json.ofOption .str signature)]

/-- `TextContent`. -/
def validateText (d : Args) : Option AssistantBlock := do
  d.onlyKeys ["type", "text"]
  d.literal "type" "text"
  return .text (← d.read "text" Json.str?)

/-- `ThinkingBlock`. -/
def validateThinking (d : Args) : Option AssistantBlock := do
  d.onlyKeys ["type", "thinking", "signature"]
  d.literal "type" "thinking"
  return .thinking (← d.read "thinking" Json.str?)
    (← d.readOr "signature" none (Json.orNone Json.str?))

/-- `AssistantContentBlock`, told apart by `type`. -/
def validate (j : Json) : Option AssistantBlock := do
  let d ← j.obj?
  match d.read "type" Json.str? with
  | some "text" => validateText d
  | some "tool_use" => return .toolUse (← ToolUseBlock.validate d)
  | some "thinking" => validateThinking d
  | _ => none

end AssistantBlock

namespace Content

def dump : Content → Json
  | .text s => .str s
  | .blocks bs => .arr (bs.map UserBlock.dump)

/-- `str | list[block]`. -/
def validate (block : Json → Option UserBlock) : Json → Option Content
  | .str s => some (.text s)
  | .arr xs => (xs.mapM block).map .blocks
  | _ => none

end Content

namespace ToolResultBlock

def dump (b : ToolResultBlock) : Json :=
  .obj [("type", .str "tool_result"), ("tool_use_id", .str b.toolUseId),
    ("content", b.content.dump), ("is_error", .bool b.isError)]

def validate (j : Json) : Option ToolResultBlock := do
  let d ← j.obj?
  d.onlyKeys ["type", "tool_use_id", "content", "is_error"]
  d.literal "type" "tool_result"
  return {
    toolUseId := ← d.read "tool_use_id" Json.str?
    content := ← d.read "content" (Content.validate UserBlock.validateEither)
    isError := ← d.readOr "is_error" false Json.bool? }

end ToolResultBlock

/-! ## Messages -/

namespace AssistantMessage

def dump (msg : AssistantMessage) : Json :=
  .obj [("role", .str "assistant"), ("content", .arr (msg.content.map AssistantBlock.dump)),
    ("stop_reason", Json.ofOption .str msg.stopReason),
    ("usage", Json.ofOption .obj msg.usage)]

def validate (d : Args) : Option AssistantMessage := do
  d.onlyKeys ["role", "content", "stop_reason", "usage"]
  return {
    content := ← d.read "content" (Json.listOf AssistantBlock.validate)
    stopReason := ← d.readOr "stop_reason" none (Json.orNone Json.str?)
    usage := ← d.readOr "usage" none (Json.orNone Json.obj?) }

end AssistantMessage

namespace Message

/-- `msg.model_dump()`. -/
def dump : Message → Json
  | .system content => .obj [("role", .str "system"), ("content", .str content)]
  | .user content => .obj [("role", .str "user"), ("content", content.dump)]
  | .assistant msg => msg.dump
  | .toolResult results =>
    .obj [("role", .str "tool_result"), ("results", .arr (results.map ToolResultBlock.dump))]

/-- `TypeAdapter(AgentMessage).validate_python(j)`, told apart by `role`. -/
def validate (j : Json) : Option Message := do
  let d ← j.obj?
  match d.read "role" Json.str? with
  | some "system" =>
    d.onlyKeys ["role", "content"]
    return .system (← d.read "content" Json.str?)
  | some "user" =>
    d.onlyKeys ["role", "content"]
    return .user (← d.read "content" (Content.validate UserBlock.validate))
  | some "assistant" => return .assistant (← AssistantMessage.validate d)
  | some "tool_result" =>
    d.onlyKeys ["role", "results"]
    return .toolResult (← d.read "results" (Json.listOf ToolResultBlock.validate))
  | _ => none

end Message

/-! ## What is dumped validates to itself -/

/-- A reader of an object reads one field after the other. -/
theorem bind_of_eq_some {α β : Type} {x : Option α} {a : α} {f : α → Option β} {r : Option β}
    (hx : x = some a) (hf : f a = r) : x >>= f = r := by
  rw [hx]
  exact hf

theorem Json.orNone_str (x : Option String) : (Json.ofOption .str x).orNone Json.str? = some x := by
  cases x <;> rfl

theorem Json.orNone_obj (x : Option Args) : (Json.ofOption .obj x).orNone Json.obj? = some x := by
  cases x <;> rfl

section

attribute [local simp] Args.get Args.read Args.readOr Args.onlyKeys Args.literal Json.str?
  Json.bool? Json.obj? Json.listOf

theorem UserBlock.validate_dump (b : UserBlock) : validate b.dump = some b := by
  cases b with
  | text s => simp [dump, validate, validateText]
  | image mediaType data => simp [dump, validate, validateImage]

theorem UserBlock.validateEither_dump (b : UserBlock) : validateEither b.dump = some b := by
  cases b with
  | text s => simp [dump, validateEither, validateText]
  | image mediaType data => simp [dump, validateEither, validateText, validateImage]

theorem AssistantBlock.validate_dump (b : AssistantBlock) : validate b.dump = some b := by
  cases b with
  | text s => simp [dump, UserBlock.dump, validate, validateText]
  | toolUse b => simp [dump, ToolUseBlock.dump, validate, ToolUseBlock.validate]
  | thinking s signature => simp [dump, validate, validateThinking, Json.orNone_str]

theorem Content.validate_dump {block : Json → Option UserBlock}
    (h : ∀ b : UserBlock, block b.dump = some b) (c : Content) :
    validate block c.dump = some c := by
  cases c with
  | text s => rfl
  | blocks bs => simp [dump, validate, Traverse.mapM_map_of_leftInverse h]

theorem ToolResultBlock.validate_dump (b : ToolResultBlock) : validate b.dump = some b := by
  simp [dump, validate, Content.validate_dump UserBlock.validateEither_dump]

/-- What a message is dumped to validates to it, whatever its role and blocks. -/
theorem Message.validate_dump (m : Message) : validate m.dump = some m := by
  cases m with
  | system content => simp [dump, validate]
  | user content => simp [dump, validate, Content.validate_dump UserBlock.validate_dump]
  | assistant msg =>
    simp [dump, AssistantMessage.dump, validate, AssistantMessage.validate, Json.orNone_str,
      Json.orNone_obj, Traverse.mapM_map_of_leftInverse AssistantBlock.validate_dump]
  | toolResult results =>
    simp [dump, validate, Traverse.mapM_map_of_leftInverse ToolResultBlock.validate_dump]

end

/-! ## Sessions -/

/-- `CompactionEntry`, with all its fields. -/
structure CompactionRecord where
  id : String
  summary : String
  replacedMessageIndexes : List ℤ
  createdAt : ℚ
  reason : String
  tokensBefore : ℤ
  tokensAfter : ℤ
  originalArchivePath : Option String := none

structure AgentSession where
  id : String
  title : Option String := none
  agentId : String := "default"
  modelId : Option String := none
  messages : List Message := []
  compactions : List CompactionRecord := []
  createdAt : ℚ
  updatedAt : ℚ
  metadata : Args := []

namespace CompactionRecord

/-- `_serialize_compaction`, and the entry of an archive. -/
def dump (e : CompactionRecord) : Json :=
  .obj [("id", .str e.id), ("summary", .str e.summary),
    ("replaced_message_indexes", .arr (e.replacedMessageIndexes.map .int)),
    ("created_at", .float e.createdAt), ("reason", .str e.reason),
    ("tokens_before", .int e.tokensBefore), ("tokens_after", .int e.tokensAfter),
    ("original_archive_path", Json.ofOption .str e.originalArchivePath)]

/-- `_deserialize_compaction`, and how an archive is read. -/
def load (j : Json) : Option CompactionRecord := do
  let d ← j.obj?
  return {
    id := ← d.read "id" Json.str?
    summary := ← d.read "summary" Json.str?
    replacedMessageIndexes := ← d.read "replaced_message_indexes" (Json.listOf Json.int?)
    createdAt := ← d.read "created_at" Json.float?
    reason := ← d.read "reason" Json.str?
    tokensBefore := ← d.read "tokens_before" Json.int?
    tokensAfter := ← d.read "tokens_after" Json.int?
    originalArchivePath := ← d.readOr "original_archive_path" none (Json.orNone Json.str?) }

theorem load_dump (e : CompactionRecord) : load e.dump = some e := by
  have hindexes : (e.replacedMessageIndexes.map Json.int).mapM Json.int? =
      some e.replacedMessageIndexes := by
    have hint : ∀ n, Json.int? (.int n) = some n := fun _ => rfl
    exact Traverse.mapM_map_of_leftInverse hint _
  simp [dump, load, Args.read, Args.readOr, Args.get, Json.obj?, Json.str?, Json.listOf,
    Json.orNone_str, hindexes]
  simp [Json.int?, Json.float?]

end CompactionRecord

/-! ## The store -/

/-- A row of `sessions`, under its id. -/
structure SessionRow where
  agentId : String
  modelId : Option String
  title : Option String
  createdAt : ℚ
  updatedAt : ℚ
  metadataJson : Json

/-- A row of `messages` or of `compactions`. -/
structure PayloadRow where
  sessionId : String
  idx : ℕ
  payload : Json

structure SessionDb where
  sessions : Dict String SessionRow := []
  messages : List PayloadRow := []
  compactions : List PayloadRow := []

namespace SessionDb

/-- `SELECT .. WHERE session_id = ? ORDER BY idx`. -/
def select (rows : List PayloadRow) (sessionId : String) : List Json :=
  ((rows.filter fun r => r.sessionId = sessionId).insertionSort fun r r' => r.idx ≤ r'.idx).map
    PayloadRow.payload

/-- `DELETE .. WHERE session_id = ?`, then one row for each payload. -/
def replace (rows : List PayloadRow) (sessionId : String) (payloads : List Json) :
    List PayloadRow :=
  rows.filter (fun r => r.sessionId ≠ sessionId) ++
    payloads.zipIdx.map fun p => ⟨sessionId, p.2, p.1⟩

/-- `SQLiteSessionManager.get`. It raises where a payload does not read. -/
def get (db : SessionDb) (sessionId : String) : Option (Option AgentSession) :=
  match db.sessions.get? sessionId with
  | none => some none
  | some row => do
    let messages ← (select db.messages sessionId).mapM Message.validate
    let compactions ← (select db.compactions sessionId).mapM CompactionRecord.load
    let metadata ← row.metadataJson.obj?
    return some {
      id := sessionId, title := row.title, agentId := row.agentId, modelId := row.modelId
      messages, compactions, createdAt := row.createdAt, updatedAt := row.updatedAt, metadata }

/-- `SQLiteSessionManager.save`, which leaves the creation time of a row that exists. -/
def save (db : SessionDb) (s : AgentSession) (now : ℚ) : SessionDb where
  sessions := db.sessions.set s.id {
    agentId := s.agentId, modelId := s.modelId, title := s.title
    createdAt := ((db.sessions.get? s.id).map SessionRow.createdAt).getD s.createdAt
    updatedAt := now, metadataJson := .obj s.metadata }
  messages := replace db.messages s.id (s.messages.map Message.dump)
  compactions := replace db.compactions s.id (s.compactions.map CompactionRecord.dump)

/-- `SQLiteSessionManager.delete`, which takes the messages and compactions along. -/
def delete (db : SessionDb) (sessionId : String) : SessionDb where
  sessions := db.sessions.erase sessionId
  messages := db.messages.filter fun r => r.sessionId ≠ sessionId
  compactions := db.compactions.filter fun r => r.sessionId ≠ sessionId

/-- The payloads that were put, in order. -/
theorem select_replace (rows : List PayloadRow) (sessionId : String) (payloads : List Json) :
    select (replace rows sessionId payloads) sessionId = payloads := by
  have hold : (rows.filter fun r => r.sessionId ≠ sessionId).filter
      (fun r => r.sessionId = sessionId) = [] :=
    List.filter_eq_nil_iff.2 fun r hr => by simpa using (List.mem_filter.1 hr).2
  have hnew : (payloads.zipIdx.map fun p => (⟨sessionId, p.2, p.1⟩ : PayloadRow)).filter
      (fun r => r.sessionId = sessionId) = payloads.zipIdx.map fun p => ⟨sessionId, p.2, p.1⟩ :=
    List.filter_eq_self.2 fun r hr => by
      obtain ⟨p, -, rfl⟩ := List.mem_map.1 hr
      exact decide_eq_true rfl
  have hsorted : (payloads.zipIdx.map fun p => (⟨sessionId, p.2, p.1⟩ : PayloadRow)).Pairwise
      fun r r' => r.idx ≤ r'.idx := by
    have hrange := List.pairwise_le_range' (s := 0) (n := payloads.length) 1
    rw [← List.zipIdx_map_snd, List.pairwise_map] at hrange
    exact List.pairwise_map.2 hrange
  rw [select, replace, List.filter_append, hold, hnew, List.nil_append, hsorted.insertionSort_eq,
    List.map_map]
  exact List.zipIdx_map_fst 0 payloads

theorem id_of_get {db : SessionDb} {sessionId : String} {s : AgentSession}
    (h : db.get sessionId = some (some s)) : s.id = sessionId := by
  rw [get] at h
  cases hrow : db.sessions.get? sessionId with
  | none => simp [hrow] at h
  | some row =>
    simp only [hrow, Option.bind_eq_bind, Option.bind_eq_some_iff, Option.some.injEq,
      Option.pure_def] at h
    obtain ⟨messages, -, compactions, -, metadata, -, rfl⟩ := h
    rfl

/-- What was saved is what `get` gives, created when a row of its id was. -/
theorem get_save (db : SessionDb) (s : AgentSession) (now : ℚ) :
    (db.save s now).get s.id = some (some { s with
      createdAt := ((db.sessions.get? s.id).map SessionRow.createdAt).getD s.createdAt
      updatedAt := now }) := by
  simp [get, save, select_replace, Traverse.mapM_map_of_leftInverse Message.validate_dump,
    Traverse.mapM_map_of_leftInverse CompactionRecord.load_dump, Json.obj?]

end SessionDb

end OxenClaw
