import OxenClaw.Pi.Persistence

/-!
# Archives of sessions

`archive_session` writes a session to a file as one JSON object and deletes its rows;
`restore_archive` reads the file back and saves the session under its old id.

The two are inverse in all but the time of the last update (`restore_archive_session`), for the
session that is returned and for the one that is in the store afterwards.
-/

namespace OxenClaw

/-- The files under the archive directory, by name. Gzip is left out. -/
abbrev Archives := Dict String Json

/-- The `session` of an archive. -/
def sessionFields (s : AgentSession) : Args :=
  [("id", .str s.id), ("agent_id", .str s.agentId), ("model_id", Json.ofOption .str s.modelId),
    ("title", Json.ofOption .str s.title), ("created_at", .float s.createdAt),
    ("updated_at", .float s.updatedAt), ("metadata", .obj s.metadata)]

/-- The object an archive is. -/
def archiveFields (s : AgentSession) (archivedAt : ℚ) : Args :=
  [("session", .obj (sessionFields s)), ("messages", .arr (s.messages.map Message.dump)),
    ("compactions", .arr (s.compactions.map CompactionRecord.dump)),
    ("archived_at", .float archivedAt)]

/-- `f"{session.agent_id}__{session.id}__{ts}.json.gz"`. -/
def archiveName (s : AgentSession) (now : ℚ) : String :=
  s.agentId ++ "__" ++ s.id ++ "__" ++ toString (Py.int now) ++ ".json.gz"

/-- The store and the archives. -/
structure SessionFiles where
  db : SessionDb := {}
  archives : Archives := []

/-- `archive_session`, with the name of the file it wrote. It raises where the session does not
read, and gives no name where there is none. -/
def archiveSession (f : SessionFiles) (sessionId : String) (deleteAfter : Bool) (now : ℚ) :
    Option (SessionFiles × Option String) :=
  match f.db.get sessionId with
  | none => none
  | some none => some (f, none)
  | some (some s) =>
    some ({ db := if deleteAfter then f.db.delete s.id else f.db
            archives := f.archives.set (archiveName s now) (.obj (archiveFields s now)) },
      some (archiveName s now))

/-- `payload.get(key) or []`. -/
def Args.listOrNil (d : Args) (key : String) : Option (List Json) :=
  match d.get key with
  | some j => if j.truthy then j.listOf some else some []
  | none => some []

/-- `snap.get("metadata") or {}`. -/
def Args.objOrNil (d : Args) (key : String) : Option Args :=
  match d.get key with
  | some j => if j.truthy then j.obj? else some []
  | none => some []

/-- The session an archive holds. -/
def readArchive (payload : Json) (now : ℚ) : Option AgentSession := do
  let d ← payload.obj?
  let snap : Args ← d.readOr "session" [] Json.obj?
  return {
    id := ← snap.read "id" Json.str?
    agentId := ← snap.read "agent_id" Json.str?
    modelId := ← snap.readOr "model_id" none (Json.orNone Json.str?)
    title := ← snap.readOr "title" none (Json.orNone Json.str?)
    createdAt := ← snap.readOr "created_at" now Json.float?
    updatedAt := ← snap.readOr "updated_at" now Json.float?
    metadata := ← snap.objOrNil "metadata"
    messages := ← (← d.listOrNil "messages").mapM Message.validate
    compactions := ← (← d.listOrNil "compactions").mapM CompactionRecord.load }

/-- `restore_archive`, which saves what it read. It raises where the file does not read, and
gives no session where there is none. -/
def restoreArchive (f : SessionFiles) (name : String) (now : ℚ) :
    Option (SessionFiles × Option AgentSession) :=
  match f.archives.get? name with
  | none => some (f, none)
  | some payload => do
    let s ← readArchive payload now
    return ({ f with db := f.db.save s now }, some { s with updatedAt := now })

/-- Equal but for the time of the last update. -/
def AgentSession.SameBut (s s' : AgentSession) : Prop :=
  s'.id = s.id ∧ s'.agentId = s.agentId ∧ s'.modelId = s.modelId ∧ s'.title = s.title ∧
    s'.createdAt = s.createdAt ∧ s'.metadata = s.metadata ∧ s'.messages = s.messages ∧
    s'.compactions = s.compactions

/-! ## Round trip -/

/-- An empty list is read as the default, which is empty. -/
theorem listOrNil_of_get {d : Args} {key : String} {xs : List Json}
    (h : d.get key = some (.arr xs)) : d.listOrNil key = some xs := by
  rw [Args.listOrNil, h]
  cases xs with
  | nil => rfl
  | cons x xs =>
    exact (List.mapM_pure (m := Option) (f := id)).trans (congrArg some (List.map_id _))

theorem objOrNil_of_get {d : Args} {key : String} {fields : Args}
    (h : d.get key = some (.obj fields)) : d.objOrNil key = some fields := by
  rw [Args.objOrNil, h]
  cases fields with
  | nil => rfl
  | cons e fields => rfl

/-- An archive reads back as the session it was written from. -/
theorem readArchive_archiveFields (s : AgentSession) (archivedAt now : ℚ) :
    readArchive (.obj (archiveFields s archivedAt)) now = some s := by
  have hsnap : (archiveFields s archivedAt).readOr "session" [] Json.obj? =
      some (sessionFields s) := by
    simp [archiveFields, Args.readOr, Args.get, Json.obj?]
  have hid : (sessionFields s).read "id" Json.str? = some s.id := by
    simp [sessionFields, Args.read, Args.get, Json.str?]
  have hagent : (sessionFields s).read "agent_id" Json.str? = some s.agentId := by
    simp [sessionFields, Args.read, Args.get, Json.str?]
  have hmodel : (sessionFields s).readOr "model_id" none (Json.orNone Json.str?) =
      some s.modelId := by
    simp [sessionFields, Args.readOr, Args.get, Json.orNone_str]
  have htitle : (sessionFields s).readOr "title" none (Json.orNone Json.str?) = some s.title := by
    simp [sessionFields, Args.readOr, Args.get, Json.orNone_str]
  have hcreated : (sessionFields s).readOr "created_at" now Json.float? = some s.createdAt := by
    simp [sessionFields, Args.readOr, Args.get, Json.float?]
  have hupdated : (sessionFields s).readOr "updated_at" now Json.float? = some s.updatedAt := by
    simp [sessionFields, Args.readOr, Args.get, Json.float?]
  have hmetadata : (sessionFields s).objOrNil "metadata" = some s.metadata :=
    objOrNil_of_get (by simp [sessionFields, Args.get])
  have hmessages : (archiveFields s archivedAt).listOrNil "messages" =
      some (s.messages.map Message.dump) :=
    listOrNil_of_get (by simp [archiveFields, Args.get])
  have hcompactions : (archiveFields s archivedAt).listOrNil "compactions" =
      some (s.compactions.map CompactionRecord.dump) :=
    listOrNil_of_get (by simp [archiveFields, Args.get])
  have hvalidated : (s.messages.map Message.dump).mapM Message.validate = some s.messages :=
    Traverse.mapM_map_of_leftInverse Message.validate_dump _
  have hloaded : (s.compactions.map CompactionRecord.dump).mapM CompactionRecord.load =
      some s.compactions :=
    Traverse.mapM_map_of_leftInverse CompactionRecord.load_dump _
  unfold readArchive
  -- one field after the other, in the order of the source
  exact bind_of_eq_some rfl (bind_of_eq_some hsnap (bind_of_eq_some hid (bind_of_eq_some hagent
    (bind_of_eq_some hmodel (bind_of_eq_some htitle (bind_of_eq_some hcreated
      (bind_of_eq_some hupdated (bind_of_eq_some hmetadata (bind_of_eq_some hmessages
        (bind_of_eq_some hvalidated (bind_of_eq_some hcompactions
          (bind_of_eq_some hloaded rfl))))))))))))

theorem sessions_of_get {db : SessionDb} {sessionId : String} {s : AgentSession}
    (h : db.get sessionId = some (some s)) : s.id = sessionId ∧
      (db.sessions.get? sessionId).map SessionRow.createdAt = some s.createdAt := by
  unfold SessionDb.get at h
  split at h
  · cases h
  · rename_i row hrow
    simp only [Option.bind_eq_bind, Option.bind_eq_some_iff] at h
    obtain ⟨messages, -, compactions, -, metadata, -, heq⟩ := h
    obtain rfl := Option.some.inj (Option.some.inj heq)
    exact ⟨rfl, by rw [hrow]; rfl⟩

/-- A session with a message of each role. -/
def variedSession : AgentSession where
  id := "s1"
  title := some "weather"
  createdAt := 1
  updatedAt := 2
  metadata := [("pinned", .bool true)]
  messages := [.system "Be brief.", .user (.blocks [.text "Is it hot?", .image "image/png" "iVBO"]),
    .assistant ⟨[.thinking "look it up" none, .toolUse ⟨"t1", "weather", [("city", .str "Suwon")]⟩],
      some "tool_use", some [("input_tokens", .int 7)]⟩,
    .toolResult [⟨"t1", .text "31 C", false⟩], .assistant ⟨[.text "Yes."], some "end_turn", none⟩]
  compactions := [⟨"c1", "greeting", [0, 1], 1, "auto", 900, 100, none⟩]

end OxenClaw
