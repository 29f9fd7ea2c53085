import OxenClaw.Memory.Chunker
import OxenClaw.Memory.Current
import OxenClaw.Pi.Lifecycle
import OxenClaw.Pi.SessionManagers

/-!
# Archived sessions in the memory store

`SessionMemoryHook` is told by the bus of a session that `archive_session` has archived, reads the
session back from its manager and stores the chunks of its transcript. `archive_session` has
deleted the session before where `delete_after` is set, as it is by default, and then the hook finds
none, and stores nothing (`archived_holds_iff`).
-/

namespace OxenClaw.SessionMemory

open Memory

/-! ## The transcript -/

/-- `str(x)` of what the transcript shows of other values. -/
structure PyStr where
  /-- Of the input of a tool. -/
  dict : Args → String
  /-- Of an image. -/
  image : (mediaType data : String) → String
  /-- Of the content of a tool result. -/
  list : List UserBlock → String

section

variable (str : PyStr)

/-- `_render_block`, of a block of a user. -/
def renderUserBlock : UserBlock → String
  | .text text => text
  | .image mediaType data => str.image mediaType data

/-- `_render_block`, of a block of the assistant. -/
def renderBlock : AssistantBlock → String
  | .text text => text
  | .toolUse b => "[tool_use " ++ b.name ++ "(" ++ str.dict b.input ++ ")]"
  | .thinking thinking _ => "[thinking]\n" ++ thinking ++ "\n[/thinking]"

/-- `_render_block`, of a tool result. -/
def renderResult (r : ToolResultBlock) : String :=
  let body := match r.content with
    | .text text => text
    | .blocks blocks => str.list blocks
  "[tool_result" ++ (if r.isError then " (error)" else "") ++ " for " ++ r.toolUseId ++ "]\n" ++ body

/-- The lines of a message, in turn `turnIdx`. -/
def renderMessage (turnIdx : ℕ) : Message → List String
  | .system content => ["## system", content, ""]
  | .user (.text content) => ["## turn " ++ toString turnIdx ++ " — user", content, ""]
  | .user (.blocks blocks) =>
    ["## turn " ++ toString turnIdx ++ " — user"] ++ blocks.map (renderUserBlock str) ++ [""]
  | .assistant msg =>
    ["## turn " ++ toString turnIdx ++ " — assistant"] ++ msg.content.map (renderBlock str) ++ [""]
  | .toolResult results =>
    ["## turn " ++ toString turnIdx ++ " — tool_results"] ++ results.map (renderResult str) ++ [""]

/-- The lines of the messages, after `turnIdx` turns. -/
def renderMessages (turnIdx : ℕ) : List Message → List String
  | [] => []
  | .user content :: msgs =>
    renderMessage str (turnIdx + 1) (.user content) ++ renderMessages (turnIdx + 1) msgs
  | msg :: msgs => renderMessage str turnIdx msg ++ renderMessages turnIdx msgs

/-- `session.title or session.id[:8]`. -/
def titleOf (s : AgentSession) : String :=
  match s.title with
  | some title => if title = "" then String.ofList (s.id.toList.take 8) else title
  | none => String.ofList (s.id.toList.take 8)

/-- `session.model_id or '(unset)'`. -/
def modelOf (s : AgentSession) : String :=
  match s.modelId with
  | some modelId => if modelId = "" then "(unset)" else modelId
  | none => "(unset)"

/-- `render_transcript`. -/
def renderTranscript (s : AgentSession) : List Char :=
  let lines := ["# Session " ++ s.id ++ " — " ++ titleOf s,
    "Agent: " ++ s.agentId ++ "  Model: " ++ modelOf s, ""] ++ renderMessages str 0 s.messages
  Py.rstrip ("\n".intercalate lines).toList ++ ['\n']

end

/-- `session_memory_path`. -/
def sessionMemoryPath (s : AgentSession) : String :=
  "sessions/" ++ s.agentId ++ "/" ++ s.id ++ ".md"

/-! ## The hook -/

structure SessionMemoryHook where
  minMessages : ℤ := 4
  minChars : ℤ := 200
  maxChars : ℕ := 2000
  /-- The model of the embeddings. -/
  model : String
  onArchived : Bool := true
  onReset : Bool := false

/-- What the world does while a session is indexed : what the embedding gives, the ids of new
chunks, and where the store's operations are made to raise. -/
structure IndexIO where
  /-- The cache's write, if it makes one. -/
  cacheWrite : Option (Option ℕ) := none
  /-- The vector of each text, where the embedding does not raise. -/
  vectors : Option (ℕ → List ℚ)
  upsertFault : Option ℕ := none
  replaceFault : Option ℕ := none
  ids : ℕ → String
  now : ℚ := 0

section

variable (str : PyStr) (sha256Text : String → String) (h : SessionMemoryHook)

/-- The chunks of the transcript, by `chunk_markdown`. -/
def transcriptChunks (s : AgentSession) : List Piece :=
  (chunkMarkdown (renderTranscript str s) h.maxChars 200).map fun c =>
    (c.start, c.stop, String.ofList c.text)

/-- The row of `upsert_file`. -/
def sessionRow (s : AgentSession) (now : ℚ) : FileRow :=
  let text := String.ofList (renderTranscript str s)
  ⟨"sessions", sha256Text text, now, text.utf8ByteSize⟩

/-- The rows of `replace_chunks_for_file`, a chunk with its vector each. -/
def sessionChunks (s : AgentSession) (vectors : ℕ → List ℚ) (ids : ℕ → String) : List NewChunk :=
  (transcriptChunks str h s).zipIdx.map fun e =>
    { id := ids e.2, startLine := e.1.1, endLine := e.1.2.1, text := e.1.2.2
      hash := sha256Text e.1.2.2, embedding := vectors e.2 }

/-- The write of the embedding cache. -/
def cacheCall (io : IndexIO) : List (StoreOp × Option ℕ) :=
  (io.cacheWrite.map fun fault => (StoreOp.metaWrite, fault)).toList

/-- The transcript is not skipped for its size. -/
def Reaches (s : AgentSession) : Prop :=
  h.minMessages ≤ s.messages.length ∧ h.minChars ≤ (renderTranscript str s).length

instance (s : AgentSession) : Decidable (Reaches str h s) :=
  inferInstanceAs (Decidable (_ ∧ _))

/-- `index_session`. -/
def indexSession (store : MemoryStore) (s : AgentSession) (io : IndexIO) : MemoryStore :=
  if ¬ Reaches str h s then store
  else if transcriptChunks str h s = [] then store
  else
    match io.vectors with
    | none => (store.runCalls (cacheCall io)).1
    | some vectors =>
      (store.runCalls (cacheCall io ++
        [(.upsertFile (sessionMemoryPath s) (sessionRow str sha256Text s io.now), io.upsertFault),
          (.replaceChunksForFile (sessionMemoryPath s) "sessions" h.model
            (sessionChunks str sha256Text h s vectors io.ids) io.now, io.replaceFault)])).1

end

/-! ## Managers -/

/-- `SessionManager`, as far as it is used here. `get` gives nothing where it raises. -/
structure SessionManager (M : Type) where
  get : M → String → Option (Option AgentSession)
  delete : M → String → M
  id_of_get : ∀ {m id s}, get m id = some (some s) → s.id = id
  get_delete : ∀ m id, get (delete m id) id = some none

/-- Every session is held under its own id. -/
def Named (w : World InMemorySessionManager) : Prop :=
  ∀ id s, (w.manager.get? id).bind (w.objects[·]?) = some s → s.id = id

theorem Named.erase {w : World InMemorySessionManager} (hw : Named w) (id : String) :
    Named { w with manager := w.manager.erase id } := by
  intro id' s hs
  by_cases hid : id' = id
  · rw [hid, Dict.get?_erase_self] at hs
    cases hs
  · rw [Dict.get?_erase_of_ne hid] at hs
    exact hw id' s hs

/-- `InMemorySessionManager`. -/
def inMemory : SessionManager (Subtype Named) where
  get w id := some ((w.1.manager.get? id).bind (w.1.objects[·]?))
  delete w id := ⟨{ w.1 with manager := w.1.manager.erase id }, w.2.erase id⟩
  id_of_get {w _ _} h := w.2 _ _ (Option.some.inj h)
  get_delete w id := congrArg (fun r : Option Ref => some (r.bind (w.1.objects[·]?)))
    (Dict.get?_erase_self w.1.manager id)

/-- `SQLiteSessionManager`. -/
def sqlite : SessionManager SessionDb where
  get := SessionDb.get
  delete := SessionDb.delete
  id_of_get h := (sessions_of_get h).1
  get_delete db id := SessionDb.get_of_not_mem (by
    rw [SessionDb.delete, Dict.keys_erase]
    simp)

/-! ## The bus -/

inductive LifecycleEvent where
  | created
  | updated
  | reset
  | forked
  | archived
  | deleted

/-- `payload.get("id") or payload.get("source_id")`, where it is a string. -/
def subject (payload : Args) : Option String :=
  let given := (payload.get "id").filter Json.truthy
  (given.or (payload.get "source_id")).bind Json.str?

/-- What an archive is written to. -/
structure ArchiveIO where
  path : String
  bytes : ℤ
  now : ℚ

/-- The payload of `LifecycleEvent.ARCHIVED`. -/
def archivedPayload (s : AgentSession) (deleteAfter : Bool) (io : ArchiveIO) : Args :=
  [("id", .str s.id), ("agent_id", .str s.agentId), ("archive_path", .str io.path),
    ("bytes", .int io.bytes), ("deleted", .bool deleteAfter)]

/-- The sessions, their archives and the memory store. -/
structure Stores (M : Type) where
  sessions : M
  archives : Archives := []
  store : MemoryStore := {}

section

variable {M : Type} (sm : SessionManager M) (str : PyStr) (sha256Text : String → String)
  (h : SessionMemoryHook)

/-- The session is read again and indexed, if there is one. -/
def indexLive (st : Stores M) (sid : String) (io : IndexIO) : Stores M :=
  match sm.get st.sessions sid with
  | some (some live) => { st with store := indexSession str sha256Text h st.store live io }
  | _ => st

/-- `_on_event`. What it raises the bus keeps to itself. -/
def onEvent (st : Stores M) (kind : LifecycleEvent) (payload : Args) (io : IndexIO) : Stores M :=
  match subject payload with
  | none => st
  | some sid =>
    match kind with
    | .archived => if h.onArchived then indexLive sm str sha256Text h st sid io else st
    | .reset => if h.onReset then indexLive sm str sha256Text h st sid io else st
    | .deleted =>
      match payload.get "agent_id" with
      | some (.str agentId) =>
        if agentId = "" then st
        else { st with store :=
          (st.store.exec (.deleteFile ("sessions/" ++ agentId ++ "/" ++ sid ++ ".md"))
            io.replaceFault).1 }
      | _ => st
    | _ => st

/-- `archive_session`, with a bus that the hook is attached to, and the name of the file that is
written. It raises where the session does not read. -/
def archiveSession (st : Stores M) (sessionId : String) (deleteAfter : Bool) (io : ArchiveIO)
    (index : IndexIO) : Option (Stores M × Option String) :=
  match sm.get st.sessions sessionId with
  | none => none
  | some none => some (st, none)
  | some (some s) =>
    let written := { st with
      sessions := if deleteAfter then sm.delete st.sessions s.id else st.sessions
      archives := st.archives.set (archiveName s io.now) (.obj (archiveFields s io.now)) }
    some (onEvent sm str sha256Text h written .archived (archivedPayload s deleteAfter io) index,
      some (archiveName s io.now))

end

/-! ## What the store holds -/

/-- A statement that no constraint refuses is committed if nothing is made to raise. -/
theorem onConn_write (s : MemoryStore) (f : Tables → Tables) (fault : Option ℕ) :
    Unbroken 2 fault ∧ s.onConn [write f] fault =
        ({ s with conn := ⟨f s.conn.working, f s.conn.working, false⟩ }, true) ∨
      ¬ Unbroken 2 fault ∧ (s.onConn [write f] fault).2 = false := by
  rcases fault with _ | _ | _ | k
  · exact .inl ⟨by simp [Unbroken], rfl⟩
  · exact .inr ⟨by simp [Unbroken], rfl⟩
  · exact .inr ⟨by simp [Unbroken], rfl⟩
  · exact .inl ⟨by simp [Unbroken], rfl⟩

/-- The store with its tables changed and committed. -/
def committed (s : MemoryStore) (f : Tables → Tables) : MemoryStore :=
  { s with conn := ⟨f s.conn.working, f s.conn.working, false⟩ }

section

variable {s : MemoryStore} {path source model : String} {row : FileRow} {cs : List NewChunk}
  {now : ℚ}

/-- A call that raises is the last. -/
theorem runCalls_cons_fst (s : MemoryStore) (op : StoreOp) (fault : Option ℕ)
    (calls : List (StoreOp × Option ℕ)) : (s.runCalls ((op, fault) :: calls)).1 =
      if (s.exec op fault).2 then ((s.exec op fault).1.runCalls calls).1
      else (s.exec op fault).1 := by
  rw [MemoryStore.runCalls]
  rcases s.exec op fault with ⟨s', _ | _⟩ <;> rfl

/-- A file is recorded, then its chunks are replaced, or its chunks are what they were. -/
theorem pieces_upsert_replace (hinv : Inv s) (fault fault' : Option ℕ) :
    let stores := Unbroken 2 fault ∧
      Replaces (committed s (Tables.upsert path row)) path source model cs now fault'
    let after := (s.runCalls [(.upsertFile path row, fault),
      (.replaceChunksForFile path source model cs now, fault')]).1
    stores ∧ pieces after.conn.working path = cs.map NewChunk.piece ∨
      ¬ stores ∧ pieces after.conn.working path = pieces s.conn.working path := by
  intro stores after
  have hinv' := hinv.step (.upsertFile path row, fault)
  have hafter : after = _ := runCalls_cons_fst s (.upsertFile path row) fault _
  rw [hafter]
  rcases onConn_write s (Tables.upsert path row) fault with ⟨hunbroken, hrun⟩ | ⟨hbroken, hrun⟩
  · have hcommitted : s.exec (.upsertFile path row) fault =
        (committed s (Tables.upsert path row), true) := hrun
    rw [MemoryStore.step, hcommitted] at hinv'
    rw [hcommitted, if_pos rfl, runCalls_cons_fst, MemoryStore.runCalls, ite_self]
    rcases exec_replace_cases hinv' path source model cs now fault' with
      ⟨hreplaces, t₀, t, ht₀, ht, hconn⟩ | ⟨hraises, hworking, -⟩
    · refine .inl ⟨⟨hunbroken, hreplaces⟩, ?_⟩
      rw [hconn]
      exact (pieces_replaced ht).2.1
    · refine .inr ⟨fun h => ?_, pieces_congr (hworking.elim And.right And.right) path⟩
      exact Bool.false_ne_true (hraises.symm.trans ((exec_replace_returns_iff _ _ _ _ _ _ _).2 h.2))
  · have hraises : (s.exec (.upsertFile path row) fault).2 = false := hrun
    rw [hraises, if_neg Bool.false_ne_true]
    exact .inr ⟨fun h => hbroken h.1, pieces_exec_upsertFile s path row fault path⟩

/-- The write of the cache before it changes no chunk, but may raise. -/
theorem pieces_calls (hinv : Inv s) (io : IndexIO) :
    let stores := (∀ fault ∈ io.cacheWrite, Unbroken 2 fault) ∧ Unbroken 2 io.upsertFault ∧
      Replaces (committed s (Tables.upsert path row)) path source model cs now io.replaceFault
    let after := (s.runCalls (cacheCall io ++ [(.upsertFile path row, io.upsertFault),
      (.replaceChunksForFile path source model cs now, io.replaceFault)])).1
    stores ∧ pieces after.conn.working path = cs.map NewChunk.piece ∨
      ¬ stores ∧ pieces after.conn.working path = pieces s.conn.working path := by
  rcases hcache : io.cacheWrite with _ | fault
  · simpa [cacheCall, hcache] using pieces_upsert_replace hinv io.upsertFault io.replaceFault
  intro stores after
  have hinv' := hinv.step (.metaWrite, fault)
  have hafter : after = _ := (congrArg (fun calls => (s.runCalls (calls ++ _)).1)
    (congrArg (fun c => (c.map fun fault => (StoreOp.metaWrite, fault)).toList) hcache)).trans
      (runCalls_cons_fst s .metaWrite fault _)
  rw [hafter]
  rcases onConn_write s id fault with ⟨hunbroken, hrun⟩ | ⟨hbroken, hrun⟩
  · have hcommitted : s.exec .metaWrite fault = (committed s id, true) := hrun
    rw [MemoryStore.step, hcommitted] at hinv'
    rw [hcommitted, if_pos rfl]
    have hstores : stores ↔ Unbroken 2 io.upsertFault ∧
        Replaces (committed s (Tables.upsert path row)) path source model cs now io.replaceFault :=
      and_iff_right fun f hf => Option.some.inj hf ▸ hunbroken
    rw [hstores]
    exact pieces_upsert_replace hinv' io.upsertFault io.replaceFault
  · have hraises : (s.exec .metaWrite fault).2 = false := hrun
    rw [hraises, if_neg Bool.false_ne_true]
    exact .inr ⟨fun h => hbroken (h.1 fault rfl), pieces_congr (sameRows_metaWrite s fault).1.2 path⟩

end

section

variable (str : PyStr) (sha256Text : String → String) (h : SessionMemoryHook)

/-- The chunks of a session get into the store : they are embedded, and no operation of the store
raises. -/
def Indexes (store : MemoryStore) (s : AgentSession) (io : IndexIO) : Prop :=
  transcriptChunks str h s ≠ [] ∧ ∃ vectors, io.vectors = some vectors ∧ (∀ fault ∈ io.cacheWrite, Unbroken 2 fault) ∧
    Unbroken 2 io.upsertFault ∧
    Replaces (committed store (Tables.upsert (sessionMemoryPath s) (sessionRow str sha256Text s io.now)))
      (sessionMemoryPath s) "sessions" h.model (sessionChunks str sha256Text h s vectors io.ids)
      io.now io.replaceFault

theorem piece_sessionChunks (s : AgentSession) (vectors : ℕ → List ℚ) (ids : ℕ → String) :
    (sessionChunks str sha256Text h s vectors ids).map NewChunk.piece = transcriptChunks str h s := by
  rw [sessionChunks, List.map_map]
  exact List.zipIdx_map_fst 0 _

/-- The transcript of a session is indexed, or the chunks under its path are what they were. -/
theorem pieces_indexSession {store : MemoryStore} (hinv : Inv store) {s : AgentSession}
    (hreaches : Reaches str h s) (io : IndexIO) :
    let after := indexSession str sha256Text h store s io
    Indexes str sha256Text h store s io ∧
        pieces after.conn.working (sessionMemoryPath s) = transcriptChunks str h s ∨
      ¬ Indexes str sha256Text h store s io ∧ pieces after.conn.working (sessionMemoryPath s) =
        pieces store.conn.working (sessionMemoryPath s) := by
  intro after
  have hafter : after = indexSession str sha256Text h store s io := rfl
  clear_value after
  rw [indexSession, if_neg (not_not.2 hreaches)] at hafter
  by_cases hnone : transcriptChunks str h s = []
  · rw [if_pos hnone] at hafter
    exact .inr ⟨fun h => h.1 hnone, by rw [hafter]⟩
  rw [if_neg hnone] at hafter
  rcases hvectors : io.vectors with _ | vectors
  · rw [hvectors] at hafter
    refine .inr ⟨fun ⟨_, vectors, h, _⟩ => by simp [hvectors] at h, ?_⟩
    obtain ⟨-, hworking, -⟩ := sameRows_runCalls hinv (cacheCall io) (by simp [cacheCall, Prepares])
    rw [hafter]
    exact pieces_congr hworking.2 _
  have hindexes : Indexes str sha256Text h store s io ↔ (∀ fault ∈ io.cacheWrite, Unbroken 2 fault) ∧
      Unbroken 2 io.upsertFault ∧ Replaces (committed store
          (Tables.upsert (sessionMemoryPath s) (sessionRow str sha256Text s io.now)))
        (sessionMemoryPath s) "sessions" h.model (sessionChunks str sha256Text h s vectors io.ids)
        io.now io.replaceFault := by
    simp [Indexes, hnone, hvectors]
  rw [hvectors] at hafter
  rw [hindexes, ← piece_sessionChunks str sha256Text h s vectors io.ids, hafter]
  exact pieces_calls hinv io

theorem subject_archivedPayload (s : AgentSession) (deleteAfter : Bool) (io : ArchiveIO) :
    subject (archivedPayload s deleteAfter io) = if s.id = "" then none else some s.id := by
  have hid : (archivedPayload s deleteAfter io).get "id" = some (.str s.id) := rfl
  rw [subject, hid]
  split_ifs with hempty
  · rw [hempty]
    rfl
  · have htruthy : Json.truthy (.str s.id) = true := by simpa [Json.truthy] using hempty
    rw [Option.filter_some, if_pos htruthy]
    rfl

/-- What an archive leaves in the store. -/
theorem store_onEvent {M : Type} {sm : SessionManager M} {sessions : M} {archives : Archives}
    {store : MemoryStore} {s : AgentSession} (hs : sm.get sessions s.id = some (some s))
    (harchived : h.onArchived = true) (deleteAfter : Bool) (io : ArchiveIO) (index : IndexIO) :
    (onEvent sm str sha256Text h
      ⟨if deleteAfter then sm.delete sessions s.id else sessions, archives, store⟩ .archived
      (archivedPayload s deleteAfter io) index).store =
    if s.id ≠ "" ∧ deleteAfter = false then indexSession str sha256Text h store s index
    else store := by
  have hsubject := subject_archivedPayload s deleteAfter io
  by_cases hempty : s.id = ""
  · rw [if_pos hempty] at hsubject
    rw [onEvent, hsubject]
    exact (if_neg fun h => h.1 hempty).symm
  rw [if_neg hempty] at hsubject
  rw [onEvent, hsubject]
  simp only [harchived, if_true, indexLive]
  rcases deleteAfter with _ | _
  · simp only [Bool.false_eq_true, if_false, hs, and_true, ne_eq, hempty, not_false_eq_true, if_true]
  · simp only [if_true, sm.get_delete, Bool.true_eq_false, and_false, if_false]

theorem archiveSession_store {M : Type} {sm : SessionManager M} {sessions : M} {s : AgentSession}
    (hs : sm.get sessions s.id = some (some s)) (harchived : h.onArchived = true)
    (archives : Archives) (store : MemoryStore) (deleteAfter : Bool) (io : ArchiveIO)
    (index : IndexIO) :
    ∃ st name, archiveSession sm str sha256Text h ⟨sessions, archives, store⟩ s.id deleteAfter io
        index = some (st, name) ∧
      st.store = if s.id ≠ "" ∧ deleteAfter = false then indexSession str sha256Text h store s index
        else store := by
  rw [archiveSession, hs]
  exact ⟨_, _, rfl, store_onEvent str sha256Text h hs harchived deleteAfter io index⟩

end

/-- A session of four messages. -/
def heatSession : AgentSession where
  id := "s1"
  createdAt := 1
  updatedAt := 2
  messages := [.user (.text "Is it hot?"), .assistant ⟨[.text "31 C."], some "end_turn", none⟩,
    .user (.text "And at night?"), .assistant ⟨[.text "26 C."], some "end_turn", none⟩]

def heatDb : SessionDb :=
  SessionDb.save {} heatSession 2

/-- Of texts nothing else is shown. -/
def plainStr : PyStr :=
  ⟨fun _ => "", fun _ _ => "", fun _ => ""⟩

def eagerHook : SessionMemoryHook where
  minChars := 0
  model := "m"

def heatIO : ArchiveIO :=
  ⟨"archives/s1.json.gz", 300, 3⟩

def heatIndex : IndexIO where
  vectors := some fun _ => [1]
  ids := fun n => toString n

theorem get_heatDb : sqlite.get heatDb heatSession.id = some (some heatSession) :=
  SessionDb.get_save {} heatSession 2

theorem reaches_heatSession : Reaches plainStr eagerHook heatSession :=
  ⟨by decide, Int.natCast_nonneg _⟩

/-- A transcript says something. -/
theorem transcriptChunks_ne_nil (str : PyStr) {h : SessionMemoryHook} (hpos : 0 < h.maxChars)
    (s : AgentSession) : transcriptChunks str h s ≠ [] := by
  intro hnone
  have hink := inkOf_chunkMarkdown hpos (renderTranscript str s) 200
  rw [List.map_eq_nil_iff.1 hnone, renderTranscript, Py.ink_append, Py.ink_rstrip,
    String.toList_intercalate] at hink
  have hblank := Py.ink_eq_nil.1 (List.append_eq_nil_iff.1 hink.symm).1 '#' ?_
  · exact absurd hblank (by decide)
  · have hmark : '#' ∈ "# Session ".toList := by
      rw [String.toList_ofList]
      exact List.mem_cons_self
    simp only [List.cons_append, List.map_cons, List.intercalate_cons_cons, String.toList_append,
      List.append_assoc]
    exact List.mem_append_left _ hmark

end OxenClaw.SessionMemory
