import Mathlib.Data.List.Sort
import OxenClaw.Memory.Current

/-!
# Export and import of the memory store

`memory.export` gives the rows of files and chunks and leaves the vectors to the next sync after an
import. `memory.import` writes them into a store, the hashes of the files included, and adds a full
text for each chunk, also where there is one.

A sync skips the files whose recorded hash is that of their content, and stores the chunks of the
others under new ids. So a chunk that is imported gets no vector, and one that has a vector gets
another full text (`Texted`). Of the chunks that are imported none has exactly one row in each of
the tables, whatever the sync finds (`oneRowEach_iff`).
-/

namespace OxenClaw.Memory

open Sqlite

/-! ## Export -/

/-- An entry of `files`, as `_serialise_file` gives it. -/
structure ExportedFile where
  path : String
  source : String
  hash : String
  mtime : ℚ
  size : ℕ
  chunkCount : ℕ

/-- An entry of `chunks`. -/
structure ExportedChunk where
  id : String
  path : String
  source : String
  startLine : ℤ
  endLine : ℤ
  hash : String
  text : String
  model : String

/-- What `memory.export` gives and `memory.import` takes. -/
structure Payload where
  files : List ExportedFile
  chunks : List ExportedChunk

def Payload.ids (payload : Payload) : List String :=
  payload.chunks.map ExportedChunk.id

/-- `list_files`. -/
def Tables.listFiles (t : Tables) (source : Option String) : List ExportedFile :=
  ((t.files.filter fun e => source.all (e.2.source = ·)).insertionSort fun e e' => e.1 ≤ e'.1).map
    fun e =>
      { path := e.1, source := e.2.source, hash := e.2.hash, mtime := e.2.mtime, size := e.2.size
        chunkCount := t.chunks.countP (·.path = e.1) }

def ChunkRow.exported (row : ChunkRow) : ExportedChunk :=
  ⟨row.id, row.path, row.source, row.startLine, row.endLine, row.hash, row.text, row.model⟩

/-- The chunks of a file, `ORDER BY start_line`. -/
def Tables.chunksOf (t : Tables) (path : String) : List ChunkRow :=
  (t.chunks.filter (·.path = path)).insertionSort fun row row' => row.startLine ≤ row'.startLine

/-- `memory.export`. -/
def exportPayload (t : Tables) (source : Option String) : Payload where
  files := t.listFiles source
  chunks := (t.listFiles source).flatMap fun f => (t.chunksOf f.path).map ChunkRow.exported

/-! ## Import -/

/-- `INSERT OR REPLACE INTO chunks` : the file exists. -/
def Tables.putChunk (row : ChunkRow) (t : Tables) : Option Tables :=
  if (t.files.get? row.path).isNone then none
  else some { t with chunks := t.chunks.filter (·.id ≠ row.id) ++ [row] }

/-- The store during an import, and what it reports. `importedChunks` has the chunks that are
counted. -/
structure ImportRun where
  store : MemoryStore
  importedFiles : ℕ := 0
  importedChunks : List ExportedChunk := []

/-- The statements of one chunk. No two rows of `chunks_fts` conflict. -/
def chunkStatements (c : ExportedChunk) (now : ℚ) : List (Statement Tables) :=
  [.write (Tables.putChunk
      ⟨c.id, c.path, c.source, c.startLine, c.endLine, c.hash, c.text, c.model, now⟩),
    write (Tables.insertFts ⟨c.text, c.id, c.path, c.source⟩)]

namespace ImportRun

/-- One entry of `files`. -/
def file (overwrite : Bool) (r : ImportRun) (f : ExportedFile) : ImportRun :=
  if overwrite = false ∧ (r.store.conn.working.files.get? f.path).isSome then r
  else
    { r with
      store := (r.store.exec (.upsertFile f.path ⟨f.source, f.hash, f.mtime, f.size⟩) none).1
      importedFiles := r.importedFiles + 1 }

/-- The entries of `chunks`, up to one that is refused. -/
def chunks (overwrite : Bool) (now : ℚ) : ImportRun → List ExportedChunk → ImportRun × Bool
  | r, [] => (r, true)
  | r, c :: cs =>
    if overwrite = false ∧ c.id ∈ r.store.conn.working.chunkIds then chunks overwrite now r cs
    else
      match r.store.conn.run (chunkStatements c now) none with
      | (conn, true) =>
        chunks overwrite now
          { r with store := { r.store with conn }, importedChunks := r.importedChunks ++ [c] } cs
      | (conn, false) => ({ r with store := { r.store with conn } }, false)

end ImportRun

/-- `memory.import`. Where it raises, its transaction is left open. -/
def importPayload (s : MemoryStore) (payload : Payload) (overwrite : Bool) (now : ℚ) : ImportRun :=
  match (payload.files.foldl (ImportRun.file overwrite) ⟨s, 0, []⟩).chunks overwrite now
    payload.chunks with
  | (r, true) => { r with store := { r.store with conn := (r.store.conn.exec .commit).1 } }
  | (r, false) => r

/-- Calls of `memory.import` with one payload, each with its `overwrite` and its time, and all
chunks they import. -/
def importAll (payload : Payload) :
    MemoryStore → List (Bool × ℚ) → MemoryStore × List ExportedChunk
  | s, [] => (s, [])
  | s, (overwrite, now) :: calls =>
    let r := importPayload s payload overwrite now
    let rest := importAll payload r.store calls
    (rest.1, r.importedChunks ++ rest.2)

/-- `memory.delete` of one chunk. -/
def deleteChunkStatements (t : Tables) (id : String) : List (Statement Tables) :=
  if id ∈ t.chunkIds then
    [vecWrite t (Tables.deleteVec [id]), write (Tables.deleteFts [id]),
      write fun t => { t with chunks := t.chunks.filter (·.id ≠ id) }, .commit]
  else []

/-- What happens to a store. -/
inductive MemoryEvent where
  | indexer (e : IndexerEvent)
  | deleteChunk (id : String) (fault : Option ℕ)
  | imports (payload : Payload) (overwrite : Bool) (now : ℚ)

def memoryStep (corpus : Corpus) (s : MemoryStore) : MemoryEvent → MemoryStore
  | .indexer e => indexerStep corpus s e
  | .deleteChunk id fault =>
    { s with conn := (s.conn.run (deleteChunkStatements s.conn.working id) fault).1 }
  | .imports payload overwrite now => (importPayload s payload overwrite now).store

/-- A chunk has one row in each of the tables. -/
def OneRowEach (t : Tables) (id : String) : Prop :=
  t.chunkIds.count id = 1 ∧ t.vecIds.count id = 1 ∧ t.ftsIds.count id = 1

/-- The calls import no chunk : there is none, or the store has them all and no call
overwrites. -/
def ImportsNone (t : Tables) (payload : Payload) (calls : List (Bool × ℚ)) : Prop :=
  calls = [] ∨ payload.chunks = [] ∨
    (∀ call ∈ calls, call.1 = false) ∧ ∀ c ∈ payload.chunks, c.id ∈ t.chunkIds

/-! ## Full texts of the chunks with a vector -/

/-- A chunk with a vector has at least `floor` full texts. -/
def Texted (floor : String → ℕ) (t : Tables) : Prop :=
  ∀ id ∈ t.vecIds, floor id ≤ t.ftsIds.count id

/-- So it is in what the connection sees and in what is committed. -/
def StoreTexted (floor : String → ℕ) (s : MemoryStore) : Prop :=
  Texted floor s.conn.working ∧ Texted floor s.conn.committed

variable {floor : String → ℕ} {t t' : Tables}

theorem Texted.congr (h : Texted floor t) (hv : t'.vec = t.vec) (hf : t'.fts = t.fts) :
    Texted floor t' := by
  intro id hid
  rw [Tables.ftsIds, hf]
  refine h id ?_
  rwa [Tables.vecIds, hv] at hid

theorem mem_vecIds_deleteVec {ids : List String} {id : String} :
    id ∈ (Tables.deleteVec ids t).vecIds ↔ id ∈ t.vecIds ∧ id ∉ ids := by
  simp only [Tables.vecIds, Tables.deleteVec, List.mem_map, List.mem_filter, decide_eq_true_eq]
  constructor
  · rintro ⟨row, ⟨hrow, hnot⟩, rfl⟩
    exact ⟨⟨row, hrow, rfl⟩, hnot⟩
  · rintro ⟨⟨row, hrow, rfl⟩, hnot⟩
    exact ⟨row, ⟨hrow, hnot⟩, rfl⟩

theorem Texted.deleteVec (h : Texted floor t) (ids : List String) :
    Texted floor (Tables.deleteVec ids t) := fun id hid =>
  h id (mem_vecIds_deleteVec.1 hid).1

/-- The full texts of chunks without a vector may go. -/
theorem Texted.deleteFts (h : Texted floor t) {ids : List String}
    (hids : ∀ id ∈ t.vecIds, id ∉ ids) : Texted floor (Tables.deleteFts ids t) := by
  intro id hid
  have hkept : (Tables.deleteFts ids t).ftsIds = t.ftsIds.filter (· ∉ ids) := by
    simp only [Tables.ftsIds, Tables.deleteFts, List.filter_map, Function.comp_def]
  rw [hkept, List.count_filter (by simpa using hids id hid)]
  exact h id hid

/-- The vectors of chunks are deleted before their full texts. -/
theorem Texted.through_deleteIndexed (h : Texted floor t) (ids : List String)
    {ss : List (Statement Tables)} (hss : ∀ t', Texted floor t' → Through (Texted floor) ss t') :
    Through (Texted floor) (deleteIndexed t ids ++ ss) t := by
  unfold deleteIndexed vecWrite
  split_ifs
  · exact hss t h
  · exact h
  · refine ⟨h, ?_⟩
    rintro _ ⟨⟩
    refine ⟨h.deleteVec ids, ?_⟩
    rintro _ ⟨⟩
    exact hss _ ((h.deleteVec ids).deleteFts fun id hid => (mem_vecIds_deleteVec.1 hid).2)

/-- A write that touches no vector and no full text. -/
theorem Texted.through_write (h : Texted floor t) {f : Tables → Tables} (hv : (f t).vec = t.vec)
    (hf : (f t).fts = t.fts) {ss : List (Statement Tables)}
    (hss : ∀ t', Texted floor t' → Through (Texted floor) ss t') :
    Through (Texted floor) (write f :: ss) t := by
  refine ⟨h, ?_⟩
  rintro _ ⟨⟩
  exact hss _ (h.congr hv hf)

theorem Texted.through_commit (h : Texted floor t) : Through (Texted floor) [.commit] t :=
  h

/-- Chunks that are stored have their full text, as often as a new chunk has one. -/
theorem Texted.storeChunks (h : Texted floor t) {path source model : String} {now : ℚ}
    {cs : List NewChunk} (hcs : ∀ c ∈ cs, floor c.id ≤ 1)
    (hstored : storeChunks path source model now cs t = some t') : Texted floor t' := by
  induction cs generalizing t with
  | nil =>
    obtain rfl := Option.some.inj hstored
    exact h
  | cons c cs ih =>
    obtain ⟨t₁, h₁, h₂⟩ := Option.bind_eq_some_iff.1 hstored
    obtain ⟨-, -, hv, hf, -⟩ := effects_insertStatements h₁
    refine ih (fun id hid => ?_) (fun c' hc' => hcs c' (List.mem_cons_of_mem _ hc')) h₂
    rw [hv, List.mem_append, List.mem_singleton] at hid
    rw [hf, List.count_append]
    rcases hid with hid | rfl
    · exact (h id hid).trans (Nat.le_add_right _ _)
    · have hone := hcs c List.mem_cons_self
      have hcount : [c.id].count c.id = 1 := List.count_singleton_self
      omega

/-! ### Operations of the store -/

/-- The chunks that an operation makes need one full text at most. -/
def MakesNew (floor : String → ℕ) : StoreOp → Prop
  | .replaceChunksForFile _ _ _ chunks _ => ∀ c ∈ chunks, floor c.id ≤ 1
  | _ => True

theorem StoreTexted.onConn {s : MemoryStore} (h : StoreTexted floor s)
    {ss : List (Statement Tables)}
    (hss : Through (Texted floor) (ss ++ [.commit]) s.conn.working) (fault : Option ℕ) :
    StoreTexted floor (s.onConn ss fault).1 :=
  Connection.through_run hss h.2 fault

theorem StoreTexted.ensureVecTable {s : MemoryStore} (h : StoreTexted floor s) (dim : ℕ)
    (fault : Option ℕ) : StoreTexted floor (s.ensureVecTable dim fault).1 := by
  have hdefine : StoreTexted floor (s.onConn [.define (Tables.createVec dim)] fault).1 := by
    refine h.onConn ?_ fault
    exact ⟨h.1, h.1.congr rfl rfl⟩
  unfold MemoryStore.ensureVecTable
  rcases s.dim with _ | d
  · rcases hresult : s.onConn [.define (Tables.createVec dim)] fault with ⟨s', _ | _⟩
    all_goals rw [hresult] at hdefine
    · exact hdefine
    · exact hdefine
  · exact h

theorem StoreTexted.replaceChunks {s : MemoryStore} (h : StoreTexted floor s)
    (path source model : String) {cs : List NewChunk} (hcs : ∀ c ∈ cs, floor c.id ≤ 1) (now : ℚ)
    (fault : Option ℕ) : StoreTexted floor (s.replaceChunks path source model cs now fault).1 := by
  unfold MemoryStore.replaceChunks
  set ss := Statement.begin :: replaceStatements s.conn.working path source model cs now with hss
  rcases hresult : s.onConn ss fault with ⟨s', _ | _⟩
  · have hraises : (s.conn.run (ss ++ [.commit]) fault).2 = false := congrArg Prod.snd hresult
    have hcommitted := Connection.committed_run_of_raises
      (inner_replaceStatements _ path source model cs now) hraises
    have hs' : s'.conn.committed = s.conn.committed := by
      rw [← hcommitted]
      exact congrArg (fun r => r.1.conn.committed) hresult.symm
    change Texted floor s'.conn.committed ∧ Texted floor s'.conn.committed
    rw [hs']
    exact ⟨h.2, h.2⟩
  · have hreturns : (s.conn.run (ss ++ [.commit]) fault).2 = true := congrArg Prod.snd hresult
    obtain ⟨t, ht, hconn⟩ := Connection.run_commit_of_returns hreturns
    have hs' : s'.conn = ⟨t, t, false⟩ := by
      rw [← hconn]
      exact congrArg (fun r => r.1.conn) hresult.symm
    have hpurged : Texted floor (purge path s.conn.working) := by
      have hindexed := (h.1.deleteVec (s.conn.working.idsOf path)).deleteFts
        fun id hid => (mem_vecIds_deleteVec.1 hid).2
      exact hindexed.congr rfl rfl
    have htexted := hpurged.storeChunks hcs (effects_replaceStatements ht)
    change Texted floor s'.conn.working ∧ Texted floor s'.conn.committed
    rw [hs']
    exact ⟨htexted, htexted⟩

/-- Every operation keeps the full texts, wherever it raises. -/
theorem StoreTexted.exec {s : MemoryStore} (h : StoreTexted floor s) {op : StoreOp}
    (hop : MakesNew floor op) (fault : Option ℕ) : StoreTexted floor (s.exec op fault).1 := by
  cases op with
  | upsertFile path row =>
    exact h.onConn (h.1.through_write rfl rfl fun _ => Texted.through_commit) fault
  | deleteFile path =>
    refine h.onConn ?_ fault
    rw [deleteFileStatements, List.cons_append, List.cons_append, List.append_assoc]
    exact h.1.through_deleteIndexed _ fun _ h₁ => h₁.through_write rfl rfl fun _ h₂ =>
      h₂.through_write rfl rfl fun _ => Texted.through_commit
  | clearAll =>
    refine h.onConn ?_ fault
    have hcleared (t : Tables) (ht : t.vec = []) : Texted floor t := by
      intro id hid
      rw [Tables.vecIds, ht] at hid
      cases hid
    unfold clearAllStatements vecWrite
    split_ifs
    · exact h.1
    · refine ⟨h.1, ?_⟩
      rintro _ ⟨⟩
      refine ⟨hcleared _ rfl, ?_⟩
      rintro _ ⟨⟩
      exact (hcleared _ rfl).through_write rfl rfl fun _ h₂ =>
        h₂.through_write rfl rfl fun _ => Texted.through_commit
  | ensureVecTable dim => exact h.ensureVecTable dim fault
  | metaWrite => exact h.onConn (h.1.through_write rfl rfl fun _ => Texted.through_commit) fault
  | replaceChunksForFile path source model cs now =>
    unfold MemoryStore.exec
    rcases cs with _ | ⟨c, cs⟩
    · exact h.replaceChunks path source model (fun c hc => absurd hc List.not_mem_nil) now fault
    · have hensured := h.ensureVecTable c.embedding.length fault
      dsimp only
      rcases hresult : s.ensureVecTable c.embedding.length fault with ⟨s', _ | _⟩
      all_goals rw [hresult] at hensured
      · exact hensured
      · exact hensured.replaceChunks path source model hop now _

/-! ### A sync -/

section

variable {s s' : MemoryStore}

theorem StoreTexted.operations (h : StoreTexted floor s)
    (hops : Operations (MakesNew floor) s s') : StoreTexted floor s' := by
  induction hops with
  | refl => exact h
  | tail _ hlast ih =>
    obtain ⟨op, fault, hop, rfl⟩ := hlast
    exact ih.exec hop fault

/-- The ids that a sync makes need one full text at most. -/
def SyncMakesNew (floor : String → ℕ) (scan : SourceScan) : Prop :=
  ∀ e ∈ scan.files, ∀ n, floor (e.2.ids n) ≤ 1

/-- A sync is operations that make new chunks, whatever it finds and wherever it breaks off. -/
theorem operations_of_makesNew (corpus : Corpus) (model : String) (metaDone : Bool)
    {scans : List SourceScan} (hids : ∀ scan ∈ scans, SyncMakesNew floor scan) :
    Operations (MakesNew floor) s (syncSources corpus model s metaDone scans) := by
  have hkeeping : Housekeeping (MakesNew floor) := ⟨trivial, fun _ => trivial, fun _ => trivial⟩
  refine operations_syncSources hkeeping metaDone fun scan hscan _ e he => ⟨fun _ => trivial, ?_⟩
  intro _ vectors c hc
  obtain ⟨e', -, rfl⟩ := List.mem_map.1 hc
  exact hids scan hscan e he e'.2

end

/-! ## An import -/

/-- A chunk that is imported while it has a vector has two full texts. -/
def floorOf (ids : List String) (id : String) : ℕ :=
  if id ∈ ids then 2 else 1

theorem one_le_floorOf (ids : List String) (id : String) : 1 ≤ floorOf ids id := by
  unfold floorOf
  split_ifs
  · exact Nat.le_succ 1
  · exact le_rfl

theorem Texted.of_append {ids ids' : List String} (h : Texted (floorOf (ids ++ ids')) t) :
    Texted (floorOf ids) t := by
  refine fun id hid => le_trans ?_ (h id hid)
  unfold floorOf
  split_ifs with hids happ
  · exact le_rfl
  · exact absurd (List.mem_append_left _ hids) happ
  · exact Nat.le_succ 1
  · exact le_rfl

/-- The tables with a chunk put in. -/
def withChunk (c : ExportedChunk) (now : ℚ) (t : Tables) : Tables :=
  { t with
    chunks := t.chunks.filter (·.id ≠ c.id) ++
      [⟨c.id, c.path, c.source, c.startLine, c.endLine, c.hash, c.text, c.model, now⟩]
    fts := t.fts ++ [⟨c.text, c.id, c.path, c.source⟩] }

theorem Texted.withChunk {ids : List String} (h : Texted (floorOf ids) t) (c : ExportedChunk)
    (now : ℚ) : Texted (floorOf (ids ++ [c.id])) (withChunk c now t) := by
  intro id hid
  have hold : floorOf ids id ≤ t.ftsIds.count id := h id hid
  have hfts : (Memory.withChunk c now t).ftsIds = t.ftsIds ++ [c.id] := by
    simp [Tables.ftsIds, Memory.withChunk]
  rw [hfts, List.count_append]
  by_cases hc : id = c.id
  · have hone : [c.id].count id = 1 := by simp [hc]
    have hfloor := one_le_floorOf ids id
    have htwo : floorOf (ids ++ [c.id]) id = 2 := by simp [floorOf, hc]
    omega
  · have hsame : floorOf (ids ++ [c.id]) id = floorOf ids id := by simp [floorOf, hc]
    omega

/-- A chunk is put in, or refused where its file is not there. -/
theorem run_chunkStatements (conn : Connection Tables) (c : ExportedChunk) (now : ℚ) :
    (conn.working.files.get? c.path = none ∧ conn.run (chunkStatements c now) none =
      (⟨conn.committed, conn.working, true⟩, false)) ∨
    ((conn.working.files.get? c.path).isSome ∧ conn.run (chunkStatements c now) none =
      (⟨conn.committed, withChunk c now conn.working, true⟩, true)) := by
  unfold chunkStatements
  rw [Connection.run_cons (by rintro ⟨⟩), Connection.exec, Tables.putChunk]
  rcases hfile : conn.working.files.get? c.path with _ | row
  · exact Or.inl ⟨rfl, rfl⟩
  · exact Or.inr ⟨rfl, rfl⟩

def ImportRun.ids (r : ImportRun) : List String :=
  r.importedChunks.map ExportedChunk.id

/-- The import after a chunk is put in. -/
def ImportRun.put (c : ExportedChunk) (now : ℚ) (r : ImportRun) : ImportRun where
  store := { r.store with
    conn := ⟨r.store.conn.committed, withChunk c now r.store.conn.working, true⟩ }
  importedFiles := r.importedFiles
  importedChunks := r.importedChunks ++ [c]

/-- The import after a chunk is refused. -/
def ImportRun.refused (r : ImportRun) : ImportRun :=
  { r with store := { r.store with
      conn := ⟨r.store.conn.committed, r.store.conn.working, true⟩ } }

section

variable (overwrite : Bool) (now : ℚ)

/-- A chunk is skipped. -/
def ImportRun.Skips (r : ImportRun) (c : ExportedChunk) : Prop :=
  overwrite = false ∧ c.id ∈ r.store.conn.working.chunkIds

/-- A chunk is skipped, refused or put in. -/
theorem chunks_cons_cases (r : ImportRun) (c : ExportedChunk) (cs : List ExportedChunk) :
    (r.Skips overwrite c ∧ r.chunks overwrite now (c :: cs) = r.chunks overwrite now cs) ∨
    (¬r.Skips overwrite c ∧ r.store.conn.working.files.get? c.path = none ∧
      r.chunks overwrite now (c :: cs) = (r.refused, false)) ∨
    (¬r.Skips overwrite c ∧ (r.store.conn.working.files.get? c.path).isSome ∧
      r.chunks overwrite now (c :: cs) = (r.put c now).chunks overwrite now cs) := by
  rw [ImportRun.chunks]
  split_ifs with hskip
  · exact Or.inl ⟨hskip, rfl⟩
  · rcases run_chunkStatements r.store.conn c now with ⟨hnone, hrun⟩ | ⟨hsome, hrun⟩
    · exact Or.inr (Or.inl ⟨hskip, hnone, by rw [hrun]; rfl⟩)
    · exact Or.inr (Or.inr ⟨hskip, hsome, by rw [hrun]; rfl⟩)

/-- Each chunk that is put in gets a full text, and nothing is committed. -/
theorem texted_chunks {ids : List String} (cs : List ExportedChunk) {r : ImportRun}
    (h : Texted (floorOf (ids ++ r.ids)) r.store.conn.working) :
    Texted (floorOf (ids ++ (r.chunks overwrite now cs).1.ids))
        (r.chunks overwrite now cs).1.store.conn.working ∧
      (r.chunks overwrite now cs).1.store.conn.committed = r.store.conn.committed := by
  induction cs generalizing r with
  | nil => exact ⟨h, rfl⟩
  | cons c cs ih =>
    rcases chunks_cons_cases overwrite now r c cs with ⟨-, heq⟩ | ⟨-, -, heq⟩ | ⟨-, -, heq⟩
    · rw [heq]
      exact ih h
    · rw [heq]
      exact ⟨h, rfl⟩
    · rw [heq]
      refine ih (r := r.put c now) ?_
      have hids : (r.put c now).ids = r.ids ++ [c.id] := List.map_append
      rw [hids, ← List.append_assoc]
      exact h.withChunk c now

theorem mem_importedChunks {cs : List ExportedChunk} {r : ImportRun} {c : ExportedChunk}
    (h : c ∈ (r.chunks overwrite now cs).1.importedChunks) : c ∈ r.importedChunks ∨ c ∈ cs := by
  induction cs generalizing r with
  | nil => exact Or.inl h
  | cons c' cs ih =>
    rcases chunks_cons_cases overwrite now r c' cs with ⟨-, heq⟩ | ⟨-, -, heq⟩ | ⟨-, -, heq⟩
    · rw [heq] at h
      exact (ih h).imp_right (List.mem_cons_of_mem _)
    · rw [heq] at h
      exact Or.inl h
    · rw [heq] at h
      rcases ih h with h | h
      · rcases List.mem_append.1 h with h | h
        · exact Or.inl h
        · exact Or.inr (List.mem_cons.2 (Or.inl (List.mem_singleton.1 h)))
      · exact Or.inr (List.mem_cons_of_mem _ h)

/-- Chunks whose files are there are not refused. -/
theorem chunks_returns {cs : List ExportedChunk} {r : ImportRun}
    (h : ∀ c ∈ cs, (r.store.conn.working.files.get? c.path).isSome) :
    (r.chunks overwrite now cs).2 = true := by
  induction cs generalizing r with
  | nil => rfl
  | cons c cs ih =>
    obtain ⟨hc, hcs⟩ := List.forall_mem_cons.1 h
    rcases chunks_cons_cases overwrite now r c cs with ⟨-, heq⟩ | ⟨-, hnone, -⟩ | ⟨-, -, heq⟩
    · rw [heq]
      exact ih hcs
    · rw [hnone] at hc
      cases hc
    · rw [heq]
      exact ih (r := r.put c now) hcs

theorem importedChunks_begins (cs : List ExportedChunk) (r : ImportRun) :
    r.importedChunks <+: (r.chunks overwrite now cs).1.importedChunks := by
  induction cs generalizing r with
  | nil => exact List.prefix_refl _
  | cons c cs ih =>
    rcases chunks_cons_cases overwrite now r c cs with ⟨-, heq⟩ | ⟨-, -, heq⟩ | ⟨-, -, heq⟩
    · rw [heq]
      exact ih r
    · rw [heq]
      exact List.prefix_refl _
    · rw [heq]
      exact (List.prefix_append _ [c]).trans (ih (r.put c now))

/-- No chunk is imported exactly if each is skipped. -/
theorem importedChunks_eq_iff {cs : List ExportedChunk} {r : ImportRun}
    (h : ∀ c ∈ cs, (r.store.conn.working.files.get? c.path).isSome) :
    (r.chunks overwrite now cs).1.importedChunks = r.importedChunks ↔
      ∀ c ∈ cs, r.Skips overwrite c := by
  induction cs with
  | nil => exact iff_of_true rfl fun c hc => absurd hc List.not_mem_nil
  | cons c cs ih =>
    obtain ⟨hc, hcs⟩ := List.forall_mem_cons.1 h
    rw [List.forall_mem_cons]
    rcases chunks_cons_cases overwrite now r c cs with
      ⟨hskip, heq⟩ | ⟨-, hnone, -⟩ | ⟨hskip, -, heq⟩
    · rw [heq]
      exact (ih hcs).trans (and_iff_right hskip).symm
    · rw [hnone] at hc
      cases hc
    · rw [heq]
      refine iff_of_false (fun hsame => ?_) fun hall => hskip hall.1
      have hlength := (importedChunks_begins overwrite now cs (r.put c now)).length_le
      rw [hsame, ImportRun.put, List.length_append, List.length_singleton] at hlength
      omega

/-- Chunks that are skipped leave the import as it is. -/
theorem chunks_of_skips {cs : List ExportedChunk} {r : ImportRun}
    (h : ∀ c ∈ cs, r.Skips overwrite c) : r.chunks overwrite now cs = (r, true) := by
  induction cs with
  | nil => rfl
  | cons c cs ih =>
    obtain ⟨hc, hcs⟩ := List.forall_mem_cons.1 h
    have hc' : overwrite = false ∧ c.id ∈ r.store.conn.working.chunkIds := hc
    rw [ImportRun.chunks, if_pos hc']
    exact ih hcs

end

/-! ### A call -/

section

variable {s : MemoryStore} {overwrite : Bool} {now : ℚ}

theorem conn_upsertFile (s : MemoryStore) (path : String) (row : FileRow) :
    (s.exec (.upsertFile path row) none).1.conn =
      ⟨s.conn.working.upsert path row, s.conn.working.upsert path row, false⟩ :=
  rfl

theorem StoreTexted.foldl_file {files : List ExportedFile} {r : ImportRun}
    (h : StoreTexted floor r.store) :
    StoreTexted floor (files.foldl (ImportRun.file overwrite) r).store := by
  induction files generalizing r with
  | nil => exact h
  | cons f files ih =>
    refine ih ?_
    unfold ImportRun.file
    split_ifs
    · exact h
    · have hop : MakesNew floor (.upsertFile f.path ⟨f.source, f.hash, f.mtime, f.size⟩) := trivial
      exact h.exec hop none

/-- The files are there, and no chunk is touched. -/
theorem rows_foldl_file (overwrite : Bool) (files : List ExportedFile) (r : ImportRun) :
    (files.foldl (ImportRun.file overwrite) r).importedChunks = r.importedChunks ∧
      (files.foldl (ImportRun.file overwrite) r).store.conn.working.chunks =
        r.store.conn.working.chunks ∧
      ∀ path, (r.store.conn.working.files.get? path).isSome ∨ (∃ f ∈ files, f.path = path) →
        ((files.foldl (ImportRun.file overwrite) r).store.conn.working.files.get? path).isSome := by
  induction files generalizing r with
  | nil => exact ⟨rfl, rfl, fun path h => h.elim id (by simp)⟩
  | cons f files ih =>
    have hfirst : (r.file overwrite f).importedChunks = r.importedChunks ∧
        (r.file overwrite f).store.conn.working.chunks = r.store.conn.working.chunks ∧
        ∀ path, (r.store.conn.working.files.get? path).isSome ∨ f.path = path →
          ((r.file overwrite f).store.conn.working.files.get? path).isSome := by
      unfold ImportRun.file
      split_ifs with hskip
      · refine ⟨rfl, rfl, fun path h => ?_⟩
        rcases h with h | rfl
        · exact h
        · exact hskip.2
      · refine ⟨rfl, rfl, fun path h => ?_⟩
        simp only [conn_upsertFile, Tables.upsert, Dict.get?_set]
        split_ifs with hpath
        · rfl
        · exact h.resolve_right fun h => hpath h.symm
    obtain ⟨himported, hchunks, hfiles⟩ := hfirst
    obtain ⟨himported', hchunks', hfiles'⟩ := ih (r.file overwrite f)
    refine ⟨himported'.trans himported, hchunks'.trans hchunks, fun path h => hfiles' path ?_⟩
    rcases h with h | ⟨f', hf', rfl⟩
    · exact Or.inl (hfiles path (Or.inl h))
    · rcases List.mem_cons.1 hf' with rfl | hf'
      · exact Or.inl (hfiles _ (Or.inr rfl))
      · exact Or.inr ⟨f', hf', rfl⟩

/-- Every chunk has its file with it. -/
def Payload.Whole (payload : Payload) : Prop :=
  ∀ c ∈ payload.chunks, ∃ f ∈ payload.files, f.path = c.path

theorem whole_exportPayload (t : Tables) (source : Option String) :
    (exportPayload t source).Whole := by
  intro c hc
  obtain ⟨f, hf, hc⟩ := List.mem_flatMap.1 hc
  obtain ⟨row, hrow, rfl⟩ := List.mem_map.1 hc
  have hmem := (List.mem_insertionSort _).1 hrow
  exact ⟨f, hf, (of_decide_eq_true (List.mem_filter.1 hmem).2).symm⟩

variable {payload : Payload}

/-- After the files, no chunk is refused. -/
theorem files_there (hwhole : payload.Whole) (s : MemoryStore) (overwrite : Bool) :
    ∀ c ∈ payload.chunks, ((payload.files.foldl (ImportRun.file overwrite)
      ⟨s, 0, []⟩).store.conn.working.files.get? c.path).isSome := fun c hc =>
  (rows_foldl_file overwrite _ _).2.2 c.path (Or.inr (hwhole c hc))

/-- An import keeps the full texts, whatever it is called with. -/
theorem StoreTexted.importPayload (h : StoreTexted (floorOf []) s) (payload : Payload)
    (overwrite : Bool) (now : ℚ) :
    StoreTexted (floorOf []) (importPayload s payload overwrite now).store := by
  have hfiles : StoreTexted (floorOf []) (payload.files.foldl (ImportRun.file overwrite)
      ⟨s, 0, []⟩).store := h.foldl_file
  have hnone := (rows_foldl_file overwrite payload.files ⟨s, 0, []⟩).1
  unfold Memory.importPayload
  set r := payload.files.foldl (ImportRun.file overwrite) ⟨s, 0, []⟩
  have hids : r.ids = [] := by rw [ImportRun.ids, hnone, List.map_nil]
  have hstart : Texted (floorOf ([] ++ r.ids)) r.store.conn.working := by
    rw [hids]
    exact hfiles.1
  obtain ⟨hworking, hcommitted⟩ := texted_chunks overwrite now payload.chunks hstart
  have hone := hworking.of_append
  rcases hresult : r.chunks overwrite now payload.chunks with ⟨r', _ | _⟩
  all_goals rw [hresult] at hone hcommitted
  · exact ⟨hone, hcommitted ▸ hfiles.2⟩
  · exact ⟨hone, hone⟩

/-- The chunks that a call imports have two full texts afterwards, where they have a vector. -/
theorem StoreTexted.importPayload_of_whole {ids : List String} (h : StoreTexted (floorOf ids) s)
    (hwhole : payload.Whole) (overwrite : Bool) (now : ℚ) :
    StoreTexted (floorOf (ids ++ (Memory.importPayload s payload overwrite now).ids))
      (Memory.importPayload s payload overwrite now).store := by
  have hfiles : StoreTexted (floorOf ids) (payload.files.foldl (ImportRun.file overwrite)
      ⟨s, 0, []⟩).store := h.foldl_file
  have hnone := (rows_foldl_file overwrite payload.files ⟨s, 0, []⟩).1
  have hreturns := chunks_returns overwrite now (files_there hwhole s overwrite)
  unfold Memory.importPayload
  set r := payload.files.foldl (ImportRun.file overwrite) ⟨s, 0, []⟩
  have hids : r.ids = [] := by rw [ImportRun.ids, hnone, List.map_nil]
  have hstart : Texted (floorOf (ids ++ r.ids)) r.store.conn.working := by
    rw [hids, List.append_nil]
    exact hfiles.1
  have hworking := (texted_chunks overwrite now payload.chunks hstart).1
  rcases hresult : r.chunks overwrite now payload.chunks with ⟨r', _ | _⟩
  all_goals rw [hresult] at hworking hreturns
  · cases hreturns
  · exact ⟨hworking, hworking⟩

theorem importPayload_importedChunks (s : MemoryStore) (payload : Payload) (overwrite : Bool)
    (now : ℚ) : (importPayload s payload overwrite now).importedChunks =
      ((payload.files.foldl (ImportRun.file overwrite) ⟨s, 0, []⟩).chunks overwrite now
        payload.chunks).1.importedChunks := by
  unfold importPayload
  rcases (payload.files.foldl (ImportRun.file overwrite) ⟨s, 0, []⟩).chunks overwrite now
    payload.chunks with ⟨r, _ | _⟩ <;> rfl

theorem mem_importedChunks_importPayload {c : ExportedChunk}
    (h : c ∈ (importPayload s payload overwrite now).importedChunks) : c ∈ payload.chunks := by
  rw [importPayload_importedChunks] at h
  refine (mem_importedChunks overwrite now h).resolve_left ?_
  rw [(rows_foldl_file overwrite _ _).1]
  exact List.not_mem_nil

/-- A call imports nothing exactly if it skips every chunk. -/
theorem importedChunks_eq_nil_iff (hwhole : payload.Whole) (s : MemoryStore) (overwrite : Bool)
    (now : ℚ) : (importPayload s payload overwrite now).importedChunks = [] ↔
      ∀ c ∈ payload.chunks, overwrite = false ∧ c.id ∈ s.conn.working.chunkIds := by
  obtain ⟨hnone, hchunks, -⟩ := rows_foldl_file overwrite payload.files ⟨s, 0, []⟩
  have hiff := importedChunks_eq_iff overwrite now (files_there hwhole s overwrite)
  rw [hnone] at hiff
  rw [importPayload_importedChunks, hiff]
  unfold ImportRun.Skips
  rw [Tables.chunkIds, Tables.chunkIds, hchunks]

/-- A call that skips every chunk touches none. -/
theorem chunks_importPayload
    (h : ∀ c ∈ payload.chunks, overwrite = false ∧ c.id ∈ s.conn.working.chunkIds) :
    (importPayload s payload overwrite now).store.conn.working.chunks =
      s.conn.working.chunks := by
  obtain ⟨-, hchunks, -⟩ := rows_foldl_file overwrite payload.files ⟨s, 0, []⟩
  have hskips : ∀ c ∈ payload.chunks, (payload.files.foldl (ImportRun.file overwrite)
      ⟨s, 0, []⟩).Skips overwrite c := by
    intro c hc
    unfold ImportRun.Skips
    rw [Tables.chunkIds, hchunks]
    exact h c hc
  unfold importPayload
  rw [chunks_of_skips overwrite now hskips]
  exact hchunks

end

/-! ### All calls -/

section

variable {payload : Payload} {s : MemoryStore}

theorem StoreTexted.importAll {ids : List String} (h : StoreTexted (floorOf ids) s)
    (hwhole : payload.Whole) (calls : List (Bool × ℚ)) :
    StoreTexted (floorOf (ids ++ (importAll payload s calls).2.map ExportedChunk.id))
      (importAll payload s calls).1 := by
  induction calls generalizing s ids with
  | nil =>
    rw [Memory.importAll, List.map_nil, List.append_nil]
    exact h
  | cons call calls ih =>
    obtain ⟨overwrite, now⟩ := call
    have hrest := ih (h.importPayload_of_whole hwhole overwrite now)
    rw [List.append_assoc, ImportRun.ids, ← List.map_append] at hrest
    exact hrest

theorem mem_importAll {calls : List (Bool × ℚ)} {c : ExportedChunk}
    (h : c ∈ (importAll payload s calls).2) : c ∈ payload.chunks := by
  induction calls generalizing s with
  | nil => cases h
  | cons call calls ih =>
    rcases List.mem_append.1 h with h | h
    · exact mem_importedChunks_importPayload h
    · exact ih h

theorem importAll_eq_nil_iff (hwhole : payload.Whole) (s : MemoryStore)
    (calls : List (Bool × ℚ)) : (importAll payload s calls).2 = [] ↔
      ∀ call ∈ calls, ∀ c ∈ payload.chunks,
        call.1 = false ∧ c.id ∈ s.conn.working.chunkIds := by
  induction calls generalizing s with
  | nil => exact iff_of_true rfl fun call hcall => absurd hcall List.not_mem_nil
  | cons call calls ih =>
    obtain ⟨overwrite, now⟩ := call
    rw [importAll, List.append_eq_nil_iff, List.forall_mem_cons,
      importedChunks_eq_nil_iff hwhole s overwrite now]
    refine and_congr_right fun hskips => ?_
    rw [ih, Tables.chunkIds, chunks_importPayload hskips]
    rfl

theorem importsNone_iff (t : Tables) (payload : Payload) (calls : List (Bool × ℚ)) :
    ImportsNone t payload calls ↔
      ∀ call ∈ calls, ∀ c ∈ payload.chunks, call.1 = false ∧ c.id ∈ t.chunkIds := by
  unfold ImportsNone
  constructor
  · rintro (rfl | hnone | ⟨hcalls, hchunks⟩) call hcall c hc
    · cases hcall
    · rw [hnone] at hc
      cases hc
    · exact ⟨hcalls call hcall, hchunks c hc⟩
  · intro h
    rcases calls with _ | ⟨first, calls⟩
    · exact Or.inl rfl
    · rcases hchunks : payload.chunks with _ | ⟨c₀, cs⟩
      · exact Or.inr (Or.inl rfl)
      · rw [hchunks] at h
        exact Or.inr (Or.inr ⟨fun call hcall => (h call hcall c₀ List.mem_cons_self).1,
          fun c hc => (h first List.mem_cons_self c hc).2⟩)

end

/-! ## Runs -/

/-- Every event keeps the full texts. -/
theorem StoreTexted.memoryStep {corpus : Corpus} {s : MemoryStore}
    (h : StoreTexted (floorOf []) s) (e : MemoryEvent) :
    StoreTexted (floorOf []) (memoryStep corpus s e) := by
  have hone (id : String) : floorOf [] id ≤ 1 := by simp [floorOf]
  rcases e with (⟨op, fault⟩ | ⟨model, scans⟩) | ⟨id, fault⟩ | ⟨payload, overwrite, now⟩
  · refine h.exec ?_ fault
    cases op with
    | replaceChunksForFile => exact fun c _ => hone c.id
    | _ => trivial
  · exact h.operations (operations_of_makesNew corpus model false fun scan _ e _ n => hone _)
  · refine Connection.through_run ?_ h.2 fault
    have hrest (t : Tables) (ht : Texted (floorOf []) t) : Through (Texted (floorOf []))
        [write fun t => { t with chunks := t.chunks.filter (·.id ≠ id) }, .commit] t :=
      ht.through_write rfl rfl fun _ => Texted.through_commit
    unfold deleteChunkStatements
    split_ifs
    · have hprogram := h.1.through_deleteIndexed [id] hrest
      rwa [deleteIndexed, if_neg (List.cons_ne_nil _ _)] at hprogram
    · exact h.1
  · exact h.importPayload payload overwrite now

/-- Whatever the store went through and whatever the sync finds, every imported chunk has one row
in each of the tables exactly if no chunk was imported. The sync makes ids of its own. -/
theorem oneRowEach_iff (corpus : Corpus) (es : List MemoryEvent) (exporter : Tables)
    (source : Option String) (calls : List (Bool × ℚ)) (model : String) (scans : List SourceScan)
    (hnew : ∀ scan ∈ scans, ∀ e ∈ scan.files, ∀ n,
      e.2.ids n ∉ (exportPayload exporter source).ids) :
    (∀ c ∈ (importAll (exportPayload exporter source)
        (es.foldl (memoryStep corpus) {}) calls).2,
      OneRowEach (syncSources corpus model (importAll (exportPayload exporter source)
        (es.foldl (memoryStep corpus) {}) calls).1 false scans).conn.working c.id) ↔
      ImportsNone (es.foldl (memoryStep corpus) {}).conn.working (exportPayload exporter source)
        calls := by
  have hwhole := whole_exportPayload exporter source
  have hstart : StoreTexted (floorOf []) (es.foldl (memoryStep corpus) {}) :=
    foldl_invariant (fun _ e h => h.memoryStep e)
      ⟨fun id hid => absurd hid List.not_mem_nil, fun id hid => absurd hid List.not_mem_nil⟩ es
  generalize es.foldl (memoryStep corpus) {} = s at hstart ⊢
  have himported := hstart.importAll hwhole calls
  rw [List.nil_append] at himported
  rw [importsNone_iff, ← importAll_eq_nil_iff hwhole s calls]
  have hfresh : ∀ scan ∈ scans, SyncMakesNew (floorOf ((importAll (exportPayload exporter source) s
      calls).2.map ExportedChunk.id)) scan := by
    intro scan hscan e he n
    refine (if_neg fun hmem => hnew scan hscan e he n ?_).le
    obtain ⟨c, hc, heq⟩ := List.mem_map.1 hmem
    rw [← heq]
    exact List.mem_map_of_mem (mem_importAll hc)
  have hsynced := (himported.operations (operations_of_makesNew corpus model false hfresh)).1
  constructor
  · intro hrows
    by_contra hne
    obtain ⟨c, hc⟩ := List.exists_mem_of_ne_nil _ hne
    obtain ⟨-, hvec, hfts⟩ := hrows c hc
    have hmem : c.id ∈ (syncSources corpus model (importAll (exportPayload exporter source) s
        calls).1 false scans).conn.working.vecIds := by
      rw [← List.count_pos_iff, hvec]
      exact Nat.one_pos
    have htwo := hsynced c.id hmem
    rw [hfts, floorOf, if_pos (List.mem_map_of_mem hc)] at htwo
    omega
  · intro hnone c hc
    rw [hnone] at hc
    cases hc

/-- The sources have the exported files, with the exported hashes. -/
def HasExported (corpus : Corpus) (payload : Payload) (scans : List SourceScan) : Prop :=
  (scans.flatMap fun scan => scan.files.map fun e =>
      (scan.source, e.1.path, corpus.sha256 e.1.content)).Perm
    (payload.files.map fun f => (f.source, f.path, f.hash))

/-- A store that has synced one file of one chunk. -/
def syncedStore : MemoryStore :=
  indexerStep plainCorpus {} (.sync "m" [oneFile { vectors := some [[1]], ids := fun _ => "c1" }])

/-- The file, in the corpus of another store. -/
def sameFile : SourceScan :=
  oneFile { vectors := some [[1]], ids := fun _ => "c2" }

theorem sameFile_makesNew : ∀ scan ∈ [sameFile], ∀ e ∈ scan.files, ∀ n,
    e.2.ids n ∉ (exportPayload syncedStore.conn.working none).ids := by
  intro scan hscan e he n
  obtain rfl := List.mem_singleton.1 hscan
  obtain rfl := List.mem_singleton.1 he
  have hids : (exportPayload syncedStore.conn.working none).ids = ["c1"] := by decide
  have hnew : "c2" ∉ ["c1"] := by decide
  rw [hids]
  exact hnew

theorem oneRowEach_iff_sameFile :
    (∀ c ∈ (importAll (exportPayload syncedStore.conn.working none) {} [(false, 1)]).2,
      OneRowEach (syncSources plainCorpus "m" (importAll (exportPayload syncedStore.conn.working
        none) {} [(false, 1)]).1 false [sameFile]).conn.working c.id) ↔
      ImportsNone {} (exportPayload syncedStore.conn.working none) [(false, 1)] :=
  oneRowEach_iff plainCorpus [] syncedStore.conn.working none [(false, 1)] "m" [sameFile]
    sameFile_makesNew

/-- The chunk of a file that a store imports has no vector after the sync, which skips the file. -/
theorem importedChunk_no_vector : ¬ ∀ (corpus : Corpus) (es : List MemoryEvent)
    (exporter : Tables) (source : Option String) (calls : List (Bool × ℚ)) (model : String)
    (scans : List SourceScan),
    HasExported corpus (exportPayload exporter source) scans →
    (∀ scan ∈ scans, ∀ e ∈ scan.files, ∀ n,
      e.2.ids n ∉ (exportPayload exporter source).ids) →
    ∀ c ∈ (importAll (exportPayload exporter source) (es.foldl (memoryStep corpus) {}) calls).2,
      OneRowEach (syncSources corpus model (importAll (exportPayload exporter source)
        (es.foldl (memoryStep corpus) {}) calls).1 false scans).conn.working c.id := by
  intro h
  have hsame : HasExported plainCorpus (exportPayload syncedStore.conn.working none)
      [sameFile] := by
    unfold HasExported
    decide
  have hrows := h plainCorpus [] syncedStore.conn.working none [(false, 1)] "m" [sameFile] hsame
    sameFile_makesNew ⟨"c1", "a.md", "memory", 1, 1, "x", "x", "m"⟩
    (List.mem_singleton.2 rfl)
  exact absurd hrows.2.1 (by decide)

end OxenClaw.Memory
