import Mathlib.Logic.Relation
import OxenClaw.Memory.Store

/-!
# The memory indexer

`MemoryIndexer.sync` walks the sources, skips a file whose recorded hash is that of its
content and otherwise chunks and embeds it, records it (`upsertFile`) and stores its chunks
(`replaceChunksForFile`), two transactions of the store. It may break off anywhere : on a
chunking or embedding error, or at a statement of one of its store operations.
-/

namespace OxenClaw.Memory

open Sqlite

/-- A chunk of a text : its first and last line, and what it says. -/
abbrev Piece := ℤ × ℤ × String

/-- How contents are hashed, read and chunked. -/
structure Corpus where
  /-- `sha256_bytes`. -/
  sha256 : List UInt8 → String
  /-- `data.decode("utf-8", errors="replace")`. -/
  decode : List UInt8 → String
  /-- `chunk_markdown`, with the options of the indexer. -/
  chunkMarkdown : String → List Piece
  /-- `sha256_text`. -/
  sha256Text : String → String

/-- The chunks of a content. -/
def Corpus.chunks (corpus : Corpus) (content : List UInt8) : List Piece :=
  corpus.chunkMarkdown (corpus.decode content)

/-- A file the walker yields. -/
structure ScannedFile where
  path : String
  mtime : ℚ
  size : ℕ
  content : List UInt8

/-- What the world does while a file is synced : whether the walk or the chunker raises, what
the embedding gives, the ids of new chunks, and where the store's operations are made to
raise. -/
structure FileIO where
  walkRaises : Bool := false
  chunkerRaises : Bool := false
  /-- The cache's write, if it makes one. -/
  cacheWrite : Option (Option ℕ) := none
  /-- The vectors, where the embedding does not raise. -/
  vectors : Option (List (List ℚ))
  schemaMismatch : Bool := false
  metaFault : Option ℕ := none
  ensureFault : Option ℕ := none
  upsertFault : Option ℕ := none
  replaceFault : Option ℕ := none
  deleteFault : Option ℕ := none
  ids : ℕ → String
  now : ℚ := 0

/-- A source as it is walked : each path once. -/
structure SourceScan where
  source : String
  listRaises : Bool := false
  files : List (ScannedFile × FileIO)
  deleteFault : String → Option ℕ := fun _ => none
  distinct : (files.map fun e => e.1.path).Nodup

/-- Operations in order, up to the first that raises. -/
def MemoryStore.runCalls : MemoryStore → List (StoreOp × Option ℕ) → MemoryStore × Bool
  | s, [] => (s, true)
  | s, (op, fault) :: calls =>
    match s.exec op fault with
    | (s', true) => runCalls s' calls
    | (s', false) => (s', false)

section

variable (corpus : Corpus)

/-- The row `upsert_file` records. -/
def fileRow (source : String) (f : ScannedFile) : FileRow :=
  ⟨source, corpus.sha256 f.content, f.mtime, f.size⟩

/-- `chunk_rows` with the ids the store makes. -/
def chunkRows (f : ScannedFile) (vectors : List (List ℚ)) (ids : ℕ → String) : List NewChunk :=
  ((corpus.chunks f.content).zip vectors).zipIdx.map fun e =>
    { id := ids e.2, startLine := e.1.1.1, endLine := e.1.1.2.1, text := e.1.1.2.2
      hash := corpus.sha256Text e.1.1.2.2, embedding := e.1.2 }

/-- The cache's write. -/
def cacheCalls (io : FileIO) : List (StoreOp × Option ℕ) :=
  (io.cacheWrite.map fun fault => (StoreOp.metaWrite, fault)).toList

/-- What goes before a changed file is recorded : the cache's write, and once a sync
`ensure_schema_meta`. -/
def prepareFile (s : MemoryStore) (metaDone : Bool) (vectors : List (List ℚ)) (io : FileIO) :
    MemoryStore × Bool :=
  match s.runCalls (cacheCalls io) with
  | (s', true) =>
    if metaDone then (s', true)
    else if vectors = [] ∨ io.schemaMismatch then (s', false)
    else
      s'.runCalls [(.metaWrite, io.metaFault),
        (.ensureVecTable (vectors.headD []).length, io.ensureFault)]
  | (s', false) => (s', false)

/-- A changed file is recorded, then its chunks are stored, with one vector each. -/
def storeFile (s : MemoryStore) (source model : String) (f : ScannedFile)
    (vectors : List (List ℚ)) (io : FileIO) : MemoryStore × Bool :=
  match s.exec (.upsertFile f.path (fileRow corpus source f)) io.upsertFault with
  | (s', true) =>
    if vectors.length = (corpus.chunks f.content).length then
      s'.exec (.replaceChunksForFile f.path source model (chunkRows corpus f vectors io.ids) io.now)
        io.replaceFault
    else (s', false)
  | (s', false) => (s', false)

/-- The body of `sync` for one file, with whether it goes on and whether `ensure_schema_meta`
has been called. -/
def syncFile (s : MemoryStore) (metaDone : Bool) (source model : String) (prev : Option FileRow)
    (f : ScannedFile) (io : FileIO) : MemoryStore × Bool × Bool :=
  if io.walkRaises then (s, false, metaDone)
  else if prev.any (·.hash = corpus.sha256 f.content) then
    if prev.any fun p => p.mtime ≠ f.mtime ∨ p.size ≠ f.size then
      let r := s.exec (.upsertFile f.path (fileRow corpus source f)) io.upsertFault
      (r.1, r.2, metaDone)
    else (s, true, metaDone)
  else if io.chunkerRaises then (s, false, metaDone)
  else if corpus.chunks f.content = [] then
    if prev.isSome then
      let r := s.exec (.deleteFile f.path) io.deleteFault
      (r.1, r.2, metaDone)
    else (s, true, metaDone)
  else
    match io.vectors with
    | none => ((s.runCalls (cacheCalls io)).1, false, metaDone)
    | some vectors =>
      match prepareFile s metaDone vectors io with
      | (s', true) =>
        let r := storeFile corpus s' source model f vectors io
        (r.1, r.2, true)
      | (s', false) => (s', false, metaDone)

/-- The files of a source, up to one whose sync raises. -/
def syncFiles (source model : String) (existing : Dict String FileRow) :
    MemoryStore → Bool → List (ScannedFile × FileIO) → MemoryStore × Bool × Bool
  | s, metaDone, [] => (s, true, metaDone)
  | s, metaDone, (f, io) :: files =>
    match syncFile corpus s metaDone source model (existing.get? f.path) f io with
    | (s', true, metaDone') => syncFiles source model existing s' metaDone' files
    | (s', false, metaDone') => (s', false, metaDone')

/-- `list_files(source=..)`. -/
def existingFiles (t : Tables) (source : String) : Dict String FileRow :=
  t.files.filter fun e => e.2.source = source

/-- The deletion of the files that are gone. -/
def goneCalls (existing : Dict String FileRow) (scan : SourceScan) :
    List (StoreOp × Option ℕ) :=
  (existing.keys.filter fun path => path ∉ scan.files.map fun e => e.1.path).map fun path =>
    (.deleteFile path, scan.deleteFault path)

/-- The files of a source, then the deletion of those that are gone. -/
def syncSource (s : MemoryStore) (metaDone : Bool) (model : String) (scan : SourceScan) :
    MemoryStore × Bool × Bool :=
  let existing := existingFiles s.conn.working scan.source
  if scan.listRaises then (s, false, metaDone) else
  match syncFiles corpus scan.source model existing s metaDone scan.files with
  | (s', true, metaDone') =>
    let r := s'.runCalls (goneCalls existing scan)
    (r.1, r.2, metaDone')
  | (s', false, metaDone') => (s', false, metaDone')

/-- `sync` over its sources. -/
def syncSources (model : String) : MemoryStore → Bool → List SourceScan → MemoryStore
  | s, _, [] => s
  | s, metaDone, scan :: scans =>
    match syncSource corpus s metaDone model scan with
    | (s', true, metaDone') => syncSources model s' metaDone' scans
    | (s', false, _) => s'

/-- An operation of the store, or a sync. -/
inductive IndexerEvent where
  | store (op : StoreOp) (fault : Option ℕ)
  | sync (model : String) (sources : List SourceScan)

def indexerStep (s : MemoryStore) : IndexerEvent → MemoryStore
  | .store op fault => (s.exec op fault).1
  | .sync model sources => syncSources corpus model s false sources

end

/-! ## A sync is operations of the store -/

/-- Operations of the store with `P`, each of which may raise anywhere. -/
def Operations (P : StoreOp → Prop) : MemoryStore → MemoryStore → Prop :=
  Relation.ReflTransGen fun s s' => ∃ op fault, P op ∧ s' = (s.exec op fault).1

/-- What a sync may do at any time. -/
structure Housekeeping (P : StoreOp → Prop) : Prop where
  metaWrite : P .metaWrite
  ensureVecTable : ∀ dim, P (.ensureVecTable dim)
  deleteFile : ∀ path, P (.deleteFile path)

/-- What the sync of a file may do to store it. -/
structure MayStore (P : StoreOp → Prop) (corpus : Corpus) (source model : String)
    (existing : Dict String FileRow) (e : ScannedFile × FileIO) : Prop where
  upsert : (existing.get? e.1.path).any (·.hash = corpus.sha256 e.1.content) = true ∨
    corpus.chunks e.1.content ≠ [] → P (.upsertFile e.1.path (fileRow corpus source e.1))
  replace : corpus.chunks e.1.content ≠ [] → ∀ vectors,
    P (.replaceChunksForFile e.1.path source model (chunkRows corpus e.1 vectors e.2.ids) e.2.now)

section

variable {P : StoreOp → Prop} {corpus : Corpus} {s : MemoryStore} {source model : String}
  {existing : Dict String FileRow}

theorem operations_exec (op : StoreOp) (hop : P op) (fault : Option ℕ) :
    Operations P s (s.exec op fault).1 :=
  .single ⟨op, fault, hop, rfl⟩

theorem operations_runCalls {calls : List (StoreOp × Option ℕ)}
    (hcalls : ∀ call ∈ calls, P call.1) :
    Operations P s (s.runCalls calls).1 := by
  induction calls generalizing s with
  | nil => exact .refl
  | cons call calls ih =>
    obtain ⟨op, fault⟩ := call
    have hfirst : Operations P s (s.exec op fault).1 :=
      operations_exec op (hcalls _ List.mem_cons_self) fault
    rw [MemoryStore.runCalls]
    rcases hresult : s.exec op fault with ⟨s', _ | _⟩
    all_goals rw [hresult] at hfirst
    · exact hfirst
    · exact hfirst.trans (ih fun call hcall => hcalls call (List.mem_cons_of_mem _ hcall))

theorem operations_cacheCalls (h : Housekeeping P) (io : FileIO) :
    Operations P s (s.runCalls (cacheCalls io)).1 :=
  operations_runCalls (by simp [cacheCalls, h.metaWrite])

theorem operations_prepareFile (h : Housekeeping P) (metaDone : Bool) (vectors : List (List ℚ))
    (io : FileIO) : Operations P s (prepareFile s metaDone vectors io).1 := by
  have hfirst : Operations P s (s.runCalls (cacheCalls io)).1 := operations_cacheCalls h io
  unfold prepareFile
  rcases hresult : s.runCalls (cacheCalls io) with ⟨s', _ | _⟩
  all_goals rw [hresult] at hfirst
  · exact hfirst
  · dsimp only
    split_ifs
    · exact hfirst
    · exact hfirst
    · exact hfirst.trans (operations_runCalls (by simp [h.metaWrite, h.ensureVecTable]))

theorem operations_storeFile {e : ScannedFile × FileIO}
    (h : MayStore P corpus source model existing e) (hchunks : corpus.chunks e.1.content ≠ [])
    (vectors : List (List ℚ)) :
    Operations P s (storeFile corpus s source model e.1 vectors e.2).1 := by
  have hfirst : Operations P s
      (s.exec (.upsertFile e.1.path (fileRow corpus source e.1)) e.2.upsertFault).1 :=
    operations_exec _ (h.upsert (.inr hchunks)) _
  unfold storeFile
  rcases hresult : s.exec (.upsertFile e.1.path (fileRow corpus source e.1)) e.2.upsertFault with
    ⟨s', _ | _⟩
  all_goals rw [hresult] at hfirst
  · exact hfirst
  · dsimp only
    split_ifs
    · exact hfirst.trans (operations_exec _ (h.replace hchunks vectors) _)
    · exact hfirst

theorem operations_syncFile (hkeeping : Housekeeping P) {e : ScannedFile × FileIO}
    (h : MayStore P corpus source model existing e) (metaDone : Bool) : Operations P s
      (syncFile corpus s metaDone source model (existing.get? e.1.path) e.1 e.2).1 := by
  unfold syncFile
  split_ifs with _ hskip _ _ hnone
  · exact .refl
  · exact operations_exec _ (h.upsert (.inl hskip)) _
  · exact .refl
  · exact .refl
  · exact operations_exec _ (hkeeping.deleteFile _) _
  · exact .refl
  · rcases e.2.vectors with _ | vectors
    · exact operations_cacheCalls hkeeping e.2
    · have hfirst : Operations P s (prepareFile s metaDone vectors e.2).1 :=
        operations_prepareFile hkeeping metaDone vectors e.2
      dsimp only
      rcases hresult : prepareFile s metaDone vectors e.2 with ⟨s', _ | _⟩
      all_goals rw [hresult] at hfirst
      · exact hfirst
      · exact hfirst.trans (operations_storeFile h hnone vectors)

theorem operations_syncFiles (hkeeping : Housekeeping P) {files : List (ScannedFile × FileIO)}
    (h : ∀ e ∈ files, MayStore P corpus source model existing e) (metaDone : Bool) :
    Operations P s (syncFiles corpus source model existing s metaDone files).1 := by
  induction files generalizing s metaDone with
  | nil => exact .refl
  | cons e files ih =>
    have hfirst : Operations P s
        (syncFile corpus s metaDone source model (existing.get? e.1.path) e.1 e.2).1 :=
      operations_syncFile hkeeping (h e List.mem_cons_self) metaDone
    rw [syncFiles]
    rcases hresult : syncFile corpus s metaDone source model (existing.get? e.1.path) e.1 e.2 with
      ⟨s', _ | _, metaDone'⟩
    all_goals rw [hresult] at hfirst
    · exact hfirst
    · exact hfirst.trans (ih (fun e he => h e (List.mem_cons_of_mem _ he)) metaDone')

theorem operations_goneCalls (hkeeping : Housekeeping P) (existing : Dict String FileRow)
    (scan : SourceScan) : Operations P s (s.runCalls (goneCalls existing scan)).1 := by
  refine operations_runCalls fun call hcall => ?_
  obtain ⟨path, -, rfl⟩ := List.mem_map.1 hcall
  exact hkeeping.deleteFile path

theorem operations_syncSource (hkeeping : Housekeeping P) {scan : SourceScan} (metaDone : Bool)
    (h : ∀ e ∈ scan.files,
      MayStore P corpus scan.source model (existingFiles s.conn.working scan.source) e) :
    Operations P s (syncSource corpus s metaDone model scan).1 := by
  have hfiles := operations_syncFiles (s := s) hkeeping h metaDone
  unfold syncSource
  dsimp only
  split_ifs
  · exact .refl
  · rcases hresult : syncFiles corpus scan.source model
        (existingFiles s.conn.working scan.source) s metaDone scan.files with ⟨s', _ | _, metaDone'⟩
    all_goals rw [hresult] at hfiles
    · exact hfiles
    · exact hfiles.trans (operations_goneCalls hkeeping _ scan)

/-- A sync is operations of the store, whatever it finds and wherever it breaks off. -/
theorem operations_syncSources (hkeeping : Housekeeping P) (metaDone : Bool)
    {scans : List SourceScan}
    (h : ∀ scan ∈ scans, ∀ existing, ∀ e ∈ scan.files,
      MayStore P corpus scan.source model existing e) :
    Operations P s (syncSources corpus model s metaDone scans) := by
  induction scans generalizing s metaDone with
  | nil => exact .refl
  | cons scan scans ih =>
    have hfirst : Operations P s (syncSource corpus s metaDone model scan).1 :=
      operations_syncSource hkeeping metaDone (h scan List.mem_cons_self _)
    rw [syncSources]
    rcases hresult : syncSource corpus s metaDone model scan with ⟨s', _ | _, metaDone'⟩
    all_goals rw [hresult] at hfirst
    · exact hfirst
    · exact hfirst.trans (ih metaDone' fun scan hscan => h scan (List.mem_cons_of_mem _ hscan))

end

end OxenClaw.Memory
