import Mathlib.Data.Rat.Defs
import OxenClaw.Lib.Dict
import OxenClaw.Lib.Runs
import OxenClaw.Lib.Sqlite

/-!
# The memory store

`MemoryStore` keeps a file's chunks in three tables by hand : the chunks, their vectors and
their full text. Each operation is its statements on one connection, and may raise at any of
them (`MemoryStore.exec`). Only `replaceChunksForFile` rolls back when it raises; the others
leave their transaction open, and the next `commit` on the connection, whoever makes it,
commits what they did so far.

`Synced` : the three tables have the same chunk ids, none twice. A transaction left open only
ever lacks rows (`Inv.shrunk`), and the committed tables are synced along a run exactly if no
operation commits while rows it does not delete itself are missing from some of the tables
(`synced_run_iff`).
-/

namespace OxenClaw.Memory

open Sqlite

/-- A row of `files`, under its path. -/
structure FileRow where
  source : String
  hash : String
  mtime : ℚ
  size : ℕ
  deriving DecidableEq

/-- A row of `chunks`. -/
structure ChunkRow where
  id : String
  path : String
  source : String
  startLine : ℤ
  endLine : ℤ
  hash : String
  text : String
  model : String
  updatedAt : ℚ
  deriving DecidableEq

/-- A row of `chunks_vec`. -/
structure VecRow where
  chunkId : String
  embedding : List ℚ

/-- A row of `chunks_fts`. -/
structure FtsRow where
  text : String
  chunkId : String
  path : String
  source : String

/-- The tables the store keeps files and chunks in. `vecDim` is the dimension `chunks_vec` was
made with, where it exists. -/
structure Tables where
  files : Dict String FileRow := []
  chunks : List ChunkRow := []
  vec : List VecRow := []
  fts : List FtsRow := []
  vecDim : Option ℕ := none

namespace Tables

def chunkIds (t : Tables) : List String :=
  t.chunks.map ChunkRow.id

def vecIds (t : Tables) : List String :=
  t.vec.map VecRow.chunkId

def ftsIds (t : Tables) : List String :=
  t.fts.map FtsRow.chunkId

/-- `SELECT id FROM chunks WHERE path = ?`. -/
def idsOf (t : Tables) (path : String) : List String :=
  (t.chunks.filter (·.path = path)).map ChunkRow.id

/-- `DELETE FROM chunks_vec WHERE chunk_id IN (..)`. -/
def deleteVec (ids : List String) (t : Tables) : Tables :=
  { t with vec := t.vec.filter (·.chunkId ∉ ids) }

/-- `DELETE FROM chunks_fts WHERE chunk_id IN (..)`. -/
def deleteFts (ids : List String) (t : Tables) : Tables :=
  { t with fts := t.fts.filter (·.chunkId ∉ ids) }

/-- `DELETE FROM chunks WHERE path = ?`. -/
def deleteChunks (path : String) (t : Tables) : Tables :=
  { t with chunks := t.chunks.filter (·.path ≠ path) }

/-- `DELETE FROM files WHERE path = ?`, which takes the file's chunks along. -/
def deleteFile (path : String) (t : Tables) : Tables :=
  { t with files := t.files.erase path, chunks := t.chunks.filter (·.path ≠ path) }

/-- `INSERT INTO chunks` : the id is new and the file exists. -/
def insertChunk (row : ChunkRow) (t : Tables) : Option Tables :=
  if row.id ∈ t.chunkIds ∨ (t.files.get? row.path).isNone then none
  else some { t with chunks := t.chunks ++ [row] }

/-- `INSERT INTO chunks_vec` : the id is new and the vector has the table's dimension. -/
def insertVec (row : VecRow) (t : Tables) : Option Tables :=
  if row.chunkId ∈ t.vecIds ∨ t.vecDim ≠ some row.embedding.length then none
  else some { t with vec := t.vec ++ [row] }

/-- `INSERT INTO chunks_fts`. -/
def insertFts (row : FtsRow) (t : Tables) : Tables :=
  { t with fts := t.fts ++ [row] }

/-- `INSERT INTO files .. ON CONFLICT(path) DO UPDATE`. -/
def upsert (path : String) (row : FileRow) (t : Tables) : Tables :=
  { t with files := t.files.set path row }

/-- `CREATE VIRTUAL TABLE IF NOT EXISTS chunks_vec`. -/
def createVec (dim : ℕ) (t : Tables) : Tables :=
  { t with vecDim := t.vecDim.or (some dim) }

end Tables

/-- A statement that no constraint refuses. -/
def write (f : Tables → Tables) : Statement Tables :=
  .write fun t => some (f t)

/-- A statement on `chunks_vec`, which compiles where the table exists. -/
def vecWrite (t : Tables) (f : Tables → Tables) : Statement Tables :=
  if t.vecDim.isNone then .invalid else write f

/-- A chunk to be stored, under the id `new_chunk_id` made for it. -/
structure NewChunk where
  id : String
  startLine : ℤ
  endLine : ℤ
  text : String
  hash : String
  embedding : List ℚ

/-- The operations of the store that write. `metaWrite` stands for those that write no file
and no chunk : `ensure_schema_meta` up to its `commit`, and the embedding cache. -/
inductive StoreOp where
  | upsertFile (path : String) (row : FileRow)
  | deleteFile (path : String)
  | replaceChunksForFile (path source model : String) (chunks : List NewChunk) (now : ℚ)
  | clearAll
  | ensureVecTable (dim : ℕ)
  | metaWrite

/-- The store : its connection, and the dimension it knows its vector table to have. -/
structure MemoryStore where
  conn : Connection Tables := ⟨{}, {}, false⟩
  dim : Option ℕ := none

/-- `DELETE`s of the vectors and full texts of chunks, where there are any. -/
def deleteIndexed (t : Tables) (ids : List String) : List (Statement Tables) :=
  if ids = [] then []
  else [vecWrite t (Tables.deleteVec ids), write (Tables.deleteFts ids)]

/-- The statements of `delete_file` before its `commit`. -/
def deleteFileStatements (t : Tables) (path : String) : List (Statement Tables) :=
  .select :: deleteIndexed t (t.idsOf path) ++
    [write (Tables.deleteChunks path), write (Tables.deleteFile path)]

/-- The statements of `clear_all` before its `commit`. -/
def clearAllStatements (t : Tables) : List (Statement Tables) :=
  [vecWrite t fun t => { t with vec := [] }, write fun t => { t with fts := [] },
    write fun t => { t with chunks := [] }, write fun t => { t with files := [], chunks := [] }]

/-- The three `INSERT`s of one chunk. -/
def insertStatements (path source model : String) (now : ℚ) (c : NewChunk) :
    List (Statement Tables) :=
  [.write (Tables.insertChunk
      ⟨c.id, path, source, c.startLine, c.endLine, c.hash, c.text, model, now⟩),
    .write (Tables.insertVec ⟨c.id, c.embedding⟩),
    write (Tables.insertFts ⟨c.text, c.id, path, source⟩)]

/-- The statements of `replace_chunks_for_file` after its `BEGIN` and before its `commit`. -/
def replaceStatements (t : Tables) (path source model : String) (chunks : List NewChunk)
    (now : ℚ) : List (Statement Tables) :=
  .select :: deleteIndexed t (t.idsOf path) ++ write (Tables.deleteChunks path) ::
    chunks.flatMap (insertStatements path source model now)

namespace MemoryStore

/-- A program on the connection. -/
def onConn (s : MemoryStore) (ss : List (Statement Tables)) (fault : Option ℕ) :
    MemoryStore × Bool :=
  ({ s with conn := (s.conn.run (ss ++ [.commit]) fault).1 },
    (s.conn.run (ss ++ [.commit]) fault).2)

/-- `_ensure_vec_table`. -/
def ensureVecTable (s : MemoryStore) (dim : ℕ) (fault : Option ℕ) : MemoryStore × Bool :=
  match s.dim with
  | some d => (s, d = dim)
  | none =>
    match s.onConn [.define (Tables.createVec dim)] fault with
    | (s', true) => ({ s' with dim := some dim }, true)
    | (s', false) => (s', false)

/-- `replace_chunks_for_file` from its `try` on. -/
def replaceChunks (s : MemoryStore) (path source model : String) (chunks : List NewChunk)
    (now : ℚ) (fault : Option ℕ) : MemoryStore × Bool :=
  match s.onConn (.begin :: replaceStatements s.conn.working path source model chunks now) fault with
  | (s', true) => (s', true)
  | (s', false) => ({ s' with conn := s'.conn.rollback }, false)

/-- An operation that raises at its statement number `fault`, if it gets there, and whether it
returns. -/
def exec (s : MemoryStore) (op : StoreOp) (fault : Option ℕ) : MemoryStore × Bool :=
  match op with
  | .upsertFile path row => s.onConn [write (Tables.upsert path row)] fault
  | .deleteFile path => s.onConn (deleteFileStatements s.conn.working path) fault
  | .clearAll => s.onConn (clearAllStatements s.conn.working) fault
  | .ensureVecTable dim => s.ensureVecTable dim fault
  | .metaWrite => s.onConn [write id] fault
  | .replaceChunksForFile path source model chunks now =>
    match chunks with
    | [] => s.replaceChunks path source model [] now fault
    | c :: cs =>
      match s.ensureVecTable c.embedding.length fault with
      | (s', true) =>
        s'.replaceChunks path source model (c :: cs) now
          (fault.map (· - if s.dim = none then 2 else 0))
      | (s', false) => (s', false)

def step (s : MemoryStore) (e : StoreOp × Option ℕ) : MemoryStore :=
  (s.exec e.1 e.2).1

end MemoryStore

/-! ## Chunks in three tables -/

/-- The chunks, their vectors and their full texts have the same ids, none twice. -/
structure Synced (t : Tables) : Prop where
  chunks : t.chunkIds.Nodup
  vec : t.vecIds.Nodup
  fts : t.ftsIds.Nodup
  same : ∀ id, (id ∈ t.chunkIds ↔ id ∈ t.vecIds) ∧ (id ∈ t.chunkIds ↔ id ∈ t.ftsIds)

/-- The tables have the same ids, but for these. -/
def SameBut (ids : List String) (t : Tables) : Prop :=
  ∀ id ∉ ids, (id ∈ t.chunkIds ↔ id ∈ t.vecIds) ∧ (id ∈ t.chunkIds ↔ id ∈ t.ftsIds)

/-- A statement that adds no chunk to any table. -/
def Shrinks (f : Tables → Tables) : Prop :=
  ∀ t, (f t).chunkIds.Sublist t.chunkIds ∧ (f t).vecIds.Sublist t.vecIds ∧
    (f t).ftsIds.Sublist t.ftsIds ∧ (t.vecDim.isSome → (f t).vecDim.isSome)

/-- The tables a connection sees lack rows of the committed ones at most, and outside a
transaction are the committed ones. -/
structure ConnInv (c : Connection Tables) : Prop where
  chunks : c.working.chunkIds.Sublist c.committed.chunkIds
  vec : c.working.vecIds.Sublist c.committed.vecIds
  fts : c.working.ftsIds.Sublist c.committed.ftsIds
  idle : c.inTransaction = false → c.working = c.committed

/-- A statement of a program that only deletes. -/
def Deletes : Statement Tables → Prop
  | .write f => ∃ g, f = (fun t => some (g t)) ∧ Shrinks g
  | .define f => ∃ dim, f = Tables.createVec dim
  | _ => True

theorem ConnInv.of_committed {c : Connection Tables} (h : c.working = c.committed) : ConnInv c :=
  ⟨h ▸ List.Sublist.refl _, h ▸ List.Sublist.refl _, h ▸ List.Sublist.refl _, fun _ => h⟩

theorem ConnInv.exec {c : Connection Tables} (h : ConnInv c) {s : Statement Tables}
    (hs : Deletes s) : ConnInv (c.exec s).1 := by
  cases s with
  | write f =>
    obtain ⟨g, rfl, hg⟩ := hs
    obtain ⟨hc, hv, hf, -⟩ := hg c.working
    exact ⟨hc.trans h.chunks, hv.trans h.vec, hf.trans h.fts, fun hidle => by simp [Connection.exec] at hidle⟩
  | define f =>
    obtain ⟨dim, rfl⟩ := hs
    rw [Connection.exec]
    split_ifs with htransaction
    · exact ⟨h.chunks, h.vec, h.fts, fun hidle => absurd htransaction (by simpa using hidle)⟩
    · exact .of_committed rfl
  | select => exact h
  | invalid => exact h
  | begin =>
    rw [Connection.exec]
    split_ifs
    · exact h
    · exact ⟨h.chunks, h.vec, h.fts, fun hidle => by simp at hidle⟩
  | commit => exact .of_committed rfl

theorem ConnInv.fail {c : Connection Tables} (h : ConnInv c) (s : Statement Tables) :
    ConnInv (c.fail s) := by
  cases s with
  | write f => exact ⟨h.chunks, h.vec, h.fts, fun hidle => by simp [Connection.fail] at hidle⟩
  | _ => exact h

/-! ## Deleting and storing the chunks of a file -/

/-- The tables without a file's chunks. -/
def purge (path : String) (t : Tables) : Tables :=
  Tables.deleteChunks path (Tables.deleteFts (t.idsOf path) (Tables.deleteVec (t.idsOf path) t))

/-- The tables with more chunks of a file. -/
def storeChunks (path source model : String) (now : ℚ) : List NewChunk → Tables → Option Tables
  | [], t => some t
  | c :: cs, t =>
    (effects (insertStatements path source model now c) t).bind
      (storeChunks path source model now cs)

theorem effects_deleteIndexed {t t' : Tables} {ids : List String}
    (h : effects (deleteIndexed t ids) t = some t') :
    t' = Tables.deleteFts ids (Tables.deleteVec ids t) := by
  unfold deleteIndexed vecWrite at h
  split_ifs at h with hids hvec
  · obtain rfl := Option.some.inj h
    simp [hids, Tables.deleteFts, Tables.deleteVec]
  · simp [effects] at h
  · simpa [effects, write, eq_comm] using h

theorem effects_flatMap (path source model : String) (now : ℚ) (cs : List NewChunk) (t : Tables) :
    effects (cs.flatMap (insertStatements path source model now)) t =
      storeChunks path source model now cs t := by
  induction cs generalizing t with
  | nil => rfl
  | cons c cs ih =>
    rw [List.flatMap_cons, effects_append, storeChunks]
    exact Option.bind_congr fun t' _ => ih t'

theorem effects_deleteFileStatements {t t' : Tables} {path : String}
    (h : effects (deleteFileStatements t path) t = some t') :
    t' = Tables.deleteFile path (purge path t) := by
  rw [deleteFileStatements, List.cons_append, effects_select, effects_append] at h
  obtain ⟨t₁, h₁, h₂⟩ := Option.bind_eq_some_iff.1 h
  rw [effects_deleteIndexed h₁] at h₂
  simpa [effects, write, purge, eq_comm] using h₂

theorem effects_replaceStatements {t t' : Tables} {path source model : String}
    {cs : List NewChunk} {now : ℚ}
    (h : effects (replaceStatements t path source model cs now) t = some t') :
    storeChunks path source model now cs (purge path t) = some t' := by
  rw [replaceStatements, List.cons_append, effects_select, effects_append] at h
  obtain ⟨t₁, h₁, h₂⟩ := Option.bind_eq_some_iff.1 h
  rw [effects_deleteIndexed h₁] at h₂
  rw [← effects_flatMap]
  exact h₂

/-- The ids that remain are those of other files. -/
theorem mem_chunkIds_deleteChunks {t : Tables} (h : t.chunkIds.Nodup) {path id : String} :
    id ∈ (Tables.deleteChunks path t).chunkIds ↔ id ∈ t.chunkIds ∧ id ∉ t.idsOf path := by
  simp only [Tables.chunkIds, Tables.deleteChunks, Tables.idsOf, List.mem_map, List.mem_filter,
    decide_eq_true_eq]
  constructor
  · rintro ⟨row, ⟨hrow, hpath⟩, rfl⟩
    refine ⟨⟨row, hrow, rfl⟩, ?_⟩
    rintro ⟨row', ⟨hrow', hpath'⟩, hid⟩
    have : row' = row := List.inj_on_of_nodup_map h hrow' hrow hid
    exact hpath (this ▸ hpath')
  · rintro ⟨⟨row, hrow, rfl⟩, hnot⟩
    exact ⟨row, ⟨hrow, fun hpath => hnot ⟨row, ⟨hrow, hpath⟩, rfl⟩⟩, rfl⟩

theorem mem_vecIds_purge {t : Tables} {path id : String} :
    id ∈ (purge path t).vecIds ↔ id ∈ t.vecIds ∧ id ∉ t.idsOf path := by
  simp only [purge, Tables.vecIds, Tables.deleteChunks, Tables.deleteFts, Tables.deleteVec,
    List.mem_map, List.mem_filter, decide_eq_true_eq]
  constructor
  · rintro ⟨row, ⟨hrow, hnot⟩, rfl⟩
    exact ⟨⟨row, hrow, rfl⟩, hnot⟩
  · rintro ⟨⟨row, hrow, rfl⟩, hnot⟩
    exact ⟨row, ⟨hrow, hnot⟩, rfl⟩

theorem mem_ftsIds_purge {t : Tables} {path id : String} :
    id ∈ (purge path t).ftsIds ↔ id ∈ t.ftsIds ∧ id ∉ t.idsOf path := by
  simp only [purge, Tables.ftsIds, Tables.deleteChunks, Tables.deleteFts, Tables.deleteVec,
    List.mem_map, List.mem_filter, decide_eq_true_eq]
  constructor
  · rintro ⟨row, ⟨hrow, hnot⟩, rfl⟩
    exact ⟨⟨row, hrow, rfl⟩, hnot⟩
  · rintro ⟨⟨row, hrow, rfl⟩, hnot⟩
    exact ⟨row, ⟨hrow, hnot⟩, rfl⟩

theorem shrinks_purge (path : String) : Shrinks (purge path) := fun _ =>
  ⟨List.filter_sublist.map _, List.filter_sublist.map _, List.filter_sublist.map _, id⟩

/-- Distinct ids in each of the tables. -/
structure Distinct (t : Tables) : Prop where
  chunks : t.chunkIds.Nodup
  vec : t.vecIds.Nodup
  fts : t.ftsIds.Nodup

theorem synced_iff {t : Tables} (h : Distinct t) : Synced t ↔ SameBut [] t :=
  ⟨fun hs id _ => hs.same id, fun hs => ⟨h.chunks, h.vec, h.fts, fun id => hs id (by simp)⟩⟩

/-- Without a file's chunks the tables are synced if they have the same ids but for these. -/
theorem synced_purge_iff {t : Tables} (h : Distinct t) (path : String) :
    Synced (purge path t) ↔ SameBut (t.idsOf path) t := by
  obtain ⟨hc, hv, hf, -⟩ := shrinks_purge path t
  have hchunk : ∀ id, id ∈ (purge path t).chunkIds ↔ id ∈ t.chunkIds ∧ id ∉ t.idsOf path :=
    fun id => mem_chunkIds_deleteChunks h.chunks
  have hdistinct : Distinct (purge path t) := ⟨h.chunks.sublist hc, h.vec.sublist hv, h.fts.sublist hf⟩
  rw [synced_iff hdistinct]
  constructor
  · intro hs id hid
    have := hs id (by simp)
    rw [hchunk, mem_vecIds_purge, mem_ftsIds_purge] at this
    simpa [hid] using this
  · intro hs id _
    rw [hchunk, mem_vecIds_purge, mem_ftsIds_purge]
    by_cases hid : id ∈ t.idsOf path
    · simp [hid]
    · simpa [hid] using hs id hid

theorem chunkIds_deleteFile_purge (path : String) (t : Tables) :
    (Tables.deleteFile path (purge path t)).chunkIds = (purge path t).chunkIds := by
  simp [Tables.chunkIds, Tables.deleteFile, purge, Tables.deleteChunks, List.filter_filter]

/-- Storing a chunk puts a new id into each table. -/
theorem effects_insertStatements {t t' : Tables} {path source model : String} {now : ℚ}
    {c : NewChunk} (h : effects (insertStatements path source model now c) t = some t') :
    c.id ∉ t.chunkIds ∧ t'.chunkIds = t.chunkIds ++ [c.id] ∧ t'.vecIds = t.vecIds ++ [c.id] ∧
      t'.ftsIds = t.ftsIds ++ [c.id] ∧ t'.vecDim = t.vecDim := by
  simp only [insertStatements, write, effects, Option.bind_eq_some_iff, Option.bind_some,
    Option.some.injEq] at h
  obtain ⟨t₁, h₁, t₂, h₂, rfl⟩ := h
  unfold Tables.insertChunk at h₁
  unfold Tables.insertVec at h₂
  split_ifs at h₁ with hrow
  split_ifs at h₂ with hvec
  obtain rfl := Option.some.inj h₁
  obtain rfl := Option.some.inj h₂
  refine ⟨fun hmem => hrow (.inl hmem), ?_, ?_, ?_, rfl⟩
  all_goals simp [Tables.chunkIds, Tables.vecIds, Tables.ftsIds, Tables.insertFts]

theorem Synced.insert {t t' : Tables} (h : Synced t) {id : String} (hid : id ∉ t.chunkIds)
    (hc : t'.chunkIds = t.chunkIds ++ [id]) (hv : t'.vecIds = t.vecIds ++ [id])
    (hf : t'.ftsIds = t.ftsIds ++ [id]) : Synced t' := by
  have hvid : id ∉ t.vecIds := fun hmem => hid ((h.same id).1.2 hmem)
  have hfid : id ∉ t.ftsIds := fun hmem => hid ((h.same id).2.2 hmem)
  have hnodup : ∀ {l : List String}, l.Nodup → id ∉ l → (l ++ [id]).Nodup := by
    intro l hl hnot
    rw [List.nodup_append]
    refine ⟨hl, List.nodup_singleton _, fun a ha b hb => ?_⟩
    rintro rfl
    exact hnot (List.mem_singleton.1 hb ▸ ha)
  refine ⟨hc ▸ hnodup h.chunks hid, hv ▸ hnodup h.vec hvid, hf ▸ hnodup h.fts hfid, fun id' => ?_⟩
  rw [hc, hv, hf]
  simp only [List.mem_append, (h.same id').1]
  rw [← (h.same id').1, (h.same id').2]
  simp

/-- Chunks that are stored are stored in all three tables. -/
theorem Synced.storeChunks {path source model : String} {now : ℚ} {cs : List NewChunk}
    {t t' : Tables} (h : Synced t) (hs : storeChunks path source model now cs t = some t') :
    Synced t' := by
  induction cs generalizing t with
  | nil =>
    obtain rfl := Option.some.inj hs
    exact h
  | cons c cs ih =>
    obtain ⟨t₁, h₁, h₂⟩ := Option.bind_eq_some_iff.1 hs
    obtain ⟨hid, hc, hv, hf, -⟩ := effects_insertStatements h₁
    exact ih (h.insert hid hc hv hf) h₂

theorem vecDim_storeChunks {path source model : String} {now : ℚ} {cs : List NewChunk}
    {t t' : Tables} (hs : storeChunks path source model now cs t = some t') :
    t'.vecDim = t.vecDim := by
  induction cs generalizing t with
  | nil => rw [← Option.some.inj hs]
  | cons c cs ih =>
    obtain ⟨t₁, h₁, h₂⟩ := Option.bind_eq_some_iff.1 hs
    rw [ih h₂, (effects_insertStatements h₁).2.2.2.2]

/-! ## The invariant -/

/-- No chunk is stored. -/
def NoChunks (t : Tables) : Prop :=
  t.chunkIds = [] ∧ t.vecIds = [] ∧ t.ftsIds = []

/-- The store's connection only lacks rows; a store that knows no dimension has no chunk, one
that does has its vector table. -/
structure Inv (s : MemoryStore) : Prop where
  conn : ConnInv s.conn
  empty : s.dim = none → NoChunks s.conn.committed
  made : s.dim.isSome → s.conn.committed.vecDim.isSome ∧ s.conn.working.vecDim.isSome

theorem ConnInv.noChunks {c : Connection Tables} (h : ConnInv c) (hc : NoChunks c.committed) :
    NoChunks c.working :=
  ⟨List.sublist_nil.1 (hc.1 ▸ h.chunks), List.sublist_nil.1 (hc.2.1 ▸ h.vec),
    List.sublist_nil.1 (hc.2.2 ▸ h.fts)⟩

theorem NoChunks.synced {t : Tables} (h : NoChunks t) : Synced t := by
  obtain ⟨hc, hv, hf⟩ := h
  refine ⟨?_, ?_, ?_, fun id => ?_⟩
  · simp [hc]
  · simp [hv]
  · simp [hf]
  · simp [hc, hv, hf]

theorem Inv.exec {c : Connection Tables} {dim : Option ℕ} (h : Inv ⟨c, dim⟩)
    {s : Statement Tables} (hs : Deletes s) : Inv ⟨(c.exec s).1, dim⟩ := by
  refine ⟨h.conn.exec hs, fun hdim => ?_, fun hdim => ?_⟩
  · cases s with
    | write f =>
      obtain ⟨g, rfl, -⟩ := hs
      exact h.empty hdim
    | define f =>
      obtain ⟨d, rfl⟩ := hs
      simp only [Connection.exec]
      split_ifs
      · exact h.empty hdim
      · exact h.conn.noChunks (h.empty hdim)
    | commit => exact h.conn.noChunks (h.empty hdim)
    | begin =>
      simp only [Connection.exec]
      split_ifs <;> exact h.empty hdim
    | _ => exact h.empty hdim
  · obtain ⟨hc, hw⟩ := h.made hdim
    cases s with
    | write f =>
      obtain ⟨g, rfl, hg⟩ := hs
      exact ⟨hc, (hg c.working).2.2.2 hw⟩
    | define f =>
      obtain ⟨d, rfl⟩ := hs
      have hmade : (Tables.createVec d c.working).vecDim.isSome := by
        obtain ⟨d', hd'⟩ := Option.isSome_iff_exists.1 hw
        have hw' : c.working.vecDim = some d' := hd'
        simp [Tables.createVec, hw']
      simp only [Connection.exec]
      split_ifs
      · exact ⟨hc, hmade⟩
      · exact ⟨hmade, hmade⟩
    | commit => exact ⟨hw, hw⟩
    | begin =>
      simp only [Connection.exec]
      split_ifs <;> exact ⟨hc, hw⟩
    | _ => exact ⟨hc, hw⟩

theorem Inv.fail {c : Connection Tables} {dim : Option ℕ} (h : Inv ⟨c, dim⟩)
    (s : Statement Tables) : Inv ⟨c.fail s, dim⟩ := by
  have hfields : (c.fail s).committed = c.committed ∧ (c.fail s).working = c.working := by
    cases s <;> exact ⟨rfl, rfl⟩
  refine ⟨h.conn.fail s, fun hdim => ?_, fun hdim => ?_⟩
  · change NoChunks (c.fail s).committed
    rw [hfields.1]
    exact h.empty hdim
  · change (c.fail s).committed.vecDim.isSome ∧ (c.fail s).working.vecDim.isSome
    rw [hfields.1, hfields.2]
    exact h.made hdim

/-- A program that only deletes keeps the invariant, wherever it raises. -/
theorem Inv.onConn {s : MemoryStore} (h : Inv s) {ss : List (Statement Tables)}
    (hss : ∀ st ∈ ss, Deletes st) (fault : Option ℕ) : Inv (s.onConn ss fault).1 := by
  refine Connection.run_invariant (I := fun c => Inv ⟨c, s.dim⟩) (fun st hst c hc => ?_)
    (fun st _ c hc => hc.fail st) h fault
  rcases List.mem_append.1 hst with hst | hst
  · exact hc.exec (hss st hst)
  · rw [List.mem_singleton.1 hst]
    exact hc.exec trivial

theorem Inv.rollback {c : Connection Tables} {dim : Option ℕ} (h : Inv ⟨c, dim⟩) :
    Inv ⟨c.rollback, dim⟩ :=
  ⟨.of_committed rfl, h.empty, fun hdim => ⟨(h.made hdim).1, (h.made hdim).1⟩⟩

theorem deletes_write {f : Tables → Tables} (h : Shrinks f) : Deletes (write f) :=
  ⟨f, rfl, h⟩

theorem deletes_vecWrite {f : Tables → Tables} (h : Shrinks f) (t : Tables) :
    Deletes (vecWrite t f) := by
  unfold vecWrite
  split_ifs
  · trivial
  · exact deletes_write h

theorem shrinks_deleteVec (ids : List String) : Shrinks (Tables.deleteVec ids) := fun _ =>
  ⟨List.Sublist.refl _, List.filter_sublist.map _, List.Sublist.refl _, id⟩

theorem shrinks_deleteFts (ids : List String) : Shrinks (Tables.deleteFts ids) := fun _ =>
  ⟨List.Sublist.refl _, List.Sublist.refl _, List.filter_sublist.map _, id⟩

theorem shrinks_deleteChunks (path : String) : Shrinks (Tables.deleteChunks path) := fun _ =>
  ⟨List.filter_sublist.map _, List.Sublist.refl _, List.Sublist.refl _, id⟩

theorem shrinks_deleteFile (path : String) : Shrinks (Tables.deleteFile path) := fun _ =>
  ⟨List.filter_sublist.map _, List.Sublist.refl _, List.Sublist.refl _, id⟩

theorem shrinks_of_eq {f : Tables → Tables} (hc : ∀ t, (f t).chunks = t.chunks)
    (hv : ∀ t, (f t).vec = t.vec) (hf : ∀ t, (f t).fts = t.fts)
    (hd : ∀ t, (f t).vecDim = t.vecDim) : Shrinks f := fun t => by
  simp only [Tables.chunkIds, Tables.vecIds, Tables.ftsIds, hc, hv, hf, hd]
  exact ⟨List.Sublist.refl _, List.Sublist.refl _, List.Sublist.refl _, id⟩

theorem deletes_deleteIndexed (t : Tables) (ids : List String) :
    ∀ st ∈ deleteIndexed t ids, Deletes st := by
  unfold deleteIndexed
  split_ifs
  · simp
  · intro st hst
    rcases List.mem_cons.1 hst with rfl | hst
    · exact deletes_vecWrite (shrinks_deleteVec ids) t
    · rw [List.mem_singleton.1 hst]
      exact deletes_write (shrinks_deleteFts ids)

theorem deletes_deleteFileStatements (t : Tables) (path : String) :
    ∀ st ∈ deleteFileStatements t path, Deletes st := by
  intro st hst
  rw [deleteFileStatements, List.cons_append] at hst
  rcases List.mem_cons.1 hst with rfl | hst
  · trivial
  · rcases List.mem_append.1 hst with hst | hst
    · exact deletes_deleteIndexed t _ st hst
    · rcases List.mem_cons.1 hst with rfl | hst
      · exact deletes_write (shrinks_deleteChunks path)
      · rw [List.mem_singleton.1 hst]
        exact deletes_write (shrinks_deleteFile path)

theorem deletes_clearAllStatements (t : Tables) :
    ∀ st ∈ clearAllStatements t, Deletes st := by
  intro st hst
  simp only [clearAllStatements, List.mem_cons, List.not_mem_nil, or_false] at hst
  rcases hst with rfl | rfl | rfl | rfl
  · refine deletes_vecWrite (fun _ => ?_) t
    exact ⟨List.Sublist.refl _, List.nil_sublist _, List.Sublist.refl _, id⟩
  · exact deletes_write fun _ => ⟨List.Sublist.refl _, List.Sublist.refl _,
      List.nil_sublist _, id⟩
  · exact deletes_write fun _ => ⟨List.nil_sublist _, List.Sublist.refl _,
      List.Sublist.refl _, id⟩
  · exact deletes_write fun _ => ⟨List.nil_sublist _, List.Sublist.refl _,
      List.Sublist.refl _, id⟩

theorem deletes_define (dim : ℕ) :
    ∀ st ∈ [Statement.define (Tables.createVec dim)], Deletes st := by
  rintro st hst
  rw [List.mem_singleton.1 hst]
  exact ⟨dim, rfl⟩

theorem Inv.ensureVecTable {s : MemoryStore} (h : Inv s) (dim : ℕ) (fault : Option ℕ) :
    Inv (s.ensureVecTable dim fault).1 := by
  unfold MemoryStore.ensureVecTable
  cases hdim : s.dim with
  | some d => exact h
  | none =>
    have hrun := h.onConn (deletes_define dim) fault
    rcases hresult : s.onConn [.define (Tables.createVec dim)] fault with ⟨s', _ | _⟩
    · rw [hresult] at hrun
      exact hrun
    · rw [hresult] at hrun
      have hreturns : (s.conn.run ([.define (Tables.createVec dim)] ++ [.commit]) fault).2 = true :=
        congrArg Prod.snd hresult
      obtain ⟨t, ht, hconn⟩ := Connection.run_commit_of_returns hreturns
      have hconn' : s'.conn = ⟨t, t, false⟩ := by
        rw [← hconn]
        exact congrArg (fun r => r.1.conn) hresult.symm
      obtain rfl : Tables.createVec dim s.conn.working = t := Option.some.inj ht
      have hmade : (Tables.createVec dim s.conn.working).vecDim.isSome := by
        simp [Tables.createVec]
      refine ⟨hrun.conn, fun hnone => by simp at hnone, fun _ => ?_⟩
      change s'.conn.committed.vecDim.isSome ∧ s'.conn.working.vecDim.isSome
      rw [hconn']
      exact ⟨hmade, hmade⟩

/-- `BEGIN` only returns outside a transaction. -/
theorem run_begin_of_returns {c : Connection Tables} {ss : List (Statement Tables)}
    {fault : Option ℕ} (h : (c.run (.begin :: ss) fault).2 = true) : c.inTransaction = false := by
  by_cases hf : fault = some 0
  · rw [hf, Connection.run_cons_zero] at h
    exact absurd h (by simp)
  · rw [Connection.run_cons hf] at h
    by_contra hc
    have hexec : (c.exec .begin).2 = false := by
      rw [Connection.exec, if_pos (by simpa using hc)]
    rw [if_neg (by simp [hexec])] at h
    exact absurd h (by simp)

theorem inner_replaceStatements (t : Tables) (path source model : String) (cs : List NewChunk)
    (now : ℚ) : ∀ st ∈ Statement.begin :: replaceStatements t path source model cs now,
      st.inner = true := by
  have hindexed : ∀ st ∈ deleteIndexed t (t.idsOf path), st.inner = true := by
    unfold deleteIndexed vecWrite
    split_ifs <;> simp [Statement.inner, write]
  intro st hst
  rw [replaceStatements, List.cons_append] at hst
  simp only [List.mem_cons, List.mem_append, List.mem_flatMap, insertStatements,
    List.not_mem_nil, or_false] at hst
  rcases hst with rfl | rfl | hst | rfl | ⟨c, -, rfl | rfl | rfl⟩
  · rfl
  · rfl
  · exact hindexed st hst
  all_goals rfl

/-- Replacing the chunks of a file either commits the tables with the file's chunks replaced,
from the committed ones, or goes back to these. -/
theorem replaceChunks_cases {s : MemoryStore} (h : Inv s) (path source model : String)
    (cs : List NewChunk) (now : ℚ) (fault : Option ℕ) :
    (∃ t, storeChunks path source model now cs (purge path s.conn.committed) = some t ∧
      s.replaceChunks path source model cs now fault = ({ s with conn := ⟨t, t, false⟩ }, true)) ∨
    s.replaceChunks path source model cs now fault =
      ({ s with conn := ⟨s.conn.committed, s.conn.committed, false⟩ }, false) := by
  unfold MemoryStore.replaceChunks
  set ss := Statement.begin :: replaceStatements s.conn.working path source model cs now with hss
  rcases hresult : s.onConn ss fault with ⟨s', _ | _⟩
  · right
    have hraises : (s.conn.run (ss ++ [.commit]) fault).2 = false := congrArg Prod.snd hresult
    have hcommitted : (s.conn.run (ss ++ [.commit]) fault).1.committed = s.conn.committed :=
      Connection.committed_run_of_raises (inner_replaceStatements _ path source model cs now)
        hraises
    have hs' : s' = { s with conn := (s.conn.run (ss ++ [.commit]) fault).1 } :=
      (congrArg Prod.fst hresult).symm
    simp only [hs', Connection.rollback, hcommitted]
  · left
    have hreturns : (s.conn.run (ss ++ [.commit]) fault).2 = true := congrArg Prod.snd hresult
    have hidle := h.conn.idle (run_begin_of_returns hreturns)
    obtain ⟨t, ht, hconn⟩ := Connection.run_commit_of_returns hreturns
    have hs' : s' = { s with conn := (s.conn.run (ss ++ [.commit]) fault).1 } :=
      (congrArg Prod.fst hresult).symm
    refine ⟨t, ?_, by rw [hs', hconn]⟩
    rw [← hidle]
    exact effects_replaceStatements ht

theorem Inv.replaceChunks {s : MemoryStore} (h : Inv s) (path source model : String)
    {cs : List NewChunk} (hcs : s.dim = none → cs = []) (now : ℚ) (fault : Option ℕ) :
    Inv (s.replaceChunks path source model cs now fault).1 := by
  rcases replaceChunks_cases h path source model cs now fault with ⟨t, ht, hresult⟩ | hresult
  · rw [hresult]
    refine ⟨.of_committed rfl, fun hdim => ?_, fun hdim => ?_⟩
    · rw [hcs hdim] at ht
      obtain rfl := Option.some.inj ht
      obtain ⟨hc, hv, hf, -⟩ := shrinks_purge path s.conn.committed
      obtain ⟨hc', hv', hf'⟩ := h.empty hdim
      exact ⟨List.sublist_nil.1 (hc' ▸ hc), List.sublist_nil.1 (hv' ▸ hv),
        List.sublist_nil.1 (hf' ▸ hf)⟩
    · have hmade : t.vecDim.isSome := by
        rw [vecDim_storeChunks ht]
        exact (h.made hdim).1
      exact ⟨hmade, hmade⟩
  · rw [hresult]
    exact ⟨.of_committed rfl, h.empty, fun hdim => ⟨(h.made hdim).1, (h.made hdim).1⟩⟩

theorem dim_ensureVecTable {s : MemoryStore} {dim : ℕ} {fault : Option ℕ}
    (h : (s.ensureVecTable dim fault).2 = true) :
    (s.ensureVecTable dim fault).1.dim = some dim := by
  unfold MemoryStore.ensureVecTable at h ⊢
  cases hdim : s.dim with
  | some d =>
    rw [hdim] at h
    have hd : d = dim := by simpa using h
    rw [← hd]
    exact hdim
  | none =>
    rw [hdim] at h
    dsimp only at h ⊢
    rcases hresult : s.onConn [.define (Tables.createVec dim)] fault with ⟨s', _ | _⟩
    · simp [hresult] at h
    · rfl

/-- Every operation keeps the invariant, wherever it raises. -/
theorem Inv.step {s : MemoryStore} (h : Inv s) (e : StoreOp × Option ℕ) : Inv (s.step e) := by
  obtain ⟨op, fault⟩ := e
  have hid : ∀ st ∈ [write id], Deletes st := by
    rintro st hst
    rw [List.mem_singleton.1 hst]
    exact deletes_write (shrinks_of_eq (fun _ => rfl) (fun _ => rfl) (fun _ => rfl) fun _ => rfl)
  cases op with
  | upsertFile path row =>
    refine h.onConn (fun st hst => ?_) fault
    rw [List.mem_singleton.1 hst]
    exact deletes_write (shrinks_of_eq (fun _ => rfl) (fun _ => rfl) (fun _ => rfl) fun _ => rfl)
  | deleteFile path => exact h.onConn (deletes_deleteFileStatements _ path) fault
  | clearAll => exact h.onConn (deletes_clearAllStatements _) fault
  | ensureVecTable dim => exact h.ensureVecTable dim fault
  | metaWrite => exact h.onConn hid fault
  | replaceChunksForFile path source model cs now =>
    simp only [MemoryStore.step, MemoryStore.exec]
    cases cs with
    | nil => exact h.replaceChunks path source model (fun _ => rfl) now fault
    | cons c cs =>
      dsimp only
      rcases hresult : s.ensureVecTable c.embedding.length fault with ⟨s', _ | _⟩
      · have := h.ensureVecTable c.embedding.length fault
        rwa [hresult] at this
      · have hinv := h.ensureVecTable c.embedding.length fault
        have hreturns : (s.ensureVecTable c.embedding.length fault).2 = true := by rw [hresult]
        have hdim := dim_ensureVecTable hreturns
        rw [hresult] at hinv hdim
        refine hinv.replaceChunks path source model (fun hnone => ?_) now _
        exact absurd (hdim.symm.trans hnone) (by simp)

/-! ## When an operation returns -/

/-- None of the first `n` statements is made to raise. -/
def Unbroken (n : ℕ) (fault : Option ℕ) : Prop :=
  ∀ k ∈ fault, n ≤ k

/-- The transaction of `replace_chunks_for_file` returns : none is open, the chunks pass the
constraints, and no statement is made to raise. -/
def Stores (s : MemoryStore) (path source model : String) (cs : List NewChunk) (now : ℚ)
    (fault : Option ℕ) : Prop :=
  s.conn.inTransaction = false ∧
    (effects (replaceStatements s.conn.working path source model cs now) s.conn.working).isSome ∧
    Unbroken ((replaceStatements s.conn.working path source model cs now).length + 2) fault

/-- `replace_chunks_for_file` returns, the vector table made first where it is not there. -/
def Replaces (s : MemoryStore) (path source model : String) (cs : List NewChunk) (now : ℚ)
    (fault : Option ℕ) : Prop :=
  match cs, s.dim with
  | [], _ => Stores s path source model [] now fault
  | c :: cs, some dim => dim = c.embedding.length ∧ Stores s path source model (c :: cs) now fault
  | c :: cs, none =>
    let t := Tables.createVec c.embedding.length s.conn.working
    Unbroken 2 fault ∧
      Stores ⟨⟨t, t, false⟩, some c.embedding.length⟩ path source model (c :: cs) now
        (fault.map (· - 2))

theorem replaceStatements_ne_begin (t : Tables) (path source model : String) (cs : List NewChunk)
    (now : ℚ) : Statement.begin ∉ replaceStatements t path source model cs now := by
  unfold replaceStatements deleteIndexed vecWrite
  split_ifs <;> simp [write, insertStatements]

theorem replaceChunks_returns_iff (s : MemoryStore) (path source model : String)
    (cs : List NewChunk) (now : ℚ) (fault : Option ℕ) :
    (s.replaceChunks path source model cs now fault).2 = true ↔
      Stores s path source model cs now fault := by
  set ss := replaceStatements s.conn.working path source model cs now with hss
  have hreturns : (s.replaceChunks path source model cs now fault).2 =
      (s.conn.run (.begin :: (ss ++ [.commit])) fault).2 := by
    change _ = (s.onConn (.begin :: ss) fault).2
    rw [MemoryStore.replaceChunks]
    rcases s.onConn (.begin :: ss) fault with ⟨s', _ | _⟩ <;> rfl
  have hnot : Statement.begin ∉ ss ++ [.commit] := by
    simpa using replaceStatements_ne_begin _ path source model cs now
  have heffects (t : Tables) : (effects (ss ++ [.commit]) t).isSome = (effects ss t).isSome := by
    rw [effects_append]
    rcases effects ss t with _ | t <;> rfl
  rw [hreturns, Stores, ← hss]
  by_cases hf : fault = some 0
  · rw [hf, Connection.run_cons_zero]
    simp [Unbroken]
  · rw [Connection.run_cons hf, Connection.exec]
    rcases s.conn.inTransaction with _ | _
    · have hlength : (ss ++ [Statement.commit]).length = ss.length + 1 := by simp
      have hidle : ¬false = true := by simp
      rw [if_neg hidle, if_pos rfl, Connection.run_returns_iff_effects hnot, heffects, hlength,
        Connection.forall_mem_shift hf]
      exact (and_iff_right rfl).symm
    · simp

theorem ensureVecTable_none {s : MemoryStore} (hdim : s.dim = none) (dim : ℕ)
    (fault : Option ℕ) :
    (Unbroken 2 fault ∧ s.ensureVecTable dim fault =
      (⟨⟨Tables.createVec dim s.conn.working, Tables.createVec dim s.conn.working, false⟩,
        some dim⟩, true)) ∨
    (¬Unbroken 2 fault ∧ (s.ensureVecTable dim fault).2 = false) := by
  have hreturns : (s.onConn [.define (Tables.createVec dim)] fault).2 = true ↔ Unbroken 2 fault :=
    Connection.run_returns_iff (by simp [Statement.Total])
  unfold MemoryStore.ensureVecTable
  rw [hdim]
  rcases hresult : s.onConn [.define (Tables.createVec dim)] fault with ⟨s', _ | _⟩
  · rw [hresult] at hreturns
    exact .inr ⟨fun hunbroken => absurd (hreturns.2 hunbroken) (by simp), rfl⟩
  · rw [hresult] at hreturns
    have hrun : (s.conn.run ([.define (Tables.createVec dim)] ++ [.commit]) fault).2 = true :=
      congrArg Prod.snd hresult
    obtain ⟨t, ht, hconn⟩ := Connection.run_commit_of_returns hrun
    obtain rfl : Tables.createVec dim s.conn.working = t := Option.some.inj ht
    have hs' : s'.conn = ⟨_, _, false⟩ := (congrArg (fun r => r.1.conn) hresult.symm).trans hconn
    refine .inl ⟨hreturns.1 rfl, ?_⟩
    dsimp only
    rw [hs']

/-- When `replace_chunks_for_file` returns. -/
theorem exec_replace_returns_iff (s : MemoryStore) (path source model : String)
    (cs : List NewChunk) (now : ℚ) (fault : Option ℕ) :
    (s.exec (.replaceChunksForFile path source model cs now) fault).2 = true ↔
      Replaces s path source model cs now fault := by
  unfold MemoryStore.exec Replaces
  cases cs with
  | nil => exact replaceChunks_returns_iff s path source model [] now fault
  | cons c cs =>
    cases hdim : s.dim with
    | some dim =>
      have hensure : s.ensureVecTable c.embedding.length fault =
          (s, decide (dim = c.embedding.length)) := by
        rw [MemoryStore.ensureVecTable, hdim]
      have hshift : (fault.map fun k => k - if some dim = none then 2 else 0) = fault := by
        simp
      dsimp only
      rw [hensure, hshift]
      by_cases hlength : dim = c.embedding.length
      · rw [decide_eq_true hlength]
        exact (replaceChunks_returns_iff s path source model (c :: cs) now fault).trans
          (and_iff_right hlength).symm
      · rw [decide_eq_false hlength]
        simp [hlength]
    | none =>
      dsimp only
      rcases ensureVecTable_none hdim c.embedding.length fault with
        ⟨hunbroken, hensure⟩ | ⟨hbroken, hensure⟩
      · rw [hensure]
        exact (replaceChunks_returns_iff _ path source model (c :: cs) now _).trans
          (and_iff_right hunbroken).symm
      · rcases hresult : s.ensureVecTable c.embedding.length fault with ⟨s', _ | _⟩
        · simp [hbroken]
        · rw [hresult] at hensure
          exact absurd hensure (by simp)

/-! ## When the tables stay synced -/

/-- An operation that gets to its `commit` finds no chunk missing from some of the tables only,
but those it deletes itself. -/
def Clean (s : MemoryStore) : StoreOp × Option ℕ → Prop
  | (.upsertFile _ _, fault) | (.metaWrite, fault) =>
    Unbroken 2 fault → SameBut [] s.conn.working
  | (.deleteFile path, fault) =>
    Unbroken ((deleteFileStatements s.conn.working path).length + 1) fault →
      SameBut (s.conn.working.idsOf path) s.conn.working
  | _ => True

theorem Synced.distinct {t t' : Tables} (h : Synced t) (hc : t'.chunkIds.Sublist t.chunkIds)
    (hv : t'.vecIds.Sublist t.vecIds) (hf : t'.ftsIds.Sublist t.ftsIds) : Distinct t' :=
  ⟨h.chunks.sublist hc, h.vec.sublist hv, h.fts.sublist hf⟩

theorem Inv.distinct {s : MemoryStore} (h : Inv s) (hs : Synced s.conn.committed) :
    Distinct s.conn.working :=
  hs.distinct h.conn.chunks h.conn.vec h.conn.fts

/-- A program of statements that are never refused commits its effects exactly if it is not
made to raise; else nothing. -/
theorem committed_onConn (s : MemoryStore) {ss : List (Statement Tables)}
    (hss : ∀ st ∈ ss, st.Total) (hinner : ∀ st ∈ ss, st.inner = true) (fault : Option ℕ) :
    (Unbroken (ss.length + 1) fault ∧ (s.onConn ss fault).2 = true ∧
      ∃ t, effects ss s.conn.working = some t ∧ (s.onConn ss fault).1.conn = ⟨t, t, false⟩) ∨
    (¬Unbroken (ss.length + 1) fault ∧ (s.onConn ss fault).2 = false ∧
      (s.onConn ss fault).1.conn.committed = s.conn.committed) := by
  have htotal : ∀ st ∈ ss ++ [.commit], st.Total := by
    intro st hst
    rcases List.mem_append.1 hst with hst | hst
    · exact hss st hst
    · rw [List.mem_singleton.1 hst]
      trivial
  have hreturns : (s.conn.run (ss ++ [.commit]) fault).2 = true ↔
      ∀ k ∈ fault, (ss ++ [Statement.commit]).length ≤ k := Connection.run_returns_iff htotal
  rw [List.length_append, List.length_singleton] at hreturns
  rcases hresult : (s.conn.run (ss ++ [.commit]) fault).2 with _ | _
  · refine .inr ⟨fun hunbroken => ?_, hresult, Connection.committed_run_of_raises hinner hresult⟩
    rw [hreturns.2 hunbroken] at hresult
    exact absurd hresult (by simp)
  · exact .inl ⟨hreturns.1 hresult, hresult, Connection.run_commit_of_returns hresult⟩

theorem synced_congr {t t' : Tables} (hc : t.chunkIds = t'.chunkIds) (hv : t.vecIds = t'.vecIds)
    (hf : t.ftsIds = t'.ftsIds) : Synced t ↔ Synced t' := by
  constructor
  · rintro ⟨h1, h2, h3, h4⟩
    rw [hc] at h1 h4
    rw [hv] at h2 h4
    rw [hf] at h3 h4
    exact ⟨h1, h2, h3, h4⟩
  · rintro ⟨h1, h2, h3, h4⟩
    rw [← hc] at h1 h4
    rw [← hv] at h2 h4
    rw [← hf] at h3 h4
    exact ⟨h1, h2, h3, h4⟩

theorem total_write (f : Tables → Tables) : (write f).Total :=
  fun _ => rfl

/-- A write that touches no chunk commits what it finds. -/
theorem synced_write_iff {s : MemoryStore} (h : Inv s) (hs : Synced s.conn.committed)
    {f : Tables → Tables} (hc : ∀ t, (f t).chunks = t.chunks) (hv : ∀ t, (f t).vec = t.vec)
    (hf : ∀ t, (f t).fts = t.fts) (fault : Option ℕ) :
    Synced (s.onConn [write f] fault).1.conn.committed ↔
      (Unbroken 2 fault → SameBut [] s.conn.working) := by
  have htotal : ∀ st ∈ [write f], st.Total := fun st hst =>
    List.mem_singleton.1 hst ▸ total_write f
  have hinner : ∀ st ∈ [write f], st.inner = true := fun st hst => List.mem_singleton.1 hst ▸ rfl
  rcases committed_onConn s htotal hinner fault with ⟨hunbroken, -, t, ht, hconn⟩ | ⟨hbroken, -, hconn⟩
  · obtain rfl : f s.conn.working = t := Option.some.inj ht
    have hids : Synced (f s.conn.working) ↔ Synced s.conn.working :=
      synced_congr (congrArg (List.map _) (hc _)) (congrArg (List.map _) (hv _))
        (congrArg (List.map _) (hf _))
    rw [hconn, hids, synced_iff (h.distinct hs)]
    exact ⟨fun hsame _ => hsame, fun hsame => hsame hunbroken⟩
  · rw [hconn]
    exact ⟨fun _ hunbroken => absurd hunbroken hbroken, fun _ => hs⟩

theorem idsOf_eq_nil {t : Tables} (h : t.chunkIds = []) (path : String) : t.idsOf path = [] := by
  have hnil : t.chunks = [] := List.map_eq_nil_iff.1 h
  simp [Tables.idsOf, hnil]

theorem total_deleteFileStatements {s : MemoryStore} (h : Inv s) (path : String) :
    ∀ st ∈ deleteFileStatements s.conn.working path, st.Total := by
  have hindexed : ∀ st ∈ deleteIndexed s.conn.working (s.conn.working.idsOf path), st.Total := by
    unfold deleteIndexed vecWrite
    split_ifs with hids hvec
    · simp
    · cases hdim : s.dim with
      | none => exact absurd (idsOf_eq_nil (h.conn.noChunks (h.empty hdim)).1 path) hids
      | some d =>
        have := (h.made (by simp [hdim])).2
        simp [Option.isNone_iff_eq_none.1 hvec] at this
    · intro st hst
      rcases List.mem_cons.1 hst with rfl | hst
      · exact total_write _
      · rw [List.mem_singleton.1 hst]
        exact total_write _
  intro st hst
  rw [deleteFileStatements, List.cons_append] at hst
  rcases List.mem_cons.1 hst with rfl | hst
  · trivial
  · rcases List.mem_append.1 hst with hst | hst
    · exact hindexed st hst
    · rcases List.mem_cons.1 hst with rfl | hst
      · exact total_write _
      · rw [List.mem_singleton.1 hst]
        exact total_write _

theorem inner_deleteFileStatements (t : Tables) (path : String) :
    ∀ st ∈ deleteFileStatements t path, st.inner = true := by
  have hindexed : ∀ st ∈ deleteIndexed t (t.idsOf path), st.inner = true := by
    unfold deleteIndexed vecWrite
    split_ifs <;> simp [Statement.inner, write]
  intro st hst
  rw [deleteFileStatements, List.cons_append] at hst
  simp only [List.mem_cons, List.mem_append, List.not_mem_nil, or_false] at hst
  rcases hst with rfl | hst | rfl | rfl
  · rfl
  · exact hindexed st hst
  all_goals rfl

theorem synced_deleteFile_iff {s : MemoryStore} (h : Inv s) (hs : Synced s.conn.committed)
    (path : String) (fault : Option ℕ) :
    Synced (s.onConn (deleteFileStatements s.conn.working path) fault).1.conn.committed ↔
      (Unbroken ((deleteFileStatements s.conn.working path).length + 1) fault →
        SameBut (s.conn.working.idsOf path) s.conn.working) := by
  rcases committed_onConn s (total_deleteFileStatements h path)
    (inner_deleteFileStatements _ path) fault with ⟨hunbroken, -, t, ht, hconn⟩ | ⟨hbroken, -, hconn⟩
  · have hids : Synced t ↔ Synced (purge path s.conn.working) := by
      rw [effects_deleteFileStatements ht]
      exact synced_congr (chunkIds_deleteFile_purge path _) rfl rfl
    rw [hconn, hids, synced_purge_iff (h.distinct hs)]
    exact ⟨fun hsame _ => hsame, fun hsame => hsame hunbroken⟩
  · rw [hconn]
    exact ⟨fun _ hunbroken => absurd hunbroken hbroken, fun _ => hs⟩

theorem synced_clearAll {s : MemoryStore} (hs : Synced s.conn.committed) (fault : Option ℕ) :
    Synced (s.onConn (clearAllStatements s.conn.working) fault).1.conn.committed := by
  have hinner : ∀ st ∈ clearAllStatements s.conn.working, st.inner = true := by
    unfold clearAllStatements vecWrite
    split_ifs <;> simp [Statement.inner, write]
  rcases hresult : (s.conn.run (clearAllStatements s.conn.working ++ [.commit]) fault).2 with _ | _
  · have hcommitted := Connection.committed_run_of_raises hinner hresult
    rw [MemoryStore.onConn, hcommitted]
    exact hs
  · obtain ⟨t, ht, hconn⟩ := Connection.run_commit_of_returns hresult
    rw [MemoryStore.onConn, hconn]
    unfold clearAllStatements vecWrite at ht
    split_ifs at ht
    · simp [effects] at ht
    · simp only [effects, write, Option.bind_some, Option.some.injEq] at ht
      subst ht
      exact NoChunks.synced ⟨rfl, rfl, rfl⟩

theorem synced_ensureVecTable {s : MemoryStore} (h : Inv s) (hs : Synced s.conn.committed)
    (dim : ℕ) (fault : Option ℕ) : Synced (s.ensureVecTable dim fault).1.conn.committed := by
  unfold MemoryStore.ensureVecTable
  cases hdim : s.dim with
  | some d => exact hs
  | none =>
    have hrun := h.onConn (deletes_define dim) fault
    have hnone : NoChunks (s.onConn [.define (Tables.createVec dim)] fault).1.conn.committed :=
      hrun.empty hdim
    rcases hresult : s.onConn [.define (Tables.createVec dim)] fault with ⟨s', _ | _⟩ <;>
    · rw [hresult] at hnone
      exact hnone.synced

theorem synced_replaceChunks {s : MemoryStore} (h : Inv s) (hs : Synced s.conn.committed)
    (path source model : String) (cs : List NewChunk) (now : ℚ) (fault : Option ℕ) :
    Synced (s.replaceChunks path source model cs now fault).1.conn.committed := by
  rcases replaceChunks_cases h path source model cs now fault with ⟨t, ht, hresult⟩ | hresult
  · have hdistinct : Distinct s.conn.committed := ⟨hs.chunks, hs.vec, hs.fts⟩
    have hpurged := (synced_purge_iff hdistinct path).2 fun id _ => hs.same id
    rw [hresult]
    exact hpurged.storeChunks ht
  · rw [hresult]
    exact hs

/-- What an operation commits is synced exactly if the operation is clean. -/
theorem synced_step_iff {s : MemoryStore} (h : Inv s) (hs : Synced s.conn.committed)
    (e : StoreOp × Option ℕ) : Synced (s.step e).conn.committed ↔ Clean s e := by
  obtain ⟨op, fault⟩ := e
  cases op with
  | upsertFile path row =>
    exact synced_write_iff h hs (f := Tables.upsert path row) (fun _ => rfl) (fun _ => rfl)
      (fun _ => rfl) fault
  | metaWrite =>
    exact synced_write_iff h hs (f := id) (fun _ => rfl) (fun _ => rfl) (fun _ => rfl) fault
  | deleteFile path => exact synced_deleteFile_iff h hs path fault
  | clearAll => exact iff_of_true (synced_clearAll hs fault) trivial
  | ensureVecTable dim => exact iff_of_true (synced_ensureVecTable h hs dim fault) trivial
  | replaceChunksForFile path source model cs now =>
    refine iff_of_true ?_ trivial
    simp only [MemoryStore.step, MemoryStore.exec]
    cases cs with
    | nil => exact synced_replaceChunks h hs path source model [] now fault
    | cons c cs =>
      have hinv := h.ensureVecTable c.embedding.length fault
      have hsynced := synced_ensureVecTable h hs c.embedding.length fault
      dsimp only
      rcases hresult : s.ensureVecTable c.embedding.length fault with ⟨s', _ | _⟩
      · rwa [hresult] at hsynced
      · rw [hresult] at hinv hsynced
        exact synced_replaceChunks hinv hsynced path source model (c :: cs) now _

theorem inv_new : Inv {} :=
  ⟨.of_committed rfl, fun _ => ⟨rfl, rfl, rfl⟩, fun hdim => by simp at hdim⟩

/-- Along a run of operations that may raise anywhere, the committed tables are synced in
every state exactly if every operation is clean. -/
theorem synced_run_iff (es : List (StoreOp × Option ℕ)) :
    (∀ s ∈ trail MemoryStore.step {} es, Synced s.conn.committed) ↔
      EachStep MemoryStore.step Clean {} es :=
  forall_mem_trail_iff (I := Inv) (P := fun s => Synced s.conn.committed) (C := Clean)
    (fun _ e h => h.step e) (fun _ e h hs => synced_step_iff h hs e) inv_new
    (NoChunks.synced ⟨rfl, rfl, rfl⟩) es

/-- A file with one chunk, whose deletion breaks off after its vectors are deleted, and
another file. -/
def brokenDelete : List (StoreOp × Option ℕ) :=
  [(.upsertFile "a.md" ⟨"memory", "h1", 0, 1⟩, none),
    (.replaceChunksForFile "a.md" "memory" "m" [⟨"c1", 1, 1, "x", "k1", [1]⟩] 0, none),
    (.deleteFile "a.md", some 2),
    (.upsertFile "b.md" ⟨"memory", "h2", 0, 1⟩, none)]

theorem brokenDelete_not_synced : ¬ ∀ es : List (StoreOp × Option ℕ),
    ∀ s ∈ trail MemoryStore.step {} es, Synced s.conn.committed := by
  intro h
  have hlast := h brokenDelete _ (foldl_mem_trail brokenDelete _)
  have hids : "c1" ∈ (brokenDelete.foldl MemoryStore.step {}).conn.committed.chunkIds ∧
      "c1" ∉ (brokenDelete.foldl MemoryStore.step {}).conn.committed.vecIds := by
    decide
  exact hids.2 ((hlast.same "c1").1.1 hids.1)

end OxenClaw.Memory
