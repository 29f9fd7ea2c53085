import Mathlib.Data.Char
import Mathlib.Data.List.Lex
import Mathlib.Data.List.Sort
import OxenClaw.Lib.Glob
import OxenClaw.Lib.Runs
import OxenClaw.Memory.Current

/-!
# What the walker may index

`scanMemoryDir` yields the Markdown files under a directory, but for those its configuration
denies. A `MemoryRetriever` keeps the configuration it is built with and makes an indexer that
knows nothing of it, so every sync walks without one.

A run of syncs indexes nothing that the configuration denies, and takes out what was indexed of
it, if no walk comes upon a denied file that has a chunk or is recorded as it is
(`walker_obeyed_of_spared`).
-/

namespace OxenClaw.Memory

open Sqlite

/-! ## The walk -/

structure WalkerConfig where
  allowGlobs : List String := []
  denyGlobs : List String := []
  minSize : ℤ := 0
  maxSize : ℤ := 0

/-- `_glob_match`. -/
def globMatch (rel : String) (globs : List String) : Bool :=
  globs.any (fnmatchcase rel)

/-- The paths that a configuration denies. -/
def WalkerConfig.denies (cfg : WalkerConfig) (rel : String) : Bool :=
  (!cfg.denyGlobs.isEmpty && globMatch rel cfg.denyGlobs) ||
    (!cfg.allowGlobs.isEmpty && !globMatch rel cfg.allowGlobs)

/-- A path under the directory, as the walk finds it. -/
structure TreeEntry where
  rel : String
  /-- Of a symbolic link, whether it leads to a path under the directory, if it can be resolved. -/
  link : Option (Option Bool) := none
  isFile : Bool := true
  /-- The time it was changed and its size, where it can be asked. -/
  stat : Option (ℚ × ℕ)
  /-- `read_bytes`, where it can be read. -/
  data : Option (List UInt8)

def TreeEntry.parts (e : TreeEntry) : List (List Char) :=
  e.rel.toList.splitOn '/'

/-- A directory tree : each path once. -/
structure Tree where
  isDir : Bool := true
  entries : List TreeEntry
  distinct : (entries.map TreeEntry.rel).Nodup

def defaultMaxDepth : ℕ := 16

def defaultMaxFileSizeBytes : ℤ := 4 * 1024 * 1024

/-- The body of the loop of `scan_memory_dir`. -/
def scanEntry (maxDepth : ℕ) (maxFileSizeBytes : ℤ) (cfg : Option WalkerConfig) (e : TreeEntry) :
    Option ScannedFile :=
  let effectiveMaxSize := cfg.elim maxFileSizeBytes fun cfg =>
    if 0 < cfg.maxSize then cfg.maxSize else maxFileSizeBytes
  let effectiveMinSize := cfg.elim 0 WalkerConfig.minSize
  if e.parts.any fun part => part.head? = some '.' then none
  else if maxDepth < e.parts.length then none
  else if cfg.any fun cfg => cfg.denies e.rel then none
  else if e.link.any (· ≠ some true) then none
  else if e.isFile = false then none
  else
    match e.stat, e.data with
    | some (mtime, size), some data =>
      if (size : ℤ) < effectiveMinSize ∨ effectiveMaxSize < size then none
      else some ⟨e.rel, mtime, size, data⟩
    | _, _ => none

/-- `sorted(root.rglob("*.md"))`. -/
def Tree.markdown (tree : Tree) : List TreeEntry :=
  (tree.entries.filter fun e => ".md".toList.isSuffixOf e.rel.toList).insertionSort fun a b =>
    a.parts ≤ b.parts

def scanMemoryDir (tree : Tree) (maxDepth : ℕ) (maxFileSizeBytes : ℤ)
    (walkerConfig : Option WalkerConfig) : List ScannedFile :=
  if tree.isDir = false then []
  else tree.markdown.filterMap (scanEntry maxDepth maxFileSizeBytes walkerConfig)

theorem path_of_scanEntry {maxDepth : ℕ} {maxSize : ℤ} {cfg : Option WalkerConfig} {e : TreeEntry}
    {f : ScannedFile} (h : scanEntry maxDepth maxSize cfg e = some f) : f.path = e.rel := by
  unfold scanEntry at h
  dsimp only at h
  split_ifs at h
  split at h
  · split_ifs at h
    rw [← Option.some.inj h]
  · cases h

theorem nodup_scanMemoryDir (tree : Tree) (maxDepth : ℕ) (maxSize : ℤ)
    (cfg : Option WalkerConfig) :
    ((scanMemoryDir tree maxDepth maxSize cfg).map ScannedFile.path).Nodup := by
  have hmarkdown : (tree.markdown.map TreeEntry.rel).Nodup :=
    ((List.perm_insertionSort _ _).map _).nodup_iff.2
      (tree.distinct.sublist (List.filter_sublist.map _))
  unfold scanMemoryDir
  split_ifs
  · exact List.nodup_nil
  · rw [List.map_filterMap]
    have hsub : (tree.markdown.filterMap fun e =>
        (scanEntry maxDepth maxSize cfg e).map ScannedFile.path).Sublist
        (tree.markdown.map TreeEntry.rel) := by
      induction tree.markdown with
      | nil => exact List.Sublist.refl _
      | cons e l ih =>
        rw [List.filterMap_cons, List.map_cons]
        rcases hscan : scanEntry maxDepth maxSize cfg e with _ | f
        · exact ih.cons _
        · rw [Option.map_some, path_of_scanEntry hscan]
          exact ih.cons_cons _
    exact hmarkdown.sublist hsub

/-- With its configuration, the walker yields nothing that it denies. -/
theorem not_denies_of_mem_scanMemoryDir {tree : Tree} {maxDepth : ℕ} {maxSize : ℤ}
    {cfg : WalkerConfig} {f : ScannedFile}
    (h : f ∈ scanMemoryDir tree maxDepth maxSize (some cfg)) : cfg.denies f.path = false := by
  unfold scanMemoryDir at h
  split_ifs at h
  · cases h
  · obtain ⟨e, -, hscan⟩ := List.mem_filterMap.1 h
    rw [path_of_scanEntry hscan]
    unfold scanEntry at hscan
    dsimp only at hscan
    split_ifs at hscan with _ _ hdenies
    all_goals simpa using hdenies

/-! ## The retriever -/

/-- What the world does while a source is synced. -/
structure Walk where
  tree : Tree
  listRaises : Bool := false
  io : String → FileIO
  deleteFault : String → Option ℕ := fun _ => none

structure MemoryIndexer where
  corpus : Corpus
  model : String

structure MemoryRetriever where
  indexer : MemoryIndexer
  walkerConfig : Option WalkerConfig

/-- `MemoryRetriever.__init__`. -/
def MemoryRetriever.init (corpus : Corpus) (model : String) (walkerConfig : Option WalkerConfig) :
    MemoryRetriever where
  indexer := { corpus, model }
  walkerConfig := walkerConfig

/-- `scan_memory_dir(root, source=source)`. -/
def Walk.scan (walk : Walk) : SourceScan where
  source := "memory"
  listRaises := walk.listRaises
  files := (scanMemoryDir walk.tree defaultMaxDepth defaultMaxFileSizeBytes none).map fun f =>
    (f, walk.io f.path)
  deleteFault := walk.deleteFault
  distinct := by
    rw [List.map_map]
    exact nodup_scanMemoryDir _ _ _ _

namespace MemoryIndexer

/-- `sync`, and whether it returns. -/
def sync (indexer : MemoryIndexer) (s : MemoryStore) (walk : Walk) : MemoryStore × Bool :=
  let r := syncSource indexer.corpus s false indexer.model walk.scan
  (r.1, r.2.1)

theorem sync_eq_syncSources (indexer : MemoryIndexer) (s : MemoryStore) (walk : Walk) :
    (indexer.sync s walk).1 = syncSources indexer.corpus indexer.model s false [walk.scan] := by
  rw [sync, syncSources]
  rcases syncSource indexer.corpus s false indexer.model walk.scan with ⟨s', _ | _, metaDone⟩
  · rfl
  · rfl

end MemoryIndexer

def MemoryRetriever.sync (r : MemoryRetriever) (s : MemoryStore) (walk : Walk) :
    MemoryStore × Bool :=
  r.indexer.sync s walk

/-! ## What the tables have of a path -/

/-- Of the path `q`, the tables have only rows with `R` and `C`. -/
structure Within (q : String) (R : FileRow → Prop) (C : ChunkRow → Prop) (t : Tables) : Prop where
  files : ∀ row, t.files.get? q = some row → R row
  chunks : ∀ c ∈ t.chunks, c.path = q → C c

/-- So do what the connection sees and what is committed. -/
def StoreWithin (q : String) (R : FileRow → Prop) (C : ChunkRow → Prop) (s : MemoryStore) : Prop :=
  Within q R C s.conn.working ∧ Within q R C s.conn.committed

/-- `t'` has nothing of the path that `t` has not. -/
structure NoMoreOf (q : String) (t t' : Tables) : Prop where
  files : ∀ row, t'.files.get? q = some row → t.files.get? q = some row
  chunks : ∀ c ∈ t'.chunks, c.path = q → c ∈ t.chunks

/-- An operation that does not store the path. -/
def StoresNot (q : String) : StoreOp → Prop
  | .upsertFile path _ | .replaceChunksForFile path _ _ _ _ => path ≠ q
  | _ => True

variable {q : String} {R : FileRow → Prop} {C : ChunkRow → Prop} {t t' : Tables}
  {s : MemoryStore}

theorem Within.of_noMoreOf (h : Within q R C t) (hn : NoMoreOf q t t') : Within q R C t' :=
  ⟨fun row hrow => h.files row (hn.files row hrow),
    fun c hc hq => h.chunks c (hn.chunks c hc hq) hq⟩

/-- Only files and chunks count. -/
theorem noMoreOf_of_eq (hfiles : t'.files = t.files) (hchunks : t'.chunks = t.chunks) :
    NoMoreOf q t t' :=
  ⟨fun _ hrow => hfiles ▸ hrow, fun _ hc _ => hchunks ▸ hc⟩

theorem keeps_of_noMoreOf {f : Tables → Option Tables}
    (h : ∀ t t', f t = some t' → NoMoreOf q t t') :
    (Statement.write f).Keeps (Within q R C) :=
  fun t t' ht hf => ht.of_noMoreOf (h t t' hf)

theorem keeps_write {f : Tables → Tables} (h : ∀ t, NoMoreOf q t (f t)) :
    (write f).Keeps (Within q R C) :=
  keeps_of_noMoreOf fun t _ ht' => Option.some.inj ht' ▸ h t

theorem keeps_vecWrite (t : Tables) {f : Tables → Tables} (h : ∀ t, NoMoreOf q t (f t)) :
    (vecWrite t f).Keeps (Within q R C) := by
  unfold vecWrite
  split_ifs
  · trivial
  · exact keeps_write h

theorem noMoreOf_deleteChunks (path : String) (t : Tables) :
    NoMoreOf q t (Tables.deleteChunks path t) :=
  ⟨fun _ hrow => hrow, fun _ hc _ => List.mem_of_mem_filter hc⟩

theorem noMoreOf_deleteFile (path : String) (t : Tables) :
    NoMoreOf q t (Tables.deleteFile path t) :=
  ⟨fun _ hrow => (Dict.get?_of_get?_erase hrow).2, fun _ hc _ => List.mem_of_mem_filter hc⟩

theorem noMoreOf_upsert {path : String} (hq : path ≠ q) (row : FileRow) (t : Tables) :
    NoMoreOf q t (Tables.upsert path row t) :=
  ⟨fun _ hrow => by rwa [Tables.upsert, Dict.get?_set_of_ne hq.symm] at hrow, fun _ hc _ => hc⟩

theorem noMoreOf_insertChunk {row : ChunkRow} (hq : row.path ≠ q)
    (h : Tables.insertChunk row t = some t') : NoMoreOf q t t' := by
  unfold Tables.insertChunk at h
  split_ifs at h
  obtain rfl := Option.some.inj h
  refine ⟨fun _ hrow => hrow, fun c hc hcq => ?_⟩
  rcases List.mem_append.1 hc with hc | hc
  · exact hc
  · exact absurd hcq (List.mem_singleton.1 hc ▸ hq)

theorem noMoreOf_insertVec {row : VecRow} (h : Tables.insertVec row t = some t') :
    NoMoreOf q t t' := by
  unfold Tables.insertVec at h
  split_ifs at h
  obtain rfl := Option.some.inj h
  exact noMoreOf_of_eq rfl rfl

theorem keeps_deleteIndexed (t : Tables) (ids : List String) :
    ∀ st ∈ deleteIndexed t ids, st.Keeps (Within q R C) := by
  unfold deleteIndexed
  split_ifs
  · exact fun st hst => absurd hst List.not_mem_nil
  · intro st hst
    simp only [List.mem_cons, List.not_mem_nil, or_false] at hst
    rcases hst with rfl | rfl
    · exact keeps_vecWrite t fun _ => noMoreOf_of_eq rfl rfl
    · exact keeps_write fun _ => noMoreOf_of_eq rfl rfl

theorem keeps_deleteFileStatements (t : Tables) (path : String) :
    ∀ st ∈ deleteFileStatements t path, st.Keeps (Within q R C) := by
  intro st hst
  simp only [deleteFileStatements, List.mem_append, List.mem_cons, List.not_mem_nil,
    or_false] at hst
  rcases hst with (rfl | hst) | rfl | rfl
  · trivial
  · exact keeps_deleteIndexed t _ st hst
  · exact keeps_write (noMoreOf_deleteChunks path)
  · exact keeps_write (noMoreOf_deleteFile path)

theorem keeps_insertStatements {path : String} (hq : path ≠ q) (source model : String) (now : ℚ)
    (c : NewChunk) : ∀ st ∈ insertStatements path source model now c,
      st.Keeps (Within q R C) := by
  intro st hst
  simp only [insertStatements, List.mem_cons, List.not_mem_nil, or_false] at hst
  rcases hst with rfl | rfl | rfl
  · refine keeps_of_noMoreOf fun _ _ h => noMoreOf_insertChunk ?_ h
    exact hq
  · exact keeps_of_noMoreOf fun _ _ h => noMoreOf_insertVec h
  · exact keeps_write fun _ => noMoreOf_of_eq rfl rfl

theorem keeps_replaceStatements {path : String} (hq : path ≠ q) (t : Tables)
    (source model : String) (chunks : List NewChunk) (now : ℚ) :
    ∀ st ∈ replaceStatements t path source model chunks now, st.Keeps (Within q R C) := by
  intro st hst
  simp only [replaceStatements, List.mem_append, List.mem_cons, List.mem_flatMap] at hst
  rcases hst with (rfl | hst) | rfl | ⟨c, -, hst⟩
  · trivial
  · exact keeps_deleteIndexed t _ st hst
  · exact keeps_write (noMoreOf_deleteChunks path)
  · exact keeps_insertStatements hq source model now c st hst

theorem StoreWithin.onConn (h : StoreWithin q R C s) {ss : List (Statement Tables)}
    (hss : ∀ st ∈ ss, st.Keeps (Within q R C)) (fault : Option ℕ) :
    StoreWithin q R C (s.onConn ss fault).1 := by
  refine Connection.keeps_run (fun st hst => ?_) h fault
  rcases List.mem_append.1 hst with hst | hst
  · exact hss st hst
  · rw [List.mem_singleton.1 hst]
    trivial

theorem StoreWithin.ensureVecTable (h : StoreWithin q R C s) (dim : ℕ) (fault : Option ℕ) :
    StoreWithin q R C (s.ensureVecTable dim fault).1 := by
  have hdefine : StoreWithin q R C (s.onConn [.define (Tables.createVec dim)] fault).1 := by
    refine h.onConn (fun st hst => ?_) fault
    rw [List.mem_singleton.1 hst]
    exact fun t ht => ht.of_noMoreOf (noMoreOf_of_eq rfl rfl)
  unfold MemoryStore.ensureVecTable
  rcases s.dim with _ | d
  · rcases hresult : s.onConn [.define (Tables.createVec dim)] fault with ⟨s', _ | _⟩
    all_goals rw [hresult] at hdefine
    · exact hdefine
    · exact hdefine
  · exact h

theorem StoreWithin.replaceChunks (h : StoreWithin q R C s) {path : String} (hq : path ≠ q)
    (source model : String) (cs : List NewChunk) (now : ℚ) (fault : Option ℕ) :
    StoreWithin q R C (s.replaceChunks path source model cs now fault).1 := by
  have hrun : StoreWithin q R C (s.onConn
      (.begin :: replaceStatements s.conn.working path source model cs now) fault).1 := by
    refine h.onConn (fun st hst => ?_) fault
    rcases List.mem_cons.1 hst with rfl | hst
    · trivial
    · exact keeps_replaceStatements hq _ source model cs now st hst
  unfold MemoryStore.replaceChunks
  rcases hresult : s.onConn
    (.begin :: replaceStatements s.conn.working path source model cs now) fault with ⟨s', _ | _⟩
  all_goals rw [hresult] at hrun
  · exact ⟨hrun.2, hrun.2⟩
  · exact hrun

/-- An operation that does not store the path adds nothing of it, wherever it raises. -/
theorem StoreWithin.exec (h : StoreWithin q R C s) {op : StoreOp} (hop : StoresNot q op)
    (fault : Option ℕ) : StoreWithin q R C (s.exec op fault).1 := by
  cases op with
  | upsertFile path row =>
    refine h.onConn (fun st hst => ?_) fault
    rw [List.mem_singleton.1 hst]
    exact keeps_write (noMoreOf_upsert hop row)
  | deleteFile path => exact h.onConn (keeps_deleteFileStatements _ path) fault
  | clearAll =>
    refine h.onConn (fun st hst => ?_) fault
    simp only [clearAllStatements, List.mem_cons, List.not_mem_nil, or_false] at hst
    rcases hst with rfl | rfl | rfl | rfl
    · exact keeps_vecWrite _ fun _ => noMoreOf_of_eq rfl rfl
    · exact keeps_write fun _ => noMoreOf_of_eq rfl rfl
    · exact keeps_write fun _ => ⟨fun _ hrow => hrow, fun _ hc => absurd hc List.not_mem_nil⟩
    · exact keeps_write fun _ =>
        ⟨fun _ hrow => absurd hrow (Option.some_ne_none _).symm,
          fun _ hc => absurd hc List.not_mem_nil⟩
  | ensureVecTable dim => exact h.ensureVecTable dim fault
  | metaWrite =>
    refine h.onConn (fun st hst => ?_) fault
    rw [List.mem_singleton.1 hst]
    exact keeps_write fun _ => noMoreOf_of_eq rfl rfl
  | replaceChunksForFile path source model cs now =>
    unfold MemoryStore.exec
    rcases cs with _ | ⟨c, cs⟩
    · exact h.replaceChunks hop source model [] now fault
    · have hensured := h.ensureVecTable c.embedding.length fault
      dsimp only
      rcases hresult : s.ensureVecTable c.embedding.length fault with ⟨s', _ | _⟩
      all_goals rw [hresult] at hensured
      · exact hensured
      · exact hensured.replaceChunks hop source model (c :: cs) now _

theorem StoreWithin.operations {s' : MemoryStore} (h : StoreWithin q R C s)
    (hops : Operations (StoresNot q) s s') : StoreWithin q R C s' := by
  induction hops with
  | refl => exact h
  | tail _ hlast ih =>
    obtain ⟨op, fault, hop, rfl⟩ := hlast
    exact ih.exec hop fault

/-! ## A sync and a path -/

/-- A path that the tables have nothing of. -/
abbrev Gone (q : String) (s : MemoryStore) : Prop :=
  StoreWithin q (fun _ => False) (fun _ => False) s

/-- A file that the sync does not store : it has no chunk, and is not recorded as it is. -/
def Unstored (corpus : Corpus) (existing : Dict String FileRow) (f : ScannedFile) : Prop :=
  corpus.chunks f.content = [] ∧
    (existing.get? f.path).any (·.hash = corpus.sha256 f.content) = false

variable {corpus : Corpus} {existing : Dict String FileRow} {source model : String}

theorem housekeeping_storesNot : Housekeeping (StoresNot q) :=
  ⟨trivial, fun _ => trivial, fun _ => trivial⟩

theorem mayStore_of_unstored {e : ScannedFile × FileIO}
    (h : e.1.path = q → Unstored corpus existing e.1) :
    MayStore (StoresNot q) corpus source model existing e where
  upsert hstored hq := by
    obtain ⟨hnone, hchanged⟩ := h hq
    rcases hstored with hsame | hsome
    · rw [hchanged] at hsame
      cases hsame
    · exact hsome hnone
  replace hsome _ hq := hsome (h hq).1

theorem gone_deleteFile {fault : Option ℕ} (h : (s.exec (.deleteFile q) fault).2 = true) :
    Gone q (s.exec (.deleteFile q) fault).1 := by
  obtain ⟨t, ht, hconn⟩ := Connection.run_commit_of_returns h
  have hgone : Within q (fun _ => False) (fun _ => False) t := by
    rw [effects_deleteFileStatements ht]
    refine ⟨fun row hrow => ?_, fun c hc hq => ?_⟩
    · rw [Tables.deleteFile, Dict.get?_erase_self] at hrow
      cases hrow
    · simpa [hq] using (List.mem_filter.1 hc).2
  have hconn' : (s.exec (.deleteFile q) fault).1.conn = ⟨t, t, false⟩ := hconn
  rw [Gone, StoreWithin, hconn']
  exact ⟨hgone, hgone⟩

/-- A file that is recorded and is not stored again is deleted when its turn comes. -/
theorem gone_syncFile {metaDone : Bool} {f : ScannedFile} {io : FileIO}
    (hunstored : Unstored corpus existing f) (hrecorded : (existing.get? f.path).isSome)
    (h : (syncFile corpus s metaDone source model (existing.get? f.path) f io).2.1 = true) :
    Gone f.path (syncFile corpus s metaDone source model (existing.get? f.path) f io).1 := by
  obtain ⟨hnone, hchanged⟩ := hunstored
  unfold syncFile at h ⊢
  simp only [hchanged, hnone, hrecorded, Bool.false_eq_true, if_false, if_true] at h ⊢
  split_ifs at h ⊢
  exact gone_deleteFile h

theorem gone_syncFiles {files : List (ScannedFile × FileIO)} {e : ScannedFile × FileIO}
    (hdistinct : (files.map fun e => e.1.path).Nodup) (he : e ∈ files)
    (hunstored : Unstored corpus existing e.1) (hrecorded : (existing.get? e.1.path).isSome)
    {metaDone : Bool} (h : (syncFiles corpus source model existing s metaDone files).2.1 = true) :
    Gone e.1.path (syncFiles corpus source model existing s metaDone files).1 := by
  induction files generalizing s metaDone with
  | nil => cases he
  | cons e' files ih =>
    obtain ⟨f, io⟩ := e'
    rw [List.map_cons, List.nodup_cons] at hdistinct
    rw [syncFiles] at h ⊢
    rcases hresult : syncFile corpus s metaDone source model (existing.get? f.path) f io with
      ⟨s', _ | _, metaDone'⟩
    all_goals rw [hresult] at h
    · cases h
    · rcases List.mem_cons.1 he with rfl | he
      · have hgone : Gone f.path
            (syncFile corpus s metaDone source model (existing.get? f.path) f io).1 :=
          gone_syncFile hunstored hrecorded (by rw [hresult])
        rw [hresult] at hgone
        refine hgone.operations (operations_syncFiles housekeeping_storesNot (fun e he => ?_) _)
        refine mayStore_of_unstored fun hpath => absurd ?_ hdistinct.1
        exact List.mem_map.2 ⟨e, he, hpath⟩
      · exact ih hdistinct.2 he h

theorem gone_runCalls {calls : List (StoreOp × Option ℕ)}
    (hcalls : ∀ call ∈ calls, StoresNot q call.1) (fault : Option ℕ)
    (hmem : (.deleteFile q, fault) ∈ calls) (h : (s.runCalls calls).2 = true) :
    Gone q (s.runCalls calls).1 := by
  induction calls generalizing s with
  | nil => cases hmem
  | cons call calls ih =>
    obtain ⟨op, fault'⟩ := call
    rw [MemoryStore.runCalls] at h ⊢
    rcases hresult : s.exec op fault' with ⟨s', _ | _⟩
    all_goals rw [hresult] at h
    · cases h
    · have hrest : ∀ call ∈ calls, StoresNot q call.1 := fun call hcall =>
        hcalls call (List.mem_cons_of_mem _ hcall)
      rcases List.mem_cons.1 hmem with heq | hmem
      · obtain ⟨rfl, rfl⟩ := Prod.mk.inj heq
        have hgone : Gone q (s.exec (.deleteFile q) fault).1 := gone_deleteFile (by rw [hresult])
        rw [hresult] at hgone
        exact hgone.operations (operations_runCalls hrest)
      · exact ih hrest hmem h

/-- A recorded path that the walk does not come upon, or not to store it, is gone when the sync
returns. -/
theorem gone_syncSource {metaDone : Bool} {scan : SourceScan}
    (hunstored : ∀ e ∈ scan.files, e.1.path = q →
      Unstored corpus (existingFiles s.conn.working scan.source) e.1)
    (hrecorded : q ∈ (existingFiles s.conn.working scan.source).keys)
    (h : (syncSource corpus s metaDone model scan).2.1 = true) :
    Gone q (syncSource corpus s metaDone model scan).1 := by
  unfold syncSource at h ⊢
  dsimp only at h ⊢
  split_ifs at h ⊢
  rcases hresult : syncFiles corpus scan.source model (existingFiles s.conn.working scan.source) s
    metaDone scan.files with ⟨s', _ | _, metaDone'⟩
  all_goals rw [hresult] at h
  · cases h
  · by_cases hscanned : ∃ e ∈ scan.files, e.1.path = q
    · obtain ⟨e, he, rfl⟩ := hscanned
      obtain ⟨row, hrow⟩ := Dict.mem_keys_iff.1 hrecorded
      have hgone : Gone e.1.path (syncFiles corpus scan.source model
          (existingFiles s.conn.working scan.source) s metaDone scan.files).1 :=
        gone_syncFiles scan.distinct he (hunstored e he rfl)
          (Option.isSome_iff_exists.2 ⟨row, hrow⟩) (by rw [hresult])
      rw [hresult] at hgone
      exact hgone.operations (operations_goneCalls housekeeping_storesNot _ scan)
    · refine gone_runCalls (fun call hcall => ?_) (scan.deleteFault q) ?_ h
      · obtain ⟨path, -, rfl⟩ := List.mem_map.1 hcall
        trivial
      · refine List.mem_map.2 ⟨q, List.mem_filter.2 ⟨hrecorded, ?_⟩, rfl⟩
        exact decide_eq_true fun hmem => hscanned (List.mem_map.1 hmem)

/-! ## The configuration of a retriever -/

/-- The walk comes upon a denied file only where it is not stored. -/
def Spares (r : MemoryRetriever) (s : MemoryStore) (walk : Walk) : Prop :=
  ∀ f ∈ scanMemoryDir walk.tree defaultMaxDepth defaultMaxFileSizeBytes none,
    r.walkerConfig.any (·.denies f.path) = true →
      Unstored r.indexer.corpus (existingFiles s.conn.working "memory") f

/-- The sync keeps to the configuration : of a denied path it stores nothing, and when it returns
it has taken out what was recorded of it. -/
structure Obeys (r : MemoryRetriever) (s : MemoryStore) (walk : Walk) : Prop where
  stores_none : ∀ q, r.walkerConfig.any (·.denies q) = true → ∀ R C, StoreWithin q R C s →
    StoreWithin q R C (r.sync s walk).1
  removes : (r.sync s walk).2 = true → ∀ q, r.walkerConfig.any (·.denies q) = true →
    q ∈ (existingFiles s.conn.working "memory").keys → Gone q (r.sync s walk).1

variable {r : MemoryRetriever} {walk : Walk}

theorem unstored_of_mem_scan (h : Spares r s walk) (hq : r.walkerConfig.any (·.denies q) = true)
    {e : ScannedFile × FileIO} (he : e ∈ walk.scan.files) (hpath : e.1.path = q) :
    Unstored r.indexer.corpus (existingFiles s.conn.working "memory") e.1 := by
  obtain ⟨f, hf, rfl⟩ := List.mem_map.1 he
  exact h f hf (hpath ▸ hq)

theorem obeys_of_spares (h : Spares r s walk) : Obeys r s walk where
  stores_none _ hq _ _ hwithin := hwithin.operations (operations_syncSource housekeeping_storesNot
    false fun _ he => mayStore_of_unstored fun hpath => unstored_of_mem_scan h hq he hpath)
  removes hreturns _ hq hrecorded :=
    gone_syncSource (fun _ he hpath => unstored_of_mem_scan h hq he hpath) hrecorded hreturns

/-- What a sync makes of the store. -/
def walkStep (r : MemoryRetriever) (s : MemoryStore) (walk : Walk) : MemoryStore :=
  (r.sync s walk).1

/-- Every sync of a run keeps to the configuration of the retriever, and a denied path that the
store has nothing of stays out of it, if every walk of the run comes upon a denied file only where
it is not stored. -/
theorem walker_obeyed_of_spared (corpus : Corpus) (model : String) (config : Option WalkerConfig)
    (s : MemoryStore) (walks : List Walk)
    (h : EachStep (walkStep (.init corpus model config)) (Spares (.init corpus model config)) s
      walks) :
    EachStep (walkStep (.init corpus model config)) (Obeys (.init corpus model config)) s walks ∧
      ∀ q, config.any (·.denies q) = true → Gone q s →
        ∀ s' ∈ trail (walkStep (.init corpus model config)) s walks, Gone q s' := by
  refine ⟨?_, fun q hq hgone => ?_⟩
  · induction walks generalizing s with
    | nil => trivial
    | cons walk walks ih => exact ⟨obeys_of_spares h.1, ih _ h.2⟩
  · exact h.forall_mem_trail (I := Gone q)
      (fun _ _ hgone hspares => (obeys_of_spares hspares).stores_none q hq _ _ hgone) hgone

/-! ## A denied file -/

/-- A directory with one file, in a directory of its own. -/
def privateNotes (content : List UInt8) : Walk where
  tree :=
    { entries := [⟨"private/a.md", none, true, some (0, 1), some content⟩]
      distinct := List.nodup_singleton _ }
  io _ := { vectors := some [[1]], ids := fun _ => "c1" }

def denyPrivate : WalkerConfig where
  denyGlobs := ["private/*"]

/-- Nothing is stored of a denied file that is empty. -/
theorem walker_obeyed_of_spared_empty :
    EachStep (walkStep (.init plainCorpus "m" (some denyPrivate)))
      (Obeys (.init plainCorpus "m" (some denyPrivate))) {} [privateNotes []] := by
  have hspares : Spares (.init plainCorpus "m" (some denyPrivate)) {} (privateNotes []) := by
    have hscan : scanMemoryDir (privateNotes []).tree defaultMaxDepth defaultMaxFileSizeBytes none =
        [⟨"private/a.md", 0, 1, []⟩] := by rfl
    intro f hf _
    rw [hscan, List.mem_singleton] at hf
    subst hf
    exact ⟨by decide, by decide⟩
  exact (walker_obeyed_of_spared plainCorpus "m" (some denyPrivate) {} [privateNotes []]
    ⟨hspares, trivial⟩).1

/-- The first sync stores the denied file. -/
theorem denied_indexed :
    ¬∀ (corpus : Corpus) (model : String) (config : Option WalkerConfig) (s : MemoryStore)
      (walks : List Walk),
      EachStep (walkStep (.init corpus model config)) (Obeys (.init corpus model config)) s
        walks := by
  intro h
  obtain ⟨hobeys, -⟩ := h plainCorpus "m" (some denyPrivate) {} [privateNotes [120]]
  have hdenied : denyPrivate.denies "private/a.md" = true := by decide
  have hgone := hobeys.stores_none "private/a.md" hdenied (fun _ => False) (fun _ => False)
    ⟨⟨nofun, nofun⟩, ⟨nofun, nofun⟩⟩
  have hrow : ((MemoryRetriever.init plainCorpus "m" (some denyPrivate)).sync {}
      (privateNotes [120])).1.conn.working.files.get? "private/a.md" =
        some ⟨"memory", "x", 0, 1⟩ := by decide +kernel
  exact hgone.1.files _ hrow

end OxenClaw.Memory
