import OxenClaw.Memory.Indexer

/-!
# Recorded hashes and stored chunks

`Current` : whatever hash the files table records for a path, the chunks stored for it are
those of a content with this hash. A run of syncs and store operations keeps it, for the
tables as committed and as the connection sees them, if no sync breaks off between recording a
file and storing its chunks and no deletion between the chunks and the file
(`current_of_sound`). A sync that breaks off there leaves the next one to skip a file whose
chunks are not stored (`brokenSync_not_current`).
-/

namespace OxenClaw.Memory

open Sqlite

/-- The chunks stored for a path. -/
def pieces (t : Tables) (path : String) : List Piece :=
  (t.chunks.filter (·.path = path)).map fun r => (r.startLine, r.endLine, r.text)

def NewChunk.piece (c : NewChunk) : Piece :=
  (c.startLine, c.endLine, c.text)

section

variable (corpus : Corpus)

/-- The chunks stored for a path are those of a content with this hash. -/
def Fits (t : Tables) (path hash : String) : Prop :=
  ∃ content, corpus.sha256 content = hash ∧ pieces t path = corpus.chunks content

/-- Each path is recorded once, and what is recorded for it, the stored chunks fit. -/
structure Current (t : Tables) : Prop where
  keys : (Dict.keys t.files).Nodup
  fits : ∀ path row, t.files.get? path = some row → Fits corpus t path row.hash

/-- The tables are current, as the connection sees them and as committed. -/
def StoreCurrent (s : MemoryStore) : Prop :=
  Current corpus s.conn.working ∧ Current corpus s.conn.committed

/-- An operation of the store that keeps hashes and chunks together : a hash is recorded only
where the stored chunks fit it, chunks are stored only where they fit the recorded hash, and a
deletion does not break off between the chunks and the files. -/
def StoreSound (s : MemoryStore) : StoreOp → Option ℕ → Prop
  | .upsertFile path row, fault => fault ≠ some 0 → Fits corpus s.conn.working path row.hash
  | .deleteFile path, fault =>
    fault = some ((deleteFileStatements s.conn.working path).length - 1) →
      pieces s.conn.working path = []
  | .clearAll, fault => fault = some 3 → s.conn.working.chunks = []
  | .replaceChunksForFile path source model chunks now, fault =>
    Replaces s path source model chunks now fault →
      ∀ row, s.conn.working.files.get? path = some row →
        ∃ content, corpus.sha256 content = row.hash ∧
          chunks.map NewChunk.piece = corpus.chunks content
  | _, _ => True

/-- Every operation made is sound. -/
def CallsSound : MemoryStore → List (StoreOp × Option ℕ) → Prop
  | _, [] => True
  | s, (op, fault) :: calls =>
    StoreSound corpus s op fault ∧
      ((s.exec op fault).2 = true → CallsSound (s.exec op fault).1 calls)

/-- A file whose chunks are to be stored is not recorded, or is recorded and its chunks, one
vector each, are stored. -/
def StoresWhole (s : MemoryStore) (source model : String) (f : ScannedFile)
    (vectors : List (List ℚ)) (io : FileIO) : Prop :=
  io.upsertFault = some 0 ∨
    Unbroken 2 io.upsertFault ∧ vectors.length = (corpus.chunks f.content).length ∧
      let t := Tables.upsert f.path (fileRow corpus source f) s.conn.working
      Replaces { s with conn := ⟨t, t, false⟩ } f.path source model
        (chunkRows corpus f vectors io.ids) io.now io.replaceFault

/-- The sync of a file keeps hashes and chunks together. -/
def FileSound (s : MemoryStore) (metaDone : Bool) (source model : String)
    (prev : Option FileRow) (f : ScannedFile) (io : FileIO) : Prop :=
  io.walkRaises = false → prev.any (·.hash = corpus.sha256 f.content) = false →
    io.chunkerRaises = false →
      if corpus.chunks f.content = [] then
        prev.isSome = true → StoreSound corpus s (.deleteFile f.path) io.deleteFault
      else ∀ vectors ∈ io.vectors, (prepareFile s metaDone vectors io).2 = true →
        StoresWhole corpus (prepareFile s metaDone vectors io).1 source model f vectors io

/-- Every file synced is. -/
def FilesSound (source model : String) (existing : Dict String FileRow) :
    MemoryStore → Bool → List (ScannedFile × FileIO) → Prop
  | _, _, [] => True
  | s, metaDone, (f, io) :: files =>
    let prev := existing.get? f.path
    FileSound corpus s metaDone source model prev f io ∧
      ((syncFile corpus s metaDone source model prev f io).2.1 = true →
        FilesSound source model existing (syncFile corpus s metaDone source model prev f io).1
          (syncFile corpus s metaDone source model prev f io).2.2 files)

/-- So are the deletions of the files that are gone. -/
def SourceSound (s : MemoryStore) (metaDone : Bool) (model : String) (scan : SourceScan) : Prop :=
  let existing := existingFiles s.conn.working scan.source
  let r := syncFiles corpus scan.source model existing s metaDone scan.files
  scan.listRaises = false →
    FilesSound corpus scan.source model existing s metaDone scan.files ∧
      (r.2.1 = true → CallsSound corpus r.1 (goneCalls existing scan))

def SourcesSound (model : String) : MemoryStore → Bool → List SourceScan → Prop
  | _, _, [] => True
  | s, metaDone, scan :: scans =>
    SourceSound corpus s metaDone model scan ∧
      ((syncSource corpus s metaDone model scan).2.1 = true →
        SourcesSound model (syncSource corpus s metaDone model scan).1
          (syncSource corpus s metaDone model scan).2.2 scans)

/-- An event that keeps hashes and chunks together. -/
def Sound (s : MemoryStore) : IndexerEvent → Prop
  | .store op fault => StoreSound corpus s op fault
  | .sync model sources => SourcesSound corpus model s false sources

end

variable {corpus : Corpus}

theorem pieces_congr {t t' : Tables} (h : t'.chunks = t.chunks) (path : String) :
    pieces t' path = pieces t path := by
  rw [pieces, pieces, h]

/-- The vectors and full texts have no part in it. -/
theorem Current.congr {t t' : Tables} (h : Current corpus t) (hf : t'.files = t.files)
    (hc : t'.chunks = t.chunks) : Current corpus t' := by
  refine ⟨hf ▸ h.keys, fun path row hrow => ?_⟩
  rw [hf] at hrow
  obtain ⟨content, hhash, hpieces⟩ := h.fits path row hrow
  exact ⟨content, hhash, (pieces_congr hc path).trans hpieces⟩

theorem Current.upsert {t : Tables} (h : Current corpus t) {path : String} {row : FileRow}
    (hfits : Fits corpus t path row.hash) : Current corpus (Tables.upsert path row t) := by
  refine ⟨Dict.nodup_keys_set h.keys path row, fun path' row' hrow' => ?_⟩
  have hrow' : (t.files.set path row).get? path' = some row' := hrow'
  rw [Dict.get?_set] at hrow'
  split_ifs at hrow' with hpath
  · obtain rfl := Option.some.inj hrow'
    exact hpath ▸ hfits
  · exact h.fits path' row' hrow'

theorem pieces_deleteChunks_self (t : Tables) (path : String) :
    pieces (Tables.deleteChunks path t) path = [] := by
  simp [pieces, Tables.deleteChunks, List.filter_filter]

theorem pieces_deleteChunks_of_ne (t : Tables) {path q : String} (h : q ≠ path) :
    pieces (Tables.deleteChunks path t) q = pieces t q := by
  have hfilter : (t.chunks.filter (·.path ≠ path)).filter (·.path = q) =
      t.chunks.filter (·.path = q) := by
    rw [List.filter_filter]
    refine List.filter_congr fun r _ => ?_
    by_cases hq : r.path = q
    · simp [hq, h]
    · simp [hq]
  rw [pieces, pieces, Tables.deleteChunks, hfilter]

/-- Deleting the chunks of a path that has none changes nothing. -/
theorem Current.deleteChunks {t : Tables} (h : Current corpus t) {path : String}
    (hnone : pieces t path = []) : Current corpus (Tables.deleteChunks path t) := by
  refine ⟨h.keys, fun q row hrow => ?_⟩
  obtain ⟨content, hhash, hpieces⟩ := h.fits q row hrow
  refine ⟨content, hhash, ?_⟩
  by_cases hq : q = path
  · rw [hq, pieces_deleteChunks_self, ← hnone, ← hq, hpieces]
  · rw [pieces_deleteChunks_of_ne t hq, hpieces]

theorem pieces_deleteFile_of_ne (t : Tables) {path q : String} (h : q ≠ path) :
    pieces (Tables.deleteFile path t) q = pieces t q :=
  pieces_deleteChunks_of_ne t h

theorem Current.deleteFile {t : Tables} {path : String} (hkeys : (Dict.keys t.files).Nodup)
    (h : ∀ q ≠ path, ∀ row, t.files.get? q = some row → Fits corpus t q row.hash) :
    Current corpus (Tables.deleteFile path t) := by
  refine ⟨Dict.nodup_keys_erase hkeys path, fun q row hrow => ?_⟩
  have hrow : (t.files.erase path).get? q = some row := hrow
  by_cases hq : q = path
  · rw [hq, Dict.get?_erase_self] at hrow
    exact absurd hrow (by simp)
  · rw [Dict.get?_erase_of_ne hq] at hrow
    obtain ⟨content, hhash, hpieces⟩ := h q hq row hrow
    exact ⟨content, hhash, (pieces_deleteFile_of_ne t hq).trans hpieces⟩

/-- What one stored chunk adds. -/
theorem pieces_insertStatements {t t' : Tables} {path source model : String} {now : ℚ}
    {c : NewChunk} (h : effects (insertStatements path source model now c) t = some t') :
    t'.files = t.files ∧ pieces t' path = pieces t path ++ [c.piece] ∧
      ∀ q ≠ path, pieces t' q = pieces t q := by
  simp only [insertStatements, write, effects, Option.bind_eq_some_iff, Option.bind_some,
    Option.some.injEq] at h
  obtain ⟨t₁, h₁, t₂, h₂, rfl⟩ := h
  unfold Tables.insertChunk at h₁
  unfold Tables.insertVec at h₂
  split_ifs at h₁ with hrow
  split_ifs at h₂ with hvec
  obtain rfl := Option.some.inj h₁
  obtain rfl := Option.some.inj h₂
  refine ⟨rfl, ?_, fun q hq => ?_⟩
  · simp [pieces, Tables.insertFts, NewChunk.piece, List.filter_append]
  · simp [pieces, Tables.insertFts, List.filter_append, hq.symm]

theorem pieces_storeChunks {path source model : String} {now : ℚ} {cs : List NewChunk}
    {t t' : Tables} (h : storeChunks path source model now cs t = some t') :
    t'.files = t.files ∧ pieces t' path = pieces t path ++ cs.map NewChunk.piece ∧
      ∀ q ≠ path, pieces t' q = pieces t q := by
  induction cs generalizing t with
  | nil =>
    obtain rfl := Option.some.inj h
    simp
  | cons c cs ih =>
    obtain ⟨t₁, h₁, h₂⟩ := Option.bind_eq_some_iff.1 h
    obtain ⟨hfiles, hpath, hother⟩ := pieces_insertStatements h₁
    obtain ⟨hfiles', hpath', hother'⟩ := ih h₂
    refine ⟨hfiles'.trans hfiles, ?_, fun q hq => (hother' q hq).trans (hother q hq)⟩
    rw [hpath', hpath, List.map_cons, List.append_assoc, List.singleton_append]

/-- The chunks of a file replaced, nothing else changed. -/
theorem pieces_replaced {path source model : String} {now : ℚ} {cs : List NewChunk}
    {t t' : Tables} (h : storeChunks path source model now cs (purge path t) = some t') :
    t'.files = t.files ∧ pieces t' path = cs.map NewChunk.piece ∧
      ∀ q ≠ path, pieces t' q = pieces t q := by
  obtain ⟨hfiles, hpath, hother⟩ := pieces_storeChunks h
  refine ⟨hfiles, ?_, fun q hq => (hother q hq).trans ?_⟩
  · have hnone : pieces (purge path t) path = [] := pieces_deleteChunks_self _ path
    rw [hpath, hnone, List.nil_append]
  · exact pieces_deleteChunks_of_ne _ hq

/-- Replaced chunks that fit the recorded hash. -/
theorem Current.replaced {path source model : String} {now : ℚ} {cs : List NewChunk}
    {t t' : Tables} (ht : Current corpus t)
    (h : storeChunks path source model now cs (purge path t) = some t')
    (hfits : ∀ row, t.files.get? path = some row →
      ∃ content, corpus.sha256 content = row.hash ∧ cs.map NewChunk.piece = corpus.chunks content) :
    Current corpus t' := by
  obtain ⟨hfiles, hpath, hother⟩ := pieces_replaced h
  refine ⟨hfiles ▸ ht.keys, fun q row hrow => ?_⟩
  rw [hfiles] at hrow
  by_cases hq : q = path
  · obtain ⟨content, hhash, hpieces⟩ := hfits row (hq ▸ hrow)
    exact ⟨content, hhash, by rw [hq, hpath, hpieces]⟩
  · obtain ⟨content, hhash, hpieces⟩ := ht.fits q row hrow
    exact ⟨content, hhash, by rw [hother q hq, hpieces]⟩

/-! ## What the operations keep -/

/-- The same files and chunks, whatever is indexed. -/
def SameRows (t t' : Tables) : Prop :=
  t'.files = t.files ∧ t'.chunks = t.chunks

theorem SameRows.refl (t : Tables) : SameRows t t :=
  ⟨rfl, rfl⟩

theorem SameRows.trans {t t' t'' : Tables} (h : SameRows t t') (h' : SameRows t' t'') :
    SameRows t t'' :=
  ⟨h'.1.trans h.1, h'.2.trans h.2⟩

theorem Current.sameRows {t t' : Tables} (h : Current corpus t) (h' : SameRows t t') :
    Current corpus t' :=
  h.congr h'.1 h'.2

/-- A statement that touches no file and no chunk. -/
def Indexes : Statement Tables → Prop
  | .write f => ∀ t, ∀ t' ∈ f t, SameRows t t'
  | .define f => ∀ t, SameRows t (f t)
  | _ => True

/-- Tables with the files and chunks of what a connection sees or has committed. -/
def RowsOf (c : Connection Tables) (t : Tables) : Prop :=
  SameRows c.working t ∨ SameRows c.committed t

theorem Current.rowsOf {c : Connection Tables} (hw : Current corpus c.working)
    (hc : Current corpus c.committed) {t : Tables} (h : RowsOf c t) : Current corpus t :=
  h.elim hw.sameRows hc.sameRows

/-- A program that touches no file and no chunk. -/
theorem sameRows_run (c : Connection Tables) (ss : List (Statement Tables))
    (hss : ∀ st ∈ ss, Indexes st) (fault : Option ℕ) :
    SameRows c.working (c.run ss fault).1.working ∧ RowsOf c (c.run ss fault).1.committed := by
  refine Connection.run_invariant
    (I := fun c' => SameRows c.working c'.working ∧ RowsOf c c'.committed)
    (fun st hst c' hc' => ?_) (fun st _ c' hc' => ?_) ⟨.refl _, .inr (.refl _)⟩ fault
  · obtain ⟨hworking, hcommitted⟩ := hc'
    have hindexes := hss st hst
    cases st with
    | write f =>
      rw [Connection.exec]
      cases hf : f c'.working with
      | none => exact ⟨hworking, hcommitted⟩
      | some t => exact ⟨hworking.trans (hindexes _ t hf), hcommitted⟩
    | define f =>
      have hdefine := hworking.trans (hindexes c'.working)
      rw [Connection.exec]
      split_ifs
      · exact ⟨hdefine, hcommitted⟩
      · exact ⟨hdefine, .inl hdefine⟩
    | begin =>
      rw [Connection.exec]
      split_ifs <;> exact ⟨hworking, hcommitted⟩
    | commit => exact ⟨hworking, .inl hworking⟩
    | select => exact ⟨hworking, hcommitted⟩
    | invalid => exact ⟨hworking, hcommitted⟩
  · cases st <;> exact hc'

theorem indexes_deleteIndexed (t : Tables) (ids : List String) :
    ∀ st ∈ deleteIndexed t ids, Indexes st := by
  unfold deleteIndexed vecWrite
  split_ifs
  · simp
  · simp [Indexes, write, Tables.deleteFts, SameRows]
  · simp [Indexes, write, Tables.deleteFts, Tables.deleteVec, SameRows]

/-- Two writes and a `commit` after statements that touch no file and no chunk. -/
theorem current_two_writes {c : Connection Tables} (ss : List (Statement Tables))
    (hss : ∀ st ∈ ss, Indexes st) (f g : Tables → Tables) (fault : Option ℕ)
    (hw : Current corpus c.working) (hc : Current corpus c.committed)
    (hf : fault = some (ss.length + 1) → ∀ t, SameRows c.working t → Current corpus (f t))
    (hg : ∀ t, SameRows c.working t → Current corpus (g (f t))) :
    Current corpus (c.run (ss ++ [write f, write g, .commit]) fault).1.working ∧
      Current corpus (c.run (ss ++ [write f, write g, .commit]) fault).1.committed := by
  obtain ⟨hworking, hcommitted⟩ := sameRows_run c ss hss fault
  have hcommitted' := Current.rowsOf hw hc hcommitted
  rw [Connection.run_append]
  split_ifs with hreturns
  · have hsecond : fault.map (· - ss.length) = some 1 → fault = some (ss.length + 1) := by
      rintro hfault
      obtain ⟨k, rfl, hk⟩ := Option.map_eq_some_iff.1 hfault
      congr 1
      omega
    have hboth := hg _ hworking
    rcases hfault : fault.map (· - ss.length) with _ | _ | _ | _ | k
    · exact ⟨hboth, hboth⟩
    · exact ⟨hw.sameRows hworking, hcommitted'⟩
    · exact ⟨hf (hsecond hfault) _ hworking, hcommitted'⟩
    · exact ⟨hboth, hcommitted'⟩
    · exact ⟨hboth, hboth⟩
  · exact ⟨hw.sameRows hworking, hcommitted'⟩

theorem StoreCurrent.deleteFile {s : MemoryStore} (hs : StoreCurrent corpus s) {path : String}
    {fault : Option ℕ} (hsound : StoreSound corpus s (.deleteFile path) fault) :
    StoreCurrent corpus (s.exec (.deleteFile path) fault).1 := by
  have hprefix : ∀ st ∈ Statement.select :: deleteIndexed s.conn.working
      (s.conn.working.idsOf path), Indexes st := by
    rintro st hst
    rcases List.mem_cons.1 hst with rfl | hst
    · trivial
    · exact indexes_deleteIndexed _ _ st hst
  have hstatements : deleteFileStatements s.conn.working path ++ [.commit] =
      (.select :: deleteIndexed s.conn.working (s.conn.working.idsOf path)) ++
        [write (Tables.deleteChunks path), write (Tables.deleteFile path), .commit] := by
    simp [deleteFileStatements]
  have hlength : (deleteFileStatements s.conn.working path).length - 1 =
      (Statement.select :: deleteIndexed s.conn.working
        (s.conn.working.idsOf path)).length + 1 := by
    simp [deleteFileStatements]
  change Current corpus (s.conn.run (_ ++ [.commit]) fault).1.working ∧
    Current corpus (s.conn.run (_ ++ [.commit]) fault).1.committed
  rw [hstatements]
  refine current_two_writes _ hprefix _ _ fault hs.1 hs.2 (fun hfault t ht => ?_) fun t ht => ?_
  · have hnone := hsound (hlength ▸ hfault)
    exact (hs.1.sameRows ht).deleteChunks ((pieces_congr ht.2 path).trans hnone)
  · have hcurrent := hs.1.sameRows ht
    refine Current.deleteFile hcurrent.keys fun q hq row hrow => ?_
    obtain ⟨content, hhash, hpieces⟩ := hcurrent.fits q row hrow
    exact ⟨content, hhash, (pieces_deleteChunks_of_ne t hq).trans hpieces⟩

theorem StoreCurrent.clearAll {s : MemoryStore} (hs : StoreCurrent corpus s) {fault : Option ℕ}
    (hsound : StoreSound corpus s .clearAll fault) :
    StoreCurrent corpus (s.exec .clearAll fault).1 := by
  refine current_two_writes [vecWrite s.conn.working fun t => { t with vec := [] },
    write fun t => { t with fts := [] }] ?_ _ _ fault hs.1 hs.2 (fun hfault t ht => ?_)
    fun t ht => ?_
  · unfold vecWrite
    split_ifs <;> simp [Indexes, write, SameRows]
  · have hnone : t.chunks = [] := ht.2.trans (hsound hfault)
    exact (hs.1.sameRows ht).congr rfl hnone.symm
  · exact ⟨List.nodup_nil, fun path row hrow => absurd hrow (by simp [Dict.get?])⟩

theorem StoreCurrent.upsertFile {s : MemoryStore} (hs : StoreCurrent corpus s) {path : String}
    {row : FileRow} {fault : Option ℕ} (hsound : StoreSound corpus s (.upsertFile path row) fault) :
    StoreCurrent corpus (s.exec (.upsertFile path row) fault).1 := by
  have hupsert (hf : fault ≠ some 0) := hs.1.upsert (hsound hf)
  rcases fault with _ | _ | _ | k
  · exact ⟨hupsert (by simp), hupsert (by simp)⟩
  · exact ⟨hs.1, hs.2⟩
  · exact ⟨hupsert (by simp), hs.2⟩
  · exact ⟨hupsert (by simp), hupsert (by simp)⟩

theorem sameRows_ensureVecTable (s : MemoryStore) (dim : ℕ) (fault : Option ℕ) :
    SameRows s.conn.working (s.ensureVecTable dim fault).1.conn.working ∧
      RowsOf s.conn (s.ensureVecTable dim fault).1.conn.committed := by
  have hrun := sameRows_run s.conn [.define (Tables.createVec dim), .commit]
    (by simp [Indexes, Tables.createVec, SameRows]) fault
  unfold MemoryStore.ensureVecTable
  cases hdim : s.dim with
  | some d => exact ⟨.refl _, .inr (.refl _)⟩
  | none =>
    rcases hresult : s.onConn [.define (Tables.createVec dim)] fault with ⟨s', _ | _⟩
    all_goals
      have hconn : s'.conn = (s.conn.run [.define (Tables.createVec dim), .commit] fault).1 :=
        congrArg (fun r => r.1.conn) hresult.symm
      dsimp only
      rw [hconn]
      exact hrun

theorem StoreCurrent.ensureVecTable {s : MemoryStore} (hs : StoreCurrent corpus s) (dim : ℕ)
    (fault : Option ℕ) : StoreCurrent corpus (s.ensureVecTable dim fault).1 := by
  obtain ⟨hworking, hcommitted⟩ := sameRows_ensureVecTable s dim fault
  exact ⟨hs.1.sameRows hworking, .rowsOf hs.1 hs.2 hcommitted⟩

theorem sameRows_metaWrite (s : MemoryStore) (fault : Option ℕ) :
    SameRows s.conn.working (s.exec .metaWrite fault).1.conn.working ∧
      RowsOf s.conn (s.exec .metaWrite fault).1.conn.committed :=
  sameRows_run s.conn [write id, .commit] (by simp [Indexes, write, SameRows]) fault

theorem StoreCurrent.metaWrite {s : MemoryStore} (hs : StoreCurrent corpus s)
    (fault : Option ℕ) : StoreCurrent corpus (s.exec .metaWrite fault).1 := by
  obtain ⟨hworking, hcommitted⟩ := sameRows_metaWrite s fault
  exact ⟨hs.1.sameRows hworking, .rowsOf hs.1 hs.2 hcommitted⟩

theorem conn_replaceChunks {s : MemoryStore} (h : Inv s) (path source model : String)
    (cs : List NewChunk) (now : ℚ) (fault : Option ℕ) :
    ((s.replaceChunks path source model cs now fault).2 = true ∧
      ∃ t, storeChunks path source model now cs (purge path s.conn.working) = some t ∧
        (s.replaceChunks path source model cs now fault).1.conn = ⟨t, t, false⟩) ∨
    ((s.replaceChunks path source model cs now fault).2 = false ∧
      (s.replaceChunks path source model cs now fault).1.conn =
        ⟨s.conn.committed, s.conn.committed, false⟩) := by
  have hiff := replaceChunks_returns_iff s path source model cs now fault
  rcases replaceChunks_cases h path source model cs now fault with ⟨t, ht, hresult⟩ | hresult
  · rw [hresult] at hiff ⊢
    have hidle : s.conn.working = s.conn.committed := h.conn.idle (hiff.1 rfl).1
    exact .inl ⟨rfl, t, hidle ▸ ht, rfl⟩
  · rw [hresult]
    exact .inr ⟨rfl, rfl⟩

/-- Chunks that are replaced are replaced in the files and chunks the connection saw; else
nothing but an open transaction is lost. -/
theorem exec_replace_cases {s : MemoryStore} (h : Inv s) (path source model : String)
    (cs : List NewChunk) (now : ℚ) (fault : Option ℕ) :
    let r := s.exec (.replaceChunksForFile path source model cs now) fault
    (Replaces s path source model cs now fault ∧ ∃ t₀ t, SameRows s.conn.working t₀ ∧
      storeChunks path source model now cs (purge path t₀) = some t ∧
      r.1.conn = ⟨t, t, false⟩) ∨
    (r.2 = false ∧ RowsOf s.conn r.1.conn.working ∧ RowsOf s.conn r.1.conn.committed) := by
  intro r
  have hiff : r.2 = true ↔ Replaces s path source model cs now fault :=
    exec_replace_returns_iff s path source model cs now fault
  rw [← hiff]
  have hr : r = s.exec (.replaceChunksForFile path source model cs now) fault := rfl
  clear_value r
  cases cs with
  | nil =>
    rw [MemoryStore.exec] at hr
    rcases conn_replaceChunks h path source model [] now fault with
      ⟨hreturns, t, ht, hconn⟩ | ⟨hraises, hconn⟩
    · exact .inl ⟨hr ▸ hreturns, _, t, .refl _, ht, hr ▸ hconn⟩
    · rw [hr, hconn]
      exact .inr ⟨hraises, .inr (.refl _), .inr (.refl _)⟩
  | cons c cs =>
    have hinv := h.ensureVecTable c.embedding.length fault
    obtain ⟨hworking, hcommitted⟩ := sameRows_ensureVecTable s c.embedding.length fault
    simp only [MemoryStore.exec] at hr
    rcases hensure : s.ensureVecTable c.embedding.length fault with ⟨s', _ | _⟩
    all_goals rw [hensure] at hr hinv hworking hcommitted
    · rw [hr]
      exact .inr ⟨rfl, .inl hworking, hcommitted⟩
    · rcases conn_replaceChunks hinv path source model (c :: cs) now
        (fault.map (· - if s.dim = none then 2 else 0)) with ⟨hreturns, t, ht, hconn⟩ | ⟨hraises, hconn⟩
      · exact .inl ⟨hr ▸ hreturns, _, t, hworking, ht, hr ▸ hconn⟩
      · refine .inr ⟨hr ▸ hraises, ?_⟩
        rw [hr, hconn]
        exact ⟨hcommitted, hcommitted⟩

theorem StoreCurrent.replaceChunks {s : MemoryStore} (hs : StoreCurrent corpus s) (h : Inv s)
    {path source model : String} {cs : List NewChunk} {now : ℚ} {fault : Option ℕ}
    (hsound : StoreSound corpus s (.replaceChunksForFile path source model cs now) fault) :
    StoreCurrent corpus (s.exec (.replaceChunksForFile path source model cs now) fault).1 := by
  rcases exec_replace_cases h path source model cs now fault with
    ⟨hreplaces, t₀, t, ht₀, ht, hconn⟩ | ⟨-, hworking, hcommitted⟩
  · have hcurrent : Current corpus t :=
      (hs.1.sameRows ht₀).replaced ht fun row hrow => hsound hreplaces row (ht₀.1 ▸ hrow)
    rw [StoreCurrent, hconn]
    exact ⟨hcurrent, hcurrent⟩
  · exact ⟨.rowsOf hs.1 hs.2 hworking, .rowsOf hs.1 hs.2 hcommitted⟩

/-- A sound operation keeps recorded hashes and stored chunks together, wherever it raises. -/
theorem StoreCurrent.exec {s : MemoryStore} (hs : StoreCurrent corpus s) (h : Inv s)
    {op : StoreOp} {fault : Option ℕ} (hsound : StoreSound corpus s op fault) :
    StoreCurrent corpus (s.exec op fault).1 := by
  cases op with
  | upsertFile path row => exact hs.upsertFile hsound
  | deleteFile path => exact hs.deleteFile hsound
  | replaceChunksForFile path source model cs now => exact hs.replaceChunks h hsound
  | clearAll => exact hs.clearAll hsound
  | ensureVecTable dim => exact hs.ensureVecTable dim fault
  | metaWrite => exact hs.metaWrite fault

/-! ## A sync -/

theorem RowsOf.trans {c c' : Connection Tables} {t : Tables} (hw : SameRows c.working c'.working)
    (hc : RowsOf c c'.committed) (h : RowsOf c' t) : RowsOf c t := by
  rcases h with h | h
  · exact .inl (hw.trans h)
  · exact hc.imp (·.trans h) (·.trans h)

/-- What goes before a file is recorded touches no file and no chunk. -/
def Prepares : StoreOp → Prop
  | .metaWrite | .ensureVecTable _ => True
  | _ => False

theorem sameRows_prepares {op : StoreOp} (hop : Prepares op) (s : MemoryStore)
    (fault : Option ℕ) : SameRows s.conn.working (s.exec op fault).1.conn.working ∧
      RowsOf s.conn (s.exec op fault).1.conn.committed := by
  cases op with
  | metaWrite => exact sameRows_metaWrite s fault
  | ensureVecTable dim => exact sameRows_ensureVecTable s dim fault
  | _ => exact hop.elim

theorem sameRows_runCalls {s : MemoryStore} (h : Inv s) (calls : List (StoreOp × Option ℕ))
    (hcalls : ∀ call ∈ calls, Prepares call.1) : Inv (s.runCalls calls).1 ∧
      SameRows s.conn.working (s.runCalls calls).1.conn.working ∧
      RowsOf s.conn (s.runCalls calls).1.conn.committed := by
  induction calls generalizing s with
  | nil => exact ⟨h, .refl _, .inr (.refl _)⟩
  | cons call calls ih =>
    obtain ⟨op, fault⟩ := call
    obtain ⟨hworking, hcommitted⟩ := sameRows_prepares (hcalls _ List.mem_cons_self) s fault
    have hinv : Inv (s.exec op fault).1 := h.step (op, fault)
    rw [MemoryStore.runCalls]
    rcases hresult : s.exec op fault with ⟨s', _ | _⟩
    all_goals rw [hresult] at hworking hcommitted hinv
    · exact ⟨hinv, hworking, hcommitted⟩
    · obtain ⟨hinv', hworking', hcommitted'⟩ :=
        ih hinv fun call hcall => hcalls call (List.mem_cons_of_mem _ hcall)
      exact ⟨hinv', hworking.trans hworking', .trans hworking hcommitted hcommitted'⟩

theorem sameRows_prepareFile {s : MemoryStore} (h : Inv s) (metaDone : Bool)
    (vectors : List (List ℚ)) (io : FileIO) : Inv (prepareFile s metaDone vectors io).1 ∧
      SameRows s.conn.working (prepareFile s metaDone vectors io).1.conn.working ∧
      RowsOf s.conn (prepareFile s metaDone vectors io).1.conn.committed := by
  have hcache : ∀ call ∈ cacheCalls io, Prepares call.1 := by
    simp [cacheCalls, Prepares]
  have hfirst := sameRows_runCalls h (cacheCalls io) hcache
  unfold prepareFile
  rcases hresult : s.runCalls (cacheCalls io) with ⟨s', _ | _⟩
  all_goals rw [hresult] at hfirst
  · exact hfirst
  · dsimp only
    split_ifs
    · exact hfirst
    · exact hfirst
    · obtain ⟨hinv, hworking, hcommitted⟩ := hfirst
      obtain ⟨hinv', hworking', hcommitted'⟩ := sameRows_runCalls hinv
        [(.metaWrite, io.metaFault), (.ensureVecTable _, io.ensureFault)] (by simp [Prepares])
      exact ⟨hinv', hworking.trans hworking', .trans hworking hcommitted hcommitted'⟩

theorem StoreCurrent.sameRows {s s' : MemoryStore} (hs : StoreCurrent corpus s)
    (hw : SameRows s.conn.working s'.conn.working) (hc : RowsOf s.conn s'.conn.committed) :
    StoreCurrent corpus s' :=
  ⟨hs.1.sameRows hw, .rowsOf hs.1 hs.2 hc⟩

/-- The chunks stored for a file are those of its content. -/
theorem piece_chunkRows {f : ScannedFile} {vectors : List (List ℚ)}
    (hlength : vectors.length = (corpus.chunks f.content).length) (ids : ℕ → String) :
    (chunkRows corpus f vectors ids).map NewChunk.piece = corpus.chunks f.content := by
  have hpiece : NewChunk.piece ∘ (fun e : (Piece × List ℚ) × ℕ =>
      ({ id := ids e.2, startLine := e.1.1.1, endLine := e.1.1.2.1, text := e.1.1.2.2
         hash := corpus.sha256Text e.1.1.2.2, embedding := e.1.2 } : NewChunk)) =
      Prod.fst ∘ Prod.fst := rfl
  rw [chunkRows, List.map_map, hpiece, ← List.map_map, List.zipIdx_map_fst,
    List.map_fst_zip hlength.ge]

/-- A file recorded and its chunks replaced. -/
theorem Current.stored {t t₀ t' : Tables} (ht : Current corpus t) {path source model : String}
    {row : FileRow} {now : ℚ} {cs : List NewChunk} (ht₀ : SameRows (Tables.upsert path row t) t₀)
    (h : storeChunks path source model now cs (purge path t₀) = some t')
    (hfits : ∃ content, corpus.sha256 content = row.hash ∧
      cs.map NewChunk.piece = corpus.chunks content) :
    Current corpus t' ∧ ∀ q ≠ path, pieces t' q = pieces t q := by
  obtain ⟨hfiles, hpath, hother⟩ := pieces_replaced h
  have hfiles' : t'.files = t.files.set path row := hfiles.trans ht₀.1
  have hother' (q : String) (hq : q ≠ path) : pieces t' q = pieces t q :=
    (hother q hq).trans (pieces_congr ht₀.2 q)
  refine ⟨⟨hfiles' ▸ Dict.nodup_keys_set ht.keys path row, fun q row' hrow => ?_⟩, hother'⟩
  rw [hfiles', Dict.get?_set] at hrow
  split_ifs at hrow with hq
  · obtain rfl := Option.some.inj hrow
    obtain ⟨content, hhash, hpieces⟩ := hfits
    exact ⟨content, hhash, by rw [hq, hpath, hpieces]⟩
  · obtain ⟨content, hhash, hpieces⟩ := ht.fits q row' hrow
    exact ⟨content, hhash, (hother' q hq).trans hpieces⟩

/-- What the sync of one file leaves : the invariant, and where it goes on the chunks of other
files as they were. -/
structure Leaves (corpus : Corpus) (path : String) (s : MemoryStore) (r : MemoryStore × Bool) :
    Prop where
  inv : Inv r.1
  current : StoreCurrent corpus r.1
  others : r.2 = true → ∀ q ≠ path, pieces r.1.conn.working q = pieces s.conn.working q

theorem Leaves.exec {s : MemoryStore} (h : Inv s) (hs : StoreCurrent corpus s) {op : StoreOp}
    {fault : Option ℕ} (hsound : StoreSound corpus s op fault) {path : String}
    (hothers : (s.exec op fault).2 = true →
      ∀ q ≠ path, pieces (s.exec op fault).1.conn.working q = pieces s.conn.working q) :
    Leaves corpus path s (s.exec op fault) :=
  ⟨h.step (op, fault), hs.exec h hsound, hothers⟩

theorem pieces_exec_upsertFile (s : MemoryStore) (path : String) (row : FileRow)
    (fault : Option ℕ) (q : String) :
    pieces (s.exec (.upsertFile path row) fault).1.conn.working q = pieces s.conn.working q := by
  rcases fault with _ | _ | _ | k <;> rfl

theorem pieces_exec_deleteFile {s : MemoryStore} {path : String} {fault : Option ℕ}
    (hreturns : (s.exec (.deleteFile path) fault).2 = true) {q : String} (hq : q ≠ path) :
    pieces (s.exec (.deleteFile path) fault).1.conn.working q = pieces s.conn.working q := by
  obtain ⟨t, ht, hconn⟩ := Connection.run_commit_of_returns hreturns
  have hworking : (s.exec (.deleteFile path) fault).1.conn.working = t :=
    congrArg Connection.working hconn
  rw [hworking, effects_deleteFileStatements ht, pieces_deleteFile_of_ne _ hq]
  exact pieces_deleteChunks_of_ne _ hq

/-- A file is not recorded, or recorded and its chunks stored. -/
theorem leaves_storeFile {s : MemoryStore} (h : Inv s) (hs : StoreCurrent corpus s)
    {source model : String} {f : ScannedFile} {vectors : List (List ℚ)} {io : FileIO}
    (hsound : StoresWhole corpus s source model f vectors io) :
    Leaves corpus f.path s (storeFile corpus s source model f vectors io) := by
  have hinv := h.step (.upsertFile f.path (fileRow corpus source f), io.upsertFault)
  unfold storeFile
  rcases hsound with hfirst | ⟨hunbroken, hlength, hreplaces⟩
  · have hraises : s.exec (.upsertFile f.path (fileRow corpus source f)) (some 0) =
        ({ s with conn := { s.conn with inTransaction := true } }, false) := rfl
    rw [hfirst] at hinv ⊢
    rw [hraises]
    exact ⟨hinv, hs, nofun⟩
  · set t := Tables.upsert f.path (fileRow corpus source f) s.conn.working with ht
    have hupsert : s.exec (.upsertFile f.path (fileRow corpus source f)) io.upsertFault =
        ({ s with conn := ⟨t, t, false⟩ }, true) := by
      rcases hfault : io.upsertFault with _ | _ | _ | k
      · rfl
      · exact absurd (hunbroken 0 hfault) (by simp)
      · exact absurd (hunbroken 1 hfault) (by simp)
      · rfl
    rw [MemoryStore.step, hupsert] at hinv
    rw [hupsert]
    dsimp only at hinv hreplaces ⊢
    rw [if_pos hlength]
    have hinv' := hinv.step (.replaceChunksForFile f.path source model
      (chunkRows corpus f vectors io.ids) io.now, io.replaceFault)
    rcases exec_replace_cases hinv f.path source model (chunkRows corpus f vectors io.ids) io.now
      io.replaceFault with ⟨-, t₀, t', ht₀, ht', hconn⟩ | ⟨hraises, -⟩
    · obtain ⟨hcurrent, hothers⟩ := hs.1.stored ht₀ ht'
        ⟨f.content, rfl, piece_chunkRows hlength io.ids⟩
      refine ⟨hinv', ?_, fun _ => ?_⟩
      · rw [StoreCurrent, hconn]
        exact ⟨hcurrent, hcurrent⟩
      · rw [hconn]
        exact hothers
    · have hreturns := (exec_replace_returns_iff _ _ _ _ _ _ _).2 hreplaces
      exact absurd (hraises.symm.trans hreturns) (by simp)

/-- The sync of a file whose recorded hash the stored chunks fit. -/
theorem leaves_syncFile {s : MemoryStore} (h : Inv s) (hs : StoreCurrent corpus s)
    {metaDone : Bool} {source model : String} {prev : Option FileRow} {f : ScannedFile}
    {io : FileIO} (hprev : ∀ row ∈ prev, Fits corpus s.conn.working f.path row.hash)
    (hsound : FileSound corpus s metaDone source model prev f io) :
    Leaves corpus f.path s ((syncFile corpus s metaDone source model prev f io).1,
      (syncFile corpus s metaDone source model prev f io).2.1) := by
  have hsame (ok : Bool) : Leaves corpus f.path s (s, ok) := ⟨h, hs, fun _ _ _ => rfl⟩
  unfold syncFile
  by_cases hwalk : io.walkRaises = true
  · rw [if_pos hwalk]
    exact hsame false
  rw [if_neg hwalk]
  by_cases hskip : prev.any (·.hash = corpus.sha256 f.content) = true
  · rw [if_pos hskip]
    split_ifs
    · obtain ⟨row, hrow, hhash⟩ : ∃ row ∈ prev, row.hash = corpus.sha256 f.content := by
        simpa [Option.any_eq_true] using hskip
      have hfits : StoreSound corpus s (.upsertFile f.path (fileRow corpus source f))
          io.upsertFault := by
        intro _
        have hfits := hprev row hrow
        rwa [hhash] at hfits
      exact .exec h hs hfits fun _ q _ => pieces_exec_upsertFile s _ _ _ q
    · exact hsame true
  rw [if_neg hskip]
  by_cases hchunker : io.chunkerRaises = true
  · rw [if_pos hchunker]
    exact hsame false
  rw [if_neg hchunker]
  have hsound := hsound (by simpa using hwalk) (by simpa using hskip) (by simpa using hchunker)
  by_cases hnone : corpus.chunks f.content = []
  · rw [if_pos hnone] at hsound ⊢
    by_cases hsome : prev.isSome = true
    · rw [if_pos hsome]
      exact .exec h hs (hsound hsome) fun hreturns q hq => pieces_exec_deleteFile hreturns hq
    · rw [if_neg hsome]
      exact hsame true
  rw [if_neg hnone] at hsound ⊢
  rcases hvectors : io.vectors with _ | vectors
  · obtain ⟨hinv, hworking, hcommitted⟩ := sameRows_runCalls h (cacheCalls io)
      (by simp [cacheCalls, Prepares])
    exact ⟨hinv, hs.sameRows hworking hcommitted, fun h => absurd h Bool.false_ne_true⟩
  · obtain ⟨hinv, hworking, hcommitted⟩ := sameRows_prepareFile h metaDone vectors io
    have hcurrent := hs.sameRows hworking hcommitted
    have hwhole := hsound vectors hvectors
    dsimp only
    rcases hresult : prepareFile s metaDone vectors io with ⟨s', _ | _⟩
    all_goals rw [hresult] at hinv hworking hcurrent hwhole
    · exact ⟨hinv, hcurrent, fun h => absurd h Bool.false_ne_true⟩
    · obtain ⟨hinv', hcurrent', hothers⟩ := leaves_storeFile hinv hcurrent (hwhole rfl)
      exact ⟨hinv', hcurrent', fun hreturns q hq =>
        (hothers hreturns q hq).trans (pieces_congr hworking.2 q)⟩

theorem Fits.congr {t t' : Tables} {path hash : String} (h : Fits corpus t path hash)
    (hpieces : pieces t' path = pieces t path) : Fits corpus t' path hash := by
  obtain ⟨content, hhash, hcontent⟩ := h
  exact ⟨content, hhash, hpieces.trans hcontent⟩

/-- The files of a source, each synced against a recorded hash that the chunks stored for it
still fit : the files before it have other paths. -/
theorem current_syncFiles {source model : String} {existing : Dict String FileRow}
    {files : List (ScannedFile × FileIO)} {s : MemoryStore} {metaDone : Bool} (h : Inv s)
    (hs : StoreCurrent corpus s) (hdistinct : (files.map fun e => e.1.path).Nodup)
    (hexisting : ∀ e ∈ files, ∀ row ∈ existing.get? e.1.path,
      Fits corpus s.conn.working e.1.path row.hash)
    (hsound : FilesSound corpus source model existing s metaDone files) :
    Inv (syncFiles corpus source model existing s metaDone files).1 ∧
      StoreCurrent corpus (syncFiles corpus source model existing s metaDone files).1 := by
  induction files generalizing s metaDone with
  | nil => exact ⟨h, hs⟩
  | cons e files ih =>
    obtain ⟨f, io⟩ := e
    obtain ⟨hfile, hfiles⟩ := hsound
    obtain ⟨hinv, hcurrent, hothers⟩ :=
      leaves_syncFile h hs (hexisting (f, io) List.mem_cons_self) hfile
    rw [List.map_cons, List.nodup_cons] at hdistinct
    rw [syncFiles]
    rcases hresult : syncFile corpus s metaDone source model (existing.get? f.path) f io with
      ⟨s', _ | _, metaDone'⟩
    all_goals rw [hresult] at hinv hcurrent hothers hfiles
    · exact ⟨hinv, hcurrent⟩
    · refine ih hinv hcurrent hdistinct.2 (fun e he row hrow => ?_) (hfiles rfl)
      have hpath : e.1.path ≠ f.path := by
        intro hpath
        exact hdistinct.1 (List.mem_map.2 ⟨e, he, hpath⟩)
      exact (hexisting e (List.mem_cons_of_mem _ he) row hrow).congr (hothers rfl _ hpath)

theorem current_runCalls {s : MemoryStore} {calls : List (StoreOp × Option ℕ)} (h : Inv s)
    (hs : StoreCurrent corpus s) (hsound : CallsSound corpus s calls) :
    Inv (s.runCalls calls).1 ∧ StoreCurrent corpus (s.runCalls calls).1 := by
  induction calls generalizing s with
  | nil => exact ⟨h, hs⟩
  | cons call calls ih =>
    obtain ⟨op, fault⟩ := call
    obtain ⟨hcall, hcalls⟩ := hsound
    have hinv : Inv (s.exec op fault).1 := h.step (op, fault)
    have hcurrent := hs.exec h hcall
    rw [MemoryStore.runCalls]
    rcases hresult : s.exec op fault with ⟨s', _ | _⟩
    all_goals rw [hresult] at hinv hcurrent hcalls
    · exact ⟨hinv, hcurrent⟩
    · exact ih hinv hcurrent (hcalls rfl)

/-- What a source has is recorded. -/
theorem get?_of_existingFiles {t : Tables} (ht : (Dict.keys t.files).Nodup) {source path : String}
    {row : FileRow} (h : (existingFiles t source).get? path = some row) :
    t.files.get? path = some row :=
  Dict.get?_of_mem ht (List.mem_of_mem_filter (Dict.mem_of_get? h))

theorem current_syncSource {s : MemoryStore} {metaDone : Bool} {model : String}
    {scan : SourceScan} (h : Inv s) (hs : StoreCurrent corpus s)
    (hsound : SourceSound corpus s metaDone model scan) :
    Inv (syncSource corpus s metaDone model scan).1 ∧
      StoreCurrent corpus (syncSource corpus s metaDone model scan).1 := by
  unfold SourceSound at hsound
  unfold syncSource
  dsimp only at hsound ⊢
  by_cases hlist : scan.listRaises = true
  · rw [if_pos hlist]
    exact ⟨h, hs⟩
  rw [if_neg hlist]
  obtain ⟨hfiles, hgone⟩ := hsound (by simpa using hlist)
  obtain ⟨hinv, hcurrent⟩ := current_syncFiles h hs scan.distinct (fun e _ row hrow =>
    hs.1.fits _ row (get?_of_existingFiles hs.1.keys hrow)) hfiles
  rcases hresult : syncFiles corpus scan.source model (existingFiles s.conn.working scan.source) s
    metaDone scan.files with ⟨s', _ | _, metaDone'⟩
  all_goals rw [hresult] at hinv hcurrent hgone
  · exact ⟨hinv, hcurrent⟩
  · exact current_runCalls hinv hcurrent (hgone rfl)

theorem current_syncSources {model : String} {scans : List SourceScan} {s : MemoryStore}
    {metaDone : Bool} (h : Inv s) (hs : StoreCurrent corpus s)
    (hsound : SourcesSound corpus model s metaDone scans) :
    Inv (syncSources corpus model s metaDone scans) ∧
      StoreCurrent corpus (syncSources corpus model s metaDone scans) := by
  induction scans generalizing s metaDone with
  | nil => exact ⟨h, hs⟩
  | cons scan scans ih =>
    obtain ⟨hscan, hscans⟩ := hsound
    obtain ⟨hinv, hcurrent⟩ := current_syncSource h hs hscan
    rw [syncSources]
    rcases hresult : syncSource corpus s metaDone model scan with ⟨s', _ | _, metaDone'⟩
    all_goals rw [hresult] at hinv hcurrent hscans
    · exact ⟨hinv, hcurrent⟩
    · exact ih hinv hcurrent (hscans rfl)

/-- A sound event keeps recorded hashes and stored chunks together. -/
theorem current_step {s : MemoryStore} {e : IndexerEvent} (h : Inv s ∧ StoreCurrent corpus s)
    (hsound : Sound corpus s e) :
    Inv (indexerStep corpus s e) ∧ StoreCurrent corpus (indexerStep corpus s e) := by
  obtain ⟨hinv, hs⟩ := h
  cases e with
  | store op fault => exact ⟨hinv.step (op, fault), hs.exec hinv hsound⟩
  | sync model sources => exact current_syncSources hinv hs hsound

/-- Along a run of syncs and store operations that are sound, the stored chunks are those of a
content with the recorded hash in every state. -/
theorem current_of_sound (corpus : Corpus) {es : List IndexerEvent}
    (h : EachStep (indexerStep corpus) (Sound corpus) {} es) :
    ∀ s ∈ trail (indexerStep corpus) {} es, StoreCurrent corpus s := by
  have hnew : Current corpus {} :=
    ⟨List.nodup_nil, fun path row hrow => absurd hrow (by simp [Dict.get?])⟩
  intro s hs
  exact (h.forall_mem_trail (I := fun s => Inv s ∧ StoreCurrent corpus s)
    (fun _ _ h hsound => current_step h hsound) ⟨inv_new, hnew, hnew⟩ s hs).2

/-- A corpus where the hash of a content is its text, in one chunk unless it is empty. -/
def plainCorpus : Corpus where
  sha256 content := String.ofList (content.map fun b => Char.ofNat b.toNat)
  decode content := String.ofList (content.map fun b => Char.ofNat b.toNat)
  chunkMarkdown text := if text = "" then [] else [(1, 1, text)]
  sha256Text text := text

/-- A source with one file. -/
def oneFile (io : FileIO) : SourceScan where
  source := "memory"
  files := [(⟨"a.md", 0, 1, [120]⟩, io)]
  distinct := List.nodup_singleton _

/-- A sync of a new file, and another after which the file is gone. -/
def twoSyncs : List IndexerEvent :=
  [.sync "m" [oneFile { vectors := some [[1]], ids := fun _ => "c1" }],
    .sync "m" [{ source := "memory", files := [], distinct := by decide }]]

theorem current_of_sound_twoSyncs :
    StoreCurrent plainCorpus (twoSyncs.foldl (indexerStep plainCorpus) {}) := by
  have hunbroken (n : ℕ) : Unbroken n none := nofun
  have hfile : FileSound plainCorpus {} false "memory" "m" none ⟨"a.md", 0, 1, [120]⟩
      { vectors := some [[1]], ids := fun _ => "c1" } := by
    intro _ _ _
    rw [if_neg (by decide)]
    intro vectors hvectors _
    obtain rfl := Option.some.inj hvectors
    exact .inr ⟨hunbroken 2, rfl, rfl, rfl, rfl, hunbroken _⟩
  have hsound : EachStep (indexerStep plainCorpus) (Sound plainCorpus) {} twoSyncs :=
    ⟨⟨fun _ => ⟨⟨hfile, fun _ => trivial⟩, fun _ => trivial⟩, fun _ => trivial⟩,
      ⟨⟨fun _ => ⟨trivial, fun _ => ⟨nofun, fun _ => trivial⟩⟩, fun _ => trivial⟩, trivial⟩⟩
  exact current_of_sound plainCorpus hsound _ (foldl_mem_trail twoSyncs _)

/-- The `INSERT` of a new file's chunk raises; the next sync skips the file. -/
def brokenSync : List IndexerEvent :=
  [.sync "m" [oneFile { vectors := some [[1]], ids := fun _ => "c1", replaceFault := some 3 }],
    .sync "m" [oneFile { vectors := some [[1]], ids := fun _ => "c1" }]]

theorem brokenSync_not_current : ¬ ∀ (corpus : Corpus) (es : List IndexerEvent),
    ∀ s ∈ trail (indexerStep corpus) {} es, StoreCurrent corpus s := by
  intro h
  obtain ⟨-, hcommitted⟩ := h plainCorpus brokenSync _ (foldl_mem_trail brokenSync _)
  have hrow : (brokenSync.foldl (indexerStep plainCorpus) {}).conn.committed.files.get? "a.md" =
      some ⟨"memory", "x", 0, 1⟩ := by
    decide
  have hnone : pieces (brokenSync.foldl (indexerStep plainCorpus) {}).conn.committed "a.md" =
      [] := by
    decide
  obtain ⟨content, hhash, hpieces⟩ := hcommitted.fits _ _ hrow
  have htext : plainCorpus.decode content = "x" := hhash
  rw [hnone, Corpus.chunks, htext] at hpieces
  exact absurd hpieces (by decide)

end OxenClaw.Memory
