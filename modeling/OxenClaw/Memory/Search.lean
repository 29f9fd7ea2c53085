import Mathlib.Algebra.Order.Round
import Mathlib.Order.WithBot
import OxenClaw.Lib.Regex
import OxenClaw.Memory.Hybrid
import OxenClaw.Memory.Store

/-!
# Searching the memory

`search` retrieves the chunks nearest to a query and those that hold its words, merges them,
weighs them by age, ranks them for diversity and cuts the list. Whatever is on, each chunk that is
retrieved is ranked once (`nodup_ranked`). The cut is the slice `[:k]`, which for a negative `k`
counts from the end : at most `k` chunks are returned exactly if `k` is not negative
(`hybrid_search_iff`).
-/

namespace OxenClaw.Memory

/-- What a search rests on outside the store. -/
structure SearchEnv where
  unicode : Unicode
  /-- `str.lower`. -/
  lower : List Char → List Char
  /-- The vectors the embedder has for a query. -/
  embed : List Char → List (List ℚ)
  /-- `MATCH` on the vector table : at most so many of its rows, with their distance where it is
  not `NULL`. -/
  nearest : List ℚ → ℕ → List VecRow → List (VecRow × WithBot ℚ)
  nearest_subperm : ∀ query n rows, ((nearest query n rows).map Prod.fst).Subperm rows
  /-- `MATCH` on the text table, with `bm25`, where the expression is well formed. -/
  matching : String → List FtsRow → Option (List (FtsRow × ℚ))
  /-- `exp(-ln(2) * x)`. -/
  halve : ℚ → ℚ

/-! ## Candidates -/

/-- `_row_to_chunk`. -/
def rowToChunk (row : ChunkRow) : MemoryChunk where
  id := row.id
  path := row.path
  source := row.source
  startLine := row.startLine
  endLine := row.endLine
  text := row.text
  hash := row.hash

/-- `JOIN chunks c ON c.id = id`, and `c.source = ?` where a source is asked for. -/
def joinChunks {α κ : Type*} (t : Tables) (source : Option String) (id : α → String)
    (rows : List (α × κ)) : List (ChunkRow × κ) :=
  rows.flatMap fun row =>
    (t.chunks.filter fun c => c.id = id row.1 ∧ source.all (· == c.source)).map (·, row.2)

/-- `ORDER BY key LIMIT k`, where `NULL` comes first. -/
def orderLimit {κ : Type*} [LinearOrder κ] (k : ℤ) (rows : List (ChunkRow × κ)) :
    List (ChunkRow × κ) :=
  (rows.insertionSort fun a b => a.2 ≤ b.2).take k.toNat

def searchVector (env : SearchEnv) (s : MemoryStore) (query : List ℚ) (k : ℤ)
    (source : Option String) : List (MemoryChunk × ℚ) :=
  if k ≤ 0 ∨ s.dim = none then []
  else
    let t := s.conn.working
    let oversample := (k * 4).toNat
    let rows := orderLimit k
      (joinChunks t source VecRow.chunkId (env.nearest query oversample t.vec))
    rows.map fun r => (rowToChunk r.1, r.2.unbotD 1)

def bm25RankToScore (rank : ℚ) : ℚ :=
  if rank < 0 then -rank / (1 - rank) else 1 / (1 + rank)

def searchFts (env : SearchEnv) (s : MemoryStore) (query : String) (k : ℤ)
    (source : Option String) : List (MemoryChunk × ℚ) :=
  if k ≤ 0 ∨ Py.strip query.toList = [] then []
  else
    let t := s.conn.working
    match env.matching query t.fts with
    | none => []
    | some found =>
      (orderLimit k (joinChunks t source FtsRow.chunkId found)).map fun r =>
        (rowToChunk r.1, bm25RankToScore r.2)

def buildFtsQuery (env : SearchEnv) (raw : List Char) : Option String :=
  let tokens := ((env.lower raw).splitOnP fun c => !env.unicode.isWord c).filter fun t => !t.isEmpty
  if tokens = [] then none
  else
    let quoted := tokens.map fun t => "\"" ++ String.ofList (t.filter (· ≠ '"')) ++ "\""
    some (String.intercalate " AND " quoted)

/-- The hits of the vector search, under `max(0.0, 1.0 - dist)`. -/
def vectorResults (env : SearchEnv) (s : MemoryStore) (query : List ℚ) (k : ℤ)
    (source : Option String) : List MemorySearchResult :=
  (searchVector env s query k source).map fun hit => ⟨hit.1, max 0 (1 - hit.2), hit.2⟩

def keywordResults (env : SearchEnv) (s : MemoryStore) (query : List Char) (k : ℤ)
    (source : Option String) : List MemorySearchResult :=
  match buildFtsQuery env query with
  | none => []
  | some fts => (searchFts env s fts k source).map fun hit => ⟨hit.1, hit.2, 0⟩

/-! ## Decay -/

structure TemporalDecayConfig where
  enabled : Bool := false
  halfLifeDays : ℚ := 30

/-- `_normalise`. -/
def normalisePath (relpath : String) : List Char :=
  let slashed := relpath.toList.map fun c => if c = '\\' then '/' else c
  if ['.', '/'].isPrefixOf slashed then slashed.drop 2 else slashed

/-- The digits of `_DATED_PATH_RE`, which is twenty characters long and stands at the end, or
before a line feed there. -/
def datedPath (path : List Char) : Option (List Char × List Char × List Char) :=
  let path := if path.getLast? = some '\n' then path.dropLast else path
  let before := path.take (path.length - 20)
  if before = [] ∨ before.getLast? = some '/' then
    match path.drop (path.length - 20) with
    | ['m', 'e', 'm', 'o', 'r', 'y', '/', y1, y2, y3, y4, '-', m1, m2, '-', d1, d2,
        '.', 'm', 'd'] =>
      some ([y1, y2, y3, y4], [m1, m2], [d1, d2])
    | _ => none
  else none

/-- `int(digits)`, where all are digits. -/
def decimal (u : Unicode) (digits : List Char) : Option ℕ :=
  (digits.mapM u.digit).map fun ds => ds.foldl (fun n d => 10 * n + d) 0

def isLeap (year : ℕ) : Bool :=
  year % 4 = 0 ∧ (year % 100 ≠ 0 ∨ year % 400 = 0)

def monthLengths (year : ℕ) : List ℕ :=
  [31, if isLeap year then 29 else 28, 31, 30, 31, 30, 31, 31, 30, 31, 30, 31]

/-- The days from the first of January 1970, where the date exists. -/
def dayOf (year month day : ℕ) : Option ℤ :=
  if year = 0 ∨ month = 0 then none
  else
    match (monthLengths year)[month - 1]? with
    | none => none
    | some length =>
      if day = 0 ∨ length < day then none
      else
        let y := year - 1
        let before := 365 * y + y / 4 - y / 100 + y / 400
        some ((before + ((monthLengths year).take (month - 1)).sum + day : ℕ) - 719163)

/-- `parse_memory_date_from_path`, in days. -/
def parseMemoryDateFromPath (u : Unicode) (relpath : String) : Option ℤ := do
  let (y, m, d) ← datedPath (normalisePath relpath)
  dayOf (← decimal u y) (← decimal u m) (← decimal u d)

/-- Whether `_DATED_PATH_RE` matches. -/
def isDated (u : Unicode) (path : List Char) : Bool :=
  (datedPath path).any fun p => p.1.all u.isDigit && p.2.1.all u.isDigit && p.2.2.all u.isDigit

def isEvergreenMemoryPath (u : Unicode) (relpath : String) : Bool :=
  let normalised := normalisePath relpath
  if normalised = "MEMORY.md".toList then true
  else if "memory/".toList.isPrefixOf normalised then !isDated u normalised
  else false

/-- Seconds since a time, in days. -/
def ageInDays (now since : ℚ) : ℚ :=
  max 0 (now - since) / 86400

def chunkAgeDays (u : Unicode) (path : String) (mtime : Option ℚ) (now : ℚ) : Option ℚ :=
  match parseMemoryDateFromPath u path with
  | some day => some (ageInDays now (day * 86400))
  | none => if isEvergreenMemoryPath u path then none else mtime.map (ageInDays now)

def decayMultiplier (halve : ℚ → ℚ) (age halfLifeDays : ℚ) : ℚ :=
  if halfLifeDays ≤ 0 then 1 else halve (max 0 age / halfLifeDays)

/-- A hit under the weight of its age. -/
def decayed (env : SearchEnv) (files : Dict String FileRow) (config : TemporalDecayConfig)
    (now : ℚ) (r : MemorySearchResult) : MemorySearchResult :=
  let mtime := (files.get? r.chunk.path).map FileRow.mtime
  match chunkAgeDays env.unicode r.chunk.path mtime now with
  | none => r
  | some age => { r with score := r.score * decayMultiplier env.halve age config.halfLifeDays }

def applyTemporalDecayToResults (env : SearchEnv) (files : Dict String FileRow)
    (config : TemporalDecayConfig) (now : ℚ) (results : List MemorySearchResult) :
    List MemorySearchResult :=
  if config.enabled = false then results
  else byScore (results.map (decayed env files config now))

/-! ## Search -/

/-- The arguments of `search`, with the time of the call. -/
structure SearchRequest where
  query : List Char
  k : ℤ := 5
  source : Option String := none
  hybrid : Option HybridConfig := none
  mmr : Option MMRConfig := none
  temporalDecay : Option TemporalDecayConfig := none
  nowSeconds : ℚ := 0

namespace SearchRequest

def hybridOn (req : SearchRequest) : Option HybridConfig :=
  req.hybrid.filter HybridConfig.enabled

def mmrOn (req : SearchRequest) : Option MMRConfig :=
  req.mmr.filter MMRConfig.enabled

def decayOn (req : SearchRequest) : Option TemporalDecayConfig :=
  req.temporalDecay.filter TemporalDecayConfig.enabled

/-- `pool_k`. -/
def poolK (req : SearchRequest) : ℤ :=
  match req.hybridOn, req.mmrOn with
  | some hybrid, _ => max (req.k * hybrid.candidateMultiplier) req.k
  | none, some _ => max (req.k * 3) (req.k + 5)
  | none, none => req.k

end SearchRequest

section
variable (env : SearchEnv) (s : MemoryStore) (req : SearchRequest)

def candidates (queryVec : List ℚ) : List MemorySearchResult :=
  let vector := vectorResults env s queryVec req.poolK req.source
  match req.hybridOn with
  | some hybrid =>
    mergeHybridResults vector (keywordResults env s req.query req.poolK req.source) hybrid
  | none => vector

/-- The candidates after decay and re-ranking. -/
def ranked (queryVec : List ℚ) : List MemorySearchResult :=
  let results := candidates env s req queryVec
  let results := match req.decayOn with
    | some decay =>
      applyTemporalDecayToResults env s.conn.working.files decay req.nowSeconds results
    | none => results
  match req.mmrOn with
  | some mmr => mmrRerank env.lower results mmr
  | none => results

def search : List MemorySearchResult :=
  if Py.strip req.query = [] then []
  else
    match env.embed req.query with
    | [] => []
    | queryVec :: _ => Py.sliceTo (ranked env s req queryVec) req.k

end

/-! ## No chunk twice -/

/-- The primary keys of the two tables that have one. -/
structure Keyed (t : Tables) : Prop where
  chunks : t.chunkIds.Nodup
  vec : t.vecIds.Nodup

variable {env : SearchEnv} {s : MemoryStore} {req : SearchRequest}

theorem sublist_singleton_of_nodup {α : Type*} {l : List α} {i : α} (hl : l.Nodup)
    (h : ∀ x ∈ l, x = i) : l.Sublist [i] := by
  rcases l with _ | ⟨a, _ | ⟨b, l⟩⟩
  · exact List.nil_sublist _
  · rw [h a List.mem_cons_self]
  · have hab : a = b := (h a (by simp)).trans (h b (by simp)).symm
    simp [hab] at hl

/-- A row is joined with one chunk at most. -/
theorem joinChunks_sublist {α κ : Type*} {t : Tables} (ht : t.chunkIds.Nodup)
    (source : Option String) (id : α → String) (rows : List (α × κ)) :
    ((joinChunks t source id rows).map fun r => r.1.id).Sublist (rows.map fun r => id r.1) := by
  induction rows with
  | nil => exact List.Sublist.refl _
  | cons row rows ih =>
    rw [joinChunks, List.flatMap_cons, List.map_append, List.map_map, List.map_cons,
      ← List.singleton_append]
    refine List.Sublist.append (sublist_singleton_of_nodup ?_ ?_) ih
    · exact ht.sublist (List.filter_sublist.map _)
    · intro i hi
      obtain ⟨c, hc, rfl⟩ := List.mem_map.1 hi
      exact (of_decide_eq_true (List.mem_filter.1 hc).2).1

theorem nodup_map_orderLimit {κ β : Type*} [LinearOrder κ] {f : ChunkRow × κ → β} {k : ℤ}
    {rows : List (ChunkRow × κ)} (h : (rows.map f).Nodup) : ((orderLimit k rows).map f).Nodup :=
  (((List.perm_insertionSort _ rows).map f).nodup_iff.2 h).sublist ((List.take_sublist _ _).map f)

theorem nodup_vectorResults (h : Keyed s.conn.working) (query : List ℚ) (k : ℤ)
    (source : Option String) : (idsOfHits (vectorResults env s query k source)).Nodup := by
  unfold vectorResults searchVector
  split_ifs
  · exact List.nodup_nil
  · obtain ⟨l, hperm, hsub⟩ := env.nearest_subperm query (k * 4).toNat s.conn.working.vec
    have hvec : ((env.nearest query (k * 4).toNat s.conn.working.vec).map
        fun r => r.1.chunkId).Nodup := by
      have hids := (hperm.map VecRow.chunkId).nodup_iff.1 (h.vec.sublist (hsub.map _))
      rwa [List.map_map] at hids
    have hjoin := hvec.sublist (joinChunks_sublist h.chunks source VecRow.chunkId _)
    rw [idsOfHits, List.map_map, List.map_map]
    exact nodup_map_orderLimit hjoin

theorem nodup_candidates (h : Keyed s.conn.working) (queryVec : List ℚ) :
    (idsOfHits (candidates env s req queryVec)).Nodup := by
  unfold candidates
  split
  · exact (mergeHybridResults_spec _ _ _).nodup
  · exact nodup_vectorResults h queryVec _ _

theorem decayed_chunk (files : Dict String FileRow) (config : TemporalDecayConfig) (now : ℚ)
    (r : MemorySearchResult) : (decayed env files config now r).chunk = r.chunk := by
  unfold decayed
  dsimp only
  split <;> rfl

/-- Decay keeps the chunks. -/
theorem applyTemporalDecayToResults_perm (files : Dict String FileRow)
    (config : TemporalDecayConfig) (now : ℚ) (results : List MemorySearchResult) :
    (idsOfHits (applyTemporalDecayToResults env files config now results)).Perm
      (idsOfHits results) := by
  unfold applyTemporalDecayToResults
  split_ifs
  · rfl
  · refine ((byScore_perm _).map _).trans (.of_eq ?_)
    rw [List.map_map]
    exact List.map_congr_left fun r _ => congrArg MemoryChunk.id (decayed_chunk files config now r)

/-- Each candidate is ranked, and none else. -/
theorem ranked_perm (queryVec : List ℚ) :
    (idsOfHits (ranked env s req queryVec)).Perm (idsOfHits (candidates env s req queryVec)) := by
  unfold ranked
  dsimp only
  rcases req.mmrOn with _ | mmr <;> rcases req.decayOn with _ | decay
  · rfl
  · exact applyTemporalDecayToResults_perm _ _ _ _
  · exact (mmrRerank_perm _ _ _).map _
  · exact ((mmrRerank_perm _ _ _).map _).trans (applyTemporalDecayToResults_perm _ _ _ _)

theorem nodup_ranked (h : Keyed s.conn.working) (queryVec : List ℚ) :
    (idsOfHits (ranked env s req queryVec)).Nodup :=
  (ranked_perm queryVec).nodup_iff.2 (nodup_candidates h queryVec)

theorem nodup_search (h : Keyed s.conn.working) : (idsOfHits (search env s req)).Nodup := by
  unfold search
  split_ifs
  · exact List.nodup_nil
  · split
    · exact List.nodup_nil
    · next queryVec _ _ =>
      exact (nodup_ranked h queryVec).sublist ((List.take_sublist _ _).map _)

theorem length_search_le (h : 0 ≤ req.k) : ((search env s req).length : ℤ) ≤ req.k := by
  unfold search
  split_ifs
  · exact h
  · split
    · exact h
    · rw [Py.sliceTo, Py.sliceStart, if_pos h, List.length_take]
      omega

/-- The merged hits are the ids of both lists, each once, under the weighted sum of their scores,
the highest first; and what is searched is distinct chunks, at most `k` exactly if `k` is not
negative. -/
theorem hybrid_search_iff (vector keyword : List MemorySearchResult) (config : HybridConfig)
    (env : SearchEnv) (s : MemoryStore) (hs : Keyed s.conn.working) (req : SearchRequest) :
    (Merges vector keyword config (mergeHybridResults vector keyword config) ∧
      (idsOfHits (search env s req)).Nodup ∧ ((search env s req).length : ℤ) ≤ req.k) ↔
    0 ≤ req.k := by
  refine ⟨fun h => ?_, fun h => ⟨mergeHybridResults_spec _ _ _, nodup_search hs, ?_⟩⟩
  · exact (Int.natCast_nonneg _).trans h.2.2
  · exact length_search_le h

/-! ## A negative `k` -/

/-- An environment that finds every row. -/
def findsAll : SearchEnv where
  unicode := .ascii
  lower := List.map Char.toLower
  embed _ := [[1]]
  nearest _ n rows := (rows.take n).map (·, 0)
  nearest_subperm _ n rows := by
    have hrows : ((rows.take n).map fun r => (r, (0 : WithBot ℚ))).map Prod.fst = rows.take n := by
      rw [List.map_map]
      exact List.map_id _
    rw [hrows]
    exact (List.take_sublist n rows).subperm
  matching _ rows := some (rows.map (·, -1))
  halve _ := 1

/-- A store of four chunks. -/
def fourChunks : MemoryStore where
  conn :=
    let ids := ["a", "b", "c", "d"]
    let t : Tables :=
      { chunks := ids.map fun id => ⟨id, "notes.md", "memory", 1, 1, id, id, "m", 0⟩
        vec := ids.map fun id => ⟨id, [1]⟩ }
    ⟨t, t, false⟩
  dim := some 1

theorem hybrid_search_iff_two :
    (Merges [] [] {} (mergeHybridResults [] [] {}) ∧
      (idsOfHits (search findsAll fourChunks ⟨['x'], 2, none, none, none, none, 0⟩)).Nodup ∧
      ((search findsAll fourChunks ⟨['x'], 2, none, none, none, none, 0⟩).length : ℤ) ≤ 2) ↔
    (0 : ℤ) ≤ 2 :=
  hybrid_search_iff [] [] {} findsAll fourChunks ⟨by decide, by decide⟩
    ⟨['x'], 2, none, none, none, none, 0⟩

/-- Three chunks at `k = -1`, where re-ranking asks for a pool of four. -/
theorem search_negative :
    ¬∀ (vector keyword : List MemorySearchResult) (config : HybridConfig) (env : SearchEnv)
      (s : MemoryStore) (req : SearchRequest), Keyed s.conn.working →
      Merges vector keyword config (mergeHybridResults vector keyword config) ∧
        (idsOfHits (search env s req)).Nodup ∧ ((search env s req).length : ℤ) ≤ req.k := by
  intro h
  have hthree : (search findsAll fourChunks
      ⟨['x'], -1, none, none, some { enabled := true }, none, 0⟩).length = 3 := by
    decide +kernel
  obtain ⟨-, -, hle⟩ := h [] [] {} findsAll fourChunks
    ⟨['x'], -1, none, none, some { enabled := true }, none, 0⟩ ⟨by decide, by decide⟩
  rw [hthree] at hle
  exact absurd hle (by decide)

end OxenClaw.Memory
