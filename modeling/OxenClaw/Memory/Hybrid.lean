import OxenClaw.Lib.Dict
import OxenClaw.Memory.Mmr

/-!
# Vector hits and text hits together

`mergeHybridResults` puts the hits of two searches together by their chunk's id. The merged hits
are the ids of both lists, each once, with the weighted sum of the scores that the last hit of
either list gives the id, the highest first (`mergeHybridResults_spec`).
-/

namespace OxenClaw.Memory

structure HybridConfig where
  enabled : Bool := false
  vectorWeight : ℚ := 7 / 10
  textWeight : ℚ := 3 / 10
  candidateMultiplier : ℤ := 3

/-- The hit that stands for an id, its vector score and its text score. -/
abbrev ById := Dict String (MemorySearchResult × ℚ × ℚ)

def addVector (byId : ById) (r : MemorySearchResult) : ById :=
  byId.set r.chunk.id (r, r.score, 0)

def addKeyword (byId : ById) (r : MemorySearchResult) : ById :=
  match byId.get? r.chunk.id with
  | some (existing, vs, _) => byId.set r.chunk.id (existing, vs, r.score)
  | none => byId.set r.chunk.id (r, 0, r.score)

def combine (config : HybridConfig) (e : MemorySearchResult × ℚ × ℚ) : MemorySearchResult where
  chunk := e.1.chunk
  score := config.vectorWeight * e.2.1 + config.textWeight * e.2.2
  distance := e.1.distance

def mergeHybridResults (vector keyword : List MemorySearchResult) (config : HybridConfig) :
    List MemorySearchResult :=
  let byId := keyword.foldl addKeyword (vector.foldl addVector [])
  byScore (byId.map fun e => combine config e.2)

/-! ## The specification -/

/-- The ids of the chunks that were found. -/
def idsOfHits (hits : List MemorySearchResult) : List String :=
  hits.map fun r => r.chunk.id

/-- The score of an id : of its last hit, and zero where there is none. -/
def scoreOf (hits : List MemorySearchResult) (id : String) : ℚ :=
  ((hits.reverse.find? fun r => r.chunk.id = id).map MemorySearchResult.score).getD 0

/-- `merged` is the union of the two lists. -/
structure Merges (vector keyword : List MemorySearchResult) (config : HybridConfig)
    (merged : List MemorySearchResult) : Prop where
  nodup : (idsOfHits merged).Nodup
  mem_iff : ∀ id, id ∈ idsOfHits merged ↔ id ∈ idsOfHits vector ∨ id ∈ idsOfHits keyword
  score_eq : ∀ r ∈ merged, r.score =
    config.vectorWeight * scoreOf vector r.chunk.id +
      config.textWeight * scoreOf keyword r.chunk.id
  chunk_eq : ∀ r ∈ merged, ∃ hit ∈ vector ++ keyword, r.chunk = hit.chunk
  sorted : merged.Pairwise fun a b => b.score ≤ a.score

variable {vector keyword hits : List MemorySearchResult} {r : MemorySearchResult} {id : String}
  {byId : ById}

theorem scoreOf_append_singleton :
    scoreOf (hits ++ [r]) id = if r.chunk.id = id then r.score else scoreOf hits id := by
  rw [scoreOf, List.reverse_append, List.reverse_singleton, List.singleton_append, List.find?_cons]
  by_cases h : r.chunk.id = id
  · simp [h]
  · simp [h, scoreOf]

/-- The scores an id has so far. -/
def scoresIn (byId : ById) (id : String) : ℚ × ℚ :=
  ((byId.get? id).map Prod.snd).getD (0, 0)

theorem scoresIn_addVector : scoresIn (addVector byId r) id =
    if r.chunk.id = id then (r.score, 0) else scoresIn byId id := by
  rw [scoresIn, addVector, Dict.get?_set]
  by_cases h : r.chunk.id = id
  · simp [h]
  · simp [h, Ne.symm h, scoresIn]

theorem scoresIn_addKeyword : scoresIn (addKeyword byId r) id =
    if r.chunk.id = id then ((scoresIn byId id).1, r.score) else scoresIn byId id := by
  by_cases h : r.chunk.id = id
  · subst h
    rcases hget : byId.get? r.chunk.id with _ | ⟨existing, vs, ts⟩
    · simp [scoresIn, addKeyword, hget]
    · simp [scoresIn, addKeyword, hget]
  · rcases hget : byId.get? r.chunk.id with _ | ⟨existing, vs, ts⟩
    · simp [scoresIn, addKeyword, hget, h, Dict.get?_set, Ne.symm h]
    · simp [scoresIn, addKeyword, hget, h, Dict.get?_set, Ne.symm h]

theorem scoresIn_foldl_addVector :
    scoresIn (vector.foldl addVector []) id = (scoreOf vector id, 0) := by
  induction vector using List.reverseRecOn with
  | nil => rfl
  | append_singleton l r ih =>
    rw [List.foldl_concat, scoresIn_addVector, scoreOf_append_singleton, ih]
    split_ifs <;> rfl

/-- Each id has the scores of its last hits. -/
theorem scoresIn_foldl_addKeyword :
    scoresIn (keyword.foldl addKeyword (vector.foldl addVector [])) id =
      (scoreOf vector id, scoreOf keyword id) := by
  induction keyword using List.reverseRecOn with
  | nil => exact scoresIn_foldl_addVector
  | append_singleton l r ih =>
    rw [List.foldl_concat, scoresIn_addKeyword, scoreOf_append_singleton, ih]
    split_ifs <;> rfl

/-- What the table of merged hits keeps to, `seen` being the hits so far. -/
structure Table (seen : List MemorySearchResult) (byId : ById) : Prop where
  nodup : (Dict.keys byId).Nodup
  mem_keys_iff : ∀ id, id ∈ Dict.keys byId ↔ id ∈ idsOfHits seen
  rep : ∀ e ∈ byId, e.2.1.chunk.id = e.1 ∧ ∃ hit ∈ seen, e.2.1.chunk = hit.chunk

/-- One hit more. -/
theorem Table.set (h : Table hits byId) {e : MemorySearchResult × ℚ × ℚ}
    (hid : e.1.chunk.id = r.chunk.id) (hrep : ∃ hit ∈ hits ++ [r], e.1.chunk = hit.chunk) :
    Table (hits ++ [r]) (byId.set r.chunk.id e) where
  nodup := Dict.nodup_keys_set h.nodup _ _
  mem_keys_iff id := by
    rw [Dict.mem_keys_set, h.mem_keys_iff]
    simp [idsOfHits, eq_comm]
  rep e' he' := by
    rcases Dict.mem_set he' with rfl | hmem
    · exact ⟨hid, hrep⟩
    · obtain ⟨hkey, hit, hhit, hchunk⟩ := h.rep e' hmem
      exact ⟨hkey, hit, List.mem_append_left _ hhit, hchunk⟩

theorem table_addVector (h : Table hits byId) (r : MemorySearchResult) :
    Table (hits ++ [r]) (addVector byId r) :=
  h.set rfl ⟨r, by simp, rfl⟩

theorem table_addKeyword (h : Table hits byId) (r : MemorySearchResult) :
    Table (hits ++ [r]) (addKeyword byId r) := by
  unfold addKeyword
  split
  · next existing vs ts hget =>
    obtain ⟨hkey, hit, hhit, hchunk⟩ := h.rep _ (Dict.mem_of_get? hget)
    exact h.set hkey ⟨hit, List.mem_append_left _ hhit, hchunk⟩
  · exact h.set rfl ⟨r, by simp, rfl⟩

/-- Both loops keep the table. -/
theorem table_foldl (add : ById → MemorySearchResult → ById)
    (hadd : ∀ {hits byId}, Table hits byId → ∀ r, Table (hits ++ [r]) (add byId r))
    (h : Table hits byId) (l : List MemorySearchResult) :
    Table (hits ++ l) (l.foldl add byId) := by
  induction l generalizing hits byId with
  | nil => rwa [List.append_nil]
  | cons r l ih =>
    rw [List.append_cons, List.foldl_cons]
    exact ih (hadd h r)

theorem byScore_perm (hits : List MemorySearchResult) : (byScore hits).Perm hits :=
  List.perm_insertionSort _ _

theorem byScore_sorted (hits : List MemorySearchResult) :
    (byScore hits).Pairwise fun a b => b.score ≤ a.score := by
  have : Std.Total fun a b : MemorySearchResult => b.score ≤ a.score :=
    ⟨fun a b => le_total b.score a.score⟩
  have : IsTrans MemorySearchResult fun a b => b.score ≤ a.score :=
    ⟨fun a b c hab hbc => hbc.trans hab⟩
  exact List.pairwise_insertionSort _ hits

/-- The merged hits are those of both lists, each once, under the weighted sum of their scores. -/
theorem mergeHybridResults_spec (vector keyword : List MemorySearchResult)
    (config : HybridConfig) :
    Merges vector keyword config (mergeHybridResults vector keyword config) := by
  let byId := keyword.foldl addKeyword (vector.foldl addVector [])
  have hempty : Table [] [] := ⟨by simp [Dict.keys], by simp [Dict.keys, idsOfHits], by simp⟩
  have htable : Table (vector ++ keyword) byId :=
    table_foldl _ table_addKeyword (table_foldl _ table_addVector hempty vector) keyword
  have hids : idsOfHits (byId.map fun e => combine config e.2) = Dict.keys byId := by
    rw [idsOfHits, List.map_map]
    exact List.map_congr_left fun e he => (htable.rep e he).1
  have hperm : (mergeHybridResults vector keyword config).Perm
      (byId.map fun e => combine config e.2) := byScore_perm _
  have hpermIds : (idsOfHits (mergeHybridResults vector keyword config)).Perm (Dict.keys byId) :=
    hids ▸ hperm.map _
  refine ⟨hpermIds.nodup_iff.2 htable.nodup, fun id => ?_, fun r hr => ?_, fun r hr => ?_,
    byScore_sorted _⟩
  · rw [hpermIds.mem_iff, htable.mem_keys_iff, idsOfHits, List.map_append, List.mem_append]
    rfl
  · obtain ⟨⟨id, e⟩, he, rfl⟩ := List.mem_map.1 (hperm.mem_iff.1 hr)
    have hkey : e.1.chunk.id = id := (htable.rep _ he).1
    have hscores : e.2 = (scoreOf vector id, scoreOf keyword id) := by
      rw [← scoresIn_foldl_addKeyword, scoresIn, Dict.get?_of_mem htable.nodup he]
      rfl
    simp only [combine, hkey, hscores]
  · obtain ⟨e, he, rfl⟩ := List.mem_map.1 (hperm.mem_iff.1 hr)
    exact (htable.rep e he).2

end OxenClaw.Memory
