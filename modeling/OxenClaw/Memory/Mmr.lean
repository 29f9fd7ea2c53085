import Mathlib.Algebra.Order.Field.Rat
import Mathlib.Data.Finset.Card
import Mathlib.Data.List.FinRange
import Mathlib.Data.Prod.Lex
import OxenClaw.Lib.Greedy

/-!
# Re-ranking for diversity

`mmrRerank` picks hits one after the other, each time the one that is most relevant and least
like those picked, and keeps of every hit that is left how like it is to the most similar pick.
`mmrRerank_eq_naive` : these are the picks of the greedy selection that compares every hit with
all picks each time (`naiveOrder`), and they are the hits, each once.
-/

namespace OxenClaw.Memory

structure MemoryChunk where
  id : String
  path : String
  source : String
  startLine : ℤ
  endLine : ℤ
  text : String
  hash : String
  deriving DecidableEq

/-- A chunk that a search found. -/
structure MemorySearchResult where
  chunk : MemoryChunk
  score : ℚ
  distance : ℚ
  deriving DecidableEq

structure MMRConfig where
  enabled : Bool := false
  lambda : ℚ := 7 / 10

/-! ## Similarity -/

/-- `_CJK_RE`. -/
def isCjk (c : Char) : Bool :=
  let n := c.toNat
  (0x3040 ≤ n && n ≤ 0x309F) || (0x30A0 ≤ n && n ≤ 0x30FF) || (0x3400 ≤ n && n ≤ 0x4DBF) ||
    (0x4E00 ≤ n && n ≤ 0x9FFF) || (0xAC00 ≤ n && n ≤ 0xD7AF) || (0x1100 ≤ n && n ≤ 0x11FF)

/-- The characters of `_ASCII_RE`. -/
def isAsciiToken (c : Char) : Bool :=
  c.isLower || c.isDigit || c == '_'

/-- Two characters that stood side by side. -/
def bigram (p : (Char × ℕ) × Char × ℕ) : Option (List Char) :=
  if p.2.2 = p.1.2 + 1 then some [p.1.1, p.2.1] else none

/-- The tokens of a text, with `str.lower` as `lower`. -/
def tokenize (lower : List Char → List Char) (text : String) : Finset (List Char) :=
  let lowered := lower text.toList
  let asciiTokens := (lowered.splitOnP fun c => !isAsciiToken c).filter fun t => !t.isEmpty
  let cjkData := lowered.zipIdx.filter fun p => isCjk p.1
  let bigrams := (cjkData.zip cjkData.tail).filterMap bigram
  let unigrams := cjkData.map fun p => [p.1]
  asciiTokens.toFinset ∪ bigrams.toFinset ∪ unigrams.toFinset

def jaccardSimilarity (a b : Finset (List Char)) : ℚ :=
  if a = ∅ ∧ b = ∅ then 1
  else if a = ∅ ∨ b = ∅ then 0
  else
    let (smaller, larger) := if a.card ≤ b.card then (a, b) else (b, a)
    let intersection := (smaller.filter (· ∈ larger)).card
    let union := a.card + b.card - intersection
    if union = 0 then 0 else intersection / union

/-- One pick more that a hit is compared with. -/
def raise (candidate : Finset (List Char)) (best : ℚ) (sel : Finset (List Char)) : ℚ :=
  let sim := jaccardSimilarity candidate sel
  if best < sim then sim else best

/-- `_max_similarity`. -/
def maxSimilarity (candidate : Finset (List Char)) (selected : List (Finset (List Char))) : ℚ :=
  selected.foldl (raise candidate) 0

/-- What a pool of `n` hits is ranked by. -/
structure Pool (n : ℕ) where
  lam : ℚ
  relevance : Fin n → ℚ
  score : Fin n → ℚ
  tokens : Fin n → Finset (List Char)

/-- The objective, and the score among equals. -/
def Pool.key {n : ℕ} (pool : Pool n) (maxSim : Fin n → ℚ) (i : Fin n) : ℚ ×ₗ ℚ :=
  toLex (pool.lam * pool.relevance i - (1 - pool.lam) * maxSim i, pool.score i)

/-- The loops of `mmr_rerank`. -/
structure MmrLoop (n : ℕ) where
  chosen : Fin n → Bool
  maxSim : Fin n → ℚ
  selectedOrder : List (Fin n)

namespace MmrLoop

variable {n : ℕ} (pool : Pool n)

def start : MmrLoop n where
  chosen _ := false
  maxSim _ := 0
  selectedOrder := []

/-- One candidate of a scan. `best_mmr` and `best_score` are those of `best`, and below all where
there is none. -/
def scan (loop : MmrLoop n) (best : Option (Fin n)) (i : Fin n) : Option (Fin n) :=
  if loop.chosen i then best
  else
    let mmr j := pool.lam * pool.relevance j - (1 - pool.lam) * loop.maxSim j
    match best with
    | none => some i
    | some b =>
      if mmr b < mmr i ∨ mmr i = mmr b ∧ pool.score b < pool.score i then some i else some b

def best (loop : MmrLoop n) : Option (Fin n) :=
  (List.finRange n).foldl (loop.scan pool) none

/-- What the pick of `s` changes : the candidates left are compared with it. -/
def pick (loop : MmrLoop n) (s : Fin n) : MmrLoop n :=
  let chosen := Function.update loop.chosen s true
  { chosen
    selectedOrder := loop.selectedOrder ++ [s]
    maxSim := fun j =>
      if chosen j then loop.maxSim j
      else raise (pool.tokens j) (loop.maxSim j) (pool.tokens s) }

def rounds (loop : MmrLoop n) : ℕ → MmrLoop n
  | 0 => loop
  | k + 1 =>
    match loop.best pool with
    | none => loop
    | some s => (loop.pick pool s).rounds k

end MmrLoop

section
variable (lower : List Char → List Char) (items : List MemorySearchResult)

/-- `(s - min_score) / score_range`. -/
def relevance (s : ℚ) : ℚ :=
  let scores := items.map MemorySearchResult.score
  let minScore := scores.min?.getD 0
  let scoreRange := scores.max?.getD 0 - minScore
  if scoreRange = 0 then 1 else (s - minScore) / scoreRange

/-- `max(0.0, min(1.0, config.lambda_))`. -/
def MMRConfig.clamped (config : MMRConfig) : ℚ :=
  max 0 (min 1 config.lambda)

def poolOf (config : MMRConfig) : Pool items.length where
  lam := config.clamped
  relevance i := relevance items (items.get i).score
  score i := (items.get i).score
  tokens i := tokenize lower (items.get i).chunk.text

/-- `sorted(items, key=lambda r: r.score, reverse=True)`. -/
def byScore : List MemorySearchResult :=
  items.insertionSort fun a b => b.score ≤ a.score

def mmrRerank (config : MMRConfig) : List MemorySearchResult :=
  if config.enabled = false ∨ items.length ≤ 1 then items
  else if config.clamped = 1 then byScore items
  else
    ((MmrLoop.start.rounds (poolOf lower items config) items.length).selectedOrder).map items.get

/-! ## The selection that compares with all picks -/

/-- The first `k` picks, each of the best of what is left against all that is picked. -/
def naiveOrder (config : MMRConfig) (k : ℕ) : List (Fin items.length) :=
  let pool := poolOf lower items config
  let maxSim selected j := maxSimilarity (pool.tokens j) (selected.map pool.tokens)
  Greedy.select (fun selected => pool.key (maxSim selected)) k [] (List.finRange items.length)

end

variable {lower : List Char → List Char} {items : List MemorySearchResult}

/-! ## The scan and its cache -/

namespace MmrLoop

variable {n : ℕ} {pool : Pool n} {loop : MmrLoop n} {left : List (Fin n)}

/-- A scan has the first of the best of what is not chosen. -/
theorem best_eq_argmax (pool : Pool n) (loop : MmrLoop n) :
    loop.best pool =
      ((List.finRange n).filter fun j => !loop.chosen j).argmax (pool.key loop.maxSim) := by
  rw [best, List.argmax, List.foldl_filter]
  congr 1
  ext best i
  rw [scan, List.argAux]
  by_cases hi : loop.chosen i
  · simp [hi]
  · rcases best with _ | b
    · simp [hi]
    · simp [hi, Pool.key, Prod.Lex.toLex_lt_toLex, eq_comm]

/-- The cache is true of what is left. -/
structure Cached (pool : Pool n) (loop : MmrLoop n) (left : List (Fin n)) : Prop where
  left_eq : left = (List.finRange n).filter fun j => !loop.chosen j
  maxSim_eq : ∀ j ∈ left,
    loop.maxSim j = maxSimilarity (pool.tokens j) (loop.selectedOrder.map pool.tokens)

theorem cached_start (pool : Pool n) : start.Cached pool (List.finRange n) where
  left_eq := by simp [start]
  maxSim_eq _ _ := rfl

/-- One comparison more keeps the cache true. -/
theorem Cached.pick (h : loop.Cached pool left) (s : Fin n) :
    (loop.pick pool s).Cached pool (left.erase s) where
  left_eq := by
    have hnodup : left.Nodup := h.left_eq ▸ (List.nodup_finRange n).filter _
    rw [hnodup.erase_eq_filter, h.left_eq, List.filter_filter]
    refine List.filter_congr fun j _ => ?_
    by_cases hj : j = s
    · simp [MmrLoop.pick, hj]
    · simp [MmrLoop.pick, hj]
  maxSim_eq j hj := by
    have hnodup : left.Nodup := h.left_eq ▸ (List.nodup_finRange n).filter _
    obtain ⟨hne, hleft⟩ := hnodup.mem_erase_iff.1 hj
    have hchosen : loop.chosen j = false := by
      rw [h.left_eq] at hleft
      simpa using (List.mem_filter.1 hleft).2
    rw [maxSimilarity, MmrLoop.pick, List.map_append, List.foldl_append]
    simp [hne, hchosen, h.maxSim_eq j hleft, maxSimilarity]

/-- With the cache true, the rounds are those of the greedy selection. -/
theorem Cached.rounds (h : loop.Cached pool left) (k : ℕ) :
    (loop.rounds pool k).selectedOrder = loop.selectedOrder ++
      Greedy.select
        (fun selected => pool.key fun j =>
          maxSimilarity (pool.tokens j) (selected.map pool.tokens))
        k loop.selectedOrder left := by
  induction k generalizing loop left with
  | zero => rw [MmrLoop.rounds, Greedy.select, List.append_nil]
  | succ k ih =>
    have hbest : loop.best pool = left.argmax (pool.key fun j =>
        maxSimilarity (pool.tokens j) (loop.selectedOrder.map pool.tokens)) := by
      rw [best_eq_argmax, ← h.left_eq]
      refine Greedy.argmax_congr fun j hj => ?_
      rw [Pool.key, Pool.key, h.maxSim_eq j hj]
    rw [MmrLoop.rounds, Greedy.select, hbest]
    rcases left.argmax _ with _ | s
    · rw [List.append_nil]
    · dsimp only
      rw [ih (h.pick s)]
      simp [MmrLoop.pick]

end MmrLoop

/-! ## The order of the hits -/

theorem mem_range_scores {s : ℚ} {scores : List ℚ} (h : s ∈ scores) :
    scores.min?.getD 0 ≤ s ∧ s ≤ scores.max?.getD 0 := by
  have hne := List.ne_nil_of_mem h
  rcases hmin : scores.min? with _ | lo
  · exact absurd (List.min?_eq_none_iff.1 hmin) hne
  · rcases hmax : scores.max? with _ | hi
    · exact absurd (List.max?_eq_none_iff.1 hmax) hne
    · exact ⟨(List.min?_eq_some_iff.1 hmin).2 s h, (List.max?_eq_some_iff.1 hmax).2 s h⟩

/-- A greater score is no less relevant. -/
theorem relevance_le_relevance {a : MemorySearchResult} (ha : a ∈ items) {s t : ℚ} (h : s ≤ t) :
    relevance items s ≤ relevance items t := by
  obtain ⟨hlo, hhi⟩ := mem_range_scores (List.mem_map_of_mem (f := MemorySearchResult.score) ha)
  unfold relevance
  dsimp only
  split_ifs
  · rfl
  · exact div_le_div_of_nonneg_right (sub_le_sub_right h _) (sub_nonneg.2 (hlo.trans hhi))

/-- At pure relevance the hits are ranked by their scores. -/
theorem key_le_key_iff {config : MMRConfig} (hlam : config.clamped = 1)
    (f g : Fin items.length → ℚ) (i j : Fin items.length) :
    (poolOf lower items config).key f i ≤ (poolOf lower items config).key g j ↔
      (items.get i).score ≤ (items.get j).score := by
  have hmono := fun s t (h : s ≤ t) => relevance_le_relevance (List.get_mem items i) h
  simp only [Pool.key, poolOf, hlam, sub_self, zero_mul, sub_zero, one_mul,
    Prod.Lex.toLex_le_toLex]
  constructor
  · rintro (hlt | ⟨-, hle⟩)
    · exact (not_le.1 fun hle => absurd (hmono _ _ hle) (not_le.2 hlt)).le
    · exact hle
  · intro hle
    exact (hmono _ _ hle).lt_or_eq.imp_right fun heq => ⟨heq, hle⟩

theorem naiveOrder_perm {n : ℕ} {config : MMRConfig} (hn : items.length ≤ n) :
    (naiveOrder lower items config n).Perm (List.finRange items.length) :=
  Greedy.select_perm (by rwa [List.length_finRange])

theorem take_naiveOrder {config : MMRConfig} (k : ℕ) :
    (naiveOrder lower items config items.length).take k = naiveOrder lower items config k :=
  (Greedy.select_eq_take (List.length_finRange).le).symm

theorem naiveOrder_of_clamped_eq_one {config : MMRConfig} (hlam : config.clamped = 1) :
    (naiveOrder lower items config items.length).map items.get = byScore items := by
  have hkey : ∀ selected : List (Fin items.length), ((poolOf lower items config).key fun j =>
      maxSimilarity ((poolOf lower items config).tokens j)
        (selected.map (poolOf lower items config).tokens)) =
      (poolOf lower items config).key fun _ => 0 := by
    intro selected
    ext i
    simp [Pool.key, poolOf, hlam]
  rw [naiveOrder]
  simp only [hkey]
  rw [Greedy.select_eq_insertionSort (List.length_finRange).le,
    List.map_insertionSort _ (fun a b => b.score ≤ a.score) items.get _
      fun i _ j _ => key_le_key_iff hlam _ _ j i, List.map_get_finRange, byScore]

theorem mmrRerank_of_enabled {config : MMRConfig} (h : config.enabled = true) :
    mmrRerank lower items config = (naiveOrder lower items config items.length).map items.get := by
  unfold mmrRerank
  split_ifs with hfew hlam
  · have hlen : items.length ≤ 1 := hfew.resolve_left (by simp [h])
    have horder : (naiveOrder lower items config items.length).Perm (List.finRange items.length) :=
      naiveOrder_perm le_rfl
    have hperm := horder.map items.get
    rw [List.map_get_finRange] at hperm
    rcases items with _ | ⟨a, _ | ⟨b, items⟩⟩
    · exact (List.perm_nil.1 hperm).symm
    · exact (List.perm_singleton.1 hperm).symm
    · simp at hlen
  · exact (naiveOrder_of_clamped_eq_one hlam).symm
  · rw [(MmrLoop.cached_start _).rounds]
    rfl

/-- Nothing is lost or made by re-ranking. -/
theorem mmrRerank_perm (lower : List Char → List Char) (items : List MemorySearchResult)
    (config : MMRConfig) : (mmrRerank lower items config).Perm items := by
  by_cases h : config.enabled = true
  · rw [mmrRerank_of_enabled h]
    exact ((naiveOrder_perm le_rfl).map _).trans (.of_eq (List.map_get_finRange items))
  · rw [mmrRerank, if_pos (.inl (by simpa using h))]

/-- The re-ranked hits are the hits, each once; and where re-ranking is on, the first `k` are the
`k` picks of the selection that compares with all picks, in its order. -/
theorem mmrRerank_eq_naive (lower : List Char → List Char) (items : List MemorySearchResult)
    (config : MMRConfig) :
    ∃ order : List (Fin items.length), order.Perm (List.finRange items.length) ∧
      mmrRerank lower items config = order.map items.get ∧
      (config.enabled = true → ∀ k, order.take k = naiveOrder lower items config k) := by
  by_cases h : config.enabled = true
  · exact ⟨naiveOrder lower items config items.length, naiveOrder_perm le_rfl,
      mmrRerank_of_enabled h, fun _ => take_naiveOrder⟩
  · refine ⟨List.finRange items.length, .refl _, ?_, fun henabled => absurd henabled h⟩
    rw [List.map_get_finRange, mmrRerank, if_pos (.inl (by simpa using h))]

/-- A hit with nothing but what re-ranking reads. -/
def hitOf (id text : String) (score : ℚ) : MemorySearchResult where
  chunk := ⟨id, id ++ ".md", "memory", 1, 1, text, "h"⟩
  score := score
  distance := 1 - score

example : (mmrRerank (List.map Char.toLower) [hitOf "hi1" "alpha beta gamma" (95 / 100),
    hitOf "dup" "alpha beta gamma delta" (94 / 100),
    hitOf "div" "completely different content" (1 / 2)]
    { enabled := true, lambda := 1 / 5 }).map (·.chunk.id) = ["hi1", "div", "dup"] := by
  decide +kernel

end OxenClaw.Memory
