import Mathlib.Data.List.ReduceOption
import OxenClaw.Lib.Binary64
import OxenClaw.Lib.Dict

/-!
# Rate-limit headers

`parse_rate_limit_headers` reads up to three windows a resource, of Anthropic, of a minute and of an
hour, and keeps the smallest count and the earliest reset of them, each on its own.
`is_quota_exhausted` tests the two together. A count that is infinite raises (`OverflowError`).
`answersWindows_iff` says when the test is right of the windows that the counts and resets come from.
-/

namespace OxenClaw.RateLimit

structure RateLimitState where
  requestsRemaining : Option ℤ
  requestsResetAt : Option Binary64
  tokensRemaining : Option ℤ
  tokensResetAt : Option Binary64
  requestsLimit : Option ℤ
  tokensLimit : Option ℤ
  observedAt : ℚ

/-- `min(vals)`, by `<` from the left, nothing of no values. -/
def minOf {α : Type} (lt : α → α → Bool) : List α → Option α
  | [] => none
  | x :: xs => some (xs.foldl (fun m y => if lt y m then y else m) x)

/-- `_merge_remaining`, `_merge_limit`, `_merge_reset`. -/
def merge {α : Type} (lt : α → α → Bool) (a b : Option α) : Option α :=
  match a, b with
  | none, b => b
  | a, none => a
  | some a, some b => some (if lt b a then b else a)

section

/- `s.lower()`, and `float(s)`, nothing where it raises `ValueError`. -/
variable (lower : String → String) (float : String → Option Binary64)

/-- `_coerce_int`. It raises where nothing is given. -/
def coerceInt (value : Option String) : Option (Option ℤ) :=
  match value.bind float with
  | none => some none
  | some x =>
    match x.toInt with
    | .int n => some (some n)
    | .valueError => some none
    | .overflowError => none

/-- `_EPOCH_THRESHOLD`. -/
def epochThreshold : ℚ := 1000000000

/-- `_coerce_reset`. -/
def coerceReset (value : Option String) (now : ℚ) : Option Binary64 :=
  (value.bind float).map fun n =>
    if n.le (.fin 0) then .fin now
    else if (Binary64.fin epochThreshold).lt n then n
    else (Binary64.fin now).add n

/-- `{k.lower(): v for k, v in headers.items()}`. -/
def lowered (headers : Dict String String) : Dict String String :=
  Dict.ofList (headers.map fun e => (lower e.1, e.2))

variable (headers : Dict String String) (now : ℚ)

/-- `_pick_remaining`, `_pick_limit`. -/
def pickInt (keys : List String) : Option (Option ℤ) :=
  (keys.mapM fun k => coerceInt float (headers.get? k)).map fun vals =>
    minOf (fun a b => a < b) vals.reduceOption

/-- `_pick_reset`. -/
def pickReset (keys : List String) : Option Binary64 :=
  minOf Binary64.lt (keys.filterMap fun k => coerceReset float (headers.get? k) now)

/-- What is parsed of headers in lower case. -/
def parseLowered : Option (Option RateLimitState) := do
  let aReqLimit ← coerceInt float (headers.get? "anthropic-ratelimit-requests-limit")
  let aReqRemaining ← coerceInt float (headers.get? "anthropic-ratelimit-requests-remaining")
  let aReqReset := coerceReset float (headers.get? "anthropic-ratelimit-requests-reset") now
  let aTokLimit ← coerceInt float (headers.get? "anthropic-ratelimit-tokens-limit")
  let aTokRemaining ← coerceInt float (headers.get? "anthropic-ratelimit-tokens-remaining")
  let aTokReset := coerceReset float (headers.get? "anthropic-ratelimit-tokens-reset") now
  let oReqLimit ← pickInt float headers
    ["x-ratelimit-limit-requests", "x-ratelimit-limit-requests-1h"]
  let oReqRemaining ← pickInt float headers
    ["x-ratelimit-remaining-requests", "x-ratelimit-remaining-requests-1h"]
  let oReqReset := pickReset float headers now
    ["x-ratelimit-reset-requests", "x-ratelimit-reset-requests-1h"]
  let oTokLimit ← pickInt float headers
    ["x-ratelimit-limit-tokens", "x-ratelimit-limit-tokens-1h"]
  let oTokRemaining ← pickInt float headers
    ["x-ratelimit-remaining-tokens", "x-ratelimit-remaining-tokens-1h"]
  let oTokReset := pickReset float headers now
    ["x-ratelimit-reset-tokens", "x-ratelimit-reset-tokens-1h"]
  let state : RateLimitState := {
    requestsRemaining := merge (fun a b => a < b) aReqRemaining oReqRemaining
    requestsResetAt := merge Binary64.lt aReqReset oReqReset
    tokensRemaining := merge (fun a b => a < b) aTokRemaining oTokRemaining
    tokensResetAt := merge Binary64.lt aTokReset oTokReset
    requestsLimit := merge (fun a b => a < b) aReqLimit oReqLimit
    tokensLimit := merge (fun a b => a < b) aTokLimit oTokLimit
    observedAt := now }
  if state.requestsRemaining = none ∧ state.tokensRemaining = none ∧
      state.requestsResetAt = none ∧ state.tokensResetAt = none ∧
      state.requestsLimit = none ∧ state.tokensLimit = none then
    return none
  return some state

def isRateLimitKey (k : String) : Bool :=
  "x-ratelimit-".toList.isPrefixOf k.toList || "anthropic-ratelimit-".toList.isPrefixOf k.toList

/-- `parse_rate_limit_headers`. Nothing is given where it raises. -/
def parseRateLimitHeaders : Option (Option RateLimitState) :=
  if headers = [] then some none
  else
    let low := lowered lower headers
    if (Dict.keys low).any isRateLimitKey then parseLowered float low now else some none

end

/-- A reset lies a minute ahead. -/
def ahead (now : ℚ) (reset : Binary64) : Bool :=
  (Binary64.fin 60).le (reset.sub (.fin now))

/-- `remaining <= 0` and `reset - now >= 60`, of one resource. -/
def bucketDead (remaining : Option ℤ) (resetAt : Option Binary64) (now : ℚ) : Bool :=
  remaining.any (· ≤ 0) && resetAt.any (ahead now)

/-- `is_quota_exhausted`. -/
def isQuotaExhausted (state : Option RateLimitState) (now : ℚ) : Bool :=
  match state with
  | none => false
  | some state =>
    bucketDead state.requestsRemaining state.requestsResetAt now ||
      bucketDead state.tokensRemaining state.tokensResetAt now

/-! ## The windows -/

/-- The headers of a window. -/
structure Window where
  remaining : String
  reset : String

/-- The windows of a resource. -/
structure Resource where
  anthropic : Window
  openai : List Window

def requests : Resource where
  anthropic := ⟨"anthropic-ratelimit-requests-remaining", "anthropic-ratelimit-requests-reset"⟩
  openai := [⟨"x-ratelimit-remaining-requests", "x-ratelimit-reset-requests"⟩,
    ⟨"x-ratelimit-remaining-requests-1h", "x-ratelimit-reset-requests-1h"⟩]

def tokens : Resource where
  anthropic := ⟨"anthropic-ratelimit-tokens-remaining", "anthropic-ratelimit-tokens-reset"⟩
  openai := [⟨"x-ratelimit-remaining-tokens", "x-ratelimit-reset-tokens"⟩,
    ⟨"x-ratelimit-remaining-tokens-1h", "x-ratelimit-reset-tokens-1h"⟩]

def Resource.windows (r : Resource) : List Window :=
  r.anthropic :: r.openai

def resources : List Resource :=
  [requests, tokens]

theorem exists_resource_iff {p : Resource → Prop} :
    (∃ r ∈ resources, p r) ↔ p requests ∨ p tokens := by
  rw [resources, List.exists_mem_cons_iff]
  simp

/-- The headers that counts and limits are read of. -/
def countHeaders : List String :=
  ["anthropic-ratelimit-requests-limit", "x-ratelimit-limit-requests",
    "x-ratelimit-limit-requests-1h", "anthropic-ratelimit-tokens-limit",
    "x-ratelimit-limit-tokens", "x-ratelimit-limit-tokens-1h"] ++
  (resources.flatMap Resource.windows).map Window.remaining

section

variable (float : String → Option Binary64) (low : Dict String String) (now later : ℚ)

/-- The count of a window, that is not infinite. -/
def Window.count (w : Window) : Option ℤ :=
  (coerceInt float (low.get? w.remaining)).join

def Window.resetAt (w : Window) : Option Binary64 :=
  coerceReset float (low.get? w.reset) now

/-- Nothing remains of the window, and its reset lies a minute ahead. -/
def Window.Dead (w : Window) : Prop :=
  (∃ n, w.count float low = some n ∧ n ≤ 0) ∧
    ∃ t, w.resetAt float low now = some t ∧ ahead later t = true

/-- Nothing remains of some window. -/
def Resource.Spent (r : Resource) : Prop :=
  ∃ w ∈ r.windows, ∃ n, w.count float low = some n ∧ n ≤ 0

/-- The resets lie a minute ahead, but for a NaN that `min` passes over : one that is not the
first. -/
def AllAhead (resets : List Binary64) : Prop :=
  ∃ t ts, resets = t :: ts ∧ ahead later t = true ∧ ∀ t' ∈ ts, t' = .nan ∨ ahead later t' = true

/-- The resets of a resource lie a minute ahead. Those behind a NaN, where Anthropic gives one too,
are passed over with it. -/
def Resource.ResetsAhead (r : Resource) : Prop :=
  let resets := r.openai.filterMap (Window.resetAt float low now)
  match r.anthropic.resetAt float low now with
  | none => AllAhead later resets
  | some t => ahead later t = true ∧
      (resets = [] ∨ resets.head? = some .nan ∨ AllAhead later resets)

/-- No count and no limit is infinite. -/
def CountsFinite : Prop :=
  ∀ k ∈ countHeaders, ∀ v, low.get? k = some v → ∀ negative, float v ≠ some (.inf negative)

/-! ## The smallest count and the earliest reset -/

theorem not_ahead_nan : ahead later .nan = false := rfl

/-- Later resets are ahead if earlier ones are. -/
theorem ahead_of_le {x y : Binary64} (h : x.le y = true) (hx : ahead later x = true) :
    ahead later y = true :=
  Binary64.le_trans hx (Binary64.sub_le_sub h later)

/-- The smaller of two resets is ahead if both are, or the other is NaN. -/
theorem ahead_min_iff (x y : Binary64) :
    ahead later (if y.lt x then y else x) = true ↔
      ahead later x = true ∧ (y = .nan ∨ ahead later y = true) := by
  split_ifs with hlt
  · have hle := Binary64.le_of_lt hlt
    have hy : y ≠ .nan := by
      rintro rfl
      cases hlt
    exact ⟨fun h => ⟨ahead_of_le later hle h, .inr h⟩, fun h => h.2.resolve_left hy⟩
  · refine ⟨fun h => ⟨h, ?_⟩, And.left⟩
    by_cases hy : y = .nan
    · exact .inl hy
    · have hx : x ≠ .nan := by
        rintro rfl
        rw [not_ahead_nan] at h
        cases h
      exact .inr (ahead_of_le later (Binary64.le_of_not_lt hx hy (by simpa using hlt)) h)

theorem min_eq_nan_iff (x y : Binary64) : (if y.lt x then y else x) = .nan ↔ x = .nan := by
  split_ifs with hlt
  · have hne : ∀ z : Binary64, z.place ≠ none → z ≠ .nan := fun z hz h =>
      hz (Binary64.place_eq_none_iff.2 h)
    obtain ⟨a, b, ha, hb, -⟩ := Binary64.lt_iff.1 hlt
    exact iff_of_false (hne y (by simp [ha])) (hne x (by simp [hb]))
  · exact Iff.rfl

/-- The first of the smallest numbers. -/
theorem foldl_min (x : Binary64) (xs : List Binary64) :
    (ahead later (xs.foldl (fun m y => if y.lt m then y else m) x) = true ↔
      ahead later x = true ∧ ∀ y ∈ xs, y = .nan ∨ ahead later y = true) ∧
    (xs.foldl (fun m y => if y.lt m then y else m) x = .nan ↔ x = .nan) := by
  induction xs generalizing x with
  | nil => simp
  | cons y xs ih =>
    rw [List.foldl_cons, (ih _).1, (ih _).2, ahead_min_iff, min_eq_nan_iff]
    simp [and_assoc]

theorem any_minOf_ahead_iff (resets : List Binary64) :
    (minOf Binary64.lt resets).any (ahead later) = true ↔ AllAhead later resets := by
  rcases resets with _ | ⟨x, xs⟩
  · simp [minOf, AllAhead]
  · rw [minOf, Option.any_some, (foldl_min later x xs).1]
    simp [AllAhead]

/-- The reset that is kept. -/
theorem any_merge_ahead_iff (a : Option Binary64) (resets : List Binary64) :
    (merge Binary64.lt a (minOf Binary64.lt resets)).any (ahead later) = true ↔
      match a with
      | none => AllAhead later resets
      | some t => ahead later t = true ∧
          (resets = [] ∨ resets.head? = some .nan ∨ AllAhead later resets) := by
  rcases a with _ | t
  · rw [← any_minOf_ahead_iff]
    rfl
  rcases resets with _ | ⟨x, xs⟩
  · simp [minOf, merge]
  · have hmin := (foldl_min later x xs).2
    have hpicked := any_minOf_ahead_iff later (x :: xs)
    rw [minOf, Option.any_some] at hpicked
    rw [minOf, merge, Option.any_some, ahead_min_iff, hmin, hpicked]
    simp

/-- The smallest count is spent if one is. -/
theorem any_minOf_spent_iff (counts : List ℤ) :
    (minOf (fun a b => decide (a < b)) counts).any (· ≤ 0) = true ↔ ∃ n ∈ counts, n ≤ 0 := by
  rcases counts with _ | ⟨x, xs⟩
  · simp [minOf]
  · rw [minOf, Option.any_some, decide_eq_true_eq]
    induction xs generalizing x with
    | nil => simp
    | cons y xs ih =>
      rw [List.foldl_cons, ih]
      simp only [List.mem_cons, exists_eq_or_imp, decide_eq_true_eq]
      rw [← or_assoc]
      refine or_congr_left ?_
      split_ifs <;> omega

theorem any_merge_spent_iff (a : Option ℤ) (counts : List ℤ) :
    (merge (fun a b => decide (a < b)) a (minOf (fun a b => decide (a < b)) counts)).any
        (· ≤ 0) = true ↔ (∃ n, a = some n ∧ n ≤ 0) ∨ ∃ n ∈ counts, n ≤ 0 := by
  rw [← any_minOf_spent_iff]
  rcases a with _ | n <;>
    rcases minOf (fun a b => decide (a < b)) counts with _ | m
  · simp [merge]
  · simp [merge]
  · simp [merge]
  · simp only [merge, Option.any_some, decide_eq_true_eq, Option.some.injEq, exists_eq_left']
    split_ifs <;> omega

/-! ## What is parsed -/

theorem countHeaders_eq : countHeaders =
    ["anthropic-ratelimit-requests-limit", "x-ratelimit-limit-requests",
      "x-ratelimit-limit-requests-1h", "anthropic-ratelimit-tokens-limit",
      "x-ratelimit-limit-tokens", "x-ratelimit-limit-tokens-1h",
      "anthropic-ratelimit-requests-remaining", "x-ratelimit-remaining-requests",
      "x-ratelimit-remaining-requests-1h", "anthropic-ratelimit-tokens-remaining",
      "x-ratelimit-remaining-tokens", "x-ratelimit-remaining-tokens-1h"] := rfl

theorem isSome_coerceInt_iff (value : Option String) : (coerceInt float value).isSome = true ↔
    ∀ negative, value.bind float ≠ some (.inf negative) := by
  rw [coerceInt]
  rcases value.bind float with _ | (_ | negative | q)
  · simp
  · simp [Binary64.toInt]
  · simp [Binary64.toInt]
  · simp [Binary64.toInt]

theorem countsFinite_iff : CountsFinite float low ↔
    ∀ k ∈ countHeaders, (coerceInt float (low.get? k)).isSome = true := by
  refine forall₂_congr fun k _ => ?_
  rw [isSome_coerceInt_iff]
  rcases low.get? k with _ | v <;> simp

theorem mapM_eq_some_iff {α β : Type} {f : α → Option (Option β)} {keys : List α}
    {vals : List (Option β)} :
    keys.mapM f = some vals ↔
      (∀ k ∈ keys, (f k).isSome = true) ∧ vals = keys.map fun k => (f k).join := by
  induction keys generalizing vals with
  | nil =>
    rw [List.mapM_nil, Option.pure_def, Option.some.injEq, eq_comm]
    simp
  | cons k keys ih =>
    simp only [List.mapM_cons, Option.bind_eq_bind, Option.bind_eq_some_iff, ih, Option.pure_def,
      Option.some.injEq, List.forall_mem_cons, List.map_cons]
    constructor
    · rintro ⟨v, hv, _, ⟨hsome, rfl⟩, rfl⟩
      exact ⟨⟨by rw [hv, Option.isSome_some], hsome⟩, by rw [hv, Option.join_some]⟩
    · rintro ⟨⟨hk, hsome⟩, rfl⟩
      obtain ⟨v, hv⟩ := Option.isSome_iff_exists.1 hk
      exact ⟨v, hv, _, ⟨hsome, rfl⟩, by rw [hv, Option.join_some]⟩

theorem pickInt_eq_some_iff {keys : List String} {m : Option ℤ} :
    pickInt float low keys = some m ↔
      (∀ k ∈ keys, (coerceInt float (low.get? k)).isSome = true) ∧
        m = minOf (fun a b => decide (a < b))
          (keys.filterMap fun k => (coerceInt float (low.get? k)).join) := by
  have hreduce : (keys.map fun k => (coerceInt float (low.get? k)).join).reduceOption =
      keys.filterMap fun k => (coerceInt float (low.get? k)).join := by
    rw [List.reduceOption, List.filterMap_map]
    rfl
  rw [pickInt, Option.map_eq_some_iff, ← hreduce]
  constructor
  · rintro ⟨vals, hvals, rfl⟩
    obtain ⟨hsome, rfl⟩ := mapM_eq_some_iff.1 hvals
    exact ⟨hsome, rfl⟩
  · rintro ⟨hsome, rfl⟩
    exact ⟨_, mapM_eq_some_iff.2 ⟨hsome, rfl⟩, rfl⟩

/-- The test of one resource. -/
theorem bucketDead_iff (r : Resource) :
    bucketDead (merge (fun a b => decide (a < b)) (r.anthropic.count float low)
        (minOf (fun a b => decide (a < b)) (r.openai.filterMap (Window.count float low))))
      (merge Binary64.lt (r.anthropic.resetAt float low now)
        (minOf Binary64.lt (r.openai.filterMap (Window.resetAt float low now)))) later = true ↔
      r.Spent float low ∧ r.ResetsAhead float low now later := by
  rw [bucketDead, Bool.and_eq_true, any_merge_spent_iff, any_merge_ahead_iff]
  refine and_congr ?_ Iff.rfl
  simp only [Resource.Spent, Resource.windows, List.mem_cons, exists_eq_or_imp, List.mem_filterMap]
  refine or_congr_right ?_
  constructor
  · rintro ⟨n, ⟨w, hw, hcount⟩, hn⟩
    exact ⟨w, hw, n, hcount, hn⟩
  · rintro ⟨w, hw, n, hcount, hn⟩
    exact ⟨n, ⟨w, hw, hcount⟩, hn⟩

/-- The test says of each resource whether one of its counts is spent and its resets are ahead. -/
def Answers (st : Option RateLimitState) : Prop :=
  isQuotaExhausted st later = true ↔
    ∃ r ∈ resources, r.Spent float low ∧ r.ResetsAhead float low now later

/-- A state of nothing is not exhausted either. -/
theorem isQuotaExhausted_empty {state : RateLimitState} {st : Option RateLimitState} {p : Prop}
    [Decidable p] (hp : p → state.requestsRemaining = none ∧ state.tokensRemaining = none)
    (h : (if p then some none else some (some state)) = some st) :
    isQuotaExhausted st later = isQuotaExhausted (some state) later := by
  split_ifs at h with hnone <;> obtain rfl := Option.some.inj h
  · obtain ⟨hreq, htok⟩ := hp hnone
    rw [isQuotaExhausted, isQuotaExhausted, hreq, htok]
    rfl
  · rfl

theorem parseLowered_answers {st : Option RateLimitState}
    (h : parseLowered float low now = some st) :
    CountsFinite float low ∧ Answers float low now later st := by
  simp only [parseLowered, Option.bind_eq_bind, Option.bind_eq_some_iff, pickInt_eq_some_iff] at h
  obtain ⟨l, h1, n, h2, l', h3, n', h4, _, ⟨h5, rfl⟩, _, ⟨h6, rfl⟩, _, ⟨h7, rfl⟩, _, ⟨h8, rfl⟩,
    h⟩ := h
  have hsome : ∀ {k v}, coerceInt float (low.get? k) = some v →
      (coerceInt float (low.get? k)).isSome = true := fun h => by rw [h, Option.isSome_some]
  refine ⟨(countsFinite_iff float low).2 ?_, ?_⟩
  · simp only [List.forall_mem_cons] at h5 h6 h7 h8
    simp only [countHeaders_eq, List.forall_mem_cons]
    exact ⟨hsome h1, h5.1, h5.2.1, hsome h3, h7.1, h7.2.1, hsome h2, h6.1, h6.2.1, hsome h4, h8.1,
      h8.2.1, List.forall_mem_nil _⟩
  · rw [Answers, isQuotaExhausted_empty later (fun hp => ⟨hp.1, hp.2.1⟩) h, isQuotaExhausted,
      Bool.or_eq_true]
    have hreq := bucketDead_iff float low now later requests
    have htok := bucketDead_iff float low now later tokens
    have hcounts : requests.anthropic.count float low = n ∧ tokens.anthropic.count float low = n' :=
      ⟨congrArg Option.join h2, congrArg Option.join h4⟩
    rw [hcounts.1] at hreq
    rw [hcounts.2] at htok
    rw [exists_resource_iff, ← hreq, ← htok]
    rfl

theorem exists_parseLowered (h : CountsFinite float low) :
    ∃ st, parseLowered float low now = some st := by
  rw [countsFinite_iff] at h
  simp only [countHeaders_eq, List.forall_mem_cons] at h
  obtain ⟨h1, h2, h3, h4, h5, h6, h7, h8, h9, h10, h11, h12, -⟩ := h
  obtain ⟨_, h1⟩ := Option.isSome_iff_exists.1 h1
  obtain ⟨_, h4⟩ := Option.isSome_iff_exists.1 h4
  obtain ⟨_, h7⟩ := Option.isSome_iff_exists.1 h7
  obtain ⟨_, h10⟩ := Option.isSome_iff_exists.1 h10
  have hpick : ∀ {k k'}, (coerceInt float (low.get? k)).isSome = true →
      (coerceInt float (low.get? k')).isSome = true →
      pickInt float low [k, k'] = some _ := fun h h' =>
    (pickInt_eq_some_iff float low).2
      ⟨by rw [List.forall_mem_cons, List.forall_mem_singleton]; exact ⟨h, h'⟩, rfl⟩
  simp only [parseLowered, Option.bind_eq_bind, h1, h4, h7, h10, hpick h2 h3, hpick h5 h6,
    hpick h8 h9, hpick h11 h12, Option.bind_some]
  split_ifs
  · exact ⟨_, rfl⟩
  · exact ⟨_, rfl⟩

theorem isPrefixOf_ofList {p k : List Char} (h : p.isPrefixOf k = true) :
    (String.ofList p).toList.isPrefixOf (String.ofList k).toList = true := by
  rw [String.toList_ofList, String.toList_ofList]
  exact h

theorem isRateLimitKey_of_mem {k : String} (h : k ∈ countHeaders) : isRateLimitKey k = true := by
  have hx : ∀ k, "x-ratelimit-".toList.isPrefixOf k.toList = true → isRateLimitKey k = true :=
    fun k hk => by rw [isRateLimitKey, hk, Bool.true_or]
  have ha : ∀ k, "anthropic-ratelimit-".toList.isPrefixOf k.toList = true →
      isRateLimitKey k = true := fun k hk => by rw [isRateLimitKey, hk, Bool.or_true]
  revert k
  simp only [countHeaders_eq, List.forall_mem_cons]
  exact ⟨ha _ (isPrefixOf_ofList (by decide)), hx _ (isPrefixOf_ofList (by decide)),
    hx _ (isPrefixOf_ofList (by decide)), ha _ (isPrefixOf_ofList (by decide)),
    hx _ (isPrefixOf_ofList (by decide)), hx _ (isPrefixOf_ofList (by decide)),
    ha _ (isPrefixOf_ofList (by decide)), hx _ (isPrefixOf_ofList (by decide)),
    hx _ (isPrefixOf_ofList (by decide)), ha _ (isPrefixOf_ofList (by decide)),
    hx _ (isPrefixOf_ofList (by decide)), hx _ (isPrefixOf_ofList (by decide)),
    List.forall_mem_nil _⟩

/-- Where no count is given, nothing is exhausted. -/
theorem answers_none (h : ∀ k ∈ countHeaders, low.get? k = none) :
    CountsFinite float low ∧ Answers float low now later none := by
  refine ⟨fun k hk v hv => ?_, ?_⟩
  · rw [h k hk] at hv
    cases hv
  · refine iff_of_false Bool.false_ne_true ?_
    rintro ⟨r, hr, ⟨w, hw, n, hcount, -⟩, -⟩
    have hmem : w.remaining ∈ countHeaders := List.mem_append_right _
      (List.mem_map_of_mem (List.mem_flatMap.2 ⟨r, hr, hw⟩))
    rw [Window.count, h _ hmem] at hcount
    cases hcount

variable (lower : String → String) (headers : Dict String String)

/-- The parse raises where a count is infinite. Elsewhere the test says of each resource whether
one of its counts is spent and its resets are ahead. -/
theorem parse_answers :
    ((∃ st, parseRateLimitHeaders lower float headers now = some st) ↔
      CountsFinite float (lowered lower headers)) ∧
    ∀ st, parseRateLimitHeaders lower float headers now = some st →
      Answers float (lowered lower headers) now later st := by
  have hnone : ∀ {parsed : Option (Option RateLimitState)}, parsed = some none →
      (∀ k ∈ countHeaders, (lowered lower headers).get? k = none) →
      ((∃ st, parsed = some st) ↔ CountsFinite float (lowered lower headers)) ∧
      ∀ st, parsed = some st → Answers float (lowered lower headers) now later st := by
    rintro _ rfl h
    obtain ⟨hfinite, hanswers⟩ := answers_none float _ now later h
    exact ⟨iff_of_true ⟨_, rfl⟩ hfinite, fun st hst => Option.some.inj hst ▸ hanswers⟩
  rw [parseRateLimitHeaders]
  split_ifs with hempty
  · subst hempty
    exact hnone rfl fun k _ => rfl
  · by_cases hkey : (Dict.keys (lowered lower headers)).any isRateLimitKey
    · simp only [if_pos hkey]
      exact ⟨⟨fun ⟨st, h⟩ => (parseLowered_answers float _ now later h).1,
        exists_parseLowered float _ now⟩, fun st h => (parseLowered_answers float _ now later h).2⟩
    · refine hnone (if_neg hkey) fun k hk => Dict.get?_eq_none_iff.2 fun hmem => hkey ?_
      exact List.any_eq_true.2 ⟨k, hmem, isRateLimitKey_of_mem hk⟩

/-- The parse does not raise and the test is true just where some window is dead, if and only if no
count is infinite, and either some window is dead and some resource with a spent count has its
resets ahead, or no window is dead and no such resource has. -/
theorem answersWindows_iff :
    (∃ st, parseRateLimitHeaders lower float headers now = some st ∧
      (isQuotaExhausted st later = true ↔
        ∃ r ∈ resources, ∃ w ∈ r.windows, w.Dead float (lowered lower headers) now later)) ↔
      CountsFinite float (lowered lower headers) ∧
        ((∃ r ∈ resources, ∃ w ∈ r.windows, w.Dead float (lowered lower headers) now later) ∧
            (∃ r ∈ resources, r.Spent float (lowered lower headers) ∧
              r.ResetsAhead float (lowered lower headers) now later) ∨
          (¬ ∃ r ∈ resources, ∃ w ∈ r.windows, w.Dead float (lowered lower headers) now later) ∧
            ¬ ∃ r ∈ resources, r.Spent float (lowered lower headers) ∧
              r.ResetsAhead float (lowered lower headers) now later) := by
  obtain ⟨hsome, hanswers⟩ := parse_answers float now later lower headers
  rw [← iff_iff_and_or_not_and_not, ← hsome]
  constructor
  · rintro ⟨st, hst, h⟩
    exact ⟨⟨st, hst⟩, h.symm.trans (hanswers st hst)⟩
  · rintro ⟨⟨st, hst⟩, h⟩
    exact ⟨st, hst, (hanswers st hst).trans h.symm⟩

end

/-! ## An hour that is spent, behind a minute that is not -/

def deadHour : Dict String String :=
  [("x-ratelimit-reset-requests", "1700000030"),
    ("x-ratelimit-remaining-requests-1h", "0"),
    ("x-ratelimit-reset-requests-1h", "1700003600")]

/-- `float` of the values. -/
def deadHourFloat (s : String) : Option Binary64 :=
  if s = "0" then some (.fin 0)
  else if s = "1700000030" then some (.fin 1700000030)
  else if s = "1700003600" then some (.fin 1700003600)
  else none

theorem lowered_deadHour : lowered id deadHour = deadHour :=
  Dict.ofList_of_nodup (by simp [deadHour, Dict.keys])

theorem ahead_iff {q : ℚ} {n : ℕ} (hq : q = 1700000000 + n) (h : n < 2 ^ 53) :
    ahead 1700000000 (.fin q) = true ↔ 60 ≤ n := by
  have hsub : q + -1700000000 = n := by
    rw [hq]
    ring
  rw [ahead, Binary64.sub, Binary64.neg, Binary64.add, hsub, Binary64.ofRat_natCast h,
    Binary64.fin_le_fin_iff]
  exact_mod_cast Iff.rfl

/-- The hour is dead, and the minute resets before. -/
theorem deadHour_not_answered :
    ¬ ∃ st, parseRateLimitHeaders id deadHourFloat deadHour 1700000000 = some st ∧
      (isQuotaExhausted st 1700000000 = true ↔ ∃ r ∈ resources, ∃ w ∈ r.windows,
        w.Dead deadHourFloat (lowered id deadHour) 1700000000 1700000000) := by
  rintro ⟨st, hst, hdead⟩
  have hanswers := (parse_answers deadHourFloat 1700000000 1700000000 id deadHour).2 st hst
  rw [lowered_deadHour] at hdead hanswers
  have hhour : ∃ r ∈ resources, ∃ w ∈ r.windows,
      w.Dead deadHourFloat deadHour 1700000000 1700000000 :=
    exists_resource_iff.2 (.inl ⟨_, List.mem_cons_of_mem _ (List.mem_cons_of_mem _
      (List.mem_singleton_self _)), ⟨0, rfl, le_rfl⟩, .fin 1700003600, rfl,
      (ahead_iff (n := 3600) (by norm_num) (by norm_num)).2 (by norm_num)⟩)
  rcases exists_resource_iff.1 (hanswers.1 (hdead.2 hhour)) with ⟨-, hresets⟩ | ⟨hspent, -⟩
  · have hminute : requests.openai.filterMap (Window.resetAt deadHourFloat deadHour 1700000000) =
        [.fin 1700000030, .fin 1700003600] := rfl
    have hnone : requests.anthropic.resetAt deadHourFloat deadHour 1700000000 = none := rfl
    rw [Resource.ResetsAhead, hnone, hminute] at hresets
    obtain ⟨t, ts, heq, hahead, -⟩ := hresets
    obtain ⟨rfl, -⟩ := List.cons.inj heq
    have hsoon := (ahead_iff (n := 30) (by norm_num) (by norm_num)).1 hahead
    omega
  · have hcounts : ∀ w ∈ tokens.windows, w.count deadHourFloat deadHour = none := by
      simp only [Resource.windows, tokens, List.forall_mem_cons]
      exact ⟨rfl, rfl, rfl, List.forall_mem_nil _⟩
    obtain ⟨w, hw, n, hcount, -⟩ := hspent
    exact Option.some_ne_none n (hcount.symm.trans (hcounts w hw))

end OxenClaw.RateLimit
