import Mathlib.Algebra.Order.Ring.Rat
import Mathlib.Data.List.Sort
import Mathlib.Tactic.Linarith
import OxenClaw.Lib.Dict
import OxenClaw.Lib.FixedWindows
import OxenClaw.Lib.Runs

/-!
# The rate limit of webhooks

`check` counts the requests of a key in a window that starts at a request, and starts a new one
when it is over. Once there are `maxKeys` keys, a new key makes room by dropping the quarter whose
windows started first (`maybePrune`), whether these windows are over or not.

As long as no bucket of a key is dropped before its window is over (`Spares`), what is allowed to
this key is counted in fixed windows, and no interval shorter than a window has more than twice the
maximum of them (`allowedBetween_le`). A key whose bucket is dropped starts anew at once
(`allowed_again_when_dropped`).
-/

namespace OxenClaw.Security

/-- `_Bucket`. -/
structure Bucket where
  count : ℕ := 0
  windowStart : ℚ := 0
  deriving DecidableEq

/-- What a `FixedWindowRateLimiter` is constructed with. -/
structure FixedWindowRateLimiter where
  maxRequests : ℕ
  windowSeconds : ℚ
  maxKeys : ℤ := 10000
  maxRequests_pos : 0 < maxRequests
  windowSeconds_pos : 0 < windowSeconds

/-- `self._buckets`. -/
abbrev Buckets := Dict String Bucket

/-- The keys `_maybe_prune` drops. -/
def oldestQuarter (buckets : Buckets) : List String :=
  let items := buckets.insertionSort fun x y => x.2.windowStart ≤ y.2.windowStart
  (items.take (max 1 (items.length / 4))).map Prod.fst

namespace FixedWindowRateLimiter

variable (r : FixedWindowRateLimiter)

/-- `_maybe_prune`. -/
def maybePrune (buckets : Buckets) : Buckets :=
  if buckets.length < r.maxKeys then buckets
  else (oldestQuarter buckets).foldl Dict.erase buckets

/-- The end of `check`, with the bucket of the key. -/
def spend (buckets : Buckets) (key : String) (bucket : Bucket) : Bool × Buckets :=
  if r.maxRequests ≤ bucket.count then (false, buckets.set key bucket)
  else (true, buckets.set key { bucket with count := bucket.count + 1 })

/-- `check`, at the time `now`. -/
def check (buckets : Buckets) (key : String) (now : ℚ) : Bool × Buckets :=
  match buckets.get? key with
  | none => r.spend (r.maybePrune buckets) key { count := 0, windowStart := now }
  | some bucket =>
    if r.windowSeconds ≤ now - bucket.windowStart then
      r.spend buckets key { count := 0, windowStart := now }
    else r.spend buckets key bucket

/-- A call of `check`. -/
structure Call where
  key : String
  now : ℚ
  deriving DecidableEq

/-- The buckets, and the calls that were allowed. -/
structure Journal where
  buckets : Buckets := []
  allowed : List Call := []

def step (j : Journal) (c : Call) : Journal :=
  let answer := r.check j.buckets c.key c.now
  { buckets := answer.2
    allowed := if answer.1 then j.allowed ++ [c] else j.allowed }

/-- How many requests of a key were allowed between `a` and `b`. -/
def Journal.allowedBetween (j : Journal) (key : String) (a b : ℚ) : ℕ :=
  j.allowed.countP fun c => c.key = key ∧ a ≤ c.now ∧ c.now ≤ b

/-- The call drops the bucket of a key. -/
def Drops (key : String) (j : Journal) (c : Call) : Prop :=
  j.buckets.get? c.key = none ∧ r.maxKeys ≤ j.buckets.length ∧ key ∈ oldestQuarter j.buckets

/-- The call drops no bucket of a key whose window is not over. -/
def Spares (key : String) (j : Journal) (c : Call) : Prop :=
  r.Drops key j c → ∀ bucket ∈ j.buckets.get? key, r.windowSeconds ≤ c.now - bucket.windowStart

instance (key : String) (j : Journal) (c : Call) : Decidable (r.Drops key j c) :=
  inferInstanceAs (Decidable (_ ∧ _ ∧ _))

instance (key : String) (j : Journal) (c : Call) : Decidable (r.Spares key j c) :=
  inferInstanceAs (Decidable (_ → _))

/-! ## The operations -/

variable {r}

theorem get?_foldl_erase (key : String) (keys : List String) (buckets : Buckets) :
    (keys.foldl Dict.erase buckets).get? key =
      if key ∈ keys then none else buckets.get? key := by
  induction keys generalizing buckets with
  | nil => rw [if_neg List.not_mem_nil, List.foldl_nil]
  | cons k keys ih =>
    rw [List.foldl_cons, ih]
    by_cases hk : key = k
    · simp [hk]
    · simp [hk, Dict.get?_erase_of_ne hk]

theorem get?_maybePrune (key : String) (buckets : Buckets) :
    (r.maybePrune buckets).get? key =
      if r.maxKeys ≤ buckets.length ∧ key ∈ oldestQuarter buckets then none
      else buckets.get? key := by
  rw [maybePrune]
  split_ifs with hlt h h
  · omega
  · rfl
  · rw [get?_foldl_erase, if_pos h.2]
  · rw [get?_foldl_erase, if_neg fun hmem => h ⟨by omega, hmem⟩]

theorem get?_spend_of_ne {buckets : Buckets} {key k : String} {bucket : Bucket} (h : k ≠ key) :
    (r.spend buckets key bucket).2.get? k = buckets.get? k := by
  rw [spend]
  split_ifs <;> exact Dict.get?_set_of_ne h _ _

/-- What a call does to the bucket of another key. -/
theorem get?_check_of_ne {j : Journal} {c : Call} {key : String} (h : key ≠ c.key) :
    (r.check j.buckets c.key c.now).2.get? key =
      if r.Drops key j c then none else j.buckets.get? key := by
  rw [check]
  cases hc : j.buckets.get? c.key with
  | none =>
    have hdrops : r.Drops key j c ↔ r.maxKeys ≤ j.buckets.length ∧ key ∈ oldestQuarter j.buckets :=
      and_iff_right hc
    rw [get?_spend_of_ne h, get?_maybePrune]
    simp only [hdrops]
  | some bucket =>
    have hdrops : ¬r.Drops key j c := fun hd => by
      rw [hd.1] at hc
      cases hc
    rw [if_neg hdrops]
    dsimp only
    split_ifs <;> exact get?_spend_of_ne h

/-! ## The windows of a key -/

/-- The times at which a key was allowed. -/
def Journal.times (j : Journal) (key : String) : List ℚ :=
  (j.allowed.filter (·.key = key)).map Call.now

theorem Journal.allowedBetween_eq (j : Journal) (key : String) (a b : ℚ) :
    j.allowedBetween key a b = FixedWindow.count a b (j.times key) := by
  rw [allowedBetween, FixedWindow.count, times, List.countP_map, List.countP_filter]
  exact List.countP_congr fun c _ => by simp [and_comm]

/-- The times of a key are counted in fixed windows, the last one by its bucket. -/
structure Windowed (r : FixedWindowRateLimiter) (key : String) (now : ℚ) (j : Journal) : Prop where
  le : ∀ t ∈ j.times key, t ≤ now
  closed : j.buckets.get? key = none →
    FixedWindow.Closed r.windowSeconds r.maxRequests now (j.times key)
  opened : ∀ bucket ∈ j.buckets.get? key, bucket.windowStart ≤ now ∧
    FixedWindow.Open r.windowSeconds r.maxRequests bucket.windowStart bucket.count (j.times key)

variable {key : String} {now : ℚ} {j : Journal} {c : Call}

theorem Windowed.count_le (h : Windowed r key now j) {a b : ℚ} (hab : b - a < r.windowSeconds) :
    j.allowedBetween key a b ≤ 2 * r.maxRequests := by
  have hlt : b < a + r.windowSeconds := by linarith
  rw [Journal.allowedBetween_eq]
  cases hget : j.buckets.get? key with
  | none => exact (h.closed hget).count_le a b hlt
  | some bucket => exact (h.opened bucket hget).2.count_le hlt

/-- A call behind the window of a bucket finds all windows over. -/
theorem Windowed.close (h : Windowed r key now j) (hnow : now ≤ c.now)
    (hover : ∀ bucket ∈ j.buckets.get? key, r.windowSeconds ≤ c.now - bucket.windowStart) :
    FixedWindow.Closed r.windowSeconds r.maxRequests c.now (j.times key) := by
  cases hget : j.buckets.get? key with
  | none => exact (h.closed hget).mono hnow
  | some bucket =>
    have hstart : bucket.windowStart + r.windowSeconds ≤ c.now := by
      linarith [hover bucket hget]
    exact (h.opened bucket hget).2.close hstart fun t ht => (h.le t ht).trans hnow

theorem times_step_of_ne (h : key ≠ c.key) : (r.step j c).times key = j.times key := by
  rw [Journal.times, Journal.times, step]
  dsimp only
  split_ifs
  · rw [List.filter_append, List.filter_cons_of_neg (by simpa using Ne.symm h), List.filter_nil,
      List.append_nil]
  · rfl

theorem Windowed.step_of_ne (h : Windowed r key now j) (hne : key ≠ c.key) (hnow : now ≤ c.now)
    (hspares : r.Spares key j c) : Windowed r key c.now (r.step j c) := by
  have hget : (r.step j c).buckets.get? key =
      if r.Drops key j c then none else j.buckets.get? key := get?_check_of_ne hne
  refine ⟨fun t ht => ?_, fun hnone => ?_, fun bucket hbucket => ?_⟩
  · rw [times_step_of_ne hne] at ht
    exact (h.le t ht).trans hnow
  · rw [times_step_of_ne hne]
    refine h.close hnow fun bucket hbucket => ?_
    by_cases hd : r.Drops key j c
    · exact hspares hd bucket hbucket
    · rw [hget, if_neg hd, hbucket] at hnone
      cases hnone
  · rw [times_step_of_ne hne]
    rw [hget] at hbucket
    split_ifs at hbucket
    · cases hbucket
    · obtain ⟨hstart, hopen⟩ := h.opened bucket hbucket
      exact ⟨hstart.trans hnow, hopen⟩

/-- A call that spends from a bucket counts what it allows. -/
theorem windowed_spend {buckets : Buckets} (bucket : Bucket)
    (hle : ∀ t ∈ j.times c.key, t ≤ c.now) (hstart : bucket.windowStart ≤ c.now)
    (hopen : FixedWindow.Open r.windowSeconds r.maxRequests bucket.windowStart bucket.count
      (j.times c.key))
    (hcheck : r.check j.buckets c.key c.now = r.spend buckets c.key bucket) :
    Windowed r c.key c.now (r.step j c) := by
  rw [spend] at hcheck
  split_ifs at hcheck with hmax
  · have htimes : (r.step j c).times c.key = j.times c.key := by
      rw [Journal.times, step, hcheck]
      rfl
    have hget : (r.step j c).buckets.get? c.key = some bucket := by
      rw [step, hcheck]
      exact Dict.get?_set_self _ _ _
    refine ⟨by rwa [htimes], fun hnone => ?_, fun b hb => ?_⟩
    · rw [hget] at hnone
      cases hnone
    · obtain rfl := Option.some.inj (hget.symm.trans hb)
      rw [htimes]
      exact ⟨hstart, hopen⟩
  · have htimes : (r.step j c).times c.key = j.times c.key ++ [c.now] := by
      rw [Journal.times, step, hcheck]
      simp [Journal.times]
    have hget : (r.step j c).buckets.get? c.key =
        some { bucket with count := bucket.count + 1 } := by
      rw [step, hcheck]
      exact Dict.get?_set_self _ _ _
    refine ⟨fun t ht => ?_, fun hnone => ?_, fun b hb => ?_⟩
    · rw [htimes] at ht
      rcases List.mem_append.1 ht with ht | ht
      · exact hle t ht
      · exact (List.mem_singleton.1 ht).le
    · rw [hget] at hnone
      cases hnone
    · obtain rfl := Option.some.inj (hget.symm.trans hb)
      rw [htimes]
      exact ⟨hstart, hopen.event (by omega) hstart⟩

theorem Windowed.step_self (h : Windowed r c.key now j) (hnow : now ≤ c.now) :
    Windowed r c.key c.now (r.step j c) := by
  have hle : ∀ t ∈ j.times c.key, t ≤ c.now := fun t ht => (h.le t ht).trans hnow
  have hnew (hclosed : FixedWindow.Closed r.windowSeconds r.maxRequests c.now (j.times c.key))
      {buckets : Buckets} (hcheck : r.check j.buckets c.key c.now =
        r.spend buckets c.key { count := 0, windowStart := c.now }) :
      Windowed r c.key c.now (r.step j c) :=
    windowed_spend _ hle le_rfl hclosed.start hcheck
  cases hget : j.buckets.get? c.key with
  | none =>
    refine hnew (h.close hnow fun b hb => ?_) (by rw [check, hget])
    rw [hget] at hb
    cases hb
  | some bucket =>
    by_cases hover : r.windowSeconds ≤ c.now - bucket.windowStart
    · refine hnew (h.close hnow fun b hb => ?_) (by rw [check, hget]; exact if_pos hover)
      rwa [← Option.some.inj (hget.symm.trans hb)]
    · obtain ⟨hstart, hopen⟩ := h.opened bucket hget
      have hcheck : r.check j.buckets c.key c.now = r.spend j.buckets c.key bucket := by
        rw [check, hget]
        exact if_neg hover
      exact windowed_spend bucket hle (hstart.trans hnow) hopen hcheck

/-- What one call keeps. -/
theorem Windowed.step (h : Windowed r key now j) (hnow : now ≤ c.now)
    (hspares : r.Spares key j c) : Windowed r key c.now (r.step j c) := by
  by_cases hkey : key = c.key
  · subst hkey
    exact h.step_self hnow
  · exact h.step_of_ne hkey hnow hspares

/-- What a run keeps. -/
theorem Windowed.forall_mem_trail {calls : List Call} (hmono : calls.Pairwise (·.now ≤ ·.now))
    (hspares : EachStep r.step (r.Spares key) j calls) (h : Windowed r key now j)
    (hnow : ∀ c ∈ calls, now ≤ c.now) : ∀ s ∈ trail r.step j calls, ∃ t, Windowed r key t s := by
  induction calls generalizing j now with
  | nil =>
    intro s hs
    rw [List.mem_singleton.1 hs]
    exact ⟨now, h⟩
  | cons c calls ih =>
    obtain ⟨hc, hcalls⟩ := hspares
    intro s hs
    rcases List.mem_cons.1 hs with rfl | hs
    · exact ⟨now, h⟩
    · have hstep := h.step (hnow c List.mem_cons_self) hc
      exact ih (List.pairwise_cons.1 hmono).2 hcalls hstep (List.pairwise_cons.1 hmono).1 s hs

theorem windowed_start (now : ℚ) : Windowed r key now {} where
  le _ ht := absurd ht List.not_mem_nil
  closed _ := .nil
  opened _ hb := by cases hb

/-- **The rate limit.** A key whose bucket is never dropped before its window is over is allowed
twice the maximum at most in any interval shorter than a window. -/
theorem allowedBetween_le (r : FixedWindowRateLimiter) (key : String) (calls : List Call)
    (hmono : calls.Pairwise (·.now ≤ ·.now)) (hspares : EachStep r.step (r.Spares key) {} calls)
    {a b : ℚ} (hab : b - a < r.windowSeconds) :
    ∀ j ∈ trail r.step {} calls, j.allowedBetween key a b ≤ 2 * r.maxRequests := by
  intro j hj
  have hstart : ∃ now : ℚ, ∀ c ∈ calls, now ≤ c.now := by
    cases calls with
    | nil => exact ⟨0, fun c hc => absurd hc List.not_mem_nil⟩
    | cons c calls =>
      refine ⟨c.now, List.forall_mem_cons.2 ⟨le_rfl, (List.pairwise_cons.1 hmono).1⟩⟩
  obtain ⟨now, hnow⟩ := hstart
  obtain ⟨t, ht⟩ := (windowed_start now).forall_mem_trail hmono hspares hnow j hj
  exact ht.count_le hab

/-- One request in ten seconds, and room for one key. -/
def oneKey : FixedWindowRateLimiter where
  maxRequests := 1
  windowSeconds := 10
  maxKeys := 1
  maxRequests_pos := by decide
  windowSeconds_pos := by norm_num

/-- A bucket is dropped when its window is over. -/
theorem allowedBetween_le_oneKey :
    (oneKey.step (oneKey.step {} ⟨"a", 0⟩) ⟨"b", 12⟩).allowedBetween "a" 0 9 ≤ 2 := by
  refine allowedBetween_le oneKey "a" [⟨"a", 0⟩, ⟨"b", 12⟩] ?_ ?_ ?_ _
    (foldl_mem_trail _ _)
  · decide +kernel
  · decide +kernel
  · decide +kernel

/-- With a new key between any two of its requests, a key is allowed all of them. -/
theorem allowed_again_when_dropped :
    ¬∀ (r : FixedWindowRateLimiter) (calls : List Call), calls.Pairwise (·.now ≤ ·.now) →
      ∀ (key : String) (a b : ℚ), b - a < r.windowSeconds →
        (calls.foldl r.step {}).allowedBetween key a b ≤ 2 * r.maxRequests := by
  intro h
  have hle := h oneKey [⟨"a", 0⟩, ⟨"b", 1⟩, ⟨"a", 2⟩, ⟨"b", 3⟩, ⟨"a", 4⟩] (by decide +kernel)
    "a" 0 4 (by decide +kernel)
  exact absurd hle (by decide +kernel)

end FixedWindowRateLimiter

end OxenClaw.Security
