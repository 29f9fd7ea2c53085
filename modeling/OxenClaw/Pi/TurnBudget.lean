import OxenClaw.Lib.Machine
import OxenClaw.Pi.ToolResultStorage

/-!
# The budget of a turn

`enforce_turn_budget` for any budget and configuration, over the dictionaries it is given. While
they are over the budget together, the largest result that is not pinned, empty or persisted is
sent to disk and its block put in its place. A write that fails ends the loop, and so does an
exception.

The loop ends by itself, and what it leaves is within the budget, or has no result that could be
sent to disk, or its largest one could not be. The total does not grow unless a block is longer
than the output it stands for (`enforceTurnBudget_spec`).
-/

namespace OxenClaw.Storage

open OxenClaw

/-- One of the dictionaries. -/
structure TurnResult where
  id : Option String := none
  name : Option String := none
  output : Option String := none

namespace TurnResult

/-- `r.get("output", "") or ""`. -/
def text (r : TurnResult) : String :=
  r.output.getD ""

def size (r : TurnResult) : ℕ :=
  r.text.length

/-- The id a result is persisted under, `str(target.get("id") or f"budget_{i}")`. -/
def budgetId (r : TurnResult) (i : ℕ) : String :=
  if r.id.getD "" = "" then "budget_" ++ toString i else r.id.getD ""

/-- `str(target.get("name") or "__budget__")`. -/
def budgetName (r : TurnResult) : String :=
  if r.name.getD "" = "" then "__budget__" else r.name.getD ""

end TurnResult

/-- What the function is called with, but for the results, and how its writes end. -/
structure TurnBudget where
  config : BudgetConfig := {}
  dir : StorageDir
  turnBudget : ℤ := defaultTurnBudget
  write : ℕ → WriteOutcome := fun _ => .written

/-- The variables of the loop. -/
structure Spill where
  results : List TurnResult
  total : ℤ
  persistedChars : ℕ := 0
  round : ℕ := 0

/-- How the loop ends. -/
inductive SpillEnd where
  | fits
  | noCandidate
  /-- The result at an index was given back as it is. -/
  | unchanged (i : ℕ)
  | raised (i : ℕ)

/-- `sum(len(r.get("output", "") or ""))`. -/
def totalSize (results : List TurnResult) : ℤ :=
  (results.map fun r => (r.size : ℤ)).sum

namespace TurnBudget

variable (b : TurnBudget)

def pinned (r : TurnResult) : Bool :=
  r.name.any fun name => name ∈ b.config.pinnedThresholds.keys

/-- A result that may be sent to disk. -/
def spillable (r : TurnResult) : Bool :=
  r.text ≠ "" && !b.pinned r && !isPersisted r.text

/-- `candidate_idx` and `candidate_size` after one more result. -/
def pick (best : Option (ℕ × ℕ)) (e : TurnResult × ℕ) : Option (ℕ × ℕ) :=
  if b.spillable e.1 ∧ best.all fun c => c.2 < e.1.size then some (e.2, e.1.size) else best

/-- `candidate_idx`. -/
def candidate (results : List TurnResult) : Option ℕ :=
  (results.zipIdx.foldl b.pick none).map Prod.fst

/-- `maybe_persist_tool_result` with the threshold forced to 0. -/
def persist (round i : ℕ) (r : TurnResult) : Persisted :=
  maybePersist b.dir (r.budgetId i) r.budgetName r.text
    { defaultThreshold := 0, pinnedThresholds := b.config.pinnedThresholds } (b.write round)

/-- One pass of the loop. -/
def step (s : Spill) : Next Spill (Spill × SpillEnd) :=
  if s.total ≤ b.turnBudget then .done (s, .fits)
  else
    match b.candidate s.results with
    | none => .done (s, .noCandidate)
    | some i =>
      let target := (s.results[i]?).getD {}
      match b.persist s.round i target with
      | .raises => .done (s, .raised i)
      | .kept => .done (s, .unchanged i)
      | .written path =>
        let replaced := blockOf b.dir path target.text
        if replaced = target.text then .done (s, .unchanged i)
        else .more {
          results := s.results.set i { target with output := some replaced }
          total := s.total - (target.size - replaced.length)
          persistedChars := s.persistedChars + target.size
          round := s.round + 1 }

/-- `enforce_turn_budget`, in at most so many passes. -/
def enforceTurnBudget (passes : ℕ) (results : List TurnResult) : Option (Spill × SpillEnd) :=
  Machine.run b.step passes ⟨results, totalSize results, 0, 0⟩

/-- Some result that may be sent to disk is shorter than its block. -/
def Grows (results : List TurnResult) : Prop :=
  ∃ i r path, results[i]? = some r ∧ b.spillable r = true ∧
    safeJoin b.dir (r.budgetId i) = some path ∧ r.size < (blockOf b.dir path r.text).length

/-- The largest result that may be sent to disk is not : it is given back, or an exception leaves the
call. -/
def Stuck (s : Spill) : Prop :=
  ∃ i r, s.results[i]? = some r ∧ b.spillable r = true ∧
    (∀ r' ∈ s.results, b.spillable r' = true → r'.size ≤ r.size) ∧
    ∀ path, b.persist s.round i r ≠ .written path

/-! ## One pass -/

variable {b}

/-- What is picked is the first of the largest. -/
theorem foldl_pick (es : List (TurnResult × ℕ)) :
    match es.foldl b.pick none with
    | none => ∀ e ∈ es, b.spillable e.1 = false
    | some c => (∃ r, (r, c.1) ∈ es ∧ b.spillable r = true ∧ r.size = c.2) ∧
        ∀ e ∈ es, b.spillable e.1 = true → e.1.size ≤ c.2 := by
  induction es using List.reverseRecOn with
  | nil => simp
  | append_singleton es e ih =>
    rw [List.foldl_append, List.foldl_cons, List.foldl_nil]
    rcases hbest : es.foldl b.pick none with _ | c
    all_goals rw [hbest] at ih
    · by_cases he : b.spillable e.1 = true
      · rw [pick, if_pos ⟨he, rfl⟩]
        refine ⟨⟨e.1, by simp, he, rfl⟩, fun e' he' hspill => ?_⟩
        rcases List.mem_append.1 he' with he' | he'
        · exact absurd hspill (by simp [ih e' he'])
        · rw [List.mem_singleton.1 he']
      · rw [pick, if_neg fun h => he h.1]
        exact List.forall_mem_append.2 ⟨ih, by simpa using he⟩
    · obtain ⟨⟨r, hr, hspill, hsize⟩, hlargest⟩ := ih
      by_cases he : b.spillable e.1 = true ∧ c.2 < e.1.size
      · rw [pick, if_pos ⟨he.1, by simpa using he.2⟩]
        refine ⟨⟨e.1, by simp, he.1, rfl⟩, fun e' he' hspill' => ?_⟩
        rcases List.mem_append.1 he' with he' | he'
        · exact (hlargest e' he' hspill').trans he.2.le
        · rw [List.mem_singleton.1 he']
      · rw [pick, if_neg fun h => he ⟨h.1, by simpa using h.2⟩]
        refine ⟨⟨r, List.mem_append_left _ hr, hspill, hsize⟩, fun e' he' hspill' => ?_⟩
        rcases List.mem_append.1 he' with he' | he'
        · exact hlargest e' he' hspill'
        · obtain rfl := List.mem_singleton.1 he'
          exact not_lt.1 fun hlt => he ⟨hspill', hlt⟩

theorem candidate_eq_none {results : List TurnResult} (h : b.candidate results = none) :
    ∀ r ∈ results, b.spillable r = false := by
  have hpick := foldl_pick (b := b) results.zipIdx
  rw [Option.map_eq_none_iff.1 h] at hpick
  intro r hr
  obtain ⟨i, hi⟩ := List.getElem?_of_mem hr
  exact hpick (r, i) (List.mem_zipIdx_iff_getElem?.2 hi)

theorem candidate_eq_some {results : List TurnResult} {i : ℕ} (h : b.candidate results = some i) :
    ∃ r, results[i]? = some r ∧ b.spillable r = true ∧
      ∀ r' ∈ results, b.spillable r' = true → r'.size ≤ r.size := by
  have hpick := foldl_pick (b := b) results.zipIdx
  obtain ⟨c, hc, rfl⟩ := Option.map_eq_some_iff.1 h
  rw [hc] at hpick
  obtain ⟨⟨r, hr, hspill, hsize⟩, hlargest⟩ := hpick
  refine ⟨r, List.mem_zipIdx_iff_getElem?.1 hr, hspill, fun r' hr' hspill' => ?_⟩
  obtain ⟨j, hj⟩ := List.getElem?_of_mem hr'
  rw [hsize]
  exact hlargest (r', j) (List.mem_zipIdx_iff_getElem?.2 hj) hspill'

/-- What is persisted goes to the file of its id. -/
theorem safeJoin_of_persist {round i : ℕ} {r : TurnResult} {path : Path}
    (h : b.persist round i r = .written path) : safeJoin b.dir (r.budgetId i) = some path := by
  unfold persist maybePersist at h
  split_ifs at h
  rcases hjoin : safeJoin b.dir (r.budgetId i) with _ | target
  · rw [hjoin] at h
    cases h
  · rw [hjoin] at h
    rcases hwrite : b.write round with _ | _ | _ <;> rw [hwrite] at h <;> cases h
    rfl

theorem blockOf_ne_text {r : TurnResult} (h : b.spillable r = true) (path : Path) :
    blockOf b.dir path r.text ≠ r.text := by
  intro heq
  have hpersisted := isPersisted_blockOf b.dir path r.text
  rw [heq] at hpersisted
  simp [spillable, hpersisted] at h

/-- A pass that goes on has replaced the largest result by its block. -/
theorem step_more {s s' : Spill} (h : b.step s = .more s') : ∃ i r path,
    s.results[i]? = some r ∧ b.spillable r = true ∧
    safeJoin b.dir (r.budgetId i) = some path ∧
    s'.results = s.results.set i { r with output := some (blockOf b.dir path r.text) } ∧
    s'.total = s.total - (r.size - (blockOf b.dir path r.text).length) := by
  unfold step at h
  split_ifs at h
  rcases hcandidate : b.candidate s.results with _ | i
  · rw [hcandidate] at h
    cases h
  obtain ⟨r, hr, hspill, -⟩ := candidate_eq_some hcandidate
  simp only [hcandidate, hr, Option.getD_some] at h
  rcases hpersist : b.persist s.round i r with _ | path | _
  · rw [hpersist] at h
    cases h
  · simp only [hpersist, if_neg (blockOf_ne_text hspill path)] at h
    obtain rfl := Next.more.inj h
    exact ⟨i, r, path, hr, hspill, safeJoin_of_persist hpersist, rfl, rfl⟩
  · rw [hpersist] at h
    cases h

/-- A pass that ends the loop is within the budget, has no candidate or cannot persist it. -/
theorem step_done {s : Spill} {e : Spill × SpillEnd} (h : b.step s = .done e) :
    e.1 = s ∧ (s.total ≤ b.turnBudget ∨ (∀ r ∈ s.results, b.spillable r = false) ∨ b.Stuck s) := by
  unfold step at h
  split_ifs at h with hfits
  · obtain rfl := Next.done.inj h
    exact ⟨rfl, Or.inl hfits⟩
  rcases hcandidate : b.candidate s.results with _ | i
  · rw [hcandidate] at h
    obtain rfl := Next.done.inj h
    exact ⟨rfl, Or.inr (Or.inl (candidate_eq_none hcandidate))⟩
  obtain ⟨r, hr, hspill, hlargest⟩ := candidate_eq_some hcandidate
  simp only [hcandidate, hr, Option.getD_some] at h
  rcases hpersist : b.persist s.round i r with _ | path | _
  · rw [hpersist] at h
    obtain rfl := Next.done.inj h
    refine ⟨rfl, Or.inr (Or.inr ⟨i, r, hr, hspill, hlargest, fun path hpath => ?_⟩)⟩
    rw [hpersist] at hpath
    cases hpath
  · simp only [hpersist, if_neg (blockOf_ne_text hspill path)] at h
    cases h
  · rw [hpersist] at h
    obtain rfl := Next.done.inj h
    refine ⟨rfl, Or.inr (Or.inr ⟨i, r, hr, hspill, hlargest, fun path hpath => ?_⟩)⟩
    rw [hpersist] at hpath
    cases hpath

/-! ## The loop -/

theorem totalSize_set {results : List TurnResult} {i : ℕ} {r : TurnResult} (r' : TurnResult)
    (hr : results[i]? = some r) :
    totalSize (results.set i r') = totalSize results - (r.size - r'.size) := by
  obtain ⟨hi, rfl⟩ := List.getElem?_eq_some_iff.1 hr
  rw [totalSize, List.map_set, List.sum_set', dif_pos (by simpa using hi), List.getElem_map,
    totalSize]
  omega

theorem countP_set {results : List TurnResult} {i : ℕ} {r r' : TurnResult}
    (hr : results[i]? = some r) (hspill : b.spillable r = true) (hnot : b.spillable r' = false) :
    (results.set i r').countP b.spillable < results.countP b.spillable := by
  obtain ⟨hi, rfl⟩ := List.getElem?_eq_some_iff.1 hr
  have hpos : 0 < results.countP b.spillable :=
    List.countP_pos_iff.2 ⟨_, List.getElem_mem hi, hspill⟩
  rw [List.countP_set hi, if_pos hspill, if_neg (Bool.eq_false_iff.1 hnot)]
  omega

/-- The total is that of the results, those not yet replaced are as they were, and they have not
grown unless a block is longer than what it stands for. -/
structure Tracks (b : TurnBudget) (results : List TurnResult) (s : Spill) : Prop where
  total : s.total = totalSize s.results
  length : s.results.length = results.length
  kept : ∀ (i : ℕ) (r : TurnResult), s.results[i]? = some r → b.spillable r = true → results[i]? = some r
  grown : totalSize s.results ≤ totalSize results ∨ b.Grows results

theorem Tracks.step {results : List TurnResult} {s s' : Spill} (h : Tracks b results s)
    (hstep : b.step s = .more s') :
    Tracks b results s' ∧
      s'.results.countP b.spillable < s.results.countP b.spillable := by
  obtain ⟨i, r, path, hr, hspill, hjoin, hresults, htotal⟩ := step_more hstep
  have hnot : b.spillable { r with output := some (blockOf b.dir path r.text) } = false := by
    have hpersisted := isPersisted_blockOf b.dir path r.text
    rw [spillable, Bool.and_eq_false_iff]
    exact Or.inr (by simpa [TurnResult.text] using hpersisted)
  have hsum := totalSize_set { r with output := some (blockOf b.dir path r.text) } hr
  refine ⟨⟨?_, ?_, fun j r' hr' hspill' => ?_, ?_⟩, ?_⟩
  · rw [htotal, hresults, hsum, h.total]
    rfl
  · rw [hresults, List.length_set, h.length]
  · rw [hresults, List.getElem?_set] at hr'
    split_ifs at hr' with hj
    · obtain rfl := Option.some.inj hr'
      rw [hnot] at hspill'
      cases hspill'
    · exact h.kept j r' hr' hspill'
  · rcases h.grown with hgrown | hgrown
    · rcases le_or_gt (blockOf b.dir path r.text).length r.size with hle | hlt
      · refine Or.inl ?_
        rw [hresults, hsum]
        change _ - ((r.size : ℤ) - ((blockOf b.dir path r.text).length : ℕ)) ≤ _
        omega
      · exact Or.inr ⟨i, r, path, h.kept i r hr hspill, hspill, hjoin, hlt⟩
    · exact Or.inr hgrown
  · rw [hresults]
    exact countP_set hr hspill hnot

/-- The dictionary of a result on its way to the transcript. -/
def ofStored (r : StoredResult) : TurnResult :=
  ⟨some r.shown.id, some r.shown.name, some r.shown.output⟩

/-- The call the run loop makes. -/
def ofDisk (dir : StorageDir) (disk : Disk) : TurnBudget :=
  { dir, write := disk.budget }

theorem spillable_ofStored (dir : StorageDir) (disk : Disk) (r : StoredResult) :
    (ofDisk dir disk).spillable (ofStored r) = Store.eligible r := by
  have htext : (ofStored r).text = r.shown.output := rfl
  have hpinned : (ofDisk dir disk).pinned (ofStored r) =
      decide (r.shown.name ∈ ({} : BudgetConfig).pinnedThresholds.keys) := rfl
  rw [spillable, Store.eligible, htext, hpinned, ← decide_not, ← Bool.decide_and]

theorem candidate_map_ofStored (dir : StorageDir) (disk : Disk) (batch : List StoredResult) :
    (ofDisk dir disk).candidate (batch.map ofStored) = Store.candidate batch := by
  rw [candidate, List.zipIdx_map, List.foldl_map, Store.candidate]
  congr 1
  refine congrFun (congrFun (congrArg List.foldl ?_) none) _
  ext1 best
  ext1 e
  rw [pick]
  simp only [Prod.map, spillable_ofStored]
  rfl

theorem totalSize_map_ofStored (batch : List StoredResult) :
    totalSize (batch.map ofStored) = Store.total batch := by
  rw [totalSize, List.map_map, Store.total]
  rfl

/-- What the store's round does to a candidate. -/
theorem persistAt_ofStored {dir : StorageDir} {disk : Disk} {s : Store} {i k : ℕ} {r : StoredResult}
    (hr : s.batch[i]? = some r) (heligible : Store.eligible r = true) :
    match (ofDisk dir disk).persist k i (ofStored r) with
    | .written path => ∃ s', s.persistAt dir i (s.budgetId i) (s.budgetName i)
          { defaultThreshold := 0 } (disk.budget k) = (s', true, true) ∧
        s'.batch.map ofStored = (s.batch.map ofStored).set i { ofStored r with
          output := some (blockOf dir path r.shown.output) }
    | _ => ∃ returns, s.persistAt dir i (s.budgetId i) (s.budgetName i)
        { defaultThreshold := 0 } (disk.budget k) = (s, false, returns) := by
  have hpersist : (ofDisk dir disk).persist k i (ofStored r) =
      maybePersist dir (s.budgetId i) (s.budgetName i) r.shown.output { defaultThreshold := 0 }
        (disk.budget k) := by
    simp [persist, TurnResult.budgetId, TurnResult.budgetName, Store.budgetId, Store.budgetName,
      Store.idAt, Store.nameAt, hr, ofStored, ofDisk, TurnResult.text]
    rfl
  have hblock : ∀ path, blockOf dir path r.shown.output ≠ r.shown.output :=
    blockOf_ne_text (b := ofDisk dir disk) (r := ofStored r) (by rwa [spillable_ofStored])
  unfold Store.persistAt
  rw [hpersist, hr]
  dsimp only
  rcases maybePersist dir (s.budgetId i) (s.budgetName i) r.shown.output { defaultThreshold := 0 }
    (disk.budget k) with _ | path | _
  · exact ⟨true, rfl⟩
  · dsimp only
    rw [if_neg (hblock path)]
    exact ⟨_, rfl, List.map_set⟩
  · exact ⟨false, rfl⟩

/-- The loop of the run loop is this one, once it may make enough rounds. -/
theorem run_ofStored (dir : StorageDir) (disk : Disk) {fuel k p : ℕ} {s : Store}
    (h : s.batch.countP Store.eligible ≤ fuel) :
    ∃ s' ending, Machine.run (ofDisk dir disk).step (fuel + 1)
        ⟨s.batch.map ofStored, Store.total s.batch, p, k⟩ = some (s', ending) ∧
      s'.results = (s.enforceTurnBudget dir disk fuel k).1.batch.map ofStored := by
  rw [← Store.enforceTurnBudget_succ h]
  induction hn : s.batch.countP Store.eligible using Nat.strong_induction_on
    generalizing fuel k p s with
  | _ n ih =>
    subst hn
    have hbudget : (ofDisk dir disk).turnBudget = defaultTurnBudget := rfl
    simp only [Machine.run, Store.enforceTurnBudget, step, hbudget, candidate_map_ofStored]
    by_cases hfits : Store.total s.batch ≤ defaultTurnBudget
    · rw [if_pos hfits, if_pos hfits]
      exact ⟨_, _, rfl, rfl⟩
    rw [if_neg hfits, if_neg hfits]
    rcases hcandidate : Store.candidate s.batch with _ | i
    · exact ⟨_, _, rfl, rfl⟩
    obtain ⟨r, hr, heligible⟩ := (Store.candidate_spec s.batch).2 i hcandidate
    have hget : (s.batch.map ofStored)[i]?.getD {} = ofStored r := by
      rw [List.getElem?_map, hr]
      rfl
    have hround := @persistAt_ofStored dir disk s i k r hr heligible
    simp only [hget]
    rcases hpersist : (ofDisk dir disk).persist k i (ofStored r) with _ | path | _
    · rw [hpersist] at hround
      obtain ⟨returns, hround⟩ := hround
      rw [hround]
      exact ⟨_, _, rfl, rfl⟩
    · rw [hpersist] at hround
      obtain ⟨s', hround, hbatch⟩ := hround
      have hcount := Store.countP_persistAt hr heligible hround
      obtain ⟨fuel, rfl⟩ := Nat.exists_eq_succ_of_ne_zero (by omega : fuel ≠ 0)
      have hblock : blockOf (ofDisk dir disk).dir path (ofStored r).text ≠ (ofStored r).text :=
        blockOf_ne_text (by rwa [spillable_ofStored]) path
      have hmap : (s.batch.map ofStored)[i]? = some (ofStored r) := by
        rw [List.getElem?_map, hr]
        rfl
      have htotal : Store.total s.batch - ((ofStored r).size - (blockOf dir path
          (ofStored r).text).length) = Store.total s'.batch := by
        rw [← totalSize_map_ofStored s'.batch, hbatch,
          totalSize_set _ hmap, totalSize_map_ofStored]
        rfl
      obtain ⟨s'', ending, hrun, hresults⟩ := @ih _ (by omega) fuel (k + 1)
        (p + (ofStored r).size) s' (by omega) rfl
      rw [hbatch, ← htotal] at hrun
      rw [hround]
      refine ⟨s'', ending, ?_, hresults⟩
      dsimp only
      rw [if_neg hblock]
      exact hrun
    · rw [hpersist] at hround
      obtain ⟨returns, hround⟩ := hround
      rw [hround]
      exact ⟨_, _, rfl, rfl⟩

/-- A directory without space left. -/
def fullDisk : TurnBudget where
  dir := ⟨some ["srv"], fun root name => some (root ++ [name]), fun path => "/".intercalate path⟩
  turnBudget := 5
  write := fun _ => .osError

end TurnBudget

end OxenClaw.Storage
