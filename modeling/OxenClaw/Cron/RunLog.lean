import Mathlib.Data.Finset.Card
import OxenClaw.Lib.Dict
import OxenClaw.Lib.Python
import OxenClaw.Lib.Runs
import OxenClaw.Lib.StableSort

/-!
# The history of cron runs

`CronRunStore` keeps an entry for each time a job has fired. Pruning keeps the latest of each job,
so that the first page of a job's history is what it was before (`prune_spec`). Fires that go on
side by side write their entries in any order, and no run that has ended is shown as running, nor
one that goes on as ended (`fires_spec`).
-/

set_option linter.unusedSectionVars false

namespace OxenClaw.Cron

inductive Status where
  | ok
  | error
  | skipped
  | running
  deriving DecidableEq

inductive Delivery where
  | delivered
  | failed
  | skipped
  deriving DecidableEq

/-- What the store reads and writes of a `CronRunEntry`, with times in `τ`. -/
structure CronRunEntry (τ : Type*) where
  runId : String
  jobId : String
  startedAt : τ
  endedAt : Option τ := none
  status : Status := .running
  summary : String := ""
  outputPreview : String := ""
  error : Option String := none
  deliveryStatus : Option Delivery := none

/-- The entries of a `CronRunStore`. -/
abbrev CronRunStore (τ : Type*) := List (CronRunEntry τ)

namespace CronRunStore

variable {τ : Type*} [LinearOrder τ]

/-- Not later. -/
def le (a b : CronRunEntry τ) : Prop :=
  a.startedAt ≤ b.startedAt

/-- Not earlier. -/
def ge (a b : CronRunEntry τ) : Prop :=
  b.startedAt ≤ a.startedAt

instance : DecidableRel (le : CronRunEntry τ → CronRunEntry τ → Prop) :=
  fun a b => inferInstanceAs (Decidable (a.startedAt ≤ b.startedAt))

instance : DecidableRel (ge : CronRunEntry τ → CronRunEntry τ → Prop) :=
  fun a b => inferInstanceAs (Decidable (b.startedAt ≤ a.startedAt))

/-! ## Listing -/

/-- What a listing may ask for. -/
structure Filters where
  jobId : Option String := none
  statuses : Option (List Status) := none
  query : Option String := none
  delivery : Option (List (Option Delivery)) := none

/-- The texts that a query is looked for in. -/
def haystack (e : CronRunEntry τ) : String :=
  String.intercalate " " ([e.summary, e.outputPreview, e.error.getD ""].filter (· ≠ ""))

/-- The test of `_filtered`, with `str.lower`. -/
def Filters.keeps (lower : String → String) (f : Filters) (e : CronRunEntry τ) : Bool :=
  f.jobId.all (fun jobId => decide (e.jobId = jobId)) &&
  f.statuses.all (fun statuses => decide (e.status ∈ statuses)) &&
  f.delivery.all (fun delivery => decide (e.deliveryStatus ∈ delivery)) &&
  (f.query.filter (· ≠ "")).all fun query => Py.contains (lower query) (lower (haystack e))

/-- `list`, the latest run first. -/
def list (lower : String → String) (s : CronRunStore τ) (f : Filters) (limit offset : ℕ) :
    List (CronRunEntry τ) :=
  (((s.filter (f.keeps lower)).insertionSort ge).drop offset).take limit

/-- `list` with `sort_dir="asc"`. -/
def listAsc (lower : String → String) (s : CronRunStore τ) (f : Filters) (limit offset : ℕ) :
    List (CronRunEntry τ) :=
  (((s.filter (f.keeps lower)).insertionSort le).drop offset).take limit

/-! ## Pruning -/

/-- How many entries of a job go, and those that stay. -/
def pruneJob (maxPerJob : ℤ) (jobEntries : List (CronRunEntry τ)) : ℕ × List (CronRunEntry τ) :=
  let sorted := jobEntries.insertionSort le
  if maxPerJob < sorted.length then
    ((sorted.length - maxPerJob).toNat, Py.sliceFrom sorted (-maxPerJob))
  else (0, sorted)

/-- `prune`. -/
def prune (maxPerJob : ℤ) (s : CronRunStore τ) : CronRunStore τ × ℕ :=
  let byJob := (Dict.groupBy CronRunEntry.jobId s).map fun group => pruneJob maxPerJob group.2
  let removed := (byJob.map Prod.fst).sum
  if removed = 0 then (s, 0) else (byJob.flatMap Prod.snd, removed)

/-- The runs of a job. -/
def runsOf (jobId : String) (s : CronRunStore τ) : List (CronRunEntry τ) :=
  s.filter fun e => decide (e.jobId = jobId)

instance : Std.Total (le : CronRunEntry τ → CronRunEntry τ → Prop) :=
  ⟨fun a b => le_total a.startedAt b.startedAt⟩

instance : IsTrans (CronRunEntry τ) le :=
  ⟨fun _ _ _ => le_trans⟩

instance : Std.Total (ge : CronRunEntry τ → CronRunEntry τ → Prop) :=
  ⟨fun a b => le_total b.startedAt a.startedAt⟩

instance : IsTrans (CronRunEntry τ) ge :=
  ⟨fun _ _ _ hab hbc => le_trans hbc hab⟩

variable {s l : CronRunStore τ} {m n : ℕ} {jobId : String}

/-! ## What is pruned -/

/-- The last `m`. -/
def keepLast {α : Type*} (m : ℕ) (l : List α) : List α :=
  l.drop (l.length - m)

theorem pruneJob_eq (n : ℕ) (l : List (CronRunEntry τ)) :
    pruneJob (n + 1 : ℕ) l = (l.length - (n + 1), keepLast (n + 1) (l.insertionSort le)) := by
  rw [pruneJob, keepLast, Py.sliceFrom, Py.sliceStart, List.length_insertionSort]
  split_ifs with hlt hneg
  · omega
  · refine Prod.ext (by dsimp only; omega) ?_
    dsimp only
    congr 1
  · have hle : l.length ≤ n + 1 := by omega
    rw [Nat.sub_eq_zero_of_le hle, List.drop_zero]

/-- What is made of each group, and then of one kind, is made of the group of that kind. -/
theorem filter_flatMap_groups {d : Dict String (List (CronRunEntry τ))} (hd : d.keys.Nodup)
    {f : List (CronRunEntry τ) → List (CronRunEntry τ)}
    (hf : ∀ group ∈ d, ∀ e ∈ f group.2, e.jobId = group.1) (hnil : f [] = []) (jobId : String) :
    runsOf jobId (d.flatMap fun group => f group.2) = f ((d.get? jobId).getD []) := by
  induction d with
  | nil => exact hnil.symm
  | cons group d ih =>
    obtain ⟨hhead, htail⟩ := List.nodup_cons.1 hd
    obtain ⟨hgroup, hrest⟩ := List.forall_mem_cons.1 hf
    have hsplit : runsOf jobId (List.flatMap (fun group => f group.2) (group :: d)) =
        runsOf jobId (f group.2) ++ runsOf jobId (d.flatMap fun group => f group.2) := by
      rw [runsOf, List.flatMap_cons, List.filter_append]
      rfl
    rw [hsplit, ih htail hrest]
    rcases group with ⟨jobId', l⟩
    rw [Dict.get?_cons]
    by_cases heq : jobId' = jobId
    · subst heq
      have hgone : Dict.get? d jobId' = none := Dict.get?_eq_none_iff.2 hhead
      rw [if_pos rfl, hgone, Option.getD_none, hnil, List.append_nil, Option.getD_some, runsOf,
        List.filter_eq_self]
      exact fun e he => decide_eq_true (hgroup e he)
    · have hnone : runsOf jobId (f l) = [] := by
        refine List.filter_eq_nil_iff.2 fun e he hsame => heq ?_
        exact (hgroup e he).symm.trans (of_decide_eq_true hsame)
      rw [if_neg heq, hnone, List.nil_append]

theorem get?_byJob (s : CronRunStore τ) (jobId : String) :
    ((Dict.groupBy CronRunEntry.jobId s).get? jobId).getD [] = runsOf jobId s :=
  Dict.get?_groupBy _ s jobId

/-- How many entries go. -/
def removed (n : ℕ) (s : CronRunStore τ) : ℕ :=
  ((Dict.groupBy CronRunEntry.jobId s).map fun group => group.2.length - (n + 1)).sum

theorem prune_eq (n : ℕ) (s : CronRunStore τ) : prune (n + 1 : ℕ) s =
    if removed n s = 0 then (s, 0)
    else ((Dict.groupBy CronRunEntry.jobId s).flatMap fun group =>
      keepLast (n + 1) (group.2.insertionSort le), removed n s) := by
  rw [prune, List.map_map, List.flatMap_map]
  simp only [pruneJob_eq, Function.comp_def]
  rfl

/-- A job of which nothing goes has few entries. -/
theorem length_runsOf_le (h : removed n s = 0) (jobId : String) :
    (runsOf jobId s).length ≤ n + 1 := by
  rw [← get?_byJob]
  rcases hget : (Dict.groupBy CronRunEntry.jobId s).get? jobId with _ | group
  · exact Nat.zero_le _
  · have hzero := List.sum_eq_zero_iff_forall_eq_nat.1 h _
      (List.mem_map_of_mem (Dict.mem_of_get? hget))
    exact Nat.le_of_sub_eq_zero hzero

theorem keepLast_of_length_le {α : Type*} {l : List α} (h : l.length ≤ m) : keepLast m l = l := by
  rw [keepLast, Nat.sub_eq_zero_of_le h, List.drop_zero]

/-- The latest runs of each job stay. -/
theorem runsOf_prune (n : ℕ) (s : CronRunStore τ) (jobId : String) :
    (runsOf jobId (prune (n + 1 : ℕ) s).1).Perm
      (keepLast (n + 1) ((runsOf jobId s).insertionSort le)) := by
  rw [prune_eq]
  split_ifs with h
  · rw [keepLast_of_length_le]
    · exact (List.perm_insertionSort le _).symm
    · rw [List.length_insertionSort]
      exact length_runsOf_le h jobId
  · have hnil : keepLast (n + 1) (List.insertionSort le ([] : List (CronRunEntry τ))) = [] :=
      List.drop_nil
    have hruns := filter_flatMap_groups (Dict.nodup_keys_groupBy CronRunEntry.jobId s)
      (f := fun l => keepLast (n + 1) (l.insertionSort le)) (fun group hgroup e he => ?_) hnil jobId
    · rw [get?_byJob] at hruns
      exact List.Perm.of_eq hruns
    · have hmem := (List.perm_insertionSort le _).mem_iff.1 (List.mem_of_mem_drop he)
      rw [Dict.eq_filter_of_mem_groupBy hgroup] at hmem
      exact of_decide_eq_true (List.mem_filter.1 hmem).2

theorem length_runsOf_prune (n : ℕ) (s : CronRunStore τ) (jobId : String) :
    (runsOf jobId (prune (n + 1 : ℕ) s).1).length = min (n + 1) (runsOf jobId s).length := by
  rw [(runsOf_prune n s jobId).length_eq, keepLast, List.length_drop, List.length_insertionSort]
  omega

/-- What is left is part of what there was. -/
theorem subperm_prune (n : ℕ) (s : CronRunStore τ) : (prune (n + 1 : ℕ) s).1.Subperm s := by
  rw [prune_eq]
  split_ifs
  · exact List.Subperm.refl s
  · refine List.Subperm.trans ?_ (Dict.perm_flatMap_groupBy CronRunEntry.jobId s).subperm
    induction Dict.groupBy CronRunEntry.jobId s with
    | nil => exact List.Subperm.refl _
    | cons group d ih =>
      rw [List.flatMap_cons, List.flatMap_cons]
      refine List.Subperm.append ?_ ih
      exact (List.drop_sublist _ _).subperm.trans (List.perm_insertionSort le group.2).subperm

theorem mem_of_mem_prune {e : CronRunEntry τ} (h : e ∈ (prune (n + 1 : ℕ) s).1) : e ∈ s :=
  (subperm_prune n s).subset h

/-- What goes is not later than what stays. -/
theorem startedAt_le_of_pruned {x y : CronRunEntry τ} (hy : y ∈ runsOf jobId s)
    (hgone : y ∉ (prune (n + 1 : ℕ) s).1) (hx : x ∈ runsOf jobId (prune (n + 1 : ℕ) s).1) :
    y.startedAt ≤ x.startedAt := by
  have hperm := runsOf_prune n s jobId
  have hjob : y.jobId = jobId := of_decide_eq_true (List.mem_filter.1 hy).2
  have hsorted := List.pairwise_insertionSort le (runsOf jobId s)
  have hmem := (List.perm_insertionSort le _).mem_iff.2 hy
  rw [← List.take_append_drop (((runsOf jobId s).insertionSort le).length - (n + 1))
    ((runsOf jobId s).insertionSort le)] at hsorted hmem
  rcases List.mem_append.1 hmem with hfirst | hlast
  · exact (List.pairwise_append.1 hsorted).2.2 y hfirst x (hperm.mem_iff.1 hx)
  · refine absurd (List.mem_filter.1 (hperm.mem_iff.2 hlast)).1 hgone

/-- What goes and what stays is what there was. -/
theorem length_prune (n : ℕ) (s : CronRunStore τ) :
    (prune (n + 1 : ℕ) s).1.length + (prune (n + 1 : ℕ) s).2 = s.length := by
  rw [prune_eq]
  split_ifs with h
  · rfl
  · have hall := (Dict.perm_flatMap_groupBy CronRunEntry.jobId s).length_eq
    rw [List.length_flatMap] at hall
    rw [← hall, List.length_flatMap, removed, ← List.sum_map_add]
    refine congrArg List.sum (List.map_congr_left fun group _ => ?_)
    rw [keepLast, List.length_drop, List.length_insertionSort]
    omega

/-- Where few entries of each job are left, none goes. -/
theorem prune_of_few (h : ∀ jobId, (runsOf jobId s).length ≤ n + 1) :
    prune (n + 1 : ℕ) s = (s, 0) := by
  rw [prune_eq, if_pos]
  refine List.sum_eq_zero_iff_forall_eq_nat.2 fun x hx => ?_
  obtain ⟨group, hgroup, rfl⟩ := List.mem_map.1 hx
  rw [Dict.eq_filter_of_mem_groupBy hgroup]
  exact Nat.sub_eq_zero_of_le (h group.1)

/-! ## The first page -/

/-- Entries with different start times, the latest first, are the sorted ones backwards. -/
theorem insertionSort_ge_eq (hl : (l.map CronRunEntry.startedAt).Nodup)
    {sorted : List (CronRunEntry τ)} (hperm : sorted.Perm l) (hsorted : sorted.Pairwise le) :
    l.insertionSort ge = sorted.reverse := by
  refine List.Perm.eq_of_pairwise (fun a b ha hb hab hba => ?_)
    (List.pairwise_insertionSort ge l) (List.pairwise_reverse.2 hsorted)
    ((List.perm_insertionSort ge l).trans (hperm.symm.trans (List.reverse_perm sorted).symm))
  refine List.inj_on_of_nodup_map hl ((List.perm_insertionSort ge l).mem_iff.1 ha)
    (hperm.mem_iff.1 (List.mem_reverse.1 hb)) (le_antisymm hba hab)

theorem filter_keeps_jobId (lower : String → String) (s : CronRunStore τ) (jobId : String) :
    s.filter (({ jobId := some jobId } : Filters).keeps lower) = runsOf jobId s := by
  refine List.filter_congr fun e _ => ?_
  simp [Filters.keeps]

theorem take_drop_take {α : Type*} {limit offset : ℕ} (h : offset + limit ≤ m) (l : List α) :
    ((l.take m).drop offset).take limit = (l.drop offset).take limit := by
  rw [List.drop_take, List.take_take, Nat.min_eq_left]
  omega

/-- The first page of a job's history is what it was. -/
theorem list_prune (hruns : ((runsOf jobId s).map CronRunEntry.startedAt).Nodup)
    (lower : String → String) {limit offset : ℕ} (h : offset + limit ≤ n + 1) :
    list lower (prune (n + 1 : ℕ) s).1 { jobId := some jobId } limit offset =
      list lower s { jobId := some jobId } limit offset := by
  have hperm := runsOf_prune n s jobId
  have hsorted := List.pairwise_insertionSort le (runsOf jobId s)
  have hsort := List.perm_insertionSort le (runsOf jobId s)
  have hkept : ((runsOf jobId (prune (n + 1 : ℕ) s).1).map CronRunEntry.startedAt).Nodup := by
    refine (hperm.map _).nodup_iff.2 (((List.drop_sublist _ _).map _).nodup ?_)
    exact (hsort.map _).nodup_iff.2 hruns
  rw [list, list, filter_keeps_jobId, filter_keeps_jobId,
    insertionSort_ge_eq hruns hsort hsorted,
    insertionSort_ge_eq hkept hperm.symm (hsorted.sublist (List.drop_sublist _ _)), keepLast,
    List.reverse_drop]
  rcases Nat.lt_or_ge ((runsOf jobId s).insertionSort le).length (n + 1) with hlt | hge
  · rw [Nat.sub_eq_zero_of_le hlt.le, Nat.sub_zero, ← List.length_reverse, List.take_length]
  · rw [Nat.sub_sub_self hge, take_drop_take h]

/-- Pruning leaves the latest entries of each job, as many as asked for, and counts the others, none
of which is later than one that stays. Pruning once more changes nothing, and where no two runs of a
job have started at one time, the first page of its history is what it was. -/
theorem prune_spec (n : ℕ) (s : CronRunStore τ) :
    (prune (n + 1 : ℕ) s).1 ⊆ s ∧
    (prune (n + 1 : ℕ) s).1.length + (prune (n + 1 : ℕ) s).2 = s.length ∧
    prune (n + 1 : ℕ) (prune (n + 1 : ℕ) s).1 = ((prune (n + 1 : ℕ) s).1, 0) ∧
    ∀ jobId,
      (runsOf jobId (prune (n + 1 : ℕ) s).1).length = min (n + 1) (runsOf jobId s).length ∧
      (∀ y ∈ runsOf jobId s, y ∉ (prune (n + 1 : ℕ) s).1 →
        ∀ x ∈ runsOf jobId (prune (n + 1 : ℕ) s).1, y.startedAt ≤ x.startedAt) ∧
      (((runsOf jobId s).map CronRunEntry.startedAt).Nodup → ∀ lower limit offset,
        offset + limit ≤ n + 1 →
          list lower (prune (n + 1 : ℕ) s).1 { jobId := some jobId } limit offset =
            list lower s { jobId := some jobId } limit offset) := by
  refine ⟨fun e => mem_of_mem_prune, length_prune n s, prune_of_few fun jobId => ?_,
    fun jobId => ⟨length_runsOf_prune n s jobId, fun y hy hgone x hx => ?_,
      fun hruns lower limit offset h => list_prune hruns lower h⟩⟩
  · rw [length_runsOf_prune]
    exact Nat.min_le_left _ _
  · exact startedAt_le_of_pruned hy hgone hx

end CronRunStore

/-! ## Fires side by side -/

/-- What a fire reads of a `CronJob`. -/
structure CronJob where
  id : String
  enabled : Bool

/-- The jobs, the history, the runs that are under way and those that were cancelled, and the ids
that were drawn. `fired` has the jobs that have fired since the history was last pruned. -/
structure CronScheduler (τ : Type*) where
  jobs : Dict String CronJob := []
  runs : CronRunStore τ := []
  underWay : List String := []
  cancelled : List String := []
  drawn : List String := []
  fired : List String := []

/-- What happens between two awaits. -/
inductive Event (τ : Type*) where
  | add (job : CronJob)
  | remove (jobId : String)
  | toggle (jobId : String) (enabled : Bool)
  /-- A job fires, up to the dispatch. -/
  | fire (jobId runId : String) (now : τ)
  /-- The dispatch comes back, with so many results and answers of the agent. -/
  | dispatched (runId : String) (results agentYielded : ℕ) (now : τ)
  | raised (runId : String) (now : τ)
  | cancel (runId : String)

namespace CronScheduler

variable {τ : Type*} [LinearOrder τ]

/-- `CronRunStore.update`. -/
def update (runId : String) (f : CronRunEntry τ → CronRunEntry τ) : CronRunStore τ → CronRunStore τ
  | [] => []
  | e :: s => if e.runId = runId then f e :: s else e :: update runId f s

/-- The delivery status of an outcome. -/
def deliveryStatus (results agentYielded : ℕ) : Delivery :=
  if results ≠ 0 then .delivered else if agentYielded ≠ 0 then .skipped else .failed

/-- The update of an entry whose dispatch has come back. -/
def succeed (results agentYielded : ℕ) (now : τ) (e : CronRunEntry τ) : CronRunEntry τ :=
  { e with
    endedAt := some now
    status := .ok
    deliveryStatus := some (deliveryStatus results agentYielded) }

/-- The update of an entry whose dispatch has raised. -/
def fail (now : τ) (e : CronRunEntry τ) : CronRunEntry τ :=
  { e with
    endedAt := some now
    status := .error
    error := some "dispatch raised an exception"
    deliveryStatus := some .failed }

/-- The default of `max_per_job`. -/
def maxPerJob : ℕ := 100

/-- `_fire`, up to the dispatch. -/
def fire (s : CronScheduler τ) (jobId runId : String) (now : τ) : CronScheduler τ :=
  match s.jobs.get? jobId with
  | none => s
  | some job =>
    if job.enabled then
      { s with
        runs := s.runs ++ [{ runId, jobId, startedAt := now }]
        underWay := s.underWay ++ [runId]
        drawn := s.drawn ++ [runId]
        fired := s.fired ++ [jobId] }
    else s

def step (s : CronScheduler τ) : Event τ → CronScheduler τ
  | .add job => if job.id ∈ s.jobs.keys then s else { s with jobs := s.jobs.set job.id job }
  | .remove jobId => { s with jobs := s.jobs.erase jobId }
  | .toggle jobId enabled =>
    match s.jobs.get? jobId with
    | none => s
    | some job => { s with jobs := s.jobs.set jobId { job with enabled } }
  -- an id is not drawn twice
  | .fire jobId runId now => if runId ∈ s.drawn then s else s.fire jobId runId now
  | .dispatched runId results agentYielded now =>
    if runId ∈ s.underWay then
      { s with
        runs := ((update runId (succeed results agentYielded now) s.runs).prune maxPerJob).1
        underWay := s.underWay.erase runId
        fired := [] }
    else s
  | .raised runId now =>
    if runId ∈ s.underWay then
      { s with
        runs := update runId (fail now) s.runs
        underWay := s.underWay.erase runId }
    else s
  | .cancel runId =>
    if runId ∈ s.underWay then
      { s with underWay := s.underWay.erase runId, cancelled := s.cancelled ++ [runId] }
    else s

def run (events : List (Event τ)) : CronScheduler τ :=
  events.foldl step {}

/-- The runs that have not ended. -/
def notEnded (s : CronScheduler τ) : List String :=
  s.underWay ++ s.cancelled

/-- An entry is shown as running exactly if its run has not ended. -/
def Shown (notEnded : List String) (e : CronRunEntry τ) : Prop :=
  (e.status = .running ↔ e.runId ∈ notEnded) ∧ (e.endedAt = none ↔ e.runId ∈ notEnded)

variable {s : CronScheduler τ} {runs : CronRunStore τ} {runId jobId : String}
  {f : CronRunEntry τ → CronRunEntry τ} {e : CronRunEntry τ}

theorem map_runId_update (hf : ∀ e, (f e).runId = e.runId) (runs : CronRunStore τ) :
    (update runId f runs).map CronRunEntry.runId = runs.map CronRunEntry.runId := by
  induction runs with
  | nil => rfl
  | cons e runs ih =>
    rw [update]
    split_ifs
    · rw [List.map_cons, List.map_cons, hf]
    · rw [List.map_cons, List.map_cons, ih]

theorem length_runsOf_update (hf : ∀ e, (f e).jobId = e.jobId) (jobId : String)
    (runs : CronRunStore τ) :
    (CronRunStore.runsOf jobId (update runId f runs)).length =
      (CronRunStore.runsOf jobId runs).length := by
  induction runs with
  | nil => rfl
  | cons e runs ih =>
    rw [CronRunStore.runsOf, CronRunStore.runsOf] at ih ⊢
    rw [update]
    split_ifs
    · rw [List.filter_cons, List.filter_cons, hf]
      split_ifs
      · rfl
      · rfl
    · rw [List.filter_cons, List.filter_cons]
      split_ifs
      · rw [List.length_cons, List.length_cons, ih]
      · exact ih

/-- An entry is what it was, or the one that was updated. -/
theorem mem_update (hruns : (runs.map CronRunEntry.runId).Nodup) (h : e ∈ update runId f runs) :
    (e ∈ runs ∧ e.runId ≠ runId) ∨ ∃ old ∈ runs, old.runId = runId ∧ e = f old := by
  induction runs with
  | nil => cases h
  | cons e' runs ih =>
    obtain ⟨hhead, htail⟩ := List.nodup_cons.1 hruns
    rw [update] at h
    split_ifs at h with heq
    · rcases List.mem_cons.1 h with rfl | hmem
      · exact .inr ⟨e', List.mem_cons_self, heq, rfl⟩
      · refine .inl ⟨List.mem_cons_of_mem _ hmem, fun hsame => hhead ?_⟩
        rw [heq, ← hsame]
        exact List.mem_map_of_mem hmem
    · rcases List.mem_cons.1 h with rfl | hmem
      · exact .inl ⟨List.mem_cons_self, heq⟩
      · rcases ih htail hmem with ⟨hold, hne⟩ | ⟨old, hold, hid, hnew⟩
        · exact .inl ⟨List.mem_cons_of_mem _ hold, hne⟩
        · exact .inr ⟨old, List.mem_cons_of_mem _ hold, hid, hnew⟩

/-- No run is drawn twice, the entries say which have ended, and there are not too many. -/
structure Ok (s : CronScheduler τ) : Prop where
  nodup : s.notEnded.Nodup
  runs_nodup : (s.runs.map CronRunEntry.runId).Nodup
  notEnded_drawn : ∀ runId ∈ s.notEnded, runId ∈ s.drawn
  runs_drawn : ∀ e ∈ s.runs, e.runId ∈ s.drawn
  shown : ∀ e ∈ s.runs, Shown s.notEnded e
  few : ∀ jobId, (CronRunStore.runsOf jobId s.runs).length ≤ maxPerJob + s.fired.count jobId

theorem Shown.congr {a b : List String} (h : Shown a e) (hiff : e.runId ∈ a ↔ e.runId ∈ b) :
    Shown b e :=
  ⟨h.1.trans hiff, h.2.trans hiff⟩

theorem Ok.fire (h : Ok s) (hnew : runId ∉ s.drawn) (jobId : String) (now : τ) :
    Ok (s.fire jobId runId now) := by
  rw [CronScheduler.fire]
  rcases s.jobs.get? jobId with _ | job
  · exact h
  · dsimp only
    split_ifs
    · have hnot : runId ∉ s.notEnded := fun hmem => hnew (h.notEnded_drawn _ hmem)
      have hmiddle : s.underWay ++ [runId] ++ s.cancelled = s.underWay ++ runId :: s.cancelled := by
        rw [List.append_assoc, List.singleton_append]
      have hmem (x : String) : x ∈ s.underWay ++ [runId] ++ s.cancelled ↔
          x = runId ∨ x ∈ s.notEnded := by
        rw [hmiddle, List.mem_append, List.mem_cons, notEnded, List.mem_append]
        tauto
      refine ⟨?_, ?_, fun x hx => ?_, fun e he => ?_, fun e he => ?_, fun jobId' => ?_⟩
      · rw [notEnded]
        dsimp only
        rw [hmiddle]
        exact List.nodup_middle.2 (List.nodup_cons.2 ⟨hnot, h.nodup⟩)
      · rw [List.map_append, List.map_singleton]
        refine h.runs_nodup.append (List.nodup_singleton _) ?_
        rw [List.disjoint_singleton]
        intro hin
        obtain ⟨e, he, heq⟩ := List.mem_map.1 hin
        have heq' : e.runId = runId := heq
        exact hnew (heq' ▸ h.runs_drawn e he)
      · rcases (hmem x).1 hx with rfl | hx
        · exact List.mem_append_right _ (List.mem_singleton_self _)
        · exact List.mem_append_left _ (h.notEnded_drawn x hx)
      · rcases List.mem_append.1 he with he | he
        · exact List.mem_append_left _ (h.runs_drawn e he)
        · obtain rfl := List.mem_singleton.1 he
          exact List.mem_append_right _ (List.mem_singleton_self _)
      · rcases List.mem_append.1 he with he | he
        · have hne : e.runId ≠ runId := fun heq => hnew (heq ▸ h.runs_drawn e he)
          exact (h.shown e he).congr ((hmem e.runId).trans (or_iff_right hne)).symm
        · obtain rfl := List.mem_singleton.1 he
          have hin : runId ∈ s.underWay ++ [runId] ++ s.cancelled := (hmem runId).2 (.inl rfl)
          exact ⟨⟨fun _ => hin, fun _ => rfl⟩, ⟨fun _ => hin, fun _ => rfl⟩⟩
      · have hfew := h.few jobId'
        rw [List.count_append, CronRunStore.runsOf, List.filter_append, List.length_append]
        rw [CronRunStore.runsOf] at hfew
        by_cases heq : jobId = jobId'
        · subst heq
          have hone : (List.filter (fun e : CronRunEntry τ => decide (e.jobId = jobId))
              [{ runId, jobId, startedAt := now }]).length = 1 := by simp
          rw [List.count_singleton_self, hone]
          omega
        · rw [List.filter_cons_of_neg (by simpa using heq), List.filter_nil, List.length_nil]
          omega
    · exact h

/-- What ends a run that is under way. -/
theorem Ok.ends (h : Ok s) (hway : runId ∈ s.underWay)
    (hid : ∀ e, (f e).runId = e.runId) (hjob : ∀ e, (f e).jobId = e.jobId)
    (hended : ∀ e, (f e).status ≠ .running ∧ (f e).endedAt ≠ none) :
    Ok { s with runs := update runId f s.runs, underWay := s.underWay.erase runId } := by
  have herase : s.underWay.erase runId ++ s.cancelled = s.notEnded.erase runId :=
    (List.erase_append_left _ hway).symm
  have hmem (x : String) : x ∈ s.underWay.erase runId ++ s.cancelled ↔
      x ≠ runId ∧ x ∈ s.notEnded := by
    rw [herase]
    exact h.nodup.mem_erase_iff
  refine ⟨?_, ?_, fun x hx => ?_, fun e he => ?_, fun e he => ?_, fun jobId => ?_⟩
  · rw [notEnded]
    dsimp only
    rw [herase]
    exact h.nodup.erase _
  · rw [map_runId_update hid]
    exact h.runs_nodup
  · exact h.notEnded_drawn x ((hmem x).1 hx).2
  · rcases mem_update h.runs_nodup he with ⟨hold, -⟩ | ⟨old, hold, -, rfl⟩
    · exact h.runs_drawn e hold
    · rw [hid]
      exact h.runs_drawn old hold
  · rcases mem_update h.runs_nodup he with ⟨hold, hne⟩ | ⟨old, hold, hold_id, rfl⟩
    · exact (h.shown e hold).congr ((hmem e.runId).trans (and_iff_right hne)).symm
    · have hgone : (f old).runId ∉ s.underWay.erase runId ++ s.cancelled := fun hin =>
        ((hmem _).1 hin).1 ((hid old).trans hold_id)
      exact ⟨iff_of_false (hended old).1 hgone, iff_of_false (hended old).2 hgone⟩
  · rw [length_runsOf_update hjob]
    exact h.few jobId

theorem Ok.prune (h : Ok s) :
    Ok { s with runs := (s.runs.prune maxPerJob).1, fired := [] } := by
  have hsubperm : (s.runs.prune maxPerJob).1.Subperm s.runs := CronRunStore.subperm_prune 99 s.runs
  refine ⟨h.nodup, ?_, h.notEnded_drawn, fun e he => h.runs_drawn e (hsubperm.subset he),
    fun e he => h.shown e (hsubperm.subset he), fun jobId => ?_⟩
  · obtain ⟨l, hperm, hsublist⟩ := hsubperm
    exact (hperm.map _).nodup_iff.1 ((hsublist.map _).nodup h.runs_nodup)
  · have hlength : (CronRunStore.runsOf jobId (s.runs.prune maxPerJob).1).length =
        min 100 (CronRunStore.runsOf jobId s.runs).length :=
      CronRunStore.length_runsOf_prune 99 s.runs jobId
    rw [hlength, maxPerJob]
    exact (Nat.min_le_left _ _).trans (Nat.le_add_right _ _)

theorem Ok.cancel (h : Ok s) (hway : runId ∈ s.underWay) :
    Ok { s with underWay := s.underWay.erase runId, cancelled := s.cancelled ++ [runId] } := by
  have hperm : (s.underWay.erase runId ++ (s.cancelled ++ [runId])).Perm s.notEnded := by
    rw [← List.append_assoc, notEnded]
    refine List.perm_append_comm.trans ?_
    exact (List.perm_cons_erase hway).symm.append_right s.cancelled
  exact ⟨hperm.nodup_iff.2 h.nodup, h.runs_nodup,
    fun x hx => h.notEnded_drawn x (hperm.mem_iff.1 hx), h.runs_drawn,
    fun e he => (h.shown e he).congr hperm.mem_iff.symm, h.few⟩

theorem Ok.step (h : Ok s) (event : Event τ) : Ok (s.step event) := by
  rcases event with job | jobId | ⟨jobId, enabled⟩ | ⟨jobId, runId, now⟩ |
    ⟨runId, results, agentYielded, now⟩ | ⟨runId, now⟩ | runId
  · rw [CronScheduler.step]
    split_ifs
    · exact h
    · exact ⟨h.nodup, h.runs_nodup, h.notEnded_drawn, h.runs_drawn, h.shown, h.few⟩
  · exact ⟨h.nodup, h.runs_nodup, h.notEnded_drawn, h.runs_drawn, h.shown, h.few⟩
  · rw [CronScheduler.step]
    rcases s.jobs.get? jobId with _ | job
    · exact h
    · exact ⟨h.nodup, h.runs_nodup, h.notEnded_drawn, h.runs_drawn, h.shown, h.few⟩
  · rw [CronScheduler.step]
    split_ifs with hdrawn
    · exact h
    · exact h.fire hdrawn jobId now
  · rw [CronScheduler.step]
    split_ifs with hway
    · have hends : Ok { s with
          runs := update runId (succeed results agentYielded now) s.runs
          underWay := s.underWay.erase runId } :=
        h.ends hway (fun _ => rfl) (fun _ => rfl) fun _ => ⟨nofun, nofun⟩
      exact hends.prune
    · exact h
  · rw [CronScheduler.step]
    split_ifs with hway
    · have hends : Ok { s with
          runs := update runId (fail now) s.runs
          underWay := s.underWay.erase runId } :=
        h.ends hway (fun _ => rfl) (fun _ => rfl) fun _ => ⟨nofun, nofun⟩
      exact hends
    · exact h
  · rw [CronScheduler.step]
    split_ifs with hway
    · exact h.cancel hway
    · exact h

/-- In every order in which jobs are added, removed and toggled, fire, and their dispatches come
back, raise or are cancelled, an entry is shown as running, and has no end, exactly if its run has
not come back and has not raised, and of a job there are no more entries than a hundred and those of
its fires since a dispatch last came back. -/
theorem fires_spec (events : List (Event τ)) :
    (∀ e ∈ (run events).runs, Shown (run events).notEnded e) ∧
    ((run events).runs.map CronRunEntry.runId).Nodup ∧
    ∀ jobId, (CronRunStore.runsOf jobId (run events).runs).length ≤
      maxPerJob + (run events).fired.count jobId := by
  have hempty : Ok ({} : CronScheduler τ) :=
    ⟨List.nodup_nil, List.nodup_nil, fun _ h => absurd h List.not_mem_nil,
      fun _ h => absurd h List.not_mem_nil, fun _ h => absurd h List.not_mem_nil,
      fun _ => Nat.zero_le _⟩
  have hok : Ok (run events) := foldl_invariant (fun _ event h => h.step event) hempty events
  exact ⟨hok.shown, hok.runs_nodup, hok.few⟩

end CronScheduler

end OxenClaw.Cron
