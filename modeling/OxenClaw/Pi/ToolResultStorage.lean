import OxenClaw.Lib.Dict
import OxenClaw.Lib.Runs
import OxenClaw.Pi.Run.Loop

/-!
# Stored tool results

When a storage directory is set, an output over its threshold goes to the file
`{tool_use_id}.txt` and is shown as a block that names the file, and while the outputs of a
round are over a budget together the largest follow (`persistEach`, `enforceTurnBudget`). Both
come after outputs have been clamped to a share of the context, and a file is written again
when an id comes again.

`Faithful` : a file that a shown block names holds what that tool call returned. It is kept
along a session whose writes are sound, of outputs that were not clamped and to files that no
block of another output names (`faithful_of_sound`).
-/

namespace OxenClaw.Storage

open OxenClaw Run

/-- The parts of a resolved path. -/
abbrev Path := List String

def previewChars : ℕ := 600

def defaultTurnBudget : ℤ := 200000

/-- `_UNBOUNDED`. -/
def unbounded : ℤ := 10 ^ 12

structure BudgetConfig where
  defaultThreshold : ℤ := 8000
  pinnedThresholds : Dict String ℤ :=
    [("read_file", unbounded), ("memory_get", unbounded), ("memory_search", unbounded)]

/-- `resolve_threshold`. -/
def resolveThreshold (toolName : String) (config : BudgetConfig) : ℤ :=
  (config.pinnedThresholds.get? toolName).getD config.defaultThreshold

/-- The storage directory : where it resolves to, how a name joined to it resolves, and how a
path prints. Resolving may raise. -/
structure StorageDir where
  root : Option Path
  resolve : Path → String → Option Path
  str : Path → String

/-- `_safe_join`, where it does not raise. -/
def safeJoin (dir : StorageDir) (toolUseId : String) : Option Path :=
  dir.root.bind fun root =>
    (dir.resolve root (toolUseId ++ ".txt")).filter fun candidate => root.isPrefixOf candidate

/-- How the write of a file ends. -/
inductive WriteOutcome where
  | written
  | osError
  | raises
  deriving DecidableEq

/-- `_build_block`. -/
def buildBlock (absPath : String) (totalChars : ℕ) (preview : String) : String :=
  "\n[Output persisted to " ++ absPath ++ " (" ++ toString totalChars ++ " chars). " ++
    "Use read_file with offset/limit to inspect.]\n" ++
    "Preview (first " ++ toString previewChars ++ " chars):\n" ++ preview ++ "\n" ++
    "…[truncated, full file at path above]"

/-- The block of an output. -/
def blockOf (dir : StorageDir) (target : Path) (output : String) : String :=
  buildBlock (dir.str target) output.length (String.ofList (output.toList.take previewChars))

/-- What `maybe_persist_tool_result` does : return the output, write it to a file and return
its block, or raise. -/
inductive Persisted where
  | kept
  | written (target : Path)
  | raises
  deriving DecidableEq

/-- `maybe_persist_tool_result`. -/
def maybePersist (dir : StorageDir) (toolUseId toolName output : String) (config : BudgetConfig)
    (outcome : WriteOutcome) : Persisted :=
  if (output.length : ℤ) ≤ resolveThreshold toolName config then .kept
  else
    match safeJoin dir toolUseId, outcome with
    | some target, .written => .written target
    | some _, .osError => .kept
    | _, _ => .raises

/-- `_is_persisted`. -/
def isPersisted (text : String) : Bool :=
  Py.contains "[Output persisted to" text && Py.contains "Use read_file with offset/limit" text

/-- A result as it is shown, with what the tool returned and the file its block names. -/
structure StoredResult where
  shown : ToolExecutionResult
  original : String
  file : Option Path := none

/-- The storage of a session : its files, the results in the transcript, and those of the
round on their way. -/
structure Store where
  files : Dict Path String := []
  transcript : List StoredResult := []
  batch : List StoredResult := []

/-- How the calls of a round fare with the file system : the first writes, by result, and
those for the budget, by number. -/
structure Disk where
  first : ℕ → WriteOutcome := fun _ => .written
  budget : ℕ → WriteOutcome := fun _ => .written

section

variable (dir : StorageDir)

namespace Store

/-- The result at an index is persisted, under an id and a name. Whether its output is replaced,
and whether the call returns. -/
def persistAt (s : Store) (i : ℕ) (toolUseId toolName : String) (config : BudgetConfig)
    (outcome : WriteOutcome) : Store × Bool × Bool :=
  match s.batch[i]? with
  | none => (s, false, true)
  | some r =>
    match maybePersist dir toolUseId toolName r.shown.output config outcome with
    | .kept => (s, false, true)
    | .raises => (s, false, false)
    | .written target =>
      let files := s.files.set target r.shown.output
      let block := blockOf dir target r.shown.output
      if block = r.shown.output then ({ s with files }, false, true)
      else
        let r := { r with shown := { r.shown with output := block }, file := some target }
        ({ s with files, batch := s.batch.set i r }, true, true)

/-- The id and the name a result is first persisted under. -/
def idAt (s : Store) (i : ℕ) : String :=
  (s.batch[i]?.map fun r => r.shown.id).getD ""

def nameAt (s : Store) (i : ℕ) : String :=
  (s.batch[i]?.map fun r => r.shown.name).getD ""

/-- Every result of the round, in order. -/
def persistEach (disk : Disk) : Store → List ℕ → Store × Bool
  | s, [] => (s, true)
  | s, i :: is =>
    match s.persistAt dir i (s.idAt i) (s.nameAt i) {} (disk.first i) with
    | (s, _, true) => persistEach disk s is
    | (s, _, false) => (s, false)

/-- A result the budget may send to disk. -/
def eligible (r : StoredResult) : Bool :=
  decide (r.shown.output ≠ "" ∧ r.shown.name ∉ ({} : BudgetConfig).pinnedThresholds.keys) &&
    !isPersisted r.shown.output

/-- The first of the largest eligible results. -/
def candidate (batch : List StoredResult) : Option ℕ :=
  (batch.zipIdx.foldl (fun best e =>
    if eligible e.1 ∧ best.all fun b => b.2 < e.1.shown.output.length then
      some (e.2, e.1.shown.output.length)
    else best) (none : Option (ℕ × ℕ))).map Prod.fst

/-- `sum(len(r["output"]))`. -/
def total (batch : List StoredResult) : ℤ :=
  (batch.map fun r => (r.shown.output.length : ℤ)).sum

/-- The id for the budget : `str(target.get("id") or f"budget_{i}")`. -/
def budgetId (s : Store) (i : ℕ) : String :=
  if s.idAt i = "" then "budget_" ++ toString i else s.idAt i

def budgetName (s : Store) (i : ℕ) : String :=
  if s.nameAt i = "" then "__budget__" else s.nameAt i

/-- The loop of `enforce_turn_budget` from its `k`-th round on. -/
def enforceTurnBudget (disk : Disk) : ℕ → ℕ → Store → Store × Bool
  | 0, _, s => (s, true)
  | fuel + 1, k, s =>
    if total s.batch ≤ defaultTurnBudget then (s, true)
    else
      match candidate s.batch with
      | none => (s, true)
      | some i =>
        match s.persistAt dir i (s.budgetId i) (s.budgetName i) { defaultThreshold := 0 }
            (disk.budget k) with
        | (s, true, _) => enforceTurnBudget disk fuel (k + 1) s
        | (s, false, returns) => (s, returns)

end Store

/-- A round of tool calls : the turn and model it is part of, what the tools returned, and the
file system. -/
structure ToolBatch where
  call : TurnCall
  activeModel : Model
  results : List ToolExecutionResult
  disk : Disk := {}

/-- The results of a round once they are clamped. -/
def ToolBatch.clamped (b : ToolBatch) : List StoredResult :=
  b.results.map fun r => { shown := capResult b.call b.activeModel r, original := r.output }

/-- A round. Where it raises, its turn ends and the transcript has none of its results. -/
def Store.step (s : Store) (b : ToolBatch) : Store :=
  match ({ s with batch := b.clamped }).persistEach dir b.disk (List.range b.results.length) with
  | (s, false) => { s with batch := [] }
  | (s, true) =>
    match s.enforceTurnBudget dir b.disk s.batch.length 0 with
    | (s, false) => { s with batch := [] }
    | (s, true) => { s with transcript := s.transcript ++ s.batch, batch := [] }

end

section

variable {dir : StorageDir}

/-! ## The budget -/

/-- A block is told from an output. -/
theorem isPersisted_blockOf (dir : StorageDir) (target : Path) (output : String) :
    isPersisted (blockOf dir target output) = true := by
  have hopen : Py.contains "[Output persisted to" "\n[Output persisted to " = true := by
    decide
  have hread : Py.contains "Use read_file with offset/limit"
      "Use read_file with offset/limit to inspect.]\n" = true := by
    decide
  unfold isPersisted blockOf buildBlock
  rw [Bool.and_eq_true_iff]
  constructor
  · iterate 11 apply Py.contains_append_left
    exact hopen
  · iterate 6 apply Py.contains_append_left
    exact Py.contains_append_right _ hread

namespace Store

/-- The candidate is eligible, and there is one while any result is. -/
theorem candidate_spec (batch : List StoredResult) :
    (candidate batch = none → ∀ r ∈ batch, eligible r = false) ∧
      ∀ i ∈ candidate batch, ∃ r, batch[i]? = some r ∧ eligible r = true := by
  let pick (best : Option (ℕ × ℕ)) (e : StoredResult × ℕ) : Option (ℕ × ℕ) :=
    if eligible e.1 ∧ best.all fun b => b.2 < e.1.shown.output.length then
      some (e.2, e.1.shown.output.length)
    else best
  have hfold (es : List (StoredResult × ℕ)) (best : Option (ℕ × ℕ)) :
      (es.foldl pick best = none → best = none ∧ ∀ e ∈ es, eligible e.1 = false) ∧
        ∀ b ∈ es.foldl pick best, b ∈ best ∨ ∃ e ∈ es, e.2 = b.1 ∧ eligible e.1 = true := by
    induction es generalizing best with
    | nil => exact ⟨fun h => ⟨h, by simp⟩, fun b hb => .inl hb⟩
    | cons e es ih =>
      obtain ⟨hnone, hsome⟩ := ih (pick best e)
      refine ⟨fun h => ?_, fun b hb => ?_⟩
      · obtain ⟨hpick, hrest⟩ := hnone h
        have hbest : best = none := by
          by_contra hbest
          simp only [pick] at hpick
          split_ifs at hpick
          exact hbest hpick
        subst hbest
        have he : eligible e.1 = false := by
          by_contra he
          have he : eligible e.1 = true := by simpa using he
          simp [pick, he] at hpick
        exact ⟨rfl, List.forall_mem_cons.2 ⟨he, hrest⟩⟩
      · rcases hsome b hb with hpick | ⟨e', he', hindex⟩
        · simp only [pick] at hpick
          split_ifs at hpick with he
          · obtain rfl := Option.some.inj hpick
            exact .inr ⟨e, List.mem_cons_self, rfl, he.1⟩
          · exact .inl hpick
        · exact .inr ⟨e', List.mem_cons_of_mem _ he', hindex⟩
  obtain ⟨hnone, hsome⟩ := hfold batch.zipIdx none
  refine ⟨fun h r hr => ?_, fun i hi => ?_⟩
  · obtain ⟨i, hi⟩ := List.getElem?_of_mem hr
    exact (hnone (Option.map_eq_none_iff.1 h)).2 (r, i) (List.mem_zipIdx_iff_getElem?.2 hi)
  · obtain ⟨b, hb, rfl⟩ := Option.map_eq_some_iff.1 hi
    rcases hsome b hb with hmem | ⟨e, he, hindex, heligible⟩
    · cases hmem
    · exact ⟨e.1, hindex ▸ List.mem_zipIdx_iff_getElem?.1 he, heligible⟩

/-- No result is left to send to disk. -/
theorem enforceTurnBudget_of_none {disk : Disk} {fuel k : ℕ} {s : Store}
    (h : ∀ r ∈ s.batch, eligible r = false) : s.enforceTurnBudget dir disk fuel k = (s, true) := by
  have hnone : candidate s.batch = none := by
    rcases hcandidate : candidate s.batch with _ | i
    · rfl
    · obtain ⟨r, hr, heligible⟩ := (candidate_spec s.batch).2 i hcandidate
      rw [h r (List.mem_of_getElem? hr)] at heligible
      cases heligible
  cases fuel with
  | zero => rfl
  | succ fuel =>
    rw [enforceTurnBudget, hnone]
    split_ifs <;> rfl

/-- A result that is replaced is not eligible again. -/
theorem countP_persistAt {s s' : Store} {i : ℕ} {toolUseId toolName : String}
    {config : BudgetConfig} {outcome : WriteOutcome} {returns : Bool} {r : StoredResult}
    (hr : s.batch[i]? = some r) (heligible : eligible r = true)
    (h : s.persistAt dir i toolUseId toolName config outcome = (s', true, returns)) :
    s'.batch.countP eligible + 1 = s.batch.countP eligible := by
  unfold persistAt at h
  rw [hr] at h
  dsimp only at h
  split at h
  · simp at h
  · simp at h
  · next target _ =>
    split_ifs at h
    · simp at h
    · obtain ⟨rfl, -⟩ := Prod.mk.inj h
      have hlt : i < s.batch.length := (List.getElem?_eq_some_iff.1 hr).1
      have hget : s.batch[i] = r := (List.getElem?_eq_some_iff.1 hr).2
      have hnot : eligible { r with
          shown := { r.shown with output := blockOf dir target r.shown.output }
          file := some target } = false := by
        rw [eligible, isPersisted_blockOf]
        simp
      have hpos : 0 < s.batch.countP eligible :=
        List.countP_pos_iff.2 ⟨r, List.mem_of_getElem? hr, heligible⟩
      simp only [List.countP_set hlt, hget, heligible, hnot]
      simp
      omega

/-- The loop ends by itself : more rounds change nothing once there are as many as results. -/
theorem enforceTurnBudget_succ {disk : Disk} {fuel k : ℕ} {s : Store}
    (h : s.batch.countP eligible ≤ fuel) :
    s.enforceTurnBudget dir disk (fuel + 1) k = s.enforceTurnBudget dir disk fuel k := by
  induction fuel generalizing k s with
  | zero =>
    have hnone : ∀ r ∈ s.batch, eligible r = false := by
      intro r hr
      by_contra heligible
      have hpos := List.countP_pos_iff.2 ⟨r, hr, by simpa using heligible⟩
      omega
    rw [enforceTurnBudget_of_none hnone, enforceTurnBudget_of_none hnone]
  | succ fuel ih =>
    rw [enforceTurnBudget, enforceTurnBudget]
    split_ifs
    · rfl
    rcases hcandidate : candidate s.batch with _ | i
    · rfl
    obtain ⟨r, hr, heligible⟩ := (candidate_spec s.batch).2 i hcandidate
    dsimp only
    rcases hresult : s.persistAt dir i (s.budgetId i) (s.budgetName i) { defaultThreshold := 0 }
      (disk.budget k) with ⟨s', _ | _, returns⟩
    · rfl
    · have hcount := countP_persistAt hr heligible hresult
      exact ih (by omega)

/-! ## The run loop -/

/-- A result but for the output it is shown with. -/
def callOf (r : StoredResult) : ToolExecutionResult × String :=
  ({ r.shown with output := "" }, r.original)

/-- Nothing but the outputs of the round is different. -/
def SameCalls (s s' : Store) : Prop :=
  s'.transcript = s.transcript ∧ s'.batch.map callOf = s.batch.map callOf

theorem SameCalls.trans {s s' s'' : Store} (h : SameCalls s s') (h' : SameCalls s' s'') :
    SameCalls s s'' :=
  ⟨h'.1.trans h.1, h'.2.trans h.2⟩

theorem sameCalls_persistAt (dir : StorageDir) (s : Store) (i : ℕ) (toolUseId toolName : String)
    (config : BudgetConfig) (outcome : WriteOutcome) :
    SameCalls s (s.persistAt dir i toolUseId toolName config outcome).1 := by
  unfold persistAt
  rcases hr : s.batch[i]? with _ | r
  · exact ⟨rfl, rfl⟩
  dsimp only
  split
  · exact ⟨rfl, rfl⟩
  · exact ⟨rfl, rfl⟩
  · split_ifs
    · exact ⟨rfl, rfl⟩
    · refine ⟨rfl, List.ext_getElem? fun j => ?_⟩
      rw [List.getElem?_map, List.getElem?_map, List.getElem?_set]
      split_ifs with hj hlt
      · rw [← hj, hr]
        rfl
      · rw [← hj, List.getElem?_eq_none (by omega)]
      · rfl

theorem sameCalls_persistEach (dir : StorageDir) (disk : Disk) (is : List ℕ) (s : Store) :
    SameCalls s (s.persistEach dir disk is).1 := by
  induction is generalizing s with
  | nil => exact ⟨rfl, rfl⟩
  | cons i is ih =>
    have hnext := sameCalls_persistAt dir s i (s.idAt i) (s.nameAt i) {} (disk.first i)
    rw [persistEach]
    rcases hresult : s.persistAt dir i (s.idAt i) (s.nameAt i) {} (disk.first i) with
      ⟨s', replaced, _ | _⟩
    all_goals rw [hresult] at hnext
    · exact hnext
    · exact hnext.trans (ih s')

theorem sameCalls_enforceTurnBudget (dir : StorageDir) (disk : Disk) (fuel k : ℕ) (s : Store) :
    SameCalls s (s.enforceTurnBudget dir disk fuel k).1 := by
  induction fuel generalizing k s with
  | zero => exact ⟨rfl, rfl⟩
  | succ fuel ih =>
    rw [enforceTurnBudget]
    split_ifs
    · exact ⟨rfl, rfl⟩
    rcases candidate s.batch with _ | i
    · exact ⟨rfl, rfl⟩
    have hnext := sameCalls_persistAt dir s i (s.budgetId i) (s.budgetName i)
      { defaultThreshold := 0 } (disk.budget k)
    dsimp only
    rcases hresult : s.persistAt dir i (s.budgetId i) (s.budgetName i) { defaultThreshold := 0 }
      (disk.budget k) with ⟨s', _ | _, returns⟩
    all_goals rw [hresult] at hnext
    · exact hnext
    · exact hnext.trans (ih (k + 1) s')

/-- The results of a round that returns are those the run loop makes of it, for what the round
sends to disk. -/
theorem finishResults_of_calls {s : Store} {b : ToolBatch}
    (h : s.batch.map callOf = b.clamped.map callOf) :
    finishResults { b.call with
        spill := some fun _ i => (s.batch[i]?.map fun r => r.shown.output).getD "" }
      b.activeModel b.results = s.batch.map StoredResult.shown := by
  refine List.ext_getElem? fun i => ?_
  have hcall := congrArg (·[i]?) h
  simp only [List.getElem?_map, ToolBatch.clamped] at hcall
  simp only [finishResults, List.getElem?_mapIdx, List.getElem?_map]
  rcases hr : s.batch[i]? with _ | r
  · rw [hr] at hcall
    rcases hraw : b.results[i]? with _ | raw
    · rfl
    · rw [hraw] at hcall
      simp at hcall
  · rw [hr] at hcall
    rcases hraw : b.results[i]? with _ | raw
    · rw [hraw] at hcall
      simp at hcall
    · rw [hraw] at hcall
      have hshown := congrArg Prod.fst (Option.some.inj hcall)
      simp only [callOf, ToolExecutionResult.mk.injEq, true_and] at hshown
      obtain ⟨hid, hname, herror⟩ := hshown
      change some (⟨(capResult b.call b.activeModel raw).id, (capResult b.call b.activeModel raw).name,
        r.shown.output, (capResult b.call b.activeModel raw).isError⟩ : ToolExecutionResult) =
          some r.shown
      rw [← hid, ← hname, ← herror]

/-- A round that returns adds to the transcript what the run loop makes of its results, for
what it sends to disk; one that raises adds nothing. -/
theorem transcript_step (dir : StorageDir) (s : Store) (b : ToolBatch) :
    (s.step dir b).transcript = s.transcript ∨
      ∃ spill, (s.step dir b).transcript.map StoredResult.shown =
        s.transcript.map StoredResult.shown ++
          finishResults { b.call with spill := some spill } b.activeModel b.results := by
  have hfirst := sameCalls_persistEach dir b.disk (List.range b.results.length)
    { s with batch := b.clamped }
  rw [step]
  rcases hresult : Store.persistEach dir b.disk { s with batch := b.clamped }
    (List.range b.results.length) with ⟨s', _ | _⟩
  all_goals
    rw [hresult] at hfirst
    dsimp only
  · exact .inl hfirst.1
  · have hsecond := hfirst.trans (sameCalls_enforceTurnBudget dir b.disk s'.batch.length 0 s')
    rcases hresult' : s'.enforceTurnBudget dir b.disk s'.batch.length 0 with ⟨s'', _ | _⟩
    all_goals
      rw [hresult'] at hsecond
      dsimp only
    · exact .inl hsecond.1
    · refine .inr ⟨fun _ i => (s''.batch[i]?.map fun r => r.shown.output).getD "", ?_⟩
      rw [finishResults_of_calls hsecond.2, List.map_append, hsecond.1]

end Store

end

/-! ## Files that hold what their blocks name -/

section

variable (dir : StorageDir)

/-- A write of an output as the tool returned it, to a file that is named by no block of
another output. -/
def WriteSound (s : Store) (i : ℕ) (toolUseId toolName : String) (config : BudgetConfig)
    (outcome : WriteOutcome) : Prop :=
  ∀ r ∈ s.batch[i]?, ∀ target,
    maybePersist dir toolUseId toolName r.shown.output config outcome = .written target →
      r.shown.output = r.original ∧
        ∀ r' ∈ s.transcript ++ s.batch, r'.file = some target → r'.original = r.original

/-- The writes of a round by result are sound, as far as it gets. -/
def EachSound (disk : Disk) : Store → List ℕ → Prop
  | _, [] => True
  | s, i :: is =>
    let r := s.persistAt dir i (s.idAt i) (s.nameAt i) {} (disk.first i)
    WriteSound dir s i (s.idAt i) (s.nameAt i) {} (disk.first i) ∧
      (r.2.2 = true → EachSound disk r.1 is)

/-- So are those for the budget. -/
def BudgetSound (disk : Disk) : ℕ → ℕ → Store → Prop
  | 0, _, _ => True
  | fuel + 1, k, s =>
    defaultTurnBudget < Store.total s.batch → ∀ i ∈ Store.candidate s.batch,
      let r := s.persistAt dir i (s.budgetId i) (s.budgetName i) { defaultThreshold := 0 }
        (disk.budget k)
      WriteSound dir s i (s.budgetId i) (s.budgetName i) { defaultThreshold := 0 }
          (disk.budget k) ∧
        (r.2.1 = true → BudgetSound disk fuel (k + 1) r.1)

def BatchSound (s : Store) (b : ToolBatch) : Prop :=
  let r := ({ s with batch := b.clamped }).persistEach dir b.disk (List.range b.results.length)
  EachSound dir b.disk { s with batch := b.clamped } (List.range b.results.length) ∧
    (r.2 = true → BudgetSound dir b.disk r.1.batch.length 0 r.1)

/-- A result that names a file is shown as the block of what the tool returned, and the file
holds it. -/
def Faithful (s : Store) : Prop :=
  ∀ r ∈ s.transcript ++ s.batch, ∀ path ∈ r.file,
    s.files.get? path = some r.original ∧ r.shown.output = blockOf dir path r.original

end

section

variable {dir : StorageDir}

theorem Faithful.of_files {s : Store} (h : Faithful dir s) {target : Path} {output : String}
    (hothers : ∀ r ∈ s.transcript ++ s.batch, r.file = some target → r.original = output) :
    Faithful dir { s with files := s.files.set target output } := by
  intro r hr path hpath
  obtain ⟨hfile, hshown⟩ := h r hr path hpath
  refine ⟨?_, hshown⟩
  rw [Dict.get?_set]
  split_ifs with htarget
  · rw [hothers r hr (htarget ▸ hpath)]
  · exact hfile

/-- A sound write leaves every block with the file it names. -/
theorem Faithful.persistAt {s : Store} (h : Faithful dir s) {i : ℕ} {toolUseId toolName : String}
    {config : BudgetConfig} {outcome : WriteOutcome}
    (hsound : WriteSound dir s i toolUseId toolName config outcome) :
    Faithful dir (s.persistAt dir i toolUseId toolName config outcome).1 := by
  unfold Store.persistAt
  rcases hr : s.batch[i]? with _ | r
  · exact h
  dsimp only
  rcases hpersist : maybePersist dir toolUseId toolName r.shown.output config outcome with
    _ | target | _
  · exact h
  · obtain ⟨hclamp, hothers⟩ := hsound r hr target hpersist
    have hfiles : Faithful dir { s with files := s.files.set target r.shown.output } :=
      h.of_files fun r' hr' hfile => (hothers r' hr' hfile).trans hclamp.symm
    dsimp only
    split_ifs
    · exact hfiles
    · intro r' hr' path hpath
      rcases List.mem_append.1 hr' with hr' | hr'
      · exact hfiles r' (List.mem_append_left _ hr') path hpath
      · rcases List.mem_or_eq_of_mem_set hr' with hr' | rfl
        · exact hfiles r' (List.mem_append_right _ hr') path hpath
        · obtain rfl := Option.some.inj hpath
          exact ⟨by rw [Dict.get?_set_self, hclamp], congrArg (blockOf dir target) hclamp⟩
  · exact h

theorem Faithful.persistEach {disk : Disk} {is : List ℕ} {s : Store} (h : Faithful dir s)
    (hsound : EachSound dir disk s is) : Faithful dir (s.persistEach dir disk is).1 := by
  induction is generalizing s with
  | nil => exact h
  | cons i is ih =>
    obtain ⟨hwrite, hrest⟩ := hsound
    have hnext := h.persistAt hwrite
    rw [Store.persistEach]
    rcases hresult : s.persistAt dir i (s.idAt i) (s.nameAt i) {} (disk.first i) with
      ⟨s', replaced, _ | _⟩
    all_goals rw [hresult] at hnext hrest
    · exact hnext
    · exact ih hnext (hrest rfl)

theorem Faithful.enforceTurnBudget {disk : Disk} {fuel k : ℕ} {s : Store} (h : Faithful dir s)
    (hsound : BudgetSound dir disk fuel k s) :
    Faithful dir (s.enforceTurnBudget dir disk fuel k).1 := by
  induction fuel generalizing k s with
  | zero => exact h
  | succ fuel ih =>
    rw [Store.enforceTurnBudget]
    split_ifs with htotal
    · exact h
    rcases hcandidate : Store.candidate s.batch with _ | i
    · exact h
    obtain ⟨hwrite, hrest⟩ := hsound (not_le.1 htotal) i hcandidate
    have hnext := h.persistAt hwrite
    dsimp only
    rcases hresult : s.persistAt dir i (s.budgetId i) (s.budgetName i) { defaultThreshold := 0 }
      (disk.budget k) with ⟨s', _ | _, returns⟩
    all_goals rw [hresult] at hnext hrest
    · exact hnext
    · exact ih hnext (hrest rfl)

/-- Results on their way that are dropped. -/
theorem Faithful.drop {s : Store} (h : Faithful dir s) : Faithful dir { s with batch := [] } := by
  intro r hr path hpath
  have hr : r ∈ s.transcript ++ [] := hr
  rw [List.append_nil] at hr
  exact h r (List.mem_append_left _ hr) path hpath

theorem Faithful.start {s : Store} (h : Faithful dir s) (b : ToolBatch) :
    Faithful dir { s with batch := b.clamped } := by
  intro r hr path hpath
  rcases List.mem_append.1 hr with hr | hr
  · exact h r (List.mem_append_left _ hr) path hpath
  · obtain ⟨r', -, rfl⟩ := List.mem_map.1 hr
    cases hpath

theorem Faithful.step {s : Store} {b : ToolBatch} (h : Faithful dir s)
    (hsound : BatchSound dir s b) : Faithful dir (s.step dir b) := by
  obtain ⟨heach, hbudget⟩ := hsound
  have hfirst := (h.start b).persistEach heach
  rw [Store.step]
  rcases hresult : Store.persistEach dir b.disk { s with batch := b.clamped }
    (List.range b.results.length) with ⟨s', _ | _⟩
  all_goals
    rw [hresult] at hfirst hbudget
    dsimp only
  · exact hfirst.drop
  · have hsecond := hfirst.enforceTurnBudget (hbudget rfl)
    dsimp only at hsecond
    rcases hresult' : s'.enforceTurnBudget dir b.disk s'.batch.length 0 with ⟨s'', _ | _⟩
    all_goals
      rw [hresult'] at hsecond
      dsimp only
    · exact hsecond.drop
    · intro r hr path hpath
      have hr : r ∈ (s''.transcript ++ s''.batch) ++ [] := hr
      rw [List.append_nil] at hr
      exact hsecond r hr path hpath

/-- Along a session whose writes are sound, a file that a shown block names holds what that
tool call returned, after any later calls. -/
theorem faithful_of_sound (dir : StorageDir) {batches : List ToolBatch}
    (h : EachStep (Store.step dir) (BatchSound dir) {} batches) :
    ∀ s ∈ trail (Store.step dir) {} batches, ∀ r ∈ s.transcript, ∀ path ∈ r.file,
      s.files.get? path = some r.original ∧ r.shown.output = blockOf dir path r.original := by
  have hnew : Faithful dir {} := by
    intro r hr
    simp at hr
  intro s hs r hr
  exact h.forall_mem_trail (I := Faithful dir) (fun _ _ h hsound => h.step hsound) hnew s hs r
    (List.mem_append_left _ hr)

end

/-- A directory without links. -/
def plainDir : StorageDir where
  root := some ["results"]
  resolve root name := some (root ++ [name])
  str path := "/" ++ "/".intercalate path

/-- A turn with nothing special about it. -/
def plainCall : TurnCall where
  model := { id := "llama3.1:8b" }
  history := []
  tools := []
  text := ⟨id, fun _ => "", fun _ => ""⟩
  runAttempt := fun _ => none
  abortSet := fun _ => false
  classifyApiError := fun _ => { reason := .unknown, retryable := false }
  hasImportantTail := fun _ => false
  digest := fun _ => ""

/-- A round with one output, a line of that many characters. -/
def oneLine (n : ℕ) : ToolBatch where
  call := plainCall
  activeModel := { id := "llama3.1:8b" }
  results := [⟨"call_1", "web_fetch", String.ofList (List.replicate n 'a'), false⟩]

/-- The clamp of a model with 8192 tokens. -/
theorem calculateMaxToolResultChars_8192 : calculateMaxToolResultChars 8192 = 9828 := by
  norm_num [calculateMaxToolResultChars, Py.int, minKeepChars, hardMaxToolResultChars]

/-- The only write of such a round. -/
theorem maybePersist_oneLine {output : String} (hlong : 8000 < output.length) :
    maybePersist plainDir "call_1" "web_fetch" output {} .written =
      .written ["results", "call_1.txt"] := by
  have hthreshold : resolveThreshold "web_fetch" {} = 8000 := by decide
  have hjoin : safeJoin plainDir "call_1" = some ["results", "call_1.txt"] := by decide
  simp only [maybePersist, hthreshold, hjoin]
  rw [if_neg (by omega)]

theorem head?_append {a : String} {c : Char} (h : a.toList.head? = some c) (b : String) :
    (a ++ b).toList.head? = some c := by
  rw [String.toList_append, List.head?_append, h]
  rfl

theorem blockOf_ne {dir : StorageDir} {target : Path} {output : String}
    (hfirst : output.toList.head? = some 'a') : blockOf dir target output ≠ output := by
  have hopen : "\n[Output persisted to ".toList.head? = some '\n' := rfl
  have hblock : (blockOf dir target output).toList.head? = some '\n' := by
    unfold blockOf buildBlock
    iterate 11 apply head?_append
    exact hopen
  intro h
  rw [h, hfirst] at hblock
  exact absurd hblock (by decide)

/-- How the first results of a session come out of the clamp, and out of the storage. -/
def shownAs (n : ℕ) (output : String) (file : Option Path) : StoredResult where
  shown := ⟨"call_1", "web_fetch", output, false⟩
  original := String.ofList (List.replicate n 'a')
  file := file

/-- The first file of a session. -/
theorem persistEach_oneLine {n : ℕ} {output : String} (hlong : 8000 < output.length)
    (hfirst : output.toList.head? = some 'a')
    (hclamped : (oneLine n).clamped = [shownAs n output none]) :
    Store.persistEach plainDir (oneLine n).disk { ({} : Store) with batch := (oneLine n).clamped }
        (List.range (oneLine n).results.length) =
      ({ files := [(["results", "call_1.txt"], output)]
         batch := [shownAs n (blockOf plainDir ["results", "call_1.txt"] output)
          (some ["results", "call_1.txt"])] }, true) := by
  rw [hclamped]
  change Store.persistEach plainDir {} _ [0] = _
  simp [Store.persistEach, Store.persistAt, Store.idAt, Store.nameAt, shownAs,
    maybePersist_oneLine hlong, blockOf_ne hfirst, Dict.set]

/-- A block is left as it is by the budget. -/
theorem not_eligible_shownAs {n : ℕ} {dir : StorageDir} {target : Path} {output : String}
    {file : Option Path} : Store.eligible (shownAs n (blockOf dir target output) file) = false := by
  simp [Store.eligible, shownAs, isPersisted_blockOf]

theorem step_oneLine {n : ℕ} {output : String} (hlong : 8000 < output.length)
    (hfirst : output.toList.head? = some 'a')
    (hclamped : (oneLine n).clamped = [shownAs n output none]) :
    Store.step plainDir {} (oneLine n) =
      { files := [(["results", "call_1.txt"], output)]
        transcript := [shownAs n (blockOf plainDir ["results", "call_1.txt"] output)
          (some ["results", "call_1.txt"])] } := by
  rw [Store.step, persistEach_oneLine hlong hfirst hclamped]
  dsimp only
  rw [Store.enforceTurnBudget_of_none]
  · rfl
  · intro r hr
    obtain rfl := List.mem_singleton.1 hr
    exact not_eligible_shownAs

theorem clamped_oneLine_short {n : ℕ} (h : n ≤ 9828) :
    (oneLine n).clamped = [shownAs n (String.ofList (List.replicate n 'a')) none] := by
  have hcap : capResult plainCall { id := "llama3.1:8b" }
      ⟨"call_1", "web_fetch", String.ofList (List.replicate n 'a'), false⟩ =
        ⟨"call_1", "web_fetch", String.ofList (List.replicate n 'a'), false⟩ := by
    change (if calculateMaxToolResultChars 8192 < _ then _ else _) = _
    rw [calculateMaxToolResultChars_8192, if_neg]
    simpa using h
  exact congrArg (fun shown => [(⟨shown, String.ofList (List.replicate n 'a'), none⟩ :
    StoredResult)]) hcap

/-- A long output is clamped first. -/
theorem clamped_oneLine_long {n : ℕ} (h : 9828 < n) :
    (oneLine n).clamped = [shownAs n
      (String.ofList (List.replicate 9611 'a') ++ truncationSuffix) none] := by
  have hline : '\n' ∉ (String.ofList (List.replicate n 'a')).toList := by
    simp [List.mem_replicate]
  have htruncate : truncateToolResultText (fun _ => false) (String.ofList (List.replicate n 'a'))
      9828 = String.ofList (List.replicate 9611 'a') ++ truncationSuffix := by
    have hmin : min ((9828 : ℤ) - (217 : ℕ)).toNat n = 9611 := by omega
    rw [truncate_of_oneLine hline (by rw [length_truncationSuffix]; decide) (by simpa using h),
      length_truncationSuffix, String.toList_ofList, List.take_replicate, hmin]
  have hcap : capResult plainCall { id := "llama3.1:8b" }
      ⟨"call_1", "web_fetch", String.ofList (List.replicate n 'a'), false⟩ =
        ⟨"call_1", "web_fetch", String.ofList (List.replicate 9611 'a') ++ truncationSuffix,
          false⟩ := by
    change (if calculateMaxToolResultChars 8192 < _ then _ else _) = _
    rw [calculateMaxToolResultChars_8192, if_pos (by simpa using h), ← htruncate]
    rfl
  exact congrArg (fun shown => [(⟨shown, String.ofList (List.replicate n 'a'), none⟩ :
    StoredResult)]) hcap

theorem eachStep_oneLine {n : ℕ} (hlong : 8000 < n) (hshort : n ≤ 9828) :
    EachStep (Store.step plainDir) (BatchSound plainDir) {} [oneLine n] := by
  have hclamped := clamped_oneLine_short hshort
  have hfirst : (String.ofList (List.replicate n 'a')).toList.head? = some 'a' := by
    rw [String.toList_ofList, List.head?_replicate, if_neg (by omega)]
  have hresult := persistEach_oneLine (by simpa using hlong) hfirst hclamped
  refine ⟨⟨⟨?_, fun _ => trivial⟩, fun _ => ?_⟩, trivial⟩
  · intro r hr target hwritten
    rw [hclamped] at hr ⊢
    obtain rfl := Option.some.inj hr
    refine ⟨rfl, fun r' hr' hfile => ?_⟩
    obtain rfl := List.mem_singleton.1 hr'
    cases hfile
  · rw [hresult]
    rintro - i hi
    obtain ⟨r, hr, heligible⟩ := (Store.candidate_spec _).2 i hi
    obtain rfl := List.mem_singleton.1 (List.mem_of_getElem? hr)
    rw [not_eligible_shownAs] at heligible
    cases heligible

/-- A result that is shown as a block. -/
theorem mem_transcript_oneLine {n : ℕ} (hlong : 8000 < n) (hshort : n ≤ 9828) :
    shownAs n (blockOf plainDir ["results", "call_1.txt"] (String.ofList (List.replicate n 'a')))
        (some ["results", "call_1.txt"]) ∈
      ([oneLine n].foldl (Store.step plainDir) {}).transcript := by
  have hfirst : (String.ofList (List.replicate n 'a')).toList.head? = some 'a' := by
    rw [String.toList_ofList, List.head?_replicate, if_neg (by omega)]
  rw [List.foldl_cons, List.foldl_nil,
    step_oneLine (by simpa using hlong) hfirst (clamped_oneLine_short hshort)]
  exact List.mem_singleton_self _

theorem original_shownAs (n : ℕ) (output : String) (file : Option Path) :
    (shownAs n output file).original = String.ofList (List.replicate n 'a') :=
  rfl

/-- An output that is stored whole. -/
theorem faithful_of_sound_oneLine :
    ([oneLine 9000].foldl (Store.step plainDir) {}).files.get? ["results", "call_1.txt"] =
      some (String.ofList (List.replicate 9000 'a')) := by
  have hstored := faithful_of_sound plainDir (eachStep_oneLine (by decide) (by decide)) _
    (foldl_mem_trail [oneLine 9000] _) _ (mem_transcript_oneLine (by decide) (by decide)) _ rfl
  rw [original_shownAs] at hstored
  exact hstored.1

/-- A long output : its file holds what the clamp left of it. -/
theorem file_oneLine_ne {n : ℕ} (h : 9828 < n) :
    ¬∀ s ∈ trail (Store.step plainDir) {} [oneLine n], ∀ r ∈ s.transcript, ∀ path ∈ r.file,
      s.files.get? path = some r.original := by
  intro hfaithful
  have hlength : (String.ofList (List.replicate 9611 'a') ++ truncationSuffix).length = 9828 := by
    rw [String.length_append, String.length_ofList, List.length_replicate,
      length_truncationSuffix]
  have hfirst : (String.ofList (List.replicate 9611 'a') ++ truncationSuffix).toList.head? =
      some 'a' :=
    head?_append (by rw [String.toList_ofList, List.head?_replicate, if_neg (by decide)]) _
  have hstep := step_oneLine (by omega) hfirst (clamped_oneLine_long h)
  have hfile := hfaithful _ (List.mem_cons_of_mem _ (List.mem_singleton_self _))
  rw [hstep] at hfile
  have hcut := congrArg String.length
    (Option.some.inj (hfile _ (List.mem_singleton_self _) _ rfl))
  have hwhole : (String.ofList (List.replicate n 'a')).length = n := by
    rw [String.length_ofList, List.length_replicate]
  rw [hlength] at hcut
  exact absurd (hcut.trans hwhole) (by omega)

/-- An output that is clamped before it is stored. -/
theorem clamped_not_faithful :
    ¬∀ (dir : StorageDir) (batches : List ToolBatch),
      ∀ s ∈ trail (Store.step dir) {} batches, ∀ r ∈ s.transcript, ∀ path ∈ r.file,
        s.files.get? path = some r.original := by
  intro h
  exact file_oneLine_ne (n := 20000) (by decide) (h plainDir [oneLine 20000])

end OxenClaw.Storage
