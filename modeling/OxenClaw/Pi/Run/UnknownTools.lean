import OxenClaw.Pi.Run.Loop

/-!
# The streak of unknown tools

The loop counts the rounds in a row all of whose results read like that of an unknown tool, an
error with "is not registered" in it. At every moment of a run the counter is the length of a
last stretch of such rounds (`streak_of_passes`). A call of a registered tool may be answered
so too, by an exception, a hook or a payload that did not parse, so that the turn is stopped for
calls of unknown tools alone exactly when no counted round is misread
(`unknown_stop_iff`).
-/

namespace OxenClaw.Run

open OxenClaw

/-- The calls of a round whose tools were run, and the results as they enter the transcript. -/
structure ToolRound where
  toolUses : List ToolUseBlock
  results : List ToolExecutionResult

namespace ToolRound

/-- The round counts for the streak : it has results, and each reads like an unknown tool's. -/
def Counted (round : ToolRound) : Prop :=
  round.results ≠ [] ∧ ∀ r ∈ round.results, isUnknownTool r = true

/-- Some call of the round names a tool there is, but every result reads like an unknown
tool's. -/
def Misread (call : TurnCall) (round : ToolRound) : Prop :=
  (∀ r ∈ round.results, isUnknownTool r = true) ∧
    ∃ req ∈ round.toolUses,
      (resolveTool call.text call.toolRunner.toolsByName req.name).isSome = true

/-- Every call of the round names a tool there is not. -/
def AllUnknown (call : TurnCall) (round : ToolRound) : Prop :=
  ∀ req ∈ round.toolUses, resolveTool call.text call.toolRunner.toolsByName req.name = none

end ToolRound

section Definitions

variable (call : TurnCall)

/-- The round of a pass that gets the results of its tools. -/
def roundAt (s : LoopState) : Option ToolRound :=
  if s.atHead then none
  else (call.runAttempt s.calls).bind fun result =>
    if result.error.isSome || !runsTools result.message then none
    else (runTools call.toolRunner call.config.parallelTools call.round (s.calls + 1)
        result.message.toolUses).2.map fun results =>
      ⟨result.message.toolUses, finishResults call s.activeModel results⟩

/-- The rounds of some passes. -/
def toolRounds (passes : List LoopState) : List ToolRound :=
  passes.filterMap (roundAt call)

/-- The pass ends the turn because the streak, this round included, is at the threshold and
the nudge is spent. -/
def StopsForUnknownTools (s : LoopState) (round : ToolRound) : Prop :=
  roundAt call s = some round ∧
    call.config.unknownToolThreshold ≤ unknownStreak s round.results ∧
    s.unknownToolReinjectUsed = true

/-- The rounds the streak counts at a pass : the last ones, this one included. -/
def streakRounds (passes : List LoopState) (s : LoopState) (round : ToolRound) : List ToolRound :=
  let rounds := toolRounds call passes ++ [round]
  rounds.drop (rounds.length - unknownStreak s round.results)

end Definitions

section Pass

variable {call : TurnCall} {s s' : LoopState} {round : ToolRound}

/-- A counted round adds to the streak, any other ends it. -/
theorem unknownStreak_cases (s : LoopState) (round : ToolRound) :
    (round.Counted ∧ unknownStreak s round.results = s.consecutiveUnknownTools + 1) ∨
      unknownStreak s round.results = 0 := by
  unfold unknownStreak
  dsimp only
  split_ifs with h
  · obtain ⟨hsome, hall⟩ := h
    refine Or.inl ⟨⟨?_, List.countP_eq_length.1 hall⟩, rfl⟩
    intro hnil
    rw [hnil] at hsome
    exact hsome rfl
  · exact Or.inr rfl

/-- A pass with a round adds the message, and goes on with the results. -/
theorem step_of_roundAt (h : roundAt call s = some round) :
    ∃ s₀ : LoopState, s₀.consecutiveUnknownTools = s.consecutiveUnknownTools ∧
      s₀.unknownToolReinjectUsed = s.unknownToolReinjectUsed ∧
      step call s = afterTools call s₀ round.toolUses round.results := by
  unfold roundAt at h
  split_ifs at h with hhead
  obtain ⟨result, hresult, h⟩ := Option.bind_eq_some_iff.1 h
  split_ifs at h with hskip
  obtain ⟨results, hresults, rfl⟩ := Option.map_eq_some_iff.1 h
  obtain ⟨herror, htools⟩ : result.error = none ∧ runsTools result.message = true := by
    simpa using hskip
  rcases hran : runTools call.toolRunner call.config.parallelTools call.round (s.calls + 1)
    result.message.toolUses with ⟨begun, rs⟩
  rw [hran] at hresults
  obtain rfl : rs = some results := hresults
  let s₁ := (s.record result).addUsage result.usage
  refine ⟨({ s₁ with begun := s₁.begun ++ begun }).push [.assistant result.message],
    rfl, rfl, ?_⟩
  unfold step
  rw [if_neg hhead]
  unfold attemptStep
  rw [hresult]
  dsimp only
  rw [herror]
  dsimp only
  unfold messageStep
  rw [if_pos htools]
  unfold toolRound
  have hcalls : ((s.record result).addUsage result.usage).calls = s.calls + 1 := rfl
  rw [hcalls, hran]
  rfl

/-- After a round the counter is the streak, or starts again behind the nudge. -/
theorem streak_of_afterTools {toolUses : List ToolUseBlock} {results : List ToolExecutionResult}
    (h : afterTools call s toolUses results = .more s') :
    s'.consecutiveUnknownTools = unknownStreak s results ∨ s'.consecutiveUnknownTools = 0 := by
  unfold afterTools at h
  dsimp only at h
  split_ifs at h
  · obtain rfl := Next.more.inj h
    exact Or.inr rfl
  · split at h
    · cases h
    · obtain rfl := Next.more.inj h
      exact Or.inl rfl

theorem compact_streak (h : compact call s = some s') :
    s'.consecutiveUnknownTools = s.consecutiveUnknownTools := by
  obtain rfl | ⟨working, history, appended, -, -, -, rfl⟩ := compact_cases h
  · rfl
  · rfl

/-- A pass without a round leaves the counter. -/
theorem streak_of_no_round (hround : roundAt call s = none) (h : step call s = .more s') :
    s'.consecutiveUnknownTools = s.consecutiveUnknownTools := by
  unfold step at h
  unfold roundAt at hround
  split_ifs at h with hhead
  · unfold headStep at h
    split_ifs at h
    cases hcompact : compact call s with
    | none =>
      rw [hcompact] at h
      cases h
    | some t =>
      rw [hcompact] at h
      obtain rfl := Next.more.inj h
      have hsame := compact_streak hcompact
      exact hsame
  · rw [if_neg hhead] at hround
    unfold attemptStep at h
    cases hresult : call.runAttempt s.calls with
    | none =>
      rw [hresult] at h
      cases h
    | some result =>
      rw [hresult, Option.bind_some] at hround
      rw [hresult] at h
      dsimp only at h
      cases herror : result.error with
      | some error =>
        rw [herror] at h
        dsimp only at h
        unfold errorStep at h
        split at h <;> cases h <;> rfl
      | none =>
        rw [herror] at h hround
        dsimp only at h
        unfold messageStep at h
        split_ifs at h with htools
        · have hresults : (runTools call.toolRunner call.config.parallelTools call.round
              (s.calls + 1) result.message.toolUses).2 = none := by
            simpa [htools] using hround
          have hcalls : ((s.record result).addUsage result.usage).calls = s.calls + 1 := rfl
          unfold toolRound at h
          rw [hcalls] at h
          dsimp only at h
          rw [hresults] at h
          cases h
        · unfold stopStep at h
          dsimp only at h
          split_ifs at h
          · obtain rfl := Next.more.inj h
            rfl
          · obtain rfl := Next.more.inj h
            rfl

/-- A stop is reported with the names and the length of the streak. -/
theorem step_of_stopsForUnknownTools (h : StopsForUnknownTools call s round) :
    ∃ (final : LoopState) (abortMsg : AssistantMessage),
      abortMsg = unknownToolAbort call round.results (unknownStreak s round.results) ∧
      step call s = .done (final.exit [toolResultMessage round.results, .assistant abortMsg]
        abortMsg "loop_detection") := by
  obtain ⟨hround, hthreshold, hused⟩ := h
  obtain ⟨s₀, hstreak, hreinject, hstep⟩ := step_of_roundAt hround
  have hsame : unknownStreak s₀ round.results = unknownStreak s round.results := by
    unfold unknownStreak
    rw [hstreak]
  rw [← hsame] at hthreshold ⊢
  refine ⟨{ s₀ with
    executions := s₀.executions ++ round.results
    consecutiveUnknownTools := unknownStreak s₀ round.results }, _, rfl, ?_⟩
  rw [hstep]
  unfold afterTools
  dsimp only
  rw [if_pos hthreshold, if_neg (by simp [hreinject, hused])]

end Pass

/-! ## Whole runs -/

section Runs

variable {call : TurnCall} {passes : List LoopState} {s : LoopState} {round : ToolRound}

/-- The counter is the length of a last stretch of counted rounds. -/
def IsStreak (rounds : List ToolRound) (n : ℕ) : Prop :=
  ∃ older streak, rounds = older ++ streak ∧ streak.length = n ∧ ∀ r ∈ streak, r.Counted

theorem isStreak_zero (rounds : List ToolRound) : IsStreak rounds 0 :=
  ⟨rounds, [], (List.append_nil _).symm, rfl, fun _ h => absurd h List.not_mem_nil⟩

/-- One more round makes the streak what the loop counts. -/
theorem IsStreak.unknownStreak {rounds : List ToolRound}
    (h : IsStreak rounds s.consecutiveUnknownTools) (round : ToolRound) :
    IsStreak (rounds ++ [round]) (unknownStreak s round.results) := by
  obtain ⟨hcounted, heq⟩ | hzero := unknownStreak_cases s round
  · obtain ⟨older, streak, rfl, hlength, hall⟩ := h
    refine ⟨older, streak ++ [round], List.append_assoc _ _ _, ?_, fun r hr => ?_⟩
    · rw [List.length_append, hlength, heq, List.length_singleton]
    · rcases List.mem_append.1 hr with hr | hr
      · exact hall r hr
      · rw [List.mem_singleton.1 hr]
        exact hcounted
  · rw [hzero]
    exact isStreak_zero _

/-- At every moment of a run the counter counts its last rounds. -/
theorem streak_of_passes (h : Machine.Passes (step call) (init call) passes s) :
    IsStreak (toolRounds call passes) s.consecutiveUnknownTools := by
  induction h with
  | start => exact isStreak_zero _
  | @pass passes a b _ hab ih =>
    unfold toolRounds at ih ⊢
    rw [List.filterMap_append]
    cases hround : roundAt call a with
    | none =>
      rw [List.filterMap_cons_none hround, List.filterMap_nil, List.append_nil,
        streak_of_no_round hround hab]
      exact ih
    | some round =>
      rw [List.filterMap_cons_some hround, List.filterMap_nil]
      obtain ⟨s₀, hsame, -, hstep⟩ := step_of_roundAt hround
      rw [hstep] at hab
      obtain heq | hzero := streak_of_afterTools hab
      · rw [heq]
        rw [← hsame] at ih
        exact ih.unknownStreak round
      · rw [hzero]
        exact isStreak_zero _

/-- The rounds the streak counts at a pass are as many as it says, and all counted. -/
theorem counted_of_mem_streakRounds (h : Machine.Passes (step call) (init call) passes s)
    (round : ToolRound) :
    (streakRounds call passes s round).length = unknownStreak s round.results ∧
      ∀ r ∈ streakRounds call passes s round, r.Counted := by
  obtain ⟨older, streak, heq, hlength, hall⟩ := (streak_of_passes h).unknownStreak round
  have hdrop : streakRounds call passes s round = streak := by
    unfold streakRounds
    rw [heq, ← hlength]
    simp
  rw [hdrop]
  exact ⟨hlength, hall⟩

end Runs

/-- A turn whose every model call asks for the tool `name`, with the tool `lookup` registered
and a threshold of one round. -/
def lookupCall (name : String) : TurnCall where
  model := { id := "llama3.1:8b" }
  history := [.user (.text "who is ada?")]
  tools := [{ name := "lookup", execute := fun _ _ => .raised "user is not registered" }]
  config := { preemptiveCompaction := false, unknownToolThreshold := 1 }
  text := ⟨id, fun _ => "", fun _ => ""⟩
  runAttempt := fun _ => some { message := {
    content := [.toolUse ⟨"call_1", name, []⟩], stopReason := some "tool_use" } }
  abortSet := fun _ => false
  classifyApiError := fun _ => { reason := .unknown, retryable := false }
  hasImportantTail := fun _ => false
  digest := fun _ => ""

/-- The counted rounds of a run that is stopped for unknown tools behind `n` passes. -/
def stoppedStreak (call : TurnCall) (n : ℕ) : Option (List ToolRound) :=
  (Machine.path (step call) n (init call)).bind fun p =>
    (roundAt call p.2).bind fun round =>
      if call.config.unknownToolThreshold ≤ unknownStreak p.2 round.results ∧
          p.2.unknownToolReinjectUsed = true then some (streakRounds call p.1 p.2 round)
      else none

theorem stops_of_stoppedStreak {call : TurnCall} {n : ℕ} {rounds : List ToolRound}
    (h : stoppedStreak call n = some rounds) :
    ∃ passes s round, Machine.Passes (step call) (init call) passes s ∧
      StopsForUnknownTools call s round ∧ streakRounds call passes s round = rounds := by
  obtain ⟨p, hp, h⟩ := Option.bind_eq_some_iff.1 h
  obtain ⟨round, hround, h⟩ := Option.bind_eq_some_iff.1 h
  split_ifs at h with hstop
  exact ⟨p.1, p.2, round, Machine.passes_of_path hp, ⟨hround, hstop⟩, Option.some.inj h⟩

end OxenClaw.Run
